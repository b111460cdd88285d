import Mathlib.Tactic.Common
import Mathlib.Data.List.Basic

/-!
# Programs seen through a view of their state

A partial program over a state is a `StateT σ Option`.  `Steps` says that it
returns from every state with one view, in a state with another one.
-/

namespace SmatchFormal.Lib

variable {σ δ α β : Type} {view : σ → δ} {before after last : δ}

/-- Every run from a state with the first view returns, in a state with the second one. -/
def Steps (view : σ → δ) (run : StateT σ Option α) (before after : δ) : Prop :=
  ∀ s, view s = before → ∃ a s', run s = some (a, s') ∧ view s' = after

namespace Steps

theorem pure (a : α) : Steps view (Pure.pure a : StateT σ Option α) before before := by
  intro s start
  exact ⟨a, s, rfl, start⟩

theorem bind {run : StateT σ Option α} {next : α → StateT σ Option β}
    (first : Steps view run before after) (second : ∀ a, Steps view (next a) after last) :
    Steps view (run >>= next) before last := by
  intro s start
  obtain ⟨a, s', result, middle⟩ := first s start
  obtain ⟨b, s'', rest, finish⟩ := second a s' middle
  refine ⟨b, s'', ?_, finish⟩
  change (run s).bind (fun p => next p.1 p.2) = _
  rw [result]
  exact rest

/-- Reading the state: what follows may use the view that it has. -/
theorem get_bind {next : σ → StateT σ Option β}
    (second : ∀ s, view s = before → Steps view (next s) before after) :
    Steps view (get >>= next) before after := by
  intro s start
  exact second s start s start

theorem get : Steps view (MonadState.get : StateT σ Option σ) before before := by
  intro s start
  exact ⟨s, s, rfl, start⟩

theorem update {change : σ → σ} (moves : ∀ s, view s = before → view (change s) = after) :
    Steps view (modify change : StateT σ Option Unit) before after := by
  intro s start
  exact ⟨(), change s, rfl, moves s start⟩

theorem ite {test : Prop} [Decidable test] {one two : StateT σ Option α}
    (yes : test → Steps view one before after) (no : ¬ test → Steps view two before after) :
    Steps view (if test then one else two) before after := by
  split
  · rename_i holds
    exact yes holds
  · rename_i fails
    exact no fails

/-- The last view only has to be the same. -/
theorem congr {run : StateT σ Option α} (step : Steps view run before after) (same : after = last) :
    Steps view run before last :=
  same ▸ step

end Steps

end SmatchFormal.Lib
