import Mathlib.Data.List.Basic

/-!
# Computations with a log

A value and what was logged on the way to it.  The rules say what the value is without the log,
and when everything in the log has a property.
-/

namespace SmatchFormal.Lib

open List

structure Logged (Entry α : Type) where
  value : α
  log : List Entry

namespace Logged

variable {Entry α β : Type}

instance : Monad (Logged Entry) where
  pure value := ⟨value, []⟩
  bind first next := ⟨(next first.value).value, first.log ++ (next first.value).log⟩

def All (holds : Entry → Prop) (run : Logged Entry α) : Prop := ∀ entry ∈ run.log, holds entry

variable {holds : Entry → Prop} {first : Logged Entry α} {next : α → Logged Entry β}

@[simp] theorem value_pure (value : α) : (pure value : Logged Entry α).value = value := rfl

@[simp] theorem value_bind : (first >>= next).value = (next first.value).value := rfl

@[simp] theorem all_pure (value : α) : All holds (pure value : Logged Entry α) :=
  fun _ member => (not_mem_nil member).elim

@[simp] theorem all_bind :
    All holds (first >>= next) ↔ All holds first ∧ All holds (next first.value) := by
  constructor
  · intro every
    exact ⟨fun entry member => every entry (mem_append_left _ member),
      fun entry member => every entry (mem_append_right _ member)⟩
  · rintro ⟨before, after⟩ entry member
    rcases mem_append.mp member with early | late
    · exact before entry early
    · exact after entry late

section Loops

variable {step : β → α → Logged Entry β} {list : List α} {state : β}

theorem value_foldlM {plain : β → α → β} (steps : ∀ state, ∀ a ∈ list,
      (step state a).value = plain state a) :
    (list.foldlM step state).value = list.foldl plain state := by
  induction list generalizing state with
  | nil => rfl
  | cons a rest ih =>
    have head := steps state a mem_cons_self
    rw [foldlM_cons, value_bind, head, foldl_cons]
    exact ih fun state a member => steps state a (mem_cons_of_mem _ member)

/-- A loop whose rounds log by the element only. -/
theorem all_foldlM_iff {each : α → Prop}
    (steps : ∀ state, ∀ a ∈ list, All holds (step state a) ↔ each a) :
    All holds (list.foldlM step state) ↔ ∀ a ∈ list, each a := by
  induction list generalizing state with
  | nil => exact iff_of_true (all_pure state) fun _ member => (not_mem_nil member).elim
  | cons a rest ih =>
    rw [foldlM_cons, all_bind, steps state a mem_cons_self,
      ih fun state a member => steps state a (mem_cons_of_mem _ member)]
    simp only [mem_cons, forall_eq_or_imp]

theorem all_foldlM (steps : ∀ state, ∀ a ∈ list, All holds (step state a)) :
    All holds (list.foldlM step state) :=
  (@all_foldlM_iff _ _ _ _ _ _ _ (fun _ => True) fun state a member =>
    iff_of_true (steps state a member) trivial).mpr fun _ _ => trivial

end Loops

end Logged

end SmatchFormal.Lib
