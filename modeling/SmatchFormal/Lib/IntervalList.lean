import Mathlib.Data.Int.ConditionallyCompleteOrder
import Mathlib.Tactic.Ring

/-!
# Canonical lists of integer intervals

A finite set of integers written as a list of closed intervals.  A list is
canonical when every interval is nonempty and consecutive intervals leave a gap
of at least one integer.  Two canonical lists of the same set are the same
list, so an operation on canonical lists is determined by the set it produces.
-/

namespace SmatchFormal.Lib.IntervalList

def toSet : List (Int × Int) → Set Int
  | [] => ∅
  | interval :: rest => Set.Icc interval.1 interval.2 ∪ toSet rest

/-- Nonempty intervals, sorted, disjoint and not adjacent. -/
def Canonical : List (Int × Int) → Prop
  | [] => True
  | interval :: rest =>
    interval.1 ≤ interval.2 ∧ (∀ next ∈ rest.head?, interval.2 + 1 < next.1) ∧ Canonical rest

instance decidableCanonical : (list : List (Int × Int)) → Decidable (Canonical list)
  | [] => inferInstanceAs (Decidable True)
  | _ :: rest =>
    have := decidableCanonical rest
    inferInstanceAs (Decidable (_ ∧ _ ∧ _))

instance decidableMemToSet (x : Int) : (list : List (Int × Int)) → Decidable (x ∈ toSet list)
  | [] => isFalse (fun impossible => impossible)
  | interval :: rest =>
    have := decidableMemToSet x rest
    inferInstanceAs (Decidable ((interval.1 ≤ x ∧ x ≤ interval.2) ∨ x ∈ toSet rest))

@[simp] theorem mem_toSet_nil (x : Int) : ¬ x ∈ toSet [] :=
  fun impossible => impossible

@[simp] theorem mem_toSet_cons (x : Int) (interval : Int × Int) (rest : List (Int × Int)) :
    x ∈ toSet (interval :: rest) ↔ interval.1 ≤ x ∧ x ≤ interval.2 ∨ x ∈ toSet rest :=
  Iff.rfl

theorem mem_toSet_iff (x : Int) (list : List (Int × Int)) :
    x ∈ toSet list ↔ ∃ interval ∈ list, interval.1 ≤ x ∧ x ≤ interval.2 := by
  induction list with
  | nil => simp
  | cons interval rest ih => simp only [mem_toSet_cons, ih, List.mem_cons, exists_eq_or_imp]

namespace Canonical

section

variable {interval : Int × Int} {rest : List (Int × Int)} (canonical : Canonical (interval :: rest))
include canonical

theorem tail : Canonical rest :=
  canonical.2.2

/-- Everything after the first interval lies beyond a gap. -/
theorem gap {next : Int × Int} (member : next ∈ rest) :
    interval.2 + 1 < next.1 := by
  induction rest generalizing interval with
  | nil => cases member
  | cons second rest ih =>
    have first := canonical.2.1 second rfl
    rcases List.mem_cons.mp member with same | inRest
    · rw [same]
      exact first
    · have later := ih canonical.tail inRest
      have nonempty := canonical.tail.1
      omega

theorem gap_of_mem {x : Int} (member : x ∈ toSet rest) :
    interval.2 + 1 < x := by
  obtain ⟨next, inRest, low, -⟩ := (mem_toSet_iff x rest).mp member
  have later := canonical.gap inRest
  omega

end

theorem nonempty {list : List (Int × Int)} (canonical : Canonical list) {interval : Int × Int}
    (member : interval ∈ list) : interval.1 ≤ interval.2 := by
  induction list with
  | nil => cases member
  | cons first rest ih =>
    rcases List.mem_cons.mp member with same | inRest
    · rw [same]
      exact canonical.1
    · exact ih canonical.tail inRest

/-- A nonempty interval before a gap keeps the list canonical. -/
theorem cons {interval : Int × Int} {rest : List (Int × Int)} (first : interval.1 ≤ interval.2)
    (beyond : ∀ next ∈ rest, interval.2 + 1 < next.1) (canonical : Canonical rest) :
    Canonical (interval :: rest) := by
  refine ⟨first, ?_, canonical⟩
  intro next found
  exact beyond next (List.mem_of_mem_head? found)

theorem eq_of_toSet_eq {first second : List (Int × Int)} (one : Canonical first)
    (two : Canonical second) (same : toSet first = toSet second) : first = second := by
  have transfer : ∀ x, x ∈ toSet first ↔ x ∈ toSet second := fun x => by rw [same]
  clear same
  induction first generalizing second with
  | nil =>
    cases second with
    | nil => rfl
    | cons other rest =>
      have impossible := (transfer other.1).mpr (.inl ⟨le_refl _, two.1⟩)
      exact False.elim (mem_toSet_nil _ impossible)
  | cons interval rest ih =>
    cases second with
    | nil =>
      have impossible := (transfer interval.1).mp (.inl ⟨le_refl _, one.1⟩)
      exact False.elim (mem_toSet_nil _ impossible)
    | cons other rest' =>
      simp only [mem_toSet_cons] at transfer
      have nonempty := one.1
      have nonempty' := two.1
      have beyond : ∀ x, x ∈ toSet rest → interval.2 + 1 < x := fun _ => one.gap_of_mem
      have beyond' : ∀ x, x ∈ toSet rest' → other.2 + 1 < x := fun _ => two.gap_of_mem
      -- Both sets have the same least element, and the first gap starts at the same place.
      have low : interval.1 = other.1 := by
        have into := (transfer interval.1).mp (.inl ⟨le_refl _, nonempty⟩)
        have back := (transfer other.1).mpr (.inl ⟨le_refl _, nonempty'⟩)
        rcases into with near | far <;> rcases back with near' | far'
        · omega
        · have later := beyond _ far'
          omega
        · have later := beyond' _ far
          omega
        · have later := beyond _ far'
          have later' := beyond' _ far
          omega
      have high : interval.2 = other.2 := by
        rcases Int.lt_trichotomy interval.2 other.2 with less | equal | greater
        · rcases (transfer (interval.2 + 1)).mpr (.inl ⟨by omega, by omega⟩) with near | far
          · omega
          · have later := beyond _ far
            omega
        · exact equal
        · rcases (transfer (other.2 + 1)).mp (.inl ⟨by omega, by omega⟩) with near | far
          · omega
          · have later := beyond' _ far
            omega
      have tails : rest = rest' := by
        apply ih one.tail two.tail
        intro x
        constructor
        · intro member
          have later := beyond x member
          rcases (transfer x).mp (.inr member) with near | far
          · omega
          · exact far
        · intro member
          have later := beyond' x member
          rcases (transfer x).mpr (.inr member) with near | far
          · omega
          · exact far
      rw [tails, Prod.ext low high]

end Canonical

end SmatchFormal.Lib.IntervalList
