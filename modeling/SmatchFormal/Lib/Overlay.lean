import Mathlib.Data.Finmap

/-!
# Finite maps laid over each other

The union of two finite maps takes what the first one has and falls back to the
second one.  A finite map is also made from a function on a finite set of keys.
-/

namespace SmatchFormal.Lib.Overlay

variable {κ α : Type} [DecidableEq κ]

theorem lookup_union (one two : Finmap fun _ : κ => α) (k : κ) :
    (one ∪ two).lookup k = (one.lookup k).or (two.lookup k) := by
  by_cases member : k ∈ one
  · obtain ⟨value, found⟩ := Finmap.mem_iff.mp member
    rw [Finmap.lookup_union_left member, found]
    rfl
  · rw [Finmap.lookup_union_right member, Finmap.lookup_eq_none.mpr member]
    rfl

/-- Laying a map over itself again changes nothing. -/
theorem union_self_left (one two : Finmap fun _ : κ => α) : one ∪ (one ∪ two) = one ∪ two := by
  apply Finmap.ext_lookup
  intro k
  simp only [lookup_union]
  cases one.lookup k <;> rfl

theorem union_ne_empty (one : Finmap fun _ : κ => α) {two : Finmap fun _ : κ => α}
    (filled : two ≠ ∅) :
    one ∪ two ≠ ∅ := by
  intro empty
  apply filled
  apply Finmap.ext_lookup
  intro k
  have here : (one ∪ two).lookup k = none := by
    rw [empty]
    exact Finmap.lookup_empty k
  rw [lookup_union, Option.or_eq_none_iff] at here
  rw [here.2, Finmap.lookup_empty]

def tabulate (keys : Finset κ) (f : κ → Option α) : Finmap fun _ : κ => α :=
  Finmap.keysLookupEquiv.symm
    ⟨(keys.filter fun k => (f k).isSome = true, fun k => if k ∈ keys then f k else none), by
      intro k
      change (if k ∈ keys then f k else none).isSome = true ↔ _
      rw [Finset.mem_filter]
      split_ifs with member
      · exact ⟨fun some => ⟨member, some⟩, fun both => both.2⟩
      · exact ⟨nofun, fun both => absurd both.1 member⟩⟩

theorem lookup_tabulate (keys : Finset κ) (f : κ → Option α) (k : κ) :
    (tabulate keys f).lookup k = if k ∈ keys then f k else none := by
  unfold tabulate
  rw [Finmap.keysLookupEquiv_symm_apply_lookup]

/-- The function may be restricted to the keys it has anyway. -/
theorem lookup_tabulate_of_none {keys : Finset κ} {f : κ → Option α} {k : κ}
    (outside : k ∉ keys → f k = none) : (tabulate keys f).lookup k = f k := by
  rw [lookup_tabulate]
  split_ifs with member
  · rfl
  · exact (outside member).symm

theorem lookup_of_not_mem_keys {one : Finmap fun _ : κ => α} {k : κ} (absent : k ∉ one.keys) :
    one.lookup k = none :=
  Finmap.lookup_eq_none.mpr fun member => absent (Finmap.mem_keys.mpr member)

end SmatchFormal.Lib.Overlay
