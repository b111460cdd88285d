import SmatchFormal.Lib.StableSort
import SmatchFormal.Ptrlist.Sort

/-!
# Sorting each block

The insertion sort of one block is stable, and the first loop of the sort leaves each block of the
list in order.
-/

namespace SmatchFormal.Ptrlist

open SmatchFormal.Lib List

variable {α β : Type} {cmp : β → β → Int} {p slot : β} {front back ptr : List β}

def cmpLe (cmp : β → β → Int) (a b : β) : Bool := decide (cmp a b ≤ 0)

theorem cmpLe_eq_false {a b : β} : cmpLe cmp a b = false ↔ 0 < cmp a b := by
  rw [cmpLe, decide_eq_false_iff_not, Int.not_le]

/-! ## Insertion -/

/-- The entries above `p` at the end of those before its place go one place up. -/
theorem makeRoom_eq (cmp : β → β → Int) (p slot : β) (front back : List β) :
    ∃ lo hi slot', front = lo ++ hi ∧ (∀ q ∈ hi, 0 < cmp q p) ∧
      (∀ q ∈ lo.getLast?, ¬ 0 < cmp q p) ∧
      makeRoom cmp p (front ++ slot :: back) front.length =
        (lo ++ slot' :: (hi ++ back), lo.length) := by
  induction front using List.reverseRecOn generalizing slot back with
  | nil => exact ⟨[], [], slot, rfl, by simp, by simp, rfl⟩
  | append_singleton front q ih =>
    have found : (front ++ [q] ++ slot :: back)[front.length]? = some q := by simp
    rw [length_append, length_singleton, makeRoom, found]
    by_cases above : 0 < cmp q p
    · have moved : (front ++ [q] ++ slot :: back).set (front.length + 1) q =
          front ++ q :: q :: back := by
        have place : front.length + 1 - (front ++ [q]).length = 0 := by simp
        rw [set_append_right _ _ (by simp), place, set_cons_zero, append_assoc]
        rfl
      obtain ⟨lo, hi, slot', split, greater, last, done⟩ := ih q (q :: back)
      refine ⟨lo, hi ++ [q], slot', ?_, ?_, last, ?_⟩
      · rw [split, append_assoc]
      · intro r member
        rcases mem_append.mp member with member | same
        · exact greater r member
        · exact mem_singleton.mp same ▸ above
      · simp only [if_pos above]
        rw [moved, done, append_assoc, singleton_append]
    · refine ⟨front ++ [q], [], slot, (append_nil _).symm, by simp, ?_, ?_⟩
      · simpa using above
      · simp only [if_neg above, nil_append, length_append, length_singleton]

theorem insertEntry_eq (cmp : β → β → Int) (p : β) (front back : List β) :
    ∃ lo hi, front = lo ++ hi ∧ (∀ q ∈ hi, 0 < cmp q p) ∧ (∀ q ∈ lo.getLast?, ¬ 0 < cmp q p) ∧
      insertEntry cmp (front ++ p :: back) front.length = lo ++ p :: hi ++ back := by
  obtain ⟨lo, hi, slot, split, greater, last, done⟩ := makeRoom_eq cmp p p front back
  refine ⟨lo, hi, split, greater, last, ?_⟩
  have found : (front ++ p :: back)[front.length]? = some p := by simp
  simp only [insertEntry, found, done]
  rw [set_append_right _ _ (Nat.le_refl _), Nat.sub_self, set_cons_zero,
    append_assoc]
  rfl

/-- An insertion is a stable rearrangement, and keeps the front in order. -/
theorem insertEntry_sorts (order : TotalPreorder (cmpLe cmp)) (ordered : Ordered (cmpLe cmp) front)
    (p : β) (back : List β) :
    ∃ front', insertEntry cmp (front ++ p :: back) front.length = front' ++ back ∧
      StablySorted (cmpLe cmp) (front ++ [p]) front' := by
  obtain ⟨lo, hi, rfl, greater, last, done⟩ := insertEntry_eq cmp p front back
  have above : ∀ q ∈ hi, cmpLe cmp q p = false := fun q member =>
    cmpLe_eq_false.mpr (greater q member)
  have under : ∀ q ∈ lo, cmpLe cmp q p := by
    have first := (pairwise_append.mp ordered).1
    rcases eq_nil_or_concat lo with rfl | ⟨init, q, rfl⟩
    · exact fun q member => absurd member not_mem_nil
    · rw [concat_eq_append] at *
      refine Ordered.le_of_last order first ?_
      have bound : ¬ 0 < cmp q p := last q (by simp)
      exact decide_eq_true (Int.not_lt.mp bound)
  exact ⟨_, done, .moveBack order lo above, ordered.moveBack order under above⟩

/-- The turns of the loop insert the entries one after the other. -/
theorem insertEntry_foldl_sorts (order : TotalPreorder (cmpLe cmp))
    (ordered : Ordered (cmpLe cmp) front) (back : List β) :
    StablySorted (cmpLe cmp) (front ++ back)
      ((List.range' front.length back.length).foldl (insertEntry cmp) (front ++ back)) := by
  induction back generalizing front with
  | nil =>
    rw [append_nil]
    exact ⟨.refl _ front, ordered⟩
  | cons p back ih =>
    obtain ⟨front', done, sorted⟩ := insertEntry_sorts order ordered p back
    have length : front.length + 1 = front'.length := by
      rw [sorted.perm.length_eq, length_append, length_singleton]
    rw [length_cons, List.range'_succ, foldl_cons, done, length]
    have later := ih sorted.ordered
    refine ⟨?_, later.ordered⟩
    rw [append_cons]
    exact (sorted.toRearranged.append (.refl _ back)).trans later.toRearranged

theorem arraySort_sorts (order : TotalPreorder (cmpLe cmp)) (ptr : List β) :
    StablySorted (cmpLe cmp) ptr (arraySort cmp ptr) := by
  cases ptr with
  | nil => exact ⟨.refl _ [], .nil⟩
  | cons p rest => exact insertEntry_foldl_sorts order (pairwise_singleton _ p) rest

section Blocks

variable {cmp : Option α → Option α → Int} {h : Heap α} {head a : Addr} {front back : List Addr}

theorem sortBlocks_some (front : List Addr) (order : TotalPreorder (cmpLe cmp))
    (circle : Circular h.next h.prev (front ++ a :: back))
    (first : (front ++ a :: back).head? = some head) {fuel : Nat} (enough : back.length < fuel) :
    ∃ h', sortBlocks cmp head fuel h a = some h' ∧ h'.next = h.next ∧ h'.prev = h.prev ∧
      (∀ b ∈ a :: back, StablySorted (cmpLe cmp) (h.entries b) (h'.entries b)) ∧
      ∀ b, b ∉ a :: back → h'.entries b = h.entries b := by
  induction fuel generalizing h front a back with
  | zero => exact absurd enough (Nat.not_lt_zero _)
  | succ fuel ih =>
    have holds : Holds h (some head) (front ++ a :: back) _ := ⟨first, circle, rfl⟩
    obtain ⟨block, held, listed, after, -⟩ := holds.read
    have used : h.next a = some block.next := by rw [Heap.next, held, Option.map_some]
    have sorted := arraySort_sorts order (h.entries a)
    have bound : (arraySort cmp (h.entries a)).length ≤ listNodeNr := by
      rw [sorted.perm.length_eq]
      exact h.length_entries_le a
    obtain ⟨h₁, written, nexts, prevs, lists⟩ := Heap.setList_view used bound
    have own : h₁.entries a = arraySort cmp (h.entries a) := by
      rw [lists, Function.update_self]
    have other : ∀ b, b ≠ a → h₁.entries b = h.entries b := fun b apart => by
      rw [lists, Function.update_of_ne apart]
    obtain ⟨-, distinct, -⟩ := nodup_append'.mp circle.distinct
    have absent := (nodup_cons.mp distinct).1
    rw [listed] at written
    simp only [sortBlocks, held, written, nexts, used, Option.bind_eq_bind, Option.bind_some]
    cases back with
    | nil =>
      rw [nil_append] at after
      have home : block.next = head := by
        cases front with
        | nil => exact (Option.some.inj (after.symm.trans first))
        | cons c front => exact (Option.some.inj (after.symm.trans first))
      rw [if_pos home]
      refine ⟨h₁, rfl, nexts, prevs, ?_, ?_⟩
      · intro b member
        rw [mem_singleton.mp member, own]
        exact sorted
      · exact fun b outside => other b fun same => outside (mem_singleton.mpr same)
    | cons c back =>
      have next : c = block.next := Option.some.inj after
      have away : block.next ≠ head := fun same =>
        circle.head_ne (first.trans (congrArg some (same.symm.trans next.symm)))
      rw [if_neg away, ← next]
      rw [append_cons] at circle first
      have circle₁ : Circular h₁.next h₁.prev (front ++ [a] ++ c :: back) := by
        rw [nexts, prevs]
        exact circle
      obtain ⟨h', done, nexts', prevs', sorts, kept⟩ :=
        ih _ circle₁ first (Nat.lt_of_succ_lt_succ enough)
      refine ⟨h', done, nexts'.trans nexts, prevs'.trans prevs, ?_, ?_⟩
      · intro b member
        rcases mem_cons.mp member with rfl | member
        · rw [kept b absent, own]
          exact sorted
        · have apart : b ≠ a := fun same => absent (same ▸ member)
          rw [← other b apart]
          exact sorts b member
      · intro b outside
        rw [mem_cons, not_or] at outside
        obtain ⟨apart, outside⟩ := outside
        rw [kept b outside, other b apart]

end Blocks

end SmatchFormal.Ptrlist
