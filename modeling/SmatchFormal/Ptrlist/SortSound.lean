import SmatchFormal.Ptrlist.SortPasses
import Mathlib.Data.List.Range

/-!
# The sort

`sort_list` is a stable sort of every list of up to `2 ^ 30` blocks.  For a longer one the number of
blocks of a run gets to `2 ^ 30` without any end to the passes, and the shift that follows is
undefined.
-/

namespace SmatchFormal.Ptrlist

open SmatchFormal.Lib

variable {α : Type} {cmp : Option α → Option α → Int} {le : Option α → Option α → Bool}
variable {h h₁ : Heap α} {nodes nodes₁ : List Addr} {plist : Option Addr} {head : Addr}
variable {contents : List (Option α)} {j fuel : Nat}

def maxBlocks : Nat := 2 ^ 30

/-- `sort_list` ends, without a write outside of its buffer, and leaves a list with the same blocks,
known by its first block, that stands for a stable rearrangement of the entries in order. -/
def Sorts (cmp : Option α → Option α → Int) (h : Heap α) (plist : Option Addr) (nodes : List Addr)
    (contents : List (Option α)) : Prop :=
  ∃ h' plist' nodes' contents', sortList cmp h plist = some (h', plist') ∧
    Holds h' plist' nodes' contents' ∧ nodes'.Perm nodes ∧
    StablySorted (cmpLe cmp) contents contents'

theorem double_some (inside : j < 30) : double (2 ^ j) = some (2 ^ (j + 1)) := by
  have bound : 2 ^ (j + 1) ≤ 2 ^ 30 := Nat.pow_le_pow_right (by decide) inside
  rw [Nat.pow_succ, Nat.mul_comm] at bound ⊢
  exact if_pos (bound.trans (by decide))

theorem double_none : double (2 ^ 30) = none := if_neg (by decide)

section

variable (order : TotalPreorder (cmpLe cmp)) (circle : Circular h.next h.prev nodes)
  (first : nodes.head? = some head) (runs : Runs (cmpLe cmp) h (2 ^ j) nodes)
include order circle first runs

theorem sortPasses_succ (more : 2 ^ j < nodes.length) (fuel : Nat) :
    ∃ h' head' nodes', Circular h'.next h'.prev nodes' ∧ nodes'.head? = some head' ∧
      Passed (cmpLe cmp) h h' nodes nodes' ∧ Runs (cmpLe cmp) h' (2 ^ (j + 1)) nodes' ∧
      sortPasses cmp (fuel + 1) h head (2 ^ j) =
        (double (2 ^ j)).bind fun blocks => sortPasses cmp fuel h' head' blocks := by
  have enough : nodes.length < h.blockFuel :=
    Nat.lt_succ_of_le (Holds.length_le (h := h) ⟨first, circle, rfl⟩)
  obtain ⟨h', head', nodes', done, circle', first', passed, runs'⟩ :=
    pass_whole order (Nat.two_pow_pos j) circle first runs more enough
  rw [Nat.mul_comm, ← Nat.pow_succ] at runs'
  refine ⟨h', head', nodes', circle', first', passed, runs', ?_⟩
  simp only [sortPasses, done, Option.bind_eq_bind, Option.bind_some, if_neg Bool.false_ne_true]

/-- The passes over a list that is not too long end with the list in order. -/
theorem sortPasses_some (turns : fuel + j = 32) (bound : j ≤ 30)
    (short : nodes.length ≤ maxBlocks) :
    ∃ h' head' nodes', sortPasses cmp fuel h head (2 ^ j) = some (h', head') ∧
      Circular h'.next h'.prev nodes' ∧ nodes'.head? = some head' ∧
      Passed (cmpLe cmp) h h' nodes nodes' ∧ Ordered (cmpLe cmp) (nodes'.flatMap h'.entries) := by
  induction fuel generalizing h head nodes j with
  | zero => omega
  | succ fuel ih =>
    by_cases more : 2 ^ j < nodes.length
    · have inside : j < 30 :=
        (Nat.pow_lt_pow_iff_right (by decide)).mp (Nat.lt_of_lt_of_le more short)
      obtain ⟨h₁, head₁, nodes₁, circle₁, first₁, passed₁, runs₁, turned⟩ :=
        sortPasses_succ order circle first runs more fuel
      rw [turned, double_some inside, Option.bind_some]
      obtain ⟨h', head', nodes', done, circle', first', passed', ordered⟩ :=
        ih circle₁ first₁ runs₁ (by omega) inside (passed₁.perm.length_eq ▸ short)
      exact ⟨h', head', nodes', done, circle', first', passed₁.trans passed', ordered⟩
    · have fits := Nat.not_lt.mp more
      refine ⟨h, head, nodes, ?_, circle, first, .refl _ h nodes, runs.ordered fits⟩
      have stop : pass cmp (2 ^ j) h.blockFuel h head head = some (h, head, true) :=
        pass_over circle first fits (Nat.succ_pos _)
      simp only [sortPasses, stop, Option.bind_eq_bind, Option.bind_some, if_pos]

/-- The passes over a list that is too long end with the undefined shift. -/
theorem sortPasses_none (turns : fuel + j = 32) (bound : j ≤ 30) (long : maxBlocks < nodes.length) :
    sortPasses cmp fuel h head (2 ^ j) = none := by
  induction fuel generalizing h head nodes j with
  | zero => rfl
  | succ fuel ih =>
    have more : 2 ^ j < nodes.length :=
      Nat.lt_of_le_of_lt (Nat.pow_le_pow_right (by decide) bound) long
    obtain ⟨h₁, head₁, nodes₁, circle₁, first₁, passed₁, runs₁, turned⟩ :=
      sortPasses_succ order circle first runs more fuel
    rw [turned]
    rcases Nat.lt_or_eq_of_le bound with inside | last
    · rw [double_some inside, Option.bind_some]
      exact ih circle₁ first₁ runs₁ (by omega) inside (passed₁.perm.length_eq ▸ long)
    · rw [last, double_none, Option.bind_none]

end

theorem Runs.of_blocks (ordered : ∀ a ∈ nodes, Ordered le (h.entries a)) :
    Runs le h (2 ^ 0) nodes := by
  induction nodes with
  | nil => exact .last (Nat.zero_le _) .nil
  | cons a nodes ih =>
    obtain ⟨own, rest⟩ := List.forall_mem_cons.mp ordered
    have one : Ordered le ([a].flatMap h.entries) := by
      rw [List.flatMap_singleton]
      exact own
    exact .cons rfl one (ih rest)

theorem sortList_eq (order : TotalPreorder (cmpLe cmp))
    (holds : Holds h (some head) nodes contents) :
    ∃ h₁, Circular h₁.next h₁.prev nodes ∧ Passed (cmpLe cmp) h h₁ nodes nodes ∧
      Runs (cmpLe cmp) h₁ (2 ^ 0) nodes ∧
      sortList cmp h (some head) =
        (sortPasses cmp 32 h₁ head (2 ^ 0)).bind fun result => some (result.1, some result.2) := by
  have enough := holds.length_le
  obtain ⟨first, circle, -⟩ := holds
  cases nodes with
  | nil => exact absurd first.symm (Option.some_ne_none head)
  | cons a rest =>
    have same : a = head := Option.some.inj first
    subst same
    have turns : rest.length < h.blockFuel := Nat.lt_succ_of_lt enough
    obtain ⟨h₁, done, nexts, prevs, sorted, kept⟩ := sortBlocks_some [] order circle first turns
    refine ⟨h₁, by rw [nexts, prevs]; exact circle, ⟨.refl _, ?_, kept⟩, ?_, ?_⟩
    · exact .flatMap fun b member => (sorted b member).toRearranged
    · exact .of_blocks fun b member => (sorted b member).ordered
    · simp only [sortList, done, Option.bind_eq_bind, Option.bind_some, pow_zero]

/-- The sort of a list that is not too long. -/
theorem sorts_of_length_le (order : TotalPreorder (cmpLe cmp))
    (holds : Holds h plist nodes contents)
    (short : nodes.length ≤ maxBlocks) : Sorts cmp h plist nodes contents := by
  cases plist with
  | none =>
    have none : nodes = [] := List.head?_eq_none_iff.mp holds.first
    subst none
    have empty : contents = [] := holds.flat.symm
    subst empty
    exact ⟨h, none, [], [], rfl, .nil h, .refl _, .refl _ _, .nil⟩
  | some head =>
    obtain ⟨h₁, circle₁, passed₁, runs₁, same⟩ := sortList_eq order holds
    obtain ⟨h', head', nodes', done, circle', first', passed', ordered⟩ :=
      sortPasses_some order circle₁ holds.first runs₁ rfl (by decide) short
    have passed := passed₁.trans passed'
    refine ⟨h', some head', nodes', _, ?_, ⟨first', circle', rfl⟩, passed.perm, ?_, ordered⟩
    · rw [same, done, Option.bind_some]
    · rw [← holds.flat]
      exact passed.rearranged

/-- There is no result for a list that is too long. -/
theorem sortList_none (order : TotalPreorder (cmpLe cmp)) (holds : Holds h plist nodes contents)
    (long : maxBlocks < nodes.length) : sortList cmp h plist = none := by
  cases plist with
  | none =>
    rw [List.head?_eq_none_iff.mp holds.first] at long
    exact absurd long (Nat.not_lt_zero _)
  | some head =>
    obtain ⟨h₁, circle₁, passed₁, runs₁, same⟩ := sortList_eq order holds
    rw [same, sortPasses_none order circle₁ holds.first runs₁ rfl (by decide) long,
      Option.bind_none]

/-- `sort_list` is a stable sort of exactly those lists that have at most `2 ^ 30` blocks. -/
theorem sorts_iff (order : TotalPreorder (cmpLe cmp)) (holds : Holds h plist nodes contents) :
    Sorts cmp h plist nodes contents ↔ nodes.length ≤ maxBlocks := by
  refine ⟨fun sorts => Nat.not_lt.mp fun long => ?_, sorts_of_length_le order holds⟩
  obtain ⟨h', plist', nodes', contents', done, -⟩ := sorts
  rw [sortList_none order holds long] at done
  exact Option.some_ne_none _ done.symm

/-- Block `a` of a list of `n` blocks, at the addresses below `n`, that hold one entry each. -/
def ringBlock (n a : Addr) : PtrList Nat where
  prev := if a = 0 then n - 1 else a - 1
  next := if a + 1 = n then 0 else a + 1
  list := [some 0]
  bound := by decide

/-- A memory that holds a list of `n` blocks. -/
def ringHeap (n : Nat) : Heap Nat where
  block := fun a => if a < n then some (ringBlock n a) else none
  freelist := []
  top := n
  distinct := List.nodup_nil
  freed := fun _ member => absurd member List.not_mem_nil
  unused := fun _ above => if_neg (Nat.not_lt.mpr above)

def cmpZero (_ _ : Option Nat) : Int := 0

theorem cmpZero_order : TotalPreorder (cmpLe cmpZero) where
  total := fun _ _ => rfl
  trans := fun _ _ _ _ _ => rfl

theorem ringHeap_linked {n a b : Nat} (one : a < n) (two : b < n) (ahead : (ringBlock n a).next = b)
    (behind : (ringBlock n b).prev = a) : Linked (ringHeap n).next (ringHeap n).prev a b where
  ahead := by
    have held : (ringHeap n).block a = some (ringBlock n a) := if_pos one
    rw [Heap.next, held, Option.map_some, ahead]
  behind := by
    have held : (ringHeap n).block b = some (ringBlock n b) := if_pos two
    rw [Heap.prev, held, Option.map_some, behind]

theorem ringHeap_holds (n : Nat) :
    Holds (ringHeap (n + 1)) (some 0) (List.range (n + 1))
      ((List.range (n + 1)).flatMap (ringHeap (n + 1)).entries) := by
  have first : (List.range (n + 1)).head? = some 0 := by rw [List.range_succ_eq_map]; rfl
  refine ⟨first, ⟨List.nodup_range, ?_⟩, rfl⟩
  rw [first, Option.toList_some, List.isChain_append]
  refine ⟨(List.isChain_range_succ _ n).mpr fun a inside => ?_, .singleton 0, ?_⟩
  · have other : a + 1 ≠ n + 1 := Nat.ne_of_lt (Nat.succ_lt_succ inside)
    exact ringHeap_linked (Nat.lt_succ_of_lt inside) (Nat.succ_lt_succ inside) (if_neg other) rfl
  · intro a last b start
    rw [List.range_succ, List.getLast?_concat] at last
    have atLast : n = a := Option.some.inj last
    have atFirst : 0 = b := Option.some.inj start
    subst atLast atFirst
    exact ringHeap_linked (Nat.lt_succ_self n) (Nat.succ_pos n) (if_pos rfl) rfl

/-- The sort of a list of three blocks. -/
theorem sorts_iff_ring :
    TotalPreorder (cmpLe cmpZero) ∧
      (Sorts cmpZero (ringHeap 3) (some 0) (List.range 3)
        ((List.range 3).flatMap (ringHeap 3).entries) ↔ (List.range 3).length ≤ maxBlocks) :=
  ⟨cmpZero_order, sorts_iff cmpZero_order (ringHeap_holds 2)⟩

/-- A list of one block more than the sort works for. -/
theorem ring_not_sorts :
    TotalPreorder (cmpLe cmpZero) ∧
      Holds (ringHeap (2 ^ 30 + 1)) (some 0) (List.range (2 ^ 30 + 1))
        ((List.range (2 ^ 30 + 1)).flatMap (ringHeap (2 ^ 30 + 1)).entries) ∧
      ¬ Sorts cmpZero (ringHeap (2 ^ 30 + 1)) (some 0) (List.range (2 ^ 30 + 1))
        ((List.range (2 ^ 30 + 1)).flatMap (ringHeap (2 ^ 30 + 1)).entries) := by
  have holds := ringHeap_holds (2 ^ 30)
  refine ⟨cmpZero_order, holds, fun sorts => ?_⟩
  obtain ⟨h', plist', nodes', contents', done, -⟩ := sorts
  have long : maxBlocks < (List.range (2 ^ 30 + 1)).length := by
    rw [List.length_range]
    exact Nat.lt_succ_self _
  rw [sortList_none cmpZero_order holds long] at done
  exact Option.some_ne_none _ done.symm

end SmatchFormal.Ptrlist
