import SmatchFormal.Lib.Ring
import SmatchFormal.Ptrlist.Blocks
import Mathlib.Data.List.Perm.Subperm

/-!
# Lists in the memory

A pointer list is a circle of blocks, and stands for the sequence of their entries in the order of
the blocks.
-/

namespace SmatchFormal.Ptrlist

open SmatchFormal.Lib Function

variable {α : Type}

namespace Heap

def next (h : Heap α) (a : Addr) : Option Addr := (h.block a).map PtrList.next

def prev (h : Heap α) (a : Addr) : Option Addr := (h.block a).map PtrList.prev

def entries (h : Heap α) (a : Addr) : List (Option α) := ((h.block a).map PtrList.list).getD []

variable {h heap : Heap α} {a b c : Addr} {list : List (Option α)} {cell : Option (PtrList α)}

theorem exists_block (used : h.next a = some b) :
    ∃ block, h.block a = some block ∧ block.next = b ∧ h.prev a = some block.prev ∧
      h.entries a = block.list := by
  obtain ⟨block, held, next⟩ := Option.map_eq_some_iff.mp used
  refine ⟨block, held, next, ?_, ?_⟩
  · rw [prev, held, Option.map_some]
  · rw [entries, held, Option.map_some, Option.getD_some]

theorem lt_top_of_next (used : h.next a = some b) : a < h.top := by
  obtain ⟨block, held, -⟩ := exists_block used
  exact lt_top held

theorem view_update (written : heap.block = Function.update h.block a cell) :
    heap.next = Function.update h.next a (cell.map PtrList.next) ∧
      heap.prev = Function.update h.prev a (cell.map PtrList.prev) ∧
      heap.entries = Function.update h.entries a ((cell.map PtrList.list).getD []) := by
  refine ⟨?_, ?_, ?_⟩ <;> funext b <;> by_cases same : b = a
  · rw [next, written, same, update_self, update_self]
  · rw [next, written, update_of_ne same, update_of_ne same, next]
  · rw [prev, written, same, update_self, update_self]
  · rw [prev, written, update_of_ne same, update_of_ne same, prev]
  · rw [entries, written, same, update_self, update_self]
  · rw [entries, written, update_of_ne same, update_of_ne same, entries]

theorem setNext_view (used : h.next a = some c) (b : Addr) :
    ∃ heap, h.setNext a b = some heap ∧ heap.next = Function.update h.next a (some b) ∧
      heap.prev = h.prev ∧ heap.entries = h.entries := by
  obtain ⟨block, held, -, before, listed⟩ := exists_block used
  obtain ⟨heap, done, written⟩ := modify_some held (·.setNext b)
  obtain ⟨nexts, prevs, lists⟩ := view_update written
  refine ⟨heap, done, nexts, prevs.trans ?_, lists.trans ?_⟩
  · exact update_eq_self_iff.mpr before.symm
  · exact update_eq_self_iff.mpr listed.symm

theorem setPrev_view (used : h.next a = some c) (b : Addr) :
    ∃ heap, h.setPrev a b = some heap ∧ heap.next = h.next ∧
      heap.prev = Function.update h.prev a (some b) ∧ heap.entries = h.entries := by
  obtain ⟨block, held, after, -, listed⟩ := exists_block used
  obtain ⟨heap, done, written⟩ := modify_some held (·.setPrev b)
  obtain ⟨nexts, prevs, lists⟩ := view_update written
  refine ⟨heap, done, nexts.trans ?_, prevs, lists.trans ?_⟩
  · exact update_eq_self_iff.mpr ((congrArg some after).trans used.symm)
  · exact update_eq_self_iff.mpr listed.symm

theorem setList_view (used : h.next a = some c) (bound : list.length ≤ listNodeNr) :
    ∃ heap, h.setList a list = some heap ∧ heap.next = h.next ∧ heap.prev = h.prev ∧
      heap.entries = Function.update h.entries a list := by
  obtain ⟨block, held, after, before, -⟩ := exists_block used
  obtain ⟨heap, done, written⟩ := setList_some held bound
  obtain ⟨nexts, prevs, lists⟩ := view_update written
  refine ⟨heap, done, nexts.trans ?_, prevs.trans ?_, lists⟩
  · exact update_eq_self_iff.mpr ((congrArg some after).trans used.symm)
  · exact update_eq_self_iff.mpr before.symm

theorem length_entries_le (h : Heap α) (a : Addr) : (h.entries a).length ≤ listNodeNr := by
  rw [entries]
  cases h.block a with
  | none => exact Nat.zero_le _
  | some block => exact block.bound

def blockFuel (h : Heap α) : Nat := h.top + 1

def entryFuel (h : Heap α) : Nat := h.top * (listNodeNr + 1) + 1

end Heap

/-- A list is a circle of blocks, and what it stands for is the sequence of their entries. -/
structure Holds (h : Heap α) (listp : Option Addr) (nodes : List Addr)
    (contents : List (Option α)) : Prop where
  first : nodes.head? = listp
  circle : Circular h.next h.prev nodes
  flat : nodes.flatMap h.entries = contents

section Lists

variable {h h₁ h₂ : Heap α} {listp : Option Addr}
  {nodes nodes₁ nodes₂ others front back : List Addr}
variable {a : Addr} {contents : List (Option α)}

namespace Holds

theorem nil (h : Heap α) : Holds h none [] [] := ⟨rfl, .nil, rfl⟩

theorem read (holds : Holds h listp (front ++ a :: back) contents) :
    ∃ block, h.block a = some block ∧ h.entries a = block.list ∧
      (back ++ front ++ [a]).head? = some block.next ∧
      (a :: (back ++ front)).getLast? = some block.prev := by
  have after := holds.circle.next_eq
  have before := holds.circle.prev_eq
  obtain ⟨b, some⟩ : ∃ b, (back ++ front ++ [a]).head? = some b := by
    cases back ++ front with
    | nil => exact ⟨a, rfl⟩
    | cons b rest => exact ⟨b, rfl⟩
  rw [some] at after
  obtain ⟨block, held, next, prev, listed⟩ := Heap.exists_block after
  exact ⟨block, held, listed, some.trans (congrArg _ next.symm), before.symm.trans prev⟩

theorem live (holds : Holds h listp nodes contents) (member : a ∈ nodes) :
    ∃ b, h.next a = some b := by
  obtain ⟨front, back, rfl⟩ := List.append_of_mem member
  obtain ⟨block, held, -⟩ := holds.read
  exact ⟨block.next, by rw [Heap.next, held, Option.map_some]⟩

theorem length_le (holds : Holds h listp nodes contents) : nodes.length ≤ h.top := by
  have subset : nodes ⊆ List.range h.top := by
    intro a member
    obtain ⟨b, used⟩ := holds.live member
    exact List.mem_range.mpr (Heap.lt_top_of_next used)
  have short := (List.subperm_of_subset holds.circle.distinct subset).length_le
  rwa [List.length_range] at short

/-- There are enough turns for a walk over all entries. -/
theorem entryFuel (holds : Holds h listp nodes contents) :
    contents.length + nodes.length < h.entryFuel := by
  have short := holds.length_le
  have each : ∀ part : List Addr, (part.flatMap h.entries).length ≤ part.length * listNodeNr := by
    intro part
    induction part with
    | nil => exact Nat.zero_le _
    | cons a part ih =>
      rw [List.flatMap_cons, List.length_append, List.length_cons, Nat.succ_mul, Nat.add_comm]
      exact Nat.add_le_add ih (h.length_entries_le a)
  have bound := each nodes
  rw [holds.flat] at bound
  have product := Nat.mul_le_mul_right (listNodeNr + 1) short
  rw [Nat.mul_succ] at product
  rw [Heap.entryFuel]
  omega

end Holds

end Lists

end SmatchFormal.Ptrlist
