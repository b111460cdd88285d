import Mathlib.Logic.Function.Basic
import Mathlib.Data.List.Nodup

/-!
# Blocks of pointer lists

A `ptr_list` is a circular list of blocks in a memory.  Blocks come from the allocator of
`allocate.c`, which keeps the freed ones in a list.
-/

namespace SmatchFormal.Ptrlist

def listNodeNr : Nat := 13

abbrev Addr := Nat

/-- `struct ptr_list`.  `list` holds the entries in use, of which there are `nr`; an entry is `none`
for the null pointer.  No operation here marks an entry as deleted, and `rm` stays zero. -/
structure PtrList (α : Type) where
  prev : Addr
  next : Addr
  list : List (Option α)
  bound : list.length ≤ listNodeNr

variable {α : Type}

namespace PtrList

def nr (block : PtrList α) : Nat := block.list.length

def setPrev (block : PtrList α) (prev : Addr) : PtrList α := { block with prev := prev }

def setNext (block : PtrList α) (next : Addr) : PtrList α := { block with next := next }

def setList (block : PtrList α) (list : List (Option α)) (bound : list.length ≤ listNodeNr) :
    PtrList α :=
  { block with list := list, bound := bound }

end PtrList

/-- The blocks in use, the freed ones, and the first address that was never used. -/
structure Heap (α : Type) where
  block : Addr → Option (PtrList α)
  freelist : List Addr
  top : Addr
  distinct : freelist.Nodup
  freed : ∀ a ∈ freelist, a < top ∧ block a = none
  unused : ∀ a, top ≤ a → block a = none

namespace Heap

/-- A write to a block.  There must be one. -/
def modify (h : Heap α) (a : Addr) (write : PtrList α → PtrList α) : Option (Heap α) :=
  if used : (h.block a).isSome then
    some {
      block := fun b => if b = a then (h.block a).map write else h.block b
      freelist := h.freelist
      top := h.top
      distinct := h.distinct
      freed := by
        intro b member
        have known := h.freed b member
        have other : b ≠ a := fun same => by
          rw [← same, known.2] at used
          exact Bool.false_ne_true used
        rw [if_neg other]
        exact known
      unused := by
        intro b above
        have other : b ≠ a := fun same => by
          rw [← same, h.unused b above] at used
          exact Bool.false_ne_true used
        rw [if_neg other]
        exact h.unused b above }
  else none

def setPrev (h : Heap α) (a b : Addr) : Option (Heap α) := h.modify a (·.setPrev b)

def setNext (h : Heap α) (a b : Addr) : Option (Heap α) := h.modify a (·.setNext b)

/-- The entries of a block are written, and its count.  They must fit. -/
def setList (h : Heap α) (a : Addr) (list : List (Option α)) : Option (Heap α) :=
  if bound : list.length ≤ listNodeNr then h.modify a (·.setList list bound) else none

end Heap

namespace Heap

variable {h : Heap α} {a b : Addr} {block : PtrList α} {list : List (Option α)}

theorem modify_some (used : h.block a = some block) (write : PtrList α → PtrList α) :
    ∃ heap, h.modify a write = some heap ∧
      heap.block = Function.update h.block a (some (write block)) := by
  refine ⟨_, dif_pos (by rw [used]; rfl), ?_⟩
  funext b
  change (if b = a then (h.block a).map write else h.block b) = _
  by_cases same : b = a
  · rw [if_pos same, same, Function.update_self, used, Option.map_some]
  · rw [if_neg same, Function.update_of_ne same]

theorem setList_some (used : h.block a = some block) (bound : list.length ≤ listNodeNr) :
    ∃ heap, h.setList a list = some heap ∧
      heap.block = Function.update h.block a (some (block.setList list bound)) := by
  unfold setList
  rw [dif_pos bound]
  exact modify_some used _

theorem lt_top (used : h.block a = some block) : a < h.top := by
  refine Nat.lt_of_not_le fun above => ?_
  rw [h.unused a above] at used
  exact absurd used (Option.some_ne_none block).symm

end Heap

end SmatchFormal.Ptrlist
