import Mathlib.Logic.Function.Basic
import Mathlib.Data.List.Basic

/-!
# Objects in a heap

A heap holds objects at addresses, and a table names some of them by their addresses.  Several
tables may name one object.  What is seen through a table changes only with the objects that it
names.
-/

namespace SmatchFormal.Lib

variable {α β κ : Type}

structure ObjectHeap (α : Type) where
  objects : List α
  deriving DecidableEq

namespace ObjectHeap

variable {heap : ObjectHeap α}

def read (heap : ObjectHeap α) (address : Nat) : Option α := heap.objects[address]?

def next (heap : ObjectHeap α) : Nat := heap.objects.length

def alloc (heap : ObjectHeap α) (object : α) : ObjectHeap α := ⟨heap.objects ++ [object]⟩

def edit (heap : ObjectHeap α) (address : Nat) (change : α → α) : ObjectHeap α :=
  ⟨heap.objects.modify address change⟩

theorem next_alloc (object : α) : (heap.alloc object).next = heap.next + 1 :=
  List.length_append

theorem next_edit (address : Nat) (change : α → α) : (heap.edit address change).next = heap.next :=
  List.length_modify _ _ _

theorem read_alloc_old (object : α) {address : Nat} (old : address < heap.next) :
    (heap.alloc object).read address = heap.read address := List.getElem?_append_left old

theorem read_alloc_new (object : α) : (heap.alloc object).read heap.next = some object :=
  List.getElem?_concat_length

theorem read_edit_same (address : Nat) (change : α → α) :
    (heap.edit address change).read address = (heap.read address).map change := by
  unfold edit read
  rw [List.getElem?_modify]
  simp only [if_true]
  rfl

theorem read_edit_other {address other : Nat} (change : α → α) (apart : address ≠ other) :
    (heap.edit address change).read other = heap.read other := by
  unfold edit read
  rw [List.getElem?_modify]
  simp only [if_neg apart]
  exact Option.map_id'

def Holds (heap : ObjectHeap α) (table : κ → Option Nat) : Prop :=
  ∀ key address, table key = some address → address < heap.next

def seen (view : α → β) (heap : ObjectHeap α) (table : κ → Option Nat) (key : κ) : Option β :=
  (table key).bind fun address => (heap.read address).map view

variable {view : α → β} {table : κ → Option Nat} {key : κ}

theorem Holds.mono {later : ObjectHeap α} (holds : heap.Holds table)
    (grown : heap.next ≤ later.next) : later.Holds table :=
  fun key address named => Nat.lt_of_lt_of_le (holds key address named) grown

theorem Holds.alloc (holds : heap.Holds table) (object : α) : (heap.alloc object).Holds table :=
  holds.mono (Nat.le_of_lt ((next_alloc object).symm ▸ Nat.lt_succ_self heap.next))

theorem exists_read {address : Nat} (inside : address < heap.next) :
    ∃ object, heap.read address = some object := ⟨_, List.getElem?_eq_getElem inside⟩

/-- The same is seen where the named object is the same. -/
theorem seen_of_read {later : ObjectHeap α}
    (same : ∀ address, table key = some address → later.read address = heap.read address) :
    seen view later table key = seen view heap table key := by
  unfold seen
  cases named : table key with
  | none => rfl
  | some address => rw [Option.bind_some, Option.bind_some, same address named]

/-- Nothing is seen of a new object. -/
theorem seen_alloc (holds : heap.Holds table) (object : α) :
    seen view (heap.alloc object) table key = seen view heap table key :=
  seen_of_read fun address named => read_alloc_old object (holds key address named)

variable [DecidableEq κ]

theorem seen_update_other {other : κ} (address : Option Nat) (apart : other ≠ key) :
    seen view heap (Function.update table key address) other = seen view heap table other := by
  unfold seen
  rw [Function.update_of_ne apart]

theorem Holds.update (holds : heap.Holds table) {address : Nat} (inside : address < heap.next) :
    heap.Holds (Function.update table key (some address)) := by
  intro other named
  by_cases same : other = key
  · subst same
    rw [Function.update_self]
    rintro ⟨⟩
    exact inside
  · rw [Function.update_of_ne same]
    exact holds other named

end ObjectHeap

end SmatchFormal.Lib
