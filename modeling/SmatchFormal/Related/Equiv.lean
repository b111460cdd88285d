import SmatchFormal.Lib.ObjectHeap
import SmatchFormal.Lib.MutualLists
import Mathlib.Order.Defs.LinearOrder

/-!
# Related variables

The functions of `smatch_equiv.c` for assignments of one variable to another one.  An estate is an
object, which the current stree and saved ones may share.
-/

namespace SmatchFormal.Related

open SmatchFormal.Lib

variable {Key V : Type} [LinearOrder Key]

/-- The data of an estate: the related list, and the ranges with all the rest. -/
structure Estate (Key V : Type) where
  value : V
  related : List Key
  deriving DecidableEq

/-- A stree names the estates of its keys.  A key is a name with a symbol. -/
abbrev Stree (Key : Type) := Key → Option Nat

/-- The estates and the current stree.  The keys whose estate was set last by the functions here are
marked. -/
structure World (Key V : Type) where
  heap : ObjectHeap (Estate Key V)
  cur : Stree Key
  own : Key → Bool

/-- `estate_related` of the state that a stree has for a key. -/
def seenRelated (heap : ObjectHeap (Estate Key V)) (stree : Stree Key) (key : Key) :
    Option (List Key) := ObjectHeap.seen Estate.related heap stree key

def World.related (world : World Key V) (key : Key) : List Key :=
  (seenRelated world.heap world.cur key).getD []

def World.Present (world : World Key V) (key : Key) : Prop := (world.cur key).isSome = true

instance (world : World Key V) (key : Key) : Decidable (world.Present key) :=
  inferInstanceAs (Decidable (_ = true))

def addRelated : List Key → Key → List Key
  | [], key => [key]
  | rel :: rest, key =>
    if rel < key then rel :: addRelated rest key
    else if rel = key then rel :: rest
    else key :: rel :: rest

def delRelated (list : List Key) (key : Key) : List Key := list.filter fun rel => rel ≠ key

def release (key : Key) (world : World Key V) : World Key V :=
  { world with own := Function.update world.own key false }

/-- One turn of the loop in `remove_from_equiv`.  The clone of the `sm_state` has the same estate,
which is changed in its place. -/
def updateRelated (toUpdate : List Key) (world : World Key V) (rel : Key) : World Key V :=
  match world.cur rel with
  | none => world
  | some address =>
    { world with
      heap := world.heap.edit address fun estate => { estate with related := toUpdate }
      own := Function.update world.own rel true }

/-- `remove_from_equiv`.  The clone of the estate of the key is only read. -/
def removeFromEquiv (key : Key) (world : World Key V) : World Key V :=
  if world.related key = [] then world
  else (delRelated (world.related key) key).foldl
    (updateRelated (delRelated (world.related key) key)) world

def place (key : Key) (estate : Estate Key V) (world : World Key V) : World Key V where
  heap := world.heap.alloc estate
  cur := Function.update world.cur key (some world.heap.next)
  own := Function.update world.own key false

/-- What `set_extra_mod_helper` does to other keys: it modifies the other members of a union in the
same way, and sets the members behind a pointer that cannot be used. -/
inductive Nested (Key V : Type)
  | modify (key : Key) (value : V)
  | write (key : Key) (estate : Estate Key V)

def Nested.run (world : World Key V) : Nested Key V → World Key V
  | .modify key value => place key ⟨value, []⟩ (removeFromEquiv key (release key world))
  | .write key estate => place key estate world

/-- `set_extra_mod_helper`.  The new estate is allocated where it is set. -/
def setExtraModHelper (key : Key) (value : V) (nested : List (Nested Key V))
    (world : World Key V) : World Key V :=
  place key ⟨value, []⟩ (nested.foldl Nested.run (removeFromEquiv key (release key world)))

/-- An assignment of one variable to another one, with the other name of the left one and the range
that the right one gets when it has no state. -/
structure Assignment (Key V : Type) where
  left : Key
  right : Key
  other : Option Key
  fresh : V
  nestedLeft : List (Nested Key V)
  nestedOther : List (Nested Key V)

def rightSm (assignment : Assignment Key V) (world : World Key V) : Nat × World Key V :=
  match world.cur assignment.right with
  | some address => (address, world)
  | none => (world.heap.next, place assignment.right ⟨assignment.fresh, []⟩ world)

/-- The part of `set_equiv` that sets the left side and its other name. -/
def setSides (cast : V → V) (assignment : Assignment Key V) (world : World Key V) : World Key V :=
  let right := rightSm assignment world
  let value := cast (((right.2.heap.read right.1).map Estate.value).getD assignment.fresh)
  let left := setExtraModHelper assignment.left value assignment.nestedLeft right.2
  match assignment.other with
  | none => left
  | some other => setExtraModHelper other (cast value) assignment.nestedOther left

/-- `rlist`: what the estate of the right side has now, with the keys of the assignment. -/
def sharedList (cast : V → V) (assignment : Assignment Key V) (world : World Key V) : List Key :=
  let sides := setSides cast assignment world
  let related := ((sides.heap.read (rightSm assignment world).1).map Estate.related).getD []
  let both := addRelated (addRelated related assignment.right) assignment.left
  match assignment.other with
  | none => both
  | some other => addRelated both other

/-- One turn of the loop in `set_equiv`.  The estate is cloned. -/
def joinRelated (rlist : List Key) (world : World Key V) (rel : Key) : World Key V :=
  match (world.cur rel).bind world.heap.read with
  | none => world
  | some estate =>
    { heap := world.heap.alloc { estate with related := rlist }
      cur := Function.update world.cur rel (some world.heap.next)
      own := Function.update world.own rel true }

/-- `set_equiv`, where `cast` is the cast to the type of the left side. -/
def setEquiv (cast : V → V) (assignment : Assignment Key V) (world : World Key V) : World Key V :=
  (sharedList cast assignment world).foldl (joinRelated (sharedList cast assignment world))
    (setSides cast assignment world)

inductive Op (Key V : Type)
  | assign (cast : V → V) (assignment : Assignment Key V)
  | remove (key : Key)

def Op.run (world : World Key V) : Op Key V → World Key V
  | .assign cast assignment => setEquiv cast assignment world
  | .remove key => removeFromEquiv key world

def run (world : World Key V) (ops : List (Op Key V)) : World Key V := ops.foldl Op.run world

/-- The estates that `remove_from_equiv` changes are held by no saved stree, and in the current one
by keys of the list only. -/
def Unshared (saved : List (Stree Key)) (world : World Key V) (key : Key) : Prop :=
  ∀ rel ∈ delRelated (world.related key) key, ∀ address ∈ world.cur rel,
    (∀ stree ∈ saved, ∀ other, stree other ≠ some address) ∧
      ∀ other, world.cur other = some address → other ∈ delRelated (world.related key) key

/-- No marked key outside of the list names a key of the list that has a state. -/
def Separate (world : World Key V) (list : List Key) : Prop :=
  Apart (fun key => world.own key = true) world.Present world.related list

structure RemoveMeets (saved : List (Stree Key)) (world : World Key V) (key : Key) : Prop where
  unshared : Unshared saved world key
  separate : Separate world (delRelated (world.related key) key)

def Nested.Meets (saved : List (Stree Key)) (world : World Key V) : Nested Key V → Prop
  | .modify key _ => RemoveMeets saved (release key world) key
  | .write _ _ => True

def NestedMeets (saved : List (Stree Key)) (world : World Key V) : List (Nested Key V) → Prop
  | [] => True
  | nested :: rest => nested.Meets saved world ∧ NestedMeets saved (nested.run world) rest

structure HelperMeets (saved : List (Stree Key)) (world : World Key V) (key : Key)
    (nested : List (Nested Key V)) : Prop where
  removes : RemoveMeets saved (release key world) key
  nested : NestedMeets saved (removeFromEquiv key (release key world)) nested

structure AssignMeets (saved : List (Stree Key)) (world : World Key V) (cast : V → V)
    (assignment : Assignment Key V) : Prop where
  left : HelperMeets saved (rightSm assignment world).2 assignment.left assignment.nestedLeft
  other : ∀ other, assignment.other = some other →
    HelperMeets saved
      (setSides cast { assignment with other := none } world) other assignment.nestedOther
  separate : Separate (setSides cast assignment world) (sharedList cast assignment world)

def Op.Meets (saved : List (Stree Key)) (world : World Key V) : Op Key V → Prop
  | .assign cast assignment => AssignMeets saved world cast assignment
  | .remove key => RemoveMeets saved world key

def Meets (saved : List (Stree Key)) (world : World Key V) : List (Op Key V) → Prop
  | [] => True
  | op :: ops => op.Meets saved world ∧ Meets saved (op.run world) ops

structure Start (saved : List (Stree Key)) (world : World Key V) : Prop where
  current : world.heap.Holds world.cur
  stored : ∀ stree ∈ saved, world.heap.Holds stree
  unmarked : ∀ key, world.own key = false

end SmatchFormal.Related
