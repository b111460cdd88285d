import SmatchFormal.Stree.Iter
import Mathlib.Data.Finmap

/-!
# Handles and sharing

A `struct stree` is shared by reference count.  `clone_stree` copies a pointer,
and a handle that writes to a shared tree makes a copy of its own first.  Each
handle then behaves as a finite map of its own, over every history of operations
on any handles.
-/

namespace SmatchFormal

/-- `struct stree`.  `line` is not initialised before the first insertion. -/
structure Stree (numChecks : Nat) (σ : Type) where
  root : Stree.AvlNode numChecks σ
  baseStree : Option Nat
  hasStates : List Bool
  count : Nat
  streeId : Int
  references : Nat
  line : Option Nat

namespace Stree

open SmatchFormal.Lib AvlNode

variable {numChecks : Nat} {σ : Type}

def avlNew : Stree numChecks σ where
  root := .null
  baseStree := none
  hasStates := List.replicate numChecks false
  count := 0
  streeId := 0
  references := 1
  line := none

/-- The end of `avl_insert`, when the tree has one owner. -/
def insertInto (avl : Stree numChecks σ) (sm : SmState numChecks σ) : Stree numChecks σ :=
  let hasStates :=
    if sm.owner ≠ ushrtMax then avl.hasStates.set sm.owner true else avl.hasStates
  let (count, root, _) := insertSm avl.count sm avl.root
  { avl with hasStates := hasStates, count := count, root := root, line := some sm.line }

/-- `clone_stree_real`.  The new tree has one owner while it is filled. -/
def cloneStreeReal (orig : Stree numChecks σ) : Option (Stree numChecks σ) :=
  (avlTraverse orig.root .forward).map fun sms =>
    { sms.foldl insertInto avlNew with baseStree := orig.baseStree }

def checkOrder (avl : Stree numChecks σ) : Bool :=
  match avlTraverse avl.root .forward with
  | none => false
  | some [] => true
  | some (first :: rest) =>
    (rest.foldl (fun (last, ordered) sm =>
      (sm, ordered && decide (cmpTracker (some last) (some sm) < 0))) (first, true)).2

def avlCheckInvariants (avl : Stree numChecks σ) : Bool :=
  (checkBalances avl.root).isSome && checkOrder avl && countNode avl.root == avl.count

abbrev Addr := Nat

variable {ι : Type} [DecidableEq ι]

structure State (ι : Type) (numChecks : Nat) (σ : Type) where
  heap : Finmap fun _ : Addr => Stree numChecks σ
  handles : ι → Option Addr

def State.init : State ι numChecks σ := ⟨∅, fun _ => none⟩

def State.store (s : State ι numChecks σ) (a : Addr) (avl : Stree numChecks σ) :
    State ι numChecks σ :=
  { s with heap := s.heap.insert a avl }

/-- A new tree for a handle.  `malloc` sees which addresses are in use. -/
def State.alloc (malloc : Finset Addr → Addr) (s : State ι numChecks σ) (h : ι)
    (avl : Stree numChecks σ) : State ι numChecks σ :=
  let a := malloc s.heap.keys
  ⟨s.heap.insert a avl, Function.update s.handles h (some a)⟩

/-- `if ((*avl)->references > 1)`, with which `avl_insert` and `avl_remove` start.  Here
and below `none` stands for a use of memory that was freed, or for a failed assertion. -/
def unshare (malloc : Finset Addr → Addr) (s : State ι numChecks σ) (h : ι) :
    Option (State ι numChecks σ) := do
  let a ← s.handles h
  let avl ← s.heap.lookup a
  if avl.references > 1 then
    let s := s.store a { avl with references := avl.references - 1 }
    let new ← cloneStreeReal avl
    some (s.alloc malloc h new)
  else some s

def freeStree (s : State ι numChecks σ) (h : ι) : Option (State ι numChecks σ) :=
  match s.handles h with
  | none => some s
  | some a => do
      let avl ← s.heap.lookup a
      if avl.references = 0 then none
      else if avl.references - 1 ≠ 0 then
        some ⟨s.heap.insert a { avl with references := avl.references - 1 },
          Function.update s.handles h none⟩
      else some ⟨s.heap.erase a, Function.update s.handles h none⟩

def avlInsert (malloc : Finset Addr → Addr) (s : State ι numChecks σ) (h : ι)
    (sm : SmState numChecks σ) : Option (Bool × State ι numChecks σ) := do
  let s := if (s.handles h).isNone then s.alloc malloc h avlNew else s
  let s ← unshare malloc s h
  let a ← s.handles h
  let avl ← s.heap.lookup a
  let new := insertInto avl sm
  some (new.count != avl.count, s.store a new)

def avlRemove (malloc : Finset Addr → Addr) (s : State ι numChecks σ) (h : ι)
    (sm : SmState numChecks σ) : Option (Bool × State ι numChecks σ) :=
  if (s.handles h).isNone then some (false, s)
  else do
    let s ← unshare malloc s h
    let a ← s.handles h
    let avl ← s.heap.lookup a
    let (count, root, removed, _) := removeSm avl.count sm avl.root
    let s := s.store a { avl with count := count, root := root }
    let s ← if count = 0 then freeStree s h else some s
    some (removed.isSome, s)

def avlLookup (s : State ι numChecks σ) (h : ι) (sm : SmState numChecks σ) :
    Option (Option (SmState numChecks σ)) :=
  match s.handles h with
  | none => some none
  | some a => do
      let avl ← s.heap.lookup a
      if sm.owner ≠ ushrtMax ∧ avl.hasStates.getD sm.owner false = false then some none
      else some (lookup avl.root sm)

def cloneStree (s : State ι numChecks σ) (dst src : ι) : Option (State ι numChecks σ) :=
  match s.handles src with
  | none => some { s with handles := Function.update s.handles dst none }
  | some a => do
      let avl ← s.heap.lookup a
      some ⟨s.heap.insert a { avl with references := avl.references + 1 },
        Function.update s.handles dst (some a)⟩

def streeCount (s : State ι numChecks σ) (h : ι) : Option Nat :=
  match s.handles h with
  | none => some 0
  | some a => (s.heap.lookup a).map Stree.count

/-- `avl_iter_begin` starts at the root of the tree of a handle. -/
def rootOf (s : State ι numChecks σ) (h : ι) : Option (AvlNode numChecks σ) :=
  match s.handles h with
  | none => some .null
  | some a => (s.heap.lookup a).map Stree.root

inductive Op (ι : Type) (numChecks : Nat) (σ : Type) where
  | clone (dst src : ι)
  | insert (h : ι) (sm : SmState numChecks σ)
  | remove (h : ι) (sm : SmState numChecks σ)
  | lookup (h : ι) (sm : SmState numChecks σ)
  | free (h : ι)

inductive Result (numChecks : Nat) (σ : Type) where
  | done
  | changed (flag : Bool)
  | found (sm : Option (SmState numChecks σ))
  deriving DecidableEq

def exec (malloc : Finset Addr → Addr) (s : State ι numChecks σ) :
    Op ι numChecks σ → Option (Result numChecks σ × State ι numChecks σ)
  | .clone dst src => (cloneStree s dst src).map fun s' => (.done, s')
  | .insert h sm => (avlInsert malloc s h sm).map fun (flag, s') => (.changed flag, s')
  | .remove h sm => (avlRemove malloc s h sm).map fun (flag, s') => (.changed flag, s')
  | .lookup h sm => (avlLookup s h sm).map fun found => (.found found, s)
  | .free h => (freeStree s h).map fun s' => (.done, s')

def run (malloc : Finset Addr → Addr) (s : State ι numChecks σ) :
    List (Op ι numChecks σ) → Option (List (Result numChecks σ) × State ι numChecks σ)
  | [] => some ([], s)
  | op :: ops => do
      let (result, s) ← exec malloc s op
      let (results, s) ← run malloc s ops
      some (result :: results, s)

end Stree

end SmatchFormal
