import SmatchFormal.Lib.Overlay

/-!
# Conditions

`split_conditions` computes the states on the two sides of a condition.  The
states of the sub-conditions are kept on parallel stacks: the states before a
condition, and those that are set when it is true and when it is false.  A stree
is used here as the finite map it stands for; the null stree is the empty map,
and a null `cur_stree` is an unreachable path.
-/

namespace SmatchFormal.Conditions

open SmatchFormal.Lib

/-- A condition over leaf conditions `L` and the expressions `E` on the left of a comma. -/
inductive Cond (L E : Type) where
  | leaf (leaf : L)
  | not (unop : Cond L E)
  | logical (isLogicalAnd : Bool) (left right : Cond L E)
  | select (conditional condTrue condFalse : Cond L E)
  | comma (left : E) (right : Cond L E)

abbrev Stree (κ Sm : Type) := Finmap fun _ : κ => Sm

/-- What the clients do.  A hook reads the current states and sets some. -/
structure Client (κ Sm L E : Type) where
  /-- The states set while a leaf is split, before its condition hook. -/
  splitLeaf : L → Stree κ Sm → Stree κ Sm
  /-- The states the condition hook sets for the true and the false side. -/
  onTrue : L → Stree κ Sm → Stree κ Sm
  onFalse : L → Stree κ Sm → Stree κ Sm
  /-- The states the condition hook sets for both sides. -/
  onBoth : L → Stree κ Sm → Stree κ Sm
  /-- The states set by `__process_post_op_stack`. -/
  postOp : L → Stree κ Sm → Stree κ Sm
  /-- The states set by `__split_expr` on the left of a comma. -/
  splitExpr : E → Stree κ Sm → Stree κ Sm
  /-- `__client_unmatched_state_function`, for a state that a stree lacks. -/
  unmatchedState : Stree κ Sm → κ → Sm → Sm
  /-- The states the pre-merge hooks set in the first stree. -/
  preMerge : Stree κ Sm → Stree κ Sm → Stree κ Sm
  /-- `merge_sm_states` on two different states. -/
  mergeSmStates : κ → Sm → Sm → Sm
  impliedConditionTrue : Cond L E → Stree κ Sm → Bool
  impliedConditionFalse : Cond L E → Stree κ Sm → Bool

variable {κ Sm L E : Type} [DecidableEq κ] [DecidableEq Sm]

/-- `match_states_stree`: the first stree with the states that only the other one has. -/
def matchStates (client : Client κ Sm L E) (one two : Stree κ Sm) : Stree κ Sm :=
  one ∪ Overlay.tabulate two.keys fun k => (two.lookup k).map (client.unmatchedState one k)

def mergeStree (client : Client κ Sm L E) (into stree : Stree κ Sm) : Stree κ Sm :=
  if stree = ∅ then into
  else if into = stree then into
  else if into = ∅ then stree
  else
    let one := matchStates client into stree
    let two := matchStates client stree into
    let one := client.preMerge one two ∪ one
    let two := client.preMerge two one ∪ two
    Overlay.tabulate one.keys fun k =>
      match one.lookup k, two.lookup k with
      | some a, some b => if a = b then some a else some (client.mergeSmStates k a b)
      | _, _ => none

def filterStree (stree filter : Stree κ Sm) : Stree κ Sm :=
  Overlay.tabulate stree.keys fun k =>
    if stree.lookup k = filter.lookup k then none else stree.lookup k

structure Machine (κ Sm : Type) where
  curStree : Stree κ Sm
  preCondStack : List (Stree κ Sm)
  condTrueStack : List (Stree κ Sm)
  condFalseStack : List (Stree κ Sm)
  fakeCurStreeStack : List (Stree κ Sm)

def popStree (stack : List (Stree κ Sm)) : Stree κ Sm × List (Stree κ Sm) :=
  (stack.headD ∅, stack.tail)

def overwriteTop (new : Stree κ Sm) : List (Stree κ Sm) → List (Stree κ Sm)
  | [] => []
  | top :: stack => (new ∪ top) :: stack

namespace Machine

def setSm (m : Machine κ Sm) (new : Stree κ Sm) : Machine κ Sm :=
  if m.curStree = ∅ then m
  else
    { m with
      curStree := new ∪ m.curStree
      fakeCurStreeStack := overwriteTop new m.fakeCurStreeStack }

def setTrueFalse (m : Machine κ Sm) (true_ false_ : Stree κ Sm) : Machine κ Sm :=
  if m.curStree = ∅ then m
  else
    { m with
      condTrueStack := overwriteTop true_ m.condTrueStack
      condFalseStack := overwriteTop false_ m.condFalseStack }

def savePreCondStates (m : Machine κ Sm) : Machine κ Sm :=
  { m with preCondStack := m.curStree :: m.preCondStack }

def discardPreCondStates (m : Machine κ Sm) : Machine κ Sm :=
  { m with preCondStack := (popStree m.preCondStack).2 }

def usePreCondStates (m : Machine κ Sm) : Machine κ Sm :=
  { m with
    curStree := (popStree m.preCondStack).1
    preCondStack := (popStree m.preCondStack).2 }

def pushFakeCurStree (m : Machine κ Sm) : Machine κ Sm :=
  savePreCondStates { m with fakeCurStreeStack := ∅ :: m.fakeCurStreeStack }

def popFakeCurStree (m : Machine κ Sm) : Stree κ Sm × Machine κ Sm :=
  let m := usePreCondStates m
  ((popStree m.fakeCurStreeStack).1,
    { m with fakeCurStreeStack := (popStree m.fakeCurStreeStack).2 })

def foldInSetStates (m : Machine κ Sm) : Machine κ Sm :=
  let (new, m) := popFakeCurStree m
  setTrueFalse (setSm m new) new new

def pushCondStacks (m : Machine κ Sm) : Machine κ Sm :=
  pushFakeCurStree
    { m with condTrueStack := ∅ :: m.condTrueStack, condFalseStack := ∅ :: m.condFalseStack }

def condStack (m : Machine κ Sm) (side : Bool) : List (Stree κ Sm) :=
  if side then m.condTrueStack else m.condFalseStack

def setCondStack (m : Machine κ Sm) (side : Bool) (stack : List (Stree κ Sm)) : Machine κ Sm :=
  if side then { m with condTrueStack := stack } else { m with condFalseStack := stack }

def useCondStates (m : Machine κ Sm) (side : Bool) : Machine κ Sm :=
  { m with curStree := (popStree (m.condStack side)).1 ∪ (popStree m.preCondStack).1 }

def negateCondStacks (m : Machine κ Sm) : Machine κ Sm :=
  { m with
    condFalseStack := (popStree m.condTrueStack).1 :: (popStree m.condFalseStack).2
    condTrueStack := (popStree m.condFalseStack).1 :: (popStree m.condTrueStack).2 }

def andStreeStack (m : Machine κ Sm) (side : Bool) : Machine κ Sm :=
  let (right, stack) := popStree (m.condStack side)
  m.setCondStack side (overwriteTop right stack)

def orStreeStack (client : Client κ Sm L E) (m : Machine κ Sm) (side : Bool) : Machine κ Sm :=
  let (new, stack) := popStree (m.condStack side)
  let (old, stack) := popStree stack
  let pre := (popStree m.preCondStack).1
  let res := old ∪ pre
  let tmp := new ∪ m.curStree
  let res := filterStree (mergeStree client res tmp) pre
  m.setCondStack side (res :: stack)

end Machine

open Machine

def splitLeaf (client : Client κ Sm L E) (leaf : L) (m : Machine κ Sm) : Machine κ Sm :=
  let m := setSm m (client.splitLeaf leaf m.curStree)
  -- `do_condition`.
  let m := pushFakeCurStree (foldInSetStates m)
  let cur := m.curStree
  let m := setTrueFalse m (client.onTrue leaf cur) (client.onFalse leaf cur)
  let m := foldInSetStates (setSm m (client.onBoth leaf cur))
  let m := pushFakeCurStree m
  foldInSetStates (setSm m (client.postOp leaf m.curStree))

def combineStrees (orig fake new : Stree κ Sm) : Stree κ Sm := new ∪ (fake ∪ orig)

/-- `split_conditions`.  What it finds out about `known_tf` does not change the states. -/
def splitConditions (client : Client κ Sm L E) : Cond L E → Machine κ Sm → Machine κ Sm
  | .leaf leaf, m => splitLeaf client leaf m
  | .not unop, m => negateCondStacks (splitConditions client unop m)
  | .logical isLogicalAnd left right, m =>
    let m := splitConditions client left m
    let m := useCondStates m isLogicalAnd
    let m := savePreCondStates (pushCondStacks m)
    let m := discardPreCondStates (splitConditions client right m)
    let m :=
      if isLogicalAnd then orStreeStack client (andStreeStack m true) false
      else andStreeStack (orStreeStack client m true) false
    useCondStates m true
  | .comma left right, m =>
    splitConditions client right (setSm m (client.splitExpr left m.curStree))
  | .select conditional condTrue condFalse, m =>
    let m := savePreCondStates m
    let m := splitConditions client conditional m
    let aT := (popStree m.condTrueStack).1
    let aF := (popStree m.condFalseStack).1
    let m := pushFakeCurStree (pushCondStacks (useCondStates m true))
    let m := splitConditions client condTrue m
    let (aTbFake, m) := popFakeCurStree m
    let aTbT := combineStrees aT aTbFake (popStree m.condTrueStack).1
    let aTbF := combineStrees aT aTbFake (popStree m.condFalseStack).1
    let m := { m with
      condTrueStack := (popStree m.condTrueStack).2
      condFalseStack := (popStree m.condFalseStack).2 }
    let m := pushFakeCurStree (pushCondStacks (useCondStates m false))
    let m := splitConditions client condFalse m
    let (aFcFake, m) := popFakeCurStree m
    let aFcT := combineStrees aF aFcFake (popStree m.condTrueStack).1
    let aFcF := combineStrees aF aFcFake (popStree m.condFalseStack).1
    let m := { m with
      condTrueStack := (popStree m.condTrueStack).2
      condFalseStack := (popStree m.condFalseStack).2 }
    let m := usePreCondStates m
    let (aTbT, aTbF) :=
      if client.impliedConditionTrue condTrue m.curStree then (aTbFake ∪ aT, ∅) else (aTbT, aTbF)
    let (aTbT, aTbF) :=
      if client.impliedConditionFalse condTrue m.curStree then (∅, aTbFake ∪ aT) else (aTbT, aTbF)
    let (aFcT, aFcF) :=
      if client.impliedConditionTrue condFalse m.curStree then (aFcFake ∪ aF, ∅) else (aFcT, aFcF)
    let (aFcT, aFcF) :=
      if client.impliedConditionFalse condFalse m.curStree then (∅, aFcFake ∪ aF)
      else (aFcT, aFcF)
    let m := { m with
      condTrueStack := (popStree m.condTrueStack).2
      condFalseStack := (popStree m.condFalseStack).2 }
    let m := setTrueFalse (pushCondStacks m) (mergeStree client aTbT aFcT)
      (mergeStree client aTbF aFcF)
    (popFakeCurStree m).2

/-- `__split_whole_condition`, up to `__use_cond_states`: the true and the false stree. -/
def splitWholeCondition (client : Client κ Sm L E) (expr : Cond L E) (m : Machine κ Sm) :
    Stree κ Sm × Stree κ Sm :=
  let m := splitConditions client expr (pushCondStacks (savePreCondStates m))
  let pre := (popStree m.preCondStack).1
  ((popStree m.condTrueStack).1 ∪ pre, (popStree m.condFalseStack).1 ∪ pre)

end SmatchFormal.Conditions
