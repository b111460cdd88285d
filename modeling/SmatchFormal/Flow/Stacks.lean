import SmatchFormal.Lib.Steps
import SmatchFormal.Conditions.Machine

/-!
# The stacks of a walk

The walk over the statements of a function keeps the strees of the paths that
are not the current one on stacks.  This module has the operations on them, with
a pop that fails on an empty stack.  What is in a stree does not matter here: it
is a parameter, and so is what the clients do.
-/

namespace SmatchFormal.Walk

open SmatchFormal.Conditions (Cond)

/-! ## Statements -/

structure CaseLabel (E : Type) where
  caseExpression : Option E
  caseTo : Option E

/-- Statements over expressions `E` and labels `N`.  All labels of a statement are in one
`case`.  `atEnd` is set for a `goto` that is the last statement of the function. -/
inductive Stmt (E N : Type) where
  | null
  | expression (expr : E)
  | declaration (decls : List E)
  | returns (retValue : Option E)
  | compound (stmts : List (Stmt E N))
  | ifElse (ifConditional : Cond E E) (ifTrue ifFalse : Stmt E N)
  | preLoop (syms : List E) (preStatement : Stmt E N) (preCondition : Option (Cond E E))
      (statement postStatement : Stmt E N)
  | postLoop (statement : Stmt E N) (postCondition : Cond E E)
  | switch (switchExpression : E) (stmts : List (Stmt E N))
  | case (first : CaseLabel E) (more : List (CaseLabel E)) (stmt : Stmt E N)
  | label (identifier : Option N) (stmt : Stmt E N)
  | breaks
  | continues
  | goto (gotoLabel : N) (atEnd : Bool)
  | gotoExpr (gotoExpression : E)

/-! ## The state of the walk -/

inductive Stack where
  | trues | falses | preCond | condTrue | condFalse | fakeCur | breaks | fakeBreaks | continues
  | switches | defaults
  deriving DecidableEq

/-- The name of a saved `goto`: a loop or a label. -/
inductive GotoName (N : Type) where
  | loop (num : Nat)
  | label (name : N)
  deriving DecidableEq

/-- The global variables: `none` is the null stree.  `world` is all that the clients have. -/
structure State (S R W N E : Type) where
  curStree : Option S
  stack : Stack → List (Option S)
  remainingCases : List R
  switchExprStack : List E
  gotoStack : List (GotoName N × Option S)
  loopNum : Nat
  lastGotoStatementHandled : Bool
  world : W

inductive Act (S : Type) where
  | setSm (new : S)
  | setTrueFalseSm (trueSm falseSm : S)
  | nullifyPath
  | unnullifyPath

inductive Hook (E : Type) where
  | expr (expr : E) | postExpr (expr : E) | postOp | condition (expr : E) | wholeCondition
  | stmt | stmtAfter | preLoop | postLoop | canonicalLoop | afterLoop | afterLoopNoBreaks
  | case | scope | returns (expr : Option E)

structure Client (S R W N E : Type) where
  /-- `overwrite_stree(from, &to)`. -/
  overwriteStree : Option S → Option S → Option S
  /-- `merge_stree(&to, stree)`. -/
  mergeStree : Option S → Option S → Option S
  /-- `filter_stree(&stree, filter)`. -/
  filterStree : Option S → Option S → Option S
  /-- `merge_sm_states` of the states of a stree with the current ones. -/
  mergeSmStates : Option S → Option S → Option S
  /-- `update_stree_with_merged`, from the current stree. -/
  updateStreeWithMerged : Option S → Option S → Option S
  /-- The stree with the state `has_default`, and the one with `unnull_path`. -/
  hasDefault : S
  unnullPath : S
  passToClient : Hook E → State S R W N E → List (Act S) × W
  /-- What is known of a leaf condition. -/
  knownCondition : E → State S R W N E → Option Bool
  impliedConditionTrue : Cond E E → State S R W N E → Bool
  impliedConditionFalse : Cond E E → State S R W N E → Bool
  callOnceThroughHooks : State S R W N E → Bool
  iteratorUnchanged : State S R W N E → Bool
  /-- `is_scoped_guard_goto`, which looks at the text of a loop and at the project. -/
  isScopedGuardGoto : Stmt E N → Stmt E N → Bool
  getValue : Cond E E → Option Int
  getAbsoluteRl : E → State S R W N E → R
  rlFilter : R → R → R
  rlUnion : R → R → R
  isNullRl : R → Bool
  /-- `alloc_rl` of one value. -/
  allocRl : Int → R
  /-- `get_case_rl`, for the expression of the switch; `none` is the null pointer. -/
  getCaseRl : Option E → CaseLabel E → Option R
  /-- The value of the label is that of the switch. -/
  isCaseVal : Int → CaseLabel E → Bool
  /-- The stree for a case, from that of the switch, the ranges and the states set. -/
  impliedCaseStree : Option S → R → Option S → Option S

variable {S R W N E : Type}

/-- A step of the walk; it fails when a stack is popped that is empty. -/
abbrev Walker (S R W N E α : Type) := StateT (State S R W N E) Option α

def pushStree (id : Stack) (stree : Option S) : Walker S R W N E Unit :=
  modify fun m => { m with stack := Function.update m.stack id (stree :: m.stack id) }

def popStree (id : Stack) : Walker S R W N E (Option S) := fun m =>
  match m.stack id with
  | [] => none
  | top :: rest => some (top, { m with stack := Function.update m.stack id rest })

def pushRl (rl : R) : Walker S R W N E Unit :=
  modify fun m => { m with remainingCases := rl :: m.remainingCases }

def popRl : Walker S R W N E R := fun m =>
  match m.remainingCases with
  | [] => none
  | top :: rest => some (top, { m with remainingCases := rest })

def getCurStree : Walker S R W N E (Option S) := do
  return (← get).curStree

def setCurStree (stree : Option S) : Walker S R W N E Unit :=
  modify fun m => { m with curStree := stree }

/-- `if (stack)`: the pointer is null when the stack is empty. -/
def ifStacked (id : Stack) (run : Walker S R W N E Unit) : Walker S R W N E Unit := do
  let m ← get
  if m.stack id = [] then pure () else run

def ifPathIsNull (run other : Walker S R W N E Unit) : Walker S R W N E Unit := do
  let m ← get
  if m.curStree.isNone then run else other

section Fake

def savePreCondStates : Walker S R W N E Unit := do
  pushStree .preCond (← getCurStree)

def discardPreCondStates : Walker S R W N E Unit := do
  let _ ← popStree .preCond

def usePreCondStates : Walker S R W N E Unit := do
  setCurStree (← popStree .preCond)

def pushFakeCurStree : Walker S R W N E Unit := do
  pushStree .fakeCur none
  savePreCondStates

def popFakeCurStree : Walker S R W N E (Option S) := do
  usePreCondStates
  popStree .fakeCur

def nullifyPath : Walker S R W N E Unit := do
  ifStacked .fakeCur do
    let _ ← popFakeCurStree
    pushFakeCurStree
  setCurStree none

end Fake

section Clients

variable (client : Client S R W N E)

def overwriteTop (id : Stack) : Option S → Walker S R W N E Unit
  | none => pure ()
  | some new => do
      let stree ← popStree id
      pushStree id (client.overwriteStree (some new) stree)

def setSm (new : Option S) : Walker S R W N E Unit :=
  ifPathIsNull (pure ()) do
    ifStacked .fakeCur (overwriteTop client .fakeCur new)
    setCurStree (client.overwriteStree new (← getCurStree))

def setTrueFalseSm (trueSm falseSm : Option S) : Walker S R W N E Unit :=
  ifPathIsNull (pure ()) do
    ifStacked .condFalse do
      ifStacked .condTrue do
        overwriteTop client .condTrue trueSm
        overwriteTop client .condFalse falseSm

def unnullifyPath : Walker S R W N E Unit :=
  ifPathIsNull
    (do
      ifStacked .fakeCur (overwriteTop client .fakeCur (some client.unnullPath))
      setCurStree (some client.unnullPath))
    (pure ())

def act : Act S → Walker S R W N E Unit
  | .setSm new => setSm client (some new)
  | .setTrueFalseSm trueSm falseSm => setTrueFalseSm client (some trueSm) (some falseSm)
  | .nullifyPath => nullifyPath
  | .unnullifyPath => unnullifyPath client

def actAll : List (Act S) → Walker S R W N E Unit
  | [] => pure ()
  | first :: rest => do
      act client first
      actAll rest

def passToClient (hook : Hook E) : Walker S R W N E Unit := do
  let m ← get
  let result := client.passToClient hook m
  modify fun m => { m with world := result.2 }
  actAll client result.1

def foldInSetStates : Walker S R W N E Unit := do
  let newStates ← popFakeCurStree
  setSm client newStates
  setTrueFalseSm client newStates newStates

def freeSetStates : Walker S R W N E Unit := do
  let _ ← popFakeCurStree

def pushCondStacks : Walker S R W N E Unit := do
  pushStree .condTrue none
  pushStree .condFalse none
  pushFakeCurStree

def copyStates (id : Stack) : Walker S R W N E (Option S) := do
  let stree ← popStree id
  pushStree id stree
  return stree

def useCondStack (id : Stack) : Walker S R W N E Unit := do
  let pre ← popStree .preCond
  pushStree .preCond pre
  let stree ← popStree id
  setCurStree (client.overwriteStree stree pre)
  pushStree id stree

def negateCondStacks : Walker S R W N E Unit := do
  let oldFalse ← popStree .condFalse
  let oldTrue ← popStree .condTrue
  pushStree .condFalse oldTrue
  pushStree .condTrue oldFalse

def andStreeStack (id : Stack) : Walker S R W N E Unit := do
  let rightStree ← popStree id
  overwriteTop client id rightStree

def orStreeStack (id : Stack) : Walker S R W N E Unit := do
  let new ← popStree id
  let old ← popStree id
  let preStree ← popStree .preCond
  pushStree .preCond preStree
  let res := client.overwriteStree old preStree
  let tmpStree := client.overwriteStree new (← getCurStree)
  pushStree id (client.filterStree (client.mergeStree res tmpStree) preStree)

def combineCondStates (isLogicalAnd : Bool) : Walker S R W N E Unit :=
  if isLogicalAnd then do
    andStreeStack client .condTrue
    orStreeStack client .condFalse
  else do
    orStreeStack client .condTrue
    andStreeStack client .condFalse

def useCondStates : Walker S R W N E Unit := do
  let pre ← popStree .preCond
  let trueStates ← popStree .condTrue
  setCurStree (client.overwriteStree trueStates pre)
  let falseStates ← popStree .condFalse
  pushStree .falses (client.overwriteStree falseStates pre)

def pushTrueStates : Walker S R W N E Unit := do
  pushStree .trues (← getCurStree)

def useFalseStates : Walker S R W N E Unit := do
  setCurStree (← popStree .falses)

def discardFalseStates : Walker S R W N E Unit := do
  let _ ← popStree .falses

def mergeIntoCur (stree : Option S) : Walker S R W N E Unit := do
  setCurStree (client.mergeStree (← getCurStree) stree)

def mergeFalseStates : Walker S R W N E Unit := do
  mergeIntoCur client (← popStree .falses)

def updateFakeStreeWithMerged : Walker S R W N E Unit :=
  ifStacked .fakeCur do
    let stree ← popStree .fakeCur
    pushStree .fakeCur (client.updateStreeWithMerged (← getCurStree) stree)

def mergeTrueStates : Walker S R W N E Unit := do
  mergeIntoCur client (← popStree .trues)
  updateFakeStreeWithMerged client

def pushContinues : Walker S R W N E Unit := pushStree .continues none

def mergeTop (id : Stack) (new : Option S) : Walker S R W N E Unit := do
  let stree ← popStree id
  pushStree id (if stree.isNone then new else client.mergeStree stree new)

def processContinues : Walker S R W N E Unit := do
  mergeTop client .continues (← getCurStree)

def mergeContinues : Walker S R W N E Unit := do
  mergeIntoCur client (← popStree .continues)

def pushBreaks : Walker S R W N E Unit := do
  pushStree .breaks none
  ifStacked .fakeCur (pushStree .fakeBreaks none)

def processBreaks : Walker S R W N E Unit := do
  mergeTop client .breaks (← getCurStree)
  ifStacked .fakeCur do
    let m ← get
    mergeTop client .fakeBreaks ((m.stack .fakeCur).headD none)

def hasBreaks : Walker S R W N E Bool := do
  let stree ← popStree .breaks
  pushStree .breaks stree
  return stree.isSome

def mergeBreaks : Walker S R W N E Unit := do
  mergeIntoCur client (← popStree .breaks)
  ifStacked .fakeCur do
    let stree ← popStree .fakeBreaks
    overwriteTop client .fakeCur (client.updateStreeWithMerged (← getCurStree) stree)

def useBreaks : Walker S R W N E Unit := do
  setCurStree (← popStree .breaks)
  ifStacked .fakeCur do
    let stree ← popStree .fakeBreaks
    overwriteTop client .fakeCur stree

def saveSwitchStates (switchExpr : E) : Walker S R W N E Unit := do
  let m ← get
  pushRl (client.getAbsoluteRl switchExpr m)
  pushStree .switches m.curStree

def haveRemainingCases : Walker S R W N E Bool := do
  return ((← get).remainingCases.head?.map client.isNullRl) == some false

def caseRanges : Option R → Walker S R W N E R
  | some rl => do
      let top ← popRl
      pushRl (client.rlFilter top rl)
      return rl
  | none => do
      let top ← popRl
      pushRl top
      return top

def mergeSwitches (caseRl : Option R) : Walker S R W N E Unit := do
  match ← popStree .switches with
  | none => pushStree .switches none
  | some stree => do
      let rl ← caseRanges client caseRl
      pushFakeCurStree
      unnullifyPath client
      passToClient client .case
      let extraStates ← popFakeCurStree
      mergeIntoCur client (client.impliedCaseStree (some stree) rl extraStates)
      pushStree .switches (some stree)

def discardSwitches : Walker S R W N E Unit := do
  let _ ← popRl
  let _ ← popStree .switches

def pushDefault : Walker S R W N E Unit := pushStree .defaults none

def setDefault : Walker S R W N E Unit := overwriteTop client .defaults (some client.hasDefault)

def popDefault : Walker S R W N E Bool := do
  return (← popStree .defaults).isSome

def saveGotos [DecidableEq N] (name : GotoName N) : Walker S R W N E Unit :=
  modify fun m =>
    { m with
      gotoStack :=
        if m.gotoStack.any fun saved => saved.1 = name then
          m.gotoStack.map fun saved =>
            if saved.1 = name then (name, client.mergeStree saved.2 m.curStree) else saved
        else m.gotoStack ++ [(name, m.curStree)] }

def mergeGotos [DecidableEq N] (name : GotoName N) : Walker S R W N E Unit := do
  let m ← get
  match m.gotoStack.find? fun saved => saved.1 = name with
  | none => pure ()
  | some saved => mergeIntoCur client saved.2

end Clients

end SmatchFormal.Walk
