import SmatchFormal.Flow.Stacks

/-!
# The walk over conditions and statements

`split_conditions` and `__split_stmt` with every operation on the stacks, for
conditions over leaf expressions and for the statements of C.
-/

namespace SmatchFormal.Walk

open SmatchFormal.Conditions (Cond)

variable {S R W N E : Type} (client : Client S R W N E)

/-! ## Conditions -/

def splitLeaf (expr : E) : Walker S R W N E (Option Bool) := do
  passToClient client (.expr expr)
  -- `do_condition`.
  foldInSetStates client
  pushFakeCurStree
  passToClient client (.condition expr)
  foldInSetStates client
  passToClient client (.postExpr expr)
  let m ← get
  let knownTf := client.knownCondition expr m
  pushFakeCurStree
  passToClient client .postOp
  foldInSetStates client
  return knownTf

def logicalTf (isLogicalAnd : Bool) (leftTf rightTf : Option Bool) : Option Bool :=
  if leftTf = some (!isLogicalAnd) ∨ rightTf = some (!isLogicalAnd) then some (!isLogicalAnd)
  else if leftTf = some isLogicalAnd ∧ rightTf = some isLogicalAnd then some isLogicalAnd
  else none

def selectTf (condTf trueTf falseTf : Option Bool) : Option Bool :=
  if condTf = some false ∧ falseTf = some false then some false
  else if condTf = some true ∧ trueTf = some true then some true
  else none

def combineStrees (orig fake new : Option S) : Option S :=
  client.overwriteStree new (client.overwriteStree fake (client.overwriteStree orig none))

/-- The two strees of one branch of `?:`, after the tests for an implied condition. -/
def branchStrees (cond : Cond E E) (m : State S R W N E)
    (orig fake trueStree falseStree : Option S) :
    Option S × Option S :=
  let (trueStree, falseStree) :=
    if client.impliedConditionTrue cond m then (client.overwriteStree fake orig, none)
    else (trueStree, falseStree)
  if client.impliedConditionFalse cond m then (none, client.overwriteStree fake orig)
  else (trueStree, falseStree)

def splitConditions : Cond E E → Walker S R W N E (Option Bool)
  | .leaf expr => splitLeaf client expr
  | .not unop => do
      let knownTf ← splitConditions unop
      negateCondStacks
      return knownTf.map not
  | .logical isLogicalAnd left right => do
      let leftTf ← splitConditions left
      useCondStack client (if isLogicalAnd then .condTrue else .condFalse)
      pushCondStacks
      savePreCondStates
      let rightTf ← splitConditions right
      discardPreCondStates
      combineCondStates client isLogicalAnd
      useCondStack client .condTrue
      return logicalTf isLogicalAnd leftTf rightTf
  | .comma left right => do
      passToClient client (.expr left)
      splitConditions right
  | .select conditional condTrue condFalse => do
      savePreCondStates
      let condTf ← splitConditions conditional
      let aT ← copyStates .condTrue
      let aF ← copyStates .condFalse
      useCondStack client .condTrue
      pushCondStacks
      pushFakeCurStree
      let trueTf ← splitConditions condTrue
      passToClient client .postOp
      let aTbFake ← popFakeCurStree
      let aTbT ← popStree .condTrue
      let aTbF ← popStree .condFalse
      useCondStack client .condFalse
      pushCondStacks
      pushFakeCurStree
      let falseTf ← splitConditions condFalse
      let aFcFake ← popFakeCurStree
      let aFcT ← popStree .condTrue
      let aFcF ← popStree .condFalse
      usePreCondStates
      let m ← get
      let second := branchStrees client condTrue m aT aTbFake
        (combineStrees client aT aTbFake aTbT) (combineStrees client aT aTbFake aTbF)
      let third := branchStrees client condFalse m aF aFcFake
        (combineStrees client aF aFcFake aFcT) (combineStrees client aF aFcFake aFcF)
      let _ ← popStree .condTrue
      let _ ← popStree .condFalse
      pushCondStacks
      setTrueFalseSm client (client.mergeStree second.1 third.1)
        (client.mergeStree second.2 third.2)
      freeSetStates
      return selectTf condTf trueTf falseTf

def splitOptional : Option (Cond E E) → Walker S R W N E (Option Bool)
  | none => do
      foldInSetStates client
      return none
  | some expr => splitConditions client expr

def splitWholeCondition (expr : Option (Cond E E)) : Walker S R W N E (Option Bool) := do
  savePreCondStates
  pushCondStacks
  let knownTf ← splitOptional client expr
  useCondStates client
  passToClient client .wholeCondition
  return knownTf

/-! ## Statements -/

def splitExprs : List E → Walker S R W N E Unit
  | [] => pure ()
  | first :: rest => do
      passToClient client (.expr first)
      splitExprs rest

def splitAround (inner : Walker S R W N E Unit) : Walker S R W N E Unit := do
  passToClient client .stmt
  inner
  passToClient client .stmtAfter
  passToClient client .postOp

def isForeverLoop : Option (Cond E E) → Bool
  | none => true
  | some expr => client.getValue expr != none && client.getValue expr != some 0

def handleCanonicalLoops : Walker S R W N E (Option S) := do
  pushFakeCurStree
  passToClient client .canonicalLoop
  popFakeCurStree

def preLoopHookAfter (unchanged : Bool) : Walker S R W N E Unit :=
  if unchanged then do
    let _ ← hasBreaks
    passToClient client .afterLoop
  else pure ()

def leaveLoop (onceThrough : Bool) : Walker S R W N E Unit :=
  if onceThrough then discardFalseStates else mergeFalseStates client

def newLoopName : Walker S R W N E (GotoName N) := do
  let m ← get
  modify fun m => { m with loopNum := m.loopNum + 1 }
  return .loop m.loopNum

/-- The condition of a loop before its body, and whether the body is entered. -/
def splitOnceThrough (preCondition : Option (Cond E E)) : Walker S R W N E Bool := do
  let knownTf ← splitWholeCondition client preCondition
  let m ← get
  return preCondition.isNone || knownTf == some true || client.callOnceThroughHooks m

def iteratorUnchanged : Walker S R W N E Bool := do
  return client.iteratorUnchanged (← get)

def saveGotosUnlessZero [DecidableEq N] (loopName : GotoName N) (postCondition : Cond E E) :
    Walker S R W N E Unit :=
  if client.getValue postCondition = some 0 then pure () else saveGotos client loopName

def mergeStreeIntoCur (stree : Option S) : Walker S R W N E Unit :=
  ifPathIsNull (pure ()) do
    let m ← get
    setSm client (client.mergeSmStates m.curStree stree)

section Loops

variable [DecidableEq N] (loopName : GotoName N) (onceThrough : Bool)

def leaveScopedGuard : Walker S R W N E Unit := do
  mergeContinues client
  saveGotos client loopName
  leaveLoop client onceThrough
  passToClient client .afterLoopNoBreaks
  mergeBreaks client

/-- The end of a loop that only a `break` can leave. -/
def leaveForever (post : Walker S R W N E Unit) : Walker S R W N E Unit := do
  mergeContinues client
  saveGotos client loopName
  pushFakeCurStree
  post
  let stree ← popFakeCurStree
  discardFalseStates
  passToClient client .afterLoopNoBreaks
  useBreaks client
  mergeStreeIntoCur client stree

def leaveCondition (preCondition : Option (Cond E E)) (post : Walker S R W N E Unit) :
    Walker S R W N E Unit := do
  mergeContinues client
  let unchanged ← iteratorUnchanged client
  post
  saveGotos client loopName
  let _ ← splitWholeCondition client preCondition
  nullifyPath
  mergeFalseStates client
  leaveLoop client onceThrough
  preLoopHookAfter client unchanged
  passToClient client .afterLoopNoBreaks
  mergeBreaks client

def leavePreLoop (statement postStatement : Stmt E N) (preCondition : Option (Cond E E))
    (post : Walker S R W N E Unit) : Walker S R W N E Unit :=
  if client.isScopedGuardGoto statement postStatement then
    leaveScopedGuard client loopName onceThrough
  else if isForeverLoop client preCondition then leaveForever client loopName post
  else leaveCondition client loopName onceThrough preCondition post

end Loops

def splitLabelStmt [DecidableEq N] : Option N → Walker S R W N E Unit
  | none => pure ()
  | some identifier => mergeGotos client (.label identifier)

def setDefaultIf (stmt : CaseLabel E) : Walker S R W N E Unit :=
  if stmt.caseExpression.isNone then setDefault client else pure ()

/-- The labels of a `case`: the ranges of all of them, and `default`. -/
def splitCaseLoop (switchExpr : Option E) (stmt : CaseLabel E) (rl : Option R) :
    List (CaseLabel E) → Walker S R W N E Unit
  | [] => do
      mergeSwitches client rl
      setDefaultIf client stmt
  | next :: rest =>
    match client.getCaseRl switchExpr next with
    | none => splitCaseLoop switchExpr next rl rest
    | some tmp => do
        setDefaultIf client stmt
        splitCaseLoop switchExpr next (some (rl.elim tmp fun rl => client.rlUnion rl tmp)) rest

def splitCase (first : CaseLabel E) (more : List (CaseLabel E)) : Walker S R W N E Unit := do
  let m ← get
  let switchExpr := m.switchExprStack.head?
  splitCaseLoop client switchExpr first (client.getCaseRl switchExpr first) more

/-- The test of `split_known_switch`, and what follows if the label is that of the value. -/
def enterCase (sval : Int) : Stmt E N → Walker S R W N E Bool
  | .case first _ _ =>
    if first.caseExpression.isNone || client.isCaseVal sval first then do
      setDefaultIf client first
      mergeSwitches client (some (client.allocRl sval))
      passToClient client .case
      return true
    else return false
  | _ => return false

def pushSwitchExpr (expr : E) : Walker S R W N E Unit :=
  modify fun m => { m with switchExprStack := expr :: m.switchExprStack }

def popSwitchExpr : Walker S R W N E Unit :=
  modify fun m => { m with switchExprStack := m.switchExprStack.tail }

def enterSwitch (switchExpression : E) : Walker S R W N E Unit := do
  passToClient client (.expr switchExpression)
  pushSwitchExpr switchExpression
  saveSwitchStates client switchExpression
  nullifyPath
  pushDefault
  pushBreaks

/-- `if (!__pop_default()) __merge_switches(..., NULL);`, for a switch with a known value. -/
def mergeUnlessDefault : Bool → Walker S R W N E Unit
  | true => pure ()
  | false => mergeSwitches client none

def leaveSwitch : Walker S R W N E Unit := do
  discardSwitches
  mergeBreaks client
  popSwitchExpr

def fakeAnEmptyDefault : Walker S R W N E Unit := do
  mergeSwitches client none
  splitAround client (pure ())

def fakeUnlessDefault (hasDefault remaining : Bool) : Walker S R W N E Unit :=
  if hasDefault = false ∧ remaining = true then fakeAnEmptyDefault client else pure ()

/-- `handle_backward_goto_at_end`, with the walk over the statements from a label on. -/
def handleBackwardGotoAtEnd (reparse : N → Walker S R W N E Unit) (gotoLabel : N) (atEnd : Bool) :
    Walker S R W N E Unit := do
  let m ← get
  if atEnd = true ∧ m.lastGotoStatementHandled = false then do
    modify fun m => { m with lastGotoStatementHandled := true }
    reparse gotoLabel
  else pure ()

section Stmt

variable [DecidableEq N] (reparse : N → Walker S R W N E Unit)

mutual

def splitStmt : Stmt E N → Walker S R W N E Unit
  | .null => passToClient client .postOp
  | .expression expr => splitAround client (passToClient client (.expr expr))
  | .declaration decls => splitAround client (splitExprs client decls)
  | .returns retValue => splitAround client do
      splitExprs client retValue.toList
      passToClient client .postOp
      passToClient client .scope
      passToClient client (.returns retValue)
      nullifyPath
  | .compound stmts => splitAround client do
      splitStmts stmts
      passToClient client .scope
  | .ifElse ifConditional ifTrue ifFalse => splitAround client do
      let knownTf ← splitWholeCondition client (some ifConditional)
      match knownTf with
      | some true => do
          splitStmt ifTrue
          discardFalseStates
      | some false => do
          useFalseStates
          splitStmt ifFalse
      | none => do
          splitStmt ifTrue
          pushTrueStates
          useFalseStates
          splitStmt ifFalse
          mergeTrueStates client
  | .preLoop syms preStatement preCondition statement postStatement => splitAround client do
      let loopName ← newLoopName
      splitExprs client syms
      splitStmt preStatement
      pushContinues
      pushBreaks
      mergeGotos client loopName
      passToClient client .preLoop
      let stree ← handleCanonicalLoops client
      let onceThrough ← splitOnceThrough client preCondition
      setSm client stree
      splitStmt statement
      leavePreLoop client loopName onceThrough statement postStatement preCondition
        (splitStmt postStatement)
      passToClient client .scope
  | .postLoop statement postCondition => splitAround client do
      let loopName ← newLoopName
      passToClient client .postLoop
      pushContinues
      pushBreaks
      mergeGotos client loopName
      splitStmt statement
      mergeContinues client
      saveGotosUnlessZero client loopName postCondition
      if isForeverLoop client (some postCondition) then do
        passToClient client .afterLoopNoBreaks
        useBreaks client
      else do
        let _ ← splitWholeCondition client (some postCondition)
        useFalseStates
        passToClient client .afterLoopNoBreaks
        mergeBreaks client
  | .switch switchExpression stmts => splitAround client do
      enterSwitch client switchExpression
      match client.getValue (.leaf switchExpression) with
      | some sval => do
          splitKnownSwitch sval stmts
          passToClient client .scope
          mergeUnlessDefault client (← popDefault)
          leaveSwitch client
      | none => do
          splitAround client do
            splitStmts stmts
            passToClient client .scope
          let hasDefault ← popDefault
          let remaining ← haveRemainingCases client
          fakeUnlessDefault client hasDefault remaining
          leaveSwitch client
  | .case first more stmt => splitAround client do
      splitCase client first more
      splitStmt stmt
  | .label identifier stmt => do
      passToClient client .stmt
      splitLabelStmt client identifier
      passToClient client .stmtAfter
      splitStmt stmt
      passToClient client .postOp
  | .breaks => splitAround client do
      processBreaks client
      nullifyPath
  | .continues => splitAround client do
      processContinues client
      nullifyPath
  | .goto gotoLabel atEnd => splitAround client do
      saveGotos client (.label gotoLabel)
      handleBackwardGotoAtEnd reparse gotoLabel atEnd
      nullifyPath
  | .gotoExpr gotoExpression => splitAround client do
      passToClient client (.expr gotoExpression)
      nullifyPath

/-- `__split_stmt` on the statement of a `case` that `split_known_switch` has entered. -/
def splitEntered : Stmt E N → Walker S R W N E Unit
  | .case _ [] stmt => splitStmt stmt
  | .case _ (next :: more) stmt => splitAround client do
      splitCase client next more
      splitStmt stmt
  | _ => pure ()

def splitStmts : List (Stmt E N) → Walker S R W N E Unit
  | [] => pure ()
  | stmt :: stmts => do
      splitStmt stmt
      splitStmts stmts

def splitKnownSwitch (sval : Int) : List (Stmt E N) → Walker S R W N E Unit
  | [] => pure ()
  | tmp :: stmts => do
      let entered ← enterCase client sval tmp
      if entered then do
        splitEntered tmp
        ifPathIsNull (setDefault client) (splitKnownSwitch sval stmts)
      else
        ifPathIsNull (splitKnownSwitch sval stmts) do
          splitStmt tmp
          ifPathIsNull (setDefault client) (splitKnownSwitch sval stmts)

end

def isLabel (name : N) : Stmt E N → Bool
  | .label (some identifier) _ => identifier = name
  | _ => false

/-- The walk over the statements of the function from a label on.  A second `goto` at the
end is not followed. -/
def reparseFrom (func : List (Stmt E N)) (name : N) : Walker S R W N E Unit :=
  splitStmts client (fun _ => pure ()) (func.dropWhile fun stmt => !isLabel name stmt)

end Stmt

end SmatchFormal.Walk
