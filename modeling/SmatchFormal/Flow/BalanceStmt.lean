import SmatchFormal.Flow.Balance

/-!
# Statements leave the stacks as they were

A `break`, `continue` or `case` is in the statement to which it belongs, as the
parser has it.  Then no stack is popped that is empty, and all of them are in the
end as deep as before.
-/

namespace SmatchFormal.Walk

open SmatchFormal.Conditions (Cond)
open SmatchFormal.Lib

/-! ## Scopes -/

structure Scope where
  breaks : Bool
  continues : Bool
  cases : Bool

def Scope.function : Scope := ⟨false, false, false⟩

def Scope.loop (scope : Scope) : Scope := ⟨true, true, scope.cases⟩

def Scope.switch (scope : Scope) : Scope := ⟨true, scope.continues, true⟩

section WellScoped

variable {E N : Type}

mutual

/-- Every `break`, `continue` and `case` is inside of what it belongs to.  The last part of
a `for` is an expression, so that none of them is in it. -/
def wellScoped (scope : Scope) : Stmt E N → Bool
  | .null | .expression _ | .declaration _ | .returns _ | .goto _ _ | .gotoExpr _ => true
  | .compound stmts => wellScopedAll scope stmts
  | .ifElse _ ifTrue ifFalse => wellScoped scope ifTrue && wellScoped scope ifFalse
  | .preLoop _ preStatement _ statement postStatement =>
    wellScoped scope preStatement && wellScoped scope.loop statement &&
      wellScoped .function postStatement
  | .postLoop statement _ => wellScoped scope.loop statement
  | .switch _ stmts => wellScopedAll scope.switch stmts
  | .case _ _ stmt => scope.cases && wellScoped scope stmt
  | .label _ stmt => wellScoped scope stmt
  | .breaks => scope.breaks
  | .continues => scope.continues

def wellScopedAll (scope : Scope) : List (Stmt E N) → Bool
  | [] => true
  | stmt :: stmts => wellScoped scope stmt && wellScopedAll scope stmts

end

theorem wellScopedAll_dropWhile {scope : Scope} {func : List (Stmt E N)}
    (test : Stmt E N → Bool)
    (inScope : wellScopedAll scope func = true) :
    wellScopedAll scope (func.dropWhile test) = true := by
  induction func with
  | nil => rfl
  | cons stmt func ih =>
    rw [wellScopedAll, Bool.and_eq_true] at inScope
    rw [List.dropWhile_cons]
    split
    · exact ih inScope.2
    · rw [wellScopedAll, Bool.and_eq_true]
      exact inScope

end WellScoped

structure Ready (scope : Scope) (d : Depths) : Prop where
  saved : Saved d
  breaks : scope.breaks = true →
    0 < d.stack .breaks ∧ (0 < d.stack .fakeCur → 0 < d.stack .fakeBreaks)
  continues : scope.continues = true → 0 < d.stack .continues
  cases : scope.cases = true →
    0 < d.stack .switches ∧ 0 < d.stack .defaults ∧ 0 < d.remainingCases

theorem ready_function {d : Depths} (saved : Saved d) : Ready .function d :=
  ⟨saved, fun impossible => absurd impossible (by decide),
    fun impossible => absurd impossible (by decide),
    fun impossible => absurd impossible (by decide)⟩

namespace Depths

theorem push_comm (d : Depths) (one two : Stack) :
    (d.push one).push two = (d.push two).push one := by
  refine ext_stack ?_ rfl
  intro other
  simp only [push_stack]
  split <;> split <;> rfl

def pushBreaks (d : Depths) : Depths :=
  if d.stack .fakeCur = 0 then d.push .breaks else (d.push .breaks).push .fakeBreaks

theorem pushBreaks_push (d : Depths) {id : Stack} (other : id ≠ .fakeCur) :
    (d.push id).pushBreaks = d.pushBreaks.push id := by
  have same : (d.push id).stack .fakeCur = d.stack .fakeCur := by
    rw [push_stack, if_neg (Ne.symm other)]
  unfold pushBreaks
  rw [same]
  split
  · exact push_comm d id .breaks
  · rw [push_comm d id .breaks, push_comm (d.push .breaks) id .fakeBreaks]

theorem pushBreaks_pushRl (d : Depths) : d.pushRl.pushBreaks = d.pushBreaks.pushRl := by
  unfold pushBreaks
  change (if d.stack .fakeCur = 0 then _ else _) = _
  split <;> rfl

theorem pushBreaks_stack (d : Depths) {id : Stack} (first : id ≠ .breaks)
    (second : id ≠ .fakeBreaks) : d.pushBreaks.stack id = d.stack id := by
  unfold pushBreaks
  split
  · rw [push_stack, if_neg first]
  · rw [push_stack, if_neg second, push_stack, if_neg first]

theorem pushBreaks_remaining (d : Depths) : d.pushBreaks.remainingCases = d.remainingCases := by
  unfold pushBreaks
  split <;> rfl

theorem pushBreaks_breaks (d : Depths) :
    0 < d.pushBreaks.stack .breaks ∧
      (0 < d.pushBreaks.stack .fakeCur → 0 < d.pushBreaks.stack .fakeBreaks) := by
  unfold pushBreaks
  split
  · rename_i empty
    refine ⟨Nat.succ_pos _, ?_⟩
    intro filled
    exact absurd empty (Nat.pos_iff_ne_zero.mp filled)
  · exact ⟨Nat.succ_pos _, fun _ => Nat.succ_pos _⟩

end Depths

section Breaks

variable {S R W N E : Type} (client : Client S R W N E) {d after : Depths}

theorem mergeIntoCur_moves (stree : Option S) : Moves (mergeIntoCur client stree) d d :=
  Steps.bind getCurStree_moves fun _ => setCurStree_moves _

theorem mergeTop_moves {id : Stack} (new : Option S) (filled : 0 < d.stack id) :
    Moves (mergeTop client id new) d d :=
  swap_moves filled

theorem pushBreaks_moves : Moves (pushBreaks : Walker S R W N E Unit) d d.pushBreaks := by
  refine Steps.bind (pushStree_moves none) fun _ => ?_
  refine ifStacked_moves ?_ ?_
  · intro empty
    exact (if_pos empty).symm
  · intro filled
    have fake : ¬ d.stack .fakeCur = 0 := Nat.pos_iff_ne_zero.mp filled
    exact Steps.congr (pushStree_moves none) (if_neg fake).symm

theorem processBreaks_moves (filled : 0 < d.stack .breaks)
    (faked : 0 < d.stack .fakeCur → 0 < d.stack .fakeBreaks) :
    Moves (processBreaks client) d d := by
  refine Steps.bind getCurStree_moves fun stree => ?_
  refine Steps.bind (mergeTop_moves client stree filled) fun _ => ?_
  refine ifStacked_moves (fun _ => rfl) ?_
  intro fake
  exact Steps.bind Steps.get fun m => mergeTop_moves client _ (faked fake)

theorem popBreaks_moves {use : Option S → Walker S R W N E Unit}
    {fold : Option S → Walker S R W N E Unit} (used : ∀ stree d, Moves (use stree) d d)
    (folded : ∀ stree d, 0 < d.stack .fakeCur → Moves (fold stree) d d) :
    Moves (do
      use (← popStree .breaks)
      ifStacked .fakeCur do
        let stree ← popStree .fakeBreaks
        fold stree : Walker S R W N E Unit) d.pushBreaks d := by
  unfold Depths.pushBreaks
  split
  · rename_i empty
    refine Steps.bind (Steps.congr (popStree_moves (Nat.succ_pos _)) (Depths.pop_push d .breaks))
      fun stree => ?_
    refine Steps.bind (used stree d) fun _ => ifStacked_moves (fun _ => rfl) ?_
    intro filled
    exact absurd filled (by omega)
  · rename_i fake
    have popped : ((d.push .breaks).push .fakeBreaks).pop .breaks = d.push .fakeBreaks := by
      rw [Depths.push_comm, Depths.pop_push]
    refine Steps.bind (Steps.congr (popStree_moves (Nat.succ_pos _)) popped) fun stree => ?_
    refine Steps.bind (used stree _) fun _ => ifStacked_moves ?_ ?_
    · intro empty
      exact absurd empty fake
    · intro filled
      refine Steps.bind (Steps.congr (popStree_moves (Nat.succ_pos _))
        (Depths.pop_push d .fakeBreaks)) fun stree => ?_
      exact folded stree d (Nat.pos_of_ne_zero fake)

theorem mergeBreaks_moves : Moves (mergeBreaks client) d.pushBreaks d := by
  refine popBreaks_moves (fun stree _ => mergeIntoCur_moves client stree) ?_
  intro stree d fake
  exact Steps.bind getCurStree_moves fun _ => overwriteTop_moves client _ fake

theorem useBreaks_moves : Moves (useBreaks client) d.pushBreaks d :=
  popBreaks_moves (fun stree _ => setCurStree_moves stree)
    fun stree _ fake => overwriteTop_moves client stree fake

end Breaks

section Ready

variable {scope : Scope} {d : Depths}

theorem Ready.push (ready : Ready scope d) {id : Stack} (other : id ≠ .fakeCur) :
    Ready scope (d.push id) := by
  obtain ⟨saved, breaks, continues, cases⟩ := ready
  have fake : (d.push id).stack .fakeCur = d.stack .fakeCur := by
    rw [Depths.push_stack, if_neg (Ne.symm other)]
  have more : ∀ stack, d.stack stack ≤ (d.push id).stack stack := by
    intro stack
    rw [Depths.push_stack]
    split <;> omega
  refine ⟨?_, ?_, ?_, ?_⟩
  · unfold Saved at saved ⊢
    rw [fake]
    exact Nat.le_trans saved (more .preCond)
  · intro inside
    obtain ⟨filled, faked⟩ := breaks inside
    rw [fake]
    exact ⟨Nat.lt_of_lt_of_le filled (more _), fun some => Nat.lt_of_lt_of_le (faked some) (more _)⟩
  · intro inside
    exact Nat.lt_of_lt_of_le (continues inside) (more _)
  · intro inside
    obtain ⟨first, second, third⟩ := cases inside
    exact ⟨Nat.lt_of_lt_of_le first (more _), Nat.lt_of_lt_of_le second (more _), third⟩

theorem saved_pushBreaks (saved : Saved d) : Saved d.pushBreaks := by
  unfold Saved at saved ⊢
  rw [Depths.pushBreaks_stack d (by decide) (by decide),
    Depths.pushBreaks_stack d (by decide) (by decide)]
  exact saved

/-- The body of a loop or of a switch may have a `break`. -/
theorem ready_pushBreaks {continues cases : Bool} (saved : Saved d)
    (loops : continues = true → 0 < d.stack .continues)
    (labels : cases = true → 0 < d.stack .switches ∧ 0 < d.stack .defaults ∧ 0 < d.remainingCases) :
    Ready ⟨true, continues, cases⟩ d.pushBreaks := by
  refine ⟨saved_pushBreaks saved, fun _ => d.pushBreaks_breaks, ?_, ?_⟩
  · intro inside
    rw [Depths.pushBreaks_stack d (by decide) (by decide)]
    exact loops inside
  · intro inside
    rw [Depths.pushBreaks_stack d (by decide) (by decide),
      Depths.pushBreaks_stack d (by decide) (by decide), Depths.pushBreaks_remaining]
    exact labels inside

theorem Ready.loop (ready : Ready scope d) : Ready scope.loop (d.push .continues).pushBreaks :=
  ready_pushBreaks ready.saved (fun _ => Nat.succ_pos _) ready.cases

def switchDepths (d : Depths) : Depths := (d.pushRl.push .switches).push .defaults

theorem Ready.switch (ready : Ready scope d) : Ready scope.switch (switchDepths d).pushBreaks :=
  ready_pushBreaks ready.saved ready.continues
    fun _ => ⟨Nat.succ_pos _, Nat.succ_pos _, Nat.succ_pos _⟩

end Ready

section Parts

variable {S R W N E : Type} (client : Client S R W N E) {scope : Scope} {d : Depths}

theorem splitExprs_moves (saved : Saved d) (exprs : List E) :
    Moves (splitExprs client exprs) d d := by
  induction exprs with
  | nil => exact Steps.pure ()
  | cons first rest ih => exact Steps.bind (passToClient_moves client saved _) fun _ => ih

theorem splitAround_moves (saved : Saved d) {inner : Walker S R W N E Unit}
    (moves : Moves inner d d) : Moves (splitAround client inner) d d := by
  refine Steps.bind (passToClient_moves client saved _) fun _ => ?_
  refine Steps.bind moves fun _ => ?_
  exact Steps.bind (passToClient_moves client saved _) fun _ => passToClient_moves client saved _

theorem discardFalseStates_moves :
    Moves (discardFalseStates : Walker S R W N E Unit) (d.push .falses) d :=
  Steps.bind (Steps.congr (popStree_moves (Nat.succ_pos _)) (Depths.pop_push d _)) fun _ =>
    Steps.pure ()

theorem useFalseStates_moves :
    Moves (useFalseStates : Walker S R W N E Unit) (d.push .falses) d :=
  Steps.bind (Steps.congr (popStree_moves (Nat.succ_pos _)) (Depths.pop_push d _)) fun stree =>
    setCurStree_moves stree

theorem mergeFalseStates_moves : Moves (mergeFalseStates client) (d.push .falses) d :=
  Steps.bind (Steps.congr (popStree_moves (Nat.succ_pos _)) (Depths.pop_push d _)) fun stree =>
    mergeIntoCur_moves client stree

theorem mergeContinues_moves : Moves (mergeContinues client) (d.push .continues) d :=
  Steps.bind (Steps.congr (popStree_moves (Nat.succ_pos _)) (Depths.pop_push d _)) fun stree =>
    mergeIntoCur_moves client stree

theorem mergeTrueStates_moves : Moves (mergeTrueStates client) (d.push .trues) d := by
  refine Steps.bind (Steps.congr (popStree_moves (Nat.succ_pos _)) (Depths.pop_push d _))
    fun stree => ?_
  refine Steps.bind (mergeIntoCur_moves client stree) fun _ => ifStacked_moves (fun _ => rfl) ?_
  intro filled
  refine Steps.bind (popStree_moves filled) fun stree => ?_
  refine Steps.bind getCurStree_moves fun cur => ?_
  exact Steps.congr (pushStree_moves _) (Depths.push_pop filled)

theorem leaveLoop_moves (onceThrough : Bool) :
    Moves (leaveLoop client onceThrough) (d.push .falses) d := by
  cases onceThrough with
  | true => exact discardFalseStates_moves
  | false => exact mergeFalseStates_moves client

theorem handleCanonicalLoops_moves (saved : Saved d) :
    Moves (handleCanonicalLoops client) d d := by
  refine Steps.bind pushFakeCurStree_moves fun _ => ?_
  exact Steps.bind (passToClient_moves client saved.pushFake _) fun _ => popFakeCurStree_pushed

theorem newLoopName_moves : Moves (newLoopName : Walker S R W N E (GotoName N)) d d := by
  refine Steps.bind Steps.get fun m => ?_
  exact Steps.bind (Steps.update fun _ start => start) fun _ => Steps.pure _

theorem splitOnceThrough_moves (saved : Saved d) (preCondition : Option (Cond E E)) :
    Moves (splitOnceThrough client preCondition) d (d.push .falses) := by
  refine Steps.bind (splitWholeCondition_moves client saved preCondition) fun _ => ?_
  exact Steps.bind Steps.get fun _ => Steps.pure _

theorem iteratorUnchanged_moves : Moves (iteratorUnchanged client) d d :=
  Steps.bind Steps.get fun _ => Steps.pure _

theorem preLoopHookAfter_moves (saved : Saved d) (filled : 0 < d.stack .breaks)
    (unchanged : Bool) : Moves (preLoopHookAfter client unchanged) d d := by
  cases unchanged with
  | false => exact Steps.pure ()
  | true =>
    refine Steps.bind ?_ fun _ => passToClient_moves client saved _
    refine Steps.bind (popStree_moves filled) fun stree => ?_
    refine Steps.bind (pushStree_moves stree) fun _ => ?_
    exact Steps.congr (Steps.pure _) (Depths.push_pop filled)

theorem mergeStreeIntoCur_moves (stree : Option S) : Moves (mergeStreeIntoCur client stree) d d :=
  ifPathIsNull_moves (Steps.pure ()) (Steps.bind Steps.get fun _ => setSm_moves client _)

/-! ### Gotos -/

theorem saveGotos_moves [DecidableEq N] (name : GotoName N) : Moves (saveGotos client name) d d :=
  Steps.update fun _ start => start

theorem mergeGotos_moves [DecidableEq N] (name : GotoName N) :
    Moves (mergeGotos client name) d d := by
  refine Steps.bind Steps.get fun m => ?_
  cases m.gotoStack.find? fun saved => saved.1 = name with
  | none => exact Steps.pure ()
  | some saved => exact mergeIntoCur_moves client saved.2

theorem saveGotosUnlessZero_moves [DecidableEq N] (loopName : GotoName N) (cond : Cond E E) :
    Moves (saveGotosUnlessZero client loopName cond) d d :=
  Steps.ite (fun _ => Steps.pure ()) fun _ => saveGotos_moves client loopName

theorem splitLabelStmt_moves [DecidableEq N] (identifier : Option N) :
    Moves (splitLabelStmt client identifier) d d := by
  cases identifier with
  | none => exact Steps.pure ()
  | some identifier => exact mergeGotos_moves client (.label identifier)

theorem handleBackwardGotoAtEnd_moves {reparse : N → Walker S R W N E Unit}
    (again : ∀ name, Moves (reparse name) d d) (gotoLabel : N) (atEnd : Bool) :
    Moves (handleBackwardGotoAtEnd reparse gotoLabel atEnd) d d := by
  refine Steps.bind Steps.get fun m => ?_
  refine Steps.ite (fun _ => ?_) fun _ => Steps.pure ()
  exact Steps.bind (Steps.update fun _ start => start) fun _ => again gotoLabel

/-! ### Switches -/

theorem caseRanges_moves (filled : 0 < d.remainingCases) (caseRl : Option R) :
    Moves (caseRanges client caseRl) d d := by
  have back : d.popRl.pushRl = d := by
    refine Depths.ext_stack (fun _ => rfl) ?_
    change d.remainingCases - 1 + 1 = d.remainingCases
    omega
  cases caseRl with
  | none =>
    refine Steps.bind (popRl_moves filled) fun top => ?_
    exact Steps.bind (Steps.congr (pushRl_moves top) back) fun _ => Steps.pure _
  | some rl =>
    refine Steps.bind (popRl_moves filled) fun top => ?_
    exact Steps.bind (Steps.congr (pushRl_moves _) back) fun _ => Steps.pure _

theorem mergeSwitches_moves (saved : Saved d) (filled : 0 < d.stack .switches)
    (ranges : 0 < d.remainingCases) (caseRl : Option R) :
    Moves (mergeSwitches client caseRl) d d := by
  refine Steps.bind (popStree_moves filled) fun stree => ?_
  have kept : Saved (d.pop .switches) := saved
  cases stree with
  | none => exact Steps.congr (pushStree_moves none) (Depths.push_pop filled)
  | some stree =>
    refine Steps.bind (caseRanges_moves client (show 0 < (d.pop .switches).remainingCases
      from ranges) caseRl) fun rl => ?_
    refine Steps.bind pushFakeCurStree_moves fun _ => ?_
    refine Steps.bind (unnullifyPath_moves client) fun _ => ?_
    refine Steps.bind (passToClient_moves client kept.pushFake _) fun _ => ?_
    refine Steps.bind popFakeCurStree_pushed fun extraStates => ?_
    refine Steps.bind (mergeIntoCur_moves client _) fun _ => ?_
    exact Steps.congr (pushStree_moves _) (Depths.push_pop filled)

theorem setDefaultIf_moves (filled : 0 < d.stack .defaults) (stmt : CaseLabel E) :
    Moves (setDefaultIf client stmt) d d :=
  Steps.ite (fun _ => overwriteTop_moves client _ filled) fun _ => Steps.pure ()

theorem splitCaseLoop_moves (ready : Ready scope d) (inside : scope.cases = true)
    (switchExpr : Option E) (more : List (CaseLabel E)) (stmt : CaseLabel E) (rl : Option R) :
    Moves (splitCaseLoop client switchExpr stmt rl more) d d := by
  obtain ⟨switches, defaults, ranges⟩ := ready.cases inside
  induction more generalizing stmt rl with
  | nil =>
    exact Steps.bind (mergeSwitches_moves client ready.saved switches ranges rl) fun _ =>
      setDefaultIf_moves client defaults stmt
  | cons next rest ih =>
    unfold splitCaseLoop
    cases client.getCaseRl switchExpr next with
    | none => exact ih next rl
    | some tmp => exact Steps.bind (setDefaultIf_moves client defaults stmt) fun _ => ih next _

theorem splitCase_moves (ready : Ready scope d) (inside : scope.cases = true)
    (first : CaseLabel E) (more : List (CaseLabel E)) :
    Moves (splitCase client first more) d d :=
  Steps.bind Steps.get fun _ => splitCaseLoop_moves client ready inside _ more first _

theorem enterCase_moves {stmt : Stmt E N} (sval : Int)
    (ready : Ready scope d) (inside : scope.cases = true) :
    Moves (enterCase client sval stmt) d d := by
  obtain ⟨switches, defaults, ranges⟩ := ready.cases inside
  cases stmt with
  | case first more below =>
    refine Steps.ite (fun _ => ?_) fun _ => Steps.pure _
    refine Steps.bind (setDefaultIf_moves client defaults first) fun _ => ?_
    refine Steps.bind (mergeSwitches_moves client ready.saved switches ranges _) fun _ => ?_
    exact Steps.bind (passToClient_moves client ready.saved _) fun _ => Steps.pure _
  | _ => exact Steps.pure _

theorem enterSwitch_moves (saved : Saved d) (switchExpression : E) :
    Moves (enterSwitch client switchExpression) d (switchDepths d).pushBreaks := by
  have kept : Saved (d.pushRl.push .switches) := saved
  refine Steps.bind (passToClient_moves client saved _) fun _ => ?_
  refine Steps.bind (Steps.update fun _ start => start) fun _ => ?_
  refine Steps.bind (Steps.bind Steps.get fun m => Steps.bind (pushRl_moves _) fun _ =>
    pushStree_moves _) fun _ => ?_
  refine Steps.bind (nullifyPath_moves kept) fun _ => ?_
  exact Steps.bind (pushStree_moves none) fun _ => pushBreaks_moves

theorem popDefault_moves :
    Moves (popDefault : Walker S R W N E Bool) (switchDepths d).pushBreaks
      (d.pushRl.push .switches).pushBreaks := by
  unfold switchDepths
  rw [Depths.pushBreaks_push _ (by decide)]
  refine Steps.bind (Steps.congr (popStree_moves ?_) (Depths.pop_push _ _)) fun _ => Steps.pure _
  exact Nat.succ_pos _

theorem leaveSwitch_moves :
    Moves (leaveSwitch client) (d.pushRl.push .switches).pushBreaks d := by
  have order : (d.pushRl.push .switches).pushBreaks = (d.pushBreaks.pushRl).push .switches := by
    rw [Depths.pushBreaks_push _ (by decide), Depths.pushBreaks_pushRl]
  have popped : ((d.pushBreaks.pushRl).push .switches).popRl = d.pushBreaks.push .switches := rfl
  rw [order]
  refine Steps.bind (Steps.bind (Steps.congr (popRl_moves (Nat.succ_pos _)) popped) fun _ =>
    Steps.bind (Steps.congr (popStree_moves (Nat.succ_pos _)) (Depths.pop_push _ _)) fun _ =>
      Steps.pure ()) fun _ => ?_
  refine Steps.bind (mergeBreaks_moves client) fun _ => ?_
  exact Steps.update fun _ start => start

/-! ### Loops -/

/-- The depths after the body of a loop, whose false states are still to be used. -/
def bodyDepths (d : Depths) : Depths := (d.pushBreaks.push .falses).push .continues

theorem bodyDepths_eq (d : Depths) :
    ((d.push .continues).pushBreaks).push .falses = bodyDepths d := by
  rw [Depths.pushBreaks_push _ (by decide), Depths.push_comm]
  rfl

variable [DecidableEq N]

section

variable (saved : Saved d) (loopName : GotoName N)
include saved loopName

theorem leaveScopedGuard_moves (onceThrough : Bool) :
    Moves (leaveScopedGuard client loopName onceThrough) (bodyDepths d) d := by
  refine Steps.bind (mergeContinues_moves client) fun _ => ?_
  refine Steps.bind (saveGotos_moves client loopName) fun _ => ?_
  refine Steps.bind (leaveLoop_moves client onceThrough) fun _ => ?_
  refine Steps.bind (passToClient_moves client (saved_pushBreaks saved) _) fun _ => ?_
  exact mergeBreaks_moves client

theorem leaveForever_moves {post : Walker S R W N E Unit} (moves : ∀ d, Saved d → Moves post d d) :
    Moves (leaveForever client loopName post) (bodyDepths d) d := by
  have kept : Saved (d.pushBreaks.push .falses) := saved_pushBreaks saved
  refine Steps.bind (mergeContinues_moves client) fun _ => ?_
  refine Steps.bind (saveGotos_moves client loopName) fun _ => ?_
  refine Steps.bind pushFakeCurStree_moves fun _ => ?_
  refine Steps.bind (moves _ kept.pushFake) fun _ => ?_
  refine Steps.bind popFakeCurStree_pushed fun stree => ?_
  refine Steps.bind discardFalseStates_moves fun _ => ?_
  refine Steps.bind (passToClient_moves client (saved_pushBreaks saved) _) fun _ => ?_
  exact Steps.bind (useBreaks_moves client) fun _ => mergeStreeIntoCur_moves client stree

theorem leaveCondition_moves (onceThrough : Bool) (preCondition : Option (Cond E E))
    {post : Walker S R W N E Unit} (moves : ∀ d, Saved d → Moves post d d) :
    Moves (leaveCondition client loopName onceThrough preCondition post) (bodyDepths d) d := by
  have kept : Saved (d.pushBreaks.push .falses) := saved_pushBreaks saved
  have twice : Saved ((d.pushBreaks.push .falses).push .falses) := kept
  refine Steps.bind (mergeContinues_moves client) fun _ => ?_
  refine Steps.bind (iteratorUnchanged_moves client) fun unchanged => ?_
  refine Steps.bind (moves _ kept) fun _ => ?_
  refine Steps.bind (saveGotos_moves client loopName) fun _ => ?_
  refine Steps.bind (splitWholeCondition_moves client kept preCondition) fun _ => ?_
  refine Steps.bind (nullifyPath_moves twice) fun _ => ?_
  refine Steps.bind (mergeFalseStates_moves client) fun _ => ?_
  refine Steps.bind (leaveLoop_moves client onceThrough) fun _ => ?_
  refine Steps.bind (preLoopHookAfter_moves client (saved_pushBreaks saved)
    d.pushBreaks_breaks.1 unchanged) fun _ => ?_
  refine Steps.bind (passToClient_moves client (saved_pushBreaks saved) _) fun _ => ?_
  exact mergeBreaks_moves client

theorem leavePreLoop_moves (onceThrough : Bool) (statement postStatement : Stmt E N)
    (preCondition : Option (Cond E E)) {post : Walker S R W N E Unit}
    (moves : ∀ d, Saved d → Moves post d d) :
    Moves (leavePreLoop client loopName onceThrough statement postStatement preCondition post)
      (bodyDepths d) d := by
  refine Steps.ite (fun _ => leaveScopedGuard_moves client saved loopName onceThrough) fun _ => ?_
  refine Steps.ite (fun _ => leaveForever_moves client saved loopName moves) fun _ => ?_
  exact leaveCondition_moves client saved loopName onceThrough preCondition moves

end

end Parts

section Statements

variable {S R W N E : Type} [DecidableEq N] (client : Client S R W N E) {scope : Scope} {d : Depths}
variable {reparse : N → Walker S R W N E Unit}

attribute [local simp] wellScoped splitStmt splitEntered splitStmts splitKnownSwitch

def KeepsDepths (client : Client S R W N E) (reparse : N → Walker S R W N E Unit)
    (stmt : Stmt E N) : Prop :=
  ∀ scope d, wellScoped scope stmt = true → Ready scope d →
    Moves (splitStmt client reparse stmt) d d

def Stmt.labelled : Stmt E N → Stmt E N
  | .case _ _ stmt => stmt
  | _ => .null

/-- The same for a list of statements, also as the body of a switch. -/
def ListKeepsDepths (client : Client S R W N E) (reparse : N → Walker S R W N E Unit)
    (stmts : List (Stmt E N)) : Prop :=
  ∀ scope d, wellScopedAll scope stmts = true → Ready scope d →
    Moves (splitStmts client reparse stmts) d d ∧
      (scope.cases = true → ∀ sval, Moves (splitKnownSwitch client reparse sval stmts) d d)

theorem ifElse_keeps {ifTrue ifFalse : Stmt E N} (cond : Cond E E)
    (one : KeepsDepths client reparse ifTrue) (two : KeepsDepths client reparse ifFalse) :
    KeepsDepths client reparse (.ifElse cond ifTrue ifFalse) := by
  intro scope d inScope ready
  rw [wellScoped, Bool.and_eq_true] at inScope
  rw [splitStmt]
  refine splitAround_moves client ready.saved ?_
  refine Steps.bind (splitWholeCondition_moves client ready.saved (some cond)) fun knownTf => ?_
  have first := one scope (d.push .falses) inScope.1 (ready.push (by decide))
  rcases knownTf with _ | _ | _
  · refine Steps.bind first fun _ => ?_
    refine Steps.bind (Steps.bind getCurStree_moves fun stree => pushStree_moves stree) fun _ => ?_
    rw [Depths.push_comm]
    refine Steps.bind useFalseStates_moves fun _ => ?_
    refine Steps.bind (two scope (d.push .trues) inScope.2 (ready.push (by decide))) fun _ => ?_
    exact mergeTrueStates_moves client
  · exact Steps.bind useFalseStates_moves fun _ => two scope d inScope.2 ready
  · exact Steps.bind first fun _ => discardFalseStates_moves

theorem preLoop_keeps {pre body post : Stmt E N} (syms : List E) (cond : Option (Cond E E))
    (one : KeepsDepths client reparse pre) (two : KeepsDepths client reparse body)
    (three : KeepsDepths client reparse post) :
    KeepsDepths client reparse (.preLoop syms pre cond body post) := by
  intro scope d inScope ready
  rw [wellScoped, Bool.and_eq_true, Bool.and_eq_true] at inScope
  obtain ⟨⟨before, inside⟩, last⟩ := inScope
  have loop := ready.loop
  rw [splitStmt]
  refine splitAround_moves client ready.saved ?_
  refine Steps.bind newLoopName_moves fun loopName => ?_
  refine Steps.bind (splitExprs_moves client ready.saved syms) fun _ => ?_
  refine Steps.bind (one scope d before ready) fun _ => ?_
  refine Steps.bind (pushStree_moves none) fun _ => ?_
  refine Steps.bind pushBreaks_moves fun _ => ?_
  refine Steps.bind (mergeGotos_moves client loopName) fun _ => ?_
  refine Steps.bind (passToClient_moves client loop.saved _) fun _ => ?_
  refine Steps.bind (handleCanonicalLoops_moves client loop.saved) fun stree => ?_
  refine Steps.bind (splitOnceThrough_moves client loop.saved cond) fun onceThrough => ?_
  refine Steps.bind (setSm_moves client stree) fun _ => ?_
  refine Steps.bind (two _ _ inside (loop.push (by decide))) fun _ => ?_
  rw [bodyDepths_eq]
  refine Steps.bind (leavePreLoop_moves client ready.saved loopName onceThrough body post cond ?_)
    fun _ => passToClient_moves client ready.saved _
  intro d saved
  exact three .function d last (ready_function saved)

theorem postLoop_keeps {body : Stmt E N} (cond : Cond E E)
    (one : KeepsDepths client reparse body) :
    KeepsDepths client reparse (.postLoop body cond) := by
  intro scope d inScope ready
  rw [wellScoped] at inScope
  have saved := saved_pushBreaks ready.saved
  rw [splitStmt]
  refine splitAround_moves client ready.saved ?_
  refine Steps.bind newLoopName_moves fun loopName => ?_
  refine Steps.bind (passToClient_moves client ready.saved _) fun _ => ?_
  refine Steps.bind (pushStree_moves none) fun _ => ?_
  refine Steps.bind pushBreaks_moves fun _ => ?_
  refine Steps.bind (mergeGotos_moves client loopName) fun _ => ?_
  refine Steps.bind (one _ _ inScope ready.loop) fun _ => ?_
  rw [Depths.pushBreaks_push _ (by decide)]
  refine Steps.bind (mergeContinues_moves client) fun _ => ?_
  refine Steps.bind (saveGotosUnlessZero_moves client loopName cond) fun _ => ?_
  refine Steps.ite (fun _ => ?_) fun _ => ?_
  · exact Steps.bind (passToClient_moves client saved _) fun _ => useBreaks_moves client
  · refine Steps.bind (splitWholeCondition_moves client saved (some cond)) fun _ => ?_
    refine Steps.bind useFalseStates_moves fun _ => ?_
    exact Steps.bind (passToClient_moves client saved _) fun _ => mergeBreaks_moves client

theorem compound_keeps {stmts : List (Stmt E N)} (all : ListKeepsDepths client reparse stmts) :
    KeepsDepths client reparse (.compound stmts) := by
  intro scope d inScope ready
  rw [wellScoped] at inScope
  rw [splitStmt]
  refine splitAround_moves client ready.saved ?_
  exact Steps.bind (all scope d inScope ready).1 fun _ => passToClient_moves client ready.saved _

theorem switch_keeps {stmts : List (Stmt E N)} (switchExpression : E)
    (all : ListKeepsDepths client reparse stmts) :
    KeepsDepths client reparse (.switch switchExpression stmts) := by
  intro scope d inScope ready
  rw [wellScoped] at inScope
  have inside := ready.switch
  obtain ⟨body, known⟩ := all scope.switch _ inScope inside
  have saved : Saved (d.pushRl.push .switches).pushBreaks :=
    saved_pushBreaks (show Saved (d.pushRl.push .switches) from ready.saved)
  have merge : ∀ rl, Moves (mergeSwitches client rl) (d.pushRl.push .switches).pushBreaks
      (d.pushRl.push .switches).pushBreaks := by
    intro rl
    refine mergeSwitches_moves client saved ?_ ?_ rl
    · rw [Depths.pushBreaks_stack _ (by decide) (by decide)]
      exact Nat.succ_pos _
    · rw [Depths.pushBreaks_remaining]
      exact Nat.succ_pos _
  rw [splitStmt]
  refine splitAround_moves client ready.saved ?_
  refine Steps.bind (enterSwitch_moves client ready.saved switchExpression) fun _ => ?_
  cases client.getValue (.leaf switchExpression) with
  | some sval =>
    refine Steps.bind (known rfl sval) fun _ => ?_
    refine Steps.bind (passToClient_moves client inside.saved _) fun _ => ?_
    refine Steps.bind popDefault_moves fun hasDefault => ?_
    refine Steps.bind ?_ fun _ => leaveSwitch_moves client
    cases hasDefault with
    | true => exact Steps.pure ()
    | false => exact merge none
  | none =>
    refine Steps.bind (splitAround_moves client inside.saved (Steps.bind body fun _ =>
      passToClient_moves client inside.saved _)) fun _ => ?_
    refine Steps.bind popDefault_moves fun hasDefault => ?_
    refine Steps.bind (Steps.bind Steps.get fun _ => Steps.pure _) fun remaining => ?_
    refine Steps.bind (Steps.ite (fun _ => ?_) fun _ => Steps.pure ()) fun _ =>
      leaveSwitch_moves client
    exact Steps.bind (merge none) fun _ => splitAround_moves client saved (Steps.pure ())

theorem case_keeps {stmt : Stmt E N} (first : CaseLabel E) (more : List (CaseLabel E))
    (one : KeepsDepths client reparse stmt) :
    KeepsDepths client reparse (.case first more stmt) := by
  intro scope d inScope ready
  rw [wellScoped, Bool.and_eq_true] at inScope
  rw [splitStmt]
  refine splitAround_moves client ready.saved ?_
  exact Steps.bind (splitCase_moves client ready inScope.1 first more) fun _ =>
    one scope d inScope.2 ready

theorem label_keeps {stmt : Stmt E N} (identifier : Option N)
    (one : KeepsDepths client reparse stmt) :
    KeepsDepths client reparse (.label identifier stmt) := by
  intro scope d inScope ready
  rw [wellScoped] at inScope
  rw [splitStmt]
  refine Steps.bind (passToClient_moves client ready.saved _) fun _ => ?_
  refine Steps.bind (splitLabelStmt_moves client identifier) fun _ => ?_
  refine Steps.bind (passToClient_moves client ready.saved _) fun _ => ?_
  refine Steps.bind (one scope d inScope ready) fun _ => ?_
  exact passToClient_moves client ready.saved _

/-- The statement of a `case` that was entered is walked like the `case` without the label. -/
theorem entered_keeps {stmt : Stmt E N} (inner : KeepsDepths client reparse stmt.labelled)
    {scope : Scope} {d : Depths} (inScope : wellScoped scope stmt = true)
    (ready : Ready scope d) : Moves (splitEntered client reparse stmt) d d := by
  cases stmt with
  | case first more below =>
    rw [wellScoped, Bool.and_eq_true] at inScope
    have body := inner scope d inScope.2 ready
    cases more with
    | nil => exact body
    | cons next more =>
      rw [splitEntered]
      refine splitAround_moves client ready.saved ?_
      exact Steps.bind (splitCase_moves client ready inScope.1 next more) fun _ => body
  | _ => exact Steps.pure ()

theorem cons_keeps {stmt : Stmt E N} {stmts : List (Stmt E N)}
    (one : KeepsDepths client reparse stmt)
    (inner : KeepsDepths client reparse stmt.labelled)
    (rest : ListKeepsDepths client reparse stmts) :
    ListKeepsDepths client reparse (stmt :: stmts) := by
  intro scope d inScope ready
  rw [wellScopedAll, Bool.and_eq_true] at inScope
  have head := one scope d inScope.1 ready
  obtain ⟨tail, known⟩ := rest scope d inScope.2 ready
  constructor
  · rw [splitStmts]
    exact Steps.bind head fun _ => tail
  · intro inside sval
    have stop : Moves (setDefault client) d d :=
      overwriteTop_moves client _ (ready.cases inside).2.1
    rw [splitKnownSwitch]
    refine Steps.bind (enterCase_moves client sval ready inside) fun entered => ?_
    refine Steps.ite (fun _ => ?_) fun _ => ?_
    · exact Steps.bind (entered_keeps client inner inScope.1 ready) fun _ =>
        ifPathIsNull_moves stop (known inside sval)
    · exact ifPathIsNull_moves (known inside sval) (Steps.bind head fun _ =>
        ifPathIsNull_moves stop (known inside sval))

def Keeps (client : Client S R W N E) (reparse : N → Walker S R W N E Unit) (stmt : Stmt E N) :
    Prop :=
  KeepsDepths client reparse stmt ∧ KeepsDepths client reparse stmt.labelled

theorem null_keeps : KeepsDepths client reparse .null := by
  intro scope d _ ready
  exact passToClient_moves client ready.saved _

theorem keeps_unlabelled {stmt : Stmt E N} (keeps : KeepsDepths client reparse stmt)
    (unlabelled : stmt.labelled = .null) : Keeps client reparse stmt := by
  refine ⟨keeps, ?_⟩
  rw [unlabelled]
  exact null_keeps client

/-- `__split_stmt` keeps the depths, by induction on the statement. -/
theorem splitStmt_keeps (again : ∀ name d, Saved d → Moves (reparse name) d d) (stmt : Stmt E N) :
    Keeps client reparse stmt := by
  refine @Stmt.rec E N (Keeps client reparse) (ListKeepsDepths client reparse) ?null ?expression
    ?declaration ?returns ?compound ?ifElse ?preLoop ?postLoop ?switch ?case ?label ?breaks
    ?continues ?goto ?gotoExpr ?nil ?cons stmt
  case null => exact ⟨null_keeps client, null_keeps client⟩
  case expression =>
      intro expr
      refine keeps_unlabelled client ?_ rfl
      intro scope d _ ready
      exact splitAround_moves client ready.saved (passToClient_moves client ready.saved _)
  case declaration =>
      intro decls
      refine keeps_unlabelled client ?_ rfl
      intro scope d _ ready
      exact splitAround_moves client ready.saved (splitExprs_moves client ready.saved decls)
  case returns =>
      intro retValue
      refine keeps_unlabelled client ?_ rfl
      intro scope d _ ready
      refine splitAround_moves client ready.saved ?_
      refine Steps.bind (splitExprs_moves client ready.saved _) fun _ => ?_
      refine Steps.bind (passToClient_moves client ready.saved _) fun _ => ?_
      refine Steps.bind (passToClient_moves client ready.saved _) fun _ => ?_
      exact Steps.bind (passToClient_moves client ready.saved _) fun _ =>
        nullifyPath_moves ready.saved
  case compound =>
      intro stmts all
      exact keeps_unlabelled client (compound_keeps client all) rfl
  case ifElse =>
      intro cond ifTrue ifFalse one two
      exact keeps_unlabelled client (ifElse_keeps client cond one.1 two.1) rfl
  case preLoop =>
      intro syms pre cond body post one two three
      exact keeps_unlabelled client (preLoop_keeps client syms cond one.1 two.1 three.1)
        rfl
  case postLoop =>
      intro body cond one
      exact keeps_unlabelled client (postLoop_keeps client cond one.1) rfl
  case switch =>
      intro switchExpression stmts all
      exact keeps_unlabelled client (switch_keeps client switchExpression all)
        rfl
  case case =>
      intro first more stmt one
      exact ⟨case_keeps client first more one.1, one.1⟩
  case label =>
      intro identifier stmt one
      exact keeps_unlabelled client (label_keeps client identifier one.1) rfl
  case breaks =>
      refine keeps_unlabelled client ?_ rfl
      intro scope d inScope ready
      obtain ⟨filled, faked⟩ := ready.breaks inScope
      refine splitAround_moves client ready.saved ?_
      exact Steps.bind (processBreaks_moves client filled faked) fun _ =>
        nullifyPath_moves ready.saved
  case continues =>
      refine keeps_unlabelled client ?_ rfl
      intro scope d inScope ready
      refine splitAround_moves client ready.saved ?_
      refine Steps.bind (Steps.bind getCurStree_moves fun stree =>
        mergeTop_moves client stree (ready.continues inScope)) fun _ => ?_
      exact nullifyPath_moves ready.saved
  case goto =>
      intro gotoLabel atEnd
      refine keeps_unlabelled client ?_ rfl
      intro scope d _ ready
      refine splitAround_moves client ready.saved ?_
      refine Steps.bind (saveGotos_moves client _) fun _ => ?_
      refine Steps.bind (handleBackwardGotoAtEnd_moves (fun name => again name d ready.saved) _ _)
        fun _ => nullifyPath_moves ready.saved
  case gotoExpr =>
      intro expr
      refine keeps_unlabelled client ?_ rfl
      intro scope d _ ready
      refine splitAround_moves client ready.saved ?_
      exact Steps.bind (passToClient_moves client ready.saved _) fun _ =>
        nullifyPath_moves ready.saved
  case nil =>
      intro scope d _ _
      exact ⟨Steps.pure (), fun _ _ => Steps.pure ()⟩
  case cons =>
      intro stmt stmts one rest
      exact cons_keeps client one.1 one.2 rest

theorem splitStmts_keeps (again : ∀ name d, Saved d → Moves (reparse name) d d)
    (stmts : List (Stmt E N)) : ListKeepsDepths client reparse stmts := by
  induction stmts with
  | nil =>
    intro scope d _ _
    exact ⟨Steps.pure (), fun _ _ => Steps.pure ()⟩
  | cons stmt stmts ih =>
    obtain ⟨keeps, inner⟩ := splitStmt_keeps client again stmt
    exact cons_keeps client keeps inner ih

theorem reparseFrom_moves {func : List (Stmt E N)} (inScope : wellScopedAll .function func = true)
    (name : N) (saved : Saved d) : Moves (reparseFrom client func name) d d := by
  refine (splitStmts_keeps client ?_ _ .function d (wellScopedAll_dropWhile _ inScope)
    (ready_function saved)).1
  intro _ d _
  exact Steps.pure ()

end Statements

/-- No run pops a stack that is empty.  A condition takes the saved stree and the fake stree
that were pushed for it and nothing else, a whole condition adds one entry of false states, and
a statement leaves all stacks as deep as they were. -/
theorem walk_depths {S R W N E : Type} [DecidableEq N] (client : Client S R W N E)
    (func : List (Stmt E N)) (inScope : wellScopedAll .function func = true) :
    (∀ (expr : Cond E E) (d : Depths), CondReady d →
      Moves (splitConditions client expr) d ((d.pop .preCond).pop .fakeCur)) ∧
    (∀ (expr : Option (Cond E E)) (d : Depths), Saved d →
      Moves (splitWholeCondition client expr) d (d.push .falses)) ∧
    ∀ (stmt : Stmt E N) (scope : Scope) (d : Depths), wellScoped scope stmt = true →
      Ready scope d → Moves (splitStmt client (reparseFrom client func) stmt) d d := by
  refine ⟨?_, ?_, ?_⟩
  · intro expr d ready
    exact splitConditions_moves client expr ready
  · intro expr d saved
    exact splitWholeCondition_moves client saved expr
  · intro stmt scope d inside ready
    have again : ∀ name d, Saved d → Moves (reparseFrom client func name) d d :=
      fun name _ saved => reparseFrom_moves client inScope name saved
    exact (splitStmt_keeps client again stmt).1 scope d inside ready

def idleClient : Client Unit Unit Unit Unit Unit where
  overwriteStree new stree := new.or stree
  mergeStree one two := one.or two
  filterStree stree _ := stree
  mergeSmStates _ stree := stree
  updateStreeWithMerged _ stree := stree
  hasDefault := ()
  unnullPath := ()
  passToClient _ _ := ([], ())
  knownCondition _ _ := none
  impliedConditionTrue _ _ := false
  impliedConditionFalse _ _ := false
  callOnceThroughHooks _ := false
  iteratorUnchanged _ := false
  isScopedGuardGoto _ _ := false
  getValue _ := none
  getAbsoluteRl _ _ := ()
  rlFilter _ _ := ()
  rlUnion _ _ := ()
  isNullRl _ := false
  allocRl _ := ()
  getCaseRl _ _ := some ()
  isCaseVal _ _ := false
  impliedCaseStree stree _ _ := stree

/-- `while (x) { if (x && x) break; }`, from empty stacks. -/
theorem walk_depths_while :
    Moves (splitStmt idleClient (reparseFrom idleClient [])
        (.preLoop [] .null (some (.leaf ()))
          (.ifElse (.logical true (.leaf ()) (.leaf ())) .breaks .null) .null))
      ⟨fun _ => 0, 0⟩ ⟨fun _ => 0, 0⟩ :=
  (walk_depths idleClient [] rfl).2.2 _ .function _ rfl (ready_function (Nat.le_refl 0))

def condState : State Unit Unit Unit Unit Unit where
  curStree := some ()
  stack id := if id = .preCond then [none, none] else [none]
  remainingCases := []
  switchExprStack := []
  gotoStack := []
  loopNum := 0
  lastGotoStatementHandled := false
  world := ()

/-- A leaf condition pops a saved stree and a fake stree that it has not pushed. -/
theorem splitConditions_leaf_pops :
    ∃ knownTf m, CondReady condState.depths ∧
      splitConditions idleClient (.leaf ()) condState = some (knownTf, m) ∧
      m.depths.stack .preCond ≠ condState.depths.stack .preCond ∧
      m.depths.stack .fakeCur ≠ condState.depths.stack .fakeCur := by
  have ready : CondReady condState.depths := ⟨by decide, by decide, by decide, by decide⟩
  obtain ⟨knownTf, m, run, depths⟩ :=
    splitConditions_moves idleClient (.leaf ()) ready condState rfl
  refine ⟨knownTf, m, ready, run, ?_, ?_⟩
  · rw [depths]
    decide
  · rw [depths]
    decide

end SmatchFormal.Walk
