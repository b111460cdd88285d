import SmatchFormal.Flow.Switch

/-!
# A switch on a known value

`split_known_switch` walks the body of a switch on a constant and skips the
statements before the label that it takes.
-/

namespace SmatchFormal.Flow

open SmatchFormal.Ranges

/-- A statement of the body: a `break`, or one after which the path goes on. -/
structure BodyStmt where
  labels : List Label
  isBreak : Bool

/-- The numbers of the statements from the first one to the first `break`. -/
def through (nr : Nat) : List BodyStmt → List Nat
  | [] => []
  | stmt :: rest => nr :: if stmt.isBreak then [] else through (nr + 1) rest

/-- The statements that run when control enters at the first one that passes a test. -/
def enterAt (test : BodyStmt → Bool) (nr : Nat) : List BodyStmt → List Nat
  | [] => []
  | stmt :: rest => if test stmt then through nr (stmt :: rest) else enterAt test (nr + 1) rest

def executed (type : Ctype) (v : Int) (body : List BodyStmt) : List Nat :=
  enterAt (fun stmt => isTarget type v (body.map BodyStmt.labels) stmt.labels) 0 body

section Code

variable {σ : Type}

structure Walker (σ : Type) where
  merge : σ → σ → σ
  exec : Nat → σ → σ

/-- `merge_stree`; `none` is the null path. -/
def Walker.mergeStree (walker : Walker σ) : Option σ → Option σ → Option σ
  | none, from_ => from_
  | cur, none => cur
  | some cur, some from_ => some (walker.merge cur from_)

/-- The states of one switch: the current one, the top of the switch stack, of the break
stack and of the default stack, and the statements walked so far on a live path. -/
structure KnownState (σ : Type) where
  cur : Option σ
  switchTop : Option σ
  breaks : Option σ
  hasDefault : Bool
  walked : List Nat

def KnownState.setDefaultIf (state : KnownState σ) (called : Bool) : KnownState σ :=
  { state with hasDefault := state.hasDefault || called }

/-- `__merge_switches`.  A constant has no name, so that the implied states are the ones
from before the switch, for every range. -/
def Walker.mergeSwitches (walker : Walker σ) (state : KnownState σ) : KnownState σ :=
  { state with cur := walker.mergeStree state.cur state.switchTop }

/-- `is_case_val`: the test of the outermost label, and whether it calls `__set_default`. -/
def isCaseVal (sval : Sval) (stmt : BodyStmt) : Bool :=
  match stmt.labels with
  | [] => false
  | .default :: _ => true
  | .caseLabel start _ :: _ => start.raw == sval.raw

def Walker.splitInner (walker : Walker σ) (nr : Nat) (stmt : BodyStmt) (state : KnownState σ) :
    KnownState σ :=
  match state.cur with
  | none => state
  | some cur =>
    let state := { state with walked := state.walked ++ [nr] }
    if stmt.isBreak then
      { state with breaks := walker.mergeStree state.breaks (some cur), cur := none }
    else { state with cur := some (walker.exec nr cur) }

def Walker.splitStmt (walker : Walker σ) (switchType : Ctype) (labels : List Label) (nr : Nat)
    (stmt : BodyStmt) (state : KnownState σ) : KnownState σ :=
  match labels with
  | [] => walker.splitInner nr stmt state
  | _ :: _ =>
    walker.splitInner nr stmt
      ((walker.mergeSwitches state).setDefaultIf (caseRl switchType labels).2)

def Walker.knownLoop (walker : Walker σ) (switchType : Ctype) (sval : Sval) (nr : Nat) :
    List BodyStmt → KnownState σ → KnownState σ
  | [], state => state
  | stmt :: rest, state =>
    let next := if isCaseVal sval stmt then
        let state := state.setDefaultIf (stmt.labels.head?.any Label.isDefault)
        some (walker.splitStmt switchType stmt.labels.tail nr stmt (walker.mergeSwitches state))
      else if state.cur.isNone then none
      else some (walker.splitStmt switchType stmt.labels nr stmt state)
    match next with
    | none => walker.knownLoop switchType sval (nr + 1) rest state
    | some state =>
      if state.cur.isNone then state.setDefaultIf true
      else walker.knownLoop switchType sval (nr + 1) rest state

/-- `split_known_switch`: the statements walked and the state after the switch. -/
def Walker.splitKnownSwitch (walker : Walker σ) (switchType : Ctype) (sval : Sval)
    (body : List BodyStmt) (cur : Option σ) : List Nat × Option σ :=
  let state := walker.knownLoop switchType (svalCast switchType sval) 0 body
    ⟨none, cur, none, false, []⟩
  let state := if state.hasDefault then state else walker.mergeSwitches state
  (state.walked, walker.mergeStree state.cur state.breaks)

end Code

section Walked

variable {σ : Type} (walker : Walker σ) (switchType : Ctype) {sval : Sval}

theorem splitInner_walked (nr : Nat) (stmt : BodyStmt) {state : KnownState σ} {cur : σ}
    (live : state.cur = some cur) :
    (walker.splitInner nr stmt state).walked = state.walked ++ [nr] ∧
      (walker.splitInner nr stmt state).cur.isNone = stmt.isBreak ∧
      (walker.splitInner nr stmt state).switchTop = state.switchTop := by
  unfold Walker.splitInner
  rw [live]
  cases stmt.isBreak <;> exact ⟨rfl, rfl, rfl⟩

theorem mergeSwitches_live (state : KnownState σ) {saved : σ} (top : state.switchTop = some saved) :
    ∃ cur, (walker.mergeSwitches state).cur = some cur := by
  unfold Walker.mergeSwitches
  rw [top]
  cases state.cur with
  | none => exact ⟨saved, rfl⟩
  | some cur => exact ⟨walker.merge cur saved, rfl⟩

/-- A statement is walked on a live path, and the path ends at a `break`. -/
theorem splitStmt_walked (labels : List Label) (nr : Nat) (stmt : BodyStmt) {state : KnownState σ}
    {cur saved : σ} (live : state.cur = some cur) (top : state.switchTop = some saved) :
    (walker.splitStmt switchType labels nr stmt state).walked = state.walked ++ [nr] ∧
      (walker.splitStmt switchType labels nr stmt state).cur.isNone = stmt.isBreak ∧
      (walker.splitStmt switchType labels nr stmt state).switchTop = state.switchTop := by
  cases labels with
  | nil => exact splitInner_walked walker nr stmt live
  | cons label labels =>
    obtain ⟨merged, found⟩ := mergeSwitches_live walker state top
    have live' : ((walker.mergeSwitches state).setDefaultIf
        (caseRl switchType (label :: labels)).2).cur = some merged := found
    exact splitInner_walked walker nr stmt live'

/-- A statement at which the loop does not skip. -/
theorem knownLoop_cons (nr : Nat) {stmt : BodyStmt} (rest : List BodyStmt) {state : KnownState σ}
    {saved : σ} (top : state.switchTop = some saved)
    (taken : isCaseVal sval stmt = true ∨ ∃ cur, state.cur = some cur) :
    ∃ next : KnownState σ, next.walked = state.walked ++ [nr] ∧
      next.switchTop = state.switchTop ∧ next.cur.isNone = stmt.isBreak ∧
      walker.knownLoop switchType sval nr (stmt :: rest) state =
        if next.cur.isNone then next.setDefaultIf true
        else walker.knownLoop switchType sval (nr + 1) rest next := by
  rw [Walker.knownLoop]
  cases accepted : isCaseVal sval stmt with
  | true =>
    obtain ⟨merged, found⟩ := mergeSwitches_live walker
      (state.setDefaultIf (stmt.labels.head?.any Label.isDefault)) top
    obtain ⟨log, ends, kept⟩ :=
      splitStmt_walked walker switchType stmt.labels.tail nr stmt found top
    exact ⟨_, log, kept, ends, rfl⟩
  | false =>
    rw [accepted] at taken
    obtain ⟨cur, live⟩ := taken.resolve_left Bool.false_ne_true
    obtain ⟨log, ends, kept⟩ := splitStmt_walked walker switchType stmt.labels nr stmt live top
    refine ⟨_, log, kept, ends, ?_⟩
    simp only [live, Option.isNone_some, Bool.false_eq_true, if_false]

/-- On a live path the loop goes on to the first `break`. -/
theorem knownLoop_live (body : List BodyStmt) {nr : Nat} {state : KnownState σ} {cur saved : σ}
    (live : state.cur = some cur) (top : state.switchTop = some saved) :
    (walker.knownLoop switchType sval nr body state).walked = state.walked ++ through nr body := by
  induction body generalizing nr state cur with
  | nil => exact (List.append_nil _).symm
  | cons stmt rest ih =>
    obtain ⟨next, log, kept, ends, step⟩ :=
      knownLoop_cons walker switchType nr rest top (.inr ⟨cur, live⟩)
    rw [step, through]
    cases isBreak : stmt.isBreak with
    | true =>
      rw [isBreak] at ends
      rw [if_pos ends, if_pos rfl]
      exact log
    | false =>
      rw [isBreak] at ends
      obtain ⟨cur', live'⟩ := Option.isSome_iff_exists.mp (Option.isNone_eq_false_iff.mp ends)
      rw [ends, if_neg Bool.false_ne_true, if_neg Bool.false_ne_true,
        ih live' (kept.trans top), log, List.append_assoc]
      rfl

/-- On a null path the loop skips to the first statement that `is_case_val` accepts. -/
theorem knownLoop_null (body : List BodyStmt) {nr : Nat} {state : KnownState σ} {saved : σ}
    (null : state.cur = none) (top : state.switchTop = some saved) :
    (walker.knownLoop switchType sval nr body state).walked =
        state.walked ++ enterAt (isCaseVal sval) nr body ∧
      (body.any (isCaseVal sval) = false →
        walker.knownLoop switchType sval nr body state = state) := by
  induction body generalizing nr with
  | nil => exact ⟨(List.append_nil _).symm, fun _ => rfl⟩
  | cons stmt rest ih =>
    cases accepted : isCaseVal sval stmt with
    | true =>
      obtain ⟨next, log, kept, ends, step⟩ :=
        knownLoop_cons walker switchType nr rest top (.inl accepted)
      refine ⟨?_, fun none => ?_⟩
      · rw [step, enterAt, if_pos accepted, through]
        cases isBreak : stmt.isBreak with
        | true =>
          rw [isBreak] at ends
          rw [if_pos ends, if_pos rfl]
          exact log
        | false =>
          rw [isBreak] at ends
          obtain ⟨cur', live'⟩ :=
            Option.isSome_iff_exists.mp (Option.isNone_eq_false_iff.mp ends)
          rw [ends, if_neg Bool.false_ne_true, if_neg Bool.false_ne_true,
            knownLoop_live walker switchType rest live' (kept.trans top), log, List.append_assoc]
          rfl
      · rw [List.any_cons, accepted, Bool.true_or] at none
        cases none
    | false =>
      have step : walker.knownLoop switchType sval nr (stmt :: rest) state =
          walker.knownLoop switchType sval (nr + 1) rest state := by
        rw [Walker.knownLoop]
        simp only [accepted, null, Option.isNone_none, Bool.false_eq_true, if_false, if_true]
      obtain ⟨log, kept⟩ := @ih (nr + 1)
      rw [step, enterAt, accepted, if_neg Bool.false_ne_true, List.any_cons, accepted,
        Bool.false_or]
      exact ⟨log, kept⟩

end Walked

theorem head?_enterAt (test : BodyStmt → Bool) (nr : Nat) (body : List BodyStmt) :
    (enterAt test nr body).head? = (body.findIdx? test).map (nr + ·) := by
  induction body generalizing nr with
  | nil => rfl
  | cons stmt rest ih =>
    rw [enterAt, List.findIdx?_cons]
    cases accepted : test stmt with
    | true =>
      rw [if_pos rfl, if_pos rfl]
      rfl
    | false =>
      rw [if_neg Bool.false_ne_true, if_neg Bool.false_ne_true, ih, Option.map_map]
      refine congrArg (Option.map · _) ?_
      funext k
      exact Nat.add_right_comm nr 1 k

theorem enterAt_congr {one two : BodyStmt → Bool} {body : List BodyStmt}
    (same : body.findIdx? one = body.findIdx? two) (nr : Nat) :
    enterAt one nr body = enterAt two nr body := by
  induction body generalizing nr with
  | nil => rfl
  | cons stmt rest ih =>
    rw [List.findIdx?_cons, List.findIdx?_cons] at same
    rw [enterAt, enterAt]
    cases first : one stmt <;> cases second : two stmt <;>
      simp only [first, second, Bool.false_eq_true, if_false, if_true] at same ⊢
    · refine ih (Option.map_injective ?_ same) (nr + 1)
      intro m n eq
      exact Nat.succ.inj eq
    · cases found : rest.findIdx? one <;> rw [found] at same <;> cases same
    · cases found : rest.findIdx? two <;> rw [found] at same <;> cases same

/-- The statements walked are those that C executes, and without a label for the value the
state is the one from before the switch. -/
def WalksAsExecuted {σ : Type} (walker : Walker σ) (type : Ctype) (sval : Sval)
    (body : List BodyStmt) (before : σ) : Prop :=
  (walker.splitKnownSwitch type sval body (some before)).1 =
      executed type (svalCast type sval).val body ∧
    (target type (svalCast type sval).val (body.map BodyStmt.labels) = none →
      (walker.splitKnownSwitch type sval body (some before)).2 = some before)

theorem target_eq (type : Ctype) (v : Int) (body : List BodyStmt) :
    target type v (body.map BodyStmt.labels) =
      body.findIdx? fun stmt => isTarget type v (body.map BodyStmt.labels) stmt.labels := by
  unfold target
  rw [List.findIdx?_map]
  rfl

section Agree

variable {σ : Type} (walker : Walker σ) {type : Ctype} {sval : Sval} (body : List BodyStmt)
  (before : σ)

def startState (before : σ) : KnownState σ := ⟨none, some before, none, false, []⟩

theorem splitKnownSwitch_walked :
    (walker.splitKnownSwitch type sval body (some before)).1 =
      enterAt (isCaseVal (svalCast type sval)) 0 body := by
  have log : (walker.knownLoop type (svalCast type sval) 0 body (startState before)).walked =
      enterAt (isCaseVal (svalCast type sval)) 0 body :=
    (knownLoop_null walker type body rfl rfl).1
  unfold Walker.splitKnownSwitch
  change (if (walker.knownLoop type (svalCast type sval) 0 body (startState before)).hasDefault then
    walker.knownLoop type (svalCast type sval) 0 body (startState before) else walker.mergeSwitches
      (walker.knownLoop type (svalCast type sval) 0 body (startState before))).walked = _
  cases (walker.knownLoop type (svalCast type sval) 0 body (startState before)).hasDefault with
  | true => exact log
  | false => exact log

theorem splitKnownSwitch_none (none : body.findIdx? (isCaseVal (svalCast type sval)) = none) :
    (walker.splitKnownSwitch type sval body (some before)).2 = some before := by
  have rejected : body.any (isCaseVal (svalCast type sval)) = false := by
    rw [List.any_eq_false]
    intro stmt member
    rw [Bool.not_eq_true]
    exact List.findIdx?_eq_none_iff.mp none stmt member
  have same : walker.knownLoop type (svalCast type sval) 0 body
      ⟨Option.none, some before, Option.none, false, []⟩ = startState before :=
    (knownLoop_null walker type body rfl rfl).2 rejected
  unfold Walker.splitKnownSwitch
  simp only [same]
  rfl

/-- The walk is right exactly when the first statement whose outermost label is `default`
or has the bits of the value is the one to which C jumps. -/
theorem walksAsExecuted_iff :
    WalksAsExecuted walker type sval body before ↔
      body.findIdx? (isCaseVal (svalCast type sval)) =
        target type (svalCast type sval).val (body.map BodyStmt.labels) := by
  unfold WalksAsExecuted executed
  rw [splitKnownSwitch_walked walker body before]
  constructor
  · rintro ⟨same, -⟩
    have heads := congrArg List.head? same
    rw [head?_enterAt, head?_enterAt, ← target_eq] at heads
    refine Option.map_injective ?_ heads
    intro m n eq
    exact Nat.add_left_cancel eq
  · intro same
    refine ⟨enterAt_congr (same.trans (target_eq ..)) 0, fun none => ?_⟩
    exact splitKnownSwitch_none walker body before (same.trans none)

end Agree

def stackedBody : List BodyStmt :=
  [⟨[.caseLabel ⟨intCtype, 2⟩ none, .caseLabel ⟨intCtype, 1⟩ none], true⟩]

def unitWalker : Walker Unit := ⟨fun _ _ => (), fun _ _ => ()⟩

/-- For the value of the inner label nothing is walked. -/
theorem not_walksAsExecuted_stacked :
    (unitWalker.splitKnownSwitch intCtype ⟨intCtype, 1⟩ stackedBody (some ())).1 = [] ∧
      executed intCtype 1 stackedBody = [0] ∧
      ¬ WalksAsExecuted unitWalker intCtype ⟨intCtype, 1⟩ stackedBody () := by
  have walked : (unitWalker.splitKnownSwitch intCtype ⟨intCtype, 1⟩ stackedBody (some ())).1 = [] :=
    rfl
  have runs : executed intCtype 1 stackedBody = [0] := rfl
  refine ⟨walked, runs, ?_⟩
  rintro ⟨same, -⟩
  have impossible : [] = [0] := walked.symm.trans (same.trans runs)
  cases impossible

end SmatchFormal.Flow
