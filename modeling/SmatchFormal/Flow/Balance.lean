import SmatchFormal.Flow.Walk

/-!
# The depths of the stacks

Every operation changes the depths of the stacks by a fixed amount, whatever the
strees are.  A condition takes the entry that `__push_cond_stacks` made for it,
and a statement leaves all stacks as deep as they were.
-/

namespace SmatchFormal.Walk

open SmatchFormal.Conditions (Cond)
open SmatchFormal.Lib

/-! ## Depths -/

structure Depths where
  stack : Stack → Nat
  remainingCases : Nat

namespace Depths

def push (d : Depths) (id : Stack) : Depths :=
  ⟨fun other => if other = id then d.stack other + 1 else d.stack other, d.remainingCases⟩

def pop (d : Depths) (id : Stack) : Depths :=
  ⟨fun other => if other = id then d.stack other - 1 else d.stack other, d.remainingCases⟩

def pushRl (d : Depths) : Depths := ⟨d.stack, d.remainingCases + 1⟩

def popRl (d : Depths) : Depths := ⟨d.stack, d.remainingCases - 1⟩

theorem ext_stack {one two : Depths} (entries : ∀ id, one.stack id = two.stack id)
    (remaining : one.remainingCases = two.remainingCases) : one = two := by
  obtain ⟨first, second⟩ := one
  obtain rfl : first = two.stack := funext entries
  obtain rfl : second = two.remainingCases := remaining
  rfl

theorem push_pop {d : Depths} {id : Stack} (filled : 0 < d.stack id) : (d.pop id).push id = d := by
  refine ext_stack ?_ rfl
  intro other
  unfold push pop
  by_cases same : other = id
  · subst same
    simp only [if_true]
    omega
  · simp only [if_neg same]

theorem pop_push (d : Depths) (id : Stack) : (d.push id).pop id = d := by
  refine ext_stack ?_ rfl
  intro other
  unfold push pop
  by_cases same : other = id
  · simp only [if_pos same, Nat.add_sub_cancel]
  · simp only [if_neg same]

theorem push_stack (d : Depths) (id other : Stack) :
    (d.push id).stack other = if other = id then d.stack other + 1 else d.stack other :=
  rfl

theorem pop_stack (d : Depths) (id other : Stack) :
    (d.pop id).stack other = if other = id then d.stack other - 1 else d.stack other :=
  rfl

def pushFake (d : Depths) : Depths := (d.push .fakeCur).push .preCond

def popFake (d : Depths) : Depths := (d.pop .preCond).pop .fakeCur

theorem popFake_pushFake (d : Depths) : d.pushFake.popFake = d := by
  unfold pushFake popFake
  rw [pop_push, pop_push]

def pushSides (d : Depths) : Depths := (d.push .condTrue).push .condFalse

theorem pushSides_pop (d : Depths) : (d.pushSides.pop .condTrue).pop .condFalse = d := by
  refine ext_stack ?_ rfl
  intro id
  cases id <;> rfl

/-- Below the fake stree there may be one more entry of saved states. -/
theorem popFake_saved (d : Depths) : (d.pushFake.push .preCond).popFake = d.push .preCond := by
  refine ext_stack ?_ rfl
  intro id
  cases id <;> rfl

theorem popFake_push (d : Depths) : (d.push .preCond).popFake = d.pop .fakeCur := by
  refine ext_stack ?_ rfl
  intro id
  cases id <;> rfl

end Depths

variable {S R W N E α : Type}

def State.depths (m : State S R W N E) : Depths :=
  ⟨fun id => (m.stack id).length, m.remainingCases.length⟩

abbrev Moves (run : Walker S R W N E α) (before after : Depths) : Prop :=
  Steps State.depths run before after

section Operations

variable {d after : Depths} {id : Stack}

theorem update_depths (m : State S R W N E) (list : List (Option S)) :
    ({ m with stack := Function.update m.stack id list } : State S R W N E).depths =
      ⟨fun other => if other = id then list.length else (m.stack other).length,
        m.remainingCases.length⟩ := by
  refine Depths.ext_stack ?_ rfl
  intro other
  change (Function.update m.stack id list other).length = _
  by_cases same : other = id
  · subst same
    rw [Function.update_self]
    exact (if_pos rfl).symm
  · rw [Function.update_of_ne same]
    exact (if_neg same).symm

theorem pushStree_moves (stree : Option S) :
    Moves (pushStree id stree : Walker S R W N E Unit) d (d.push id) := by
  refine Steps.update ?_
  rintro m rfl
  rw [update_depths]
  refine Depths.ext_stack ?_ rfl
  intro other
  change (if other = id then _ else _) = if other = id then _ else _
  by_cases same : other = id
  · subst same
    rfl
  · simp only [if_neg same]
    rfl

theorem popStree_moves (filled : 0 < d.stack id) :
    Moves (popStree id : Walker S R W N E (Option S)) d (d.pop id) := by
  rintro m rfl
  change 0 < (m.stack id).length at filled
  unfold popStree
  cases entries : m.stack id with
  | nil =>
    rw [entries] at filled
    exact absurd filled (Nat.lt_irrefl 0)
  | cons top rest =>
    refine ⟨top, _, rfl, ?_⟩
    rw [update_depths]
    refine Depths.ext_stack ?_ rfl
    intro other
    change (if other = id then _ else _) = if other = id then (m.stack other).length - 1 else _
    by_cases same : other = id
    · subst same
      rw [if_pos rfl, if_pos rfl, entries]
      rfl
    · rw [if_neg same, if_neg same]
      rfl

theorem pushRl_moves (rl : R) : Moves (pushRl rl : Walker S R W N E Unit) d d.pushRl := by
  refine Steps.update ?_
  rintro m rfl
  rfl

theorem popRl_moves (filled : 0 < d.remainingCases) :
    Moves (popRl : Walker S R W N E R) d d.popRl := by
  rintro m rfl
  change 0 < m.remainingCases.length at filled
  unfold popRl
  cases entries : m.remainingCases with
  | nil =>
    rw [entries] at filled
    exact absurd filled (Nat.lt_irrefl 0)
  | cons top rest =>
    refine ⟨top, _, rfl, ?_⟩
    refine Depths.ext_stack (fun _ => rfl) ?_
    change rest.length = m.remainingCases.length - 1
    rw [entries]
    rfl

theorem getCurStree_moves : Moves (getCurStree : Walker S R W N E (Option S)) d d :=
  Steps.bind Steps.get fun _ => Steps.pure _

theorem setCurStree_moves (stree : Option S) :
    Moves (setCurStree stree : Walker S R W N E Unit) d d :=
  Steps.update fun _ start => start

theorem ifStacked_moves {run : Walker S R W N E Unit} (empty : d.stack id = 0 → d = after)
    (filled : 0 < d.stack id → Moves run d after) : Moves (ifStacked id run) d after := by
  refine Steps.get_bind ?_
  rintro m rfl
  refine Steps.ite ?_ ?_
  · intro none
    exact Steps.congr (Steps.pure ()) (empty (by simp [State.depths, none]))
  · intro some
    exact filled (List.length_pos_of_ne_nil some)

theorem ifPathIsNull_moves {run other : Walker S R W N E Unit} (null : Moves run d after)
    (reachable : Moves other d after) : Moves (ifPathIsNull run other) d after := by
  refine Steps.get_bind ?_
  rintro m rfl
  exact Steps.ite (fun _ => null) (fun _ => reachable)

theorem swap_moves {new : Option S → Option S} (filled : 0 < d.stack id) :
    Moves (do let stree ← popStree id; pushStree id (new stree) : Walker S R W N E Unit) d d :=
  Steps.bind (popStree_moves filled) fun stree =>
    Steps.congr (pushStree_moves (new stree)) (Depths.push_pop filled)

/-! ### The fake strees -/

theorem savePreCondStates_moves :
    Moves (savePreCondStates : Walker S R W N E Unit) d (d.push .preCond) :=
  Steps.bind getCurStree_moves fun stree => pushStree_moves stree

theorem discardPreCondStates_moves (filled : 0 < d.stack .preCond) :
    Moves (discardPreCondStates : Walker S R W N E Unit) d (d.pop .preCond) :=
  Steps.bind (popStree_moves filled) fun _ => Steps.pure ()

theorem usePreCondStates_moves (filled : 0 < d.stack .preCond) :
    Moves (usePreCondStates : Walker S R W N E Unit) d (d.pop .preCond) :=
  Steps.bind (popStree_moves filled) fun stree => setCurStree_moves stree

theorem pushFakeCurStree_moves :
    Moves (pushFakeCurStree : Walker S R W N E Unit) d d.pushFake :=
  Steps.bind (pushStree_moves none) fun _ => savePreCondStates_moves

theorem popFakeCurStree_moves (saved : 0 < d.stack .preCond) (fake : 0 < d.stack .fakeCur) :
    Moves (popFakeCurStree : Walker S R W N E (Option S)) d d.popFake :=
  Steps.bind (usePreCondStates_moves saved) fun _ => popStree_moves fake

def Saved (d : Depths) : Prop := d.stack .fakeCur ≤ d.stack .preCond

theorem nullifyPath_moves (saved : Saved d) : Moves (nullifyPath : Walker S R W N E Unit) d d := by
  refine Steps.bind (ifStacked_moves (fun _ => rfl) ?_) fun _ => setCurStree_moves none
  intro fake
  have entry : 0 < d.stack .preCond := Nat.lt_of_lt_of_le fake saved
  refine Steps.bind (popFakeCurStree_moves entry fake) fun _ =>
    Steps.congr pushFakeCurStree_moves ?_
  unfold Depths.pushFake Depths.popFake
  rw [Depths.push_pop (show 0 < (d.pop .preCond).stack .fakeCur from fake), Depths.push_pop entry]

end Operations

section Clients

variable (client : Client S R W N E) {d : Depths} {id : Stack}

theorem overwriteTop_moves (new : Option S) (filled : 0 < d.stack id) :
    Moves (overwriteTop client id new) d d := by
  cases new with
  | none => exact Steps.pure ()
  | some new => exact swap_moves filled

theorem setSm_moves (new : Option S) : Moves (setSm client new) d d := by
  refine ifPathIsNull_moves (Steps.pure ()) ?_
  refine Steps.bind (ifStacked_moves (fun _ => rfl) (overwriteTop_moves client new)) fun _ => ?_
  exact Steps.bind getCurStree_moves fun _ => setCurStree_moves _

theorem setTrueFalseSm_moves (trueSm falseSm : Option S) :
    Moves (setTrueFalseSm client trueSm falseSm) d d := by
  refine ifPathIsNull_moves (Steps.pure ()) (ifStacked_moves (fun _ => rfl) ?_)
  intro second
  refine ifStacked_moves (fun _ => rfl) ?_
  intro first
  exact Steps.bind (overwriteTop_moves client trueSm first) fun _ =>
    overwriteTop_moves client falseSm second

theorem unnullifyPath_moves : Moves (unnullifyPath client) d d := by
  refine ifPathIsNull_moves ?_ (Steps.pure ())
  exact Steps.bind (ifStacked_moves (fun _ => rfl) (overwriteTop_moves client _)) fun _ =>
    setCurStree_moves _

theorem act_moves (saved : Saved d) (one : Act S) : Moves (act client one) d d := by
  cases one with
  | setSm new => exact setSm_moves client (some new)
  | setTrueFalseSm trueSm falseSm => exact setTrueFalseSm_moves client (some trueSm) (some falseSm)
  | nullifyPath => exact nullifyPath_moves saved
  | unnullifyPath => exact unnullifyPath_moves client

theorem actAll_moves (saved : Saved d) (acts : List (Act S)) : Moves (actAll client acts) d d := by
  induction acts with
  | nil => exact Steps.pure ()
  | cons first rest ih => exact Steps.bind (act_moves client saved first) fun _ => ih

theorem passToClient_moves (saved : Saved d) (hook : Hook E) :
    Moves (passToClient client hook) d d := by
  refine Steps.bind Steps.get fun m => ?_
  refine Steps.bind (Steps.update fun _ start => start) fun _ => ?_
  exact actAll_moves client saved _

/-! ### The condition stacks -/

theorem foldInSetStates_moves (saved : 0 < d.stack .preCond) (fake : 0 < d.stack .fakeCur) :
    Moves (foldInSetStates client) d d.popFake := by
  refine Steps.bind (popFakeCurStree_moves saved fake) fun newStates => ?_
  exact Steps.bind (setSm_moves client newStates) fun _ =>
    setTrueFalseSm_moves client newStates newStates

theorem pushCondStacks_moves :
    Moves (pushCondStacks : Walker S R W N E Unit) d d.pushSides.pushFake := by
  refine Steps.bind (pushStree_moves none) fun _ => ?_
  exact Steps.bind (pushStree_moves none) fun _ => pushFakeCurStree_moves

theorem copyStates_moves (filled : 0 < d.stack id) :
    Moves (copyStates id : Walker S R W N E (Option S)) d d := by
  refine Steps.bind (popStree_moves filled) fun stree => ?_
  refine Steps.bind (pushStree_moves stree) fun _ => ?_
  exact Steps.congr (Steps.pure _) (Depths.push_pop filled)

theorem useCondStack_moves (saved : 0 < d.stack .preCond) (filled : 0 < d.stack id) :
    Moves (useCondStack client id) d d := by
  refine Steps.bind (popStree_moves saved) fun pre => ?_
  refine Steps.bind (Steps.congr (pushStree_moves pre) (Depths.push_pop saved)) fun _ => ?_
  refine Steps.bind (popStree_moves filled) fun stree => ?_
  refine Steps.bind (setCurStree_moves _) fun _ => ?_
  exact Steps.congr (pushStree_moves stree) (Depths.push_pop filled)

theorem negateCondStacks_moves (first : 0 < d.stack .condTrue) (second : 0 < d.stack .condFalse) :
    Moves (negateCondStacks : Walker S R W N E Unit) d d := by
  refine Steps.bind (popStree_moves second) fun oldFalse => ?_
  refine Steps.bind (popStree_moves first) fun oldTrue => ?_
  refine Steps.bind (pushStree_moves oldTrue) fun _ => ?_
  refine Steps.congr (pushStree_moves oldFalse) (Depths.ext_stack ?_ rfl)
  intro id
  cases id <;> simp [Depths.push, Depths.pop] <;> omega

theorem andStreeStack_moves (filled : 1 < d.stack id) :
    Moves (andStreeStack client id) d (d.pop id) := by
  refine Steps.bind (popStree_moves (by omega)) fun rightStree => ?_
  exact overwriteTop_moves client rightStree (by simp [Depths.pop]; omega)

theorem orStreeStack_moves (other : id ≠ .preCond) (saved : 0 < d.stack .preCond)
    (filled : 1 < d.stack id) : Moves (orStreeStack client id) d (d.pop id) := by
  have second : 0 < (d.pop id).stack id := by
    simp only [Depths.pop, if_true]
    omega
  have kept : 0 < ((d.pop id).pop id).stack .preCond := by
    simpa only [Depths.pop, if_neg (Ne.symm other)] using saved
  refine Steps.bind (popStree_moves (by omega)) fun new => ?_
  refine Steps.bind (popStree_moves second) fun old => ?_
  refine Steps.bind (popStree_moves kept) fun preStree => ?_
  refine Steps.bind (Steps.congr (pushStree_moves preStree) (Depths.push_pop kept)) fun _ => ?_
  refine Steps.bind getCurStree_moves fun _ => ?_
  exact Steps.congr (pushStree_moves _) (Depths.push_pop second)

theorem combineCondStates_moves (isLogicalAnd : Bool) (saved : 0 < d.stack .preCond)
    (first : 1 < d.stack .condTrue) (second : 1 < d.stack .condFalse) :
    Moves (combineCondStates client isLogicalAnd) d ((d.pop .condTrue).pop .condFalse) := by
  cases isLogicalAnd with
  | true =>
    exact Steps.bind (andStreeStack_moves client first) fun _ =>
      orStreeStack_moves client (by decide) saved second
  | false =>
    exact Steps.bind (orStreeStack_moves client (by decide) saved first) fun _ =>
      andStreeStack_moves client second

theorem useCondStates_moves (saved : 0 < d.stack .preCond) (first : 0 < d.stack .condTrue)
    (second : 0 < d.stack .condFalse) :
    Moves (useCondStates client) d
      ((((d.pop .preCond).pop .condTrue).pop .condFalse).push .falses) := by
  refine Steps.bind (popStree_moves saved) fun pre => ?_
  refine Steps.bind (popStree_moves first) fun trueStates => ?_
  refine Steps.bind (setCurStree_moves _) fun _ => ?_
  refine Steps.bind (popStree_moves second) fun falseStates => ?_
  exact pushStree_moves _

end Clients

section Conditions

variable (client : Client S R W N E) {d : Depths}

structure CondReady (d : Depths) : Prop where
  condTrue : 0 < d.stack .condTrue
  condFalse : 0 < d.stack .condFalse
  fake : 0 < d.stack .fakeCur
  saved : d.stack .fakeCur < d.stack .preCond

theorem CondReady.preCond (ready : CondReady d) : 1 < d.stack .preCond := by
  have fake := ready.fake
  have saved := ready.saved
  omega

theorem CondReady.popped (ready : CondReady d) : Saved d.popFake := by
  have saved := ready.saved
  simp [Saved, Depths.popFake, Depths.pop_stack]
  omega

theorem Saved.pushFake (saved : Saved d) : Saved d.pushFake := by
  simpa [Saved, Depths.pushFake, Depths.push_stack] using saved

theorem pushFake_filled (d : Depths) :
    0 < d.pushFake.stack .preCond ∧ 0 < d.pushFake.stack .fakeCur := by
  simp [Depths.pushFake, Depths.push_stack]

/-- The fake stree that was pushed last is folded in. -/
theorem foldInSetStates_pushed : Moves (foldInSetStates client) d.pushFake d := by
  obtain ⟨saved, fake⟩ := pushFake_filled d
  exact Steps.congr (foldInSetStates_moves client saved fake) (Depths.popFake_pushFake d)

/-- The fake stree that was pushed last is popped. -/
theorem popFakeCurStree_pushed :
    Moves (popFakeCurStree : Walker S R W N E (Option S)) d.pushFake d := by
  obtain ⟨saved, fake⟩ := pushFake_filled d
  exact Steps.congr (popFakeCurStree_moves saved fake) (Depths.popFake_pushFake d)

theorem splitLeaf_moves (ready : CondReady d) (expr : E) :
    Moves (splitLeaf client expr) d d.popFake := by
  have preCond := ready.preCond
  have saved := ready.popped
  refine Steps.bind (passToClient_moves client (Nat.le_of_lt ready.saved) _) fun _ => ?_
  refine Steps.bind (foldInSetStates_moves client (by omega) ready.fake) fun _ => ?_
  refine Steps.bind pushFakeCurStree_moves fun _ => ?_
  refine Steps.bind (passToClient_moves client saved.pushFake _) fun _ => ?_
  refine Steps.bind (foldInSetStates_pushed client) fun _ => ?_
  refine Steps.bind (passToClient_moves client saved _) fun _ => ?_
  refine Steps.bind Steps.get fun m => ?_
  refine Steps.bind pushFakeCurStree_moves fun _ => ?_
  refine Steps.bind (passToClient_moves client saved.pushFake _) fun _ => ?_
  exact Steps.bind (foldInSetStates_pushed client) fun _ => Steps.pure _

/-- `split_conditions` takes one saved stree and one fake stree. -/
theorem splitConditions_moves (expr : Cond E E) (ready : CondReady d) :
    Moves (splitConditions client expr) d d.popFake := by
  induction expr generalizing d with
  | leaf expr => exact splitLeaf_moves client ready expr
  | not unop ih =>
    refine Steps.bind (ih ready) fun knownTf => ?_
    exact Steps.bind (negateCondStacks_moves ready.condTrue ready.condFalse) fun _ => Steps.pure _
  | comma left right ih =>
    refine Steps.bind (passToClient_moves client (Nat.le_of_lt ready.saved) _) fun _ => ?_
    exact ih ready
  | logical isLogicalAnd left right one two =>
    obtain ⟨condTrue, condFalse, fake, saved⟩ := ready
    have side : 0 < d.popFake.stack (if isLogicalAnd then Stack.condTrue else .condFalse) := by
      cases isLogicalAnd
      · exact condFalse
      · exact condTrue
    have preCond : 0 < d.popFake.stack .preCond := by
      simp [Depths.popFake, Depths.pop_stack]
      omega
    refine Steps.bind (one ⟨condTrue, condFalse, fake, saved⟩) fun leftTf => ?_
    refine Steps.bind (useCondStack_moves client preCond side) fun _ => ?_
    refine Steps.bind pushCondStacks_moves fun _ => ?_
    refine Steps.bind savePreCondStates_moves fun _ => ?_
    refine Steps.bind (Steps.congr (two ?_) (Depths.popFake_saved _)) fun rightTf => ?_
    · refine ⟨Nat.succ_pos _, Nat.succ_pos _, Nat.succ_pos _, ?_⟩
      simp [Depths.pushFake, Depths.pushSides, Depths.popFake, Depths.push_stack,
        Depths.pop_stack]
      omega
    refine Steps.bind (Steps.congr (discardPreCondStates_moves (Nat.succ_pos _))
      (Depths.pop_push _ _)) fun _ => ?_
    refine Steps.bind (Steps.congr (combineCondStates_moves client isLogicalAnd preCond
      (Nat.succ_lt_succ condTrue) (Nat.succ_lt_succ condFalse)) (Depths.pushSides_pop _))
      fun _ => ?_
    exact Steps.bind (useCondStack_moves client preCond condTrue) fun _ => Steps.pure _
  | select conditional trueExpr falseExpr one two three =>
    obtain ⟨condTrue, condFalse, fake, saved⟩ := ready
    have preCond : 0 < d.stack .preCond := Nat.lt_trans fake saved
    have branch : CondReady (d.pop .fakeCur).pushSides.pushFake.pushFake := by
      refine ⟨Nat.succ_pos _, Nat.succ_pos _, Nat.succ_pos _, ?_⟩
      simp [Depths.pushFake, Depths.pushSides, Depths.push_stack, Depths.pop_stack]
      omega
    have opened : Saved (d.pop .fakeCur).pushSides.pushFake := by
      simp [Saved, Depths.pushFake, Depths.pushSides, Depths.push_stack, Depths.pop_stack]
      omega
    refine Steps.bind savePreCondStates_moves fun _ => ?_
    refine Steps.bind (Steps.congr (one ⟨condTrue, condFalse, fake, Nat.lt_succ_of_lt saved⟩)
      (Depths.popFake_push d)) fun condTf => ?_
    refine Steps.bind (copyStates_moves condTrue) fun aT => ?_
    refine Steps.bind (copyStates_moves condFalse) fun aF => ?_
    refine Steps.bind (useCondStack_moves client preCond condTrue) fun _ => ?_
    refine Steps.bind pushCondStacks_moves fun _ => ?_
    refine Steps.bind pushFakeCurStree_moves fun _ => ?_
    refine Steps.bind (Steps.congr (two branch) (Depths.popFake_pushFake _)) fun trueTf => ?_
    refine Steps.bind (passToClient_moves client opened _) fun _ => ?_
    refine Steps.bind popFakeCurStree_pushed fun aTbFake => ?_
    refine Steps.bind (popStree_moves (Nat.succ_pos _)) fun aTbT => ?_
    refine Steps.bind (Steps.congr (popStree_moves (Nat.succ_pos _)) (Depths.pushSides_pop _))
      fun aTbF => ?_
    refine Steps.bind (useCondStack_moves client preCond condFalse) fun _ => ?_
    refine Steps.bind pushCondStacks_moves fun _ => ?_
    refine Steps.bind pushFakeCurStree_moves fun _ => ?_
    refine Steps.bind (Steps.congr (three branch) (Depths.popFake_pushFake _)) fun falseTf => ?_
    refine Steps.bind popFakeCurStree_pushed fun aFcFake => ?_
    refine Steps.bind (popStree_moves (Nat.succ_pos _)) fun aFcT => ?_
    refine Steps.bind (Steps.congr (popStree_moves (Nat.succ_pos _)) (Depths.pushSides_pop _))
      fun aFcF => ?_
    refine Steps.bind (usePreCondStates_moves preCond) fun _ => ?_
    refine Steps.bind Steps.get fun m => ?_
    refine Steps.bind (popStree_moves condTrue) fun _ => ?_
    refine Steps.bind (popStree_moves condFalse) fun _ => ?_
    refine Steps.bind pushCondStacks_moves fun _ => ?_
    refine Steps.bind (setTrueFalseSm_moves client _ _) fun _ => ?_
    refine Steps.bind (Steps.bind popFakeCurStree_pushed fun _ => Steps.pure ()) fun _ => ?_
    refine Steps.congr (Steps.pure _) (Depths.ext_stack ?_ rfl)
    intro id
    cases id <;> simp [Depths.pushSides, Depths.popFake, Depths.push_stack, Depths.pop_stack] <;>
      omega

/-- A whole condition leaves one more entry of false states. -/
theorem splitWholeCondition_moves (saved : Saved d) (expr : Option (Cond E E)) :
    Moves (splitWholeCondition client expr) d (d.push .falses) := by
  refine Steps.bind savePreCondStates_moves fun _ => ?_
  refine Steps.bind pushCondStacks_moves fun _ => ?_
  have inner : Moves (splitOptional client expr) (d.push .preCond).pushSides.pushFake
      (d.push .preCond).pushSides := by
    cases expr with
    | none => exact Steps.bind (foldInSetStates_pushed client) fun _ => Steps.pure _
    | some expr =>
      refine Steps.congr (splitConditions_moves client expr ?_) (Depths.popFake_pushFake _)
      refine ⟨Nat.succ_pos _, Nat.succ_pos _, Nat.succ_pos _, ?_⟩
      unfold Saved at saved
      simp [Depths.pushFake, Depths.pushSides, Depths.push_stack]
      omega
  refine Steps.bind inner fun knownTf => ?_
  have used : ((((d.push .preCond).pushSides.pop .preCond).pop .condTrue).pop .condFalse).push
      .falses = d.push .falses := by
    refine Depths.ext_stack ?_ rfl
    intro id
    cases id <;> rfl
  refine Steps.bind (Steps.congr (useCondStates_moves client (Nat.succ_pos _) (Nat.succ_pos _)
    (Nat.succ_pos _)) used) fun _ => ?_
  have kept : Saved (d.push .falses) := saved
  exact Steps.bind (passToClient_moves client kept _) fun _ => Steps.pure _

end Conditions

end SmatchFormal.Walk
