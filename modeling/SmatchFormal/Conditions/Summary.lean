import SmatchFormal.Conditions.Machine

/-!
# What a condition leaves on the stacks

`split_conditions` pops one entry of the stack of saved states and one fake
stree, and writes the two strees on the top of the condition stacks.  `eval`
computes these from the entries that it reads, without the stacks.
-/

namespace SmatchFormal.Conditions

open SmatchFormal.Lib Machine

variable {κ Sm L E : Type} [DecidableEq κ] [DecidableEq Sm]

/-- The strees of the two sides, the current stree, and the states that were set on
both sides. -/
structure Outcome (κ Sm : Type) where
  side : Bool → Stree κ Sm
  cur : Stree κ Sm
  sets : Stree κ Sm

/-- The outcome of `&&` or `||` from those of its operands. -/
def Outcome.logical (client : Client κ Sm L E) (isLogicalAnd : Bool) (pre : Stree κ Sm)
    (one two : Outcome κ Sm) : Outcome κ Sm :=
  let kept := two.side isLogicalAnd ∪ one.side isLogicalAnd
  let joined := filterStree
    (mergeStree client (one.side (!isLogicalAnd) ∪ pre) (two.side (!isLogicalAnd) ∪ two.cur)) pre
  let side := fun side => if side = isLogicalAnd then kept else joined
  { side := side, cur := side true ∪ pre, sets := two.sets ∪ one.sets }

/-- Both strees of one branch of `?:`, after the tests for an implied condition. -/
def pickBranch (impliedTrue impliedFalse : Bool) (orig fake : Stree κ Sm) (side : Bool → Stree κ Sm)
    (wanted : Bool) : Stree κ Sm :=
  if impliedFalse then (if wanted then ∅ else fake ∪ orig)
  else if impliedTrue then (if wanted then fake ∪ orig else ∅)
  else combineStrees orig fake (side wanted)

/-- The effect of `split_conditions`: `saved` and `pre` are the top entries of the stack
of saved states and `fake` is the top of the fake strees. -/
def eval (client : Client κ Sm L E) :
    Cond L E → (cur saved pre fake : Stree κ Sm) → Outcome κ Sm
  | .leaf leaf, cur, saved, _, fake =>
    let set := client.splitLeaf leaf cur ∪ fake
    let first := set ∪ saved
    let on := fun side => if side then client.onTrue leaf first else client.onFalse leaf first
    let both := client.onBoth leaf first
    let second := both ∪ first
    let post := client.postOp leaf second
    { side := fun side => post ∪ (both ∪ (on side ∪ set))
      cur := post ∪ second
      sets := post ∪ (both ∪ set) }
  | .not unop, cur, saved, pre, fake =>
    let inner := eval client unop cur saved pre fake
    { inner with side := fun side => inner.side !side }
  | .logical isLogicalAnd left right, cur, saved, pre, fake =>
    let one := eval client left cur saved pre fake
    let cur := one.side isLogicalAnd ∪ pre
    one.logical client isLogicalAnd pre (eval client right cur cur cur ∅)
  | .comma left right, cur, saved, pre, fake =>
    let set := client.splitExpr left cur
    eval client right (set ∪ cur) saved pre (set ∪ fake)
  | .select conditional condTrue condFalse, cur, saved, _, fake =>
    let one := eval client conditional cur cur saved fake
    let curT := one.side true ∪ saved
    let curF := one.side false ∪ saved
    let two := eval client condTrue curT curT curT ∅
    let three := eval client condFalse curF curF curF ∅
    let second := pickBranch (client.impliedConditionTrue condTrue saved)
      (client.impliedConditionFalse condTrue saved) (one.side true) two.sets two.side
    let third := pickBranch (client.impliedConditionTrue condFalse saved)
      (client.impliedConditionFalse condFalse saved) (one.side false) three.sets three.side
    { side := fun side => mergeStree client (second side) (third side)
      cur := saved
      sets := one.sets }

def Outcome.machine (outcome : Outcome κ Sm) (pre trues falses fakes : List (Stree κ Sm)) :
    Machine κ Sm :=
  ⟨outcome.cur, pre, outcome.side true :: trues, outcome.side false :: falses,
    overwriteTop outcome.sets fakes⟩

section Stacks

variable {cur saved top true_ false_ new : Stree κ Sm}
variable {pres trues falses fakes : List (Stree κ Sm)}

omit [DecidableEq Sm] in
theorem overwriteTop_cons (one two : Stree κ Sm) (stack : List (Stree κ Sm)) :
    overwriteTop one (two :: stack) = (one ∪ two) :: stack :=
  rfl

omit [DecidableEq Sm] in
theorem overwriteTop_overwriteTop (one two : Stree κ Sm) (stack : List (Stree κ Sm)) :
    overwriteTop one (overwriteTop two stack) = overwriteTop (one ∪ two) stack := by
  cases stack with
  | nil => rfl
  | cons top stack => rw [overwriteTop, overwriteTop, overwriteTop, Finmap.union_assoc]

theorem setSm_eq (reachable : cur ≠ ∅) :
    setSm ⟨cur, pres, trues, falses, fakes⟩ new =
      ⟨new ∪ cur, pres, trues, falses, overwriteTop new fakes⟩ :=
  if_neg reachable

theorem setTrueFalse_eq {one two : Stree κ Sm} (reachable : cur ≠ ∅) :
    setTrueFalse ⟨cur, pres, trues, falses, fakes⟩ one two =
      ⟨cur, pres, overwriteTop one trues, overwriteTop two falses, fakes⟩ :=
  if_neg reachable

theorem foldInSetStates_eq (reachable : saved ≠ ∅) :
    foldInSetStates ⟨cur, saved :: pres, trues, falses, new :: fakes⟩ =
      ⟨new ∪ saved, pres, overwriteTop new trues, overwriteTop new falses,
        overwriteTop new fakes⟩ := by
  change setTrueFalse (setSm ⟨saved, pres, trues, falses, fakes⟩ new) new new = _
  rw [setSm_eq reachable, setTrueFalse_eq (Overlay.union_ne_empty new reachable)]

omit [DecidableEq κ] [DecidableEq Sm] in
theorem pushFakeCurStree_eq :
    pushFakeCurStree ⟨cur, pres, trues, falses, fakes⟩ =
      ⟨cur, cur :: pres, trues, falses, ∅ :: fakes⟩ :=
  rfl

/-- States that are set between pushing a fake stree and folding it in. -/
theorem foldInSetStates_setSm (reachable : cur ≠ ∅) :
    foldInSetStates (setSm ⟨cur, cur :: pres, trues, falses, ∅ :: fakes⟩ new) =
      ⟨new ∪ cur, pres, overwriteTop new trues, overwriteTop new falses,
        overwriteTop new fakes⟩ := by
  rw [setSm_eq reachable, overwriteTop_cons, foldInSetStates_eq reachable, Finmap.union_empty]

end Stacks

theorem splitLeaf_eq (client : Client κ Sm L E) (leaf : L) {cur saved pre fake : Stree κ Sm}
    {pres trues falses fakes : List (Stree κ Sm)} (here : cur ≠ ∅) (reachable : saved ≠ ∅) :
    splitLeaf client leaf ⟨cur, saved :: pre :: pres, ∅ :: trues, ∅ :: falses, fake :: fakes⟩ =
      (eval client (.leaf leaf) cur saved pre fake).machine (pre :: pres) trues falses fakes := by
  have first := Overlay.union_ne_empty (client.splitLeaf leaf cur ∪ fake) reachable
  have second := Overlay.union_ne_empty
    (client.onBoth leaf ((client.splitLeaf leaf cur ∪ fake) ∪ saved)) first
  unfold splitLeaf
  simp only [setSm_eq here, overwriteTop_cons, foldInSetStates_eq reachable, pushFakeCurStree_eq,
    setTrueFalse_eq first, foldInSetStates_setSm first, foldInSetStates_setSm second,
    Finmap.union_empty, overwriteTop_overwriteTop]
  rfl

section Logical

variable {pre : Stree κ Sm} {pres trues falses fakes : List (Stree κ Sm)}

omit [DecidableEq Sm] in
theorem enterRight (one : Outcome κ Sm) (side : Bool) :
    savePreCondStates (pushCondStacks (useCondStates (one.machine (pre :: pres) trues falses fakes)
        side)) =
      ⟨one.side side ∪ pre, (one.side side ∪ pre) :: (one.side side ∪ pre) :: pre :: pres,
        ∅ :: one.side true :: trues, ∅ :: one.side false :: falses,
        ∅ :: overwriteTop one.sets fakes⟩ := by
  cases side <;> rfl

theorem leaveRight (client : Client κ Sm L E) (isLogicalAnd : Bool) (one two : Outcome κ Sm)
    (cur : Stree κ Sm) :
    let m := discardPreCondStates (two.machine (cur :: pre :: pres) (one.side true :: trues)
      (one.side false :: falses) (overwriteTop one.sets fakes))
    useCondStates
        (if isLogicalAnd then orStreeStack client (andStreeStack m true) false
          else andStreeStack (orStreeStack client m true) false) true =
      (one.logical client isLogicalAnd pre two).machine (pre :: pres) trues falses fakes := by
  intro m
  have fake : m.fakeCurStreeStack = overwriteTop (two.sets ∪ one.sets) fakes :=
    overwriteTop_overwriteTop two.sets one.sets fakes
  cases isLogicalAnd with
  | false =>
    change (⟨_, _, _, _, m.fakeCurStreeStack⟩ : Machine κ Sm) = _
    rw [fake]
    rfl
  | true =>
    change (⟨_, _, _, _, m.fakeCurStreeStack⟩ : Machine κ Sm) = _
    rw [fake]
    rfl

end Logical

section Select

variable {saved pre : Stree κ Sm} {pres trues falses fakes : List (Stree κ Sm)}

omit [DecidableEq Sm] in
theorem enterBranch (cur : Stree κ Sm) (one : Outcome κ Sm) (side : Bool) :
    pushFakeCurStree (pushCondStacks (useCondStates
        ⟨cur, saved :: pres, one.side true :: trues, one.side false :: falses, fakes⟩ side)) =
      ⟨one.side side ∪ saved, (one.side side ∪ saved) :: (one.side side ∪ saved) :: saved :: pres,
        ∅ :: one.side true :: trues, ∅ :: one.side false :: falses, ∅ :: ∅ :: fakes⟩ := by
  cases side <;> rfl

omit [DecidableEq Sm] in
theorem leaveBranch (cur : Stree κ Sm) (two : Outcome κ Sm) :
    popFakeCurStree (two.machine (cur :: pres) trues falses (∅ :: fakes)) =
      (two.sets, ⟨cur, pres, two.side true :: trues, two.side false :: falses, fakes⟩) := by
  change ((two.sets ∪ ∅ : Stree κ Sm), _) = _
  rw [Finmap.union_empty]
  rfl

omit [DecidableEq Sm] in
theorem pickBranch_true (impliedTrue impliedFalse : Bool) (orig fake : Stree κ Sm)
    (side : Bool → Stree κ Sm) :
    (if impliedFalse = true then ((∅ : Stree κ Sm), fake ∪ orig)
      else
        ((if impliedTrue = true then (fake ∪ orig, (∅ : Stree κ Sm))
            else (combineStrees orig fake (side true), combineStrees orig fake (side false))).1,
          (if impliedTrue = true then (fake ∪ orig, (∅ : Stree κ Sm))
            else (combineStrees orig fake (side true), combineStrees orig fake (side false))).2)).1
          =
      pickBranch impliedTrue impliedFalse orig fake side true := by
  cases impliedTrue <;> cases impliedFalse <;> rfl

omit [DecidableEq Sm] in
theorem pickBranch_false (impliedTrue impliedFalse : Bool) (orig fake : Stree κ Sm)
    (side : Bool → Stree κ Sm) :
    (if impliedFalse = true then ((∅ : Stree κ Sm), fake ∪ orig)
      else
        ((if impliedTrue = true then (fake ∪ orig, (∅ : Stree κ Sm))
            else (combineStrees orig fake (side true), combineStrees orig fake (side false))).1,
          (if impliedTrue = true then (fake ∪ orig, (∅ : Stree κ Sm))
            else (combineStrees orig fake (side true), combineStrees orig fake (side false))).2)).2
          =
      pickBranch impliedTrue impliedFalse orig fake side false := by
  cases impliedTrue <;> cases impliedFalse <;> rfl

theorem leaveSelect (true_ false_ : Stree κ Sm) (reachable : saved ≠ ∅) :
    (popFakeCurStree (setTrueFalse
        (pushCondStacks ⟨saved, pres, trues, falses, fakes⟩) true_ false_)).2 =
      ⟨saved, pres, true_ :: trues, false_ :: falses, fakes⟩ := by
  change (popFakeCurStree (setTrueFalse
    ⟨saved, saved :: pres, ∅ :: trues, ∅ :: falses, ∅ :: fakes⟩ true_ false_)).2 = _
  rw [setTrueFalse_eq reachable, overwriteTop_cons, overwriteTop_cons, Finmap.union_empty,
    Finmap.union_empty]
  rfl

end Select

theorem splitConditions_eq (client : Client κ Sm L E) (expr : Cond L E)
    {cur saved pre fake : Stree κ Sm} {pres trues falses fakes : List (Stree κ Sm)}
    (here : cur ≠ ∅) (reachable : saved ≠ ∅) (before : pre ≠ ∅) :
    splitConditions client expr
        ⟨cur, saved :: pre :: pres, ∅ :: trues, ∅ :: falses, fake :: fakes⟩ =
      (eval client expr cur saved pre fake).machine (pre :: pres) trues falses fakes := by
  induction expr generalizing cur saved pre fake pres trues falses fakes with
  | leaf leaf => exact splitLeaf_eq client leaf here reachable
  | not unop ih =>
    rw [splitConditions, ih here reachable before]
    rfl
  | logical isLogicalAnd left right one two =>
    have inner : (eval client left cur saved pre fake).side isLogicalAnd ∪ pre ≠ ∅ :=
      Overlay.union_ne_empty _ before
    rw [splitConditions, one here reachable before, enterRight, two inner inner inner]
    exact leaveRight client isLogicalAnd (eval client left cur saved pre fake)
      (eval client right _ _ _ ∅) _
  | comma left right ih =>
    rw [splitConditions, setSm_eq here]
    exact ih (Overlay.union_ne_empty _ here) reachable before
  | select conditional condTrue condFalse one two three =>
    set first := eval client conditional cur cur saved fake
    have start : splitConditions client conditional (savePreCondStates
        ⟨cur, saved :: pre :: pres, ∅ :: trues, ∅ :: falses, fake :: fakes⟩) =
        ⟨first.cur, saved :: pre :: pres, first.side true :: trues, first.side false :: falses,
          overwriteTop first.sets fakes⟩ :=
      one here here reachable
    have innerT : first.side true ∪ saved ≠ ∅ := Overlay.union_ne_empty _ reachable
    have innerF : first.side false ∪ saved ≠ ∅ := Overlay.union_ne_empty _ reachable
    rw [splitConditions, start]
    simp only [enterBranch, two innerT innerT innerT, leaveBranch, popStree, List.headD_cons,
      List.tail_cons, three innerF innerF innerF, usePreCondStates, leaveSelect _ _ reachable]
    simp only [pickBranch_true, pickBranch_false]
    rfl

theorem splitWholeCondition_eq (client : Client κ Sm L E) (expr : Cond L E) (m : Machine κ Sm)
    (reachable : m.curStree ≠ ∅) :
    let outcome := eval client expr m.curStree m.curStree m.curStree ∅
    splitWholeCondition client expr m =
      (outcome.side true ∪ m.curStree, outcome.side false ∪ m.curStree) := by
  have split := @splitConditions_eq κ Sm L E _ _ client expr m.curStree m.curStree m.curStree ∅
    m.preCondStack m.condTrueStack m.condFalseStack m.fakeCurStreeStack reachable reachable
      reachable
  have start : pushCondStacks (savePreCondStates m) =
      ⟨m.curStree, m.curStree :: m.curStree :: m.preCondStack, ∅ :: m.condTrueStack,
        ∅ :: m.condFalseStack, ∅ :: m.fakeCurStreeStack⟩ := rfl
  intro outcome
  unfold splitWholeCondition
  rw [start, split]
  rfl

end SmatchFormal.Conditions
