import SmatchFormal.Conditions.Sound
import Mathlib.Data.Finset.BooleanAlgebra

/-!
# Conditions that are not split soundly

There are two stores and one key, and a state is the set of stores it allows.
For this client the effect of a condition is a small computation on sets, and each
condition that is not plain has leaves for which one of its strees misses a store.
-/

namespace SmatchFormal.Conditions

open SmatchFormal.Lib

/-! ## The client -/

abbrev Allowed := Finset Bool

/-- A leaf that tests the store and sets a state on some of its sides. -/
structure Probe where
  test : Bool → Bool
  set : Bool → Option Allowed
  sound : ∀ store allowed, set (test store) = some allowed → store ∈ allowed

def streeOf : Option Allowed → Stree Unit Allowed
  | none => ∅
  | some allowed => Finmap.singleton () allowed

def probeClient : Client Unit Allowed Probe Unit where
  splitLeaf := fun _ _ => ∅
  onTrue := fun leaf _ => streeOf (leaf.set true)
  onFalse := fun leaf _ => streeOf (leaf.set false)
  onBoth := fun _ _ => ∅
  postOp := fun _ _ => ∅
  splitExpr := fun _ _ => ∅
  unmatchedState := fun _ _ _ => ∅
  preMerge := fun _ _ => ∅
  mergeSmStates := fun _ a b => a ∪ b
  impliedConditionTrue := fun _ _ => false
  impliedConditionFalse := fun _ _ => false

def probeSemantics : Semantics Unit Allowed Probe Unit Bool where
  covers := fun _ state store => ∃ allowed, state = some allowed ∧ store ∈ allowed
  test := fun leaf before result after => leaf.test before = result ∧ after = before
  run := fun _ before after => after = before

theorem lookup_streeOf (state : Option Allowed) : (streeOf state).lookup () = state := by
  cases state with
  | none => exact Finmap.lookup_empty ()
  | some allowed => exact Finmap.lookup_singleton_eq

theorem streeOf_lookup (stree : Stree Unit Allowed) : streeOf (stree.lookup ()) = stree := by
  apply Finmap.ext_lookup
  intro k
  exact lookup_streeOf _

theorem streeOf_union (one two : Option Allowed) :
    streeOf one ∪ streeOf two = streeOf (one.or two) := by
  rw [← streeOf_lookup (streeOf one ∪ streeOf two), Overlay.lookup_union, lookup_streeOf,
    lookup_streeOf]

theorem streeOf_some_ne_empty (allowed : Allowed) : streeOf (some allowed) ≠ ∅ := by
  intro empty
  have here := lookup_streeOf (some allowed)
  rw [empty, Finmap.lookup_empty] at here
  cases here

theorem matchStates_streeOf (a : Allowed) (two : Stree Unit Allowed) :
    matchStates probeClient (streeOf (some a)) two = streeOf (some a) := by
  rw [← streeOf_lookup (matchStates _ _ _), lookup_matchStates, lookup_streeOf]
  rfl

theorem mergeStree_streeOf_some {a b : Allowed} (different : a ≠ b) :
    mergeStree probeClient (streeOf (some a)) (streeOf (some b)) = streeOf (some (a ∪ b)) := by
  have strees : streeOf (some a) ≠ streeOf (some b) := by
    intro same
    have here := lookup_streeOf (some a)
    rw [same, lookup_streeOf] at here
    cases here
    exact different rfl
  have hook : ∀ one two : Stree Unit Allowed, probeClient.preMerge one two = ∅ := fun _ _ => rfl
  unfold mergeStree
  rw [if_neg (streeOf_some_ne_empty b), if_neg strees, if_neg (streeOf_some_ne_empty a),
    matchStates_streeOf, matchStates_streeOf]
  simp only [hook, Finmap.empty_union]
  rw [← streeOf_lookup (Overlay.tabulate _ _), Overlay.lookup_tabulate_of_none]
  · rw [lookup_streeOf, lookup_streeOf]
    exact congrArg streeOf (if_neg different)
  · intro absent
    rw [Overlay.lookup_of_not_mem_keys absent]

/-- Merging takes the union of the stores, and drops a null stree. -/
theorem mergeStree_streeOf (one two : Option Allowed) :
    mergeStree probeClient (streeOf one) (streeOf two) =
      streeOf (Option.merge (· ∪ ·) one two) := by
  cases two with
  | none =>
    cases one <;> exact if_pos rfl
  | some b =>
    have filled := streeOf_some_ne_empty b
    cases one with
    | none =>
      have other : streeOf none ≠ streeOf (some b) := filled.symm
      unfold mergeStree
      rw [if_neg filled, if_neg other]
      exact if_pos rfl
    | some a =>
      by_cases same : a = b
      · subst same
        unfold mergeStree
        rw [if_neg filled, if_pos rfl]
        change streeOf (some a) = streeOf (some (a ∪ a))
        rw [Finset.union_self]
      · exact mergeStree_streeOf_some same

theorem filterStree_streeOf (one two : Option Allowed) :
    filterStree (streeOf one) (streeOf two) = streeOf (if one = two then none else one) := by
  unfold filterStree
  rw [← streeOf_lookup (Overlay.tabulate _ _), Overlay.lookup_tabulate_of_none]
  · rw [lookup_streeOf, lookup_streeOf]
  · intro absent
    rw [Overlay.lookup_of_not_mem_keys absent, ite_self]

theorem probe_sound : ClientSound probeClient probeSemantics where
  leaf := by
    rintro leaf cur before result after - covers ⟨tested, rfl⟩ k
    have shown : leafStates probeClient leaf cur result = streeOf (leaf.set result) ∪ cur := by
      cases result <;> simp only [leafStates, probeClient, Finmap.empty_union] <;> rfl
    rw [shown, Overlay.lookup_union, lookup_streeOf]
    cases found : leaf.set result with
    | none => exact covers k
    | some allowed =>
      rw [← tested] at found
      exact ⟨allowed, rfl, leaf.sound after allowed found⟩
  comma := by
    rintro left cur before after - covers rfl
    change Covers probeSemantics (∅ ∪ cur) after
    rw [Finmap.empty_union]
    exact covers
  unmatched := by
    rintro stree k sm store ⟨allowed, impossible, -⟩
    cases impossible
  preMerge := by
    intro one two store covers
    change Covers probeSemantics (∅ ∪ one) store
    rw [Finmap.empty_union]
    exact covers
  preMergeKeys := fun one two k member => absurd member Finmap.notMem_empty
  merge := by
    rintro k a b store (⟨allowed, same, member⟩ | ⟨allowed, same, member⟩)
    · cases same
      exact ⟨_, rfl, Finset.mem_union_left b member⟩
    · cases same
      exact ⟨_, rfl, Finset.mem_union_right a member⟩
  impliedTrue := nofun
  impliedFalse := nofun

/-! ## The effect of a condition -/

structure View where
  side : Bool → Option Allowed
  cur : Allowed

/-- The effect of `&&` or `||` from those of its operands. -/
def View.logical (isLogicalAnd : Bool) (cur : Allowed) (one two : View) : View :=
  let merged := (one.side !isLogicalAnd).getD cur ∪ (two.side !isLogicalAnd).getD two.cur
  let side := fun side =>
    if side = isLogicalAnd then (two.side isLogicalAnd).or (one.side isLogicalAnd)
    else if merged = cur then none else some merged
  ⟨side, (side true).getD cur⟩

/-- The effect of a condition, on the one key, when its state before is known. -/
def view : Cond Probe Unit → Allowed → View
  | .leaf leaf, cur => ⟨leaf.set, cur⟩
  | .not unop, cur => ⟨fun side => (view unop cur).side !side, (view unop cur).cur⟩
  | .logical isLogicalAnd left right, cur =>
    let one := view left cur
    View.logical isLogicalAnd cur one (view right ((one.side isLogicalAnd).getD cur))
  | .comma _ right, cur => view right cur
  | .select conditional condTrue condFalse, cur =>
    let one := view conditional cur
    let two := view condTrue ((one.side true).getD cur)
    let three := view condFalse ((one.side false).getD cur)
    ⟨fun side => Option.merge (· ∪ ·) ((two.side side).or (one.side true))
      ((three.side side).or (one.side false)), cur⟩

def View.outcome (v : View) : Outcome Unit Allowed :=
  ⟨fun side => streeOf (v.side side), streeOf (some v.cur), ∅⟩

theorem streeOf_union_some (state : Option Allowed) (cur : Allowed) :
    streeOf state ∪ streeOf (some cur) = streeOf (some (state.getD cur)) := by
  rw [streeOf_union]
  cases state <;> rfl

theorem logical_outcome (isLogicalAnd : Bool) (cur : Allowed) (one two : View) :
    one.outcome.logical probeClient isLogicalAnd (streeOf (some cur)) two.outcome =
      (View.logical isLogicalAnd cur one two).outcome := by
  have joined : filterStree (mergeStree probeClient
        (streeOf (one.side !isLogicalAnd) ∪ streeOf (some cur))
        (streeOf (two.side !isLogicalAnd) ∪ streeOf (some two.cur))) (streeOf (some cur)) =
      streeOf (if (one.side !isLogicalAnd).getD cur ∪ (two.side !isLogicalAnd).getD two.cur = cur
        then none
        else some ((one.side !isLogicalAnd).getD cur ∪ (two.side !isLogicalAnd).getD two.cur)) := by
    rw [streeOf_union_some, streeOf_union_some, mergeStree_streeOf, filterStree_streeOf]
    simp only [Option.merge_some_some, Option.some.injEq]
  have side : ∀ side, (one.outcome.logical probeClient isLogicalAnd (streeOf (some cur))
      two.outcome).side side = (View.logical isLogicalAnd cur one two).outcome.side side := by
    intro side
    simp only [Outcome.logical, View.logical, View.outcome, joined]
    split_ifs <;> first | rfl | exact streeOf_union _ _
  refine (Outcome.mk.injEq ..).mpr ⟨funext side, ?_, Finmap.empty_union⟩
  change (one.outcome.logical probeClient isLogicalAnd (streeOf (some cur)) two.outcome).side true ∪
    streeOf (some cur) = _
  rw [side true]
  exact streeOf_union_some _ _

/-- A branch of `?:`, when nothing is implied. -/
theorem pickBranch_outcome (one two : View) (side wanted : Bool) :
    pickBranch false false (one.outcome.side side) two.outcome.sets two.outcome.side wanted =
      streeOf ((two.side wanted).or (one.side side)) := by
  change streeOf (two.side wanted) ∪ (∅ ∪ streeOf (one.side side)) = _
  rw [Finmap.empty_union, streeOf_union]

theorem eval_view (expr : Cond Probe Unit) (cur : Allowed) :
    eval probeClient expr (streeOf (some cur)) (streeOf (some cur)) (streeOf (some cur)) ∅ =
      (view expr cur).outcome := by
  induction expr generalizing cur with
  | leaf leaf =>
    have on : ∀ side : Bool, (if side = true then streeOf (leaf.set true)
        else streeOf (leaf.set false)) = streeOf (leaf.set side) := by
      intro side
      cases side <;> rfl
    simp only [eval, probeClient, Finmap.empty_union, Finmap.union_empty, on]
    rfl
  | not unop ih =>
    rw [eval, ih]
    rfl
  | logical isLogicalAnd left right one two =>
    have inner : (view left cur).outcome.side isLogicalAnd ∪ streeOf (some cur) =
        streeOf (some (((view left cur).side isLogicalAnd).getD cur)) :=
      streeOf_union_some _ _
    rw [eval, one]
    simp only [inner, two, logical_outcome]
    rfl
  | comma left right ih =>
    change eval probeClient right (∅ ∪ streeOf (some cur)) _ _ (∅ ∪ ∅) = (view right cur).outcome
    rw [Finmap.empty_union, Finmap.empty_union]
    exact ih cur
  | select conditional condTrue condFalse one two three =>
    have inner : ∀ side, (view conditional cur).outcome.side side ∪ streeOf (some cur) =
        streeOf (some (((view conditional cur).side side).getD cur)) :=
      fun side => streeOf_union_some _ _
    rw [eval, one]
    simp only [inner, two, three]
    refine (Outcome.mk.injEq ..).mpr ⟨funext fun wanted => ?_, rfl, rfl⟩
    have impliedTrue : ∀ expr cur, probeClient.impliedConditionTrue expr cur = false :=
      fun _ _ => rfl
    have impliedFalse : ∀ expr cur, probeClient.impliedConditionFalse expr cur = false :=
      fun _ _ => rfl
    simp only [impliedTrue, impliedFalse, pickBranch_outcome, mergeStree_streeOf]
    rfl

def holds : Cond Probe Unit → Bool → Bool
  | .leaf leaf, store => leaf.test store
  | .not unop, store => !holds unop store
  | .logical isLogicalAnd left right, store =>
    if holds left store = isLogicalAnd then holds right store else !isLogicalAnd
  | .comma _ right, store => holds right store
  | .select conditional condTrue condFalse, store =>
    if holds conditional store then holds condTrue store else holds condFalse store

theorem exec_holds (expr : Cond Probe Unit) (store : Bool) :
    Exec probeSemantics expr store (holds expr store) store := by
  induction expr with
  | leaf leaf => exact .leaf ⟨rfl, rfl⟩
  | not unop ih => exact .not ih
  | logical isLogicalAnd left right one two =>
    unfold holds
    split_ifs with goesOn
    · rw [goesOn] at one
      exact .long one two
    · rw [Bool.eq_not_of_ne goesOn] at one
      exact .short one
  | comma left right ih => exact .comma rfl ih
  | select conditional condTrue condFalse one two three =>
    unfold holds
    split_ifs with choice
    · rw [choice] at one
      exact .select one two
    · rw [Bool.eq_false_of_not_eq_true choice] at one
      exact .select one three

/-- What a condition leaves in `cur_stree`, for this client. -/
theorem view_cur (expr : Cond Probe Unit) (cur : Allowed) :
    (view expr cur).cur =
      (expr.curSide.elim cur fun side => ((view expr cur).side side).getD cur) := by
  induction expr generalizing cur with
  | leaf leaf => rfl
  | not unop ih =>
    rw [Cond.curSide, view]
    simp only
    rw [ih]
    cases unop.curSide with
    | none => rfl
    | some side =>
      change _ = ((view unop cur).side (!!side)).getD cur
      rw [Bool.not_not]
      rfl
  | logical isLogicalAnd left right => rfl
  | comma left right ih => exact ih cur
  | select => rfl

section Logical

variable {isLogicalAnd : Bool} {cur : Allowed} {one two : View}

theorem logical_same :
    (View.logical isLogicalAnd cur one two).side isLogicalAnd =
      (two.side isLogicalAnd).or (one.side isLogicalAnd) :=
  if_pos rfl

theorem logical_other :
    (View.logical isLogicalAnd cur one two).side (!isLogicalAnd) =
      let merged := (one.side !isLogicalAnd).getD cur ∪ (two.side !isLogicalAnd).getD two.cur
      if merged = cur then none else some merged :=
  if_neg (by cases isLogicalAnd <;> nofun)

/-- Of one logical operator, a result is the kept or the joined one. -/
theorem logical_ends (isLogicalAnd result : Bool) :
    result = isLogicalAnd ∨ result = !isLogicalAnd := by
  cases isLogicalAnd <;> cases result <;> first | exact .inl rfl | exact .inr rfl

theorem holds_short {left right : Cond Probe Unit} {store : Bool}
    (first : holds left store = !isLogicalAnd) :
    holds (.logical isLogicalAnd left right) store = !isLogicalAnd := by
  rw [holds, first, if_neg (by cases isLogicalAnd <;> nofun)]

theorem holds_long {left right : Cond Probe Unit} {store : Bool}
    (first : holds left store = isLogicalAnd) :
    holds (.logical isLogicalAnd left right) store = holds right store := by
  rw [holds, first, if_pos rfl]

end Logical

/-! ## Leaves for a given shape -/

structure Constant (result : Bool) (expr : Cond Probe Unit) : Prop where
  view : ∀ cur, view expr cur = ⟨fun _ => none, cur⟩
  holds : ∀ store, holds expr store = result

/-- Always has the same result and says that the other one is impossible. -/
structure Neutral (result : Bool) (expr : Cond Probe Unit) : Prop where
  other : ∀ cur, cur ≠ ∅ → (view expr cur).side (!result) = some ∅
  same : ∀ cur, cur ≠ ∅ → ((view expr cur).side result).getD cur = cur
  holds : ∀ store, holds expr store = result

/-- Has a result exactly in some stores, and sets their state on that side only. -/
structure Exact (result : Bool) (allowed : Allowed) (expr : Cond Probe Unit) : Prop where
  same : (view expr Finset.univ).side result = some allowed
  other : (view expr Finset.univ).side (!result) = none
  holds : ∀ store, holds expr store = if store ∈ allowed then result else !result

/-- The store `false` has a result that the states of that side do not allow. -/
structure Wrong (result : Bool) (expr : Cond Probe Unit) : Prop where
  missing : ∃ allowed, (view expr Finset.univ).side result = some allowed ∧ false ∉ allowed
  other : ((view expr Finset.univ).side (!result)).getD Finset.univ ≠ ∅
  holds : holds expr false = result

/-- A leaf with one result that sets a state, if any, on the other side only. -/
def constantProbe (result : Bool) (state : Option Allowed) : Probe where
  test := fun _ => result
  set := fun side => if side = result then none else state
  sound := by
    intro store allowed found
    rw [if_pos rfl] at found
    cases found

def exactProbe (result : Bool) (allowed : Allowed) : Probe where
  test := fun store => if store ∈ allowed then result else !result
  set := fun side => if side = result then some allowed else none
  sound := by
    intro store found same
    by_cases member : store ∈ allowed
    · rw [if_pos member, if_pos rfl] at same
      cases same
      exact member
    · rw [if_neg member, if_neg (by cases result <;> nofun)] at same
      cases same

theorem exists_constant (shape : Cond Unit Unit) (result : Bool) :
    ∃ expr : Cond Probe Unit, expr.shape = shape ∧ Constant result expr := by
  induction shape generalizing result with
  | leaf leaf =>
    refine ⟨.leaf (constantProbe result none), rfl, ?_, fun store => rfl⟩
    intro cur
    simp only [Conditions.view, constantProbe, ite_self]
  | not unop ih =>
    obtain ⟨expr, rfl, constant⟩ := ih (!result)
    refine ⟨.not expr, rfl, ?_, ?_⟩
    · intro cur
      rw [view, constant.view]
    · intro store
      rw [holds, constant.holds, Bool.not_not]
  | logical isLogicalAnd left right one two =>
    obtain ⟨left, rfl, first⟩ := one result
    obtain ⟨right, rfl, second⟩ := two result
    refine ⟨.logical isLogicalAnd left right, rfl, ?_, ?_⟩
    · intro cur
      simp only [view, first.view, Option.getD_none, second.view, View.logical, Finset.union_self,
        Option.or_none, if_true, ite_self]
    · intro store
      rcases logical_ends isLogicalAnd result with rfl | rfl
      · rw [holds_long (first.holds store), second.holds]
      · exact holds_short (first.holds store)
  | comma left right ih =>
    obtain ⟨expr, rfl, constant⟩ := ih result
    exact ⟨.comma () expr, rfl, constant.view, constant.holds⟩
  | select conditional condTrue condFalse one two three =>
    obtain ⟨conditional, rfl, first⟩ := one result
    obtain ⟨condTrue, rfl, second⟩ := two result
    obtain ⟨condFalse, rfl, third⟩ := three result
    refine ⟨.select conditional condTrue condFalse, rfl, ?_, ?_⟩
    · intro cur
      simp only [view, first.view, second.view, third.view]
      rfl
    · intro store
      rw [holds, second.holds, third.holds, ite_self]

theorem exists_neutral (shape : Cond Unit Unit) (result : Bool) :
    ∃ expr : Cond Probe Unit, expr.shape = shape ∧ Neutral result expr := by
  induction shape generalizing result with
  | leaf leaf =>
    refine ⟨.leaf (constantProbe result (some ∅)), rfl, ?_, ?_, fun store => rfl⟩
    · intro cur _
      exact if_neg (by cases result <;> nofun)
    · intro cur _
      simp only [view, constantProbe, if_true, Option.getD_none]
  | not unop ih =>
    obtain ⟨expr, rfl, neutral⟩ := ih (!result)
    refine ⟨.not expr, rfl, neutral.other, neutral.same, ?_⟩
    intro store
    rw [holds, neutral.holds, Bool.not_not]
  | logical isLogicalAnd left right one two =>
    rcases logical_ends isLogicalAnd result with rfl | rfl
    · obtain ⟨left, rfl, first⟩ := one result
      obtain ⟨right, rfl, second⟩ := two result
      refine ⟨.logical result left right, rfl, ?_, ?_, ?_⟩
      · intro cur filled
        rw [view, logical_other, first.same cur filled, first.other cur filled,
          second.other cur filled]
        exact if_neg filled.symm
      · intro cur filled
        have here := first.same cur filled
        rw [view, logical_same, here]
        cases found : (view right cur).side result with
        | none => exact here
        | some allowed =>
          have there := second.same cur filled
          rw [found] at there
          exact there
      · intro store
        rw [holds_long (first.holds store), second.holds]
    · -- The right operand is never reached, and is split in the empty state.
      obtain ⟨left, rfl, first⟩ := one (!isLogicalAnd)
      obtain ⟨right, rfl, second⟩ := exists_constant right isLogicalAnd
      refine ⟨.logical isLogicalAnd left right, rfl, ?_, ?_, ?_⟩
      · intro cur filled
        have never := first.other cur filled
        rw [Bool.not_not] at never ⊢
        rw [view, logical_same, never, second.view]
        rfl
      · intro cur filled
        have never := first.other cur filled
        rw [Bool.not_not] at never
        rw [view, logical_other, never, second.view, first.same cur filled]
        simp only [Option.getD_some, Option.getD_none, Finset.union_empty, if_true]
      · intro store
        exact holds_short (first.holds store)
  | comma left right ih =>
    obtain ⟨expr, rfl, neutral⟩ := ih result
    exact ⟨.comma () expr, rfl, neutral.other, neutral.same, neutral.holds⟩
  | select conditional condTrue condFalse one two three =>
    obtain ⟨conditional, rfl, first⟩ := exists_constant conditional true
    obtain ⟨condTrue, rfl, second⟩ := two result
    obtain ⟨condFalse, rfl, third⟩ := exists_constant condFalse result
    refine ⟨.select conditional condTrue condFalse, rfl, ?_, ?_, ?_⟩
    · intro cur filled
      simp only [view, first.view, Option.getD_none, third.view, second.other cur filled]
      rfl
    · intro cur filled
      simp only [view, first.view, Option.getD_none, third.view, Option.or_none,
        Option.merge_none_right, second.same cur filled]
    · intro store
      rw [holds, first.holds, if_pos rfl, second.holds]

theorem exists_exact (shape : Cond Unit Unit) (plain : shape.plain = true) (result : Bool)
    (allowed : Allowed) (proper : allowed ≠ Finset.univ) :
    ∃ expr : Cond Probe Unit, expr.shape = shape ∧ Exact result allowed expr := by
  induction shape generalizing result allowed with
  | leaf leaf =>
    refine ⟨.leaf (exactProbe result allowed), rfl, if_pos rfl, ?_, fun store => rfl⟩
    exact if_neg (by cases result <;> nofun)
  | not unop ih =>
    obtain ⟨expr, rfl, exact_⟩ := ih plain (!result) allowed proper
    refine ⟨.not expr, rfl, exact_.same, exact_.other, ?_⟩
    intro store
    rw [holds, exact_.holds]
    split_ifs
    · exact Bool.not_not result
    · exact Bool.not_not (!result)
  | logical isLogicalAnd left right one two =>
    obtain ⟨plainLeft, plainRight, -⟩ := Cond.plain_logical plain
    rcases logical_ends isLogicalAnd result with rfl | rfl
    · obtain ⟨left, rfl, first⟩ := exists_constant left result
      obtain ⟨right, rfl, second⟩ := two plainRight result allowed proper
      refine ⟨.logical result left right, rfl, ?_, ?_, ?_⟩
      · rw [view, logical_same, first.view, Option.getD_none, second.same]
        rfl
      · rw [view, logical_other, first.view, Option.getD_none, second.other]
        exact if_pos (by rw [Option.getD_none, Finset.union_eq_left]; exact Finset.subset_univ _)
      · intro store
        rw [holds_long (first.holds store), second.holds]
    · obtain ⟨left, rfl, first⟩ := one plainLeft (!isLogicalAnd) allowed proper
      obtain ⟨right, rfl, second⟩ := two plainRight (!isLogicalAnd) ∅ (by decide)
      have unset := first.other
      have unsetRight := second.other
      rw [Bool.not_not] at unset unsetRight
      refine ⟨.logical isLogicalAnd left right, rfl, ?_, ?_, ?_⟩
      · rw [view, logical_other, unset, Option.getD_none, first.same, second.same]
        simp only [Option.getD_some, Finset.union_empty]
        exact if_neg proper
      · rw [Bool.not_not, view, logical_same, unset, Option.getD_none, unsetRight]
        rfl
      · intro store
        have left := first.holds store
        split_ifs at left ⊢ with member
        · exact holds_short left
        · rw [Bool.not_not] at left
          rw [holds_long left, second.holds, if_neg (Finset.notMem_empty store)]
  | comma left right ih =>
    obtain ⟨expr, rfl, exact_⟩ := ih plain result allowed proper
    exact ⟨.comma () expr, rfl, exact_.same, exact_.other, exact_.holds⟩
  | select => cases plain

section WrongLogical

variable {isLogicalAnd : Bool} {left right : Cond Probe Unit}

theorem ne_univ_of_missing {allowed : Allowed} (missing : false ∉ allowed) :
    allowed ≠ Finset.univ := by
  rintro rfl
  exact missing (Finset.mem_univ false)

/-- The joined side is not empty when one of its paths is not. -/
theorem logical_other_ne_empty {one two : View}
    (filled : (one.side !isLogicalAnd).getD Finset.univ ∪
      (two.side !isLogicalAnd).getD two.cur ≠ ∅) :
    ((View.logical isLogicalAnd Finset.univ one two).side !isLogicalAnd).getD Finset.univ ≠ ∅ := by
  rw [logical_other]
  simp only
  split_ifs
  · exact Finset.univ_nonempty.ne_empty
  · exact filled

theorem wrong_left_kept (first : Wrong isLogicalAnd left) (second : Constant isLogicalAnd right) :
    Wrong isLogicalAnd (.logical isLogicalAnd left right) := by
  obtain ⟨allowed, set, missing⟩ := first.missing
  refine ⟨⟨allowed, ?_, missing⟩, ?_, ?_⟩
  · rw [view, logical_same, set, second.view]
    rfl
  · apply logical_other_ne_empty
    intro empty
    exact first.other (Finset.union_eq_empty.mp empty).1
  · rw [holds_long first.holds, second.holds]

theorem wrong_left_joined (first : Wrong (!isLogicalAnd) left)
    (second : Neutral isLogicalAnd right) :
    Wrong (!isLogicalAnd) (.logical isLogicalAnd left right) := by
  obtain ⟨allowed, set, missing⟩ := first.missing
  have filled := first.other
  rw [Bool.not_not] at filled
  refine ⟨⟨allowed, ?_, missing⟩, ?_, holds_short first.holds⟩
  · rw [view, logical_other, set, second.other _ filled]
    simp only [Option.getD_some, Finset.union_empty]
    exact if_neg (ne_univ_of_missing missing)
  · rw [Bool.not_not, view, logical_same]
    have same := second.same _ filled
    cases found : (view right _).side isLogicalAnd with
    | none => exact filled
    | some kept =>
      rw [found] at same
      rw [Option.getD_some] at same
      rw [same]
      exact filled

theorem wrong_right_kept (first : Constant isLogicalAnd left) (second : Wrong isLogicalAnd right) :
    Wrong isLogicalAnd (.logical isLogicalAnd left right) := by
  obtain ⟨allowed, set, missing⟩ := second.missing
  refine ⟨⟨allowed, ?_, missing⟩, ?_, ?_⟩
  · rw [view, first.view, logical_same, Option.getD_none, set]
    rfl
  · apply logical_other_ne_empty
    rw [first.view, Option.getD_none]
    intro empty
    exact Finset.univ_nonempty.ne_empty (Finset.union_eq_empty.mp empty).1
  · rw [holds_long (first.holds false), second.holds]

theorem wrong_right_joined (first : Neutral isLogicalAnd left)
    (second : Wrong (!isLogicalAnd) right) :
    Wrong (!isLogicalAnd) (.logical isLogicalAnd left right) := by
  obtain ⟨allowed, set, missing⟩ := second.missing
  have start : (Finset.univ : Allowed) ≠ ∅ := Finset.univ_nonempty.ne_empty
  have same := first.same _ start
  refine ⟨⟨allowed, ?_, missing⟩, ?_, ?_⟩
  · rw [view, logical_other, same, first.other _ start, set]
    simp only [Option.getD_some, Finset.empty_union]
    exact if_neg (ne_univ_of_missing missing)
  · rw [Bool.not_not, view, logical_same, same]
    have filled := second.other
    rw [Bool.not_not] at filled
    cases found : (view right Finset.univ).side isLogicalAnd with
    | none =>
      rw [Option.none_or, same]
      exact start
    | some kept =>
      rw [found] at filled
      exact filled
  · rw [holds_long (first.holds false), second.holds]

/-- The right operand leaves the states of the kept side in `cur_stree`, and
`or_stree_stack` takes them for the joined side. -/
theorem wrong_curSide (first : Neutral isLogicalAnd left) (second : Exact isLogicalAnd {true} right)
    (picks : right.curSide = some isLogicalAnd) :
    Wrong (!isLogicalAnd) (.logical isLogicalAnd left right) := by
  have start : (Finset.univ : Allowed) ≠ ∅ := Finset.univ_nonempty.ne_empty
  have same := first.same _ start
  have cur : (view right Finset.univ).cur = {true} := by
    rw [view_cur, picks]
    change ((view right Finset.univ).side isLogicalAnd).getD Finset.univ = {true}
    rw [second.same]
    rfl
  refine ⟨⟨{true}, ?_, by decide⟩, ?_, ?_⟩
  · rw [view, logical_other, same, first.other _ start, second.other, cur]
    exact if_neg (by decide)
  · rw [Bool.not_not, view, logical_same, same, second.same]
    exact Finset.singleton_ne_empty true
  · rw [holds_long (first.holds false), second.holds]
    rfl

end WrongLogical

/-- For each condition that is not plain there are leaves with which it is split wrongly. -/
theorem exists_wrong (shape : Cond Unit Unit) (complex : shape.plain = false) :
    ∃ (result : Bool) (expr : Cond Probe Unit), expr.shape = shape ∧ Wrong result expr := by
  induction shape with
  | leaf leaf => cases complex
  | not unop ih =>
    obtain ⟨result, expr, rfl, wrong⟩ := ih complex
    rw [← Bool.not_not result] at wrong
    refine ⟨!result, .not expr, rfl, wrong.missing, wrong.other, ?_⟩
    rw [holds, wrong.holds, Bool.not_not]
  | logical isLogicalAnd left right one two =>
    cases plainLeft : left.plain with
    | false =>
      obtain ⟨result, left, rfl, first⟩ := one plainLeft
      rcases logical_ends isLogicalAnd result with rfl | rfl
      · obtain ⟨right, rfl, second⟩ := exists_constant right result
        exact ⟨_, .logical _ left right, rfl, wrong_left_kept first second⟩
      · obtain ⟨right, rfl, second⟩ := exists_neutral right isLogicalAnd
        exact ⟨_, .logical _ left right, rfl, wrong_left_joined first second⟩
    | true =>
      cases plainRight : right.plain with
      | false =>
        obtain ⟨result, right, rfl, second⟩ := two plainRight
        rcases logical_ends isLogicalAnd result with rfl | rfl
        · obtain ⟨left, rfl, first⟩ := exists_constant left result
          exact ⟨_, .logical _ left right, rfl, wrong_right_kept first second⟩
        · obtain ⟨left, rfl, first⟩ := exists_neutral left isLogicalAnd
          exact ⟨_, .logical _ left right, rfl, wrong_right_joined first second⟩
      | true =>
        have picks : right.curSide = some isLogicalAnd := by
          simpa [Cond.plain, plainLeft, plainRight] using complex
        obtain ⟨left, rfl, first⟩ := exists_neutral left isLogicalAnd
        obtain ⟨right, rfl, second⟩ :=
          exists_exact right plainRight isLogicalAnd {true} (by decide)
        rw [Cond.curSide_shape] at picks
        exact ⟨_, .logical _ left right, rfl, wrong_curSide first second picks⟩
  | comma left right ih =>
    obtain ⟨result, expr, rfl, wrong⟩ := ih complex
    exact ⟨result, .comma () expr, rfl, wrong.missing, wrong.other, wrong.holds⟩
  | select conditional condTrue condFalse =>
    -- Merging drops the null stree of the branch that sets nothing.
    obtain ⟨conditional, rfl, first⟩ := exists_constant conditional true
    obtain ⟨condTrue, rfl, second⟩ := exists_constant condTrue true
    obtain ⟨condFalse, rfl, third⟩ := exists_neutral condFalse false
    have start : (Finset.univ : Allowed) ≠ ∅ := Finset.univ_nonempty.ne_empty
    refine ⟨true, .select conditional condTrue condFalse, rfl,
      ⟨∅, ?_, Finset.notMem_empty _⟩, ?_, ?_⟩
    · have other := third.other _ start
      rw [Bool.not_false] at other
      simp only [view, first.view, Option.getD_none, second.view, other]
      rfl
    · have same := third.same _ start
      simp only [view, first.view, Option.getD_none, second.view, Option.or_none,
        Option.merge_none_left, Bool.not_true, same]
      exact start
    · rw [holds, first.holds, if_pos rfl, second.holds]

def probeMachine : Machine Unit Allowed :=
  ⟨streeOf (some Finset.univ), [], [], [], []⟩

theorem probeMachine_reachable : probeMachine.curStree ≠ ∅ :=
  streeOf_some_ne_empty _

theorem probeMachine_covers (store : Bool) : Covers probeSemantics probeMachine.curStree store :=
  fun _ => ⟨Finset.univ, lookup_streeOf _, Finset.mem_univ store⟩

/-- The state of the key on one side of a whole condition. -/
theorem sideStree_lookup (expr : Cond Probe Unit) (side : Bool) :
    (sideStree probeClient expr probeMachine side).lookup () =
      some (((view expr Finset.univ).side side).getD Finset.univ) := by
  rw [sideStree_eq probeClient expr probeMachine probeMachine_reachable]
  unfold probeMachine
  rw [eval_view]
  change (streeOf ((view expr Finset.univ).side side) ∪ streeOf (some Finset.univ)).lookup () = _
  rw [streeOf_union_some, lookup_streeOf]

theorem Wrong.not_covers {result : Bool} {expr : Cond Probe Unit} (wrong : Wrong result expr) :
    ¬ Covers probeSemantics (sideStree probeClient expr probeMachine result) false := by
  intro covers
  obtain ⟨allowed, set, missing⟩ := wrong.missing
  obtain ⟨found, same, member⟩ := covers ()
  rw [sideStree_lookup, set] at same
  cases same
  exact missing member

/-- The conditions that are split soundly, for every choice of sound leaves and hooks. -/
theorem splitsSoundly_iff_plain (shape : Cond Unit Unit) :
    SplitsSoundly shape ↔ shape.plain = true := by
  constructor
  · intro sound
    by_contra complex
    obtain ⟨result, expr, rfl, wrong⟩ := exists_wrong shape (Bool.eq_false_of_not_eq_true complex)
    have exec := exec_holds expr false
    rw [wrong.holds] at exec
    exact wrong.not_covers (sound Unit Allowed Probe Unit Bool probeClient probeSemantics expr
      probeMachine false false result rfl probe_sound probeMachine_reachable
      (probeMachine_covers false) exec)
  · exact splitsSoundly_of_plain

/-- The condition `a && (c && d)`: `a` is always true and says that its false side is
impossible, `c` is always true, and `d` holds in the store `true` and sets its true side. -/
def nestedAnd : Cond Probe Unit :=
  .logical true (.leaf (constantProbe true (some ∅)))
    (.logical true (.leaf (constantProbe true none)) (.leaf (exactProbe true {true})))

/-- The store `false` ends on the false side of the condition, whose stree only allows the
store `true`. -/
theorem nestedAnd_missed :
    ClientSound probeClient probeSemantics ∧ probeMachine.curStree ≠ ∅ ∧
      Covers probeSemantics probeMachine.curStree false ∧
      Exec probeSemantics nestedAnd false false false ∧
      (sideStree probeClient nestedAnd probeMachine false).lookup () = some {true} ∧
      ¬ Covers probeSemantics (sideStree probeClient nestedAnd probeMachine false) false := by
  have state : (sideStree probeClient nestedAnd probeMachine false).lookup () = some {true} := by
    rw [sideStree_lookup]
    decide
  refine ⟨probe_sound, probeMachine_reachable, probeMachine_covers false,
    exec_holds nestedAnd false, state, ?_⟩
  intro covers
  obtain ⟨allowed, same, member⟩ := covers ()
  rw [state] at same
  cases same
  exact absurd member (by decide)

end SmatchFormal.Conditions
