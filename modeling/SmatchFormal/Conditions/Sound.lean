import SmatchFormal.Conditions.Summary

/-!
# Conditions that are split soundly

A store is covered by a stree when every key is mapped to a state that covers it.
The strees of the two sides cover the stores of every execution as long as no
`?:` occurs and the right operand of a logical operator does not leave the states
of the wrong side in `cur_stree`.
-/

namespace SmatchFormal.Conditions

open SmatchFormal.Lib

variable {κ Sm L E Store : Type}

/-! ## Executions -/

/-- What states say about stores, and how leaves and other expressions run.  A missing
state is `none`. -/
structure Semantics (κ Sm L E Store : Type) where
  covers : κ → Option Sm → Store → Prop
  test : L → Store → Bool → Store → Prop
  run : E → Store → Store → Prop

inductive Exec (sem : Semantics κ Sm L E Store) : Cond L E → Store → Bool → Store → Prop
  | leaf {leaf : L} {before after : Store} {result : Bool}
      (tested : sem.test leaf before result after) : Exec sem (.leaf leaf) before result after
  | not {unop : Cond L E} {before after : Store} {result : Bool}
      (inner : Exec sem unop before result after) : Exec sem (.not unop) before (!result) after
  | short {isLogicalAnd : Bool} {left right : Cond L E} {before after : Store}
      (first : Exec sem left before (!isLogicalAnd) after) :
      Exec sem (.logical isLogicalAnd left right) before (!isLogicalAnd) after
  | long {isLogicalAnd : Bool} {left right : Cond L E} {before between after : Store}
      {result : Bool} (first : Exec sem left before isLogicalAnd between)
      (second : Exec sem right between result after) :
      Exec sem (.logical isLogicalAnd left right) before result after
  | comma {left : E} {right : Cond L E} {before between after : Store} {result : Bool}
      (first : sem.run left before between) (second : Exec sem right between result after) :
      Exec sem (.comma left right) before result after
  | select {conditional condTrue condFalse : Cond L E} {before between after : Store}
      {choice result : Bool} (first : Exec sem conditional before choice between)
      (second : Exec sem (if choice then condTrue else condFalse) between result after) :
      Exec sem (.select conditional condTrue condFalse) before result after

variable [DecidableEq κ]

def Covers (sem : Semantics κ Sm L E Store) (stree : Stree κ Sm) (store : Store) : Prop :=
  ∀ k, sem.covers k (stree.lookup k) store

def leafStates (client : Client κ Sm L E) (leaf : L) (cur : Stree κ Sm) (side : Bool) :
    Stree κ Sm :=
  let first := client.splitLeaf leaf cur ∪ cur
  let on := if side then client.onTrue leaf first else client.onFalse leaf first
  let second := client.onBoth leaf first ∪ first
  client.postOp leaf second ∪ (client.onBoth leaf first ∪ (on ∪ first))

structure ClientSound (client : Client κ Sm L E) (sem : Semantics κ Sm L E Store) : Prop where
  leaf : ∀ leaf cur before result after, cur ≠ ∅ → Covers sem cur before →
    sem.test leaf before result after → Covers sem (leafStates client leaf cur result) after
  comma : ∀ left cur before after, cur ≠ ∅ → Covers sem cur before → sem.run left before after →
    Covers sem (client.splitExpr left cur ∪ cur) after
  unmatched : ∀ stree k sm store, sem.covers k none store →
    sem.covers k (some (client.unmatchedState stree k sm)) store
  preMerge : ∀ one two store, Covers sem one store →
    Covers sem (client.preMerge one two ∪ one) store
  preMergeKeys : ∀ one two k, k ∈ client.preMerge one two → k ∈ one
  merge : ∀ k a b store, sem.covers k (some a) store ∨ sem.covers k (some b) store →
    sem.covers k (some (client.mergeSmStates k a b)) store
  impliedTrue : ∀ expr cur before result after, client.impliedConditionTrue expr cur = true →
    Covers sem cur before → Exec sem expr before result after → result = true
  impliedFalse : ∀ expr cur before result after, client.impliedConditionFalse expr cur = true →
    Covers sem cur before → Exec sem expr before result after → result = false

section Merge

variable {client : Client κ Sm L E} {sem : Semantics κ Sm L E Store} {one two : Stree κ Sm}
variable {store : Store}

theorem lookup_matchStates (client : Client κ Sm L E) (one two : Stree κ Sm) (k : κ) :
    (matchStates client one two).lookup k =
      (one.lookup k).or ((two.lookup k).map (client.unmatchedState one k)) := by
  unfold matchStates
  rw [Overlay.lookup_union, Overlay.lookup_tabulate_of_none]
  intro absent
  rw [Overlay.lookup_of_not_mem_keys absent]
  rfl

theorem covers_matchStates (sound : ClientSound client sem) (covers : Covers sem one store) :
    Covers sem (matchStates client one two) store := by
  intro k
  have here := covers k
  rw [lookup_matchStates]
  cases found : one.lookup k with
  | some a =>
    rw [found] at here
    exact here
  | none =>
    rw [found] at here
    cases two.lookup k with
    | none => exact here
    | some b => exact sound.unmatched one k b store here

theorem isSome_matchStates (client : Client κ Sm L E) (one two : Stree κ Sm) (k : κ) :
    ((matchStates client one two).lookup k).isSome =
      ((one.lookup k).isSome || (two.lookup k).isSome) := by
  rw [lookup_matchStates, Option.isSome_or, Option.isSome_map]

theorem isSome_preMerge (sound : ClientSound client sem) (one two : Stree κ Sm) (k : κ) :
    ((client.preMerge one two ∪ one).lookup k).isSome = (one.lookup k).isSome := by
  rw [Overlay.lookup_union, Option.isSome_or]
  cases hook : (client.preMerge one two).lookup k with
  | none => rfl
  | some a =>
    have member := sound.preMergeKeys one two k (Finmap.mem_iff.mpr ⟨a, hook⟩)
    rw [Finmap.lookup_isSome.mpr member]
    rfl

variable [DecidableEq Sm]

section

variable (sound : ClientSound client sem) (first : one ≠ ∅) (second : two ≠ ∅)
include sound first second

/-- The states of one key, after the strees have been matched. -/
theorem mergeStree_lookup (different : one ≠ two) (k : κ) :
    ∃ left right : Stree κ Sm,
      (∀ store, Covers sem one store → Covers sem left store) ∧
      (∀ store, Covers sem two store → Covers sem right store) ∧
      ((left.lookup k).isSome = ((one.lookup k).isSome || (two.lookup k).isSome)) ∧
      ((right.lookup k).isSome = ((one.lookup k).isSome || (two.lookup k).isSome)) ∧
      (mergeStree client one two).lookup k =
        match left.lookup k, right.lookup k with
        | some a, some b => if a = b then some a else some (client.mergeSmStates k a b)
        | _, _ => none := by
  refine ⟨client.preMerge (matchStates client one two) (matchStates client two one) ∪
      matchStates client one two,
    client.preMerge (matchStates client two one)
      (client.preMerge (matchStates client one two) (matchStates client two one) ∪
        matchStates client one two) ∪ matchStates client two one, ?_, ?_, ?_, ?_, ?_⟩
  · exact fun store covers => sound.preMerge _ _ store (covers_matchStates sound covers)
  · exact fun store covers => sound.preMerge _ _ store (covers_matchStates sound covers)
  · rw [isSome_preMerge sound, isSome_matchStates]
  · rw [isSome_preMerge sound, isSome_matchStates, Bool.or_comm]
  · unfold mergeStree
    rw [if_neg second, if_neg different, if_neg first]
    apply Overlay.lookup_tabulate_of_none
    intro absent
    rw [Overlay.lookup_of_not_mem_keys absent]

theorem covers_mergeStree (either : Covers sem one store ∨ Covers sem two store) :
    Covers sem (mergeStree client one two) store := by
  by_cases different : one = two
  · subst different
    rw [mergeStree, if_neg first, if_pos rfl]
    exact either.elim id id
  intro k
  obtain ⟨left, right, coversLeft, coversRight, someLeft, someRight, merged⟩ :=
    mergeStree_lookup sound first second different k
  rw [merged]
  cases foundLeft : left.lookup k with
  | none =>
    -- Neither stree has the key.
    have none : right.lookup k = none := by
      rw [← someLeft, foundLeft] at someRight
      exact Option.isNone_iff_eq_none.mp (Option.isSome_eq_false_iff.mp someRight)
    rcases either with covered | covered
    · have here := coversLeft store covered k
      rw [foundLeft] at here
      exact here
    · have here := coversRight store covered k
      rw [none] at here
      exact here
  | some a =>
    cases foundRight : right.lookup k with
    | none =>
      rw [foundLeft, ← someRight, foundRight] at someLeft
      cases someLeft
    | some b =>
      have both : sem.covers k (some a) store ∨ sem.covers k (some b) store := by
        rcases either with covered | covered
        · have here := coversLeft store covered k
          rw [foundLeft] at here
          exact .inl here
        · have here := coversRight store covered k
          rw [foundRight] at here
          exact .inr here
      simp only
      split_ifs with same
      · rw [same] at both ⊢
        exact both.elim id id
      · exact sound.merge k a b store both

theorem isSome_mergeStree {k : κ} (known : (one.lookup k).isSome = true) :
    ((mergeStree client one two).lookup k).isSome = true := by
  by_cases different : one = two
  · subst different
    rw [mergeStree, if_neg first, if_pos rfl]
    exact known
  obtain ⟨left, right, -, -, someLeft, someRight, merged⟩ :=
    mergeStree_lookup sound first second different k
  rw [known, Bool.true_or] at someLeft someRight
  obtain ⟨a, foundLeft⟩ := Option.isSome_iff_exists.mp someLeft
  obtain ⟨b, foundRight⟩ := Option.isSome_iff_exists.mp someRight
  rw [merged, foundLeft, foundRight]
  simp only
  split_ifs <;> rfl

end

/-- What the filter drops is found again in the stree it was compared with. -/
theorem filterStree_union (stree pre : Stree κ Sm)
    (keys : ∀ k, (pre.lookup k).isSome = true → (stree.lookup k).isSome = true) :
    filterStree stree pre ∪ pre = stree := by
  apply Finmap.ext_lookup
  intro k
  have dropped : (filterStree stree pre).lookup k =
      if stree.lookup k = pre.lookup k then none else stree.lookup k := by
    unfold filterStree
    rw [Overlay.lookup_tabulate_of_none]
    intro absent
    rw [Overlay.lookup_of_not_mem_keys absent, ite_self]
  rw [Overlay.lookup_union, dropped]
  split_ifs with same
  · exact same.symm
  · cases found : stree.lookup k with
    | some a => rfl
    | none =>
      cases before : pre.lookup k with
      | none => exact absurd (found.trans before.symm) same
      | some b =>
        have impossible := keys k (by rw [before]; rfl)
        rw [found] at impossible
        cases impossible

end Merge

/-! ## The current states after a condition -/

/-- The side whose states a condition leaves in `cur_stree`, if it picks one:
`handle_logical` ends in `__use_cond_true_states`. -/
def Cond.curSide : Cond L E → Option Bool
  | .leaf _ => none
  | .not unop => unop.curSide.map (! ·)
  | .logical _ _ _ => some true
  | .comma _ right => right.curSide
  | .select _ _ _ => none

/-- There is no `?:`, and no right operand of `&&` leaves its true states in `cur_stree`,
nor one of `||` its false states. -/
def Cond.plain : Cond L E → Bool
  | .leaf _ => true
  | .not unop => unop.plain
  | .logical isLogicalAnd left right =>
    left.plain && right.plain && decide (right.curSide ≠ some isLogicalAnd)
  | .comma _ right => right.plain
  | .select _ _ _ => false

theorem Cond.plain_logical {isLogicalAnd : Bool} {left right : Cond L E}
    (plain : (Cond.logical isLogicalAnd left right).plain = true) :
    left.plain = true ∧ right.plain = true ∧ right.curSide ≠ some isLogicalAnd := by
  simp only [Cond.plain, Bool.and_eq_true, decide_eq_true_eq] at plain
  exact ⟨plain.1.1, plain.1.2, plain.2⟩

structure Frame (cur saved pre fake : Stree κ Sm) : Prop where
  saved : fake ∪ saved = cur
  pre : fake ∪ pre = cur

namespace Frame

variable {cur saved pre fake : Stree κ Sm}

theorem start (cur : Stree κ Sm) : Frame cur cur cur ∅ :=
  ⟨Finmap.empty_union, Finmap.empty_union⟩

theorem set (frame : Frame cur saved pre fake) (new : Stree κ Sm) :
    Frame (new ∪ cur) saved pre (new ∪ fake) :=
  ⟨by rw [Finmap.union_assoc, frame.saved], by rw [Finmap.union_assoc, frame.pre]⟩

theorem cur_ne_empty (frame : Frame cur saved pre fake) (before : pre ≠ ∅) : cur ≠ ∅ := by
  rw [← frame.pre]
  exact Overlay.union_ne_empty fake before

end Frame

section Eval

variable [DecidableEq Sm] {client : Client κ Sm L E} {cur saved pre fake : Stree κ Sm}

/-- The states of one side of a leaf, over the states before it. -/
theorem eval_leaf_union (frame : Frame cur saved pre fake) (leaf : L) (side : Bool) :
    (eval client (.leaf leaf) cur saved pre fake).side side ∪ pre =
      leafStates client leaf cur side := by
  have first : client.splitLeaf leaf cur ∪ fake ∪ saved = client.splitLeaf leaf cur ∪ cur := by
    rw [Finmap.union_assoc, frame.saved]
  simp only [eval, leafStates, first, Finmap.union_assoc, frame.pre]

def CurStates (outcome : Outcome κ Sm) (pre : Stree κ Sm) : Option Bool → Prop
  | none => ∀ side, outcome.side side ∪ outcome.cur = outcome.side side ∪ pre
  | some side => outcome.cur = outcome.side side ∪ pre

theorem eval_curStates (client : Client κ Sm L E) (expr : Cond L E) (plain : expr.plain = true)
    (frame : Frame cur saved pre fake) :
    CurStates (eval client expr cur saved pre fake) pre expr.curSide := by
  induction expr generalizing cur saved pre fake with
  | leaf leaf =>
    intro side
    rw [eval_leaf_union frame]
    apply Finmap.ext_lookup
    intro k
    simp only [eval, leafStates, Overlay.lookup_union, Finmap.union_assoc, frame.saved]
    rw [← frame.saved, Overlay.lookup_union]
    set post := (client.postOp leaf _).lookup k
    set both := (client.onBoth leaf _).lookup k
    set set := (client.splitLeaf leaf _).lookup k
    cases post with
    | some _ => rfl
    | none =>
      cases both with
      | some _ => rfl
      | none =>
        cases (if side = true then _ else _ : Stree κ Sm).lookup k with
        | some _ => rfl
        | none => cases set <;> cases fake.lookup k <;> rfl
  | not unop ih =>
    have inner := ih plain frame
    unfold Cond.curSide
    cases picked : unop.curSide with
    | none =>
      rw [picked] at inner
      exact fun side => inner !side
    | some side =>
      rw [picked] at inner
      change (eval client unop cur saved pre fake).cur =
        (eval client unop cur saved pre fake).side (!(!side)) ∪ pre
      rw [Bool.not_not]
      exact inner
  | logical isLogicalAnd left right => rfl
  | comma left right ih => exact ih plain (frame.set _)
  | select => cases plain

/-- The right operand of a logical operator falls back to the states before it. -/
theorem eval_right_union (client : Client κ Sm L E) (right : Cond L E) (isLogicalAnd : Bool)
    (plain : right.plain = true) (picks : right.curSide ≠ some isLogicalAnd)
    (cur : Stree κ Sm) :
    let two := eval client right cur cur cur ∅
    two.side (!isLogicalAnd) ∪ two.cur = two.side (!isLogicalAnd) ∪ cur := by
  intro two
  have states := eval_curStates client right plain (Frame.start cur)
  cases picked : right.curSide with
  | none =>
    rw [picked] at states
    exact states _
  | some side =>
    rw [picked] at states picks
    have other : side = !isLogicalAnd := by
      cases side <;> cases isLogicalAnd <;> first | rfl | exact absurd rfl picks
    rw [← other]
    have same : two.cur = two.side side ∪ cur := states
    rw [same, Overlay.union_self_left]

variable {sem : Semantics κ Sm L E Store} {before after : Store} {result : Bool}

/-- The states of the joined side, before those that did not change are dropped. -/
theorem logical_joined_union (sound : ClientSound client sem) (isLogicalAnd : Bool)
    (one two : Outcome κ Sm) (reachable : pre ≠ ∅)
    (right : two.side (!isLogicalAnd) ∪ two.cur ≠ ∅) :
    (one.logical client isLogicalAnd pre two).side (!isLogicalAnd) ∪ pre =
      mergeStree client (one.side (!isLogicalAnd) ∪ pre)
        (two.side (!isLogicalAnd) ∪ two.cur) := by
  have other : (!isLogicalAnd) ≠ isLogicalAnd := by cases isLogicalAnd <;> nofun
  unfold Outcome.logical
  simp only [if_neg other]
  apply filterStree_union
  intro k known
  apply isSome_mergeStree sound (Overlay.union_ne_empty _ reachable) right
  rw [Overlay.lookup_union, Option.isSome_or, known, Bool.or_true]

theorem logical_kept_union (client : Client κ Sm L E) (isLogicalAnd : Bool)
    (one two : Outcome κ Sm) :
    (one.logical client isLogicalAnd pre two).side isLogicalAnd ∪ pre =
      two.side isLogicalAnd ∪ (one.side isLogicalAnd ∪ pre) := by
  unfold Outcome.logical
  simp only [if_pos, Finmap.union_assoc]

/-- The joined side of a plain logical operator merges the two paths that end in it. -/
theorem eval_joined_union (sound : ClientSound client sem) {isLogicalAnd : Bool}
    {left right : Cond L E} (plain : (Cond.logical isLogicalAnd left right).plain = true)
    (reachable : pre ≠ ∅) (cur saved fake : Stree κ Sm) :
    let one := eval client left cur saved pre fake
    let inner := one.side isLogicalAnd ∪ pre
    let two := eval client right inner inner inner ∅
    (eval client (.logical isLogicalAnd left right) cur saved pre fake).side (!isLogicalAnd) ∪ pre =
        mergeStree client (one.side (!isLogicalAnd) ∪ pre) (two.side (!isLogicalAnd) ∪ inner) ∧
      two.side (!isLogicalAnd) ∪ inner ≠ ∅ := by
  intro one inner two
  obtain ⟨-, plainRight, picks⟩ := Cond.plain_logical plain
  have filled : two.side (!isLogicalAnd) ∪ inner ≠ ∅ :=
    Overlay.union_ne_empty _ (Overlay.union_ne_empty _ reachable)
  have fallback : two.side (!isLogicalAnd) ∪ two.cur = two.side (!isLogicalAnd) ∪ inner :=
    eval_right_union client right isLogicalAnd plainRight picks inner
  refine ⟨?_, filled⟩
  rw [← fallback] at filled ⊢
  exact logical_joined_union sound isLogicalAnd one two reachable filled

/-- The strees of a plain condition cover the stores of its executions. -/
theorem eval_covers (sound : ClientSound client sem) {expr : Cond L E} (plain : expr.plain = true)
    (frame : Frame cur saved pre fake) (reachable : pre ≠ ∅) (covers : Covers sem cur before)
    (exec : Exec sem expr before result after) :
    Covers sem ((eval client expr cur saved pre fake).side result ∪ pre) after := by
  induction exec generalizing cur saved pre fake with
  | leaf tested =>
    rw [eval_leaf_union frame]
    exact sound.leaf _ cur _ _ _ (frame.cur_ne_empty reachable) covers tested
  | @not unop before after result inner ih =>
    have here := ih plain frame reachable covers
    change Covers sem ((eval client unop cur saved pre fake).side (!!result) ∪ pre) after
    rw [Bool.not_not]
    exact here
  | @short isLogicalAnd left right before after first ih =>
    obtain ⟨joined, filled⟩ := eval_joined_union sound plain reachable cur saved fake
    rw [joined]
    apply covers_mergeStree sound (Overlay.union_ne_empty _ reachable) filled
    exact .inl (ih (Cond.plain_logical plain).1 frame reachable covers)
  | @long isLogicalAnd left right before between after result first second ihFirst ihSecond =>
    obtain ⟨plainLeft, plainRight, -⟩ := Cond.plain_logical plain
    have inner := ihFirst plainLeft frame reachable covers
    have outer := ihSecond plainRight (Frame.start _) (Overlay.union_ne_empty _ reachable) inner
    by_cases same : result = isLogicalAnd
    · subst same
      rw [eval, logical_kept_union]
      exact outer
    · have other : result = !isLogicalAnd := Bool.eq_not_of_ne same
      subst other
      obtain ⟨joined, filled⟩ := eval_joined_union sound plain reachable cur saved fake
      rw [joined]
      exact covers_mergeStree sound (Overlay.union_ne_empty _ reachable) filled (.inr outer)
  | comma first second ih =>
    have set := sound.comma _ cur _ _ (frame.cur_ne_empty reachable) covers first
    exact ih plain (frame.set _) reachable set
  | select => cases plain

end Eval

/-! ## Shapes -/

/-- A condition without its leaves and without what its commas discard. -/
def Cond.shape : Cond L E → Cond Unit Unit
  | .leaf _ => .leaf ()
  | .not unop => .not unop.shape
  | .logical isLogicalAnd left right => .logical isLogicalAnd left.shape right.shape
  | .comma _ right => .comma () right.shape
  | .select conditional condTrue condFalse =>
    .select conditional.shape condTrue.shape condFalse.shape

theorem Cond.curSide_shape (expr : Cond L E) : expr.shape.curSide = expr.curSide := by
  induction expr with
  | leaf leaf => rfl
  | not unop ih => rw [shape, curSide, curSide, ih]
  | logical isLogicalAnd left right => rfl
  | comma left right ih => exact ih
  | select => rfl

theorem Cond.plain_shape (expr : Cond L E) : expr.shape.plain = expr.plain := by
  induction expr with
  | leaf leaf => rfl
  | not unop ih => exact ih
  | logical isLogicalAnd left right one two =>
    rw [shape, plain, plain, one, two, curSide_shape]
  | comma left right ih => exact ih
  | select => rfl

def sideStree [DecidableEq Sm] (client : Client κ Sm L E) (expr : Cond L E) (m : Machine κ Sm)
    (side : Bool) : Stree κ Sm :=
  if side then (splitWholeCondition client expr m).1 else (splitWholeCondition client expr m).2

theorem sideStree_eq [DecidableEq Sm] (client : Client κ Sm L E) (expr : Cond L E)
    (m : Machine κ Sm) (reachable : m.curStree ≠ ∅) (side : Bool) :
    sideStree client expr m side =
      (eval client expr m.curStree m.curStree m.curStree ∅).side side ∪ m.curStree := by
  unfold sideStree
  rw [splitWholeCondition_eq client expr m reachable]
  cases side <;> rfl

/-- Whatever the leaves and the hooks are, as long as they are sound: the stree of a side
covers the store of every execution that ends in it. -/
def SplitsSoundly (shape : Cond Unit Unit) : Prop :=
  ∀ (κ Sm L E Store : Type) [DecidableEq κ] [DecidableEq Sm] (client : Client κ Sm L E)
    (sem : Semantics κ Sm L E Store) (expr : Cond L E) (m : Machine κ Sm) (before after : Store)
    (result : Bool), expr.shape = shape → ClientSound client sem → m.curStree ≠ ∅ →
      Covers sem m.curStree before → Exec sem expr before result after →
      Covers sem (sideStree client expr m result) after

theorem splitsSoundly_of_plain {shape : Cond Unit Unit} (plain : shape.plain = true) :
    SplitsSoundly shape := by
  intro κ Sm L E Store _ _ client sem expr m before after result same sound reachable covers exec
  rw [sideStree_eq client expr m reachable]
  rw [← same, Cond.plain_shape] at plain
  exact eval_covers sound plain (Frame.start _) reachable covers exec

end SmatchFormal.Conditions
