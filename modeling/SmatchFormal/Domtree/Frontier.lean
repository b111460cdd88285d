import SmatchFormal.Domtree.Tree
import Mathlib.Algebra.BigOperators.Group.Finset.Basic

/-!
# Iterated dominance frontiers

`idf_compute` takes blocks from a bank, the deepest ones first, and visits what they
dominate.  An edge out of it that does not lead deeper than the block that was taken ends in
the frontier.
-/

namespace SmatchFormal.Domtree

open Dominance List Function

variable {Block : Type}

/-- `struct piggy`, the result so far and the flags of the blocks. -/
structure Idf (Block : Type) where
  max : Nat
  lists : Nat → List Block
  idf : List Block
  visited : Block → Bool
  inPhi : Block → Bool
  alpha : Block → Bool

section Code

variable [DecidableEq Block]

/-- `bank_put`.  There is no result when the assertion fails. -/
def bankPut (tree : Tree Block) (st : Idf Block) (bb : Block) : Option (Idf Block) :=
  if tree.domLevel bb ≤ st.max then
    some { st with
      lists := Function.update st.lists (tree.domLevel bb) (st.lists (tree.domLevel bb) ++ [bb]) }
  else none

def popBb (st : Idf Block) (level : Nat) : Option (Block × Idf Block) :=
  (st.lists level).getLast?.map fun bb =>
    (bb, { st with
      max := level
      lists := Function.update st.lists level (st.lists level).dropLast })

def bankGetFrom (st : Idf Block) : Nat → Option (Block × Idf Block)
  | 0 => popBb st 0
  | level + 1 => (popBb st (level + 1)).or (bankGetFrom st level)

def bankGet (st : Idf Block) : Option (Block × Idf Block) := bankGetFrom st st.max

def visitChild (tree : Tree Block) (x : Block) (currLevel : Nat) (st : Idf Block) (y : Block) :
    Option (Idf Block) :=
  if tree.idom y = some x then some st
  else if tree.domLevel y > currLevel then some st
  else if st.inPhi y then some st
  else
    let st := { st with inPhi := Function.update st.inPhi y true, idf := st.idf ++ [y] }
    if st.alpha y then some st else bankPut tree st y

/-- `visit`, with a bound on the depth of the recursion. -/
def visit (ep : Entrypoint Block) (tree : Tree Block) :
    Nat → Block → Nat → Idf Block → Option (Idf Block)
  | 0, _, _, _ => none
  | fuel + 1, x, currLevel, st =>
    ((ep.children x).foldlM (visitChild tree x currLevel)
      { st with visited := Function.update st.visited x true }).bind fun st =>
        (tree.doms x).foldlM
          (fun st y => if st.visited y then some st else visit ep tree fuel y currLevel st) st

/-- The loop that visits the blocks of the bank, with a bound on the number of turns. -/
def drain (ep : Entrypoint Block) (tree : Tree Block) (levels : Nat) :
    Nat → Idf Block → Option (List Block)
  | 0, _ => none
  | fuel + 1, st =>
    match bankGet st with
    | none => some st.idf
    | some (bb, st) =>
      (visit ep tree levels bb (tree.domLevel bb) st).bind (drain ep tree levels fuel)

def putAlpha (tree : Tree Block) (st : Idf Block) (bb : Block) : Option (Idf Block) :=
  bankPut tree { st with alpha := Function.update st.alpha bb true } bb

def idfCompute (ep : Entrypoint Block) (tree : Tree Block) (levels : Nat) (alpha : List Block)
    (fuel : Nat) : Option (List Block) :=
  (alpha.foldlM (putAlpha tree)
    ⟨levels - 1, fun _ => [], [], fun _ => false, fun _ => false, fun _ => false⟩).bind
      (drain ep tree levels fuel)

end Code

section Levels

variable {ep : Entrypoint Block} {bbs : List Block} {tree : Tree Block} {domLevels : Nat}
  {r x y d : Block}

/-- The dominators of a block are on one line. -/
theorem Correct.dominators (correct : Correct ep bbs tree domLevels) (member : x ∈ bbs)
    (first : Dominates ep.Edge ep.entry r x) (second : Dominates ep.Edge ep.entry d x) :
    Dominates ep.Edge ep.entry r d ∨ StrictlyDominates ep.Edge ep.entry d r := by
  induction size : tree.domLevel x using Nat.strongRecOn generalizing x with
  | ind level ih =>
    by_cases isFirst : r = x
    · by_cases isSecond : d = x
      · rw [isFirst, isSecond]
        exact Or.inl (.refl x)
      · rw [isFirst]
        exact Or.inr ⟨second, isSecond⟩
    · by_cases isSecond : d = x
      · rw [isSecond]
        exact Or.inl first
      · cases found : tree.idom x with
        | none =>
          rw [correct.eq_entry member found] at first isFirst
          exact absurd ⟨first, isFirst⟩ not_strictlyDominates_root
        | some p =>
          obtain ⟨inside, next, immediate⟩ := correct.of_idom member found
          exact ih (tree.domLevel p) (by omega) inside (immediate.least r ⟨first, isFirst⟩)
            (immediate.least d ⟨second, isSecond⟩) rfl

/-- An edge out of what a block dominates ends in its frontier when it does not lead deeper. -/
theorem Correct.not_strictlyDominates_iff (correct : Correct ep bbs tree domLevels)
    (root : r ∈ bbs) (member : x ∈ bbs) (target : y ∈ bbs) (edge : ep.Edge x y)
    (dominates : Dominates ep.Edge ep.entry r x) :
    ¬StrictlyDominates ep.Edge ep.entry r y ↔ tree.domLevel y ≤ tree.domLevel r := by
  constructor
  · intro outside
    by_contra deeper
    rw [Nat.not_le] at deeper
    cases found : tree.idom y with
    | none =>
      have top := correct.level y target
      rw [found] at top
      exact absurd deeper (top ▸ Nat.not_lt_zero _)
    | some d =>
      obtain ⟨inside, next, immediate⟩ := correct.of_idom target found
      have upper := immediate.strict.1.of_edge immediate.strict.2 edge
      rcases correct.dominators member dominates upper with above | below
      · refine outside ⟨above.trans immediate.strict.1, fun same => ?_⟩
        rw [same] at deeper
        exact Nat.lt_irrefl _ deeper
      · have less := correct.level_lt root below
        omega
  · intro le strict
    exact absurd (correct.level_lt target strict) (Nat.not_lt.mpr le)

end Levels

/-! ## One visit -/

def Idf.size (st : Idf Block) (levels : Nat) : Nat :=
  ∑ level ∈ Finset.range levels, (st.lists level).length

/-- New blocks of the frontier, and in the bank those that are not among the given ones. -/
structure Adds (tree : Tree Block) (st st' : Idf Block) (news : List Block) : Prop where
  idf : st'.idf = st.idf ++ news
  nodup : news.Nodup
  fresh : ∀ y ∈ news, st.inPhi y = false
  inPhi : ∀ y, st'.inPhi y = true ↔ st.inPhi y = true ∨ y ∈ news
  alpha : st'.alpha = st.alpha
  max : st'.max = st.max
  lists : ∀ level b, b ∈ st'.lists level ↔
    b ∈ st.lists level ∨ b ∈ news ∧ st.alpha b = false ∧ tree.domLevel b = level
  size : ∀ levels, st.max < levels → st'.size levels ≤ st.size levels + news.length

section Adds

variable {tree : Tree Block} {st st' st'' : Idf Block} {news news' : List Block} {x y : Block}
  {currLevel : Nat}

/-- Nothing of it depends on the blocks that were visited. -/
theorem Adds.refl (st : Idf Block) (visited : Block → Bool) :
    Adds tree st { st with visited := visited } [] where
  idf := (append_nil _).symm
  nodup := nodup_nil
  fresh := fun _ never => absurd never not_mem_nil
  inPhi := fun _ => ⟨Or.inl, fun here => here.resolve_right not_mem_nil⟩
  alpha := rfl
  max := rfl
  lists := fun _ _ => ⟨Or.inl, fun here => here.resolve_right fun both =>
    not_mem_nil both.1⟩
  size := fun _ _ => Nat.le_refl _

theorem Adds.trans (first : Adds tree st st' news) (second : Adds tree st' st'' news') :
    Adds tree st st'' (news ++ news') where
  idf := by rw [second.idf, first.idf, append_assoc]
  nodup := nodup_append.mpr ⟨first.nodup, second.nodup, fun a member b member' same => by
    have earlier := (first.inPhi a).mpr (Or.inr member)
    rw [same, second.fresh b member'] at earlier
    cases earlier⟩
  fresh := by
    intro y member
    rcases mem_append.mp member with member | member
    · exact first.fresh y member
    · refine Bool.eq_false_iff.mpr fun already => ?_
      have still := (first.inPhi y).mpr (Or.inl already)
      rw [second.fresh y member] at still
      cases still
  inPhi := fun y => by rw [second.inPhi, first.inPhi, mem_append, or_assoc]
  alpha := second.alpha.trans first.alpha
  max := second.max.trans first.max
  lists := fun level b => by
    rw [second.lists, first.lists, first.alpha, mem_append, or_assoc, or_and_right]
  size := fun levels enough => by
    have here := first.size levels enough
    have there := second.size levels (first.max ▸ enough)
    rw [length_append]
    omega

theorem size_update (st : Idf Block) {level levels : Nat} (inside : level < levels)
    (list : List Block) :
    { st with lists := Function.update st.lists level list }.size levels +
      (st.lists level).length = st.size levels + list.length := by
  have member : level ∈ Finset.range levels := Finset.mem_range.mpr inside
  unfold Idf.size
  dsimp only
  rw [← Finset.add_sum_erase _ _ member, ← Finset.add_sum_erase _ _ member, update_self]
  have rest : ∑ l ∈ (Finset.range levels).erase level,
        (Function.update st.lists level list l).length =
      ∑ l ∈ (Finset.range levels).erase level, (st.lists l).length := by
    refine Finset.sum_congr rfl fun l outside => ?_
    rw [update_of_ne (Finset.ne_of_mem_erase outside)]
  rw [rest]
  omega

variable [DecidableEq Block]

theorem update_true_iff (flags : Block → Bool) (y z : Block) :
    Function.update flags y true z = true ↔ flags z = true ∨ z = y := by
  by_cases same : z = y
  · rw [same, update_self]
    exact ⟨fun _ => Or.inr rfl, fun _ => rfl⟩
  · rw [update_of_ne same]
    exact ⟨Or.inl, fun here => here.resolve_right same⟩

/-- What one turn of the loop over the children adds. -/
theorem visitChild_adds (tree : Tree Block) (deep : currLevel ≤ st.max) (x y : Block) :
    ∃ st' news, visitChild tree x currLevel st y = some st' ∧ Adds tree st st' news ∧
      st'.visited = st.visited ∧
      (tree.idom y ≠ some x → tree.domLevel y ≤ currLevel → st'.inPhi y = true) ∧
      ∀ z ∈ news, z = y ∧ tree.domLevel y ≤ currLevel := by
  have nothing : Adds tree st st [] := .refl st st.visited
  have none : ∀ z ∈ ([] : List Block), z = y ∧ tree.domLevel y ≤ currLevel :=
    fun _ never => absurd never not_mem_nil
  unfold visitChild
  by_cases own : tree.idom y = some x
  · exact ⟨st, [], if_pos own, nothing, rfl, absurd own, none⟩
  · by_cases deeper : tree.domLevel y > currLevel
    · refine ⟨st, [], ?_, nothing, rfl, fun _ le => absurd le (Nat.not_le.mpr deeper), none⟩
      rw [if_neg own, if_pos deeper]
    · by_cases already : st.inPhi y = true
      · refine ⟨st, [], ?_, nothing, rfl, fun _ _ => already, none⟩
        rw [if_neg own, if_neg deeper, if_pos already]
      · have le : tree.domLevel y ≤ currLevel := Nat.not_lt.mp deeper
        have inPhi : ∀ z, Function.update st.inPhi y true z = true ↔
            st.inPhi z = true ∨ z ∈ [y] := fun z => by
          rw [update_true_iff, mem_singleton]
        have fresh : ∀ z ∈ [y], st.inPhi z = false := fun z member => by
          rw [mem_singleton.mp member]
          exact Bool.not_eq_true _ |>.mp already
        have found : Function.update st.inPhi y true y = true := update_self _ _ _
        have only : ∀ z ∈ [y], z = y ∧ tree.domLevel y ≤ currLevel := fun z member =>
          ⟨mem_singleton.mp member, le⟩
        rw [if_neg own, if_neg deeper, if_neg already]
        by_cases given : st.alpha y = true
        · refine ⟨_, [y], if_pos given, ?_, rfl, fun _ _ => found, only⟩
          refine ⟨rfl, nodup_singleton y, fresh, inPhi, rfl, rfl, fun level b => ?_,
            fun levels _ => Nat.le_add_right _ _⟩
          refine ⟨Or.inl, fun here => here.resolve_right fun both => ?_⟩
          rw [mem_singleton.mp both.1, given] at both
          cases both.2.1
        · refine ⟨{ st with
            inPhi := Function.update st.inPhi y true
            idf := st.idf ++ [y]
            lists := Function.update st.lists (tree.domLevel y)
              (st.lists (tree.domLevel y) ++ [y]) }, [y], ?_, ?_, rfl, fun _ _ => found, only⟩
          · dsimp only
            rw [if_neg given]
            exact if_pos (Nat.le_trans le deep)
          · refine ⟨rfl, nodup_singleton y, fresh, inPhi, rfl, rfl, fun level b => ?_,
              fun levels enough => ?_⟩
            · dsimp only
              by_cases here : level = tree.domLevel y
              · rw [here, update_self, mem_append]
                refine or_congr_right ⟨fun member => ⟨member, ?_, ?_⟩, And.left⟩
                · rw [mem_singleton.mp member]
                  exact Bool.not_eq_true _ |>.mp given
                · rw [mem_singleton.mp member]
              · rw [update_of_ne here]
                refine ⟨Or.inl, fun either => either.resolve_right fun both => ?_⟩
                rw [mem_singleton.mp both.1] at both
                exact here both.2.2.symm
            · have grown := size_update st (Nat.lt_of_le_of_lt (Nat.le_trans le deep) enough)
                (st.lists (tree.domLevel y) ++ [y])
              rw [length_append] at grown
              change Idf.size
                { st with lists := Function.update st.lists (tree.domLevel y) _ } levels ≤ _
              have one : [y].length = 1 := rfl
              omega

theorem foldlM_visitChild (tree : Tree Block) (x : Block) (ys : List Block)
    (deep : currLevel ≤ st.max) :
    ∃ st' news, ys.foldlM (visitChild tree x currLevel) st = some st' ∧ Adds tree st st' news ∧
      st'.visited = st.visited ∧
      (∀ y ∈ ys, tree.idom y ≠ some x → tree.domLevel y ≤ currLevel → st'.inPhi y = true) ∧
      ∀ y ∈ news, y ∈ ys ∧ tree.domLevel y ≤ currLevel := by
  induction ys generalizing st with
  | nil =>
    exact ⟨st, [], rfl, .refl st st.visited, rfl, fun _ never => absurd never not_mem_nil,
      fun _ never => absurd never not_mem_nil⟩
  | cons y ys ih =>
    obtain ⟨middle, new, step, adds, visited, found, only⟩ := visitChild_adds tree deep x y
    obtain ⟨st', news, rest, adds', visited', found', only'⟩ := ih (adds.max ▸ deep)
    refine ⟨st', new ++ news, ?_, adds.trans adds', visited'.trans visited, ?_, ?_⟩
    · rw [foldlM_cons, step]
      exact rest
    · intro z member
      rcases mem_cons.mp member with rfl | later
      · exact fun other le => (adds'.inPhi z).mpr (Or.inl (found other le))
      · exact found' z later
    · intro z member
      rcases mem_append.mp member with here | later
      · obtain ⟨rfl, le⟩ := only z here
        exact ⟨mem_cons_self, le⟩
      · exact ⟨mem_cons_of_mem y (only' z later).1, (only' z later).2⟩

end Adds

/-- The edges out of a block that do not lead too deep end in the frontier. -/
def Handled (ep : Entrypoint Block) (tree : Tree Block) (level : Nat) (st : Idf Block)
    (z : Block) : Prop :=
  ∀ y ∈ ep.children z, tree.idom y ≠ some z → tree.domLevel y ≤ level → st.inPhi y = true

def Closed (tree : Tree Block) (st : Idf Block) (z : Block) : Prop :=
  ∀ c ∈ tree.doms z, st.visited c = true

structure Visits (ep : Entrypoint Block) (bbs : List Block) (tree : Tree Block) (level : Nat)
    (starts : List Block)
    (st st' : Idf Block) (news : List Block) : Prop where
  adds : Adds tree st st' news
  visited : ∀ z, st.visited z = true → st'.visited z = true
  begun : ∀ s ∈ starts, st'.visited s = true
  handled : ∀ z, st'.visited z = true → st.visited z = true ∨
    Handled ep tree level st' z ∧ Closed tree st' z
  source : ∀ y ∈ news, tree.domLevel y ≤ level ∧
    ∃ s ∈ starts, ∃ z ∈ bbs, Dominates ep.Edge ep.entry s z ∧ ep.Edge z y

section Visits

variable {ep : Entrypoint Block} {bbs : List Block} {tree : Tree Block} {domLevels level : Nat}
  {st st' st'' : Idf Block} {news news' starts : List Block} {x z : Block}

theorem Handled.mono (later : ∀ y, st.inPhi y = true → st'.inPhi y = true)
    (handled : Handled ep tree level st z) : Handled ep tree level st' z :=
  fun y child other le => later y (handled y child other le)

theorem Closed.mono (later : ∀ c, st.visited c = true → st'.visited c = true)
    (closed : Closed tree st z) : Closed tree st' z :=
  fun c member => later c (closed c member)

theorem Adds.inPhi_mono (adds : Adds tree st st' news) (y : Block) (found : st.inPhi y = true) :
    st'.inPhi y = true := (adds.inPhi y).mpr (Or.inl found)

theorem Visits.nil (st : Idf Block) : Visits ep bbs tree level [] st st [] where
  adds := .refl st st.visited
  visited := fun _ here => here
  begun := fun _ never => absurd never not_mem_nil
  handled := fun _ here => Or.inl here
  source := fun _ never => absurd never not_mem_nil

/-- Nothing happens at a block that was visited. -/
theorem Visits.skip (seen : st.visited x = true) : Visits ep bbs tree level [x] st st [] where
  adds := .refl st st.visited
  visited := fun _ here => here
  begun := fun _ member => mem_singleton.mp member ▸ seen
  handled := fun _ here => Or.inl here
  source := fun _ never => absurd never not_mem_nil

theorem Visits.cons (first : Visits ep bbs tree level [x] st st' news)
    (second : Visits ep bbs tree level starts st' st'' news') :
    Visits ep bbs tree level (x :: starts) st st'' (news ++ news') where
  adds := first.adds.trans second.adds
  visited := fun z seen => second.visited z (first.visited z seen)
  begun := by
    intro s member
    rcases mem_cons.mp member with rfl | later
    · exact second.visited s (first.begun s mem_cons_self)
    · exact second.begun s later
  handled := by
    intro z seen
    rcases second.handled z seen with earlier | new
    · refine (first.handled z earlier).imp_right fun both => ?_
      exact ⟨both.1.mono second.adds.inPhi_mono, both.2.mono second.visited⟩
    · exact Or.inr new
  source := by
    intro y member
    rcases mem_append.mp member with here | later
    · obtain ⟨le, s, inStarts, rest⟩ := first.source y here
      exact ⟨le, s, mem_cons.mpr (Or.inl (mem_singleton.mp inStarts)), rest⟩
    · obtain ⟨le, s, inStarts, rest⟩ := second.source y later
      exact ⟨le, s, mem_cons_of_mem x inStarts, rest⟩

variable [DecidableEq Block]

/-- A visit handles the edges out of the block and everything below it in the tree. -/
theorem visit_some (correct : Correct ep bbs tree domLevels) {fuel : Nat} (member : x ∈ bbs)
    (enough : domLevels ≤ fuel + tree.domLevel x) (deep : level ≤ st.max) :
    ∃ st' news, visit ep tree fuel x level st = some st' ∧
      Visits ep bbs tree level [x] st st' news ∧ Handled ep tree level st' x ∧
        Closed tree st' x := by
  induction fuel generalizing x st with
  | zero =>
    rw [Nat.zero_add] at enough
    exact absurd (correct.levels x member) (Nat.not_lt.mpr enough)
  | succ fuel ih =>
    obtain ⟨middle, new, first, adds, visited, found, only⟩ :=
      foldlM_visitChild tree x (ep.children x)
        (show level ≤ { st with visited := Function.update st.visited x true }.max from deep)
    -- The loop over the blocks below.
    have below : ∀ (ys : List Block) (st : Idf Block), (∀ y ∈ ys, y ∈ tree.doms x) →
        level ≤ st.max →
        ∃ st' news, ys.foldlM
          (fun st y => if st.visited y then some st else visit ep tree fuel y level st) st =
            some st' ∧ Visits ep bbs tree level ys st st' news := by
      intro ys
      induction ys with
      | nil => exact fun st _ _ => ⟨st, [], rfl, .nil st⟩
      | cons y ys ihTail =>
        intro st inDoms deep
        have step : ∃ st' news,
            (if st.visited y then some st else visit ep tree fuel y level st) = some st' ∧
              Visits ep bbs tree level [y] st st' news := by
          by_cases seen : st.visited y = true
          · exact ⟨st, [], if_pos seen, .skip seen⟩
          · obtain ⟨inside, isIdom⟩ := (correct.doms x y).mp (inDoms y mem_cons_self)
            have next := (correct.of_idom inside isIdom).2.1
            obtain ⟨st', news, result, visits, -⟩ := ih inside (by omega) deep
            exact ⟨st', news, (if_neg seen).trans result, visits⟩
        obtain ⟨st1, new1, head, visits⟩ := step
        obtain ⟨st2, new2, tail, visits'⟩ := ihTail st1
          (fun z member => inDoms z (mem_cons_of_mem y member)) (visits.adds.max ▸ deep)
        refine ⟨st2, new1 ++ new2, ?_, visits.cons visits'⟩
        rw [foldlM_cons, head]
        exact tail
    obtain ⟨st', news, second, visits⟩ := below (tree.doms x) middle (fun _ member => member)
      (adds.max ▸ deep)
    have total : Adds tree st st' (new ++ news) :=
      ((Adds.refl st _).trans adds).trans visits.adds
    have handled : Handled ep tree level st' x :=
      Handled.mono visits.adds.inPhi_mono found
    have closed : Closed tree st' x := visits.begun
    have marked : ∀ z, middle.visited z = true ↔ st.visited z = true ∨ z = x := by
      intro z
      rw [visited]
      exact update_true_iff st.visited x z
    refine ⟨st', new ++ news, ?_, ⟨total, ?_, ?_, ?_, ?_⟩, handled, closed⟩
    · unfold visit
      rw [first]
      exact second
    · exact fun z seen => visits.visited z ((marked z).mpr (Or.inl seen))
    · intro s isFirst
      exact visits.visited s ((marked s).mpr (Or.inr (mem_singleton.mp isFirst)))
    · intro z seen
      rcases visits.handled z seen with earlier | new
      · rcases (marked z).mp earlier with old | rfl
        · exact Or.inl old
        · exact Or.inr ⟨handled, closed⟩
      · exact Or.inr new
    · intro y isNew
      rcases mem_append.mp isNew with here | later
      · exact ⟨(only y here).2, x, mem_cons_self, x, member, .refl x, (only y here).1⟩
      · obtain ⟨le, s, inDoms, z, reached, dominates, edge⟩ := visits.source y later
        obtain ⟨inside, isIdom⟩ := (correct.doms x s).mp inDoms
        exact ⟨le, x, mem_cons_self, z, reached,
          (correct.of_idom inside isIdom).2.2.strict.1.trans dominates, edge⟩

end Visits

end SmatchFormal.Domtree
