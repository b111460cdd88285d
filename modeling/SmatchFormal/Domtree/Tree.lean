import SmatchFormal.Domtree.Rounds

/-!
# The dominator tree

`domtree_build` leaves a tree of the immediate dominators, and `domtree_dominates` finds in
it whether a block dominates another one.
-/

namespace SmatchFormal.Domtree

open Dominance List Function

variable {Block : Type} {ep : Entrypoint Block} {bbs : List Block} {tree : Tree Block}
  {domLevels : Nat}

/-- The links of all blocks are those of the tree of immediate dominators. -/
structure Correct (ep : Entrypoint Block) (bbs : List Block) (tree : Tree Block)
    (domLevels : Nat) : Prop where
  entry : tree.idom ep.entry = none
  idom : ∀ b ∈ bbs, b ≠ ep.entry → ∃ d, tree.idom b = some d ∧ d ∈ bbs ∧
    ImmediatelyDominates ep.Edge ep.entry d b
  doms : ∀ d c, c ∈ tree.doms d ↔ c ∈ bbs ∧ tree.idom c = some d
  nodup : ∀ d, (tree.doms d).Nodup
  level : ∀ b ∈ bbs, tree.domLevel b = (tree.idom b).elim 0 fun d => tree.domLevel d + 1
  levels : ∀ b ∈ bbs, tree.domLevel b < domLevels

namespace Correct

variable {a b d : Block}

section

variable (correct : Correct ep bbs tree domLevels) (member : b ∈ bbs)
include correct member

theorem of_idom (found : tree.idom b = some d) :
    d ∈ bbs ∧ tree.domLevel b = tree.domLevel d + 1 ∧
      ImmediatelyDominates ep.Edge ep.entry d b := by
  have other : b ≠ ep.entry := by
    rintro rfl
    exact absurd (correct.entry.symm.trans found).symm (Option.some_ne_none d)
  obtain ⟨d', found', inside, immediate⟩ := correct.idom b member other
  cases found.symm.trans found'
  refine ⟨inside, ?_, immediate⟩
  rw [correct.level b member, found]
  rfl

theorem eq_entry (nothing : tree.idom b = none) : b = ep.entry := by
  by_contra other
  obtain ⟨d, found, -⟩ := correct.idom b member other
  exact absurd (found.symm.trans nothing) (Option.some_ne_none d)

theorem level_lt (strict : StrictlyDominates ep.Edge ep.entry a b) :
    tree.domLevel a < tree.domLevel b := by
  induction size : tree.domLevel b generalizing b with
  | zero =>
    cases found : tree.idom b with
    | none =>
      rw [correct.eq_entry member found] at strict
      exact absurd strict not_strictlyDominates_root
    | some d =>
      rw [(correct.of_idom member found).2.1] at size
      cases size
  | succ level ih =>
    cases found : tree.idom b with
    | none =>
      rw [correct.eq_entry member found] at strict
      exact absurd strict not_strictlyDominates_root
    | some d =>
      obtain ⟨inside, next, immediate⟩ := correct.of_idom member found
      have here : tree.domLevel d = level := Nat.succ.inj (next.symm.trans size)
      by_cases same : a = d
      · rw [same, here]
        exact Nat.lt_succ_self level
      · exact Nat.lt_succ_of_lt (ih inside ⟨immediate.least a strict, same⟩ here)

end

variable [DecidableEq Block] {fuel : Nat}

theorem walkUp_some (correct : Correct ep bbs tree domLevels) (member : b ∈ bbs)
    (enough : tree.domLevel b + 2 ≤ fuel) :
    ∃ result, walkUp tree a fuel (some b) = some result ∧
      (result = true ↔ Dominates ep.Edge ep.entry a b) := by
  induction fuel generalizing b with
  | zero => exact absurd enough (Nat.not_succ_le_zero _)
  | succ fuel ih =>
    unfold walkUp
    by_cases same : b = a
    · rw [if_pos same, same]
      exact ⟨true, rfl, fun _ => .refl a, fun _ => rfl⟩
    · rw [if_neg same]
      cases found : tree.idom b with
      | none =>
        obtain ⟨rest, rfl⟩ := Nat.exists_eq_succ_of_ne_zero
          (Nat.ne_of_gt (Nat.lt_of_lt_of_le (Nat.succ_pos _) (Nat.le_of_succ_le_succ enough)))
        refine ⟨false, rfl, fun never => (Bool.noConfusion never), fun dominates => ?_⟩
        rw [correct.eq_entry member found] at same dominates
        exact absurd ⟨dominates, Ne.symm same⟩ not_strictlyDominates_root
      | some d =>
        obtain ⟨inside, next, immediate⟩ := correct.of_idom member found
        rw [next] at enough
        obtain ⟨result, walked, iff⟩ := ih inside (Nat.le_of_succ_le_succ enough)
        refine ⟨result, walked, iff.trans ⟨fun up => up.trans immediate.strict.1, ?_⟩⟩
        exact fun dominates => immediate.least a ⟨dominates, Ne.symm same⟩

theorem domtreeDominates_some (correct : Correct ep bbs tree domLevels)
    (reachable : ∀ b ∈ bbs, Reachable ep.Edge ep.entry b) (first : a ∈ bbs) (second : b ∈ bbs)
    (enough : domLevels ≤ fuel) :
    ∃ result, domtreeDominates tree fuel a b = some result ∧
      (result = true ↔ Dominates ep.Edge ep.entry a b) := by
  unfold domtreeDominates
  by_cases same : a = b
  · rw [if_pos same, same]
    exact ⟨true, rfl, fun _ => .refl b, fun _ => rfl⟩
  · by_cases isIdom : some a = tree.idom b
    · rw [if_neg same, if_pos isIdom]
      have immediate := (correct.of_idom second isIdom.symm).2.2
      exact ⟨true, rfl, fun _ => immediate.strict.1, fun _ => rfl⟩
    · by_cases above : some b = tree.idom a
      · rw [if_neg same, if_neg isIdom, if_pos above]
        have immediate := (correct.of_idom first above.symm).2.2
        refine ⟨false, rfl, fun never => (Bool.noConfusion never), fun dominates => ?_⟩
        exact absurd (dominates.antisymm (reachable b second) immediate.strict.1) same
      · by_cases deeper : tree.domLevel a ≥ tree.domLevel b
        · rw [if_neg same, if_neg isIdom, if_neg above, if_pos deeper]
          refine ⟨false, rfl, fun never => (Bool.noConfusion never), fun dominates => ?_⟩
          exact absurd (correct.level_lt second ⟨dominates, same⟩) (Nat.not_lt.mpr deeper)
        · rw [if_neg same, if_neg isIdom, if_neg above, if_neg deeper]
          cases found : tree.idom b with
          | none =>
            have top := correct.level b second
            rw [found] at top
            exact absurd (Nat.zero_le _) (top ▸ deeper)
          | some d =>
            obtain ⟨inside, next, immediate⟩ := correct.of_idom second found
            have level := correct.levels b second
            have enough : tree.domLevel d + 2 ≤ fuel := by omega
            obtain ⟨result, walked, iff⟩ := correct.walkUp_some inside enough
            refine ⟨result, walked, iff.trans ⟨fun up => up.trans immediate.strict.1, ?_⟩⟩
            exact fun dominates => immediate.least a ⟨dominates, same⟩

end Correct

section Links

variable [DecidableEq Block] {number : Block → Nat} {doms : Nat → Option Block}

structure Linked (ep : Entrypoint Block) (number : Block → Nat) (doms : Nat → Option Block)
    (done : List Block) (tree : Tree Block) : Prop where
  idom : ∀ b, tree.idom b = if b ∈ done ∧ b ≠ ep.entry then doms (number b) else none
  doms : ∀ d, tree.doms d = done.filter fun c => c ≠ ep.entry ∧ doms (number c) = some d

theorem foldlM_setIdom (known : ∀ b ∈ bbs, b ≠ ep.entry → doms (number b) ≠ none) :
    ∀ (rest done : List Block) (tree : Tree Block), bbs = done ++ rest → bbs.Nodup →
      Linked ep number doms done tree →
      ∃ tree', rest.foldlM (setIdom ep number doms) tree = some tree' ∧
        Linked ep number doms bbs tree' := by
  intro rest
  induction rest with
  | nil =>
    intro done tree split _ linked
    rw [append_nil] at split
    exact ⟨tree, rfl, split ▸ linked⟩
  | cons b rest ih =>
    intro done tree split nodup linked
    have member : b ∈ bbs := split ▸ mem_append_right _ mem_cons_self
    have fresh : b ∉ done := by
      intro before
      rw [split] at nodup
      exact (nodup_append.mp nodup).2.2 b before b mem_cons_self rfl
    have step : ∃ middle, setIdom ep number doms tree b = some middle ∧
        Linked ep number doms (done ++ [b]) middle := by
      unfold setIdom
      by_cases entry : b = ep.entry
      · refine ⟨tree, if_pos entry, fun c => ?_, fun d => ?_⟩
        · rw [linked.idom c]
          refine if_congr ?_ rfl rfl
          rw [mem_append, mem_singleton]
          constructor
          · rintro ⟨before, other⟩
            exact ⟨Or.inl before, other⟩
          · rintro ⟨before | here, other⟩
            · exact ⟨before, other⟩
            · exact absurd (here.trans entry) other
        · rw [linked.doms d, filter_append, filter_cons_of_neg, filter_nil,
            append_nil]
          rw [decide_eq_true_eq]
          exact fun both => both.1 entry
      · obtain ⟨d, found⟩ := Option.ne_none_iff_exists'.mp (known b member entry)
        rw [if_neg entry, found]
        refine ⟨_, rfl, fun c => ?_, fun d' => ?_⟩
        · dsimp only
          by_cases here : c = b
          · rw [here, update_self,
              if_pos ⟨mem_append_right _ mem_cons_self, entry⟩, found]
          · rw [update_of_ne here, linked.idom c]
            refine if_congr (and_congr_left' ?_) rfl rfl
            rw [mem_append, mem_singleton, or_iff_left here]
        · dsimp only
          rw [filter_append]
          by_cases here : d' = d
          · rw [here, update_self, linked.doms d, filter_cons_of_pos, filter_nil]
            rw [decide_eq_true_eq]
            exact ⟨entry, found⟩
          · rw [update_of_ne here, linked.doms d', filter_cons_of_neg,
              filter_nil, append_nil]
            rw [decide_eq_true_eq]
            exact fun both => here (Option.some.inj (both.2.symm.trans found))
    obtain ⟨middle, first, linked⟩ := step
    obtain ⟨tree', result, linked⟩ :=
      ih (done ++ [b]) middle (split.trans (append_cons done b rest)) nodup linked
    refine ⟨tree', ?_, linked⟩
    rw [foldlM_cons, first]
    exact result

structure Levelled (idom : Block → Option Block) (done : List Block) (tree : Tree Block) :
    Prop where
  same : tree.idom = idom
  closed : ∀ b ∈ done, ∀ d, idom b = some d → d ∈ done
  level : ∀ b ∈ done, tree.domLevel b = (idom b).elim 0 fun d => tree.domLevel d + 1

/-- Each block gets its level after its immediate dominator. -/
theorem foldl_setLevel {idom : Block → Option Block} (nodup : bbs.Nodup)
    (earlier : ∀ done b rest, bbs = done ++ b :: rest → ∀ d, idom b = some d → d ∈ done) :
    ∀ (rest done : List Block) (tree : Tree Block), bbs = done ++ rest →
      Levelled idom done tree → Levelled idom bbs (rest.foldl setLevel tree) ∧
        (rest.foldl setLevel tree).doms = tree.doms := by
  intro rest
  induction rest with
  | nil =>
    intro done tree split levelled
    rw [append_nil] at split
    exact ⟨split ▸ levelled, rfl⟩
  | cons b rest ih =>
    intro done tree split levelled
    have fresh : b ∉ done := by
      intro before
      rw [split] at nodup
      exact (nodup_append.mp nodup).2.2 b before b mem_cons_self rfl
    have kept : ∀ c ∈ done, (setLevel tree b).domLevel c = tree.domLevel c := fun c before =>
      update_of_ne (fun same => fresh (by rw [← same]; exact before)) _ _
    have next : Levelled idom (done ++ [b]) (setLevel tree b) := by
      refine ⟨levelled.same, fun c inside d found => ?_, fun c inside => ?_⟩
      · refine mem_append_left _ ?_
        rcases mem_append.mp inside with before | last
        · exact levelled.closed c before d found
        · cases mem_singleton.mp last
          exact earlier done b rest split d found
      · rcases mem_append.mp inside with before | last
        · rw [kept c before, levelled.level c before]
          cases found : idom c with
          | none => rfl
          | some d => exact congrArg Nat.succ (kept d (levelled.closed c before d found)).symm
        · cases mem_singleton.mp last
          have own : (setLevel tree b).domLevel b =
              (tree.idom b).elim 0 fun d => tree.domLevel d + 1 := by
            refine (update_self _ _ _).trans ?_
            cases tree.idom b <;> rfl
          rw [own, levelled.same]
          cases found : idom b with
          | none => rfl
          | some d => exact congrArg Nat.succ (kept d (earlier done b rest split d found)).symm
    exact ih (done ++ [b]) (setLevel tree b) (split.trans (append_cons done b rest)) next

theorem le_foldl_max {l : List Nat} {n : Nat} :
    n ≤ l.foldl max n ∧ ∀ m ∈ l, m ≤ l.foldl max n := by
  induction l generalizing n with
  | nil => exact ⟨Nat.le_refl n, fun m never => absurd never not_mem_nil⟩
  | cons head l ih =>
    refine ⟨Nat.le_trans (Nat.le_max_left n head) (ih (n := max n head)).1, fun m member => ?_⟩
    rcases mem_cons.mp member with rfl | later
    · exact Nat.le_trans (Nat.le_max_right n m) (ih (n := max n m)).1
    · exact (ih (n := max n head)).2 m later

/-- `domtree_build` ends with the immediate dominators as links and with each block after its
immediate dominator, and then `domtree_dominates` is dominance. -/
theorem domtreeBuild_correct {ep : Entrypoint Block} (connected : ep.Connected) {fuel : Nat}
    (enough : 2 * ep.bbs.length + 2 ≤ fuel) :
    ∃ built, domtreeBuild ep fuel = some built ∧
      (built.bbs.Nodup ∧ ∀ b, b ∈ built.bbs ↔ b ∈ ep.bbs) ∧
      Correct ep built.bbs built.tree built.domLevels ∧
      (∀ b ∈ built.bbs, ∀ d, built.tree.idom b = some d →
        built.bbs.idxOf d < built.bbs.idxOf b) ∧
      ∀ a ∈ ep.bbs, ∀ b ∈ ep.bbs, ∀ fuel, built.domLevels ≤ fuel →
        ∃ result, domtreeDominates built.tree fuel a b = some result ∧
          (result = true ↔ Dominates ep.Edge ep.entry a b) := by
  obtain ⟨bbs, number, walked, numbered⟩ := cfgPostorder_numbered connected
    (show ep.bbs.length < fuel by omega)
  have size : bbs.length ≤ ep.bbs.length :=
    (numbered.nodup.subperm fun b member => (numbered.mem b).mp member).length_le
  have last := numbered.last
  have entry : ep.entry ∈ bbs := (numbered.mem _).mpr connected.entry
  have start : Stage ep bbs number
      (Function.update (fun _ => none) (bbs.length - 1) (some ep.entry)) 0 := by
    have top : bbs.length - 1 = number ep.entry := by omega
    have own : ∀ b ∈ bbs, ∀ d,
        Function.update (fun _ => none) (bbs.length - 1) (some ep.entry) (number b) = some d →
          b = ep.entry ∧ d = ep.entry := by
      intro b member d found
      by_cases here : b = ep.entry
      · rw [here, top, update_self] at found
        exact ⟨here, (Option.some.inj found).symm⟩
      · rw [top, update_other numbered entry member here] at found
        exact absurd found.symm (Option.some_ne_none d)
    refine ⟨⟨?_, fun b member d found => ?_, fun b member other d found => ?_,
      fun b member other d found => ?_⟩, fun b member other d found => ?_, absurd rfl⟩
    · rw [top, update_self]
    · obtain ⟨-, rfl⟩ := own b member d found
      refine ⟨entry, ?_⟩
      rw [top, update_self]
      exact Option.some_ne_none _
    · exact absurd (own b member d found).1 other
    · exact absurd (own b member d found).1 other
    · exact absurd (own b member d found).1 other
  obtain ⟨doms, finished, immediate⟩ := rounds_immediate connected numbered
    (show 2 * number ep.entry < fuel by omega) (Nat.zero_le _)
    (show bbs.length < fuel + 0 by omega) start
  have known : ∀ b ∈ bbs, b ≠ ep.entry → doms (number b) ≠ none := by
    intro b member other
    obtain ⟨d, found, -⟩ := immediate b member other
    rw [found]
    exact Option.some_ne_none d
  obtain ⟨tree, linkedUp, linked⟩ := foldlM_setIdom known bbs [] ⟨fun _ => none, fun _ => [],
    fun _ => 0⟩ rfl numbered.nodup ⟨fun b => (if_neg fun both => not_mem_nil both.1).symm,
      fun d => rfl⟩
  have unset : Function.update tree.idom ep.entry none = tree.idom := by
    have nothing : tree.idom ep.entry = none :=
      (linked.idom _).trans (if_neg fun both => both.2 rfl)
    rw [← nothing, update_eq_self]
  have links : ∀ b d, tree.idom b = some d → b ∈ bbs ∧ b ≠ ep.entry ∧ d ∈ bbs ∧
      number b < number d ∧ ImmediatelyDominates ep.Edge ep.entry d b := by
    intro b d found
    rw [linked.idom b] at found
    obtain ⟨⟨member, other⟩, found⟩ := Option.ite_none_right_eq_some.mp found
    obtain ⟨d', found', rest⟩ := immediate b member other
    cases found.symm.trans found'
    exact ⟨member, other, rest⟩
  have earlier : ∀ done b rest, bbs = done ++ b :: rest → ∀ d, tree.idom b = some d → d ∈ done := by
    intro done b rest split d found
    obtain ⟨-, -, inside, higher, -⟩ := links b d found
    exact numbered.mem_of_lt split inside higher
  obtain ⟨levelled, kept⟩ := foldl_setLevel numbered.nodup earlier bbs [] tree rfl
    ⟨rfl, fun b never => absurd never not_mem_nil,
      fun b never => absurd never not_mem_nil⟩
  have correct : Correct ep bbs (bbs.foldl setLevel tree)
      ((bbs.map (bbs.foldl setLevel tree).domLevel).foldl max 0 + 1) := by
    refine ⟨?_, ?_, ?_, ?_, ?_, ?_⟩
    · rw [levelled.same, linked.idom]
      exact if_neg fun both => both.2 rfl
    · intro b member other
      obtain ⟨d, found, inside, -, isIdom⟩ := immediate b member other
      refine ⟨d, ?_, inside, isIdom⟩
      rw [levelled.same, linked.idom, if_pos ⟨member, other⟩, found]
    · intro d c
      rw [kept, levelled.same, linked.doms d, mem_filter, decide_eq_true_eq, linked.idom c,
        Option.ite_none_right_eq_some]
      constructor
      · rintro ⟨member, other, found⟩
        exact ⟨member, ⟨member, other⟩, found⟩
      · rintro ⟨member, ⟨-, other⟩, found⟩
        exact ⟨member, other, found⟩
    · intro d
      rw [kept, linked.doms d]
      exact numbered.nodup.filter _
    · intro b member
      rw [levelled.same]
      exact levelled.level b member
    · intro b member
      exact Nat.lt_succ_of_le (le_foldl_max.2 _ (mem_map_of_mem member))
  refine ⟨⟨bbs, bbs.foldl setLevel tree,
    (bbs.map (bbs.foldl setLevel tree).domLevel).foldl max 0 + 1⟩, ?_,
    ⟨numbered.nodup, numbered.mem⟩, correct, ?_, ?_⟩
  · unfold domtreeBuild
    rw [walked]
    dsimp only [Option.bind_some]
    rw [if_pos last, finished]
    dsimp only [Option.bind_some]
    rw [linkedUp, Option.map_some, unset]
  · intro b member d found
    dsimp only at member found ⊢
    rw [levelled.same] at found
    obtain ⟨before, after, split⟩ := append_of_mem member
    have inBefore := earlier before b after split d found
    have fresh : b ∉ before := by
      intro here
      have nodup := numbered.nodup
      rw [split] at nodup
      exact (nodup_append.mp nodup).2.2 b here b mem_cons_self rfl
    rw [split, idxOf_append_of_mem inBefore, idxOf_append_of_notMem fresh,
      idxOf_cons_self]
    exact Nat.lt_of_lt_of_le (idxOf_lt_length_of_mem inBefore) (Nat.le_add_right _ _)
  · intro a first b second fuel enough
    exact correct.domtreeDominates_some
      (fun b member => connected.reachable b ((numbered.mem b).mp member))
      ((numbered.mem a).mpr first) ((numbered.mem b).mpr second) enough

/-- Two blocks that branch to each other are both reached from the entry. -/
def crossing : Entrypoint Nat where
  entry := 0
  bbs := [0, 1, 2]
  children
    | 0 => [1, 2]
    | 1 => [2]
    | 2 => [1]
    | _ => []
  parents
    | 1 => [0, 2]
    | 2 => [0, 1]
    | _ => []

theorem crossing_connected : crossing.Connected where
  entry := by decide
  closed := by decide
  parents := by decide
  inverse := by decide
  reachable := by
    intro b member
    have first : ∀ c, c ∈ crossing.children 0 → Reachable crossing.Edge crossing.entry c :=
      fun c child => reachable_root.step child
    rcases mem_cons.mp member with rfl | rest
    · exact reachable_root
    · exact first b rest

theorem domtreeBuild_correct_crossing :
    ∃ built, domtreeBuild crossing 8 = some built ∧
      Correct crossing built.bbs built.tree built.domLevels := by
  obtain ⟨built, result, -, correct, -⟩ := domtreeBuild_correct crossing_connected
    (show 2 * crossing.bbs.length + 2 ≤ 8 by decide)
  exact ⟨built, result, correct⟩

end Links

end SmatchFormal.Domtree
