import SmatchFormal.Domtree.Frontier

/-!
# The loop over the bank

The levels of the blocks that are taken from the bank do not increase.  So what was handled
in an earlier visit need not be visited again, and in the end all that was in the bank has
its frontier in the result.
-/

namespace SmatchFormal.Domtree

open Dominance List

variable {Block : Type} {ep : Entrypoint Block} {bbs : List Block} {tree : Tree Block}
  {domLevels : Nat} {alpha : List Block} {st st' : Idf Block}

def Settled (ep : Entrypoint Block) (bbs : List Block) (tree : Tree Block) (st : Idf Block)
    (a : Block) : Prop :=
  ∀ z ∈ bbs, Dominates ep.Edge ep.entry a z → ∀ y ∈ ep.children z, tree.idom y ≠ some z →
    tree.domLevel y ≤ tree.domLevel a → st.inPhi y = true

structure Bank (ep : Entrypoint Block) (bbs : List Block) (tree : Tree Block) (domLevels : Nat)
    (alpha : List Block) (st : Idf Block) : Prop where
  max : st.max < domLevels
  flags : ∀ b, st.alpha b = true ↔ b ∈ alpha
  inPhi : ∀ y, y ∈ st.idf ↔ st.inPhi y = true
  nodup : st.idf.Nodup
  sound : ∀ y ∈ st.idf, y ∈ bbs ∧ IteratedFrontier ep.Edge ep.entry (· ∈ alpha) y
  lists : ∀ level, ∀ b ∈ st.lists level,
    tree.domLevel b = level ∧ level ≤ st.max ∧ (b ∈ alpha ∨ b ∈ st.idf)
  handled : ∀ z, st.visited z = true → Handled ep tree st.max st z ∧ Closed tree st z
  settled : ∀ a, a ∈ alpha ∨ a ∈ st.idf → (∃ level, a ∈ st.lists level) ∨ Settled ep bbs tree st a

theorem visited_of_dominates (correct : Correct ep bbs tree domLevels) {a z : Block}
    (closed : ∀ z, st.visited z = true → Closed tree st z) (first : st.visited a = true)
    (member : z ∈ bbs) (dominates : Dominates ep.Edge ep.entry a z) : st.visited z = true := by
  induction size : tree.domLevel z using Nat.strongRecOn generalizing z with
  | ind level ih =>
    by_cases same : a = z
    · exact same ▸ first
    · cases found : tree.idom z with
      | none =>
        rw [correct.eq_entry member found] at dominates same
        exact absurd ⟨dominates, same⟩ not_strictlyDominates_root
      | some p =>
        obtain ⟨inside, next, immediate⟩ := correct.of_idom member found
        have up := ih (tree.domLevel p) (by omega) inside
          (immediate.least a ⟨dominates, same⟩) rfl
        exact closed p up z ((correct.doms p z).mpr ⟨member, found⟩)

theorem Settled.mono {a : Block} (later : ∀ y, st.inPhi y = true → st'.inPhi y = true)
    (settled : Settled ep bbs tree st a) : Settled ep bbs tree st' a :=
  fun z member dominates y child other le => later y (settled z member dominates y child other le)

section Get

/-- What `bank_get` takes is the last block of the highest list that is not empty. -/
theorem bankGetFrom_some {level : Nat} {bb : Block} (got : bankGetFrom st level = some (bb, st')) :
    ∃ top rest, st.lists top = rest ++ [bb] ∧ top ≤ level ∧
      (∀ l, top < l → l ≤ level → st.lists l = []) ∧
      st' = { st with max := top, lists := Function.update st.lists top rest } := by
  have popped : ∀ {level}, popBb st level = some (bb, st') →
      ∃ rest, st.lists level = rest ++ [bb] ∧
        st' = { st with max := level, lists := Function.update st.lists level rest } := by
    intro level here
    obtain ⟨last, found, same⟩ := Option.map_eq_some_iff.mp here
    cases same
    refine ⟨(st.lists level).dropLast, (dropLast_append_getLast? bb found).symm, rfl⟩
  induction level with
  | zero =>
    obtain ⟨rest, list, same⟩ := popped got
    exact ⟨0, rest, list, Nat.le_refl 0, fun l above le => absurd above (Nat.not_lt.mpr le), same⟩
  | succ level ih =>
    unfold bankGetFrom at got
    cases first : popBb st (level + 1) with
    | some result =>
      rw [first, Option.some_or] at got
      obtain ⟨rest, list, same⟩ := popped (first.trans got)
      exact ⟨level + 1, rest, list, Nat.le_refl _,
        fun l above le => absurd above (Nat.not_lt.mpr le), same⟩
    | none =>
      rw [first, Option.none_or] at got
      obtain ⟨top, rest, list, le, empty, same⟩ := ih got
      refine ⟨top, rest, list, Nat.le_succ_of_le le, fun l above inside => ?_, same⟩
      rcases Nat.lt_or_ge level l with beyond | inside'
      · cases Nat.le_antisymm inside beyond
        exact List.getLast?_eq_none_iff.mp (Option.map_eq_none_iff.mp first)
      · exact empty l above inside'

theorem bankGetFrom_none {level : Nat} (got : bankGetFrom st level = none) :
    ∀ l ≤ level, st.lists l = [] := by
  induction level with
  | zero =>
    intro l le
    cases Nat.le_zero.mp le
    exact List.getLast?_eq_none_iff.mp (Option.map_eq_none_iff.mp got)
  | succ level ih =>
    unfold bankGetFrom at got
    obtain ⟨first, rest⟩ := Option.or_eq_none_iff.mp got
    intro l le
    rcases Nat.lt_or_ge level l with beyond | inside
    · cases Nat.le_antisymm le beyond
      exact List.getLast?_eq_none_iff.mp (Option.map_eq_none_iff.mp first)
    · exact ih rest l inside

end Get

section Loop

variable [DecidableEq Block]

theorem Bank.step (bank : Bank ep bbs tree domLevels alpha st)
    (correct : Correct ep bbs tree domLevels) (closed : ∀ z ∈ bbs, ∀ y ∈ ep.children z, y ∈ bbs)
    (reachable : ∀ z ∈ bbs, Reachable ep.Edge ep.entry z) (given : ∀ a ∈ alpha, a ∈ bbs)
    {bb : Block} (got : bankGet st = some (bb, st')) :
    ∃ st'', visit ep tree domLevels bb (tree.domLevel bb) st' = some st'' ∧
      Bank ep bbs tree domLevels alpha st'' ∧
      st''.size domLevels + st.idf.length < st.size domLevels + st''.idf.length := by
  obtain ⟨top, rest, list, le, empty, rfl⟩ := bankGetFrom_some got
  have taken : bb ∈ st.lists top := list ▸ mem_append_right _ mem_cons_self
  obtain ⟨rfl, -, origin⟩ := bank.lists top bb taken
  have member : bb ∈ bbs := origin.elim (given bb) fun inIdf => (bank.sound bb inIdf).1
  have deep : tree.domLevel bb ≤ ({ st with
      max := tree.domLevel bb
      lists := Function.update st.lists (tree.domLevel bb) rest } : Idf Block).max := Nat.le_refl _
  obtain ⟨st'', news, result, visits, handled, down⟩ :=
    visit_some correct member (Nat.le_add_right _ _) deep
  have later : ∀ y, st.inPhi y = true → st''.inPhi y = true := visits.adds.inPhi_mono
  have idf : st''.idf = st.idf ++ news := visits.adds.idf
  have inPhi : ∀ y, y ∈ st''.idf ↔ st''.inPhi y = true := by
    intro y
    rw [idf, mem_append, bank.inPhi]
    exact (visits.adds.inPhi y).symm
  have nodup : st''.idf.Nodup := by
    rw [idf]
    refine nodup_append.mpr ⟨bank.nodup, visits.adds.nodup, fun a old b new same => ?_⟩
    have fresh := visits.adds.fresh b new
    rw [← same] at fresh
    exact absurd ((bank.inPhi a).mp old) (Bool.eq_false_iff.mp fresh)
  have top : st''.max = tree.domLevel bb := visits.adds.max
  have flags : st''.alpha = st.alpha := visits.adds.alpha
  -- What is in the bank now.
  have kept : ∀ level b, b ∈ st.lists level → b ≠ bb → b ∈ st''.lists level := by
    intro level b old other
    refine (visits.adds.lists level b).mpr (Or.inl ?_)
    dsimp only
    by_cases here : level = tree.domLevel bb
    · rw [here, list] at old
      rw [here, Function.update_self]
      exact (mem_append.mp old).resolve_right fun last => other (mem_singleton.mp last)
    · rw [Function.update_of_ne here]
      exact old
  have still : ∀ level b, b ∈ st''.lists level → b ∈ st.lists level ∨
      b ∈ news ∧ st.alpha b = false ∧ tree.domLevel b = level := by
    intro level b inBank
    refine ((visits.adds.lists level b).mp inBank).imp_left fun old => ?_
    dsimp only at old
    by_cases here : level = tree.domLevel bb
    · rw [here, Function.update_self] at old
      rw [here, list]
      exact mem_append_left _ old
    · rw [Function.update_of_ne here] at old
      exact old
  have all : ∀ z, st''.visited z = true →
      Handled ep tree (tree.domLevel bb) st'' z ∧ Closed tree st'' z := by
    intro z seen
    rcases visits.handled z seen with earlier | new
    · obtain ⟨before, below⟩ := bank.handled z earlier
      exact ⟨fun y child other deep => later y (before y child other (Nat.le_trans deep le)),
        below.mono visits.visited⟩
    · exact new
  refine ⟨st'', result, ⟨?_, ?_, inPhi, nodup, ?_, ?_, ?_, ?_⟩, ?_⟩
  · rw [top]
    exact correct.levels bb member
  · rw [flags]
    exact bank.flags
  · intro y inIdf
    rw [idf] at inIdf
    rcases mem_append.mp inIdf with old | new
    · exact bank.sound y old
    · obtain ⟨level, s, isFirst, z, reached, dominates, edge⟩ := visits.source y new
      cases mem_singleton.mp isFirst
      have target := closed z reached y edge
      have frontier : Frontier ep.Edge ep.entry bb y :=
        ⟨⟨z, reachable z reached, dominates, edge⟩,
          (correct.not_strictlyDominates_iff member reached target edge dominates).mpr level⟩
      refine ⟨target, origin.elim (fun inAlpha => .base inAlpha frontier) fun inIdf => ?_⟩
      exact .step (bank.sound bb inIdf).2 frontier
  · intro level b inBank
    rw [top, idf]
    rcases still level b inBank with old | ⟨new, -, same⟩
    · obtain ⟨same, inside, source⟩ := bank.lists level b old
      refine ⟨same, Nat.le_of_not_lt fun above => ?_, source.imp_right (mem_append_left _)⟩
      rw [empty level above inside] at old
      exact not_mem_nil old
    · exact ⟨same, same ▸ (visits.source b new).1, Or.inr (mem_append_right _ new)⟩
  · intro z seen
    rw [top]
    exact all z seen
  · intro a inside
    have old : a ∈ alpha ∨ a ∈ st.idf →
        (∃ level, a ∈ st''.lists level) ∨ Settled ep bbs tree st'' a := by
      intro inside
      by_cases here : a = bb
      · refine Or.inr fun z reached dominates y child other deep => ?_
        rw [here] at dominates deep
        have seen := visited_of_dominates correct (fun z seen => (all z seen).2)
          (visits.begun bb mem_cons_self) reached dominates
        exact (all z seen).1 y child other deep
      · rcases bank.settled a inside with ⟨level, inBank⟩ | settled
        · exact Or.inl ⟨level, kept level a inBank here⟩
        · exact Or.inr (settled.mono later)
    rw [idf, mem_append, ← or_assoc] at inside
    rcases inside with earlier | new
    · exact old earlier
    · cases given : st.alpha a with
      | true => exact old (Or.inl ((bank.flags a).mp given))
      | false => exact Or.inl ⟨tree.domLevel a, (visits.adds.lists _ a).mpr
          (Or.inr ⟨new, given, rfl⟩)⟩
  · have shrunk := size_update st (correct.levels bb member) rest
    have grown := visits.adds.size domLevels (correct.levels bb member)
    change st''.size domLevels ≤
      Idf.size { st with lists := Function.update st.lists (tree.domLevel bb) rest } domLevels +
        news.length at grown
    rw [list, length_append] at shrunk
    rw [idf, length_append]
    have one : [bb].length = 1 := rfl
    omega

/-- When the bank is empty, the result is the iterated frontier. -/
theorem Bank.complete (bank : Bank ep bbs tree domLevels alpha st)
    (correct : Correct ep bbs tree domLevels) (given : ∀ a ∈ alpha, a ∈ bbs)
    (closed : ∀ z ∈ bbs, ∀ y ∈ ep.children z, y ∈ bbs)
    (inside : ∀ z, Reachable ep.Edge ep.entry z → z ∈ bbs) (got : bankGet st = none) (y : Block) :
    y ∈ st.idf ↔ IteratedFrontier ep.Edge ep.entry (· ∈ alpha) y := by
  refine ⟨fun inIdf => (bank.sound y inIdf).2, fun iterated => ?_⟩
  have settled : ∀ a, a ∈ alpha ∨ a ∈ st.idf → Settled ep bbs tree st a := by
    intro a source
    refine (bank.settled a source).resolve_left ?_
    rintro ⟨level, inBank⟩
    rw [bankGetFrom_none got level (bank.lists level a inBank).2.1] at inBank
    exact not_mem_nil inBank
  have next : ∀ a y, a ∈ alpha ∨ a ∈ st.idf → Frontier ep.Edge ep.entry a y → y ∈ st.idf := by
    rintro a y source ⟨⟨z, reached, dominates, edge⟩, outside⟩
    have member := inside z reached
    have root : a ∈ bbs := source.elim (given a) fun inIdf => (bank.sound a inIdf).1
    have target := closed z member y edge
    have level := (correct.not_strictlyDominates_iff root member target edge dominates).mp outside
    refine (bank.inPhi y).mpr (settled a source z member dominates y edge (fun own => ?_) level)
    -- An edge of the tree leads deeper.
    have deeper := (correct.of_idom target own).2.1
    have le : tree.domLevel a ≤ tree.domLevel z := by
      by_cases same : a = z
      · rw [same]
      · exact Nat.le_of_lt (correct.level_lt member ⟨dominates, same⟩)
    omega
  induction iterated with
  | base start frontier => exact next _ _ (Or.inl start) frontier
  | step earlier frontier ih => exact next _ _ (Or.inr ih) frontier

theorem drain_some (correct : Correct ep bbs tree domLevels) (given : ∀ a ∈ alpha, a ∈ bbs)
    (closed : ∀ z ∈ bbs, ∀ y ∈ ep.children z, y ∈ bbs)
    (reachable : ∀ z, Reachable ep.Edge ep.entry z ↔ z ∈ bbs) {fuel : Nat}
    (bank : Bank ep bbs tree domLevels alpha st)
    (enough : st.size domLevels + bbs.length < fuel + st.idf.length) :
    ∃ idf, drain ep tree domLevels fuel st = some idf ∧ idf.Nodup ∧
      ∀ y, y ∈ idf ↔ IteratedFrontier ep.Edge ep.entry (· ∈ alpha) y := by
  induction fuel generalizing st with
  | zero =>
    have short := (bank.nodup.subperm fun y inIdf => (bank.sound y inIdf).1).length_le
    omega
  | succ fuel ih =>
    unfold drain
    cases got : bankGet st with
    | none =>
      exact ⟨st.idf, rfl, bank.nodup,
        bank.complete correct given closed (fun z => (reachable z).mp) got⟩
    | some pair =>
      obtain ⟨bb, st'⟩ := pair
      obtain ⟨st'', result, bank', less⟩ :=
        bank.step correct closed (fun z => (reachable z).mpr) given got
      obtain ⟨idf, rest, property⟩ := ih bank' (by omega)
      refine ⟨idf, ?_, property⟩
      dsimp only
      rw [result]
      exact rest

structure Given (tree : Tree Block) (domLevels : Nat) (done : List Block) (st : Idf Block) :
    Prop where
  max : st.max = domLevels - 1
  idf : st.idf = []
  visited : ∀ z, st.visited z = false
  inPhi : ∀ y, st.inPhi y = false
  flags : ∀ b, st.alpha b = true ↔ b ∈ done
  lists : ∀ level b, b ∈ st.lists level ↔ b ∈ done ∧ tree.domLevel b = level
  size : st.size domLevels = done.length

theorem foldlM_putAlpha (levels : ∀ b ∈ alpha, tree.domLevel b < domLevels) :
    ∀ (rest done : List Block) (st : Idf Block), alpha = done ++ rest →
      Given tree domLevels done st →
      ∃ st', rest.foldlM (putAlpha tree) st = some st' ∧ Given tree domLevels alpha st' := by
  intro rest
  induction rest with
  | nil =>
    intro done st split given
    rw [append_nil] at split
    exact ⟨st, rfl, split ▸ given⟩
  | cons b rest ih =>
    intro done st split given
    have level : tree.domLevel b < domLevels :=
      levels b (split ▸ mem_append_right _ mem_cons_self)
    have fits : tree.domLevel b ≤ st.max := by
      rw [given.max]
      omega
    have next : Given tree domLevels (done ++ [b]) { st with
        alpha := Function.update st.alpha b true
        lists := Function.update st.lists (tree.domLevel b)
          (st.lists (tree.domLevel b) ++ [b]) } := by
      refine ⟨given.max, given.idf, given.visited, given.inPhi, fun c => ?_, fun l c => ?_, ?_⟩
      · dsimp only
        rw [update_true_iff, given.flags, mem_append, mem_singleton]
      · dsimp only
        rw [mem_append, or_and_right, ← given.lists, mem_singleton]
        by_cases here : l = tree.domLevel b
        · rw [here, Function.update_self, mem_append, mem_singleton]
          refine or_congr_right ⟨fun same => ⟨same, same ▸ rfl⟩, And.left⟩
        · rw [Function.update_of_ne here]
          refine ⟨Or.inl, fun either => either.resolve_right ?_⟩
          rintro ⟨rfl, same⟩
          exact here same.symm
      · have grown := size_update st level (st.lists (tree.domLevel b) ++ [b])
        rw [given.size, length_append] at grown
        change Idf.size { st with lists := Function.update st.lists (tree.domLevel b) _ }
          domLevels = _
        rw [length_append]
        omega
    obtain ⟨st', result, given'⟩ := ih (done ++ [b]) _ (split.trans (append_cons done b rest))
      next
    refine ⟨st', ?_, given'⟩
    rw [foldlM_cons]
    unfold putAlpha bankPut
    rw [if_pos fits]
    exact result

/-- `idf_compute` ends without failing its assertion, and returns each block of the iterated
dominance frontier once. -/
theorem idfCompute_frontier {ep : Entrypoint Block} {tree : Tree Block} {domLevels : Nat}
    (connected : ep.Connected) (correct : Correct ep ep.bbs tree domLevels) {alpha : List Block}
    (given : ∀ a ∈ alpha, a ∈ ep.bbs) {fuel : Nat} (enough : alpha.length + ep.bbs.length < fuel) :
    ∃ idf, idfCompute ep tree domLevels alpha fuel = some idf ∧ idf.Nodup ∧
      ∀ y, y ∈ idf ↔ IteratedFrontier ep.Edge ep.entry (· ∈ alpha) y := by
  obtain ⟨st, filled, start⟩ := foldlM_putAlpha (fun b member => correct.levels b (given b member))
    alpha [] ⟨domLevels - 1, fun _ => [], [], fun _ => false, fun _ => false, fun _ => false⟩ rfl
    ⟨rfl, rfl, fun _ => rfl, fun _ => rfl,
      fun b => ⟨fun never => (Bool.noConfusion never), fun never => absurd never not_mem_nil⟩,
      fun level b => ⟨fun never => absurd never not_mem_nil,
        fun never => absurd never.1 not_mem_nil⟩,
      Finset.sum_eq_zero fun _ _ => rfl⟩
  have positive := correct.levels _ connected.entry
  have bank : Bank ep ep.bbs tree domLevels alpha st := by
    refine ⟨?_, start.flags, fun y => ?_, ?_, fun y inIdf => ?_, fun level b inBank => ?_,
      fun z seen => ?_, fun a source => ?_⟩
    · rw [start.max]
      omega
    · rw [start.idf, start.inPhi y]
      exact ⟨fun never => absurd never not_mem_nil, fun never => (Bool.noConfusion never)⟩
    · rw [start.idf]
      exact nodup_nil
    · rw [start.idf] at inIdf
      exact absurd inIdf not_mem_nil
    · obtain ⟨inAlpha, same⟩ := (start.lists level b).mp inBank
      refine ⟨same, ?_, Or.inl inAlpha⟩
      have less := correct.levels b (given b inAlpha)
      rw [start.max]
      omega
    · rw [start.visited z] at seen
      cases seen
    · rw [start.idf] at source
      have inAlpha := source.resolve_right not_mem_nil
      exact Or.inl ⟨tree.domLevel a, (start.lists _ a).mpr ⟨inAlpha, rfl⟩⟩
  have inside : ∀ z, Reachable ep.Edge ep.entry z ↔ z ∈ ep.bbs := by
    refine fun z => ⟨?_, connected.reachable z⟩
    rintro ⟨nodes, path⟩
    exact connected.path_subset path path.last_mem
  obtain ⟨idf, result, property⟩ := drain_some correct given connected.closed inside bank
    (by rw [start.size, start.idf]; exact enough)
  refine ⟨idf, ?_, property⟩
  unfold idfCompute
  rw [filled]
  exact result

def crossingTree : Tree Nat where
  idom
    | 1 => some 0
    | 2 => some 0
    | _ => none
  doms
    | 0 => [1, 2]
    | _ => []
  domLevel
    | 1 => 1
    | 2 => 1
    | _ => 0

theorem crossingTree_correct : Correct crossing crossing.bbs crossingTree 2 where
  entry := rfl
  idom := by
    intro b member other
    have isIdom : ∀ c ∈ crossing.children 0, 0 ≠ c →
        ImmediatelyDominates crossing.Edge crossing.entry 0 c := by
      refine fun c child different => ⟨⟨.of_root c, different⟩, fun a strict => ?_⟩
      have short := strict.1 [c, 0] (.step .start child)
      have same := mem_singleton.mp ((mem_cons.mp short).resolve_left strict.2)
      exact same ▸ .refl a
    rcases mem_cons.mp member with rfl | rest
    · exact absurd rfl other
    · refine ⟨0, ?_, mem_cons_self, isIdom b rest (Ne.symm other)⟩
      rcases mem_cons.mp rest with rfl | last
      · rfl
      · cases mem_singleton.mp last
        rfl
  doms := by
    intro d c
    constructor
    · intro member
      cases d with
      | zero =>
        rcases mem_cons.mp member with rfl | rest
        · exact ⟨by decide, rfl⟩
        · cases mem_singleton.mp rest
          exact ⟨by decide, rfl⟩
      | succ d => cases member
    · rintro ⟨member, found⟩
      rcases mem_cons.mp member with rfl | rest
      · cases found
      · rcases mem_cons.mp rest with rfl | last
        · cases found
          exact mem_cons_self
        · cases mem_singleton.mp last
          cases found
          exact mem_cons_of_mem _ mem_cons_self
  nodup := by
    intro d
    cases d with
    | zero => decide
    | succ d => exact nodup_nil
  level := by decide
  levels := by decide

/-- Each of both blocks is in the frontier of the other one. -/
theorem idfCompute_frontier_crossing :
    ∃ idf, idfCompute crossing crossingTree 2 [1] 5 = some idf ∧ idf.Nodup ∧
      ∀ y, y ∈ idf ↔ IteratedFrontier crossing.Edge crossing.entry (· ∈ [1]) y :=
  idfCompute_frontier crossing_connected crossingTree_correct (by decide) (by decide)

end Loop

end SmatchFormal.Domtree
