import SmatchFormal.Domtree.Postorder
import Mathlib.Data.List.Perm.Subperm

/-!
# Building the dominator tree

`domtree_build` computes the immediate dominators in rounds over the blocks in reverse
postorder.  A candidate is only known by its number, and `intersect_dom` walks up from two
blocks to a common candidate.

A candidate is always dominated by all strict dominators of its block.  After some rounds
all candidates are on all paths of at most that length, and so they dominate their blocks
when there are as many rounds as blocks, or when a round changes nothing.
-/

namespace SmatchFormal.Domtree

open List

section Build

variable {Block : Type} [DecidableEq Block]

/-- `intersect_dom`, with a bound on the number of steps.  The inner loops are taken together: the
block with the smaller number is replaced. -/
def intersectDom (number : Block → Nat) (doms : Nat → Option Block) :
    Nat → Block → Block → Option Block
  | 0, _, _ => none
  | fuel + 1, b1, b2 =>
    if number b1 < number b2 then
      (doms (number b1)).bind fun b1 => intersectDom number doms fuel b1 b2
    else if number b2 < number b1 then
      (doms (number b2)).bind fun b2 => intersectDom number doms fuel b1 b2
    else some b1

def nextIdom (number : Block → Nat) (doms : Nat → Option Block) (fuel : Nat)
    (newIdom : Option Block) (p : Block) : Option (Option Block) :=
  match doms (number p) with
  | none => some newIdom
  | some _ =>
    match newIdom with
    | none => some (some p)
    | some newIdom => (intersectDom number doms fuel p newIdom).map some

structure Round (Block : Type) where
  doms : Nat → Option Block
  changed : Bool

/-- One turn of the loop over the blocks.  There is no result when the assertion fails. -/
def updateDom (ep : Entrypoint Block) (number : Block → Nat) (fuel : Nat) (round : Round Block)
    (b : Block) : Option (Round Block) :=
  if b = ep.entry then some round
  else
    ((ep.parents b).foldlM (nextIdom number round.doms fuel) none).bind fun newIdom =>
      newIdom.map fun newIdom =>
        if round.doms (number b) ≠ some newIdom then
          ⟨Function.update round.doms (number b) (some newIdom), true⟩
        else round

def rounds (ep : Entrypoint Block) (bbs : List Block) (number : Block → Nat) (size : Nat) :
    Nat → (Nat → Option Block) → Option (Nat → Option Block)
  | 0, _ => none
  | fuel + 1, doms =>
    (bbs.foldlM (updateDom ep number size) ⟨doms, false⟩).bind fun round =>
      if round.changed then rounds ep bbs number size fuel round.doms else some round.doms

structure Tree (Block : Type) where
  idom : Block → Option Block
  doms : Block → List Block
  domLevel : Block → Nat

def setIdom (ep : Entrypoint Block) (number : Block → Nat) (doms : Nat → Option Block)
    (tree : Tree Block) (bb : Block) : Option (Tree Block) :=
  if bb = ep.entry then some tree
  else
    (doms (number bb)).map fun idom =>
      { tree with
        idom := Function.update tree.idom bb (some idom)
        doms := Function.update tree.doms idom (tree.doms idom ++ [bb]) }

def setLevel (tree : Tree Block) (bb : Block) : Tree Block :=
  { tree with
    domLevel := Function.update tree.domLevel bb
      (match tree.idom bb with
      | some idom => tree.domLevel idom + 1
      | none => 0) }

/-- The result of `domtree_build`: the blocks in the new order, the tree and the number of
levels. -/
structure Built (Block : Type) where
  bbs : List Block
  tree : Tree Block
  domLevels : Nat

/-- `domtree_build`, where the loops and the recursion are bounded. -/
def domtreeBuild (ep : Entrypoint Block) (fuel : Nat) : Option (Built Block) :=
  (cfgPostorder ep fuel).bind fun (bbs, number) =>
    if number ep.entry + 1 = bbs.length then
      (rounds ep bbs number fuel fuel
        (Function.update (fun _ => none) (bbs.length - 1) (some ep.entry))).bind fun doms =>
          (bbs.foldlM (setIdom ep number doms) ⟨fun _ => none, fun _ => [], fun _ => 0⟩).map
            fun tree =>
              let levelled := bbs.foldl setLevel
                { tree with idom := Function.update tree.idom ep.entry none }
              ⟨bbs, levelled, (bbs.map levelled.domLevel).foldl max 0 + 1⟩
    else none

def walkUp (tree : Tree Block) (a : Block) : Nat → Option Block → Option Bool
  | 0, _ => none
  | _ + 1, none => some false
  | fuel + 1, some b => if b = a then some true else walkUp tree a fuel (tree.idom b)

def domtreeDominates (tree : Tree Block) (fuel : Nat) (a b : Block) : Option Bool :=
  if a = b then some true
  else if some a = tree.idom b then some true
  else if some b = tree.idom a then some false
  else if tree.domLevel a ≥ tree.domLevel b then some false
  else walkUp tree a fuel (tree.idom b)

end Build

open Dominance

variable {Block : Type} {ep : Entrypoint Block} {bbs : List Block} {number : Block → Nat}

theorem Entrypoint.Connected.path_subset (connected : ep.Connected) {nodes : List Block} {b : Block}
    (path : Path ep.Edge ep.entry nodes b) : nodes ⊆ ep.bbs := by
  induction path with
  | start => exact cons_subset.mpr ⟨connected.entry, nil_subset _⟩
  | step path next ih =>
    exact cons_subset.mpr ⟨connected.closed _ (ih path.last_mem) _ next, ih⟩

section Numbers

variable {a b : Block}

section

variable (numbered : Numbered ep bbs number)
include numbered

theorem Numbered.injective (first : a ∈ bbs) (second : b ∈ bbs) (same : number a = number b) :
    a = b := by
  by_contra different
  obtain ⟨i, inside, rfl⟩ := mem_iff_getElem.mp first
  obtain ⟨j, inside', rfl⟩ := mem_iff_getElem.mp second
  have sorted := pairwise_iff_getElem.mp numbered.sorted
  rcases Nat.lt_trichotomy i j with less | equal | more
  · exact absurd same (Nat.ne_of_gt (sorted i j inside inside' less))
  · subst equal
    exact different rfl
  · exact absurd same (Nat.ne_of_lt (sorted j i inside' inside more))

/-- A dominator does not have a smaller number. -/
theorem Numbered.le_of_dominates (member : b ∈ bbs) (dominates : Dominates ep.Edge ep.entry a b) :
    number b ≤ number a := by
  obtain ⟨nodes, path, above⟩ := numbered.path b member
  exact above a (dominates nodes path)

theorem Numbered.le_entry (member : b ∈ bbs) :
    number b ≤ number ep.entry := numbered.le_of_dominates member (.of_root b)

/-- Every block but the entry has a parent that comes before it. -/
theorem Numbered.earlier_parent (connected : ep.Connected) (member : b ∈ bbs)
    (other : b ≠ ep.entry) :
    ∃ p ∈ ep.parents b, p ∈ bbs ∧ number b < number p := by
  obtain ⟨nodes, path, above⟩ := numbered.path b member
  obtain ⟨part, simple, nodup, subset⟩ := path.simple
  cases simple with
  | start => exact absurd rfl other
  | @step nodes' p _ path' next =>
    have inside : p ∈ bbs := (numbered.mem p).mpr (connected.path_subset path' path'.last_mem)
    have le := above p (subset (mem_cons_of_mem b path'.last_mem))
    refine ⟨p, ?_, inside, Nat.lt_of_le_of_ne le fun same => ?_⟩
    · exact (connected.inverse p ((numbered.mem p).mp inside) b ((numbered.mem b).mp member)).mp
        next
    · rw [numbered.injective member inside same] at nodup
      exact (nodup_cons.mp nodup).1 path'.last_mem

theorem Numbered.mem_of_lt {before after : List Block} (split : bbs = before ++ b :: after)
    (member : a ∈ bbs) (higher : number b < number a) :
    a ∈ before := by
  have sorted := numbered.sorted
  rw [split] at member sorted
  rcases mem_append.mp member with earlier | rest
  · exact earlier
  · rcases mem_cons.mp rest with same | later
    · rw [same] at higher
      exact absurd higher (Nat.lt_irrefl _)
    · have lower := (pairwise_cons.mp (pairwise_append.mp sorted).2.1).1 a later
      exact absurd higher (Nat.lt_asymm lower)

end

end Numbers

/-- What holds of the array `doms` from the first round on. -/
structure Sane (ep : Entrypoint Block) (bbs : List Block) (number : Block → Nat)
    (doms : Nat → Option Block) : Prop where
  entry : doms (number ep.entry) = some ep.entry
  range : ∀ b ∈ bbs, ∀ d, doms (number b) = some d → d ∈ bbs ∧ doms (number d) ≠ none
  above : ∀ b ∈ bbs, b ≠ ep.entry → ∀ d, doms (number b) = some d → number b < number d
  least : ∀ b ∈ bbs, b ≠ ep.entry → ∀ d, doms (number b) = some d →
    ∀ a, StrictlyDominates ep.Edge ep.entry a b → Dominates ep.Edge ep.entry a d

inductive Up (number : Block → Nat) (doms : Nat → Option Block) (r : Block) : Block → Prop
  | refl : Up number doms r r
  | up {b d : Block} (found : doms (number b) = some d) (rest : Up number doms r d) :
      Up number doms r b

def OnPaths (ep : Entrypoint Block) (k : Nat) (b x : Block) : Prop :=
  ∀ nodes, Path ep.Edge ep.entry nodes b → nodes.length ≤ k → x ∈ nodes

/-- What is on the paths to a candidate is on the paths to its block. -/
def Fits (ep : Entrypoint Block) (number : Block → Nat) (doms : Nat → Option Block) (k l : Nat)
    (b : Block) : Prop :=
  ∀ d, doms (number b) = some d → ∀ x, OnPaths ep k d x → OnPaths ep l b x

section Candidates

variable {doms : Nat → Option Block} {b d r x : Block} {k l fuel : Nat}

theorem OnPaths.mono (le : k ≤ l) (on : OnPaths ep l b x) : OnPaths ep k b x :=
  fun nodes path short => on nodes path (Nat.le_trans short le)

theorem OnPaths.self (k : Nat) (b : Block) : OnPaths ep k b b := fun _ path _ => path.last_mem

/-- The number of the nodes of a simple path is at most the number of blocks. -/
theorem dominates_of_onPaths (connected : ep.Connected) (numbered : Numbered ep bbs number)
    (on : OnPaths ep bbs.length b x) : Dominates ep.Edge ep.entry x b := by
  intro nodes path
  obtain ⟨part, simple, nodup, subset⟩ := path.simple
  have inside : part ⊆ bbs := fun y member =>
    (numbered.mem y).mpr (connected.path_subset simple member)
  exact subset (on part simple (nodup.subperm inside).length_le)

theorem Up.trans {a : Block} (first : Up number doms a r) (second : Up number doms r b) :
    Up number doms a b := by
  induction second with
  | refl => exact first
  | up found rest ih => exact .up found ih

theorem Up.number_le (sane : Sane ep bbs number doms) (up : Up number doms r b) (member : b ∈ bbs) :
    number b ≤ number r := by
  induction up with
  | refl => exact Nat.le_refl _
  | @up b d found rest ih =>
    obtain ⟨inside, -⟩ := sane.range b member d found
    by_cases here : b = ep.entry
    · rw [here, sane.entry] at found
      cases found
      exact here ▸ ih inside
    · exact Nat.le_trans (Nat.le_of_lt (sane.above b member here d found)) (ih inside)

theorem Up.onPaths (sane : Sane ep bbs number doms)
    (fits : ∀ b ∈ bbs, b ≠ ep.entry → Fits ep number doms k k b) (up : Up number doms r b)
    (member : b ∈ bbs) (on : OnPaths ep k r x) : OnPaths ep k b x := by
  induction up with
  | refl => exact on
  | @up b d found rest ih =>
    obtain ⟨inside, -⟩ := sane.range b member d found
    by_cases here : b = ep.entry
    · rw [here, sane.entry] at found
      cases found
      exact here ▸ ih inside
    · exact fits b member here d found x (ih inside)

/-- A candidate that is on all paths is the immediate dominator. -/
theorem Sane.immediate (sane : Sane ep bbs number doms) (connected : ep.Connected)
    (numbered : Numbered ep bbs number) (member : b ∈ bbs) (other : b ≠ ep.entry)
    (on : OnPaths ep bbs.length b d) (found : doms (number b) = some d) :
    ImmediatelyDominates ep.Edge ep.entry d b where
  strict := by
    refine ⟨dominates_of_onPaths connected numbered on, fun same => ?_⟩
    exact Nat.ne_of_lt (sane.above b member other d found) (congrArg number same.symm)
  least := sane.least b member other d found

variable [DecidableEq Block]

/-- `intersect_dom` finds a block over both that all common dominators dominate. -/
theorem intersectDom_some (numbered : Numbered ep bbs number) (sane : Sane ep bbs number doms)
    {b1 b2 : Block} (first : b1 ∈ bbs) (second : b2 ∈ bbs) (found1 : doms (number b1) ≠ none)
    (found2 : doms (number b2) ≠ none)
    (enough : 2 * number ep.entry < fuel + number b1 + number b2) :
    ∃ r, intersectDom number doms fuel b1 b2 = some r ∧ r ∈ bbs ∧ doms (number r) ≠ none ∧
      Up number doms r b1 ∧ Up number doms r b2 ∧
      ∀ a, Dominates ep.Edge ep.entry a b1 → Dominates ep.Edge ep.entry a b2 →
        Dominates ep.Edge ep.entry a r := by
  induction fuel generalizing b1 b2 with
  | zero =>
    have le1 := numbered.le_entry first
    have le2 := numbered.le_entry second
    omega
  | succ fuel ih =>
    unfold intersectDom
    by_cases less : number b1 < number b2
    · have other : b1 ≠ ep.entry := by
        rintro rfl
        exact absurd (numbered.le_entry second) (Nat.not_le.mpr less)
      obtain ⟨d, found⟩ := Option.ne_none_iff_exists'.mp found1
      obtain ⟨inside, defined⟩ := sane.range b1 first d found
      have higher := sane.above b1 first other d found
      obtain ⟨r, result, member, kept, up1, up2, least⟩ :=
        ih inside second defined found2 (by omega)
      refine ⟨r, ?_, member, kept, .up found up1, up2, fun a dom1 dom2 => least a ?_ dom2⟩
      · rw [if_pos less, found]
        exact result
      · by_cases same : a = b1
        · rw [same] at dom2
          exact absurd (numbered.le_of_dominates second dom2) (Nat.not_le.mpr less)
        · exact sane.least b1 first other d found a ⟨dom1, same⟩
    · by_cases more : number b2 < number b1
      · have other : b2 ≠ ep.entry := by
          rintro rfl
          exact absurd (numbered.le_entry first) (Nat.not_le.mpr more)
        obtain ⟨d, found⟩ := Option.ne_none_iff_exists'.mp found2
        obtain ⟨inside, defined⟩ := sane.range b2 second d found
        have higher := sane.above b2 second other d found
        obtain ⟨r, result, member, kept, up1, up2, least⟩ :=
          ih first inside found1 defined (by omega)
        refine ⟨r, ?_, member, kept, up1, .up found up2, fun a dom1 dom2 => least a dom1 ?_⟩
        · rw [if_neg less, if_pos more, found]
          exact result
        · by_cases same : a = b2
          · rw [same] at dom1
            exact absurd (numbered.le_of_dominates first dom1) (Nat.not_le.mpr more)
          · exact sane.least b2 second other d found a ⟨dom2, same⟩
      · have same := numbered.injective first second
          (Nat.le_antisymm (Nat.not_lt.mp more) (Nat.not_lt.mp less))
        subst same
        refine ⟨b1, ?_, first, found1, .refl, .refl, fun a dom _ => dom⟩
        rw [if_neg less, if_neg more]

/-- The loop over the parents finds a block over all of them. -/
theorem foldlM_nextIdom (numbered : Numbered ep bbs number) (sane : Sane ep bbs number doms)
    (enough : 2 * number ep.entry < fuel) {parents : List Block} (inside : ∀ p ∈ parents, p ∈ bbs)
    {start : Option Block} (known : ∀ s, start = some s → s ∈ bbs ∧ doms (number s) ≠ none) :
    ∃ new, parents.foldlM (nextIdom number doms fuel) start = some new ∧
      (start ≠ none ∨ (∃ p ∈ parents, doms (number p) ≠ none) → new ≠ none) ∧
      ∀ r, new = some r → r ∈ bbs ∧ doms (number r) ≠ none ∧
        (∀ s, start = some s → Up number doms r s) ∧
        (∀ p ∈ parents, doms (number p) ≠ none → Up number doms r p) ∧
        ∀ a, (∀ s, start = some s → Dominates ep.Edge ep.entry a s) →
          (∀ p ∈ parents, Dominates ep.Edge ep.entry a p) → Dominates ep.Edge ep.entry a r := by
  induction parents generalizing start with
  | nil =>
    refine ⟨start, rfl, fun some => some.resolve_right ?_, fun r here => ?_⟩
    · rintro ⟨p, never, -⟩
      exact not_mem_nil never
    · refine ⟨(known r here).1, (known r here).2, fun s same => ?_, ?_, fun a dom _ => dom r here⟩
      · cases here.symm.trans same
        exact .refl
      · exact fun p never => absurd never not_mem_nil
  | cons p parents ih =>
    have insideTail := fun q member => inside q (mem_cons_of_mem p member)
    have head : ∀ middle, nextIdom number doms fuel start p = some middle →
        (p :: parents).foldlM (nextIdom number doms fuel) start =
          parents.foldlM (nextIdom number doms fuel) middle := by
      intro middle step
      rw [foldlM_cons, step]
      rfl
    cases found : doms (number p) with
    | none =>
      have step : nextIdom number doms fuel start p = some start := by
        unfold nextIdom
        rw [found]
      obtain ⟨new, result, some, above⟩ := ih insideTail known
      refine ⟨new, (head start step).trans result, fun reason => some ?_, fun r here => ?_⟩
      · refine reason.imp_right ?_
        rintro ⟨q, member, defined⟩
        rcases mem_cons.mp member with rfl | later
        · exact absurd found defined
        · exact ⟨q, later, defined⟩
      · obtain ⟨member, defined, start, up, least⟩ := above r here
        refine ⟨member, defined, start, fun q inList has => ?_, fun a first all => ?_⟩
        · rcases mem_cons.mp inList with rfl | later
          · exact absurd found has
          · exact up q later has
        · exact least a first fun q later => all q (mem_cons_of_mem p later)
    | some d =>
      have defined : doms (number p) ≠ none := by
        rw [found]
        exact Option.some_ne_none d
      -- The loop goes on with a block over the parent and the one before.
      have next : ∃ r, nextIdom number doms fuel start p = some (some r) ∧ r ∈ bbs ∧
          doms (number r) ≠ none ∧ (∀ s, start = some s → Up number doms r s) ∧
          Up number doms r p ∧
          ∀ a, (∀ s, start = some s → Dominates ep.Edge ep.entry a s) →
            Dominates ep.Edge ep.entry a p → Dominates ep.Edge ep.entry a r := by
        unfold nextIdom
        rw [found]
        cases start with
        | none =>
          refine ⟨p, rfl, inside p mem_cons_self, defined, ?_, .refl,
            fun a _ dom => dom⟩
          exact fun s never => absurd never.symm (Option.some_ne_none s)
        | some s =>
          obtain ⟨member, has⟩ := known s rfl
          obtain ⟨r, result, inBbs, kept, up, upStart, least⟩ :=
            intersectDom_some numbered sane (inside p mem_cons_self) member defined has
              (show 2 * number ep.entry < fuel + number p + number s by omega)
          refine ⟨r, congrArg (Option.map some) result, inBbs, kept, fun t same => ?_, up, ?_⟩
          · cases same
            exact upStart
          · exact fun a first dom => least a dom (first s rfl)
      obtain ⟨r, step, inBbs, kept, upStart, up, least⟩ := next
      have knownNext : ∀ s, Option.some r = Option.some s → s ∈ bbs ∧ doms (number s) ≠ none := by
        intro s same
        cases same
        exact ⟨inBbs, kept⟩
      obtain ⟨new, result, some, above⟩ := ih insideTail knownNext
      refine ⟨new, (head _ step).trans result, fun _ => some (Or.inl (Option.some_ne_none r)),
        fun t here => ?_⟩
      obtain ⟨member, has, upper, upTail, leastTail⟩ := above t here
      refine ⟨member, has, fun s same => (upper r rfl).trans (upStart s same), ?_, ?_⟩
      · intro q inList known
        rcases mem_cons.mp inList with rfl | later
        · exact (upper r rfl).trans up
        · exact upTail q later known
      · intro a first all
        refine leastTail a (fun s same => ?_) fun q later => all q (mem_cons_of_mem p later)
        cases same
        exact least a first (all p mem_cons_self)

end Candidates

/-- What holds before a round, when the candidates fit paths of at most the given length. -/
structure Stage (ep : Entrypoint Block) (bbs : List Block) (number : Block → Nat)
    (doms : Nat → Option Block) (k : Nat) : Prop where
  sane : Sane ep bbs number doms
  fits : ∀ b ∈ bbs, b ≠ ep.entry → Fits ep number doms k k b
  known : k ≠ 0 → ∀ b ∈ bbs, doms (number b) ≠ none

structure Progress (ep : Entrypoint Block) (bbs : List Block) (number : Block → Nat)
    (doms : Nat → Option Block) (k : Nat) (done : List Block) (round : Round Block) : Prop where
  stage : Stage ep bbs number round.doms k
  done : ∀ b ∈ done, b ≠ ep.entry →
    Fits ep number round.doms k (k + 1) b ∧ round.doms (number b) ≠ none
  same : round.changed = false → round.doms = doms
  stable : bbs.length ≤ k → round.changed = false

section Rounds

variable [DecidableEq Block] {doms : Nat → Option Block} {b r : Block} {k fuel : Nat}

omit [DecidableEq Block] in
theorem update_other (numbered : Numbered ep bbs number) (member : b ∈ bbs) {c : Block}
    (inside : c ∈ bbs) (different : c ≠ b) (doms : Nat → Option Block) :
    Function.update doms (number b) (some r) (number c) = doms (number c) :=
  Function.update_of_ne (fun same => different (numbered.injective inside member same)) _ _

theorem Stage.update (stage : Stage ep bbs number doms k) (connected : ep.Connected)
    (numbered : Numbered ep bbs number) (member : b ∈ bbs) (other : b ≠ ep.entry)
    (inside : r ∈ bbs) (defined : doms (number r) ≠ none) (higher : number b < number r)
    (up : ∀ p ∈ ep.parents b, doms (number p) ≠ none → Up number doms r p)
    (least : ∀ a, (∀ p ∈ ep.parents b, Dominates ep.Edge ep.entry a p) →
      Dominates ep.Edge ep.entry a r) :
    Stage ep bbs number (Function.update doms (number b) (some r)) k ∧
      Fits ep number (Function.update doms (number b) (some r)) k (k + 1) b := by
  have entry : ep.entry ∈ bbs := (numbered.mem _).mpr connected.entry
  have own : Function.update doms (number b) (some r) (number b) = some r :=
    Function.update_self _ _ _
  have kept : ∀ c ∈ bbs, c ≠ b → Function.update doms (number b) (some r) (number c) =
      doms (number c) := fun c inBbs different => update_other numbered member inBbs different doms
  have edge : ∀ {p}, p ∈ bbs → ep.Edge p b → p ∈ ep.parents b := fun inBbs next =>
    (connected.inverse _ ((numbered.mem _).mp inBbs) b ((numbered.mem b).mp member)).mp next
  have still : ∀ c ∈ bbs, doms (number c) ≠ none →
      Function.update doms (number b) (some r) (number c) ≠ none := by
    intro c inBbs has
    by_cases same : c = b
    · rw [same, own]
      exact Option.some_ne_none r
    · rw [kept c inBbs same]
      exact has
  have fits : Fits ep number (Function.update doms (number b) (some r)) k (k + 1) b := by
    intro d found x on nodes path short
    cases own.symm.trans found
    cases path with
    | start => exact absurd rfl other
    | @step nodes p _ path next =>
      have le : nodes.length ≤ k := Nat.le_of_succ_le_succ short
      have inBbs : p ∈ bbs := (numbered.mem p).mpr (connected.path_subset path path.last_mem)
      have positive : k ≠ 0 := by
        rintro rfl
        exact Nat.not_succ_le_zero _ (Nat.le_trans (length_pos_of_mem path.last_mem) le)
      have upper := up p (edge inBbs next) (stage.known positive p inBbs)
      exact mem_cons_of_mem b (upper.onPaths stage.sane stage.fits inBbs on nodes path le)
  refine ⟨⟨⟨?_, ?_, ?_, ?_⟩, ?_, ?_⟩, fits⟩
  · rw [kept _ entry other.symm]
    exact stage.sane.entry
  · intro c inBbs d found
    by_cases same : c = b
    · rw [same, own] at found
      cases found
      exact ⟨inside, still r inside defined⟩
    · rw [kept c inBbs same] at found
      obtain ⟨inRange, has⟩ := stage.sane.range c inBbs d found
      exact ⟨inRange, still d inRange has⟩
  · intro c inBbs notEntry d found
    by_cases same : c = b
    · rw [same, own] at found
      cases found
      exact same ▸ higher
    · rw [kept c inBbs same] at found
      exact stage.sane.above c inBbs notEntry d found
  · intro c inBbs notEntry d found a strict
    by_cases same : c = b
    · subst same
      cases own.symm.trans found
      refine least a fun p parent => strict.1.of_edge strict.2 ?_
      have inParents := connected.parents c ((numbered.mem c).mp inBbs) p parent
      exact (connected.inverse p inParents c ((numbered.mem c).mp inBbs)).mpr parent
    · rw [kept c inBbs same] at found
      exact stage.sane.least c inBbs notEntry d found a strict
  · intro c inBbs notEntry d found x on
    by_cases same : c = b
    · subst same
      exact (fits d found x on).mono (Nat.le_succ k)
    · rw [kept c inBbs same] at found
      exact stage.fits c inBbs notEntry d found x on
  · exact fun positive c inBbs => still c inBbs (stage.known positive c inBbs)

section

variable (connected : ep.Connected) (numbered : Numbered ep bbs number)
include connected numbered

theorem updateDom_progress (enough : 2 * number ep.entry < fuel) {done rest : List Block}
    (split : bbs = done ++ b :: rest) {round : Round Block}
    (progress : Progress ep bbs number doms k done round) :
    ∃ round', updateDom ep number fuel round b = some round' ∧
      Progress ep bbs number doms k (done ++ [b]) round' := by
  have member : b ∈ bbs := split ▸ mem_append_right _ mem_cons_self
  have extend : ∀ {round' : Round Block},
      (∀ c ∈ done, c ≠ ep.entry → Fits ep number round'.doms k (k + 1) c ∧
        round'.doms (number c) ≠ none) →
      (b ≠ ep.entry → Fits ep number round'.doms k (k + 1) b ∧ round'.doms (number b) ≠ none) →
      ∀ c ∈ done ++ [b], c ≠ ep.entry → Fits ep number round'.doms k (k + 1) c ∧
        round'.doms (number c) ≠ none := by
    intro round' earlier here c inside notEntry
    rcases mem_append.mp inside with before | last
    · exact earlier c before notEntry
    · cases mem_singleton.mp last
      exact here notEntry
  unfold updateDom
  by_cases entry : b = ep.entry
  · rw [if_pos entry]
    exact ⟨round, rfl, progress.stage, extend progress.done (absurd entry), progress.same,
      progress.stable⟩
  · have sane := progress.stage.sane
    -- A parent that comes before has a candidate.
    obtain ⟨p, parent, inBbs, higher⟩ := numbered.earlier_parent connected member entry
    have isDone : p ∈ done := numbered.mem_of_lt split inBbs higher
    have known : round.doms (number p) ≠ none := by
      by_cases isEntry : p = ep.entry
      · rw [isEntry, sane.entry]
        exact Option.some_ne_none _
      · exact (progress.done p isDone isEntry).2
    have parents : ∀ q ∈ ep.parents b, q ∈ bbs := fun q inList =>
      (numbered.mem q).mpr (connected.parents b ((numbered.mem b).mp member) q inList)
    have nothing : ∀ s, none = some s → s ∈ bbs ∧ round.doms (number s) ≠ none :=
      fun s never => absurd never.symm (Option.some_ne_none s)
    obtain ⟨new, result, some, above⟩ := foldlM_nextIdom numbered sane enough parents nothing
    obtain ⟨r, rfl⟩ := Option.ne_none_iff_exists'.mp (some (Or.inr ⟨p, parent, known⟩))
    obtain ⟨inside, defined, -, up, least⟩ := above r rfl
    have upper : number b < number r :=
      Nat.lt_of_lt_of_le higher ((up p parent known).number_le sane inBbs)
    obtain ⟨stage, fits⟩ := progress.stage.update connected numbered member entry inside
      defined upper
      up fun a => least a fun s never => absurd never.symm (Option.some_ne_none s)
    have kept : ∀ c ∈ done, c ≠ ep.entry →
        Fits ep number (Function.update round.doms (number b) (Option.some r)) k (k + 1) c ∧
          Function.update round.doms (number b) (Option.some r) (number c) ≠ none := by
      intro c before notEntry
      have different : c ≠ b := by
        rintro rfl
        have nodup := numbered.nodup
        rw [split] at nodup
        exact (nodup_append.mp nodup).2.2 c before c mem_cons_self rfl
      have inDone := progress.done c before notEntry
      have inAll : c ∈ bbs := split ▸ mem_append_left _ before
      unfold Fits
      rw [update_other numbered member inAll different]
      exact inDone
    have own : Function.update round.doms (number b) (Option.some r) (number b) = Option.some r :=
      Function.update_self _ _ _
    have here : b ≠ ep.entry →
        Fits ep number (Function.update round.doms (number b) (Option.some r)) k (k + 1) b ∧
          Function.update round.doms (number b) (Option.some r) (number b) ≠ none :=
      fun _ => ⟨fits, fun never => Option.some_ne_none r (own.symm.trans never)⟩
    rw [if_neg entry, result]
    by_cases unchanged : round.doms (number b) = Option.some r
    · have equal : Function.update round.doms (number b) (Option.some r) = round.doms := by
        rw [← unchanged, Function.update_eq_self]
      rw [equal] at stage kept here
      exact ⟨round, congrArg Option.some (if_neg (not_not.mpr unchanged)), stage,
        extend kept here, progress.same, progress.stable⟩
    · refine ⟨⟨Function.update round.doms (number b) (Option.some r), true⟩,
        congrArg Option.some (if_pos unchanged), stage, extend kept here,
        fun never => Bool.noConfusion never, fun long => absurd ?_ unchanged⟩
      -- Both the old candidate and the new one are the immediate dominator.
      have positive : k ≠ 0 := Nat.ne_of_gt (Nat.lt_of_lt_of_le
        (length_pos_of_mem member) long)
      obtain ⟨d, found⟩ := Option.ne_none_iff_exists'.mp
        (progress.stage.known positive b member)
      have old := sane.immediate connected numbered member entry
        ((progress.stage.fits b member entry d found d (.self k d)).mono long) found
      have new := stage.sane.immediate connected numbered member entry
        ((fits r own r (.self k r)).mono (Nat.le_succ_of_le long)) own
      rw [found, old.unique (connected.reachable b ((numbered.mem b).mp member)) new]

/-- A round keeps what is known, and goes one step further. -/
theorem round_stage (enough : 2 * number ep.entry < fuel) (stage : Stage ep bbs number doms k) :
    ∃ round, bbs.foldlM (updateDom ep number fuel) ⟨doms, false⟩ = some round ∧
      Stage ep bbs number round.doms (k + 1) ∧ (round.changed = false → round.doms = doms) ∧
      (bbs.length ≤ k → round.changed = false) := by
  have walk : ∀ (rest done : List Block) (round : Round Block), bbs = done ++ rest →
      Progress ep bbs number doms k done round →
      ∃ round', rest.foldlM (updateDom ep number fuel) round = some round' ∧
        Progress ep bbs number doms k bbs round' := by
    intro rest
    induction rest with
    | nil =>
      intro done round split progress
      rw [append_nil] at split
      exact ⟨round, rfl, split ▸ progress⟩
    | cons b rest ih =>
      intro done round split progress
      obtain ⟨middle, step, progress⟩ :=
        updateDom_progress connected numbered enough split progress
      obtain ⟨round', result, progress⟩ := ih (done ++ [b]) middle
        (split.trans (append_cons done b rest)) progress
      refine ⟨round', ?_, progress⟩
      rw [foldlM_cons, step]
      exact result
  obtain ⟨round, result, progress⟩ := walk bbs [] ⟨doms, false⟩ rfl
    ⟨stage, fun b never => absurd never not_mem_nil, fun _ => rfl, fun _ => rfl⟩
  refine ⟨round, result, ⟨progress.stage.sane, ?_, ?_⟩, progress.same, progress.stable⟩
  · intro b member other d found x on
    exact (progress.done b member other).1 d found x (on.mono (Nat.le_succ k))
  · intro _ b member
    by_cases entry : b = ep.entry
    · rw [entry, progress.stage.sane.entry]
      exact Option.some_ne_none _
    · exact (progress.done b member entry).2

/-- The rounds end, and then each candidate is the immediate dominator of its block. -/
theorem rounds_immediate {size : Nat} (enough : 2 * number ep.entry < size) (short : k ≤ bbs.length)
    (many : bbs.length < fuel + k) (stage : Stage ep bbs number doms k) :
    ∃ doms', rounds ep bbs number size fuel doms = some doms' ∧
      ∀ b ∈ bbs, b ≠ ep.entry → ∃ d, doms' (number b) = some d ∧ d ∈ bbs ∧
        number b < number d ∧ ImmediatelyDominates ep.Edge ep.entry d b := by
  induction fuel generalizing k doms with
  | zero =>
    rw [Nat.zero_add] at many
    exact absurd short (Nat.not_le.mpr many)
  | succ fuel ih =>
    obtain ⟨round, result, next, same, stable⟩ := round_stage connected numbered enough stage
    unfold rounds
    rw [result, Option.bind_some]
    cases changed : round.changed with
    | true =>
      rw [if_pos rfl]
      have less : k < bbs.length := by
        refine Nat.lt_of_not_le fun long => ?_
        rw [stable long] at changed
        cases changed
      exact ih less (by omega) next
    | false =>
      rw [if_neg Bool.false_ne_true]
      -- The round can be repeated, so the candidates fit paths of any length.
      have again : ∀ j, Stage ep bbs number doms (k + j) := by
        intro j
        induction j with
        | zero => exact stage
        | succ j ih =>
          obtain ⟨round', result', next', -, -⟩ := round_stage connected numbered enough ih
          cases Option.some.inj (result.symm.trans result')
          exact same changed ▸ next'
      refine ⟨round.doms, rfl, fun b member other => ?_⟩
      rw [same changed]
      have final := again bbs.length
      have positive : k + bbs.length ≠ 0 :=
        Nat.ne_of_gt (Nat.lt_of_lt_of_le (length_pos_of_mem member) (Nat.le_add_left _ k))
      obtain ⟨d, found⟩ := Option.ne_none_iff_exists'.mp (final.known positive b member)
      refine ⟨d, found, (stage.sane.range b member d found).1,
        stage.sane.above b member other d found, ?_⟩
      exact stage.sane.immediate connected numbered member other
        ((final.fits b member other d found d (.self _ d)).mono (Nat.le_add_left _ k)) found

end

end Rounds

end SmatchFormal.Domtree
