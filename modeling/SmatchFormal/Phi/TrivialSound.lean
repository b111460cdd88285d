import SmatchFormal.Phi.Trivial
import Mathlib.Algebra.GroupWithZero.Nat
import Mathlib.Data.Fin.VecNotation
import Mathlib.Data.Fintype.Basic
import Mathlib.Tactic.FinCases

/-!
# Trivial phi-nodes have one value

Every way to a phi-node of a closed list comes through the definition of the pseudo first, and as
long as the pseudo is not set again the phi-nodes that come before a place have its value.
-/

namespace SmatchFormal.Phi

open List

variable {Block : Type}

section First

variable {f : Function Block} {pseudo : Pseudo} {list : List Nat}

def Function.Shown (f : Function Block) (pseudo : Pseudo) (nodes : List (Point Block)) : Prop :=
  match pseudo with
  | .void => False
  | .reg target => ∃ place, f.Defines place target ∧ place ∈ nodes
  | _ => True

theorem Function.Shown.mono {nodes more : List (Point Block)} (shown : f.Shown pseudo nodes)
    (subset : nodes ⊆ more) : f.Shown pseudo more := by
  cases pseudo with
  | void => exact shown
  | reg target =>
    obtain ⟨place, defines, member⟩ := shown
    exact ⟨place, defines, subset member⟩
  | undef | arg | sym | val => trivial

theorem Function.Available.shown {point : Point Block} (available : f.Available pseudo point)
    {nodes : List (Point Block)} (path : Dominance.Path f.Next f.start nodes point) :
    f.Shown pseudo nodes := by
  cases pseudo with
  | void => exact available
  | reg target =>
    obtain ⟨place, defines, before⟩ := available
    exact ⟨place, defines, before.1 nodes path⟩
  | undef | arg | sym | val => trivial

namespace Function.WellFormed

variable (formed : f.WellFormed) {bb parent : Block} {i k : Nat}

include formed

/-- The phi-source of an edge comes before the end of its block. -/
theorem source_dominates {insn : Insn Block} {phi : Nat}
    (last : f.insnAt (parent, i) = some insn) (target : bb ∈ insn.targets)
    (source : f.insnAt (parent, k) = some (.phisource phi)) :
    Dominance.Dominates f.Next f.start (parent, k) (parent, i) := by
  have final := formed.ending parent i insn last (isTerminator_of_target target)
  have inside : k < (f.insns parent).length := (List.getElem?_eq_some_iff.mp source).1
  exact dominates_within _ _ (by omega)

/-- An operand that is not void is available where the phi-source is. -/
theorem source_available {phi : Nat} (reachable : f.Reachable (parent, k))
    (source : f.insnAt (parent, k) = some (.phisource phi))
    (value : (f.phiDef phi).phiSrc ≠ .void) :
    f.Available (f.phiDef phi).phiSrc (parent, k) := by
  cases operand : (f.phiDef phi).phiSrc with
  | void => exact (value operand).elim
  | reg target =>
    refine formed.strict _ target reachable ⟨_, source, ?_⟩
    rw [← operand]
    exact mem_singleton_self _
  | undef | arg | sym | val => trivial

/-- A target in a closed list is set by a phi-node. -/
theorem phi_of_covered {target : Nat} {point : Point Block} (defines : f.Defines point target)
    (covered : f.Covered pseudo list target) : f.insnAt point = some (.phi target) := by
  obtain ⟨phiList, node, -⟩ := covered
  refine (formed.node point target defines).mpr ?_
  rw [node]
  exact Option.some_ne_none _

end Function.WellFormed

/-- A way to a phi-node of the list has set the pseudo before it comes to the block. -/
theorem Function.Closed.shown (closed : f.Closed pseudo list) (formed : f.WellFormed) {bb : Block}
    {i target : Nat} {nodes : List (Point Block)}
    (path : Dominance.Path f.Next f.start nodes (bb, 0)) (member : target ∈ list)
    (here : f.insnAt (bb, i) = some (.phi target)) : f.Shown pseudo nodes.tail := by
  -- The source in the block that the way comes from is the pseudo, or leads to an earlier phi-node.
  induction size : nodes.length using Nat.strongRecOn generalizing nodes bb i target with
  | ind size ih =>
    cases path with
    | start => exact (formed.noNode i target here).elim
    | @step rest prior _ path next =>
      obtain ⟨insn, last, edge⟩ := next.pred_zero
      obtain ⟨phiList, node, inner⟩ := closed.covered target member
      obtain ⟨phi, k, entry, source, value, -⟩ :=
        formed.source bb i target phiList here node prior.1 ⟨prior.2, insn, last, edge⟩
      have first := formed.source_dominates last edge source
      obtain ⟨part, toSource, suffix, -⟩ := path.to_mem (first rest path)
      have available := formed.source_available ⟨part, toSource⟩ source value
      obtain dead | void | same | ⟨nr, known, same⟩ := inner phi entry
      · rw [formed.sourceOwner _ _ _ source] at dead
        cases dead
      · exact (value void).elim
      · rw [same] at available
        exact (available.shown toSource).mono suffix.subset
      · rw [same] at available
        obtain ⟨place, defines, before⟩ := available
        obtain ⟨short, toPlace, suffix', -⟩ := toSource.to_mem (before.1 part toSource)
        have top := dominates_within f place.1 (Nat.zero_le place.2)
        obtain ⟨least, toTop, suffix'', -⟩ := toPlace.to_mem (top short toPlace)
        have chain := (suffix''.trans suffix').trans suffix
        have earlier := formed.phi_of_covered defines (closed.covered nr known)
        have shown := ih least.length
          (by rw [← size]; exact Nat.lt_succ_of_le chain.length_le) toTop known earlier rfl
        exact shown.mono fun point inside => chain.subset (mem_of_mem_tail inside)

section

variable (closed : f.Closed pseudo list) (formed : f.WellFormed)
include closed formed

/-- The pseudo is available where the block of a phi-node of the list begins. -/
theorem Function.Closed.available {bb : Block} {i target : Nat} (member : target ∈ list)
    (here : f.insnAt (bb, i) = some (.phi target)) (reachable : f.Reachable (bb, 0)) :
    f.Available pseudo (bb, 0) := by
  obtain ⟨nodes, path⟩ := reachable
  obtain ⟨simple, toBlock, once, -⟩ := path.simple
  have shown := closed.shown formed toBlock member here
  cases pseudo with
  | void => exact shown
  | undef | arg | sym | val => trivial
  | reg nr =>
    obtain ⟨place, defines, inside⟩ := shown
    refine ⟨place, defines, fun other path => ?_, ?_⟩
    · obtain ⟨place', defines', inside'⟩ := closed.shown formed path member here
      rw [formed.once place place' nr defines defines']
      exact mem_of_mem_tail inside'
    · rintro rfl
      cases toBlock with
      | start => cases inside
      | step path next => exact (nodup_cons.mp once).1 inside

theorem Function.Closed.available_at {point : Point Block} {target : Nat} (member : target ∈ list)
    (defines : f.Defines point target) (reachable : f.Reachable point) :
    f.Available pseudo point := by
  have here := formed.phi_of_covered defines (closed.covered target member)
  have top := dominates_within f point.1 (Nat.zero_le point.2)
  exact (closed.available formed member here (reachable_of_dominates reachable top)).later
    reachable top

/-- The pseudo is available where the target of a phi-node of the list is. -/
theorem Function.Closed.available_after {point : Point Block} {target : Nat}
    (member : target ∈ list) (reachable : f.Reachable point)
    (available : f.Available (.reg target) point) : f.Available pseudo point := by
  obtain ⟨place, defines, before⟩ := available
  exact (closed.available_at formed member defines
    (reachable_of_dominates reachable before.1)).later reachable before.1

end

end First

section Runs

variable {f : Function Block} {pseudo : Pseudo} {list : List Nat}

def Function.Feeds (f : Function Block) (pseudo : Pseudo) (list : List Nat) (phi : Nat) : Prop :=
  (f.phiDef phi).phiSrc ≠ .void ∧
    ((f.phiDef phi).phiSrc = pseudo ∨ ∃ nr ∈ list, (f.phiDef phi).phiSrc = .reg nr)

theorem Function.Closed.feeds_available (closed : f.Closed pseudo list) (formed : f.WellFormed)
    {bb : Block} {i phi : Nat} (reachable : f.Reachable (bb, i))
    (source : f.insnAt (bb, i) = some (.phisource phi)) (feeds : f.Feeds pseudo list phi) :
    f.Available pseudo (bb, i) := by
  have available := formed.source_available reachable source feeds.1
  obtain same | ⟨nr, member, same⟩ := feeds.2
  · rw [same] at available
    exact available
  · rw [same] at available
    exact closed.available_after formed member reachable available

/-- Where the pseudo is available it has been set, and is not set there for the first time. -/
theorem Function.WellFormed.not_reset (formed : f.WellFormed) {target : Nat} {p q : Point Block}
    (available : f.Available (.reg target) q) (defines : f.Defines p target)
    (reachable : f.Reachable p) (order : Dominance.Dominates f.Next f.start q p) : False := by
  obtain ⟨place, defines', before⟩ := available
  rw [formed.once place p target defines' defines] at before
  exact before.asymm reachable order

/-- A register that the place before does not set was available there. -/
theorem available_of_next {target : Nat} {p q : Point Block}
    (available : f.Available (.reg target) q) (next : f.Next p q)
    (other : ¬ f.Defines p target) : f.Available (.reg target) p := by
  obtain ⟨place, defines, before⟩ := available
  obtain rfl | earlier := before.of_next next
  · exact (other defines).elim
  · exact ⟨place, defines, earlier⟩

variable {Value : Type}

/-- The phi-nodes of the list have the value of the pseudo where they are available, and so has
what is kept for them in the current block and in the one before. -/
structure Agrees (f : Function Block) (base : Pseudo → Value) (pseudo : Pseudo) (list : List Nat)
    (s : State Block Value) : Prop where
  reachable : f.Reachable s.point
  came : ∀ parent, s.prev = some parent → f.Edge parent s.point.1
  nodes : ∀ target ∈ list, f.Available (.reg target) s.point →
    s.regs target = s.eval base pseudo
  kept : ∀ i phi, i < s.point.2 → f.insnAt (s.point.1, i) = some (.phisource phi) →
    f.Feeds pseudo list phi → s.phis phi = s.eval base pseudo
  brought : ∀ parent k phi i target, s.prev = some parent →
    f.insnAt (parent, k) = some (.phisource phi) → f.Feeds pseudo list phi →
    f.insnAt (s.point.1, i) = some (.phi target) → target ∈ list → s.point.2 ≤ i →
    s.phis phi = s.eval base pseudo

namespace Agrees

variable {base : Pseudo → Value} {s : State Block Value} {insn : Insn Block}
  (agrees : Agrees f base pseudo list s) (closed : f.Closed pseudo list) (formed : f.WellFormed)

include agrees closed formed

omit closed in
/-- The operand of a phi-source that feeds the list has the value of the pseudo. -/
theorem eval_source {phi : Nat} (here : f.insnAt s.point = some (.phisource phi))
    (feeds : f.Feeds pseudo list phi) :
    s.eval base (f.phiDef phi).phiSrc = s.eval base pseudo := by
  obtain same | ⟨nr, member, same⟩ := feeds.2
  · rw [same]
  · have available := formed.source_available agrees.reachable here feeds.1
    rw [same] at available ⊢
    exact agrees.nodes nr member available

/-- The pseudo itself is not set while it counts. -/
theorem reset {target : Nat} (same : pseudo = .reg target) (here : f.Defines s.point target) :
    (∀ nr ∈ list, ¬ f.Available (.reg nr) s.point) ∧
      (∀ i phi, i < s.point.2 → f.insnAt (s.point.1, i) = some (.phisource phi) →
        ¬ f.Feeds pseudo list phi) ∧
      ∀ i nr, f.insnAt (s.point.1, i) = some (.phi nr) → nr ∉ list := by
  subst same
  refine ⟨fun nr member available => ?_, fun i phi less source feeds => ?_,
    fun i nr phi member => ?_⟩
  · exact formed.not_reset (closed.available_after formed member agrees.reachable available) here
      agrees.reachable (Dominance.Dominates.refl _)
  · have order := dominates_within f s.point.1 (Nat.le_of_lt less)
    have reachable := reachable_of_dominates agrees.reachable order
    exact formed.not_reset (closed.feeds_available formed reachable source feeds) here
      agrees.reachable order
  · have order := dominates_within f s.point.1 (Nat.zero_le s.point.2)
    have reachable := reachable_of_dominates agrees.reachable order
    exact formed.not_reset (closed.available formed member phi reachable) here agrees.reachable
      order

theorem assign {target : Nat} {value : Value} (here : f.insnAt s.point = some insn)
    (defines : insn.defines = some target) (inner : insn.isTerminator = false)
    (right : target ∈ list → value = s.eval base pseudo) :
    Agrees f base pseudo list (s.assign target value) := by
  have next : f.Next s.point (s.assign target value).point := .within here inner
  have sets : f.Defines s.point target := ⟨insn, here, defines⟩
  have only : ∀ nr, f.Defines s.point nr → nr = target := by
    rintro nr ⟨other, same, writes⟩
    cases here.symm.trans same
    exact Option.some_inj.mp (writes.symm.trans defines)
  have notSource : ∀ phi, f.insnAt s.point ≠ some (.phisource phi) := by
    intro phi same
    cases here.symm.trans same
    cases defines
  have below : ∀ i phi, i < s.point.2 + 1 →
      f.insnAt (s.point.1, i) = some (.phisource phi) → i < s.point.2 := by
    intro i phi less source
    refine (Nat.lt_succ_iff_lt_or_eq.mp less).resolve_right ?_
    rintro rfl
    exact notSource phi source
  by_cases same : pseudo = .reg target
  · obtain ⟨noNode, noSource, noPhi⟩ := agrees.reset closed formed same sets
    refine ⟨agrees.reachable.step next, agrees.came, fun nr member available => ?_,
      fun i phi less source feeds => ?_, fun parent k phi i nr came source feeds at' member _ => ?_⟩
    · refine (noNode nr member (available_of_next available next fun own => ?_)).elim
      rw [only nr own] at member
      exact closed.outside target member same
    · exact (noSource i phi (below i phi less source) source feeds).elim
    · exact (noPhi i nr at' member).elim
  · have fixed : (s.assign target value).eval base pseudo = s.eval base pseudo := by
      cases pseudo with
      | reg nr =>
        refine Function.update_of_ne ?_ _ _
        rintro rfl
        exact same rfl
      | void | undef | arg | sym | val => rfl
    refine ⟨agrees.reachable.step next, agrees.came, fun nr member available => ?_,
      fun i phi less source feeds => ?_,
      fun parent k phi i nr came source feeds at' member later => ?_⟩
    · rw [fixed]
      by_cases own : nr = target
      · rw [own, ← right (own ▸ member)]
        exact Function.update_self _ _ _
      · have earlier := available_of_next available next fun sets => own (only nr sets)
        exact (Function.update_of_ne own _ _).trans (agrees.nodes nr member earlier)
    · rw [fixed]
      exact agrees.kept i phi (below i phi less source) source feeds
    · rw [fixed]
      exact agrees.brought parent k phi i nr came source feeds at' member (Nat.le_of_succ_le later)

omit closed in
theorem keep {phi : Nat} (here : f.insnAt s.point = some (.phisource phi)) :
    Agrees f base pseudo list (s.keep phi (s.eval base (f.phiDef phi).phiSrc)) := by
  have next : f.Next s.point (s.keep phi (s.eval base (f.phiDef phi).phiSrc)).point :=
    .within here rfl
  -- What is kept for the phi pseudo is right now, and nothing else changes.
  have still : ∀ bb i other, f.insnAt (bb, i) = some (.phisource other) →
      f.Feeds pseudo list other → ((bb, i) ≠ s.point → s.phis other = s.eval base pseudo) →
      Function.update s.phis phi (s.eval base (f.phiDef phi).phiSrc) other =
        s.eval base pseudo := by
    intro bb i other source feeds old
    by_cases same : other = phi
    · subst same
      rw [Function.update_self]
      exact agrees.eval_source formed here feeds
    · rw [Function.update_of_ne same]
      refine old fun place => same ?_
      rw [place, here] at source
      cases source
      rfl
  refine ⟨agrees.reachable.step next, agrees.came, fun nr member available => ?_,
    fun i other less source feeds => ?_,
    fun parent k other i nr came source feeds node member later => ?_⟩
  · refine agrees.nodes nr member (available_of_next available next ?_)
    rintro ⟨insn, same, writes⟩
    cases here.symm.trans same
    cases writes
  · refine still _ i other source feeds fun different => ?_
    refine agrees.kept i other ?_ source feeds
    refine (Nat.lt_succ_iff_lt_or_eq.mp less).resolve_right ?_
    rintro rfl
    exact different rfl
  · exact still _ k other source feeds fun _ =>
      agrees.brought parent k other i nr came source feeds node member (Nat.le_of_succ_le later)

omit closed formed in
theorem pass {uses : List Pseudo} (here : f.insnAt s.point = some (.other none uses)) :
    Agrees f base pseudo list s.skip := by
  have next : f.Next s.point s.skip.point := .within here rfl
  refine ⟨agrees.reachable.step next, agrees.came, fun nr member available => ?_,
    fun i other less source feeds => ?_,
    fun parent k other i nr came source feeds node member later => ?_⟩
  · refine agrees.nodes nr member (available_of_next available next ?_)
    rintro ⟨insn, same, writes⟩
    cases here.symm.trans same
    cases writes
  · refine agrees.kept i other ?_ source feeds
    refine (Nat.lt_succ_iff_lt_or_eq.mp less).resolve_right ?_
    rintro rfl
    cases here.symm.trans source
  · exact agrees.brought parent k other i nr came source feeds node member (Nat.le_of_succ_le later)

omit closed in
theorem goto {child : Block} (here : f.insnAt s.point = some insn)
    (target : child ∈ insn.targets) : Agrees f base pseudo list (s.goto child) := by
  have next : f.Next s.point (s.goto child).point := .along here target
  have ending := isTerminator_of_target target
  refine ⟨agrees.reachable.step next, fun parent came => ?_, fun nr member available => ?_,
    fun i other less => ?_, fun parent k other i nr came source feeds _ _ _ => ?_⟩
  · cases came
    exact ⟨s.point.2, insn, here, target⟩
  · refine agrees.nodes nr member (available_of_next available next ?_)
    rintro ⟨other, same, writes⟩
    cases here.symm.trans same
    cases insn with
    | cbr | jump => cases writes
    | phi | phisource | sel | other => cases ending
  · exact (Nat.not_lt_zero i less).elim
  · cases came
    refine agrees.kept k other ?_ source feeds
    have last : s.point.2 + 1 = (f.insns s.point.1).length :=
      formed.ending _ _ insn here ending
    have inside : k < (f.insns s.point.1).length := (List.getElem?_eq_some_iff.mp source).1
    have different : k ≠ s.point.2 := by
      rintro rfl
      cases here.symm.trans source
      cases ending
    omega

variable [Zero Value] [DecidableEq Value] {s' : State Block Value}

theorem step (step : f.Step base s s') : Agrees f base pseudo list s' := by
  cases step with
  | @phi target phi phiList parent here node entry came owner =>
    refine agrees.assign closed formed here rfl rfl fun member => ?_
    obtain ⟨phiList', node', inner⟩ := closed.covered target member
    cases node.symm.trans node'
    obtain ⟨source, k, sourceEntry, place, value, unique⟩ :=
      formed.source s.point.1 s.point.2 target phiList here node parent (agrees.came parent came)
    cases unique phi entry owner
    have feeds : f.Feeds pseudo list phi := by
      refine ⟨value, ?_⟩
      obtain dead | void | either := inner phi entry
      · cases owner.symm.trans dead
      · exact (value void).elim
      · exact either
    exact agrees.brought parent k phi s.point.2 target came place feeds here member (Nat.le_refl _)
  | phisource here => exact agrees.keep formed here
  | @sel target src1 src2 src3 here =>
    refine agrees.assign closed formed here rfl rfl fun member => ?_
    cases here.symm.trans (formed.phi_of_covered ⟨_, here, rfl⟩ (closed.covered target member))
  | @set target uses value here =>
    refine agrees.assign closed formed here rfl rfl fun member => ?_
    cases here.symm.trans (formed.phi_of_covered ⟨_, here, rfl⟩ (closed.covered target member))
  | pass here => exact agrees.pass here
  | cbr here =>
    refine agrees.goto formed here ?_
    split
    · exact mem_cons_self
    · exact mem_cons_of_mem _ mem_cons_self
  | jump here target => exact agrees.goto formed here target

end Agrees

variable [Zero Value] [DecidableEq Value] {base : Pseudo → Value} {s : State Block Value}

theorem agrees_of_runs (closed : f.Closed pseudo list) (formed : f.WellFormed)
    (runs : f.Runs base s) : Agrees f base pseudo list s := by
  induction runs with
  | enter regs phis =>
    refine ⟨Dominance.reachable_root, fun parent came => ?_, fun nr member available => ?_,
      fun i phi less => ?_, fun parent k phi i nr came => ?_⟩
    · cases came
    · obtain ⟨place, defines, before⟩ := available
      exact (Dominance.not_strictlyDominates_root before).elim
    · exact (Nat.not_lt_zero i less).elim
    · cases came
  | step earlier step ih => exact ih.step closed formed step

/-- When `trivial_phi` returns a pseudo for a phi-node, the pseudo is available and has the value of
the phi-node wherever its target is used, in every run. -/
theorem trivialPhi_sound (formed : f.WellFormed) {use : Point Block} {target fuel : Nat}
    {phiList : List (Option Nat)} (node : (f.regDef target).phiList = some phiList)
    (walk : f.trivialPhi fuel none target phiList [] = .unique pseudo list)
    (used : f.Uses use (.reg target)) :
    (f.Reachable use → f.Available pseudo use) ∧
      ∀ s : State Block Value, f.Runs base s → s.point = use →
        s.eval base (.reg target) = s.eval base pseudo := by
  obtain ⟨closed, member⟩ := trivialPhi_closed walk node
  refine ⟨fun reachable => ?_, fun s runs place => ?_⟩
  · exact closed.available_after formed member reachable (formed.strict use target reachable used)
  · have agrees := agrees_of_runs closed formed runs
    refine agrees.nodes target member (formed.strict _ target agrees.reachable ?_)
    rw [place]
    exact used

end Runs

section Diamond

def diamond (a b : Nat) : Function (Fin 4) where
  entry := 0
  insns := ![[.cbr (.arg 1) 1 2], [.phisource 0, .jump [] [3]], [.phisource 1, .jump [] [3]],
    [.phi 5, .jump [.reg 5] []]]
  parents := ![[], [0], [0], [1, 2]]
  children := ![[1, 2], [3], [3], []]
  phiDef := fun phi => if phi = 0 then ⟨some 1, .arg a⟩ else ⟨some 2, .arg b⟩
  regDef := fun reg => if reg = 5 then ⟨some 3, some [some 0, some 1]⟩ else ⟨none, none⟩

variable {a b : Nat}

theorem diamond_insnAt {point : Point (Fin 4)} {insn : Insn (Fin 4)}
    (here : (diamond a b).insnAt point = some insn) :
    (point, insn) ∈ ([((0, 0), .cbr (.arg 1) 1 2), ((1, 0), .phisource 0), ((1, 1), .jump [] [3]),
      ((2, 0), .phisource 1), ((2, 1), .jump [] [3]), ((3, 0), .phi 5),
      ((3, 1), .jump [.reg 5] [])] : List (Point (Fin 4) × Insn (Fin 4))) := by
  obtain ⟨bb, i⟩ := point
  unfold Function.insnAt at here
  obtain ⟨inside, rfl⟩ := List.getElem?_eq_some_iff.mp here
  fin_cases bb
  all_goals
    rcases i with _ | _ | i
    all_goals first | (simp [diamond]; done) | (simp [diamond] at inside; try omega)

theorem diamond_defines {point : Point (Fin 4)} {reg : Nat}
    (defines : (diamond a b).Defines point reg) : point = (3, 0) ∧ reg = 5 := by
  obtain ⟨insn, here, writes⟩ := defines
  have listed := diamond_insnAt here
  simp only [mem_cons, Prod.mk.injEq, not_mem_nil, or_false] at listed
  rcases listed with ⟨rfl, rfl⟩ | ⟨rfl, rfl⟩ | ⟨rfl, rfl⟩ | ⟨rfl, rfl⟩ | ⟨rfl, rfl⟩ | ⟨rfl, rfl⟩ |
    ⟨rfl, rfl⟩
  all_goals cases writes
  exact ⟨rfl, rfl⟩

theorem diamond_edge {bb child : Fin 4} : (diamond a b).Edge bb child ↔
    (bb, child) ∈ ([(0, 1), (0, 2), (1, 3), (2, 3)] : List (Fin 4 × Fin 4)) := by
  constructor
  · rintro ⟨i, insn, here, target⟩
    have listed := diamond_insnAt here
    simp only [mem_cons, Prod.mk.injEq, not_mem_nil, or_false] at listed
    rcases listed with ⟨⟨rfl, rfl⟩, rfl⟩ | ⟨⟨rfl, rfl⟩, rfl⟩ | ⟨⟨rfl, rfl⟩, rfl⟩ |
      ⟨⟨rfl, rfl⟩, rfl⟩ | ⟨⟨rfl, rfl⟩, rfl⟩ | ⟨⟨rfl, rfl⟩, rfl⟩ | ⟨⟨rfl, rfl⟩, rfl⟩
    all_goals simp_all [Insn.targets]
  · intro listed
    simp only [mem_cons, Prod.mk.injEq, not_mem_nil, or_false] at listed
    rcases listed with ⟨rfl, rfl⟩ | ⟨rfl, rfl⟩ | ⟨rfl, rfl⟩ | ⟨rfl, rfl⟩
    · exact ⟨0, .cbr (.arg 1) 1 2, rfl, by simp [Insn.targets]⟩
    · exact ⟨0, .cbr (.arg 1) 1 2, rfl, by simp [Insn.targets]⟩
    · exact ⟨1, .jump [] [3], rfl, by simp [Insn.targets]⟩
    · exact ⟨1, .jump [] [3], rfl, by simp [Insn.targets]⟩

theorem diamond_wellFormed : (diamond a b).WellFormed where
  once := fun p q reg first second =>
    (diamond_defines first).1.trans (diamond_defines second).1.symm
  owner := fun bb i reg defines => by
    obtain ⟨place, rfl⟩ := diamond_defines defines
    cases place
    rfl
  node := fun point reg defines => by
    obtain ⟨rfl, rfl⟩ := diamond_defines defines
    exact ⟨fun _ => Option.some_ne_none _, fun _ => rfl⟩
  sourceOnce := fun p q phi first second => by
    have one := diamond_insnAt first
    have two := diamond_insnAt second
    simp at one two
    rcases one with ⟨rfl, rfl⟩ | ⟨rfl, rfl⟩ <;> simp at two <;> exact two.symm
  ending := fun bb i insn here ends => by
    have listed := diamond_insnAt here
    simp only [mem_cons, Prod.mk.injEq, not_mem_nil, or_false] at listed
    rcases listed with ⟨⟨rfl, rfl⟩, rfl⟩ | ⟨⟨rfl, rfl⟩, rfl⟩ | ⟨⟨rfl, rfl⟩, rfl⟩ |
      ⟨⟨rfl, rfl⟩, rfl⟩ | ⟨⟨rfl, rfl⟩, rfl⟩ | ⟨⟨rfl, rfl⟩, rfl⟩ | ⟨⟨rfl, rfl⟩, rfl⟩
    all_goals first | rfl | cases ends
  parents := fun bb parent => by
    rw [diamond_edge]
    show parent ∈ (![[], [0], [0], [1, 2]] : Fin 4 → List (Fin 4)) bb ↔ _
    revert bb parent
    decide
  children := fun bb child => by
    rw [diamond_edge]
    show child ∈ (![[1, 2], [3], [3], []] : Fin 4 → List (Fin 4)) bb ↔ _
    revert bb child
    decide
  distinct := fun bb => by
    show ((![[], [0], [0], [1, 2]] : Fin 4 → List (Fin 4)) bb).Nodup
    revert bb
    decide
  entry := fun parent edge => by
    rw [diamond_edge] at edge
    simp [diamond] at edge
  noNode := fun i reg here => by
    have listed := diamond_insnAt here
    simp [diamond] at listed
  source := fun bb i reg phiList here node parent edge => by
    have listed := diamond_insnAt here
    simp at listed
    obtain ⟨⟨rfl, rfl⟩, rfl⟩ := listed
    cases node
    rw [diamond_edge] at edge
    simp at edge
    rcases edge with rfl | rfl
    · exact ⟨0, 0, by simp, rfl, by simp [diamond], by simp [diamond]⟩
    · exact ⟨1, 0, by simp, rfl, by simp [diamond], by simp [diamond]⟩
  sourceOwner := fun bb i phi here => by
    have listed := diamond_insnAt here
    simp at listed
    rcases listed with ⟨⟨rfl, rfl⟩, rfl⟩ | ⟨⟨rfl, rfl⟩, rfl⟩ <;> rfl
  strict := fun point reg reachable used => by
    obtain ⟨insn, here, operand⟩ := used
    have listed := diamond_insnAt here
    simp only [mem_cons, Prod.mk.injEq, not_mem_nil, or_false] at listed
    rcases listed with ⟨rfl, rfl⟩ | ⟨rfl, rfl⟩ | ⟨rfl, rfl⟩ | ⟨rfl, rfl⟩ | ⟨rfl, rfl⟩ |
      ⟨rfl, rfl⟩ | ⟨rfl, rfl⟩
    all_goals simp [Function.uses, diamond] at operand
    subst operand
    exact ⟨(3, 0), ⟨.phi 5, rfl, rfl⟩, before_within Nat.zero_lt_one⟩

/-- Both arms of the diamond give the same argument. -/
theorem trivialPhi_sound_diamond :
    ((diamond 7 7).Reachable (3, 1) → (diamond 7 7).Available (.arg 7) (3, 1)) ∧
      ∀ s : State (Fin 4) Nat, (diamond 7 7).Runs (fun _ => 0) s → s.point = (3, 1) →
        s.eval (fun _ => 0) (.reg 5) = s.eval (fun _ => 0) (.arg 7) := by
  have walk : (diamond 7 7).trivialPhi 1 none 5 [some 0, some 1] [] = .unique (.arg 7) [5] := rfl
  have used : (diamond 7 7).Uses (3, 1) (.reg 5) := ⟨_, rfl, mem_singleton_self _⟩
  exact trivialPhi_sound diamond_wellFormed rfl walk used

end Diamond

end SmatchFormal.Phi
