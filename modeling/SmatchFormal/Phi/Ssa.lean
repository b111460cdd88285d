import SmatchFormal.Lib.Dominance
import Mathlib.Logic.Function.Basic
import Mathlib.Logic.Relation

/-!
# Functions with phi-nodes

The instructions that `simplify.c` sees when it looks at a phi-node, and what their execution does:
an `OP_PHISOURCE` keeps a value in its block, and the `OP_PHI` takes the one that was kept in the
block from which its own block was entered.
-/

namespace SmatchFormal.Phi

/-- `pseudo_t`, but for those of phi-sources. -/
inductive Pseudo where
  | void
  | undef (nr : Nat)
  | reg (nr : Nat)
  | arg (nr : Nat)
  | sym (nr : Nat)
  | val (value : Int)
  deriving DecidableEq, Repr

/-- The instructions.  The operands of `OP_PHI` and `OP_PHISOURCE` are found through their targets;
`jump` is any terminator but `OP_CBR`, and `other` any instruction that may set a register. -/
inductive Insn (Block : Type) where
  | phi (target : Nat)
  | phisource (target : Nat)
  | sel (target : Nat) (src1 src2 src3 : Pseudo)
  | cbr (cond : Pseudo) (bbTrue bbFalse : Block)
  | jump (uses : List Pseudo) (targets : List Block)
  | other (target : Option Nat) (uses : List Pseudo)
  deriving DecidableEq, Repr

/-- The instruction that defines a phi pseudo.  It has no block once it is dead. -/
structure PhiSource (Block : Type) where
  bb : Option Block
  phiSrc : Pseudo

/-- The instruction that defines a register, with the phi list if it is an `OP_PHI`.  An entry of
the list is void when the source has been removed. -/
structure RegDef (Block : Type) where
  bb : Option Block
  phiList : Option (List (Option Nat))

abbrev Point (Block : Type) := Block × Nat

structure Function (Block : Type) where
  entry : Block
  insns : Block → List (Insn Block)
  parents : Block → List Block
  children : Block → List Block
  phiDef : Nat → PhiSource Block
  regDef : Nat → RegDef Block

namespace Insn

variable {Block : Type}

def targets : Insn Block → List Block
  | .cbr _ bbTrue bbFalse => [bbTrue, bbFalse]
  | .jump _ targets => targets
  | _ => []

def isTerminator : Insn Block → Bool
  | .cbr _ _ _ => true
  | .jump _ _ => true
  | _ => false

def defines : Insn Block → Option Nat
  | .phi target => some target
  | .sel target _ _ _ => some target
  | .other target _ => target
  | _ => none

end Insn

namespace Function

variable {Block : Type} (f : Function Block)

def insnAt (point : Point Block) : Option (Insn Block) := (f.insns point.1)[point.2]?

def uses : Insn Block → List Pseudo
  | .phi _ => []
  | .phisource target => [(f.phiDef target).phiSrc]
  | .sel _ src1 src2 src3 => [src1, src2, src3]
  | .cbr cond _ _ => [cond]
  | .jump uses _ => uses
  | .other _ uses => uses

def Uses (point : Point Block) (pseudo : Pseudo) : Prop :=
  ∃ insn, f.insnAt point = some insn ∧ pseudo ∈ f.uses insn

def Defines (point : Point Block) (target : Nat) : Prop :=
  ∃ insn, f.insnAt point = some insn ∧ insn.defines = some target

def Edge (bb child : Block) : Prop :=
  ∃ i insn, f.insnAt (bb, i) = some insn ∧ child ∈ insn.targets

inductive Next : Point Block → Point Block → Prop
  | within {bb : Block} {i : Nat} {insn : Insn Block} (here : f.insnAt (bb, i) = some insn)
      (inner : insn.isTerminator = false) : Next (bb, i) (bb, i + 1)
  | along {bb child : Block} {i : Nat} {insn : Insn Block} (here : f.insnAt (bb, i) = some insn)
      (target : child ∈ insn.targets) : Next (bb, i) (child, 0)

def start : Point Block := (f.entry, 0)

def Reachable (point : Point Block) : Prop := Dominance.Reachable f.Next f.start point

def Before (first second : Point Block) : Prop :=
  Dominance.StrictlyDominates f.Next f.start first second

def Available (pseudo : Pseudo) (point : Point Block) : Prop :=
  match pseudo with
  | .void => False
  | .reg target => ∃ place, f.Defines place target ∧ f.Before place point
  | _ => True

/-- Static single assignment form, with one phi-source for each incoming edge of a phi-node. -/
structure WellFormed : Prop where
  once : ∀ p q target, f.Defines p target → f.Defines q target → p = q
  owner : ∀ bb i target, f.Defines (bb, i) target → (f.regDef target).bb = some bb
  node : ∀ point target, f.Defines point target →
    (f.insnAt point = some (.phi target) ↔ (f.regDef target).phiList ≠ none)
  sourceOnce : ∀ p q phi, f.insnAt p = some (.phisource phi) →
    f.insnAt q = some (.phisource phi) → p = q
  ending : ∀ bb i insn, f.insnAt (bb, i) = some insn → insn.isTerminator = true →
    i + 1 = (f.insns bb).length
  parents : ∀ bb parent, parent ∈ f.parents bb ↔ f.Edge parent bb
  children : ∀ bb child, child ∈ f.children bb ↔ f.Edge bb child
  distinct : ∀ bb, (f.parents bb).Nodup
  entry : ∀ parent, ¬ f.Edge parent f.entry
  noNode : ∀ i target, f.insnAt (f.entry, i) ≠ some (.phi target)
  source : ∀ bb i target phiList, f.insnAt (bb, i) = some (.phi target) →
    (f.regDef target).phiList = some phiList → ∀ parent, f.Edge parent bb →
      ∃ phi k, some phi ∈ phiList ∧ f.insnAt (parent, k) = some (.phisource phi) ∧
        (f.phiDef phi).phiSrc ≠ .void ∧
        ∀ other, some other ∈ phiList → (f.phiDef other).bb = some parent → other = phi
  sourceOwner : ∀ bb i phi, f.insnAt (bb, i) = some (.phisource phi) →
    (f.phiDef phi).bb = some bb
  strict : ∀ point target, f.Reachable point → f.Uses point (.reg target) →
    f.Available (.reg target) point

end Function

section Execution

variable {Block Value : Type}

structure State (Block Value : Type) where
  point : Point Block
  prev : Option Block
  regs : Nat → Value
  phis : Nat → Value

namespace State

/-- The value of a pseudo.  Those that no instruction defines have a fixed one. -/
def eval (base : Pseudo → Value) (s : State Block Value) : Pseudo → Value
  | .reg nr => s.regs nr
  | pseudo => base pseudo

def skip (s : State Block Value) : State Block Value :=
  { s with point := (s.point.1, s.point.2 + 1) }

def assign (s : State Block Value) (target : Nat) (value : Value) : State Block Value :=
  { s.skip with regs := Function.update s.regs target value }

def keep (s : State Block Value) (phi : Nat) (value : Value) : State Block Value :=
  { s.skip with phis := Function.update s.phis phi value }

def goto (s : State Block Value) (bb : Block) : State Block Value :=
  { s with point := (bb, 0), prev := some s.point.1 }

end State

variable [Zero Value] [DecidableEq Value]

inductive Function.Step (f : Function Block) (base : Pseudo → Value) :
    State Block Value → State Block Value → Prop
  | phi {s : State Block Value} {target phi : Nat} {phiList : List (Option Nat)} {parent : Block}
      (here : f.insnAt s.point = some (.phi target))
      (list : (f.regDef target).phiList = some phiList) (member : some phi ∈ phiList)
      (came : s.prev = some parent) (source : (f.phiDef phi).bb = some parent) :
      f.Step base s (s.assign target (s.phis phi))
  | phisource {s : State Block Value} {phi : Nat}
      (here : f.insnAt s.point = some (.phisource phi)) :
      f.Step base s (s.keep phi (s.eval base (f.phiDef phi).phiSrc))
  | sel {s : State Block Value} {target : Nat} {src1 src2 src3 : Pseudo}
      (here : f.insnAt s.point = some (.sel target src1 src2 src3)) :
      f.Step base s
        (s.assign target (s.eval base (if s.eval base src1 ≠ 0 then src2 else src3)))
  | set {s : State Block Value} {target : Nat} {uses : List Pseudo} (value : Value)
      (here : f.insnAt s.point = some (.other (some target) uses)) :
      f.Step base s (s.assign target value)
  | pass {s : State Block Value} {uses : List Pseudo}
      (here : f.insnAt s.point = some (.other none uses)) : f.Step base s s.skip
  | cbr {s : State Block Value} {cond : Pseudo} {bbTrue bbFalse : Block}
      (here : f.insnAt s.point = some (.cbr cond bbTrue bbFalse)) :
      f.Step base s (s.goto (if s.eval base cond ≠ 0 then bbTrue else bbFalse))
  | jump {s : State Block Value} {uses : List Pseudo} {targets : List Block} {child : Block}
      (here : f.insnAt s.point = some (.jump uses targets)) (target : child ∈ targets) :
      f.Step base s (s.goto child)

inductive Function.Runs (f : Function Block) (base : Pseudo → Value) : State Block Value → Prop
  | enter (regs phis : Nat → Value) : f.Runs base ⟨f.start, none, regs, phis⟩
  | step {s s' : State Block Value} (earlier : f.Runs base s) (step : f.Step base s s') :
      f.Runs base s'

end Execution

section Places

variable {Block : Type} {f : Function Block} {bb : Block} {i j : Nat} {p q : Point Block}

theorem Function.Next.pred_succ (next : f.Next p (bb, i + 1)) : p = (bb, i) := by
  cases next
  rfl

theorem Function.Next.pred_zero (next : f.Next p (bb, 0)) :
    ∃ insn, f.insnAt p = some insn ∧ bb ∈ insn.targets := by
  cases next with
  | along here target => exact ⟨_, here, target⟩

theorem isTerminator_of_target {insn : Insn Block} (target : bb ∈ insn.targets) :
    insn.isTerminator = true := by
  cases insn with
  | cbr | jump => rfl
  | phi | phisource | sel | other => cases target

/-- The earlier places of a block come before the later ones. -/
theorem dominates_within (f : Function Block) (bb : Block) (order : i ≤ j) :
    Dominance.Dominates f.Next f.start (bb, i) (bb, j) := by
  induction order with
  | refl => exact Dominance.Dominates.refl _
  | step order ih =>
    intro nodes path
    cases path with
    | step path next =>
      cases next.pred_succ
      exact List.mem_cons_of_mem _ (ih _ path)

theorem before_within (order : i < j) : f.Before (bb, i) (bb, j) := by
  refine ⟨dominates_within f bb (Nat.le_of_lt order), fun same => ?_⟩
  cases same
  exact Nat.lt_irrefl _ order

/-- What comes before a place comes before or at the places that lead to it. -/
theorem Function.Before.of_next (before : f.Before p q) {r : Point Block} (next : f.Next r q) :
    p = r ∨ f.Before p r := by
  by_cases same : p = r
  · exact .inl same
  · exact .inr ⟨before.1.of_edge before.2 next, same⟩

theorem Function.Before.trans {r : Point Block} (reachable : f.Reachable r)
    (first : f.Before p q) (second : Dominance.Dominates f.Next f.start q r) : f.Before p r := by
  refine ⟨first.1.trans second, ?_⟩
  rintro rfl
  exact first.2 (Dominance.Dominates.antisymm reachable second first.1).symm

theorem Function.Before.asymm (reachable : f.Reachable p) (first : f.Before p q)
    (second : Dominance.Dominates f.Next f.start q p) : False :=
  (first.trans reachable second).2 rfl

theorem reachable_of_dominates (reachable : f.Reachable q)
    (first : Dominance.Dominates f.Next f.start p q) : f.Reachable p := by
  obtain ⟨nodes, path⟩ := reachable
  obtain ⟨part, shorter, -⟩ := path.to_mem (first nodes path)
  exact ⟨part, shorter⟩

theorem Function.Available.later {pseudo : Pseudo} (reachable : f.Reachable q)
    (available : f.Available pseudo p) (first : Dominance.Dominates f.Next f.start p q) :
    f.Available pseudo q := by
  cases pseudo with
  | void => exact available
  | reg target =>
    obtain ⟨place, defines, before⟩ := available
    exact ⟨place, defines, before.trans reachable first⟩
  | undef | arg | sym | val => trivial

variable {Value : Type} [Zero Value] [DecidableEq Value] {base : Pseudo → Value}
  {s s' : State Block Value}

theorem Function.Step.next (step : f.Step base s s') : f.Next s.point s'.point := by
  cases step with
  | phi here | phisource here | sel here | set value here | pass here => exact .within here rfl
  | cbr here =>
    refine .along here ?_
    split
    · exact List.mem_cons_self
    · exact List.mem_cons_of_mem _ List.mem_cons_self
  | jump here target => exact .along here target

theorem reachable_of_runs (runs : f.Runs base s) : f.Reachable s.point := by
  induction runs with
  | enter regs phis => exact Dominance.reachable_root
  | step earlier step ih => exact ih.step step.next

end Places

end SmatchFormal.Phi
