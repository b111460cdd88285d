import SmatchFormal.Lib.Backflow
import Mathlib.Data.List.Basic
import Mathlib.Logic.Function.Basic

/-!
# Tracking pseudo liveness

`track_pseudo_liveness` of `liveness.c`: the uses and definitions of every block, the propagation of
`needs` to the parents until nothing changes, and the removal of definitions that no child needs.
-/

namespace SmatchFormal.Liveness

/-- The pseudos an instruction can use.  A missing one is `void`. -/
inductive Pseudo
  | void
  | reg (nr : Nat)
  | arg (nr : Nat)
  | sym (nr : Nat)
  | val (value : Int)
  | phi (nr : Nat)
deriving DecidableEq, Repr

/-- The instructions with their operands.  `binary` stands for the opcodes `OP_BINARY`, `OP_FPCMP`
and `OP_BINCMP`, `unop` for `OP_UNOP`, `OP_SYMADDR` and `OP_SLICE`, `setval` for `OP_LABEL`,
`OP_SETVAL` and `OP_SETFVAL`, and `nop` for those that use no pseudo. -/
inductive Insn
  | ret (src : Pseudo)
  | computedgoto (src : Pseudo)
  | cbr (cond : Pseudo)
  | switch (cond : Pseudo)
  | binary (src1 src2 target : Pseudo)
  | unop (src target : Pseudo)
  | sel (src1 src2 src3 target : Pseudo)
  | fmadd (src1 src2 src3 target : Pseudo)
  | load (src target : Pseudo)
  | store (src target : Pseudo)
  | setval (target : Pseudo)
  | phi (target : Pseudo) (phiList : List Pseudo)
  | phisource (phiSrc target : Pseudo)
  | call (func target : Pseudo) (arguments : List Pseudo)
  | asm (inputs : List Pseudo) (outputs : List (Pseudo × Bool))
  | range (src1 src2 src3 : Pseudo)
  | copy (src target : Pseudo)
  | nop
deriving DecidableEq, Repr

/-- A function.  An instruction without a block is `none`.  For a register, `defBb` is the block of
its definition and `defIsPhi` says whether that is a phi node; `phiBb` is the block of the phi
source that defines a phi pseudo. -/
structure Function (Block : Type) where
  bbs : List Block
  insns : Block → List (Option Insn)
  parents : Block → List Block
  children : Block → List Block
  defBb : Nat → Option Block
  defIsPhi : Nat → Bool
  phiBb : Nat → Option Block

variable {Block : Type} [DecidableEq Block]

inductive Touch (Block : Type)
  | define (bb : Block) (pseudo : Pseudo)
  | use (bb : Block) (pseudo : Pseudo)

def phiDefines (f : Function Block) (target : Pseudo) (phiList : List Pseudo) :
    List (Touch Block) :=
  phiList.filterMap fun phi =>
    match phi with
    | .phi nr => (f.phiBb nr).map fun bb => .define bb target
    | _ => none

def asmLiveness (bb : Block) (inputs : List Pseudo) (outputs : List (Pseudo × Bool)) :
    List (Touch Block) :=
  inputs.map (.use bb) ++
    outputs.map fun entry => if entry.2 then .use bb entry.1 else .define bb entry.1

def trackInstructionUsage (f : Function Block) (bb : Block) : Insn → List (Touch Block)
  | .ret src => [.use bb src]
  | .computedgoto src => [.use bb src]
  | .cbr cond => [.use bb cond]
  | .switch cond => [.use bb cond]
  | .binary src1 src2 target => [.use bb src1, .use bb src2, .define bb target]
  | .unop src target => [.use bb src, .define bb target]
  | .sel src1 src2 src3 target =>
    [.use bb src1, .use bb src2, .use bb src3, .define bb target]
  | .load src target => [.use bb src, .define bb target]
  | .store src target => [.use bb src, .use bb target]
  | .setval target => [.define bb target]
  | .phi target phiList => phiDefines f target phiList
  | .phisource phiSrc _ => [.use bb phiSrc]
  | .call func target arguments =>
    .use bb func :: (if target ≠ .void then [.define bb target] else []) ++
      arguments.map (.use bb)
  | .asm inputs outputs => asmLiveness bb inputs outputs
  | .range src1 src2 src3 => [.use bb src1, .use bb src2, .use bb src3]
  | .fmadd _ _ _ _ => []
  | .copy _ _ => []
  | .nop => []

structure Lists (Block : Type) where
  needs : Block → List Pseudo
  defines : Block → List Pseudo
  changed : Bool

def Pseudo.trackable : Pseudo → Bool
  | .reg _ => true
  | .arg _ => true
  | _ => false

def Lists.addNeed (lists : Lists Block) (bb : Block) (pseudo : Pseudo) : Lists Block :=
  if pseudo ∈ lists.needs bb then lists
  else
    { lists with
      needs := Function.update lists.needs bb (lists.needs bb ++ [pseudo])
      changed := true }

/-- The test of `insn_uses`: not a register whose definition is in the block and no phi node. -/
def Function.usedFromOutside (f : Function Block) (bb : Block) : Pseudo → Bool
  | .reg nr => f.defBb nr ≠ some bb || f.defIsPhi nr
  | _ => true

def Lists.insnUses (f : Function Block) (lists : Lists Block) (bb : Block) (pseudo : Pseudo) :
    Lists Block :=
  if pseudo.trackable && f.usedFromOutside bb pseudo then lists.addNeed bb pseudo else lists

def Lists.insnDefines (lists : Lists Block) (bb : Block) (pseudo : Pseudo) : Lists Block :=
  { lists with defines := Function.update lists.defines bb (lists.defines bb ++ [pseudo]) }

def Lists.touch (f : Function Block) (lists : Lists Block) : Touch Block → Lists Block
  | .use bb pseudo => lists.insnUses f bb pseudo
  | .define bb pseudo => lists.insnDefines bb pseudo

def Function.touches (f : Function Block) (bb : Block) : List (Touch Block) :=
  (f.insns bb).flatMap fun insn => (insn.map (trackInstructionUsage f bb)).getD []

def Function.usages (f : Function Block) : Lists Block :=
  (f.bbs.flatMap f.touches).foldl (Lists.touch f) ⟨fun _ => [], fun _ => [], false⟩

/-- `track_bb_liveness`.  What is added for a block that is its own parent was in its list. -/
def Lists.trackBbLiveness (f : Function Block) (lists : Lists Block) (bb : Block) : Lists Block :=
  (lists.needs bb).foldl (fun lists needs =>
    (f.parents bb).foldl (fun lists parent =>
      if needs ∈ lists.defines parent then lists else lists.addNeed parent needs) lists) lists

def Lists.round (f : Function Block) (lists : Lists Block) : Lists Block :=
  f.bbs.reverse.foldl (Lists.trackBbLiveness f) { lists with changed := false }

def Lists.propagate (f : Function Block) : Nat → Lists Block → Option (Lists Block)
  | 0, _ => none
  | fuel + 1, lists =>
    let lists := lists.round f
    if lists.changed then lists.propagate f fuel else some lists

/-- The last loop: what no child needs is removed from `bb->defines`. -/
def Lists.prune (f : Function Block) (lists : Lists Block) : Lists Block :=
  { lists with
    defines := fun bb =>
      if bb ∈ f.bbs then
        (lists.defines bb).filter fun pseudo =>
          (f.children bb).any fun child => pseudo ∈ lists.needs child
      else lists.defines bb }

def trackPseudoLiveness (f : Function Block) (fuel : Nat) : Option (Lists Block) :=
  (f.usages.propagate f fuel).map (Lists.prune f)

def Insn.reads : Insn → List Pseudo
  | .ret src => [src]
  | .computedgoto src => [src]
  | .cbr cond => [cond]
  | .switch cond => [cond]
  | .binary src1 src2 _ => [src1, src2]
  | .unop src _ => [src]
  | .sel src1 src2 src3 _ => [src1, src2, src3]
  | .fmadd src1 src2 src3 _ => [src1, src2, src3]
  | .load src _ => [src]
  | .store src target => [src, target]
  | .setval _ => []
  | .phi _ _ => []
  | .phisource phiSrc _ => [phiSrc]
  | .call func _ arguments => func :: arguments
  | .asm inputs outputs => inputs ++ (outputs.filter (·.2)).map (·.1)
  | .range src1 src2 src3 => [src1, src2, src3]
  | .copy src _ => [src]
  | .nop => []

/-- The pseudos an instruction assigns where it stands; the target of a phi node is assigned in the
blocks of its phi sources. -/
def Insn.writes : Insn → List Pseudo
  | .binary _ _ target => [target]
  | .unop _ target => [target]
  | .sel _ _ _ target => [target]
  | .fmadd _ _ _ target => [target]
  | .load _ target => [target]
  | .setval target => [target]
  | .call _ target _ => if target ≠ .void then [target] else []
  | .asm _ outputs => (outputs.filter (!·.2)).map (·.1)
  | .copy _ target => [target]
  | _ => []

/-- The pseudo is assigned in the block, by an instruction there or, when the block is left, by a
phi node that has a source there. -/
def Function.Assigned (f : Function Block) (bb : Block) (pseudo : Pseudo) : Prop :=
  (∃ insn, some insn ∈ f.insns bb ∧ pseudo ∈ insn.writes) ∨
    ∃ b ∈ f.bbs, ∃ phiList nr, some (.phi pseudo phiList) ∈ f.insns b ∧ .phi nr ∈ phiList ∧
      f.phiBb nr = some bb

/-- The pseudo is read in the block before any instruction of the block assigns it. -/
def Function.Exposed (f : Function Block) (bb : Block) (pseudo : Pseudo) : Prop :=
  ∃ before insn after, f.insns bb = before ++ some insn :: after ∧ pseudo ∈ insn.reads ∧
    ∀ other, some other ∈ before → pseudo ∉ other.writes

/-- The pseudo is live on entry to the block: it is read on some path before it is assigned. -/
def Function.Live (f : Function Block) : Block → Pseudo → Prop :=
  Backflow.Flows f.Exposed f.Assigned fun bb child => child ∈ f.children bb

structure Lists.Exact (f : Function Block) (lists : Lists Block) : Prop where
  needs : ∀ bb ∈ f.bbs, ∀ pseudo, pseudo ∈ lists.needs bb ↔
    pseudo.trackable = true ∧ f.Live bb pseudo
  defines : ∀ bb ∈ f.bbs, ∀ pseudo, pseudo ∈ lists.defines bb ↔
    f.Assigned bb pseudo ∧ ∃ child ∈ f.children bb, f.Live child pseudo

def Function.TracksRight (f : Function Block) : Prop :=
  ∃ fuel lists, trackPseudoLiveness f fuel = some lists ∧ lists.Exact f

end SmatchFormal.Liveness
