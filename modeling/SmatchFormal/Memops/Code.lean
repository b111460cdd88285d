import Mathlib.Data.List.Forall2
import Mathlib.Tactic.Ring

/-!
# Eliminating stores

`kill_dominated_stores` of `memops.c` looks back from a store for memory operations on
the same place.  A store that is overwritten is killed, and so is one that writes what is
there already.  The instructions before it in its block are looked at from the last to the
first, those of a parent with one child from the first to the last.  What computed the stored
value goes with the store when nothing else uses it.
-/

namespace SmatchFormal.Memops

inductive Pseudo where
  | reg (nr : Nat)
  | sym (nr : Nat)
  | val (value : Int)
  deriving DecidableEq

/-- What a memory operation accesses: the offset is in bytes and the size in bits. -/
structure Place where
  src : Pseudo
  offset : Int
  size : Nat
  deriving DecidableEq

/-- The instructions, as far as memory is concerned.  All that compute from pseudos only, and
those that end a block, are `op`; their arguments are in the order of `kill_insn`. -/
inductive Insn where
  | load (target : Nat) (place : Place) (isVolatile : Bool)
  | store (value : Pseudo) (place : Place) (isVolatile typed : Bool)
  | call (id : Nat) (target : Option Nat) (args : List Pseudo) (isPure : Bool)
  | entry
  | asm (id : Nat) (targets : List Nat) (args : List Pseudo)
      (clobberMemory outputMemory inputMemory : Bool)
  | op (id : Nat) (target : Option Nat) (args : List Pseudo) (isFmadd : Bool)
  deriving DecidableEq

namespace Insn

def defines : Insn → List Nat
  | load target _ _ => [target]
  | store _ _ _ _ => []
  | call _ target _ _ => target.toList
  | entry => []
  | asm _ targets _ _ _ _ => targets
  | op _ target _ _ => target.toList

def values : Insn → List Pseudo
  | load _ _ _ => []
  | store value _ _ _ => [value]
  | call _ _ args _ => args
  | entry => []
  | asm _ _ args _ _ _ => args
  | op _ _ args _ => args

def place? : Insn → Option Place
  | load _ place _ => some place
  | store _ place _ _ => some place
  | _ => none

def uses (insn : Insn) : List Pseudo := (insn.place?.map Place.src).toList ++ insn.values

/-- The uses that `kill_insn` removes.  It forgets those of an `OP_FMADD`. -/
def killedUses : Insn → List Pseudo
  | op _ _ _ true => []
  | insn => insn.uses

def keptUses : Insn → List Pseudo
  | op _ _ args true => args
  | _ => []

/-- What `kill_insn` kills when it is not forced to. -/
def isKillable : Insn → Bool
  | load _ _ isVolatile => !isVolatile
  | call _ _ _ isPure => isPure
  | op _ _ _ _ => true
  | _ => false

def memTarget : Insn → Option Pseudo
  | load target _ _ => some (.reg target)
  | store value _ _ _ => some value
  | _ => none

end Insn

/-- `struct basic_block`.  An instruction that was killed stays in the list, without a block. -/
structure Block where
  insns : List (Option Insn)
  parents : List Nat
  children : List Nat

/-- The code of a function.  A symbol is static when it has `MOD_STATIC` or `MOD_NONLOCAL`.  A
stale use is one by an instruction that was killed. -/
structure Code where
  blocks : List Block
  isStatic : Nat → Bool
  stale : List Pseudo := []

namespace Code

def insns (code : Code) (bb : Nat) : List (Option Insn) :=
  (code.blocks[bb]?.map Block.insns).getD []

def parents (code : Code) (bb : Nat) : List Nat := (code.blocks[bb]?.map Block.parents).getD []

def children (code : Code) (bb : Nat) : List Nat := (code.blocks[bb]?.map Block.children).getD []

def insn? (code : Code) (pos : Nat × Nat) : Option Insn := ((code.insns pos.1)[pos.2]?).join

def anyInsn (code : Code) (test : Insn → Bool) : Bool :=
  code.blocks.any fun block => block.insns.any fun insn => insn.any test

def has (code : Code) (insn : Insn) : Bool := code.anyInsn fun other => other == insn

def clear (code : Code) (pos : Nat × Nat) : Code :=
  { code with
    blocks := code.blocks.modify pos.1 fun block =>
      { block with insns := block.insns.set pos.2 none }
    stale := code.stale ++ ((code.insn? pos).map Insn.keptUses).getD [] }

/-- The pseudo still has users, some of them instructions that are being killed. -/
def isUsed (code : Code) (pending : List Pseudo) (pseudo : Pseudo) : Bool :=
  pending.contains pseudo || code.stale.contains pseudo ||
    code.anyInsn fun insn => insn.uses.contains pseudo

def positions (code : Code) : List (Nat × Nat) :=
  (List.range code.blocks.length).flatMap fun bb =>
    (List.range (code.insns bb).length).map fun index => (bb, index)

/-- `pseudo->def`, unless it was killed. -/
def definition? (code : Code) : Pseudo → Option (Nat × Nat)
  | .reg nr => code.positions.find? fun pos =>
      (code.insn? pos).any fun insn => insn.defines.contains nr
  | _ => none

/-- What `rem_usage` kills: the definition of a pseudo that has no users any more. -/
def deadDefinition? (code : Code) (pending : List Pseudo) (pseudo : Pseudo) : Option (Nat × Nat) :=
  if code.isUsed pending pseudo then none
  else (code.definition? pseudo).filter fun pos => (code.insn? pos).any Insn.isKillable

/-- `kill_use`, for all uses of the instructions that are being killed.  Those of an instruction
that is killed on the way come first. -/
def killUses (code : Code) : Nat → List Pseudo → Code
  | fuel + 1, pseudo :: pending =>
    match code.deadDefinition? pending pseudo with
    | some pos =>
      killUses (code.clear pos) fuel
        (((code.insn? pos).map Insn.killedUses).getD [] ++ pending)
    | none => killUses code fuel pending
  | _, _ => code

def useCount (code : Code) : Nat :=
  (code.positions.map fun pos => (((code.insn? pos).map Insn.uses).getD []).length).sum

def kill (code : Code) (pos : Nat × Nat) : Code :=
  (code.clear pos).killUses code.useCount (((code.insn? pos).map Insn.killedUses).getD [])

def addressTaken (code : Code) (nr : Nat) : Bool :=
  code.anyInsn fun insn => insn.values.contains (.sym nr)

def localPseudo (code : Code) : Pseudo → Bool
  | .sym nr => !code.isStatic nr && !code.addressTaken nr
  | _ => false

end Code

inductive Dominance where
  | no | yes | unknown
  deriving DecidableEq

def bytesToBits (offset : Int) : BitVec 32 := BitVec.ofInt 32 offset * 8

def overlappingMemop (a b : Place) : Bool :=
  let aStart := bytesToBits a.offset
  let bStart := bytesToBits b.offset
  let aSize := BitVec.ofNat 32 a.size
  let bSize := BitVec.ofNat 32 b.size
  if (aSize + aStart).ule bStart then false
  else if (bSize + bStart).ule aStart then false
  else true

def sameMemop (a b : Place) : Bool := a.offset == b.offset && a.size == b.size

def distinctSymbols : Pseudo → Pseudo → Bool
  | .sym a, .sym b => a != b
  | _, _ => false

def dominatesPlace (insn dom : Place) (isLocal : Bool) : Dominance :=
  if dom.src ≠ insn.src then
    if isLocal then .no
    else if distinctSymbols insn.src dom.src then .no
    else .unknown
  else if sameMemop insn dom then .yes
  else if overlappingMemop insn dom then .unknown
  else .no

def dominates (insn : Place) (dom : Insn) (isLocal : Bool) : Dominance :=
  match dom with
  | .call _ _ _ _ | .entry => if isLocal then .no else .unknown
  | .load _ place _ | .store _ place _ _ => dominatesPlace insn place isLocal
  | .asm _ _ _ clobberMemory outputMemory _ =>
    if clobberMemory then .unknown else if outputMemory then .unknown else .no
  | .op _ _ _ _ => .no

/-- A store that is killed: the code before that, the store that is looked at with its place, the
memory operation that is compared with it, and which of both goes. -/
structure Kill where
  code : Code
  insn : Nat × Nat
  place : Place
  isLocal : Bool
  dom : Nat × Nat
  victim : Nat × Nat

structure Pass where
  code : Code
  kills : List Kill

structure Looking where
  pos : Nat × Nat
  value : Pseudo
  place : Place
  isLocal : Bool

def Pass.kill (pass : Pass) (store : Looking) (dom victim : Nat × Nat) : Pass :=
  ⟨pass.code.kill victim,
    pass.kills ++ [⟨pass.code, store.pos, store.place, store.isLocal, dom, victim⟩]⟩

def tryToKillStore (pass : Pass) (store : Looking) (pos : Nat × Nat) (dom : Insn) : Pass × Bool :=
  match dominates store.place dom store.isLocal with
  | .no => (pass, true)
  | .unknown => (pass, false)
  | .yes =>
    if dom.memTarget = some store.value ∧ store.pos.1 = pos.1 then
      (pass.kill store pos store.pos, false)
    else
      match dom with
      | .store _ _ false _ => (pass.kill store pos pos, true)
      | _ => (pass, false)

/-- The loop over the instructions before the store, from the last to the first. -/
def scanBlock (store : Looking) (pass : Pass) : Nat → Pass × Bool
  | 0 => (pass, true)
  | index + 1 =>
    match pass.code.insn? (store.pos.1, index) with
    | none => scanBlock store pass index
    | some dom =>
      let result := tryToKillStore pass store (store.pos.1, index) dom
      if result.2 then scanBlock store result.1 index else (result.1, false)

/-- The loop over the instructions of a parent, from the first to the last. -/
def scanParent (store : Looking) (par : Nat) (pass : Pass) : List Nat → Pass
  | [] => pass
  | index :: indices =>
    match pass.code.insn? (par, index) with
    | none => scanParent store par pass indices
    | some dom =>
      if (par, index) = store.pos then pass
      else
        let result := tryToKillStore pass store (par, index) dom
        if result.2 then scanParent store par result.1 indices else result.1

def scanParents (store : Looking) (pass : Pass) : List Nat → Pass
  | [] => pass
  | par :: parents =>
    if (pass.code.children par).length = 1 then
      scanParents store
        (scanParent store par pass (List.range (pass.code.insns par).length)) parents
    else scanParents store pass parents

def killStore (pass : Pass) (pos : Nat × Nat) : Pass :=
  match pass.code.insn? pos with
  | some (.store value place false true) =>
    let store : Looking := ⟨pos, value, place, pass.code.localPseudo place.src⟩
    let result := scanBlock store pass pos.2
    if result.2 then scanParents store result.1 (result.1.code.parents pos.1) else result.1
  | _ => pass

def killDominatedStores (pass : Pass) (bb : Nat) : Pass :=
  ((List.range (pass.code.insns bb).length).reverse.map fun index => (bb, index)).foldl
    killStore pass

/-- The loop of `simplify_memops` over all blocks, from the last to the first. -/
def killStores (code : Code) : Pass :=
  (List.range code.blocks.length).reverse.foldl killDominatedStores ⟨code, []⟩

end SmatchFormal.Memops
