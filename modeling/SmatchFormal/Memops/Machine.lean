import SmatchFormal.Memops.Code

/-!
# Executing code

Memory consists of objects, and of bits in each of them.  What an operation computes, what a
call does and where a block goes on are left open: only the address of a symbol that was
taken can turn up in a value again.
-/

namespace SmatchFormal.Memops

inductive Object where
  | symbol (nr : Nat)
  | other (nr : Nat)
  deriving DecidableEq

structure Machine where
  Val : Type
  Cell : Type
  World : Type
  constant : Int → Val
  address : Nat → Val
  /-- The object and the byte that a value points to. -/
  pointee : Val → Object × Int
  /-- The bits of a value, and the value of some bits. -/
  split : Nat → Val → Nat → Cell
  join : Nat → (Nat → Cell) → Val
  blank : Cell
  op : Nat → List Val → Val
  /-- The results of a call or an asm, and what it does to the rest of the world and to memory. -/
  effect : Nat → List Val → World → (Object → Int → Cell) →
    (Nat → Val) × World × (Object → Int → Cell)
  /-- The block that is executed next. -/
  next : Nat → (Nat → Val) → Option Nat
  /-- The address of a symbol can be computed from a value. -/
  reach : Val → Nat → Prop
  reachCell : Cell → Nat → Prop
  reachWorld : World → Nat → Prop

namespace Machine

variable (m : Machine)

def Memory : Type := Object → Int → m.Cell

@[ext]
structure State where
  regs : Nat → m.Val
  mem : m.Memory
  world : m.World

/-- What can be observed: the value of a load, and the memory that a call or an asm sees. -/
inductive Event where
  | load (value : m.Val)
  | effect (id : Nat) (args : List m.Val) (mem : m.Memory)

variable {m}

def value (regs : Nat → m.Val) : Pseudo → m.Val
  | .reg nr => regs nr
  | .sym nr => m.address nr
  | .val n => m.constant n

def locate (regs : Nat → m.Val) (place : Place) : Object × Int :=
  match place.src with
  | .sym nr => (.symbol nr, place.offset * 8)
  | src => ((m.pointee (value regs src)).1, ((m.pointee (value regs src)).2 + place.offset) * 8)

def Covers (regs : Nat → m.Val) (place : Place) (object : Object) (bit : Int) : Prop :=
  object = (locate regs place).1 ∧ (locate regs place).2 ≤ bit ∧
    bit < (locate regs place).2 + place.size

instance (regs : Nat → m.Val) (place : Place) (object : Object) (bit : Int) :
    Decidable (Covers regs place object bit) :=
  inferInstanceAs (Decidable (_ ∧ _ ∧ _))

def read (regs : Nat → m.Val) (mem : m.Memory) (place : Place) : m.Val :=
  m.join place.size fun i => mem (locate regs place).1 ((locate regs place).2 + i)

def write (regs : Nat → m.Val) (mem : m.Memory) (place : Place) (new : m.Val) : m.Memory :=
  fun object bit =>
    if Covers regs place object bit then m.split place.size new (bit - (locate regs place).2).toNat
    else mem object bit

def define (regs : Nat → m.Val) (targets : List Nat) (results : Nat → m.Val) : Nat → m.Val :=
  fun reg => if reg ∈ targets then results (targets.idxOf reg) else regs reg

def perform (id : Nat) (targets : List Nat) (args : List Pseudo) (st : m.State) :
    List m.Event × m.State :=
  let values := args.map (value st.regs)
  let result := m.effect id values st.world st.mem
  ([.effect id values st.mem],
    { regs := define st.regs targets result.1, mem := result.2.2, world := result.2.1 })

/-- One instruction.  An asm without memory operands and clobbers does not see memory, and
without outputs in memory it does not change it.  A pure call changes nothing. -/
def exec (st : m.State) : Insn → List m.Event × m.State
  | .load target place _ =>
    ([.load (read st.regs st.mem place)],
      { st with regs := define st.regs [target] fun _ => read st.regs st.mem place })
  | .store new place _ _ =>
    ([], { st with mem := write st.regs st.mem place (value st.regs new) })
  | .call id target args isPure =>
    let result := perform id target.toList args st
    (result.1, if isPure then { result.2 with mem := st.mem, world := st.world } else result.2)
  | .entry => ([], st)
  | .asm id targets args clobberMemory outputMemory inputMemory =>
    if clobberMemory || outputMemory || inputMemory then
      let result := perform id targets args st
      (result.1, if clobberMemory || outputMemory then result.2 else
        { result.2 with mem := st.mem })
    else
      ([], { (perform id targets args { st with mem := fun _ _ => m.blank }).2 with mem := st.mem })
  | .op id target args _ =>
    ([], { st with
      regs := define st.regs target.toList fun _ => m.op id (args.map (value st.regs)) })

def execList (st : m.State) : List (Option Insn) → List (Insn × m.Event) × m.State
  | [] => ([], st)
  | none :: insns => execList st insns
  | some insn :: insns =>
    let first := exec st insn
    let rest := execList first.2 insns
    (first.1.map (fun event => (insn, event)) ++ rest.1, rest.2)

inductive Outcome (m : Machine) where
  | running (bb : Nat) (st : m.State)
  | done (st : m.State)

def run (code : Code) : Nat → Nat → m.State → List (Insn × m.Event) × m.Outcome
  | 0, bb, st => ([], .running bb st)
  | count + 1, bb, st =>
    let result := execList st (code.insns bb)
    match m.next bb result.2.regs with
    | none => (result.1, .done result.2)
    | some child =>
      let rest := run code count child result.2
      (result.1 ++ rest.1, rest.2)

/-! ## Addresses -/

/-- The address of a symbol is not known to a call or an asm. -/
structure Hidden (isStatic : Nat → Bool) (nr : Nat) (args : List m.Val) (world : m.World)
    (mem : m.Memory) : Prop where
  auto : isStatic nr = false
  args : ∀ v ∈ args, ¬m.reach v nr
  world : ¬m.reachWorld world nr
  mem : ∀ object bit, ¬m.reachCell (mem object bit) nr

/-- Values keep their bits, addresses do not come from nowhere, and a call or an asm has nothing
to do with a symbol that is hidden from it. -/
structure Lawful (m : Machine) (isStatic : Nat → Bool) : Prop where
  join_congr : ∀ {size c c'}, (∀ i < size, c i = c' i) → m.join size c = m.join size c'
  split_join : ∀ {size c i}, i < size → m.split size (m.join size c) i = c i
  constant_reach : ∀ n nr, ¬m.reach (m.constant n) nr
  address_reach : ∀ {nr' nr}, m.reach (m.address nr') nr → nr' = nr
  pointee_reach : ∀ {v nr}, isStatic nr = false → (m.pointee v).1 = .symbol nr → m.reach v nr
  split_reach : ∀ {size v i nr}, m.reachCell (m.split size v i) nr → m.reach v nr
  join_reach : ∀ {size c nr}, m.reach (m.join size c) nr → ∃ i < size, m.reachCell (c i) nr
  blank_reach : ∀ nr, ¬m.reachCell m.blank nr
  op_reach : ∀ {id args nr}, m.reach (m.op id args) nr → ∃ v ∈ args, m.reach v nr
  effect_reach : ∀ (id : Nat) {args world mem nr}, Hidden isStatic nr args world mem →
    (∀ k, ¬m.reach ((m.effect id args world mem).1 k) nr) ∧
      ¬m.reachWorld (m.effect id args world mem).2.1 nr ∧
      ∀ object bit, ¬m.reachCell ((m.effect id args world mem).2.2 object bit) nr
  effect_keep : ∀ (id : Nat) {args world mem nr}, Hidden isStatic nr args world mem →
    (m.effect id args world mem).2.2 (.symbol nr) = mem (.symbol nr)
  effect_frame : ∀ (id : Nat) {args world mem mem' nr}, Hidden isStatic nr args world mem →
    Hidden isStatic nr args world mem' →
      (∀ object, object ≠ .symbol nr → mem' object = mem object) →
        (m.effect id args world mem').1 = (m.effect id args world mem).1 ∧
        (m.effect id args world mem').2.1 = (m.effect id args world mem).2.1 ∧
        ∀ object, object ≠ .symbol nr →
          (m.effect id args world mem').2.2 object = (m.effect id args world mem).2.2 object

end Machine

end SmatchFormal.Memops
