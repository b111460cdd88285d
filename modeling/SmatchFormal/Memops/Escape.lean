import SmatchFormal.Memops.Machine

/-!
# Symbols whose address is not taken

No value, no bit of memory and nothing outside of the function holds the address of a symbol
that is local to it, at any point of an execution.
-/

namespace SmatchFormal.Memops

open Machine

variable {m : Machine}

structure SafeFrom (nr : Nat) (st : m.State) : Prop where
  regs : ∀ reg, ¬m.reach (st.regs reg) nr
  world : ¬m.reachWorld st.world nr
  mem : ∀ object bit, ¬m.reachCell (st.mem object bit) nr

def Safe (code : Code) (st : m.State) : Prop :=
  ∀ nr, code.localPseudo (.sym nr) = true → SafeFrom nr st

def Initial (code : Code) (st : m.State) : Prop :=
  ∀ nr, code.isStatic nr = false → SafeFrom nr st

section Instructions

variable {isStatic : Nat → Bool} {nr : Nat} {st : m.State}

theorem not_reach_value (lawful : m.Lawful isStatic) (safe : SafeFrom nr st) {pseudo : Pseudo}
    (other : pseudo ≠ .sym nr) : ¬m.reach (value st.regs pseudo) nr := by
  cases pseudo with
  | reg reg => exact safe.regs reg
  | sym nr' =>
    intro reach
    exact other (congrArg _ (lawful.address_reach reach))
  | val n => exact lawful.constant_reach n nr

theorem not_reach_args (lawful : m.Lawful isStatic) (safe : SafeFrom nr st) {args : List Pseudo}
    (other : .sym nr ∉ args) : ∀ v ∈ args.map (value st.regs), ¬m.reach v nr := by
  intro v member
  obtain ⟨pseudo, inside, rfl⟩ := List.mem_map.mp member
  refine not_reach_value lawful safe ?_
  rintro rfl
  exact other inside

theorem hidden_of_safe (lawful : m.Lawful isStatic) (auto : isStatic nr = false)
    (safe : SafeFrom nr st) {args : List Pseudo} (other : .sym nr ∉ args) :
    Hidden isStatic nr (args.map (value st.regs)) st.world st.mem where
  auto := auto
  args := not_reach_args lawful safe other
  world := safe.world
  mem := safe.mem

theorem not_reach_read (lawful : m.Lawful isStatic) (safe : SafeFrom nr st) (place : Place) :
    ¬m.reach (read st.regs st.mem place) nr := by
  intro reach
  obtain ⟨i, -, cell⟩ := lawful.join_reach reach
  exact safe.mem _ _ cell

theorem not_reach_define {regs : Nat → m.Val} (before : ∀ reg, ¬m.reach (regs reg) nr)
    {results : Nat → m.Val} (after : ∀ k, ¬m.reach (results k) nr) (targets : List Nat)
    (reg : Nat) :
    ¬m.reach (define regs targets results reg) nr := by
  unfold define
  split_ifs
  · exact after _
  · exact before reg

section

variable (lawful : m.Lawful isStatic) (auto : isStatic nr = false) (safe : SafeFrom nr st)
include lawful auto safe

theorem safe_perform {args : List Pseudo} (other : .sym nr ∉ args) (id : Nat) (targets : List Nat) :
    SafeFrom nr (perform id targets args st).2 := by
  have effect := lawful.effect_reach id (hidden_of_safe lawful auto safe other)
  exact ⟨not_reach_define safe.regs effect.1 targets, effect.2.1, effect.2.2⟩

/-- An instruction that does not take the address keeps the symbol safe. -/
theorem safe_exec {insn : Insn} (other : .sym nr ∉ insn.values) :
    SafeFrom nr (exec st insn).2 := by
  cases insn with
  | load target place isVolatile =>
    exact ⟨not_reach_define safe.regs (fun _ => not_reach_read lawful safe place) _, safe.world,
      safe.mem⟩
  | store new place isVolatile typed =>
    refine ⟨safe.regs, safe.world, fun object bit => ?_⟩
    change ¬m.reachCell (write st.regs st.mem place (value st.regs new) object bit) nr
    unfold write
    split_ifs
    · intro cell
      refine not_reach_value lawful safe ?_ (lawful.split_reach cell)
      rintro rfl
      exact other List.mem_cons_self
    · exact safe.mem object bit
  | call id target args isPure =>
    have called := safe_perform lawful auto safe other id target.toList
    unfold exec
    dsimp only
    split_ifs
    · exact ⟨called.regs, safe.world, safe.mem⟩
    · exact called
  | entry => exact safe
  | asm id targets args clobberMemory outputMemory inputMemory =>
    have seen := safe_perform lawful auto safe other id targets
    have blank : SafeFrom nr { st with mem := fun _ _ => m.blank } :=
      ⟨safe.regs, safe.world, fun _ _ => lawful.blank_reach nr⟩
    have unseen := safe_perform lawful auto blank other id targets
    unfold exec
    dsimp only
    split_ifs
    · exact seen
    · exact ⟨seen.regs, seen.world, safe.mem⟩
    · exact ⟨unseen.regs, unseen.world, safe.mem⟩
  | op id target args isFmadd =>
    have result : ¬m.reach (m.op id (args.map (value st.regs))) nr := by
      intro reach
      obtain ⟨v, member, reach⟩ := lawful.op_reach reach
      exact not_reach_args lawful safe other v member reach
    exact ⟨not_reach_define safe.regs (fun _ => result) _, safe.world, safe.mem⟩

theorem safe_execList {insns : List (Option Insn)}
    (other : ∀ insn, some insn ∈ insns → .sym nr ∉ insn.values) :
    SafeFrom nr (execList st insns).2 := by
  induction insns generalizing st with
  | nil => exact safe
  | cons head insns ih =>
    have rest : ∀ insn, some insn ∈ insns → .sym nr ∉ insn.values :=
      fun insn member => other insn (List.mem_cons_of_mem _ member)
    cases head with
    | none => exact ih safe rest
    | some insn =>
      exact ih (safe_exec lawful auto safe (other insn List.mem_cons_self)) rest

end

end Instructions

section Code

variable {code : Code} {nr bb : Nat}

theorem auto_of_local (isLocal : code.localPseudo (.sym nr) = true) : code.isStatic nr = false := by
  unfold Code.localPseudo at isLocal
  rw [Bool.and_eq_true, Bool.not_eq_true'] at isLocal
  exact isLocal.1

/-- The address of a local symbol is not used as a value. -/
theorem not_mem_values (isLocal : code.localPseudo (.sym nr) = true) {insn : Insn}
    (member : some insn ∈ code.insns bb) : .sym nr ∉ insn.values := by
  intro used
  unfold Code.localPseudo at isLocal
  rw [Bool.and_eq_true, Bool.not_eq_true', Bool.not_eq_true'] at isLocal
  have taken : code.addressTaken nr = true := by
    unfold Code.insns at member
    cases found : code.blocks[bb]? with
    | none =>
      rw [found] at member
      cases member
    | some block =>
      rw [found] at member
      refine List.any_eq_true.mpr ⟨block, List.mem_of_getElem? found, ?_⟩
      exact List.any_eq_true.mpr ⟨some insn, member, List.contains_iff_mem.mpr used⟩
  rw [taken] at isLocal
  cases isLocal.2

theorem safe_block (lawful : m.Lawful code.isStatic) {st : m.State} (safe : Safe code st)
    {insns : List (Option Insn)} (part : ∀ insn, some insn ∈ insns → some insn ∈ code.insns bb) :
    Safe code (execList st insns).2 :=
  fun nr isLocal => safe_execList lawful (auto_of_local isLocal) (safe nr isLocal)
    fun insn member => not_mem_values isLocal (part insn member)

theorem Initial.safe {st : m.State} (initial : Initial code st) : Safe code st :=
  fun nr isLocal => initial nr (auto_of_local isLocal)

end Code

end SmatchFormal.Memops
