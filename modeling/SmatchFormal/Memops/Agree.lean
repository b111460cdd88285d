import SmatchFormal.Memops.Escape

/-!
# Memory that differs in one place

Two executions that differ in the bits of a place stay together as long as nothing reads that
place, and are the same again after it is written.
-/

namespace SmatchFormal.Memops

open Machine

/-! ## What an instruction does to a place -/

def disjointPlaces (a b : Place) : Bool :=
  decide (a.offset * 8 + a.size ≤ b.offset * 8) || decide (b.offset * 8 + b.size ≤ a.offset * 8)

def separate (place other : Place) (isLocal : Bool) : Bool :=
  dominatesPlace place other isLocal == .no &&
    (other.src != place.src || disjointPlaces place other)

namespace Insn

def mayRead (place : Place) (isLocal : Bool) : Insn → Bool
  | load _ other _ => !separate place other isLocal
  | call _ _ _ _ => !isLocal
  | asm _ _ _ clobberMemory outputMemory inputMemory =>
    clobberMemory || outputMemory || inputMemory
  | _ => false

def mayWrite (place : Place) (isLocal : Bool) : Insn → Bool
  | store _ other _ _ => !separate place other isLocal
  | call _ _ _ _ => !isLocal
  | asm _ _ _ clobberMemory outputMemory _ => clobberMemory || outputMemory
  | _ => false

def Keeps (insn : Insn) (pseudo : Pseudo) : Prop := ∀ reg, pseudo = .reg reg → reg ∉ insn.defines

end Insn

variable {m : Machine}

def Inside (spot : Object × Int) (size : Nat) (object : Object) (bit : Int) : Prop :=
  object = spot.1 ∧ spot.2 ≤ bit ∧ bit < spot.2 + size

structure AgreeOff (bits : Object → Int → Prop) (st st' : m.State) : Prop where
  regs : st'.regs = st.regs
  world : st'.world = st.world
  mem : ∀ object bit, ¬bits object bit → st'.mem object bit = st.mem object bit

/-- The same is observed, apart from the memory of symbols that nobody else can see. -/
inductive SameEvent (hidden : Nat → Prop) : m.Event → m.Event → Prop
  | load (value : m.Val) : SameEvent hidden (.load value) (.load value)
  | effect (id : Nat) (args : List m.Val) {mem mem' : m.Memory}
      (same : ∀ object, (∀ nr, object = .symbol nr → ¬hidden nr) → mem' object = mem object) :
      SameEvent hidden (.effect id args mem) (.effect id args mem')

/-- When a place is taken for local, it belongs to a symbol whose address nothing holds. -/
def LocalSafe (isStatic : Nat → Bool) (hidden : Nat → Prop) (place : Place) (isLocal : Bool)
    (st : m.State) : Prop :=
  isLocal = true →
    ∃ nr, place.src = .sym nr ∧ isStatic nr = false ∧ hidden nr ∧ SafeFrom nr st

section Places

variable {regs regs' : Nat → m.Val} {place other : Place}

theorem locate_congr (same : ∀ reg, place.src = .reg reg → regs' reg = regs reg) :
    locate regs' place = locate regs place := by
  unfold locate
  cases src : place.src with
  | sym nr => rfl
  | val n => rfl
  | reg reg =>
    dsimp only [value]
    rw [same reg src]

/-- Registers that an instruction does not define keep their values. -/
theorem exec_regs_of_not_mem {st : m.State} {insn : Insn} {reg : Nat}
    (outside : reg ∉ insn.defines) : (exec st insn).2.regs reg = st.regs reg := by
  cases insn with
  | load target place isVolatile => exact if_neg outside
  | store new place isVolatile typed => rfl
  | call id target args isPure =>
    unfold exec
    dsimp only
    split_ifs <;> exact if_neg outside
  | entry => rfl
  | asm id targets args clobberMemory outputMemory inputMemory =>
    unfold exec
    dsimp only
    split_ifs <;> exact if_neg outside
  | op id target args isFmadd => exact if_neg outside

theorem locate_exec {st : m.State} {insn : Insn} (keeps : insn.Keeps place.src) :
    locate (exec st insn).2.regs place = locate st.regs place :=
  locate_congr fun reg src => exec_regs_of_not_mem (keeps reg src)

theorem value_exec {st : m.State} {insn : Insn} {pseudo : Pseudo} (keeps : insn.Keeps pseudo) :
    value (exec st insn).2.regs pseudo = value st.regs pseudo := by
  cases pseudo with
  | reg reg => exact exec_regs_of_not_mem (keeps reg rfl)
  | sym nr => rfl
  | val n => rfl

/-- Places that are separate have no bit in common. -/
theorem not_covers_of_separate {isStatic : Nat → Bool} {hidden : Nat → Prop} {isLocal : Bool}
    {st : m.State} (lawful : m.Lawful isStatic) (safe : LocalSafe isStatic hidden place isLocal st)
    (apart : separate place other isLocal = true) {object : Object} {bit : Int}
    (inside : Covers st.regs other object bit) :
    ¬Inside (locate st.regs place) place.size object bit := by
  unfold separate at apart
  rw [Bool.and_eq_true, beq_iff_eq] at apart
  obtain ⟨dominance, apart⟩ := apart
  rintro ⟨same, low, high⟩
  obtain ⟨same', low', high'⟩ := inside
  have objects : (locate st.regs other).1 = (locate st.regs place).1 := same'.symm.trans same
  by_cases source : other.src = place.src
  · rw [source, bne_self_eq_false, Bool.false_or] at apart
    have base : (locate st.regs other).2 - other.offset * 8 =
        (locate st.regs place).2 - place.offset * 8 := by
      unfold locate
      rw [source]
      cases place.src <;> dsimp only <;> ring
    unfold disjointPlaces at apart
    rw [Bool.or_eq_true, decide_eq_true_eq, decide_eq_true_eq] at apart
    omega
  · unfold dominatesPlace at dominance
    rw [if_pos source] at dominance
    by_cases here : isLocal = true
    · obtain ⟨nr, src, auto, -, free⟩ := safe here
      have object : (locate st.regs place).1 = .symbol nr := by
        unfold locate
        rw [src]
      rw [object] at objects
      unfold locate at objects
      cases src' : other.src with
      | sym nr' =>
        rw [src'] at objects source
        cases objects
        exact source src.symm
      | reg reg =>
        rw [src'] at objects
        exact free.regs reg (lawful.pointee_reach auto objects)
      | val n =>
        rw [src'] at objects
        exact lawful.constant_reach n nr (lawful.pointee_reach auto objects)
    · rw [if_neg here] at dominance
      split_ifs at dominance with distinct
      unfold distinctSymbols at distinct
      unfold locate at objects
      split at distinct
      · rename_i a b srcA srcB
        rw [srcA, srcB] at objects
        cases objects
        exact absurd rfl (bne_iff_ne.mp distinct)
      · cases distinct

end Places

section Reads

variable {isStatic : Nat → Bool} {hidden : Nat → Prop} {place : Place} {isLocal : Bool}
  {spot : Object × Int} {st st' : m.State} {insn : Insn}

theorem read_eq (lawful : m.Lawful isStatic) {other : Place}
    (agree : AgreeOff (Inside spot place.size) st st')
    (apart : ∀ {object bit}, Covers st.regs other object bit →
      ¬Inside spot place.size object bit) :
    read st'.regs st'.mem other = read st.regs st.mem other := by
  unfold Machine.read
  rw [agree.regs]
  refine lawful.join_congr fun i inside => ?_
  exact agree.mem _ _ (apart ⟨rfl, by omega, by omega⟩)

theorem write_agree {bits : Object → Int → Prop} (agree : AgreeOff bits st st') (other : Place)
    (new : m.Val) {object : Object} {bit : Int} (outside : ¬bits object bit) :
    write st'.regs st'.mem other new object bit = write st.regs st.mem other new object bit := by
  unfold write
  rw [agree.regs, agree.mem object bit outside]

/-- A call or an asm that cannot see the place does the same. -/
theorem perform_agree (lawful : m.Lawful isStatic) {nr : Nat} (src : place.src = .sym nr)
    (auto : isStatic nr = false) (safe : SafeFrom nr st) (safe' : SafeFrom nr st')
    (spotEq : locate st.regs place = spot) (agree : AgreeOff (Inside spot place.size) st st')
    (isHidden : hidden nr) {args : List Pseudo} (other : .sym nr ∉ args) (id : Nat)
    (targets : List Nat) :
    AgreeOff (Inside spot place.size) (perform id targets args st).2
      (perform id targets args st').2 ∧
      List.Forall₂ (SameEvent hidden) (perform id targets args st).1
        (perform id targets args st').1 := by
  have object : spot.1 = .symbol nr := by
    rw [← spotEq]
    unfold locate
    rw [src]
  have away : ∀ o, o ≠ .symbol nr → st'.mem o = st.mem o := by
    intro o different
    funext bit
    exact agree.mem o bit fun inside => different (inside.1.trans object)
  have unseen := hidden_of_safe lawful auto safe other
  have unseen' := hidden_of_safe lawful auto safe' other
  have keep := lawful.effect_keep id unseen
  have keep' := lawful.effect_keep id unseen'
  rw [agree.regs, agree.world] at unseen'
  have frame := lawful.effect_frame id unseen unseen' away
  unfold perform
  dsimp only
  rw [agree.regs, agree.world] at keep' ⊢
  constructor
  · refine ⟨?_, frame.2.1, fun o bit outside => ?_⟩
    · dsimp only
      rw [frame.1]
    · by_cases here : o = .symbol nr
      · subst here
        have old := agree.mem _ bit outside
        exact (congrFun keep' bit).trans (old.trans (congrFun keep bit).symm)
      · exact congrFun (frame.2.2 o here) bit
  · refine .cons (.effect id _ fun o visible => away o ?_) .nil
    rintro rfl
    exact visible nr rfl isHidden

/-- An instruction that does not read the place does the same in both states. -/
theorem exec_agree (lawful : m.Lawful isStatic)
    (safe : LocalSafe isStatic hidden place isLocal st)
    (safe' : LocalSafe isStatic hidden place isLocal st') (spotEq : locate st.regs place = spot)
    (agree : AgreeOff (Inside spot place.size) st st') (quiet : insn.mayRead place isLocal = false)
    (untaken : isLocal = true → place.src ∉ insn.values) :
    AgreeOff (Inside spot place.size) (exec st insn).2 (exec st' insn).2 ∧
      List.Forall₂ (SameEvent hidden) (exec st insn).1 (exec st' insn).1 := by
  cases insn with
  | load target other isVolatile =>
    have apart : separate place other isLocal = true := by
      unfold Insn.mayRead at quiet
      rw [Bool.not_eq_false'] at quiet
      exact quiet
    have same := read_eq lawful agree fun inside =>
      spotEq ▸ not_covers_of_separate lawful safe apart inside
    unfold exec
    dsimp only
    rw [same]
    refine ⟨⟨?_, agree.world, agree.mem⟩, .cons (.load _) .nil⟩
    dsimp only
    rw [agree.regs]
  | store new other isVolatile typed =>
    refine ⟨⟨agree.regs, agree.world, fun object bit outside => ?_⟩, .nil⟩
    change write st'.regs st'.mem other (value st'.regs new) object bit =
      write st.regs st.mem other (value st.regs new) object bit
    rw [agree.regs, ← write_agree agree other _ outside, agree.regs]
  | call id target args isPure =>
    have here : isLocal = true := by
      unfold Insn.mayRead at quiet
      rw [Bool.not_eq_false'] at quiet
      exact quiet
    obtain ⟨nr, src, auto, isHidden, free⟩ := safe here
    obtain ⟨nr', src', -, -, free'⟩ := safe' here
    cases src.symm.trans src'
    have called := perform_agree lawful src auto free free' spotEq agree isHidden
      (src ▸ untaken here) id target.toList
    cases isPure with
    | true => exact ⟨⟨called.1.regs, agree.world, agree.mem⟩, called.2⟩
    | false => exact called
  | entry => exact ⟨agree, .nil⟩
  | asm id targets args clobberMemory outputMemory inputMemory =>
    unfold Insn.mayRead at quiet
    rw [Bool.or_eq_false_iff, Bool.or_eq_false_iff] at quiet
    obtain ⟨⟨rfl, rfl⟩, rfl⟩ := quiet
    refine ⟨⟨?_, ?_, agree.mem⟩, .nil⟩
    · change define st'.regs _ (m.effect id (args.map (value st'.regs)) st'.world _).1 =
        define st.regs _ (m.effect id (args.map (value st.regs)) st.world _).1
      rw [agree.regs, agree.world]
    · change (m.effect id (args.map (value st'.regs)) st'.world _).2.1 =
        (m.effect id (args.map (value st.regs)) st.world _).2.1
      rw [agree.regs, agree.world]
  | op id target args isFmadd =>
    refine ⟨⟨?_, agree.world, agree.mem⟩, .nil⟩
    change define st'.regs _ (fun _ => m.op id (args.map (value st'.regs))) =
      define st.regs _ (fun _ => m.op id (args.map (value st.regs)))
    rw [agree.regs]

end Reads

end SmatchFormal.Memops
