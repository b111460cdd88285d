import SmatchFormal.Memops.Agree

/-!
# Blocks without a store

A block does the same without a store when the place is written again before anything reads
it, and without a store of what the place holds already.
-/

namespace SmatchFormal.Memops

open Machine List

variable {m : Machine}

theorem SameEvent.refl (hidden : Nat → Prop) (event : m.Event) : SameEvent hidden event event := by
  cases event with
  | load value => exact .load value
  | effect id args mem => exact .effect id args fun _ _ => rfl

theorem SameEvent.trans {hidden hidden' : Nat → Prop} (more : ∀ nr, hidden nr → hidden' nr)
    {first second third : m.Event} (left : SameEvent hidden first second)
    (right : SameEvent hidden' second third) : SameEvent hidden' first third := by
  cases left with
  | load value => exact right
  | effect id args same =>
    cases right with
    | effect _ _ same' =>
      refine .effect id args fun object visible => ?_
      exact (same' object visible).trans
        (same object fun nr here isHidden => visible nr here (more nr isHidden))

def SameEntry (hidden : Nat → Prop) (first second : Insn × m.Event) : Prop :=
  second.1 = first.1 ∧ SameEvent hidden first.2 second.2

theorem sameEvents_refl (hidden : Nat → Prop) (events : List (Insn × m.Event)) :
    List.Forall₂ (SameEntry hidden) events events :=
  forall₂_same.mpr fun event _ => ⟨rfl, .refl hidden event.2⟩

theorem sameEvents_trans {hidden hidden' : Nat → Prop} (more : ∀ nr, hidden nr → hidden' nr)
    {first second third : List (Insn × m.Event)}
    (left : List.Forall₂ (SameEntry hidden) first second)
    (right : List.Forall₂ (SameEntry hidden') second third) :
    List.Forall₂ (SameEntry hidden') first third := by
  induction left generalizing third with
  | nil =>
    cases right
    exact .nil
  | cons head tail ih =>
    cases right with
    | cons head' tail' =>
      exact .cons ⟨head'.1.trans head.1, head.2.trans more head'.2⟩ (ih tail')

theorem sameEvents_record {hidden : Nat → Prop} {events events' : List m.Event}
    (same : List.Forall₂ (SameEvent hidden) events events') (insn : Insn) :
    List.Forall₂ (SameEntry hidden) (events.map fun event => (insn, event))
      (events'.map fun event => (insn, event)) := by
  rw [forall₂_map_left_iff, forall₂_map_right_iff]
  exact same.imp fun _ _ same => ⟨rfl, same⟩

/-- What some of the instructions do is observed alike. -/
theorem sameEvents_filter {hidden : Nat → Prop} {events events' : List (Insn × m.Event)}
    (same : List.Forall₂ (SameEntry hidden) events events') (test : Insn → Bool) :
    List.Forall₂ (SameEntry hidden) (events.filter fun entry => test entry.1)
      (events'.filter fun entry => test entry.1) := by
  induction same with
  | nil => exact .nil
  | cons head tail ih =>
    rw [filter_cons, filter_cons, head.1]
    split_ifs
    · exact .cons head ih
    · exact ih

theorem execList_append (st : m.State) (first second : List (Option Insn)) :
    execList st (first ++ second) =
      ((execList st first).1 ++ (execList (execList st first).2 second).1,
        (execList (execList st first).2 second).2) := by
  induction first generalizing st with
  | nil => rfl
  | cons head first ih =>
    cases head with
    | none => exact ih st
    | some insn =>
      change ((exec st insn).1.map (fun event => (insn, event)) ++
          (execList (exec st insn).2 (first ++ second)).1,
        (execList (exec st insn).2 (first ++ second)).2) = _
      rw [ih]
      change _ = ((exec st insn).1.map (fun event => (insn, event)) ++
        (execList (exec st insn).2 first).1 ++ _, _)
      rw [append_assoc]
      rfl

def Insn.overwrites (place : Place) : Insn → Bool
  | .store _ other _ _ => other == place
  | _ => false

/-- The place is written before anything reads it, or else nothing reads it up to the end and
the rest is clear. -/
def cleared (place : Place) (isLocal rest : Bool) : List (Option Insn) → Bool
  | [] => rest
  | none :: insns => cleared place isLocal rest insns
  | some insn :: insns =>
    insn.overwrites place || (!insn.mayRead place isLocal && cleared place isLocal rest insns)

section Lists

variable {isStatic : Nat → Bool} {hidden : Nat → Prop} {place : Place} {isLocal rest : Bool}
  {spot : Object × Int} {st st' : m.State}

theorem LocalSafe.exec (lawful : m.Lawful isStatic)
    (safe : LocalSafe isStatic hidden place isLocal st) {insn : Insn}
    (untaken : isLocal = true → place.src ∉ insn.values) :
    LocalSafe isStatic hidden place isLocal (exec st insn).2 := by
  intro here
  obtain ⟨nr, src, auto, isHidden, free⟩ := safe here
  exact ⟨nr, src, auto, isHidden, safe_exec lawful auto free (src ▸ untaken here)⟩

theorem exec_overwrites (spotEq : locate st.regs place = spot)
    (agree : AgreeOff (Inside spot place.size) st st') {insn : Insn}
    (overwrites : insn.overwrites place = true) : exec st' insn = exec st insn := by
  subst spotEq
  cases insn with
  | store new other isVolatile typed =>
    cases beq_iff_eq.mp overwrites
    have same : write st'.regs st'.mem place (value st'.regs new) =
        write st.regs st.mem place (value st.regs new) := by
      funext object bit
      unfold write
      rw [agree.regs]
      split_ifs with inside
      · rfl
      · exact agree.mem object bit inside
    unfold Machine.exec
    dsimp only
    rw [same, agree.regs, agree.world]
  | _ => cases overwrites

/-- Both executions are the same again at the end of the list, or still differ in the place. -/
theorem execList_cleared (lawful : m.Lawful isStatic)
    (safe : LocalSafe isStatic hidden place isLocal st)
    (safe' : LocalSafe isStatic hidden place isLocal st') (spotEq : locate st.regs place = spot)
    (agree : AgreeOff (Inside spot place.size) st st') {insns : List (Option Insn)}
    (clear : cleared place isLocal rest insns = true)
    (keeps : ∀ insn, some insn ∈ insns → insn.Keeps place.src)
    (untaken : ∀ insn, some insn ∈ insns → isLocal = true → place.src ∉ insn.values) :
    List.Forall₂ (SameEntry hidden) (execList st insns).1 (execList st' insns).1 ∧
      ((execList st' insns).2 = (execList st insns).2 ∨ rest = true ∧
        locate (execList st insns).2.regs place = spot ∧
        AgreeOff (Inside spot place.size) (execList st insns).2 (execList st' insns).2) := by
  induction insns generalizing st st' with
  | nil => exact ⟨.nil, Or.inr ⟨clear, spotEq, agree⟩⟩
  | cons head insns ih =>
    have keepsTail := fun insn member => keeps insn (mem_cons_of_mem _ member)
    have untakenTail := fun insn member => untaken insn (mem_cons_of_mem _ member)
    cases head with
    | none => exact ih safe safe' spotEq agree clear keepsTail untakenTail
    | some insn =>
      have untakenHead := untaken insn mem_cons_self
      unfold cleared at clear
      by_cases overwrites : insn.overwrites place = true
      · -- From here on both executions are the same.
        have same := exec_overwrites spotEq agree overwrites
        unfold execList
        rw [same]
        exact ⟨sameEvents_refl hidden _, Or.inl rfl⟩
      · rw [Bool.not_eq_true _ |>.mp overwrites, Bool.false_or, Bool.and_eq_true,
          Bool.not_eq_true'] at clear
        obtain ⟨quiet, clear⟩ := clear
        obtain ⟨agree, events⟩ := exec_agree lawful safe safe' spotEq agree quiet untakenHead
        have tail := ih (safe.exec lawful untakenHead) (safe'.exec lawful untakenHead)
          ((locate_exec (keeps insn mem_cons_self)).trans spotEq) agree clear keepsTail
          untakenTail
        exact ⟨rel_append (sameEvents_record events insn) tail.1, tail.2⟩

/-- A store changes its place and nothing else. -/
theorem agreeOff_store (st : m.State) (new : Pseudo) (place : Place) (isVolatile typed : Bool) :
    AgreeOff (Inside (locate st.regs place) place.size)
      (exec st (.store new place isVolatile typed)).2 st := by
  refine ⟨rfl, rfl, fun object bit outside => ?_⟩
  exact (if_neg outside).symm

end Lists

def Holds (place : Place) (pseudo : Pseudo) (st : m.State) : Prop :=
  ∀ object bit, Covers st.regs place object bit →
    st.mem object bit =
      m.split place.size (value st.regs pseudo) (bit - (locate st.regs place).2).toNat

section Holds

variable {isStatic : Nat → Bool} {hidden : Nat → Prop} {place : Place} {isLocal : Bool}
  {st : m.State} {pseudo : Pseudo}

theorem holds_store (st : m.State) (new : Pseudo) (place : Place) (isVolatile typed : Bool) :
    Holds place new (exec st (.store new place isVolatile typed)).2 := by
  intro object bit inside
  exact if_pos inside

theorem holds_load (lawful : m.Lawful isStatic) {target : Nat} {isVolatile : Bool}
    (keeps : (Insn.load target place isVolatile).Keeps place.src) :
    Holds place (.reg target) (exec st (.load target place isVolatile)).2 := by
  have located : locate (exec st (.load target place isVolatile)).2.regs place =
      locate st.regs place := locate_exec keeps
  intro object bit inside
  unfold Covers at inside
  rw [located] at inside ⊢
  obtain ⟨rfl, low, high⟩ := inside
  have result : value (exec st (.load target place isVolatile)).2.regs (.reg target) =
      m.join place.size fun i =>
        st.mem (locate st.regs place).1 ((locate st.regs place).2 + i) :=
    if_pos mem_cons_self
  rw [result, lawful.split_join (by omega), Int.toNat_of_nonneg (by omega)]
  change st.mem _ bit = _
  rw [show (locate st.regs place).2 + (bit - (locate st.regs place).2) = bit by omega]

/-- An instruction that does not write the place keeps what it holds. -/
theorem holds_exec (lawful : m.Lawful isStatic)
    (safe : LocalSafe isStatic hidden place isLocal st) {insn : Insn}
    (quiet : insn.mayWrite place isLocal = false) (keeps : insn.Keeps place.src)
    (keepsValue : insn.Keeps pseudo) (untaken : isLocal = true → place.src ∉ insn.values)
    (holds : Holds place pseudo st) : Holds place pseudo (exec st insn).2 := by
  intro object bit inside
  unfold Covers at inside
  rw [locate_exec keeps] at inside ⊢
  rw [value_exec keepsValue, ← holds object bit inside]
  cases insn with
  | load target other isVolatile => rfl
  | store new other isVolatile typed =>
    unfold Insn.mayWrite at quiet
    rw [Bool.not_eq_false'] at quiet
    refine if_neg fun covered => ?_
    exact not_covers_of_separate lawful safe quiet covered inside
  | call id target args isPure =>
    unfold Insn.mayWrite at quiet
    rw [Bool.not_eq_false'] at quiet
    obtain ⟨nr, src, auto, -, free⟩ := safe quiet
    have symbol : object = .symbol nr := by
      rw [inside.1]
      unfold locate
      rw [src]
    cases isPure with
    | true => rfl
    | false =>
      rw [symbol]
      exact congrFun (lawful.effect_keep id
        (hidden_of_safe lawful auto free (src ▸ untaken quiet))) bit
  | entry => rfl
  | asm id targets args clobberMemory outputMemory inputMemory =>
    unfold Insn.mayWrite at quiet
    rw [Bool.or_eq_false_iff] at quiet
    obtain ⟨rfl, rfl⟩ := quiet
    cases inputMemory <;> rfl
  | op id target args isFmadd => rfl

theorem holds_execList (lawful : m.Lawful isStatic)
    (safe : LocalSafe isStatic hidden place isLocal st) {insns : List (Option Insn)}
    (quiet : ∀ insn, some insn ∈ insns → insn.mayWrite place isLocal = false)
    (keeps : ∀ insn, some insn ∈ insns → insn.Keeps place.src ∧ insn.Keeps pseudo)
    (untaken : ∀ insn, some insn ∈ insns → isLocal = true → place.src ∉ insn.values)
    (holds : Holds place pseudo st) : Holds place pseudo (execList st insns).2 := by
  induction insns generalizing st with
  | nil => exact holds
  | cons head insns ih =>
    have quietTail := fun insn member => quiet insn (mem_cons_of_mem _ member)
    have keepsTail := fun insn member => keeps insn (mem_cons_of_mem _ member)
    have untakenTail := fun insn member => untaken insn (mem_cons_of_mem _ member)
    cases head with
    | none => exact ih safe quietTail keepsTail untakenTail holds
    | some insn =>
      have here := mem_cons_self (a := some insn) (l := insns)
      exact ih (safe.exec lawful (untaken insn here)) quietTail keepsTail untakenTail
        (holds_exec lawful safe (quiet insn here) (keeps insn here).1 (keeps insn here).2
          (untaken insn here) holds)

/-- A store of what is there does nothing. -/
theorem exec_store_of_holds (holds : Holds place pseudo st) (isVolatile typed : Bool) :
    (exec st (.store pseudo place isVolatile typed)).2 = st := by
  have same : write st.regs st.mem place (value st.regs pseudo) = st.mem := by
    funext object bit
    unfold write
    split_ifs with inside
    · exact (holds object bit inside).symm
    · rfl
  unfold exec
  dsimp only
  rw [same]

end Holds

end SmatchFormal.Memops
