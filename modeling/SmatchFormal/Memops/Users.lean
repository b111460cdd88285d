import SmatchFormal.Memops.KillSound
import Mathlib.Algebra.Order.BigOperators.Group.List

/-!
# Killing what nobody uses

`kill_use` kills the instruction that defines a pseudo when its last user is gone.  With and
without that instruction, executions differ in its register only, which nobody reads.
-/

namespace SmatchFormal.Memops

open Machine List

/-! ## States that differ in some registers -/

structure AgreeBut {m : Machine} (free : List Nat) (st st' : m.State) : Prop where
  regs : ∀ reg, reg ∉ free → st'.regs reg = st.regs reg
  world : st'.world = st.world
  mem : st'.mem = st.mem

section States

variable {m : Machine} {free : List Nat} {st st' : m.State}

theorem AgreeBut.refl (free : List Nat) (st : m.State) : AgreeBut free st st :=
  ⟨fun _ _ => rfl, rfl, rfl⟩

section

variable (agree : AgreeBut free st st')
include agree

theorem AgreeBut.value_eq {pseudo : Pseudo} (unused : ∀ reg ∈ free, .reg reg ≠ pseudo) :
    value st'.regs pseudo = value st.regs pseudo := by
  cases pseudo with
  | reg reg => exact agree.regs reg fun member => unused reg member rfl
  | sym nr => rfl
  | val n => rfl

theorem AgreeBut.map_eq {args : List Pseudo} (unused : ∀ reg ∈ free, .reg reg ∉ args) :
    args.map (value st'.regs) = args.map (value st.regs) := by
  refine map_congr_left fun pseudo member => agree.value_eq fun reg inside same => ?_
  exact unused reg inside (same ▸ member)

theorem AgreeBut.locate_eq {place : Place} (unused : ∀ reg ∈ free, .reg reg ≠ place.src) :
    locate st'.regs place = locate st.regs place :=
  locate_congr fun reg src => agree.regs reg fun member => unused reg member src.symm

theorem AgreeBut.define_eq (targets : List Nat) (results : Nat → m.Val) {reg : Nat}
    (outside : reg ∉ free) :
    define st'.regs targets results reg = define st.regs targets results reg := by
  unfold define
  rw [agree.regs reg outside]

theorem perform_agreeBut {args : List Pseudo} (unused : ∀ reg ∈ free, .reg reg ∉ args) (id : Nat)
    (targets : List Nat) :
    (perform id targets args st').1 = (perform id targets args st).1 ∧
      AgreeBut free (perform id targets args st).2 (perform id targets args st').2 := by
  unfold perform
  dsimp only
  rw [agree.map_eq unused, agree.world, agree.mem]
  exact ⟨rfl, fun _ => agree.define_eq _ _, rfl, rfl⟩

end

/-- An instruction that uses none of the registers does the same in both states. -/
theorem exec_agreeBut {insn : Insn} (unused : ∀ reg ∈ free, .reg reg ∉ insn.uses)
    (agree : AgreeBut free st st') :
    (exec st' insn).1 = (exec st insn).1 ∧ AgreeBut free (exec st insn).2 (exec st' insn).2 := by
  cases insn with
  | load target place isVolatile =>
    have located : locate st'.regs place = locate st.regs place :=
      agree.locate_eq fun reg member same => unused reg member (same ▸ mem_cons_self)
    have same : read st'.regs st'.mem place = read st.regs st.mem place := by
      unfold Machine.read
      rw [located, agree.mem]
    unfold exec
    dsimp only
    rw [same]
    refine ⟨rfl, fun reg outside => ?_, agree.world, agree.mem⟩
    exact agree.define_eq [target] (fun _ => Machine.read st.regs st.mem place) outside
  | store new place isVolatile typed =>
    have located : locate st'.regs place = locate st.regs place :=
      agree.locate_eq fun reg member same => unused reg member (same ▸ mem_cons_self)
    have stored : value st'.regs new = value st.regs new := agree.value_eq fun reg member same =>
      unused reg member (same ▸ mem_cons_of_mem _ mem_cons_self)
    refine ⟨rfl, agree.regs, agree.world, ?_⟩
    change write st'.regs st'.mem place (value st'.regs new) =
      write st.regs st.mem place (value st.regs new)
    funext object bit
    have same : Covers st'.regs place object bit ↔ Covers st.regs place object bit := by
      unfold Covers
      rw [located]
    unfold write
    by_cases inside : Covers st.regs place object bit
    · rw [if_pos (same.mpr inside), if_pos inside, located, stored]
    · rw [if_neg (mt same.mp inside), if_neg inside, agree.mem]
  | call id target args isPure =>
    have called := @perform_agreeBut m free st st' agree args unused id target.toList
    cases isPure with
    | true => exact ⟨called.1, called.2.regs, agree.world, agree.mem⟩
    | false => exact called
  | entry => exact ⟨rfl, agree⟩
  | asm id targets args clobberMemory outputMemory inputMemory =>
    have seen := @perform_agreeBut m free st st' agree args unused id targets
    have blank : AgreeBut free { st with mem := fun _ _ => m.blank }
        { st' with mem := fun _ _ => m.blank } := ⟨agree.regs, agree.world, rfl⟩
    have unseen := @perform_agreeBut m free _ _ blank args unused id targets
    unfold exec
    dsimp only
    split_ifs
    · exact seen
    · exact ⟨seen.1, seen.2.regs, seen.2.world, agree.mem⟩
    · exact ⟨rfl, unseen.2.regs, unseen.2.world, agree.mem⟩
  | op id target args isFmadd =>
    refine ⟨rfl, fun reg outside => ?_, agree.world, agree.mem⟩
    have same : args.map (value st'.regs) = args.map (value st.regs) := agree.map_eq unused
    change define st'.regs _ (fun _ => m.op id (args.map (value st'.regs))) reg =
      define st.regs _ (fun _ => m.op id (args.map (value st.regs))) reg
    rw [same, agree.define_eq _ _ outside]

theorem execList_agreeBut {insns : List (Option Insn)}
    (unused : ∀ insn, some insn ∈ insns → ∀ reg ∈ free, .reg reg ∉ insn.uses)
    (agree : AgreeBut free st st') :
    (execList st' insns).1 = (execList st insns).1 ∧
      AgreeBut free (execList st insns).2 (execList st' insns).2 := by
  induction insns generalizing st st' with
  | nil => exact ⟨rfl, agree⟩
  | cons head insns ih =>
    have unusedTail := fun insn member => unused insn (mem_cons_of_mem _ member)
    cases head with
    | none => exact ih unusedTail agree
    | some insn =>
      have first := exec_agreeBut (unused insn mem_cons_self) agree
      have rest := ih unusedTail first.2
      unfold execList
      dsimp only
      rw [first.1, rest.1]
      exact ⟨rfl, rest.2⟩

theorem exec_killable {x : Insn} (killable : x.isKillable = true)
    (agree : AgreeBut x.defines st st') :
    AgreeBut x.defines (exec st x).2 st' := by
  have regs : ∀ reg, reg ∉ x.defines → st'.regs reg = (exec st x).2.regs reg :=
    fun reg outside => (agree.regs reg outside).trans (exec_regs_of_not_mem outside).symm
  cases x with
  | load target place isVolatile => exact ⟨regs, agree.world, agree.mem⟩
  | call id target args isPure =>
    cases isPure with
    | true => exact ⟨regs, agree.world, agree.mem⟩
    | false => cases killable
  | op id target args isFmadd => exact ⟨regs, agree.world, agree.mem⟩
  | store | entry | asm => cases killable

end States

/-! ## Code without an instruction that nobody uses -/

structure Dead (code : Code) (pos : Nat × Nat) (x : Insn) : Prop where
  found : code.insn? pos = some x
  killable : x.isKillable = true
  defines : x.defines ≠ []
  unused : ∀ {q y}, code.insn? q = some y → ∀ reg ∈ x.defines, .reg reg ∉ y.uses

section Runs

variable {m : Machine} {code : Code} {bb j : Nat} {pos : Nat × Nat} {x : Insn}

theorem Dead.reduced (dead : Dead code pos x) : Reduced code (code.clear pos) := by
  refine reduced_clear dead.found ?_
  rintro id args isFmadd rfl
  exact dead.defines rfl

/-- Registers are defined once, so the instruction is nowhere else. -/
theorem Dead.not_has (dead : Dead code pos x) (wf : code.WellFormed) :
    (code.clear pos).has x = false := by
  refine Bool.eq_false_iff.mpr fun here => ?_
  obtain ⟨q, found⟩ := has_iff.mp here
  rw [insn?_clear] at found
  split_ifs at found with same
  obtain ⟨reg, member⟩ := exists_mem_of_ne_nil _ dead.defines
  exact wf.single same found dead.found member member

theorem Dead.unused_in (dead : Dead code pos x) :
    ∀ y, some y ∈ code.insns bb → ∀ reg ∈ x.defines, .reg reg ∉ y.uses := by
  intro y member
  obtain ⟨k, -, found⟩ := insn?_of_mem_drop (j := 0) member
  exact dead.unused found

/-- The block of the instruction, with and without it. -/
theorem Dead.block (dead : Dead code (bb, j) x) (wf : code.WellFormed) {st st' : m.State}
    (agree : AgreeBut x.defines st st') :
    ((execList st (code.insns bb)).1.filter fun entry => (code.clear (bb, j)).has entry.1) =
        ((execList st' ((code.clear (bb, j)).insns bb)).1.filter
          fun entry => (code.clear (bb, j)).has entry.1) ∧
      AgreeBut x.defines (execList st (code.insns bb)).2
        (execList st' ((code.clear (bb, j)).insns bb)).2 := by
  have before := @execList_agreeBut m x.defines st st' ((code.insns bb).take j)
    (fun y member => dead.unused_in y (mem_of_mem_take member)) agree
  have after := @execList_agreeBut m x.defines _ _ ((code.insns bb).drop (j + 1))
    (fun y member => dead.unused_in y (mem_of_mem_drop member))
    (exec_killable dead.killable before.2)
  have gone : ∀ events : List m.Event, ((events.map fun event => (x, event)).filter
      fun entry => (code.clear (bb, j)).has entry.1) = [] := by
    intro events
    refine filter_eq_nil_iff.mpr fun entry member => ?_
    obtain ⟨event, -, rfl⟩ := mem_map.mp member
    exact Bool.eq_false_iff.mp (dead.not_has wf)
  have first : ∀ (st : m.State) (insns : List (Option Insn)), execList st (some x :: insns) =
      ((exec st x).1.map (fun event => (x, event)) ++ (execList (exec st x).2 insns).1,
        (execList (exec st x).2 insns).2) := fun _ _ => rfl
  rw [execList_insns dead.found, execList_insns_clear dead.found, first]
  dsimp only
  rw [filter_append, filter_append, filter_append, gone, nil_append, before.1,
    after.1]
  exact ⟨rfl, after.2⟩

theorem Dead.run (dead : Dead code pos x) (wf : code.WellFormed) (follows : Follows m code)
    (count bb : Nat) {st st' : m.State} (agree : AgreeBut x.defines st st') :
    ((run code count bb st).1.filter fun entry => (code.clear pos).has entry.1) =
        ((run (code.clear pos) count bb st').1.filter fun entry => (code.clear pos).has entry.1) ∧
      SameOutcome (code.clear pos) (run code count bb st).2
        (run (code.clear pos) count bb st').2 := by
  induction count generalizing bb st st' with
  | zero => exact ⟨rfl, .running bb st st'⟩
  | succ count ih =>
    have block : ((execList st (code.insns bb)).1.filter
          fun entry => (code.clear pos).has entry.1) =
          ((execList st' ((code.clear pos).insns bb)).1.filter
            fun entry => (code.clear pos).has entry.1) ∧
        AgreeBut x.defines (execList st (code.insns bb)).2
          (execList st' ((code.clear pos).insns bb)).2 := by
      by_cases here : bb = pos.1
      · subst here
        exact dead.block wf agree
      · rw [insns_clear, if_neg here]
        have same := @execList_agreeBut m x.defines st st' (code.insns bb) dead.unused_in agree
        rw [same.1]
        exact ⟨rfl, same.2⟩
    have next : m.next bb (execList st' ((code.clear pos).insns bb)).2.regs =
        m.next bb (execList st (code.insns bb)).2.regs := by
      refine follows.reads fun found reg member => block.2.regs reg fun inside => ?_
      exact dead.unused found reg inside member
    unfold Machine.run
    dsimp only
    rw [next]
    cases m.next bb (execList st (code.insns bb)).2.regs with
    | none =>
      refine ⟨block.1, .done ⟨fun reg reads => block.2.regs reg fun inside => ?_, block.2.world,
        fun object bit _ => congrFun (congrFun block.2.mem object) bit⟩⟩
      obtain ⟨q, y, found, used⟩ := reads
      exact dead.unused (dead.reduced.insn found) reg inside used
    | some child =>
      have rest := ih child block.2
      dsimp only
      rw [filter_append, filter_append, block.1, rest.1]
      exact ⟨rfl, rest.2⟩

theorem Dead.equivalent (dead : Dead code pos x) (wf : code.WellFormed) (follows : Follows m code) :
    Equivalent m code (code.clear pos) := by
  intro count bb st _
  have both := dead.run wf follows count bb (AgreeBut.refl x.defines st)
  rw [filter_run (code.clear pos)] at both
  rw [both.1]
  exact ⟨sameEvents_refl _ _, both.2⟩

end Runs

section Uses

variable {code : Code} {pos : Nat × Nat} {pending : List Pseudo} {pseudo : Pseudo} {x : Insn}

theorem defines_eq {nr : Nat} (killable : x.isKillable = true) (member : nr ∈ x.defines) :
    x.defines = [nr] := by
  have single : ∀ target : Option Nat, nr ∈ target.toList → target.toList = [nr] := by
    intro target inside
    cases Option.mem_toList.mp inside
    rfl
  cases x with
  | load target place isVolatile =>
    cases mem_singleton.mp member
    rfl
  | call id target args isPure => exact single target member
  | op id target args isFmadd => exact single target member
  | store | entry | asm => cases killable

theorem dead_of_deadDefinition? (found : code.deadDefinition? pending pseudo = some pos) :
    ∃ x, Dead code pos x := by
  unfold Code.deadDefinition? at found
  split_ifs at found with used
  obtain ⟨definition, killable⟩ := Option.filter_eq_some_iff.mp found
  cases pseudo with
  | sym nr => cases definition
  | val n => cases definition
  | reg nr =>
    have defines := List.find?_some definition
    cases here : code.insn? pos with
    | none =>
      rw [here] at defines
      cases defines
    | some x =>
      rw [here] at defines killable
      have member : nr ∈ x.defines := contains_iff_mem.mp defines
      have alone := defines_eq killable member
      refine ⟨x, here, killable, ne_nil_of_mem member, fun {q y} there reg inside use => ?_⟩
      rw [alone] at inside
      cases mem_singleton.mp inside
      -- The instruction at the other position would still be a user.
      have any : (code.anyInsn fun insn => insn.uses.contains (.reg nr)) = true :=
        anyInsn_iff.mpr ⟨q, y, there, contains_iff_mem.mpr use⟩
      unfold Code.isUsed at used
      rw [any, Bool.or_true] at used
      exact used rfl

theorem killUses_induction {P : Code → Prop}
    (step : ∀ code pos x, P code → Dead code pos x → P (code.clear pos)) (start : P code)
    (fuel : Nat) (pending : List Pseudo) : P (code.killUses fuel pending) := by
  induction fuel generalizing code pending with
  | zero =>
    unfold Code.killUses
    exact start
  | succ fuel ih =>
    cases pending with
    | nil => exact start
    | cons pseudo pending =>
      unfold Code.killUses
      split
      next pos found =>
        obtain ⟨x, dead⟩ := dead_of_deadDefinition? found
        exact ih (step code pos x start dead) _
      next => exact ih start _

theorem reduced_killUses (code : Code) (fuel : Nat) (pending : List Pseudo) :
    Reduced code (code.killUses fuel pending) :=
  killUses_induction (fun _ _ _ reduced dead => reduced.trans dead.reduced)
    (.refl code) fuel pending

theorem equivalent_killUses {m : Machine} (wf : code.WellFormed) (follows : Follows m code)
    (fuel : Nat) (pending : List Pseudo) : Equivalent m code (code.killUses fuel pending) := by
  have both : Reduced code (code.killUses fuel pending) ∧
      Equivalent m code (code.killUses fuel pending) := by
    refine killUses_induction (P := fun code' => Reduced code code' ∧ Equivalent m code code') ?_
      ⟨.refl code, .refl m code⟩ fuel pending
    rintro code' pos x ⟨reduced, same⟩ dead
    refine ⟨reduced.trans dead.reduced, same.trans reduced dead.reduced ?_⟩
    exact dead.equivalent (reduced.wellFormed wf) (reduced.follows follows)
  exact both.2

/-! ### The number of turns -/

theorem positions_clear (code : Code) (pos : Nat × Nat) :
    (code.clear pos).positions = code.positions := by
  have lengths : ∀ bb, ((code.clear pos).insns bb).length = (code.insns bb).length := by
    intro bb
    rw [insns_clear]
    split_ifs
    · exact length_set
    · rfl
  have blocks : (code.clear pos).blocks.length = code.blocks.length := length_modify _ _ _
  unfold Code.positions
  rw [blocks]
  refine flatMap_congr fun bb _ => ?_
  rw [lengths]

theorem sum_map_of_zero {α : Type} [DecidableEq α] {list : List α} {a : α} {count count' : α → Nat}
    (member : a ∈ list) (zero : count' a = 0) (le : ∀ b, count' b ≤ count b) :
    (list.map count').sum + count a ≤ (list.map count).sum := by
  induction list with
  | nil => cases member
  | cons head list ih =>
    rw [map_cons, map_cons, sum_cons, sum_cons]
    by_cases here : a = head
    · subst here
      have rest : (list.map count').sum ≤ (list.map count).sum :=
        sum_le_sum fun b _ => le b
      omega
    · have rest := ih ((mem_cons.mp member).resolve_left here)
      have first := le head
      omega

theorem mem_positions (found : code.insn? pos = some x) : pos ∈ code.positions := by
  obtain ⟨bb, j⟩ := pos
  obtain ⟨inside, -⟩ := List.getElem?_eq_some_iff.mp (Option.join_eq_some_iff.mp found)
  refine mem_flatMap.mpr ⟨bb, mem_range.mpr ?_, mem_map.mpr
    ⟨j, mem_range.mpr inside, rfl⟩⟩
  refine Nat.lt_of_not_le fun outside => ?_
  unfold Code.insns at inside
  rw [List.getElem?_eq_none outside] at inside
  exact absurd inside (Nat.not_lt_zero j)

/-- The uses of an instruction that is killed are not counted any more. -/
theorem useCount_clear (found : code.insn? pos = some x) :
    (code.clear pos).useCount + x.uses.length ≤ code.useCount := by
  have zero : (((code.clear pos).insn? pos).map Insn.uses).getD [] = [] := by
    rw [insn?_clear, if_pos rfl]
    rfl
  have here : ((code.insn? pos).map Insn.uses).getD [] = x.uses := by
    rw [found]
    rfl
  unfold Code.useCount
  rw [positions_clear, ← here]
  refine @sum_map_of_zero _ _ _ _ (fun pos => (((code.insn? pos).map Insn.uses).getD []).length) _
    (mem_positions found) (congrArg List.length zero) fun q => ?_
  rw [insn?_clear]
  split_ifs
  · exact Nat.zero_le _
  · exact le_rfl

theorem length_killedUses (x : Insn) : x.killedUses.length ≤ x.uses.length := by
  unfold Insn.killedUses
  split
  · exact Nat.zero_le _
  · exact le_rfl

theorem killUses_fuel {fuel : Nat} (enough : pending.length + code.useCount ≤ fuel) (more : Nat) :
    code.killUses (fuel + more) pending = code.killUses fuel pending := by
  induction fuel generalizing code pending with
  | zero =>
    cases eq_nil_of_length_eq_zero (by omega : pending.length = 0)
    cases more <;> rfl
  | succ fuel ih =>
    rw [Nat.add_right_comm]
    cases pending with
    | nil => rfl
    | cons pseudo pending =>
      rw [length_cons] at enough
      unfold Code.killUses
      split
      next pos found =>
        obtain ⟨x, dead⟩ := dead_of_deadDefinition? found
        have less := useCount_clear dead.found
        have few := length_killedUses x
        rw [dead.found]
        refine ih ?_
        change (x.killedUses ++ pending).length + _ ≤ fuel
        rw [length_append]
        omega
      next => exact ih (by omega)

/-- A killed instruction has at most as many uses as there are turns. -/
theorem kill_fuel (found : code.insn? pos = some x) (more : Nat) :
    code.kill pos = (code.clear pos).killUses (code.useCount + more) x.killedUses := by
  have less := useCount_clear found
  have few := length_killedUses x
  have enough : x.killedUses.length + (code.clear pos).useCount ≤ code.useCount := by omega
  unfold Code.kill
  rw [found]
  exact (killUses_fuel enough more).symm

end Uses

section Kills

variable {code : Code} {pos q : Nat × Nat} {value : Pseudo} {place : Place}
  {isVolatile typed : Bool}

theorem reduced_kill (found : code.insn? pos = some (.store value place isVolatile typed)) :
    Reduced code (code.kill pos) :=
  (reduced_store found).trans (reduced_killUses _ _ _)

theorem insn?_kill_self (code : Code) (pos : Nat × Nat) : (code.kill pos).insn? pos = none := by
  refine killUses_induction (P := fun code => code.insn? pos = none) ?_ ?_ _ _
  · intro code' q x none _
    rw [insn?_clear, none]
    exact ite_self _
  · exact (insn?_clear code pos pos).trans (if_pos rfl)

theorem insn?_kill_store (found : code.insn? q = some (.store value place isVolatile typed))
    (other : q ≠ pos) : (code.kill pos).insn? q = some (.store value place isVolatile typed) := by
  refine killUses_induction
    (P := fun code => code.insn? q = some (.store value place isVolatile typed)) ?_ ?_ _ _
  · intro code' r x here dead
    rw [insn?_clear, if_neg, here]
    rintro rfl
    have same := here.symm.trans dead.found
    cases same
    exact Bool.noConfusion dead.killable
  · exact (insn?_clear code pos q).trans ((if_neg other).trans found)

/-- Nothing changes when a store is killed and `dominates` misses nothing. -/
theorem Kill.Known.kill_equivalent {m : Machine} {kill : Kill} (known : kill.Known)
    (lawful : m.Lawful kill.code.isStatic) (wf : kill.code.WellFormed)
    (follows : Follows m kill.code) (harmless : kill.harmless = true) :
    Equivalent m kill.code (kill.code.kill kill.victim) := by
  obtain ⟨value, place, isVolatile, typed, found⟩ := known.store
  have reduced := reduced_store found
  exact (known.equivalent lawful wf follows harmless).trans reduced (reduced_killUses _ _ _)
    (equivalent_killUses (reduced.wellFormed wf) (reduced.follows follows) _ _)

end Kills

end SmatchFormal.Memops
