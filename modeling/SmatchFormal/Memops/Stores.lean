import SmatchFormal.Memops.Users
import Mathlib.Data.Int.Bitwise

/-!
# The whole pass

Every store that `kill_dominated_stores` kills is one of the known kinds.  So the pass
changes nothing that can be observed when all its kills are harmless.
-/

namespace SmatchFormal.Memops

open Machine List

/-! ## Runs of the pass -/

/-- A pass that was reached from some code by kills of the known kinds. -/
inductive Traced (code : Code) : Pass → Prop
  | start : Traced code ⟨code, []⟩
  | kill {pass : Pass} (traced : Traced code pass) {store : Looking} {dom victim : Nat × Nat}
      (known : Kill.Known ⟨pass.code, store.pos, store.place, store.isLocal, dom, victim⟩) :
      Traced code (pass.kill store dom victim)

namespace Traced

variable {code : Code} {pass : Pass}

theorem reduced (traced : Traced code pass) : Reduced code pass.code := by
  induction traced with
  | start => exact .refl code
  | kill traced known ih =>
    obtain ⟨value, place, isVolatile, typed, found⟩ := known.store
    exact ih.trans (reduced_kill found)

/-- Nothing changes as long as the kills are harmless. -/
theorem equivalent {m : Machine} (traced : Traced code pass) (lawful : m.Lawful code.isStatic)
    (wf : code.WellFormed) (next : Follows m code)
    (harmless : ∀ kill ∈ pass.kills, kill.harmless = true) : Equivalent m code pass.code := by
  induction traced with
  | start => exact .refl m code
  | @kill pass traced store dom victim known ih =>
    have earlier := ih fun kill member => harmless kill (mem_append_left _ member)
    have last := harmless _ (mem_append_right pass.kills mem_cons_self)
    have reduced := traced.reduced
    have step := known.kill_equivalent (reduced.static ▸ lawful) (reduced.wellFormed wf)
      (reduced.follows next) last
    obtain ⟨value, place, isVolatile, typed, found⟩ := known.store
    exact earlier.trans reduced (reduced_kill found) step

end Traced

/-! ## The loops -/

structure Looks (store : Looking) (code : Code) : Prop where
  found : code.insn? store.pos = some (.store store.value store.place false true)
  isSafe : store.isLocal = true → code.localPseudo store.place.src = true

def Clean (store : Looking) (code : Code) (index : Nat) : Prop :=
  ∀ k y, index ≤ k → k < store.pos.2 → code.insn? (store.pos.1, k) = some y →
    dominates store.place y store.isLocal = .no

section Scan

variable {code : Code} {pass : Pass} {store : Looking} {pos : Nat × Nat} {index par : Nat}

theorem Looks.kill (looks : Looks store code) (other : store.pos ≠ pos)
    (reduced : Reduced code (code.kill pos)) : Looks store (code.kill pos) where
  found := insn?_kill_store looks.found other
  isSafe := fun here => reduced.localPseudo (looks.isSafe here)

theorem Clean.kill (clean : Clean store code index) (reduced : Reduced code (code.kill pos)) :
    Clean store (code.kill pos) index :=
  fun k y after before found => clean k y after before (reduced.insn found)

theorem Clean.extend (clean : Clean store code (index + 1))
    (here : ∀ y, code.insn? (store.pos.1, index) = some y →
      dominates store.place y store.isLocal = .no) : Clean store code index := by
  intro k y after before found
  rcases Nat.eq_or_lt_of_le after with rfl | later
  · exact here y found
  · exact clean k y later before found

theorem tryToKillStore_cases (pass : Pass) (store : Looking) (pos : Nat × Nat) (dom : Insn) :
    (dominates store.place dom store.isLocal = .no ∧
      tryToKillStore pass store pos dom = (pass, true)) ∨
    tryToKillStore pass store pos dom = (pass, false) ∨
    (dominates store.place dom store.isLocal = .yes ∧ dom.memTarget = some store.value ∧
      store.pos.1 = pos.1 ∧
      tryToKillStore pass store pos dom = (pass.kill store pos store.pos, false)) ∨
    ∃ new typed, dom = .store new store.place false typed ∧
      tryToKillStore pass store pos dom = (pass.kill store pos pos, true) := by
  unfold tryToKillStore
  cases dominance : dominates store.place dom store.isLocal with
  | no => exact Or.inl ⟨rfl, rfl⟩
  | unknown => exact Or.inr (Or.inl rfl)
  | yes =>
    dsimp only
    by_cases same : dom.memTarget = some store.value ∧ store.pos.1 = pos.1
    · rw [if_pos same]
      exact Or.inr (Or.inr (Or.inl ⟨rfl, same.1, same.2, rfl⟩))
    · rw [if_neg same]
      rcases place_of_dominates dominance with
        ⟨target, isVolatile, rfl⟩ | ⟨new, isVolatile, typed, rfl⟩
      · exact Or.inr (Or.inl rfl)
      · cases isVolatile with
        | true => exact Or.inr (Or.inl rfl)
        | false => exact Or.inr (Or.inr (Or.inr ⟨new, typed, rfl, rfl⟩))

theorem scanBlock_traced (traced : Traced code pass) (looks : Looks store pass.code)
    (le : index ≤ store.pos.2) (clean : Clean store pass.code index) :
    Traced code (scanBlock store pass index).1 ∧
      ((scanBlock store pass index).2 = true →
        Looks store (scanBlock store pass index).1.code ∧
        Clean store (scanBlock store pass index).1.code 0) := by
  induction index generalizing pass with
  | zero => exact ⟨traced, fun _ => ⟨looks, clean⟩⟩
  | succ index ih =>
    unfold scanBlock
    cases here : pass.code.insn? (store.pos.1, index) with
    | none =>
      dsimp only
      refine ih traced looks (Nat.le_of_succ_le le) (clean.extend fun y found => ?_)
      rw [here] at found
      cases found
    | some dom =>
      dsimp only
      have other : store.pos ≠ (store.pos.1, index) :=
        fun same => (Nat.lt_of_succ_le le).ne' (congrArg Prod.snd same)
      rcases tryToKillStore_cases pass store (store.pos.1, index) dom with
        ⟨no, result⟩ | result | ⟨yes, same, -, result⟩ | ⟨new, typed, rfl, result⟩
      · rw [result, if_pos rfl]
        refine ih traced looks (Nat.le_of_succ_le le) (clean.extend fun y found => ?_)
        rw [here] at found
        cases found
        exact no
      · rw [result, if_neg Bool.false_ne_true]
        exact ⟨traced, fun never => by cases never⟩
      · rw [result, if_neg Bool.false_ne_true]
        refine ⟨traced.kill ?_, fun never => by cases never⟩
        exact .redundant looks.found looks.isSafe le here yes same clean
      · rw [result, if_pos rfl]
        have reduced := reduced_kill here
        refine ih (traced.kill ?_) (looks.kill other reduced) (Nat.le_of_succ_le le)
          ((clean.kill reduced).extend fun y found => ?_)
        · exact .dominated looks.found looks.isSafe le here clean
        · have gone := insn?_kill_self pass.code (store.pos.1, index)
          rw [gone] at found
          cases found

/-- A block that is its own parent is looked at up to the store, where nothing matters. -/
theorem scanParent_self (looks : Looks store pass.code) (clean : Clean store pass.code 0)
    {indices : List Nat} (sorted : indices.Pairwise (· < ·)) (member : store.pos.2 ∈ indices) :
    scanParent store store.pos.1 pass indices = pass := by
  induction indices with
  | nil => cases member
  | cons index indices ih =>
    obtain ⟨less, sorted⟩ := pairwise_cons.mp sorted
    unfold scanParent
    by_cases same : index = store.pos.2
    · rw [same, looks.found]
      exact if_pos rfl
    · have later : store.pos.2 ∈ indices :=
        (mem_cons.mp member).resolve_left (Ne.symm same)
      cases here : pass.code.insn? (store.pos.1, index) with
      | none => exact ih sorted later
      | some dom =>
        have no := clean index dom (Nat.zero_le _) (less _ later) here
        have nothing : tryToKillStore pass store (store.pos.1, index) dom = (pass, true) := by
          unfold tryToKillStore
          rw [no]
        dsimp only
        rw [if_neg fun equal => same (congrArg Prod.snd equal), nothing]
        exact ih sorted later

/-- The loop over the instructions of another parent. -/
theorem scanParent_traced (traced : Traced code pass) (looks : Looks store pass.code)
    (clean : Clean store pass.code 0) (different : par ≠ store.pos.1)
    (edge : par ∈ pass.code.parents store.pos.1) (one : (pass.code.children par).length = 1)
    (indices : List Nat) :
    Traced code (scanParent store par pass indices) ∧
      Looks store (scanParent store par pass indices).code ∧
      Clean store (scanParent store par pass indices).code 0 := by
  induction indices generalizing pass with
  | nil => exact ⟨traced, looks, clean⟩
  | cons index indices ih =>
    unfold scanParent
    cases here : pass.code.insn? (par, index) with
    | none => exact ih traced looks clean edge one
    | some dom =>
      have other : (par, index) ≠ store.pos := fun same => different (congrArg Prod.fst same)
      dsimp only
      rw [if_neg other]
      rcases tryToKillStore_cases pass store (par, index) dom with
        ⟨no, result⟩ | result | ⟨-, -, same, -⟩ | ⟨new, typed, rfl, result⟩
      · rw [result]
        exact ih traced looks clean edge one
      · rw [result]
        exact ⟨traced, looks, clean⟩
      · exact absurd same.symm different
      · rw [result, if_pos rfl]
        have reduced := reduced_kill here
        refine ih (traced.kill ?_) (looks.kill other.symm reduced) (clean.kill reduced) ?_ ?_
        · exact .parent looks.found looks.isSafe different edge one here
            fun k y => clean k y (Nat.zero_le k)
        · exact (reduced.parents _).symm ▸ edge
        · exact (congrArg List.length (reduced.children par)).trans one

theorem scanParents_traced (traced : Traced code pass) (looks : Looks store pass.code)
    (clean : Clean store pass.code 0) {parents : List Nat}
    (edges : ∀ par ∈ parents, par ∈ code.parents store.pos.1) :
    Traced code (scanParents store pass parents) := by
  induction parents generalizing pass with
  | nil => exact traced
  | cons par parents ih =>
    have edgesTail := fun other member => edges other (mem_cons_of_mem par member)
    unfold scanParents
    by_cases one : (pass.code.children par).length = 1
    · rw [if_pos one]
      by_cases same : par = store.pos.1
      · subst same
        have inside : store.pos.2 ∈ List.range (pass.code.insns store.pos.1).length := by
          have found := Option.join_eq_some_iff.mp looks.found
          exact mem_range.mpr (List.getElem?_eq_some_iff.mp found).1
        rw [scanParent_self looks clean pairwise_lt_range inside]
        exact ih traced looks clean edgesTail
      · have edge : par ∈ pass.code.parents store.pos.1 :=
          (traced.reduced.parents _).symm ▸ edges par mem_cons_self
        obtain ⟨traced, looks, clean⟩ :=
          scanParent_traced traced looks clean same edge one
            (List.range (pass.code.insns par).length)
        exact ih traced looks clean edgesTail
    · rw [if_neg one]
      exact ih traced looks clean edgesTail

end Scan

section Whole

variable {code : Code} {pass : Pass}

theorem killStore_traced (traced : Traced code pass) (pos : Nat × Nat) :
    Traced code (killStore pass pos) := by
  unfold killStore
  split
  · rename_i value place found
    have looks : Looks ⟨pos, value, place, pass.code.localPseudo place.src⟩ pass.code :=
      ⟨found, fun here => here⟩
    have clean : Clean ⟨pos, value, place, pass.code.localPseudo place.src⟩ pass.code pos.2 :=
      fun k y after before => absurd after (Nat.not_le.mpr before)
    have block := scanBlock_traced traced looks le_rfl clean
    dsimp only
    split_ifs with goesOn
    · obtain ⟨looks, clean⟩ := block.2 goesOn
      refine scanParents_traced block.1 looks clean fun par member => ?_
      rw [block.1.reduced.parents] at member
      exact member
    · exact block.1
  · exact traced

theorem killDominatedStores_traced (traced : Traced code pass) (bb : Nat) :
    Traced code (killDominatedStores pass bb) :=
  List.foldlRecOn _ killStore traced fun _ traced pos _ => killStore_traced traced pos

theorem killStores_traced (code : Code) : Traced code (killStores code) :=
  List.foldlRecOn _ killDominatedStores .start fun _ traced bb _ =>
    killDominatedStores_traced traced bb

/-- The load goes with the store of its value, and then the scan reaches the first store. -/
example :
    let code : Code :=
      { blocks := [⟨[some (.store (.val 5) ⟨.sym 0, 0, 32⟩ false true),
          some (.asm 0 [] [] false false true), some (.load 0 ⟨.reg 1, 0, 32⟩ false),
          some (.store (.reg 0) ⟨.sym 0, 0, 32⟩ false true),
          some (.store (.val 2) ⟨.sym 0, 0, 32⟩ false true)], [], []⟩]
        isStatic := fun _ => true }
    (killStores code).code.insns 0 = [none, some (.asm 0 [] [] false false true), none, none,
      some (.store (.val 2) ⟨.sym 0, 0, 32⟩ false true)] ∧
    (killStores code).kills.map Kill.harmless = [true, false] := by decide

/-! ## A machine -/

/-- Values are bits, all pointers point to one object, and a call does nothing. -/
def plain : Machine where
  Val := Nat → Bool
  Cell := Bool
  World := Unit
  constant := fun n i => n.testBit i
  address := fun _ _ => false
  pointee := fun _ => (.other 0, 0)
  split := fun _ v i => v i
  join := fun size cells i => if i < size then cells i else false
  blank := false
  op := fun _ _ _ => false
  effect := fun _ _ world mem => (fun _ _ => false, world, mem)
  next := fun bb _ => if bb = 0 then some 1 else none
  reach := fun _ _ => False
  reachCell := fun _ _ => False
  reachWorld := fun _ _ => False

theorem plain_lawful (isStatic : Nat → Bool) : plain.Lawful isStatic where
  join_congr := by
    intro size c c' same
    funext i
    by_cases inside : i < size
    · exact (if_pos inside).trans ((same i inside).trans (if_pos inside).symm)
    · exact (if_neg inside).trans (if_neg inside).symm
  split_join := fun inside => if_pos inside
  constant_reach := fun _ _ never => never
  address_reach := fun never => never.elim
  pointee_reach := fun _ never => by cases never
  split_reach := fun never => never
  join_reach := fun never => never.elim
  blank_reach := fun _ never => never
  op_reach := fun never => never.elim
  effect_reach := fun _ _ _ _ _ _ => ⟨fun _ never => never, fun never => never,
    fun _ _ never => never⟩
  effect_keep := fun _ _ _ _ _ _ => rfl
  effect_frame := fun _ _ _ _ _ _ _ _ same => ⟨rfl, rfl, same⟩

def variablePlace : Place := ⟨.sym 0, 0, 32⟩

def storeVariable (n : Int) : Insn := .store (.val n) variablePlace false true

/-- Two stores to a variable, in a block and in the one that follows it. -/
def twoStores (middle : Option Insn) : Code where
  blocks := [⟨[some (storeVariable 1), middle], [], [1]⟩, ⟨[some (storeVariable 2)], [0], []⟩]
  isStatic := fun _ => true

theorem insn?_twoStores {middle : Option Insn} {pos : Nat × Nat} {x : Insn}
    (found : (twoStores middle).insn? pos = some x) :
    (∃ n, x = storeVariable n) ∨ pos = (0, 1) ∧ middle = some x := by
  match pos with
  | (0, 0) => exact Or.inl ⟨1, (Option.some.inj found).symm⟩
  | (0, 1) => exact Or.inr ⟨rfl, found⟩
  | (0, j + 2) => cases found
  | (1, 0) => exact Or.inl ⟨2, (Option.some.inj found).symm⟩
  | (1, j + 1) => cases found
  | (bb + 2, j) => cases found

theorem twoStores_wellFormed {middle : Option Insn}
    (uses : ∀ x reg, middle = some x → .reg reg ∉ x.memUses) : (twoStores middle).WellFormed where
  used := by
    intro bb j k x y _ found _ pseudo member reg equal
    subst equal
    rcases insn?_twoStores found with ⟨n, rfl⟩ | ⟨-, here⟩
    · rcases mem_cons.mp member with never | rest
      · cases never
      · cases mem_singleton.mp rest
    · exact absurd member (uses x reg here)
  single := by
    intro pos pos' x y reg different first second member member'
    rcases insn?_twoStores first with ⟨n, rfl⟩ | ⟨here, -⟩
    · cases member
    · rcases insn?_twoStores second with ⟨n, rfl⟩ | ⟨there, -⟩
      · cases member'
      · exact different (here.trans there.symm)
  edges := by
    intro par bb member
    match bb with
    | 0 => cases member
    | 1 =>
      cases mem_singleton.mp member
      exact mem_cons_self
    | bb + 2 => cases member

theorem twoStores_follows (middle : Option Insn) : Follows plain (twoStores middle) where
  child := by
    intro bb regs child next
    obtain ⟨rfl, goes⟩ := Option.ite_none_right_eq_some.mp next
    cases goes
    exact mem_cons_self
  exit := by
    intro bb regs next
    match bb with
    | 0 => cases next
    | 1 => rfl
    | bb + 2 => rfl
  reads := fun _ => rfl

theorem SameEvent.load_eq {m : Machine} {hidden : Nat → Prop} {value value' : m.Val}
    (same : SameEvent hidden (.load value) (.load value')) : value' = value := by
  cases same
  rfl

/-- What is observed in the first block, when the second one is executed after it. -/
theorem run_first {code : Code} (st : plain.State) {last : Option Insn}
    (second : code.insns 1 = [some (storeVariable 2)]) {x : Insn}
    (first : code.insns 0 = [last, some x]) :
    (run code 2 0 st).1 = (execList st [last, some x]).1 ++ [] := by
  unfold run
  rw [first]
  change (execList st [last, some x]).1 ++ (run code 1 1 _).1 = _
  unfold run
  rw [second]
  rfl

end Whole

end SmatchFormal.Memops
