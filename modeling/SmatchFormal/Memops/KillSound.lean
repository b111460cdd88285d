import SmatchFormal.Memops.Kills

/-!
# Code without one store

When a store is killed and none of the cases that `dominates` misses is there, every execution
observes the same.
-/

namespace SmatchFormal.Memops

open Machine List

/-! ## The kills of the pass -/

inductive Kill.Known : Kill → Prop
  /-- The store writes what an earlier memory operation of its block leaves there. -/
  | redundant {code : Code} {bb i j : Nat} {value : Pseudo} {place : Place} {isLocal : Bool}
      {x : Insn} (store : code.insn? (bb, i) = some (.store value place false true))
      (isSafe : isLocal = true → code.localPseudo place.src = true) (less : j < i)
      (dom : code.insn? (bb, j) = some x) (yes : dominates place x isLocal = .yes)
      (same : x.memTarget = some value)
      (between : ∀ k y, j < k → k < i → code.insn? (bb, k) = some y →
        dominates place y isLocal = .no) :
      Known ⟨code, (bb, i), place, isLocal, (bb, j), (bb, i)⟩
  /-- The store overwrites an earlier store of its block. -/
  | dominated {code : Code} {bb i j : Nat} {value new : Pseudo} {place : Place}
      {isLocal typed : Bool}
      (store : code.insn? (bb, i) = some (.store value place false true))
      (isSafe : isLocal = true → code.localPseudo place.src = true) (less : j < i)
      (dom : code.insn? (bb, j) = some (.store new place false typed))
      (between : ∀ k y, j < k → k < i → code.insn? (bb, k) = some y →
        dominates place y isLocal = .no) :
      Known ⟨code, (bb, i), place, isLocal, (bb, j), (bb, j)⟩
  /-- The store overwrites a store of a parent, from which only its block is reached. -/
  | parent {code : Code} {par bb i j : Nat} {value new : Pseudo} {place : Place}
      {isLocal typed : Bool} (store : code.insn? (bb, i) = some (.store value place false true))
      (isSafe : isLocal = true → code.localPseudo place.src = true) (different : par ≠ bb)
      (edge : par ∈ code.parents bb) (one : (code.children par).length = 1)
      (dom : code.insn? (par, j) = some (.store new place false typed))
      (before : ∀ k y, k < i → code.insn? (bb, k) = some y → dominates place y isLocal = .no) :
      Known ⟨code, (bb, i), place, isLocal, (par, j), (par, j)⟩

theorem Kill.Known.store {kill : Kill} (known : kill.Known) :
    ∃ value place isVolatile typed,
      kill.code.insn? kill.victim = some (.store value place isVolatile typed) := by
  cases known with
  | redundant store => exact ⟨_, _, _, _, store⟩
  | dominated store isSafe less dom => exact ⟨_, _, _, _, dom⟩
  | parent store isSafe different edge one dom => exact ⟨_, _, _, _, dom⟩

def allLive (test : Insn → Bool) (insns : List (Option Insn)) : Bool :=
  insns.all fun insn => insn.all test

/-- Nothing that `dominates` misses is between both instructions.  In a parent, the place is
written again after the store before anything may read it, or nothing reads it up to the end
and the same is true in the block of the other store, where its address is not defined anew. -/
def Kill.harmless (kill : Kill) : Bool :=
  let after := (kill.code.insns kill.dom.1).drop (kill.dom.2 + 1)
  let between := ((kill.code.insns kill.dom.1).take kill.insn.2).drop (kill.dom.2 + 1)
  let before := (kill.code.insns kill.insn.1).take kill.insn.2
  if kill.victim = kill.insn then allLive (fun x => !x.missedWrite kill.place) between
  else if kill.dom.1 = kill.insn.1 then allLive (fun x => !x.missedRead kill.place) between
  else
    cleared kill.place kill.isLocal
      (allLive (fun x => !x.missedRead kill.place && x.steady kill.place) before) after

/-! ## The same executions -/

def Code.Reads (code : Code) (reg : Nat) : Prop :=
  ∃ pos x, code.insn? pos = some x ∧ .reg reg ∈ x.uses

/-- At the end, states differ at most in registers that nothing uses and in the memory of symbols
that nobody else can see. -/
structure SameEnd {m : Machine} (code : Code) (st st' : m.State) : Prop where
  regs : ∀ reg, code.Reads reg → st'.regs reg = st.regs reg
  world : st'.world = st.world
  mem : ∀ object bit, (∀ nr, object = .symbol nr → code.localPseudo (.sym nr) ≠ true) →
    st'.mem object bit = st.mem object bit

inductive SameOutcome {m : Machine} (code : Code) : m.Outcome → m.Outcome → Prop
  | running (bb : Nat) (st st' : m.State) : SameOutcome code (.running bb st) (.running bb st')
  | done {st st' : m.State} (agree : SameEnd code st st') : SameOutcome code (.done st) (.done st')

def Equivalent (m : Machine) (code code' : Code) : Prop :=
  ∀ count bb (st : m.State), Initial code st →
    List.Forall₂ (SameEntry fun nr => code'.localPseudo (.sym nr) = true)
      ((run code count bb st).1.filter fun entry => code'.has entry.1) (run code' count bb st).1 ∧
    SameOutcome code' (run code count bb st).2 (run code' count bb st).2

theorem SameOutcome.refl {m : Machine} (code : Code) (outcome : m.Outcome) :
    SameOutcome code outcome outcome := by
  cases outcome with
  | running bb st => exact .running bb st st
  | done st => exact .done ⟨fun _ _ => rfl, rfl, fun _ _ _ => rfl⟩

theorem SameOutcome.trans {m : Machine} {code code' : Code} (reduced : Reduced code code')
    {first second third : m.Outcome} (left : SameOutcome code first second)
    (right : SameOutcome code' second third) : SameOutcome code' first third := by
  cases left with
  | running bb st st' =>
    cases right with
    | running _ _ st'' => exact .running bb st st''
  | done agree =>
    cases right with
    | done agree' =>
      refine .done ⟨fun reg reads => ?_, agree'.world.trans agree.world, ?_⟩
      · obtain ⟨pos, x, found, used⟩ := id reads
        exact (agree'.regs reg reads).trans (agree.regs reg ⟨pos, x, reduced.insn found, used⟩)
      · intro object bit visible
        refine (agree'.mem object bit visible).trans (agree.mem object bit ?_)
        exact fun nr here isHidden => visible nr here (reduced.localPseudo isHidden)

section Entries

variable {m : Machine}

theorem mem_of_entry {insns : List (Option Insn)} {st : m.State} :
    ∀ entry ∈ (execList st insns).1, some entry.1 ∈ insns := by
  induction insns generalizing st with
  | nil =>
    intro entry member
    cases member
  | cons head insns ih =>
    cases head with
    | none => exact fun entry member => mem_cons_of_mem _ (ih entry member)
    | some insn =>
      intro entry member
      rcases mem_append.mp member with first | rest
      · obtain ⟨event, -, rfl⟩ := mem_map.mp first
        exact mem_cons_self
      · exact mem_cons_of_mem _ (ih entry rest)

theorem has_of_mem {code : Code} {bb : Nat} {x : Insn} (member : some x ∈ code.insns bb) :
    code.has x = true := by
  obtain ⟨k, -, found⟩ := insn?_of_mem_drop (j := 0) member
  exact has_iff.mpr ⟨(bb, k), found⟩

theorem has_of_run (code : Code) (count bb : Nat) (st : m.State) :
    ∀ entry ∈ (run code count bb st).1, code.has entry.1 = true := by
  induction count generalizing bb st with
  | zero =>
    intro entry member
    cases member
  | succ count ih =>
    intro entry member
    unfold run at member
    dsimp only at member
    split at member
    · exact has_of_mem (mem_of_entry entry member)
    · rcases mem_append.mp member with first | rest
      · exact has_of_mem (mem_of_entry entry first)
      · exact ih _ _ entry rest

theorem filter_run (code : Code) (count bb : Nat) (st : m.State) :
    ((run code count bb st).1.filter fun entry => code.has entry.1) = (run code count bb st).1 :=
  filter_eq_self.mpr (has_of_run code count bb st)

theorem Equivalent.refl (m : Machine) (code : Code) : Equivalent m code code := by
  intro count bb st _
  rw [filter_run]
  exact ⟨sameEvents_refl _ _, .refl _ _⟩

theorem Equivalent.trans {code code' code'' : Code} (first : Reduced code code')
    (second : Reduced code' code'') (left : Equivalent m code code')
    (right : Equivalent m code' code'') : Equivalent m code code'' := by
  intro count bb st initial
  have before := left count bb st initial
  have after := right count bb st (by unfold Initial; rw [first.static]; exact initial)
  have kept := sameEvents_filter before.1 code''.has
  have both : ∀ entry : Insn × m.Event,
      (code''.has entry.1 && code'.has entry.1) = code''.has entry.1 := by
    intro entry
    cases here : code''.has entry.1 with
    | false => rfl
    | true => exact second.has here
  rw [filter_filter, filter_congr fun entry _ => both entry] at kept
  exact ⟨sameEvents_trans (fun _ => second.localPseudo) kept after.1,
    before.2.trans second after.2⟩

theorem equivalent_of_runs {code code' : Code} (same : ∀ count bb (st : m.State), Initial code st →
    List.Forall₂ (SameEntry fun nr => code'.localPseudo (.sym nr) = true)
      (run code count bb st).1 (run code' count bb st).1 ∧
    SameOutcome code' (run code count bb st).2 (run code' count bb st).2) :
    Equivalent m code code' := by
  intro count bb st initial
  obtain ⟨events, outcome⟩ := same count bb st initial
  have kept := sameEvents_filter events code'.has
  rw [filter_run] at kept
  exact ⟨kept, outcome⟩

end Entries

section Run

variable {m : Machine} {code code' : Code} {hidden : Nat → Prop}

/-- Executions of two pieces of code whose states are the same at the start of each block, with
one exception. -/
theorem run_same (lawful : m.Lawful code.isStatic) (static : code'.isStatic = code.isStatic)
    (last : Nat) (pending : m.State → m.State → Prop)
    (start : ∀ bb (st : m.State), Safe code st → Safe code' st →
      List.Forall₂ (SameEntry hidden) (execList st (code.insns bb)).1
        (execList st (code'.insns bb)).1 ∧
      ((execList st (code'.insns bb)).2 = (execList st (code.insns bb)).2 ∨
        (execList st (code'.insns bb)).2.regs = (execList st (code.insns bb)).2.regs ∧
        m.next bb (execList st (code.insns bb)).2.regs = some last ∧
        pending (execList st (code.insns bb)).2 (execList st (code'.insns bb)).2))
    (finish : ∀ st st', pending st st' → Safe code st → Safe code' st' →
      List.Forall₂ (SameEntry hidden) (execList st (code.insns last)).1
        (execList st' (code'.insns last)).1 ∧
      (execList st' (code'.insns last)).2 = (execList st (code.insns last)).2)
    (count bb : Nat) (st st' : m.State) (related : st' = st ∨ bb = last ∧ pending st st')
    (safe : Safe code st) (safe' : Safe code' st') :
    List.Forall₂ (SameEntry hidden) (run code count bb st).1 (run code' count bb st').1 ∧
      SameOutcome code' (run code count bb st).2 (run code' count bb st').2 := by
  have lawful' : m.Lawful code'.isStatic := static ▸ lawful
  induction count generalizing bb st st' with
  | zero => exact ⟨.nil, .running bb st st'⟩
  | succ count ih =>
    have after : Safe code (execList st (code.insns bb)).2 :=
      safe_block lawful safe fun _ member => member
    have after' : Safe code' (execList st' (code'.insns bb)).2 :=
      safe_block lawful' safe' fun _ member => member
    -- The block is executed on both sides; the next ones are the same.
    have block : List.Forall₂ (SameEntry hidden) (execList st (code.insns bb)).1
          (execList st' (code'.insns bb)).1 ∧
        ((execList st' (code'.insns bb)).2 = (execList st (code.insns bb)).2 ∨
          (execList st' (code'.insns bb)).2.regs = (execList st (code.insns bb)).2.regs ∧
          m.next bb (execList st (code.insns bb)).2.regs = some last ∧
          pending (execList st (code.insns bb)).2 (execList st' (code'.insns bb)).2) := by
      rcases related with rfl | ⟨rfl, here⟩
      · exact start bb st' safe safe'
      · have both := finish st st' here safe safe'
        exact ⟨both.1, Or.inl both.2⟩
    have regs : (execList st' (code'.insns bb)).2.regs = (execList st (code.insns bb)).2.regs := by
      rcases block.2 with same | ⟨same, -, -⟩
      · rw [same]
      · exact same
    unfold run
    dsimp only
    rw [regs]
    cases next : m.next bb (execList st (code.insns bb)).2.regs with
    | none =>
      rcases block.2 with same | ⟨-, goes, -⟩
      · dsimp only
        rw [same]
        exact ⟨block.1, .refl code' _⟩
      · rw [next] at goes
        cases goes
    | some child =>
      have related' : (execList st' (code'.insns bb)).2 = (execList st (code.insns bb)).2 ∨
          child = last ∧
            pending (execList st (code.insns bb)).2 (execList st' (code'.insns bb)).2 := by
        rcases block.2 with same | ⟨-, goes, here⟩
        · exact Or.inl same
        · rw [next] at goes
          cases goes
          exact Or.inr ⟨rfl, here⟩
      have rest := ih child _ _ related' after after'
      exact ⟨rel_append block.1 rest.1, rest.2⟩

end Run

/-! ## The instructions of a kill -/

theorem reduced_store {code : Code} {pos : Nat × Nat} {value : Pseudo} {place : Place}
    {isVolatile typed : Bool}
    (found : code.insn? pos = some (.store value place isVolatile typed)) :
    Reduced code (code.clear pos) :=
  reduced_clear found fun _ _ _ never => by cases never

section Lists

variable {code : Code} {bb i j : Nat} {place : Place} {isLocal rest : Bool} {x : Insn}

theorem allLive_iff {test : Insn → Bool} {insns : List (Option Insn)} :
    allLive test insns = true ↔ ∀ insn, some insn ∈ insns → test insn = true := by
  unfold allLive
  rw [all_eq_true]
  constructor
  · intro all insn member
    exact all (some insn) member
  · intro all insn member
    cases insn with
    | none => rfl
    | some insn => exact all insn member

/-- The place is written after instructions that do not read it. -/
theorem cleared_append {middle tail : List (Option Insn)}
    (quiet : ∀ insn, some insn ∈ middle → insn.mayRead place isLocal = false)
    (overwrites : x.overwrites place = true) :
    cleared place isLocal rest (middle ++ some x :: tail) = true := by
  induction middle with
  | nil =>
    change (x.overwrites place || _) = true
    rw [overwrites, Bool.true_or]
  | cons head middle ih =>
    have tailQuiet := ih fun insn member => quiet insn (mem_cons_of_mem _ member)
    cases head with
    | none => exact tailQuiet
    | some insn =>
      change (insn.overwrites place || (!insn.mayRead place isLocal &&
        cleared place isLocal rest (middle ++ some x :: tail))) = true
      rw [quiet insn mem_cons_self, tailQuiet]
      exact Bool.or_true _

theorem drop_eq (less : j < i) (found : code.insn? (bb, i) = some x) :
    (code.insns bb).drop (j + 1) =
      ((code.insns bb).take i).drop (j + 1) ++ some x :: (code.insns bb).drop (i + 1) := by
  obtain ⟨inside, -⟩ := List.getElem?_eq_some_iff.mp (Option.join_eq_some_iff.mp found)
  have long : j + 1 ≤ ((code.insns bb).take i).length := by
    rw [length_take]
    exact Nat.le_min.mpr ⟨less, (less.trans inside)⟩
  have split := congrArg (List.drop (j + 1)) (insns_eq found)
  rw [drop_append_of_le_length long] at split
  exact split

theorem take_eq (less : j < i) (found : code.insn? (bb, j) = some x) :
    (code.insns bb).take i =
      (code.insns bb).take j ++ some x :: ((code.insns bb).take i).drop (j + 1) := by
  have here : ((code.insns bb).take i)[j]? = some (some x) := by
    rw [List.getElem?_take, if_pos less]
    exact Option.join_eq_some_iff.mp found
  obtain ⟨inside, same⟩ := List.getElem?_eq_some_iff.mp here
  have start : ((code.insns bb).take i).take j = (code.insns bb).take j := by
    rw [take_take, Nat.min_eq_left less.le]
  rw [← same, getElem_cons_drop, ← start, take_append_drop]

theorem insn?_of_mem_between (member : some x ∈ ((code.insns bb).take i).drop (j + 1)) :
    ∃ k, j < k ∧ k < i ∧ code.insn? (bb, k) = some x := by
  rw [drop_take] at member
  obtain ⟨k, found⟩ := mem_iff_getElem?.mp member
  rw [List.getElem?_take] at found
  split_ifs at found with less
  rw [List.getElem?_drop] at found
  exact ⟨j + 1 + k, by omega, by omega, Option.join_eq_some_iff.mpr found⟩

theorem mem_take_of_insn? (before : j < i) (found : code.insn? (bb, j) = some x) :
    some x ∈ (code.insns bb).take i := by
  rw [take_eq before found]
  exact mem_append_right _ mem_cons_self

theorem mem_between_of_insn? {k : Nat} (after : j < k) (before : k < i)
    (found : code.insn? (bb, k) = some x) : some x ∈ ((code.insns bb).take i).drop (j + 1) := by
  refine mem_iff_getElem?.mpr ⟨k - (j + 1), ?_⟩
  rw [List.getElem?_drop, Nat.add_sub_cancel' after, List.getElem?_take, if_pos before]
  exact Option.join_eq_some_iff.mp found

end Lists

section Steps

variable {m : Machine} {code : Code} {bb par i j : Nat} {value new : Pseudo} {place : Place}
  {isLocal typed : Bool} {x : Insn}

/-- A place that was local when the store was looked at is safe. -/
theorem localSafe_of_safe (isSafe : isLocal = true → code.localPseudo place.src = true)
    {hidden : Nat → Prop} (more : ∀ nr, code.localPseudo (.sym nr) = true → hidden nr)
    {st : m.State} (safe : Safe code st) : LocalSafe code.isStatic hidden place isLocal st := by
  intro here
  have isLocalSym := isSafe here
  cases src : place.src with
  | reg nr =>
    rw [src] at isLocalSym
    cases isLocalSym
  | val n =>
    rw [src] at isLocalSym
    cases isLocalSym
  | sym nr =>
    rw [src] at isLocalSym
    exact ⟨nr, rfl, auto_of_local isLocalSym, more nr isLocalSym, safe nr isLocalSym⟩

theorem untaken_of_mem (isSafe : isLocal = true → code.localPseudo place.src = true)
    (member : some x ∈ code.insns bb) (here : isLocal = true) : place.src ∉ x.values := by
  have isLocalSym := isSafe here
  cases src : place.src with
  | reg nr =>
    rw [src] at isLocalSym
    cases isLocalSym
  | val n =>
    rw [src] at isLocalSym
    cases isLocalSym
  | sym nr =>
    rw [src] at isLocalSym
    exact not_mem_values isLocalSym member

/-- A block is executed up to an instruction and from there on. -/
theorem execList_insns (found : code.insn? (bb, j) = some x) (st : m.State) :
    execList st (code.insns bb) =
      ((execList st ((code.insns bb).take j)).1 ++
          (execList (execList st ((code.insns bb).take j)).2
            (some x :: (code.insns bb).drop (j + 1))).1,
        (execList (execList st ((code.insns bb).take j)).2
          (some x :: (code.insns bb).drop (j + 1))).2) := by
  conv_lhs => rw [insns_eq found]
  exact execList_append st _ _

theorem execList_insns_clear (found : code.insn? (bb, j) = some x) (st : m.State) :
    execList st ((code.clear (bb, j)).insns bb) =
      ((execList st ((code.insns bb).take j)).1 ++
          (execList (execList st ((code.insns bb).take j)).2
            ((code.insns bb).drop (j + 1))).1,
        (execList (execList st ((code.insns bb).take j)).2
          ((code.insns bb).drop (j + 1))).2) := by
  rw [insns_clear_eq found]
  exact execList_append st _ _

/-- A block with and without a store that is overwritten. -/
theorem execList_clear (lawful : m.Lawful code.isStatic) (wf : code.WellFormed)
    (isSafe : isLocal = true → code.localPseudo place.src = true)
    (dom : code.insn? (bb, j) = some (.store new place false typed)) {rest : Bool}
    (clear : cleared place isLocal rest ((code.insns bb).drop (j + 1)) = true)
    {st : m.State} (safe : Safe code st) :
    List.Forall₂ (SameEntry fun nr => (code.clear (bb, j)).localPseudo (.sym nr) = true)
        (execList st (code.insns bb)).1 (execList st ((code.clear (bb, j)).insns bb)).1 ∧
      ((execList st ((code.clear (bb, j)).insns bb)).2 = (execList st (code.insns bb)).2 ∨
        rest = true ∧
        AgreeOff (Inside (locate (execList st (code.insns bb)).2.regs place) place.size)
          (execList st (code.insns bb)).2 (execList st ((code.clear (bb, j)).insns bb)).2) := by
  have part : ∀ y, some y ∈ (code.insns bb).drop (j + 1) → some y ∈ code.insns bb :=
    fun y member => mem_of_mem_drop member
  have safeBefore : Safe code (execList st ((code.insns bb).take j)).2 :=
    safe_block lawful safe fun y member => mem_of_mem_take member
  have alone : ∀ y, some y ∈ [some (Insn.store new place false typed)] →
    some y ∈ code.insns bb := by
    intro y member
    rw [mem_singleton.mp member]
    exact mem_of_insn? dom
  have safeAfter : Safe code
      (exec (execList st ((code.insns bb).take j)).2 (.store new place false typed)).2 :=
    safe_block lawful safeBefore alone
  have more : ∀ nr, code.localPseudo (.sym nr) = true →
      (code.clear (bb, j)).localPseudo (.sym nr) = true := fun _ => (reduced_store dom).localPseudo
  have stored := agreeOff_store (execList st ((code.insns bb).take j)).2 new place false typed
  have result := execList_cleared lawful (localSafe_of_safe isSafe more safeAfter)
    (localSafe_of_safe isSafe more safeBefore) rfl (by exact stored) clear
    (fun y member => by
      obtain ⟨k, le, found⟩ := insn?_of_mem_drop member
      exact wf.used (by omega) dom found place.src (mem_cons_of_mem _ mem_cons_self))
    (fun y member => untaken_of_mem isSafe (part y member))
  rw [execList_insns dom, execList_insns_clear dom]
  -- Only the rest of the block differs.
  refine ⟨rel_append (sameEvents_refl _ _) result.1, ?_⟩
  rcases result.2 with same | ⟨yes, located, agree⟩
  · exact Or.inl same
  · refine Or.inr ⟨yes, ?_⟩
    rw [← located] at agree
    exact agree

/-- Code whose block does the same without a store. -/
theorem equivalent_of_block (lawful : m.Lawful code.isStatic) (pos : Nat × Nat)
    (same : ∀ st : m.State, Safe code st →
      List.Forall₂ (SameEntry fun nr => (code.clear pos).localPseudo (.sym nr) = true)
        (execList st (code.insns pos.1)).1 (execList st ((code.clear pos).insns pos.1)).1 ∧
      (execList st ((code.clear pos).insns pos.1)).2 = (execList st (code.insns pos.1)).2) :
    Equivalent m code (code.clear pos) := by
  refine equivalent_of_runs fun count bb st initial => ?_
  have static : (code.clear pos).isStatic = code.isStatic := rfl
  refine run_same lawful static 0 (fun _ _ => False) ?_ (fun _ _ never => never.elim) count bb st st
    (Or.inl rfl) initial.safe (Initial.safe (by exact initial))
  intro bb st safe _
  by_cases here : bb = pos.1
  · rw [here]
    exact ⟨(same st safe).1, Or.inl (same st safe).2⟩
  · rw [insns_clear, if_neg here]
    exact ⟨sameEvents_refl _ _, Or.inl rfl⟩

section

variable (lawful : m.Lawful code.isStatic) (wf : code.WellFormed)
  (store : code.insn? (bb, i) = some (.store value place false true))
  (isSafe : isLocal = true → code.localPseudo place.src = true) (less : j < i)
include lawful wf store isSafe less

theorem equivalent_dominated (dom : code.insn? (bb, j) = some (.store new place false typed))
    (quiet : ∀ k y, j < k → k < i → code.insn? (bb, k) = some y → y.mayRead place isLocal = false) :
    Equivalent m code (code.clear (bb, j)) := by
  refine equivalent_of_block lawful (bb, j) fun st safe => ?_
  have clear : cleared place isLocal false ((code.insns bb).drop (j + 1)) = true := by
    rw [drop_eq less store]
    refine cleared_append (fun y member => ?_) (beq_self_eq_true place)
    obtain ⟨k, after, before, found⟩ := insn?_of_mem_between member
    exact quiet k y after before found
  have both := execList_clear lawful wf isSafe dom clear safe
  rcases both.2 with same | ⟨never, -⟩
  · exact ⟨both.1, same⟩
  · cases never

/-- A store of what an earlier memory operation leaves in its place. -/
theorem equivalent_redundant (dom : code.insn? (bb, j) = some x)
    (yes : dominates place x isLocal = .yes) (same : x.memTarget = some value)
    (quiet : ∀ k y, j < k → k < i → code.insn? (bb, k) = some y →
      y.mayWrite place isLocal = false) :
    Equivalent m code (code.clear (bb, i)) := by
  refine equivalent_of_block lawful (bb, i) fun st safe => ?_
  have source : place.src ∈ x.memUses := by
    rcases place_of_dominates yes with ⟨target, isVolatile, rfl⟩ | ⟨new, isVolatile, typed, rfl⟩
    · exact mem_cons_self
    · exact mem_cons_of_mem _ mem_cons_self
  -- The value is in the place after the earlier operation.
  have holds : ∀ before : m.State, Holds place value (exec before x).2 := by
    intro before
    rcases place_of_dominates yes with ⟨target, isVolatile, rfl⟩ | ⟨new, isVolatile, typed, rfl⟩
    · cases same
      exact holds_load lawful (wf.used le_rfl dom dom place.src source)
    · cases same
      exact holds_store before value place isVolatile typed
  -- No instruction between both defines it anew.
  have keeps : ∀ k y, j < k → code.insn? (bb, k) = some y → y.Keeps place.src ∧ y.Keeps value := by
    intro k y after found
    refine ⟨wf.used after.le dom found place.src source, ?_⟩
    rcases place_of_dominates yes with ⟨target, isVolatile, rfl⟩ | ⟨new, isVolatile, typed, rfl⟩
    · cases same
      intro reg equal
      cases equal
      exact wf.single (fun same => after.ne (congrArg Prod.snd same)) dom found mem_cons_self
    · cases same
      exact wf.used after.le dom found value mem_cons_self
  have alone : ∀ y, some y ∈ (code.insns bb).take j ++ [some x] → some y ∈ code.insns bb := by
    intro y member
    rcases mem_append.mp member with earlier | here
    · exact mem_of_mem_take earlier
    · rw [mem_singleton.mp here]
      exact mem_of_insn? dom
  have safeAfter := safe_block lawful safe alone
  rw [execList_append] at safeAfter
  have held : Holds place value (execList st ((code.insns bb).take i)).2 := by
    rw [take_eq less dom, execList_append]
    refine holds_execList lawful (localSafe_of_safe isSafe (fun nr yes => yes) safeAfter)
      (fun y member => ?_) (fun y member => ?_) (fun y member => ?_) (holds _)
    · obtain ⟨k, after, before, found⟩ := insn?_of_mem_between member
      exact quiet k y after before found
    · obtain ⟨k, after, -, found⟩ := insn?_of_mem_between member
      exact keeps k y after found
    · obtain ⟨k, -, -, found⟩ := insn?_of_mem_between member
      exact untaken_of_mem isSafe (mem_of_insn? found)
  have skipped : execList (execList st ((code.insns bb).take i)).2
      (some (.store value place false true) :: (code.insns bb).drop (i + 1)) =
        execList (execList st ((code.insns bb).take i)).2 ((code.insns bb).drop (i + 1)) := by
    change ([] ++ (execList (exec _ _).2 _).1, (execList (exec _ _).2 _).2) = _
    rw [exec_store_of_holds held]
    rfl
  rw [execList_insns store, execList_insns_clear store, skipped]
  exact ⟨sameEvents_refl _ _, rfl⟩

end

theorem equivalent_parent (lawful : m.Lawful code.isStatic) (wf : code.WellFormed)
    (follows : Follows m code)
    (store : code.insn? (bb, i) = some (.store value place false true))
    (isSafe : isLocal = true → code.localPseudo place.src = true) (different : par ≠ bb)
    (edge : par ∈ code.parents bb) (one : (code.children par).length = 1)
    (dom : code.insn? (par, j) = some (.store new place false typed)) {rest : Bool}
    (quiet : rest = true → ∀ k y, k < i → code.insn? (bb, k) = some y →
      y.mayRead place isLocal = false ∧ y.Keeps place.src)
    (clear : cleared place isLocal rest ((code.insns par).drop (j + 1)) = true) :
    Equivalent m code (code.clear (par, j)) := by
  have more : ∀ nr, code.localPseudo (.sym nr) = true →
      (code.clear (par, j)).localPseudo (.sym nr) = true := fun _ => (reduced_store dom).localPseudo
  have only : ∀ regs, m.next par regs = some bb := by
    intro regs
    obtain ⟨child, children⟩ := length_eq_one_iff.mp one
    cases next : m.next par regs with
    | none =>
      rw [follows.exit next] at children
      cases children
    | some other =>
      have here := follows.child next
      have there := wf.edges edge
      rw [children] at here there
      rw [mem_singleton.mp here, mem_singleton.mp there]
  have static : (code.clear (par, j)).isStatic = code.isStatic := rfl
  refine equivalent_of_runs fun count b st initial => ?_
  refine run_same lawful static bb
    (fun st st' => rest = true ∧ AgreeOff (Inside (locate st.regs place) place.size) st st') ?_ ?_
    count b st st (Or.inl rfl) initial.safe (Initial.safe (by exact initial))
  · intro b st safe _
    by_cases here : b = par
    · subst here
      have both := execList_clear lawful wf isSafe dom clear safe
      rcases both.2 with same | ⟨yes, agree⟩
      · exact ⟨both.1, Or.inl same⟩
      · exact ⟨both.1, Or.inr ⟨agree.regs, only _, yes, agree⟩⟩
    · rw [insns_clear, if_neg here]
      exact ⟨sameEvents_refl _ _, Or.inl rfl⟩
  · -- The block of the other store writes the place before anything reads it.
    rintro st st' ⟨yes, agree⟩ safe safe'
    rw [insns_clear, if_neg different.symm]
    have cleared : cleared place isLocal false (code.insns bb) = true := by
      rw [insns_eq store]
      refine cleared_append (fun y member => ?_) (beq_self_eq_true place)
      obtain ⟨k, before, found⟩ := insn?_of_mem_take member
      exact (quiet yes k y before found).1
    have keeps : ∀ y, some y ∈ code.insns bb → y.Keeps place.src := by
      intro y member
      obtain ⟨k, -, found⟩ := insn?_of_mem_drop (j := 0) member
      rcases Nat.lt_or_ge k i with before | after
      · exact (quiet yes k y before found).2
      · exact wf.used after store found place.src (mem_cons_of_mem _ mem_cons_self)
    have isSafe' : isLocal = true → (code.clear (par, j)).localPseudo place.src = true :=
      fun here => (reduced_store dom).localPseudo (isSafe here)
    have both := execList_cleared lawful (localSafe_of_safe isSafe more safe)
      (localSafe_of_safe isSafe' (fun _ yes => yes) safe') rfl agree cleared keeps
      fun y member => untaken_of_mem isSafe member
    rcases both.2 with same | ⟨never, -⟩
    · exact ⟨both.1, same⟩
    · cases never

/-- Nothing changes when a store is killed and `dominates` misses nothing. -/
theorem Kill.Known.equivalent {kill : Kill} (known : kill.Known)
    (lawful : m.Lawful kill.code.isStatic) (wf : kill.code.WellFormed)
    (follows : Follows m kill.code) (harmless : kill.harmless = true) :
    Equivalent m kill.code (kill.code.clear kill.victim) := by
  cases known with
  | @redundant code bb i j value place isLocal x store isSafe less dom yes same between =>
    unfold Kill.harmless at harmless
    rw [if_pos rfl] at harmless
    refine equivalent_redundant lawful wf store isSafe less dom yes same ?_
    intro k y after before found
    have right := allLive_iff.mp harmless y (mem_between_of_insn? after before found)
    rw [Bool.not_eq_true'] at right
    exact mayWrite_of_dominates (between k y after before found) right
  | @dominated code bb i j value new place isLocal typed store isSafe less dom between =>
    have other : ¬((bb, j) = (bb, i)) := fun same => less.ne (congrArg Prod.snd same)
    unfold Kill.harmless at harmless
    rw [if_neg (by exact other), if_pos rfl] at harmless
    refine equivalent_dominated lawful wf store isSafe less dom ?_
    intro k y after before found
    have right := allLive_iff.mp harmless y (mem_between_of_insn? after before found)
    rw [Bool.not_eq_true'] at right
    exact mayRead_of_dominates (between k y after before found) right
  | @parent code par bb i j value new place isLocal typed store isSafe different edge one dom
      before =>
      have other : ¬((par, j) = (bb, i)) := fun same => different (congrArg Prod.fst same)
      unfold Kill.harmless at harmless
      rw [if_neg (by exact other), if_neg (by exact different)] at harmless
      refine equivalent_parent lawful wf follows store isSafe different edge one dom ?_ harmless
      intro rest k y less found
      have right := allLive_iff.mp rest y (mem_take_of_insn? less found)
      rw [Bool.and_eq_true, Bool.not_eq_true'] at right
      exact ⟨mayRead_of_dominates (before k y less found) right.1, keeps_of_steady right.2⟩

end Steps

end SmatchFormal.Memops
