import SmatchFormal.Memops.Blocks

/-!
# Killing one store

What is known about a store when it is killed, and what can go wrong: `dominates` does not
look at the inputs of an asm and compares offsets at 32 bits, and a parent is looked at from
its first instruction on, whatever comes after the store that is killed.
-/

namespace SmatchFormal.Memops

open Machine List

/-! ## Well-formed code -/

def Insn.memUses : Insn → List Pseudo
  | .load _ place _ => [place.src]
  | .store value place _ _ => [value, place.src]
  | _ => []

/-- In static single assignment form, a register is defined once, and before its uses. -/
structure Code.WellFormed (code : Code) : Prop where
  used : ∀ {bb j k x y}, j ≤ k → code.insn? (bb, j) = some x → code.insn? (bb, k) = some y →
    ∀ pseudo ∈ x.memUses, y.Keeps pseudo
  single : ∀ {pos pos' x y reg}, pos ≠ pos' → code.insn? pos = some x → code.insn? pos' = some y →
    reg ∈ x.defines → reg ∉ y.defines
  edges : ∀ {par bb}, par ∈ code.parents bb → bb ∈ code.children par

/-- Blocks go on with one of their children, and a block without a next one has no children.
What comes next depends on the instructions that only end a block. -/
structure Follows (m : Machine) (code : Code) : Prop where
  child : ∀ {bb regs child}, m.next bb regs = some child → child ∈ code.children bb
  exit : ∀ {bb regs}, m.next bb regs = none → code.children bb = []
  reads : ∀ {bb} {regs regs' : Nat → m.Val}, (∀ {k id args isFmadd},
    code.insn? (bb, k) = some (.op id none args isFmadd) →
      ∀ reg, .reg reg ∈ args → regs' reg = regs reg) → m.next bb regs' = m.next bb regs

section Positions

variable {code : Code} {bb j : Nat} {x : Insn}

theorem insns_clear (code : Code) (pos : Nat × Nat) (bb : Nat) :
    (code.clear pos).insns bb =
      if bb = pos.1 then (code.insns bb).set pos.2 none else code.insns bb := by
  unfold Code.clear Code.insns
  dsimp only
  rw [List.getElem?_modify]
  cases code.blocks[bb]? with
  | none => split_ifs <;> rfl
  | some block =>
    change
      (if pos.1 = bb then { block with insns := block.insns.set pos.2 none } else block).insns =
      if bb = pos.1 then block.insns.set pos.2 none else block.insns
    by_cases here : bb = pos.1
    · rw [if_pos here, if_pos here.symm]
    · rw [if_neg here, if_neg (Ne.symm here)]

theorem insn?_clear (code : Code) (pos q : Nat × Nat) :
    (code.clear pos).insn? q = if q = pos then none else code.insn? q := by
  unfold Code.insn?
  rw [insns_clear]
  by_cases here : q.1 = pos.1
  · rw [if_pos here, List.getElem?_set]
    by_cases same : pos.2 = q.2
    · rw [if_pos same, if_pos (Prod.ext here same.symm)]
      split_ifs <;> rfl
    · rw [if_neg same, if_neg fun equal => same (congrArg Prod.snd equal).symm]
  · rw [if_neg here, if_neg fun equal => here (congrArg Prod.fst equal)]

theorem parents_clear (code : Code) (pos : Nat × Nat) (bb : Nat) :
    (code.clear pos).parents bb = code.parents bb := by
  unfold Code.clear Code.parents
  dsimp only
  rw [List.getElem?_modify]
  cases code.blocks[bb]? with
  | none => rfl
  | some block =>
    change (if pos.1 = bb then { block with insns := block.insns.set pos.2 none }
      else block).parents = block.parents
    split_ifs <;> rfl

theorem children_clear (code : Code) (pos : Nat × Nat) (bb : Nat) :
    (code.clear pos).children bb = code.children bb := by
  unfold Code.clear Code.children
  dsimp only
  rw [List.getElem?_modify]
  cases code.blocks[bb]? with
  | none => rfl
  | some block =>
    change (if pos.1 = bb then { block with insns := block.insns.set pos.2 none }
      else block).children = block.children
    split_ifs <;> rfl

theorem insns_eq (found : code.insn? (bb, j) = some x) :
    code.insns bb = (code.insns bb).take j ++ some x :: (code.insns bb).drop (j + 1) := by
  obtain ⟨inside, same⟩ := List.getElem?_eq_some_iff.mp (Option.join_eq_some_iff.mp found)
  dsimp only at same
  rw [← same, getElem_cons_drop, take_append_drop]

theorem insns_clear_eq (found : code.insn? (bb, j) = some x) :
    (code.clear (bb, j)).insns bb =
      (code.insns bb).take j ++ none :: (code.insns bb).drop (j + 1) := by
  obtain ⟨inside, -⟩ := List.getElem?_eq_some_iff.mp (Option.join_eq_some_iff.mp found)
  rw [insns_clear, if_pos rfl]
  exact set_eq_take_append_cons_drop.trans (if_pos inside)

theorem insn?_of_mem_drop (member : some x ∈ (code.insns bb).drop j) :
    ∃ k, j ≤ k ∧ code.insn? (bb, k) = some x := by
  obtain ⟨k, found⟩ := mem_iff_getElem?.mp member
  rw [List.getElem?_drop] at found
  exact ⟨j + k, Nat.le_add_right j k, Option.join_eq_some_iff.mpr found⟩

theorem insn?_of_mem_take (member : some x ∈ (code.insns bb).take j) :
    ∃ k, k < j ∧ code.insn? (bb, k) = some x := by
  obtain ⟨k, found⟩ := mem_iff_getElem?.mp member
  rw [List.getElem?_take] at found
  split_ifs at found with less
  exact ⟨k, less, Option.join_eq_some_iff.mpr found⟩

theorem mem_of_insn? (found : code.insn? (bb, j) = some x) : some x ∈ code.insns bb := by
  rw [insns_eq found]
  exact mem_append_right _ mem_cons_self

theorem anyInsn_iff {test : Insn → Bool} :
    code.anyInsn test = true ↔ ∃ pos x, code.insn? pos = some x ∧ test x = true := by
  unfold Code.anyInsn
  rw [any_eq_true]
  constructor
  · rintro ⟨block, inside, taken⟩
    obtain ⟨insn, member, used⟩ := any_eq_true.mp taken
    cases insn with
    | none => cases used
    | some x =>
      obtain ⟨bb, place⟩ := mem_iff_getElem?.mp inside
      obtain ⟨j, found⟩ := mem_iff_getElem?.mp member
      refine ⟨(bb, j), x, ?_, used⟩
      unfold Code.insn? Code.insns
      dsimp only
      rw [place]
      exact Option.join_eq_some_iff.mpr found
  · rintro ⟨⟨bb, j⟩, x, found, used⟩
    have member := mem_of_insn? found
    unfold Code.insns at member
    cases place : code.blocks[bb]? with
    | none =>
      rw [place] at member
      cases member
    | some block =>
      rw [place] at member
      exact ⟨block, mem_of_getElem? place, any_eq_true.mpr ⟨some x, member, used⟩⟩

theorem has_iff : code.has x = true ↔ ∃ pos, code.insn? pos = some x := by
  unfold Code.has
  rw [anyInsn_iff]
  constructor
  · rintro ⟨pos, other, found, same⟩
    cases beq_iff_eq.mp same
    exact ⟨pos, found⟩
  · rintro ⟨pos, found⟩
    exact ⟨pos, x, found, beq_self_eq_true x⟩

end Positions

/-! ## Code with fewer instructions -/

/-- Some instructions were killed, but none that ends a block. -/
structure Reduced (code code' : Code) : Prop where
  insn : ∀ {pos x}, code'.insn? pos = some x → code.insn? pos = some x
  ends : ∀ {pos id args isFmadd}, code.insn? pos = some (.op id none args isFmadd) →
    code'.insn? pos = some (.op id none args isFmadd)
  parents : ∀ bb, code'.parents bb = code.parents bb
  children : ∀ bb, code'.children bb = code.children bb
  static : code'.isStatic = code.isStatic

namespace Reduced

variable {code code' code'' : Code}

theorem refl (code : Code) : Reduced code code where
  insn := fun found => found
  ends := fun found => found
  parents := fun _ => rfl
  children := fun _ => rfl
  static := rfl

theorem trans (first : Reduced code code') (second : Reduced code' code'') :
    Reduced code code'' where
  insn := fun found => first.insn (second.insn found)
  ends := fun found => second.ends (first.ends found)
  parents := fun bb => (second.parents bb).trans (first.parents bb)
  children := fun bb => (second.children bb).trans (first.children bb)
  static := second.static.trans first.static

theorem wellFormed (reduced : Reduced code code') (wf : code.WellFormed) : code'.WellFormed where
  used := fun le first second => wf.used le (reduced.insn first) (reduced.insn second)
  single := fun ne first second => wf.single ne (reduced.insn first) (reduced.insn second)
  edges := by
    intro par bb member
    rw [reduced.parents] at member
    rw [reduced.children]
    exact wf.edges member

theorem follows {m : Machine} (reduced : Reduced code code') (follows : Follows m code) :
    Follows m code' where
  child := fun next => reduced.children _ ▸ follows.child next
  exit := fun next => (reduced.children _).trans (follows.exit next)
  reads := fun same => follows.reads fun found => same (reduced.ends found)

theorem has (reduced : Reduced code code') {x : Insn} (here : code'.has x = true) :
    code.has x = true := by
  obtain ⟨pos, found⟩ := has_iff.mp here
  exact has_iff.mpr ⟨pos, reduced.insn found⟩

/-- With fewer instructions there are more local symbols, or as many. -/
theorem localPseudo (reduced : Reduced code code') {pseudo : Pseudo}
    (isLocal : code.localPseudo pseudo = true) : code'.localPseudo pseudo = true := by
  cases pseudo with
  | reg nr => cases isLocal
  | val n => cases isLocal
  | sym nr =>
    unfold Code.localPseudo at isLocal ⊢
    rw [Bool.and_eq_true, Bool.not_eq_true', Bool.not_eq_true'] at isLocal ⊢
    refine ⟨reduced.static ▸ isLocal.1, Bool.eq_false_iff.mpr fun taken => ?_⟩
    obtain ⟨q, x, found, used⟩ := anyInsn_iff.mp taken
    rw [show code.addressTaken nr = true from anyInsn_iff.mpr ⟨q, x, reduced.insn found, used⟩]
      at isLocal
    cases isLocal.2

end Reduced

/-- An instruction is killed that does not just end a block. -/
theorem reduced_clear {code : Code} {pos : Nat × Nat} {x : Insn} (found : code.insn? pos = some x)
    (other : ∀ id args isFmadd, x ≠ .op id none args isFmadd) : Reduced code (code.clear pos) where
  insn := by
    intro q y here
    rw [insn?_clear] at here
    split_ifs at here
    exact here
  ends := by
    intro q id args isFmadd here
    rw [insn?_clear, if_neg, here]
    rintro rfl
    rw [found] at here
    exact other id args isFmadd (Option.some.inj here)
  parents := parents_clear code pos
  children := children_clear code pos
  static := rfl

namespace Insn

def wraps (place other : Place) : Bool :=
  other.src == place.src && !sameMemop place other && !overlappingMemop place other &&
    !disjointPlaces place other

/-- The instruction may read the place although `dominates` finds that it does not matter. -/
def missedRead (place : Place) : Insn → Bool
  | load _ other _ => wraps place other
  | asm _ _ _ _ _ inputMemory => inputMemory
  | _ => false

/-- The instruction may write the place although `dominates` finds that it does not matter. -/
def missedWrite (place : Place) : Insn → Bool
  | store _ other _ _ => wraps place other
  | _ => false

def steady (place : Place) (insn : Insn) : Bool :=
  match place.src with
  | .reg reg => !insn.defines.contains reg
  | _ => true

end Insn

section Dominance

variable {place other : Place} {isLocal : Bool} {x : Insn}

theorem separate_of_dominates (no : dominatesPlace place other isLocal = .no)
    (right : Insn.wraps place other = false) : separate place other isLocal = true := by
  unfold separate
  rw [no, beq_self_eq_true, Bool.true_and]
  by_cases source : other.src = place.src
  · unfold dominatesPlace at no
    rw [if_neg (not_not.mpr source)] at no
    split_ifs at no with same overlap
    unfold Insn.wraps at right
    rw [source, beq_self_eq_true, Bool.not_eq_true _ |>.mp same,
      Bool.not_eq_true _ |>.mp overlap] at right
    rw [source, bne_self_eq_false, Bool.false_or]
    have disjoint : (!disjointPlaces place other) = false := right
    rw [Bool.not_eq_false'] at disjoint
    exact disjoint
  · rw [bne_iff_ne.mpr source, Bool.true_or]

theorem mayRead_of_dominates (no : dominates place x isLocal = .no)
    (right : x.missedRead place = false) : x.mayRead place isLocal = false := by
  cases x with
  | load target other isVolatile =>
    exact congrArg not (separate_of_dominates no right)
  | call id target args isPure =>
    change (if isLocal then Dominance.no else .unknown) = .no at no
    split_ifs at no with here
    exact congrArg not here
  | asm id targets args clobberMemory outputMemory inputMemory =>
    change (if clobberMemory then Dominance.unknown
      else if outputMemory then .unknown else .no) = .no at no
    split_ifs at no with clobber output
    rw [Bool.not_eq_true] at clobber output
    unfold Insn.mayRead
    rw [clobber, output]
    exact right
  | _ => rfl

theorem mayWrite_of_dominates (no : dominates place x isLocal = .no)
    (right : x.missedWrite place = false) : x.mayWrite place isLocal = false := by
  cases x with
  | store new other isVolatile typed =>
    exact congrArg not (separate_of_dominates no right)
  | call id target args isPure =>
    change (if isLocal then Dominance.no else .unknown) = .no at no
    split_ifs at no with here
    exact congrArg not here
  | asm id targets args clobberMemory outputMemory inputMemory =>
    change (if clobberMemory then Dominance.unknown
      else if outputMemory then .unknown else .no) = .no at no
    split_ifs at no with clobber output
    rw [Bool.not_eq_true] at clobber output
    unfold Insn.mayWrite
    rw [clobber, output]
    rfl
  | _ => rfl

/-- Memory operations that dominate each other are on the same place. -/
theorem place_of_dominates (yes : dominates place x isLocal = .yes) :
    (∃ target isVolatile, x = .load target place isVolatile) ∨
      ∃ new isVolatile typed, x = .store new place isVolatile typed := by
  have same : ∀ {other}, dominatesPlace place other isLocal = .yes → other = place := by
    intro other yes
    unfold dominatesPlace at yes
    split_ifs at yes with source here distinct memop
    unfold sameMemop at memop
    rw [Bool.and_eq_true, beq_iff_eq, beq_iff_eq] at memop
    obtain ⟨src, offset, size⟩ := place
    obtain ⟨src', offset', size'⟩ := other
    obtain ⟨rfl, rfl⟩ := memop
    cases not_not.mp source
    rfl
  cases x with
  | load target other isVolatile => exact Or.inl ⟨target, isVolatile, by rw [same yes]⟩
  | store new other isVolatile typed => exact Or.inr ⟨new, isVolatile, typed, by rw [same yes]⟩
  | call id target args isPure =>
    change (if isLocal then Dominance.no else .unknown) = .yes at yes
    split_ifs at yes
  | entry =>
    change (if isLocal then Dominance.no else .unknown) = .yes at yes
    split_ifs at yes
  | asm id targets args clobberMemory outputMemory inputMemory =>
    change (if clobberMemory then Dominance.unknown
      else if outputMemory then .unknown else .no) = .yes at yes
    split_ifs at yes
  | op id target args isFmadd => cases yes

theorem keeps_of_steady (steady : x.steady place = true) : x.Keeps place.src := by
  intro reg src member
  unfold Insn.steady at steady
  rw [src, Bool.not_eq_true'] at steady
  rw [contains_iff_mem.mpr member] at steady
  cases steady

end Dominance

end SmatchFormal.Memops
