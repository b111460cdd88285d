import SmatchFormal.Bitfield.Layout
import SmatchFormal.Ir.EvalOp

/-!
# Access to bit-fields

A member is read and written through its unit: `linearize_load_gen` loads the unit and shifts it,
`linearize_store_gen` loads the unit, replaces the bits of the member and stores the unit back.
-/

namespace SmatchFormal.Bitfield

open SmatchFormal.Ir

abbrev Memory := Nat → Bool

namespace Memory

def load (memory : Memory) (first size : Nat) : Nat :=
  Nat.ofBits fun i : Fin size => memory (first + i)

def store (memory : Memory) (first size value : Nat) : Memory := fun i =>
  if first ≤ i ∧ i < first + size then value.testBit (i - first) else memory i

variable {memory : Memory} {first size value i : Nat}

theorem testBit_load :
    (memory.load first size).testBit i = (decide (i < size) && memory (first + i)) := by
  unfold load
  rcases Nat.lt_or_ge i size with inside | outside
  · rw [Nat.testBit_ofBits_lt _ _ inside]
    simp [inside]
  · rw [Nat.testBit_ofBits_ge _ _ outside]
    simp [Nat.not_lt.mpr outside]

theorem store_inside (inside : i < size) :
    memory.store first size value (first + i) = value.testBit i := by
  unfold store
  rw [if_pos ⟨Nat.le_add_right first i, Nat.add_lt_add_left inside first⟩, Nat.add_sub_cancel_left]

theorem store_outside (outside : ¬ (first ≤ i ∧ i < first + size)) :
    memory.store first size value i = memory i := if_neg outside

end Memory

def run (opcode : Opcode) (size itype v1 v2 : Nat) : Nat :=
  (⟨opcode, size, itype, .arg 0, .arg 1, .arg 2⟩ : Instruction).eval v1 v2 0

namespace Placed

def bitfieldBaseType (p : Placed) : Nat :=
  match p.member.kind with
  | .bitfield baseSize =>
    if p.packed then
      (bytesToBits (bitsToBytes (p.bitOffset.toNat + p.member.bitSize))).toNat
    else baseSize.toNat
  | .regular _ => p.width

def castPseudo (val source target : Nat) : Nat :=
  if target = source then val else run .trunc target source val 0

def linearizeBitfieldExtract (p : Placed) (val : Nat) : Nat :=
  let off := p.bitOffset.toNat
  let val := if off ≠ 0 then run .lsr p.bitfieldBaseType p.bitfieldBaseType val off else val
  castPseudo val p.bitfieldBaseType p.width

def linearizeLoadGen (p : Placed) (memory : Memory) : Nat :=
  let new := memory.load (8 * p.offset.toNat) p.bitfieldBaseType
  if p.width ≠ p.bitfieldBaseType then p.linearizeBitfieldExtract new else new

/-- `linearize_bitfield_insert`.  The masks are shifted in sixty-four bits, which is undefined for
a longer distance. -/
def linearizeBitfieldInsert (p : Placed) (ori val : Nat) : Option Nat :=
  let shift := p.bitOffset.toNat
  let size := p.width
  let btype := p.bitfieldBaseType
  if 64 ≤ size ∨ btype = 0 ∨ 64 < btype ∨ 64 ≤ shift then none
  else
    let mask := (1#64 <<< size) - 1
    let smask := bitsMask btype
    let val := run .zext btype size val 0
    let val := if shift ≠ 0 then run .shl btype btype val shift else val
    let mask := if shift ≠ 0 then mask <<< shift else mask
    let ori := run .and btype btype ori (~~~mask &&& smask).toNat
    some (run .or btype btype ori val)

def linearizeStoreGen (p : Placed) (memory : Memory) (value : Nat) : Option Memory :=
  let first := 8 * p.offset.toNat
  if p.bitfieldBaseType ≠ p.width then
    let orig := memory.load first p.bitfieldBaseType
    (p.linearizeBitfieldInsert orig value).map (memory.store first p.bitfieldBaseType)
  else some (memory.store first p.bitfieldBaseType value)

/-- A store is defined, the load after it gives the value at the width of the member, and no bit
beside the member has changed. -/
def Accessible (p : Placed) : Prop :=
  ∀ (memory : Memory) (value : Nat), ∃ stored : Memory,
    p.linearizeStoreGen memory value = some stored ∧
      p.linearizeLoadGen stored = value % 2 ^ p.width ∧ ∀ i ∉ p.bits, stored i = memory i

end Placed

section Run

variable {size itype v1 v2 i : Nat}

theorem testBit_runAnd :
    (run .and size itype v1 v2).testBit i =
      (decide (i < size) && (v1.testBit i && v2.testBit i)) := testBit_and v1 v2 0 i rfl

theorem testBit_runOr :
    (run .or size itype v1 v2).testBit i =
      (decide (i < size) && (v1.testBit i || v2.testBit i)) := testBit_or v1 v2 0 i rfl

theorem testBit_runShl :
    (run .shl size itype v1 v2).testBit i =
      (decide (i < size) && (decide (v2 ≤ i) && v1.testBit (i - v2))) := testBit_shl v1 v2 0 i rfl

theorem testBit_runLsr :
    (run .lsr size itype v1 v2).testBit i =
      (decide (v2 + i < size) && v1.testBit (v2 + i)) := testBit_lsr v1 v2 0 i rfl

theorem testBit_runZext :
    (run .zext size itype v1 v2).testBit i =
      (decide (i < size) && (decide (i < itype) && v1.testBit i)) :=
  testBit_zext v1 v2 0 i (.inr rfl)

theorem testBit_runTrunc :
    (run .trunc size itype v1 v2).testBit i =
      (decide (i < size) && (decide (i < itype) && v1.testBit i)) :=
  testBit_zext v1 v2 0 i (.inl rfl)

end Run

namespace Placed

variable {p : Placed} {memory : Memory} {ori val : Nat}

/-- The unit with the bits of the member replaced. -/
theorem linearizeBitfieldInsert_some (less : p.width < 64) (small : p.bitfieldBaseType ≤ 64)
    (inside : p.bitOffset.toNat + p.width ≤ p.bitfieldBaseType) (positive : 0 < p.width) :
    ∃ unit, p.linearizeBitfieldInsert ori val = some unit ∧ ∀ i < p.bitfieldBaseType,
      unit.testBit i =
        if p.bitOffset.toNat ≤ i ∧ i < p.bitOffset.toNat + p.width then
          val.testBit (i - p.bitOffset.toNat)
        else ori.testBit i := by
  have defined : ¬ (64 ≤ p.width ∨ p.bitfieldBaseType = 0 ∨ 64 < p.bitfieldBaseType ∨
      64 ≤ p.bitOffset.toNat) := by omega
  unfold linearizeBitfieldInsert
  rw [if_neg defined]
  refine ⟨_, rfl, ?_⟩
  intro i low
  have bounded : i < 64 := by omega
  have unit : (bitsMask p.bitfieldBaseType).getLsbD i = true := by
    rw [getLsbD_bitsMask i (by omega) small]
    exact decide_eq_true low
  by_cases shifted : p.bitOffset.toNat ≠ 0
  · simp only [if_pos shifted, testBit_runOr, testBit_runAnd, testBit_runShl,
      testBit_runZext, testBit_toNat, BitVec.getLsbD_and, BitVec.getLsbD_not, unit,
      BitVec.getLsbD_shiftLeft, getLsbD_lowMask _ less]
    rcases Nat.lt_or_ge i p.bitOffset.toNat with before | after
    · simp [low, bounded, before, Nat.not_le.mpr before]
    · have member : i - p.bitOffset.toNat < p.bitfieldBaseType := by omega
      rcases Nat.lt_or_ge i (p.bitOffset.toNat + p.width) with within | beyond
      · have near : i - p.bitOffset.toNat < p.width := by omega
        simp [low, bounded, after, within, near, member, Nat.not_lt.mpr after]
      · have far : ¬ i - p.bitOffset.toNat < p.width := by omega
        simp [low, bounded, after, Nat.not_lt.mpr beyond, far, member, Nat.not_lt.mpr after]
  · have first : p.bitOffset.toNat = 0 := not_not.mp shifted
    simp only [first, ne_eq, not_true_eq_false, if_false, testBit_runOr, testBit_runAnd,
      testBit_runZext, testBit_toNat, BitVec.getLsbD_and, BitVec.getLsbD_not, unit,
      getLsbD_lowMask _ less, Nat.zero_le, true_and, Nat.zero_add, Nat.sub_zero]
    rcases Nat.lt_or_ge i p.width with within | beyond
    · simp [low, bounded, within]
    · simp [low, bounded, Nat.not_lt.mpr beyond]

/-- A load shifts the member to the bottom of its unit. -/
theorem testBit_linearizeLoadGen
    (inside : p.bitOffset.toNat + p.width ≤ p.bitfieldBaseType) (i : Nat) :
    (p.linearizeLoadGen memory).testBit i =
      (decide (i < p.width) && memory (p.position + i)) := by
  unfold linearizeLoadGen position
  by_cases whole : p.width = p.bitfieldBaseType
  · have first : p.bitOffset.toNat = 0 := by omega
    simp only [whole, ne_eq, not_true_eq_false, if_false, Memory.testBit_load, first, Nat.add_zero]
  · simp only [ne_eq, whole, not_false_eq_true, if_true, linearizeBitfieldExtract, castPseudo,
      if_false, testBit_runTrunc]
    rcases Nat.lt_or_ge i p.width with within | beyond
    · have low : p.bitOffset.toNat + i < p.bitfieldBaseType := by omega
      have near : i < p.bitfieldBaseType := by omega
      by_cases shifted : p.bitOffset.toNat ≠ 0
      · simp only [if_pos shifted, testBit_runLsr, Memory.testBit_load]
        simp [within, low, near, Nat.add_assoc]
      · have first : p.bitOffset.toNat = 0 := not_not.mp shifted
        simp only [first, not_true_eq_false, if_false, Memory.testBit_load]
        simp [within, near]
    · simp [Nat.not_lt.mpr beyond]

/-- What a load gives if the bits of the member are those of a value. -/
theorem linearizeLoadGen_eq (inside : p.bitOffset.toNat + p.width ≤ p.bitfieldBaseType)
    (stored : ∀ i < p.width, memory (p.position + i) = val.testBit i) :
    p.linearizeLoadGen memory = val % 2 ^ p.width := by
  apply Nat.eq_of_testBit_eq
  intro i
  rw [testBit_linearizeLoadGen inside, Nat.testBit_mod_two_pow]
  rcases Nat.lt_or_ge i p.width with within | beyond
  · rw [stored i within]
  · rw [decide_eq_false (Nat.not_lt.mpr beyond), Bool.false_and, Bool.false_and]

/-- A member is accessible if its unit is not longer than the masks, or if it is its own unit. -/
theorem accessible_iff (positive : 0 < p.width)
    (inside : p.bitOffset.toNat + p.width ≤ p.bitfieldBaseType) :
    p.Accessible ↔ p.bitfieldBaseType ≤ 64 ∨ p.bitfieldBaseType = p.width := by
  constructor
  · intro accessible
    by_contra wide
    obtain ⟨stored, defined, _⟩ := accessible (fun _ => false) 0
    have undefined : p.linearizeStoreGen (fun _ => false) 0 = none := by
      simp only [linearizeStoreGen, linearizeBitfieldInsert]
      rw [if_pos (fun same => wide (.inr same)), if_pos (.inr (.inr (.inl (by omega))))]
      rfl
    rw [undefined] at defined
    cases defined
  · intro unit memory value
    by_cases whole : p.bitfieldBaseType = p.width
    · have first : p.bitOffset.toNat = 0 := by omega
      have position : p.position = 8 * p.offset.toNat := by
        unfold Placed.position
        rw [first, Nat.add_zero]
      refine ⟨memory.store p.position p.width value, ?_, ?_, ?_⟩
      · simp only [linearizeStoreGen, whole, ne_eq, not_true_eq_false, if_false, position]
      · exact linearizeLoadGen_eq inside fun i within => Memory.store_inside within
      · intro i outside
        refine Memory.store_outside fun within => outside ?_
        exact Finset.mem_Ico.mpr within
    · have small : p.bitfieldBaseType ≤ 64 := unit.resolve_right whole
      let orig := memory.load (8 * p.offset.toNat) p.bitfieldBaseType
      obtain ⟨replaced, insert, bits⟩ := linearizeBitfieldInsert_some
        (by omega) small inside positive
      refine ⟨memory.store (8 * p.offset.toNat) p.bitfieldBaseType replaced, ?_, ?_, ?_⟩
      · simp only [linearizeStoreGen]
        rw [if_pos whole, insert]
        rfl
      · refine linearizeLoadGen_eq inside ?_
        intro i within
        rw [position, Nat.add_assoc, Memory.store_inside (by omega), bits _ (by omega),
          if_pos ⟨Nat.le_add_right _ _, Nat.add_lt_add_left within _⟩, Nat.add_sub_cancel_left]
      · intro i outside
        by_cases within : 8 * p.offset.toNat ≤ i ∧ i < 8 * p.offset.toNat + p.bitfieldBaseType
        · obtain ⟨j, rfl⟩ := Nat.exists_eq_add_of_le within.1
          have low : j < p.bitfieldBaseType := by omega
          have beside : ¬ (p.bitOffset.toNat ≤ j ∧ j < p.bitOffset.toNat + p.width) := by
            intro member
            refine outside (Finset.mem_Ico.mpr ?_)
            unfold position
            omega
          rw [Memory.store_inside low, bits j low, if_neg beside, Memory.testBit_load,
            decide_eq_true low, Bool.true_and]
        · exact Memory.store_outside within

end Placed

end SmatchFormal.Bitfield
