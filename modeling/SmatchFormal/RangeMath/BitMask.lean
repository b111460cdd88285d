import SmatchFormal.Extra.Modulo
import SmatchFormal.Extra.BitTest
import SmatchFormal.Lib.BitLength
import SmatchFormal.RangeMath.Parts
import Mathlib.Tactic.Zify

/-!
# Masks of a range list

The operators on bits read a range list as a mask: `sval_fls_mask` has all bits up to the
highest one of a value, and `rl_to_binfo` takes it from the greatest value of the list.
-/

namespace SmatchFormal.RangeMath

open SmatchFormal.Ranges SmatchFormal.Extra SmatchFormal.Lib

def flsMask (uvalue : BitVec 64) : BitVec 64 :=
  if smFls64 uvalue = 0 then 0 else BitVec.allOnes 64 >>> (64 - smFls64 uvalue)

def svalFlsMask (sval : Sval) : BitVec 64 := flsMask sval.raw

def rlToBinfo (rl : RangeList) : BitInfo :=
  match rlToSval rl with
  | some sval => ⟨sval.raw, sval.raw⟩
  | none => ⟨0, svalFlsMask (rlMax rl)⟩

/-- `rl_to_sval(rl, &sval) && sval.value == 0`, with the value it finds. -/
def knownZero (rl : RangeList) : Option Sval := (rlToSval rl).filter fun sval => sval.raw == 0

section Masks

variable {uvalue : BitVec 64} {type : Ctype} {rl : RangeList} {sval : Sval}

theorem smFls64_eq (uvalue : BitVec 64) : smFls64 uvalue = uvalue.toNat.size := by
  obtain ⟨inside, top⟩ := @flsLoop_spec uvalue 64 uvalue.isLt
  by_cases zero : uvalue = 0
  · subst zero
    rfl
  · obtain ⟨h, value, set⟩ := top zero
    have above : uvalue.toNat < 2 ^ (h + 1) := by
      apply Nat.lt_pow_two_of_testBit
      intro i beyond
      by_contra other
      have less := inside i (Bool.not_eq_false _ |>.mp other)
      omega
    unfold smFls64
    rw [value, BitLength.size_eq_of_top set above]

theorem size_le_width (uvalue : BitVec 64) : uvalue.toNat.size ≤ 64 :=
  Nat.size_le.mpr uvalue.isLt

/-- `fls_mask` has as many low bits as the number has bits. -/
theorem flsMask_toNat (uvalue : BitVec 64) :
    (flsMask uvalue).toNat = 2 ^ uvalue.toNat.size - 1 := by
  have short := size_le_width uvalue
  unfold flsMask
  rw [smFls64_eq]
  split_ifs with zero
  · rw [zero]
    rfl
  · rw [BitVec.toNat_ushiftRight, BitVec.toNat_allOnes, Nat.shiftRight_eq_div_pow]
    have split : 2 ^ 64 = 2 ^ (64 - uvalue.toNat.size) * 2 ^ uvalue.toNat.size := by
      rw [← Nat.pow_add, Nat.sub_add_cancel short]
    have positive := Nat.two_pow_pos (64 - uvalue.toNat.size)
    have rest := Nat.two_pow_pos uvalue.toNat.size
    rw [split]
    apply Nat.div_eq_of_lt_le
    · rw [Nat.sub_mul, Nat.mul_comm]
      omega
    · rw [Nat.sub_add_cancel rest, Nat.mul_comm]
      exact Nat.sub_lt (Nat.mul_pos rest positive) Nat.one_pos

/-- The bits of a value that is not negative are those of the number. -/
theorem raw_toNat (nonneg : 0 ≤ sval.val) : (sval.raw.toNat : Int) = sval.val :=
  uvalue_of_nonneg nonneg

theorem raw_toNat_eq (nonneg : 0 ≤ sval.val) : sval.raw.toNat = sval.val.toNat := by
  have value := raw_toNat nonneg
  omega

/-- A word that is small enough for the type is a value of it. -/
theorem word_ofType (word : BitVec 64) (small : (word.toNat : Int) ≤ type.hi) :
    (⟨type, word⟩ : Sval).OfType type ∧ (⟨type, word⟩ : Sval).val = word.toNat := by
  have bounds := type.kind.bounds
  have value : (⟨type, word⟩ : Sval).val = word.toNat := by
    cases sign : typeUnsigned type with
    | true => exact Sval.val_of_unsigned sign
    | false =>
      have top := IntKind.hi_of_signed sign
      have half : 2 * word.toNat < 2 ^ 64 := by
        unfold Ctype.hi at small
        omega
      rw [Sval.val_of_signed sign]
      exact BitVec.toInt_eq_toNat_of_lt half
  refine ⟨⟨rfl, ?_, ?_⟩, value⟩
  · rw [value]
    unfold Ctype.lo
    omega
  · rw [value]
    exact small

theorem size_toNat_mono {x y : Int} (order : x ≤ y) : x.toNat.size ≤ y.toNat.size :=
  Nat.size_le_size (Int.toNat_le_toNat order)

theorem hi_eq_mask (type : Ctype) : type.hi = 2 ^ typePositiveBits type - 1 := by
  obtain ⟨address, kind⟩ := type
  cases kind <;> rfl

/-- A mask that is as long as a value of the type is a value of the type. -/
theorem mask_le_hi {n : Nat} (small : (n : Int) ≤ type.hi) :
    ((2 ^ n.size - 1 : Nat) : Int) ≤ type.hi := by
  rw [hi_eq_mask] at small ⊢
  have positive := Nat.two_pow_pos (typePositiveBits type)
  have below : n < 2 ^ typePositiveBits type := by
    zify
    omega
  have short := Nat.size_le.mpr below
  have order : 2 ^ n.size ≤ 2 ^ typePositiveBits type := Nat.pow_le_pow_right (by decide) short
  zify at order
  push_cast [Nat.one_le_two_pow]
  omega

theorem svalFlsMask_toNat (nonneg : 0 ≤ sval.val) :
    (svalFlsMask sval).toNat = 2 ^ sval.val.toNat.size - 1 := by
  rw [svalFlsMask, flsMask_toNat, raw_toNat_eq nonneg]

theorem knownZero_eq_some (canonical : Canonical type rl) (found : knownZero rl = some sval) :
    sval.OfType type ∧ sval.val = 0 ∧ ∀ x, x ∈ rlSet rl ↔ x = 0 := by
  obtain ⟨single, zero⟩ := Option.filter_eq_some_iff.mp found
  obtain ⟨typed, members⟩ := rlToSval_eq_some canonical single
  have value : sval.val = 0 := (Sval.raw_eq_zero_iff sval).mp (beq_iff_eq.mp zero)
  refine ⟨typed, value, fun x => ?_⟩
  rw [members x, value]

theorem knownZero_eq_none (canonical : Canonical type rl) (null : rl ≠ [])
    (found : knownZero rl = none) : ∃ x ∈ rlSet rl, x ≠ 0 := by
  cases single : rlToSval rl with
  | none =>
    have less := (rlToSval_eq_none canonical null).mp single
    by_cases zero : (rlMin rl).val = 0
    · exact ⟨_, rlMax_mem canonical null, by omega⟩
    · exact ⟨_, rlMin_mem canonical null, zero⟩
  | some sval =>
    obtain ⟨typed, members⟩ := rlToSval_eq_some canonical single
    refine ⟨sval.val, (members _).mpr rfl, fun zero => ?_⟩
    have raw := beq_iff_eq.mpr ((Sval.raw_eq_zero_iff sval).mpr zero)
    unfold knownZero at found
    rw [single, Option.filter_some, if_pos raw] at found
    cases found

end Masks

end SmatchFormal.RangeMath
