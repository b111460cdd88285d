import Mathlib.Data.Nat.Size
import Mathlib.Data.Nat.Bitwise

/-!
# Bit lengths

A mask of the lowest `n` bits is `2 ^ n - 1`.  Two masks are ordered by their lengths, so
`|||` and `&&&` are the greater and the smaller one, and their difference has the length of
the greater one.  The lowest bit of a number bounds it from below, `Nat.size` from above.
`(x + mask) & ~mask` rounds up to a multiple of a power of two.
-/

namespace SmatchFormal.Lib.BitLength

theorem mask_or_mask (m n : Nat) : (2 ^ m - 1) ||| (2 ^ n - 1) = 2 ^ max m n - 1 := by
  apply Nat.eq_of_testBit_eq
  intro i
  rw [Nat.testBit_or, Nat.testBit_two_pow_sub_one, Nat.testBit_two_pow_sub_one,
    Nat.testBit_two_pow_sub_one, ← Bool.decide_or]
  exact decide_eq_decide.mpr (by omega)

theorem mask_and_mask (m n : Nat) : (2 ^ m - 1) &&& (2 ^ n - 1) = 2 ^ min m n - 1 := by
  apply Nat.eq_of_testBit_eq
  intro i
  rw [Nat.testBit_and, Nat.testBit_two_pow_sub_one, Nat.testBit_two_pow_sub_one,
    Nat.testBit_two_pow_sub_one, ← Bool.decide_and]
  exact decide_eq_decide.mpr (by omega)

/-- The difference of two masks has the length of the greater one. -/
theorem size_mask_xor_mask {m n : Nat} (less : m < n) : ((2 ^ n - 1) ^^^ (2 ^ m - 1)).size = n := by
  apply Nat.le_antisymm
  · rw [Nat.size_le]
    have short : 2 ^ m - 1 < 2 ^ n :=
      Nat.lt_of_le_of_lt (Nat.sub_le _ _) (Nat.pow_lt_pow_right (by decide) less)
    exact Nat.xor_lt_two_pow (Nat.sub_lt (Nat.two_pow_pos n) Nat.one_pos) short
  · obtain ⟨k, rfl⟩ := Nat.exists_eq_add_of_lt less
    rw [Nat.succ_le_iff, Nat.lt_size]
    apply Nat.ge_two_pow_of_testBit
    rw [Nat.testBit_xor, Nat.testBit_two_pow_sub_one, Nat.testBit_two_pow_sub_one]
    simp

/-- A number with the top bit in place `h` has `h + 1` bits. -/
theorem size_eq_of_top {n h : Nat} (set : n.testBit h = true) (above : n < 2 ^ (h + 1)) :
    n.size = h + 1 :=
  Nat.le_antisymm (Nat.size_le.mpr above) (Nat.lt_size.mpr (Nat.ge_two_pow_of_testBit set))

/-- A number without bits below place `k` is zero or at least `2 ^ k`. -/
theorem two_pow_le_of_low {n k : Nat} (some : n ≠ 0) (low : ∀ j < k, n.testBit j = false) :
    2 ^ k ≤ n := by
  obtain ⟨i, set⟩ := Nat.exists_testBit_of_ne_zero some
  have beyond : k ≤ i := by
    by_contra below
    rw [low i (not_le.mp below)] at set
    exact absurd set (by decide)
  exact Nat.le_trans (Nat.pow_le_pow_right (by decide) beyond) (Nat.ge_two_pow_of_testBit set)

theorem and_mask_of_size_le {x n : Nat} (short : x.size ≤ n) : x &&& (2 ^ n - 1) = x := by
  rw [Nat.and_two_pow_sub_one_eq_mod, Nat.mod_eq_of_lt (Nat.size_le.mp short)]

theorem or_le_add (x y : Nat) : x ||| y ≤ x + y := by
  induction x using Nat.strong_induction_on generalizing y with
  | h x ih =>
    by_cases zero : x = 0
    · subst zero
      rw [Nat.zero_or, Nat.zero_add]
    · have half := ih (x / 2) (by omega) (y / 2)
      have split := Nat.div_add_mod (x ||| y) 2
      have low : (x ||| y) % 2 ≤ x % 2 + y % 2 := by
        rcases Nat.mod_two_eq_zero_or_one (x ||| y) with even | odd
        · omega
        · rcases Nat.or_mod_two_eq_one.mp odd with one | one <;> omega
      rw [Nat.or_div_two] at split
      omega

section Words

variable {w k : Nat} {x mask : BitVec w}

theorem toNat_and_mask (low : mask.toNat = 2 ^ k - 1) : (x &&& mask).toNat = x.toNat % 2 ^ k := by
  rw [BitVec.toNat_and, low, Nat.and_two_pow_sub_one_eq_mod]

theorem toNat_and_not_mask (low : mask.toNat = 2 ^ k - 1) :
    (x &&& ~~~mask).toNat = x.toNat - x.toNat % 2 ^ k := by
  have apart : (x &&& mask) &&& (x &&& ~~~mask) = 0#w := by
    apply BitVec.eq_of_getElem_eq
    intro i inside
    cases bit : mask[i] <;> simp [bit]
  have whole : (x &&& mask) ||| (x &&& ~~~mask) = x := by
    apply BitVec.eq_of_getElem_eq
    intro i inside
    cases bit : mask[i] <;> simp [bit]
  have sum : (x &&& mask) + (x &&& ~~~mask) = x :=
    (BitVec.add_eq_or_of_and_eq_zero _ _ apart).trans whole
  have rest : x &&& ~~~mask = x - (x &&& mask) := by
    refine BitVec.eq_sub_iff_add_eq.mpr ?_
    rw [BitVec.add_comm]
    exact sum
  rw [rest, BitVec.toNat_sub_of_le, toNat_and_mask low]
  rw [BitVec.le_def, toNat_and_mask low]
  exact Nat.mod_le _ _

def roundUp (unit n : Nat) : Nat := n + (unit - 1) - (n + (unit - 1)) % unit

theorem le_roundUp {unit : Nat} (positive : 0 < unit) (n : Nat) : n ≤ roundUp unit n := by
  have less := Nat.mod_lt (n + (unit - 1)) positive
  unfold roundUp
  omega

theorem dvd_roundUp (unit n : Nat) : unit ∣ roundUp unit n := Nat.dvd_sub_mod _

theorem toNat_add_and_not_mask (low : mask.toNat = 2 ^ k - 1)
    (small : x.toNat + (2 ^ k - 1) < 2 ^ w) :
    ((x + mask) &&& ~~~mask).toNat = roundUp (2 ^ k) x.toNat := by
  have sum : (x + mask).toNat = x.toNat + (2 ^ k - 1) := by
    rw [BitVec.toNat_add, low]
    exact Nat.mod_eq_of_lt small
  rw [toNat_and_not_mask low, sum]
  rfl

end Words

end SmatchFormal.Lib.BitLength
