import Mathlib.Algebra.Order.Group.Int
import Mathlib.Order.Monotone.Defs
import Mathlib.Order.Interval.Set.Defs
import Mathlib.Tactic.LinearCombination
import Mathlib.Tactic.Ring

/-!
# Truncated quotients

How a quotient rounded towards zero goes up and down with the dividend and the divisor, and
when it fits in the range of a machine integer.
-/

namespace SmatchFormal.Lib.Quotients

variable {x y c d : Int}

/-- A quotient by a positive number goes up with the dividend. -/
theorem tdiv_mono (positive : 0 < c) (order : x ≤ y) : x.tdiv c ≤ y.tdiv c := by
  have nonneg : ∀ {a b : Int}, 0 ≤ a → a ≤ b → a.tdiv c ≤ b.tdiv c := by
    intro a b start order
    rw [Int.tdiv_eq_ediv_of_nonneg start, Int.tdiv_eq_ediv_of_nonneg (Int.le_trans start order)]
    exact Int.ediv_le_ediv positive order
  rcases le_or_gt 0 x with start | negative
  · exact nonneg start order
  · rcases le_or_gt 0 y with last | below
    · have low : x.tdiv c ≤ 0 := by
        have opposite := Int.tdiv_nonneg (a := -x) (by omega) (Int.le_of_lt positive)
        rw [Int.neg_tdiv] at opposite
        omega
      exact Int.le_trans low (Int.tdiv_nonneg last (Int.le_of_lt positive))
    · have opposite := nonneg (a := -y) (b := -x) (by omega) (by omega)
      rw [Int.neg_tdiv, Int.neg_tdiv] at opposite
      omega

/-- A quotient by a negative number goes down with the dividend. -/
theorem tdiv_anti (negative : c < 0) (order : x ≤ y) : y.tdiv c ≤ x.tdiv c := by
  have opposite := tdiv_mono (c := -c) (by omega) order
  rw [Int.tdiv_neg, Int.tdiv_neg] at opposite
  omega

/-- A quotient of a number that is not negative goes down with the divisor on each side of
zero. -/
theorem tdiv_anti_right (nonneg : 0 ≤ x) (side : 0 < c ∨ d < 0) (order : c ≤ d) :
    x.tdiv d ≤ x.tdiv c := by
  have positive : ∀ {a b : Int}, 0 < a → a ≤ b → x.tdiv b ≤ x.tdiv a := by
    intro a b start order
    rw [Int.tdiv_eq_ediv_of_nonneg nonneg, Int.tdiv_eq_ediv_of_nonneg nonneg,
      Int.le_ediv_iff_mul_le start]
    have low := Int.ediv_nonneg nonneg (Int.le_trans (Int.le_of_lt start) order)
    calc x / b * a ≤ x / b * b := Int.mul_le_mul_of_nonneg_left order low
      _ ≤ x := Int.ediv_mul_le x (by omega)
  rcases side with start | last
  · exact positive start order
  · have opposite := positive (a := -d) (b := -c) (by omega) (by omega)
    rw [Int.tdiv_neg, Int.tdiv_neg] at opposite
    omega

/-- A quotient of a negative number goes up with the divisor on each side of zero. -/
theorem tdiv_mono_right (negative : x < 0) (side : 0 < c ∨ d < 0) (order : c ≤ d) :
    x.tdiv c ≤ x.tdiv d := by
  have opposite := tdiv_anti_right (x := -x) (by omega) side order
  rw [Int.neg_tdiv, Int.neg_tdiv] at opposite
  omega

/-- Only the least number over minus one leaves the range of a signed type. -/
theorem tdiv_fits {low high : Int} (signed : low = -(high + 1)) (above : low ≤ x)
    (below : x ≤ high) (other : ¬ (x = low ∧ d = -1)) :
    low ≤ x.tdiv d ∧ x.tdiv d ≤ high := by
  have size := Int.natAbs_tdiv_le_natAbs x d
  by_cases least : x = low
  · refine ⟨by omega, ?_⟩
    by_contra more
    have whole : (x.tdiv d).natAbs = x.natAbs := by omega
    have divisor : d.natAbs = 1 := by
      rw [Int.natAbs_tdiv] at whole
      have product := Nat.div_mul_le_self x.natAbs d.natAbs
      have positive : 0 < x.natAbs := by omega
      change x.natAbs / d.natAbs = x.natAbs at whole
      rw [whole] at product
      have atMost : d.natAbs ≤ 1 := Nat.le_of_mul_le_mul_left (by omega) positive
      have some : d.natAbs ≠ 0 := by
        intro zero
        rw [zero, Nat.div_zero] at whole
        omega
      omega
    rcases Int.natAbs_eq d with same | same
    · rw [same, divisor] at more
      change ¬ x.tdiv 1 ≤ high at more
      rw [Int.tdiv_one] at more
      exact more below
    · rw [divisor] at same
      exact other ⟨least, same⟩
  · omega

theorem tmod_between (x d : Int) : min x 0 ≤ x.tmod d ∧ x.tmod d ≤ max x 0 := by
  have size := Int.natAbs_tmod x d
  have less := Nat.mod_le x.natAbs d.natAbs
  rcases le_or_gt 0 x with nonneg | negative
  · have sign := Int.tmod_nonneg d nonneg
    omega
  · have sign := Int.tmod_nonneg d (a := -x) (by omega)
    rw [Int.neg_tmod] at sign
    omega

/-- A quotient rounded down by a positive number lies between the dividend and zero. -/
theorem ediv_between (x : Int) (positive : 0 < d) : min x 0 ≤ x / d ∧ x / d ≤ max x 0 := by
  rcases le_or_gt 0 x with nonneg | negative
  · have low := Int.ediv_nonneg nonneg (Int.le_of_lt positive)
    have high := Int.ediv_le_self d nonneg
    omega
  · have high := Int.ediv_neg_of_neg_of_pos negative positive
    have low : x ≤ x / d := by
      rw [Int.le_ediv_iff_mul_le positive]
      have product : x * d ≤ x * 1 := Int.mul_le_mul_of_nonpos_left (by omega) (by omega)
      omega
    omega

/-- A multiple of the modulus in the dividend leaves the quotient alone, up to the modulus,
exactly when the divisor divides the factor. -/
theorem ediv_add_mul_iff {a b m r : Int} (positive : 0 < r) (less : r < b) (nonneg : 0 ≤ a)
    (below : a < b) : (a + b * m) / r % b = a / r ↔ r ∣ m := by
  have low : 0 ≤ a / r := Int.ediv_nonneg nonneg (Int.le_of_lt positive)
  have high : a / r < b := Int.lt_of_le_of_lt (Int.ediv_le_self r nonneg) below
  constructor
  · intro same
    have parts := Int.mul_ediv_add_emod (a + b * m) r
    have plain := Int.mul_ediv_add_emod a r
    have blocks := Int.mul_ediv_add_emod ((a + b * m) / r) b
    rw [same] at blocks
    have start := Int.emod_nonneg (a + b * m) (Int.ne_of_gt positive)
    have last := Int.emod_lt_of_pos (a + b * m) positive
    have start' := Int.emod_nonneg a (Int.ne_of_gt positive)
    have last' := Int.emod_lt_of_pos a positive
    generalize (a + b * m) / r / b = k at blocks
    have difference : b * (m - r * k) = (a + b * m) % r - a % r := by
      rw [← blocks] at parts
      linear_combination plain - parts
    have zero : m - r * k = 0 := by
      by_contra other
      rcases Int.lt_or_gt_of_ne other with negative | more
      · have bound : b * (m - r * k) ≤ b * (-1) :=
          Int.mul_le_mul_of_nonneg_left (by omega) (by omega)
        omega
      · have bound : b * 1 ≤ b * (m - r * k) :=
          Int.mul_le_mul_of_nonneg_left (by omega) (by omega)
        omega
    exact ⟨k, by omega⟩
  · rintro ⟨k, rfl⟩
    rw [show a + b * (r * k) = a + r * (b * k) by ring,
      Int.add_mul_ediv_left a (b * k) (Int.ne_of_gt positive), Int.add_mul_emod_self_left]
    exact Int.emod_eq_of_lt low high

/-- And it leaves the remainder alone exactly when the divisor divides it. -/
theorem emod_add_iff (a m r : Int) : (a + m) % r = a % r ↔ r ∣ m := by
  rw [Int.emod_eq_emod_iff_emod_sub_eq_zero, Int.dvd_iff_emod_eq_zero, Int.add_comm,
    Int.add_sub_cancel]

/-! ## Powers of two -/

/-- A number that is not negative goes down with the power. -/
theorem ediv_pow_anti {a b : Nat} (nonneg : 0 ≤ x) (order : a ≤ b) : x / 2 ^ b ≤ x / 2 ^ a := by
  have power : (2 : Int) ^ b = 2 ^ a * 2 ^ (b - a) := by
    rw [← pow_add, Nat.add_sub_cancel' order]
  have positive : (0 : Int) < 2 ^ a := pow_pos (by decide) a
  rw [power, ← Int.ediv_ediv_of_nonneg (Int.le_of_lt positive)]
  exact Int.ediv_le_self _ (Int.ediv_nonneg nonneg (Int.le_of_lt positive))

/-- A negative number goes up with the power, and stays where it is only at minus one. -/
theorem ediv_pow_mono {a b : Nat} (negative : x < 0) (order : a ≤ b) :
    x / 2 ^ a ≤ x / 2 ^ b ∧ (x / 2 ^ b ≤ x / 2 ^ a ↔ a = b ∨ -2 ^ a ≤ x) := by
  rcases Nat.eq_or_lt_of_le order with rfl | less
  · exact ⟨Int.le_refl _, iff_of_true (Int.le_refl _) (Or.inl rfl)⟩
  · have power : (2 : Int) ^ b = 2 ^ a * 2 ^ (b - a) := by
      rw [← pow_add, Nat.add_sub_cancel' order]
    have positive : (0 : Int) < 2 ^ a := pow_pos (by decide) a
    have two : (2 : Int) ≤ 2 ^ (b - a) := by
      have bound : (2 : Int) ^ 1 ≤ 2 ^ (b - a) := pow_le_pow_right₀ (by decide) (by omega)
      omega
    have below := Int.ediv_neg_of_neg_of_pos negative positive
    have corner : -1 ≤ x / 2 ^ a ↔ -2 ^ a ≤ x := by
      rw [Int.le_ediv_iff_mul_le positive]
      omega
    rw [power, ← Int.ediv_ediv_of_nonneg (Int.le_of_lt positive), ← corner,
      or_iff_right (Nat.ne_of_lt less)]
    generalize x / 2 ^ a = q at *
    generalize (2 : Int) ^ (b - a) = k at *
    have up : q ≤ q / k := by
      rw [Int.le_ediv_iff_mul_le (by omega)]
      have product := Int.mul_le_mul_of_nonpos_left (a := q) (b := k) (c := 1) (by omega) (by omega)
      omega
    refine ⟨up, ?_⟩
    constructor
    · intro down
      by_contra less
      have exact : q / k < q + 1 := by omega
      rw [Int.ediv_lt_iff_lt_mul (by omega)] at exact
      have product : (q + 1) * k ≤ (q + 1) * 2 :=
        Int.mul_le_mul_of_nonpos_left (by omega) two
      omega
    · intro last
      obtain rfl : q = -1 := by omega
      have exact : -1 / k < 0 := Int.ediv_neg_of_neg_of_pos (by decide) (by omega)
      omega

end SmatchFormal.Lib.Quotients
