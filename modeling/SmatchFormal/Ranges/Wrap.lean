import SmatchFormal.Ranges.Sval
import Mathlib.Algebra.EuclideanDomain.Int

/-!
# Converting an interval

The copies `[lo + k * 2^bits, hi + k * 2^bits]` of the range of a kind tile the
integers, and the C conversion maps each of them back to the range.  An interval
inside one copy (`Block`) is therefore converted to an interval.
-/

namespace SmatchFormal.Ranges

namespace IntKind

theorem bits_le (kind : IntKind) : kind.bits ≤ 64 := by
  cases kind <;> decide

/-- A kind has no negative values, or its values are those of 64 signed bits. -/
theorem lo_eq_or_hi_lt (kind : IntKind) : kind.lo = 0 ∨ kind.hi < 2 ^ 63 := by
  cases sign : kind.unsigned with
  | true => exact .inl (lo_of_unsigned sign)
  | false => exact .inr (hi_of_signed sign)

/-- The values of a kind that is no wider, up to sign. -/
theorem bits_bounds {source type : IntKind} (wide : source.bits ≤ type.bits) :
    -2 ^ (type.bits - 1) ≤ source.lo ∧ source.hi < 2 ^ type.bits ∧
      (source.unsigned = false → source.hi < 2 ^ (type.bits - 1)) := by
  revert wide
  cases source <;> cases type <;> decide

theorem hi_eq (kind : IntKind) : kind.hi = kind.lo + 2 ^ kind.bits - 1 := by
  cases kind <;> decide

theorem lo_of_signed {kind : IntKind} (signed : kind.unsigned = false) :
    kind.lo = -2 ^ (kind.bits - 1) := by
  simp [lo, signed]

theorem hi_of_signed_eq {kind : IntKind} (signed : kind.unsigned = false) :
    kind.hi = 2 ^ (kind.bits - 1) - 1 := by
  simp [hi, signed]

theorem half_bits (kind : IntKind) : (2 : Int) ^ kind.bits = 2 * 2 ^ (kind.bits - 1) := by
  cases kind <;> decide

/-- Both ends lie in one copy of the kind's range; the copies tile the integers. -/
def Block (kind : IntKind) (low high : Int) : Prop :=
  (low - kind.lo) / 2 ^ kind.bits = (high - kind.lo) / 2 ^ kind.bits

variable {kind : IntKind} {low high : Int}

theorem Block.of_mem (first : kind.lo ≤ low) (order : low ≤ high) (last : high ≤ kind.hi) :
    kind.Block low high := by
  unfold Block
  rw [kind.hi_eq] at last
  rw [Int.ediv_eq_zero_of_lt (by omega) (by omega), Int.ediv_eq_zero_of_lt (by omega) (by omega)]

theorem Block.of_nicely (same : low / 2 ^ kind.bits = high / 2 ^ kind.bits) (order : low ≤ high)
    (ends : kind.wrap low ≤ kind.wrap high) : kind.Block low high := by
  cases kind <;> simp [Block, wrap, lo, bits, unsigned] at * <;> omega

theorem Block.of_negative (sign : kind.unsigned = true) (first : -2 ^ kind.bits ≤ low)
    (order : low ≤ high) (last : high < 0) : kind.Block low high := by
  cases kind <;> simp [Block, lo, bits, unsigned] at * <;> omega

/-- The copy above the range of a signed kind. -/
theorem Block.of_high (first : kind.hi < low) (order : low ≤ high)
    (last : high < 2 ^ kind.bits) : kind.Block low high := by
  cases kind <;> simp [Block, hi, lo, bits, unsigned] at * <;> omega

/-- A number of a block is converted by the shift of its lower end. -/
theorem wrap_of_block (other : kind ≠ bool) (block : kind.Block low high) {x : Int}
    (above : low ≤ x) (below : x ≤ high) : kind.wrap x = kind.wrap low + (x - low) := by
  cases kind <;> simp [Block, wrap, lo, bits, unsigned] at * <;> omega

/-- The conversion maps the numbers of a block onto an interval. -/
theorem image_of_block (block : kind.Block low high) (order : low ≤ high) :
    kind.wrap '' Set.Icc low high = Set.Icc (kind.wrap low) (kind.wrap high) := by
  ext y
  by_cases truth : kind = bool
  · subst truth
    have size : low = high ∨ high = low + 1 ∧ high ≠ 0 := by
      simp only [Block, lo, bits, unsigned, if_true] at block
      omega
    rcases size with rfl | ⟨rfl, odd⟩
    · simp
    · have top : bool.wrap (low + 1) = 1 := by simp [wrap, odd]
      have bounds := bool.wrap_bounds low
      simp only [lo, hi, unsigned, bits, if_true] at bounds
      rw [top]
      constructor
      · rintro ⟨x, ⟨above, below⟩, rfl⟩
        obtain rfl | rfl : x = low ∨ x = low + 1 := by omega
        · exact ⟨Int.le_refl _, by omega⟩
        · rw [top]
          exact ⟨by omega, Int.le_refl _⟩
      · rintro ⟨above, below⟩
        by_cases last : y = 1
        · exact ⟨low + 1, ⟨order, Int.le_refl _⟩, by rw [top, last]⟩
        · exact ⟨low, ⟨Int.le_refl _, order⟩, by omega⟩
  · have top := wrap_of_block truth block order (Int.le_refl high)
    constructor
    · rintro ⟨x, ⟨above, below⟩, rfl⟩
      rw [wrap_of_block truth block above below, Set.mem_Icc]
      omega
    · rintro ⟨above, below⟩
      refine ⟨low + (y - kind.wrap low), ⟨by omega, by omega⟩, ?_⟩
      rw [wrap_of_block truth block (by omega) (by omega)]
      omega

theorem wrap_neg_one (sign : kind.unsigned = true) : kind.wrap (-1) = kind.hi := by
  revert sign
  cases kind <;> decide

theorem wrap_hi_succ (sign : kind.unsigned = false) : kind.wrap (kind.hi + 1) = kind.lo := by
  revert sign
  cases kind <;> decide

theorem wrap_high (sign : kind.unsigned = false) {x : Int} (above : kind.hi < x)
    (last : x < 2 ^ kind.bits) : kind.wrap x = x - 2 ^ kind.bits := by
  cases kind <;> simp [wrap, hi, unsigned, bits] at * <;> omega

theorem wrap_negative (sign : kind.unsigned = false) {x : Int} (above : kind.hi < x)
    (last : x < 2 ^ kind.bits) : kind.wrap x < 0 := by
  rw [wrap_high sign above last]
  omega

def SameHalf (kind : IntKind) (low high : Int) : Prop :=
  low / 2 ^ (kind.bits - 1) = high / 2 ^ (kind.bits - 1)

instance (kind : IntKind) (low high : Int) : Decidable (kind.SameHalf low high) :=
  inferInstanceAs (Decidable (_ = _))

/-- Different multiples of `2 ^ bits` on one side of zero. -/
theorem far_of_quotients (other : low / 2 ^ kind.bits ≠ high / 2 ^ kind.bits)
    (order : low ≤ high) (nonzero : high < 0 ∨ 0 < low) :
    low < -2 ^ kind.bits ∨ 2 ^ kind.bits ≤ high := by
  cases kind <;> simp only [bits] at * <;> omega

theorem SameHalf.nicely (half : kind.SameHalf low high) :
    low / 2 ^ kind.bits = high / 2 ^ kind.bits := by
  cases kind <;> simp [SameHalf, bits] at * <;> omega

theorem SameHalf.block (half : kind.SameHalf low high) : kind.Block low high := by
  cases kind <;> simp [SameHalf, Block, lo, unsigned, bits] at * <;> omega

/-- Ends in two halves of one multiple of `2 ^ bits` change their order. -/
theorem wrap_reversed (sign : kind.unsigned = false)
    (same : low / 2 ^ kind.bits = high / 2 ^ kind.bits) (order : low ≤ high)
    (halves : ¬ kind.SameHalf low high) : kind.wrap high < kind.wrap low := by
  cases kind <;> simp [SameHalf, wrap, unsigned, bits] at * <;> omega

theorem SameHalf.of_mem (sign : kind.unsigned = false) (first : kind.lo ≤ low) (order : low ≤ high)
    (last : high ≤ kind.hi) (nonzero : high < 0 ∨ 0 < low) : kind.SameHalf low high := by
  cases kind <;> simp [SameHalf, lo, hi, unsigned, bits] at * <;> omega

/-- Shifting by a multiple of the half keeps two numbers in one half. -/
theorem SameHalf.shift (half : kind.SameHalf low high) {width : Nat}
    (wide : kind.bits - 1 ≤ width) :
    kind.SameHalf (low + 2 ^ width) (high + 2 ^ width) := by
  have positive : (2 : Int) ^ (kind.bits - 1) ≠ 0 := Int.ne_of_gt (Int.pow_pos (by decide))
  have multiple : (2 : Int) ^ width = 2 ^ (width - (kind.bits - 1)) * 2 ^ (kind.bits - 1) := by
    rw [← Int.pow_add, Nat.sub_add_cancel wide]
  unfold SameHalf at *
  rw [multiple, Int.add_mul_ediv_right _ _ positive, Int.add_mul_ediv_right _ _ positive, half]

theorem narrow_bounds {source type : IntKind} (narrow : source.bits < type.bits) :
    source.hi ≤ type.hi ∧ 2 * (2 : Int) ^ source.bits ≤ 2 ^ type.bits ∧
      (type.unsigned = false → type.lo ≤ source.lo) ∧ type ≠ bool := by
  revert narrow
  cases source <;> cases type <;> decide

/-- A wider kind keeps the values of a narrower one, or moves the negative ones up. -/
theorem wrap_narrow {source type : IntKind} (narrow : source.bits < type.bits) {x : Int}
    (first : source.lo ≤ x) (last : x ≤ source.hi) :
    type.wrap x = x ∨ x < 0 ∧ type.wrap x = x + 2 ^ type.bits := by
  obtain ⟨top, double, bottom, truth⟩ := narrow_bounds narrow
  cases sign : type.unsigned with
  | false => exact .inl (wrap_of_mem (Int.le_trans (bottom sign) first) (Int.le_trans last top))
  | true =>
    have zero := lo_of_unsigned sign
    by_cases negative : x < 0
    · refine .inr ⟨negative, ?_⟩
      have size := source.hi_eq
      have positive := source.bounds
      have block := @wrap_of_block type x (-1) truth
        (.of_negative sign (by omega) (by omega) (by omega)) (-1) (by omega) (Int.le_refl _)
      have whole := type.hi_eq
      rw [wrap_neg_one sign] at block
      omega
    · exact .inl (wrap_of_mem (by omega) (Int.le_trans last top))

theorem wrap_wrap {source type : IntKind} (wide : source.bits ≤ type.bits) (truth : type ≠ bool)
    {x : Int} (first : source.lo ≤ x) (last : x ≤ source.hi) :
    source.wrap (type.wrap x) = x := by
  cases source <;> cases type <;> simp [bits, lo, hi, unsigned, wrap] at * <;> omega

end IntKind

theorem Ctype.hi_eq (type : Ctype) : type.hi = type.lo + 2 ^ typeBits type - 1 :=
  type.kind.hi_eq

end SmatchFormal.Ranges
