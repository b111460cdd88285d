import SmatchFormal.RangeMath.BitMask

/-!
# Exclusive or of range lists

`rl_handle_XOR` takes the highest bits of the least values for bits that are always set and
those of the greatest values for bits that may be set, and drops from the bound what both
lists always have set.  A value has only one of its bits for sure, the highest one, so the
bound is zero where all values of both lists have one bit length.
-/

namespace SmatchFormal.RangeMath

open SmatchFormal.Ranges SmatchFormal.Extra SmatchFormal.Lib

/-! ## The code -/

def rlBitsAlwaysSet (rl : RangeList) : BitVec 64 := svalFlsMask (rlMin rl)

def rlBitsMaybeSet (rl : RangeList) : BitVec 64 := svalFlsMask (rlMax rl)

def xorRange (left right : RangeList) : RangeList :=
  let leftSet := rlBitsAlwaysSet left
  let leftMaybe := rlBitsMaybeSet left
  let rightSet := rlBitsAlwaysSet right
  let rightMaybe := rlBitsMaybeSet right
  let zero := { rlMin left with raw := 0 }
  let bits := flsMask ((leftMaybe ||| rightMaybe) ^^^ (leftSet &&& rightSet))
  let max := { rlMin left with raw := bits }
  castRl (rlType left) (allocRl zero max)

def rlHandleXor (left right : RangeList) : RangeList :=
  if (knownZero left).isSome then right
  else if (knownZero right).isSome then left
  else xorRange left right

/-! ## The bound -/

def LengthsDiffer (left right : RangeList) : Prop :=
  ∃ x ∈ rlSet left ∪ rlSet right, ∃ y ∈ rlSet left ∪ rlSet right, x.toNat.size ≠ y.toNat.size

section Bound

variable {type : Ctype} {left right : RangeList}

def maxLength (left right : RangeList) : Nat :=
  max (rlMax left).val.toNat.size (rlMax right).val.toNat.size

def minLength (left right : RangeList) : Nat :=
  min (rlMin left).val.toNat.size (rlMin right).val.toNat.size

theorem length_bounds (first : Canonical type left) (second : Canonical type right) {x : Int}
    (member : x ∈ rlSet left ∪ rlSet right) :
    minLength left right ≤ x.toNat.size ∧ x.toNat.size ≤ maxLength left right := by
  unfold minLength maxLength
  rcases member with inLeft | inRight
  · exact ⟨Nat.le_trans (Nat.min_le_left _ _) (size_toNat_mono (rlMin_le first inLeft)),
      Nat.le_trans (size_toNat_mono (le_rlMax first inLeft)) (Nat.le_max_left _ _)⟩
  · exact ⟨Nat.le_trans (Nat.min_le_right _ _) (size_toNat_mono (rlMin_le second inRight)),
      Nat.le_trans (size_toNat_mono (le_rlMax second inRight)) (Nat.le_max_right _ _)⟩

section

variable (first : Canonical type left) (second : Canonical type right) (someLeft : left ≠ [])
  (someRight : right ≠ [])
include first second someLeft someRight

theorem lengthsDiffer_iff :
    LengthsDiffer left right ↔ minLength left right < maxLength left right := by
  constructor
  · rintro ⟨x, inX, y, inY, differ⟩
    obtain ⟨lowX, highX⟩ := length_bounds first second inX
    obtain ⟨lowY, highY⟩ := length_bounds first second inY
    omega
  · intro less
    have least : ∃ x ∈ rlSet left ∪ rlSet right, x.toNat.size = minLength left right := by
      rcases min_choice (rlMin left).val.toNat.size (rlMin right).val.toNat.size with same | same
      · exact ⟨_, .inl (rlMin_mem first someLeft), same.symm⟩
      · exact ⟨_, .inr (rlMin_mem second someRight), same.symm⟩
    have greatest : ∃ y ∈ rlSet left ∪ rlSet right, y.toNat.size = maxLength left right := by
      rcases max_choice (rlMax left).val.toNat.size (rlMax right).val.toNat.size with same | same
      · exact ⟨_, .inl (rlMax_mem first someLeft), same.symm⟩
      · exact ⟨_, .inr (rlMax_mem second someRight), same.symm⟩
    obtain ⟨x, inX, lengthX⟩ := least
    obtain ⟨y, inY, lengthY⟩ := greatest
    exact ⟨x, inX, y, inY, by omega⟩

/-- The mask of `xorRange` has the greatest length, or it is zero. -/
theorem xorMask_toNat (nonnegLeft : ∀ l ∈ rlSet left, 0 ≤ l)
    (nonnegRight : ∀ r ∈ rlSet right, 0 ≤ r) :
    (flsMask ((rlBitsMaybeSet left ||| rlBitsMaybeSet right) ^^^
      (rlBitsAlwaysSet left &&& rlBitsAlwaysSet right))).toNat =
      if minLength left right < maxLength left right then 2 ^ maxLength left right - 1 else 0 := by
  have lengths := length_bounds first second (.inl (rlMin_mem first someLeft))
  have order : minLength left right ≤ maxLength left right := Nat.le_trans lengths.1 lengths.2
  rw [flsMask_toNat, BitVec.toNat_xor, BitVec.toNat_or, BitVec.toNat_and]
  unfold rlBitsMaybeSet rlBitsAlwaysSet
  rw [svalFlsMask_toNat (nonnegLeft _ (rlMax_mem first someLeft)),
    svalFlsMask_toNat (nonnegRight _ (rlMax_mem second someRight)),
    svalFlsMask_toNat (nonnegLeft _ (rlMin_mem first someLeft)),
    svalFlsMask_toNat (nonnegRight _ (rlMin_mem second someRight)),
    BitLength.mask_or_mask, BitLength.mask_and_mask]
  change 2 ^ ((2 ^ maxLength left right - 1) ^^^ (2 ^ minLength left right - 1)).size - 1 = _
  by_cases less : minLength left right < maxLength left right
  · rw [if_pos less, BitLength.size_mask_xor_mask less]
  · have same : minLength left right = maxLength left right := by omega
    rw [if_neg less, same, Nat.xor_self, Nat.size_zero, Nat.pow_zero, Nat.sub_self]

theorem mem_xorRange_iff (nonnegLeft : ∀ l ∈ rlSet left, 0 ≤ l)
    (nonnegRight : ∀ r ∈ rlSet right, 0 ≤ r) (n : Nat) :
    (n : Int) ∈ rlSet (xorRange left right) ↔
      n = 0 ∨ LengthsDiffer left right ∧ n < 2 ^ maxLength left right := by
  have mask := xorMask_toNat first second someLeft someRight nonnegLeft nonnegRight
  have positive := Nat.two_pow_pos (maxLength left right)
  have greatest : ((2 ^ maxLength left right - 1 : Nat) : Int) ≤ type.hi := by
    have highLeft := nonnegLeft _ (rlMax_mem first someLeft)
    have highRight := nonnegRight _ (rlMax_mem second someRight)
    unfold maxLength
    rcases max_choice (rlMax left).val.toNat.size (rlMax right).val.toNat.size with same | same
    · rw [same]
      refine mask_le_hi ?_
      rw [Int.toNat_of_nonneg highLeft]
      exact (rlMax_ofType first someLeft).2.2
    · rw [same]
      refine mask_le_hi ?_
      rw [Int.toNat_of_nonneg highRight]
      exact (rlMax_ofType second someRight).2.2
  unfold xorRange
  dsimp only
  rw [(rlMin_ofType first someLeft).1, rlType_of_canonical first someLeft,
    lengthsDiffer_iff first second someLeft someRight]
  generalize flsMask _ = word at mask ⊢
  have small : (word.toNat : Int) ≤ type.hi := by
    rw [mask]
    split_ifs
    · exact greatest
    · exact Int.le_trans (Int.natCast_nonneg _) greatest
  obtain ⟨typed, value⟩ := word_ofType word small
  obtain ⟨canonical, members⟩ := allocRl_spec (zero_ofType type) typed
  have zero : (⟨type, 0⟩ : Sval) = type.ofInt 0 := rfl
  rw [zero, castRl_self canonical, members, zero_val, value, endsSet_of_le (Int.natCast_nonneg _),
    Set.mem_Icc, mask]
  split_ifs with less
  · simp only [less, true_and]
    omega
  · simp only [less, false_and, or_false]
    omega

end

theorem zero_of_lengths {x : Int} (nonneg : 0 ≤ x)
    (same : ¬ x.toNat.size ≠ (0 : Int).toNat.size) : x = 0 := by
  have lengths := not_not.mp same
  rw [Int.toNat_zero, Nat.size_zero] at lengths
  have zero := Nat.size_eq_zero.mp lengths
  omega

end Bound

/-- `rl_handle_XOR` has every `l ^ r` exactly when the values of the lists do not all have
one bit length, or all of them are the same. -/
theorem rlHandleXor_contains_iff {type : Ctype} {left right : RangeList}
    (first : Canonical type left) (second : Canonical type right)
    (nonnegLeft : ∀ l ∈ rlSet left, 0 ≤ l) (nonnegRight : ∀ r ∈ rlSet right, 0 ≤ r) :
    (rlHandleXor left right = [] ∨ ∀ l ∈ rlSet left, ∀ r ∈ rlSet right,
      ((l.toNat ^^^ r.toNat : Nat) : Int) ∈ rlSet (rlHandleXor left right)) ↔
      LengthsDiffer left right ∨ ∀ l ∈ rlSet left, ∀ r ∈ rlSet right, l = r := by
  by_cases someLeft : left = []
  · subst someLeft
    exact ⟨fun _ => .inr fun l member => absurd member (mem_rlSet_nil l),
      fun _ => .inr fun l member => absurd member (mem_rlSet_nil l)⟩
  by_cases someRight : right = []
  · subst someRight
    exact ⟨fun _ => .inr fun _ _ r member => absurd member (mem_rlSet_nil r),
      fun _ => .inr fun _ _ r member => absurd member (mem_rlSet_nil r)⟩
  unfold rlHandleXor
  cases zeroLeft : knownZero left with
  | some sval =>
    obtain ⟨-, -, members⟩ := knownZero_eq_some first zeroLeft
    rw [Option.isSome_some, if_pos rfl]
    constructor
    · intro _
      by_cases differ : LengthsDiffer left right
      · exact .inl differ
      · right
        intro l inLeft r inRight
        have zeroLeft := (members l).mp inLeft
        have zeroRight := zero_of_lengths (nonnegRight r inRight)
          (fun other => differ ⟨r, .inr inRight, l, .inl inLeft, by rwa [zeroLeft]⟩)
        rw [zeroLeft, zeroRight]
    · intro _
      right
      intro l inLeft r inRight
      rw [(members l).mp inLeft, Int.toNat_zero, Nat.zero_xor,
        Int.toNat_of_nonneg (nonnegRight r inRight)]
      exact inRight
  | none =>
    rw [Option.isSome_none, if_neg Bool.false_ne_true]
    cases zeroRight : knownZero right with
    | some sval =>
      obtain ⟨-, -, members⟩ := knownZero_eq_some second zeroRight
      rw [Option.isSome_some, if_pos rfl]
      constructor
      · intro _
        by_cases differ : LengthsDiffer left right
        · exact .inl differ
        · right
          intro l inLeft r inRight
          have zeroRight := (members r).mp inRight
          have zeroLeft := zero_of_lengths (nonnegLeft l inLeft)
            (fun other => differ ⟨l, .inl inLeft, r, .inr inRight, by rwa [zeroRight]⟩)
          rw [zeroLeft, zeroRight]
      · intro _
        right
        intro l inLeft r inRight
        rw [(members r).mp inRight, Int.toNat_zero, Nat.xor_zero,
          Int.toNat_of_nonneg (nonnegLeft l inLeft)]
        exact inLeft
    | none =>
      rw [Option.isSome_none, if_neg Bool.false_ne_true]
      have members :=
        mem_xorRange_iff first second someLeft someRight nonnegLeft nonnegRight
      constructor
      · rintro (null | contains)
        · have zero := (members 0).mpr (.inl rfl)
          rw [null] at zero
          exact absurd zero (mem_rlSet_nil _)
        · by_cases differ : LengthsDiffer left right
          · exact .inl differ
          · right
            intro l inLeft r inRight
            have equal : l.toNat ^^^ r.toNat = 0 := by
              rcases (members _).mp (contains l inLeft r inRight) with zero | ⟨other, -⟩
              · exact zero
              · exact absurd other differ
            have lowLeft := nonnegLeft l inLeft
            have lowRight := nonnegRight r inRight
            have same := Nat.xor_eq_zero_iff.mp equal
            omega
      · intro condition
        right
        intro l inLeft r inRight
        rw [members]
        rcases condition with differ | same
        · have lengthLeft := (length_bounds first second (.inl inLeft)).2
          have lengthRight := (length_bounds first second (.inr inRight)).2
          exact .inr ⟨differ,
            Nat.xor_lt_two_pow (Nat.size_le.mp lengthLeft) (Nat.size_le.mp lengthRight)⟩
        · rw [same l inLeft r inRight]
          exact .inl (Nat.xor_self _)

/-- The theorem for two lists whose values have different lengths. -/
theorem rlHandleXor_contains_iff_small :
    (rlHandleXor [⟨intCtype.ofInt 1, intCtype.ofInt 5⟩]
        [⟨intCtype.ofInt 2, intCtype.ofInt 3⟩] = [] ∨
      ∀ l ∈ rlSet [⟨intCtype.ofInt 1, intCtype.ofInt 5⟩],
        ∀ r ∈ rlSet [⟨intCtype.ofInt 2, intCtype.ofInt 3⟩],
          ((l.toNat ^^^ r.toNat : Nat) : Int) ∈
            rlSet (rlHandleXor [⟨intCtype.ofInt 1, intCtype.ofInt 5⟩]
              [⟨intCtype.ofInt 2, intCtype.ofInt 3⟩])) ↔
      LengthsDiffer [⟨intCtype.ofInt 1, intCtype.ofInt 5⟩] [⟨intCtype.ofInt 2, intCtype.ofInt 3⟩] ∨
        ∀ l ∈ rlSet [⟨intCtype.ofInt 1, intCtype.ofInt 5⟩],
          ∀ r ∈ rlSet [⟨intCtype.ofInt 2, intCtype.ofInt 3⟩], l = r :=
  @rlHandleXor_contains_iff intCtype _ _ (by decide) (by decide)
    (by
      rw [rlSet_singleton]
      intro l inside
      exact Int.le_trans (by decide) inside.1)
    (by
      rw [rlSet_singleton]
      intro r inside
      exact Int.le_trans (by decide) inside.1)

/-- `4-5` and `6-7` give the list `0`, although `4 ^ 6` is two. -/
theorem rlHandleXor_misses :
    Canonical intCtype [⟨intCtype.ofInt 4, intCtype.ofInt 5⟩] ∧
      Canonical intCtype [⟨intCtype.ofInt 6, intCtype.ofInt 7⟩] ∧
      4 ∈ rlSet [⟨intCtype.ofInt 4, intCtype.ofInt 5⟩] ∧
      6 ∈ rlSet [⟨intCtype.ofInt 6, intCtype.ofInt 7⟩] ∧
      rlHandleXor [⟨intCtype.ofInt 4, intCtype.ofInt 5⟩]
        [⟨intCtype.ofInt 6, intCtype.ofInt 7⟩] ≠ [] ∧
      (((4 : Int).toNat ^^^ (6 : Int).toNat : Nat) : Int) ∉
        rlSet (rlHandleXor [⟨intCtype.ofInt 4, intCtype.ofInt 5⟩]
          [⟨intCtype.ofInt 6, intCtype.ofInt 7⟩]) := by
  decide

end SmatchFormal.RangeMath
