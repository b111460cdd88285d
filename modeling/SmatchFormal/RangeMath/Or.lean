import SmatchFormal.Ir.Cast
import SmatchFormal.RangeMath.Add
import SmatchFormal.RangeMath.And

/-!
# Or of range lists

With a known value `rl_handle_OR` adds, unless the sum of the greatest values leaves the type.
Else it takes the range from the lowest possible bit to the mask of all possible bits, and
zero.  The lowest bit is made by a shift of an `int`.
-/

namespace SmatchFormal.RangeMath

open SmatchFormal.Ranges SmatchFormal.Extra SmatchFormal.Lib

/-! ## The code -/

def lowBit (left right : RangeList) : Nat :=
  if ffsll (rlToBinfo right).possible > ffsll (rlToBinfo left).possible then
    ffsll (rlToBinfo right).possible
  else ffsll (rlToBinfo left).possible

/-- The part of `rl_handle_OR` for unknown bits.  The shift `1 << (low_bit - 1)` is one of an
`int`. -/
def orRange (undefinedShift : Nat → BitVec 32) (left right : RangeList) : RangeList :=
  if lowBit left right = 0 then []
  else
    let min := rlBits left (Ir.intShift undefinedShift (lowBit left right - 1))
    let max := rlBits left (flsMask ((rlToBinfo left).possible ||| (rlToBinfo right).possible))
    addRange (allocRl min max) (rlVal left 0) (rlVal left 0)

def rlHandleOr (undefinedShift : Nat → BitVec 32) (left right : RangeList) : RangeList :=
  if ((rlToSval left).isSome || (rlToSval right).isSome) &&
      !svalBinopOverflows (rlMax left) .add (rlMax right) then
    rlBinopOf rlHandleAdd .add left right
  else orRange undefinedShift left right

/-! ## The condition -/

/-- `rl_has_sval` of a number of the type.  The code reads a list through `sval_cmp`, which
converts the ends to the type; an end of an `OR` may have bits above it. -/
def Contains (type : Ctype) (rl : RangeList) (x : Int) : Prop :=
  rlHasSval rl (type.ofInt x) = true

instance (type : Ctype) (rl : RangeList) (x : Int) : Decidable (Contains type rl x) :=
  inferInstanceAs (Decidable (_ = _))

/-- A value of the list without the bits of `a` is in the list again; of a list of more than
six ranges it is only not below the least value. -/
def KeepsOtherBits (rl : RangeList) (a : Int) : Prop :=
  ∀ x ∈ rlSet rl,
    if rl.length ≤ 6 then (((x.toNat ||| a.toNat) - a.toNat : Nat) : Int) ∈ rlSet rl
    else a = 0 ∨ (rlMin rl).val ≤ ((x.toNat ||| a.toNat) - a.toNat : Nat)

/-- The lowest bit of the known value, as the shift of an `int` makes it, is no bound too
high. -/
def ShiftFits (undefinedShift : Nat → BitVec 32) (left right : RangeList) : Prop :=
  ∀ l ∈ rlSet left, ∀ r ∈ rlSet right,
    (Ir.intShift undefinedShift (lowBit left right - 1)).toNat ≤ l.toNat ||| r.toNat

def OrSound (undefinedShift : Nat → BitVec 32) (type : Ctype) (left right : RangeList) : Prop :=
  (∀ a, (∀ x, x ∈ rlSet right ↔ x = a) → (rlMax left).val + a ≤ type.hi →
      KeepsOtherBits left a) ∧
    (∀ a, (∀ x, x ∈ rlSet left ↔ x = a) → a + (rlMax right).val ≤ type.hi →
      KeepsOtherBits right a) ∧
    ∀ a, ((∀ x, x ∈ rlSet left ↔ x = a) ∨ ∀ x, x ∈ rlSet right ↔ x = a) →
      type.hi < (rlMax left).val + (rlMax right).val → type.kind = .u64 →
      ShiftFits undefinedShift left right

section Contains

variable {type source : Ctype} {rl : RangeList} {one two : Sval}

theorem svalCmp_sameKind (rank : IntRank type) (first : one.OfType source)
    (second : two.OfType type) (same : source.kind = type.kind) :
    svalCmp one two = intCmp one.val two.val := by
  have own : type.kind.compared type.kind = type.kind := by
    unfold IntKind.compared
    unfold IntRank typeBits at rank
    rw [if_neg (Nat.lt_irrefl _)]
    exact if_neg (by omega)
  have kind : (svalCmpType one two).kind = type.kind := by
    rw [svalCmpType_kind, first.1, second.1, same, own]
  have keep : ∀ x : Int, type.lo ≤ x → x ≤ type.hi → (svalCmpType one two).wrap x = x := by
    intro x low high
    unfold Ctype.wrap
    rw [kind]
    exact IntKind.wrap_of_mem low high
  have low : source.lo = type.lo := by
    unfold Ctype.lo
    rw [same]
  have high : source.hi = type.hi := by
    unfold Ctype.hi
    rw [same]
  rw [svalCmp_eq, keep _ (low ▸ first.2.1) (high ▸ first.2.2), keep _ second.2.1 second.2.2]

/-- A list of ranges of the kind contains what it denotes. -/
theorem contains_iff (rank : IntRank type) (canonical : OfKind type.kind rl) {x : Int}
    (low : type.lo ≤ x) (high : x ≤ type.hi) : Contains type rl x ↔ x ∈ rlSet rl := by
  obtain ⟨source, same, typed⟩ := canonical
  have number := Ctype.ofInt_val low high
  have value := Ctype.ofInt_ofType low high
  unfold Contains rlHasSval
  rw [List.any_eq_true, mem_rlSet_iff]
  refine exists_congr fun drange => and_congr_right fun member => ?_
  obtain ⟨first, second⟩ := typed.typed drange member
  rw [Bool.and_eq_true, decide_eq_true_iff, decide_eq_true_iff,
    svalCmp_sameKind rank first value same, svalCmp_sameKind rank second value same, number,
    intCmp_le_zero, intCmp_ge_zero]

end Contains

section IntShift

variable {undefinedShift : Nat → BitVec 32} {count : Nat}

theorem intShift_toNat (small : count < 31) :
    (Ir.intShift undefinedShift count).toNat = 2 ^ count := by
  have fits := Nat.pow_lt_pow_right (by decide : 1 < 2) small
  have word : (1#32 <<< count).toNat = 2 ^ count := by
    rw [BitVec.toNat_shiftLeft, BitVec.toNat_ofNat, Nat.shiftLeft_eq, Nat.one_mod, Nat.one_mul,
      Nat.mod_eq_of_lt (by omega)]
  have clear : (1#32 <<< count).msb = false := by
    rw [BitVec.msb_eq_false_iff_two_mul_lt, word]
    omega
  unfold Ir.intShift
  rw [if_pos (by omega), BitVec.signExtend_eq_setWidth_of_msb_false clear, BitVec.toNat_setWidth,
    word, Nat.mod_eq_of_lt (by omega)]

/-- As a signed number the shift is at most the bit it stands for. -/
theorem intShift_toInt_le : (Ir.intShift undefinedShift count).toInt ≤ 2 ^ count := by
  by_cases small : count < 31
  · have word := @intShift_toNat undefinedShift count small
    have fits := Nat.pow_lt_pow_right (by decide : 1 < 2) small
    rw [BitVec.toInt_eq_toNat_of_lt (by omega), word]
    push_cast
    exact Int.le_refl _
  · have bound : (Ir.intShift undefinedShift count).toInt < 2 ^ 31 := by
      unfold Ir.intShift
      rw [BitVec.toInt_signExtend_of_le (by decide)]
      generalize (if count < 32 then 1#32 <<< count else undefinedShift count) = word
      have less := @BitVec.toInt_lt 32 word
      omega
    have power : (2 : Int) ^ 31 ≤ 2 ^ count := pow_le_pow_right₀ (by decide) (by omega)
    omega

end IntShift

section OrRange

variable {type : Ctype} {left right rl : RangeList} {undefinedShift : Nat → BitVec 32}

/-- The lowest possible bit of a list bounds every number from a value of the list on. -/
theorem two_pow_le_of_ffsll (canonical : Canonical type rl) (null : rl ≠ [])
    (nonneg : ∀ x ∈ rlSet rl, 0 ≤ x) (some : ffsll (rlToBinfo rl).possible ≠ 0) {x : Int}
    (member : x ∈ rlSet rl) {n : Nat} (nonzero : n ≠ 0) (above : x.toNat ≤ n) :
    2 ^ (ffsll (rlToBinfo rl).possible - 1) ≤ n := by
  have bits : (rlToBinfo rl).possible.toNat ≠ 0 := by
    intro zero
    have same : (rlToBinfo rl).possible = 0 := BitVec.eq_of_toNat_eq zero
    rw [same] at some
    exact some (by decide)
  obtain ⟨i, set⟩ := Nat.exists_testBit_of_ne_zero bits
  obtain ⟨k, -, -, value, own, clear⟩ := @ffsll_of_bit (rlToBinfo rl).possible i set
  rw [value, Nat.add_sub_cancel]
  cases found : rlToSval rl with
  | some sval =>
    obtain ⟨-, members⟩ := rlToSval_eq_some canonical found
    have known : (rlToBinfo rl).possible.toNat = x.toNat := by
      unfold rlToBinfo
      rw [found, (members x).mp member]
      exact raw_toNat_eq (nonneg _ ((members _).mpr rfl))
    have least : 2 ^ k ≤ (rlToBinfo rl).possible.toNat := Nat.ge_two_pow_of_testBit own
    omega
  | none =>
    obtain ⟨mask, length⟩ := possible_of_none canonical null nonneg found
    have odd : (rlToBinfo rl).possible.getLsbD 0 = true := by
      rw [BitVec.getLsbD, mask, Nat.testBit_two_pow_sub_one, decide_eq_true length]
    have first : k = 0 := by
      by_contra other
      rw [clear 0 (Nat.pos_of_ne_zero other)] at odd
      cases odd
    rw [first]
    omega

/-- The lowest bit bounds every union that is not zero. -/
theorem two_pow_lowBit_le (first : Canonical type left) (second : Canonical type right)
    (nonnegLeft : ∀ l ∈ rlSet left, 0 ≤ l) (nonnegRight : ∀ r ∈ rlSet right, 0 ≤ r)
    (some : lowBit left right ≠ 0) {l r : Int} (inLeft : l ∈ rlSet left)
    (inRight : r ∈ rlSet right) (nonzero : l.toNat ||| r.toNat ≠ 0) :
    2 ^ (lowBit left right - 1) ≤ l.toNat ||| r.toNat := by
  unfold lowBit at *
  split_ifs at some ⊢ with higher
  · exact two_pow_le_of_ffsll second (nonempty_of_mem inRight) nonnegRight some inRight nonzero
      Nat.right_le_or
  · exact two_pow_le_of_ffsll first (nonempty_of_mem inLeft) nonnegLeft some inLeft nonzero
      Nat.left_le_or

def orMask (left right : RangeList) : Nat :=
  2 ^ ((rlToBinfo left).possible.toNat ||| (rlToBinfo right).possible.toNat).size - 1

section

variable (first : Canonical type left) (second : Canonical type right) (someLeft : left ≠ [])
  (someRight : right ≠ []) (nonnegLeft : ∀ l ∈ rlSet left, 0 ≤ l)
  (nonnegRight : ∀ r ∈ rlSet right, 0 ≤ r)
include first second someLeft someRight nonnegLeft nonnegRight

theorem orMask_spec :
    (orMask left right : Int) ≤ type.hi ∧
      ∀ l ∈ rlSet left, ∀ r ∈ rlSet right, l.toNat ||| r.toNat ≤ orMask left right := by
  obtain ⟨subsetLeft, smallLeft⟩ := possible_spec first someLeft nonnegLeft
  obtain ⟨subsetRight, smallRight⟩ := possible_spec second someRight nonnegRight
  constructor
  · apply mask_le_hi
    rw [hi_eq_mask] at smallLeft smallRight ⊢
    have powerLeft : (rlToBinfo left).possible.toNat < 2 ^ typePositiveBits type := by
      zify
      omega
    have powerRight : (rlToBinfo right).possible.toNat < 2 ^ typePositiveBits type := by
      zify
      omega
    have together := Nat.or_lt_two_pow powerLeft powerRight
    zify at together
    omega
  · intro l inLeft r inRight
    have bits : (l.toNat ||| r.toNat) &&&
        ((rlToBinfo left).possible.toNat ||| (rlToBinfo right).possible.toNat) =
        l.toNat ||| r.toNat := by
      rw [← subsetLeft l inLeft, ← subsetRight r inRight]
      apply Nat.eq_of_testBit_eq
      intro i
      simp only [Nat.testBit_and, Nat.testBit_or]
      cases l.toNat.testBit i <;> cases r.toNat.testBit i <;>
        cases (rlToBinfo left).possible.toNat.testBit i <;>
        cases (rlToBinfo right).possible.toNat.testBit i <;> rfl
    have below : l.toNat ||| r.toNat ≤
        (rlToBinfo left).possible.toNat ||| (rlToBinfo right).possible.toNat := by
      rw [← bits]
      exact Nat.and_le_right
    have masked := Nat.lt_size_self
      ((rlToBinfo left).possible.toNat ||| (rlToBinfo right).possible.toNat)
    unfold orMask
    omega

theorem orRange_eq (some : lowBit left right ≠ 0) :
    ∃ max : Sval, max.OfType type ∧ max.val = orMask left right ∧
      max.raw.toNat = orMask left right ∧
      orRange undefinedShift left right =
        addRange (allocRl ⟨type, Ir.intShift undefinedShift (lowBit left right - 1)⟩ max)
          (type.ofInt 0) (type.ofInt 0) := by
  have small := (orMask_spec first second someLeft someRight nonnegLeft nonnegRight).1
  have number : (flsMask ((rlToBinfo left).possible ||| (rlToBinfo right).possible)).toNat =
      orMask left right := by
    rw [flsMask_toNat, BitVec.toNat_or]
    rfl
  obtain ⟨typed, value⟩ := @word_ofType type
    (flsMask ((rlToBinfo left).possible ||| (rlToBinfo right).possible))
    (by rw [number]; exact small)
  refine ⟨_, typed, by rw [value, number], number, ?_⟩
  unfold orRange
  rw [if_neg some]
  dsimp only
  rw [rlVal_eq first someLeft, rlBits, rlBits, rlType_of_canonical first someLeft,
    Option.getD_some]

end

/-- The range when its lower end is a value of the type. -/
theorem contains_orRange_iff (first : Canonical type left) (second : Canonical type right)
    (rank : IntRank type) (nonnegLeft : ∀ l ∈ rlSet left, 0 ≤ l)
    (nonnegRight : ∀ r ∈ rlSet right, 0 ≤ r) (some : lowBit left right ≠ 0)
    (typed : (⟨type, Ir.intShift undefinedShift (lowBit left right - 1)⟩ : Sval).OfType type)
    {l r : Int} (inLeft : l ∈ rlSet left) (inRight : r ∈ rlSet right) :
    let min := (⟨type, Ir.intShift undefinedShift (lowBit left right - 1)⟩ : Sval).val
    Contains type (orRange undefinedShift left right) ((l.toNat ||| r.toNat : Nat) : Int) ↔
      (orMask left right : Int) < min ∨ min ≤ (l.toNat ||| r.toNat : Nat) ∨
        l.toNat ||| r.toNat = 0 := by
  have someLeft := nonempty_of_mem inLeft
  have someRight := nonempty_of_mem inRight
  obtain ⟨small, above⟩ := orMask_spec first second someLeft someRight nonnegLeft nonnegRight
  obtain ⟨max, maxTyped, maxVal, -, same⟩ := @orRange_eq type left right undefinedShift first second
    someLeft someRight nonnegLeft nonnegRight some
  have most := above l inLeft r inRight
  have inType : ((l.toNat ||| r.toNat : Nat) : Int) ≤ type.hi := by omega
  have members := mem_maskRange_iff typed maxTyped true inType
  have canonical := (addRange_joined (zero_ofType type) (zero_ofType type) (le_refl _)
    (allocRl_spec typed maxTyped).1).canonical
  have bottom := type.kind.bounds.2.1
  rw [same, contains_iff rank ⟨type, rfl, canonical⟩ (Int.le_trans bottom (Int.natCast_nonneg _))
    inType]
  rw [if_pos rfl, maxVal] at members
  rw [members]
  simp only [true_and]
  omega

/-- A list with a value that is not zero has a lowest possible bit. -/
theorem ffsll_of_mem (canonical : Canonical type rl) (nonneg : ∀ x ∈ rlSet rl, 0 ≤ x) {x : Int}
    (member : x ∈ rlSet rl) (nonzero : x ≠ 0) :
    ∃ k, ffsll (rlToBinfo rl).possible = k + 1 ∧ 2 ^ k ≤ (rlToBinfo rl).possible.toNat := by
  have subset := (possible_spec canonical (nonempty_of_mem member) nonneg).1 x member
  have positive := nonneg x member
  have bits : (rlToBinfo rl).possible.toNat ≠ 0 := by
    intro zero
    rw [zero, Nat.and_zero] at subset
    omega
  obtain ⟨i, set⟩ := Nat.exists_testBit_of_ne_zero bits
  obtain ⟨k, -, -, value, own, -⟩ := @ffsll_of_bit (rlToBinfo rl).possible i set
  exact ⟨k, value, Nat.ge_two_pow_of_testBit own⟩

theorem ffsll_cases (word : BitVec 64) :
    ffsll word = 0 ∨ ∃ k, ffsll word = k + 1 ∧ 2 ^ k ≤ word.toNat := by
  by_cases zero : word.toNat = 0
  · left
    have same : word = 0 := BitVec.eq_of_toNat_eq zero
    rw [same]
    decide
  · right
    obtain ⟨i, set⟩ := Nat.exists_testBit_of_ne_zero zero
    obtain ⟨k, -, -, value, own, -⟩ := @ffsll_of_bit word i set
    exact ⟨k, value, Nat.ge_two_pow_of_testBit own⟩

theorem two_pow_lowBit_le_or (some : lowBit left right ≠ 0) :
    2 ^ (lowBit left right - 1) ≤
      (rlToBinfo left).possible.toNat ||| (rlToBinfo right).possible.toNat := by
  unfold lowBit at *
  split_ifs at some ⊢ with higher
  · rcases ffsll_cases (rlToBinfo right).possible with zero | ⟨k, value, least⟩
    · exact absurd zero some
    · rw [value, Nat.add_sub_cancel]
      exact Nat.le_trans least Nat.right_le_or
  · rcases ffsll_cases (rlToBinfo left).possible with zero | ⟨k, value, least⟩
    · exact absurd zero some
    · rw [value, Nat.add_sub_cancel]
      exact Nat.le_trans least Nat.left_le_or

theorem lowBit_ne_zero (first : Canonical type left) (second : Canonical type right)
    (nonnegLeft : ∀ l ∈ rlSet left, 0 ≤ l) (nonnegRight : ∀ r ∈ rlSet right, 0 ≤ r) {x : Int}
    (member : x ∈ rlSet left ∪ rlSet right) (nonzero : x ≠ 0) : lowBit left right ≠ 0 := by
  unfold lowBit
  rcases member with inLeft | inRight
  · obtain ⟨k, value, -⟩ := ffsll_of_mem first nonnegLeft inLeft nonzero
    split_ifs with higher
    · omega
    · omega
  · obtain ⟨k, value, -⟩ := ffsll_of_mem second nonnegRight inRight nonzero
    split_ifs with higher
    · omega
    · omega

/-- The mask has the lowest bit, and both are bits of the type. -/
theorem lowBit_le_orMask (some : lowBit left right ≠ 0) :
    2 ^ (lowBit left right - 1) ≤ orMask left right := by
  have below := two_pow_lowBit_le_or some
  have above := Nat.lt_size_self
    ((rlToBinfo left).possible.toNat ||| (rlToBinfo right).possible.toNat)
  unfold orMask
  omega

theorem lowBit_le_positiveBits (first : Canonical type left) (second : Canonical type right)
    (someLeft : left ≠ []) (someRight : right ≠ []) (nonnegLeft : ∀ l ∈ rlSet left, 0 ≤ l)
    (nonnegRight : ∀ r ∈ rlSet right, 0 ≤ r) (some : lowBit left right ≠ 0) :
    lowBit left right - 1 < typePositiveBits type := by
  have small := (orMask_spec first second someLeft someRight nonnegLeft nonnegRight).1
  have least := lowBit_le_orMask some
  rw [hi_eq_mask] at small
  have power : 2 ^ (lowBit left right - 1) < 2 ^ typePositiveBits type := by
    zify at least ⊢
    omega
  exact (Nat.pow_lt_pow_iff_right (by decide)).mp power

/-- The list with the sign bit of an `int` as the lower end of an `unsigned int` range. -/
theorem contains_signBit (address : Nat) {n : Nat} (small : n < 2 ^ 32)
    (bits : n = 0 ∨ 2 ^ 31 ≤ n) :
    Contains ⟨address, .u32⟩
      (addRange (allocRl ⟨⟨address, .u32⟩, 0xffffffff80000000⟩ ⟨⟨address, .u32⟩, 0xffffffff⟩)
        ((⟨address, .u32⟩ : Ctype).ofInt 0) ((⟨address, .u32⟩ : Ctype).ofInt 0)) n := by
  have compare : ∀ one two : Sval, one.type = ⟨address, .u32⟩ → two.type = ⟨address, .u32⟩ →
      svalCmp one two = intCmp (one.val % 2 ^ 32) (two.val % 2 ^ 32) := by
    intro one two ownOne ownTwo
    have type : svalCmpType one two = ⟨address, .u32⟩ := by
      obtain ⟨typeOne, rawOne⟩ := one
      obtain ⟨typeTwo, rawTwo⟩ := two
      subst ownOne
      subst ownTwo
      rfl
    rw [svalCmp_eq, type]
    rfl
  have number : ((⟨address, .u32⟩ : Ctype).ofInt n).val = n :=
    Ctype.ofInt_val (Int.natCast_nonneg n) (by
      have top : (⟨address, .u32⟩ : Ctype).hi = 2 ^ 32 - 1 := rfl
      omega)
  have first : (⟨⟨address, .u32⟩, 0xffffffff80000000⟩ : Sval).val = 0xffffffff80000000 := rfl
  have last : (⟨⟨address, .u32⟩, 0xffffffff⟩ : Sval).val = 0xffffffff := rfl
  have ordered : allocRl ⟨⟨address, .u32⟩, 0xffffffff80000000⟩ ⟨⟨address, .u32⟩, 0xffffffff⟩ =
      [⟨⟨⟨address, .u32⟩, 0xffffffff80000000⟩, ⟨⟨address, .u32⟩, 0xffffffff⟩⟩] := by
    unfold allocRl addRangeTyped
    rw [compare _ _ rfl rfl, first, last, if_neg (by decide), if_neg (by decide)]
    rfl
  have list : addRange
      [⟨⟨⟨address, .u32⟩, 0xffffffff80000000⟩, ⟨⟨address, .u32⟩, 0xffffffff⟩⟩]
      ((⟨address, .u32⟩ : Ctype).ofInt 0) ((⟨address, .u32⟩ : Ctype).ofInt 0) =
      [⟨(⟨address, .u32⟩ : Ctype).ofInt 0, (⟨address, .u32⟩ : Ctype).ofInt 0⟩,
        ⟨⟨⟨address, .u32⟩, 0xffffffff80000000⟩, ⟨⟨address, .u32⟩, 0xffffffff⟩⟩] := by
    have apart : endsBefore ((⟨address, .u32⟩ : Ctype).ofInt 0)
        ⟨⟨address, .u32⟩, 0xffffffff80000000⟩ = false := by
      have raw : ((addOne ((⟨address, .u32⟩ : Ctype).ofInt 0)).raw ==
          (0xffffffff80000000 : BitVec 64)) = false := by
        change (BitVec.ofInt 64 0 + 1 == (0xffffffff80000000 : BitVec 64)) = false
        decide
      unfold endsBefore
      rw [raw, Bool.and_false]
    have typed : addRange
        [⟨⟨⟨address, .u32⟩, 0xffffffff80000000⟩, ⟨⟨address, .u32⟩, 0xffffffff⟩⟩]
        ((⟨address, .u32⟩ : Ctype).ofInt 0) ((⟨address, .u32⟩ : Ctype).ofInt 0) =
        addRangeTyped [⟨⟨⟨address, .u32⟩, 0xffffffff80000000⟩, ⟨⟨address, .u32⟩, 0xffffffff⟩⟩]
        ((⟨address, .u32⟩ : Ctype).ofInt 0) ((⟨address, .u32⟩ : Ctype).ofInt 0) := if_pos rfl
    rw [typed, addRangeTyped, compare _ _ rfl rfl, if_neg (by simp), addRangeLoop, apart,
      if_neg Bool.false_ne_true, compare _ _ rfl rfl, first, zero_val, if_pos (by decide)]
  rw [ordered, list]
  unfold Contains rlHasSval
  rw [List.any_cons, List.any_cons, List.any_nil, compare _ _ rfl rfl, compare _ _ rfl rfl,
    compare _ _ rfl rfl, zero_val, first, last, number]
  simp only [Bool.or_eq_true, Bool.and_eq_true, decide_eq_true_eq, intCmp_le_zero, intCmp_ge_zero]
  omega

section

variable (first : Canonical type left) (second : Canonical type right)
include first second

section

variable {l r : Int} (rank : IntRank type) (nonnegLeft : ∀ l ∈ rlSet left, 0 ≤ l)
  (nonnegRight : ∀ r ∈ rlSet right, 0 ≤ r) (some : lowBit left right ≠ 0)
include rank nonnegLeft nonnegRight some

theorem contains_orRange (notLong : type.kind ≠ .u64) (inLeft : l ∈ rlSet left)
    (inRight : r ∈ rlSet right) :
    Contains type (orRange undefinedShift left right) ((l.toNat ||| r.toNat : Nat) : Int) := by
  have someLeft := nonempty_of_mem inLeft
  have someRight := nonempty_of_mem inRight
  have place := lowBit_le_positiveBits first second someLeft someRight nonnegLeft nonnegRight some
  have least := two_pow_lowBit_le first second nonnegLeft nonnegRight some inLeft inRight
  have bounded := fun typed => (@contains_orRange_iff type left right undefinedShift first second
    rank nonnegLeft nonnegRight some typed l r inLeft inRight).mpr
  obtain ⟨small, above⟩ := orMask_spec first second someLeft someRight nonnegLeft nonnegRight
  have bit := lowBit_le_orMask some
  by_cases low : lowBit left right - 1 < 31
  · -- The shift is exact.
    have word := @intShift_toNat undefinedShift _ low
    obtain ⟨typed, value⟩ := @word_ofType type
      (Ir.intShift undefinedShift (lowBit left right - 1)) (by rw [word]; omega)
    rw [word] at value
    refine bounded typed ?_
    rw [value]
    by_cases zero : l.toNat ||| r.toNat = 0
    · exact .inr (.inr zero)
    · have bound := least zero
      exact .inr (.inl (by exact_mod_cast bound))
  · obtain ⟨address, kind⟩ := type
    have kinds : kind = .u32 ∨ kind = .s64 := by
      revert rank place notLong
      cases kind <;> simp [IntRank, typeBits, typePositiveBits, IntKind.positiveBits, IntKind.bits,
        IntKind.unsigned]
      omega
    rcases kinds with rfl | rfl
    · -- The sign bit of the `int` is the highest bit of the type.
      have top : (⟨address, .u32⟩ : Ctype).hi = 2 ^ 32 - 1 := rfl
      have last : lowBit left right - 1 = 31 := by
        change lowBit left right - 1 < 32 at place
        omega
      have length : orMask left right = 2 ^ 32 - 1 := by
        have short : 31 < ((rlToBinfo left).possible.toNat |||
            (rlToBinfo right).possible.toNat).size := by
          rw [Nat.lt_size, ← last]
          exact two_pow_lowBit_le_or some
        have power := Nat.pow_le_pow_right (by decide : 0 < 2) short
        rw [top] at small
        unfold orMask at small ⊢
        omega
      obtain ⟨max, maxTyped, -, maxRaw, same⟩ := @orRange_eq ⟨address, .u32⟩ left right
        undefinedShift first second someLeft someRight nonnegLeft nonnegRight some
      have maxEq : max = ⟨⟨address, .u32⟩, 0xffffffff⟩ := by
        have raw : max.raw = 0xffffffff := BitVec.eq_of_toNat_eq (by rw [maxRaw, length]; rfl)
        have own := maxTyped.1
        obtain ⟨type, word⟩ := max
        subst own
        subst raw
        rfl
      have shift : Ir.intShift undefinedShift 31 = 0xffffffff80000000 := by
        unfold Ir.intShift
        rw [if_pos (by decide)]
        decide
      rw [same, last, shift, maxEq]
      have most := above l inLeft r inRight
      refine contains_signBit address (by omega) ?_
      by_cases zero : l.toNat ||| r.toNat = 0
      · exact .inl zero
      · have bound := least zero
        rw [last] at bound
        exact .inr bound
    · -- A signed end is too low at most.
      have value : (⟨⟨address, .s64⟩, Ir.intShift undefinedShift (lowBit left right - 1)⟩ :
          Sval).val = (Ir.intShift undefinedShift (lowBit left right - 1)).toInt := rfl
      have upper := @intShift_toInt_le undefinedShift (lowBit left right - 1)
      have typed : (⟨⟨address, .s64⟩, Ir.intShift undefinedShift (lowBit left right - 1)⟩ :
          Sval).OfType ⟨address, .s64⟩ := by
        have floor := @BitVec.le_toInt 64 (Ir.intShift undefinedShift (lowBit left right - 1))
        have ceiling := @BitVec.toInt_lt 64 (Ir.intShift undefinedShift (lowBit left right - 1))
        refine ⟨rfl, ?_, ?_⟩
        · rw [value]
          exact floor
        · rw [value]
          exact Int.le_sub_one_of_lt ceiling
      refine bounded typed ?_
      rw [value]
      by_cases zero : l.toNat ||| r.toNat = 0
      · exact .inr (.inr zero)
      · have bound := least zero
        zify at bound
        exact .inr (.inl (by omega))

/-- With 64 unsigned bits the shift has to be a lower bound. -/
theorem contains_orRange_long (long : type.kind = .u64) (inLeft : l ∈ rlSet left)
    (inRight : r ∈ rlSet right) :
    Contains type (orRange undefinedShift left right) ((l.toNat ||| r.toNat : Nat) : Int) ↔
      orMask left right < (Ir.intShift undefinedShift (lowBit left right - 1)).toNat ∨
        (Ir.intShift undefinedShift (lowBit left right - 1)).toNat ≤ l.toNat ||| r.toNat ∨
        l.toNat ||| r.toNat = 0 := by
  have top : type.hi = 2 ^ 64 - 1 := by
    unfold Ctype.hi
    rw [long]
    rfl
  have word := (Ir.intShift undefinedShift (lowBit left right - 1)).isLt
  obtain ⟨typed, value⟩ := @word_ofType type
    (Ir.intShift undefinedShift (lowBit left right - 1)) (by rw [top]; omega)
  have members := @contains_orRange_iff type left right undefinedShift first second rank nonnegLeft
    nonnegRight some typed l r inLeft inRight
  dsimp only at members
  rwa [value, Int.ofNat_lt, Int.ofNat_le] at members

end

/-- Two values of 64 bits whose sum overflows have the highest bit. -/
theorem orMask_of_overflow (someLeft : left ≠ []) (someRight : right ≠ [])
    (nonnegLeft : ∀ l ∈ rlSet left, 0 ≤ l) (nonnegRight : ∀ r ∈ rlSet right, 0 ≤ r)
    (long : type.kind = .u64) (overflow : type.hi < (rlMax left).val + (rlMax right).val) :
    orMask left right = 2 ^ 64 - 1 := by
  have top : type.hi = 2 ^ 64 - 1 := by
    unfold Ctype.hi
    rw [long]
    rfl
  have maxLeft := rlMax_mem first someLeft
  have maxRight := rlMax_mem second someRight
  obtain ⟨small, above⟩ := orMask_spec first second someLeft someRight nonnegLeft nonnegRight
  have most := above _ maxLeft _ maxRight
  have lowLeft := nonnegLeft _ maxLeft
  have lowRight := nonnegRight _ maxRight
  have leftBelow : (rlMax left).val.toNat ≤
      (rlMax left).val.toNat ||| (rlMax right).val.toNat := Nat.left_le_or
  have rightBelow : (rlMax right).val.toNat ≤
      (rlMax left).val.toNat ||| (rlMax right).val.toNat := Nat.right_le_or
  have half : 2 ^ 63 ≤ orMask left right := by omega
  rw [top] at small
  unfold orMask at half small ⊢
  have long' : 63 < ((rlToBinfo left).possible.toNat |||
      (rlToBinfo right).possible.toNat).size := by
    by_contra short
    have power := Nat.pow_le_pow_right (by decide : 0 < 2) (not_lt.mp short)
    omega
  have power := Nat.pow_le_pow_right (by decide : 0 < 2) long'
  omega

/-- A known value whose sum overflows is not zero. -/
theorem union_ne_zero (nonnegLeft : ∀ l ∈ rlSet left, 0 ≤ l)
    (nonnegRight : ∀ r ∈ rlSet right, 0 ≤ r) {a : Int}
    (single : (∀ x, x ∈ rlSet left ↔ x = a) ∨ ∀ x, x ∈ rlSet right ↔ x = a)
    (overflow : type.hi < (rlMax left).val + (rlMax right).val) {l r : Int}
    (inLeft : l ∈ rlSet left) (inRight : r ∈ rlSet right) : l.toNat ||| r.toNat ≠ 0 := by
  have highLeft := (rlMax_ofType first (nonempty_of_mem inLeft)).2.2
  have highRight := (rlMax_ofType second (nonempty_of_mem inRight)).2.2
  have leftBelow : l.toNat ≤ l.toNat ||| r.toNat := Nat.left_le_or
  have rightBelow : r.toNat ≤ l.toNat ||| r.toNat := Nat.right_le_or
  have lowLeft := nonnegLeft l inLeft
  have lowRight := nonnegRight r inRight
  rcases single with one | one
  · have value := (one l).mp inLeft
    have greatest := (one _).mp (rlMax_mem first (nonempty_of_mem inLeft))
    omega
  · have value := (one r).mp inRight
    have greatest := (one _).mp (rlMax_mem second (nonempty_of_mem inRight))
    omega

end

theorem orRange_ne_nil (some : lowBit left right ≠ 0) : orRange undefinedShift left right ≠ [] := by
  unfold orRange
  rw [if_neg some]
  exact addRange_ne_nil _ _ _

end OrRange

section Known

variable {type : Ctype} {left right rl : RangeList} {undefinedShift : Nat → BitVec 32} {a : Int}

/-- The unions with a known value are sums exactly when the other bits stay in the list. -/
theorem keepsOtherBits_iff (canonical : Canonical type rl) (nonneg : ∀ x ∈ rlSet rl, 0 ≤ x)
    (positive : 0 ≤ a) :
    KeepsOtherBits rl a ↔
      ∀ x ∈ rlSet rl, SumOfKnown rl a ((x.toNat ||| a.toNat : Nat) : Int) := by
  unfold KeepsOtherBits SumOfKnown
  refine forall₂_congr fun x member => ?_
  have low := nonneg x member
  have high := le_rlMax canonical member
  have above : a.toNat ≤ x.toNat ||| a.toNat := Nat.right_le_or
  have below := BitLength.or_le_add x.toNat a.toNat
  have number : (((x.toNat ||| a.toNat) - a.toNat : Nat) : Int) =
      ((x.toNat ||| a.toNat : Nat) : Int) - a := by omega
  rw [number]
  split_ifs with few zero
  · exact Iff.rfl
  · have same : ((x.toNat ||| a.toNat : Nat) : Int) = x := by
      rw [zero, Int.toNat_zero, Nat.or_zero, Int.toNat_of_nonneg low]
    rw [same]
    exact iff_of_true (.inl zero) member
  · rw [or_iff_right zero]
    omega

/-- `rl_handle_OR` of a list and a known value, as a sum. -/
theorem sums_keep_iff (canonical : Canonical type rl) (rank : IntRank type) (someRl : rl ≠ [])
    (nonneg : ∀ x ∈ rlSet rl, 0 ≤ x) (positive : 0 ≤ a) (fits : (rlMax rl).val + a ≤ type.hi)
    {result : RangeList} (kept : OfKind type.kind result)
    (members : ∀ x, x ∈ rlSet result ↔ SumOfKnown rl a x) :
    (result = [] ∨ ∀ x ∈ rlSet rl, Contains type result ((x.toNat ||| a.toNat : Nat) : Int)) ↔
      KeepsOtherBits rl a := by
  have bottom := type.kind.bounds.2.1
  have some : result ≠ [] := by
    refine nonempty_of_mem (x := (rlMin rl).val + a) ((members _).mpr ?_)
    have minIn := rlMin_mem canonical someRl
    have order := rlMin_le canonical (rlMax_mem canonical someRl)
    unfold SumOfKnown
    split_ifs with few zero
    · rwa [Int.add_sub_cancel]
    · rwa [zero, Int.add_zero]
    · omega
  rw [or_iff_right some, keepsOtherBits_iff canonical nonneg positive]
  refine forall₂_congr fun x member => ?_
  have high := le_rlMax canonical member
  have low := nonneg x member
  have below := BitLength.or_le_add x.toNat a.toNat
  rw [contains_iff rank kept (Int.le_trans bottom (Int.natCast_nonneg _)) (by omega), members]

section

variable (first : Canonical type left) (second : Canonical type right)
include first second

theorem rlHandleOr_add_right (rank : IntRank type) (someLeft : left ≠ [])
    (nonnegLeft : ∀ l ∈ rlSet left, 0 ≤ l) (nonnegRight : ∀ r ∈ rlSet right, 0 ≤ r)
    (single : ∀ x, x ∈ rlSet right ↔ x = a) (fits : (rlMax left).val + a ≤ type.hi) :
    (rlBinopOf rlHandleAdd .add left right = [] ∨ ∀ l ∈ rlSet left, ∀ r ∈ rlSet right,
      Contains type (rlBinopOf rlHandleAdd .add left right) ((l.toNat ||| r.toNat : Nat) : Int)) ↔
      KeepsOtherBits left a := by
  have positive := nonnegRight a ((single a).mpr rfl)
  have lowest := nonnegLeft _ (rlMin_mem first someLeft)
  have floor : type.lo ≤ (rlMin left).val + a := Int.le_trans type.kind.bounds.2.1 (by omega)
  obtain ⟨kept, members⟩ :=
    rlBinop_add_right first second rank someLeft single floor fits
  rw [← sums_keep_iff first rank someLeft nonnegLeft positive fits kept members]
  simp only [single, forall_eq]

theorem rlHandleOr_add_left (rank : IntRank type) (someRight : right ≠ [])
    (nonnegLeft : ∀ l ∈ rlSet left, 0 ≤ l) (nonnegRight : ∀ r ∈ rlSet right, 0 ≤ r)
    (single : ∀ x, x ∈ rlSet left ↔ x = a) (fits : a + (rlMax right).val ≤ type.hi) :
    (rlBinopOf rlHandleAdd .add left right = [] ∨ ∀ l ∈ rlSet left, ∀ r ∈ rlSet right,
      Contains type (rlBinopOf rlHandleAdd .add left right) ((l.toNat ||| r.toNat : Nat) : Int)) ↔
      KeepsOtherBits right a := by
  have positive := nonnegLeft a ((single a).mpr rfl)
  have lowest := nonnegRight _ (rlMin_mem second someRight)
  have floor : type.lo ≤ a + (rlMin right).val := Int.le_trans type.kind.bounds.2.1 (by omega)
  obtain ⟨kept, members⟩ :=
    rlBinop_add_left first second rank someRight single floor fits
  rw [Int.add_comm] at fits
  rw [← sums_keep_iff second rank someRight nonnegRight positive fits kept members]
  simp only [single, forall_eq, Nat.or_comm a.toNat]

theorem addsKnown_iff (rank : IntRank type) (someLeft : left ≠ []) (someRight : right ≠ [])
    (nonnegLeft : ∀ l ∈ rlSet left, 0 ≤ l) (nonnegRight : ∀ r ∈ rlSet right, 0 ≤ r) :
    (((rlToSval left).isSome || (rlToSval right).isSome) &&
        !svalBinopOverflows (rlMax left) .add (rlMax right)) = true ↔
      ((∃ a, ∀ x, x ∈ rlSet left ↔ x = a) ∨ ∃ a, ∀ x, x ∈ rlSet right ↔ x = a) ∧
        (rlMax left).val + (rlMax right).val ≤ type.hi := by
  have single : ∀ rl, Canonical type rl → ((rlToSval rl).isSome = true ↔
      ∃ a, ∀ x, x ∈ rlSet rl ↔ x = a) := by
    intro rl canonical
    have none := rlToSval_of_not_single canonical
    cases found : rlToSval rl with
    | none => exact iff_of_false Bool.false_ne_true (none.mp found)
    | some sval => exact iff_of_true rfl ⟨_, (rlToSval_eq_some canonical found).2⟩
  have overflow := @svalBinopOverflows_iff type (rlMax left) (rlMax right) .add _ rfl rank
    (rlMax_ofType first someLeft) (rlMax_ofType second someRight)
  have low := nonnegLeft _ (rlMax_mem first someLeft)
  have low' := nonnegRight _ (rlMax_mem second someRight)
  have bottom : type.lo ≤ 0 := type.kind.bounds.2.1
  rw [Bool.and_eq_true, Bool.or_eq_true, single left first, single right second,
    Bool.not_eq_true', ← Bool.not_eq_true, overflow, not_not]
  refine and_congr_right fun _ => ?_
  constructor
  · exact fun bounds => bounds.2
  · exact fun high => ⟨by omega, high⟩

theorem lowBit_of_many (someLeft : left ≠ []) (someRight : right ≠ [])
    (nonnegLeft : ∀ l ∈ rlSet left, 0 ≤ l) (nonnegRight : ∀ r ∈ rlSet right, 0 ≤ r)
    (manyLeft : rlToSval left = none) (manyRight : rlToSval right = none) :
    lowBit left right = 1 := by
  have one : ∀ rl, Canonical type rl → rl ≠ [] → (∀ x ∈ rlSet rl, 0 ≤ x) → rlToSval rl = none →
      ffsll (rlToBinfo rl).possible = 1 := by
    intro rl canonical null nonneg many
    obtain ⟨mask, length⟩ := possible_of_none canonical null nonneg many
    have odd : (rlToBinfo rl).possible.getLsbD 0 = true := by
      rw [BitVec.getLsbD, mask, Nat.testBit_two_pow_sub_one, decide_eq_true length]
    obtain ⟨k, first, -, value, -⟩ := ffsll_of_bit odd
    omega
  unfold lowBit
  rw [one left first someLeft nonnegLeft manyLeft, one right second someRight nonnegRight manyRight]
  rfl

end

end Known

/-- `rl_handle_OR` has every `l | r` exactly under `OrSound`. -/
theorem rlHandleOr_contains_iff (undefinedShift : Nat → BitVec 32) {type : Ctype}
    {left right : RangeList} (first : Canonical type left) (second : Canonical type right)
    (rank : IntRank type) (nonnegLeft : ∀ l ∈ rlSet left, 0 ≤ l)
    (nonnegRight : ∀ r ∈ rlSet right, 0 ≤ r) :
    (rlHandleOr undefinedShift left right = [] ∨ ∀ l ∈ rlSet left, ∀ r ∈ rlSet right,
      Contains type (rlHandleOr undefinedShift left right) ((l.toNat ||| r.toNat : Nat) : Int)) ↔
      OrSound undefinedShift type left right := by
  by_cases someLeft : left = []
  · subst someLeft
    refine iff_of_true (.inr fun l member => absurd member (mem_rlSet_nil l))
      ⟨fun a _ _ x member => absurd member (mem_rlSet_nil x),
        fun a single => absurd ((single a).mpr rfl) (mem_rlSet_nil a),
        fun a _ _ _ l member => absurd member (mem_rlSet_nil l)⟩
  by_cases someRight : right = []
  · subst someRight
    refine iff_of_true (.inr fun l _ r member => absurd member (mem_rlSet_nil r))
      ⟨fun a single => absurd ((single a).mpr rfl) (mem_rlSet_nil a),
        fun a _ _ x member => absurd member (mem_rlSet_nil x),
        fun a _ _ _ l _ r member => absurd member (mem_rlSet_nil r)⟩
  have adds := addsKnown_iff first second rank someLeft someRight nonnegLeft nonnegRight
  have greatestLeft : ∀ a, (∀ x, x ∈ rlSet left ↔ x = a) → (rlMax left).val = a :=
    fun a single => (single _).mp (rlMax_mem first someLeft)
  have greatestRight : ∀ a, (∀ x, x ∈ rlSet right ↔ x = a) → (rlMax right).val = a :=
    fun a single => (single _).mp (rlMax_mem second someRight)
  unfold rlHandleOr
  by_cases known : ((∃ a, ∀ x, x ∈ rlSet left ↔ x = a) ∨ ∃ a, ∀ x, x ∈ rlSet right ↔ x = a) ∧
      (rlMax left).val + (rlMax right).val ≤ type.hi
  · rw [if_pos (adds.mpr known)]
    obtain ⟨single, fits⟩ := known
    have right_iff := fun a (single : ∀ x, x ∈ rlSet right ↔ x = a) =>
      rlHandleOr_add_right first second rank someLeft nonnegLeft nonnegRight single
        (by rw [← greatestRight a single]; exact fits)
    have left_iff := fun a (single : ∀ x, x ∈ rlSet left ↔ x = a) =>
      rlHandleOr_add_left first second rank someRight nonnegLeft nonnegRight single
        (by rw [← greatestLeft a single]; exact fits)
    constructor
    · intro sound
      exact ⟨fun a single _ => (right_iff a single).mp sound,
        fun a single _ => (left_iff a single).mp sound,
        fun a _ overflow => absurd fits (not_le.mpr overflow)⟩
    · rintro ⟨rightSound, leftSound, -⟩
      rcases single with ⟨a, single⟩ | ⟨a, single⟩
      · exact (left_iff a single).mpr
          (leftSound a single (by rw [← greatestLeft a single]; exact fits))
      · exact (right_iff a single).mpr
          (rightSound a single (by rw [← greatestRight a single]; exact fits))
  · rw [if_neg (fun found => known (adds.mp found))]
    have maxLeft := rlMax_mem first someLeft
    have maxRight := rlMax_mem second someRight
    have notFits : ∀ a, ((∀ x, x ∈ rlSet left ↔ x = a) ∨ ∀ x, x ∈ rlSet right ↔ x = a) →
        type.hi < (rlMax left).val + (rlMax right).val := by
      intro a single
      by_contra fits
      exact known ⟨single.imp (fun one => ⟨a, one⟩) (fun one => ⟨a, one⟩), not_lt.mp fits⟩
    have positive : ∃ x ∈ rlSet left ∪ rlSet right, x ≠ 0 := by
      have top := type.kind.bounds.2.2.1
      by_cases single : ∃ a, (∀ x, x ∈ rlSet left ↔ x = a) ∨ ∀ x, x ∈ rlSet right ↔ x = a
      · obtain ⟨a, one⟩ := single
        have overflow := notFits a one
        by_cases zero : (rlMax left).val = 0
        · exact ⟨_, .inr maxRight, by unfold Ctype.hi at overflow; omega⟩
        · exact ⟨_, .inl maxLeft, zero⟩
      · have many : rlToSval left = none :=
          (rlToSval_of_not_single first).mpr fun one => single (one.imp fun _ => .inl)
        have less := (rlToSval_eq_none first someLeft).mp many
        have low := nonnegLeft _ (rlMin_mem first someLeft)
        exact ⟨_, .inl maxLeft, by omega⟩
    obtain ⟨x, inside, nonzero⟩ := positive
    have some := lowBit_ne_zero first second nonnegLeft nonnegRight inside nonzero
    rw [or_iff_right (orRange_ne_nil some)]
    constructor
    · intro sound
      refine ⟨fun a single fits => ?_, fun a single fits => ?_, fun a single overflow long => ?_⟩
      · have overflow := notFits a (.inr single)
        rw [greatestRight a single] at overflow
        exact absurd fits (not_le.mpr overflow)
      · have overflow := notFits a (.inl single)
        rw [greatestLeft a single] at overflow
        exact absurd fits (not_le.mpr overflow)
      · intro l inLeft r inRight
        have inside := (contains_orRange_long first second rank nonnegLeft nonnegRight some long
          inLeft inRight).mp (sound l inLeft r inRight)
        have top := Ir.intShift undefinedShift (lowBit left right - 1) |>.isLt
        have whole := orMask_of_overflow first second someLeft someRight nonnegLeft nonnegRight long
          overflow
        rcases inside with reversed | bounded | zero
        · omega
        · exact bounded
        · exact absurd zero (union_ne_zero first second nonnegLeft nonnegRight single overflow
            inLeft inRight)
    · rintro ⟨-, -, fits⟩ l inLeft r inRight
      by_cases long : type.kind = .u64
      · rw [contains_orRange_long first second rank nonnegLeft nonnegRight some long inLeft inRight]
        by_cases single : ∃ a, (∀ x, x ∈ rlSet left ↔ x = a) ∨ ∀ x, x ∈ rlSet right ↔ x = a
        · obtain ⟨a, one⟩ := single
          exact .inr (.inl (fits a one (notFits a one) long l inLeft r inRight))
        · have place := lowBit_of_many first second someLeft someRight nonnegLeft nonnegRight
            ((rlToSval_of_not_single first).mpr fun one => single (one.imp fun _ => .inl))
            ((rlToSval_of_not_single second).mpr fun one => single (one.imp fun _ => .inr))
          rw [place, intShift_toNat (by decide)]
          by_cases zero : l.toNat ||| r.toNat = 0
          · exact .inr (.inr zero)
          · exact .inr (.inl (Nat.one_le_iff_ne_zero.mpr zero))
      · exact contains_orRange first second rank nonnegLeft nonnegRight some long inLeft inRight

/-- The theorem for `8-11` and the known value four. -/
theorem rlHandleOr_contains_iff_four :
    (rlHandleOr (fun _ => 0) [⟨intCtype.ofInt 8, intCtype.ofInt 11⟩]
        [⟨intCtype.ofInt 4, intCtype.ofInt 4⟩] = [] ∨
      ∀ l ∈ rlSet [⟨intCtype.ofInt 8, intCtype.ofInt 11⟩],
        ∀ r ∈ rlSet [⟨intCtype.ofInt 4, intCtype.ofInt 4⟩],
          Contains intCtype (rlHandleOr (fun _ => 0) [⟨intCtype.ofInt 8, intCtype.ofInt 11⟩]
            [⟨intCtype.ofInt 4, intCtype.ofInt 4⟩]) ((l.toNat ||| r.toNat : Nat) : Int)) ↔
      OrSound (fun _ => 0) intCtype [⟨intCtype.ofInt 8, intCtype.ofInt 11⟩]
        [⟨intCtype.ofInt 4, intCtype.ofInt 4⟩] :=
  @rlHandleOr_contains_iff (fun _ => 0) intCtype _ _ (by decide) (by decide) (by decide)
    (by
      rw [rlSet_singleton]
      intro l inside
      exact Int.le_trans (by decide) inside.1)
    (by
      rw [rlSet_singleton]
      intro r inside
      exact Int.le_trans (by decide) inside.1)

/-- `1 | 1` is computed as the sum two. -/
theorem rlHandleOr_misses :
    Canonical intCtype [⟨intCtype.ofInt 1, intCtype.ofInt 1⟩] ∧
      1 ∈ rlSet [⟨intCtype.ofInt 1, intCtype.ofInt 1⟩] ∧
      rlHandleOr (fun _ => 0) [⟨intCtype.ofInt 1, intCtype.ofInt 1⟩]
        [⟨intCtype.ofInt 1, intCtype.ofInt 1⟩] ≠ [] ∧
      ¬ Contains intCtype (rlHandleOr (fun _ => 0) [⟨intCtype.ofInt 1, intCtype.ofInt 1⟩]
        [⟨intCtype.ofInt 1, intCtype.ofInt 1⟩])
        (((1 : Int).toNat ||| (1 : Int).toNat : Nat) : Int) := by
  decide

end SmatchFormal.RangeMath
