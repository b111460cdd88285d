import SmatchFormal.RangeMath.Shift

/-!
# And of range lists

`rl_handle_AND` bounds the result of two lists by the lesser maximum.  With a known mask
`rl_AND_mask` masks the two ends of the list, and takes the lowest bit of the mask or the
least value itself where the least value has none or all of the bits.
-/

namespace SmatchFormal.RangeMath

open SmatchFormal.Ranges SmatchFormal.Extra SmatchFormal.Lib

/-! ## The code -/

def svalLowestSetBit (sval : Sval) : Sval :=
  match (List.range 64).find? fun i => sval.raw.getLsbD i with
  | some i => { sval with raw := 1#64 <<< i }
  | none => { sval with raw := 0 }

def andMin (min bits : Sval) : Sval × Bool :=
  if min.raw &&& bits.raw ≠ bits.raw then
    if min.raw &&& bits.raw = 0 then (svalLowestSetBit bits, true)
    else ({ min with raw := min.raw &&& bits.raw }, false)
  else (min, false)

def andMax (max bits : Sval) : Sval :=
  if !svalIsMax max || decide (smFls64 max.raw > smFls64 bits.raw) then
    { max with raw := max.raw &&& bits.raw }
  else max

def rlBits (rl : RangeList) (bits : BitVec 64) : Sval := ⟨(rlType rl).getD llongCtype, bits⟩

def rlAndMask (rl : RangeList) (mask : BitVec 64) : RangeList :=
  if rl = [] then []
  else if mask = 0 then allocRl (rlVal rl 0) (rlVal rl 0)
  else
    let bits := rlBits rl ((rlToBinfo rl).possible &&& mask)
    let ret := allocRl (andMin (rlMin rl) bits).1 (andMax (rlMax rl) bits)
    if (andMin (rlMin rl) bits).2 then addRange ret (rlVal rl 0) (rlVal rl 0) else ret

def svalMin (one two : Sval) : Sval := if svalCmp one two > 0 then two else one

def svalMinNonneg (one two : Sval) : Sval :=
  if svalIsNegative one && svalIsNegative two then { one with raw := 0 }
  else if svalIsNegative one then two
  else if svalIsNegative two then one
  else svalMin one two

/-- The last part of `rl_handle_AND`, for two lists of more than one value. -/
def andRange (left right : RangeList) : RangeList :=
  let bits := rlBits left ((rlToBinfo left).possible &&& (rlToBinfo right).possible)
  let max := andMax (svalMinNonneg (rlMax left) (rlMax right)) bits
  addRange (allocRl (svalLowestSetBit bits) max) (rlVal left 0) (rlVal left 0)

def rlHandleAnd (left right : RangeList) : RangeList :=
  match rlToSval left, rlToSval right with
  | some leftSval, some rightSval =>
    allocRl (svalBinop leftSval .and rightSval) (svalBinop leftSval .and rightSval)
  | some leftSval, none => rlAndMask right leftSval.raw
  | none, some rightSval => rlAndMask left rightSval.raw
  | none, none => andRange left right

/-! ## The condition -/

def maskBits (rl : RangeList) (mask : Nat) : Nat := (rlToBinfo rl).possible.toNat &&& mask

/-- Masking the ends of the list bounds the masked values, or the ends are the wrong way
round, which stands for the whole type. -/
def MaskSound (type : Ctype) (rl : RangeList) (mask : Nat) : Prop :=
  let low := (rlMin rl).val.toNat
  let high := (rlMax rl).val.toNat
  mask = 0 ∨
    (low &&& maskBits rl mask ≠ maskBits rl mask ∧
      (high &&& mask = 0 ∨ high &&& mask < low &&& mask ∨
        ∀ x ∈ rlSet rl, low &&& mask ≤ x.toNat &&& mask ∧ x.toNat &&& mask ≤ high &&& mask)) ∨
    (low &&& maskBits rl mask = maskBits rl mask ∧
      ((high &&& mask < low ∧ ¬ ((high : Int) = type.hi ∧ high.size ≤ (maskBits rl mask).size)) ∨
        ∀ x ∈ rlSet rl, x.toNat &&& mask = low))

section Ends

variable {type : Ctype} {sval min max bits : Sval}

/-- A word of the type that has only bits of a value of the type. -/
theorem and_ofType (typed : sval.OfType type) (nonneg : 0 ≤ sval.val) (word : BitVec 64) :
    ({ sval with raw := sval.raw &&& word } : Sval).OfType type ∧
      ({ sval with raw := sval.raw &&& word } : Sval).val =
        (sval.val.toNat &&& word.toNat : Nat) := by
  have number : (sval.raw &&& word).toNat = sval.val.toNat &&& word.toNat := by
    rw [BitVec.toNat_and, raw_toNat_eq nonneg]
  have less : sval.val.toNat &&& word.toNat ≤ sval.val.toNat := Nat.and_le_left
  have small : ((sval.raw &&& word).toNat : Int) ≤ type.hi := by
    have high := typed.2.2
    rw [number]
    omega
  have result := @word_ofType type (sval.raw &&& word) small
  rw [number] at result
  have own := typed.1
  subst own
  exact result

/-- The lowest bit of a value, as a value of the type. -/
theorem svalLowestSetBit_spec (typed : bits.OfType type) (nonneg : 0 ≤ bits.val)
    (some : bits.val ≠ 0) :
    ∃ k, (svalLowestSetBit bits).OfType type ∧ (svalLowestSetBit bits).val = (2 ^ k : Nat) ∧
      2 ^ k ≤ bits.val.toNat ∧ ∀ j < k, bits.val.toNat.testBit j = false := by
  have number := raw_toNat_eq nonneg
  have nonzero : bits.raw.toNat ≠ 0 := by omega
  obtain ⟨i, set⟩ := Nat.exists_testBit_of_ne_zero nonzero
  have inside : i < 64 := BitVec.lt_of_getLsbD (x := bits.raw) set
  unfold svalLowestSetBit
  cases found : (List.range 64).find? fun i => bits.raw.getLsbD i with
  | none => exact absurd set (List.find?_eq_none.mp found i (List.mem_range.mpr inside))
  | some k =>
    obtain ⟨own, below, first⟩ := List.find?_range_eq_some.mp found
    have place : k < 64 := List.mem_range.mp below
    have low : ∀ j < k, bits.val.toNat.testBit j = false := by
      intro j less
      rw [← number]
      exact Bool.not_eq_true' _ |>.mp (first j less)
    have power : (1#64 <<< k).toNat = 2 ^ k := by
      have fits := Nat.pow_lt_pow_right (by decide : 1 < 2) place
      rw [BitVec.toNat_shiftLeft, BitVec.toNat_ofNat, Nat.shiftLeft_eq, Nat.one_mod,
        Nat.one_mul, Nat.mod_eq_of_lt fits]
    have least : 2 ^ k ≤ bits.val.toNat := by
      rw [← number]
      exact Nat.ge_two_pow_of_testBit own
    have small : ((1#64 <<< k).toNat : Int) ≤ type.hi := by
      have high := typed.2.2
      rw [power]
      omega
    have result := @word_ofType type (1#64 <<< k) small
    rw [power] at result
    have same := typed.1
    subst same
    exact ⟨k, result.1, result.2, least, low⟩

theorem svalMinNonneg_spec (first : min.OfType type) (second : max.OfType type)
    (nonnegMin : 0 ≤ min.val) (nonnegMax : 0 ≤ max.val) :
    (svalMinNonneg min max).OfType type ∧
      (svalMinNonneg min max).val = Min.min min.val max.val := by
  have signMin : ¬ svalIsNegative min = true := by
    rw [svalIsNegative_iff]
    omega
  have signMax : ¬ svalIsNegative max = true := by
    rw [svalIsNegative_iff]
    omega
  unfold svalMinNonneg svalMin
  rw [Bool.not_eq_true _ |>.mp signMin, Bool.not_eq_true _ |>.mp signMax,
    svalCmp_ofType first second]
  simp only [Bool.and_self, Bool.false_eq_true, if_false, intCmp_gt_zero]
  split_ifs with less
  · exact ⟨second, by omega⟩
  · exact ⟨first, by omega⟩

theorem andMax_spec (typed : max.OfType type) (nonneg : 0 ≤ max.val) (nonnegBits : 0 ≤ bits.val) :
    (andMax max bits).OfType type ∧
      (andMax max bits).val =
        if max.val = type.hi ∧ max.val.toNat.size ≤ bits.val.toNat.size then max.val
        else (max.val.toNat &&& bits.val.toNat : Nat) := by
  have last := svalIsMax_iff typed
  unfold andMax
  rw [smFls64_eq, smFls64_eq, raw_toNat_eq nonneg, raw_toNat_eq nonnegBits]
  by_cases keeps : max.val = type.hi ∧ max.val.toNat.size ≤ bits.val.toNat.size
  · rw [if_pos keeps, last.mpr keeps.1, if_neg (by simpa using keeps.2)]
    exact ⟨typed, rfl⟩
  · have masks : (!svalIsMax max || decide (max.val.toNat.size > bits.val.toNat.size)) = true := by
      rw [Bool.or_eq_true, Bool.not_eq_true', decide_eq_true_iff, ← Bool.not_eq_true, last]
      by_cases top : max.val = type.hi
      · exact .inr (not_le.mp fun short => keeps ⟨top, short⟩)
      · exact .inl top
    rw [if_neg keeps, if_pos masks, ← raw_toNat_eq nonnegBits]
    exact and_ofType typed nonneg bits.raw

theorem andMin_cases (nonneg : 0 ≤ min.val) (nonnegBits : 0 ≤ bits.val) :
    (min.val.toNat &&& bits.val.toNat = bits.val.toNat → andMin min bits = (min, false)) ∧
      (min.val.toNat &&& bits.val.toNat ≠ bits.val.toNat →
        min.val.toNat &&& bits.val.toNat = 0 → andMin min bits = (svalLowestSetBit bits, true)) ∧
      (min.val.toNat &&& bits.val.toNat ≠ bits.val.toNat →
        min.val.toNat &&& bits.val.toNat ≠ 0 →
        andMin min bits = ({ min with raw := min.raw &&& bits.raw }, false)) := by
  have number : (min.raw &&& bits.raw).toNat = min.val.toNat &&& bits.val.toNat := by
    rw [BitVec.toNat_and, raw_toNat_eq nonneg, raw_toNat_eq nonnegBits]
  have all : min.raw &&& bits.raw = bits.raw ↔
      min.val.toNat &&& bits.val.toNat = bits.val.toNat := by
    rw [← BitVec.toNat_inj, number, raw_toNat_eq nonnegBits]
  have none : min.raw &&& bits.raw = 0 ↔ min.val.toNat &&& bits.val.toNat = 0 := by
    rw [← BitVec.toNat_inj, number]
    exact Iff.rfl
  unfold andMin
  refine ⟨fun same => ?_, fun other zero => ?_, fun other some => ?_⟩
  · rw [if_neg (not_not.mpr (all.mpr same))]
  · rw [if_pos (fun found => other (all.mp found)), if_pos (none.mpr zero)]
  · rw [if_pos (fun found => other (all.mp found)), if_neg (fun found => some (none.mp found))]

theorem mem_maskRange_iff (low : min.OfType type) (high : max.OfType type) (flag : Bool) {n : Nat}
    (small : (n : Int) ≤ type.hi) :
    (n : Int) ∈ rlSet (if flag then addRange (allocRl min max) (type.ofInt 0) (type.ofInt 0)
      else allocRl min max) ↔
      max.val < min.val ∨ (min.val ≤ n ∧ (n : Int) ≤ max.val) ∨ flag = true ∧ n = 0 := by
  obtain ⟨canonical, members⟩ := allocRl_spec low high
  have bottom := type.kind.bounds.2.1
  have ends : (n : Int) ∈ endsSet type min.val max.val ↔
      max.val < min.val ∨ (min.val ≤ n ∧ (n : Int) ≤ max.val) := by
    unfold endsSet
    split_ifs with order
    · rw [Set.mem_Icc]
      exact (or_iff_right (not_lt.mpr order)).symm
    · rw [Set.mem_Icc]
      refine iff_of_true ⟨?_, small⟩ (.inl (not_le.mp order))
      exact Int.le_trans bottom (Int.natCast_nonneg n)
  cases flag with
  | false =>
    rw [if_neg Bool.false_ne_true, members, ends]
    simp only [Bool.false_eq_true, false_and, or_false]
  | true =>
    have added := addRange_rlSet (zero_ofType type) (zero_ofType type) (Int.le_refl _) canonical
    rw [if_pos rfl, added, Set.mem_union, members, ends, zero_val, Set.mem_Icc, or_assoc]
    refine or_congr Iff.rfl (or_congr Iff.rfl ?_)
    simp only [true_and]
    omega

end Ends

/-! ## The values between the ends -/

/-- A list of values with the ends `min` and `max`, what a mask leaves of them, and the upper
end of the result, which is `max` itself under `top`. -/
structure MaskEnds (values : Set Int) (masked : Int → Nat) (bits : Nat) (top : Prop)
    (min max last : Int) : Prop where
  minIn : min ∈ values
  maxIn : max ∈ values
  order : min ≤ max
  nonneg : 0 ≤ min
  least : (masked min : Int) ≤ min
  below : ∀ x ∈ values, (masked x : Int) ≤ max
  within : ∀ x ∈ values, masked x ≤ bits
  capped : top → ∀ x ∈ values, masked x ≤ masked max
  keeps : top → last = max
  masks : ¬ top → last = masked max

namespace MaskEnds

variable {values : Set Int} {masked : Int → Nat} {bits : Nat} {top : Prop} {min max last : Int}

section

variable (ends : MaskEnds values masked bits top min max last)
include ends

/-- The least value has all bits and is the lower end. -/
theorem sound_all (all : masked min = bits) :
    (∀ x ∈ values, last < min ∨ min ≤ masked x ∧ (masked x : Int) ≤ last) ↔
      (masked max < min.toNat ∧ ¬ top) ∨ ∀ x ∈ values, masked x = min.toNat := by
  have nonneg := ends.nonneg
  have least := ends.least
  constructor
  · intro sound
    by_cases reversed : last < min
    · left
      by_cases kept : top
      · have same := ends.keeps kept
        have order := ends.order
        omega
      · have same := ends.masks kept
        exact ⟨by omega, kept⟩
    · right
      intro x member
      have within := ends.within x member
      have bounds := (sound x member).resolve_left reversed
      omega
  · rintro (⟨less, notTop⟩ | same) x member
    · have upper := ends.masks notTop
      exact .inl (by omega)
    · have own := same x member
      have lastOwn := same max ends.maxIn
      have below := ends.below max ends.maxIn
      refine .inr ⟨by omega, ?_⟩
      by_cases kept : top
      · have upper := ends.keeps kept
        omega
      · have upper := ends.masks kept
        omega

/-- The least value has none of the bits: a power of two that is at most every masked value
but zero is the lower end, and zero is added. -/
theorem sound_none (none : masked min = 0) {k : Nat}
    (atLeast : ∀ x ∈ values, masked x ≠ 0 → 2 ^ k ≤ masked x) :
    (∀ x ∈ values, last < (2 ^ k : Nat) ∨ (((2 ^ k : Nat) : Int) ≤ masked x ∧
        (masked x : Int) ≤ last) ∨ masked x = 0) ↔
      masked max = 0 ∨ masked max < masked min ∨
        ∀ x ∈ values, masked min ≤ masked x ∧ masked x ≤ masked max := by
  have power := Nat.two_pow_pos k
  constructor
  · intro sound
    by_cases gone : masked max = 0
    · exact .inl gone
    · refine .inr (.inr fun x member => ⟨by omega, ?_⟩)
      by_cases kept : top
      · exact ends.capped kept x member
      · have upper := ends.masks kept
        have order := atLeast max ends.maxIn gone
        rcases sound x member with reversed | between | zero
        · omega
        · omega
        · omega
  · rintro condition x member
    by_cases zero : masked x = 0
    · exact .inr (.inr zero)
    · have first := atLeast x member zero
      by_cases kept : top
      · have upper := ends.keeps kept
        have below := ends.below x member
        exact .inr (.inl ⟨by omega, by omega⟩)
      · have upper := ends.masks kept
        rcases condition with gone | less | between
        · exact .inl (by omega)
        · omega
        · have high := (between x member).2
          exact .inr (.inl ⟨by omega, by omega⟩)

/-- The least value has some of the bits, and those are the lower end. -/
theorem sound_some (some : masked min ≠ 0) :
    (∀ x ∈ values, last < masked min ∨ ((masked min : Int) ≤ masked x ∧
        (masked x : Int) ≤ last)) ↔
      masked max = 0 ∨ masked max < masked min ∨
        ∀ x ∈ values, masked min ≤ masked x ∧ masked x ≤ masked max := by
  constructor
  · intro sound
    by_cases reversed : last < masked min
    · refine .inr (.inl ?_)
      by_cases kept : top
      · have upper := ends.keeps kept
        have below := ends.below min ends.minIn
        omega
      · have upper := ends.masks kept
        omega
    · refine .inr (.inr fun x member => ?_)
      have bounds := (sound x member).resolve_left reversed
      refine ⟨by omega, ?_⟩
      by_cases kept : top
      · exact ends.capped kept x member
      · have upper := ends.masks kept
        omega
  · intro condition x member
    by_cases kept : top
    · have upper := ends.keeps kept
      have below := ends.below x member
      have lower := ends.capped kept min ends.minIn
      rcases condition with gone | less | between
      · omega
      · omega
      · have low := (between x member).1
        exact .inr ⟨by omega, by omega⟩
    · have upper := ends.masks kept
      rcases condition with gone | less | between
      · exact .inl (by omega)
      · exact .inl (by omega)
      · obtain ⟨low, high⟩ := between x member
        exact .inr ⟨by omega, by omega⟩

end

end MaskEnds

section Mask

variable {type : Ctype} {rl : RangeList} {mask : BitVec 64}

/-- The bits of a list: all that its values have, and no more than a value of the type. -/
theorem possible_spec (canonical : Canonical type rl) (null : rl ≠ [])
    (nonneg : ∀ x ∈ rlSet rl, 0 ≤ x) :
    (∀ x ∈ rlSet rl, x.toNat &&& (rlToBinfo rl).possible.toNat = x.toNat) ∧
      ((rlToBinfo rl).possible.toNat : Int) ≤ type.hi := by
  have high := rlMax_ofType canonical null
  have nonnegMax := nonneg _ (rlMax_mem canonical null)
  unfold rlToBinfo
  cases found : rlToSval rl with
  | some sval =>
    obtain ⟨typed, members⟩ := rlToSval_eq_some canonical found
    have nonnegVal := nonneg _ ((members _).mpr rfl)
    refine ⟨fun x member => ?_, ?_⟩
    · rw [(members x).mp member, raw_toNat_eq nonnegVal, Nat.and_self]
    · rw [raw_toNat nonnegVal]
      exact typed.2.2
  | none =>
    dsimp only
    rw [svalFlsMask_toNat nonnegMax]
    refine ⟨fun x member => ?_, ?_⟩
    · exact BitLength.and_mask_of_size_le (size_toNat_mono (le_rlMax canonical member))
    · apply mask_le_hi
      rw [Int.toNat_of_nonneg nonnegMax]
      exact high.2.2

theorem and_maskBits (canonical : Canonical type rl) (null : rl ≠ [])
    (nonneg : ∀ x ∈ rlSet rl, 0 ≤ x) (m : Nat) {x : Int} (member : x ∈ rlSet rl) :
    x.toNat &&& maskBits rl m = x.toNat &&& m := by
  rw [maskBits, ← Nat.and_assoc, (possible_spec canonical null nonneg).1 x member]

theorem maskBits_le (canonical : Canonical type rl) (null : rl ≠ [])
    (nonneg : ∀ x ∈ rlSet rl, 0 ≤ x) (m : Nat) : ((maskBits rl m : Nat) : Int) ≤ type.hi := by
  have bound := (possible_spec canonical null nonneg).2
  have less : maskBits rl m ≤ (rlToBinfo rl).possible.toNat := Nat.and_le_left
  omega

/-- The greatest value of a type has all bits of its values. -/
theorem and_hi {n : Nat} (small : (n : Int) ≤ type.hi) : type.hi.toNat &&& n = n := by
  have top := hi_eq_mask type
  have positive := Nat.two_pow_pos (typePositiveBits type)
  have number : type.hi.toNat = 2 ^ typePositiveBits type - 1 := by
    zify [positive]
    omega
  rw [number, Nat.and_comm]
  apply BitLength.and_mask_of_size_le
  rw [Nat.size_le]
  zify
  omega

section

variable (canonical : Canonical type rl) (null : rl ≠ []) (nonneg : ∀ x ∈ rlSet rl, 0 ≤ x)
include canonical null nonneg

/-- The bits as a value of the type of the list. -/
theorem maskBits_ofType :
    (⟨type, (rlToBinfo rl).possible &&& mask⟩ : Sval).OfType type ∧
      (⟨type, (rlToBinfo rl).possible &&& mask⟩ : Sval).val = maskBits rl mask.toNat := by
  have number : ((rlToBinfo rl).possible &&& mask).toNat = maskBits rl mask.toNat :=
    BitVec.toNat_and _ _
  have result := @word_ofType type ((rlToBinfo rl).possible &&& mask)
    (by rw [number]; exact maskBits_le canonical null nonneg mask.toNat)
  rwa [number] at result

/-- The ends of the list and the upper end of the result. -/
theorem andMax_ends :
    (andMax (rlMax rl) ⟨type, (rlToBinfo rl).possible &&& mask⟩).OfType type ∧
      MaskEnds (rlSet rl) (fun x => x.toNat &&& mask.toNat) (maskBits rl mask.toNat)
        ((rlMax rl).val = type.hi ∧
          (rlMax rl).val.toNat.size ≤ (maskBits rl mask.toNat).size)
        (rlMin rl).val (rlMax rl).val
        (andMax (rlMax rl) ⟨type, (rlToBinfo rl).possible &&& mask⟩).val := by
  have minIn := rlMin_mem canonical null
  have maxIn := rlMax_mem canonical null
  have highNonneg := nonneg _ maxIn
  have bound := maskBits_le canonical null nonneg mask.toNat
  obtain ⟨-, bitsVal⟩ := @maskBits_ofType type rl mask canonical null nonneg
  obtain ⟨typed, value⟩ := andMax_spec (rlMax_ofType canonical null) highNonneg
    (by rw [bitsVal]; exact Int.natCast_nonneg _)
  rw [bitsVal, Int.toNat_natCast, and_maskBits canonical null nonneg _ maxIn] at value
  have less : ∀ x ∈ rlSet rl, ((x.toNat &&& mask.toNat : Nat) : Int) ≤ x := by
    intro x member
    have below : x.toNat &&& mask.toNat ≤ x.toNat := Nat.and_le_left
    have positive := nonneg x member
    omega
  have within : ∀ x ∈ rlSet rl, x.toNat &&& mask.toNat ≤ maskBits rl mask.toNat := by
    intro x member
    rw [← and_maskBits canonical null nonneg _ member]
    exact Nat.and_le_right
  refine ⟨typed, minIn, maxIn, rlMin_le canonical maxIn, nonneg _ minIn, less _ minIn, ?_, within,
    ?_, ?_, ?_⟩
  · intro x member
    exact Int.le_trans (less x member) (le_rlMax canonical member)
  · -- A greatest value that is the type's own has all bits.
    intro top x member
    rw [← and_maskBits canonical null nonneg _ maxIn, top.1, and_hi bound]
    exact within x member
  · intro top
    rw [value, if_pos top]
  · intro notTop
    rw [value, if_neg notTop]

/-- The list of `rl_AND_mask` has all masked values exactly under `MaskSound`. -/
theorem rlAndMask_sound_iff :
    (∀ x ∈ rlSet rl, ((x.toNat &&& mask.toNat : Nat) : Int) ∈ rlSet (rlAndMask rl mask)) ↔
      MaskSound type rl mask.toNat := by
  unfold MaskSound rlAndMask
  dsimp only
  rw [if_neg null, rlVal_eq canonical null, rlBits, rlType_of_canonical canonical null,
    Option.getD_some]
  by_cases zero : mask = 0
  · subst zero
    rw [if_pos rfl]
    refine iff_of_true (fun x _ => ?_) (.inl rfl)
    obtain ⟨-, members⟩ := allocRl_spec (zero_ofType type) (zero_ofType type)
    rw [members, endsSet_of_le (Int.le_refl _), zero_val, Set.mem_Icc]
    simp
  have maskPositive : ¬ mask.toNat = 0 := fun value => zero (BitVec.eq_of_toNat_eq value)
  have minIn := rlMin_mem canonical null
  have maxIn := rlMax_mem canonical null
  have minTyped := rlMin_ofType canonical null
  have lowNonneg := nonneg _ minIn
  have highNat := Int.toNat_of_nonneg (nonneg _ maxIn)
  obtain ⟨bitsTyped, bitsVal⟩ := @maskBits_ofType type rl mask canonical null nonneg
  have bitsNonneg : 0 ≤ (⟨type, (rlToBinfo rl).possible &&& mask⟩ : Sval).val := by
    rw [bitsVal]
    exact Int.natCast_nonneg _
  have inType : ∀ x ∈ rlSet rl, ((x.toNat &&& mask.toNat : Nat) : Int) ≤ type.hi := by
    intro x member
    have less : x.toNat &&& mask.toNat ≤ x.toNat := Nat.and_le_left
    have high := (canonical.mem_type member).2
    have positive := nonneg x member
    omega
  obtain ⟨endTyped, ends⟩ := @andMax_ends type rl mask canonical null nonneg
  have lower := andMin_cases lowNonneg bitsNonneg
  rw [bitsVal, Int.toNat_natCast, and_maskBits canonical null nonneg _ minIn] at lower
  obtain ⟨allCase, noneCase, someCase⟩ := lower
  rw [if_neg zero, and_maskBits canonical null nonneg _ minIn, highNat]
  by_cases all : (rlMin rl).val.toNat &&& mask.toNat = maskBits rl mask.toNat
  · rw [allCase all]
    have members := fun x member => mem_maskRange_iff minTyped endTyped false (inType x member)
    simp only [maskPositive, all, ne_eq, not_true_eq_false, false_and, false_or, true_and]
    rw [← ends.sound_all all]
    exact forall₂_congr fun x member => by simpa using members x member
  · simp only [maskPositive, all, ne_eq, not_false_eq_true, true_and, false_and, or_false, false_or]
    by_cases none : (rlMin rl).val.toNat &&& mask.toNat = 0
    · have some : (⟨type, (rlToBinfo rl).possible &&& mask⟩ : Sval).val ≠ 0 := by
        rw [bitsVal]
        omega
      obtain ⟨k, lowTyped, lowVal, -, clear⟩ := svalLowestSetBit_spec bitsTyped bitsNonneg some
      have members := fun x member => mem_maskRange_iff lowTyped endTyped true (inType x member)
      rw [noneCase all none]
      rw [lowVal] at members
      rw [bitsVal, Int.toNat_natCast] at clear
      rw [← ends.sound_none none fun x member nonzero => ?_]
      · exact forall₂_congr fun x member => by simpa using members x member
      · refine BitLength.two_pow_le_of_low nonzero fun j less => ?_
        rw [← and_maskBits canonical null nonneg _ member, Nat.testBit_and, clear j less,
          Bool.and_false]
    · obtain ⟨maskedTyped, maskedVal⟩ :=
        and_ofType minTyped lowNonneg ((rlToBinfo rl).possible &&& mask)
      have members := fun x member => mem_maskRange_iff maskedTyped endTyped false (inType x member)
      have number : ((rlToBinfo rl).possible &&& mask).toNat = maskBits rl mask.toNat :=
        BitVec.toNat_and _ _
      rw [number, and_maskBits canonical null nonneg _ minIn] at maskedVal
      rw [someCase all none]
      rw [maskedVal] at members
      rw [← ends.sound_some none]
      exact forall₂_congr fun x member => by simpa using members x member

end

end Mask

section Two

variable {type : Ctype} {left right : RangeList}

theorem possible_of_none (canonical : Canonical type left) (null : left ≠ [])
    (nonneg : ∀ x ∈ rlSet left, 0 ≤ x) (many : rlToSval left = none) :
    (rlToBinfo left).possible.toNat = 2 ^ (rlMax left).val.toNat.size - 1 ∧
      0 < (rlMax left).val.toNat.size := by
  have less := (rlToSval_eq_none canonical null).mp many
  have low := nonneg _ (rlMin_mem canonical null)
  unfold rlToBinfo
  rw [many]
  dsimp only
  rw [svalFlsMask_toNat (nonneg _ (rlMax_mem canonical null))]
  refine ⟨rfl, Nat.size_pos.mpr ?_⟩
  omega

theorem andRange_contains (first : Canonical type left) (second : Canonical type right)
    (someLeft : left ≠ []) (someRight : right ≠ []) (nonnegLeft : ∀ l ∈ rlSet left, 0 ≤ l)
    (nonnegRight : ∀ r ∈ rlSet right, 0 ≤ r) (manyLeft : rlToSval left = none)
    (manyRight : rlToSval right = none) {l r : Int} (inLeft : l ∈ rlSet left)
    (inRight : r ∈ rlSet right) :
    ((l.toNat &&& r.toNat : Nat) : Int) ∈ rlSet (andRange left right) := by
  have lastLeft := rlMax_mem first someLeft
  have lastRight := rlMax_mem second someRight
  obtain ⟨possibleLeft, someBitsLeft⟩ := possible_of_none first someLeft nonnegLeft manyLeft
  obtain ⟨possibleRight, someBitsRight⟩ := possible_of_none second someRight nonnegRight manyRight
  obtain ⟨leastTyped, leastVal⟩ := svalMinNonneg_spec (rlMax_ofType first someLeft)
    (rlMax_ofType second someRight) (nonnegLeft _ lastLeft) (nonnegRight _ lastRight)
  have leastNonneg : 0 ≤ (svalMinNonneg (rlMax left) (rlMax right)).val := by
    have lowLeft := nonnegLeft _ lastLeft
    have lowRight := nonnegRight _ lastRight
    omega
  have number : ((rlToBinfo left).possible &&& (rlToBinfo right).possible).toNat =
      2 ^ min (rlMax left).val.toNat.size (rlMax right).val.toNat.size - 1 := by
    rw [BitVec.toNat_and, possibleLeft, possibleRight, BitLength.mask_and_mask]
  have bound : (((rlToBinfo left).possible &&& (rlToBinfo right).possible).toNat : Int) ≤
      type.hi := by
    have less : ((rlToBinfo left).possible &&& (rlToBinfo right).possible).toNat ≤
        (rlToBinfo left).possible.toNat := by
      rw [BitVec.toNat_and]
      exact Nat.and_le_left
    have most := (possible_spec first someLeft nonnegLeft).2
    omega
  obtain ⟨bitsTyped, bitsVal⟩ := @word_ofType type _ bound
  have bitsNonneg :
      0 ≤ (⟨type, (rlToBinfo left).possible &&& (rlToBinfo right).possible⟩ : Sval).val := by
    rw [bitsVal]
    exact Int.natCast_nonneg _
  have someBits : 0 < min (rlMax left).val.toNat.size (rlMax right).val.toNat.size :=
    Nat.lt_min.mpr ⟨someBitsLeft, someBitsRight⟩
  have odd : (2 ^ min (rlMax left).val.toNat.size (rlMax right).val.toNat.size - 1).testBit 0 =
      true := by
    rw [Nat.testBit_two_pow_sub_one, decide_eq_true someBits]
  obtain ⟨k, lowTyped, lowVal, -, clear⟩ := svalLowestSetBit_spec bitsTyped bitsNonneg (by
    rw [bitsVal, number]
    intro zero
    rw [Nat.cast_eq_zero.mp zero] at odd
    cases odd)
  -- All bits up to the highest common one are possible, so the lowest bit is one.
  have zero : k = 0 := by
    by_contra some
    have off := clear 0 (Nat.pos_of_ne_zero some)
    rw [bitsVal, Int.toNat_natCast, number, odd] at off
    cases off
  subst zero
  obtain ⟨endTyped, endVal⟩ := andMax_spec leastTyped leastNonneg bitsNonneg
  have short : (svalMinNonneg (rlMax left) (rlMax right)).val.toNat.size ≤
      min (rlMax left).val.toNat.size (rlMax right).val.toNat.size := by
    rw [leastVal]
    exact Nat.le_min.mpr ⟨size_toNat_mono (Int.min_le_left _ _),
      size_toNat_mono (Int.min_le_right _ _)⟩
  have keeps : (andMax (svalMinNonneg (rlMax left) (rlMax right))
      ⟨type, (rlToBinfo left).possible &&& (rlToBinfo right).possible⟩).val =
      min (rlMax left).val (rlMax right).val := by
    rw [bitsVal, Int.toNat_natCast, number, BitLength.and_mask_of_size_le short,
      Int.toNat_of_nonneg leastNonneg, ite_self, leastVal] at endVal
    exact endVal
  have lessLeft : l.toNat &&& r.toNat ≤ l.toNat := Nat.and_le_left
  have lessRight : l.toNat &&& r.toNat ≤ r.toNat := Nat.and_le_right
  have highLeft := le_rlMax first inLeft
  have highRight := le_rlMax second inRight
  have lowLeft := nonnegLeft l inLeft
  have lowRight := nonnegRight r inRight
  have inType := (first.mem_type inLeft).2
  have members := mem_maskRange_iff lowTyped endTyped true
    (by omega : ((l.toNat &&& r.toNat : Nat) : Int) ≤ type.hi)
  unfold andRange
  dsimp only
  rw [rlVal_eq first someLeft, rlBits, rlType_of_canonical first someLeft, Option.getD_some]
  rw [if_pos rfl] at members
  rw [members, lowVal, keeps]
  by_cases gone : l.toNat &&& r.toNat = 0
  · exact .inr (.inr ⟨rfl, gone⟩)
  · exact .inr (.inl ⟨by omega, by omega⟩)

theorem allocRl_and_contains (rank : IntRank type) {one two : Sval} (first : one.OfType type)
    (second : two.OfType type) (nonnegOne : 0 ≤ one.val) (nonnegTwo : 0 ≤ two.val) :
    ((one.val.toNat &&& two.val.toNat : Nat) : Int) ∈
      rlSet (allocRl (svalBinop one .and two) (svalBinop one .and two)) := by
  have value := svalBinop_and_val nonnegOne nonnegTwo
  have typed := svalBinop_ofType one .and two
  have less : one.val.toNat &&& two.val.toNat ≤ one.val.toNat := Nat.and_le_left
  have inside : (getPromotedType type type).wrap ((one.val.toNat &&& two.val.toNat : Nat) : Int) =
      ((one.val.toNat &&& two.val.toNat : Nat) : Int) := by
    have bottom := type.kind.bounds.2.1
    have high := first.2.2
    apply IntKind.wrap_of_mem
    · change (getPromotedType type type).lo ≤ _
      rw [promoted_lo rank]
      exact Int.le_trans bottom (Int.natCast_nonneg _)
    · change _ ≤ (getPromotedType type type).hi
      rw [promoted_hi rank]
      omega
  rw [first.1, second.1, inside] at value
  obtain ⟨-, members⟩ := allocRl_spec typed typed
  rw [members, endsSet_of_le (Int.le_refl _), value]
  exact ⟨Int.le_refl _, Int.le_refl _⟩

end Two

/-- `MaskSound` for the list and the mask of each call of `rl_AND_mask`. -/
def AndSound (type : Ctype) (left right : RangeList) : Prop :=
  (∀ m, (∀ x, x ∈ rlSet right ↔ x = m) → MaskSound type left m.toNat) ∧
    ∀ m, (∀ x, x ∈ rlSet left ↔ x = m) → (¬ ∃ n, ∀ x, x ∈ rlSet right ↔ x = n) →
      MaskSound type right m.toNat

theorem rlToSval_of_not_single {type : Ctype} {rl : RangeList} (canonical : Canonical type rl) :
    rlToSval rl = none ↔ ¬ ∃ n, ∀ x, x ∈ rlSet rl ↔ x = n := by
  constructor
  · rintro many ⟨n, single⟩
    obtain ⟨sval, found, -⟩ := rlToSval_of_single canonical single
    rw [found] at many
    cases many
  · intro many
    cases found : rlToSval rl with
    | none => rfl
    | some sval => exact absurd ⟨_, (rlToSval_eq_some canonical found).2⟩ many

section Main

variable {type : Ctype} {rl left right : RangeList}

theorem rlAndMask_ne_nil (some : rl ≠ []) (mask : BitVec 64) : rlAndMask rl mask ≠ [] := by
  unfold rlAndMask
  rw [if_neg some]
  split_ifs
  · exact allocRl_ne_nil _ _
  · dsimp only
    split_ifs
    · exact addRange_ne_nil _ _ _
    · exact allocRl_ne_nil _ _

theorem maskSound_nil (type : Ctype) (mask : Nat) : MaskSound type [] mask := by
  have none : ∀ P : Int → Prop, ∀ x ∈ rlSet [], P x :=
    fun P x member => absurd member (mem_rlSet_nil x)
  unfold MaskSound
  dsimp only
  by_cases all : (rlMin []).val.toNat &&& maskBits [] mask = maskBits [] mask
  · exact .inr (.inr ⟨all, .inr (none _)⟩)
  · exact .inr (.inl ⟨all, .inr (.inr (none _))⟩)

theorem rlAndMask_contains_iff (canonical : Canonical type rl) (nonneg : ∀ x ∈ rlSet rl, 0 ≤ x)
    (mask : BitVec 64) :
    (rlAndMask rl mask = [] ∨
      ∀ x ∈ rlSet rl, ((x.toNat &&& mask.toNat : Nat) : Int) ∈ rlSet (rlAndMask rl mask)) ↔
      MaskSound type rl mask.toNat := by
  by_cases null : rl = []
  · subst null
    exact iff_of_true (.inl rfl) (maskSound_nil type _)
  · rw [or_iff_right (rlAndMask_ne_nil null mask)]
    exact rlAndMask_sound_iff canonical null nonneg

theorem mask_of_single (canonical : Canonical type right) (nonneg : ∀ r ∈ rlSet right, 0 ≤ r)
    {m : Int} (single : ∀ x, x ∈ rlSet right ↔ x = m) : (BitVec.ofInt 64 m).toNat = m.toNat := by
  have member := (single m).mpr rfl
  have low := nonneg m member
  have high := (canonical.mem_type member).2
  have bounds := type.kind.bounds
  unfold Ctype.hi at high
  rw [BitVec.toNat_ofInt, Int.emod_eq_of_lt low]
  exact Int.lt_of_le_of_lt high bounds.2.2.2

end Main

/-- `rl_handle_AND`, and `rl_AND_mask` for a list of one value, have every `l & r` exactly
when masking the ends bounds the masked values. -/
theorem rlHandleAnd_contains_iff {type : Ctype} {left right : RangeList}
    (first : Canonical type left) (second : Canonical type right) (rank : IntRank type)
    (nonnegLeft : ∀ l ∈ rlSet left, 0 ≤ l) (nonnegRight : ∀ r ∈ rlSet right, 0 ≤ r) :
    ((rlHandleAnd left right = [] ∨ ∀ l ∈ rlSet left, ∀ r ∈ rlSet right,
        ((l.toNat &&& r.toNat : Nat) : Int) ∈ rlSet (rlHandleAnd left right)) ∧
      ∀ m, (∀ x, x ∈ rlSet right ↔ x = m) →
        (rlAndMask left (BitVec.ofInt 64 m) = [] ∨ ∀ l ∈ rlSet left,
          ((l.toNat &&& m.toNat : Nat) : Int) ∈ rlSet (rlAndMask left (BitVec.ofInt 64 m)))) ↔
      AndSound type left right := by
  have maskLeft : (∀ m, (∀ x, x ∈ rlSet right ↔ x = m) →
        (rlAndMask left (BitVec.ofInt 64 m) = [] ∨ ∀ l ∈ rlSet left,
          ((l.toNat &&& m.toNat : Nat) : Int) ∈ rlSet (rlAndMask left (BitVec.ofInt 64 m)))) ↔
      ∀ m, (∀ x, x ∈ rlSet right ↔ x = m) → MaskSound type left m.toNat := by
    refine forall_congr' fun m => imp_congr_right fun single => ?_
    have same := mask_of_single second nonnegRight single
    have mask := rlAndMask_contains_iff first nonnegLeft (BitVec.ofInt 64 m)
    rwa [same] at mask
  rw [maskLeft]
  unfold AndSound
  rw [and_comm]
  refine and_congr_right fun leftSound => ?_
  unfold rlHandleAnd
  cases foundLeft : rlToSval left with
  | some leftSval =>
    obtain ⟨leftTyped, leftMembers⟩ := rlToSval_eq_some first foundLeft
    have leftNonneg := nonnegLeft _ ((leftMembers _).mpr rfl)
    cases foundRight : rlToSval right with
    | some rightSval =>
      obtain ⟨rightTyped, rightMembers⟩ := rlToSval_eq_some second foundRight
      have rightNonneg := nonnegRight _ ((rightMembers _).mpr rfl)
      refine iff_of_true (.inr fun l inLeft r inRight => ?_)
        (fun m _ many => absurd ⟨_, rightMembers⟩ many)
      rw [(leftMembers l).mp inLeft, (rightMembers r).mp inRight]
      exact allocRl_and_contains rank leftTyped rightTyped leftNonneg rightNonneg
    | none =>
      have many := (rlToSval_of_not_single second).mp foundRight
      have mask := rlAndMask_contains_iff second nonnegRight leftSval.raw
      rw [raw_toNat_eq leftNonneg] at mask
      dsimp only
      constructor
      · rintro sound m single -
        have same : m = leftSval.val := ((leftMembers m).mp ((single m).mpr rfl))
        rw [same]
        refine mask.mp (sound.imp_right fun contains r inRight => ?_)
        rw [Nat.and_comm]
        exact contains _ ((leftMembers _).mpr rfl) r inRight
      · intro condition
        refine (mask.mpr (condition _ leftMembers many)).imp_right
          fun contains l inLeft r inRight => ?_
        rw [(leftMembers l).mp inLeft, Nat.and_comm]
        exact contains r inRight
  | none =>
    have manyLeft := (rlToSval_of_not_single first).mp foundLeft
    have right_true : ∀ m, (∀ x, x ∈ rlSet left ↔ x = m) →
        (¬ ∃ n, ∀ x, x ∈ rlSet right ↔ x = n) → MaskSound type right m.toNat :=
      fun m single _ => absurd ⟨m, single⟩ manyLeft
    cases foundRight : rlToSval right with
    | some rightSval =>
      obtain ⟨rightTyped, rightMembers⟩ := rlToSval_eq_some second foundRight
      have rightNonneg := nonnegRight _ ((rightMembers _).mpr rfl)
      have mask := rlAndMask_contains_iff first nonnegLeft rightSval.raw
      rw [raw_toNat_eq rightNonneg] at mask
      refine iff_of_true ?_ right_true
      refine (mask.mpr (leftSound _ rightMembers)).imp_right
        fun contains l inLeft r inRight => ?_
      rw [(rightMembers r).mp inRight]
      exact contains l inLeft
    | none =>
      refine iff_of_true (.inr fun l inLeft r inRight => ?_) right_true
      exact andRange_contains first second (nonempty_of_mem inLeft) (nonempty_of_mem inRight)
        nonnegLeft nonnegRight foundLeft foundRight inLeft inRight

/-- The theorem for `4-7` and the mask eight. -/
theorem rlHandleAnd_contains_iff_eight :
    ((rlHandleAnd [⟨intCtype.ofInt 4, intCtype.ofInt 7⟩]
          [⟨intCtype.ofInt 8, intCtype.ofInt 8⟩] = [] ∨
        ∀ l ∈ rlSet [⟨intCtype.ofInt 4, intCtype.ofInt 7⟩],
          ∀ r ∈ rlSet [⟨intCtype.ofInt 8, intCtype.ofInt 8⟩],
            ((l.toNat &&& r.toNat : Nat) : Int) ∈
              rlSet (rlHandleAnd [⟨intCtype.ofInt 4, intCtype.ofInt 7⟩]
                [⟨intCtype.ofInt 8, intCtype.ofInt 8⟩])) ∧
      ∀ m, (∀ x, x ∈ rlSet [⟨intCtype.ofInt 8, intCtype.ofInt 8⟩] ↔ x = m) →
        (rlAndMask [⟨intCtype.ofInt 4, intCtype.ofInt 7⟩] (BitVec.ofInt 64 m) = [] ∨
          ∀ l ∈ rlSet [⟨intCtype.ofInt 4, intCtype.ofInt 7⟩],
            ((l.toNat &&& m.toNat : Nat) : Int) ∈
              rlSet (rlAndMask [⟨intCtype.ofInt 4, intCtype.ofInt 7⟩] (BitVec.ofInt 64 m)))) ↔
      AndSound intCtype [⟨intCtype.ofInt 4, intCtype.ofInt 7⟩]
        [⟨intCtype.ofInt 8, intCtype.ofInt 8⟩] :=
  @rlHandleAnd_contains_iff intCtype _ _ (by decide) (by decide) (by decide)
    (by
      rw [rlSet_singleton]
      intro l inside
      exact Int.le_trans (by decide) inside.1)
    (by
      rw [rlSet_singleton]
      intro r inside
      exact Int.le_trans (by decide) inside.1)

/-- `3-7` and the mask three give the list `3`, although `4 & 3` is zero. -/
theorem rlHandleAnd_misses :
    Canonical intCtype [⟨intCtype.ofInt 3, intCtype.ofInt 7⟩] ∧
      Canonical intCtype [⟨intCtype.ofInt 3, intCtype.ofInt 3⟩] ∧
      4 ∈ rlSet [⟨intCtype.ofInt 3, intCtype.ofInt 7⟩] ∧
      3 ∈ rlSet [⟨intCtype.ofInt 3, intCtype.ofInt 3⟩] ∧
      rlHandleAnd [⟨intCtype.ofInt 3, intCtype.ofInt 7⟩]
        [⟨intCtype.ofInt 3, intCtype.ofInt 3⟩] ≠ [] ∧
      (((4 : Int).toNat &&& (3 : Int).toNat : Nat) : Int) ∉
        rlSet (rlHandleAnd [⟨intCtype.ofInt 3, intCtype.ofInt 7⟩]
          [⟨intCtype.ofInt 3, intCtype.ofInt 3⟩]) := by
  decide

end SmatchFormal.RangeMath
