import SmatchFormal.Ranges.RangeList
import SmatchFormal.Ranges.Wrap

/-!
# Casting a range list

`cast_rl` walks over the ranges and gives each of them to `add_range_t`, which
decides from the two types and the two ends whether the range is kept, split at
the sign boundary, truncated, or replaced by the whole type.

`add_range_t` and `add_range` call each other in the source.  The lists that
`add_range_t` builds and the values it adds have the target type, so its calls
are `addRangeTyped`; `addRange_typed` says that this is what `add_range` does there.
-/

namespace SmatchFormal.Ranges

/-! ## Definitions -/

def svalTooBig (type : Ctype) (sval : Sval) : Bool :=
  if typeBits type ≥ 32 && typeBits sval.type ≤ typeBits type then false
  else if sval.uvalue ≤ 2 ^ typeBits type - 1 then false
  else if typeSigned sval.type then
    -- `neg` is `~sval.uvalue`.
    if typeUnsigned type && decide ((~~~ sval.raw).toNat ≤ (svalTypeMax type).uvalue) then false
    else if sval.value < (svalTypeMin type).value then true
    else if sval.value > (svalTypeMax type).value then true
    else false
  else decide (sval.uvalue > (svalTypeMax type).uvalue)

def truncatesNicely (type : Ctype) (min max : Sval) : Bool :=
  if typeBits type ≥ typeBits min.type then false
  else
    let mask : BitVec 64 := BitVec.allOnes 64 <<< typeBits type
    min.raw &&& mask == max.raw &&& mask

/-- "Cast negative values to high positive values": the list, `min` and `max` after it. -/
def castNegative (type : Ctype) (rl : RangeList) (min max : Sval) : RangeList × Sval × Sval :=
  if svalIsNegative min && typeUnsigned type then
    if svalIsPositive max then
      let rl := addRangeTyped rl (svalTypeVal type 0) (svalCast type max)
      let max := svalTypeMax type
      let min := svalCast type min
      (addRangeTyped rl min max, min, max)
    else
      let max := svalCast type max
      let min := svalCast type min
      (addRangeTyped rl min max, min, max)
  else (rl, min, max)

/-- "Cast high positive numbers to negative": the list, `min` and `max` after it. -/
def castHigh (type : Ctype) (rl : RangeList) (min max : Sval) : RangeList × Sval × Sval :=
  if svalUnsigned max && svalIsNegative (svalCast type max) then
    if !svalIsNegative (svalCast type min) then
      let rl := addRangeTyped rl (svalCast type min) (svalTypeMax type)
      let min := svalTypeMin type
      let max := svalCast type max
      (addRangeTyped rl min max, min, max)
    else
      let min := svalCast type min
      let max := svalCast type max
      (addRangeTyped rl min max, min, max)
  else (rl, min, max)

def addRangeT (type : Ctype) (rl : RangeList) (min max : Sval) : RangeList :=
  if svalCmp min max = 0 then addRangeTyped rl (svalCast type min) (svalCast type max)
  else if svalFits type min && svalFits type max then
    addRangeTyped rl (svalCast type min) (svalCast type max)
  else if truncatesNicely type min max then
    addRangeTyped rl (svalCast type min) (svalCast type max)
  else if svalTooBig type min || svalTooBig type max then
    addRangeTyped rl (svalTypeMin type) (svalTypeMax type)
  -- The early return inside the branch that `castNegative` models.
  else if svalIsNegative min && typeUnsigned type && svalIsPositive max && svalTooHigh type max then
    addRangeTyped rl (svalTypeMin type) (svalTypeMax type)
  else
    let (rl, min, max) := castNegative type rl min max
    let (rl, min, max) := castHigh type rl min max
    addRangeTyped rl (svalCast type min) (svalCast type max)

def rlIsSane (rl : RangeList) : Bool :=
  match rlType rl with
  | none => true
  | some type =>
    rl.all fun tmp =>
      svalFits type tmp.min && svalFits type tmp.max && !decide (svalCmp tmp.min tmp.max > 0)

def rlTypeConsistent (rl : RangeList) : Bool :=
  rl.all fun tmp => rlType rl == some tmp.min.type && rlType rl == some tmp.max.type

/-- The flags of the loop of `cast_to_bool`: `has_one` and `has_zero`. -/
def boolFlags (flags : Bool × Bool) (tmp : DataRange) : Bool × Bool :=
  let hasOne := flags.1 || tmp.min.raw != 0 || tmp.max.raw != 0
  if svalIsNegative tmp.min && svalIsNegative tmp.max then (hasOne, flags.2)
  else
    (hasOne, flags.2 || tmp.min.raw == 0 || tmp.max.raw == 0 ||
      (svalIsNegative tmp.min && decide (tmp.max.value > 0)))

def castToBool (rl : RangeList) : RangeList :=
  let (hasOne, hasZero) := rl.foldl boolFlags (false, false)
  addRangeTyped [] ⟨boolCtype, if hasZero then 0 else 1⟩ ⟨boolCtype, if hasOne then 1 else 0⟩

def allocRl (min max : Sval) : RangeList :=
  if svalCmp min max > 0 then addRangeTyped [] (svalTypeMin min.type) (svalTypeMax min.type)
  else addRangeTyped [] min max

def allocWholeRl (type : Option Ctype) : RangeList :=
  let type := type.getD llongCtype
  allocRl (svalTypeMin type) (svalTypeMax type)

def castRl (type : Option Ctype) (rl : RangeList) : RangeList :=
  match type with
  | none => rl
  | some type =>
    if rl = [] then []
    else if !rlIsSane rl then allocWholeRl (some type)
    else if rlType rl == some type && rlTypeConsistent rl then rl
    else if type = boolCtype then castToBool rl
    else
      let ret := rl.foldl (fun ret tmp => addRangeT type ret tmp.min tmp.max) []
      if ret = [] then allocWholeRl (some type) else ret

/-- `add_range`: values of another type are first brought to the wider of the two. -/
def addRange (list : RangeList) (min max : Sval) : RangeList :=
  match rlType list with
  | none => addRangeTyped list min max
  | some type =>
    if type = min.type then addRangeTyped list min max
    else if typeBits type ≥ typeBits min.type then
      addRangeTyped list (svalCast type min) (svalCast type max)
    else addRangeTyped (castRl (some min.type) list) min max

theorem addRange_typed {list : RangeList} {min : Sval} (max : Sval)
    (types : ∀ type, rlType list = some type → type = min.type) :
    addRange list min max = addRangeTyped list min max := by
  unfold addRange
  cases found : rlType list with
  | none => rfl
  | some type => exact if_pos (types type found)

namespace IntKind

def TooBig (source type : IntKind) (x : Int) : Prop :=
  ¬ (32 ≤ type.bits ∧ source.bits ≤ type.bits) ∧
    (2 ^ type.bits ≤ x ∨ x < if type.unsigned then -2 ^ type.bits else type.lo)

def Nicely (source type : IntKind) (low high : Int) : Prop :=
  type.bits < source.bits ∧ low / 2 ^ type.bits = high / 2 ^ type.bits

instance (source type : IntKind) (x : Int) : Decidable (TooBig source type x) :=
  inferInstanceAs (Decidable (_ ∧ _))

instance (source type : IntKind) (low high : Int) : Decidable (Nicely source type low high) :=
  inferInstanceAs (Decidable (_ ∧ _))

end IntKind

theorem svalTypeMax_uvalue (type : Ctype) : ((svalTypeMax type).uvalue : Int) = type.hi := by
  have word := (svalTypeMax type).uvalue_eq
  have bounds := type.kind.bounds
  rw [svalTypeMax_val] at word
  unfold Ctype.hi at *
  omega

theorem svalTypeMin_value (type : Ctype) : (svalTypeMin type).value = type.lo := by
  have word := (svalTypeMin type).value_eq
  have bounds := type.kind.bounds
  rw [svalTypeMin_val] at word
  unfold Ctype.lo at *
  omega

theorem svalTooBig_iff {source : Ctype} (type : Ctype) {sval : Sval} (typed : sval.OfType source) :
    svalTooBig type sval = true ↔ source.kind.TooBig type.kind sval.val := by
  obtain ⟨rfl, low, high⟩ := typed
  have word := sval.uvalue_eq
  have signed := sval.value_eq
  have top := svalTypeMax_uvalue type
  have signedTop := (svalTypeMax type).value_eq
  have bottom := svalTypeMin_value type
  have flipped : (~~~ sval.raw).toNat = 2 ^ 64 - 1 - sval.uvalue := BitVec.toNat_not
  have bounds := sval.type.kind.bounds
  have width := sval.type.kind.bits_le
  rw [svalTypeMax_val] at signedTop
  unfold svalTooBig typeSigned
  rw [flipped, bottom, signedTop]
  generalize (svalTypeMax type).uvalue = maximum at top ⊢
  generalize sval.uvalue = unsignedWord at word ⊢
  generalize sval.value = signedWord at signed ⊢
  unfold Ctype.lo Ctype.hi typeBits IntKind.TooBig at *
  obtain ⟨address, kind⟩ := type
  have unsignedLow := @IntKind.lo_of_unsigned sval.type.kind
  have signedHigh := @IntKind.hi_of_signed sval.type.kind
  unfold typeUnsigned
  simp only at top bottom
  generalize sval.type.kind.lo = sourceLow at *
  generalize sval.type.kind.hi = sourceHigh at *
  generalize sval.type.kind.bits = sourceBits at *
  by_cases exempt : 32 ≤ kind.bits ∧ sourceBits ≤ kind.bits
  · simp [exempt]
  have narrow : (decide (kind.bits ≥ 32) && decide (sourceBits ≤ kind.bits)) = false := by
    simpa using exempt
  rw [narrow]
  cases sign : sval.type.kind.unsigned with
  | true =>
    have zero := unsignedLow sign
    clear unsignedLow signedHigh
    cases kind <;>
      simp [IntKind.unsigned, IntKind.bits, IntKind.lo, IntKind.hi] at * <;> omega
  | false =>
    have small := signedHigh sign
    clear unsignedLow signedHigh
    cases kind <;>
      simp [IntKind.unsigned, IntKind.bits, IntKind.lo, IntKind.hi] at * <;> omega

theorem mask_toNat (word : BitVec 64) (width : Nat) :
    (word &&& BitVec.allOnes 64 <<< width).toNat = word.toNat / 2 ^ width * 2 ^ width % 2 ^ 64 := by
  rw [← BitVec.shiftLeft_ushiftRight, BitVec.toNat_shiftLeft, BitVec.toNat_ushiftRight,
    Nat.shiftRight_eq_div_pow, Nat.shiftLeft_eq]

theorem truncatesNicely_iff {source : Ctype} (type : Ctype) {min max : Sval}
    (low : min.OfType source) (high : max.OfType source) :
    truncatesNicely type min max = true ↔ source.kind.Nicely type.kind min.val max.val := by
  obtain ⟨rfl, lowMin, highMin⟩ := low
  obtain ⟨own, lowMax, highMax⟩ := high
  have wordMin := min.uvalue_eq
  have wordMax := max.uvalue_eq
  have bounds := min.type.kind.bounds
  have width := min.type.kind.bits_le
  have sign := min.type.kind.lo_eq_or_hi_lt
  unfold truncatesNicely IntKind.Nicely typeBits
  by_cases narrow : type.kind.bits < min.type.kind.bits
  · rw [if_neg (by omega), beq_iff_eq, ← BitVec.toNat_inj, mask_toNat, mask_toNat]
    unfold Ctype.lo Ctype.hi Sval.uvalue at *
    simp only [narrow, true_and]
    generalize min.type.kind.lo = sourceLow at *
    generalize min.type.kind.hi = sourceHigh at *
    generalize type.kind = kind at *
    have proper : kind.bits < 64 := by omega
    clear narrow width
    rcases sign with zero | small <;> cases kind <;> simp only [IntKind.bits] at proper ⊢ <;> omega
  · rw [if_pos (by omega)]
    simp only [Bool.false_eq_true, false_iff]
    exact fun found => narrow found.1

/-! ## What `add_range_t` adds -/

def negativeSet (type : Ctype) (low high : Int) : Set Int :=
  if 0 ≤ high then Set.Icc 0 (type.wrap high) ∪ Set.Icc (type.wrap low) type.hi
  else endsSet type (type.wrap low) (type.wrap high)

def highSet (type : Ctype) (low high : Int) : Set Int :=
  if 0 ≤ type.wrap low then Set.Icc (type.wrap low) type.hi ∪ Set.Icc type.lo (type.wrap high)
  else endsSet type (type.wrap low) (type.wrap high)

/-- The values `add_range_t` adds for a range of the source type, test by test. -/
def castEnds (source type : Ctype) (low high : Int) : Set Int :=
  if low = high ∨ (type.lo ≤ low ∧ high ≤ type.hi) ∨ source.kind.Nicely type.kind low high then
    endsSet type (type.wrap low) (type.wrap high)
  else if source.kind.TooBig type.kind low ∨ source.kind.TooBig type.kind high then
    Set.Icc type.lo type.hi
  else if low < 0 ∧ typeUnsigned type = true then
    if type.hi < high then Set.Icc type.lo type.hi else negativeSet type low high
  else if typeUnsigned source = true ∧ type.wrap high < 0 then highSet type low high
  else endsSet type (type.wrap low) (type.wrap high)

section AddRangeT

variable {source type : Ctype} {rl list : RangeList} {min max : Sval}

theorem Added.trans {first second : Set Int} {old middle list : RangeList}
    (one : Added type first old middle) (two : Added type second middle list) :
    Added type (first ∪ second) old list := by
  refine ⟨two.canonical, ?_⟩
  intro x
  rw [two.mem_iff, one.mem_iff, Set.mem_union]
  constructor
  · rintro (inside | inside | inside)
    · exact .inl (.inr inside)
    · exact .inl (.inl inside)
    · exact .inr inside
  · rintro ((inside | inside) | inside)
    · exact .inr (.inl inside)
    · exact .inl inside
    · exact .inr (.inr inside)

theorem Added.congr {first second : Set Int} {old list : RangeList}
    (added : Added type first old list) (same : first = second) : Added type second old list :=
  same ▸ added

theorem addRangeTyped_cast (min max : Sval) (canonical : Canonical type rl) :
    Added type (endsSet type (type.wrap min.val) (type.wrap max.val)) rl
      (addRangeTyped rl (svalCast type min) (svalCast type max)) := by
  rw [← svalCast_val, ← svalCast_val]
  exact addRangeTyped_added (svalCast_ofType type min) (svalCast_ofType type max) canonical

theorem addRangeTyped_whole (canonical : Canonical type rl) :
    Added type (Set.Icc type.lo type.hi) rl
      (addRangeTyped rl (svalTypeMin type) (svalTypeMax type)) := by
  have added := addRangeTyped_added (svalTypeMin_ofType type) (svalTypeMax_ofType type) canonical
  rwa [svalTypeMin_val, svalTypeMax_val, endsSet, if_pos type.lo_le_hi] at added

/-- The last `add_range` repeats a range that is there already. -/
theorem addRangeTyped_again {values : Set Int} (added : Added type values rl list)
    (low : min.OfType type) (high : max.OfType type)
    (present : endsSet type min.val max.val ⊆ values) :
    Added type values rl (addRangeTyped list (svalCast type min) (svalCast type max)) := by
  rw [svalCast_self low, svalCast_self high]
  have again := added.trans (addRangeTyped_added low high added.canonical)
  exact again.congr (Set.union_eq_self_of_subset_right present)

theorem endsSet_of_le {low high : Int} (order : low ≤ high) :
    endsSet type low high = Set.Icc low high :=
  if_pos order

/-- After one of the two sign branches: the values are in the list, and `min` and
`max` are ends of the target type that the list already holds. -/
structure Staged (type : Ctype) (values : Set Int) (rl : RangeList)
    (next : RangeList × Sval × Sval) : Prop where
  added : Added type values rl next.1
  low : next.2.1.OfType type
  high : next.2.2.OfType type
  present : endsSet type next.2.1.val next.2.2.val ⊆ values

theorem castNegative_staged (canonical : Canonical type rl) (unsigned : typeUnsigned type = true)
    (negative : min.val < 0) (fits : max.val ≤ type.hi) :
    Staged type (negativeSet type min.val max.val) rl (castNegative type rl min max) := by
  have test : (svalIsNegative min && typeUnsigned type) = true := by
    rw [(svalIsNegative_iff min).mpr negative, unsigned, Bool.and_self]
  have low := svalCast_ofType type min
  unfold castNegative negativeSet
  rw [if_pos test]
  by_cases positive : 0 ≤ max.val
  · rw [if_pos ((svalIsPositive_iff max).mpr positive), if_pos positive]
    have least : type.lo = 0 := IntKind.lo_of_unsigned unsigned
    have zero : (svalTypeVal type 0).val = 0 := by
      rw [Sval.val_of_unsigned unsigned]
      rfl
    have zeroTyped : (svalTypeVal type 0).OfType type :=
      ⟨rfl, by rw [zero, least], by rw [zero]; exact Int.le_trans positive fits⟩
    have first := addRangeTyped_added zeroTyped (svalCast_ofType type max) canonical
    have second := addRangeTyped_added low (svalTypeMax_ofType type) first.canonical
    have ends : endsSet type (svalCast type min).val (svalTypeMax type).val =
        Set.Icc (type.wrap min.val) type.hi := by
      rw [svalTypeMax_val, endsSet_of_le low.2.2, svalCast_val]
    rw [ends] at second
    rw [zero, svalCast_val, endsSet_of_le (by
      have bound := type.kind.wrap_bounds max.val
      unfold Ctype.lo at least
      unfold Ctype.wrap
      omega)] at first
    exact ⟨first.trans second, low, svalTypeMax_ofType type,
      ends ▸ Set.subset_union_right⟩
  · rw [if_neg (fun found => positive ((svalIsPositive_iff max).mp found)), if_neg positive]
    refine ⟨addRangeTyped_cast min max canonical, low, svalCast_ofType type max, ?_⟩
    rw [svalCast_val, svalCast_val]

theorem castHigh_staged (canonical : Canonical type rl) (unsigned : typeUnsigned max.type = true)
    (negative : type.wrap max.val < 0) :
    Staged type (highSet type min.val max.val) rl (castHigh type rl min max) := by
  have test : (svalUnsigned max && svalIsNegative (svalCast type max)) = true := by
    rw [svalUnsigned, unsigned, (svalIsNegative_iff _).mpr (by rwa [svalCast_val]), Bool.and_self]
  have low := svalCast_ofType type min
  have high := svalCast_ofType type max
  have sign := svalIsNegative_iff (svalCast type min)
  rw [svalCast_val] at sign
  unfold castHigh highSet
  rw [if_pos test]
  by_cases positive : 0 ≤ type.wrap min.val
  · have clear : svalIsNegative (svalCast type min) = false :=
      Bool.eq_false_iff.mpr (fun found => absurd (sign.mp found) (by omega))
    rw [clear, Bool.not_false, if_pos rfl, if_pos positive]
    have first := addRangeTyped_added low (svalTypeMax_ofType type) canonical
    have second := addRangeTyped_added (svalTypeMin_ofType type) high first.canonical
    have ends : endsSet type (svalTypeMin type).val (svalCast type max).val =
        Set.Icc type.lo (type.wrap max.val) := by
      rw [svalTypeMin_val, endsSet_of_le high.2.1, svalCast_val]
    rw [ends] at second
    rw [svalTypeMax_val, endsSet_of_le low.2.2, svalCast_val] at first
    exact ⟨first.trans second, svalTypeMin_ofType type, high, ends ▸ Set.subset_union_right⟩
  · rw [sign.mpr (by omega), Bool.not_true, if_neg Bool.false_ne_true, if_neg positive]
    refine ⟨addRangeTyped_cast min max canonical, low, high, ?_⟩
    rw [svalCast_val, svalCast_val]

/-- The second sign branch does nothing unless the cast of `max` is negative. -/
theorem castHigh_skip (skip : typeUnsigned max.type = true → ¬ type.wrap max.val < 0) :
    castHigh type rl min max = (rl, min, max) := by
  unfold castHigh
  apply if_neg
  intro test
  obtain ⟨unsigned, negative⟩ := Bool.and_eq_true_iff.mp test
  have below := (svalIsNegative_iff _).mp negative
  rw [svalCast_val] at below
  exact skip unsigned below

theorem castHigh_unsigned (unsigned : typeUnsigned type = true) :
    castHigh type rl min max = (rl, min, max) := by
  apply castHigh_skip
  intro _ below
  have bound := (svalCast_ofType type max).2.1
  have least : type.lo = 0 := IntKind.lo_of_unsigned unsigned
  rw [svalCast_val, least] at bound
  exact absurd below (by omega)

theorem castNegative_skip (skip : ¬ (min.val < 0 ∧ typeUnsigned type = true)) :
    castNegative type rl min max = (rl, min, max) := by
  unfold castNegative
  apply if_neg
  intro test
  obtain ⟨negative, unsigned⟩ := Bool.and_eq_true_iff.mp test
  exact skip ⟨(svalIsNegative_iff min).mp negative, unsigned⟩

theorem Staged.finish {values : Set Int} {next : RangeList × Sval × Sval}
    (staged : Staged type values rl next) :
    Added type values rl (addRangeTyped next.1 (svalCast type next.2.1) (svalCast type next.2.2)) :=
  addRangeTyped_again staged.added staged.low staged.high staged.present

theorem addRangeT_added (low : min.OfType source) (high : max.OfType source)
    (order : min.val ≤ max.val) (canonical : Canonical type rl) :
    Added type (castEnds source type min.val max.val) rl (addRangeT type rl min max) := by
  have single : svalCmp min max = 0 ↔ min.val = max.val := by
    rw [svalCmp_ofType low high, intCmp_eq_zero]
  have fits : (svalFits type min && svalFits type max) = true ↔
      type.lo ≤ min.val ∧ max.val ≤ type.hi := by
    rw [Bool.and_eq_true_iff, svalFits_iff type low, svalFits_iff type high]
    omega
  have nicely := truncatesNicely_iff type low high
  have tooBig : (svalTooBig type min || svalTooBig type max) = true ↔
      source.kind.TooBig type.kind min.val ∨ source.kind.TooBig type.kind max.val := by
    rw [Bool.or_eq_true_iff, svalTooBig_iff type low, svalTooBig_iff type high]
  have tooHigh : (svalIsNegative min && typeUnsigned type && svalIsPositive max &&
      svalTooHigh type max) = true ↔
      (min.val < 0 ∧ typeUnsigned type = true) ∧ type.hi < max.val := by
    have top := type.kind.bounds
    rw [Bool.and_eq_true_iff, Bool.and_eq_true_iff, Bool.and_eq_true_iff, svalIsNegative_iff,
      svalIsPositive_iff, svalTooHigh_iff]
    unfold Ctype.hi
    constructor
    · rintro ⟨⟨sign, -⟩, above⟩
      exact ⟨sign, above⟩
    · rintro ⟨sign, above⟩
      exact ⟨⟨sign, by omega⟩, above⟩
  unfold castEnds addRangeT
  by_cases one : min.val = max.val
  · rw [if_pos (single.mpr one), if_pos (.inl one)]
    exact addRangeTyped_cast min max canonical
  rw [if_neg (fun found => one (single.mp found))]
  by_cases inside : type.lo ≤ min.val ∧ max.val ≤ type.hi
  · rw [if_pos (fits.mpr inside), if_pos (.inr (.inl inside))]
    exact addRangeTyped_cast min max canonical
  rw [if_neg (fun found => inside (fits.mp found))]
  by_cases nice : source.kind.Nicely type.kind min.val max.val
  · rw [if_pos (nicely.mpr nice), if_pos (.inr (.inr nice))]
    exact addRangeTyped_cast min max canonical
  rw [if_neg (fun found => nice (nicely.mp found)), if_neg (by
    rintro (found | found | found)
    · exact one found
    · exact inside found
    · exact nice found)]
  by_cases big : source.kind.TooBig type.kind min.val ∨ source.kind.TooBig type.kind max.val
  · rw [if_pos (tooBig.mpr big), if_pos big]
    exact addRangeTyped_whole canonical
  rw [if_neg (fun found => big (tooBig.mp found)), if_neg big]
  by_cases negative : min.val < 0 ∧ typeUnsigned type = true
  · rw [if_pos negative]
    by_cases above : type.hi < max.val
    · rw [if_pos (tooHigh.mpr ⟨negative, above⟩), if_pos above]
      exact addRangeTyped_whole canonical
    · rw [if_neg (fun found => above (tooHigh.mp found).2), if_neg above]
      have staged := @castNegative_staged type rl min max canonical negative.2 negative.1 (by omega)
      simp only
      rw [castHigh_unsigned negative.2]
      exact staged.finish
  · rw [if_neg negative, if_neg (fun found => negative (tooHigh.mp found).1)]
    rw [castNegative_skip negative]
    by_cases wraps : typeUnsigned source = true ∧ type.wrap max.val < 0
    · rw [if_pos wraps]
      have staged := @castHigh_staged type rl min max canonical (by rw [high.1]; exact wraps.1)
        wraps.2
      exact staged.finish
    · rw [if_neg wraps]
      simp only
      rw [castHigh_skip (by
        intro unsigned found
        exact wraps ⟨by rw [← high.1]; exact unsigned, found⟩)]
      exact addRangeTyped_cast min max canonical

/-- A range of a wider signed type around zero whose upper end wraps to a negative
number that is not below the lower end. -/
def LosesValues (source type : Ctype) (low high : Int) : Prop :=
  typeUnsigned source = false ∧ typeUnsigned type = false ∧ typeBits type < typeBits source ∧
    type.lo ≤ low ∧ low < 0 ∧ high < 2 ^ typeBits type ∧ low + 2 ^ typeBits type ≤ high

instance (source type : Ctype) (low high : Int) : Decidable (LosesValues source type low high) :=
  inferInstanceAs (Decidable (_ ∧ _))

variable {low high : Int}

theorem image_of_block (block : type.kind.Block low high) (order : low ≤ high) :
    type.wrap '' Set.Icc low high = Set.Icc (type.wrap low) (type.wrap high) :=
  IntKind.image_of_block block order

theorem endsSet_of_block (block : type.kind.Block low high) (order : low ≤ high) :
    endsSet type (type.wrap low) (type.wrap high) = type.wrap '' Set.Icc low high := by
  have member : type.wrap low ∈ type.wrap '' Set.Icc low high :=
    ⟨low, ⟨Int.le_refl low, order⟩, rfl⟩
  rw [image_of_block block order] at member ⊢
  exact endsSet_of_le member.2

theorem endsSet_of_nicely (same : low / 2 ^ typeBits type = high / 2 ^ typeBits type)
    (order : low ≤ high) :
    endsSet type (type.wrap low) (type.wrap high) = Set.Icc type.lo type.hi ∨
      endsSet type (type.wrap low) (type.wrap high) = type.wrap '' Set.Icc low high := by
  by_cases ends : type.wrap low ≤ type.wrap high
  · exact .inr (endsSet_of_block (.of_nicely same order ends) order)
  · exact .inl (if_neg ends)

theorem image_split (middle : Int) (first : low ≤ middle + 1) (last : middle ≤ high) :
    type.wrap '' Set.Icc low middle ∪ type.wrap '' Set.Icc (middle + 1) high =
      type.wrap '' Set.Icc low high := by
  rw [← Set.image_union]
  congr 1
  ext x
  simp only [Set.mem_union, Set.mem_Icc]
  omega

theorem negativeSet_eq (unsigned : typeUnsigned type = true) (first : -2 ^ typeBits type ≤ low)
    (negative : low < 0) (order : low ≤ high) (fits : high ≤ type.hi) :
    negativeSet type low high = type.wrap '' Set.Icc low high := by
  unfold negativeSet
  by_cases positive : 0 ≤ high
  · have least : type.lo = 0 := IntKind.lo_of_unsigned unsigned
    have zero : type.wrap 0 = 0 :=
      IntKind.wrap_of_mem (Int.le_of_eq least) (Int.le_trans positive fits)
    have top : type.wrap (-1) = type.hi := IntKind.wrap_neg_one unsigned
    have lower := @image_of_block type low (-1)
      (.of_negative unsigned first (by omega) (by omega)) (by omega)
    have upper := @image_of_block type 0 high (.of_mem (Int.le_of_eq least) positive fits) positive
    rw [if_pos positive, ← @image_split type low high (-1) (by omega) (by omega), lower, top,
      show (-1 : Int) + 1 = 0 from rfl, upper, zero, Set.union_comm]
  · rw [if_neg positive]
    exact endsSet_of_block (.of_negative unsigned first order (by omega)) order

theorem highSet_eq (signed : typeUnsigned type = false) (first : 0 ≤ low) (order : low ≤ high)
    (above : type.hi < high) (last : high < 2 ^ typeBits type) :
    highSet type low high = type.wrap '' Set.Icc low high := by
  unfold highSet
  by_cases inside : low ≤ type.hi
  · have least : type.lo ≤ low := Int.le_trans type.kind.bounds.2.1 first
    have same : type.wrap low = low := IntKind.wrap_of_mem least inside
    have top : type.wrap type.hi = type.hi :=
      IntKind.wrap_of_mem type.lo_le_hi (Int.le_refl _)
    have bottom : type.wrap (type.hi + 1) = type.lo := IntKind.wrap_hi_succ signed
    have lower := @image_of_block type low type.hi (.of_mem least inside (Int.le_refl _)) inside
    have upper := @image_of_block type (type.hi + 1) high
      (.of_high (Int.lt_succ _) (by omega) last) (by omega)
    rw [if_pos (by rwa [same]), ← @image_split type low high type.hi (by omega) (by omega), lower,
      upper, top, bottom]
  · have block : type.kind.Block low high := .of_high (by
      unfold Ctype.hi at inside
      omega) order last
    have below : type.wrap low < 0 :=
      IntKind.wrap_negative signed (Int.lt_of_not_ge inside) (Int.lt_of_le_of_lt order last)
    rw [if_neg (Int.not_le.mpr below)]
    exact endsSet_of_block block order

/-- What is left when an end is not too big: it is below `2 ^ bits` and not far below zero. -/
theorem not_tooBig {x : Int} (first : source.lo ≤ x) (last : x ≤ source.hi)
    (small : ¬ source.kind.TooBig type.kind x) :
    x < 2 ^ typeBits type ∧ (typeUnsigned type = true → -2 ^ typeBits type ≤ x) ∧
      (typeUnsigned type = false → type.lo ≤ x) := by
  unfold typeBits typeUnsigned Ctype.lo Ctype.hi IntKind.TooBig at *
  by_cases wide : source.kind.bits ≤ type.kind.bits
  · obtain ⟨below, above, -⟩ := IntKind.bits_bounds wide
    have half := type.kind.half_bits
    refine ⟨by omega, fun _ => by omega, fun signed => ?_⟩
    have least := IntKind.lo_of_signed signed
    omega
  · cases sign : type.kind.unsigned <;> simp [sign, wide] at small ⊢ <;> omega

/-- Only a cast to a narrower type finds an end too big. -/
theorem IntKind.TooBig.narrow {x : Int} (first : source.lo ≤ x) (last : x ≤ source.hi)
    (big : source.kind.TooBig type.kind x) : typeBits type < typeBits source := by
  by_contra wide
  obtain ⟨below, above, -⟩ := IntKind.bits_bounds (Nat.not_lt.mp wide)
  have half := type.kind.half_bits
  obtain ⟨-, far⟩ := big
  unfold Ctype.lo Ctype.hi at *
  cases sign : type.kind.unsigned with
  | true =>
    rw [sign, if_pos rfl] at far
    omega
  | false =>
    have least := IntKind.lo_of_signed sign
    rw [sign, if_neg Bool.false_ne_true] at far
    omega

/-- Every range is converted exactly, or it is replaced by the whole of a narrower
type, or it is of the bad shape. -/
theorem castEnds_cases (first : source.lo ≤ low) (order : low ≤ high) (last : high ≤ source.hi) :
    typeBits type < typeBits source ∧ castEnds source type low high = Set.Icc type.lo type.hi ∨
      castEnds source type low high = type.wrap '' Set.Icc low high ∨
      LosesValues source type low high ∧
        castEnds source type low high = Set.Icc low (high - 2 ^ typeBits type) := by
  unfold castEnds
  by_cases kept : low = high ∨ (type.lo ≤ low ∧ high ≤ type.hi) ∨
      source.kind.Nicely type.kind low high
  · rw [if_pos kept]
    rcases kept with rfl | ⟨least, most⟩ | ⟨narrow, same⟩
    · exact .inr (.inl (endsSet_of_block rfl order))
    · exact .inr (.inl (endsSet_of_block (.of_mem least order most) order))
    · rcases endsSet_of_nicely same order with whole | image
      · exact .inl ⟨narrow, whole⟩
      · exact .inr (.inl image)
  rw [if_neg kept]
  by_cases big : source.kind.TooBig type.kind low ∨ source.kind.TooBig type.kind high
  · rw [if_pos big]
    rcases big with found | found
    · exact .inl ⟨found.narrow first (by omega), rfl⟩
    · exact .inl ⟨found.narrow (by omega) last, rfl⟩
  rw [if_neg big]
  obtain ⟨-, farUnsigned, farSigned⟩ := not_tooBig first (by omega) (fun found => big (.inl found))
  obtain ⟨near, -, -⟩ := not_tooBig (by omega) last (fun found => big (.inr found))
  by_cases negative : low < 0 ∧ typeUnsigned type = true
  · rw [if_pos negative]
    by_cases above : type.hi < high
    · -- A non-negative number below `2 ^ bits` fits an unsigned type.
      have top := type.hi_eq
      have least : type.lo = 0 := IntKind.lo_of_unsigned negative.2
      omega
    · rw [if_neg above]
      exact .inr (.inl (negativeSet_eq negative.2 (farUnsigned negative.2) negative.1 order
        (by omega)))
  rw [if_neg negative]
  by_cases wraps : typeUnsigned source = true ∧ type.wrap high < 0
  · rw [if_pos wraps]
    have zero : source.lo = 0 := IntKind.lo_of_unsigned wraps.1
    have positive : 0 ≤ low := by omega
    have signed : typeUnsigned type = false := by
      cases sign : typeUnsigned type with
      | false => rfl
      | true =>
        have least : type.lo = 0 := IntKind.lo_of_unsigned sign
        have bound : type.lo ≤ type.wrap high := (type.kind.wrap_bounds high).1
        omega
    have above : type.hi < high := by
      by_contra inside
      have least : type.lo ≤ 0 := type.kind.bounds.2.1
      have same : type.wrap high = high := IntKind.wrap_of_mem (by
        unfold Ctype.lo at least
        omega) (Int.not_lt.mp inside)
      omega
    exact .inr (.inl (highSet_eq signed positive order above near))
  · rw [if_neg wraps]
    cases sign : typeUnsigned type with
    | true =>
      -- Nothing is left for an unsigned type: the range would have fitted.
      have least : type.lo = 0 := IntKind.lo_of_unsigned sign
      have top := type.hi_eq
      exact absurd (.inr (.inl ⟨by
        have nonneg : ¬ low < 0 := fun found => negative ⟨found, sign⟩
        omega, by omega⟩)) kept
    | false =>
      have above : type.hi < high := by
        by_contra inside
        exact kept (.inr (.inl ⟨farSigned sign, Int.not_lt.mp inside⟩))
      have below := IntKind.wrap_negative sign above near
      have origin : typeUnsigned source = false :=
        Bool.eq_false_iff.mpr (fun found => wraps ⟨found, below⟩)
      have narrow : typeBits type < typeBits source := by
        by_contra wide
        obtain ⟨-, -, fits⟩ := IntKind.bits_bounds (Nat.not_lt.mp wide)
        have bound := fits origin
        have top := IntKind.hi_of_signed_eq sign
        unfold Ctype.hi at last above
        omega
      have spans : low < 0 := by
        by_contra nonneg
        refine kept (.inr (.inr ⟨narrow, ?_⟩))
        unfold typeBits at near
        rw [Int.ediv_eq_zero_of_lt (by omega) (by omega), Int.ediv_eq_zero_of_lt (by omega) near]
      have same : type.wrap low = low := IntKind.wrap_of_mem (farSigned sign) (by
        have top := type.kind.bounds.2.2.1
        omega)
      have shifted : type.wrap high = high - 2 ^ typeBits type :=
        IntKind.wrap_high sign above near
      rw [same, shifted]
      by_cases ends : low ≤ high - 2 ^ typeBits type
      · exact .inr (.inr ⟨⟨origin, sign, narrow, farSigned sign, spans, near, by omega⟩,
          endsSet_of_le ends⟩)
      · exact .inl ⟨narrow, if_neg ends⟩

/-- In a narrower signed type a range away from zero gives the whole type when it meets
two halves of the target's copies, and is converted exactly otherwise. -/
theorem castEnds_signed (sign : typeUnsigned type = false)
    (narrow : typeBits type < typeBits source) (order : low ≤ high)
    (nonzero : high < 0 ∨ 0 < low) :
    castEnds source type low high =
      if type.kind.SameHalf low high then type.wrap '' Set.Icc low high
      else Set.Icc type.lo type.hi := by
  unfold castEnds
  by_cases half : type.kind.SameHalf low high
  · rw [if_pos half, if_pos (.inr (.inr ⟨narrow, half.nicely⟩))]
    exact endsSet_of_block half.block order
  rw [if_neg half]
  by_cases nice : low / 2 ^ typeBits type = high / 2 ^ typeBits type
  · have reversed : type.wrap high < type.wrap low := IntKind.wrap_reversed sign nice order half
    rw [if_pos (.inr (.inr ⟨narrow, nice⟩))]
    exact if_neg (Int.not_le.mpr reversed)
  · rw [if_neg, if_pos]
    · have least := IntKind.lo_of_signed sign
      have double := type.kind.half_bits
      have positive : (0 : Int) < 2 ^ (type.kind.bits - 1) := Int.pow_pos (by decide)
      have wide : ¬ (32 ≤ type.kind.bits ∧ source.kind.bits ≤ type.kind.bits) :=
        fun found => absurd found.2 (Nat.not_le.mpr narrow)
      rcases IntKind.far_of_quotients nice order nonzero with far | far
      · refine .inl ⟨wide, .inr ?_⟩
        rw [if_neg (show ¬ type.kind.unsigned = true from Bool.eq_false_iff.mp sign)]
        omega
      · exact .inr ⟨wide, .inl far⟩
    · rintro (rfl | ⟨least, most⟩ | ⟨-, found⟩)
      · exact half rfl
      · exact half (.of_mem sign least order most nonzero)
      · exact nice found

/-- A range of the target type is added as it is. -/
theorem castEnds_self (first : type.lo ≤ low) (order : low ≤ high) (last : high ≤ type.hi) :
    castEnds type type low high = Set.Icc low high := by
  have lowSame : type.wrap low = low := IntKind.wrap_of_mem first (Int.le_trans order last)
  have highSame : type.wrap high = high := IntKind.wrap_of_mem (Int.le_trans first order) last
  rw [castEnds, if_pos (.inr (.inl ⟨first, last⟩)), lowSame, highSame, endsSet_of_le order]

end AddRangeT

end SmatchFormal.Ranges
