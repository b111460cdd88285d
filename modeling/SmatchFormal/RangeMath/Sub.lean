import SmatchFormal.RangeMath.Quadrants

/-!
# Differences of range lists

`rl_handle_sub` converts unsigned lists whose differences may be negative to the signed type
of their width, subtracts the quadrants and casts the result back.  A known comparison of the
two values raises the lower bound to zero and removes the values it excludes.
-/

namespace SmatchFormal.RangeMath

open SmatchFormal.Ranges SmatchFormal.Extra

/-! ## The code -/

def showSpecial : Comparison → List Char
  | .lt | .unsignedLt => ['<']
  | .lte | .unsignedLte => ['<', '=']
  | .equal => ['=', '=']
  | .notEqual => ['!', '=']
  | .gte | .unsignedGte => ['>', '=']
  | .gt | .unsignedGt => ['>']
  | .unknown => []
  | .impossible => [Char.ofNat 255]

def isGreater (comparison : Comparison) : Bool := (showSpecial comparison)[0]? == some '>'

def excludesEqual (comparison : Comparison) : Bool :=
  comparison != .unknown && (showSpecial comparison)[1]? != some '='

def getSignedEquivalent (type : Ctype) : Option Ctype :=
  match typePositiveBits type with
  | 32 => some intCtype
  | 64 => some llongCtype
  | _ => none

def subLowRight (comparison : Comparison) (left right : RangeList) : Sval :=
  if isGreater comparison && decide (svalCmp (rlMin left) (rlMax right) < 0) then rlMin left
  else rlMax right

def subRlHelper (comparison : Comparison) (left right : RangeList) : RangeList :=
  if left = [] ∨ right = [] then []
  else
    cornerRange .sub ⟨rlMin left, subLowRight comparison left right, rlMax left, rlMin right⟩ left

def isPositive (comparison : Comparison) (left right : RangeList) : Bool :=
  isGreater comparison && !hasNegativeInformation left && !hasNegativeInformation right

def subQuadrants (comparison : Comparison) (left right : RangeList) : RangeList :=
  let positive := isPositive comparison left right
  unionQuadrants (fun _ => subRlHelper comparison) (if positive then [] else getNegRl left)
    (getPosRl left) (if positive then [] else getNegRl right) (getPosRl right)

/-- The filters and the cast at the end; the type is that of the list before any cast. -/
def subFinish (type : Ctype) (comparison : Comparison) (left right ret : RangeList) : RangeList :=
  let ret :=
    if (rlType left).any (fun type => !typeUnsigned type) && isPositive comparison left right then
      rlFilter ret (allocRl (svalTypeMin type) ⟨type, -1⟩)
    else ret
  let ret := castRl (some type) ret
  if excludesEqual comparison then rlFilter ret (allocRl (type.ofInt 0) (type.ofInt 0)) else ret

def subSigned (type : Ctype) (comparison : Comparison) (left right : RangeList) : RangeList :=
  if getPosRl left ≠ [] ∧ svalIsMax (rlMax (getPosRl left)) ∧ comparison = .unknown then []
  else if getPosRl right ≠ [] ∧ svalIsMax (rlMax (getPosRl right)) ∧ comparison = .unknown then []
  else subFinish type comparison left right (subQuadrants comparison left right)

def rlHandleSub (left right : RangeList) (comparison : Comparison) : RangeList :=
  if (knownZero right).isSome then left
  else if isWholeRl left || isWholeRl right then []
  else
    match rlType left with
    | none => []
    | some type =>
      if typeUnsigned type && decide (svalCmp (rlMin left) (rlMax right) < 0) then
        match getSignedEquivalent type with
        | none => []
        | some signedType =>
          subSigned type comparison (castRl (some signedType) left)
            (castRl (some signedType) right)
      else subSigned type comparison left right

/-! ## When every difference is kept -/

def signedMax (type : Ctype) : Int := 2 ^ (typeBits type - 1) - 1

/-- The lists that may be equal and lose the zero: unsigned ones that are compared by `>=` and
overlap, neither of them all below or all above the other. -/
def LosesZero (type : Ctype) (left right : RangeList) (comparison : Comparison) : Prop :=
  typeUnsigned type = true ∧ (comparison = .gte ∨ comparison = .unsignedGte) ∧
    (rlMin left).val < (rlMax right).val ∧ (rlMin right).val < (rlMax left).val ∧
    ∃ x ∈ rlSet left, x ∈ rlSet right

section Comparisons

variable {comparison : Comparison} {l r : Int}

theorem le_of_greater (greater : isGreater comparison = true) (holds : comparison.Holds l r) :
    r ≤ l := by
  cases comparison with
  | gte => exact holds
  | unsignedGte => exact holds
  | gt => exact Int.le_of_lt holds
  | unsignedGt => exact Int.le_of_lt holds
  | _ => exact absurd greater (by decide)

theorem ne_of_excludes (excludes : excludesEqual comparison = true) (holds : comparison.Holds l r) :
    l ≠ r := by
  cases comparison with
  | lt => exact Int.ne_of_lt holds
  | unsignedLt => exact Int.ne_of_lt holds
  | gt => exact Int.ne_of_gt holds
  | unsignedGt => exact Int.ne_of_gt holds
  | impossible => exact holds.elim
  | _ => exact absurd excludes (by decide)

/-- A comparison by `>` keeps the zero only when it is `>=`. -/
theorem gte_of_greater (greater : isGreater comparison = true)
    (keeps : excludesEqual comparison = false) :
    comparison = .gte ∨ comparison = .unsignedGte := by
  cases comparison with
  | gte => exact .inl rfl
  | unsignedGte => exact .inr rfl
  | gt => exact absurd keeps (by decide)
  | unsignedGt => exact absurd keeps (by decide)
  | _ => exact absurd greater (by decide)

end Comparisons

section Widths

variable {type source : Ctype}

theorem wrap_sub_wrap (rank : IntRank type) (width : typeBits source = typeBits type) (l r : Int) :
    type.wrap (source.wrap (source.wrap l - source.wrap r)) = type.wrap (l - r) := by
  obtain ⟨address, kind⟩ := type
  obtain ⟨address', kind'⟩ := source
  unfold IntRank at rank
  unfold typeBits at rank width
  unfold Ctype.wrap
  cases kind <;> cases kind' <;>
    simp [IntKind.bits] at rank width <;>
    simp [IntKind.wrap, IntKind.unsigned, IntKind.bits] <;> omega

/-- A type holds the numbers up to the maximum of the signed type of its width. -/
theorem signedMax_le (rank : IntRank type) (width : typeBits source = typeBits type) :
    signedMax type ≤ source.hi ∧
      (typeUnsigned source = false →
        source.hi = signedMax type ∧ source.lo = -(signedMax type + 1)) ∧
      (typeUnsigned source = true → signedMax type < source.hi) := by
  have kinds : ∀ kind kind' : IntKind, 32 ≤ kind.bits → kind'.bits = kind.bits →
      (2 : Int) ^ (kind.bits - 1) - 1 ≤ kind'.hi ∧
        (kind'.unsigned = false → kind'.hi = 2 ^ (kind.bits - 1) - 1 ∧
          kind'.lo = -(2 ^ (kind.bits - 1) - 1 + 1)) ∧
        (kind'.unsigned = true → (2 : Int) ^ (kind.bits - 1) - 1 < kind'.hi) := by
    intro kind kind'
    cases kind <;> cases kind' <;> decide
  exact kinds type.kind source.kind rank width

theorem getSignedEquivalent_spec (rank : IntRank type) (unsigned : typeUnsigned type = true) :
    ∃ signedType, getSignedEquivalent type = some signedType ∧
      typeBits signedType = typeBits type ∧ typeUnsigned signedType = false := by
  have kinds : ∀ kind : IntKind, 32 ≤ kind.bits → kind.unsigned = true →
      kind.positiveBits = 32 ∧ kind.bits = 32 ∨ kind.positiveBits = 64 ∧ kind.bits = 64 := by
    intro kind
    cases kind <;> decide
  unfold getSignedEquivalent typePositiveBits
  rcases kinds type.kind rank unsigned with ⟨positive, bits⟩ | ⟨positive, bits⟩
  · rw [positive]
    exact ⟨intCtype, rfl, bits.symm, rfl⟩
  · rw [positive]
    exact ⟨llongCtype, rfl, bits.symm, rfl⟩

end Widths

section Helper

variable {source : Ctype} {left right : RangeList} {comparison : Comparison}

section

variable (first : Canonical source left) (second : Canonical source right)
include first second

theorem subLowRight_spec (someLeft : left ≠ []) (someRight : right ≠ []) :
    (subLowRight comparison left right).OfType source ∧
      (subLowRight comparison left right).val =
        if isGreater comparison = true ∧ (rlMin left).val < (rlMax right).val then (rlMin left).val
        else (rlMax right).val := by
  have low := rlMin_ofType first someLeft
  have high := rlMax_ofType second someRight
  unfold subLowRight
  rw [svalCmp_ofType low high]
  simp only [Bool.and_eq_true, decide_eq_true_eq, intCmp_lt_zero]
  split_ifs
  · exact ⟨low, rfl⟩
  · exact ⟨high, rfl⟩

/-- `sub_rl_helper` holds the differences that the comparison allows, modulo the width. -/
theorem subRlHelper_spec (rank : IntRank source) :
    OfKind source.kind (subRlHelper comparison left right) ∧
      ∀ l ∈ rlSet left, ∀ r ∈ rlSet right, (isGreater comparison = true → r ≤ l) →
        source.wrap (l - r) ∈ rlSet (subRlHelper comparison left right) := by
  unfold subRlHelper
  by_cases null : left = [] ∨ right = []
  · rw [if_pos null]
    refine ⟨OfKind.nil source.kind, fun l inLeft r inRight => ?_⟩
    exact (null.elim (nonempty_of_mem inLeft) (nonempty_of_mem inRight)).elim
  · rw [if_neg null]
    obtain ⟨someLeft, someRight⟩ := not_or.mp null
    obtain ⟨typed, value⟩ := @subLowRight_spec source left right comparison first second
      someLeft someRight
    obtain ⟨kind, members⟩ := @cornerRange_spec source left
      ⟨rlMin left, subLowRight comparison left right, rlMax left, rlMin right⟩ .sub _ rfl rank
      ⟨rlMin_ofType first someLeft, typed, rlMax_ofType first someLeft,
        rlMin_ofType second someRight⟩ first someLeft
    refine ⟨kind, fun l inLeft r inRight order => members _ ?_ ?_⟩
    · have lowLeft := rlMin_le first inLeft
      have highRight := le_rlMax second inRight
      dsimp only
      rw [value]
      split_ifs with greater
      · have less := order greater.1
        omega
      · omega
    · have highLeft := le_rlMax first inLeft
      have lowRight := rlMin_le second inRight
      exact Int.sub_le_sub highLeft lowRight

theorem subQuadrants_spec (rank : IntRank source)
    (parts : isGreater comparison = true → (∀ l ∈ rlSet left, 0 ≤ l) ∧ ∀ r ∈ rlSet right, 0 ≤ r) :
    OfKind source.kind (subQuadrants comparison left right) ∧
      ∀ l ∈ rlSet left, ∀ r ∈ rlSet right, (isGreater comparison = true → r ≤ l) →
        source.wrap (l - r) ∈ rlSet (subQuadrants comparison left right) := by
  have all : subQuadrants comparison left right =
      unionQuadrants (fun _ => subRlHelper comparison) (getNegRl left) (getPosRl left)
        (getNegRl right) (getPosRl right) := by
    unfold subQuadrants isPositive
    cases greater : isGreater comparison with
    | false => rfl
    | true =>
      obtain ⟨nonnegLeft, nonnegRight⟩ := parts greater
      rw [(nonneg_parts first nonnegLeft).1, (nonneg_parts second nonnegRight).1]
      simp only [ite_self]
  have helper := fun quadrant : PosNeg =>
    @subRlHelper_spec source _ _ comparison (left_kept first quadrant).canonical
      (right_kept second quadrant).canonical rank
  obtain ⟨kind, members⟩ := unionQuadrants_ofKind fun quadrant => (helper quadrant).1
  rw [all]
  refine ⟨kind, fun l inLeft r inRight order => (members _).mpr ?_⟩
  obtain ⟨quadrant, signLeft, signRight⟩ := PosNeg.exists_quadrant l r
  exact ⟨quadrant, (helper quadrant).2 l (((left_kept first quadrant).mem_iff l).mpr
    ⟨inLeft, signLeft⟩) r (((right_kept second quadrant).mem_iff r).mpr ⟨inRight, signRight⟩) order⟩

theorem subQuadrants_overlap (rank : IntRank source) (nonnegLeft : ∀ l ∈ rlSet left, 0 ≤ l)
    (nonnegRight : ∀ r ∈ rlSet right, 0 ≤ r) (someLeft : left ≠ []) (someRight : right ≠ [])
    (greater : isGreater comparison = true) (less : (rlMin left).val < (rlMax right).val)
    (meet : (rlMin right).val ≤ (rlMax left).val) :
    OfKind source.kind (subQuadrants comparison left right) ∧
      ∀ x, x ∈ rlSet (subQuadrants comparison left right) ↔
        0 ≤ x ∧ x ≤ (rlMax left).val - (rlMin right).val := by
  obtain ⟨noneLeft, canonicalLeft, setLeft⟩ := nonneg_parts first nonnegLeft
  obtain ⟨noneRight, canonicalRight, setRight⟩ := nonneg_parts second nonnegRight
  have endsLeft := ends_of_rlSet canonicalLeft first setLeft someLeft
  have endsRight := ends_of_rlSet canonicalRight second setRight someRight
  have filledLeft : getPosRl left ≠ [] := nonempty_of_mem (setLeft ▸ rlMin_mem first someLeft)
  have filledRight : getPosRl right ≠ [] := nonempty_of_mem (setRight ▸ rlMin_mem second someRight)
  obtain ⟨typed, value⟩ := @subLowRight_spec source _ _ comparison canonicalLeft canonicalRight
    filledLeft filledRight
  rw [endsLeft.1, endsRight.2, if_pos ⟨greater, less⟩] at value
  have bottom : source.lo ≤ 0 := source.kind.bounds.2.1
  have top : 0 ≤ source.hi := Int.le_trans (by decide) source.kind.bounds.2.2.1
  have low := nonnegRight _ (rlMin_mem second someRight)
  have high := (first.mem_type (rlMax_mem first someLeft)).2
  obtain ⟨kind, members⟩ := @cornerRange_fits source (getPosRl left)
    ⟨rlMin (getPosRl left), subLowRight comparison (getPosRl left) (getPosRl right),
      rlMax (getPosRl left), rlMin (getPosRl right)⟩ .sub _ rfl rank
    ⟨rlMin_ofType canonicalLeft filledLeft, typed, rlMax_ofType canonicalLeft filledLeft,
      rlMin_ofType canonicalRight filledRight⟩
    (by
      dsimp only
      rw [value, endsLeft.1]
      omega)
    (by
      dsimp only
      rw [endsLeft.2, endsRight.1]
      omega)
  have helper : subRlHelper comparison (getPosRl left) (getPosRl right) =
      cornerRange .sub ⟨rlMin (getPosRl left), subLowRight comparison (getPosRl left)
        (getPosRl right), rlMax (getPosRl left), rlMin (getPosRl right)⟩ (getPosRl left) :=
    if_neg (not_or.mpr ⟨filledLeft, filledRight⟩)
  rw [← helper] at kind members
  obtain ⟨union, values⟩ := @unionQuadrants_nonneg source.kind (getPosRl left) (getPosRl right)
    (fun _ => subRlHelper comparison) (fun _ _ _ null => if_pos null) kind
  unfold subQuadrants
  rw [noneLeft, noneRight]
  simp only [ite_self]
  refine ⟨union, fun x => (values x).trans ((members x).trans ?_)⟩
  rw [value, endsLeft.1, endsLeft.2, endsRight.1, endsSet_of_le (by omega), Set.mem_Icc,
    Int.sub_self]

end

end Helper

section Finish

variable {type source : Ctype} {left right ret : RangeList} {comparison : Comparison}

/-- What the filter for negative results removes from a signed list: for an unsigned type its
ends are swapped by the cast, and it removes zero. -/
def CutNegative (type : Ctype) (x : Int) : Prop :=
  if typeUnsigned type = true then -1 ≤ x ∧ x ≤ 0 else x < 0

/-- No value of a type, whatever its bits are, is below the least one. -/
theorem allocRl_typeMin (rank : IntRank type) (raw : BitVec 64) :
    allocRl (svalTypeMin type) ⟨type, raw⟩ = [⟨svalTypeMin type, ⟨type, raw⟩⟩] := by
  have kind : (svalCmpType (svalTypeMin type) ⟨type, raw⟩).kind = type.kind := by
    rw [svalCmpType_kind, (svalTypeMin_ofType type).1]
    unfold IntKind.compared
    unfold IntRank typeBits at rank
    rw [if_neg (Nat.lt_irrefl _)]
    exact if_neg (by omega)
  have order : ¬ svalCmp (svalTypeMin type) ⟨type, raw⟩ > 0 := by
    have keep : type.kind.wrap type.lo = type.lo :=
      IntKind.wrap_of_mem (Int.le_refl _) type.lo_le_hi
    rw [svalCmp_eq, intCmp_gt_zero, not_lt, svalTypeMin_val]
    unfold Ctype.wrap
    rw [kind, keep]
    exact (type.kind.wrap_bounds _).1
  unfold allocRl addRangeTyped
  rw [if_neg order, if_neg order]
  rfl

theorem negFilter_kept (rank : IntRank type) (width : typeBits source = typeBits type)
    (sign : typeUnsigned source = false) (canonical : Canonical source ret) :
    Kept source ret (rlFilter ret (allocRl (svalTypeMin type) ⟨type, -1⟩))
      fun x => ¬ CutNegative type x := by
  have sourceEnds := (@signedMax_le type source rank width).2.1 sign
  have typeEnds := (@signedMax_le type type rank rfl).2.1
  have positive : 0 ≤ signedMax type := by
    rw [← sourceEnds.1]
    exact Int.le_trans (by decide) source.kind.bounds.2.2.1
  have sourceRank : IntRank source := by
    unfold IntRank
    rw [width]
    exact rank
  have low : (svalCast source (svalTypeMin type)).val =
      if typeUnsigned type = true then 0 else source.lo := by
    rw [svalCast_val, svalTypeMin_val]
    split_ifs with unsigned
    · have bottom : type.lo = 0 := IntKind.lo_of_unsigned unsigned
      rw [bottom]
      exact IntKind.wrap_of_mem source.kind.bounds.2.1
        (Int.le_trans (by decide) source.kind.bounds.2.2.1)
    · rw [(typeEnds (Bool.not_eq_true _ |>.mp unsigned)).2, ← sourceEnds.2]
      exact IntKind.wrap_of_mem (Int.le_refl _) source.lo_le_hi
  have high : (svalCast source ⟨type, -1⟩).val = -1 := by
    have same : (⟨type, -1⟩ : Sval).val % 2 ^ 64 = (-1) % 2 ^ 64 := (val_emod _).trans rfl
    rw [svalCast_val, wrap_congr (rank_ne_bool sourceRank) same]
    exact IntKind.wrap_of_mem (by change source.lo ≤ -1; omega)
      (Int.le_trans (by decide) source.kind.bounds.2.2.1)
  have kept := removeRange_kept canonical (svalTypeMin type) ⟨type, -1⟩
  rw [low, high] at kept
  rw [allocRl_typeMin rank]
  refine ⟨kept.canonical, fun x => (kept.mem_iff x).trans (and_congr_right fun member => ?_)⟩
  have bottom := (canonical.mem_type member).1
  unfold CutNegative
  by_cases unsigned : typeUnsigned type = true
  · rw [if_pos unsigned, if_pos unsigned]
    exact Iff.rfl
  · rw [if_neg unsigned, if_neg unsigned, inf_eq_left.mpr (by omega), sup_eq_right.mpr (by omega)]
    omega

theorem subFinish_spec (rank : IntRank type) (width : typeBits source = typeBits type)
    (canonical : Canonical source left) (some : left ≠ []) (kind : OfKind source.kind ret) :
    Canonical type (subFinish type comparison left right ret) ∧
      ∀ y, y ∈ rlSet (subFinish type comparison left right ret) ↔
        (∃ x ∈ rlSet ret, (typeUnsigned source = false → isPositive comparison left right = true →
          ¬ CutNegative type x) ∧ type.wrap x = y) ∧ (excludesEqual comparison = true → y ≠ 0) := by
  obtain ⟨other, kinds, inner⟩ := kind
  have signs : typeUnsigned other = typeUnsigned source := by
    unfold typeUnsigned
    rw [kinds]
  have bits : typeBits other = typeBits type := by
    rw [← width]
    unfold typeBits
    rw [kinds]
  have filtered : ∃ list, (if (rlType left).any (fun type => !typeUnsigned type) &&
        isPositive comparison left right then
        rlFilter ret (allocRl (svalTypeMin type) ⟨type, -1⟩) else ret) = list ∧
      Kept other ret list fun x => typeUnsigned source = false →
        isPositive comparison left right = true → ¬ CutNegative type x := by
    refine ⟨_, rfl, ?_⟩
    rw [rlType_of_canonical canonical some]
    simp only [Option.any_some, Bool.and_eq_true, Bool.not_eq_true']
    split_ifs with both
    · have kept := negFilter_kept rank bits (signs.trans both.1) inner
      exact ⟨kept.canonical, fun x => (kept.mem_iff x).trans
        (and_congr_right fun _ => ⟨fun cut _ _ => cut, fun cut => cut both.1 both.2⟩)⟩
    · exact ⟨inner, fun x => (and_iff_left fun sign positive => absurd ⟨sign, positive⟩ both).symm⟩
  obtain ⟨list, same, kept⟩ := filtered
  obtain ⟨castCanonical, -⟩ := @castRl_spec other type list kept.canonical
  have castSet := castRl_wide kept.canonical (Nat.le_of_eq bits)
  unfold subFinish
  rw [same]
  dsimp only
  have members : ∀ y, y ∈ rlSet (castRl (Option.some type) list) ↔
      ∃ x ∈ rlSet ret, (typeUnsigned source = false → isPositive comparison left right = true →
        ¬ CutNegative type x) ∧ type.wrap x = y := by
    intro y
    rw [castSet, Set.mem_image]
    simp only [kept.mem_iff, and_assoc]
  split_ifs with excludes
  · have final := rlFilter_zero castCanonical (zero_val type) (zero_ofType type)
    refine ⟨final.canonical, fun y => (final.mem_iff y).trans ?_⟩
    rw [members]
    exact and_congr_right fun _ => ⟨fun nonzero _ => nonzero, fun nonzero => nonzero excludes⟩
  · refine ⟨castCanonical, fun y => (members y).trans ?_⟩
    exact (and_iff_left fun impossible => absurd impossible excludes).symm

end Finish

section Signed

variable {type source : Ctype} {left right : RangeList} {comparison : Comparison}

theorem subSigned_unknown (rank : IntRank type) (width : typeBits source = typeBits type)
    (first : Canonical source left) (second : Canonical source right) :
    subSigned type .unknown left right = [] ∨ ∀ l ∈ rlSet left, ∀ r ∈ rlSet right,
      type.wrap (source.wrap (l - r)) ∈ rlSet (subSigned type .unknown left right) := by
  have sourceRank : IntRank source := by
    unfold IntRank
    rw [width]
    exact rank
  unfold subSigned
  split_ifs with maxLeft maxRight
  · exact .inl rfl
  · exact .inl rfl
  · right
    intro l inLeft r inRight
    obtain ⟨kind, members⟩ := @subQuadrants_spec source left right .unknown first second sourceRank
      (fun impossible => absurd impossible (by decide))
    refine ((subFinish_spec rank width first (nonempty_of_mem inLeft) kind).2 _).mpr
      ⟨⟨_, members l inLeft r inRight (fun impossible => absurd impossible (by decide)),
        fun _ positive => ?_, rfl⟩, fun impossible => absurd impossible (by decide)⟩
    exact absurd positive (by simp [isPositive, isGreater, showSpecial])

theorem subSigned_given (given : comparison ≠ .unknown) :
    subSigned type comparison left right =
      subFinish type comparison left right (subQuadrants comparison left right) := by
  unfold subSigned
  rw [if_neg fun both => given both.2.2, if_neg fun both => given both.2.2]

/-- A difference of numbers up to the signed maximum is zero only for equal numbers. -/
theorem wrap_ne_zero (rank : IntRank type) {x : Int} (low : -signedMax type ≤ x)
    (high : x ≤ signedMax type) (nonzero : x ≠ 0) : type.wrap x ≠ 0 := by
  obtain ⟨address, kind⟩ := type
  unfold IntRank at rank
  unfold signedMax at low high
  unfold typeBits at rank low high
  unfold Ctype.wrap
  cases kind <;> simp [IntKind.bits] at rank low high <;>
    simp [IntKind.wrap, IntKind.unsigned, IntKind.bits] <;> omega

/-- With a comparison a difference is kept, unless it is the zero of an unsigned type. -/
theorem subSigned_contains (rank : IntRank type) (width : typeBits source = typeBits type)
    (first : Canonical source left) (second : Canonical source right)
    (smallLeft : ∀ l ∈ rlSet left, 0 ≤ l ∧ l ≤ signedMax type)
    (smallRight : ∀ r ∈ rlSet right, 0 ≤ r ∧ r ≤ signedMax type)
    (apart : typeUnsigned source = true → (rlMax right).val ≤ (rlMin left).val)
    (given : comparison ≠ .unknown) {l r : Int} (inLeft : l ∈ rlSet left)
    (inRight : r ∈ rlSet right) (holds : comparison.Holds l r)
    (keeps : typeUnsigned source = false → typeUnsigned type = true →
      isGreater comparison = true → l ≠ r) :
    type.wrap (l - r) ∈ rlSet (subSigned type comparison left right) := by
  have sourceRank : IntRank source := by
    unfold IntRank
    rw [width]
    exact rank
  obtain ⟨topSource, signedEnds, unsignedEnds⟩ := @signedMax_le type source rank width
  obtain ⟨nonnegLeft, maxLeft⟩ := smallLeft l inLeft
  obtain ⟨nonnegRight, maxRight⟩ := smallRight r inRight
  have same : source.wrap (l - r) = l - r := by
    refine IntKind.wrap_of_mem ?_ ?_
    · cases sign : typeUnsigned source with
      | false =>
        have bottom := (signedEnds sign).2
        change source.lo ≤ _
        omega
      | true =>
        have order := apart sign
        have lowLeft := rlMin_le first inLeft
        have highRight := le_rlMax second inRight
        exact Int.le_trans source.kind.bounds.2.1 (by omega)
    · change _ ≤ source.hi
      omega
  obtain ⟨kind, members⟩ := @subQuadrants_spec source left right comparison first second sourceRank
    (fun _ => ⟨fun l member => (smallLeft l member).1, fun r member => (smallRight r member).1⟩)
  have member := members l inLeft r inRight fun greater => le_of_greater greater holds
  rw [same] at member
  rw [subSigned_given given]
  refine ((subFinish_spec rank width first (nonempty_of_mem inLeft) kind).2 _).mpr
    ⟨⟨l - r, member, fun sign positive => ?_, rfl⟩, fun excludes => ?_⟩
  · have greater : isGreater comparison = true := by
      unfold isPositive at positive
      simp only [Bool.and_eq_true] at positive
      exact positive.1.1
    have order := le_of_greater greater holds
    unfold CutNegative
    split_ifs with unsigned
    · have differ := keeps sign unsigned greater
      omega
    · omega
  · have differ := ne_of_excludes excludes holds
    exact wrap_ne_zero rank (by omega) (by omega) (by omega)

theorem hasNegativeInformation_nonneg (canonical : Canonical source left)
    (nonneg : ∀ l ∈ rlSet left, 0 ≤ l) : hasNegativeInformation left = false := by
  cases left with
  | nil => rfl
  | cons drange rest =>
    have low := nonneg _ (rlMin_mem canonical (List.cons_ne_nil _ _))
    have positive : svalIsNegative drange.min = false := by
      rw [Bool.eq_false_iff, Ne, svalIsNegative_iff]
      exact not_lt.mpr low
    unfold hasNegativeInformation
    exact if_pos (by rw [positive]; rfl)

/-- The differences of overlapping unsigned lists for `>=`: zero is lost. -/
theorem subSigned_overlap (rank : IntRank type) (width : typeBits source = typeBits type)
    (unsigned : typeUnsigned type = true) (sign : typeUnsigned source = false)
    (first : Canonical source left) (second : Canonical source right)
    (smallLeft : ∀ l ∈ rlSet left, 0 ≤ l ∧ l ≤ signedMax type)
    (smallRight : ∀ r ∈ rlSet right, 0 ≤ r ∧ r ≤ signedMax type)
    (someLeft : left ≠ []) (someRight : right ≠ [])
    (compared : comparison = .gte ∨ comparison = .unsignedGte)
    (less : (rlMin left).val < (rlMax right).val) (meet : (rlMin right).val ≤ (rlMax left).val) :
    Canonical type (subSigned type comparison left right) ∧
      ∀ y, y ∈ rlSet (subSigned type comparison left right) ↔
        1 ≤ y ∧ y ≤ (rlMax left).val - (rlMin right).val := by
  have sourceRank : IntRank source := by
    unfold IntRank
    rw [width]
    exact rank
  have greater : isGreater comparison = true := by
    rcases compared with rfl | rfl <;> rfl
  have keeps : excludesEqual comparison = false := by
    rcases compared with rfl | rfl <;> rfl
  have given : comparison ≠ .unknown := by
    rcases compared with rfl | rfl <;> decide
  have nonnegLeft := fun l member => (smallLeft l member).1
  have nonnegRight := fun r member => (smallRight r member).1
  have positive : isPositive comparison left right = true := by
    unfold isPositive
    rw [greater, hasNegativeInformation_nonneg first nonnegLeft,
      hasNegativeInformation_nonneg second nonnegRight]
    rfl
  obtain ⟨kind, members⟩ := subQuadrants_overlap first second sourceRank nonnegLeft nonnegRight
    someLeft someRight greater less meet
  obtain ⟨canonical, values⟩ := @subFinish_spec type source left right _ comparison rank width first
    someLeft kind
  rw [subSigned_given given]
  refine ⟨canonical, fun y => (values y).trans ?_⟩
  have top := (smallLeft _ (rlMax_mem first someLeft)).2
  have low := nonnegRight _ (rlMin_mem second someRight)
  have range := (@signedMax_le type type rank rfl).1
  have keep : ∀ x, 0 ≤ x → x ≤ (rlMax left).val - (rlMin right).val → type.wrap x = x :=
    fun x above below => IntKind.wrap_of_mem (Int.le_trans type.kind.bounds.2.1 above)
      (by change x ≤ type.hi; omega)
  have cut : ∀ x, ¬ CutNegative type x ↔ ¬ (-1 ≤ x ∧ x ≤ 0) := by
    intro x
    unfold CutNegative
    rw [if_pos unsigned]
  simp only [members, keeps, sign, positive, cut, forall_const, Bool.false_eq_true, false_implies,
    and_true]
  constructor
  · rintro ⟨x, ⟨above, below⟩, other, rfl⟩
    rw [keep x above below]
    omega
  · rintro ⟨above, below⟩
    exact ⟨y, ⟨by omega, below⟩, by omega, keep y (by omega) below⟩

end Signed

section Difference

variable {type : Ctype} {left right : RangeList} {comparison : Comparison}

/-- A list of numbers up to the signed maximum is the same list of the signed type. -/
theorem castRl_signed {source : Ctype} (rank : IntRank type)
    (width : typeBits source = typeBits type)
    (canonical : Canonical type left) (small : ∀ l ∈ rlSet left, 0 ≤ l ∧ l ≤ signedMax type) :
    Canonical source (castRl (some source) left) ∧
      rlSet (castRl (some source) left) = rlSet left := by
  have top := (@signedMax_le type source rank width).1
  refine ⟨(castRl_spec canonical).1, ?_⟩
  rw [castRl_wide canonical (Nat.le_of_eq width.symm)]
  have keep : ∀ l ∈ rlSet left, source.wrap l = l := fun l member =>
    IntKind.wrap_of_mem (Int.le_trans source.kind.bounds.2.1 (small l member).1)
      (Int.le_trans (small l member).2 top)
  exact (Set.image_congr keep).trans (Set.image_id' _)

theorem rlHandleSub_unknown (first : Canonical type left) (second : Canonical type right)
    (rank : IntRank type) :
    rlHandleSub left right .unknown = [] ∨ ∀ l ∈ rlSet left, ∀ r ∈ rlSet right,
      type.wrap (l - r) ∈ rlSet (rlHandleSub left right .unknown) := by
  have keep : ∀ (list : RangeList), Canonical type list → ∀ x ∈ rlSet list, type.wrap x = x :=
    fun list canonical x member => IntKind.wrap_of_mem (canonical.mem_type member).1
      (canonical.mem_type member).2
  unfold rlHandleSub
  cases zero : knownZero right with
  | some sval =>
    right
    intro l inLeft r inRight
    have single := ((knownZero_eq_some second zero).2.2 r).mp inRight
    rw [single, Int.sub_zero, keep left first l inLeft]
    exact inLeft
  | none =>
    rw [Option.isSome_none, if_neg Bool.false_ne_true]
    split_ifs with whole
    · exact .inl rfl
    · by_cases some : left = []
      · subst some
        exact .inl rfl
      rw [rlType_of_canonical first some]
      dsimp only
      split_ifs with signed
      · rw [Bool.and_eq_true] at signed
        obtain ⟨source, equivalent, width, sign⟩ := getSignedEquivalent_spec rank signed.1
        rw [equivalent]
        dsimp only
        have imageLeft := @castRl_wide type source left first (Nat.le_of_eq width.symm)
        have imageRight := @castRl_wide type source right second (Nat.le_of_eq width.symm)
        refine (subSigned_unknown rank width (castRl_spec first).1
          (castRl_spec second).1).imp_right fun contains l inLeft r inRight => ?_
        have member := contains (source.wrap l) (imageLeft ▸ Set.mem_image_of_mem _ inLeft)
          (source.wrap r) (imageRight ▸ Set.mem_image_of_mem _ inRight)
        rwa [wrap_sub_wrap rank width] at member
      · refine (subSigned_unknown rank rfl first second).imp_right
          fun contains l inLeft r inRight => ?_
        have member := contains l inLeft r inRight
        have same := wrap_sub_wrap rank (rfl : typeBits type = typeBits type) l r
        rw [keep left first l inLeft, keep right second r inRight] at same
        rwa [same] at member

/-- Unsigned lists after the cast: the difference is missing exactly where the zero is lost. -/
theorem subSigned_iff {source : Ctype} (rank : IntRank type)
    (width : typeBits source = typeBits type) (unsigned : typeUnsigned type = true)
    (sign : typeUnsigned source = false) (first : Canonical type left)
    (second : Canonical type right) (smallLeft : ∀ l ∈ rlSet left, 0 ≤ l ∧ l ≤ signedMax type)
    (smallRight : ∀ r ∈ rlSet right, 0 ≤ r ∧ r ≤ signedMax type) (someLeft : left ≠ [])
    (someRight : right ≠ []) (given : comparison ≠ .unknown)
    (less : (rlMin left).val < (rlMax right).val) :
    (subSigned type comparison (castRl (some source) left) (castRl (some source) right) = [] ∨
        ∀ l ∈ rlSet left, ∀ r ∈ rlSet right, comparison.Holds l r →
          type.wrap (l - r) ∈ rlSet (subSigned type comparison (castRl (some source) left)
            (castRl (some source) right))) ↔
      ¬ LosesZero type left right comparison := by
  obtain ⟨canonicalLeft, setLeft⟩ := castRl_signed rank width first smallLeft
  obtain ⟨canonicalRight, setRight⟩ := castRl_signed rank width second smallRight
  have castSmallLeft : ∀ l ∈ rlSet (castRl (some source) left), 0 ≤ l ∧ l ≤ signedMax type := by
    rw [setLeft]
    exact smallLeft
  have castSmallRight : ∀ r ∈ rlSet (castRl (some source) right), 0 ≤ r ∧ r ≤ signedMax type := by
    rw [setRight]
    exact smallRight
  have endsLeft := ends_of_rlSet canonicalLeft first setLeft someLeft
  have endsRight := ends_of_rlSet canonicalRight second setRight someRight
  by_cases overlap : (comparison = .gte ∨ comparison = .unsignedGte) ∧
      ∃ x ∈ rlSet left, x ∈ rlSet right
  · obtain ⟨compared, x, inLeft, inRight⟩ := overlap
    have lowRight := rlMin_le second inRight
    have highLeft := le_rlMax first inLeft
    obtain ⟨canonical, members⟩ := subSigned_overlap rank width unsigned sign canonicalLeft
      canonicalRight castSmallLeft castSmallRight
      (nonempty_of_mem (setLeft ▸ inLeft)) (nonempty_of_mem (setRight ▸ inRight)) compared
      (by rw [endsLeft.1, endsRight.2]; exact less)
      (by rw [endsLeft.2, endsRight.1]; exact Int.le_trans lowRight highLeft)
    rw [endsLeft.2, endsRight.1] at members
    by_cases wide : (rlMin right).val < (rlMax left).val
    · refine iff_of_false ?_ (not_not.mpr ⟨unsigned, compared, less, wide, x, inLeft, inRight⟩)
      rintro (empty | contains)
      · exact nonempty_of_mem ((members 1).mpr ⟨Int.le_refl _, by omega⟩) empty
      · have holds : comparison.Holds x x := by
          rcases compared with rfl | rfl
          · exact Int.le_refl x
          · exact Int.le_refl x
        have member := contains x inLeft x inRight holds
        have zero : type.wrap (x - x) = 0 := by
          rw [Int.sub_self]
          exact IntKind.wrap_of_mem type.kind.bounds.2.1
            (Int.le_trans (by decide) type.kind.bounds.2.2.1)
        rw [zero, members] at member
        exact absurd member.1 (by decide)
    · refine iff_of_true (.inl ?_) fun loses => wide loses.2.2.2.1
      by_contra filled
      obtain ⟨y, member⟩ := exists_mem_of_ne_nil canonical filled
      have bounds := (members y).mp member
      omega
  · refine iff_of_true (.inr fun l inLeft r inRight holds => ?_) fun loses =>
      overlap ⟨loses.2.1, loses.2.2.2.2⟩
    refine subSigned_contains rank width canonicalLeft canonicalRight castSmallLeft castSmallRight
      (fun other => absurd other (by rw [sign]; decide)) given (setLeft ▸ inLeft)
      (setRight ▸ inRight) holds fun _ _ greater same => ?_
    cases excludes : excludesEqual comparison with
    | true => exact ne_of_excludes excludes holds same
    | false => exact overlap ⟨gte_of_greater greater excludes, l, inLeft, same ▸ inRight⟩

/-- `rl_handle_sub` is null or holds every difference of values with the comparison, modulo the
width, exactly when the zero is not lost. -/
theorem rlHandleSub_contains_iff (first : Canonical type left) (second : Canonical type right)
    (rank : IntRank type) (comparison : Comparison)
    (small : comparison ≠ .unknown → (∀ l ∈ rlSet left, 0 ≤ l ∧ l ≤ signedMax type) ∧
      ∀ r ∈ rlSet right, 0 ≤ r ∧ r ≤ signedMax type) :
    (rlHandleSub left right comparison = [] ∨ ∀ l ∈ rlSet left, ∀ r ∈ rlSet right,
        comparison.Holds l r → type.wrap (l - r) ∈ rlSet (rlHandleSub left right comparison)) ↔
      ¬ LosesZero type left right comparison := by
  by_cases given : comparison = .unknown
  · subst given
    refine iff_of_true ((rlHandleSub_unknown first second rank).imp_right
      fun contains l inLeft r inRight _ => contains l inLeft r inRight) ?_
    rintro ⟨-, compared | compared, -⟩
    · cases compared
    · cases compared
  obtain ⟨smallLeft, smallRight⟩ := small given
  by_cases null : left = [] ∨ right = []
  · refine iff_of_true (.inr fun l inLeft r inRight => ?_) ?_
    · exact (null.elim (nonempty_of_mem inLeft) (nonempty_of_mem inRight)).elim
    · rintro ⟨-, -, -, -, x, inLeft, inRight⟩
      exact null.elim (nonempty_of_mem inLeft) (nonempty_of_mem inRight)
  obtain ⟨someLeft, someRight⟩ := not_or.mp null
  obtain ⟨topType, -, unsignedTop⟩ := @signedMax_le type type rank rfl
  have notWhole : ∀ list : RangeList, Canonical type list →
      (∀ x ∈ rlSet list, 0 ≤ x ∧ x ≤ signedMax type) → isWholeRl list = false := by
    intro list canonical bounded
    rw [Bool.eq_false_iff, Ne, isWholeRl_iff canonical]
    intro whole
    have low := bounded _ (whole type.lo (Int.le_refl _) type.lo_le_hi)
    have high := bounded _ (whole type.hi type.lo_le_hi (Int.le_refl _))
    rcases Bool.eq_false_or_eq_true (typeUnsigned type) with unsigned | sign
    · have more := unsignedTop unsigned
      omega
    · have bottom := ((@signedMax_le type type rank rfl).2.1 sign).2
      omega
  unfold rlHandleSub
  cases zero : knownZero right with
  | some sval =>
    have single := (knownZero_eq_some second zero).2.2
    refine iff_of_true (.inr fun l inLeft r inRight holds => ?_) ?_
    · have keep : type.wrap l = l := IntKind.wrap_of_mem (first.mem_type inLeft).1
        (first.mem_type inLeft).2
      rw [(single r).mp inRight, Int.sub_zero, keep]
      exact inLeft
    · rintro ⟨-, -, less, -⟩
      have low := (smallLeft _ (rlMin_mem first someLeft)).1
      have high := (single _).mp (rlMax_mem second someRight)
      omega
  | none =>
    rw [Option.isSome_none, if_neg Bool.false_ne_true, notWhole left first smallLeft,
      notWhole right second smallRight, Bool.or_self, if_neg Bool.false_ne_true,
      rlType_of_canonical first someLeft,
      svalCmp_ofType (rlMin_ofType first someLeft) (rlMax_ofType second someRight)]
    simp only [Bool.and_eq_true, decide_eq_true_eq, intCmp_lt_zero]
    by_cases signed : typeUnsigned type = true ∧ (rlMin left).val < (rlMax right).val
    · obtain ⟨unsigned, less⟩ := signed
      obtain ⟨source, equivalent, width, sign⟩ := getSignedEquivalent_spec rank unsigned
      rw [if_pos ⟨unsigned, less⟩, equivalent]
      exact subSigned_iff rank width unsigned sign first second smallLeft smallRight someLeft
        someRight given less
    · rw [if_neg signed]
      refine iff_of_true (.inr fun l inLeft r inRight holds => ?_) fun loses =>
        signed ⟨loses.1, loses.2.2.1⟩
      refine subSigned_contains rank rfl first second smallLeft smallRight (fun unsigned => ?_)
        given inLeft inRight holds fun sign unsigned => ?_
      · exact not_lt.mp fun less => signed ⟨unsigned, less⟩
      · exact absurd unsigned (by rw [sign]; decide)

/-- The theorem for `5-9` and `2-7` with `>=`. -/
theorem rlHandleSub_contains_iff_small :
    (rlHandleSub [⟨intCtype.ofInt 5, intCtype.ofInt 9⟩] [⟨intCtype.ofInt 2, intCtype.ofInt 7⟩]
          .gte = [] ∨
        ∀ l ∈ rlSet [⟨intCtype.ofInt 5, intCtype.ofInt 9⟩],
          ∀ r ∈ rlSet [⟨intCtype.ofInt 2, intCtype.ofInt 7⟩], Comparison.gte.Holds l r →
            intCtype.wrap (l - r) ∈ rlSet (rlHandleSub [⟨intCtype.ofInt 5, intCtype.ofInt 9⟩]
              [⟨intCtype.ofInt 2, intCtype.ofInt 7⟩] .gte)) ↔
      ¬ LosesZero intCtype [⟨intCtype.ofInt 5, intCtype.ofInt 9⟩]
        [⟨intCtype.ofInt 2, intCtype.ofInt 7⟩] .gte :=
  @rlHandleSub_contains_iff intCtype _ _ (by decide) (by decide) (by decide) .gte
    (by
      intro given
      constructor
      · intro l inside
        rw [rlSet_singleton] at inside
        exact ⟨Int.le_trans (by decide) inside.1, Int.le_trans inside.2 (by decide)⟩
      · intro r inside
        rw [rlSet_singleton] at inside
        exact ⟨Int.le_trans (by decide) inside.1, Int.le_trans inside.2 (by decide)⟩)

/-- Of two unsigned numbers up to ten, the first not below the second, the difference is said
not to be zero. -/
theorem rlHandleSub_misses :
    IntRank uintCtype ∧ Canonical uintCtype [⟨uintCtype.ofInt 0, uintCtype.ofInt 10⟩] ∧
      5 ∈ rlSet [⟨uintCtype.ofInt 0, uintCtype.ofInt 10⟩] ∧ Comparison.gte.Holds (5 : Int) 5 ∧
      rlHandleSub [⟨uintCtype.ofInt 0, uintCtype.ofInt 10⟩]
        [⟨uintCtype.ofInt 0, uintCtype.ofInt 10⟩] .gte ≠ [] ∧
      (5 : Int) - 5 ∉ rlSet (rlHandleSub [⟨uintCtype.ofInt 0, uintCtype.ofInt 10⟩]
        [⟨uintCtype.ofInt 0, uintCtype.ofInt 10⟩] .gte) := by
  decide

end Difference

end SmatchFormal.RangeMath
