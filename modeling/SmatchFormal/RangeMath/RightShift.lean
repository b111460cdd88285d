import SmatchFormal.RangeMath.BinopSound

/-!
# Right shifts of expressions

`handle_right_shift` takes the least value shifted by the largest count and the greatest value
shifted by the least count.  These are the ends of the shifted values unless there are negative
ones, which go up with the count.
-/

namespace SmatchFormal.RangeMath

open SmatchFormal.Ranges SmatchFormal.Extra SmatchFormal.Lib.Quotients

inductive Implied
  | rlExact
  | rlHard
  | rlFuzzy
  | rlImplied
  | rlAbsolute
  | rlRealAbsolute
  deriving DecidableEq, Repr

/-- The values of the left side, or those from zero on when nothing is known. -/
def shiftEnds (implied : Implied) (leftType : Ctype) : Option RangeList → Option (Sval × Sval)
  | some leftRl => some (rlMin leftRl, rlMax leftRl)
  | none =>
    if implied = .rlFuzzy then none
    else some (svalTypeVal leftType 0, svalTypeMax leftType)

/-- `handle_right_shift`; the two lists are what `get_rl_internal` gives for the two sides, and
`none` is the result `false`. -/
def handleRightShift (implied : Implied) (leftType : Ctype) (leftRl rightRl : Option RangeList) :
    Option RangeList :=
  if implied = .rlExact ∨ implied = .rlHard then none
  else
    match shiftEnds implied leftType leftRl with
    | none => none
    | some (min, max) =>
      match rightRl.filter fun rl => !svalIsNegative (rlMin rl) with
      | some rightRl =>
        some (allocRl (svalBinop min .rightShift (rlMax rightRl))
          (svalBinop max .rightShift (rlMin rightRl)))
      | none =>
        if !svalIsNegative min then some (allocRl { min with raw := 0 } (svalTypeMax max.type))
        else none

/-- No value is negative; or the promoted type is signed and there is one count, or the negative
values are shifted to minus one, or the ends come out the wrong way round. -/
def ShiftEndsFit (promoted : Ctype) (lo hi : Int) (least most : Nat) : Prop :=
  0 ≤ lo ∨ typeUnsigned promoted = false ∧
    (least = most ∨ -2 ^ least ≤ lo ∨ hi / 2 ^ least < lo / 2 ^ most)

section RightShift

variable {type source : Ctype} {left right : RangeList} {implied : Implied}

/-- The type of the result has the values of the left type, unless these can be negative and it
is unsigned. -/
theorem promoted_has (rank : IntRank type) (source : Ctype) :
    type.hi ≤ (getPromotedType type source).hi ∧
      (typeUnsigned (getPromotedType type source) = true →
        (getPromotedType type source).lo = 0) ∧
      (typeUnsigned (getPromotedType type source) = false →
        (getPromotedType type source).lo ≤ type.lo ∧ type.hi < 2 ^ 63) := by
  obtain ⟨address, kind⟩ := type
  obtain ⟨address', kind'⟩ := source
  revert rank
  cases kind <;> cases kind' <;>
    simp [IntRank, typeBits, typeUnsigned, getPromotedType, typePositiveBits, Ctype.lo, Ctype.hi,
      IntKind.lo, IntKind.hi, IntKind.positiveBits, IntKind.bits, IntKind.unsigned, intCtype]

/-- A value shifted by `sval_binop`, where the result has its sign. -/
theorem rightShift_val {sval shift : Sval} {s : Nat} (rank : IntRank type)
    (typed : sval.OfType type) (count : shift.OfType source) (value : shift.val = s)
    (sign : 0 ≤ sval.val ∨ typeUnsigned (getPromotedType type source) = false) :
    (svalBinop sval .rightShift shift).OfType (getPromotedType type source) ∧
      (svalBinop sval .rightShift shift).val = sval.val / 2 ^ s := by
  have result := svalBinop_ofType sval .rightShift shift
  rw [typed.1, count.1] at result
  refine ⟨result, ?_⟩
  obtain ⟨top, unsigned, signed⟩ := promoted_has rank source
  obtain ⟨own, low, high⟩ := typed
  have word : shift.raw.toNat = s := by
    rw [raw_toNat_eq (by omega)]
    omega
  have between := ediv_between sval.val (d := 2 ^ s) (pow_pos (by decide) s)
  have promoted : getPromotedType sval.type shift.type = getPromotedType type source := by
    rw [own, count.1]
  cases kind : typeUnsigned (getPromotedType type source) with
  | true =>
    have zero := unsigned kind
    have nonneg : 0 ≤ sval.val := sign.resolve_right (by simp [kind])
    rw [svalBinop_rightShift_val nonneg (Or.inr (promoted ▸ kind)), promoted, word]
    exact IntKind.wrap_of_mem (by change (getPromotedType type source).lo ≤ _; omega)
      (by change _ ≤ (getPromotedType type source).hi; omega)
  | false =>
    obtain ⟨bottom, less⟩ := signed kind
    have least := type.kind.bounds.1
    change -2 ^ 63 ≤ type.lo at least
    have zeros := (getPromotedType type source).kind.bounds
    rw [svalBinop_rightShift_signed (promoted ▸ kind), promoted, word,
      value_of_bounds (by omega) (by omega)]
    exact IntKind.wrap_of_mem
      (by change (getPromotedType type source).lo ≤ _
          have zero : (getPromotedType type source).lo ≤ 0 := zeros.2.1
          omega)
      (by change _ ≤ (getPromotedType type source).hi
          have one : 1 ≤ (getPromotedType type source).hi := zeros.2.2.1
          omega)

theorem shifted_between {lo hi l : Int} {a b s : Nat} (low : lo ≤ l) (high : l ≤ hi)
    (least : a ≤ s) (most : s ≤ b) (fit : 0 ≤ lo ∨ a = b ∨ -2 ^ a ≤ lo) :
    lo / 2 ^ b ≤ l / 2 ^ s ∧ l / 2 ^ s ≤ hi / 2 ^ a := by
  have positive : (0 : Int) < 2 ^ s := pow_pos (by decide) s
  have lower : lo / 2 ^ b ≤ lo / 2 ^ s := by
    rcases le_or_gt 0 lo with nonneg | negative
    · exact ediv_pow_anti nonneg most
    · have down := ((ediv_pow_mono negative (Nat.le_trans least most)).2).mpr
        (fit.resolve_left (by omega))
      exact Int.le_trans down (ediv_pow_mono negative least).1
  have upper : hi / 2 ^ s ≤ hi / 2 ^ a := by
    rcases le_or_gt 0 hi with nonneg | negative
    · exact ediv_pow_anti nonneg least
    · have down := ((ediv_pow_mono negative (Nat.le_trans least most)).2).mpr
        ((fit.resolve_left (by omega)).imp id fun last => by omega)
      exact Int.le_trans (ediv_pow_mono negative most).1 down
  exact ⟨Int.le_trans lower (Int.ediv_le_ediv positive low),
    Int.le_trans (Int.ediv_le_ediv positive high) upper⟩

/-- The list between the shifted ends has every shifted value exactly when `ShiftEndsFit`
holds. -/
theorem endsSet_contains_iff {lo hi : Int} {a b : Nat} (rank : IntRank type)
    (bounds : type.lo ≤ lo ∧ lo ≤ hi ∧ hi ≤ type.hi) (order : a ≤ b)
    (sign : 0 ≤ lo ∨ typeUnsigned (getPromotedType type source) = false) {values counts : Set Int}
    (within : ∀ l ∈ values, lo ≤ l ∧ l ≤ hi) (least : lo ∈ values)
    (between : ∀ s ∈ counts, (a : Int) ≤ s ∧ s ≤ b) (start : (a : Int) ∈ counts) :
    (∀ l ∈ values, ∀ s ∈ counts,
      l / 2 ^ s.toNat ∈ endsSet (getPromotedType type source) (lo / 2 ^ b) (hi / 2 ^ a)) ↔
      ShiftEndsFit (getPromotedType type source) lo hi a b := by
  obtain ⟨top, unsigned, signed⟩ := promoted_has rank source
  unfold ShiftEndsFit endsSet
  by_cases ordered : lo / 2 ^ b ≤ hi / 2 ^ a
  · rw [if_pos ordered]
    constructor
    · intro contains
      rcases le_or_gt 0 lo with nonneg | negative
      · exact Or.inl nonneg
      · have inside := (contains lo least a start).1
        rw [Int.toNat_natCast] at inside
        exact Or.inr ⟨sign.resolve_left (by omega),
          (((ediv_pow_mono negative order).2).mp inside).imp id Or.inl⟩
    · rintro fit l member s count
      have fits : 0 ≤ lo ∨ a = b ∨ -2 ^ a ≤ lo := by
        rcases fit with nonneg | ⟨-, same | last | less⟩
        · exact Or.inl nonneg
        · exact Or.inr (Or.inl same)
        · exact Or.inr (Or.inr last)
        · omega
      have counted := between s count
      exact shifted_between (within l member).1 (within l member).2 (by omega) (by omega) fits
  · rw [if_neg ordered]
    have whole : 0 ≤ lo ∨ typeUnsigned (getPromotedType type source) = false ∧
        (a = b ∨ -2 ^ a ≤ lo ∨ hi / 2 ^ a < lo / 2 ^ b) :=
      sign.imp id fun kind => ⟨kind, Or.inr (Or.inr (Int.not_le.mp ordered))⟩
    refine iff_of_true (fun l member s count => ?_) whole
    have sides := within l member
    have part := ediv_between l (d := 2 ^ s.toNat) (pow_pos (by decide) s.toNat)
    have zeros := (getPromotedType type source).kind.bounds
    have zero : (getPromotedType type source).lo ≤ 0 := zeros.2.1
    have one : 1 ≤ (getPromotedType type source).hi := zeros.2.2.1
    constructor
    · rcases sign with nonneg | kind
      · omega
      · have bottom := (signed kind).1
        omega
    · omega

/-- The interval has every shifted value exactly when `ShiftEndsFit` holds. -/
theorem handleRightShift_contains_iff (first : Canonical type left) (rank : IntRank type)
    (second : Canonical source right) (some : left ≠ []) (other : right ≠ [])
    (counts : ∀ s ∈ rlSet right, 0 ≤ s ∧ s < typeBits type)
    (computed : implied ≠ .rlExact ∧ implied ≠ .rlHard) :
    ∃ res, handleRightShift implied type (.some left) (.some right) = .some res ∧
      ((∀ l ∈ rlSet left, ∀ s ∈ rlSet right, l / 2 ^ s.toNat ∈ rlSet res) ↔
        ShiftEndsFit (getPromotedType type source) (rlMin left).val (rlMax left).val
          (rlMin right).val.toNat (rlMax right).val.toNat) := by
  have leftMin := rlMin_ofType first some
  have leftMax := rlMax_ofType first some
  have rightMin := rlMin_ofType second other
  have rightMax := rlMax_ofType second other
  have least := counts _ (rlMin_mem second other)
  have most := counts _ (rlMax_mem second other)
  have order := rlMin_le second (rlMax_mem second other)
  have ends := rlMin_le first (rlMax_mem first some)
  have nonneg : svalIsNegative (rlMin right) = false := by
    rw [← Bool.not_eq_true, svalIsNegative_iff]
    omega
  refine ⟨allocRl (svalBinop (rlMin left) .rightShift (rlMax right))
    (svalBinop (rlMax left) .rightShift (rlMin right)), ?_, ?_⟩
  · unfold handleRightShift shiftEnds
    rw [if_neg (by tauto)]
    simp [Option.filter, nonneg]
  · by_cases sign : 0 ≤ (rlMin left).val ∨ typeUnsigned (getPromotedType type source) = false
    · obtain ⟨lowTyped, low⟩ := @rightShift_val type source _ _ (rlMax right).val.toNat rank leftMin
        rightMax (by omega) sign
      obtain ⟨highTyped, high⟩ := @rightShift_val type source _ _ (rlMin right).val.toNat rank
        leftMax rightMin (by omega) (sign.imp (fun start => by omega) id)
      have members := (allocRl_spec lowTyped highTyped).2
      simp only [members, low, high]
      refine endsSet_contains_iff rank ⟨leftMin.2.1, ends, leftMax.2.2⟩ (by omega) sign
        (fun l member => ⟨rlMin_le first member, le_rlMax first member⟩) (rlMin_mem first some)
        (fun s member => ?_) ?_
      · have low := rlMin_le second member
        have high := le_rlMax second member
        omega
      · rw [Int.toNat_of_nonneg least.1]
        exact rlMin_mem second other
    · obtain ⟨negative, unsigned⟩ := not_or.mp sign
      have zero := (promoted_has rank source).2.1 (Bool.not_eq_false _ |>.mp unsigned)
      refine iff_of_false (fun contains => ?_) (fun fit => sign (fit.imp id And.left))
      have lowTyped := svalBinop_ofType (rlMin left) .rightShift (rlMax right)
      have highTyped := svalBinop_ofType (rlMax left) .rightShift (rlMin right)
      rw [leftMin.1, rightMax.1] at lowTyped
      rw [leftMax.1, rightMin.1] at highTyped
      have canonical := (allocRl_spec lowTyped highTyped).1
      have inside := (canonical.mem_type
        (contains _ (rlMin_mem first some) _ (rlMin_mem second other))).1
      have below : (rlMin left).val / 2 ^ (rlMin right).val.toNat < 0 :=
        Int.ediv_neg_of_neg_of_pos (by omega) (pow_pos (by decide) _)
      omega

/-- The theorem for `0-100` and counts `0-4`. -/
theorem handleRightShift_contains_iff_small :
    ∃ res, handleRightShift .rlAbsolute intCtype (.some [⟨intCtype.ofInt 0, intCtype.ofInt 100⟩])
        (.some [⟨intCtype.ofInt 0, intCtype.ofInt 4⟩]) = .some res ∧
      ((∀ l ∈ rlSet [⟨intCtype.ofInt 0, intCtype.ofInt 100⟩],
          ∀ s ∈ rlSet [⟨intCtype.ofInt 0, intCtype.ofInt 4⟩], l / 2 ^ s.toNat ∈ rlSet res) ↔
        ShiftEndsFit (getPromotedType intCtype intCtype)
          (rlMin [⟨intCtype.ofInt 0, intCtype.ofInt 100⟩]).val
          (rlMax [⟨intCtype.ofInt 0, intCtype.ofInt 100⟩]).val
          (rlMin [⟨intCtype.ofInt 0, intCtype.ofInt 4⟩]).val.toNat
          (rlMax [⟨intCtype.ofInt 0, intCtype.ofInt 4⟩]).val.toNat) :=
  handleRightShift_contains_iff (by decide) (by decide) (@id (Canonical intCtype _) (by decide))
    (by decide) (by decide)
    (by
      rw [rlSet_singleton]
      intro s member
      have low : (intCtype.ofInt 0).val = 0 := by decide
      have high : (intCtype.ofInt 4).val = 4 := by decide
      rw [low, high] at member
      have bits : typeBits intCtype = 32 := by decide
      rw [bits]
      exact ⟨member.1, by have last := member.2; omega⟩)
    (by decide)

/-- `-100-100` shifted by `0-4` gives `-7-100`, although -100 shifted by zero is -100. -/
theorem handleRightShift_misses :
    handleRightShift .rlAbsolute intCtype
        (.some [⟨intCtype.ofInt (-100), intCtype.ofInt 100⟩])
        (.some [⟨intCtype.ofInt 0, intCtype.ofInt 4⟩]) =
      .some [⟨intCtype.ofInt (-7), intCtype.ofInt 100⟩] ∧
    -100 ∈ rlSet [⟨intCtype.ofInt (-100), intCtype.ofInt 100⟩] ∧
    0 ∈ rlSet [⟨intCtype.ofInt 0, intCtype.ofInt 4⟩] ∧
    -100 / 2 ^ 0 ∉ rlSet [⟨intCtype.ofInt (-7), intCtype.ofInt 100⟩] := by
  decide

end RightShift

end SmatchFormal.RangeMath
