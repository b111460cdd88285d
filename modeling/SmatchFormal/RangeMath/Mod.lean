import SmatchFormal.RangeMath.Add
import SmatchFormal.RangeMath.Mult

/-!
# Remainders of range lists

`rl_handle_mod` takes the remainders of the quadrants; the negative ones are multiplied by
minus one before and after.  For an unsigned type there is one quadrant, but two calls return
the left list as it is, by the greatest values of the lists alone.
-/

namespace SmatchFormal.RangeMath

open SmatchFormal.Ranges SmatchFormal.Extra

/-! ## The code -/

def minusOneRl : RangeList := allocRl (intCtype.ofInt (-1)) (intCtype.ofInt (-1))

def negateRl (rl : RangeList) : RangeList := rlBinopOf rlHandleMult .mul rl minusOneRl

def modPosPos (left right : RangeList) : RangeList :=
  let right := cutZero .posPos right
  if left = [] ∨ right = [] then []
  else
    let max := subOne (rlMax right)
    if svalCmp (rlMax left) max < 0 then left
    else allocRl (rlVal left 0) max

def modRlHelper (quadrant : PosNeg) (left right : RangeList) : RangeList :=
  match quadrant with
  | .posPos => modPosPos left right
  | .posNeg =>
    if left = [] ∨ right = [] then []
    else negateRl (modPosPos left (negateRl right))
  | .negPos =>
    let right := cutZero .negPos right
    if left = [] ∨ right = [] then []
    else negateRl (modPosPos (negateRl left) right)
  | .negNeg =>
    if left = [] ∨ right = [] then []
    else modPosPos (negateRl left) (negateRl right)

def rlHandleMod (left right : RangeList) : RangeList :=
  match knownZero left with
  | some sval => allocRl sval sval
  | none =>
    if isWholeRl right then
      allocRl (if svalIsNegative (rlMin left) then rlMin left else rlVal left 0) (rlMax left)
    else if svalIsMax (rlMax right) then left
    else
      let information := hasNegativeInformation left || hasNegativeInformation right
      unionQuadrants modRlHelper (if information then getNegRl left else []) (getPosRl left)
        (if information then getNegRl right else []) (getPosRl right)

/-- Where the left list is returned as it is, it has the remainders. -/
def ModSound (type : Ctype) (left right : RangeList) : Prop :=
  isWholeRl right = false →
    ((rlMax right).val = type.hi ∨ (rlMax left).val < (rlMax right).val - 1) →
      ∀ l ∈ rlSet left, ∀ r ∈ rlSet right, r ≠ 0 → l % r ∈ rlSet left

section Unsigned

variable {type : Ctype} {left right : RangeList}

/-- Values of an unsigned type are not negative. -/
theorem nonneg_of_mem (unsigned : typeUnsigned type = true) (canonical : Canonical type left)
    {x : Int} (member : x ∈ rlSet left) : 0 ≤ x := by
  have bottom : type.lo = 0 := IntKind.lo_of_unsigned unsigned
  exact bottom ▸ (canonical.mem_type member).1

/-- The remainders of the quadrant: the left list, or all numbers below the greatest divisor. -/
theorem modPosPos_spec (unsigned : typeUnsigned type = true) (first : Canonical type left)
    (second : Canonical type right) (someLeft : left ≠ [])
    (some : ∃ r ∈ rlSet right, r ≠ 0) :
    Canonical type (modPosPos left right) ∧
      ∀ x, x ∈ rlSet (modPosPos left right) ↔
        if (rlMax left).val < (rlMax right).val - 1 then x ∈ rlSet left
        else 0 ≤ x ∧ x ≤ (rlMax right).val - 1 := by
  have bottom : type.lo = 0 := IntKind.lo_of_unsigned unsigned
  have kept := @cutZero_kept type right .posPos second fun r => nonneg_of_mem unsigned second
  obtain ⟨r, inRight, nonzero⟩ := some
  have member := (kept.mem_iff r).mpr ⟨inRight, nonzero⟩
  have someRight : cutZero .posPos right ≠ [] := nonempty_of_mem member
  have maxTyped := rlMax_ofType kept.canonical someRight
  have maxMem := (kept.mem_iff _).mp (rlMax_mem kept.canonical someRight)
  -- zero is cut only below the greatest divisor
  have same : (rlMax (cutZero .posPos right)).val = (rlMax right).val := by
    refine Int.le_antisymm (le_rlMax second maxMem.1) ?_
    have top := rlMax_mem second (nonempty_of_mem inRight)
    have above := le_rlMax second inRight
    have low := nonneg_of_mem unsigned second inRight
    exact le_rlMax kept.canonical ((kept.mem_iff _).mpr ⟨top, by omega⟩)
  have positive : type.lo < (rlMax (cutZero .posPos right)).val := by
    have low := nonneg_of_mem unsigned second maxMem.1
    have other := maxMem.2
    omega
  have typed := subOne_ofType maxTyped positive
  have value := subOne_val maxTyped positive
  rw [same] at value
  have zero : rlVal left 0 = type.ofInt 0 := rlVal_eq first someLeft 0
  unfold modPosPos
  dsimp only
  rw [if_neg (not_or.mpr ⟨someLeft, someRight⟩), svalCmp_ofType (rlMax_ofType first someLeft) typed,
    zero]
  simp only [intCmp_lt_zero, value]
  split_ifs with less
  · exact ⟨first, fun x => Iff.rfl⟩
  · obtain ⟨result, members⟩ := allocRl_spec (zero_ofType type) typed
    refine ⟨result, fun x => ?_⟩
    rw [members, zero_val, value, endsSet_of_le (by omega), Set.mem_Icc]

theorem modPosPos_null (second : Canonical type right)
    (null : left = [] ∨ ∀ r ∈ rlSet right, r = 0) : modPosPos left right = [] := by
  unfold modPosPos
  refine if_pos (null.imp_right fun zero => ?_)
  by_contra filled
  have kept : Kept type right (cutZero .posPos right) (· ≠ 0) :=
    rlFilter_zero second (zero_val intCtype) (zero_ofType intCtype)
  obtain ⟨r, member⟩ := exists_mem_of_ne_nil kept.canonical filled
  obtain ⟨inRight, nonzero⟩ := (kept.mem_iff r).mp member
  exact nonzero (zero r inRight)

theorem modRlHelper_null (quadrant : PosNeg) (left right : RangeList)
    (null : left = [] ∨ right = []) : modRlHelper quadrant left right = [] := by
  have cut : left = [] ∨ cutZero .negPos right = [] := by
    refine null.imp_right fun empty => ?_
    rw [empty]
    rfl
  cases quadrant with
  | posPos => exact if_pos cut
  | posNeg => exact if_pos null
  | negPos => exact if_pos cut
  | negNeg => exact if_pos null

theorem modQuadrants_unsigned (unsigned : typeUnsigned type = true)
    (first : Canonical type left) (second : Canonical type right) (information : Bool) :
    ∀ x, x ∈ rlSet (unionQuadrants modRlHelper (if information then getNegRl left else [])
        (getPosRl left) (if information then getNegRl right else []) (getPosRl right)) ↔
      x ∈ rlSet (modPosPos (getPosRl left) (getPosRl right)) := by
  obtain ⟨noneLeft, canonicalLeft, -⟩ :=
    nonneg_parts first fun x => nonneg_of_mem unsigned first
  obtain ⟨noneRight, canonicalRight, -⟩ :=
    nonneg_parts second fun x => nonneg_of_mem unsigned second
  rw [noneLeft, noneRight, ite_self]
  have part : OfKind type.kind (modPosPos (getPosRl left) (getPosRl right)) := by
    by_cases null : getPosRl left = [] ∨ ∀ r ∈ rlSet (getPosRl right), r = 0
    · rw [modPosPos_null canonicalRight null]
      exact OfKind.nil _
    · obtain ⟨someLeft, some⟩ := not_or.mp null
      push Not at some
      exact ⟨type, rfl, (modPosPos_spec unsigned canonicalLeft canonicalRight someLeft some).1⟩
  exact (unionQuadrants_nonneg modRlHelper_null part).2

end Unsigned

section Remainder

variable {type : Ctype} {left right : RangeList}

/-- A remainder is at most the dividend and below the divisor. -/
theorem emod_bounds {l r : Int} (nonneg : 0 ≤ l) (positive : 0 < r) :
    0 ≤ l % r ∧ l % r ≤ l ∧ l % r ≤ r - 1 := by
  have low := Int.emod_nonneg l (Int.ne_of_gt positive)
  have high := Int.emod_lt_of_pos l positive
  have parts := Int.mul_ediv_add_emod l r
  have quotient := Int.mul_nonneg (Int.le_of_lt positive)
    (Int.ediv_nonneg nonneg (Int.le_of_lt positive))
  exact ⟨low, by omega, by omega⟩

/-- The quadrants hold all remainders, or what the left list holds. -/
theorem modQuadrants_contains_iff (unsigned : typeUnsigned type = true)
    (first : Canonical type left) (second : Canonical type right) {result : RangeList}
    (members : ∀ x, x ∈ rlSet result ↔ x ∈ rlSet (modPosPos (getPosRl left) (getPosRl right))) :
    (result = [] ∨ ∀ l ∈ rlSet left, ∀ r ∈ rlSet right, r ≠ 0 → l % r ∈ rlSet result) ↔
      ((rlMax left).val < (rlMax right).val - 1 →
        ∀ l ∈ rlSet left, ∀ r ∈ rlSet right, r ≠ 0 → l % r ∈ rlSet left) := by
  by_cases some : (∃ l, l ∈ rlSet left) ∧ ∃ r ∈ rlSet right, r ≠ 0
  · obtain ⟨⟨l, inLeft⟩, r, inRight, nonzero⟩ := some
    obtain ⟨-, canonicalLeft, setLeft⟩ :=
      nonneg_parts first fun x => nonneg_of_mem unsigned first
    obtain ⟨-, canonicalRight, setRight⟩ :=
      nonneg_parts second fun x => nonneg_of_mem unsigned second
    have someLeft : getPosRl left ≠ [] := nonempty_of_mem (setLeft ▸ inLeft)
    have spec := (modPosPos_spec unsigned canonicalLeft canonicalRight someLeft
      ⟨r, setRight ▸ inRight, nonzero⟩).2
    rw [(ends_of_rlSet canonicalLeft first setLeft (nonempty_of_mem inLeft)).2,
      (ends_of_rlSet canonicalRight second setRight (nonempty_of_mem inRight)).2, setLeft] at spec
    have top := le_rlMax second inRight
    have low := nonneg_of_mem unsigned second inRight
    simp only [spec] at members
    by_cases less : (rlMax left).val < (rlMax right).val - 1
    · simp only [if_pos less] at members
      have filled : result ≠ [] := nonempty_of_mem ((members l).mpr inLeft)
      simp only [or_iff_right filled, members]
      exact ⟨fun sound _ => sound, fun sound => sound less⟩
    · simp only [if_neg less] at members
      refine iff_of_true (.inr fun l inLeft r inRight nonzero => (members _).mpr ?_)
        fun impossible => absurd impossible less
      have dividend := nonneg_of_mem unsigned first inLeft
      have divisor := nonneg_of_mem unsigned second inRight
      have bounds := @emod_bounds l r dividend (lt_of_le_of_ne divisor (Ne.symm nonzero))
      have top := le_rlMax second inRight
      exact ⟨bounds.1, by omega⟩
  · have vacuous : ∀ test : Int → Prop,
        ∀ l ∈ rlSet left, ∀ r ∈ rlSet right, r ≠ 0 → test (l % r) :=
      fun test l inLeft r inRight nonzero =>
        absurd ⟨⟨l, inLeft⟩, r, inRight, nonzero⟩ some
    exact iff_of_true (.inr (vacuous _)) fun _ => vacuous _

/-- `rl_handle_mod` of an unsigned type is null or holds every remainder, exactly when
`ModSound` holds. -/
theorem rlHandleMod_contains_iff (unsigned : typeUnsigned type = true)
    (first : Canonical type left) (second : Canonical type right) :
    (rlHandleMod left right = [] ∨ ∀ l ∈ rlSet left, ∀ r ∈ rlSet right, r ≠ 0 →
        l % r ∈ rlSet (rlHandleMod left right)) ↔
      ModSound type left right := by
  have null : ∀ {result : RangeList}, (∀ x, x ∈ rlSet result ↔ x ∈ rlSet left) → result = [] →
      ∀ l ∈ rlSet left, ∀ r ∈ rlSet right, r ≠ 0 → l % r ∈ rlSet left := by
    intro result members empty l inLeft
    have inside := (members l).mpr inLeft
    rw [empty] at inside
    exact absurd inside (mem_rlSet_nil l)
  unfold rlHandleMod
  cases zero : knownZero left with
  | some sval =>
    obtain ⟨typed, value, single⟩ := knownZero_eq_some first zero
    dsimp only
    refine iff_of_true (.inr fun l inLeft r inRight nonzero => ?_)
      fun _ _ l inLeft r inRight nonzero => ?_
    · rw [(single l).mp inLeft, Int.zero_emod, allocRl_eq typed typed (Int.le_refl _),
        rlSet_singleton, value]
      exact ⟨Int.le_refl _, Int.le_refl _⟩
    · rw [(single l).mp inLeft, Int.zero_emod]
      exact (single 0).mpr rfl
  | none =>
    dsimp only
    by_cases whole : isWholeRl right = true
    · rw [if_pos whole]
      refine iff_of_true (.inr fun l inLeft r inRight nonzero => ?_)
        fun other => absurd other (by rw [whole]; decide)
      have some := nonempty_of_mem inLeft
      have low := nonneg_of_mem unsigned first inLeft
      have divisor := nonneg_of_mem unsigned second inRight
      have least := nonneg_of_mem unsigned first (rlMin_mem first some)
      have negative : ¬ svalIsNegative (rlMin left) = true := by
        rw [svalIsNegative_iff]
        omega
      have bounds := @emod_bounds l r low (lt_of_le_of_ne divisor (Ne.symm nonzero))
      have top := le_rlMax first inLeft
      rw [if_neg negative, rlVal_eq first some,
        (allocRl_spec (zero_ofType type) (rlMax_ofType first some)).2, zero_val,
        endsSet_of_le (by omega)]
      exact ⟨bounds.1, by omega⟩
    rw [if_neg whole]
    have notWhole : isWholeRl right = false := Bool.not_eq_true _ |>.mp whole
    by_cases top : svalIsMax (rlMax right) = true
    · rw [if_pos top]
      constructor
      · rintro (empty | contains) - -
        · exact null (fun x => Iff.rfl) empty
        · exact contains
      · intro sound
        refine .inr fun l inLeft r inRight nonzero => ?_
        have greatest := (svalIsMax_iff (rlMax_ofType second (nonempty_of_mem inRight))).mp top
        exact sound notWhole (.inl greatest) l inLeft r inRight nonzero
    · rw [if_neg top]
      have members := modQuadrants_unsigned unsigned first second
        (hasNegativeInformation left || hasNegativeInformation right)
      rw [modQuadrants_contains_iff unsigned first second members]
      constructor
      · intro sound _ exit l inLeft r inRight
        refine sound (exit.resolve_left fun greatest => top ?_) l inLeft r inRight
        exact (svalIsMax_iff (rlMax_ofType second (nonempty_of_mem inRight))).mpr greatest
      · exact fun sound less => sound notWhole (.inr less)

/-- The theorem for `0-20` and `3-7`. -/
theorem rlHandleMod_contains_iff_small :
    (rlHandleMod [⟨uintCtype.ofInt 0, uintCtype.ofInt 20⟩]
          [⟨uintCtype.ofInt 3, uintCtype.ofInt 7⟩] = [] ∨
        ∀ l ∈ rlSet [⟨uintCtype.ofInt 0, uintCtype.ofInt 20⟩],
          ∀ r ∈ rlSet [⟨uintCtype.ofInt 3, uintCtype.ofInt 7⟩], r ≠ 0 →
            l % r ∈ rlSet (rlHandleMod [⟨uintCtype.ofInt 0, uintCtype.ofInt 20⟩]
              [⟨uintCtype.ofInt 3, uintCtype.ofInt 7⟩])) ↔
      ModSound uintCtype [⟨uintCtype.ofInt 0, uintCtype.ofInt 20⟩]
        [⟨uintCtype.ofInt 3, uintCtype.ofInt 7⟩] :=
  @rlHandleMod_contains_iff uintCtype _ _ (by decide) (by decide) (by decide)

/-- Ten modulo a number up to a hundred is said to be ten. -/
theorem rlHandleMod_misses :
    IntRank uintCtype ∧ typeUnsigned uintCtype = true ∧
      Canonical uintCtype [⟨uintCtype.ofInt 10, uintCtype.ofInt 10⟩] ∧
      Canonical uintCtype [⟨uintCtype.ofInt 2, uintCtype.ofInt 100⟩] ∧
      10 ∈ rlSet [⟨uintCtype.ofInt 10, uintCtype.ofInt 10⟩] ∧
      3 ∈ rlSet [⟨uintCtype.ofInt 2, uintCtype.ofInt 100⟩] ∧
      rlHandleMod [⟨uintCtype.ofInt 10, uintCtype.ofInt 10⟩]
        [⟨uintCtype.ofInt 2, uintCtype.ofInt 100⟩] ≠ [] ∧
      (10 : Int) % 3 ∉ rlSet (rlHandleMod [⟨uintCtype.ofInt 10, uintCtype.ofInt 10⟩]
        [⟨uintCtype.ofInt 2, uintCtype.ofInt 100⟩]) := by
  decide

end Remainder

end SmatchFormal.RangeMath
