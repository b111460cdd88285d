import SmatchFormal.RangeMath.BinopValues

/-!
# Shifts of range lists

`rl_handle_lshift` shifts the ends of each range and adds the range between them.  A shift
by `s` drops all but the lowest `width - s` bits, so the numbers fall into blocks of
`2 ^ (width - s)`, and only inside of one block the ends bound what lies between them.
-/

namespace SmatchFormal.RangeMath

open SmatchFormal.Ranges SmatchFormal.Extra

/-! ## The code -/

def typeBitsOpt : Option Ctype → Nat
  | none => 0
  | some type => typeBits type

def rlFitsInType (rl : RangeList) (type : Option Ctype) : Bool :=
  if typeBitsOpt (rlType rl) ≤ typeBitsOpt type then true
  else
    let type := type.getD llongCtype
    if svalCmp (rlMax rl) (svalTypeMax type) > 0 then false
    else if svalIsNegative (rlMin rl) && decide (svalCmp (rlMin rl) (svalTypeMin type) < 0) then
      false
    else true

def lshiftCast (left : RangeList) : RangeList :=
  if typePositiveBitsOpt (rlType left) < 32 then castRl (some uintCtype) left
  else if typePositiveBitsOpt (rlType left) = 63 then castRl (some ullongCtype) left
  else left

def shiftStart (min : Sval) : Sval := if min.raw = 0 then { min with raw := 1 } else min

/-- One round of the loop of `rl_handle_lshift`: the list and `add_zero`. -/
def lshiftStep (shift : Sval) (state : RangeList × Bool) (tmp : DataRange) : RangeList × Bool :=
  let addZero := state.2 || tmp.min.raw == 0 ||
    decide (tmp.max.uvalue > (svalTypeMax tmp.max.type).uvalue >>> shift.uvalue)
  if tmp.min.raw = 0 ∧ tmp.max.raw = 0 then (state.1, addZero)
  else
    let min := svalBinop (shiftStart tmp.min) .leftShift shift
    let max := svalBinop tmp.max .leftShift shift
    (addRange state.1 min max, addZero)

def rlHandleLshift (leftOrig rightOrig : RangeList) : RangeList :=
  match rlToSval rightOrig with
  | none => []
  | some shift =>
    if svalIsNegative shift then []
    else if shift.raw = 0 then leftOrig
    else
      let state := (lshiftCast leftOrig).foldl (lshiftStep shift) ([], false)
      let addZero := state.2 || !rlFitsInType state.1 (rlType leftOrig)
      let ret := castRl (rlType leftOrig) state.1
      if addZero then addRange ret (rlVal leftOrig 0) (rlVal leftOrig 0) else ret

def rshiftLoop (shift : Sval) (left : RangeList) : RangeList :=
  left.foldl (fun ret tmp =>
    addRange ret (svalBinop tmp.min .rightShift shift) (svalBinop tmp.max .rightShift shift)) []

def rlHandleRshift (leftOrig rightOrig : RangeList) : RangeList :=
  match rlToSval rightOrig with
  | none => []
  | some shift =>
    if svalIsNegative shift then []
    else if shift.raw = 0 then leftOrig
    else rshiftLoop shift leftOrig

/-! ## The condition -/

def firstShifted (drange : DataRange) : Int := if drange.min.val = 0 then 1 else drange.min.val

/-- The shifted ends of the range are the wrong way round, or have `k` between them. -/
def CoversPlace (block k : Int) (drange : DataRange) : Prop :=
  drange.max.val ≠ 0 ∧
    (drange.max.val % block < firstShifted drange % block ∨
      firstShifted drange % block ≤ k ∧ k ≤ drange.max.val % block)

/-- Every range stays inside of a block, or each place of a block but the first one is
covered by a range. -/
def ShiftsWell (block : Int) (left : RangeList) : Prop :=
  (∀ drange ∈ left, drange.min.val / block = drange.max.val / block) ∨
    ∀ k, 1 ≤ k → k < block → ∃ drange ∈ left, CoversPlace block k drange

section One

variable {type source : Ctype} {shift : Sval} {s : Nat} {drange : DataRange}

theorem rlToSval_of_single {right : RangeList} (canonical : Canonical source right) {x : Int}
    (single : ∀ y, y ∈ rlSet right ↔ y = x) :
    ∃ sval, rlToSval right = some sval ∧ sval.OfType source ∧ sval.val = x := by
  have some : right ≠ [] := nonempty_of_mem ((single x).mpr rfl)
  cases found : rlToSval right with
  | none =>
    have less := (rlToSval_eq_none canonical some).mp found
    have low := (single _).mp (rlMin_mem canonical some)
    have high := (single _).mp (rlMax_mem canonical some)
    omega
  | some sval =>
    obtain ⟨typed, members⟩ := rlToSval_eq_some canonical found
    exact ⟨sval, rfl, typed, ((members x).mp ((single x).mpr rfl)).symm⟩

theorem shiftStart_spec {min : Sval} (typed : min.OfType type) :
    (shiftStart min).type = type ∧
      (shiftStart min).val = if min.val = 0 then 1 else min.val := by
  unfold shiftStart
  by_cases zero : min.raw = 0
  · have small : ((1 : BitVec 64).toNat : Int) ≤ min.type.hi := min.type.kind.bounds.2.2.1
    rw [if_pos zero, if_pos ((Sval.raw_eq_zero_iff min).mp zero)]
    exact ⟨typed.1, (word_ofType 1 small).2⟩
  · rw [if_neg zero, if_neg (fun value => zero ((Sval.raw_eq_zero_iff min).mpr value))]
    exact ⟨typed.1, rfl⟩

theorem shifted_ends (low : drange.min.OfType type) (high : drange.max.OfType type)
    (count : shift.raw.toNat = s) :
    let promoted := getPromotedType type shift.type
    (svalBinop (shiftStart drange.min) .leftShift shift).OfType promoted ∧
      (svalBinop drange.max .leftShift shift).OfType promoted ∧
      (svalBinop (shiftStart drange.min) .leftShift shift).val =
        promoted.wrap (firstShifted drange * 2 ^ s) ∧
      (svalBinop drange.max .leftShift shift).val = promoted.wrap (drange.max.val * 2 ^ s) := by
  obtain ⟨startType, startVal⟩ := shiftStart_spec low
  have minTyped := svalBinop_ofType (shiftStart drange.min) .leftShift shift
  have maxTyped := svalBinop_ofType drange.max .leftShift shift
  have minVal := svalBinop_leftShift_val (shiftStart drange.min) shift
  have maxVal := svalBinop_leftShift_val drange.max shift
  rw [startType] at minTyped minVal
  rw [startVal] at minVal
  rw [high.1] at maxTyped maxVal
  rw [count] at minVal maxVal
  exact ⟨minTyped, maxTyped, minVal, maxVal⟩

end One

section Loop

variable {type : Ctype} {shift : Sval} {s : Nat} {left : RangeList}

def shiftedSet (promoted : Ctype) (s : Nat) (drange : DataRange) : Set Int :=
  endsSet promoted (promoted.wrap (firstShifted drange * 2 ^ s))
    (promoted.wrap (drange.max.val * 2 ^ s))

def AddsZero (type : Ctype) (s : Nat) (drange : DataRange) : Prop :=
  drange.min.val = 0 ∨ (type.hi : Int) / 2 ^ s < drange.max.val

theorem addZero_iff {drange : DataRange} (high : drange.max.OfType type)
    (nonneg : 0 ≤ drange.max.val) (count : shift.raw.toNat = s) (flag : Bool) :
    (flag || drange.min.raw == 0 || decide (drange.max.uvalue >
      (svalTypeMax drange.max.type).uvalue >>> shift.uvalue)) = true ↔
      flag = true ∨ AddsZero type s drange := by
  have zero := Sval.raw_eq_zero_iff drange.min
  have top := svalTypeMax_uvalue type
  have word := raw_toNat nonneg
  have above : (svalTypeMax drange.max.type).uvalue >>> shift.uvalue < drange.max.uvalue ↔
      (type.hi : Int) / 2 ^ s < drange.max.val := by
    rw [high.1, ← word, ← top, ← count, Nat.shiftRight_eq_div_pow]
    zify
    exact Iff.rfl
  unfold AddsZero
  rw [Bool.or_eq_true, Bool.or_eq_true, beq_iff_eq, decide_eq_true_iff, gt_iff_lt, zero, above,
    or_assoc]

theorem lshiftLoop_spec (canonical : Canonical type left) (nonneg : ∀ l ∈ rlSet left, 0 ≤ l)
    (count : shift.raw.toNat = s) (state : RangeList × Bool)
    (start : Canonical (getPromotedType type shift.type) state.1) :
    Added (getPromotedType type shift.type)
        {x | ∃ drange ∈ left, drange.max.val ≠ 0 ∧
          x ∈ shiftedSet (getPromotedType type shift.type) s drange} state.1
        (left.foldl (lshiftStep shift) state).1 ∧
      ((left.foldl (lshiftStep shift) state).2 = true ↔
        state.2 = true ∨ ∃ drange ∈ left, AddsZero type s drange) := by
  induction left generalizing state with
  | nil =>
    refine ⟨(Added.none start).congr ?_, ?_⟩
    · ext x
      simp
    · simp
  | cons drange rest ih =>
    obtain ⟨low, high, order⟩ := canonical.head
    have minNonneg : 0 ≤ drange.min.val :=
      nonneg _ ((mem_rlSet_cons _ _ _).mpr (.inl ⟨Int.le_refl _, order⟩))
    have maxNonneg : 0 ≤ drange.max.val := Int.le_trans minNonneg order
    have flag := @addZero_iff type shift s drange high maxNonneg count state.2
    have later := fun l member => nonneg l ((mem_rlSet_cons l drange rest).mpr (.inr member))
    have zeroMin := Sval.raw_eq_zero_iff drange.min
    have zeroMax := Sval.raw_eq_zero_iff drange.max
    have step : Added (getPromotedType type shift.type)
          {x | drange.max.val ≠ 0 ∧ x ∈ shiftedSet (getPromotedType type shift.type) s drange}
          state.1 (lshiftStep shift state drange).1 ∧
        ((lshiftStep shift state drange).2 = true ↔
          state.2 = true ∨ AddsZero type s drange) := by
      unfold lshiftStep
      dsimp only
      by_cases zero : drange.min.raw = 0 ∧ drange.max.raw = 0
      · rw [if_pos zero]
        refine ⟨(Added.none start).congr ?_, flag⟩
        ext x
        simp [zeroMax.mp zero.2]
      · rw [if_neg zero]
        obtain ⟨minTyped, maxTyped, minVal, maxVal⟩ :=
          @shifted_ends type shift s drange low high count
        refine ⟨?_, flag⟩
        dsimp only
        rw [addRange_canonical minTyped start]
        refine (addRangeTyped_added minTyped maxTyped start).congr ?_
        have some : drange.max.val ≠ 0 := by
          intro value
          exact zero ⟨zeroMin.mpr (by omega), zeroMax.mpr value⟩
        ext x
        rw [minVal, maxVal]
        simp only [Set.mem_ofPred_eq, shiftedSet, some, ne_eq, not_false_eq_true, true_and]
    obtain ⟨added, set⟩ := ih canonical.tail later _ step.1.canonical
    refine ⟨(step.1.trans added).congr ?_, ?_⟩
    · ext x
      simp only [Set.mem_union, Set.mem_ofPred_eq, List.mem_cons, exists_eq_or_imp]
    · rw [List.foldl_cons, set, step.2, or_assoc]
      simp only [List.mem_cons, exists_eq_or_imp]

end Loop

section Blocks

variable {block low high k : Int}

theorem shifted_mod {width s : Nat} (small : s ≤ width) (x : Int) :
    x * 2 ^ s % 2 ^ width = x % 2 ^ (width - s) * 2 ^ s := by
  have split : (2 : Int) ^ width = 2 ^ (width - s) * 2 ^ s := by
    rw [← pow_add, Nat.sub_add_cancel small]
  rw [split, Int.mul_comm, Int.mul_comm (2 ^ (width - s)),
    Int.mul_emod_mul_of_pos _ _ (by positivity), Int.mul_comm]

/-- A range over several blocks whose ends are not the wrong way round has all places. -/
theorem exists_place (positive : 0 < block) (order : low ≤ high)
    (apart : low / block ≠ high / block) (ends : low % block ≤ high % block) (first : 0 ≤ k)
    (last : k < block) :
    ∃ x, low ≤ x ∧ x ≤ high ∧ x % block = k := by
  have splitLow := Int.emod_add_mul_ediv low block
  have splitHigh := Int.emod_add_mul_ediv high block
  have lowPlace := Int.emod_nonneg low (Int.ne_of_gt positive)
  have blocks : low / block ≤ high / block := Int.ediv_le_ediv positive order
  have place : ∀ q : Int, (k + block * q) % block = k := by
    intro q
    rw [Int.add_mul_emod_self_left, Int.emod_eq_of_lt first last]
  by_cases inside : k ≤ high % block
  · refine ⟨k + block * (high / block), ?_, by omega, place _⟩
    have next : block * (low / block + 1) ≤ block * (high / block) :=
      Int.mul_le_mul_of_nonneg_left (by omega) (Int.le_of_lt positive)
    have below := Int.emod_lt_of_pos low positive
    rw [Int.mul_add, Int.mul_one] at next
    omega
  · refine ⟨k + block * (high / block - 1), ?_, ?_, place _⟩
    · have next : block * (low / block) ≤ block * (high / block - 1) :=
        Int.mul_le_mul_of_nonneg_left (by omega) (Int.le_of_lt positive)
      omega
    · have same : block * (high / block - 1) = block * (high / block) - block := by
        rw [Int.mul_sub, Int.mul_one]
      have above := Int.emod_nonneg high (Int.ne_of_gt positive)
      omega

end Blocks

section Lshift

variable {type source : Ctype} {s : Nat} {left right : RangeList} {shift : Sval}

theorem lshiftCast_of_unsigned (canonical : Canonical type left) (rank : IntRank type)
    (unsigned : typeUnsigned type = true) : lshiftCast left = left := by
  have bits : 32 ≤ typePositiveBits type ∧ typePositiveBits type ≠ 63 := by
    obtain ⟨address, kind⟩ := type
    revert rank unsigned
    cases kind <;> simp [IntRank, typeBits, typeUnsigned, typePositiveBits,
      IntKind.positiveBits, IntKind.bits, IntKind.unsigned]
  by_cases null : left = []
  · subst null
    rfl
  · unfold lshiftCast
    rw [rlType_of_canonical canonical null]
    unfold typePositiveBitsOpt
    dsimp only
    rw [if_neg (by omega), if_neg bits.2]

theorem mem_withZero_iff {state : RangeList × Bool} {promoted : Ctype}
    (canonical : Canonical promoted state.1) (flag : Bool) (x : Int) :
    x ∈ rlSet (if flag then
        addRange (castRl (some type) state.1) (type.ofInt 0) (type.ofInt 0)
      else castRl (some type) state.1) ↔
      x ∈ rlSet (castRl (some type) state.1) ∨ flag = true ∧ x = 0 := by
  have result := (@castRl_spec promoted type state.1 canonical).1
  cases flag with
  | false => simp
  | true =>
    have added := addRange_rlSet (zero_ofType type) (zero_ofType type) (Int.le_refl _) result
    rw [if_pos rfl, added, zero_val, Set.mem_union, Set.mem_Icc]
    simp only [true_and]
    refine or_congr Iff.rfl ?_
    omega

theorem wrap_unsigned (rank : IntRank type) (unsigned : typeUnsigned type = true) (x : Int) :
    type.wrap x = x % 2 ^ typeBits type := by
  have sign : type.kind.unsigned = true := unsigned
  unfold Ctype.wrap IntKind.wrap
  rw [if_neg (rank_ne_bool rank), if_pos sign]
  rfl

theorem hi_unsigned (unsigned : typeUnsigned type = true) :
    type.lo = 0 ∧ type.hi = 2 ^ typeBits type - 1 := by
  have sign : type.kind.unsigned = true := unsigned
  refine ⟨IntKind.lo_of_unsigned unsigned, ?_⟩
  unfold Ctype.hi IntKind.hi
  rw [if_pos sign]
  rfl

/-- A place of a block in what a range adds, when the type stays. -/
theorem place_mem_shiftedSet_iff {drange : DataRange} {k : Int} (rank : IntRank type)
    (unsigned : typeUnsigned type = true) (small : s < typeBits type) (first : 0 ≤ k)
    (last : k < 2 ^ (typeBits type - s)) :
    k * 2 ^ s ∈ shiftedSet type s drange ↔
      drange.max.val % 2 ^ (typeBits type - s) < firstShifted drange % 2 ^ (typeBits type - s) ∨
        firstShifted drange % 2 ^ (typeBits type - s) ≤ k ∧
          k ≤ drange.max.val % 2 ^ (typeBits type - s) := by
  have unit : (0 : Int) < 2 ^ s := by positivity
  obtain ⟨least, greatest⟩ := hi_unsigned unsigned
  have scale : ∀ a b : Int, a * 2 ^ s ≤ b * 2 ^ s ↔ a ≤ b :=
    fun a b => Int.mul_le_mul_right unit
  unfold shiftedSet endsSet
  rw [wrap_unsigned rank unsigned, wrap_unsigned rank unsigned, shifted_mod small.le,
    shifted_mod small.le]
  by_cases order : firstShifted drange % 2 ^ (typeBits type - s) ≤
      drange.max.val % 2 ^ (typeBits type - s)
  · rw [if_pos ((scale _ _).mpr order), Set.mem_Icc, scale, scale]
    exact (or_iff_right (not_lt.mpr order)).symm
  · rw [if_neg (fun found => order ((scale _ _).mp found)), Set.mem_Icc]
    refine iff_of_true ⟨?_, ?_⟩ (.inl (not_le.mp order))
    · rw [least]
      exact Int.mul_nonneg first (Int.le_of_lt unit)
    · have inside : k * 2 ^ s < 2 ^ (typeBits type - s) * 2 ^ s :=
        Int.mul_lt_mul_of_pos_right last unit
      rw [← pow_add, Nat.sub_add_cancel small.le] at inside
      omega

theorem mem_lshift_iff (canonical : Canonical type left) (rank : IntRank type)
    (unsigned : typeUnsigned type = true) (null : left ≠ []) (found : rlToSval right = some shift)
    (positive : 0 < shift.val) (x : Int) :
    x ∈ rlSet (rlHandleLshift left right) ↔
      x ∈ rlSet (castRl (some type) (left.foldl (lshiftStep shift) ([], false)).1) ∨
        ((left.foldl (lshiftStep shift) ([], false)).2 ||
          !rlFitsInType (left.foldl (lshiftStep shift) ([], false)).1 (some type)) = true ∧
          x = 0 := by
  have nonneg : ∀ l ∈ rlSet left, 0 ≤ l := by
    intro l member
    have low := (canonical.mem_type member).1
    rwa [(hi_unsigned unsigned).1] at low
  have loop := @lshiftLoop_spec type shift _ left canonical nonneg rfl ([], false) (.nil _)
  have negative : ¬ svalIsNegative shift = true := by
    rw [svalIsNegative_iff]
    omega
  have some : ¬ shift.raw = 0 := by
    rw [Sval.raw_eq_zero_iff]
    omega
  unfold rlHandleLshift
  rw [found]
  dsimp only
  rw [if_neg negative, if_neg some, lshiftCast_of_unsigned canonical rank unsigned,
    rlType_of_canonical canonical null, rlVal_eq canonical null]
  exact mem_withZero_iff loop.1.canonical _ x

theorem rlFitsInType_of_canonical (canonical : Canonical type left) :
    rlFitsInType left (some type) = true := by
  unfold rlFitsInType
  by_cases null : left = []
  · subst null
    exact if_pos (Nat.zero_le _)
  · rw [rlType_of_canonical canonical null]
    exact if_pos (Nat.le_refl _)

theorem nonneg_of_unsigned (canonical : Canonical type left) (unsigned : typeUnsigned type = true) :
    ∀ l ∈ rlSet left, 0 ≤ l := by
  intro l member
  have low := (canonical.mem_type member).1
  rwa [(hi_unsigned unsigned).1] at low

/-- The zero is added for every number without bits that stay. -/
theorem exists_addsZero (unsigned : typeUnsigned type = true) (small : s < typeBits type)
    (nonneg : ∀ l ∈ rlSet left, 0 ≤ l) {l : Int} (member : l ∈ rlSet left)
    (gone : l % 2 ^ (typeBits type - s) = 0) : ∃ drange ∈ left, AddsZero type s drange := by
  obtain ⟨drange, inside, low, high⟩ := (mem_rlSet_iff l left).mp member
  refine ⟨drange, inside, ?_⟩
  have first : 0 ≤ drange.min.val :=
    nonneg _ ((mem_rlSet_iff _ left).mpr ⟨drange, inside, Int.le_refl _, Int.le_trans low high⟩)
  by_cases zero : l = 0
  · exact .inl (by omega)
  · right
    have unit : (0 : Int) < 2 ^ s := by positivity
    have block : (0 : Int) < 2 ^ (typeBits type - s) := by positivity
    have beyond : 2 ^ (typeBits type - s) ≤ l :=
      Int.le_of_dvd (by have bound := nonneg l member; omega) (Int.dvd_of_emod_eq_zero gone)
    have top : type.hi / 2 ^ s < 2 ^ (typeBits type - s) := by
      rw [Int.ediv_lt_iff_lt_mul unit, ← pow_add, Nat.sub_add_cancel small.le,
        (hi_unsigned unsigned).2]
      omega
    omega

section

variable (canonical : Canonical type left) (rank : IntRank type)
  (unsigned : typeUnsigned type = true) (null : left ≠ []) (found : rlToSval right = some shift)
  (positive : 0 < shift.val) (count : shift.raw.toNat = s) (small : s < typeBits type)
include canonical rank unsigned null found positive count small

/-- A left shift that stays in the type of the list. -/
theorem lshift_narrow_iff (stays : getPromotedType type shift.type = type) :
    (∀ l ∈ rlSet left, l * 2 ^ s % 2 ^ typeBits type ∈ rlSet (rlHandleLshift left right)) ↔
      ShiftsWell (2 ^ (typeBits type - s)) left := by
  have nonneg := nonneg_of_unsigned canonical unsigned
  have block : (0 : Int) < 2 ^ (typeBits type - s) := by positivity
  obtain ⟨added, flag⟩ :=
    @lshiftLoop_spec type shift s left canonical nonneg count ([], false) (.nil _)
  rw [stays] at added
  have members : ∀ x, x ∈ rlSet (rlHandleLshift left right) ↔
      (∃ drange ∈ left, drange.max.val ≠ 0 ∧ x ∈ shiftedSet type s drange) ∨
        (∃ drange ∈ left, AddsZero type s drange) ∧ x = 0 := by
    intro x
    rw [mem_lshift_iff canonical rank unsigned null found positive, castRl_self added.canonical,
      rlFitsInType_of_canonical added.canonical, added.mem_iff, Bool.not_true, Bool.or_false, flag]
    simp only [Set.mem_ofPred_eq, Bool.false_eq_true, false_or, or_iff_left (mem_rlSet_nil x)]
  constructor
  · intro sound
    by_cases inside : ∀ drange ∈ left, drange.min.val / 2 ^ (typeBits type - s) =
        drange.max.val / 2 ^ (typeBits type - s)
    · exact .inl inside
    · right
      push Not at inside
      obtain ⟨drange, member, apart⟩ := inside
      intro k first last
      have order := canonical.ordered member
      have least : 0 ≤ drange.min.val :=
        nonneg _ ((mem_rlSet_iff _ left).mpr ⟨drange, member, Int.le_refl _, order⟩)
      have some : drange.max.val ≠ 0 := by
        intro zero
        have both : drange.min.val = drange.max.val := by omega
        exact apart (by rw [both])
      by_cases reversed : drange.max.val % 2 ^ (typeBits type - s) <
          firstShifted drange % 2 ^ (typeBits type - s)
      · exact ⟨drange, member, some, .inl reversed⟩
      · have ends : drange.min.val % 2 ^ (typeBits type - s) ≤
            drange.max.val % 2 ^ (typeBits type - s) := by
          unfold firstShifted at reversed
          split_ifs at reversed with zero
          · rw [zero, Int.zero_emod]
            exact Int.emod_nonneg _ (Int.ne_of_gt block)
          · exact not_lt.mp reversed
        obtain ⟨x, low, high, place⟩ := exists_place block order apart ends (by omega) last
        have inList : x ∈ rlSet left := (mem_rlSet_iff x left).mpr ⟨drange, member, low, high⟩
        have shifted := sound x inList
        rw [shifted_mod small.le, place] at shifted
        have unit : (0 : Int) < 2 ^ s := by positivity
        rcases (members _).mp shifted with ⟨other, inOther, someOther, covered⟩ | ⟨-, zero⟩
        · exact ⟨other, inOther, someOther,
            (place_mem_shiftedSet_iff rank unsigned small (by omega) last).mp covered⟩
        · have product : 0 < k * 2 ^ s := Int.mul_pos (by omega) unit
          omega
  · intro well l member
    rw [members, shifted_mod small.le]
    by_cases gone : l % 2 ^ (typeBits type - s) = 0
    · right
      rw [gone, Int.zero_mul]
      exact ⟨exists_addsZero unsigned small nonneg member gone, rfl⟩
    · left
      have placeNonneg := Int.emod_nonneg l (Int.ne_of_gt block)
      have placeBelow := Int.emod_lt_of_pos l block
      have covers : ∃ drange ∈ left,
          CoversPlace (2 ^ (typeBits type - s)) (l % 2 ^ (typeBits type - s)) drange := by
        rcases well with inside | covers
        · obtain ⟨drange, inList, low, high⟩ := (mem_rlSet_iff l left).mp member
          have same := inside drange inList
          have lower := Int.ediv_le_ediv block low
          have upper := Int.ediv_le_ediv block high
          have blocks : l / 2 ^ (typeBits type - s) =
              drange.max.val / 2 ^ (typeBits type - s) := by omega
          have splitMin := Int.emod_add_mul_ediv drange.min.val (2 ^ (typeBits type - s))
          have splitMax := Int.emod_add_mul_ediv drange.max.val (2 ^ (typeBits type - s))
          have split := Int.emod_add_mul_ediv l (2 ^ (typeBits type - s))
          rw [same] at splitMin
          rw [blocks] at split
          have positiveL : l ≠ 0 := by
            intro zero
            rw [zero, Int.zero_emod] at gone
            exact gone rfl
          have bound := nonneg l member
          refine ⟨drange, inList, by omega, .inr ⟨?_, by omega⟩⟩
          unfold firstShifted
          split_ifs with zero
          · rw [Int.emod_eq_of_lt (by decide) (by omega)]
            omega
          · omega
        · exact covers _ (by omega) placeBelow
      obtain ⟨drange, inList, some, place⟩ := covers
      exact ⟨drange, inList, some,
        (place_mem_shiftedSet_iff rank unsigned small placeNonneg placeBelow).mpr place⟩

/-- A left shift in a wider type loses nothing before the cast back. -/
theorem lshift_wide (narrow : typeBits type = 32) (wide : typeBits shift.type = 64)
    (promoted : getPromotedType type shift.type = shift.type) :
    ∀ l ∈ rlSet left, l * 2 ^ s % 2 ^ typeBits type ∈ rlSet (rlHandleLshift left right) := by
  intro l member
  have nonneg := nonneg_of_unsigned canonical unsigned
  obtain ⟨added, flag⟩ :=
    @lshiftLoop_spec type shift s left canonical nonneg count ([], false) (.nil _)
  rw [promoted] at added
  rw [mem_lshift_iff canonical rank unsigned null found positive]
  obtain ⟨drange, inList, low, high⟩ := (mem_rlSet_iff l left).mp member
  have order := canonical.ordered inList
  have least : 0 ≤ drange.min.val :=
    nonneg _ ((mem_rlSet_iff _ left).mpr ⟨drange, inList, Int.le_refl _, order⟩)
  by_cases zero : l = 0
  · right
    subst zero
    rw [Int.zero_mul, Int.zero_emod, Bool.or_eq_true, flag]
    exact ⟨.inl (.inr ⟨drange, inList, .inl (by omega)⟩), rfl⟩
  · left
    obtain ⟨top, bottom⟩ := hi_of_bits wide
    have unit : (0 : Int) < 2 ^ s := by positivity
    have keep : ∀ x : Int, 0 ≤ x → x ≤ drange.max.val →
        shift.type.lo ≤ x * 2 ^ s ∧ x * 2 ^ s ≤ shift.type.hi := by
      intro x first last
      have below : x < 2 ^ 32 := by
        have bound := (canonical.typed drange inList).2.2.2
        rw [(hi_unsigned unsigned).2, narrow] at bound
        omega
      have small' : (2 : Int) ^ s ≤ 2 ^ 31 := pow_le_pow_right₀ (by decide) (by omega)
      have product : x * 2 ^ s ≤ (2 ^ 32 - 1) * 2 ^ 31 :=
        Int.mul_le_mul (by omega) small' (Int.le_of_lt unit) (by decide)
      have above : 0 ≤ x * 2 ^ s := Int.mul_nonneg first (Int.le_of_lt unit)
      omega
    have firstNonneg : 0 ≤ firstShifted drange ∧ firstShifted drange ≤ l := by
      unfold firstShifted
      split_ifs with start
      · omega
      · omega
    have wraps : ∀ x : Int, 0 ≤ x → x ≤ drange.max.val →
        shift.type.wrap (x * 2 ^ s) = x * 2 ^ s :=
      fun x first last => IntKind.wrap_of_mem (keep x first last).1 (keep x first last).2
    have scale : ∀ a b : Int, a ≤ b → a * 2 ^ s ≤ b * 2 ^ s :=
      fun a b less => Int.mul_le_mul_of_nonneg_right less (Int.le_of_lt unit)
    have inside : l * 2 ^ s ∈ rlSet (left.foldl (lshiftStep shift) ([], false)).1 := by
      rw [added.mem_iff]
      refine .inl ⟨drange, inList, by omega, ?_⟩
      unfold shiftedSet
      rw [wraps _ firstNonneg.1 (by omega), wraps _ (by omega) (Int.le_refl _),
        endsSet_of_le (scale _ _ (by omega))]
      exact ⟨scale _ _ firstNonneg.2, scale _ _ high⟩
    obtain ⟨floor, ceiling⟩ := keep l (by omega) high
    have covers := (@castRl_covers_iff shift.type type _ added.canonical).mpr (by
      intro other _ loses
      exact absurd (loses.2.1.symm.trans unsigned) (by decide))
    have cast := covers.2 (shift.type.ofInt (l * 2 ^ s)) (Ctype.ofInt_ofType floor ceiling)
      (by rwa [Ctype.ofInt_val floor ceiling])
    rwa [svalCast_val, Ctype.ofInt_val floor ceiling, wrap_unsigned rank unsigned] at cast

end

end Lshift

section Rshift

variable {type : Ctype} {s : Nat} {left ret : RangeList} {shift : Sval}

theorem rshift_end {sval : Sval} (rank : IntRank type) (unsigned : typeUnsigned type = true)
    (typed : sval.OfType type) (count : shift.raw.toNat = s) :
    (svalBinop sval .rightShift shift).OfType (getPromotedType type shift.type) ∧
      (svalBinop sval .rightShift shift).val = sval.val / 2 ^ s := by
  have result := svalBinop_ofType sval .rightShift shift
  obtain ⟨own, low, high⟩ := typed
  rw [own] at result
  obtain ⟨least, greatest⟩ := hi_unsigned unsigned
  rw [least] at low
  have bounds : 0 ≤ sval.val / 2 ^ s ∧ sval.val / 2 ^ s ≤ sval.val :=
    ⟨Int.ediv_nonneg low (by positivity), Int.ediv_le_self _ low⟩
  refine ⟨result, ?_⟩
  rcases promoted_of_unsigned unsigned rank shift.type with ⟨-, stays⟩ | ⟨narrow, wide, other⟩
  · rw [svalBinop_rightShift_val low (.inr (by rw [own, stays]; exact unsigned)), count, own, stays]
    refine IntKind.wrap_of_mem ?_ (Int.le_trans bounds.2 high)
    change type.lo ≤ _
    rw [least]
    exact bounds.1
  · obtain ⟨top, bottom⟩ := hi_of_bits wide
    rw [greatest, narrow] at high
    rw [svalBinop_rightShift_val low (.inl (by omega)), count, own, other]
    refine IntKind.wrap_of_mem (Int.le_trans bottom bounds.1) ?_
    change _ ≤ shift.type.hi
    omega

theorem rshiftLoop_added (canonical : Canonical type left) (rank : IntRank type)
    (unsigned : typeUnsigned type = true) (count : shift.raw.toNat = s)
    (start : Canonical (getPromotedType type shift.type) ret) :
    Added (getPromotedType type shift.type)
      {x | ∃ drange ∈ left, drange.min.val / 2 ^ s ≤ x ∧ x ≤ drange.max.val / 2 ^ s} ret
      (left.foldl (fun ret tmp => addRange ret (svalBinop tmp.min .rightShift shift)
        (svalBinop tmp.max .rightShift shift)) ret) := by
  induction left generalizing ret with
  | nil =>
    refine (Added.none start).congr ?_
    ext x
    simp
  | cons drange rest ih =>
    obtain ⟨low, high, order⟩ := canonical.head
    obtain ⟨minTyped, minVal⟩ := @rshift_end type s shift _ rank unsigned low count
    obtain ⟨maxTyped, maxVal⟩ := @rshift_end type s shift _ rank unsigned high count
    have ends : drange.min.val / 2 ^ s ≤ drange.max.val / 2 ^ s :=
      Int.ediv_le_ediv (by positivity) order
    have step := Added.of_joined
      (addRange_joined minTyped maxTyped (by rw [minVal, maxVal]; exact ends) start)
    refine (step.trans (ih canonical.tail step.canonical)).congr ?_
    ext x
    simp only [Set.mem_union, Set.mem_Icc, Set.mem_ofPred_eq, List.mem_cons, exists_eq_or_imp,
      minVal, maxVal]

end Rshift

/-- The shift of an unsigned list by a known count has every shifted value to the right,
and to the left exactly when the shift count has a wider type or `ShiftsWell` holds. -/
theorem shifts_contain_iff {type source : Ctype} {left right : RangeList} {s : Nat}
    (canonical : Canonical type left) (rank : IntRank type) (unsigned : typeUnsigned type = true)
    (count : Canonical source right) (single : ∀ x, x ∈ rlSet right ↔ x = s)
    (small : s < typeBits type) :
    (∀ l ∈ rlSet left,
      l * 2 ^ s % 2 ^ typeBits type ∈ rlSet (rlHandleLshift left right) ∧
        l / 2 ^ s ∈ rlSet (rlHandleRshift left right)) ↔
      typeBits type < typeBits source ∨ ShiftsWell (2 ^ (typeBits type - s)) left := by
  by_cases null : left = []
  · subst null
    exact ⟨fun _ => .inr (.inl fun drange member => absurd member List.not_mem_nil),
      fun _ l member => absurd member (mem_rlSet_nil l)⟩
  have nonneg := nonneg_of_unsigned canonical unsigned
  have range : ∀ l ∈ rlSet left, l < 2 ^ typeBits type := by
    intro l member
    have high := (canonical.mem_type member).2
    rw [(hi_unsigned unsigned).2] at high
    omega
  obtain ⟨shift, found, shiftTyped, value⟩ := rlToSval_of_single count single
  have own := shiftTyped.1
  have negative : ¬ svalIsNegative shift = true := by
    rw [svalIsNegative_iff]
    omega
  by_cases zero : s = 0
  · subst zero
    have raw : shift.raw = 0 := (Sval.raw_eq_zero_iff shift).mpr value
    have lshift : rlHandleLshift left right = left := by
      unfold rlHandleLshift
      rw [found]
      dsimp only
      rw [if_neg negative, if_pos raw]
    have rshift : rlHandleRshift left right = left := by
      unfold rlHandleRshift
      rw [found]
      dsimp only
      rw [if_neg negative, if_pos raw]
    rw [lshift, rshift]
    refine iff_of_true (fun l member => ⟨?_, ?_⟩) (.inr (.inl fun drange member => ?_))
    · rw [pow_zero, Int.mul_one, Int.emod_eq_of_lt (nonneg l member) (range l member)]
      exact member
    · rw [pow_zero, Int.ediv_one]
      exact member
    · have order := canonical.ordered member
      have minIn : drange.min.val ∈ rlSet left :=
        (mem_rlSet_iff _ left).mpr ⟨drange, member, Int.le_refl _, order⟩
      have maxIn : drange.max.val ∈ rlSet left :=
        (mem_rlSet_iff _ left).mpr ⟨drange, member, order, Int.le_refl _⟩
      rw [Nat.sub_zero, Int.ediv_eq_zero_of_lt (nonneg _ minIn) (range _ minIn),
        Int.ediv_eq_zero_of_lt (nonneg _ maxIn) (range _ maxIn)]
  have positive : 0 < shift.val := by omega
  have word : shift.raw.toNat = s := by
    have bits := raw_toNat (Int.le_of_lt positive)
    omega
  have rshift : ∀ l ∈ rlSet left, l / 2 ^ s ∈ rlSet (rlHandleRshift left right) := by
    intro l member
    have raw : ¬ shift.raw = 0 := by
      rw [Sval.raw_eq_zero_iff]
      omega
    have added := @rshiftLoop_added type s left [] shift canonical rank unsigned word (.nil _)
    unfold rlHandleRshift
    rw [found]
    dsimp only
    rw [if_neg negative, if_neg raw, rshiftLoop, added.mem_iff]
    obtain ⟨drange, inList, low, high⟩ := (mem_rlSet_iff l left).mp member
    exact .inl ⟨drange, inList, Int.ediv_le_ediv (by positivity) low,
      Int.ediv_le_ediv (by positivity) high⟩
  have both : (∀ l ∈ rlSet left,
      l * 2 ^ s % 2 ^ typeBits type ∈ rlSet (rlHandleLshift left right) ∧
        l / 2 ^ s ∈ rlSet (rlHandleRshift left right)) ↔
      ∀ l ∈ rlSet left, l * 2 ^ s % 2 ^ typeBits type ∈ rlSet (rlHandleLshift left right) :=
    ⟨fun sound l member => (sound l member).1,
      fun sound l member => ⟨sound l member, rshift l member⟩⟩
  rw [both, ← own]
  rcases promoted_of_unsigned unsigned rank shift.type with ⟨wide, stays⟩ | ⟨narrow, wide, other⟩
  · rw [lshift_narrow_iff canonical rank unsigned null found positive word small stays]
    exact (or_iff_right (not_lt.mpr wide)).symm
  · exact iff_of_true
      (lshift_wide canonical rank unsigned null found positive word small narrow wide other)
      (.inl (by omega))

/-- The theorem for the whole list `0-7` shifted by two. -/
theorem shifts_contain_iff_small :
    (∀ l ∈ rlSet [⟨uintCtype.ofInt 0, uintCtype.ofInt 7⟩],
      l * 2 ^ 2 % 2 ^ typeBits uintCtype ∈
          rlSet (rlHandleLshift [⟨uintCtype.ofInt 0, uintCtype.ofInt 7⟩]
            [⟨intCtype.ofInt 2, intCtype.ofInt 2⟩]) ∧
        l / 2 ^ 2 ∈ rlSet (rlHandleRshift [⟨uintCtype.ofInt 0, uintCtype.ofInt 7⟩]
            [⟨intCtype.ofInt 2, intCtype.ofInt 2⟩])) ↔
      typeBits uintCtype < typeBits intCtype ∨
        ShiftsWell (2 ^ (typeBits uintCtype - 2)) [⟨uintCtype.ofInt 0, uintCtype.ofInt 7⟩] :=
  @shifts_contain_iff uintCtype intCtype _ _ 2 (by decide) (by decide) (by decide) (by decide)
    (by
      rw [rlSet_singleton]
      intro x
      have value : (intCtype.ofInt 2).val = 2 := by decide
      rw [value, Set.mem_Icc]
      omega)
    (by decide)

/-- `1-0x80000001` shifted by one gives `0,2`, although two shifted by one is four. -/
theorem lshift_misses :
    Canonical uintCtype [⟨uintCtype.ofInt 1, uintCtype.ofInt 2147483649⟩] ∧
      Canonical intCtype [⟨intCtype.ofInt 1, intCtype.ofInt 1⟩] ∧
      2 ∈ rlSet [⟨uintCtype.ofInt 1, uintCtype.ofInt 2147483649⟩] ∧
      (2 : Int) * 2 ^ 1 % 2 ^ typeBits uintCtype ∉
        rlSet (rlHandleLshift [⟨uintCtype.ofInt 1, uintCtype.ofInt 2147483649⟩]
          [⟨intCtype.ofInt 1, intCtype.ofInt 1⟩]) := by
  decide

end SmatchFormal.RangeMath
