import SmatchFormal.Extra.Modulo

/-!
# The multiples on the false side

Ranges and divisors below `2 ^ 63` are read as they are.  The others are `unsigned long long`
and read as negative numbers, so that the list runs through other numbers, or downwards.
-/

namespace SmatchFormal.Extra

open SmatchFormal.Ranges

def FalseSound (orig : RangeList) (right : Sval) : Prop :=
  modFalseRl orig right ≠ [] → ∀ v ∈ rlSet orig, right.val ∣ v → v ∈ rlSet (modFalseRl orig right)

section Sound

variable {orig falseRl : RangeList} {right : Sval}

/-! ## The list -/

theorem fewMultiples_iff (low : 0 ≤ (rlMin orig).val)
    (span : LongFits ((rlMax orig).value - (rlMin orig).value)) :
    fewMultiples orig right = true ↔
      ((rlMax orig).value - (rlMin orig).value).tdiv right.value < 5 := by
  unfold fewMultiples
  rw [Bool.and_eq_true, svalIsPositive_iff, decide_eq_true_eq, and_iff_right low,
    BitVec.toInt_ofInt_eq_self (by decide) span.1 span.2]

theorem firstMultiple_value (fits : ListFits orig right) :
    (firstMultiple (rlMin orig) right).value = sumValue orig right 0 := by
  obtain ⟨-, -, start, sums⟩ := fits
  have first := sums 0 (by decide) fun j less => absurd less (Nat.not_lt_zero j)
  unfold sumValue at start first ⊢
  rw [Nat.cast_zero, zero_add, mul_one] at first
  rw [mul_zero, add_zero] at start ⊢
  have step : (addValue (rlMin orig) (right.value - (rlMin orig).value.tmod right.value)).value =
      (rlMin orig).value + (right.value - (rlMin orig).value.tmod right.value) :=
    addValue_value (by
      rw [← add_sub_assoc, add_comm _ right.value, add_sub_assoc, add_comm]
      exact first)
  unfold firstMultiple
  rw [addValue_value (by rw [step]; convert start using 1; ring), step]
  ring

section

variable (canonical : Canonical right.type orig) (some : orig ≠ [])
  (few : fewMultiples orig right = true) (fits : ListFits orig right)
include canonical some few fits

theorem list_spec
    (typed : ∀ k : Nat, k < 5 →
      (∀ j : Nat, j ≤ k → sumValue orig right (j + 1) ≤ (rlMax orig).value) →
        (right.type.ofInt (sumValue orig right (k + 1))).OfType right.type) :
    Canonical right.type (modFalseRl orig right) ∧
      ∀ x, x ∈ rlSet (modFalseRl orig right) ↔ ∃ k : Nat, k < 5 ∧
        (∀ j : Nat, j ≤ k → sumValue orig right (j + 1) ≤ (rlMax orig).value) ∧
          x = (right.type.ofInt (sumValue orig right (k + 1))).val := by
  have sum : ∀ k : Nat, (firstMultiple (rlMin orig) right).value + right.value * ((k : Int) + 1) =
      sumValue orig right (k + 1) := by
    intro k
    rw [firstMultiple_value fits]
    unfold sumValue
    ring
  have first : (firstMultiple (rlMin orig) right).type = right.type :=
    (rlMin_ofType canonical some).1
  have listed := addMultiples_spec 5 (.nil right.type) first
    (fun k less below => by
      rw [sum]
      exact fits.2.2.2 k less fun j inside => sum j ▸ below j inside)
    (fun k less below => by
      rw [sum]
      exact typed k less fun j inside => sum j ▸ below j inside)
  have here : modFalseRl orig right =
      addMultiples (rlMax orig) right 5 (firstMultiple (rlMin orig) right) [] := if_pos few
  rw [here]
  refine ⟨listed.1, fun x => ?_⟩
  rw [listed.2 x, or_iff_right (mem_rlSet_nil x)]
  simp only [sum]

/-- With a positive step the sums up to the maximum are listed. -/
theorem list_up (up : 0 < right.value)
    (typed : ∀ k : Int, 1 ≤ k → k ≤ 5 → sumValue orig right k ≤ (rlMax orig).value →
      (right.type.ofInt (sumValue orig right k)).OfType right.type) :
    Canonical right.type (modFalseRl orig right) ∧
      ∀ x, x ∈ rlSet (modFalseRl orig right) ↔ ∃ k : Int, 1 ≤ k ∧ k ≤ 5 ∧
        sumValue orig right k ≤ (rlMax orig).value ∧
          x = (right.type.ofInt (sumValue orig right k)).val := by
  obtain ⟨listed, members⟩ := list_spec canonical some few fits fun k less below =>
    typed (k + 1) (by omega) (by omega) (below k le_rfl)
  refine ⟨listed, fun x => (members x).trans ⟨?_, ?_⟩⟩
  · rintro ⟨k, less, below, rfl⟩
    exact ⟨k + 1, by omega, by omega, below k le_rfl, rfl⟩
  · rintro ⟨k, first, last, inside, rfl⟩
    have back : (((k - 1).toNat : Nat) : Int) + 1 = k := by omega
    refine ⟨(k - 1).toNat, by omega, fun j le => ?_, by rw [back]⟩
    have smaller := Int.mul_le_mul_of_nonneg_left (show (j : Int) + 1 ≤ k by omega) up.le
    unfold sumValue at inside ⊢
    omega

/-- With a negative step all five sums are listed, or none. -/
theorem list_down (down : right.value ≤ 0) (wide : 2 ^ 63 ≤ right.type.hi) :
    Canonical right.type (modFalseRl orig right) ∧
      (∀ x, x ∈ rlSet (modFalseRl orig right) ↔
        sumValue orig right 1 ≤ (rlMax orig).value ∧ ∃ k : Int, 1 ≤ k ∧ k ≤ 5 ∧
          x = sumValue orig right k % 2 ^ 64) ∧
      (sumValue orig right 1 ≤ (rlMax orig).value → ∀ k : Int, 1 ≤ k → k ≤ 5 →
        LongFits (sumValue orig right k)) := by
  obtain ⟨listed, members⟩ := list_spec canonical some few fits fun k _ _ => (ofInt_wide wide _).1
  have below : sumValue orig right 1 ≤ (rlMax orig).value → ∀ k : Int, 1 ≤ k →
      sumValue orig right k ≤ (rlMax orig).value := by
    intro inside k first
    have smaller := mul_le_mul_of_nonpos_left first down
    unfold sumValue at inside ⊢
    omega
  refine ⟨listed, fun x => (members x).trans ⟨?_, ?_⟩, fun inside k first last => ?_⟩
  · rintro ⟨k, less, reached, rfl⟩
    have start := reached 0 (Nat.zero_le k)
    rw [Nat.cast_zero, zero_add] at start
    exact ⟨start, k + 1, by omega, by omega, (ofInt_wide wide _).2⟩
  · rintro ⟨start, k, first, last, rfl⟩
    have back : (((k - 1).toNat : Nat) : Int) + 1 = k := by omega
    refine ⟨(k - 1).toNat, by omega, fun j _ => below start _ (by omega), ?_⟩
    rw [back, (ofInt_wide wide _).2]
  · have back : (((k - 1).toNat : Nat) : Int) + 1 = k := by omega
    rw [← back]
    exact fits.2.2.2 _ (by omega) fun j _ => below inside _ (by omega)

end

/-! ## The cuts -/

def KeepsMultiples (orig : RangeList) (right : Sval) (falseRl : RangeList) : Prop :=
  Canonical right.type falseRl ∧ (∀ v ∈ rlSet falseRl, v ∈ rlSet orig) ∧
    (falseRl ≠ [] → ∀ v ∈ rlSet orig, right.val ∣ v → v ∈ rlSet falseRl)

theorem KeepsMultiples.null : KeepsMultiples orig right [] :=
  ⟨.nil _, fun v member => absurd member (mem_rlSet_nil v), fun given => absurd rfl given⟩

theorem KeepsMultiples.base (canonical : Canonical right.type orig)
    (sofar : KeepsMultiples orig right falseRl) :
    Canonical right.type (if falseRl = [] then orig else falseRl) ∧
      (∀ v ∈ rlSet (if falseRl = [] then orig else falseRl), v ∈ rlSet orig) ∧
      ∀ v ∈ rlSet orig, right.val ∣ v → v ∈ rlSet (if falseRl = [] then orig else falseRl) := by
  split_ifs with null
  · exact ⟨canonical, fun v member => member, fun v member _ => member⟩
  · exact ⟨sofar.1, sofar.2.1, sofar.2.2 null⟩

theorem chopHigh_cases (typed : (rlMax orig).OfType right.type) :
    (chopHigh orig right falseRl = falseRl ∧
      ((rlMax orig).val = right.type.hi ∨ right.value ∣ (rlMax orig).value)) ∨
    (chopHigh orig right falseRl =
        removeRange (if falseRl = [] then orig else falseRl)
          (addValue (addValue (rlMax orig) (-(rlMax orig).value.tmod right.value)) 1) (rlMax orig) ∧
      (rlMax orig).val ≠ right.type.hi ∧ ¬ right.value ∣ (rlMax orig).value) := by
  have last := svalIsMax_iff typed
  unfold chopHigh
  dsimp only
  by_cases cut : (!svalIsMax (rlMax orig) &&
      decide ((rlMax orig).value.tmod right.value ≠ 0)) = true
  · rw [if_pos cut]
    rw [Bool.and_eq_true, Bool.not_eq_true', decide_eq_true_eq] at cut
    refine Or.inr ⟨rfl, fun same => ?_, fun dvd => cut.2 (Int.tmod_eq_zero_of_dvd dvd)⟩
    rw [last.mpr same] at cut
    cases cut.1
  · rw [if_neg cut]
    refine Or.inl ⟨rfl, ?_⟩
    by_contra other
    rw [not_or] at other
    refine cut ?_
    rw [Bool.and_eq_true, Bool.not_eq_true', decide_eq_true_eq]
    exact ⟨Bool.eq_false_iff.mpr fun isMax => other.1 (last.mp isMax),
      fun none => other.2 (Int.dvd_of_tmod_eq_zero none)⟩

section Cuts

variable (canonical : Canonical right.type orig) (some : orig ≠ [])
  (nonneg : ∀ v ∈ rlSet orig, 0 ≤ v) (positive : 0 < right.val)
include canonical some nonneg positive

theorem chopLow_keeps (typed : right.OfType right.type) :
    KeepsMultiples orig right (chopLow orig right) := by
  unfold chopLow
  split_ifs with low
  · obtain ⟨zeroTyped, zero⟩ := rlZero_ofType canonical some
    have above : right.type.lo < right.val := by
      have := zeroTyped.2.1
      omega
    have chopTyped := subOne_ofType typed above
    have chop := subOne_val typed above
    have order : (rlZero orig).val ≤ (subOne right).val := by omega
    have members := removeRange_rlSet zeroTyped chopTyped order canonical
    refine ⟨removeRange_canonical zeroTyped chopTyped order canonical, fun v member => ?_, ?_⟩
    · rw [members] at member
      exact member.1
    · intro _ v member multiple
      have least := rlMin_mem canonical some
      have minValue := uvalue_of_nonneg (nonneg _ least)
      have first := rlMin_le canonical member
      have reach := Int.le_of_dvd (by omega) multiple
      rw [members, zero, chop]
      exact ⟨member, fun cut => absurd cut.2 (by omega)⟩
  · exact .null

/-- Above the last multiple nothing is lost. -/
theorem chopHigh_keeps (small : right.val < 2 ^ 63) (narrow : (rlMax orig).val < 2 ^ 63)
    (sofar : KeepsMultiples orig right falseRl) (given : chopHigh orig right falseRl ≠ []) {v : Int}
    (member : v ∈ rlSet orig) (multiple : right.val ∣ v) :
    v ∈ rlSet (chopHigh orig right falseRl) := by
  have typed := rlMax_ofType canonical some
  rcases chopHigh_cases typed with ⟨same, -⟩ | ⟨same, -, rest⟩
  · rw [same] at given ⊢
    exact sofar.2.2 given v member multiple
  · rw [same]
    clear same given
    obtain ⟨baseCanonical, -, base⟩ := sofar.base canonical
    have low := nonneg _ (rlMax_mem canonical some)
    have maxValue := value_of_small low narrow
    have rightValue := value_of_small positive.le small
    rw [maxValue, rightValue] at rest
    rw [maxValue, rightValue, Int.tmod_eq_emod_of_nonneg low]
    have least := Int.emod_nonneg (rlMax orig).val positive.ne'
    have split := Int.mul_ediv_add_emod (rlMax orig).val right.val
    have quotient := Int.mul_nonneg positive.le (Int.ediv_nonneg low positive.le)
    have inexact : (rlMax orig).val % right.val ≠ 0 := fun none =>
      rest (Int.dvd_of_emod_eq_zero none)
    have bottom := (zero_ofType right.type).1.2.1
    rw [(zero_ofType right.type).2] at bottom
    have top := typed.2.2
    obtain ⟨midTyped, mid⟩ := @addValue_ofType right.type (rlMax orig)
      (-((rlMax orig).val % right.val)) typed.1 maxValue (by omega) (by omega)
    generalize addValue (rlMax orig) (-((rlMax orig).val % right.val)) = middle at midTyped mid ⊢
    have midValue := value_of_small (show 0 ≤ middle.val by omega) (by omega)
    obtain ⟨chopTyped, chop⟩ := @addValue_ofType right.type middle 1 midTyped.1 midValue
      (by omega) (by omega)
    have order : (addValue middle 1).val ≤ (rlMax orig).val := by omega
    rw [removeRange_rlSet chopTyped typed order baseCanonical, chop, mid]
    refine ⟨base v member multiple, fun above => ?_⟩
    have fewer := Int.ediv_le_ediv positive (le_rlMax canonical member)
    have exact := Int.mul_ediv_cancel' multiple
    have bounded := Int.mul_le_mul_of_nonneg_left fewer positive.le
    have := above.1
    omega

omit nonneg positive in
/-- A maximum that is read as a negative number is cut from the wrong side. -/
theorem chopHigh_large (large : 2 ^ 63 ≤ (rlMax orig).val) {unit : Int} (unitPositive : 0 < unit)
    (unitReading : right.value = unit ∨ right.value = -unit)
    (sofar : KeepsMultiples orig right falseRl) :
    (chopHigh orig right falseRl = falseRl ∧
      ((rlMax orig).val = right.type.hi ∨ unit ∣ 2 ^ 64 - (rlMax orig).val)) ∨
    (¬ unit ∣ 2 ^ 64 - (rlMax orig).val ∧
      Kept right.type (if falseRl = [] then orig else falseRl) (chopHigh orig right falseRl)
        fun x => if 2 ^ 64 - (rlMax orig).val < unit then x < 1 else x < (rlMax orig).val) := by
  have typed := rlMax_ofType canonical some
  have top := typed.2.2
  have wide : 2 ^ 63 ≤ right.type.hi := large.trans top
  have high := (bounds_of_wide wide).2.1
  obtain ⟨maxValue, -⟩ := negated_of_large large
  have divides : right.value ∣ (rlMax orig).value ↔ unit ∣ 2 ^ 64 - (rlMax orig).val := by
    rw [maxValue, Int.dvd_neg]
    rcases unitReading with same | same
    · rw [same]
    · rw [same, Int.neg_dvd]
  have rem : (rlMax orig).value.tmod right.value = -((2 ^ 64 - (rlMax orig).val) % unit) := by
    rw [maxValue, Int.neg_tmod]
    rcases unitReading with same | same
    · rw [same, Int.tmod_eq_emod_of_nonneg (by omega)]
    · rw [same, Int.tmod_neg, Int.tmod_eq_emod_of_nonneg (by omega)]
  rcases chopHigh_cases typed with ⟨same, end_⟩ | ⟨same, -, rest⟩
  · exact Or.inl ⟨same, end_.imp_right divides.mp⟩
  · refine Or.inr ⟨fun multiple => rest (divides.mpr multiple), ?_⟩
    obtain ⟨baseCanonical, inside, -⟩ := sofar.base canonical
    have exactly : (2 ^ 64 - (rlMax orig).val) % unit ≠ 0 := fun none =>
      rest (divides.mpr (Int.dvd_of_emod_eq_zero none))
    have least := Int.emod_nonneg (2 ^ 64 - (rlMax orig).val) unitPositive.ne'
    have most := Int.emod_lt_of_pos (2 ^ 64 - (rlMax orig).val) unitPositive
    have short : 2 ^ 64 - (rlMax orig).val < unit →
        (2 ^ 64 - (rlMax orig).val) % unit = 2 ^ 64 - (rlMax orig).val :=
      fun less => Int.emod_eq_of_lt (by omega) less
    have other : unit ≠ 2 ^ 64 - (rlMax orig).val := fun whole => exactly (by
      rw [whole, Int.emod_self])
    rw [same, rem, neg_neg]
    generalize (2 ^ 64 - (rlMax orig).val) % unit = e at exactly least most short ⊢
    have step : (addValue (rlMax orig) e).value = -(2 ^ 64 - (rlMax orig).val) + e := by
      rw [addValue_value ⟨by omega, by omega⟩, maxValue]
    have chopEq : addValue (addValue (rlMax orig) e) 1 =
        right.type.ofInt (-(2 ^ 64 - (rlMax orig).val) + e + 1) := by
      change (rlMax orig).type.ofInt ((addValue (rlMax orig) e).value + 1) = _
      rw [step, typed.1]
    obtain ⟨chopTyped, chop⟩ := ofInt_wide wide (-(2 ^ 64 - (rlMax orig).val) + e + 1)
    have kept := removeRange_kept baseCanonical
      (right.type.ofInt (-(2 ^ 64 - (rlMax orig).val) + e + 1))
      (rlMax orig)
    rw [svalCast_self chopTyped, svalCast_self typed, chop] at kept
    rw [chopEq]
    refine kept.congr fun x member => ?_
    have upper := le_rlMax canonical (inside x member)
    split_ifs with few
    · rw [short few]
      omega
    · omega

end Cuts

section Regions

variable (canonical : Canonical right.type orig) (some : orig ≠ [])
  (nonneg : ∀ v ∈ rlSet orig, 0 ≤ v) (fits : NoOverflow orig right)
include canonical some nonneg

theorem ends : 0 ≤ (rlMin orig).val ∧ (rlMin orig).val ≤ (rlMax orig).val ∧
    (rlMax orig).val ≤ right.type.hi :=
  ⟨nonneg _ (rlMin_mem canonical some), le_rlMax canonical (rlMin_mem canonical some),
    (rlMax_ofType canonical some).2.2⟩

include fits

section Small

variable (positive : 0 < right.val)
include positive

/-- Numbers that are all read the same way have the span of their values. -/
theorem fewMultiples_iff_span (small : right.val < 2 ^ 63)
    (same : (rlMax orig).value - (rlMin orig).value = (rlMax orig).val - (rlMin orig).val) :
    fewMultiples orig right = true ↔
      ((rlMax orig).val - (rlMin orig).val) / right.val < 5 := by
  obtain ⟨low, order, -⟩ := ends canonical some nonneg
  rw [fewMultiples_iff low (fits.span ((svalIsPositive_iff _).mpr low)).1, same,
    value_of_small positive.le small, Int.tdiv_eq_ediv_of_nonneg (by omega)]

/-- The multiples after the smallest value, up to the greatest one. -/
theorem list_narrow (small : right.val < 2 ^ 63) (narrow : (rlMax orig).val < 2 ^ 63)
    (isFew : ((rlMax orig).val - (rlMin orig).val) / right.val < 5) :
    Canonical right.type (modFalseRl orig right) ∧
      ∀ x, x ∈ rlSet (modFalseRl orig right) ↔ ∃ k : Int, 1 ≤ k ∧ k ≤ 5 ∧
        x = right.val * ((rlMin orig).val / right.val) + right.val * k ∧ x ≤ (rlMax orig).val := by
  obtain ⟨low, order, top⟩ := ends canonical some nonneg
  have minValue := value_of_small low (by omega)
  have maxValue := value_of_small (low.trans order) narrow
  have rightValue := value_of_small positive.le small
  have few := fewMultiples_iff_span canonical some nonneg fits positive small
    (by rw [maxValue, minValue])
  have rest := Int.emod_nonneg (rlMin orig).val positive.ne'
  have split := Int.mul_ediv_add_emod (rlMin orig).val right.val
  have quotient := Int.mul_nonneg positive.le (Int.ediv_nonneg low positive.le)
  have sum : ∀ k, sumValue orig right k =
      right.val * ((rlMin orig).val / right.val) + right.val * k := by
    intro k
    unfold sumValue
    rw [minValue, rightValue, Int.tmod_eq_emod_of_nonneg low]
    omega
  have inType : ∀ k : Int, 1 ≤ k → sumValue orig right k ≤ (rlMax orig).value →
      right.type.lo ≤ sumValue orig right k ∧ sumValue orig right k ≤ right.type.hi := by
    intro k first inside
    have bottom := (zero_ofType right.type).1.2.1
    rw [(zero_ofType right.type).2] at bottom
    have further := Int.mul_nonneg positive.le (show 0 ≤ k by omega)
    rw [maxValue] at inside
    have := sum k
    omega
  obtain ⟨listed, members⟩ := list_up canonical some (few.mpr isFew) (fits.list (few.mpr isFew))
    (by omega) fun k first _ inside =>
      Ctype.ofInt_ofType (inType k first inside).1 (inType k first inside).2
  refine ⟨listed, fun x => ?_⟩
  rw [members x]
  constructor
  · rintro ⟨k, first, last, inside, rfl⟩
    rw [Ctype.ofInt_val (inType k first inside).1 (inType k first inside).2]
    exact ⟨k, first, last, sum k, maxValue ▸ inside⟩
  · rintro ⟨k, first, last, rfl, inside⟩
    have reached : sumValue orig right k ≤ (rlMax orig).value := by
      rw [sum, maxValue]
      exact inside
    refine ⟨k, first, last, reached, ?_⟩
    rw [Ctype.ofInt_val (inType k first reached).1 (inType k first reached).2, sum]

theorem falseSound_narrow (typed : right.OfType right.type) (small : right.val < 2 ^ 63)
    (narrow : (rlMax orig).val < 2 ^ 63) :
    FalseSound orig right ↔
      ¬ (((rlMax orig).val - (rlMin orig).val) / right.val < 5 ∧ right.val ∣ (rlMin orig).val ∧
        (rlMin orig).val + right.val ≤ (rlMax orig).val) := by
  have least := rlMin_mem canonical some
  obtain ⟨low, order, top⟩ := ends canonical some nonneg
  have few := fewMultiples_iff_span canonical some nonneg fits positive small
    (by rw [value_of_small low (by omega), value_of_small (low.trans order) narrow])
  by_cases isFew : ((rlMax orig).val - (rlMin orig).val) / right.val < 5
  · obtain ⟨listed, isMember⟩ :=
      list_narrow canonical some nonneg fits positive small narrow isFew
    have rest := Int.emod_nonneg (rlMin orig).val positive.ne'
    have split := Int.mul_ediv_add_emod (rlMin orig).val right.val
    unfold FalseSound
    generalize modFalseRl orig right = rl at listed isMember ⊢
    constructor
    · rintro sound ⟨-, multiple, beyond⟩
      have exact := Int.mul_ediv_cancel' multiple
      have second : (rlMin orig).val + right.val ∈ rlSet rl :=
        (isMember _).mpr ⟨1, le_refl _, by decide, by omega, beyond⟩
      have given : rl ≠ [] := fun null => mem_rlSet_nil _ (null ▸ second)
      obtain ⟨k, first, -, same, -⟩ := (isMember _).mp (sound given _ least multiple)
      have := Int.mul_le_mul_of_nonneg_left first positive.le
      omega
    · intro condition given v member multiple
      have below := le_rlMax canonical member
      have above := rlMin_le canonical member
      have exact := Int.mul_ediv_cancel' multiple
      have further := Int.ediv_le_ediv positive above
      by_cases same : v / right.val = (rlMin orig).val / right.val
      · -- The smallest value is the only multiple, and then nothing is listed.
        exfalso
        rw [same] at exact
        have only : v = (rlMin orig).val := by omega
        obtain ⟨k, first, -, value, inside⟩ := (isMember _).mp (rlMin_mem listed given)
        have := Int.mul_le_mul_of_nonneg_left first positive.le
        rw [only] at multiple
        exact condition ⟨isFew, multiple, by omega⟩
      · refine (isMember v).mpr
          ⟨v / right.val - (rlMin orig).val / right.val, by omega, ?_, ?_, below⟩
        · have span := (Int.ediv_lt_iff_lt_mul positive).mp isFew
          have less := Int.emod_lt_of_pos (rlMin orig).val positive
          by_contra more
          have sixth : 6 ≤ v / right.val - (rlMin orig).val / right.val := by omega
          have := Int.mul_le_mul_of_nonneg_left sixth positive.le
          rw [Int.mul_sub] at this
          omega
        · rw [← Int.mul_add, add_sub_cancel, exact]
  · refine iff_of_true ?_ fun skips => isFew skips.1
    have here : modFalseRl orig right = chopHigh orig right (chopLow orig right) :=
      if_neg (mt few.mp isFew)
    unfold FalseSound
    rw [here]
    intro given v member multiple
    exact chopHigh_keeps canonical some nonneg positive small narrow
      (chopLow_keeps canonical some nonneg positive typed) given member multiple

/-- The maximum is read as a negative number, so the first sum is beyond it. -/
theorem falseSound_across (small : right.val < 2 ^ 63) (large : 2 ^ 63 ≤ (rlMax orig).val)
    (inside : (rlMin orig).val < 2 ^ 63) : FalseSound orig right := by
  obtain ⟨low, order, top⟩ := ends canonical some nonneg
  have minValue := value_of_small low inside
  have maxValue := value_of_large large
  have rightValue := value_of_small positive.le small
  have bounds := (rlMax orig).val_bounds
  have few : fewMultiples orig right = true := by
    refine (fewMultiples_iff low (fits.span ((svalIsPositive_iff _).mpr low)).1).mpr ?_
    have negative : (rlMax orig).value - (rlMin orig).value =
        -((2 ^ 64 - (rlMax orig).val) + (rlMin orig).val) := by omega
    have quotient := Int.tdiv_nonneg
      (show 0 ≤ (2 ^ 64 - (rlMax orig).val) + (rlMin orig).val by omega)
      positive.le
    rw [negative, Int.neg_tdiv, rightValue]
    omega
  have sums : ∀ k : Int, 1 ≤ k → ¬ sumValue orig right k ≤ (rlMax orig).value := by
    intro k first reached
    have rest := Int.emod_lt_of_pos (rlMin orig).val positive
    have step := Int.mul_le_mul_of_nonneg_left first positive.le
    unfold sumValue at reached
    rw [minValue, rightValue, Int.tmod_eq_emod_of_nonneg low, maxValue] at reached
    omega
  obtain ⟨listed, members⟩ := list_up canonical some few (fits.list few) (by omega)
    fun k first _ reached => absurd reached (sums k first)
  intro given
  obtain ⟨k, first, -, reached, -⟩ := (members _).mp (rlMin_mem listed given)
  exact absurd reached (sums k first)

/-- The range is read as negative numbers, the divisor is not, and the sums are listed. -/
theorem falseSound_large_few (small : right.val < 2 ^ 63) (large : 2 ^ 63 ≤ (rlMin orig).val)
    (isFew : ((rlMax orig).val - (rlMin orig).val) / right.val < 5) :
    FalseSound orig right ↔
      (2 ^ 64 - (rlMax orig).val ≤ ((2 ^ 64 - (rlMin orig).val) / right.val - 1) * right.val →
        ∀ v ∈ rlSet orig, right.val ∣ v → right.val ∣ 2 ^ 64 ∧
          v ≠ 2 ^ 64 - (2 ^ 64 - (rlMin orig).val) / right.val * right.val) := by
  obtain ⟨low, order, top⟩ := ends canonical some nonneg
  have wide : 2 ^ 63 ≤ right.type.hi := by omega
  have high := (bounds_of_wide wide).2.1
  obtain ⟨minValue, -⟩ := negated_of_large large
  have maxValue := value_of_large (large.trans order)
  have rightValue := value_of_small positive.le small
  have few := fewMultiples_iff_span canonical some nonneg fits positive small (by omega)
  have quotient := Int.mul_ediv_add_emod (2 ^ 64 - (rlMin orig).val) right.val
  rw [mul_comm] at quotient
  have rest := Int.emod_nonneg (2 ^ 64 - (rlMin orig).val) positive.ne'
  have less := Int.emod_lt_of_pos (2 ^ 64 - (rlMin orig).val) positive
  have span := (Int.ediv_lt_iff_lt_mul positive).mp isFew
  have sum : ∀ k, sumValue orig right k =
      right.val * k - (2 ^ 64 - (rlMin orig).val) / right.val * right.val := by
    intro k
    unfold sumValue
    rw [minValue, rightValue, Int.neg_tmod, Int.tmod_eq_emod_of_nonneg (by omega)]
    omega
  generalize (2 ^ 64 - (rlMin orig).val) / right.val = q at quotient sum ⊢
  obtain ⟨listed, members⟩ := list_up canonical some (few.mpr isFew) (fits.list (few.mpr isFew))
    (by omega) fun k _ _ _ => (ofInt_wide wide _).1
  have isMember : ∀ x, x ∈ rlSet (modFalseRl orig right) ↔ ∃ k : Int, 1 ≤ k ∧ k ≤ 5 ∧
      x = 2 ^ 64 - q * right.val + right.val * k ∧ x ≤ (rlMax orig).val := by
    intro x
    rw [members x]
    refine exists_congr fun k => and_congr_right fun first => and_congr_right fun last => ?_
    have step := Int.mul_nonneg positive.le (show 0 ≤ k by omega)
    rw [(ofInt_wide wide _).2, sum, maxValue]
    constructor
    · rintro ⟨inside, rfl⟩
      omega
    · rintro ⟨rfl, inside⟩
      omega
  unfold FalseSound
  generalize modFalseRl orig right = rl at listed isMember ⊢
  have given : rl ≠ [] ↔ 2 ^ 64 - (rlMax orig).val ≤ (q - 1) * right.val := by
    rw [Int.sub_mul, Int.one_mul]
    constructor
    · intro given
      obtain ⟨k, first, -, value, inside⟩ := (isMember _).mp (rlMin_mem listed given)
      have := Int.mul_le_mul_of_nonneg_left first positive.le
      omega
    · rintro reached rfl
      exact mem_rlSet_nil _ ((isMember _).mpr ⟨1, le_rfl, by decide, rfl, by omega⟩)
  rw [given]
  refine imp_congr_right fun _ => forall₂_congr fun v member => imp_congr_right fun multiple => ?_
  have above := rlMin_le canonical member
  have below := le_rlMax canonical member
  rw [isMember]
  constructor
  · rintro ⟨k, first, last, same, inside⟩
    have step := Int.mul_le_mul_of_nonneg_left first positive.le
    refine ⟨?_, by omega⟩
    have whole : (2 : Int) ^ 64 = v + q * right.val - right.val * k := by omega
    rw [whole]
    exact Int.dvd_sub (Int.dvd_add multiple (Int.dvd_mul_left _ _)) (Int.dvd_mul_right _ _)
  · rintro ⟨whole, other⟩
    obtain ⟨j, same⟩ := Int.dvd_sub whole multiple
    have notMore : j ≤ q := by
      by_contra more
      have := Int.mul_le_mul_of_nonneg_left (show q + 1 ≤ j by omega) positive.le
      rw [Int.mul_add, Int.mul_one, Int.mul_comm right.val q] at this
      omega
    have notSame : j ≠ q := by
      rintro rfl
      rw [Int.mul_comm] at same
      omega
    have notLess : q - 5 < j := by
      by_contra other
      have := Int.mul_le_mul_of_nonneg_left (show j ≤ q - 5 by omega) positive.le
      rw [Int.mul_sub, Int.mul_comm right.val q] at this
      omega
    refine ⟨q - j, by omega, by omega, ?_, below⟩
    rw [Int.mul_sub, Int.mul_comm right.val q]
    omega

/-- The ends of such a range are cut at the multiples of another number. -/
theorem falseSound_large_many (small : right.val < 2 ^ 63) (large : 2 ^ 63 ≤ (rlMin orig).val)
    (isMany : ¬ ((rlMax orig).val - (rlMin orig).val) / right.val < 5) :
    FalseSound orig right ↔
      ¬ (right.val ∣ (rlMax orig).val ∧ ¬ right.val ∣ 2 ^ 64 ∧
        right.val ≤ 2 ^ 64 - (rlMax orig).val) := by
  have least := rlMin_mem canonical some
  have most := rlMax_mem canonical some
  obtain ⟨low, order, top⟩ := ends canonical some nonneg
  have wide : 2 ^ 63 ≤ right.type.hi := by omega
  have high := (bounds_of_wide wide).2.1
  have few := fewMultiples_iff_span canonical some nonneg fits positive small
    (by rw [value_of_large large, value_of_large (large.trans order)]; ring)
  have none : chopLow orig right = [] := by
    refine if_neg fun both => ?_
    have minUvalue := uvalue_of_nonneg low
    have rightUvalue := uvalue_of_nonneg positive.le
    omega
  have here : modFalseRl orig right = chopHigh orig right [] := by
    rw [← none]
    exact if_neg (mt few.mp isMany)
  have long : right.val ≤ (rlMax orig).val - (rlMin orig).val := by
    have := (Int.le_ediv_iff_mul_le positive).mp (show 1 ≤ ((rlMax orig).val - (rlMin orig).val) /
      right.val by omega)
    omega
  unfold FalseSound
  rw [here]
  rcases chopHigh_large canonical some (large.trans order) positive
    (Or.inl (value_of_small positive.le small)) KeepsMultiples.null with
    ⟨same, last⟩ | ⟨inexact, kept⟩
  · rw [same]
    refine iff_of_true (fun given => absurd rfl given) ?_
    rintro ⟨multiple, other, far⟩
    apply other
    rcases last with last | exactly
    · have one : right.val = 1 := by omega
      rw [one]
      exact one_dvd _
    · have whole : (2 : Int) ^ 64 = (2 ^ 64 - (rlMax orig).val) + (rlMax orig).val := by omega
      rw [whole]
      exact Int.dvd_add exactly multiple
  · rw [if_pos rfl] at kept
    have notWhole : right.val ∣ (rlMax orig).val → ¬ right.val ∣ 2 ^ 64 :=
      fun multiple whole => inexact (Int.dvd_sub whole multiple)
    constructor
    · rintro sound ⟨multiple, -, far⟩
      have left : (rlMin orig).val ∈ rlSet (chopHigh orig right []) := by
        refine (kept.mem_iff _).mpr ⟨least, ?_⟩
        rw [if_neg (by omega)]
        omega
      have lost := sound (fun null => mem_rlSet_nil _ (null ▸ left)) _ most multiple
      have test := ((kept.mem_iff _).mp lost).2
      rw [if_neg (by omega)] at test
      exact absurd test (lt_irrefl _)
    · intro fine given v member multiple
      refine (kept.mem_iff v).mpr ⟨member, ?_⟩
      have below := le_rlMax canonical member
      split_ifs with near
      · -- Everything is removed.
        have first := (kept.mem_iff _).mp (rlMin_mem kept.canonical given)
        rw [if_pos near] at first
        have := rlMin_le canonical first.1
        omega
      · refine lt_of_le_of_ne below fun same => fine ?_
        rw [same] at multiple
        exact ⟨multiple, notWhole multiple, by omega⟩

end Small

section Wide

variable (typed : right.OfType right.type) (far : 2 ^ 63 ≤ right.val)

omit canonical some nonneg fits in
theorem eq_of_dvd (far : 2 ^ 63 ≤ right.val) {v : Int} (low : 0 ≤ v) (high : v < 2 ^ 64)
    (multiple : right.val ∣ v) : v = 0 ∨ v = right.val := by
  obtain ⟨k, rfl⟩ := multiple
  have none : 0 ≤ k := by
    by_contra negative
    have := Int.mul_le_mul_of_nonneg_left (show k ≤ -1 by omega) (show 0 ≤ right.val by omega)
    omega
  have one : k ≤ 1 := by
    by_contra more
    have := Int.mul_le_mul_of_nonneg_left (show 2 ≤ k by omega) (show 0 ≤ right.val by omega)
    omega
  rcases (show k = 0 ∨ k = 1 by omega) with rfl | rfl
  · exact Or.inl (mul_zero _)
  · exact Or.inr (mul_one _)

include typed far

/-- The multiples can be zero and the divisor, and zero is not among the sums. -/
theorem falseSound_wide_few (inside : (rlMin orig).val < 2 ^ 63)
    (few : fewMultiples orig right = true) :
    FalseSound orig right ↔
      ¬ ((rlMin orig).val = 0 ∧ -(2 ^ 64 - right.val) ≤ (rlMax orig).value) := by
  have least := rlMin_mem canonical some
  obtain ⟨low, order, top⟩ := ends canonical some nonneg
  have wide : 2 ^ 63 ≤ right.type.hi := far.trans typed.2.2
  have high := (bounds_of_wide wide).2.1
  have minValue := value_of_small low inside
  obtain ⟨rightValue, unit⟩ := negated_of_large far
  obtain ⟨listed, members, sums⟩ := list_down canonical some few (fits.list few) (by omega) wide
  have split := Int.mul_ediv_add_emod (rlMin orig).val (2 ^ 64 - right.val)
  have quotient := Int.ediv_nonneg low unit.le
  have sum : ∀ k, sumValue orig right k =
      (2 ^ 64 - right.val) * ((rlMin orig).val / (2 ^ 64 - right.val)) -
        (2 ^ 64 - right.val) * k := by
    intro k
    unfold sumValue
    rw [minValue, rightValue, Int.tmod_neg, Int.tmod_eq_emod_of_nonneg low, Int.neg_mul]
    omega
  constructor
  · rintro sound ⟨zero, own⟩
    rw [zero] at least sum
    have start : sumValue orig right 1 ≤ (rlMax orig).value := by
      rw [sum, Int.zero_ediv]
      omega
    have given : modFalseRl orig right ≠ [] := fun null => by
      have := (members _).mpr ⟨start, 1, le_rfl, by decide, rfl⟩
      rw [null] at this
      exact mem_rlSet_nil _ this
    obtain ⟨-, k, first, last, same⟩ := (members 0).mp (sound given 0 least (Int.dvd_zero _))
    have small := sums start k first last
    have step := Int.mul_le_mul_of_nonneg_left first unit.le
    rw [sum, Int.zero_ediv] at same small
    unfold LongFits at small
    omega
  · intro condition given v member multiple
    obtain ⟨start, -⟩ := (members _).mp (rlMin_mem listed given)
    have first := rlMin_le canonical member
    have last := le_rlMax canonical member
    rcases eq_of_dvd far (by omega) (by omega) multiple with zero | own
    · have none : (rlMin orig).val = 0 := by omega
      rw [sum, none, Int.zero_ediv] at start
      exact absurd ⟨none, by omega⟩ condition
    · have maxValue := value_of_large (show 2 ^ 63 ≤ (rlMax orig).val by omega)
      have none : (rlMin orig).val / (2 ^ 64 - right.val) = 0 := by
        by_contra other
        have := Int.mul_le_mul_of_nonneg_left
          (show 1 ≤ (rlMin orig).val / (2 ^ 64 - right.val) by omega) unit.le
        rw [sum, maxValue] at start
        omega
      refine (members v).mpr ⟨start, 1, le_rfl, by decide, ?_⟩
      rw [sum, none]
      omega

theorem falseSound_wide_narrow (narrow : (rlMax orig).val < 2 ^ 63) :
    FalseSound orig right ↔ 0 < (rlMin orig).val := by
  obtain ⟨low, order, top⟩ := ends canonical some nonneg
  have maxValue := value_of_small (low.trans order) narrow
  have bounds := right.val_bounds
  have few : fewMultiples orig right = true := by
    refine (fewMultiples_iff low (fits.span ((svalIsPositive_iff _).mpr low)).1).mpr ?_
    have quotient := Int.tdiv_nonneg (show 0 ≤ (rlMax orig).val - (rlMin orig).val by omega)
      (show 0 ≤ 2 ^ 64 - right.val by omega)
    rw [maxValue, value_of_small low (by omega), value_of_large far,
      show right.val - 2 ^ 64 = -(2 ^ 64 - right.val) by ring, Int.tdiv_neg]
    omega
  rw [falseSound_wide_few canonical some nonneg fits typed far (by omega) few, maxValue]
  omega

theorem falseSound_wide_across (large : 2 ^ 63 ≤ (rlMax orig).val)
    (inside : (rlMin orig).val < 2 ^ 63) :
    FalseSound orig right ↔ ¬ ((rlMin orig).val = 0 ∧ right.val ≤ (rlMax orig).val) := by
  obtain ⟨low, order, top⟩ := ends canonical some nonneg
  have high := (bounds_of_wide (far.trans typed.2.2)).2.1
  have maxValue := value_of_large large
  have positive : 0 < right.val := by omega
  obtain ⟨rightValue, unit⟩ := negated_of_large far
  have few := @fewMultiples_iff orig right low (fits.span ((svalIsPositive_iff _).mpr low)).1
  rw [maxValue, value_of_small low inside, show (rlMax orig).val - 2 ^ 64 - (rlMin orig).val =
      -((2 ^ 64 - (rlMax orig).val) + (rlMin orig).val) by ring,
    rightValue, Int.neg_tdiv_neg, Int.tdiv_eq_ediv_of_nonneg (by omega),
    Int.ediv_lt_iff_lt_mul unit] at few
  by_cases isFew : 2 ^ 64 - (rlMax orig).val + (rlMin orig).val < 5 * (2 ^ 64 - right.val)
  · rw [falseSound_wide_few canonical some nonneg fits typed far inside (few.mpr isFew),
      maxValue]
    omega
  · have here : modFalseRl orig right = chopHigh orig right (chopLow orig right) :=
      if_neg (mt few.mp isFew)
    have keeps := chopLow_keeps canonical some nonneg positive typed
    refine iff_of_true ?_ (by omega)
    unfold FalseSound
    rw [here]
    intro given v member multiple
    rcases chopHigh_large canonical some large unit (Or.inr rightValue) keeps with
      ⟨same, -⟩ | ⟨inexact, kept⟩
    · rw [same] at given ⊢
      exact keeps.2.2 given v member multiple
    · obtain ⟨-, sub, base⟩ := keeps.base canonical
      have last := le_rlMax canonical member
      have first := rlMin_le canonical member
      refine (kept.mem_iff v).mpr ⟨base v member multiple, ?_⟩
      split_ifs with near
      · -- What is left is zero, but then the range is too long.
        obtain ⟨old, small⟩ := (kept.mem_iff _).mp (rlMin_mem kept.canonical given)
        rw [if_pos near] at small
        have := rlMin_le canonical (sub _ old)
        omega
      · refine lt_of_le_of_ne last fun same => inexact ?_
        rcases eq_of_dvd far (by omega) (by omega) multiple with zero | own
        · omega
        · rw [← same, own]

theorem falseSound_wide_large (large : 2 ^ 63 ≤ (rlMin orig).val) :
    FalseSound orig right ↔ right.val ∉ rlSet orig := by
  obtain ⟨low, order, top⟩ := ends canonical some nonneg
  have wide : 2 ^ 63 ≤ right.type.hi := far.trans typed.2.2
  have high := (bounds_of_wide wide).2.1
  obtain ⟨minValue, -⟩ := negated_of_large large
  have maxValue := value_of_large (large.trans order)
  obtain ⟨rightValue, unit⟩ := negated_of_large far
  have few : fewMultiples orig right = true := by
    refine (fewMultiples_iff low (fits.span ((svalIsPositive_iff _).mpr low)).1).mpr ?_
    have quotient := Int.tdiv_nonneg (show 0 ≤ (rlMax orig).val - (rlMin orig).val by omega) unit.le
    rw [show (rlMax orig).value - (rlMin orig).value = (rlMax orig).val - (rlMin orig).val by omega,
      rightValue, Int.tdiv_neg]
    omega
  obtain ⟨-, members, sums⟩ := list_down canonical some few (fits.list few) (by omega) wide
  have split := Int.mul_ediv_add_emod (2 ^ 64 - (rlMin orig).val) (2 ^ 64 - right.val)
  have rest := Int.emod_lt_of_pos (2 ^ 64 - (rlMin orig).val) unit
  have sum : ∀ k, sumValue orig right k =
      -((2 ^ 64 - right.val) * ((2 ^ 64 - (rlMin orig).val) / (2 ^ 64 - right.val))) -
        (2 ^ 64 - right.val) * k := by
    intro k
    unfold sumValue
    rw [minValue, rightValue, Int.neg_tmod, Int.tmod_neg, Int.tmod_eq_emod_of_nonneg (by omega),
      Int.neg_mul]
    omega
  have start : sumValue orig right 1 ≤ (rlMax orig).value := by
    rw [sum, maxValue]
    omega
  constructor
  · intro sound member
    have first := rlMin_le canonical member
    have given : modFalseRl orig right ≠ [] := fun null => by
      have := (members _).mpr ⟨start, 1, le_rfl, by decide, rfl⟩
      rw [null] at this
      exact mem_rlSet_nil _ this
    obtain ⟨-, k, one, last, same⟩ :=
      (members _).mp (sound given _ member (Int.dvd_refl _))
    have small := sums start k one last
    have step := Int.mul_le_mul_of_nonneg_left one unit.le
    have some : 1 ≤ (2 ^ 64 - (rlMin orig).val) / (2 ^ 64 - right.val) :=
      (Int.le_ediv_iff_mul_le unit).mpr (by omega)
    have further := Int.mul_le_mul_of_nonneg_left some unit.le
    unfold LongFits at small
    rw [sum] at same small
    omega
  · intro outside _ v member multiple
    have first := rlMin_le canonical member
    have last := le_rlMax canonical member
    rcases eq_of_dvd far (by omega) (by omega) multiple with zero | own
    · omega
    · exact absurd (own ▸ member) outside

end Wide

theorem falseSound_iff (typed : right.OfType right.type) (positive : 0 < right.val) :
    FalseSound orig right ↔ KeepsAll orig right := by
  unfold KeepsAll
  split_ifs with small narrow inside few narrow inside
  · exact falseSound_narrow canonical some nonneg fits positive typed small narrow
  · exact iff_of_true (falseSound_across canonical some nonneg fits positive small
      (not_lt.mp narrow) inside) trivial
  · exact falseSound_large_few canonical some nonneg fits positive small (not_lt.mp inside) few
  · exact falseSound_large_many canonical some nonneg fits positive small (not_lt.mp inside) few
  · exact falseSound_wide_narrow canonical some nonneg fits typed (not_lt.mp small) narrow
  · exact falseSound_wide_across canonical some nonneg fits typed (not_lt.mp small)
      (not_lt.mp narrow) inside
  · exact falseSound_wide_large canonical some nonneg fits typed (not_lt.mp small)
      (not_lt.mp inside)

end Regions

/-- `handle_MOD_condition` overflows nowhere and is right exactly when it overflows nowhere, takes
no greatest value for a multiple that is none, and leaves no multiple out. -/
theorem handleModCondition_sound_iff (canonical : Canonical right.type orig)
    (typed : right.OfType right.type) (nonneg : ∀ v ∈ rlSet orig, 0 ≤ v)
    (positive : 0 < right.val) :
    (NoOverflow orig right ∧ (handleModCondition orig right).Sound orig (ModHolds right)) ↔
      NoOverflow orig right ∧ (orig = [] ∨ ¬ CutsOther orig right ∧ KeepsAll orig right) := by
  refine and_congr_right fun fits => ?_
  by_cases some : orig = []
  · subst some
    exact iff_of_true ⟨fun _ v member => absurd member (mem_rlSet_nil v),
      fun _ v member => absurd member (mem_rlSet_nil v)⟩ (Or.inl rfl)
  have divisor : right.value ≠ 0 := by
    intro zero
    have bounds := right.val_bounds
    rw [right.value_eq] at zero
    omega
  have multiple : ∀ v, ¬ ModHolds right v ↔ right.val ∣ v := fun v => by
    unfold ModHolds
    rw [not_not, Int.dvd_iff_emod_eq_zero]
  rw [or_iff_right some, ← modTrueRl_sound_iff canonical some nonneg,
    ← falseSound_iff canonical some nonneg fits typed positive]
  unfold handleModCondition Branches.Sound FalseSound
  rw [if_neg divisor]
  simp only [multiple]

end Sound

def tenRl : RangeList := [⟨intCtype.ofInt 0, intCtype.ofInt 10⟩]

/-- The theorem for `x % 5` from zero on, where the list leaves out zero. -/
theorem handleModCondition_sound_iff_five :
    (NoOverflow tenRl (intCtype.ofInt 5) ∧
      (handleModCondition tenRl (intCtype.ofInt 5)).Sound tenRl (ModHolds (intCtype.ofInt 5))) ↔
    NoOverflow tenRl (intCtype.ofInt 5) ∧ (tenRl = [] ∨
      ¬ CutsOther tenRl (intCtype.ofInt 5) ∧ KeepsAll tenRl (intCtype.ofInt 5)) :=
  handleModCondition_sound_iff (by decide) (by decide)
    (fun v member => by
      have low := rlMin_le (show Canonical intCtype tenRl by decide) member
      have least : (rlMin tenRl).val = 0 := by decide
      omega) (by decide)

/-- The false state for `x % 5` is five and ten, although zero is a multiple. -/
theorem handleModCondition_unsound_five :
    ¬ (handleModCondition tenRl (intCtype.ofInt 5)).Sound tenRl
      (ModHolds (intCtype.ofInt 5)) := by
  rintro ⟨-, sound⟩
  exact absurd (sound (by decide) 0 (by decide) (by decide)) (by decide)

/-- The five multiples up to the end of `long long` are listed, and no sum overflows. -/
example : (handleModCondition [⟨llongCtype.ofInt (2 ^ 63 - 15), llongCtype.ofInt (2 ^ 63 - 1)⟩]
    (llongCtype.ofInt 3)).falseRl = [14, 11, 8, 5, 2].map fun n =>
      ⟨llongCtype.ofInt (2 ^ 63 - n), llongCtype.ofInt (2 ^ 63 - n)⟩ := by decide

end SmatchFormal.Extra
