import SmatchFormal.Extra.Masks

/-!
# Conditions on a remainder

For `x % d` with a known divisor `handle_MOD_condition` takes zero and the greatest value away
on the true side.  On the false side it lists the multiples of the divisor if they are few,
and else cuts the two ends of the range.
-/

namespace SmatchFormal.Extra

open SmatchFormal.Ranges

def addValue (sval : Sval) (add : Int) : Sval := sval.type.ofInt (sval.value + add)

def cutMaxMultiple (rl : RangeList) (right : Sval) : RangeList :=
  if !svalIsMax (rlMax rl) && decide ((rlMax rl).value.tmod right.value = 0) then
    removeRange rl (rlMax rl) (rlMax rl)
  else rl

/-- `zero` of the type of the list; without a list nothing is removed from it. -/
def rlZero (rl : RangeList) : Sval := ⟨(rlType rl).getD llongCtype, 0⟩

def modTrueRl (orig : RangeList) (right : Sval) : RangeList :=
  let rl := cutMaxMultiple (removeRange orig (rlZero orig) (rlZero orig)) right
  if rlEquiv rl orig then [] else rl

def fewMultiples (orig : RangeList) (right : Sval) : Bool :=
  svalIsPositive (rlMin orig) &&
    decide ((BitVec.ofInt 64 ((rlMax orig).value - (rlMin orig).value)).toInt.tdiv right.value < 5)

def firstMultiple (min right : Sval) : Sval :=
  addValue (addValue min (right.value - min.value.tmod right.value)) (-right.value)

def addMultiples (max right : Sval) : Nat → Sval → RangeList → RangeList
  | 0, _, falseRl => falseRl
  | i + 1, add, falseRl =>
    let add := addValue add right.value
    if add.value > max.value then falseRl
    else addMultiples max right i add (addRange falseRl add add)

def chopLow (orig : RangeList) (right : Sval) : RangeList :=
  if (rlMin orig).uvalue ≠ 0 ∧ (rlMin orig).uvalue < right.uvalue then
    removeRange orig (rlZero orig) (subOne right)
  else []

def chopHigh (orig : RangeList) (right : Sval) (falseRl : RangeList) : RangeList :=
  let max := rlMax orig
  if !svalIsMax max && decide (max.value.tmod right.value ≠ 0) then
    let chop := addValue (addValue max (-max.value.tmod right.value)) 1
    removeRange (if falseRl = [] then orig else falseRl) chop max
  else falseRl

def modFalseRl (orig : RangeList) (right : Sval) : RangeList :=
  if fewMultiples orig right then
    addMultiples (rlMax orig) right 5 (firstMultiple (rlMin orig) right) []
  else chopHigh orig right (chopLow orig right)

/-- `handle_MOD_condition`, of a left operand with the range `orig` and a known right one. -/
def handleModCondition (orig : RangeList) (right : Sval) : Branches :=
  if right.value = 0 then ⟨[], []⟩ else ⟨modTrueRl orig right, modFalseRl orig right⟩

def ModHolds (right : Sval) (v : Int) : Prop := v % right.val ≠ 0

instance (right : Sval) (v : Int) : Decidable (ModHolds right v) :=
  inferInstanceAs (Decidable (_ ≠ _))

def LongFits (n : Int) : Prop := -2 ^ 63 ≤ n ∧ n < 2 ^ 63

/-- The only quotient that no `long long` holds. -/
def QuotientFits (a b : Int) : Prop := ¬ (a = -2 ^ 63 ∧ b = -1)

/-- `add.value` when the multiples are listed: at the start of the loop, and after `k` sums. -/
def sumValue (orig : RangeList) (right : Sval) (k : Int) : Int :=
  (rlMin orig).value - (rlMin orig).value.tmod right.value + right.value * k

def ListFits (orig : RangeList) (right : Sval) : Prop :=
  QuotientFits (rlMin orig).value right.value ∧
    LongFits (right.value - (rlMin orig).value.tmod right.value) ∧
    LongFits (sumValue orig right 0) ∧
    ∀ k : Nat, k < 5 → (∀ j : Nat, j < k → sumValue orig right (j + 1) ≤ (rlMax orig).value) →
      LongFits (sumValue orig right (k + 1))

def CutsFit (orig : RangeList) (right : Sval) : Prop :=
  ((rlMin orig).uvalue ≠ 0 ∧ (rlMin orig).uvalue < right.uvalue → LongFits (right.value - 1)) ∧
    (svalIsMax (rlMax orig) = false → QuotientFits (rlMax orig).value right.value ∧
      ((rlMax orig).value.tmod right.value ≠ 0 →
        LongFits ((rlMax orig).value - (rlMax orig).value.tmod right.value) ∧
        LongFits ((rlMax orig).value - (rlMax orig).value.tmod right.value + 1)))

/-- No operation on `long long` values overflows. -/
structure NoOverflow (orig : RangeList) (right : Sval) : Prop where
  rest : svalIsMax (rlMax (removeRange orig (rlZero orig) (rlZero orig))) = false →
    QuotientFits (rlMax (removeRange orig (rlZero orig) (rlZero orig))).value right.value
  span : svalIsPositive (rlMin orig) = true →
    LongFits ((rlMax orig).value - (rlMin orig).value) ∧
      QuotientFits ((rlMax orig).value - (rlMin orig).value) right.value
  list : fewMultiples orig right = true → ListFits orig right
  cuts : fewMultiples orig right = false → CutsFit orig right

/-- The greatest value is taken for a multiple, as the code reads both numbers, and is none.  The
true state is set when something else than zero is left. -/
def CutsOther (orig : RangeList) (right : Sval) : Prop :=
  (rlMax orig).val ≠ right.type.hi ∧ right.value ∣ (rlMax orig).value ∧
    ¬ right.val ∣ (rlMax orig).val ∧ ∃ v ∈ rlSet orig, v ≠ 0 ∧ v ≠ (rlMax orig).val

/-- The false state leaves no multiple out.  Numbers from `2 ^ 63` on are read as negative ones. -/
def KeepsAll (orig : RangeList) (right : Sval) : Prop :=
  if right.val < 2 ^ 63 then
    if (rlMax orig).val < 2 ^ 63 then
      ¬ (((rlMax orig).val - (rlMin orig).val) / right.val < 5 ∧ right.val ∣ (rlMin orig).val ∧
        (rlMin orig).val + right.val ≤ (rlMax orig).val)
    else if (rlMin orig).val < 2 ^ 63 then True
    else if ((rlMax orig).val - (rlMin orig).val) / right.val < 5 then
      2 ^ 64 - (rlMax orig).val ≤ ((2 ^ 64 - (rlMin orig).val) / right.val - 1) * right.val →
        ∀ v ∈ rlSet orig, right.val ∣ v →
          right.val ∣ 2 ^ 64 ∧ v ≠ 2 ^ 64 - (2 ^ 64 - (rlMin orig).val) / right.val * right.val
    else
      ¬ (right.val ∣ (rlMax orig).val ∧ ¬ right.val ∣ 2 ^ 64 ∧
        right.val ≤ 2 ^ 64 - (rlMax orig).val)
  else if (rlMax orig).val < 2 ^ 63 then 0 < (rlMin orig).val
  else if (rlMin orig).val < 2 ^ 63 then ¬ ((rlMin orig).val = 0 ∧ right.val ≤ (rlMax orig).val)
  else right.val ∉ rlSet orig

section Numbers

variable {type : Ctype} {sval right : Sval}

theorem value_of_small (low : 0 ≤ sval.val) (high : sval.val < 2 ^ 63) :
    sval.value = sval.val := by
  rw [sval.value_eq]
  omega

theorem value_of_large (low : 2 ^ 63 ≤ sval.val) : sval.value = sval.val - 2 ^ 64 := by
  have bounds := sval.val_bounds
  rw [sval.value_eq]
  omega

theorem negated_of_large (low : 2 ^ 63 ≤ sval.val) :
    sval.value = -(2 ^ 64 - sval.val) ∧ 0 < 2 ^ 64 - sval.val := by
  have bounds := sval.val_bounds
  rw [value_of_large low]
  omega

theorem uvalue_of_nonneg (low : 0 ≤ sval.val) : (sval.uvalue : Int) = sval.val := by
  have bounds := sval.val_bounds
  rw [sval.uvalue_eq]
  omega

theorem addValue_ofType {add : Int} (typed : sval.type = type) (small : sval.value = sval.val)
    (low : type.lo ≤ sval.val + add) (high : sval.val + add ≤ type.hi) :
    (addValue sval add).OfType type ∧ (addValue sval add).val = sval.val + add := by
  unfold addValue
  rw [typed, small]
  exact ⟨Ctype.ofInt_ofType low high, Ctype.ofInt_val low high⟩

theorem addValue_value {add : Int} (fits : LongFits (sval.value + add)) :
    (addValue sval add).value = sval.value + add :=
  BitVec.toInt_ofInt_eq_self (by decide) fits.1 fits.2

/-- A type with numbers from `2 ^ 63` on is `unsigned long long`. -/
theorem bounds_of_wide (wide : 2 ^ 63 ≤ type.hi) :
    type.lo = 0 ∧ type.hi = 2 ^ 64 - 1 ∧ typeUnsigned type = true := by
  unfold Ctype.hi at wide
  unfold Ctype.lo Ctype.hi typeUnsigned
  revert wide
  cases type.kind <;> decide

theorem ofInt_wide (wide : 2 ^ 63 ≤ type.hi) (x : Int) :
    (type.ofInt x).OfType type ∧ (type.ofInt x).val = x % 2 ^ 64 := by
  obtain ⟨low, high, unsigned⟩ := bounds_of_wide wide
  have value : (type.ofInt x).val = x % 2 ^ 64 := by
    rw [Sval.val_of_unsigned (show typeUnsigned (type.ofInt x).type = true from unsigned)]
    unfold Ctype.ofInt Sval.uvalue
    rw [BitVec.toNat_ofInt]
    omega
  refine ⟨⟨rfl, ?_, ?_⟩, value⟩
  · rw [value, low]
    omega
  · rw [value, high]
    omega

end Numbers

section Multiples

variable {type : Ctype} {max right add : Sval} {falseRl : RangeList}

/-- The loop adds the sums up to the first one above the maximum. -/
theorem addMultiples_spec (i : Nat) (start : Canonical type falseRl) (addType : add.type = type)
    (fits : ∀ k : Nat, k < i →
      (∀ j : Nat, j < k → add.value + right.value * (j + 1) ≤ max.value) →
        LongFits (add.value + right.value * (k + 1)))
    (typed : ∀ k : Nat, k < i →
      (∀ j : Nat, j ≤ k → add.value + right.value * (j + 1) ≤ max.value) →
        (type.ofInt (add.value + right.value * (k + 1))).OfType type) :
    Canonical type (addMultiples max right i add falseRl) ∧
      ∀ x, x ∈ rlSet (addMultiples max right i add falseRl) ↔
        x ∈ rlSet falseRl ∨ ∃ k : Nat, k < i ∧
          (∀ j : Nat, j ≤ k → add.value + right.value * (j + 1) ≤ max.value) ∧
            x = (type.ofInt (add.value + right.value * (k + 1))).val := by
  induction i generalizing add falseRl with
  | zero =>
    refine ⟨start, fun x => ⟨Or.inl, ?_⟩⟩
    rintro (old | ⟨k, none, -⟩)
    · exact old
    · exact absurd none (Nat.not_lt_zero k)
  | succ i ih =>
    have single : add.value + right.value * (((0 : Nat) : Int) + 1) = add.value + right.value := by
      rw [Nat.cast_zero, zero_add, mul_one]
    have fitsFirst := fits 0 (Nat.succ_pos i) fun j less => absurd less (Nat.not_lt_zero j)
    rw [single] at fitsFirst
    have next : (addValue add right.value).value = add.value + right.value :=
      addValue_value fitsFirst
    have shift : ∀ j : Nat, (addValue add right.value).value + right.value * ((j : Int) + 1) =
        add.value + right.value * (((j + 1 : Nat) : Int) + 1) := by
      intro j
      rw [next]
      push_cast
      ring
    have same : addValue add right.value = type.ofInt (add.value + right.value) := by
      unfold addValue
      rw [addType]
    unfold addMultiples
    dsimp only
    by_cases beyond : (addValue add right.value).value > max.value
    · rw [if_pos beyond]
      refine ⟨start, fun x => ⟨Or.inl, ?_⟩⟩
      rintro (old | ⟨k, -, below, -⟩)
      · exact old
      · have first := below 0 (Nat.zero_le k)
        rw [single, ← next] at first
        omega
    · rw [if_neg beyond]
      have first : ∀ j : Nat, j ≤ 0 → add.value + right.value * ((j : Int) + 1) ≤ max.value := by
        intro j none
        cases Nat.le_zero.mp none
        rw [single, ← next]
        omega
      -- What holds of the sums so far holds of the ones after the next.
      have later : ∀ {k : Nat}, (∀ j : Nat, j ≤ k →
          (addValue add right.value).value + right.value * ((j : Int) + 1) ≤ max.value) →
            ∀ j : Nat, j ≤ k + 1 → add.value + right.value * ((j : Int) + 1) ≤ max.value := by
        intro k below j le
        cases j with
        | zero => exact first 0 le_rfl
        | succ j =>
          rw [← shift]
          exact below j (Nat.le_of_succ_le_succ le)
      have own := typed 0 (Nat.succ_pos i) first
      rw [single, ← same] at own
      have joined := addRange_joined own own le_rfl start
      obtain ⟨canonical, members⟩ := ih joined.canonical own.1
        (fun k less below => by
          rw [shift]
          refine fits (k + 1) (Nat.succ_lt_succ less) fun j inside => ?_
          cases j with
          | zero => exact first 0 le_rfl
          | succ j =>
            rw [← shift]
            exact below j (Nat.lt_of_succ_lt_succ inside))
        (fun k less below => by
          rw [shift]
          exact typed (k + 1) (Nat.succ_lt_succ less) (later below))
      refine ⟨canonical, fun x => ?_⟩
      rw [members x, joined.mem_iff x]
      constructor
      · rintro ((new | old) | ⟨k, less, below, rfl⟩)
        · refine Or.inr ⟨0, Nat.succ_pos i, first, ?_⟩
          rw [single, ← same]
          omega
        · exact Or.inl old
        · exact Or.inr ⟨k + 1, Nat.succ_lt_succ less, later below, by rw [shift]⟩
      · rintro (old | ⟨k, less, below, rfl⟩)
        · exact Or.inl (Or.inr old)
        · cases k with
          | zero =>
            rw [single, ← same]
            exact Or.inl (Or.inl ⟨le_rfl, le_rfl⟩)
          | succ k =>
            refine Or.inr ⟨k, Nat.lt_of_succ_lt_succ less, fun j le => ?_, by rw [shift]⟩
            rw [shift]
            exact below (j + 1) (Nat.succ_le_succ le)

end Multiples

section TrueSide

variable {orig : RangeList} {right : Sval}

theorem rlZero_ofType {type : Ctype} (canonical : Canonical type orig) (some : orig ≠ []) :
    (rlZero orig).OfType type ∧ (rlZero orig).val = 0 := by
  unfold rlZero
  rw [rlType_of_canonical canonical some]
  exact zero_ofType type

/-- The true side keeps all values that are no multiples, unless it cuts one of them. -/
theorem modTrueRl_sound_iff (canonical : Canonical right.type orig) (some : orig ≠ [])
    (nonneg : ∀ v ∈ rlSet orig, 0 ≤ v) :
    (modTrueRl orig right ≠ [] → ∀ v ∈ rlSet orig, ModHolds right v →
      v ∈ rlSet (modTrueRl orig right)) ↔ ¬ CutsOther orig right := by
  obtain ⟨zeroTyped, zero⟩ := rlZero_ofType canonical some
  have canonicalRest := removeRange_canonical zeroTyped zeroTyped (le_refl _) canonical
  have rest := removeRange_rlSet zeroTyped zeroTyped (le_refl _) canonical
  unfold modTrueRl
  generalize removeRange orig (rlZero orig) (rlZero orig) = rl at canonicalRest rest ⊢
  have members : ∀ v, v ∈ rlSet rl ↔ v ∈ rlSet orig ∧ v ≠ 0 := by
    intro v
    rw [rest, zero]
    exact and_congr_right fun _ => ⟨fun outside same =>
      outside (by rw [same]; exact ⟨le_rfl, le_rfl⟩),
      fun other inside => other (le_antisymm inside.2 inside.1)⟩
  have notZero : ∀ {v}, ModHolds right v → v ≠ 0 := by
    rintro v holds rfl
    exact holds (Int.zero_emod _)
  dsimp only
  by_cases rlSome : rl = []
  · subst rlSome
    have uncut : cutMaxMultiple [] right = [] := by
      unfold cutMaxMultiple
      rw [show svalIsMax (rlMax []) = true by decide]
      rfl
    rw [uncut, ite_self]
    refine iff_of_true (fun given => absurd rfl given) ?_
    rintro ⟨-, -, -, v, member, other, -⟩
    exact mem_rlSet_nil v ((members v).mpr ⟨member, other⟩)
  have most := rlMax_mem canonical some
  have own := (members _).mp (rlMax_mem canonicalRest rlSome)
  have top : (rlMax rl).val = (rlMax orig).val := by
    have below := le_rlMax canonical own.1
    have positive := nonneg _ own.1
    refine le_antisymm below (le_rlMax canonicalRest ((members _).mpr ⟨most, fun none => ?_⟩))
    rw [none] at below
    exact own.2 (le_antisymm below positive)
  have value : (rlMax rl).value = (rlMax orig).value := by
    rw [Sval.value_eq, Sval.value_eq, top]
  have typed := rlMax_ofType canonicalRest rlSome
  have last := svalIsMax_iff typed
  by_cases cut : (rlMax orig).val ≠ right.type.hi ∧ right.value ∣ (rlMax orig).value
  · have cutRl : cutMaxMultiple rl right = removeRange rl (rlMax rl) (rlMax rl) := by
      refine if_pos ?_
      rw [Bool.and_eq_true, Bool.not_eq_true', decide_eq_true_eq, value]
      exact ⟨Bool.eq_false_iff.mpr fun isMax => cut.1 (top ▸ last.mp isMax),
        Int.tmod_eq_zero_of_dvd cut.2⟩
    have canonicalCut := removeRange_canonical typed typed (le_refl _) canonicalRest
    have membersCut : ∀ v, v ∈ rlSet (removeRange rl (rlMax rl) (rlMax rl)) ↔
        v ∈ rlSet orig ∧ v ≠ 0 ∧ v ≠ (rlMax orig).val := by
      intro v
      rw [removeRange_rlSet typed typed (le_refl _) canonicalRest, top, ← and_assoc, ← members v]
      exact and_congr_right fun _ =>
        ⟨fun outside same => outside (by rw [same]; exact ⟨le_rfl, le_rfl⟩),
          fun other inside => other (le_antisymm inside.2 inside.1)⟩
    have differs : ¬ rlEquiv (removeRange rl (rlMax rl) (rlMax rl)) orig = true := by
      intro same
      rw [← (rlEquiv_iff canonicalCut canonical).mp same] at most
      exact ((membersCut _).mp most).2.2 rfl
    rw [cutRl, if_neg differs]
    constructor
    · rintro sound ⟨-, -, none, v, member, other, less⟩
      have given : removeRange rl (rlMax rl) (rlMax rl) ≠ [] := fun null =>
        mem_rlSet_nil v (null ▸ (membersCut v).mpr ⟨member, other, less⟩)
      have kept := sound given _ most fun rem => none (Int.dvd_of_emod_eq_zero rem)
      exact ((membersCut _).mp kept).2.2 rfl
    · intro fine given v member holds
      refine (membersCut v).mpr ⟨member, notZero holds, ?_⟩
      rintro rfl
      exact fine ⟨cut.1, cut.2, fun dvd => holds (Int.emod_eq_zero_of_dvd dvd), _,
        (membersCut _).mp (rlMin_mem canonicalCut given)⟩
  · have uncut : cutMaxMultiple rl right = rl := by
      refine if_neg fun test => cut ?_
      rw [Bool.and_eq_true, Bool.not_eq_true', decide_eq_true_eq, value] at test
      refine ⟨fun same => ?_, Int.dvd_of_tmod_eq_zero test.2⟩
      rw [last.mpr (top.trans same)] at test
      cases test.1
    rw [uncut]
    refine iff_of_true (fun given v member holds => ?_) fun cuts => cut ⟨cuts.1, cuts.2.1⟩
    split_ifs at given ⊢
    · exact absurd rfl given
    · exact (members v).mpr ⟨member, notZero holds⟩

end TrueSide

end SmatchFormal.Extra
