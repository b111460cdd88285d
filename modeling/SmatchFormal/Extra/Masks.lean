import SmatchFormal.Extra.Estate

/-!
# Conditions on a mask

For `x & m` with a known mask `handle_AND_op` cuts the range of `x` at the lowest bit of
the mask on the true side, and at the lowest bit of its run of leading ones on the false
side.
-/

namespace SmatchFormal.Extra

open SmatchFormal.Ranges

/-! ## The code -/

/-- `ffsll` of the standard library: the place of the lowest bit that is set, from one on. -/
def ffsll (bits : BitVec 64) : Nat :=
  match (List.range 64).find? fun i => bits.getLsbD i with
  | some i => i + 1
  | none => 0

/-- The loop of `get_high_mask`, with `n` more bits to look at. -/
def highMaskLoop (known ret : BitVec 64) : Nat → BitVec 64
  | 0 => ret
  | i + 1 => if known.getLsbD i then highMaskLoop known (ret ||| 1#64 <<< i) i else ret

def getHighMask (known : Sval) : Sval :=
  ⟨known.type, highMaskLoop known.raw 0 (typeBits known.type)⟩

def lowMask (known : Sval) (mask : BitVec 64) : Sval :=
  ⟨known.type, (1#64 <<< (ffsll mask - 1)) - 1⟩

/-- The two states of a condition.  An empty list is `NULL`, and no state is set for it. -/
structure Branches where
  trueRl : RangeList
  falseRl : RangeList

def andTrueRl (orig : RangeList) (known : Sval) : RangeList :=
  if known.value > 0 then removeRange orig (svalTypeVal known.type 0) (lowMask known known.raw)
  else []

def cutNegative (orig : RangeList) (known : Sval) : RangeList :=
  if svalIsNegative (rlMin orig) then
    removeRange orig (svalTypeMin known.type) (svalTypeVal known.type (-1))
  else orig

def cutMixedSigns (falseRl : RangeList) (known highMask : Sval) : RangeList :=
  match rlType falseRl with
  | some type =>
    if typeSigned highMask.type && typeUnsigned type then
      removeRange falseRl (svalTypeVal type (svalTypeMax known.type).raw) (svalTypeVal type (-1))
    else falseRl
  | none => falseRl

def highMaskRl (orig : RangeList) (known highMask : Sval) : RangeList :=
  cutMixedSigns
    (removeRange (cutNegative orig known) (lowMask known highMask.raw) (svalTypeMax known.type))
    known highMask

/-- The range of the false side; the hard maximum of the variable is known or not. -/
def andFalseRl (orig : RangeList) (known : Sval) (hardMax : Option Sval) : RangeList :=
  if (getHighMask known).raw ≠ 0 then highMaskRl orig known (getHighMask known)
  else
    match hardMax with
    | some max =>
      if known.value = 1 ∧ svalCmp max (rlMax orig) = 0 ∧ max.raw &&& 1 ≠ 0 then
        removeRange orig max max
      else []
    | none => []

def handleAndOp (orig : RangeList) (known : Sval) (hardMax : Option Sval) : Branches :=
  ⟨andTrueRl orig known, andFalseRl orig known hardMax⟩

/-! ## What the states have to contain -/

/-- Each state that is set has all values of the variable for which the condition goes its
way. -/
def Branches.Sound (orig : RangeList) (holds : Int → Prop) (branches : Branches) : Prop :=
  (branches.trueRl ≠ [] → ∀ v ∈ rlSet orig, holds v → v ∈ rlSet branches.trueRl) ∧
    (branches.falseRl ≠ [] → ∀ v ∈ rlSet orig, ¬ holds v → v ∈ rlSet branches.falseRl)

def MaskHolds (known : Sval) (v : Int) : Prop := (known.type.ofInt v).raw &&& known.raw ≠ 0

instance (known : Sval) (v : Int) : Decidable (MaskHolds known v) :=
  inferInstanceAs (Decidable (_ ≠ _))

def HighRun (known : Sval) (k : Nat) : Prop :=
  ∀ i < typeBits known.type, known.raw.getLsbD i = decide (k ≤ i)

section Bits

theorem ffsll_of_bit {bits : BitVec 64} {i : Nat} (set : bits.getLsbD i = true) :
    ∃ k ≤ i, k < 64 ∧ ffsll bits = k + 1 ∧ bits.getLsbD k = true ∧
      ∀ j < k, bits.getLsbD j = false := by
  have inside : i < 64 := BitVec.lt_of_getLsbD set
  unfold ffsll
  cases found : (List.range 64).find? fun i => bits.getLsbD i with
  | none =>
    have clear := List.find?_eq_none.mp found i (List.mem_range.mpr inside)
    exact absurd set clear
  | some k =>
    obtain ⟨own, below, first⟩ := List.find?_range_eq_some.mp found
    refine ⟨k, ?_, List.mem_range.mp below, rfl, own, ?_⟩
    · by_contra beyond
      have clear := first i (not_le.mp beyond)
      rw [set] at clear
      exact absurd clear (by decide)
    · intro j less
      exact Bool.not_eq_true' _ |>.mp (first j less)

/-- The bits of the mask from `k` on, as far as the loop got. -/
theorem highMaskLoop_spec (known : BitVec 64) (bits : Nat) (wide : bits ≤ 64) (n : Nat)
    (within : n ≤ bits) (ret : BitVec 64)
    (sofar : ∀ i, ret.getLsbD i = decide (n ≤ i ∧ i < bits))
    (ones : ∀ i, n ≤ i → i < bits → known.getLsbD i = true) :
    ∃ k ≤ bits, (∀ i, (highMaskLoop known ret n).getLsbD i = decide (k ≤ i ∧ i < bits)) ∧
      (∀ i, k ≤ i → i < bits → known.getLsbD i = true) ∧
      (∀ i, i + 1 = k → known.getLsbD i = false) := by
  induction n generalizing ret with
  | zero => exact ⟨0, within, sofar, ones, fun i last => absurd last (Nat.succ_ne_zero i)⟩
  | succ n ih =>
    unfold highMaskLoop
    by_cases set : known.getLsbD n = true
    · rw [if_pos set]
      refine ih (by omega) _ ?_ ?_
      · intro i
        rw [BitVec.getLsbD_or, sofar i, BitVec.getLsbD_shiftLeft, BitVec.getLsbD_one]
        by_cases same : i = n
        · subst same
          simp [show i < 64 by omega, show i < bits by omega]
        · by_cases less : i < n
          · simp [less, show ¬ n ≤ i by omega, show ¬ n + 1 ≤ i by omega]
          · simp [show ¬ i - n = 0 by omega, show n ≤ i by omega, show n + 1 ≤ i by omega]
      · intro i above below
        by_cases same : i = n
        · rw [same, set]
        · exact ones i (by omega) below
    · rw [if_neg set]
      refine ⟨n + 1, within, sofar, ones, fun i last => ?_⟩
      have same : i = n := Nat.succ.inj last
      rw [same]
      exact Bool.not_eq_true _ |>.mp set

theorem typeBits_le (type : Ctype) : 0 < typeBits type ∧ typeBits type ≤ 64 := by
  unfold typeBits
  cases type.kind <;> decide

theorem getHighMask_spec (known : Sval) :
    ∃ k ≤ typeBits known.type,
      (∀ i, (getHighMask known).raw.getLsbD i = decide (k ≤ i ∧ i < typeBits known.type)) ∧
      (∀ i, k ≤ i → i < typeBits known.type → known.raw.getLsbD i = true) ∧
      (∀ i, i + 1 = k → known.raw.getLsbD i = false) := by
  refine highMaskLoop_spec known.raw _ (typeBits_le known.type).2 _ (le_refl _) 0 ?_ ?_
  · intro i
    rw [show (0 : BitVec 64).getLsbD i = false from BitVec.getLsbD_zero]
    exact (decide_eq_false (by omega)).symm
  · intro i above below
    omega

/-- The bits of a number that is not negative. -/
theorem getLsbD_ofInt_natCast (type : Ctype) (n i : Nat) :
    (type.ofInt n).raw.getLsbD i = (decide (i < 64) && n.testBit i) := by
  unfold Ctype.ofInt
  rw [BitVec.ofInt_natCast, BitVec.getLsbD_ofNat]

theorem getLsbD_ofInt_neg (type : Ctype) {v : Int} (negative : v < 0) {i : Nat}
    (least : -2 ^ i ≤ v) (inside : i < 64) : (type.ofInt v).raw.getLsbD i = true := by
  unfold Ctype.ofInt
  cases v with
  | ofNat n => exact absurd negative (not_lt.mpr (Int.natCast_nonneg n))
  | negSucc n =>
    have small : n < 2 ^ i := by
      have bound : (n : Int) < ((2 ^ i : Nat) : Int) := by
        push_cast
        omega
      exact Int.ofNat_lt.mp bound
    rw [BitVec.ofInt_negSucc_eq_not_ofNat, BitVec.getLsbD_not, BitVec.getLsbD_ofNat,
      Nat.testBit_lt_two_pow small, Bool.and_false, decide_eq_true inside]
    rfl

theorem half_le_hi (type : Ctype) {k : Nat} (inside : k < typeBits type) :
    (2 : Int) ^ k - 1 ≤ type.hi := by
  have power : (2 : Int) ^ k ≤ 2 ^ (typeBits type - 1) :=
    pow_le_pow_right₀ (by decide) (by omega)
  have half : (2 : Int) ^ (typeBits type - 1) - 1 ≤ type.hi := by
    unfold typeBits Ctype.hi
    cases type.kind <;> decide
  omega

/-- A natural number that has one of the bits in a word. -/
theorem and_ne_zero_of_bit {x y : BitVec 64} {i : Nat} (first : x.getLsbD i = true)
    (second : y.getLsbD i = true) : x &&& y ≠ 0 := by
  intro zero
  have bit := congrArg (BitVec.getLsbD · i) zero
  rw [BitVec.getLsbD_and, first, second] at bit
  exact absurd (bit.trans BitVec.getLsbD_zero) (by decide)

theorem and_eq_zero_of_bits {x y : BitVec 64}
    (apart : ∀ i < 64, x.getLsbD i = true → y.getLsbD i = false) : x &&& y = 0 := by
  apply BitVec.eq_of_getLsbD_eq
  intro i inside
  rw [BitVec.getLsbD_and, show (0 : BitVec 64).getLsbD i = false from BitVec.getLsbD_zero]
  cases set : x.getLsbD i with
  | false => rfl
  | true => rw [apart i inside set]; rfl

end Bits

section Cuts

variable {orig : RangeList} {known : Sval}

theorem lowMask_eq {mask : BitVec 64} {k : Nat} (inside : k < 64) (lowest : ffsll mask = k + 1) :
    lowMask known mask = known.type.ofInt (2 ^ k - 1) := by
  have positive : 0 < 2 ^ k := Nat.two_pow_pos k
  have bit : (1#64 <<< k).toNat = 2 ^ k := BitVec.toNat_twoPow_of_lt inside
  have number : ((2 : Int) ^ k - 1) = ((2 ^ k - 1 : Nat) : Int) := by
    rw [Nat.cast_sub positive]
    push_cast
    rfl
  unfold lowMask Ctype.ofInt
  rw [lowest, Nat.add_sub_cancel, number, BitVec.ofInt_natCast]
  congr 1
  apply BitVec.eq_of_toNat_eq
  rw [BitVec.toNat_sub_of_le, bit, BitVec.toNat_ofNat]
  · have small : 2 ^ k < 2 ^ 64 := Nat.pow_lt_pow_right (by decide) inside
    exact (Nat.mod_eq_of_lt (by omega)).symm
  · rw [BitVec.le_def, bit]
    exact positive

theorem zero_ofType (type : Ctype) : (svalTypeVal type 0).OfType type ∧
    (svalTypeVal type 0).val = 0 := by
  have value : (svalTypeVal type 0).val = 0 := (Sval.raw_eq_zero_iff _).mp rfl
  obtain ⟨-, low, high, -⟩ := type.kind.bounds
  refine ⟨⟨rfl, ?_, ?_⟩, value⟩
  · rw [value]
    exact low
  · rw [value]
    exact le_trans (by decide) high

/-- The true side has all values with a bit of the mask. -/
theorem andTrueRl_sound (typed : known.OfType known.type) (canonical : Canonical known.type orig)
    (given : andTrueRl orig known ≠ []) {v : Int} (member : v ∈ rlSet orig)
    (holds : MaskHolds known v) : v ∈ rlSet (andTrueRl orig known) := by
  unfold andTrueRl at given ⊢
  by_cases positive : known.value > 0
  · rw [if_pos positive]
    have signed := BitVec.toInt_eq_toNat_cond known.raw
    have value : known.val = known.raw.toNat := by
      unfold Sval.val
      split
      · rfl
      · unfold Sval.value at positive ⊢
        split at signed <;> omega
    obtain ⟨i, set⟩ : ∃ i, known.raw.getLsbD i = true := by
      by_contra none
      refine holds (and_eq_zero_of_bits fun i _ _ => ?_)
      exact Bool.not_eq_true _ |>.mp fun set => none ⟨i, set⟩
    obtain ⟨k, -, inside, lowest, own, lower⟩ := ffsll_of_bit set
    have size : 2 ^ k ≤ known.raw.toNat := Nat.ge_two_pow_of_testBit own
    have top : (2 : Int) ^ k - 1 ≤ known.type.hi := by
      have most := typed.2.2
      have cast : ((2 ^ k : Nat) : Int) ≤ (known.raw.toNat : Int) := Int.ofNat_le.mpr size
      push_cast at cast
      omega
    have power : (1 : Int) ≤ 2 ^ k := one_le_pow₀ (by decide)
    have least := (zero_ofType known.type).1.2.1
    rw [(zero_ofType known.type).2] at least
    have high : (lowMask known known.raw).OfType known.type ∧
        (lowMask known known.raw).val = 2 ^ k - 1 := by
      rw [lowMask_eq inside lowest]
      exact ⟨Ctype.ofInt_ofType (by omega) top, Ctype.ofInt_val (by omega) top⟩
    rw [removeRange_rlSet (zero_ofType known.type).1 high.1 (by
      rw [(zero_ofType known.type).2, high.2]; omega) canonical]
    refine ⟨member, fun cut => holds ?_⟩
    rw [(zero_ofType known.type).2, high.2] at cut
    obtain ⟨n, rfl⟩ := Int.eq_ofNat_of_zero_le cut.1
    have small : n < 2 ^ k := by
      have cast : (n : Int) < ((2 ^ k : Nat) : Int) := by
        push_cast
        have := cut.2
        omega
      exact Int.ofNat_lt.mp cast
    refine and_eq_zero_of_bits fun j _ set => ?_
    rw [getLsbD_ofInt_natCast, Bool.and_eq_true] at set
    by_cases below : j < k
    · exact lower j below
    · have clear := Nat.testBit_lt_two_pow
        (small.trans_le (Nat.pow_le_pow_right (by decide) (not_lt.mp below)))
      rw [clear] at set
      exact absurd set.2 (by decide)
  · rw [if_neg positive] at given
    exact absurd rfl given

theorem cutNegative_spec (canonical : Canonical known.type orig) :
    Canonical known.type (cutNegative orig known) ∧
      ∀ v, v ∈ rlSet (cutNegative orig known) ↔ v ∈ rlSet orig ∧ 0 ≤ v := by
  unfold cutNegative
  by_cases negative : svalIsNegative (rlMin orig) = true
  · rw [if_pos negative]
    by_cases empty : orig = []
    · subst empty
      exact ⟨canonical, fun v => ⟨fun impossible => absurd impossible (mem_rlSet_nil v),
        fun both => absurd both.1 (mem_rlSet_nil v)⟩⟩
    · have low := rlMin_ofType canonical empty
      have signed : typeUnsigned known.type = false := by
        rw [← low.1]
        unfold svalIsNegative at negative
        split_ifs at negative with unsigned
        exact Bool.not_eq_true _ |>.mp unsigned
      have value : (svalTypeVal known.type (-1)).val = -1 :=
        @Sval.val_of_signed (svalTypeVal known.type (-1)) signed
      have least := known.type.lo_le_hi
      have below : known.type.lo < 0 := by
        have bound := (svalIsNegative_iff _).mp negative
        exact lt_of_le_of_lt low.2.1 bound
      have bounds := known.type.kind.bounds
      have high : (svalTypeVal known.type (-1)).OfType known.type := by
        refine ⟨rfl, ?_, ?_⟩
        · omega
        · rw [value]
          exact le_trans (by decide) bounds.2.2.1
      have order : (svalTypeMin known.type).val ≤ (svalTypeVal known.type (-1)).val := by
        rw [svalTypeMin_val, value]
        omega
      refine ⟨removeRange_canonical (svalTypeMin_ofType _) high order canonical, fun v => ?_⟩
      rw [removeRange_rlSet (svalTypeMin_ofType _) high order canonical, svalTypeMin_val, value]
      constructor
      · rintro ⟨member, kept⟩
        refine ⟨member, ?_⟩
        by_contra negative
        exact kept ⟨(canonical.mem_type member).1, by omega⟩
      · rintro ⟨member, above⟩
        exact ⟨member, fun cut => absurd cut.2 (by omega)⟩
  · rw [if_neg negative]
    have bound := not_lt.mp ((svalIsNegative_iff _).not.mp negative)
    refine ⟨canonical, fun v => ⟨fun member => ⟨member, ?_⟩, And.left⟩⟩
    exact le_trans bound (rlMin_le canonical member)

/-- Nothing is cut when the variable has the type of the mask. -/
theorem cutMixedSigns_eq (canonical : Canonical known.type orig) :
    cutMixedSigns orig known (getHighMask known) = orig := by
  unfold cutMixedSigns
  by_cases empty : orig = []
  · subst empty
    rfl
  · rw [rlType_of_canonical canonical empty]
    change (if typeSigned known.type && typeUnsigned known.type then _ else orig) = orig
    rw [if_neg]
    unfold typeSigned
    rw [Bool.not_and_self]
    exact Bool.false_ne_true

/-- The false side for a run of leading ones from place `k` on. -/
theorem highMaskRl_spec (canonical : Canonical known.type orig) {k : Nat}
    (inside : k < typeBits known.type) (lowest : ffsll (getHighMask known).raw = k + 1) :
    Canonical known.type (highMaskRl orig known (getHighMask known)) ∧
      ∀ v, v ∈ rlSet (highMaskRl orig known (getHighMask known)) ↔
        v ∈ rlSet orig ∧ 0 ≤ v ∧ v < 2 ^ k - 1 := by
  obtain ⟨positive, members⟩ := cutNegative_spec canonical
  have top := half_le_hi known.type inside
  have power : (1 : Int) ≤ 2 ^ k := one_le_pow₀ (by decide)
  have least := (zero_ofType known.type).1.2.1
  rw [(zero_ofType known.type).2] at least
  have equal := @lowMask_eq known _ k (inside.trans_le (typeBits_le known.type).2) lowest
  have low : (lowMask known (getHighMask known).raw).OfType known.type := by
    rw [equal]
    exact Ctype.ofInt_ofType (by omega) top
  have value : (lowMask known (getHighMask known).raw).val = 2 ^ k - 1 := by
    rw [equal]
    exact Ctype.ofInt_val (by omega) top
  have order : (lowMask known (getHighMask known).raw).val ≤ (svalTypeMax known.type).val := by
    rw [value, svalTypeMax_val]
    exact top
  have cut := removeRange_canonical low (svalTypeMax_ofType _) order positive
  unfold highMaskRl
  rw [cutMixedSigns_eq cut]
  refine ⟨cut, fun v => ?_⟩
  rw [removeRange_rlSet low (svalTypeMax_ofType _) order positive, value, svalTypeMax_val]
  constructor
  · rintro ⟨member, kept⟩
    obtain ⟨own, above⟩ := (members v).mp member
    refine ⟨own, above, ?_⟩
    by_contra beyond
    exact kept ⟨by omega, (canonical.mem_type own).2⟩
  · rintro ⟨own, above, below⟩
    exact ⟨(members v).mpr ⟨own, above⟩, fun within => absurd within.1 (by omega)⟩

/-- A negative value has the first bit of a run of leading ones. -/
theorem maskHolds_of_negative {v : Int} (low : known.type.lo ≤ v) (negative : v < 0)
    (set : known.raw.getLsbD (typeBits known.type - 1) = true) : MaskHolds known v := by
  have bits := typeBits_le known.type
  refine and_ne_zero_of_bit (getLsbD_ofInt_neg known.type negative ?_ (by omega)) set
  have least : -2 ^ (typeBits known.type - 1) ≤ known.type.lo := by
    unfold typeBits Ctype.lo
    cases known.type.kind <;> decide
  exact le_trans least low

/-- A value from `2 ^ k` on has a bit of a run from place `k` on. -/
theorem maskHolds_of_large {v : Int} {k : Nat} (large : 2 ^ k ≤ v) (high : v ≤ known.type.hi)
    (ones : ∀ i, k ≤ i → i < typeBits known.type → known.raw.getLsbD i = true) :
    MaskHolds known v := by
  have bits := typeBits_le known.type
  have power : (0 : Int) < 2 ^ k := pow_pos (by decide) k
  obtain ⟨n, rfl⟩ := Int.eq_ofNat_of_zero_le (le_trans power.le large)
  have large : 2 ^ k ≤ n := by
    have cast : ((2 ^ k : Nat) : Int) ≤ (n : Int) := by
      push_cast
      exact large
    exact Int.ofNat_le.mp cast
  have small : n < 2 ^ typeBits known.type := by
    have most : known.type.hi < ((2 ^ typeBits known.type : Nat) : Int) := by
      unfold typeBits Ctype.hi
      cases known.type.kind <;> decide
    exact Int.ofNat_lt.mp (lt_of_le_of_lt high most)
  obtain ⟨i, above, set⟩ := Nat.exists_ge_and_testBit_of_ge_two_pow large
  have below : i < typeBits known.type := by
    by_contra beyond
    have clear := Nat.testBit_lt_two_pow
      (small.trans_le (Nat.pow_le_pow_right (by decide) (not_lt.mp beyond)))
    rw [clear] at set
    exact absurd set (by decide)
  refine and_ne_zero_of_bit (i := i) ?_ (ones i above below)
  rw [getLsbD_ofInt_natCast, set, decide_eq_true (by omega)]
  rfl

theorem maskHolds_boundary_iff {k : Nat} (inside : k < typeBits known.type) :
    MaskHolds known (2 ^ k - 1) ↔ ∃ i < k, known.raw.getLsbD i = true := by
  have bits := typeBits_le known.type
  have number : ((2 : Int) ^ k - 1) = ((2 ^ k - 1 : Nat) : Int) := by
    rw [Nat.cast_sub (Nat.two_pow_pos k)]
    push_cast
    rfl
  have bit : ∀ i, (known.type.ofInt (2 ^ k - 1)).raw.getLsbD i = decide (i < k) := by
    intro i
    rw [number, getLsbD_ofInt_natCast, Nat.testBit_two_pow_sub_one]
    by_cases less : i < k
    · rw [decide_eq_true less, decide_eq_true (by omega)]
      rfl
    · rw [decide_eq_false less, Bool.and_false]
  constructor
  · intro holds
    by_contra none
    refine holds (and_eq_zero_of_bits fun i _ set => ?_)
    rw [bit i] at set
    exact Bool.not_eq_true _ |>.mp fun own => none ⟨i, of_decide_eq_true set, own⟩
  · rintro ⟨i, less, set⟩
    exact and_ne_zero_of_bit ((bit i).trans (decide_eq_true less)) set

theorem HighRun.start_eq {k k' : Nat} (run : HighRun known k')
    (inside : k < typeBits known.type)
    (ones : ∀ i, k ≤ i → i < typeBits known.type → known.raw.getLsbD i = true)
    (stop : ∀ i, i + 1 = k → known.raw.getLsbD i = false) : k' = k := by
  rcases Nat.lt_trichotomy k' k with less | same | more
  · have set := run (k - 1) (by omega)
    rw [stop (k - 1) (by omega), decide_eq_true (by omega)] at set
    exact absurd set (by decide)
  · exact same
  · have set := run k inside
    rw [ones k (le_refl k) inside, decide_eq_false (by omega)] at set
    exact absurd set (by decide)

end Cuts

section Sound

variable {orig : RangeList} {known : Sval} {hardMax : Option Sval}

/-- The false side when the mask has no run of leading ones. -/
theorem andFalseRl_sound_of_low (canonical : Canonical known.type orig)
    (hard : ∀ max, hardMax = some max → max.OfType known.type)
    (none : (getHighMask known).raw = 0) (given : andFalseRl orig known hardMax ≠ []) {v : Int}
    (member : v ∈ rlSet orig) (fails : ¬ MaskHolds known v) :
    v ∈ rlSet (andFalseRl orig known hardMax) := by
  unfold andFalseRl at given ⊢
  rw [if_neg (not_not.mpr none)] at given ⊢
  cases hardMax with
  | none => exact absurd rfl given
  | some max =>
    dsimp only at given ⊢
    split_ifs at given ⊢ with odd
    · obtain ⟨one, -, odd⟩ := odd
      have typed := hard max rfl
      rw [removeRange_rlSet typed typed (le_refl _) canonical]
      refine ⟨member, fun cut => fails ?_⟩
      have same : known.type.ofInt v = max := by
        have value : v = max.val := le_antisymm cut.2 cut.1
        refine Sval.ext_val typed.1.symm ?_
        rw [value]
        exact Ctype.ofInt_val typed.2.1 typed.2.2
      have unit : known.raw = 1 := BitVec.eq_of_toInt_eq one
      unfold MaskHolds
      rw [same, unit]
      exact odd
    · exact absurd rfl given

/-- `handle_AND_op` is right unless the mask is a run of leading ones, the value right below
the run is possible, and so is a smaller one that is not negative. -/
theorem handleAndOp_sound_iff (canonical : Canonical known.type orig)
    (typed : known.OfType known.type)
    (hard : ∀ max, hardMax = some max → max.OfType known.type) :
    (handleAndOp orig known hardMax).Sound orig (MaskHolds known) ↔
      ∀ k < typeBits known.type, HighRun known k → 2 ^ k - 1 ∈ rlSet orig →
        ∀ v ∈ rlSet orig, v < 0 ∨ 2 ^ k - 1 ≤ v := by
  obtain ⟨k, within, mask, ones, stop⟩ := getHighMask_spec known
  have trueSide : (handleAndOp orig known hardMax).trueRl ≠ [] → ∀ v ∈ rlSet orig,
      MaskHolds known v → v ∈ rlSet (handleAndOp orig known hardMax).trueRl :=
    fun given v member holds => andTrueRl_sound typed canonical given member holds
  unfold Branches.Sound
  rw [and_iff_right trueSide]
  by_cases run : k < typeBits known.type
  · have set : (getHighMask known).raw.getLsbD k = true := by
      rw [mask k]
      exact decide_eq_true ⟨le_refl k, run⟩
    have some : (getHighMask known).raw ≠ 0 := by
      intro zero
      rw [zero] at set
      exact absurd (set.symm.trans BitVec.getLsbD_zero) (by decide)
    have lowest : ffsll (getHighMask known).raw = k + 1 := by
      obtain ⟨j, below, -, found, own, -⟩ := ffsll_of_bit set
      rw [mask j] at own
      rw [found, le_antisymm below (of_decide_eq_true own).1]
    have result : (handleAndOp orig known hardMax).falseRl =
        highMaskRl orig known (getHighMask known) := if_pos some
    obtain ⟨falseCanonical, members⟩ := highMaskRl_spec canonical run lowest
    rw [result]
    constructor
    · intro sound k' inside highRun boundary v member
      obtain rfl := highRun.start_eq run ones stop
      by_contra fails
      have between : 0 ≤ v ∧ v < 2 ^ k' - 1 := by omega
      have given : highMaskRl orig known (getHighMask known) ≠ [] := by
        intro empty
        have kept := (members v).mpr ⟨member, between⟩
        rw [empty] at kept
        exact mem_rlSet_nil v kept
      refine absurd ((members _).mp (sound given _ boundary ?_)).2.2 (lt_irrefl _)
      rw [maskHolds_boundary_iff inside]
      rintro ⟨i, less, own⟩
      have bit := highRun i (less.trans inside)
      rw [own, decide_eq_false (by omega)] at bit
      exact absurd bit (by decide)
    · intro condition given v member fails
      obtain ⟨low, high⟩ := canonical.mem_type member
      have above : 0 ≤ v := by
        by_contra negative
        exact fails (maskHolds_of_negative low (by omega) (ones _ (by omega) (by omega)))
      refine (members v).mpr ⟨member, above, ?_⟩
      have power : (2 : Int) ^ k - 1 + 1 = 2 ^ k := by omega
      have small : v < 2 ^ k := by
        by_contra large
        exact fails (maskHolds_of_large (not_lt.mp large) high ones)
      refine lt_of_le_of_ne (by omega) fun same => ?_
      -- The boundary value is only lost with a mask that has no bits below the run.
      subst same
      have highRun : HighRun known k := by
        intro i below
        by_cases start : k ≤ i
        · rw [ones i start below, decide_eq_true start]
        · rw [decide_eq_false start]
          refine Bool.not_eq_true _ |>.mp fun own => fails ?_
          exact (maskHolds_boundary_iff run).mpr ⟨i, not_le.mp start, own⟩
      have least : (rlMin (highMaskRl orig known (getHighMask known))).val ∈ rlSet _ :=
        rlMin_mem falseCanonical given
      obtain ⟨own, positive, less⟩ := (members _).mp least
      rcases condition k run highRun member _ own with negative | beyond <;> omega
  · have none : (getHighMask known).raw = 0 := by
      apply BitVec.eq_of_getLsbD_eq
      intro i _
      rw [mask i, decide_eq_false (by omega)]
      exact BitVec.getLsbD_zero.symm
    refine iff_of_true ?_ ?_
    · exact fun given v member fails => andFalseRl_sound_of_low canonical hard none given
        member fails
    · intro k' inside highRun
      have bits := typeBits_le known.type
      have set := highRun (typeBits known.type - 1) (by omega)
      rw [stop (typeBits known.type - 1) (by omega), decide_eq_true (by omega)] at set
      exact absurd set (by decide)

end Sound

def hundredRl : RangeList := [⟨uintCtype.ofInt 0, uintCtype.ofInt 100⟩]

def alignMask : Sval := uintCtype.ofInt 0xfffffff0

/-- The condition for `x & 0xfffffff0` fails, since `x` can be 15. -/
theorem handleAndOp_sound_iff_align :
    (handleAndOp hundredRl alignMask none).Sound hundredRl (MaskHolds alignMask) ↔
      ∀ k < typeBits alignMask.type, HighRun alignMask k → 2 ^ k - 1 ∈ rlSet hundredRl →
        ∀ v ∈ rlSet hundredRl, v < 0 ∨ 2 ^ k - 1 ≤ v :=
  handleAndOp_sound_iff (by decide) (by decide) fun _ none =>
    absurd none.symm (Option.some_ne_none _)

/-- The false state loses 15, although `15 & 0xfffffff0` is zero. -/
theorem handleAndOp_unsound_align :
    ¬ (handleAndOp hundredRl alignMask none).Sound hundredRl (MaskHolds alignMask) := by
  rintro ⟨-, sound⟩
  exact absurd (sound (by decide) 15 (by decide) (by decide)) (by decide)

end SmatchFormal.Extra
