import SmatchFormal.Extra.Masks

/-!
# Tests of one bit

For `mask & (1 << n)` the bits that are possible in the mask bound `n` on the true side, and
the bits that are surely set are taken away on the false side.  Both sets of bits are turned
into the interval from the lowest to the highest one.
-/

namespace SmatchFormal.Extra

open SmatchFormal.Ranges

/-! ## The code -/

structure BitInfo where
  set : BitVec 64
  possible : BitVec 64

def flsLoop : Nat → BitVec 64 → Nat
  | 0, _ => 0
  | rounds + 1, uvalue => if uvalue = 0 then 0 else flsLoop rounds (uvalue >>> 1) + 1

def smFls64 (uvalue : BitVec 64) : Nat := flsLoop 64 uvalue

def bitRange (bits : BitVec 64) : RangeList :=
  allocRl (intCtype.ofInt (ffsll bits - 1)) (intCtype.ofInt (smFls64 bits - 1))

/-- The shift `one << var`: the value of its left operand, if it is implied, and the types of
both operands, and the range of the right one. -/
structure Shift where
  value : Option Sval
  leftType : Ctype
  type : Ctype
  orig : RangeList

structure TestOperand where
  info : Option BitInfo
  shift : Option Shift

/-- What the test sets, and whether it is done with the condition.  A missing state is `NULL`,
and an empty list stands for the empty state. -/
structure BitTest where
  handled : Bool
  trueState : Option RangeList
  falseState : Option RangeList
deriving DecidableEq

def BitTest.skipped : BitTest := ⟨false, none, none⟩

def pickShift (left right : TestOperand) : Option (Option BitInfo × Shift) :=
  match right.shift with
  | some shift => some (left.info, shift)
  | none => left.shift.map fun shift => (right.info, shift)

/-- The part of `handle_bit_test` after the mask and the shift are found; `none` is the call of
`sm_fatal` in `do_intersection`. -/
def bitTest (info : BitInfo) (shift : Shift) : Option BitTest :=
  if info.possible = 0 then some ⟨false, some [], none⟩
  else if svalIsNegative (rlMin shift.orig) ||
      decide ((rlMax shift.orig).uvalue > typeBits shift.leftType) then
    some .skipped
  else
    let rlt := castRl (some shift.type) (bitRange info.possible)
    let rlf := castRl (some shift.type) (bitRange info.set)
    (rlIntersection shift.orig rlt).map fun trueRl =>
      ⟨true, some trueRl, some (rlFilter shift.orig rlf)⟩

def handleBitTest (left right : TestOperand) : Option BitTest :=
  match pickShift left right with
  | none => some .skipped
  | some (info, shift) =>
    match shift.value, info with
    | some one, some info => if one.value ≠ 1 then some .skipped else bitTest info shift
    | _, _ => some .skipped

/-! ## What the states have to contain -/

/-- The mask has the bits that are surely set, and no others than the possible ones. -/
def BitInfo.Allows (info : BitInfo) (mask : BitVec 64) : Prop :=
  (∀ i, info.set.getLsbD i = true → mask.getLsbD i = true) ∧
    ∀ i, mask.getLsbD i = true → info.possible.getLsbD i = true

/-- `mask & (1 << n)` is not zero; a shift that leaves the type of the one is undefined. -/
def TestHolds (mask : BitVec 64) (n : Int) : Prop := mask.getLsbD n.toNat = true

/-- The states have all values for which an allowed mask makes the test go their way. -/
def BitTest.Sound (info : BitInfo) (orig : RangeList) (test : BitTest) : Prop :=
  (∀ rl, test.trueState = some rl → ∀ n ∈ rlSet orig,
    (∃ mask, info.Allows mask ∧ TestHolds mask n) → n ∈ rlSet rl) ∧
  ∀ rl, test.falseState = some rl → ∀ n ∈ rlSet orig,
    (∃ mask, info.Allows mask ∧ ¬ TestHolds mask n) → n ∈ rlSet rl

/-- The place lies between two bits that are set without being set itself.  As a truth value
one stands for all other places as well. -/
def Gap (type : Ctype) (set : BitVec 64) (n : Int) : Prop :=
  set.getLsbD n.toNat = false ∧
    if type = boolCtype then n = 1 ∧ set ≠ 1
    else ∃ i j, set.getLsbD i = true ∧ set.getLsbD j = true ∧ (i : Int) < n ∧ n < j

/-! ## The range of the bits -/

theorem place_mem {n : Nat} (small : n < 64) : intCtype.lo ≤ n ∧ (n : Int) ≤ intCtype.hi := by
  have low : intCtype.lo = -2 ^ 31 := by decide
  have high : intCtype.hi = 2 ^ 31 - 1 := by decide
  omega

theorem place_ofType {n : Nat} (small : n < 64) : (intCtype.ofInt n).OfType intCtype :=
  Ctype.ofInt_ofType (place_mem small).1 (place_mem small).2

theorem place_val {n : Nat} (small : n < 64) : (intCtype.ofInt n).val = n :=
  Ctype.ofInt_val (place_mem small).1 (place_mem small).2

section Range

variable {bits : BitVec 64}

theorem flsLoop_spec (rounds : Nat) (small : bits.toNat < 2 ^ rounds) :
    (∀ i, bits.getLsbD i = true → i < flsLoop rounds bits) ∧
      (bits ≠ 0 → ∃ h, flsLoop rounds bits = h + 1 ∧ bits.getLsbD h = true) := by
  induction rounds generalizing bits with
  | zero =>
    have zero : bits = 0 := BitVec.eq_of_toNat_eq (Nat.lt_one_iff.mp small)
    subst zero
    refine ⟨fun i set => ?_, fun some => absurd rfl some⟩
    exact absurd (set.symm.trans BitVec.getLsbD_zero) (by decide)
  | succ rounds ih =>
    have half : (bits >>> 1).toNat < 2 ^ rounds := by
      rw [BitVec.toNat_ushiftRight, Nat.shiftRight_eq_div_pow]
      rw [Nat.pow_succ] at small
      omega
    obtain ⟨inside, top⟩ := ih half
    unfold flsLoop
    by_cases zero : bits = 0
    · subst zero
      refine ⟨fun i set => ?_, fun some => absurd rfl some⟩
      exact absurd (set.symm.trans BitVec.getLsbD_zero) (by decide)
    · rw [if_neg zero]
      constructor
      · intro i set
        cases i with
        | zero => exact Nat.succ_pos _
        | succ i =>
          have shifted : (bits >>> 1).getLsbD i = true := by
            rw [BitVec.getLsbD_ushiftRight, Nat.add_comm]
            exact set
          exact Nat.succ_lt_succ (inside i shifted)
      · intro _
        by_cases last : bits >>> 1 = 0
        · -- Only the lowest bit is left.
          have none : flsLoop rounds (bits >>> 1) = 0 := by
            rw [last]
            cases rounds with
            | zero => rfl
            | succ rounds => rfl
          refine ⟨0, by rw [none], ?_⟩
          by_contra clear
          refine zero (BitVec.eq_of_getLsbD_eq fun i _ => ?_)
          rw [show (0 : BitVec 64).getLsbD i = false from BitVec.getLsbD_zero]
          cases i with
          | zero => exact Bool.not_eq_true _ |>.mp clear
          | succ i =>
            have bit := congrArg (BitVec.getLsbD · i) last
            rw [BitVec.getLsbD_ushiftRight, Nat.add_comm] at bit
            exact bit.trans BitVec.getLsbD_zero
        · obtain ⟨h, value, set⟩ := top last
          refine ⟨h + 1, by rw [value], ?_⟩
          rw [BitVec.getLsbD_ushiftRight, Nat.add_comm] at set
          exact set

theorem exists_bit (some : bits ≠ 0) : ∃ i, bits.getLsbD i = true := by
  by_contra none
  refine some (BitVec.eq_of_getLsbD_eq fun i _ => ?_)
  rw [show (0 : BitVec 64).getLsbD i = false from BitVec.getLsbD_zero]
  exact Bool.not_eq_true _ |>.mp fun own => none ⟨i, own⟩

/-- The ends of the range are the lowest and the highest bit. -/
theorem bitRange_of_bit {i : Nat} (set : bits.getLsbD i = true) :
    ∃ low high : Nat, bits.getLsbD low = true ∧ bits.getLsbD high = true ∧ high < 64 ∧
      (∀ j, bits.getLsbD j = true → low ≤ j ∧ j ≤ high) ∧
      bitRange bits = [⟨intCtype.ofInt low, intCtype.ofInt high⟩] := by
  obtain ⟨inside, top⟩ := @flsLoop_spec bits 64 bits.isLt
  have some : bits ≠ 0 := by
    rintro rfl
    exact absurd (set.symm.trans BitVec.getLsbD_zero) (by decide)
  obtain ⟨high, most, last⟩ := top some
  obtain ⟨low, -, -, least, first, lower⟩ := ffsll_of_bit set
  have bound : high < 64 := BitVec.lt_of_getLsbD last
  have order : low ≤ high := by
    have := inside low first
    omega
  refine ⟨low, high, first, last, bound, ?_, ?_⟩
  · intro j own
    constructor
    · by_contra below
      have clear := lower j (not_le.mp below)
      rw [own] at clear
      exact absurd clear (by decide)
    · have := inside j own
      omega
  · unfold bitRange smFls64
    rw [least, most]
    push_cast
    rw [add_sub_cancel_right, add_sub_cancel_right]
    refine allocRl_eq (place_ofType (by omega)) (place_ofType bound) ?_
    rw [place_val (by omega), place_val bound]
    exact_mod_cast order

theorem bitRange_canonical : Canonical intCtype (bitRange bits) := by
  by_cases zero : bits = 0
  · rw [zero]
    decide
  · obtain ⟨i, set⟩ := exists_bit zero
    obtain ⟨low, high, first, -, bound, within, range⟩ := bitRange_of_bit set
    have order := (within low first).2
    rw [range]
    refine .singleton (place_ofType (by omega)) (place_ofType bound) ?_
    rw [place_val (by omega), place_val bound]
    exact_mod_cast order

end Range

section Cast

variable {type : Ctype} {low high : Nat}

theorem mem_castRl_single (ends : DataRange) (first : ends.min.OfType intCtype)
    (last : ends.max.OfType intCtype) (order : ends.min.val ≤ ends.max.val) (x : Int) :
    x ∈ rlSet (castRl (some type) [ends]) ↔
      x ∈ castValues intCtype type ends.min.val ends.max.val := by
  rw [(castRl_spec (.singleton first last order)).2 x]
  constructor
  · rintro ⟨drange, member, inside⟩
    rw [List.mem_singleton.mp member] at inside
    exact inside
  · exact fun inside => ⟨ends, List.mem_singleton_self ends, inside⟩

theorem place_le_hi (other : type.kind ≠ .bool) : (63 : Int) ≤ type.hi := by
  unfold Ctype.hi
  revert other
  cases type.kind <;> decide

/-- The range of the bits in the type of the place. -/
theorem mem_castRl_places (order : low ≤ high) (bound : high < 64)
    (oneBool : type.kind = .bool → type = boolCtype) (x : Int) :
    x ∈ rlSet (castRl (some type) [⟨intCtype.ofInt low, intCtype.ofInt high⟩]) ↔
      if type = boolCtype then x ∈ boolCtype.wrap '' Set.Icc (low : Int) high
      else (low : Int) ≤ x ∧ x ≤ high := by
  have lowVal := place_val (n := low) (by omega)
  have highVal := place_val bound
  rw [mem_castRl_single _ (place_ofType (by omega)) (place_ofType bound) (by
    rw [lowVal, highVal]; exact_mod_cast order), lowVal, highVal]
  unfold castValues
  by_cases truth : type = boolCtype
  · rw [if_pos truth, if_pos truth, truth]
  · have top := place_le_hi fun kind => truth (oneBool kind)
    have least := (zero_ofType type).1.2.1
    rw [(zero_ofType type).2] at least
    have keep : ∀ n : Nat, n < 64 → type.wrap n = n := fun n small =>
      IntKind.wrap_of_mem (show type.lo ≤ n by omega) (show (n : Int) ≤ type.hi by omega)
    rw [if_neg truth, if_neg truth]
    unfold castEnds
    rw [if_pos (Or.inr (Or.inl ⟨by omega, by omega⟩)), keep low (by omega), keep high bound]
    unfold endsSet
    rw [if_pos (by exact_mod_cast order)]
    exact Set.mem_Icc

theorem mem_castRl_none (x : Int) :
    x ∈ rlSet (castRl (some type) (bitRange 0)) ↔ x = type.wrap (-1) := by
  have range : bitRange 0 = [⟨intCtype.ofInt (-1), intCtype.ofInt (-1)⟩] := by decide
  have value : (intCtype.ofInt (-1)).val = -1 := by decide
  rw [range, mem_castRl_single _ (by decide) (by decide) (le_refl _), value]
  unfold castValues
  by_cases truth : type = boolCtype
  · rw [if_pos truth, Set.Icc_self, Set.image_singleton]
    exact Set.mem_singleton_iff
  · rw [if_neg truth]
    unfold castEnds endsSet
    rw [if_pos (Or.inl rfl), if_pos (le_refl _), Set.Icc_self]
    exact Set.mem_singleton_iff

/-- Minus one is no place, but as a truth value it is one. -/
theorem wrap_neg_one_place (oneBool : type.kind = .bool → type = boolCtype) {n : Int}
    (low : 0 ≤ n) (high : n ≤ 63) (same : n = type.wrap (-1)) : type = boolCtype ∧ n = 1 := by
  by_cases truth : type = boolCtype
  · subst truth
    exact ⟨rfl, same⟩
  · exfalso
    have other : type.kind ≠ .bool := fun kind => truth (oneBool kind)
    unfold Ctype.wrap at same
    revert other same
    cases type.kind <;> simp [IntKind.wrap, IntKind.unsigned, IntKind.bits] <;> omega

end Cast

section Sound

variable {info : BitInfo} {shift : Shift} {n : Int}

theorem BitInfo.allows_set (sound : ∃ mask, info.Allows mask) : info.Allows info.set := by
  obtain ⟨mask, sure, possible⟩ := sound
  exact ⟨fun _ set => set, fun i set => possible i (sure i set)⟩

/-- A place that is possible is in the range of the possible bits. -/
theorem mem_possible (oneBool : shift.type.kind = .bool → shift.type = boolCtype)
    (low : 0 ≤ n) (typed : n ≤ shift.type.hi) (possible : info.possible.getLsbD n.toNat = true) :
    n ∈ rlSet (castRl (some shift.type) (bitRange info.possible)) := by
  obtain ⟨k, rfl⟩ := Int.eq_ofNat_of_zero_le low
  rw [Int.toNat_natCast] at possible
  obtain ⟨least, greatest, -, -, bound, within, range⟩ := bitRange_of_bit possible
  obtain ⟨above, below⟩ := within k possible
  rw [range, mem_castRl_places (by omega) bound oneBool]
  split_ifs with truth
  · refine ⟨k, ⟨by exact_mod_cast above, by exact_mod_cast below⟩, ?_⟩
    rw [truth] at typed
    have least := (zero_ofType boolCtype).1.2.1
    rw [(zero_ofType boolCtype).2] at least
    exact IntKind.wrap_of_mem (show boolCtype.lo ≤ (k : Int) by omega) typed
  · exact ⟨by exact_mod_cast above, by exact_mod_cast below⟩

theorem one_place {i : Nat} (set : (1 : BitVec 64).getLsbD i = true) : i = 0 := by
  have bit : (1#64).getLsbD i = true := set
  rw [BitVec.getLsbD_one] at bit
  simp only [Bool.and_eq_true, decide_eq_true_eq] at bit
  omega

theorem eq_one_of_places {bits : BitVec 64} {greatest : Nat}
    (last : bits.getLsbD greatest = true) (places : ∀ j, bits.getLsbD j = true → j = 0) :
    bits = 1 := by
  refine BitVec.eq_of_getLsbD_eq fun i _ => ?_
  cases i with
  | zero =>
    rw [← places greatest last, last, places greatest last]
    decide
  | succ i =>
    have clear : bits.getLsbD (i + 1) = false := by
      by_contra set
      exact absurd (places (i + 1) (Bool.not_eq_false _ |>.mp set)) (Nat.succ_ne_zero i)
    have other : (1 : BitVec 64).getLsbD (i + 1) = false := by
      by_contra set
      exact absurd (one_place (Bool.not_eq_false _ |>.mp set)) (Nat.succ_ne_zero i)
    rw [clear, other]

/-- A place that is not surely set is taken away exactly when it is a gap. -/
theorem mem_set_iff_gap (oneBool : shift.type.kind = .bool → shift.type = boolCtype)
    (low : 0 ≤ n) (high : n ≤ 63) (typed : n ≤ shift.type.hi)
    (clear : info.set.getLsbD n.toNat = false) :
    n ∈ rlSet (castRl (some shift.type) (bitRange info.set)) ↔ Gap shift.type info.set n := by
  unfold Gap
  rw [and_iff_right clear]
  by_cases empty : info.set = 0
  · rw [empty, mem_castRl_none]
    constructor
    · intro same
      obtain ⟨truth, one⟩ := wrap_neg_one_place oneBool low high same
      rw [if_pos truth]
      exact ⟨one, by decide⟩
    · split_ifs with truth
      · rintro ⟨rfl, -⟩
        rw [truth]
        rfl
      · rintro ⟨i, j, set, -⟩
        exact absurd (set.symm.trans BitVec.getLsbD_zero) (by decide)
  · obtain ⟨i, set⟩ := exists_bit empty
    obtain ⟨least, greatest, first, last, bound, within, range⟩ := bitRange_of_bit set
    have order := (within least first).2
    obtain ⟨k, rfl⟩ := Int.eq_ofNat_of_zero_le low
    rw [Int.toNat_natCast] at clear
    have notLeast : least ≠ k := by
      rintro rfl
      rw [first] at clear
      exact absurd clear (by decide)
    have notGreatest : greatest ≠ k := by
      rintro rfl
      rw [last] at clear
      exact absurd clear (by decide)
    rw [range, mem_castRl_places order bound oneBool]
    split_ifs with truth
    · rw [truth] at typed
      have small : k ≤ 1 := by
        have top : boolCtype.hi = 1 := by decide
        omega
      constructor
      · rintro ⟨y, ⟨above, below⟩, image⟩
        have one : k = 1 := by
          by_contra other
          have zero : k = 0 := by omega
          subst zero
          have origin : y = 0 := by
            by_contra nonzero
            have value : boolCtype.wrap y = 1 := if_neg nonzero
            rw [value] at image
            exact absurd image (by decide)
          omega
        subst one
        refine ⟨rfl, fun same => ?_⟩
        have highest : greatest = 0 := by
          rw [same] at last
          exact one_place last
        have origin : y = 0 := by omega
        rw [origin] at image
        exact absurd image (by decide)
      · rintro ⟨one, other⟩
        have highest : greatest ≠ 0 := by
          intro zero
          refine other (eq_one_of_places last fun j own => ?_)
          have := (within j own).2
          omega
        refine ⟨greatest, ⟨by exact_mod_cast order, le_refl _⟩, ?_⟩
        have value : boolCtype.wrap greatest = 1 := if_neg (by exact_mod_cast highest)
        rw [value, one]
    · constructor
      · rintro ⟨above, below⟩
        exact ⟨least, greatest, first, last, by omega, by omega⟩
      · rintro ⟨i, j, lower, upper, above, below⟩
        have := (within i lower).1
        have := (within j upper).2
        omega

/-- With the places inside the type of the mask the states are set. -/
theorem bitTest_guard (canonical : Canonical shift.type shift.orig)
    (inside : ∀ n ∈ rlSet shift.orig, 0 ≤ n ∧ n < typeBits shift.leftType)
    (some : shift.orig ≠ []) :
    (svalIsNegative (rlMin shift.orig) ||
      decide ((rlMax shift.orig).uvalue > typeBits shift.leftType)) = false := by
  have first := inside _ (rlMin_mem canonical some)
  have last := inside _ (rlMax_mem canonical some)
  rw [Bool.or_eq_false_iff]
  constructor
  · refine Bool.not_eq_true _ |>.mp fun negative => ?_
    have := (svalIsNegative_iff _).mp negative
    omega
  · have value := (rlMax shift.orig).uvalue_eq
    refine decide_eq_false ?_
    omega

/-- `handle_bit_test` is right unless a place between two bits that are surely set may be clear
in the mask. -/
theorem handleBitTest_sound_iff {left right : TestOperand} {one : Sval}
    (picked : pickShift left right = some (some info, shift)) (value : shift.value = some one)
    (unit : one.value = 1) (canonical : Canonical shift.type shift.orig)
    (inside : ∀ n ∈ rlSet shift.orig, 0 ≤ n ∧ n < typeBits shift.leftType)
    (sound : ∃ mask, info.Allows mask)
    (oneBool : shift.type.kind = .bool → shift.type = boolCtype) :
    (∃ test, handleBitTest left right = some test ∧ test.Sound info shift.orig) ↔
      info.possible = 0 ∨ ∀ n ∈ rlSet shift.orig, ¬ Gap shift.type info.set n := by
  have result : handleBitTest left right = bitTest info shift := by
    unfold handleBitTest
    rw [picked]
    dsimp only
    rw [value]
    exact if_neg (not_not.mpr unit)
  rw [result]
  have width := typeBits_le shift.leftType
  unfold bitTest
  by_cases none : info.possible = 0
  · rw [if_pos none]
    refine iff_of_true ⟨_, rfl, ?_, fun rl given => absurd given.symm (Option.some_ne_none _)⟩
      (Or.inl none)
    -- No mask that is allowed has any bit.
    rintro rl - n - ⟨mask, ⟨-, possible⟩, holds⟩
    have own := possible _ holds
    rw [none] at own
    exact absurd (own.symm.trans BitVec.getLsbD_zero) (by decide)
  · rw [if_neg none, or_iff_right none]
    by_cases some : shift.orig = []
    · have empty : ∀ n, n ∉ rlSet shift.orig := by
        rw [some]
        exact mem_rlSet_nil
      refine iff_of_true ?_ fun n member => absurd member (empty n)
      have vacuous : ∀ test : BitTest, test.Sound info shift.orig := fun test =>
        ⟨fun _ _ n member => absurd member (empty n), fun _ _ n member => absurd member (empty n)⟩
      split_ifs
      · exact ⟨_, rfl, vacuous _⟩
      · have common : ∀ rl, rlIntersection shift.orig rl = Option.some [] := by
          rw [some]
          exact fun _ => rfl
        dsimp only
        rw [common]
        exact ⟨_, rfl, vacuous _⟩
    · rw [if_neg (Bool.eq_false_iff.mp (bitTest_guard canonical inside some))]
      have typed : ∀ bits, Canonical shift.type (castRl (Option.some shift.type) (bitRange bits)) :=
        fun bits => (castRl_spec bitRange_canonical).1
      obtain ⟨trueRl, both, -, trueSet⟩ := rlIntersection_spec canonical (typed info.possible)
      have falseSet := (rlFilter_spec canonical (typed info.set)).2
      dsimp only
      rw [both]
      constructor
      · rintro ⟨_, ⟨rfl⟩, -, falseSound⟩ n member gap
        obtain ⟨low, high⟩ := inside n member
        have kept := falseSound _ rfl n member
          ⟨info.set, BitInfo.allows_set sound, Bool.eq_false_iff.mp gap.1⟩
        rw [falseSet] at kept
        exact kept.2 ((mem_set_iff_gap oneBool low (by omega) (canonical.mem_type member).2
          gap.1).mpr gap)
      · intro condition
        refine ⟨_, rfl, ?_, ?_⟩
        · rintro _ ⟨rfl⟩ n member ⟨mask, ⟨-, possible⟩, holds⟩
          rw [trueSet]
          exact ⟨member, mem_possible oneBool (inside n member).1 (canonical.mem_type member).2
            (possible _ holds)⟩
        · rintro _ ⟨rfl⟩ n member ⟨mask, ⟨sure, -⟩, fails⟩
          obtain ⟨low, high⟩ := inside n member
          have clear : info.set.getLsbD n.toNat = false :=
            Bool.eq_false_iff.mpr fun own => fails (sure _ own)
          rw [falseSet]
          refine ⟨member, fun cut => condition n member ?_⟩
          exact (mem_set_iff_gap oneBool low (by omega) (canonical.mem_type member).2 clear).mp cut

end Sound

def placesRl : RangeList := [⟨uintCtype.ofInt 0, uintCtype.ofInt 7⟩]

/-- The bits zero and two of the mask are set, and no other bit is possible. -/
def sparseInfo : BitInfo := ⟨5, 5⟩

def sparseMask : TestOperand := ⟨some sparseInfo, none⟩

def placeShift : Shift := ⟨some (intCtype.ofInt 1), intCtype, uintCtype, placesRl⟩

def placeOperand : TestOperand := ⟨none, some placeShift⟩

/-- The condition fails for the mask five, whose bit one is clear. -/
theorem handleBitTest_sound_iff_sparse :
    (∃ test, handleBitTest sparseMask placeOperand = some test ∧
      test.Sound sparseInfo placeShift.orig) ↔
      sparseInfo.possible = 0 ∨
        ∀ n ∈ rlSet placeShift.orig, ¬ Gap placeShift.type sparseInfo.set n :=
  handleBitTest_sound_iff rfl rfl (by decide) (by decide)
    (fun n member => by
      obtain ⟨low, high⟩ | none := member
      · have least : (uintCtype.ofInt 0).val = 0 := by decide
        have greatest : (uintCtype.ofInt 7).val = 7 := by decide
        change (uintCtype.ofInt 0).val ≤ n at low
        change n ≤ (uintCtype.ofInt 7).val at high
        change 0 ≤ n ∧ n < ((typeBits intCtype : Nat) : Int)
        have width : typeBits intCtype = 32 := by decide
        omega
      · exact absurd none (mem_rlSet_nil n))
    ⟨5, fun _ set => set, fun _ set => set⟩ (fun kind => absurd kind (by decide))

/-- The false state loses one, although `5 & (1 << 1)` is zero. -/
theorem handleBitTest_unsound_sparse :
    ¬ ∃ test, handleBitTest sparseMask placeOperand = some test ∧
      test.Sound sparseInfo placeShift.orig := by
  rintro ⟨test, ran, -, sound⟩
  have result : handleBitTest sparseMask placeOperand = some ⟨true,
      some [⟨uintCtype.ofInt 0, uintCtype.ofInt 2⟩],
      some [⟨uintCtype.ofInt 3, uintCtype.ofInt 7⟩]⟩ := by decide +kernel
  obtain rfl := Option.some.inj (result.symm.trans ran)
  have kept := sound _ rfl 1 (by decide)
    ⟨5, ⟨fun _ set => set, fun _ set => set⟩, by unfold TestHolds; decide⟩
  exact absurd kept (by decide)

end SmatchFormal.Extra
