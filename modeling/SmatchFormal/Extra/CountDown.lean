import SmatchFormal.Comparison.Tables
import SmatchFormal.Extra.Masks

/-!
# Loops that count down in their condition

For `while (i-- > c)` and its relatives `handle_canonical_while_count_down` sets the range of
the counter for the body, and `while_count_down_after` its value after the loop.
-/

namespace SmatchFormal.Extra

open SmatchFormal.Ranges Comparison

/-! ## The code -/

/-- What is known about a loop: the type and the state of the counter, whether the condition
has `i--` or `--i`, and the operator and the right operand, if it is a constant, of the
comparison that it is unless it is the bare decrement. -/
structure CountDown where
  type : Ctype
  state : Estate
  postop : Bool
  compare : Option (Comparison × Option Sval)

namespace CountDown

def getCountdownInfo (loop : CountDown) : Option (Comparison × Sval) :=
  match loop.compare with
  | none => some (gt, intCtype.ofInt 0)
  | some (op, limit) =>
    let comparison := removeUnsignedFromComparison op
    if comparison ≠ gte ∧ comparison ≠ gt then none
    else limit.map fun right => (comparison, right)

def lowerEnd (loop : CountDown) (op : Comparison) (right : Sval) : Sval :=
  let right := if op = gte then subOne right else right
  if loop.postop then right else addOne right

def upperEnd (start : Sval) : Sval := if !svalIsMax start then subOne start else start

def handle (loop : CountDown) : Option Estate :=
  match loop.getCountdownInfo with
  | none => none
  | some (op, right) =>
    if svalCmp loop.state.min right < 0 then none
    else
      let start := svalCast loop.type loop.state.max
      let right := svalCast loop.type right
      if svalCmp start right ≤ 0 then none
      else
        let estate := allocEstateRange (loop.lowerEnd op right) (upperEnd start)
        let estate := if loop.state.hardMax then estate.setHardMax else estate
        some (match loop.state.fuzzyMax with
          | none => estate
          | some max => estate.setFuzzyMax max)

def afterValue (inside : Estate) : Sval := subOne inside.min

/-! ## The loop -/

/-- What the condition tests for a value of the counter: a comparison in the common type of
the two operands, or the value itself. -/
def Test (loop : CountDown) (t : Int) : Prop :=
  match loop.compare with
  | some (op, some right) =>
    op.Holds ((getPromotedType loop.type right.type).wrap t)
      ((getPromotedType loop.type right.type).wrap right.val)
  | _ => t ≠ 0

def tested (loop : CountDown) (s : Int) (k : Nat) : Int := if loop.postop then s - k else s - k - 1

def counter (s : Int) (k : Nat) : Int := s - k - 1

/-- The body is entered after some rounds.  A decrement that overflows ends the run. -/
def Enters (loop : CountDown) (s : Int) (k : Nat) : Prop :=
  (∀ j ≤ k, loop.Test (loop.tested s j)) ∧ loop.type.lo ≤ counter s k

def Leaves (loop : CountDown) (s : Int) (k : Nat) : Prop :=
  (∀ j < k, loop.Test (loop.tested s j)) ∧ ¬ loop.Test (loop.tested s k) ∧
    loop.type.lo ≤ counter s k

def Sound (loop : CountDown) : Prop :=
  ∀ inside, loop.handle = some inside → ∀ s ∈ rlSet loop.state.rl, ∀ k,
    (loop.Enters s k → counter s k ∈ rlSet inside.rl) ∧
      (loop.Leaves s k → counter s k = (afterValue inside).val)

/-! ## The condition -/

/-- The comparison is made in an unsigned type, in which a negative counter is large. -/
def WrapsAround (loop : CountDown) (right : Sval) : Prop :=
  loop.compare ≠ none ∧ typeUnsigned (getPromotedType loop.type right.type) = true

/-- The loops that count as the code expects: no `>= 0` of an unsigned comparison; for
`--i > c` the counter does not start with `c`, and it can start above `c + 1`; and the lower
end of the range does not overflow past the upper one. -/
structure CountsRight (loop : CountDown) (op : Comparison) (right : Sval) : Prop where
  ends : op = gte → right.val = 0 → ¬ loop.WrapsAround right
  above : loop.postop = false → op = gt →
    right.val + 1 < loop.state.max.val ∨ loop.state.max.val = loop.type.hi
  start : loop.postop = false → op = gt → right.val ∈ rlSet loop.state.rl →
    right.val = loop.type.lo
  order : loop.postop = true → op = gte → right.val = -2 ^ 63 → loop.state.max.val ≠ 2 ^ 63 - 1

/-- A constant below the type of the counter never ends the loop; in the type of the counter
it has to become the lowest value, or the range has to be reversed. -/
def CountsForever (loop : CountDown) (op : Comparison) (right : Sval) : Prop :=
  if loop.postop then
    if op = gte then loop.type.wrap right.val ≤ loop.type.lo + 1
    else loop.type.wrap right.val = loop.type.lo
  else if op = gte then loop.type.wrap right.val = loop.type.lo
  else loop.state.max.val = loop.type.wrap right.val + 1 ∧ loop.state.max.val ≠ loop.type.hi

def WellCounted (loop : CountDown) (op : Comparison) (right : Sval) : Prop :=
  loop.state.max.val ≤ loop.type.wrap right.val ∨
    if loop.type.lo ≤ right.val then loop.CountsRight op right else loop.CountsForever op right

end CountDown

/-! ## The test -/

theorem getPromotedType_signed (type other : Ctype) (signed : typeUnsigned type = false) :
    (typeUnsigned (getPromotedType type other) = false →
      (getPromotedType type other).lo ≤ type.lo ∧ (getPromotedType type other).lo ≤ other.lo) ∧
    (typeUnsigned (getPromotedType type other) = true → other.lo = 0 ∧
      ∀ t, type.lo ≤ t → t < 0 → type.hi < (getPromotedType type other).wrap t) ∧
    type.hi ≤ (getPromotedType type other).hi ∧ other.hi ≤ (getPromotedType type other).hi := by
  obtain ⟨address, kind⟩ := type
  obtain ⟨place, second⟩ := other
  revert signed
  cases kind <;> cases second <;>
    simp [getPromotedType, typePositiveBits, typeUnsigned, IntKind.positiveBits, IntKind.unsigned,
      IntKind.bits, intCtype, Ctype.lo, Ctype.hi, Ctype.wrap, IntKind.lo, IntKind.hi,
      IntKind.wrap] <;> omega

/-- `sval_cmp` does not find a signed number below a constant that is not above it. -/
theorem svalCmp_nonneg {one two : Sval} (first : one.OfType one.type) (second : two.OfType two.type)
    (signed : typeUnsigned one.type = false) (order : two.val ≤ one.val) :
    ¬ svalCmp one two < 0 := by
  rw [svalCmp_eq, intCmp_lt_zero, not_lt]
  have kind := svalCmpType_kind one two
  generalize svalCmpType one two = common at kind
  obtain ⟨-, low, high⟩ := first
  obtain ⟨-, least, greatest⟩ := second
  revert signed low high least greatest order
  unfold typeUnsigned Ctype.lo Ctype.hi Ctype.wrap
  rw [kind]
  cases one.type.kind <;> cases two.type.kind <;>
    simp [IntKind.compared, IntKind.positiveBits, IntKind.unsigned, IntKind.bits, IntKind.lo,
      IntKind.hi, IntKind.wrap] <;> omega

section Test

variable {loop : CountDown} {op : Comparison} {right : Sval}

def CountDown.Constant (loop : CountDown) (right : Sval) : Prop :=
  right.OfType right.type ∧ right.val ≤ loop.type.hi

theorem CountDown.getCountdownInfo_cases (info : loop.getCountdownInfo = some (op, right)) :
    (loop.compare = none ∧ op = gt ∧ right = intCtype.ofInt 0) ∨
      ∃ written, loop.compare = some (written, some right) ∧ (op = gt ∨ op = gte) ∧
        ∀ a b : Int, written.Holds a b ↔ op.Holds a b := by
  unfold CountDown.getCountdownInfo at info
  cases compare : loop.compare with
  | none =>
    rw [compare] at info
    obtain ⟨rfl, rfl⟩ := Prod.mk.inj (Option.some.inj info)
    exact Or.inl ⟨rfl, rfl, rfl⟩
  | some condition =>
    obtain ⟨written, limit⟩ := condition
    rw [compare] at info
    dsimp only at info
    split_ifs at info with other
    obtain ⟨value, rfl, same⟩ := Option.map_eq_some_iff.mp info
    obtain ⟨rfl, rfl⟩ := Prod.mk.inj same
    refine Or.inr ⟨written, rfl, ?_, ?_⟩
    · cases written <;>
        first | exact Or.inl rfl | exact Or.inr rfl | exact absurd (by decide) other
    · intro a b
      cases written <;> exact Iff.rfl

/-- The test is the comparison of the numbers, but for negative ones where these are large. -/
theorem CountDown.test_iff (info : loop.getCountdownInfo = some (op, right))
    (signed : typeUnsigned loop.type = false) (constant : loop.Constant right) {t : Int}
    (low : loop.type.lo ≤ t) (high : t ≤ loop.type.hi) :
    loop.Test t ↔
      op.Holds t right.val ∨ t < 0 ∧ (loop.compare = none ∨ loop.WrapsAround right) := by
  unfold CountDown.Test CountDown.WrapsAround
  rcases CountDown.getCountdownInfo_cases info with
    ⟨bare, rfl, rfl⟩ | ⟨written, compare, both, same⟩
  · rw [bare]
    have zero : (intCtype.ofInt 0).val = 0 := by decide
    rw [zero]
    change t ≠ 0 ↔ 0 < t ∨ t < 0 ∧ (none = none ∨ _)
    rw [and_iff_left (Or.inl rfl), ne_iff_lt_or_gt]
    exact or_comm
  · rw [compare]
    dsimp only
    rw [same]
    obtain ⟨typed, greatest⟩ := constant
    obtain ⟨wide, large, top, other⟩ := getPromotedType_signed loop.type right.type signed
    have keep : ∀ x : Int, (getPromotedType loop.type right.type).lo ≤ x → x ≤ loop.type.hi →
        (getPromotedType loop.type right.type).wrap x = x := fun x above below =>
      IntKind.wrap_of_mem above (below.trans top)
    have written : ¬ some (written, some right) = none := Option.some_ne_none _
    rw [or_iff_right written, and_iff_right written]
    cases sign : typeUnsigned (getPromotedType loop.type right.type) with
    | false =>
      obtain ⟨bottom, origin⟩ := wide sign
      have least := typed.2.1
      rw [keep t (by omega) high, keep right.val (by omega) greatest]
      exact (or_iff_left fun wraps => absurd wraps.2 (by decide)).symm
    | true =>
      obtain ⟨zero, beyond⟩ := large sign
      have bottom : (getPromotedType loop.type right.type).lo = 0 := IntKind.lo_of_unsigned sign
      have positive := typed.2.1
      rw [keep right.val (by omega) greatest, and_iff_left rfl]
      by_cases negative : t < 0
      · have above : right.val < (getPromotedType loop.type right.type).wrap t :=
          lt_of_le_of_lt greatest (beyond t low negative)
        refine iff_of_true ?_ (Or.inr negative)
        rcases both with rfl | rfl
        · exact above
        · exact above.le
      · rw [keep t (by omega) high]
        exact (or_iff_left negative).symm

end Test

section Ends

variable {type : Ctype} {sval min max : Sval} {loop : CountDown} {op : Comparison} {right : Sval}

theorem subOne_val_signed (signed : typeUnsigned sval.type = false) :
    (subOne sval).val = (sval.val - 1 + 2 ^ 63) % 2 ^ 64 - 2 ^ 63 := by
  have moved : (subOne sval).val = (sval.raw - 1).toInt := @Sval.val_of_signed (subOne sval) signed
  have one : (1 : BitVec 64).toInt = 1 := by decide
  rw [moved, Sval.val_of_signed signed, BitVec.toInt_sub, one, Int.bmod_eq_emod]
  unfold Sval.value
  split <;> omega

theorem upperEnd_spec (typed : sval.OfType type) (above : type.lo < sval.val) :
    (CountDown.upperEnd sval).OfType type ∧
      (CountDown.upperEnd sval).val = if sval.val = type.hi then type.hi else sval.val - 1 := by
  unfold CountDown.upperEnd
  by_cases top : sval.val = type.hi
  · rw [(svalIsMax_iff typed).mpr top, if_pos top]
    exact ⟨typed, top⟩
  · have below : svalIsMax sval = false := Bool.eq_false_iff.mpr fun yes =>
      top ((svalIsMax_iff typed).mp yes)
    rw [below, if_neg top]
    exact ⟨subOne_ofType typed above, subOne_val typed above⟩

def testLimit (op : Comparison) (c : Int) : Int := if op = gte then c - 1 else c

/-- The lower end is what the counter is when the last test held. -/
theorem lowerEnd_spec (typed : right.OfType type) (below : right.val < type.hi)
    (inside : loop.postop = true → op = gte → type.lo < right.val) :
    (loop.lowerEnd op right).OfType type ∧
      (loop.lowerEnd op right).val =
        if loop.postop then testLimit op right.val else testLimit op right.val + 1 := by
  unfold CountDown.lowerEnd testLimit
  by_cases strict : op = gte
  · rw [if_pos strict, if_pos strict]
    cases post : loop.postop with
    | true =>
      have above := inside post strict
      exact ⟨subOne_ofType typed above, subOne_val typed above⟩
    | false =>
      have back : addOne (subOne right) = right := by
        unfold addOne subOne
        rw [BitVec.sub_add_cancel]
      change (addOne (subOne right)).OfType type ∧ (addOne (subOne right)).val = right.val - 1 + 1
      rw [back]
      exact ⟨typed, by omega⟩
  · rw [if_neg strict, if_neg strict]
    cases loop.postop with
    | true => exact ⟨typed, rfl⟩
    | false => exact ⟨addOne_ofType typed below, addOne_val typed below⟩

/-- Below the least value of the type the lower end overflows, and the range has all values
anyway unless the type is `long long` and the upper end its maximum. -/
theorem mem_overflowed (typed : right.OfType type) (signed : typeUnsigned type = false)
    (least : right.val = type.lo) (high : max.OfType type)
    (ordered : type.lo = -2 ^ 63 → max.val ≠ 2 ^ 63 - 1) {x : Int} (low : type.lo ≤ x)
    (below : x ≤ max.val) : x ∈ rlSet (allocRl (subOne right) max) := by
  have own : (subOne right).type = type := typed.1
  by_cases reversed : svalCmp (subOne right) max > 0
  · rw [allocRl_reversed reversed, own, mem_rlSet_cons, svalTypeMin_val, svalTypeMax_val]
    exact Or.inl ⟨low, below.trans high.2.2⟩
  · have single : allocRl (subOne right) max = [⟨subOne right, max⟩] := by
      unfold allocRl addRangeTyped
      rw [if_neg reversed, if_neg reversed]
      rfl
    rw [single, mem_rlSet_cons]
    refine Or.inl ⟨?_, below⟩
    have value := @subOne_val_signed right (by rw [typed.1]; exact signed)
    have bounds := type.kind.bounds
    change -2 ^ 63 ≤ type.lo ∧ type.lo ≤ 0 ∧ 1 ≤ type.hi ∧ type.hi < 2 ^ 64 at bounds
    by_cases wide : type.lo = -2 ^ 63
    · exfalso
      have top : type.hi = 2 ^ 63 - 1 := by
        revert wide
        unfold Ctype.lo Ctype.hi
        cases type.kind <;> decide
      have wrapped : (subOne right).OfType type := ⟨own, by omega, by omega⟩
      rw [svalCmp_ofType wrapped high] at reversed
      have last := high.2.2
      have other := ordered wide
      refine reversed ?_
      rw [intCmp_gt_zero]
      omega
    · change (subOne right).val ≤ x
      omega

theorem handle_spec (info : loop.getCountdownInfo = some (op, right))
    (canonical : Canonical loop.type loop.state.rl) (some : loop.state.rl ≠ [])
    (signed : typeUnsigned loop.type = false) (constant : loop.Constant right)
    (least : right.val ≤ loop.state.min.val) :
    (svalCast loop.type right).OfType loop.type ∧
      (loop.state.max.val ≤ loop.type.wrap right.val → loop.handle = none) ∧
      (loop.type.wrap right.val < loop.state.max.val → ∃ inside, loop.handle = Option.some inside ∧
        inside.rl = allocRl (loop.lowerEnd op (svalCast loop.type right))
          (CountDown.upperEnd loop.state.max)) := by
  have low : loop.state.min.OfType loop.type := rlMin_ofType canonical some
  have high : loop.state.max.OfType loop.type := rlMax_ofType canonical some
  have typed := svalCast_ofType loop.type right
  have notBelow : ¬ svalCmp loop.state.min right < 0 := by
    refine svalCmp_nonneg ?_ constant.1 ?_ least
    · rw [low.1]
      exact low
    · rw [low.1]
      exact signed
  have compared : svalCmp loop.state.max (svalCast loop.type right) ≤ 0 ↔
      loop.state.max.val ≤ loop.type.wrap right.val := by
    rw [svalCmp_ofType high typed, svalCast_val]
    exact intCmp_le_zero _ _
  refine ⟨typed, fun under => ?_, fun above => ?_⟩
  · unfold CountDown.handle
    rw [info]
    dsimp only
    rw [if_neg notBelow, svalCast_self high, if_pos (compared.mpr under)]
  · unfold CountDown.handle
    rw [info]
    dsimp only
    rw [if_neg notBelow, svalCast_self high,
      if_neg fun under => absurd (compared.mp under) (by omega)]
    refine ⟨_, rfl, ?_⟩
    unfold allocEstateRange Estate.setHardMax
    cases loop.state.fuzzyMax <;> cases loop.state.hardMax <;> simp

end Ends

section Runs

variable {loop : CountDown} {op : Comparison} {right : Sval}

def NegativePass (loop : CountDown) (right : Sval) : Prop :=
  loop.compare = none ∨ loop.WrapsAround right

theorem operator_cases (info : loop.getCountdownInfo = some (op, right)) : op = gt ∨ op = gte := by
  rcases CountDown.getCountdownInfo_cases info with ⟨-, rfl, -⟩ | ⟨written, -, both, -⟩
  · exact Or.inl rfl
  · exact both

/-- The test fails from the limit on, but for negative values that pass. -/
theorem test_iff_limit (info : loop.getCountdownInfo = some (op, right))
    (signed : typeUnsigned loop.type = false) (constant : loop.Constant right) {t : Int}
    (low : loop.type.lo ≤ t) (high : t ≤ loop.type.hi) :
    loop.Test t ↔ testLimit op right.val < t ∨ t < 0 ∧ NegativePass loop right := by
  rw [CountDown.test_iff info signed constant low high]
  unfold testLimit NegativePass
  rcases operator_cases info with rfl | rfl
  · exact Iff.rfl
  · rw [if_pos rfl]
    change right.val ≤ t ∨ _ ↔ _
    rw [Int.sub_one_lt_iff]

section

variable (passes : NegativePass loop right) (info : loop.getCountdownInfo = some (op, right))
  (signed : typeUnsigned loop.type = false) (constant : loop.Constant right)
include passes info signed constant

theorem NegativePass.nonneg : 0 ≤ right.val := by
  rcases CountDown.getCountdownInfo_cases info with ⟨-, -, rfl⟩ | ⟨written, compare, -, -⟩
  · decide
  · rcases passes with bare | ⟨-, wraps⟩
    · rw [bare] at compare
      cases compare
    · obtain ⟨-, large, -⟩ := getPromotedType_signed loop.type right.type signed
      have zero := (large wraps).1
      have least := constant.1.2.1
      omega

/-- A loop that does not count below zero stops at the limit. -/
theorem NegativePass.limit_nonneg (ends : op = gte → right.val = 0 → ¬ loop.WrapsAround right) :
    0 ≤ testLimit op right.val := by
  have positive := passes.nonneg info signed constant
  unfold testLimit
  split_ifs with strict
  · have wraps : loop.WrapsAround right := by
      refine passes.resolve_left fun bare => ?_
      rcases CountDown.getCountdownInfo_cases info with ⟨-, rfl, -⟩ | ⟨written, compare, -, -⟩
      · cases strict
      · rw [bare] at compare
        cases compare
    have nonzero : right.val ≠ 0 := fun zero => ends strict zero wraps
    omega
  · exact positive

end

theorem tested_eq (s : Int) (k : Nat) : loop.tested s k = loop.tested s 0 - k := by
  unfold CountDown.tested
  split_ifs <;> omega

section

variable {s : Int} {k : Nat} (info : loop.getCountdownInfo = some (op, right))
  (signed : typeUnsigned loop.type = false) (constant : loop.Constant right)
  (stops : NegativePass loop right → 0 ≤ testLimit op right.val)
  (start : testLimit op right.val ≤ loop.tested s 0) (low : loop.type.lo ≤ loop.tested s k)
include info signed constant stops start low

/-- As long as the tests hold the tested value has not reached the limit. -/
theorem limit_lt_tested (holds : ∀ j ≤ k, loop.Test (loop.tested s j)) :
    testLimit op right.val < loop.tested s k := by
  by_contra reached
  have place := @tested_eq loop s k
  have greatest := constant.2
  have most : testLimit op right.val ≤ right.val := by
    unfold testLimit
    split_ifs <;> omega
  obtain ⟨j, offset⟩ := Int.eq_ofNat_of_zero_le
    (show 0 ≤ loop.tested s 0 - testLimit op right.val by omega)
  have atLimit : loop.tested s j = testLimit op right.val := by
    rw [tested_eq]
    omega
  have passed := holds j (by omega)
  rw [atLimit, test_iff_limit info signed constant (by omega) (by omega)] at passed
  rcases passed with less | ⟨negative, passes⟩
  · exact absurd less (lt_irrefl _)
  · have := stops passes
    omega

/-- The test that fails first is the one of the limit. -/
theorem tested_eq_limit (high : loop.tested s k ≤ loop.type.hi)
    (holds : ∀ j < k, loop.Test (loop.tested s j)) (fails : ¬ loop.Test (loop.tested s k)) :
    loop.tested s k = testLimit op right.val := by
  have above : testLimit op right.val ≤ loop.tested s k := by
    cases k with
    | zero => exact start
    | succ k =>
      have last := @tested_eq loop s k
      have next := @tested_eq loop s (k + 1)
      push_cast at next
      have := limit_lt_tested (k := k) info signed constant stops start (by omega)
        fun j before => holds j (by omega)
      omega
  rw [test_iff_limit info signed constant low high] at fails
  have below := not_lt.mp fun more => fails (Or.inl more)
  exact le_antisymm below above

end

end Runs

section Summary

variable {loop : CountDown} {op : Comparison} {right : Sval}

/-- A loop that counts as expected stays between the ends that are set. -/
theorem CountDown.CountsRight.sound (counts : loop.CountsRight op right)
    (info : loop.getCountdownInfo = some (op, right))
    (canonical : Canonical loop.type loop.state.rl) (some : loop.state.rl ≠ [])
    (signed : typeUnsigned loop.type = false) (constant : loop.Constant right)
    (constantLow : loop.type.lo ≤ right.val) (least : right.val ≤ loop.state.min.val) :
    loop.Sound := by
  obtain ⟨typed, unset, set⟩ := handle_spec info canonical some signed constant least
  have kept : loop.type.wrap right.val = right.val := IntKind.wrap_of_mem constantLow constant.2
  have value : (svalCast loop.type right).val = right.val := (svalCast_val _ _).trans kept
  rw [kept] at unset set
  intro inside given s member k
  have low : right.val ≤ s := least.trans (rlMin_le canonical member)
  have high : s ≤ loop.state.max.val := le_rlMax canonical member
  have bounds := canonical.mem_type member
  have maxTyped : loop.state.max.OfType loop.type := rlMax_ofType canonical some
  have above : right.val < loop.state.max.val := by
    by_contra under
    rw [unset (not_lt.mp under)] at given
    cases given
  obtain ⟨_, found, range⟩ := set above
  obtain rfl := Option.some.inj (given.symm.trans found)
  obtain ⟨upTyped, up⟩ := upperEnd_spec maxTyped (by omega)
  have stops : NegativePass loop right → 0 ≤ testLimit op right.val := fun passes =>
    passes.limit_nonneg info signed constant counts.ends
  have first := @tested_eq loop s k
  have place : loop.tested s k = if loop.postop then CountDown.counter s k + 1
      else CountDown.counter s k := by
    unfold CountDown.tested CountDown.counter
    split_ifs <;> omega
  have top : CountDown.counter s k ≤ s - 1 := by
    unfold CountDown.counter
    omega
  have reach : CountDown.counter s k ≤ (CountDown.upperEnd loop.state.max).val := by
    rw [up]
    split_ifs <;> omega
  have holds : ∀ t, loop.type.lo ≤ t → t ≤ loop.type.hi → testLimit op right.val < t →
      loop.Test t :=
    fun t low high more => (test_iff_limit info signed constant low high).mpr (Or.inl more)
  have most := maxTyped.2.2
  by_cases corner : loop.postop = true ∧ op = gte ∧ right.val = loop.type.lo
  · -- All values pass the test, and the lower end overflows.
    obtain ⟨post, rfl, bottom⟩ := corner
    rw [post, if_pos rfl] at place
    have lower : loop.lowerEnd gte (svalCast loop.type right) =
        subOne (svalCast loop.type right) := by
      unfold CountDown.lowerEnd
      rw [if_pos rfl, post]
      rfl
    rw [lower] at range
    constructor
    · rintro ⟨-, stays⟩
      rw [range]
      refine mem_overflowed typed signed (value.trans bottom) upTyped (fun wide => ?_) stays reach
      have ordered := counts.order post rfl (by omega)
      have narrow : loop.type.hi < 2 ^ 63 := IntKind.hi_of_signed signed
      rw [up]
      split_ifs <;> omega
    · rintro ⟨-, fails, stays⟩
      refine absurd (holds _ (by omega) (by omega) ?_) fails
      unfold testLimit
      rw [if_pos rfl]
      omega
  · have limits : testLimit op right.val ≤ right.val := by
      unfold testLimit
      split_ifs <;> omega
    obtain ⟨downTyped, down⟩ := @lowerEnd_spec loop.type loop op (svalCast loop.type right) typed
      (by omega) fun post strict => by
        have other : right.val ≠ loop.type.lo := fun bottom => corner ⟨post, strict, bottom⟩
        omega
    rw [value] at down
    have start : loop.type.lo ≤ CountDown.counter s k →
        testLimit op right.val ≤ loop.tested s 0 := by
      intro stays
      unfold CountDown.counter at stays
      unfold CountDown.tested testLimit
      rcases operator_cases info with rfl | rfl
      · cases post : loop.postop with
        | true =>
          simp
          omega
        | false =>
          have other : s ≠ right.val := by
            rintro rfl
            have := counts.start post rfl member
            omega
          simp
          omega
      · cases loop.postop <;> simp <;> omega
    have order : (loop.lowerEnd op (svalCast loop.type right)).val ≤
        (CountDown.upperEnd loop.state.max).val := by
      rw [up, down]
      cases post : loop.postop with
      | true =>
        rw [if_pos rfl]
        split_ifs <;> omega
      | false =>
        rcases operator_cases info with rfl | rfl
        · have := counts.above post rfl
          unfold testLimit
          simp
          split_ifs <;> omega
        · unfold testLimit
          simp
          split_ifs <;> omega
    constructor
    · rintro ⟨holds, stays⟩
      have passed := limit_lt_tested info signed constant stops (start stays)
        (by rw [place]; split_ifs <;> omega) holds
      rw [range, mem_allocRl_iff downTyped upTyped order, down]
      refine ⟨?_, reach⟩
      rw [place] at passed
      split_ifs at passed ⊢ <;> omega
    · rintro ⟨holds, fails, stays⟩
      have stopped := tested_eq_limit info signed constant stops (start stays)
        (by rw [place]; split_ifs <;> omega) (by rw [place]; split_ifs <;> omega) holds fails
      have least : inside.min = loop.lowerEnd op (svalCast loop.type right) := by
        unfold Estate.min
        rw [range, allocRl_eq downTyped upTyped order]
        rfl
      unfold CountDown.afterValue
      have last : (loop.lowerEnd op (svalCast loop.type right)).val =
          CountDown.counter s k + 1 := by
        rw [down]
        rw [place] at stopped
        split_ifs at stopped ⊢ <;> omega
      rw [least, subOne_val downTyped (by omega), last]
      omega

theorem signed_bounds {type : Ctype} (signed : typeUnsigned type = false) :
    type.lo ≤ -128 ∧ 127 ≤ type.hi ∧ -2 ^ 63 ≤ type.lo ∧ type.hi < 2 ^ 63 := by
  revert signed
  unfold typeUnsigned Ctype.lo Ctype.hi
  cases type.kind <;> decide

theorem countsRight_of_sound (sound : loop.Sound)
    (info : loop.getCountdownInfo = some (op, right))
    (canonical : Canonical loop.type loop.state.rl) (some : loop.state.rl ≠ [])
    (signed : typeUnsigned loop.type = false) (constant : loop.Constant right)
    (constantLow : loop.type.lo ≤ right.val) (least : right.val ≤ loop.state.min.val)
    (above : right.val < loop.state.max.val) : loop.CountsRight op right := by
  obtain ⟨typed, -, set⟩ := handle_spec info canonical some signed constant least
  have kept : loop.type.wrap right.val = right.val := IntKind.wrap_of_mem constantLow constant.2
  have value : (svalCast loop.type right).val = right.val := (svalCast_val _ _).trans kept
  rw [kept] at set
  obtain ⟨inside, given, range⟩ := set above
  have member : loop.state.max.val ∈ rlSet loop.state.rl := rlMax_mem canonical some
  have maxTyped : loop.state.max.OfType loop.type := rlMax_ofType canonical some
  obtain ⟨low, high, narrowLow, narrowHigh⟩ := signed_bounds signed
  have most := maxTyped.2.2
  obtain ⟨upTyped, up⟩ := upperEnd_spec maxTyped (by omega)
  have test := fun t (low : loop.type.lo ≤ t) high => test_iff_limit info signed constant low high
  have runs := sound inside given
  -- The first decrement of a run.
  have once : ∀ s, loop.type.lo ≤ CountDown.counter s 0 → loop.Test (loop.tested s 0) →
      loop.Enters s 0 := fun s stays holds =>
    ⟨fun j none => by rw [Nat.le_zero.mp none]; exact holds, stays⟩
  have never : ∀ s, loop.type.lo ≤ CountDown.counter s 0 → ¬ loop.Test (loop.tested s 0) →
      loop.Leaves s 0 := fun s stays fails =>
    ⟨fun j none => absurd none (Nat.not_lt_zero j), fails, stays⟩
  have first : ∀ s, loop.tested s 0 = if loop.postop then s else s - 1 := fun s => by
    unfold CountDown.tested
    split_ifs <;> omega
  have next : ∀ s, CountDown.counter s 0 = s - 1 := fun s => by
    unfold CountDown.counter
    omega
  have aboveOk : loop.postop = false → op = gt →
      right.val + 1 < loop.state.max.val ∨ loop.state.max.val = loop.type.hi := by
    rintro pre rfl
    by_contra short
    rw [not_or] at short
    obtain ⟨downTyped, down⟩ := @lowerEnd_spec loop.type loop gt (svalCast loop.type right) typed
      (by omega) fun post => absurd (pre.symm.trans post) (by decide)
    rw [pre, if_neg (by decide), value] at down
    rw [if_neg short.2] at up
    have ends : testLimit gt right.val = right.val := rfl
    have reversed : svalCmp (loop.lowerEnd gt (svalCast loop.type right))
        (CountDown.upperEnd loop.state.max) > 0 := by
      rw [svalCmp_ofType downTyped upTyped, intCmp_gt_zero]
      omega
    have minimum : inside.min = svalTypeMin loop.type := by
      unfold Estate.min
      rw [range, allocRl_reversed reversed, downTyped.1]
      rfl
    have place := first loop.state.max.val
    rw [pre, if_neg (by decide)] at place
    have left := (runs _ member 0).2 (never _ (by rw [next]; omega) (by
      rw [test _ (by omega) (by omega)]
      rintro (less | ⟨negative, passes⟩)
      · omega
      · have := passes.nonneg info signed constant
        omega))
    have unwrapped : typeUnsigned (svalTypeMin loop.type).type = false := by
      rw [(svalTypeMin_ofType loop.type).1]
      exact signed
    unfold CountDown.afterValue at left
    rw [minimum, next, @subOne_val_signed (svalTypeMin loop.type) unwrapped,
      svalTypeMin_val] at left
    omega
  refine ⟨?_, aboveOk, ?_, ?_⟩
  · rintro rfl zero wraps
    obtain ⟨downTyped, down⟩ := @lowerEnd_spec loop.type loop gte (svalCast loop.type right) typed
      (by omega) fun _ _ => by omega
    rw [value, zero] at down
    have ends : testLimit gte 0 = -1 := rfl
    have order : (loop.lowerEnd gte (svalCast loop.type right)).val ≤
        (CountDown.upperEnd loop.state.max).val := by
      rw [up, down]
      split_ifs <;> omega
    obtain ⟨k, rounds⟩ := Int.eq_ofNat_of_zero_le (show 0 ≤ loop.state.max.val + 1 by omega)
    have value : CountDown.counter loop.state.max.val k = -2 := by
      unfold CountDown.counter
      omega
    have entered := (runs _ member k).1 ⟨fun j before => by
      have place := first loop.state.max.val
      have moved := @tested_eq loop loop.state.max.val j
      have inside : loop.type.lo ≤ loop.tested loop.state.max.val j ∧
          loop.tested loop.state.max.val j ≤ loop.type.hi := by
        split_ifs at place <;> omega
      rw [test _ inside.1 inside.2, zero, ends]
      by_cases negative : loop.tested loop.state.max.val j < 0
      · exact Or.inr ⟨negative, Or.inr wraps⟩
      · exact Or.inl (by omega), by omega⟩
    rw [range, mem_allocRl_iff downTyped upTyped order, down, value] at entered
    split_ifs at entered <;> omega
  · rintro pre rfl own
    by_contra other
    obtain ⟨downTyped, down⟩ := @lowerEnd_spec loop.type loop gt (svalCast loop.type right) typed
      (by omega) fun post => absurd (pre.symm.trans post) (by decide)
    rw [pre, if_neg (by decide), value] at down
    have ends : testLimit gt right.val = right.val := rfl
    have reach := aboveOk pre rfl
    have order : (loop.lowerEnd gt (svalCast loop.type right)).val ≤
        (CountDown.upperEnd loop.state.max).val := by
      rw [up, down]
      split_ifs <;> omega
    have place := first right.val
    rw [pre, if_neg (by decide)] at place
    have tested := test (right.val - 1) (by omega) (by omega)
    by_cases passes : right.val - 1 < 0 ∧ NegativePass loop right
    · have entered := (runs _ own 0).1 (once _ (by rw [next]; omega) (by
        rw [place]
        exact tested.mpr (Or.inr passes)))
      rw [range, mem_allocRl_iff downTyped upTyped order, down, next] at entered
      omega
    · have left := (runs _ own 0).2 (never _ (by rw [next]; omega) (by
        rw [place]
        exact fun holds => (tested.mp holds).elim (fun less => by omega) passes))
      have minimum : inside.min = loop.lowerEnd gt (svalCast loop.type right) := by
        unfold Estate.min
        rw [range, allocRl_eq downTyped upTyped order]
        rfl
      unfold CountDown.afterValue at left
      rw [minimum, subOne_val downTyped (by omega), down, next] at left
      omega
  · rintro post rfl bottom
    intro top
    have lower : loop.lowerEnd gte (svalCast loop.type right) =
        subOne (svalCast loop.type right) := by
      unfold CountDown.lowerEnd
      rw [if_pos rfl, post]
      rfl
    have down := @subOne_val_signed (svalCast loop.type right) (by rw [typed.1]; exact signed)
    rw [value, bottom] at down
    have downTyped : (subOne (svalCast loop.type right)).OfType loop.type :=
      ⟨typed.1, by omega, by omega⟩
    rw [if_pos (by omega)] at up
    have place := first loop.state.max.val
    rw [post, if_pos rfl] at place
    have entered := (runs _ member 0).1 (once _ (by rw [next]; omega) (by
      rw [place, test _ (by omega) (by omega)]
      refine Or.inl ?_
      change right.val - 1 < loop.state.max.val
      omega))
    rw [range, lower, mem_allocRl_iff downTyped upTyped (by omega), next] at entered
    omega

/-- A loop that never ends is summarised rightly where its whole way is in the range. -/
theorem sound_iff_countsForever (info : loop.getCountdownInfo = some (op, right))
    (canonical : Canonical loop.type loop.state.rl) (some : loop.state.rl ≠ [])
    (signed : typeUnsigned loop.type = false) (constant : loop.Constant right)
    (constantLow : right.val < loop.type.lo) (least : right.val ≤ loop.state.min.val)
    (above : loop.type.wrap right.val < loop.state.max.val) :
    loop.Sound ↔ loop.CountsForever op right := by
  obtain ⟨typed, -, set⟩ := handle_spec info canonical some signed constant least
  obtain ⟨inside, given, range⟩ := set above
  have value := svalCast_val loop.type right
  have member : loop.state.max.val ∈ rlSet loop.state.rl := rlMax_mem canonical some
  have maxTyped : loop.state.max.OfType loop.type := rlMax_ofType canonical some
  have most := maxTyped.2.2
  have wrapped := IntKind.wrap_bounds loop.type.kind right.val
  change loop.type.lo ≤ loop.type.wrap right.val ∧
    loop.type.wrap right.val ≤ loop.type.hi at wrapped
  obtain ⟨upTyped, up⟩ := upperEnd_spec maxTyped (by omega)
  have limits : testLimit op right.val ≤ right.val := by
    unfold testLimit
    split_ifs <;> omega
  have holds : ∀ t, loop.type.lo ≤ t → t ≤ loop.type.hi → loop.Test t := fun t low high =>
    (test_iff_limit info signed constant low high).mpr (Or.inl (by omega))
  have inType : ∀ s ∈ rlSet loop.state.rl, ∀ k j, j ≤ k → loop.type.lo ≤ CountDown.counter s k →
      loop.Test (loop.tested s j) := by
    intro s own k j before stays
    have bounds := canonical.mem_type own
    refine holds _ ?_ ?_ <;> unfold CountDown.tested <;> unfold CountDown.counter at stays <;>
      split_ifs <;> omega
  -- The states are right exactly when the range has all values up to its end.
  have covers : loop.Sound ↔
      ∀ x, loop.type.lo ≤ x → x < loop.state.max.val → x ∈ rlSet inside.rl := by
    constructor
    · intro sound x low high
      obtain ⟨k, rounds⟩ := Int.eq_ofNat_of_zero_le
        (show 0 ≤ loop.state.max.val - 1 - x by omega)
      have place : CountDown.counter loop.state.max.val k = x := by
        unfold CountDown.counter
        omega
      rw [← place] at low ⊢
      exact (sound inside given _ member k).1 ⟨fun j before => inType _ member k j before low, low⟩
    · intro covered inside' given' s own k
      obtain rfl := Option.some.inj (given.symm.trans given')
      constructor
      · rintro ⟨-, stays⟩
        have below := le_rlMax canonical own
        change s ≤ loop.state.max.val at below
        exact covered _ stays (by unfold CountDown.counter; omega)
      · rintro ⟨-, fails, stays⟩
        exact absurd (inType s own k k (le_refl k) stays) fails
  have forward : ∀ low : Sval, inside.rl = allocRl low (CountDown.upperEnd loop.state.max) →
      low.OfType loop.type → low.val ≤ (CountDown.upperEnd loop.state.max).val →
      (loop.Sound ↔ low.val = loop.type.lo) := by
    intro low own lowTyped order
    rw [covers, own]
    constructor
    · intro covered
      have first := covered loop.type.lo (le_refl _) (by omega)
      rw [mem_allocRl_iff lowTyped upTyped order] at first
      exact le_antisymm first.1 lowTyped.2.1
    · intro bottom x stays below
      rw [mem_allocRl_iff lowTyped upTyped order, up]
      split_ifs <;> omega
  have lower := @lowerEnd_spec loop.type loop op (svalCast loop.type right) typed (by omega)
  rw [value] at lower
  unfold CountDown.CountsForever
  cases post : loop.postop with
  | true =>
    rw [if_pos rfl]
    by_cases strict : op = gte
    · rw [if_pos strict]
      by_cases bottom : loop.type.wrap right.val = loop.type.lo
      · refine iff_of_true (covers.mpr fun x stays below => ?_) (by omega)
        have lowest : loop.lowerEnd op (svalCast loop.type right) =
            subOne (svalCast loop.type right) := by
          unfold CountDown.lowerEnd
          rw [if_pos strict, post]
          rfl
        rw [range, lowest]
        refine mem_overflowed typed signed (value.trans bottom) upTyped (fun wide => ?_) stays ?_
        · have own := constant.1.2.1
          have bounds := right.type.kind.bounds
          change -2 ^ 63 ≤ right.type.lo ∧ _ at bounds
          omega
        · rw [up]
          split_ifs <;> omega
      · obtain ⟨lowTyped, low⟩ := lower fun _ _ => by omega
        rw [post, if_pos rfl] at low
        unfold testLimit at low
        rw [if_pos strict] at low
        rw [forward _ range lowTyped (by rw [up]; split_ifs <;> omega), low]
        omega
    · rw [if_neg strict]
      obtain ⟨lowTyped, low⟩ := lower fun _ same => absurd same strict
      rw [post, if_pos rfl] at low
      unfold testLimit at low
      rw [if_neg strict] at low
      rw [forward _ range lowTyped (by rw [up]; split_ifs <;> omega), low]
  | false =>
    obtain ⟨lowTyped, low⟩ := lower fun other => absurd (post.symm.trans other) (by decide)
    rw [post, if_neg (by decide)] at low
    rw [if_neg (by decide)]
    unfold testLimit at low
    by_cases strict : op = gte
    · rw [if_pos strict] at low ⊢
      rw [forward _ range lowTyped (by rw [up]; split_ifs <;> omega), low]
      omega
    · rw [if_neg strict] at low ⊢
      by_cases order : (loop.lowerEnd op (svalCast loop.type right)).val ≤
          (CountDown.upperEnd loop.state.max).val
      · rw [forward _ range lowTyped order, low]
        rw [up, low] at order
        refine iff_of_false (by omega) ?_
        rintro ⟨short, notTop⟩
        rw [if_neg notTop] at order
        omega
      · have reversed : svalCmp (loop.lowerEnd op (svalCast loop.type right))
            (CountDown.upperEnd loop.state.max) > 0 := by
          rw [svalCmp_ofType lowTyped upTyped, intCmp_gt_zero]
          exact not_le.mp order
        refine iff_of_true (covers.mpr fun x stays below => ?_) ?_
        · rw [range, allocRl_reversed reversed, lowTyped.1, mem_rlSet_cons, svalTypeMin_val,
            svalTypeMax_val]
          exact Or.inl ⟨stays, by omega⟩
        · rw [up, low] at order
          split_ifs at order <;> omega

/-- The range and the value after the loop are right exactly when nothing is set or the loop
counts as the code expects. -/
theorem countDown_sound_iff (info : loop.getCountdownInfo = some (op, right))
    (canonical : Canonical loop.type loop.state.rl) (some : loop.state.rl ≠ [])
    (signed : typeUnsigned loop.type = false) (typed : right.OfType right.type)
    (least : right.val ≤ loop.state.min.val) : loop.Sound ↔ loop.WellCounted op right := by
  have minTyped : loop.state.min.OfType loop.type := rlMin_ofType canonical some
  have constant : loop.Constant right := ⟨typed, least.trans minTyped.2.2⟩
  unfold CountDown.WellCounted
  by_cases under : loop.state.max.val ≤ loop.type.wrap right.val
  · refine iff_of_true ?_ (Or.inl under)
    obtain ⟨-, unset, -⟩ := handle_spec info canonical some signed constant least
    intro inside given
    rw [unset under] at given
    cases given
  · rw [or_iff_right under]
    have above := not_le.mp under
    split_ifs with low
    · have kept : loop.type.wrap right.val = right.val := IntKind.wrap_of_mem low constant.2
      rw [kept] at above
      constructor
      · exact fun sound =>
          countsRight_of_sound sound info canonical some signed constant low least above
      · exact fun counts => counts.sound info canonical some signed constant low least
    · exact sound_iff_countsForever info canonical some signed constant (not_le.mp low) least above

end Summary

def counterState : Estate := ⟨[⟨intCtype.ofInt 0, intCtype.ofInt 10⟩], false, none⟩

def bareLoop : CountDown := ⟨intCtype, counterState, false, none⟩

/-- The range for the body of `while (--i)` starts with one, and the counter can start with
zero. -/
theorem countDown_sound_iff_bare : bareLoop.Sound ↔ bareLoop.WellCounted gt (intCtype.ofInt 0) :=
  countDown_sound_iff rfl (by decide) (by decide) (by decide) (by decide) (by decide)

/-- Started with zero the body sees minus one. -/
theorem countDown_unsound_bare : ¬ bareLoop.Sound := by
  intro sound
  have entered := (sound ⟨[⟨intCtype.ofInt 1, intCtype.ofInt 9⟩], false, none⟩ (by decide) 0
    (by decide) 0).1 ⟨fun j none => by
      rw [Nat.le_zero.mp none]
      change (-1 : Int) ≠ 0
      decide, by decide⟩
  exact absurd entered (by decide)

end SmatchFormal.Extra
