import SmatchFormal.Extra.Masks

/-!
# Moving constants across a comparison

When one side of a comparison is known and the other adds, subtracts or multiplies a constant,
`move_known_values` moves the constant to the known side and keeps the operator.
-/

namespace SmatchFormal.Extra

open SmatchFormal.Ranges

/-! ## The code -/

inductive MathOp where
  | add | sub | mul | div
  deriving DecidableEq

inductive Expression (Leaf : Type) where
  | leaf (name : Leaf)
  | binop (left : Expression Leaf) (op : MathOp) (right : Expression Leaf)

def invertOp : MathOp → MathOp
  | .mul => .div
  | .div => .mul
  | .add => .sub
  | .sub => .add

def isSimpleMath : MathOp → Bool
  | .add | .sub | .mul => true
  | .div => false

structure Known (Leaf : Type) where
  getValue : Expression Leaf → Option Sval
  getImpliedValue : Expression Leaf → Option Sval

section Move

variable {Leaf : Type} (smatch : Known Leaf)

/-- The part of `move_known_values` that is there once for each side: the new known side and
what is left of the other one. -/
def moveConstant (known : Expression Leaf) :
    Expression Leaf → Option (Expression Leaf × Expression Leaf)
  | .leaf _ => none
  | .binop left op right =>
    if !isSimpleMath op then none
    else if (smatch.getImpliedValue (.binop left op right)).isSome then none
    else if op = .mul then
      (smatch.getValue right).bind fun divisor =>
        if divisor.value = 0 then none else some (.binop known (invertOp op) right, left)
    else if op = .add ∧ (smatch.getValue left).isSome then
      some (.binop known (invertOp op) left, right)
    else if (smatch.getValue right).isSome then some (.binop known (invertOp op) right, left)
    else none

def moveKnownValues (left right : Expression Leaf) : Expression Leaf × Expression Leaf :=
  if (smatch.getImpliedValue left).isSome then (moveConstant smatch left right).getD (left, right)
  else if (smatch.getImpliedValue right).isSome then
    ((moveConstant smatch right left).map Prod.swap).getD (left, right)
  else (left, right)

end Move

/-! ## The meaning of the comparisons -/

def fitIn (type : Ctype) (x : Int) : Option Int :=
  if type.lo ≤ x ∧ x ≤ type.hi then some x else none

def MathOp.apply (type : Ctype) : MathOp → Int → Int → Option Int
  | .add, a, b => fitIn type (a + b)
  | .sub, a, b => fitIn type (a - b)
  | .mul, a, b => fitIn type (a * b)
  | .div, a, b => if b = 0 then none else fitIn type (a.tdiv b)

section Meaning

variable {Leaf : Type}

def Expression.eval (type : Ctype) (store : Leaf → Int) : Expression Leaf → Option Int
  | .leaf name => some (store name)
  | .binop left op right =>
    (left.eval type store).bind fun a => (right.eval type store).bind fun b => op.apply type a b

/-- What is known of an expression is its value in all stores, and one of the type. -/
structure Known.Sound (smatch : Known Leaf) (type : Ctype) (stores : Set (Leaf → Int)) :
    Prop where
  getValue : ∀ expr sval, smatch.getValue expr = some sval → sval.OfType type ∧
    ∀ store ∈ stores, expr.eval type store = some sval.val
  getImpliedValue : ∀ expr sval, smatch.getImpliedValue expr = some sval → sval.OfType type ∧
    ∀ store ∈ stores, expr.eval type store = some sval.val

/-- The two comparisons have one truth value wherever no arithmetic overflows. -/
def SameTruth (type : Ctype) (stores : Set (Leaf → Int)) (op : Comparison)
    (before after : Expression Leaf × Expression Leaf) : Prop :=
  ∀ store ∈ stores, ∀ a b a' b', before.1.eval type store = some a →
    before.2.eval type store = some b → after.1.eval type store = some a' →
    after.2.eval type store = some b' → (op.Holds a b ↔ op.Holds a' b')

def Expression.Free (type : Ctype) (stores : Set (Leaf → Int)) (expr : Expression Leaf) : Prop :=
  ∀ x, type.lo ≤ x → x ≤ type.hi → ∃ store ∈ stores, expr.eval type store = some x

/-- The quotient can stand for `k` in a comparison of a multiple of `c` on the left of it: it
overflows, or the division has no rest and the sign or the operator does not matter, or what is
cut off is on the right side of the operator. -/
def QuotientServes (type : Ctype) (op : Comparison) (k c : Int) : Prop :=
  fitIn type (k.tdiv c) = none ∨
    c ∣ k ∧ (0 < c ∨ op = .equal ∨ op = .notEqual) ∨
    0 < c ∧ (k < 0 ∧ (op = .lt ∨ op = .unsignedLt ∨ op = .gte ∨ op = .unsignedGte) ∨
      0 < k ∧ (op = .lte ∨ op = .unsignedLte ∨ op = .gt ∨ op = .unsignedGt))

/-- The side is a product with a known factor that is not zero, and not known itself. -/
def Product (smatch : Known Leaf) (side x : Expression Leaf) (c : Int) : Prop :=
  ∃ factor sval, side = .binop x .mul factor ∧ smatch.getImpliedValue side = none ∧
    smatch.getValue factor = some sval ∧ sval.val = c ∧ c ≠ 0

end Meaning

section Quotient

variable {type : Ctype} {op : Comparison} {k c q r : Int}

/-- The rest is smaller than the divisor and has the sign of the number. -/
theorem tmod_bounds (k c : Int) (nonzero : c ≠ 0) :
    k = c * k.tdiv c + k.tmod c ∧ (k.tmod c).natAbs < c.natAbs ∧
      (0 ≤ k → 0 ≤ k.tmod c ∧ k.tmod c ≤ k) ∧ (k ≤ 0 → k.tmod c ≤ 0 ∧ k ≤ k.tmod c) := by
  have size : (k.tmod c).natAbs = k.natAbs % c.natAbs := Int.natAbs_tmod k c
  have less := Nat.mod_lt k.natAbs (Int.natAbs_pos.mpr nonzero)
  have most := Nat.mod_le k.natAbs c.natAbs
  refine ⟨(Int.mul_tdiv_add_tmod k c).symm, by omega, fun positive => ?_, fun negative => ?_⟩
  · have := Int.tmod_nonneg c positive
    omega
  · have := Int.tmod_nonneg c (show 0 ≤ -k by omega)
    rw [Int.neg_tmod] at this
    omega

theorem mul_lt_add_iff (positive : 0 < c) (low : -c < r) (high : r ≤ 0) (x : Int) :
    x * c < c * q + r ↔ x < q := by
  constructor
  · intro below
    have : c * x < c * q := by
      rw [Int.mul_comm c x]
      omega
    exact lt_of_mul_lt_mul_left this positive.le
  · intro less
    have := Int.mul_le_mul_of_nonneg_left (show x + 1 ≤ q by omega) positive.le
    rw [Int.mul_add, Int.mul_comm c x] at this
    omega

theorem mul_le_add_iff (positive : 0 < c) (low : 0 ≤ r) (high : r < c) (x : Int) :
    x * c ≤ c * q + r ↔ x ≤ q := by
  constructor
  · intro below
    have : c * x < c * (q + 1) := by
      rw [Int.mul_comm c x, Int.mul_add]
      omega
    have := lt_of_mul_lt_mul_left this positive.le
    omega
  · intro most
    have := Int.mul_le_mul_of_nonneg_left most positive.le
    rw [Int.mul_comm c x] at this
    omega

theorem holds_mul_iff (positive : 0 < c) (a b : Int) :
    op.Holds (a * c) (b * c) ↔ op.Holds a b := by
  have mono : StrictMono fun x : Int => x * c :=
    fun x y less => mul_lt_mul_of_pos_right less positive
  cases op with
  | lt | unsignedLt | gt | unsignedGt => exact mono.lt_iff_lt
  | lte | unsignedLte | gte | unsignedGte => exact mono.le_iff_le
  | equal => exact mono.injective.eq_iff
  | notEqual => exact not_congr mono.injective.eq_iff
  | unknown | impossible => exact Iff.rfl

theorem QuotientServes.holds_iff (serves : QuotientServes type op k c) (nonzero : c ≠ 0)
    (fits : fitIn type (k.tdiv c) = some q) (x : Int) : op.Holds (x * c) k ↔ op.Holds x q := by
  obtain ⟨split, less, above, below⟩ := tmod_bounds k c nonzero
  have value : k.tdiv c = q := by
    unfold fitIn at fits
    split_ifs at fits
    exact Option.some.inj fits
  rcases serves with none | ⟨dvd, sign⟩ | ⟨positive, side⟩
  · rw [none] at fits
    cases fits
  · have exact : k = q * c := by
      rw [← value, Int.tdiv_mul_cancel dvd]
    rw [exact]
    rcases sign with positive | rfl | rfl
    · exact holds_mul_iff positive x q
    · exact mul_left_inj' nonzero
    · exact not_congr (mul_left_inj' nonzero)
  · rw [value] at split
    generalize k.tmod c = r at split less above below
    rcases side with ⟨negative, cases⟩ | ⟨large, cases⟩
    · have lt := mul_lt_add_iff (q := q) (r := r) positive (by omega) (below negative.le).1 x
      rw [← split] at lt
      have ge : k ≤ x * c ↔ q ≤ x := by
        rw [← not_lt, lt, not_lt]
      rcases cases with rfl | rfl | rfl | rfl
      · exact lt
      · exact lt
      · exact ge
      · exact ge
    · have le := mul_le_add_iff (q := q) (r := r) positive (above large.le).1 (by omega) x
      rw [← split] at le
      have gt : k < x * c ↔ q < x := by
        rw [← not_le, le, not_le]
      rcases cases with rfl | rfl | rfl | rfl
      · exact le
      · exact le
      · exact gt
      · exact gt

/-- Where it does not, one of zero, one and the quotient itself tells the two apart. -/
theorem quotientServes_of_holds (operator : op.IsOperator) (nonzero : c ≠ 0)
    (inType : type.lo ≤ k ∧ k ≤ type.hi) (factor : type.lo ≤ c ∧ c ≤ type.hi)
    (zero : type.lo ≤ 0) (one : 1 ≤ type.hi)
    (same : ∀ x q, type.lo ≤ x → x ≤ type.hi → type.lo ≤ x * c → x * c ≤ type.hi →
      fitIn type (k.tdiv c) = some q → (op.Holds (x * c) k ↔ op.Holds x q)) :
    QuotientServes type op k c := by
  obtain ⟨split, less, above, below⟩ := tmod_bounds k c nonzero
  cases fits : fitIn type (k.tdiv c) with
  | none => exact Or.inl fits
  | some q =>
    obtain ⟨inside, value⟩ : (type.lo ≤ q ∧ q ≤ type.hi) ∧ k.tdiv c = q := by
      unfold fitIn at fits
      split_ifs at fits with inside
      rw [← Option.some.inj fits]
      exact ⟨inside, rfl⟩
    have atZero := same 0 q (by omega) (by omega) (by omega) (by omega) fits
    have atOne := same 1 q (by omega) one (by omega) (by omega) fits
    have dvd : c ∣ k ↔ k.tmod c = 0 := Int.dvd_iff_tmod_eq_zero
    rw [value] at split
    generalize k.tmod c = r at split less above below dvd
    have product : q * c = k - r := by
      rw [Int.mul_comm]
      omega
    have atQuotient := same q q inside.1 inside.2 (by omega) (by omega) fits
    rw [product] at atQuotient
    rw [Int.zero_mul] at atZero
    rw [Int.one_mul] at atOne
    right
    by_cases positive : 0 < c
    · by_cases exact : r = 0
      · exact Or.inl ⟨dvd.mpr exact, Or.inl positive⟩
      · right
        refine ⟨positive, ?_⟩
        cases op with
        | lt | unsignedLt =>
          change k - r < k ↔ q < q at atQuotient
          exact Or.inl ⟨by omega, by decide⟩
        | lte | unsignedLte =>
          change k - r ≤ k ↔ q ≤ q at atQuotient
          exact Or.inr ⟨by omega, by decide⟩
        | equal =>
          change k - r = k ↔ q = q at atQuotient
          omega
        | notEqual =>
          change k - r ≠ k ↔ q ≠ q at atQuotient
          omega
        | gte | unsignedGte =>
          change k ≤ k - r ↔ q ≤ q at atQuotient
          exact Or.inl ⟨by omega, by decide⟩
        | gt | unsignedGt =>
          change k < k - r ↔ q < q at atQuotient
          exact Or.inr ⟨by omega, by decide⟩
        | unknown => exact absurd rfl operator.1
        | impossible => exact absurd rfl operator.2
    · -- With a negative factor the quotient has the other sign.
      left
      have negative : c ≤ 0 := not_lt.mp positive
      have down : 0 ≤ k → q ≤ 0 := fun high =>
        value ▸ Int.tdiv_nonpos_of_nonneg_of_nonpos high negative
      have up : k ≤ 0 → 0 ≤ q := fun low =>
        value ▸ Int.tdiv_nonneg_of_nonpos_of_nonpos low negative
      have rest : q = 0 → k = r := by
        rintro rfl
        omega
      cases op with
      | lt | unsignedLt =>
        change 0 < k ↔ 0 < q at atZero
        change c < k ↔ 1 < q at atOne
        omega
      | lte | unsignedLte =>
        change 0 ≤ k ↔ 0 ≤ q at atZero
        change c ≤ k ↔ 1 ≤ q at atOne
        omega
      | equal =>
        change k - r = k ↔ q = q at atQuotient
        exact ⟨dvd.mpr (by omega), Or.inr (by decide)⟩
      | notEqual =>
        change k - r ≠ k ↔ q ≠ q at atQuotient
        exact ⟨dvd.mpr (by omega), Or.inr (by decide)⟩
      | gte | unsignedGte =>
        change k ≤ 0 ↔ q ≤ 0 at atZero
        change k ≤ c ↔ q ≤ 1 at atOne
        omega
      | gt | unsignedGt =>
        change k < 0 ↔ q < 0 at atZero
        change k < c ↔ q < 1 at atOne
        omega
      | unknown => exact absurd rfl operator.1
      | impossible => exact absurd rfl operator.2

end Quotient

section Agree

variable {Leaf : Type} {smatch : Known Leaf} {type : Ctype} {stores : Set (Leaf → Int)}
  {op : Comparison} {known side left right x : Expression Leaf} {k : Sval}

theorem fitIn_eq_some {a b : Int} (fits : fitIn type a = some b) :
    (type.lo ≤ a ∧ a ≤ type.hi) ∧ b = a := by
  unfold fitIn at fits
  split_ifs at fits with inside
  exact ⟨inside, (Option.some.inj fits).symm⟩

theorem Expression.eval_binop {operation : MathOp} {store : Leaf → Int} {a : Int}
    (ran : (Expression.binop left operation right).eval type store = some a) :
    ∃ y z, left.eval type store = some y ∧ right.eval type store = some z ∧
      operation.apply type y z = some a := by
  obtain ⟨y, first, rest⟩ := Option.bind_eq_some_iff.mp ran
  obtain ⟨z, second, last⟩ := Option.bind_eq_some_iff.mp rest
  exact ⟨y, z, first, second, last⟩

theorem holds_add_iff (c a b : Int) : op.Holds (a + c) (b + c) ↔ op.Holds a b := by
  have mono : StrictMono fun x : Int => x + c := fun x y less => Int.add_lt_add_right less c
  cases op with
  | lt | unsignedLt | gt | unsignedGt => exact mono.lt_iff_lt
  | lte | unsignedLte | gte | unsignedGte => exact mono.le_iff_le
  | equal => exact mono.injective.eq_iff
  | notEqual => exact not_congr mono.injective.eq_iff
  | unknown | impossible => exact Iff.rfl

/-- The side without the constant compares with the new known side as the old one did. -/
def Moved (type : Ctype) (stores : Set (Leaf → Int)) (op : Comparison) (k : Int)
    (side : Expression Leaf) (pair : Expression Leaf × Expression Leaf) : Prop :=
  ∀ store ∈ stores, ∀ a a' k', side.eval type store = some a → pair.2.eval type store = some a' →
    pair.1.eval type store = some k' → (op.Holds a k ↔ op.Holds a' k')

theorem moved_translation {math constant : Expression Leaf} {back : MathOp} (sign : Int)
    (implied : ∀ store ∈ stores, known.eval type store = some k.val)
    (away : ∀ store a, math.eval type store = some a → ∃ y z, x.eval type store = some y ∧
      constant.eval type store = some z ∧ a = y + sign * z)
    (home : ∀ y z a, back.apply type y z = some a → a = y - sign * z) :
    Moved type stores op k.val math (.binop known back constant, x) := by
  intro store possible a a' k' first second third
  obtain ⟨y, z, own, moved, sum⟩ := away store a first
  obtain ⟨y', z', own', moved', difference⟩ := Expression.eval_binop third
  rw [implied store possible] at own'
  obtain rfl := Option.some.inj own'
  obtain rfl := Option.some.inj (moved.symm.trans moved')
  obtain rfl := Option.some.inj (own.symm.trans second)
  rw [sum, home _ _ _ difference, ← holds_add_iff (sign * z) y, Int.sub_add_cancel]

section

variable (implied : ∀ store ∈ stores, known.eval type store = some k.val)
include implied

theorem moved_add :
    Moved type stores op k.val (.binop left .add right) (.binop known .sub left, right) := by
  refine moved_translation 1 implied ?_ ?_
  · intro store a ran
    obtain ⟨y, z, first, second, sum⟩ := Expression.eval_binop ran
    exact ⟨z, y, second, first, by rw [(fitIn_eq_some sum).2]; omega⟩
  · intro y z a difference
    rw [(fitIn_eq_some difference).2]
    omega

theorem moved_add_right :
    Moved type stores op k.val (.binop left .add right) (.binop known .sub right, left) := by
  refine moved_translation 1 implied ?_ ?_
  · intro store a ran
    obtain ⟨y, z, first, second, sum⟩ := Expression.eval_binop ran
    exact ⟨y, z, first, second, by rw [(fitIn_eq_some sum).2]; omega⟩
  · intro y z a difference
    rw [(fitIn_eq_some difference).2]
    omega

theorem moved_sub :
    Moved type stores op k.val (.binop left .sub right) (.binop known .add right, left) := by
  refine moved_translation (-1) implied ?_ ?_
  · intro store a ran
    obtain ⟨y, z, first, second, difference⟩ := Expression.eval_binop ran
    exact ⟨y, z, first, second, by rw [(fitIn_eq_some difference).2]; omega⟩
  · intro y z a sum
    rw [(fitIn_eq_some sum).2]
    omega

end

theorem moved_mul_iff {c : Sval} (sound : smatch.Sound type stores) (operator : op.IsOperator)
    (implied : smatch.getImpliedValue known = some k) (factor : smatch.getValue right = some c)
    (nonzero : c.val ≠ 0) (one : 1 ≤ type.hi) (free : left.Free type stores) :
    Moved type stores op k.val (.binop left .mul right) (.binop known .div right, left) ↔
      QuotientServes type op k.val c.val := by
  obtain ⟨knownTyped, knownValue⟩ := sound.getImpliedValue known k implied
  obtain ⟨factorTyped, factorValue⟩ := sound.getValue right c factor
  have zero := (zero_ofType type).1.2.1
  rw [(zero_ofType type).2] at zero
  constructor
  · intro moved
    refine quotientServes_of_holds operator nonzero knownTyped.2 factorTyped.2 zero one ?_
    intro x q low high above below fits
    obtain ⟨store, possible, own⟩ := free x low high
    refine moved store possible (x * c.val) x q ?_ own ?_
    · unfold Expression.eval
      rw [own, factorValue store possible]
      exact if_pos ⟨above, below⟩
    · unfold Expression.eval
      rw [knownValue store possible, factorValue store possible]
      exact (if_neg nonzero).trans fits
  · intro serves store possible a a' k' first second third
    obtain ⟨y, z, own, constant, product⟩ := Expression.eval_binop first
    obtain ⟨y', z', own', constant', quotient⟩ := Expression.eval_binop third
    rw [knownValue store possible] at own'
    rw [factorValue store possible] at constant constant'
    obtain rfl := Option.some.inj own'
    obtain rfl := Option.some.inj constant
    obtain rfl := Option.some.inj constant'
    obtain rfl := Option.some.inj (own.symm.trans second)
    rw [(fitIn_eq_some product).2]
    exact serves.holds_iff nonzero ((if_neg nonzero).symm.trans quotient) y

theorem moveConstant_mul (unknown : smatch.getImpliedValue (.binop left .mul right) = none) :
    moveConstant smatch known (.binop left .mul right) =
      (smatch.getValue right).bind fun divisor =>
        if divisor.value = 0 then none else some (.binop known .div right, left) := by
  simp [moveConstant, isSimpleMath, unknown, invertOp]

theorem moveConstant_add (unknown : smatch.getImpliedValue (.binop left .add right) = none) :
    moveConstant smatch known (.binop left .add right) =
      if (smatch.getValue left).isSome then some (.binop known .sub left, right)
      else if (smatch.getValue right).isSome then some (.binop known .sub right, left)
      else none := by
  simp [moveConstant, isSimpleMath, unknown, invertOp]

theorem moveConstant_sub (unknown : smatch.getImpliedValue (.binop left .sub right) = none) :
    moveConstant smatch known (.binop left .sub right) =
      if (smatch.getValue right).isSome then some (.binop known .add right, left) else none := by
  simp [moveConstant, isSimpleMath, unknown, invertOp]

/-- A side that is no product moves rightly if at all. -/
theorem moveConstant_moved (implied : ∀ store ∈ stores, known.eval type store = some k.val)
    {operation : MathOp} (other : operation ≠ .mul)
    (unknown : smatch.getImpliedValue (.binop left operation right) = none)
    {pair : Expression Leaf × Expression Leaf}
    (moved : moveConstant smatch known (.binop left operation right) = some pair) :
    Moved type stores op k.val (.binop left operation right) pair := by
  cases operation with
  | div => cases moved
  | mul => exact absurd rfl other
  | add =>
    rw [moveConstant_add unknown] at moved
    split_ifs at moved
    · obtain rfl := Option.some.inj moved
      exact moved_add implied
    · obtain rfl := Option.some.inj moved
      exact moved_add_right implied
  | sub =>
    rw [moveConstant_sub unknown] at moved
    split_ifs at moved
    obtain rfl := Option.some.inj moved
    exact moved_sub implied

theorem moveConstant_moved_iff (sound : smatch.Sound type stores) (operator : op.IsOperator)
    (implied : smatch.getImpliedValue known = some k) (one : 1 ≤ type.hi)
    (free : ∀ x c, Product smatch side x c → x.Free type stores) :
    (∀ pair, moveConstant smatch known side = some pair → Moved type stores op k.val side pair) ↔
      ∀ x c, Product smatch side x c → QuotientServes type op k.val c := by
  have knownValue := (sound.getImpliedValue known k implied).2
  cases side with
  | leaf name =>
    refine iff_of_true (fun pair none => by cases none) ?_
    rintro x c ⟨factor, sval, shape, -⟩
    cases shape
  | binop left operation right =>
    cases valued : smatch.getImpliedValue (.binop left operation right) with
    | some value =>
      have skipped : moveConstant smatch known (.binop left operation right) = none := by
        simp [moveConstant, valued]
      refine iff_of_true (fun pair moved => ?_) ?_
      · rw [skipped] at moved
        cases moved
      · rintro x c ⟨factor, sval, -, unknown, -⟩
        rw [unknown] at valued
        cases valued
    | none =>
      by_cases other : operation ≠ .mul
      · refine iff_of_true
          (fun pair moved => moveConstant_moved knownValue other valued moved) ?_
        rintro x c ⟨factor, sval, shape, -⟩
        exact absurd (Expression.binop.inj shape).2.1 other
      obtain rfl := not_not.mp other
      rw [moveConstant_mul valued]
      cases factor : smatch.getValue right with
      | none =>
        refine iff_of_true (fun pair moved => by cases moved) ?_
        rintro x c ⟨_, sval, shape, -, found, -⟩
        obtain ⟨-, -, rfl⟩ := Expression.binop.inj shape
        rw [factor] at found
        cases found
      | some divisor =>
        have isZero : divisor.value = 0 ↔ divisor.val = 0 := by
          have bounds := divisor.val_bounds
          rw [divisor.value_eq]
          omega
        by_cases zero : divisor.value = 0
        · refine iff_of_true (fun pair moved => ?_) ?_
          · rw [Option.bind_some, if_pos zero] at moved
            cases moved
          · rintro x c ⟨_, sval, shape, -, found, rfl, nonzero⟩
            obtain ⟨-, -, rfl⟩ := Expression.binop.inj shape
            obtain rfl := Option.some.inj (factor.symm.trans found)
            exact absurd (isZero.mp zero) nonzero
        · have nonzero : divisor.val ≠ 0 := fun same => zero (isZero.mpr same)
          have product : Product smatch (.binop left .mul right) left divisor.val :=
            ⟨right, divisor, rfl, valued, factor, rfl, nonzero⟩
          have moves := moved_mul_iff sound operator implied factor nonzero one
            (free left divisor.val product)
          rw [Option.bind_some, if_neg zero]
          constructor
          · rintro moved x c ⟨_, sval, shape, -, found, rfl, -⟩
            obtain ⟨-, -, rfl⟩ := Expression.binop.inj shape
            obtain rfl := Option.some.inj (factor.symm.trans found)
            exact moves.mp (moved _ rfl)
          · rintro serves pair same
            obtain rfl := Option.some.inj same
            exact moves.mpr (serves left divisor.val product)

def FactorsServe (smatch : Known Leaf) (type : Ctype) (op : Comparison)
    (left right : Expression Leaf) : Prop :=
  ∀ k x c,
    (smatch.getImpliedValue left = some k → Product smatch right x c →
      QuotientServes type (flipComparison op) k.val c) ∧
    (smatch.getImpliedValue left = none → smatch.getImpliedValue right = some k →
      Product smatch left x c → QuotientServes type op k.val c)

theorem sameTruth_self : SameTruth type stores op (left, right) (left, right) := by
  intro store possible a b a' b' first second third fourth
  obtain rfl := Option.some.inj (first.symm.trans third)
  obtain rfl := Option.some.inj (second.symm.trans fourth)
  exact Iff.rfl

/-- The rewritten comparison agrees with the original one exactly when the quotient serves
wherever a factor is moved. -/
theorem moveKnownValues_sameTruth_iff (sound : smatch.Sound type stores)
    (operator : op.IsOperator)
    (free : ∀ x c, Product smatch left x c ∨ Product smatch right x c → x.Free type stores) :
    SameTruth type stores op (left, right) (moveKnownValues smatch left right) ↔
      FactorsServe smatch type op left right := by
  have one : 1 ≤ type.hi := by
    unfold Ctype.hi
    cases type.kind <;> decide
  unfold moveKnownValues
  cases leftValue : smatch.getImpliedValue left with
  | some k =>
    have moves := moveConstant_moved_iff sound (flipComparison_isOperator operator) leftValue one
      fun x c (product : Product smatch right x c) => free x c (Or.inr product)
    have known := (sound.getImpliedValue left k leftValue).2
    rw [if_pos (show (some k).isSome = true from rfl)]
    have serves : FactorsServe smatch type op left right ↔
        ∀ x c, Product smatch right x c → QuotientServes type (flipComparison op) k.val c := by
      constructor
      · exact fun serves x c product => (serves k x c).1 leftValue product
      · refine fun serves k' x c => ⟨fun same product => ?_, fun none => ?_⟩
        · obtain rfl := Option.some.inj (leftValue.symm.trans same)
          exact serves x c product
        · exact absurd (none.symm.trans leftValue) (Option.some_ne_none k).symm
    rw [serves, ← moves]
    constructor
    · intro same pair moved store possible a a' k' first second third
      rw [moved] at same
      have := same store possible k.val a k' a' (known store possible) first third second
      rw [flipComparison_holds operator, flipComparison_holds operator]
      exact this
    · intro moved store possible a b a' b' first second third fourth
      cases found : moveConstant smatch left right with
      | none =>
        rw [found] at third fourth
        exact sameTruth_self store possible a b a' b' first second third fourth
      | some pair =>
        rw [found] at third fourth
        obtain rfl := Option.some.inj ((known store possible).symm.trans first)
        have := moved pair found store possible b b' a' second fourth third
        rw [flipComparison_holds operator, flipComparison_holds operator] at this
        exact this
  | none =>
    rw [if_neg (by decide)]
    cases rightValue : smatch.getImpliedValue right with
    | none =>
      rw [if_neg (by decide)]
      refine iff_of_true sameTruth_self fun k x c => ⟨fun given => ?_, fun _ given => ?_⟩
      · exact absurd (leftValue.symm.trans given) (Option.some_ne_none k).symm
      · exact absurd (rightValue.symm.trans given) (Option.some_ne_none k).symm
    | some k =>
      have moves := moveConstant_moved_iff sound operator rightValue one
        fun x c (product : Product smatch left x c) => free x c (Or.inl product)
      have known := (sound.getImpliedValue right k rightValue).2
      rw [if_pos (show (some k).isSome = true from rfl)]
      have serves : FactorsServe smatch type op left right ↔
          ∀ x c, Product smatch left x c → QuotientServes type op k.val c := by
        constructor
        · exact fun serves x c product => (serves k x c).2 leftValue rightValue product
        · refine fun serves k' x c => ⟨fun given => ?_, fun _ same product => ?_⟩
          · exact absurd (leftValue.symm.trans given) (Option.some_ne_none k').symm
          · obtain rfl := Option.some.inj (rightValue.symm.trans same)
            exact serves x c product
      rw [serves, ← moves]
      constructor
      · intro same pair moved store possible a a' k' first second third
        rw [moved] at same
        exact same store possible a k.val a' k' first (known store possible) second third
      · intro moved store possible a b a' b' first second third fourth
        cases found : moveConstant smatch right left with
        | none =>
          rw [found] at third fourth
          exact sameTruth_self store possible a b a' b' first second third fourth
        | some pair =>
          rw [found] at third fourth
          obtain rfl := Option.some.inj ((known store possible).symm.trans second)
          exact moved pair found store possible a a' b' first third fourth

end Agree

/-- The values of `int` literals; `none` is the variable of the comparison. -/
def literalValue : Expression (Option Sval) → Option Sval
  | .leaf (some sval) => if sval.OfType intCtype then some sval else none
  | _ => none

def literals : Known (Option Sval) := ⟨literalValue, literalValue⟩

def intStores : Set (Option Sval → Int) :=
  {store | intCtype.lo ≤ store none ∧ store none ≤ intCtype.hi ∧
    ∀ sval, store (some sval) = sval.val}

theorem literalValue_spec {expr : Expression (Option Sval)} {sval : Sval}
    (found : literalValue expr = some sval) : sval.OfType intCtype ∧
      ∀ store ∈ intStores, expr.eval intCtype store = some sval.val := by
  cases expr with
  | binop left op right => cases found
  | leaf name =>
    cases name with
    | none => cases found
    | some value =>
      change (if value.OfType intCtype then some value else none) = some sval at found
      split_ifs at found with typed
      obtain rfl := Option.some.inj found
      exact ⟨typed, fun store possible => congrArg some (possible.2.2 value)⟩

def xLeaf : Expression (Option Sval) := .leaf none

def literal (x : Int) : Expression (Option Sval) := .leaf (some (intCtype.ofInt x))

def threeTimes : Expression (Option Sval) := .binop xLeaf .mul (literal 3)

/-- For `x * 3 < 7` the quotient two does not serve. -/
theorem moveKnownValues_sameTruth_iff_seven :
    SameTruth intCtype intStores .lt (threeTimes, literal 7)
      (moveKnownValues literals threeTimes (literal 7)) ↔
      FactorsServe literals intCtype .lt threeTimes (literal 7) :=
  moveKnownValues_sameTruth_iff ⟨fun _ _ => literalValue_spec, fun _ _ => literalValue_spec⟩
    (by decide) (by
      rintro x c (⟨factor, sval, shape, -⟩ | ⟨factor, sval, shape, -⟩)
      · obtain ⟨rfl, -, -⟩ := Expression.binop.inj shape
        exact fun n low high => ⟨fun name => name.elim n Sval.val, ⟨low, high, fun _ => rfl⟩, rfl⟩
      · cases shape)

/-- With `x` two the comparison holds, and `2 < 7 / 3` does not. -/
theorem moveKnownValues_differs_seven :
    ¬ SameTruth intCtype intStores .lt (threeTimes, literal 7)
      (moveKnownValues literals threeTimes (literal 7)) := by
  intro same
  have result : moveKnownValues literals threeTimes (literal 7) =
      (xLeaf, .binop (literal 7) .div (literal 3)) := by rfl
  rw [result] at same
  have agree := same (fun name => name.elim 2 Sval.val)
    ⟨by decide, by decide, fun _ => rfl⟩ 6 7 2 2 (by decide) (by decide) (by decide) (by decide)
  exact absurd (agree.mp (by decide)) (by decide)

end SmatchFormal.Extra
