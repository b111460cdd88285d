import SmatchFormal.Comparison.Basic

/-!
# The tables of `smatch_comparison.c`

Each table is a switch over one or two comparison constants.  A constant allows
some of the three outcomes of comparing two elements of a linear order, which
turns the soundness of a table into a finite check; `Derived` is what chains of
table lookups of any length can conclude from true facts.
-/

namespace SmatchFormal

open Comparison

/-! ## Definitions -/

def removeUnsignedFromComparison : Comparison → Comparison
  | unsignedLt => lt
  | unsignedLte => lte
  | unsignedGte => gte
  | unsignedGt => gt
  | op => op

/-- The switch of `merge_comparisons`: the flags `LT`, `EQ` and `GT`. -/
def mergeFlags : Comparison → Bool × Bool × Bool
  | lt => (true, false, false)
  | lte => (true, true, false)
  | equal => (false, true, false)
  | gte => (false, true, true)
  | gt => (false, false, true)
  | _ => (false, false, false)

/-- This is for when you merge states "a < b" and "a == b". -/
def mergeComparisons (one two : Comparison) : Comparison :=
  if one = unknown ∨ two = unknown then unknown
  else if one = impossible then two
  else if two = impossible then one
  else
    let one := removeUnsignedFromComparison one
    let two := removeUnsignedFromComparison two
    if one = two then one
    else
      let (ltOne, eqOne, gtOne) := mergeFlags one
      let (ltTwo, eqTwo, gtTwo) := mergeFlags two
      let LT := ltOne || ltTwo
      let EQ := eqOne || eqTwo
      let GT := gtOne || gtTwo
      if LT && EQ && GT then unknown
      else if LT && EQ then lte
      else if LT && GT then notEqual
      else if LT then lt
      else if EQ && GT then gte
      else if GT then gt
      else unknown

/-- One switch of `combine_comparisons` on the counters `LT`, `EQ` and `GT`; `none`
is the `return` of `SPECIAL_EQUAL`. -/
def combineCount (counts : Nat × Nat × Nat) : Comparison → Option (Nat × Nat × Nat)
  | lt => some (counts.1 + 1, counts.2.1, counts.2.2)
  | lte => some (counts.1 + 1, counts.2.1 + 1, counts.2.2)
  | equal => none
  | gte => some (counts.1, counts.2.1 + 1, counts.2.2 + 1)
  | gt => some (counts.1, counts.2.1, counts.2.2 + 1)
  | _ => some counts

/-- This is for if you have "a < b" and "b <= c" and you want to see how "a
compares to c". -/
def combineComparisons (leftCompare rightCompare : Comparison) : Comparison :=
  let leftCompare := removeUnsignedFromComparison leftCompare
  let rightCompare := removeUnsignedFromComparison rightCompare
  match combineCount (0, 0, 0) leftCompare with
  | none => rightCompare
  | some counts =>
    match combineCount counts rightCompare with
    | none => leftCompare
    | some (LT, EQ, GT) =>
      if LT = 2 then if EQ = 2 then lte else lt
      else if GT = 2 then if EQ = 2 then gte else gt
      else unknown

/-- The counters `LT`, `GT`, `EQ`, `NE` and `total` of `comparison_intersection`. -/
structure IntersectionCounts where
  LT : Nat := 0
  GT : Nat := 0
  EQ : Nat := 0
  NE : Nat := 0
  total : Nat := 0

/-- One switch of `comparison_intersection`; `none` is its `default`. -/
def intersectionCount (counts : IntersectionCounts) : Comparison → Option IntersectionCounts
  | lt => some { counts with LT := counts.LT + 1, total := counts.total + 1 }
  | lte =>
    some { counts with LT := counts.LT + 1, EQ := counts.EQ + 1, total := counts.total + 2 }
  | equal => some { counts with EQ := counts.EQ + 1, total := counts.total + 1 }
  | notEqual => some { counts with NE := counts.NE + 1, total := counts.total + 1 }
  | gte =>
    some { counts with GT := counts.GT + 1, EQ := counts.EQ + 1, total := counts.total + 2 }
  | gt => some { counts with GT := counts.GT + 1, total := counts.total + 1 }
  | _ => none

def intersectionResult (counts : IntersectionCounts) : Comparison :=
  if counts.LT = 2 then if counts.EQ = 2 then lte else lt
  else if counts.GT = 2 then if counts.EQ = 2 then gte else gt
  else if counts.EQ = 2 then equal
  else if counts.total = 2 ∧ counts.EQ ≠ 0 ∧ counts.NE ≠ 0 then impossible
  else if counts.GT ≠ 0 ∧ counts.LT ≠ 0 then impossible
  else if counts.GT ≠ 0 ∧ counts.NE ≠ 0 then gt
  else if counts.LT ≠ 0 ∧ counts.NE ≠ 0 then lt
  else if counts.NE = 2 then notEqual
  else if counts.total = 2 ∧ (counts.LT ≠ 0 ∨ counts.GT ≠ 0) ∧ counts.EQ ≠ 0 then impossible
  else unknown

def comparisonIntersection (leftCompare rightCompare : Comparison) : Comparison :=
  if leftCompare = impossible ∨ rightCompare = impossible then impossible
  else
    let leftCompare := removeUnsignedFromComparison leftCompare
    let rightCompare := removeUnsignedFromComparison rightCompare
    -- Only one side is known.
    if leftCompare = unknown then rightCompare
    else if rightCompare = unknown then leftCompare
    else
      match intersectionCount {} leftCompare with
      | none => unknown
      | some counts =>
        match intersectionCount counts rightCompare with
        | none => unknown
        | some counts => intersectionResult counts

namespace Comparison

def allows : Comparison → Ordering → Bool
  | lt, outcome | unsignedLt, outcome => outcome == .lt
  | lte, outcome | unsignedLte, outcome => outcome != .gt
  | equal, outcome => outcome == .eq
  | notEqual, outcome => outcome != .eq
  | gte, outcome | unsignedGte, outcome => outcome != .lt
  | gt, outcome | unsignedGt, outcome => outcome == .gt
  | unknown, _ => true
  | impossible, _ => false

variable {α : Type*} [LinearOrder α]

theorem holds_iff_allows (op : Comparison) (a b : α) :
    op.Holds a b ↔ op.allows (cmp a b) = true := by
  rcases lt_trichotomy a b with less | same | greater
  · rw [(cmp_eq_lt_iff a b).mpr less]
    cases op <;> simp [Holds, allows, less, less.le, less.ne, less.not_ge, not_lt.mpr less.le]
  · rw [(cmp_eq_eq_iff a b).mpr same]
    cases op <;> simp [Holds, allows, same]
  · rw [(cmp_eq_gt_iff a b).mpr greater]
    cases op <;> simp [Holds, allows, greater, greater.le, greater.ne', greater.not_ge,
      not_lt.mpr greater.le]

end Comparison

/-- The outcomes of comparing `a` with `b`, `b` with `c` and `a` with `c` that go together. -/
def chains : Ordering → Ordering → Ordering → Bool
  | .eq, second, whole => second == whole
  | first, .eq, whole => first == whole
  | .lt, .lt, whole => whole == .lt
  | .gt, .gt, whole => whole == .gt
  | .lt, .gt, _ | .gt, .lt, _ => true

theorem cmp_chains {α : Type*} [LinearOrder α] (a b c : α) :
    chains (cmp a b) (cmp b c) (cmp a c) = true := by
  rcases lt_trichotomy a b with less | same | greater
  · rw [(cmp_eq_lt_iff a b).mpr less]
    rcases lt_trichotomy b c with lessToo | same | greater
    · rw [(cmp_eq_lt_iff b c).mpr lessToo, (cmp_eq_lt_iff a c).mpr (less.trans lessToo)]
      rfl
    · rw [(cmp_eq_eq_iff b c).mpr same, (cmp_eq_lt_iff a c).mpr (same ▸ less)]
      rfl
    · rw [(cmp_eq_gt_iff b c).mpr greater]
      rfl
  · rw [(cmp_eq_eq_iff a b).mpr same, same]
    exact beq_self_eq_true _
  · rw [(cmp_eq_gt_iff a b).mpr greater]
    rcases lt_trichotomy b c with less | same | greaterToo
    · rw [(cmp_eq_lt_iff b c).mpr less]
      rfl
    · rw [(cmp_eq_eq_iff b c).mpr same, (cmp_eq_gt_iff a c).mpr (same ▸ greater)]
      rfl
    · rw [(cmp_eq_gt_iff b c).mpr greaterToo, (cmp_eq_gt_iff a c).mpr (greaterToo.trans greater)]
      rfl

/-! ## The tables on outcomes -/

def Comparison.IsOrder (op : Comparison) : Prop := op.IsOperator ∧ op ≠ equal ∧ op ≠ notEqual

instance (op : Comparison) : Decidable op.IsOrder :=
  inferInstanceAs (Decidable (_ ∧ _))

/-- The pairs whose merge forgets a `!=`: the switches of `merge_comparisons` have no
case for it, so only the other constant sets a flag. -/
def DropsNotEqual (one two : Comparison) : Prop :=
  one = notEqual ∧ two.IsOrder ∨ two = notEqual ∧ one.IsOrder

instance (one two : Comparison) : Decidable (DropsNotEqual one two) :=
  inferInstanceAs (Decidable (_ ∨ _))

theorem flipComparison_allows (op : Comparison) :
    ∀ outcome, op.allows outcome = true →
      (flipComparison op).allows outcome.swap = true := by
  cases op <;> decide

theorem negateComparison_allows (op : Comparison) :
    ∀ outcome, ¬ op.allows outcome = true → (negateComparison op).allows outcome = true := by
  cases op <;> decide

theorem combineComparisons_allows (one two : Comparison) :
    ∀ first second whole, chains first second whole = true → one.allows first = true →
      two.allows second = true → (combineComparisons one two).allows whole = true := by
  cases one <;> cases two <;> decide

theorem comparisonIntersection_allows (one two : Comparison) :
    ∀ outcome, one.allows outcome = true → two.allows outcome = true →
      (comparisonIntersection one two).allows outcome = true := by
  cases one <;> cases two <;> decide

/-- A merge allows what either constant allows, exactly when no `!=` is dropped. -/
theorem mergeComparisons_allows_iff (one two : Comparison) :
    (∀ outcome, (one.allows outcome || two.allows outcome) = true →
      (mergeComparisons one two).allows outcome = true) ↔ ¬ DropsNotEqual one two := by
  cases one <;> cases two <;> decide

section Derivation

/-- What table lookups conclude about pairs of a linear order, with merges of the
allowed pairs of constants. -/
inductive Derived {α : Type} [LinearOrder α] (allowed : Comparison → Comparison → Prop) :
    Comparison → α → α → Prop where
  | fact {op : Comparison} {a b : α} (holds : op.Holds a b) : Derived allowed op a b
  | flip {op : Comparison} {a b : α} (known : Derived allowed op a b) :
      Derived allowed (flipComparison op) b a
  | negate {op : Comparison} {a b : α} (fails : ¬ op.Holds a b) :
      Derived allowed (negateComparison op) a b
  | combine {one two : Comparison} {a b c : α} (left : Derived allowed one a b)
      (right : Derived allowed two b c) : Derived allowed (combineComparisons one two) a c
  | intersect {one two : Comparison} {a b : α} (left : Derived allowed one a b)
      (right : Derived allowed two a b) : Derived allowed (comparisonIntersection one two) a b
  | mergeOne {one two : Comparison} {a b : α} (merged : allowed one two)
      (known : Derived allowed one a b) : Derived allowed (mergeComparisons one two) a b
  | mergeTwo {one two : Comparison} {a b : α} (merged : allowed one two)
      (known : Derived allowed two a b) : Derived allowed (mergeComparisons one two) a b

variable {allowed : Comparison → Comparison → Prop}

/-- Derivations whose merges drop no `!=` conclude true comparisons only. -/
theorem Derived.sound {α : Type} [LinearOrder α]
    (keeps : ∀ one two, allowed one two → ¬ DropsNotEqual one two) {op : Comparison} {a b : α}
    (derived : Derived allowed op a b) : op.Holds a b := by
  induction derived with
  | fact holds => exact holds
  | flip known ih =>
    rw [holds_iff_allows] at ih ⊢
    rw [← cmp_swap]
    exact flipComparison_allows _ _ ih
  | negate fails =>
    rw [holds_iff_allows] at fails ⊢
    exact negateComparison_allows _ _ fails
  | combine left right ihLeft ihRight =>
    rw [holds_iff_allows] at ihLeft ihRight ⊢
    exact combineComparisons_allows _ _ _ _ _ (cmp_chains _ _ _) ihLeft ihRight
  | intersect left right ihLeft ihRight =>
    rw [holds_iff_allows] at ihLeft ihRight ⊢
    exact comparisonIntersection_allows _ _ _ ihLeft ihRight
  | mergeOne merged known ih =>
    rw [holds_iff_allows] at ih ⊢
    exact (mergeComparisons_allows_iff _ _).mpr (keeps _ _ merged) _ (by rw [ih, Bool.true_or])
  | mergeTwo merged known ih =>
    rw [holds_iff_allows] at ih ⊢
    exact (mergeComparisons_allows_iff _ _).mpr (keeps _ _ merged) _ (by rw [ih, Bool.or_true])

theorem exists_cmp (outcome : Ordering) : ∃ a b : Int, cmp a b = outcome := by
  cases outcome with
  | lt => exact ⟨0, 1, rfl⟩
  | eq => exact ⟨0, 0, rfl⟩
  | gt => exact ⟨1, 0, rfl⟩

/-- All derivations over all linear orders are sound exactly when no allowed merge
joins `!=` with an order. -/
theorem derived_sound_iff (allowed : Comparison → Comparison → Prop) :
    (∀ (α : Type) [LinearOrder α] (op : Comparison) (a b : α),
      Derived allowed op a b → op.Holds a b) ↔
      ∀ one two, allowed one two → ¬ DropsNotEqual one two := by
  constructor
  · intro sound one two merged
    rw [← mergeComparisons_allows_iff one two]
    intro outcome either
    obtain ⟨a, b, rfl⟩ := exists_cmp outcome
    rw [← holds_iff_allows]
    apply sound
    rcases Bool.or_eq_true_iff.mp either with left | right
    · exact .mergeOne merged (.fact ((holds_iff_allows one a b).mpr left))
    · exact .mergeTwo merged (.fact ((holds_iff_allows two a b).mpr right))
  · intro keeps α _ op a b derived
    exact derived.sound keeps

/-- From `1 != 0` the merge with `<` concludes `1 < 0`. -/
theorem derived_unsound :
    Derived (fun _ _ => True) lt (1 : Int) 0 ∧ ¬ lt.Holds (1 : Int) 0 := by
  refine ⟨?_, by decide⟩
  have known : Derived (fun _ _ => True) notEqual (1 : Int) 0 := .fact (by decide)
  exact @Derived.mergeOne Int _ _ notEqual lt 1 0 trivial known

end Derivation

end SmatchFormal
