import SmatchFormal.Ranges.RemoveRange

/-!
# Terms of range lists

Every way to build a list with the set operations of `smatch_ranges.c` makes the one canonical
list of its set of values, so the order and the grouping of the operations do not matter.
-/

namespace SmatchFormal.Ranges

inductive RlOp where
  | union | filter | intersection

def RlOp.run : RlOp → RangeList → RangeList → Option RangeList
  | union => fun one two => some (rlUnion one two)
  | filter => fun one two => some (rlFilter one two)
  | intersection => rlIntersection

def RlOp.denote : RlOp → Set Int → Set Int → Set Int
  | union => (· ∪ ·)
  | filter => (· \ ·)
  | intersection => (· ∩ ·)

theorem RlOp.run_spec {type : Ctype} {one two : RangeList} (op : RlOp)
    (first : Canonical type one) (second : Canonical type two) :
    ∃ rl, op.run one two = some rl ∧ Canonical type rl ∧
      rlSet rl = op.denote (rlSet one) (rlSet two) := by
  cases op with
  | union =>
    exact ⟨_, rfl, rlUnion_canonical first second, rlUnion_rlSet first second⟩
  | filter =>
    exact ⟨_, rfl, rlFilter_spec first second⟩
  | intersection =>
    exact rlIntersection_spec first second

inductive RlTerm where
  | list (rl : RangeList)
  | addRange (term : RlTerm) (min max : Sval)
  | removeRange (term : RlTerm) (min max : Sval)
  | set (op : RlOp) (one two : RlTerm)

namespace RlTerm

/-- What the calls return; `none` is the call of `sm_fatal` in `do_intersection`. -/
def run : RlTerm → Option RangeList
  | list rl => some rl
  | addRange term min max => term.run.map fun rl => Ranges.addRange rl min max
  | removeRange term min max => term.run.map fun rl => Ranges.removeRange rl min max
  | set op one two => one.run.bind fun one => two.run.bind (op.run one)

def denote : RlTerm → Set Int
  | list rl => rlSet rl
  | addRange term min max => term.denote ∪ Set.Icc min.val max.val
  | removeRange term min max => term.denote \ Set.Icc min.val max.val
  | set op one two => op.denote one.denote two.denote

/-- The lists are canonical and of the type, and the ends of the ranges are in order. -/
def Typed (type : Ctype) : RlTerm → Prop
  | list rl => Canonical type rl
  | addRange term min max | removeRange term min max =>
    term.Typed type ∧ min.OfType type ∧ max.OfType type ∧ min.val ≤ max.val
  | set _ one two => one.Typed type ∧ two.Typed type

variable {type : Ctype} {one two : RlTerm}

theorem run_spec {term : RlTerm} (typed : term.Typed type) :
    ∃ rl, term.run = some rl ∧ Canonical type rl ∧ rlSet rl = term.denote := by
  induction term with
  | list rl =>
    exact ⟨rl, rfl, typed, rfl⟩
  | addRange term min max ih =>
    obtain ⟨inner, low, high, order⟩ := typed
    obtain ⟨rl, result, canonical, values⟩ := ih inner
    refine ⟨_, by rw [run, result]; rfl, (addRange_joined low high order canonical).canonical, ?_⟩
    rw [addRange_rlSet low high order canonical, values]
    rfl
  | removeRange term min max ih =>
    obtain ⟨inner, low, high, order⟩ := typed
    obtain ⟨rl, result, canonical, values⟩ := ih inner
    refine ⟨_, by rw [run, result]; rfl, removeRange_canonical low high order canonical, ?_⟩
    rw [removeRange_rlSet low high order canonical, values]
    rfl
  | set op one two ihOne ihTwo =>
    obtain ⟨first, resultOne, canonicalOne, valuesOne⟩ := ihOne typed.1
    obtain ⟨second, resultTwo, canonicalTwo, valuesTwo⟩ := ihTwo typed.2
    obtain ⟨rl, result, canonical, values⟩ := op.run_spec canonicalOne canonicalTwo
    refine ⟨rl, ?_, canonical, ?_⟩
    · rw [run, resultOne, resultTwo]
      exact result
    · rw [values, valuesOne, valuesTwo]
      rfl

/-- The calls succeed, and two terms return one list exactly if they stand for one set. -/
theorem run_eq_iff (first : one.Typed type) (second : two.Typed type) :
    ∃ rl, one.run = some rl ∧ rlSet rl = one.denote ∧
      (two.run = some rl ↔ two.denote = one.denote) := by
  obtain ⟨rlOne, resultOne, canonicalOne, valuesOne⟩ := run_spec first
  obtain ⟨rlTwo, resultTwo, canonicalTwo, valuesTwo⟩ := run_spec second
  refine ⟨rlOne, resultOne, valuesOne, ?_⟩
  rw [resultTwo, Option.some_inj, ← valuesOne, ← valuesTwo]
  constructor
  · intro same
    rw [same]
  · exact canonicalTwo.eq_of_rlSet_eq canonicalOne

/-- A range that is cut in two and put together again. -/
theorem run_eq_iff_rejoined :
    let whole : RlTerm := .list [⟨intCtype.ofInt 0, intCtype.ofInt 9⟩]
    let cut : RlTerm := .list [⟨intCtype.ofInt 3, intCtype.ofInt 20⟩]
    (set .union (set .intersection whole cut) (set .filter whole cut)).run = whole.run := by
  intro whole cut
  have first : Canonical intCtype [⟨intCtype.ofInt 0, intCtype.ofInt 9⟩] := by decide
  have second : Canonical intCtype [⟨intCtype.ofInt 3, intCtype.ofInt 20⟩] := by decide
  obtain ⟨rl, result, -, same⟩ := @run_eq_iff intCtype whole
    (set .union (set .intersection whole cut) (set .filter whole cut)) first
    ⟨⟨first, second⟩, first, second⟩
  rw [result]
  exact same.mpr (Set.inter_union_sdiff _ _)

end RlTerm

end SmatchFormal.Ranges
