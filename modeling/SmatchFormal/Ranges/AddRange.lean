import SmatchFormal.Ranges.CastSound

/-!
# Building range lists

`add_range`, `rl_union` and `rl_equiv` on lists of one type.  `add_range` keeps
lists canonical, and a canonical list is determined by the set it denotes, so
the order in which ranges are added and the way they are grouped do not show in
the list.
-/

namespace SmatchFormal.Ranges

def typePositiveBitsOpt : Option Ctype → Nat
  | none => 0
  | some type => typePositiveBits type

def getBinopType (left right : RangeList) : Ctype :=
  let type := intCtype
  let type := if typePositiveBitsOpt (rlType left) > typePositiveBits type
    then (rlType left).getD type else type
  if typePositiveBitsOpt (rlType right) > typePositiveBits type
    then (rlType right).getD type else type

def rlUnion (one two : RangeList) : RangeList :=
  let ret := one.foldl (fun ret tmp => addRange ret tmp.min tmp.max) []
  two.foldl (fun ret tmp => addRange ret tmp.min tmp.max) ret

/-- `ranges_equiv`; a `NULL` argument is a list that has ended. -/
def rangesEquiv : Option DataRange → Option DataRange → Bool
  | none, none => true
  | some one, some two =>
    if svalCmp one.min two.min ≠ 0 then false
    else if svalCmp one.max two.max ≠ 0 then false
    else true
  | _, _ => false

def rlEquivLoop : RangeList → RangeList → Bool
  | [], [] => true
  | one :: oneRest, two :: twoRest =>
    if !rangesEquiv (some one) (some two) then false else rlEquivLoop oneRest twoRest
  | one, two => rangesEquiv one.head? two.head?

/-- `rl_equiv`.  Of the test for one pointer only the case of two null lists is
left: for any other list the loop finds a list equivalent to itself. -/
def rlEquiv (one two : RangeList) : Bool :=
  if one = [] ∧ two = [] then true
  else if one = [] ∨ two = [] then false
  else if rlType one ≠ rlType two then
    let type := getBinopType one two
    rlEquivLoop (castRl (some type) one) (castRl (some type) two)
  else rlEquivLoop one two

/-- The ways to build a list from ranges with `add_range` and `rl_union`. -/
inductive Build where
  | null
  | add (build : Build) (drange : DataRange)
  | union (one two : Build)

namespace Build

def run : Build → RangeList
  | null => []
  | add build drange => addRange build.run drange.min drange.max
  | union one two => rlUnion one.run two.run

def ranges : Build → List DataRange
  | null => []
  | add build drange => build.ranges ++ [drange]
  | union one two => one.ranges ++ two.ranges

/-- All ranges are ranges of the type with `min <= max`. -/
def Typed (type : Ctype) (build : Build) : Prop :=
  ∀ drange ∈ build.ranges,
    drange.min.OfType type ∧ drange.max.OfType type ∧ drange.min.val ≤ drange.max.val

instance (type : Ctype) (build : Build) : Decidable (build.Typed type) :=
  inferInstanceAs (Decidable (∀ drange ∈ build.ranges, _))

end Build

section Typed

variable {type : Ctype} {list one two : RangeList} {min max : Sval}

/-- On a list of the type of the new range `add_range` skips the casts. -/
theorem addRange_canonical (low : min.OfType type) (canonical : Canonical type list) :
    addRange list min max = addRangeTyped list min max := by
  apply addRange_typed
  intro found listType
  have nonempty : list ≠ [] := by
    rintro rfl
    cases listType
  rw [rlType_of_canonical canonical nonempty] at listType
  rw [← Option.some.inj listType, low.1]

theorem addRange_joined (low : min.OfType type) (high : max.OfType type)
    (order : min.val ≤ max.val) (canonical : Canonical type list) :
    Joined type min.val max.val list (addRange list min max) := by
  rw [addRange_canonical low canonical]
  exact addRangeTyped_joined low high order canonical

theorem addRange_rlSet (low : min.OfType type) (high : max.OfType type)
    (order : min.val ≤ max.val) (canonical : Canonical type list) :
    rlSet (addRange list min max) = rlSet list ∪ Set.Icc min.val max.val := by
  ext x
  rw [(addRange_joined low high order canonical).mem_iff, Set.mem_union, or_comm]
  exact Iff.rfl

/-- Adding the ranges of a canonical list one after the other. -/
theorem addRanges_added (start : Canonical type list) (canonical : Canonical type one) :
    Added type (rlSet one) list (one.foldl (fun ret tmp => addRange ret tmp.min tmp.max) list) := by
  induction one generalizing list with
  | nil => exact ⟨start, fun x => (false_or _).symm.to_iff⟩
  | cons drange one ih =>
    obtain ⟨low, high, order⟩ := canonical.head
    obtain ⟨result, members⟩ := addRange_joined low high order start
    have step : Added type (Set.Icc drange.min.val drange.max.val) list
        (addRange list drange.min drange.max) := ⟨result, members⟩
    exact step.trans (ih result canonical.tail)

theorem rlUnion_canonical (first : Canonical type one) (second : Canonical type two) :
    Canonical type (rlUnion one two) :=
  (addRanges_added (addRanges_added (.nil type) first).canonical second).canonical

theorem rlUnion_rlSet (first : Canonical type one) (second : Canonical type two) :
    rlSet (rlUnion one two) = rlSet one ∪ rlSet two := by
  have start := addRanges_added (.nil type) first
  ext x
  rw [rlUnion, (addRanges_added start.canonical second).mem_iff, start.mem_iff, Set.mem_union,
    or_comm, or_iff_left (mem_rlSet_nil x)]

theorem rlSet_append (one two : RangeList) : rlSet (one ++ two) = rlSet one ∪ rlSet two := by
  ext x
  simp only [mem_rlSet_iff, Set.mem_union, List.mem_append, or_and_right, exists_or]

/-- Every way of building makes the canonical list of the values that went in. -/
theorem Build.run_spec (build : Build) (typed : build.Typed type) :
    Canonical type build.run ∧ rlSet build.run = rlSet build.ranges := by
  induction build with
  | null => exact ⟨.nil type, rfl⟩
  | add build drange ih =>
    obtain ⟨canonical, values⟩ := ih (fun other member =>
      typed other (List.mem_append_left _ member))
    obtain ⟨low, high, order⟩ := typed drange (List.mem_append_right _ (List.mem_singleton.mpr rfl))
    refine ⟨(addRange_joined low high order canonical).canonical, ?_⟩
    rw [run, addRange_rlSet low high order canonical, ranges, rlSet_append, rlSet_singleton, values]
  | union one two first second =>
    obtain ⟨canonicalOne, valuesOne⟩ :=
      first (fun drange member => typed drange (List.mem_append_left _ member))
    obtain ⟨canonicalTwo, valuesTwo⟩ :=
      second (fun drange member => typed drange (List.mem_append_right _ member))
    refine ⟨rlUnion_canonical canonicalOne canonicalTwo, ?_⟩
    rw [run, rlUnion_rlSet canonicalOne canonicalTwo, ranges, rlSet_append, valuesOne, valuesTwo]

/-- Only the family of ranges matters, not their order or their grouping. -/
theorem Build.run_congr {one two : Build} (first : one.Typed type) (second : two.Typed type)
    (family : ∀ drange, drange ∈ one.ranges ↔ drange ∈ two.ranges) : one.run = two.run := by
  obtain ⟨canonicalOne, valuesOne⟩ := one.run_spec first
  obtain ⟨canonicalTwo, valuesTwo⟩ := two.run_spec second
  apply canonicalOne.eq_of_rlSet_eq canonicalTwo
  rw [valuesOne, valuesTwo]
  ext x
  simp only [mem_rlSet_iff, family]

theorem rangesEquiv_iff {first second : DataRange} (lowOne : first.min.OfType type)
    (highOne : first.max.OfType type) (lowTwo : second.min.OfType type)
    (highTwo : second.max.OfType type) :
    rangesEquiv (some first) (some second) = true ↔ first = second := by
  simp only [rangesEquiv]
  rw [svalCmp_ofType lowOne lowTwo, svalCmp_ofType highOne highTwo]
  constructor
  · intro found
    have lows : first.min.val = second.min.val := by
      by_contra other
      simp [other] at found
    have highs : first.max.val = second.max.val := by
      by_contra other
      simp [other] at found
    cases first
    cases second
    rw [DataRange.mk.injEq]
    exact ⟨Sval.ext_val (lowOne.1.trans lowTwo.1.symm) lows,
      Sval.ext_val (highOne.1.trans highTwo.1.symm) highs⟩
  · rintro rfl
    simp

theorem rlEquivLoop_iff (first : Canonical type one) (second : Canonical type two) :
    rlEquivLoop one two = true ↔ one = two := by
  induction one generalizing two with
  | nil =>
    cases two with
    | nil => exact ⟨fun _ => rfl, fun _ => rfl⟩
    | cons drange two => exact ⟨nofun, nofun⟩
  | cons drange one ih =>
    cases two with
    | nil => exact ⟨nofun, nofun⟩
    | cons other two =>
      obtain ⟨lowOne, highOne, -⟩ := first.head
      obtain ⟨lowTwo, highTwo, -⟩ := second.head
      have heads := rangesEquiv_iff lowOne highOne lowTwo highTwo
      have rest := ih first.tail second.tail
      rw [rlEquivLoop, List.cons.injEq]
      cases found : rangesEquiv (some drange) (some other) with
      | false =>
        rw [found] at heads
        simp only [Bool.not_false, if_true, Bool.false_eq_true, false_iff]
        exact fun same => absurd (heads.mpr same.1) Bool.false_ne_true
      | true =>
        simp only [Bool.not_true, Bool.false_eq_true, if_false, rest, heads.mp found, true_and]

theorem rlEquiv_iff (first : Canonical type one) (second : Canonical type two) :
    rlEquiv one two = true ↔ rlSet one = rlSet two := by
  have lists : rlSet one = rlSet two ↔ one = two :=
    ⟨first.eq_of_rlSet_eq second, congrArg rlSet⟩
  rw [lists]
  unfold rlEquiv
  by_cases nullOne : one = []
  · subst nullOne
    by_cases nullTwo : two = []
    · simp [nullTwo]
    · simp [nullTwo, eq_comm]
  by_cases nullTwo : two = []
  · simp [nullOne, nullTwo]
  rw [if_neg (fun both => nullOne both.1), if_neg (fun either => either.elim nullOne nullTwo),
    if_neg (by
      rw [rlType_of_canonical first nullOne, rlType_of_canonical second nullTwo]
      exact fun other => other rfl)]
  exact rlEquivLoop_iff first second

end Typed

/-- `add_range` keeps lists canonical and adds exactly the new values; the order
and the grouping of a family of ranges do not matter; and `rl_equiv` decides
whether two canonical lists denote the same set. -/
theorem addRange_correct (type : Ctype) :
    (∀ (list : RangeList) (min max : Sval), Canonical type list → min.OfType type →
      max.OfType type → min.val ≤ max.val →
      Canonical type (addRange list min max) ∧
        rlSet (addRange list min max) = rlSet list ∪ Set.Icc min.val max.val) ∧
    (∀ one two : Build, one.Typed type → two.Typed type →
      (∀ drange, drange ∈ one.ranges ↔ drange ∈ two.ranges) → one.run = two.run) ∧
    (∀ one two : RangeList, Canonical type one → Canonical type two →
      (rlEquiv one two = true ↔ rlSet one = rlSet two)) := by
  refine ⟨?_, ?_, ?_⟩
  · intro list min max canonical low high order
    exact ⟨(addRange_joined low high order canonical).canonical,
      addRange_rlSet low high order canonical⟩
  · intro one two first second family
    exact Build.run_congr first second family
  · intro one two first second
    exact rlEquiv_iff first second

/-- Three ranges that touch, added in two orders and with two groupings. -/
theorem addRange_correct_touching :
    let low : DataRange := ⟨intCtype.ofInt 0, intCtype.ofInt 3⟩
    let middle : DataRange := ⟨intCtype.ofInt 4, intCtype.ofInt 4⟩
    let high : DataRange := ⟨intCtype.ofInt 5, intCtype.ofInt (2 ^ 31 - 1)⟩
    (((Build.null.add low).add high).add middle).run =
      ((Build.null.add high).union ((Build.null.add middle).add low)).run :=
  (addRange_correct intCtype).2.1 _ _ (by decide) (by decide) (by
    intro drange
    simp only [Build.ranges, List.mem_append, List.mem_singleton, List.not_mem_nil, false_or]
    constructor
    · rintro ((h | h) | h)
      · exact .inr (.inr h)
      · exact .inl h
      · exact .inr (.inl h)
    · rintro (h | h | h)
      · exact .inl (.inr h)
      · exact .inr h
      · exact .inl (.inl h))

end SmatchFormal.Ranges
