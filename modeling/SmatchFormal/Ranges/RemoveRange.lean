import SmatchFormal.Ranges.AddRange

/-!
# Difference and intersection

`remove_range`, `rl_filter`, `do_intersection` and `rl_intersection`.  The loop
of `remove_range` moves its own `min` and `max` outwards when it cuts a range;
on a canonical list the ranges that follow are beyond the moved end, so the cut
they see is the same.
-/

namespace SmatchFormal.Ranges

/-! ## Definitions -/

/-- The loop of `remove_range`, with the `min` and `max` it changes. -/
def removeRangeLoop (min max : Sval) (ret : RangeList) : RangeList → RangeList
  | [] => ret
  | tmp :: rest =>
    if svalCmp tmp.max min < 0 then
      removeRangeLoop min max (addRange ret tmp.min tmp.max) rest
    else if svalCmp tmp.min max > 0 then
      removeRangeLoop min max (addRange ret tmp.min tmp.max) rest
    else if svalCmp tmp.min min ≥ 0 ∧ svalCmp tmp.max max ≤ 0 then
      removeRangeLoop min max ret rest
    else if svalCmp tmp.min min ≥ 0 then
      removeRangeLoop min (addOne max) (addRange ret (addOne max) tmp.max) rest
    else if svalCmp tmp.max max ≤ 0 then
      removeRangeLoop (subOne min) max (addRange ret tmp.min (subOne min)) rest
    else
      removeRangeLoop (subOne min) (addOne max)
        (addRange (addRange ret tmp.min (subOne min)) (addOne max) tmp.max) rest

def removeRange (list : RangeList) (min max : Sval) : RangeList :=
  match rlType list with
  | none => []
  | some type =>
    let min := svalCast type min
    let max := svalCast type max
    if svalCmp min max > 0 then removeRangeLoop max min [] list
    else removeRangeLoop min max [] list

def rlFilter (rl filter : RangeList) : RangeList :=
  filter.foldl (fun rl tmp => removeRange rl tmp.min tmp.max) rl

/-- The loop of `do_intersection`; `none` is the call of `sm_fatal`. -/
def doIntersectionLoop (ret : RangeList) : RangeList → RangeList → Option RangeList
  | one :: oneRest, two :: twoRest =>
    if svalCmp one.max two.min < 0 then
      doIntersectionLoop ret oneRest (two :: twoRest)
    else if svalCmp one.min two.min < 0 ∧ svalCmp one.max two.max ≤ 0 then
      doIntersectionLoop (addRange ret two.min one.max) oneRest (two :: twoRest)
    else if svalCmp one.min two.min ≥ 0 ∧ svalCmp one.max two.max ≤ 0 then
      doIntersectionLoop (addRange ret one.min one.max) oneRest (two :: twoRest)
    else if svalCmp one.min two.min < 0 ∧ svalCmp one.max two.max > 0 then
      doIntersectionLoop (addRange ret two.min two.max) (one :: oneRest) twoRest
    else if svalCmp one.min two.max ≤ 0 ∧ svalCmp one.max two.max > 0 then
      doIntersectionLoop (addRange ret one.min two.max) (one :: oneRest) twoRest
    else if svalCmp one.min two.max ≤ 0 then none
    else doIntersectionLoop ret (one :: oneRest) twoRest
  | _, _ => some ret
termination_by one two => one.length + two.length

def doIntersection (one two : RangeList) : Option RangeList := doIntersectionLoop [] one two

/-- `rl_intersection`; `none` is the call of `sm_fatal` in `do_intersection`. -/
def rlIntersection (one two : RangeList) : Option RangeList :=
  match rlType one, rlType two with
  | some typeOne, some typeTwo =>
    let large := if typeBits typeTwo < typeBits typeOne then typeOne else typeTwo
    (doIntersection (castRl (some large) one) (castRl (some large) two)).map
      (castRl (some typeOne))
  | _, _ => some []

section Difference

variable {type : Ctype} {min max : Sval} {list ret rest : RangeList}

theorem removeRangeLoop_cons {tmp : DataRange} (low : min.OfType type) (high : max.OfType type)
    (first : tmp.min.OfType type) (second : tmp.max.OfType type) :
    removeRangeLoop min max ret (tmp :: rest) =
      if tmp.max.val < min.val ∨ max.val < tmp.min.val then
        removeRangeLoop min max (addRange ret tmp.min tmp.max) rest
      else if min.val ≤ tmp.min.val ∧ tmp.max.val ≤ max.val then
        removeRangeLoop min max ret rest
      else if min.val ≤ tmp.min.val then
        removeRangeLoop min (addOne max) (addRange ret (addOne max) tmp.max) rest
      else if tmp.max.val ≤ max.val then
        removeRangeLoop (subOne min) max (addRange ret tmp.min (subOne min)) rest
      else
        removeRangeLoop (subOne min) (addOne max)
          (addRange (addRange ret tmp.min (subOne min)) (addOne max) tmp.max) rest := by
  rw [removeRangeLoop]
  simp only [svalCmp_ofType second low, svalCmp_ofType first high, svalCmp_ofType first low,
    svalCmp_ofType second high, intCmp_lt_zero, intCmp_gt_zero, intCmp_ge_zero, intCmp_le_zero]
  split_ifs <;> first | rfl | omega

/-- The step of the loop: `tmp` leaves `added` behind, and for the ranges after `tmp`
the new cut is the old one. -/
theorem cut_step {tmp : DataRange} {added : Set Int} {next result : RangeList} {low high : Int}
    (step : Added type added ret next)
    (cut : ∀ x, x ∈ added ↔ (tmp.min.val ≤ x ∧ x ≤ tmp.max.val) ∧ ¬ (min.val ≤ x ∧ x ≤ max.val))
    (same : ∀ x, x ∈ rlSet rest → (low ≤ x ∧ x ≤ high ↔ min.val ≤ x ∧ x ≤ max.val))
    (members : ∀ x, x ∈ rlSet result ↔
      x ∈ rlSet next ∨ x ∈ rlSet rest ∧ ¬ (low ≤ x ∧ x ≤ high)) (x : Int) :
    x ∈ rlSet result ↔
      x ∈ rlSet ret ∨ x ∈ rlSet (tmp :: rest) ∧ ¬ (min.val ≤ x ∧ x ≤ max.val) := by
  rw [members x, step.mem_iff x, cut x, mem_rlSet_cons]
  constructor
  · rintro ((new | old) | ⟨later, outside⟩)
    · exact .inr ⟨.inl new.1, new.2⟩
    · exact .inl old
    · exact .inr ⟨.inr later, (same x later).not.mp outside⟩
  · rintro (old | ⟨new | later, outside⟩)
    · exact .inl (.inr old)
    · exact .inl (.inl ⟨new, outside⟩)
    · exact .inr ⟨later, (same x later).not.mpr outside⟩

theorem Added.of_joined {low high : Int} {old new : RangeList}
    (joined : Joined type low high old new) : Added type (Set.Icc low high) old new :=
  ⟨joined.canonical, joined.mem_iff⟩

theorem Added.none (start : Canonical type ret) : Added type ∅ ret ret :=
  ⟨start, fun _ => (or_iff_right (fun impossible => impossible)).symm⟩

section

variable (low : min.OfType type) (high : max.OfType type) (order : min.val ≤ max.val)
include low high order

/-- What the loop leaves: the old values and those of the rest outside the cut. -/
theorem removeRangeLoop_spec (start : Canonical type ret) (canonical : Canonical type rest) :
    Canonical type (removeRangeLoop min max ret rest) ∧
      ∀ x, x ∈ rlSet (removeRangeLoop min max ret rest) ↔
        x ∈ rlSet ret ∨ x ∈ rlSet rest ∧ ¬ (min.val ≤ x ∧ x ≤ max.val) := by
  induction rest generalizing min max ret with
  | nil =>
    refine ⟨start, fun x => ?_⟩
    simp [removeRangeLoop]
  | cons tmp rest ih =>
    obtain ⟨first, second, inner⟩ := canonical.head
    have beyond : ∀ x, x ∈ rlSet rest → tmp.max.val + 1 < x := fun x => canonical.gap_of_mem
    have bottom := first.2.1
    have top := second.2.2
    rw [removeRangeLoop_cons low high first second]
    split_ifs with apart inside left right
    · have step := Added.of_joined (addRange_joined first second inner start)
      obtain ⟨result, members⟩ := ih low high order step.canonical canonical.tail
      refine ⟨result, cut_step step (fun x => ?_) (fun x _ => Iff.rfl) members⟩
      rw [Set.mem_Icc]
      omega
    · obtain ⟨result, members⟩ := ih low high order start canonical.tail
      refine ⟨result, cut_step (.none start) (fun x => ?_) (fun x _ => Iff.rfl) members⟩
      simp only [Set.mem_empty_iff_false, false_iff]
      omega
    · -- `max` moves into `tmp`, which ends before the next range.
      have next := addOne_val high (by omega)
      have typed := addOne_ofType high (by omega)
      have step := Added.of_joined (addRange_joined typed second (by omega) start)
      obtain ⟨result, members⟩ := ih low typed (by omega) step.canonical canonical.tail
      refine ⟨result, cut_step step (fun x => ?_) (fun x later => ?_) members⟩
      · rw [Set.mem_Icc]
        omega
      · have gap := beyond x later
        omega
    · -- `min` moves below the end of `tmp`, and the next range starts above it.
      have previous := subOne_val low (by omega)
      have typed := subOne_ofType low (by omega)
      have step := Added.of_joined (addRange_joined first typed (by omega) start)
      obtain ⟨result, members⟩ := ih typed high (by omega) step.canonical canonical.tail
      refine ⟨result, cut_step step (fun x => ?_) (fun x later => ?_) members⟩
      · rw [Set.mem_Icc]
        omega
      · have gap := beyond x later
        omega
    · have next := addOne_val high (by omega)
      have previous := subOne_val low (by omega)
      have typedMax := addOne_ofType high (by omega)
      have typedMin := subOne_ofType low (by omega)
      have below := Added.of_joined (addRange_joined first typedMin (by omega) start)
      have step := below.trans
        (Added.of_joined (addRange_joined typedMax second (by omega) below.canonical))
      obtain ⟨result, members⟩ := ih typedMin typedMax (by omega) step.canonical canonical.tail
      refine ⟨result, cut_step step (fun x => ?_) (fun x later => ?_) members⟩
      · rw [Set.mem_union, Set.mem_Icc, Set.mem_Icc]
        omega
      · have gap := beyond x later
        omega

theorem removeRange_eq (canonical : Canonical type list) :
    removeRange list min max = removeRangeLoop min max [] list := by
  unfold removeRange
  by_cases nonempty : list = []
  · rw [nonempty]
    rfl
  · rw [rlType_of_canonical canonical nonempty]
    simp only
    rw [svalCast_self low, svalCast_self high, svalCmp_ofType low high,
      if_neg (by simpa using order)]

theorem removeRange_canonical (canonical : Canonical type list) :
    Canonical type (removeRange list min max) := by
  rw [removeRange_eq low high order canonical]
  exact (removeRangeLoop_spec low high order (.nil type) canonical).1

theorem removeRange_rlSet (canonical : Canonical type list) :
    rlSet (removeRange list min max) = rlSet list \ Set.Icc min.val max.val := by
  rw [removeRange_eq low high order canonical]
  ext x
  rw [(removeRangeLoop_spec low high order (.nil type) canonical).2 x,
    or_iff_right (mem_rlSet_nil x)]
  exact Iff.rfl

end

theorem rlFilter_spec {filter : RangeList} (canonical : Canonical type list)
    (cuts : Canonical type filter) :
    Canonical type (rlFilter list filter) ∧
      rlSet (rlFilter list filter) = rlSet list \ rlSet filter := by
  unfold rlFilter
  induction filter generalizing list with
  | nil =>
    refine ⟨canonical, ?_⟩
    ext x
    simp
  | cons tmp filter ih =>
    obtain ⟨low, high, order⟩ := cuts.head
    obtain ⟨result, values⟩ := ih (removeRange_canonical low high order canonical) cuts.tail
    refine ⟨result, ?_⟩
    rw [List.foldl_cons, values, removeRange_rlSet low high order canonical]
    exact sdiff_sdiff_left

end Difference

section Intersection

variable {type : Ctype} {one two ret : RangeList}

def Intersected (type : Ctype) (ret one two : RangeList) (result : Option RangeList) : Prop :=
  ∃ list, result = some list ∧ Canonical type list ∧
    ∀ x, x ∈ rlSet list ↔ x ∈ rlSet ret ∨ x ∈ rlSet one ∧ x ∈ rlSet two

theorem doIntersectionLoop_nil_left (ret two : RangeList) :
    doIntersectionLoop ret [] two = some ret := by
  simp [doIntersectionLoop]

theorem doIntersectionLoop_nil_right (ret one : RangeList) :
    doIntersectionLoop ret one [] = some ret := by
  simp [doIntersectionLoop]

/-- One iteration of `do_intersection`, in numbers.  The fatal branch is gone: a
range that starts inside the other list's range and ends neither inside nor
beyond it does not exist. -/
theorem doIntersectionLoop_cons {first second : DataRange} {oneRest twoRest : RangeList}
    (lowOne : first.min.OfType type) (highOne : first.max.OfType type)
    (lowTwo : second.min.OfType type) (highTwo : second.max.OfType type)
    (order : second.min.val ≤ second.max.val) :
    doIntersectionLoop ret (first :: oneRest) (second :: twoRest) =
      if first.max.val < second.min.val then
        doIntersectionLoop ret oneRest (second :: twoRest)
      else if first.max.val ≤ second.max.val then
        doIntersectionLoop
          (addRange ret (if first.min.val < second.min.val then second.min else first.min)
            first.max) oneRest (second :: twoRest)
      else if first.min.val ≤ second.max.val then
        doIntersectionLoop
          (addRange ret (if first.min.val < second.min.val then second.min else first.min)
            second.max) (first :: oneRest) twoRest
      else doIntersectionLoop ret (first :: oneRest) twoRest := by
  rw [doIntersectionLoop]
  simp only [svalCmp_ofType highOne lowTwo, svalCmp_ofType lowOne lowTwo,
    svalCmp_ofType highOne highTwo, svalCmp_ofType lowOne highTwo, intCmp_lt_zero, intCmp_gt_zero,
    intCmp_ge_zero, intCmp_le_zero]
  split_ifs <;> first | rfl | omega

/-- The end where the two ranges start to overlap. -/
theorem later_start {first second : DataRange} (lowOne : first.min.OfType type)
    (lowTwo : second.min.OfType type) :
    let start := if first.min.val < second.min.val then second.min else first.min
    start.OfType type ∧ ∀ x, start.val ≤ x ↔ first.min.val ≤ x ∧ second.min.val ≤ x := by
  split_ifs with below
  · exact ⟨lowTwo, fun x => by omega⟩
  · exact ⟨lowOne, fun x => by omega⟩

/-- The range of the first list is used up: everything it shares with the second
list has been added. -/
theorem Intersected.dropOne {first : DataRange} {added : Set Int} {next : RangeList}
    {result : Option RangeList} (step : Added type added ret next)
    (shared : ∀ x, x ∈ added ↔ (first.min.val ≤ x ∧ x ≤ first.max.val) ∧ x ∈ rlSet two)
    (rest : Intersected type next one two result) :
    Intersected type ret (first :: one) two result := by
  obtain ⟨list, found, canonical, members⟩ := rest
  refine ⟨list, found, canonical, fun x => ?_⟩
  rw [members x, step.mem_iff x, shared x, mem_rlSet_cons]
  constructor
  · rintro ((new | old) | later)
    · exact .inr ⟨.inl new.1, new.2⟩
    · exact .inl old
    · exact .inr ⟨.inr later.1, later.2⟩
  · rintro (old | ⟨new | later, second⟩)
    · exact .inl (.inr old)
    · exact .inl (.inl ⟨new, second⟩)
    · exact .inr ⟨later, second⟩

theorem Intersected.swap {result : Option RangeList} (found : Intersected type ret one two result) :
    Intersected type ret two one result := by
  obtain ⟨list, same, canonical, members⟩ := found
  refine ⟨list, same, canonical, fun x => ?_⟩
  rw [members x, and_comm]

/-- A value of a range below another list's second range is in its first. -/
theorem mem_head_of_le {drange : DataRange} {rest : RangeList}
    (canonical : Canonical type (drange :: rest)) {x : Int} (below : x ≤ drange.max.val + 1) :
    x ∈ rlSet (drange :: rest) ↔ drange.min.val ≤ x ∧ x ≤ drange.max.val := by
  rw [mem_rlSet_cons, or_iff_left]
  intro later
  have gap := canonical.gap_of_mem later
  omega

theorem doIntersectionLoop_spec (start : Canonical type ret) (first : Canonical type one)
    (second : Canonical type two) :
    Intersected type ret one two (doIntersectionLoop ret one two) := by
  induction one generalizing ret two with
  | nil =>
    refine ⟨ret, doIntersectionLoop_nil_left ret two, start, fun x => ?_⟩
    simp
  | cons head oneRest ihOne =>
    induction two generalizing ret with
    | nil =>
      refine ⟨ret, doIntersectionLoop_nil_right ret _, start, fun x => ?_⟩
      simp
    | cons other twoRest ihTwo =>
      obtain ⟨lowOne, highOne, orderOne⟩ := first.head
      obtain ⟨lowTwo, highTwo, orderTwo⟩ := second.head
      obtain ⟨typed, starts⟩ := later_start lowOne lowTwo
      rw [doIntersectionLoop_cons lowOne highOne lowTwo highTwo orderTwo]
      generalize (if head.min.val < other.min.val then other.min else head.min) = latest at *
      split_ifs with before ends reaches
      · refine .dropOne (.none start) (fun x => ?_) (ihOne start first.tail second)
        simp only [Set.mem_empty_iff_false, false_iff]
        rintro ⟨inside, shared⟩
        rw [mem_head_of_le second (by omega)] at shared
        omega
      · have bound := (starts head.max.val).mpr ⟨orderOne, by omega⟩
        have step := Added.of_joined (addRange_joined typed highOne bound start)
        refine .dropOne step (fun x => ?_) (ihOne step.canonical first.tail second)
        rw [Set.mem_Icc, starts x]
        constructor
        · intro inside
          rw [mem_head_of_le second (by omega)]
          omega
        · rintro ⟨inside, shared⟩
          rw [mem_head_of_le second (by omega)] at shared
          omega
      · have bound := (starts other.max.val).mpr ⟨reaches, orderTwo⟩
        have step := Added.of_joined (addRange_joined typed highTwo bound start)
        refine (Intersected.dropOne step (fun x => ?_)
          (ihTwo step.canonical second.tail).swap).swap
        rw [Set.mem_Icc, starts x]
        constructor
        · intro inside
          rw [mem_head_of_le first (by omega)]
          omega
        · rintro ⟨inside, shared⟩
          rw [mem_head_of_le first (by omega)] at shared
          omega
      · refine (Intersected.dropOne (.none start) (fun x => ?_)
          (ihTwo start second.tail).swap).swap
        simp only [Set.mem_empty_iff_false, false_iff]
        rintro ⟨inside, shared⟩
        rw [mem_head_of_le first (by omega)] at shared
        omega

theorem doIntersection_spec (first : Canonical type one) (second : Canonical type two) :
    ∃ list, doIntersection one two = some list ∧ Canonical type list ∧
      rlSet list = rlSet one ∩ rlSet two := by
  obtain ⟨list, found, canonical, members⟩ := doIntersectionLoop_spec (.nil type) first second
  refine ⟨list, found, canonical, ?_⟩
  ext x
  rw [members x, or_iff_right (mem_rlSet_nil x)]
  exact Iff.rfl

theorem rlIntersection_spec (first : Canonical type one) (second : Canonical type two) :
    ∃ list, rlIntersection one two = some list ∧ Canonical type list ∧
      rlSet list = rlSet one ∩ rlSet two := by
  by_cases nullOne : one = []
  · refine ⟨[], by rw [nullOne]; rfl, .nil type, ?_⟩
    rw [nullOne]
    ext x
    simp
  by_cases nullTwo : two = []
  · refine ⟨[], by rw [nullTwo]; unfold rlIntersection; cases rlType one <;> rfl, .nil type, ?_⟩
    rw [nullTwo]
    ext x
    simp
  obtain ⟨list, found, canonical, values⟩ := doIntersection_spec first second
  refine ⟨list, ?_, canonical, values⟩
  unfold rlIntersection
  simp only [rlType_of_canonical first nullOne, rlType_of_canonical second nullTwo, ite_self,
    castRl_self first, castRl_self second, found, Option.map_some, castRl_self canonical]

end Intersection

/-- On canonical lists of one type `remove_range` and `rl_filter` are the set
difference, `rl_intersection` is the intersection, and `sm_fatal` is not called. -/
theorem setOperations_correct {type : Ctype} {one two : RangeList} {min max : Sval}
    (first : Canonical type one) (second : Canonical type two) (low : min.OfType type)
    (high : max.OfType type) (order : min.val ≤ max.val) :
    (Canonical type (removeRange one min max) ∧
      rlSet (removeRange one min max) = rlSet one \ Set.Icc min.val max.val) ∧
    (Canonical type (rlFilter one two) ∧ rlSet (rlFilter one two) = rlSet one \ rlSet two) ∧
    (∃ list, rlIntersection one two = some list ∧ Canonical type list ∧
      rlSet list = rlSet one ∩ rlSet two) ∧
    doIntersection one two ≠ none := by
  refine ⟨⟨removeRange_canonical low high order first, removeRange_rlSet low high order first⟩,
    rlFilter_spec first second, rlIntersection_spec first second, ?_⟩
  obtain ⟨list, found, -⟩ := doIntersection_spec first second
  rw [found]
  exact nofun

/-- A cut that spans two ranges and ends at the limit of the type. -/
theorem setOperations_correct_spanning :
    rlSet (removeRange
      [⟨intCtype.ofInt 0, intCtype.ofInt 9⟩, ⟨intCtype.ofInt 20, intCtype.ofInt (2 ^ 31 - 1)⟩]
      (intCtype.ofInt 5) (intCtype.ofInt (2 ^ 31 - 1))) =
    rlSet [⟨intCtype.ofInt 0, intCtype.ofInt 9⟩, ⟨intCtype.ofInt 20, intCtype.ofInt (2 ^ 31 - 1)⟩] \
      Set.Icc (intCtype.ofInt 5).val (intCtype.ofInt (2 ^ 31 - 1)).val :=
  (@setOperations_correct intCtype _ [] _ _ (by decide) (.nil intCtype) (by decide) (by decide)
    (by decide)).1.2

end SmatchFormal.Ranges
