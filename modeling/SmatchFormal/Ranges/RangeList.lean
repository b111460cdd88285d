import SmatchFormal.Lib.IntervalList
import SmatchFormal.Ranges.Sval

/-!
# Range lists and the merge loop of `add_range`

A `struct range_list *` is the list of its ranges and the null pointer is the
empty list.  `addRangeLoop` and `addRangeNext` are the loop of `add_range` before
and after `check_next` is set: the first looks for the place of the new range,
the second joins the range written there (`new`) with its followers.
-/

namespace SmatchFormal.Ranges

open SmatchFormal.Lib List

structure DataRange where
  min : Sval
  max : Sval
  deriving DecidableEq, Repr

abbrev RangeList := List DataRange

def DataRange.interval (drange : DataRange) : Int × Int := (drange.min.val, drange.max.val)

def rlSet (rl : RangeList) : Set Int := IntervalList.toSet (rl.map DataRange.interval)

/-- All values have the type, every range has `min <= max`, and consecutive
ranges satisfy `prev.max + 1 < next.min`. -/
structure Canonical (type : Ctype) (rl : RangeList) : Prop where
  typed : ∀ drange ∈ rl, drange.min.OfType type ∧ drange.max.OfType type
  separated : IntervalList.Canonical (rl.map DataRange.interval)

instance (type : Ctype) (rl : RangeList) : Decidable (Canonical type rl) :=
  decidable_of_iff
    ((∀ drange ∈ rl, drange.min.OfType type ∧ drange.max.OfType type) ∧
      IntervalList.Canonical (rl.map DataRange.interval))
    ⟨fun both => ⟨both.1, both.2⟩, fun canonical => ⟨canonical.typed, canonical.separated⟩⟩

instance (x : Int) (rl : RangeList) : Decidable (x ∈ rlSet rl) :=
  IntervalList.decidableMemToSet x _

/-! ## Reading a list -/

def rlMin : RangeList → Sval
  | [] => ⟨llongCtype, BitVec.ofInt 64 (-2 ^ 63)⟩
  | drange :: _ => drange.min

def rlMax (rl : RangeList) : Sval :=
  match rl.getLast? with
  | none => ⟨llongCtype, BitVec.ofInt 64 (2 ^ 63 - 1)⟩
  | some drange => drange.max

/-- The type of the first value; `NULL` for the null list. -/
def rlType : RangeList → Option Ctype
  | [] => none
  | drange :: _ => some drange.min.type

def rlToSval (rl : RangeList) : Option Sval :=
  if rl = [] then none
  else if svalCmp (rlMin rl) (rlMax rl) ≠ 0 then none
  else some (rlMin rl)

def rlHasSval (rl : RangeList) (sval : Sval) : Bool :=
  rl.any fun tmp => decide (svalCmp tmp.min sval ≤ 0) && decide (svalCmp tmp.max sval ≥ 0)

/-! ## The loop of `add_range` -/

def endsBefore (max min : Sval) : Bool := !svalIsMax max && (addOne max).raw == min.raw

def startsAfter (min max : Sval) : Bool := !svalIsMin min && (subOne min).raw == max.raw

/-- The iterations with `check_next` set; `new` is the range already in the list. -/
def addRangeNext (new : DataRange) (max : Sval) : RangeList → RangeList
  | [] => [new]
  | tmp :: rest =>
    if endsBefore max tmp.min then { new with max := tmp.max } :: rest
    else if svalCmp max tmp.min < 0 then new :: tmp :: rest
    else if svalCmp max tmp.max ≤ 0 then { new with max := tmp.max } :: rest
    else addRangeNext new max rest

/-- The iterations before `check_next` is set, and the final `add_ptr_list`. -/
def addRangeLoop (min max : Sval) : RangeList → RangeList
  | [] => [⟨min, max⟩]
  | tmp :: rest =>
    if endsBefore max tmp.min then ⟨min, tmp.max⟩ :: rest
    else if svalCmp max tmp.min < 0 then ⟨min, max⟩ :: tmp :: rest
    else if svalCmp min tmp.min < 0 then
      if svalCmp max tmp.max < 0 then ⟨min, tmp.max⟩ :: rest
      else addRangeNext ⟨min, max⟩ max rest
    else if svalCmp max tmp.max ≤ 0 then tmp :: rest
    else if svalCmp min tmp.max ≤ 0 then addRangeNext ⟨tmp.min, max⟩ max rest
    else if startsAfter min tmp.max then addRangeNext ⟨tmp.min, max⟩ max rest
    else tmp :: addRangeLoop min max rest

/-- `add_range` once the types agree: a range the wrong way round becomes the
whole type.  `collapse_pointer_rl` does nothing for a type that is no pointer. -/
def addRangeTyped (list : RangeList) (min max : Sval) : RangeList :=
  if svalCmp min max > 0 then addRangeLoop (svalTypeMin min.type) (svalTypeMax min.type) list
  else addRangeLoop min max list

/-! ## Canonical lists of ranges -/

@[simp] theorem mem_rlSet_nil (x : Int) : ¬ x ∈ rlSet [] :=
  fun impossible => impossible

@[simp] theorem mem_rlSet_cons (x : Int) (drange : DataRange) (rl : RangeList) :
    x ∈ rlSet (drange :: rl) ↔ drange.min.val ≤ x ∧ x ≤ drange.max.val ∨ x ∈ rlSet rl :=
  Iff.rfl

theorem mem_rlSet_iff (x : Int) (rl : RangeList) :
    x ∈ rlSet rl ↔ ∃ drange ∈ rl, drange.min.val ≤ x ∧ x ≤ drange.max.val := by
  induction rl with
  | nil => simp
  | cons drange rl ih => simp only [mem_rlSet_cons, ih, mem_cons, exists_eq_or_imp]

theorem rlSet_singleton (drange : DataRange) :
    rlSet [drange] = Set.Icc drange.min.val drange.max.val := by
  ext x
  simp [Set.mem_Icc]

namespace Canonical

theorem nil (type : Ctype) : Canonical type [] :=
  ⟨fun _ member => absurd member not_mem_nil, trivial⟩

variable {type : Ctype} {drange : DataRange} {rl : RangeList}

theorem tail (canonical : Canonical type (drange :: rl)) : Canonical type rl :=
  ⟨fun other member => canonical.typed other (mem_cons_of_mem _ member),
    canonical.separated.tail⟩

theorem head (canonical : Canonical type (drange :: rl)) :
    drange.min.OfType type ∧ drange.max.OfType type ∧ drange.min.val ≤ drange.max.val := by
  obtain ⟨first, second⟩ := canonical.typed drange mem_cons_self
  exact ⟨first, second, canonical.separated.1⟩

theorem ordered (canonical : Canonical type rl) (member : drange ∈ rl) :
    drange.min.val ≤ drange.max.val :=
  canonical.separated.nonempty (mem_map_of_mem member)

theorem gap (canonical : Canonical type (drange :: rl)) {next : DataRange} (member : next ∈ rl) :
    drange.max.val + 1 < next.min.val :=
  IntervalList.Canonical.gap canonical.separated (mem_map_of_mem member)

theorem gap_of_mem (canonical : Canonical type (drange :: rl)) {x : Int} (member : x ∈ rlSet rl) :
    drange.max.val + 1 < x :=
  IntervalList.Canonical.gap_of_mem canonical.separated member

theorem cons (low : drange.min.OfType type) (high : drange.max.OfType type)
    (order : drange.min.val ≤ drange.max.val)
    (beyond : ∀ x ∈ rlSet rl, drange.max.val + 1 < x) (canonical : Canonical type rl) :
    Canonical type (drange :: rl) := by
  refine ⟨?_, ?_⟩
  · intro other member
    rcases mem_cons.mp member with same | inRest
    · rw [same]
      exact ⟨low, high⟩
    · exact canonical.typed other inRest
  · refine IntervalList.Canonical.cons order ?_ canonical.separated
    intro next member
    obtain ⟨source, inside, rfl⟩ := mem_map.mp member
    exact beyond _ ((mem_rlSet_iff _ rl).mpr ⟨source, inside, le_refl _, canonical.ordered inside⟩)

theorem singleton (low : drange.min.OfType type) (high : drange.max.OfType type)
    (order : drange.min.val ≤ drange.max.val) : Canonical type [drange] :=
  cons low high order (fun x member => absurd member (mem_rlSet_nil x)) (nil type)

/-- Every value of a canonical list is a value of its type. -/
theorem mem_type (canonical : Canonical type rl) {x : Int} (member : x ∈ rlSet rl) :
    type.lo ≤ x ∧ x ≤ type.hi := by
  obtain ⟨source, inside, low, high⟩ := (mem_rlSet_iff x rl).mp member
  obtain ⟨first, second⟩ := canonical.typed source inside
  exact ⟨Int.le_trans first.2.1 low, Int.le_trans high second.2.2⟩

/-- Canonical lists of one type that denote one set are equal. -/
theorem eq_of_rlSet_eq {one two : RangeList} (first : Canonical type one)
    (second : Canonical type two) (same : rlSet one = rlSet two) : one = two := by
  have intervals := first.separated.eq_of_toSet_eq second.separated same
  have typedOne := first.typed
  have typedTwo := second.typed
  clear first second same
  induction one generalizing two with
  | nil =>
    cases two with
    | nil => rfl
    | cons drange two => cases intervals
  | cons drange one ih =>
    cases two with
    | nil => cases intervals
    | cons other two =>
      simp only [map_cons, List.cons.injEq, DataRange.interval, Prod.mk.injEq] at intervals
      obtain ⟨⟨low, high⟩, rest⟩ := intervals
      obtain ⟨minOne, maxOne⟩ := typedOne drange mem_cons_self
      obtain ⟨minTwo, maxTwo⟩ := typedTwo other mem_cons_self
      have heads : drange = other := by
        cases drange
        cases other
        rw [DataRange.mk.injEq]
        exact ⟨Sval.ext_val (minOne.1.trans minTwo.1.symm) low,
          Sval.ext_val (maxOne.1.trans maxTwo.1.symm) high⟩
      rw [heads, ih rest (fun d member => typedOne d (mem_cons_of_mem _ member))
        (fun d member => typedTwo d (mem_cons_of_mem _ member))]

end Canonical

section Loop

variable {type : Ctype} {min max : Sval}

theorem endsBefore_iff (high : max.OfType type) (low : min.OfType type) :
    endsBefore max min = true ↔ max.val + 1 = min.val := by
  have top := svalIsMax_iff high
  unfold endsBefore
  by_cases last : max.val = type.hi
  · rw [top.mpr last]
    have bound := low.2.2
    simp only [Bool.not_true, Bool.false_and, Bool.false_eq_true, false_iff]
    omega
  · have below : max.val < type.hi := by
      have bound := high.2.2
      omega
    rw [Bool.eq_false_iff.mpr (fun found => last (top.mp found)), Bool.not_false, Bool.true_and,
      beq_iff_eq, raw_eq_iff (addOne_ofType high below) low, addOne_val high below]

theorem startsAfter_iff (low : min.OfType type) (high : max.OfType type) :
    startsAfter min max = true ↔ min.val - 1 = max.val := by
  have bottom := svalIsMin_iff low
  unfold startsAfter
  by_cases first : min.val = type.lo
  · rw [bottom.mpr first]
    have bound := high.2.1
    simp only [Bool.not_true, Bool.false_and, Bool.false_eq_true, false_iff]
    omega
  · have above : type.lo < min.val := by
      have bound := low.2.1
      omega
    rw [Bool.eq_false_iff.mpr (fun found => first (bottom.mp found)), Bool.not_false, Bool.true_and,
      beq_iff_eq, raw_eq_iff (subOne_ofType low above) high, subOne_val low above]

theorem addRangeNext_cons {new tmp : DataRange} {rest : RangeList} (high : max.OfType type)
    (first : tmp.min.OfType type) (second : tmp.max.OfType type) :
    addRangeNext new max (tmp :: rest) =
      if max.val + 1 = tmp.min.val then { new with max := tmp.max } :: rest
      else if max.val < tmp.min.val then new :: tmp :: rest
      else if max.val ≤ tmp.max.val then { new with max := tmp.max } :: rest
      else addRangeNext new max rest := by
  rw [addRangeNext]
  simp only [endsBefore_iff high first, svalCmp_ofType high first, svalCmp_ofType high second,
    intCmp_lt_zero, intCmp_le_zero]

theorem addRangeLoop_cons {tmp : DataRange} {rest : RangeList} (low : min.OfType type)
    (high : max.OfType type) (first : tmp.min.OfType type) (second : tmp.max.OfType type) :
    addRangeLoop min max (tmp :: rest) =
      if max.val + 1 = tmp.min.val then ⟨min, tmp.max⟩ :: rest
      else if max.val < tmp.min.val then ⟨min, max⟩ :: tmp :: rest
      else if min.val < tmp.min.val then
        if max.val < tmp.max.val then ⟨min, tmp.max⟩ :: rest
        else addRangeNext ⟨min, max⟩ max rest
      else if max.val ≤ tmp.max.val then tmp :: rest
      else if min.val ≤ tmp.max.val then addRangeNext ⟨tmp.min, max⟩ max rest
      else if min.val - 1 = tmp.max.val then addRangeNext ⟨tmp.min, max⟩ max rest
      else tmp :: addRangeLoop min max rest := by
  rw [addRangeLoop]
  simp only [endsBefore_iff high first, startsAfter_iff low second, svalCmp_ofType high first,
    svalCmp_ofType low first, svalCmp_ofType high second, svalCmp_ofType low second,
    intCmp_lt_zero, intCmp_le_zero]

/-- What the loop establishes: a canonical list of the old values and the new ones. -/
structure Joined (type : Ctype) (low high : Int) (old list : RangeList) : Prop where
  canonical : Canonical type list
  mem_iff : ∀ x, x ∈ rlSet list ↔ low ≤ x ∧ x ≤ high ∨ x ∈ rlSet old

/-- A new range takes the end of the first old one when the two overlap or touch. -/
theorem joined_absorb {new tmp : DataRange} {rest : RangeList} (low : new.min.OfType type)
    (canonical : Canonical type (tmp :: rest)) (start : new.min.val ≤ tmp.min.val)
    (reach : tmp.min.val ≤ new.max.val + 1) (short : new.max.val ≤ tmp.max.val) :
    Joined type new.min.val new.max.val (tmp :: rest) (⟨new.min, tmp.max⟩ :: rest) := by
  obtain ⟨first, second, inner⟩ := canonical.head
  refine ⟨.cons low second (Int.le_trans start inner) (fun x => canonical.gap_of_mem)
    canonical.tail, ?_⟩
  intro x
  simp only [mem_rlSet_cons]
  constructor
  · rintro (inside | far)
    · by_cases near : x ≤ new.max.val
      · exact .inl ⟨inside.1, near⟩
      · exact .inr (.inl ⟨by omega, inside.2⟩)
    · exact .inr (.inr far)
  · rintro (inside | inside | far)
    · exact .inl ⟨inside.1, by omega⟩
    · exact .inl ⟨by omega, inside.2⟩
    · exact .inr far

/-- A new range below a gap goes in front. -/
theorem joined_before {new tmp : DataRange} {rest : RangeList} (low : new.min.OfType type)
    (high : new.max.OfType type) (order : new.min.val ≤ new.max.val)
    (canonical : Canonical type (tmp :: rest)) (below : new.max.val + 1 < tmp.min.val) :
    Joined type new.min.val new.max.val (tmp :: rest) (new :: tmp :: rest) := by
  refine ⟨.cons low high order ?_ canonical, fun x => Iff.rfl⟩
  rintro x (inside | far)
  · exact Int.lt_of_lt_of_le below inside.1
  · have later := canonical.gap_of_mem far
    have inner := canonical.head.2.2
    omega

theorem addRangeNext_joined {new : DataRange} {rest : RangeList} (low : new.min.OfType type)
    (high : new.max.OfType type) (order : new.min.val ≤ new.max.val)
    (beyond : ∀ drange ∈ rest, new.min.val < drange.min.val) (canonical : Canonical type rest) :
    Joined type new.min.val new.max.val rest (addRangeNext new new.max rest) := by
  induction rest with
  | nil => exact ⟨.singleton low high order, fun x => Iff.rfl⟩
  | cons tmp rest ih =>
    obtain ⟨first, second, inner⟩ := canonical.head
    have start := beyond tmp mem_cons_self
    rw [addRangeNext_cons high first second]
    split_ifs with touches below inside
    · exact joined_absorb low canonical (by omega) (by omega) (by omega)
    · exact joined_before low high order canonical (by omega)
    · exact joined_absorb low canonical (by omega) (by omega) inside
    · -- `tmp` is swallowed: its values are values of `new`.
      have later : ∀ drange ∈ rest, new.min.val < drange.min.val :=
        fun drange member => beyond drange (mem_cons_of_mem _ member)
      obtain ⟨result, members⟩ := ih later canonical.tail
      refine ⟨result, ?_⟩
      intro x
      rw [members x, mem_rlSet_cons]
      constructor
      · rintro (near | far)
        · exact .inl near
        · exact .inr (.inr far)
      · rintro (near | within | far)
        · exact .inl near
        · exact .inl ⟨by omega, by omega⟩
        · exact .inr far

/-- The range found at `tmp` grows to `[low, new.max]` and goes on with `check_next`. -/
theorem joined_grow {new tmp : DataRange} {rest : RangeList} {low : Int}
    (first : new.min.OfType type) (high : new.max.OfType type)
    (canonical : Canonical type (tmp :: rest))
    (start : new.min.val ≤ tmp.min.val) (covers : tmp.max.val ≤ new.max.val)
    (grown : ∀ x, new.min.val ≤ x ∧ x ≤ new.max.val ↔
      low ≤ x ∧ x ≤ new.max.val ∨ tmp.min.val ≤ x ∧ x ≤ tmp.max.val) :
    Joined type low new.max.val (tmp :: rest) (addRangeNext new new.max rest) := by
  have inner := canonical.head.2.2
  have beyond : ∀ drange ∈ rest, new.min.val < drange.min.val := by
    intro drange member
    have later := canonical.gap member
    omega
  obtain ⟨result, members⟩ :=
    addRangeNext_joined first high (by omega) beyond canonical.tail
  refine ⟨result, ?_⟩
  intro x
  rw [members x, mem_rlSet_cons, grown x, or_assoc]

/-- The loop of `add_range` adds the values of an interval to a canonical list. -/
theorem addRangeLoop_joined {list : RangeList} (low : min.OfType type) (high : max.OfType type)
    (order : min.val ≤ max.val) (canonical : Canonical type list) :
    Joined type min.val max.val list (addRangeLoop min max list) := by
  induction list with
  | nil => exact ⟨.singleton low high order, fun x => Iff.rfl⟩
  | cons tmp rest ih =>
    obtain ⟨first, second, inner⟩ := canonical.head
    rw [addRangeLoop_cons low high first second]
    split_ifs with touches below partially inner' included overlaps follows
    · exact @joined_absorb type ⟨min, max⟩ tmp rest low canonical (by simp only; omega)
        (by simp only; omega) (by simp only; omega)
    · exact @joined_before type ⟨min, max⟩ tmp rest low high order canonical (by simp only; omega)
    · exact @joined_absorb type ⟨min, max⟩ tmp rest low canonical (by simp only; omega)
        (by simp only; omega) (by simp only; omega)
    · refine @joined_grow type ⟨min, max⟩ tmp rest _ low high canonical (by simp only; omega)
        (by simp only; omega) ?_
      intro x
      simp only
      omega
    · refine ⟨canonical, ?_⟩
      intro x
      rw [mem_rlSet_cons]
      constructor
      · exact .inr
      · rintro (near | old)
        · exact .inl ⟨by omega, by omega⟩
        · exact old
    · refine @joined_grow type ⟨tmp.min, max⟩ tmp rest _ first high canonical (le_refl _)
        (by simp only; omega) ?_
      intro x
      simp only
      omega
    · refine @joined_grow type ⟨tmp.min, max⟩ tmp rest _ first high canonical (le_refl _)
        (by simp only; omega) ?_
      intro x
      simp only
      omega
    · obtain ⟨result, members⟩ := ih canonical.tail
      refine ⟨.cons first second inner ?_ result, ?_⟩
      · intro x member
        rcases (members x).mp member with near | far
        · omega
        · exact canonical.gap_of_mem far
      · intro x
        rw [mem_rlSet_cons, members x, mem_rlSet_cons]
        exact or_left_comm

/-- `list` is canonical and denotes `values` on top of what `old` denotes. -/
structure Added (type : Ctype) (values : Set Int) (old list : RangeList) : Prop where
  canonical : Canonical type list
  mem_iff : ∀ x, x ∈ rlSet list ↔ x ∈ values ∨ x ∈ rlSet old

/-- The values a pair of ends stands for: a reversed pair is the whole type. -/
def endsSet (type : Ctype) (low high : Int) : Set Int :=
  if low ≤ high then Set.Icc low high else Set.Icc type.lo type.hi

theorem addRangeTyped_added {list : RangeList} (low : min.OfType type) (high : max.OfType type)
    (canonical : Canonical type list) :
    Added type (endsSet type min.val max.val) list (addRangeTyped list min max) := by
  unfold addRangeTyped endsSet
  rw [svalCmp_ofType low high, low.1]
  by_cases order : min.val ≤ max.val
  · rw [if_pos order, if_neg (by simpa using order)]
    obtain ⟨result, members⟩ := addRangeLoop_joined low high order canonical
    exact ⟨result, members⟩
  · rw [if_neg order, if_pos (by simpa using order)]
    obtain ⟨result, members⟩ := addRangeLoop_joined (svalTypeMin_ofType type)
      (svalTypeMax_ofType type) (by simpa using type.lo_le_hi) canonical
    rw [svalTypeMin_val, svalTypeMax_val] at members
    exact ⟨result, members⟩

/-- Adding an ordered range adds the values between its ends. -/
theorem addRangeTyped_joined {list : RangeList} (low : min.OfType type) (high : max.OfType type)
    (order : min.val ≤ max.val) (canonical : Canonical type list) :
    Joined type min.val max.val list (addRangeTyped list min max) := by
  obtain ⟨result, members⟩ := addRangeTyped_added low high canonical
  rw [endsSet, if_pos order] at members
  exact ⟨result, members⟩

end Loop

end SmatchFormal.Ranges
