import SmatchFormal.Extra.Estate

/-!
# Parts of range lists

The arithmetic on range lists splits a list into its negative and its other values, tests
whether it is the whole type or one value, and joins the lists of the cases.  The lists of
the cases may have different types: `sval_binop` gives its result the type `int` where the
operands have another type of this kind.  `OfKind` is what such lists have in common.
-/

namespace SmatchFormal.RangeMath

open SmatchFormal.Ranges SmatchFormal.Extra

def isWholeRl : RangeList → Bool
  | [] => false
  | drange :: _ => svalIsMin drange.min && svalIsMax drange.max

def getNegLoop (ret : RangeList) : RangeList → RangeList
  | [] => ret
  | tmp :: rest =>
    if svalIsPositive tmp.min then ret
    else if svalIsPositive tmp.max then addRange ret tmp.min { tmp.max with raw := -1 }
    else getNegLoop (addRange ret tmp.min tmp.max) rest

def getNegRl (rl : RangeList) : RangeList :=
  if rl = [] then []
  else if svalIsPositive (rlMin rl) then []
  else getNegLoop [] rl

def getPosLoop (ret : RangeList) : RangeList → RangeList
  | [] => ret
  | tmp :: rest =>
    if svalIsNegative tmp.max then getPosLoop ret rest
    else if svalIsPositive tmp.min then getPosLoop (addRange ret tmp.min tmp.max) rest
    else getPosLoop (addRange ret { tmp.min with raw := 0 } tmp.max) rest

def getPosRl (rl : RangeList) : RangeList :=
  if rl = [] then []
  else if svalIsNegative (rlMax rl) then []
  else getPosLoop [] rl

def rlVal (rl : RangeList) (value : Int) : Sval := ((rlType rl).getD llongCtype).ofInt value

def IntRank (type : Ctype) : Prop := 32 ≤ typeBits type

instance (type : Ctype) : Decidable (IntRank type) := inferInstanceAs (Decidable (_ ≤ _))

section Constants

variable {type : Ctype} {sval : Sval}

theorem zero_ofType (type : Ctype) : (type.ofInt 0).OfType type := by
  obtain ⟨-, low, high, -⟩ := type.kind.bounds
  exact Ctype.ofInt_ofType low (Int.le_trans (by decide) high)

theorem zero_val (type : Ctype) : (type.ofInt 0).val = 0 := by
  obtain ⟨-, low, high, -⟩ := type.kind.bounds
  exact Ctype.ofInt_val low (Int.le_trans (by decide) high)

/-- A type with a negative value has minus one. -/
theorem minusOne_ofType (negative : type.lo < 0) :
    (type.ofInt (-1)).OfType type ∧ (type.ofInt (-1)).val = -1 := by
  obtain ⟨-, -, high, -⟩ := type.kind.bounds
  have below : (-1 : Int) ≤ type.hi := Int.le_trans (by decide) high
  have above : type.lo ≤ -1 := by omega
  exact ⟨Ctype.ofInt_ofType above below, Ctype.ofInt_val above below⟩

end Constants

section Parts

variable {type : Ctype} {rl ret : RangeList}

theorem getNegLoop_added (start : Canonical type ret) (canonical : Canonical type rl) :
    Added type {x | x ∈ rlSet rl ∧ x < 0} ret (getNegLoop ret rl) := by
  induction rl generalizing ret with
  | nil => exact (Added.none start).congr (by simp)
  | cons tmp rest ih =>
    obtain ⟨low, high, order⟩ := canonical.head
    unfold getNegLoop
    by_cases minPositive : svalIsPositive tmp.min = true
    · rw [if_pos minPositive]
      refine (Added.none start).congr ?_
      ext x
      have first := (svalIsPositive_iff tmp.min).mp minPositive
      have least := rlMin_le (x := x) canonical
      simp only [rlMin] at least
      simp only [Set.mem_empty_iff_false, Set.mem_ofPred_eq, false_iff, not_and, not_lt]
      intro member
      exact Int.le_trans first (least member)
    · have first : tmp.min.val < 0 := by
        rw [svalIsPositive_iff] at minPositive
        omega
      rw [if_neg minPositive]
      by_cases maxPositive : svalIsPositive tmp.max = true
      · have last := (svalIsPositive_iff tmp.max).mp maxPositive
        obtain ⟨minusOne, value⟩ := minusOne_ofType (Int.lt_of_le_of_lt low.2.1 first)
        have same : ({ tmp.max with raw := -1 } : Sval) = type.ofInt (-1) := by
          rw [Ctype.ofInt, ← high.1]
          rfl
        rw [if_pos maxPositive, same]
        refine (Added.of_joined (addRange_joined low minusOne (by omega) start)).congr ?_
        ext x
        rw [value]
        simp only [Set.mem_Icc, Set.mem_ofPred_eq, mem_rlSet_cons]
        constructor
        · intro inside
          exact ⟨.inl ⟨inside.1, by omega⟩, by omega⟩
        · rintro ⟨inside | later, negative⟩
          · exact ⟨inside.1, by omega⟩
          · have gap := canonical.gap_of_mem later
            omega
      · have last : tmp.max.val < 0 := by
          rw [svalIsPositive_iff] at maxPositive
          omega
        rw [if_neg maxPositive]
        have step := Added.of_joined (addRange_joined low high order start)
        refine (step.trans (ih step.canonical canonical.tail)).congr ?_
        ext x
        simp only [Set.mem_union, Set.mem_Icc, Set.mem_ofPred_eq, mem_rlSet_cons]
        constructor
        · rintro (inside | ⟨later, negative⟩)
          · exact ⟨.inl inside, by omega⟩
          · exact ⟨.inr later, negative⟩
        · rintro ⟨inside | later, negative⟩
          · exact .inl inside
          · exact .inr ⟨later, negative⟩

theorem getPosLoop_added (start : Canonical type ret) (canonical : Canonical type rl) :
    Added type {x | x ∈ rlSet rl ∧ 0 ≤ x} ret (getPosLoop ret rl) := by
  induction rl generalizing ret with
  | nil => exact (Added.none start).congr (by simp)
  | cons tmp rest ih =>
    obtain ⟨low, high, order⟩ := canonical.head
    unfold getPosLoop
    by_cases maxNegative : svalIsNegative tmp.max = true
    · have last := (svalIsNegative_iff tmp.max).mp maxNegative
      rw [if_pos maxNegative]
      refine (ih start canonical.tail).congr ?_
      ext x
      simp only [Set.mem_ofPred_eq, mem_rlSet_cons]
      constructor
      · exact fun found => ⟨.inr found.1, found.2⟩
      · rintro ⟨inside | later, nonneg⟩
        · omega
        · exact ⟨later, nonneg⟩
    · have last : 0 ≤ tmp.max.val := by
        rw [svalIsNegative_iff] at maxNegative
        omega
      rw [if_neg maxNegative]
      by_cases minPositive : svalIsPositive tmp.min = true
      · have first := (svalIsPositive_iff tmp.min).mp minPositive
        rw [if_pos minPositive]
        have step := Added.of_joined (addRange_joined low high order start)
        refine (step.trans (ih step.canonical canonical.tail)).congr ?_
        ext x
        simp only [Set.mem_union, Set.mem_Icc, Set.mem_ofPred_eq, mem_rlSet_cons]
        constructor
        · rintro (inside | ⟨later, nonneg⟩)
          · exact ⟨.inl inside, by omega⟩
          · exact ⟨.inr later, nonneg⟩
        · rintro ⟨inside | later, nonneg⟩
          · exact .inl inside
          · exact .inr ⟨later, nonneg⟩
      · have first : tmp.min.val < 0 := by
          rw [svalIsPositive_iff] at minPositive
          omega
        have same : ({ tmp.min with raw := 0 } : Sval) = type.ofInt 0 := by
          rw [Ctype.ofInt, ← low.1]
          rfl
        rw [if_neg minPositive, same]
        have step := Added.of_joined
          (addRange_joined (zero_ofType type) high (by rw [zero_val]; exact last) start)
        refine (step.trans (ih step.canonical canonical.tail)).congr ?_
        ext x
        simp only [Set.mem_union, Set.mem_Icc, Set.mem_ofPred_eq, mem_rlSet_cons, zero_val]
        constructor
        · rintro (inside | ⟨later, nonneg⟩)
          · exact ⟨.inl ⟨by omega, inside.2⟩, inside.1⟩
          · exact ⟨.inr later, nonneg⟩
        · rintro ⟨inside | later, nonneg⟩
          · exact .inl ⟨nonneg, inside.2⟩
          · exact .inr ⟨later, nonneg⟩

theorem kept_of_added {test : Int → Prop} (added : Added type {x | x ∈ rlSet rl ∧ test x} [] ret) :
    Kept type rl ret test := by
  refine ⟨added.canonical, fun x => ?_⟩
  rw [added.mem_iff, or_iff_left (mem_rlSet_nil x)]
  exact Iff.rfl

theorem kept_nil {test : Int → Prop} (none : ∀ x ∈ rlSet rl, ¬ test x) : Kept type rl [] test :=
  ⟨.nil type, fun x => ⟨fun impossible => absurd impossible (mem_rlSet_nil x),
    fun found => absurd found.2 (none x found.1)⟩⟩

section

variable (canonical : Canonical type rl)
include canonical

theorem getNegRl_kept :
    Kept type rl (getNegRl rl) fun x => x < 0 := by
  unfold getNegRl
  by_cases null : rl = []
  · rw [if_pos null]
    exact kept_nil fun x member => absurd (null ▸ member) (mem_rlSet_nil x)
  rw [if_neg null]
  by_cases positive : svalIsPositive (rlMin rl) = true
  · rw [if_pos positive]
    have first := (svalIsPositive_iff _).mp positive
    exact kept_nil fun x member => not_lt.mpr (Int.le_trans first (rlMin_le canonical member))
  · rw [if_neg positive]
    exact kept_of_added (getNegLoop_added (.nil type) canonical)

theorem getPosRl_kept :
    Kept type rl (getPosRl rl) fun x => 0 ≤ x := by
  unfold getPosRl
  by_cases null : rl = []
  · rw [if_pos null]
    exact kept_nil fun x member => absurd (null ▸ member) (mem_rlSet_nil x)
  rw [if_neg null]
  by_cases negative : svalIsNegative (rlMax rl) = true
  · rw [if_pos negative]
    have last := (svalIsNegative_iff _).mp negative
    exact kept_nil fun x member =>
      not_le.mpr (Int.lt_of_le_of_lt (le_rlMax canonical member) last)
  · rw [if_neg negative]
    exact kept_of_added (getPosLoop_added (.nil type) canonical)

/-- `is_whole_rl` finds the lists of all values of the type. -/
theorem isWholeRl_iff :
    isWholeRl rl = true ↔ ∀ x, type.lo ≤ x → x ≤ type.hi → x ∈ rlSet rl := by
  have least := type.lo_le_hi
  cases rl with
  | nil =>
    constructor
    · intro impossible
      cases impossible
    · intro whole
      exact absurd (whole type.lo (Int.le_refl _) least) (mem_rlSet_nil _)
  | cons drange rest =>
    obtain ⟨low, high, order⟩ := canonical.head
    rw [isWholeRl, Bool.and_eq_true, svalIsMin_iff low, svalIsMax_iff high]
    constructor
    · rintro ⟨first, last⟩ x above below
      exact (mem_rlSet_cons x drange rest).mpr (.inl ⟨by omega, by omega⟩)
    · intro whole
      have first : drange.min.val ≤ type.lo :=
        rlMin_le canonical (whole type.lo (Int.le_refl _) least)
      have bottom : drange.min.val = type.lo := Int.le_antisymm first low.2.1
      refine ⟨bottom, ?_⟩
      by_contra short
      have below : drange.max.val < type.hi := by
        have bound := high.2.2
        omega
      have next := whole (drange.max.val + 1) (by omega) (by omega)
      rcases (mem_rlSet_cons _ drange rest).mp next with inside | later
      · omega
      · have gap := canonical.gap_of_mem later
        omega

theorem rlToSval_eq_some {sval : Sval} (found : rlToSval rl = some sval) :
    sval.OfType type ∧ ∀ x, x ∈ rlSet rl ↔ x = sval.val := by
  unfold rlToSval at found
  split_ifs at found with null differ
  obtain rfl := Option.some.inj found
  have low := rlMin_ofType canonical null
  have high := rlMax_ofType canonical null
  have same : (rlMin rl).val = (rlMax rl).val := by
    rw [svalCmp_ofType low high] at differ
    simpa using differ
  refine ⟨low, fun x => ⟨fun member => ?_, ?_⟩⟩
  · have first := rlMin_le canonical member
    have last := le_rlMax canonical member
    omega
  · rintro rfl
    exact rlMin_mem canonical null

theorem rlToSval_eq_none (null : rl ≠ []) :
    rlToSval rl = none ↔ (rlMin rl).val < (rlMax rl).val := by
  have low := rlMin_ofType canonical null
  have high := rlMax_ofType canonical null
  have order := rlMin_le canonical (rlMax_mem canonical null)
  unfold rlToSval
  rw [if_neg null, svalCmp_ofType low high]
  by_cases same : (rlMin rl).val = (rlMax rl).val
  · simp [intCmp, same]
  · simp only [ne_eq, intCmp_eq_zero, same, not_false_eq_true, if_true, true_iff]
    omega

theorem rlVal_eq (some : rl ≠ []) (value : Int) :
    rlVal rl value = type.ofInt value := by
  rw [rlVal, rlType_of_canonical canonical some, Option.getD_some]

end

/-- The least and the greatest value depend on the set only. -/
theorem ends_of_rlSet {source : Ctype} {one two : RangeList} (first : Canonical source one)
    (second : Canonical type two) (same : rlSet one = rlSet two) (some : two ≠ []) :
    (rlMin one).val = (rlMin two).val ∧ (rlMax one).val = (rlMax two).val := by
  have someOne : one ≠ [] := nonempty_of_mem (same ▸ rlMin_mem second some)
  have minOne := rlMin_mem first someOne
  have maxOne := rlMax_mem first someOne
  rw [same] at minOne maxOne
  have minTwo := rlMin_mem second some
  have maxTwo := rlMax_mem second some
  rw [← same] at minTwo maxTwo
  exact ⟨Int.le_antisymm (rlMin_le first minTwo) (rlMin_le second minOne),
    Int.le_antisymm (le_rlMax second maxOne) (le_rlMax first maxTwo)⟩

end Parts

theorem addRangeNext_ne_nil (new : DataRange) (max : Sval) (rl : RangeList) :
    addRangeNext new max rl ≠ [] := by
  induction rl with
  | nil => exact List.cons_ne_nil _ _
  | cons tmp rest ih =>
    unfold addRangeNext
    split_ifs
    · exact List.cons_ne_nil _ _
    · exact List.cons_ne_nil _ _
    · exact List.cons_ne_nil _ _
    · exact ih

theorem addRangeLoop_ne_nil (min max : Sval) (rl : RangeList) : addRangeLoop min max rl ≠ [] := by
  cases rl with
  | nil => exact List.cons_ne_nil _ _
  | cons tmp rest =>
    unfold addRangeLoop
    split_ifs <;> first | exact List.cons_ne_nil _ _ | exact addRangeNext_ne_nil _ _ _

theorem addRange_ne_nil (list : RangeList) (min max : Sval) : addRange list min max ≠ [] := by
  have typed : ∀ list min max, addRangeTyped list min max ≠ [] := by
    intro list min max
    unfold addRangeTyped
    split_ifs <;> exact addRangeLoop_ne_nil _ _ _
  unfold addRange
  cases rlType list with
  | none => exact typed _ _ _
  | some type =>
    dsimp only
    split_ifs <;> exact typed _ _ _

theorem allocRl_ne_nil (min max : Sval) : allocRl min max ≠ [] := by
  unfold allocRl addRangeTyped
  split_ifs <;> exact addRangeLoop_ne_nil _ _ _

def OfKind (kind : IntKind) (rl : RangeList) : Prop :=
  ∃ type : Ctype, type.kind = kind ∧ Canonical type rl

section OfKind

variable {kind : IntKind} {type source : Ctype} {list one two : RangeList} {min max sval : Sval}

theorem svalCast_sameKind (typed : sval.OfType source) (same : source.kind = type.kind) :
    (svalCast type sval).OfType type ∧ (svalCast type sval).val = sval.val := by
  refine ⟨svalCast_ofType type sval, svalCast_val_of_mem ?_ ?_⟩
  · rw [Ctype.lo, ← same]
    exact typed.2.1
  · rw [Ctype.hi, ← same]
    exact typed.2.2

/-- `add_range` of a range of the same kind; a list keeps its type. -/
theorem addRange_sameKind (canonical : Canonical type list) (low : min.OfType source)
    (high : max.OfType source) (order : min.val ≤ max.val) (same : source.kind = type.kind) :
    (list ≠ [] → Canonical type (addRange list min max)) ∧
      OfKind type.kind (addRange list min max) ∧
      ∀ x, x ∈ rlSet (addRange list min max) ↔ min.val ≤ x ∧ x ≤ max.val ∨ x ∈ rlSet list := by
  by_cases null : list = []
  · subst null
    obtain ⟨result, members⟩ := addRange_joined low high order (.nil source)
    exact ⟨fun some => absurd rfl some, ⟨source, same, result⟩, members⟩
  · have found := rlType_of_canonical canonical null
    obtain ⟨castLow, lowVal⟩ := svalCast_sameKind low same
    obtain ⟨castHigh, highVal⟩ := svalCast_sameKind high same
    have width : typeBits type ≥ typeBits min.type := by
      rw [low.1]
      unfold typeBits
      rw [same]
    have joined : Joined type min.val max.val list (addRange list min max) := by
      unfold addRange
      rw [found]
      dsimp only
      by_cases own : type = min.type
      · rw [if_pos own]
        have typed : source = type := low.1.symm.trans own.symm
        subst typed
        exact addRangeTyped_joined low high order canonical
      · rw [if_neg own, if_pos width, ← lowVal, ← highVal]
        refine addRangeTyped_joined castLow castHigh ?_ canonical
        rw [lowVal, highVal]
        exact order
    exact ⟨fun _ => joined.canonical, ⟨type, rfl, joined.canonical⟩, joined.mem_iff⟩

theorem addRanges_ofKind (first : OfKind kind list) (second : OfKind kind one) :
    OfKind kind (one.foldl (fun ret tmp => addRange ret tmp.min tmp.max) list) ∧
      ∀ x, x ∈ rlSet (one.foldl (fun ret tmp => addRange ret tmp.min tmp.max) list) ↔
        x ∈ rlSet one ∨ x ∈ rlSet list := by
  obtain ⟨source, sourceKind, canonical⟩ := second
  induction one generalizing list with
  | nil => exact ⟨first, fun x => (or_iff_right (mem_rlSet_nil x)).symm⟩
  | cons drange one ih =>
    obtain ⟨type, typeKind, start⟩ := first
    obtain ⟨low, high, order⟩ := canonical.head
    obtain ⟨-, result, members⟩ :=
      addRange_sameKind start low high order (sourceKind.trans typeKind.symm)
    rw [typeKind] at result
    obtain ⟨final, values⟩ := ih result canonical.tail
    refine ⟨final, fun x => ?_⟩
    rw [List.foldl_cons, values x, members x, mem_rlSet_cons, or_left_comm, or_assoc]

theorem OfKind.nil (kind : IntKind) : OfKind kind [] := ⟨⟨0, kind⟩, rfl, .nil _⟩

theorem rlUnion_ofKind (first : OfKind kind one) (second : OfKind kind two) :
    OfKind kind (rlUnion one two) ∧
      ∀ x, x ∈ rlSet (rlUnion one two) ↔ x ∈ rlSet one ∨ x ∈ rlSet two := by
  obtain ⟨start, members⟩ := addRanges_ofKind (OfKind.nil kind) first
  obtain ⟨result, values⟩ := addRanges_ofKind start second
  refine ⟨result, fun x => ?_⟩
  rw [rlUnion, values x, members x, or_iff_left (mem_rlSet_nil x), or_comm]

theorem allocRl_spec (low : min.OfType type) (high : max.OfType type) :
    Canonical type (allocRl min max) ∧
      ∀ x, x ∈ rlSet (allocRl min max) ↔ x ∈ endsSet type min.val max.val := by
  by_cases order : min.val ≤ max.val
  · rw [allocRl_eq low high order]
    refine ⟨.singleton low high order, fun x => ?_⟩
    rw [rlSet_singleton, endsSet, if_pos order]
  · have added := addRangeTyped_whole (.nil type)
    have least : (svalTypeMin type).val ≤ (svalTypeMax type).val := by
      rw [svalTypeMin_val, svalTypeMax_val]
      exact type.lo_le_hi
    unfold allocRl
    rw [svalCmp_ofType low high, low.1, if_pos (by simpa using order)]
    refine ⟨added.canonical, fun x => ?_⟩
    rw [added.mem_iff, or_iff_left (mem_rlSet_nil x), endsSet, if_neg order]

theorem allocWholeRl_spec (type : Ctype) :
    Canonical type (allocWholeRl (some type)) ∧
      ∀ x, x ∈ rlSet (allocWholeRl (some type)) ↔ type.lo ≤ x ∧ x ≤ type.hi := by
  obtain ⟨canonical, members⟩ := allocRl_spec (svalTypeMin_ofType type) (svalTypeMax_ofType type)
  refine ⟨canonical, fun x => ?_⟩
  rw [allocWholeRl, Option.getD_some, members, svalTypeMin_val, svalTypeMax_val, endsSet,
    if_pos type.lo_le_hi, Set.mem_Icc]

end OfKind

end SmatchFormal.RangeMath
