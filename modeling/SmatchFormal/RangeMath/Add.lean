import SmatchFormal.RangeMath.Shift

/-!
# Sums of range lists

`rl_binop` casts its lists to one type and joins the results for every pair of ranges, or,
when there are many of them, calls the operator once for the lists as a whole.  The operator
is a parameter here, since some of the operators call `rl_binop` for a sum or a product.
-/

namespace SmatchFormal.RangeMath

open SmatchFormal.Ranges SmatchFormal.Extra List

/-! ## The code -/

def rlHandleAdd (left right : RangeList) : RangeList :=
  if (knownZero left).isSome then right
  else if (knownZero right).isSome then left
  else if svalBinopOverflows (rlMin left) .add (rlMin right) then []
  else if svalBinopOverflows (rlMax left) .add (rlMax right) then []
  else
    allocRl (svalBinop (rlMin left) .add (rlMin right)) (svalBinop (rlMax left) .add (rlMax right))

def binopCast (op : Binop) (left right : RangeList) : RangeList × RangeList :=
  match op with
  | .rightShift | .leftShift =>
    (if typePositiveBitsOpt (rlType left) < 31 then castRl (some intCtype) left else left, right)
  | _ =>
    let castType := getBinopType left right
    (castRl (some castType) left, castRl (some castType) right)

def unionParts (handle : RangeList → RangeList → RangeList) (left right : RangeList) : RangeList :=
  left.foldl (fun ret drangeLeft => right.foldl (fun ret drangeRight =>
    rlUnion ret (handle (allocRl drangeLeft.min drangeLeft.max)
      (allocRl drangeRight.min drangeRight.max))) ret) []

def rlBinopOf (handle : RangeList → RangeList → RangeList) (op : Binop)
    (left right : RangeList) : RangeList :=
  if left = [] ∨ right = [] then []
  else if (rlToSval left).isSome && (rlToSval right).isSome then
    allocRl (svalBinop (rlMin left) op (rlMin right)) (svalBinop (rlMin left) op (rlMin right))
  else
    let lists := binopCast op left right
    if lists.1.length * lists.2.length > 6 then handle lists.1 lists.2
    else unionParts handle lists.1 lists.2

section Parts

variable {kind : IntKind} {handle : RangeList → RangeList → RangeList} {left right : RangeList}

theorem unionRow_ofKind {ret : RangeList} {drange : DataRange} (start : OfKind kind ret)
    (parts : ∀ r ∈ right,
      OfKind kind (handle (allocRl drange.min drange.max) (allocRl r.min r.max))) :
    OfKind kind (right.foldl (fun ret drangeRight =>
        rlUnion ret (handle (allocRl drange.min drange.max)
          (allocRl drangeRight.min drangeRight.max))) ret) ∧
      ∀ x, x ∈ rlSet (right.foldl (fun ret drangeRight =>
        rlUnion ret (handle (allocRl drange.min drange.max)
          (allocRl drangeRight.min drangeRight.max))) ret) ↔
        x ∈ rlSet ret ∨
          ∃ r ∈ right,
            x ∈ rlSet (handle (allocRl drange.min drange.max) (allocRl r.min r.max)) := by
  induction right generalizing ret with
  | nil => exact ⟨start, fun x => by simp⟩
  | cons first rest ih =>
    obtain ⟨joined, members⟩ := rlUnion_ofKind start (parts first mem_cons_self)
    obtain ⟨result, values⟩ := ih joined fun r member => parts r (mem_cons_of_mem _ member)
    refine ⟨result, fun x => ?_⟩
    rw [foldl_cons, values x, members x, or_assoc]
    simp only [mem_cons, exists_eq_or_imp]

theorem unionParts_ofKind (parts : ∀ l ∈ left, ∀ r ∈ right,
      OfKind kind (handle (allocRl l.min l.max) (allocRl r.min r.max))) :
    OfKind kind (unionParts handle left right) ∧
      ∀ x, x ∈ rlSet (unionParts handle left right) ↔ ∃ l ∈ left, ∃ r ∈ right,
        x ∈ rlSet (handle (allocRl l.min l.max) (allocRl r.min r.max)) := by
  have rows : ∀ ret, OfKind kind ret →
      OfKind kind (left.foldl (fun ret drangeLeft => right.foldl (fun ret drangeRight =>
        rlUnion ret (handle (allocRl drangeLeft.min drangeLeft.max)
          (allocRl drangeRight.min drangeRight.max))) ret) ret) ∧
      ∀ x, x ∈ rlSet (left.foldl (fun ret drangeLeft => right.foldl (fun ret drangeRight =>
        rlUnion ret (handle (allocRl drangeLeft.min drangeLeft.max)
          (allocRl drangeRight.min drangeRight.max))) ret) ret) ↔
        x ∈ rlSet ret ∨ ∃ l ∈ left, ∃ r ∈ right,
          x ∈ rlSet (handle (allocRl l.min l.max) (allocRl r.min r.max)) := by
    induction left with
    | nil => exact fun ret start => ⟨start, fun x => by simp⟩
    | cons first rest ih =>
      intro ret start
      obtain ⟨joined, members⟩ := unionRow_ofKind start (parts first mem_cons_self)
      obtain ⟨result, values⟩ :=
        ih (fun l member => parts l (mem_cons_of_mem _ member)) _ joined
      refine ⟨result, fun x => ?_⟩
      rw [foldl_cons, values x, members x, or_assoc]
      simp only [mem_cons, exists_eq_or_imp]
  obtain ⟨result, members⟩ := rows [] (OfKind.nil kind)
  refine ⟨result, fun x => ?_⟩
  rw [unionParts, members x, or_iff_right (mem_rlSet_nil x)]

end Parts

section Casts

variable {type source : Ctype} {left right : RangeList}

theorem castRl_sameKind (canonical : Canonical source left) (same : source.kind = type.kind) :
    Canonical type (castRl (some type) left) ∧ rlSet (castRl (some type) left) = rlSet left := by
  have width : typeBits source ≤ typeBits type := by
    unfold typeBits
    rw [same]
  refine ⟨(castRl_spec canonical).1, ?_⟩
  rw [castRl_wide canonical width]
  ext x
  constructor
  · rintro ⟨y, member, rfl⟩
    obtain ⟨low, high⟩ := canonical.mem_type member
    have keep : type.wrap y = y := IntKind.wrap_of_mem (by rwa [Ctype.lo, same] at low)
      (by rwa [Ctype.hi, same] at high)
    rwa [keep]
  · intro member
    obtain ⟨low, high⟩ := canonical.mem_type member
    exact ⟨x, member, IntKind.wrap_of_mem (by rwa [Ctype.lo, same] at low)
      (by rwa [Ctype.hi, same] at high)⟩

theorem length_of_rlSet {one two : RangeList} (first : Canonical source one)
    (second : Canonical type two) (same : rlSet one = rlSet two) : one.length = two.length := by
  have intervals := first.separated.eq_of_toSet_eq second.separated same
  have lengths := congrArg List.length intervals
  rwa [length_map, length_map] at lengths

/-- Lists of one type are cast to a type of its kind. -/
theorem getBinopType_kind (first : Canonical type left) (second : Canonical type right)
    (rank : IntRank type) (someLeft : left ≠ []) (someRight : right ≠ []) :
    (getBinopType left right).kind = type.kind := by
  have promoted := promoted_kind rank
  unfold getBinopType
  rw [rlType_of_canonical first someLeft, rlType_of_canonical second someRight]
  exact promoted

end Casts

section Sums

variable {type : Ctype} {left right : RangeList} {one two : Sval}

theorem svalBinop_add_fits (rank : IntRank type) (first : one.OfType type)
    (second : two.OfType type)
    (low : type.lo ≤ one.val + two.val) (high : one.val + two.val ≤ type.hi) :
    (svalBinop one .add two).OfType (getPromotedType type type) ∧
      (svalBinop one .add two).val = one.val + two.val ∧
      svalBinopOverflows one .add two = false := by
  have typed := svalBinop_ofType one .add two
  have value := svalBinop_add_val one two
  have overflow := @svalBinopOverflows_iff type one two .add _ rfl rank first second
  rw [first.1, second.1] at typed value
  refine ⟨typed, ?_, ?_⟩
  · rw [value]
    refine IntKind.wrap_of_mem ?_ ?_
    · rw [promoted_kind rank]
      exact low
    · rw [promoted_kind rank]
      exact high
  · rw [Bool.eq_false_iff, Ne, overflow, not_not]
    exact ⟨low, high⟩

/-- `rl_handle_add` of two lists whose sums stay in the type: the other list for a zero, else
the range between the sums of the ends. -/
theorem rlHandleAdd_cases (first : Canonical type left) (second : Canonical type right)
    (rank : IntRank type) (someLeft : left ≠ []) (someRight : right ≠ [])
    (low : type.lo ≤ (rlMin left).val + (rlMin right).val)
    (high : (rlMax left).val + (rlMax right).val ≤ type.hi) :
    ((∀ l, l ∈ rlSet left ↔ l = 0) ∧ rlHandleAdd left right = right) ∨
      ((∀ r, r ∈ rlSet right ↔ r = 0) ∧ rlHandleAdd left right = left) ∨
      (knownZero left = none ∧ knownZero right = none ∧
        Canonical (getPromotedType type type) (rlHandleAdd left right) ∧
        ∀ x, x ∈ rlSet (rlHandleAdd left right) ↔
          (rlMin left).val + (rlMin right).val ≤ x ∧ x ≤ (rlMax left).val + (rlMax right).val) := by
  unfold rlHandleAdd
  cases zeroLeft : knownZero left with
  | some sval => exact .inl ⟨(knownZero_eq_some first zeroLeft).2.2, rfl⟩
  | none =>
    cases zeroRight : knownZero right with
    | some sval => exact .inr (.inl ⟨(knownZero_eq_some second zeroRight).2.2, rfl⟩)
    | none =>
      have orderLeft := rlMin_le first (rlMax_mem first someLeft)
      have orderRight := rlMin_le second (rlMax_mem second someRight)
      obtain ⟨lowTyped, lowVal, lowFits⟩ := svalBinop_add_fits rank
        (rlMin_ofType first someLeft) (rlMin_ofType second someRight) low (by omega)
      obtain ⟨highTyped, highVal, highFits⟩ := svalBinop_add_fits rank
        (rlMax_ofType first someLeft) (rlMax_ofType second someRight) (by omega) high
      obtain ⟨canonical, members⟩ := allocRl_spec lowTyped highTyped
      refine .inr (.inr ⟨rfl, rfl, ?_⟩)
      rw [lowFits, highFits]
      refine ⟨canonical, fun x => ?_⟩
      have found := members x
      rwa [lowVal, highVal, endsSet_of_le (by omega), Set.mem_Icc] at found

/-- The sums of two ranges whose sums stay in the type. -/
theorem rlHandleAdd_ranges (rank : IntRank type) {first second : DataRange}
    (lowFirst : first.min.OfType type) (highFirst : first.max.OfType type)
    (lowSecond : second.min.OfType type) (highSecond : second.max.OfType type)
    (orderFirst : first.min.val ≤ first.max.val) (orderSecond : second.min.val ≤ second.max.val)
    (low : type.lo ≤ first.min.val + second.min.val)
    (high : first.max.val + second.max.val ≤ type.hi) :
    OfKind type.kind
        (rlHandleAdd (allocRl first.min first.max) (allocRl second.min second.max)) ∧
      ∀ x, x ∈ rlSet (rlHandleAdd (allocRl first.min first.max)
          (allocRl second.min second.max)) ↔
        first.min.val + second.min.val ≤ x ∧ x ≤ first.max.val + second.max.val := by
  rw [allocRl_eq lowFirst highFirst orderFirst, allocRl_eq lowSecond highSecond orderSecond]
  have canonicalFirst : Canonical type [first] := .singleton lowFirst highFirst orderFirst
  have canonicalSecond : Canonical type [second] := .singleton lowSecond highSecond orderSecond
  rcases rlHandleAdd_cases canonicalFirst canonicalSecond rank (cons_ne_nil _ _)
    (cons_ne_nil _ _) low high with ⟨zero, same⟩ | ⟨zero, same⟩ | ⟨-, -, canonical, members⟩
  · rw [same]
    have start := (zero first.min.val).mp (by rw [rlSet_singleton]; exact ⟨le_refl _, orderFirst⟩)
    have last := (zero first.max.val).mp (by rw [rlSet_singleton]; exact ⟨orderFirst, le_refl _⟩)
    refine ⟨⟨type, rfl, canonicalSecond⟩, fun x => ?_⟩
    rw [rlSet_singleton, Set.mem_Icc]
    omega
  · rw [same]
    have start :=
      (zero second.min.val).mp (by rw [rlSet_singleton]; exact ⟨le_refl _, orderSecond⟩)
    have last :=
      (zero second.max.val).mp (by rw [rlSet_singleton]; exact ⟨orderSecond, le_refl _⟩)
    refine ⟨⟨type, rfl, canonicalFirst⟩, fun x => ?_⟩
    rw [rlSet_singleton, Set.mem_Icc]
    omega
  · exact ⟨⟨_, promoted_kind rank, canonical⟩, members⟩

/-! ## A known summand -/

theorem length_of_single (canonical : Canonical type left) {a : Int}
    (single : ∀ x, x ∈ rlSet left ↔ x = a) : left.length = 1 := by
  cases left with
  | nil => exact absurd ((single a).mpr rfl) (mem_rlSet_nil a)
  | cons drange rest =>
    cases rest with
    | nil => rfl
    | cons next rest =>
      have order := canonical.head.2.2
      have gap := @Canonical.gap _ _ _ canonical next mem_cons_self
      have orderNext := canonical.tail.head.2.2
      have start := (single drange.min.val).mp
        ((mem_rlSet_iff _ _).mpr ⟨drange, mem_cons_self, le_refl _, order⟩)
      have later := (single next.min.val).mp ((mem_rlSet_iff _ _).mpr
        ⟨next, mem_cons_of_mem _ mem_cons_self, le_refl _, orderNext⟩)
      omega

/-- The ranges of lists that denote one set have the same ends. -/
theorem exists_range_iff {source : Ctype} {one two : RangeList} (first : Canonical source one)
    (second : Canonical type two) (same : rlSet one = rlSet two) (test : Int × Int → Prop) :
    (∃ drange ∈ one, test drange.interval) ↔ ∃ drange ∈ two, test drange.interval := by
  have intervals := first.separated.eq_of_toSet_eq second.separated same
  have mapped : ∀ rl : RangeList, (∃ drange ∈ rl, test drange.interval) ↔
      ∃ ends ∈ rl.map DataRange.interval, test ends := by
    intro rl
    simp only [mem_map, exists_exists_and_eq_and]
  rw [mapped one, mapped two, intervals]

/-- What a list and a known value add up to: each range on its own, or the list as a whole
when it has more than six. -/
def SumOfKnown (rl : RangeList) (a x : Int) : Prop :=
  if rl.length ≤ 6 then x - a ∈ rlSet rl
  else if a = 0 then x ∈ rlSet rl
  else (rlMin rl).val + a ≤ x ∧ x ≤ (rlMax rl).val + a

theorem binopCast_spec (first : Canonical type left) (second : Canonical type right)
    (rank : IntRank type) (someLeft : left ≠ []) (someRight : right ≠ []) :
    ∃ castType : Ctype, castType.kind = type.kind ∧
      Canonical castType (binopCast .add left right).1 ∧
      Canonical castType (binopCast .add left right).2 ∧
      rlSet (binopCast .add left right).1 = rlSet left ∧
      rlSet (binopCast .add left right).2 = rlSet right := by
  have kinds := getBinopType_kind first second rank someLeft someRight
  obtain ⟨castLeft, setLeft⟩ :=
    @castRl_sameKind (getBinopType left right) type left first kinds.symm
  obtain ⟨castRight, setRight⟩ :=
    @castRl_sameKind (getBinopType left right) type right second kinds.symm
  exact ⟨_, kinds, castLeft, castRight, setLeft, setRight⟩

theorem range_ends (canonical : Canonical type left) {drange : DataRange} (member : drange ∈ left) :
    drange.min.val ∈ rlSet left ∧ drange.max.val ∈ rlSet left := by
  have order := canonical.ordered member
  exact ⟨(mem_rlSet_iff _ _).mpr ⟨drange, member, le_refl _, order⟩,
    (mem_rlSet_iff _ _).mpr ⟨drange, member, order, le_refl _⟩⟩

section

variable (first : Canonical type left) (second : Canonical type right) (rank : IntRank type)
  (someLeft : left ≠ []) (someRight : right ≠ [])
  (low : type.lo ≤ (rlMin left).val + (rlMin right).val)
  (high : (rlMax left).val + (rlMax right).val ≤ type.hi)
include first second rank someLeft someRight low high

theorem castParts_spec (few : left.length * right.length ≤ 6) :
    let result :=
      if (binopCast .add left right).1.length * (binopCast .add left right).2.length > 6 then
        rlHandleAdd (binopCast .add left right).1 (binopCast .add left right).2
      else unionParts rlHandleAdd (binopCast .add left right).1 (binopCast .add left right).2
    OfKind type.kind result ∧ ∀ x, x ∈ rlSet result ↔
      ∃ l ∈ left, ∃ r ∈ right, l.min.val + r.min.val ≤ x ∧ x ≤ l.max.val + r.max.val := by
  obtain ⟨castType, kinds, castLeft, castRight, setLeft, setRight⟩ :=
    binopCast_spec first second rank someLeft someRight
  have castRank : IntRank castType := by
    unfold IntRank typeBits at *
    rwa [kinds]
  have bottom : castType.lo = type.lo := by
    unfold Ctype.lo
    rw [kinds]
  have top : castType.hi = type.hi := by
    unfold Ctype.hi
    rw [kinds]
  have sizes : ¬ (binopCast .add left right).1.length *
      (binopCast .add left right).2.length > 6 := by
    rw [length_of_rlSet castLeft first setLeft, length_of_rlSet castRight second setRight]
    omega
  dsimp only
  rw [if_neg sizes]
  have parts : ∀ l ∈ (binopCast .add left right).1, ∀ r ∈ (binopCast .add left right).2,
      OfKind castType.kind (rlHandleAdd (allocRl l.min l.max) (allocRl r.min r.max)) ∧
        ∀ x, x ∈ rlSet (rlHandleAdd (allocRl l.min l.max) (allocRl r.min r.max)) ↔
          l.min.val + r.min.val ≤ x ∧ x ≤ l.max.val + r.max.val := by
    intro l inLeft r inRight
    obtain ⟨minLeft, maxLeft⟩ := range_ends castLeft inLeft
    obtain ⟨minRight, maxRight⟩ := range_ends castRight inRight
    rw [setLeft] at minLeft maxLeft
    rw [setRight] at minRight maxRight
    have leastLeft := rlMin_le first minLeft
    have leastRight := rlMin_le second minRight
    have greatestLeft := le_rlMax first maxLeft
    have greatestRight := le_rlMax second maxRight
    obtain ⟨lowLeft, highLeft⟩ := castLeft.typed l inLeft
    obtain ⟨lowRight, highRight⟩ := castRight.typed r inRight
    exact rlHandleAdd_ranges castRank lowLeft highLeft lowRight highRight
      (castLeft.ordered inLeft) (castRight.ordered inRight) (by omega) (by omega)
  obtain ⟨kept, members⟩ :=
    unionParts_ofKind fun l inLeft r inRight => (parts l inLeft r inRight).1
  refine ⟨kinds ▸ kept, fun x => ?_⟩
  rw [members x]
  have sums : (∃ l ∈ (binopCast .add left right).1, ∃ r ∈ (binopCast .add left right).2,
        x ∈ rlSet (rlHandleAdd (allocRl l.min l.max) (allocRl r.min r.max))) ↔
      ∃ l ∈ (binopCast .add left right).1, ∃ r ∈ (binopCast .add left right).2,
        l.min.val + r.min.val ≤ x ∧ x ≤ l.max.val + r.max.val := by
    constructor
    · rintro ⟨l, inLeft, r, inRight, inside⟩
      exact ⟨l, inLeft, r, inRight, ((parts l inLeft r inRight).2 x).mp inside⟩
    · rintro ⟨l, inLeft, r, inRight, inside⟩
      exact ⟨l, inLeft, r, inRight, ((parts l inLeft r inRight).2 x).mpr inside⟩
  rw [sums]
  have rows : ∀ l : Int × Int,
      (∃ r ∈ (binopCast .add left right).2, l.1 + r.min.val ≤ x ∧ x ≤ l.2 + r.max.val) ↔
        ∃ r ∈ right, l.1 + r.min.val ≤ x ∧ x ≤ l.2 + r.max.val :=
    fun l => exists_range_iff castRight second setRight fun r => l.1 + r.1 ≤ x ∧ x ≤ l.2 + r.2
  have columns := exists_range_iff castLeft first setLeft fun l =>
    ∃ r ∈ (binopCast .add left right).2, l.1 + r.min.val ≤ x ∧ x ≤ l.2 + r.max.val
  refine columns.trans (exists_congr fun l => and_congr_right fun _ => ?_)
  exact rows l.interval

theorem rlBinop_add_few (few : left.length * right.length ≤ 6) :
    OfKind type.kind (rlBinopOf rlHandleAdd .add left right) ∧
      ∀ x, x ∈ rlSet (rlBinopOf rlHandleAdd .add left right) ↔
        ∃ l ∈ left, ∃ r ∈ right, l.min.val + r.min.val ≤ x ∧ x ≤ l.max.val + r.max.val := by
  unfold rlBinopOf
  rw [if_neg (fun either => either.elim someLeft someRight)]
  cases foundLeft : rlToSval left with
  | some leftSval =>
    cases foundRight : rlToSval right with
    | some rightSval =>
      have minLeft := rlMin_ofType first someLeft
      have minRight := rlMin_ofType second someRight
      have orderLeft := rlMin_le first (rlMax_mem first someLeft)
      have orderRight := rlMin_le second (rlMax_mem second someRight)
      obtain ⟨-, membersLeft⟩ := rlToSval_eq_some first foundLeft
      obtain ⟨-, membersRight⟩ := rlToSval_eq_some second foundRight
      obtain ⟨typed, value, -⟩ := svalBinop_add_fits rank minLeft minRight low (by omega)
      obtain ⟨canonical, members⟩ := allocRl_spec typed typed
      have leastLeft := (membersLeft _).mp (rlMin_mem first someLeft)
      have leastRight := (membersRight _).mp (rlMin_mem second someRight)
      rw [Option.isSome_some, Option.isSome_some, Bool.and_self, if_pos rfl]
      refine ⟨⟨_, promoted_kind rank, canonical⟩, fun x => ?_⟩
      rw [members, endsSet_of_le (le_refl _), value, Set.mem_Icc]
      have ends : ∀ l ∈ left, ∀ r ∈ right, l.min.val = leftSval.val ∧ l.max.val = leftSval.val ∧
          r.min.val = rightSval.val ∧ r.max.val = rightSval.val := by
        intro l inLeft r inRight
        obtain ⟨lowLeft, highLeft⟩ := range_ends first inLeft
        obtain ⟨lowRight, highRight⟩ := range_ends second inRight
        exact ⟨(membersLeft _).mp lowLeft, (membersLeft _).mp highLeft,
          (membersRight _).mp lowRight, (membersRight _).mp highRight⟩
      constructor
      · intro inside
        obtain ⟨l, inLeft, -⟩ := (mem_rlSet_iff _ _).mp (rlMin_mem first someLeft)
        obtain ⟨r, inRight, -⟩ := (mem_rlSet_iff _ _).mp (rlMin_mem second someRight)
        have same := ends l inLeft r inRight
        exact ⟨l, inLeft, r, inRight, by omega, by omega⟩
      · rintro ⟨l, inLeft, r, inRight, inside⟩
        have same := ends l inLeft r inRight
        omega
    | none =>
      rw [Option.isSome_some, Option.isSome_none, Bool.and_false, if_neg Bool.false_ne_true]
      exact castParts_spec first second rank someLeft someRight low high few
  | none =>
    rw [Option.isSome_none, Bool.false_and, if_neg Bool.false_ne_true]
    exact castParts_spec first second rank someLeft someRight low high few

theorem rlBinop_add_many (many : 6 < left.length * right.length) :
    OfKind type.kind (rlBinopOf rlHandleAdd .add left right) ∧
    (((∀ l, l ∈ rlSet left ↔ l = 0) ∧
        rlSet (rlBinopOf rlHandleAdd .add left right) = rlSet right) ∨
      ((∀ r, r ∈ rlSet right ↔ r = 0) ∧
        rlSet (rlBinopOf rlHandleAdd .add left right) = rlSet left) ∨
      ((∃ l ∈ rlSet left, l ≠ 0) ∧ (∃ r ∈ rlSet right, r ≠ 0) ∧
        ∀ x, x ∈ rlSet (rlBinopOf rlHandleAdd .add left right) ↔
          (rlMin left).val + (rlMin right).val ≤ x ∧
            x ≤ (rlMax left).val + (rlMax right).val)) := by
  obtain ⟨castType, kinds, castLeft, castRight, setLeft, setRight⟩ :=
    binopCast_spec first second rank someLeft someRight
  have castRank : IntRank castType := by
    unfold IntRank typeBits at *
    rwa [kinds]
  have bottom : castType.lo = type.lo := by
    unfold Ctype.lo
    rw [kinds]
  have top : castType.hi = type.hi := by
    unfold Ctype.hi
    rw [kinds]
  have notSingle : ((rlToSval left).isSome && (rlToSval right).isSome) = false := by
    cases foundLeft : rlToSval left with
    | none => rfl
    | some leftSval =>
      cases foundRight : rlToSval right with
      | none => rfl
      | some rightSval =>
        have oneLeft := length_of_single first (rlToSval_eq_some first foundLeft).2
        have oneRight := length_of_single second (rlToSval_eq_some second foundRight).2
        rw [oneLeft, oneRight] at many
        exact absurd many (by decide)
  have sizes : (binopCast .add left right).1.length * (binopCast .add left right).2.length > 6 := by
    rw [length_of_rlSet castLeft first setLeft, length_of_rlSet castRight second setRight]
    exact many
  have result : rlBinopOf rlHandleAdd .add left right =
      rlHandleAdd (binopCast .add left right).1 (binopCast .add left right).2 := by
    unfold rlBinopOf
    rw [if_neg (fun either => either.elim someLeft someRight), notSingle,
      if_neg Bool.false_ne_true]
    exact if_pos sizes
  obtain ⟨leastLeft, greatestLeft⟩ := ends_of_rlSet castLeft first setLeft someLeft
  obtain ⟨leastRight, greatestRight⟩ := ends_of_rlSet castRight second setRight someRight
  have someCastLeft : (binopCast .add left right).1 ≠ [] :=
    nonempty_of_mem (setLeft ▸ rlMin_mem first someLeft)
  have someCastRight : (binopCast .add left right).2 ≠ [] :=
    nonempty_of_mem (setRight ▸ rlMin_mem second someRight)
  rw [result, ← setLeft, ← setRight, ← leastLeft, ← leastRight, ← greatestLeft, ← greatestRight]
  rcases rlHandleAdd_cases castLeft castRight castRank someCastLeft someCastRight (by omega)
    (by omega) with ⟨zero, same⟩ | ⟨zero, same⟩ | ⟨noneLeft, noneRight, canonical, members⟩
  · exact ⟨⟨castType, kinds, by rw [same]; exact castRight⟩, .inl ⟨zero, by rw [same]⟩⟩
  · exact ⟨⟨castType, kinds, by rw [same]; exact castLeft⟩, .inr (.inl ⟨zero, by rw [same]⟩)⟩
  · refine ⟨⟨_, (promoted_kind castRank).trans kinds, canonical⟩, ?_⟩
    exact .inr (.inr ⟨knownZero_eq_none castLeft someCastLeft noneLeft,
      knownZero_eq_none castRight someCastRight noneRight, members⟩)

end

theorem rlBinop_add_right (first : Canonical type left) (second : Canonical type right)
    (rank : IntRank type) (someLeft : left ≠ []) {a : Int}
    (single : ∀ x, x ∈ rlSet right ↔ x = a) (low : type.lo ≤ (rlMin left).val + a)
    (high : (rlMax left).val + a ≤ type.hi) :
    OfKind type.kind (rlBinopOf rlHandleAdd .add left right) ∧
      ∀ x, x ∈ rlSet (rlBinopOf rlHandleAdd .add left right) ↔ SumOfKnown left a x := by
  have member := (single a).mpr rfl
  have someRight := nonempty_of_mem member
  have least := (single _).mp (rlMin_mem second someRight)
  have greatest := (single _).mp (rlMax_mem second someRight)
  have one := length_of_single second single
  unfold SumOfKnown
  split_ifs with few zero
  · obtain ⟨kept, members⟩ := rlBinop_add_few first second rank someLeft someRight (by omega)
      (by omega) (by rw [one]; omega)
    refine ⟨kept, fun x => ?_⟩
    rw [members, mem_rlSet_iff]
    constructor
    · rintro ⟨l, inLeft, r, inRight, inside⟩
      obtain ⟨start, last⟩ := range_ends second inRight
      have lowEnd := (single _).mp start
      have highEnd := (single _).mp last
      exact ⟨l, inLeft, by omega, by omega⟩
    · rintro ⟨l, inLeft, inside⟩
      obtain ⟨r, inRight, inside'⟩ := (mem_rlSet_iff _ _).mp member
      obtain ⟨start, last⟩ := range_ends second inRight
      have lowEnd := (single _).mp start
      have highEnd := (single _).mp last
      exact ⟨l, inLeft, r, inRight, by omega, by omega⟩
  · obtain ⟨kept, ⟨zeroLeft, -⟩ | ⟨-, same⟩ | ⟨-, ⟨r, inRight, other⟩, -⟩⟩ :=
      rlBinop_add_many first second rank someLeft someRight (by omega) (by omega)
        (by rw [one]; omega)
    · rw [length_of_single first zeroLeft] at few
      exact absurd (by decide) few
    · exact ⟨kept, fun x => by rw [same]⟩
    · exact absurd ((single r).mp inRight |>.trans zero) other
  · obtain ⟨kept, ⟨zeroLeft, -⟩ | ⟨zeroRight, -⟩ | ⟨-, -, members⟩⟩ :=
      rlBinop_add_many first second rank someLeft someRight (by omega) (by omega)
        (by rw [one]; omega)
    · rw [length_of_single first zeroLeft] at few
      exact absurd (by decide) few
    · exact absurd ((zeroRight a).mp member) zero
    · exact ⟨kept, fun x => by rw [members x, least, greatest]⟩

theorem rlBinop_add_left (first : Canonical type left) (second : Canonical type right)
    (rank : IntRank type) (someRight : right ≠ []) {a : Int}
    (single : ∀ x, x ∈ rlSet left ↔ x = a) (low : type.lo ≤ a + (rlMin right).val)
    (high : a + (rlMax right).val ≤ type.hi) :
    OfKind type.kind (rlBinopOf rlHandleAdd .add left right) ∧
      ∀ x, x ∈ rlSet (rlBinopOf rlHandleAdd .add left right) ↔ SumOfKnown right a x := by
  have member := (single a).mpr rfl
  have someLeft := nonempty_of_mem member
  have least := (single _).mp (rlMin_mem first someLeft)
  have greatest := (single _).mp (rlMax_mem first someLeft)
  have one := length_of_single first single
  unfold SumOfKnown
  split_ifs with few zero
  · obtain ⟨kept, members⟩ := rlBinop_add_few first second rank someLeft someRight (by omega)
      (by omega) (by rw [one]; omega)
    refine ⟨kept, fun x => ?_⟩
    rw [members, mem_rlSet_iff]
    constructor
    · rintro ⟨l, inLeft, r, inRight, inside⟩
      obtain ⟨start, last⟩ := range_ends first inLeft
      have lowEnd := (single _).mp start
      have highEnd := (single _).mp last
      exact ⟨r, inRight, by omega, by omega⟩
    · rintro ⟨r, inRight, inside⟩
      obtain ⟨l, inLeft, inside'⟩ := (mem_rlSet_iff _ _).mp member
      obtain ⟨start, last⟩ := range_ends first inLeft
      have lowEnd := (single _).mp start
      have highEnd := (single _).mp last
      exact ⟨l, inLeft, r, inRight, by omega, by omega⟩
  · obtain ⟨kept, ⟨-, same⟩ | ⟨zeroRight, -⟩ | ⟨⟨l, inLeft, other⟩, -⟩⟩ :=
      rlBinop_add_many first second rank someLeft someRight (by omega) (by omega)
        (by rw [one]; omega)
    · exact ⟨kept, fun x => by rw [same]⟩
    · rw [length_of_single second zeroRight] at few
      exact absurd (by decide) few
    · exact absurd ((single l).mp inLeft |>.trans zero) other
  · obtain ⟨kept, ⟨zeroLeft, -⟩ | ⟨zeroRight, -⟩ | ⟨-, -, members⟩⟩ :=
      rlBinop_add_many first second rank someLeft someRight (by omega) (by omega)
        (by rw [one]; omega)
    · exact absurd ((zeroLeft a).mp member) zero
    · rw [length_of_single second zeroRight] at few
      exact absurd (by decide) few
    · refine ⟨kept, fun x => ?_⟩
      rw [members x, least, greatest, Int.add_comm, Int.add_comm a]

end Sums

end SmatchFormal.RangeMath
