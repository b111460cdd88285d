import SmatchFormal.Ranges.Cast

/-!
# What a cast of a range list contains

`castRl_spec` describes the values of `cast_rl(type, rl)` range by range.  A
range list loses values exactly when one of its ranges has the shape
`LosesValues` and the other ranges do not make up for it.
-/

namespace SmatchFormal.Ranges

open List

section Fold

variable {source type : Ctype} {rl ret : RangeList}

theorem castLoop_added (canonical : Canonical source rl) (start : Canonical type ret) :
    Added type {x | ∃ drange ∈ rl, x ∈ castEnds source type drange.min.val drange.max.val} ret
      (rl.foldl (fun ret tmp => addRangeT type ret tmp.min tmp.max) ret) := by
  induction rl generalizing ret with
  | nil =>
    refine ⟨start, ?_⟩
    intro x
    simp
  | cons drange rl ih =>
    obtain ⟨low, high, order⟩ := canonical.head
    have step := addRangeT_added low high order start
    have rest := ih canonical.tail step.canonical
    refine (step.trans rest).congr ?_
    ext x
    simp only [Set.mem_union, Set.mem_ofPred_eq, mem_cons, exists_eq_or_imp]

theorem rlIsSane_of_canonical (canonical : Canonical type rl) : rlIsSane rl = true := by
  unfold rlIsSane
  cases rl with
  | nil => rfl
  | cons first rl =>
    simp only [rlType, canonical.head.1.1]
    apply all_eq_true.mpr
    intro drange member
    obtain ⟨low, high⟩ := canonical.typed drange member
    have order := canonical.ordered member
    rw [(svalFits_iff type low).mpr low.2, (svalFits_iff type high).mpr high.2,
      svalCmp_ofType low high]
    simpa using order

theorem rlType_of_canonical (canonical : Canonical type rl) (nonempty : rl ≠ []) :
    rlType rl = some type := by
  cases rl with
  | nil => exact absurd rfl nonempty
  | cons first rl => rw [rlType, canonical.head.1.1]

theorem rlTypeConsistent_of_canonical (canonical : Canonical type rl) :
    rlTypeConsistent rl = true := by
  unfold rlTypeConsistent
  apply all_eq_true.mpr
  intro drange member
  obtain ⟨low, high⟩ := canonical.typed drange member
  rw [rlType_of_canonical canonical (ne_nil_of_mem member), low.1, high.1]
  simp

theorem castRl_self (canonical : Canonical type rl) : castRl (some type) rl = rl := by
  unfold castRl
  by_cases nonempty : rl = []
  · rw [nonempty]
    rfl
  · simp only [nonempty, if_false, rlIsSane_of_canonical canonical, Bool.not_true,
      Bool.false_eq_true, rlType_of_canonical canonical nonempty, beq_self_eq_true,
      rlTypeConsistent_of_canonical canonical, Bool.and_self, if_true]

theorem castRl_nil (type : Ctype) : castRl (some type) [] = [] := rfl

theorem nonempty_of_mem {x : Int} (member : x ∈ rlSet rl) : rl ≠ [] := by
  rintro rfl
  exact mem_rlSet_nil x member

/-- A canonical list of values is the null list only when it denotes nothing. -/
theorem exists_mem_of_ne_nil (canonical : Canonical type rl) (nonempty : rl ≠ []) :
    ∃ x, x ∈ rlSet rl := by
  cases rl with
  | nil => exact absurd rfl nonempty
  | cons drange rl => exact ⟨drange.min.val, .inl ⟨Int.le_refl _, canonical.head.2.2⟩⟩

end Fold

section Bool

variable {source : Ctype} {rl : RangeList}

theorem boolFlags_iff {drange : DataRange} (low : drange.min.OfType source)
    (high : drange.max.OfType source) (order : drange.min.val ≤ drange.max.val)
    (flags : Bool × Bool) :
    ((boolFlags flags drange).1 = true ↔
        flags.1 = true ∨ drange.min.val ≠ 0 ∨ drange.max.val ≠ 0) ∧
      ((boolFlags flags drange).2 = true ↔
        flags.2 = true ∨ drange.min.val ≤ 0 ∧ 0 ≤ drange.max.val) := by
  have positive : drange.min.val < 0 → (drange.max.value > 0 ↔ drange.max.val > 0) := by
    intro negative
    have signed : typeUnsigned drange.max.type = false := by
      cases sign : typeUnsigned drange.max.type with
      | false => rfl
      | true =>
        have least : source.lo = 0 := IntKind.lo_of_unsigned (by rw [← high.1]; exact sign)
        have bound := low.2.1
        omega
    rw [Sval.val_of_signed signed]
  unfold boolFlags
  have bottom := svalIsNegative_iff drange.min
  have top := svalIsNegative_iff drange.max
  have first := drange.min.raw_eq_zero_iff
  have last := drange.max.raw_eq_zero_iff
  by_cases below : drange.max.val < 0
  · rw [bottom.mpr (by omega), top.mpr below, Bool.and_self, if_pos rfl]
    simp only [Bool.or_eq_true_iff, bne_iff_ne, ne_eq, first, last, or_assoc]
    exact ⟨trivial, (or_iff_left (by omega)).symm⟩
  · have clear : svalIsNegative drange.max = false :=
      Bool.eq_false_iff.mpr (fun found => below (top.mp found))
    rw [clear, Bool.and_false, if_neg Bool.false_ne_true]
    simp only [Bool.or_eq_true_iff, Bool.and_eq_true_iff, bne_iff_ne, beq_iff_eq, ne_eq,
      first, last,
      bottom, decide_eq_true_eq, or_assoc]
    refine ⟨trivial, or_congr_right ?_⟩
    by_cases negative : drange.min.val < 0
    · rw [positive negative]
      omega
    · omega

/-- The flags after the loop say which truth values the list has. -/
theorem boolFlags_foldl (canonical : Canonical source rl) (flags : Bool × Bool) :
    ((rl.foldl boolFlags flags).1 = true ↔ flags.1 = true ∨ ∃ x ∈ rlSet rl, x ≠ 0) ∧
      ((rl.foldl boolFlags flags).2 = true ↔ flags.2 = true ∨ 0 ∈ rlSet rl) := by
  induction rl generalizing flags with
  | nil => simp
  | cons drange rl ih =>
    obtain ⟨low, high, order⟩ := canonical.head
    obtain ⟨one, zero⟩ := boolFlags_iff low high order flags
    obtain ⟨restOne, restZero⟩ := ih canonical.tail (boolFlags flags drange)
    rw [foldl_cons, restOne, restZero, one, zero, or_assoc, or_assoc, mem_rlSet_cons]
    refine ⟨or_congr_right ?_, or_assoc⟩
    constructor
    · rintro (first | last | ⟨x, inside, nonzero⟩)
      · exact ⟨_, .inl ⟨Int.le_refl _, order⟩, first⟩
      · exact ⟨_, .inl ⟨order, Int.le_refl _⟩, last⟩
      · exact ⟨x, .inr inside, nonzero⟩
    · rintro ⟨x, member, nonzero⟩
      rcases (mem_rlSet_cons x drange rl).mp member with inside | inside
      · by_cases first : drange.min.val = 0
        · exact .inr (.inl (by omega))
        · exact .inl first
      · exact .inr (.inr ⟨x, inside, nonzero⟩)

theorem castToBool_spec (canonical : Canonical source rl) (nonempty : rl ≠ []) :
    Canonical boolCtype (castToBool rl) ∧
      rlSet (castToBool rl) = boolCtype.wrap '' rlSet rl := by
  obtain ⟨x, member⟩ := exists_mem_of_ne_nil canonical nonempty
  obtain ⟨one, zero⟩ := boolFlags_foldl canonical (false, false)
  unfold castToBool
  generalize rl.foldl boolFlags (false, false) = flags at one zero ⊢
  simp only [Bool.false_eq_true, false_or] at one zero
  have small : ∀ bit : Bool, (⟨boolCtype, if bit then 1 else 0⟩ : Sval).OfType boolCtype ∧
      (⟨boolCtype, if bit then 1 else 0⟩ : Sval).val = if bit then 1 else 0 := by decide
  have flipped : (if flags.2 then (0 : BitVec 64) else 1) = if !flags.2 then 1 else 0 := by
    cases flags.2 <;> rfl
  obtain ⟨low, lowVal⟩ := small (!flags.2)
  obtain ⟨high, highVal⟩ := small flags.1
  -- A list without zero has a value that is not zero.
  have order : (if !flags.2 then (1 : Int) else 0) ≤ if flags.1 then 1 else 0 := by
    cases hasZero : flags.2 with
    | true => cases flags.1 <;> decide
    | false =>
      have nonzero : x ≠ 0 := by
        rintro rfl
        exact absurd (zero.mpr member) (by rw [hasZero]; exact Bool.false_ne_true)
      rw [one.mpr ⟨x, member, nonzero⟩]
      decide
  simp only [flipped]
  obtain ⟨result, members⟩ := addRangeTyped_joined low high (by rw [lowVal, highVal]; exact order)
    (.nil boolCtype)
  rw [lowVal, highVal] at members
  refine ⟨result, ?_⟩
  ext y
  have image : y ∈ boolCtype.wrap '' rlSet rl ↔
      y = 0 ∧ flags.2 = true ∨ y = 1 ∧ flags.1 = true := by
    rw [one, zero]
    constructor
    · rintro ⟨x, inside, rfl⟩
      by_cases null : x = 0
      · exact .inl ⟨by rw [null]; rfl, null ▸ inside⟩
      · exact .inr ⟨if_neg null, x, inside, null⟩
    · rintro (⟨rfl, inside⟩ | ⟨rfl, x, inside, nonzero⟩)
      · exact ⟨0, inside, rfl⟩
      · exact ⟨x, inside, if_neg nonzero⟩
  rw [members y, image]
  cases flags.1 <;> cases flags.2 <;> simp at order ⊢ <;> omega

end Bool

/-! ## The values of a cast -/

def castValues (source type : Ctype) (low high : Int) : Set Int :=
  if type = boolCtype then type.wrap '' Set.Icc low high else castEnds source type low high

section CastRl

variable {source type : Ctype} {rl : RangeList} {low high : Int}

theorem castValues_cases (first : source.lo ≤ low) (order : low ≤ high) (last : high ≤ source.hi) :
    typeBits type < typeBits source ∧ castValues source type low high = Set.Icc type.lo type.hi ∨
      castValues source type low high = type.wrap '' Set.Icc low high ∨
      LosesValues source type low high ∧
        castValues source type low high = Set.Icc low (high - 2 ^ typeBits type) := by
  unfold castValues
  by_cases truth : type = boolCtype
  · exact .inr (.inl (if_pos truth))
  · rw [if_neg truth]
    exact castEnds_cases first order last

/-- Values of a type at least as wide are converted one by one. -/
theorem castValues_wide (wide : typeBits source ≤ typeBits type) (first : source.lo ≤ low)
    (order : low ≤ high) (last : high ≤ source.hi) :
    castValues source type low high = type.wrap '' Set.Icc low high := by
  rcases castValues_cases first order last with ⟨narrow, -⟩ | image | ⟨loses, -⟩
  · exact absurd wide (Nat.not_le.mpr narrow)
  · exact image
  · exact absurd wide (Nat.not_le.mpr loses.2.2.1)

theorem castValues_nonempty (first : source.lo ≤ low) (order : low ≤ high)
    (last : high ≤ source.hi) : (castValues source type low high).Nonempty := by
  rcases castValues_cases first order last with ⟨-, whole⟩ | image | ⟨loses, lost⟩
  · rw [whole]
    exact ⟨type.lo, Int.le_refl _, type.lo_le_hi⟩
  · rw [image]
    exact ⟨type.wrap low, low, ⟨Int.le_refl _, order⟩, rfl⟩
  · rw [lost]
    have ends := loses.2.2.2.2.2.2
    exact ⟨low, Int.le_refl _, by omega⟩

theorem ends_of_canonical {drange : DataRange} (canonical : Canonical source rl)
    (member : drange ∈ rl) :
    source.lo ≤ drange.min.val ∧ drange.min.val ≤ drange.max.val ∧ drange.max.val ≤ source.hi := by
  obtain ⟨low, high⟩ := canonical.typed drange member
  exact ⟨low.2.1, canonical.ordered member, high.2.2⟩

/-- `cast_rl` converts a canonical list range by range into a canonical list. -/
theorem castRl_spec (canonical : Canonical source rl) :
    Canonical type (castRl (some type) rl) ∧
      ∀ x, x ∈ rlSet (castRl (some type) rl) ↔
        ∃ drange ∈ rl, x ∈ castValues source type drange.min.val drange.max.val := by
  by_cases nonempty : rl = []
  · rw [nonempty]
    exact ⟨.nil type, fun x => by simp [castRl_nil]⟩
  by_cases same : type = source
  · subst same
    rw [castRl_self canonical]
    refine ⟨canonical, fun x => ?_⟩
    rw [mem_rlSet_iff]
    apply exists_congr
    intro drange
    apply and_congr_right
    intro member
    obtain ⟨first, order, last⟩ := ends_of_canonical canonical member
    rw [castValues_wide (Nat.le_refl _) first order last]
    constructor
    · intro inside
      exact ⟨x, inside, IntKind.wrap_of_mem (Int.le_trans first inside.1)
        (Int.le_trans inside.2 last)⟩
    · rintro ⟨y, inside, rfl⟩
      have keep : type.wrap y = y := IntKind.wrap_of_mem (Int.le_trans first inside.1)
        (Int.le_trans inside.2 last)
      rwa [keep]
  have other : (rlType rl == some type) = false := by
    rw [rlType_of_canonical canonical nonempty]
    simpa using fun found => same found.symm
  unfold castRl
  simp only [nonempty, if_false, rlIsSane_of_canonical canonical, Bool.not_true,
    Bool.false_eq_true, other, Bool.false_and]
  by_cases truth : type = boolCtype
  · obtain ⟨result, values⟩ := castToBool_spec canonical nonempty
    rw [if_pos truth, values]
    refine ⟨truth ▸ result, fun x => ?_⟩
    simp only [castValues, truth, if_true]
    constructor
    · rintro ⟨y, inside, rfl⟩
      obtain ⟨drange, member, between⟩ := (mem_rlSet_iff y rl).mp inside
      exact ⟨drange, member, y, between, rfl⟩
    · rintro ⟨drange, member, y, between, rfl⟩
      exact ⟨y, (mem_rlSet_iff y rl).mpr ⟨drange, member, between⟩, rfl⟩
  · obtain ⟨result, values⟩ := @castLoop_added source type rl [] canonical (.nil type)
    simp only [mem_rlSet_nil, or_false, Set.mem_ofPred_eq] at values
    have filled : rl.foldl (fun ret tmp => addRangeT type ret tmp.min tmp.max) [] ≠ [] := by
      obtain ⟨drange, member⟩ := List.exists_mem_of_ne_nil rl nonempty
      obtain ⟨first, order, last⟩ := ends_of_canonical canonical member
      obtain ⟨x, inside⟩ := @castValues_nonempty source type _ _ first order last
      rw [castValues, if_neg truth] at inside
      exact nonempty_of_mem ((values x).mpr ⟨drange, member, inside⟩)
    simp only [truth, filled, if_false, castValues]
    exact ⟨result, values⟩

/-- A cast to a type at least as wide denotes the converted values. -/
theorem castRl_wide (canonical : Canonical source rl) (wide : typeBits source ≤ typeBits type) :
    rlSet (castRl (some type) rl) = type.wrap '' rlSet rl := by
  ext x
  rw [(castRl_spec canonical).2 x]
  constructor
  · rintro ⟨drange, member, inside⟩
    obtain ⟨first, order, last⟩ := ends_of_canonical canonical member
    rw [castValues_wide wide first order last] at inside
    obtain ⟨y, between, rfl⟩ := inside
    exact ⟨y, (mem_rlSet_iff y rl).mpr ⟨drange, member, between⟩, rfl⟩
  · rintro ⟨y, inside, rfl⟩
    obtain ⟨drange, member, between⟩ := (mem_rlSet_iff y rl).mp inside
    obtain ⟨first, order, last⟩ := ends_of_canonical canonical member
    refine ⟨drange, member, ?_⟩
    rw [castValues_wide wide first order last]
    exact ⟨y, between, rfl⟩

/-- The other ranges of a list make up for what `drange` loses: one of them becomes
the whole type, or together they have every value that is missing. -/
def MadeUp (type : Ctype) (rl : RangeList) (drange : DataRange) : Prop :=
  (∃ other ∈ rl, other ≠ drange ∧ ¬ type.kind.SameHalf other.min.val other.max.val) ∨
    ∀ x, type.lo ≤ x → x ≤ type.hi →
      x < drange.min.val ∨ drange.max.val - 2 ^ typeBits type < x →
      ∃ other ∈ rl, other ≠ drange ∧
        ∃ v, other.min.val ≤ v ∧ v ≤ other.max.val ∧ type.wrap v = x

/-- Two ranges of a canonical list that share a value are the same range. -/
theorem Canonical.eq_of_mem {one two : DataRange} (canonical : Canonical source rl)
    (first : one ∈ rl) (second : two ∈ rl) {x : Int}
    (inOne : one.min.val ≤ x ∧ x ≤ one.max.val) (inTwo : two.min.val ≤ x ∧ x ≤ two.max.val) :
    one = two := by
  induction rl with
  | nil => exact absurd first not_mem_nil
  | cons head rl ih =>
    rcases mem_cons.mp first with rfl | firstLater
    · rcases mem_cons.mp second with rfl | secondLater
      · rfl
      · have later := canonical.gap secondLater
        omega
    · rcases mem_cons.mp second with rfl | secondLater
      · have later := canonical.gap firstLater
        omega
      · exact ih canonical.tail firstLater secondLater

/-- Where the ends of a range of the bad shape are: on both sides of zero. -/
theorem LosesValues.bounds (loses : LosesValues source type low high) :
    -2 ^ typeBits type < type.lo ∧ low < 0 ∧ 0 < type.hi ∧ type.hi < high := by
  obtain ⟨-, sign, -, least, negative, -, long⟩ := loses
  have bottom : type.lo = -2 ^ (typeBits type - 1) := IntKind.lo_of_signed sign
  have top : type.hi = 2 ^ (typeBits type - 1) - 1 := IntKind.hi_of_signed_eq sign
  have double : (2 : Int) ^ typeBits type = 2 * 2 ^ (typeBits type - 1) := type.kind.half_bits
  have one : 1 ≤ type.hi := type.kind.bounds.2.2.1
  exact ⟨by omega, negative, by omega, by omega⟩

/-- A range of the bad shape reaches every value of the target type. -/
theorem LosesValues.onto (loses : LosesValues source type low high) {x : Int}
    (first : type.lo ≤ x) (last : x ≤ type.hi) :
    ∃ v, low ≤ v ∧ v ≤ high ∧ type.wrap v = x := by
  obtain ⟨deep, -, -, above⟩ := loses.bounds
  obtain ⟨-, sign, -, least, negative, near, long⟩ := loses
  have top := type.hi_eq
  by_cases below : x < low
  · have shifted : type.wrap (x + 2 ^ typeBits type) = x + 2 ^ typeBits type - 2 ^ typeBits type :=
      IntKind.wrap_high sign (show type.hi < _ by omega) (show _ < 2 ^ typeBits type by omega)
    exact ⟨x + 2 ^ typeBits type, by omega, by omega, by omega⟩
  · exact ⟨x, by omega, by omega, IntKind.wrap_of_mem first last⟩

theorem LosesValues.castValues_eq (loses : LosesValues source type low high) :
    castValues source type low high = Set.Icc low (high - 2 ^ typeBits type) := by
  obtain ⟨deep, -, positive, above⟩ := loses.bounds
  obtain ⟨origin, sign, narrow, least, negative, near, long⟩ := loses
  have size : (0 : Int) < 2 ^ typeBits type := Int.pow_pos (by decide)
  have signed : ¬ typeUnsigned type = true := Bool.eq_false_iff.mp sign
  have truth : type ≠ boolCtype := by
    rintro rfl
    exact signed rfl
  have small : ∀ x, low ≤ x → x ≤ high → ¬ source.kind.TooBig type.kind x := by
    rintro x lower upper ⟨-, far⟩
    rw [if_neg (show ¬ type.kind.unsigned = true from signed)] at far
    unfold typeBits Ctype.lo at *
    omega
  have kept : ¬ (low = high ∨ (type.lo ≤ low ∧ high ≤ type.hi) ∨
      source.kind.Nicely type.kind low high) := by
    rintro (same | ⟨-, most⟩ | ⟨-, same⟩)
    · omega
    · omega
    · have upper : 0 ≤ high / 2 ^ type.kind.bits := Int.ediv_nonneg (by omega) (Int.le_of_lt size)
      have lower : low / 2 ^ type.kind.bits < 0 := Int.ediv_neg_of_neg_of_pos negative size
      omega
  have same : type.wrap low = low := IntKind.wrap_of_mem least (show low ≤ type.hi by omega)
  have shifted : type.wrap high = high - 2 ^ typeBits type := IntKind.wrap_high sign above near
  rw [castValues, if_neg truth, castEnds, if_neg kept, if_neg, if_neg (fun found => signed found.2),
    if_neg (fun found => Bool.eq_false_iff.mp origin found.1), same, shifted,
    endsSet_of_le (by omega)]
  rintro (found | found)
  · exact small low (Int.le_refl _) (by omega) found
  · exact small high (by omega) (Int.le_refl _) found

/-- Beside a range of the bad shape every other range keeps away from zero. -/
theorem castValues_beside {drange other : DataRange} (canonical : Canonical source rl)
    (member : drange ∈ rl) (loses : LosesValues source type drange.min.val drange.max.val)
    (beside : other ∈ rl) (distinct : other ≠ drange) :
    castValues source type other.min.val other.max.val =
      if type.kind.SameHalf other.min.val other.max.val then
        type.wrap '' Set.Icc other.min.val other.max.val
      else Set.Icc type.lo type.hi := by
  obtain ⟨-, negative, positive, above⟩ := loses.bounds
  obtain ⟨-, sign, narrow, -⟩ := loses
  have truth : type ≠ boolCtype := by
    rintro rfl
    exact absurd sign (by decide)
  have nonzero : other.max.val < 0 ∨ 0 < other.min.val := by
    by_contra zero
    exact distinct (canonical.eq_of_mem beside member (x := 0) (by omega) (by omega))
  rw [castValues, if_neg truth, castEnds_signed sign narrow (canonical.ordered beside) nonzero]

/-- The converted values are all in the cast exactly when every range of the bad
shape is made up for. -/
theorem castRl_covers_iff (canonical : Canonical source rl) :
    (Canonical type (castRl (some type) rl) ∧
      ∀ sval : Sval, sval.OfType source → sval.val ∈ rlSet rl →
        (svalCast type sval).val ∈ rlSet (castRl (some type) rl)) ↔
      ∀ drange ∈ rl, LosesValues source type drange.min.val drange.max.val →
        MadeUp type rl drange := by
  obtain ⟨result, values⟩ := @castRl_spec source type rl canonical
  constructor
  · rintro ⟨-, covers⟩ drange member loses
    by_cases whole : ∃ other ∈ rl, other ≠ drange ∧
        ¬ type.kind.SameHalf other.min.val other.max.val
    · exact .inl whole
    refine .inr fun x first last outside => ?_
    obtain ⟨v, above, below, rfl⟩ := loses.onto first last
    obtain ⟨least, order, most⟩ := ends_of_canonical canonical member
    have exact := @Ctype.ofInt_val source v (Int.le_trans least above) (Int.le_trans below most)
    have converted := covers (source.ofInt v)
      (Ctype.ofInt_ofType (Int.le_trans least above) (Int.le_trans below most))
      (by rw [exact]; exact (mem_rlSet_iff v rl).mpr ⟨drange, member, above, below⟩)
    rw [svalCast_val, exact] at converted
    obtain ⟨other, beside, inside⟩ := (values _).mp converted
    have distinct : other ≠ drange := by
      rintro rfl
      rw [loses.castValues_eq] at inside
      obtain ⟨lower, upper⟩ := inside
      omega
    rw [castValues_beside canonical member loses beside distinct,
      if_pos (by
        by_contra halves
        exact whole ⟨other, beside, distinct, halves⟩)] at inside
    obtain ⟨w, between, same⟩ := inside
    exact ⟨other, beside, distinct, w, between.1, between.2, same⟩
  · intro madeUp
    refine ⟨result, ?_⟩
    intro sval typed inside
    obtain ⟨drange, member, above, below⟩ := (mem_rlSet_iff _ rl).mp inside
    obtain ⟨least, order, most⟩ := ends_of_canonical canonical member
    have range := type.kind.wrap_bounds sval.val
    rw [svalCast_val, values]
    rcases @castValues_cases source type _ _ least order most with ⟨-, whole⟩ | image |
      ⟨loses, lost⟩
    · exact ⟨drange, member, whole ▸ range⟩
    · exact ⟨drange, member, image ▸ ⟨sval.val, ⟨above, below⟩, rfl⟩⟩
    · by_cases kept : drange.min.val ≤ type.wrap sval.val ∧
          type.wrap sval.val ≤ drange.max.val - 2 ^ typeBits type
      · exact ⟨drange, member, lost ▸ kept⟩
      rcases madeUp drange member loses with ⟨other, beside, distinct, halves⟩ | others
      · refine ⟨other, beside, ?_⟩
        rw [castValues_beside canonical member loses beside distinct, if_neg halves]
        exact range
      · obtain ⟨other, beside, distinct, v, lower, upper, same⟩ :=
          others (type.wrap sval.val) range.1 range.2 (by omega)
        refine ⟨other, beside, ?_⟩
        rw [castValues_beside canonical member loses beside distinct]
        split_ifs
        · exact ⟨v, ⟨lower, upper⟩, same⟩
        · exact range

end CastRl

/-- The shape in question: the `int` range `-100..200` cast to `signed char`. -/
def aroundZero : RangeList := [⟨intCtype.ofInt (-100), intCtype.ofInt 200⟩]

/-- Zero is in the list and not in its cast, which is `-100..-56`. -/
theorem castRl_aroundZero :
    Canonical intCtype aroundZero ∧ (intCtype.ofInt 0).OfType intCtype ∧
      (intCtype.ofInt 0).val ∈ rlSet aroundZero ∧
      (svalCast scharCtype (intCtype.ofInt 0)).val ∉
        rlSet (castRl (some scharCtype) aroundZero) := by
  decide

theorem castRl_covers_small :
    Canonical scharCtype (castRl (some scharCtype) [⟨intCtype.ofInt 3, intCtype.ofInt 700⟩]) ∧
      ∀ sval : Sval, sval.OfType intCtype →
        sval.val ∈ rlSet [⟨intCtype.ofInt 3, intCtype.ofInt 700⟩] →
        (svalCast scharCtype sval).val ∈
          rlSet (castRl (some scharCtype) [⟨intCtype.ofInt 3, intCtype.ofInt 700⟩]) :=
  (castRl_covers_iff (by decide)).mpr (by
    intro drange member loses
    rw [mem_singleton.mp member] at loses
    exact absurd loses (by decide))

end SmatchFormal.Ranges
