import SmatchFormal.Extra.CanonicalFor

/-!
# When the summary of a counting loop is right

The range for the body is always right.  The state after the loop is right when it
is an interval; a single value is right only if all limits lead to it.
-/

namespace SmatchFormal.Extra

open SmatchFormal.Ranges Comparison

namespace ForLoop

variable {loop : ForLoop} {estate : Estate} {last : Sval}

/-! ## The runs of the loop -/

def bound (loop : ForLoop) (e : Int) : Int :=
  if loop.op = lte ∨ loop.op = unsignedLte then e + 1 else if loop.op = gte then e - 1 else e

def exit (loop : ForLoop) (e : Int) : Int :=
  if loop.increment then max loop.start.val (loop.bound e) else min loop.start.val (loop.bound e)

def Counts (loop : ForLoop) : Prop :=
  if loop.increment then
    (loop.op = lt ∨ loop.op = unsignedLt ∨ loop.op = notEqual) ∨
      loop.op = lte ∨ loop.op = unsignedLte
  else (loop.op = gt ∨ loop.op = notEqual) ∨ loop.op = gte

/-- The condition holds in the first rounds exactly if these do not pass the bound. -/
theorem holds_rounds_iff (counts : loop.Counts) {e : Int} (admits : loop.Admits e) (k : Nat) :
    (∀ j < k, loop.op.Holds (loop.counter j) e) ↔
      k = 0 ∨ if loop.increment then loop.start.val + k ≤ loop.bound e
        else loop.bound e ≤ loop.start.val - k := by
  obtain ⟨-, side⟩ := admits
  unfold Counts at counts
  unfold counter bound
  cases up : loop.increment with
  | true =>
    simp only [up, if_true] at counts side ⊢
    rcases counts with (op | op | op) | op | op <;> simp [op, Holds] at side ⊢
    case inl.inr.inr =>
        constructor
        · intro rounds
          have final := rounds (e - loop.start.val).toNat
          omega
        · intro ahead j less
          omega
    all_goals
      constructor
      · intro rounds
        have final := rounds (k - 1)
        omega
      · intro ahead j less
        omega
  | false =>
    simp only [up, Bool.false_eq_true, if_false] at counts side ⊢
    rcases counts with (op | op) | op <;> simp [op, Holds] at side ⊢
    case inl.inr =>
        constructor
        · intro rounds
          have final := rounds (loop.start.val - e).toNat
          omega
        · intro ahead j less
          omega
    all_goals
      constructor
      · intro rounds
        have final := rounds (k - 1)
        omega
      · intro ahead j less
        omega

section Runs

variable {e : Int} {k : Nat}

section

variable (counts : loop.Counts) (typed : loop.Typed) (admits : loop.Admits e)
include counts typed admits

theorem iterates_iff :
    loop.Iterates e k ↔
      if loop.increment then loop.start.val + k < loop.bound e ∧ loop.start.val + k ≤ loop.type.hi
      else loop.bound e < loop.start.val - k ∧ loop.type.lo ≤ loop.start.val - k := by
  obtain ⟨-, low, high⟩ := typed.start
  have rounds := holds_rounds_iff counts admits (k + 1)
  have split : loop.Iterates e k ↔
      (∀ j < k + 1, loop.op.Holds (loop.counter j) e) ∧ ∀ j ≤ k, loop.InType j := by
    simp only [Iterates, Nat.lt_succ_iff]
    exact ⟨fun all => ⟨fun j le => (all j le).1, fun j le => (all j le).2⟩,
      fun both j le => ⟨both.1 j le, both.2 j le⟩⟩
  rw [split, rounds]
  unfold InType counter
  cases up : loop.increment <;> simp only [Bool.false_eq_true, if_true, if_false]
  all_goals
    constructor
    · rintro ⟨ahead, inside⟩
      have final := inside k (Nat.le_refl k)
      omega
    · rintro ⟨ahead, inside⟩
      refine ⟨by omega, ?_⟩
      intro j le
      omega

/-- The loop is left with the value `exit`, if this is a value of the type. -/
theorem leaves_iff :
    loop.Leaves e k ↔
      loop.counter k = loop.exit e ∧ loop.type.lo ≤ loop.exit e ∧ loop.exit e ≤ loop.type.hi := by
  obtain ⟨-, low, high⟩ := typed.start
  have before := holds_rounds_iff counts admits k
  have next := holds_rounds_iff counts admits (k + 1)
  have split : (∀ j < k + 1, loop.op.Holds (loop.counter j) e) ↔
      (∀ j < k, loop.op.Holds (loop.counter j) e) ∧ loop.op.Holds (loop.counter k) e := by
    simp only [Nat.lt_succ_iff_lt_or_eq, or_imp, forall_and, forall_eq]
  rw [split, before] at next
  unfold Leaves
  rw [before]
  unfold InType
  unfold counter exit at *
  cases up : loop.increment <;> simp only [up, Bool.false_eq_true, if_true, if_false] at next ⊢
  all_goals
    constructor
    · rintro ⟨first, fails, inside⟩
      have final := inside k (Nat.le_refl k)
      have stop : ¬ (_ ∨ _) := fun ahead => fails (next.mpr ahead).2
      omega
    · rintro ⟨value, inside⟩
      refine ⟨by omega, ?_, ?_⟩
      · intro holds
        have ahead := next.mp ⟨by omega, holds⟩
        omega
      · intro j le
        omega

theorem exists_leaves (low : loop.type.lo ≤ loop.exit e) (high : loop.exit e ≤ loop.type.hi) :
    ∃ k, loop.Leaves e k := by
  refine ⟨(loop.exit e - loop.start.val).natAbs, (leaves_iff counts typed admits).mpr
    ⟨?_, low, high⟩⟩
  unfold counter exit
  cases up : loop.increment <;> simp only [Bool.false_eq_true, if_true, if_false] <;> omega

end

end Runs

section Limits

variable {e : Int}

theorem limits_inType (typed : loop.Typed) (member : e ∈ loop.limits) :
    loop.type.lo ≤ e ∧ e ≤ loop.type.hi := by
  unfold limits at member
  cases known : loop.implied with
  | some rl =>
    rw [known] at member
    exact (typed.implied rl known).1.mem_type member
  | none =>
    rw [known] at member
    exact member

theorem extreme_mem (typed : loop.Typed) : loop.extreme ∈ loop.limits := by
  unfold extreme limits
  cases known : loop.implied with
  | some rl =>
    obtain ⟨canonical, nonempty⟩ := typed.implied rl known
    cases loop.increment with
    | true => exact rlMax_mem canonical nonempty
    | false => exact rlMin_mem canonical nonempty
  | none =>
    cases loop.increment with
    | true => exact ⟨loop.type.lo_le_hi, Int.le_refl _⟩
    | false => exact ⟨Int.le_refl _, loop.type.lo_le_hi⟩

theorem le_extreme (typed : loop.Typed) (up : loop.increment = true) (member : e ∈ loop.limits) :
    e ≤ loop.extreme := by
  unfold limits at member
  unfold extreme
  cases known : loop.implied with
  | some rl =>
    rw [known] at member
    rw [up]
    exact le_rlMax (typed.implied rl known).1 member
  | none =>
    rw [known] at member
    rw [up]
    exact member.2

theorem extreme_le (typed : loop.Typed) (down : loop.increment = false)
    (member : e ∈ loop.limits) : loop.extreme ≤ e := by
  unfold limits at member
  unfold extreme
  cases known : loop.implied with
  | some rl =>
    rw [known] at member
    rw [down]
    exact rlMin_le (typed.implied rl known).1 member
  | none =>
    rw [known] at member
    rw [down]
    exact member.1

end Limits

/-! ## The range for the body -/

def lastValue (loop : ForLoop) : Int :=
  if loop.op = lte ∨ loop.op = unsignedLte ∨ loop.op = gte then loop.extreme
  else if loop.increment then
    if loop.implied = none then loop.type.hi
    else if loop.extreme = loop.type.lo then loop.extreme else loop.extreme - 1
  else if loop.extreme = loop.type.hi then loop.extreme else loop.extreme + 1

theorem impliedMax_spec (typed : loop.Typed) (up : loop.increment = true) :
    loop.impliedMax.1.OfType loop.type ∧ loop.impliedMax.1.val = loop.extreme ∧
      (loop.impliedMax.2 = true ↔ loop.implied = none) := by
  unfold impliedMax extreme
  cases known : loop.implied with
  | some rl =>
    obtain ⟨canonical, nonempty⟩ := typed.implied rl known
    rw [up]
    refine ⟨rlMax_ofType canonical nonempty, rfl, ?_⟩
    simp
  | none =>
    have whole : svalCast loop.type (svalTypeMax loop.type) = svalTypeMax loop.type :=
      svalCast_self (svalTypeMax_ofType loop.type)
    rw [up]
    simp only [whole]
    refine ⟨svalTypeMax_ofType loop.type, svalTypeMax_val loop.type, ?_⟩
    rw [svalIsMax_iff (svalTypeMax_ofType loop.type)]
    simp

theorem lastInc_spec (typed : loop.Typed) (up : loop.increment = true)
    (found : loop.lastInc = some last) :
    loop.Counts ∧ last.OfType loop.type ∧ last.val = loop.lastValue := by
  obtain ⟨ofType, value, unknown⟩ := impliedMax_spec typed up
  have least := svalIsMin_iff ofType
  have lowest := (limits_inType typed (extreme_mem typed)).1
  have strict : ∀ last, (if !svalIsMin loop.impliedMax.1 && !loop.impliedMax.2 then
      subOne loop.impliedMax.1 else loop.impliedMax.1) = last → last.OfType loop.type ∧
      last.val = if loop.implied = none then loop.type.hi
        else if loop.extreme = loop.type.lo then loop.extreme else loop.extreme - 1 := by
    rintro last rfl
    rw [value] at least
    by_cases missing : loop.implied = none
    · have top : loop.extreme = loop.type.hi := by simp [extreme, missing, up]
      simp [unknown.mpr missing, missing, ofType, value, top]
    · have known : loop.impliedMax.2 = false := by
        rw [← Bool.not_eq_true, unknown]
        exact missing
      by_cases bottom : loop.extreme = loop.type.lo
      · simp [missing, known, least.mpr bottom, bottom, ofType, value]
      · have above : svalIsMin loop.impliedMax.1 = false := by
          rw [← Bool.not_eq_true, least]
          exact bottom
        have room : loop.type.lo < loop.impliedMax.1.val := by omega
        simp only [known, above, missing, bottom]
        exact ⟨subOne_ofType ofType room, by rw [← value]; exact subOne_val ofType room⟩
  unfold lastInc at found
  unfold Counts lastValue
  cases op : loop.op <;> simp [op, up] at found ⊢
  case lt | unsignedLt | notEqual => exact strict last (by simpa using found)
  all_goals
    subst found
    exact ⟨ofType, value⟩

theorem impliedMin_spec (typed : loop.Typed) (down : loop.increment = false) :
    loop.impliedMin.OfType loop.type ∧ loop.impliedMin.val = loop.extreme := by
  unfold impliedMin extreme
  cases known : loop.implied with
  | some rl =>
    obtain ⟨canonical, nonempty⟩ := typed.implied rl known
    simp only [down, svalCast_self (rlMin_ofType canonical nonempty)]
    exact ⟨rlMin_ofType canonical nonempty, rfl⟩
  | none =>
    simp only [down, svalCast_self (svalTypeMin_ofType loop.type)]
    exact ⟨svalTypeMin_ofType loop.type, svalTypeMin_val loop.type⟩

theorem lastDec_spec (typed : loop.Typed) (down : loop.increment = false)
    (found : loop.lastDec = some last) :
    loop.Counts ∧ last.OfType loop.type ∧ last.val = loop.lastValue := by
  obtain ⟨ofType, value⟩ := impliedMin_spec typed down
  have highest := (limits_inType typed (extreme_mem typed)).2
  have strict : ∀ last, (if !svalIsMax loop.impliedMin then addOne loop.impliedMin
      else loop.impliedMin) = last → last.OfType loop.type ∧
      last.val = if loop.extreme = loop.type.hi then loop.extreme else loop.extreme + 1 := by
    rintro last rfl
    have greatest := svalIsMax_iff ofType
    rw [value] at greatest
    by_cases top : loop.extreme = loop.type.hi
    · simp [greatest.mpr top, top, ofType, value]
    · have below : svalIsMax loop.impliedMin = false := by
        rw [← Bool.not_eq_true, greatest]
        exact top
      have room : loop.impliedMin.val < loop.type.hi := by omega
      simp only [below, top]
      exact ⟨addOne_ofType ofType room, by rw [← value]; exact addOne_val ofType room⟩
  unfold lastDec at found
  unfold Counts lastValue
  cases op : loop.op <;> simp [op, down] at found ⊢
  case gt | notEqual => exact strict last (by simpa using found)
  subst found
  exact ⟨ofType, value⟩

/-- What the two functions set: the values between the first one and the last one. -/
structure Handled (loop : ForLoop) (last : Sval) (estate : Estate) : Prop where
  counts : loop.Counts
  ofType : last.OfType loop.type
  value : last.val = loop.lastValue
  order : if loop.increment then loop.start.val ≤ last.val else last.val ≤ loop.start.val
  rl : estate.rl = if loop.increment then [⟨loop.start, last⟩] else [⟨last, loop.start⟩]
  hardMax : estate.hardMax = false ↔
    loop.increment = true ∧ (loop.hardMax = none ∨ loop.isMacro = true)

theorem setMax_rl (estate : Estate) : (loop.setMax estate).rl = estate.rl := by
  unfold setMax
  cases loop.hardMax with
  | none => rfl
  | some max => cases loop.isMacro <;> simp [Estate.setHardMax]

theorem setMax_hardMax (fresh : estate.hardMax = false) :
    (loop.setMax estate).hardMax = false ↔ loop.hardMax = none ∨ loop.isMacro = true := by
  unfold setMax
  cases loop.hardMax with
  | none => simp [fresh]
  | some max => cases loop.isMacro <;> simp [Estate.setHardMax, fresh]

theorem handleInc_handled (typed : loop.Typed) (up : loop.increment = true)
    (set : loop.handleInc = some estate) : ∃ last, loop.Handled last estate := by
  unfold handleInc at set
  cases found : loop.lastInc with
  | none =>
    rw [found] at set
    exact absurd set (by simp)
  | some last =>
    obtain ⟨counts, ofType, value⟩ := lastInc_spec typed up found
    rw [found] at set
    simp only [Option.ite_none_left_eq_some, svalCmp_ofType ofType typed.start, intCmp_lt_zero,
      Int.not_lt, Option.some.injEq, svalCast_self ofType] at set
    obtain ⟨order, rfl⟩ := set
    refine ⟨last, counts, ofType, value, ?_, ?_, ?_⟩
    · simpa [up] using order
    · rw [setMax_rl, up]
      exact allocRl_eq typed.start ofType order
    · simpa [up] using setMax_hardMax rfl

theorem handleDec_handled (typed : loop.Typed) (down : loop.increment = false)
    (set : loop.handleDec = some estate) : ∃ last, loop.Handled last estate := by
  unfold handleDec at set
  cases found : loop.lastDec with
  | none =>
    rw [found] at set
    exact absurd set (by simp)
  | some last =>
    obtain ⟨counts, ofType, value⟩ := lastDec_spec typed down found
    rw [found] at set
    simp only [Option.ite_none_left_eq_some, svalCmp_ofType ofType typed.start, intCmp_gt_zero,
      Int.not_lt, Option.some.injEq] at set
    obtain ⟨order, rfl⟩ := set
    refine ⟨last, counts, ofType, value, ?_, ?_, ?_⟩
    · simpa [down] using order
    · rw [down]
      exact allocRl_eq ofType typed.start order
    · rw [down]
      simp [allocEstateRange, Estate.setHardMax]

theorem handleCanonical_handled (typed : loop.Typed) (set : loop.handleCanonical = some estate) :
    ∃ last, loop.Handled last estate := by
  unfold handleCanonical at set
  cases up : loop.increment with
  | true =>
    rw [up] at set
    exact handleInc_handled typed up set
  | false =>
    rw [up] at set
    exact handleDec_handled typed up set

section

variable (handled : loop.Handled last estate)
include handled

theorem Handled.estate_min :
    estate.min = if loop.increment then loop.start else last := by
  unfold Estate.min
  rw [handled.rl]
  cases loop.increment <;> rfl

theorem Handled.estate_max :
    estate.max = if loop.increment then last else loop.start := by
  unfold Estate.max
  rw [handled.rl]
  cases loop.increment <;> rfl

theorem Handled.estate_type : estate.type = loop.type := by
  change estate.max.type = loop.type
  rw [handled.estate_max]
  cases loop.increment with
  | true => exact handled.ofType.1
  | false => rfl

theorem Handled.afterLimit_ofType :
    (loop.afterLimit estate).OfType loop.type := by
  unfold afterLimit
  rw [handled.estate_type]
  exact svalCast_ofType loop.type _

/-- The limit is the value next to the last one, as long as this is a value of the type. -/
theorem Handled.afterLimit_val :
    (loop.afterLimit estate).val =
      if loop.increment then
        if (loop.impliedAfter.bind rlToSval).isNone = true ∧ last.val = loop.type.hi then
          loop.type.hi
        else loop.type.wrap (last.val + 1)
      else loop.type.wrap (last.val - 1) := by
  have top := svalIsMax_iff handled.ofType
  unfold afterLimit
  rw [handled.estate_type, handled.estate_min, handled.estate_max]
  cases up : loop.increment with
  | true =>
    simp only [if_true, Bool.and_eq_true, top]
    split
    · rename_i whole
      rw [svalCast_self handled.ofType]
      exact whole.2
    · exact svalBinop_add_one handled.ofType
  | false => exact svalBinop_sub_one handled.ofType

end

@[simp] theorem keepFuzzyMax_rl (sm state : Estate) : (keepFuzzyMax sm state).rl = state.rl := by
  unfold keepFuzzyMax
  cases sm.fuzzyMax with
  | none => rfl
  | some hmax =>
    simp only
    split <;> rfl

theorem preLoopHookAfter_rl (estate : Estate) :
    (loop.preLoopHookAfter estate).rl =
      if estate.hardMax = false ∧ loop.breaks = false then
        if loop.increment then allocRl estate.min (loop.afterLimit estate)
        else allocRl (loop.afterLimit estate) estate.max
      else allocRl (loop.afterLimit estate) (loop.afterLimit estate) := by
  unfold preLoopHookAfter
  rw [keepFuzzyMax_rl]
  cases estate.hardMax <;> cases loop.breaks <;> cases loop.increment <;>
    simp [allocEstateRange, allocEstateSval, Estate.clearHardMax, Estate.setHardMax]

/-- A state that is no interval has the limit as its only value. -/
theorem Handled.mem_after_single (handled : loop.Handled last estate) (single : ¬ loop.IsInterval)
    (x : Int) :
    x ∈ rlSet (loop.preLoopHookAfter estate).rl ↔ x = (loop.afterLimit estate).val := by
  have kind : ¬ (estate.hardMax = false ∧ loop.breaks = false) := by
    rw [handled.hardMax, and_assoc]
    exact single
  rw [preLoopHookAfter_rl, if_neg kind,
    mem_allocRl_iff handled.afterLimit_ofType handled.afterLimit_ofType (Int.le_refl _)]
  omega

/-- The interval reaches from the first value to the limit. -/
theorem Handled.after_interval (handled : loop.Handled last estate) (interval : loop.IsInterval) :
    (loop.preLoopHookAfter estate).rl = allocRl loop.start (loop.afterLimit estate) := by
  have kind : estate.hardMax = false ∧ loop.breaks = false := by
    rw [handled.hardMax, and_assoc]
    exact interval
  rw [preLoopHookAfter_rl, if_pos kind, handled.estate_min]
  simp only [interval.1, if_true]

/-- A limit below the first value stands for the whole type. -/
theorem Handled.mem_after_reversed (handled : loop.Handled last estate) (typed : loop.Typed)
    (interval : loop.IsInterval) (reversed : (loop.afterLimit estate).val < loop.start.val)
    {x : Int} (low : loop.type.lo ≤ x) (high : x ≤ loop.type.hi) :
    x ∈ rlSet (loop.preLoopHookAfter estate).rl := by
  have order : svalCmp loop.start (loop.afterLimit estate) > 0 := by
    rw [svalCmp_ofType typed.start handled.afterLimit_ofType]
    simpa using reversed
  rw [handled.after_interval interval, allocRl_reversed order, mem_rlSet_cons, svalTypeMin_val,
    svalTypeMax_val]
  exact Or.inl ⟨low, high⟩

/-! ## Both states -/

/-- The two kinds of conditions of a loop that counts up. -/
theorem counts_inc (counts : loop.Counts) (up : loop.increment = true) :
    ((∀ e, loop.bound e = e) ∧
      (loop.lastValue = if loop.implied = none then loop.type.hi
        else if loop.extreme = loop.type.lo then loop.extreme else loop.extreme - 1) ∧
      (loop.WrapsAround ↔ ((loop.impliedAfter.bind rlToSval).isNone = false ∧
        loop.type.kind ≠ .bool) ∧ loop.implied = none) ∧
      (loop.OneLimit ↔
        if loop.implied = none then loop.start.val = loop.type.hi ∧ ¬ loop.WrapsAround
        else loop.type.lo < loop.extreme ∧ ∀ e, loop.Admits e → e = loop.extreme)) ∨
    ((∀ e, loop.bound e = e + 1) ∧ loop.op ≠ notEqual ∧ loop.lastValue = loop.extreme ∧
      (loop.WrapsAround ↔ ((loop.impliedAfter.bind rlToSval).isNone = false ∧
        loop.type.kind ≠ .bool) ∧ loop.extreme = loop.type.hi) ∧
      (loop.OneLimit ↔ ∀ e, loop.Admits e → e < loop.type.hi →
        if loop.extreme = loop.type.hi then
          (loop.start.val = loop.type.hi ∨ e + 1 = loop.type.hi) ∧ ¬ loop.WrapsAround
        else e = loop.extreme)) := by
  unfold Counts at counts
  rw [if_pos up] at counts
  unfold bound lastValue OneLimit WrapsAround EndsAtTop
  rcases counts with (op | op | op) | op | op
  · exact Or.inl (by simp [op, up])
  · exact Or.inl (by simp [op, up])
  · exact Or.inl (by simp [op, up])
  · exact Or.inr (by simp [op, up])
  · exact Or.inr (by simp [op, up])

/-- The two kinds of conditions of a loop that counts down. -/
theorem counts_dec (counts : loop.Counts) (down : loop.increment = false) :
    ((∀ e, loop.bound e = e) ∧
      (loop.lastValue =
        if loop.extreme = loop.type.hi then loop.extreme else loop.extreme + 1) ∧
      (loop.OneLimit ↔
        loop.extreme < loop.type.hi ∧ ∀ e, loop.Admits e → e = loop.extreme)) ∨
    ((∀ e, loop.bound e = e - 1) ∧ loop.op ≠ notEqual ∧ loop.lastValue = loop.extreme ∧
      (loop.OneLimit ↔ ∀ e, loop.Admits e → loop.type.lo < e →
        loop.type.lo < loop.extreme ∧ e = loop.extreme)) := by
  unfold Counts at counts
  rw [if_neg (by simp [down])] at counts
  unfold bound lastValue OneLimit
  rcases counts with (op | op) | op
  · exact Or.inl (by simp [op, down])
  · exact Or.inl (by simp [op, down])
  · exact Or.inr (by simp [op, down])

/-- The range for the body has all values of the counter. -/
theorem Handled.inside_sound (handled : loop.Handled last estate) (typed : loop.Typed) {e : Int}
    {k : Nat} (admits : loop.Admits e) (iterates : loop.Iterates e k) :
    loop.counter k ∈ rlSet estate.rl := by
  have rounds := (iterates_iff handled.counts typed admits).mp iterates
  have value := handled.value
  obtain ⟨-, low, high⟩ := typed.start
  obtain ⟨least, greatest⟩ := limits_inType typed admits.1
  rw [handled.rl]
  unfold counter
  cases up : loop.increment with
  | true =>
    have limit := le_extreme typed up admits.1
    simp only [up, if_true] at rounds ⊢
    rw [mem_rlSet_cons]
    change loop.start.val ≤ _ ∧ _ ≤ last.val ∨ _
    rcases counts_inc handled.counts up with ⟨bounds, final, -⟩ | ⟨bounds, -, final, -⟩
    · rw [bounds] at rounds
      rw [final] at value
      split at value
      · omega
      · split at value <;> omega
    · rw [bounds] at rounds
      omega
  | false =>
    have limit := extreme_le typed up admits.1
    simp only [up, Bool.false_eq_true, if_false] at rounds ⊢
    rw [mem_rlSet_cons]
    change last.val ≤ _ ∧ _ ≤ loop.start.val ∨ _
    rcases counts_dec handled.counts up with ⟨bounds, final, -⟩ | ⟨bounds, -, final, -⟩
    · rw [bounds] at rounds
      rw [final] at value
      split at value <;> omega
    · rw [bounds] at rounds
      omega

/-- The state after the loop is right if it has the exits that are values of the type. -/
theorem Handled.after_sound_iff (handled : loop.Handled last estate) (typed : loop.Typed)
    (after : Estate) :
    (∀ e, loop.Admits e → ∀ k, loop.Leaves e k → loop.counter k ∈ rlSet after.rl) ↔
      ∀ e, loop.Admits e → loop.type.lo ≤ loop.exit e → loop.exit e ≤ loop.type.hi →
        loop.exit e ∈ rlSet after.rl := by
  constructor
  · intro sound e admits low high
    obtain ⟨k, leaves⟩ := exists_leaves handled.counts typed admits low high
    have value := ((leaves_iff handled.counts typed admits).mp leaves).1
    rw [← value]
    exact sound e admits k leaves
  · intro sound e admits k leaves
    obtain ⟨value, low, high⟩ := (leaves_iff handled.counts typed admits).mp leaves
    rw [value]
    exact sound e admits low high

theorem lo_lt_hi (type : Ctype) : type.lo < type.hi := by
  obtain ⟨-, low, high, -⟩ := type.kind.bounds
  unfold Ctype.lo Ctype.hi
  omega

theorem wrap_hi_succ (kind : IntKind) :
    kind.wrap (kind.hi + 1) = if kind = .bool then kind.hi else kind.lo := by
  cases kind <;> decide

section

variable (handled : loop.Handled last estate) (typed : loop.Typed) (up : loop.increment = true)
include handled typed up

/-- The last value for the body is the maximum of the type. -/
theorem Handled.wrapsAround_iff :
    loop.WrapsAround ↔ ((loop.impliedAfter.bind rlToSval).isNone = false ∧
      loop.type.kind ≠ .bool) ∧ last.val = loop.type.hi := by
  have value := handled.value
  have room := lo_lt_hi loop.type
  obtain ⟨-, most⟩ := limits_inType typed (extreme_mem typed)
  rcases counts_inc handled.counts up with ⟨-, final, wraps, -⟩ | ⟨-, -, final, wraps, -⟩
  · rw [wraps, value, final]
    refine and_congr_right fun _ => ⟨fun missing => if_pos missing, ?_⟩
    intro top
    by_contra known
    rw [if_neg known] at top
    split at top <;> omega
  · rw [wraps, value, final]

theorem Handled.limit_inc :
    (loop.afterLimit estate).val =
      if loop.WrapsAround then loop.type.lo else min (last.val + 1) loop.type.hi := by
  obtain ⟨-, bottom, top⟩ := handled.ofType
  have wraps := handled.wrapsAround_iff typed up
  rw [handled.afterLimit_val, if_pos up]
  by_cases below : last.val < loop.type.hi
  · have inner : loop.type.wrap (last.val + 1) = last.val + 1 :=
      IntKind.wrap_of_mem (Int.le_trans bottom (by omega)) below
    rw [if_neg (by omega), if_neg (fun around => by have := (wraps.mp around).2; omega), inner]
    omega
  · have whole : last.val = loop.type.hi := by omega
    have next : loop.type.wrap (last.val + 1) =
        if loop.type.kind = .bool then loop.type.hi else loop.type.lo := by
      rw [whole]
      exact wrap_hi_succ loop.type.kind
    rw [next, whole]
    simp only [wraps, whole, and_true, ne_eq]
    cases (loop.impliedAfter.bind rlToSval).isNone with
    | true =>
      rw [if_pos rfl, if_neg (fun both => Bool.false_ne_true both.1.symm)]
      omega
    | false =>
      rw [if_neg Bool.false_ne_true]
      by_cases bool : loop.type.kind = .bool
      · rw [if_pos bool, if_neg (fun both => both.2 bool)]
        omega
      · rw [if_neg bool, if_pos ⟨rfl, bool⟩]

/-- The exits of a loop that counts up are up to the limit. -/
theorem Handled.exit_le_limit {e : Int} (admits : loop.Admits e)
    (high : loop.exit e ≤ loop.type.hi) (inside : ¬ loop.WrapsAround) :
    loop.exit e ≤ (loop.afterLimit estate).val := by
  have value := handled.value
  have order := handled.order
  have limit := le_extreme typed up admits.1
  rw [handled.limit_inc typed up, if_neg inside]
  unfold exit at high ⊢
  simp only [up, if_true] at order high ⊢
  rcases counts_inc handled.counts up with ⟨bounds, final, -⟩ | ⟨bounds, -, final, -⟩
  · rw [bounds] at high ⊢
    rw [final] at value
    split at value
    · omega
    · split at value <;> omega
  · rw [bounds] at high ⊢
    omega

/-- No exit is the minimum of the type if the limit wraps around. -/
theorem Handled.exits_wrapped (wraps : loop.WrapsAround) :
    (∀ e, loop.Admits e → loop.type.lo ≤ loop.exit e → loop.exit e ≤ loop.type.hi →
      loop.exit e = loop.type.lo) ↔ loop.OneLimit := by
  have room := lo_lt_hi loop.type
  obtain ⟨-, bottom, top⟩ := typed.start
  have exits : ∀ e, loop.exit e = max loop.start.val (loop.bound e) := by simp [exit, up]
  rcases counts_inc handled.counts up with ⟨bounds, -, around, one⟩ | ⟨bounds, -, -, around, one⟩
  · have missing := (around.mp wraps).2
    rw [one, if_pos missing]
    refine iff_of_false ?_ fun both => both.2 wraps
    intro all
    have admits : loop.Admits loop.type.hi := by
      refine ⟨?_, by simp [up, top]⟩
      unfold limits
      rw [missing]
      exact ⟨room.le, Int.le_refl _⟩
    have known := all loop.type.hi admits (by rw [exits, bounds]; omega)
      (by rw [exits, bounds]; omega)
    rw [exits, bounds] at known
    omega
  · have greatest := (around.mp wraps).2
    rw [one]
    simp only [bounds] at exits
    constructor
    · intro all e admits below
      obtain ⟨least, -⟩ := limits_inType typed admits.1
      have known := all e admits (by rw [exits]; omega) (by rw [exits]; omega)
      rw [exits] at known
      omega
    · intro all e admits low high
      rw [exits] at high
      have known := all e admits (by omega)
      rw [if_pos greatest] at known
      exact absurd wraps known.2

theorem Handled.exits_inc_iff :
    (∀ e, loop.Admits e → loop.type.lo ≤ loop.exit e → loop.exit e ≤ loop.type.hi →
      loop.exit e = (loop.afterLimit estate).val) ↔ loop.OneLimit := by
  have value := handled.value
  have order := handled.order
  have room := lo_lt_hi loop.type
  obtain ⟨-, bottom, top⟩ := typed.start
  obtain ⟨least, greatest⟩ := limits_inType typed (extreme_mem typed)
  have limit := handled.limit_inc typed up
  rw [limit]
  by_cases wraps : loop.WrapsAround
  · rw [if_pos wraps]
    exact handled.exits_wrapped typed up wraps
  rw [if_neg wraps]
  have exits : ∀ e, loop.exit e = max loop.start.val (loop.bound e) := by simp [exit, up]
  rw [if_pos up] at order
  rcases counts_inc handled.counts up with ⟨bounds, final, -, one⟩ | ⟨bounds, other, final, -, one⟩
  · rw [one]
    simp only [bounds] at exits
    by_cases missing : loop.implied = none
    · rw [if_pos missing, and_iff_left wraps]
      rw [final, if_pos missing] at value
      constructor
      · intro all
        have admits : loop.Admits loop.start.val := by
          refine ⟨?_, by simp [up]⟩
          unfold limits
          rw [missing]
          exact ⟨bottom, top⟩
        have own : loop.exit loop.start.val = loop.start.val := by
          rw [exits]
          omega
        have known := all loop.start.val admits (by omega) (by omega)
        omega
      · intro last e admits low high
        rw [exits] at high ⊢
        omega
    · rw [if_neg missing]
      rw [final, if_neg missing] at value
      have admits : loop.Admits loop.extreme := by
        refine ⟨extreme_mem typed, ?_⟩
        intro operator
        rw [if_pos up]
        split at value <;> omega
      constructor
      · intro all
        have own := all loop.extreme admits (by rw [exits]; omega) (by rw [exits]; omega)
        rw [exits] at own
        have inner : loop.type.lo < loop.extreme := by
          split at value <;> omega
        rw [if_neg (by omega)] at value
        refine ⟨inner, ?_⟩
        intro e other
        obtain ⟨low, high⟩ := limits_inType typed other.1
        have known := all e other (by rw [exits]; omega) (by rw [exits]; omega)
        rw [exits] at known
        omega
      · rintro ⟨inner, all⟩ e other low high
        obtain rfl := all e other
        rw [if_neg (by omega)] at value
        rw [exits]
        omega
  · rw [one]
    simp only [bounds] at exits
    constructor
    · intro all e admits below
      have known := all e admits (by rw [exits]; omega) (by rw [exits]; omega)
      rw [exits] at known
      split
      · exact ⟨by omega, wraps⟩
      · omega
    · intro all e admits low high
      rw [exits] at high ⊢
      have known := all e admits (by omega)
      split at known <;> omega

end

theorem wrap_lo_pred (kind : IntKind) : kind.wrap (kind.lo - 1) = kind.hi := by
  cases kind <;> decide

theorem Handled.limit_dec (handled : loop.Handled last estate) (down : loop.increment = false) :
    (loop.afterLimit estate).val =
      if last.val = loop.type.lo then loop.type.hi else last.val - 1 := by
  obtain ⟨-, bottom, top⟩ := handled.ofType
  rw [handled.afterLimit_val, if_neg (by simp [down])]
  split
  · rename_i first
    rw [first]
    exact wrap_lo_pred loop.type.kind
  · have above : loop.type.lo < last.val := by omega
    exact IntKind.wrap_of_mem (Int.le_sub_one_of_lt above) (Int.le_trans (by omega) top)

theorem Handled.exits_dec_iff (handled : loop.Handled last estate) (typed : loop.Typed)
    (down : loop.increment = false) :
    (∀ e, loop.Admits e → loop.type.lo ≤ loop.exit e → loop.exit e ≤ loop.type.hi →
      loop.exit e = (loop.afterLimit estate).val) ↔ loop.OneLimit := by
  have value := handled.value
  have order := handled.order
  have room := lo_lt_hi loop.type
  obtain ⟨-, bottom, top⟩ := typed.start
  obtain ⟨least, greatest⟩ := limits_inType typed (extreme_mem typed)
  have limit := handled.limit_dec down
  have exits : ∀ e, loop.exit e = min loop.start.val (loop.bound e) := by simp [exit, down]
  simp only [down, Bool.false_eq_true, if_false] at order
  rw [limit]
  rcases counts_dec handled.counts down with ⟨bounds, final, one⟩ | ⟨bounds, other, final, one⟩
  · rw [one]
    simp only [bounds] at exits
    rw [final] at value
    have admits : loop.Admits loop.extreme := by
      refine ⟨extreme_mem typed, ?_⟩
      intro operator
      rw [if_neg (by simp [down])]
      split at value <;> omega
    constructor
    · intro all
      have own := all loop.extreme admits (by rw [exits]; omega) (by rw [exits]; omega)
      rw [exits] at own
      have inner : loop.extreme < loop.type.hi := by
        split at value
        · split at own <;> omega
        · omega
      rw [if_neg (by omega)] at value
      refine ⟨inner, ?_⟩
      intro e other
      obtain ⟨low, high⟩ := limits_inType typed other.1
      have known := all e other (by rw [exits]; omega) (by rw [exits]; omega)
      rw [exits, if_neg (by omega)] at known
      omega
    · rintro ⟨inner, all⟩ e other low high
      obtain rfl := all e other
      rw [if_neg (by omega)] at value
      rw [exits, if_neg (by omega)]
      omega
  · rw [one]
    simp only [bounds] at exits
    constructor
    · intro all e admits above
      obtain ⟨low, high⟩ := limits_inType typed admits.1
      have known := all e admits (by rw [exits]; omega) (by rw [exits]; omega)
      rw [exits] at known
      split at known <;> omega
    · intro all e admits low high
      rw [exits] at low high ⊢
      obtain ⟨inner, same⟩ := all e admits (by omega)
      rw [if_neg (by omega)]
      omega

theorem Handled.exits_iff (handled : loop.Handled last estate) (typed : loop.Typed) :
    (∀ e, loop.Admits e → loop.type.lo ≤ loop.exit e → loop.exit e ≤ loop.type.hi →
      loop.exit e = (loop.afterLimit estate).val) ↔ loop.OneLimit := by
  cases up : loop.increment with
  | true => exact handled.exits_inc_iff typed up
  | false => exact handled.exits_dec_iff typed up

end ForLoop

/-- The states for the body and for the code after the loop are right exactly if the second one
is an interval, but for the minimum alone, or if all limits that the loop can have lead to the
same value. -/
theorem soundStates_iff {loop : ForLoop} {estate : Estate} (typed : loop.Typed)
    (set : loop.handleCanonical = some estate) :
    loop.SoundStates estate (loop.preLoopHookAfter estate) ↔
      (loop.IsInterval ∧ (loop.WrapsAround → loop.type.lo < loop.start.val)) ∨ loop.OneLimit := by
  obtain ⟨last, handled⟩ := ForLoop.handleCanonical_handled typed set
  have inside : ∀ e, loop.Admits e → ∀ k, loop.Iterates e k →
      loop.counter k ∈ rlSet estate.rl :=
    fun e admits k iterates => handled.inside_sound typed admits iterates
  unfold ForLoop.SoundStates
  rw [and_iff_right inside, handled.after_sound_iff typed]
  by_cases interval : loop.IsInterval
  · have up := interval.1
    have limit := handled.limit_inc typed up
    rw [and_iff_right interval]
    by_cases wraps : loop.WrapsAround
    · rw [if_pos wraps] at limit
      by_cases above : loop.type.lo < loop.start.val
      · refine iff_of_true ?_ (Or.inl fun _ => above)
        intro e admits low high
        exact handled.mem_after_reversed typed interval (by omega) low high
      · have first : loop.start.val = (loop.afterLimit estate).val := by
          have low := typed.start.2.1
          omega
        rw [or_iff_right (fun from_ => above (from_ wraps)), ← handled.exits_iff typed,
          handled.after_interval interval]
        simp only [mem_allocRl_iff typed.start handled.afterLimit_ofType first.le, first,
          le_antisymm_iff, and_comm]
    · refine iff_of_true ?_ (Or.inl fun around => absurd around wraps)
      intro e admits low high
      have most := handled.exit_le_limit typed up admits high wraps
      have least : loop.start.val ≤ loop.exit e := by
        unfold ForLoop.exit
        rw [if_pos up]
        exact Int.le_max_left _ _
      rw [handled.after_interval interval,
        mem_allocRl_iff typed.start handled.afterLimit_ofType (Int.le_trans least most)]
      exact ⟨least, most⟩
  · simp only [handled.mem_after_single interval]
    rw [handled.exits_iff typed]
    exact (or_iff_right fun both => interval both.1).symm

/-- `for (i = 0; i < e; i++)` with a `break` in the body, for a limit in a range. -/
def breakLoop (min max : Int) : ForLoop where
  increment := true
  start := intCtype.ofInt 0
  op := lt
  implied := some [⟨intCtype.ofInt min, intCtype.ofInt max⟩]
  impliedAfter := some [⟨intCtype.ofInt min, intCtype.ofInt max⟩]
  hardMax := none
  isMacro := false
  breaks := true

theorem breakLoop_typed : (breakLoop 10 10).Typed ∧ (breakLoop 0 10).Typed := by
  constructor
  all_goals
    refine ⟨by decide, ?_⟩
    intro rl known
    obtain rfl := Option.some.inj known
    exact ⟨by decide, by decide⟩

/-- With the limit ten, the counter is ten after the loop. -/
theorem soundStates_ten :
    (breakLoop 10 10).handleCanonical = some ⟨[⟨intCtype.ofInt 0, intCtype.ofInt 9⟩], false, none⟩ ∧
      (breakLoop 10 10).SoundStates ⟨[⟨intCtype.ofInt 0, intCtype.ofInt 9⟩], false, none⟩
        ((breakLoop 10 10).preLoopHookAfter
          ⟨[⟨intCtype.ofInt 0, intCtype.ofInt 9⟩], false, none⟩) := by
  have set : (breakLoop 10 10).handleCanonical =
      some ⟨[⟨intCtype.ofInt 0, intCtype.ofInt 9⟩], false, none⟩ := by decide
  refine ⟨set, (soundStates_iff breakLoop_typed.1 set).mpr (Or.inr ?_)⟩
  refine ⟨by decide, ?_⟩
  intro e admits
  have member : (10 : Int) ≤ e ∧ e ≤ 10 ∨ _ := (mem_rlSet_cons e _ []).mp admits.1
  rcases member with ⟨low, high⟩ | impossible
  · change e = 10
    omega
  · exact absurd impossible (mem_rlSet_nil e)

/-- With a limit between zero and ten, the counter is thought to be ten, but it can be three. -/
theorem not_soundStates_three :
    (breakLoop 0 10).Typed ∧
      (breakLoop 0 10).handleCanonical =
        some ⟨[⟨intCtype.ofInt 0, intCtype.ofInt 9⟩], false, none⟩ ∧
      ¬ (breakLoop 0 10).SoundStates ⟨[⟨intCtype.ofInt 0, intCtype.ofInt 9⟩], false, none⟩
        ((breakLoop 0 10).preLoopHookAfter
          ⟨[⟨intCtype.ofInt 0, intCtype.ofInt 9⟩], false, none⟩) := by
  refine ⟨breakLoop_typed.2, by decide, ?_⟩
  rintro ⟨-, after⟩
  have admits : (breakLoop 0 10).Admits 3 := by
    refine ⟨(mem_rlSet_cons 3 _ []).mpr (Or.inl ?_), fun other => absurd other (by decide)⟩
    decide
  have leaves : (breakLoop 0 10).Leaves 3 3 := by
    unfold ForLoop.Leaves ForLoop.InType
    decide
  have member := after 3 admits 3 leaves
  rw [show ((breakLoop 0 10).preLoopHookAfter
    ⟨[⟨intCtype.ofInt 0, intCtype.ofInt 9⟩], false, none⟩).rl =
      [⟨intCtype.ofInt 10, intCtype.ofInt 10⟩] by decide, mem_rlSet_cons] at member
  rcases member with inside | impossible
  · exact absurd inside (by decide)
  · exact absurd impossible (mem_rlSet_nil _)

/-- `for (i = 0; i <= e; i++)` with `unsigned char` and a limit of at least 254: the condition
fails for 254 only, and one more than 255 is zero. -/
def byteLoop : ForLoop where
  increment := true
  start := (⟨6, .u8⟩ : Ctype).ofInt 0
  op := lte
  implied := some [⟨(⟨6, .u8⟩ : Ctype).ofInt 254, (⟨6, .u8⟩ : Ctype).ofInt 255⟩]
  impliedAfter := some [⟨(⟨6, .u8⟩ : Ctype).ofInt 254, (⟨6, .u8⟩ : Ctype).ofInt 254⟩]
  hardMax := none
  isMacro := false
  breaks := false

example : byteLoop.handleCanonical.map (fun estate => (byteLoop.preLoopHookAfter estate).rl) =
    some [⟨byteLoop.start, byteLoop.start⟩] := by decide

end SmatchFormal.Extra
