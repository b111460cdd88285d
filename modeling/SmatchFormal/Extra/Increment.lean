import SmatchFormal.Extra.Estate

/-!
# Increments and decrements

`increment_state` and `decrement_state` move the two ends of a state by one, as far as the
ends of the type allow.  In a loop the state grows to the end of the type at once.
-/

namespace SmatchFormal.Extra

open SmatchFormal.Ranges

/-! ## The code -/

def intOne : Sval := intCtype.ofInt 1

def bump (move : Sval → Sval) (sval : Sval) : Sval :=
  if !svalIsMin sval && !svalIsMax sval then move sval else sval

/-- `increment_state`; `none` is `NULL`. -/
def incrementState (insideLoop : Bool) (state : Estate) : Option Estate :=
  let min := state.min
  let max := state.max
  if state.rl = [] then none
  else
    let max := if insideLoop then svalTypeMax max.type else max
    if svalCmp min max = 0 then some (allocEstateSval (svalBinop min .add intOne))
    else some (allocEstateRange (bump addOne min) (bump addOne max))

/-- `decrement_state`; `none` is `NULL`. -/
def decrementState (insideLoop : Bool) (state : Estate) : Option Estate :=
  let min := state.min
  let max := state.max
  if state.rl = [] then none
  else
    let min := if insideLoop then svalTypeMin min.type else min
    some (allocEstateRange (bump subOne min) (bump subOne max))

/-! ## What the states have to contain -/

/-- The new state has what every value of the list becomes in a step, and in a loop in any
number of steps, as far as the type can hold it. -/
def Follows (insideLoop : Bool) (type : Ctype) (rl : RangeList) (step : Int)
    (result : Option Estate) : Prop :=
  ∃ state, result = some state ∧ ∀ v ∈ rlSet rl, ∀ k : Int, 1 ≤ k → (insideLoop = false → k = 1) →
    type.lo ≤ v + step * k → v + step * k ≤ type.hi → v + step * k ∈ rlSet state.rl

section Ends

variable {type : Ctype} {sval : Sval}

section

variable (typed : sval.OfType type)
include typed

/-- An end is moved unless it is one of the two ends of the type. -/
theorem bump_eq (move : Sval → Sval) :
    bump move sval = if sval.val = type.lo ∨ sval.val = type.hi then sval else move sval := by
  have bottom := svalIsMin_iff typed
  have top := svalIsMax_iff typed
  unfold bump
  by_cases first : sval.val = type.lo
  · rw [bottom.mpr first, if_pos (Or.inl first)]
    rfl
  · by_cases last : sval.val = type.hi
    · rw [top.mpr last, if_pos (Or.inr last), Bool.not_true, Bool.and_false]
      rfl
    · have low := Bool.eq_false_iff.mpr fun yes => first (bottom.mp yes)
      have high := Bool.eq_false_iff.mpr fun yes => last (top.mp yes)
      rw [low, high, if_neg (not_or.mpr ⟨first, last⟩)]
      rfl

theorem bump_addOne :
    (bump addOne sval).OfType type ∧ sval.val ≤ (bump addOne sval).val ∧
      (bump addOne sval).val ≤ sval.val + 1 ∧
      (sval.val < type.hi → type.lo < sval.val → (bump addOne sval).val = sval.val + 1) := by
  rw [bump_eq typed]
  split_ifs with atEnd
  · exact ⟨typed, le_refl _, by omega, by omega⟩
  · have below : sval.val < type.hi := lt_of_le_of_ne typed.2.2 fun same => atEnd (Or.inr same)
    rw [addOne_val typed below]
    exact ⟨addOne_ofType typed below, by omega, le_refl _, fun _ _ => rfl⟩

theorem bump_subOne :
    (bump subOne sval).OfType type ∧ (bump subOne sval).val ≤ sval.val ∧
      sval.val - 1 ≤ (bump subOne sval).val ∧
      (sval.val < type.hi → type.lo < sval.val → (bump subOne sval).val = sval.val - 1) := by
  rw [bump_eq typed]
  split_ifs with atEnd
  · exact ⟨typed, le_refl _, by omega, by omega⟩
  · have above : type.lo < sval.val :=
      lt_of_le_of_ne typed.2.1 fun same => atEnd (Or.inl same.symm)
    rw [subOne_val typed above]
    exact ⟨subOne_ofType typed above, by omega, le_refl _, fun _ _ => rfl⟩

theorem mem_allocEstateSval_iff (x : Int) :
    x ∈ rlSet (allocEstateSval sval).rl ↔ x = sval.val := by
  unfold allocEstateSval
  rw [setFuzzyMax_rl]
  change x ∈ rlSet (allocRl sval sval) ↔ _
  rw [mem_allocRl_iff typed typed (le_refl _)]
  omega

/-- The sum of a value and one, which the promoted type can hold. -/
theorem svalBinop_add_intOne (below : sval.val < type.hi) :
    (svalBinop sval .add intOne).OfType (getPromotedType type intCtype) ∧
      (svalBinop sval .add intOne).val = sval.val + 1 := by
  obtain ⟨wideLow, wideHigh⟩ := promoted_bounds type
  have least := typed.2.1
  have value : (svalBinop sval .add intOne).val = sval.val + 1 := by
    rw [svalBinop_add_val, typed.1]
    exact IntKind.wrap_of_mem (show (getPromotedType type intCtype).lo ≤ sval.val + 1 by omega)
      (show sval.val + 1 ≤ (getPromotedType type intCtype).hi by omega)
  refine ⟨⟨?_, by omega, by omega⟩, value⟩
  unfold svalBinop
  rw [svalCast_type, typed.1]
  rfl

end

end Ends

section Steps

variable {insideLoop : Bool} {type : Ctype} {state : Estate}

theorem incrementState_follows (canonical : Canonical type state.rl) (nonempty : state.rl ≠ []) :
    Follows insideLoop type state.rl 1 (incrementState insideLoop state) := by
  have low : state.min.OfType type := rlMin_ofType canonical nonempty
  have high : state.max.OfType type := rlMax_ofType canonical nonempty
  have last : (if insideLoop then svalTypeMax state.max.type else state.max).OfType type := by
    rw [high.1]
    split_ifs
    · exact svalTypeMax_ofType type
    · exact high
  have top : state.max.val ≤
      (if insideLoop then svalTypeMax state.max.type else state.max).val := by
    split_ifs
    · rw [svalTypeMax_val, high.1]
      exact high.2.2
    · exact le_refl _
  have whole : insideLoop = true →
      (if insideLoop then svalTypeMax state.max.type else state.max).val = type.hi := by
    intro inside
    rw [if_pos inside, svalTypeMax_val, high.1]
  unfold incrementState
  simp only [if_neg nonempty]
  generalize (if insideLoop then svalTypeMax state.max.type else state.max) = max
    at last top whole ⊢
  have range : ∀ v ∈ rlSet state.rl, state.min.val ≤ v ∧ v ≤ max.val := fun v member =>
    ⟨rlMin_le canonical member, (le_rlMax canonical member).trans top⟩
  rw [svalCmp_ofType low last]
  by_cases same : state.min.val = max.val
  · rw [if_pos ((intCmp_eq_zero _ _).mpr same)]
    refine ⟨_, rfl, fun v member k step once _ fits => ?_⟩
    obtain ⟨above, below⟩ := range v member
    rcases Bool.eq_false_or_eq_true insideLoop with inside | outside
    · have hi := whole inside
      omega
    · obtain ⟨typed, value⟩ := svalBinop_add_intOne low (by have := once outside; omega)
      rw [mem_allocEstateSval_iff typed, value]
      have := once outside
      omega
  · rw [if_neg fun zero => same ((intCmp_eq_zero _ _).mp zero)]
    refine ⟨_, rfl, fun v member k step once _ fits => ?_⟩
    obtain ⟨above, below⟩ := range v member
    obtain ⟨lowTyped, lowAbove, lowBelow, lowMoves⟩ := bump_addOne low
    obtain ⟨highTyped, highAbove, highBelow, highMoves⟩ := bump_addOne last
    change _ ∈ rlSet (allocRl _ _)
    have most := last.2.2
    rw [mem_allocRl_iff lowTyped highTyped (by omega)]
    refine ⟨by omega, ?_⟩
    rcases Bool.eq_false_or_eq_true insideLoop with inside | outside
    · have hi := whole inside
      omega
    · have := once outside
      have least := low.2.1
      by_cases atTop : max.val = type.hi
      · omega
      · have := highMoves (by omega) (by omega)
        omega

theorem decrementState_eq (insideLoop : Bool) (canonical : Canonical type state.rl)
    (nonempty : state.rl ≠ []) :
    ∃ min max, decrementState insideLoop state = some (allocEstateRange (bump subOne min)
        (bump subOne max)) ∧ min.OfType type ∧ max.OfType type ∧ max.val = state.max.val ∧
      min.val = if insideLoop then type.lo else state.min.val := by
  have low : state.min.OfType type := rlMin_ofType canonical nonempty
  have high : state.max.OfType type := rlMax_ofType canonical nonempty
  refine ⟨if insideLoop then svalTypeMin state.min.type else state.min, state.max, ?_, ?_, high,
    rfl,
    ?_⟩
  · unfold decrementState
    rw [if_neg nonempty]
  · rw [low.1]
    split_ifs
    · exact svalTypeMin_ofType type
    · exact low
  · rw [low.1]
    split_ifs
    · exact svalTypeMin_val type
    · rfl

/-- A list whose least value is the greatest one of the type. -/
theorem rlSet_eq_hi (canonical : Canonical type state.rl) (nonempty : state.rl ≠ [])
    (least : state.min.val = type.hi) : rlSet state.rl = {type.hi} := by
  ext v
  constructor
  · intro member
    have above : state.min.val ≤ v := rlMin_le canonical member
    have below := (canonical.mem_type member).2
    exact le_antisymm below (least ▸ above)
  · rintro rfl
    have member : state.min.val ∈ rlSet state.rl := rlMin_mem canonical nonempty
    rwa [least] at member

/-- `decrement_state` is right in a loop, and for every state but the greatest value alone. -/
theorem decrementState_follows_iff (canonical : Canonical type state.rl)
    (nonempty : state.rl ≠ []) :
    Follows insideLoop type state.rl (-1) (decrementState insideLoop state) ↔
      (insideLoop = true ∨ rlSet state.rl ≠ {type.hi}) := by
  obtain ⟨min, max, result, low, high, last, first⟩ :=
    decrementState_eq insideLoop canonical nonempty
  obtain ⟨-, top, size, -⟩ := type.kind.bounds
  rw [result]
  constructor
  · rintro ⟨after, same, follows⟩
    cases same
    by_contra fails
    obtain ⟨outside, single⟩ := not_or.mp fails
    have outside : insideLoop = false := Bool.not_eq_true _ |>.mp outside
    have single := not_not.mp single
    -- Both ends are the greatest value, and neither is moved.
    have least : state.min.val ∈ rlSet state.rl := rlMin_mem canonical nonempty
    have greatest : state.max.val ∈ rlSet state.rl := rlMax_mem canonical nonempty
    rw [single] at least greatest
    have least : state.min.val = type.hi := least
    have greatest : state.max.val = type.hi := greatest
    rw [outside, if_neg (by decide), least] at first
    rw [greatest] at last
    have member := follows type.hi (by rw [single]; rfl) 1 (le_refl _) (fun _ => rfl)
      (by unfold Ctype.lo Ctype.hi; omega) (by omega)
    rw [bump_eq low, bump_eq high, if_pos (Or.inr first), if_pos (Or.inr last)] at member
    have inside := (mem_allocRl_iff low high (by omega) _).mp member
    omega
  · intro condition
    refine ⟨_, rfl, fun v member k step once fits _ => ?_⟩
    obtain ⟨lowTyped, lowBelow, lowAbove, lowMoves⟩ := bump_subOne low
    obtain ⟨highTyped, -, highAbove, -⟩ := bump_subOne high
    have above : state.min.val ≤ v := rlMin_le canonical member
    have below : v ≤ state.max.val := le_rlMax canonical member
    have under : (bump subOne min).val ≤ v + -1 * k := by
      rcases Bool.eq_false_or_eq_true insideLoop with inside | outside
      · rw [inside, if_pos rfl] at first
        omega
      · have single : k = 1 := once outside
        rw [outside, if_neg (by decide)] at first
        have less : min.val < type.hi := by
          refine lt_of_le_of_ne low.2.2 fun same => ?_
          rcases condition with inside | other
          · rw [outside] at inside
            cases inside
          · exact other (rlSet_eq_hi canonical nonempty (first ▸ same))
        by_cases bottom : min.val = type.lo
        · omega
        · have moved := lowMoves less (lt_of_le_of_ne low.2.1 (Ne.symm bottom))
          omega
    change _ ∈ rlSet (allocRl _ _)
    rw [mem_allocRl_iff lowTyped highTyped (by omega)]
    omega

/-- Increments are followed in every state, and decrements in a loop and in every state but the
greatest value of the type alone. -/
theorem steps_follow_iff (insideLoop : Bool) (state : Estate) (canonical : Canonical type state.rl)
    (nonempty : state.rl ≠ []) :
    Follows insideLoop type state.rl 1 (incrementState insideLoop state) ∧
        Follows insideLoop type state.rl (-1) (decrementState insideLoop state) ↔
      (insideLoop = true ∨ rlSet state.rl ≠ {type.hi}) := by
  rw [← decrementState_follows_iff canonical nonempty]
  exact and_iff_right (incrementState_follows canonical nonempty)

end Steps

def uintMaxState : Estate := ⟨[⟨svalTypeMax uintCtype, svalTypeMax uintCtype⟩], false, none⟩

/-- The condition fails for the greatest value alone. -/
theorem steps_follow_iff_uintMax :
    Follows false uintCtype uintMaxState.rl 1 (incrementState false uintMaxState) ∧
        Follows false uintCtype uintMaxState.rl (-1) (decrementState false uintMaxState) ↔
      (false = true ∨ rlSet uintMaxState.rl ≠ {uintCtype.hi}) :=
  steps_follow_iff false uintMaxState
    (.singleton (svalTypeMax_ofType uintCtype) (svalTypeMax_ofType uintCtype) (le_refl _))
    (List.cons_ne_nil _ _)

/-- A decrement of the greatest value leaves it as it is. -/
theorem steps_follow_uintMax :
    ¬ (Follows false uintCtype uintMaxState.rl 1 (incrementState false uintMaxState) ∧
      Follows false uintCtype uintMaxState.rl (-1) (decrementState false uintMaxState)) := by
  rintro ⟨-, state, same, follows⟩
  cases same
  have member := follows (2 ^ 32 - 1) (by decide) 1 (by decide) (fun _ => rfl) (by decide)
    (by decide)
  exact absurd member (by decide)

end SmatchFormal.Extra
