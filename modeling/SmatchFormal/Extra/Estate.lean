import SmatchFormal.Ranges.Split
import SmatchFormal.Ranges.Binop

/-!
# Extra states

The states of `smatch_extra.c`: a list of ranges, whether its maximum is a hard
one, and a fuzzy maximum.
-/

namespace SmatchFormal.Extra

open SmatchFormal.Ranges

/-- The fields of `struct data_info` that the loops look at. -/
structure Estate where
  rl : RangeList
  hardMax : Bool
  fuzzyMax : Option Sval
  deriving DecidableEq

namespace Estate

def min (state : Estate) : Sval := rlMin state.rl

def max (state : Estate) : Sval := rlMax state.rl

def type (state : Estate) : Ctype := (rlMax state.rl).type

def setHardMax (state : Estate) : Estate := { state with hardMax := true }

def clearHardMax (state : Estate) : Estate := { state with hardMax := false }

def setFuzzyMax (state : Estate) (fuzzyMax : Sval) : Estate :=
  if rlHasSval state.rl fuzzyMax then { state with fuzzyMax := some fuzzyMax } else state

def clearFuzzyMax (state : Estate) : Estate := { state with fuzzyMax := none }

end Estate

def allocEstateRange (min max : Sval) : Estate := ⟨allocRl min max, false, none⟩

def allocEstateSval (sval : Sval) : Estate :=
  (⟨allocRl sval sval, false, none⟩ : Estate).setHardMax.setFuzzyMax sval

@[simp] theorem setFuzzyMax_rl (state : Estate) (sval : Sval) :
    (state.setFuzzyMax sval).rl = state.rl := by
  unfold Estate.setFuzzyMax
  split <;> rfl

@[simp] theorem setFuzzyMax_hardMax (state : Estate) (sval : Sval) :
    (state.setFuzzyMax sval).hardMax = state.hardMax := by
  unfold Estate.setFuzzyMax
  split <;> rfl

section AllocRl

variable {type : Ctype} {min max : Sval}

theorem allocRl_eq (low : min.OfType type) (high : max.OfType type) (order : min.val ≤ max.val) :
    allocRl min max = [⟨min, max⟩] := by
  have cmp : ¬ svalCmp min max > 0 := by
    rw [svalCmp_ofType low high]
    simpa using order
  unfold allocRl addRangeTyped
  rw [if_neg cmp, if_neg cmp]
  rfl

theorem mem_allocRl_iff (low : min.OfType type) (high : max.OfType type)
    (order : min.val ≤ max.val) (x : Int) :
    x ∈ rlSet (allocRl min max) ↔ min.val ≤ x ∧ x ≤ max.val := by
  rw [allocRl_eq low high order, mem_rlSet_cons]
  exact or_iff_left (mem_rlSet_nil x)

/-- Two ends in the wrong order stand for the whole type. -/
theorem allocRl_reversed (reversed : svalCmp min max > 0) :
    allocRl min max = [⟨svalTypeMin min.type, svalTypeMax min.type⟩] := by
  have low := svalTypeMin_ofType min.type
  have high := svalTypeMax_ofType min.type
  have order : (svalTypeMin min.type).val ≤ (svalTypeMax min.type).val := by
    rw [svalTypeMin_val, svalTypeMax_val]
    exact min.type.lo_le_hi
  rw [← allocRl_eq low high order]
  have forward : ¬ svalCmp (svalTypeMin min.type) (svalTypeMax min.type) > 0 := by
    rw [svalCmp_ofType low high]
    simpa using order
  unfold allocRl
  rw [if_pos reversed, if_neg forward]

end AllocRl

end SmatchFormal.Extra
