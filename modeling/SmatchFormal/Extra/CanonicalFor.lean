import SmatchFormal.Extra.Estate

/-!
# Counting loops

A loop `for (i = s; i op e; i++)`, or one with `i--`, is summarised without
iterating.  `handle_canonical_for_inc` and `handle_canonical_for_dec` set the
range of the counter for the body, and `__extra_pre_loop_hook_after` the one for
the code after the loop.
-/

namespace SmatchFormal.Extra

open SmatchFormal.Ranges Comparison

/-- What is known about a loop: its direction, the single value of the counter before it,
its condition, the range of the limit if one is implied, before the loop and where the hook
after it looks, the hard maximum of the limit, whether the condition comes from a macro, and
whether the body has a `break`.  The counter and the limit have the type of the first value. -/
structure ForLoop where
  increment : Bool
  start : Sval
  op : Comparison
  implied : Option RangeList
  impliedAfter : Option RangeList
  hardMax : Option Sval
  isMacro : Bool
  breaks : Bool

namespace ForLoop

def type (loop : ForLoop) : Ctype := loop.start.type

def impliedMax (loop : ForLoop) : Sval × Bool :=
  match loop.implied with
  | some rl => (rlMax rl, false)
  | none =>
    let last := svalCast loop.type (svalTypeMax loop.type)
    (last, svalIsMax last)

def lastInc (loop : ForLoop) : Option Sval :=
  let (last, unknownEnd) := loop.impliedMax
  match loop.op with
  | unsignedLt | notEqual | lt =>
    some (if !svalIsMin last && !unknownEnd then subOne last else last)
  | unsignedLte | lte => some last
  | _ => none

/-- The hard and the fuzzy maximum that `handle_canonical_for_inc` sets. -/
def setMax (loop : ForLoop) (estate : Estate) : Estate :=
  match loop.hardMax with
  | none => estate
  | some max =>
    let estate := if loop.isMacro then estate else estate.setHardMax
    let max := if loop.op = lt ∨ loop.op = unsignedLt ∨ loop.op = notEqual then subOne max else max
    estate.setFuzzyMax (svalCast loop.type max)

def handleInc (loop : ForLoop) : Option Estate :=
  match loop.lastInc with
  | none => none
  | some last =>
    if svalCmp last loop.start < 0 then none
    else some (loop.setMax (allocEstateRange loop.start (svalCast loop.type last)))

/-- `get_implied_min(condition->right, &end)`, cast to the type of the counter. -/
def impliedMin (loop : ForLoop) : Sval :=
  svalCast loop.type
    (match loop.implied with
    | some rl => rlMin rl
    | none => svalTypeMin loop.type)

def lastDec (loop : ForLoop) : Option Sval :=
  let last := loop.impliedMin
  match loop.op with
  | notEqual | gt => some (if !svalIsMax last then addOne last else last)
  | gte => some last
  | _ => none

def handleDec (loop : ForLoop) : Option Estate :=
  match loop.lastDec with
  | none => none
  | some last =>
    if svalCmp last loop.start > 0 then none
    else
      let estate := (allocEstateRange last loop.start).setHardMax
      some (match estate.fuzzyMax with
        | none => estate
        | some max => estate.setFuzzyMax max)

def handleCanonical (loop : ForLoop) : Option Estate :=
  if loop.increment then loop.handleInc else loop.handleDec

/-- The value of the counter for which `__extra_pre_loop_hook_after` thinks the loop ends. -/
def afterLimit (loop : ForLoop) (sm : Estate) : Sval :=
  let limit :=
    if loop.increment then
      if (loop.impliedAfter.bind rlToSval).isNone && svalIsMax sm.max then sm.max
      else svalBinop sm.max .add (svalTypeVal sm.type 1)
    else svalBinop sm.min .sub (svalTypeVal sm.type 1)
  svalCast sm.type limit

def keepFuzzyMax (sm state : Estate) : Estate :=
  match sm.fuzzyMax with
  | some hmax => if svalCmp hmax sm.max ≠ 0 then state.clearFuzzyMax else state
  | none => state.clearFuzzyMax

def preLoopHookAfter (loop : ForLoop) (sm : Estate) : Estate :=
  let limit := loop.afterLimit sm
  let state :=
    if !sm.hardMax && !loop.breaks then
      if loop.increment then allocEstateRange sm.min limit else allocEstateRange limit sm.max
    else allocEstateSval limit
  keepFuzzyMax sm (if sm.hardMax then state else state.clearHardMax)

def counter (loop : ForLoop) (k : Nat) : Int :=
  if loop.increment then loop.start.val + k else loop.start.val - k

def limits (loop : ForLoop) : Set Int :=
  match loop.implied with
  | some rl => rlSet rl
  | none => Set.Icc loop.type.lo loop.type.hi

/-- The limit is one for which the loop counts: with `!=` it is on the side to which the
loop moves. -/
def Admits (loop : ForLoop) (e : Int) : Prop :=
  e ∈ loop.limits ∧
    (loop.op = notEqual → if loop.increment then loop.start.val ≤ e else e ≤ loop.start.val)

def InType (loop : ForLoop) (k : Nat) : Prop :=
  loop.type.lo ≤ loop.counter k ∧ loop.counter k ≤ loop.type.hi

def Iterates (loop : ForLoop) (e : Int) (k : Nat) : Prop :=
  ∀ j ≤ k, loop.op.Holds (loop.counter j) e ∧ loop.InType j

def Leaves (loop : ForLoop) (e : Int) (k : Nat) : Prop :=
  (∀ j < k, loop.op.Holds (loop.counter j) e) ∧ ¬ loop.op.Holds (loop.counter k) e ∧
    ∀ j ≤ k, loop.InType j

def SoundStates (loop : ForLoop) (inside after : Estate) : Prop :=
  (∀ e, loop.Admits e → ∀ k, loop.Iterates e k → loop.counter k ∈ rlSet inside.rl) ∧
    ∀ e, loop.Admits e → ∀ k, loop.Leaves e k → loop.counter k ∈ rlSet after.rl

structure Typed (loop : ForLoop) : Prop where
  start : loop.start.OfType loop.type
  implied : ∀ rl, loop.implied = some rl → Canonical loop.type rl ∧ rl ≠ []

/-- The largest limit, or the smallest one for a loop that counts down. -/
def extreme (loop : ForLoop) : Int :=
  match loop.implied with
  | some rl => if loop.increment then (rlMax rl).val else (rlMin rl).val
  | none => if loop.increment then loop.type.hi else loop.type.lo

def EndsAtTop (loop : ForLoop) : Prop :=
  if loop.op = lte ∨ loop.op = unsignedLte then loop.extreme = loop.type.hi
  else loop.implied = none

instance (loop : ForLoop) : Decidable loop.EndsAtTop :=
  inferInstanceAs (Decidable (if loop.op = lte ∨ loop.op = unsignedLte then
    loop.extreme = loop.type.hi else loop.implied = none))

/-- One value is known for the limit after the loop, when the condition has failed, and the
body has seen the maximum of the type: one more is its minimum. -/
def WrapsAround (loop : ForLoop) : Prop :=
  ((loop.impliedAfter.bind rlToSval).isNone = false ∧ loop.type.kind ≠ .bool) ∧
    loop.EndsAtTop

instance (loop : ForLoop) : Decidable loop.WrapsAround :=
  instDecidableAnd

/-- All limits that count are the extreme one, with the exceptions at the ends of the type. -/
def OneLimit (loop : ForLoop) : Prop :=
  match loop.increment, loop.op with
  | true, lt | true, unsignedLt | true, notEqual =>
    if loop.implied = none then loop.start.val = loop.type.hi ∧ ¬ loop.WrapsAround
    else loop.type.lo < loop.extreme ∧ ∀ e, loop.Admits e → e = loop.extreme
  | true, _ =>
    ∀ e, loop.Admits e → e < loop.type.hi →
      if loop.extreme = loop.type.hi then
        (loop.start.val = loop.type.hi ∨ e + 1 = loop.type.hi) ∧ ¬ loop.WrapsAround
      else e = loop.extreme
  | false, gt | false, notEqual =>
    loop.extreme < loop.type.hi ∧ ∀ e, loop.Admits e → e = loop.extreme
  | false, _ =>
    ∀ e, loop.Admits e → loop.type.lo < e → loop.type.lo < loop.extreme ∧ e = loop.extreme

def IsInterval (loop : ForLoop) : Prop :=
  loop.increment = true ∧ (loop.hardMax = none ∨ loop.isMacro = true) ∧ loop.breaks = false

end ForLoop

end SmatchFormal.Extra
