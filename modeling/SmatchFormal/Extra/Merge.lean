import SmatchFormal.Extra.Estate
import SmatchFormal.Ranges.TextRoundTrip
import SmatchFormal.Stree.Tracker

/-!
# Merging extra states

`merge_estates` joins the states of two paths.  It returns its first argument when
`estates_equiv` holds, which compares the printed names of the lists and all flags but
`assigned`.  A name is shortened when the list is long.
-/

namespace SmatchFormal.Extra

open SmatchFormal.Ranges SmatchFormal.Stree

structure Relation where
  name : List (Fin 256)
  sym : Nat
  deriving DecidableEq

/-- The name that the constructors of `smatch_estate.c` give to a state with the list. -/
def Names (name : List Char) (rl : RangeList) : Prop :=
  name = showRl rl ∨ rl = [] ∧ name = "empty".toList

/-- `struct smatch_state` of an extra state, with its `struct data_info`.  A fuzzy maximum
without a type is `none`. -/
structure ExtraState where
  name : List Char
  related : List Relation
  rl : RangeList
  fuzzyMax : Option Sval
  hardMax : Bool
  capped : Bool
  treatUntagged : Bool
  assigned : Bool
  set : Bool
  named : Names name rl

namespace ExtraState

def hasHardMax (state : ExtraState) : Bool := !state.rl.isEmpty && state.hardMax

def isCapped (state : ExtraState) : Bool := state.rl.isEmpty || state.capped

def treatsUntagged (state : ExtraState) : Bool := state.rl.isEmpty || state.treatUntagged

def isAssigned (state : ExtraState) : Bool := !state.rl.isEmpty && state.assigned

def isNew (state : ExtraState) : Bool := !state.rl.isEmpty && state.set

def max (state : ExtraState) : Sval := rlMax state.rl

def setRelated (state : ExtraState) (related : List Relation) : ExtraState :=
  { state with related }

def setHardMax (state : ExtraState) : ExtraState := { state with hardMax := true }

/-- `estate_set_fuzzy_max`; a maximum without a type changes nothing in a fresh state. -/
def setFuzzyMax (state : ExtraState) : Option Sval → ExtraState
  | none => state
  | some fuzzyMax =>
    if rlHasSval state.rl fuzzyMax then { state with fuzzyMax := some fuzzyMax } else state

def setCapped (state : ExtraState) : ExtraState := { state with capped := true }

def setTreatUntagged (state : ExtraState) : ExtraState := { state with treatUntagged := true }

def setAssigned (state : ExtraState) : ExtraState := { state with assigned := true }

def setNew (state : ExtraState) : ExtraState := { state with set := true }

end ExtraState

def extraEmpty : ExtraState :=
  ⟨"empty".toList, [], [], none, false, false, false, false, false, Or.inr ⟨rfl, rfl⟩⟩

def allocEstateRl (rl : RangeList) : ExtraState :=
  if rl = [] then extraEmpty
  else ⟨showRl rl, [], rl, none, false, false, false, false, false, Or.inl rfl⟩

def rlistsEquiv : List Relation → List Relation → Bool
  | [], [] => true
  | [], _ :: _ => false
  | _ :: _, [] => false
  | one :: ones, two :: twos =>
    if one.sym ≠ two.sym then false
    else if one.name ≠ two.name then false
    else rlistsEquiv ones twos

def cmpRelation (a b : Relation) : Int :=
  if a.sym > b.sym then -1
  else if a.sym < b.sym then 1
  else strcmp a.name b.name

/-- The loop of `get_shared_relations`, over the two sorted lists. -/
def getSharedRelations : List Relation → List Relation → List Relation
  | [], _ => []
  | _ :: _, [] => []
  | one :: ones, two :: twos =>
    if cmpRelation one two < 0 then getSharedRelations ones (two :: twos)
    else if cmpRelation one two = 0 then one :: getSharedRelations ones twos
    else getSharedRelations (one :: ones) twos
  termination_by ones twos => ones.length + twos.length

/-- `estates_equiv`.  The other tests hold of a state and itself, so that the one for the same
pointer is left out. -/
def estatesEquiv (one two : ExtraState) : Bool :=
  if !rlistsEquiv one.related two.related then false
  else if one.isCapped ≠ two.isCapped then false
  else if one.treatsUntagged ≠ two.treatsUntagged then false
  else if one.hasHardMax ≠ two.hasHardMax then false
  else if one.isNew ≠ two.isNew then false
  else decide (one.name = two.name)

/-- `sval_max` of fuzzy maxima; one without a type compares as zero of the other's type. -/
def fuzzyMaxOf : Option Sval → Option Sval → Option Sval
  | none, none => none
  | none, some two => if svalCmp ⟨two.type, 0⟩ two < 0 then some two else none
  | some one, none => if svalCmp one ⟨one.type, 0⟩ < 0 then none else some one
  | some one, some two => if svalCmp one two < 0 then some two else some one

/-- The test of `merge_estates` for a merged state that is capped. -/
def mergeCapped (s1 s2 : ExtraState) : Bool :=
  s1.isCapped && s2.isCapped ||
    !s1.rl.isEmpty && !s2.rl.isEmpty &&
      (s1.isCapped && decide (s2.max.uvalue < 100) || s2.isCapped && decide (s1.max.uvalue < 100))

def mergeHardMax (s1 s2 : ExtraState) : Bool :=
  s1.hasHardMax && (s2.rl.isEmpty || s2.hasHardMax) ||
    s2.hasHardMax && (s1.rl.isEmpty || s1.hasHardMax)

def mergeEstates (s1 s2 : ExtraState) : ExtraState :=
  if estatesEquiv s1 s2 then s1
  else
    let tmp := allocEstateRl (rlUnion s1.rl s2.rl)
    let tmp := tmp.setRelated (getSharedRelations s1.related s2.related)
    let tmp := if mergeHardMax s1 s2 then tmp.setHardMax else tmp
    let tmp := tmp.setFuzzyMax (fuzzyMaxOf s1.fuzzyMax s2.fuzzyMax)
    let tmp := if mergeCapped s1 s2 then tmp.setCapped else tmp
    let tmp := if s1.treatsUntagged && s2.treatsUntagged then tmp.setTreatUntagged else tmp
    let tmp := if s1.isAssigned || s2.isAssigned then tmp.setAssigned else tmp
    if s1.isNew || s2.isNew then tmp.setNew else tmp

structure UpperBound (s1 s2 merged : ExtraState) : Prop where
  values : rlSet merged.rl = rlSet s1.rl ∪ rlSet s2.rl
  assigned : merged.isAssigned = (s1.isAssigned || s2.isAssigned)
  new : merged.isNew = (s1.isNew || s2.isNew)
  hardMax : merged.hasHardMax = true →
    (s1.rl ≠ [] → s1.hasHardMax = true) ∧ (s2.rl ≠ [] → s2.hasHardMax = true)

/-- States that are taken to be equivalent are assigned both or neither, and where one of the
names is shortened they have the same list. -/
def MergeKeeps (s1 s2 : ExtraState) : Prop :=
  estatesEquiv s1 s2 = true → s1.isAssigned = s2.isAssigned ∧
    (showRlAbbreviates s1.rl = true ∨ showRlAbbreviates s2.rl = true → s1.rl = s2.rl)

section Merge

variable {type : Ctype} {s1 s2 : ExtraState}

theorem rlistsEquiv_iff {one two : List Relation} : rlistsEquiv one two = true ↔ one = two := by
  induction one generalizing two with
  | nil =>
    cases two with
    | nil => exact iff_of_true rfl rfl
    | cons relation rest => simp [rlistsEquiv]
  | cons relation rest ih =>
    cases two with
    | nil => simp [rlistsEquiv]
    | cons other others =>
      obtain ⟨name, sym⟩ := relation
      obtain ⟨name', sym'⟩ := other
      unfold rlistsEquiv
      split_ifs with syms names
      · simp [syms]
      · simp [names]
      · rw [ih]
        simp only [ne_eq, not_not] at syms names
        simp [syms, names]

theorem estatesEquiv_iff : estatesEquiv s1 s2 = true ↔
    s1.related = s2.related ∧ s1.isCapped = s2.isCapped ∧ s1.treatsUntagged = s2.treatsUntagged ∧
      s1.hasHardMax = s2.hasHardMax ∧ s1.isNew = s2.isNew ∧ s1.name = s2.name := by
  unfold estatesEquiv
  rw [← rlistsEquiv_iff]
  split_ifs with related capped untagged hardMax new <;> simp_all

theorem estatesEquiv_comm : estatesEquiv s1 s2 = estatesEquiv s2 s1 := by
  rw [Bool.eq_iff_iff, estatesEquiv_iff, estatesEquiv_iff]
  simp only [eq_comm]

/-- A name that is not shortened is read back as the list. -/
theorem strToRl_name (canonical : Canonical type s1.rl)
    (complete : showRlAbbreviates s1.rl = false) : strToRl (some type) s1.name = some s1.rl := by
  rcases s1.named with same | ⟨none, same⟩
  · rcases showRl_printed s1.rl with plain | ⟨init, last, rest, split, filled, more, cut⟩
    · rw [same, (Prod.mk.inj plain).1]
      exact strToRl_listText canonical
    · rw [(Prod.mk.inj cut).2] at complete
      cases complete
  · rw [same, none]
    rfl

/-- States with one name have one list, when it is not shortened. -/
theorem lists_of_name (first : Canonical type s1.rl) (second : Canonical type s2.rl)
    (names : s1.name = s2.name) (whole : showRlAbbreviates s1.rl = false)
    (other : showRlAbbreviates s2.rl = false) : s1.rl = s2.rl := by
  have one := strToRl_name first whole
  have two := strToRl_name second other
  rw [names, two] at one
  exact (Option.some.inj one).symm

theorem allocEstateRl_rl (rl : RangeList) : (allocEstateRl rl).rl = rl := by
  unfold allocEstateRl
  split_ifs with none
  · exact none.symm
  · rfl

theorem setFuzzyMax_fields (state : ExtraState) (fuzzyMax : Option Sval) :
    (state.setFuzzyMax fuzzyMax).rl = state.rl ∧
      (state.setFuzzyMax fuzzyMax).hardMax = state.hardMax ∧
      (state.setFuzzyMax fuzzyMax).assigned = state.assigned ∧
      (state.setFuzzyMax fuzzyMax).set = state.set := by
  unfold ExtraState.setFuzzyMax
  split
  · exact ⟨rfl, rfl, rfl, rfl⟩
  · split_ifs
    · exact ⟨rfl, rfl, rfl, rfl⟩
    · exact ⟨rfl, rfl, rfl, rfl⟩

theorem allocEstateRl_flags (rl : RangeList) :
    (allocEstateRl rl).hardMax = false ∧ (allocEstateRl rl).assigned = false ∧
      (allocEstateRl rl).set = false := by
  unfold allocEstateRl extraEmpty
  split_ifs <;> exact ⟨rfl, rfl, rfl⟩

/-- What the merge makes of states that are not equivalent. -/
theorem mergeEstates_fields (other : estatesEquiv s1 s2 = false) :
    (mergeEstates s1 s2).rl = rlUnion s1.rl s2.rl ∧
      (mergeEstates s1 s2).hardMax = mergeHardMax s1 s2 ∧
      (mergeEstates s1 s2).assigned = (s1.isAssigned || s2.isAssigned) ∧
      (mergeEstates s1 s2).set = (s1.isNew || s2.isNew) := by
  have start := allocEstateRl_rl (rlUnion s1.rl s2.rl)
  obtain ⟨hardMax, assigned, set⟩ := allocEstateRl_flags (rlUnion s1.rl s2.rl)
  unfold mergeEstates
  rw [if_neg (by simp [other])]
  dsimp only
  -- the setters in turn; each leaves the other fields alone
  refine ⟨?_, ?_, ?_, ?_⟩
  · simp only [apply_ite ExtraState.rl, ExtraState.setNew, ExtraState.setAssigned,
      ExtraState.setTreatUntagged, ExtraState.setCapped, setFuzzyMax_fields, ite_self,
      ExtraState.setHardMax, ExtraState.setRelated, start]
  · simp only [apply_ite ExtraState.hardMax, ExtraState.setNew, ExtraState.setAssigned,
      ExtraState.setTreatUntagged, ExtraState.setCapped, setFuzzyMax_fields, ite_self,
      ExtraState.setHardMax, ExtraState.setRelated, hardMax]
    cases mergeHardMax s1 s2 <;> rfl
  · simp only [apply_ite ExtraState.assigned, ExtraState.setNew, ExtraState.setAssigned,
      ExtraState.setTreatUntagged, ExtraState.setCapped, setFuzzyMax_fields, ite_self,
      ExtraState.setHardMax, ExtraState.setRelated, assigned]
    cases s1.isAssigned || s2.isAssigned <;> rfl
  · simp only [apply_ite ExtraState.set, ExtraState.setNew, ExtraState.setAssigned,
      ExtraState.setTreatUntagged, ExtraState.setCapped, setFuzzyMax_fields, ite_self,
      ExtraState.setHardMax, ExtraState.setRelated, set]
    cases s1.isNew || s2.isNew <;> rfl

theorem rlUnion_nil_iff (first : Canonical type s1.rl) (second : Canonical type s2.rl) :
    rlUnion s1.rl s2.rl = [] ↔ s1.rl = [] ∧ s2.rl = [] := by
  have values := rlUnion_rlSet first second
  constructor
  · intro none
    rw [none] at values
    have empty : ∀ {rl}, Canonical type rl → (∀ x, x ∉ rlSet rl) → rl = [] := by
      intro rl canonical outside
      by_contra some
      exact outside _ (rlMin_mem canonical some)
    have outside : ∀ x, x ∉ rlSet s1.rl ∪ rlSet s2.rl := fun x member =>
      mem_rlSet_nil x (values ▸ member)
    exact ⟨empty first fun x member => outside x (Or.inl member),
      empty second fun x member => outside x (Or.inr member)⟩
  · rintro ⟨none, other⟩
    rw [none, other]
    rfl

/-- A merge of states that are not equivalent is an upper bound. -/
theorem upperBound_of_other (first : Canonical type s1.rl) (second : Canonical type s2.rl)
    (other : estatesEquiv s1 s2 = false) : UpperBound s1 s2 (mergeEstates s1 s2) := by
  obtain ⟨rl, hardMax, assigned, set⟩ := mergeEstates_fields other
  have none := rlUnion_nil_iff first second
  have empty : (rlUnion s1.rl s2.rl).isEmpty = (s1.rl.isEmpty && s2.rl.isEmpty) := by
    rw [Bool.eq_iff_iff, Bool.and_eq_true, List.isEmpty_iff, List.isEmpty_iff, List.isEmpty_iff]
    exact none
  constructor
  · rw [rl]
    exact rlUnion_rlSet first second
  · unfold ExtraState.isAssigned at assigned ⊢
    rw [rl, assigned, empty]
    cases s1.rl.isEmpty <;> cases s2.rl.isEmpty <;> simp
  · unfold ExtraState.isNew at set ⊢
    rw [rl, set, empty]
    cases s1.rl.isEmpty <;> cases s2.rl.isEmpty <;> simp
  · intro marked
    unfold ExtraState.hasHardMax at marked
    rw [rl, hardMax, empty, Bool.and_eq_true] at marked
    have both := marked.2
    unfold mergeHardMax at both
    rw [Bool.or_eq_true, Bool.and_eq_true, Bool.and_eq_true, Bool.or_eq_true, Bool.or_eq_true,
      List.isEmpty_iff, List.isEmpty_iff] at both
    rcases both with ⟨one, two⟩ | ⟨two, one⟩
    · exact ⟨fun _ => one, fun some => two.resolve_left some⟩
    · exact ⟨fun some => one.resolve_left some, fun _ => two⟩

/-- The first of two states that are taken to be equivalent is an upper bound when it has the
values and the flag of the other one. -/
theorem upperBound_left_iff (same : estatesEquiv s1 s2 = true) :
    UpperBound s1 s2 s1 ↔
      rlSet s2.rl ⊆ rlSet s1.rl ∧ (s2.isAssigned = true → s1.isAssigned = true) := by
  obtain ⟨-, -, -, hardMax, new, -⟩ := estatesEquiv_iff.mp same
  constructor
  · intro bound
    refine ⟨fun x member => ?_, fun marked => ?_⟩
    · rw [bound.values]
      exact Or.inr member
    · rw [bound.assigned, marked, Bool.or_true]
  · rintro ⟨values, assigned⟩
    refine ⟨(Set.union_eq_self_of_subset_right values).symm, ?_, ?_, fun marked => ?_⟩
    · cases flag : s2.isAssigned with
      | false => rw [Bool.or_false]
      | true => rw [assigned flag, Bool.true_or]
    · rw [← new, Bool.or_self]
    · exact ⟨fun _ => marked, fun _ => hardMax ▸ marked⟩

/-- The merge in either order is an upper bound exactly when `MergeKeeps` holds. -/
theorem mergeEstates_upperBound_iff (first : Canonical type s1.rl)
    (second : Canonical type s2.rl) :
    (UpperBound s1 s2 (mergeEstates s1 s2) ∧ UpperBound s1 s2 (mergeEstates s2 s1)) ↔
      MergeKeeps s1 s2 := by
  have turn : ∀ merged, UpperBound s1 s2 merged ↔ UpperBound s2 s1 merged := by
    intro merged
    constructor
    · rintro ⟨values, assigned, new, hardMax⟩
      exact ⟨values.trans (Set.union_comm _ _), assigned.trans (Bool.or_comm _ _),
        new.trans (Bool.or_comm _ _), fun marked => (hardMax marked).symm⟩
    · rintro ⟨values, assigned, new, hardMax⟩
      exact ⟨values.trans (Set.union_comm _ _), assigned.trans (Bool.or_comm _ _),
        new.trans (Bool.or_comm _ _), fun marked => (hardMax marked).symm⟩
  rw [turn (mergeEstates s2 s1)]
  cases same : estatesEquiv s1 s2 with
  | false =>
    have back : estatesEquiv s2 s1 = false := estatesEquiv_comm.symm.trans same
    refine iff_of_true ⟨upperBound_of_other first second same,
      upperBound_of_other second first back⟩ fun equiv => ?_
    rw [same] at equiv
    cases equiv
  | true =>
    have back : estatesEquiv s2 s1 = true := estatesEquiv_comm.symm.trans same
    have one : mergeEstates s1 s2 = s1 := if_pos same
    have two : mergeEstates s2 s1 = s2 := if_pos back
    have names := (estatesEquiv_iff.mp same).2.2.2.2.2
    rw [one, two, upperBound_left_iff same, upperBound_left_iff back]
    constructor
    · rintro ⟨⟨below, assigned⟩, ⟨above, assigned'⟩⟩ -
      refine ⟨Bool.eq_iff_iff.mpr ⟨assigned', assigned⟩, fun _ => ?_⟩
      exact first.eq_of_rlSet_eq second (Set.Subset.antisymm above below)
    · intro keeps
      obtain ⟨assigned, shortened⟩ := keeps same
      have lists : s1.rl = s2.rl := by
        by_cases whole : showRlAbbreviates s1.rl = false ∧ showRlAbbreviates s2.rl = false
        · exact lists_of_name first second names whole.1 whole.2
        · rw [not_and_or, Bool.not_eq_false, Bool.not_eq_false] at whole
          exact shortened whole
      rw [lists, assigned]
      exact ⟨⟨Set.Subset.rfl, id⟩, ⟨Set.Subset.rfl, id⟩⟩

end Merge

def plainState (rl : RangeList) (assigned : Bool) : ExtraState :=
  ⟨showRl rl, [], rl, none, false, false, false, assigned, false, Or.inl rfl⟩

/-- The theorem for a known zero and a known one. -/
theorem mergeEstates_upperBound_iff_small :
    (UpperBound (plainState [⟨intCtype.ofInt 0, intCtype.ofInt 0⟩] true)
        (plainState [⟨intCtype.ofInt 1, intCtype.ofInt 1⟩] false)
        (mergeEstates (plainState [⟨intCtype.ofInt 0, intCtype.ofInt 0⟩] true)
          (plainState [⟨intCtype.ofInt 1, intCtype.ofInt 1⟩] false)) ∧
      UpperBound (plainState [⟨intCtype.ofInt 0, intCtype.ofInt 0⟩] true)
        (plainState [⟨intCtype.ofInt 1, intCtype.ofInt 1⟩] false)
        (mergeEstates (plainState [⟨intCtype.ofInt 1, intCtype.ofInt 1⟩] false)
          (plainState [⟨intCtype.ofInt 0, intCtype.ofInt 0⟩] true))) ↔
      MergeKeeps (plainState [⟨intCtype.ofInt 0, intCtype.ofInt 0⟩] true)
        (plainState [⟨intCtype.ofInt 1, intCtype.ofInt 1⟩] false) :=
  @mergeEstates_upperBound_iff intCtype _ _ (by decide) (by decide)

/-- The long list of the given last value: twenty ranges of ten digits before it. -/
def longList (last : Int) : RangeList :=
  ((List.range 20).map fun (i : Nat) =>
    ⟨intCtype.ofInt (1000000000 + 10 * i), intCtype.ofInt (1000000005 + 10 * i)⟩) ++
    [⟨intCtype.ofInt last, intCtype.ofInt last⟩]

/-- A known zero loses that it was assigned on the other path, and one of two long lists its
last value. -/
theorem mergeEstates_loses :
    ¬ UpperBound (plainState [⟨intCtype.ofInt 0, intCtype.ofInt 0⟩] false)
        (plainState [⟨intCtype.ofInt 0, intCtype.ofInt 0⟩] true)
        (mergeEstates (plainState [⟨intCtype.ofInt 0, intCtype.ofInt 0⟩] false)
          (plainState [⟨intCtype.ofInt 0, intCtype.ofInt 0⟩] true)) ∧
      Canonical intCtype (longList 2000000000) ∧ Canonical intCtype (longList 2000000001) ∧
      (mergeEstates (plainState (longList 2000000000) false)
        (plainState (longList 2000000001) false)).rl = longList 2000000000 ∧
      2000000001 ∈ rlSet (longList 2000000001) ∧ 2000000001 ∉ rlSet (longList 2000000000) := by
  refine ⟨fun bound => absurd bound.assigned (by decide), by decide, by decide, ?_, by decide,
    by decide⟩
  have same : estatesEquiv (plainState (longList 2000000000) false)
      (plainState (longList 2000000001) false) = true := by
    decide +kernel
  unfold mergeEstates
  rw [if_pos same]
  rfl

end SmatchFormal.Extra
