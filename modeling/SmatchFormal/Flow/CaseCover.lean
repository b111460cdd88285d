import SmatchFormal.Flow.Switch

/-!
# A switch on a variable

At every labelled statement `__merge_switches` merges in the state of the switch
with the ranges of the labels for the variable.  The ranges are taken away from
the remaining cases, which are what is merged at a statement without any `case`.
-/

namespace SmatchFormal.Flow

open SmatchFormal.Ranges List

structure SwitchState where
  remaining : RangeList
  hasDefault : Bool

/-- `split_case` with `__merge_switches`: the values of the variable in the state that is
merged in, and the stacks afterwards. -/
def splitCase (switchType : Ctype) (state : SwitchState) (labels : List Label) :
    RangeList × SwitchState :=
  let found := caseRl switchType labels
  let hasDefault := state.hasDefault || found.2
  if found.1 = [] then (state.remaining, ⟨state.remaining, hasDefault⟩)
  else (found.1, ⟨rlFilter state.remaining found.1, hasDefault⟩)

/-- The statements of the body: what is merged in at each of them. -/
def splitBody (switchType : Ctype) (state : SwitchState) :
    List (List Label) → List (Option RangeList) × SwitchState
  | [] => ([], state)
  | [] :: rest =>
    let (merged, last) := splitBody switchType state rest
    (none :: merged, last)
  | (label :: labels) :: rest =>
    let (rl, next) := splitCase switchType state (label :: labels)
    let (merged, last) := splitBody switchType next rest
    (some rl :: merged, last)

/-- The case `STMT_SWITCH` of `__split_stmt`: what is merged in at the statements, and what
`fake_an_empty_default` merges in after them. -/
def splitSwitch (switchType : Ctype) (rl : RangeList) (body : List (List Label)) :
    List (Option RangeList) × Option RangeList :=
  let (merged, last) := splitBody switchType ⟨rl, false⟩ body
  (merged, if !last.hasDefault && last.remaining != [] then some last.remaining else none)

section Merged

variable {type : Ctype}

def hasValue (labels : List Label) : Bool := labels.any fun label => !label.isDefault

/-- Some label stands for the value after the cast to the type of the variable. -/
def InCast (type : Ctype) (labels : List Label) (v : Int) : Prop :=
  ∃ label ∈ labels, v ∈ label.castSet type

theorem caseRl_eq_nil_iff (labels : List Label) :
    (caseRl type labels).1 = [] ↔ hasValue labels = false := by
  rw [caseRl_eq_nil, hasValue, any_eq_false]
  refine forall₂_congr fun label _ => ?_
  rw [Bool.not_eq_true, Bool.not_eq_false']

section

variable {state : SwitchState} (canonical : Canonical type state.remaining)
include canonical

theorem splitCase_spec (labels : List Label) (v : Int) :
    Canonical type (splitCase type state labels).2.remaining ∧
      (v ∈ rlSet (splitCase type state labels).2.remaining ↔
        v ∈ rlSet state.remaining ∧ ¬ InCast type labels v) ∧
      (splitCase type state labels).2.hasDefault =
        (state.hasDefault || labels.any Label.isDefault) ∧
      (v ∈ rlSet (splitCase type state labels).1 ↔
        if hasValue labels then InCast type labels v else v ∈ rlSet state.remaining) := by
  unfold splitCase
  have flag : (caseRl type labels).2 = labels.any Label.isDefault := caseRl_default labels
  cases value : hasValue labels with
  | true =>
    have nonempty : ¬ (caseRl type labels).1 = [] := by
      rw [caseRl_eq_nil_iff, value]
      decide
    obtain ⟨result, values⟩ := rlFilter_spec canonical (caseRl_canonical labels)
    simp only [if_neg nonempty, if_true, flag]
    refine ⟨result, ?_, trivial, mem_caseRl_iff labels v⟩
    rw [values, Set.mem_sdiff, mem_caseRl_iff]
    rfl
  | false =>
    have empty : (caseRl type labels).1 = [] := (caseRl_eq_nil_iff labels).mpr value
    have none : ¬ InCast type labels v := by
      intro inside
      have found := (mem_caseRl_iff labels v).mpr inside
      rw [empty] at found
      exact mem_rlSet_nil v found
    simp only [if_pos empty, Bool.false_eq_true, if_false, flag]
    exact ⟨canonical, ⟨fun member => ⟨member, none⟩, And.left⟩, trivial, trivial⟩

theorem splitBody_last (body : List (List Label)) (v : Int) :
    (v ∈ rlSet (splitBody type state body).2.remaining ↔
        v ∈ rlSet state.remaining ∧ ∀ labels ∈ body, ¬ InCast type labels v) ∧
      (splitBody type state body).2.hasDefault =
        (state.hasDefault || body.any fun labels => labels.any Label.isDefault) := by
  induction body generalizing state with
  | nil => exact ⟨⟨fun member => ⟨member, nofun⟩, And.left⟩, (Bool.or_false _).symm⟩
  | cons labels rest ih =>
    cases labels with
    | nil =>
      obtain ⟨members, flag⟩ := ih canonical
      refine ⟨members.trans ?_, flag⟩
      rw [forall_mem_cons]
      exact and_congr_right fun _ => ⟨fun others => ⟨nofun, others⟩, And.right⟩
    | cons label labels =>
      obtain ⟨next, taken, set, -⟩ := splitCase_spec canonical (label :: labels) v
      obtain ⟨members, flag⟩ := ih next
      refine ⟨members.trans ?_, flag.trans ?_⟩
      · rw [taken, forall_mem_cons, and_assoc]
      · rw [set, Bool.or_assoc]
        rfl

theorem splitBody_merged {body : List (List Label)} {i : Nat} {labels : List Label}
    (found : body[i]? = some labels) (labelled : labels ≠ []) (v : Int) :
    ∃ merged, (splitBody type state body).1[i]? = some (some merged) ∧
      (v ∈ rlSet merged ↔
        if hasValue labels then InCast type labels v
        else v ∈ rlSet state.remaining ∧ ∀ earlier ∈ body.take i, ¬ InCast type earlier v) := by
  induction body generalizing state i with
  | nil => cases found
  | cons first rest ih =>
    cases i with
    | zero =>
      cases found
      cases labels with
      | nil => exact absurd rfl labelled
      | cons label labels =>
        obtain ⟨-, -, -, members⟩ := splitCase_spec canonical (label :: labels) v
        refine ⟨_, rfl, members.trans ?_⟩
        cases hasValue (label :: labels) with
        | true => exact Iff.rfl
        | false => exact ⟨fun member => ⟨member, nofun⟩, And.left⟩
    | succ i =>
      cases first with
      | nil =>
        obtain ⟨merged, here, members⟩ := ih canonical found
        refine ⟨merged, here, members.trans ?_⟩
        rw [take_succ_cons, forall_mem_cons]
        cases hasValue labels with
        | true => exact Iff.rfl
        | false =>
          exact and_congr_right fun _ => ⟨fun others => ⟨nofun, others⟩, And.right⟩
      | cons label labels' =>
        obtain ⟨next, taken, -, -⟩ := splitCase_spec canonical (label :: labels') v
        obtain ⟨merged, here, members⟩ := ih next found
        refine ⟨merged, here, members.trans ?_⟩
        rw [take_succ_cons, forall_mem_cons]
        cases hasValue labels with
        | true => exact Iff.rfl
        | false =>
          change _ ∧ _ ↔ _ ∧ _
          rw [taken, and_assoc]

end

end Merged

/-- The value is in the state that is merged in where C goes: at the statement to which it
jumps, or after the switch. -/
def Covered (type : Ctype) (rl : RangeList) (body : List (List Label)) (v : Int) : Prop :=
  match target type v body with
  | some i => ∃ merged, (splitSwitch type rl body).1[i]? = some (some merged) ∧ v ∈ rlSet merged
  | none => ∃ merged, (splitSwitch type rl body).2 = some merged ∧ v ∈ rlSet merged

/-- The labels do what C does with them.  A statement with a `case` gets only what its
labels stand for after the cast, also if C goes there because of a `default`; the others get
what no label so far stands for. -/
def LabelsCover (type : Ctype) (body : List (List Label)) (v : Int) : Prop :=
  match target type v body with
  | some i =>
    if hasValue (body.getD i []) then InCast type (body.getD i []) v
    else ∀ labels ∈ body.take i, ¬ InCast type labels v
  | none => ∀ labels ∈ body, ¬ InCast type labels v

/-- Without a target there is neither a matching `case` nor a `default`. -/
theorem no_default_of_target_none {type : Ctype} {body : List (List Label)} {v : Int}
    (none : target type v body = none) :
    (body.any fun labels => labels.any Label.isDefault) = false := by
  have rejected : ∀ labels ∈ body, isTarget type v body labels = false :=
    List.findIdx?_eq_none_iff.mp none
  have noCase : hasCase type v body = false := by
    by_contra some_
    rw [Bool.not_eq_false] at some_
    obtain ⟨labels, member, selects⟩ := any_eq_true.mp some_
    have accepted := rejected labels member
    unfold isTarget at accepted
    rw [if_pos some_, selects] at accepted
    cases accepted
  rw [any_eq_false]
  intro labels member
  have accepted := rejected labels member
  unfold isTarget at accepted
  rw [noCase, if_neg Bool.false_ne_true] at accepted
  rw [accepted]
  exact Bool.false_ne_true

theorem labels_ne_nil_of_isTarget {type : Ctype} {body : List (List Label)} {v : Int}
    {labels : List Label} (accepted : isTarget type v body labels = true) : labels ≠ [] := by
  rintro rfl
  unfold isTarget at accepted
  rw [any_nil, any_nil, ite_self] at accepted
  cases accepted

/-- A value of the variable is covered exactly when the labels cover it. -/
theorem covered_iff {type : Ctype} {rl : RangeList} (canonical : Canonical type rl)
    (body : List (List Label)) {v : Int} (possible : v ∈ rlSet rl) :
    Covered type rl body v ↔ LabelsCover type body v := by
  have start : Canonical type (SwitchState.mk rl false).remaining := canonical
  unfold Covered LabelsCover
  cases found : target type v body with
  | some i =>
    obtain ⟨inside, accepted, -⟩ := List.findIdx?_eq_some_iff_getElem.mp found
    have labelled := labels_ne_nil_of_isTarget accepted
    have here : body[i]? = some body[i] := List.getElem?_eq_getElem inside
    have same : body.getD i [] = body[i] := by
      rw [getD_eq_getElem?_getD, here, Option.getD_some]
    obtain ⟨merged, stored, members⟩ := splitBody_merged start here labelled v
    have unique : (∃ merged, (splitSwitch type rl body).1[i]? = some (some merged) ∧
        v ∈ rlSet merged) ↔ v ∈ rlSet merged := by
      constructor
      · rintro ⟨other, stored', member⟩
        have equal := stored.symm.trans stored'
        cases equal
        exact member
      · exact fun member => ⟨merged, stored, member⟩
    simp only
    rw [unique, members, same]
    cases hasValue body[i] with
    | true => exact Iff.rfl
    | false => exact and_iff_right possible
  | none =>
    obtain ⟨members, flag⟩ := splitBody_last start body v
    rw [no_default_of_target_none found] at flag
    simp only
    have after : (splitSwitch type rl body).2 =
        if (splitBody type ⟨rl, false⟩ body).2.remaining != [] then
          some (splitBody type ⟨rl, false⟩ body).2.remaining else none := by
      unfold splitSwitch
      simp only [flag, Bool.or_false, Bool.not_false, Bool.true_and]
    rw [after]
    have rest := members.trans (and_iff_right possible)
    rw [← rest]
    constructor
    · rintro ⟨merged, stored, member⟩
      obtain ⟨-, same⟩ := Option.ite_none_right_eq_some.mp stored
      cases same
      exact member
    · intro member
      refine ⟨_, if_pos ?_, member⟩
      rw [bne_iff_ne]
      intro empty
      rw [empty] at member
      exact mem_rlSet_nil v member

def mixedBody : List (List Label) := [[.caseLabel ⟨intCtype, 1⟩ none, .default]]

def wholeInt : RangeList := [⟨svalTypeMin intCtype, svalTypeMax intCtype⟩]

theorem canonical_wholeInt : Canonical intCtype wholeInt := by
  refine .singleton (svalTypeMin_ofType intCtype) (svalTypeMax_ofType intCtype) ?_
  decide

/-- The value of the case is covered. -/
theorem covered_mixedBody :
    Canonical intCtype wholeInt ∧ 1 ∈ rlSet wholeInt ∧ Covered intCtype wholeInt mixedBody 1 := by
  have possible : 1 ∈ rlSet wholeInt := .inl (by decide)
  refine ⟨canonical_wholeInt, possible, ?_⟩
  refine (covered_iff canonical_wholeInt mixedBody possible).mpr ?_
  change InCast intCtype [.caseLabel ⟨intCtype, 1⟩ none, .default] 1
  refine ⟨_, mem_cons_self, ?_⟩
  change 1 ∈ endsSet intCtype 1 1
  rw [endsSet_of_le le_rfl]
  exact ⟨le_rfl, le_rfl⟩

/-- The other values, for which C goes to the `default`, are not. -/
theorem not_covered_mixedBody :
    Canonical intCtype wholeInt ∧ 2 ∈ rlSet wholeInt ∧ target intCtype 2 mixedBody = some 0 ∧
      (splitSwitch intCtype wholeInt mixedBody).1 =
        [some [⟨⟨intCtype, 1⟩, ⟨intCtype, 1⟩⟩]] ∧
      ¬ Covered intCtype wholeInt mixedBody 2 := by
  have possible : 2 ∈ rlSet wholeInt := .inl (by decide)
  have goes : target intCtype 2 mixedBody = some 0 := rfl
  have states : (splitSwitch intCtype wholeInt mixedBody).1 =
      [some [⟨⟨intCtype, 1⟩, ⟨intCtype, 1⟩⟩]] := rfl
  refine ⟨canonical_wholeInt, possible, goes, states, ?_⟩
  unfold Covered
  rw [goes, states]
  rintro ⟨merged, stored, member⟩
  cases stored
  rcases member with inside | member
  · exact absurd inside (by decide)
  · exact mem_rlSet_nil 2 member

end SmatchFormal.Flow
