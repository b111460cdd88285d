import SmatchFormal.Ranges.Compare

/-!
# The labels of a switch

The body of a switch is a list of statements, each under any number of `case`
and `default` labels.  The first part is what C does with the labels, the second
what `split_case` makes of them.
-/

namespace SmatchFormal.Flow

open SmatchFormal.Ranges List

/-- A label: `default`, `case start` or `case start ... end`, with constants. -/
inductive Label where
  | default
  | caseLabel (start : Sval) (caseTo : Option Sval)
  deriving DecidableEq

def Label.isDefault : Label → Bool
  | .default => true
  | .caseLabel _ _ => false

def Label.selects (type : Ctype) (v : Int) : Label → Bool
  | .default => false
  | .caseLabel start none => type.kind.promote.wrap start.val == v
  | .caseLabel start (some caseTo) =>
    decide (type.kind.promote.wrap start.val ≤ v) && decide (v ≤ type.kind.promote.wrap caseTo.val)

def hasCase (type : Ctype) (v : Int) (body : List (List Label)) : Bool :=
  body.any fun labels => labels.any (Label.selects type v)

/-- The statement has the label to which C jumps: the matching `case`, wherever it is, or
else `default`. -/
def isTarget (type : Ctype) (v : Int) (body : List (List Label)) (labels : List Label) : Bool :=
  if hasCase type v body then labels.any (Label.selects type v) else labels.any Label.isDefault

def target (type : Ctype) (v : Int) (body : List (List Label)) : Option Nat :=
  body.findIdx? (isTarget type v body)

def getCaseRl (switchType : Ctype) : Label → RangeList
  | .default => []
  | .caseLabel start none => addRange [] (svalCast switchType start) (svalCast switchType start)
  | .caseLabel start (some caseTo) =>
    addRange [] (svalCast switchType start) (svalCast switchType caseTo)

/-- The loop of `split_case` below a label: the ranges of all labels, and whether
`__set_default` is called. -/
def splitCaseLoop (switchType : Ctype) (stmt : Label) (rl : RangeList) (isDefault : Bool) :
    List Label → RangeList × Bool
  | [] => (rl, isDefault || stmt.isDefault)
  | next :: labels =>
    let tmp := getCaseRl switchType next
    if tmp = [] then splitCaseLoop switchType next rl isDefault labels
    else splitCaseLoop switchType next (rlUnion rl tmp) (isDefault || stmt.isDefault) labels

def caseRl (switchType : Ctype) : List Label → RangeList × Bool
  | [] => ([], false)
  | stmt :: labels => splitCaseLoop switchType stmt (getCaseRl switchType stmt) false labels

section CaseRl

variable {type : Ctype}

/-- The values that a label stands for after the cast to the type of the value. -/
def Label.castSet (type : Ctype) : Label → Set Int
  | .default => ∅
  | .caseLabel start caseTo =>
    endsSet type (type.wrap start.val) (type.wrap (caseTo.getD start).val)

theorem addRange_cast (start caseTo : Sval) :
    Added type (endsSet type (type.wrap start.val) (type.wrap caseTo.val)) []
      (addRange [] (svalCast type start) (svalCast type caseTo)) := by
  rw [← svalCast_val, ← svalCast_val]
  exact addRangeTyped_added (svalCast_ofType type start) (svalCast_ofType type caseTo) (.nil type)

theorem addRange_nil_ne (start caseTo : Sval) : addRange [] start caseTo ≠ [] := by
  change addRangeTyped [] start caseTo ≠ []
  unfold addRangeTyped
  by_cases order : svalCmp start caseTo > 0
  · rw [if_pos order]
    exact cons_ne_nil _ _
  · rw [if_neg order]
    exact cons_ne_nil _ _

theorem getCaseRl_canonical (label : Label) : Canonical type (getCaseRl type label) := by
  rcases label with _ | ⟨start, _ | caseTo⟩
  · exact .nil type
  · exact (addRange_cast start start).canonical
  · exact (addRange_cast start caseTo).canonical

theorem getCaseRl_rlSet (label : Label) : rlSet (getCaseRl type label) = label.castSet type := by
  have values : ∀ start caseTo : Sval,
      rlSet (addRange [] (svalCast type start) (svalCast type caseTo)) =
        endsSet type (type.wrap start.val) (type.wrap caseTo.val) := by
    intro start caseTo
    ext x
    rw [(addRange_cast start caseTo).mem_iff]
    exact or_iff_left (mem_rlSet_nil x)
  rcases label with _ | ⟨start, _ | caseTo⟩
  · rfl
  · exact values start start
  · exact values start caseTo

theorem getCaseRl_eq_nil (label : Label) : getCaseRl type label = [] ↔ label.isDefault = true := by
  rcases label with _ | ⟨start, _ | caseTo⟩
  · exact ⟨fun _ => rfl, fun _ => rfl⟩
  · exact ⟨fun empty => absurd empty (addRange_nil_ne _ _), nofun⟩
  · exact ⟨fun empty => absurd empty (addRange_nil_ne _ _), nofun⟩

theorem splitCaseLoop_spec (stmt : Label) {rl : RangeList} (canonical : Canonical type rl)
    (isDefault : Bool) (labels : List Label) :
    Canonical type (splitCaseLoop type stmt rl isDefault labels).1 ∧
      ∀ v, v ∈ rlSet (splitCaseLoop type stmt rl isDefault labels).1 ↔
        v ∈ rlSet rl ∨ ∃ label ∈ labels, v ∈ label.castSet type := by
  induction labels generalizing stmt rl isDefault with
  | nil => exact ⟨canonical, fun v => ⟨.inl, fun either => either.resolve_right nofun⟩⟩
  | cons next labels ih =>
    rw [splitCaseLoop]
    by_cases empty : getCaseRl type next = []
    · simp only [if_pos empty]
      obtain ⟨result, members⟩ := ih next canonical isDefault
      refine ⟨result, fun v => (members v).trans (or_congr_right ?_)⟩
      have none : v ∉ next.castSet type := by
        rw [← getCaseRl_rlSet, empty]
        exact mem_rlSet_nil v
      rw [exists_mem_cons_iff, or_iff_right none]
    · simp only [if_neg empty]
      obtain ⟨result, members⟩ :=
        ih next (rlUnion_canonical canonical (getCaseRl_canonical next))
          (isDefault || stmt.isDefault)
      refine ⟨result, fun v => (members v).trans ?_⟩
      rw [rlUnion_rlSet canonical (getCaseRl_canonical next), Set.mem_union, getCaseRl_rlSet,
        exists_mem_cons_iff, or_assoc]

theorem caseRl_canonical (labels : List Label) : Canonical type (caseRl type labels).1 := by
  cases labels with
  | nil => exact .nil type
  | cons stmt labels => exact (splitCaseLoop_spec stmt (getCaseRl_canonical stmt) false labels).1

theorem mem_caseRl_iff (labels : List Label) (v : Int) :
    v ∈ rlSet (caseRl type labels).1 ↔ ∃ label ∈ labels, v ∈ label.castSet type := by
  cases labels with
  | nil => exact ⟨fun member => absurd member (mem_rlSet_nil v), nofun⟩
  | cons stmt labels =>
    rw [exists_mem_cons_iff, ← getCaseRl_rlSet stmt]
    exact (splitCaseLoop_spec stmt (getCaseRl_canonical stmt) false labels).2 v

theorem castSet_nonempty {label : Label} (value : label.isDefault = false) :
    (label.castSet type).Nonempty := by
  rcases label with _ | ⟨start, caseTo⟩
  · cases value
  · unfold Label.castSet endsSet
    by_cases order : type.wrap start.val ≤ type.wrap (caseTo.getD start).val
    · exact ⟨type.wrap start.val, by simp only [if_pos order]; exact ⟨le_rfl, order⟩⟩
    · exact ⟨type.lo, by simp only [if_neg order]; exact ⟨le_rfl, type.lo_le_hi⟩⟩

/-- Only a statement without any `case` has no ranges. -/
theorem caseRl_eq_nil (labels : List Label) :
    (caseRl type labels).1 = [] ↔ ∀ label ∈ labels, label.isDefault = true := by
  constructor
  · intro empty label member
    by_contra value
    obtain ⟨v, inside⟩ := castSet_nonempty (Bool.not_eq_true _ ▸ value)
    have found := (mem_caseRl_iff labels v).mpr ⟨label, member, inside⟩
    rw [empty] at found
    exact mem_rlSet_nil v found
  · intro defaults
    have loop : ∀ (labels : List Label) (stmt : Label) (isDefault : Bool),
        (∀ label ∈ labels, label.isDefault = true) →
        (splitCaseLoop type stmt [] isDefault labels).1 = [] := by
      intro labels
      induction labels with
      | nil => exact fun _ _ _ => rfl
      | cons next labels ih =>
        intro stmt isDefault defaults
        have empty : getCaseRl type next = [] :=
          (getCaseRl_eq_nil next).mpr (defaults next mem_cons_self)
        rw [splitCaseLoop]
        simp only [if_pos empty]
        exact ih next isDefault fun label member => defaults label (mem_cons_of_mem _ member)
    cases labels with
    | nil => rfl
    | cons stmt labels =>
      have empty : getCaseRl type stmt = [] :=
        (getCaseRl_eq_nil stmt).mpr (defaults stmt mem_cons_self)
      rw [caseRl, empty]
      exact loop labels stmt false fun label member =>
        defaults label (mem_cons_of_mem _ member)

/-- `__set_default` is called for a statement with a `default` among its labels. -/
theorem caseRl_default (labels : List Label) :
    (caseRl type labels).2 = labels.any Label.isDefault := by
  have loop : ∀ (labels : List Label) (stmt : Label) (rl : RangeList) (isDefault : Bool),
      (splitCaseLoop type stmt rl isDefault labels).2 =
        (isDefault || (stmt :: labels).any Label.isDefault) := by
    intro labels
    induction labels with
    | nil =>
      intro stmt rl isDefault
      rw [splitCaseLoop, any_cons, any_nil, Bool.or_false]
    | cons next labels ih =>
      intro stmt rl isDefault
      rw [splitCaseLoop, any_cons]
      by_cases empty : getCaseRl type next = []
      · simp only [if_pos empty]
        rw [ih, any_cons, (getCaseRl_eq_nil next).mp empty, Bool.true_or, Bool.or_true,
          Bool.or_true, Bool.or_true]
      · simp only [if_neg empty]
        rw [ih, Bool.or_assoc]
  cases labels with
  | nil => rfl
  | cons stmt labels =>
    rw [caseRl, loop]
    rfl

end CaseRl

end SmatchFormal.Flow
