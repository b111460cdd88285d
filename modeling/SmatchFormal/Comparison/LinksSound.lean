import SmatchFormal.Comparison.Links

/-!
# What the links imply

Comparisons that are true of the current values lead to comparisons that are true,
as long as the variable is a whole operand of every comparison it has a link to.
-/

namespace SmatchFormal.Links

open SmatchFormal.Stree Comparison List

variable {ε : Type}

/-! ## Well-formed states -/

def Names (chunkToVar : ε → Option Name) (expr : Option ε) (var : Name) : Prop :=
  ∀ e, expr = some e → chunkToVar e = some var

structure Operand.Ok (chunkToVar : ε → Option Name) (chunks : Set Name) (operand : Operand ε) :
    Prop where
  chunk : operand.var ∈ chunks
  named : Names chunkToVar operand.expr operand.var

/-- The left and right expressions are the ones named by the left and right names. -/
def CompareData.Named (chunkToVar : ε → Option Name) (data : CompareData ε) : Prop :=
  Names chunkToVar data.left data.leftVar ∧ Names chunkToVar data.right data.rightVar

structure CompareData.Ok (chunkToVar : ε → Option Name) (chunks : Set Name)
    (data : CompareData ε) : Prop where
  left : data.leftSide.Ok chunkToVar chunks
  right : data.rightSide.Ok chunkToVar chunks
  ordered : strcmp data.leftVar data.rightVar ≤ 0

def Tables.Ok (chunkToVar : ε → Option Name) (chunks : Set Name) (tables : Tables ε) : Prop :=
  ∀ link data, tables.data link = some data → data.name = link ∧ data.Ok chunkToVar chunks

def Unambiguous (chunks : Set Name) : Prop :=
  ∀ a ∈ chunks, ∀ b ∈ chunks, ∀ c ∈ chunks, ∀ d ∈ chunks,
    stateName a b = stateName c d → a = c ∧ b = d

theorem strcmp_eq_zero_iff {one two : Name} : strcmp one two = 0 ↔ one = two := by
  constructor
  · intro zero
    rcases strcmp_cases one two with ⟨sign, -⟩ | ⟨-, same⟩ | ⟨sign, -⟩
    · rw [sign] at zero
      cases zero
    · exact same
    · rw [sign] at zero
      cases zero
  · intro same
    rw [same]
    exact strcmp_self two

/-- Operands that are not in order are in order after they are exchanged. -/
theorem strcmp_swap {one two : Name} (greater : 0 < strcmp one two) : strcmp two one ≤ 0 := by
  rcases strcmp_cases one two with ⟨sign, -⟩ | ⟨sign, -⟩ | ⟨-, less⟩
  · rw [sign] at greater
    cases greater
  · rw [sign] at greater
    cases greater
  · rcases strcmp_cases two one with ⟨sign, -⟩ | ⟨sign, -⟩ | ⟨-, less'⟩
    · rw [sign]
      decide
    · exact sign.le
    · exact absurd less (lt_asymm less')

theorem ne_of_strcmp_pos {one two : Name} (greater : 0 < strcmp one two) : one ≠ two := by
  intro same
  rw [strcmp_eq_zero_iff.mpr same] at greater
  exact absurd greater (lt_irrefl 0)

section Values

variable {one two : Comparison} {a b c : Int}

theorem flip_holds (holds : one.Holds a b) : (flipComparison one).Holds b a := by
  rw [holds_iff_allows] at holds ⊢
  rw [← cmp_swap]
  exact flipComparison_allows _ _ holds

theorem combine_holds (left : one.Holds a b) (right : two.Holds b c) :
    (combineComparisons one two).Holds a c := by
  rw [holds_iff_allows] at left right ⊢
  exact combineComparisons_allows _ _ _ _ _ (cmp_chains _ _ _) left right

theorem intersection_holds (left : one.Holds a b) (right : two.Holds a b) :
    (comparisonIntersection one two).Holds a b := by
  rw [holds_iff_allows] at left right ⊢
  exact comparisonIntersection_allows _ _ _ left right

end Values

/-! ## One link -/

def CompareData.Whole (data : CompareData ε) (var : Name) : Prop :=
  var = data.leftVar ∨ var = data.rightVar

section Link

variable {chunkToVar : ε → Option Name} {chunks : Set Name} {tables : Tables ε}
  {env : Name → Int} {data : CompareData ε} {midVar : Name}

theorem otherSide_eq_left (same : midVar = data.rightVar) :
    otherSide midVar data = (data.leftSide, flipComparison data.comparison) :=
  if_pos (strcmp_eq_zero_iff.mpr same)

theorem otherSide_eq_right (different : midVar ≠ data.rightVar) :
    otherSide midVar data = (data.rightSide, data.comparison) :=
  if_neg fun zero => different (strcmp_eq_zero_iff.mp zero)

theorem otherSide_holds (whole : data.Whole midVar) (true_ : data.True env) :
    (otherSide midVar data).2.Holds (env midVar) (env (otherSide midVar data).1.var) := by
  by_cases right : midVar = data.rightVar
  · rw [otherSide_eq_left right, right]
    exact flip_holds true_
  · rw [otherSide_eq_right right, whole.resolve_right right]
    exact true_

theorem CompareData.Ok.otherSide (ok : data.Ok chunkToVar chunks) (midVar : Name) :
    (Links.otherSide midVar data).1.Ok chunkToVar chunks := by
  by_cases right : midVar = data.rightVar
  · rw [otherSide_eq_left right]
    exact ok.left
  · rw [otherSide_eq_right right]
    exact ok.right

section

variable (ok : tables.Ok chunkToVar chunks) (split : Unambiguous chunks)
include ok split

/-- What a state says about two names it is looked up by. -/
theorem Tables.Ok.vars {left right : Name} (leftChunk : left ∈ chunks) (rightChunk : right ∈ chunks)
    (found : tables.data (stateName left right) = some data) :
    data.leftVar = left ∧ data.rightVar = right := by
  obtain ⟨name, dataOk⟩ := ok _ _ found
  exact split _ dataOk.left.chunk _ dataOk.right.chunk _ leftChunk _ rightChunk name

theorem getOrigComparison_holds (allTrue : tables.AllTrue env) {left right : Name}
    (leftChunk : left ∈ chunks) (rightChunk : right ∈ chunks) :
    (getOrigComparison tables left right).Holds (env left) (env right) := by
  unfold getOrigComparison
  split_ifs
  · cases found : tables.data (stateName right left) with
    | none => trivial
    | some data =>
      obtain ⟨rfl, rfl⟩ := ok.vars split rightChunk leftChunk found
      exact flip_holds (allTrue _ _ found)
  · cases found : tables.data (stateName left right) with
    | none => trivial
    | some data =>
      obtain ⟨rfl, rfl⟩ := ok.vars split leftChunk rightChunk found
      exact allTrue _ _ found

theorem linkComparison_holds (allTrue : tables.AllTrue env) {leftVar rightVar : Name}
    (leftChunk : leftVar ∈ chunks) (rightChunk : rightVar ∈ chunks)
    {leftComparison rightComparison : Comparison}
    (left : leftComparison.Holds (env leftVar) (env midVar))
    (right : rightComparison.Holds (env midVar) (env rightVar)) :
    (linkComparison tables leftVar rightVar leftComparison rightComparison).Holds
      (env leftVar) (env rightVar) :=
  intersection_holds (getOrigComparison_holds ok split allTrue leftChunk rightChunk)
    (combine_holds left right)

end

end Link

section Store

variable {chunkToVar : ε → Option Name} {chunks : Set Name} {tables : Tables ε}
  {env : Name → Int} {left right : Operand ε} {op : Comparison}

theorem data_saveLinks (vsl : List VarSym) (link : Name) (tables : Tables ε) (other : Name) :
    (vsl.foldl (fun tables vs => saveLinkVarSym tables vs link) tables).data other =
      tables.data other := by
  induction vsl generalizing tables with
  | nil => rfl
  | cons vs vsl ih =>
    rw [foldl_cons, ih]
    rfl

/-- A comparison found after one is stored is the stored one or was there before. -/
theorem addOrdered_data {link : Name} {data : CompareData ε}
    (found : (addOrdered tables left op right).data link = some data) :
    link = stateName left.var right.var ∧ data = allocCompareState left op right ∨
      tables.data link = some data := by
  unfold addOrdered at found
  rw [data_saveLinks] at found
  by_cases same : link = stateName left.var right.var
  · rw [same, data_setCompare] at found
    exact .inl ⟨same, (Option.some.inj found).symm⟩
  · rw [data_setCompare_of_ne _ _ same] at found
    exact .inr found

theorem data_addOrdered (tables : Tables ε) (left right : Operand ε) (op : Comparison) :
    (addOrdered tables left op right).data (stateName left.var right.var) =
      some (allocCompareState left op right) := by
  unfold addOrdered
  rw [data_saveLinks, data_setCompare]

theorem addOrdered_ok (ok : tables.Ok chunkToVar chunks) (leftOk : left.Ok chunkToVar chunks)
    (rightOk : right.Ok chunkToVar chunks) (ordered : strcmp left.var right.var ≤ 0) :
    (addOrdered tables left op right).Ok chunkToVar chunks := by
  intro link data found
  rcases addOrdered_data found with ⟨rfl, rfl⟩ | before
  · exact ⟨rfl, leftOk, rightOk, ordered⟩
  · exact ok link data before

theorem addComparisonVarSym_ok (ok : tables.Ok chunkToVar chunks)
    (leftOk : left.Ok chunkToVar chunks) (rightOk : right.Ok chunkToVar chunks) :
    (addComparisonVarSym tables left op right).Ok chunkToVar chunks := by
  unfold addComparisonVarSym
  split_ifs with greater
  · exact addOrdered_ok ok rightOk leftOk (strcmp_swap greater)
  · exact addOrdered_ok ok leftOk rightOk (not_lt.mp greater)

theorem addOrdered_allTrue (allTrue : tables.AllTrue env)
    (holds : op.Holds (env left.var) (env right.var)) :
    (addOrdered tables left op right).AllTrue env := by
  intro link data found
  rcases addOrdered_data found with ⟨-, rfl⟩ | before
  · exact holds
  · exact allTrue link data before

theorem addComparisonVarSym_allTrue (allTrue : tables.AllTrue env)
    (holds : op.Holds (env left.var) (env right.var)) :
    (addComparisonVarSym tables left op right).AllTrue env := by
  unfold addComparisonVarSym
  split_ifs
  · exact addOrdered_allTrue allTrue (flip_holds holds)
  · exact addOrdered_allTrue allTrue holds

end Store

/-! ## The states with the same comparisons -/

/-- The states that store the same operands under the same names, with other operators;
a comparison may also have lost its data. -/
def Tables.relabel (tables : Tables ε) (ops : Name → Option Comparison) : Tables ε :=
  { tables with compare := fun link => (tables.compare link).map fun state => do
      let data ← state
      let op ← ops link
      return { data with comparison := op } }

section Relabel

variable {chunkToVar : ε → Option Name} {chunks : Set Name} {tables : Tables ε}
  {ops : Name → Option Comparison} {link : Name} {data : CompareData ε}

theorem data_relabel_eq_some {new : CompareData ε} :
    (tables.relabel ops).data link = some new ↔
      ∃ data op, tables.data link = some data ∧ ops link = some op ∧
        new = { data with comparison := op } := by
  unfold Tables.data Tables.relabel
  simp only
  rcases tables.compare link with _ | _ | data
  · simp
  · simp
  · rcases ops link with _ | op
    · simp
    · simp only [Option.map_some, Option.join_some, Option.bind_eq_bind, Option.bind_some,
        Option.pure_def, Option.some.injEq]
      constructor
      · intro same
        exact ⟨data, op, rfl, rfl, same.symm⟩
      · rintro ⟨_, _, rfl, rfl, same⟩
        exact same.symm

theorem Tables.Ok.relabel (ok : tables.Ok chunkToVar chunks) (ops : Name → Option Comparison) :
    (tables.relabel ops).Ok chunkToVar chunks := by
  intro link new found
  obtain ⟨data, op, stored, -, rfl⟩ := data_relabel_eq_some.mp found
  obtain ⟨name, dataOk⟩ := ok link data stored
  exact ⟨name, dataOk.left, dataOk.right, dataOk.ordered⟩

end Relabel

/-! ## A condition -/

/-- The comparisons of the links that `update_tf_links` does not pass by. -/
def reached (tables : Tables ε) (leftVsl : List VarSym) (midVar : Name) (links : List Name) :
    List (CompareData ε) :=
  (links.filterMap tables.data).filter fun data =>
    !haveCommonVarSym leftVsl (otherSide midVar data).1.vsl

def Leaks (leftVar midVar : Name) (data : CompareData ε) : Prop :=
  0 < strcmp leftVar (otherSide midVar data).1.var ∧ (otherSide midVar data).1.expr ≠ none

/-- The variable is a whole operand in each comparison that is reached, and only the last of
them leaves another expression. -/
structure TfSafe (tables : Tables ε) (left : Operand ε) (midVar : Name) (links : List Name) :
    Prop where
  whole : ∀ data ∈ reached tables left.vsl midVar links, data.Whole midVar
  last : ∀ data ∈ (reached tables left.vsl midVar links).dropLast, ¬ Leaks left.var midVar data

def PathTrue (state : Option (CompareData ε)) (env : Name → Int) : Prop :=
  ∀ data, state = some data → data.True env

def TrueFalseStates.Named (chunkToVar : ε → Option Name) (states : TrueFalseStates ε) : Prop :=
  (∀ data, states.trueState = some data → data.Named chunkToVar) ∧
    ∀ data, states.falseState = some data → data.Named chunkToVar

section Condition

variable {chunkToVar : ε → Option Name} {chunks : Set Name} {tables : Tables ε}
  {env : Name → Int} {left right : Operand ε} {one two : Comparison} {midVar : Name}
  {states : TrueFalseStates ε}

theorem knownState_true (holds : one.Holds (env left.var) (env right.var)) :
    PathTrue (knownState left one right) env := by
  intro data state
  unfold knownState at state
  split_ifs at state
  cases state
  exact holds

theorem knownState_named (leftNamed : Names chunkToVar left.expr left.var)
    (rightNamed : Names chunkToVar right.expr right.var) (data : CompareData ε)
    (state : knownState left one right = some data) : data.Named chunkToVar := by
  unfold knownState at state
  split_ifs at state
  cases state
  exact ⟨leftNamed, rightNamed⟩

theorem setTrueFalse_eq (member : states ∈ setTrueFalse left one two right) :
    states.trueState = knownState left one right ∧
      states.falseState = knownState left two right := by
  unfold setTrueFalse at member
  split_ifs at member
  · cases member
  · rw [mem_singleton] at member
    rw [member]
    exact ⟨rfl, rfl⟩

theorem otherSide_relabel (midVar : Name) (data : CompareData ε) (op : Comparison) :
    (otherSide midVar { data with comparison := op }).1 = (otherSide midVar data).1 := by
  unfold otherSide
  split_ifs
  · rfl
  · rfl

def Reaches (tables : Tables ε) (leftVsl : List VarSym) (midVar link : Name)
    (data : CompareData ε) : Prop :=
  tables.data link = some data ∧ haveCommonVarSym leftVsl (otherSide midVar data).1.vsl = false

variable {leftVsl : List VarSym} {link : Name} {links : List Name} {data : CompareData ε}
  {leftExpr : Option ε}

theorem reached_cons_of_reaches (reaches : Reaches tables leftVsl midVar link data) :
    reached tables leftVsl midVar (link :: links) =
      data :: reached tables leftVsl midVar links := by
  unfold reached
  rw [filterMap_cons_some reaches.1, filter_cons_of_pos (by rw [reaches.2]; rfl)]

theorem reached_cons_of_not_reaches
    (skips : ∀ data, ¬ Reaches tables leftVsl midVar link data) :
    reached tables leftVsl midVar (link :: links) = reached tables leftVsl midVar links := by
  unfold reached
  cases found : tables.data link with
  | none => rw [filterMap_cons_none found]
  | some data =>
    rw [filterMap_cons_some found]
    apply filter_cons_of_neg
    intro apart
    exact skips data ⟨found, Bool.not_eq_true' _ |>.mp apart⟩

theorem mem_reached_iff :
    data ∈ reached tables leftVsl midVar links ↔
      ∃ link ∈ links, Reaches tables leftVsl midVar link data := by
  unfold reached Reaches
  simp only [mem_filter, mem_filterMap, Bool.not_eq_true']
  constructor
  · rintro ⟨⟨link, member, found⟩, apart⟩
    exact ⟨link, member, found, apart⟩
  · rintro ⟨link, member, found, apart⟩
    exact ⟨⟨link, member, found⟩, apart⟩

theorem reaches_relabel {ops : Name → Option Comparison} {new : CompareData ε}
    (reaches : Reaches (tables.relabel ops) leftVsl midVar link new) :
    ∃ data op, Reaches tables leftVsl midVar link data ∧ ops link = some op ∧
      new = { data with comparison := op } := by
  obtain ⟨data, op, found, labelled, rfl⟩ := data_relabel_eq_some.mp reaches.1
  have apart := reaches.2
  rw [otherSide_relabel] at apart
  exact ⟨data, op, ⟨found, apart⟩, labelled, rfl⟩

theorem Reaches.relabel {ops : Name → Option Comparison} {op : Comparison}
    (reaches : Reaches tables leftVsl midVar link data) (labelled : ops link = some op) :
    Reaches (tables.relabel ops) leftVsl midVar link { data with comparison := op } := by
  refine ⟨data_relabel_eq_some.mpr ⟨data, op, reaches.1, labelled, rfl⟩, ?_⟩
  rw [otherSide_relabel]
  exact reaches.2

/-- A link that is passed by changes nothing. -/
theorem tfRound_of_not_reaches (skips : ∀ data, ¬ Reaches tables left.vsl midVar link data) :
    tfRound tables left one two midVar leftExpr link = (leftExpr, []) := by
  unfold tfRound
  cases found : tables.data link with
  | none => rfl
  | some data =>
    refine if_pos ?_
    by_contra apart
    exact skips data ⟨found, Bool.not_eq_true _ |>.mp apart⟩

theorem tfRound_of_reaches (reaches : Reaches tables left.vsl midVar link data) :
    tfRound tables left one two midVar leftExpr link =
      if 0 < strcmp left.var (otherSide midVar data).1.var then
        ((otherSide midVar data).1.expr, setTrueFalse (otherSide midVar data).1
          (flipComparison (linkComparison tables left.var (otherSide midVar data).1.var one
            (otherSide midVar data).2))
          (flipComparison (linkComparison tables left.var (otherSide midVar data).1.var two
            (otherSide midVar data).2)) { left with expr := leftExpr })
      else
        (leftExpr, setTrueFalse { left with expr := leftExpr }
          (linkComparison tables left.var (otherSide midVar data).1.var one
            (otherSide midVar data).2)
          (linkComparison tables left.var (otherSide midVar data).1.var two
            (otherSide midVar data).2) (otherSide midVar data).1) := by
  unfold tfRound
  simp only [reaches.1, reaches.2, Bool.false_eq_true, if_false]

theorem updateTfLinks_cons :
    updateTfLinks tables left one two midVar leftExpr (link :: links) =
      (tfRound tables left one two midVar leftExpr link).2 ++
        updateTfLinks tables left one two midVar
          (tfRound tables left one two midVar leftExpr link).1 links :=
  rfl

/-! ### Truth -/

section

variable (ok : tables.Ok chunkToVar chunks) (split : Unambiguous chunks)
  (allTrue : tables.AllTrue env) (leftChunk : left.var ∈ chunks)
include ok split allTrue leftChunk

theorem tfRound_true (whole : ∀ data, Reaches tables left.vsl midVar link data → data.Whole midVar)
    (member : states ∈ (tfRound tables left one two midVar leftExpr link).2) :
    (one.Holds (env left.var) (env midVar) → PathTrue states.trueState env) ∧
      (two.Holds (env left.var) (env midVar) → PathTrue states.falseState env) := by
  by_cases some_ : ∃ data, Reaches tables left.vsl midVar link data
  · obtain ⟨data, reaches⟩ := some_
    have rightChunk := ((ok link data reaches.1).2.otherSide midVar).chunk
    have other := otherSide_holds (whole data reaches) (allTrue link data reaches.1)
    have holds : ∀ {op : Comparison}, op.Holds (env left.var) (env midVar) →
        (linkComparison tables left.var (otherSide midVar data).1.var op
          (otherSide midVar data).2).Holds (env left.var)
          (env (otherSide midVar data).1.var) :=
      fun condition => linkComparison_holds ok split allTrue leftChunk rightChunk condition other
    rw [tfRound_of_reaches reaches] at member
    split_ifs at member
    · obtain ⟨trueState, falseState⟩ := setTrueFalse_eq member
      rw [trueState, falseState]
      exact ⟨fun condition => knownState_true (flip_holds (holds condition)),
        fun condition => knownState_true (flip_holds (holds condition))⟩
    · obtain ⟨trueState, falseState⟩ := setTrueFalse_eq member
      rw [trueState, falseState]
      exact ⟨fun condition => knownState_true (holds condition),
        fun condition => knownState_true (holds condition)⟩
  · rw [tfRound_of_not_reaches (not_exists.mp some_)] at member
    cases member

theorem updateTfLinks_true
    (whole : ∀ data ∈ reached tables left.vsl midVar links, data.Whole midVar)
    (member : states ∈ updateTfLinks tables left one two midVar leftExpr links) :
    (one.Holds (env left.var) (env midVar) → PathTrue states.trueState env) ∧
      (two.Holds (env left.var) (env midVar) → PathTrue states.falseState env) := by
  induction links generalizing leftExpr with
  | nil => cases member
  | cons link links ih =>
    rw [updateTfLinks_cons] at member
    rcases mem_append.mp member with here | later
    · refine tfRound_true ok split allTrue leftChunk ?_ here
      intro data reaches
      exact whole data (mem_reached_iff.mpr ⟨link, mem_cons_self, reaches⟩)
    · refine ih ?_ later
      intro data reach
      obtain ⟨other, among, reaches⟩ := mem_reached_iff.mp reach
      exact whole data (mem_reached_iff.mpr ⟨other, mem_cons_of_mem _ among, reaches⟩)

end

/-! ### Names -/

theorem updateTfLinks_nil (ops : Name → Option Comparison)
    (none_ : reached tables left.vsl midVar links = []) :
    updateTfLinks (tables.relabel ops) left one two midVar leftExpr links = [] := by
  induction links generalizing leftExpr with
  | nil => rfl
  | cons link links ih =>
    have skips : ∀ data, ¬ Reaches tables left.vsl midVar link data := by
      intro data reaches
      rw [reached_cons_of_reaches reaches] at none_
      cases none_
    rw [reached_cons_of_not_reaches skips] at none_
    have skips' : ∀ data, ¬ Reaches (tables.relabel ops) left.vsl midVar link data := by
      intro new reaches
      obtain ⟨data, -, before, -⟩ := reaches_relabel reaches
      exact skips data before
    rw [updateTfLinks_cons, tfRound_of_not_reaches skips']
    exact ih none_

theorem setTrueFalse_named (leftNamed : Names chunkToVar left.expr left.var)
    (rightNamed : Names chunkToVar right.expr right.var)
    (member : states ∈ setTrueFalse left one two right) : states.Named chunkToVar := by
  obtain ⟨trueState, falseState⟩ := setTrueFalse_eq member
  constructor
  · rw [trueState]
    exact knownState_named leftNamed rightNamed
  · rw [falseState]
    exact knownState_named leftNamed rightNamed

theorem updateTfLinks_named (ops : Name → Option Comparison) (ok : tables.Ok chunkToVar chunks)
    (named : Names chunkToVar leftExpr left.var)
    (last : ∀ data ∈ (reached tables left.vsl midVar links).dropLast,
      ¬ Leaks left.var midVar data)
    (member : states ∈ updateTfLinks (tables.relabel ops) left one two midVar leftExpr links) :
    states.Named chunkToVar := by
  induction links generalizing leftExpr with
  | nil => cases member
  | cons link links ih =>
    rw [updateTfLinks_cons] at member
    by_cases reach : ∃ new, Reaches (tables.relabel ops) left.vsl midVar link new
    · obtain ⟨new, reaches⟩ := reach
      obtain ⟨data, op, before, -, rfl⟩ := reaches_relabel reaches
      have sideNamed := ((ok link data before.1).2.otherSide midVar).named
      rw [reached_cons_of_reaches before] at last
      have round : tfRound (tables.relabel ops) left one two midVar leftExpr link = _ :=
        tfRound_of_reaches reaches
      rw [otherSide_relabel] at round
      rcases rest : reached tables left.vsl midVar links with _ | ⟨next, more⟩
      · rw [updateTfLinks_nil ops rest, append_nil] at member
        split_ifs at round
        · rw [round] at member
          exact setTrueFalse_named sideNamed named member
        · rw [round] at member
          exact setTrueFalse_named named sideNamed member
      · rw [rest, dropLast_cons_cons] at last
        have keeps := last data mem_cons_self
        have later : ∀ data ∈ (reached tables left.vsl midVar links).dropLast,
            ¬ Leaks left.var midVar data := by
          rw [rest]
          exact fun other among => last other (mem_cons_of_mem _ among)
        split_ifs at round with greater
        · rw [round] at member
          rcases mem_append.mp member with here | after
          · exact setTrueFalse_named sideNamed named here
          · -- The expression that is left behind is the null pointer.
            have null : (otherSide midVar data).1.expr = none := by
              by_contra some_
              exact keeps ⟨greater, some_⟩
            refine ih ?_ later after
            intro e stored
            rw [null] at stored
            cases stored
        · rw [round] at member
          rcases mem_append.mp member with here | after
          · exact setTrueFalse_named named sideNamed here
          · exact ih named later after
    · rw [tfRound_of_not_reaches (not_exists.mp reach)] at member
      refine ih named ?_ member
      intro other among
      by_cases before : ∃ data, Reaches tables left.vsl midVar link data
      · obtain ⟨data, before⟩ := before
        rw [reached_cons_of_reaches before] at last
        apply last
        rcases rest : reached tables left.vsl midVar links with _ | ⟨next, more⟩
        · rw [rest] at among
          cases among
        · rw [rest] at among
          exact mem_cons_of_mem _ among
      · rw [reached_cons_of_not_reaches (not_exists.mp before)] at last
        exact last other among

/-! ### The converse -/

/-- The states of a round are among those of the loop, whatever expression it starts with. -/
theorem exists_tfRound (tables : Tables ε) (left : Operand ε) (one two : Comparison)
    (midVar : Name) (leftExpr : Option ε) (member : link ∈ links) :
    ∃ expr, ∀ states ∈ (tfRound tables left one two midVar expr link).2,
      states ∈ updateTfLinks tables left one two midVar leftExpr links := by
  induction links generalizing leftExpr with
  | nil => cases member
  | cons first links ih =>
    rcases mem_cons.mp member with rfl | later
    · exact ⟨leftExpr, fun states here => mem_append_left _ here⟩
    · obtain ⟨expr, among⟩ :=
        ih (tfRound tables left one two midVar leftExpr first).1 later
      exact ⟨expr, fun states here => mem_append_right _ (among states here)⟩

/-- All values are zero but the one of `mid_var`. -/
def onlyMid (midVar : Name) : Name → Int := fun name => if name = midVar then 1 else 0

def onlyMidComparison (leftVar midVar : Name) : Comparison := if leftVar = midVar then equal else lt

theorem onlyMid_self (midVar : Name) : onlyMid midVar midVar = 1 := if_pos rfl

theorem onlyMid_of_ne {name : Name} (different : name ≠ midVar) : onlyMid midVar name = 0 :=
  if_neg different

theorem onlyMidComparison_holds (leftVar midVar : Name) :
    (onlyMidComparison leftVar midVar).Holds (onlyMid midVar leftVar) (onlyMid midVar midVar) := by
  unfold onlyMidComparison
  split_ifs with same
  · rw [same]
    rfl
  · rw [onlyMid_self, onlyMid_of_ne same]
    exact Int.zero_lt_one

def onlyLink (link : Name) : Name → Option Comparison :=
  fun name => if name = link then some equal else none

theorem onlyLink_self (link : Name) : onlyLink link link = some equal := if_pos rfl

theorem onlyLink_eq_some {name : Name} {op : Comparison} (labelled : onlyLink link name = some op) :
    name = link ∧ op = equal := by
  unfold onlyLink at labelled
  split_ifs at labelled with same
  exact ⟨same, (Option.some.inj labelled).symm⟩

theorem onlyLink_allTrue (found : tables.data link = some data) (part : ¬ data.Whole midVar) :
    (tables.relabel (onlyLink link)).AllTrue (onlyMid midVar) := by
  intro name new stored
  obtain ⟨old, op, old_, labelled, rfl⟩ := data_relabel_eq_some.mp stored
  obtain ⟨rfl, rfl⟩ := onlyLink_eq_some labelled
  rw [found] at old_
  cases old_
  have leftPart : data.leftVar ≠ midVar := fun same => part (.inl same.symm)
  have rightPart : data.rightVar ≠ midVar := fun same => part (.inr same.symm)
  change onlyMid midVar data.leftVar = onlyMid midVar data.rightVar
  rw [onlyMid_of_ne leftPart, onlyMid_of_ne rightPart]

/-- The comparison that comes from a part of an operand is false of these values. -/
theorem onlyMidComparison_false (leftVar : Name) {rightVar : Name} (part : rightVar ≠ midVar) :
    ¬ (onlyMidComparison leftVar midVar).Holds (onlyMid midVar leftVar)
      (onlyMid midVar rightVar) := by
  unfold onlyMidComparison
  split_ifs with same
  · rw [same, onlyMid_self, onlyMid_of_ne part]
    exact Int.one_ne_zero
  · rw [onlyMid_of_ne same, onlyMid_of_ne part]
    exact lt_irrefl 0

theorem combineComparisons_equal (leftVar midVar : Name) :
    combineComparisons (onlyMidComparison leftVar midVar) equal =
      onlyMidComparison leftVar midVar := by
  unfold onlyMidComparison
  split_ifs
  · rfl
  · rfl

theorem onlyMidComparison_isOperator (leftVar midVar : Name) :
    (onlyMidComparison leftVar midVar).IsOperator := by
  unfold onlyMidComparison
  split_ifs
  · decide
  · decide

/-- The round of a link to a part of an operand finds the condition again, or that the
comparison is impossible; the latter only when the operands are in order. -/
theorem linkComparison_part (ok : tables.Ok chunkToVar chunks) (split : Unambiguous chunks)
    (leftChunk : left.var ∈ chunks) (found : tables.data link = some data)
    (part : ¬ data.Whole midVar) :
    linkComparison (tables.relabel (onlyLink link)) left.var data.rightVar
        (onlyMidComparison left.var midVar) equal = onlyMidComparison left.var midVar ∨
      ¬ 0 < strcmp left.var data.rightVar ∧
        linkComparison (tables.relabel (onlyLink link)) left.var data.rightVar
          (onlyMidComparison left.var midVar) equal = impossible := by
  have rightChunk := (ok link data found).2.right.chunk
  have vars : ∀ {new a b}, a ∈ chunks → b ∈ chunks →
      (tables.relabel (onlyLink link)).data (stateName a b) = some new →
      data.leftVar = a ∧ data.rightVar = b ∧ new.comparison = equal := by
    intro new a b aChunk bChunk stored
    obtain ⟨leftName, rightName⟩ := (ok.relabel _).vars split aChunk bChunk stored
    obtain ⟨old, op, old_, labelled, rfl⟩ := data_relabel_eq_some.mp stored
    obtain ⟨same, rfl⟩ := onlyLink_eq_some labelled
    rw [same, found] at old_
    cases old_
    exact ⟨leftName, rightName, rfl⟩
  unfold linkComparison
  rw [combineComparisons_equal]
  have known : comparisonIntersection unknown (onlyMidComparison left.var midVar) =
      onlyMidComparison left.var midVar := by
    unfold onlyMidComparison
    split_ifs
    · rfl
    · rfl
  unfold getOrigComparison
  split_ifs with greater
  · left
    cases stored : (tables.relabel (onlyLink link)).data (stateName data.rightVar left.var) with
    | none => exact known
    | some new =>
      obtain ⟨-, same, -⟩ := vars rightChunk leftChunk stored
      exact absurd same.symm (ne_of_strcmp_pos greater)
  · cases stored : (tables.relabel (onlyLink link)).data (stateName left.var data.rightVar) with
    | none => exact .inl known
    | some new =>
      obtain ⟨leftName, -, isEqual⟩ := vars leftChunk rightChunk stored
      have different : left.var ≠ midVar := fun same => part (.inl (same ▸ leftName.symm))
      refine .inr ⟨greater, ?_⟩
      simp only [isEqual]
      unfold onlyMidComparison
      rw [if_neg different]
      rfl

theorem exists_knownState (known : one ≠ unknown)
    (wrong : ¬ one.Holds (env left.var) (env right.var)) :
    ∃ states ∈ setTrueFalse left one two right, ¬ PathTrue states.trueState env := by
  unfold setTrueFalse
  rw [if_neg fun both => known both.1]
  refine ⟨_, mem_singleton_self _, ?_⟩
  intro true_
  refine wrong (true_ (allocCompareState left one right) ?_)
  exact if_neg known

theorem otherSide_part (different : midVar ≠ data.rightVar) (op : Comparison) :
    otherSide midVar { data with comparison := op } = (data.rightSide, op) :=
  otherSide_eq_right different

/-- A link to a part of an operand leads to a wrong comparison. -/
theorem exists_wrong_state (ok : tables.Ok chunkToVar chunks) (split : Unambiguous chunks)
    (leftChunk : left.var ∈ chunks) (member : link ∈ links)
    (reaches : Reaches tables left.vsl midVar link data) (part : ¬ data.Whole midVar) :
    ∃ states ∈ updateTfLinks (tables.relabel (onlyLink link)) left
        (onlyMidComparison left.var midVar) two midVar leftExpr links,
      ¬ PathTrue states.trueState (onlyMid midVar) := by
  obtain ⟨expr, among⟩ := exists_tfRound (tables.relabel (onlyLink link)) left
    (onlyMidComparison left.var midVar) two midVar leftExpr member
  have rightPart : data.rightVar ≠ midVar := fun same => part (.inr same.symm)
  have wrong := onlyMidComparison_false left.var rightPart
  have operator := onlyMidComparison_isOperator left.var midVar
  have round : tfRound (tables.relabel (onlyLink link)) left
      (onlyMidComparison left.var midVar) two midVar expr link = _ :=
    tfRound_of_reaches (reaches.relabel (onlyLink_self link))
  rw [otherSide_part rightPart.symm] at round
  have cases := linkComparison_part ok split leftChunk reaches.1 part
  split_ifs at round with greater
  · have here := cases.resolve_right fun both => both.1 greater
    obtain ⟨states, mem, false_⟩ := @exists_knownState ε (onlyMid midVar) data.rightSide
      { left with expr := expr } (flipComparison (onlyMidComparison left.var midVar))
      (flipComparison (linkComparison (tables.relabel (onlyLink link)) left.var data.rightVar two
        equal))
      (flipComparison_isOperator operator).1
      (fun holds => wrong ((flipComparison_holds operator).mp holds))
    refine ⟨states, among states ?_, false_⟩
    rw [round]
    change states ∈ setTrueFalse data.rightSide (flipComparison (linkComparison
      (tables.relabel (onlyLink link)) left.var data.rightVar _ equal)) _ _
    rw [here]
    exact mem
  · have known : linkComparison (tables.relabel (onlyLink link)) left.var data.rightVar
          (onlyMidComparison left.var midVar) equal ≠ unknown ∧
        ¬ (linkComparison (tables.relabel (onlyLink link)) left.var data.rightVar
          (onlyMidComparison left.var midVar) equal).Holds (onlyMid midVar left.var)
          (onlyMid midVar data.rightVar) := by
      rcases cases with here | ⟨-, here⟩
      · rw [here]
        exact ⟨operator.1, wrong⟩
      · rw [here]
        exact ⟨Comparison.noConfusion, id⟩
    obtain ⟨states, mem, false_⟩ := @exists_knownState ε (onlyMid midVar)
      { left with expr := expr } data.rightSide _
      (linkComparison (tables.relabel (onlyLink link)) left.var data.rightVar two equal)
      known.1 known.2
    refine ⟨states, among states ?_, false_⟩
    rw [round]
    exact mem

def allEqual : Name → Option Comparison := fun _ => some equal

theorem otherSide_equal (midVar : Name) (data : CompareData ε) :
    (otherSide midVar { data with comparison := equal }).2 = equal := by
  unfold otherSide
  split_ifs
  · rfl
  · rfl

theorem getOrigComparison_allEqual (tables : Tables ε) (leftVar rightVar : Name) :
    getOrigComparison (tables.relabel allEqual) leftVar rightVar = unknown ∨
      getOrigComparison (tables.relabel allEqual) leftVar rightVar = equal := by
  unfold getOrigComparison
  split_ifs
  · cases stored : (tables.relabel allEqual).data (stateName rightVar leftVar) with
    | none => exact .inl rfl
    | some new =>
      obtain ⟨old, op, -, labelled, rfl⟩ := data_relabel_eq_some.mp stored
      cases labelled
      exact .inr rfl
  · cases stored : (tables.relabel allEqual).data (stateName leftVar rightVar) with
    | none => exact .inl rfl
    | some new =>
      obtain ⟨old, op, -, labelled, rfl⟩ := data_relabel_eq_some.mp stored
      cases labelled
      exact .inr rfl

/-- Every round that is reached sets a state for the false path. -/
theorem linkComparison_allEqual (tables : Tables ε) (leftVar rightVar : Name) :
    linkComparison (tables.relabel allEqual) leftVar rightVar gte equal ≠ unknown ∧
      flipComparison (linkComparison (tables.relabel allEqual) leftVar rightVar gte equal) ≠
        unknown := by
  unfold linkComparison
  rcases getOrigComparison_allEqual tables leftVar rightVar with here | here
  · rw [here]
    decide
  · rw [here]
    decide

theorem exists_unnamed (known : two ≠ unknown)
    (wrong : ¬ (Names chunkToVar left.expr left.var ∧ Names chunkToVar right.expr right.var)) :
    ∃ states ∈ setTrueFalse left one two right, ¬ states.Named chunkToVar := by
  unfold setTrueFalse
  rw [if_neg fun both => known both.2]
  refine ⟨_, mem_singleton_self _, ?_⟩
  intro named
  exact wrong (named.2 (allocCompareState left two right) (if_neg known))

/-- A wrong left expression gets into the next state that is set. -/
theorem exists_unnamed_of_leftExpr (wrong : ¬ Names chunkToVar leftExpr left.var)
    (some_ : reached tables left.vsl midVar links ≠ []) :
    ∃ states ∈ updateTfLinks (tables.relabel allEqual) left lt gte midVar leftExpr links,
      ¬ states.Named chunkToVar := by
  induction links with
  | nil => exact absurd rfl some_
  | cons link links ih =>
    rw [updateTfLinks_cons]
    by_cases reach : ∃ data, Reaches tables left.vsl midVar link data
    · obtain ⟨data, reaches⟩ := reach
      have known := linkComparison_allEqual tables left.var (otherSide midVar data).1.var
      have round : tfRound (tables.relabel allEqual) left lt gte midVar leftExpr link = _ :=
        tfRound_of_reaches (reaches.relabel rfl)
      rw [otherSide_relabel, otherSide_equal] at round
      split_ifs at round
      · obtain ⟨states, member, unnamed⟩ := @exists_unnamed ε chunkToVar
          (otherSide midVar data).1 { left with expr := leftExpr } _ _ known.2
          fun both => wrong both.2
        refine ⟨states, mem_append_left _ ?_, unnamed⟩
        rw [round]
        exact member
      · obtain ⟨states, member, unnamed⟩ := @exists_unnamed ε chunkToVar
          { left with expr := leftExpr } (otherSide midVar data).1 _ _ known.1
          fun both => wrong both.1
        refine ⟨states, mem_append_left _ ?_, unnamed⟩
        rw [round]
        exact member
    · have skips := not_exists.mp reach
      have skips' : ∀ new, ¬ Reaches (tables.relabel allEqual) left.vsl midVar link new := by
        intro new reaches
        obtain ⟨data, -, before, -⟩ := reaches_relabel reaches
        exact skips data before
      rw [reached_cons_of_not_reaches skips] at some_
      rw [tfRound_of_not_reaches skips']
      exact ih some_

/-- An exchange before the last round puts an expression under the wrong name. -/
theorem exists_unnamed_of_leaks (ok : tables.Ok chunkToVar chunks)
    (leak : ∃ data ∈ (reached tables left.vsl midVar links).dropLast,
      Leaks left.var midVar data) :
    ∃ states ∈ updateTfLinks (tables.relabel allEqual) left lt gte midVar leftExpr links,
      ¬ states.Named chunkToVar := by
  induction links generalizing leftExpr with
  | nil =>
    obtain ⟨data, member, -⟩ := leak
    cases member
  | cons link links ih =>
    rw [updateTfLinks_cons]
    obtain ⟨leaky, member, leaks⟩ := leak
    by_cases reach : ∃ data, Reaches tables left.vsl midVar link data
    · obtain ⟨data, reaches⟩ := reach
      rw [reached_cons_of_reaches reaches] at member
      rcases rest : reached tables left.vsl midVar links with _ | ⟨next, more⟩
      · rw [rest] at member
        cases member
      · rw [rest, dropLast_cons_cons, ← rest] at member
        rcases mem_cons.mp member with rfl | later
        · have round : tfRound (tables.relabel allEqual) left lt gte midVar leftExpr link = _ :=
            tfRound_of_reaches (reaches.relabel rfl)
          rw [otherSide_relabel, if_pos leaks.1] at round
          rw [round]
          obtain ⟨e, stored⟩ := Option.ne_none_iff_exists'.mp leaks.2
          have named := ((ok link leaky reaches.1).2.otherSide midVar).named e stored
          have wrong : ¬ Names chunkToVar (otherSide midVar leaky).1.expr left.var := by
            intro wrongName
            rw [wrongName e stored] at named
            exact ne_of_strcmp_pos leaks.1 (Option.some.inj named)
          obtain ⟨states, among, unnamed⟩ := exists_unnamed_of_leftExpr wrong
            (by rw [rest]; exact cons_ne_nil _ _)
          exact ⟨states, mem_append_right _ among, unnamed⟩
        · obtain ⟨states, among, unnamed⟩ := ih ⟨leaky, later, leaks⟩
          exact ⟨states, mem_append_right _ among, unnamed⟩
    · rw [reached_cons_of_not_reaches (not_exists.mp reach)] at member
      obtain ⟨states, among, unnamed⟩ := ih ⟨leaky, member, leaks⟩
      exact ⟨states, mem_append_right _ among, unnamed⟩

end Condition

/-- Whatever the operators of the stored comparisons and of the condition are: the states
that `update_tf_data` sets have the right expressions, and those of a path are true of all
values for which that path is taken. -/
def TfSound (chunkToVar : ε → Option Name) (tables : Tables ε) (left right : Operand ε) : Prop :=
  ∀ ops one two, ∀ states ∈ updateTfData (tables.relabel ops) left right one two,
    states.Named chunkToVar ∧ ∀ env, (tables.relabel ops).AllTrue env →
      (one.Holds (env left.var) (env right.var) → PathTrue states.trueState env) ∧
        (two.Holds (env left.var) (env right.var) → PathTrue states.falseState env)

section TfSound

variable {chunkToVar : ε → Option Name} {chunks : Set Name} {tables : Tables ε}
  {left right : Operand ε}

theorem reached_relabel_whole {leftVsl : List VarSym} {midVar : Name} {links : List Name}
    (whole : ∀ data ∈ reached tables leftVsl midVar links, data.Whole midVar)
    (ops : Name → Option Comparison) :
    ∀ data ∈ reached (tables.relabel ops) leftVsl midVar links, data.Whole midVar := by
  intro new member
  obtain ⟨link, among, reaches⟩ := mem_reached_iff.mp member
  obtain ⟨data, op, before, -, rfl⟩ := reaches_relabel reaches
  exact whole data (mem_reached_iff.mpr ⟨link, among, before⟩)

theorem tfSound_of_safe (ok : tables.Ok chunkToVar chunks) (split : Unambiguous chunks)
    (leftOk : left.Ok chunkToVar chunks) (rightOk : right.Ok chunkToVar chunks)
    (rightLinks : TfSafe tables left right.var (tables.linksOf right.varSym))
    (leftLinks : TfSafe tables right left.var (tables.linksOf left.varSym)) :
    TfSound chunkToVar tables left right := by
  intro ops one two states member
  rcases mem_append.mp member with first | second
  · refine ⟨updateTfLinks_named ops ok leftOk.named rightLinks.last first, ?_⟩
    intro env allTrue
    exact updateTfLinks_true (ok.relabel ops) split allTrue leftOk.chunk
      (reached_relabel_whole rightLinks.whole ops) first
  · refine ⟨updateTfLinks_named ops ok rightOk.named leftLinks.last second, ?_⟩
    intro env allTrue
    obtain ⟨onTrue, onFalse⟩ := updateTfLinks_true (ok.relabel ops) split allTrue rightOk.chunk
      (reached_relabel_whole leftLinks.whole ops) second
    exact ⟨fun condition => onTrue (flip_holds condition),
      fun condition => onFalse (flip_holds condition)⟩

/-- The condition that `update_tf_links` gets for the links of the left operand. -/
theorem flip_flip_onlyMidComparison (leftVar midVar : Name) :
    flipComparison (flipComparison (onlyMidComparison leftVar midVar)) =
      onlyMidComparison leftVar midVar := by
  unfold onlyMidComparison
  split_ifs
  · rfl
  · rfl

theorem safe_of_tfSound (ok : tables.Ok chunkToVar chunks) (split : Unambiguous chunks)
    (leftOk : left.Ok chunkToVar chunks) (rightOk : right.Ok chunkToVar chunks)
    (sound : TfSound chunkToVar tables left right) :
    TfSafe tables left right.var (tables.linksOf right.varSym) ∧
      TfSafe tables right left.var (tables.linksOf left.varSym) := by
  refine ⟨⟨?_, ?_⟩, ⟨?_, ?_⟩⟩
  · intro data member
    obtain ⟨link, among, reaches⟩ := mem_reached_iff.mp member
    by_contra part
    obtain ⟨states, set_, wrong⟩ := @exists_wrong_state ε chunkToVar chunks tables left unknown
      right.var link _ data left.expr ok split leftOk.chunk among reaches part
    exact wrong (((sound _ _ _ states (mem_append_left _ set_)).2 _
      (onlyLink_allTrue reaches.1 part)).1 (onlyMidComparison_holds _ _))
  · intro data member leaks
    obtain ⟨states, set_, wrong⟩ := @exists_unnamed_of_leaks ε chunkToVar chunks tables left
      right.var _ left.expr ok ⟨data, member, leaks⟩
    exact wrong (sound _ _ _ states (mem_append_left _ set_)).1
  · intro data member
    obtain ⟨link, among, reaches⟩ := mem_reached_iff.mp member
    by_contra part
    obtain ⟨states, set_, wrong⟩ := @exists_wrong_state ε chunkToVar chunks tables right unknown
      left.var link _ data right.expr ok split rightOk.chunk among reaches part
    rw [← flip_flip_onlyMidComparison] at set_
    exact wrong (((sound _ _ unknown states (mem_append_right _ set_)).2 _
      (onlyLink_allTrue reaches.1 part)).1 (flip_holds (onlyMidComparison_holds _ _)))
  · intro data member leaks
    obtain ⟨states, set_, wrong⟩ := @exists_unnamed_of_leaks ε chunkToVar chunks tables right
      left.var _ right.expr ok ⟨data, member, leaks⟩
    exact wrong (sound allEqual gt lte states (mem_append_right _ set_)).1

end TfSound

/-! ## An assignment and a call -/

/-- The comparisons of the result have the right expressions, and they are true of all values
for which the stored comparisons and the premise are. -/
def ResultSound (chunkToVar : ε → Option Name) (tables result : Tables ε)
    (premise : (Name → Int) → Prop) : Prop :=
  (∀ link data, result.data link = some data → data.Named chunkToVar) ∧
    ∀ env, tables.AllTrue env → premise env → result.AllTrue env

def RoundsSound (chunkToVar : ε → Option Name) (round : Tables ε → Name → Tables ε)
    (tables : Tables ε) (links : List Name) (premise : (Name → Int) → Prop) : Prop :=
  ∀ done, done <+: links → ResultSound chunkToVar tables (done.foldl round tables) premise

section Rounds

variable {chunkToVar : ε → Option Name} {chunks : Set Name} {tables : Tables ε}
  {round : Tables ε → Name → Tables ε} {links : List Name} {premise : (Name → Int) → Prop}
  {left : Operand ε} {right : VarSym}

/-- A loop whose rounds keep the states well formed and true. -/
theorem roundsSound_of_rounds (ok : tables.Ok chunkToVar chunks)
    (keepsOk : ∀ tables link, link ∈ links → tables.Ok chunkToVar chunks →
      (round tables link).Ok chunkToVar chunks)
    (keepsTrue : ∀ tables link env, link ∈ links → tables.Ok chunkToVar chunks →
      tables.AllTrue env → premise env → (round tables link).AllTrue env) :
    RoundsSound chunkToVar round tables links premise := by
  have loop : ∀ done : List Name, (∀ link ∈ done, link ∈ links) → ∀ start,
      Tables.Ok chunkToVar chunks start → (done.foldl round start).Ok chunkToVar chunks ∧
        ∀ env, start.AllTrue env → premise env → (done.foldl round start).AllTrue env := by
    intro done
    induction done with
    | nil => exact fun _ start startOk => ⟨startOk, fun env allTrue _ => allTrue⟩
    | cons link done ih =>
      intro among start startOk
      have here := among link mem_cons_self
      obtain ⟨afterOk, afterTrue⟩ := ih
        (fun other member => among other (mem_cons_of_mem _ member)) _
        (keepsOk start link here startOk)
      refine ⟨afterOk, fun env allTrue holds => ?_⟩
      exact afterTrue env (keepsTrue start link env here startOk allTrue holds) holds
  intro done start
  obtain ⟨afterOk, afterTrue⟩ := loop done (fun link member => start.subset member) tables ok
  refine ⟨?_, afterTrue⟩
  intro link data found
  have dataOk := (afterOk link data found).2
  exact ⟨dataOk.left.named, dataOk.right.named⟩

theorem copyTo_ok {op : Comparison} {other : Operand ε} (ok : tables.Ok chunkToVar chunks)
    (leftOk : left.Ok chunkToVar chunks) (otherOk : other.Ok chunkToVar chunks) :
    (copyTo tables left op other).Ok chunkToVar chunks := by
  unfold copyTo
  split_ifs
  · exact ok
  · exact addComparisonVarSym_ok ok leftOk otherOk

theorem copyRound_ok (leftOk : left.Ok chunkToVar chunks) (rightVar : Name)
    (ok : tables.Ok chunkToVar chunks) (link : Name) :
    (copyRound left rightVar tables link).Ok chunkToVar chunks := by
  unfold copyRound
  cases found : tables.data link with
  | none => exact ok
  | some data =>
    simp only
    have dataOk := (ok link data found).2
    split_ifs
    · exact ok
    · exact copyTo_ok ok leftOk dataOk.right
    · exact copyTo_ok ok leftOk dataOk.left
    · exact ok

theorem copyTo_allTrue {env : Name → Int} {op : Comparison} {other : Operand ε}
    (allTrue : tables.AllTrue env) (holds : op.Holds (env left.var) (env other.var)) :
    (copyTo tables left op other).AllTrue env := by
  unfold copyTo
  split_ifs
  · exact allTrue
  · exact addComparisonVarSym_allTrue allTrue holds

theorem copyRound_allTrue {env : Name → Int} {rightVar : Name} (allTrue : tables.AllTrue env)
    (same : env left.var = env rightVar) (link : Name) :
    (copyRound left rightVar tables link).AllTrue env := by
  unfold copyRound
  cases found : tables.data link with
  | none => exact allTrue
  | some data =>
    simp only
    have true_ := allTrue link data found
    split_ifs with _ onLeft onRight
    · exact allTrue
    · refine copyTo_allTrue allTrue ?_
      rw [same, strcmp_eq_zero_iff.mp onLeft]
      exact true_
    · refine copyTo_allTrue allTrue ?_
      rw [same, strcmp_eq_zero_iff.mp onRight]
      exact flip_holds true_
    · exact allTrue

theorem callRound_ok (leftOk : left.Ok chunkToVar chunks) (op : Comparison) (rightVar : Name)
    (ok : tables.Ok chunkToVar chunks) (link : Name) :
    (callRound left op rightVar tables link).Ok chunkToVar chunks := by
  unfold callRound
  cases found : tables.data link with
  | none => exact ok
  | some data =>
    simp only
    split_ifs
    · exact ok
    · exact addComparisonVarSym_ok ok leftOk ((ok link data found).2.otherSide rightVar)

theorem callRound_allTrue {env : Name → Int} {op : Comparison} {rightVar link : Name}
    (allTrue : tables.AllTrue env)
    (whole : ∀ data, tables.data link = some data → data.Whole rightVar)
    (holds : op.Holds (env left.var) (env rightVar)) :
    (callRound left op rightVar tables link).AllTrue env := by
  unfold callRound
  cases found : tables.data link with
  | none => exact allTrue
  | some data =>
    simp only
    split_ifs
    · exact allTrue
    · exact addComparisonVarSym_allTrue allTrue
        (combine_holds holds (otherSide_holds (whole data found) (allTrue link data found)))

/-- A comparison that is stored under a name has the operands of that name. -/
theorem Tables.Ok.same_vars (ok : tables.Ok chunkToVar chunks) {others : Tables ε}
    (othersOk : others.Ok chunkToVar chunks) (split : Unambiguous chunks) {link : Name}
    {data other : CompareData ε} (found : tables.data link = some data)
    (otherFound : others.data link = some other) :
    other.leftVar = data.leftVar ∧ other.rightVar = data.rightVar := by
  obtain ⟨name, dataOk⟩ := ok link data found
  rw [← name] at otherFound
  exact othersOk.vars split dataOk.left.chunk dataOk.right.chunk otherFound

theorem stored_holds {env : Name → Int} {op : Comparison} {other : Operand ε}
    (operator : op.IsOperator) (allTrue : (addComparisonVarSym tables left op other).AllTrue env) :
    op.Holds (env left.var) (env other.var) := by
  unfold addComparisonVarSym at allTrue
  split_ifs at allTrue
  · exact (flipComparison_holds operator).mp
      (allTrue _ _ (data_addOrdered tables other left (flipComparison op)))
  · exact allTrue _ _ (data_addOrdered tables left other op)

end Rounds

/-- `copy_comparisons` for `left = right` and each of its rounds, with the values after the
assignment. -/
def CopySound (chunkToVar : ε → Option Name) (tables : Tables ε) (left : Operand ε)
    (right : VarSym) : Prop :=
  ∀ ops, ResultSound chunkToVar (tables.relabel ops)
      (copyComparisons (tables.relabel ops) left right) (fun env => env left.var = env right.var) ∧
    RoundsSound chunkToVar (copyRound left right.var) (tables.relabel ops)
      (tables.linksOf right) fun env => env left.var = env right.var

/-- `update_links_from_call` for a result that compares with an argument in any way. -/
def CallSound (chunkToVar : ε → Option Name) (tables : Tables ε) (left : Operand ε)
    (right : VarSym) : Prop :=
  ∀ ops op, ResultSound chunkToVar (tables.relabel ops)
      (updateLinksFromCall (tables.relabel ops) left op right)
      (fun env => op.Holds (env left.var) (env right.var)) ∧
    RoundsSound chunkToVar (callRound left op right.var) (tables.relabel ops)
      (tables.linksOf right) fun env => op.Holds (env left.var) (env right.var)

def CallSafe (tables : Tables ε) (right : VarSym) : Prop :=
  ∀ link ∈ tables.linksOf right, ∀ data, tables.data link = some data → data.Whole right.var

section Calls

variable {chunkToVar : ε → Option Name} {chunks : Set Name} {tables : Tables ε}
  {left : Operand ε} {right : VarSym}

theorem copySound (ok : tables.Ok chunkToVar chunks) (leftOk : left.Ok chunkToVar chunks)
    (right : VarSym) : CopySound chunkToVar tables left right := by
  intro ops
  have rounds : RoundsSound chunkToVar (copyRound left right.var) (tables.relabel ops)
      (tables.linksOf right) fun env => env left.var = env right.var := by
    refine roundsSound_of_rounds (ok.relabel ops) ?_ ?_
    · intro start link _ startOk
      exact copyRound_ok leftOk right.var startOk link
    · intro start link env _ _ allTrue same
      exact copyRound_allTrue allTrue same link
  exact ⟨rounds _ prefix_rfl, rounds⟩

theorem callSound_of_safe (ok : tables.Ok chunkToVar chunks) (split : Unambiguous chunks)
    (leftOk : left.Ok chunkToVar chunks)
    (compared : ∀ link ∈ tables.linksOf right, ∃ data, tables.data link = some data)
    (safe : CallSafe tables right) : CallSound chunkToVar tables left right := by
  intro ops op
  have rounds : RoundsSound chunkToVar (callRound left op right.var) (tables.relabel ops)
      (tables.linksOf right) fun env => op.Holds (env left.var) (env right.var) := by
    refine roundsSound_of_rounds (ok.relabel ops) ?_ ?_
    · intro start link _ startOk
      exact callRound_ok leftOk op right.var startOk link
    · intro start link env member startOk allTrue holds
      refine callRound_allTrue allTrue ?_ holds
      -- An earlier round may have stored a comparison under this name, of the same operands.
      intro data found
      obtain ⟨shape, shapeFound⟩ := compared link member
      obtain ⟨leftVar, rightVar⟩ := ok.same_vars startOk split shapeFound found
      unfold CompareData.Whole
      rw [leftVar, rightVar]
      exact safe link member shape shapeFound
  exact ⟨rounds _ prefix_rfl, rounds⟩

theorem foldl_callRound_of_absent {op : Comparison} {links : List Name}
    (absent : ∀ link ∈ links, tables.data link = none) :
    links.foldl (callRound left op right.var) tables = tables := by
  induction links with
  | nil => rfl
  | cons link links ih =>
    have here : callRound left op right.var tables link = tables := by
      unfold callRound
      rw [absent link mem_cons_self]
    rw [foldl_cons, here]
    exact ih fun other member => absent other (mem_cons_of_mem _ member)

theorem safe_of_callSound (sound : CallSound chunkToVar tables left right) :
    CallSafe tables right := by
  intro link member data found
  by_contra part
  have rightPart : data.rightVar ≠ right.var := fun same => part (.inr same.symm)
  have operator := onlyMidComparison_isOperator left.var right.var
  obtain ⟨before, after, whole, fresh⟩ := eq_append_cons_of_mem member
  have skipped : before.foldl
      (callRound left (onlyMidComparison left.var right.var) right.var)
      (tables.relabel (onlyLink link)) = tables.relabel (onlyLink link) := by
    apply foldl_callRound_of_absent
    intro other among
    cases stored : (tables.relabel (onlyLink link)).data other with
    | none => rfl
    | some new =>
      obtain ⟨_, _, _, labelled, _⟩ := data_relabel_eq_some.mp stored
      obtain ⟨rfl, -⟩ := onlyLink_eq_some labelled
      exact absurd among fresh
  have stored : (tables.relabel (onlyLink link)).data link =
      some { data with comparison := equal } :=
    data_relabel_eq_some.mpr ⟨data, equal, found, onlyLink_self link, rfl⟩
  have set_ : (before ++ [link]).foldl
      (callRound left (onlyMidComparison left.var right.var) right.var)
      (tables.relabel (onlyLink link)) =
      addComparisonVarSym (tables.relabel (onlyLink link)) left
        (onlyMidComparison left.var right.var) data.rightSide := by
    rw [foldl_append, skipped, foldl_cons, foldl_nil]
    unfold callRound
    rw [stored]
    simp only [otherSide_part rightPart.symm, combineComparisons_equal, if_neg operator.1]
  have prefix_ : before ++ [link] <+: tables.linksOf right := by
    rw [whole]
    exact ⟨after, by rw [append_assoc]; rfl⟩
  have true_ := ((sound _ (onlyMidComparison left.var right.var)).2 _ prefix_).2 (onlyMid right.var)
    (onlyLink_allTrue found part) (onlyMidComparison_holds _ _)
  rw [set_] at true_
  exact onlyMidComparison_false left.var rightPart (stored_holds operator true_)

end Calls

section Links

variable {chunkToVar : ε → Option Name} {chunks : Set Name} {tables : Tables ε}

/-- For a condition that compares `left` with `right`, an assignment `to_ = source` and a call
whose result `call` compares with an argument: what the three routines set is right for all
operators and values exactly when the links they follow to the end are to whole operands,
and no exchange of operands comes before another round. -/
theorem linksSound_iff (ok : tables.Ok chunkToVar chunks) (split : Unambiguous chunks)
    {left right to_ call : Operand ε} {source arg : VarSym} (leftOk : left.Ok chunkToVar chunks)
    (rightOk : right.Ok chunkToVar chunks) (toOk : to_.Ok chunkToVar chunks)
    (callOk : call.Ok chunkToVar chunks)
    (compared : ∀ link ∈ tables.linksOf arg, ∃ data, tables.data link = some data) :
    (TfSound chunkToVar tables left right ∧ CopySound chunkToVar tables to_ source ∧
        CallSound chunkToVar tables call arg) ↔
      TfSafe tables left right.var (tables.linksOf right.varSym) ∧
        TfSafe tables right left.var (tables.linksOf left.varSym) ∧ CallSafe tables arg := by
  constructor
  · rintro ⟨tf, -, calls⟩
    obtain ⟨rightLinks, leftLinks⟩ := safe_of_tfSound ok split leftOk rightOk tf
    exact ⟨rightLinks, leftLinks, safe_of_callSound calls⟩
  · rintro ⟨rightLinks, leftLinks, safe⟩
    exact ⟨tfSound_of_safe ok split leftOk rightOk rightLinks leftLinks, copySound ok toOk source,
      callSound_of_safe ok split callOk compared safe⟩

end Links

def letter (byte : Fin 256) : Operand (Fin 256) := ⟨some byte, [byte], [⟨[byte], some byte.val⟩]⟩

def letterName (byte : Fin 256) : Option Name := some [byte]

theorem letter_ok (byte : Fin 256) : (letter byte).Ok letterName { name | name.length = 1 } where
  chunk := rfl
  named e stored := by
    cases stored
    rfl

theorem unambiguous_letters : Unambiguous { name | name.length = 1 } := by
  intro a aOne b bOne c cOne d dOne same
  obtain ⟨byteA, rfl⟩ := length_eq_one_iff.mp aOne
  obtain ⟨byteB, rfl⟩ := length_eq_one_iff.mp bOne
  obtain ⟨byteC, rfl⟩ := length_eq_one_iff.mp cOne
  obtain ⟨byteD, rfl⟩ := length_eq_one_iff.mp dOne
  injection same with first rest
  injection rest with _ rest
  injection rest with _ rest
  injection rest with _ rest
  injection rest with _ rest
  injection rest with last _
  exact ⟨congrArg (fun byte => [byte]) first, congrArg (fun byte => [byte]) last⟩

/-- The states after `a < b`, with the link of `b`. -/
def oneLink : Tables (Fin 256) where
  compare link := if link = stateName [97] [98] then
    some (some (allocCompareState (letter 97) lt (letter 98))) else none
  links vs := if vs = ⟨[98], some 98⟩ then some [stateName [97] [98]] else none

theorem data_oneLink {link : Name} {data : CompareData (Fin 256)}
    (found : oneLink.data link = some data) :
    link = stateName [97] [98] ∧ data = allocCompareState (letter 97) lt (letter 98) := by
  unfold oneLink Tables.data at found
  simp only at found
  split_ifs at found with same
  · exact ⟨same, (Option.some.inj found).symm⟩
  · cases found

theorem oneLink_ok : oneLink.Ok letterName { name | name.length = 1 } := by
  intro link data found
  obtain ⟨rfl, rfl⟩ := data_oneLink found
  exact ⟨rfl, letter_ok 97, letter_ok 98, by decide⟩

/-- After `a < b` the links of `b` are followed for `c < b`, `x = b` and a call with `b`. -/
theorem linksSound_oneLink :
    oneLink.Ok letterName { name | name.length = 1 } ∧
      oneLink.linksOf ⟨[98], some 98⟩ = [stateName [97] [98]] ∧
      TfSound letterName oneLink (letter 99) (letter 98) ∧
      CopySound letterName oneLink (letter 120) ⟨[98], some 98⟩ ∧
      CallSound letterName oneLink (letter 114) ⟨[98], some 98⟩ := by
  have compared : ∀ link ∈ oneLink.linksOf ⟨[98], some 98⟩,
    ∃ data, oneLink.data link = some data := by
    intro link member
    cases mem_singleton.mp member
    exact ⟨_, rfl⟩
  refine ⟨oneLink_ok, rfl, ?_⟩
  apply (linksSound_iff oneLink_ok unambiguous_letters (letter_ok 99) (letter_ok 98)
    (letter_ok 120) (letter_ok 114) compared).mpr
  refine ⟨⟨?_, ?_⟩, ⟨?_, ?_⟩, ?_⟩
  · intro data member
    obtain ⟨link, -, reaches⟩ := mem_reached_iff.mp member
    obtain ⟨-, rfl⟩ := data_oneLink reaches.1
    exact .inr rfl
  · intro data member
    cases member
  · intro data member
    cases member
  · intro data member
    cases member
  · intro link _ data found
    obtain ⟨-, rfl⟩ := data_oneLink found
    exact .inr rfl

def sumOperand : Operand (Fin 256) :=
  ⟨none, [97, space, 43, space, 98], [⟨[97], some 97⟩, ⟨[98], some 98⟩]⟩

/-- The states after `a + b < c`, with the link that `save_link` makes for `a`. -/
def partLink : Tables (Fin 256) where
  compare link := if link = stateName sumOperand.var [99] then
    some (some (allocCompareState sumOperand lt (letter 99))) else none
  links vs := if vs = ⟨[97], some 97⟩ then some [stateName sumOperand.var [99]] else none

/-- The values with `a = 5`, `b = -10`, `c = 0` and `l = 1`. -/
def partValues (name : Name) : Int :=
  if name = [97] then 5 else if name = sumOperand.var then -5 else if name = [108] then 1 else 0

/-- From `a + b < c` and `a > l` the code concludes `c > l`. -/
theorem partLink_wrong :
    partLink.AllTrue partValues ∧
      gt.Holds (partValues (letter 97).var) (partValues (letter 108).var) ∧
      ∃ states ∈ updateTfData partLink (letter 97) (letter 108) gt lte,
        ¬ PathTrue states.trueState partValues := by
  refine ⟨?_, by decide, ?_⟩
  · intro link data found
    unfold partLink Tables.data at found
    simp only at found
    split_ifs at found
    · cases found
      change partValues sumOperand.var < partValues [99]
      decide
    · cases found
  · refine ⟨_, mem_cons_self, ?_⟩
    intro true_
    have less : partValues [108] < partValues [99] :=
      true_ (allocCompareState (letter 99) gt (letter 108)) rfl
    exact absurd less (by decide)

end SmatchFormal.Links
