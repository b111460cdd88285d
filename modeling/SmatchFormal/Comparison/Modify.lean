import SmatchFormal.Comparison.States
import SmatchFormal.Ranges.Split

/-!
# Modifying a variable

`match_inc` and `match_dec` go through the links of a variable that is increased
or decreased and change each comparison to one that is meant to be true of the
new value.
-/

namespace SmatchFormal.Links

open SmatchFormal.Stree SmatchFormal.Ranges Comparison List

variable {ε : Type}

/-! ## The code -/

/-- The test of `match_inc` for the variable being on the right of the link. -/
def linkFlip (name link : Name) : Bool :=
  !name.isPrefixOf link || link[name.length]? != some space

/-- The switch of `match_inc`; `none` is a `break` that sets nothing. -/
def incComparison (flip preserve : Bool) (op : Comparison) : Option Comparison :=
  match if flip then flipComparison op else op with
  | equal | gte | unsignedGte | gt | unsignedGt =>
    if preserve then none else some (if flip then lt else gt)
  | lt | unsignedLt => some (if flip then gte else lte)
  | _ => some unknown

def decComparison (preserve : Bool) (op : Comparison) : Option Comparison :=
  match op with
  | equal | lte | unsignedLte | lt | unsignedLt => if preserve then none else some lt
  | _ => some unknown

def replaceComparison (new : CompareData ε → Option Comparison) (tables : Tables ε) (link : Name) :
    Tables ε :=
  match tables.data link with
  | none => tables
  | some data =>
    match new data with
    | none => tables
    | some op => tables.setCompare link (some { data with comparison := op })

def matchInc (tables : Tables ε) (sm : VarSym) (links : List Name) (preserve : Bool) : Tables ε :=
  links.foldl (fun tables link => replaceComparison
    (fun data => incComparison (linkFlip sm.var link) preserve data.comparison) tables link) tables

def matchDec (tables : Tables ε) (links : List Name) (preserve : Bool) : Tables ε :=
  links.foldl (replaceComparison fun data => decComparison preserve data.comparison) tables

def resetSm (tables : Tables ε) (sm : VarSym) (links : List Name) : Tables ε :=
  let tables := links.foldl (fun tables link => tables.setCompare link
    ((tables.data link).map fun data => { data with comparison := unknown })) tables
  tables.setLinks sm []

/-- `x++`, `x--`, `x += n` and `x -= n`, with the range of `n`. -/
inductive Modification where
  | increment
  | decrement
  | addAssign (rl : RangeList)
  | subAssign (rl : RangeList)

def zeroSval : Sval := ⟨intCtype, 0⟩

def matchIncDec (tables : Tables ε) (sm : VarSym) (links : List Name) :
    Modification → Tables ε
  | .increment => matchInc tables sm links false
  | .decrement => matchDec tables links false
  | .addAssign rl =>
    if svalIsNegative (rlMin rl) then resetSm tables sm links
    else matchInc tables sm links (rlHasSval rl zeroSval)
  | .subAssign rl =>
    if svalIsNegative (rlMin rl) then resetSm tables sm links
    else matchDec tables links (rlHasSval rl zeroSval)

/-! ## The loops -/

theorem data_replaceComparison (new : CompareData ε → Option Comparison) (tables : Tables ε)
    (link : Name) :
    (replaceComparison new tables link).data link =
      (tables.data link).map fun data =>
        { data with comparison := (new data).getD data.comparison } := by
  unfold replaceComparison
  cases found : tables.data link with
  | none => exact found
  | some data =>
    cases replaced : new data with
    | none =>
      simp only [replaced, Option.map_some, Option.getD_none]
      exact found
    | some op =>
      simp only [replaced, Option.map_some, Option.getD_some]
      exact data_setCompare tables link _

theorem data_replaceComparison_of_ne (new : CompareData ε → Option Comparison) (tables : Tables ε)
    {link other : Name} (different : other ≠ link) :
    (replaceComparison new tables link).data other = tables.data other := by
  unfold replaceComparison
  cases tables.data link with
  | none => rfl
  | some data =>
    simp only
    cases new data with
    | none => rfl
    | some op => exact data_setCompare_of_ne tables _ different

/-- A loop that only changes the state of the link it is at. -/
theorem data_foldl (step : Tables ε → Name → Tables ε)
    (change : Name → Option (CompareData ε) → Option (CompareData ε))
    (here : ∀ tables link, (step tables link).data link = change link (tables.data link))
    (elsewhere : ∀ tables link other, other ≠ link →
      (step tables link).data other = tables.data other)
    (links : List Name) (distinct : links.Nodup) (tables : Tables ε) (link : Name) :
    (links.foldl step tables).data link =
      if link ∈ links then change link (tables.data link) else tables.data link := by
  induction links generalizing tables with
  | nil => rfl
  | cons first links ih =>
    obtain ⟨absent, rest⟩ := nodup_cons.mp distinct
    rw [foldl_cons, ih rest]
    by_cases same : link = first
    · subst same
      rw [if_neg absent, if_pos mem_cons_self, here]
    · have member : link ∈ first :: links ↔ link ∈ links := by
        rw [mem_cons]
        exact ⟨fun either => either.resolve_left same, .inr⟩
      rw [elsewhere tables first link same]
      simp only [member]

/-! ## The side of a link -/

theorem linkFlip_left (name right : Name) : linkFlip name (stateName name right) = false := by
  have member : (stateName name right)[name.length]? = some space := by
    unfold stateName
    rw [List.getElem?_append_right (Nat.le_refl _), Nat.sub_self]
    rfl
  have starts : name.isPrefixOf (stateName name right) = true :=
    isPrefixOf_iff_prefix.mpr (prefix_append _ _)
  unfold linkFlip
  rw [member, starts]
  decide

/-- The name of a variable does not contain the text `" vs"`. -/
def IsVariable (name : Name) : Prop := ¬ [space, 118, 115] <:+: name

/-- A name on the right is recognised because the one on the left sorts before it. -/
theorem linkFlip_right {left name : Name} (sorted : strcmp left name < 0)
    (variable_ : IsVariable name) : linkFlip name (stateName left name) = true := by
  unfold linkFlip
  by_contra recognised
  rw [Bool.not_eq_true, Bool.or_eq_false_iff, Bool.not_eq_false', bne_eq_false_iff_eq] at recognised
  obtain ⟨starts, next⟩ := recognised
  obtain ⟨rest, whole⟩ := isPrefixOf_iff_prefix.mp starts
  have first : rest[0]? = some space := by
    rw [← whole, List.getElem?_append_right (Nat.le_refl _), Nat.sub_self] at next
    exact next
  rcases append_eq_append_iff.mp whole with ⟨more, longer, tail⟩ | ⟨more, longer, tail⟩
  · -- This name is a part of the left one, which then sorts after it.
    cases more with
    | nil =>
      rw [append_nil] at longer
      rw [longer, strcmp_self] at sorted
      exact absurd sorted (lt_irrefl 0)
    | cons byte more =>
      rw [tail] at first
      cases first
      rw [longer, strcmp_append_space] at sorted
      exact absurd sorted (by decide)
  · -- The left name is a part of this one, and the text `" vs"` begins inside it.
    rcases more with _ | ⟨a, _ | ⟨b, _ | ⟨c, more⟩⟩⟩
    · rw [append_nil] at longer
      rw [longer, strcmp_self] at sorted
      exact absurd sorted (lt_irrefl 0)
    · cases tail
      cases first
    · cases tail
      cases first
    · injection tail with one tail
      injection tail with two tail
      injection tail with three tail
      subst one two three
      exact variable_ ⟨left, more, by rw [longer, append_assoc]; rfl⟩

/-! ## One comparison -/

def HoldsAt (right : Bool) (op : Comparison) (x y : Int) : Prop :=
  if right then op.Holds y x else op.Holds x y

def seen (right : Bool) (op : Comparison) : Comparison :=
  if right then flipComparison op else op

theorem holdsAt_seen (right : Bool) {op : Comparison} (possible : op ≠ impossible) (x y : Int) :
    HoldsAt right op x y ↔ (seen right op).Holds x y := by
  cases right with
  | false => exact Iff.rfl
  | true =>
    by_cases operator : op = unknown
    · subst operator
      exact Iff.rfl
    · exact (flipComparison_holds ⟨operator, possible⟩).symm

section Amounts

variable {amounts : Set Int} {preserve : Bool}

def Still (amounts : Set Int) : Prop := ∀ n ∈ amounts, n = 0

def Moves (amounts : Set Int) : Prop := 0 ∉ amounts

def Steps (amounts : Set Int) : Prop := ∀ n ∈ amounts, n ≤ 1

/-- When `match_inc` is right about a comparison that is seen from the variable. -/
def SafeInc (amounts : Set Int) : Comparison → Prop
  | equal => Still amounts ∨ Moves amounts
  | lt | unsignedLt => Steps amounts
  | _ => True

/-- When `match_dec` is right, which does not look for the side of the variable. -/
def SafeDec (amounts : Set Int) (right : Bool) : Comparison → Prop
  | equal => Still amounts ∨ right = false ∧ Moves amounts
  | gte | unsignedGte | gt | unsignedGt => right = true → Still amounts
  | _ => True

/-- The equality that is kept for an amount that may be zero. -/
theorem still_or_moves_iff (zero : preserve = true ↔ 0 ∈ amounts) :
    (Still amounts ∨ Moves amounts) ↔ preserve = true → Still amounts := by
  constructor
  · intro either kept
    exact either.resolve_right fun moves => moves (zero.mp kept)
  · intro still
    cases kept : preserve with
    | false => exact .inr fun member => absurd (zero.mpr member) (by rw [kept]; decide)
    | true => exact .inl (still kept)

theorem pos_of_not_preserve (nonneg : ∀ n ∈ amounts, 0 ≤ n)
    (zero : preserve = true ↔ 0 ∈ amounts) (moves : preserve = false) :
    ∀ n ∈ amounts, 0 < n := by
  intro n member
  rcases (nonneg n member).lt_or_eq with less | same
  · exact less
  · rw [← same] at member
    rw [zero.mpr member] at moves
    cases moves

theorem incComparison_left_iff (nonneg : ∀ n ∈ amounts, 0 ≤ n)
    (zero : preserve = true ↔ 0 ∈ amounts) (op : Comparison) :
    SafeInc amounts op ↔ ∀ x y n, n ∈ amounts → op.Holds x y →
      ((incComparison false preserve op).getD op).Holds (x + n) y := by
  have positive := pos_of_not_preserve nonneg zero
  cases op with
  | equal =>
    change (Still amounts ∨ Moves amounts) ↔ _
    rw [still_or_moves_iff zero]
    cases preserve with
    | false =>
      refine ⟨fun _ x y n member same => ?_, fun _ kept => absurd kept Bool.false_ne_true⟩
      have moved := positive rfl n member
      change y < x + n
      change x = y at same
      omega
    | true =>
      constructor
      · intro still x y n member same
        rw [still rfl n member, add_zero]
        exact same
      · intro right _ n member
        have here : (0 : Int) + n = 0 := right 0 0 n member rfl
        omega
  | lt | unsignedLt =>
    constructor
    · intro steps x y n member less
      have small := steps n member
      change x + n ≤ y
      change x < y at less
      omega
    · intro right n member
      have here : (0 : Int) + n ≤ 1 := right 0 1 n member (by decide)
      omega
  | gte | unsignedGte | gt | unsignedGt =>
    refine ⟨fun _ x y n member less => ?_, fun _ => trivial⟩
    have bound := nonneg n member
    have moved := fun still => positive still n member
    cases preserve with
    | false =>
      have moved := moved rfl
      change y < x + n
      simp only [Holds] at less
      omega
    | true =>
      simp only [incComparison, Option.getD_none, Holds, Bool.false_eq_true, if_false, if_true]
        at less ⊢
      omega
  | lte | unsignedLte | notEqual | unknown | impossible =>
    exact ⟨fun _ _ _ _ _ _ => trivial, fun _ => trivial⟩

theorem incComparison_flip (preserve : Bool) (op : Comparison) :
    seen true ((incComparison true preserve op).getD op) =
      (incComparison false preserve (seen true op)).getD (seen true op) := by
  cases op <;> cases preserve <;> rfl

theorem incComparison_possible (right preserve : Bool) {op : Comparison}
    (possible : op ≠ impossible) :
    (incComparison right preserve op).getD op ≠ impossible := by
  revert possible
  cases op <;> cases right <;> cases preserve <;> decide

theorem decComparison_left_iff (nonneg : ∀ n ∈ amounts, 0 ≤ n)
    (zero : preserve = true ↔ 0 ∈ amounts) (op : Comparison) :
    SafeDec amounts false op ↔ ∀ x y n, n ∈ amounts → op.Holds x y →
      ((decComparison preserve op).getD op).Holds (x - n) y := by
  have positive := pos_of_not_preserve nonneg zero
  cases op with
  | equal =>
    have table : SafeDec amounts false equal ↔ (Still amounts ∨ Moves amounts) := by
      simp only [SafeDec, true_and]
    rw [table, still_or_moves_iff zero]
    cases preserve with
    | false =>
      refine ⟨fun _ x y n member same => ?_, fun _ kept => absurd kept Bool.false_ne_true⟩
      have moved := positive rfl n member
      change x - n < y
      change x = y at same
      omega
    | true =>
      constructor
      · intro still x y n member same
        rw [still rfl n member, sub_zero]
        exact same
      · intro right _ n member
        have here : (0 : Int) - n = 0 := right 0 0 n member rfl
        omega
  | lt | unsignedLt | lte | unsignedLte =>
    refine ⟨fun _ x y n member less => ?_, fun _ => trivial⟩
    have bound := nonneg n member
    have moved := fun still => positive still n member
    cases preserve with
    | false =>
      have moved := moved rfl
      change x - n < y
      simp only [Holds] at less
      omega
    | true =>
      simp only [decComparison, Option.getD_none, Holds, if_true] at less ⊢
      omega
  | gte | unsignedGte | gt | unsignedGt =>
    exact ⟨fun _ _ _ _ _ _ => trivial, fun _ right => absurd right Bool.false_ne_true⟩
  | notEqual | unknown | impossible =>
    exact ⟨fun _ _ _ _ _ _ => trivial, fun _ => trivial⟩

/-- With the variable on the right the comparison moves the wrong way. -/
theorem decComparison_right_iff (nonneg : ∀ n ∈ amounts, 0 ≤ n)
    (zero : preserve = true ↔ 0 ∈ amounts) (op : Comparison) :
    SafeDec amounts true (seen true op) ↔ ∀ x y n, n ∈ amounts → op.Holds y x →
      ((decComparison preserve op).getD op).Holds y (x - n) := by
  have positive := pos_of_not_preserve nonneg zero
  -- An amount of zero is only possible when the comparison is kept.
  have kept : ∀ {op : Comparison} {x y n : Int}, n ∈ amounts → n = 0 → op.Holds y x →
      (if preserve then op else lt).Holds y (x - n) := by
    intro op x y n member same holds
    cases preserve with
    | false => exact absurd (positive rfl n member) (by omega)
    | true =>
      rw [same, sub_zero]
      exact holds
  cases op with
  | equal =>
    have table : SafeDec amounts true (seen true equal) ↔ Still amounts := by
      simp only [SafeDec, seen, if_true, flipComparison, Bool.true_eq_false, false_and, or_false]
    rw [table]
    constructor
    · intro still x y n member same
      have new := kept member (still n member) same
      cases preserve <;> exact new
    · intro right n member
      have bound := nonneg n member
      have here := right 0 0 n member rfl
      cases preserve <;>
        simp only [decComparison, Option.getD_none, Option.getD_some, Holds, if_true,
          Bool.false_eq_true, if_false] at here <;> omega
  | lt | unsignedLt | lte | unsignedLte =>
    constructor
    · intro safe x y n member less
      have new := kept member (safe rfl n member) less
      cases preserve <;> exact new
    · intro right _ n member
      have bound := nonneg n member
      first
        | have here := right 1 0 n member (by decide)
          cases preserve <;>
            simp only [decComparison, Option.getD_none, Option.getD_some, Holds, if_true,
              Bool.false_eq_true, if_false] at here <;> omega
        | have here := right 0 0 n member (by decide)
          cases preserve <;>
            simp only [decComparison, Option.getD_none, Option.getD_some, Holds, if_true,
              Bool.false_eq_true, if_false] at here <;> omega
  | gte | unsignedGte | gt | unsignedGt | notEqual | unknown | impossible =>
    exact ⟨fun _ _ _ _ _ _ => trivial, fun _ => trivial⟩

end Amounts

namespace Modification

def amounts : Modification → Set Int
  | increment | decrement => {1}
  | addAssign rl | subAssign rl => rlSet rl

def adds : Modification → Bool
  | increment | addAssign _ => true
  | decrement | subAssign _ => false

def resets : Modification → Bool
  | addAssign rl | subAssign rl => svalIsNegative (rlMin rl)
  | increment | decrement => false

def preserves : Modification → Bool
  | addAssign rl | subAssign rl => rlHasSval rl zeroSval
  | increment | decrement => false

def moved (mod : Modification) (x n : Int) : Int := if mod.adds then x + n else x - n

def Ok : Modification → Prop
  | addAssign rl | subAssign rl => ∃ type, Canonical type rl ∧ rl ≠ []
  | increment | decrement => True

def newComparison (mod : Modification) (right : Bool) (op : Comparison) : Comparison :=
  if mod.resets then unknown
  else if mod.adds then (incComparison right mod.preserves op).getD op
  else (decComparison mod.preserves op).getD op

/-- The comparisons that stay true, as a table of the operator seen from the variable. -/
def Safe (mod : Modification) (right : Bool) (op : Comparison) : Prop :=
  mod.resets = true ∨
    if mod.adds then SafeInc mod.amounts (seen right op) else
      SafeDec mod.amounts right (seen right op)

end Modification

/-- Comparing with the zero of type `int` is exact. -/
theorem svalCmp_zero {sval : Sval} (typed : sval.OfType sval.type) :
    svalCmp sval zeroSval = intCmp sval.val 0 := by
  obtain ⟨-, low, high⟩ := typed
  obtain ⟨above, other, below⟩ := sval.type.kind.compared_bounds .s32
  obtain ⟨-, least, greatest, -⟩ := (sval.type.kind.compared .s32).bounds
  have kind : (svalCmpType sval zeroSval).kind = sval.type.kind.compared .s32 :=
    svalCmpType_kind sval zeroSval
  have keep : ∀ x : Int, (sval.type.kind.compared .s32).lo ≤ x →
      x ≤ (sval.type.kind.compared .s32).hi → (svalCmpType sval zeroSval).wrap x = x := by
    rw [← kind]
    exact fun x => IntKind.wrap_of_mem
  have zero : zeroSval.val = 0 := rfl
  have low : (sval.type.kind.compared .s32).lo ≤ sval.val := by
    cases sign : sval.type.kind.unsigned with
    | false => exact Int.le_trans (below sign rfl).1 low
    | true =>
      have nonneg : (0 : Int) ≤ sval.val := by
        rw [Sval.val_of_unsigned sign]
        exact Int.natCast_nonneg _
      exact Int.le_trans least nonneg
  rw [svalCmp_eq, zero, keep _ low (Int.le_trans high above), keep 0 least (by omega)]

theorem rlHasSval_zero {type : Ctype} {rl : RangeList} (canonical : Canonical type rl) :
    rlHasSval rl zeroSval = true ↔ 0 ∈ rlSet rl := by
  have compare : ∀ drange ∈ rl, svalCmp drange.min zeroSval = intCmp drange.min.val 0 ∧
      svalCmp drange.max zeroSval = intCmp drange.max.val 0 := by
    intro drange member
    obtain ⟨low, high⟩ := canonical.typed drange member
    refine ⟨svalCmp_zero ?_, svalCmp_zero ?_⟩
    · rw [low.1]
      exact low
    · rw [high.1]
      exact high
  rw [mem_rlSet_iff]
  unfold rlHasSval
  rw [any_eq_true]
  constructor
  · rintro ⟨drange, member, both⟩
    obtain ⟨low, high⟩ := compare drange member
    rw [Bool.and_eq_true, decide_eq_true_eq, decide_eq_true_eq, low, high, intCmp_le_zero,
      intCmp_ge_zero] at both
    exact ⟨drange, member, both⟩
  · rintro ⟨drange, member, both⟩
    obtain ⟨low, high⟩ := compare drange member
    refine ⟨drange, member, ?_⟩
    rw [Bool.and_eq_true, decide_eq_true_eq, decide_eq_true_eq, low, high, intCmp_le_zero,
      intCmp_ge_zero]
    exact both

namespace Modification

variable {mod : Modification}

theorem preserves_iff (ok : mod.Ok) : mod.preserves = true ↔ 0 ∈ mod.amounts := by
  cases mod with
  | increment | decrement => exact ⟨nofun, fun member =>
      absurd (Set.mem_singleton_iff.mp member) (by decide)⟩
  | addAssign rl | subAssign rl =>
    obtain ⟨type, canonical, -⟩ := ok
    exact rlHasSval_zero canonical

theorem nonneg (ok : mod.Ok) (keeps : mod.resets = false) : ∀ n ∈ mod.amounts, 0 ≤ n := by
  intro n member
  cases mod with
  | increment | decrement =>
    rw [Set.mem_singleton_iff.mp member]
    decide
  | addAssign rl | subAssign rl =>
    obtain ⟨type, canonical, nonempty⟩ := ok
    have low := rlMin_le canonical member
    have sign : ¬ (rlMin rl).val < 0 := by
      rw [← svalIsNegative_iff, Bool.not_eq_true]
      exact keeps
    omega

/-- The table says exactly when the new comparison is true of the new value. -/
theorem safe_iff (ok : mod.Ok) (right : Bool) {op : Comparison} (possible : op ≠ impossible) :
    mod.Safe right op ↔ ∀ x y n, n ∈ mod.amounts → HoldsAt right op x y →
      HoldsAt right (mod.newComparison right op) (mod.moved x n) y := by
  unfold Safe newComparison moved
  cases resets : mod.resets with
  | true =>
    refine ⟨fun _ x y n _ _ => ?_, fun _ => .inl rfl⟩
    cases right <;> trivial
  | false =>
    have bound := nonneg ok resets
    have zero := preserves_iff ok
    simp only [Bool.false_eq_true, false_or, if_false]
    cases mod.adds with
    | true =>
      simp only [if_true]
      cases right with
      | false => exact incComparison_left_iff bound zero op
      | true =>
        rw [incComparison_left_iff bound zero (seen true op)]
        simp only [← incComparison_flip, holdsAt_seen true possible,
          holdsAt_seen true (incComparison_possible true mod.preserves possible)]
    | false =>
      simp only [Bool.false_eq_true, if_false]
      cases right with
      | false => exact decComparison_left_iff bound zero op
      | true => exact decComparison_right_iff bound zero op

end Modification

/-! ## All links -/

theorem data_matchInc (tables : Tables ε) (sm : VarSym) {links : List Name} (distinct : links.Nodup)
    (preserve : Bool) (link : Name) :
    (matchInc tables sm links preserve).data link =
      if link ∈ links then (tables.data link).map fun data =>
        { data with comparison :=
            (incComparison (linkFlip sm.var link) preserve data.comparison).getD data.comparison }
      else tables.data link :=
  data_foldl _ (fun link => Option.map fun data =>
      { data with comparison :=
          (incComparison (linkFlip sm.var link) preserve data.comparison).getD data.comparison })
    (fun tables link => data_replaceComparison _ tables link)
    (fun tables _ _ different => data_replaceComparison_of_ne _ tables different)
    links distinct tables link

theorem data_matchDec (tables : Tables ε) {links : List Name} (distinct : links.Nodup)
    (preserve : Bool) (link : Name) :
    (matchDec tables links preserve).data link =
      if link ∈ links then (tables.data link).map fun data =>
        { data with comparison := (decComparison preserve data.comparison).getD data.comparison }
      else tables.data link :=
  data_foldl _ (fun _ => Option.map fun data =>
      { data with comparison := (decComparison preserve data.comparison).getD data.comparison })
    (fun tables link => data_replaceComparison _ tables link)
    (fun tables _ _ different => data_replaceComparison_of_ne _ tables different)
    links distinct tables link

theorem data_resetSm (tables : Tables ε) (sm : VarSym) {links : List Name} (distinct : links.Nodup)
    (link : Name) :
    (resetSm tables sm links).data link =
      if link ∈ links then (tables.data link).map fun data => { data with comparison := unknown }
      else tables.data link :=
  data_foldl _ (fun _ => Option.map fun data => { data with comparison := unknown })
    (fun tables link => data_setCompare tables link _)
    (fun tables _ _ different => data_setCompare_of_ne tables _ different)
    links distinct tables link

theorem data_matchIncDec (tables : Tables ε) (sm : VarSym) {links : List Name}
    (distinct : links.Nodup) (mod : Modification) (link : Name) :
    (matchIncDec tables sm links mod).data link =
      if link ∈ links then (tables.data link).map fun data =>
        { data with comparison := mod.newComparison (linkFlip sm.var link) data.comparison }
      else tables.data link := by
  cases mod with
  | increment => exact data_matchInc tables sm distinct false link
  | decrement => exact data_matchDec tables distinct false link
  | addAssign rl =>
    unfold matchIncDec Modification.newComparison
    cases resets : svalIsNegative (rlMin rl) with
    | true =>
      simp only [Modification.resets, resets, if_true]
      exact data_resetSm tables sm distinct link
    | false =>
      simp only [Modification.resets, resets, Bool.false_eq_true, if_false]
      exact data_matchInc tables sm distinct _ link
  | subAssign rl =>
    unfold matchIncDec Modification.newComparison
    cases resets : svalIsNegative (rlMin rl) with
    | true =>
      simp only [Modification.resets, resets, if_true]
      exact data_resetSm tables sm distinct link
    | false =>
      simp only [Modification.resets, resets, Bool.false_eq_true, if_false]
      exact data_matchDec tables distinct _ link

def CompareData.other (data : CompareData ε) (name : Name) : Name :=
  if data.rightVar == name then data.leftVar else data.rightVar

structure CompareData.Mentions (data : CompareData ε) (name : Name) : Prop where
  sorted : data.Sorted
  side : data.leftVar = name ∨ data.rightVar = name

namespace CompareData.Mentions

variable {data : CompareData ε} {name : Name}

section

variable (mentions : data.Mentions name)
include mentions

/-- The variable is on one side, and the other operand on the other. -/
theorem sides :
    (data.rightVar == name) = false ∧ data.leftVar = name ∧ data.other name = data.rightVar ∨
      (data.rightVar == name) = true ∧ data.rightVar = name ∧ data.other name = data.leftVar := by
  obtain ⟨sorted, side⟩ := mentions
  unfold CompareData.other
  rcases side with left | right
  · have different : (data.rightVar == name) = false := by
      rw [beq_eq_false_iff_ne, ← left]
      exact sorted.ne.symm
    exact .inl ⟨different, left, by rw [different, if_neg Bool.false_ne_true]⟩
  · have same : (data.rightVar == name) = true := beq_iff_eq.mpr right
    exact .inr ⟨same, right, by rw [same, if_pos rfl]⟩

theorem other_ne : data.other name ≠ name := by
  have different := mentions.sorted.ne
  rcases mentions.sides with ⟨-, left, other⟩ | ⟨-, right, other⟩
  · rw [other, ← left]
    exact different.symm
  · rw [other, ← right]
    exact different

theorem true_iff (env : Name → Int) :
    data.True env ↔
      HoldsAt (data.rightVar == name) data.comparison (env name) (env (data.other name)) := by
  unfold CompareData.True HoldsAt
  rcases mentions.sides with ⟨side, left, other⟩ | ⟨side, right, other⟩
  · rw [side, if_neg Bool.false_ne_true, other, left]
  · rw [side, if_pos rfl, other, right]

theorem true_update_iff (env : Name → Int) (x : Int) :
    data.True (Function.update env name x) ↔
      HoldsAt (data.rightVar == name) data.comparison x (env (data.other name)) := by
  rw [mentions.true_iff, Function.update_self, Function.update_of_ne mentions.other_ne]

/-- The test of `match_inc` finds the side of the variable. -/
theorem linkFlip_eq (variable_ : IsVariable name) :
    linkFlip name data.name = (data.rightVar == name) := by
  unfold CompareData.name
  rcases mentions.sides with ⟨side, left, -⟩ | ⟨side, right, -⟩
  · rw [side, left]
    exact linkFlip_left name data.rightVar
  · have sorted := mentions.sorted
    unfold CompareData.Sorted at sorted
    rw [side, right]
    rw [right] at sorted
    exact linkFlip_right sorted variable_

/-- The two operands determine the link, because their names are in order. -/
theorem name_eq {data' : CompareData ε} (mentions' : data'.Mentions name)
    (same : data.other name = data'.other name) :
    data.name = data'.name := by
  have less := mentions.sorted.lt
  have less' := mentions'.sorted.lt
  unfold CompareData.name
  rcases mentions.sides with ⟨-, side, other⟩ | ⟨-, side, other⟩ <;>
    rcases mentions'.sides with ⟨-, side', other'⟩ | ⟨-, side', other'⟩ <;>
    rw [other, other'] at same
  · rw [side, side', same]
  · rw [side, same] at less
    rw [side'] at less'
    exact absurd less (lt_asymm less')
  · rw [side, same] at less
    rw [side'] at less'
    exact absurd less (lt_asymm less')
  · rw [side, side', same]

end

end CompareData.Mentions

/-- Every comparison but the impossible one is true of some other operand. -/
theorem exists_holdsAt (right : Bool) {op : Comparison} (possible : op ≠ impossible) (x : Int) :
    ∃ y, HoldsAt right op x y := by
  rcases right <;> cases op <;>
    first
      | exact absurd rfl possible
      | exact ⟨x, Int.le_refl x⟩
      | exact ⟨x, rfl⟩
      | exact ⟨x, trivial⟩
      | exact ⟨x + 1, by simp only [HoldsAt, Holds, Bool.false_eq_true, if_false, if_true]; omega⟩
      | exact ⟨x - 1, by simp only [HoldsAt, Holds, Bool.false_eq_true, if_false, if_true]; omega⟩

/-- The states show the given comparisons for the links of a variable, and hold every
comparison under its name; a comparison with the variable has a link. -/
structure Shows (name : Name) (links : List Name) (shown : Name → Option (CompareData ε))
    (tables : Tables ε) : Prop where
  shows : ∀ link ∈ links, tables.data link = shown link
  named : ∀ link data, tables.data link = some data → link = data.name ∧ data.Sorted
  linked : ∀ link data, tables.data link = some data → data.leftVar = name ∨ data.rightVar = name →
    link ∈ links

/-- A list of links of a variable, with the comparison that each of them stands for. -/
structure LinksOf (name : Name) (links : List Name) (shown : Name → Option (CompareData ε)) :
    Prop where
  distinct : links.Nodup
  named : ∀ link ∈ links, ∀ data, shown link = some data → link = data.name ∧ data.Sorted
  sides : ∀ link ∈ links, ∀ data, shown link = some data →
    data.leftVar = name ∨ data.rightVar = name

theorem LinksOf.mentions {name : Name} {links : List Name} {shown : Name → Option (CompareData ε)}
    (linked : LinksOf name links shown) {link : Name} (member : link ∈ links)
    {data : CompareData ε} (found : shown link = some data) : data.Mentions name :=
  ⟨(linked.named link member data found).2, linked.sides link member data found⟩

/-- Whatever else is known and whatever the values are: the comparisons are true of the
values after the modification. -/
def StaysTrue (sm : VarSym) (links : List Name) (shown : Name → Option (CompareData ε))
    (mod : Modification) : Prop :=
  ∀ (tables : Tables ε) (env : Name → Int), Shows sm.var links shown tables → tables.AllTrue env →
    ∀ n ∈ mod.amounts, (matchIncDec tables sm links mod).AllTrue
      (Function.update env sm.var (mod.moved (env sm.var) n))

section StaysTrue

variable {sm : VarSym} {links : List Name} {shown : Name → Option (CompareData ε)}
  {mod : Modification}

/-- Comparisons of which one is impossible are not true of any values. -/
theorem staysTrue_of_impossible {link : Name} (member : link ∈ links) {data : CompareData ε}
    (found : shown link = some data) (never : data.comparison = impossible) :
    StaysTrue sm links shown mod := by
  intro tables env shows allTrue n _
  have holds := allTrue link data ((shows.shows link member).trans found)
  unfold CompareData.True at holds
  rw [never] at holds
  exact holds.elim

theorem staysTrue_of_safe (variable_ : IsVariable sm.var) (linked : LinksOf sm.var links shown)
    (ok : mod.Ok)
    (possible : ∀ link ∈ links, ∀ data, shown link = some data → data.comparison ≠ impossible)
    (safe : ∀ link ∈ links, ∀ data, shown link = some data →
      mod.Safe (data.rightVar == sm.var) data.comparison) :
    StaysTrue sm links shown mod := by
  intro tables env shows allTrue n amount link data found
  rw [data_matchIncDec tables sm linked.distinct] at found
  by_cases member : link ∈ links
  · rw [if_pos member] at found
    obtain ⟨old, stored, rfl⟩ := Option.map_eq_some_iff.mp found
    have shownOld : shown link = some old := (shows.shows link member).symm.trans stored
    have mentions := linked.mentions member shownOld
    have name := (linked.named link member old shownOld).1
    have before := (mentions.true_iff env).mp (allTrue link old stored)
    have after := (Modification.safe_iff ok _ (possible link member old shownOld)).mp
      (safe link member old shownOld) _ _ n amount before
    rw [← mentions.linkFlip_eq variable_, ← name] at after
    have keeps : CompareData.Mentions
        { old with comparison := mod.newComparison (linkFlip sm.var link) old.comparison } sm.var :=
      ⟨mentions.sorted, mentions.side⟩
    refine (keeps.true_update_iff env _).mpr ?_
    rw [name, mentions.linkFlip_eq variable_] at after ⊢
    exact after
  · -- A comparison without a link does not mention the variable.
    rw [if_neg member] at found
    have absent := mt (shows.linked link data found) member
    rw [not_or] at absent
    unfold CompareData.True
    rw [Function.update_of_ne absent.1, Function.update_of_ne absent.2]
    exact allTrue link data found

def onlyShown (links : List Name) (shown : Name → Option (CompareData ε)) : Tables ε where
  compare link := if link ∈ links then some (shown link) else none
  links _ := none

theorem data_onlyShown {link : Name} {data : CompareData ε} :
    (onlyShown links shown).data link = some data ↔ link ∈ links ∧ shown link = some data := by
  unfold onlyShown Tables.data
  by_cases member : link ∈ links
  · simp only [member, if_true, Option.join_some, true_and]
  · simp only [member, if_false, Option.join_none, false_and, reduceCtorEq]

theorem shows_onlyShown (linked : LinksOf sm.var links shown) :
    Shows sm.var links shown (onlyShown links shown) where
  shows link member := by
    unfold onlyShown Tables.data
    simp only [if_pos member, Option.join_some]
  named link data found := by
    obtain ⟨member, found⟩ := data_onlyShown.mp found
    exact linked.named link member data found
  linked link data found _ := (data_onlyShown.mp found).1

/-- For a value of the variable and a value of one operand there are values of the others. -/
theorem exists_values (linked : LinksOf sm.var links shown)
    (possible : ∀ link ∈ links, ∀ data, shown link = some data → data.comparison ≠ impossible)
    {link : Name} (member : link ∈ links) {data : CompareData ε} (found : shown link = some data)
    {x y : Int} (holds : HoldsAt (data.rightVar == sm.var) data.comparison x y) :
    ∃ env : Name → Int, env sm.var = x ∧ env (data.other sm.var) = y ∧
      (onlyShown links shown).AllTrue env := by
  have mentions := linked.mentions member found
  -- The other operand determines the comparison, so each operand has to fit only one.
  have each : ∀ name, ∃ value, (name = data.other sm.var → value = y) ∧
      ∀ link ∈ links, ∀ data, shown link = some data → data.other sm.var = name →
        HoldsAt (data.rightVar == sm.var) data.comparison x value := by
    have unique : ∀ {link₁ link₂ : Name} {data₁ data₂ : CompareData ε}, link₁ ∈ links →
        link₂ ∈ links → shown link₁ = some data₁ → shown link₂ = some data₂ →
        data₁.other sm.var = data₂.other sm.var → data₁ = data₂ := by
      intro link₁ link₂ data₁ data₂ member₁ member₂ found₁ found₂ same
      have names := (linked.mentions member₁ found₁).name_eq (linked.mentions member₂ found₂) same
      rw [← (linked.named _ member₁ _ found₁).1, ← (linked.named _ member₂ _ found₂).1] at names
      rw [names, found₂] at found₁
      exact (Option.some.inj found₁).symm
    intro name
    by_cases this : name = data.other sm.var
    · refine ⟨y, fun _ => rfl, ?_⟩
      intro link' member' data' found' other
      rw [unique member' member found' found (other.trans this)]
      exact holds
    · by_cases some_ : ∃ link ∈ links, ∃ data, shown link = some data ∧ data.other sm.var = name
      · obtain ⟨link₁, member₁, data₁, found₁, other₁⟩ := some_
        obtain ⟨value, fits⟩ := exists_holdsAt (data₁.rightVar == sm.var)
          (possible link₁ member₁ data₁ found₁) x
        refine ⟨value, fun same => absurd same this, ?_⟩
        intro link' member' data' found' other
        rw [unique member' member₁ found' found₁ (other.trans other₁.symm)]
        exact fits
      · exact ⟨0, fun same => absurd same this, fun link' member' data' found' other =>
          absurd ⟨link', member', data', found', other⟩ some_⟩
  choose env here fits using each
  refine ⟨Function.update env sm.var x, Function.update_self .., ?_, ?_⟩
  · rw [Function.update_of_ne mentions.other_ne]
    exact here _ rfl
  · intro link' data' found'
    obtain ⟨member', found'⟩ := data_onlyShown.mp found'
    exact ((linked.mentions member' found').true_update_iff env x).mpr
      (fits _ link' member' data' found' rfl)

theorem safe_of_staysTrue (variable_ : IsVariable sm.var) (linked : LinksOf sm.var links shown)
    (ok : mod.Ok)
    (possible : ∀ link ∈ links, ∀ data, shown link = some data → data.comparison ≠ impossible)
    (stays : StaysTrue sm links shown mod) {link : Name} (member : link ∈ links)
    {data : CompareData ε} (found : shown link = some data) :
    mod.Safe (data.rightVar == sm.var) data.comparison := by
  rw [Modification.safe_iff ok _ (possible link member data found)]
  intro x y n amount holds
  obtain ⟨env, rfl, rfl, allTrue⟩ := exists_values linked possible member found holds
  have mentions := linked.mentions member found
  have name := (linked.named link member data found).1
  have keeps : CompareData.Mentions
      { data with comparison := mod.newComparison (linkFlip sm.var link) data.comparison } sm.var :=
    ⟨mentions.sorted, mentions.side⟩
  have stored : (matchIncDec (onlyShown links shown) sm links mod).data link =
      some { data with
        comparison := mod.newComparison (linkFlip sm.var link) data.comparison } := by
    rw [data_matchIncDec _ sm linked.distinct, if_pos member,
      data_onlyShown.mpr ⟨member, found⟩, Option.map_some]
  have after := stays (onlyShown links shown) env (shows_onlyShown linked) allTrue n amount link _
    stored
  rw [keeps.true_update_iff] at after
  rw [name, mentions.linkFlip_eq variable_] at after
  exact after

/-- The comparisons of the links stay true exactly when each of them is one that the
modification keeps true, or one of them cannot be true. -/
theorem matchIncDec_staysTrue_iff (variable_ : IsVariable sm.var)
    (linked : LinksOf sm.var links shown) (ok : mod.Ok) :
    StaysTrue sm links shown mod ↔
      (∃ link ∈ links, ∃ data, shown link = some data ∧ data.comparison = impossible) ∨
        ∀ link ∈ links, ∀ data, shown link = some data →
          mod.Safe (data.rightVar == sm.var) data.comparison := by
  by_cases never : ∃ link ∈ links, ∃ data, shown link = some data ∧ data.comparison = impossible
  · refine ⟨fun _ => .inl never, fun _ => ?_⟩
    obtain ⟨link, member, data, found, never⟩ := never
    exact staysTrue_of_impossible member found never
  · have possible : ∀ link ∈ links, ∀ data, shown link = some data →
        data.comparison ≠ impossible :=
      fun link member data found same => never ⟨link, member, data, found, same⟩
    constructor
    · intro stays
      exact .inr fun link member data found =>
        safe_of_staysTrue variable_ linked ok possible stays member found
    · intro either
      exact staysTrue_of_safe variable_ linked ok possible (either.resolve_left never)

end StaysTrue

def varY : VarSym := ⟨[121], none⟩

def xEqualsY : CompareData Unit :=
  ⟨none, [120], [], equal, none, varY.var, []⟩

theorem isVariable_varY : IsVariable varY.var := by
  intro inside
  exact absurd inside.length_le (by decide)

theorem linksOf_xEqualsY : LinksOf varY.var [xEqualsY.name] fun _ => some xEqualsY where
  distinct := nodup_singleton _
  named link member data found := by
    cases found
    refine ⟨mem_singleton.mp member, ?_⟩
    change strcmp [120] [121] < 0
    decide
  sides _ _ _ found := by
    cases found
    exact .inr rfl

/-- After `y++` the comparison is `x < y`. -/
theorem increment_xEqualsY :
    IsVariable varY.var ∧ LinksOf varY.var [xEqualsY.name] (fun _ => some xEqualsY) ∧
      Modification.increment.Ok ∧
      StaysTrue varY [xEqualsY.name] (fun _ => some xEqualsY) .increment := by
  refine ⟨isVariable_varY, linksOf_xEqualsY, trivial, ?_⟩
  have ok : Modification.increment.Ok := trivial
  refine (matchIncDec_staysTrue_iff isVariable_varY linksOf_xEqualsY ok).mpr (.inr ?_)
  intro link _ data found
  cases found
  refine .inr (.inr ?_)
  intro zero
  exact absurd (Set.mem_singleton_iff.mp zero) (by decide)

/-- After `y--` the comparison is `x < y` too. -/
theorem decrement_xEqualsY :
    IsVariable varY.var ∧ LinksOf varY.var [xEqualsY.name] (fun _ => some xEqualsY) ∧
      Modification.decrement.Ok ∧
      ¬ StaysTrue varY [xEqualsY.name] (fun _ => some xEqualsY) .decrement := by
  refine ⟨isVariable_varY, linksOf_xEqualsY, trivial, ?_⟩
  intro stays
  have before : (onlyShown [xEqualsY.name] fun _ => some xEqualsY).AllTrue fun _ => 0 := by
    intro link data found
    obtain ⟨-, found⟩ := data_onlyShown.mp found
    cases found
    rfl
  have after : (0 : Int) < 0 - 1 :=
    stays _ _ (shows_onlyShown linksOf_xEqualsY) before 1 rfl xEqualsY.name
      { xEqualsY with comparison := lt } rfl
  exact absurd after (by decide)

end SmatchFormal.Links
