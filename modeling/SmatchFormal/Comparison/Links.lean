import SmatchFormal.Comparison.States

/-!
# Following the links

A new comparison of `a` with `b` says something about `a` and everything that `b`
is compared with.  `update_tf_links`, `copy_comparisons` and
`update_links_from_call` go through the links of a variable for this.  A link also
stands for a comparison that has the variable as a part of an operand only.
-/

namespace SmatchFormal.Links

open SmatchFormal.Stree Comparison

variable {ε : Type}

/-! ## The code -/

structure Operand (ε : Type) where
  expr : Option ε
  var : Name
  vsl : List VarSym

def CompareData.leftSide (data : CompareData ε) : Operand ε :=
  ⟨data.left, data.leftVar, data.leftVsl⟩

def CompareData.rightSide (data : CompareData ε) : Operand ε :=
  ⟨data.right, data.rightVar, data.rightVsl⟩

def allocCompareState (left : Operand ε) (comparison : Comparison) (right : Operand ε) :
    CompareData ε :=
  ⟨left.expr, left.var, left.vsl, comparison, right.expr, right.var, right.vsl⟩

def vslToSym : List VarSym → Option Nat
  | [vs] => vs.sym
  | _ => none

/-- The variable under which `update_tf_data` looks for the links of an operand. -/
def Operand.varSym (operand : Operand ε) : VarSym := ⟨operand.var, vslToSym operand.vsl⟩

def haveCommonVarSym (leftVsl rightVsl : List VarSym) : Bool :=
  leftVsl.any fun tmp => rightVsl.contains tmp

/-- `insert_string`: the strings of a list are in order. -/
def insertString : List Name → Name → List Name
  | [], new => [new]
  | tmp :: list, new =>
    if strcmp tmp new < 0 then tmp :: insertString list new
    else if strcmp tmp new = 0 then tmp :: list
    else new :: tmp :: list

def saveLinkVarSym (tables : Tables ε) (vs : VarSym) (link : Name) : Tables ε :=
  tables.setLinks vs (insertString ((tables.links vs).getD []) link)

def getOrigComparison (preStree : Tables ε) (left right : Name) : Comparison :=
  if 0 < strcmp left right then
    match preStree.data (stateName right left) with
    | none => unknown
    | some data => flipComparison data.comparison
  else
    match preStree.data (stateName left right) with
    | none => unknown
    | some data => data.comparison

/-- What the comparison of a link says about `mid_var`: the other operand, and how
`mid_var` compares with it.  When `mid_var` is not the right operand it is taken to be
the left one. -/
def otherSide (midVar : Name) (data : CompareData ε) : Operand ε × Comparison :=
  if strcmp midVar data.rightVar = 0 then (data.leftSide, flipComparison data.comparison)
  else (data.rightSide, data.comparison)

/-- A call of `set_true_false_states` with the variables that get a link to it. -/
structure TrueFalseStates (ε : Type) where
  name : Name
  trueState : Option (CompareData ε)
  falseState : Option (CompareData ε)
  saved : List VarSym

/-- The state of a comparison, or the null pointer for `UNKNOWN_COMPARISON`. -/
def knownState (left : Operand ε) (comparison : Comparison) (right : Operand ε) :
    Option (CompareData ε) :=
  if comparison = unknown then none else some (allocCompareState left comparison right)

def unnamedLink (operand : Operand ε) : List VarSym :=
  if vslToSym operand.vsl = none then [⟨operand.var, none⟩] else []

def setTrueFalse (left : Operand ε) (trueComparison falseComparison : Comparison)
    (right : Operand ε) : List (TrueFalseStates ε) :=
  if trueComparison = unknown ∧ falseComparison = unknown then []
  else [⟨stateName left.var right.var, knownState left trueComparison right,
    knownState left falseComparison right,
    left.vsl ++ right.vsl ++ unnamedLink left ++ unnamedLink right⟩]

def linkComparison (preStree : Tables ε) (leftVar rightVar : Name)
    (leftComparison rightComparison : Comparison) : Comparison :=
  comparisonIntersection (getOrigComparison preStree leftVar rightVar)
    (combineComparisons leftComparison rightComparison)

/-- A round of `update_tf_links`.  The name and the variables of the left operand are set
at its start, but `left_expr` is the one the round before has left. -/
def tfRound (preStree : Tables ε) (left : Operand ε)
    (leftComparison leftFalseComparison : Comparison) (midVar : Name) (leftExpr : Option ε)
    (link : Name) : Option ε × List (TrueFalseStates ε) :=
  match preStree.data link with
  | none => (leftExpr, [])
  | some data =>
    let right := (otherSide midVar data).1
    let rightComparison := (otherSide midVar data).2
    if haveCommonVarSym left.vsl right.vsl then (leftExpr, [])
    else
      let left := { left with expr := leftExpr }
      let trueComparison :=
        linkComparison preStree left.var right.var leftComparison rightComparison
      let falseComparison :=
        linkComparison preStree left.var right.var leftFalseComparison rightComparison
      if 0 < strcmp left.var right.var then
        (right.expr, setTrueFalse right (flipComparison trueComparison)
          (flipComparison falseComparison) left)
      else (left.expr, setTrueFalse left trueComparison falseComparison right)

def updateTfLinks (preStree : Tables ε) (left : Operand ε)
    (leftComparison leftFalseComparison : Comparison) (midVar : Name) :
    Option ε → List Name → List (TrueFalseStates ε)
  | _, [] => []
  | leftExpr, link :: links =>
    let round := tfRound preStree left leftComparison leftFalseComparison midVar leftExpr link
    round.2 ++
      updateTfLinks preStree left leftComparison leftFalseComparison midVar round.1 links

def Tables.linksOf (tables : Tables ε) (vs : VarSym) : List Name := (tables.links vs).getD []

def updateTfData (preStree : Tables ε) (left right : Operand ε)
    (trueComparison falseComparison : Comparison) : List (TrueFalseStates ε) :=
  updateTfLinks preStree left trueComparison falseComparison right.var left.expr
      (preStree.linksOf right.varSym) ++
    updateTfLinks preStree right (flipComparison trueComparison) (flipComparison falseComparison)
      left.var right.expr (preStree.linksOf left.varSym)

def addOrdered (tables : Tables ε) (left : Operand ε) (comparison : Comparison)
    (right : Operand ε) : Tables ε :=
  let link := stateName left.var right.var
  (left.vsl ++ right.vsl).foldl (fun tables vs => saveLinkVarSym tables vs link)
    (tables.setCompare link (some (allocCompareState left comparison right)))

def addComparisonVarSym (tables : Tables ε) (left : Operand ε) (comparison : Comparison)
    (right : Operand ε) : Tables ε :=
  if 0 < strcmp left.var right.var then addOrdered tables right (flipComparison comparison) left
  else addOrdered tables left comparison right

/-- The end of a round of `copy_comparisons`: `n = copy_from_user(dest, src, n);` leads to
`n <= n` which is nonsense. -/
def copyTo (tables : Tables ε) (left : Operand ε) (comparison : Comparison)
    (other : Operand ε) : Tables ε :=
  if strcmp left.var other.var = 0 then tables
  else addComparisonVarSym tables left comparison other

def copyRound (left : Operand ε) (rightVar : Name) (tables : Tables ε) (link : Name) : Tables ε :=
  match tables.data link with
  | none => tables
  | some data =>
    if data.comparison = unknown then tables
    else if strcmp rightVar data.leftVar = 0 then
      copyTo tables left data.comparison data.rightSide
    else if strcmp rightVar data.rightVar = 0 then
      copyTo tables left (flipComparison data.comparison) data.leftSide
    else tables

def copyComparisons (tables : Tables ε) (left : Operand ε) (right : VarSym) : Tables ε :=
  (tables.linksOf right).foldl (copyRound left right.var) tables

def callRound (left : Operand ε) (leftCompare : Comparison) (rightVar : Name) (tables : Tables ε)
    (link : Name) : Tables ε :=
  match tables.data link with
  | none => tables
  | some data =>
    let comparison := combineComparisons leftCompare (otherSide rightVar data).2
    if comparison = unknown then tables
    else addComparisonVarSym tables left comparison (otherSide rightVar data).1

def updateLinksFromCall (tables : Tables ε) (left : Operand ε) (leftCompare : Comparison)
    (right : VarSym) : Tables ε :=
  (tables.linksOf right).foldl (callRound left leftCompare right.var) tables

end SmatchFormal.Links
