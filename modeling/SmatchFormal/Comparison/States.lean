import SmatchFormal.Comparison.Tables
import SmatchFormal.Stree.Tracker
import Mathlib.Data.List.Lex

/-!
# Stored comparisons

`smatch_comparison.c` stores what it knows about two expressions under the name
`left vs right`, with the smaller of the two names on the left.  Each variable
has a list of links, which are the names of the comparisons that mention it.
-/

namespace SmatchFormal.Links

open SmatchFormal.Stree

abbrev Name := List (Fin 256)

def space : Fin 256 := 32

def vs : Name := [space, 118, 115, space]

structure VarSym where
  var : Name
  sym : Option Nat
  deriving DecidableEq

/-- `struct compare_data`, over expressions of type `ε`; `none` is the null pointer. -/
structure CompareData (ε : Type) where
  left : Option ε
  leftVar : Name
  leftVsl : List VarSym
  comparison : Comparison
  right : Option ε
  rightVar : Name
  rightVsl : List VarSym

variable {ε : Type}

/-- The format `"%s vs %s"`.  `snprintf` cuts it at the end of its buffer of 256 bytes, which is
not modelled: the names are together at most 251 bytes long. -/
def stateName (left right : Name) : Name := left ++ (vs ++ right)

def CompareData.name (data : CompareData ε) : Name := stateName data.leftVar data.rightVar

/-- The current states.  A state of `comparison_id` without data is `some none`; the null
list of links is the empty list. -/
structure Tables (ε : Type) where
  compare : Name → Option (Option (CompareData ε))
  links : VarSym → Option (List Name)

/-- The data of a stored comparison, if there is a state and it has data. -/
def Tables.data (tables : Tables ε) (link : Name) : Option (CompareData ε) :=
  (tables.compare link).join

def Tables.setCompare (tables : Tables ε) (link : Name) (state : Option (CompareData ε)) :
    Tables ε :=
  { tables with compare := Function.update tables.compare link (some state) }

def Tables.setLinks (tables : Tables ε) (vs : VarSym) (links : List Name) : Tables ε :=
  { tables with links := Function.update tables.links vs (some links) }

def CompareData.True (data : CompareData ε) (env : Name → Int) : Prop :=
  data.comparison.Holds (env data.leftVar) (env data.rightVar)

def Tables.AllTrue (tables : Tables ε) (env : Name → Int) : Prop :=
  ∀ link data, tables.data link = some data → data.True env

theorem data_setCompare (tables : Tables ε) (link : Name) (state : Option (CompareData ε)) :
    (tables.setCompare link state).data link = state := by
  change (Function.update tables.compare link (some state) link).join = state
  rw [Function.update_self]
  rfl

theorem data_setCompare_of_ne (tables : Tables ε) {link other : Name}
    (state : Option (CompareData ε)) (different : other ≠ link) :
    (tables.setCompare link state).data other = tables.data other := by
  change (Function.update tables.compare link (some state) other).join = tables.data other
  rw [Function.update_of_ne different]
  rfl

/-- A name followed by a space sorts after the name. -/
theorem strcmp_append_space (name rest : Name) : strcmp (name ++ space :: rest) name = 1 := by
  induction name with
  | nil => rfl
  | cons byte name ih =>
    rw [List.cons_append, strcmp, if_neg (lt_irrefl byte), if_neg (lt_irrefl byte)]
    exact ih

theorem strcmp_self (name : Name) : strcmp name name = 0 := by
  induction name with
  | nil => rfl
  | cons byte name ih =>
    rw [strcmp, if_neg (lt_irrefl byte), if_neg (lt_irrefl byte)]
    exact ih

/-- The names of a comparison are in the order in which `add_comparison_var_sym` puts them. -/
def CompareData.Sorted (data : CompareData ε) : Prop :=
  strcmp data.leftVar data.rightVar < 0

theorem CompareData.Sorted.lt {data : CompareData ε} (sorted : data.Sorted) :
    data.leftVar < data.rightVar := by
  unfold CompareData.Sorted at sorted
  rcases strcmp_cases data.leftVar data.rightVar with ⟨-, less⟩ | ⟨sign, -⟩ | ⟨sign, -⟩
  · exact less
  · rw [sign] at sorted
    exact absurd sorted (lt_irrefl 0)
  · rw [sign] at sorted
    exact absurd sorted (by decide)

theorem CompareData.Sorted.ne {data : CompareData ε} (sorted : data.Sorted) :
    data.leftVar ≠ data.rightVar :=
  sorted.lt.ne

end SmatchFormal.Links
