import Mathlib.Data.List.Basic

/-!
# Lists of related keys

Each key has a list of keys.  Among some keys the lists are mutual when a key stands in the list of
another one exactly when that one stands in its list.
-/

namespace SmatchFormal.Lib

variable {κ : Type} {own own' present : κ → Prop} {list list' : κ → List κ} {members : List κ}

def Mutual (own : κ → Prop) (list : κ → List κ) : Prop :=
  ∀ first second, own first → own second → first ≠ second →
    (second ∈ list first ↔ first ∈ list second)

def Apart (own present : κ → Prop) (list : κ → List κ) (members : List κ) : Prop :=
  ∀ outer, own outer → outer ∉ members → ∀ member ∈ members, present member → member ∉ list outer

theorem Mutual.mono (matched : Mutual own list) (fewer : ∀ key, own' key → own key) :
    Mutual own' list :=
  fun first second one two => matched first second (fewer first one) (fewer second two)

structure Joins (own own' present : κ → Prop) (list list' : κ → List κ) (members : List κ) :
    Prop where
  inside : ∀ key ∈ members, present key → list' key = members
  outside : ∀ key, own key → ¬ (key ∈ members ∧ present key) → list' key = list key
  owned : ∀ key, own' key → own key ∨ (key ∈ members ∧ present key)

/-- The lists stay mutual when no other key has a member in its list. -/
theorem Mutual.join (matched : Mutual own list) (apart : Apart own present list members)
    (there : ∀ key, own key → present key)
    (joins : Joins own own' present list list' members) : Mutual own' list' := by
  -- a member, and a key that is none
  have mixed (first second : κ) (one : first ∈ members ∧ present first) (two : own second)
      (other : ¬ (second ∈ members ∧ present second)) :
      second ∉ list' first ∧ first ∉ list' second := by
    have outer : second ∉ members := fun inside => other ⟨inside, there second two⟩
    rw [joins.inside first one.1 one.2, joins.outside second two other]
    exact ⟨outer, apart second two outer first one.1 one.2⟩
  intro first second one two different
  by_cases left : first ∈ members ∧ present first
  · by_cases right : second ∈ members ∧ present second
    · rw [joins.inside first left.1 left.2, joins.inside second right.1 right.2]
      exact iff_of_true right.1 left.1
    · have known := (joins.owned second two).resolve_right right
      have both := mixed first second left known right
      exact iff_of_false both.1 both.2
  · have known := (joins.owned first one).resolve_right left
    by_cases right : second ∈ members ∧ present second
    · have both := mixed second first right known left
      exact iff_of_false both.2 both.1
    · have known' := (joins.owned second two).resolve_right right
      rw [joins.outside first known left, joins.outside second known' right]
      exact matched first second known known' different

end SmatchFormal.Lib
