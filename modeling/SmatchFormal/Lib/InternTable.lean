import Mathlib.Data.List.Find
import Mathlib.Data.List.Infix
import Mathlib.Tactic.Common

/-!
# Tables of shared entries

A hash table with chains that hands out one entry for all equal keys.  New entries are appended to
their chain, so that what was found once is found again.
-/

namespace SmatchFormal.Lib

open List Function

structure InternTable (α H : Type) where
  entries : List α
  chains : H → List Nat
  inside : ∀ hash, ∀ id ∈ chains hash, id < entries.length

namespace InternTable

variable {α H : Type}

def empty : InternTable α H := ⟨[], fun _ => [], fun _ _ member => absurd member not_mem_nil⟩

def find (table : InternTable α H) (accepts : α → Bool) (hash : H) : Option Nat :=
  (table.chains hash).find? fun id => (table.entries[id]?).any accepts

def Extends (before after : InternTable α H) : Prop :=
  before.entries <+: after.entries ∧ ∀ hash, before.chains hash <+: after.chains hash

theorem extends_refl (table : InternTable α H) : table.Extends table :=
  ⟨prefix_rfl, fun _ => prefix_rfl⟩

theorem Extends.trans {first second third : InternTable α H} (one : first.Extends second)
    (two : second.Extends third) : first.Extends third :=
  ⟨one.1.trans two.1, fun hash => (one.2 hash).trans (two.2 hash)⟩

variable {before after table : InternTable α H} {accepts : α → Bool} {hash : H} {id : Nat}

theorem Extends.entry (grown : before.Extends after) {entry : α}
    (found : before.entries[id]? = some entry) : after.entries[id]? = some entry := by
  obtain ⟨more, same⟩ := grown.1
  obtain ⟨bound, -⟩ := List.getElem?_eq_some_iff.mp found
  rw [← same, List.getElem?_append_left bound]
  exact found

theorem Extends.find (grown : before.Extends after) (found : before.find accepts hash = some id) :
    after.find accepts hash = some id := by
  obtain ⟨more, same⟩ := grown.2 hash
  have kept : ∀ number ∈ before.chains hash,
      (after.entries[number]?).any accepts = (before.entries[number]?).any accepts := by
    intro number member
    have entry := grown.entry (List.getElem?_eq_getElem (before.inside hash number member))
    rw [entry, List.getElem?_eq_getElem (before.inside hash number member)]
  have first : (before.chains hash).find? (fun number => (after.entries[number]?).any accepts) =
      some id := by
    rw [← found]
    unfold InternTable.find
    exact List.find?_congr kept
  unfold InternTable.find
  rw [← same, List.find?_append, first]
  rfl

theorem find_accepts (found : table.find accepts hash = some id) :
    ∃ entry, table.entries[id]? = some entry ∧ accepts entry = true := by
  have accepted := List.find?_some found
  cases entry : table.entries[id]? with
  | none =>
    rw [entry] at accepted
    cases accepted
  | some entry' =>
    rw [entry] at accepted
    exact ⟨entry', rfl, accepted⟩

variable [DecidableEq H]

def append (table : InternTable α H) (hash : H) (entry : α) : InternTable α H where
  entries := table.entries ++ [entry]
  chains := Function.update table.chains hash (table.chains hash ++ [table.entries.length])
  inside := by
    intro other id member
    rw [length_append, length_singleton]
    by_cases same : other = hash
    · rw [same, update_self] at member
      rcases mem_append.mp member with old | new
      · exact Nat.lt_succ_of_lt (table.inside hash id old)
      · rw [mem_singleton.mp new]
        exact Nat.lt_succ_self _
    · rw [update_of_ne same] at member
      exact Nat.lt_succ_of_lt (table.inside other id member)

def insert (table : InternTable α H) (hash : H) (entry : α) : InternTable α H where
  entries := table.entries ++ [entry]
  chains := Function.update table.chains hash (table.entries.length :: table.chains hash)
  inside := by
    intro other id member
    rw [length_append, length_singleton]
    by_cases same : other = hash
    · rw [same, update_self] at member
      rcases mem_cons.mp member with new | old
      · rw [new]
        exact Nat.lt_succ_self _
      · exact Nat.lt_succ_of_lt (table.inside hash id old)
    · rw [update_of_ne same] at member
      exact Nat.lt_succ_of_lt (table.inside other id member)

def intern (table : InternTable α H) (accepts : α → Bool) (hash : H) (entry : α) :
    Nat × InternTable α H :=
  match table.find accepts hash with
  | some id => (id, table)
  | none => (table.entries.length, table.append hash entry)

theorem append_extends (table : InternTable α H) (hash : H) (entry : α) :
    table.Extends (table.append hash entry) := by
  refine ⟨prefix_append _ _, fun other => ?_⟩
  change table.chains other <+: Function.update table.chains hash _ other
  by_cases same : other = hash
  · rw [same, update_self]
    exact prefix_append _ _
  · rw [update_of_ne same]

theorem intern_extends (table : InternTable α H) (accepts : α → Bool) (hash : H) (entry : α) :
    table.Extends (table.intern accepts hash entry).2 := by
  unfold intern
  cases table.find accepts hash with
  | some id => exact extends_refl table
  | none => exact append_extends table hash entry

theorem intern_find (table : InternTable α H) (hash : H) {entry : α} (good : accepts entry = true) :
    (table.intern accepts hash entry).2.find accepts hash =
      some (table.intern accepts hash entry).1 := by
  unfold intern
  cases found : table.find accepts hash with
  | some id => exact found
  | none =>
    have chain : (table.append hash entry).chains hash =
        table.chains hash ++ [table.entries.length] := update_self _ _ _
    have new : (table.append hash entry).entries[table.entries.length]? = some entry := by
      exact List.getElem?_concat_length
    have old : (table.chains hash).find?
        (fun id => ((table.append hash entry).entries[id]?).any accepts) = none := by
      rw [List.find?_eq_none]
      intro id member
      have rejected := List.find?_eq_none.mp found id member
      have entry' := (append_extends table hash entry).entry
        (List.getElem?_eq_getElem (table.inside hash id member))
      rw [entry']
      rw [List.getElem?_eq_getElem (table.inside hash id member)] at rejected
      exact rejected
    dsimp only
    unfold InternTable.find
    rw [chain, List.find?_append, old, List.find?_singleton, new]
    rw [Option.any_some, good]
    rfl

end InternTable

end SmatchFormal.Lib
