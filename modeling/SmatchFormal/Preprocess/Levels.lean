import SmatchFormal.Preprocess.Expand
import Mathlib.Data.Multiset.DershowitzManna
import Mathlib.Data.Multiset.Replicate
import Mathlib.Data.List.Induction

/-!
# Levels of the pending tokens

The markers still ahead in a list tell which macros a pending token is the replacement of.  The
level of a token is the number of macros that are free of taint when the scan gets to it; a
replacement has a lower level than the call it replaces.
-/

namespace SmatchFormal.Preprocess

open Multiset

theorem dershowitzManna_of_lt {M N : Multiset Nat} (less : M < N) : IsDershowitzMannaLT M N := by
  obtain ⟨Z, rfl⟩ := Multiset.le_iff_exists_add.mp less.le
  refine ⟨M, 0, Z, ?_, (add_zero M).symm, rfl, fun y member => (Multiset.notMem_zero y member).elim⟩
  intro empty
  rw [show Z = 0 from empty, add_zero] at less
  exact lt_irrefl _ less

/-- Smaller numbers in the place of a greater one. -/
theorem dershowitzManna_of_replace {X Y N : Multiset Nat} {z : Nat} (inside : X + {z} ≤ N)
    (less : ∀ y ∈ Y, y < z) : IsDershowitzMannaLT (X + Y) N := by
  obtain ⟨R, rfl⟩ := Multiset.le_iff_exists_add.mp inside
  refine ⟨X, Y, {z} + R, ?_, rfl, add_assoc X {z} R, ?_⟩
  · intro empty
    have member : z ∈ ({z} + R : Multiset Nat) :=
      Multiset.mem_add.mpr (.inl (Multiset.mem_singleton_self z))
    rw [show ({z} + R : Multiset Nat) = 0 from empty] at member
    exact Multiset.notMem_zero z member
  · intro y member
    exact ⟨z, Multiset.mem_add.mpr (.inl (Multiset.mem_singleton_self z)), less y member⟩

@[simp] theorem Taint.set_self (tainted : Taint) (name : Ident) :
    tainted.set name name = true := by
  simp [Taint.set]

@[simp] theorem Taint.clear_self (tainted : Taint) (name : Ident) :
    tainted.clear name name = false := by
  simp [Taint.clear]

theorem Taint.set_clear {tainted : Taint} {name : Ident} (free : tainted name = false) :
    (tainted.set name).clear name = tainted := by
  unfold Taint.set Taint.clear
  rw [Function.update_idem, ← free, Function.update_eq_self]

/-- Every name that is free of taint in the one is so in the other. -/
def Taint.Less (less more : Taint) : Prop := ∀ name, more name = false → less name = false

theorem Taint.Less.refl (tainted : Taint) : tainted.Less tainted := fun _ free => free

theorem Taint.Less.trans {a b c : Taint} (first : a.Less b) (second : b.Less c) : a.Less c :=
  fun name free => first name (second name free)

theorem Taint.clear_less (tainted : Taint) (name : Ident) : (tainted.clear name).Less tainted := by
  intro other free
  unfold Taint.clear
  by_cases same : other = name
  · rw [same, Function.update_self]
  · rw [Function.update_of_ne same]
    exact free

theorem Token.Marked.less {less more : Taint} {token : Token} (marked : token.Marked more)
    (below : less.Less more) : token.Marked less :=
  fun name same => below name (marked name same)

theorem Token.Marked.respace {tainted : Taint} {token : Token} (marked : token.Marked tainted)
    (whitespace : Bool) : (token.respace whitespace).Marked tainted := marked

/-- The `tainted` bits once all markers of a list are passed. -/
def unwind (tainted : Taint) : List Pending → Taint
  | [] => tainted
  | .untaint name :: rest => unwind (tainted.clear name) rest
  | .token _ :: rest => unwind tainted rest

/-- No identifier that may be expanded is tainted when the scan gets to it. -/
def Fresh (tainted : Taint) : List Pending → Prop
  | [] => True
  | .untaint name :: rest => Fresh (tainted.clear name) rest
  | .token token :: rest => token.Marked tainted ∧ Fresh tainted rest

theorem unwind_append (tainted : Taint) (one other : List Pending) :
    unwind tainted (one ++ other) = unwind (unwind tainted one) other := by
  induction one generalizing tainted with
  | nil => rfl
  | cons entry one ih =>
    cases entry with
    | untaint name => exact ih _
    | token token => exact ih _

theorem unwind_less (tainted : Taint) (list : List Pending) :
    (unwind tainted list).Less tainted := by
  induction list generalizing tainted with
  | nil => exact Taint.Less.refl tainted
  | cons entry list ih =>
    cases entry with
    | untaint name => exact (ih _).trans (tainted.clear_less name)
    | token token => exact ih tainted

@[simp] theorem unwind_tokens (tainted : Taint) (list : List Token) :
    unwind tainted (list.map .token) = tainted := by
  induction list with
  | nil => rfl
  | cons token list ih => exact ih

theorem fresh_append {tainted : Taint} {one other : List Pending} :
    Fresh tainted (one ++ other) ↔ Fresh tainted one ∧ Fresh (unwind tainted one) other := by
  induction one generalizing tainted with
  | nil => exact (iff_of_eq (true_and _)).symm
  | cons entry one ih =>
    cases entry with
    | untaint name => exact ih
    | token token =>
      show token.Marked tainted ∧ Fresh tainted (one ++ other) ↔
        (token.Marked tainted ∧ Fresh tainted one) ∧ Fresh (unwind tainted one) other
      rw [ih, and_assoc]

theorem fresh_tokens {tainted : Taint} {list : List Token} :
    Fresh tainted (list.map .token) ↔ ∀ token ∈ list, token.Marked tainted := by
  induction list with
  | nil => simp [Fresh]
  | cons token list ih =>
    rw [List.forall_mem_cons, ← ih]
    rfl

theorem Fresh.marked {tainted : Taint} {list : List Pending} (fresh : Fresh tainted list)
    {token : Token} (member : Pending.token token ∈ list) :
    token.Marked (unwind tainted list) := by
  induction list generalizing tainted with
  | nil => cases member
  | cons entry list ih =>
    rcases List.mem_cons.mp member with rfl | later
    · exact fresh.1.less (unwind_less tainted list)
    · cases entry with
      | untaint name => exact ih fresh later
      | token other => exact ih fresh.2 later

/-- Before the first expansion nothing is tainted. -/
theorem fresh_start (list : List Pending) (tainted : Taint) (clear : ∀ name, tainted name = false) :
    Fresh tainted list := by
  induction list generalizing tainted with
  | nil => trivial
  | cons entry list ih =>
    cases entry with
    | untaint name => exact ih _ fun other => tainted.clear_less name other (clear other)
    | token token => exact ⟨fun name _ => clear name, ih tainted clear⟩

/-- A token that takes part in an expansion: the name of a macro that may be replaced, or a closing
parenthesis. -/
def Token.weighs (macros : Macros) (token : Token) : Bool :=
  match token.kind with
  | .ident name false => (macros.find name).isSome
  | .special op => op = ")"
  | _ => false

def weight (macros : Macros) (list : List Token) : Nat := list.countP (Token.weighs macros)

def level (macros : Macros) (tainted : Taint) : Nat := macros.countP fun entry => !tainted entry.1

def levels (macros : Macros) (tainted : Taint) : List Pending → Multiset Nat
  | [] => 0
  | .untaint name :: rest => levels macros (tainted.clear name) rest
  | .token token :: rest =>
    (if token.weighs macros then {level macros tainted} else 0) + levels macros tainted rest

section Levels

variable (macros : Macros)

theorem levels_append (tainted : Taint) (one other : List Pending) :
    levels macros tainted (one ++ other) =
      levels macros tainted one + levels macros (unwind tainted one) other := by
  induction one generalizing tainted with
  | nil => exact (zero_add _).symm
  | cons entry one ih =>
    cases entry with
    | untaint name => exact ih _
    | token token =>
      show _ + levels macros tainted (one ++ other) = _ + levels macros tainted one + _
      rw [ih, add_assoc]
      rfl

theorem levels_tokens (tainted : Taint) (list : List Token) :
    levels macros tainted (list.map .token) =
      replicate (weight macros list) (level macros tainted) := by
  induction list with
  | nil => rfl
  | cons token list ih =>
    show (if token.weighs macros then {level macros tainted} else 0) +
      levels macros tainted (list.map .token) = _
    rw [ih]
    unfold weight
    rw [List.countP_cons]
    cases token.weighs macros with
    | true =>
      rw [if_pos rfl, if_pos rfl, replicate_add, add_comm]
      rfl
    | false => rw [if_neg (by decide), if_neg (by decide), zero_add, Nat.add_zero]

theorem level_set_lt {tainted : Taint} {name : Ident} {sym : Macro}
    (found : macros.find name = some sym) (free : tainted name = false) :
    level macros (tainted.set name) < level macros tainted := by
  have below : ∀ other, (tainted.set name) other = false → tainted other = false := by
    intro other clear
    by_cases same : other = name
    · rw [same]
      exact free
    · rw [Taint.set, Function.update_of_ne same] at clear
      exact clear
  unfold Macros.find at found
  unfold level
  induction macros with
  | nil => cases found
  | cons entry macros ih =>
    have tail : macros.countP (fun entry => !(tainted.set name) entry.1) ≤
        macros.countP (fun entry => !tainted entry.1) := by
      apply List.countP_mono_left
      intro entry _ clear
      rw [Bool.not_eq_true'] at clear ⊢
      exact below entry.1 clear
    rw [List.countP_cons, List.countP_cons]
    by_cases same : entry.1 = name
    · rw [same, Taint.set_self, free, if_neg (by decide), if_pos (by decide)]
      omega
    · rw [List.lookup_cons] at found
      have other : (name == entry.1) = false := beq_false_of_ne fun h => same h.symm
      rw [other] at found
      have unchanged : (tainted.set name) entry.1 = tainted entry.1 := by
        rw [Taint.set, Function.update_of_ne same]
      rw [unchanged]
      have less := ih found
      omega

def behindStep (list : List Token) : Pending → List Token
  | .untaint _ => []
  | .token token => list ++ [token]

def behind (list : List Pending) : List Token := list.foldl behindStep []

/-- The tokens behind the last marker have the level that is left at the end. -/
theorem behind_levels (tainted : Taint) (list : List Pending) :
    replicate (weight macros (behind list)) (level macros (unwind tainted list)) ≤
      levels macros tainted list := by
  induction list using List.reverseRecOn with
  | nil => exact le_refl _
  | append_singleton list entry ih =>
    have step : behind (list ++ [entry]) = behindStep (behind list) entry := by
      unfold behind
      rw [List.foldl_append]
      rfl
    rw [step, levels_append, unwind_append]
    cases entry with
    | untaint name =>
      show replicate 0 _ ≤ _
      exact Multiset.zero_le _
    | token token =>
      have last : levels macros (unwind tainted list) [.token token] =
          replicate (weight macros [token]) (level macros (unwind tainted list)) :=
        levels_tokens macros _ [token]
      have sum : weight macros (behindStep (behind list) (.token token)) =
          weight macros (behind list) + weight macros [token] := List.countP_append
      show replicate _ (level macros (unwind tainted list)) ≤ _
      rw [last, sum, replicate_add]
      exact add_le_add_left ih _

end Levels

end SmatchFormal.Preprocess
