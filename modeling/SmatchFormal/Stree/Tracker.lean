import Mathlib.Algebra.Order.Monoid.Unbundled.WithTop
import Mathlib.Data.Prod.Lex
import Mathlib.Order.Fin.Basic
import Mathlib.Tactic.Ring

/-!
# States and their order

A `struct sm_state` is identified by its owner, its name and its symbol.
`cmp_tracker` orders states by these three; states without a symbol come last.
-/

namespace SmatchFormal.Stree

instance neZeroBytes : NeZero 256 := ⟨by decide⟩

def ushrtMax : Nat := 65535

/-- The part of `struct sm_state` that `avl.c` reads.  Every owner is the number of a
check, or `USHRT_MAX`.  `state` stands for what only other code reads. -/
structure SmState (numChecks : Nat) (σ : Type) where
  name : List (Fin 256)
  sym : Option Nat
  owner : Nat
  line : Nat
  state : σ
  registered : owner < numChecks ∨ owner = ushrtMax
  deriving DecidableEq

def strcmp : List (Fin 256) → List (Fin 256) → Int
  | [], [] => 0
  | [], _ :: _ => -1
  | _ :: _, [] => 1
  | a :: one, b :: two => if a < b then -1 else if b < a then 1 else strcmp one two

/-- The tests of `cmp_tracker` on the symbols, which are compared as addresses. -/
def cmpSym : Option Nat → Option Nat → Int
  | none, none => 0
  | some _, none => -1
  | none, some _ => 1
  | some a, some b => if a < b then -1 else if a > b then 1 else 0

variable {numChecks : Nat} {σ : Type}

/-- `cmp_tracker`; `none` is the null pointer. -/
def cmpTracker : Option (SmState numChecks σ) → Option (SmState numChecks σ) → Int
  | none, none => 0
  | some _, none => -1
  | none, some _ => 1
  | some a, some b =>
    if a.owner < b.owner then -1
    else if a.owner > b.owner then 1
    else
      let ret := strcmp a.name b.name
      if ret < 0 then -1
      else if ret > 0 then 1
      else cmpSym a.sym b.sym

abbrev Key := Nat ×ₗ List (Fin 256) ×ₗ WithTop Nat

/-- The place of a symbol in the order: the null pointer is the largest one. -/
def symKey : Option Nat → WithTop Nat
  | none => ⊤
  | some sym => sym

def key (sm : SmState numChecks σ) : Key := toLex (sm.owner, toLex (sm.name, symKey sm.sym))

theorem strcmp_cases (one two : List (Fin 256)) :
    strcmp one two = -1 ∧ one < two ∨ strcmp one two = 0 ∧ one = two ∨
      strcmp one two = 1 ∧ two < one := by
  induction one generalizing two with
  | nil =>
    cases two with
    | nil => exact .inr (.inl ⟨rfl, rfl⟩)
    | cons b two => exact .inl ⟨rfl, List.nil_lt_cons b two⟩
  | cons a one ih =>
    cases two with
    | nil => exact .inr (.inr ⟨rfl, List.nil_lt_cons a one⟩)
    | cons b two =>
      rw [strcmp]
      rcases lt_trichotomy a b with less | rfl | greater
      · rw [if_pos less]
        exact .inl ⟨rfl, List.cons_lt_cons_iff.mpr (.inl less)⟩
      · rw [if_neg (lt_irrefl a), if_neg (lt_irrefl a)]
        rcases ih two with ⟨sign, less⟩ | ⟨sign, same⟩ | ⟨sign, greater⟩
        · exact .inl ⟨sign, List.cons_lt_cons_iff.mpr (.inr ⟨rfl, less⟩)⟩
        · exact .inr (.inl ⟨sign, by rw [same]⟩)
        · exact .inr (.inr ⟨sign, List.cons_lt_cons_iff.mpr (.inr ⟨rfl, greater⟩)⟩)
      · rw [if_neg (not_lt_of_gt greater), if_pos greater]
        exact .inr (.inr ⟨rfl, List.cons_lt_cons_iff.mpr (.inl greater)⟩)

theorem cmpSym_cases (a b : Option Nat) :
    cmpSym a b = -1 ∧ symKey a < symKey b ∨ cmpSym a b = 0 ∧ symKey a = symKey b ∨
      cmpSym a b = 1 ∧ symKey b < symKey a := by
  cases a with
  | none =>
    cases b with
    | none => exact .inr (.inl ⟨rfl, rfl⟩)
    | some b => exact .inr (.inr ⟨rfl, WithTop.coe_lt_top b⟩)
  | some a =>
    cases b with
    | none => exact .inl ⟨rfl, WithTop.coe_lt_top a⟩
    | some b =>
      rw [cmpSym]
      rcases lt_trichotomy a b with less | rfl | greater
      · rw [if_pos less]
        exact .inl ⟨rfl, WithTop.coe_lt_coe.mpr less⟩
      · rw [if_neg (lt_irrefl a), if_neg (lt_irrefl a)]
        exact .inr (.inl ⟨rfl, rfl⟩)
      · rw [if_neg (not_lt_of_gt greater), if_pos greater]
        exact .inr (.inr ⟨rfl, WithTop.coe_lt_coe.mpr greater⟩)

theorem key_lt_key (a b : SmState numChecks σ) :
    key a < key b ↔ a.owner < b.owner ∨ a.owner = b.owner ∧
      (a.name < b.name ∨ a.name = b.name ∧ symKey a.sym < symKey b.sym) := by
  unfold key
  rw [Prod.Lex.toLex_lt_toLex, Prod.Lex.toLex_lt_toLex]

theorem cmpTracker_cases (a b : SmState numChecks σ) :
    cmpTracker (some a) (some b) = -1 ∧ key a < key b ∨
      cmpTracker (some a) (some b) = 0 ∧ key a = key b ∨
      cmpTracker (some a) (some b) = 1 ∧ key b < key a := by
  rw [key_lt_key, key_lt_key, cmpTracker]
  rcases lt_trichotomy a.owner b.owner with less | owners | greater
  · rw [if_pos less]
    exact .inl ⟨rfl, .inl less⟩
  · rw [if_neg (owners ▸ lt_irrefl _), if_neg (owners ▸ lt_irrefl _)]
    rcases strcmp_cases a.name b.name with ⟨sign, less⟩ | ⟨sign, names⟩ | ⟨sign, greater⟩
    · rw [sign]
      exact .inl ⟨rfl, .inr ⟨owners, .inl less⟩⟩
    · rw [sign]
      rcases cmpSym_cases a.sym b.sym with ⟨sign, less⟩ | ⟨sign, syms⟩ | ⟨sign, greater⟩
      · exact .inl ⟨sign, .inr ⟨owners, .inr ⟨names, less⟩⟩⟩
      · exact .inr (.inl ⟨sign, by rw [key, key, owners, names, syms]⟩)
      · exact .inr (.inr ⟨sign, .inr ⟨owners.symm, .inr ⟨names.symm, greater⟩⟩⟩)
    · rw [sign]
      exact .inr (.inr ⟨rfl, .inr ⟨owners.symm, .inl greater⟩⟩)
  · rw [if_neg (not_lt_of_gt greater), if_pos greater]
    exact .inr (.inr ⟨rfl, .inl greater⟩)

end SmatchFormal.Stree
