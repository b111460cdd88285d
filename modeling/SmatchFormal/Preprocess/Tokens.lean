import Mathlib.Data.List.Basic

/-!
# Preprocessor tokens

Tokens as the macro expansion of `pre-process.c` sees them, how they are shown, and how `##` makes
one token of two.
-/

namespace SmatchFormal.Preprocess

/-- An identifier; the source compares identifiers by the address of the one entry with a name. -/
abbrev Ident := String

/-- What a token is: its type with the spelling, and for an identifier the `noexpand` bit. -/
inductive Kind
  | ident (name : Ident) (noexpand : Bool)
  | number (text : String)
  | char (wide : Bool) (text : String)
  | string (wide : Bool) (text : String)
  | special (text : String)
  | streamBegin
  | streamEnd
deriving DecidableEq, Repr

structure Token where
  kind : Kind
  whitespace : Bool
deriving DecidableEq, Repr

abbrev Taint := Ident → Bool

def Taint.set (tainted : Taint) (name : Ident) : Taint := Function.update tainted name true

def Taint.clear (tainted : Taint) (name : Ident) : Taint := Function.update tainted name false

def Token.matchOp (token : Token) (op : String) : Bool := token.kind = .special op

def showChar (text : String) (wide : Bool) (delim : String) : String :=
  (if wide then "L" else "") ++ delim ++ text ++ delim

def Kind.show : Kind → String
  | .ident name _ => name
  | .number text => text
  | .special text => text
  | .char wide text => showChar text wide "'"
  | .string wide text => showChar text wide "\""
  | .streamBegin => "<beginning of stream>"
  | .streamEnd => "<end of stream>"

def escaped (c : Char) : String := if c = '"' ∨ c = '\\' then "\\" ++ c.toString else c.toString

def quoteChar (text : String) (wide : Bool) (delim : String) : String :=
  let mark := if delim = "\"" then "\\" ++ delim else delim
  (if wide then "L" else "") ++ mark ++ String.join (text.toList.map escaped) ++ mark

def Kind.quote : Kind → String
  | .char wide text => quoteChar text wide "'"
  | .string wide text => quoteChar text wide "\""
  | kind => kind.show

/-- `show_token_sequence`, for quoting: a blank where a token that is not the first has one. -/
def showTokenSequence : List Token → String
  | [] => ""
  | token :: list => token.kind.quote ++ go list
where
  go : List Token → String
    | [] => ""
    | token :: list => (if token.whitespace then " " else "") ++ token.kind.quote ++ go list

/-- The copy of a token: an identifier that is tainted now is never expanded in it. -/
def Token.mark (tainted : Taint) (token : Token) : Token :=
  match token.kind with
  | .ident name noexpand => { token with kind := .ident name (noexpand || tainted name) }
  | _ => token

inductive Combined
  | ident
  | number
  | special
  | wideChar
  | wideString
deriving DecidableEq, Repr

def combinations : List String :=
  ["+=", "++", "-=", "--", "->", "*=", "/=", "%=", "<=", ">=", "==", "!=", "&&", "&=", "||", "|=",
    "^=", "##", "<<", ">>", "..", "<<=", ">>=", "..."]

def combineIdent (right : Kind) (p : String) : Option Combined :=
  match right with
  | .ident _ _ => some .ident
  | .number _ => if p.toList.any ("+-.".toList.contains ·) then none else some .ident
  | _ => none

def combineNumber (left : String) (right : Kind) : Option Combined :=
  match right with
  | .ident _ _ => some .number
  | .number _ => some .number
  | .special op =>
    if op = "." then some .number
    else if (op = "+" ∨ op = "-") ∧ (left.toList.getLast?.any ("eEpP".toList.contains ·)) then
      some .number
    else none
  | _ => none

def combineSpecial (right : Kind) (p : String) : Option Combined :=
  let result : Combined :=
    if p.toList.head? = some '.' ∧ (p.toList.tail.head?.any Char.isDigit) then .number else .special
  match right with
  | .ident _ _ => some result
  | .number _ => some result
  | .special _ => some result
  | _ => none

/-- `combine`; `none` is `TOKEN_ERROR`. -/
def combine (left right : Kind) : Option Combined :=
  let p := left.show ++ right.show
  match left, right with
  | .ident "L" _, .char false _ => some .wideChar
  | .ident "L" _, .string false _ => some .wideString
  | _, _ =>
    if 256 ≤ p.utf8ByteSize then none
    else
      match left with
      | .ident _ _ => combineIdent right p
      | .number text => combineNumber text right
      | .special _ => combineSpecial right p
      | _ => none

def Kind.text : Kind → String
  | .char _ text => text
  | .string _ text => text
  | kind => kind.show

/-- What `merge` makes of the left token, if the two tokens can be one. -/
def merge (tainted : Taint) (left right : Token) : Option Token :=
  let buffer := left.kind.show ++ right.kind.show
  match combine left.kind right.kind with
  | some .ident => some { left with kind := .ident buffer (tainted buffer) }
  | some .number => some { left with kind := .number buffer }
  | some .special =>
    if buffer ∈ combinations then some { left with kind := .special buffer } else none
  | some .wideChar => some { left with kind := .char true right.kind.text }
  | some .wideString => some { left with kind := .string true right.kind.text }
  | none => none

def Token.Marked (tainted : Taint) (token : Token) : Prop :=
  ∀ name, token.kind = .ident name false → tainted name = false

theorem Token.mark_marked (tainted : Taint) (token : Token) :
    (token.mark tainted).Marked tainted := by
  intro name same
  unfold Token.mark at same
  cases shape : token.kind with
  | ident other noexpand =>
    rw [shape] at same
    simp only [Kind.ident.injEq, Bool.or_eq_false_iff] at same
    rw [← same.1]
    exact same.2.2
  | number | char | string | special | streamBegin | streamEnd =>
    rw [shape] at same
    simp only at same
    rw [shape] at same
    cases same

theorem merge_marked {tainted : Taint} {left right merged : Token}
    (result : merge tainted left right = some merged) : merged.Marked tainted := by
  intro name same
  unfold merge at result
  cases combined : combine left.kind right.kind with
  | none =>
    rw [combined] at result
    cases result
  | some kind =>
    rw [combined] at result
    cases kind with
    | ident =>
      have shape : merged.kind = _ := congrArg Token.kind (Option.some.inj result).symm
      rw [shape] at same
      obtain ⟨spelled, clear⟩ := Kind.ident.inj same
      rw [← spelled]
      exact clear
    | number | wideChar | wideString =>
      cases result
      cases same
    | special =>
      simp only at result
      split at result
      · cases result
        cases same
      · cases result

end SmatchFormal.Preprocess
