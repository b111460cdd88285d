import SmatchFormal.Preprocess.Expand

/-!
# More fuel changes no result

Every function of the expansion passes the fuel on to `expand_list` only, so results of the whole
stay when the results of `expand_list` stay.  The calls noted in the state are never forgotten.
-/

namespace SmatchFormal.Preprocess

open Fuel

def Raised (bad : Request → Prop) (state : State) : Prop := ∃ request ∈ state.requests, bad request

theorem Raised.retaint {bad : Request → Prop} {state : State} (tainted : Taint)
    (raised : Raised bad state) : Raised bad (state.retaint tainted) := raised

theorem Raised.note {bad : Request → Prop} {state : State} (request : Request)
    (raised : Raised bad state) : Raised bad (state.note request) := by
  rcases raised with ⟨other, member, isBad⟩
  exact ⟨other, List.mem_cons_of_mem _ member, isBad⟩

section Extends

variable {bad : Request → Prop} {h h' : Recursion} {expanding : Ident}

section

variable (first : ∀ arg, Extends (Raised bad) (h arg) (h' arg))
include first

theorem expandArgument_extends (arg : List Token) :
    Extends (Raised bad) (expandArgument h expanding arg) (expandArgument h' expanding arg) := by
  unfold expandArgument
  apply Extends.bind
  · exact Extends.modify fun state raised => raised.retaint _
  · intro _
    apply (first arg).bind
    intro result
    apply Extends.bind
    · exact Extends.modify fun state raised => raised.retaint _
    · intro _
      exact Extends.pure result

theorem expandNonempty_extends (arg : List Token) :
    Extends (Raised bad) (expandNonempty h expanding arg) (expandNonempty h' expanding arg) := by
  unfold expandNonempty
  split
  · exact Extends.pure arg
  · exact expandArgument_extends first arg

theorem doArgument_extends (args : Args) (argnum : Nat) (kind : ArgKind) :
    Extends (Raised bad) (doArgument h expanding args argnum kind)
      (doArgument h' expanding args argnum kind) := by
  cases kind with
  | quoted => exact Extends.pure _
  | normal =>
    unfold doArgument
    cases cached : (args argnum).normal with
    | some arg => exact Extends.pure _
    | none =>
      apply (expandNonempty_extends first _).bind
      intro arg
      exact Extends.pure _
  | str =>
    unfold doArgument
    cases cached : (args argnum).str with
    | some arg => exact Extends.pure _
    | none => exact Extends.pure _

theorem skipVaOpt_extends (args : Args) :
    Extends (Raised bad) (skipVaOpt h expanding args) (skipVaOpt h' expanding args) := by
  unfold skipVaOpt
  cases cached : (args 0).normal with
  | some arg => exact Extends.pure _
  | none =>
    simp only
    split
    · exact Extends.pure _
    · apply (expandArgument_extends first _).bind
      intro arg
      exact Extends.pure _

theorem substitutePiece_extends (s : Substitution) (piece : Piece) :
    Extends (Raised bad) (substitutePiece h expanding s piece)
      (substitutePiece h' expanding s piece) := by
  cases piece with
  | token token =>
    apply Extends.get.bind
    intro state
    exact Extends.pure _
  | argument argnum kind whitespace =>
    apply (doArgument_extends first s.args argnum kind).bind
    intro result
    apply Extends.get.bind
    intro state
    exact Extends.pure _
  | concat => exact Extends.pure _

theorem substituteElement_extends (s : Substitution) (element : Element) :
    Extends (Raised bad) (substituteElement h expanding s element)
      (substituteElement h' expanding s element) := by
  cases element with
  | piece piece => exact substitutePiece_extends first s piece
  | gnuKludge whitespace between last =>
    simp only [substituteElement]
    cases answer : handleKludge s.args between with
    | skipAll => exact Extends.pure _
    | ignoreConcat => exact Extends.foldlM (substitutePiece_extends first) _ s
    | noMagic => exact Extends.foldlM (substitutePiece_extends first) _ s

theorem substituteOne_extends (blank : Bool) (s : Substitution) (token : BodyToken) :
    Extends (Raised bad) (substituteOne h expanding blank s token)
      (substituteOne h' expanding blank s token) := by
  cases token with
  | element element => exact substituteElement_extends first s element
  | vaOpt inner =>
    apply (skipVaOpt_extends first s.args).bind
    rintro ⟨skip, args⟩
    cases skip with
    | true => exact Extends.pure _
    | false => exact Extends.foldlM (substituteElement_extends first) inner _
  | vaOptStr inner =>
    apply (skipVaOpt_extends first s.args).bind
    rintro ⟨skip, args⟩
    cases skip with
    | true =>
      apply Extends.get.bind
      intro state
      exact Extends.pure _
    | false =>
      apply (Extends.foldlM (substituteElement_extends first) inner _).bind
      intro result
      apply Extends.get.bind
      intro state
      exact Extends.pure _

theorem substitute_extends (blank : Bool) (before : List Token) (body : List BodyToken)
    (args : Args) :
    Extends (Raised bad) (substitute h expanding blank before body args)
      (substitute h' expanding blank before body args) := by
  unfold substitute
  apply Extends.bind
  · exact Extends.modify fun state raised => raised.retaint _
  · intro _
    apply (Extends.foldlM (substituteOne_extends first blank) body _).bind
    intro result
    exact Extends.pure _

theorem expandCall_extends (token : Token) (name : Ident) (sym : Macro) (before : List Token)
    (call : Call) (rest : List Pending) :
    Extends (Raised bad) (expandCall h token name sym before call rest)
      (expandCall h' token name sym before call rest) := by
  cases call with
  | missing => exact Extends.pure _
  | failed => exact Extends.pure _
  | collected args =>
    apply (substitute_extends first _ _ _ _).bind
    intro tail
    exact Extends.pure _

theorem expand_extends (token : Token) (name : Ident) (sym : Macro) (place : Place) :
    Extends (Raised bad) (expand h token name sym place) (expand h' token name sym place) := by
  unfold expand
  split
  · apply Extends.bind
    · exact Extends.modifyGet fun state raised => (raised.note _).retaint _
    · rintro ⟨call, rest⟩
      exact expandCall_extends first token name sym place.before call rest
  · exact expandCall_extends first token name sym place.before _ place.rest

theorem expandOneSymbol_extends {macros : Macros} (token : Token) (name : Ident) (noexpand : Bool)
    (place : Place) :
    Extends (Raised bad) (expandOneSymbol macros h token name noexpand place)
      (expandOneSymbol macros h' token name noexpand place) := by
  unfold expandOneSymbol
  split
  · exact Extends.pure _
  · cases found : macros.find name with
    | none => exact Extends.pure _
    | some sym => exact expand_extends first token name sym place

end

end Extends

variable {bad : Request → Prop}

theorem expandFrom_succ (macros : Macros) (fuel : Nat) (place : Place) :
    expandFrom macros (fuel + 1) place =
      expandStep macros (fun arg => expandFrom macros fuel ⟨[], arg.map .token⟩)
        (expandFrom macros fuel) place := rfl

theorem expandStep_extends {macros : Macros} {h h' : Recursion}
    {onwards onwards' : Place → Expander (List Token)}
    (first : ∀ arg, Extends (Raised bad) (h arg) (h' arg))
    (next : ∀ place, Extends (Raised bad) (onwards place) (onwards' place)) (place : Place) :
    Extends (Raised bad) (expandStep macros h onwards place)
      (expandStep macros h' onwards' place) := by
  unfold expandStep
  apply Extends.bind
  · exact Extends.modifyGet fun state raised => raised.retaint _
  · intro rest
    cases rest with
    | nil => exact Extends.pure _
    | cons entry rest =>
      cases entry with
      | untaint name => exact Extends.pure _
      | token token =>
        simp only
        cases kind : token.kind with
        | ident name noexpand =>
          apply (expandOneSymbol_extends first token name noexpand _).bind
          rintro ⟨stays, after⟩
          exact next _
        | number | char | string | special | streamBegin | streamEnd => exact next _

theorem expandFrom_extends (macros : Macros) (fuel : Nat) (place : Place) :
    Extends (Raised bad) (expandFrom macros fuel place) (expandFrom macros (fuel + 1) place) := by
  induction fuel generalizing place with
  | zero =>
    have keeps : ∀ p, Extends (Raised bad) (expandFrom macros 0 p) (expandFrom macros 0 p) :=
      fun p => Extends.refl fun state raised => raised
    apply Extends.throw
    rw [expandFrom_succ]
    exact (expandStep_extends (fun arg => keeps _) keeps place).keeps
  | succ fuel ih =>
    rw [expandFrom_succ, expandFrom_succ macros (fuel + 1)]
    exact expandStep_extends (fun arg => ih _) ih place

theorem expandFrom_growing (macros : Macros) (place : Place) :
    Growing (Raised bad) fun fuel => expandFrom macros fuel place :=
  fun fuel => expandFrom_extends macros fuel place

end SmatchFormal.Preprocess
