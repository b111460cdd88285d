import SmatchFormal.Preprocess.ExpandEnds
import Mathlib.Data.Set.Insert

/-!
# Object-like macros and hide sets

In the rules of the language a token carries the macros whose replacement it came from, and an
identifier is replaced if it names a macro that is not among them.  For object-like macros without
`##` the tainted bits and the markers compute just that.
-/

namespace SmatchFormal.Preprocess

open Fuel List

/-- Object-like macros without `##`: the names with their replacement lists. -/
abbrev ObjectMacros := List (Ident × List Token)

def ObjectMacros.toMacros (macros : ObjectMacros) : Macros :=
  macros.map fun entry => (entry.1, ⟨false, 0, false, entry.2.map ordinary⟩)

theorem ObjectMacros.find_toMacros (macros : ObjectMacros) (name : Ident) :
    (ObjectMacros.toMacros macros).find name =
      (macros.lookup name).map fun body => ⟨false, 0, false, body.map ordinary⟩ := by
  induction macros with
  | nil => rfl
  | cons entry macros ih =>
    show List.lookup name ((entry.1, _) :: ObjectMacros.toMacros macros) = _
    rw [lookup_cons]
    show _ = (List.lookup name (entry :: macros)).map _
    rw [lookup_cons]
    cases name == entry.1 with
    | true => rfl
    | false => exact ih

abbrev Annotated := Token × Set Ident

/-- What a token hides from the start: its own name, if its `noexpand` bit is set. -/
def Token.hidden (token : Token) : Set Ident := {name | token.kind = .ident name true}

/-- The first token of a replacement has the blank of the token that is replaced. -/
def respaceFirst (whitespace : Bool) : List Token → List Token
  | [] => []
  | first :: rest => first.respace whitespace :: rest

def replacement (whitespace : Bool) (name : Ident) (hide : Set Ident) (body : List Token) :
    List Annotated :=
  (respaceFirst whitespace body).map fun token => (token, insert name (hide ∪ token.hidden))

/-- The result of rescanning: an identifier that names a macro outside of its hide set is replaced,
and the replacement is scanned again with the rest; every other token stays. -/
inductive Rescan (macros : ObjectMacros) : List Annotated → List Token → Prop
  | nil : Rescan macros [] []
  | keep {token : Token} {hide : Set Ident} {rest : List Annotated} {out : List Token}
      (stays : ∀ name noexpand body, token.kind = .ident name noexpand →
        macros.lookup name = some body → name ∈ hide)
      (later : Rescan macros rest out) : Rescan macros ((token, hide) :: rest) (token :: out)
  | replace {token : Token} {hide : Set Ident} {rest : List Annotated} {out : List Token}
      {name : Ident} {noexpand : Bool} {body : List Token}
      (kind : token.kind = .ident name noexpand) (found : macros.lookup name = some body)
      (open_ : name ∉ hide)
      (later : Rescan macros (replacement token.whitespace name hide body ++ rest) out) :
      Rescan macros ((token, hide) :: rest) out

def Token.plain (token : Token) : Token :=
  match token.kind with
  | .ident name _ => { token with kind := .ident name false }
  | _ => token

/-- A token that may be expanded has the tainted names as its hide set; every other identifier is
in its own. -/
def Agrees (tainted : Taint) (token : Token) (hide : Set Ident) : Prop :=
  ∀ name noexpand, token.kind = .ident name noexpand →
    (noexpand = true → name ∈ hide) ∧
      (noexpand = false → tainted name = false ∧ hide = {other | tainted other = true})

/-- A list under expansion is the same as a list with hide sets. -/
def Tracks (tainted : Taint) : List Pending → List Annotated → Prop
  | [], annotated => annotated = []
  | .untaint name :: rest, annotated => Tracks (tainted.clear name) rest annotated
  | .token token :: rest, annotated => ∃ other hide later, annotated = (other, hide) :: later ∧
      token.plain = other.plain ∧ Agrees tainted token hide ∧ Tracks tainted rest later

theorem Token.plain_ident {token : Token} {name : Ident} {noexpand : Bool}
    (kind : token.kind = .ident name noexpand) :
    token.plain = ⟨.ident name false, token.whitespace⟩ := by
  unfold Token.plain
  rw [kind]

theorem Token.plain_eq_ident {token other : Token} (same : token.plain = other.plain) {name : Ident}
    {noexpand : Bool} (kind : token.kind = .ident name noexpand) :
    ∃ bit, other.kind = .ident name bit ∧ other.whitespace = token.whitespace := by
  rw [token.plain_ident kind] at same
  unfold Token.plain at same
  cases shape : other.kind with
  | ident name' bit =>
    rw [shape] at same
    have kinds := congrArg Token.kind same
    have blanks := congrArg Token.whitespace same
    simp only [Kind.ident.injEq, and_true] at kinds
    exact ⟨bit, by rw [kinds], blanks.symm⟩
  | number | char | string | special | streamBegin | streamEnd =>
    rw [shape] at same
    have kinds := congrArg Token.kind same
    simp only [shape] at kinds
    cases kinds

theorem Token.plain_not_ident {token other : Token} (same : token.plain = other.plain)
    (none : ∀ name bit, token.kind ≠ .ident name bit) (name : Ident) (bit : Bool) :
    other.kind ≠ .ident name bit := by
  intro kind
  obtain ⟨bit', kind', -⟩ := Token.plain_eq_ident same.symm kind
  exact none name bit' kind'

theorem Token.mark_plain (tainted : Taint) (token : Token) :
    (token.mark tainted).plain = token.plain := by
  unfold Token.mark
  cases kind : token.kind with
  | ident name bit =>
    simp only
    unfold Token.plain
    rw [kind]
  | number | char | string | special | streamBegin | streamEnd => rfl

theorem Token.respace_plain (token : Token) (whitespace : Bool) :
    (token.respace whitespace).plain = token.plain.respace whitespace := by
  obtain ⟨kind, blank⟩ := token
  cases kind with
  | ident | number | char | string | special | streamBegin | streamEnd => rfl

theorem Tracks.scan {tainted : Taint} {list : List Pending} {annotated : List Annotated}
    (tracks : Tracks tainted list annotated) :
    Tracks (scanNext tainted list).1 (scanNext tainted list).2 annotated := by
  induction list generalizing tainted with
  | nil => exact tracks
  | cons entry list ih =>
    cases entry with
    | untaint name => exact ih tracks
    | token token => exact tracks

/-- Before the expansion a token hides what it hides from the start. -/
theorem tracks_start (list : List Token) {tainted : Taint} (clear : ∀ name, tainted name = false) :
    Tracks tainted (list.map .token) (list.map fun token => (token, token.hidden)) := by
  induction list with
  | nil => rfl
  | cons token list ih =>
    refine ⟨token, token.hidden, _, rfl, rfl, ?_, ih⟩
    intro name bit kind
    refine ⟨fun set => by rw [set] at kind; exact kind, fun off => ⟨clear name, ?_⟩⟩
    ext other
    constructor
    · intro member
      rw [off] at kind
      have kind' : token.kind = .ident other true := member
      rw [kind] at kind'
      cases kind'
    · intro member
      rw [Set.mem_ofPred_eq, clear other] at member
      cases member

/-- The hide sets of a replacement are what is tainted while it is made. -/
theorem agrees_replacement (tainted : Taint) (name : Ident) (token : Token) :
    Agrees (tainted.set name) (token.mark (tainted.set name))
      (insert name ({other | tainted other = true} ∪ token.hidden)) := by
  have member : ∀ other, (tainted.set name) other = true →
      other ∈ insert name ({other | tainted other = true} ∪ token.hidden) := by
    intro other set
    by_cases same : other = name
    · exact .inl same
    · rw [Taint.set, Function.update_of_ne same] at set
      exact .inr (.inl set)
  intro other bit kind
  unfold Token.mark at kind
  cases shape : token.kind with
  | number | char | string | special | streamBegin | streamEnd =>
    rw [shape] at kind
    rw [shape] at kind
    cases kind
  | ident word old =>
    rw [shape] at kind
    obtain ⟨rfl, bits⟩ := Kind.ident.inj kind
    constructor
    · intro on
      rw [on, Bool.or_eq_true] at bits
      rcases bits with before | now
      · rw [before] at shape
        exact .inr (.inr shape)
      · exact member word now
    · intro off
      rw [off, Bool.or_eq_false_iff] at bits
      refine ⟨bits.2, Set.Subset.antisymm ?_ member⟩
      intro x inside
      rcases inside with rfl | set | hidden
      · exact tainted.set_self x
      · show (tainted.set name) x = true
        by_cases same : x = name
        · rw [same]
          exact tainted.set_self name
        · rw [Taint.set, Function.update_of_ne same]
          exact set
      · have kind' : token.kind = .ident x true := hidden
        rw [shape] at kind'
        obtain ⟨-, bit'⟩ := Kind.ident.inj kind'
        rw [bits.1] at bit'
        cases bit'

/-- The tokens of a replacement list after the copy. -/
theorem tracks_replacement {tainted : Taint} {name : Ident} (free : tainted name = false)
    (whitespace : Bool) (body : List Token) {rest : List Pending} {later : List Annotated}
    (tracks : Tracks tainted rest later) :
    Tracks (tainted.set name)
      ((respaceFirst whitespace (body.map (Token.mark (tainted.set name)))).map .token ++
        .untaint name :: rest)
      (replacement whitespace name {other | tainted other = true} body ++ later) := by
  have unmarked : Tracks ((tainted.set name).clear name) rest later := by
    rw [Taint.set_clear free]
    exact tracks
  have tokens : ∀ list : List Token, Tracks (tainted.set name)
      ((list.map (Token.mark (tainted.set name))).map .token ++ .untaint name :: rest)
      ((list.map fun token => (token, insert name ({other | tainted other = true} ∪ token.hidden)))
        ++ later) := by
    intro list
    induction list with
    | nil => exact unmarked
    | cons token list ih =>
      exact ⟨token, _, _, rfl, token.mark_plain _, agrees_replacement tainted name token, ih⟩
  cases body with
  | nil => exact unmarked
  | cons first body =>
    refine ⟨first.respace whitespace, _, _, rfl, ?_, ?_, tokens body⟩
    · rw [Token.respace_plain, Token.respace_plain, Token.mark_plain]
    · exact agrees_replacement tainted name first

/-- An object-like macro without `##` is replaced by its list. -/
theorem substitute_ordinary (expandList : Recursion) (name : Ident) (blank : Bool)
    (before body : List Token) (args : Args) (state : State) :
    substitute expandList name blank before (body.map ordinary) args state =
      .ok ⟨before, (body.map (Token.mark (state.tainted.set name))).reverse⟩
        (state.retaint (state.tainted.set name)) := by
  have loop : ∀ (list added : List Token) (state : State),
      (list.map ordinary).foldlM (substituteOne expandList name blank)
          ⟨args, ⟨before, added⟩, .normal⟩ state =
        .ok ⟨args, ⟨before, (list.map (Token.mark state.tainted)).reverse ++ added⟩, .normal⟩
          state := by
    intro list
    induction list with
    | nil =>
      intro added state
      rfl
    | cons token list ih =>
      intro added state
      rw [map_cons, foldlM_cons, map_cons, reverse_cons, append_assoc]
      exact (bind_of_ok rfl).trans (ih (token.mark state.tainted :: added) state)
  have run := loop body [] (state.retaint (state.tainted.set name))
  rw [append_nil] at run
  have first : (modify fun state => state.retaint (state.tainted.set name) : Expander PUnit) state =
      .ok ⟨⟩ (state.retaint (state.tainted.set name)) := rfl
  exact (bind_of_ok first).trans (bind_of_ok run)

theorem Tail.place_reverse (before list : List Token) (token : Token) (name : Ident)
    (next : List Pending) : (Tail.mk before list.reverse).place token name next =
      ⟨before, (respaceFirst token.whitespace list).map .token ++ .untaint name :: next⟩ := by
  unfold Tail.place
  simp only [reverse_reverse]
  cases list with
  | nil => rfl
  | cons first list => rfl

/-- What is known of a run from a place: it collects no call, and its result is that of rescanning
the list with its hide sets. -/
structure Rescans (macros : ObjectMacros) (before : List Token) (annotated : List Annotated)
    (requests : List Request) (result : EStateM.Result OutOfFuel State (List Token)) : Prop where
  requests : (final result).requests = requests
  rescan : ∀ out state, result = .ok out state → ∃ expected, Rescan macros annotated expected ∧
    out.map Token.plain = before.reverse.map Token.plain ++ expected.map Token.plain

theorem Rescans.keep {macros : ObjectMacros} {before : List Token} {annotated : List Annotated}
    {requests : List Request} {result : EStateM.Result OutOfFuel State (List Token)}
    {token other : Token} {hide : Set Ident} (same : token.plain = other.plain)
    (stays : ∀ name noexpand body, other.kind = .ident name noexpand →
      macros.lookup name = some body → name ∈ hide)
    (rescans : Rescans macros (token :: before) annotated requests result) :
    Rescans macros before ((other, hide) :: annotated) requests result where
  requests := rescans.requests
  rescan out state done := by
    obtain ⟨expected, rescan, equal⟩ := rescans.rescan out state done
    refine ⟨other :: expected, .keep stays rescan, ?_⟩
    rw [equal, reverse_cons, map_append, append_assoc, map_cons, same]
    rfl

theorem expandFrom_rescans (macros : ObjectMacros) (fuel : Nat) (before : List Token)
    (list : List Pending) (annotated : List Annotated) (state : State)
    (tracks : Tracks state.tainted list annotated) :
    Rescans macros before annotated state.requests
      (expandFrom (ObjectMacros.toMacros macros) fuel ⟨before, list⟩ state) := by
  induction fuel generalizing before list annotated state with
  | zero =>
    refine ⟨rfl, fun out state' done => ?_⟩
    cases done
  | succ fuel ih =>
    have scanned : scan list state = .ok (scanNext state.tainted list).2
        (state.retaint (scanNext state.tainted list).1) := rfl
    have front := scanNext_head state.tainted list
    have further := tracks.scan
    rw [expandFrom_succ]
    unfold expandStep
    rw [bind_of_ok scanned]
    generalize scanNext state.tainted list = first at front further
    obtain ⟨after, rest⟩ := first
    simp only at front further ⊢
    cases rest with
    | nil =>
      rw [show annotated = [] from further]
      refine ⟨rfl, fun out state' done => ?_⟩
      cases done
      exact ⟨[], .nil, by simp⟩
    | cons entry rest =>
      cases entry with
      | untaint name => exact (front name rest rfl).elim
      | token token =>
        obtain ⟨other, hide, later, rfl, same, agrees, tracks'⟩ := further
        have skip : ∀ state' : State, state'.requests = state.requests →
            state'.tainted = after →
            (∀ name noexpand body, other.kind = .ident name noexpand →
              macros.lookup name = some body → name ∈ hide) →
            Rescans macros before ((other, hide) :: later) state.requests
              (expandFrom (ObjectMacros.toMacros macros) fuel ⟨token :: before, rest⟩
                state') := by
          intro state' requests taint stays
          rw [← taint] at tracks'
          rw [← requests]
          exact (ih (token :: before) rest later state' tracks').keep same stays
        simp only
        cases kind : token.kind with
        | number | char | string | special | streamBegin | streamEnd =>
          refine skip _ rfl rfl fun name noexpand body kind' _ => ?_
          refine (Token.plain_not_ident same (fun name bit shape => ?_) name noexpand
            kind').elim
          rw [kind] at shape
          cases shape
        | ident name noexpand =>
          obtain ⟨bit, kind', blank⟩ := Token.plain_eq_ident same kind
          obtain ⟨hidden, open_⟩ := agrees name noexpand kind
          simp only
          cases noexpand with
          | true =>
            have run : ∀ h, expandOneSymbol (ObjectMacros.toMacros macros) h token name
                true ⟨before, rest⟩ (state.retaint after) =
                  .ok (true, ⟨before, rest⟩) (state.retaint after) := fun h => rfl
            rw [bind_of_ok (run _)]
            refine skip _ rfl rfl fun name' bit' body shape _ => ?_
            rw [kind'] at shape
            cases shape
            exact hidden rfl
          | false =>
            obtain ⟨free, hideEq⟩ := open_ rfl
            subst hideEq
            cases found : macros.lookup name with
            | none =>
              have run : ∀ h, expandOneSymbol (ObjectMacros.toMacros macros) h token name
                  false ⟨before, rest⟩ (state.retaint after) =
                    .ok (true, ⟨before, rest⟩) (state.retaint after) := by
                intro h
                unfold expandOneSymbol
                rw [if_neg (by decide), ObjectMacros.find_toMacros, found]
                rfl
              rw [bind_of_ok (run _)]
              refine skip _ rfl rfl fun name' bit' body shape found' => ?_
              rw [kind'] at shape
              cases shape
              rw [found] at found'
              cases found'
            | some body =>
              have run : ∀ h, expandOneSymbol (ObjectMacros.toMacros macros) h token name
                  false ⟨before, rest⟩ (state.retaint after) =
                    .ok (false, ⟨before, (respaceFirst token.whitespace
                      (body.map (Token.mark (after.set name)))).map .token ++
                        .untaint name :: rest⟩) (state.retaint (after.set name)) := by
                intro h
                unfold expandOneSymbol
                rw [if_neg (by decide), ObjectMacros.find_toMacros, found]
                show expandCall _ _ _ _ _ (.collected _) _ _ = _
                have substituted := substitute_ordinary h name token.whitespace before
                  body (fun _ => Arg.absent) (state.retaint after)
                refine (bind_of_ok substituted).trans ?_
                rw [Tail.place_reverse]
                rfl
              rw [bind_of_ok (run _)]
              have replaced := tracks_replacement free token.whitespace body tracks'
              have inner := ih before _ _ (state.retaint (after.set name)) replaced
              refine ⟨inner.requests, fun out state' done => ?_⟩
              obtain ⟨expected, rescan, equal⟩ := inner.rescan out state' done
              refine ⟨expected, .replace kind' found ?_ ?_, equal⟩
              · intro member
                rw [Set.mem_ofPred_eq, free] at member
                cases member
              · rw [blank]
                exact rescan

/-- `expand_list` with object-like macros terminates with the result of rescanning, and leaves no
name tainted. -/
theorem expandList_rescan (macros : ObjectMacros) (list : List Token) :
    ∃ fuel out state, expandList (ObjectMacros.toMacros macros) fuel (list.map .token) State.start =
        .ok out state ∧
      (∃ expected, Rescan macros (list.map fun token => (token, token.hidden)) expected ∧
        out.map Token.plain = expected.map Token.plain) ∧
      ∀ name, state.tainted name = false := by
  have ends := expandFrom_finishes (ObjectMacros.toMacros macros)
    (State.start.tainted, list.map .token) [] State.start rfl (fresh_start _ _ fun _ => rfl)
  have runs := fun fuel => expandFrom_rescans macros fuel [] (list.map .token)
    (list.map fun token => (token, token.hidden)) State.start (tracks_start list fun _ => rfl)
  rcases ends with ⟨fuel, request, member, -⟩ | ⟨fuel, out, state, result, taint⟩
  · rw [(runs fuel).requests] at member
    cases member
  · refine ⟨fuel, out, state, result, ?_, ?_⟩
    · obtain ⟨expected, rescan, equal⟩ := (runs fuel).rescan out state result
      exact ⟨expected, rescan, equal⟩
    · intro name
      rw [taint]
      show unwind State.start.tainted (list.map .token) name = false
      rw [unwind_tokens]
      rfl

end SmatchFormal.Preprocess
