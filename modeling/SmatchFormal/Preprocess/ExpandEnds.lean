import SmatchFormal.Preprocess.SubstituteEnds

/-!
# The expansion ends

A call is heavy if one of its arguments weighs more than what the call takes behind the last marker
it passes.  As long as no call is heavy, the levels of the pending tokens decrease in the order of
Dershowitz and Manna, also from a list to the arguments of a call in it.
-/

namespace SmatchFormal.Preprocess

open Fuel

/-! ## Heavy calls -/

def Request.outcome (request : Request) : Call × Taint × List Pending :=
  collectArguments request.fixed request.vararg request.tainted request.list

def Request.taken (request : Request) : List Pending :=
  request.list.take (request.list.length - request.outcome.2.2.length)

/-- An argument of the call weighs more than what the call takes behind the last marker. -/
def Request.Heavy (macros : Macros) (request : Request) : Prop :=
  ∃ args argnum arg, request.outcome.1 = .collected args ∧ (args argnum).quoted = some arg ∧
    weight macros (behind request.taken) < weight macros arg

theorem Request.taken_eq {request : Request} {passed : List Pending}
    (split : request.list = passed ++ request.outcome.2.2) : request.taken = passed := by
  unfold Request.taken
  have length : request.list.length = passed.length + request.outcome.2.2.length := by
    rw [← List.length_append, ← split]
  rw [length, Nat.add_sub_cancel]
  conv_lhs => rw [split]
  exact List.take_left' rfl

/-! ## The order on lists -/

def Nearer (macros : Macros) (one other : Taint × List Pending) : Prop :=
  Multiset.IsDershowitzMannaLT (levels macros one.1 one.2) (levels macros other.1 other.2) ∨
    levels macros one.1 one.2 ≤ levels macros other.1 other.2 ∧ one.2.length < other.2.length

theorem nearer_wellFounded (macros : Macros) : WellFounded (Nearer macros) := by
  have lex := WellFounded.prod_lex
    (Multiset.wellFounded_isDershowitzMannaLT (α := Nat)) Nat.lt_wfRel.wf
  have order := InvImage.wf (fun list : Taint × List Pending =>
    (levels macros list.1 list.2, list.2.length)) lex
  refine Subrelation.wf (fun {one other} nearer => ?_) order
  show Prod.Lex _ _ _ _
  rw [Prod.lex_def]
  rcases nearer with less | ⟨below, shorter⟩
  · exact .inl less
  · rcases below.lt_or_eq with less | same
    · exact .inl (dershowitzManna_of_lt less)
    · exact .inr ⟨same, shorter⟩

section Nearer

variable {macros : Macros} {tainted after : Taint} {list rest passed : List Pending} {token : Token}

theorem nearer_tail : Nearer macros (tainted, list) (tainted, .token token :: list) := by
  refine .inr ⟨?_, Nat.lt_succ_self _⟩
  show levels macros tainted list ≤ _ + levels macros tainted list
  exact Multiset.le_add_left _ _

theorem nearer_of_passes {other : Taint × List Pending}
    (nearer : Nearer macros (tainted, list) other)
    (passes : Passes tainted list after rest passed) : Nearer macros (after, rest) other := by
  have below := passes.levels_le macros
  rcases nearer with less | ⟨below', shorter⟩
  · rcases below.lt_or_eq with smaller | same
    · exact .inl ((dershowitzManna_of_lt smaller).trans less)
    · left
      show Multiset.IsDershowitzMannaLT (levels macros after rest) _
      rw [same]
      exact less
  · exact .inr ⟨below.trans below', Nat.lt_of_le_of_lt passes.length_le shorter⟩

theorem nearer_passes {one : Taint × List Pending}
    (passes : Passes tainted list after rest passed) (nearer : Nearer macros one (after, rest)) :
    Nearer macros one (tainted, list) := by
  have below := passes.levels_le macros
  rcases nearer with less | ⟨below', shorter⟩
  · rcases below.lt_or_eq with smaller | same
    · exact .inl (less.trans (dershowitzManna_of_lt smaller))
    · left
      show Multiset.IsDershowitzMannaLT _ (levels macros tainted list)
      rw [← same]
      exact less
  · exact .inr ⟨below'.trans below, Nat.lt_of_lt_of_le shorter passes.length_le⟩

/-- An argument that is not heavy is nearer than the list the call began in. -/
theorem nearer_argument (weighs : token.weighs macros = true)
    (passes : Passes tainted list after rest passed) {arg : List Token}
    (light : weight macros arg ≤ weight macros (behind passed)) :
    Nearer macros (after, arg.map .token) (tainted, .token token :: list) := by
  left
  apply dershowitzManna_of_lt
  have inner : levels macros after (arg.map .token) ≤ levels macros tainted list := by
    calc levels macros after (arg.map .token)
        = Multiset.replicate (weight macros arg) (level macros after) := levels_tokens macros _ _
      _ ≤ Multiset.replicate (weight macros (behind passed)) (level macros after) :=
          Multiset.replicate_mono _ light
      _ ≤ levels macros tainted passed := by
          rw [passes.2]
          exact behind_levels macros tainted passed
      _ ≤ levels macros tainted list := by
          rw [passes.levels_eq macros]
          exact Multiset.le_add_right _ _
  have front : levels macros tainted (.token token :: list) =
      {level macros tainted} + levels macros tainted list := by
    show (if token.weighs macros then {level macros tainted} else 0) + _ = _
    rw [if_pos weighs]
  show levels macros after (arg.map .token) < levels macros tainted (.token token :: list)
  rw [front, Multiset.singleton_add]
  exact lt_of_le_of_lt inner (Multiset.lt_cons_self _ _)

/-- The replacement of a macro is nearer than a list that has a token of the level it had. -/
theorem nearer_replacement {name : Ident} {sym : Macro} (found : macros.find name = some sym)
    (free : after name = false) (added : List Token)
    (inside : levels macros after rest + {level macros after} ≤ levels macros tainted list) :
    Nearer macros (after.set name, added.map .token ++ .untaint name :: rest) (tainted, list) := by
  left
  have shape : levels macros (after.set name) (added.map .token ++ .untaint name :: rest) =
      levels macros after rest +
        Multiset.replicate (weight macros added) (level macros (after.set name)) := by
    rw [levels_append, levels_tokens, unwind_tokens, add_comm]
    show levels macros ((after.set name).clear name) rest + _ = _
    rw [Taint.set_clear free]
  show Multiset.IsDershowitzMannaLT (levels macros (after.set name) _) _
  rw [shape]
  apply dershowitzManna_of_replace inside
  intro y member
  rw [Multiset.eq_of_mem_replicate member]
  exact level_set_lt macros found free

end Nearer

section Place

variable {tainted : Taint} {name : Ident} {token : Token} {tail : Tail} {next : List Pending}

theorem Tail.place_rest (tail : Tail) (token : Token) (name : Ident) (next : List Pending) :
    ∃ added : List Token, (tail.place token name next).rest =
        added.map .token ++ .untaint name :: next ∧
      ∀ tainted, tail.Marked tainted → ∀ token ∈ added, token.Marked tainted := by
  have inside : ∀ tainted, tail.Marked tainted → ∀ token ∈ tail.added.reverse,
      token.Marked tainted :=
    fun tainted marked token member => marked token (List.mem_reverse.mp member)
  unfold Tail.place
  simp only
  cases shape : tail.added.reverse with
  | nil => exact ⟨[], rfl, fun tainted marked token member => (List.not_mem_nil member).elim⟩
  | cons first added =>
    refine ⟨first.respace token.whitespace :: added, rfl, fun tainted marked other member => ?_⟩
    have known := inside tainted marked
    rw [shape] at known
    rcases List.mem_cons.mp member with rfl | later
    · exact (known first List.mem_cons_self).respace _
    · exact known other (List.mem_cons_of_mem _ later)

theorem fresh_replacement {added : List Token} (free : tainted name = false)
    (marked : ∀ token ∈ added, token.Marked (tainted.set name)) (fresh : Fresh tainted next) :
    Fresh (tainted.set name) (added.map .token ++ .untaint name :: next) := by
  rw [fresh_append, unwind_tokens, fresh_tokens]
  refine ⟨marked, ?_⟩
  show Fresh ((tainted.set name).clear name) next
  rw [Taint.set_clear free]
  exact fresh

theorem unwind_replacement (added : List Token) (free : tainted name = false) :
    unwind (tainted.set name) (added.map .token ++ .untaint name :: next) =
      unwind tainted next := by
  rw [unwind_append, unwind_tokens]
  show unwind ((tainted.set name).clear name) next = _
  rw [Taint.set_clear free]

end Place

/-! ## The run of `expand_list` -/

/-- `expand_list` from a place ends, or collects a heavy call; it leaves the taint that is left
behind the last marker of the list. -/
def Finishes (macros : Macros) (place : Place) (state : State) : Prop :=
  Ends (Raised (Request.Heavy macros)) (fun fuel => expandFrom macros fuel place) state
    fun _ state' => state'.tainted = unwind state.tainted place.rest

structure Onwards (macros : Macros) (tainted : Taint) (list : List Pending) (rest : List Pending)
    (state : State) : Prop where
  fresh : Fresh state.tainted rest
  nearer : Nearer macros (state.tainted, rest) (tainted, list)
  unwinds : unwind state.tainted rest = unwind tainted list

section Run

variable {macros : Macros} {tainted : Taint} {rest : List Pending} {token : Token} {name : Ident}
  {sym : Macro} {state : State}

def recursion (macros : Macros) (fuel : Nat) : Recursion :=
  fun arg => expandFrom macros fuel ⟨[], arg.map .token⟩

theorem recursion_growing {bad : Request → Prop} (macros : Macros) (arg : List Token) :
    Growing (Raised bad) fun n => recursion macros n arg :=
  expandFrom_growing macros ⟨[], arg.map .token⟩

def NearerFinish (macros : Macros) (other : Taint × List Pending) : Prop :=
  ∀ list : Taint × List Pending, Nearer macros list other → ∀ before state,
    state.tainted = list.1 → Fresh list.1 list.2 → Finishes macros ⟨before, list.2⟩ state

theorem expands_of_light {after : Taint} {list passed : List Pending} {args : Args}
    (nearer : NearerFinish macros (tainted, .token token :: rest))
    (weighs : token.weighs macros = true) (passes : Passes tainted rest after list passed)
    (marked : ∀ argnum arg, (args argnum).quoted = some arg → ∀ t ∈ arg, t.Marked after)
    (light : ∀ argnum arg, (args argnum).quoted = some arg →
      weight macros arg ≤ weight macros (behind passed)) :
    Expands (Request.Heavy macros) (recursion macros) after args := by
  intro argnum arg given state taint
  have ends := nearer (after, arg.map .token)
    (nearer_argument weighs passes (light argnum arg given)) [] state taint
    (fresh_tokens.mpr (marked argnum arg given))
  refine ends.weaken fun result state' same => ?_
  rw [same, unwind_tokens, taint]

theorem substitute_onwards {after : Taint} {list : List Pending} {args : Args}
    (found : macros.find name = some sym) (free : after name = false)
    (expands : Expands (Request.Heavy macros) (recursion macros) after args)
    (taint : state.tainted = after) (fresh : Fresh after list)
    (unwinds : unwind after list = unwind tainted rest)
    (inside : levels macros after list + {level macros after} ≤
      levels macros tainted (.token token :: rest)) (before : List Token) :
    Ends (Raised (Request.Heavy macros)) (fun n => expandCall (recursion macros n) token name sym
      before (.collected args) list) state fun result state' => result.1 = false ∧
        Onwards macros tainted (.token token :: rest) result.2.rest state' := by
  refine Ends.bind (fun n => substitute_extends (fun arg => recursion_growing macros arg n) _ _ _ _)
    (fun tail n => Extends.pure _)
    (substitute_ends (recursion_growing macros) expands free _ before sym.expansion taint) ?_
  rintro tail state' ⟨taint', marked⟩
  obtain ⟨added, shape, markedAdded⟩ := tail.place_rest token name list
  refine Ends.of_ok (fun n => rfl) ⟨rfl, ?_⟩
  show Onwards macros tainted (.token token :: rest) (tail.place token name list).rest state'
  rw [shape]
  refine ⟨?_, ?_, ?_⟩
  · rw [taint']
    exact fresh_replacement free (markedAdded _ marked) fresh
  · rw [taint']
    exact nearer_replacement found free added inside
  · rw [taint', unwind_replacement added free]
    exact unwinds

theorem levels_cons_of_weighs (weighs : token.weighs macros = true) :
    levels macros tainted (.token token :: rest) =
      {level macros tainted} + levels macros tainted rest := by
  show (if token.weighs macros then {level macros tainted} else 0) + _ = _
  rw [if_pos weighs]

/-- The closing parenthesis of a call has the level that is left behind the call. -/
theorem closing_level {after : Taint} {list passed front : List Pending} {blank : Bool}
    (passes : Passes tainted rest after list passed)
    (shape : passed = front ++ [.token ⟨.special ")", blank⟩]) :
    levels macros after list + {level macros after} ≤ levels macros tainted rest := by
  have end_ : unwind tainted passed = unwind tainted front := by
    rw [shape, unwind_append]
    rfl
  have last : levels macros tainted passed =
      levels macros tainted front + {level macros after} := by
    rw [passes.2, end_, shape, levels_append]
    rfl
  rw [passes.levels_eq macros, last, add_comm, add_assoc]
  exact Multiset.le_add_left _ _

/-- `expand` on a macro that is not tainted. -/
theorem expand_onwards (nearer : NearerFinish macros (tainted, .token token :: rest))
    (kind : token.kind = .ident name false) (found : macros.find name = some sym)
    (taint : state.tainted = tainted) (fresh : Fresh tainted (.token token :: rest))
    (before : List Token) :
    Ends (Raised (Request.Heavy macros))
      (fun n => expand (recursion macros n) token name sym ⟨before, rest⟩) state
      fun result state' => Onwards macros tainted (.token token :: rest) result.2.rest state' := by
  have weighs : token.weighs macros = true := by
    unfold Token.weighs
    rw [kind]
    simp only
    rw [found]
    rfl
  have free : tainted name = false := fresh.1 name kind
  cases arglist : sym.arglist with
  | false =>
    have absent : Expands (Request.Heavy macros) (recursion macros) tainted
        fun _ => Arg.absent := by
      intro argnum arg given
      cases given
    have inside : levels macros tainted rest + {level macros tainted} ≤
        levels macros tainted (.token token :: rest) := by
      rw [levels_cons_of_weighs weighs, add_comm]
    have call := substitute_onwards found free absent taint fresh.2 rfl inside before
    refine Ends.weaken (Ends.of_eq (fun n => ?_) call) fun result state' known => known.2
    unfold expand
    rw [arglist, if_neg (by decide)]
  | true =>
    obtain ⟨passed, takes⟩ :=
      collectArguments_takes sym.fixedArgs sym.vararg tainted rest
    let request : Request := ⟨tainted, sym.fixedArgs, sym.vararg, rest⟩
    have outcome : request.outcome =
        collectArguments sym.fixedArgs sym.vararg tainted rest := rfl
    have taken : request.taken = passed := Request.taken_eq takes.passes.1
    have collected : collect sym rest state = .ok (request.outcome.1, request.outcome.2.2)
        ((state.note request).retaint request.outcome.2.1) := by
      have shape : request = ⟨state.tainted, sym.fixedArgs, sym.vararg, rest⟩ := by
        rw [taint]
      rw [shape]
      rfl
    have run : ∀ n, expand (recursion macros n) token name sym ⟨before, rest⟩ state =
        expandCall (recursion macros n) token name sym before request.outcome.1
          request.outcome.2.2 ((state.note request).retaint request.outcome.2.1) := by
      intro n
      unfold expand
      rw [arglist, if_pos rfl]
      exact bind_of_ok collected
    refine Ends.of_eq run ?_
    by_cases heavy : request.Heavy macros
    · refine .inl ⟨1, ?_⟩
      apply (expandCall_extends (fun arg => recursion_growing macros arg 0) token name sym before
        request.outcome.1 request.outcome.2.2).keeps
      exact ⟨request, List.mem_cons_self, heavy⟩
    · have passes : Passes tainted rest request.outcome.2.1 request.outcome.2.2 passed :=
        takes.passes
      have stays : Onwards macros tainted (.token token :: rest) request.outcome.2.2
          ((state.note request).retaint request.outcome.2.1) :=
        ⟨passes.fresh fresh.2, nearer_of_passes nearer_tail passes, passes.unwind_eq⟩
      cases call : request.outcome.1 with
      | missing => exact Ends.of_ok (fun n => rfl) stays
      | failed => exact Ends.of_ok (fun n => rfl) stays
      | collected args =>
        have given : ∀ argnum arg, (args argnum).quoted = some arg →
            ∀ t ∈ arg, Pending.token t ∈ passed := by
          intro argnum arg quoted
          exact (takes.inside args call argnum arg quoted).resolve_left fun absent => by
            cases absent
        have expands : Expands (Request.Heavy macros) (recursion macros) request.outcome.2.1
            args := expands_of_light nearer weighs passes
          (fun argnum arg quoted t member =>
            passes.marked fresh.2 (given argnum arg quoted t member))
          (fun argnum arg quoted => by
            by_contra more
            rw [← taken] at more
            exact heavy ⟨args, argnum, arg, call, quoted, Nat.lt_of_not_le more⟩)
        have inside : levels macros request.outcome.2.1 request.outcome.2.2 +
            {level macros request.outcome.2.1} ≤
              levels macros tainted (.token token :: rest) := by
          obtain ⟨front, blank, shape⟩ := takes.closed args call
          rw [levels_cons_of_weighs weighs]
          exact (closing_level passes shape).trans (Multiset.le_add_left _ _)
        refine (substitute_onwards found (passes.less name free) expands rfl
          (passes.fresh fresh.2) passes.unwind_eq inside before).weaken ?_
        exact fun result state' known => known.2

theorem expandOneSymbol_onwards {noexpand : Bool}
    (nearer : NearerFinish macros (tainted, .token token :: rest))
    (kind : token.kind = .ident name noexpand) (taint : state.tainted = tainted)
    (fresh : Fresh tainted (.token token :: rest)) (before : List Token) :
    Ends (Raised (Request.Heavy macros))
      (fun n => expandOneSymbol macros (recursion macros n) token name noexpand ⟨before, rest⟩)
      state fun result state' =>
        Onwards macros tainted (.token token :: rest) result.2.rest state' := by
  have stays : Onwards macros tainted (.token token :: rest) rest state := by
    refine ⟨?_, ?_, ?_⟩
    · rw [taint]
      exact fresh.2
    · rw [taint]
      exact nearer_tail
    · rw [taint]
      rfl
  cases noexpand with
  | true => exact Ends.of_ok (fun n => rfl) stays
  | false =>
    cases found : macros.find name with
    | none =>
      have run : ∀ n, expandOneSymbol macros (recursion macros n) token name false
          ⟨before, rest⟩ state = .ok (true, ⟨before, rest⟩) state := by
        intro n
        unfold expandOneSymbol
        rw [if_neg (by decide), found]
        rfl
      exact Ends.of_ok run stays
    | some sym =>
      refine Ends.of_eq (fun n => ?_) (expand_onwards nearer kind found taint fresh before)
      unfold expandOneSymbol
      rw [if_neg (by decide), found]

/-- A round of the loop leads on to a nearer list. -/
theorem expandStep_finishes {list : List Pending} (nearer : NearerFinish macros (tainted, list))
    (taint : state.tainted = tainted) (fresh : Fresh tainted list) (before : List Token) :
    Ends (Raised (Request.Heavy macros)) (fun n => expandStep macros (recursion macros n)
      (expandFrom macros n) ⟨before, list⟩) state fun _ state' =>
        state'.tainted = unwind tainted list := by
  obtain ⟨passed, passes⟩ := scanNext_passes tainted list
  have scanned : scan list state =
      .ok (scanNext tainted list).2 (state.retaint (scanNext tainted list).1) := by
    rw [← taint]
    rfl
  generalize result : scanNext tainted list = first at passes scanned
  obtain ⟨after, rest⟩ := first
  have freshRest := passes.fresh fresh
  have further : ∀ other : Taint × List Pending, Nearer macros other (after, rest) →
      Nearer macros other (tainted, list) := fun other near => nearer_passes passes near
  have next : ∀ tokens more (state' : State), Onwards macros after rest more state' →
      Ends (Raised (Request.Heavy macros)) (fun n => expandFrom macros n ⟨tokens, more⟩) state'
        fun _ state'' => state''.tainted = unwind tainted list := by
    intro tokens more state' onwards
    have ends := nearer (state'.tainted, more) (further _ onwards.nearer) tokens state' rfl
      onwards.fresh
    refine ends.weaken fun result state'' same => ?_
    rw [same, ← passes.unwind_eq]
    exact onwards.unwinds
  cases rest with
  | nil =>
    refine Ends.of_ok (fun n => bind_of_ok scanned) ?_
    exact passes.unwind_eq
  | cons entry rest =>
    cases entry with
    | untaint name => exact (scanNext_head tainted list name rest (congrArg Prod.snd result)).elim
    | token token =>
      cases kind : token.kind with
      | ident name noexpand =>
        have symbol : Ends (Raised (Request.Heavy macros)) (fun n => expandOneSymbol macros
            (recursion macros n) token name noexpand ⟨before, rest⟩) (state.retaint after)
            fun result state' =>
              Onwards macros after (.token token :: rest) result.2.rest state' :=
          expandOneSymbol_onwards (fun other near => nearer other (further other near)) kind
            rfl freshRest before
        have both : Ends (Raised (Request.Heavy macros)) (fun n => do
            let result ← expandOneSymbol macros (recursion macros n) token name noexpand
              ⟨before, rest⟩
            expandFrom macros n (if result.1 then
              { result.2 with before := token :: result.2.before } else result.2))
            (state.retaint after) fun _ state'' =>
              state''.tainted = unwind tainted list := by
          refine Ends.bind
            (fun n => expandOneSymbol_extends (fun arg => recursion_growing macros arg n)
              _ _ _ _) (fun result => expandFrom_growing macros _) symbol ?_
          rintro ⟨stays, place⟩ state' onwards
          cases stays with
          | true => exact next _ _ state' onwards
          | false => exact next _ _ state' onwards
        refine Ends.of_eq (fun n => ?_) both
        unfold expandStep
        rw [bind_of_ok scanned]
        simp only [kind]
      | number | char | string | special | streamBegin | streamEnd =>
        refine Ends.of_eq (fun n => ?_) (next (token :: before) rest (state.retaint after)
          ⟨freshRest.2, nearer_tail, rfl⟩)
        unfold expandStep
        rw [bind_of_ok scanned]
        simp only [kind]

theorem expandFrom_finishes (macros : Macros) (list : Taint × List Pending) (before : List Token)
    (state : State) (taint : state.tainted = list.1) (fresh : Fresh list.1 list.2) :
    Finishes macros ⟨before, list.2⟩ state := by
  induction list using (nearer_wellFounded macros).induction generalizing before state with
  | _ list ih =>
    apply Ends.of_succ
    unfold Finishes at ih
    have nearer : NearerFinish macros (list.1, list.2) :=
      fun other near before state taint fresh => ih other near before state taint fresh
    have step := expandStep_finishes nearer taint fresh before
    rw [← taint] at step
    exact Ends.of_eq (fun n => rfl) step

end Run

end SmatchFormal.Preprocess
