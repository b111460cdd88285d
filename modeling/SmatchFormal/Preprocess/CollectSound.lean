import SmatchFormal.Preprocess.Levels

/-!
# What a call takes from the list

Collecting arguments only takes entries off the front of the list: the markers among them are
passed, and the tokens of an argument are among them.
-/

namespace SmatchFormal.Preprocess

open List

def Passes (tainted : Taint) (list : List Pending) (after : Taint) (rest passed : List Pending) :
    Prop :=
  list = passed ++ rest ∧ after = unwind tainted passed

section Passes

variable {tainted after : Taint} {list rest passed : List Pending}

theorem Passes.refl (tainted : Taint) (list : List Pending) : Passes tainted list tainted list [] :=
  ⟨rfl, rfl⟩

theorem Passes.untaint {name : Ident}
    (passes : Passes (tainted.clear name) list after rest passed) :
    Passes tainted (.untaint name :: list) after rest (.untaint name :: passed) :=
  ⟨congrArg (_ :: ·) passes.1, passes.2⟩

theorem Passes.token {token : Token} (passes : Passes tainted list after rest passed) :
    Passes tainted (.token token :: list) after rest (.token token :: passed) :=
  ⟨congrArg (_ :: ·) passes.1, passes.2⟩

theorem Passes.trans {last : Taint} {rest' passed' : List Pending}
    (first : Passes tainted list after rest passed)
    (second : Passes after rest last rest' passed') :
    Passes tainted list last rest' (passed ++ passed') := by
  refine ⟨?_, ?_⟩
  · rw [first.1, second.1, append_assoc]
  · rw [unwind_append, ← first.2]
    exact second.2

theorem Passes.unwind_eq (passes : Passes tainted list after rest passed) :
    unwind after rest = unwind tainted list := by
  rw [passes.1, unwind_append, ← passes.2]

theorem Passes.fresh (passes : Passes tainted list after rest passed)
    (fresh : Fresh tainted list) : Fresh after rest := by
  rw [passes.1, fresh_append, ← passes.2] at fresh
  exact fresh.2

theorem Passes.levels_eq (macros : Macros) (passes : Passes tainted list after rest passed) :
    levels macros tainted list = levels macros tainted passed + levels macros after rest := by
  rw [passes.1, levels_append, ← passes.2]

theorem Passes.levels_le (macros : Macros) (passes : Passes tainted list after rest passed) :
    levels macros after rest ≤ levels macros tainted list := by
  rw [passes.levels_eq macros]
  exact Multiset.le_add_left _ _

theorem Passes.length_le (passes : Passes tainted list after rest passed) :
    rest.length ≤ list.length := by
  rw [passes.1, length_append]
  exact Nat.le_add_left _ _

theorem Passes.less (passes : Passes tainted list after rest passed) : after.Less tainted := by
  rw [passes.2]
  exact unwind_less tainted passed

/-- The tokens among the entries taken may still not be expanded where they were tainted. -/
theorem Passes.marked (passes : Passes tainted list after rest passed)
    (fresh : Fresh tainted list) {token : Token} (member : Pending.token token ∈ passed) :
    token.Marked after := by
  rw [passes.1, fresh_append] at fresh
  rw [passes.2]
  exact fresh.1.marked member

end Passes

theorem scanNext_passes (tainted : Taint) (list : List Pending) :
    ∃ passed, Passes tainted list (scanNext tainted list).1 (scanNext tainted list).2 passed := by
  induction list generalizing tainted with
  | nil => exact ⟨[], Passes.refl tainted []⟩
  | cons entry list ih =>
    cases entry with
    | token token => exact ⟨[], Passes.refl tainted _⟩
    | untaint name =>
      obtain ⟨passed, passes⟩ := ih (tainted.clear name)
      exact ⟨_, passes.untaint⟩

theorem scanNext_head (tainted : Taint) (list : List Pending) (name : Ident)
    (rest : List Pending) : (scanNext tainted list).2 ≠ .untaint name :: rest := by
  induction list generalizing tainted with
  | nil =>
    intro same
    cases same
  | cons entry list ih =>
    cases entry with
    | untaint other => exact ih (tainted.clear other)
    | token token =>
      intro same
      cases same

/-! ## `collect_arg` -/

structure Takes (vararg : Bool) (tainted : Taint) (list : List Pending) (one : Collected)
    (passed : List Pending) : Prop where
  passes : Passes tainted list one.tainted one.next passed
  inside : ∀ token ∈ one.arg, Pending.token token ∈ passed
  stop : ∀ op whitespace rest, one.next = .token ⟨.special op, whitespace⟩ :: rest →
    op = ")" ∨ op = "," ∧ vararg = false

theorem Takes.add {vararg : Bool} {tainted : Taint} {list passed : List Pending} {one : Collected}
    {token : Token}
    (takes : Takes vararg tainted list one passed) :
    Takes vararg tainted (.token token :: list) (one.add token) (.token token :: passed) where
  passes := takes.passes.token
  inside other member := by
    rcases mem_cons.mp member with rfl | later
    · exact mem_cons_self
    · exact mem_cons_of_mem _ (takes.inside other later)
  stop := takes.stop

theorem Takes.stops {vararg : Bool} {tainted : Taint} {list : List Pending}
    (stop : ∀ op whitespace rest, list = .token ⟨.special op, whitespace⟩ :: rest →
      op = ")" ∨ op = "," ∧ vararg = false) : Takes vararg tainted list ⟨[], list, tainted⟩ [] where
  passes := Passes.refl tainted list
  inside _ member := (not_mem_nil member).elim
  stop := stop

theorem Takes.stops_at {vararg : Bool} {tainted : Taint} {list : List Pending} {token : Token}
    {op : String}
    (match_ : token.matchOp op = true) (known : op = ")" ∨ op = "," ∧ vararg = false) :
    Takes vararg tainted (.token token :: list) ⟨[], .token token :: list, tainted⟩ [] := by
  apply Takes.stops
  intro other whitespace rest same
  obtain ⟨head, -⟩ := List.cons.inj same
  have kind : token.kind = .special op := of_decide_eq_true match_
  rw [Pending.token.inj head] at kind
  rw [Kind.special.inj kind]
  exact known

theorem collectArg_takes (vararg : Bool) (nesting : Nat) (tainted : Taint) (list : List Pending) :
    ∃ passed, Takes vararg tainted list (collectArg vararg nesting tainted list) passed := by
  induction list generalizing nesting tainted with
  | nil =>
    refine ⟨[], Takes.stops fun op whitespace rest same => ?_⟩
    cases same
  | cons entry list ih =>
    cases entry with
    | untaint name =>
      obtain ⟨passed, takes⟩ := ih nesting (tainted.clear name)
      exact ⟨_, takes.passes.untaint, fun token member =>
        mem_cons_of_mem _ (takes.inside token member), takes.stop⟩
    | token token =>
      have further : ∀ n, ∃ passed, Takes vararg tainted (.token token :: list)
          ((collectArg vararg n tainted list).add token) passed := by
        intro n
        obtain ⟨passed, takes⟩ := ih n tainted
        exact ⟨_, takes.add⟩
      unfold collectArg
      split
      next stream =>
        refine ⟨[], Takes.stops fun op whitespace rest same => ?_⟩
        obtain ⟨head, -⟩ := List.cons.inj same
        rw [Pending.token.inj head] at stream
        rcases stream with other | other
        · cases other
        · cases other
      split
      · exact further (nesting + 1)
      split
      next closing =>
        cases nesting with
        | zero => exact ⟨[], Takes.stops_at closing (.inl rfl)⟩
        | succ nesting => exact further nesting
      split
      next comma => exact ⟨[], Takes.stops_at comma.1 (.inr ⟨rfl, by simpa using comma.2.2⟩)⟩
      · exact further nesting

/-! ## `collect_arguments` -/

/-- What a whole call takes; the arguments `args` were collected before. -/
structure TakesAll (tainted : Taint) (list : List Pending) (args : Args)
    (result : Call × Taint × List Pending) (passed : List Pending) : Prop where
  passes : Passes tainted list result.2.1 result.2.2 passed
  closed : ∀ args', result.1 = .collected args' →
    ∃ before whitespace, passed = before ++ [.token ⟨.special ")", whitespace⟩]
  inside : ∀ args', result.1 = .collected args' → ∀ argnum arg, (args' argnum).quoted = some arg →
    (args argnum).quoted = some arg ∨ ∀ token ∈ arg, Pending.token token ∈ passed

theorem TakesAll.fails {tainted after : Taint} {list rest passed : List Pending} {args : Args}
    {call : Call} (passes : Passes tainted list after rest passed)
    (noCall : ∀ args', call ≠ .collected args') :
    TakesAll tainted list args (call, after, rest) passed where
  passes := passes
  closed args' same := (noCall args' same).elim
  inside args' same := (noCall args' same).elim

theorem Takes.next {vararg : Bool} {tainted : Taint} {list passed rest : List Pending}
    {one : Collected}
    {token : Token} (takes : Takes vararg tainted list one passed)
    (next : one.next = .token token :: rest) :
    Passes tainted list one.tainted rest (passed ++ [.token token]) := by
  have passes := takes.passes
  rw [next] at passes
  exact passes.trans (Passes.refl one.tainted rest).token

theorem Takes.closes {vararg : Bool} {tainted : Taint} {list passed rest : List Pending}
    {one : Collected}
    {args args' : Args} {whitespace : Bool} (takes : Takes vararg tainted list one passed)
    (next : one.next = .token ⟨.special ")", whitespace⟩ :: rest)
    (filled : ∀ argnum arg, (args' argnum).quoted = some arg →
      (args argnum).quoted = some arg ∨ arg = one.arg) :
    TakesAll tainted list args (.collected args', one.tainted, rest)
      (passed ++ [.token ⟨.special ")", whitespace⟩]) where
  passes := takes.next next
  closed _ _ := ⟨passed, whitespace, rfl⟩
  inside other same argnum arg given := by
    cases same
    rcases filled argnum arg given with before | rfl
    · exact .inl before
    · exact .inr fun token member => mem_append_left _ (takes.inside token member)

theorem quoted_update {args : Args} {n argnum : Nat} {v : Arg} {list arg : List Token}
    (shape : v = Arg.absent ∨ v = Arg.raw list)
    (given : (Function.update args n v argnum).quoted = some arg) :
    (args argnum).quoted = some arg ∨ arg = list := by
  by_cases same : argnum = n
  · rw [same, Function.update_self] at given
    rcases shape with rfl | rfl
    · cases given
    · exact .inr (Option.some.inj given).symm
  · rw [Function.update_of_ne same] at given
    exact .inl given

theorem TakesAll.of_update {tainted after : Taint} {list rest passed passed' : List Pending}
    {args : Args} {n : Nat} {arg : List Token} {result : Call × Taint × List Pending}
    (first : Passes tainted list after rest passed) (inside : ∀ token ∈ arg, .token token ∈ passed)
    (later : TakesAll after rest (Function.update args n (Arg.raw arg)) result passed') :
    TakesAll tainted list args result (passed ++ passed') where
  passes := first.trans later.passes
  closed args' same := by
    obtain ⟨before, whitespace, shape⟩ := later.closed args' same
    exact ⟨passed ++ before, whitespace, by rw [shape, append_assoc]⟩
  inside args' same argnum other given := by
    rcases later.inside args' same argnum other given with old | new
    · rcases quoted_update (.inr rfl) old with before | rfl
      · exact .inl before
      · exact .inr fun token member => mem_append_left _ (inside token member)
    · exact .inr fun token member => mem_append_right _ (new token member)

theorem collectFixed_takes (vararg : Bool) (fixed commas : Nat) (args : Args) (tainted : Taint)
    (list : List Pending) (left : Nat) :
    ∃ passed, TakesAll tainted list args
      (collectFixed vararg fixed commas args tainted list left) passed := by
  induction left generalizing commas args tainted list with
  | zero =>
    obtain ⟨passed, takes⟩ := collectArg_takes true 0 tainted list
    unfold collectFixed
    simp only
    split
    next op whitespace rest next =>
      have closing : op = ")" :=
        (takes.stop op whitespace rest next).resolve_right fun comma => by cases comma.2
      subst closing
      have shape : ∀ p : Prop, [Decidable p] → ∀ v : Arg,
          (if p then Arg.absent else Arg.raw (collectArg true 0 tainted list).arg) = v →
          v = Arg.absent ∨ v = Arg.raw (collectArg true 0 tainted list).arg := by
        intro p _ v chosen
        split at chosen
        · exact .inl chosen.symm
        · exact .inr chosen.symm
      generalize chosen : (if fixed = 0 ∧ (collectArg true 0 tainted list).arg = [] then Arg.absent
        else Arg.raw (collectArg true 0 tainted list).arg) = v
      have known := shape _ v chosen
      split
      · exact ⟨_, TakesAll.fails (takes.next next) fun args' same => by cases same⟩
      · refine ⟨_, takes.closes next ?_⟩
        intro argnum arg given
        cases vararg with
        | false => exact .inl given
        | true => exact quoted_update known given
    next => exact ⟨passed, TakesAll.fails takes.passes fun args' same => by cases same⟩
  | succ left ih =>
    obtain ⟨passed, takes⟩ := collectArg_takes false 0 tainted list
    unfold collectFixed
    simp only
    split
    next op whitespace rest next =>
      split
      next comma =>
        obtain ⟨passed', later⟩ := ih (commas + 1)
          (Function.update args (commas + 1) (Arg.raw (collectArg false 0 tainted list).arg))
          (collectArg false 0 tainted list).tainted rest
        exact ⟨_, TakesAll.of_update (takes.next next)
          (fun token member => mem_append_left _ (takes.inside token member)) later⟩
      next other =>
        have closing : op = ")" :=
          (takes.stop op whitespace rest next).resolve_right fun comma => other comma.1
        subst closing
        split
        · exact ⟨_, TakesAll.fails (takes.next next) fun args' same => by cases same⟩
        · exact ⟨_, takes.closes next fun argnum arg given =>
            quoted_update (.inr rfl) given⟩
    next => exact ⟨passed, TakesAll.fails takes.passes fun args' same => by cases same⟩

theorem collectArguments_takes (fixed : Nat) (vararg : Bool) (tainted : Taint)
    (list : List Pending) :
    ∃ passed, TakesAll tainted list (fun _ => Arg.absent)
      (collectArguments fixed vararg tainted list) passed := by
  obtain ⟨before, scanned⟩ := scanNext_passes tainted list
  unfold collectArguments
  generalize scanNext tainted list = first at scanned ⊢
  obtain ⟨after, rest⟩ := first
  simp only at scanned ⊢
  split
  next whitespace rest =>
    obtain ⟨passed, takes⟩ :=
      collectFixed_takes vararg fixed 0 (fun _ => Arg.absent) after rest fixed
    have opened := scanned.trans (Passes.refl after rest).token
    refine ⟨_, opened.trans takes.passes, ?_, ?_⟩
    · intro args' same
      obtain ⟨front, blank, shape⟩ := takes.closed args' same
      rw [shape]
      exact ⟨_, blank, (append_assoc _ _ _).symm⟩
    · intro args' same argnum arg given
      rcases takes.inside args' same argnum arg given with absent | member
      · cases absent
      · exact .inr fun token inside => mem_append_right _ (member token inside)
  next => exact ⟨_, TakesAll.fails scanned fun args' same => by cases same⟩

end SmatchFormal.Preprocess
