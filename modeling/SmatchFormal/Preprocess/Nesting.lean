import SmatchFormal.Preprocess.Conditionals

/-!
# Nested conditionals

`false_nesting` is zero exactly where all open conditionals have selected the group the lines are
in.  While it is not, lines leave it, the open conditionals and everything else alone; a conditional
that was opened then is closed with the value it was opened with.
-/

namespace SmatchFormal.Preprocess

variable {World Expr Directive Text : Type}

/-- What conditionals depend on and change, apart from the search for a guard. -/
structure At (m : Machine World Expr Directive Text) (falseNesting : Nat) (topIf : List Tag)
    (progress : Progress World Expr Directive Text) : Prop where
  falseNesting : m.falseNesting = falseNesting
  topIf : m.topIf = topIf
  progress : m.progress = progress

section Handlers

variable {m : Machine World Expr Directive Text} {n : Nat} {top : List Tag}
  {p : Progress World Expr Directive Text}

theorem At.dirtyStream (state : At m n top p) : At m.dirtyStream n top p := by
  unfold Machine.dirtyStream
  split
  · exact state
  · exact ⟨state.falseNesting, state.topIf, state.progress⟩

theorem At.endGroup (state : At m n top p) : At m.endGroup n top p := by
  unfold Machine.endGroup
  split
  · exact ⟨state.falseNesting, state.topIf, state.progress⟩
  · exact state

theorem At.lookForGuard (state : At m n top p) (ident : Ident) :
    At (m.lookForGuard ident) n top p := by
  unfold Machine.lookForGuard
  split
  · split
    · exact ⟨state.falseNesting, state.topIf, state.progress⟩
    · split
      · exact ⟨state.falseNesting, state.topIf, state.progress⟩
      · exact state
  · exact state

theorem At.preprocessorIf_select (state : At m 0 top p) :
    At (m.preprocessorIf 1) 0 (.ifTag :: top) p := by
  refine ⟨?_, ?_, state.progress⟩
  · show (if m.falseNesting ≠ 0 ∨ (1 : Int) ≠ 1 then m.falseNesting + 1 else m.falseNesting) = 0
    rw [state.falseNesting, if_neg (by decide)]
  · show (if m.falseNesting ≠ 0 then Tag.skipGroups else Tag.ifTag) :: m.topIf = _
    rw [state.falseNesting, state.topIf, if_neg (by decide)]

theorem At.preprocessorIf_wait (state : At m 0 top p) {cond : Int} (no : cond ≠ 1) :
    At (m.preprocessorIf cond) 1 (.ifTag :: top) p := by
  refine ⟨?_, ?_, state.progress⟩
  · show (if m.falseNesting ≠ 0 ∨ cond ≠ 1 then m.falseNesting + 1 else m.falseNesting) = 1
    rw [if_pos (.inr no), state.falseNesting]
  · show (if m.falseNesting ≠ 0 then Tag.skipGroups else Tag.ifTag) :: m.topIf = _
    rw [state.falseNesting, state.topIf, if_neg (by decide)]

theorem At.preprocessorIf_skip (state : At m (n + 1) top p) (cond : Int) :
    At (m.preprocessorIf cond) (n + 2) (.skipGroups :: top) p := by
  have inside : m.falseNesting ≠ 0 := by
    rw [state.falseNesting]
    exact Nat.succ_ne_zero n
  refine ⟨?_, ?_, state.progress⟩
  · show (if m.falseNesting ≠ 0 ∨ cond ≠ 1 then m.falseNesting + 1 else m.falseNesting) = n + 2
    rw [if_pos (.inl inside), state.falseNesting]
  · show (if m.falseNesting ≠ 0 then Tag.skipGroups else Tag.ifTag) :: m.topIf = _
    rw [if_pos inside, state.topIf]

/-- A conditional whose first condition is `value` was opened. -/
theorem At.preprocessorIf_ofBool (state : At m 0 top p) (value : Bool) :
    At (m.preprocessorIf (Machine.ofBool value)) (if value then 0 else 1) (.ifTag :: top) p := by
  cases value with
  | true => exact state.preprocessorIf_select
  | false => exact state.preprocessorIf_wait (by decide)

variable (sem : Semantics World Expr Directive Text)

theorem At.elif_selected (state : At m 0 (.ifTag :: top) p) (expr : Expr) :
    At (m.handleElif sem expr) 1 (.skipGroups :: top) p := by
  have ended := state.endGroup.dirtyStream
  unfold Machine.handleElif
  rw [state.topIf]
  simp only
  rw [if_neg (by rw [ended.falseNesting]; decide)]
  exact ⟨rfl, rfl, ended.progress⟩

theorem At.elif_waiting (state : At m 1 (.ifTag :: top) p) (expr : Expr) :
    At (m.handleElif sem expr) (if (p.evaluateElif sem expr).1 then 0 else 1) (.ifTag :: top)
      (p.evaluateElif sem expr).2 := by
  have ended := state.endGroup.dirtyStream
  unfold Machine.handleElif
  rw [state.topIf]
  simp only
  rw [if_pos (by rw [ended.falseNesting]; decide), ended.progress]
  exact ⟨rfl, ended.topIf, rfl⟩

theorem At.elif_skip (state : At m n (.skipGroups :: top) p) (expr : Expr) :
    At (m.handleElif sem expr) n (.skipGroups :: top) p := by
  unfold Machine.handleElif
  rw [state.topIf]
  exact state.endGroup.dirtyStream

theorem At.else_selected (state : At m 0 (.ifTag :: top) p) :
    At m.handleElse 1 (.elseTag :: top) p := by
  have ended := state.endGroup
  unfold Machine.handleElse
  rw [state.topIf]
  refine ⟨?_, rfl, ended.progress⟩
  show (if m.endGroup.falseNesting ≠ 0 then _ else 1) = 1
  rw [ended.falseNesting, if_neg (by decide)]

theorem At.else_waiting (state : At m 1 (.ifTag :: top) p) :
    At m.handleElse 0 (.elseTag :: top) p := by
  have ended := state.endGroup
  unfold Machine.handleElse
  rw [state.topIf]
  refine ⟨?_, rfl, ended.progress⟩
  show (if m.endGroup.falseNesting ≠ 0 then (if Tag.ifTag = .ifTag then 0 else _) else 1) = 0
  rw [ended.falseNesting, if_pos (by decide), if_pos rfl]

theorem At.else_skip (state : At m (n + 1) (.skipGroups :: top) p) :
    At m.handleElse (n + 1) (.elseTag :: top) p := by
  have ended := state.endGroup
  unfold Machine.handleElse
  rw [state.topIf]
  refine ⟨?_, rfl, ended.progress⟩
  show (if m.endGroup.falseNesting ≠ 0 then
    (if Tag.skipGroups = .ifTag then 0 else m.endGroup.falseNesting) else 1) = n + 1
  rw [ended.falseNesting, if_pos (Nat.succ_ne_zero n), if_neg (by decide)]

theorem At.endif {tag : Tag} (state : At m n (tag :: top) p) : At m.handleEndif (n - 1) top p := by
  have ended := state.endGroup
  unfold Machine.handleEndif
  rw [state.topIf]
  refine ⟨?_, rfl, ended.progress⟩
  show m.endGroup.falseNesting - 1 = n - 1
  rw [ended.falseNesting]

theorem At.directive_select (state : At m 0 top p) (directive : Directive) :
    At (m.step sem (.directive directive)) 0 top (p.perform sem directive) := by
  have dirty := state.dirtyStream
  show At (if m.dirtyStream.falseNesting ≠ 0 then _ else _) 0 top _
  rw [if_neg (by rw [dirty.falseNesting]; decide)]
  exact ⟨dirty.falseNesting, dirty.topIf, by rw [dirty.progress]⟩

theorem At.text_select (state : At m 0 top p) (text : Text) :
    At (m.step sem (.text text)) 0 top (p.emit sem text) := by
  have dirty := state.dirtyStream
  show At (if m.dirtyStream.falseNesting ≠ 0 then _ else _) 0 top _
  rw [if_neg (by rw [dirty.falseNesting]; decide)]
  exact ⟨dirty.falseNesting, dirty.topIf, by rw [dirty.progress]⟩

theorem At.directive_skip (state : At m (n + 1) top p) (directive : Directive) :
    At (m.step sem (.directive directive)) (n + 1) top p := by
  have dirty := state.dirtyStream
  show At (if m.dirtyStream.falseNesting ≠ 0 then _ else _) (n + 1) top _
  rw [if_pos (by rw [dirty.falseNesting]; exact Nat.succ_ne_zero n)]
  exact dirty

theorem At.text_skip (state : At m (n + 1) top p) (text : Text) :
    At (m.step sem (.text text)) (n + 1) top p := by
  have dirty := state.dirtyStream
  show At (if m.dirtyStream.falseNesting ≠ 0 then _ else _) (n + 1) top _
  rw [if_pos (by rw [dirty.falseNesting]; exact Nat.succ_ne_zero n)]
  exact dirty

/-- The head of a conditional in lines that are processed. -/
theorem At.head_select (state : At m 0 top p) (head : Head Expr) :
    At (m.step sem head.line) (if (head.holds sem p).1 then 0 else 1) (.ifTag :: top)
      (head.holds sem p).2 := by
  cases head with
  | ifHead expr =>
    show At (m.handleIf sem expr) _ _ _
    unfold Machine.handleIf
    rw [if_pos state.falseNesting, state.progress]
    have evaluated : At { m with progress := (p.evaluateIf sem expr).2 } 0 top
        (p.evaluateIf sem expr).2 := ⟨state.falseNesting, state.topIf, rfl⟩
    exact evaluated.dirtyStream.preprocessorIf_ofBool _
  | ifdefHead ident =>
    cases ident with
    | none => exact state.dirtyStream.preprocessorIf_wait (by decide)
    | some ident =>
      show At (m.preprocessorIf (Machine.ofBool (sem.defined ident m.progress.world))) _ _ _
      rw [state.progress]
      exact state.preprocessorIf_ofBool _
  | ifndefHead ident =>
    cases ident with
    | none => exact state.dirtyStream.preprocessorIf_wait (by decide)
    | some ident =>
      show At ((m.lookForGuard ident).preprocessorIf
        (Machine.ofBool (!sem.defined ident m.progress.world))) _ _ _
      rw [state.progress]
      exact (state.lookForGuard ident).preprocessorIf_ofBool _

/-- The head of a conditional in lines that are not processed. -/
theorem At.head_skip (state : At m (n + 1) top p) (head : Head Expr) :
    At (m.step sem head.line) (n + 2) (.skipGroups :: top) p := by
  cases head with
  | ifHead expr =>
    show At (m.handleIf sem expr) _ _ _
    unfold Machine.handleIf
    rw [if_neg (by rw [state.falseNesting]; exact Nat.succ_ne_zero n)]
    exact state.dirtyStream.preprocessorIf_skip 0
  | ifdefHead ident =>
    cases ident with
    | none => exact state.dirtyStream.preprocessorIf_skip _
    | some ident => exact state.preprocessorIf_skip _
  | ifndefHead ident =>
    cases ident with
    | none => exact state.dirtyStream.preprocessorIf_skip _
    | some ident => exact (state.lookForGuard ident).preprocessorIf_skip _

end Handlers

section Runs

variable (sem : Semantics World Expr Directive Text)

theorem Machine.run_append (m : Machine World Expr Directive Text)
    (one other : List (Line Expr Directive Text)) :
    m.run sem (one ++ other) = (m.run sem one).run sem other := List.foldl_append

theorem Machine.run_cons (m : Machine World Expr Directive Text) (line : Line Expr Directive Text)
    (lines : List (Line Expr Directive Text)) :
    m.run sem (line :: lines) = (m.step sem line).run sem lines := rfl

mutual

/-- Lines in a group that is not selected change nothing. -/
theorem Group.skip (group : Group Expr Directive Text) {m : Machine World Expr Directive Text}
    {n : Nat} {top : List Tag} {p : Progress World Expr Directive Text}
    (state : At m (n + 1) top p) : At (m.run sem group.lines) (n + 1) top p := by
  cases group with
  | nil => exact state
  | directive directive rest => exact rest.skip (state.directive_skip sem directive)
  | text text rest => exact rest.skip (state.text_skip sem text)
  | conditional head body others rest =>
    have opened := body.skip (state.head_skip sem head)
    have closed := others.skip opened
    show At (m.run sem (head.line :: (body.lines ++ (others.lines ++ rest.lines)))) _ _ _
    rw [Machine.run_cons, Machine.run_append, Machine.run_append]
    exact rest.skip closed

/-- The later groups of a conditional that was opened there, up to its `#endif`. -/
theorem Others.skip (others : Others Expr Directive Text)
    {m : Machine World Expr Directive Text} {n : Nat} {top : List Tag}
    {p : Progress World Expr Directive Text} (state : At m (n + 1) (.skipGroups :: top) p) :
    At (m.run sem others.lines) n top p := by
  cases others with
  | endif => exact state.endif
  | elif expr body others =>
    have inside := body.skip (state.elif_skip sem expr)
    show At (m.run sem (.elifLine expr :: (body.lines ++ others.lines))) _ _ _
    rw [Machine.run_cons, Machine.run_append]
    exact others.skip inside
  | els body =>
    have inside := body.skip state.else_skip
    show At (m.run sem (.elseLine :: (body.lines ++ [.endifLine]))) _ _ _
    rw [Machine.run_cons, Machine.run_append]
    exact inside.endif

end

/-- The later groups of a conditional whose selected group is over. -/
theorem Others.selected (others : Others Expr Directive Text)
    {m : Machine World Expr Directive Text} {top : List Tag}
    {p : Progress World Expr Directive Text} (state : At m 0 (.ifTag :: top) p) :
    At (m.run sem others.lines) 0 top p := by
  cases others with
  | endif => exact state.endif
  | elif expr body others =>
    have inside := body.skip sem (state.elif_selected sem expr)
    show At (m.run sem (.elifLine expr :: (body.lines ++ others.lines))) _ _ _
    rw [Machine.run_cons, Machine.run_append]
    exact others.skip sem inside
  | els body =>
    have inside := body.skip sem state.else_selected
    show At (m.run sem (.elseLine :: (body.lines ++ [.endifLine]))) _ _ _
    rw [Machine.run_cons, Machine.run_append]
    exact inside.endif

mutual

/-- Lines in a group that is selected do what they mean. -/
theorem Group.select (group : Group Expr Directive Text) {m : Machine World Expr Directive Text}
    {top : List Tag} {p : Progress World Expr Directive Text} (state : At m 0 top p) :
    At (m.run sem group.lines) 0 top (group.process sem p) := by
  cases group with
  | nil => exact state
  | directive directive rest => exact rest.select (state.directive_select sem directive)
  | text text rest => exact rest.select (state.text_select sem text)
  | conditional head body others rest =>
    have opened := state.head_select sem head
    show At (m.run sem (head.line :: (body.lines ++ (others.lines ++ rest.lines)))) _ _
      (rest.process sem (if (head.holds sem p).1 then body.process sem (head.holds sem p).2
        else others.process sem (head.holds sem p).2))
    rw [Machine.run_cons, Machine.run_append, Machine.run_append]
    cases value : (head.holds sem p).1 with
    | true =>
      rw [value] at opened
      exact rest.select (others.selected sem (body.select opened))
    | false =>
      rw [value] at opened
      exact rest.select (others.wait (body.skip sem opened))

/-- The later groups of a conditional of which no group was selected. -/
theorem Others.wait (others : Others Expr Directive Text)
    {m : Machine World Expr Directive Text} {top : List Tag}
    {p : Progress World Expr Directive Text} (state : At m 1 (.ifTag :: top) p) :
    At (m.run sem others.lines) 0 top (others.process sem p) := by
  cases others with
  | endif => exact state.endif
  | elif expr body others =>
    have evaluated := state.elif_waiting sem expr
    show At (m.run sem (.elifLine expr :: (body.lines ++ others.lines))) _ _
      (if (p.evaluateElif sem expr).1 then body.process sem (p.evaluateElif sem expr).2
        else others.process sem (p.evaluateElif sem expr).2)
    rw [Machine.run_cons, Machine.run_append]
    cases value : (p.evaluateElif sem expr).1 with
    | true =>
      rw [value] at evaluated
      exact others.selected sem (body.select evaluated)
    | false =>
      rw [value] at evaluated
      exact others.wait (body.skip sem evaluated)
  | els body =>
    have inside := body.select state.else_waiting
    show At (m.run sem (.elseLine :: (body.lines ++ [.endifLine]))) _ _ _
    rw [Machine.run_cons, Machine.run_append]
    exact inside.endif

end

end Runs

/-- Well-nested lines are processed, and conditions evaluated, as they mean where everything around
them is selected, and not at all elsewhere; `false_nesting` and the open conditionals are after them
what they were before. -/
theorem group_run (sem : Semantics World Expr Directive Text) (group : Group Expr Directive Text)
    (m : Machine World Expr Directive Text) :
    (m.run sem group.lines).falseNesting = m.falseNesting ∧
      (m.run sem group.lines).topIf = m.topIf ∧
      (m.run sem group.lines).progress =
        if m.falseNesting = 0 then group.process sem m.progress else m.progress := by
  cases nesting : m.falseNesting with
  | zero =>
    have state := group.select sem (m := m) ⟨nesting, rfl, rfl⟩
    exact ⟨state.falseNesting, state.topIf, state.progress⟩
  | succ n =>
    have state := group.skip sem (m := m) ⟨nesting, rfl, rfl⟩
    exact ⟨state.falseNesting, state.topIf, state.progress⟩

end SmatchFormal.Preprocess
