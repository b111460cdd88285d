import SmatchFormal.Preprocess.Guards
import SmatchFormal.Preprocess.Nesting

/-!
# Include guards are sound

A stream that is read again where its guard is defined is compared with its first run.  Outside of
the groups of the guard the first run has seen nothing but conditionals, and in these groups the
second run skips everything.
-/

namespace SmatchFormal.Preprocess

variable {World Expr Directive Text : Type}

/-! ## The run that skips the groups of the guard -/

structure Skips (m : Machine World Expr Directive Text) (inner : Nat)
    (p : Progress World Expr Directive Text) : Prop where
  skipped : ∃ n top, At m (n + 1) top p ∧ inner ≤ n ∧ ∀ tag ∈ top.take inner, tag ≠ .ifTag

section Skipping

variable {m : Machine World Expr Directive Text} {n inner : Nat} {top : List Tag}
  {p : Progress World Expr Directive Text} (sem : ArgSemantics World Expr Directive Text)

theorem At.else_again (state : At m (n + 1) (.elseTag :: top) p) :
    At m.handleElse (n + 1) (.elseTag :: top) p := by
  have ended := state.endGroup
  unfold Machine.handleElse
  rw [state.topIf]
  refine ⟨?_, rfl, ended.progress⟩
  show (if m.endGroup.falseNesting ≠ 0 then
    (if Tag.elseTag = .ifTag then 0 else m.endGroup.falseNesting) else 1) = n + 1
  rw [ended.falseNesting, if_pos (Nat.succ_ne_zero n), if_neg (by decide)]

theorem At.elif_again (state : At m (n + 1) (.elseTag :: top) p) (expr : Expr) :
    At (m.handleElif sem.toSemantics expr) (n + 1) (.elseTag :: top) p := by
  have ended := state.endGroup
  unfold Machine.handleElif
  rw [state.topIf]
  refine ⟨?_, ended.topIf, ended.progress⟩
  show (if m.endGroup.falseNesting = 0 then 1 else m.endGroup.falseNesting) = n + 1
  rw [ended.falseNesting, if_neg (Nat.succ_ne_zero n)]

theorem Skips.progress (skips : Skips m inner p) : m.progress = p := by
  obtain ⟨n, top, state, -, -⟩ := skips.skipped
  exact state.progress

/-- A conditional that is opened there is skipped too. -/
theorem Skips.head (skips : Skips m inner p) (head : Head Expr) :
    Skips (m.step sem.toSemantics head.line) (inner + 1) p := by
  obtain ⟨n, top, state, low, tags⟩ := skips.skipped
  refine ⟨n + 1, _, state.head_skip sem.toSemantics head, Nat.succ_le_succ low, ?_⟩
  intro tag member
  rw [List.take_succ_cons] at member
  obtain rfl | later := List.mem_cons.mp member
  · decide
  · exact tags tag later

theorem Skips.directive (skips : Skips m inner p) (directive : Directive) :
    Skips (m.step sem.toSemantics (.directive directive)) inner p := by
  obtain ⟨n, top, state, low, tags⟩ := skips.skipped
  exact ⟨n, top, state.directive_skip sem.toSemantics directive, low, tags⟩

theorem Skips.text (skips : Skips m inner p) (text : Text) :
    Skips (m.take sem (.text text)) inner p := by
  obtain ⟨n, top, state, low, tags⟩ := skips.skipped
  show Skips (if sem.collecting m.progress.world then m.collectArg sem text
    else m.step sem.toSemantics (.text text)) inner p
  split
  · unfold Machine.collectArg
    rw [if_pos (by rw [state.falseNesting]; exact Nat.succ_ne_zero n)]
    exact skips
  · exact ⟨n, top, state.text_skip sem.toSemantics text, low, tags⟩

theorem Skips.elif (skips : Skips m (inner + 1) p) (expr : Expr) :
    Skips (m.handleElif sem.toSemantics expr) (inner + 1) p := by
  obtain ⟨n, top, state, low, tags⟩ := skips.skipped
  cases top with
  | nil =>
    have ended := state.endGroup
    refine ⟨n, [], ?_, low, tags⟩
    unfold Machine.handleElif
    rw [state.topIf]
    exact ⟨ended.falseNesting, ended.topIf, ended.progress⟩
  | cons tag outer =>
    cases tag with
    | ifTag => exact (tags .ifTag List.mem_cons_self rfl).elim
    | skipGroups => exact ⟨n, _, state.elif_skip sem.toSemantics expr, low, tags⟩
    | elseTag => exact ⟨n, _, state.elif_again sem expr, low, tags⟩

theorem Skips.els (skips : Skips m (inner + 1) p) : Skips m.handleElse (inner + 1) p := by
  obtain ⟨n, top, state, low, tags⟩ := skips.skipped
  cases top with
  | nil =>
    have ended := state.endGroup
    refine ⟨n, [], ?_, low, tags⟩
    unfold Machine.handleElse
    rw [state.topIf]
    exact ⟨ended.falseNesting, ended.topIf, ended.progress⟩
  | cons tag outer =>
    cases tag with
    | ifTag => exact (tags .ifTag List.mem_cons_self rfl).elim
    | skipGroups =>
      refine ⟨n, _, state.else_skip, low, fun tag member => ?_⟩
      rw [List.take_succ_cons] at member
      obtain rfl | later := List.mem_cons.mp member
      · decide
      · exact tags tag (List.mem_cons_of_mem _ later)
    | elseTag => exact ⟨n, _, state.else_again, low, tags⟩

theorem Skips.endif (skips : Skips m (inner + 1) p) (opened : m.topIf ≠ []) :
    Skips m.handleEndif inner p := by
  obtain ⟨n, top, state, low, tags⟩ := skips.skipped
  cases top with
  | nil => exact (opened state.topIf).elim
  | cons tag outer =>
    cases n with
    | zero => exact (Nat.not_succ_le_zero _ low).elim
    | succ n =>
      refine ⟨n, outer, state.endif, Nat.le_of_succ_le_succ low, fun other member => ?_⟩
      refine tags other ?_
      rw [List.take_succ_cons]
      exact List.mem_cons_of_mem _ member

/-- The guard is defined when its group is opened. -/
theorem Skips.guard (state : At m n top p) {ident : Ident}
    (defined : sem.defined ident p.world = true) :
    Skips (m.step sem.toSemantics (.ifndefLine (some ident))) 0 p := by
  have value : (!sem.defined ident m.progress.world) = false := by
    rw [state.progress, defined]
    rfl
  show Skips ((m.lookForGuard ident).preprocessorIf (Machine.ofBool
    (!sem.defined ident m.progress.world))) 0 p
  rw [value]
  have look := state.lookForGuard ident
  cases n with
  | zero =>
    refine ⟨0, _, look.preprocessorIf_wait (by decide), Nat.le_refl _, fun tag member => ?_⟩
    cases member
  | succ n =>
    refine ⟨n + 1, _, look.preprocessorIf_skip _, Nat.zero_le _, fun tag member => ?_⟩
    cases member

end Skipping

section Both

variable (sem : ArgSemantics World Expr Directive Text)

/-- The second run after lines that have left the fields of the stream so in the first one: it has
done nothing, and skips the group of a guard that is defined. -/
structure Follows (g : Marks) (depth : Nat) (m : Machine World Expr Directive Text)
    (p : Progress World Expr Directive Text) : Prop where
  length : m.topIf.length = depth
  progress : m.progress = p
  placed : g.Placed depth
  guard : ∀ n ident, g.ifndef = some n → g.protect = some ident →
    sem.defined ident p.world = true → Skips m (depth - n) p

variable {sem} {g : Marks} {topIf : List Tag} {m : Machine World Expr Directive Text}
  {p : Progress World Expr Directive Text}

/-- A line that makes the stream dirty, but not for good, is in the group of a guard. -/
theorem Follows.dirty (follows : Follows sem g topIf.length m p) (alive : ¬ g.dirtyStream.Dead)
    (defined : ∀ ident, g.dirtyStream.Committed ident → sem.defined ident p.world = true) :
    ∃ n ident, g.ifndef = some n ∧ g.dirtyStream.ifndef = some n ∧
      g.dirtyStream.protect = some ident ∧ 1 ≤ n ∧ n ≤ topIf.length ∧
        Skips m (topIf.length - n) p := by
  obtain dead | ⟨n, opened, same, protect, dirty⟩ := g.dirtyStream_cases
  · exact (alive dead).elim
  · obtain ⟨low, high, ident, guard⟩ := follows.placed n opened
    have known : g.dirtyStream.protect = some ident := protect.trans guard
    refine ⟨n, ident, opened, same, known, low, high, ?_⟩
    exact follows.guard n ident opened guard (defined ident ⟨known, .inl dirty⟩)

/-- After such a line the guard is the same, and the second run skips on. -/
theorem Follows.of_skips {n depth : Nat} {ident : Ident} (opened : g.ifndef = some n)
    (protect : g.protect = some ident) (low : 1 ≤ n) (high : n ≤ depth)
    (skips : Skips m (depth - n) p) (length : m.topIf.length = depth) :
    Follows sem g depth m p where
  length := length
  progress := skips.progress
  placed := fun k same => by
    cases opened.symm.trans same
    exact ⟨low, high, ident, protect⟩
  guard := fun k other same _ _ => by
    cases opened.symm.trans same
    exact skips

theorem progress_handleElse (m : Machine World Expr Directive Text) :
    m.handleElse.progress = m.progress := by
  have ended : m.endGroup.progress = m.progress := by
    unfold Machine.endGroup
    split <;> rfl
  unfold Machine.handleElse
  cases m.topIf with
  | nil => exact ended
  | cons tag outer =>
    show (if tag = .elseTag then m.endGroup.nestingError else m.endGroup).progress = _
    split
    · exact ended
    · exact ended

theorem progress_handleEndif (m : Machine World Expr Directive Text) :
    m.handleEndif.progress = m.progress := by
  have ended : m.endGroup.progress = m.progress := by
    unfold Machine.endGroup
    split <;> rfl
  unfold Machine.handleEndif
  cases m.topIf with
  | nil => exact ended
  | cons tag outer => exact ended

theorem topIf_take (line : Line Expr Directive Text) (skips : ∀ text, line = .text text →
    ∃ inner, Skips m inner p) :
    (m.take sem line).topIf.length = nextDepth m.topIf.length line := by
  cases line with
  | text text =>
    obtain ⟨inner, n, top, state, -, -⟩ := skips text rfl
    show List.length (Machine.topIf (if sem.collecting m.progress.world then
      m.collectArg sem text else m.step sem.toSemantics (.text text))) = m.topIf.length
    split
    · unfold Machine.collectArg
      rw [if_pos (by rw [state.falseNesting]; exact Nat.succ_ne_zero n)]
    · exact (m.step_marks sem (.text text)).2
  | ifLine | ifdefLine | ifndefLine | elifLine | elseLine | endifLine | directive =>
    exact (m.step_marks sem _).2

theorem Follows.head (follows : Follows sem g topIf.length m p) (head : Head Expr)
    (still : (m.step sem.toSemantics head.line).progress = p)
    (length : (m.step sem.toSemantics head.line).topIf.length = topIf.length + 1) :
    Follows sem g (topIf.length + 1) (m.step sem.toSemantics head.line) p where
  length := length
  progress := still
  placed := fun n same => by
    obtain ⟨low, high, guard⟩ := follows.placed n same
    exact ⟨low, Nat.le_succ_of_le high, guard⟩
  guard := fun n ident same protect defined => by
    have skips := (follows.guard n ident same protect defined).head sem head
    rw [Nat.succ_sub (follows.placed n same).2.1]
    exact skips

/-- The end of a group, of the guard or inside of it. -/
theorem Marks.endGroup_cases (g : Marks) (depth : Nat) :
    (g.endGroup depth).ifndef = none ∨ (g.endGroup depth = g ∧ g.ifndef ≠ some depth) := by
  unfold Marks.endGroup
  split
  next => exact .inl rfl
  next other => exact .inr ⟨rfl, other⟩

/-- A guard that does not end there is around the innermost conditional. -/
theorem Follows.inner {n depth : Nat} (opened : g.ifndef = some n)
    (outer : g.ifndef ≠ some depth) (high : n ≤ depth) : ∃ k, depth - n = k + 1 := by
  have different : n ≠ depth := by
    rintro rfl
    exact outer opened
  exact ⟨depth - n - 1, by omega⟩

theorem Follows.take (follows : Follows sem g topIf.length m p) (line : Line Expr Directive Text)
    (alive : ¬ (g.next topIf line).Dead)
    (defined : ∀ ident, (g.next topIf line).Committed ident →
      sem.defined ident p.world = true) :
    Follows sem (g.next topIf line) (nextDepth topIf.length line) (m.take sem line) p := by
  have depth := follows.length
  cases line with
  | ifLine expr =>
    have length : (m.step sem.toSemantics (.ifLine expr)).topIf.length = topIf.length + 1 :=
      (m.step_marks sem (.ifLine expr)).2.trans (congrArg (· + 1) depth)
    obtain ⟨n, ident, -, opened, protect, low, high, skips⟩ := follows.dirty alive defined
    have more := skips.head sem (.ifHead expr)
    rw [← Nat.sub_add_comm high] at more
    exact .of_skips opened protect low (Nat.le_succ_of_le high) more length
  | ifdefLine ident =>
    have length : (m.step sem.toSemantics (.ifdefLine ident)).topIf.length =
        topIf.length + 1 :=
      (m.step_marks sem (.ifdefLine ident)).2.trans (congrArg (· + 1) depth)
    cases ident with
    | none =>
      obtain ⟨n, ident, -, opened, protect, low, high, skips⟩ := follows.dirty alive defined
      have more := skips.head sem (.ifdefHead none)
      rw [← Nat.sub_add_comm high] at more
      exact .of_skips opened protect low (Nat.le_succ_of_le high) more length
    | some ident => exact follows.head (.ifdefHead (some ident)) follows.progress length
  | ifndefLine ident =>
    have length : (m.step sem.toSemantics (.ifndefLine ident)).topIf.length =
        topIf.length + 1 :=
      (m.step_marks sem (.ifndefLine ident)).2.trans (congrArg (· + 1) depth)
    cases ident with
    | none =>
      obtain ⟨n, ident, -, opened, protect, low, high, skips⟩ := follows.dirty alive defined
      have more := skips.head sem (.ifndefHead none)
      rw [← Nat.sub_add_comm high] at more
      exact .of_skips opened protect low (Nat.le_succ_of_le high) more length
    | some ident =>
      have state : At m m.falseNesting m.topIf p := ⟨rfl, rfl, follows.progress⟩
      have still : (m.step sem.toSemantics (.ifndefLine (some ident))).progress = p :=
        (state.lookForGuard ident).progress
      show Follows sem (g.lookForGuard topIf.length ident) (topIf.length + 1) _ p
      have new : ∀ dirty, Follows sem ⟨dirty, some (topIf.length + 1), some ident⟩
          (topIf.length + 1) (m.step sem.toSemantics (.ifndefLine (some ident))) p := by
        intro dirty
        refine ⟨length, still, fun n same => ?_, fun n other same protect defined => ?_⟩
        · cases same
          exact ⟨Nat.le_add_left _ _, Nat.le_refl _, ident, rfl⟩
        · cases same
          cases protect
          rw [Nat.sub_self]
          exact Skips.guard sem state defined
      have old := follows.head (.ifndefHead (some ident)) still length
      unfold Marks.lookForGuard
      split
      · split
        · exact new _
        · split
          next equal =>
            subst equal
            exact new _
          next => exact old
      · exact old
  | elifLine expr =>
    have length : (m.handleElif sem.toSemantics expr).topIf.length = topIf.length :=
      (m.step_marks sem (.elifLine expr)).2.trans depth
    have inner : ¬ (g.endGroup topIf.length).dirtyStream.Dead →
        (∀ ident, (g.endGroup topIf.length).dirtyStream.Committed ident →
          sem.defined ident p.world = true) →
        Follows sem (g.endGroup topIf.length).dirtyStream topIf.length
          (m.handleElif sem.toSemantics expr) p := by
      intro alive defined
      obtain none | ⟨same, outer⟩ := g.endGroup_cases topIf.length
      · obtain dead | ⟨n, opened, -⟩ := (g.endGroup topIf.length).dirtyStream_cases
        · exact (alive dead).elim
        · cases none.symm.trans opened
      · rw [same] at alive defined ⊢
        obtain ⟨n, ident, here, opened, protect, low, high, skips⟩ :=
          follows.dirty alive defined
        obtain ⟨k, more⟩ := Follows.inner here outer high
        rw [more] at skips
        have next := skips.elif sem expr
        rw [← more] at next
        exact .of_skips opened protect low high next length
    cases topIf with
    | nil => exact (alive Marks.dead_nestingError).elim
    | cons tag outer =>
      cases tag with
      | elseTag => exact (alive Marks.dead_nestingError).elim
      | skipGroups => exact inner alive defined
      | ifTag => exact inner alive defined
  | elseLine =>
    have length : m.handleElse.topIf.length = topIf.length :=
      (m.step_marks sem .elseLine).2.trans depth
    have still := (progress_handleElse m).trans follows.progress
    have inner : Follows sem (g.endGroup topIf.length) topIf.length m.handleElse p := by
      obtain none | ⟨same, outer⟩ := g.endGroup_cases topIf.length
      · refine ⟨length, still, fun n opened => ?_, fun n ident opened => ?_⟩
        · cases none.symm.trans opened
        · cases none.symm.trans opened
      · rw [same]
        refine ⟨length, still, follows.placed, fun n ident opened protect defined => ?_⟩
        obtain ⟨k, more⟩ := Follows.inner opened outer (follows.placed n opened).2.1
        have skips := follows.guard n ident opened protect defined
        rw [more] at skips ⊢
        exact skips.els
    cases topIf with
    | nil => exact (alive Marks.dead_nestingError).elim
    | cons tag outer =>
      cases tag with
      | elseTag => exact (alive Marks.dead_nestingError).elim
      | skipGroups => exact inner
      | ifTag => exact inner
  | endifLine =>
    have length : m.handleEndif.topIf.length = topIf.length - 1 :=
      (m.step_marks sem .endifLine).2.trans (congrArg (· - 1) depth)
    have still := (progress_handleEndif m).trans follows.progress
    by_cases empty : topIf = []
    · subst empty
      exact (alive Marks.dead_nestingError).elim
    · have opened' : m.topIf ≠ [] := by
        intro none
        rw [none] at depth
        exact empty (List.length_eq_zero_iff.mp depth.symm)
      show Follows sem (if topIf = [] then Marks.nestingError else g.endGroup topIf.length)
        (topIf.length - 1) m.handleEndif p
      rw [if_neg empty]
      obtain none | ⟨same, outer⟩ := g.endGroup_cases topIf.length
      · refine ⟨length, still, fun n opened => ?_, fun n ident opened => ?_⟩
        · cases none.symm.trans opened
        · cases none.symm.trans opened
      · rw [same]
        refine ⟨length, still, fun n opened => ?_, fun n ident opened protect defined => ?_⟩
        · obtain ⟨low, high, guard⟩ := follows.placed n opened
          obtain ⟨k, more⟩ := Follows.inner opened outer high
          exact ⟨low, by omega, guard⟩
        · obtain ⟨k, more⟩ := Follows.inner opened outer (follows.placed n opened).2.1
          have skips := follows.guard n ident opened protect defined
          rw [more] at skips
          have next := skips.endif opened'
          rw [show topIf.length - 1 - n = k by omega]
          exact next
  | directive directive =>
    have length : (m.step sem.toSemantics (.directive directive)).topIf.length = topIf.length :=
      (m.step_marks sem (.directive directive)).2.trans depth
    obtain ⟨n, ident, -, opened, protect, low, high, skips⟩ := follows.dirty alive defined
    exact .of_skips opened protect low high (skips.directive sem directive) length
  | text text =>
    obtain ⟨n, ident, -, opened, protect, low, high, skips⟩ := follows.dirty alive defined
    have length : (m.take sem (.text text)).topIf.length = topIf.length :=
      (topIf_take (.text text) fun _ _ => ⟨_, skips⟩).trans depth
    exact .of_skips opened protect low high (skips.text sem text) length

end Both

section Verdict

variable (sem : ArgSemantics World Expr Directive Text)

theorem Machine.takeAll_cons (m : Machine World Expr Directive Text)
    (line : Line Expr Directive Text) (lines : List (Line Expr Directive Text)) :
    m.takeAll sem (line :: lines) = (m.take sem line).takeAll sem lines := rfl

/-- A stream that is dirty for good is so at its end, and a guard stays the same. -/
theorem takeAll_marks (lines : List (Line Expr Directive Text))
    {m : Machine World Expr Directive Text} (covered : m.Covered sem lines) :
    (m.marks.Dead → (m.takeAll sem lines).marks.Dead) ∧
      ∀ ident, m.marks.Committed ident → (m.takeAll sem lines).marks.Committed ident ∨
        (m.takeAll sem lines).marks.Dead := by
  induction lines generalizing m with
  | nil => exact ⟨id, fun ident committed => .inl committed⟩
  | cons line lines ih =>
    have marks := (m.take_marks sem covered.1).1
    obtain ⟨dead, committed⟩ := ih covered.2
    rw [Machine.takeAll_cons]
    constructor
    · intro now
      refine dead ?_
      rw [marks]
      exact now.next m.topIf line
    · intro ident now
      obtain still | never := now.next m.topIf line
      · exact committed ident (marks ▸ still)
      · exact .inr (dead (marks ▸ never))

/-- At the end of a constant stream no conditional is open and the stream is not dirty. -/
theorem Machine.Constant.marks {m : Machine World Expr Directive Text} (constant : m.Constant) :
    m.streamEnd = m ∧ ¬ m.marks.Dead := by
  unfold Machine.Constant at constant
  have same : m.streamEnd = m := by
    unfold Machine.streamEnd at constant ⊢
    split at constant
    next => cases constant
    next closed => exact if_neg closed
  rw [same] at constant
  exact ⟨same, fun dead => Bool.false_ne_true (constant.symm.trans dead.1)⟩

theorem Follows.takeAll {p : Progress World Expr Directive Text}
    (lines : List (Line Expr Directive Text)) {first second : Machine World Expr Directive Text}
    (follows : Follows sem first.marks first.topIf.length second p)
    (covered : first.Covered sem lines) (constant : (first.takeAll sem lines).Constant)
    (defined : ∀ ident, (first.takeAll sem lines).streamEnd.protect = some ident →
      sem.defined ident p.world = true) : (second.takeAll sem lines).progress = p := by
  induction lines generalizing first second with
  | nil => exact follows.progress
  | cons line lines ih =>
    obtain ⟨marks, length⟩ := first.take_marks sem covered.1
    obtain ⟨dead, committed⟩ := takeAll_marks sem lines covered.2
    obtain ⟨same, alive⟩ := constant.marks
    have next := follows.take line (fun never => alive (dead (marks ▸ never))) fun ident now => by
      obtain still | never := committed ident (marks ▸ now)
      · refine defined ident ?_
        rw [same]
        exact still.1
      · exact (alive never).elim
    rw [← marks, ← length] at next
    exact ih next covered.2 constant defined

/-- When `collect_arg` has passed tokens of a stream only while the stream was dirty, a stream that
`already_tokenized` finds would do nothing when it is read again. -/
theorem idle_of_alreadyTokenized (lines : List (Line Expr Directive Text))
    (p : Progress World Expr Directive Text) (covered : (Machine.fresh p).Covered sem lines)
    (world : World)
    (skipped : alreadyTokenized sem ((Machine.fresh p).takeAll sem lines) world) :
    Idle sem lines world := by
  have start : Follows sem (Machine.fresh p).marks (Machine.fresh p).topIf.length
      (Machine.fresh ⟨world, []⟩) ⟨world, []⟩ := by
    refine ⟨rfl, rfl, fun n opened => ?_, fun n ident opened => ?_⟩
    · cases opened
    · cases opened
  exact start.takeAll sem lines covered skipped.1 skipped.2

end Verdict

section Demo

/-- The words of the examples: the name of a macro with one parameter and an empty body, an
identifier and the parentheses. -/
inductive Word
  | call
  | opening
  | other
  | closing

structure Demo where
  guard : Bool
  taking : Bool

/-- The only directive defines the guard. -/
def demo : ArgSemantics Demo Unit Unit Word where
  evaluate := fun _ w => (false, w)
  defined := fun _ w => w.guard
  perform := fun _ w => ⟨true, w.taking⟩
  emit
    | .call, w => ⟨w.guard, true⟩
    | .closing, w => ⟨w.guard, false⟩
    | _, w => w
  collecting := fun w => w.taking
  shows := fun _ _ => false

def guarded : List (Line Unit Unit Word) :=
  [.ifndefLine (some "GUARD"), .directive (), .text .other, .endifLine]

def spanning : List (Line Unit Unit Word) :=
  [.ifndefLine (some "GUARD"), .directive (), .text .call, .text .opening, .endifLine, .text .other,
    .text .closing]

theorem idle_of_alreadyTokenized_guarded : Idle demo guarded ⟨true, false⟩ := by
  refine idle_of_alreadyTokenized demo guarded ⟨⟨false, false⟩, []⟩ ?_ _ ⟨rfl, fun _ _ => rfl⟩
  refine ⟨fun text same => ?_, fun text same => ?_, fun text same taking => ?_,
    fun text same => ?_, trivial⟩
  · cases same
  · cases same
  · cases taking
  · cases same

/-- The second run emits the argument of the call. -/
theorem spanning_not_idle :
    alreadyTokenized demo ((Machine.fresh ⟨⟨false, false⟩, []⟩).takeAll demo spanning)
      ⟨true, false⟩ ∧ ¬ Idle demo spanning ⟨true, false⟩ := by
  refine ⟨⟨rfl, fun _ _ => rfl⟩, fun idle => ?_⟩
  exact Nat.succ_ne_zero _ (congrArg (fun p => p.trace.length) idle)

end Demo

end SmatchFormal.Preprocess
