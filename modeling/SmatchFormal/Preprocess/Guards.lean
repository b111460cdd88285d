import SmatchFormal.Preprocess.Conditionals

/-!
# Include guards

The search of a stream for an include guard, and the verdict at its end.  The tokens of the
arguments of a macro call are taken by `collect_arg`, which handles the directives between them but
does not mark the stream as dirty.
-/

namespace SmatchFormal.Preprocess

variable {World Expr Directive Text : Type}

/-! ## Arguments of macro calls -/

/-- The lines of a stream token by token: whether `collect_arg` takes the next token, and whether
`do_preprocess` passes a token of an expansion after it has taken one. -/
structure ArgSemantics (World Expr Directive Text : Type) extends
    Semantics World Expr Directive Text where
  collecting : World → Bool
  shows : Text → World → Bool

namespace Machine

variable (sem : ArgSemantics World Expr Directive Text)

def collectArg (m : Machine World Expr Directive Text) (text : Text) :
    Machine World Expr Directive Text :=
  if m.falseNesting ≠ 0 then m
  else
    let taken := { m with progress := m.progress.emit sem.toSemantics text }
    if sem.shows text m.progress.world then taken.dirtyStream else taken

/-- `do_preprocess` and `collect_arg` on the next token or directive of the stream. -/
def take (m : Machine World Expr Directive Text) :
    Line Expr Directive Text → Machine World Expr Directive Text
  | .text text =>
    if sem.collecting m.progress.world then m.collectArg sem text
    else m.step sem.toSemantics (.text text)
  | line => m.step sem.toSemantics line

def takeAll (m : Machine World Expr Directive Text) (lines : List (Line Expr Directive Text)) :
    Machine World Expr Directive Text :=
  lines.foldl (take sem) m

def streamEnd (m : Machine World Expr Directive Text) : Machine World Expr Directive Text :=
  if m.topIf ≠ [] then { m.nestingError with topIf := [], falseNesting := 0 } else m

def fresh (progress : Progress World Expr Directive Text) : Machine World Expr Directive Text :=
  ⟨0, false, none, none, [], progress⟩

def Constant (m : Machine World Expr Directive Text) : Prop := m.streamEnd.dirty = false

end Machine

def alreadyTokenized (sem : ArgSemantics World Expr Directive Text)
    (m : Machine World Expr Directive Text) (world : World) : Prop :=
  m.Constant ∧ ∀ ident, m.streamEnd.protect = some ident → sem.defined ident world = true

/-- Nothing is lost when a stream is skipped: it would emit no token, perform no directive but
conditionals, and evaluate no expression. -/
def Idle (sem : ArgSemantics World Expr Directive Text)
    (lines : List (Line Expr Directive Text)) (world : World) : Prop :=
  ((Machine.fresh ⟨world, []⟩).takeAll sem lines).progress = ⟨world, []⟩

/-- `collect_arg` passes tokens of the stream only while the stream is dirty. -/
def Machine.Covered (sem : ArgSemantics World Expr Directive Text)
    (m : Machine World Expr Directive Text) : List (Line Expr Directive Text) → Prop
  | [] => True
  | line :: rest =>
    (∀ text, line = .text text → sem.collecting m.progress.world = true → m.dirty = true) ∧
      (m.take sem line).Covered sem rest

/-! ## The fields of a stream -/

structure Marks where
  dirty : Bool
  ifndef : Option Nat
  protect : Option Ident

namespace Marks

def dirtyStream (g : Marks) : Marks :=
  if g.dirty then g else ⟨true, g.ifndef, if g.ifndef = none then none else g.protect⟩

def endGroup (g : Marks) (depth : Nat) : Marks :=
  if g.ifndef = some depth then
    ⟨g.dirty && g.protect.isNone, none, if g.dirty then g.protect else none⟩
  else g

def nestingError : Marks := ⟨true, none, none⟩

def lookForGuard (g : Marks) (depth : Nat) (ident : Ident) : Marks :=
  if ¬ g.dirty ∧ g.ifndef = none then
    match g.protect with
    | none => ⟨g.dirty, some (depth + 1), some ident⟩
    | some protect => if protect = ident then ⟨true, some (depth + 1), some protect⟩ else g
  else g

def next (g : Marks) (topIf : List Tag) : Line Expr Directive Text → Marks
  | .ifdefLine (some _) => g
  | .ifndefLine (some ident) => g.lookForGuard topIf.length ident
  | .elifLine _ =>
    match topIf with
    | [] => nestingError
    | .elseTag :: _ => nestingError
    | _ => (g.endGroup topIf.length).dirtyStream
  | .elseLine =>
    match topIf with
    | [] => nestingError
    | .elseTag :: _ => nestingError
    | _ => g.endGroup topIf.length
  | .endifLine => if topIf = [] then nestingError else g.endGroup topIf.length
  | _ => g.dirtyStream

end Marks

def nextDepth (depth : Nat) : Line Expr Directive Text → Nat
  | .ifLine _ => depth + 1
  | .ifdefLine _ => depth + 1
  | .ifndefLine _ => depth + 1
  | .endifLine => depth - 1
  | _ => depth

namespace Machine

def marks (m : Machine World Expr Directive Text) : Marks := ⟨m.dirty, m.ifndef, m.protect⟩

section Marks

variable (m : Machine World Expr Directive Text)

theorem marks_dirtyStream : m.dirtyStream.marks = m.marks.dirtyStream := by
  unfold dirtyStream Marks.dirtyStream
  show _ = if m.dirty then _ else _
  split <;> rfl

theorem marks_endGroup {tag : Tag} {outer : List Tag} (opened : m.topIf = tag :: outer) :
    m.endGroup.marks = m.marks.endGroup m.topIf.length := by
  have top : m.top = some m.topIf.length := by
    unfold Machine.top
    rw [opened]
    rfl
  unfold endGroup Marks.endGroup
  rw [top]
  show _ = if m.ifndef = some m.topIf.length then _ else _
  split <;> rfl

theorem marks_lookForGuard (ident : Ident) :
    (m.lookForGuard ident).marks = m.marks.lookForGuard m.topIf.length ident := by
  unfold lookForGuard Marks.lookForGuard
  by_cases idle : ¬ m.dirty ∧ m.ifndef = none
  · rw [if_pos idle, if_pos (show ¬ m.marks.dirty ∧ m.marks.ifndef = none from idle)]
    cases known : m.protect with
    | none => simp [marks, known]
    | some protect =>
      simp only [marks, known]
      split
      · rfl
      · simp [known]
  · rw [if_neg idle, if_neg (show ¬ (¬ m.marks.dirty ∧ m.marks.ifndef = none) from idle)]

variable (sem : ArgSemantics World Expr Directive Text)

theorem topIf_dirtyStream : m.dirtyStream.topIf = m.topIf := by
  unfold dirtyStream
  split <;> rfl

theorem topIf_endGroup : m.endGroup.topIf = m.topIf := by
  unfold endGroup
  split <;> rfl

theorem topIf_lookForGuard (ident : Ident) : (m.lookForGuard ident).topIf = m.topIf := by
  unfold lookForGuard
  split
  · split
    · rfl
    · split <;> rfl
  · rfl

/-- The fields and the depth after a line depend on nothing else. -/
theorem step_marks (line : Line Expr Directive Text) :
    (m.step sem.toSemantics line).marks = m.marks.next m.topIf line ∧
      (m.step sem.toSemantics line).topIf.length = nextDepth m.topIf.length line := by
  cases line with
  | ifLine expr =>
    show (handleIf _ m expr).marks = m.marks.dirtyStream ∧
      (handleIf _ m expr).topIf.length = m.topIf.length + 1
    unfold handleIf
    split
    · refine ⟨marks_dirtyStream _, ?_⟩
      show (topIf _).length + 1 = m.topIf.length + 1
      rw [topIf_dirtyStream]
    · refine ⟨marks_dirtyStream _, ?_⟩
      show (topIf _).length + 1 = m.topIf.length + 1
      rw [topIf_dirtyStream]
  | ifdefLine ident =>
    cases ident with
    | some ident => exact ⟨rfl, rfl⟩
    | none =>
      refine ⟨marks_dirtyStream _, ?_⟩
      show (topIf _).length + 1 = m.topIf.length + 1
      rw [topIf_dirtyStream]
  | ifndefLine ident =>
    cases ident with
    | some ident =>
      refine ⟨marks_lookForGuard m ident, ?_⟩
      show (topIf _).length + 1 = m.topIf.length + 1
      rw [topIf_lookForGuard]
    | none =>
      refine ⟨marks_dirtyStream _, ?_⟩
      show (topIf _).length + 1 = m.topIf.length + 1
      rw [topIf_dirtyStream]
  | elifLine expr =>
    show (handleElif _ m expr).marks = _ ∧ (handleElif _ m expr).topIf.length = m.topIf.length
    unfold handleElif Marks.next
    cases opened : m.topIf with
    | nil => exact ⟨rfl, congrArg List.length ((topIf_endGroup m).trans opened)⟩
    | cons tag outer =>
      have ended := marks_endGroup m opened
      rw [opened] at ended
      have same : m.endGroup.dirtyStream.topIf = tag :: outer := by
        rw [topIf_dirtyStream, topIf_endGroup, opened]
      cases tag with
      | elseTag =>
        refine ⟨rfl, ?_⟩
        show m.endGroup.topIf.length = _
        rw [topIf_endGroup, opened]
      | skipGroups =>
        refine ⟨?_, congrArg _ same⟩
        simp only
        rw [marks_dirtyStream, ended]
      | ifTag =>
        simp only
        split
        · refine ⟨?_, congrArg _ same⟩
          show m.endGroup.dirtyStream.marks = _
          rw [marks_dirtyStream, ended]
        · refine ⟨?_, rfl⟩
          show m.endGroup.dirtyStream.marks = _
          rw [marks_dirtyStream, ended]
  | elseLine =>
    show m.handleElse.marks = _ ∧ m.handleElse.topIf.length = m.topIf.length
    unfold handleElse Marks.next
    cases opened : m.topIf with
    | nil => exact ⟨rfl, congrArg List.length ((topIf_endGroup m).trans opened)⟩
    | cons tag outer =>
      have ended := marks_endGroup m opened
      rw [opened] at ended
      cases tag with
      | elseTag => exact ⟨rfl, rfl⟩
      | skipGroups => exact ⟨ended, rfl⟩
      | ifTag => exact ⟨ended, rfl⟩
  | endifLine =>
    show m.handleEndif.marks = _ ∧ m.handleEndif.topIf.length = m.topIf.length - 1
    unfold handleEndif Marks.next
    cases opened : m.topIf with
    | nil => exact ⟨rfl, congrArg List.length ((topIf_endGroup m).trans opened)⟩
    | cons tag outer =>
      have ended := marks_endGroup m opened
      rw [opened] at ended
      exact ⟨ended, rfl⟩
  | directive directive =>
    simp only [step]
    split
    · exact ⟨marks_dirtyStream m, congrArg _ (topIf_dirtyStream m)⟩
    · exact ⟨marks_dirtyStream m, congrArg _ (topIf_dirtyStream m)⟩
  | text text =>
    simp only [step]
    split
    · exact ⟨marks_dirtyStream m, congrArg _ (topIf_dirtyStream m)⟩
    · exact ⟨marks_dirtyStream m, congrArg _ (topIf_dirtyStream m)⟩

/-- The tokens that `collect_arg` takes do not matter while the stream is dirty. -/
theorem take_marks {line : Line Expr Directive Text}
    (covered : ∀ text, line = .text text → sem.collecting m.progress.world = true →
      m.dirty = true) :
    (m.take sem line).marks = m.marks.next m.topIf line ∧
      (m.take sem line).topIf.length = nextDepth m.topIf.length line := by
  cases line with
  | text text =>
    show (if sem.collecting m.progress.world then m.collectArg sem text
      else m.step sem.toSemantics (.text text)).marks = m.marks.dirtyStream ∧ List.length (topIf
        (if sem.collecting m.progress.world then m.collectArg sem text
        else m.step sem.toSemantics (.text text))) = m.topIf.length
    split
    next collecting =>
      have dirty := covered text rfl collecting
      have marks : m.marks.dirtyStream = m.marks := if_pos dirty
      rw [marks]
      unfold collectArg
      split
      · exact ⟨rfl, rfl⟩
      · dsimp only
        split
        · rw [marks_dirtyStream, topIf_dirtyStream]
          exact ⟨marks, rfl⟩
        · exact ⟨rfl, rfl⟩
    next => exact step_marks m sem _
  | ifLine | ifdefLine | ifndefLine | elifLine | elseLine | endifLine | directive =>
    exact step_marks m sem _

end Marks

end Machine

namespace Marks

def Dead (g : Marks) : Prop := g.dirty = true ∧ g.ifndef = none

def Committed (ident : Ident) (g : Marks) : Prop :=
  g.protect = some ident ∧ (g.dirty = true ∨ g.ifndef = none)

def Placed (g : Marks) (depth : Nat) : Prop :=
  ∀ n, g.ifndef = some n → 1 ≤ n ∧ n ≤ depth ∧ ∃ ident, g.protect = some ident

variable {g : Marks} {depth : Nat} {ident : Ident}

theorem dead_nestingError : nestingError.Dead := ⟨rfl, rfl⟩

theorem dirtyStream_cases (g : Marks) :
    g.dirtyStream.Dead ∨ ∃ n, g.ifndef = some n ∧ g.dirtyStream.ifndef = some n ∧
      g.dirtyStream.protect = g.protect ∧ g.dirtyStream.dirty = true := by
  obtain ⟨dirty, ifndef, protect⟩ := g
  cases ifndef with
  | none =>
    left
    cases dirty with
    | true => exact ⟨rfl, rfl⟩
    | false => exact ⟨rfl, rfl⟩
  | some n =>
    right
    cases dirty with
    | true => exact ⟨n, rfl, rfl, rfl, rfl⟩
    | false => exact ⟨n, rfl, rfl, rfl, rfl⟩

theorem Dead.dirtyStream (dead : g.Dead) : g.dirtyStream.Dead := by
  unfold Marks.dirtyStream
  rw [if_pos dead.1]
  exact dead

theorem Dead.endGroup (dead : g.Dead) : (g.endGroup depth).Dead := by
  unfold Marks.endGroup
  rw [dead.2, if_neg (by simp)]
  exact dead

theorem Committed.dirtyStream (committed : g.Committed ident) :
    g.dirtyStream.Committed ident ∨ g.dirtyStream.Dead := by
  obtain dead | ⟨n, -, -, same, dirty⟩ := dirtyStream_cases g
  · exact .inr dead
  · exact .inl ⟨same.trans committed.1, .inl dirty⟩

theorem Committed.endGroup (committed : g.Committed ident) :
    (g.endGroup depth).Committed ident := by
  unfold Marks.endGroup
  split
  next guard =>
    have dirty : g.dirty = true := committed.2.resolve_right (by rw [guard]; simp)
    refine ⟨?_, .inr rfl⟩
    simp only [dirty, if_true]
    exact committed.1
  next => exact committed

variable (topIf : List Tag) (line : Line Expr Directive Text)

theorem Dead.next (dead : g.Dead) : (g.next topIf line).Dead := by
  unfold Marks.next
  split
  · exact dead
  · unfold Marks.lookForGuard
    rw [if_neg (by simp [dead.1])]
    exact dead
  · split
    · exact dead_nestingError
    · exact dead_nestingError
    · exact dead.endGroup.dirtyStream
  · split
    · exact dead_nestingError
    · exact dead_nestingError
    · exact dead.endGroup
  · split
    · exact dead_nestingError
    · exact dead.endGroup
  · exact dead.dirtyStream

theorem Committed.next (committed : g.Committed ident) :
    (g.next topIf line).Committed ident ∨ (g.next topIf line).Dead := by
  unfold Marks.next
  split
  · exact .inl committed
  next other =>
    left
    unfold Marks.lookForGuard
    split
    next =>
      rw [committed.1]
      simp only
      split
      · exact ⟨rfl, .inl rfl⟩
      · exact committed
    next => exact committed
  · split
    · exact .inr dead_nestingError
    · exact .inr dead_nestingError
    · exact committed.endGroup.dirtyStream
  · split
    · exact .inr dead_nestingError
    · exact .inr dead_nestingError
    · exact .inl committed.endGroup
  · split
    · exact .inr dead_nestingError
    · exact .inl committed.endGroup
  · exact committed.dirtyStream

end Marks

end SmatchFormal.Preprocess
