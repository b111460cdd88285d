import SmatchFormal.Preprocess.Tokens

/-!
# Conditional directives

The lines of one stream as `do_preprocess` and the handlers of the conditional directives take
them: the counter `false_nesting`, the open conditionals of `top_if` with their tags, and the
fields that look for an include guard.  What text lines, other directives and the expressions of
`#if` do to the rest of the state is a parameter.
-/

namespace SmatchFormal.Preprocess

/-- The tags of an open conditional: `TOKEN_IF`, `TOKEN_SKIP_GROUPS` and `TOKEN_ELSE`. -/
inductive Tag
  | ifTag
  | skipGroups
  | elseTag
deriving DecidableEq, Repr

structure Semantics (World Expr Directive Text : Type) where
  evaluate : Expr → World → Bool × World
  defined : Ident → World → Bool
  perform : Directive → World → World
  emit : Text → World → World

/-- A line of a stream.  An `#ifdef` or `#ifndef` without an identifier has `none`. -/
inductive Line (Expr Directive Text : Type)
  | ifLine (expr : Expr)
  | ifdefLine (ident : Option Ident)
  | ifndefLine (ident : Option Ident)
  | elifLine (expr : Expr)
  | elseLine
  | endifLine
  | directive (directive : Directive)
  | text (text : Text)

/-- The state apart from the conditionals, and the lines that were processed or whose expression
was evaluated, in order. -/
structure Progress (World Expr Directive Text : Type) where
  world : World
  trace : List (Line Expr Directive Text)

variable {World Expr Directive Text : Type}

section Progress

variable (sem : Semantics World Expr Directive Text)

def Progress.evaluateIf (p : Progress World Expr Directive Text) (expr : Expr) :
    Bool × Progress World Expr Directive Text :=
  let (value, world) := sem.evaluate expr p.world
  (value, ⟨world, p.trace ++ [.ifLine expr]⟩)

def Progress.evaluateElif (p : Progress World Expr Directive Text) (expr : Expr) :
    Bool × Progress World Expr Directive Text :=
  let (value, world) := sem.evaluate expr p.world
  (value, ⟨world, p.trace ++ [.elifLine expr]⟩)

def Progress.perform (p : Progress World Expr Directive Text) (directive : Directive) :
    Progress World Expr Directive Text :=
  ⟨sem.perform directive p.world, p.trace ++ [.directive directive]⟩

def Progress.emit (p : Progress World Expr Directive Text) (text : Text) :
    Progress World Expr Directive Text :=
  ⟨sem.emit text p.world, p.trace ++ [.text text]⟩

end Progress

/-- `false_nesting`, the fields of the stream, and the rest.  `ifndef` points to an entry of
`top_if`; it is the number of entries up to that one. -/
structure Machine (World Expr Directive Text : Type) where
  falseNesting : Nat
  dirty : Bool
  ifndef : Option Nat
  protect : Option Ident
  topIf : List Tag
  progress : Progress World Expr Directive Text

namespace Machine

def dirtyStream (m : Machine World Expr Directive Text) : Machine World Expr Directive Text :=
  if m.dirty then m
  else { m with dirty := true, protect := if m.ifndef = none then none else m.protect }

def top (m : Machine World Expr Directive Text) : Option Nat :=
  if m.topIf = [] then none else some m.topIf.length

def endGroup (m : Machine World Expr Directive Text) : Machine World Expr Directive Text :=
  if m.ifndef = m.top then
    { m with
      ifndef := none
      protect := if m.dirty then m.protect else none
      dirty := m.dirty && m.protect.isNone }
  else m

def nestingError (m : Machine World Expr Directive Text) : Machine World Expr Directive Text :=
  { m with dirty := true, ifndef := none, protect := none }

def preprocessorIf (m : Machine World Expr Directive Text) (cond : Int) :
    Machine World Expr Directive Text :=
  { m with
    topIf := (if m.falseNesting ≠ 0 then .skipGroups else .ifTag) :: m.topIf
    falseNesting :=
      if m.falseNesting ≠ 0 ∨ cond ≠ 1 then m.falseNesting + 1 else m.falseNesting }

def ofBool (b : Bool) : Int := if b then 1 else 0

section Handlers

variable (sem : Semantics World Expr Directive Text)

def handleIfdef (m : Machine World Expr Directive Text) :
    Option Ident → Machine World Expr Directive Text
  | some ident => m.preprocessorIf (ofBool (sem.defined ident m.progress.world))
  | none => m.dirtyStream.preprocessorIf (-1)

/-- The search of `handle_ifndef` for a guard; the token is going to be the top of `top_if`. -/
def lookForGuard (m : Machine World Expr Directive Text) (ident : Ident) :
    Machine World Expr Directive Text :=
  if ¬ m.dirty ∧ m.ifndef = none then
    match m.protect with
    | none => { m with ifndef := some (m.topIf.length + 1), protect := some ident }
    | some protect =>
      if protect = ident then { m with ifndef := some (m.topIf.length + 1), dirty := true } else m
  else m

def handleIfndef (m : Machine World Expr Directive Text) :
    Option Ident → Machine World Expr Directive Text
  | some ident =>
    (m.lookForGuard ident).preprocessorIf (ofBool (!sem.defined ident m.progress.world))
  | none => m.dirtyStream.preprocessorIf (-1)

def handleIf (m : Machine World Expr Directive Text) (expr : Expr) :
    Machine World Expr Directive Text :=
  if m.falseNesting = 0 then
    let (value, progress) := m.progress.evaluateIf sem expr
    { m with progress := progress }.dirtyStream.preprocessorIf (ofBool value)
  else m.dirtyStream.preprocessorIf 0

def handleElif (m : Machine World Expr Directive Text) (expr : Expr) :
    Machine World Expr Directive Text :=
  let ended := m.endGroup
  match m.topIf with
  | [] => ended.nestingError
  | .elseTag :: _ =>
    { ended.nestingError with
      falseNesting := if ended.falseNesting = 0 then 1 else ended.falseNesting }
  | .skipGroups :: _ => ended.dirtyStream
  | .ifTag :: outer =>
    let m := ended.dirtyStream
    if m.falseNesting ≠ 0 then
      let (value, progress) := m.progress.evaluateElif sem expr
      { m with falseNesting := if value then 0 else 1, progress := progress }
    else { m with falseNesting := 1, topIf := .skipGroups :: outer }

def handleElse (m : Machine World Expr Directive Text) : Machine World Expr Directive Text :=
  let ended := m.endGroup
  match m.topIf with
  | [] => ended.nestingError
  | tag :: outer =>
    let m := if tag = .elseTag then ended.nestingError else ended
    { m with
      falseNesting :=
        if m.falseNesting ≠ 0 then (if tag = .ifTag then 0 else m.falseNesting) else 1
      topIf := .elseTag :: outer }

def handleEndif (m : Machine World Expr Directive Text) : Machine World Expr Directive Text :=
  let ended := m.endGroup
  match m.topIf with
  | [] => ended.nestingError
  | _ :: outer => { ended with falseNesting := ended.falseNesting - 1, topIf := outer }

/-- `do_preprocess` on a text line, and `handle_preprocessor_line` on a directive. -/
def step (m : Machine World Expr Directive Text) :
    Line Expr Directive Text → Machine World Expr Directive Text
  | .ifLine expr => m.handleIf sem expr
  | .ifdefLine ident => m.handleIfdef sem ident
  | .ifndefLine ident => m.handleIfndef sem ident
  | .elifLine expr => m.handleElif sem expr
  | .elseLine => m.handleElse
  | .endifLine => m.handleEndif
  | .directive directive =>
    let m := m.dirtyStream
    if m.falseNesting ≠ 0 then m else { m with progress := m.progress.perform sem directive }
  | .text text =>
    let m := m.dirtyStream
    if m.falseNesting ≠ 0 then m else { m with progress := m.progress.emit sem text }

def run (m : Machine World Expr Directive Text) (lines : List (Line Expr Directive Text)) :
    Machine World Expr Directive Text :=
  lines.foldl (step sem) m

end Handlers

end Machine

inductive Head (Expr : Type)
  | ifHead (expr : Expr)
  | ifdefHead (ident : Option Ident)
  | ifndefHead (ident : Option Ident)

mutual

inductive Group (Expr Directive Text : Type)
  | nil
  | directive (directive : Directive) (rest : Group Expr Directive Text)
  | text (text : Text) (rest : Group Expr Directive Text)
  | conditional (head : Head Expr) (body : Group Expr Directive Text)
      (others : Others Expr Directive Text) (rest : Group Expr Directive Text)

/-- The groups of a conditional after the first one, up to the `#endif`. -/
inductive Others (Expr Directive Text : Type)
  | endif
  | elif (expr : Expr) (body : Group Expr Directive Text) (others : Others Expr Directive Text)
  | els (body : Group Expr Directive Text)

end

def Head.line : Head Expr → Line Expr Directive Text
  | .ifHead expr => .ifLine expr
  | .ifdefHead ident => .ifdefLine ident
  | .ifndefHead ident => .ifndefLine ident

mutual

def Group.lines : Group Expr Directive Text → List (Line Expr Directive Text)
  | .nil => []
  | .directive directive rest => .directive directive :: rest.lines
  | .text text rest => .text text :: rest.lines
  | .conditional head body others rest => head.line :: (body.lines ++ (others.lines ++ rest.lines))

def Others.lines : Others Expr Directive Text → List (Line Expr Directive Text)
  | .endif => [.endifLine]
  | .elif expr body others => .elifLine expr :: (body.lines ++ others.lines)
  | .els body => .elseLine :: (body.lines ++ [.endifLine])

end

section Meaning

variable (sem : Semantics World Expr Directive Text)

/-- The condition of the first group.  One without an identifier is false. -/
def Head.holds (p : Progress World Expr Directive Text) :
    Head Expr → Bool × Progress World Expr Directive Text
  | .ifHead expr => p.evaluateIf sem expr
  | .ifdefHead (some ident) => (sem.defined ident p.world, p)
  | .ifndefHead (some ident) => (!sem.defined ident p.world, p)
  | .ifdefHead none => (false, p)
  | .ifndefHead none => (false, p)

mutual

/-- The lines are processed in order; of a conditional, only the first group whose condition is
true, or else the group of the `#else`. -/
def Group.process (p : Progress World Expr Directive Text) :
    Group Expr Directive Text → Progress World Expr Directive Text
  | .nil => p
  | .directive directive rest => rest.process (p.perform sem directive)
  | .text text rest => rest.process (p.emit sem text)
  | .conditional head body others rest =>
    let (value, p) := head.holds sem p
    rest.process (if value then body.process p else others.process p)

def Others.process (p : Progress World Expr Directive Text) :
    Others Expr Directive Text → Progress World Expr Directive Text
  | .endif => p
  | .elif expr body others =>
    let (value, p) := p.evaluateElif sem expr
    if value then body.process p else others.process p
  | .els body => body.process p

end

end Meaning

end SmatchFormal.Preprocess
