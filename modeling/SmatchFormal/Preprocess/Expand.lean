import SmatchFormal.Preprocess.Tokens
import SmatchFormal.Lib.Fuel

/-!
# Macro expansion

`expand_list` and the functions it calls, up to the directives inside of arguments and the macros
with a function of their own.  `expand_list` runs with fuel, since nothing bounds its recursion;
the state is kept when the fuel runs out, together with the list each call was collected from.

The `ARGNUM_CONSUME` bits let the source reuse a list of tokens that no later token of the
replacement needs; the lists here are values, so nothing depends on them.
-/

namespace SmatchFormal.Preprocess

/-- An entry of the list under expansion: a token, or the `TOKEN_UNTAINT` of a macro. -/
inductive Pending
  | token (token : Token)
  | untaint (name : Ident)
deriving DecidableEq, Repr

def scanNext (tainted : Taint) : List Pending → Taint × List Pending
  | .untaint name :: rest => scanNext (tainted.clear name) rest
  | list => (tainted, list)

/-- What `collect_arg` leaves: the argument, and the list from the token it stopped at. -/
structure Collected where
  arg : List Token
  next : List Pending
  tainted : Taint

def Collected.add (token : Token) (rest : Collected) : Collected :=
  { rest with arg := token :: rest.arg }

/-- `collect_arg`, with the number of parentheses that are open. -/
def collectArg (vararg : Bool) (nesting : Nat) (tainted : Taint) : List Pending → Collected
  | [] => ⟨[], [], tainted⟩
  | .untaint name :: rest => collectArg vararg nesting (tainted.clear name) rest
  | .token token :: rest =>
    if token.kind = .streamEnd ∨ token.kind = .streamBegin then
      ⟨[], .token token :: rest, tainted⟩
    else if token.matchOp "(" then
      (collectArg vararg (nesting + 1) tainted rest).add token
    else if token.matchOp ")" then
      match nesting with
      | 0 => ⟨[], .token token :: rest, tainted⟩
      | nesting + 1 => (collectArg vararg nesting tainted rest).add token
    else if token.matchOp "," ∧ nesting = 0 ∧ ¬ vararg then
      ⟨[], .token token :: rest, tainted⟩
    else
      (collectArg vararg nesting tainted rest).add token

inductive ArgKind
  | quoted
  | normal
  | str
deriving DecidableEq, Repr

/-- `struct arg`: the collected tokens, and the forms made of them so far. -/
structure Arg where
  quoted : Option (List Token)
  normal : Option (List Token)
  str : Option (List Token)

def Arg.absent : Arg := ⟨none, none, none⟩

def Arg.raw (list : List Token) : Arg := ⟨some list, none, none⟩

abbrev Args := Nat → Arg

inductive Call
  | missing
  | failed
  | collected (args : Args)

/-- `collect_arguments` after the parenthesis, for the parameters that are left; `commas` of them
are done. -/
def collectFixed (vararg : Bool) (fixed commas : Nat) (args : Args) (tainted : Taint)
    (list : List Pending) : Nat → Call × Taint × List Pending
  | 0 =>
    let last := collectArg true 0 tainted list
    match last.next with
    | .token ⟨.special _, _⟩ :: rest =>
      let v := if fixed = 0 ∧ last.arg = [] then Arg.absent else Arg.raw last.arg
      if v.quoted.isSome ∧ ¬ vararg then (.failed, last.tainted, rest)
      else (.collected (if vararg then Function.update args 0 v else args), last.tainted, rest)
    | next => (.failed, last.tainted, next)
  | left + 1 =>
    let one := collectArg false 0 tainted list
    match one.next with
    | .token ⟨.special op, _⟩ :: rest =>
      let args := Function.update args (commas + 1) (Arg.raw one.arg)
      if op = "," then collectFixed vararg fixed (commas + 1) args one.tainted rest left
      else if left ≠ 0 then (.failed, one.tainted, rest)
      else (.collected args, one.tainted, rest)
    | next => (.failed, one.tainted, next)

/-- `collect_arguments`: what became of the call, and the list behind it. -/
def collectArguments (fixed : Nat) (vararg : Bool) (tainted : Taint) (list : List Pending) :
    Call × Taint × List Pending :=
  let (tainted, list) := scanNext tainted list
  match list with
  | .token ⟨.special "(", _⟩ :: rest =>
    collectFixed vararg fixed 0 (fun _ => Arg.absent) tainted rest fixed
  | list => (.missing, tainted, list)

/-- A token of a replacement list: an ordinary one, a use of an argument, or `##`. -/
inductive Piece
  | token (token : Token)
  | argument (argnum : Nat) (kind : ArgKind) (whitespace : Bool)
  | concat

/-- A token of a replacement list, or the comma of `, ## a ## b ## __VA_ARGS__` with the
parameters between it and the variable one, and the blanks before each of them. -/
inductive Element
  | piece (piece : Piece)
  | gnuKludge (whitespace : Bool) (between : List (Nat × Bool)) (last : Bool)

/-- A token of a replacement list, or a `__VA_OPT__` with what its parentheses hold. -/
inductive BodyToken
  | element (element : Element)
  | vaOpt (inner : List Element)
  | vaOptStr (inner : List Element)

def ordinary (token : Token) : BodyToken := .element (.piece (.token token))

/-- The fields of a macro's symbol.  The `TOKEN_UNTAINT` at the end of `expansion` is not stored:
`parse_expansion` puts it there, with the name of the macro. -/
structure Macro where
  arglist : Bool
  fixedArgs : Nat
  vararg : Bool
  expansion : List BodyToken

abbrev Macros := List (Ident × Macro)

def Macros.find (macros : Macros) (name : Ident) : Option Macro := macros.lookup name

/-- What a call of `collect_arguments` is made with: the `tainted` bits, the numbers of the macro,
and the list. -/
structure Request where
  tainted : Taint
  fixed : Nat
  vararg : Bool
  list : List Pending

/-- The `tainted` bits, and the calls that were collected so far. -/
structure State where
  tainted : Taint
  requests : List Request

inductive OutOfFuel
  | outOfFuel

abbrev Expander := EStateM OutOfFuel State

def State.retaint (state : State) (tainted : Taint) : State := { state with tainted := tainted }

def State.note (state : State) (request : Request) : State :=
  { state with requests := request :: state.requests }

abbrev Recursion := List Token → Expander (List Token)

/-- `expand_list` on a copy of an argument, with the macro under expansion not tainted. -/
def expandArgument (expandList : Recursion) (expanding : Ident) (arg : List Token) :
    Expander (List Token) := do
  modify fun state => state.retaint (state.tainted.clear expanding)
  let arg ← expandList arg
  modify fun state => state.retaint (state.tainted.set expanding)
  pure arg

def expandNonempty (expandList : Recursion) (expanding : Ident) (arg : List Token) :
    Expander (List Token) :=
  if arg = [] then pure arg else expandArgument expandList expanding arg

def stringify (arg : List Token) : Token :=
  ⟨.string false (showTokenSequence arg), (arg.head?.map Token.whitespace).getD false⟩

def doArgument (expandList : Recursion) (expanding : Ident) (args : Args) (argnum : Nat)
    (kind : ArgKind) : Expander (List Token × Args) :=
  let arg := (args argnum).quoted.getD []
  match kind with
  | .quoted => pure (arg, args)
  | .normal =>
    match (args argnum).normal with
    | some arg => pure (arg, args)
    | none => do
        let arg ← expandNonempty expandList expanding arg
        pure (arg, Function.update args argnum { args argnum with normal := some arg })
  | .str =>
    match (args argnum).str with
    | some arg => pure (arg, args)
    | none =>
      let arg := [stringify arg]
      pure (arg, Function.update args argnum { args argnum with str := some arg })

def skipVaOpt (expandList : Recursion) (expanding : Ident) (args : Args) :
    Expander (Bool × Args) :=
  match (args 0).normal with
  | some arg => pure (arg.isEmpty, args)
  | none =>
    let arg := (args 0).quoted.getD []
    if arg = [] then pure (true, args)
    else do
      let arg ← expandArgument expandList expanding arg
      pure (arg.isEmpty, Function.update args 0 { args 0 with normal := some arg })

inductive Kludge
  | skipAll
  | ignoreConcat
  | noMagic

def handleKludge (args : Args) (between : List (Nat × Bool)) : Kludge :=
  if between.any (fun (argnum, _) => !((args argnum).quoted.getD []).isEmpty) then .noMagic
  else if (args 0).quoted.isSome then .ignoreConcat
  else .skipAll

/-- The place `substitute` writes to: the tokens it has added, and those that stand before them in
the list, both with the last one first. -/
structure Tail where
  before : List Token
  added : List Token

def Tail.append (tail : Tail) (list : List Token) : Tail :=
  { tail with added := list.reverse ++ tail.added }

/-- `merge(containing_token(list), right)`.  With no token before, the source looks at memory that
holds none; the model lets the concatenation fail. -/
def Tail.mergeLast (tail : Tail) (tainted : Taint) (right : Token) : Option Tail :=
  match tail.added, tail.before with
  | last :: added, before => (merge tainted last right).map fun last => ⟨before, last :: added⟩
  | [], last :: before => (merge tainted last right).map fun last => ⟨last :: before, []⟩
  | [], [] => none

inductive Mode
  | normal
  | placeholder
  | concat
deriving DecidableEq

structure Substitution where
  args : Args
  tail : Tail
  mode : Mode

def Substitution.nothing (s : Substitution) : Substitution :=
  { s with mode := if s.mode = .concat then .normal else .placeholder }

/-- The end of the loop of `substitute`: add a token, or merge it into the last one. -/
def Substitution.add (s : Substitution) (tainted : Taint) (added : Token) : Substitution :=
  match (if s.mode = .concat then s.tail.mergeLast tainted added else none) with
  | some tail => { s with tail := tail, mode := .normal }
  | none => { s with tail := s.tail.append [added], mode := .normal }

def Token.respace (whitespace : Bool) (token : Token) : Token :=
  { token with whitespace := whitespace }

def Substitution.addArgument (s : Substitution) (tainted : Taint) (whitespace : Bool) :
    List Token → Substitution
  | [] => s.nothing
  | first :: rest =>
    match (if s.mode = .concat then s.tail.mergeLast tainted first else none) with
    | some tail => { s with tail := tail.append (rest.map (Token.mark tainted)), mode := .normal }
    | none =>
      let first := (first.mark tainted).respace whitespace
      { s with tail := s.tail.append (first :: rest.map (Token.mark tainted)), mode := .normal }

def Substitution.concat (s : Substitution) : Substitution :=
  { s with mode := if s.mode = .placeholder then .normal else .concat }

/-- The loop body of `substitute` for a token that is no `__VA_OPT__` and no kludge. -/
def substitutePiece (expandList : Recursion) (expanding : Ident) (s : Substitution) :
    Piece → Expander Substitution
  | .token token => do
      let state ← get
      pure (s.add state.tainted (token.mark state.tainted))
  | .argument argnum kind whitespace => do
      let (arg, args) ← doArgument expandList expanding s.args argnum kind
      let state ← get
      pure ({ s with args := args }.addArgument state.tainted whitespace arg)
  | .concat => pure s.concat

def afterComma (between : List (Nat × Bool)) (last : Bool) : List Piece :=
  (between ++ [(0, last)]).flatMap fun (argnum, whitespace) =>
    [.concat, .argument argnum .quoted whitespace]

/-- The loop body of `substitute` for a token that is no `__VA_OPT__`. -/
def substituteElement (expandList : Recursion) (expanding : Ident) (s : Substitution) :
    Element → Expander Substitution
  | .piece piece => substitutePiece expandList expanding s piece
  | .gnuKludge whitespace between last =>
    let comma := Piece.token ⟨.special ",", whitespace⟩
    match handleKludge s.args between with
    | .skipAll => pure s.nothing
    | .ignoreConcat =>
      (comma :: (afterComma between last).tail).foldlM (substitutePiece expandList expanding) s
    | .noMagic =>
      (comma :: afterComma between last).foldlM (substitutePiece expandList expanding) s

/-- The token `#__VA_OPT__` stands for, from what its parentheses gave; `blank` is the blank before
the name of the macro. -/
def quoteVaOpt (blank : Bool) (list : List Token) : Token :=
  ⟨.string false (showTokenSequence list), (list.head?.map Token.whitespace).getD blank⟩

def substituteOne (expandList : Recursion) (expanding : Ident) (blank : Bool) (s : Substitution) :
    BodyToken → Expander Substitution
  | .element element => substituteElement expandList expanding s element
  | .vaOpt inner => do
      let (skip, args) ← skipVaOpt expandList expanding s.args
      if skip then pure { s with args := args }.nothing
      else inner.foldlM (substituteElement expandList expanding) { s with args := args }
  | .vaOptStr inner => do
      let (skip, args) ← skipVaOpt expandList expanding s.args
      if skip then do
        let state ← get
        pure ({ s with args := args }.add state.tainted (quoteVaOpt blank []))
      else do
        let r ← inner.foldlM (substituteElement expandList expanding) ⟨args, ⟨[], []⟩, .normal⟩
        let state ← get
        pure ({ s with args := r.args }.add state.tainted
          (quoteVaOpt blank r.tail.added.reverse))

def substitute (expandList : Recursion) (expanding : Ident) (blank : Bool) (before : List Token)
    (body : List BodyToken) (args : Args) : Expander Tail := do
  modify fun state => state.retaint (state.tainted.set expanding)
  let s ← body.foldlM (substituteOne expandList expanding blank) ⟨args, ⟨before, []⟩, .normal⟩
  pure s.tail

/-- A place in the list under expansion: the tokens passed, the last one first, and the rest. -/
structure Place where
  before : List Token
  rest : List Pending

/-- The list behind a replaced macro: the replacement, the marker and what followed.  The first
token takes the blank of the token that was replaced. -/
def Tail.place (tail : Tail) (token : Token) (name : Ident) (next : List Pending) : Place where
  before := tail.before
  rest :=
    match tail.added.reverse with
    | [] => .untaint name :: next
    | first :: added =>
      .token (first.respace token.whitespace) :: added.map .token ++ .untaint name :: next

def collect (sym : Macro) (list : List Pending) : Expander (Call × List Pending) :=
  modifyGet fun state =>
    let (call, tainted, rest) := collectArguments sym.fixedArgs sym.vararg state.tainted list
    let request : Request := ⟨state.tainted, sym.fixedArgs, sym.vararg, list⟩
    ((call, rest), (state.note request).retaint tainted)

def scan (list : List Pending) : Expander (List Pending) :=
  modifyGet fun state =>
    let (tainted, rest) := scanNext state.tainted list
    (rest, state.retaint tainted)

/-- The second half of `expand`, for a macro whose arguments were looked for. -/
def expandCall (expandList : Recursion) (token : Token) (name : Ident) (sym : Macro)
    (before : List Token) (call : Call) (rest : List Pending) : Expander (Bool × Place) :=
  match call with
  | .collected args => do
      let tail ← substitute expandList name token.whitespace before sym.expansion args
      pure (false, tail.place token name rest)
  | _ => pure (true, ⟨before, rest⟩)

/-- `expand`: whether the token stays, and the place it stays at or the replacement begins. -/
def expand (expandList : Recursion) (token : Token) (name : Ident) (sym : Macro) (place : Place) :
    Expander (Bool × Place) :=
  if sym.arglist then do
    let (call, rest) ← collect sym place.rest
    expandCall expandList token name sym place.before call rest
  else
    expandCall expandList token name sym place.before (.collected fun _ => Arg.absent) place.rest

def expandOneSymbol (macros : Macros) (expandList : Recursion) (token : Token) (name : Ident)
    (noexpand : Bool) (place : Place) : Expander (Bool × Place) :=
  if noexpand then pure (true, place)
  else
    match macros.find name with
    | none => pure (true, place)
    | some sym => expand expandList token name sym place

/-- One round of the loop of `expand_list`; `onwards` is the rest of the loop, and `expandList` does
the lists of arguments. -/
def expandStep (macros : Macros) (expandList : Recursion)
    (onwards : Place → Expander (List Token)) (place : Place) : Expander (List Token) := do
  let rest ← scan place.rest
  match rest with
  | .token token :: rest =>
    match token.kind with
    | .ident name noexpand => do
        let (stays, after) ←
          expandOneSymbol macros expandList token name noexpand ⟨place.before, rest⟩
        onwards (if stays then { after with before := token :: after.before } else after)
    | _ => onwards ⟨token :: place.before, rest⟩
  | _ => pure place.before.reverse

def expandFrom (macros : Macros) : Nat → Place → Expander (List Token)
  | 0, _ => throw .outOfFuel
  | fuel + 1, place =>
    expandStep macros (fun arg => expandFrom macros fuel ⟨[], arg.map .token⟩)
      (expandFrom macros fuel) place

def expandList (macros : Macros) (fuel : Nat) (list : List Pending) : Expander (List Token) :=
  expandFrom macros fuel ⟨[], list⟩

def State.start : State := ⟨fun _ => false, []⟩

end SmatchFormal.Preprocess
