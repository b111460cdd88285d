import SmatchFormal.Lib.Decimal
import SmatchFormal.RangeMath.HostOps

/-!
# Return values as formulas

`parse_call_math_rl` evaluates a formula over the arguments of a call with two stacks that all
evaluations share.  Reading an argument can evaluate another formula, so it works on the stacks
too, and what is read can be logged.
-/

namespace SmatchFormal.Params

open SmatchFormal.Lib SmatchFormal.Ranges SmatchFormal.RangeMath SmatchFormal.Extra

inductive AddOp
  | plus
  | minus
  deriving DecidableEq, Repr

inductive MulOp
  | times
  | divide
  deriving DecidableEq, Repr

inductive Operator
  | add (op : AddOp)
  | mul (op : MulOp)
  deriving DecidableEq, Repr

def Operator.char : Operator → Char
  | .add .plus => '+'
  | .add .minus => '-'
  | .mul .times => '*'
  | .mul .divide => '/'

def Operator.binop : Operator → Binop
  | .add .plus => .add
  | .add .minus => .sub
  | .mul .times => .mul
  | .mul .divide => .div

/-- `op_precedence`, where `none` is the end of the formula. -/
def opPrecedence : Option Operator → Nat
  | some (.add _) => 1
  | some (.mul _) => 2
  | none => 0

def mathHelper (op : Operator) (left right : RangeList) : RangeList :=
  match op with
  | .add .plus => rlHandleAdd left right
  | .add .minus => rlHandleSub left right .unknown
  | .mul .times => rlHandleMult left right
  | .mul .divide => rlHandleDivide left right

def rlBinop (left : RangeList) (op : Operator) (right : RangeList) : RangeList :=
  rlBinopOf (mathHelper op) op.binop left right

def mathNode (left : RangeList) (op : Operator) (right : RangeList) : RangeList :=
  let res := rlBinop left op right
  if res = [] then allocWholeRl (some llongCtype) else res

structure Stacks where
  rls : List RangeList
  ops : List Operator
  deriving DecidableEq

def popRl : List RangeList → RangeList × List RangeList
  | [] => ([], [])
  | rl :: rls => (rl, rls)

def reduceTop (op : Operator) (rls : List RangeList) : List RangeList :=
  let (right, rls) := popRl rls
  let (left, rls) := popRl rls
  mathNode left op right :: rls

def popOps (limit : Nat) (rls : List RangeList) : List Operator → Stacks
  | [] => ⟨rls, []⟩
  | op :: ops =>
    if limit ≤ opPrecedence (some op) then popOps limit (reduceTop op rls) ops
    else ⟨rls, op :: ops⟩

def rlPopUntil (c : Option Operator) (machine : Stacks) : Stacks :=
  popOps (opPrecedence c) machine.rls machine.ops

def rlDiscardStacks : Stacks := ⟨[], []⟩

/-- The variable of an argument: whether the argument is `&x`, the result of `expr_to_var_sym` for
it or for `x`, and the states of that variable. -/
structure ArgVar where
  isAddress : Bool
  var : Option (List Char)
  state : List Char → Option RangeList

structure CallArg (Entry : Type) extends ArgVar where
  absolute : Stacks → Logged Entry (RangeList × Stacks)

structure Call (Entry : Type) where
  isCall : Bool
  args : List (CallArg Entry)

variable {Entry : Type}

def Call.argument (call : Call Entry) (num : Int) : Option (CallArg Entry) :=
  if num < 0 then none else call.args[num.toNat]?

/-- The rest of `read_rl_from_var` for a member.  Without a space behind it `*end` is `NULL`, and
the length computed with it is too large for the buffer. -/
def memberRl (arg : ArgVar) (p : List Char) : Option (RangeList × List Char) :=
  let rest := p.dropWhile fun c => c != ' '
  let path := (p.takeWhile fun c => c != ' ').drop (if arg.isAddress then 1 else 2)
  match arg.var with
  | none => none
  | some name =>
    let buf := (name ++ if arg.isAddress then ['.'] else ['-', '>']).take 255
    if rest = [] then none
    else if path.length + buf.length ≥ 256 then none
    else (arg.state (buf ++ path)).map fun rl => (rl, rest)

def readArgument (call : Call Entry) (param : Int) (p : List Char) (machine : Stacks) :
    Logged Entry (Option (RangeList × List Char) × Stacks) :=
  match call.argument (Decimal.toInt32 param) with
  | none => pure (none, machine)
  | some arg =>
    if p.head? ≠ some '-' ∧ p.head? ≠ some '.' then
      arg.absolute machine >>= fun read => pure (some (read.1, p), read.2)
    else pure (memberRl arg.toArgVar p, machine)

def readRlFromVar (call : Call Entry) (p : List Char) (machine : Stacks) :
    Logged Entry (Option (RangeList × List Char) × Stacks) :=
  if !call.isCall then pure (none, machine)
  else readArgument call (Decimal.strtoll p.tail).1 (Decimal.strtoll p.tail).2 machine

def numberRl (value : Int) : RangeList :=
  allocRl ⟨llongCtype, BitVec.ofInt 64 value⟩ ⟨llongCtype, BitVec.ofInt 64 value⟩

def skipSpaces (p : List Char) : List Char := p.dropWhile fun c => c == ' '

def readVarNum (call : Call Entry) (p : List Char) (machine : Stacks) :
    Logged Entry (Option (RangeList × List Char) × Stacks) :=
  let p := skipSpaces p
  if p.head? = some '$' then readRlFromVar call p machine
  else if (Decimal.strtoll p).2 = p then pure (none, machine)
  else pure (some (numberRl (Decimal.strtoll p).1, (Decimal.strtoll p).2), machine)

def operatorOf (c : Char) : Option Operator :=
  if c = '+' then some (.add .plus)
  else if c = '-' then some (.add .minus)
  else if c = '*' then some (.mul .times)
  else if c = '/' then some (.mul .divide)
  else none

def readOp (p : List Char) : Option (Operator × List Char) :=
  match skipSpaces p with
  | [] => none
  | c :: rest => (operatorOf c).map fun op => (op, rest)

/-- What follows an operand: the end of the formula, or an operator and the next round. -/
def afterOperand (next : List Char → Stacks → Logged Entry (Option RangeList × Stacks))
    (c : List Char) (machine : Stacks) : Logged Entry (Option RangeList × Stacks) :=
  if c = [] ∨ c = [']'] then
    let popped := rlPopUntil none machine
    pure (some (popRl popped.rls).1, ⟨(popRl popped.rls).2, popped.ops⟩)
  else
    match readOp c with
    | none => pure (none, rlDiscardStacks)
    | some (op, c) =>
      let popped := rlPopUntil (some op) machine
      next c ⟨popped.rls, op :: popped.ops⟩

/-- The loop of `parse_call_math_rl`.  Every round reads an operator. -/
def parseLoop (call : Call Entry) : Nat → List Char → Stacks →
    Logged Entry (Option RangeList × Stacks)
  | 0, _, _ => pure (none, rlDiscardStacks)
  | fuel + 1, c, machine =>
    readVarNum call c machine >>= fun read =>
      match read.1 with
      | none => pure (none, rlDiscardStacks)
      | some (tmp, c) => afterOperand (parseLoop call fuel) c ⟨tmp :: read.2.rls, read.2.ops⟩

def parseCallMathRl (call : Call Entry) (math : List Char) (machine : Stacks) :
    Logged Entry (Option RangeList × Stacks) :=
  parseLoop call (math.length + 1) math machine

inductive Term (α : Type)
  | leaf (operand : α)
  | node (left : Term α) (gap : Nat) (op : MulOp) (operand : α)

inductive Formula (α : Type)
  | single (product : Term α)
  | node (left : Formula α) (gap : Nat) (op : AddOp) (product : Term α)

def operatorText (gap : Nat) (op : Operator) : List Char := List.replicate gap ' ' ++ [op.char]

section Formulas

variable {α : Type}

def Term.text (spell : α → List Char) : Term α → List Char
  | .leaf operand => spell operand
  | .node left gap op operand =>
    left.text spell ++ (operatorText gap (.mul op) ++ spell operand)

def Formula.text (spell : α → List Char) : Formula α → List Char
  | .single product => product.text spell
  | .node left gap op product =>
    left.text spell ++ (operatorText gap (.add op) ++ product.text spell)

def Term.value (read : α → Option RangeList) : Term α → Option RangeList
  | .leaf operand => read operand
  | .node left _ op operand =>
    (left.value read).bind fun first =>
      (read operand).map fun second => mathNode first (.mul op) second

def Formula.value (read : α → Option RangeList) : Formula α → Option RangeList
  | .single product => product.value read
  | .node left _ op product =>
    (left.value read).bind fun first =>
      (product.value read).map fun second => mathNode first (.add op) second

def Term.size : Term α → Nat
  | .leaf _ => 1
  | .node left _ _ _ => left.size + 1

def Formula.size : Formula α → Nat
  | .single product => product.size
  | .node left _ _ product => left.size + product.size

def Term.operands : Term α → List α
  | .leaf operand => [operand]
  | .node left _ _ operand => left.operands ++ [operand]

def Formula.operands : Formula α → List α
  | .single product => product.operands
  | .node left _ _ product => left.operands ++ product.operands

def Term.last : Term α → α
  | .leaf operand => operand
  | .node _ _ _ operand => operand

def Formula.last : Formula α → α
  | .single product => product.last
  | .node _ _ _ product => product.last

def Term.Before (spell : α → List Char) (ok : α → List Char → Prop) : Term α → List Char → Prop
  | .leaf operand, rest => ok operand rest
  | .node left gap op operand, rest =>
    left.Before spell ok (operatorText gap (.mul op) ++ (spell operand ++ rest)) ∧
      ok operand rest

def Formula.Before (spell : α → List Char) (ok : α → List Char → Prop) :
    Formula α → List Char → Prop
  | .single product, rest => product.Before spell ok rest
  | .node left gap op product, rest =>
    left.Before spell ok (operatorText gap (.add op) ++ (product.text spell ++ rest)) ∧
      product.Before spell ok rest

end Formulas

end SmatchFormal.Params
