import SmatchFormal.Ir.EvalOp

/-!
# Folding constants in expressions

`simplify_int_binop` and `simplify_cmp_binop` of `expand.c` fold an operator on two
constants, which are kept extended with zeros.  The linearizer maps the same operators
to opcodes, which `eval_op` folds.
-/

namespace SmatchFormal.Expand

open SmatchFormal.Ir

/-- The part of an integer type that the folding reads: `bit_size` and `MOD_UNSIGNED`. -/
structure IntType where
  bitSize : Nat
  unsigned : Bool

def getLonglong (type : IntType) (value : BitVec 64) : BitVec 64 :=
  let mask := signBit type.bitSize
  let noExpand := type.unsigned || value &&& mask == 0
  let andmask := bitsMask type.bitSize
  let ormask := if noExpand then 0 else ~~~andmask
  (value &&& andmask) ||| ormask

def checkShiftCount (bitSize : Nat) (rightType : IntType) (right : BitVec 64) : Bool :=
  let count := (getLonglong rightType right).toInt
  decide (0 ≤ count ∧ count < bitSize)

inductive BinaryOp where
  | add | sub | and | or | xor | mul | div | mod | leftShift | rightShift
  deriving DecidableEq

inductive CompareOp where
  | lt | gt | lte | gte | equal | notequal
  | unsignedLt | unsignedGt | unsignedLte | unsignedGte
  deriving DecidableEq

def signedOperand (bitSize : Nat) (value : BitVec 64) : BitVec 64 :=
  if value &&& signBit bitSize ≠ 0 then value ||| ~~~(signBit bitSize - 1) else value

/-- The switch of `simplify_int_binop`; `none` is `Div` or `Overflow`. -/
def intSwitch (op : BinaryOp) (type : IntType) (l r : BitVec 64) : Option (BitVec 64) :=
  let isSigned := !type.unsigned
  let mask := signBit type.bitSize
  let sl := if isSigned then signedOperand type.bitSize l else l
  let sr := if isSigned then signedOperand type.bitSize r else r
  match op with
  | .add => some (l + r)
  | .sub => some (l - r)
  | .and => some (l &&& r)
  | .or => some (l ||| r)
  | .xor => some (l ^^^ r)
  | .mul => some (if isSigned then sl * sr else l * r)
  | .div =>
    if r = 0 then none
    else if isSigned then if l = mask ∧ sr = -1 then none else some (sl.sdiv sr)
    else some (l / r)
  | .mod =>
    if r = 0 then none
    else if isSigned then if l = mask ∧ sr = -1 then none else some (sl.srem sr)
    else some (l % r)
  | .leftShift => some (l <<< r.toNat)
  | .rightShift => some (if isSigned then sl.sshiftRight r.toNat else l >>> r.toNat)

def BinaryOp.isShift : BinaryOp → Bool
  | .leftShift | .rightShift => true
  | _ => false

/-- `simplify_int_binop` on two constants; `rightType` is the type of the right one. -/
def simplifyIntBinop (op : BinaryOp) (type rightType : IntType) (l r : BitVec 64) :
    Option (BitVec 64) :=
  if op.isShift && !checkShiftCount type.bitSize rightType r then none
  else (intSwitch op type l r).map (· &&& bitsMask type.bitSize)

def simplifyCmpBinop (op : CompareOp) (type : IntType) (l r : BitVec 64) : BitVec 64 :=
  let sl := signedOperand type.bitSize l
  let sr := signedOperand type.bitSize r
  match op with
  | .lt => ofBool (sl.slt sr)
  | .gt => ofBool (sr.slt sl)
  | .lte => ofBool (sl.sle sr)
  | .gte => ofBool (sr.sle sl)
  | .equal => ofBool (l == r)
  | .notequal => ofBool (l != r)
  | .unsignedLt => ofBool (l.ult r)
  | .unsignedGt => ofBool (r.ult l)
  | .unsignedLte => ofBool (l.ule r)
  | .unsignedGte => ofBool (r.ule l)

/-- The table of `linearize_binop`, with `map_opcode` for a signed type. -/
def BinaryOp.opcode (unsigned : Bool) : BinaryOp → Opcode
  | .add => .add
  | .sub => .sub
  | .and => .and
  | .or => .or
  | .xor => .xor
  | .mul => .mul
  | .div => if unsigned then .divu else .divs
  | .mod => if unsigned then .modu else .mods
  | .leftShift => .shl
  | .rightShift => if unsigned then .lsr else .asr

def CompareOp.opcode : CompareOp → Opcode
  | .gt => .setGt
  | .lt => .setLt
  | .equal => .setEq
  | .notequal => .setNe
  | .gte => .setGe
  | .lte => .setLe
  | .unsignedLt => .setB
  | .unsignedGt => .setA
  | .unsignedLte => .setBe
  | .unsignedGte => .setAe

/-! ## The meaning in C -/

/-- The value of an operator on integers of some width.  It has none for a division by
zero, for a quotient that does not fit, and for a count that is not smaller than the
width; other results wrap around. -/
def cBinop {w : Nat} (op : BinaryOp) (unsigned : Bool) (x y : BitVec w) : Option (BitVec w) :=
  match op with
  | .add => some (x + y)
  | .sub => some (x - y)
  | .and => some (x &&& y)
  | .or => some (x ||| y)
  | .xor => some (x ^^^ y)
  | .mul => some (x * y)
  | .div =>
    if y = 0 then none
    else if unsigned then some (x / y)
    else if x = BitVec.intMin w ∧ y = -1 then none else some (x.sdiv y)
  | .mod =>
    if y = 0 then none
    else if unsigned then some (x % y)
    else if x = BitVec.intMin w ∧ y = -1 then none else some (x.srem y)
  | .leftShift => if y.toNat < w then some (x <<< y.toNat) else none
  | .rightShift =>
    if y.toNat < w then some (if unsigned then x >>> y.toNat else x.sshiftRight y.toNat)
    else none

def cCompare {w : Nat} (op : CompareOp) (x y : BitVec w) : Bool :=
  match op with
  | .lt => x.slt y
  | .gt => y.slt x
  | .lte => x.sle y
  | .gte => y.sle x
  | .equal => x == y
  | .notequal => x != y
  | .unsignedLt => x.ult y
  | .unsignedGt => y.ult x
  | .unsignedLte => x.ule y
  | .unsignedGte => y.ule x

end SmatchFormal.Expand
