import SmatchFormal.Lib.Logged
import SmatchFormal.RangeMath.Divide
import SmatchFormal.RangeMath.Mod
import SmatchFormal.RangeMath.Or
import SmatchFormal.RangeMath.Sub
import SmatchFormal.RangeMath.Xor

/-!
# The host operations of `sval_binop`

`sval_binop` computes with the operators of the machine it runs on.  It tests for a zero divisor
and for `LLONG_MIN / -1`, but not for `LLONG_MIN % -1` and not for the count of a shift.  The
handlers of `rl_binop_helper` are given here with a log of their calls of `sval_binop`.
-/

namespace SmatchFormal.RangeMath

open SmatchFormal.Ranges SmatchFormal.Extra SmatchFormal.Lib

/-! ## One operation -/

/-- An operator of the host on `long long`, or on `unsigned long long`. -/
structure HostOp where
  signed : Bool
  op : Binop
  left : BitVec 64
  right : BitVec 64

namespace HostOp

/-- The host neither divides by zero, nor `LLONG_MIN` by minus one, nor shifts by a negative
count or by 64 and more. -/
def Defined (host : HostOp) : Prop :=
  match host.op with
  | .div | .mod =>
    host.right ≠ 0 ∧ ¬ (host.signed = true ∧ host.left = BitVec.intMin 64 ∧ host.right = -1)
  | .leftShift | .rightShift =>
    if host.signed then 0 ≤ host.right.toInt ∧ host.right.toInt < 64 else host.right.toNat < 64
  | _ => True

def eval (host : HostOp) : BitVec 64 :=
  match host.op with
  | .mul => host.left * host.right
  | .div => if host.signed then host.left.sdiv host.right else host.left / host.right
  | .add => host.left + host.right
  | .sub => host.left - host.right
  | .mod => if host.signed then host.left.srem host.right else host.left % host.right
  | .or => host.left ||| host.right
  | .and => host.left &&& host.right
  | .rightShift =>
    if host.signed then host.left.sshiftRight host.right.toNat
    else host.left >>> host.right.toNat
  | .leftShift => host.left <<< host.right.toNat
  | .xor => host.left ^^^ host.right

end HostOp

/-- The branch that `sval_binop_unsigned` or `sval_binop_signed` takes: a number of its own, or
an operation of the host. -/
def hostBranch (signed : Bool) (op : Binop) (left right : BitVec 64) : BitVec 64 ⊕ HostOp :=
  match op with
  | .div =>
    if right = 0 then .inl 123456789
    else if signed ∧ left = BitVec.intMin 64 ∧ right = -1 then .inl 12345678
    else .inr ⟨signed, .div, left, right⟩
  | .mod => if right = 0 then .inl 123456789 else .inr ⟨signed, .mod, left, right⟩
  | op => .inr ⟨signed, op, left, right⟩

def svalBinopHost (left : Sval) (op : Binop) (right : Sval) : BitVec 64 ⊕ HostOp :=
  hostBranch (!typeUnsigned (getPromotedType left.type right.type)) op left.raw right.raw

structure BinopCall where
  left : Sval
  op : Binop
  right : Sval

def BinopCall.Defined (call : BinopCall) : Prop :=
  ∀ host, svalBinopHost call.left call.op call.right = .inr host → host.Defined

/-- The calls that `sval_binop` does not protect are remainders of `LLONG_MIN` by minus one and
shifts by 64 and more. -/
def BinopCall.Protected (call : BinopCall) : Prop :=
  (call.op = .mod → typeUnsigned (getPromotedType call.left.type call.right.type) = true ∨
      call.left.value ≠ -2 ^ 63 ∨ call.right.value ≠ -1) ∧
    (call.op = .leftShift ∨ call.op = .rightShift → call.right.uvalue < 64)

section One

variable {left right : Sval} {op : Binop} {call : BinopCall}

theorem svalBinopUnsigned_host (type : Ctype) :
    (svalBinopUnsigned type left op right).raw =
      (hostBranch false op left.raw right.raw).elim id HostOp.eval := by
  cases op with
  | div | mod =>
    simp only [svalBinopUnsigned, hostBranch, Bool.false_eq_true, false_and, if_false]
    split_ifs <;> rfl
  | _ => rfl

theorem svalBinopSigned_host (type : Ctype) :
    (svalBinopSigned type left op right).raw =
      (hostBranch true op left.raw right.raw).elim id HostOp.eval := by
  cases op with
  | div | mod =>
    simp only [svalBinopSigned, hostBranch, true_and]
    split_ifs <;> rfl
  | _ => rfl

/-- `sval_binop` gives the number of its branch, cast to the promoted type. -/
theorem svalBinop_host (left : Sval) (op : Binop) (right : Sval) :
    svalBinop left op right = svalCast (getPromotedType left.type right.type)
      ⟨getPromotedType left.type right.type,
        (svalBinopHost left op right).elim id HostOp.eval⟩ := by
  unfold svalBinop svalBinopHost
  dsimp only
  congr 1
  by_cases unsigned : typeUnsigned (getPromotedType left.type right.type) = true
  · rw [if_pos unsigned, unsigned, Bool.not_true,
      ← svalBinopUnsigned_host (getPromotedType left.type right.type)]
    rfl
  · rw [if_neg unsigned, Bool.eq_false_iff.mpr unsigned, Bool.not_false,
      ← svalBinopSigned_host (getPromotedType left.type right.type)]
    rfl

/-- A count of the host is in order exactly when its bits are. -/
theorem shift_defined_iff (word : BitVec 64) (signed : Bool) :
    (if signed then 0 ≤ word.toInt ∧ word.toInt < 64 else word.toNat < 64) ↔
      word.toNat < 64 := by
  have small := word.isLt
  have reading := BitVec.toInt_eq_toNat_cond word
  cases signed with
  | false => exact Iff.rfl
  | true =>
    rw [if_pos rfl]
    split_ifs at reading <;> omega

theorem least_iff (sval : Sval) : sval.raw = BitVec.intMin 64 ↔ sval.value = -2 ^ 63 := by
  rw [← BitVec.toInt_inj]
  exact Iff.rfl

theorem minusOne_iff (sval : Sval) : sval.raw = -1 ↔ sval.value = -1 := by
  rw [← BitVec.toInt_inj]
  exact Iff.rfl

/-- The tests of `sval_binop` are enough for all other calls. -/
theorem defined_iff : call.Defined ↔ call.Protected := by
  obtain ⟨left, op, right⟩ := call
  unfold BinopCall.Defined BinopCall.Protected svalBinopHost
  dsimp only
  cases op with
  | div =>
    refine iff_of_true ?_ (by simp)
    intro host branch
    simp only [hostBranch] at branch
    split_ifs at branch with zero special
    obtain rfl := Sum.inr.inj branch
    exact ⟨zero, special⟩
  | mod =>
    have special : ¬ ((!typeUnsigned (getPromotedType left.type right.type)) = true ∧
        left.raw = BitVec.intMin 64 ∧ right.raw = -1) ↔
        (typeUnsigned (getPromotedType left.type right.type) = true ∨
          left.value ≠ -2 ^ 63 ∨ right.value ≠ -1) := by
      rw [least_iff, minusOne_iff, not_and_or, not_and_or, Bool.not_eq_true',
        Bool.not_eq_false]
    simp only [hostBranch, forall_const, reduceCtorEq, or_self, false_implies, and_true]
    rw [← special]
    constructor
    · intro defined same
      have nonzero : right.raw ≠ 0 := by
        rw [same.2.2]
        decide
      rw [if_neg nonzero] at defined
      exact (defined _ rfl).2 same
    · intro other host branch
      split_ifs at branch with zero
      obtain rfl := Sum.inr.inj branch
      exact ⟨zero, other⟩
  | leftShift | rightShift =>
    simp only [hostBranch, Sum.inr.injEq, forall_eq', HostOp.Defined, shift_defined_iff,
      reduceCtorEq, false_implies, true_and, or_true, true_or, forall_const]
    exact Iff.rfl
  | mul | add | sub | or | and | xor =>
    refine iff_of_true ?_ (by simp)
    intro host branch
    obtain rfl := Sum.inr.inj branch
    trivial

end One

/-! ## The handlers with their calls -/

def svalBinopL (left : Sval) (op : Binop) (right : Sval) : Logged BinopCall Sval :=
  ⟨svalBinop left op right, [⟨left, op, right⟩]⟩

def cornerRangeL (op : Binop) (corners : Corners) (left : RangeList) :
    Logged BinopCall RangeList :=
  if svalBinopOverflows corners.lowLeft op corners.lowRight ||
      svalBinopOverflows corners.highLeft op corners.highRight then
    pure (allocWholeRl (rlType left))
  else do
    let min ← svalBinopL corners.lowLeft op corners.lowRight
    let max ← svalBinopL corners.highLeft op corners.highRight
    pure (allocRl min max)

def divideRlHelperL (quadrant : PosNeg) (left right : RangeList) : Logged BinopCall RangeList :=
  let right := cutZero quadrant right
  if left = [] ∨ right = [] then pure []
  else do
    let corners := divideCorners quadrant left right
    let min ← svalBinopL corners.lowLeft .div corners.lowRight
    let max ← svalBinopL corners.highLeft .div corners.highRight
    pure (allocRl min max)

def unionQuadrantsL (helper : PosNeg → RangeList → RangeList → Logged BinopCall RangeList)
    (leftNeg leftPos rightNeg rightPos : RangeList) : Logged BinopCall RangeList := do
  let posPos ← helper .posPos leftPos rightPos
  let posNeg ← helper .posNeg leftPos rightNeg
  let negPos ← helper .negPos leftNeg rightPos
  let negNeg ← helper .negNeg leftNeg rightNeg
  pure (rlUnion (rlUnion (rlUnion negNeg negPos) posNeg) posPos)

def rlHandleDivideL (left right : RangeList) : Logged BinopCall RangeList :=
  match knownZero left with
  | some sval => pure (allocRl sval sval)
  | none =>
    if isWholeRl left then pure []
    else if isWholeRl right then pure left
    else unionQuadrantsL divideRlHelperL (getNegRl left) (getPosRl left) (getNegRl right)
      (getPosRl right)

def multRlHelperL (quadrant : PosNeg) (left right : RangeList) : Logged BinopCall RangeList :=
  if left = [] ∨ right = [] then pure []
  else cornerRangeL .mul (multCorners quadrant left right) left

def rlHandleMultL (left right : RangeList) : Logged BinopCall RangeList :=
  match knownZero left with
  | some sval => pure (allocRl sval sval)
  | none =>
    match knownZero right with
    | some sval => pure (allocRl sval sval)
    | none =>
      if isWholeRl left || isWholeRl right then pure []
      else unionQuadrantsL multRlHelperL (getNegRl left) (getPosRl left) (getNegRl right)
        (getPosRl right)

def rlHandleAddL (left right : RangeList) : Logged BinopCall RangeList :=
  if (knownZero left).isSome then pure right
  else if (knownZero right).isSome then pure left
  else if svalBinopOverflows (rlMin left) .add (rlMin right) then pure []
  else do
    let min ← svalBinopL (rlMin left) .add (rlMin right)
    if svalBinopOverflows (rlMax left) .add (rlMax right) then pure []
    else do
      let max ← svalBinopL (rlMax left) .add (rlMax right)
      pure (allocRl min max)

def subRlHelperL (comparison : Comparison) (left right : RangeList) :
    Logged BinopCall RangeList :=
  if left = [] ∨ right = [] then pure []
  else
    cornerRangeL .sub ⟨rlMin left, subLowRight comparison left right, rlMax left, rlMin right⟩ left

def subQuadrantsL (comparison : Comparison) (left right : RangeList) :
    Logged BinopCall RangeList :=
  let positive := isPositive comparison left right
  unionQuadrantsL (fun _ => subRlHelperL comparison) (if positive then [] else getNegRl left)
    (getPosRl left) (if positive then [] else getNegRl right) (getPosRl right)

def subSignedL (type : Ctype) (comparison : Comparison) (left right : RangeList) :
    Logged BinopCall RangeList :=
  if getPosRl left ≠ [] ∧ svalIsMax (rlMax (getPosRl left)) ∧ comparison = .unknown then pure []
  else if getPosRl right ≠ [] ∧ svalIsMax (rlMax (getPosRl right)) ∧ comparison = .unknown then
    pure []
  else do
    let ret ← subQuadrantsL comparison left right
    pure (subFinish type comparison left right ret)

def rlHandleSubL (left right : RangeList) (comparison : Comparison) :
    Logged BinopCall RangeList :=
  if (knownZero right).isSome then pure left
  else if isWholeRl left || isWholeRl right then pure []
  else
    match rlType left with
    | none => pure []
    | some type =>
      if typeUnsigned type && decide (svalCmp (rlMin left) (rlMax right) < 0) then
        match getSignedEquivalent type with
        | none => pure []
        | some signedType =>
          subSignedL type comparison (castRl (some signedType) left)
            (castRl (some signedType) right)
      else subSignedL type comparison left right

def unionPartsL (handle : RangeList → RangeList → Logged BinopCall RangeList)
    (left right : RangeList) : Logged BinopCall RangeList :=
  left.foldlM (fun ret drangeLeft => right.foldlM (fun ret drangeRight => do
    let part ← handle (allocRl drangeLeft.min drangeLeft.max)
      (allocRl drangeRight.min drangeRight.max)
    pure (rlUnion ret part)) ret) []

def rlBinopOfL (handle : RangeList → RangeList → Logged BinopCall RangeList) (op : Binop)
    (left right : RangeList) : Logged BinopCall RangeList :=
  if left = [] ∨ right = [] then pure []
  else if (rlToSval left).isSome && (rlToSval right).isSome then do
    let val ← svalBinopL (rlMin left) op (rlMin right)
    pure (allocRl val val)
  else
    let lists := binopCast op left right
    if lists.1.length * lists.2.length > 6 then handle lists.1 lists.2
    else unionPartsL handle lists.1 lists.2

def negateRlL (rl : RangeList) : Logged BinopCall RangeList :=
  rlBinopOfL rlHandleMultL .mul rl minusOneRl

def modRlHelperL (quadrant : PosNeg) (left right : RangeList) : Logged BinopCall RangeList :=
  match quadrant with
  | .posPos => pure (modPosPos left right)
  | .posNeg =>
    if left = [] ∨ right = [] then pure []
    else do
      let right ← negateRlL right
      negateRlL (modPosPos left right)
  | .negPos =>
    let right := cutZero .negPos right
    if left = [] ∨ right = [] then pure []
    else do
      let left ← negateRlL left
      negateRlL (modPosPos left right)
  | .negNeg =>
    if left = [] ∨ right = [] then pure []
    else do
      let left ← negateRlL left
      let right ← negateRlL right
      pure (modPosPos left right)

def rlHandleModL (left right : RangeList) : Logged BinopCall RangeList :=
  match knownZero left with
  | some sval => pure (allocRl sval sval)
  | none =>
    if isWholeRl right then
      pure (allocRl (if svalIsNegative (rlMin left) then rlMin left else rlVal left 0)
        (rlMax left))
    else if svalIsMax (rlMax right) then pure left
    else
      let information := hasNegativeInformation left || hasNegativeInformation right
      unionQuadrantsL modRlHelperL (if information then getNegRl left else []) (getPosRl left)
        (if information then getNegRl right else []) (getPosRl right)

def rlHandleOrL (undefinedShift : Nat → BitVec 32) (left right : RangeList) :
    Logged BinopCall RangeList :=
  if ((rlToSval left).isSome || (rlToSval right).isSome) &&
      !svalBinopOverflows (rlMax left) .add (rlMax right) then
    rlBinopOfL rlHandleAddL .add left right
  else pure (orRange undefinedShift left right)

def rlHandleAndL (left right : RangeList) : Logged BinopCall RangeList :=
  match rlToSval left, rlToSval right with
  | some leftSval, some rightSval => do
      let sval ← svalBinopL leftSval .and rightSval
      pure (allocRl sval sval)
  | some leftSval, none => pure (rlAndMask right leftSval.raw)
  | none, some rightSval => pure (rlAndMask left rightSval.raw)
  | none, none => pure (andRange left right)

def lshiftStepL (shift : Sval) (state : RangeList × Bool) (tmp : DataRange) :
    Logged BinopCall (RangeList × Bool) :=
  let addZero := state.2 || tmp.min.raw == 0 ||
    decide (tmp.max.uvalue > (svalTypeMax tmp.max.type).uvalue >>> shift.uvalue)
  if tmp.min.raw = 0 ∧ tmp.max.raw = 0 then pure (state.1, addZero)
  else do
    let min ← svalBinopL (shiftStart tmp.min) .leftShift shift
    let max ← svalBinopL tmp.max .leftShift shift
    pure (addRange state.1 min max, addZero)

def rlHandleLshiftL (leftOrig rightOrig : RangeList) : Logged BinopCall RangeList :=
  match rlToSval rightOrig with
  | none => pure []
  | some shift =>
    if svalIsNegative shift then pure []
    else if shift.raw = 0 then pure leftOrig
    else do
      let state ← (lshiftCast leftOrig).foldlM (lshiftStepL shift) ([], false)
      let addZero := state.2 || !rlFitsInType state.1 (rlType leftOrig)
      let ret := castRl (rlType leftOrig) state.1
      pure (if addZero then addRange ret (rlVal leftOrig 0) (rlVal leftOrig 0) else ret)

def rshiftStepL (shift : Sval) (ret : RangeList) (tmp : DataRange) :
    Logged BinopCall RangeList := do
  let min ← svalBinopL tmp.min .rightShift shift
  let max ← svalBinopL tmp.max .rightShift shift
  pure (addRange ret min max)

def rlHandleRshiftL (leftOrig rightOrig : RangeList) : Logged BinopCall RangeList :=
  match rlToSval rightOrig with
  | none => pure []
  | some shift =>
    if svalIsNegative shift then pure []
    else if shift.raw = 0 then pure leftOrig
    else leftOrig.foldlM (rshiftStepL shift) []

def rlBinopHelper (undefinedShift : Nat → BitVec 32) (left : RangeList) (op : Binop)
    (right : RangeList) : RangeList :=
  match op with
  | .mod => rlHandleMod left right
  | .div => rlHandleDivide left right
  | .mul => rlHandleMult left right
  | .add => rlHandleAdd left right
  | .sub => rlHandleSub left right .unknown
  | .rightShift => rlHandleRshift left right
  | .leftShift => rlHandleLshift left right
  | .and => rlHandleAnd left right
  | .xor => rlHandleXor left right
  | .or => rlHandleOr undefinedShift left right

def rlBinopHelperL (undefinedShift : Nat → BitVec 32) (left : RangeList) (op : Binop)
    (right : RangeList) : Logged BinopCall RangeList :=
  match op with
  | .mod => rlHandleModL left right
  | .div => rlHandleDivideL left right
  | .mul => rlHandleMultL left right
  | .add => rlHandleAddL left right
  | .sub => rlHandleSubL left right .unknown
  | .rightShift => rlHandleRshiftL left right
  | .leftShift => rlHandleLshiftL left right
  | .and => rlHandleAndL left right
  | .xor => pure (rlHandleXor left right)
  | .or => rlHandleOrL undefinedShift left right

section Value

variable {left right : RangeList} {op : Binop} {quadrant : PosNeg}
  {helper : PosNeg → RangeList → RangeList → RangeList}
  {helperL : PosNeg → RangeList → RangeList → Logged BinopCall RangeList}
  {handle : RangeList → RangeList → RangeList}
  {handleL : RangeList → RangeList → Logged BinopCall RangeList}

theorem cornerRangeL_value (op : Binop) (corners : Corners) (left : RangeList) :
    (cornerRangeL op corners left).value = cornerRange op corners left := by
  unfold cornerRangeL cornerRange
  split_ifs <;> rfl

theorem divideRlHelperL_value (quadrant : PosNeg) (left right : RangeList) :
    (divideRlHelperL quadrant left right).value = divideRlHelper quadrant left right := by
  unfold divideRlHelperL divideRlHelper
  dsimp only
  split_ifs <;> rfl

theorem multRlHelperL_value (quadrant : PosNeg) (left right : RangeList) :
    (multRlHelperL quadrant left right).value = multRlHelper quadrant left right := by
  unfold multRlHelperL multRlHelper
  split_ifs
  · rfl
  · exact cornerRangeL_value _ _ _

theorem subRlHelperL_value (comparison : Comparison) (left right : RangeList) :
    (subRlHelperL comparison left right).value = subRlHelper comparison left right := by
  unfold subRlHelperL subRlHelper
  split_ifs
  · rfl
  · exact cornerRangeL_value _ _ _

theorem unionQuadrantsL_value
    (values : ∀ quadrant left right, (helperL quadrant left right).value =
      helper quadrant left right) (leftNeg leftPos rightNeg rightPos : RangeList) :
    (unionQuadrantsL helperL leftNeg leftPos rightNeg rightPos).value =
      unionQuadrants helper leftNeg leftPos rightNeg rightPos := by
  simp only [unionQuadrantsL, Logged.value_bind, Logged.value_pure, values]
  rfl

theorem rlHandleDivideL_value (left right : RangeList) :
    (rlHandleDivideL left right).value = rlHandleDivide left right := by
  unfold rlHandleDivideL rlHandleDivide
  cases knownZero left with
  | some sval => rfl
  | none =>
    dsimp only
    split_ifs
    · rfl
    · rfl
    · exact unionQuadrantsL_value divideRlHelperL_value _ _ _ _

theorem rlHandleMultL_value (left right : RangeList) :
    (rlHandleMultL left right).value = rlHandleMult left right := by
  unfold rlHandleMultL rlHandleMult
  cases knownZero left with
  | some sval => rfl
  | none =>
    cases knownZero right with
    | some sval => rfl
    | none =>
      dsimp only
      split_ifs
      · rfl
      · exact unionQuadrantsL_value multRlHelperL_value _ _ _ _

theorem rlHandleAddL_value (left right : RangeList) :
    (rlHandleAddL left right).value = rlHandleAdd left right := by
  unfold rlHandleAddL rlHandleAdd
  split_ifs with first second low high
  · rfl
  · rfl
  · rfl
  · rfl
  · rfl

theorem subSignedL_value (type : Ctype) (comparison : Comparison) (left right : RangeList) :
    (subSignedL type comparison left right).value = subSigned type comparison left right := by
  have quadrants : (subQuadrantsL comparison left right).value =
      subQuadrants comparison left right :=
    unionQuadrantsL_value (fun _ => subRlHelperL_value comparison) _ _ _ _
  unfold subSignedL subSigned
  split_ifs
  · rfl
  · rfl
  · rw [Logged.value_bind, Logged.value_pure, quadrants]

theorem rlHandleSubL_value (left right : RangeList) (comparison : Comparison) :
    (rlHandleSubL left right comparison).value = rlHandleSub left right comparison := by
  unfold rlHandleSubL rlHandleSub
  split_ifs
  · rfl
  · rfl
  · cases rlType left with
    | none => rfl
    | some type =>
      dsimp only
      split_ifs
      · cases getSignedEquivalent type with
        | none => rfl
        | some signedType => exact subSignedL_value _ _ _ _
      · exact subSignedL_value _ _ _ _

theorem rlBinopOfL_value (values : ∀ left right, (handleL left right).value = handle left right)
    (op : Binop) (left right : RangeList) :
    (rlBinopOfL handleL op left right).value = rlBinopOf handle op left right := by
  have parts : ∀ left right, (unionPartsL handleL left right).value =
      unionParts handle left right := by
    intro left right
    refine Logged.value_foldlM fun ret l _ => Logged.value_foldlM fun ret r _ => ?_
    rw [Logged.value_bind, Logged.value_pure, values]
  unfold rlBinopOfL rlBinopOf
  dsimp only
  split_ifs
  · rfl
  · rfl
  · exact values _ _
  · exact parts _ _

theorem negateRlL_value (rl : RangeList) : (negateRlL rl).value = negateRl rl :=
  rlBinopOfL_value rlHandleMultL_value _ _ _

theorem modRlHelperL_value (quadrant : PosNeg) (left right : RangeList) :
    (modRlHelperL quadrant left right).value = modRlHelper quadrant left right := by
  cases quadrant with
  | posPos => rfl
  | posNeg | negPos | negNeg =>
    unfold modRlHelperL modRlHelper
    dsimp only
    split_ifs
    · rfl
    · simp only [Logged.value_bind, Logged.value_pure, negateRlL_value]

theorem rlHandleModL_value (left right : RangeList) :
    (rlHandleModL left right).value = rlHandleMod left right := by
  unfold rlHandleModL rlHandleMod
  cases knownZero left with
  | some sval => rfl
  | none =>
    dsimp only
    by_cases whole : isWholeRl right = true
    · rw [if_pos whole, if_pos whole]
      rfl
    · rw [if_neg whole, if_neg whole]
      by_cases top : svalIsMax (rlMax right) = true
      · rw [if_pos top, if_pos top]
        rfl
      · rw [if_neg top, if_neg top]
        exact unionQuadrantsL_value modRlHelperL_value _ _ _ _

theorem rlHandleOrL_value (undefinedShift : Nat → BitVec 32) (left right : RangeList) :
    (rlHandleOrL undefinedShift left right).value = rlHandleOr undefinedShift left right := by
  unfold rlHandleOrL rlHandleOr
  split_ifs
  · exact rlBinopOfL_value rlHandleAddL_value _ _ _
  · rfl

theorem rlHandleAndL_value (left right : RangeList) :
    (rlHandleAndL left right).value = rlHandleAnd left right := by
  unfold rlHandleAndL rlHandleAnd
  cases rlToSval left with
  | none => cases rlToSval right <;> rfl
  | some leftSval => cases rlToSval right <;> rfl

theorem rlHandleLshiftL_value (left right : RangeList) :
    (rlHandleLshiftL left right).value = rlHandleLshift left right := by
  have steps : ∀ shift : Sval, ((lshiftCast left).foldlM (lshiftStepL shift) ([], false)).value =
      (lshiftCast left).foldl (lshiftStep shift) ([], false) := by
    intro shift
    refine Logged.value_foldlM fun state tmp _ => ?_
    unfold lshiftStepL lshiftStep
    dsimp only
    split_ifs <;> rfl
  unfold rlHandleLshiftL rlHandleLshift
  cases rlToSval right with
  | none => rfl
  | some shift =>
    dsimp only
    by_cases negative : svalIsNegative shift = true
    · rw [if_pos negative, if_pos negative]
      rfl
    · rw [if_neg negative, if_neg negative]
      by_cases zero : shift.raw = 0
      · rw [if_pos zero, if_pos zero]
        rfl
      · rw [if_neg zero, if_neg zero, Logged.value_bind, Logged.value_pure, steps]

theorem rlHandleRshiftL_value (left right : RangeList) :
    (rlHandleRshiftL left right).value = rlHandleRshift left right := by
  unfold rlHandleRshiftL rlHandleRshift
  cases rlToSval right with
  | none => rfl
  | some shift =>
    dsimp only
    split_ifs
    · rfl
    · rfl
    · exact Logged.value_foldlM fun ret tmp _ => rfl

/-- The handlers with the log return what the handlers return. -/
theorem rlBinopHelperL_value (undefinedShift : Nat → BitVec 32) (left : RangeList) (op : Binop)
    (right : RangeList) :
    (rlBinopHelperL undefinedShift left op right).value =
      rlBinopHelper undefinedShift left op right := by
  cases op with
  | mod => exact rlHandleModL_value left right
  | div => exact rlHandleDivideL_value left right
  | mul => exact rlHandleMultL_value left right
  | add => exact rlHandleAddL_value left right
  | sub => exact rlHandleSubL_value left right .unknown
  | rightShift => exact rlHandleRshiftL_value left right
  | leftShift => exact rlHandleLshiftL_value left right
  | and => exact rlHandleAndL_value left right
  | xor => rfl
  | or => exact rlHandleOrL_value undefinedShift left right

end Value

/-! ## What the handlers call -/

/-- The shifts of the handlers are protected: a single count that is not negative is below 64
when there is a range to shift. -/
def ShiftCounts (op : Binop) (left right : RangeList) : Prop :=
  ∀ shift, rlToSval right = some shift → svalIsNegative shift = false →
    (op = .rightShift ∧ left ≠ [] ∨
      op = .leftShift ∧ ∃ drange ∈ lshiftCast left, ¬ (drange.min.raw = 0 ∧ drange.max.raw = 0)) →
    shift.uvalue < 64

section Calls

variable {left right : RangeList} {op : Binop} {first second : Sval}
  {helper : PosNeg → RangeList → RangeList → Logged BinopCall RangeList}
  {handle : RangeList → RangeList → Logged BinopCall RangeList}

def Safe (op : Binop) : Prop := op ≠ .mod ∧ op ≠ .leftShift ∧ op ≠ .rightShift

instance (op : Binop) : Decidable (Safe op) := inferInstanceAs (Decidable (_ ∧ _ ∧ _))

theorem all_svalBinopL {holds : BinopCall → Prop} :
    (svalBinopL first op second).All holds ↔ holds ⟨first, op, second⟩ := by
  unfold Logged.All svalBinopL
  simp

theorem svalBinopL_defined (safe : Safe op) :
    (svalBinopL first op second).All BinopCall.Defined := by
  rw [all_svalBinopL, defined_iff]
  refine ⟨fun same => absurd same safe.1, fun shift => ?_⟩
  rcases shift with same | same
  · exact absurd same safe.2.1
  · exact absurd same safe.2.2

theorem cornerRangeL_defined (safe : Safe op) (corners : Corners) (left : RangeList) :
    (cornerRangeL op corners left).All BinopCall.Defined := by
  unfold cornerRangeL
  split_ifs
  · exact Logged.all_pure _
  · simp only [Logged.all_bind, Logged.all_pure, and_true]
    exact ⟨svalBinopL_defined safe, svalBinopL_defined safe⟩

theorem unionQuadrantsL_defined
    (parts : ∀ quadrant left right, (helper quadrant left right).All BinopCall.Defined)
    (leftNeg leftPos rightNeg rightPos : RangeList) :
    (unionQuadrantsL helper leftNeg leftPos rightNeg rightPos).All BinopCall.Defined := by
  simp only [unionQuadrantsL, Logged.all_bind, Logged.all_pure, parts, and_true]

theorem rlHandleDivideL_defined (left right : RangeList) :
    (rlHandleDivideL left right).All BinopCall.Defined := by
  have parts : ∀ quadrant left right,
      (divideRlHelperL quadrant left right).All BinopCall.Defined := by
    intro quadrant left right
    unfold divideRlHelperL
    dsimp only
    split_ifs
    · exact Logged.all_pure _
    · simp only [Logged.all_bind, Logged.all_pure, and_true]
      exact ⟨svalBinopL_defined (by decide), svalBinopL_defined (by decide)⟩
  unfold rlHandleDivideL
  split
  · exact Logged.all_pure _
  · split_ifs
    · exact Logged.all_pure _
    · exact Logged.all_pure _
    · exact unionQuadrantsL_defined parts _ _ _ _

theorem rlHandleMultL_defined (left right : RangeList) :
    (rlHandleMultL left right).All BinopCall.Defined := by
  have parts : ∀ quadrant left right,
      (multRlHelperL quadrant left right).All BinopCall.Defined := by
    intro quadrant left right
    unfold multRlHelperL
    split_ifs
    · exact Logged.all_pure _
    · exact cornerRangeL_defined (by decide) _ _
  unfold rlHandleMultL
  split
  · exact Logged.all_pure _
  · split
    · exact Logged.all_pure _
    · split_ifs
      · exact Logged.all_pure _
      · exact unionQuadrantsL_defined parts _ _ _ _

theorem rlHandleAddL_defined (left right : RangeList) :
    (rlHandleAddL left right).All BinopCall.Defined := by
  unfold rlHandleAddL
  split_ifs
  · exact Logged.all_pure _
  · exact Logged.all_pure _
  · exact Logged.all_pure _
  · simp only [Logged.all_bind, Logged.all_pure, and_true]
    exact svalBinopL_defined (by decide)
  · simp only [Logged.all_bind, Logged.all_pure, and_true]
    exact ⟨svalBinopL_defined (by decide), svalBinopL_defined (by decide)⟩

theorem subSignedL_defined (type : Ctype) (comparison : Comparison) (left right : RangeList) :
    (subSignedL type comparison left right).All BinopCall.Defined := by
  have parts : ∀ left right,
      (subRlHelperL comparison left right).All BinopCall.Defined := by
    intro left right
    unfold subRlHelperL
    split_ifs
    · exact Logged.all_pure _
    · exact cornerRangeL_defined (by decide) _ _
  unfold subSignedL
  split_ifs
  · exact Logged.all_pure _
  · exact Logged.all_pure _
  · rw [Logged.all_bind]
    exact ⟨unionQuadrantsL_defined (fun _ => parts) _ _ _ _, Logged.all_pure _⟩

theorem rlHandleSubL_defined (left right : RangeList) (comparison : Comparison) :
    (rlHandleSubL left right comparison).All BinopCall.Defined := by
  unfold rlHandleSubL
  split_ifs
  · exact Logged.all_pure _
  · exact Logged.all_pure _
  · cases rlType left with
    | none => exact Logged.all_pure _
    | some type =>
      dsimp only
      split_ifs
      · cases getSignedEquivalent type with
        | none => exact Logged.all_pure _
        | some signedType => exact subSignedL_defined _ _ _ _
      · exact subSignedL_defined _ _ _ _

theorem rlBinopOfL_defined (safe : Safe op)
    (parts : ∀ left right, (handle left right).All BinopCall.Defined) (left right : RangeList) :
    (rlBinopOfL handle op left right).All BinopCall.Defined := by
  unfold rlBinopOfL
  dsimp only
  split_ifs
  · exact Logged.all_pure _
  · rw [Logged.all_bind]
    exact ⟨svalBinopL_defined safe, Logged.all_pure _⟩
  · exact parts _ _
  · refine Logged.all_foldlM fun ret l _ => Logged.all_foldlM fun ret r _ => ?_
    rw [Logged.all_bind]
    exact ⟨parts _ _, Logged.all_pure _⟩

theorem rlHandleModL_defined (left right : RangeList) :
    (rlHandleModL left right).All BinopCall.Defined := by
  have negated : ∀ rl, (negateRlL rl).All BinopCall.Defined :=
    fun rl => rlBinopOfL_defined (by decide) rlHandleMultL_defined _ _
  have parts : ∀ quadrant left right,
      (modRlHelperL quadrant left right).All BinopCall.Defined := by
    intro quadrant left right
    cases quadrant with
    | posPos => exact Logged.all_pure _
    | posNeg | negPos | negNeg =>
      unfold modRlHelperL
      dsimp only
      split_ifs
      · exact Logged.all_pure _
      · simp only [Logged.all_bind, Logged.all_pure, negated, and_true]
  unfold rlHandleModL
  cases knownZero left with
  | some sval => exact Logged.all_pure _
  | none =>
    dsimp only
    by_cases whole : isWholeRl right = true
    · rw [if_pos whole]
      exact Logged.all_pure _
    · rw [if_neg whole]
      by_cases top : svalIsMax (rlMax right) = true
      · rw [if_pos top]
        exact Logged.all_pure _
      · rw [if_neg top]
        exact unionQuadrantsL_defined parts _ _ _ _

theorem rlHandleOrL_defined (undefinedShift : Nat → BitVec 32) (left right : RangeList) :
    (rlHandleOrL undefinedShift left right).All BinopCall.Defined := by
  unfold rlHandleOrL
  split_ifs
  · exact rlBinopOfL_defined (by decide) rlHandleAddL_defined _ _
  · exact Logged.all_pure _

theorem rlHandleAndL_defined (left right : RangeList) :
    (rlHandleAndL left right).All BinopCall.Defined := by
  unfold rlHandleAndL
  split
  · rw [Logged.all_bind]
    exact ⟨svalBinopL_defined (by decide), Logged.all_pure _⟩
  all_goals exact Logged.all_pure _

theorem shift_defined {left right shift : Sval} (kind : op = .leftShift ∨ op = .rightShift) :
    (BinopCall.mk left op shift).Defined ∧ (BinopCall.mk right op shift).Defined ↔
      shift.uvalue < 64 := by
  have other : op ≠ .mod := by
    rintro rfl
    rcases kind with same | same <;> cases same
  rw [defined_iff, defined_iff]
  exact ⟨fun both => both.1.2 kind, fun small =>
    ⟨⟨fun same => absurd same other, fun _ => small⟩,
      ⟨fun same => absurd same other, fun _ => small⟩⟩⟩

theorem rlHandleRshiftL_defined_iff (left right : RangeList) :
    (rlHandleRshiftL left right).All BinopCall.Defined ↔ ShiftCounts .rightShift left right := by
  unfold rlHandleRshiftL ShiftCounts
  cases found : rlToSval right with
  | none => exact iff_of_true (Logged.all_pure _) fun _ same => by cases same
  | some shift =>
    have step : ∀ ret, ∀ tmp ∈ left, (rshiftStepL shift ret tmp).All BinopCall.Defined ↔
        shift.uvalue < 64 := by
      intro ret tmp _
      simp only [rshiftStepL, Logged.all_bind, Logged.all_pure, and_true, all_svalBinopL]
      exact shift_defined (Or.inr rfl)
    dsimp only
    split_ifs with negative zero
    · refine iff_of_true (Logged.all_pure _) fun sval same nonneg => ?_
      obtain rfl := Option.some.inj same
      rw [negative] at nonneg
      cases nonneg
    · refine iff_of_true (Logged.all_pure _) fun sval same _ _ => ?_
      obtain rfl := Option.some.inj same
      rw [Sval.uvalue, zero]
      decide
    · rw [Logged.all_foldlM_iff step]
      constructor
      · intro every sval same _ some
        obtain rfl := Option.some.inj same
        rcases some with ⟨-, some⟩ | ⟨same, -⟩
        · obtain ⟨tmp, rest, rfl⟩ := List.exists_cons_of_ne_nil some
          exact every tmp List.mem_cons_self
        · cases same
      · intro counts tmp member
        exact counts shift rfl (Bool.eq_false_iff.mpr negative)
          (Or.inl ⟨rfl, List.ne_nil_of_mem member⟩)

theorem rlHandleLshiftL_defined_iff (left right : RangeList) :
    (rlHandleLshiftL left right).All BinopCall.Defined ↔ ShiftCounts .leftShift left right := by
  unfold rlHandleLshiftL ShiftCounts
  cases found : rlToSval right with
  | none => exact iff_of_true (Logged.all_pure _) fun _ same => by cases same
  | some shift =>
    have step : ∀ state, ∀ tmp ∈ lshiftCast left,
        (lshiftStepL shift state tmp).All BinopCall.Defined ↔
          (¬ (tmp.min.raw = 0 ∧ tmp.max.raw = 0) → shift.uvalue < 64) := by
      intro state tmp _
      unfold lshiftStepL
      dsimp only
      by_cases zeros : tmp.min.raw = 0 ∧ tmp.max.raw = 0
      · rw [if_pos zeros]
        exact iff_of_true (Logged.all_pure _) fun some => absurd zeros some
      · rw [if_neg zeros, forall_prop_of_true zeros]
        simp only [Logged.all_bind, Logged.all_pure, and_true, all_svalBinopL]
        exact shift_defined (Or.inl rfl)
    dsimp only
    by_cases negative : svalIsNegative shift = true
    · rw [if_pos negative]
      refine iff_of_true (Logged.all_pure _) fun sval same nonneg => ?_
      obtain rfl := Option.some.inj same
      rw [negative] at nonneg
      cases nonneg
    · rw [if_neg negative]
      by_cases zero : shift.raw = 0
      · rw [if_pos zero]
        refine iff_of_true (Logged.all_pure _) fun sval same _ _ => ?_
        obtain rfl := Option.some.inj same
        rw [Sval.uvalue, zero]
        decide
      · rw [if_neg zero, Logged.all_bind, and_iff_left (Logged.all_pure _),
          Logged.all_foldlM_iff step]
        constructor
        · intro every sval same _ some
          obtain rfl := Option.some.inj same
          rcases some with ⟨same, -⟩ | ⟨-, tmp, member, some⟩
          · cases same
          · exact every tmp member some
        · intro counts tmp member some
          exact counts shift rfl (Bool.eq_false_iff.mpr negative)
            (Or.inr ⟨rfl, tmp, member, some⟩)

/-- The host operations of `sval_binop`, called by itself and from `rl_binop_helper`, are all
defined exactly when a remainder is not of `LLONG_MIN` by minus one and a shift is by less
than 64.  The branches and the logs are those of the functions: they give the same values. -/
theorem svalBinop_defined_iff (undefinedShift : Nat → BitVec 32) :
    (∀ call : BinopCall, svalBinop call.left call.op call.right =
        svalCast (getPromotedType call.left.type call.right.type)
          ⟨getPromotedType call.left.type call.right.type,
            (svalBinopHost call.left call.op call.right).elim id HostOp.eval⟩ ∧
        (call.Defined ↔ call.Protected)) ∧
      ∀ (left right : RangeList) (op : Binop),
        (rlBinopHelperL undefinedShift left op right).value =
            rlBinopHelper undefinedShift left op right ∧
          ((rlBinopHelperL undefinedShift left op right).All BinopCall.Defined ↔
            ShiftCounts op left right) := by
  refine ⟨fun call => ⟨svalBinop_host call.left call.op call.right, defined_iff⟩,
    fun left right op => ⟨rlBinopHelperL_value undefinedShift left op right, ?_⟩⟩
  have others : Safe op ∨ op = .mod → ShiftCounts op left right := by
    rintro other sval - - (⟨rfl, -⟩ | ⟨rfl, -⟩)
    · exact absurd other (by decide)
    · exact absurd other (by decide)
  cases op with
  | mod => exact iff_of_true (rlHandleModL_defined _ _) (others (Or.inr rfl))
  | div => exact iff_of_true (rlHandleDivideL_defined _ _) (others (Or.inl (by decide)))
  | mul => exact iff_of_true (rlHandleMultL_defined _ _) (others (Or.inl (by decide)))
  | add => exact iff_of_true (rlHandleAddL_defined _ _) (others (Or.inl (by decide)))
  | sub => exact iff_of_true (rlHandleSubL_defined _ _ _) (others (Or.inl (by decide)))
  | and => exact iff_of_true (rlHandleAndL_defined _ _) (others (Or.inl (by decide)))
  | xor => exact iff_of_true (Logged.all_pure _) (others (Or.inl (by decide)))
  | or => exact iff_of_true (rlHandleOrL_defined _ _ _) (others (Or.inl (by decide)))
  | rightShift => exact rlHandleRshiftL_defined_iff left right
  | leftShift => exact rlHandleLshiftL_defined_iff left right

/-- `LLONG_MIN % -1`, and `0-10` shifted by 64. -/
theorem svalBinop_undefined :
    ¬ (BinopCall.mk (llongCtype.ofInt (-2 ^ 63)) .mod (llongCtype.ofInt (-1))).Defined ∧
      ¬ (rlBinopHelperL (fun _ => 0) [⟨intCtype.ofInt 0, intCtype.ofInt 10⟩] .rightShift
          [⟨intCtype.ofInt 64, intCtype.ofInt 64⟩]).All BinopCall.Defined := by
  constructor
  · intro defined
    rcases (defined_iff.mp defined).1 rfl with unsigned | other | other
    · exact absurd unsigned (by decide)
    · exact other (by decide)
    · exact other (by decide)
  · intro defined
    have counts := (rlHandleRshiftL_defined_iff _ _).mp defined
    have small := counts (intCtype.ofInt 64) (by decide) (by decide)
      (Or.inl ⟨rfl, List.cons_ne_nil _ _⟩)
    exact absurd small (by decide)

end Calls

end SmatchFormal.RangeMath
