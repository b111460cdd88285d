import SmatchFormal.Ranges.Sval

/-!
# Arithmetic on values

`sval_binop` computes in the 64 bits of the two values and casts the result to
the promoted type.
-/

namespace SmatchFormal.Ranges

inductive Binop where
  | mul | div | add | sub | mod | or | and | rightShift | leftShift | xor
  deriving DecidableEq

def getPromotedType (left right : Ctype) : Ctype :=
  let ret := intCtype
  let ret := if typePositiveBits left > typePositiveBits ret then left else ret
  if typePositiveBits right > typePositiveBits ret then right else ret

def svalBinopUnsigned (type : Ctype) (left : Sval) (op : Binop) (right : Sval) : Sval :=
  ⟨type, match op with
    | .mul => left.raw * right.raw
    | .div => if right.raw = 0 then 123456789 else left.raw / right.raw
    | .add => left.raw + right.raw
    | .sub => left.raw - right.raw
    | .mod => if right.raw = 0 then 123456789 else left.raw % right.raw
    | .or => left.raw ||| right.raw
    | .and => left.raw &&& right.raw
    | .rightShift => left.raw >>> right.raw.toNat
    | .leftShift => left.raw <<< right.raw.toNat
    | .xor => left.raw ^^^ right.raw⟩

def svalBinopSigned (type : Ctype) (left : Sval) (op : Binop) (right : Sval) : Sval :=
  ⟨type, match op with
    | .mul => left.raw * right.raw
    | .div =>
      if right.raw = 0 then 123456789
      else if left.raw = BitVec.intMin 64 ∧ right.raw = -1 then 12345678
      else left.raw.sdiv right.raw
    | .add => left.raw + right.raw
    | .sub => left.raw - right.raw
    | .mod => if right.raw = 0 then 123456789 else left.raw.srem right.raw
    | .or => left.raw ||| right.raw
    | .and => left.raw &&& right.raw
    | .rightShift => left.raw.sshiftRight right.raw.toNat
    | .leftShift => left.raw <<< right.raw.toNat
    | .xor => left.raw ^^^ right.raw⟩

def svalBinop (left : Sval) (op : Binop) (right : Sval) : Sval :=
  let type := getPromotedType left.type right.type
  let ret := if typeUnsigned type then svalBinopUnsigned type left op right
    else svalBinopSigned type left op right
  svalCast type ret

/-- The 64 bits determine the number up to a multiple of `2 ^ 64`. -/
theorem val_emod (sval : Sval) : sval.val % 2 ^ 64 = (sval.raw.toNat : Int) := by
  rw [← Sval.uvalue_eq]
  rfl

/-- Going through the promoted type does not matter for the conversion to the type. -/
theorem wrap_promoted {type : Ctype} {x y : Int} (same : y % 2 ^ 64 = x % 2 ^ 64)
    (low : type.lo - 1 ≤ x) (high : x ≤ type.hi + 1) :
    type.wrap ((getPromotedType type type).wrap y) = type.wrap x := by
  obtain ⟨address, kind⟩ := type
  unfold Ctype.lo at low
  unfold Ctype.hi at high
  unfold Ctype.wrap getPromotedType
  cases kind <;>
    simp [typePositiveBits, IntKind.positiveBits, IntKind.unsigned, IntKind.bits, intCtype,
      IntKind.wrap, IntKind.lo, IntKind.hi] at low high ⊢
  case bool =>
      have exact : (y + 2147483648) % 4294967296 - 2147483648 = x := by omega
      rw [exact]
  all_goals omega

/-! ## The promoted type -/

theorem getPromotedType_ne_bool (left right : Ctype) :
    (getPromotedType left right).kind ≠ .bool := by
  have wide : ∀ type : Ctype, typePositiveBits type > typePositiveBits intCtype →
      type.kind ≠ .bool := by
    intro type more same
    unfold typePositiveBits at more
    rw [same] at more
    exact absurd more (by decide)
  have start : (if typePositiveBits left > typePositiveBits intCtype then left
      else intCtype).kind ≠ .bool := by
    split_ifs with more
    · exact wide left more
    · decide
  unfold getPromotedType
  dsimp only
  split_ifs with first second second
  · intro same
    unfold typePositiveBits at second first
    rw [same] at second
    exact absurd (Nat.lt_of_lt_of_le first second.le) (by decide)
  · exact wide left first
  · exact wide right second
  · decide

/-- A conversion to a type that is not `_Bool` reads the 64 bits. -/
theorem wrap_congr {type : Ctype} (other : type.kind ≠ .bool) {x y : Int}
    (same : x % 2 ^ 64 = y % 2 ^ 64) : type.wrap x = type.wrap y := by
  obtain ⟨address, kind⟩ := type
  unfold Ctype.wrap
  cases kind <;> simp [IntKind.wrap, IntKind.unsigned, IntKind.bits] at other same ⊢ <;> omega

theorem svalBinop_add_val (left right : Sval) :
    (svalBinop left .add right).val =
      (getPromotedType left.type right.type).wrap (left.val + right.val) := by
  have result : ∀ ret : Sval, ret.raw = left.raw + right.raw →
      (getPromotedType left.type right.type).wrap ret.val =
        (getPromotedType left.type right.type).wrap (left.val + right.val) := by
    intro ret raw
    refine wrap_congr (getPromotedType_ne_bool left.type right.type) ?_
    have first := val_emod left
    have second := val_emod right
    rw [val_emod, raw, BitVec.toNat_add]
    omega
  unfold svalBinop
  rw [svalCast_val]
  by_cases unsigned : typeUnsigned (getPromotedType left.type right.type) = true
  · rw [if_pos unsigned]
    exact result _ rfl
  · rw [if_neg unsigned]
    exact result _ rfl

theorem promoted_bounds (type : Ctype) :
    (getPromotedType type intCtype).lo ≤ type.lo ∧
      type.hi ≤ (getPromotedType type intCtype).hi := by
  obtain ⟨address, kind⟩ := type
  cases kind <;> simp [getPromotedType, typePositiveBits, IntKind.positiveBits, IntKind.unsigned,
    IntKind.bits, intCtype, Ctype.lo, Ctype.hi, IntKind.lo, IntKind.hi]

section One

variable {type : Ctype} {sval : Sval}

theorem svalBinop_add_one (typed : sval.OfType type) :
    (svalCast type (svalBinop sval .add (svalTypeVal type 1))).val = type.wrap (sval.val + 1) := by
  obtain ⟨own, low, high⟩ := typed
  unfold svalBinop
  have types : getPromotedType sval.type (svalTypeVal type 1).type = getPromotedType type type := by
    rw [own]
    rfl
  simp only [types]
  rw [svalCast_val, svalCast_val]
  have result : ∀ ret : Sval, ret.raw = sval.raw + 1 →
      type.wrap ((getPromotedType type type).wrap ret.val) = type.wrap (sval.val + 1) := by
    intro ret raw
    refine wrap_promoted ?_ (by omega) (by omega)
    have word := val_emod sval
    rw [val_emod, raw, BitVec.toNat_add]
    change (((sval.raw.toNat + 1) % 2 ^ 64 : Nat) : Int) = _
    omega
  by_cases unsigned : typeUnsigned (getPromotedType type type) = true
  · rw [if_pos unsigned]
    exact result _ rfl
  · rw [if_neg unsigned]
    exact result _ rfl

theorem svalBinop_sub_one (typed : sval.OfType type) :
    (svalCast type (svalBinop sval .sub (svalTypeVal type 1))).val = type.wrap (sval.val - 1) := by
  obtain ⟨own, low, high⟩ := typed
  unfold svalBinop
  have types : getPromotedType sval.type (svalTypeVal type 1).type = getPromotedType type type := by
    rw [own]
    rfl
  simp only [types]
  rw [svalCast_val, svalCast_val]
  have result : ∀ ret : Sval, ret.raw = sval.raw - 1 →
      type.wrap ((getPromotedType type type).wrap ret.val) = type.wrap (sval.val - 1) := by
    intro ret raw
    refine wrap_promoted ?_ (by omega) (by omega)
    have word := val_emod sval
    have bound := sval.raw.isLt
    rw [val_emod, raw, BitVec.toNat_sub]
    change (((2 ^ 64 - 1 + sval.raw.toNat) % 2 ^ 64 : Nat) : Int) = _
    omega
  by_cases unsigned : typeUnsigned (getPromotedType type type) = true
  · rw [if_pos unsigned]
    exact result _ rfl
  · rw [if_neg unsigned]
    exact result _ rfl

end One

end SmatchFormal.Ranges
