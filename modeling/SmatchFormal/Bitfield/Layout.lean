import Mathlib.Algebra.Order.Ring.Int
import Mathlib.Data.Nat.Bits
import Mathlib.Order.Interval.Finset.Nat

/-!
# Layout of structures

`examine_struct_union_type` lays out the members of a structure one after the other.  Positions are
kept in an `unsigned long`; the size of a member and the conversions between bits and bytes are
`int`.
-/

namespace SmatchFormal.Bitfield

def toCInt (x : BitVec 64) : Int := (x.setWidth 32).toInt

def ofCInt (x : Int) : BitVec 64 := BitVec.ofInt 64 x

def bitsToBytes (bits : Int) : Int := if bits ≥ 0 then (bits + 7) / 8 else -1

def bytesToBits (bytes : Int) : Int := (bytes * 8).bmod (2 ^ 32)

def alignUp (x mask : BitVec 64) : BitVec 64 := (x + mask) &&& ~~~mask

/-- What a member is: a bit-field over a type of some size, or anything else. -/
inductive Kind where
  | regular (isArray : Bool)
  | bitfield (baseSize : Int)
  deriving DecidableEq

/-- A member, with its size and its alignment.  The size is negative if it is not known; that of a
bit-field is its width. -/
structure Member where
  named : Bool
  kind : Kind
  bitSize : Int
  alignment : BitVec 64
  deriving DecidableEq

def Member.isBitfield (sym : Member) : Bool :=
  match sym.kind with
  | .regular _ => false
  | .bitfield _ => true

/-- What is known of a member when it is laid out.  `bit_offset` has eight bits. -/
structure Placed where
  member : Member
  offset : BitVec 64
  bitOffset : BitVec 8
  packed : Bool
  deriving DecidableEq

structure Info where
  packed : Bool
  maxAlign : BitVec 64
  bitSize : BitVec 64
  deriving DecidableEq

/-- `lay_out_struct`.  A member of unknown size that is not an array is left out. -/
def layOutStruct (sym : Member) (info : Info) : Info × Option Placed :=
  let isArray := sym.kind = .regular true
  if sym.bitSize < 0 ∧ ¬ isArray then (info, none)
  else
    let baseSize := if sym.bitSize < 0 then 0 else sym.bitSize
    let alignment := if info.packed then 1 else sym.alignment
    let alignBitMask := ofCInt (bytesToBits (toCInt alignment)) - 1
    match sym.kind with
    | .bitfield bitfieldBaseSize =>
      let bitOffset := info.bitSize &&& alignBitMask
      let room := toCInt (ofCInt bitfieldBaseSize - bitOffset)
      let width := if baseSize ≠ 0 then baseSize else if bitOffset ≠ 0 then room else 0
      if width > room ∧ ¬ info.packed then
        let bitSize := alignUp info.bitSize alignBitMask
        ({ info with bitSize := bitSize + ofCInt width },
          some ⟨sym, ofCInt (bitsToBytes (toCInt bitSize)), 0, false⟩)
      else
        ({ info with bitSize := info.bitSize + ofCInt width },
          some ⟨sym, ofCInt (bitsToBytes (toCInt (info.bitSize - bitOffset))),
            bitOffset.setWidth 8, info.packed⟩)
    | .regular _ =>
      let bitSize := alignUp info.bitSize alignBitMask
      ({ info with bitSize := bitSize + ofCInt baseSize },
        some ⟨sym, ofCInt (bitsToBytes (toCInt bitSize)), 0, false⟩)

/-- One turn of the loop over the members.  Unnamed bit-fields do not affect the alignment. -/
def examineMember (info : Info) (member : Member) : Info × Option Placed :=
  let info :=
    if member.alignment > info.maxAlign ∧ ¬ info.packed ∧
        (member.named ∨ ¬ member.isBitfield) then
      { info with maxAlign := member.alignment }
    else info
  layOutStruct member info

def examineMembers (info : Info) : List Member → Info × List Placed
  | [] => (info, [])
  | member :: members =>
    let (info, placed) := examineMember info member
    let (info, rest) := examineMembers info members
    (info, placed.toList ++ rest)

def Info.init (packed : Bool) : Info := ⟨packed, 1, 0⟩

/-- The members of a structure and its size in bits, from its own alignment if it has one. -/
def examineStructType (packed : Bool) (alignment : Option (BitVec 64)) (members : List Member) :
    List Placed × Int :=
  let (info, placed) := examineMembers (.init packed) members
  let alignment := alignment.getD info.maxAlign
  let bitAlign := ofCInt (bytesToBits (toCInt alignment)) - 1
  (placed, toCInt (alignUp info.bitSize bitAlign))

namespace Placed

def width (p : Placed) : Nat := p.member.bitSize.toNat

def position (p : Placed) : Nat := 8 * p.offset.toNat + p.bitOffset.toNat

def bits (p : Placed) : Finset Nat := Finset.Ico p.position (p.position + p.width)

end Placed

end SmatchFormal.Bitfield
