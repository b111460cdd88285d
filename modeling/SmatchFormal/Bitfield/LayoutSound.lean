import SmatchFormal.Bitfield.Layout
import SmatchFormal.Lib.BitLength

/-!
# Members lie apart

As long as the conversions to `int` lose nothing, and as long as no field of width zero moves the
end of the structure backwards, every member begins where the members before it have ended, or
after that.
-/

namespace SmatchFormal.Bitfield

open Lib.BitLength

section Arithmetic

variable {x mask : BitVec 64} {k : Nat}

theorem toCInt_of_lt (small : x.toNat < 2 ^ 31) : toCInt x = x.toNat := by
  have same : (x.setWidth 32).toNat = x.toNat := by
    rw [BitVec.toNat_setWidth]
    exact Nat.mod_eq_of_lt (by omega)
  unfold toCInt
  rw [BitVec.toInt_eq_toNat_of_lt (by omega), same]

theorem toNat_ofCInt {n : Nat} (small : n < 2 ^ 64) : (ofCInt n).toNat = n := by
  unfold ofCInt
  rw [BitVec.ofInt_natCast, BitVec.toNat_ofNat]
  exact Nat.mod_eq_of_lt small

theorem bitsToBytes_natCast (n : Nat) : bitsToBytes n = ((n + 7) / 8 : Nat) := by
  unfold bitsToBytes
  rw [if_pos (Int.natCast_nonneg n)]
  rfl

theorem bytesToBits_natCast {n : Nat} (small : 8 * n < 2 ^ 31) :
    bytesToBits n = (8 * n : Nat) := by
  unfold bytesToBits
  rw [Int.bmod_eq_of_le (by omega) (by omega)]
  omega

theorem toNat_alignMask {alignment : BitVec 64} (positive : 0 < alignment.toNat)
    (small : 8 * alignment.toNat < 2 ^ 31) :
    (ofCInt (bytesToBits (toCInt alignment)) - 1).toNat = 8 * alignment.toNat - 1 := by
  have bits : (ofCInt (bytesToBits (toCInt alignment))).toNat = 8 * alignment.toNat := by
    rw [toCInt_of_lt (by omega), bytesToBits_natCast small]
    exact toNat_ofCInt (by omega)
  rw [BitVec.toNat_sub_of_le, bits]
  · rfl
  · rw [BitVec.le_def, bits]
    exact Nat.mul_pos (Nat.succ_pos 7) positive

end Arithmetic

theorem toNat_alignUp {x mask : BitVec 64} {k : Nat} (low : mask.toNat = 2 ^ k - 1)
    (small : x.toNat + 2 ^ k < 2 ^ 64) : (alignUp x mask).toNat = roundUp (2 ^ k) x.toNat :=
  toNat_add_and_not_mask low (by omega)

/-! ## Where a member begins -/

def Member.Unsized (sym : Member) : Prop := sym.bitSize < 0 ∧ sym.kind ≠ .regular true

instance (sym : Member) : Decidable sym.Unsized := inferInstanceAs (Decidable (_ ∧ _))

structure Member.WellFormed (sym : Member) : Prop where
  power : ∃ k, sym.alignment.toNat = 2 ^ k
  base : ∀ baseSize, sym.kind = .bitfield baseSize →
    0 < baseSize ∧ baseSize ≤ 128 ∧ sym.bitSize ≤ baseSize

namespace Info

variable (info : Info) (sym : Member)

def filled : Nat := info.bitSize.toNat

def unit : Nat := if info.packed then 8 else 8 * sym.alignment.toNat

def past : Nat := info.filled % info.unit sym

/-- The first bit of a member.  A bit-field goes on where the last member has ended if its unit has
room. -/
def start : Nat :=
  match sym.kind with
  | .bitfield baseSize =>
    if info.packed = true ∨ sym.bitSize = 0 ∨ info.past sym + sym.bitSize ≤ baseSize then
      info.filled
    else roundUp (info.unit sym) info.filled
  | .regular _ => roundUp (info.unit sym) info.filled

/-- The bits that a member takes; a field of width zero fills its unit. -/
def span : Nat :=
  match sym.kind with
  | .bitfield baseSize =>
    if sym.bitSize = 0 then
      if info.past sym ≠ 0 then (baseSize - info.past sym).toNat else 0
    else sym.bitSize.toNat
  | .regular _ => sym.bitSize.toNat

/-- The conversions to `int` lose nothing, and a field of width zero does not begin behind the end
of its unit. -/
structure Fits : Prop where
  aligned : info.packed = true ∨ 8 * sym.alignment.toNat < 2 ^ 31
  forward : ∀ baseSize, sym.kind = .bitfield baseSize → sym.bitSize = 0 →
    (info.past sym : Int) ≤ baseSize
  bounded : info.start sym + info.span sym < 2 ^ 31

end Info

/-! ## One member -/

/-- The number of bits before a boundary, from its offset. -/
theorem offset_of_dvd {b : BitVec 64} (bytes : 8 ∣ b.toNat) (small : b.toNat < 2 ^ 31) :
    8 * (ofCInt (bitsToBytes (toCInt b))).toNat = b.toNat := by
  rw [toCInt_of_lt small, bitsToBytes_natCast, toNat_ofCInt (by omega)]
  omega

theorem toNat_add_ofCInt {b : BitVec 64} {size : Int} (positive : 0 ≤ size)
    (small : b.toNat + size.toNat < 2 ^ 31) :
    (b + ofCInt size).toNat = b.toNat + size.toNat := by
  have same : ofCInt size = ofCInt (size.toNat : Int) := by rw [Int.toNat_of_nonneg positive]
  rw [same, BitVec.toNat_add, toNat_ofCInt (by omega)]
  exact Nat.mod_eq_of_lt (by omega)

/-- The bits that are left in a unit, which can be negative. -/
theorem room_eq {base : Int} {offset : BitVec 64} (positive : 0 < base) (small : base ≤ 128)
    (less : offset.toNat < 2 ^ 31) : toCInt (ofCInt base - offset) = base - offset.toNat := by
  have bits : (ofCInt base).toNat = base.toNat := by
    have same : ofCInt base = ofCInt (base.toNat : Int) := by
      rw [Int.toNat_of_nonneg positive.le]
    rw [same]
    exact toNat_ofCInt (by omega)
  unfold toCInt
  rw [BitVec.toInt_setWidth, BitVec.toNat_sub, bits]
  rcases Nat.lt_or_ge base.toNat offset.toNat with beyond | within
  · have wrapped : (2 ^ 64 - offset.toNat + base.toNat) % 2 ^ 64 =
        2 ^ 64 - offset.toNat + base.toNat := Nat.mod_eq_of_lt (by omega)
    rw [wrapped, Int.bmod]
    omega
  · have wrapped : (2 ^ 64 - offset.toNat + base.toNat) % 2 ^ 64 =
        base.toNat - offset.toNat := by omega
    rw [wrapped, Int.bmod]
    omega

def Info.mask (info : Info) (sym : Member) : BitVec 64 :=
  ofCInt (bytesToBits (toCInt (if info.packed then 1 else sym.alignment))) - 1

/-- The mask of a member keeps what is past the last boundary. -/
theorem unit_eq {info : Info} {sym : Member} (wellFormed : sym.WellFormed)
    (aligned : info.packed = true ∨ 8 * sym.alignment.toNat < 2 ^ 31) :
    ∃ k, info.unit sym = 2 ^ k ∧ 8 ∣ info.unit sym ∧ info.unit sym < 2 ^ 31 ∧
      (info.mask sym).toNat = 2 ^ k - 1 := by
  obtain ⟨k, power⟩ := wellFormed.power
  unfold Info.unit Info.mask
  cases packed : info.packed with
  | true =>
    refine ⟨3, rfl, Nat.dvd_refl 8, ?_, ?_⟩
    · show 8 < 2 ^ 31
      decide
    · show (ofCInt (bytesToBits (toCInt 1)) - 1).toNat = 2 ^ 3 - 1
      decide
  | false =>
    have small : 8 * sym.alignment.toNat < 2 ^ 31 :=
      aligned.resolve_left fun same => Bool.false_ne_true (packed.symm.trans same)
    have positive : 0 < sym.alignment.toNat := by
      rw [power]
      exact Nat.two_pow_pos k
    have bits : 8 * sym.alignment.toNat = 2 ^ (k + 3) := by
      rw [power, pow_add, Nat.mul_comm]
      rfl
    refine ⟨k + 3, bits, Nat.dvd_mul_right 8 _, small, ?_⟩
    rw [← bits]
    exact toNat_alignMask positive small

structure Laid (info : Info) (sym : Member) (next : Info) (p : Placed) : Prop where
  packed : next.packed = info.packed
  filled : next.filled = info.start sym + info.span sym
  member : p.member = sym
  position : 0 < p.width → p.position = info.start sym
  field : ∀ baseSize, sym.kind = .bitfield baseSize → 0 < p.width →
    p.packed = info.packed ∧ (info.packed = true → p.bitOffset.toNat = info.past sym) ∧
      (info.packed = false → p.bitOffset.toNat + p.width ≤ baseSize.toNat)

section Step

variable {info : Info} {sym : Member}

theorem aligned_start (wellFormed : sym.WellFormed) (fits : info.Fits sym)
    (start : info.start sym = roundUp (info.unit sym) info.filled) :
    (alignUp info.bitSize (info.mask sym)).toNat = info.start sym ∧
      8 * (ofCInt (bitsToBytes (toCInt (alignUp info.bitSize (info.mask sym))))).toNat =
        info.start sym := by
  obtain ⟨k, power, bytes, less, mask⟩ := unit_eq wellFormed fits.aligned
  have bounded := fits.bounded
  have reached : info.filled ≤ roundUp (info.unit sym) info.filled :=
    le_roundUp (power ▸ Nat.two_pow_pos k) _
  have aligned : (alignUp info.bitSize (info.mask sym)).toNat = info.start sym := by
    rw [start, power]
    refine toNat_alignUp mask ?_
    show info.filled + 2 ^ k < 2 ^ 64
    rw [← power]
    omega
  refine ⟨aligned, ?_⟩
  rw [offset_of_dvd, aligned]
  · rw [aligned, start]
    exact Nat.dvd_trans bytes (dvd_roundUp _ _)
  · omega

theorem toNat_past (wellFormed : sym.WellFormed) (fits : info.Fits sym) :
    (info.bitSize &&& info.mask sym).toNat = info.past sym := by
  obtain ⟨k, power, bytes, less, mask⟩ := unit_eq wellFormed fits.aligned
  unfold Info.past
  rw [power]
  exact toNat_and_mask mask

/-- A member that is not a bit-field. -/
theorem laid_regular (wellFormed : sym.WellFormed) (fits : info.Fits sym) {isArray : Bool}
    (kind : sym.kind = .regular isArray) (sized : ¬ sym.Unsized) :
    ∃ next p, layOutStruct sym info = (next, some p) ∧ Laid info sym next p := by
  have start : info.start sym = roundUp (info.unit sym) info.filled := by
    unfold Info.start
    rw [kind]
  have span : info.span sym = sym.bitSize.toNat := by
    unfold Info.span
    rw [kind]
  obtain ⟨aligned, offset⟩ := aligned_start wellFormed fits start
  have bounded := fits.bounded
  have size : (if sym.bitSize < 0 then 0 else sym.bitSize).toNat = info.span sym := by
    rw [span]
    split <;> omega
  have equation : layOutStruct sym info =
      ({ info with
          bitSize := (alignUp info.bitSize (info.mask sym) +
            ofCInt (if sym.bitSize < 0 then 0 else sym.bitSize)) },
        some ⟨sym, ofCInt (bitsToBytes (toCInt (alignUp info.bitSize (info.mask sym)))), 0,
          false⟩) := by
    refine (if_neg sized).trans ?_
    simp only [kind]
    rfl
  refine ⟨_, _, equation, rfl, ?_, rfl, fun _ => ?_, ?_⟩
  · have nonneg : 0 ≤ if sym.bitSize < 0 then 0 else sym.bitSize := by
      split <;> omega
    unfold Info.filled
    rw [toNat_add_ofCInt nonneg (by omega), aligned, size]
  · exact offset
  · intro baseSize other
    rw [kind] at other
    cases other

theorem layOutStruct_bitfield {baseSize : Int} (kind : sym.kind = .bitfield baseSize)
    (sized : ¬ sym.bitSize < 0) :
    layOutStruct sym info =
      (let bitOffset := info.bitSize &&& info.mask sym
       let room := toCInt (ofCInt baseSize - bitOffset)
       let width := if sym.bitSize ≠ 0 then sym.bitSize else if bitOffset ≠ 0 then room else 0
       if width > room ∧ ¬ info.packed then
         let bitSize := alignUp info.bitSize (info.mask sym)
         ({ info with bitSize := bitSize + ofCInt width },
           some ⟨sym, ofCInt (bitsToBytes (toCInt bitSize)), 0, false⟩)
       else
         ({ info with bitSize := info.bitSize + ofCInt width },
           some ⟨sym, ofCInt (bitsToBytes (toCInt (info.bitSize - bitOffset))),
             bitOffset.setWidth 8, info.packed⟩)) := by
  refine (if_neg fun unsized => sized unsized.1).trans ?_
  simp only [kind, if_neg sized]
  rfl

/-- A bit-field that has no room begins at the next boundary. -/
theorem laid_moved (wellFormed : sym.WellFormed) (fits : info.Fits sym) {baseSize : Int}
    (kind : sym.kind = .bitfield baseSize) (positive : 0 < sym.bitSize)
    (unpacked : info.packed = false) (full : baseSize < info.past sym + sym.bitSize) :
    ∃ next p, layOutStruct sym info = (next, some p) ∧ Laid info sym next p := by
  obtain ⟨based, small, narrow⟩ := wellFormed.base baseSize kind
  have start : info.start sym = roundUp (info.unit sym) info.filled := by
    unfold Info.start
    rw [kind]
    refine if_neg fun continues => ?_
    rcases continues with packed | empty | room
    · rw [unpacked] at packed
      cases packed
    · omega
    · omega
  have span : info.span sym = sym.bitSize.toNat := by
    unfold Info.span
    rw [kind]
    exact if_neg positive.ne'
  obtain ⟨aligned, offset⟩ := aligned_start wellFormed fits start
  have past := toNat_past wellFormed fits
  have bounded := fits.bounded
  have reached : info.filled ≤ info.start sym := by
    obtain ⟨k, power, _⟩ := unit_eq wellFormed fits.aligned
    rw [start]
    exact le_roundUp (power ▸ Nat.two_pow_pos k) _
  have below : info.past sym < 2 ^ 31 :=
    Nat.lt_of_le_of_lt (Nat.mod_le _ _) (by omega : info.filled < 2 ^ 31)
  have room : toCInt (ofCInt baseSize - (info.bitSize &&& info.mask sym)) =
      baseSize - info.past sym := by
    rw [room_eq based small (past ▸ below), past]
  have equation : layOutStruct sym info =
      ({ info with bitSize := alignUp info.bitSize (info.mask sym) + ofCInt sym.bitSize },
        some ⟨sym, ofCInt (bitsToBytes (toCInt (alignUp info.bitSize (info.mask sym)))), 0,
          false⟩) := by
    rw [layOutStruct_bitfield kind (Int.not_lt.mpr positive.le)]
    simp only [if_pos positive.ne']
    refine if_pos ⟨?_, ?_⟩
    · rw [room]
      omega
    · rw [unpacked]
      exact Bool.false_ne_true
  refine ⟨_, _, equation, rfl, ?_, rfl, fun _ => offset, ?_⟩
  · unfold Info.filled
    rw [toNat_add_ofCInt positive.le (by omega), aligned, span]
  · intro base same _
    rw [kind] at same
    cases same
    refine ⟨unpacked.symm, fun packed => ?_, fun _ => ?_⟩
    · rw [unpacked] at packed
      cases packed
    · show 0 + sym.bitSize.toNat ≤ baseSize.toNat
      omega

/-- A bit-field that has room begins where the last member has ended. -/
theorem laid_continued (wellFormed : sym.WellFormed) (fits : info.Fits sym) {baseSize : Int}
    (kind : sym.kind = .bitfield baseSize) (sized : 0 ≤ sym.bitSize)
    (continues : info.packed = true ∨ sym.bitSize = 0 ∨
      info.past sym + sym.bitSize ≤ baseSize) :
    ∃ next p, layOutStruct sym info = (next, some p) ∧ Laid info sym next p := by
  obtain ⟨k, power, bytes, less, mask⟩ := unit_eq wellFormed fits.aligned
  obtain ⟨based, small, narrow⟩ := wellFormed.base baseSize kind
  have start : info.start sym = info.filled := by
    unfold Info.start
    rw [kind]
    exact if_pos continues
  have bounded := fits.bounded
  have past := toNat_past wellFormed fits
  have some_bits : info.bitSize &&& info.mask sym ≠ 0 ↔ info.past sym ≠ 0 := by
    rw [← past, not_iff_not]
    constructor
    · intro zero
      rw [zero]
      rfl
    · exact fun zero => BitVec.eq_of_toNat_eq zero
  have below : info.past sym ≤ info.filled := Nat.mod_le _ _
  have room : toCInt (ofCInt baseSize - (info.bitSize &&& info.mask sym)) =
      baseSize - info.past sym := by
    rw [room_eq based small (by omega), past]
  obtain ⟨width, widthEq⟩ : ∃ width : Int, width =
      if sym.bitSize ≠ 0 then sym.bitSize
      else if info.past sym ≠ 0 then baseSize - info.past sym else 0 := ⟨_, rfl⟩
  have equation : layOutStruct sym info =
      ({ info with bitSize := info.bitSize + ofCInt width },
        some ⟨sym, ofCInt (bitsToBytes (toCInt (info.bitSize - (info.bitSize &&& info.mask sym)))),
          (info.bitSize &&& info.mask sym).setWidth 8, info.packed⟩) := by
    rw [layOutStruct_bitfield kind (Int.not_lt.mpr sized)]
    simp only [room, some_bits, ← widthEq]
    refine if_neg ?_
    rintro ⟨wide, unpacked⟩
    rcases continues with packed | empty | fitting
    · exact unpacked packed
    · rw [widthEq, if_neg (not_not.mpr empty)] at wide
      split at wide <;> omega
    · rw [widthEq] at wide
      split at wide
      · omega
      · split at wide <;> omega
  have span : width = info.span sym := by
    unfold Info.span
    rw [widthEq, kind]
    have forward := fits.forward baseSize kind
    by_cases empty : sym.bitSize = 0
    · simp only [empty, ne_eq, not_true_eq_false, if_false, if_true]
      split
      · exact (Int.toNat_of_nonneg (by have := forward empty; omega)).symm
      · rfl
    · simp only [ne_eq, empty, not_false_eq_true, if_true, if_false]
      exact (Int.toNat_of_nonneg sized).symm
  have boundary : (info.bitSize - (info.bitSize &&& info.mask sym)).toNat =
      info.filled - info.past sym := by
    rw [BitVec.toNat_sub_of_le, past]
    · rfl
    · rw [BitVec.le_def, past]
      exact below
  have offset : 8 * (ofCInt (bitsToBytes (toCInt
      (info.bitSize - (info.bitSize &&& info.mask sym))))).toNat = info.filled - info.past sym := by
    rw [offset_of_dvd, boundary]
    · rw [boundary]
      exact Nat.dvd_trans bytes (Nat.dvd_sub_mod _)
    · omega
  have inUnit : info.packed = true → info.past sym < 8 := by
    intro packed
    unfold Info.past Info.unit
    rw [if_pos packed]
    exact Nat.mod_lt _ (Nat.succ_pos 7)
  have inBase : info.packed = false → 0 < sym.bitSize.toNat →
      info.past sym + sym.bitSize.toNat ≤ baseSize.toNat := by
    intro unpacked positive
    rcases continues with packed | empty | fitting
    · rw [unpacked] at packed
      cases packed
    · omega
    · omega
  have short : 0 < sym.bitSize.toNat →
      ((info.bitSize &&& info.mask sym).setWidth 8).toNat = info.past sym := by
    intro positive
    rw [BitVec.toNat_setWidth, past]
    refine Nat.mod_eq_of_lt ?_
    cases packed : info.packed with
    | true =>
      have := inUnit packed
      omega
    | false =>
      have := inBase packed positive
      omega
  refine ⟨_, _, equation, rfl, ?_, rfl, fun positive => ?_, ?_⟩
  · show (info.bitSize + ofCInt width).toNat = info.start sym + info.span sym
    have small : info.bitSize.toNat + width.toNat < 2 ^ 31 := by
      have same : info.bitSize.toNat = info.filled := rfl
      omega
    rw [toNat_add_ofCInt (by omega) small, start]
    unfold Info.filled
    omega
  · show 8 * (ofCInt (bitsToBytes (toCInt
        (info.bitSize - (info.bitSize &&& info.mask sym))))).toNat +
      ((info.bitSize &&& info.mask sym).setWidth 8).toNat = info.start sym
    rw [offset, short positive, start]
    exact Nat.sub_add_cancel below
  · intro base same positive
    rw [kind] at same
    cases same
    refine ⟨rfl, fun _ => short positive, fun unpacked => ?_⟩
    show ((info.bitSize &&& info.mask sym).setWidth 8).toNat + sym.bitSize.toNat ≤ baseSize.toNat
    rw [short positive]
    exact inBase unpacked positive

end Step

end SmatchFormal.Bitfield
