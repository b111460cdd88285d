import SmatchFormal.Bitfield.LayoutSound
import SmatchFormal.Bitfield.Access

/-!
# Structures with bit-fields

The members of a structure lie apart and inside of it, and a bit-field can be written and read
back exactly if its unit is as short as the masks are, or is the bit-field itself.
-/

namespace SmatchFormal.Bitfield

open Lib.BitLength

/-! ## Conditions on the run -/

def Info.storage (info : Info) (sym : Member) (baseSize : Int) : Nat :=
  if info.packed then 8 * ((info.past sym + sym.bitSize.toNat + 7) / 8) else baseSize.toNat

def FitsAll (info : Info) : List Member → Prop
  | [] => True
  | member :: members =>
    (¬ member.Unsized → info.Fits member) ∧ FitsAll (examineMember info member).1 members

/-- Each bit-field that can be named has a unit that the masks can describe, or is its unit. -/
def UnitsFit (info : Info) : List Member → Prop
  | [] => True
  | member :: members =>
    (∀ baseSize, member.kind = .bitfield baseSize → member.named = true → 0 < member.bitSize →
      info.storage member baseSize ≤ 64 ∨
        info.storage member baseSize = member.bitSize.toNat) ∧
    UnitsFit (examineMember info member).1 members

structure Info.Ends (info : Info) (alignment : Option (BitVec 64)) : Prop where
  aligned : 8 * (alignment.getD info.maxAlign).toNat < 2 ^ 31
  bounded : roundUp (8 * (alignment.getD info.maxAlign).toNat) info.filled < 2 ^ 31

structure Sound (packed : Bool) (alignment : Option (BitVec 64)) (members : List Member) :
    Prop where
  disjoint : (examineStructType packed alignment members).1.Pairwise
    fun p q => Disjoint p.bits q.bits
  inside : ∀ p ∈ (examineStructType packed alignment members).1, ∀ i ∈ p.bits,
    (i : Int) < (examineStructType packed alignment members).2
  accessible : ∀ p ∈ (examineStructType packed alignment members).1,
    p.member.named = true → p.member.isBitfield = true → 0 < p.width → p.Accessible

namespace Laid

variable {info next : Info} {sym : Member} {p : Placed}

theorem width_le_span (laid : Laid info sym next p) (positive : 0 < p.width) :
    p.width = info.span sym := by
  have size : 0 < sym.bitSize.toNat := by
    rw [← laid.member]
    exact positive
  unfold Placed.width Info.span
  rw [laid.member]
  cases sym.kind with
  | regular isArray => rfl
  | bitfield baseSize => exact (if_neg (by omega)).symm

theorem bits_subset (laid : Laid info sym next p) (reached : info.filled ≤ info.start sym) :
    p.bits ⊆ Finset.Ico info.filled next.filled := by
  intro i member
  obtain ⟨first, last⟩ := Finset.mem_Ico.mp member
  have positive : 0 < p.width := by omega
  rw [laid.position positive] at first last
  rw [laid.width_le_span positive] at last
  rw [laid.filled]
  exact Finset.mem_Ico.mpr ⟨Nat.le_trans reached first, last⟩

section

variable {baseSize : Int} (laid : Laid info sym next p) (wellFormed : sym.WellFormed)
  (kind : sym.kind = .bitfield baseSize) (positive : 0 < p.width)
include laid wellFormed kind positive

theorem bitfieldBaseType_eq :
    p.bitfieldBaseType = info.storage sym baseSize ∧
      p.bitOffset.toNat + p.width ≤ p.bitfieldBaseType := by
  obtain ⟨based, small, narrow⟩ := wellFormed.base baseSize kind
  obtain ⟨packed, offset, room⟩ := laid.field baseSize kind positive
  have size : p.width = sym.bitSize.toNat := by
    unfold Placed.width
    rw [laid.member]
  unfold Placed.bitfieldBaseType Info.storage
  rw [laid.member, kind]
  simp only [packed]
  cases flag : info.packed with
  | false =>
    simp only [Bool.false_eq_true, if_false, true_and]
    exact room flag
  | true =>
    have before : info.past sym < 8 := by
      unfold Info.past Info.unit
      rw [if_pos flag]
      exact Nat.mod_lt _ (Nat.succ_pos 7)
    have sum : (p.bitOffset.toNat : Int) + sym.bitSize =
        (info.past sym + sym.bitSize.toNat : Nat) := by
      rw [offset flag]
      omega
    simp only [if_true]
    rw [sum, bitsToBytes_natCast, bytesToBits_natCast (by omega), Int.toNat_natCast, offset flag]
    omega

theorem accessible_iff :
    p.Accessible ↔
      info.storage sym baseSize ≤ 64 ∨ info.storage sym baseSize = sym.bitSize.toNat := by
  obtain ⟨unit, inside⟩ := laid.bitfieldBaseType_eq wellFormed kind positive
  rw [Placed.accessible_iff positive inside, unit]
  unfold Placed.width
  rw [laid.member]

end

end Laid

theorem layOutStruct_laid {info : Info} {sym : Member} (wellFormed : sym.WellFormed)
    (fits : info.Fits sym) (sized : ¬ sym.Unsized) :
    info.filled ≤ info.start sym ∧
      ∃ next p, layOutStruct sym info = (next, some p) ∧ Laid info sym next p := by
  obtain ⟨k, power, _⟩ := unit_eq wellFormed fits.aligned
  have rounded : info.filled ≤ roundUp (info.unit sym) info.filled :=
    le_roundUp (power ▸ Nat.two_pow_pos k) _
  cases kind : sym.kind with
  | regular isArray =>
    refine ⟨?_, laid_regular wellFormed fits kind sized⟩
    unfold Info.start
    rw [kind]
    exact rounded
  | bitfield baseSize =>
    have known : 0 ≤ sym.bitSize := by
      refine Int.not_lt.mp fun negative => sized ⟨negative, ?_⟩
      rw [kind]
      exact Kind.noConfusion
    constructor
    · unfold Info.start
      rw [kind]
      dsimp only
      split
      · exact Nat.le_refl _
      · exact rounded
    · by_cases continues : info.packed = true ∨ sym.bitSize = 0 ∨
          info.past sym + sym.bitSize ≤ baseSize
      · exact laid_continued wellFormed fits kind known continues
      · obtain ⟨unpacked, positive, full⟩ := not_or.mp continues |>.imp_right not_or.mp
        refine laid_moved wellFormed fits kind ?_ (Bool.not_eq_true _ ▸ unpacked) ?_
        · omega
        · omega

/-! ## All members -/

def Power (alignment : BitVec 64) : Prop := ∃ k, alignment.toNat = 2 ^ k

/-- Only the bits that are laid out matter to a member, not the alignment so far. -/
theorem examineMember_eq {info : Info} {member : Member} (wellFormed : member.WellFormed)
    (power : Power info.maxAlign) :
    ∃ maxAlign, Power maxAlign ∧
      examineMember info member =
        ({ (layOutStruct member info).1 with maxAlign := maxAlign },
          (layOutStruct member info).2) := by
  have moves : ∀ maxAlign, layOutStruct member { info with maxAlign := maxAlign } =
      ({ (layOutStruct member info).1 with maxAlign := maxAlign },
        (layOutStruct member info).2) := by
    intro maxAlign
    unfold layOutStruct
    cases member.kind with
    | regular isArray =>
      dsimp only
      split_ifs <;> rfl
    | bitfield baseSize =>
      dsimp only
      split_ifs <;> rfl
  unfold examineMember
  dsimp only
  split
  · exact ⟨member.alignment, wellFormed.power, moves _⟩
  · exact ⟨info.maxAlign, power, moves _⟩

structure Examined (info : Info) (members : List Member) : Prop where
  reached : info.filled ≤ (examineMembers info members).1.filled
  power : Power (examineMembers info members).1.maxAlign
  disjoint : (examineMembers info members).2.Pairwise fun p q => Disjoint p.bits q.bits
  inside : ∀ p ∈ (examineMembers info members).2,
    p.bits ⊆ Finset.Ico info.filled (examineMembers info members).1.filled
  accessible : (∀ p ∈ (examineMembers info members).2,
    p.member.named = true → p.member.isBitfield = true → 0 < p.width → p.Accessible) ↔
      UnitsFit info members

theorem isBitfield_iff {sym : Member} :
    sym.isBitfield = true ↔ ∃ baseSize, sym.kind = .bitfield baseSize := by
  unfold Member.isBitfield
  cases sym.kind with
  | regular isArray => exact ⟨Bool.noConfusion, fun ⟨_, other⟩ => Kind.noConfusion other⟩
  | bitfield baseSize => exact ⟨fun _ => ⟨baseSize, rfl⟩, fun _ => rfl⟩

theorem Examined.skip {info : Info} {member : Member} {members : List Member}
    (unsized : member.Unsized) (skipped : (examineMember info member).2 = none)
    (same : (examineMember info member).1.filled = info.filled)
    (rest : Examined (examineMember info member).1 members) :
    Examined info (member :: members) := by
  have placed : (examineMembers info (member :: members)).2 =
      (examineMembers (examineMember info member).1 members).2 := by
    show (examineMember info member).2.toList ++ _ = _
    rw [skipped]
    rfl
  have vacuous : ∀ baseSize, member.kind = .bitfield baseSize → member.named = true →
      0 < member.bitSize → info.storage member baseSize ≤ 64 ∨
        info.storage member baseSize = member.bitSize.toNat :=
    fun _ _ _ positive => absurd unsized.1 (Int.not_lt.mpr positive.le)
  refine ⟨?_, rest.power, ?_, ?_, ?_⟩
  · rw [← same]
    exact rest.reached
  · rw [placed]
    exact rest.disjoint
  · rw [placed, ← same]
    exact rest.inside
  · rw [placed, rest.accessible]
    exact ⟨fun later => ⟨vacuous, later⟩, And.right⟩

theorem Examined.cons {info : Info} {member : Member} {members : List Member} {p : Placed}
    (wellFormed : member.WellFormed) (reached : info.filled ≤ info.start member)
    (laid : Laid info member (examineMember info member).1 p)
    (found : (examineMember info member).2 = some p)
    (rest : Examined (examineMember info member).1 members) :
    Examined info (member :: members) := by
  have placed : (examineMembers info (member :: members)).2 =
      p :: (examineMembers (examineMember info member).1 members).2 := by
    show (examineMember info member).2.toList ++ _ = _
    rw [found]
    rfl
  have own := laid.bits_subset reached
  have advance : info.filled ≤ (examineMember info member).1.filled := by
    rw [laid.filled]
    exact Nat.le_trans reached (Nat.le_add_right _ _)
  have field : (p.member.named = true → p.member.isBitfield = true → 0 < p.width →
      p.Accessible) ↔ ∀ baseSize, member.kind = .bitfield baseSize → member.named = true →
        0 < member.bitSize → info.storage member baseSize ≤ 64 ∨
          info.storage member baseSize = member.bitSize.toNat := by
    unfold Placed.width
    rw [laid.member, isBitfield_iff]
    constructor
    · intro access baseSize kind named positive
      have wide : 0 < member.bitSize.toNat := by omega
      refine (laid.accessible_iff wellFormed kind ?_).mp (access named ⟨baseSize, kind⟩ wide)
      unfold Placed.width
      rw [laid.member]
      exact wide
    · rintro units named ⟨baseSize, kind⟩ wide
      refine (laid.accessible_iff wellFormed kind ?_).mpr (units baseSize kind named (by omega))
      unfold Placed.width
      rw [laid.member]
      exact wide
  refine ⟨Nat.le_trans advance rest.reached, rest.power, ?_, ?_, ?_⟩
  · rw [placed]
    refine List.Pairwise.cons (fun q later => ?_) rest.disjoint
    refine Finset.disjoint_left.mpr fun i first second => ?_
    have before := (Finset.mem_Ico.mp (own first)).2
    have after := (Finset.mem_Ico.mp (rest.inside q later second)).1
    omega
  · rw [placed]
    intro q member
    rcases List.mem_cons.mp member with rfl | later
    · exact own.trans (Finset.Ico_subset_Ico_right rest.reached)
    · exact (rest.inside q later).trans (Finset.Ico_subset_Ico_left advance)
  · rw [placed, List.forall_mem_cons, field, rest.accessible]
    rfl

theorem examineMembers_examined {members : List Member}
    (wellFormed : ∀ member ∈ members, member.WellFormed) {info : Info}
    (power : Power info.maxAlign) (fits : FitsAll info members) : Examined info members := by
  induction members generalizing info with
  | nil =>
    refine ⟨Nat.le_refl _, power, List.Pairwise.nil, ?_, ?_⟩
    · exact fun p absent => absurd absent List.not_mem_nil
    · exact ⟨fun _ => trivial, fun _ p absent => absurd absent List.not_mem_nil⟩
  | cons member members ih =>
    obtain ⟨first, later⟩ := List.forall_mem_cons.mp wellFormed
    obtain ⟨maxAlign, next, step⟩ := examineMember_eq first power
    have rest : Examined (examineMember info member).1 members := by
      refine ih later ?_ fits.2
      rw [step]
      exact next
    by_cases unsized : member.Unsized
    · have left : layOutStruct member info = (info, none) := if_pos unsized
      refine Examined.skip unsized ?_ ?_ rest
      · rw [step, left]
      · rw [step, left]
        rfl
    · obtain ⟨reached, info', p, laidOut, laid⟩ :=
        layOutStruct_laid first (fits.1 unsized) unsized
      refine Examined.cons (p := p) first reached ?_ ?_ rest
      · rw [step, laidOut]
        exact ⟨laid.packed, laid.filled, laid.member, laid.position, laid.field⟩
      · rw [step, laidOut]

theorem Info.Ends.size {info : Info} {alignment : Option (BitVec 64)} (ends : info.Ends alignment)
    (power : Power (alignment.getD info.maxAlign)) :
    ∃ size : Nat, info.filled ≤ size ∧
      toCInt (alignUp info.bitSize
        (ofCInt (bytesToBits (toCInt (alignment.getD info.maxAlign))) - 1)) = size := by
  obtain ⟨k, power⟩ := power
  have positive : 0 < (alignment.getD info.maxAlign).toNat := by
    rw [power]
    exact Nat.two_pow_pos k
  have bits : 8 * (alignment.getD info.maxAlign).toNat = 2 ^ (k + 3) := by
    rw [power, pow_add, Nat.mul_comm]
    rfl
  have aligned := ends.aligned
  have bounded := ends.bounded
  have mask := toNat_alignMask positive aligned
  rw [bits] at aligned bounded mask
  have reached : info.filled ≤ roundUp (2 ^ (k + 3)) info.filled :=
    le_roundUp (Nat.two_pow_pos _) _
  have small : info.bitSize.toNat + 2 ^ (k + 3) < 2 ^ 64 := by
    show info.filled + 2 ^ (k + 3) < 2 ^ 64
    omega
  have rounded := toNat_alignUp mask small
  refine ⟨_, reached, (toCInt_of_lt ?_).trans (congrArg Nat.cast rounded)⟩
  rw [rounded]
  exact bounded

/-- If each member fits, the members lie apart and inside of the structure, and each bit-field can
be written and read back if and only if its unit is at most sixty-four bits long or is the
bit-field itself. -/
theorem sound_iff_unitsFit {packed : Bool} {alignment : Option (BitVec 64)}
    {members : List Member} (wellFormed : ∀ member ∈ members, member.WellFormed)
    (own : ∀ given, alignment = some given → Power given)
    (fits : FitsAll (.init packed) members)
    (ends : (examineMembers (.init packed) members).1.Ends alignment) :
    Sound packed alignment members ↔ UnitsFit (.init packed) members := by
  have examined := examineMembers_examined wellFormed ⟨0, rfl⟩ fits
  have power : Power (alignment.getD (examineMembers (.init packed) members).1.maxAlign) := by
    cases alignment with
    | none => exact examined.power
    | some given => exact own given rfl
  obtain ⟨size, reached, rounded⟩ := ends.size power
  constructor
  · exact fun sound => examined.accessible.mp sound.accessible
  · intro units
    refine ⟨examined.disjoint, fun p member i within => ?_, examined.accessible.mpr units⟩
    have last := (Finset.mem_Ico.mp (examined.inside p member within)).2
    refine lt_of_lt_of_eq ?_ rounded.symm
    exact Int.ofNat_lt.mpr (Nat.lt_of_lt_of_le last reached)

def charAndFields : List Member :=
  [⟨true, .regular false, 8, 1⟩, ⟨true, .bitfield 32, 3, 4⟩, ⟨true, .bitfield 32, 7, 4⟩]

theorem sound_iff_unitsFit_charAndFields :
    Sound false none charAndFields ↔ UnitsFit (.init false) charAndFields := by
  refine sound_iff_unitsFit ?_ ?_ ?_ ?_
  · intro member listed
    rcases List.mem_cons.mp listed with rfl | listed
    · exact ⟨⟨0, rfl⟩, fun _ other => Kind.noConfusion other⟩
    · have field : member.kind = .bitfield 32 ∧ member.alignment = 4 ∧ member.bitSize ≤ 32 := by
        revert member
        decide
      refine ⟨⟨2, by rw [field.2.1]; rfl⟩, fun baseSize kind => ?_⟩
      rw [field.1] at kind
      cases kind
      exact ⟨by decide, by decide, field.2.2⟩
  · intro given absent
    cases absent
  · refine ⟨fun _ => ⟨?_, ?_, ?_⟩, fun _ => ⟨?_, ?_, ?_⟩, fun _ => ⟨?_, ?_, ?_⟩, trivial⟩
    · decide
    · exact fun _ other => Kind.noConfusion other
    · decide
    · decide
    · exact fun _ _ empty => absurd empty (by decide)
    · decide
    · decide
    · exact fun _ _ empty => absurd empty (by decide)
    · decide
  · constructor <;> decide

/-- `struct { unsigned a:3; _Bool :0; unsigned b:3; }`, whose unnamed field of one bit begins
behind the end of its unit. -/
def boolFill : List Member :=
  [⟨true, .bitfield 32, 3, 4⟩, ⟨false, .bitfield 1, 0, 1⟩, ⟨true, .bitfield 32, 3, 4⟩]

/-- The two other members then share bits. -/
theorem not_sound_boolFill : ¬ Sound false none boolFill := by
  intro sound
  exact absurd sound.disjoint (by decide)

end SmatchFormal.Bitfield
