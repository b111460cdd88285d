import SmatchFormal.RangeMath.BitMask

/-!
# The bits of a value

`smatch_bits.c` keeps for a variable the bits that are surely set and the bits that may be set.
The operators of this file work on such pairs without looking at an expression.
-/

namespace SmatchFormal.Bits

open SmatchFormal.Ranges SmatchFormal.Extra SmatchFormal.RangeMath SmatchFormal.Lib

/-! ## The code -/

def getTypePossible (type : Option Ctype) : BitVec 64 :=
  let type := type.getD ullongCtype
  if typeBits type = 64 then BitVec.allOnes 64 else ((1 : BitVec 64) <<< typeBits type) - 1

/-- The pair of `get_bit_info` for an expression nothing is known about. -/
def unknownBitInfo (type : Option Ctype) : BitInfo := ⟨0, getTypePossible type⟩

def isUnknownBinfo (type : Option Ctype) (binfo : BitInfo) : Bool :=
  let type := type.getD ullongCtype
  if binfo.set ≠ 0 then false
  else if binfo.possible < BitVec.allOnes 64 >>> (64 - typeBits type) then false
  else true

def binfoEquiv (one two : BitInfo) : Bool :=
  one.set == two.set && one.possible == two.possible

def mergeBstates (one two : BitInfo) : BitInfo :=
  if binfoEquiv one two then one else ⟨one.set &&& two.set, one.possible ||| two.possible⟩

/-- `combine_bit_info`; what is logically impossible gives the pair that says nothing. -/
def combineBitInfo (one two : BitInfo) : BitInfo :=
  if one.set &&& two.possible ≠ one.set then ⟨0, BitVec.allOnes 64⟩
  else if two.set &&& one.possible ≠ two.set then ⟨0, BitVec.allOnes 64⟩
  else ⟨one.set ||| two.set, one.possible &&& two.possible⟩

def binfoAND : Option BitInfo → Option BitInfo → BitInfo
  | none, none => ⟨0, BitVec.allOnes 64⟩
  | none, some right => ⟨0, right.possible⟩
  | some left, none => ⟨0, left.possible⟩
  | some left, some right => ⟨left.set &&& right.set, left.possible &&& right.possible⟩

def binfoOR : Option BitInfo → Option BitInfo → BitInfo
  | none, none => ⟨0, BitVec.allOnes 64⟩
  | none, some right => ⟨right.set, BitVec.allOnes 64⟩
  | some left, none => ⟨left.set, BitVec.allOnes 64⟩
  | some left, some right => ⟨left.set ||| right.set, left.possible ||| right.possible⟩

def maskBinfo (type : Option Ctype) (binfo : BitInfo) : BitInfo :=
  ⟨binfo.set &&& getTypePossible type, binfo.possible &&& getTypePossible type⟩

def shiftBinfo (type : Option Ctype) (binfo : BitInfo) (sval : Sval) : BitInfo :=
  maskBinfo type ⟨binfo.set <<< sval.uvalue, binfo.possible <<< sval.uvalue⟩

def svalIsPowerOfTwo (sval : Sval) : Bool :=
  sval.raw != 0 && sval.raw &&& (sval.raw - 1) == 0

section Words

variable {one two left right info : BitInfo} {word other : BitVec 64} {i : Nat}

theorem allows_known (word : BitVec 64) : (⟨word, word⟩ : BitInfo).Allows word :=
  ⟨fun _ set => set, fun _ set => set⟩

theorem allows_zero {possible : BitVec 64}
    (bits : ∀ i, word.getLsbD i = true → possible.getLsbD i = true) :
    (⟨0, possible⟩ : BitInfo).Allows word :=
  ⟨fun _ set => absurd (set.symm.trans BitVec.getLsbD_zero) (by decide), bits⟩

theorem allows_top (word : BitVec 64) : (⟨0, BitVec.allOnes 64⟩ : BitInfo).Allows word := by
  refine allows_zero fun i set => ?_
  rw [BitVec.getLsbD_allOnes]
  exact decide_eq_true (BitVec.lt_of_getLsbD set)

theorem mergeBstates_eq (one two : BitInfo) :
    mergeBstates one two = ⟨one.set &&& two.set, one.possible ||| two.possible⟩ := by
  unfold mergeBstates binfoEquiv
  split_ifs with same
  · obtain ⟨set, possible⟩ := Bool.and_eq_true_iff.mp same
    rw [← beq_iff_eq.mp set, ← beq_iff_eq.mp possible, BitVec.and_self, BitVec.or_self]
  · rfl

/-- A merged pair allows the words of both branches. -/
theorem mergeBstates_allows (allowed : one.Allows word ∨ two.Allows word) :
    (mergeBstates one two).Allows word := by
  rw [mergeBstates_eq]
  unfold BitInfo.Allows
  simp only [BitVec.getLsbD_and, BitVec.getLsbD_or, Bool.and_eq_true, Bool.or_eq_true]
  rcases allowed with first | second
  · exact ⟨fun i set => first.1 i set.1, fun i set => Or.inl (first.2 i set)⟩
  · exact ⟨fun i set => second.1 i set.2, fun i set => Or.inr (second.2 i set)⟩

/-- The bits that are surely set by one side are possible on the other one. -/
theorem set_and_possible (first : one.Allows word) (second : two.Allows word) :
    one.set &&& two.possible = one.set := by
  refine BitVec.eq_of_getLsbD_eq fun i _ => ?_
  rw [BitVec.getLsbD_and]
  cases set : one.set.getLsbD i with
  | false =>
    rfl
  | true =>
    rw [second.2 i (first.1 i set)]
    rfl

/-- The pair for both is exact where the two do not contradict each other. -/
theorem combineBitInfo_allows_iff (first : one.set &&& two.possible = one.set)
    (second : two.set &&& one.possible = two.set) :
    (combineBitInfo one two).Allows word ↔ one.Allows word ∧ two.Allows word := by
  unfold combineBitInfo
  rw [if_neg (not_not.mpr first), if_neg (not_not.mpr second)]
  unfold BitInfo.Allows
  simp only [BitVec.getLsbD_or, BitVec.getLsbD_and, Bool.or_eq_true, Bool.and_eq_true]
  constructor
  · rintro ⟨low, high⟩
    exact ⟨⟨fun i set => low i (Or.inl set), fun i set => (high i set).1⟩,
      fun i set => low i (Or.inr set), fun i set => (high i set).2⟩
  · rintro ⟨⟨lowOne, highOne⟩, lowTwo, highTwo⟩
    refine ⟨fun i set => ?_, fun i set => ⟨highOne i set, highTwo i set⟩⟩
    rcases set with set | set
    · exact lowOne i set
    · exact lowTwo i set

theorem combineBitInfo_allows (first : one.Allows word) (second : two.Allows word) :
    (combineBitInfo one two).Allows word :=
  (combineBitInfo_allows_iff (set_and_possible first second)
    (set_and_possible second first)).mpr ⟨first, second⟩

theorem binfoAND_allows (first : left.Allows word) (second : right.Allows other) :
    (binfoAND (some left) (some right)).Allows (word &&& other) := by
  unfold binfoAND BitInfo.Allows
  simp only [BitVec.getLsbD_and, Bool.and_eq_true]
  exact ⟨fun i set => ⟨first.1 i set.1, second.1 i set.2⟩,
    fun i set => ⟨first.2 i set.1, second.2 i set.2⟩⟩

theorem binfoOR_allows (first : left.Allows word) (second : right.Allows other) :
    (binfoOR (some left) (some right)).Allows (word ||| other) := by
  unfold binfoOR BitInfo.Allows
  simp only [BitVec.getLsbD_or, Bool.or_eq_true]
  exact ⟨fun i set => set.imp (first.1 i) (second.1 i),
    fun i set => set.imp (first.2 i) (second.2 i)⟩

theorem maskBinfo_allows (type : Option Ctype) (allowed : info.Allows word) :
    (maskBinfo type info).Allows (word &&& getTypePossible type) := by
  unfold maskBinfo BitInfo.Allows
  simp only [BitVec.getLsbD_and, Bool.and_eq_true]
  exact ⟨fun i set => ⟨allowed.1 i set.1, set.2⟩, fun i set => ⟨allowed.2 i set.1, set.2⟩⟩

theorem shiftBinfo_allows (type : Option Ctype) (sval : Sval) (allowed : info.Allows word) :
    (shiftBinfo type info sval).Allows ((word <<< sval.uvalue) &&& getTypePossible type) := by
  refine maskBinfo_allows type ?_
  unfold BitInfo.Allows
  simp only [BitVec.getLsbD_shiftLeft, Bool.and_eq_true]
  exact ⟨fun i set => ⟨set.1, allowed.1 _ set.2⟩, fun i set => ⟨set.1, allowed.2 _ set.2⟩⟩

/-! ## Nothing is lost -/

def BitInfo.words (info : BitInfo) : Set (BitVec 64) := {word | info.Allows word}

def Exact (info : BitInfo) (words : Set (BitVec 64)) : Prop :=
  ∀ i, (info.set.getLsbD i = true ↔ ∀ word ∈ words, word.getLsbD i = true) ∧
    (info.possible.getLsbD i = true ↔ ∃ word ∈ words, word.getLsbD i = true)

theorem set_mem (some : (BitInfo.words info).Nonempty) : info.set ∈ BitInfo.words info := by
  obtain ⟨word, allowed⟩ := some
  exact ⟨fun _ set => set, fun i set => allowed.2 i (allowed.1 i set)⟩

theorem possible_mem (some : (BitInfo.words info).Nonempty) :
    info.possible ∈ BitInfo.words info :=
  ⟨(set_mem some).2, fun _ set => set⟩

theorem exact_of_ends {words : Set (BitVec 64)} (sound : ∀ word ∈ words, info.Allows word)
    (low : info.set ∈ words) (high : info.possible ∈ words) : Exact info words := by
  refine fun i => ⟨⟨fun set word member => (sound word member).1 i set, fun all => all _ low⟩,
    fun set => ⟨_, high, set⟩, ?_⟩
  rintro ⟨word, member, set⟩
  exact (sound word member).2 i set

/-- `binfo_AND`, `binfo_OR` and `merge_bstates` say all there is to say about the words that can
come out, and so does `combine_bit_info` where the words of both sides meet. -/
theorem operators_exact (first : (BitInfo.words left).Nonempty)
    (second : (BitInfo.words right).Nonempty) :
    Exact (binfoAND (some left) (some right))
      (Set.image2 (· &&& ·) (BitInfo.words left) (BitInfo.words right)) ∧
    Exact (binfoOR (some left) (some right))
      (Set.image2 (· ||| ·) (BitInfo.words left) (BitInfo.words right)) ∧
    Exact (mergeBstates left right) (BitInfo.words left ∪ BitInfo.words right) ∧
    ((BitInfo.words left ∩ BitInfo.words right).Nonempty →
      BitInfo.words (combineBitInfo left right) = BitInfo.words left ∩ BitInfo.words right) := by
  refine ⟨exact_of_ends ?_ ⟨_, set_mem first, _, set_mem second, rfl⟩
      ⟨_, possible_mem first, _, possible_mem second, rfl⟩,
    exact_of_ends ?_ ⟨_, set_mem first, _, set_mem second, rfl⟩
      ⟨_, possible_mem first, _, possible_mem second, rfl⟩, fun i => ⟨⟨?_, ?_⟩, ?_, ?_⟩, ?_⟩
  · rintro - ⟨word, one, other, two, rfl⟩
    exact binfoAND_allows one two
  · rintro - ⟨word, one, other, two, rfl⟩
    exact binfoOR_allows one two
  · exact fun set word member => (mergeBstates_allows member).1 i set
  · intro all
    rw [mergeBstates_eq, BitVec.getLsbD_and, all _ (Or.inl (set_mem first)),
      all _ (Or.inr (set_mem second))]
    rfl
  · intro set
    rw [mergeBstates_eq, BitVec.getLsbD_or, Bool.or_eq_true] at set
    rcases set with set | set
    · exact ⟨_, Or.inl (possible_mem first), set⟩
    · exact ⟨_, Or.inr (possible_mem second), set⟩
  · rintro ⟨word, member, set⟩
    exact (mergeBstates_allows member).2 i set
  · rintro ⟨word, one, two⟩
    ext other
    exact combineBitInfo_allows_iff (set_and_possible one two) (set_and_possible two one)

theorem allows_set {possible : BitVec 64} (inside : possible = word ||| possible) :
    (⟨word, possible⟩ : BitInfo).Allows word := by
  refine ⟨fun _ set => set, fun i set => ?_⟩
  rw [show (⟨word, possible⟩ : BitInfo).possible = word ||| possible from inside,
    BitVec.getLsbD_or, set]
  rfl

/-- Bit two is set on both sides; of the others each side knows too little. -/
theorem operators_exact_known :
    Exact (binfoAND (some ⟨4, 7⟩) (some ⟨4, 12⟩))
      (Set.image2 (· &&& ·) (BitInfo.words ⟨4, 7⟩) (BitInfo.words ⟨4, 12⟩)) ∧
    Exact (binfoOR (some ⟨4, 7⟩) (some ⟨4, 12⟩))
      (Set.image2 (· ||| ·) (BitInfo.words ⟨4, 7⟩) (BitInfo.words ⟨4, 12⟩)) ∧
    Exact (mergeBstates ⟨4, 7⟩ ⟨4, 12⟩) (BitInfo.words ⟨4, 7⟩ ∪ BitInfo.words ⟨4, 12⟩) ∧
    BitInfo.words (combineBitInfo ⟨4, 7⟩ ⟨4, 12⟩) =
      BitInfo.words ⟨4, 7⟩ ∩ BitInfo.words ⟨4, 12⟩ := by
  have first : 4 ∈ BitInfo.words ⟨4, 7⟩ := allows_set (by decide)
  have second : 4 ∈ BitInfo.words ⟨4, 12⟩ := allows_set (by decide)
  obtain ⟨both, either, merged, combined⟩ := operators_exact ⟨4, first⟩ ⟨4, second⟩
  exact ⟨both, either, merged, combined ⟨4, first, second⟩⟩

end Words

section Values

variable {type : Ctype} {word : BitVec 64}

def Fits (type : Ctype) (word : BitVec 64) : Prop := word.toNat < 2 ^ typePositiveBits type

theorem positiveBits_le (type : Ctype) : typePositiveBits type ≤ typeBits type := by
  unfold typePositiveBits typeBits
  cases type.kind <;> decide

theorem getTypePossible_toNat (type : Ctype) :
    (getTypePossible (some type)).toNat = 2 ^ typeBits type - 1 := by
  have masks : ∀ kind : IntKind, (if kind.bits = 64 then BitVec.allOnes 64
      else ((1 : BitVec 64) <<< kind.bits) - 1).toNat = 2 ^ kind.bits - 1 := by
    intro kind
    cases kind <;> decide
  exact masks type.kind

theorem getTypePossible_bit (type : Ctype) (i : Nat) :
    (getTypePossible (some type)).getLsbD i = decide (i < typeBits type) := by
  rw [BitVec.getLsbD, getTypePossible_toNat, Nat.testBit_two_pow_sub_one]

/-- Words below a power of two have no bit from its exponent on. -/
theorem bit_lt {n i : Nat} (small : word.toNat < 2 ^ n) (set : word.getLsbD i = true) : i < n := by
  by_contra high
  have order : 2 ^ n ≤ 2 ^ i := Nat.pow_le_pow_right (by decide) (Nat.le_of_not_lt high)
  have least : 2 ^ i ≤ word.toNat := Nat.ge_two_pow_of_testBit set
  omega

theorem Fits.below (fits : Fits type word) : word.toNat < 2 ^ typeBits type :=
  lt_of_lt_of_le fits (Nat.pow_le_pow_right (by decide) (positiveBits_le type))

theorem unknownBitInfo_allows {known : Option Ctype}
    (fits : ∀ own, some own = known → Fits own word) : (unknownBitInfo known).Allows word := by
  cases known with
  | none =>
    exact allows_top word
  | some type =>
    refine allows_zero fun i set => (getTypePossible_bit type i).trans (decide_eq_true ?_)
    exact bit_lt (fits type rfl).below set

theorem raw_eq {sval : Sval} (value : sval.val = word.toNat) : sval.raw = word :=
  BitVec.eq_of_toNat_eq
    (Int.ofNat_inj.mp ((raw_toNat (value ▸ Int.natCast_nonneg _)).trans value))

/-- The list of a value has its bits, if the value is not negative. -/
theorem rlToBinfo_allows {rl : RangeList} (canonical : Canonical type rl)
    (member : (word.toNat : Int) ∈ rlSet rl) : (rlToBinfo rl).Allows word := by
  unfold rlToBinfo
  cases single : rlToSval rl with
  | some sval =>
    obtain ⟨-, members⟩ := rlToSval_eq_some canonical single
    dsimp only
    rw [raw_eq ((members _).mp member).symm]
    exact allows_known word
  | none =>
    have most : (word.toNat : Int) ≤ (rlMax rl).val := le_rlMax canonical member
    have nonneg : 0 ≤ (rlMax rl).val := le_trans (Int.natCast_nonneg _) most
    refine allows_zero fun i set => ?_
    rw [BitVec.getLsbD, svalFlsMask_toNat nonneg, Nat.testBit_two_pow_sub_one]
    refine decide_eq_true (bit_lt ?_ set)
    have below := Nat.lt_size_self (rlMax rl).val.toNat
    omega

end Values

end SmatchFormal.Bits
