import SmatchFormal.Alloc.Blobs

/-!
# Runs of an allocator

What is handed out is aligned, cleared and apart from everything that is still in use, in every
order of allocating, freeing, protecting and dropping, and with the users of the entries writing
into them.
-/

namespace SmatchFormal.Alloc

open Lib.BitLength List

section Clear

variable {mem : Memory} {p turns count size : Nat}

/-- Whole words are cleared, and nothing else. -/
theorem clearEntry_some (enough : count ≤ turns) (small : (count + 1) * wordSize < 2 ^ 32) :
    ∃ mem', clearEntry (turns + 1) mem p ((count + 1) * wordSize) = some mem' ∧
      (∀ q, p ≤ q → q < p + (count + 1) * wordSize → mem' q = 0) ∧
      ∀ q, q < p ∨ p + (count + 1) * wordSize ≤ q → mem' q = mem q := by
  induction count generalizing turns mem p with
  | zero =>
    refine ⟨store mem p 0, ?_, fun q low high => ?_, fun q outside => ?_⟩
    · rw [clearEntry, subUnsigned_of_le (Nat.le_mul_of_pos_left _ Nat.one_pos) small]
      rfl
    · exact store_zero low (by omega)
    · exact store_outside (by omega)
  | succ count ih =>
    obtain ⟨turns, rfl⟩ := Nat.exists_eq_succ_of_ne_zero (Nat.ne_of_gt (Nat.lt_of_lt_of_le
      count.succ_pos enough))
    have rest : (count + 1 + 1) * wordSize - wordSize = (count + 1) * wordSize := by
      rw [Nat.succ_mul (count + 1), Nat.add_sub_cancel]
    have positive : 0 < (count + 1) * wordSize := Nat.mul_pos count.succ_pos (by decide)
    rw [Nat.succ_mul (count + 1)] at small
    obtain ⟨mem', cleared, zero, same⟩ := @ih (store mem p 0) (p + wordSize) turns
      (Nat.le_of_succ_le_succ enough) (by omega)
    refine ⟨mem', ?_, fun q low high => ?_, fun q outside => ?_⟩
    · rw [clearEntry, subUnsigned_of_le (by rw [Nat.succ_mul]; exact Nat.le_add_left _ _)
        (by rw [Nat.succ_mul]; exact small), rest, if_pos positive]
      exact cleared
    · rw [Nat.succ_mul (count + 1)] at high
      by_cases first : q < p + wordSize
      · rw [same q (.inl first)]
        exact store_zero low first
      · exact zero q (by omega) (by omega)
    · rw [Nat.succ_mul (count + 1)] at outside
      rw [same q (by omega), store_outside (by omega)]

theorem clearEntry_whole (whole : wordSize ∣ size) (some : 0 < size) (small : size < 2 ^ 32) :
    ∃ mem', clearEntry clearTurns mem p size = .some mem' ∧
      (∀ q, p ≤ q → q < p + size → mem' q = 0) ∧
      ∀ q, q < p ∨ p + size ≤ q → mem' q = mem q := by
  obtain ⟨words, rfl⟩ := whole
  obtain ⟨count, rfl⟩ := Nat.exists_eq_succ_of_ne_zero (n := words) fun none => by
    rw [none] at some
    exact Nat.lt_irrefl 0 some
  obtain ⟨turns, clear⟩ : ∃ turns, clearTurns = turns + 1 := ⟨clearTurns - 1, rfl⟩
  rw [Nat.mul_comm] at small ⊢
  have enough : count ≤ turns := by
    unfold clearTurns at clear
    unfold wordSize at small
    omega
  rw [clear]
  exact clearEntry_some enough small

/-- The size zero wraps around, and all words up to it are cleared. -/
theorem clearEntry_zero : ∃ mem', clearEntry clearTurns mem p 0 = some mem' := by
  obtain ⟨turns, clear⟩ : ∃ turns, clearTurns = turns + 2 := ⟨clearTurns - 2, rfl⟩
  have around : subUnsigned 0 wordSize = (turns + 1) * wordSize := by
    unfold clearTurns at clear
    unfold subUnsigned wordSize
    omega
  have small : (turns + 1) * wordSize < 2 ^ 32 := by
    unfold clearTurns at clear
    unfold wordSize
    omega
  obtain ⟨mem', cleared, -, -⟩ := @clearEntry_some (store mem p 0) (p + wordSize) turns turns
    (Nat.le_refl _) small
  refine ⟨mem', ?_⟩
  rw [clear, clearEntry, around, if_pos (Nat.mul_pos turns.succ_pos (by decide))]
  exact cleared

/-- The loop does not end when the size is not made of whole words. -/
theorem clearEntry_none (broken : ¬wordSize ∣ size) : clearEntry turns mem p size = none := by
  induction turns generalizing mem p size with
  | zero => rfl
  | succ turns ih =>
    have still : ¬wordSize ∣ subUnsigned size wordSize := by
      unfold subUnsigned wordSize at *
      omega
    rw [clearEntry, if_pos (Nat.pos_of_ne_zero fun none => still ⟨0, none⟩)]
    exact ih still

theorem clearEntry_isSome_iff (small : size < 2 ^ 32) :
    (clearEntry clearTurns mem p size).isSome = true ↔ wordSize ∣ size := by
  constructor
  · intro returns
    by_contra broken
    rw [clearEntry_none broken] at returns
    cases returns
  · intro words
    have returns : ∃ mem', clearEntry clearTurns mem p size = some mem' := by
      rcases Nat.eq_zero_or_pos size with rfl | positive
      · exact clearEntry_zero
      · obtain ⟨mem', cleared, -⟩ := @clearEntry_whole mem p _ words positive small
        exact ⟨mem', cleared⟩
    exact Option.isSome_iff_exists.mpr returns

end Clear

/-! ## The invariant -/

/-- The blobs of an allocator, and the size of the entries that are freed. -/
structure Layout where
  alignment : Nat
  chunking : Nat
  entrySize : Nat
  power : ∃ k < 32, alignment = 2 ^ k
  header : roundUp alignment dataOffset ≤ chunking
  small : chunking < 2 ^ 32

namespace Layout

variable {layout : Layout} {size : Nat}

theorem aligned (layout : Layout) : 0 < layout.alignment := by
  obtain ⟨k, -, power⟩ := layout.power
  rw [power]
  exact Nat.two_pow_pos k

/-- Nothing is lost of a size that fits into a blob. -/
theorem alignUp_eq (fits : roundUp layout.alignment size ≤ layout.chunking) :
    alignUp size layout.alignment = roundUp layout.alignment size := by
  obtain ⟨k, less, power⟩ := layout.power
  rw [power] at fits ⊢
  exact alignUp_of_lt less (Nat.lt_of_le_of_lt fits layout.small)

end Layout

def Apart (one two : Nat × Nat) : Prop := one.1 + one.2 ≤ two.1 ∨ two.1 + two.2 ≤ one.1

instance (one two : Nat × Nat) : Decidable (Apart one two) := instDecidableOr

/-- An allocator with the memory, the blobs that are mapped, and the entries in use. -/
structure World where
  desc : AllocatorStruct
  mem : Memory
  mapped : List Nat
  live : List (Nat × Nat)

def Chain (mem : Memory) : Nat → List Nat → Prop
  | head, [] => head = 0
  | head, a :: rest => head = a ∧ a ≠ 0 ∧ Chain mem (load mem a) rest

def World.entries (w : World) (layout : Layout) (freed : List Nat) : List (Nat × Nat) :=
  w.live ++ freed.map fun a => (a, layout.entrySize)

/-- An entry lies in a mapped blob, below what the blob has not handed out yet. -/
structure World.Holds (w : World) (layout : Layout) (entry : Nat × Nat) : Prop where
  aligned : layout.alignment ∣ entry.1 ∧ layout.alignment ∣ entry.2
  some : 0 < entry.2
  inside : ∃ b ∈ w.mapped, b + dataOffset ≤ entry.1 ∧ entry.1 + entry.2 ≤ b + layout.chunking ∧
    ∀ blob ∈ w.desc.blobs, blob.addr = b → entry.1 + entry.2 ≤ b + dataOffset + blob.offset

structure World.Sound (w : World) (layout : Layout) (freed : List Nat) : Prop where
  alignment : w.desc.alignment = layout.alignment
  chunking : w.desc.chunking = layout.chunking
  chain : Chain w.mem w.desc.freelist freed
  words : freed ≠ [] → wordSize ∣ layout.entrySize
  bases : ∀ b ∈ w.mapped, 0 < b ∧ b + layout.chunking ≤ 2 ^ 64 ∧ layout.alignment ∣ b
  separate : w.mapped.Pairwise fun b c => Apart (b, layout.chunking) (c, layout.chunking)
  listed : ∀ blob ∈ w.desc.blobs, blob.addr ∈ w.mapped ∧
    dataOffset + blob.offset + blob.left = layout.chunking ∧
    layout.alignment ∣ dataOffset + blob.offset
  distinct : (w.desc.blobs.map AllocationBlob.addr).Nodup
  blank : ∀ blob ∈ w.desc.blobs, ∀ p, blob.addr + dataOffset + blob.offset ≤ p →
    p < blob.addr + layout.chunking → w.mem p = 0
  holds : ∀ entry ∈ w.entries layout freed, w.Holds layout entry
  apart : (w.entries layout freed).Pairwise Apart

/-! ## Calls -/

/-- A call, or a write of a byte into an entry that is in use.  An allocation comes with the
address that `blob_alloc` would return. -/
inductive Op
  | allocate (size : Nat) (newblob : Nat)
  | free (entry : Nat)
  | write (p : Nat) (value : BitVec 8)
  | protect
  | drop

/-- What the callers and the system keep to: a request is not empty, fits into a blob, and has the
constant size when the freelist is in use; new blobs are apart from the mapped ones; only entries
in use are freed, which have room for whole pointers, and only their bytes are written. -/
def World.Allows (w : World) (layout : Layout) : Op → Prop
  | .allocate size newblob => 0 < size ∧
      roundUp layout.alignment size + roundUp layout.alignment dataOffset ≤ layout.chunking ∧
      (w.desc.freelist ≠ 0 → size = layout.entrySize) ∧
      (0 < newblob ∧ newblob + layout.chunking ≤ 2 ^ 64 ∧ layout.alignment ∣ newblob) ∧
      ∀ b ∈ w.mapped, Apart (newblob, layout.chunking) (b, layout.chunking)
  | .free entry => (entry, layout.entrySize) ∈ w.live ∧ wordSize ∣ layout.entrySize
  | .write p _ => ∃ entry ∈ w.live, entry.1 ≤ p ∧ p < entry.1 + entry.2
  | .protect => True
  | .drop => True

/-- The world after a call.  `drop_all_allocations` ends the use of all entries in its blobs. -/
def World.step (w : World) (layout : Layout) : Op → Option World
  | .allocate size newblob => do
      let (entry, desc, mem) ← allocate w.desc w.mem size newblob
      some {
        desc := desc
        mem := mem
        mapped := if desc.blobs.length = w.desc.blobs.length then w.mapped else newblob :: w.mapped
        live := (entry, roundUp layout.alignment size) :: w.live }
  | .free entry =>
      let (desc, mem) := freeOneEntry w.desc w.mem entry
      some { w with
        desc := desc
        mem := mem
        live := w.live.erase (entry, layout.entrySize) }
  | .write p value => some { w with mem := Function.update w.mem p value }
  | .protect => some { w with desc := protectAllocations w.desc }
  | .drop =>
      let (desc, back) := dropAllAllocations w.desc
      some { w with
        desc := desc
        mapped := w.mapped.filter fun b => b ∉ back
        live := w.live.filter fun e =>
          back.all fun b => !(decide (b ≤ e.1) && decide (e.1 < b + layout.chunking)) }

section Steps

variable {layout : Layout} {w w' : World} {freed freed' : List Nat} {mem mem' : Memory}
  {head p size newblob : Nat} {one two entry : Nat × Nat} {blob : AllocationBlob}

theorem apart_iff {a m b n : Nat} : Apart (a, m) (b, n) ↔ a + m ≤ b ∨ b + n ≤ a := Iff.rfl

theorem Apart.symm (apart : Apart one two) : Apart two one := Or.symm apart

instance {length : Nat} : Std.Symm fun b c : Nat => Apart (b, length) (c, length) :=
  ⟨fun _ _ => Apart.symm⟩

theorem Chain.congr (chain : Chain mem head freed)
    (same : ∀ a ∈ freed, ∀ q, a ≤ q → q < a + wordSize → mem' q = mem q) :
    Chain mem' head freed := by
  induction freed generalizing head with
  | nil => exact chain
  | cons a rest ih =>
    refine ⟨chain.1, chain.2.1, ?_⟩
    rw [load_congr (same a mem_cons_self)]
    exact ih chain.2.2 fun b member => same b (mem_cons_of_mem _ member)

def counted (desc : AllocatorStruct) (size : Nat) : AllocatorStruct :=
  { desc with
    allocations := desc.allocations + 1
    usefulBytes := desc.usefulBytes + size }

theorem allocate_front {desc : AllocatorStruct} {rest : List AllocationBlob}
    (list : desc.freelist = 0) (blobs : desc.blobs = blob :: rest)
    (enough : alignUp size desc.alignment ≤ blob.left) :
    allocate desc mem size (some newblob) =
      some ((cutEntry (counted desc size) blob rest (alignUp size desc.alignment)).1,
        (cutEntry (counted desc size) blob rest (alignUp size desc.alignment)).2, mem) := by
  rw [allocate, if_neg (not_not.mpr list)]
  dsimp only
  rw [blobs]
  dsimp only
  rw [if_neg (Nat.not_lt.mpr enough)]
  rfl

theorem allocate_new {desc : AllocatorStruct} (list : desc.freelist = 0)
    (short : ∀ blob rest, desc.blobs = blob :: rest → blob.left < alignUp size desc.alignment)
    (bounded : alignUp size desc.alignment ≤ desc.chunking) :
    allocate desc mem size (some newblob) = some
      ((cutEntry { counted desc size with totalBytes := desc.totalBytes + desc.chunking }
          (newBlob desc newblob) desc.blobs (alignUp size desc.alignment)).1,
        (cutEntry { counted desc size with totalBytes := desc.totalBytes + desc.chunking }
          (newBlob desc newblob) desc.blobs (alignUp size desc.alignment)).2,
        mapBlob mem newblob desc.chunking) := by
  rw [allocate, if_neg (not_not.mpr list)]
  dsimp only
  cases blobs : desc.blobs with
  | nil =>
    dsimp only
    rw [Option.bind_eq_bind, Option.bind_some, if_neg (Nat.not_lt.mpr bounded)]
    rfl
  | cons blob rest =>
    dsimp only
    rw [if_pos (short blob rest blobs), Option.bind_eq_bind, Option.bind_some,
      if_neg (Nat.not_lt.mpr bounded)]
    rfl

namespace World.Sound

/-- What the blobs have not handed out is apart from the entries. -/
theorem outside (sound : w.Sound layout freed) (member : entry ∈ w.entries layout freed)
    (listed : blob ∈ w.desc.blobs) (above : blob.addr + dataOffset + blob.offset ≤ p)
    (below : p < blob.addr + layout.chunking) : p < entry.1 ∨ entry.1 + entry.2 ≤ p := by
  obtain ⟨b, mapped, low, high, under⟩ := (sound.holds entry member).inside
  by_cases same : blob.addr = b
  · have last := under blob listed same
    omega
  · have apart := apart_iff.mp (sound.separate.forall (sound.listed blob listed).1 mapped same)
    omega

theorem word_le (sound : w.Sound layout freed) {a : Nat} (member : a ∈ freed) :
    wordSize ≤ layout.entrySize := by
  have entry : (a, layout.entrySize) ∈ w.entries layout freed :=
    mem_append_right _ (mem_map.mpr ⟨a, member, rfl⟩)
  exact Nat.le_of_dvd (sound.holds _ entry).some (sound.words (ne_nil_of_mem member))

theorem pointer (sound : w.Sound layout freed) : w.desc.freelist < 2 ^ 64 := by
  cases freed with
  | nil =>
    rw [show w.desc.freelist = 0 from sound.chain]
    decide
  | cons a rest =>
    have entry : (a, layout.entrySize) ∈ w.entries layout (a :: rest) :=
      mem_append_right _ mem_cons_self
    obtain ⟨b, mapped, -, high, -⟩ := (sound.holds _ entry).inside
    have some := (sound.holds _ entry).some
    have last := (sound.bases b mapped).2.1
    rw [sound.chain.1]
    dsimp only at high some
    omega

/-- Entries change hands, and one of them is written. -/
theorem rearrange (sound : w.Sound layout freed) (member : entry ∈ w.entries layout freed)
    (same : ∀ p, p < entry.1 ∨ entry.1 + entry.2 ≤ p → mem' p = w.mem p)
    {live' : List (Nat × Nat)}
    (perm : (live' ++ freed'.map fun a => (a, layout.entrySize)).Perm (w.entries layout freed))
    (words : freed' ≠ [] → wordSize ∣ layout.entrySize) (chain : Chain mem' head freed') :
    World.Sound ⟨{ w.desc with freelist := head }, mem', w.mapped, live'⟩ layout freed' where
  alignment := sound.alignment
  chunking := sound.chunking
  chain := chain
  words := words
  bases := sound.bases
  separate := sound.separate
  listed := sound.listed
  distinct := sound.distinct
  blank blob listed p above below :=
    (same p (sound.outside member listed above below)).trans
      (sound.blank blob listed p above below)
  holds e member := by
    have held := sound.holds e (perm.mem_iff.mp member)
    exact ⟨held.aligned, held.some, held.inside⟩
  apart := (perm.pairwise_iff Apart.symm).mpr sound.apart

/-- The freed entries keep their links when another entry is written. -/
theorem chain_kept (entry : Nat × Nat) (chain : Chain mem head freed)
    (room : ∀ a ∈ freed, wordSize ≤ layout.entrySize)
    (same : ∀ p, p < entry.1 ∨ entry.1 + entry.2 ≤ p → mem' p = mem p)
    (apart : ∀ a ∈ freed, Apart entry (a, layout.entrySize)) : Chain mem' head freed := by
  refine chain.congr fun a member q low high => same q ?_
  have enough := room a member
  have other := apart_iff.mp (apart a member)
  omega

theorem step_free (sound : w.Sound layout freed)
    (used : (p, layout.entrySize) ∈ w.live) (words : wordSize ∣ layout.entrySize) :
    ∃ w', w.step layout (.free p) = some w' ∧ w'.Sound layout (p :: freed) := by
  have member : (p, layout.entrySize) ∈ w.entries layout freed := mem_append_left _ used
  have perm : ((w.live.erase (p, layout.entrySize)) ++
      (p :: freed).map fun a => (a, layout.entrySize)).Perm (w.entries layout freed) := by
    rw [map_cons]
    exact perm_middle.trans ((perm_cons_erase used).symm.append_right _)
  have room : wordSize ≤ layout.entrySize := Nat.le_of_dvd (sound.holds _ member).some words
  have same : ∀ q, q < p ∨ p + layout.entrySize ≤ q →
      store w.mem p w.desc.freelist q = w.mem q :=
    fun q outside => store_outside (by omega)
  obtain ⟨b, -, low, -, -⟩ := (sound.holds _ member).inside
  have apart := (perm.pairwise_iff Apart.symm).mpr sound.apart
  rw [map_cons, pairwise_append] at apart
  refine ⟨_, rfl, sound.rearrange member same perm (fun _ => words) ⟨rfl, ?_, ?_⟩⟩
  · unfold dataOffset at low
    dsimp only at low
    omega
  · rw [load_store sound.pointer]
    refine chain_kept (p, layout.entrySize) sound.chain (fun _ _ => room) same fun a listed => ?_
    exact (pairwise_cons.mp apart.2.1).1 _ (mem_map.mpr ⟨a, listed, rfl⟩)

theorem step_write (sound : w.Sound layout freed) (used : entry ∈ w.live) (low : entry.1 ≤ p)
    (high : p < entry.1 + entry.2) (value : BitVec 8) :
    ∃ w', w.step layout (.write p value) = some w' ∧ w'.Sound layout freed := by
  have member : entry ∈ w.entries layout freed := mem_append_left _ used
  have same : ∀ q, q < entry.1 ∨ entry.1 + entry.2 ≤ q →
      Function.update w.mem p value q = w.mem q :=
    fun q outside => Function.update_of_ne (by omega) _ _
  have apart := pairwise_append.mp sound.apart
  refine ⟨_, rfl, sound.rearrange member same (.refl _) sound.words
    (chain_kept _ sound.chain (fun a => sound.word_le) same ?_)⟩
  exact fun a listed => apart.2.2 _ used _ (mem_map.mpr ⟨a, listed, rfl⟩)

theorem step_protect (sound : w.Sound layout freed) :
    ∃ w', w.step layout .protect = some w' ∧ w'.Sound layout freed := by
  refine ⟨_, rfl, ⟨sound.alignment, sound.chunking, sound.chain, sound.words, sound.bases,
    sound.separate, forall_mem_nil _, .nil, forall_mem_nil _,
    fun e member => ?_, sound.apart⟩⟩
  have held := sound.holds e member
  obtain ⟨b, mapped, low, high, -⟩ := held.inside
  exact ⟨held.aligned, held.some, b, mapped, low, high,
    forall_mem_nil _⟩

theorem step_drop (sound : w.Sound layout freed) :
    ∃ w', w.step layout .drop = some w' ∧ w'.Sound layout [] := by
  refine ⟨_, rfl, ⟨sound.alignment, sound.chunking, rfl, fun none => absurd rfl none,
    fun b mapped => sound.bases b (mem_filter.mp mapped).1, sound.separate.filter _,
    forall_mem_nil _, .nil, forall_mem_nil _,
    fun e member => ?_, ?_⟩⟩
  · rw [World.entries, map_nil, append_nil] at member
    obtain ⟨used, left⟩ := mem_filter.mp member
    have held := sound.holds e (mem_append_left _ used)
    obtain ⟨b, mapped, low, high, -⟩ := held.inside
    refine ⟨held.aligned, held.some, b, mem_filter.mpr ⟨mapped, decide_eq_true ?_⟩, low, high,
      forall_mem_nil _⟩
    intro back
    have gone := all_eq_true.mp left b back
    have some := held.some
    simp only [Bool.not_eq_true', Bool.and_eq_false_imp, decide_eq_true_eq,
      decide_eq_false_iff_not] at gone
    exact gone (by omega) (by omega)
  · rw [World.entries, map_nil, append_nil]
    exact (pairwise_append.mp sound.apart).1.filter _

/-! ## Allocating -/

/-- An entry of the freelist is handed out again. -/
theorem reuse (sound : w.Sound layout (p :: freed)) (small : layout.entrySize < 2 ^ 32) :
    ∃ mem', clearEntry clearTurns w.mem p layout.entrySize = some mem' ∧
      (∀ q, p ≤ q → q < p + layout.entrySize → mem' q = 0) ∧
      World.Sound ⟨{ w.desc with freelist := load w.mem p }, mem', w.mapped,
        (p, layout.entrySize) :: w.live⟩ layout freed := by
  have member : (p, layout.entrySize) ∈ w.entries layout (p :: freed) :=
    mem_append_right _ mem_cons_self
  have words := sound.words (cons_ne_nil _ _)
  obtain ⟨mem', cleared, zero, same⟩ := @clearEntry_whole w.mem p _ words
    (sound.holds _ member).some small
  refine ⟨mem', cleared, zero, sound.rearrange member same ?_ (fun _ => words) ?_⟩
  · exact perm_middle.symm
  · have apart := (pairwise_append.mp sound.apart).2.1
    rw [map_cons] at apart
    refine chain_kept (p, layout.entrySize) sound.chain.2.2
      (fun a listed => sound.word_le (mem_cons_of_mem _ listed)) same fun a listed => ?_
    exact (pairwise_cons.mp apart).1 _ (mem_map.mpr ⟨a, listed, rfl⟩)

/-- An entry is cut off the blob in front. -/
theorem cut (sound : w.Sound layout freed) {rest : List AllocationBlob}
    (blobs : w.desc.blobs = blob :: rest) {desc : AllocatorStruct}
    (aligned : desc.alignment = layout.alignment) (chunk : desc.chunking = layout.chunking)
    (chain : Chain w.mem desc.freelist freed) (some : 0 < size)
    (whole : layout.alignment ∣ size) (fits : size ≤ blob.left) :
    World.Sound ⟨(cutEntry desc blob rest size).2, w.mem, w.mapped,
      ((cutEntry desc blob rest size).1, size) :: w.live⟩ layout freed := by
  have front : blob ∈ w.desc.blobs := blobs ▸ mem_cons_self
  have behind : ∀ other ∈ rest, other ∈ w.desc.blobs := fun other member =>
    blobs ▸ mem_cons_of_mem _ member
  obtain ⟨mapped, sum, offsets⟩ := sound.listed blob front
  have small := layout.small
  have left : subUnsigned blob.left size = blob.left - size :=
    subUnsigned_of_le fits (by omega)
  have next : (blob.offset + size) % 2 ^ 32 = blob.offset + size := Nat.mod_eq_of_lt (by omega)
  have distinct := sound.distinct
  rw [blobs, map_cons, nodup_cons] at distinct
  unfold cutEntry
  rw [left, next]
  refine ⟨aligned, chunk, chain, sound.words, sound.bases, sound.separate, ?_, ?_, ?_, ?_, ?_⟩
  · intro other member
    rcases mem_cons.mp member with rfl | member
    · refine ⟨mapped, ?_, ?_⟩
      · dsimp only
        omega
      · have sum := Nat.dvd_add offsets whole
        rwa [Nat.add_assoc] at sum
    · exact sound.listed other (behind other member)
  · exact nodup_cons.mpr distinct
  · intro other member q above below
    rcases mem_cons.mp member with rfl | member
    · dsimp only at above
      exact sound.blank blob front q (by omega) below
    · exact sound.blank other (behind other member) q above below
  · intro e member
    rcases mem_cons.mp member with rfl | member
    · refine ⟨⟨?_, whole⟩, some, blob.addr, mapped, Nat.le_add_right _ _, ?_, ?_⟩
      · have base := Nat.dvd_add (sound.bases _ mapped).2.2 offsets
        rwa [← Nat.add_assoc] at base
      · dsimp only
        omega
      · intro other member same
        rcases mem_cons.mp member with rfl | member
        · exact Nat.le_of_eq (Nat.add_assoc _ _ _)
        · exact absurd (mem_map.mpr ⟨other, member, same⟩) distinct.1
    · have held := sound.holds e member
      obtain ⟨b, inside, low, high, under⟩ := held.inside
      refine ⟨held.aligned, held.some, b, inside, low, high, fun other member same => ?_⟩
      rcases mem_cons.mp member with rfl | member
      · have last := under blob front same
        dsimp only
        omega
      · exact under other (behind other member) same
  · refine pairwise_cons.mpr ⟨fun e member => ?_, sound.apart⟩
    obtain ⟨b, inside, low, high, under⟩ := (sound.holds e member).inside
    unfold Apart
    dsimp only
    by_cases same : blob.addr = b
    · have last := under blob front same
      omega
    · have apart := apart_iff.mp (sound.separate.forall mapped inside same)
      omega

theorem newBlob_eq {desc : AllocatorStruct} (alignment : desc.alignment = layout.alignment)
    (chunking : desc.chunking = layout.chunking) :
    newBlob desc newblob = ⟨newblob, layout.chunking - roundUp layout.alignment dataOffset,
      roundUp layout.alignment dataOffset - dataOffset⟩ := by
  have header := layout.header
  have room := le_roundUp layout.aligned dataOffset
  have small := layout.small
  unfold newBlob
  rw [alignment, chunking, layout.alignUp_eq header, subUnsigned_of_le header small,
    subUnsigned_of_le room (by omega)]

theorem grow (sound : w.Sound layout freed)
    (base : 0 < newblob ∧ newblob + layout.chunking ≤ 2 ^ 64 ∧ layout.alignment ∣ newblob)
    (fresh : ∀ b ∈ w.mapped, Apart (newblob, layout.chunking) (b, layout.chunking)) :
    World.Sound ⟨{ w.desc with blobs := newBlob w.desc newblob :: w.desc.blobs },
      mapBlob w.mem newblob layout.chunking, newblob :: w.mapped, w.live⟩ layout freed := by
  have header := layout.header
  have room := le_roundUp layout.aligned dataOffset
  have positive : 0 < dataOffset := by decide
  have other : newblob ∉ w.mapped := by
    intro member
    have apart := apart_iff.mp (fresh _ member)
    omega
  have kept : ∀ e ∈ w.entries layout freed, ∀ q, e.1 ≤ q → q < e.1 + e.2 →
      mapBlob w.mem newblob layout.chunking q = w.mem q := by
    intro e member q low high
    obtain ⟨b, inside, first, last, -⟩ := (sound.holds e member).inside
    have apart := apart_iff.mp (fresh b inside)
    exact if_neg (by omega)
  rw [newBlob_eq sound.alignment sound.chunking]
  refine ⟨sound.alignment, sound.chunking, ?_, sound.words, ?_, ?_, ?_, ?_, ?_, ?_, sound.apart⟩
  · refine sound.chain.congr fun a member q low high => ?_
    refine kept (a, layout.entrySize) ?_ q low
      (Nat.lt_of_lt_of_le high (Nat.add_le_add_left (sound.word_le member) _))
    exact mem_append_right _ (mem_map.mpr ⟨a, member, rfl⟩)
  · intro b member
    rcases mem_cons.mp member with rfl | member
    · exact base
    · exact sound.bases b member
  · exact pairwise_cons.mpr ⟨fresh, sound.separate⟩
  · intro blob member
    rcases mem_cons.mp member with rfl | member
    · refine ⟨mem_cons_self, ?_, ?_⟩
      · dsimp only
        omega
      · dsimp only
        rw [Nat.add_sub_cancel' room]
        exact dvd_roundUp _ _
    · obtain ⟨inside, rest⟩ := sound.listed blob member
      exact ⟨mem_cons_of_mem _ inside, rest⟩
  · refine nodup_cons.mpr ⟨fun member => other ?_, sound.distinct⟩
    obtain ⟨blob, listed, same⟩ := mem_map.mp member
    have base : blob.addr = newblob := same
    exact base ▸ (sound.listed blob listed).1
  · intro blob member q above below
    show mapBlob w.mem newblob layout.chunking q = 0
    unfold mapBlob
    split_ifs with inside
    · rfl
    · rcases mem_cons.mp member with rfl | member
      · dsimp only at above below
        exact absurd ⟨by omega, below⟩ inside
      · exact sound.blank blob member q above below
  · intro e member
    have held := sound.holds e member
    obtain ⟨b, inside, low, high, under⟩ := held.inside
    refine ⟨held.aligned, held.some, b, mem_cons_of_mem _ inside, low, high,
      fun blob listed same => ?_⟩
    rcases mem_cons.mp listed with rfl | listed
    · have base : newblob = b := same
      exact absurd (base ▸ inside) other
    · exact under blob listed same

/-- A blob that is not handed out yet is blank. -/
theorem cut_blank (sound : w.Sound layout freed) (listed : blob ∈ w.desc.blobs)
    (fits : size ≤ blob.left) (low : blob.addr + dataOffset + blob.offset ≤ p)
    (high : p < blob.addr + dataOffset + blob.offset + size) : w.mem p = 0 := by
  obtain ⟨-, sum, -⟩ := sound.listed blob listed
  exact sound.blank blob listed p low (by omega)

theorem step_of_allocate {desc : AllocatorStruct} {entry : Nat}
    (done : allocate w.desc w.mem size (some newblob) = some (entry, desc, mem)) :
    w.step layout (.allocate size newblob) = some ⟨desc, mem,
      if desc.blobs.length = w.desc.blobs.length then w.mapped else newblob :: w.mapped,
      (entry, roundUp layout.alignment size) :: w.live⟩ := by
  simp only [World.step, done, Option.bind_eq_bind, Option.bind_some]

theorem step_allocate (sound : w.Sound layout freed)
    (allowed : w.Allows layout (.allocate size newblob)) :
    ∃ entry w' freed', w.step layout (.allocate size newblob) = some w' ∧
      w'.Sound layout freed' ∧ w'.live = (entry, roundUp layout.alignment size) :: w.live ∧
      ∀ q, entry ≤ q → q < entry + roundUp layout.alignment size → w'.mem q = 0 := by
  obtain ⟨nonzero, fits, constant, base, fresh⟩ := allowed
  have padded := le_roundUp layout.aligned size
  have small := layout.small
  by_cases list : w.desc.freelist ≠ 0
  · cases freed with
    | nil => exact absurd sound.chain list
    | cons p freed =>
      have same := constant list
      subst same
      have entry : (p, layout.entrySize) ∈ w.entries layout (p :: freed) :=
        mem_append_right _ mem_cons_self
      have exactly := roundUp_of_dvd layout.aligned (sound.holds _ entry).aligned.2
      rw [exactly] at fits ⊢
      obtain ⟨mem', cleared, zero, after⟩ := sound.reuse (by omega)
      rw [← sound.chain.1] at cleared zero after
      have done : allocate w.desc w.mem layout.entrySize (some newblob) =
          some (w.desc.freelist, { w.desc with freelist := load w.mem w.desc.freelist }, mem') := by
        rw [allocate, if_pos list, cleared]
        rfl
      refine ⟨_, _, freed, step_of_allocate done, ?_, by rw [exactly], zero⟩
      rw [if_pos rfl, exactly]
      exact after
  · have whole := dvd_roundUp layout.alignment size
    have positive := Nat.lt_of_lt_of_le nonzero padded
    have none := of_not_not list
    have cast : alignUp size w.desc.alignment = roundUp layout.alignment size := by
      rw [sound.alignment]
      exact layout.alignUp_eq (by omega)
    by_cases front : ∃ blob rest, w.desc.blobs = blob :: rest ∧
        roundUp layout.alignment size ≤ blob.left
    · obtain ⟨blob, rest, blobs, enough⟩ := front
      have done := @allocate_front w.mem size newblob blob w.desc rest none blobs (cast ▸ enough)
      rw [cast] at done
      have kept := @step_of_allocate layout _ _ _ _ _ _ done
      rw [if_pos (blobs ▸ length_cons.trans length_cons.symm)] at kept
      have after := @cut layout w freed _ blob sound rest blobs (counted w.desc size)
        sound.alignment sound.chunking sound.chain positive whole enough
      refine ⟨_, _, freed, kept, after, rfl, fun q low high => ?_⟩
      exact sound.cut_blank (blobs ▸ mem_cons_self) enough low high
    · have room : roundUp layout.alignment size ≤ (newBlob w.desc newblob).left := by
        rw [newBlob_eq sound.alignment sound.chunking]
        dsimp only
        omega
      have mapped := sound.grow base fresh
      have done := @allocate_new w.mem size newblob w.desc none
        (fun blob rest blobs => cast ▸ Nat.lt_of_not_le fun enough =>
          front ⟨blob, rest, blobs, enough⟩)
        (by rw [cast, sound.chunking]; omega)
      rw [cast] at done
      have grown := @step_of_allocate layout _ _ _ _ _ _ done
      have longer : ∀ larger blob, (cutEntry larger blob w.desc.blobs
          (roundUp layout.alignment size)).2.blobs.length ≠ w.desc.blobs.length :=
        fun _ _ => Nat.succ_ne_self _
      rw [if_neg (longer _ _), sound.chunking] at grown
      have after := @cut layout _ freed _ (newBlob w.desc newblob) mapped w.desc.blobs rfl
        { counted w.desc size with totalBytes := w.desc.totalBytes + layout.chunking }
        sound.alignment sound.chunking mapped.chain positive whole room
      refine ⟨_, _, freed, grown, after, rfl, fun q low high => ?_⟩
      exact mapped.cut_blank mem_cons_self room low high

end World.Sound

end Steps

/-! ## Runs -/

def World.start (layout : Layout) : World where
  desc := ⟨[], layout.alignment, layout.chunking, 0, 0, 0, 0⟩
  mem := fun _ => 0
  mapped := []
  live := []

inductive World.Reached (layout : Layout) : World → Prop
  | start : Reached layout (World.start layout)
  | step {w w' : World} {op : Op} (reached : Reached layout w) (allowed : w.Allows layout op)
      (stepped : w.step layout op = some w') : Reached layout w'

section Runs

variable {layout : Layout} {w : World} {size newblob : Nat}

theorem World.Reached.sound (reached : w.Reached layout) :
    ∃ freed, w.Sound layout freed := by
  induction reached with
  | start =>
    exact ⟨[], rfl, rfl, rfl, fun none => absurd rfl none, forall_mem_nil _, .nil,
      forall_mem_nil _, .nil, forall_mem_nil _, forall_mem_nil _, .nil⟩
  | @step w w' op reached allowed stepped ih =>
    obtain ⟨freed, sound⟩ := ih
    have found : ∃ next freed', w.step layout op = some next ∧ next.Sound layout freed' := by
      cases op with
      | allocate size newblob =>
        obtain ⟨entry, next, freed', done, after, -⟩ := sound.step_allocate allowed
        exact ⟨next, freed', done, after⟩
      | free entry =>
        obtain ⟨next, done, after⟩ := sound.step_free allowed.1 allowed.2
        exact ⟨next, _, done, after⟩
      | write p value =>
        obtain ⟨entry, used, low, high⟩ := allowed
        obtain ⟨next, done, after⟩ := sound.step_write used low high value
        exact ⟨next, _, done, after⟩
      | protect =>
        obtain ⟨next, done, after⟩ := sound.step_protect
        exact ⟨next, _, done, after⟩
      | drop =>
        obtain ⟨next, done, after⟩ := sound.step_drop
        exact ⟨next, _, done, after⟩
    obtain ⟨next, freed', done, after⟩ := found
    rw [stepped] at done
    cases done
    exact ⟨freed', after⟩

def pairs : Layout where
  alignment := 8
  chunking := 32768
  entrySize := 16
  power := ⟨3, by decide, rfl⟩
  header := by decide
  small := by decide

/-- Two entries, of which the first one was freed and the second one was written. -/
def pairsFreed : World where
  desc := ⟨[⟨4096, 32720, 32⟩], 8, 32768, 4112, 2, 32768, 32⟩
  mem := Function.update (store (mapBlob (fun _ => 0) 4096 32768) 4112 0) 4130 7
  mapped := [4096]
  live := [(4128, 16)]

theorem pairsFreed_reached : pairsFreed.Reached pairs := by
  have one : World.Reached pairs ⟨⟨[⟨4096, 32736, 16⟩], 8, 32768, 0, 1, 32768, 16⟩,
      mapBlob (fun _ => 0) 4096 32768, [4096], [(4112, 16)]⟩ :=
    @World.Reached.step pairs _ _ (.allocate 16 4096) .start
      ⟨by decide, by decide, fun _ => rfl, by decide, forall_mem_nil _⟩
      (by with_unfolding_all rfl)
  have two : World.Reached pairs ⟨⟨[⟨4096, 32720, 32⟩], 8, 32768, 0, 2, 32768, 32⟩,
      mapBlob (fun _ => 0) 4096 32768, [4096], [(4128, 16), (4112, 16)]⟩ :=
    @World.Reached.step pairs _ _ (.allocate 16 65536) one
      ⟨by decide, by decide, fun _ => rfl, by decide, by decide⟩ (by with_unfolding_all rfl)
  have free : World.Reached pairs { pairsFreed with
      mem := store (mapBlob (fun _ => 0) 4096 32768) 4112 0 } :=
    @World.Reached.step pairs _ _ (.free 4112) two ⟨by decide, by decide⟩ rfl
  exact @World.Reached.step pairs _ _ (.write 4130 7) free ⟨(4128, 16), by decide⟩ rfl

theorem dataOffset_le_alignUp {alignment : Nat} (power : ∃ k < 32, alignment = 2 ^ k) :
    dataOffset ≤ alignUp dataOffset alignment ∧ alignUp dataOffset alignment < 2 ^ 32 := by
  refine ⟨?_, Nat.mod_lt _ (by decide)⟩
  obtain ⟨k, less, rfl⟩ := power
  revert less
  revert k
  decide

end Runs

end SmatchFormal.Alloc
