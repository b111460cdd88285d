import Mathlib.Data.List.Basic
import Mathlib.Data.List.Pairwise
import Mathlib.Tactic.Ring
import SmatchFormal.Lib.BitLength

/-!
# The allocator

`allocate.c` cuts entries out of big blobs and keeps the freed ones in a list whose links lie in the
entries themselves.  The memory holds bytes, and a pointer is read and written as eight of them.
-/

namespace SmatchFormal.Alloc

/-- The bytes of the memory, by their addresses; the null pointer is 0. -/
abbrev Memory := Nat → BitVec 8

def wordSize : Nat := 8

def load (mem : Memory) (p : Nat) : Nat :=
  (List.range wordSize).foldr (fun i rest => (mem (p + i)).toNat + 2 ^ 8 * rest) 0

def store (mem : Memory) (p value : Nat) : Memory := fun q =>
  if p ≤ q ∧ q < p + wordSize then BitVec.ofNat 8 (value / 2 ^ (8 * (q - p))) else mem q

section Memory

variable {mem mem' : Memory} {p q value : Nat}

theorem store_outside (outside : q < p ∨ p + wordSize ≤ q) : store mem p value q = mem q :=
  if_neg (by omega)

theorem store_zero (low : p ≤ q) (high : q < p + wordSize) : store mem p 0 q = 0 := by
  rw [store, if_pos ⟨low, high⟩, Nat.zero_div]
  rfl

theorem toNat_store {i : Nat} (inside : i < wordSize) :
    (store mem p value (p + i)).toNat = value / 2 ^ (8 * i) % 2 ^ 8 := by
  rw [store, if_pos ⟨Nat.le_add_right _ _, Nat.add_lt_add_left inside _⟩, Nat.add_sub_cancel_left,
    BitVec.toNat_ofNat]

theorem load_store (small : value < 2 ^ 64) : load (store mem p value) p = value := by
  have bytes : load (store mem p value) p = (List.range wordSize).foldr
      (fun i rest => value / 2 ^ (8 * i) % 2 ^ 8 + 2 ^ 8 * rest) 0 := by
    refine List.foldr_ext _ _ _ fun i member rest => ?_
    rw [toNat_store (List.mem_range.mp member)]
  rw [bytes]
  simp only [wordSize, List.range, List.range.loop, List.foldr_cons, List.foldr_nil]
  omega

theorem load_congr (same : ∀ q, p ≤ q → q < p + wordSize → mem' q = mem q) :
    load mem' p = load mem p := by
  refine List.foldr_ext _ _ _ fun i member rest => ?_
  rw [same (p + i) (Nat.le_add_right _ _) (Nat.add_lt_add_left (List.mem_range.mp member) _)]

end Memory

def dataOffset : Nat := 16

/-- `(size + alignment - 1) & ~(alignment - 1)`, an `unsigned long` that is stored in an
`unsigned int`. -/
def alignUp (size alignment : Nat) : Nat :=
  let mask := BitVec.ofNat 64 alignment - 1
  ((BitVec.ofNat 64 size + mask) &&& ~~~mask).toNat % 2 ^ 32

@[irreducible]
def subUnsigned (a b : Nat) : Nat := (a + 2 ^ 32 - b) % 2 ^ 32

theorem subUnsigned_of_le {a b : Nat} (le : b ≤ a) (small : a < 2 ^ 32) :
    subUnsigned a b = a - b := by
  unfold subUnsigned
  omega

/-- `struct allocation_blob`, where `next` is the rest of the list of blobs. -/
structure AllocationBlob where
  addr : Nat
  left : Nat
  offset : Nat

structure AllocatorStruct where
  blobs : List AllocationBlob
  alignment : Nat
  chunking : Nat
  freelist : Nat
  allocations : Nat
  totalBytes : Nat
  usefulBytes : Nat

def protectAllocations (desc : AllocatorStruct) : AllocatorStruct := { desc with blobs := [] }

def dropAllAllocations (desc : AllocatorStruct) : AllocatorStruct × List Nat :=
  ({ desc with blobs := [], allocations := 0, totalBytes := 0, usefulBytes := 0, freelist := 0 },
    desc.blobs.map AllocationBlob.addr)

def freeOneEntry (desc : AllocatorStruct) (mem : Memory) (entry : Nat) :
    AllocatorStruct × Memory :=
  ({ desc with freelist := entry }, store mem entry desc.freelist)

/-- The loop that clears an entry of the freelist.  `size` is an `unsigned int` and wraps around;
the loop has no result when it does not end. -/
def clearEntry : Nat → Memory → Nat → Nat → Option Memory
  | 0, _, _, _ => none
  | turns + 1, mem, p, size =>
    let mem := store mem p 0
    let size := subUnsigned size wordSize
    if size > 0 then clearEntry turns mem (p + wordSize) size else some mem

/-- The turns after which an `unsigned int` that is counted down has come around. -/
def clearTurns : Nat := 2 ^ 29

def mapBlob (mem : Memory) (addr chunking : Nat) : Memory := fun p =>
  if addr ≤ p ∧ p < addr + chunking then 0 else mem p

/-- The end of `allocate`: an entry is cut off the blob in front. -/
def cutEntry (desc : AllocatorStruct) (blob : AllocationBlob) (rest : List AllocationBlob)
    (size : Nat) : Nat × AllocatorStruct :=
  (blob.addr + dataOffset + blob.offset,
    { desc with
      blobs := { blob with
        offset := (blob.offset + size) % 2 ^ 32
        left := subUnsigned blob.left size } :: rest })

def newBlob (desc : AllocatorStruct) (addr : Nat) : AllocationBlob where
  addr := addr
  left := subUnsigned desc.chunking (alignUp dataOffset desc.alignment)
  offset := subUnsigned (alignUp dataOffset desc.alignment) dataOffset

/-- `allocate`.  `newblob` is what `blob_alloc` returns if it is called.  There is no result when
the program dies, or when the loop that clears an entry does not end. -/
def allocate (desc : AllocatorStruct) (mem : Memory) (size : Nat) (newblob : Option Nat) :
    Option (Nat × AllocatorStruct × Memory) :=
  if desc.freelist ≠ 0 then do
    let mem' ← clearEntry clearTurns mem desc.freelist size
    some (desc.freelist, { desc with freelist := load mem desc.freelist }, mem')
  else
    let desc := { desc with
      allocations := desc.allocations + 1
      usefulBytes := desc.usefulBytes + size }
    let size := alignUp size desc.alignment
    let grow : Option (Nat × AllocatorStruct × Memory) := do
      let addr ← newblob
      if size > desc.chunking then none
      else
        let desc := { desc with totalBytes := desc.totalBytes + desc.chunking }
        let cut := cutEntry desc (newBlob desc addr) desc.blobs size
        some (cut.1, cut.2, mapBlob mem addr desc.chunking)
    match desc.blobs with
    | [] => grow
    | blob :: rest =>
      if blob.left < size then grow
      else
        let cut := cutEntry desc blob rest size
        some (cut.1, cut.2, mem)

section AlignUp

open Lib.BitLength

variable {size k : Nat}

theorem toNat_alignMask (small : k < 32) :
    (BitVec.ofNat 64 (2 ^ k) - 1).toNat = 2 ^ k - 1 := by
  have positive := Nat.two_pow_pos k
  have bounded : 2 ^ k < 2 ^ 32 := Nat.pow_lt_pow_right (by decide) small
  have number : (BitVec.ofNat 64 (2 ^ k)).toNat = 2 ^ k := by
    rw [BitVec.toNat_ofNat]
    exact Nat.mod_eq_of_lt (by omega)
  rw [BitVec.toNat_sub_of_le, number]
  · rfl
  · rw [BitVec.le_def, number]
    exact positive

/-- The aligned size, up to what an `unsigned int` loses. -/
theorem alignUp_eq (bounded : size < 2 ^ 32) (small : k < 32) :
    alignUp size (2 ^ k) = roundUp (2 ^ k) size % 2 ^ 32 := by
  have power : 2 ^ k < 2 ^ 32 := Nat.pow_lt_pow_right (by decide) small
  have number : (BitVec.ofNat 64 size).toNat = size := by
    rw [BitVec.toNat_ofNat]
    exact Nat.mod_eq_of_lt (by omega)
  unfold alignUp
  dsimp only
  rw [toNat_add_and_not_mask (toNat_alignMask small) (by omega), number]

theorem alignUp_of_lt (small : k < 32) (bounded : roundUp (2 ^ k) size < 2 ^ 32) :
    alignUp size (2 ^ k) = roundUp (2 ^ k) size := by
  have padded := le_roundUp (Nat.two_pow_pos k) size
  rw [alignUp_eq (by omega) small]
  exact Nat.mod_eq_of_lt bounded

theorem roundUp_of_dvd {unit n : Nat} (positive : 0 < unit) (whole : unit ∣ n) :
    roundUp unit n = n := by
  obtain ⟨count, rfl⟩ := whole
  unfold roundUp
  rw [Nat.mul_add_mod, Nat.mod_eq_of_lt (Nat.sub_lt positive Nat.one_pos)]
  exact Nat.add_sub_cancel _ _

end AlignUp

end SmatchFormal.Alloc
