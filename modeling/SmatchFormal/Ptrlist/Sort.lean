import SmatchFormal.Ptrlist.Lists
import Mathlib.Algebra.Group.Nat.Defs

/-!
# Sorting a pointer list

`sort_list` of `sort.c`.  Each block is sorted on its own, and then runs of blocks are merged in
pairs, first runs of one block, then of two, of four and so on.  A merge works in place: what was
taken from the two runs waits in a buffer until a block has been read to its end and can be written,
and a block of the second run that was read to its end goes before the first run.

There is no result where the code would read outside of the entries of a block, write outside of the
buffer, or shift an `int` out of its range.
-/

namespace SmatchFormal.Ptrlist

variable {α β : Type}

/-- The inner loop of `array_sort`: entries that compare greater than `p` go one place up, until the
place that is left free is the one for `p`. -/
def makeRoom (cmp : β → β → Int) (p : β) : List β → Nat → List β × Nat
  | ptr, 0 => (ptr, 0)
  | ptr, j + 1 =>
    match ptr[j]? with
    | some q => if 0 < cmp q p then makeRoom cmp p (ptr.set (j + 1) q) j else (ptr, j + 1)
    | none => (ptr, j + 1)

def insertEntry (cmp : β → β → Int) (ptr : List β) (i : Nat) : List β :=
  match ptr[i]? with
  | some p => (makeRoom cmp p ptr i).1.set (makeRoom cmp p ptr i).2 p
  | none => ptr

def arraySort (cmp : β → β → Int) (ptr : List β) : List β :=
  (List.range' 1 (ptr.length - 1)).foldl (insertEntry cmp) ptr

/-- `buffer[nbuf++] = d`.  The buffer has `2 * LIST_NODE_NR` places. -/
def push (buffer : List β) (d : β) : Option (List β) :=
  if buffer.length < 2 * listNodeNr then some (buffer ++ [d]) else none

/-- `FLUSH_TO`: a block takes as many entries from the front of the buffer as it has places in
use. -/
def flushTo (h : Heap α) (b : Addr) (buffer : List (Option α)) :
    Option (Heap α × List (Option α)) := do
  let block ← h.block b
  if buffer.length < block.nr then none
  else
    let heap ← h.setList b (buffer.take block.nr)
    some (heap, buffer.drop block.nr)

/-- `DUMP_TO`: the whole buffer goes to the first places of a block. -/
def dumpTo (h : Heap α) (b : Addr) (buffer : List (Option α)) : Option (Heap α) := do
  let block ← h.block b
  if block.nr < buffer.length then none
  else h.setList b (buffer ++ block.list.drop buffer.length)

/-- The loops that start a merge pass over the blocks that are `low`.  The count of the blocks left
is above zero, and comes out as zero when the last of them was passed. -/
def skipBlocks (h : Heap α) (low : List (Option α) → Bool) : Nat → Addr → Option (Addr × Nat)
  | 0, _ => none
  | n + 1, b => do
      let block ← h.block b
      if low block.list then
        if n = 0 then some (block.next, 0) else skipBlocks h low n block.next
      else some (b, n + 1)

/-- The loops that go on to the next block with entries in use. -/
def advance (h : Heap α) : Nat → Addr → Option (Addr × Nat)
  | 0, _ => none
  | n + 1, b => do
      let block ← h.block b
      -- the first turn does not look at the block that it leaves
      if n = 0 then some (block.next, 0)
      else skipBlocks h List.isEmpty n block.next

/-- A block of the first run is skipped when it is empty or its last entry compares less than the
first of the second run. -/
def below (cmp : Option α → Option α → Int) (first : Option α) (list : List (Option α)) : Bool :=
  list.getLast?.all fun last => decide (cmp last first < 0)

/-- The loop `while (b1 != b2)` that ends the first run. -/
def drain (b2 : Addr) : Nat → Heap α → Addr → List (Option α) →
    Option (Heap α × List (Option α))
  | 0, _, _, _ => none
  | fuel + 1, h, b1, buffer =>
    if b1 = b2 then some (h, buffer)
    else do
      let (h, buffer) ← flushTo h b1 buffer
      let block ← h.block b1
      drain b2 fuel h block.next buffer

/-- A block of the second run is pulled out and plugged in before `b1`.  The block after it is the
new `b2`. -/
def pullOut (h : Heap α) (l b1 : Addr) : Option (Heap α × Addr) := do
  let b2 ← h.next l
  let before ← h.prev l
  let h ← h.setPrev b2 before
  let before ← h.prev b2
  let h ← h.setNext before b2
  let h ← h.setNext l b1
  let before ← h.prev b1
  let h ← h.setPrev l before
  let after ← h.next l
  let h ← h.setPrev after l
  let before ← h.prev l
  let h ← h.setNext before l
  some (h, b2)

structure Merging (α : Type) where
  heap : Heap α
  b1 : Addr
  n : Nat
  i1 : Nat
  b2 : Addr
  m : Nat
  i2 : Nat
  buffer : List (Option α)
  newhead : Addr

inductive Turn (α : Type) where
  | again (s : Merging α)
  | return (heap : Heap α) (newhead : Addr)

def takeFirst (s : Merging α) (block1 : PtrList α) (d1 : Option α) : Option (Turn α) := do
  let buffer ← push s.buffer d1
  if s.i1 + 1 < block1.nr then some (.again { s with i1 := s.i1 + 1, buffer := buffer })
  else
    let (heap, buffer) ← flushTo s.heap s.b1 buffer
    let (b1, n) ← advance heap s.n s.b1
    if n = 0 then
      let (heap, buffer) ← drain s.b2 heap.blockFuel heap b1 buffer
      let heap ← dumpTo heap s.b2 buffer
      some (.return heap s.newhead)
    else some (.again { s with heap := heap, b1 := b1, n := n, i1 := 0, buffer := buffer })

def takeSecond (s : Merging α) (block2 : PtrList α) (d2 : Option α) : Option (Turn α) := do
  let buffer ← push s.buffer d2
  if s.i2 + 1 < block2.nr then some (.again { s with i2 := s.i2 + 1, buffer := buffer })
  else
    let (heap, b2) ← pullOut s.heap s.b2 s.b1
    let newhead := if s.b1 = s.newhead then s.b2 else s.newhead
    let (heap, buffer) ← flushTo heap s.b2 buffer
    let before ← heap.prev b2
    let (b2, m) ← advance heap s.m before
    if m = 0 then
      let heap ← dumpTo heap s.b1 buffer
      some (.return heap newhead)
    else
      some (.again
        { s with heap := heap, b2 := b2, m := m, i2 := 0, buffer := buffer, newhead := newhead })

def mergeTurn (cmp : Option α → Option α → Int) (s : Merging α) : Option (Turn α) := do
  let block1 ← s.heap.block s.b1
  let block2 ← s.heap.block s.b2
  let d1 ← block1.list[s.i1]?
  let d2 ← block2.list[s.i2]?
  if cmp d1 d2 ≤ 0 then takeFirst s block1 d1 else takeSecond s block2 d2

def mergeLoop (cmp : Option α → Option α → Int) : Nat → Merging α → Option (Heap α × Addr)
  | 0, _ => none
  | fuel + 1, s => do
      match ← mergeTurn cmp s with
      | .again s => mergeLoop cmp fuel s
      | .return heap newhead => some (heap, newhead)

def mergeBlockSeqs (cmp : Option α → Option α → Int) (h : Heap α) (b1 : Addr) (n : Nat) (b2 : Addr)
    (m : Nat) : Option (Heap α × Addr) := do
  let newhead := b1
  let (b2, m) ← skipBlocks h List.isEmpty m b2
  if m = 0 then some (h, newhead)
  else
    let block2 ← h.block b2
    let first ← block2.list[0]?
    let (b1, n) ← skipBlocks h (below cmp first) n b1
    if n = 0 then some (h, newhead)
    else mergeLoop cmp h.entryFuel ⟨h, b1, n, 0, b2, m, 0, [], newhead⟩

def sortBlocks (cmp : Option α → Option α → Int) (head : Addr) :
    Nat → Heap α → Addr → Option (Heap α)
  | 0, _, _ => none
  | fuel + 1, h, list => do
      let block ← h.block list
      let h ← h.setList list (arraySort cmp block.list)
      let next ← h.next list
      if next = head then some h else sortBlocks cmp head fuel h next

/-- The loop that leads from the first block of a run to the first of the run after it.  There is
none when the loop comes to the head of the list before. -/
def stride (h : Heap α) (head : Addr) : Nat → Addr → Option (Option Addr)
  | 0, block2 => some (some block2)
  | left + 1, block2 => do
      let next ← h.next block2
      if next = head then some none else stride h head left next

/-- The loop that leads to the end of the second run, and counts its blocks. -/
def span (h : Heap α) (head : Addr) : Nat → Addr → Nat → Option (Addr × Nat)
  | 0, next, i => some (next, i)
  | left + 1, next, i => do
      let next ← h.next next
      if next = head then some (next, i + 1) else span h head left next (i + 1)

/-- A pass over the list, which merges runs of `blocks` blocks in pairs.  With the memory and the
head it tells whether the sort is over. -/
def pass (cmp : Option α → Option α → Int) (blocks : Nat) :
    Nat → Heap α → Addr → Addr → Option (Heap α × Addr × Bool)
  | 0, _, _, _ => none
  | fuel + 1, h, head, block1 => do
      match ← stride h head blocks block1 with
      | none => some (h, head, decide (block1 = head))
      | some block2 =>
        let (next, i) ← span h head blocks block2 0
        let (h, newhead) ← mergeBlockSeqs cmp h block1 blocks block2 i
        let head := if block1 = head then newhead else head
        if next = head then some (h, head, false) else pass cmp blocks fuel h head next

def intMax : Nat := 2 ^ 31 - 1

def double (blocks : Nat) : Option Nat :=
  if 2 * blocks ≤ intMax then some (2 * blocks) else none

/-- The passes.  Their number is not bounded by the code; the shift is undefined before the turns
that are counted here run out. -/
def sortPasses (cmp : Option α → Option α → Int) :
    Nat → Heap α → Addr → Nat → Option (Heap α × Addr)
  | 0, _, _, _ => none
  | fuel + 1, h, head, blocks => do
      let (h, head, finished) ← pass cmp blocks h.blockFuel h head head
      if finished then some (h, head)
      else
        let blocks ← double blocks
        sortPasses cmp fuel h head blocks

def sortList (cmp : Option α → Option α → Int) (h : Heap α) (plist : Option Addr) :
    Option (Heap α × Option Addr) :=
  match plist with
  | none => some (h, none)
  | some head => do
      let h ← sortBlocks cmp head h.blockFuel h head
      let (h, head) ← sortPasses cmp 32 h head 1
      some (h, some head)

end SmatchFormal.Ptrlist
