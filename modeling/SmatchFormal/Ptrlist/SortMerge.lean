import SmatchFormal.Ptrlist.SortWalks

/-!
# Merging two runs of blocks

A merge of two runs that stand next to each other in the list leaves their blocks at the same place
of the list, in some order, with the merge of what the runs held in them.
-/

namespace SmatchFormal.Ptrlist

open SmatchFormal.Lib List Function

variable {α : Type} {cmp : Option α → Option α → Int}

/-- What a merge is given: the list around the two runs, the blocks of the runs, what all blocks
hold, and what those of the runs are to hold. -/
structure MergeJob (α : Type) where
  front : List Addr
  back : List Addr
  blocks : List Addr
  lists : Addr → List (Option α)
  target : List (Option α)

def MergeJob.ofRuns (cmp : Option α → Option α → Int) (h : Heap α)
    (front back run1 run2 : List Addr) : MergeJob α where
  front := front
  back := back
  blocks := run1 ++ run2
  lists := h.entries
  target := List.merge (run1.flatMap h.entries) (run2.flatMap h.entries) (cmpLe cmp)

/-- The blocks of the runs are at their place again and hold what they are to hold. -/
def MergeJob.Finished (job : MergeJob α) (h : Heap α) (newhead : Addr) : Prop :=
  ∃ nodes, Circular h.next h.prev (job.front ++ nodes ++ job.back) ∧ nodes.Perm job.blocks ∧
    nodes.head? = some newhead ∧ nodes.flatMap h.entries = job.target ∧
    ∀ a, a ∉ job.blocks → h.entries a = job.lists a

/-- The blocks of the runs between two turns: those that are written, `b1` and what is left of the
first run, empty blocks, `b2` and what is left of the second run. -/
def Merging.nodes (s : Merging α) (written first gap second : List Addr) : List Addr :=
  written ++ s.b1 :: (first ++ (gap ++ s.b2 :: second))

def Merging.rest1 (s : Merging α) (first : List Addr) : List (Option α) :=
  (s.heap.entries s.b1).drop s.i1 ++ first.flatMap s.heap.entries

def Merging.rest2 (s : Merging α) (second : List Addr) : List (Option α) :=
  (s.heap.entries s.b2).drop s.i2 ++ second.flatMap s.heap.entries

/-- The invariant of the loop.  What is to be held is what the written blocks hold, then the buffer,
then the merge of the entries that were not taken; `left` of them are left. -/
structure Merging.Between (cmp : Option α → Option α → Int) (job : MergeJob α) (left : Nat)
    (s : Merging α) (written first gap second : List Addr) : Prop where
  circle : Circular s.heap.next s.heap.prev
    (job.front ++ s.nodes written first gap second ++ job.back)
  perm : (s.nodes written first gap second).Perm job.blocks
  count1 : s.n = first.length + 1
  count2 : s.m = second.length + 1
  place1 : s.i1 < (s.heap.entries s.b1).length
  place2 : s.i2 < (s.heap.entries s.b2).length
  empty : ∀ a ∈ gap, s.heap.entries a = []
  filled : s.buffer.length = s.i1 + s.i2
  newhead : (written ++ [s.b1]).head? = some s.newhead
  content : written.flatMap s.heap.entries ++
    (s.buffer ++ List.merge (s.rest1 first) (s.rest2 second) (cmpLe cmp)) = job.target
  kept : ∀ a, a ∉ job.blocks → s.heap.entries a = job.lists a
  remaining : (s.rest1 first).length + (s.rest2 second).length = left

/-- What a turn leads to: the invariant with `left` entries left, or the end. -/
def Turn.Reached (cmp : Option α → Option α → Int) (job : MergeJob α) (left : Nat) :
    Turn α → Prop
  | .again s => ∃ written first gap second, s.Between cmp job left written first gap second
  | .return heap newhead => job.Finished heap newhead

theorem push_some {buffer : List (Option α)} (room : buffer.length < 2 * listNodeNr)
    (d : Option α) : push buffer d = some (buffer ++ [d]) := if_pos room

/-- The entry at a place, and the entries from there on. -/
theorem exists_entry {list : List (Option α)} {i : Nat} (place : i < list.length) :
    ∃ d, list[i]? = some d ∧ list.drop i = d :: list.drop (i + 1) :=
  ⟨list[i], List.getElem?_eq_getElem place, drop_eq_getElem_cons place⟩

namespace Merging.Between

variable {job : MergeJob α} {left : Nat} {s : Merging α} {written first gap second : List Addr}
variable {block1 block2 : PtrList α} {d1 d2 : Option α}

section

variable (between : s.Between cmp job left written first gap second)
include between

theorem distinct :
    (s.nodes written first gap second).Nodup :=
  (nodup_append'.mp (nodup_append'.mp between.circle.distinct).1).2.1

theorem absent1 :
    s.b1 ∉ written ++ (first ++ (gap ++ s.b2 :: second)) :=
  (nodup_cons.mp (nodup_middle.mp between.distinct)).1

theorem absent2 :
    s.b2 ∉ (written ++ s.b1 :: (first ++ gap)) ++ second := by
  have distinct := between.distinct
  have shape : s.nodes written first gap second =
      (written ++ s.b1 :: (first ++ gap)) ++ s.b2 :: second := by
    rw [nodes, append_assoc, cons_append, append_assoc]
  rw [shape] at distinct
  exact (nodup_cons.mp (nodup_middle.mp distinct)).1

theorem inside1 : s.b1 ∈ job.blocks :=
  between.perm.subset (mem_append_right _ mem_cons_self)

theorem inside2 :
    s.b2 ∈ job.blocks := by
  refine between.perm.subset ?_
  simp only [nodes, mem_append, mem_cons]
  tauto

theorem room :
    s.buffer.length < 2 * listNodeNr := by
  have one := Nat.lt_of_lt_of_le between.place1 (s.heap.length_entries_le s.b1)
  have two := Nat.lt_of_lt_of_le between.place2 (s.heap.length_entries_le s.b2)
  rw [between.filled, Nat.two_mul]
  exact Nat.add_lt_add one two

end

section

variable (between : s.Between cmp job left written first gap second)
  (taken1 : (s.heap.entries s.b1).drop s.i1 = d1 :: (s.heap.entries s.b1).drop (s.i1 + 1))
  (taken2 : (s.heap.entries s.b2).drop s.i2 = d2 :: (s.heap.entries s.b2).drop (s.i2 + 1))
include between taken1 taken2

/-- The next entry of the first run is the next one of the merge. -/
theorem content_first (least : cmp d1 d2 ≤ 0) :
    written.flatMap s.heap.entries ++ (s.buffer ++ [d1] ++
      List.merge ((s.heap.entries s.b1).drop (s.i1 + 1) ++ first.flatMap s.heap.entries)
        (s.rest2 second) (cmpLe cmp)) = job.target := by
  have content := between.content
  have order : cmpLe cmp d1 d2 = true := decide_eq_true least
  rw [rest1, taken1, cons_append, rest2, taken2, cons_append, cons_merge_cons,
    if_pos order] at content
  rw [rest2, taken2, cons_append, append_assoc, singleton_append]
  exact content

/-- The next entry of the second run is the next one of the merge. -/
theorem content_second (least : ¬ cmp d1 d2 ≤ 0) :
    written.flatMap s.heap.entries ++ (s.buffer ++ [d2] ++
      List.merge (s.rest1 first)
        ((s.heap.entries s.b2).drop (s.i2 + 1) ++ second.flatMap s.heap.entries) (cmpLe cmp)) =
      job.target := by
  have content := between.content
  have order : ¬ cmpLe cmp d1 d2 = true := fun le => least (of_decide_eq_true le)
  rw [rest1, taken1, cons_append, rest2, taken2, cons_append, cons_merge_cons,
    if_neg order] at content
  rw [rest1, taken1, cons_append, append_assoc, singleton_append]
  exact content

end

theorem takeFirst_some (between : s.Between cmp job (left + 1) written first gap second)
    (nr : block1.nr = (s.heap.entries s.b1).length)
    (taken1 : (s.heap.entries s.b1).drop s.i1 = d1 :: (s.heap.entries s.b1).drop (s.i1 + 1))
    (taken2 : (s.heap.entries s.b2).drop s.i2 = d2 :: (s.heap.entries s.b2).drop (s.i2 + 1))
    (least : cmp d1 d2 ≤ 0) :
    ∃ turn, takeFirst s block1 d1 = some turn ∧ turn.Reached cmp job left := by
  have content := between.content_first taken1 taken2 least
  have remaining := between.remaining
  rw [rest1, taken1, cons_append, length_cons, Nat.succ_add] at remaining
  have remaining := Nat.succ.inj remaining
  have filled : (s.buffer ++ [d1]).length = s.i1 + 1 + s.i2 := by
    rw [length_append, length_singleton, between.filled]
    omega
  simp only [takeFirst, push_some between.room, nr, Option.bind_eq_bind, Option.bind_some]
  by_cases more : s.i1 + 1 < (s.heap.entries s.b1).length
  · rw [if_pos more]
    exact ⟨_, rfl, written, first, gap, second, ⟨between.circle, between.perm, between.count1,
      between.count2, more, between.place2, between.empty, filled, between.newhead, content,
      between.kept, remaining⟩⟩
  · have full : (s.heap.entries s.b1).length = s.i1 + 1 :=
      Nat.le_antisymm (Nat.not_lt.mp more) between.place1
    have none : (s.heap.entries s.b1).drop (s.i1 + 1) = [] :=
      drop_eq_nil_of_le (Nat.le_of_eq full)
    rw [none, nil_append] at content remaining
    have circle := between.circle
    have absent1 := between.absent1
    have absent2 := between.absent2
    simp only [nodes, append_assoc, cons_append] at circle
    simp only [mem_append, mem_cons, not_or] at absent1 absent2
    obtain ⟨d, used⟩ := Heap.live (job.front ++ written) (by simpa using circle)
    have enough : (s.heap.entries s.b1).length ≤ (s.buffer ++ [d1]).length := by
      rw [full, filled]
      exact Nat.le_add_right _ _
    obtain ⟨h₁, flushed, nexts, prevs, lists⟩ := flushTo_some _ used enough
    rw [full] at flushed lists
    have own : h₁.entries s.b1 = (s.buffer ++ [d1]).take (s.i1 + 1) := by
      rw [lists, update_self]
    have other : ∀ a, a ≠ s.b1 → h₁.entries a = s.heap.entries a := fun a apart => by
      rw [lists, update_of_ne apart]
    have restFilled : ((s.buffer ++ [d1]).drop (s.i1 + 1)).length = s.i2 := by
      rw [length_drop, filled, Nat.add_sub_cancel_left]
    rw [← nexts, ← prevs] at circle
    obtain ⟨passed, kept, c, split, empty, stop, place, advanced⟩ :=
      advance_some (job.front ++ written) first (gap ++ s.b2 :: (second ++ job.back))
        (by simpa using circle)
    have keptWritten := Heap.flatMap_update lists absent1.1
    have keptSecond := Heap.flatMap_update lists absent1.2.2.2.2
    have atB2 := other s.b2 fun same => absent1.2.2.2.1 same.symm
    rw [if_neg more, flushed]
    simp only [Option.bind_some, between.count1, advanced]
    cases kept with
    | nil =>
      rw [append_nil] at split
      have first₁ : first.flatMap h₁.entries = [] := flatMap_eq_nil_iff.mpr (split ▸ empty)
      have first₀ := Heap.flatMap_update lists absent1.2.1
      have gap₁ : ∀ a ∈ gap, h₁.entries a = [] := fun a member => by
        rw [other a fun same => absent1.2.2.1 (same ▸ member), between.empty a member]
      have start : (gap ++ [s.b2]).head? = some c := by
        rw [← place]
        cases gap <;> rfl
      have short : gap.length < h₁.blockFuel := by
        have bound := Holds.length_le (h := h₁) ⟨rfl, circle, rfl⟩
        simp only [length_append, length_cons] at bound
        rw [Heap.blockFuel]
        omega
      obtain ⟨h₂, drained, nexts₂, prevs₂, lists₂⟩ :=
        drain_some (job.front ++ (written ++ s.b1 :: first)) gap (second ++ job.back)
          ((s.buffer ++ [d1]).drop (s.i1 + 1)) (by simpa using circle) gap₁ start short
      rw [← nexts₂, ← prevs₂] at circle
      obtain ⟨e, used₂⟩ := Heap.live (a := s.b2)
        (job.front ++ (written ++ s.b1 :: (first ++ gap))) (by simpa using circle)
      have fits : ((s.buffer ++ [d1]).drop (s.i1 + 1)).length ≤ (h₂.entries s.b2).length := by
        rw [restFilled, lists₂, atB2]
        exact Nat.le_of_lt between.place2
      obtain ⟨h₃, dumped, nexts₃, prevs₃, lists₃⟩ := dumpTo_some used₂ fits
      rw [← nexts₃, ← prevs₃] at circle
      rw [restFilled, lists₂, atB2] at lists₃
      simp only [length_nil, if_pos, drained, dumped, Option.bind_some]
      refine ⟨_, rfl, s.nodes written first gap second, ?_, between.perm, ?_, ?_, ?_⟩
      · simpa [nodes] using circle
      · rw [← between.newhead, nodes]
        cases written <;> rfl
      · rw [← first₀, first₁, nil_merge, rest2] at content
        rw [nodes, flatMap_append, flatMap_cons, flatMap_append,
          flatMap_append, flatMap_cons, Heap.flatMap_update lists₃ (by tauto),
          Heap.flatMap_update lists₃ (by tauto), Heap.flatMap_update lists₃ (by tauto),
          Heap.flatMap_update lists₃ (by tauto), keptWritten, first₁, keptSecond,
          flatMap_eq_nil_iff.mpr gap₁, lists₃, update_self,
          update_of_ne (by tauto), own, ← content]
        conv_rhs => rw [← take_append_drop (s.i1 + 1) (s.buffer ++ [d1])]
        simp only [nil_append, append_assoc]
      · intro a outside
        have apart1 : a ≠ s.b1 := fun same => outside (same ▸ between.inside1)
        have apart2 : a ≠ s.b2 := fun same => outside (same ▸ between.inside2)
        rw [lists₃, update_of_ne apart2, other a apart1, between.kept a outside]
    | cons b kept =>
      simp only [length_cons, if_neg (Nat.succ_ne_zero _)]
      have atFirst : b = c := Option.some.inj place
      subst atFirst
      have apart : s.b1 ≠ b := fun same => absent1.2.1 (split ▸ by simp [same])
      have keptFirst := Heap.flatMap_update lists absent1.2.1
      have passed₁ : passed.flatMap h₁.entries = [] := flatMap_eq_nil_iff.mpr empty
      have rest1' : (h₁.entries b).drop 0 ++ kept.flatMap h₁.entries =
          first.flatMap s.heap.entries := by
        rw [← keptFirst, split, flatMap_append, passed₁, flatMap_cons, drop_zero,
          nil_append]
      have rest2' : (h₁.entries s.b2).drop s.i2 ++ second.flatMap h₁.entries = s.rest2 second := by
        rw [atB2, keptSecond, rest2]
      refine ⟨_, rfl, written ++ s.b1 :: passed, kept, gap, second,
        ⟨?_, ?_, rfl, between.count2, ?_, ?_, ?_, ?_, ?_, ?_, ?_, ?_⟩⟩
      · rw [split] at circle
        simpa [nodes] using circle
      · have perm := between.perm
        rw [split] at perm
        simpa [nodes] using perm
      · exact length_pos_iff.mpr (stop b rfl)
      · show s.i2 < (h₁.entries s.b2).length
        rw [atB2]
        exact between.place2
      · intro a member
        rw [other a fun same => absent1.2.2.1 (same ▸ member), between.empty a member]
      · rw [restFilled, Nat.zero_add]
      · rw [← between.newhead]
        cases written <;> rfl
      · show (written ++ s.b1 :: passed).flatMap h₁.entries ++ (_ ++ List.merge
          ((h₁.entries b).drop 0 ++ kept.flatMap h₁.entries)
          ((h₁.entries s.b2).drop s.i2 ++ second.flatMap h₁.entries) (cmpLe cmp)) = job.target
        rw [rest1', rest2', flatMap_append, flatMap_cons, keptWritten, own, passed₁,
          append_nil, ← content]
        conv_rhs => rw [← take_append_drop (s.i1 + 1) (s.buffer ++ [d1])]
        simp only [append_assoc]
      · intro a outside
        rw [other a fun same => outside (same ▸ between.inside1), between.kept a outside]
      · show ((h₁.entries b).drop 0 ++ kept.flatMap h₁.entries).length +
          ((h₁.entries s.b2).drop s.i2 ++ second.flatMap h₁.entries).length = left
        rw [rest1', rest2']
        exact remaining

/-- The head of the merged list after a block of the second run went before the first. -/
theorem newhead_moved (between : s.Between cmp job left written first gap second) :
    (written ++ [s.b2]).head? = some (if s.b1 = s.newhead then s.b2 else s.newhead) := by
  have newhead := between.newhead
  have absent := between.absent1
  cases written with
  | nil =>
    rw [if_pos (Option.some.inj newhead)]
    rfl
  | cons a written =>
    have same : a = s.newhead := Option.some.inj newhead
    rw [if_neg fun own => absent (mem_append_left _ (by simp [own, same]))]
    exact newhead

theorem takeSecond_some (between : s.Between cmp job (left + 1) written first gap second)
    (nr : block2.nr = (s.heap.entries s.b2).length)
    (taken1 : (s.heap.entries s.b1).drop s.i1 = d1 :: (s.heap.entries s.b1).drop (s.i1 + 1))
    (taken2 : (s.heap.entries s.b2).drop s.i2 = d2 :: (s.heap.entries s.b2).drop (s.i2 + 1))
    (least : ¬ cmp d1 d2 ≤ 0) :
    ∃ turn, takeSecond s block2 d2 = some turn ∧ turn.Reached cmp job left := by
  have content := between.content_second taken1 taken2 least
  have remaining := between.remaining
  rw [rest2, taken2, cons_append, length_cons, ← Nat.add_assoc] at remaining
  have remaining := Nat.succ.inj remaining
  have filled : (s.buffer ++ [d2]).length = s.i2 + 1 + s.i1 := by
    rw [length_append, length_singleton, between.filled]
    omega
  simp only [takeSecond, push_some between.room, nr, Option.bind_eq_bind, Option.bind_some]
  by_cases more : s.i2 + 1 < (s.heap.entries s.b2).length
  · rw [if_pos more]
    have filled : (s.buffer ++ [d2]).length = s.i1 + (s.i2 + 1) := by
      rw [filled, Nat.add_comm]
    exact ⟨_, rfl, written, first, gap, second, ⟨between.circle, between.perm, between.count1,
      between.count2, between.place1, more, between.empty, filled, between.newhead, content,
      between.kept, remaining⟩⟩
  · have full : (s.heap.entries s.b2).length = s.i2 + 1 :=
      Nat.le_antisymm (Nat.not_lt.mp more) between.place2
    have none : (s.heap.entries s.b2).drop (s.i2 + 1) = [] :=
      drop_eq_nil_of_le (Nat.le_of_eq full)
    rw [none, nil_append] at content remaining
    have circle := between.circle
    have perm := between.perm
    have absent1 := between.absent1
    have absent2 := between.absent2
    simp only [nodes, append_assoc, cons_append] at circle perm
    simp only [mem_append, mem_cons, not_or] at absent1 absent2
    obtain ⟨h₁, b2, pulled, start, circle, lists₁⟩ :=
      pullOut_some (l := s.b2) (job.front ++ written) (first ++ gap) (second ++ job.back)
        (by simpa using circle)
    obtain ⟨d, used⟩ := Heap.live _ circle
    have enough : (h₁.entries s.b2).length ≤ (s.buffer ++ [d2]).length := by
      rw [lists₁, full, filled]
      exact Nat.le_add_right _ _
    obtain ⟨h₂, flushed, nexts, prevs, lists⟩ := flushTo_some _ used enough
    rw [lists₁, full] at flushed lists
    have own : h₂.entries s.b2 = (s.buffer ++ [d2]).take (s.i2 + 1) := by
      rw [lists, update_self]
    have other : ∀ a, a ≠ s.b2 → h₂.entries a = s.heap.entries a := fun a apart => by
      rw [lists, update_of_ne apart]
    have restFilled : ((s.buffer ++ [d2]).drop (s.i2 + 1)).length = s.i1 := by
      rw [length_drop, filled, Nat.add_sub_cancel_left]
    rw [← nexts, ← prevs] at circle
    obtain ⟨p, passed, kept, c, before, split, empty, stop, advanced⟩ :=
      advance_after_pullOut circle start
    have keptWritten := Heap.flatMap_update lists absent2.1.1
    have keptFirst := Heap.flatMap_update lists absent2.1.2.2.1
    have keptSecond := Heap.flatMap_update lists absent2.2
    have atB1 := other s.b1 fun same => absent1.2.2.2.1 same
    have gap₂ : ∀ a ∈ gap, h₂.entries a = [] := fun a member => by
      rw [other a fun same => absent2.1.2.2.2 (same ▸ member), between.empty a member]
    have moved : ((written ++ s.b2 :: s.b1 :: (first ++ (gap ++ second)))).Perm job.blocks := by
      refine List.Perm.trans (List.Perm.append_left _ ?_) perm
      have shape : s.b1 :: (first ++ (gap ++ s.b2 :: second)) =
          (s.b1 :: (first ++ gap)) ++ s.b2 :: second := by simp
      rw [shape]
      exact (perm_middle.trans (by simp)).symm
    rw [if_neg more, pulled]
    simp only [Option.bind_some, flushed, before, between.count2, advanced]
    cases kept with
    | nil =>
      rw [append_nil] at split
      have second₂ : second.flatMap h₂.entries = [] :=
        flatMap_eq_nil_iff.mpr (split ▸ empty)
      obtain ⟨e, used₂⟩ := Heap.live (a := s.b1) (job.front ++ (written ++ [s.b2]))
        (by simpa using circle)
      have fits : ((s.buffer ++ [d2]).drop (s.i2 + 1)).length ≤ (h₂.entries s.b1).length := by
        rw [restFilled, atB1]
        exact Nat.le_of_lt between.place1
      obtain ⟨h₃, dumped, nexts₃, prevs₃, lists₃⟩ := dumpTo_some used₂ fits
      rw [← nexts₃, ← prevs₃] at circle
      rw [restFilled, atB1] at lists₃
      simp only [length_nil, if_pos, dumped, Option.bind_some]
      refine ⟨_, rfl, written ++ s.b2 :: s.b1 :: (first ++ (gap ++ second)), ?_, moved, ?_, ?_,
        ?_⟩
      · simpa using circle
      · rw [← between.newhead_moved]
        cases written <;> rfl
      · rw [← keptSecond, second₂, merge_right, rest1] at content
        rw [flatMap_append, flatMap_cons, flatMap_cons, flatMap_append,
          flatMap_append, Heap.flatMap_update lists₃ (by tauto),
          Heap.flatMap_update lists₃ (by tauto), Heap.flatMap_update lists₃ (by tauto),
          Heap.flatMap_update lists₃ (by tauto), keptWritten, keptFirst, second₂,
          flatMap_eq_nil_iff.mpr gap₂, lists₃, update_self,
          update_of_ne (by tauto), own, ← content]
        conv_rhs => rw [← take_append_drop (s.i2 + 1) (s.buffer ++ [d2])]
        simp only [append_nil, append_assoc]
      · intro a outside
        have apart1 : a ≠ s.b1 := fun same => outside (same ▸ between.inside1)
        have apart2 : a ≠ s.b2 := fun same => outside (same ▸ between.inside2)
        rw [lists₃, update_of_ne apart1, other a apart2, between.kept a outside]
    | cons b kept =>
      simp only [length_cons, if_neg (Nat.succ_ne_zero _)]
      obtain ⟨used₂, atFirst⟩ := stop b rfl
      subst atFirst
      have passed₂ : passed.flatMap h₂.entries = [] := flatMap_eq_nil_iff.mpr empty
      have rest1' : (h₂.entries s.b1).drop s.i1 ++ first.flatMap h₂.entries = s.rest1 first := by
        rw [atB1, keptFirst, rest1]
      have rest2' : (h₂.entries b).drop 0 ++ kept.flatMap h₂.entries =
          second.flatMap s.heap.entries := by
        rw [← keptSecond, split, flatMap_append, passed₂, flatMap_cons, drop_zero,
          nil_append]
      refine ⟨_, rfl, written ++ [s.b2], first, gap ++ passed, kept,
        ⟨?_, ?_, between.count1, rfl, ?_, ?_, ?_, ?_, ?_, ?_, ?_, ?_⟩⟩
      · rw [split] at circle
        simpa [nodes] using circle
      · rw [split] at moved
        simpa [nodes] using moved
      · show s.i1 < (h₂.entries s.b1).length
        rw [atB1]
        exact between.place1
      · exact length_pos_iff.mpr used₂
      · intro a member
        rcases mem_append.mp member with member | member
        · exact gap₂ a member
        · exact empty a member
      · rw [restFilled, Nat.add_zero]
      · rw [← between.newhead_moved]
        cases written <;> rfl
      · show (written ++ [s.b2]).flatMap h₂.entries ++ (_ ++ List.merge
          ((h₂.entries s.b1).drop s.i1 ++ first.flatMap h₂.entries)
          ((h₂.entries b).drop 0 ++ kept.flatMap h₂.entries) (cmpLe cmp)) = job.target
        rw [rest1', rest2', flatMap_append, flatMap_singleton, keptWritten, own,
          ← content]
        conv_rhs => rw [← take_append_drop (s.i2 + 1) (s.buffer ++ [d2])]
        simp only [append_assoc]
      · intro a outside
        rw [other a fun same => outside (same ▸ between.inside2), between.kept a outside]
      · show ((h₂.entries s.b1).drop s.i1 ++ first.flatMap h₂.entries).length +
          ((h₂.entries b).drop 0 ++ kept.flatMap h₂.entries).length = left
        rw [rest1', rest2']
        exact remaining

section

variable (between : s.Between cmp job left written first gap second)
include between

theorem turn_some :
    ∃ turn rest, left = rest + 1 ∧ mergeTurn cmp s = some turn ∧ turn.Reached cmp job rest := by
  have circle := between.circle
  simp only [nodes, append_assoc, cons_append] at circle
  obtain ⟨block1, held1, listed1, -⟩ :=
    Heap.read (job.front ++ written) (a := s.b1) (by simpa using circle)
  obtain ⟨block2, held2, listed2, -⟩ :=
    Heap.read (job.front ++ (written ++ s.b1 :: (first ++ gap))) (a := s.b2)
      (by simpa using circle)
  obtain ⟨d1, found1, taken1⟩ := exists_entry between.place1
  obtain ⟨d2, found2, taken2⟩ := exists_entry between.place2
  rw [← listed1] at found1
  rw [← listed2] at found2
  obtain ⟨rest, count⟩ : ∃ rest, left = rest + 1 := by
    have remaining := between.remaining
    rw [rest1, taken1, cons_append, length_cons, Nat.succ_add] at remaining
    exact ⟨_, remaining.symm⟩
  subst count
  simp only [mergeTurn, held1, held2, found1, found2, Option.bind_eq_bind, Option.bind_some]
  by_cases least : cmp d1 d2 ≤ 0
  · rw [if_pos least]
    obtain ⟨turn, done, reached⟩ :=
      between.takeFirst_some (congrArg List.length listed1) taken1 taken2 least
    exact ⟨turn, rest, rfl, done, reached⟩
  · rw [if_neg least]
    obtain ⟨turn, done, reached⟩ :=
      between.takeSecond_some (congrArg List.length listed2) taken1 taken2 least
    exact ⟨turn, rest, rfl, done, reached⟩

theorem left_lt :
    left < s.heap.entryFuel := by
  have bound := Holds.entryFuel (h := s.heap) ⟨rfl, between.circle, rfl⟩
  have remaining := between.remaining
  simp only [rest1, rest2, length_append, length_drop] at remaining
  simp only [nodes, flatMap_append, flatMap_cons, length_append, length_cons]
    at bound
  omega

/-- The loop ends with the blocks of the runs holding what they are to hold. -/
theorem loop_some {fuel : Nat} (enough : left < fuel) :
    ∃ h newhead, mergeLoop cmp fuel s = some (h, newhead) ∧ job.Finished h newhead := by
  induction fuel generalizing s left written first gap second with
  | zero => exact absurd enough (Nat.not_lt_zero _)
  | succ fuel ih =>
    obtain ⟨turn, rest, rfl, done, reached⟩ := between.turn_some
    cases turn with
    | again s' =>
      obtain ⟨written', first', gap', second', between'⟩ := reached
      obtain ⟨h, newhead, looped, finished⟩ := ih between' (Nat.lt_of_succ_lt_succ enough)
      refine ⟨h, newhead, ?_, finished⟩
      simp only [mergeLoop, done, looped, Option.bind_eq_bind, Option.bind_some]
    | «return» heap newhead =>
      refine ⟨heap, newhead, ?_, reached⟩
      simp only [mergeLoop, done, Option.bind_eq_bind, Option.bind_some]

end

end Merging.Between

/-! ## Two runs -/

variable {h : Heap α} {front back run1 run2 passed kept : List Addr} {b1 b2 : Addr}
variable {first : Option α}

/-- Blocks that are skipped at the start hold nothing above the first entry of the second run. -/
theorem below_le (order : TotalPreorder (cmpLe cmp))
    (ordered : Ordered (cmpLe cmp) ((passed ++ kept).flatMap h.entries))
    (skipped : ∀ a ∈ passed, below cmp first (h.entries a) = true) :
    ∀ d ∈ passed.flatMap h.entries, cmpLe cmp d first := by
  intro d member
  obtain ⟨a, inside, member⟩ := mem_flatMap.mp member
  have under := skipped a inside
  have part : Ordered (cmpLe cmp) (h.entries a) := by
    refine ordered.sublist ?_
    obtain ⟨init, rest, rfl⟩ := append_of_mem inside
    rw [append_assoc, flatMap_append, cons_append, flatMap_cons]
    exact (sublist_append_left _ _).trans (sublist_append_right _ _)
  rcases eq_nil_or_concat (h.entries a) with none | ⟨init, last, listed⟩
  · rw [none] at member
    exact absurd member not_mem_nil
  · rw [concat_eq_append] at listed
    rw [listed] at member under part
    rw [below, List.getLast?_concat, Option.all_some, decide_eq_true_iff] at under
    exact Ordered.le_of_last order part (decide_eq_true (Int.le_of_lt under)) d member

/-- The invariant holds where the blocks at the start were skipped. -/
theorem Merging.Between.start {passed1 kept1 passed2 kept2 : List Addr} {a b : Addr}
    (circle : Circular h.next h.prev (front ++ (b1 :: run1 ++ b2 :: run2) ++ back))
    (split1 : b1 :: run1 = passed1 ++ a :: kept1) (split2 : b2 :: run2 = passed2 ++ b :: kept2)
    (empty : ∀ c ∈ passed2, h.entries c = []) (filled1 : h.entries a ≠ [])
    (filled2 : h.entries b ≠ [])
    (merged : (MergeJob.ofRuns cmp h front back (b1 :: run1) (b2 :: run2)).target =
      passed1.flatMap h.entries ++ List.merge ((a :: kept1).flatMap h.entries)
        ((b2 :: run2).flatMap h.entries) (cmpLe cmp)) :
    Merging.Between cmp (MergeJob.ofRuns cmp h front back (b1 :: run1) (b2 :: run2))
      (((a :: kept1).flatMap h.entries).length + ((b :: kept2).flatMap h.entries).length)
      ⟨h, a, kept1.length + 1, 0, b, kept2.length + 1, 0, [], b1⟩ passed1 kept1 passed2 kept2 where
  circle := by
    rw [split1, split2] at circle
    simpa [nodes, MergeJob.ofRuns] using circle
  perm := by
    rw [MergeJob.ofRuns, split1, split2]
    simp [nodes]
  count1 := rfl
  count2 := rfl
  place1 := length_pos_iff.mpr filled1
  place2 := length_pos_iff.mpr filled2
  empty := empty
  filled := rfl
  newhead := by
    have head := congrArg List.head? split1
    cases passed1 <;> exact head.symm
  content := by
    have nothing : passed2.flatMap h.entries = [] := flatMap_eq_nil_iff.mpr empty
    rw [merged, split2, flatMap_append, nothing]
    rfl
  kept := fun _ _ => rfl
  remaining := rfl

theorem mergeBlockSeqs_some (order : TotalPreorder (cmpLe cmp))
    (circle : Circular h.next h.prev (front ++ (b1 :: run1 ++ b2 :: run2) ++ back))
    (ordered : Ordered (cmpLe cmp) ((b1 :: run1).flatMap h.entries)) :
    ∃ h' newhead, mergeBlockSeqs cmp h b1 (run1.length + 1) b2 (run2.length + 1) =
        some (h', newhead) ∧
      (MergeJob.ofRuns cmp h front back (b1 :: run1) (b2 :: run2)).Finished h' newhead := by
  have unchanged : (MergeJob.ofRuns cmp h front back (b1 :: run1) (b2 :: run2)).target =
      (b1 :: run1 ++ b2 :: run2).flatMap h.entries →
      (MergeJob.ofRuns cmp h front back (b1 :: run1) (b2 :: run2)).Finished h b1 := fun same =>
    ⟨b1 :: run1 ++ b2 :: run2, circle, .refl _, rfl, same.symm, fun _ _ => rfl⟩
  obtain ⟨passed2, kept2, c2, split2, empty2, stop2, place2, skipped2⟩ :=
    skipBlocks_some (b := b2) (h := h) List.isEmpty (front ++ b1 :: run1) run2 back
      (by simpa using circle)
  have nothing2 : passed2.flatMap h.entries = [] :=
    flatMap_eq_nil_iff.mpr fun a member => List.isEmpty_iff.mp (empty2 a member)
  simp only [mergeBlockSeqs, skipped2, Option.bind_eq_bind, Option.bind_some]
  cases kept2 with
  | nil =>
    rw [append_nil] at split2
    rw [length_nil, if_pos rfl]
    refine ⟨h, b1, rfl, unchanged ?_⟩
    rw [MergeJob.ofRuns, flatMap_append, split2, nothing2, merge_right,
      append_nil]
  | cons b kept2 =>
    have atFirst : b = c2 := Option.some.inj place2
    subst atFirst
    have filled2 : h.entries b ≠ [] := isEmpty_eq_false_iff.mp (stop2 b rfl)
    obtain ⟨first, tail, listed⟩ := exists_cons_of_ne_nil filled2
    obtain ⟨passed1, kept1, c1, split1, below1, stop1, place1, skipped1⟩ :=
      skipBlocks_some (b := b1) (h := h) (below cmp first) front run1 (b2 :: run2 ++ back)
        (by simpa using circle)
    have nodes : b1 :: run1 ++ b2 :: run2 =
        passed1 ++ kept1 ++ (passed2 ++ b :: kept2) := by rw [split1, split2]
    obtain ⟨block2, held, listing, -⟩ :=
      Heap.read (h := h) (a := b) (front ++ (passed1 ++ kept1 ++ passed2))
        (by rw [nodes] at circle; simpa using circle)
    have found : block2.list[0]? = some first := by rw [listing, listed]; rfl
    rw [length_cons, if_neg (Nat.succ_ne_zero _)]
    simp only [held, found, skipped1, Option.bind_some]
    have second : (b2 :: run2).flatMap h.entries = first :: (tail ++ kept2.flatMap h.entries) := by
      rw [split2, flatMap_append, nothing2, flatMap_cons, listed, nil_append,
        cons_append]
    rw [split1] at ordered
    have ahead := below_le order ordered below1
    have merged : (MergeJob.ofRuns cmp h front back (b1 :: run1) (b2 :: run2)).target =
      passed1.flatMap h.entries ++ List.merge (kept1.flatMap h.entries)
          ((b2 :: run2).flatMap h.entries) (cmpLe cmp) := by
      rw [MergeJob.ofRuns, second, split1, flatMap_append]
      exact merge_append_left _ ahead
    cases kept1 with
    | nil =>
      rw [length_nil, if_pos rfl]
      refine ⟨h, b1, rfl, unchanged ?_⟩
      rw [merged, flatMap_nil, nil_merge, flatMap_append, split1,
        append_nil]
    | cons a kept1 =>
      have atFirst : a = c1 := Option.some.inj place1
      subst atFirst
      have filled1 : h.entries a ≠ [] := fun none => by
        have stop := stop1 a rfl
        rw [none] at stop
        exact Bool.false_ne_true stop.symm
      rw [length_cons, if_neg (Nat.succ_ne_zero _)]
      have start := Merging.Between.start circle split1 split2
        (fun c member => List.isEmpty_iff.mp (empty2 c member)) filled1 filled2 merged
      exact start.loop_some start.left_lt

end SmatchFormal.Ptrlist
