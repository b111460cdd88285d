import SmatchFormal.Ptrlist.SortBlock

/-!
# The steps of a merge

What the parts of `merge_block_seqs` do to the blocks of a list: writing the buffer, walking over a
run, and moving a block of the second run to before the first.
-/

namespace SmatchFormal.Ptrlist

open SmatchFormal.Lib List Function

variable {α : Type} {h h' : Heap α} {front back pre mid post run part : List Addr}
variable {a b b1 b2 l head newhead : Addr} {buffer list target : List (Option α)}

namespace Heap

theorem live (front : List Addr) (circle : Circular h.next h.prev (front ++ a :: back)) :
    ∃ b, h.next a = some b :=
  Holds.live ⟨rfl, circle, rfl⟩ (mem_append_right _ mem_cons_self)

theorem read (front : List Addr) (circle : Circular h.next h.prev (front ++ a :: back)) :
    ∃ block, h.block a = some block ∧ block.list = h.entries a ∧
      (back ++ front ++ [a]).head? = some block.next := by
  have holds : Holds h _ (front ++ a :: back) _ := ⟨rfl, circle, rfl⟩
  obtain ⟨block, held, listed, after, -⟩ := holds.read
  exact ⟨block, held, listed.symm, after⟩

/-- Writing a block that is not in a part of the list leaves the part. -/
theorem flatMap_update (lists : h'.entries = Function.update h.entries a list)
    (absent : a ∉ part) : part.flatMap h'.entries = part.flatMap h.entries := by
  refine flatMap_congr fun b member => ?_
  have other : b ≠ a := fun same => absent (same ▸ member)
  rw [lists, update_of_ne other]

end Heap

theorem flushTo_some (buffer : List (Option α)) (used : h.next a = some b)
    (enough : (h.entries a).length ≤ buffer.length) :
    ∃ h', flushTo h a buffer = some (h', buffer.drop (h.entries a).length) ∧ h'.next = h.next ∧
      h'.prev = h.prev ∧
      h'.entries = Function.update h.entries a (buffer.take (h.entries a).length) := by
  obtain ⟨block, held, -, -, listed⟩ := Heap.exists_block used
  have bound : (buffer.take (h.entries a).length).length ≤ listNodeNr :=
    (length_take_le _ _).trans (h.length_entries_le a)
  obtain ⟨h', written, view⟩ := Heap.setList_view used bound
  refine ⟨h', ?_, view⟩
  have nr : block.nr = (h.entries a).length := congrArg List.length listed.symm
  simp only [flushTo, held, nr, if_neg (Nat.not_lt.mpr enough), written, Option.bind_eq_bind,
    Option.bind_some]

theorem dumpTo_some (used : h.next a = some b) (room : buffer.length ≤ (h.entries a).length) :
    ∃ h', dumpTo h a buffer = some h' ∧ h'.next = h.next ∧ h'.prev = h.prev ∧
      h'.entries =
        Function.update h.entries a (buffer ++ (h.entries a).drop buffer.length) := by
  obtain ⟨block, held, -, -, listed⟩ := Heap.exists_block used
  have bound : (buffer ++ (h.entries a).drop buffer.length).length ≤ listNodeNr := by
    rw [length_append, length_drop, Nat.add_sub_cancel' room]
    exact h.length_entries_le a
  obtain ⟨h', written, view⟩ := Heap.setList_view used bound
  refine ⟨h', ?_, view⟩
  have nr : block.nr = (h.entries a).length := congrArg List.length listed.symm
  simp only [dumpTo, held, nr, if_neg (Nat.not_lt.mpr room), ← listed, written,
    Option.bind_eq_bind, Option.bind_some]

/-- The blocks of a run that are `low` are passed, up to the first that is not. -/
theorem skipBlocks_some (low : List (Option α) → Bool) (pre run post : List Addr)
    (circle : Circular h.next h.prev (pre ++ b :: (run ++ post))) :
    ∃ passed kept c, b :: run = passed ++ kept ∧ (∀ a ∈ passed, low (h.entries a) = true) ∧
      (∀ a ∈ kept.head?, low (h.entries a) = false) ∧
      (kept ++ post ++ pre ++ b :: run).head? = some c ∧
      skipBlocks h low (run.length + 1) b = some (c, kept.length) := by
  induction run generalizing b pre with
  | nil =>
    obtain ⟨block, held, listed, after⟩ := Heap.read pre circle
    cases passing : low (h.entries b) with
    | true =>
      refine ⟨[b], [], block.next, rfl, by simpa using passing, by simp, after, ?_⟩
      rw [length_nil, skipBlocks, held, Option.bind_eq_bind, Option.bind_some, listed,
        if_pos passing, if_pos rfl]
    | false =>
      refine ⟨[], [b], b, rfl, by simp, by simpa using passing, rfl, ?_⟩
      rw [length_nil, skipBlocks, held, Option.bind_eq_bind, Option.bind_some, listed,
        if_neg (by rw [passing]; exact Bool.false_ne_true)]
      rfl
  | cons c run ih =>
    obtain ⟨block, held, listed, after⟩ := Heap.read pre circle
    have next : c = block.next := Option.some.inj after
    cases passing : low (h.entries b) with
    | true =>
      rw [append_cons] at circle
      obtain ⟨passed, kept, d, split, all, stop, place, done⟩ := ih _ circle
      refine ⟨b :: passed, kept, d, ?_, ?_, stop, ?_, ?_⟩
      · rw [split, cons_append]
      · exact forall_mem_cons.mpr ⟨passing, all⟩
      · simpa using place
      · rw [length_cons, skipBlocks, held, Option.bind_eq_bind, Option.bind_some, listed,
          if_pos passing, if_neg (Nat.succ_ne_zero _), ← next]
        exact done
    | false =>
      refine ⟨[], b :: c :: run, b, rfl, by simp, by simpa using passing, rfl, ?_⟩
      rw [length_cons, skipBlocks, held, Option.bind_eq_bind, Option.bind_some, listed,
        if_neg (by rw [passing]; exact Bool.false_ne_true)]
      rfl

/-- The empty blocks of a run after a block are passed, up to the first that is not. -/
theorem advance_some (pre run post : List Addr)
    (circle : Circular h.next h.prev (pre ++ b :: (run ++ post))) :
    ∃ passed kept c, run = passed ++ kept ∧ (∀ a ∈ passed, h.entries a = []) ∧
      (∀ a ∈ kept.head?, h.entries a ≠ []) ∧ (kept ++ post ++ pre ++ b :: run).head? = some c ∧
      advance h (run.length + 1) b = some (c, kept.length) := by
  obtain ⟨block, held, -, after⟩ := Heap.read pre circle
  cases run with
  | nil =>
    refine ⟨[], [], block.next, rfl, by simp, by simp, after, ?_⟩
    rw [length_nil, advance, held, Option.bind_eq_bind, Option.bind_some, if_pos rfl]
  | cons c run =>
    have next : c = block.next := Option.some.inj after
    rw [append_cons] at circle
    obtain ⟨passed, kept, d, split, all, stop, place, done⟩ :=
      skipBlocks_some List.isEmpty _ _ _ circle
    refine ⟨passed, kept, d, split, ?_, ?_, by simpa using place, ?_⟩
    · exact fun a member => List.isEmpty_iff.mp (all a member)
    · exact fun a member => isEmpty_eq_false_iff.mp (stop a member)
    · rw [length_cons, advance, held, Option.bind_eq_bind, Option.bind_some,
        if_neg (Nat.succ_ne_zero _), ← next]
      exact done

/-- The walk that ends the first run leaves the empty blocks that it passes. -/
theorem drain_some (pre part post : List Addr) (buffer : List (Option α))
    (circle : Circular h.next h.prev (pre ++ (part ++ b2 :: post)))
    (empty : ∀ a ∈ part, h.entries a = []) (first : (part ++ [b2]).head? = some b) {fuel : Nat}
    (enough : part.length < fuel) :
    ∃ h', drain b2 fuel h b buffer = some (h', buffer) ∧ h'.next = h.next ∧ h'.prev = h.prev ∧
      h'.entries = h.entries := by
  induction part generalizing h b pre fuel with
  | nil =>
    obtain ⟨fuel, rfl⟩ := Nat.exists_eq_succ_of_ne_zero (Nat.ne_of_gt enough)
    have same : b2 = b := Option.some.inj first
    exact ⟨h, by rw [drain, if_pos same.symm], rfl, rfl, rfl⟩
  | cons c part ih =>
    obtain ⟨fuel, rfl⟩ := Nat.exists_eq_succ_of_ne_zero (Nat.ne_of_gt (Nat.zero_lt_of_lt enough))
    have same : c = b := Option.some.inj first
    subst same
    have away : c ≠ b2 := by
      have distinct := (nodup_append'.mp circle.distinct).2.1
      rintro rfl
      exact (nodup_cons.mp distinct).1 (mem_append_right _ mem_cons_self)
    obtain ⟨none, empty⟩ := forall_mem_cons.mp empty
    obtain ⟨d, used⟩ := Heap.live pre circle
    obtain ⟨h₁, flushed, nexts, prevs, lists⟩ :=
      flushTo_some buffer used (none ▸ Nat.zero_le _)
    rw [none, length_nil, take_zero, ← none, update_eq_self] at lists
    rw [none, length_nil, drop_zero] at flushed
    rw [← nexts, ← prevs] at circle
    obtain ⟨block, held, -, after⟩ := Heap.read pre circle
    have next : (part ++ [b2]).head? = some block.next := by
      cases part <;> exact after
    rw [cons_append, append_cons pre c] at circle
    obtain ⟨h', drained, nexts', prevs', lists'⟩ :=
      ih _ circle (lists ▸ empty) next (Nat.lt_of_succ_lt_succ enough)
    refine ⟨h', ?_, nexts'.trans nexts, prevs'.trans prevs, lists'.trans lists⟩
    simp only [drain, if_neg away, flushed, held, drained, Option.bind_eq_bind, Option.bind_some]

theorem unplug_some (circle : Circular h.next h.prev (front ++ l :: back))
    (several : front ++ back ≠ []) :
    ∃ b2 p h₁ h₂, h.next l = some b2 ∧ h.prev l = some p ∧ h.setPrev b2 p = some h₁ ∧
      h₁.prev b2 = some p ∧ h₁.setNext p b2 = some h₂ ∧ (back ++ front).head? = some b2 ∧
      Circular h₂.next h₂.prev (front ++ back) ∧ h₂.entries = h.entries ∧
        ∃ c, h₂.next l = some c := by
  have after := circle.next_eq
  have before := circle.prev_eq
  have swapped : back ++ front ≠ [] := fun none => several (by simpa [and_comm] using none)
  have absent : l ∉ front ++ back :=
    (nodup_cons.mp (nodup_middle.mp circle.distinct)).1
  have live : ∀ c ∈ back ++ front, ∃ d, h.next c = some d := fun c member => by
    refine Holds.live ⟨rfl, circle, rfl⟩ ?_
    simp only [mem_append, mem_cons] at member ⊢
    tauto
  obtain ⟨init, p, ending⟩ := (eq_nil_or_concat (back ++ front)).resolve_left swapped
  obtain ⟨b2, rest, start⟩ := exists_cons_of_ne_nil swapped
  rw [concat_eq_append] at ending
  rw [ending, ← cons_append, List.getLast?_concat] at before
  rw [start, cons_append, List.head?_cons] at after
  have first : b2 ∈ back ++ front := start ▸ mem_cons_self
  have last : p ∈ back ++ front := ending ▸ mem_append_right _ mem_cons_self
  obtain ⟨d, used⟩ := live b2 first
  obtain ⟨h₁, done₁, nexts₁, prevs₁, lists₁⟩ := Heap.setPrev_view used p
  obtain ⟨d, used⟩ := live p last
  rw [← nexts₁] at used
  obtain ⟨h₂, done₂, nexts₂, prevs₂, lists₂⟩ := Heap.setNext_view used b2
  have other : l ≠ p := by
    rintro rfl
    exact absent (mem_append.mpr (mem_append.mp last).symm)
  have set : h₁.prev b2 = some p := by rw [prevs₁, update_self]
  refine ⟨b2, p, h₁, h₂, after, before, done₁, set, done₂, by rw [start, List.head?_cons], ?_,
    lists₂.trans lists₁, b2, ?_⟩
  · refine circle.remove several before after ?_ ?_ (fun c _ apart => ?_) (fun c _ apart => ?_)
    · rw [nexts₂, update_self]
    · rw [prevs₂, set]
    · rw [nexts₂, update_of_ne apart, nexts₁]
    · rw [prevs₂, prevs₁, update_of_ne apart]
  · rw [nexts₂, update_of_ne other, nexts₁, after]

/-- A block that is not in a circle is plugged in before `b1`. -/
theorem plug_some (circle : Circular h.next h.prev (front ++ b1 :: back))
    (fresh : l ∉ front ++ b1 :: back) (used : h.next l = some a) :
    ∃ q h₁ h₂ h₃ h₄, h.setNext l b1 = some h₁ ∧ h₁.prev b1 = some q ∧ h₁.setPrev l q = some h₂ ∧
      h₂.next l = some b1 ∧ h₂.setPrev b1 l = some h₃ ∧ h₃.prev l = some q ∧
      h₃.setNext q l = some h₄ ∧ Circular h₄.next h₄.prev (front ++ l :: b1 :: back) ∧
      h₄.entries = h.entries := by
  have turned : Circular h.next h.prev (b1 :: (back ++ front)) := circle.rotate
  obtain ⟨init, q, ending⟩ :=
    (eq_nil_or_concat (b1 :: (back ++ front))).resolve_left (cons_ne_nil _ _)
  rw [concat_eq_append] at ending
  have same : ∀ c, c ∈ init ++ [q] ↔ c ∈ front ++ b1 :: back := fun c => by
    rw [← ending]
    simp only [mem_cons, mem_append]
    tauto
  have outside : l ∉ init ++ [q] := fun member => fresh ((same l).mp member)
  have away : ∀ c ∈ init ++ [q], c ≠ l := fun c member equal => outside (equal ▸ member)
  have atFirst : b1 ∈ init ++ [q] := ending ▸ mem_cons_self
  have atLast : q ∈ init ++ [q] := mem_append_right _ mem_cons_self
  rw [ending] at turned
  have behind : h.prev b1 = some q := by
    rw [circle.prev_eq, ending, List.getLast?_concat]
  have before : h.next q = some b1 := by
    rw [turned.next_eq, nil_append, ← ending, List.head?_cons]
  obtain ⟨h₁, done₁, nexts₁, prevs₁, lists₁⟩ := Heap.setNext_view used b1
  have used₁ : h₁.next l = some b1 := by rw [nexts₁, update_self]
  obtain ⟨h₂, done₂, nexts₂, prevs₂, lists₂⟩ := Heap.setPrev_view used₁ q
  obtain ⟨d, usedFirst⟩ := Heap.live _ circle
  have used₂ : h₂.next b1 = some d := by
    rw [nexts₂, nexts₁, update_of_ne (away b1 atFirst), usedFirst]
  obtain ⟨h₃, done₃, nexts₃, prevs₃, lists₃⟩ := Heap.setPrev_view used₂ l
  have used₃ : h₃.next q = some b1 := by
    rw [nexts₃, nexts₂, nexts₁, update_of_ne (away q atLast), before]
  obtain ⟨h₄, done₄, nexts₄, prevs₄, lists₄⟩ := Heap.setNext_view used₃ l
  have set : h₃.prev l = some q := by
    rw [prevs₃, update_of_ne (away b1 atFirst).symm, prevs₂, update_self]
  refine ⟨q, h₁, h₂, h₃, h₄, done₁, prevs₁ ▸ behind, done₂, ?_, done₃, set, done₄, ?_, ?_⟩
  · rw [nexts₂, used₁]
  · have plugged : Circular h₄.next h₄.prev (init ++ q :: l :: []) := by
      refine turned.insert outside before ?_ ?_ ?_ ?_ (fun c member apart => ?_)
        (fun c member apart => ?_)
      · rw [nexts₄, update_self]
      · rw [prevs₄, set]
      · rw [nexts₄, update_of_ne (away q atLast).symm, nexts₃, nexts₂, used₁]
      · rw [prevs₄, prevs₃, update_self]
      · rw [nexts₄, update_of_ne apart, nexts₃, nexts₂, nexts₁,
          update_of_ne (away c member)]
      · rw [prevs₄, prevs₃, update_of_ne apart, prevs₂,
          update_of_ne (away c member), prevs₁]
    have split : init ++ q :: l :: [] = (b1 :: back) ++ (front ++ [l]) := by
      rw [append_cons, ← ending]
      simp
    rw [split] at plugged
    simpa using plugged.rotate
  · rw [lists₄, lists₃, lists₂, lists₁]

/-- A block of the second run goes before the first run. -/
theorem pullOut_some (pre mid post : List Addr)
    (circle : Circular h.next h.prev (pre ++ b1 :: (mid ++ l :: post))) :
    ∃ h' b2, pullOut h l b1 = some (h', b2) ∧ (post ++ pre ++ [b1]).head? = some b2 ∧
      Circular h'.next h'.prev (pre ++ l :: b1 :: (mid ++ post)) ∧ h'.entries = h.entries := by
  have whole : Circular h.next h.prev ((pre ++ b1 :: mid) ++ l :: post) := by
    rw [append_assoc]
    exact circle
  have fresh : l ∉ (pre ++ b1 :: mid) ++ post :=
    (nodup_cons.mp (nodup_middle.mp whole.distinct)).1
  obtain ⟨b2, p, h₁, h₂, after, before, done₁, set₁, done₂, first, circle₂, lists₂, c, used⟩ :=
    unplug_some whole (by simp)
  rw [append_assoc, cons_append] at circle₂ fresh
  obtain ⟨q, h₃, h₄, h₅, h₆, done₃, set₃, done₄, set₄, done₅, set₅, done₆, circle₆, lists₆⟩ :=
    plug_some circle₂ fresh used
  refine ⟨h₆, b2, ?_, ?_, circle₆, lists₆.trans lists₂⟩
  · simp only [pullOut, after, before, done₁, set₁, done₂, done₃, set₃, done₄, set₄, done₅, set₅,
      done₆, Option.bind_eq_bind, Option.bind_some]
  · rw [← first, ← append_assoc]
    cases post ++ pre <;> rfl

/-- After a block of the second run went before the first, the walk goes on from the end of the
first run to the next block with entries in use. -/
theorem advance_after_pullOut
    (circle : Circular h.next h.prev (pre ++ l :: b1 :: (mid ++ (run ++ post))))
    (first : (run ++ post ++ pre ++ [b1]).head? = some b2) :
    ∃ p passed kept c, h.prev b2 = some p ∧ run = passed ++ kept ∧
      (∀ a ∈ passed, h.entries a = []) ∧ (∀ a ∈ kept.head?, h.entries a ≠ [] ∧ a = c) ∧
      advance h (run.length + 1) p = some (c, kept.length) := by
  cases run with
  | nil =>
    have member : b2 ∈ pre ++ l :: b1 :: (mid ++ ([] ++ post)) := by
      have inside := mem_of_mem_head? first
      simp only [mem_append, mem_cons] at inside ⊢
      tauto
    obtain ⟨init, rest, split⟩ := append_of_mem member
    rw [split] at circle
    have before := circle.prev_eq
    obtain ⟨front, p, ending⟩ :=
      (eq_nil_or_concat (b2 :: (rest ++ init))).resolve_left (cons_ne_nil _ _)
    rw [concat_eq_append] at ending
    rw [ending, List.getLast?_concat] at before
    have last : p ∈ init ++ b2 :: rest := by
      have inside : p ∈ b2 :: (rest ++ init) := ending ▸ mem_append_right _ mem_cons_self
      simp only [mem_append, mem_cons] at inside ⊢
      tauto
    obtain ⟨c, used⟩ := Holds.live (h := h) ⟨rfl, circle, rfl⟩ last
    obtain ⟨block, held, -⟩ := Heap.exists_block used
    refine ⟨p, [], [], block.next, before, rfl, by simp, by simp, ?_⟩
    rw [length_nil, advance, held, Option.bind_eq_bind, Option.bind_some, if_pos rfl]
  | cons c rest =>
    have start : c = b2 := Option.some.inj first
    subst start
    obtain ⟨init, p, ending⟩ :=
      (eq_nil_or_concat (b1 :: mid)).resolve_left (cons_ne_nil _ _)
    rw [concat_eq_append] at ending
    have shape : pre ++ l :: b1 :: (mid ++ (c :: rest ++ post)) =
        (pre ++ l :: init) ++ p :: (c :: rest ++ post) := by
      rw [← cons_append, ending]
      simp
    rw [shape] at circle
    obtain ⟨passed, kept, d, split, empty, stop, place, advanced⟩ := advance_some _ _ _ circle
    refine ⟨p, passed, kept, d, ?_, split, empty, ?_, advanced⟩
    · rw [append_cons] at circle
      have before : h.prev c = (c :: (rest ++ post ++ (pre ++ l :: init ++ [p]))).getLast? :=
        circle.prev_eq
      rw [before, ← append_assoc, ← cons_append, List.getLast?_concat]
    · intro a member
      refine ⟨stop a member, ?_⟩
      cases kept with
      | nil => exact absurd member (by simp)
      | cons b kept => exact (Option.some.inj member).symm.trans (Option.some.inj place)

end SmatchFormal.Ptrlist
