import Mathlib.Data.List.Chain
import Mathlib.Data.List.Nodup

/-!
# Circular doubly linked lists

A ring is a list of distinct nodes in which each node points at the one after it, the last one at
the first, and each is pointed back at by the one after it.  The two maps are partial, as a memory
is.
-/

namespace SmatchFormal.Lib

open List

variable {Node : Type} {next prev next' prev' : Node → Option Node}
  {nodes front back rest : List Node}
variable {a b n p : Node}

structure Linked (next prev : Node → Option Node) (a b : Node) : Prop where
  ahead : next a = some b
  behind : prev b = some a

/-- A chain of linked nodes reads the next of each but the last, and the previous of each but the
first. -/
theorem isChain_linked_congr (links : nodes.IsChain (Linked next prev))
    (ahead : ∀ a ∈ nodes.dropLast, next' a = next a) (behind : ∀ a ∈ nodes.tail, prev' a = prev a) :
    nodes.IsChain (Linked next' prev') := by
  induction links with
  | nil => exact .nil
  | singleton a => exact .singleton a
  | @cons_cons a b rest linked links ih =>
    refine .cons_cons ⟨?_, ?_⟩ (ih ?_ ?_)
    · exact (ahead a mem_cons_self).trans linked.ahead
    · exact (behind b mem_cons_self).trans linked.behind
    · exact fun c member => ahead c (mem_cons_of_mem _ member)
    · exact fun c member => behind c (mem_cons_of_mem _ member)

structure Circular (next prev : Node → Option Node) (nodes : List Node) : Prop where
  distinct : nodes.Nodup
  links : (nodes ++ nodes.head?.toList).IsChain (Linked next prev)

namespace Circular

theorem nil : Circular next prev [] :=
  ⟨nodup_nil, .nil⟩

theorem rotate (ring : Circular next prev (front ++ back)) :
    Circular next prev (back ++ front) := by
  refine ⟨nodup_append_comm.mp ring.distinct, ?_⟩
  have links := ring.links
  cases front with
  | nil => simpa using links
  | cons a front =>
    cases back with
    | nil => simpa using links
    | cons b back =>
      simp only [cons_append, List.head?_cons, Option.toList_some, append_assoc]
        at links ⊢
      rw [isChain_cons_split] at links ⊢
      exact ⟨links.2, links.1⟩

/-- The node after a node is the first of those that follow it around the ring. -/
theorem next_eq (ring : Circular next prev (front ++ a :: back)) :
    next a = (back ++ front ++ [a]).head? := by
  have links := ring.rotate.links
  cases around : back ++ front with
  | nil =>
    rw [cons_append, around] at links
    exact ((isChain_cons_cons.mp links).1).ahead
  | cons b rest =>
    rw [cons_append, around] at links
    exact ((isChain_cons_cons.mp links).1).ahead

/-- The node before a node is the last of those that follow it around the ring. -/
theorem prev_eq (ring : Circular next prev (front ++ a :: back)) :
    prev a = (a :: (back ++ front)).getLast? := by
  have links := ring.rotate.links
  rw [cons_append] at links
  rcases eq_nil_or_concat (back ++ front) with around | ⟨rest, p, around⟩
  · rw [around] at links ⊢
    exact ((isChain_cons_cons.mp links).1).behind
  · rw [concat_eq_append] at around
    rw [around] at links ⊢
    have split : (a :: (rest ++ [p]) ++ (a :: (rest ++ [p])).head?.toList) =
        (a :: rest) ++ p :: a :: [] := by simp
    rw [split, isChain_append_cons_cons] at links
    rw [links.2.1.behind, ← cons_append, List.getLast?_concat]

/-- The next node of a node of a ring is not the first one, except at the end. -/
theorem head_ne (ring : Circular next prev (front ++ a :: b :: back)) :
    (front ++ a :: b :: back).head? ≠ some b := by
  have distinct := ring.distinct
  cases front with
  | nil =>
    intro same
    have same : a = b := by simpa using same
    exact (nodup_cons.mp distinct).1 (same ▸ mem_cons_self)
  | cons c front =>
    intro same
    have same : c = b := by simpa using same
    exact (nodup_cons.mp distinct).1 (same ▸ by simp)

/-- A node is put after the first one of a ring. -/
theorem insertFirst (ring : Circular next prev (a :: rest)) (fresh : n ∉ a :: rest)
    (before : next a = some b) (ahead : next' a = some n) (behind : prev' n = some a)
    (on : next' n = some b) (back : prev' b = some n)
    (sameNext : ∀ c ∈ a :: rest, c ≠ a → next' c = next c)
    (samePrev : ∀ c ∈ a :: rest, c ≠ b → prev' c = prev c) :
    Circular next' prev' (a :: n :: rest) := by
  have apart : a ≠ n := fun same => fresh (same ▸ mem_cons_self)
  have outside : n ∉ rest := fun inside => fresh (mem_cons_of_mem _ inside)
  obtain ⟨absent, distinct⟩ := nodup_cons.mp ring.distinct
  have links := ring.links
  refine ⟨?_, .cons_cons ⟨ahead, behind⟩ ?_⟩
  · refine nodup_cons.mpr ⟨?_, nodup_cons.mpr ⟨outside, distinct⟩⟩
    exact fun inside => (mem_cons.mp inside).elim apart absent
  cases rest with
  | nil =>
    have linked : Linked next prev a a := (isChain_cons_cons.mp links).1
    have same : b = a := by
      have := before.symm.trans linked.ahead
      simpa using this
    exact .cons_cons ⟨same ▸ on, same ▸ back⟩ (.singleton a)
  | cons c rest =>
    obtain ⟨linked, links⟩ := isChain_cons_cons.mp links
    have same : b = c := by
      have := before.symm.trans linked.ahead
      simpa using this
    refine .cons_cons ⟨same ▸ on, same ▸ back⟩ (isChain_linked_congr links ?_ ?_)
    · intro d member
      have inside : d ∈ c :: rest := by
        have member : d ∈ ((c :: rest) ++ [a]).dropLast := member
        rwa [dropLast_concat] at member
      exact sameNext d (mem_cons_of_mem _ inside) fun equal => absent (equal ▸ inside)
    · intro d member
      have inside : d ∈ rest ∨ d = a := by simpa using member
      rcases inside with inside | rfl
      · refine samePrev d (mem_cons_of_mem _ (mem_cons_of_mem _ inside)) ?_
        exact fun equal => (nodup_cons.mp distinct).1 (same ▸ equal ▸ inside)
      · refine samePrev d mem_cons_self ?_
        exact fun equal => absent (by rw [equal, same]; exact mem_cons_self)

theorem insert (ring : Circular next prev (front ++ a :: back)) (fresh : n ∉ front ++ a :: back)
    (before : next a = some b) (ahead : next' a = some n) (behind : prev' n = some a)
    (on : next' n = some b) (around : prev' b = some n)
    (sameNext : ∀ c ∈ front ++ a :: back, c ≠ a → next' c = next c)
    (samePrev : ∀ c ∈ front ++ a :: back, c ≠ b → prev' c = prev c) :
    Circular next' prev' (front ++ a :: n :: back) := by
  have same : ∀ c, c ∈ a :: (back ++ front) ↔ c ∈ front ++ a :: back := fun c => by
    simp only [mem_cons, mem_append]
    tauto
  have inserted : Circular next' prev' (a :: n :: (back ++ front)) := by
    refine ring.rotate.insertFirst (fun inside => fresh ((same n).mp inside)) before ahead behind on
      around ?_ ?_
    · exact fun c inside => sameNext c ((same c).mp inside)
    · exact fun c inside => samePrev c ((same c).mp inside)
  have inserted : Circular next' prev' ((a :: n :: back) ++ front) := inserted
  exact inserted.rotate

/-- The first node of a ring of several is taken out. -/
theorem removeFirst (ring : Circular next prev (a :: rest)) (several : rest ≠ [])
    (before : prev a = some p) (after : next a = some b) (ahead : next' p = some b)
    (behind : prev' b = some p) (sameNext : ∀ c ∈ rest, c ≠ p → next' c = next c)
    (samePrev : ∀ c ∈ rest, c ≠ b → prev' c = prev c) : Circular next' prev' rest := by
  obtain ⟨absent, distinct⟩ := nodup_cons.mp ring.distinct
  have whole : Circular next prev ([] ++ a :: rest) := ring
  have last := whole.prev_eq
  have first := whole.next_eq
  rw [before, append_nil, List.getLast?_cons_of_ne_nil several] at last
  rw [after] at first
  obtain ⟨rest, c, rfl⟩ := eq_nil_or_concat rest |>.resolve_left several
  rw [concat_eq_append] at *
  rw [List.getLast?_concat] at last
  have same : p = c := by simpa using last
  subst same
  have links := ring.links
  rw [cons_append] at links
  have inner : (rest ++ [p]).IsChain (Linked next prev) := by
    have := links.tail
    simp only [tail_cons] at this
    exact this.left_of_append
  refine ⟨distinct, ?_⟩
  have kept : (rest ++ [p]).IsChain (Linked next' prev') := by
    refine isChain_linked_congr inner ?_ ?_
    · intro d member
      rw [dropLast_concat] at member
      refine sameNext d (by simp [member]) fun equal => ?_
      have := disjoint_of_nodup_append distinct
      exact this member (by simp [equal])
    · intro d member
      refine samePrev d (mem_of_mem_tail member) fun equal => ?_
      cases rest with
      | nil => simp at member
      | cons e rest =>
        have same : b = e := by simpa using first
        exact (nodup_cons.mp distinct).1 (same ▸ equal ▸ member)
  have head : (rest ++ [p]).head?.toList = [b] := by
    have : (rest ++ [p] ++ [] ++ [a]).head? = (rest ++ [p]).head? := by
      cases rest <;> rfl
    rw [this] at first
    rw [← first]
    rfl
  rw [head, append_assoc]
  exact isChain_split.mpr ⟨kept, .cons_cons ⟨ahead, behind⟩ (.singleton b)⟩

theorem remove (ring : Circular next prev (front ++ a :: back)) (several : front ++ back ≠ [])
    (before : prev a = some p) (after : next a = some b) (ahead : next' p = some b)
    (behind : prev' b = some p) (sameNext : ∀ c ∈ front ++ back, c ≠ p → next' c = next c)
    (samePrev : ∀ c ∈ front ++ back, c ≠ b → prev' c = prev c) :
    Circular next' prev' (front ++ back) := by
  refine rotate (ring.rotate.removeFirst ?_ before after ahead behind ?_ ?_)
  · simpa [and_comm] using several
  · exact fun c inside => sameNext c (mem_append.mpr (mem_append.mp inside).symm)
  · exact fun c inside => samePrev c (mem_append.mpr (mem_append.mp inside).symm)

end Circular

end SmatchFormal.Lib
