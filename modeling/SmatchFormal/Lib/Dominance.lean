import Mathlib.Data.List.Nodup
import Mathlib.Tactic.Common

/-!
# Dominance

In a graph with a root, a node dominates another one when every path from the root to the
other one goes through it.
-/

namespace SmatchFormal.Dominance

open List

variable {α : Type*}

inductive Path (edge : α → α → Prop) (root : α) : List α → α → Prop
  | start : Path edge root [root] root
  | step {nodes : List α} {b c : α} (path : Path edge root nodes b) (next : edge b c) :
      Path edge root (c :: nodes) c

def Reachable (edge : α → α → Prop) (root b : α) : Prop := ∃ nodes, Path edge root nodes b

def Dominates (edge : α → α → Prop) (root a b : α) : Prop :=
  ∀ nodes, Path edge root nodes b → a ∈ nodes

def StrictlyDominates (edge : α → α → Prop) (root a b : α) : Prop :=
  Dominates edge root a b ∧ a ≠ b

structure ImmediatelyDominates (edge : α → α → Prop) (root d b : α) : Prop where
  strict : StrictlyDominates edge root d b
  least : ∀ a, StrictlyDominates edge root a b → Dominates edge root a d

/-- The dominance frontier: an edge leads from a node that is dominated to one that is not
strictly dominated. -/
def Frontier (edge : α → α → Prop) (root a y : α) : Prop :=
  (∃ x, Reachable edge root x ∧ Dominates edge root a x ∧ edge x y) ∧
    ¬StrictlyDominates edge root a y

/-- The least set that contains the frontiers of the given nodes and of its own nodes. -/
inductive IteratedFrontier (edge : α → α → Prop) (root : α) (alpha : α → Prop) : α → Prop
  | base {a y : α} (start : alpha a) (frontier : Frontier edge root a y) :
      IteratedFrontier edge root alpha y
  | step {b y : α} (earlier : IteratedFrontier edge root alpha b)
      (frontier : Frontier edge root b y) : IteratedFrontier edge root alpha y

section Paths

variable {edge : α → α → Prop} {root : α}

namespace Path

theorem last_mem {nodes : List α} {b : α} (path : Path edge root nodes b) : b ∈ nodes := by
  cases path with
  | start => exact mem_cons_self
  | step path next => exact mem_cons_self

theorem root_mem {nodes : List α} {b : α} (path : Path edge root nodes b) : root ∈ nodes := by
  induction path with
  | start => exact mem_cons_self
  | step path next ih => exact mem_cons_of_mem _ ih

/-- The part of a path up to one of its nodes. -/
theorem to_mem {nodes : List α} {a b : α} (path : Path edge root nodes b) (member : a ∈ nodes) :
    ∃ part, Path edge root part a ∧ part <:+ nodes ∧ (a = b ∨ part.length < nodes.length) := by
  induction path with
  | start =>
    cases mem_singleton.mp member
    exact ⟨[root], .start, suffix_refl _, Or.inl rfl⟩
  | @step nodes b c path next ih =>
    rcases mem_cons.mp member with rfl | earlier
    · exact ⟨a :: nodes, .step path next, suffix_refl _, Or.inl rfl⟩
    · obtain ⟨part, shorter, suffix, -⟩ := ih earlier
      refine ⟨part, shorter, suffix.trans (suffix_cons c nodes), Or.inr ?_⟩
      exact Nat.lt_succ_of_le suffix.length_le

/-- A path that visits no node twice, and no other nodes. -/
theorem simple {nodes : List α} {b : α} (path : Path edge root nodes b) :
    ∃ part, Path edge root part b ∧ part.Nodup ∧ part ⊆ nodes := by
  induction path with
  | start => exact ⟨[root], .start, nodup_singleton root, List.Subset.refl _⟩
  | @step nodes b c path next ih =>
    obtain ⟨part, shorter, nodup, subset⟩ := ih
    have wider : nodes ⊆ c :: nodes := subset_cons_self c nodes
    by_cases member : c ∈ part
    · obtain ⟨rest, back, suffix, -⟩ := shorter.to_mem member
      exact ⟨rest, back, nodup.sublist suffix.sublist,
        fun d inside => wider (subset (suffix.subset inside))⟩
    · refine ⟨c :: part, .step shorter next, nodup_cons.mpr ⟨member, nodup⟩, ?_⟩
      exact cons_subset_cons c subset

theorem prepend {nodes : List α} {a b : α} (first : edge root a) (path : Path edge a nodes b) :
    Path edge root (nodes ++ [root]) b := by
  induction path with
  | start => exact .step .start first
  | step path next ih => exact .step ih next

end Path

theorem reachable_root : Reachable edge root root := ⟨[root], .start⟩

theorem Reachable.step {a b : α} (reachable : Reachable edge root a) (next : edge a b) :
    Reachable edge root b := by
  obtain ⟨nodes, path⟩ := reachable
  exact ⟨b :: nodes, .step path next⟩

namespace Dominates

variable {a b c p : α}

theorem refl (a : α) : Dominates edge root a a := fun _ path => path.last_mem

theorem of_root (b : α) : Dominates edge root root b := fun _ path => path.root_mem

theorem trans (first : Dominates edge root a b) (second : Dominates edge root b c) :
    Dominates edge root a c := by
  intro nodes path
  obtain ⟨part, shorter, suffix, -⟩ := path.to_mem (second nodes path)
  exact suffix.subset (first part shorter)

/-- A dominator of a node dominates what the node is reached from. -/
theorem of_edge (dominates : Dominates edge root a b) (different : a ≠ b) (next : edge p b) :
    Dominates edge root a p := by
  intro nodes path
  exact (mem_cons.mp (dominates _ (path.step next))).resolve_left different

/-- Two nodes that dominate each other are the same. -/
theorem antisymm (reachable : Reachable edge root b) (first : Dominates edge root a b)
    (second : Dominates edge root b a) : a = b := by
  -- A shortest path to the second node contains a shorter one to the first, which contains one.
  obtain ⟨nodes, path⟩ := reachable
  induction size : nodes.length using Nat.strongRecOn generalizing nodes with
  | ind size ih =>
    obtain ⟨part, toFirst, -, same | shorter⟩ := path.to_mem (first nodes path)
    · exact same
    · obtain ⟨rest, toSecond, suffix, -⟩ := toFirst.to_mem (second part toFirst)
      exact ih rest.length (size ▸ Nat.lt_of_le_of_lt suffix.length_le shorter) rest toSecond rfl

end Dominates

theorem ImmediatelyDominates.unique {d d' b : α} (reachable : Reachable edge root b)
    (first : ImmediatelyDominates edge root d b) (second : ImmediatelyDominates edge root d' b) :
    d = d' := by
  have up : Reachable edge root d' := by
    obtain ⟨nodes, path⟩ := reachable
    obtain ⟨part, shorter, -⟩ := path.to_mem (second.strict.1 nodes path)
    exact ⟨part, shorter⟩
  exact Dominates.antisymm up (second.least d first.strict) (first.least d' second.strict)

/-- The root is not strictly dominated. -/
theorem not_strictlyDominates_root {a : α} : ¬StrictlyDominates edge root a root := by
  rintro ⟨dominates, different⟩
  exact different (mem_singleton.mp (dominates [root] .start))

end Paths

end SmatchFormal.Dominance
