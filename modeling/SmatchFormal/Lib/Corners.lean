import Mathlib.Order.Interval.Set.Defs
import Mathlib.Order.Monotone.Defs

/-!
# Corners of a rectangle

A function of two arguments that is monotone or antitone in each of them lies, on a
rectangle, between its values at two corners.  Which corners these are follows from the two
directions alone.
-/

namespace SmatchFormal.Lib.Corners

inductive Direction
  | up
  | down
  deriving DecidableEq, Repr

namespace Direction

variable {α β γ : Type} [Preorder α] [Preorder β] [Preorder γ]

def Along (f : α → β) (s : Set α) : Direction → Prop
  | up => MonotoneOn f s
  | down => AntitoneOn f s

def start (low high : α) : Direction → α
  | up => low
  | down => high

def stop (low high : α) : Direction → α
  | up => high
  | down => low

theorem start_mem {direction : Direction} {a b x : α} (inside : x ∈ Set.Icc a b) :
    direction.start a b ∈ Set.Icc a b := by
  have order : a ≤ b := le_trans inside.1 inside.2
  cases direction with
  | up => exact ⟨le_refl a, order⟩
  | down => exact ⟨order, le_refl b⟩

theorem stop_mem {direction : Direction} {a b x : α} (inside : x ∈ Set.Icc a b) :
    direction.stop a b ∈ Set.Icc a b := by
  have order : a ≤ b := le_trans inside.1 inside.2
  cases direction with
  | up => exact ⟨order, le_refl b⟩
  | down => exact ⟨le_refl a, order⟩

/-- On an interval a function lies between its values at the two ends. -/
theorem Along.mem_ends {direction : Direction} {f : α → β} {a b x : α}
    (along : direction.Along f (Set.Icc a b)) (inside : x ∈ Set.Icc a b) :
    f (direction.start a b) ≤ f x ∧ f x ≤ f (direction.stop a b) := by
  have start := direction.start_mem inside
  have stop := direction.stop_mem inside
  cases direction with
  | up => exact ⟨along start inside inside.1, along inside stop inside.2⟩
  | down => exact ⟨along inside start inside.2, along stop inside inside.1⟩

/-- On a rectangle a function lies between its values at two corners. -/
theorem mem_corners {first second : Direction} {f : α → β → γ} {a b x : α} {c d y : β}
    (left : ∀ y ∈ Set.Icc c d, first.Along (fun x => f x y) (Set.Icc a b))
    (right : ∀ x ∈ Set.Icc a b, second.Along (f x) (Set.Icc c d))
    (inLeft : x ∈ Set.Icc a b) (inRight : y ∈ Set.Icc c d) :
    f (first.start a b) (second.start c d) ≤ f x y ∧
      f x y ≤ f (first.stop a b) (second.stop c d) := by
  have row := (left y inRight).mem_ends inLeft
  have bottom := (right _ (first.start_mem inLeft)).mem_ends inRight
  have top := (right _ (first.stop_mem inLeft)).mem_ends inRight
  exact ⟨le_trans bottom.1 row.1, le_trans row.2 top.2⟩

end Direction

end SmatchFormal.Lib.Corners
