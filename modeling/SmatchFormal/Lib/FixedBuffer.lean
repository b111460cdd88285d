import Mathlib.Data.List.Basic

/-!
# Buffers of a fixed size

Texts with a terminator in a buffer of a fixed number of elements.  An operation that would write
behind the buffer has no result.
-/

namespace SmatchFormal.Lib

structure FixedBuffer (α : Type) (size : Nat) where
  text : List α
  fits : text.length < size

structure FilledBuffer (α : Type) (size : Nat) where
  text : List α
  room : text.length ≤ size

namespace FixedBuffer

variable {α : Type} {size : Nat}

def copy (size : Nat) (text : List α) : Option (FixedBuffer α size) :=
  if fits : text.length < size then some ⟨text, fits⟩ else none

def concat (buffer : FixedBuffer α size) (text : List α) : Option (FixedBuffer α size) :=
  copy size (buffer.text ++ text)

theorem copy_isSome {text : List α} : (copy size text).isSome = true ↔ text.length < size := by
  unfold copy
  split_ifs with fits
  · exact ⟨fun _ => fits, fun _ => rfl⟩
  · exact ⟨fun same => (by cases same), fun other => absurd other fits⟩

theorem copy_text {text : List α} {buffer : FixedBuffer α size}
    (copied : copy size text = some buffer) : buffer.text = text := by
  unfold copy at copied
  split_ifs at copied
  cases copied
  rfl

theorem copy_none {text : List α} : copy size text = none ↔ size ≤ text.length := by
  rw [← Option.not_isSome_iff_eq_none, copy_isSome, Nat.not_lt]

theorem copy_concat (first second : List α) :
    ((copy size first).bind fun buffer => buffer.concat second) = copy size (first ++ second) := by
  cases copied : copy size first with
  | none =>
    have long := copy_none.mp copied
    refine (copy_none.mpr ?_).symm
    rw [List.length_append]
    exact Nat.le_trans long (Nat.le_add_right _ _)
  | some buffer =>
    change buffer.concat second = _
    unfold concat
    rw [copy_text copied]

end FixedBuffer

namespace FilledBuffer

variable {α : Type} {size : Nat}

def empty (α : Type) (size : Nat) : FilledBuffer α size := ⟨[], Nat.zero_le size⟩

def append (buffer : FilledBuffer α size) (text : List α) : Option (FilledBuffer α size) :=
  if room : (buffer.text ++ text).length ≤ size then some ⟨buffer.text ++ text, room⟩ else none

def terminate (buffer : FilledBuffer α size) : Option (FixedBuffer α size) :=
  FixedBuffer.copy size buffer.text

theorem append_some {buffer filled : FilledBuffer α size} {text : List α}
    (appended : buffer.append text = some filled) : filled.text = buffer.text ++ text := by
  unfold append at appended
  split_ifs at appended
  cases appended
  rfl

theorem append_none {buffer : FilledBuffer α size} {text : List α} :
    buffer.append text = none ↔ size < buffer.text.length + text.length := by
  rw [← List.length_append]
  unfold append
  split_ifs with room
  · exact ⟨fun same => (by cases same), fun long => absurd room (Nat.not_le.mpr long)⟩
  · exact ⟨fun _ => Nat.lt_of_not_le room, fun _ => rfl⟩

end FilledBuffer

end SmatchFormal.Lib
