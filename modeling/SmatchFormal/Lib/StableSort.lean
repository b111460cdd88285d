import Mathlib.Data.List.Sort

/-!
# Stable sorting

An order that is total and transitive may tie different values.  A rearrangement is stable when the
values of each tie keep their sequence; merging two ordered lists is one, with the first list ahead
in every tie, and so is moving a value back over those that are above it.
-/

namespace SmatchFormal.Lib

open List

variable {β : Type} {le : β → β → Bool} {l l' l'' r r' xs ys hi lo : List β} {a b p : β}

structure TotalPreorder (le : β → β → Bool) : Prop where
  total : ∀ a b, le a b || le b a
  trans : ∀ a b c, le a b → le b c → le a c

namespace TotalPreorder

theorem refl (order : TotalPreorder le) (a : β) : le a a = true := by
  simpa using order.total a a

/-- Of two values that do not compare one way, the other way holds. -/
theorem flip (order : TotalPreorder le) (above : le a b = false) : le b a = true := by
  simpa [above] using order.total a b

end TotalPreorder

def tied (le : β → β → Bool) (a b : β) : Bool := le a b && le b a

abbrev Ordered (le : β → β → Bool) (l : List β) : Prop := l.Pairwise fun a b => le a b

/-- A rearrangement of `l` that keeps the sequence within each tie. -/
structure Rearranged (le : β → β → Bool) (l l' : List β) : Prop where
  perm : l'.Perm l
  stable : ∀ a, l'.filter (tied le a) = l.filter (tied le a)

structure StablySorted (le : β → β → Bool) (l l' : List β) : Prop extends Rearranged le l l' where
  ordered : Ordered le l'

namespace Rearranged

theorem refl (le : β → β → Bool) (l : List β) : Rearranged le l l := ⟨.refl l, fun _ => rfl⟩

theorem trans (one : Rearranged le l l') (two : Rearranged le l' l'') : Rearranged le l l'' :=
  ⟨two.perm.trans one.perm, fun a => (two.stable a).trans (one.stable a)⟩

theorem append (left : Rearranged le l l') (right : Rearranged le r r') :
    Rearranged le (l ++ r) (l' ++ r') := by
  refine ⟨left.perm.append right.perm, fun a => ?_⟩
  rw [filter_append, filter_append, left.stable a, right.stable a]

theorem flatMap {ι : Type} {f g : ι → List β} {is : List ι}
    (each : ∀ i ∈ is, Rearranged le (f i) (g i)) : Rearranged le (is.flatMap f) (is.flatMap g) := by
  induction is with
  | nil => exact .refl le []
  | cons i is ih =>
    obtain ⟨first, rest⟩ := forall_mem_cons.mp each
    exact first.append (ih rest)

end Rearranged

/-- The second part of an ordered list is put in another order. -/
theorem Ordered.replace (ordered : Ordered le (l ++ r)) (perm : r'.Perm r)
    (later : Ordered le r') : Ordered le (l ++ r') := by
  obtain ⟨first, -, across⟩ := pairwise_append.mp ordered
  exact pairwise_append.mpr
    ⟨first, later, fun a left b right => across a left b (perm.subset right)⟩

section

variable (order : TotalPreorder le)
include order

/-- No value above `p` is tied with what `p` is tied with. -/
theorem filter_tied_nil (above : ∀ b ∈ hi, le b p = false) (tie : tied le a p = true) :
    hi.filter (tied le a) = [] := by
  refine filter_eq_nil_iff.mpr fun b member joined => ?_
  simp only [tied, Bool.and_eq_true] at tie joined
  have below := order.trans b a p joined.2 tie.1
  rw [above b member] at below
  exact Bool.false_ne_true below

theorem Rearranged.moveBack (lo : List β) (above : ∀ b ∈ hi, le b p = false) :
    Rearranged le (lo ++ hi ++ [p]) (lo ++ p :: hi) := by
  refine ⟨?_, fun a => ?_⟩
  · rw [append_assoc]
    exact (perm_append_singleton p hi).symm.append_left lo
  · rw [append_assoc, filter_append, filter_append, filter_append]
    refine congrArg _ ?_
    cases tie : tied le a p with
    | true =>
      rw [filter_cons_of_pos tie, filter_tied_nil order above tie, nil_append,
        filter_cons_of_pos tie, filter_nil]
    | false =>
      have apart : ¬ tied le a p = true := Bool.not_eq_true _ ▸ tie
      rw [filter_cons_of_neg apart, filter_cons_of_neg apart, filter_nil,
        append_nil]

/-- Where a value moves back over all those above it, it is in order. -/
theorem Ordered.moveBack (ordered : Ordered le (lo ++ hi)) (below : ∀ b ∈ lo, le b p)
    (above : ∀ b ∈ hi, le b p = false) :
    Ordered le (lo ++ p :: hi) := by
  obtain ⟨first, second, across⟩ := pairwise_append.mp ordered
  refine pairwise_append.mpr ⟨first, pairwise_cons.mpr ⟨?_, second⟩, ?_⟩
  · exact fun b member => order.flip (above b member)
  · intro b member c inside
    rcases mem_cons.mp inside with rfl | inside
    · exact below b member
    · exact across b member c inside

/-- When the last of an ordered list is not above `p`, none of it is. -/
theorem Ordered.le_of_last (ordered : Ordered le (l ++ [b])) (last : le b p) :
    ∀ a ∈ l ++ [b], le a p := by
  intro a member
  obtain ⟨-, -, across⟩ := pairwise_append.mp ordered
  rcases mem_append.mp member with member | same
  · exact order.trans a b p (across a member b (mem_singleton.mpr rfl)) last
  · exact mem_singleton.mp same ▸ last

theorem Ordered.merge (left : Ordered le xs) (right : Ordered le ys) :
    Ordered le (List.merge xs ys le) :=
  pairwise_merge order.trans order.total xs ys left right

/-- Merging an ordered list with another one keeps the sequence within each tie. -/
theorem Rearranged.merge (ordered : Ordered le xs) (ys : List β) :
    Rearranged le (xs ++ ys) (List.merge xs ys le) := by
  refine ⟨merge_perm_append le, fun a => ?_⟩
  induction xs generalizing ys with
  | nil => rw [nil_merge, nil_append]
  | cons x xs ih =>
    obtain ⟨least, rest⟩ := pairwise_cons.mp ordered
    induction ys with
    | nil => rw [merge_right, append_nil]
    | cons y ys later =>
      rw [cons_merge_cons]
      cases below : le x y with
      | true =>
        rw [if_pos rfl, cons_append, filter_cons, filter_cons, ih rest]
      | false =>
        rw [if_neg Bool.false_ne_true, filter_append (x :: xs) (y :: ys)]
        rw [filter_append (x :: xs) ys] at later
        cases tie : tied le a y with
        | false =>
          have apart : ¬ tied le a y = true := Bool.not_eq_true _ ▸ tie
          rw [filter_cons_of_neg apart, filter_cons_of_neg apart, later]
        | true =>
          -- a tie with `y` has nothing of the first list, all of which is above `y`
          have above : ∀ b ∈ x :: xs, le b y = false := by
            intro b member
            refine Bool.eq_false_iff.mpr fun under => ?_
            have reach : le x b = true :=
              (mem_cons.mp member).elim (fun same => same ▸ order.refl b) (least b)
            rw [order.trans x b y reach under] at below
            exact Bool.false_ne_true below.symm
          rw [filter_tied_nil order above tie, nil_append] at later ⊢
          rw [filter_cons_of_pos tie, filter_cons_of_pos tie, later]

end

/-- What is not above the first of the other list goes ahead. -/
theorem merge_append_left (l : List β) (below : ∀ a ∈ xs, le a b) :
    List.merge (xs ++ l) (b :: r) le = xs ++ List.merge l (b :: r) le := by
  induction xs with
  | nil => rfl
  | cons x xs ih =>
    obtain ⟨first, rest⟩ := forall_mem_cons.mp below
    rw [cons_append, cons_merge_cons, if_pos first, ih rest, cons_append]

section

variable (order : TotalPreorder le)
include order

/-- Two values change places when the first is above the second. -/
theorem Rearranged.swap (above : le a b = false) (l : List β) :
    Rearranged le (a :: b :: l) (b :: a :: l) := by
  refine ⟨.swap a b l, fun c => ?_⟩
  cases tie : tied le c a with
  | false =>
    have apart : ¬ tied le c a = true := Bool.not_eq_true _ ▸ tie
    rw [filter_cons, filter_cons_of_neg apart, filter_cons_of_neg apart,
      filter_cons]
  | true =>
    have other : ¬ tied le c b = true := by
      intro joined
      simp only [tied, Bool.and_eq_true] at tie joined
      rw [order.trans a c b tie.2 joined.1] at above
      exact Bool.false_ne_true above.symm
    rw [filter_cons_of_neg other, filter_cons, filter_cons,
      filter_cons_of_neg other]

theorem Rearranged.orderedInsert (a : β) (l : List β) :
    Rearranged le (a :: l) (l.orderedInsert (fun a b => le a b) a) := by
  induction l with
  | nil => exact .refl le [a]
  | cons b l ih =>
    by_cases below : le a b = true
    · rw [orderedInsert_cons_of_le _ l below]
      exact .refl le _
    · rw [orderedInsert_of_not_le _ l below]
      have inside : Rearranged le ([b] ++ (a :: l))
        ([b] ++ l.orderedInsert (fun a b => le a b) a) :=
        (Rearranged.refl le [b]).append ih
      exact (Rearranged.swap order (Bool.eq_false_iff.mpr below) l).trans inside

theorem stablySorted_insertionSort (l : List β) :
    StablySorted le l (l.insertionSort fun a b => le a b) := by
  have total : Std.Total fun a b => le a b = true :=
    ⟨fun a b => (Bool.or_eq_true _ _).mp (order.total a b)⟩
  have trans : IsTrans β fun a b => le a b = true := ⟨order.trans⟩
  refine ⟨?_, pairwise_insertionSort _ l⟩
  induction l with
  | nil => exact .refl le []
  | cons a l ih =>
    have inside : Rearranged le ([a] ++ l) ([a] ++ l.insertionSort fun a b => le a b) :=
      (Rearranged.refl le [a]).append ih
    exact inside.trans (.orderedInsert order a _)

theorem Ordered.eq_of_rearranged (left : Ordered le l) (right : Ordered le l')
    (same : Rearranged le l l') : l' = l := by
  induction l generalizing l' with
  | nil => exact same.perm.eq_nil
  | cons a l ih =>
    cases l' with
    | nil => exact absurd same.perm.symm.eq_nil (cons_ne_nil a l)
    | cons b l' =>
      obtain ⟨first, rest⟩ := pairwise_cons.mp left
      obtain ⟨first', rest'⟩ := pairwise_cons.mp right
      have below : le a b = true :=
        (mem_cons.mp (same.perm.subset mem_cons_self)).elim
          (fun equal => equal ▸ order.refl a) (first b)
      have above : le b a = true :=
        (mem_cons.mp (same.perm.symm.subset mem_cons_self)).elim
          (fun equal => equal ▸ order.refl b) (first' a)
      have ties := same.stable a
      have tie : tied le a b = true := by rw [tied, below, above]; rfl
      have self : tied le a a = true := by rw [tied, order.refl a]; rfl
      rw [filter_cons_of_pos tie, filter_cons_of_pos self] at ties
      obtain rfl := (List.cons.inj ties).1
      refine congrArg _ (ih rest rest' ⟨same.perm.cons_inv, fun c => ?_⟩)
      have filters := same.stable c
      rw [filter_cons, filter_cons] at filters
      split_ifs at filters
      · exact (List.cons.inj filters).2
      · exact filters

theorem StablySorted.unique (one : StablySorted le l l') (two : StablySorted le l l'') : l'' = l' :=
  one.ordered.eq_of_rearranged order two.ordered
    ⟨two.perm.trans one.perm.symm, fun a => (two.stable a).trans (one.stable a).symm⟩

end

end SmatchFormal.Lib
