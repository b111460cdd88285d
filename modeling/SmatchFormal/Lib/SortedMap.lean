import Mathlib.Data.Set.Card

/-!
# Finite maps as sorted lists

The entries of a finite map, listed in strictly increasing order of their keys.
An entry carries its own key.  The operations of a search tree are described by
what they do to this list, and the list by the map it denotes.
-/

namespace SmatchFormal.Lib.SortedMap

open List

variable {α κ : Type} [LinearOrder κ] (key : α → κ)

def Sorted (list : List α) : Prop := list.Pairwise fun one two => key one < key two

def find (list : List α) (k : κ) : Option α := list.find? fun entry => decide (key entry = k)

/-- Insert an entry, or put it in the place of the one with its key. -/
def insert (new : α) : List α → List α
  | [] => [new]
  | entry :: rest =>
    if key new < key entry then new :: entry :: rest
    else if key new = key entry then new :: rest
    else entry :: insert new rest

def erase (k : κ) (list : List α) : List α := list.filter fun entry => decide (key entry ≠ k)

section Find

variable {key} {list first rest : List α} {pivot : α} {k : κ}

@[simp] theorem find_nil (k : κ) : find key [] k = none := rfl

theorem find_cons (entry : α) (rest : List α) (k : κ) :
    find key (entry :: rest) k = if key entry = k then some entry else find key rest k := by
  unfold find
  rw [List.find?_cons]
  split_ifs with same
  · rw [decide_eq_true same]
  · rw [decide_eq_false same]

theorem find_append (first rest : List α) (k : κ) :
    find key (first ++ rest) k = (find key first k).or (find key rest k) :=
  List.find?_append

theorem find_eq_none : find key list k = none ↔ ∀ entry ∈ list, key entry ≠ k := by
  unfold find
  rw [List.find?_eq_none]
  simp only [decide_eq_true_eq]

/-- The search goes to the side of the pivot the key is on. -/
theorem find_left (less : k < key pivot) (above : ∀ entry ∈ rest, key pivot < key entry) :
    find key (first ++ pivot :: rest) k = find key first k := by
  have none : find key (pivot :: rest) k = none := by
    refine find_eq_none.mpr ?_
    intro entry member
    rcases mem_cons.mp member with rfl | later
    · exact ne_of_gt less
    · exact ne_of_gt (lt_trans less (above entry later))
  rw [find_append, none, Option.or_none]

theorem find_right (below : ∀ entry ∈ first, key entry < key pivot) (less : key pivot < k) :
    find key (first ++ pivot :: rest) k = find key rest k := by
  have none : find key first k = none :=
    find_eq_none.mpr fun entry member => ne_of_lt (lt_trans (below entry member) less)
  rw [find_append, none, Option.none_or, find_cons, if_neg (ne_of_lt less)]

theorem mem_of_find {entry : α} (found : find key list k = some entry) : entry ∈ list :=
  mem_of_find?_eq_some found

end Find

namespace Sorted

variable {key} {list first rest : List α} {pivot : α} {k : κ}

theorem nil : Sorted key [] := List.Pairwise.nil

/-- A list around a pivot, in the shape of an inorder walk. -/
theorem split (sorted : Sorted key (first ++ pivot :: rest)) :
    Sorted key first ∧ Sorted key rest ∧ (∀ entry ∈ first, key entry < key pivot) ∧
      ∀ entry ∈ rest, key pivot < key entry := by
  obtain ⟨before, after, across⟩ := pairwise_append.mp sorted
  obtain ⟨beyond, tail⟩ := pairwise_cons.mp after
  exact ⟨before, tail, fun entry member => across entry member pivot mem_cons_self, beyond⟩

theorem find_of_mem (sorted : Sorted key list) {entry : α} (member : entry ∈ list) :
    find key list (key entry) = some entry := by
  induction list with
  | nil => cases member
  | cons head tail ih =>
    obtain ⟨beyond, sortedTail⟩ := pairwise_cons.mp sorted
    rw [find_cons]
    rcases mem_cons.mp member with rfl | later
    · exact if_pos rfl
    · rw [if_neg (ne_of_lt (beyond entry later))]
      exact ih sortedTail later

theorem mem_iff_find (sorted : Sorted key list) (entry : α) :
    entry ∈ list ↔ find key list (key entry) = some entry :=
  ⟨sorted.find_of_mem, mem_of_find⟩

/-- The number of entries is the size of the map. -/
theorem ncard_find (sorted : Sorted key list) :
    {k | find key list k ≠ none}.ncard = list.length := by
  have keys : {k | find key list k ≠ none} = ((list.map key).toFinset : Set κ) := by
    ext k
    simp only [Set.mem_ofPred_eq, ne_eq, find_eq_none, coe_toFinset, mem_map]
    push Not
    exact Iff.rfl
  have distinct : (list.map key).Nodup := by
    refine List.Pairwise.map key ?_ sorted
    exact fun _ _ less => ne_of_lt less
  rw [keys, Set.ncard_coe_finset, toFinset_card_of_nodup distinct, length_map]

end Sorted

section Insert

variable {key} {list first rest : List α} {pivot new : α}

theorem mem_insert {entry : α} (member : entry ∈ insert key new list) :
    entry = new ∨ entry ∈ list := by
  induction list with
  | nil => exact .inl (mem_singleton.mp member)
  | cons head tail ih =>
    rw [insert] at member
    split_ifs at member
    · exact mem_cons.mp member
    · rcases mem_cons.mp member with same | later
      · exact .inl same
      · exact .inr (mem_cons_of_mem _ later)
    · rcases mem_cons.mp member with rfl | later
      · exact .inr mem_cons_self
      · rcases ih later with same | older
        · exact .inl same
        · exact .inr (mem_cons_of_mem _ older)

theorem find_insert (new : α) (list : List α) (k : κ) :
    find key (insert key new list) k = if key new = k then some new else find key list k := by
  induction list with
  | nil => exact find_cons new [] k
  | cons head tail ih =>
    rw [insert]
    by_cases here : key new = k
    · rw [if_pos here] at ih ⊢
      split_ifs with before same
      · rw [find_cons, if_pos here]
      · rw [find_cons, if_pos here]
      · rw [find_cons, ih, if_neg fun other => same (here.trans other.symm)]
    · rw [if_neg here] at ih ⊢
      split_ifs with before same
      · rw [find_cons, if_neg here]
      · rw [find_cons, if_neg here, find_cons, if_neg fun other => here (same.trans other)]
      · rw [find_cons, ih, find_cons]

/-- Insertion goes to the side of the pivot the key is on. -/
theorem insert_left (less : key new < key pivot) :
    insert key new (first ++ pivot :: rest) = insert key new first ++ pivot :: rest := by
  induction first with
  | nil =>
    rw [nil_append, insert.eq_2, if_pos less]
    rfl
  | cons head tail ih =>
    rw [cons_append, insert.eq_2, insert.eq_2]
    split_ifs
    · rfl
    · rfl
    · rw [ih]
      rfl

theorem insert_here (below : ∀ entry ∈ first, key entry < key pivot) (same : key new = key pivot) :
    insert key new (first ++ pivot :: rest) = first ++ new :: rest := by
  induction first with
  | nil => rw [nil_append, insert, if_neg (not_lt_of_ge same.ge), if_pos same, nil_append]
  | cons head tail ih =>
    have later := below head mem_cons_self
    rw [← same] at later
    rw [cons_append, insert, if_neg (not_lt_of_gt later), if_neg (ne_of_gt later),
      ih fun entry member => below entry (mem_cons_of_mem _ member), cons_append]

theorem insert_right (below : ∀ entry ∈ first, key entry < key pivot) (less : key pivot < key new) :
    insert key new (first ++ pivot :: rest) = first ++ pivot :: insert key new rest := by
  induction first with
  | nil =>
    rw [nil_append, insert, if_neg (not_lt_of_gt less), if_neg (ne_of_gt less),
      nil_append]
  | cons head tail ih =>
    have later := lt_trans (below head mem_cons_self) less
    rw [cons_append, insert, if_neg (not_lt_of_gt later), if_neg (ne_of_gt later),
      ih fun entry member => below entry (mem_cons_of_mem _ member), cons_append]

theorem Sorted.insert (sorted : Sorted key list) : Sorted key (insert key new list) := by
  induction list with
  | nil => exact pairwise_singleton _ _
  | cons head tail ih =>
    obtain ⟨beyond, sortedTail⟩ := pairwise_cons.mp sorted
    rw [SortedMap.insert]
    split_ifs with before same
    · refine pairwise_cons.mpr ⟨?_, sorted⟩
      intro entry member
      rcases mem_cons.mp member with rfl | later
      · exact before
      · exact lt_trans before (beyond entry later)
    · refine pairwise_cons.mpr ⟨?_, sortedTail⟩
      intro entry member
      rw [same]
      exact beyond entry member
    · refine pairwise_cons.mpr ⟨?_, ih sortedTail⟩
      intro entry member
      rcases mem_insert member with rfl | later
      · exact lt_of_le_of_ne (not_lt.mp before) (Ne.symm same)
      · exact beyond entry later

/-- An entry with a new key makes the list longer. -/
theorem Sorted.length_insert (sorted : Sorted key list) (new : α) :
    (SortedMap.insert key new list).length =
      list.length + (find key list (key new)).isNone.toNat := by
  induction list with
  | nil => rfl
  | cons head tail ih =>
    obtain ⟨beyond, sortedTail⟩ := pairwise_cons.mp sorted
    rw [SortedMap.insert, find_cons]
    rcases lt_trichotomy (key new) (key head) with before | same | after
    · have absent : find key tail (key new) = none :=
        find_eq_none.mpr fun entry member => ne_of_gt (lt_trans before (beyond entry member))
      rw [if_pos before, if_neg (ne_of_gt before), absent]
      rfl
    · rw [if_neg (not_lt_of_ge same.ge), if_pos same, if_pos same.symm]
      rfl
    · rw [if_neg (not_lt_of_gt after), if_neg (ne_of_gt after), if_neg (ne_of_lt after),
        length_cons, ih sortedTail, length_cons]
      omega

/-- Rebuilding a sorted list from its entries, after others that come before them. -/
theorem foldl_insert (sorted : Sorted key (first ++ list)) :
    list.foldl (fun built entry => insert key entry built) first = first ++ list := by
  induction list generalizing first with
  | nil => rw [foldl_nil, append_nil]
  | cons head tail ih =>
    obtain ⟨-, -, below, -⟩ := sorted.split
    have last : insert key head first = first ++ [head] := by
      clear sorted ih
      induction first with
      | nil => rfl
      | cons entry others ih =>
        have later := below entry mem_cons_self
        rw [insert, if_neg (not_lt_of_gt later), if_neg (ne_of_gt later),
          ih fun other member => below other (mem_cons_of_mem _ member), cons_append]
    rw [foldl_cons, last, ih (by rw [append_assoc]; exact sorted), append_assoc,
      singleton_append]

end Insert

section Erase

variable {key} {list first rest : List α} {pivot : α} {k : κ}

theorem erase_append (first rest : List α) (k : κ) :
    erase key k (first ++ rest) = erase key k first ++ erase key k rest :=
  filter_append _ _

theorem erase_cons (entry : α) (rest : List α) (k : κ) :
    erase key k (entry :: rest) =
      if key entry = k then erase key k rest else entry :: erase key k rest := by
  unfold erase
  rw [filter_cons]
  simp only [ne_eq, decide_not, Bool.not_eq_true', decide_eq_false_iff_not]
  split_ifs <;> rfl

theorem erase_of_not_mem (absent : ∀ entry ∈ list, key entry ≠ k) : erase key k list = list :=
  filter_eq_self.mpr fun entry member => decide_eq_true (absent entry member)

theorem Sorted.erase (sorted : Sorted key list) : Sorted key (erase key k list) :=
  List.Pairwise.filter _ sorted

theorem find_erase (k : κ) (list : List α) (other : κ) :
    find key (erase key k list) other = if k = other then none else find key list other := by
  induction list with
  | nil => exact (ite_self _).symm
  | cons head tail ih =>
    rw [erase_cons]
    by_cases here : key head = k
    · rw [if_pos here, ih, find_cons]
      split_ifs with same this
      · rfl
      · exact absurd (here.symm.trans this) same
      · rfl
    · rw [if_neg here, find_cons, ih, find_cons]
      split_ifs with this same
      · exact absurd (this.trans same.symm) here
      · rfl
      · rfl
      · rfl

/-- Removal goes to the side of the pivot the key is on. -/
theorem erase_left (less : k < key pivot) (above : ∀ entry ∈ rest, key pivot < key entry) :
    erase key k (first ++ pivot :: rest) = erase key k first ++ pivot :: rest := by
  have kept : erase key k rest = rest :=
    erase_of_not_mem fun entry member => ne_of_gt (lt_trans less (above entry member))
  rw [erase_append, erase_cons, if_neg (ne_of_gt less), kept]

theorem erase_here (below : ∀ entry ∈ first, key entry < key pivot)
    (above : ∀ entry ∈ rest, key pivot < key entry) :
    erase key (key pivot) (first ++ pivot :: rest) = first ++ rest := by
  have before : erase key (key pivot) first = first :=
    erase_of_not_mem fun entry member => ne_of_lt (below entry member)
  have after : erase key (key pivot) rest = rest :=
    erase_of_not_mem fun entry member => ne_of_gt (above entry member)
  rw [erase_append, erase_cons, if_pos rfl, before, after]

theorem erase_right (below : ∀ entry ∈ first, key entry < key pivot) (less : key pivot < k) :
    erase key k (first ++ pivot :: rest) = first ++ pivot :: erase key k rest := by
  have kept : erase key k first = first :=
    erase_of_not_mem fun entry member => ne_of_lt (lt_trans (below entry member) less)
  rw [erase_append, erase_cons, if_neg (ne_of_lt less), kept]

end Erase

end SmatchFormal.Lib.SortedMap
