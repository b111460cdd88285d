import Mathlib.Data.Finset.Prod
import Mathlib.Data.Finset.Card

/-!
# Backward flow

What is generated at a node of a graph flows against the edges to the nodes that do not kill it.
A table that grows within finite bounds stops growing.
-/

namespace SmatchFormal.Backflow

variable {α β : Type*}

/-- The least flow of what is generated, against the edges, through the nodes that do not kill
it. -/
inductive Flows (generated killed : α → β → Prop) (edge : α → α → Prop) : α → β → Prop
  | here {a : α} {b : β} (made : generated a b) : Flows generated killed edge a b
  | along {a c : α} {b : β} (keeps : ¬ killed a b) (next : edge a c)
      (later : Flows generated killed edge c b) : Flows generated killed edge a b

section Rules

variable {generated killed : α → β → Prop} {edge : α → α → Prop}

/-- A table that holds what is generated and is closed under the flow holds all that flows. -/
theorem Flows.within (table : α → β → Prop) (inside : α → Prop)
    (edges : ∀ a, inside a → ∀ c, edge a c → inside c)
    (made : ∀ a b, inside a → generated a b → table a b)
    (closed : ∀ a c b, inside a → edge a c → table c b → ¬ killed a b → table a b)
    {a : α} {b : β} (flow : Flows generated killed edge a b) (start : inside a) : table a b := by
  induction flow with
  | here now => exact made _ _ start now
  | along keeps next later ih => exact closed _ _ _ start next (ih (edges _ start _ next)) keeps

end Rules

section Tables

def entries (nodes : Finset α) (values : Finset β) (table : α → β → Bool) : Finset (α × β) :=
  (nodes ×ˢ values).filter fun entry => table entry.1 entry.2

theorem card_entries_le (nodes : Finset α) (values : Finset β) (table : α → β → Bool) :
    (entries nodes values table).card ≤ (nodes ×ˢ values).card :=
  Finset.card_le_card (Finset.filter_subset _ _)

theorem card_entries_lt {nodes : Finset α} {values : Finset β} {table later : α → β → Bool}
    (kept : ∀ a b, table a b = true → later a b = true) {a : α} {b : β} (node : a ∈ nodes)
    (value : b ∈ values) (absent : table a b = false) (present : later a b = true) :
    (entries nodes values table).card < (entries nodes values later).card := by
  refine Finset.card_lt_card (Finset.ssubset_iff_of_subset ?_ |>.mpr ⟨(a, b), ?_, ?_⟩)
  · intro entry member
    rw [entries, Finset.mem_filter] at member ⊢
    exact ⟨member.1, kept _ _ member.2⟩
  · rw [entries, Finset.mem_filter, Finset.mem_product]
    exact ⟨⟨node, value⟩, present⟩
  · intro member
    rw [entries, Finset.mem_filter] at member
    exact Bool.false_ne_true (absent.symm.trans member.2)

end Tables

end SmatchFormal.Backflow
