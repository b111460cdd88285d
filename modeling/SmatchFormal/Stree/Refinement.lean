import SmatchFormal.Stree.Handles
import Mathlib.Order.Lattice.Nat

/-!
# Every handle is a map of its own

The operations on handles refine operations on independent finite maps.  The
invariant bounds the handles of a tree by its reference count, so a tree that is
written to has one handle.  A count may be too high, when a handle is
overwritten; then a later write only copies more often.
-/

namespace SmatchFormal.Stree

open SmatchFormal.Lib AvlNode List Function

variable {numChecks : Nat} {σ : Type}

/-! ## A tree in order -/

/-- The invariant of a tree.  `has_states` covers the owners of its states, and is not
cleared when they go. -/
structure Ok (avl : Stree numChecks σ) : Prop where
  balanced : avl.root.Balanced
  sorted : SortedMap.Sorted key avl.root.inorder
  counted : avl.count = avl.root.inorder.length
  checks : avl.hasStates.length = numChecks
  owners : ∀ sm ∈ avl.root.inorder, sm.owner ≠ ushrtMax →
    avl.hasStates.getD sm.owner false = true

section Tree

variable {avl : Stree numChecks σ}

theorem avlNew_ok : Ok (avlNew : Stree numChecks σ) :=
  ⟨trivial, .nil, rfl, length_replicate, nofun⟩

theorem getD_set {flags : List Bool} {i j : Nat} (known : flags.getD j false = true) :
    (flags.set i true).getD j false = true := by
  rw [getD_eq_getElem?_getD] at known ⊢
  rw [List.getElem?_set]
  split_ifs with same inside
  · rfl
  · rw [← same, List.getElem?_eq_none (not_lt.mp inside)] at known
    cases known
  · exact known

theorem insertInto_ok (ok : Ok avl) (sm : SmState numChecks σ) :
    Ok (insertInto avl sm) ∧ (insertInto avl sm).references = avl.references ∧
      (insertInto avl sm).root.inorder = SortedMap.insert key sm avl.root.inorder := by
  have step := insertSm_spec sm avl.count ok.balanced ok.sorted
  have order : (insertInto avl sm).root.inorder = SortedMap.insert key sm avl.root.inorder :=
    step.inorder
  refine ⟨⟨step.balanced, ?_, ?_, ?_, ?_⟩, rfl, order⟩
  · rw [order]
    exact ok.sorted.insert
  · have total : (insertInto avl sm).count + avl.root.inorder.length =
        avl.count + (insertInto avl sm).root.inorder.length := step.count
    have before := ok.counted
    omega
  · change
      (if sm.owner ≠ ushrtMax then avl.hasStates.set sm.owner true else avl.hasStates).length = _
    split_ifs
    · exact (length_set).trans ok.checks
    · exact ok.checks
  · intro other member registered
    change (if sm.owner ≠ ushrtMax then avl.hasStates.set sm.owner true else avl.hasStates).getD
      other.owner false = true
    rw [order] at member
    rcases SortedMap.mem_insert member with rfl | older
    · have inside : other.owner < avl.hasStates.length := by
        rw [ok.checks]
        exact other.registered.resolve_right registered
      rw [if_pos registered, getD_eq_getElem?_getD, List.getElem?_set_self inside]
      rfl
    · have known := ok.owners other older registered
      split_ifs
      · exact getD_set known
      · exact known

theorem foldl_insertInto_ok (sms : List (SmState numChecks σ)) (ok : Ok avl) :
    Ok (sms.foldl insertInto avl) ∧ (sms.foldl insertInto avl).references = avl.references ∧
      (sms.foldl insertInto avl).root.inorder =
        sms.foldl (fun built sm => SortedMap.insert key sm built) avl.root.inorder := by
  induction sms generalizing avl with
  | nil => exact ⟨ok, rfl, rfl⟩
  | cons sm sms ih =>
    obtain ⟨inserted, owners, order⟩ := insertInto_ok ok sm
    obtain ⟨result, references, final⟩ := ih inserted
    refine ⟨result, references.trans owners, ?_⟩
    rw [foldl_cons, foldl_cons, final, order]

theorem removeSm_ok (ok : Ok avl) {sm : SmState numChecks σ} {count : Nat}
    {root : AvlNode numChecks σ} {removed : Option (SmState numChecks σ)} {shrank : Bool}
    (outcome : removeSm avl.count sm avl.root = (count, root, removed, shrank)) :
    Ok { avl with count := count, root := root } ∧
      root.inorder = SortedMap.erase key (key sm) avl.root.inorder ∧
      removed = SortedMap.find key avl.root.inorder (key sm) := by
  have step := removeSm_spec sm ok.balanced ok.sorted (Nat.le_of_eq ok.counted.symm)
  rw [outcome] at step
  have order : root.inorder = SortedMap.erase key (key sm) avl.root.inorder := step.inorder
  refine ⟨⟨step.balanced, ?_, ?_, ok.checks, ?_⟩, order, step.ret⟩
  · change SortedMap.Sorted key root.inorder
    rw [order]
    exact ok.sorted.erase
  · have total : count + avl.root.inorder.length = avl.count + root.inorder.length := step.count
    have before := ok.counted
    change count = root.inorder.length
    omega
  · intro other member
    change other ∈ root.inorder at member
    rw [order] at member
    exact ok.owners other (mem_of_mem_filter member)

/-- A copy holds the same states and has one owner. -/
theorem cloneStreeReal_spec (ok : Ok avl) :
    ∃ new, cloneStreeReal avl = some new ∧ Ok new ∧ new.references = 1 ∧
      new.root.inorder = avl.root.inorder := by
  obtain ⟨⟨balanced, sorted, counted, checks, owners⟩, references, order⟩ :=
    foldl_insertInto_ok (walk .forward avl.root) (avlNew_ok : Ok (avlNew : Stree numChecks σ))
  refine ⟨{ (walk .forward avl.root).foldl insertInto avlNew with baseStree := avl.baseStree }, ?_,
    ⟨balanced, sorted, counted, checks, owners⟩, references, ?_⟩
  · rw [cloneStreeReal, avlTraverse_spec]
    rfl
  · refine order.trans ?_
    rw [walk_eq]
    exact SortedMap.foldl_insert ok.sorted

theorem cmpTracker_neg (a b : SmState numChecks σ) :
    cmpTracker (some a) (some b) < 0 ↔ key a < key b := by
  rcases cmpTracker_cases a b with ⟨cmp, less⟩ | ⟨cmp, same⟩ | ⟨cmp, greater⟩
  · exact ⟨fun _ => less, fun _ => by rw [cmp]; decide⟩
  · rw [cmp, same]
    exact ⟨fun impossible => absurd impossible (by decide), fun impossible =>
      absurd impossible (lt_irrefl _)⟩
  · rw [cmp]
    exact ⟨fun impossible => absurd impossible (by decide), fun impossible =>
      absurd impossible (not_lt_of_gt greater)⟩

theorem checkOrder_of_sorted (sorted : SortedMap.Sorted key avl.root.inorder) :
    checkOrder avl = true := by
  have loop : ∀ (rest : List (SmState numChecks σ)) (first : SmState numChecks σ),
      SortedMap.Sorted key (first :: rest) →
        (rest.foldl (fun state sm =>
          (sm, state.2 && decide (cmpTracker (some state.1) (some sm) < 0))) (first, true)).2 =
            true := by
    intro rest
    induction rest with
    | nil => exact fun _ _ => rfl
    | cons second rest ih =>
      intro first sorted
      obtain ⟨beyond, tail⟩ := pairwise_cons.mp sorted
      have less := (cmpTracker_neg first second).mpr (beyond second mem_cons_self)
      rw [foldl_cons]
      simp only [decide_eq_true less, Bool.and_true]
      exact ih second tail
  unfold checkOrder
  rw [avlTraverse_spec, walk_eq]
  cases list : avl.root.inorder with
  | nil => rfl
  | cons first rest =>
    rw [list] at sorted
    exact loop rest first sorted

theorem Ok.avlCheckInvariants (ok : Ok avl) : avlCheckInvariants avl = true := by
  unfold Stree.avlCheckInvariants
  rw [checkBalances_eq ok.balanced, checkOrder_of_sorted ok.sorted, countNode_eq, ok.counted]
  exact beq_self_eq_true _

end Tree

/-! ## The invariant of the heap -/

variable {ι : Type}

/-- Every handle points to a tree in order, and the reference count of a tree bounds
the number of handles that point to it. -/
structure Inv (s : State ι numChecks σ) : Prop where
  ok : ∀ a avl, s.heap.lookup a = some avl → Ok avl
  live : ∀ h a, s.handles h = some a → ∃ avl, s.heap.lookup a = some avl
  counted : ∀ a avl, s.heap.lookup a = some avl → ∀ sharers : Finset ι,
    (∀ h ∈ sharers, s.handles h = some a) → sharers.card ≤ avl.references

def State.tree (s : State ι numChecks σ) (a : Addr) : List (SmState numChecks σ) :=
  ((s.heap.lookup a).map fun avl => avl.root.inorder).getD []

def State.view (s : State ι numChecks σ) (h : ι) : List (SmState numChecks σ) :=
  ((s.handles h).map s.tree).getD []

section Heap

variable {s : State ι numChecks σ} {h : ι} {a : Addr} {avl new : Stree numChecks σ}

theorem tree_eq (found : s.heap.lookup a = some avl) : s.tree a = avl.root.inorder := by
  unfold State.tree
  rw [found]
  rfl

theorem view_none (null : s.handles h = none) : s.view h = [] := by
  unfold State.view
  rw [null]
  rfl

theorem view_some (points : s.handles h = some a) (found : s.heap.lookup a = some avl) :
    s.view h = avl.root.inorder := by
  unfold State.view
  rw [points]
  exact tree_eq found

/-- The view depends on the pointer and on the states of the tree it points to. -/
theorem view_congr {s' : State ι numChecks σ} {h' : ι} (handles : s'.handles h' = s.handles h)
    (trees : ∀ a, s.handles h = some a → s'.tree a = s.tree a) : s'.view h' = s.view h := by
  unfold State.view
  rw [handles]
  cases points : s.handles h with
  | none => rfl
  | some a => exact trees a points

theorem Inv.init : Inv (State.init : State ι numChecks σ) :=
  ⟨nofun, nofun, nofun⟩

theorem Inv.references_pos (inv : Inv s) (points : s.handles h = some a)
    (found : s.heap.lookup a = some avl) : 1 ≤ avl.references := by
  have bound := inv.counted a avl found {h} fun other member => by
    rw [Finset.mem_singleton.mp member]
    exact points
  rwa [Finset.card_singleton] at bound

variable [DecidableEq ι]

theorem Inv.sole (inv : Inv s) (points : s.handles h = some a)
    (found : s.heap.lookup a = some avl) (single : avl.references = 1) {other : ι}
    (different : other ≠ h) : s.handles other ≠ some a := by
  intro shared
  have bound := inv.counted a avl found {other, h} fun sharer member => by
    rcases Finset.mem_insert.mp member with rfl | rest
    · exact shared
    · rw [Finset.mem_singleton.mp rest]
      exact points
  rw [Finset.card_pair different, single] at bound
  omega

/-- Handles that still point to a tree after another one was moved away. -/
theorem Inv.counted_release (inv : Inv s) (points : s.handles h = some a)
    (found : s.heap.lookup a = some avl) {target : Option Addr} (moved : target ≠ some a)
    (sharers : Finset ι)
    (all : ∀ other ∈ sharers, Function.update s.handles h target other = some a) :
    sharers.card + 1 ≤ avl.references := by
  have absent : h ∉ sharers := by
    intro member
    have at_h := all h member
    rw [update_self] at at_h
    exact moved at_h
  rw [← Finset.card_insert_of_notMem absent]
  refine inv.counted a avl found _ ?_
  intro other member
  rcases Finset.mem_insert.mp member with rfl | inside
  · exact points
  · have still := all other inside
    have different : other ≠ h := by
      rintro rfl
      exact absent inside
    rwa [update_of_ne different] at still

end Heap

section Parts

variable {s : State ι numChecks σ} {h : ι} {a : Addr} {avl new : Stree numChecks σ}
variable {handles : ι → Option Addr}

/-- A tree is written and some pointers to it change. -/
theorem Inv.insert (inv : Inv s) (ok : Ok new)
    (kept : ∀ other b, b ≠ a → handles other = some b → s.handles other = some b)
    (bound : ∀ sharers : Finset ι, (∀ other ∈ sharers, handles other = some a) →
      sharers.card ≤ new.references) : Inv ⟨s.heap.insert a new, handles⟩ := by
  refine ⟨?_, ?_, ?_⟩
  · intro b tree found
    by_cases here : b = a
    · subst here
      change (s.heap.insert b new).lookup b = some tree at found
      rw [Finmap.lookup_insert] at found
      rw [← Option.some.inj found]
      exact ok
    · change (s.heap.insert a new).lookup b = some tree at found
      rw [Finmap.lookup_insert_of_ne _ here] at found
      exact inv.ok b tree found
  · intro other b points
    by_cases here : b = a
    · subst here
      exact ⟨new, Finmap.lookup_insert _⟩
    · obtain ⟨tree, found⟩ := inv.live other b (kept other b here points)
      exact ⟨tree, (Finmap.lookup_insert_of_ne _ here).trans found⟩
  · intro b tree found sharers all
    by_cases here : b = a
    · subst here
      change (s.heap.insert b new).lookup b = some tree at found
      rw [Finmap.lookup_insert] at found
      rw [← Option.some.inj found]
      exact bound sharers all
    · change (s.heap.insert a new).lookup b = some tree at found
      rw [Finmap.lookup_insert_of_ne _ here] at found
      exact inv.counted b tree found sharers fun other member =>
        kept other b here (all other member)

theorem view_insert (points : handles h = some a) :
    (⟨s.heap.insert a new, handles⟩ : State ι numChecks σ).view h = new.root.inorder :=
  view_some points (Finmap.lookup_insert _)

/-- A handle that keeps its pointer keeps its states, unless they are those that change. -/
theorem view_insert_kept (kept : handles h = s.handles h)
    (same : s.handles h = some a → new.root.inorder = s.tree a) :
    (⟨s.heap.insert a new, handles⟩ : State ι numChecks σ).view h = s.view h := by
  refine view_congr kept ?_
  intro b points
  by_cases here : b = a
  · subst here
    exact (tree_eq (Finmap.lookup_insert _)).trans (same points)
  · unfold State.tree
    rw [Finmap.lookup_insert_of_ne _ here]

variable [DecidableEq ι]

def Others (h : ι) (s s' : State ι numChecks σ) : Prop :=
  ∀ other, other ≠ h → s'.view other = s.view other

/-- A pointer that `update` did not write is an old one. -/
theorem update_kept {target : Option Addr} (other : ι) (b : Addr) (moved : target ≠ some b)
    (points : Function.update s.handles h target other = some b) : s.handles other = some b := by
  by_cases same : other = h
  · rw [same, update_self] at points
    exact absurd points moved
  · rwa [update_of_ne same] at points

theorem alloc_points (malloc : Finset Addr → Addr) (s : State ι numChecks σ) (h : ι)
    (new : Stree numChecks σ) :
    (s.alloc malloc h new).handles h = some (malloc s.heap.keys) ∧
      (s.alloc malloc h new).heap.lookup (malloc s.heap.keys) = some new :=
  ⟨update_self .., Finmap.lookup_insert _⟩

/-- The pointer that the new one replaces does not matter. -/
theorem alloc_update (malloc : Finset Addr → Addr) (heap : Finmap fun _ : Addr => Stree numChecks σ)
    (handles : ι → Option Addr) (h : ι) (target : Option Addr) (new : Stree numChecks σ) :
    State.alloc malloc ⟨heap, Function.update handles h target⟩ h new =
      State.alloc malloc ⟨heap, handles⟩ h new := by
  simp only [State.alloc, update_idem]

theorem Inv.alloc {malloc : Finset Addr → Addr} (fresh : ∀ live, malloc live ∉ live) (inv : Inv s)
    (ok : Ok new) (single : new.references = 1) :
    Inv (s.alloc malloc h new) ∧ (s.alloc malloc h new).view h = new.root.inorder ∧
      Others h s (s.alloc malloc h new) := by
  have elsewhere : ∀ other, s.handles other ≠ some (malloc s.heap.keys) := by
    intro other points
    obtain ⟨avl, found⟩ := inv.live other _ points
    exact fresh _ (Finmap.mem_keys.mpr (Finmap.mem_of_lookup_eq_some found))
  refine ⟨inv.insert ok ?_ ?_, view_insert (update_self ..), ?_⟩
  · intro other b different points
    exact update_kept other b (fun same => different (Option.some.inj same).symm) points
  · intro sharers all
    rw [single]
    refine Finset.card_le_one.mpr ?_
    have only : ∀ other ∈ sharers, other = h := by
      intro other member
      by_contra different
      have points := all other member
      rw [update_of_ne different] at points
      exact elsewhere other points
    intro one first two second
    rw [only one first, only two second]
  · intro other different
    exact view_insert_kept (update_of_ne different ..) fun points =>
      absurd points (elsewhere other)

/-- A handle gives its reference back and the tree stays. -/
theorem Inv.release (inv : Inv s) (points : s.handles h = some a)
    (found : s.heap.lookup a = some avl) :
    let s' : State ι numChecks σ :=
      ⟨s.heap.insert a { avl with references := avl.references - 1 },
        Function.update s.handles h none⟩
    Inv s' ∧ s'.view h = [] ∧ Others h s s' := by
  have ok := inv.ok a avl found
  intro s'
  refine ⟨inv.insert ⟨ok.balanced, ok.sorted, ok.counted, ok.checks, ok.owners⟩ ?_ ?_,
    view_none (update_self ..), ?_⟩
  · exact fun other b _ points => update_kept other b (Option.some_ne_none b).symm points
  · intro sharers all
    exact Nat.le_sub_one_of_lt
      (inv.counted_release points found (Option.some_ne_none a).symm sharers all)
  · intro other different
    exact view_insert_kept (update_of_ne different ..) fun _ => (tree_eq found).symm

/-- The last handle of a tree gives it back. -/
theorem Inv.erase (inv : Inv s) (points : s.handles h = some a)
    (found : s.heap.lookup a = some avl) (single : avl.references = 1) :
    let s' : State ι numChecks σ := ⟨s.heap.erase a, Function.update s.handles h none⟩
    Inv s' ∧ s'.view h = [] ∧ Others h s s' := by
  intro s'
  have gone : ∀ other b, s'.handles other = some b → s.handles other = some b ∧ b ≠ a := by
    intro other b target
    have different : other ≠ h := by
      rintro rfl
      change Function.update s.handles other none other = some b at target
      rw [update_self] at target
      cases target
    have old := update_kept other b (Option.some_ne_none b).symm target
    refine ⟨old, ?_⟩
    rintro rfl
    exact inv.sole points found single different old
  have kept : ∀ b, b ≠ a → s'.heap.lookup b = s.heap.lookup b :=
    fun b different => Finmap.lookup_erase_ne different
  have stays : ∀ b tree, s'.heap.lookup b = some tree → b ≠ a := by
    rintro b tree present rfl
    change (s.heap.erase b).lookup b = some tree at present
    rw [Finmap.lookup_erase] at present
    cases present
  refine ⟨⟨?_, ?_, ?_⟩, view_none (update_self ..), ?_⟩
  · intro b tree present
    have different := stays b tree present
    rw [kept b different] at present
    exact inv.ok b tree present
  · intro other b target
    obtain ⟨old, different⟩ := gone other b target
    obtain ⟨tree, present⟩ := inv.live other b old
    exact ⟨tree, (kept b different).trans present⟩
  · intro b tree present sharers all
    rw [kept b (stays b tree present)] at present
    exact inv.counted b tree present sharers fun other member => (gone other b (all other member)).1
  · intro other different
    refine view_congr (update_of_ne different ..) ?_
    intro b target
    have apart : b ≠ a := by
      rintro rfl
      exact inv.sole points found single different target
    unfold State.tree
    rw [kept b apart]

theorem freeStree_spec (inv : Inv s) (h : ι) :
    ∃ s', freeStree s h = some s' ∧ Inv s' ∧ s'.view h = [] ∧ Others h s s' := by
  unfold freeStree
  cases points : s.handles h with
  | none => exact ⟨s, rfl, inv, view_none points, fun _ _ => rfl⟩
  | some a =>
    obtain ⟨avl, found⟩ := inv.live h a points
    have positive := inv.references_pos points found
    simp only [found, Option.bind_eq_bind, Option.bind_some]
    rw [if_neg (by omega)]
    by_cases last : avl.references - 1 = 0
    · rw [if_neg (not_not.mpr last)]
      exact ⟨_, rfl, inv.erase points found (by omega)⟩
    · rw [if_pos last]
      exact ⟨_, rfl, inv.release points found⟩

/-- After the check for sharing the handle has a tree of its own. -/
theorem unshare_spec {malloc : Finset Addr → Addr} (fresh : ∀ live, malloc live ∉ live)
    (inv : Inv s) (points : s.handles h = some a) :
    ∃ s' a' avl', unshare malloc s h = some s' ∧ Inv s' ∧ s'.handles h = some a' ∧
      s'.heap.lookup a' = some avl' ∧ avl'.references = 1 ∧ avl'.root.inorder = s.view h ∧
      Others h s s' := by
  obtain ⟨avl, found⟩ := inv.live h a points
  have positive := inv.references_pos points found
  unfold unshare
  simp only [points, found, Option.bind_eq_bind, Option.bind_some]
  by_cases shared : avl.references > 1
  · obtain ⟨new, copied, ok, single, same⟩ := cloneStreeReal_spec (inv.ok a avl found)
    obtain ⟨released, -, others⟩ := inv.release points found
    obtain ⟨result, -, others'⟩ := @Inv.alloc _ _ _ _ h new _ malloc fresh released ok single
    rw [alloc_update] at result others'
    obtain ⟨target, stored⟩ :=
      alloc_points malloc (s.store a { avl with references := avl.references - 1 }) h new
    refine ⟨_, _, new, ?_, result, target, stored, single,
      same.trans (view_some points found).symm, ?_⟩
    · rw [if_pos shared, copied]
      rfl
    · exact fun other different => (others' other different).trans (others other different)
  · rw [if_neg shared]
    exact ⟨s, a, avl, rfl, inv, points, found, by omega, (view_some points found).symm,
      fun _ _ => rfl⟩

theorem Inv.mutate (inv : Inv s) (points : s.handles h = some a)
    (found : s.heap.lookup a = some avl) (single : avl.references = 1) (ok : Ok new)
    (references : new.references = avl.references) :
    Inv (s.store a new) ∧ (s.store a new).view h = new.root.inorder ∧
      Others h s (s.store a new) := by
  refine ⟨inv.insert ok (fun _ _ _ old => old) ?_, view_insert points, ?_⟩
  · intro sharers all
    rw [references]
    exact inv.counted a avl found sharers all
  · intro other different
    exact view_insert_kept rfl fun shared => absurd shared (inv.sole points found single different)

/-! ## The operations -/

theorem avlInsert_spec {malloc : Finset Addr → Addr} (fresh : ∀ live, malloc live ∉ live)
    (inv : Inv s) (h : ι) (sm : SmState numChecks σ) :
    ∃ s', avlInsert malloc s h sm = some ((SortedMap.find key (s.view h) (key sm)).isNone, s') ∧
      Inv s' ∧ s'.view h = SortedMap.insert key sm (s.view h) ∧ Others h s s' := by
  -- First the handle gets a tree, if it has none.
  obtain ⟨s₁, made, inv₁, ⟨a₁, points₁⟩, view₁, others₁⟩ : ∃ s₁,
      (if (s.handles h).isNone then s.alloc malloc h avlNew else s) = s₁ ∧ Inv s₁ ∧
        (∃ a, s₁.handles h = some a) ∧ s₁.view h = s.view h ∧ Others h s s₁ := by
    cases points : s.handles h with
    | none =>
      obtain ⟨made, view, others⟩ := @Inv.alloc _ _ _ s h avlNew _ malloc fresh inv avlNew_ok rfl
      refine ⟨_, rfl, made, ⟨_, (alloc_points malloc s h avlNew).1⟩, ?_, others⟩
      rw [view_none points]
      exact view
    | some a => exact ⟨s, rfl, inv, ⟨a, points⟩, rfl, fun _ _ => rfl⟩
  obtain ⟨s₂, a, avl, own, inv₂, points, found, single, states, others₂⟩ :=
    unshare_spec fresh inv₁ points₁
  have ok := inv₂.ok a avl found
  obtain ⟨inserted, references, order⟩ := insertInto_ok ok sm
  obtain ⟨result, view, others₃⟩ := inv₂.mutate points found single inserted references
  rw [view₁] at states
  refine ⟨s₂.store a (insertInto avl sm), ?_, result, ?_, ?_⟩
  · unfold avlInsert
    simp only [made, own, points, found, Option.bind_eq_bind, Option.bind_some, Option.some.injEq,
      Prod.mk.injEq, and_true]
    rw [inserted.counted, ok.counted, order, ok.sorted.length_insert, states]
    cases SortedMap.find key (s.view h) (key sm) with
    | none => simp
    | some _ => simp
  · rw [view, order, states]
  · intro other different
    rw [others₃ other different, others₂ other different, others₁ other different]

theorem avlRemove_spec {malloc : Finset Addr → Addr} (fresh : ∀ live, malloc live ∉ live)
    (inv : Inv s) (h : ι) (sm : SmState numChecks σ) :
    ∃ s', avlRemove malloc s h sm = some ((SortedMap.find key (s.view h) (key sm)).isSome, s') ∧
      Inv s' ∧ s'.view h = SortedMap.erase key (key sm) (s.view h) ∧ Others h s s' := by
  cases points : s.handles h with
  | none =>
    refine ⟨s, ?_, inv, ?_, fun _ _ => rfl⟩
    · unfold avlRemove
      rw [points, view_none points]
      rfl
    · rw [view_none points]
      rfl
  | some a₁ =>
    obtain ⟨s₁, a, avl, own, inv₁, target, found, single, states, others₁⟩ :=
      unshare_spec fresh inv points
    have ok := inv₁.ok a avl found
    cases outcome : removeSm avl.count sm avl.root with
    | mk count rest =>
      obtain ⟨root, removed, shrank⟩ := rest
      obtain ⟨written, order, ret⟩ := removeSm_ok ok outcome
      obtain ⟨inv₂, view, others₂⟩ := inv₁.mutate target found single written rfl
      change _ = root.inorder at view
      rw [order, states] at view
      have fields : avlRemove malloc s h sm =
          (if count = 0 then freeStree (s₁.store a { avl with count := count, root := root }) h
            else some (s₁.store a { avl with count := count, root := root })).bind
              fun s' => some ((SortedMap.find key (s.view h) (key sm)).isSome, s') := by
        unfold avlRemove
        rw [points, if_neg (by simp)]
        simp only [own, target, found, outcome, Option.bind_eq_bind, Option.bind_some, ret, states]
        split_ifs <;> rfl
      rw [fields]
      by_cases empty : count = 0
      · -- The last state is gone, and so is the tree.
        obtain ⟨s', freed, inv', none, others'⟩ := freeStree_spec inv₂ h
        refine ⟨s', ?_, inv', ?_, ?_⟩
        · rw [if_pos empty, freed]
          rfl
        · rw [none, ← states, ← order]
          exact (length_eq_zero_iff.mp (written.counted.symm.trans empty)).symm
        · intro other different
          rw [others' other different, others₂ other different, others₁ other different]
      · refine ⟨_, by rw [if_neg empty]; rfl, inv₂, view, ?_⟩
        intro other different
        rw [others₂ other different, others₁ other different]

theorem cloneStree_spec (inv : Inv s) (dst src : ι) :
    ∃ s', cloneStree s dst src = some s' ∧ Inv s' ∧ s'.view dst = s.view src ∧ Others dst s s' := by
  unfold cloneStree
  cases points : s.handles src with
  | none =>
    refine ⟨_, rfl, ⟨inv.ok, ?_, ?_⟩, ?_, ?_⟩
    · intro other b target
      exact inv.live other b (update_kept other b (Option.some_ne_none b).symm target)
    · intro b tree found sharers all
      exact inv.counted b tree found sharers fun other member =>
        update_kept other b (Option.some_ne_none b).symm (all other member)
    · rw [view_none points]
      exact view_none (update_self ..)
    · intro other different
      exact view_congr (update_of_ne different ..) fun _ _ => rfl
  | some a =>
    obtain ⟨avl, found⟩ := inv.live src a points
    have ok := inv.ok a avl found
    simp only [found, Option.bind_eq_bind, Option.bind_some]
    refine ⟨_, rfl, inv.insert ⟨ok.balanced, ok.sorted, ok.counted, ok.checks, ok.owners⟩ ?_ ?_,
      ?_, ?_⟩
    · intro other b different target
      exact update_kept other b (fun same => different (Option.some.inj same).symm) target
    · -- Without the new pointer they are the sharers from before.
      intro sharers all
      have before := inv.counted a avl found (sharers.erase dst) fun other member => by
        obtain ⟨different, inside⟩ := Finset.mem_erase.mp member
        have target := all other inside
        rwa [update_of_ne different] at target
      have fewer := Finset.pred_card_le_card_erase (s := sharers) (a := dst)
      change sharers.card ≤ avl.references + 1
      omega
    · rw [view_some points found]
      exact view_insert (update_self ..)
    · intro other different
      exact view_insert_kept (update_of_ne different ..) fun _ => (tree_eq found).symm

end Parts

/-! ## What a handle shows -/

abbrev Map (numChecks : Nat) (σ : Type) := Key → Option (SmState numChecks σ)

structure Behaves (s : State ι numChecks σ) (h : ι) (map : Map numChecks σ) : Prop where
  lookup : ∀ sm, avlLookup s h sm = some (map (key sm))
  count : streeCount s h = some {k | map k ≠ none}.ncard
  traverse : ∃ root list, rootOf s h = some root ∧ avlTraverse root .forward = some list ∧
    avlTraverse root .backward = some list.reverse ∧
    list.Pairwise (fun one two => cmpTracker (some one) (some two) < 0) ∧
    (∀ sm, sm ∈ list ↔ map (key sm) = some sm) ∧
    (list.length < 2 ^ 64 → ∀ direction iter, Iterates root direction iter →
      iter.stack.length < 100)
  invariants : ∀ a avl, s.handles h = some a → s.heap.lookup a = some avl →
    avlCheckInvariants avl = true

section Behaviour

variable {s : State ι numChecks σ}

def State.maps (s : State ι numChecks σ) (h : ι) : Map numChecks σ := SortedMap.find key (s.view h)

theorem avlLookup_spec (inv : Inv s) (h : ι) (sm : SmState numChecks σ) :
    avlLookup s h sm = some (s.maps h (key sm)) := by
  unfold avlLookup State.maps
  cases points : s.handles h with
  | none =>
    rw [view_none points]
    rfl
  | some a =>
    obtain ⟨avl, found⟩ := inv.live h a points
    have ok := inv.ok a avl found
    rw [view_some points found]
    simp only [found, Option.bind_eq_bind, Option.bind_some]
    split_ifs with filtered
    · -- No state of this owner was ever inserted.
      congr 1
      refine (SortedMap.find_eq_none.mpr ?_).symm
      intro other member same
      have owner : other.owner = sm.owner := congrArg (fun k => (ofLex k).1) same
      have flag := ok.owners other member (by rw [owner]; exact filtered.1)
      rw [owner, filtered.2] at flag
      cases flag
    · rw [lookup_spec sm ok.sorted]

theorem behaves_of_inv (inv : Inv s) (h : ι) : Behaves s h (s.maps h) := by
  obtain ⟨root, count, rooted, counted, balanced, sorted, order⟩ : ∃ root count,
      rootOf s h = some root ∧ streeCount s h = some count ∧ root.Balanced ∧
        SortedMap.Sorted key root.inorder ∧ root.inorder = s.view h ∧
          count = root.inorder.length := by
    unfold rootOf streeCount
    cases points : s.handles h with
    | none => exact ⟨_, _, rfl, rfl, trivial, .nil, (view_none points).symm, rfl⟩
    | some a =>
      obtain ⟨avl, found⟩ := inv.live h a points
      have ok := inv.ok a avl found
      refine ⟨avl.root, avl.count, ?_, ?_, ok.balanced, ok.sorted, (view_some points found).symm,
        ok.counted⟩
      · simp only [found, Option.map_some]
      · simp only [found, Option.map_some]
  obtain ⟨states, size⟩ := order
  refine ⟨avlLookup_spec inv h, ?_, ⟨root, root.inorder, rooted, ?_, ?_, ?_, ?_, ?_⟩, ?_⟩
  · rw [counted, size, ← sorted.ncard_find, states]
    rfl
  · rw [avlTraverse_spec, walk_eq]
  · rw [avlTraverse_spec, walk_eq]
  · exact sorted.imp fun less => (cmpTracker_neg _ _).mpr less
  · intro sm
    rw [sorted.mem_iff_find, states]
    rfl
  · exact fun small direction iter iterates => iterates.stack_lt balanced small
  · exact fun a avl _ found => (inv.ok a avl found).avlCheckInvariants

end Behaviour

/-! ## Independent maps -/

variable [DecidableEq ι]

/-- What a call means when every handle is a map of its own. -/
def specStep (maps : ι → Map numChecks σ) :
    Op ι numChecks σ → Result numChecks σ × (ι → Map numChecks σ)
  | .clone dst src => (.done, Function.update maps dst (maps src))
  | .insert h sm =>
    (.changed (maps h (key sm)).isNone,
      Function.update maps h (Function.update (maps h) (key sm) (some sm)))
  | .remove h sm =>
    (.changed (maps h (key sm)).isSome,
      Function.update maps h (Function.update (maps h) (key sm) none))
  | .lookup h sm => (.found (maps h (key sm)), maps)
  | .free h => (.done, Function.update maps h fun _ => none)

def specRun (maps : ι → Map numChecks σ) :
    List (Op ι numChecks σ) → List (Result numChecks σ) × (ι → Map numChecks σ)
  | [] => ([], maps)
  | op :: ops =>
    let (result, maps) := specStep maps op
    let (results, maps) := specRun maps ops
    (result :: results, maps)

section Simulation

variable {s : State ι numChecks σ}

theorem maps_update {s s' : State ι numChecks σ} {h : ι} {map : Map numChecks σ}
    (changed : s'.maps h = map) (others : Others h s s') :
    s'.maps = Function.update s.maps h map := by
  funext other
  by_cases same : other = h
  · rw [same, update_self, changed]
  · rw [update_of_ne same]
    unfold State.maps
    rw [others other same]

theorem exec_refines {malloc : Finset Addr → Addr} (fresh : ∀ live, malloc live ∉ live)
    (inv : Inv s) (op : Op ι numChecks σ) :
    ∃ s', exec malloc s op = some ((specStep s.maps op).1, s') ∧ Inv s' ∧
      s'.maps = (specStep s.maps op).2 := by
  cases op with
  | clone dst src =>
    obtain ⟨s', done, inv', view, others⟩ := cloneStree_spec inv dst src
    refine ⟨s', by rw [exec, done]; rfl, inv', maps_update ?_ others⟩
    unfold State.maps
    rw [view]
  | insert h sm =>
    obtain ⟨s', done, inv', view, others⟩ := avlInsert_spec fresh inv h sm
    refine ⟨s', by rw [exec, done]; rfl, inv', maps_update ?_ others⟩
    funext k
    unfold State.maps
    rw [view, SortedMap.find_insert]
    by_cases same : key sm = k
    · rw [if_pos same, same, update_self]
    · rw [if_neg same, update_of_ne (Ne.symm same)]
  | remove h sm =>
    obtain ⟨s', done, inv', view, others⟩ := avlRemove_spec fresh inv h sm
    refine ⟨s', by rw [exec, done]; rfl, inv', maps_update ?_ others⟩
    funext k
    unfold State.maps
    rw [view, SortedMap.find_erase]
    by_cases same : key sm = k
    · rw [if_pos same, same, update_self]
    · rw [if_neg same, update_of_ne (Ne.symm same)]
  | lookup h sm =>
    refine ⟨s, ?_, inv, rfl⟩
    rw [exec, avlLookup_spec inv]
    rfl
  | free h =>
    obtain ⟨s', done, inv', view, others⟩ := freeStree_spec inv h
    refine ⟨s', by rw [exec, done]; rfl, inv', maps_update ?_ others⟩
    unfold State.maps
    rw [view]
    rfl

theorem run_refines {malloc : Finset Addr → Addr} (fresh : ∀ live, malloc live ∉ live)
    (inv : Inv s) (ops : List (Op ι numChecks σ)) :
    ∃ s', run malloc s ops = some ((specRun s.maps ops).1, s') ∧ Inv s' ∧
      s'.maps = (specRun s.maps ops).2 := by
  induction ops generalizing s with
  | nil => exact ⟨s, rfl, inv, rfl⟩
  | cons op ops ih =>
    obtain ⟨s₁, first, inv₁, maps₁⟩ := exec_refines fresh inv op
    obtain ⟨s₂, rest, inv₂, maps₂⟩ := ih inv₁
    refine ⟨s₂, ?_, inv₂, ?_⟩
    · rw [run, first]
      simp only [Option.bind_eq_bind, Option.bind_some, rest]
      rw [maps₁]
      rfl
    · rw [maps₂, maps₁]
      rfl

end Simulation

/-- After every history, on any handles in any interleaving, the calls returned what
independent maps would have returned, and every handle behaves as its map. -/
theorem handles_independent {malloc : Finset Addr → Addr} (fresh : ∀ live, malloc live ∉ live)
    (ops : List (Op ι numChecks σ)) :
    ∃ s, run malloc State.init ops = some ((specRun (fun _ _ => none) ops).1, s) ∧
      ∀ h, Behaves s h ((specRun (fun _ _ => none) ops).2 h) := by
  have empty : (State.init : State ι numChecks σ).maps = fun _ _ => none := rfl
  obtain ⟨s, ran, inv, maps⟩ :=
    run_refines fresh (Inv.init : Inv (State.init : State ι numChecks σ)) ops
  rw [empty] at ran maps
  refine ⟨s, ran, ?_⟩
  intro h
  rw [← maps]
  exact behaves_of_inv inv h

def bump (live : Finset Addr) : Addr := live.sup id + 1

theorem bump_fresh (live : Finset Addr) : bump live ∉ live := by
  intro member
  exact Nat.not_succ_le_self _ (Finset.le_sup (f := id) member)

/-- Two states of one key and a state of the owner `USHRT_MAX` without a symbol. -/
def firstSm : SmState 4 Nat := ⟨[97], some 8, 3, 10, 1, by decide⟩
def secondSm : SmState 4 Nat := ⟨[97], some 8, 3, 11, 2, by decide⟩
def nullSm : SmState 4 Nat := ⟨[98], none, ushrtMax, 12, 3, by decide⟩

def sharing : List (Op Nat 4 Nat) :=
  [.insert 0 firstSm, .clone 1 0, .insert 1 secondSm, .insert 0 nullSm, .lookup 0 secondSm,
    .lookup 1 firstSm, .remove 1 firstSm, .lookup 1 firstSm, .lookup 0 firstSm, .free 0]

theorem handles_independent_sharing :
    (∀ live, bump live ∉ live) ∧
      (specRun (fun _ _ => none) sharing).1 =
        [.changed true, .done, .changed false, .changed true, .found (some firstSm),
          .found (some secondSm), .changed true, .found none, .found (some firstSm), .done] ∧
      ∃ s, run bump State.init sharing = some ((specRun (fun _ _ => none) sharing).1, s) ∧
        ∀ h, Behaves s h ((specRun (fun _ _ => none) sharing).2 h) :=
  ⟨bump_fresh, by decide, handles_independent bump_fresh sharing⟩

end SmatchFormal.Stree
