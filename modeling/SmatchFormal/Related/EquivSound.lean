import SmatchFormal.Related.Equiv
import Mathlib.Order.Fin.Basic

/-!
# Related lists over runs

Where each step meets its condition, saved strees keep what is seen through them, and the lists of
the marked keys stay mutual.
-/

namespace SmatchFormal.Related

open SmatchFormal.Lib List Function

variable {Key V : Type} [LinearOrder Key] {saved : List (Stree Key)} {world : World Key V}

/-! ## The invariant -/

def World.Mutual (world : World Key V) : Prop :=
  Lib.Mutual (fun key => world.own key = true) world.related

structure Invariant (saved : List (Stree Key)) (start world : World Key V) : Prop where
  current : world.heap.Holds world.cur
  stored : ∀ stree ∈ saved, world.heap.Holds stree
  frozen : ∀ stree ∈ saved, ∀ key,
    seenRelated world.heap stree key = seenRelated start.heap stree key
  present : ∀ key, world.own key = true → world.Present key
  matched : world.Mutual

omit [LinearOrder Key] in
theorem Start.invariant (start : Start saved world) : Invariant saved world world where
  current := start.current
  stored := start.stored
  frozen _ _ _ := rfl
  present key own := by
    rw [start.unmarked key] at own
    cases own
  matched first second own := by
    have marked : world.own first = true := own
    rw [start.unmarked first] at marked
    cases marked

/-- A marked key after a change of the marks is one that was marked. -/
theorem own_release {key other : Key} (own : (release key world).own other = true) :
    other ≠ key ∧ world.own other = true := by
  change Function.update world.own key false other = true at own
  by_cases same : other = key
  · subst same
    rw [update_self] at own
    cases own
  · rw [update_of_ne same] at own
    exact ⟨same, own⟩

namespace Invariant

variable {start : World Key V}

theorem release (invariant : Invariant saved start world) (key : Key) :
    Invariant saved start (release key world) where
  current := invariant.current
  stored := invariant.stored
  frozen := invariant.frozen
  present _ own := invariant.present _ (own_release own).2
  matched := invariant.matched.mono fun _ own => (own_release own).2

theorem place (invariant : Invariant saved start world) (key : Key) (estate : Estate Key V) :
    Invariant saved start (place key estate world) where
  current := (invariant.current.alloc estate).update
    ((ObjectHeap.next_alloc estate).symm ▸ Nat.lt_succ_self world.heap.next)
  stored stree member := (invariant.stored stree member).alloc estate
  frozen stree member key := by
    rw [← invariant.frozen stree member key]
    exact ObjectHeap.seen_alloc (invariant.stored stree member) estate
  present other own := by
    obtain ⟨different, old⟩ := own_release own
    have known := invariant.present other old
    change (Function.update world.cur key (some world.heap.next) other).isSome = true
    rw [update_of_ne different]
    exact known
  matched := by
    have related (other : Key) (different : other ≠ key) :
        (Related.place key estate world).related other = world.related other := by
      change (ObjectHeap.seen Estate.related (world.heap.alloc estate)
        (Function.update world.cur key (some world.heap.next)) other).getD [] = _
      rw [ObjectHeap.seen_update_other _ different, ObjectHeap.seen_alloc invariant.current]
      rfl
    intro first second one two different
    obtain ⟨first', one⟩ := own_release one
    obtain ⟨second', two⟩ := own_release two
    rw [related first first', related second second']
    exact invariant.matched first second one two different

end Invariant

section Update

variable {toUpdate : List Key}

theorem updateRelated_absent {rel : Key} (absent : world.cur rel = none) :
    updateRelated toUpdate world rel = world := by
  unfold updateRelated
  rw [absent]

theorem updateRelated_present {rel : Key} {address : Nat} (named : world.cur rel = some address) :
    updateRelated toUpdate world rel =
      { world with
        heap := world.heap.edit address fun estate => { estate with related := toUpdate }
        own := Function.update world.own rel true } := by
  unfold updateRelated
  rw [named]

structure Updated (toUpdate list : List Key) (world world' : World Key V) : Prop where
  cur : world'.cur = world.cur
  next : world'.heap.next = world.heap.next
  apart : ∀ address, (∀ rel ∈ list, world.cur rel ≠ some address) →
    world'.heap.read address = world.heap.read address
  edited : ∀ address, (∃ rel ∈ list, world.cur rel = some address) →
    (world'.heap.read address).map Estate.related =
      (world.heap.read address).map fun _ => toUpdate
  own : ∀ key, world'.own key = true ↔
    world.own key = true ∨ (key ∈ list ∧ world.Present key)

theorem updateRelated_fold (list : List Key) (world : World Key V) :
    Updated toUpdate list world (list.foldl (updateRelated toUpdate) world) := by
  induction list generalizing world with
  | nil =>
    refine ⟨rfl, rfl, fun _ _ => rfl, ?_, ?_⟩
    · rintro address ⟨rel, member, -⟩
      cases member
    · intro key
      exact ⟨Or.inl, fun either => either.resolve_right fun both => (by cases both.1)⟩
  | cons rel list ih =>
    rw [foldl_cons]
    cases named : world.cur rel with
    | none =>
      rw [updateRelated_absent named]
      have later := ih world
      refine ⟨later.cur, later.next, ?_, ?_, ?_⟩
      · intro address other
        exact later.apart address fun key member => other key (mem_cons_of_mem rel member)
      · rintro address ⟨key, member, has⟩
        refine later.edited address ⟨key, ?_, has⟩
        rcases mem_cons.mp member with rfl | inside
        · rw [named] at has
          cases has
        · exact inside
      · intro key
        rw [later.own key, mem_cons]
        constructor
        · rintro (own | ⟨inside, there⟩)
          · exact Or.inl own
          · exact Or.inr ⟨Or.inr inside, there⟩
        · rintro (own | ⟨rfl | inside, there⟩)
          · exact Or.inl own
          · unfold World.Present at there
            rw [named] at there
            cases there
          · exact Or.inr ⟨inside, there⟩
    | some address =>
      rw [updateRelated_present named]
      have later := ih { world with
        heap := world.heap.edit address fun estate => { estate with related := toUpdate }
        own := Function.update world.own rel true }
      refine ⟨later.cur, later.next.trans (ObjectHeap.next_edit _ _), ?_, ?_, ?_⟩
      · intro other outside
        rw [later.apart other fun key member => outside key (mem_cons_of_mem rel member)]
        refine ObjectHeap.read_edit_other _ ?_
        rintro rfl
        exact outside rel mem_cons_self named
      · intro other inside
        by_cases again : ∃ key ∈ list, world.cur key = some other
        · rw [later.edited other again]
          by_cases same : address = other
          · subst same
            change ((world.heap.edit address _).read address).map _ = _
            rw [ObjectHeap.read_edit_same, Option.map_map]
            rfl
          · change ((world.heap.edit address _).read other).map _ = _
            rw [ObjectHeap.read_edit_other _ same]
        · have once : ∀ key ∈ list, world.cur key ≠ some other := fun key member has =>
            again ⟨key, member, has⟩
          rw [later.apart other once]
          obtain ⟨key, member, has⟩ := inside
          have first : key = rel := by
            rcases mem_cons.mp member with same | inside
            · exact same
            · exact absurd has (once key inside)
          subst first
          rw [named] at has
          obtain rfl := Option.some.inj has
          change ((world.heap.edit address _).read address).map _ = _
          rw [ObjectHeap.read_edit_same, Option.map_map]
          rfl
      · intro key
        rw [later.own key, mem_cons]
        change (Function.update world.own rel true key = true ∨
          (key ∈ list ∧ world.Present key)) ↔ _
        by_cases same : key = rel
        · subst same
          rw [update_self]
          have there : world.Present key := by
            unfold World.Present
            rw [named]
            rfl
          exact iff_of_true (Or.inl rfl) (Or.inr ⟨Or.inl rfl, there⟩)
        · rw [update_of_ne same]
          simp only [same, false_or]

end Update

theorem Invariant.remove {start : World Key V} (invariant : Invariant saved start world) {key : Key}
    (meets : RemoveMeets saved world key) : Invariant saved start (removeFromEquiv key world) := by
  unfold removeFromEquiv
  by_cases alone : world.related key = []
  · rw [if_pos alone]
    exact invariant
  rw [if_neg alone]
  obtain ⟨unshared, separate⟩ := meets
  unfold Unshared at unshared
  generalize delRelated (world.related key) key = list at unshared separate ⊢
  have updated := @updateRelated_fold _ _ _ list list world
  generalize list.foldl (updateRelated list) world = world' at updated ⊢
  have holds : ∀ stree : Stree Key, world.heap.Holds stree → world'.heap.Holds stree :=
    fun stree old => old.mono (Nat.le_of_eq updated.next.symm)
  have there (other : Key) : world'.Present other ↔ world.Present other := by
    unfold World.Present
    rw [updated.cur]
  refine ⟨?_, fun stree member => holds stree (invariant.stored stree member), ?_, ?_, ?_⟩
  · rw [updated.cur]
    exact holds _ invariant.current
  · intro stree member other
    rw [← invariant.frozen stree member other]
    refine ObjectHeap.seen_of_read fun address named =>
      updated.apart address fun rel inside has => ?_
    exact (unshared rel inside address has).1 stree member other named
  · intro other own
    rw [there]
    rcases (updated.own other).mp own with old | both
    · exact invariant.present other old
    · exact both.2
  · refine Lib.Mutual.join invariant.matched separate invariant.present ⟨?_, ?_, ?_⟩
    · intro other inside present
      obtain ⟨address, named⟩ := Option.isSome_iff_exists.mp present
      obtain ⟨estate, read⟩ := ObjectHeap.exists_read (invariant.current other address named)
      have edited := updated.edited address ⟨other, inside, named⟩
      rw [read] at edited
      change (((world'.cur other).bind fun address =>
        (world'.heap.read address).map Estate.related)).getD [] = list
      rw [updated.cur, named, Option.bind_some, edited]
      rfl
    · intro other own outside
      have present := invariant.present other own
      change (seenRelated world'.heap world'.cur other).getD [] = world.related other
      rw [updated.cur]
      refine congrArg (fun seen => Option.getD seen [])
        (ObjectHeap.seen_of_read fun address named => ?_)
      refine updated.apart address fun rel inside has => ?_
      exact outside ⟨(unshared rel inside address has).2 other named, present⟩
    · intro other own
      exact (updated.own other).mp own

section Join

variable {rlist : List Key}

structure Joined (rlist list : List Key) (world world' : World Key V) : Prop where
  next : world.heap.next ≤ world'.heap.next
  current : world'.heap.Holds world'.cur
  old : ∀ address < world.heap.next, world'.heap.read address = world.heap.read address
  present : ∀ key, world'.Present key ↔ world.Present key
  outside : ∀ key, ¬ (key ∈ list ∧ world.Present key) →
    world'.cur key = world.cur key ∧ world'.own key = world.own key
  inside : ∀ key ∈ list, world.Present key →
    seenRelated world'.heap world'.cur key = some rlist ∧ world'.own key = true

theorem joinRelated_present (holds : world.heap.Holds world.cur) {rel : Key}
    (there : world.Present rel) :
    ∃ estate : Estate Key V, joinRelated rlist world rel =
      { heap := world.heap.alloc { estate with related := rlist }
        cur := Function.update world.cur rel (some world.heap.next)
        own := Function.update world.own rel true } := by
  obtain ⟨address, named⟩ := Option.isSome_iff_exists.mp there
  obtain ⟨estate, read⟩ := ObjectHeap.exists_read (holds rel address named)
  refine ⟨estate, ?_⟩
  unfold joinRelated
  rw [named, Option.bind_some, read]

theorem joinRelated_absent {rel : Key} (absent : ¬ world.Present rel) :
    joinRelated rlist world rel = world := by
  have none : world.cur rel = none := Option.not_isSome_iff_eq_none.mp absent
  unfold joinRelated
  rw [none]
  rfl

theorem joinRelated_fold (list : List Key) (world : World Key V)
    (holds : world.heap.Holds world.cur) :
    Joined rlist list world (list.foldl (joinRelated rlist) world) := by
  induction list generalizing world with
  | nil =>
    refine ⟨Nat.le_refl _, holds, fun _ _ => rfl, fun _ => Iff.rfl, fun _ _ => ⟨rfl, rfl⟩, ?_⟩
    intro key member
    cases member
  | cons rel list ih =>
    rw [foldl_cons]
    by_cases there : world.Present rel
    · obtain ⟨estate, step⟩ := @joinRelated_present _ _ _ _ rlist holds rel there
      have stepped :
          (joinRelated rlist world rel).heap.Holds (joinRelated rlist world rel).cur := by
        rw [step]
        exact (holds.alloc _).update
          ((ObjectHeap.next_alloc _).symm ▸ Nat.lt_succ_self world.heap.next)
      have later := ih (joinRelated rlist world rel) stepped
      have grown : world.heap.next ≤ (joinRelated rlist world rel).heap.next := by
        rw [step]
        exact (ObjectHeap.next_alloc _).symm ▸ Nat.le_succ world.heap.next
      have same (key : Key) : (joinRelated rlist world rel).Present key ↔ world.Present key := by
        rw [step]
        change (Function.update world.cur rel (some world.heap.next) key).isSome = true ↔ _
        by_cases equal : key = rel
        · subst equal
          rw [update_self]
          exact iff_of_true rfl there
        · rw [update_of_ne equal]
          rfl
      refine ⟨Nat.le_trans grown later.next, later.current, ?_, ?_, ?_, ?_⟩
      · intro address before
        rw [later.old address (Nat.lt_of_lt_of_le before grown), step]
        exact ObjectHeap.read_alloc_old _ before
      · intro key
        rw [later.present key, same key]
      · intro key out
        have different : key ≠ rel := by
          rintro rfl
          exact out ⟨mem_cons_self, there⟩
        have rest : ¬ (key ∈ list ∧ (joinRelated rlist world rel).Present key) := by
          rintro ⟨member, present⟩
          exact out ⟨mem_cons_of_mem rel member, (same key).mp present⟩
        obtain ⟨cur, own⟩ := later.outside key rest
        rw [cur, own, step]
        exact ⟨update_of_ne different _ _, update_of_ne different _ _⟩
      · intro key member present
        by_cases again : key ∈ list
        · exact later.inside key again ((same key).mpr present)
        · have first : key = rel := (mem_cons.mp member).resolve_right again
          subst first
          obtain ⟨cur, own⟩ := later.outside key fun both => again both.1
          have named : (joinRelated rlist world key).cur key = some world.heap.next := by
            rw [step]
            exact update_self _ _ _
          have inside : world.heap.next < (joinRelated rlist world key).heap.next := by
            rw [step]
            exact (ObjectHeap.next_alloc _).symm ▸ Nat.lt_succ_self world.heap.next
          have read : (joinRelated rlist world key).heap.read world.heap.next =
              some { estate with related := rlist } := by
            rw [step]
            exact ObjectHeap.read_alloc_new _
          constructor
          · unfold seenRelated ObjectHeap.seen
            rw [cur, named, Option.bind_some, later.old _ inside, read]
            rfl
          · rw [own, step]
            exact update_self _ _ _
    · rw [joinRelated_absent there]
      have later := ih world holds
      refine ⟨later.next, later.current, later.old, later.present, ?_, ?_⟩
      · intro key out
        refine later.outside key ?_
        rintro ⟨member, present⟩
        exact out ⟨mem_cons_of_mem rel member, present⟩
      · intro key member present
        refine later.inside key ?_ present
        rcases mem_cons.mp member with rfl | inside
        · exact absurd present there
        · exact inside

end Join

namespace Invariant

variable {start : World Key V}

/-- The loop of `set_equiv` where no other marked key names a key of the list. -/
theorem join (invariant : Invariant saved start world) {list : List Key}
    (separate : Separate world list) :
    Invariant saved start (list.foldl (joinRelated list) world) := by
  have joined := @joinRelated_fold _ _ _ list list world invariant.current
  generalize list.foldl (joinRelated list) world = world' at joined ⊢
  refine ⟨joined.current, fun stree member => (invariant.stored stree member).mono joined.next,
    ?_, ?_, ?_⟩
  · intro stree member key
    rw [← invariant.frozen stree member key]
    exact ObjectHeap.seen_of_read fun address named =>
      joined.old address (invariant.stored stree member key address named)
  · intro key own
    rw [joined.present]
    by_cases inside : key ∈ list ∧ world.Present key
    · exact inside.2
    · rw [(joined.outside key inside).2] at own
      exact invariant.present key own
  · refine Lib.Mutual.join invariant.matched separate invariant.present ⟨?_, ?_, ?_⟩
    · intro key inside present
      unfold World.related
      rw [(joined.inside key inside present).1]
      rfl
    · intro key _ outside
      unfold World.related seenRelated
      refine congrArg (fun seen => Option.getD seen []) ?_
      unfold ObjectHeap.seen
      rw [(joined.outside key outside).1]
      cases named : world.cur key with
      | none => rfl
      | some address =>
        rw [Option.bind_some, Option.bind_some,
          joined.old address (invariant.current key address named)]
    · intro key own
      by_cases inside : key ∈ list ∧ world.Present key
      · exact Or.inr inside
      · rw [(joined.outside key inside).2] at own
        exact Or.inl own

/-! ## The functions -/

theorem nested (invariant : Invariant saved start world) {list : List (Nested Key V)}
    (meets : NestedMeets saved world list) :
    Invariant saved start (list.foldl Nested.run world) := by
  induction list generalizing world with
  | nil => exact invariant
  | cons nested list ih =>
    rw [foldl_cons]
    refine ih ?_ meets.2
    cases nested with
    | modify key value => exact ((invariant.release key).remove meets.1).place key ⟨value, []⟩
    | write key estate => exact invariant.place key estate

section

variable (invariant : Invariant saved start world)
include invariant

theorem helper {key : Key} {nested : List (Nested Key V)}
    (meets : HelperMeets saved world key nested) (value : V) :
    Invariant saved start (setExtraModHelper key value nested world) :=
  (((invariant.release key).remove meets.removes).nested meets.nested).place key ⟨value, []⟩

theorem right (assignment : Assignment Key V) :
    Invariant saved start (rightSm assignment world).2 := by
  unfold rightSm
  split
  · exact invariant
  · exact invariant.place assignment.right ⟨assignment.fresh, []⟩

theorem sides {cast : V → V} {assignment : Assignment Key V}
    (meets : AssignMeets saved world cast assignment) :
    Invariant saved start (setSides cast assignment world) := by
  have left := (invariant.right assignment).helper meets.left
  unfold setSides
  dsimp only
  cases named : assignment.other with
  | none => exact left _
  | some other => exact (left _).helper (meets.other other named) _

theorem step {op : Op Key V} (meets : op.Meets saved world) :
    Invariant saved start (op.run world) := by
  cases op with
  | assign cast assignment => exact (invariant.sides meets).join meets.separate
  | remove key => exact invariant.remove meets

end

theorem run (invariant : Invariant saved start world) {ops : List (Op Key V)}
    (meets : Meets saved world ops) : Invariant saved start (run world ops) := by
  induction ops generalizing world with
  | nil => exact invariant
  | cons op ops ih => exact ih (invariant.step meets.1) meets.2

end Invariant

/-! ## The result -/

/-- In a run whose steps meet their conditions, saved strees keep the lists that are seen through
them, and the lists of the marked keys are mutual. -/
theorem run_related (start : Start saved world) {ops : List (Op Key V)}
    (meets : Meets saved world ops) :
    (∀ stree ∈ saved, ∀ key,
      seenRelated (run world ops).heap stree key = seenRelated world.heap stree key) ∧
      ∀ first second, (run world ops).own first = true → (run world ops).own second = true →
        first ≠ second →
          (second ∈ (run world ops).related first ↔ first ∈ (run world ops).related second) := by
  have invariant := start.invariant.run meets
  exact ⟨invariant.frozen, invariant.matched⟩

def sampleAssign (left right : Fin 3) : Op (Fin 3) Unit :=
  .assign id ⟨left, right, none, (), [], []⟩

/-- A saved stree shares the estate of the key 1 with the current one. -/
def sharedWorld : World (Fin 3) Unit where
  heap := ⟨[⟨(), []⟩]⟩
  cur key := if key = 1 then some 0 else none
  own _ := false

theorem sharedWorld_holds : sharedWorld.heap.Holds sharedWorld.cur := by
  intro key address named
  have only : (if key = 1 then some 0 else none) = some address := named
  split_ifs at only
  obtain rfl := Option.some.inj only
  exact Nat.one_pos

theorem sharedWorld_start : Start [sharedWorld.cur] sharedWorld where
  current := sharedWorld_holds
  stored stree member := by
    rw [mem_singleton.mp member]
    exact sharedWorld_holds
  unmarked _ := rfl

/-- The second assignment removes the key 0 from the list of the key 1. -/
def twoAssigns : List (Op (Fin 3) Unit) := [sampleAssign 0 1, sampleAssign 0 2]

theorem sharedWorld_meets : Meets [sharedWorld.cur] sharedWorld twoAssigns := by
  refine ⟨⟨⟨⟨?_, ?_⟩, trivial⟩, fun other same => (by cases same), ?_⟩,
    ⟨⟨⟨?_, ?_⟩, trivial⟩, fun other same => (by cases same), ?_⟩, trivial⟩
  · unfold Unshared
    decide
  · unfold Separate Apart
    decide
  · unfold Separate Apart
    decide
  · unfold Unshared
    decide
  · unfold Separate Apart
    decide
  · unfold Separate Apart
    decide

theorem run_related_shared :
    (∀ stree ∈ [sharedWorld.cur], ∀ key,
      seenRelated (run sharedWorld twoAssigns).heap stree key =
        seenRelated sharedWorld.heap stree key) ∧
      ∀ first second, (run sharedWorld twoAssigns).own first = true →
        (run sharedWorld twoAssigns).own second = true → first ≠ second →
          (second ∈ (run sharedWorld twoAssigns).related first ↔
            first ∈ (run sharedWorld twoAssigns).related second) :=
  run_related sharedWorld_start sharedWorld_meets

def pairWorld : World (Fin 3) Unit where
  heap := ⟨[⟨(), [0, 1]⟩, ⟨(), [0, 1]⟩]⟩
  cur key := if key = 2 then none else some key.val
  own _ := false

def emptyWorld : World (Fin 3) Unit := ⟨⟨[]⟩, fun _ => none, fun _ => false⟩

/-- A removed key disappears from the lists that are seen through a saved stree.  It keeps its own
list, which still names the keys that forgot it. -/
theorem remove_leaks :
    seenRelated pairWorld.heap pairWorld.cur 1 = some [0, 1] ∧
      seenRelated (run pairWorld [.remove 0]).heap pairWorld.cur 1 = some [1] ∧
      (∀ key : Fin 3, key = 0 ∨ key = 1 →
        (run emptyWorld [sampleAssign 0 1, .remove 0]).own key = true) ∧
      (run emptyWorld [sampleAssign 0 1, .remove 0]).related 0 = [0, 1] ∧
      (run emptyWorld [sampleAssign 0 1, .remove 0]).related 1 = [1] := by
  decide

end SmatchFormal.Related
