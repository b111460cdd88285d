import SmatchFormal.Liveness.Usages

/-!
# The lists are exact

The propagation ends since the lists only grow, and its result is the liveness of a function in
static single assignment form, as far as the instructions that are overlooked do no harm.
-/

namespace SmatchFormal.Liveness

open List

variable {Block : Type}

/-! ## One round -/

structure Lists.Grows (lists later : Lists Block) : Prop where
  defines : later.defines = lists.defines
  kept : ∀ bb pseudo, pseudo ∈ lists.needs bb → pseudo ∈ later.needs bb
  quiet : later.changed = false → later = lists
  loud : lists.changed = false → later.changed = true →
    ∃ bb pseudo, pseudo ∉ lists.needs bb ∧ pseudo ∈ later.needs bb

namespace Lists.Grows

variable {lists middle later : Lists Block}

theorem refl (lists : Lists Block) : lists.Grows lists where
  defines := rfl
  kept := fun _ _ member => member
  quiet := fun _ => rfl
  loud := fun no yes => absurd (no.symm.trans yes) Bool.false_ne_true

theorem trans (first : lists.Grows middle) (second : middle.Grows later) : lists.Grows later where
  defines := second.defines.trans first.defines
  kept := fun bb pseudo member => second.kept bb pseudo (first.kept bb pseudo member)
  quiet := fun no => by
    have same := second.quiet no
    rw [same] at no ⊢
    exact first.quiet no
  loud := fun no yes => by
    cases change : middle.changed with
    | true =>
      obtain ⟨bb, pseudo, absent, present⟩ := first.loud no change
      exact ⟨bb, pseudo, absent, second.kept bb pseudo present⟩
    | false =>
      obtain ⟨bb, pseudo, absent, present⟩ := second.loud change yes
      exact ⟨bb, pseudo, fun member => absent (first.kept bb pseudo member), present⟩

theorem addNeed [DecidableEq Block] (lists : Lists Block) (bb : Block) (pseudo : Pseudo) :
    lists.Grows (lists.addNeed bb pseudo) where
  defines := by
    unfold Lists.addNeed
    split <;> rfl
  kept := fun _ _ member => needs_addNeed.mpr (.inl member)
  quiet := fun no => by
    unfold Lists.addNeed at no ⊢
    split at no
    next inside => rw [if_pos inside]
    next => cases no
  loud := fun no yes => by
    refine ⟨bb, pseudo, fun inside => ?_, needs_addNeed.mpr (.inr ⟨rfl, rfl⟩)⟩
    rw [Lists.addNeed, if_pos inside] at yes
    exact Bool.false_ne_true (no.symm.trans yes)

variable {α : Type} {step : Lists Block → α → Lists Block}

theorem foldl (grows : ∀ (lists : Lists Block) entry, lists.Grows (step lists entry))
    (list : List α)
    (lists : Lists Block) : lists.Grows (list.foldl step lists) := by
  induction list generalizing lists with
  | nil => exact refl lists
  | cons entry list ih => exact (grows lists entry).trans (ih _)

/-- When the flag is still clear at the end, no step did anything. -/
theorem foldl_quiet (grows : ∀ (lists : Lists Block) entry, lists.Grows (step lists entry))
    {list : List α} {lists : Lists Block} (quiet : (list.foldl step lists).changed = false) :
    ∀ entry ∈ list, step lists entry = lists := by
  induction list generalizing lists with
  | nil =>
    intro entry member
    cases member
  | cons first list ih =>
    have rest := (foldl grows list (step lists first)).quiet quiet
    have same : step lists first = lists := by
      refine (grows lists first).quiet ?_
      rw [← rest]
      exact quiet
    intro entry member
    obtain rfl | later := mem_cons.mp member
    · exact same
    · rw [foldl_cons, same] at quiet
      exact ih quiet entry later

end Lists.Grows

section Rounds

variable [DecidableEq Block] {f : Function Block} {lists : Lists Block}

def Lists.passed (needs : Pseudo) (lists : Lists Block) (parent : Block) : Lists Block :=
  if needs ∈ lists.defines parent then lists else lists.addNeed parent needs

def Lists.passedUp (f : Function Block) (bb : Block) (lists : Lists Block) (needs : Pseudo) :
    Lists Block :=
  (f.parents bb).foldl (Lists.passed needs) lists

theorem Lists.passed_grows (needs : Pseudo) (lists : Lists Block) (parent : Block) :
    lists.Grows (lists.passed needs parent) := by
  unfold Lists.passed
  split
  · exact Lists.Grows.refl lists
  · exact Lists.Grows.addNeed lists parent needs

theorem Lists.passedUp_grows (f : Function Block) (bb : Block) (lists : Lists Block)
    (needs : Pseudo) : lists.Grows (lists.passedUp f bb needs) :=
  Lists.Grows.foldl (Lists.passed_grows needs) _ lists

theorem Lists.trackBbLiveness_grows (f : Function Block) (lists : Lists Block) (bb : Block) :
    lists.Grows (lists.trackBbLiveness f bb) :=
  Lists.Grows.foldl (Lists.passedUp_grows f bb) (lists.needs bb) lists

def Lists.cleared (lists : Lists Block) : Lists Block := { lists with changed := false }

theorem Lists.round_grows (f : Function Block) (lists : Lists Block) :
    lists.cleared.Grows (lists.round f) :=
  Lists.Grows.foldl (Lists.trackBbLiveness_grows f) f.bbs.reverse lists.cleared

/-- After a round that changes nothing, what a block needs is needed or defined in its parents. -/
theorem Lists.closed_of_quiet (quiet : (lists.round f).changed = false) {bb parent : Block}
    {needs : Pseudo} (inside : bb ∈ f.bbs) (edge : parent ∈ f.parents bb)
    (member : needs ∈ lists.needs bb) :
    needs ∈ lists.defines parent ∨ needs ∈ lists.needs parent := by
  have block : lists.cleared.trackBbLiveness f bb = lists.cleared :=
    Lists.Grows.foldl_quiet (Lists.trackBbLiveness_grows f) quiet bb (mem_reverse.mpr inside)
  have pseudo : lists.cleared.passedUp f bb needs = lists.cleared := by
    refine Lists.Grows.foldl_quiet (Lists.passedUp_grows f bb) ?_ needs member
    exact congrArg Lists.changed block
  have pair : lists.cleared.passed needs parent = lists.cleared := by
    refine Lists.Grows.foldl_quiet (Lists.passed_grows needs) ?_ parent edge
    exact congrArg Lists.changed pseudo
  unfold Lists.passed Lists.addNeed at pair
  split at pair
  next defined => exact .inl defined
  next =>
    split at pair
    next needed => exact .inr needed
    next => exact absurd (congrArg Lists.changed pair).symm Bool.false_ne_true

def Function.needed (f : Function Block) : List Pseudo := f.bbs.flatMap f.usages.needs

/-- The needs are live and the definitions are those of the first loop. -/
structure Lists.Sound (f : Function Block) (lists : Lists Block) : Prop where
  live : ∀ bb ∈ f.bbs, ∀ pseudo ∈ lists.needs bb,
    pseudo.trackable = true ∧ f.LiveSeen bb pseudo
  known : ∀ bb pseudo, pseudo ∈ lists.needs bb → bb ∈ f.bbs ∧ pseudo ∈ f.needed
  defines : lists.defines = f.usages.defines

omit [DecidableEq Block] in
/-- A property that every step keeps is kept by the loop. -/
theorem foldl_keeps {α : Type} {step : Lists Block → α → Lists Block}
    (Good : Lists Block → Prop) {list : List α}
    (keeps : ∀ lists, Good lists → ∀ entry ∈ list, Good (step lists entry))
    (good : Good lists) : Good (list.foldl step lists) := by
  induction list generalizing lists with
  | nil => exact good
  | cons entry list ih =>
    refine ih (fun lists good later member => ?_) (keeps lists good entry mem_cons_self)
    exact keeps lists good later (mem_cons_of_mem _ member)

theorem Lists.Sound.addNeed (sound : lists.Sound f) {bb : Block} {pseudo : Pseudo}
    (inside : bb ∈ f.bbs) (needed : pseudo ∈ f.needed)
    (live : pseudo.trackable = true ∧ f.LiveSeen bb pseudo) :
    (lists.addNeed bb pseudo).Sound f where
  live := fun b known other member => by
    obtain old | ⟨rfl, rfl⟩ := needs_addNeed.mp member
    · exact sound.live b known other old
    · exact live
  known := fun b other member => by
    obtain old | ⟨rfl, rfl⟩ := needs_addNeed.mp member
    · exact sound.known b other old
    · exact ⟨inside, needed⟩
  defines := (Lists.Grows.addNeed lists bb pseudo).defines.trans sound.defines

theorem Lists.Sound.trackBbLiveness (formed : f.WellFormed) (sound : lists.Sound f) {bb : Block}
    (inside : bb ∈ f.bbs) : (lists.trackBbLiveness f bb).Sound f := by
  refine foldl_keeps (Lists.Sound f) (fun current good needs member => ?_) sound
  refine foldl_keeps (Lists.Sound f) (fun current good parent edge => ?_) good
  split
  next => exact good
  next undefined =>
    have known := formed.parentsIn bb inside parent edge
    have live := sound.live bb inside needs member
    refine good.addNeed known (sound.known bb needs member).2
      ⟨live.1, .along (fun assigned => undefined ?_)
        ((formed.mirrored parent known bb inside).mp edge) live.2⟩
    rw [good.defines]
    exact (defines_usages known).mpr assigned

theorem Lists.Sound.round (formed : f.WellFormed) (sound : lists.Sound f) :
    (lists.round f).Sound f := by
  have cleared : lists.cleared.Sound f := ⟨sound.live, sound.known, sound.defines⟩
  refine foldl_keeps (Lists.Sound f) (fun current good bb member => ?_) cleared
  exact good.trackBbLiveness formed (mem_reverse.mp member)

theorem usages_sound (formed : f.WellFormed) : f.usages.Sound f where
  live := fun bb inside pseudo member => by
    obtain ⟨tracked, exposed⟩ := (needs_usages formed inside).mp member
    exact ⟨tracked, .here exposed⟩
  known := fun bb pseudo member => by
    have inside : bb ∈ f.bbs := by
      obtain no | ⟨touched, -⟩ := needs_touches.mp member
      · cases no
      · obtain ⟨b, known, within⟩ := mem_flatMap.mp touched
        obtain ⟨insn, -, tracked⟩ := mem_touches.mp within
        rw [(use_mem_track.mp tracked).1]
        exact known
    exact ⟨inside, mem_flatMap.mpr ⟨bb, inside, member⟩⟩
  defines := rfl

end Rounds

section Loop

variable [DecidableEq Block] {f : Function Block} {lists : Lists Block}

theorem propagate_succ (fuel : Nat) : lists.propagate f (fuel + 1) =
    if (lists.round f).changed then (lists.round f).propagate f fuel else some (lists.round f) :=
  rfl

def Lists.filled (f : Function Block) (lists : Lists Block) : Nat :=
  (Backflow.entries f.bbs.toFinset f.needed.toFinset fun bb pseudo =>
    decide (pseudo ∈ lists.needs bb)).card

/-- A round that changes something fills the table further. -/
theorem filled_lt (formed : f.WellFormed) (sound : lists.Sound f)
    (changed : (lists.round f).changed = true) : lists.filled f < (lists.round f).filled f := by
  have grows := Lists.round_grows f lists
  obtain ⟨bb, pseudo, absent, present⟩ := grows.loud rfl changed
  obtain ⟨inside, needed⟩ := (sound.round formed).known bb pseudo present
  refine Backflow.card_entries_lt (fun b other member => ?_) (mem_toFinset.mpr inside)
    (mem_toFinset.mpr needed) (decide_eq_false absent) (decide_eq_true present)
  exact decide_eq_true (grows.kept b other (of_decide_eq_true member))

/-- The loop ends within as many rounds as the table has entries left, and one more. -/
theorem propagate_ends (formed : f.WellFormed) (fuel : Nat) (sound : lists.Sound f)
    (enough : (f.bbs.toFinset ×ˢ f.needed.toFinset).card < lists.filled f + fuel) :
    ∃ result, lists.propagate f fuel = some result := by
  induction fuel generalizing lists with
  | zero => exact absurd enough (Nat.not_lt.mpr (Backflow.card_entries_le _ _ _))
  | succ fuel ih =>
    rw [propagate_succ]
    split
    next changed =>
      have more := filled_lt formed sound changed
      exact ih (sound.round formed) (by omega)
    next => exact ⟨_, rfl⟩

/-- The needs are closed under the flow when the loop ends. -/
theorem propagate_closed (formed : f.WellFormed) {fuel : Nat} {result : Lists Block}
    (sound : lists.Sound f) (run : lists.propagate f fuel = some result) :
    result.Sound f ∧ (∀ bb pseudo, pseudo ∈ lists.needs bb → pseudo ∈ result.needs bb) ∧
      ∀ bb ∈ f.bbs, ∀ parent ∈ f.parents bb, ∀ needs ∈ result.needs bb,
        needs ∈ result.defines parent ∨ needs ∈ result.needs parent := by
  induction fuel generalizing lists with
  | zero => cases run
  | succ fuel ih =>
    rw [propagate_succ] at run
    have grows := Lists.round_grows f lists
    split at run
    next changed =>
      obtain ⟨good, kept, closed⟩ := ih (sound.round formed) run
      exact ⟨good, fun bb pseudo member => kept bb pseudo (grows.kept bb pseudo member), closed⟩
    next unchanged =>
      cases run
      have quiet := Bool.eq_false_iff.mpr unchanged
      refine ⟨sound.round formed, grows.kept, fun bb inside parent edge needs member => ?_⟩
      rw [grows.quiet quiet] at member ⊢
      exact Lists.closed_of_quiet quiet inside edge member

/-- The lists are those of the instructions that are looked at. -/
theorem track_seen (formed : f.WellFormed) {fuel : Nat} {result : Lists Block}
    (run : trackPseudoLiveness f fuel = some result) {bb : Block} (inside : bb ∈ f.bbs)
    (pseudo : Pseudo) :
    (pseudo ∈ result.needs bb ↔ pseudo.trackable = true ∧ f.LiveSeen bb pseudo) ∧
      (pseudo ∈ result.defines bb ↔
        f.AssignedSeen bb pseudo ∧ ∃ child ∈ f.children bb, pseudo ∈ result.needs child) := by
  obtain ⟨lists, loop, rfl⟩ := Option.map_eq_some_iff.mp run
  obtain ⟨sound, kept, closed⟩ := propagate_closed formed (usages_sound formed) loop
  constructor
  · refine ⟨fun member => sound.live bb inside pseudo member, fun live => ?_⟩
    obtain ⟨tracked, flow⟩ := live
    refine Backflow.Flows.within
      (fun bb pseudo => pseudo.trackable = true → pseudo ∈ lists.needs bb) (fun bb => bb ∈ f.bbs)
      formed.childrenIn ?_ ?_ flow inside tracked
    · intro b other known exposed tracked
      exact kept b other ((needs_usages formed known).mpr ⟨tracked, exposed⟩)
    · intro b child other known edge member unassigned tracked
      have childIn := formed.childrenIn b known child edge
      have parent := (formed.mirrored b known child childIn).mpr edge
      refine (closed child childIn b parent other (member tracked)).resolve_left fun defined => ?_
      rw [sound.defines] at defined
      exact unassigned ((defines_usages known).mp defined)
  · show pseudo ∈ (if bb ∈ f.bbs then _ else _) ↔ _
    rw [if_pos inside, mem_filter, any_eq_true, sound.defines, defines_usages inside]
    refine and_congr_right fun _ => ?_
    constructor
    · rintro ⟨child, edge, member⟩
      exact ⟨child, edge, of_decide_eq_true member⟩
    · rintro ⟨child, edge, member⟩
      exact ⟨child, edge, decide_eq_true member⟩

theorem track_ends (formed : f.WellFormed) :
    ∃ fuel result, trackPseudoLiveness f fuel = some result := by
  obtain ⟨result, loop⟩ := propagate_ends formed
    ((f.bbs.toFinset ×ˢ f.needed.toFinset).card + 1) (usages_sound formed) (by omega)
  exact ⟨_, _, congrArg (Option.map _) loop⟩

end Loop

section Overlooked

variable {f : Function Block} {bb : Block} {pseudo : Pseudo}

theorem Function.AssignedSeen.assigned (seen : f.AssignedSeen bb pseudo) :
    f.Assigned bb pseudo :=
  seen.imp_left fun ⟨insn, member, _, write⟩ => ⟨insn, member, write⟩

theorem Function.ExposedSeen.exposed (seen : f.ExposedSeen bb pseudo) : f.Exposed bb pseudo := by
  obtain ⟨before, insn, after, whole, -, read, first⟩ := seen
  exact ⟨before, insn, after, whole, read, first⟩

theorem Function.WellFormed.trackable_of_assigned (formed : f.WellFormed) (inside : bb ∈ f.bbs)
    (assigned : f.Assigned bb pseudo) : pseudo.trackable = true := by
  obtain ⟨insn, member, write⟩ | ⟨b, known, phiList, nr, member, -, -⟩ := assigned
  · obtain ⟨nr, rfl, -, -⟩ := formed.writes bb inside insn member pseudo write
    rfl
  · obtain ⟨target, rfl, -⟩ := formed.phis b known pseudo phiList member
    rfl

theorem Function.Harmless.liveSeen (harmless : f.Harmless) (formed : f.WellFormed)
    (live : f.Live bb pseudo) (inside : bb ∈ f.bbs) (tracked : pseudo.trackable = true) :
    f.LiveSeen bb pseudo := by
  refine Backflow.Flows.within (fun bb pseudo => pseudo.trackable = true → f.LiveSeen bb pseudo)
    (fun bb => bb ∈ f.bbs) formed.childrenIn ?_ ?_ live inside tracked
  · rintro b other known ⟨before, insn, after, whole, read, first⟩ tracked
    cases seen : insn.overlooked with
    | false => exact .here ⟨before, insn, after, whole, seen, read, first⟩
    | true =>
      have fine := (harmless b known before insn after whole seen).1 other read tracked
      refine fine.resolve_left ?_
      rintro ⟨earlier, member, write⟩
      exact first earlier member write
  · intro b child other known edge later unassigned tracked
    exact .along (fun seen => unassigned seen.assigned) edge (later tracked)

theorem Function.Harmless.assignedSeen (harmless : f.Harmless) (inside : bb ∈ f.bbs)
    (assigned : f.Assigned bb pseudo) {child : Block} (edge : child ∈ f.children bb)
    (live : f.Live child pseudo) : f.AssignedSeen bb pseudo := by
  obtain ⟨insn, member, write⟩ | source := assigned
  · cases seen : insn.overlooked with
    | false => exact .inl ⟨insn, member, seen, write⟩
    | true =>
      obtain ⟨before, after, whole⟩ := append_of_mem member
      exact (harmless bb inside before insn after whole seen).2 pseudo write ⟨child, edge, live⟩
  · exact .inr source

theorem Function.Harmless.live (harmless : f.Harmless) (formed : f.WellFormed)
    (seen : f.LiveSeen bb pseudo) (inside : bb ∈ f.bbs) : f.Live bb pseudo := by
  refine Backflow.Flows.within f.Live (fun bb => bb ∈ f.bbs) formed.childrenIn ?_ ?_ seen inside
  · intro b other known exposed
    exact .here exposed.exposed
  · intro b child other known edge later unassigned
    exact .along (fun assigned => unassigned (harmless.assignedSeen known assigned edge later))
      edge later

variable [DecidableEq Block]

/-- The result of the loops is exact when the instructions that are overlooked do no harm. -/
theorem exact_of_harmless (formed : f.WellFormed) (harmless : f.Harmless) {fuel : Nat}
    {lists : Lists Block} (run : trackPseudoLiveness f fuel = some lists) : lists.Exact f where
  needs := fun bb inside pseudo => by
    rw [(track_seen formed run inside pseudo).1]
    refine and_congr_right fun tracked => ⟨fun seen => harmless.live formed seen inside, ?_⟩
    exact fun live => harmless.liveSeen formed live inside tracked
  defines := fun bb inside pseudo => by
    rw [(track_seen formed run inside pseudo).2]
    constructor
    · rintro ⟨seen, child, edge, member⟩
      have known := formed.childrenIn bb inside child edge
      have live := ((track_seen formed run known pseudo).1.mp member).2
      exact ⟨seen.assigned, child, edge, harmless.live formed live known⟩
    · rintro ⟨assigned, child, edge, live⟩
      have known := formed.childrenIn bb inside child edge
      have tracked := formed.trackable_of_assigned inside assigned
      refine ⟨harmless.assignedSeen inside assigned edge live, child, edge, ?_⟩
      exact (track_seen formed run known pseudo).1.mpr
        ⟨tracked, harmless.liveSeen formed live known tracked⟩

theorem harmless_of_exact (formed : f.WellFormed) {fuel : Nat} {lists : Lists Block}
    (run : trackPseudoLiveness f fuel = some lists) (exact : lists.Exact f) : f.Harmless := by
  intro bb inside before insn after whole _
  constructor
  · intro pseudo read tracked
    by_cases earlier : ∃ other, some other ∈ before ∧ pseudo ∈ other.writes
    · exact .inl earlier
    · have live : f.Live bb pseudo := .here ⟨before, insn, after, whole, read,
        fun other member write => earlier ⟨other, member, write⟩⟩
      have needed := (exact.needs bb inside pseudo).mpr ⟨tracked, live⟩
      exact .inr ((track_seen formed run inside pseudo).1.mp needed).2
  · rintro pseudo write child
    have member : some insn ∈ f.insns bb := by
      rw [whole]
      exact mem_append_right _ mem_cons_self
    have defined := (exact.defines bb inside pseudo).mpr ⟨.inl ⟨insn, member, write⟩, child⟩
    exact ((track_seen formed run inside pseudo).2.mp defined).1

/-- The lists of the needed and of the defined pseudos are right exactly when the instructions that
`track_instruction_usage` overlooks do no harm. -/
theorem tracksRight_iff (formed : f.WellFormed) : f.TracksRight ↔ f.Harmless := by
  constructor
  · rintro ⟨fuel, lists, run, exact⟩
    exact harmless_of_exact formed run exact
  · intro harmless
    obtain ⟨fuel, lists, run⟩ := track_ends formed
    exact ⟨fuel, lists, run, exact_of_harmless formed harmless run⟩

end Overlooked

section OneBlock

def returning (insn : Insn) : Function Unit where
  bbs := [()]
  insns := fun _ => [some insn, some (.ret (.reg 1))]
  parents := fun _ => []
  children := fun _ => []
  defBb := fun nr => if nr = 1 then some () else none
  defIsPhi := fun _ => false
  phiBb := fun _ => none

theorem returning_wellFormed {insn : Insn} (writes : insn.writes = [.reg 1])
    (reads : ∀ nr, .reg nr ∉ insn.reads) : (returning insn).WellFormed where
  mirrored := fun a _ b _ => iff_of_false not_mem_nil not_mem_nil
  parentsIn := fun b _ a member => by cases member
  childrenIn := fun b _ c member => by cases member
  writes := fun b _ other member pseudo write => by
    obtain same | member := mem_cons.mp member
    · cases same
      rw [writes] at write
      exact ⟨1, mem_singleton.mp write, rfl, rfl⟩
    · cases mem_singleton.mp member
      cases write
  phis := fun b _ target phiList member => by
    obtain same | member := mem_cons.mp member
    · cases same
      cases writes
    · cases mem_singleton.mp member
  sources := fun b _ target phiList member nr source bb found => by cases found
  ordered := fun b _ before other after whole nr read defined _ => by
    cases before with
    | nil =>
      cases whole
      exact absurd read (reads nr)
    | cons first before =>
      cases before with
      | nil =>
        cases whole
        cases mem_singleton.mp read
        refine ⟨insn, mem_cons_self, ?_⟩
        rw [writes]
        exact mem_cons_self
      | cons second before =>
        have length := congrArg List.length whole
        simp [returning] at length

def sum : Insn := .binary (.arg 1) (.arg 2) (.reg 1)

theorem tracksRight_iff_sum : (returning sum).WellFormed ∧
    ((returning sum).TracksRight ↔ (returning sum).Harmless) := by
  have formed : (returning sum).WellFormed :=
    returning_wellFormed rfl (by simp [sum, Insn.reads])
  exact ⟨formed, tracksRight_iff formed⟩

/-- The arguments of a fused multiplication and addition are not needed. -/
theorem fmadd_not_tracksRight :
    (returning (.fmadd (.arg 1) (.arg 2) (.arg 3) (.reg 1))).WellFormed ∧
      ¬ (returning (.fmadd (.arg 1) (.arg 2) (.arg 3) (.reg 1))).TracksRight := by
  refine ⟨returning_wellFormed rfl (by simp [Insn.reads]), ?_⟩
  rintro ⟨fuel, lists, run, exact⟩
  cases fuel with
  | zero => cases run
  | succ fuel =>
    cases run
    have needed := (exact.needs () mem_cons_self (.arg 1)).mpr
      ⟨rfl, .here ⟨[], _, _, rfl, mem_cons_self, fun other member => by cases member⟩⟩
    cases needed

end OneBlock

end SmatchFormal.Liveness
