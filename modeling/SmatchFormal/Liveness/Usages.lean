import SmatchFormal.Liveness.Track

/-!
# Uses and definitions of the blocks

What the first loop of `track_pseudo_liveness` collects for a function in static single assignment
form: the pseudos that an instruction it looks at exposes or assigns.
-/

namespace SmatchFormal.Liveness

open List

variable {Block : Type}

/-- A function in static single assignment form, with the lists of both ends of its edges. -/
structure Function.WellFormed (f : Function Block) : Prop where
  mirrored : ∀ a ∈ f.bbs, ∀ b ∈ f.bbs, a ∈ f.parents b ↔ b ∈ f.children a
  parentsIn : ∀ b ∈ f.bbs, ∀ a ∈ f.parents b, a ∈ f.bbs
  childrenIn : ∀ b ∈ f.bbs, ∀ c ∈ f.children b, c ∈ f.bbs
  writes : ∀ b ∈ f.bbs, ∀ insn, some insn ∈ f.insns b → ∀ pseudo ∈ insn.writes,
    ∃ nr, pseudo = .reg nr ∧ f.defBb nr = some b ∧ f.defIsPhi nr = false
  phis : ∀ b ∈ f.bbs, ∀ target phiList, some (.phi target phiList) ∈ f.insns b →
    ∃ nr, target = .reg nr ∧ f.defIsPhi nr = true
  sources : ∀ b ∈ f.bbs, ∀ target phiList, some (.phi target phiList) ∈ f.insns b →
    ∀ nr, .phi nr ∈ phiList → ∀ bb, f.phiBb nr = some bb → bb ∈ f.bbs
  ordered : ∀ b ∈ f.bbs, ∀ before insn after, f.insns b = before ++ some insn :: after →
    ∀ nr, .reg nr ∈ insn.reads → f.defBb nr = some b → f.defIsPhi nr = false →
      ∃ other, some other ∈ before ∧ .reg nr ∈ other.writes

def Insn.overlooked : Insn → Bool
  | .fmadd _ _ _ _ => true
  | .copy _ _ => true
  | _ => false

/-! ## What the code looks at -/

/-- The pseudo is assigned in the block by an instruction that is looked at. -/
def Function.AssignedSeen (f : Function Block) (bb : Block) (pseudo : Pseudo) : Prop :=
  (∃ insn, some insn ∈ f.insns bb ∧ insn.overlooked = false ∧ pseudo ∈ insn.writes) ∨
    ∃ b ∈ f.bbs, ∃ phiList nr, some (.phi pseudo phiList) ∈ f.insns b ∧ .phi nr ∈ phiList ∧
      f.phiBb nr = some bb

/-- The pseudo is read, by an instruction that is looked at, before any instruction of the block
assigns it. -/
def Function.ExposedSeen (f : Function Block) (bb : Block) (pseudo : Pseudo) : Prop :=
  ∃ before insn after, f.insns bb = before ++ some insn :: after ∧ insn.overlooked = false ∧
    pseudo ∈ insn.reads ∧ ∀ other, some other ∈ before → pseudo ∉ other.writes

def Function.LiveSeen (f : Function Block) : Block → Pseudo → Prop :=
  Backflow.Flows f.ExposedSeen f.AssignedSeen fun bb child => child ∈ f.children bb

/-- An instruction that is overlooked does no harm when each of its operands is assigned before it
in the block, or is live there on account of others, and when no child needs its target, unless
another instruction of the block assigns the target too. -/
def Function.Harmless (f : Function Block) : Prop :=
  ∀ bb ∈ f.bbs, ∀ before insn after, f.insns bb = before ++ some insn :: after →
    insn.overlooked = true →
      (∀ pseudo ∈ insn.reads, pseudo.trackable = true →
        (∃ other, some other ∈ before ∧ pseudo ∈ other.writes) ∨ f.LiveSeen bb pseudo) ∧
      ∀ pseudo ∈ insn.writes, (∃ child ∈ f.children bb, f.Live child pseudo) →
        f.AssignedSeen bb pseudo

section Touches

variable {f : Function Block} {bb b : Block} {pseudo : Pseudo} {insn : Insn}

theorem use_mem_phiDefines {target : Pseudo} {phiList : List Pseudo} :
    .use b pseudo ∉ phiDefines f target phiList := by
  intro member
  obtain ⟨phi, -, same⟩ := mem_filterMap.mp member
  cases phi with
  | phi nr =>
    obtain ⟨source, -, other⟩ := Option.map_eq_some_iff.mp same
    cases other
  | void | reg | arg | sym | val => cases same

theorem define_mem_phiDefines {target : Pseudo} {phiList : List Pseudo} :
    .define b pseudo ∈ phiDefines f target phiList ↔
      pseudo = target ∧ ∃ nr, .phi nr ∈ phiList ∧ f.phiBb nr = some b := by
  unfold phiDefines
  rw [mem_filterMap]
  constructor
  · rintro ⟨phi, member, same⟩
    cases phi with
    | phi nr =>
      obtain ⟨source, found, other⟩ := Option.map_eq_some_iff.mp same
      cases other
      exact ⟨rfl, nr, member, found⟩
    | void | reg | arg | sym | val => cases same
  · rintro ⟨rfl, nr, member, found⟩
    refine ⟨.phi nr, member, ?_⟩
    show (f.phiBb nr).map _ = _
    rw [found]
    rfl

theorem use_mem_track : .use b pseudo ∈ trackInstructionUsage f bb insn ↔
    b = bb ∧ insn.overlooked = false ∧ pseudo ∈ insn.reads := by
  cases insn with
  | phi target phiList =>
    refine ⟨fun member => (use_mem_phiDefines member).elim, fun read => ?_⟩
    cases read.2.2
  | fmadd | copy =>
    refine ⟨fun member => ?_, fun read => ?_⟩
    · cases member
    · cases read.2.1
  | asm inputs outputs =>
    simp only [trackInstructionUsage, asmLiveness, Insn.reads, mem_append, mem_map,
      mem_filter]
    constructor
    · rintro (⟨input, member, same⟩ | ⟨entry, member, same⟩)
      · cases same
        exact ⟨rfl, rfl, .inl member⟩
      · split at same
        next memory =>
          cases same
          exact ⟨rfl, rfl, .inr ⟨entry, ⟨member, memory⟩, rfl⟩⟩
        next => cases same
    · rintro ⟨rfl, -, member | ⟨entry, ⟨member, memory⟩, rfl⟩⟩
      · exact .inl ⟨pseudo, member, rfl⟩
      · exact .inr ⟨entry, member, by rw [if_pos memory]⟩
  | call func target arguments =>
    simp only [trackInstructionUsage, Insn.reads, mem_cons, mem_append, mem_map]
    constructor
    · rintro ((same | member) | ⟨argument, member, same⟩)
      · cases same
        exact ⟨rfl, rfl, .inl rfl⟩
      · split at member
        · cases mem_singleton.mp member
        · cases member
      · cases same
        exact ⟨rfl, rfl, .inr member⟩
    · rintro ⟨rfl, -, rfl | member⟩
      · exact .inl (.inl rfl)
      · exact .inr ⟨pseudo, member, rfl⟩
  | ret | computedgoto | cbr | switch | binary | unop | sel | load | store | setval | phisource
    | range | nop =>
      simp [trackInstructionUsage, Insn.reads, Insn.overlooked]
      try tauto

theorem define_mem_track : .define b pseudo ∈ trackInstructionUsage f bb insn ↔
    (b = bb ∧ insn.overlooked = false ∧ pseudo ∈ insn.writes) ∨
      ∃ phiList nr, insn = .phi pseudo phiList ∧ .phi nr ∈ phiList ∧ f.phiBb nr = some b := by
  cases insn with
  | phi target phiList =>
    show .define b pseudo ∈ phiDefines f target phiList ↔ _
    rw [define_mem_phiDefines]
    constructor
    · rintro ⟨rfl, nr, member, found⟩
      exact .inr ⟨phiList, nr, rfl, member, found⟩
    · rintro (⟨-, -, member⟩ | ⟨list, nr, same, member, found⟩)
      · cases member
      · cases same
        exact ⟨rfl, nr, member, found⟩
  | fmadd | copy =>
    refine ⟨fun member => ?_, ?_⟩
    · cases member
    · rintro (⟨-, seen, -⟩ | ⟨list, nr, same, -⟩)
      · cases seen
      · cases same
  | asm inputs outputs =>
    simp only [trackInstructionUsage, asmLiveness, Insn.writes, mem_append, mem_map,
      mem_filter]
    constructor
    · rintro (⟨input, member, same⟩ | ⟨entry, member, same⟩)
      · cases same
      · split at same
        next => cases same
        next memory =>
          cases same
          exact .inl ⟨rfl, rfl, entry, ⟨member, by simpa using memory⟩, rfl⟩
    · rintro (⟨rfl, -, entry, ⟨member, memory⟩, rfl⟩ | ⟨list, nr, same, -⟩)
      · exact .inr ⟨entry, member, by rw [if_neg (by simpa using memory)]⟩
      · cases same
  | call func target arguments =>
    simp only [trackInstructionUsage, Insn.writes, mem_cons, mem_append, mem_map]
    constructor
    · rintro ((same | member) | ⟨argument, member, same⟩)
      · cases same
      · split at member
        next given =>
          cases mem_singleton.mp member
          exact .inl ⟨rfl, rfl, by rw [if_pos given]; exact mem_singleton_self _⟩
        next => cases member
      · cases same
    · rintro (⟨rfl, -, member⟩ | ⟨list, nr, same, -⟩)
      · split at member
        next given =>
          rw [mem_singleton.mp member]
          exact .inl (.inr (by rw [if_pos given]; exact mem_singleton_self _))
        next => cases member
      · cases same
  | ret | computedgoto | cbr | switch | binary | unop | sel | load | store | setval | phisource
    | range | nop =>
      simp [trackInstructionUsage, Insn.writes, Insn.overlooked]

variable [DecidableEq Block]

theorem needs_addNeed {lists : Lists Block} {other : Pseudo} :
    pseudo ∈ (lists.addNeed bb other).needs b ↔
      pseudo ∈ lists.needs b ∨ b = bb ∧ pseudo = other := by
  unfold Lists.addNeed
  split
  next inside =>
    refine ⟨.inl, fun either => either.elim id ?_⟩
    rintro ⟨rfl, rfl⟩
    exact inside
  next =>
    show pseudo ∈ Function.update lists.needs bb _ b ↔ _
    by_cases same : b = bb
    · subst same
      rw [Function.update_self, mem_append, mem_singleton]
      exact ⟨fun either => either.imp id fun equal => ⟨rfl, equal⟩,
        fun either => either.imp id fun equal => equal.2⟩
    · rw [Function.update_of_ne same]
      exact ⟨.inl, fun either => either.elim id fun equal => (same equal.1).elim⟩

theorem needs_touch {lists : Lists Block} {touch : Touch Block} :
    pseudo ∈ (lists.touch f touch).needs b ↔ pseudo ∈ lists.needs b ∨
      touch = .use b pseudo ∧ pseudo.trackable = true ∧ f.usedFromOutside b pseudo = true := by
  cases touch with
  | define bb other =>
    refine ⟨.inl, fun either => either.elim id fun same => ?_⟩
    cases same.1
  | use bb other =>
    show pseudo ∈ (lists.insnUses f bb other).needs b ↔ _
    unfold Lists.insnUses
    split
    next used =>
      rw [needs_addNeed]
      rw [Bool.and_eq_true] at used
      constructor
      · rintro (old | ⟨rfl, rfl⟩)
        · exact .inl old
        · exact .inr ⟨rfl, used⟩
      · rintro (old | ⟨same, -⟩)
        · exact .inl old
        · cases same
          exact .inr ⟨rfl, rfl⟩
    next unused =>
      refine ⟨.inl, fun either => either.elim id ?_⟩
      rintro ⟨same, used⟩
      cases same
      exact (unused (Bool.and_eq_true _ _ ▸ used)).elim

theorem defines_touch {lists : Lists Block} {touch : Touch Block} :
    pseudo ∈ (lists.touch f touch).defines b ↔
      pseudo ∈ lists.defines b ∨ touch = .define b pseudo := by
  cases touch with
  | use bb other =>
    have same : (lists.touch f (.use bb other)).defines = lists.defines := by
      show (lists.insnUses f bb other).defines = _
      unfold Lists.insnUses Lists.addNeed
      split
      · split <;> rfl
      · rfl
    rw [same]
    exact ⟨.inl, fun either => either.elim id fun no => by cases no⟩
  | define bb other =>
    show pseudo ∈ Function.update lists.defines bb _ b ↔ _
    by_cases same : b = bb
    · subst same
      rw [Function.update_self, mem_append, mem_singleton]
      refine or_congr_right ⟨fun equal => by rw [equal], fun equal => ?_⟩
      cases equal
      rfl
    · rw [Function.update_of_ne same]
      refine ⟨.inl, fun either => either.elim id fun equal => ?_⟩
      cases equal
      exact (same rfl).elim

theorem needs_touches {list : List (Touch Block)} {lists : Lists Block} :
    pseudo ∈ (list.foldl (Lists.touch f) lists).needs b ↔ pseudo ∈ lists.needs b ∨
      .use b pseudo ∈ list ∧ pseudo.trackable = true ∧ f.usedFromOutside b pseudo = true := by
  induction list generalizing lists with
  | nil => simp
  | cons touch list ih =>
    rw [foldl_cons, ih, needs_touch, mem_cons, or_assoc]
    refine or_congr_right ?_
    constructor
    · rintro (⟨rfl, used⟩ | ⟨later, used⟩)
      · exact ⟨.inl rfl, used⟩
      · exact ⟨.inr later, used⟩
    · rintro ⟨rfl | later, used⟩
      · exact .inl ⟨rfl, used⟩
      · exact .inr ⟨later, used⟩

theorem defines_touches {list : List (Touch Block)} {lists : Lists Block} :
    pseudo ∈ (list.foldl (Lists.touch f) lists).defines b ↔
      pseudo ∈ lists.defines b ∨ .define b pseudo ∈ list := by
  induction list generalizing lists with
  | nil => simp
  | cons touch list ih =>
    rw [foldl_cons, ih, defines_touch, mem_cons, or_assoc]
    exact or_congr_right (or_congr_left eq_comm)

end Touches

section Usages

variable {f : Function Block} {bb : Block} {pseudo : Pseudo}

theorem mem_touches {touch : Touch Block} :
    touch ∈ f.touches bb ↔ ∃ insn, some insn ∈ f.insns bb ∧
      touch ∈ trackInstructionUsage f bb insn := by
  unfold Function.touches
  rw [mem_flatMap]
  constructor
  · rintro ⟨entry, member, within⟩
    cases entry with
    | none => cases within
    | some insn => exact ⟨insn, member, within⟩
  · rintro ⟨insn, member, within⟩
    exact ⟨some insn, member, within⟩

variable [DecidableEq Block]

/-- In its block, a register is defined by no phi node where an instruction writes it. -/
theorem Function.WellFormed.not_writes (formed : f.WellFormed) (inside : bb ∈ f.bbs)
    (used : f.usedFromOutside bb pseudo = true) {insn : Insn} (member : some insn ∈ f.insns bb) :
    pseudo ∉ insn.writes := by
  intro write
  obtain ⟨nr, rfl, defined, plain⟩ := formed.writes bb inside insn member pseudo write
  simp [Function.usedFromOutside, defined, plain] at used

theorem Function.WellFormed.used_of_exposed (formed : f.WellFormed) (inside : bb ∈ f.bbs)
    {before after : List (Option Insn)} {insn : Insn}
    (whole : f.insns bb = before ++ some insn :: after) (read : pseudo ∈ insn.reads)
    (first : ∀ other, some other ∈ before → pseudo ∉ other.writes) :
    f.usedFromOutside bb pseudo = true := by
  cases pseudo with
  | reg nr =>
    by_contra inner
    simp only [Function.usedFromOutside, ne_eq, decide_not, Bool.or_eq_true, not_or,
      Bool.not_eq_true', decide_eq_false_iff_not, not_not, Bool.not_eq_true] at inner
    obtain ⟨other, member, write⟩ :=
      formed.ordered bb inside before insn after whole nr read inner.1 inner.2
    exact first other member write
  | void | arg | sym | val | phi => rfl

theorem needs_usages (formed : f.WellFormed) (inside : bb ∈ f.bbs) :
    pseudo ∈ f.usages.needs bb ↔ pseudo.trackable = true ∧ f.ExposedSeen bb pseudo := by
  unfold Function.usages
  rw [needs_touches, mem_flatMap]
  constructor
  · rintro (member | ⟨⟨b, -, member⟩, tracked, used⟩)
    · cases member
    · obtain ⟨insn, member, within⟩ := mem_touches.mp member
      obtain ⟨rfl, seen, read⟩ := use_mem_track.mp within
      obtain ⟨before, after, whole⟩ := append_of_mem member
      refine ⟨tracked, before, insn, after, whole, seen, read, fun other earlier => ?_⟩
      refine formed.not_writes inside used ?_
      rw [whole]
      exact mem_append_left _ earlier
  · rintro ⟨tracked, before, insn, after, whole, seen, read, first⟩
    refine .inr ⟨⟨bb, inside, mem_touches.mpr ⟨insn, ?_, use_mem_track.mpr ⟨rfl, seen, read⟩⟩⟩,
      tracked, formed.used_of_exposed inside whole read first⟩
    rw [whole]
    exact mem_append_right _ mem_cons_self

theorem defines_usages (inside : bb ∈ f.bbs) :
    pseudo ∈ f.usages.defines bb ↔ f.AssignedSeen bb pseudo := by
  unfold Function.usages
  rw [defines_touches, mem_flatMap]
  constructor
  · rintro (member | ⟨b, known, member⟩)
    · cases member
    · obtain ⟨insn, member, within⟩ := mem_touches.mp member
      obtain ⟨rfl, seen, write⟩ | ⟨phiList, nr, rfl, source, found⟩ := define_mem_track.mp within
      · exact .inl ⟨insn, member, seen, write⟩
      · exact .inr ⟨b, known, phiList, nr, member, source, found⟩
  · rintro (⟨insn, member, seen, write⟩ | ⟨b, known, phiList, nr, member, source, found⟩)
    · exact .inr ⟨bb, inside, mem_touches.mpr
        ⟨insn, member, define_mem_track.mpr (.inl ⟨rfl, seen, write⟩)⟩⟩
    · exact .inr ⟨b, known, mem_touches.mpr
        ⟨_, member, define_mem_track.mpr (.inr ⟨phiList, nr, rfl, source, found⟩)⟩⟩

end Usages

end SmatchFormal.Liveness
