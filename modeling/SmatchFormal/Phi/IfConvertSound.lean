import SmatchFormal.Phi.IfConvert

/-!
# The select has the value of the phi-node

Every way to the phi-node leaves the common source block last through its branch.  The arm that the
branch takes decides which source the phi-node gets, and what this source keeps is not set between
the branch and the phi-node.
-/

namespace SmatchFormal.Phi

open List

variable {Block : Type}

section Arms

variable {f : Function Block} {bb source arm : Block} {k phi : Nat} {cond : Pseudo}
  {bbTrue bbFalse : Block}

structure Arm (f : Function Block) (bb source arm : Block) (phi : Nat) : Prop where
  edge : f.Edge arm bb
  kept : ∃ m, f.insnAt (arm, m) = some (.phisource phi)
  value : (f.phiDef phi).phiSrc ≠ .void
  hangs : f.Hangs source arm (f.phiDef phi).phiSrc

theorem insnAt_last {insn : Insn Block} (last : (f.insns source).getLast? = some insn) :
    f.insnAt (source, (f.insns source).length - 1) = some insn := by
  rw [List.getLast?_eq_getElem?] at last
  exact last

theorem Function.WellFormed.terminator_eq (formed : f.WellFormed) {i : Nat} {a b : Insn Block}
    (first : f.insnAt (source, k) = some a) (one : a.isTerminator = true)
    (second : f.insnAt (source, i) = some b) (other : b.isTerminator = true) : i = k ∧ a = b := by
  have same : i = k := by
    have last := formed.ending source k a first one
    have last' := formed.ending source i b second other
    omega
  subst same
  exact ⟨rfl, Option.some_inj.mp (first.symm.trans second)⟩

/-- The way to a block with one parent comes from the branch of the parent. -/
theorem Function.WellFormed.pred_branch (formed : f.WellFormed)
    (branch : f.insnAt (source, k) = some (.cbr cond bbTrue bbFalse)) {child : Block}
    {point : Point Block} (next : f.Next point (child, 0)) (only : point.1 = source) :
    point = (source, k) := by
  obtain ⟨insn, here, target⟩ := next.pred_zero
  obtain ⟨b, i⟩ := point
  cases only
  have ending := isTerminator_of_target target
  rw [(formed.terminator_eq branch rfl here ending).1]

theorem Arm.through (arms : Arm f bb source arm phi) (formed : f.WellFormed)
    (branch : f.insnAt (source, k) = some (.cbr cond bbTrue bbFalse)) {point : Point Block}
    {nodes : List (Point Block)} (path : Dominance.Path f.Next f.start nodes point)
    (next : f.Next point (bb, 0)) (place : point.1 = arm) : (source, k) ∈ nodes := by
  obtain same | ⟨different, parents, -⟩ := arms.hangs
  · rw [← formed.pred_branch branch next (place.trans same)]
    exact path.last_mem
  · have top := dominates_within f point.1 (Nat.zero_le point.2)
    obtain ⟨part, toTop, suffix, -⟩ := path.to_mem (top nodes path)
    rw [place] at toTop
    have parent : source ∈ f.parents arm := by
      rw [parents]
      exact mem_singleton_self _
    have edge := (formed.parents arm source).mp parent
    cases toTop with
    | start => exact (formed.entry source edge).elim
    | @step rest prior _ path next =>
      obtain ⟨insn, here, target⟩ := next.pred_zero
      have above : prior.1 ∈ f.parents arm :=
        (formed.parents arm prior.1).mpr ⟨prior.2, insn, here, target⟩
      rw [parents, mem_singleton] at above
      have at' := formed.pred_branch branch next above
      refine suffix.subset (mem_cons_of_mem _ ?_)
      rw [← at']
      exact path.last_mem

end Arms

section Both

variable [DecidableEq Block] {f : Function Block} {bb : Block} {i k target phi1 phi2 : Nat}
  {bb1 bb2 : Block}
  {phiList : List (Option Nat)} {conversion : Conversion Block} {bbTrue bbFalse : Block}

/-- The phi-node and what `if_convert_phi` has found out about it. -/
structure Converted (f : Function Block) (bb : Block) (i target : Nat)
    (conversion : Conversion Block) (bb1 bb2 : Block) (phi1 phi2 : Nat)
    (phiList : List (Option Nat))
    (k : Nat) (bbTrue bbFalse : Block) : Prop where
  formed : f.WellFormed
  here : f.insnAt (bb, i) = some (.phi target)
  node : (f.regDef target).phiList = some phiList
  converts : f.Converts bb phiList conversion bb1 bb2 phi1 phi2
  branch : f.insnAt (conversion.source, k) = some (.cbr conversion.cond bbTrue bbFalse)
  reachable : f.Reachable (bb, 0)

namespace Converted

variable (c : Converted f bb i target conversion bb1 bb2 phi1 phi2 phiList k bbTrue bbFalse)

include c

/-- The phi-source of a parent is the one that was found. -/
theorem arm_of {arm : Block} {phi : Nat} (edge : f.Edge arm bb)
    (owner : (f.phiDef phi).bb = some arm) (member : some phi ∈ phiList)
    (hangs : f.Hangs conversion.source arm (f.phiDef phi).phiSrc) :
    Arm f bb conversion.source arm phi := by
  obtain ⟨own, m, entry, source, value, unique⟩ :=
    c.formed.source bb i target phiList c.here c.node arm edge
  cases unique phi member owner
  exact ⟨edge, ⟨m, source⟩, value, hangs⟩

theorem arm1 : Arm f bb conversion.source bb1 phi1 :=
  c.arm_of ((c.formed.parents bb bb1).mp ((c.converts.parents bb1).mpr (.inl rfl)))
    c.converts.owner1 ((c.converts.members phi1).mpr (.inl rfl)) c.converts.hangs1

theorem arm2 : Arm f bb conversion.source bb2 phi2 :=
  c.arm_of ((c.formed.parents bb bb2).mp ((c.converts.parents bb2).mpr (.inr rfl)))
    c.converts.owner2 ((c.converts.members phi2).mpr (.inr rfl)) c.converts.hangs2

/-- Every way to the block of the phi-node has passed the branch. -/
theorem through {nodes : List (Point Block)}
    (path : Dominance.Path f.Next f.start nodes (bb, 0)) : (conversion.source, k) ∈ nodes.tail := by
  cases path with
  | start => exact (c.formed.noNode i target c.here).elim
  | @step rest prior _ path next =>
    obtain ⟨insn, here, edge⟩ := next.pred_zero
    have parent := (c.formed.parents bb prior.1).mpr ⟨prior.2, insn, here, edge⟩
    obtain first | second := (c.converts.parents prior.1).mp parent
    · exact c.arm1.through c.formed c.branch path next first
    · exact c.arm2.through c.formed c.branch path next second

theorem source_ne : conversion.source ≠ bb := by
  intro same
  obtain ⟨nodes, path⟩ := c.reachable
  obtain ⟨simple, toBlock, once, -⟩ := path.simple
  have passed := c.through toBlock
  cases toBlock with
  | start => cases passed
  | step path next =>
    obtain ⟨part, shorter, suffix, -⟩ := path.to_mem passed
    have top := dominates_within f conversion.source (Nat.zero_le k)
    have inside := suffix.subset (top part shorter)
    rw [same] at inside
    exact (nodup_cons.mp once).1 inside

theorem distinct : bb1 ≠ bb2 := c.converts.distinct (c.formed.distinct bb)

theorem arm_ne {arm : Block} {phi : Nat} (arms : Arm f bb conversion.source arm phi) :
    arm ≠ bb := by
  rintro rfl
  obtain same | ⟨-, parents, -⟩ := arms.hangs
  · exact c.source_ne same.symm
  · have first := (c.converts.parents bb1).mpr (.inl rfl)
    have second := (c.converts.parents bb2).mpr (.inr rfl)
    rw [parents, mem_singleton] at first second
    exact c.distinct (first.trans second.symm)

end Converted

def Conversion.toward (conversion : Conversion Block) (bb arm : Block) : Block :=
  if arm = conversion.source then bb else arm

namespace Converted

variable (c : Converted f bb i target conversion bb1 bb2 phi1 phi2 phiList k bbTrue bbFalse)

include c

theorem toward_target {arm : Block} {phi : Nat} (arms : Arm f bb conversion.source arm phi) :
    conversion.toward bb arm = bbTrue ∨ conversion.toward bb arm = bbFalse := by
  have edge : f.Edge conversion.source (conversion.toward bb arm) := by
    unfold Conversion.toward
    split
    next same => exact same ▸ arms.edge
    next different =>
      obtain same | ⟨-, parents, -⟩ := arms.hangs
      · exact (different same).elim
      · refine (c.formed.parents arm _).mp ?_
        rw [parents]
        exact mem_singleton_self _
  obtain ⟨m, insn, here, inside⟩ := edge
  have ending := isTerminator_of_target inside
  obtain ⟨-, same⟩ := c.formed.terminator_eq c.branch rfl here ending
  subst same
  obtain first | second := mem_cons.mp inside
  · exact .inl first
  · exact .inr (mem_singleton.mp second)

theorem toward_ne : conversion.toward bb bb1 ≠ conversion.toward bb bb2 := by
  unfold Conversion.toward
  have one := c.arm_ne c.arm1
  have two := c.arm_ne c.arm2
  split
  next first =>
    rw [if_neg fun second => c.distinct (first.trans second.symm)]
    exact two.symm
  next =>
    split
    · exact one
    · exact c.distinct

/-- The arms and the values of the select are matched the same way. -/
theorem matched :
    (conversion.toward bb bb1 = bbTrue ∧ conversion.toward bb bb2 = bbFalse ∧
      conversion.ifTrue = (f.phiDef phi1).phiSrc ∧ conversion.ifFalse = (f.phiDef phi2).phiSrc) ∨
    (conversion.toward bb bb1 = bbFalse ∧ conversion.toward bb bb2 = bbTrue ∧
      conversion.ifTrue = (f.phiDef phi2).phiSrc ∧
      conversion.ifFalse = (f.phiDef phi1).phiSrc) := by
  obtain ⟨other, another, last, values⟩ := c.converts.branch
  obtain ⟨-, same⟩ := c.formed.terminator_eq c.branch rfl (insnAt_last last) rfl
  cases same
  have different := c.toward_ne
  have one := c.arm_ne c.arm1
  have two := c.arm_ne c.arm2
  have distinct := c.distinct
  obtain first | first := c.toward_target c.arm1
  · have second := (c.toward_target c.arm2).resolve_left fun same =>
      different (first.trans same.symm)
    refine .inl ⟨first, second, ?_⟩
    have straight : ¬ (bbTrue = bb2 ∨ bbFalse = bb1) := by
      rw [← first, ← second]
      unfold Conversion.toward
      split
      · rw [if_neg (by rintro rfl; exact distinct (by assumption))]
        rintro (same | same)
        · exact two same.symm
        · exact distinct same.symm
      · rintro (same | same)
        · exact distinct same
        · split at same
          · exact one same.symm
          · exact distinct same.symm
    rw [if_neg straight] at values
    exact values
  · have second := (c.toward_target c.arm2).resolve_right fun same =>
      different (first.trans same.symm)
    refine .inr ⟨first, second, ?_⟩
    have swapped : bbTrue = bb2 ∨ bbFalse = bb1 := by
      rw [← first, ← second]
      unfold Conversion.toward
      by_cases same : bb1 = conversion.source
      · refine .inl (if_neg ?_)
        rintro rfl
        exact distinct same
      · exact .inr (if_neg same)
    rw [if_pos swapped] at values
    exact values

end Converted

end Both

section Runs

variable {Value : Type} [Zero Value] [DecidableEq Value]

/-- A run from one state to another one that does not come to the place again. -/
def Function.Since (f : Function Block) (base : Pseudo → Value) (place : Point Block) :
    State Block Value → State Block Value → Prop :=
  Relation.ReflTransGen fun s s' => f.Step base s s' ∧ s'.point ≠ place

def Conversion.value (conversion : Conversion Block) (base : Pseudo → Value)
    (s : State Block Value) : Value :=
  s.eval base (if s.eval base conversion.cond ≠ 0 then conversion.ifTrue else conversion.ifFalse)

variable {f : Function Block} {bb : Block} {i k target phi1 phi2 : Nat} {bb1 bb2 : Block}
  {phiList : List (Option Nat)} {conversion : Conversion Block} {bbTrue bbFalse : Block}
  {base : Pseudo → Value}

/-- The last state at the branch, from where it has led to the given block. -/
structure Passed (f : Function Block) (base : Pseudo → Value) (conversion : Conversion Block)
    (k : Nat) (bbTrue bbFalse child : Block) (s0 s : State Block Value) : Prop where
  runs : f.Runs base s0
  place : s0.point = (conversion.source, k)
  taken : (if s0.eval base conversion.cond ≠ 0 then bbTrue else bbFalse) = child
  since : f.Since base (conversion.source, k) s0 s

theorem Passed.later {child : Block} {s0 s s' : State Block Value}
    (passed : Passed f base conversion k bbTrue bbFalse child s0 s) (step : f.Step base s s')
    (different : s'.point ≠ (conversion.source, k)) :
    Passed f base conversion k bbTrue bbFalse child s0 s' :=
  ⟨passed.runs, passed.place, passed.taken, passed.since.tail ⟨step, different⟩⟩

variable [DecidableEq Block]

/-- What is kept for the phi-node on the way through an arm is the value that the operand had at
the branch. -/
structure Carries (f : Function Block) (base : Pseudo → Value) (conversion : Conversion Block)
    (k : Nat) (bbTrue bbFalse bb arm : Block) (phi : Nat) (s : State Block Value) : Prop where
  runs : f.Runs base s
  reachable : f.Reachable s.point
  came : ∀ parent, s.prev = some parent → f.Edge parent s.point.1
  kept : arm = conversion.source → s.point.1 = arm → ∀ m, m < s.point.2 →
    f.insnAt (arm, m) = some (.phisource phi) →
      s.phis phi = s.eval base (f.phiDef phi).phiSrc
  inside : arm ≠ conversion.source → s.point.1 = arm →
    ∃ s0, Passed f base conversion k bbTrue bbFalse (conversion.toward bb arm) s0 s ∧
      s.eval base (f.phiDef phi).phiSrc = s0.eval base (f.phiDef phi).phiSrc ∧
      ∀ m, m < s.point.2 → f.insnAt (arm, m) = some (.phisource phi) →
        s.phis phi = s0.eval base (f.phiDef phi).phiSrc
  joined : s.point.1 = bb → s.prev = some arm →
    ∃ s0, Passed f base conversion k bbTrue bbFalse (conversion.toward bb arm) s0 s ∧
      s.phis phi = s0.eval base (f.phiDef phi).phiSrc

namespace Converted

variable (c : Converted f bb i target conversion bb1 bb2 phi1 phi2 phiList k bbTrue bbFalse)
  {arm : Block} {phi : Nat} (arms : Arm f bb conversion.source arm phi)
  {s s' : State Block Value}
  (carries : Carries f base conversion k bbTrue bbFalse bb arm phi s)

include c arms carries

/-- A step within a block that sets neither the operand where it counts nor the phi pseudo
wrongly. -/
theorem within {insn : Insn Block} (here : f.insnAt s.point = some insn)
    (inner : insn.isTerminator = false) (step : f.Step base s s')
    (point : s'.point = (s.point.1, s.point.2 + 1)) (prev : s'.prev = s.prev)
    (still : s.point.1 = arm →
      (arm = conversion.source →
        ∃ m, m < s.point.2 ∧ f.insnAt (arm, m) = some (.phisource phi)) →
      s'.eval base (f.phiDef phi).phiSrc = s.eval base (f.phiDef phi).phiSrc)
    (source : insn = .phisource phi →
      s'.phis phi = s.eval base (f.phiDef phi).phiSrc ∧
        s'.eval base (f.phiDef phi).phiSrc = s.eval base (f.phiDef phi).phiSrc)
    (other : insn ≠ .phisource phi → s'.phis phi = s.phis phi) :
    Carries f base conversion k bbTrue bbFalse bb arm phi s' := by
  have next : f.Next s.point s'.point := by
    rw [point]
    exact .within here inner
  have elsewhere : ∀ b, b ≠ conversion.source → s.point.1 = b →
      s'.point ≠ (conversion.source, k) := by
    rintro b different rfl same
    rw [point] at same
    exact different (congrArg Prod.fst same)
  have notNow : ∀ m, m < s'.point.2 → f.insnAt (s.point.1, m) = some (.phisource phi) →
      insn ≠ .phisource phi → m < s.point.2 := by
    intro m less same different
    rw [point] at less
    refine (Nat.lt_succ_iff_lt_or_eq.mp less).resolve_right ?_
    rintro rfl
    exact different (Option.some_inj.mp (here.symm.trans same))
  refine ⟨.step carries.runs step, carries.reachable.step next, fun parent came => ?_,
    fun own at' m less same => ?_, fun different at' => ?_, fun at' came => ?_⟩
  · rw [prev] at came
    rw [point]
    exact carries.came parent came
  · have at' : s.point.1 = arm := by
      rw [point] at at'
      exact at'
    by_cases now : insn = .phisource phi
    · rw [(source now).1, (source now).2]
    · have earlier := notNow m less (at' ▸ same) now
      rw [other now, still at' fun _ => ⟨m, earlier, same⟩]
      exact carries.kept own at' m earlier same
  · have at' : s.point.1 = arm := by
      rw [point] at at'
      exact at'
    obtain ⟨s0, passed, value, sources⟩ := carries.inside different at'
    refine ⟨s0, passed.later step (elsewhere arm different at'), ?_, fun m less same => ?_⟩
    · rw [still at' fun own => (different own).elim]
      exact value
    · by_cases now : insn = .phisource phi
      · rw [(source now).1]
        exact value
      · rw [other now]
        exact sources m (notNow m less (at' ▸ same) now) same
  · have at' : s.point.1 = bb := by
      rw [point] at at'
      exact at'
    rw [prev] at came
    obtain ⟨s0, passed, value⟩ := carries.joined at' came
    refine ⟨s0, passed.later step (elsewhere bb c.source_ne.symm at'), ?_⟩
    rw [other ?_]
    · exact value
    · rintro rfl
      obtain ⟨m, place⟩ := arms.kept
      have same := c.formed.sourceOnce _ _ phi here place
      exact c.arm_ne arms ((congrArg Prod.fst same).symm.trans at')

/-- The operand is not set where it counts. -/
theorem not_set {nr : Nat} (defines : f.Defines s.point nr) (at' : s.point.1 = arm)
    (counts : arm = conversion.source →
      ∃ m, m < s.point.2 ∧ f.insnAt (arm, m) = some (.phisource phi)) :
    (f.phiDef phi).phiSrc ≠ .reg nr := by
  intro operand
  obtain same | ⟨-, -, outside⟩ := arms.hangs
  · obtain ⟨m, less, source⟩ := counts same
    subst at'
    have order := dominates_within f s.point.1 (Nat.le_of_lt less)
    have available := c.formed.source_available
      (reachable_of_dominates carries.reachable order) source arms.value
    rw [operand] at available
    exact c.formed.not_reset available defines carries.reachable order
  · refine outside nr operand ?_
    rw [← at']
    exact c.formed.owner _ _ nr defines

theorem assign {insn : Insn Block} {nr : Nat} {value : Value}
    (here : f.insnAt s.point = some insn) (defines : insn.defines = some nr)
    (inner : insn.isTerminator = false) (step : f.Step base s (s.assign nr value)) :
    Carries f base conversion k bbTrue bbFalse bb arm phi (s.assign nr value) := by
  refine c.within arms carries here inner step rfl rfl (fun at' counts => ?_) (fun source => ?_)
    fun _ => rfl
  · have different := c.not_set arms carries ⟨insn, here, defines⟩ at' counts
    cases operand : (f.phiDef phi).phiSrc with
    | reg other =>
      refine Function.update_of_ne ?_ _ _
      rintro rfl
      exact different operand
    | void | undef | arg | sym | val => rfl
  · rw [source] at defines
    cases defines

theorem keep {other : Nat} (here : f.insnAt s.point = some (.phisource other)) :
    Carries f base conversion k bbTrue bbFalse bb arm phi
      (s.keep other (s.eval base (f.phiDef other).phiSrc)) := by
  have still : ∀ pseudo, (s.keep other (s.eval base (f.phiDef other).phiSrc)).eval base pseudo =
      s.eval base pseudo := by
    intro pseudo
    cases pseudo <;> rfl
  refine c.within arms carries here rfl (.phisource here) rfl rfl (fun _ _ => still _)
    (fun same => ?_) fun different => ?_
  · cases same
    exact ⟨Function.update_self _ _ _, still _⟩
  · refine Function.update_of_ne ?_ _ _
    rintro rfl
    exact different rfl

theorem pass {uses : List Pseudo} (here : f.insnAt s.point = some (.other none uses)) :
    Carries f base conversion k bbTrue bbFalse bb arm phi s.skip := by
  refine c.within arms carries here rfl (.pass here) rfl rfl (fun _ _ => ?_) (fun same => ?_)
    fun _ => rfl
  · cases (f.phiDef phi).phiSrc <;> rfl
  · cases same

/-- The end of a block.  From the branch a new way through the arms begins. -/
theorem goto {insn : Insn Block} {child : Block} (here : f.insnAt s.point = some insn)
    (target : child ∈ insn.targets) (step : f.Step base s (s.goto child))
    (taken : ∀ cond yes no, insn = .cbr cond yes no →
      (if s.eval base cond ≠ 0 then yes else no) = child) :
    Carries f base conversion k bbTrue bbFalse bb arm phi (s.goto child) := by
  have ending := isTerminator_of_target target
  have still : (s.goto child).eval base (f.phiDef phi).phiSrc =
      s.eval base (f.phiDef phi).phiSrc := by
    cases (f.phiDef phi).phiSrc <;> rfl
  -- From the end of the common source block, the way to an arm or to the phi-node begins.
  have begins : s.point.1 = conversion.source → child ≠ conversion.source →
      Passed f base conversion k bbTrue bbFalse child s (s.goto child) := by
    intro place different
    have split : f.insnAt (conversion.source, s.point.2) = some insn := by
      rw [← place]
      exact here
    obtain ⟨last, same⟩ := c.formed.terminator_eq c.branch rfl split ending
    refine ⟨carries.runs, Prod.ext place last, taken _ _ _ same.symm, .single ⟨step, ?_⟩⟩
    exact fun same => different (congrArg Prod.fst same)
  have source_lt : ∀ m, s.point.1 = arm → f.insnAt (arm, m) = some (.phisource phi) →
      m < s.point.2 := by
    intro m at' source
    have last : s.point.2 + 1 = (f.insns s.point.1).length :=
      c.formed.ending _ _ insn here ending
    rw [at'] at last
    have inside : m < (f.insns arm).length := (List.getElem?_eq_some_iff.mp source).1
    have different : m ≠ s.point.2 := by
      rintro rfl
      rw [← at'] at source
      cases here.symm.trans source
      cases ending
    omega
  refine ⟨.step carries.runs step, carries.reachable.step (.along here target),
    fun parent came => ?_, fun _ _ m less => ?_, fun different at' => ?_, fun at' came => ?_⟩
  · cases came
    exact ⟨s.point.2, insn, here, target⟩
  · exact (Nat.not_lt_zero m less).elim
  · have at' : child = arm := at'
    obtain same | ⟨-, parents, -⟩ := arms.hangs
    · exact (different same).elim
    · have parent := (c.formed.parents arm s.point.1).mpr
        ⟨s.point.2, insn, here, at' ▸ target⟩
      rw [parents, mem_singleton] at parent
      refine ⟨s, ?_, still, fun m less => (Nat.not_lt_zero m less).elim⟩
      rw [Conversion.toward, if_neg different]
      rw [← at'] at different ⊢
      exact begins parent different
  · have at' : child = bb := at'
    have place : s.point.1 = arm := Option.some_inj.mp came
    obtain ⟨m, source⟩ := arms.kept
    by_cases own : arm = conversion.source
    · refine ⟨s, ?_, carries.kept own place m (source_lt m place source) source⟩
      rw [Conversion.toward, if_pos own]
      rw [← at']
      exact begins (place.trans own) (at' ▸ c.source_ne.symm)
    · obtain ⟨s0, passed, value, sources⟩ := carries.inside own place
      refine ⟨s0, passed.later step fun same => ?_, sources m (source_lt m place source) source⟩
      exact c.source_ne ((congrArg Prod.fst same).symm.trans at')

theorem step (step : f.Step base s s') :
    Carries f base conversion k bbTrue bbFalse bb arm phi s' := by
  cases step with
  | phi here node member came owner =>
    exact c.assign arms carries here rfl rfl (.phi here node member came owner)
  | phisource here => exact c.keep arms carries here
  | sel here => exact c.assign arms carries here rfl rfl (.sel here)
  | set value here => exact c.assign arms carries here rfl rfl (.set value here)
  | pass here => exact c.pass arms carries here
  | cbr here =>
    refine c.goto arms carries here ?_ (.cbr here) fun cond yes no same => ?_
    · split
      · exact mem_cons_self
      · exact mem_cons_of_mem _ mem_cons_self
    · cases same
      rfl
  | jump here target =>
    refine c.goto arms carries here target (.jump here target) fun cond yes no same => ?_
    cases same

omit carries

theorem carries_of_runs (runs : f.Runs base s) :
    Carries f base conversion k bbTrue bbFalse bb arm phi s := by
  induction runs with
  | enter regs phis =>
    refine ⟨.enter regs phis, Dominance.reachable_root, fun parent came => ?_,
      fun _ _ m less => ?_, fun different at' => ?_, fun _ came => ?_⟩
    · cases came
    · exact (Nat.not_lt_zero m less).elim
    · have at' : f.entry = arm := at'
      obtain same | ⟨-, parents, -⟩ := arms.hangs
      · exact (different same).elim
      · refine (c.formed.entry conversion.source ?_).elim
        refine (c.formed.parents f.entry conversion.source).mp ?_
        rw [at', parents]
        exact mem_singleton_self _
    · cases came
  | step earlier step ih => exact c.step arms ih step

end Converted

end Runs

section Operands

variable {f : Function Block}

/-- The places of a block follow one another. -/
theorem Function.WellFormed.next_within (formed : f.WellFormed) {b : Block} {m : Nat}
    (inside : m + 1 < (f.insns b).length) : f.Next (b, m) (b, m + 1) := by
  have below : m < (f.insns b).length := Nat.lt_of_succ_lt inside
  have here : f.insnAt (b, m) = some (f.insns b)[m] := List.getElem?_eq_getElem below
  refine .within here ?_
  by_contra ending
  have last := formed.ending b m _ here (eq_true_of_ne_false ending)
  omega

theorem Function.WellFormed.reachable_within (formed : f.WellFormed) {b : Block} {m : Nat}
    (reachable : f.Reachable (b, 0)) (inside : m < (f.insns b).length) :
    f.Reachable (b, m) := by
  induction m with
  | zero => exact reachable
  | succ m ih => exact (ih (by omega)).step (formed.next_within inside)

/-- What a block does not set is available where the block begins. -/
theorem Function.WellFormed.available_top (formed : f.WellFormed) {b : Block} {m nr : Nat}
    (available : f.Available (.reg nr) (b, m)) (inside : m < (f.insns b).length)
    (outside : (f.regDef nr).bb ≠ some b) : f.Available (.reg nr) (b, 0) := by
  induction m with
  | zero => exact available
  | succ m ih =>
    refine ih (available_of_next available (formed.next_within inside) fun defines => ?_)
      (by omega)
    exact outside (formed.owner b m nr defines)

/-- From the branch the phi-node can be reached through each arm. -/
theorem Function.WellFormed.reachable_through (formed : f.WellFormed) {bb source arm : Block}
    {k : Nat} {cond pseudo : Pseudo} {bbTrue bbFalse : Block}
    (branch : f.insnAt (source, k) = some (.cbr cond bbTrue bbFalse)) (edge : f.Edge arm bb)
    (hangs : f.Hangs source arm pseudo) (reachable : f.Reachable (source, k)) :
    f.Reachable (bb, 0) := by
  have follows : ∀ b, f.Edge source b → f.Reachable (b, 0) := by
    rintro b ⟨m, insn, here, target⟩
    obtain ⟨rfl, -⟩ := formed.terminator_eq branch rfl here (isTerminator_of_target target)
    exact reachable.step (.along here target)
  obtain rfl | ⟨-, parents, -⟩ := hangs
  · exact follows bb edge
  · have top := follows arm ((formed.parents arm source).mp (by
      rw [parents]
      exact mem_singleton_self _))
    obtain ⟨m, insn, here, target⟩ := edge
    have inside : m < (f.insns arm).length := (List.getElem?_eq_some_iff.mp here).1
    exact (formed.reachable_within top inside).step (.along here target)

variable [DecidableEq Block] {bb : Block} {i k target phi1 phi2 : Nat} {bb1 bb2 : Block}
  {phiList : List (Option Nat)} {conversion : Conversion Block} {bbTrue bbFalse : Block}

theorem Converted.reachable_branch
    (c : Converted f bb i target conversion bb1 bb2 phi1 phi2 phiList k bbTrue bbFalse) :
    f.Reachable (conversion.source, k) := by
  obtain ⟨nodes, path⟩ := c.reachable
  obtain ⟨part, shorter, -⟩ := path.to_mem (mem_of_mem_tail (c.through path))
  exact ⟨part, shorter⟩

theorem Converted.available
    (c : Converted f bb i target conversion bb1 bb2 phi1 phi2 phiList k bbTrue bbFalse)
    {arm : Block} {phi : Nat} (arms : Arm f bb conversion.source arm phi) :
    f.Available (f.phiDef phi).phiSrc (conversion.source, k) := by
  have reachable := c.reachable_branch
  obtain ⟨m, source⟩ := arms.kept
  have inside : m < (f.insns arm).length := (List.getElem?_eq_some_iff.mp source).1
  obtain same | ⟨different, parents, outside⟩ := arms.hangs
  · subst same
    have last := c.formed.ending _ k _ c.branch rfl
    have order := dominates_within f conversion.source (show m ≤ k by omega)
    exact (c.formed.source_available (reachable_of_dominates reachable order) source
      arms.value).later reachable order
  · have next : f.Next (conversion.source, k) (arm, 0) := by
      refine .along c.branch ?_
      have target := c.toward_target arms
      rw [Conversion.toward, if_neg different] at target
      obtain rfl | rfl := target
      · exact mem_cons_self
      · exact mem_cons_of_mem _ mem_cons_self
    have top := reachable.step next
    have available := c.formed.source_available (c.formed.reachable_within top inside) source
      arms.value
    cases operand : (f.phiDef phi).phiSrc with
    | void => exact (arms.value operand).elim
    | undef | arg | sym | val => trivial
    | reg nr =>
      rw [operand] at available
      refine available_of_next (c.formed.available_top available inside (outside nr operand)) next
        ?_
      rintro ⟨insn, same, defines⟩
      cases c.branch.symm.trans same
      cases defines

end Operands

section Value

variable [DecidableEq Block] {Value : Type} [Zero Value] [DecidableEq Value] {f : Function Block}
  {bb : Block}
  {i k target phi1 phi2 : Nat} {bb1 bb2 : Block} {phiList : List (Option Nat)}
  {conversion : Conversion Block} {bbTrue bbFalse : Block} {base : Pseudo → Value}
  {s : State Block Value}

theorem Converted.value_first
    (c : Converted f bb i target conversion bb1 bb2 phi1 phi2 phiList k bbTrue bbFalse)
    (taken : (if s.eval base conversion.cond ≠ 0 then bbTrue else bbFalse) =
      conversion.toward bb bb1) :
    s.eval base (f.phiDef phi1).phiSrc = conversion.value base s := by
  have different := c.toward_ne
  unfold Conversion.value
  obtain ⟨first, second, yes, -⟩ | ⟨first, second, -, no⟩ := c.matched
  · split at taken
    next holds => rw [if_pos holds, yes]
    next => exact (different (taken.symm.trans second.symm)).elim
  · split at taken
    next => exact (different (taken.symm.trans second.symm)).elim
    next fails => rw [if_neg fails, no]

theorem Converted.value_second
    (c : Converted f bb i target conversion bb1 bb2 phi1 phi2 phiList k bbTrue bbFalse)
    (taken : (if s.eval base conversion.cond ≠ 0 then bbTrue else bbFalse) =
      conversion.toward bb bb2) :
    s.eval base (f.phiDef phi2).phiSrc = conversion.value base s := by
  have different := c.toward_ne
  unfold Conversion.value
  obtain ⟨first, second, -, no⟩ | ⟨first, second, yes, -⟩ := c.matched
  · split at taken
    next => exact (different (first.trans taken)).elim
    next fails => rw [if_neg fails, no]
  · split at taken
    next holds => rw [if_pos holds, yes]
    next => exact (different (first.trans taken)).elim

end Value

section Result

variable [DecidableEq Block] {f : Function Block} {bb : Block} {i target : Nat}
  {phiList : List (Option Nat)}
  {conversion : Conversion Block}

/-- When `if_convert_phi` replaces a phi-node by a select, the operands of the select are available
where it is inserted, before the branch of the common source block, and in every run the phi-node
takes the value that the select had when the branch was last passed. -/
theorem ifConvertPhi_sound (formed : f.WellFormed)
    (here : f.insnAt (bb, i) = some (.phi target))
    (node : (f.regDef target).phiList = some phiList)
    (made : f.ifConvertPhi bb phiList = some conversion) :
    ∃ k bbTrue bbFalse, k + 1 = (f.insns conversion.source).length ∧
      f.insnAt (conversion.source, k) = some (.cbr conversion.cond bbTrue bbFalse) ∧
      (f.Reachable (conversion.source, k) →
        (∀ nr, conversion.cond = .reg nr → f.Available (.reg nr) (conversion.source, k)) ∧
        f.Available conversion.ifTrue (conversion.source, k) ∧
        f.Available conversion.ifFalse (conversion.source, k)) ∧
      ∀ (Value : Type) [Zero Value] [DecidableEq Value] (base : Pseudo → Value)
        (s s' : State Block Value), f.Runs base s → s.point = (bb, i) → f.Step base s s' →
          ∃ s0, f.Runs base s0 ∧ s0.point = (conversion.source, k) ∧
            f.Since base (conversion.source, k) s0 s ∧
            s'.regs target = conversion.value base s0 := by
  obtain ⟨bb1, bb2, phi1, phi2, converts⟩ := ifConvertPhi_converts made
  obtain ⟨bbTrue, bbFalse, last, -⟩ := converts.branch
  have branch := insnAt_last last
  have converted : f.Reachable (bb, 0) → Converted f bb i target conversion bb1 bb2 phi1 phi2
      phiList ((f.insns conversion.source).length - 1) bbTrue bbFalse :=
    fun reachable => ⟨formed, here, node, converts, branch, reachable⟩
  refine ⟨_, bbTrue, bbFalse, formed.ending _ _ _ branch rfl, branch, fun reachable => ?_,
    fun Value _ _ base s s' runs place step => ?_⟩
  · have edge := (formed.parents bb bb1).mp ((converts.parents bb1).mpr (.inl rfl))
    have c := converted (formed.reachable_through branch edge converts.hangs1 reachable)
    have first := c.available c.arm1
    have second := c.available c.arm2
    refine ⟨fun nr cond => formed.strict _ nr reachable ⟨_, branch, ?_⟩, ?_, ?_⟩
    · rw [← cond]
      exact mem_singleton_self _
    · obtain ⟨-, -, yes, -⟩ | ⟨-, -, yes, -⟩ := c.matched
      · exact yes ▸ first
      · exact yes ▸ second
    · obtain ⟨-, -, -, no⟩ | ⟨-, -, -, no⟩ := c.matched
      · exact no ▸ second
      · exact no ▸ first
  · have at' : s.point.1 = bb := congrArg Prod.fst place
    have reachable : f.Reachable (bb, 0) := by
      have order := dominates_within f bb (Nat.zero_le i)
      exact reachable_of_dominates (place ▸ reachable_of_runs runs) order
    have c := converted reachable
    cases step with
    | @phi other phi list parent own node' member came owner =>
      rw [place, here] at own
      cases own
      cases node.symm.trans node'
      have one := c.carries_of_runs c.arm1 runs
      have two := c.carries_of_runs c.arm2 runs
      show ∃ s0, _ ∧ _ ∧ _ ∧ Function.update s.regs target (s.phis phi) target = _
      rw [Function.update_self]
      obtain rfl | rfl := (converts.members phi).mp member
      · cases converts.owner1.symm.trans owner
        obtain ⟨s0, passed, value⟩ := one.joined at' came
        exact ⟨s0, passed.runs, passed.place, passed.since,
          value.trans (c.value_first passed.taken)⟩
      · cases converts.owner2.symm.trans owner
        obtain ⟨s0, passed, value⟩ := two.joined at' came
        exact ⟨s0, passed.runs, passed.place, passed.since,
          value.trans (c.value_second passed.taken)⟩
    | phisource own | sel own | set value own | pass own | cbr own | jump own =>
      rw [place, here] at own
      cases own

/-- The diamond with different arguments. -/
theorem ifConvertPhi_sound_diamond :
    (diamond 7 8).ifConvertPhi 3 [some 0, some 1] = some ⟨0, .arg 1, .arg 7, .arg 8⟩ ∧
      ∃ k bbTrue bbFalse, k + 1 = ((diamond 7 8).insns 0).length ∧
        (diamond 7 8).insnAt (0, k) = some (.cbr (.arg 1) bbTrue bbFalse) := by
  have made : (diamond 7 8).ifConvertPhi 3 [some 0, some 1] =
      some ⟨0, .arg 1, .arg 7, .arg 8⟩ := by decide
  have here : (diamond 7 8).insnAt (3, 0) = some (.phi 5) := rfl
  obtain ⟨k, yes, no, last, branch, -⟩ := ifConvertPhi_sound diamond_wellFormed here rfl made
  exact ⟨made, k, yes, no, last, branch⟩

end Result

end SmatchFormal.Phi
