import SmatchFormal.Memops.Code

/-!
# Loads past stores

`simplify_loads` looks backwards for an instruction that dominates a load, and passes those of
which `dominates` says that they do not matter.  The test for that is made with 32 bits: it errs
for two accesses that overlap when one of them reaches a multiple of 2^29 bytes.
-/

namespace SmatchFormal.Memops

open List

def Place.Accesses (place : Place) (byte : Int) : Prop :=
  place.offset ≤ byte ∧ byte * 8 < place.offset * 8 + place.size

def Intersect (a b : Place) : Prop := ∃ byte, a.Accesses byte ∧ b.Accesses byte

def Place.ReachesEdge (place : Place) : Prop :=
  4294967296 ≤ place.offset * 8 % 4294967296 + place.size

/-- The accesses overlap without being the same, and one of them reaches a multiple of 2^29
bytes. -/
def OverlapAtEdge (a b : Place) : Prop :=
  ¬ (a.offset = b.offset ∧ a.size = b.size) ∧ Intersect a b ∧ (a.ReachesEdge ∨ b.ReachesEdge)

/-- What the answers of `dominates` mean for two accesses through the same pseudo. -/
structure JudgedRight (insn dom : Place) (isLocal : Bool) : Prop where
  apart : dominatesPlace insn dom isLocal = .no → ¬ Intersect insn dom
  same : dominatesPlace insn dom isLocal = .yes →
    ∀ byte, insn.Accesses byte ↔ dom.Accesses byte

theorem intersect_iff {a b : Place} : Intersect a b ↔
    0 < a.size ∧ 0 < b.size ∧ a.offset * 8 < b.offset * 8 + b.size ∧
      b.offset * 8 < a.offset * 8 + a.size := by
  constructor
  · rintro ⟨byte, ⟨first, second⟩, third, fourth⟩
    refine ⟨?_, ?_, ?_, ?_⟩
    · omega
    · omega
    · omega
    · omega
  · rintro ⟨first, second, third, fourth⟩
    by_cases before : a.offset ≤ b.offset
    · refine ⟨b.offset, ⟨before, fourth⟩, le_refl _, ?_⟩
      omega
    · refine ⟨a.offset, ⟨le_refl _, ?_⟩, by omega, third⟩
      omega

theorem bytesToBits_toNat (offset : Int) :
    ((bytesToBits offset).toNat : Int) = offset * 8 % 4294967296 := by
  unfold bytesToBits
  rw [BitVec.toNat_mul, BitVec.toNat_ofInt]
  simp
  omega

theorem overlappingMemop_false_iff {a b : Place} (small : a.size < 2 ^ 24)
    (small' : b.size < 2 ^ 24) : overlappingMemop a b = false ↔
      (a.size + a.offset * 8 % 4294967296) % 4294967296 ≤ b.offset * 8 % 4294967296 ∨
        (b.size + b.offset * 8 % 4294967296) % 4294967296 ≤ a.offset * 8 % 4294967296 := by
  have ule : ∀ (size : Nat) (x y : Int), size < 2 ^ 24 →
      ((BitVec.ofNat 32 size + bytesToBits x).ule (bytesToBits y) = true ↔
        ((size : Int) + x * 8 % 4294967296) % 4294967296 ≤ y * 8 % 4294967296) := by
    intro size x y bound
    have left := bytesToBits_toNat x
    have right := bytesToBits_toNat y
    rw [BitVec.ule_eq_decide, decide_eq_true_eq, BitVec.toNat_add, BitVec.toNat_ofNat]
    omega
  unfold overlappingMemop
  simp only
  rw [← ule a.size a.offset b.offset small, ← ule b.size b.offset a.offset small']
  split
  next first => exact ⟨fun _ => .inl first, fun _ => rfl⟩
  next first =>
    split
    next second => exact ⟨fun _ => .inr second, fun _ => rfl⟩
    next second => exact iff_of_false (by decide) (not_or.mpr ⟨first, second⟩)

/-- The test for an overlap errs exactly at the edge. -/
theorem overlappingMemop_of_intersect {a b : Place} (small : a.size < 2 ^ 24)
    (small' : b.size < 2 ^ 24) (common : Intersect a b) :
    overlappingMemop a b = false ↔ a.ReachesEdge ∨ b.ReachesEdge := by
  obtain ⟨first, second, third, fourth⟩ := intersect_iff.mp common
  rw [overlappingMemop_false_iff small small']
  unfold Place.ReachesEdge
  omega

theorem sameMemop_iff {a b : Place} :
    sameMemop a b = true ↔ a.offset = b.offset ∧ a.size = b.size := by
  unfold sameMemop
  rw [Bool.and_eq_true, beq_iff_eq, beq_iff_eq]

theorem dominatesPlace_eq {insn dom : Place} (source : dom.src = insn.src) (isLocal : Bool) :
    dominatesPlace insn dom isLocal =
      if sameMemop insn dom then .yes else if overlappingMemop insn dom then .unknown else .no := by
  unfold dominatesPlace
  rw [if_neg (not_not.mpr source)]

/-- Two accesses through one pseudo are judged right unless they overlap at the edge. -/
theorem judgedRight_iff {insn dom : Place} (source : dom.src = insn.src) (isLocal : Bool)
    (small : insn.size < 2 ^ 24) (small' : dom.size < 2 ^ 24) :
    JudgedRight insn dom isLocal ↔ ¬ OverlapAtEdge insn dom := by
  have answer := dominatesPlace_eq source isLocal
  constructor
  · rintro right ⟨different, common, edge⟩
    apply right.apart _ common
    rw [answer, if_neg (fun same => different (sameMemop_iff.mp same)),
      (overlappingMemop_of_intersect small small' common).mpr edge]
    rfl
  · intro notEdge
    refine ⟨fun no common => ?_, fun yes byte => ?_⟩
    · rw [answer] at no
      split at no
      · cases no
      next different =>
        split at no
        · cases no
        next apart =>
          apply notEdge
          refine ⟨fun same => different (sameMemop_iff.mpr same), common, ?_⟩
          exact (overlappingMemop_of_intersect small small' common).mp (eq_false_of_ne_true apart)
    · rw [answer] at yes
      split at yes
      next same =>
        obtain ⟨offset, size⟩ := sameMemop_iff.mp same
        unfold Place.Accesses
        rw [offset, size]
      next => split at yes <;> cases yes

/-- How a walk back through a block ends: at an instruction that may change the place, at one that
dominates the load, or at the first instruction or the load itself. -/
inductive Scan where
  | stopped
  | found (dom : Insn)
  | through

/-- The loop over the instructions, the last one first; the instructions that `dominates` lets pass
are noted. -/
def scanBack (place : Place) (isLocal : Bool) (self : Nat × Nat) :
    List ((Nat × Nat) × Option Insn) → List Insn × Scan
  | [] => ([], .through)
  | (_, none) :: rest => scanBack place isLocal self rest
  | (pos, some one) :: rest =>
    if pos = self then ([], .through)
    else
      match dominates place one isLocal with
      | .unknown =>
        match one with
        | .load _ _ _ => scanBack place isLocal self rest
        | _ => ([], .stopped)
      | .no =>
        let (passed, scan) := scanBack place isLocal self rest
        (one :: passed, scan)
      | .yes => ([], .found one)

def Code.backward (code : Code) (bb : Nat) : List ((Nat × Nat) × Option Insn) :=
  ((code.insns bb).zipIdx.map fun entry => ((bb, entry.2), entry.1)).reverse

def Code.before (code : Code) (pos : Nat × Nat) : List ((Nat × Nat) × Option Insn) :=
  (((code.insns pos.1).take pos.2).zipIdx.map fun entry => ((pos.1, entry.2), entry.1)).reverse

/-- What the search has found: the instructions passed, those that dominate, the blocks that are
marked, and whether it goes on. -/
structure Search where
  passed : List Insn
  dominators : List Insn
  marks : List Nat
  ok : Bool

/-- `find_dominating_parents`.  Every level marks another block, so there are no more levels than
blocks. -/
def findDominatingParents (code : Code) (place : Place) (isLocal : Bool) (self : Nat × Nat) :
    Nat → Nat → Search → Search
  | 0, _, search => { search with ok := false }
  | levels + 1, bb, search =>
    (code.parents bb).foldl (fun search parent =>
      if search.ok then
        let (passed, scan) := scanBack place isLocal self (code.backward parent)
        let search := { search with passed := search.passed ++ passed }
        match scan with
        | .stopped => { search with ok := false }
        | .found dom => { search with dominators := search.dominators ++ [dom] }
        | .through =>
          if parent ∈ search.marks then search
          else
            findDominatingParents code place isLocal self levels parent
              { search with marks := parent :: search.marks }
      else search) search

def loadSearch (code : Code) (pos : Nat × Nat) (place : Place) (isLocal : Bool) : Search :=
  let (passed, scan) := scanBack place isLocal pos (code.before pos)
  match scan with
  | .stopped => ⟨passed, [], [], false⟩
  | .found dom => ⟨passed, [dom], [], true⟩
  | .through =>
    findDominatingParents code place isLocal pos (code.blocks.length + 1) pos.1
      ⟨passed, [], [pos.1], true⟩

def Code.accesses (code : Code) (src : Pseudo) : List Place :=
  (code.blocks.flatMap fun block => block.insns.filterMap fun insn => insn.bind Insn.place?).filter
    fun place => place.src = src

/-- Every instruction that was passed is one of the code, and `dominates` let it pass. -/
def PassedRight (code : Code) (place : Place) (isLocal : Bool) (passed : List Insn) : Prop :=
  ∀ insn ∈ passed, (∃ bb, some insn ∈ code.insns bb) ∧ dominates place insn isLocal = .no

theorem scanBack_passed {code : Code} {place : Place} {isLocal : Bool} {self : Nat × Nat}
    {list : List ((Nat × Nat) × Option Insn)}
    (inside : ∀ entry ∈ list, ∃ bb, entry.2 ∈ code.insns bb) :
    PassedRight code place isLocal (scanBack place isLocal self list).1 := by
  induction list with
  | nil =>
    intro insn member
    cases member
  | cons entry list ih =>
    have later := ih fun other member => inside other (mem_cons_of_mem _ member)
    obtain ⟨pos, insn⟩ := entry
    cases insn with
    | none => exact later
    | some one =>
      unfold scanBack
      split
      · intro insn member
        cases member
      · split
        · split
          · exact later
          · intro insn member
            cases member
        next no =>
          intro insn member
          rcases mem_cons.mp member with rfl | further
          · exact ⟨inside _ mem_cons_self, no⟩
          · exact later insn further
        · intro insn member
          cases member

theorem backward_inside (code : Code) (bb : Nat) :
    ∀ entry ∈ code.backward bb, ∃ bb, entry.2 ∈ code.insns bb := by
  intro entry member
  obtain ⟨source, here, rfl⟩ := mem_map.mp (mem_reverse.mp member)
  exact ⟨bb, fst_mem_of_mem_zipIdx here⟩

theorem before_inside (code : Code) (pos : Nat × Nat) :
    ∀ entry ∈ code.before pos, ∃ bb, entry.2 ∈ code.insns bb := by
  intro entry member
  obtain ⟨source, here, rfl⟩ := mem_map.mp (mem_reverse.mp member)
  exact ⟨pos.1, mem_of_mem_take (fst_mem_of_mem_zipIdx here)⟩

theorem PassedRight.append {code : Code} {place : Place} {isLocal : Bool} {one other : List Insn}
    (first : PassedRight code place isLocal one) (second : PassedRight code place isLocal other) :
    PassedRight code place isLocal (one ++ other) := by
  intro insn member
  rcases mem_append.mp member with here | there
  · exact first insn here
  · exact second insn there

theorem findDominatingParents_passed {code : Code} {place : Place} {isLocal : Bool}
    {self : Nat × Nat} (levels bb : Nat) (search : Search)
    (right : PassedRight code place isLocal search.passed) :
    PassedRight code place isLocal
      (findDominatingParents code place isLocal self levels bb search).passed := by
  induction levels generalizing bb search with
  | zero => exact right
  | succ levels ih =>
    unfold findDominatingParents
    generalize code.parents bb = parents
    induction parents generalizing search with
    | nil => exact right
    | cons parent parents inner =>
      rw [foldl_cons]
      apply inner
      split
      · have above : PassedRight code place isLocal
            (scanBack place isLocal self (code.backward parent)).1 :=
          scanBack_passed (backward_inside code parent)
        have more := right.append above
        simp only
        split
        · exact more
        · exact more
        · split
          · exact more
          · exact ih parent _ more
      · exact right

theorem loadSearch_passed (code : Code) (pos : Nat × Nat) (place : Place) (isLocal : Bool) :
    PassedRight code place isLocal (loadSearch code pos place isLocal).passed := by
  have first : PassedRight code place isLocal
      (scanBack place isLocal pos (code.before pos)).1 :=
    scanBack_passed (before_inside code pos)
  unfold loadSearch
  simp only
  split
  · exact first
  · exact first
  · exact findDominatingParents_passed _ _ _ first

theorem mem_accesses {code : Code} {insn : Insn} {bb : Nat} {place : Place}
    (member : some insn ∈ code.insns bb) (access : insn.place? = some place) :
    place ∈ code.accesses place.src := by
  unfold Code.insns at member
  cases found : code.blocks[bb]? with
  | none =>
    rw [found] at member
    cases member
  | some block =>
    rw [found] at member
    refine mem_filter.mpr ⟨mem_flatMap.mpr ⟨block, mem_of_getElem? found, ?_⟩,
      decide_eq_true rfl⟩
    exact mem_filterMap.mpr ⟨some insn, member, access⟩

/-- `dominates` judges all accesses through the pseudo of a load right, and the search passes no
store that can change a byte of the load, exactly if no such access overlaps the load at the edge.
-/
theorem load_judged_iff (code : Code) (pos : Nat × Nat) (place : Place) (isLocal : Bool)
    (small : place.size < 2 ^ 24)
    (smalls : ∀ dom ∈ code.accesses place.src, dom.size < 2 ^ 24) :
    ((∀ dom ∈ code.accesses place.src, JudgedRight place dom isLocal) ∧
      ∀ insn ∈ (loadSearch code pos place isLocal).passed, ∀ dom, insn.place? = some dom →
        dom.src = place.src → ¬ Intersect place dom) ↔
      ∀ dom ∈ code.accesses place.src, ¬ OverlapAtEdge place dom := by
  have source : ∀ dom ∈ code.accesses place.src, dom.src = place.src := by
    intro dom member
    exact of_decide_eq_true (mem_filter.mp member).2
  constructor
  · rintro ⟨judged, -⟩ dom member
    exact (judgedRight_iff (source dom member) isLocal small (smalls dom member)).mp
      (judged dom member)
  · intro notEdge
    have judged : ∀ dom ∈ code.accesses place.src, JudgedRight place dom isLocal :=
      fun dom member => (judgedRight_iff (source dom member) isLocal small
        (smalls dom member)).mpr (notEdge dom member)
    refine ⟨judged, fun insn member dom access same => ?_⟩
    obtain ⟨⟨bb, here⟩, no⟩ := loadSearch_passed code pos place isLocal insn member
    have inside := mem_accesses here access
    rw [same] at inside
    apply (judged dom inside).apart
    cases insn with
    | load target other isVolatile =>
      cases access
      exact no
    | store value other isVolatile typed =>
      cases access
      exact no
    | call | entry | asm | op => cases access

def storeBehind : Code where
  blocks := [⟨[some (.store (.val 1) ⟨.reg 0, 4, 32⟩ false true),
    some (.load 1 ⟨.reg 0, 0, 32⟩ false)], [], []⟩]
  isStatic _ := false

theorem load_judged_iff_storeBehind :
    ((∀ dom ∈ storeBehind.accesses (.reg 0), JudgedRight ⟨.reg 0, 0, 32⟩ dom false) ∧
      ∀ insn ∈ (loadSearch storeBehind (0, 1) ⟨.reg 0, 0, 32⟩ false).passed, ∀ dom,
        insn.place? = some dom → dom.src = .reg 0 → ¬ Intersect ⟨.reg 0, 0, 32⟩ dom) ↔
      ∀ dom ∈ storeBehind.accesses (.reg 0), ¬ OverlapAtEdge ⟨.reg 0, 0, 32⟩ dom :=
  load_judged_iff storeBehind (0, 1) ⟨.reg 0, 0, 32⟩ false (by decide) (by decide)

def narrowLoad : Place := ⟨.reg 0, 0, 32⟩

def wideStore : Place := ⟨.reg 0, -4, 64⟩

/-- The store overlaps the load, but `dominates` answers that it does not matter. -/
theorem not_judgedRight_below : ¬ ∀ insn dom : Place, dom.src = insn.src → insn.size < 2 ^ 24 →
    dom.size < 2 ^ 24 → ∀ isLocal, JudgedRight insn dom isLocal := by
  intro all
  have right := all narrowLoad wideStore rfl (by decide) (by decide) false
  exact right.apart (by decide) ⟨0, ⟨by decide, by decide⟩, ⟨by decide, by decide⟩⟩

end SmatchFormal.Memops
