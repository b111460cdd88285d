import SmatchFormal.Ptrlist.SortMerge

/-!
# The passes of the sort

A pass merges the ordered runs of the list in pairs, so that they get twice as long; where the
blocks of a list are no more than those of a run, the list is in order.  When the only pair of a
pass holds the head, the pass goes on from the block that was the head before, over a list that is
in order already.
-/

namespace SmatchFormal.Ptrlist

open SmatchFormal.Lib List

variable {α : Type} {cmp : Option α → Option α → Int} {le : Option α → Option α → Bool}
variable {h h₁ h' : Heap α} {front back nodes nodes₁ nodes' run rest mid post : List Addr}
variable {head b c d b1 b2 : Addr} {k fuel : Nat}

structure Passed (le : Option α → Option α → Bool) (h h' : Heap α) (nodes nodes' : List Addr) :
    Prop where
  perm : nodes'.Perm nodes
  rearranged : Rearranged le (nodes.flatMap h.entries) (nodes'.flatMap h'.entries)
  kept : ∀ a, a ∉ nodes → h'.entries a = h.entries a

namespace Passed

theorem refl (le : Option α → Option α → Bool) (h : Heap α) (nodes : List Addr) :
    Passed le h h nodes nodes := ⟨.refl _, .refl _ _, fun _ _ => rfl⟩

theorem trans (one : Passed le h h₁ nodes nodes₁) (two : Passed le h₁ h' nodes₁ nodes') :
    Passed le h h' nodes nodes' := by
  refine ⟨two.perm.trans one.perm, one.rearranged.trans two.rearranged, fun a outside => ?_⟩
  exact (two.kept a fun member => outside (one.perm.subset member)).trans (one.kept a outside)

/-- Blocks that nothing was done to hold what they held. -/
theorem flatMap_eq (passed : Passed le h h' nodes nodes') (apart : rest.Disjoint nodes) :
    rest.flatMap h'.entries = rest.flatMap h.entries :=
  flatMap_congr fun a member => passed.kept a (apart member)

theorem between (passed : Passed le h h' nodes nodes') (before : front.Disjoint nodes)
    (after : back.Disjoint nodes) :
    Passed le h h' (front ++ nodes ++ back) (front ++ nodes' ++ back) := by
  refine ⟨(passed.perm.append_left front).append_right back, ?_, fun a outside => ?_⟩
  · rw [flatMap_append, flatMap_append, flatMap_append, flatMap_append,
      passed.flatMap_eq before, passed.flatMap_eq after]
    exact (Rearranged.append (.refl le _) passed.rearranged).append (.refl le _)
  · simp only [mem_append, not_or] at outside
    exact passed.kept a outside.1.2

end Passed

/-- Blocks in runs of `k`, each of which is in order.  The last run may be shorter. -/
inductive Runs (le : Option α → Option α → Bool) (h : Heap α) (k : Nat) : List Addr → Prop where
  | last {nodes : List Addr} (short : nodes.length ≤ k)
      (ordered : Ordered le (nodes.flatMap h.entries)) : Runs le h k nodes
  | cons {run rest : List Addr} (full : run.length = k)
      (ordered : Ordered le (run.flatMap h.entries)) (runs : Runs le h k rest) :
      Runs le h k (run ++ rest)

namespace Runs

theorem congr (runs : Runs le h k nodes) (same : ∀ a ∈ nodes, h'.entries a = h.entries a) :
    Runs le h' k nodes := by
  induction runs with
  | last short ordered => exact .last short (flatMap_congr same ▸ ordered)
  | @cons run rest full ordered _ ih =>
    refine .cons full ?_ (ih fun a member => same a (mem_append_right _ member))
    rw [flatMap_congr fun a member => same a (mem_append_left rest member)]
    exact ordered

theorem ordered (runs : Runs le h k nodes) (short : nodes.length ≤ k) :
    Ordered le (nodes.flatMap h.entries) := by
  cases runs with
  | last _ ordered => exact ordered
  | @cons run rest full ordered _ =>
    rw [length_append, full] at short
    have none : rest = [] := length_eq_zero_iff.mp (by omega)
    rw [none, append_nil]
    exact ordered

theorem of_ordered (positive : 0 < k) (ordered : Ordered le (nodes.flatMap h.entries)) :
    Runs le h k nodes := by
  induction count : nodes.length using Nat.strong_induction_on generalizing nodes with
  | _ n ih =>
    by_cases short : nodes.length ≤ k
    · exact .last short ordered
    · rw [← take_append_drop k nodes, flatMap_append] at ordered
      obtain ⟨first, later, -⟩ := pairwise_append.mp ordered
      rw [← take_append_drop k nodes]
      refine .cons (length_take_of_le (by omega)) first (ih _ ?_ later rfl)
      rw [length_drop]
      omega

theorem split (runs : Runs le h k nodes) (more : k < nodes.length) :
    ∃ run rest, nodes = run ++ rest ∧ run.length = k ∧ rest ≠ [] ∧
      Ordered le (run.flatMap h.entries) ∧ Runs le h k rest := by
  cases runs with
  | last short _ => exact absurd more (Nat.not_lt.mpr short)
  | @cons run rest full ordered runs =>
    refine ⟨run, rest, rfl, full, fun none => ?_, ordered, runs⟩
    rw [none, append_nil, full] at more
    exact Nat.lt_irrefl k more

theorem pair (positive : 0 < k) (runs : Runs le h k nodes) (more : k < nodes.length) :
    ∃ run₁ run₂ rest, nodes = run₁ ++ run₂ ++ rest ∧ run₁.length = k ∧ run₂ ≠ [] ∧
      run₂.length ≤ k ∧ (rest ≠ [] → run₂.length = k) ∧
      Ordered le (run₁.flatMap h.entries) ∧ Ordered le (run₂.flatMap h.entries) ∧
      Runs le h k rest := by
  obtain ⟨run₁, later, rfl, full₁, some, ordered₁, runs⟩ := runs.split more
  by_cases more : k < later.length
  · obtain ⟨run₂, rest, rfl, full₂, -, ordered₂, runs⟩ := runs.split more
    refine ⟨run₁, run₂, rest, (append_assoc _ _ _).symm, full₁, fun none => ?_,
      Nat.le_of_eq full₂, fun _ => full₂, ordered₁, ordered₂, runs⟩
    rw [none] at full₂
    exact Nat.ne_of_gt positive full₂.symm
  · refine ⟨run₁, later, [], (append_nil _).symm, full₁, some, Nat.not_lt.mp more,
      fun other => absurd rfl other, ordered₁, runs.ordered (Nat.not_lt.mp more),
      .last (Nat.zero_le _) .nil⟩

end Runs

theorem stride_some (circle : Circular h.next h.prev (front ++ b :: (mid ++ c :: post)))
    (first : (front ++ b :: (mid ++ c :: post)).head? = some head) :
    stride h head (mid.length + 1) b = some (some c) := by
  induction mid generalizing b front with
  | nil =>
    have after : h.next b = some c := circle.next_eq
    have away : c ≠ head := fun same => circle.head_ne (first.trans (congrArg some same.symm))
    rw [length_nil, stride, after, Option.bind_eq_bind, Option.bind_some, if_neg away]
    rfl
  | cons d mid ih =>
    have after : h.next b = some d := circle.next_eq
    have away : d ≠ head := fun same => circle.head_ne (first.trans (congrArg some same.symm))
    rw [append_cons] at circle first
    rw [length_cons, stride, after, Option.bind_eq_bind, Option.bind_some, if_neg away]
    exact ih circle first

theorem stride_none (front : List Addr) (circle : Circular h.next h.prev (front ++ b :: rest))
    (first : (front ++ b :: rest).head? = some head) (short : rest.length < k) :
    stride h head k b = some none := by
  induction rest generalizing b front k with
  | nil =>
    obtain ⟨k, rfl⟩ := Nat.exists_eq_succ_of_ne_zero (Nat.ne_of_gt short)
    have after : h.next b = some head := by
      rw [circle.next_eq, ← first]
      cases front <;> rfl
    rw [stride, after, Option.bind_eq_bind, Option.bind_some, if_pos rfl]
  | cons d rest ih =>
    obtain ⟨k, rfl⟩ := Nat.exists_eq_succ_of_ne_zero (Nat.ne_of_gt (Nat.zero_lt_of_lt short))
    have after : h.next b = some d := circle.next_eq
    have away : d ≠ head := fun same => circle.head_ne (first.trans (congrArg some same.symm))
    rw [append_cons] at circle first
    rw [stride, after, Option.bind_eq_bind, Option.bind_some, if_neg away]
    exact ih (front ++ [b]) circle first (Nat.lt_of_succ_lt_succ short)

/-- The block after the second run, or the head, and the number of blocks of the second run. -/
theorem span_some (circle : Circular h.next h.prev (front ++ b :: (run ++ rest)))
    (first : (front ++ b :: (run ++ rest)).head? = some head) (short : run.length < k)
    (full : rest ≠ [] → run.length + 1 = k) (i : Nat) :
    ∃ c, span h head k b i = some (c, i + run.length + 1) ∧ (rest ++ [head]).head? = some c := by
  induction run generalizing b front k i with
  | nil =>
    obtain ⟨k, rfl⟩ := Nat.exists_eq_succ_of_ne_zero (Nat.ne_of_gt short)
    cases rest with
    | nil =>
      have after : h.next b = some head := by
        rw [circle.next_eq, ← first]
        cases front <;> rfl
      refine ⟨head, ?_, rfl⟩
      rw [span, after, Option.bind_eq_bind, Option.bind_some, if_pos rfl]
      rfl
    | cons c rest =>
      have one : 0 = k := Nat.succ.inj (full (cons_ne_nil _ _))
      subst one
      have after : h.next b = some c := circle.next_eq
      have away : c ≠ head := fun same => circle.head_ne (first.trans (congrArg some same.symm))
      refine ⟨c, ?_, rfl⟩
      rw [span, after, Option.bind_eq_bind, Option.bind_some, if_neg away]
      rfl
  | cons d run ih =>
    obtain ⟨k, rfl⟩ := Nat.exists_eq_succ_of_ne_zero (Nat.ne_of_gt (Nat.zero_lt_of_lt short))
    have after : h.next b = some d := circle.next_eq
    have away : d ≠ head := fun same => circle.head_ne (first.trans (congrArg some same.symm))
    rw [append_cons] at circle first
    obtain ⟨c, spanned, place⟩ := ih circle first (Nat.lt_of_succ_lt_succ short)
      (fun some => Nat.succ.inj (full some)) (i + 1)
    refine ⟨c, ?_, place⟩
    rw [span, after, Option.bind_eq_bind, Option.bind_some, if_neg away, spanned,
      length_cons]
    congr 2
    omega

theorem MergeJob.Finished.passed {run₁ run₂ : List Addr} {newhead : Addr}
    (finished : (MergeJob.ofRuns cmp h front back run₁ run₂).Finished h' newhead)
    (order : TotalPreorder (cmpLe cmp)) (ordered₁ : Ordered (cmpLe cmp) (run₁.flatMap h.entries))
    (ordered₂ : Ordered (cmpLe cmp) (run₂.flatMap h.entries)) :
    ∃ merged, Circular h'.next h'.prev (front ++ merged ++ back) ∧
      merged.head? = some newhead ∧ Passed (cmpLe cmp) h h' (run₁ ++ run₂) merged ∧
      Ordered (cmpLe cmp) (merged.flatMap h'.entries) := by
  obtain ⟨merged, circle, perm, first, content, kept⟩ := finished
  have content : merged.flatMap h'.entries =
      List.merge (run₁.flatMap h.entries) (run₂.flatMap h.entries) (cmpLe cmp) := content
  refine ⟨merged, circle, first, ⟨perm, ?_, kept⟩, ?_⟩
  · rw [content, flatMap_append]
    exact .merge order ordered₁ _
  · rw [content]
    exact ordered₁.merge order ordered₂

/-- A turn of a pass where there is a second run. -/
theorem pass_pair (front : List Addr) {run1 run2 : List Addr} (order : TotalPreorder (cmpLe cmp))
    (circle : Circular h.next h.prev (front ++ (b1 :: run1 ++ b2 :: run2) ++ rest))
    (first : (front ++ (b1 :: run1 ++ b2 :: run2) ++ rest).head? = some head)
    (full1 : run1.length + 1 = k) (short2 : run2.length < k)
    (full2 : rest ≠ [] → run2.length + 1 = k)
    (ordered : Ordered (cmpLe cmp) ((b1 :: run1).flatMap h.entries)) (fuel : Nat) :
    ∃ h' newhead next,
      (MergeJob.ofRuns cmp h front rest (b1 :: run1) (b2 :: run2)).Finished h' newhead ∧
      (rest ++ [head]).head? = some next ∧
      ∀ head', (if b1 = head then newhead else head) = head' →
        pass cmp k (fuel + 1) h head b1 =
          if next = head' then some (h', head', false) else pass cmp k fuel h' head' next := by
  obtain ⟨h', newhead, merged, finished⟩ := mergeBlockSeqs_some order circle ordered
  have shape : front ++ (b1 :: run1 ++ b2 :: run2) ++ rest =
      front ++ b1 :: (run1 ++ b2 :: (run2 ++ rest)) := by simp
  have shape' : front ++ (b1 :: run1 ++ b2 :: run2) ++ rest =
      (front ++ b1 :: run1) ++ b2 :: (run2 ++ rest) := by simp
  have strode := stride_some (shape ▸ circle) (shape ▸ first)
  obtain ⟨next, spanned, place⟩ := span_some (shape' ▸ circle) (shape' ▸ first) short2 full2 0
  rw [full1] at strode merged
  refine ⟨h', newhead, next, finished, place, fun head' same => ?_⟩
  simp only [pass, strode, spanned, Nat.zero_add, merged, Option.bind_eq_bind, Option.bind_some,
    same]

/-- A pass over runs that do not hold the head. -/
theorem pass_some (order : TotalPreorder (cmpLe cmp)) (positive : 0 < k)
    (circle : Circular h.next h.prev (front ++ b :: rest))
    (first : (front ++ b :: rest).head? = some head) (inside : front ≠ [])
    (runs : Runs (cmpLe cmp) h k (b :: rest)) (enough : rest.length < fuel) :
    ∃ h' nodes', pass cmp k fuel h head b = some (h', head, false) ∧
      Circular h'.next h'.prev (front ++ nodes') ∧ Passed (cmpLe cmp) h h' (b :: rest) nodes' ∧
      Runs (cmpLe cmp) h' (2 * k) nodes' := by
  induction fuel generalizing h front b rest with
  | zero => exact absurd enough (Nat.not_lt_zero _)
  | succ fuel ih =>
    have atHead : head ∈ front := by
      cases front with
      | nil => exact absurd rfl inside
      | cons a front => exact Option.some.inj first ▸ mem_cons_self
    have away : ∀ c ∈ b :: rest, c ≠ head := fun c member same =>
      (nodup_append'.mp circle.distinct).2.2 atHead (same ▸ member)
    by_cases more : k < (b :: rest).length
    · obtain ⟨run₁, run₂, later, split, full₁, some₂, short₂, full₂, ordered₁, ordered₂, runs⟩ :=
        runs.pair positive more
      obtain ⟨b₁, run₁, rfl⟩ := exists_cons_of_length_pos (full₁ ▸ positive)
      obtain ⟨b₂, run₂, rfl⟩ := exists_cons_of_ne_nil some₂
      have start : b = b₁ := by
        have heads := congrArg List.head? split
        exact Option.some.inj heads
      subst start
      rw [split, ← append_assoc] at circle first
      obtain ⟨h₁, newhead, next, finished, place, turned⟩ :=
        pass_pair front order circle first full₁ short₂ full₂ ordered₁ fuel
      obtain ⟨merged, circle₁, -, passed₁, ordered⟩ := finished.passed order ordered₁ ordered₂
      rw [turned head (if_neg (away b mem_cons_self))]
      have length := passed₁.perm.length_eq
      rw [length_append] at length
      cases later with
      | nil =>
        rw [append_nil] at circle₁ split
        rw [if_pos (Option.some.inj place).symm]
        refine ⟨h₁, merged, rfl, circle₁, split ▸ passed₁, .last ?_ ordered⟩
        omega
      | cons c later =>
        have atNext : c = next := Option.some.inj place
        subst atNext
        rw [if_neg (away c (split ▸ by simp))]
        obtain ⟨-, -, apart⟩ := nodup_append'.mp circle.distinct
        obtain ⟨-, -, apart₁⟩ := nodup_append'.mp circle₁.distinct
        have fresh : (c :: later).Disjoint ((b :: run₁) ++ (b₂ :: run₂)) := fun a one two =>
          apart (mem_append_right _ two) one
        have fresh₁ : merged.Disjoint (c :: later) := fun a one two =>
          apart₁ (mem_append_right _ one) two
        have runs₁ := runs.congr fun a member => passed₁.kept a (fresh member)
        have first₁ : (front ++ merged ++ c :: later).head? = some head := by
          rw [← first, append_assoc, append_assoc, append_assoc]
          exact (List.head?_append_of_ne_nil _ inside).trans
            (List.head?_append_of_ne_nil _ inside).symm
        have counted := congrArg List.length split
        simp only [length_append, length_cons] at counted
        have enough₁ : later.length < fuel := by omega
        obtain ⟨h', nodes', done, circle', passed', runs'⟩ :=
          ih circle₁ first₁ (by simp [inside]) runs₁ enough₁
        refine ⟨h', merged ++ nodes', done, ?_, ?_, ?_⟩
        · rw [← append_assoc]
          exact circle'
        · rw [split]
          have one := passed₁.between (disjoint_nil_left _) fresh
          have two := passed'.between fresh₁ (disjoint_nil_left _)
          rw [append_nil, append_nil] at two
          exact one.trans two
        · refine .cons ?_ ?_ runs'
          · rw [length, full₁, full₂ (cons_ne_nil _ _)]
            omega
          · rw [passed'.flatMap_eq fresh₁]
            exact ordered
    · have short : rest.length < k := Nat.not_lt.mp more
      refine ⟨h, b :: rest, ?_, circle, .refl _ h _, .last ?_ (runs.ordered (Nat.not_lt.mp more))⟩
      · simp only [pass, stride_none front circle first short, Option.bind_eq_bind,
          Option.bind_some,
          decide_eq_false (away b mem_cons_self)]
      · have bound := Nat.not_lt.mp more
        omega

/-- A pass over a list of one run finds that the sort is over. -/
theorem pass_over (circle : Circular h.next h.prev nodes) (first : nodes.head? = some head)
    (short : nodes.length ≤ k) (enough : 0 < fuel) :
    pass cmp k fuel h head head = some (h, head, true) := by
  obtain ⟨fuel, rfl⟩ := Nat.exists_eq_succ_of_ne_zero (Nat.ne_of_gt enough)
  cases nodes with
  | nil => exact absurd first.symm (Option.some_ne_none head)
  | cons a rest =>
    have same : a = head := Option.some.inj first
    subst same
    have none : stride h a k a = some none := stride_none [] circle rfl short
    simp only [pass, none, Option.bind_eq_bind, Option.bind_some, decide_true]

theorem pass_whole (order : TotalPreorder (cmpLe cmp)) (positive : 0 < k)
    (circle : Circular h.next h.prev nodes) (first : nodes.head? = some head)
    (runs : Runs (cmpLe cmp) h k nodes) (more : k < nodes.length) (enough : nodes.length < fuel) :
    ∃ h' head' nodes', pass cmp k fuel h head head = some (h', head', false) ∧
      Circular h'.next h'.prev nodes' ∧ nodes'.head? = some head' ∧
      Passed (cmpLe cmp) h h' nodes nodes' ∧ Runs (cmpLe cmp) h' (2 * k) nodes' := by
  obtain ⟨fuel, rfl⟩ := Nat.exists_eq_succ_of_ne_zero (Nat.ne_of_gt (Nat.zero_lt_of_lt enough))
  obtain ⟨run₁, run₂, later, split, full₁, some₂, short₂, full₂, ordered₁, ordered₂, laterRuns⟩ :=
    runs.pair positive more
  obtain ⟨b₁, run₁, rfl⟩ := exists_cons_of_length_pos (full₁ ▸ positive)
  obtain ⟨b₂, run₂, rfl⟩ := exists_cons_of_ne_nil some₂
  subst split
  have start : b₁ = head := Option.some.inj first
  subst start
  obtain ⟨h₁, newhead, next, finished, place, turned⟩ :=
    pass_pair [] order circle rfl full₁ short₂ full₂ ordered₁ fuel
  obtain ⟨merged, circle₁, first₁, passed₁, ordered⟩ := finished.passed order ordered₁ ordered₂
  rw [nil_append] at circle₁
  rw [turned newhead (if_pos rfl)]
  have length := passed₁.perm.length_eq
  have total : (b₁ :: run₁ ++ b₂ :: run₂).length + later.length < fuel + 1 :=
    length_append ▸ enough
  rw [← passed₁.perm.length_eq] at total
  rw [length_append] at length
  cases later with
  | nil =>
    -- the only pair holds the old head, from which the pass goes on unless it is the new one
    have atNext : b₁ = next := Option.some.inj place
    subst atNext
    rw [append_nil] at circle₁ ⊢
    have short : merged.length ≤ 2 * k := by omega
    by_cases same : b₁ = newhead
    · rw [if_pos same]
      exact ⟨h₁, newhead, merged, rfl, circle₁, first₁, passed₁, .last short ordered⟩
    · rw [if_neg same]
      have member : b₁ ∈ merged := passed₁.perm.symm.subset (by simp)
      obtain ⟨init, tail, rfl⟩ := append_of_mem member
      have inside : init ≠ [] := fun none => by
        rw [none] at first₁
        exact same (Option.some.inj first₁)
      rw [flatMap_append] at ordered
      have runs₁ := Runs.of_ordered positive (pairwise_append.mp ordered).2.1
      rw [length_append, length_cons] at length short
      have enough₁ : tail.length < fuel := by
        rw [length_append, length_cons] at total
        omega
      obtain ⟨h', nodes', done, circle', passed', runs'⟩ :=
        pass_some order positive circle₁ first₁ inside runs₁ enough₁
      have apart : init.Disjoint (b₁ :: tail) := (nodup_append'.mp circle₁.distinct).2.2
      have whole := passed'.between apart (disjoint_nil_left _)
      rw [append_nil, append_nil] at whole
      have length' := passed'.perm.length_eq
      rw [length_cons] at length'
      refine ⟨h', newhead, init ++ nodes', done, circle', ?_, passed₁.trans whole, .last ?_ ?_⟩
      · rw [← first₁]
        exact (List.head?_append_of_ne_nil _ inside).trans
          (List.head?_append_of_ne_nil _ inside).symm
      · rw [length_append]
        omega
      · rw [flatMap_append, passed'.flatMap_eq apart]
        exact ordered.replace passed'.rearranged.perm (runs'.ordered (by omega))
  | cons c later =>
    have atNext : c = next := Option.some.inj place
    subst atNext
    have apart : (c :: later).Disjoint (b₁ :: run₁ ++ b₂ :: run₂) := fun a one two =>
      (nodup_append'.mp circle.distinct).2.2 two one
    have apart₁ : merged.Disjoint (c :: later) := (nodup_append'.mp circle₁.distinct).2.2
    have away : c ≠ newhead := fun same =>
      apart₁ (mem_of_mem_head? first₁) (same ▸ mem_cons_self)
    have inside : merged ≠ [] := fun none => by
      rw [none] at first₁
      exact Option.some_ne_none newhead first₁.symm
    have first : (merged ++ c :: later).head? = some newhead :=
      (List.head?_append_of_ne_nil _ inside).trans first₁
    have runs₁ := laterRuns.congr fun a member => passed₁.kept a (apart member)
    rw [if_neg away]
    have enough₁ : later.length < fuel := by
      rw [length_cons] at total
      omega
    obtain ⟨h', nodes', done, circle', passed', runs'⟩ :=
      pass_some order positive circle₁ first inside runs₁ enough₁
    refine ⟨h', newhead, merged ++ nodes', done, circle', ?_, ?_, .cons ?_ ?_ runs'⟩
    · exact (List.head?_append_of_ne_nil _ inside).trans first₁
    · have one := passed₁.between (disjoint_nil_left _) apart
      have two := passed'.between apart₁ (disjoint_nil_left _)
      rw [append_nil, append_nil] at two
      exact one.trans two
    · rw [length, full₁, full₂ (cons_ne_nil _ _)]
      omega
    · rw [passed'.flatMap_eq apart₁]
      exact ordered

end SmatchFormal.Ptrlist
