import SmatchFormal.Phi.Ssa

/-!
# Trivial phi-nodes

`trivial_phi` of `simplify.c`: the phi-nodes that it visits have no sources but each other and one
pseudo.  In a function in static single assignment form the pseudo is then available, and has the
value of the phi-node, wherever the phi-node is used.
-/

namespace SmatchFormal.Phi

open List

variable {Block : Type}

/-! ## The walk -/

/-- What `trivial_phi` returns: nothing when the fuel does not suffice, `NULL`, or a pseudo with the
list of the visited targets. -/
inductive Trivial where
  | spent
  | null
  | unique (pseudo : Pseudo) (list : List Nat)

def Function.phiNode (f : Function Block) : Pseudo → Option (Nat × List (Option Nat))
  | .reg nr => (f.regDef nr).phiList.map fun phiList => (nr, phiList)
  | _ => none

def Function.scan (f : Function Block) (target : Nat)
    (recurse : Pseudo → Nat → List (Option Nat) → List Nat → Trivial) :
    List (Option Nat) → Option Pseudo → List Nat → Trivial
  | [], pseudo, list => .unique (pseudo.getD .void) list
  | none :: rest, pseudo, list => f.scan target recurse rest pseudo list
  | some phi :: rest, pseudo, list =>
    let src := (f.phiDef phi).phiSrc
    if (f.phiDef phi).bb = none then f.scan target recurse rest pseudo list
    else if src = .void then f.scan target recurse rest pseudo list
    else if src = .reg target then f.scan target recurse rest pseudo list
    else
      match pseudo with
      | none => f.scan target recurse rest (some src) list
      | some pseudo =>
        if src = pseudo then f.scan target recurse rest (some pseudo) list
        else
          match f.phiNode src with
          | none => .null
          | some (nr, phiList) =>
            if nr ∈ list then f.scan target recurse rest (some pseudo) list
            else
              match recurse pseudo nr phiList list with
              | .unique pseudo list => f.scan target recurse rest (some pseudo) list
              | other => other

/-- `trivial_phi`, with fuel for the depth of the recursion. -/
def Function.trivialPhi (f : Function Block) :
    Nat → Option Pseudo → Nat → List (Option Nat) → List Nat → Trivial
  | 0, _, _, _, _ => .spent
  | fuel + 1, pseudo, target, phiList, list =>
    f.scan target (fun pseudo => f.trivialPhi fuel (some pseudo)) phiList pseudo
      (list ++ [target])

/-! ## What it visits -/

def Function.Inner (f : Function Block) (pseudo : Pseudo) (list : List Nat) (phi : Nat) : Prop :=
  (f.phiDef phi).bb = none ∨ (f.phiDef phi).phiSrc = .void ∨ (f.phiDef phi).phiSrc = pseudo ∨
    ∃ nr ∈ list, (f.phiDef phi).phiSrc = .reg nr

def Function.Covered (f : Function Block) (pseudo : Pseudo) (list : List Nat) (target : Nat) :
    Prop :=
  ∃ phiList, (f.regDef target).phiList = some phiList ∧
    ∀ phi, some phi ∈ phiList → f.Inner pseudo list phi

structure Function.Closed (f : Function Block) (pseudo : Pseudo) (list : List Nat) : Prop where
  outside : ∀ target ∈ list, pseudo ≠ .reg target
  covered : ∀ target ∈ list, f.Covered pseudo list target

section Walk

variable {f : Function Block} {pseudo : Pseudo} {list later : List Nat}

theorem Function.Inner.mono {phi : Nat} (inner : f.Inner pseudo list phi) (more : list ⊆ later) :
    f.Inner pseudo later phi := by
  obtain dead | void | same | ⟨nr, member, source⟩ := inner
  · exact .inl dead
  · exact .inr (.inl void)
  · exact .inr (.inr (.inl same))
  · exact .inr (.inr (.inr ⟨nr, more member, source⟩))

theorem Function.Covered.mono {target : Nat} (covered : f.Covered pseudo list target)
    (more : list ⊆ later) : f.Covered pseudo later target := by
  obtain ⟨phiList, node, inner⟩ := covered
  exact ⟨phiList, node, fun phi member => (inner phi member).mono more⟩

structure Function.Walked (f : Function Block) (pseudo : Pseudo) (list later : List Nat) :
    Prop where
  more : list ⊆ later
  outside : (∀ target ∈ list, pseudo ≠ .reg target) → ∀ target ∈ later, pseudo ≠ .reg target
  fresh : ∀ target ∈ later, target ∉ list → f.Covered pseudo later target

theorem Function.Walked.refl : f.Walked pseudo list list where
  more := List.Subset.refl list
  outside := fun outside => outside
  fresh := fun _ member new => (new member).elim

theorem Function.Walked.trans {middle : List Nat} (first : f.Walked pseudo list middle)
    (second : f.Walked pseudo middle later) : f.Walked pseudo list later where
  more := fun _ member => second.more (first.more member)
  outside := fun outside => second.outside (first.outside outside)
  fresh := fun target member new => by
    by_cases known : target ∈ middle
    · exact (first.fresh target known new).mono second.more
    · exact second.fresh target member known

variable {target : Nat} {recurse : Pseudo → Nat → List (Option Nat) → List Nat → Trivial}
  {result : Pseudo}

theorem phiNode_eq_some {src : Pseudo} {nr : Nat} {phiList : List (Option Nat)}
    (node : f.phiNode src = some (nr, phiList)) :
    src = .reg nr ∧ (f.regDef nr).phiList = some phiList := by
  cases src with
  | reg other =>
    obtain ⟨found, list, same⟩ := Option.map_eq_some_iff.mp node
    cases same
    exact ⟨rfl, list⟩
  | void | undef | arg | sym | val => cases node

/-- The loop with a candidate, given what the recursive calls do. -/
theorem scan_some
    (calls : ∀ nr phiList list result later, recurse pseudo nr phiList list = .unique result later →
      (f.regDef nr).phiList = some phiList → pseudo ≠ .reg nr →
      result = pseudo ∧ f.Walked pseudo list later ∧ nr ∈ later)
    {rest : List (Option Nat)} (member : target ∈ list)
    (scan : f.scan target recurse rest (some pseudo) list = .unique result later) :
    result = pseudo ∧ f.Walked pseudo list later ∧
      ∀ phi, some phi ∈ rest → f.Inner pseudo later phi := by
  induction rest generalizing list with
  | nil =>
    cases scan
    exact ⟨rfl, .refl, fun phi absent => by cases absent⟩
  | cons entry rest ih =>
    cases entry with
    | none =>
      obtain ⟨same, walked, inner⟩ := ih member scan
      refine ⟨same, walked, fun phi inside => inner phi ?_⟩
      exact (mem_cons.mp inside).resolve_left (by simp)
    | some first =>
      -- A source that the loop passes is an inner one.
      have passes : ∀ {middle : List Nat}, f.Walked pseudo list middle →
          f.Inner pseudo middle first →
          f.scan target recurse rest (some pseudo) middle = .unique result later →
          result = pseudo ∧ f.Walked pseudo list later ∧
            ∀ phi, some phi ∈ some first :: rest → f.Inner pseudo later phi := by
        intro middle walked own scan
        obtain ⟨same, further, inner⟩ := ih (walked.more member) scan
        refine ⟨same, walked.trans further, fun phi inside => ?_⟩
        obtain equal | later := mem_cons.mp inside
        · cases equal
          exact own.mono further.more
        · exact inner phi later
      simp only [Function.scan] at scan
      split at scan
      next dead => exact passes .refl (.inl dead) scan
      next =>
      split at scan
      next void => exact passes .refl (.inr (.inl void)) scan
      next =>
      split at scan
      next self => exact passes .refl (.inr (.inr (.inr ⟨target, member, self⟩))) scan
      next =>
      split at scan
      next same => exact passes .refl (.inr (.inr (.inl same))) scan
      next different =>
      split at scan
      next => cases scan
      next nr phiList node =>
      obtain ⟨source, known⟩ := phiNode_eq_some node
      split at scan
      next visited => exact passes .refl (.inr (.inr (.inr ⟨nr, visited, source⟩))) scan
      next =>
      cases call : recurse pseudo nr phiList list with
      | spent =>
        rw [call] at scan
        cases scan
      | null =>
        rw [call] at scan
        cases scan
      | unique other middle =>
        rw [call] at scan
        have distinct : pseudo ≠ .reg nr := fun same => different (source.trans same.symm)
        obtain ⟨same, walked, visited⟩ := calls nr phiList list other middle call known distinct
        cases same
        exact passes walked (.inr (.inr (.inr ⟨nr, visited, source⟩))) scan

theorem trivialPhi_some {fuel : Nat} {phiList : List (Option Nat)}
    (walk : f.trivialPhi fuel (some pseudo) target phiList list = .unique result later)
    (node : (f.regDef target).phiList = some phiList) (distinct : pseudo ≠ .reg target) :
    result = pseudo ∧ f.Walked pseudo list later ∧ target ∈ later := by
  induction fuel generalizing target phiList list result later with
  | zero => cases walk
  | succ fuel ih =>
    have self : target ∈ list ++ [target] := mem_append_right _ (mem_singleton_self _)
    obtain ⟨same, walked, inner⟩ := scan_some
      (fun nr phiList list result later call known distinct => ih call known distinct) self walk
    refine ⟨same, ?_, walked.more self⟩
    exact {
      more := fun nr member => walked.more (mem_append_left _ member)
      outside := fun outside => walked.outside fun other member => by
        obtain old | new := mem_append.mp member
        · exact outside other old
        · rw [mem_singleton.mp new]
          exact distinct
      fresh := fun other member new => by
        by_cases own : other = target
        · rw [own]
          exact ⟨phiList, node, inner⟩
        · refine walked.fresh other member fun inside => ?_
          obtain old | last := mem_append.mp inside
          · exact new old
          · exact own (mem_singleton.mp last) }

theorem scan_none
    (calls : ∀ pseudo nr phiList list result later,
      recurse pseudo nr phiList list = .unique result later →
      (f.regDef nr).phiList = some phiList → pseudo ≠ .reg nr →
      result = pseudo ∧ f.Walked pseudo list later ∧ nr ∈ later)
    {rest : List (Option Nat)}
    (scan : f.scan target recurse rest none [target] = .unique result later) :
    result ≠ .reg target ∧ f.Walked result [target] later ∧
      ∀ phi, some phi ∈ rest → f.Inner result later phi := by
  have self : target ∈ [target] := mem_singleton_self target
  induction rest with
  | nil =>
    cases scan
    refine ⟨fun no => ?_, .refl, fun phi absent => ?_⟩
    · cases no
    · cases absent
  | cons entry rest ih =>
    cases entry with
    | none =>
      obtain ⟨distinct, walked, inner⟩ := ih scan
      refine ⟨distinct, walked, fun phi inside => inner phi ?_⟩
      exact (mem_cons.mp inside).resolve_left (by simp)
    | some first =>
      have passes : (∀ {pseudo later}, [target] ⊆ later → f.Inner pseudo later first) →
          f.scan target recurse rest none [target] = .unique result later →
          result ≠ .reg target ∧ f.Walked result [target] later ∧
            ∀ phi, some phi ∈ some first :: rest → f.Inner result later phi := by
        intro own scan
        obtain ⟨distinct, walked, inner⟩ := ih scan
        refine ⟨distinct, walked, fun phi inside => ?_⟩
        obtain equal | later := mem_cons.mp inside
        · cases equal
          exact own walked.more
        · exact inner phi later
      simp only [Function.scan] at scan
      split at scan
      next dead => exact passes (fun _ => .inl dead) scan
      next =>
      split at scan
      next void => exact passes (fun _ => .inr (.inl void)) scan
      next =>
      split at scan
      next source =>
        exact passes (fun more => .inr (.inr (.inr ⟨target, more self, source⟩))) scan
      next other =>
      obtain ⟨same, walked, inner⟩ := scan_some (calls _) self scan
      rw [same]
      refine ⟨other, walked, fun phi inside => ?_⟩
      obtain equal | later := mem_cons.mp inside
      · cases equal
        exact .inr (.inr (.inl rfl))
      · exact inner phi later

/-- What `trivial_phi` has visited when it returns a pseudo. -/
theorem trivialPhi_closed {fuel : Nat} {phiList : List (Option Nat)}
    (walk : f.trivialPhi fuel none target phiList [] = .unique pseudo list)
    (node : (f.regDef target).phiList = some phiList) : f.Closed pseudo list ∧ target ∈ list := by
  cases fuel with
  | zero => cases walk
  | succ fuel =>
    have self : target ∈ [target] := mem_singleton_self target
    obtain ⟨distinct, walked, inner⟩ := scan_none
      (fun pseudo nr phiList list result later call known distinct =>
        trivialPhi_some call known distinct) walk
    refine ⟨⟨walked.outside ?_, fun other member => ?_⟩, walked.more self⟩
    · intro other member
      rw [mem_singleton.mp member]
      exact distinct
    · by_cases own : other = target
      · rw [own]
        exact ⟨phiList, node, inner⟩
      · exact walked.fresh other member fun inside => own (mem_singleton.mp inside)

end Walk

end SmatchFormal.Phi
