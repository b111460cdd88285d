import SmatchFormal.Phi.TrivialSound

/-!
# Phi-nodes that become selects

`if_convert_phi` of `simplify.c`: a phi-node with two sources, whose blocks are the common source
block or lie between it and the phi-node, is replaced by a select at the end of the source block.
-/

namespace SmatchFormal.Phi

variable {Block : Type} [DecidableEq Block]

/-! ## The conversion -/

def Function.definedIn (f : Function Block) (source : Block) : Pseudo → Bool
  | .reg nr => (f.regDef nr).bb = some source
  | _ => false

def Function.phiParent (f : Function Block) (source : Block) (pseudo : Pseudo) : Block :=
  if f.definedIn source pseudo then source
  else if (f.children source).length ≠ 1 ∨ (f.parents source).length ≠ 1 then source
  else (f.parents source).headD source

def getPhisources (nbr : Nat) : List (Option Nat) → List Nat → Int × List Nat
  | [], sources => ((sources.length : Int) - nbr, sources)
  | none :: rest, sources => getPhisources nbr rest sources
  | some phi :: rest, sources =>
    if sources.length ≥ nbr then (1, sources) else getPhisources nbr rest (sources ++ [phi])

/-- What is given to `insert_select`: the block, the condition of its branch and the values. -/
structure Conversion (Block : Type) where
  source : Block
  cond : Pseudo
  ifTrue : Pseudo
  ifFalse : Pseudo
  deriving DecidableEq

/-- The end of `if_convert_phi`, when the two phi-sources and the two parents are known. -/
def Function.matchBranch (f : Function Block) (bb1 bb2 : Block) (p1 p2 : Pseudo) :
    Option (Conversion Block) :=
  let source := f.phiParent bb1 p1
  if source ≠ f.phiParent bb2 p2 then none
  else
    match (f.insns source).getLast? with
    | some (.cbr cond bbTrue bbFalse) =>
      if bbTrue = bb2 ∨ bbFalse = bb1 then some ⟨source, cond, p2, p1⟩
      else some ⟨source, cond, p1, p2⟩
    | _ => none

def Function.ifConvertPhi (f : Function Block) (bb : Block) (phiList : List (Option Nat)) :
    Option (Conversion Block) :=
  match getPhisources 2 phiList [], f.parents bb with
  | (0, [first, second]), [parent1, parent2] =>
    match (f.phiDef first).bb, (f.phiDef second).bb with
    | some bb1, some bb2 =>
      if (bb1 ≠ parent1 ∨ bb2 ≠ parent2) ∧ (bb1 ≠ parent2 ∨ bb2 ≠ parent1) then none
      else f.matchBranch bb1 bb2 (f.phiDef first).phiSrc (f.phiDef second).phiSrc
    | _, _ => none
  | _, _ => none

section Tests

variable {f : Function Block} {bb source : Block} {pseudo : Pseudo}

/-- The pseudo of a block is set above the common source block's end: the block is the source, or
it lies between the source and the phi-node and does not set the pseudo. -/
def Function.Hangs (f : Function Block) (source bb : Block) (pseudo : Pseudo) : Prop :=
  bb = source ∨ (bb ≠ source ∧ f.parents bb = [source] ∧
    ∀ nr, pseudo = .reg nr → (f.regDef nr).bb ≠ some bb)

theorem phiParent_hangs (parent : f.phiParent bb pseudo = source) :
    f.Hangs source bb pseudo := by
  by_cases same : bb = source
  · exact .inl same
  · refine .inr ⟨same, ?_⟩
    unfold Function.phiParent at parent
    split at parent
    next => exact (same parent).elim
    next outside =>
      split at parent
      next => exact (same parent).elim
      next single =>
        push Not at single
        obtain ⟨only, list⟩ := List.length_eq_one_iff.mp single.2
        rw [list] at parent
        refine ⟨list.trans (congrArg (fun b => [b]) parent), fun nr reg inside => outside ?_⟩
        rw [reg]
        exact decide_eq_true inside

theorem getPhisources_two {phiList : List (Option Nat)} {sources : List Nat} {first second : Nat}
    (taken : getPhisources 2 phiList sources = (0, [first, second])) :
    ∀ phi, phi ∈ [first, second] ↔ phi ∈ sources ∨ some phi ∈ phiList := by
  induction phiList generalizing sources with
  | nil =>
    cases congrArg Prod.snd taken
    intro phi
    exact ⟨.inl, fun either => either.elim id fun no => by cases no⟩
  | cons entry rest ih =>
    cases entry with
    | none =>
      intro phi
      rw [ih taken phi]
      simp
    | some other =>
      unfold getPhisources at taken
      split at taken
      next => cases taken
      next =>
        intro phi
        rw [ih taken phi, List.mem_append, List.mem_singleton, List.mem_cons, or_assoc,
          Option.some_inj]

/-- A conversion that is made, with the two sources in some order: the select yields the first one
when the branch leads to its side. -/
structure Function.Converts (f : Function Block) (bb : Block) (phiList : List (Option Nat))
    (conversion : Conversion Block) (bb1 bb2 : Block) (phi1 phi2 : Nat) : Prop where
  members : ∀ phi, some phi ∈ phiList ↔ phi = phi1 ∨ phi = phi2
  parents : ∀ parent, parent ∈ f.parents bb ↔ parent = bb1 ∨ parent = bb2
  distinct : (f.parents bb).Nodup → bb1 ≠ bb2
  owner1 : (f.phiDef phi1).bb = some bb1
  owner2 : (f.phiDef phi2).bb = some bb2
  hangs1 : f.Hangs conversion.source bb1 (f.phiDef phi1).phiSrc
  hangs2 : f.Hangs conversion.source bb2 (f.phiDef phi2).phiSrc
  branch : ∃ bbTrue bbFalse,
    (f.insns conversion.source).getLast? = some (.cbr conversion.cond bbTrue bbFalse) ∧
      (if bbTrue = bb2 ∨ bbFalse = bb1 then
        conversion.ifTrue = (f.phiDef phi2).phiSrc ∧ conversion.ifFalse = (f.phiDef phi1).phiSrc
      else
        conversion.ifTrue = (f.phiDef phi1).phiSrc ∧ conversion.ifFalse = (f.phiDef phi2).phiSrc)

theorem matchBranch_eq_some {bb1 bb2 : Block} {p1 p2 : Pseudo} {conversion : Conversion Block}
    (made : f.matchBranch bb1 bb2 p1 p2 = some conversion) :
    f.Hangs conversion.source bb1 p1 ∧ f.Hangs conversion.source bb2 p2 ∧
      ∃ bbTrue bbFalse,
        (f.insns conversion.source).getLast? = some (.cbr conversion.cond bbTrue bbFalse) ∧
          (if bbTrue = bb2 ∨ bbFalse = bb1 then conversion.ifTrue = p2 ∧ conversion.ifFalse = p1
          else conversion.ifTrue = p1 ∧ conversion.ifFalse = p2) := by
  unfold Function.matchBranch at made
  dsimp only at made
  split at made
  next => cases made
  next common =>
    have same := (not_not.mp common).symm
    split at made
    next cond bbTrue bbFalse last =>
      split at made
      next swapped =>
        cases made
        exact ⟨phiParent_hangs rfl, phiParent_hangs same, bbTrue, bbFalse, last,
          by rw [if_pos swapped]; exact ⟨rfl, rfl⟩⟩
      next straight =>
        cases made
        exact ⟨phiParent_hangs rfl, phiParent_hangs same, bbTrue, bbFalse, last,
          by rw [if_neg straight]; exact ⟨rfl, rfl⟩⟩
    next => cases made

theorem ifConvertPhi_converts {phiList : List (Option Nat)} {conversion : Conversion Block}
    (made : f.ifConvertPhi bb phiList = some conversion) :
    ∃ bb1 bb2 phi1 phi2, f.Converts bb phiList conversion bb1 bb2 phi1 phi2 := by
  unfold Function.ifConvertPhi at made
  split at made
  next first second parent1 parent2 taken parents =>
    split at made
    next bb1 bb2 owner1 owner2 =>
      split at made
      next => cases made
      next direct =>
        obtain ⟨hangs1, hangs2, branch⟩ := matchBranch_eq_some made
        have pairs : (bb1 = parent1 ∧ bb2 = parent2) ∨ (bb1 = parent2 ∧ bb2 = parent1) := by
          tauto
        refine ⟨bb1, bb2, first, second, fun phi => ?_, fun parent => ?_, fun nodup => ?_, owner1,
          owner2, hangs1, hangs2, branch⟩
        · have members := getPhisources_two taken phi
          simp only [List.not_mem_nil, false_or, List.mem_cons, or_false] at members
          exact members.symm
        · rw [parents, List.mem_cons, List.mem_singleton]
          obtain ⟨rfl, rfl⟩ | ⟨rfl, rfl⟩ := pairs
          · exact Iff.rfl
          · exact or_comm
        · rw [parents] at nodup
          have different : parent1 ≠ parent2 := by
            rintro rfl
            exact (List.nodup_cons.mp nodup).1 (List.mem_singleton_self _)
          obtain ⟨rfl, rfl⟩ | ⟨rfl, rfl⟩ := pairs
          · exact different
          · exact different.symm
    next => cases made
  next => cases made

end Tests

end SmatchFormal.Phi
