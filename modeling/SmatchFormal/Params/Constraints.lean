import SmatchFormal.Lib.Decimal
import Mathlib.Data.List.Basic

/-!
# The text of a constraint list

`alloc_constraint_state` prints the constraints of a list with `", "` between them, and
`constraint_str_to_state` reads such a text from the database.  The reader steps over the comma
and looks at the blank, but does not step over it.
-/

namespace SmatchFormal.Params

open SmatchFormal.Lib List

inductive ConstraintOp
  | lt
  | lte
  deriving DecidableEq, Repr

structure Constraint where
  op : ConstraintOp
  id : Int
  deriving DecidableEq, Repr

def addConstraint (list : List Constraint) (op : ConstraintOp) (constraint : Int) :
    List Constraint :=
  match list with
  | [] => [⟨op, constraint⟩]
  | tmp :: rest =>
    if tmp.id < constraint then tmp :: addConstraint rest op constraint
    else if tmp.id = constraint then
      if tmp.op = .lt then tmp :: rest
      else if op = .lte then tmp :: rest
      else ⟨op, constraint⟩ :: rest
    else ⟨op, constraint⟩ :: tmp :: rest

def addConstraints (pairs : List (ConstraintOp × Int)) : List Constraint :=
  pairs.foldl (fun list pair => addConstraint list pair.1 pair.2) []

def showOp : ConstraintOp → List Char
  | .lt => ['<']
  | .lte => ['<', '=']

def constraintText (con : Constraint) : List Char := showOp con.op ++ Decimal.decimalText con.id

/-- `snprintf(buf + cnt, sizeof(buf) - cnt, ...)` for a buffer of 256 bytes; the difference wraps
around when `cnt` is beyond the buffer. -/
def printAt (buf : List Char) (cnt : Nat) (text : List Char) : Option (List Char) :=
  if cnt ≤ 256 then some (buf.take cnt ++ text.take (256 - cnt - 1)) else none

/-- The loop of `alloc_constraint_state`, or `none` when it writes beyond the buffer. -/
def printConstraints (buf : List Char) (cnt : Nat) : List Constraint → Option (List Char)
  | [] => some buf
  | con :: rest => do
      let buf ← if cnt ≠ 0 then printAt buf cnt [',', ' '] else some buf
      let cnt := if cnt ≠ 0 then cnt + 2 else cnt
      let buf ← printAt buf cnt (constraintText con)
      printConstraints buf (cnt + (constraintText con).length) rest

inductive ConstraintState
  | undefined
  | known (name : List Char) (list : List Constraint)
  deriving DecidableEq, Repr

/-- `alloc_constraint_state`; the static buffer holds what an earlier call left there. -/
def allocConstraintState (buf : List Char) (list : List Constraint) : Option ConstraintState :=
  (printConstraints buf 0 list).map fun name => .known name list

/-- One round of the loop of `constraint_str_to_state` up to `add_constraint`. -/
def readConstraint (p : List Char) : Option (ConstraintOp × Int × List Char) :=
  match p with
  | '<' :: '=' :: p =>
    some (.lte, Decimal.toInt32 (Decimal.strtoll p).1, (Decimal.strtoll p).2)
  | '<' :: p => some (.lt, Decimal.toInt32 (Decimal.strtoll p).1, (Decimal.strtoll p).2)
  | _ => none

theorem readConstraint_length {p rest : List Char} {op : ConstraintOp} {id : Int}
    (read : readConstraint p = some (op, id, rest)) : rest.length < p.length := by
  unfold readConstraint at read
  split at read
  · rename_i tail
    have shorter := Decimal.strtoll_length tail
    cases read
    simp only [length_cons]
    omega
  · rename_i tail _
    have shorter := Decimal.strtoll_length tail
    cases read
    simp only [length_cons]
    omega
  · cases read

/-- The loop; `none` is the return of `&undefined`. -/
def constraintLoop (list : List Constraint) (p : List Char) : Option (List Constraint) :=
  match _read : readConstraint p with
  | none => none
  | some (op, id, rest) =>
    match rest with
    | ',' :: ' ' :: tail => constraintLoop (addConstraint list op id) (' ' :: tail)
    | ',' :: _ => none
    | _ => some (addConstraint list op id)
  termination_by p.length
  decreasing_by
    have shorter := readConstraint_length _read
    simp only [length_cons] at shorter ⊢
    omega

def constraintStrToState (buf value : List Char) : Option ConstraintState :=
  match constraintLoop [] value with
  | none => some .undefined
  | some list => allocConstraintState buf list

section Lists

variable {list : List Constraint} {op : ConstraintOp} {id : Int}

def Increasing (list : List Constraint) : Prop := list.Pairwise fun one two => one.id < two.id

theorem addConstraint_ids (list : List Constraint) (op : ConstraintOp) (id k : Int) :
    (∃ con ∈ addConstraint list op id, con.id = k) ↔ k = id ∨ ∃ con ∈ list, con.id = k := by
  induction list with
  | nil => simp [addConstraint, eq_comm]
  | cons tmp rest ih =>
    unfold addConstraint
    split_ifs with less same lt lte
    · simp only [mem_cons, exists_eq_or_imp, ih]
      exact or_left_comm
    · simp only [mem_cons, exists_eq_or_imp, same, @eq_comm _ id k]
      tauto
    · simp only [mem_cons, exists_eq_or_imp, same, @eq_comm _ id k]
      tauto
    · simp only [mem_cons, exists_eq_or_imp, same, @eq_comm _ id k]
      tauto
    · simp only [mem_cons, exists_eq_or_imp, @eq_comm _ id k]

theorem addConstraint_increasing (sorted : Increasing list) (op : ConstraintOp) (id : Int) :
    Increasing (addConstraint list op id) := by
  induction list with
  | nil => exact pairwise_singleton _ _
  | cons tmp rest ih =>
    obtain ⟨first, tail⟩ := pairwise_cons.mp sorted
    unfold addConstraint
    split_ifs with less same lt lte
    · refine pairwise_cons.mpr ⟨fun con member => ?_, ih tail⟩
      rcases (addConstraint_ids rest op id con.id).mp ⟨con, member, rfl⟩ with new |
        ⟨old, inside, ids⟩
      · rw [new]
        exact less
      · rw [← ids]
        exact first old inside
    · exact sorted
    · exact sorted
    · refine pairwise_cons.mpr ⟨fun con member => ?_, tail⟩
      exact same ▸ first con member
    · refine pairwise_cons.mpr ⟨fun con member => ?_, sorted⟩
      have before : id < tmp.id := by omega
      rcases mem_cons.mp member with rfl | inside
      · exact before
      · exact Int.lt_trans before (first con inside)

/-- The numbers of a run are those of its calls, in order. -/
theorem addConstraints_spec (pairs : List (ConstraintOp × Int)) :
    Increasing (addConstraints pairs) ∧
      ∀ k, (∃ con ∈ addConstraints pairs, con.id = k) ↔ ∃ pair ∈ pairs, pair.2 = k := by
  have run : ∀ start, Increasing start →
      Increasing (pairs.foldl (fun list pair => addConstraint list pair.1 pair.2) start) ∧
        ∀ k, (∃ con ∈ pairs.foldl (fun list pair => addConstraint list pair.1 pair.2) start,
          con.id = k) ↔ (∃ con ∈ start, con.id = k) ∨ ∃ pair ∈ pairs, pair.2 = k := by
    induction pairs with
    | nil => exact fun start sorted => ⟨sorted, fun k => by simp⟩
    | cons pair rest ih =>
      intro start sorted
      obtain ⟨increasing, ids⟩ := ih _ (addConstraint_increasing sorted pair.1 pair.2)
      refine ⟨increasing, fun k => ?_⟩
      rw [foldl_cons, ids k, addConstraint_ids, exists_mem_cons_iff, eq_comm, or_assoc,
        or_left_comm]
  obtain ⟨sorted, ids⟩ := run [] List.Pairwise.nil
  exact ⟨sorted, fun k => (ids k).trans (or_iff_right (by simp))⟩

/-- A run gives one constraint exactly when its calls are for one number. -/
theorem addConstraints_single_iff {pairs : List (ConstraintOp × Int)} (some : pairs ≠ []) :
    (∃ con, addConstraints pairs = [con]) ↔ ∀ one ∈ pairs, ∀ two ∈ pairs, one.2 = two.2 := by
  obtain ⟨sorted, ids⟩ := addConstraints_spec pairs
  constructor
  · rintro ⟨con, single⟩ one first two second
    have number : ∀ pair ∈ pairs, con.id = pair.2 := by
      intro pair member
      obtain ⟨other, inside, same⟩ := (ids pair.2).mpr ⟨pair, member, rfl⟩
      rw [single, mem_singleton] at inside
      rw [← inside]
      exact same
    exact (number one first).symm.trans (number two second)
  · intro equal
    generalize addConstraints pairs = list at sorted ids
    cases list with
    | nil =>
      obtain ⟨pair, rest, rfl⟩ := exists_cons_of_ne_nil some
      obtain ⟨con, member, -⟩ := (ids pair.2).mpr ⟨pair, mem_cons_self, rfl⟩
      cases member
    | cons con rest =>
      cases rest with
      | nil => exact ⟨con, rfl⟩
      | cons other tail =>
        have less := (pairwise_cons.mp sorted).1 other mem_cons_self
        obtain ⟨one, first, same⟩ := (ids con.id).mp ⟨con, mem_cons_self, rfl⟩
        obtain ⟨two, second, same'⟩ := (ids other.id).mp
          ⟨other, mem_cons_of_mem _ mem_cons_self, rfl⟩
        have numbers := equal one first two second
        omega

end Lists

section Text

variable {list : List Constraint} {con : Constraint}

def restText (list : List Constraint) : List Char :=
  list.flatMap fun con => ',' :: ' ' :: constraintText con

def constraintsText : List Constraint → List Char
  | [] => []
  | con :: rest => constraintText con ++ restText rest

theorem printAt_fits {buf text : List Char} (fits : buf.length + text.length < 256) :
    printAt buf buf.length text = some (buf ++ text) := by
  unfold printAt
  rw [if_pos (by omega), take_length, take_of_length_le (by omega)]

theorem printConstraints_rest {buf : List Char} (started : buf ≠ [])
    (fits : (buf ++ restText list).length < 256) :
    printConstraints buf buf.length list = some (buf ++ restText list) := by
  induction list generalizing buf with
  | nil => simp [printConstraints, restText]
  | cons con rest ih =>
    have nonzero : buf.length ≠ 0 := by
      rw [Ne, length_eq_zero_iff]
      exact started
    have whole : buf ++ restText (con :: rest) =
        (buf ++ [',', ' '] ++ constraintText con) ++ restText rest := by
      simp [restText]
    rw [whole] at fits ⊢
    have sizes := fits
    simp only [length_append, length_cons, length_nil] at sizes
    have separator : printAt buf buf.length [',', ' '] = some (buf ++ [',', ' ']) :=
      printAt_fits (by simp only [length_cons, length_nil]; omega)
    have printed : printAt (buf ++ [',', ' ']) (buf.length + 2) (constraintText con) =
        some (buf ++ [',', ' '] ++ constraintText con) := by
      have size : buf.length + 2 = (buf ++ [',', ' ']).length := by simp
      rw [size]
      exact printAt_fits (by simp only [length_append, length_cons, length_nil]
                             omega)
    have size : buf.length + 2 + (constraintText con).length =
        (buf ++ [',', ' '] ++ constraintText con).length := by
      simp only [length_append, length_cons, length_nil]
    unfold printConstraints
    simp only [if_pos nonzero, separator, printed, Option.bind_eq_bind, Option.bind_some]
    rw [size]
    exact ih (by simp) fits

/-- The name of a state is the text of its list. -/
theorem allocConstraintState_fits (buf : List Char) (some : list ≠ [])
    (fits : (constraintsText list).length < 256) :
    allocConstraintState buf list = .some (.known (constraintsText list) list) := by
  obtain ⟨con, rest, rfl⟩ := exists_cons_of_ne_nil some
  have first : printAt buf 0 (constraintText con) = .some (constraintText con) := by
    have short : (constraintText con).length ≤ 255 := by
      unfold constraintsText at fits
      rw [length_append] at fits
      omega
    unfold printAt
    rw [if_pos (Nat.zero_le _), take_zero, nil_append, take_of_length_le short]
  have started : constraintText con ≠ [] := by
    unfold constraintText showOp
    cases con.op <;> simp
  unfold allocConstraintState printConstraints
  simp only [ne_eq, not_true_eq_false, if_false, Option.bind_eq_bind, Option.bind_some, first,
    Nat.zero_add]
  rw [printConstraints_rest started fits]
  rfl

theorem decimalText_start (x : Int) (rest : List Char) :
    ∃ c tail, Decimal.decimalText x ++ rest = c :: tail ∧ c ≠ '=' := by
  unfold Decimal.decimalText
  split_ifs with negative
  · exact ⟨'-', _, rfl, by decide⟩
  · obtain ⟨c, tail, found, digit⟩ := Strtol.exists_digit x.natAbs rest
    refine ⟨c, tail, found, ?_⟩
    rintro rfl
    exact absurd digit (by decide)

theorem readConstraint_lt {c : Char} (tail : List Char) (other : c ≠ '=') :
    readConstraint ('<' :: c :: tail) =
      some (.lt, Decimal.toInt32 (Decimal.strtoll (c :: tail)).1,
        (Decimal.strtoll (c :: tail)).2) := by
  simp [readConstraint, other]

theorem readConstraint_text (low : -2 ^ 31 ≤ con.id) (high : con.id < 2 ^ 31) {rest : List Char}
    (ends : Decimal.Ends rest) :
    readConstraint (constraintText con ++ rest) = some (con.op, con.id, rest) := by
  have number := Decimal.strtoll_decimalText (x := con.id) (by omega) (by omega) ends
  have word := Decimal.toInt32_of_mem low high
  obtain ⟨c, tail, found, other⟩ := decimalText_start con.id rest
  unfold constraintText showOp
  cases con.op with
  | lt =>
    change readConstraint ('<' :: (Decimal.decimalText con.id ++ rest)) = _
    rw [found] at number ⊢
    rw [readConstraint_lt tail other, number, word]
  | lte =>
    change readConstraint ('<' :: '=' :: (Decimal.decimalText con.id ++ rest)) = _
    rw [readConstraint, number, word]

/-- The reader finds the blank where it wants the next constraint. -/
theorem constraintLoop_blank (list : List Constraint) (tail : List Char) :
    constraintLoop list (' ' :: tail) = none := by
  have read : readConstraint (' ' :: tail) = none := rfl
  unfold constraintLoop
  split
  · rfl
  · rename_i found
    rw [read] at found
    cases found

theorem constraintLoop_last {p : List Char} {op : ConstraintOp} {id : Int}
    (read : readConstraint p = some (op, id, [])) (list : List Constraint) :
    constraintLoop list p = some (addConstraint list op id) := by
  unfold constraintLoop
  split
  · rename_i found
    rw [read] at found
    cases found
  · rename_i found
    rw [read] at found
    cases found
    rfl

theorem constraintLoop_more {p tail : List Char} {op : ConstraintOp} {id : Int}
    (read : readConstraint p = some (op, id, ',' :: ' ' :: tail)) (list : List Constraint) :
    constraintLoop list p = none := by
  unfold constraintLoop
  split
  · rfl
  · rename_i found
    rw [read] at found
    cases found
    exact constraintLoop_blank _ _

end Text

/-- A list that `add_constraint` built is read back exactly when it has one constraint. -/
theorem constraintStrToState_iff (pairs : List (ConstraintOp × Int)) (some : pairs ≠ [])
    (ids : ∀ pair ∈ pairs, -2 ^ 31 ≤ pair.2 ∧ pair.2 < 2 ^ 31)
    (short : (constraintsText (addConstraints pairs)).length < 256) (buf buf' : List Char) :
    ∃ name, allocConstraintState buf (addConstraints pairs) =
        .some (.known name (addConstraints pairs)) ∧
      ((∃ name', constraintStrToState buf' name =
          .some (.known name' (addConstraints pairs))) ↔
        ∀ one ∈ pairs, ∀ two ∈ pairs, one.2 = two.2) := by
  rw [← addConstraints_single_iff some]
  obtain ⟨-, numbers⟩ := addConstraints_spec pairs
  have range : ∀ con ∈ addConstraints pairs, -2 ^ 31 ≤ con.id ∧ con.id < 2 ^ 31 := by
    intro con member
    obtain ⟨pair, inside, same⟩ := (numbers con.id).mp ⟨con, member, rfl⟩
    rw [← same]
    exact ids pair inside
  have filled : addConstraints pairs ≠ [] := by
    intro none
    obtain ⟨pair, rest, rfl⟩ := exists_cons_of_ne_nil some
    obtain ⟨con, member, -⟩ := (numbers pair.2).mpr ⟨pair, mem_cons_self, rfl⟩
    rw [none] at member
    cases member
  generalize addConstraints pairs = list at *
  refine ⟨constraintsText list, allocConstraintState_fits buf filled short, ?_⟩
  obtain ⟨con, rest, rfl⟩ := exists_cons_of_ne_nil filled
  obtain ⟨low, high⟩ := range con mem_cons_self
  unfold constraintStrToState
  cases rest with
  | nil =>
    have read := @readConstraint_text con low high [] Decimal.ends_nil
    refine iff_of_true ⟨constraintsText [con], ?_⟩ ⟨con, rfl⟩
    have text : constraintsText [con] = constraintText con ++ [] := rfl
    rw [text, constraintLoop_last read]
    exact allocConstraintState_fits buf' filled short
  | cons other tail =>
    have read := @readConstraint_text con low high (restText (other :: tail))
      (Decimal.ends_cons (by decide) _)
    refine iff_of_false ?_ ?_
    · rintro ⟨name, known⟩
      have text : constraintsText (con :: other :: tail) =
          constraintText con ++ restText (other :: tail) := rfl
      rw [text, constraintLoop_more read] at known
      cases known
    · rintro ⟨single, same⟩
      cases same

/-- The theorem for `<=12`, built twice. -/
theorem constraintStrToState_iff_twelve :
    ∃ name, allocConstraintState [] (addConstraints [(.lte, 12), (.lte, 12)]) =
        .some (.known name (addConstraints [(.lte, 12), (.lte, 12)])) ∧
      ((∃ name', constraintStrToState [] name =
          .some (.known name' (addConstraints [(.lte, 12), (.lte, 12)]))) ↔
        ∀ one ∈ [(ConstraintOp.lte, (12 : Int)), (.lte, 12)],
          ∀ two ∈ [(ConstraintOp.lte, (12 : Int)), (.lte, 12)], one.2 = two.2) :=
  constraintStrToState_iff [(.lte, 12), (.lte, 12)] (by simp) (by simp) (by decide) [] []

/-- `<1, <2` is read as undefined. -/
theorem constraintStrToState_loses :
    allocConstraintState [] (addConstraints [(.lt, 1), (.lt, 2)]) =
        .some (.known "<1, <2".toList [⟨.lt, 1⟩, ⟨.lt, 2⟩]) ∧
      constraintStrToState [] "<1, <2".toList = .some .undefined := by
  refine ⟨by decide, ?_⟩
  have read : readConstraint "<1, <2".toList = .some (.lt, 1, ", <2".toList) := by decide
  unfold constraintStrToState
  rw [constraintLoop_more read]

end SmatchFormal.Params
