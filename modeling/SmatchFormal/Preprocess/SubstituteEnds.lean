import SmatchFormal.Preprocess.CollectSound
import SmatchFormal.Preprocess.Growing

/-!
# Substitution ends

If the expansion of every argument ends, so does the substitution.  It leaves the macro tainted,
and in the replacement every identifier that is tainted then is never expanded.
-/

namespace SmatchFormal.Preprocess

open Fuel

/-! ## The tokens added -/

def Tail.Marked (tainted : Taint) (tail : Tail) : Prop := ∀ token ∈ tail.added, token.Marked tainted

theorem Tail.Marked.append {tainted : Taint} {tail : Tail} (marked : tail.Marked tainted)
    {list : List Token} (more : ∀ token ∈ list, token.Marked tainted) :
    (tail.append list).Marked tainted := by
  intro token member
  rcases List.mem_append.mp member with new | old
  · exact more token (List.mem_reverse.mp new)
  · exact marked token old

theorem Tail.Marked.mergeLast {tainted : Taint} {tail merged : Tail} {right : Token}
    (marked : tail.Marked tainted) (result : tail.mergeLast tainted right = some merged) :
    merged.Marked tainted := by
  obtain ⟨before, added⟩ := tail
  cases added with
  | nil =>
    cases before with
    | nil => cases result
    | cons last before =>
      obtain ⟨token, -, rfl⟩ := Option.map_eq_some_iff.mp result
      intro other member
      cases member
  | cons last added =>
    obtain ⟨token, combined, rfl⟩ := Option.map_eq_some_iff.mp result
    intro other member
    rcases List.mem_cons.mp member with rfl | old
    · exact merge_marked combined
    · exact marked other (List.mem_cons_of_mem _ old)

theorem marked_map (tainted : Taint) (list : List Token) :
    ∀ token ∈ list.map (Token.mark tainted), token.Marked tainted := by
  intro token member
  obtain ⟨other, -, rfl⟩ := List.mem_map.mp member
  exact other.mark_marked tainted

@[simp] theorem Substitution.nothing_tail (s : Substitution) : s.nothing.tail = s.tail := rfl

@[simp] theorem Substitution.nothing_args (s : Substitution) : s.nothing.args = s.args := rfl

theorem Substitution.add_args (s : Substitution) (tainted : Taint) (token : Token) :
    (s.add tainted token).args = s.args := by
  unfold Substitution.add
  split
  · rfl
  · rfl

theorem Substitution.add_marked {s : Substitution} {tainted : Taint}
    (marked : s.tail.Marked tainted) {token : Token} (one : token.Marked tainted) :
    (s.add tainted token).tail.Marked tainted := by
  unfold Substitution.add
  split
  next tail merged =>
    split at merged
    · exact marked.mergeLast merged
    · cases merged
  next =>
    apply marked.append
    intro other member
    rw [List.mem_singleton.mp member]
    exact one

theorem Substitution.addArgument_args (s : Substitution) (tainted : Taint) (whitespace : Bool)
    (list : List Token) : (s.addArgument tainted whitespace list).args = s.args := by
  cases list with
  | nil => rfl
  | cons first list =>
    simp only [Substitution.addArgument]
    split
    · rfl
    · rfl

theorem Substitution.addArgument_marked {s : Substitution} {tainted : Taint}
    (marked : s.tail.Marked tainted) (whitespace : Bool) (list : List Token) :
    (s.addArgument tainted whitespace list).tail.Marked tainted := by
  cases list with
  | nil => exact marked
  | cons first list =>
    simp only [Substitution.addArgument]
    split
    next tail merged =>
      split at merged
      · exact (marked.mergeLast merged).append (marked_map tainted list)
      · cases merged
    next =>
      apply marked.append
      intro other member
      rcases List.mem_cons.mp member with rfl | old
      · exact (first.mark_marked tainted).respace whitespace
      · exact marked_map tainted list other old

/-! ## The run of `substitute` -/

structure Holds (tainted : Taint) (args : Args) (s : Substitution) (state : State) : Prop where
  taint : state.tainted = tainted
  quoted : ∀ argnum, (s.args argnum).quoted = (args argnum).quoted
  marked : s.tail.Marked tainted

/-- The list of every argument can be expanded, and leaves the taint as it was. -/
def Expands (bad : Request → Prop) (h : Nat → Recursion) (tainted : Taint) (args : Args) : Prop :=
  ∀ argnum arg, (args argnum).quoted = some arg → ∀ state : State, state.tainted = tainted →
    Ends (Raised bad) (fun n => h n arg) state fun _ state' => state'.tainted = tainted

section Ends

variable {bad : Request → Prop} {h : Nat → Recursion} {expanding : Ident} {tainted : Taint}
  {args args' : Args} {state : State}

theorem expandArgument_ends (growing : ∀ arg, Growing (Raised bad) fun n => h n arg)
    (expands : Expands bad h tainted args) (free : tainted expanding = false) {argnum : Nat}
    {arg : List Token} (given : (args argnum).quoted = some arg)
    (taint : state.tainted = tainted.set expanding) :
    Ends (Raised bad) (fun n => expandArgument (h n) expanding arg) state
      fun _ state' => state'.tainted = tainted.set expanding := by
  have cleared : (state.retaint (state.tainted.clear expanding)).tainted = tainted := by
    show state.tainted.clear expanding = tainted
    rw [taint, Taint.set_clear free]
  have inner := expands argnum arg given _ cleared
  have both : Ends (Raised bad) (fun n => h n arg >>= fun result => do
      modify fun state => state.retaint (state.tainted.set expanding)
      pure result) (state.retaint (state.tainted.clear expanding))
      fun _ state' => state'.tainted = tainted.set expanding := by
    refine Ends.bind (growing arg) (fun result n => ?_) inner fun result state' same => ?_
    · exact (Extends.modify fun state raised => raised.retaint _).bind fun _ => Extends.pure result
    · refine Ends.of_ok (fun n => rfl) ?_
      show state'.tainted.set expanding = tainted.set expanding
      rw [same]
  exact Ends.of_eq (fun n => rfl) both

theorem quoted_getD (argnum : Nat) (nonempty : (args argnum).quoted.getD [] ≠ []) :
    (args argnum).quoted = some ((args argnum).quoted.getD []) := by
  cases given : (args argnum).quoted with
  | none =>
    rw [given] at nonempty
    exact (nonempty rfl).elim
  | some arg => rfl

/-- After `do_argument` the collected lists are what they were. -/
theorem quoted_normal {argnum : Nat} {list : List Token}
    (quoted : ∀ i, (args' i).quoted = (args i).quoted) (i : Nat) :
    ((Function.update args' argnum { args' argnum with normal := some list }) i).quoted =
      (args i).quoted := by
  by_cases same : i = argnum
  · rw [same, Function.update_self]
    exact quoted argnum
  · rw [Function.update_of_ne same]
    exact quoted i

theorem quoted_str {argnum : Nat} {list : List Token}
    (quoted : ∀ i, (args' i).quoted = (args i).quoted) (i : Nat) :
    ((Function.update args' argnum { args' argnum with str := some list }) i).quoted =
      (args i).quoted := by
  by_cases same : i = argnum
  · rw [same, Function.update_self]
    exact quoted argnum
  · rw [Function.update_of_ne same]
    exact quoted i

section

variable (growing : ∀ arg, Growing (Raised bad) fun n => h n arg)
  (expands : Expands bad h tainted args) (free : tainted expanding = false)
  (quoted : ∀ i, (args' i).quoted = (args i).quoted) (taint : state.tainted = tainted.set expanding)
include growing expands free quoted taint

theorem doArgument_ends (argnum : Nat) (kind : ArgKind) :
    Ends (Raised bad) (fun n => doArgument (h n) expanding args' argnum kind) state
      fun result state' => state'.tainted = tainted.set expanding ∧
        ∀ i, (result.2 i).quoted = (args i).quoted := by
  cases kind with
  | quoted => exact Ends.of_ok (fun n => rfl) ⟨taint, quoted⟩
  | str =>
    unfold doArgument
    cases cached : (args' argnum).str with
    | some arg => exact Ends.of_ok (fun n => rfl) ⟨taint, quoted⟩
    | none => exact Ends.of_ok (fun n => rfl) ⟨taint, quoted_str quoted⟩
  | normal =>
    unfold doArgument
    cases cached : (args' argnum).normal with
    | some arg => exact Ends.of_ok (fun n => rfl) ⟨taint, quoted⟩
    | none =>
      have inner : Ends (Raised bad)
          (fun n => expandNonempty (h n) expanding ((args' argnum).quoted.getD [])) state
          fun _ state' => state'.tainted = tainted.set expanding := by
        unfold expandNonempty
        split
        · exact Ends.of_ok (fun n => rfl) taint
        next nonempty =>
          rw [quoted argnum] at nonempty ⊢
          exact expandArgument_ends growing expands free (quoted_getD argnum nonempty) taint
      exact Ends.bind (fun n => expandNonempty_extends (fun arg => growing arg n) _)
        (fun result n => Extends.pure _) inner fun result state' same =>
          Ends.of_ok (fun n => rfl) ⟨same, quoted_normal quoted⟩

theorem skipVaOpt_ends :
    Ends (Raised bad) (fun n => skipVaOpt (h n) expanding args') state
      fun result state' => state'.tainted = tainted.set expanding ∧
        ∀ i, (result.2 i).quoted = (args i).quoted := by
  unfold skipVaOpt
  cases cached : (args' 0).normal with
  | some arg => exact Ends.of_ok (fun n => rfl) ⟨taint, quoted⟩
  | none =>
    simp only
    split
    · exact Ends.of_ok (fun n => rfl) ⟨taint, quoted⟩
    next nonempty =>
      have given : (args 0).quoted = some ((args' 0).quoted.getD []) := by
        rw [← quoted 0]
        exact quoted_getD 0 nonempty
      refine Ends.bind (fun n => expandArgument_extends (fun arg => growing arg n) _)
        (fun result n => Extends.pure _)
        (expandArgument_ends growing expands free given taint)
        fun result state' same => Ends.of_ok (fun n => rfl) ⟨same, quoted_normal quoted⟩

end

section

variable {s : Substitution} (growing : ∀ arg, Growing (Raised bad) fun n => h n arg)
  (expands : Expands bad h tainted args) (free : tainted expanding = false)
  (holds : Holds (tainted.set expanding) args s state)
include growing expands free holds

theorem substitutePiece_ends (piece : Piece) :
    Ends (Raised bad) (fun n => substitutePiece (h n) expanding s piece) state
      (Holds (tainted.set expanding) args) := by
  cases piece with
  | token token =>
    refine Ends.of_ok (fun n => rfl) ⟨holds.taint, ?_, ?_⟩
    · rw [s.add_args]
      exact holds.quoted
    · rw [holds.taint]
      exact s.add_marked holds.marked (token.mark_marked _)
  | concat => exact Ends.of_ok (fun n => rfl) ⟨holds.taint, holds.quoted, holds.marked⟩
  | argument argnum kind whitespace =>
    refine Ends.bind (fun n => doArgument_extends (fun arg => growing arg n) _ _ _)
      (fun result n => Extends.get.bind fun state => Extends.pure _)
      (doArgument_ends growing expands free holds.quoted holds.taint argnum kind) ?_
    rintro ⟨arg, args''⟩ state' ⟨taint, quoted⟩
    refine Ends.of_ok (fun n => rfl) ⟨taint, ?_, ?_⟩
    · rw [Substitution.addArgument_args]
      exact quoted
    · rw [taint]
      exact Substitution.addArgument_marked (s := { s with args := args'' }) holds.marked
        whitespace arg

theorem substituteElement_ends (element : Element) :
    Ends (Raised bad) (fun n => substituteElement (h n) expanding s element) state
      (Holds (tainted.set expanding) args) := by
  have pieces : ∀ list : List Piece,
      Ends (Raised bad) (fun n => list.foldlM (substitutePiece (h n) expanding) s) state
        (Holds (tainted.set expanding) args) := by
    intro list
    exact Ends.foldlM (f := fun n => substitutePiece (h n) expanding)
      (fun b a n => substitutePiece_extends (fun arg => growing arg n) b a)
      (fun _ piece _ _ holds => substitutePiece_ends growing expands free holds piece) holds
  cases element with
  | piece piece => exact substitutePiece_ends growing expands free holds piece
  | gnuKludge whitespace between last =>
    simp only [substituteElement]
    cases answer : handleKludge s.args between with
    | skipAll => exact Ends.of_ok (fun n => rfl) ⟨holds.taint, holds.quoted, holds.marked⟩
    | ignoreConcat => exact pieces _
    | noMagic => exact pieces _

theorem substituteElements_ends (list : List Element) :
    Ends (Raised bad) (fun n => list.foldlM (substituteElement (h n) expanding) s) state
      (Holds (tainted.set expanding) args) :=
  Ends.foldlM (f := fun n => substituteElement (h n) expanding)
    (fun b a n => substituteElement_extends (fun arg => growing arg n) b a)
    (fun _ element _ _ holds => substituteElement_ends growing expands free holds element) holds

end

theorem quoteVaOpt_marked (tainted : Taint) (blank : Bool) (list : List Token) :
    (quoteVaOpt blank list).Marked tainted := by
  intro name same
  cases same

section

variable (growing : ∀ arg, Growing (Raised bad) fun n => h n arg)
  (expands : Expands bad h tainted args) (free : tainted expanding = false) (blank : Bool)
include growing expands free blank

theorem substituteOne_ends {s : Substitution} (holds : Holds (tainted.set expanding) args s state)
    (token : BodyToken) :
    Ends (Raised bad) (fun n => substituteOne (h n) expanding blank s token) state
      (Holds (tainted.set expanding) args) := by
  have skipped := skipVaOpt_ends growing expands free holds.quoted holds.taint
  have skips : Growing (Raised bad) fun n => skipVaOpt (h n) expanding s.args :=
    fun n => skipVaOpt_extends (fun arg => growing arg n) s.args
  cases token with
  | element element => exact substituteElement_ends growing expands free holds element
  | vaOpt inner =>
    refine Ends.bind skips (fun result n => ?_) skipped ?_
    · obtain ⟨skip, args''⟩ := result
      cases skip with
      | true => exact Extends.pure _
      | false =>
        exact Extends.foldlM (substituteElement_extends fun arg => growing arg n) inner _
    · rintro ⟨skip, args''⟩ state' ⟨taint, quoted⟩
      cases skip with
      | true => exact Ends.of_ok (fun n => rfl) ⟨taint, quoted, holds.marked⟩
      | false =>
        exact substituteElements_ends growing expands free
          (s := { s with args := args'' }) ⟨taint, quoted, holds.marked⟩ inner
  | vaOptStr inner =>
    refine Ends.bind skips (fun result n => ?_) skipped ?_
    · obtain ⟨skip, args''⟩ := result
      cases skip with
      | true => exact Extends.get.bind fun state => Extends.pure _
      | false =>
        exact (Extends.foldlM (substituteElement_extends fun arg => growing arg n) inner _).bind
          fun result => Extends.get.bind fun state => Extends.pure _
    · rintro ⟨skip, args''⟩ state' ⟨taint, quoted⟩
      cases skip with
      | true =>
        refine Ends.of_ok (fun n => rfl) ⟨taint, ?_, ?_⟩
        · rw [Substitution.add_args]
          exact quoted
        · rw [taint]
          exact Substitution.add_marked (s := { s with args := args'' }) holds.marked
            (quoteVaOpt_marked _ _ _)
      | false =>
        have empty : Holds (tainted.set expanding) args ⟨args'', ⟨[], []⟩, .normal⟩ state' :=
          ⟨taint, quoted, fun token member => (List.not_mem_nil member).elim⟩
        refine Ends.bind
          (fun n => Extends.foldlM (substituteElement_extends fun arg => growing arg n) inner _)
          (fun result n => Extends.get.bind fun state => Extends.pure _)
          (substituteElements_ends growing expands free empty inner) ?_
        intro r state'' after
        refine Ends.of_ok (fun n => rfl) ⟨after.taint, ?_, ?_⟩
        · rw [Substitution.add_args]
          exact after.quoted
        · rw [after.taint]
          exact Substitution.add_marked (s := { s with args := r.args }) holds.marked
            (quoteVaOpt_marked _ _ _)

/-- `substitute` ends with the macro tainted and the replacement marked. -/
theorem substitute_ends (before : List Token) (body : List BodyToken)
    (taint : state.tainted = tainted) :
    Ends (Raised bad) (fun n => substitute (h n) expanding blank before body args) state
      fun tail state' => state'.tainted = tainted.set expanding ∧
        tail.Marked (tainted.set expanding) := by
  have start : Holds (tainted.set expanding) args ⟨args, ⟨before, []⟩, .normal⟩
      (state.retaint (state.tainted.set expanding)) :=
    ⟨by rw [← taint]; rfl, fun _ => rfl, fun token member => (List.not_mem_nil member).elim⟩
  have loop : Ends (Raised bad) (fun n => body.foldlM (substituteOne (h n) expanding blank)
      ⟨args, ⟨before, []⟩, .normal⟩) (state.retaint (state.tainted.set expanding))
      (Holds (tainted.set expanding) args) :=
    Ends.foldlM (f := fun n => substituteOne (h n) expanding blank)
      (fun b a n => substituteOne_extends (fun arg => growing arg n) blank b a)
      (fun _ a _ _ holds => substituteOne_ends growing expands free blank holds a) start
  have both : Ends (Raised bad) (fun n => do
      let s ← body.foldlM (substituteOne (h n) expanding blank) ⟨args, ⟨before, []⟩, .normal⟩
      pure s.tail) (state.retaint (state.tainted.set expanding))
      fun tail state' => state'.tainted = tainted.set expanding ∧
        tail.Marked (tainted.set expanding) :=
    Ends.bind (fun n =>
        Extends.foldlM (substituteOne_extends (fun arg => growing arg n) blank) body _)
      (fun s n => Extends.pure _) loop
      (fun s state' holds => Ends.of_ok (fun n => rfl) ⟨holds.taint, holds.marked⟩)
  exact Ends.of_eq (fun n => rfl) both

end

end Ends

end SmatchFormal.Preprocess
