import SmatchFormal.Preprocess.ExpandEnds

/-!
# Termination of `expand_list`

The expansion of a list ends unless it comes to a call one of whose arguments outweighs what the
call takes behind the last marker it passes.  Such calls exist: an argument can contain the tokens
of a replacement whose macro is free again, so that its expansion comes to the same call.
-/

namespace SmatchFormal.Preprocess

open Fuel

def Terminates (macros : Macros) (list : List Pending) : Prop :=
  ∃ fuel out state, expandList macros fuel list State.start = .ok out state

def collectedRequests (macros : Macros) (list : List Pending) (fuel : Nat) : List Request :=
  (final (expandList macros fuel list State.start)).requests

/-- `expand_list` terminates if no call it collects is heavy. -/
theorem terminates_of_light (macros : Macros) (list : List Pending)
    (light : ∀ fuel, ∀ request ∈ collectedRequests macros list fuel, ¬ request.Heavy macros) :
    Terminates macros list := by
  have ends := expandFrom_finishes macros (State.start.tainted, list) [] State.start rfl
    (fresh_start list _ fun _ => rfl)
  rcases ends with ⟨fuel, request, member, heavy⟩ | ⟨fuel, out, state, result, -⟩
  · exact (light fuel request member heavy).elim
  · exact ⟨fuel, out, state, result⟩

def identToken (name : Ident) : Token := ⟨.ident name false, false⟩

def opToken (op : String) : Token := ⟨.special op, false⟩

def identityMacros : Macros :=
  [("f", ⟨true, 1, false, [.element (.piece (.argument 1 .normal false))]⟩)]

def identityCall : List Token := [identToken "f", opToken "(", identToken "y", opToken ")"]

theorem terminates_of_light_identity : Terminates identityMacros (identityCall.map .token) := by
  apply terminates_of_light
  intro fuel request member heavy
  have growing : Growing (Raised (Request.Heavy identityMacros)) fun fuel =>
      expandFrom identityMacros fuel ⟨[], identityCall.map .token⟩ :=
    expandFrom_growing identityMacros _
  have raised := growing.flag (Nat.le_max_left fuel 4) (s := State.start) ⟨request, member, heavy⟩
  obtain ⟨out, state, result, requests⟩ : ∃ out state,
      expandFrom identityMacros 4 ⟨[], identityCall.map .token⟩ State.start = .ok out state ∧
        state.requests = [⟨fun _ => false, 1, false, identityCall.tail.map .token⟩] :=
    ⟨_, _, rfl, rfl⟩
  have later := growing.ok (Nat.le_max_right fuel 4) result
  simp only [later, final_ok] at raised
  obtain ⟨other, one, args, argnum, arg, outcome, quoted, less⟩ := raised
  rw [requests, List.mem_singleton] at one
  subst one
  have collected : args = Function.update (fun _ => Arg.absent) 1 (Arg.raw [identToken "y"]) :=
    (Call.collected.inj outcome).symm
  rw [collected] at quoted
  rcases quoted_update (.inr rfl) quoted with absent | rfl
  · cases absent
  · exact absurd less (by decide)

/-- `#define g(x) x`, `#define k m` and `#define m() g(( k ())` -/
def loopMacros : Macros :=
  [("g", ⟨true, 1, false, [.element (.piece (.argument 1 .normal false))]⟩),
    ("k", ⟨false, 0, false, [ordinary (identToken "m")]⟩),
    ("m", ⟨true, 0, false, [identToken "g", opToken "(", opToken "(", identToken "k", opToken "(",
      opToken ")", opToken ")"].map ordinary⟩)]

def loopList : List Token :=
  [opToken "(", identToken "k", opToken "(", opToken ")", opToken ")"]

def loopSecond : List Pending :=
  .token (identToken "m") :: .untaint "k" :: [opToken "(", opToken ")", opToken ")"].map .token

/-- What follows `g` once `m ( )` is replaced; the last parenthesis is left of the list before. -/
def loopThird : List Pending :=
  loopList.map .token ++ [.untaint "m", .token (opToken ")")]

def noTaint : Taint := fun _ => false

theorem loop_open (n : Nat) (state : State) :
    expandFrom loopMacros (n + 1) ⟨[], loopList.map .token⟩ state =
      expandFrom loopMacros n ⟨[opToken "("], loopList.tail.map .token⟩ state := rfl

theorem loop_k (n : Nat) (requests : List Request) :
    expandFrom loopMacros (n + 1) ⟨[opToken "("], loopList.tail.map .token⟩ ⟨noTaint, requests⟩ =
      expandFrom loopMacros n ⟨[opToken "("], loopSecond⟩ ⟨noTaint.set "k", requests⟩ := rfl

theorem loop_m (n : Nat) (requests : List Request) : ∃ requests',
    expandFrom loopMacros (n + 1) ⟨[opToken "("], loopSecond⟩ ⟨noTaint.set "k", requests⟩ =
      expandFrom loopMacros n ⟨[opToken "("], .token (identToken "g") :: .token (opToken "(") ::
        loopThird⟩ ⟨((noTaint.set "k").clear "k").set "m", requests'⟩ :=
  ⟨_, rfl⟩

/-- The argument of `g` is the list the expansion began with. -/
theorem loop_g (expandList : Recursion) (onwards : Place → Expander (List Token))
    (requests : List Request)
    (fails : ∀ requests', ∃ e state, expandList loopList
      ⟨(((noTaint.set "m").clear "m").set "g").clear "g", requests'⟩ = .error e state) :
    ∃ e state, expandStep loopMacros expandList onwards ⟨[opToken "("],
      .token (identToken "g") :: .token (opToken "(") :: loopThird⟩
        ⟨noTaint.set "m", requests⟩ = .error e state := by
  obtain ⟨e, state, failure⟩ := fails
    (⟨noTaint.set "m", 1, false, .token (opToken "(") :: loopThird⟩ :: requests)
  refine ⟨e, state, ?_⟩
  unfold expandStep
  rw [bind_of_ok (show scan _ _ = .ok _ _ from rfl)]
  refine bind_of_error ?_
  show (collect _ _ >>= _) _ = _
  rw [bind_of_ok (show collect _ _ _ = .ok _ _ from rfl)]
  refine bind_of_error ?_
  refine bind_of_error (x := List.foldlM _ _ _) ?_
  refine bind_of_error (x := doArgument _ _ _ _ _ >>= _) ?_
  refine bind_of_error ?_
  refine bind_of_error (x := expandArgument _ _ _) ?_
  exact bind_of_error (x := expandList _) failure

theorem loop_fails (fuel : Nat) (requests : List Request) :
    ∃ e state, expandFrom loopMacros fuel ⟨[], loopList.map .token⟩ ⟨noTaint, requests⟩ =
      .error e state := by
  induction fuel using Nat.strongRecOn generalizing requests with
  | ind fuel ih =>
    cases fuel with
    | zero => exact ⟨_, _, rfl⟩
    | succ fuel =>
      rw [loop_open]
      cases fuel with
      | zero => exact ⟨_, _, rfl⟩
      | succ fuel =>
        rw [loop_k]
        cases fuel with
        | zero => exact ⟨_, _, rfl⟩
        | succ fuel =>
          obtain ⟨requests', step⟩ := loop_m fuel requests
          rw [step, Taint.set_clear rfl]
          cases fuel with
          | zero => exact ⟨_, _, rfl⟩
          | succ fuel =>
            rw [expandFrom_succ]
            apply loop_g
            intro requests''
            rw [Taint.set_clear rfl, Taint.set_clear rfl]
            exact ih fuel (by omega) requests''

/-- Not every expansion terminates. -/
theorem not_all_terminate : ¬ ∀ macros list, Terminates macros list := by
  intro all
  obtain ⟨fuel, out, state, result⟩ := all loopMacros (loopList.map .token)
  obtain ⟨e, state', failure⟩ := loop_fails fuel []
  rw [show expandList loopMacros fuel (loopList.map .token) State.start = .error e state' from
    failure] at result
  cases result

end SmatchFormal.Preprocess
