import Mathlib.Data.Nat.Init

/-!
# Computations with fuel

A recursion without a visible measure is run with fuel.  A family of computations, one for each
amount of fuel, grows: more fuel changes no result that less fuel gave.  The computations have a
state, which is kept when the fuel runs out, and some states are flagged; a flag once raised stays
raised.  The rules below show that a family ends, that is, gives a result or raises the flag.
-/

namespace SmatchFormal.Fuel

variable {ε σ α β : Type}

def final : EStateM.Result ε σ α → σ
  | .ok _ s => s
  | .error _ s => s

@[simp] theorem final_ok (a : α) (s : σ) : final (.ok a s : EStateM.Result ε σ α) = s := rfl

@[simp] theorem final_error (e : ε) (s : σ) : final (.error e s : EStateM.Result ε σ α) = s := rfl

theorem bind_of_ok {x : EStateM ε σ α} {f : α → EStateM ε σ β} {s s' : σ} {a : α}
    (first : x s = .ok a s') : (x >>= f) s = f a s' := by
  show EStateM.bind x f s = f a s'
  rw [EStateM.bind, first]

theorem bind_of_error {x : EStateM ε σ α} {f : α → EStateM ε σ β} {s s' : σ} {e : ε}
    (first : x s = .error e s') : (x >>= f) s = .error e s' := by
  show EStateM.bind x f s = .error e s'
  rw [EStateM.bind, first]

/-- `y` has every result that `x` has, and raises the flag wherever `x` raises it. -/
structure Extends (flagged : σ → Prop) (x y : EStateM ε σ α) : Prop where
  keeps : ∀ s, flagged s → flagged (final (y s))
  ok : ∀ s a s', x s = .ok a s' → y s = .ok a s'
  flag : ∀ s, flagged (final (x s)) → flagged (final (y s))

section Rules

variable {flagged : σ → Prop}

theorem Extends.refl {x : EStateM ε σ α} (keeps : ∀ s, flagged s → flagged (final (x s))) :
    Extends flagged x x where
  keeps := keeps
  ok _ _ _ same := same
  flag _ raised := raised

theorem Extends.pure (a : α) : Extends flagged (pure a : EStateM ε σ α) (pure a) :=
  Extends.refl fun _ raised => raised

theorem Extends.get : Extends flagged (get : EStateM ε σ σ) get :=
  Extends.refl fun _ raised => raised

theorem Extends.modify {f : σ → σ} (keeps : ∀ s, flagged s → flagged (f s)) :
    Extends flagged (modify f : EStateM ε σ PUnit) (modify f) :=
  Extends.refl keeps

theorem Extends.modifyGet {f : σ → α × σ} (keeps : ∀ s, flagged s → flagged (f s).2) :
    Extends flagged (modifyGet f : EStateM ε σ α) (modifyGet f) :=
  Extends.refl keeps

theorem Extends.throw {e : ε} {y : EStateM ε σ α}
    (keeps : ∀ s, flagged s → flagged (final (y s))) :
    Extends flagged (throw e : EStateM ε σ α) y where
  keeps := keeps
  ok s a s' same := by
    have other : (EStateM.Result.error e s : EStateM.Result ε σ α) = .ok a s' := same
    cases other
  flag s raised := keeps s raised

theorem Extends.bind {x y : EStateM ε σ α} {f g : α → EStateM ε σ β}
    (first : Extends flagged x y) (next : ∀ a, Extends flagged (f a) (g a)) :
    Extends flagged (x >>= f) (y >>= g) := by
  have onwards : ∀ s, flagged (final (y s)) → flagged (final ((y >>= g) s)) := by
    intro s raised
    cases result : y s with
    | ok a s' =>
      rw [result] at raised
      rw [bind_of_ok result]
      exact (next a).keeps s' raised
    | error e s' =>
      rw [result] at raised
      rw [bind_of_error result]
      exact raised
  refine ⟨fun s raised => onwards s (first.keeps s raised), ?_, ?_⟩
  · intro s b s'' done
    cases result : x s with
    | ok a s' =>
      rw [bind_of_ok result] at done
      rw [bind_of_ok (first.ok s a s' result)]
      exact (next a).ok s' b s'' done
    | error e s' =>
      rw [bind_of_error result] at done
      cases done
  · intro s raised
    cases result : x s with
    | ok a s' =>
      rw [bind_of_ok result] at raised
      rw [bind_of_ok (first.ok s a s' result)]
      exact (next a).flag s' raised
    | error e s' =>
      rw [bind_of_error result] at raised
      apply onwards
      apply first.flag
      rw [result]
      exact raised

theorem Extends.foldlM {f g : β → α → EStateM ε σ β}
    (step : ∀ b a, Extends flagged (f b a) (g b a)) (list : List α) (b : β) :
    Extends flagged (list.foldlM f b) (list.foldlM g b) := by
  induction list generalizing b with
  | nil => exact Extends.pure b
  | cons a list ih =>
    rw [List.foldlM_cons, List.foldlM_cons]
    exact (step b a).bind ih

def Growing (flagged : σ → Prop) (x : Nat → EStateM ε σ α) : Prop :=
  ∀ n, Extends flagged (x n) (x (n + 1))

theorem Growing.ok {x : Nat → EStateM ε σ α} (growing : Growing flagged x) {n m : Nat}
    (more : n ≤ m) {s s' : σ} {a : α} (result : x n s = .ok a s') : x m s = .ok a s' := by
  induction m, more using Nat.le_induction with
  | base => exact result
  | succ m _ ih => exact (growing m).ok s a s' ih

theorem Growing.flag {x : Nat → EStateM ε σ α} (growing : Growing flagged x) {n m : Nat}
    (more : n ≤ m) {s : σ} (raised : flagged (final (x n s))) : flagged (final (x m s)) := by
  induction m, more using Nat.le_induction with
  | base => exact raised
  | succ m _ ih => exact (growing m).flag s ih

/-- With enough fuel the flag is raised, or there is a result of which `post` holds. -/
def Ends (flagged : σ → Prop) (x : Nat → EStateM ε σ α) (s : σ) (post : α → σ → Prop) : Prop :=
  (∃ n, flagged (final (x n s))) ∨ ∃ n a s', x n s = .ok a s' ∧ post a s'

theorem Ends.of_ok {x : Nat → EStateM ε σ α} {s s' : σ} {a : α} {post : α → σ → Prop}
    (result : ∀ n, x n s = .ok a s') (holds : post a s') : Ends flagged x s post :=
  .inr ⟨0, a, s', result 0, holds⟩

theorem Ends.weaken {x : Nat → EStateM ε σ α} {s : σ} {post other : α → σ → Prop}
    (ends : Ends flagged x s post) (weaker : ∀ a s', post a s' → other a s') :
    Ends flagged x s other := by
  rcases ends with raised | ⟨n, a, s', result, holds⟩
  · exact .inl raised
  · exact .inr ⟨n, a, s', result, weaker a s' holds⟩

/-- A computation that runs as another one does from another state ends with it. -/
theorem Ends.of_eq {x y : Nat → EStateM ε σ α} {s t : σ} {post : α → σ → Prop}
    (same : ∀ n, x n s = y n t) (ends : Ends flagged y t post) : Ends flagged x s post := by
  rcases ends with ⟨n, raised⟩ | ⟨n, a, s', result, holds⟩
  · exact .inl ⟨n, by rw [same]; exact raised⟩
  · exact .inr ⟨n, a, s', by rw [same]; exact result, holds⟩

/-- The first step of a computation may take some fuel. -/
theorem Ends.of_succ {x : Nat → EStateM ε σ α} {s : σ} {post : α → σ → Prop}
    (ends : Ends flagged (fun n => x (n + 1)) s post) : Ends flagged x s post := by
  rcases ends with ⟨n, raised⟩ | ⟨n, a, s', result, holds⟩
  · exact .inl ⟨n + 1, raised⟩
  · exact .inr ⟨n + 1, a, s', result, holds⟩

theorem Ends.bind {x : Nat → EStateM ε σ α} {f : Nat → α → EStateM ε σ β} {s : σ}
    {post : α → σ → Prop} {after : β → σ → Prop} (growing : Growing flagged x)
    (next : ∀ a, Growing flagged fun n => f n a) (ends : Ends flagged x s post)
    (rest : ∀ a s', post a s' → Ends flagged (fun n => f n a) s' after) :
    Ends flagged (fun n => x n >>= f n) s after := by
  have grows : Growing flagged fun n => x n >>= f n :=
    fun n => (growing n).bind fun a => next a n
  rcases ends with ⟨n, raised⟩ | ⟨n, a, s', result, holds⟩
  · left
    refine ⟨n + 1, ?_⟩
    cases outcome : x n s with
    | ok a s' =>
      rw [outcome] at raised
      show flagged (final ((x (n + 1) >>= f (n + 1)) s))
      rw [bind_of_ok ((growing n).ok s a s' outcome)]
      exact (next a n).keeps s' raised
    | error e s' =>
      apply (grows n).flag
      show flagged (final ((x n >>= f n) s))
      rw [bind_of_error outcome]
      rw [outcome] at raised
      exact raised
  · rcases rest a s' holds with ⟨m, raised⟩ | ⟨m, b, s'', later, good⟩
    · left
      refine ⟨max n m, ?_⟩
      show flagged (final ((x (max n m) >>= f (max n m)) s))
      rw [bind_of_ok (growing.ok (Nat.le_max_left n m) result)]
      exact (next a).flag (Nat.le_max_right n m) raised
    · right
      refine ⟨max n m, b, s'', ?_, good⟩
      show (x (max n m) >>= f (max n m)) s = .ok b s''
      rw [bind_of_ok (growing.ok (Nat.le_max_left n m) result)]
      exact (next a).ok (Nat.le_max_right n m) later

theorem Ends.foldlM {f : Nat → β → α → EStateM ε σ β} {inv : β → σ → Prop} {list : List α}
    (growing : ∀ b a, Growing flagged fun n => f n b a)
    (step : ∀ b a s, a ∈ list → inv b s → Ends flagged (fun n => f n b a) s inv) {b : β} {s : σ}
    (holds : inv b s) : Ends flagged (fun n => list.foldlM (f n) b) s inv := by
  induction list generalizing b s with
  | nil => exact Ends.of_ok (fun _ => rfl) holds
  | cons a list ih =>
    have first := step b a s List.mem_cons_self holds
    have rest : ∀ b' s', inv b' s' → Ends flagged (fun n => list.foldlM (f n) b') s' inv :=
      fun b' s' good => ih (fun b a s member => step b a s (List.mem_cons_of_mem _ member)) good
    have both := Ends.bind (growing b a)
      (fun b' n => Extends.foldlM (fun b a => growing b a n) list b') first rest
    refine Ends.of_eq (fun n => ?_) both
    rw [List.foldlM_cons]

end Rules

end SmatchFormal.Fuel
