import SmatchFormal.Lib.Dominance
import Mathlib.Tactic.DefEqTransformations

/-!
# Numbering the blocks

`cfg_postorder` numbers the blocks when a depth-first walk leaves them, and puts them into
the list of the function in the reverse order.
-/

namespace SmatchFormal.Domtree

open Dominance List Function

variable {Block : Type}

/-- The blocks of a `struct entrypoint`, with the lists of their edges. -/
structure Entrypoint (Block : Type) where
  entry : Block
  bbs : List Block
  children : Block → List Block
  parents : Block → List Block

def Entrypoint.Edge (ep : Entrypoint Block) (a b : Block) : Prop := b ∈ ep.children a

/-- All blocks are reachable, and the lists of parents and children are inverse to each other. -/
structure Entrypoint.Connected (ep : Entrypoint Block) : Prop where
  entry : ep.entry ∈ ep.bbs
  closed : ∀ a ∈ ep.bbs, ∀ b ∈ ep.children a, b ∈ ep.bbs
  parents : ∀ b ∈ ep.bbs, ∀ a ∈ ep.parents b, a ∈ ep.bbs
  inverse : ∀ a ∈ ep.bbs, ∀ b ∈ ep.bbs, b ∈ ep.children a ↔ a ∈ ep.parents b
  reachable : ∀ b ∈ ep.bbs, Reachable ep.Edge ep.entry b

/-- `struct cfg_info`, with what is written into the blocks: the ones with the current generation
and the numbers. -/
structure CfgInfo (Block : Type) where
  list : List Block
  nr : Nat
  generation : Block → Bool
  postorderNr : Block → Nat

def CfgInfo.mark [DecidableEq Block] (info : CfgInfo Block) (bb : Block) : CfgInfo Block :=
  { info with generation := Function.update info.generation bb true }

def CfgInfo.leave [DecidableEq Block] (info : CfgInfo Block) (bb : Block) : CfgInfo Block :=
  { info with
    postorderNr := Function.update info.postorderNr bb info.nr
    nr := info.nr + 1
    list := info.list ++ [bb] }

/-- `label_postorder`, with a bound on the depth of the recursion. -/
def labelPostorder [DecidableEq Block] (ep : Entrypoint Block) :
    Nat → Block → CfgInfo Block → Option (CfgInfo Block)
  | 0, _, _ => none
  | fuel + 1, bb, info =>
    if info.generation bb then some info
    else
      ((ep.children bb).reverse.foldlM (fun info child => labelPostorder ep fuel child info)
        (info.mark bb)).map fun info => info.leave bb

def CfgInfo.start : CfgInfo Block := ⟨[], 0, fun _ => false, fun _ => 0⟩

def cfgPostorder [DecidableEq Block] (ep : Entrypoint Block) (fuel : Nat) :
    Option (List Block × (Block → Nat)) :=
  (labelPostorder ep fuel ep.entry .start).map fun info => (info.list.reverse, info.postorderNr)

/-! ## One part of the walk -/

/-- What a part of the walk that starts at some blocks adds: these new blocks, in the order in which
they are left. -/
structure Labels (ep : Entrypoint Block) (starts : List Block) (info info' : CfgInfo Block)
    (new : List Block) : Prop where
  list : info'.list = info.list ++ new
  nr : info'.nr = info.nr + new.length
  generation : ∀ b, info'.generation b = true ↔ info.generation b = true ∨ b ∈ new
  nodup : new.Nodup
  fresh : ∀ b ∈ new, info.generation b = false
  old : ∀ b, b ∉ new → info'.postorderNr b = info.postorderNr b
  number : ∀ (i : Nat) b, new[i]? = some b → info'.postorderNr b = info.nr + i
  begun : ∀ c ∈ starts, info'.generation c = true
  children : ∀ b ∈ new, ∀ c ∈ ep.children b, info'.generation c = true
  path : ∀ b ∈ new, ∃ c ∈ starts, ∃ nodes, Path ep.Edge c nodes b ∧
    ∀ x ∈ nodes, x ∈ new ∧ info'.postorderNr b ≤ info'.postorderNr x

namespace Labels

variable {ep : Entrypoint Block} {info info' info'' : CfgInfo Block} {new new' : List Block}
  {starts : List Block} {bb : Block}

theorem nil (info : CfgInfo Block) : Labels ep [] info info [] where
  list := (append_nil _).symm
  nr := rfl
  generation := fun _ => ⟨Or.inl, fun here => here.resolve_right (not_mem_nil)⟩
  nodup := nodup_nil
  fresh := fun _ never => absurd never not_mem_nil
  old := fun _ _ => rfl
  number := fun _ _ never => by cases never
  begun := fun _ never => absurd never not_mem_nil
  children := fun _ never => absurd never not_mem_nil
  path := fun _ never => absurd never not_mem_nil

theorem seen (here : info.generation bb = true) : Labels ep [bb] info info [] :=
  { nil info with
    begun := fun c member => by
      rw [mem_singleton.mp member]
      exact here
    path := fun _ never => absurd never not_mem_nil }

theorem cons (first : Labels ep [bb] info info' new) (second : Labels ep starts info' info'' new') :
    Labels ep (bb :: starts) info info'' (new ++ new') := by
  have apart : ∀ b ∈ new, b ∉ new' := by
    intro b member member'
    have seen := (first.generation b).mpr (Or.inr member)
    rw [second.fresh b member'] at seen
    cases seen
  have later : ∀ b, info'.generation b = true → info''.generation b = true :=
    fun b seen => (second.generation b).mpr (Or.inl seen)
  refine
    { list := by rw [second.list, first.list, append_assoc]
      nr := by rw [second.nr, first.nr, length_append, Nat.add_assoc]
      generation := ?_, nodup := ?_, fresh := ?_, old := ?_, number := ?_, begun := ?_
      children := ?_, path := ?_ }
  · intro b
    rw [second.generation, first.generation, mem_append, or_assoc]
  · exact nodup_append.mpr ⟨first.nodup, second.nodup, fun a member b member' same =>
      apart a member (same ▸ member')⟩
  · intro b member
    rcases mem_append.mp member with member | member
    · exact first.fresh b member
    · refine Bool.eq_false_iff.mpr fun seen => ?_
      have still := (first.generation b).mpr (Or.inl seen)
      rw [second.fresh b member] at still
      cases still
  · intro b outside
    rw [mem_append, not_or] at outside
    rw [second.old b outside.2, first.old b outside.1]
  · intro i b found
    rcases Nat.lt_or_ge i new.length with inside | after
    · rw [List.getElem?_append_left inside] at found
      rw [second.old b (apart b (mem_of_getElem? found)), first.number i b found]
    · rw [List.getElem?_append_right after] at found
      rw [second.number _ b found, first.nr, Nat.add_assoc, Nat.add_sub_cancel' after]
  · intro c member
    rcases mem_cons.mp member with rfl | member
    · exact later c (first.begun c mem_cons_self)
    · exact second.begun c member
  · intro b member c child
    rcases mem_append.mp member with member | member
    · exact later c (first.children b member c child)
    · exact second.children b member c child
  · intro b member
    rcases mem_append.mp member with member | member
    · obtain ⟨c, start, nodes, path, above⟩ := first.path b member
      refine ⟨c, mem_cons.mpr (Or.inl (mem_singleton.mp start)), nodes, path, ?_⟩
      intro x inside
      obtain ⟨isNew, le⟩ := above x inside
      rw [second.old b (apart b member), second.old x (apart x isNew)]
      exact ⟨mem_append_left _ isNew, le⟩
    · obtain ⟨c, start, nodes, path, above⟩ := second.path b member
      refine ⟨c, mem_cons_of_mem _ start, nodes, path, fun x inside => ?_⟩
      exact ⟨mem_append_right _ (above x inside).1, (above x inside).2⟩

theorem leave [DecidableEq Block] (unseen : info.generation bb = false)
    (inner : Labels ep starts (info.mark bb) info' new)
    (all : ∀ c, c ∈ starts ↔ c ∈ ep.children bb) :
    Labels ep [bb] info (info'.leave bb) (new ++ [bb]) := by
  have marked : ∀ b, (info.mark bb).generation b = true ↔ info.generation b = true ∨ b = bb := by
    intro b
    unfold CfgInfo.mark
    dsimp only
    by_cases same : b = bb
    · rw [same, update_self]
      exact ⟨fun _ => Or.inr rfl, fun _ => rfl⟩
    · rw [update_of_ne same]
      exact ⟨Or.inl, fun here => here.resolve_right same⟩
  have outside : bb ∉ new := by
    intro member
    have unmarked := inner.fresh bb member
    rw [(marked bb).mpr (Or.inr rfl)] at unmarked
    cases unmarked
  have generation : ∀ b, info'.generation b = true ↔
      info.generation b = true ∨ b ∈ new ++ [bb] := by
    intro b
    rw [inner.generation, marked, mem_append, mem_singleton, or_assoc,
      or_comm (a := b = bb)]
  have kept : ∀ b, b ≠ bb → (info'.leave bb).postorderNr b = info'.postorderNr b :=
    fun b other => update_of_ne other _ _
  have own : (info'.leave bb).postorderNr bb = info.nr + new.length := by
    unfold CfgInfo.leave
    dsimp only
    rw [update_self, inner.nr]
    rfl
  have below : ∀ b ∈ new, (info'.leave bb).postorderNr b < info.nr + new.length := by
    intro b member
    obtain ⟨i, found⟩ := mem_iff_getElem?.mp member
    rw [kept b (fun same => outside (same ▸ member)), inner.number i b found]
    exact Nat.add_lt_add_left (List.getElem?_eq_some_iff.mp found).1 info.nr
  refine
    { list := ?_, nr := ?_, generation := generation, nodup := ?_, fresh := ?_, old := ?_
      number := ?_, begun := ?_, children := ?_, path := ?_ }
  · change info'.list ++ [bb] = info.list ++ (new ++ [bb])
    rw [inner.list, append_assoc]
    rfl
  · change info'.nr + 1 = info.nr + (new ++ [bb]).length
    rw [inner.nr, length_append]
    rfl
  · exact nodup_append.mpr ⟨inner.nodup, nodup_singleton bb, fun a member b here same =>
      outside (mem_singleton.mp here ▸ same ▸ member)⟩
  · intro b member
    rcases mem_append.mp member with member | here
    · refine Bool.eq_false_iff.mpr fun seen => ?_
      have unmarked := inner.fresh b member
      rw [(marked b).mpr (Or.inl seen)] at unmarked
      cases unmarked
    · rw [mem_singleton.mp here]
      exact unseen
  · intro b away
    rw [mem_append, not_or, mem_singleton] at away
    rw [kept b away.2, inner.old b away.1]
    rfl
  · intro i b found
    rcases Nat.lt_or_ge i new.length with inside | after
    · rw [List.getElem?_append_left inside] at found
      rw [kept b (fun same => outside (same ▸ mem_of_getElem? found)), inner.number i b found]
      rfl
    · rw [List.getElem?_append_right after] at found
      obtain ⟨first, same⟩ := List.getElem?_eq_some_iff.mp found
      have last : i = new.length := Nat.le_antisymm (Nat.le_of_sub_eq_zero
        (Nat.lt_one_iff.mp first)) after
      rw [getElem_singleton] at same
      rw [← same, own, last]
  · intro c member
    rw [mem_singleton.mp member]
    exact (generation bb).mpr (Or.inr (mem_append_right _ mem_cons_self))
  · intro b member c child
    rcases mem_append.mp member with member | here
    · exact inner.children b member c child
    · rw [mem_singleton.mp here] at child
      exact inner.begun c ((all c).mpr child)
  · intro b member
    refine ⟨bb, mem_cons_self, ?_⟩
    rcases mem_append.mp member with member | here
    · obtain ⟨c, start, nodes, path, above⟩ := inner.path b member
      refine ⟨nodes ++ [bb], path.prepend ((all c).mp start), fun x inside => ?_⟩
      rcases mem_append.mp inside with inside | last
      · obtain ⟨isNew, le⟩ := above x inside
        rw [kept b (fun same => outside (same ▸ member)),
          kept x (fun same => outside (same ▸ isNew))]
        exact ⟨mem_append_left _ isNew, le⟩
      · rw [mem_singleton.mp last]
        exact ⟨mem_append_right _ mem_cons_self, own ▸ Nat.le_of_lt (below b member)⟩
    · rw [mem_singleton.mp here]
      refine ⟨[bb], .start, fun x inside => ?_⟩
      rw [mem_singleton.mp inside]
      exact ⟨mem_append_right _ mem_cons_self, Nat.le_refl _⟩

end Labels

section Walk

variable [DecidableEq Block] {ep : Entrypoint Block} {info info' : CfgInfo Block} {bb : Block}
  {fuel : Nat}

def left (ep : Entrypoint Block) (info : CfgInfo Block) : Nat :=
  ep.bbs.countP fun b => !info.generation b

omit [DecidableEq Block] in
theorem left_le (later : ∀ b, info.generation b = true → info'.generation b = true) :
    left ep info' ≤ left ep info := by
  refine countP_mono_left fun b _ unseen => ?_
  rw [Bool.not_eq_true'] at unseen ⊢
  refine Bool.eq_false_iff.mpr fun seen => ?_
  rw [later b seen] at unseen
  cases unseen

theorem generation_mark (info : CfgInfo Block) (bb : Block) (b : Block)
    (seen : info.generation b = true) : (info.mark bb).generation b = true := by
  unfold CfgInfo.mark
  dsimp only
  by_cases same : b = bb
  · rw [same, update_self]
  · rw [update_of_ne same, seen]

theorem left_mark_lt (member : bb ∈ ep.bbs) (unseen : info.generation bb = false) :
    left ep (info.mark bb) < left ep info := by
  obtain ⟨before, after, split⟩ := append_of_mem member
  have fewer : ∀ part : List Block,
      part.countP (fun b => !(info.mark bb).generation b) ≤
        part.countP fun b => !info.generation b := by
    intro part
    refine countP_mono_left fun b _ fresh => ?_
    rw [Bool.not_eq_true'] at fresh ⊢
    refine Bool.eq_false_iff.mpr fun seen => ?_
    rw [generation_mark info bb b seen] at fresh
    cases fresh
  have marked : (info.mark bb).generation bb = true := by
    unfold CfgInfo.mark
    exact update_self _ _ _
  unfold left
  rw [split, countP_append, countP_append, countP_cons, countP_cons, marked,
    unseen]
  have first := fewer before
  have second := fewer after
  simp only [Bool.not_true, Bool.not_false, if_true, Bool.false_eq_true, if_false]
  omega

/-- What the walk over the children adds, if this is so for each of them. -/
theorem foldlM_labels
    (each : ∀ child info info', labelPostorder ep fuel child info = some info' →
      ∃ new, Labels ep [child] info info' new)
    {children : List Block}
    (result : children.foldlM (fun info child => labelPostorder ep fuel child info) info =
      some info') : ∃ new, Labels ep children info info' new := by
  induction children generalizing info with
  | nil =>
    cases Option.some.inj result
    exact ⟨[], .nil _⟩
  | cons child children ih =>
    rw [foldlM_cons] at result
    obtain ⟨middle, first, rest⟩ := Option.bind_eq_some_iff.mp result
    obtain ⟨new, labels⟩ := each child info middle first
    obtain ⟨new', labels'⟩ := ih rest
    exact ⟨new ++ new', labels.cons labels'⟩

theorem labelPostorder_labels (result : labelPostorder ep fuel bb info = some info') :
    ∃ new, Labels ep [bb] info info' new := by
  induction fuel generalizing bb info info' with
  | zero => cases result
  | succ fuel ih =>
    unfold labelPostorder at result
    cases seen : info.generation bb with
    | true =>
      rw [if_pos seen] at result
      cases result
      exact ⟨[], .seen seen⟩
    | false =>
      rw [if_neg (Bool.eq_false_iff.mp seen)] at result
      obtain ⟨inner, walked, rfl⟩ := Option.map_eq_some_iff.mp result
      obtain ⟨new, labels⟩ := foldlM_labels (fun child info info' => ih) walked
      exact ⟨new ++ [bb], labels.leave seen fun c => mem_reverse⟩

theorem foldlM_some
    (each : ∀ child info, child ∈ ep.bbs → left ep info < fuel →
      ∃ info', labelPostorder ep fuel child info = some info')
    {children : List Block} (inside : ∀ child ∈ children, child ∈ ep.bbs)
    (enough : left ep info < fuel) :
    ∃ info', children.foldlM (fun info child => labelPostorder ep fuel child info) info =
      some info' := by
  induction children generalizing info with
  | nil => exact ⟨info, rfl⟩
  | cons child children ih =>
    obtain ⟨middle, first⟩ := each child info (inside child mem_cons_self) enough
    obtain ⟨new, labels⟩ := labelPostorder_labels first
    have fewer : left ep middle ≤ left ep info :=
      left_le fun b seen => (labels.generation b).mpr (Or.inl seen)
    obtain ⟨info', rest⟩ := ih (fun c member => inside c (mem_cons_of_mem child member))
      (Nat.lt_of_le_of_lt fewer enough)
    refine ⟨info', ?_⟩
    rw [foldlM_cons, first]
    exact rest

/-- The recursion ends when it may be deeper than the number of blocks that are left. -/
theorem labelPostorder_some (connected : ep.Connected) (member : bb ∈ ep.bbs)
    (enough : left ep info < fuel) : ∃ info', labelPostorder ep fuel bb info = some info' := by
  induction fuel generalizing bb info with
  | zero => exact absurd enough (Nat.not_lt_zero _)
  | succ fuel ih =>
    unfold labelPostorder
    cases seen : info.generation bb with
    | true => exact ⟨info, if_pos rfl⟩
    | false =>
      have fewer := Nat.lt_of_lt_of_le (left_mark_lt member seen) (Nat.le_of_lt_succ enough)
      obtain ⟨inner, walked⟩ := foldlM_some (fun child info => ih)
        (fun c child => connected.closed bb member c (mem_reverse.mp child)) fewer
      refine ⟨inner.leave bb, ?_⟩
      rw [if_neg Bool.false_ne_true, walked]
      rfl

end Walk

/-- Blocks in reverse postorder: each is reached by a path whose blocks do not have smaller
numbers. -/
structure Numbered (ep : Entrypoint Block) (bbs : List Block) (number : Block → Nat) : Prop where
  nodup : bbs.Nodup
  mem : ∀ b, b ∈ bbs ↔ b ∈ ep.bbs
  sorted : bbs.Pairwise fun a b => number b < number a
  path : ∀ b ∈ bbs, ∃ nodes, Path ep.Edge ep.entry nodes b ∧ ∀ x ∈ nodes, number b ≤ number x
  bound : ∀ b ∈ bbs, number b < bbs.length
  last : number ep.entry + 1 = bbs.length

theorem cfgPostorder_numbered [DecidableEq Block] {ep : Entrypoint Block}
    (connected : ep.Connected) {fuel : Nat} (enough : ep.bbs.length < fuel) :
    ∃ bbs number, cfgPostorder ep fuel = some (bbs, number) ∧ Numbered ep bbs number := by
  have fits : left ep .start < fuel := Nat.lt_of_le_of_lt countP_le_length enough
  obtain ⟨info, walked⟩ := labelPostorder_some connected connected.entry fits
  obtain ⟨new, labels⟩ := labelPostorder_labels walked
  have list : info.list = new := labels.list.trans (nil_append new)
  have seen : ∀ b, info.generation b = true ↔ b ∈ new := fun b =>
    (labels.generation b).trans ⟨fun here => here.resolve_left Bool.false_ne_true, Or.inr⟩
  have number : ∀ (i : Nat) b, new[i]? = some b → info.postorderNr b = i :=
    fun i b found => (labels.number i b found).trans (Nat.zero_add i)
  have first : ep.entry ∈ new := (seen _).mp (labels.begun _ mem_cons_self)
  have all : ∀ b, Reachable ep.Edge ep.entry b → b ∈ new := by
    rintro b ⟨nodes, path⟩
    induction path with
    | start => exact first
    | step path next ih => exact (seen _).mp (labels.children _ ih _ next)
  have path : ∀ b ∈ new, ∃ nodes, Path ep.Edge ep.entry nodes b ∧
      ∀ x ∈ nodes, info.postorderNr b ≤ info.postorderNr x := by
    intro b member
    obtain ⟨c, start, nodes, path, above⟩ := labels.path b member
    rw [mem_singleton.mp start] at path
    exact ⟨nodes, path, fun x inside => (above x inside).2⟩
  have inside : ∀ b ∈ new, b ∈ ep.bbs := by
    intro b member
    obtain ⟨nodes, path, -⟩ := path b member
    clear member
    induction path with
    | start => exact connected.entry
    | step path next ih => exact connected.closed _ ih _ next
  have bound : ∀ b ∈ new, info.postorderNr b < new.length := by
    intro b member
    obtain ⟨i, found⟩ := mem_iff_getElem?.mp member
    rw [number i b found]
    exact (List.getElem?_eq_some_iff.mp found).1
  refine ⟨new.reverse, info.postorderNr, ?_, ?_⟩
  · unfold cfgPostorder
    rw [walked, Option.map_some, list]
  · refine
      { nodup := nodup_reverse.mpr labels.nodup
        mem := fun b => mem_reverse.trans ⟨inside b, fun member =>
          all b (connected.reachable b member)⟩
        sorted := ?_, path := fun b member => path b (mem_reverse.mp member)
        bound := fun b member => ?_, last := ?_ }
    · refine pairwise_reverse.mpr (pairwise_iff_getElem.mpr ?_)
      intro i j before after less
      rw [number i _ (List.getElem?_eq_getElem before), number j _ (List.getElem?_eq_getElem after)]
      exact less
    · rw [length_reverse]
      exact bound b (mem_reverse.mp member)
    · -- The block that is left last is the one where the walk starts.
      rw [length_reverse]
      have positive : 0 < new.length := length_pos_of_mem first
      have top : new[new.length - 1]? = some new[new.length - 1] :=
        List.getElem?_eq_getElem (Nat.sub_lt positive Nat.one_pos)
      obtain ⟨nodes, path, above⟩ := path _ (mem_of_getElem? top)
      have le := above _ path.root_mem
      rw [number _ _ top] at le
      have less := bound _ first
      omega

end SmatchFormal.Domtree
