import SmatchFormal.Stree.Avl
import Mathlib.Tactic.NormNum.NatFib

/-!
# Traversal

`avl_iter_begin` and `avl_iter_next` walk a tree with an explicit stack of the
nodes that are still to be visited.  The stack has room for 100 nodes, which is
enough for every tree that fits in memory.
-/

namespace SmatchFormal.Stree

open SmatchFormal.Lib AvlNode List

variable {numChecks : Nat} {σ : Type}

inductive AvlDirection where
  | forward
  | backward
  deriving DecidableEq

/-- The side a direction stands for as an index of `lr`. -/
def AvlDirection.side : AvlDirection → Bool
  | .forward => false
  | .backward => true

/-- `struct AvlIter`; the top of the stack comes first.  `iter->sm` is the state of the node. -/
structure AvlIter (numChecks : Nat) (σ : Type) where
  node : AvlNode numChecks σ
  stack : List (AvlNode numChecks σ)
  direction : AvlDirection

def descend (direction : AvlDirection) :
    AvlNode numChecks σ → List (AvlNode numChecks σ) → AvlIter numChecks σ
  | .null, stack => ⟨.null, stack, direction⟩
  | .node sm lr0 lr1 balance, stack =>
    let p := AvlNode.node sm lr0 lr1 balance
    if (p.lr direction.side).isNull then ⟨p, stack, direction⟩
    else if direction.side then descend direction lr1 (p :: stack)
    else descend direction lr0 (p :: stack)

def avlIterBegin (root : AvlNode numChecks σ) (direction : AvlDirection) : AvlIter numChecks σ :=
  if root.isNull then ⟨.null, [], direction⟩ else descend direction root []

def avlIterNext (iter : AvlIter numChecks σ) : AvlIter numChecks σ :=
  if iter.node.isNull then iter
  else
    let next := iter.node.lr !iter.direction.side
    if !next.isNull then descend iter.direction next iter.stack
    else
      match iter.stack with
      | top :: stack => { iter with node := top, stack := stack }
      | [] => { iter with node := .null }

/-- The loop of `avl_traverse` and the states it visits; `none` when the fuel runs out. -/
def traverseFrom : Nat → AvlIter numChecks σ → Option (List (SmState numChecks σ))
  | 0, _ => none
  | fuel + 1, iter =>
    match iter.node with
    | .null => some []
    | .node sm _ _ _ => (traverseFrom fuel (avlIterNext iter)).map (sm :: ·)

def avlTraverse (root : AvlNode numChecks σ) (direction : AvlDirection) :
    Option (List (SmState numChecks σ)) :=
  traverseFrom (countNode root + 1) (avlIterBegin root direction)

def walk (direction : AvlDirection) : AvlNode numChecks σ → List (SmState numChecks σ)
  | .null => []
  | .node sm lr0 lr1 _ =>
    match direction with
    | .forward => walk direction lr0 ++ sm :: walk direction lr1
    | .backward => walk direction lr1 ++ sm :: walk direction lr0

def visits (direction : AvlDirection) : AvlNode numChecks σ → List (SmState numChecks σ)
  | .null => []
  | .node sm lr0 lr1 balance =>
    sm :: walk direction ((AvlNode.node sm lr0 lr1 balance).lr !direction.side)

def pending (iter : AvlIter numChecks σ) : List (SmState numChecks σ) :=
  visits iter.direction iter.node ++ (iter.stack.map (visits iter.direction)).flatten

/-- No null pointer is on the stack, and the tree below every pointer is not higher
than the depth of the stack leaves room for. -/
def Fits (height : Nat) : List (AvlNode numChecks σ) → Prop
  | [] => True
  | p :: stack => p ≠ .null ∧ stack.length + p.height ≤ height ∧ Fits height stack

theorem walk_node (direction : AvlDirection) (p : AvlNode numChecks σ) (nonempty : p ≠ null) :
    walk direction p = walk direction (p.lr direction.side) ++ visits direction p := by
  cases p with
  | null => exact absurd rfl nonempty
  | node sm lr0 lr1 balance => cases direction <;> rfl

theorem walk_eq (direction : AvlDirection) (p : AvlNode numChecks σ) :
    walk direction p =
      match direction with
      | .forward => p.inorder
      | .backward => p.inorder.reverse := by
  induction p with
  | null => cases direction <;> rfl
  | node sm lr0 lr1 balance left right =>
    cases direction with
    | forward =>
      rw [walk]
      simp only at left right ⊢
      rw [left, right, inorder_node]
    | backward =>
      rw [walk]
      simp only at left right ⊢
      rw [left, right, inorder_node, reverse_append, reverse_cons, append_assoc,
        singleton_append]

theorem height_lr_lt {p : AvlNode numChecks σ} (nonempty : p ≠ null) (side : Bool) :
    (p.lr side).height < p.height := by
  cases p with
  | null => exact absurd rfl nonempty
  | node sm lr0 lr1 balance =>
    rw [height_node side]
    omega

section Steps

variable {direction : AvlDirection} {stack : List (AvlNode numChecks σ)} {height : Nat}

structure Within (height : Nat) (iter : AvlIter numChecks σ) : Prop where
  room : iter.node ≠ null → iter.stack.length + iter.node.height ≤ height
  fits : Fits height iter.stack
  ended : iter.node = null → iter.stack = []

theorem descend_spec {p : AvlNode numChecks σ} (nonempty : p ≠ null) (fits : Fits height stack)
    (room : stack.length + p.height ≤ height) :
    Within height (descend direction p stack) ∧ (descend direction p stack).direction = direction ∧
      pending (descend direction p stack) =
        walk direction p ++ (stack.map (visits direction)).flatten := by
  induction p generalizing stack with
  | null => exact absurd rfl nonempty
  | node sm lr0 lr1 balance left right =>
    rw [descend, walk_node direction _ nonempty]
    by_cases last : ((node sm lr0 lr1 balance).lr direction.side).isNull = true
    · rw [if_pos last, (isNull_iff _).mp last]
      exact ⟨⟨fun _ => room, fits, nofun⟩, rfl, rfl⟩
    · have lower := height_lr_lt nonempty direction.side
      have deeper : Fits height (node sm lr0 lr1 balance :: stack) := ⟨nonempty, room, fits⟩
      rw [if_neg last, append_assoc]
      cases direction with
      | forward =>
        refine left (fun empty => last ((isNull_iff lr0).mpr empty)) deeper ?_
        change lr0.height < _ at lower
        rw [length_cons]
        omega
      | backward =>
        refine right (fun empty => last ((isNull_iff lr1).mpr empty)) deeper ?_
        change lr1.height < _ at lower
        rw [length_cons]
        omega

/-- A step of the loop visits the first of the pending states. -/
theorem avlIterNext_spec {iter : AvlIter numChecks σ} {sm : SmState numChecks σ}
    {lr0 lr1 : AvlNode numChecks σ} {balance : Int} (within : Within height iter)
    (here : iter.node = node sm lr0 lr1 balance) :
    Within height (avlIterNext iter) ∧ pending iter = sm :: pending (avlIterNext iter) := by
  obtain ⟨p, stack, direction⟩ := iter
  obtain ⟨room, fits, -⟩ := within
  obtain rfl : p = node sm lr0 lr1 balance := here
  have nonempty : node sm lr0 lr1 balance ≠ null := nofun
  have lower := height_lr_lt nonempty !direction.side
  have space : stack.length + (node sm lr0 lr1 balance).height ≤ height := room nonempty
  by_cases leaf : ((node sm lr0 lr1 balance).lr !direction.side).isNull = true
  · have last := (isNull_iff _).mp leaf
    have rest : visits direction (node sm lr0 lr1 balance) = [sm] := by
      rw [visits, last, walk]
    cases stack with
    | nil =>
      have step : avlIterNext ⟨node sm lr0 lr1 balance, [], direction⟩ = ⟨null, [], direction⟩ := by
        simp [avlIterNext, leaf]
      rw [step, pending, rest]
      exact ⟨⟨fun other => absurd rfl other, trivial, fun _ => rfl⟩, rfl⟩
    | cons top stack =>
      have step : avlIterNext ⟨node sm lr0 lr1 balance, top :: stack, direction⟩ =
          ⟨top, stack, direction⟩ := by
        simp [avlIterNext, leaf]
      obtain ⟨filled, bound, others⟩ := fits
      rw [step, pending, rest]
      exact ⟨⟨fun _ => bound, others, fun empty => absurd empty filled⟩, rfl⟩
  · have step : avlIterNext ⟨node sm lr0 lr1 balance, stack, direction⟩ =
        descend direction ((node sm lr0 lr1 balance).lr !direction.side) stack := by
      simp [avlIterNext, leaf]
    have below := @descend_spec _ _ direction stack height _
      (fun empty => leaf ((isNull_iff _).mpr empty)) fits (by omega)
    rw [step]
    refine ⟨below.1, ?_⟩
    rw [below.2.2]
    rfl

theorem avlIterBegin_spec (root : AvlNode numChecks σ) (direction : AvlDirection) :
    Within root.height (avlIterBegin root direction) ∧
      pending (avlIterBegin root direction) = walk direction root := by
  unfold avlIterBegin
  by_cases empty : root.isNull = true
  · rw [if_pos empty, (isNull_iff root).mp empty]
    exact ⟨⟨fun other => absurd rfl other, trivial, fun _ => rfl⟩, rfl⟩
  · have below := @descend_spec _ _ direction [] root.height root
      (fun other => empty ((isNull_iff root).mpr other)) trivial (by simp)
    rw [if_neg empty]
    refine ⟨below.1, ?_⟩
    rw [below.2.2, map_nil, flatten_nil, append_nil]

theorem traverseFrom_spec {iter : AvlIter numChecks σ} (within : Within height iter) {fuel : Nat}
    (enough : (pending iter).length < fuel) : traverseFrom fuel iter = some (pending iter) := by
  induction fuel generalizing iter with
  | zero => exact absurd enough (Nat.not_lt_zero _)
  | succ fuel ih =>
    rw [traverseFrom]
    cases here : iter.node with
    | null =>
      have empty := within.ended here
      rw [pending, here, empty]
      rfl
    | node sm lr0 lr1 balance =>
      obtain ⟨inside, first⟩ := avlIterNext_spec within here
      rw [first] at enough ⊢
      simp only
      rw [ih inside (Nat.lt_of_succ_lt_succ enough)]
      rfl

/-- The traversal ends, and visits the states in the order of the tree. -/
theorem avlTraverse_spec (root : AvlNode numChecks σ) (direction : AvlDirection) :
    avlTraverse root direction = some (walk direction root) := by
  obtain ⟨within, visited⟩ := avlIterBegin_spec root direction
  have length : (walk direction root).length = countNode root := by
    rw [countNode_eq, walk_eq]
    cases direction with
    | forward => rfl
    | backward => exact length_reverse
  unfold avlTraverse
  rw [traverseFrom_spec within (by rw [visited, length]; exact Nat.lt_succ_self _), visited]

end Steps

inductive Iterates (root : AvlNode numChecks σ) (direction : AvlDirection) :
    AvlIter numChecks σ → Prop
  | begin : Iterates root direction (avlIterBegin root direction)
  | next {iter : AvlIter numChecks σ} (earlier : Iterates root direction iter) :
      Iterates root direction (avlIterNext iter)

theorem Iterates.within {root : AvlNode numChecks σ} {direction : AvlDirection}
    {iter : AvlIter numChecks σ} (iterates : Iterates root direction iter) :
    Within root.height iter := by
  induction iterates with
  | begin => exact (avlIterBegin_spec root direction).1
  | @next iter _ ih =>
    cases here : iter.node with
    | null =>
      have stays : avlIterNext iter = iter := by
        simp [avlIterNext, here]
      rw [stays]
      exact ih
    | node sm lr0 lr1 balance => exact (avlIterNext_spec ih here).1

/-- A balanced tree of a height has at least as many nodes as a Fibonacci tree. -/
theorem fib_le_size {p : AvlNode numChecks σ} (balanced : p.Balanced) :
    Nat.fib (p.height + 2) ≤ p.inorder.length + 1 := by
  induction p with
  | null => exact Nat.le_refl _
  | node sm lr0 lr1 balance left right =>
    obtain ⟨difference, low, high, balanced0, balanced1⟩ := balanced
    have first := left balanced0
    have second := right balanced1
    have step : Nat.fib (max lr0.height lr1.height + 1 + 2) =
        Nat.fib (max lr0.height lr1.height + 1) + Nat.fib (max lr0.height lr1.height + 2) :=
      Nat.fib_add_two
    rw [AvlNode.height, step, inorder_node, length_append, length_cons]
    rcases Nat.le_total lr0.height lr1.height with order | order
    · have lower : Nat.fib (max lr0.height lr1.height + 1) ≤ Nat.fib (lr0.height + 2) :=
        Nat.fib_mono (by omega)
      rw [Nat.max_eq_right order] at lower ⊢
      omega
    · have lower : Nat.fib (max lr0.height lr1.height + 1) ≤ Nat.fib (lr1.height + 2) :=
        Nat.fib_mono (by omega)
      rw [Nat.max_eq_left order] at lower ⊢
      omega

/-- The stack of a traversal never fills when the number of nodes is a `size_t`. -/
theorem Iterates.stack_lt {root : AvlNode numChecks σ} {direction : AvlDirection}
    {iter : AvlIter numChecks σ} (iterates : Iterates root direction iter)
    (balanced : root.Balanced) (small : root.inorder.length < 2 ^ 64) :
    iter.stack.length < 100 := by
  have within := iterates.within
  have size := fib_le_size balanced
  have low : root.height < 92 := by
    by_contra tall
    have large : Nat.fib (92 + 2) ≤ Nat.fib (root.height + 2) := Nat.fib_mono (by omega)
    have value : Nat.fib (92 + 2) = 19740274219868223167 := by norm_num
    omega
  cases here : iter.node with
  | null =>
    rw [within.ended here]
    exact Nat.succ_pos 99
  | node sm lr0 lr1 balance =>
    have room := within.room (by rw [here]; exact nofun)
    omega

end SmatchFormal.Stree
