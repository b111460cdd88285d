import SmatchFormal.Lib.SortedMap
import SmatchFormal.Stree.Tracker

/-!
# The AVL tree

`avl.c`: insertion, removal and lookup with the balance of every node kept
incrementally.  The recursive functions say through a boolean whether the height
of their subtree changed, and a caller rebalances from that alone.  Every
operation is described by what it does to the inorder list of the tree.
-/

namespace SmatchFormal.Stree

open SmatchFormal.Lib List

/-- An `AvlNode *`.  The two links are `lr[0]` and `lr[1]`. -/
inductive AvlNode (numChecks : Nat) (σ : Type) where
  | null
  | node (sm : SmState numChecks σ) (lr0 lr1 : AvlNode numChecks σ) (balance : Int)
  deriving DecidableEq

variable {numChecks : Nat} {σ : Type}

namespace AvlNode

/-- `node->lr[side]`; a side is `false` for 0 and `true` for 1. -/
def lr : AvlNode numChecks σ → Bool → AvlNode numChecks σ
  | null, _ => null
  | node _ lr0 lr1 _, side => if side then lr1 else lr0

def setLr : AvlNode numChecks σ → Bool → AvlNode numChecks σ → AvlNode numChecks σ
  | null, _, _ => null
  | node sm lr0 lr1 balance, side, child =>
    if side then node sm lr0 child balance else node sm child lr1 balance

def balance : AvlNode numChecks σ → Int
  | null => 0
  | node _ _ _ balance => balance

def setBalance : AvlNode numChecks σ → Int → AvlNode numChecks σ
  | null, _ => null
  | node sm lr0 lr1 _, balance => node sm lr0 lr1 balance

def isNull : AvlNode numChecks σ → Bool
  | null => true
  | node _ _ _ _ => false

def inorder : AvlNode numChecks σ → List (SmState numChecks σ)
  | null => []
  | node sm lr0 lr1 _ => lr0.inorder ++ sm :: lr1.inorder

def height : AvlNode numChecks σ → Nat
  | null => 0
  | node _ lr0 lr1 _ => max lr0.height lr1.height + 1

/-- Every node stores the difference of the heights of its subtrees, which is at most one. -/
def Balanced : AvlNode numChecks σ → Prop
  | null => True
  | node _ lr0 lr1 balance =>
    balance = (lr1.height : Int) - lr0.height ∧ -1 ≤ balance ∧ balance ≤ 1 ∧
      lr0.Balanced ∧ lr1.Balanced

end AvlNode

def bal (side : Bool) : Int := if side then 1 else -1

def side (bal : Int) : Bool := bal == 1

def mkNode (sm : SmState numChecks σ) : AvlNode numChecks σ := .node sm .null .null 0

def lookup : AvlNode numChecks σ → SmState numChecks σ → Option (SmState numChecks σ)
  | .null, _ => none
  | .node nodeSm lr0 lr1 _, sm =>
    let cmp := cmpTracker (some sm) (some nodeSm)
    if cmp < 0 then lookup lr0 sm
    else if cmp > 0 then lookup lr1 sm
    else some nodeSm

/-- `balance`: the rotations of a node whose balance is -2 or +2. -/
def balance (p : AvlNode numChecks σ) (side : Bool) : AvlNode numChecks σ :=
  let child := p.lr side
  if child.balance ≠ -bal side then
    let node := p.setLr side (child.lr !side)
    let child := child.setBalance (child.balance - bal side)
    child.setLr (!side) (node.setBalance (-child.balance))
  else
    let grandchild := child.lr !side
    let node := (p.setLr side (grandchild.lr !side)).setBalance
      (if grandchild.balance = bal side then -bal side else 0)
    let child := (child.setLr (!side) (grandchild.lr side)).setBalance
      (if grandchild.balance = bal side then 0
        else if grandchild.balance = -bal side then bal side else 0)
    ((grandchild.setLr side child).setLr (!side) node).setBalance 0

/-- `sway`; the value it returns is the balance of the node it leaves. -/
def sway (p : AvlNode numChecks σ) (sway : Int) : AvlNode numChecks σ :=
  if p.balance ≠ sway then p.setBalance (p.balance + sway) else balance p (side sway)

/-- `insert_sm`: the count, the subtree and whether it grew. -/
def insertSm (count : Nat) (sm : SmState numChecks σ) :
    AvlNode numChecks σ → Nat × AvlNode numChecks σ × Bool
  | .null => (count + 1, mkNode sm, true)
  | .node nodeSm lr0 lr1 balance =>
    let cmp := cmpTracker (some sm) (some nodeSm)
    if cmp = 0 then (count, .node sm lr0 lr1 balance, false)
    else
      let (count, child, grew) :=
        if side cmp then insertSm count sm lr1 else insertSm count sm lr0
      let p := (AvlNode.node nodeSm lr0 lr1 balance).setLr (side cmp) child
      if !grew then (count, p, false)
      else
        let p := sway p cmp
        (count, p, p.balance != 0)

/-- `removeExtremum`: the subtree, the state of the removed node and whether the
subtree shrank.  The subtree must not be empty. -/
def removeExtremum (side : Bool) :
    AvlNode numChecks σ → AvlNode numChecks σ × Option (SmState numChecks σ) × Bool
  | .null => (.null, none, false)
  | .node nodeSm lr0 lr1 balance =>
    let p := AvlNode.node nodeSm lr0 lr1 balance
    if (p.lr side).isNull then (p.lr !side, some nodeSm, true)
    else
      let (child, ret, shrank) :=
        if side then removeExtremum side lr1 else removeExtremum side lr0
      let p := p.setLr side child
      if !shrank then (p, ret, false)
      else
        let p := sway p (-bal side)
        (p, ret, p.balance == 0)

/-- `remove_sm`: the count, the subtree, the removed state and whether the subtree shrank. -/
def removeSm (count : Nat) (sm : SmState numChecks σ) :
    AvlNode numChecks σ → Nat × AvlNode numChecks σ × Option (SmState numChecks σ) × Bool
  | .null => (count, .null, none, false)
  | .node nodeSm lr0 lr1 balance =>
    let p := AvlNode.node nodeSm lr0 lr1 balance
    let cmp := cmpTracker (some sm) (some nodeSm)
    if cmp = 0 then
      if !lr0.isNull && !lr1.isNull then
        -- The replacement comes from the subtree that keeps the node balanced.
        let side := !decide (balance ≤ 0)
        match removeExtremum (!side) (p.lr side) with
        | (child, some replacement, shrunk) =>
          let p := (AvlNode.node replacement lr0 lr1 balance).setLr side child
          if !shrunk then (count - 1, p, some nodeSm, false)
          else
            let p := p.setBalance (p.balance - bal side)
            (count - 1, p, some nodeSm, p.balance == 0)
        | (child, none, shrunk) => (count - 1, p.setLr side child, some nodeSm, shrunk)
      else (count - 1, if !lr0.isNull then lr0 else lr1, some nodeSm, true)
    else
      let (count, child, ret, shrank) :=
        if side cmp then removeSm count sm lr1 else removeSm count sm lr0
      let p := p.setLr (side cmp) child
      if !shrank then (count, p, ret, false)
      else
        let p := sway p (-cmp)
        (count, p, ret, p.balance == 0)

/-- `checkBalances`: whether the balances are right, and the height. -/
def checkBalances : AvlNode numChecks σ → Option Nat
  | .null => some 0
  | .node _ lr0 lr1 balance =>
    match checkBalances lr0, checkBalances lr1 with
    | some h0, some h1 =>
      if balance ≠ h1 - h0 ∨ balance < -1 ∨ balance > 1 then none
      else some ((if h0 > h1 then h0 else h1) + 1)
    | _, _ => none

def countNode : AvlNode numChecks σ → Nat
  | .null => 0
  | .node _ lr0 lr1 _ => 1 + countNode lr0 + countNode lr1

namespace AvlNode

@[simp] theorem isNull_null : (null : AvlNode numChecks σ).isNull = true := rfl

@[simp] theorem isNull_node (sm : SmState numChecks σ) (lr0 lr1 : AvlNode numChecks σ)
    (balance : Int) : (node sm lr0 lr1 balance).isNull = false := rfl

@[simp] theorem inorder_null : (null : AvlNode numChecks σ).inorder = [] := rfl

@[simp] theorem inorder_node (sm : SmState numChecks σ) (lr0 lr1 : AvlNode numChecks σ)
    (balance : Int) : (node sm lr0 lr1 balance).inorder = lr0.inorder ++ sm :: lr1.inorder := rfl

end AvlNode

open AvlNode

/-- What a rebalanced node is, from the subtrees it had: the one on the side that
became too high, and the other one. -/
structure Swayed (tall short : AvlNode numChecks σ) (p : AvlNode numChecks σ) : Prop where
  balanced : p.Balanced
  even : p.balance = 0 → p.height = max short.height (tall.height - 1) + 1
  odd : p.balance ≠ 0 → p.height = tall.height + 1 ∧ short.height < tall.height

section Rotations

variable {sm childSm grandSm : SmState numChecks σ} {a b c d : AvlNode numChecks σ}
variable {old childBal grandBal : Int}

theorem balance_left_single (single : childBal ≠ 1) :
    balance (node sm (node childSm a b childBal) c old) false =
      node childSm a (node sm b c (-(childBal + 1))) (childBal + 1) := by
  simp [balance, AvlNode.lr, setLr, setBalance, AvlNode.balance, bal, single]

theorem balance_left_double :
    balance (node sm (node childSm a (node grandSm b c grandBal) 1) d old) false =
      node grandSm
        (node childSm a b (if grandBal = -1 then 0 else if grandBal = 1 then -1 else 0))
        (node sm c d (if grandBal = -1 then 1 else 0)) 0 := by
  simp [balance, AvlNode.lr, setLr, setBalance, AvlNode.balance, bal]

theorem balance_right_single (single : childBal ≠ -1) :
    balance (node sm a (node childSm b c childBal) old) true =
      node childSm (node sm a b (-(childBal - 1))) c (childBal - 1) := by
  simp [balance, AvlNode.lr, setLr, setBalance, AvlNode.balance, bal, single]

theorem balance_right_double :
    balance (node sm a (node childSm (node grandSm b c grandBal) d (-1)) old) true =
      node grandSm (node sm a b (if grandBal = 1 then -1 else 0))
        (node childSm c d (if grandBal = 1 then 0 else if grandBal = -1 then 1 else 0)) 0 := by
  simp [balance, AvlNode.lr, setLr, setBalance, AvlNode.balance, bal]

end Rotations

theorem balance_left {sm : SmState numChecks σ} {lr0 lr1 : AvlNode numChecks σ} {old : Int}
    (left : lr0.Balanced) (right : lr1.Balanced) (heights : lr0.height = lr1.height + 2) :
    Swayed lr0 lr1 (balance (node sm lr0 lr1 old) false) ∧
      (balance (node sm lr0 lr1 old) false).inorder = lr0.inorder ++ sm :: lr1.inorder := by
  cases lr0 with
  | null => simp [AvlNode.height] at heights
  | node childSm outer inner childBal =>
    obtain ⟨difference, low, high, first, second⟩ := left
    simp only [AvlNode.height] at heights
    by_cases double : childBal = 1
    · cases inner with
      | null => simp only [AvlNode.height] at difference; omega
      | node grandSm b c grandBal =>
        obtain ⟨grand, grandLow, grandHigh, third, fourth⟩ := second
        simp only [AvlNode.height] at heights difference
        subst double
        rw [balance_left_double]
        refine ⟨⟨?_, ?_, fun odd => absurd rfl odd⟩, by simp⟩
        · simp only [AvlNode.Balanced, AvlNode.height, first, third, fourth, right, and_true]
          split_ifs <;> omega
        · simp only [AvlNode.height]
          omega
    · rw [balance_left_single double]
      refine ⟨⟨?_, ?_, ?_⟩, by simp⟩
      · simp only [AvlNode.Balanced, AvlNode.height, first, second, right, true_and, and_true]
        omega
      · simp only [AvlNode.height, AvlNode.balance]
        omega
      · simp only [AvlNode.height, AvlNode.balance]
        omega

theorem balance_right {sm : SmState numChecks σ} {lr0 lr1 : AvlNode numChecks σ} {old : Int}
    (left : lr0.Balanced) (right : lr1.Balanced) (heights : lr1.height = lr0.height + 2) :
    Swayed lr1 lr0 (balance (node sm lr0 lr1 old) true) ∧
      (balance (node sm lr0 lr1 old) true).inorder = lr0.inorder ++ sm :: lr1.inorder := by
  cases lr1 with
  | null => simp [AvlNode.height] at heights
  | node childSm inner outer childBal =>
    obtain ⟨difference, low, high, first, second⟩ := right
    simp only [AvlNode.height] at heights
    by_cases double : childBal = -1
    · cases inner with
      | null => simp only [AvlNode.height] at difference; omega
      | node grandSm b c grandBal =>
        obtain ⟨grand, grandLow, grandHigh, third, fourth⟩ := first
        simp only [AvlNode.height] at heights difference
        subst double
        rw [balance_right_double]
        refine ⟨⟨?_, ?_, fun odd => absurd rfl odd⟩, by simp⟩
        · simp only [AvlNode.Balanced, AvlNode.height, second, third, fourth, left, and_true]
          split_ifs <;> omega
        · simp only [AvlNode.height]
          omega
    · rw [balance_right_single double]
      refine ⟨⟨?_, ?_, ?_⟩, by simp⟩
      · simp only [AvlNode.Balanced, AvlNode.height, first, second, left, and_true]
        omega
      · simp only [AvlNode.height, AvlNode.balance]
        omega
      · simp only [AvlNode.height, AvlNode.balance]
        omega

section Sway

variable {sm : SmState numChecks σ} {lr0 lr1 : AvlNode numChecks σ} {old : Int}

/-- A balance that moves by one within its bounds is stored. -/
theorem swayed_straight (left : lr0.Balanced) (right : lr1.Balanced) {new : Int} (low : -1 ≤ new)
    (high : new ≤ 1) (heights : new = (lr1.height : Int) - lr0.height) (upper : Bool)
    (taller : ((node sm lr0 lr1 old).lr !upper).height ≤ ((node sm lr0 lr1 old).lr upper).height) :
    Swayed ((node sm lr0 lr1 old).lr upper) ((node sm lr0 lr1 old).lr !upper)
      (node sm lr0 lr1 new) := by
  cases upper with
  | false =>
    change lr1.height ≤ lr0.height at taller
    refine ⟨⟨heights, low, high, left, right⟩, ?_, ?_⟩
    · intro even
      change new = 0 at even
      change max lr0.height lr1.height + 1 = max lr1.height (lr0.height - 1) + 1
      omega
    · intro odd
      change new ≠ 0 at odd
      change max lr0.height lr1.height + 1 = lr0.height + 1 ∧ lr1.height < lr0.height
      omega
  | true =>
    change lr0.height ≤ lr1.height at taller
    refine ⟨⟨heights, low, high, left, right⟩, ?_, ?_⟩
    · intro even
      change new = 0 at even
      change max lr0.height lr1.height + 1 = max lr0.height (lr1.height - 1) + 1
      omega
    · intro odd
      change new ≠ 0 at odd
      change max lr0.height lr1.height + 1 = lr1.height + 1 ∧ lr0.height < lr1.height
      omega

/-- `sway` repairs a node when one of its subtrees became higher, or the other one
lower, by one. -/
theorem sway_spec {p : AvlNode numChecks σ} (upper : Bool) (left : (p.lr false).Balanced)
    (right : (p.lr true).Balanced) (low : -1 ≤ p.balance) (high : p.balance ≤ 1)
    (heights : ((p.lr true).height : Int) - (p.lr false).height = p.balance + bal upper) :
    Swayed (p.lr upper) (p.lr !upper) (sway p (bal upper)) ∧
      (sway p (bal upper)).inorder = p.inorder := by
  cases p with
  | null =>
    change (0 : Int) - 0 = 0 + bal upper at heights
    cases upper <;> exact absurd heights (by decide)
  | node sm lr0 lr1 old =>
    unfold sway
    cases upper with
    | false =>
      change (lr1.height : Int) - lr0.height = old + -1 at heights
      change -1 ≤ old at low
      change old ≤ 1 at high
      split_ifs with straight
      · change old ≠ -1 at straight
        refine ⟨swayed_straight left right ?_ ?_ heights.symm false ?_, rfl⟩
        · omega
        · omega
        · change lr1.height ≤ lr0.height
          omega
      · have same : old = -1 := not_not.mp straight
        have two : lr0.height = lr1.height + 2 := by omega
        exact balance_left left right two
    | true =>
      change (lr1.height : Int) - lr0.height = old + 1 at heights
      change -1 ≤ old at low
      change old ≤ 1 at high
      split_ifs with straight
      · change old ≠ 1 at straight
        refine ⟨swayed_straight left right ?_ ?_ heights.symm true ?_, rfl⟩
        · omega
        · omega
        · change lr0.height ≤ lr1.height
          omega
      · have same : old = 1 := not_not.mp straight
        have two : lr1.height = lr0.height + 2 := by omega
        exact balance_right left right two

end Sway

section SetLr

variable {child : AvlNode numChecks σ} {sm : SmState numChecks σ}
variable {lr0 lr1 : AvlNode numChecks σ} {old : Int}

theorem height_node (side : Bool) :
    (node sm lr0 lr1 old).height =
      max ((node sm lr0 lr1 old).lr side).height ((node sm lr0 lr1 old).lr !side).height + 1 := by
  cases side with
  | false => rfl
  | true =>
    change max lr0.height lr1.height + 1 = max lr1.height lr0.height + 1
    rw [Nat.max_comm]

/-- `sway` after the child on a side was replaced. -/
theorem sway_setLr (balanced : (node sm lr0 lr1 old).Balanced) (new : child.Balanced)
    (side upper : Bool)
    (heights : (child.height : Int) - ((node sm lr0 lr1 old).lr side).height =
      bal side * bal upper) :
    let p := (node sm lr0 lr1 old).setLr side child
    Swayed (p.lr upper) (p.lr !upper) (sway p (bal upper)) ∧
      (sway p (bal upper)).inorder = p.inorder := by
  obtain ⟨difference, low, high, left, right⟩ := balanced
  intro p
  cases side with
  | false =>
    change (child.height : Int) - lr0.height = -1 * bal upper at heights
    refine sway_spec upper new right low high ?_
    change (lr1.height : Int) - child.height = old + bal upper
    omega
  | true =>
    change (child.height : Int) - lr1.height = 1 * bal upper at heights
    refine sway_spec upper left new low high ?_
    change (child.height : Int) - lr0.height = old + bal upper
    omega

theorem lr_setLr (side : Bool) : ((node sm lr0 lr1 old).setLr side child).lr side = child := by
  cases side <;> rfl

theorem lr_setLr_not (side : Bool) :
    ((node sm lr0 lr1 old).setLr side child).lr (!side) = (node sm lr0 lr1 old).lr !side := by
  cases side <;> rfl

section

variable (balanced : (node sm lr0 lr1 old).Balanced) (new : child.Balanced) (side : Bool)
include balanced new side

theorem setLr_kept (kept : child.height = ((node sm lr0 lr1 old).lr side).height) :
    ((node sm lr0 lr1 old).setLr side child).Balanced ∧
      ((node sm lr0 lr1 old).setLr side child).height = (node sm lr0 lr1 old).height := by
  obtain ⟨difference, low, high, left, right⟩ := balanced
  cases side with
  | false =>
    change child.height = lr0.height at kept
    refine ⟨⟨by rw [kept]; exact difference, low, high, new, right⟩, ?_⟩
    change max child.height lr1.height + 1 = max lr0.height lr1.height + 1
    rw [kept]
  | true =>
    change child.height = lr1.height at kept
    refine ⟨⟨by rw [kept]; exact difference, low, high, left, new⟩, ?_⟩
    change max lr0.height child.height + 1 = max lr0.height lr1.height + 1
    rw [kept]

/-- The child grew: the tree grew unless its balance is zero now. -/
theorem setLr_grown (grown : child.height = ((node sm lr0 lr1 old).lr side).height + 1) :
    let p := sway ((node sm lr0 lr1 old).setLr side child) (bal side)
    p.Balanced ∧ p.height = (node sm lr0 lr1 old).height + (p.balance != 0).toNat ∧
      p.inorder = ((node sm lr0 lr1 old).setLr side child).inorder := by
  have square : bal side * bal side = 1 := by cases side <;> rfl
  obtain ⟨⟨result, even, odd⟩, order⟩ := sway_setLr balanced new side side (by rw [square]; omega)
  intro p
  refine ⟨result, ?_, order⟩
  rw [lr_setLr, lr_setLr_not] at even odd
  rw [height_node side]
  by_cases zero : p.balance = 0
  · have height := even zero
    have flag : (p.balance != 0).toNat = 0 := by rw [zero]; rfl
    change p.height = _ at height
    omega
  · obtain ⟨height, order⟩ := odd zero
    have flag : (p.balance != 0).toNat = 1 := by rw [bne_iff_ne.mpr zero]; rfl
    change p.height = _ at height
    omega

/-- The child shrank: the tree shrank if its balance is zero now. -/
theorem setLr_shrunk (shrunk : child.height + 1 = ((node sm lr0 lr1 old).lr side).height) :
    let p := sway ((node sm lr0 lr1 old).setLr side child) (-bal side)
    p.Balanced ∧ p.height + (p.balance == 0).toNat = (node sm lr0 lr1 old).height ∧
      p.inorder = ((node sm lr0 lr1 old).setLr side child).inorder := by
  have opposite : -bal side = bal !side := by cases side <;> rfl
  have square : bal side * bal (!side) = -1 := by cases side <;> rfl
  obtain ⟨⟨result, even, odd⟩, order⟩ :=
    sway_setLr balanced new side (!side) (by rw [square]; omega)
  rw [opposite]
  intro p
  refine ⟨result, ?_, order⟩
  rw [Bool.not_not, lr_setLr, lr_setLr_not] at even odd
  rw [height_node side]
  by_cases zero : p.balance = 0
  · have height := even zero
    have flag : (p.balance == 0).toNat = 1 := by rw [zero]; rfl
    change p.height = _ at height
    omega
  · obtain ⟨height, order⟩ := odd zero
    have flag : (p.balance == 0).toNat = 0 := by rw [beq_eq_false_iff_ne.mpr zero]; rfl
    change p.height = _ at height
    omega

end

theorem length_setLr (side : Bool) :
    ((node sm lr0 lr1 old).setLr side child).inorder.length +
        ((node sm lr0 lr1 old).lr side).inorder.length =
      (node sm lr0 lr1 old).inorder.length + child.inorder.length := by
  cases side with
  | false =>
    change (child.inorder ++ sm :: lr1.inorder).length + lr0.inorder.length =
      (lr0.inorder ++ sm :: lr1.inorder).length + child.inorder.length
    simp only [length_append, length_cons]
    omega
  | true =>
    change (lr0.inorder ++ sm :: child.inorder).length + lr1.inorder.length =
      (lr0.inorder ++ sm :: lr1.inorder).length + child.inorder.length
    simp only [length_append, length_cons]
    omega

end SetLr

structure Inserted (sm : SmState numChecks σ) (count : Nat) (p : AvlNode numChecks σ)
    (result : Nat × AvlNode numChecks σ × Bool) : Prop where
  balanced : result.2.1.Balanced
  inorder : result.2.1.inorder = SortedMap.insert key sm p.inorder
  count : result.1 + p.inorder.length = count + result.2.1.inorder.length
  height : result.2.1.height = p.height + result.2.2.toNat

/-- The end of `insert_sm`, after the recursive call on a side. -/
theorem Inserted.ofChild {sm nodeSm : SmState numChecks σ} {lr0 lr1 child : AvlNode numChecks σ}
    {old : Int} {count count' : Nat} {grew : Bool} (side : Bool)
    (balanced : (node nodeSm lr0 lr1 old).Balanced)
    (inner : Inserted sm count ((node nodeSm lr0 lr1 old).lr side) (count', child, grew))
    (order : ((node nodeSm lr0 lr1 old).setLr side child).inorder =
      SortedMap.insert key sm (node nodeSm lr0 lr1 old).inorder) :
    Inserted sm count (node nodeSm lr0 lr1 old)
      (if !grew then (count', (node nodeSm lr0 lr1 old).setLr side child, false)
        else
          (count', sway ((node nodeSm lr0 lr1 old).setLr side child) (bal side),
            (sway ((node nodeSm lr0 lr1 old).setLr side child) (bal side)).balance != 0)) := by
  obtain ⟨new, -, total, height⟩ := inner
  have lengths := @length_setLr _ _ child nodeSm lr0 lr1 old side
  change count' + _ = count + child.inorder.length at total
  cases grew with
  | false =>
    obtain ⟨result, kept⟩ := setLr_kept balanced new side height
    refine ⟨result, order, ?_, kept⟩
    change count' + _ = count + ((node nodeSm lr0 lr1 old).setLr side child).inorder.length
    omega
  | true =>
    obtain ⟨result, grown, same⟩ := setLr_grown balanced new side height
    set p := sway ((node nodeSm lr0 lr1 old).setLr side child) (bal side)
    refine ⟨result, same.trans order, ?_, grown⟩
    change p.inorder = ((node nodeSm lr0 lr1 old).setLr side child).inorder at same
    change count' + _ = count + p.inorder.length
    rw [same]
    omega

theorem insertSm_spec (sm : SmState numChecks σ) (count : Nat) {p : AvlNode numChecks σ}
    (balanced : p.Balanced) (sorted : SortedMap.Sorted key p.inorder) :
    Inserted sm count p (insertSm count sm p) := by
  induction p with
  | null => exact ⟨⟨rfl, by decide, by decide, trivial, trivial⟩, rfl, rfl, rfl⟩
  | node nodeSm lr0 lr1 old left right =>
    have whole := balanced
    obtain ⟨-, -, -, balanced0, balanced1⟩ := balanced
    obtain ⟨sorted0, sorted1, below, above⟩ := SortedMap.Sorted.split sorted
    rw [insertSm]
    rcases cmpTracker_cases sm nodeSm with ⟨cmp, less⟩ | ⟨cmp, same⟩ | ⟨cmp, greater⟩
    · have inner := left balanced0 sorted0
      simp only [cmp]
      refine Inserted.ofChild false whole inner ?_
      change (insertSm count sm lr0).2.1.inorder ++ nodeSm :: lr1.inorder = _
      rw [inner.inorder]
      exact (SortedMap.insert_left less).symm
    · simp only [cmp, if_true]
      refine ⟨whole, ?_, ?_, rfl⟩
      · exact (SortedMap.insert_here below same).symm
      · simp
    · have inner := right balanced1 sorted1
      simp only [cmp]
      refine Inserted.ofChild true whole inner ?_
      change lr0.inorder ++ nodeSm :: (insertSm count sm lr1).2.1.inorder = _
      rw [inner.inorder]
      exact (SortedMap.insert_right below greater).symm

/-- A list with a state put back at the end that a side stands for. -/
def atEnd (side : Bool) (sm : SmState numChecks σ) (list : List (SmState numChecks σ)) :
    List (SmState numChecks σ) :=
  if side then list ++ [sm] else sm :: list

theorem isNull_iff (p : AvlNode numChecks σ) : p.isNull = true ↔ p = null := by
  cases p <;> simp [isNull]

structure RemovedExtremum (side : Bool) (p q : AvlNode numChecks σ) (sm : SmState numChecks σ)
    (shrank : Bool) : Prop where
  balanced : q.Balanced
  inorder : p.inorder = atEnd side sm q.inorder
  height : q.height + shrank.toNat = p.height

theorem RemovedExtremum.ofChild {sm nodeSm : SmState numChecks σ}
    {lr0 lr1 child : AvlNode numChecks σ} {old : Int} {shrank : Bool} (side : Bool)
    (balanced : (node nodeSm lr0 lr1 old).Balanced)
    (inner : RemovedExtremum side ((node nodeSm lr0 lr1 old).lr side) child sm shrank) :
    ∃ q flag,
      (if !shrank then ((node nodeSm lr0 lr1 old).setLr side child, some sm, false)
        else
          (sway ((node nodeSm lr0 lr1 old).setLr side child) (-bal side), some sm,
            (sway ((node nodeSm lr0 lr1 old).setLr side child) (-bal side)).balance == 0)) =
        (q, some sm, flag) ∧ RemovedExtremum side (node nodeSm lr0 lr1 old) q sm flag := by
  obtain ⟨new, order, height⟩ := inner
  have outer : (node nodeSm lr0 lr1 old).inorder =
      atEnd side sm ((node nodeSm lr0 lr1 old).setLr side child).inorder := by
    cases side with
    | false =>
      change lr0.inorder = sm :: child.inorder at order
      change lr0.inorder ++ nodeSm :: lr1.inorder = sm :: (child.inorder ++ nodeSm :: lr1.inorder)
      rw [order, cons_append]
    | true =>
      change lr1.inorder = child.inorder ++ [sm] at order
      change lr0.inorder ++ nodeSm :: lr1.inorder = (lr0.inorder ++ nodeSm :: child.inorder) ++ [sm]
      rw [order, append_assoc, cons_append]
  cases shrank with
  | false =>
    obtain ⟨result, kept⟩ := setLr_kept balanced new side height
    exact ⟨_, _, rfl, result, outer, kept⟩
  | true =>
    obtain ⟨result, shrunk, same⟩ := setLr_shrunk balanced new side height
    refine ⟨_, _, rfl, result, ?_, shrunk⟩
    rw [same]
    exact outer

theorem removeExtremum_spec (side : Bool) {p : AvlNode numChecks σ} (balanced : p.Balanced)
    (nonempty : p ≠ null) :
    ∃ q sm shrank, removeExtremum side p = (q, some sm, shrank) ∧
      RemovedExtremum side p q sm shrank := by
  induction p with
  | null => exact absurd rfl nonempty
  | node nodeSm lr0 lr1 old left right =>
    have whole := balanced
    obtain ⟨difference, low, high, balanced0, balanced1⟩ := balanced
    rw [removeExtremum]
    by_cases last : ((node nodeSm lr0 lr1 old).lr side).isNull = true
    · -- The extremum is this node, and its other child takes its place.
      refine ⟨_, _, _, if_pos last, ?_⟩
      cases side with
      | false =>
        have empty : lr0 = null := (isNull_iff lr0).mp last
        subst empty
        exact ⟨balanced1, rfl, by simp [AvlNode.height, AvlNode.lr]⟩
      | true =>
        have empty : lr1 = null := (isNull_iff lr1).mp last
        subst empty
        exact ⟨balanced0, by simp [AvlNode.lr, atEnd], by simp [AvlNode.height, AvlNode.lr]⟩
    · simp only [last]
      cases side with
      | false =>
        obtain ⟨child, sm, shrank, found, inner⟩ :=
          left balanced0 (fun empty => last ((isNull_iff lr0).mpr empty))
        simp only [found]
        exact (RemovedExtremum.ofChild false whole inner).imp fun _ => fun ⟨flag, both⟩ =>
          ⟨sm, flag, both⟩
      | true =>
        obtain ⟨child, sm, shrank, found, inner⟩ :=
          right balanced1 (fun empty => last ((isNull_iff lr1).mpr empty))
        simp only [found]
        exact (RemovedExtremum.ofChild true whole inner).imp fun _ => fun ⟨flag, both⟩ =>
          ⟨sm, flag, both⟩

structure Removed (sm : SmState numChecks σ) (count : Nat) (p : AvlNode numChecks σ)
    (result : Nat × AvlNode numChecks σ × Option (SmState numChecks σ) × Bool) : Prop where
  balanced : result.2.1.Balanced
  inorder : result.2.1.inorder = SortedMap.erase key (key sm) p.inorder
  ret : result.2.2.1 = SortedMap.find key p.inorder (key sm)
  count : result.1 + p.inorder.length = count + result.2.1.inorder.length
  height : result.2.1.height + result.2.2.2.toNat = p.height

structure Joined (lr0 lr1 : AvlNode numChecks σ) (height : Nat) (q : AvlNode numChecks σ)
    (shrank : Bool) : Prop where
  balanced : q.Balanced
  inorder : q.inorder = lr0.inorder ++ lr1.inorder
  height : q.height + shrank.toNat = height

section Join

variable {nodeSm replacement : SmState numChecks σ} {lr0 lr1 child : AvlNode numChecks σ}
variable {old : Int} {shrunk : Bool}

/-- The replacement is the last state of the left side. -/
theorem joined_left (balanced : (node nodeSm lr0 lr1 old).Balanced) (heavy : old ≤ 0)
    (inner : RemovedExtremum true lr0 child replacement shrunk) :
    Joined lr0 lr1 (node nodeSm lr0 lr1 old).height
      (node replacement child lr1 (if shrunk then old - -1 else old))
      (shrunk && (if shrunk then old - -1 else old) == 0) := by
  obtain ⟨difference, low, high, left, right⟩ := balanced
  obtain ⟨new, order, height⟩ := inner
  change lr0.inorder = child.inorder ++ [replacement] at order
  have joined : child.inorder ++ replacement :: lr1.inorder = lr0.inorder ++ lr1.inorder := by
    rw [order, append_assoc, singleton_append]
  cases shrunk with
  | false =>
    change child.height = lr0.height at height
    refine ⟨⟨by rw [height]; exact difference, low, high, new, right⟩, joined, ?_⟩
    change max child.height lr1.height + 1 = max lr0.height lr1.height + 1
    rw [height]
  | true =>
    change child.height + 1 = lr0.height at height
    refine ⟨⟨?_, ?_, ?_, new, right⟩, joined, ?_⟩
    · change old - -1 = (lr1.height : Int) - child.height
      omega
    · change -1 ≤ old - -1
      omega
    · change old - -1 ≤ 1
      omega
    · change max child.height lr1.height + 1 + (old - -1 == 0).toNat =
        max lr0.height lr1.height + 1
      rcases (by omega : old = 0 ∨ old = -1) with rfl | rfl
      · change _ + 0 = _
        omega
      · change _ + 1 = _
        omega

/-- The replacement is the first state of the right side. -/
theorem joined_right (balanced : (node nodeSm lr0 lr1 old).Balanced) (heavy : ¬ old ≤ 0)
    (inner : RemovedExtremum false lr1 child replacement shrunk) :
    Joined lr0 lr1 (node nodeSm lr0 lr1 old).height
      (node replacement lr0 child (if shrunk then old - 1 else old))
      (shrunk && (if shrunk then old - 1 else old) == 0) := by
  obtain ⟨difference, low, high, left, right⟩ := balanced
  obtain ⟨new, order, height⟩ := inner
  change lr1.inorder = replacement :: child.inorder at order
  have joined : lr0.inorder ++ replacement :: child.inorder = lr0.inorder ++ lr1.inorder := by
    rw [order]
  cases shrunk with
  | false =>
    change child.height = lr1.height at height
    refine ⟨⟨by rw [height]; exact difference, low, high, left, new⟩, joined, ?_⟩
    change max lr0.height child.height + 1 = max lr0.height lr1.height + 1
    rw [height]
  | true =>
    change child.height + 1 = lr1.height at height
    obtain rfl : old = 1 := by omega
    refine ⟨⟨?_, by decide, by decide, left, new⟩, joined, ?_⟩
    · change (1 : Int) - 1 = (child.height : Int) - lr0.height
      omega
    · change max lr0.height child.height + 1 + 1 = max lr0.height lr1.height + 1
      omega

theorem joined_single (balanced : (node nodeSm lr0 lr1 old).Balanced)
    (single : (!lr0.isNull && !lr1.isNull) = false) :
    Joined lr0 lr1 (node nodeSm lr0 lr1 old).height (if !lr0.isNull then lr0 else lr1) true := by
  obtain ⟨-, -, -, left, right⟩ := balanced
  cases lr0 with
  | null =>
    refine ⟨right, rfl, ?_⟩
    change lr1.height + 1 = max 0 lr1.height + 1
    omega
  | node sm lr00 lr01 inner =>
    have empty : lr1 = null := by
      cases lr1 with
      | null => rfl
      | node _ _ _ _ => cases single
    subst empty
    exact ⟨left, by simp [isNull], by simp [isNull, AvlNode.height]⟩

theorem removeSm_here (count : Nat) {sm : SmState numChecks σ}
    (balanced : (node nodeSm lr0 lr1 old).Balanced)
    (found : cmpTracker (some sm) (some nodeSm) = 0) :
    ∃ q shrank, removeSm count sm (node nodeSm lr0 lr1 old) = (count - 1, q, some nodeSm, shrank) ∧
      Joined lr0 lr1 (node nodeSm lr0 lr1 old).height q shrank := by
  have whole := balanced
  obtain ⟨-, -, -, left, right⟩ := balanced
  rw [removeSm]
  simp only [found, if_true]
  cases both : (!lr0.isNull && !lr1.isNull) with
  | false => exact ⟨_, _, rfl, joined_single whole both⟩
  | true =>
    obtain ⟨first, second⟩ := Bool.and_eq_true_iff.mp both
    by_cases heavy : old ≤ 0
    · have nonempty : lr0 ≠ null := by
        rintro rfl
        cases first
      obtain ⟨child, replacement, shrunk, result, inner⟩ := removeExtremum_spec true left nonempty
      have joined := joined_left whole heavy inner
      simp only [decide_eq_true heavy, Bool.not_true, Bool.not_false, AvlNode.lr,
        Bool.false_eq_true, if_false, if_true, result]
      cases shrunk with
      | false => exact ⟨_, _, rfl, joined⟩
      | true => exact ⟨_, _, rfl, joined⟩
    · have nonempty : lr1 ≠ null := by
        rintro rfl
        cases second
      obtain ⟨child, replacement, shrunk, result, inner⟩ :=
        removeExtremum_spec false right nonempty
      have joined := joined_right whole heavy inner
      simp only [decide_eq_false heavy, Bool.not_true, Bool.not_false, AvlNode.lr,
        if_true, result]
      cases shrunk with
      | false => exact ⟨_, _, rfl, joined⟩
      | true => exact ⟨_, _, rfl, joined⟩

end Join

/-- The end of `remove_sm`, after the recursive call on a side. -/
theorem Removed.ofChild {sm nodeSm : SmState numChecks σ} {lr0 lr1 child : AvlNode numChecks σ}
    {old : Int} {count count' : Nat} {ret : Option (SmState numChecks σ)} {shrank : Bool}
    (side : Bool) (balanced : (node nodeSm lr0 lr1 old).Balanced)
    (inner : Removed sm count ((node nodeSm lr0 lr1 old).lr side) (count', child, ret, shrank))
    (order : ((node nodeSm lr0 lr1 old).setLr side child).inorder =
      SortedMap.erase key (key sm) (node nodeSm lr0 lr1 old).inorder)
    (found : ret = SortedMap.find key (node nodeSm lr0 lr1 old).inorder (key sm)) :
    Removed sm count (node nodeSm lr0 lr1 old)
      (if !shrank then (count', (node nodeSm lr0 lr1 old).setLr side child, ret, false)
        else
          (count', sway ((node nodeSm lr0 lr1 old).setLr side child) (-bal side), ret,
            (sway ((node nodeSm lr0 lr1 old).setLr side child) (-bal side)).balance == 0)) := by
  obtain ⟨new, -, -, total, height⟩ := inner
  have lengths := @length_setLr _ _ child nodeSm lr0 lr1 old side
  change count' + _ = count + child.inorder.length at total
  cases shrank with
  | false =>
    obtain ⟨result, kept⟩ := setLr_kept balanced new side height
    refine ⟨result, order, found, ?_, kept⟩
    change count' + _ = count + ((node nodeSm lr0 lr1 old).setLr side child).inorder.length
    omega
  | true =>
    obtain ⟨result, shrunk, same⟩ := setLr_shrunk balanced new side height
    set p := sway ((node nodeSm lr0 lr1 old).setLr side child) (-bal side)
    refine ⟨result, same.trans order, found, ?_, shrunk⟩
    change p.inorder = ((node nodeSm lr0 lr1 old).setLr side child).inorder at same
    change count' + _ = count + p.inorder.length
    rw [same]
    omega

theorem removeSm_spec (sm : SmState numChecks σ) {count : Nat} {p : AvlNode numChecks σ}
    (balanced : p.Balanced) (sorted : SortedMap.Sorted key p.inorder)
    (counted : p.inorder.length ≤ count) : Removed sm count p (removeSm count sm p) := by
  induction p with
  | null => exact ⟨trivial, rfl, rfl, rfl, rfl⟩
  | node nodeSm lr0 lr1 old left right =>
    have whole := balanced
    obtain ⟨-, -, -, balanced0, balanced1⟩ := balanced
    obtain ⟨sorted0, sorted1, below, above⟩ := SortedMap.Sorted.split sorted
    rw [inorder_node, length_append, length_cons] at counted
    rcases cmpTracker_cases sm nodeSm with ⟨cmp, less⟩ | ⟨cmp, same⟩ | ⟨cmp, greater⟩
    · have inner := left balanced0 sorted0 (by omega)
      rw [removeSm]
      simp only [cmp]
      refine Removed.ofChild false whole inner ?_ ?_
      · change (removeSm count sm lr0).2.1.inorder ++ nodeSm :: lr1.inorder = _
        rw [inner.inorder]
        exact (SortedMap.erase_left less above).symm
      · change (removeSm count sm lr0).2.2.1 = _
        rw [inner.ret]
        exact (SortedMap.find_left less above).symm
    · obtain ⟨q, shrank, result, joined⟩ := removeSm_here count whole cmp
      rw [result]
      refine ⟨joined.balanced, ?_, ?_, ?_, joined.height⟩
      · rw [same]
        exact joined.inorder.trans (SortedMap.erase_here below above).symm
      · rw [same]
        exact (sorted.find_of_mem (by simp)).symm
      · change count - 1 + (lr0.inorder ++ nodeSm :: lr1.inorder).length = count + q.inorder.length
        rw [joined.inorder, length_append, length_append, length_cons]
        omega
    · have inner := right balanced1 sorted1 (by omega)
      rw [removeSm]
      simp only [cmp]
      refine Removed.ofChild true whole inner ?_ ?_
      · change lr0.inorder ++ nodeSm :: (removeSm count sm lr1).2.1.inorder = _
        rw [inner.inorder]
        exact (SortedMap.erase_right below greater).symm
      · change (removeSm count sm lr1).2.2.1 = _
        rw [inner.ret]
        exact (SortedMap.find_right below greater).symm

theorem lookup_spec (sm : SmState numChecks σ) {p : AvlNode numChecks σ}
    (sorted : SortedMap.Sorted key p.inorder) :
    lookup p sm = SortedMap.find key p.inorder (key sm) := by
  induction p with
  | null => rfl
  | node nodeSm lr0 lr1 old left right =>
    obtain ⟨sorted0, sorted1, below, above⟩ := SortedMap.Sorted.split sorted
    rw [lookup, inorder_node]
    rcases cmpTracker_cases sm nodeSm with ⟨cmp, less⟩ | ⟨cmp, same⟩ | ⟨cmp, greater⟩
    · rw [cmp, SortedMap.find_left less above]
      exact left sorted0
    · rw [cmp, same]
      exact (sorted.find_of_mem (by simp)).symm
    · rw [cmp, SortedMap.find_right below greater]
      exact right sorted1

theorem checkBalances_eq {p : AvlNode numChecks σ} (balanced : p.Balanced) :
    checkBalances p = some p.height := by
  induction p with
  | null => rfl
  | node sm lr0 lr1 old left right =>
    obtain ⟨difference, low, high, balanced0, balanced1⟩ := balanced
    rw [checkBalances, left balanced0, right balanced1]
    simp only
    rw [if_neg (by omega), AvlNode.height]
    split_ifs <;> simp only [Option.some.injEq] <;> omega

theorem countNode_eq (p : AvlNode numChecks σ) : countNode p = p.inorder.length := by
  induction p with
  | null => rfl
  | node sm lr0 lr1 old left right =>
    rw [countNode, left, right, inorder_node, length_append, length_cons]
    omega

end SmatchFormal.Stree
