import Mathlib.Data.List.Infix
import Mathlib.Tactic.Common

/-!
# State names

The text of a state name: stars or one `&`, a variable, and members behind `->` and `.`.  A text
has one reading.
-/

namespace SmatchFormal.Params

open List

def identChar (c : Char) : Bool := c.isAlphanum || c == '_'

structure Ident where
  text : List Char
  nonempty : text ≠ []
  plain : ∀ c ∈ text, identChar c = true
  deriving DecidableEq

def Ident.letter (c : Char) (plain : identChar c = true) : Ident :=
  ⟨[c], cons_ne_nil c [], fun _ member => (mem_singleton.mp member) ▸ plain⟩

inductive Access
  | arrow
  | dot
  deriving DecidableEq, Repr

def Access.text : Access → List Char
  | .arrow => ['-', '>']
  | .dot => ['.']

structure Member where
  access : Access
  name : Ident
  deriving DecidableEq

def Member.text (member : Member) : List Char := member.access.text ++ member.name.text

def chainText (chain : List Member) : List Char := chain.flatMap Member.text

inductive Before
  | stars (count : Nat)
  | address
  deriving DecidableEq, Repr

def Before.text : Before → List Char
  | .stars count => List.replicate count '*'
  | .address => ['&']

structure StateName where
  before : Before
  base : Ident
  chain : List Member
  deriving DecidableEq

def StateName.text (name : StateName) : List Char :=
  name.before.text ++ (name.base.text ++ chainText name.chain)

theorem chainText_nil : chainText [] = [] := rfl

theorem chainText_cons (member : Member) (chain : List Member) :
    chainText (member :: chain) = member.access.text ++ (member.name.text ++ chainText chain) :=
  append_assoc _ _ _

theorem chainText_append (first second : List Member) :
    chainText (first ++ second) = chainText first ++ chainText second :=
  flatMap_append

theorem identChar_ne {c d : Char} (plain : identChar c = true) (other : identChar d = false) :
    c ≠ d := by
  rintro rfl
  rw [plain] at other
  cases other

theorem Ident.head_plain (name : Ident) :
    ∃ c tail, name.text = c :: tail ∧ identChar c = true := by
  cases same : name.text with
  | nil => exact absurd same name.nonempty
  | cons c tail => exact ⟨c, tail, rfl, name.plain c (same ▸ mem_cons_self)⟩

theorem Ident.ext_text {first second : Ident} (same : first.text = second.text) :
    first = second := by
  cases first
  cases second
  cases same
  rfl

/-- The identifier at the start of a text, and the members behind it. -/
def readChain : List Char → Option (List Char × List (Access × List Char))
  | [] => some ([], [])
  | '-' :: '>' :: rest => (readChain rest).map fun read => ([], (.arrow, read.1) :: read.2)
  | '.' :: rest => (readChain rest).map fun read => ([], (.dot, read.1) :: read.2)
  | c :: rest =>
    if identChar c then (readChain rest).map fun read => (c :: read.1, read.2) else none

theorem readChain_plain {name rest : List Char} (plain : ∀ c ∈ name, identChar c = true)
    {read : List Char × List (Access × List Char)} (later : readChain rest = some read) :
    readChain (name ++ rest) = some (name ++ read.1, read.2) := by
  induction name with
  | nil => exact later
  | cons c tail ih =>
    have first := plain c mem_cons_self
    have step := ih fun d member => plain d (mem_cons_of_mem c member)
    have minus : c ≠ '-' := identChar_ne first rfl
    have dot : c ≠ '.' := identChar_ne first rfl
    rw [cons_append, readChain, if_pos first, step]
    · rfl
    · rintro tail rfl
      exact absurd rfl minus
    · exact dot

theorem readChain_chainText (chain : List Member) :
    readChain (chainText chain) =
      some ([], chain.map fun member => (member.access, member.name.text)) := by
  induction chain with
  | nil => rfl
  | cons member rest ih =>
    have name := readChain_plain member.name.plain ih
    rw [append_nil] at name
    obtain ⟨access, ident⟩ := member
    rw [chainText_cons]
    cases access with
    | arrow =>
      change readChain ('-' :: '>' :: (ident.text ++ chainText rest)) = _
      rw [readChain, name]
      rfl
    | dot =>
      change readChain ('.' :: (ident.text ++ chainText rest)) = _
      rw [readChain, name]
      rfl

theorem chain_injective {first second : List Member}
    (same : (first.map fun member => (member.access, member.name.text)) =
      second.map fun member => (member.access, member.name.text)) : first = second := by
  refine map_injective_iff.mpr ?_ same
  rintro ⟨access, name⟩ ⟨access', name'⟩ both
  obtain ⟨accesses, texts⟩ := Prod.mk.inj both
  dsimp only at accesses texts
  rw [accesses, Ident.ext_text texts]

theorem path_injective {base base' : Ident} {chain chain' : List Member}
    (same : base.text ++ chainText chain = base'.text ++ chainText chain') :
    base = base' ∧ chain = chain' := by
  have first := readChain_plain base.plain (readChain_chainText chain)
  have second := readChain_plain base'.plain (readChain_chainText chain')
  rw [same, second] at first
  obtain ⟨names, chains⟩ := Prod.mk.inj (Option.some.inj first)
  rw [append_nil, append_nil] at names
  exact ⟨Ident.ext_text names.symm, chain_injective chains.symm⟩

theorem StateName.text_injective {first second : StateName} (same : first.text = second.text) :
    first = second := by
  obtain ⟨before, base, chain⟩ := first
  obtain ⟨before', base', chain'⟩ := second
  unfold StateName.text at same
  dsimp only at same
  have heads : before = before' ∧
      base.text ++ chainText chain = base'.text ++ chainText chain' := by
    obtain ⟨c, tail, text, plain⟩ := base.head_plain
    obtain ⟨c', tail', text', plain'⟩ := base'.head_plain
    rw [text, text', cons_append, cons_append] at same ⊢
    cases before with
    | stars count =>
      cases before' with
      | stars count' =>
        have counts : count = count' := by
          have runs := congrArg (fun letters => (letters.takeWhile (· == '*')).length) same
          simpa [Before.text, identChar_ne plain, identChar_ne plain', identChar,
            takeWhile_append_of_pos] using runs
        subst counts
        exact ⟨rfl, append_cancel_left same⟩
      | address =>
        exfalso
        cases count with
        | zero => exact identChar_ne plain (by decide) (List.cons.inj same).1
        | succ count => exact absurd (List.cons.inj same).1 (by decide)
    | address =>
      cases before' with
      | stars count =>
        exfalso
        cases count with
        | zero => exact identChar_ne plain' (by decide) (List.cons.inj same).1.symm
        | succ count => exact absurd (List.cons.inj same).1 (by decide)
      | address => exact ⟨rfl, (List.cons.inj same).2⟩
  obtain ⟨rfl, paths⟩ := heads
  obtain ⟨rfl, rfl⟩ := path_injective paths
  rfl

end SmatchFormal.Params
