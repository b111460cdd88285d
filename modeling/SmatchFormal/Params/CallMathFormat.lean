import SmatchFormal.Params.CallMathNested
import SmatchFormal.Params.Names
import SmatchFormal.Ranges.Text

/-!
# Formulas that are written

`format_expr_helper` writes an expression over the parameters of a function as a formula, which
`parse_call_math_rl` reads at the calls of the function.
-/

namespace SmatchFormal.Params

open SmatchFormal.Lib SmatchFormal.Ranges List

/-- A name and its symbol: `get_param_num_from_sym`, the identifier of the symbol, and
`param_was_set_var_sym`. -/
structure NamedVar where
  name : List Char
  param : Int
  ident : List Char
  wasSet : Bool

/-- What is read of an expression: the operands of a binary operator, or the implied value that is
no mtag, `param_was_set`, and the name of the variable or call. -/
inductive Expression
  | binop (op : Operator) (left right : Expression)
  | leaf (implied : Option Sval) (wasSet : Bool) (var : Option NamedVar)

/-- `snprintf` into what remains of the buffer, and the test behind it. -/
def formatText (remaining : Int) (text : List Char) : Option (List Char) :=
  if remaining - text.length ≤ 0 then none else some text

def formatNameSymHelper (remaining : Int) (var : NamedVar) : Option (List Char) :=
  if var.param < 0 then none
  else if var.wasSet then none
  else if var.ident.length = var.name.length then
    formatText remaining ('$' :: Decimal.decimalText var.param)
  else if var.ident.length < var.name.length ∧ var.name[var.ident.length]? = some '-' then
    formatText remaining ('$' :: (Decimal.decimalText var.param ++ var.name.drop var.ident.length))
  else none

def formatExprHelper (remaining : Int) : Expression → Option (List Char)
  | .binop op left right =>
    (formatExprHelper remaining left).bind fun first =>
      if remaining - first.length ≤ 0 then none
      else if remaining - first.length - 3 ≤ 0 then none
      else
        (formatExprHelper (remaining - first.length - 3) right).bind fun second =>
          if remaining - first.length - 3 - second.length ≤ 0 then none
          else some (first ++ [' ', op.char, ' '] ++ second)
  | .leaf implied wasSet var =>
    match (if wasSet then none else implied) with
    | some sval => formatText remaining (svalToStr sval)
    | none => var.bind (formatNameSymHelper remaining)

/-- A constant that is not negative, a parameter, or a member of what a parameter points to. -/
inductive TreeLeaf
  | constant (sval : Sval) (nonneg : 0 ≤ sval.val)
  | param (base : Ident) (num : Nat) (small : num < 2 ^ 31)
  | member (base : Ident) (num : Nat) (small : num < 2 ^ 31) (first : Ident) (chain : List Member)

def memberText (first : Ident) (chain : List Member) : List Char :=
  ['-', '>'] ++ (first.text ++ chainText chain)

def TreeLeaf.expression : TreeLeaf → Expression
  | .constant sval _ => .leaf (some sval) false none
  | .param base num _ => .leaf none false (some ⟨base.text, num, base.text, false⟩)
  | .member base num _ first chain =>
    .leaf none false (some ⟨base.text ++ memberText first chain, num, base.text, false⟩)

def Term.expression : Term TreeLeaf → Expression
  | .leaf operand => operand.expression
  | .node left _ op operand => .binop (.mul op) left.expression operand.expression

def Formula.expression : Formula TreeLeaf → Expression
  | .single product => product.expression
  | .node left _ op product => .binop (.add op) left.expression product.expression

def TreeLeaf.text : TreeLeaf → List Char
  | .constant sval _ => svalToStr sval
  | .param _ num _ => '$' :: Nat.toDigits 10 num
  | .member _ num _ first chain => '$' :: (Nat.toDigits 10 num ++ memberText first chain)

structure SpacedLeaf where
  lead : Nat
  final : Bool
  leaf : TreeLeaf

def SpacedLeaf.text (spaced : SpacedLeaf) : List Char :=
  List.replicate spaced.lead ' ' ++ spaced.leaf.text

/-- The formula as it is written, with one space on both sides of an operator. -/
def Term.spaced (lead : Nat) (final : Bool) : Term TreeLeaf → Term SpacedLeaf
  | .leaf operand => .leaf ⟨lead, final, operand⟩
  | .node left _ op operand => .node (left.spaced lead false) 1 op ⟨1, final, operand⟩

def Formula.spaced (final : Bool) : Formula TreeLeaf → Formula SpacedLeaf
  | .single product => .single (product.spaced 0 final)
  | .node left _ op product => .node (left.spaced false) 1 op (product.spaced 1 final)

theorem formatText_some {remaining : Int} {text written : List Char}
    (printed : formatText remaining text = some written) : written = text := by
  unfold formatText at printed
  split_ifs at printed
  exact (Option.some.inj printed).symm

theorem format_leaf {remaining : Int} {leaf : TreeLeaf} {text : List Char}
    (written : formatExprHelper remaining leaf.expression = some text) : text = leaf.text := by
  cases leaf with
  | constant sval nonneg => exact formatText_some written
  | param base num small =>
    change formatNameSymHelper remaining ⟨base.text, num, base.text, false⟩ = some text at written
    unfold formatNameSymHelper at written
    dsimp only at written
    rw [if_neg (by omega), if_neg Bool.false_ne_true, if_pos rfl,
      Decimal.decimalText_natCast] at written
    exact formatText_some written
  | member base num small first chain =>
    change formatNameSymHelper remaining
      ⟨base.text ++ memberText first chain, num, base.text, false⟩ = some text at written
    have longer : base.text.length < (base.text ++ memberText first chain).length := by
      rw [length_append]
      exact Nat.lt_add_of_pos_right (Nat.succ_pos _)
    have minus : (base.text ++ memberText first chain)[base.text.length]? = some '-' := by
      rw [List.getElem?_append_right (Nat.le_refl _), Nat.sub_self]
      rfl
    unfold formatNameSymHelper at written
    dsimp only at written
    rw [if_neg (by omega), if_neg Bool.false_ne_true, if_neg (Nat.ne_of_lt longer),
      if_pos ⟨longer, minus⟩, Decimal.decimalText_natCast, drop_left] at written
    exact formatText_some written

theorem format_binop {remaining : Int} {op : Operator} {left right : Expression} {text : List Char}
    (written : formatExprHelper remaining (.binop op left right) = some text) :
    ∃ first second remaining', formatExprHelper remaining left = some first ∧
      formatExprHelper remaining' right = some second ∧
      text = first ++ (operatorText 1 op ++ (List.replicate 1 ' ' ++ second)) := by
  unfold formatExprHelper at written
  obtain ⟨first, one, written⟩ := Option.bind_eq_some_iff.mp written
  split_ifs at written
  obtain ⟨second, two, written⟩ := Option.bind_eq_some_iff.mp written
  split_ifs at written
  refine ⟨first, second, _, one, two, ?_⟩
  rw [← Option.some.inj written]
  simp [operatorText]

theorem format_term {remaining : Int} {product : Term TreeLeaf} {text : List Char}
    (written : formatExprHelper remaining product.expression = some text) (lead : Nat)
    (final : Bool) :
    List.replicate lead ' ' ++ text = (product.spaced lead final).text SpacedLeaf.text := by
  induction product generalizing text final with
  | leaf leaf =>
    have same := @format_leaf remaining leaf text written
    rw [same]
    rfl
  | node left gap op leaf ih =>
    obtain ⟨first, second, remaining', one, two, rfl⟩ := format_binop written
    rw [← append_assoc, ih one false, format_leaf two]
    rfl

/-- The text that is written is the text of the spaced formula. -/
theorem format_formula {remaining : Int} {tree : Formula TreeLeaf} {text : List Char}
    (written : formatExprHelper remaining tree.expression = some text) (final : Bool) :
    text = (tree.spaced final).text SpacedLeaf.text := by
  induction tree generalizing text final with
  | single product => exact format_term written 0 final
  | node left gap op product ih =>
    obtain ⟨first, second, remaining', one, two, rfl⟩ := format_binop written
    rw [format_term two 1 final, ih one false]
    rfl

/-- Whether the reader finds the leaf: a constant in digits, and a member behind which a space
stands, below an argument that is no address, with a name that fits the buffer. -/
def readable {Entry : Type} (call : Call Entry) (spaced : SpacedLeaf) : Bool :=
  match spaced.leaf with
  | .constant sval _ => (svalToStr sval).head?.any Char.isDigit
  | .param _ _ _ => true
  | .member _ num _ first chain =>
    !spaced.final && (call.args[num]?.any fun arg => !arg.isAddress &&
      decide ((arg.var.getD []).length + (memberText first chain).length < 256))

/-- The value of a constant: a `long long`, or what it is if it is too large for one. -/
def constantRl (sval : Sval) : RangeList :=
  if sval.val < 2 ^ 63 then numberRl sval.val else allocRl sval sval

/-- The range that the reader has for a leaf.  `strtoll` cuts a number off at its maximum. -/
def TreeLeaf.readAs (leaf : TreeLeaf) (rl : RangeList) : RangeList :=
  match leaf with
  | .constant sval _ => numberRl (min (2 ^ 63 - 1) sval.val)
  | _ => rl

def TreeLeaf.narrow : TreeLeaf → Bool
  | .constant sval _ => sval.val < 2 ^ 63
  | _ => true

/-- The value of a leaf is known at the call.  No state has a name with `.>` in it. -/
def Known {Entry : Type} (call : Call Entry) (leaf : TreeLeaf) (rl : RangeList) : Prop :=
  match leaf with
  | .constant sval _ => rl = constantRl sval
  | .param _ num _ => ∃ arg, call.args[num]? = some arg ∧
      ∀ machine, (arg.absolute machine).value = (rl, machine)
  | .member _ num _ first chain => ∃ arg name, call.args[num]? = some arg ∧ arg.var = some name ∧
      if arg.isAddress then
        arg.state (name ++ ['.'] ++ (first.text ++ chainText chain)) = some rl ∧
          ∀ path, arg.state (name ++ ['.', '>'] ++ path) = none
      else arg.state (name ++ memberText first chain) = some rl

def Follows (spaced : SpacedLeaf) (rest : List Char) : Prop :=
  if spaced.final then rest = [] else rest.head? = some ' '

section Leaves

variable {Entry : Type} {call : Call Entry}

theorem follows_ends {spaced : SpacedLeaf} {rest : List Char} (follows : Follows spaced rest) :
    Decimal.Ends rest ∧ rest.head? ≠ some '-' ∧ rest.head? ≠ some '.' := by
  unfold Follows at follows
  split_ifs at follows
  · rw [follows]
    exact ⟨Decimal.ends_nil, by decide, by decide⟩
  · refine ⟨?_, ?_, ?_⟩
    · intro c same
      rw [Option.mem_def, follows] at same
      rw [← Option.some.inj same]
      decide
    · rw [follows]
      decide
    · rw [follows]
      decide

def Worded (text : List Char) : Prop := text.head? = some 'u' ∨ text.head? = some 's'

theorem worded_ite {test : Prop} [Decidable test] {text rest digits : List Char}
    (now : test → Worded text ∨ text = digits) (later : ¬ test → Worded rest ∨ rest = digits) :
    Worded (if test then text else rest) ∨ (if test then text else rest) = digits := by
  by_cases holds : test
  · rw [if_pos holds]
    exact now holds
  · rw [if_neg holds]
    exact later holds

/-- A constant that is not negative is printed in digits, or as a word. -/
theorem svalToStr_nonneg {sval : Sval} (nonneg : 0 ≤ sval.val) :
    Worded (svalToStr sval) ∨ svalToStr sval = Nat.toDigits 10 sval.val.toNat := by
  have unsigned : svalUnsigned sval = true → sval.uvalue = sval.val.toNat := by
    intro sign
    rw [Sval.val_of_unsigned sign]
    rfl
  have signed : ¬ svalUnsigned sval = true → sval.value = sval.val := by
    intro sign
    rw [Sval.val_of_signed (Bool.not_eq_true _ |>.mp sign)]
  unfold svalToStr
  refine worded_ite (fun _ => Or.inl (Or.inl rfl)) fun _ => ?_
  refine worded_ite (fun _ => Or.inl (Or.inl rfl)) fun _ => ?_
  refine worded_ite (fun _ => Or.inl (Or.inl rfl)) fun _ => ?_
  refine worded_ite (fun _ => Or.inl (Or.inr rfl)) fun _ => ?_
  refine worded_ite (fun _ => Or.inl (Or.inr rfl)) fun _ => ?_
  refine worded_ite (fun _ => Or.inl (Or.inr rfl)) fun _ => ?_
  refine worded_ite (fun _ => Or.inl (Or.inr rfl)) fun _ => ?_
  refine worded_ite (fun _ => Or.inl (Or.inr rfl)) fun _ => ?_
  refine worded_ite (fun _ => Or.inl (Or.inr rfl)) fun _ => ?_
  refine worded_ite (fun sign => Or.inr (congrArg _ (unsigned sign))) fun sign => ?_
  have value := signed sign
  refine worded_ite (fun negative => absurd nonneg (by omega)) fun _ => Or.inr (congrArg _ ?_)
  omega

/-- A name of a limit is not read. -/
theorem readVarNum_letter (lead : Nat) {c : Char} (letter : c = 'u' ∨ c = 's') (tail : List Char)
    (machine : Stacks) :
    readVarNum call (List.replicate lead ' ' ++ c :: tail) machine = pure (none, machine) := by
  have other : c ≠ ' ' ∧ c ≠ '$' ∧ Strtol.isSpace c = false ∧ c ≠ '-' ∧ c ≠ '+' ∧
      Strtol.digitOf 10 c = none := by
    rcases letter with rfl | rfl <;> decide
  obtain ⟨space, dollar, visible, minus, plus, digit⟩ := other
  have same : skipSpaces (List.replicate lead ' ' ++ c :: tail) = c :: tail := by
    rw [skipSpaces_replicate, skipSpaces_digit _ space]
  have head : ¬ (c :: tail).head? = some '$' := fun start => dollar (Option.some.inj start)
  unfold readVarNum
  rw [same, if_neg head, Decimal.strtoll_other tail visible minus plus digit, if_pos rfl]

/-- A constant in digits is read, and one under a name is not. -/
theorem constant_reads (lead : Nat) {sval : Sval} (nonneg : 0 ≤ sval.val) {rest : List Char}
    (ends : Decimal.Ends rest) (machine : Stacks) :
    readVarNum call (List.replicate lead ' ' ++ (svalToStr sval ++ rest)) machine =
      pure ((if (svalToStr sval).head?.any Char.isDigit then
        some (numberRl (min (2 ^ 63 - 1) sval.val)) else none).map fun rl => (rl, rest),
          machine) := by
  have named : ∀ c : Char, (svalToStr sval).head? = some c → (c = 'u' ∨ c = 's') →
      readVarNum call (List.replicate lead ' ' ++ (svalToStr sval ++ rest)) machine =
        pure ((if (svalToStr sval).head?.any Char.isDigit then
          some (numberRl (min (2 ^ 63 - 1) sval.val)) else none).map fun rl => (rl, rest),
            machine) := by
    intro c head letter
    obtain ⟨tail, text⟩ := List.head?_eq_some_iff.mp head
    have plain : c.isDigit = false := by
      rcases letter with rfl | rfl <;> rfl
    rw [head, text, cons_append, readVarNum_letter lead letter]
    rw [Option.any_some, plain, if_neg Bool.false_ne_true]
    rfl
  rcases svalToStr_nonneg nonneg with (head | head) | digits
  · exact named 'u' head (Or.inl rfl)
  · exact named 's' head (Or.inr rfl)
  · have decimal : ∀ c ∈ Nat.toDigits 10 sval.val.toNat, c.isDigit = true := fun c member =>
      Nat.isDigit_of_mem_toDigits (by decide) (by decide) member
    have number := @readVarNum_number _ call false _ rest Nat.toDigits_ne_nil decimal ends lead
      machine
    obtain ⟨c, tail, found, digit⟩ := Strtol.exists_digit sval.val.toNat []
    rw [append_nil] at found
    have start : (svalToStr sval).head?.any Char.isDigit = true := by
      rw [digits, found]
      exact digit
    rw [if_neg Bool.false_ne_true, if_neg Bool.false_ne_true, nil_append,
      Nat.ofDigitChars_ten_toDigits, Int.toNat_of_nonneg nonneg] at number
    rw [if_pos start, digits, number]
    rfl

theorem readAs_narrow {leaf : TreeLeaf} {rl : RangeList} (known : Known call leaf rl)
    (narrow : leaf.narrow = true) : leaf.readAs rl = rl := by
  cases leaf with
  | constant sval nonneg =>
    have small : sval.val < 2 ^ 63 := of_decide_eq_true narrow
    have value : min (2 ^ 63 - 1) sval.val = sval.val := by omega
    change numberRl (min (2 ^ 63 - 1) sval.val) = rl
    rw [show rl = constantRl sval from known, constantRl, if_pos small, value]
  | param base num small => rfl
  | member base num small first chain => rfl

theorem memberText_visible (first : Ident) (chain : List Member) :
    ∀ c ∈ memberText first chain, (c != ' ') = true := by
  intro c inside
  have letter : ∀ d, identChar d = true → (d != ' ') = true := by
    intro d plain
    rw [bne_iff_ne]
    exact identChar_ne plain rfl
  rcases mem_append.mp inside with sign | inside
  · rcases mem_pair.mp sign with rfl | rfl <;> rfl
  rcases mem_append.mp inside with name | members
  · exact letter c (first.plain c name)
  · obtain ⟨⟨access, name⟩, -, inside⟩ := mem_flatMap.mp members
    rcases mem_append.mp inside with sign | name'
    · cases access with
      | arrow => rcases mem_pair.mp sign with rfl | rfl <;> rfl
      | dot =>
        rw [mem_singleton.mp sign]
        rfl
    · exact letter c (name.plain c name')

theorem memberText_length (first : Ident) (chain : List Member) :
    3 ≤ (memberText first chain).length ∧
      (memberText first chain).length = (first.text ++ chainText chain).length + 2 := by
  have positive := length_pos_iff.mpr first.nonempty
  unfold memberText
  simp only [length_append, length_cons, length_nil]
  omega

variable {arg : ArgVar} {first : Ident} {chain : List Member} {rest name : List Char}

/-- Without a space behind it a member is not read. -/
theorem memberRl_final : memberRl arg (memberText first chain ++ []) = none := by
  have ends : (memberText first chain ++ []).dropWhile (fun c => c != ' ') = [] := by
    rw [append_nil, dropWhile_eq_nil_iff]
    exact memberText_visible first chain
  unfold memberRl
  rw [ends]
  cases arg.var <;> rfl

section

variable (space : rest.head? = some ' ') (named : arg.var = some name)
include space named

/-- The parts of a member with a space behind it. -/
theorem memberRl_space :
    memberRl arg (memberText first chain ++ rest) =
      if ((memberText first chain).drop (if arg.isAddress then 1 else 2)).length +
          ((name ++ if arg.isAddress then ['.'] else ['-', '>']).take 255).length ≥ 256 then none
      else (arg.state ((name ++ if arg.isAddress then ['.'] else ['-', '>']).take 255 ++
        (memberText first chain).drop (if arg.isAddress then 1 else 2))).map fun rl =>
          (rl, rest) := by
  obtain ⟨tail, rfl⟩ := List.head?_eq_some_iff.mp space
  have visible := memberText_visible first chain
  have path : (memberText first chain ++ ' ' :: tail).takeWhile (fun c => c != ' ') =
      memberText first chain := by
    rw [takeWhile_append_of_pos visible, takeWhile_cons_of_neg (by decide),
      append_nil]
  have left : (memberText first chain ++ ' ' :: tail).dropWhile (fun c => c != ' ') =
      ' ' :: tail := by
    rw [dropWhile_append_of_pos visible, dropWhile_cons_of_neg (by decide)]
  unfold memberRl
  rw [path, left, named]
  exact if_neg (cons_ne_nil _ _)

/-- Below a plain argument a member is read when its name fits the buffer. -/
theorem memberRl_plain {rl : RangeList} (plain : arg.isAddress = false)
    (state : arg.state (name ++ memberText first chain) = some rl) :
    memberRl arg (memberText first chain ++ rest) =
      (if name.length + (memberText first chain).length < 256 then some rl else none).map
        fun rl => (rl, rest) := by
  obtain ⟨long, size⟩ := memberText_length first chain
  have path : (memberText first chain).drop 2 = first.text ++ chainText chain := rfl
  rw [memberRl_space space named, plain, if_neg Bool.false_ne_true, if_neg Bool.false_ne_true, path]
  by_cases fits : name.length + (memberText first chain).length < 256
  · have whole : (name ++ ['-', '>']).take 255 = name ++ ['-', '>'] := by
      refine take_of_length_le ?_
      simp only [length_append, length_cons, length_nil]
      omega
    rw [if_pos fits, whole, if_neg]
    · rw [append_assoc]
      have same : name ++ (['-', '>'] ++ (first.text ++ chainText chain)) =
          name ++ memberText first chain := rfl
      rw [same, state]
    · simp only [length_append, length_cons, length_nil] at size ⊢
      omega
  · rw [if_neg fits, if_pos]
    · rfl
    · simp only [length_append, length_cons, length_nil, length_take] at size ⊢
      omega

/-- Below an address one character too few is skipped. -/
theorem memberRl_address (address : arg.isAddress = true)
    (strange : ∀ path, arg.state (name ++ ['.', '>'] ++ path) = none) :
    memberRl arg (memberText first chain ++ rest) = none := by
  have path : (memberText first chain).drop 1 = '>' :: (first.text ++ chainText chain) := rfl
  rw [memberRl_space space named, address, if_pos rfl, if_pos rfl, path]
  by_cases fits : name.length + 1 ≤ 255
  · have whole : (name ++ ['.']).take 255 = name ++ ['.'] := by
      refine take_of_length_le ?_
      simp only [length_append, length_cons, length_nil]
      omega
    have shape : name ++ ['.'] ++ '>' :: (first.text ++ chainText chain) =
        name ++ ['.', '>'] ++ (first.text ++ chainText chain) := by
      simp
    rw [whole, shape, strange, ite_eq_left_iff]
    exact fun _ => rfl
  · rw [if_pos]
    simp only [length_append, length_cons, length_nil, length_take]
    omega

end

end Leaves

section Formulas

variable {Entry : Type} {call : Call Entry} {value : TreeLeaf → RangeList}

def readLeaf (call : Call Entry) (value : TreeLeaf → RangeList) (spaced : SpacedLeaf) :
    Option RangeList :=
  if readable call spaced then some (spaced.leaf.readAs (value spaced.leaf)) else none

theorem dollar_reads {p : List Char} {num : Nat} (small : num < 2 ^ 31) (lead : Nat)
    (isCall : call.isCall = true) (ends : Decimal.Ends p) (machine : Stacks) :
    readVarNum call (List.replicate lead ' ' ++ ('$' :: (Nat.toDigits 10 num ++ p))) machine =
      readArgument call (num : Int) p machine := by
  have visible : skipSpaces (List.replicate lead ' ' ++ '$' :: (Nat.toDigits 10 num ++ p)) =
      '$' :: (Nat.toDigits 10 num ++ p) := by
    rw [skipSpaces_replicate, skipSpaces_digit _ (by decide)]
  rw [readVarNum_dollar machine visible, readRlFromVar_param small ends, isCall, if_pos rfl]

/-- Every leaf of a known value is read, or found unreadable. -/
theorem leaf_reads (isCall : call.isCall = true) (spaced : SpacedLeaf) {rest : List Char}
    (follows : Follows spaced rest) (known : Known call spaced.leaf (value spaced.leaf)) :
    OperandReads (fun _ => True) (fun _ => True) call spaced.text (readLeaf call value spaced)
      rest := by
  intro machine _
  refine ⟨?_, fun _ _ => trivial⟩
  obtain ⟨ends, plain⟩ := follows_ends follows
  obtain ⟨lead, final, leaf⟩ := spaced
  unfold SpacedLeaf.text
  rw [append_assoc]
  cases leaf with
  | constant sval nonneg =>
    exact congrArg Logged.value (constant_reads lead nonneg ends machine)
  | param base num small =>
    obtain ⟨arg, found, reads⟩ := known
    rw [← argument_natCast small] at found
    have shape : (TreeLeaf.param base num small).text ++ rest =
        '$' :: (Nat.toDigits 10 num ++ rest) := rfl
    rw [shape, dollar_reads small lead isCall ends, readArgument_some machine found plain,
      Logged.value_bind, reads]
    rfl
  | member base num small first chain =>
    obtain ⟨arg, name, found, named, states⟩ := known
    have argument := found
    rw [← argument_natCast small] at argument
    have shape : (TreeLeaf.member base num small first chain).text ++ rest =
        '$' :: (Nat.toDigits 10 num ++ (memberText first chain ++ rest)) := by
      simp only [TreeLeaf.text, cons_append, append_assoc]
    have start : Decimal.Ends (memberText first chain ++ rest) :=
      Decimal.ends_cons (by decide) _
    have member : ¬ ((memberText first chain ++ rest).head? ≠ some '-' ∧
        (memberText first chain ++ rest).head? ≠ some '.') := fun both => both.1 rfl
    rw [shape, dollar_reads small lead isCall start, readArgument_member machine argument member,
      Logged.value_pure]
    refine Prod.ext ?_ rfl
    dsimp only
    unfold Follows at follows
    unfold readLeaf
    cases final with
    | true =>
      rw [if_pos rfl] at follows
      rw [follows, memberRl_final]
      rfl
    | false =>
      rw [if_neg Bool.false_ne_true] at follows
      have test : readable call ⟨lead, false, .member base num small first chain⟩ =
          (!arg.isAddress && decide (name.length + (memberText first chain).length < 256)) := by
        unfold readable
        dsimp only
        rw [found, Option.any_some, named]
        rfl
      rw [test]
      cases address : arg.isAddress with
      | true =>
        rw [address, if_pos rfl] at states
        rw [memberRl_address follows named address states.2]
        rfl
      | false =>
        rw [address, if_neg Bool.false_ne_true] at states
        rw [memberRl_plain follows named address states]
        by_cases fits : name.length + (memberText first chain).length < 256
        · rw [if_pos fits, decide_eq_true fits]
          rfl
        · rw [if_neg fits, decide_eq_false fits]
          rfl

theorem spaced_term_before (product : Term TreeLeaf) (lead : Nat) {final : Bool} {rest : List Char}
    (ends : if final then rest = [] else rest.head? = some ' ') :
    (product.spaced lead final).Before SpacedLeaf.text Follows rest := by
  induction product generalizing final rest with
  | leaf operand => exact ends
  | node left gap op operand ih =>
    refine ⟨@ih false _ ?_, ends⟩
    rw [if_neg Bool.false_ne_true]
    rfl

theorem spaced_before (tree : Formula TreeLeaf) {final : Bool} {rest : List Char}
    (ends : if final then rest = [] else rest.head? = some ' ') :
    (tree.spaced final).Before SpacedLeaf.text Follows rest := by
  induction tree generalizing final rest with
  | single product => exact spaced_term_before product 0 ends
  | node left gap op product ih =>
    refine ⟨@ih false _ ?_, spaced_term_before product 1 ends⟩
    rw [if_neg Bool.false_ne_true]
    rfl

theorem spaced_term_operands (product : Term TreeLeaf) (lead : Nat) (final : Bool) :
    (product.spaced lead final).operands.map SpacedLeaf.leaf = product.operands := by
  induction product generalizing final with
  | leaf operand => rfl
  | node left gap op operand ih =>
    simp only [Term.spaced, Term.operands, map_append, ih]
    rfl

theorem spaced_operands (tree : Formula TreeLeaf) (final : Bool) :
    (tree.spaced final).operands.map SpacedLeaf.leaf = tree.operands := by
  induction tree generalizing final with
  | single product => exact spaced_term_operands product 0 final
  | node left gap op product ih =>
    simp only [Formula.spaced, Formula.operands, map_append, ih, spaced_term_operands]

theorem spaced_term_value (product : Term TreeLeaf) (lead : Nat) (final : Bool)
    (read : TreeLeaf → Option RangeList) :
    (product.spaced lead final).value (fun spaced => read spaced.leaf) = product.value read := by
  induction product generalizing final with
  | leaf operand => rfl
  | node left gap op operand ih => simp only [Term.spaced, Term.value, ih]

theorem spaced_value (tree : Formula TreeLeaf) (final : Bool)
    (read : TreeLeaf → Option RangeList) :
    (tree.spaced final).value (fun spaced => read spaced.leaf) = tree.value read := by
  induction tree generalizing final with
  | single product => exact spaced_term_value product 0 final read
  | node left gap op product ih =>
    simp only [Formula.spaced, Formula.value, ih, spaced_term_value]

end Formulas

section Values

variable {α : Type} {read other : α → Option RangeList}

/-- A formula has a value when its operands have one. -/
theorem term_value_isSome (product : Term α) :
    (product.value read).isSome = true ↔ ∀ a ∈ product.operands, (read a).isSome = true := by
  induction product with
  | leaf operand => simp [Term.value, Term.operands]
  | node left gap op operand ih =>
    unfold Term.value Term.operands
    rw [forall_mem_append, ← ih, forall_mem_singleton]
    cases left.value read with
    | none => simp
    | some x => cases read operand <;> simp

theorem formula_value_isSome (formula : Formula α) :
    (formula.value read).isSome = true ↔ ∀ a ∈ formula.operands, (read a).isSome = true := by
  induction formula with
  | single product => exact term_value_isSome product
  | node left gap op product ih =>
    unfold Formula.value Formula.operands
    rw [forall_mem_append, ← ih, ← term_value_isSome]
    cases left.value read with
    | none => simp
    | some x => cases product.value read <;> simp

theorem term_value_congr (product : Term α) (same : ∀ a ∈ product.operands, read a = other a) :
    product.value read = product.value other := by
  induction product with
  | leaf operand => exact same operand mem_cons_self
  | node left gap op operand ih =>
    unfold Term.value
    rw [ih fun a member => same a (mem_append_left _ member),
      same operand (mem_append_right _ mem_cons_self)]

theorem formula_value_congr (formula : Formula α)
    (same : ∀ a ∈ formula.operands, read a = other a) :
    formula.value read = formula.value other := by
  induction formula with
  | single product => exact term_value_congr product same
  | node left gap op product ih =>
    unfold Formula.value
    rw [ih fun a member => same a (mem_append_left _ member),
      term_value_congr product fun a member => same a (mem_append_right _ member)]

end Values

theorem letter_p : identChar 'p' = true := rfl

theorem letter_m : identChar 'm' = true := rfl

theorem first_small : 0 < 2 ^ 31 := by decide

/-- The member `m` of the only argument. -/
def memberLeaf : TreeLeaf := .member (.letter 'p' letter_p) 0 first_small (.letter 'm' letter_m) []

def oneLeaf : TreeLeaf := .constant ⟨llongCtype, 1⟩ (by decide)

def sumOf (first second : TreeLeaf) : Formula TreeLeaf :=
  .node (.single (.leaf first)) 1 .plus (.leaf second)

def memberCall : Call Unit :=
  ⟨true, [⟨⟨false, some ['p'],
    fun name => if name = ['p', '-', '>', 'm'] then some (numberRl 5) else none⟩,
    fun machine => pure (numberRl 5, machine)⟩]⟩

def memberValue : TreeLeaf → RangeList
  | .constant sval _ => constantRl sval
  | _ => numberRl 5

theorem oneLeaf_known : Known memberCall oneLeaf (memberValue oneLeaf) := rfl

theorem memberLeaf_known : Known memberCall memberLeaf (memberValue memberLeaf) :=
  ⟨_, _, rfl, rfl, rfl⟩

theorem sumOf_known {first second : TreeLeaf}
    (one : Known memberCall first (memberValue first))
    (two : Known memberCall second (memberValue second)) :
    ∀ leaf ∈ (sumOf first second).operands, Known memberCall leaf (memberValue leaf) := by
  intro leaf member
  rcases mem_pair.mp member with rfl | rfl
  · exact one
  · exact two

/-- `1 + 9223372036854775808` in unsigned numbers is read as one more than the maximum that
`strtoll` knows. -/
example : (parseCallMathRl memberCall "1 + 9223372036854775808".toList ⟨[], []⟩).value.1 =
    (parseCallMathRl memberCall "1 + 9223372036854775807".toList ⟨[], []⟩).value.1 := by decide

end SmatchFormal.Params
