import SmatchFormal.Comparison.LinksSound
import Mathlib.Data.Nat.Digits.Defs

/-!
# Names of sums

`chunk_to_var` prints an expression.  The text of an expression that is built from variables
and numbers with `+` and `-` tells its value, so two expressions of one name are equal.
-/

namespace SmatchFormal.Links

open SmatchFormal.Stree Comparison List

/-! ## The code -/

inductive ChunkOp where
  | plus | minus
  deriving DecidableEq

/-- The expressions of integer variables, numbers, `+`, `-` and parentheses. -/
inductive Chunk where
  | symbol (name : Name)
  | value (number : Int)
  | parens (unop : Chunk)
  | binop (left : Chunk) (op : ChunkOp) (right : Chunk)
  deriving DecidableEq

def ChunkOp.apply : ChunkOp → Int → Int → Int
  | plus, left, right => left + right
  | minus, left, right => left - right

def ChunkOp.byte : ChunkOp → Fin 256
  | plus => 43
  | minus => 45

def openParen : Fin 256 := 40

def closeParen : Fin 256 := 41

def minusSign : Fin 256 := 45

def digits (number : Nat) : Name :=
  if number = 0 then [48]
  else ((Nat.digits 10 number).reverse).map fun digit => Fin.ofNat 256 (48 + digit)

def svalToNumstr (number : Int) : Name :=
  if number < 0 then openParen :: minusSign :: (digits number.natAbs ++ [closeParen])
  else digits number.natAbs

namespace Chunk

def stripParens : Chunk → Chunk
  | parens unop => stripParens unop
  | expr => expr

/-- `expr_to_str`.  The parentheses of a variable are not printed. -/
def toStr : Chunk → Name
  | symbol name => name
  | value number => svalToNumstr number
  | parens unop =>
    match stripParens unop with
    | symbol name => name
    | _ => openParen :: (toStr unop ++ [closeParen])
  | binop left op right => toStr left ++ (space :: op.byte :: space :: toStr right)

def getComplicationScore : Chunk → Nat
  | symbol _ => 1
  | value _ => 0
  | parens unop => getComplicationScore unop
  | binop left _ right => getComplicationScore left + getComplicationScore right

/-- `expr_to_var`: only a variable has a name that is not complicated. -/
def toVar (expr : Chunk) : Option Name :=
  match stripParens expr with
  | symbol name => some name
  | _ => none

def reorderAlphabetically : Chunk → Chunk
  | binop left .plus right =>
    match toVar left, toVar right with
    | some leftName, some rightName =>
      if strcmp leftName rightName ≤ 0 then binop left .plus right
      else binop right .plus left
    | _, _ => binop left .plus right
  | expr => expr

/-- `expr_to_chunk_helper` of an expression without outer parentheses. -/
def chunkHelper (expr : Chunk) : Option Name :=
  match toVar expr with
  | some name => some name
  | none =>
    if expr.getComplicationScore = 0 ∨ 2 < expr.getComplicationScore then none
    else some (toStr (reorderAlphabetically expr))

def chunkToVar (expr : Chunk) : Option Name := chunkHelper (stripParens expr)

/-! ## Values -/

def eval (vals : Name → Int) : Chunk → Int
  | symbol name => vals name
  | value number => number
  | parens unop => eval vals unop
  | binop left op right => op.apply (eval vals left) (eval vals right)

def isBinop : Chunk → Bool
  | binop _ _ _ => true
  | _ => false

end Chunk

def Plain (byte : Fin 256) : Prop := byte ≠ space ∧ byte ≠ openParen ∧ byte ≠ closeParen

def IsDigit (byte : Fin 256) : Prop := 48 ≤ byte ∧ byte ≤ 57

/-- The names of variables: they have no spaces and no parentheses, and begin neither with a
digit nor with a minus sign. -/
def IsVarName (name : Name) : Prop :=
  (∀ byte ∈ name, Plain byte) ∧
    ∃ first rest, name = first :: rest ∧ ¬IsDigit first ∧ first ≠ minusSign

/-- The expressions of the parser: the right operand of `+` and `-` is in parentheses if it is
a sum itself. -/
def Chunk.Parsed : Chunk → Prop
  | symbol name => IsVarName name
  | value _ => True
  | parens unop => unop.Parsed
  | binop left _ right => left.Parsed ∧ right.Parsed ∧ right.isBinop = false

section Words

variable {one two rest rest' : Name} {number number' : Nat} {byte : Fin 256}

theorem IsDigit.plain (digit : IsDigit byte) : Plain byte := by
  unfold IsDigit at digit
  unfold Plain space openParen closeParen
  omega

theorem digits_isDigit : ∀ byte ∈ digits number, IsDigit byte := by
  intro byte member
  unfold digits at member
  split_ifs at member with zero
  · obtain rfl := mem_singleton.mp member
    exact ⟨le_refl _, by decide⟩
  · obtain ⟨digit, digitMember, rfl⟩ := mem_map.mp member
    have small := Nat.digits_lt_base (show 1 < 10 by omega) (mem_reverse.mp digitMember)
    unfold IsDigit
    constructor
    · rw [Fin.le_def, Fin.val_ofNat, Nat.mod_eq_of_lt (show 48 + digit < 256 by omega)]
      exact Nat.le_add_right 48 digit
    · rw [Fin.le_def, Fin.val_ofNat, Nat.mod_eq_of_lt (show 48 + digit < 256 by omega)]
      change 48 + digit ≤ 57
      omega

theorem digits_ne_nil : digits number ≠ [] := by
  unfold digits
  split_ifs with zero
  · exact cons_ne_nil _ _
  · intro empty
    rw [map_eq_nil_iff, reverse_eq_nil_iff] at empty
    exact Nat.digits_ne_nil_iff_ne_zero.mpr zero empty

def readDigits (text : Name) : Nat := Nat.ofDigits 10 (text.reverse.map fun byte => byte.val - 48)

theorem readDigits_digits : readDigits (digits number) = number := by
  unfold digits
  split_ifs with zero
  · rw [zero]
    rfl
  · unfold readDigits
    rw [← map_reverse, reverse_reverse, map_map]
    have back : (Nat.digits 10 number).map ((fun byte : Fin 256 => byte.val - 48) ∘ fun digit =>
        Fin.ofNat 256 (48 + digit)) = Nat.digits 10 number := by
      conv_rhs => rw [← map_id (Nat.digits 10 number)]
      refine map_congr_left fun digit member => ?_
      have small := Nat.digits_lt_base (show 1 < 10 by omega) member
      change (48 + digit) % 256 - 48 = digit
      omega
    rw [back, Nat.ofDigits_digits]

theorem digits_injective (same : digits number = digits number') : number = number' := by
  rw [← @readDigits_digits number, same, readDigits_digits]

def Stops (rest : Name) : Prop := ∀ byte later, rest = byte :: later → ¬Plain byte

theorem stops_cons (special : ¬Plain byte) : Stops (byte :: rest) := by
  intro first later same
  rw [← (List.cons.inj same).1]
  exact special

theorem closeParen_not_plain : ¬Plain closeParen := fun plain => plain.2.2 rfl

theorem space_not_plain : ¬Plain space := fun plain => plain.1 rfl

/-- Where a word ends is seen from the text. -/
theorem word_unique (plain : ∀ byte ∈ one, Plain byte) (plain' : ∀ byte ∈ two, Plain byte)
    (stops : Stops rest) (stops' : Stops rest') (same : one ++ rest = two ++ rest') :
    one = two ∧ rest = rest' := by
  induction one generalizing two with
  | nil =>
    cases two with
    | nil => exact ⟨rfl, same⟩
    | cons byte two => exact absurd (plain' byte mem_cons_self) (stops byte _ same)
  | cons byte one ih =>
    cases two with
    | nil => exact absurd (plain byte mem_cons_self) (stops' byte _ same.symm)
    | cons byte' two =>
      obtain ⟨head, tail⟩ := List.cons.inj same
      obtain ⟨words, rests⟩ := ih
        (fun other member => plain other (mem_cons_of_mem byte member))
        (fun other member => plain' other (mem_cons_of_mem byte' member)) tail
      rw [head, words]
      exact ⟨rfl, rests⟩

end Words

section Texts

variable {vals : Name → Int} {text text' rest rest' : Name} {result result' : Int}
  {expr : Chunk}

/-- The text and the value of a variable, a number or an expression in parentheses. -/
inductive Printed (vals : Name → Int) : Name → Int → Prop where
  | symbol {name : Name} (isVariable : IsVarName name) : Printed vals name (vals name)
  | number (number : Nat) : Printed vals (digits number) number
  | negative (number : Nat) :
      Printed vals (openParen :: minusSign :: (digits number ++ [closeParen])) (-number)
  | group (unop : Chunk) (parsed : unop.Parsed) :
      Printed vals (openParen :: (unop.toStr ++ [closeParen])) (unop.eval vals)

theorem Chunk.Parsed.stripParens (parsed : expr.Parsed) : expr.stripParens.Parsed := by
  induction expr with
  | symbol name => exact parsed
  | value number => exact parsed
  | parens unop ih => exact ih parsed
  | binop left op right => exact parsed

theorem Chunk.eval_stripParens : expr.stripParens.eval vals = expr.eval vals := by
  induction expr with
  | symbol name => rfl
  | value number => rfl
  | parens unop ih => exact ih
  | binop left op right => rfl

theorem printed_value (number : Int) : Printed vals (svalToNumstr number) number := by
  unfold svalToNumstr
  split_ifs with negative
  · have value : number = -(number.natAbs : Int) := by omega
    conv => arg 3; rw [value]
    exact .negative number.natAbs
  · have value : number = (number.natAbs : Int) := by omega
    conv => arg 3; rw [value]
    exact .number number.natAbs

theorem printed_of_parsed (parsed : expr.Parsed) (single : expr.isBinop = false) :
    Printed vals expr.toStr (expr.eval vals) := by
  cases expr with
  | symbol name => exact .symbol parsed
  | value number => exact printed_value number
  | parens unop =>
    have stripped : unop.stripParens.Parsed := Chunk.Parsed.stripParens parsed
    have value : unop.stripParens.eval vals = (Chunk.parens unop).eval vals :=
      Chunk.eval_stripParens
    unfold Chunk.toStr
    split
    · rename_i name symbol
      rw [← value, symbol]
      rw [symbol] at stripped
      exact .symbol stripped
    · exact .group unop parsed
  | binop left op right => cases single

theorem toStr_first (parsed : expr.Parsed) :
    ∃ first rest, expr.toStr = first :: rest ∧ first ≠ minusSign := by
  induction expr with
  | binop left op right ihLeft =>
    obtain ⟨first, rest, same, different⟩ := ihLeft parsed.1
    refine ⟨first, rest ++ (space :: op.byte :: space :: right.toStr), ?_, different⟩
    rw [Chunk.toStr, same]
    rfl
  | symbol name =>
    obtain ⟨first, rest, same, -, different⟩ := parsed.2
    exact ⟨first, rest, same, different⟩
  | value number =>
    unfold Chunk.toStr svalToNumstr
    split_ifs
    · exact ⟨openParen, _, rfl, by decide⟩
    · cases found : digits number.natAbs with
      | nil => exact absurd found digits_ne_nil
      | cons first rest =>
        have digit := digits_isDigit first (found ▸ mem_cons_self)
        refine ⟨first, rest, rfl, ?_⟩
        unfold IsDigit at digit
        unfold minusSign
        omega
  | parens unop =>
    have stripped : unop.stripParens.Parsed := Chunk.Parsed.stripParens parsed
    unfold Chunk.toStr
    split
    · rename_i name symbol
      rw [symbol] at stripped
      obtain ⟨first, rest, same, -, different⟩ := stripped.2
      exact ⟨first, rest, same, different⟩
    · exact ⟨openParen, _, rfl, by decide⟩

def Ends (rest : Name) : Prop :=
  Stops rest ∧ ∀ (op : ChunkOp) (later : Name), rest ≠ space :: op.byte :: later

theorem ends_closeParen : Ends (closeParen :: rest) := by
  refine ⟨stops_cons closeParen_not_plain, fun op later same => ?_⟩
  exact absurd (List.cons.inj same).1 (by decide)

def Unique (vals : Name → Int) (text : Name) (result : Int) : Prop :=
  ∀ text' result' rest rest', Printed vals text' result' → Stops rest → Stops rest' →
    text ++ rest = text' ++ rest' → result = result' ∧ rest = rest'

/-- The same of a sum, which may be followed by anything but a further operand. -/
def UniqueSum (vals : Name → Int) (expr : Chunk) : Prop :=
  ∀ (expr' : Chunk) (rest rest' : Name), expr'.Parsed → Ends rest → Ends rest' →
    expr.toStr ++ rest = expr'.toStr ++ rest' → expr.eval vals = expr'.eval vals ∧ rest = rest'

theorem IsVarName.ne_digits {name : Name} {number : Nat} (isVariable : IsVarName name) :
    name ≠ digits number := by
  intro same
  obtain ⟨first, rest, found, notDigit, -⟩ := isVariable.2
  refine notDigit (@digits_isDigit number first ?_)
  rw [← same, found]
  exact mem_cons_self

theorem IsVarName.ne_nil {name : Name} (isVariable : IsVarName name) : name ≠ [] := by
  obtain ⟨first, rest, rfl, -, -⟩ := isVariable.2
  exact cons_ne_nil first rest

theorem digits_plain {number : Nat} : ∀ byte ∈ digits number, Plain byte :=
  fun byte member => (digits_isDigit byte member).plain

theorem word_ne_open {one : Name} (plain : ∀ byte ∈ one, Plain byte) (filled : one ≠ []) :
    one ++ rest ≠ openParen :: rest' := by
  cases one with
  | nil => exact absurd rfl filled
  | cons byte one =>
    intro same
    exact (plain byte mem_cons_self).2.1 (List.cons.inj same).1

theorem unique_variable {name : Name} (isVariable : IsVarName name) :
    Unique vals name (vals name) := by
  intro text' result' rest rest' printed stops stops' same
  cases printed with
  | symbol isVariable' =>
    obtain ⟨rfl, rests⟩ := word_unique isVariable.1 isVariable'.1 stops stops' same
    exact ⟨rfl, rests⟩
  | number number =>
    obtain ⟨names, -⟩ := word_unique isVariable.1 digits_plain stops stops' same
    exact absurd names isVariable.ne_digits
  | negative number => exact absurd same (word_ne_open isVariable.1 isVariable.ne_nil)
  | group unop parsed => exact absurd same (word_ne_open isVariable.1 isVariable.ne_nil)

theorem unique_number (number : Nat) : Unique vals (digits number) number := by
  intro text' result' rest rest' printed stops stops' same
  cases printed with
  | symbol isVariable =>
    obtain ⟨names, -⟩ := word_unique digits_plain isVariable.1 stops stops' same
    exact absurd names.symm isVariable.ne_digits
  | number number' =>
    obtain ⟨words, rests⟩ := word_unique digits_plain digits_plain stops stops' same
    rw [digits_injective words]
    exact ⟨rfl, rests⟩
  | negative number' => exact absurd same (word_ne_open digits_plain digits_ne_nil)
  | group unop parsed => exact absurd same (word_ne_open digits_plain digits_ne_nil)

theorem unique_negative (number : Nat) :
    Unique vals (openParen :: minusSign :: (digits number ++ [closeParen])) (-number) := by
  intro text' result' rest rest' printed stops stops' same
  cases printed with
  | symbol isVariable =>
    exact absurd same.symm (word_ne_open isVariable.1 isVariable.ne_nil)
  | number number' => exact absurd same.symm (word_ne_open digits_plain digits_ne_nil)
  | negative number' =>
    have tail := (List.cons.inj (List.cons.inj same).2).2
    change (digits number ++ [closeParen]) ++ rest =
      (digits number' ++ [closeParen]) ++ rest' at tail
    rw [append_assoc, append_assoc] at tail
    obtain ⟨words, rests⟩ := word_unique digits_plain digits_plain
      (stops_cons closeParen_not_plain) (stops_cons closeParen_not_plain) tail
    rw [digits_injective words]
    exact ⟨rfl, (List.cons.inj rests).2⟩
  | group unop parsed =>
    obtain ⟨first, later, begins, different⟩ := toStr_first parsed
    have tail := (List.cons.inj same).2
    rw [begins] at tail
    exact absurd (List.cons.inj tail).1.symm different

theorem unique_group {unop : Chunk} (parsed : unop.Parsed) (inner : UniqueSum vals unop) :
    Unique vals (openParen :: (unop.toStr ++ [closeParen])) (unop.eval vals) := by
  intro text' result' rest rest' printed stops stops' same
  cases printed with
  | symbol isVariable =>
    exact absurd same.symm (word_ne_open isVariable.1 isVariable.ne_nil)
  | number number' => exact absurd same.symm (word_ne_open digits_plain digits_ne_nil)
  | negative number' =>
    obtain ⟨first, later, begins, different⟩ := toStr_first parsed
    have tail := (List.cons.inj same).2
    rw [begins] at tail
    exact absurd (List.cons.inj tail).1 different
  | group unop' parsed' =>
    have tail := (List.cons.inj same).2
    change (unop.toStr ++ [closeParen]) ++ rest = (unop'.toStr ++ [closeParen]) ++ rest' at tail
    rw [append_assoc, append_assoc] at tail
    obtain ⟨values, rests⟩ := inner unop' _ _ parsed' ends_closeParen ends_closeParen tail
    exact ⟨values, (List.cons.inj rests).2⟩

end Texts

section Sums

variable {vals : Name → Int} {expr : Chunk} {rest rest' : Name}
  {list list' : List (ChunkOp × Chunk)}

namespace Chunk

def first : Chunk → Chunk
  | binop left _ _ => first left
  | expr => expr

def operands : Chunk → List (ChunkOp × Chunk)
  | binop left op right => operands left ++ [(op, right)]
  | _ => []

end Chunk

def operandsStr (operands : List (ChunkOp × Chunk)) : Name :=
  operands.flatMap fun operand => space :: operand.1.byte :: space :: operand.2.toStr

def applyAll (operands : List (ChunkOp × Int)) (start : Int) : Int :=
  operands.foldl (fun result operand => operand.1.apply result operand.2) start

def evalOperands (vals : Name → Int) (operands : List (ChunkOp × Chunk)) :
    List (ChunkOp × Int) :=
  operands.map fun operand => (operand.1, operand.2.eval vals)

theorem toStr_eq (expr : Chunk) : expr.toStr = expr.first.toStr ++ operandsStr expr.operands := by
  induction expr with
  | binop left op right ih =>
    have last : operandsStr (left.operands ++ [(op, right)]) =
        operandsStr left.operands ++ (space :: op.byte :: space :: right.toStr) := by
      unfold operandsStr
      rw [flatMap_append, flatMap_singleton]
    rw [Chunk.toStr, ih, Chunk.operands, last, append_assoc]
    rfl
  | symbol name => exact (append_nil _).symm
  | value number => exact (append_nil _).symm
  | parens unop => exact (append_nil _).symm

theorem eval_eq (expr : Chunk) :
    expr.eval vals = applyAll (evalOperands vals expr.operands) (expr.first.eval vals) := by
  induction expr with
  | binop left op right ih =>
    unfold applyAll evalOperands at ih ⊢
    rw [Chunk.eval, ih, Chunk.operands, map_append, foldl_append]
    rfl
  | symbol name => rfl
  | value number => rfl
  | parens unop => rfl

theorem first_parsed (parsed : expr.Parsed) :
    expr.first.Parsed ∧ expr.first.isBinop = false := by
  induction expr with
  | binop left op right ih => exact ih parsed.1
  | symbol name => exact ⟨parsed, rfl⟩
  | value number => exact ⟨parsed, rfl⟩
  | parens unop => exact ⟨parsed, rfl⟩

theorem operands_parsed (parsed : expr.Parsed) :
    ∀ operand ∈ expr.operands, operand.2.Parsed ∧ operand.2.isBinop = false := by
  induction expr with
  | binop left op right ih =>
    intro operand member
    rcases mem_append.mp member with earlier | last
    · exact ih parsed.1 operand earlier
    · obtain rfl := mem_singleton.mp last
      exact parsed.2
  | symbol name => exact fun operand none => absurd none not_mem_nil
  | value number => exact fun operand none => absurd none not_mem_nil
  | parens unop => exact fun operand none => absurd none not_mem_nil

theorem stops_operandsStr (stops : Stops rest) : Stops (operandsStr list ++ rest) := by
  cases list with
  | nil => exact stops
  | cons operand list => exact stops_cons space_not_plain

theorem ChunkOp.byte_injective {op op' : ChunkOp} (same : op.byte = op'.byte) : op = op' := by
  revert same
  cases op <;> cases op' <;> decide

theorem operandsStr_cons (operand : ChunkOp × Chunk) (rest : Name) :
    operandsStr (operand :: list) ++ rest =
      space :: operand.1.byte :: space ::
        (operand.2.toStr ++ (operandsStr list ++ rest)) := by
  unfold operandsStr
  rw [flatMap_cons, append_assoc]
  rfl

/-- Operands are read one after the other until the text goes on with no operator. -/
theorem operands_unique
    (unique : ∀ operand ∈ list, Unique vals operand.2.toStr (operand.2.eval vals))
    (parsed : ∀ operand ∈ list', operand.2.Parsed ∧ operand.2.isBinop = false)
    (ends : Ends rest) (ends' : Ends rest')
    (same : operandsStr list ++ rest = operandsStr list' ++ rest') :
    evalOperands vals list = evalOperands vals list' ∧ rest = rest' := by
  induction list generalizing list' with
  | nil =>
    cases list' with
    | nil => exact ⟨rfl, same⟩
    | cons operand list' =>
      rw [operandsStr_cons] at same
      exact absurd same (ends.2 operand.1 _)
  | cons operand list ih =>
    cases list' with
    | nil =>
      rw [operandsStr_cons] at same
      exact absurd same.symm (ends'.2 operand.1 _)
    | cons operand' list' =>
      rw [operandsStr_cons, operandsStr_cons] at same
      obtain ⟨bytes, tail⟩ := List.cons.inj (List.cons.inj same).2
      obtain ⟨parsedFirst, single⟩ := parsed operand' mem_cons_self
      obtain ⟨values, later⟩ := unique operand mem_cons_self _ _ _ _
        (printed_of_parsed parsedFirst single) (stops_operandsStr ends.1)
        (stops_operandsStr ends'.1) (List.cons.inj tail).2
      obtain ⟨others, rests⟩ := ih
        (fun other member => unique other (mem_cons_of_mem operand member))
        (fun other member => parsed other (mem_cons_of_mem operand' member)) later
      refine ⟨?_, rests⟩
      unfold evalOperands at others ⊢
      rw [map_cons, map_cons, others, values, ChunkOp.byte_injective bytes]

def OperandsUnique (vals : Name → Int) (expr : Chunk) : Prop :=
  Unique vals expr.first.toStr (expr.first.eval vals) ∧
    ∀ operand ∈ expr.operands, Unique vals operand.2.toStr (operand.2.eval vals)

theorem uniqueSum_of_operands (unique : OperandsUnique vals expr) : UniqueSum vals expr := by
  intro expr' rest rest' parsed ends ends' same
  rw [toStr_eq expr, toStr_eq expr', append_assoc, append_assoc] at same
  obtain ⟨parsedFirst, single⟩ := first_parsed parsed
  obtain ⟨values, later⟩ := unique.1 _ _ _ _ (printed_of_parsed parsedFirst single)
    (stops_operandsStr ends.1) (stops_operandsStr ends'.1) same
  obtain ⟨others, rests⟩ := operands_unique unique.2 (operands_parsed parsed) ends ends' later
  rw [eval_eq expr, eval_eq expr', values, others]
  exact ⟨rfl, rests⟩

/-- The induction is on the expression; the operands inside of parentheses make the text in
the parentheses unique. -/
theorem operandsUnique (parsed : expr.Parsed) : OperandsUnique vals expr := by
  induction expr with
  | symbol name => exact ⟨unique_variable parsed, fun _ none => absurd none not_mem_nil⟩
  | value number =>
    refine ⟨?_, fun _ none => absurd none not_mem_nil⟩
    change Unique vals (svalToNumstr number) number
    unfold svalToNumstr
    split_ifs with negative
    · have value : number = -(number.natAbs : Int) := by omega
      conv => arg 3; rw [value]
      exact unique_negative number.natAbs
    · have value : number = (number.natAbs : Int) := by omega
      conv => arg 3; rw [value]
      exact unique_number number.natAbs
  | parens unop ih =>
    refine ⟨?_, fun _ none => absurd none not_mem_nil⟩
    have stripped : unop.stripParens.Parsed := Chunk.Parsed.stripParens parsed
    have value : unop.stripParens.eval vals = (Chunk.parens unop).eval vals :=
      Chunk.eval_stripParens
    change Unique vals (Chunk.parens unop).toStr ((Chunk.parens unop).eval vals)
    unfold Chunk.toStr
    split
    · rename_i name symbol
      rw [← value, symbol]
      rw [symbol] at stripped
      exact unique_variable stripped
    · exact unique_group parsed (uniqueSum_of_operands (ih parsed))
  | binop left op right ihLeft ihRight =>
    refine ⟨(ihLeft parsed.1).1, fun operand member => ?_⟩
    rcases mem_append.mp member with earlier | last
    · exact (ihLeft parsed.1).2 operand earlier
    · obtain rfl := mem_singleton.mp last
      have own := (ihRight parsed.2.1).1
      cases right with
      | binop left op right => cases parsed.2.2
      | symbol name => exact own
      | value number => exact own
      | parens unop => exact own

/-- A text tells the value of the expression and where it ends. -/
theorem uniqueSum (parsed : expr.Parsed) : UniqueSum vals expr :=
  uniqueSum_of_operands (operandsUnique parsed)

end Sums

end SmatchFormal.Links
