import SmatchFormal.Tokenizer.Merge
import SmatchFormal.Tokenizer.Strings

/-!
# Strings of macro arguments

`stringify` makes a string of the tokens of an argument, and `get_string_constant` reads it back.
-/

namespace SmatchFormal.Tokenizer

open SmatchFormal.Lib List

/-! ## The functions -/

def quoteChar (data : List Char) (wide : Bool) (delim : Char) : List Char :=
  let quote := if delim = '"' then ['\\', delim] else [delim]
  cString ((if wide then ['L'] else []) ++ quote ++
    (data.flatMap fun c => if c = '"' ∨ c = '\\' then ['\\', c] else [c]) ++ quote)

def quoteToken : Token → List Char
  | .ident name => showIdent (some (allocIdent name))
  | .number text => text
  | .special value => showSpecial value
  | .char wide data => quoteChar data wide '\''
  | .embedded wide data => quoteChar data wide '\''
  | .string wide data => quoteChar data wide '"'

def nextWhitespace : List PlacedToken → Bool
  | [] => false
  | token :: _ => token.whitespace

/-- The loop of `show_token_sequence` with quotes, when some of the buffer is used.  The second part
tells whether all tokens fit. -/
def quoteLoop (used : Nat) (whitespace : Bool) : List PlacedToken → List Char × Bool
  | [] => ([], true)
  | token :: list =>
    let val := quoteToken token.token
    if used + whitespace.toNat + val.length ≥ maxString then ([], false)
    else
      let later := quoteLoop (used + whitespace.toNat + val.length) (nextWhitespace list) list
      ((if whitespace then [' '] else []) ++ val ++ later.1, later.2)

def showTokenSequence (arg : List PlacedToken) : List Char × Bool := quoteLoop 0 false arg

def stringify (arg : List PlacedToken) : Token := .string false (showTokenSequence arg).1

/-! ## Quoting -/

def quoteText (text : List Char) : List Char :=
  text.flatMap fun c => if c = '"' ∨ c = '\\' then ['\\', c] else [c]

theorem quoteText_append (first second : List Char) :
    quoteText (first ++ second) = quoteText first ++ quoteText second := flatMap_append

theorem quoteText_cons (c : Char) (text : List Char) :
    quoteText (c :: text) = (if c = '"' ∨ c = '\\' then ['\\', c] else [c]) ++ quoteText text :=
  flatMap_cons

theorem quoteText_plain {text : List Char} (plain : ∀ c ∈ text, c ≠ '"' ∧ c ≠ '\\') :
    quoteText text = text := by
  induction text with
  | nil => rfl
  | cons c text ih =>
    obtain ⟨quote, backslash⟩ := plain c mem_cons_self
    rw [quoteText_cons, if_neg fun either => either.elim quote backslash,
      ih fun d member => plain d (mem_cons_of_mem c member)]
    rfl

theorem quoteText_length (text : List Char) : text.length ≤ (quoteText text).length := by
  induction text with
  | nil => exact Nat.le_refl 0
  | cons c text ih =>
    rw [quoteText_cons, length_append, length_cons]
    have one : 1 ≤ (if c = '"' ∨ c = '\\' then ['\\', c] else [c]).length := by
      split_ifs <;> exact Nat.succ_pos _
    omega

/-- The text up to the terminator is quoted up to the terminator. -/
theorem cString_quoteText (text : List Char) :
    cString (quoteText text) = quoteText (cString text) := by
  unfold cString
  induction text with
  | nil => rfl
  | cons c text ih =>
    rw [quoteText_cons]
    by_cases zero : c = Char.ofNat 0
    · subst zero
      rfl
    · have other : (c != Char.ofNat 0) = true := bne_iff_ne.mpr zero
      rw [takeWhile_cons_of_pos (p := fun c => c != Char.ofNat 0) other, quoteText_cons]
      split_ifs
      · rw [cons_append, takeWhile_cons_of_pos (by rfl), cons_append,
          takeWhile_cons_of_pos (p := fun c => c != Char.ofNat 0) other]
        exact congrArg (fun rest => '\\' :: c :: rest) ih
      · rw [singleton_append,
          takeWhile_cons_of_pos (p := fun c => c != Char.ofNat 0) other]
        exact congrArg (List.cons c) ih

theorem quoteChar_show (data : List Char) (wide : Bool) {delim : Char}
    (quote : isQuote delim = true) :
    quoteChar data wide delim = quoteText (showChar data wide delim) := by
  unfold quoteChar showChar
  rw [← cString_quoteText, quoteText_append, quoteText_cons, quoteText_append]
  dsimp only
  cases wide <;> rcases quote_cases quote with rfl | rfl <;>
    simp only [Bool.false_eq_true, if_false, if_true, append_assoc] <;> rfl

theorem lone_plain {c : Char} (lone : Lone c) : c ≠ '"' := by
  rintro rfl
  cases lone.quote

def Plain (token : Token) : Prop := token ≠ .special (.single '\\')

theorem combination_plain (value : Combination) : ∀ c ∈ value.text, c ≠ '"' ∧ c ≠ '\\' := by
  have all : value.text.all (fun c => c != '"' && c != '\\') = true := by
    cases value <;> decide
  intro c member
  have both := all_eq_true.mp all c member
  rw [Bool.and_eq_true, bne_iff_ne, bne_iff_ne] at both
  exact both

theorem word_plain {c : Char} (word : isWord c = true) : c ≠ '"' ∧ c ≠ '\\' := by
  constructor
  · rintro rfl
    exact absurd word (by decide)
  · rintro rfl
    exact absurd word (by decide)

theorem number_plain {c : Char} (number : isNumberChar c = true ∨ isSign c = true) :
    c ≠ '"' ∧ c ≠ '\\' := by
  constructor
  · rintro rfl
    exact absurd number (by decide)
  · rintro rfl
    exact absurd number (by decide)

theorem mem_cString {text : List Char} {c : Char} (member : c ∈ cString text) : c ∈ text :=
  (takeWhile_sublist _).subset member

theorem quoteToken_show {token : Token} {text : List Char} (shape : Shape token text)
    (plain : Plain token) : quoteToken token = quoteText (showToken token) := by
  cases shape with
  | @ident c rest letter words fits =>
    refine (quoteText_plain fun d member => word_plain ?_).symm
    have inside : d ∈ c :: rest := mem_of_mem_take (mem_cString member)
    rcases mem_cons.mp inside with rfl | later
    · exact letter_word letter
    · exact words d later
  | @number c tail starts body =>
    refine (quoteText_plain fun d member => number_plain ?_).symm
    have run := numberRun_starts starts body
    change d ∈ (if (c :: tail).length < numberSize then c :: tail else ['1']) at member
    split_ifs at member
    · exact numberRun_chars run d member
    · rw [mem_singleton.mp member]
      exact Or.inl rfl
  | @special value proper =>
    refine (quoteText_plain fun d member => ?_).symm
    have inside : d ∈ value.text := mem_cString member
    cases value with
    | single c =>
      have same := mem_singleton.mp inside
      subst same
      refine ⟨lone_plain proper, ?_⟩
      rintro rfl
      exact plain rfl
    | combination value => exact combination_plain value d inside
  | @literal delim wide lead body bytes quote leads eaten =>
    rcases quote_cases quote with rfl | rfl
    · unfold stringToken
      dsimp only
      rw [if_pos rfl]
      split_ifs
      · exact quoteChar_show _ wide rfl
      · exact quoteChar_show _ wide rfl
    · exact quoteChar_show _ wide rfl

theorem decode_quoteText {text : List Char} (bytes : ∀ c ∈ text, c.toNat < 256) :
    decodeString bitsInChar (quoteText text) = text := by
  induction text with
  | nil =>
    change decodeString bitsInChar [] = []
    rw [decodeString]
  | cons c text ih =>
    have byte := bytes c mem_cons_self
    have later := ih fun d member => bytes d (mem_cons_of_mem c member)
    rw [quoteText_cons]
    by_cases escaped : c = '"' ∨ c = '\\'
    · rw [if_pos escaped]
      have read : parseEscape bitsInChar (['\\', c] ++ quoteText text) =
          (c.toNat, quoteText text) := by
        rcases escaped with rfl | rfl <;> rfl
      have nonempty : ['\\', c] ++ quoteText text ≠ [] := cons_ne_nil _ _
      rw [decodeString_cons nonempty read, Nat.mod_eq_of_lt byte, Char.ofNat_toNat,
        later]
    · rw [not_or] at escaped
      rw [if_neg fun either => either.elim escaped.1 escaped.2, singleton_append,
        decodeString_cons (cons_ne_nil _ _) (parseEscape_plain _ _ escaped.2), later]
      have value : charValue c % 256 = c.toNat := by
        unfold charValue
        split_ifs <;> omega
      rw [value, Char.ofNat_toNat]

/-! ## The spelling of an argument -/

structure SpelledToken where
  placed : PlacedToken
  text : List Char
  spells : Spells placed.token text

/-- The texts of some tokens, with a space in front of those that follow whitespace. -/
def spaced (shown : SpelledToken → List Char) (whitespace : Bool) : List SpelledToken → List Char
  | [] => []
  | token :: list =>
    (if whitespace then [' '] else []) ++ shown token ++
      spaced shown (nextWhitespace (list.map SpelledToken.placed)) list

def spelling (arg : List SpelledToken) : List Char := spaced SpelledToken.text false arg

def shownSpelling (arg : List SpelledToken) : List Char :=
  spaced (fun token => showToken token.placed.token) false arg

def placedTokens (arg : List SpelledToken) : List PlacedToken := arg.map SpelledToken.placed

structure SourceToken (token : SpelledToken) : Prop where
  bytes : ∀ c ∈ token.text, c.toNat < 256
  plain : Plain token.placed.token

theorem showToken_terminator {token : Token} {text : List Char} (shape : Shape token text) :
    Char.ofNat 0 ∉ showToken token := by
  have cut (text : List Char) : Char.ofNat 0 ∉ cString text := by
    intro member
    have other := mem_takeWhile_imp member
    rw [bne_self_eq_false] at other
    cases other
  cases shape with
  | ident => exact cut _
  | @number c tail starts body =>
    intro member
    change Char.ofNat 0 ∈ (if (c :: tail).length < numberSize then c :: tail else ['1']) at member
    split_ifs at member
    · exact absurd (numberRun_chars (numberRun_starts starts body) _ member) (by decide)
    · exact absurd (mem_singleton.mp member) (by decide)
  | special => exact cut _
  | literal =>
    unfold stringToken
    dsimp only
    split_ifs <;> exact cut _

section

variable {delim : Char} {escape : Bool} {text bytes rest : List Char}
  (eaten : eatLoop delim escape text = some (bytes, rest))
include eaten

theorem eatLoop_parts :
    (text = bytes ++ delim :: rest ∧ '\n' ∉ bytes) ∨ (text = bytes ++ rest ∧ '\n' ∈ bytes) := by
  induction text generalizing escape bytes with
  | nil => cases eaten
  | cons next text ih =>
    unfold eatLoop at eaten
    split_ifs at eaten with closed line
    · cases eaten
      rw [closed.2]
      exact Or.inl ⟨rfl, not_mem_nil⟩
    · cases eaten
      rw [line]
      exact Or.inr ⟨rfl, mem_cons_self⟩
    · obtain ⟨inner, found, same⟩ := Option.map_eq_some_iff.mp eaten
      cases same
      rcases ih found with ⟨whole, plain⟩ | ⟨whole, cut⟩
      · refine Or.inl ⟨congrArg (List.cons next) whole, fun member => ?_⟩
        rcases mem_cons.mp member with same | later
        · exact line same.symm
        · exact plain later
      · exact Or.inr ⟨congrArg (List.cons next) whole, mem_cons_of_mem next cut⟩

theorem eatLoop_mem : ∀ c ∈ bytes, c ∈ text := by
  intro c member
  rcases eatLoop_parts eaten with ⟨rfl, -⟩ | ⟨rfl, -⟩ <;> exact mem_append_left _ member

end

theorem showToken_literal {delim : Char} (quote : isQuote delim = true) (wide : Bool)
    (bytes : List Char) :
    showToken (stringToken delim wide bytes) = showChar (bytes.take maxString) wide delim := by
  rcases quote_cases quote with rfl | rfl
  · unfold stringToken
    dsimp only
    rw [if_pos rfl]
    split_ifs <;> rfl
  · rfl

theorem showToken_bytes {token : Token} {text : List Char} (shape : Shape token text)
    (bytes : ∀ c ∈ text, c.toNat < 256) : ∀ c ∈ showToken token, c.toNat < 256 := by
  cases shape with
  | ident => exact fun c member => bytes c (mem_of_mem_take (mem_cString member))
  | @number c tail =>
    intro d member
    change d ∈ (if (c :: tail).length < numberSize then c :: tail else ['1']) at member
    split_ifs at member
    · exact bytes d member
    · rw [mem_singleton.mp member]
      decide
  | special => exact fun c member => bytes c (mem_cString member)
  | @literal delim wide lead body data quote leads eaten =>
    intro c member
    rw [showToken_literal quote] at member
    have close : delim.toNat < 256 := bytes delim (literal_member delim lead body)
    rcases mem_append.mp (mem_cString member) with first | later
    · cases wide with
      | false => cases first
      | true =>
        rw [mem_singleton.mp first]
        decide
    rcases mem_cons.mp later with rfl | inner
    · exact close
    rcases mem_append.mp inner with inside | last
    · refine bytes c (mem_append_right lead (mem_cons_of_mem delim ?_))
      exact eatLoop_mem eaten c (mem_of_mem_take inside)
    · rw [mem_singleton.mp last]
      exact close

/-! ## The string that is made -/

theorem quoteLoop_spaced {arg : List SpelledToken} (source : ∀ token ∈ arg, SourceToken token)
    {used : Nat} {whitespace : Bool}
    (fits : (quoteLoop used whitespace (placedTokens arg)).2 = true)
    (room : used < maxString) :
    (quoteLoop used whitespace (placedTokens arg)).1 =
        quoteText (spaced (fun token => showToken token.placed.token) whitespace arg) ∧
      used + (quoteLoop used whitespace (placedTokens arg)).1.length < maxString ∧
      ∀ token ∈ arg, (quoteToken token.placed.token).length < maxString := by
  induction arg generalizing used whitespace with
  | nil => exact ⟨rfl, room, fun token member => absurd member not_mem_nil⟩
  | cons token arg ih =>
    have quoted := quoteToken_show token.spells.shape (source token mem_cons_self).plain
    change (quoteLoop used whitespace (token.placed :: placedTokens arg)).2 = true at fits
    change (quoteLoop used whitespace (token.placed :: placedTokens arg)).1 = _ ∧
      used + (quoteLoop used whitespace (token.placed :: placedTokens arg)).1.length < _ ∧ _
    unfold quoteLoop at fits ⊢
    dsimp only at fits ⊢
    by_cases full : used + whitespace.toNat + (quoteToken token.placed.token).length ≥ maxString
    · rw [if_pos full] at fits
      cases fits
    rw [if_neg full] at fits ⊢
    obtain ⟨rest, length, all⟩ := ih
      (fun other member => source other (mem_cons_of_mem token member)) fits
      (Nat.lt_of_not_le full)
    have space : (if whitespace then [' '] else []) =
        quoteText (if whitespace then [' '] else []) := by
      cases whitespace <;> rfl
    refine ⟨?_, ?_, ?_⟩
    · rw [spaced, quoteText_append, quoteText_append, ← space, ← quoted]
      exact congrArg (fun later => (if whitespace then [' '] else []) ++
        quoteToken token.placed.token ++ later) rest
    · have one : (if whitespace then [' '] else []).length = whitespace.toNat := by
        cases whitespace <;> rfl
      rw [length_append, length_append, one]
      omega
    · intro other member
      rcases mem_cons.mp member with rfl | later
      · omega
      · exact all other later

theorem spaced_mem {shown : SpelledToken → List Char} {whitespace : Bool} {arg : List SpelledToken}
    {c : Char} (member : c ∈ spaced shown whitespace arg) :
    c = ' ' ∨ ∃ token ∈ arg, c ∈ shown token := by
  induction arg generalizing whitespace with
  | nil => cases member
  | cons token arg ih =>
    unfold spaced at member
    rcases mem_append.mp member with first | later
    · rcases mem_append.mp first with space | inside
      · cases whitespace with
        | false => cases space
        | true => exact Or.inl (mem_singleton.mp space)
      · exact Or.inr ⟨token, mem_cons_self, inside⟩
    · rcases ih later with space | ⟨other, inside, has⟩
      · exact Or.inl space
      · exact Or.inr ⟨other, mem_cons_of_mem token inside, has⟩

theorem stringify_reads (wcharBits : Nat) {arg : List SpelledToken}
    (source : ∀ token ∈ arg, SourceToken token)
    (fits : (showTokenSequence (placedTokens arg)).2 = true) :
    getStringConstant wcharBits [stringify (placedTokens arg)] =
      (⟨shownSpelling arg, false⟩, []) := by
  obtain ⟨made, length, -⟩ := quoteLoop_spaced source fits (by decide)
  have text : (showTokenSequence (placedTokens arg)).1 = quoteText (shownSpelling arg) := made
  have bytes : ∀ c ∈ shownSpelling arg, c.toNat < 256 := by
    intro c member
    rcases spaced_mem member with rfl | ⟨token, inside, has⟩
    · decide
    · exact showToken_bytes token.spells.shape (source token inside).bytes c has
  have decoded : decodeString bitsInChar (quoteText (shownSpelling arg)) = shownSpelling arg :=
    decode_quoteText bytes
  have room : (quoteText (shownSpelling arg)).length < maxString := by
    rw [← text]
    change 0 + (showTokenSequence (placedTokens arg)).1.length < maxString at length
    rwa [Nat.zero_add] at length
  unfold stringify
  rw [text]
  have parts : stringParts [.string false (quoteText (shownSpelling arg))] =
      ([(false, quoteText (shownSpelling arg))], []) := rfl
  have buffer : (([(false, quoteText (shownSpelling arg))].flatMap fun part => decodeString
      (if [(false, quoteText (shownSpelling arg))].any Prod.fst then wcharBits else bitsInChar)
        part.2).take maxString) = shownSpelling arg := by
    rw [flatMap_singleton]
    change (decodeString bitsInChar (quoteText (shownSpelling arg))).take maxString = _
    rw [decoded]
    exact take_of_length_le
      (Nat.le_trans (quoteText_length _) (Nat.le_of_lt room))
  unfold getStringConstant
  rw [parts]
  dsimp only
  rw [buffer]
  by_cases escaped : '\\' ∈ quoteText (shownSpelling arg)
  · have some : ([(false, quoteText (shownSpelling arg))].any fun part =>
        part.2.contains '\\') = true := by
      rw [any_cons, contains_iff_mem.mpr escaped, Bool.true_or]
    rw [some, Bool.true_or, if_pos rfl]
    rfl
  · have same : quoteText (shownSpelling arg) = shownSpelling arg := by
      refine quoteText_plain fun c member => ?_
      have other : ¬ (c = '"' ∨ c = '\\') := by
        intro either
        refine escaped (mem_flatMap.mpr ⟨c, member, ?_⟩)
        rw [if_pos either]
        exact mem_cons_self
      exact not_or.mp other
    rw [same]
    split_ifs <;> rfl

/-! ## Texts that are kept -/

def isRun (c : Char) : Bool := isNumberChar c || isSign c

def Overlong (text : List Char) : Prop :=
  (∀ c ∈ text, isRun c = true) ∧
    (if (text.head?.any isLetter) = true then identSize else numberSize) ≤ text.length

def UnicodeLiteral (text : List Char) : Prop :=
  ∃ delim body, isQuote delim = true ∧ text = 'u' :: delim :: body

structure Kept (text : List Char) : Prop where
  visible : Char.ofNat 0 ∉ text
  short : ¬ Overlong text
  closed : '\n' ∉ text
  lead : ¬ UnicodeLiteral text

/-- How a token without terminators is shown. -/
inductive Rendered (shown text : List Char) : Prop
  | shorter (overlong : Overlong text) (fewer : shown.countP isRun < text.countP isRun)
  | longer (line : '\n' ∈ text) (count : shown.countP isRun = text.countP isRun)
      (more : text.length < shown.length)
  | changed (unicode : UnicodeLiteral text) (count : shown.countP isRun = text.countP isRun)
      (length : text.length = shown.length) (other : shown ≠ text)
  | same (kept : Kept text) (equal : shown = text)

theorem word_isRun {c : Char} (word : isWord c = true) : isRun c = true := by
  unfold isRun
  rw [word_number word, Bool.true_or]

theorem quote_not_isRun {c : Char} (quote : isQuote c = true) : isRun c = false := by
  rcases quote_cases quote with rfl | rfl <;> decide

theorem word_not_line {c : Char} (run : isRun c = true) : c ≠ '\n' ∧ c ≠ Char.ofNat 0 := by
  constructor
  · rintro rfl
    exact absurd run (by decide)
  · rintro rfl
    exact absurd run (by decide)

/-- A text of one kind of characters is no literal. -/
theorem run_kept {text : List Char} (run : ∀ c ∈ text, isRun c = true)
    (short : ¬ Overlong text) : Kept text := by
  refine ⟨fun member => (word_not_line (run _ member)).2 rfl, short,
    fun member => (word_not_line (run _ member)).1 rfl, ?_⟩
  rintro ⟨delim, body, quote, rfl⟩
  have inside := run delim (mem_cons_of_mem _ mem_cons_self)
  rw [quote_not_isRun quote] at inside
  cases inside

theorem rendered_ident {c : Char} {rest : List Char} (letter : isLetter c = true)
    (words : ∀ d ∈ rest, isWord d = true) (fits : (c :: rest).length ≤ identSize) :
    Rendered (showToken (.ident (c :: rest))) (c :: rest) := by
  have all := ident_words letter words
  have run : ∀ d ∈ c :: rest, isRun d = true := fun d member => word_isRun (all d member)
  rcases Nat.lt_or_ge (c :: rest).length identSize with short | long
  · refine .same (run_kept run fun overlong => ?_) (showIdent_words all short)
    have bound := overlong.2
    rw [List.head?_cons, Option.any_some, letter, if_pos rfl] at bound
    exact absurd bound (Nat.not_le.mpr short)
  · have length : (c :: rest).length = identSize := Nat.le_antisymm fits long
    have none : showToken (.ident (c :: rest)) = [] := by
      change cString ((c :: rest).take ((c :: rest).length % 256)) = []
      rw [length]
      rfl
    refine .shorter ⟨run, ?_⟩ ?_
    · rw [List.head?_cons, Option.any_some, letter, if_pos rfl]
      exact long
    · rw [none, countP_nil, countP_pos_iff]
      exact ⟨c, mem_cons_self, run c mem_cons_self⟩

theorem rendered_number {c : Char} {tail : List Char} (starts : StartsNumber c tail)
    (run : numberRun false (c :: tail) = true) :
    Rendered (if (c :: tail).length < numberSize then c :: tail else ['1']) (c :: tail) := by
  have all : ∀ d ∈ c :: tail, isRun d = true := fun d member =>
    Bool.or_eq_true_iff.mpr (numberRun_chars run d member)
  have letter : isLetter c = false := by
    cases letter : isLetter c with
    | false => rfl
    | true =>
      rcases starts with digit | ⟨rfl, -⟩
      · rw [letter_not_digit letter] at digit
        cases digit
      · cases letter
  rcases Nat.lt_or_ge (c :: tail).length numberSize with short | long
  · rw [if_pos short]
    refine .same (run_kept all fun overlong => ?_) rfl
    have bound := overlong.2
    rw [List.head?_cons, Option.any_some, letter, if_neg Bool.false_ne_true] at bound
    exact absurd bound (Nat.not_le.mpr short)
  · rw [if_neg (Nat.not_lt.mpr long)]
    refine .shorter ⟨all, ?_⟩ ?_
    · rw [List.head?_cons, Option.any_some, letter, if_neg Bool.false_ne_true]
      exact long
    · rw [countP_eq_length.mpr all]
      exact Nat.lt_of_lt_of_le (by decide) long

theorem special_short (value : Special) : value.text.length < 4 := by
  cases value with
  | single c => exact (by decide : 1 < 4)
  | combination value => exact combination_length value

theorem rendered_special {value : Special} (proper : value.Proper)
    (visible : Char.ofNat 0 ∉ value.text) : Rendered (showSpecial value) value.text := by
  have lones := special_lone proper
  refine .same ⟨visible, fun overlong => ?_, fun line => ?_, ?_⟩ (cString_visible visible)
  · have bound := overlong.2
    have short := special_short value
    have large : 4 ≤ if (value.text.head?.any isLetter) = true then identSize else numberSize := by
      split_ifs <;> decide
    exact absurd (Nat.le_trans large bound) (Nat.not_le.mpr short)
  · exact absurd (lones '\n' line).visible (by decide)
  · rintro ⟨delim, body, -, text⟩
    have lone := lones 'u' (text ▸ mem_cons_self)
    exact absurd lone.letter (by decide)

/-- A literal is shown with its bytes, a long prefix and both delimiters. -/
theorem rendered_literal {delim : Char} {wide : Bool} {lead body bytes : List Char}
    (quote : isQuote delim = true) (leads : LeadsLiteral wide lead)
    (eaten : eatLoop delim false body = some (bytes, []))
    (visible : Char.ofNat 0 ∉ lead ++ delim :: body)
    (fits : (showToken (stringToken delim wide bytes)).length < maxString) :
    Rendered (showToken (stringToken delim wide bytes)) (lead ++ delim :: body) := by
  rw [showToken_literal quote] at fits ⊢
  have inside : ∀ c ∈ bytes, c ∈ lead ++ delim :: body := fun c member =>
    mem_append_right lead (mem_cons_of_mem delim (eatLoop_mem eaten c member))
  have clean : Char.ofNat 0 ∉
      (if wide then ['L'] else []) ++ delim :: (bytes.take maxString ++ [delim]) := by
    intro member
    have close : Char.ofNat 0 ≠ delim := by
      rcases quote_cases quote with rfl | rfl <;> decide
    rcases mem_append.mp member with first | later
    · cases wide with
      | false => cases first
      | true => exact absurd (mem_singleton.mp first) (by decide)
    rcases mem_cons.mp later with same | inner
    · exact close same
    rcases mem_append.mp inner with byte | last
    · exact visible (inside _ (mem_of_mem_take byte))
    · exact close (mem_singleton.mp last)
  have shown : showChar (bytes.take maxString) wide delim =
      (if wide then ['L'] else []) ++ delim :: (bytes.take maxString ++ [delim]) :=
    cString_visible clean
  have whole : bytes.take maxString = bytes := by
    rw [shown, length_append, length_cons, length_append, length_take] at fits
    exact take_of_length_le (by omega)
  rw [shown, whole]
  have none : isRun delim = false := quote_not_isRun quote
  have count : ((if wide then ['L'] else []) ++ delim :: (bytes ++ [delim])).countP isRun =
      (lead ++ delim :: body).countP isRun := by
    have first : (if wide then ['L'] else []).countP isRun = lead.countP isRun := by
      cases wide with
      | false => exact congrArg (List.countP isRun) (Eq.symm leads)
      | true => rcases leads with rfl | rfl <;> rfl
    have last : (bytes ++ [delim]).countP isRun = body.countP isRun := by
      rcases eatLoop_parts eaten with ⟨rfl, -⟩ | ⟨rfl, -⟩
      · rfl
      · rw [append_nil, countP_append, countP_singleton, none]
        rfl
    rw [countP_append, countP_append, first, countP_cons, countP_cons, last]
  have same : (if wide then ['L'] else []).length = lead.length := by
    cases wide with
    | false => exact congrArg List.length (Eq.symm leads)
    | true => rcases leads with rfl | rfl <;> rfl
  rcases eatLoop_parts eaten with ⟨split, plain⟩ | ⟨split, cut⟩
  · have closed : '\n' ∉ lead ++ delim :: body := by
      have other : '\n' ≠ delim := by
        rcases quote_cases quote with rfl | rfl <;> decide
      intro member
      rcases mem_append.mp member with first | later
      · cases wide with
        | false =>
          obtain rfl : lead = [] := leads
          cases first
        | true => rcases leads with rfl | rfl <;> exact absurd first (by decide)
      rcases mem_cons.mp later with same | inner
      · exact other same
      rw [split] at inner
      rcases mem_append.mp inner with byte | last
      · exact plain byte
      · exact other (mem_singleton.mp last)
    have short : ¬ Overlong (lead ++ delim :: body) := by
      intro overlong
      have run := overlong.1 delim (literal_member delim lead body)
      rw [none] at run
      cases run
    by_cases unicode : UnicodeLiteral (lead ++ delim :: body)
    · refine .changed unicode count ?_ ?_
      · rw [split, length_append, length_append, same]
      · obtain ⟨other, rest, quote', text⟩ := unicode
        rw [text]
        intro equal
        cases wide with
        | false =>
          have head : delim = 'u' := (List.cons.inj equal).1
          rw [head] at quote
          cases quote
        | true => exact absurd (List.cons.inj equal).1 (by decide)
    · refine .same ⟨visible, short, closed, unicode⟩ ?_
      have equal : (if wide then ['L'] else []) = lead := by
        cases wide with
        | false => exact Eq.symm leads
        | true =>
          rcases leads with rfl | rfl
          · rfl
          · exact absurd ⟨delim, body, quote, rfl⟩ unicode
      rw [equal, split]
  · refine .longer ?_ count ?_
    · rw [split, append_nil]
      exact mem_append_right lead (mem_cons_of_mem delim cut)
    · rw [split, append_nil, length_append, length_append, same, length_cons,
        length_cons, length_append]
      exact Nat.lt_succ_self _

theorem showToken_rendered {token : Token} {text : List Char} (shape : Shape token text)
    (visible : Char.ofNat 0 ∉ text) (fits : (showToken token).length < maxString) :
    Rendered (showToken token) text := by
  cases shape with
  | ident letter words small => exact rendered_ident letter words small
  | number starts body => exact rendered_number starts (numberRun_starts starts body)
  | special proper => exact rendered_special proper visible
  | literal quote leads eaten => exact rendered_literal quote leads eaten visible fits

section Spaced

variable {first second : SpelledToken → List Char}

theorem spaced_count (q : Char → Bool) (whitespace : Bool) {arg : List SpelledToken}
    (le : ∀ token ∈ arg, (first token).countP q ≤ (second token).countP q) :
    (spaced first whitespace arg).countP q ≤ (spaced second whitespace arg).countP q := by
  induction arg generalizing whitespace with
  | nil => exact Nat.le_refl _
  | cons token arg ih =>
    have later := ih (nextWhitespace (arg.map SpelledToken.placed))
      fun other member => le other (mem_cons_of_mem token member)
    rw [spaced, spaced, countP_append, countP_append, countP_append,
      countP_append]
    exact Nat.add_le_add (Nat.add_le_add_left (le token mem_cons_self) _) later

theorem spaced_balance (q : Char → Bool) {whitespace : Bool} {arg : List SpelledToken}
    (le : ∀ token ∈ arg, (first token).countP q ≤ (second token).countP q)
    (same : (spaced first whitespace arg).countP q = (spaced second whitespace arg).countP q) :
    ∀ token ∈ arg, (first token).countP q = (second token).countP q := by
  induction arg generalizing whitespace with
  | nil => exact fun token member => absurd member not_mem_nil
  | cons token arg ih =>
    have rest : ∀ other ∈ arg, (first other).countP q ≤ (second other).countP q :=
      fun other member => le other (mem_cons_of_mem token member)
    have later := spaced_count q (nextWhitespace (arg.map SpelledToken.placed)) rest
    have one := le token mem_cons_self
    rw [spaced, spaced, countP_append, countP_append, countP_append,
      countP_append] at same
    intro other member
    rcases mem_cons.mp member with rfl | inside
    · omega
    · exact ih rest (Nat.le_antisymm later (by omega)) other inside

theorem spaced_parts {whitespace : Bool} {arg : List SpelledToken}
    (lengths : ∀ token ∈ arg, (first token).length = (second token).length)
    (same : spaced first whitespace arg = spaced second whitespace arg) :
    ∀ token ∈ arg, first token = second token := by
  induction arg generalizing whitespace with
  | nil => exact fun token member => absurd member not_mem_nil
  | cons token arg ih =>
    rw [spaced, spaced, append_assoc, append_assoc, append_cancel_left_eq] at same
    obtain ⟨one, later⟩ := append_inj same (lengths token mem_cons_self)
    intro other member
    rcases mem_cons.mp member with rfl | inside
    · exact one
    · exact ih (fun other member => lengths other (mem_cons_of_mem token member)) later other
        inside

theorem spaced_congr {whitespace : Bool} {arg : List SpelledToken}
    (same : ∀ token ∈ arg, first token = second token) :
    spaced first whitespace arg = spaced second whitespace arg := by
  induction arg generalizing whitespace with
  | nil => rfl
  | cons token arg ih =>
    rw [spaced, spaced, same token mem_cons_self,
      ih fun other member => same other (mem_cons_of_mem token member)]

theorem mem_spaced {shown : SpelledToken → List Char} {arg : List SpelledToken}
    {token : SpelledToken} (member : token ∈ arg) {c : Char} (has : c ∈ shown token)
    (whitespace : Bool) : c ∈ spaced shown whitespace arg := by
  induction arg generalizing whitespace with
  | nil => cases member
  | cons other arg ih =>
    rw [spaced]
    rcases mem_cons.mp member with rfl | inside
    · exact mem_append_left _ (mem_append_right _ has)
    · exact mem_append_right _ (ih inside _)

end Spaced

/-- What is shown is the spelling exactly when each text is kept. -/
theorem shownSpelling_iff {arg : List SpelledToken}
    (fits : ∀ token ∈ arg, (showToken token.placed.token).length < maxString) :
    shownSpelling arg = spelling arg ↔ ∀ token ∈ arg, Kept token.text := by
  constructor
  · intro same
    have rendered : ∀ token ∈ arg,
        Rendered (showToken token.placed.token) token.text := by
      intro token member
      refine showToken_rendered token.spells.shape (fun terminator => ?_) (fits token member)
      have inside : Char.ofNat 0 ∈ spelling arg := mem_spaced member terminator false
      rw [← same] at inside
      rcases spaced_mem inside with space | ⟨other, -, has⟩
      · exact absurd space (by decide)
      · exact showToken_terminator other.spells.shape has
    have runs := spaced_balance isRun (fun token member => by
      cases rendered token member with
      | shorter _ fewer => exact Nat.le_of_lt fewer
      | longer _ count => exact Nat.le_of_eq count
      | changed _ count => exact Nat.le_of_eq count
      | same _ equal => exact Nat.le_of_eq (congrArg (List.countP isRun) equal))
      (congrArg (List.countP isRun) same)
    -- nothing is shorter, so the lengths are those of the texts
    have lengths := spaced_balance (fun _ => true) (fun token member => by
      rw [countP_true]
      cases rendered token member with
      | shorter _ fewer => exact absurd (runs token member) (Nat.ne_of_lt fewer)
      | longer _ _ more => exact Nat.le_of_lt more
      | changed _ _ length => exact Nat.le_of_eq length
      | same _ equal => exact Nat.le_of_eq (congrArg List.length equal).symm)
      (congrArg (List.countP fun _ => true) same.symm)
    have parts := spaced_parts (fun token member => by
      have length := lengths token member
      rw [countP_true] at length
      exact length.symm) same
    intro token member
    cases rendered token member with
    | shorter _ fewer => exact absurd (runs token member) (Nat.ne_of_lt fewer)
    | longer _ _ more =>
      have length := lengths token member
      rw [countP_true] at length
      exact absurd length (Nat.ne_of_lt more)
    | changed _ _ _ other => exact absurd (parts token member) other
    | same kept => exact kept
  · intro kept
    refine spaced_congr fun token member => ?_
    have all := kept token member
    cases showToken_rendered token.spells.shape all.visible (fits token member) with
    | shorter overlong => exact absurd overlong all.short
    | longer line => exact absurd line all.closed
    | changed unicode => exact absurd unicode all.lead
    | same _ equal => exact equal

/-- The string of an argument is read as the spelling of the argument exactly when the text of each
token is kept. -/
theorem stringify_spelling_iff (wcharBits : Nat) {arg : List SpelledToken}
    (source : ∀ token ∈ arg, SourceToken token)
    (fits : (showTokenSequence (placedTokens arg)).2 = true) :
    getStringConstant wcharBits [stringify (placedTokens arg)] = (⟨spelling arg, false⟩, []) ↔
      ∀ token ∈ arg, Kept token.text := by
  obtain ⟨-, -, lengths⟩ := quoteLoop_spaced source fits (by decide)
  have shown : ∀ token ∈ arg, (showToken token.placed.token).length < maxString := by
    intro token member
    have quoted := quoteToken_show token.spells.shape (source token member).plain
    have length := lengths token member
    rw [quoted] at length
    exact Nat.lt_of_le_of_lt (quoteText_length _) length
  rw [stringify_reads wcharBits source fits, ← shownSpelling_iff shown]
  constructor
  · intro same
    exact congrArg (fun result : StringExpr × List Token => result.1.string) same
  · intro same
    rw [same]

def spelledToken (token : Token) (whitespace : Bool) (text : List Char)
    (spells : Spells token text) :
    SpelledToken := ⟨⟨token, false, whitespace⟩, text, spells⟩

def quotedArg : List SpelledToken :=
  [spelledToken (.ident ['a']) false ['a'] ⟨by decide, rfl⟩,
    spelledToken (.string false ['\\', '"', 'b']) true ['"', '\\', '"', 'b', '"'] ⟨by decide, rfl⟩]

theorem quotedArg_source : ∀ token ∈ quotedArg, SourceToken token := by
  intro token member
  simp only [quotedArg, mem_cons, not_mem_nil, or_false] at member
  rcases member with rfl | rfl
  · refine ⟨fun c inside => ?_, fun same => by cases same⟩
    rw [mem_singleton.mp inside]
    decide
  · refine ⟨fun c inside => ?_, fun same => by cases same⟩
    simp only [spelledToken, mem_cons, not_mem_nil, or_false] at inside
    rcases inside with rfl | rfl | rfl | rfl | rfl <;> decide

theorem stringify_quoted :
    (showTokenSequence (placedTokens quotedArg)).2 = true ∧
      (getStringConstant 32 [stringify (placedTokens quotedArg)] =
        (⟨spelling quotedArg, false⟩, []) ↔
        ∀ token ∈ quotedArg, Kept token.text) :=
  ⟨by decide, stringify_spelling_iff 32 quotedArg_source (by decide)⟩

def unicodeArg : List SpelledToken :=
  [spelledToken (.embedded true ['x']) false ['u', '\'', 'x', '\''] ⟨by decide, rfl⟩]

theorem unicodeArg_source : ∀ token ∈ unicodeArg, SourceToken token := by
  intro token member
  rw [mem_singleton.mp member]
  refine ⟨fun c inside => ?_, fun same => by cases same⟩
  simp only [spelledToken, mem_cons, not_mem_nil, or_false] at inside
  rcases inside with rfl | rfl | rfl | rfl <;> decide

/-- The letter of a Unicode literal is lost. -/
theorem stringify_unicode :
    (∀ token ∈ unicodeArg, SourceToken token) ∧
      (showTokenSequence (placedTokens unicodeArg)).2 = true ∧
      spelling unicodeArg = ['u', '\'', 'x', '\''] ∧
      getStringConstant 32 [stringify (placedTokens unicodeArg)] =
        (⟨['L', '\'', 'x', '\''], false⟩, []) := by
  refine ⟨unicodeArg_source, by decide, rfl, ?_⟩
  rw [stringify_reads 32 unicodeArg_source (by decide)]
  rfl

end SmatchFormal.Tokenizer
