import SmatchFormal.Tokenizer.Tokens
import Mathlib.Data.List.Basic

/-!
# The bytes of a string

`show_string` writes the bytes of a string as a literal, and `get_string_constant` finds the bytes
of a literal.
-/

namespace SmatchFormal.Tokenizer

open SmatchFormal.Lib List

def charValue (c : Char) : Nat := if c.toNat < 128 then c.toNat else c.toNat + (2 ^ 32 - 256)

def octalDigit (c : Char) : Option Nat :=
  if '0'.toNat ≤ c.toNat ∧ c.toNat ≤ '7'.toNat then some (c.toNat - '0'.toNat) else none

def octalLoop (value : Nat) : Nat → List Char → Nat × List Char
  | _, [] => (value, [])
  | 0, c :: rest => (value, c :: rest)
  | room + 1, c :: rest =>
    match octalDigit c with
    | some digit => octalLoop (8 * value + digit) room rest
    | none => (value, c :: rest)

def hexLoop (value : Nat) : List Char → Nat × List Char
  | [] => (value, [])
  | c :: rest =>
    match Strtol.digitOf 16 c with
    | some digit => hexLoop ((16 * value + digit) % 2 ^ 32) rest
    | none => (value, c :: rest)

/-- The cases of `parse_escape` for the character behind the backslash. -/
def escapeValue (c : Char) (rest : List Char) : Nat × List Char :=
  if c = 'a' then (7, rest)
  else if c = 'b' then (8, rest)
  else if c = 't' then (9, rest)
  else if c = 'n' then (10, rest)
  else if c = 'v' then (11, rest)
  else if c = 'f' then (12, rest)
  else if c = 'r' then (13, rest)
  else if c = 'e' then (27, rest)
  else if c = 'x' then hexLoop 0 rest
  else
    match octalDigit c with
    | some digit => octalLoop digit 2 rest
    | none => (charValue c, rest)

/-- A backslash at the end is followed by the terminator of the string. -/
def parseEscape (bits : Nat) : List Char → Nat × List Char
  | [] => (0, [])
  | ['\\'] => (0, [])
  | '\\' :: c :: rest => ((escapeValue c rest).1 % 2 ^ bits, (escapeValue c rest).2)
  | c :: rest => (charValue c, rest)

theorem octalLoop_length (value room : Nat) (text : List Char) :
    (octalLoop value room text).2.length ≤ text.length := by
  induction text generalizing value room with
  | nil => cases room <;> exact Nat.le_refl _
  | cons c text ih =>
    cases room with
    | zero => exact Nat.le_refl _
    | succ room =>
      unfold octalLoop
      cases octalDigit c with
      | none => exact Nat.le_refl _
      | some digit => exact Nat.le_succ_of_le (ih _ room)

theorem hexLoop_length (value : Nat) (text : List Char) :
    (hexLoop value text).2.length ≤ text.length := by
  induction text generalizing value with
  | nil => exact Nat.le_refl _
  | cons c text ih =>
    unfold hexLoop
    cases Strtol.digitOf 16 c with
    | none => exact Nat.le_refl _
    | some digit => exact Nat.le_succ_of_le (ih _)

theorem length_ite {test : Prop} [Decidable test] {first second : Nat × List Char} {bound : Nat}
    (one : first.2.length ≤ bound) (two : second.2.length ≤ bound) :
    (if test then first else second).2.length ≤ bound := by
  by_cases holds : test
  · rw [if_pos holds]
    exact one
  · rw [if_neg holds]
    exact two

theorem escapeValue_length (c : Char) (rest : List Char) :
    (escapeValue c rest).2.length ≤ rest.length := by
  have same : rest.length ≤ rest.length := Nat.le_refl _
  unfold escapeValue
  refine length_ite same (length_ite same (length_ite same (length_ite same (length_ite same
    (length_ite same (length_ite same (length_ite same
      (length_ite (hexLoop_length 0 rest) ?_))))))))
  cases octalDigit c with
  | none => exact same
  | some digit => exact octalLoop_length digit 2 rest

theorem parseEscape_length (bits : Nat) (c : Char) (text : List Char) :
    (parseEscape bits (c :: text)).2.length < (c :: text).length := by
  unfold parseEscape
  split
  · rename_i same
    cases same
  · exact Nat.succ_pos _
  · rename_i same
    cases same
    exact Nat.lt_succ_of_le (Nat.le_succ_of_le (escapeValue_length _ _))
  · rename_i same
    cases same
    exact Nat.lt_succ_self _

/-- The loop over one string, with what `buffer[len] = v` keeps of a value. -/
def decodeString (bits : Nat) : List Char → List Char
  | [] => []
  | c :: text =>
    Char.ofNat ((parseEscape bits (c :: text)).1 % 256) ::
      decodeString bits (parseEscape bits (c :: text)).2
termination_by text => text.length
decreasing_by exact parseEscape_length bits c text

def stringParts : List Token → List (Bool × List Char) × List Token
  | .string wide data :: tokens => ((wide, data) :: (stringParts tokens).1, (stringParts tokens).2)
  | tokens => ([], tokens)

structure StringExpr where
  string : List Char
  wide : Bool
  deriving DecidableEq, Repr

def bitsInChar : Nat := 8

/-- The first string is kept when there is nothing to decode and nothing behind it. -/
def getStringConstant (wcharBits : Nat) (tokens : List Token) : StringExpr × List Token :=
  let parts := (stringParts tokens).1
  let wide := parts.any Prod.fst
  let buffer := (parts.flatMap fun part =>
    decodeString (if wide then wcharBits else bitsInChar) part.2).take maxString
  let first := (parts.head?.map Prod.snd).getD []
  let string := if (parts.any fun part => part.2.contains '\\') || first.length < buffer.length then
    buffer else first
  (⟨string, wide⟩, (stringParts tokens).2)

def isPrint (c : Char) : Bool := decide (32 ≤ c.toNat) && decide (c.toNat ≤ 126)

def octalText (n : Nat) : List Char := Nat.toDigits 8 n

def octalText3 (n : Nat) : List Char :=
  List.replicate (3 - (octalText n).length) '0' ++ octalText n

def charstr (c escape next : Char) : List Char :=
  if isPrint c then if c = escape ∨ c = '\\' then ['\\', c] else [c]
  else if c = '\n' then ['\\', 'n']
  else if c = '\t' then ['\\', 't']
  else '\\' :: if next.isDigit then octalText3 c.toNat else octalText c.toNat

/-- The loop of `show_string`.  The last byte is followed by the terminator. -/
def showChars : List Char → List Char
  | [] => []
  | c :: rest => charstr c '"' (rest.headD (Char.ofNat 0)) ++ showChars rest

/-- `show_string` of a string, or of none or one of length zero. -/
def showString : Option (List Char) → List Char
  | none => "<bad_string>".toList
  | some data => '"' :: (showChars data ++ ['"'])

theorem octalDigit_digitChar : ∀ d < 8, octalDigit d.digitChar = some d := by decide

theorem octalText_eq : ∀ n < 256, octalText n =
    if n < 8 then [n.digitChar]
    else if n < 64 then [(n / 8).digitChar, (n % 8).digitChar]
    else [(n / 64).digitChar, (n / 8 % 8).digitChar, (n % 8).digitChar] := by
  intro n small
  unfold octalText
  split
  · rename_i one
    exact Nat.toDigits_of_lt_base one
  rw [Nat.toDigits_of_base_le (by decide) (by omega)]
  split
  · rw [Nat.toDigits_of_lt_base (by omega)]
    rfl
  rw [Nat.toDigits_of_base_le (by decide) (by omega), Nat.toDigits_of_lt_base (by omega),
    Nat.div_div_eq_div_mul]
  rfl

theorem octalText3_eq : ∀ n < 256, octalText3 n =
    [(n / 64).digitChar, (n / 8 % 8).digitChar, (n % 8).digitChar] := by
  intro n small
  unfold octalText3
  rw [octalText_eq n small]
  split
  · rw [show n / 64 = 0 by omega, show n / 8 % 8 = 0 by omega, show n % 8 = n by omega]
    rfl
  split
  · rw [show n / 64 = 0 by omega, show n / 8 % 8 = n / 8 by omega]
    rfl
  rfl

def NoOctal (text : List Char) : Prop := ∀ c ∈ text.head?, octalDigit c = none

theorem octalLoop_stop {value room : Nat} {text : List Char} (ends : NoOctal text) :
    octalLoop value room text = (value, text) := by
  cases text with
  | nil => cases room <;> rfl
  | cons c text =>
    cases room with
    | zero => rfl
    | succ room =>
      unfold octalLoop
      rw [ends c rfl]

theorem octalLoop_digit {value room d : Nat} (small : d < 8) (text : List Char) :
    octalLoop value (room + 1) (d.digitChar :: text) = octalLoop (8 * value + d) room text := by
  rw [octalLoop, octalDigit_digitChar d small]

theorem octalLoop_zero (value : Nat) (text : List Char) :
    octalLoop value 0 text = (value, text) := by
  cases text <;> rfl

theorem escapeValue_octal {d : Nat} (small : d < 8) (rest : List Char) :
    escapeValue d.digitChar rest = octalLoop d 2 rest := by
  have plain : ∀ d < 8, d.digitChar ≠ 'a' ∧ d.digitChar ≠ 'b' ∧ d.digitChar ≠ 't' ∧
      d.digitChar ≠ 'n' ∧ d.digitChar ≠ 'v' ∧ d.digitChar ≠ 'f' ∧ d.digitChar ≠ 'r' ∧
      d.digitChar ≠ 'e' ∧ d.digitChar ≠ 'x' := by
    decide
  obtain ⟨a, b, t, n, v, f, r, e, x⟩ := plain d small
  unfold escapeValue
  rw [if_neg a, if_neg b, if_neg t, if_neg n, if_neg v, if_neg f, if_neg r, if_neg e, if_neg x,
    octalDigit_digitChar d small]

theorem escapeValue_three {n : Nat} (small : n < 256) (tail : List Char) :
    escapeValue (n / 64).digitChar ((n / 8 % 8).digitChar :: (n % 8).digitChar :: tail) =
      (n, tail) := by
  have number : 8 * (8 * (n / 64) + n / 8 % 8) + n % 8 = n := by omega
  rw [escapeValue_octal (by omega), octalLoop_digit (by omega), octalLoop_digit (by omega),
    octalLoop_zero, number]

theorem escapeValue_two {n : Nat} (small : n < 64) {tail : List Char} (ends : NoOctal tail) :
    escapeValue (n / 8).digitChar ((n % 8).digitChar :: tail) = (n, tail) := by
  rw [escapeValue_octal (by omega), octalLoop_digit (by omega), octalLoop_stop ends,
    Nat.div_add_mod n 8]

theorem escapeValue_one {n : Nat} (small : n < 8) {tail : List Char} (ends : NoOctal tail) :
    escapeValue n.digitChar tail = (n, tail) := by
  rw [escapeValue_octal small, octalLoop_stop ends]

theorem parseEscape_value {c : Char} {rest tail : List Char} {n : Nat} (small : n < 256)
    (read : escapeValue c rest = (n, tail)) :
    parseEscape bitsInChar ('\\' :: c :: rest) = (n, tail) := by
  have value : n % 2 ^ bitsInChar = n := Nat.mod_eq_of_lt small
  have step : parseEscape bitsInChar ('\\' :: c :: rest) =
      ((escapeValue c rest).1 % 2 ^ bitsInChar, (escapeValue c rest).2) := rfl
  rw [step, read, value]

/-- An octal escape is read back, when no digit follows or it has three of them. -/
theorem parseEscape_octal {n : Nat} (small : n < 256) (padded : Bool) {tail : List Char}
    (ends : padded = false → NoOctal tail) :
    parseEscape bitsInChar
        ('\\' :: ((if padded then octalText3 n else octalText n) ++ tail)) = (n, tail) := by
  cases padded with
  | true =>
    rw [if_pos rfl, octalText3_eq n small]
    exact parseEscape_value small (escapeValue_three small tail)
  | false =>
    have stops := ends rfl
    rw [if_neg Bool.false_ne_true, octalText_eq n small]
    by_cases one : n < 8
    · rw [if_pos one]
      exact parseEscape_value small (escapeValue_one one stops)
    rw [if_neg one]
    by_cases two : n < 64
    · rw [if_pos two]
      exact parseEscape_value small (escapeValue_two two stops)
    · rw [if_neg two]
      exact parseEscape_value small (escapeValue_three small tail)

theorem charValue_small {c : Char} (small : c.toNat < 128) : charValue c = c.toNat := if_pos small

theorem parseEscape_plain (bits : Nat) {c : Char} (rest : List Char) (plain : c ≠ '\\') :
    parseEscape bits (c :: rest) = (charValue c, rest) := by
  unfold parseEscape
  split
  · rename_i same
    cases same
  · rename_i same
    cases same
    exact absurd rfl plain
  · rename_i same
    cases same
    exact absurd rfl plain
  · rename_i same
    cases same
    rfl

theorem parseEscape_charstr {c next : Char} (byte : c.toNat < 256) {tail : List Char}
    (ends : next.isDigit = false → NoOctal tail) :
    parseEscape bitsInChar (charstr c '"' next ++ tail) = (c.toNat, tail) := by
  unfold charstr
  by_cases print : isPrint c = true
  · have small : c.toNat < 128 := by
      have bounds := (Bool.and_eq_true_iff.mp print).2
      have high := of_decide_eq_true bounds
      omega
    rw [if_pos print]
    by_cases escaped : c = '"' ∨ c = '\\'
    · rw [if_pos escaped]
      rcases escaped with rfl | rfl <;> rfl
    · rw [if_neg escaped, singleton_append,
        parseEscape_plain _ tail fun same => escaped (Or.inr same), charValue_small small]
  · rw [if_neg print]
    by_cases feed : c = '\n'
    · rw [if_pos feed, feed]
      rfl
    rw [if_neg feed]
    by_cases tab : c = '\t'
    · rw [if_pos tab, tab]
      rfl
    rw [if_neg tab]
    exact parseEscape_octal byte next.isDigit ends

/-- A written byte starts with an octal digit only when it is one. -/
theorem charstr_head {c : Char} (escape next : Char) (other : c.isDigit = false)
    (tail : List Char) :
    NoOctal (charstr c escape next ++ tail) := by
  have plain : octalDigit c = none := by
    unfold octalDigit
    rw [if_neg]
    rintro ⟨low, high⟩
    have decimal : c.isDigit = true := by
      rw [Char.isDigit_iff_toNat]
      exact ⟨low, Nat.le_trans high (by decide)⟩
    rw [other] at decimal
    cases decimal
  intro d head
  unfold charstr at head
  split_ifs at head
  · obtain rfl := Option.some.inj head
    rfl
  · obtain rfl := Option.some.inj head
    exact plain
  · obtain rfl := Option.some.inj head
    rfl
  · obtain rfl := Option.some.inj head
    rfl
  · obtain rfl := Option.some.inj head
    rfl
  · obtain rfl := Option.some.inj head
    rfl

theorem showChars_noOctal {data : List Char}
    (other : (data.headD (Char.ofNat 0)).isDigit = false) : NoOctal (showChars data) := by
  cases data with
  | nil =>
    intro c head
    cases head
  | cons c rest => exact charstr_head '"' _ other _

theorem charstr_nonempty (c escape next : Char) : charstr c escape next ≠ [] := by
  unfold charstr
  split_ifs <;> exact cons_ne_nil _ _

theorem decodeString_cons {bits : Nat} {text rest : List Char} {value : Nat} (nonempty : text ≠ [])
    (read : parseEscape bits text = (value, rest)) :
    decodeString bits text = Char.ofNat (value % 256) :: decodeString bits rest := by
  cases text with
  | nil => exact absurd rfl nonempty
  | cons c text => rw [decodeString, read]

theorem decode_showChars (data : List Char) (bytes : ∀ c ∈ data, c.toNat < 256) :
    decodeString bitsInChar (showChars data) = data := by
  induction data with
  | nil =>
    unfold showChars
    rw [decodeString]
  | cons c rest ih =>
    have byte := bytes c mem_cons_self
    have read := @parseEscape_charstr c (rest.headD (Char.ofNat 0)) byte (showChars rest)
      showChars_noOctal
    have nonempty : charstr c '"' (rest.headD (Char.ofNat 0)) ++ showChars rest ≠ [] :=
      append_ne_nil_of_left_ne_nil (charstr_nonempty _ _ _) _
    unfold showChars
    rw [decodeString_cons nonempty read, Nat.mod_eq_of_lt byte, Char.ofNat_toNat,
      ih fun d member => bytes d (mem_cons_of_mem c member)]

theorem decode_plain (bits : Nat) (text : List Char)
    (plain : ∀ c ∈ text, c ≠ '\\' ∧ c.toNat < 256) : decodeString bits text = text := by
  induction text with
  | nil => rw [decodeString]
  | cons c text ih =>
    obtain ⟨other, byte⟩ := plain c mem_cons_self
    have value : charValue c % 256 = c.toNat := by
      unfold charValue
      split_ifs <;> omega
    rw [decodeString_cons (cons_ne_nil c text) (parseEscape_plain bits text other), value,
      Char.ofNat_toNat, ih fun d member => plain d (mem_cons_of_mem c member)]

theorem showChars_length (data : List Char) : data.length ≤ (showChars data).length := by
  induction data with
  | nil => exact Nat.le_refl 0
  | cons c rest ih =>
    have one := length_pos_iff.mpr (charstr_nonempty c '"' (rest.headD (Char.ofNat 0)))
    unfold showChars
    rw [length_append, length_cons]
    omega

theorem eatLoop_plain {delim c : Char} (rest : List Char) (other : c ≠ delim) (feed : c ≠ '\n')
    (backslash : c ≠ '\\') :
    eatLoop delim false (c :: rest) =
      (eatLoop delim false rest).map fun eaten => (c :: eaten.1, eaten.2) := by
  rw [eatLoop, if_neg fun both => other both.2, if_neg feed, beq_false_of_ne backslash]
  rfl

theorem eatLoop_escaped {delim c : Char} (rest : List Char) (other : delim ≠ '\\')
    (feed : c ≠ '\n') :
    eatLoop delim false ('\\' :: c :: rest) =
      (eatLoop delim false rest).map fun eaten => ('\\' :: c :: eaten.1, eaten.2) := by
  rw [eatLoop, if_neg fun both => other both.2.symm, if_neg (by decide)]
  change (eatLoop delim true (c :: rest)).map _ = _
  rw [eatLoop, if_neg fun both => Bool.false_ne_true both.1.symm, if_neg feed, Option.map_map]
  rfl

theorem eatLoop_run {delim : Char} (run rest : List Char)
    (plain : ∀ c ∈ run, c ≠ delim ∧ c ≠ '\n' ∧ c ≠ '\\') :
    eatLoop delim false (run ++ rest) =
      (eatLoop delim false rest).map fun eaten => (run ++ eaten.1, eaten.2) := by
  induction run with
  | nil => exact Option.map_id'.symm
  | cons c run ih =>
    obtain ⟨other, feed, backslash⟩ := plain c mem_cons_self
    rw [cons_append, eatLoop_plain _ other feed backslash,
      ih fun d member => plain d (mem_cons_of_mem c member), Option.map_map]
    rfl

theorem octal_member {n : Nat} (small : n < 256) (padded : Bool) :
    ∀ d ∈ (if padded then octalText3 n else octalText n), ∃ k < 8, d = k.digitChar := by
  have low : ∃ k < 8, (n % 8).digitChar = k.digitChar := ⟨n % 8, by omega, rfl⟩
  have middle : ∃ k < 8, (n / 8 % 8).digitChar = k.digitChar := ⟨n / 8 % 8, by omega, rfl⟩
  have high : ∃ k < 8, (n / 64).digitChar = k.digitChar := ⟨n / 64, by omega, rfl⟩
  intro d member
  rw [octalText3_eq n small, octalText_eq n small] at member
  split_ifs at member with long one two
  all_goals
    simp only [mem_cons, not_mem_nil, or_false] at member
  · rcases member with rfl | rfl | rfl <;> assumption
  · exact ⟨n, one, member⟩
  · rcases member with rfl | rfl
    · exact ⟨n / 8, by omega, rfl⟩
    · exact low
  · rcases member with rfl | rfl | rfl <;> assumption

theorem octal_nonempty (n : Nat) (padded : Bool) :
    (if padded then octalText3 n else octalText n) ≠ [] := by
  cases padded with
  | true => exact append_ne_nil_of_right_ne_nil _ Nat.toDigits_ne_nil
  | false => exact Nat.toDigits_ne_nil

theorem digitChar_plain : ∀ k < 8, k.digitChar ≠ '"' ∧ k.digitChar ≠ '\n' ∧ k.digitChar ≠ '\\' ∧
    k.digitChar ≠ '\r' ∧ k.digitChar.toNat < 256 := by decide

theorem eatLoop_charstr {c : Char} (next : Char) (byte : c.toNat < 256) (rest : List Char) :
    eatLoop '"' false (charstr c '"' next ++ rest) =
      (eatLoop '"' false rest).map fun eaten => (charstr c '"' next ++ eaten.1, eaten.2) := by
  unfold charstr
  by_cases print : isPrint c = true
  · have feed : c ≠ '\n' := by
      rintro rfl
      cases print
    rw [if_pos print]
    by_cases escaped : c = '"' ∨ c = '\\'
    · rw [if_pos escaped]
      exact eatLoop_escaped rest (by decide) feed
    · rw [not_or] at escaped
      rw [if_neg fun either => either.elim escaped.1 escaped.2]
      exact eatLoop_plain rest escaped.1 feed escaped.2
  · rw [if_neg print]
    by_cases feed : c = '\n'
    · rw [if_pos feed]
      exact eatLoop_escaped rest (by decide) (by decide)
    rw [if_neg feed]
    by_cases tab : c = '\t'
    · rw [if_pos tab]
      exact eatLoop_escaped rest (by decide) (by decide)
    rw [if_neg tab]
    have plain : ∀ d ∈ (if next.isDigit then octalText3 c.toNat else octalText c.toNat),
        d ≠ '"' ∧ d ≠ '\n' ∧ d ≠ '\\' := by
      intro d member
      obtain ⟨k, small, rfl⟩ := octal_member byte next.isDigit d member
      obtain ⟨quote, feed, backslash, -, -⟩ := digitChar_plain k small
      exact ⟨quote, feed, backslash⟩
    cases found : (if next.isDigit then octalText3 c.toNat else octalText c.toNat) with
    | nil => exact absurd found (octal_nonempty c.toNat next.isDigit)
    | cons d digits =>
      rw [found] at plain
      rw [cons_append, cons_append,
        eatLoop_escaped _ (by decide) (plain d mem_cons_self).2.1,
        eatLoop_run digits rest fun e member => plain e (mem_cons_of_mem d member),
        Option.map_map]
      rfl

theorem eatLoop_showChars (data rest : List Char) (bytes : ∀ c ∈ data, c.toNat < 256) :
    eatLoop '"' false (showChars data ++ '"' :: rest) = some (showChars data, rest) := by
  induction data with
  | nil => rfl
  | cons c data ih =>
    unfold showChars
    rw [append_assoc, eatLoop_charstr _ (bytes c mem_cons_self),
      ih fun d member => bytes d (mem_cons_of_mem c member)]
    rfl

theorem normalize_eq {text : List Char} (plain : ∀ c ∈ text, c ≠ '\r') : normalize text = text := by
  induction text with
  | nil => rfl
  | cons c text ih =>
    rw [normalize_cons text (plain c mem_cons_self),
      ih fun d member => plain d (mem_cons_of_mem c member)]

theorem spliceLines_eq {text : List Char} (plain : ∀ c ∈ text, c ≠ '\n') :
    spliceLines text = text := by
  induction text with
  | nil => rfl
  | cons c text ih =>
    have kept : ¬ (c = '\\' ∧ text.head? = some '\n') := fun both =>
      plain '\n' (mem_cons_of_mem c (mem_of_mem_head? both.2)) rfl
    rw [spliceLines_cons kept, ih fun d member => plain d (mem_cons_of_mem c member)]

theorem charstr_line {c : Char} (next : Char) (byte : c.toNat < 256) :
    ∀ d ∈ charstr c '"' next, d ≠ '\n' ∧ d ≠ '\r' ∧ d.toNat < 256 := by
  intro d member
  unfold charstr at member
  by_cases print : isPrint c = true
  · have kept : c ≠ '\n' ∧ c ≠ '\r' ∧ c.toNat < 256 := by
      refine ⟨?_, ?_, byte⟩ <;> rintro rfl <;> cases print
    rw [if_pos print] at member
    split_ifs at member
    · rcases mem_pair.mp member with rfl | rfl
      · decide
      · exact kept
    · rw [mem_singleton.mp member]
      exact kept
  · rw [if_neg print] at member
    by_cases feed : c = '\n'
    · rw [if_pos feed] at member
      rcases mem_pair.mp member with rfl | rfl <;> decide
    rw [if_neg feed] at member
    by_cases tab : c = '\t'
    · rw [if_pos tab] at member
      rcases mem_pair.mp member with rfl | rfl <;> decide
    rw [if_neg tab] at member
    rcases mem_cons.mp member with rfl | digit
    · decide
    · obtain ⟨k, small, rfl⟩ := octal_member byte next.isDigit d digit
      obtain ⟨-, feed, -, carriage, bound⟩ := digitChar_plain k small
      exact ⟨feed, carriage, bound⟩

theorem showChars_line {data : List Char} (bytes : ∀ c ∈ data, c.toNat < 256) :
    ∀ d ∈ showChars data, d ≠ '\n' ∧ d ≠ '\r' ∧ d.toNat < 256 := by
  induction data with
  | nil =>
    intro d member
    cases member
  | cons c data ih =>
    intro d member
    unfold showChars at member
    rcases mem_append.mp member with first | later
    · exact charstr_line _ (bytes c mem_cons_self) d first
    · exact ih (fun e member => bytes e (mem_cons_of_mem c member)) d later

theorem showString_line {data : List Char} (bytes : ∀ c ∈ data, c.toNat < 256) :
    ∀ d ∈ showString (some data), d ≠ '\n' ∧ d ≠ '\r' := by
  intro d member
  rcases mem_cons.mp member with rfl | member
  · decide
  rcases mem_append.mp member with inner | last
  · obtain ⟨feed, carriage, -⟩ := showChars_line bytes d inner
    exact ⟨feed, carriage⟩
  · rw [mem_singleton.mp last]
    decide

/-- A string whose text fits is one token, whose bytes are those of the string. -/
theorem showString_reads (options : StreamOptions) (wcharBits : Nat) (data : List Char)
    (bytes : ∀ c ∈ data, c.toNat < 256) (fits : (showChars data).length ≤ maxString) :
    tokenizeBuffer options (showString (some data)) =
        [⟨.string false (showChars data), true, false⟩] ∧
      getStringConstant wcharBits [.string false (showChars data)] = (⟨data, false⟩, []) := by
  have lines := showString_line bytes
  constructor
  · have whole : spliceLines (normalize (showString (some data))) = showString (some data) := by
      rw [normalize_eq fun d member => (lines d member).2,
        spliceLines_eq fun d member => (lines d member).1]
    have scanned : getOneToken '"' (showChars data ++ ['"']) =
        .token (.string false (showChars data)) [] := by
      have eaten : eatString '"' false (showChars data ++ ['"']) =
          .token (.string false ((showChars data).take maxString)) [] := by
        unfold eatString
        rw [eatLoop_showChars data [] bytes]
        rfl
      rw [take_of_length_le fits] at eaten
      exact eaten
    rw [tokenizeBuffer_eq, whole]
    exact tokenizeText_single (by decide) scanned
  · have decoded := decode_showChars data bytes
    have parts : stringParts [.string false (showChars data)] =
        ([(false, showChars data)], []) := rfl
    unfold getStringConstant
    rw [parts]
    dsimp only
    have kept : (decodeString bitsInChar (showChars data)).take maxString = data := by
      rw [decoded]
      exact take_of_length_le (Nat.le_trans (showChars_length data) fits)
    have buffer : (([(false, showChars data)].flatMap fun part => decodeString
        (if [(false, showChars data)].any Prod.fst then wcharBits else bitsInChar) part.2).take
          maxString) = data := by
      rw [flatMap_singleton]
      exact kept
    rw [buffer]
    by_cases escaped : '\\' ∈ showChars data
    · have some : ([(false, showChars data)].any fun part => part.2.contains '\\') = true := by
        rw [any_cons, contains_iff_mem.mpr escaped, Bool.true_or]
      rw [some, Bool.true_or, if_pos rfl]
      rfl
    · have same : showChars data = data := by
        refine (decode_plain bitsInChar _ fun c member => ⟨?_, ?_⟩).symm.trans decoded
        · rintro rfl
          exact escaped member
        · exact (showChars_line bytes c member).2.2
      rw [same]
      split_ifs <;> rfl

def sampleString : List Char := ['\r', '7', '"', '\n', '\\']

theorem sampleString_bytes : ∀ c ∈ sampleString, c.toNat < 256 := by
  intro c member
  simp only [sampleString, mem_cons, not_mem_nil, or_false] at member
  rcases member with rfl | rfl | rfl | rfl | rfl <;> decide

theorem showString_sample :
    tokenizeBuffer ⟨8, 1⟩ (showString (some sampleString)) =
        [⟨.string false (showChars sampleString), true, false⟩] ∧
      getStringConstant 32 [.string false (showChars sampleString)] = (⟨sampleString, false⟩, []) :=
  showString_reads ⟨8, 1⟩ 32 sampleString sampleString_bytes (by decide)

end SmatchFormal.Tokenizer
