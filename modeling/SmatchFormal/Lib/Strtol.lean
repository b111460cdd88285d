import Mathlib.Data.List.TakeWhile
import Mathlib.Tactic.Ring

/-!
# `strtoll` and `strtoull` with base zero

The number scanner of the C library: white space, a sign, the base from the
prefix (`0x`, `0` or none), then the digits of that base.  Without digits nothing
is consumed.  A number out of range is replaced by the nearest limit.
-/

namespace SmatchFormal.Lib.Strtol

def digitValue (c : Char) : Option Nat :=
  if '0'.toNat ≤ c.toNat ∧ c.toNat ≤ '9'.toNat then some (c.toNat - '0'.toNat)
  else if 'a'.toNat ≤ c.toNat ∧ c.toNat ≤ 'z'.toNat then some (c.toNat - 'a'.toNat + 10)
  else if 'A'.toNat ≤ c.toNat ∧ c.toNat ≤ 'Z'.toNat then some (c.toNat - 'A'.toNat + 10)
  else none

def digitOf (base : Nat) (c : Char) : Option Nat :=
  match digitValue c with
  | some digit => if digit < base then some digit else none
  | none => none

/-- The digits at the start of a text, on top of a number read so far. -/
def takeDigits (base number : Nat) : List Char → Nat × List Char
  | [] => (number, [])
  | c :: rest =>
    match digitOf base c with
    | some digit => takeDigits base (base * number + digit) rest
    | none => (number, c :: rest)

def isSpace (c : Char) : Bool :=
  c == ' ' || ('\t'.toNat ≤ c.toNat && c.toNat ≤ '\r'.toNat)

def scanMagnitude : List Char → Option (Nat × List Char)
  | '0' :: x :: c :: rest =>
    if (x == 'x' || x == 'X') && (digitOf 16 c).isSome then some (takeDigits 16 0 (c :: rest))
    else some (takeDigits 8 0 ('0' :: x :: c :: rest))
  | '0' :: rest => some (takeDigits 8 0 ('0' :: rest))
  | c :: rest =>
    if (digitOf 10 c).isSome then some (takeDigits 10 0 (c :: rest)) else none
  | [] => none

def scanNumber (text : List Char) : Option (Bool × Nat × List Char) :=
  match text.dropWhile isSpace with
  | '-' :: rest => (scanMagnitude rest).map fun scanned => (true, scanned)
  | '+' :: rest => (scanMagnitude rest).map fun scanned => (false, scanned)
  | rest => (scanMagnitude rest).map fun scanned => (false, scanned)

/-- `strtoll(text, &end, 0)`: the number and the text after it. -/
def strtoll (text : List Char) : Int × List Char :=
  match scanNumber text with
  | none => (0, text)
  | some (true, magnitude, rest) => (max (-2 ^ 63) (-magnitude), rest)
  | some (false, magnitude, rest) => (min (2 ^ 63 - 1) magnitude, rest)

/-- `strtoull(text, &end, 0)`: the number, modulo `2^64` for a negative one. -/
def strtoull (text : List Char) : BitVec 64 × List Char :=
  match scanNumber text with
  | none => (0, text)
  | some (negative, magnitude, rest) =>
    if magnitude ≥ 2 ^ 64 then (BitVec.allOnes 64, rest)
    else if negative then (-BitVec.ofNat 64 magnitude, rest)
    else (BitVec.ofNat 64 magnitude, rest)

/-! ## Reading back decimal numbers -/

/-- No character that could continue a decimal number or turn `0` into a prefix. -/
def Stops (rest : List Char) : Prop :=
  ∀ c ∈ rest.head?, digitOf 10 c = none ∧ digitOf 8 c = none ∧ c ≠ 'x' ∧ c ≠ 'X'

instance (rest : List Char) : Decidable (Stops rest) :=
  inferInstanceAs (Decidable (∀ c ∈ rest.head?, _))

theorem digitOf_isDigit {c : Char} (digit : c.isDigit = true) :
    digitOf 10 c = some (c.toNat - '0'.toNat) := by
  obtain ⟨low, high⟩ := Char.isDigit_iff_toNat.mp digit
  unfold digitOf digitValue
  rw [if_pos ⟨low, high⟩]
  change 48 ≤ c.toNat at low
  change c.toNat ≤ 57 at high
  exact if_pos (show c.toNat - 48 < 10 by omega)

theorem takeDigits_stop {base number : Nat} {rest : List Char}
    (stops : ∀ c ∈ rest.head?, digitOf base c = none) :
    takeDigits base number rest = (number, rest) := by
  cases rest with
  | nil => rfl
  | cons c rest => rw [takeDigits, stops c rfl]

/-- Decimal digits in front of a text are read as one number. -/
theorem takeDigits_append (number : Nat) (digits rest : List Char)
    (decimal : ∀ c ∈ digits, c.isDigit = true) :
    takeDigits 10 number (digits ++ rest) =
      takeDigits 10 (Nat.ofDigitChars 10 digits number) rest := by
  induction digits generalizing number with
  | nil => rfl
  | cons c digits ih =>
    rw [List.cons_append, takeDigits, digitOf_isDigit (decimal c List.mem_cons_self),
      Nat.ofDigitChars_cons]
    exact ih _ (fun other member => decimal other (List.mem_cons_of_mem _ member))

theorem takeDigits_toDigits (n : Nat) {rest : List Char} (stops : Stops rest) :
    takeDigits 10 0 (Nat.toDigits 10 n ++ rest) = (n, rest) := by
  rw [takeDigits_append 0 _ rest
      (fun c member => Nat.isDigit_of_mem_toDigits (by decide) (by decide) member),
    Nat.ofDigitChars_ten_toDigits]
  exact takeDigits_stop (fun c member => (stops c member).1)

/-- The decimal text of a positive number starts with a digit other than zero. -/
theorem head_toDigits (n : Nat) (positive : 0 < n) :
    ∃ c tail, Nat.toDigits 10 n = c :: tail ∧ c ≠ '0' := by
  induction n using Nat.strongRecOn with
  | ind n ih =>
    rw [Nat.toDigits_eq_if (by decide)]
    split_ifs with small
    · refine ⟨n.digitChar, [], rfl, ?_⟩
      have table : ∀ digit < 10, 0 < digit → digit.digitChar ≠ '0' := by decide
      exact table n small positive
    · obtain ⟨c, tail, found, other⟩ := ih (n / 10) (by omega) (by omega)
      exact ⟨c, tail ++ [Nat.digitChar (n % 10)], by rw [found]; rfl, other⟩

theorem scanMagnitude_digit {c : Char} (rest : List Char) (other : c ≠ '0')
    (digit : c.isDigit = true) :
    scanMagnitude (c :: rest) = some (takeDigits 10 0 (c :: rest)) := by
  unfold scanMagnitude
  split
  · rename_i same
    exact absurd (List.cons.inj same).1 other
  · rename_i same
    exact absurd (List.cons.inj same).1 other
  · rename_i same
    obtain ⟨rfl, rfl⟩ := List.cons.inj same
    rw [digitOf_isDigit digit]
    rfl
  · rename_i same
    cases same

/-- A zero that no digit and no `x` follows. -/
theorem scanMagnitude_zero {rest : List Char} (stops : Stops rest) :
    scanMagnitude ('0' :: rest) = some (0, rest) := by
  have octal : takeDigits 8 0 ('0' :: rest) = (0, rest) :=
    takeDigits_stop (fun c member => (stops c member).2.1)
  cases rest with
  | nil => rfl
  | cons x rest =>
    obtain ⟨-, -, lower, upper⟩ := stops x rfl
    cases rest with
    | nil => exact congrArg some octal
    | cons c rest =>
      have plain : ((x == 'x' || x == 'X') && (digitOf 16 c).isSome) = false := by
        rw [beq_eq_false_iff_ne.mpr lower, beq_eq_false_iff_ne.mpr upper]
        rfl
      unfold scanMagnitude
      simp only [plain, Bool.false_eq_true, if_false, octal]

/-- The decimal text of a number is scanned as that number. -/
theorem scanMagnitude_toDigits (n : Nat) {rest : List Char} (stops : Stops rest) :
    scanMagnitude (Nat.toDigits 10 n ++ rest) = some (n, rest) := by
  by_cases zero : n = 0
  · subst zero
    rw [Nat.toDigits_zero]
    exact scanMagnitude_zero stops
  · have taken := takeDigits_toDigits n stops
    obtain ⟨c, tail, found, other⟩ := head_toDigits n (Nat.pos_of_ne_zero zero)
    have member : c ∈ Nat.toDigits 10 n := by
      rw [found]
      exact List.mem_cons_self
    have digit : c.isDigit = true := Nat.isDigit_of_mem_toDigits (by decide) (by decide) member
    rw [found, List.cons_append] at taken ⊢
    rw [scanMagnitude_digit _ other digit, taken]

theorem exists_digit (n : Nat) (rest : List Char) :
    ∃ c tail, Nat.toDigits 10 n ++ rest = c :: tail ∧ c.isDigit = true := by
  cases found : Nat.toDigits 10 n with
  | nil => exact absurd found Nat.toDigits_ne_nil
  | cons c tail =>
    have member : c ∈ Nat.toDigits 10 n := by
      rw [found]
      exact List.mem_cons_self
    exact ⟨c, tail ++ rest, rfl, Nat.isDigit_of_mem_toDigits (by decide) (by decide) member⟩

theorem scanNumber_toDigits (n : Nat) {rest : List Char} (stops : Stops rest) :
    scanNumber (Nat.toDigits 10 n ++ rest) = some (false, n, rest) := by
  have scanned := scanMagnitude_toDigits n stops
  obtain ⟨c, tail, found, digit⟩ := exists_digit n rest
  rw [found] at scanned ⊢
  have visible : isSpace c = false := by
    obtain ⟨low, -⟩ := Char.isDigit_iff_toNat.mp digit
    change 48 ≤ c.toNat at low
    unfold isSpace
    rw [beq_eq_false_iff_ne.mpr (by rintro rfl; exact absurd low (by decide)), Bool.false_or,
      decide_eq_false (show ¬ c.toNat ≤ '\r'.toNat from fun above => absurd above
        (show ¬ c.toNat ≤ 13 by omega)), Bool.and_false]
  unfold scanNumber
  rw [List.dropWhile_cons_of_neg (by rw [visible]; exact Bool.false_ne_true)]
  split
  · rename_i same
    obtain ⟨rfl, -⟩ := List.cons.inj same
    exact absurd digit (by decide)
  · rename_i same
    obtain ⟨rfl, -⟩ := List.cons.inj same
    exact absurd digit (by decide)
  · rw [scanned]
    rfl

theorem scanNumber_neg_toDigits (n : Nat) {rest : List Char} (stops : Stops rest) :
    scanNumber ('-' :: (Nat.toDigits 10 n ++ rest)) = some (true, n, rest) := by
  have scanned := scanMagnitude_toDigits n stops
  unfold scanNumber
  rw [List.dropWhile_cons_of_neg (by decide)]
  simp only [scanned]
  rfl

theorem strtoll_toDigits {n : Nat} (small : n < 2 ^ 63) {rest : List Char} (stops : Stops rest) :
    strtoll (Nat.toDigits 10 n ++ rest) = ((n : Int), rest) := by
  unfold strtoll
  rw [scanNumber_toDigits n stops]
  simp only [Prod.mk.injEq, and_true]
  omega

theorem strtoll_neg_toDigits {n : Nat} (small : n ≤ 2 ^ 63) {rest : List Char}
    (stops : Stops rest) : strtoll ('-' :: (Nat.toDigits 10 n ++ rest)) = (-(n : Int), rest) := by
  unfold strtoll
  rw [scanNumber_neg_toDigits n stops]
  simp only [Prod.mk.injEq, and_true]
  omega

/-- `strtoull` reads back the decimal text of an `unsigned long long`. -/
theorem strtoull_toDigits (word : BitVec 64) {rest : List Char} (stops : Stops rest) :
    strtoull (Nat.toDigits 10 word.toNat ++ rest) = (word, rest) := by
  unfold strtoull
  rw [scanNumber_toDigits word.toNat stops]
  simp only
  rw [if_neg (Nat.not_le.mpr word.isLt), if_neg Bool.false_ne_true, BitVec.ofNat_toNat,
    BitVec.setWidth_eq]

end SmatchFormal.Lib.Strtol
