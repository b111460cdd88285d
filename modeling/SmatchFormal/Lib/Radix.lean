import SmatchFormal.Lib.Strtol

/-!
# Numbers in a given base

What `strtoull` reads of a text that starts with digits of the base, with the error `ERANGE` that it
leaves in `errno`.
-/

namespace SmatchFormal.Lib.Strtol

open List

/-- The number that digits of a base stand for, behind the digits of another number. -/
def digitsNumber (base : Nat) (number : Nat) (digits : List Char) : Nat :=
  digits.foldl (fun number c => base * number + (digitOf base c).getD 0) number

/-- The result of `strtoull`, whether it is a range error, and the text after the number. -/
def saturate (text : List Char) : Option (Bool × Nat × List Char) → BitVec 64 × Bool × List Char
  | none => (0, false, text)
  | some (negative, magnitude, rest) =>
    if magnitude ≥ 2 ^ 64 then (BitVec.allOnes 64, true, rest)
    else if negative then (-BitVec.ofNat 64 magnitude, false, rest)
    else (BitVec.ofNat 64 magnitude, false, rest)

def scanRadix (base : Nat) : List Char → Option (Nat × List Char)
  | [] => none
  | c :: rest => if (digitOf base c).isSome then some (takeDigits base 0 (c :: rest)) else none

/-- `strtoull(text, &end, base)` for a base below sixteen that is not zero. -/
def scanSigned (base : Nat) (text : List Char) : Option (Bool × Nat × List Char) :=
  match text.dropWhile isSpace with
  | '-' :: rest => (scanRadix base rest).map fun scanned => (true, scanned)
  | '+' :: rest => (scanRadix base rest).map fun scanned => (false, scanned)
  | rest => (scanRadix base rest).map fun scanned => (false, scanned)

def Digits (base : Nat) (digits : List Char) : Prop := ∀ c ∈ digits, (digitOf base c).isSome = true

instance (base : Nat) (digits : List Char) : Decidable (Digits base digits) :=
  inferInstanceAs (Decidable (∀ c ∈ digits, _))

def NoDigit (base : Nat) (rest : List Char) : Prop := ∀ c ∈ rest.head?, digitOf base c = none

variable {base : Nat} {digits rest : List Char}

theorem takeDigits_digits (number : Nat) (valid : Digits base digits) (ends : NoDigit base rest) :
    takeDigits base number (digits ++ rest) = (digitsNumber base number digits, rest) := by
  induction digits generalizing number with
  | nil => exact takeDigits_stop ends
  | cons c digits ih =>
    obtain ⟨digit, found⟩ := Option.isSome_iff_exists.mp (valid c mem_cons_self)
    rw [cons_append, takeDigits, found]
    have inner := ih (base * number + digit) fun other member =>
      valid other (mem_cons_of_mem _ member)
    simpa only [digitsNumber, foldl_cons, found, Option.getD_some] using inner

theorem digitValue_range {c : Char} {digit : Nat} (found : digitValue c = some digit) :
    ('0'.toNat ≤ c.toNat ∧ c.toNat ≤ '9'.toNat) ∨ 'A'.toNat ≤ c.toNat := by
  unfold digitValue at found
  split_ifs at found with decimal lower upper
  · exact Or.inl decimal
  · exact Or.inr (Nat.le_trans (by decide) lower.1)
  · exact Or.inr upper.1

/-- A digit is no white space and no sign. -/
theorem digit_visible {c : Char} (digit : (digitOf base c).isSome = true) :
    isSpace c = false ∧ c ≠ '-' ∧ c ≠ '+' := by
  have range : ('0'.toNat ≤ c.toNat ∧ c.toNat ≤ '9'.toNat) ∨ 'A'.toNat ≤ c.toNat := by
    unfold digitOf at digit
    cases found : digitValue c with
    | none =>
      rw [found] at digit
      cases digit
    | some value => exact digitValue_range found
  have above : '0'.toNat ≤ c.toNat := by
    rcases range with decimal | letter
    · exact decimal.1
    · exact Nat.le_trans (by decide) letter
  have other : ∀ d : Char, d.toNat < '0'.toNat → c ≠ d := by
    intro d below same
    rw [same] at above
    exact absurd above (Nat.not_le.mpr below)
  refine ⟨?_, other '-' (by decide), other '+' (by decide)⟩
  unfold isSpace
  rw [beq_eq_false_iff_ne.mpr (other ' ' (by decide)), Bool.false_or,
    decide_eq_false (show ¬ c.toNat ≤ '\r'.toNat from fun below =>
      absurd (Nat.le_trans above below) (by decide)), Bool.and_false]

/-- Behind a digit there is no sign to look for. -/
theorem scanNumber_digit {c : Char} (digit : (digitOf base c).isSome = true) :
    scanNumber (c :: rest) = (scanMagnitude (c :: rest)).map fun scanned => (false, scanned) := by
  obtain ⟨visible, minus, plus⟩ := digit_visible digit
  unfold scanNumber
  rw [dropWhile_cons_of_neg (by rw [visible]; exact Bool.false_ne_true)]
  split
  · rename_i same
    exact absurd (List.cons.inj same).1 minus
  · rename_i same
    exact absurd (List.cons.inj same).1 plus
  · rfl

theorem scanSigned_digits (nonempty : digits ≠ []) (valid : Digits base digits)
    (ends : NoDigit base rest) :
    scanSigned base (digits ++ rest) = some (false, digitsNumber base 0 digits, rest) := by
  cases digits with
  | nil => exact absurd rfl nonempty
  | cons c digits =>
    have digit := valid c mem_cons_self
    have taken := takeDigits_digits 0 valid ends
    rw [cons_append] at taken ⊢
    obtain ⟨visible, minus, plus⟩ := digit_visible digit
    unfold scanSigned
    rw [dropWhile_cons_of_neg (by rw [visible]; exact Bool.false_ne_true)]
    split
    · rename_i same
      exact absurd (List.cons.inj same).1 minus
    · rename_i same
      exact absurd (List.cons.inj same).1 plus
    · have step : scanRadix base (c :: (digits ++ rest)) =
          if (digitOf base c).isSome then some (takeDigits base 0 (c :: (digits ++ rest)))
          else none := rfl
      rw [step, if_pos digit, taken]
      rfl

theorem scanNumber_decimal (nonempty : digits ≠ []) (valid : Digits 10 digits)
    (nonzero : digits.head? ≠ some '0') (ends : NoDigit 10 rest) :
    scanNumber (digits ++ rest) = some (false, digitsNumber 10 0 digits, rest) := by
  cases digits with
  | nil => exact absurd rfl nonempty
  | cons c digits =>
    have digit := valid c mem_cons_self
    have other : c ≠ '0' := fun same => nonzero (congrArg some same)
    have taken := takeDigits_digits 0 valid ends
    rw [cons_append] at taken ⊢
    rw [scanNumber_digit digit]
    unfold scanMagnitude
    split
    · rename_i same
      exact absurd (List.cons.inj same).1 other
    · rename_i same
      exact absurd (List.cons.inj same).1 other
    · rename_i same
      obtain ⟨rfl, rfl⟩ := List.cons.inj same
      rw [if_pos digit, taken]
      rfl
    · rename_i same
      cases same

/-- A number behind a zero, with no `x` behind it. -/
theorem scanNumber_octal (valid : Digits 8 digits) (ends : NoDigit 8 rest)
    (unmarked : ∀ c ∈ rest.head?, c ≠ 'x' ∧ c ≠ 'X') :
    scanNumber ('0' :: (digits ++ rest)) = some (false, digitsNumber 8 0 digits, rest) := by
  have whole : Digits 8 ('0' :: digits) := by
    intro c member
    rcases mem_cons.mp member with rfl | member
    · rfl
    · exact valid c member
  have taken : takeDigits 8 0 ('0' :: (digits ++ rest)) = (digitsNumber 8 0 digits, rest) :=
    @takeDigits_digits 8 ('0' :: digits) rest 0 whole ends
  have plain : ∀ x ∈ (digits ++ rest).head?, x ≠ 'x' ∧ x ≠ 'X' := by
    intro x member
    cases digits with
    | nil => exact unmarked x member
    | cons c digits =>
      obtain rfl := Option.some.inj member
      have digit := valid c mem_cons_self
      constructor
      · rintro rfl
        exact absurd digit (by decide)
      · rintro rfl
        exact absurd digit (by decide)
  rw [@scanNumber_digit 8 _ '0' rfl]
  cases found : digits ++ rest with
  | nil =>
    rw [found] at taken
    have step : scanMagnitude ['0'] = some (takeDigits 8 0 ['0']) := rfl
    rw [step, taken]
    rfl
  | cons x tail =>
    rw [found] at taken plain
    obtain ⟨lower, upper⟩ := plain x rfl
    cases tail with
    | nil =>
      have step : scanMagnitude ['0', x] = some (takeDigits 8 0 ['0', x]) := rfl
      rw [step, taken]
      rfl
    | cons c tail =>
      have step : scanMagnitude ('0' :: x :: c :: tail) =
          if (x == 'x' || x == 'X') && (digitOf 16 c).isSome then
            some (takeDigits 16 0 (c :: tail))
          else some (takeDigits 8 0 ('0' :: x :: c :: tail)) := rfl
      rw [step, beq_eq_false_iff_ne.mpr lower, beq_eq_false_iff_ne.mpr upper, Bool.false_or,
        Bool.false_and, if_neg Bool.false_ne_true, taken]
      rfl

theorem scanNumber_hexadecimal {x : Char} (marked : x = 'x' ∨ x = 'X') (nonempty : digits ≠ [])
    (valid : Digits 16 digits) (ends : NoDigit 16 rest) :
    scanNumber ('0' :: x :: (digits ++ rest)) = some (false, digitsNumber 16 0 digits, rest) := by
  have mark : (x == 'x' || x == 'X') = true := by
    rcases marked with rfl | rfl <;> rfl
  cases digits with
  | nil => exact absurd rfl nonempty
  | cons c digits =>
    have taken := takeDigits_digits 0 valid ends
    rw [cons_append] at taken ⊢
    rw [@scanNumber_digit 16 _ '0' rfl]
    have step : scanMagnitude ('0' :: x :: c :: (digits ++ rest)) =
        if (x == 'x' || x == 'X') && (digitOf 16 c).isSome then
          some (takeDigits 16 0 (c :: (digits ++ rest)))
        else some (takeDigits 8 0 ('0' :: x :: c :: (digits ++ rest))) := rfl
    rw [step, mark, Bool.true_and, if_pos (valid c mem_cons_self), taken]
    rfl

end SmatchFormal.Lib.Strtol
