import SmatchFormal.Lib.Strtol

/-!
# Decimal numbers

`strtoll`, `strtoul` and `atoi` with base ten, and the text of `%d`.
-/

namespace SmatchFormal.Lib.Decimal

open SmatchFormal.Lib.Strtol List

def scanDigits (text : List Char) : Option (Nat × List Char) :=
  match text with
  | [] => none
  | c :: rest => if (digitOf 10 c).isSome then some (takeDigits 10 0 (c :: rest)) else none

def scan (text : List Char) : Option (Bool × Nat × List Char) :=
  match text.dropWhile isSpace with
  | '-' :: rest => (scanDigits rest).map fun scanned => (true, scanned)
  | '+' :: rest => (scanDigits rest).map fun scanned => (false, scanned)
  | rest => (scanDigits rest).map fun scanned => (false, scanned)

def strtoll (text : List Char) : Int × List Char :=
  match scan text with
  | none => (0, text)
  | some (true, magnitude, rest) => (max (-2 ^ 63) (-magnitude), rest)
  | some (false, magnitude, rest) => (min (2 ^ 63 - 1) magnitude, rest)

def strtoul (text : List Char) : BitVec 64 × List Char :=
  match scan text with
  | none => (0, text)
  | some (negative, magnitude, rest) =>
    if magnitude ≥ 2 ^ 64 then (BitVec.allOnes 64, rest)
    else if negative then (-BitVec.ofNat 64 magnitude, rest)
    else (BitVec.ofNat 64 magnitude, rest)

def toInt32 (x : Int) : Int := (x + 2147483648) % 4294967296 - 2147483648

def atoi (text : List Char) : Int := toInt32 (strtoll text).1

def decimalText (x : Int) : List Char :=
  if x < 0 then '-' :: Nat.toDigits 10 x.natAbs else Nat.toDigits 10 x.natAbs

theorem takeDigits_length (base number : Nat) (text : List Char) :
    (takeDigits base number text).2.length ≤ text.length := by
  induction text generalizing number with
  | nil => exact Nat.le_refl _
  | cons c rest ih =>
    unfold takeDigits
    split
    · exact Nat.le_succ_of_le (ih _)
    · exact Nat.le_refl _

theorem scanDigits_length {text rest : List Char} {n : Nat}
    (scanned : scanDigits text = some (n, rest)) : rest.length ≤ text.length := by
  unfold scanDigits at scanned
  cases text with
  | nil => cases scanned
  | cons c tail =>
    dsimp only at scanned
    split_ifs at scanned
    have shorter := takeDigits_length 10 0 (c :: tail)
    rw [Option.some.inj scanned] at shorter
    exact shorter

theorem scan_length {text rest : List Char} {negative : Bool} {n : Nat}
    (scanned : scan text = some (negative, n, rest)) : rest.length ≤ text.length := by
  have dropped := (dropWhile_sublist isSpace (l := text)).length_le
  unfold scan at scanned
  split at scanned
  all_goals
    obtain ⟨⟨m, tail⟩, digits, same⟩ := Option.map_eq_some_iff.mp scanned
    have shorter := scanDigits_length digits
    simp_all
    try omega

theorem strtoll_length (text : List Char) : (strtoll text).2.length ≤ text.length := by
  unfold strtoll
  split
  · exact Nat.le_refl _
  · exact scan_length (by assumption)
  · exact scan_length (by assumption)

theorem takeDigits_lt (number : Nat) (text : List Char) :
    (takeDigits 10 number text).1 < (number + 1) * 10 ^ text.length := by
  induction text generalizing number with
  | nil =>
    rw [takeDigits, length_nil, Nat.pow_zero]
    omega
  | cons c rest ih =>
    have positive := Nat.pow_pos (n := rest.length) (by decide : 0 < 10)
    unfold takeDigits
    split
    · rename_i digit found
      have small : digit < 10 := by
        unfold digitOf at found
        split at found
        · split_ifs at found with less
          exact Option.some.inj found ▸ less
        · cases found
      have step := ih (10 * number + digit)
      have bound : (10 * number + digit + 1) * 10 ^ rest.length ≤
          (10 * (number + 1)) * 10 ^ rest.length :=
        Nat.mul_le_mul_right _ (by omega)
      rw [length_cons, Nat.pow_succ, Nat.mul_comm (10 ^ rest.length), ← Nat.mul_assoc,
        Nat.mul_comm (number + 1)]
      omega
    · rw [length_cons, Nat.pow_succ]
      have bound : (number + 1) * 1 ≤ (number + 1) * (10 ^ rest.length * 10) :=
        Nat.mul_le_mul_left _ (by omega)
      omega

theorem scan_lt {text rest : List Char} {negative : Bool} {n : Nat}
    (scanned : scan text = some (negative, n, rest)) : n < 10 ^ text.length := by
  have dropped := (dropWhile_sublist isSpace (l := text)).length_le
  have digits : ∀ {tail : List Char} {m : Nat} {left : List Char}, tail.length ≤ text.length →
      scanDigits tail = some (m, left) → m < 10 ^ text.length := by
    intro tail m left shorter found
    unfold scanDigits at found
    cases tail with
    | nil => cases found
    | cons c tail =>
      dsimp only at found
      split_ifs at found
      have less := takeDigits_lt 0 (c :: tail)
      rw [Option.some.inj found, Nat.zero_add, Nat.one_mul] at less
      exact Nat.lt_of_lt_of_le less (Nat.pow_le_pow_right (by decide) shorter)
  unfold scan at scanned
  split at scanned
  all_goals
    rename_i tail _
    obtain ⟨⟨m, left⟩, found, same⟩ := Option.map_eq_some_iff.mp scanned
    simp only [Prod.mk.injEq] at same
    rw [← same.2.1]
    refine digits ?_ found
    simp_all
    try omega

/-- A text of one character is a number below ten. -/
theorem atoi_single (c : Char) : atoi [c] ≤ 9 := by
  unfold atoi strtoll
  split
  · exact (by decide : toInt32 0 ≤ 9)
  · have small := scan_lt (by assumption)
    rw [length_singleton] at small
    rw [toInt32]
    omega
  · have small := scan_lt (by assumption)
    rw [length_singleton] at small
    rw [toInt32]
    omega

def Ends (rest : List Char) : Prop := ∀ c ∈ rest.head?, digitOf 10 c = none

instance (rest : List Char) : Decidable (Ends rest) :=
  inferInstanceAs (Decidable (∀ c ∈ rest.head?, _))

theorem ends_nil : Ends [] := by
  intro c same
  cases same

theorem ends_cons {c : Char} (other : digitOf 10 c = none) (rest : List Char) :
    Ends (c :: rest) := by
  intro d same
  rw [← Option.some.inj same]
  exact other

theorem scanDigits_decimal {digits rest : List Char} (nonempty : digits ≠ [])
    (decimal : ∀ c ∈ digits, c.isDigit = true) (ends : Ends rest) :
    scanDigits (digits ++ rest) = some (Nat.ofDigitChars 10 digits 0, rest) := by
  have taken : takeDigits 10 0 (digits ++ rest) = (Nat.ofDigitChars 10 digits 0, rest) := by
    rw [takeDigits_append 0 digits rest decimal]
    exact takeDigits_stop ends
  obtain ⟨c, tail, rfl⟩ := exists_cons_of_ne_nil nonempty
  have digit := decimal c mem_cons_self
  rw [cons_append] at taken ⊢
  unfold scanDigits
  dsimp only
  rw [digitOf_isDigit digit, taken]
  rfl

theorem scanDigits_text (n : Nat) {rest : List Char} (ends : Ends rest) :
    scanDigits (Nat.toDigits 10 n ++ rest) = some (n, rest) := by
  have scanned := scanDigits_decimal Nat.toDigits_ne_nil
    (fun c member => Nat.isDigit_of_mem_toDigits (b := 10) (n := n) (by decide) (by decide) member)
    ends
  rw [Nat.ofDigitChars_ten_toDigits] at scanned
  exact scanned

/-- A digit is neither white space nor a sign. -/
theorem digit_plain {c : Char} (digit : c.isDigit = true) :
    isSpace c = false ∧ c ≠ '-' ∧ c ≠ '+' := by
  obtain ⟨low, high⟩ := Char.isDigit_iff_toNat.mp digit
  change 48 ≤ c.toNat at low
  have other : ∀ d : Char, d.toNat < 48 → c ≠ d := by
    rintro d less rfl
    omega
  refine ⟨?_, other '-' (by decide), other '+' (by decide)⟩
  unfold isSpace
  rw [beq_eq_false_iff_ne.mpr (other ' ' (by decide)), Bool.false_or]
  have above : ¬ c.toNat ≤ '\r'.toNat := by
    change ¬ c.toNat ≤ 13
    omega
  rw [decide_eq_false above, Bool.and_false]

/-- Without a sign the text is scanned as it is. -/
theorem scan_plain {c : Char} (rest : List Char) (visible : isSpace c = false) (minus : c ≠ '-')
    (plus : c ≠ '+') :
    scan (c :: rest) = (scanDigits (c :: rest)).map fun scanned => (false, scanned) := by
  unfold scan
  rw [dropWhile_cons_of_neg (by rw [visible]; exact Bool.false_ne_true)]
  split
  · rename_i same
    exact absurd (List.cons.inj same).1 minus
  · rename_i same
    exact absurd (List.cons.inj same).1 plus
  · rfl

theorem scan_append (n : Nat) (rest : List Char) :
    scan (Nat.toDigits 10 n ++ rest) = some (false, takeDigits 10 n rest) := by
  have taken : takeDigits 10 0 (Nat.toDigits 10 n ++ rest) = takeDigits 10 n rest := by
    rw [takeDigits_append 0 _ rest
        (fun c member => Nat.isDigit_of_mem_toDigits (by decide) (by decide) member),
      Nat.ofDigitChars_ten_toDigits]
  obtain ⟨c, tail, found, digit⟩ := exists_digit n rest
  obtain ⟨visible, minus, plus⟩ := digit_plain digit
  rw [found] at taken ⊢
  rw [scan_plain _ visible minus plus, scanDigits]
  rw [digitOf_isDigit digit, Option.isSome_some, if_pos rfl, taken]
  rfl

theorem scan_text (n : Nat) {rest : List Char} (ends : Ends rest) :
    scan (Nat.toDigits 10 n ++ rest) = some (false, n, rest) := by
  rw [scan_append, takeDigits_stop ends]

theorem scan_negative (n : Nat) {rest : List Char} (ends : Ends rest) :
    scan ('-' :: (Nat.toDigits 10 n ++ rest)) = some (true, n, rest) := by
  have scanned := scanDigits_text n ends
  unfold scan
  rw [dropWhile_cons_of_neg (by decide)]
  simp only [scanned]
  rfl

/-- A sign and digits, with a number that is out of range replaced by a limit. -/
theorem strtoll_decimal {digits rest : List Char} (negative : Bool) (nonempty : digits ≠ [])
    (decimal : ∀ c ∈ digits, c.isDigit = true) (ends : Ends rest) :
    strtoll ((if negative then ['-'] else []) ++ (digits ++ rest)) =
      (if negative then max (-2 ^ 63) (-(Nat.ofDigitChars 10 digits 0 : Int))
        else min (2 ^ 63 - 1) (Nat.ofDigitChars 10 digits 0 : Int), rest) := by
  have scanned := scanDigits_decimal nonempty decimal ends
  unfold strtoll
  cases negative with
  | true =>
    have sign : scan ('-' :: (digits ++ rest)) =
        some (true, Nat.ofDigitChars 10 digits 0, rest) := by
      unfold scan
      rw [dropWhile_cons_of_neg (by decide)]
      simp only [scanned]
      rfl
    rw [if_pos rfl, singleton_append, sign]
    rfl
  | false =>
    have plain : scan (digits ++ rest) = some (false, Nat.ofDigitChars 10 digits 0, rest) := by
      obtain ⟨c, tail, rfl⟩ := exists_cons_of_ne_nil nonempty
      obtain ⟨visible, minus, plus⟩ := digit_plain (decimal c mem_cons_self)
      rw [cons_append] at scanned ⊢
      rw [scan_plain _ visible minus plus, scanned]
      rfl
    rw [if_neg Bool.false_ne_true, nil_append, plain]
    rfl

theorem strtoll_decimalText {x : Int} (low : -2 ^ 63 ≤ x) (high : x < 2 ^ 63) {rest : List Char}
    (ends : Ends rest) : strtoll (decimalText x ++ rest) = (x, rest) := by
  unfold strtoll decimalText
  split_ifs with negative
  · rw [cons_append, scan_negative _ ends]
    simp only [Prod.mk.injEq, and_true]
    omega
  · rw [scan_text _ ends]
    simp only [Prod.mk.injEq, and_true]
    omega

theorem strtoul_text {n : Nat} (small : n < 2 ^ 64) {rest : List Char} (ends : Ends rest) :
    strtoul (Nat.toDigits 10 n ++ rest) = (BitVec.ofNat 64 n, rest) := by
  unfold strtoul
  rw [scan_text n ends]
  simp only
  rw [if_neg (by omega), if_neg Bool.false_ne_true]

section

variable {c : Char} (rest : List Char) (visible : isSpace c = false) (minus : c ≠ '-')
  (plus : c ≠ '+') (other : digitOf 10 c = none)
include rest visible minus plus other

theorem scan_other : scan (c :: rest) = none := by
  rw [scan_plain rest visible minus plus, scanDigits]
  rw [other, Option.isSome_none, if_neg Bool.false_ne_true]
  rfl

theorem strtoul_other :
    strtoul (c :: rest) = (0, c :: rest) := by
  unfold strtoul
  rw [scan_other rest visible minus plus other]

theorem strtoll_other :
    strtoll (c :: rest) = (0, c :: rest) := by
  unfold strtoll
  rw [scan_other rest visible minus plus other]

end

theorem decimalText_natCast (n : Nat) : decimalText n = Nat.toDigits 10 n := by
  unfold decimalText
  rw [if_neg (by omega), Int.natAbs_natCast]

theorem atoi_nil : atoi [] = 0 := rfl

theorem atoi_append (n : Nat) (rest : List Char) :
    atoi (Nat.toDigits 10 n ++ rest) =
      toInt32 (min (2 ^ 63 - 1) (takeDigits 10 n rest).1) := by
  unfold atoi strtoll
  rw [scan_append]

theorem toInt32_of_mem {x : Int} (low : -2 ^ 31 ≤ x) (high : x < 2 ^ 31) : toInt32 x = x := by
  unfold toInt32
  omega

end SmatchFormal.Lib.Decimal
