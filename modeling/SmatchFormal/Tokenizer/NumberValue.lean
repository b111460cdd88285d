import SmatchFormal.Lib.Radix

/-!
# The value of a number token

`get_number_value` of `expression.c` finds the value and the type of a number.  It walks from `int`
to `long long` with masks at each width.
-/

namespace SmatchFormal.Tokenizer

open SmatchFormal.Lib.Strtol

structure Widths where
  int : Nat
  long : Nat
  longlong : Nat
  int_ge : 8 ≤ int
  long_ge : int ≤ long
  longlong_ge : long ≤ longlong
  longlong_eq : longlong = 64

inductive NumberType
  | int | uint | long | ulong | llong | ullong
  deriving DecidableEq, Repr

/-- `ctype_integer`.  The size is at most two. -/
def ctypeInteger (size : Nat) (wantUnsigned : Bool) : NumberType :=
  match size with
  | 0 => if wantUnsigned then .uint else .int
  | 1 => if wantUnsigned then .ulong else .long
  | _ => if wantUnsigned then .ullong else .llong

inductive FloatType
  | float | double | ldouble
  deriving DecidableEq, Repr

/-- What `expr` holds at the end.  After `error_die` there is no end. -/
inductive NumberExpr (Fvalue : Type)
  | value (value : BitVec 64) (ctype : NumberType) (setInt : Bool)
  | fvalue (value : Fvalue) (ctype : FloatType)
  | died

structure NumberResult (Fvalue : Type) where
  expr : NumberExpr Fvalue
  messages : List String

def parseNum (nptr : List Char) : BitVec 64 × Bool × List Char :=
  if nptr.head? = some '0' ∧ (nptr[1]? = some 'b' ∨ nptr[1]? = some 'B') then
    saturate (nptr.drop 2) (scanSigned 2 (nptr.drop 2))
  else saturate nptr (scanNumber nptr)

inductive SuffixEnd
  | integer (size : Nat) (wantUnsigned : Bool)
  | float
  | enoint
  deriving DecidableEq, Repr

def suffixLoop (size : Nat) (wantUnsigned : Bool) : List Char → SuffixEnd
  | [] => .integer size wantUnsigned
  | [c] =>
    if c = 'u' ∨ c = 'U' then if wantUnsigned then .enoint else .integer size true
    else if c = 'l' ∨ c = 'L' then if size ≠ 0 then .enoint else .integer 1 wantUnsigned
    else .float
  | c :: d :: rest =>
    if c = 'u' ∨ c = 'U' then
      if wantUnsigned then .enoint else suffixLoop size true (d :: rest)
    else if c = 'l' ∨ c = 'L' then
      if size ≠ 0 then .enoint
      else if d = c then suffixLoop 2 wantUnsigned rest
      else suffixLoop 1 wantUnsigned (d :: rest)
    else .float

section

variable {Fvalue : Type} (widths : Widths) (suffixWarning : Bool) (str : List Char)

/-- `value & (~1ULL << bits)`: the value needs more than `bits + 1` bits. -/
def above (value : BitVec 64) (bits : Nat) : Bool := value &&& (~~~1#64 <<< bits) != 0#64

def topBit (value : BitVec 64) (bits : Nat) : Bool := value &&& (1#64 <<< bits) != 0#64

/-- The label `got_it`.  `Wconstant_suffix` is an option. -/
def gotIt (value : BitVec 64) (size : Nat) (wantUnsigned : Bool) (doWarn : Nat)
    (messages : List String) : NumberResult Fvalue :=
  ⟨.value value (ctypeInteger size wantUnsigned) true,
    messages ++
      (if doWarn ≠ 0 ∧ suffixWarning = true then
        ["constant " ++ String.ofList str ++ " is so big it is" ++
          (if wantUnsigned then " unsigned" else "") ++ (if size > 0 then " long" else "") ++
          (if size > 1 then " long" else "")]
      else []) ++
      (if doWarn &&& 2 ≠ 0 then
        ["decimal constant " ++ String.ofList str ++ " is between LONG_MAX and ULONG_MAX." ++
          " For C99 that means long long, C90 compilers are very " ++
          "likely to produce unsigned long (and a warning) here"]
      else [])⟩

def eoverflow : NumberResult Fvalue :=
  ⟨.died, ["constant " ++ String.ofList str ++ " is too big even for unsigned long long"]⟩

def enoint : NumberResult Fvalue :=
  ⟨.value 0 .int false, ["constant " ++ String.ofList str ++ " is not a valid number"]⟩

def floatValue (stringToLd : List Char → Fvalue × List Char) : NumberResult Fvalue :=
  let scanned := stringToLd str
  if scanned.2 = str then enoint str
  else if scanned.2.length > 1 then enoint str
  else if scanned.2 = ['f'] ∨ scanned.2 = ['F'] then ⟨.fvalue scanned.1 .float, []⟩
  else if scanned.2 = ['l'] ∨ scanned.2 = ['L'] then ⟨.fvalue scanned.1 .ldouble, []⟩
  else if scanned.2 = [] then ⟨.fvalue scanned.1 .double, []⟩
  else enoint str

def tryLongLong (value : BitVec 64) (wantUnsigned tryUnsigned : Bool) (doWarn : Nat) :
    NumberResult Fvalue :=
  if above value (widths.longlong - 1) then eoverflow str
  else if topBit value (widths.longlong - 1) then
    gotIt suffixWarning str value 2 true doWarn
      (if tryUnsigned then []
      else ["decimal constant " ++ String.ofList str ++ " is too big for long long"])
  else gotIt suffixWarning str value 2 wantUnsigned doWarn []

/-- The width of `long`, for a size below two. -/
def tryLong (value : BitVec 64) (wantUnsigned tryUnsigned : Bool) (doWarn : Nat) :
    NumberResult Fvalue :=
  if above value (widths.long - 1) then
    tryLongLong widths suffixWarning str value wantUnsigned tryUnsigned (doWarn ||| 1)
  else if topBit value (widths.long - 1) then
    if tryUnsigned then gotIt suffixWarning str value 1 true doWarn []
    else tryLongLong widths suffixWarning str value wantUnsigned tryUnsigned (doWarn ||| 2 ||| 1)
  else gotIt suffixWarning str value 1 wantUnsigned doWarn []

def tryInt (value : BitVec 64) (wantUnsigned tryUnsigned : Bool) : NumberResult Fvalue :=
  if above value (widths.int - 1) then
    tryLong widths suffixWarning str value wantUnsigned tryUnsigned 1
  else if topBit value (widths.int - 1) then
    if tryUnsigned then gotIt suffixWarning str value 0 true 0 []
    else tryLong widths suffixWarning str value wantUnsigned tryUnsigned 1
  else gotIt suffixWarning str value 0 wantUnsigned 0 []

def integerValue (value : BitVec 64) (size : Nat) (wantUnsigned : Bool) : NumberResult Fvalue :=
  let tryUnsigned := str.head? == some '0' || wantUnsigned
  if size = 0 then tryInt widths suffixWarning str value wantUnsigned tryUnsigned
  else if size < 2 then tryLong widths suffixWarning str value wantUnsigned tryUnsigned 0
  else tryLongLong widths suffixWarning str value wantUnsigned tryUnsigned 0

def getNumberValue (stringToLd : List Char → Fvalue × List Char) : NumberResult Fvalue :=
  let parsed := parseNum str
  if parsed.2.2 = str then floatValue str stringToLd
  else
    match suffixLoop 0 false parsed.2.2 with
    | .float => floatValue str stringToLd
    | .enoint => enoint str
    | .integer size wantUnsigned =>
      if parsed.1 = BitVec.allOnes 64 ∧ parsed.2.1 = true then eoverflow str
      else integerValue widths suffixWarning str parsed.1 size wantUnsigned

end

inductive Base
  | decimal
  | octal
  | hexadecimal (upper : Bool)
  | binary (upper : Bool)
  deriving DecidableEq, Repr

def Base.radix : Base → Nat
  | .decimal => 10
  | .octal => 8
  | .hexadecimal _ => 16
  | .binary _ => 2

def Base.mark : Base → List Char
  | .decimal => []
  | .octal => ['0']
  | .hexadecimal upper => ['0', if upper then 'X' else 'x']
  | .binary upper => ['0', if upper then 'B' else 'b']

/-- An octal literal may be the zero alone, and a decimal one does not start with a zero. -/
def Base.Allows : Base → List Char → Prop
  | .decimal, digits => digits ≠ [] ∧ digits.head? ≠ some '0'
  | .octal, _ => True
  | .hexadecimal _, digits => digits ≠ []
  | .binary _, digits => digits ≠ []

structure LongSuffix where
  upper : Bool
  double : Bool
  deriving DecidableEq, Repr

structure Suffix where
  unsigned : Option Bool
  long : Option LongSuffix
  unsignedFirst : Bool
  deriving DecidableEq, Repr

def unsignedText (unsigned : Option Bool) : List Char :=
  match unsigned with
  | none => []
  | some upper => [if upper then 'U' else 'u']

def longText (long : Option LongSuffix) : List Char :=
  match long with
  | none => []
  | some ⟨upper, double⟩ => List.replicate (if double then 2 else 1) (if upper then 'L' else 'l')

def Suffix.text (suffix : Suffix) : List Char :=
  if suffix.unsignedFirst then unsignedText suffix.unsigned ++ longText suffix.long
  else longText suffix.long ++ unsignedText suffix.unsigned

structure Literal where
  base : Base
  digits : List Char
  suffix : Suffix
  valid : Digits base.radix digits
  allowed : base.Allows digits

def Literal.text (literal : Literal) : List Char :=
  literal.base.mark ++ (literal.digits ++ literal.suffix.text)

def Literal.number (literal : Literal) : Nat := digitsNumber literal.base.radix 0 literal.digits

def Widths.width (widths : Widths) : NumberType → Nat
  | .int | .uint => widths.int
  | .long | .ulong => widths.long
  | .llong | .ullong => widths.longlong

def NumberType.isUnsigned : NumberType → Bool
  | .uint | .ulong | .ullong => true
  | _ => false

def Widths.represents (widths : Widths) (number : Nat) (type : NumberType) : Bool :=
  decide (number < 2 ^ (if type.isUnsigned then widths.width type else widths.width type - 1))

/-- The types for a literal without `u`, from a rank on.  Only a decimal literal has no unsigned
ones. -/
def signedCandidates (decimal : Bool) : Nat → List NumberType
  | 0 => if decimal then [.int, .long, .llong] else [.int, .uint, .long, .ulong, .llong, .ullong]
  | 1 => if decimal then [.long, .llong] else [.long, .ulong, .llong, .ullong]
  | _ => if decimal then [.llong] else [.llong, .ullong]

def unsignedCandidates : Nat → List NumberType
  | 0 => [.uint, .ulong, .ullong]
  | 1 => [.ulong, .ullong]
  | _ => [.ullong]

def Suffix.rank (suffix : Suffix) : Nat :=
  match suffix.long with
  | none => 0
  | some long => if long.double then 2 else 1

def Literal.candidates (literal : Literal) : List NumberType :=
  if literal.suffix.unsigned.isSome then unsignedCandidates literal.suffix.rank
  else signedCandidates (literal.base == .decimal) literal.suffix.rank

def Literal.firstType (widths : Widths) (literal : Literal) : Option NumberType :=
  literal.candidates.find? (widths.represents literal.number)

theorem suffix_loop (suffix : Suffix) :
    suffixLoop 0 false suffix.text = .integer suffix.rank suffix.unsigned.isSome := by
  obtain ⟨unsigned, long, unsignedFirst⟩ := suffix
  rcases unsigned with _ | _ | _ <;> rcases long with _ | ⟨_ | _, _ | _⟩ <;>
    cases unsignedFirst <;> rfl

/-- What can stand behind the digits is no digit and no mark. -/
theorem suffix_head (suffix : Suffix) :
    ∀ c ∈ suffix.text.head?, c = 'u' ∨ c = 'U' ∨ c = 'l' ∨ c = 'L' := by
  obtain ⟨unsigned, long, unsignedFirst⟩ := suffix
  intro c member
  rcases unsigned with _ | _ | _ <;> rcases long with _ | ⟨_ | _, _ | _⟩ <;>
    cases unsignedFirst <;> cases member <;> simp

theorem suffix_noDigit (suffix : Suffix) (base : Base) : NoDigit base.radix suffix.text := by
  intro c member
  rcases suffix_head suffix c member with rfl | rfl | rfl | rfl <;> cases base <;> rfl

theorem saturate_small {number : Nat} {text rest : List Char} (small : number < 2 ^ 64) :
    saturate text (some (false, number, rest)) = (BitVec.ofNat 64 number, false, rest) := by
  unfold saturate
  exact (if_neg (Nat.not_le.mpr small)).trans (if_neg Bool.false_ne_true)

section Parsing

variable {digits rest : List Char}

theorem parseNum_decimal (nonempty : digits ≠ []) (valid : Digits 10 digits)
    (nonzero : digits.head? ≠ some '0') (ends : NoDigit 10 rest)
    (small : digitsNumber 10 0 digits < 2 ^ 64) :
    parseNum (digits ++ rest) = (BitVec.ofNat 64 (digitsNumber 10 0 digits), false, rest) := by
  have head : ¬ (digits ++ rest).head? = some '0' := by
    cases digits with
    | nil => exact absurd rfl nonempty
    | cons c digits => exact nonzero
  unfold parseNum
  rw [if_neg fun both => head both.1, scanNumber_decimal nonempty valid nonzero ends]
  exact saturate_small small

theorem parseNum_octal (valid : Digits 8 digits) (ends : NoDigit 8 rest)
    (unmarked : ∀ c ∈ rest.head?, c ≠ 'x' ∧ c ≠ 'X' ∧ c ≠ 'b' ∧ c ≠ 'B')
    (small : digitsNumber 8 0 digits < 2 ^ 64) :
    parseNum ('0' :: (digits ++ rest)) =
      (BitVec.ofNat 64 (digitsNumber 8 0 digits), false, rest) := by
  have second : ∀ c ∈ (digits ++ rest).head?, c ≠ 'b' ∧ c ≠ 'B' := by
    intro c member
    cases digits with
    | nil => exact (unmarked c member).2.2
    | cons d digits =>
      obtain rfl := Option.some.inj member
      have digit := valid d List.mem_cons_self
      constructor
      · rintro rfl
        cases digit
      · rintro rfl
        cases digit
  have plain : ¬ (('0' :: (digits ++ rest)).head? = some '0' ∧
      (('0' :: (digits ++ rest))[1]? = some 'b' ∨ ('0' :: (digits ++ rest))[1]? = some 'B')) := by
    rw [List.getElem?_cons_succ, ← List.head?_eq_getElem?]
    rintro ⟨-, lower | upper⟩
    · exact (second 'b' lower).1 rfl
    · exact (second 'B' upper).2 rfl
  unfold parseNum
  rw [if_neg plain,
    scanNumber_octal valid ends fun c member => ⟨(unmarked c member).1, (unmarked c member).2.1⟩]
  exact saturate_small small

theorem parseNum_hexadecimal {x : Char} (marked : x = 'x' ∨ x = 'X') (nonempty : digits ≠ [])
    (valid : Digits 16 digits) (ends : NoDigit 16 rest)
    (small : digitsNumber 16 0 digits < 2 ^ 64) :
    parseNum ('0' :: x :: (digits ++ rest)) =
      (BitVec.ofNat 64 (digitsNumber 16 0 digits), false, rest) := by
  have plain : ¬ (('0' :: x :: (digits ++ rest)).head? = some '0' ∧
      (('0' :: x :: (digits ++ rest))[1]? = some 'b' ∨
        ('0' :: x :: (digits ++ rest))[1]? = some 'B')) := by
    rintro ⟨-, mark⟩
    rcases marked with rfl | rfl <;> rcases mark with same | same <;> cases same
  unfold parseNum
  rw [if_neg plain, scanNumber_hexadecimal marked nonempty valid ends]
  exact saturate_small small

theorem parseNum_binary {b : Char} (marked : b = 'b' ∨ b = 'B') (nonempty : digits ≠ [])
    (valid : Digits 2 digits) (ends : NoDigit 2 rest) (small : digitsNumber 2 0 digits < 2 ^ 64) :
    parseNum ('0' :: b :: (digits ++ rest)) =
      (BitVec.ofNat 64 (digitsNumber 2 0 digits), false, rest) := by
  have binary : ('0' :: b :: (digits ++ rest)).head? = some '0' ∧
      (('0' :: b :: (digits ++ rest))[1]? = some 'b' ∨
        ('0' :: b :: (digits ++ rest))[1]? = some 'B') := by
    refine ⟨rfl, ?_⟩
    rcases marked with rfl | rfl
    · exact Or.inl rfl
    · exact Or.inr rfl
  have behind : ('0' :: b :: (digits ++ rest)).drop 2 = digits ++ rest := rfl
  unfold parseNum
  rw [if_pos binary, behind, scanSigned_digits nonempty valid ends]
  exact saturate_small small

end Parsing

theorem parseNum_literal (literal : Literal) (small : literal.number < 2 ^ 64) :
    parseNum literal.text = (BitVec.ofNat 64 literal.number, false, literal.suffix.text) := by
  obtain ⟨base, digits, suffix, valid, allowed⟩ := literal
  have ends := suffix_noDigit suffix base
  cases base with
  | decimal => exact parseNum_decimal allowed.1 valid allowed.2 ends small
  | octal =>
    refine parseNum_octal valid ends ?_ small
    intro c member
    rcases suffix_head suffix c member with rfl | rfl | rfl | rfl <;> decide
  | hexadecimal upper =>
    cases upper
    · exact parseNum_hexadecimal (Or.inl rfl) allowed valid ends small
    · exact parseNum_hexadecimal (Or.inr rfl) allowed valid ends small
  | binary upper =>
    cases upper
    · exact parseNum_binary (Or.inl rfl) allowed valid ends small
    · exact parseNum_binary (Or.inr rfl) allowed valid ends small

/-- Only a decimal literal does not start with a zero. -/
theorem literal_zero (literal : Literal) :
    (literal.text.head? == some '0') = !(literal.base == .decimal) := by
  obtain ⟨base, digits, suffix, valid, allowed⟩ := literal
  cases base with
  | decimal =>
    obtain ⟨nonempty, nonzero⟩ := allowed
    cases digits with
    | nil => exact absurd rfl nonempty
    | cons c digits => exact beq_eq_false_iff_ne.mpr nonzero
  | octal => rfl
  | hexadecimal upper => rfl
  | binary upper => rfl

theorem literal_parsed (literal : Literal) : literal.suffix.text ≠ literal.text := by
  intro same
  have length := congrArg List.length same
  obtain ⟨base, digits, suffix, valid, allowed⟩ := literal
  unfold Literal.text at length
  rw [List.length_append, List.length_append] at length
  have positive : 0 < base.mark.length + digits.length := by
    cases base with
    | decimal => exact Nat.add_pos_right _ (List.length_pos_iff.mpr allowed.1)
    | octal => exact Nat.add_pos_left Nat.one_pos _
    | hexadecimal upper => exact Nat.add_pos_left Nat.two_pos _
    | binary upper => exact Nat.add_pos_left Nat.two_pos _
  dsimp only at length
  omega

theorem above_eq (value : BitVec 64) (bits : Nat) :
    above value bits = decide (2 ^ (bits + 1) ≤ value.toNat) := by
  have masked (i : Nat) : (value &&& (~~~1#64 <<< bits)).getLsbD i =
      (value.toNat.testBit i && decide (bits + 1 ≤ i)) := by
    by_cases inside : i < 64
    · rw [BitVec.getLsbD_and, BitVec.getLsbD_shiftLeft, BitVec.getLsbD_not, BitVec.getLsbD_one]
      have shifted : (decide (i < 64) && !decide (i < bits) &&
          (decide (i - bits < 64) && !(decide (0 < 64) && decide (i - bits = 0)))) =
            decide (bits + 1 ≤ i) := by
        grind
      rw [shifted]
      rfl
    · rw [BitVec.getLsbD_of_ge _ _ (Nat.not_lt.mp inside),
        Nat.testBit_lt_two_pow (Nat.lt_of_lt_of_le value.isLt
          (Nat.pow_le_pow_right Nat.two_pos (Nat.not_lt.mp inside)))]
      rfl
  unfold above
  rw [Bool.eq_iff_iff, bne_iff_ne, decide_eq_true_iff, Ne, not_iff_comm, Nat.not_le]
  constructor
  · intro small
    refine BitVec.eq_of_getLsbD_eq fun i _ => ?_
    rw [masked, BitVec.getLsbD_zero]
    by_cases high : bits + 1 ≤ i
    · rw [Nat.testBit_lt_two_pow (Nat.lt_of_lt_of_le small
        (Nat.pow_le_pow_right Nat.two_pos high)), Bool.false_and]
    · rw [decide_eq_false high, Bool.and_false]
  · intro zero
    refine Nat.lt_pow_two_of_testBit _ fun i high => ?_
    have bit := masked i
    rw [zero, BitVec.getLsbD_zero, decide_eq_true high, Bool.and_true] at bit
    exact bit.symm

theorem topBit_eq {value : BitVec 64} {bits : Nat} (small : bits < 64)
    (fits : value.toNat < 2 ^ (bits + 1)) :
    topBit value bits = decide (2 ^ bits ≤ value.toNat) := by
  have masked (i : Nat) : (value &&& (1#64 <<< bits)).getLsbD i =
      (value.toNat.testBit i && decide (i = bits)) := by
    rw [BitVec.getLsbD_and, ← BitVec.twoPow_eq, BitVec.getLsbD_twoPow, decide_eq_true small,
      Bool.true_and]
    rw [show decide (bits = i) = decide (i = bits) from decide_eq_decide.mpr eq_comm]
    rfl
  unfold topBit
  rw [Bool.eq_iff_iff, bne_iff_ne, decide_eq_true_iff, Ne, not_iff_comm, Nat.not_le]
  constructor
  · intro less
    refine BitVec.eq_of_getLsbD_eq fun i _ => ?_
    rw [masked, BitVec.getLsbD_zero]
    by_cases same : i = bits
    · rw [same, Nat.testBit_lt_two_pow less, Bool.false_and]
    · rw [decide_eq_false same, Bool.and_false]
  · intro zero
    refine Nat.lt_pow_two_of_testBit _ fun i high => ?_
    rcases Nat.lt_or_eq_of_le high with later | rfl
    · exact Nat.testBit_lt_two_pow (Nat.lt_of_lt_of_le fits
        (Nat.pow_le_pow_right Nat.two_pos later))
    · have bit := masked bits
      rw [zero, BitVec.getLsbD_zero, decide_eq_true rfl, Bool.and_true] at bit
      exact bit.symm

/-- The two masks at a width compare the value with two powers. -/
theorem masks_step {α : Type} {width : Nat} (positive : 0 < width) (inside : width ≤ 64)
    (value : BitVec 64) (wide top low : α) :
    (if above value (width - 1) then wide else if topBit value (width - 1) then top else low) =
      if value.toNat < 2 ^ (width - 1) then low
      else if value.toNat < 2 ^ width then top else wide := by
  have size : width - 1 + 1 = width := Nat.sub_add_cancel positive
  rw [above_eq, size]
  by_cases fits : value.toNat < 2 ^ width
  · rw [decide_eq_false (Nat.not_le.mpr fits), if_neg Bool.false_ne_true,
      topBit_eq (by omega) (size.symm ▸ fits)]
    by_cases small : value.toNat < 2 ^ (width - 1)
    · rw [decide_eq_false (Nat.not_le.mpr small), if_neg Bool.false_ne_true, if_pos small]
    · rw [decide_eq_true (Nat.not_lt.mp small), if_pos rfl, if_neg small, if_pos fits]
  · have large : ¬ value.toNat < 2 ^ (width - 1) := fun small =>
      fits (Nat.lt_of_lt_of_le small (Nat.pow_le_pow_right Nat.two_pos (Nat.sub_le _ _)))
    rw [decide_eq_true (Nat.not_lt.mp fits), if_pos rfl, if_neg large, if_neg fits]

def candidatesFrom (decimal wantUnsigned : Bool) (rank : Nat) : List NumberType :=
  if wantUnsigned then unsignedCandidates rank else signedCandidates decimal rank

def rankCandidates (decimal wantUnsigned : Bool) (rank : Nat) : List NumberType :=
  if wantUnsigned then [ctypeInteger rank true]
  else if decimal then [ctypeInteger rank false]
  else [ctypeInteger rank false, ctypeInteger rank true]

theorem candidatesFrom_succ (decimal wantUnsigned : Bool) {rank : Nat} (small : rank < 2) :
    candidatesFrom decimal wantUnsigned rank =
      rankCandidates decimal wantUnsigned rank ++
        candidatesFrom decimal wantUnsigned (rank + 1) := by
  rcases Nat.lt_succ_iff_lt_or_eq.mp small with lower | rfl
  · obtain rfl := Nat.lt_one_iff.mp lower
    cases decimal <;> cases wantUnsigned <;> rfl
  · cases decimal <;> cases wantUnsigned <;> rfl

theorem candidatesFrom_two (decimal wantUnsigned : Bool) :
    candidatesFrom decimal wantUnsigned 2 = rankCandidates decimal wantUnsigned 2 ++ [] := by
  cases decimal <;> cases wantUnsigned <;> rfl

section Walk

variable {Fvalue : Type} {widths : Widths} {suffixWarning : Bool} {str : List Char}
  {value : BitVec 64} {decimal wantUnsigned : Bool} {type : NumberType} {doWarn : Nat}

/-- The first type is the first candidate or comes later. -/
theorem find_cons {number : Nat} {candidate : NumberType} {candidates : List NumberType}
    (first : (candidate :: candidates).find? (widths.represents number) = some type) :
    (widths.represents number candidate = true ∧ candidate = type) ∨
      (widths.represents number candidate = false ∧
        candidates.find? (widths.represents number) = some type) := by
  rw [List.find?_cons] at first
  cases found : widths.represents number candidate with
  | true =>
    rw [found] at first
    exact Or.inl ⟨rfl, Option.some.inj first⟩
  | false =>
    rw [found] at first
    exact Or.inr ⟨rfl, first⟩

/-- One width of the walk finds the type among the candidates of the rank, or leaves it to what
follows. -/
theorem masks_first {width rank : Nat} {rest : List NumberType}
    {wide top low : NumberResult Fvalue} (positive : 0 < width) (inside : width ≤ 64)
    (signed : widths.represents value.toNat (ctypeInteger rank false) =
      decide (value.toNat < 2 ^ (width - 1)))
    (unsigned : widths.represents value.toNat (ctypeInteger rank true) =
      decide (value.toNat < 2 ^ width))
    (first : (rankCandidates decimal wantUnsigned rank ++ rest).find?
      (widths.represents value.toNat) = some type)
    (isLow : low.expr = .value value (ctypeInteger rank wantUnsigned) true)
    (isTop : (!decimal || wantUnsigned) = true →
      top.expr = .value value (ctypeInteger rank true) true)
    (later : (!decimal || wantUnsigned) = false →
      rest.find? (widths.represents value.toNat) = some type → top.expr = .value value type true)
    (isWide : ¬ value.toNat < 2 ^ width →
      rest.find? (widths.represents value.toNat) = some type → wide.expr = .value value type true) :
    (if above value (width - 1) then wide
      else if topBit value (width - 1) then top else low).expr = .value value type true := by
  have less : 2 ^ (width - 1) ≤ 2 ^ width := Nat.pow_le_pow_right Nat.two_pos (Nat.sub_le _ _)
  rw [masks_step positive inside]
  unfold rankCandidates at first
  cases wantUnsigned with
  | true =>
    rw [if_pos rfl] at first
    have always : (!decimal || true) = true := Bool.or_true _
    rcases find_cons first with ⟨found, rfl⟩ | ⟨other, behind⟩
    · rw [unsigned, decide_eq_true_iff] at found
      rw [if_pos found]
      split_ifs
      · exact isLow
      · exact isTop always
    · rw [unsigned, decide_eq_false_iff_not] at other
      rw [if_neg (by omega), if_neg other]
      exact isWide other behind
  | false =>
    rw [if_neg Bool.false_ne_true] at first
    cases decimal with
    | true =>
      rw [if_pos rfl] at first
      rcases find_cons first with ⟨found, rfl⟩ | ⟨other, behind⟩
      · rw [signed, decide_eq_true_iff] at found
        rw [if_pos found]
        exact isLow
      · rw [signed, decide_eq_false_iff_not] at other
        rw [if_neg other]
        split_ifs with fits
        · exact later rfl behind
        · exact isWide fits behind
    | false =>
      rw [if_neg Bool.false_ne_true] at first
      rcases find_cons first with ⟨found, rfl⟩ | ⟨other, first⟩
      · rw [signed, decide_eq_true_iff] at found
        rw [if_pos found]
        exact isLow
      · rw [signed, decide_eq_false_iff_not] at other
        rw [if_neg other]
        rcases find_cons first with ⟨found, rfl⟩ | ⟨wide, behind⟩
        · rw [unsigned, decide_eq_true_iff] at found
          rw [if_pos found]
          exact isTop rfl
        · rw [unsigned, decide_eq_false_iff_not] at wide
          rw [if_neg wide]
          exact isWide wide behind

theorem Widths.bounds (widths : Widths) : (0 < widths.int ∧ widths.int ≤ 64) ∧
    (0 < widths.long ∧ widths.long ≤ 64) ∧ 0 < widths.longlong ∧ widths.longlong ≤ 64 := by
  obtain ⟨int, long, longlong, one, two, three, four⟩ := widths
  dsimp only
  omega

theorem tryLongLong_first
    (first : (candidatesFrom decimal wantUnsigned 2).find? (widths.represents value.toNat) =
      some type) :
    (tryLongLong widths suffixWarning str value wantUnsigned (!decimal || wantUnsigned) doWarn :
      NumberResult Fvalue).expr = .value value type true := by
  obtain ⟨-, -, positive, inside⟩ := widths.bounds
  rw [candidatesFrom_two] at first
  refine masks_first positive inside rfl rfl first rfl (fun _ => rfl) ?_ ?_
  · intro _ none
    cases none
  · intro _ none
    cases none

theorem tryLong_first
    (first : (candidatesFrom decimal wantUnsigned 1).find? (widths.represents value.toNat) =
      some type) :
    (tryLong widths suffixWarning str value wantUnsigned (!decimal || wantUnsigned) doWarn :
      NumberResult Fvalue).expr = .value value type true := by
  obtain ⟨-, ⟨positive, inside⟩, -⟩ := widths.bounds
  rw [candidatesFrom_succ decimal wantUnsigned (by decide)] at first
  refine masks_first positive inside rfl rfl first rfl ?_ ?_ ?_
  · intro may
    rw [may]
    rfl
  · intro not behind
    have next := @tryLongLong_first Fvalue widths suffixWarning str value decimal wantUnsigned type
      (doWarn ||| 2 ||| 1) behind
    rw [not] at next ⊢
    exact next
  · intro _ behind
    exact tryLongLong_first behind

theorem tryInt_first
    (first : (candidatesFrom decimal wantUnsigned 0).find? (widths.represents value.toNat) =
      some type) :
    (tryInt widths suffixWarning str value wantUnsigned (!decimal || wantUnsigned) :
      NumberResult Fvalue).expr = .value value type true := by
  obtain ⟨⟨positive, inside⟩, -⟩ := widths.bounds
  rw [candidatesFrom_succ decimal wantUnsigned (by decide)] at first
  refine masks_first positive inside rfl rfl first rfl ?_ ?_ ?_
  · intro may
    rw [may]
    rfl
  · intro not behind
    have next := @tryLong_first Fvalue widths suffixWarning str value decimal wantUnsigned type 1
      behind
    rw [not] at next ⊢
    exact next
  · intro _ behind
    exact tryLong_first behind

end Walk

theorem represents_lt {widths : Widths} {number : Nat} {type : NumberType}
    (fits : widths.represents number type = true) : number < 2 ^ 64 := by
  obtain ⟨⟨-, int⟩, ⟨-, long⟩, -, longlong⟩ := widths.bounds
  have less := of_decide_eq_true fits
  refine Nat.lt_of_lt_of_le less (Nat.pow_le_pow_right Nat.two_pos ?_)
  have width : widths.width type ≤ 64 := by
    cases type <;> assumption
  split_ifs
  · exact width
  · exact Nat.le_trans (Nat.sub_le _ _) width

theorem rank_cases (suffix : Suffix) : suffix.rank = 0 ∨ suffix.rank = 1 ∨ suffix.rank = 2 := by
  obtain ⟨unsigned, long, unsignedFirst⟩ := suffix
  rcases long with _ | ⟨upper, _ | _⟩
  · exact Or.inl rfl
  · exact Or.inr (Or.inl rfl)
  · exact Or.inr (Or.inr rfl)

/-- A literal has its number and the first type that can represent it. -/
theorem getNumberValue_first {Fvalue : Type} (widths : Widths) (suffixWarning : Bool)
    (stringToLd : List Char → Fvalue × List Char) (literal : Literal) (type : NumberType)
    (first : literal.firstType widths = some type) :
    ∃ value, (getNumberValue widths suffixWarning literal.text stringToLd).expr =
      .value value type true ∧ value.toNat = literal.number := by
  have small := represents_lt (List.find?_some first)
  have number : (BitVec.ofNat 64 literal.number).toNat = literal.number := by
    rw [BitVec.toNat_ofNat, Nat.mod_eq_of_lt small]
  refine ⟨BitVec.ofNat 64 literal.number, ?_, number⟩
  have candidates : (candidatesFrom (literal.base == .decimal) literal.suffix.unsigned.isSome
      literal.suffix.rank).find?
        (widths.represents (BitVec.ofNat 64 literal.number).toNat) = some type := by
    rw [number]
    exact first
  unfold getNumberValue
  dsimp only
  rw [parseNum_literal literal small, if_neg (literal_parsed literal), suffix_loop]
  dsimp only
  rw [if_neg fun both => Bool.false_ne_true both.2]
  unfold integerValue
  dsimp only
  rw [literal_zero]
  rcases rank_cases literal.suffix with rank | rank | rank
  · rw [rank] at candidates ⊢
    exact tryInt_first candidates
  · rw [rank] at candidates ⊢
    exact tryLong_first candidates
  · rw [rank] at candidates ⊢
    exact tryLongLong_first candidates

def commonWidths : Widths := ⟨32, 64, 64, by decide, by decide, by decide, rfl⟩

def sampleLiteral : Literal :=
  ⟨.hexadecimal false, List.replicate 8 'f', ⟨none, none, true⟩,
    fun _ member => (List.eq_of_mem_replicate member) ▸ rfl, List.cons_ne_nil _ _⟩

theorem getNumberValue_sample :
    ∃ value, (getNumberValue commonWidths true sampleLiteral.text fun text => ((), text)).expr =
      .value value .uint true ∧ value.toNat = sampleLiteral.number :=
  getNumberValue_first commonWidths true _ sampleLiteral .uint (by decide)

end SmatchFormal.Tokenizer
