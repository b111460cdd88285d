import SmatchFormal.Ranges.Text

/-!
# Reading back the text of a range list

`str_to_rl` inverts the text of a canonical list.  `show_rl` prints that text, or
the text of a canonical list that has more values.
-/

namespace SmatchFormal.Ranges

open SmatchFormal.Lib List

/-! ## One value -/

/-- What can stand after a value in a text of `show_rl`. -/
def Follows (rest : List Char) : Prop :=
  rest = [] ∨ ∃ tail, rest = ',' :: tail ∨ rest = '-' :: tail

section Value

variable {type : Ctype} {sval : Sval} {rest : List Char}

theorem Follows.nil : Follows [] := .inl rfl

theorem Follows.comma (tail : List Char) : Follows (',' :: tail) := .inr ⟨tail, .inl rfl⟩

theorem Follows.dash (tail : List Char) : Follows ('-' :: tail) := .inr ⟨tail, .inr rfl⟩

theorem Follows.stops (follows : Follows rest) : Strtol.Stops rest := by
  rcases follows with rfl | ⟨tail, rfl | rfl⟩
  · exact nofun
  · intro c found
    rw [← Option.some.inj found]
    decide
  · intro c found
    rw [← Option.some.inj found]
    decide

theorem Follows.skipChar (follows : Follows rest) : skipChar ')' rest = rest := by
  rcases follows with rfl | ⟨tail, rfl | rfl⟩ <;> rfl

theorem Follows.not_plus (follows : Follows rest) : rest.head? ≠ some '+' := by
  rcases follows with rfl | ⟨tail, rfl | rfl⟩ <;> simp

theorem stops_close (rest : List Char) : Strtol.Stops (')' :: rest) := by
  intro c found
  rw [← Option.some.inj found]
  decide

/-- A text that starts with a digit or a sign is no name. -/
theorem namedVals_find? {c : Char} (tail : List Char) (number : c.isDigit = true ∨ c = '-') :
    ((namedVals type).find? fun entry => entry.1.isPrefixOf (c :: tail)) = none := by
  have letters : ∀ first ∈ ['m', 'u', 's', 'l', 'p'], (first == c) = false := by
    intro first member
    apply beq_eq_false_iff_ne.mpr
    rintro rfl
    rcases number with digit | dash
    · simp only [mem_cons, not_mem_nil, or_false] at member
      rcases member with rfl | rfl | rfl | rfl | rfl <;> exact absurd digit (by decide)
    · subst dash
      exact absurd member (by decide)
  simp only [mem_cons, not_mem_nil, or_false, forall_eq_or_imp, forall_eq] at letters
  obtain ⟨m, u, s, l, p⟩ := letters
  simp [namedVals, List.find?, List.isPrefixOf, m, u, s, l, p]

theorem parseVal_number {c : Char} (tail : List Char) (number : c.isDigit = true ∨ c = '-') :
    parseVal type (c :: tail) =
      if typePositiveBits type = 64 then
        some (svalTypeVal type (Strtol.strtoull (c :: tail)).1, (Strtol.strtoull (c :: tail)).2)
      else
        some (svalTypeVal type (BitVec.ofInt 64 (Strtol.strtoll (c :: tail)).1),
          (Strtol.strtoll (c :: tail)).2) := by
  have bracket : ¬ (c :: tail).head? = some '[' := by
    intro found
    rw [Option.some.inj found] at number
    exact absurd number (by decide)
  unfold parseVal
  rw [namedVals_find? tail number]
  simp only [if_neg bracket]

/-- A text of a value is read back, up to the parenthesis that may close it. -/
def ReadsBack (type : Ctype) (sval : Sval) (text rest : List Char) : Prop :=
  ∃ c, parseVal type (skipChar '(' (text ++ rest)) = some (sval, c) ∧
    skipChar ')' c = rest ∧ c.head? ≠ some '+'

/-- The loop of `str_to_rl_helper` goes on to parse a value here. -/
def StartsValue (text : List Char) : Prop :=
  ∃ c tail, text = c :: tail ∧ c ≠ '[' ∧ c ≠ '+' ∧ c ≠ 'e'

def IsName (name : List Char) (word : BitVec 64) : Prop :=
  (name.length = 6 ∧ StartsValue name) ∧ ∀ (type : Ctype) (rest : List Char),
    parseVal type (name ++ rest) = some (svalTypeVal type word, rest) ∧
      skipChar '(' (name ++ rest) = name ++ rest

theorem raw_of_value {value : Int} (same : sval.value = value) :
    sval.raw = BitVec.ofInt 64 value := by
  rw [← same]
  exact BitVec.ofInt_toInt.symm

/-- A value is printed as a name, as a decimal number or in parentheses. -/
theorem svalToStr_cases (sval : Sval) :
    IsName (svalToStr sval) sval.raw ∨
      0 ≤ sval.val ∧ svalToStr sval = Nat.toDigits 10 sval.uvalue ∨
      sval.val < 0 ∧
        svalToStr sval = '(' :: '-' :: (Nat.toDigits 10 sval.value.natAbs ++ [')']) := by
  generalize found : svalToStr sval = text
  unfold svalToStr at found
  split at found
  · rename_i test
    rw [← found, (beq_iff_eq.mp (Bool.and_eq_true_iff.mp test).2)]
    exact .inl ⟨⟨rfl, _, _, rfl, by decide⟩, fun _ _ => ⟨rfl, rfl⟩⟩
  split at found
  · rename_i test
    rw [← found, raw_of_value (beq_iff_eq.mp (Bool.and_eq_true_iff.mp test).2)]
    exact .inl ⟨⟨rfl, _, _, rfl, by decide⟩, fun _ _ => ⟨rfl, rfl⟩⟩
  split at found
  · rename_i test
    rw [← found, raw_of_value (beq_iff_eq.mp test)]
    exact .inl ⟨⟨rfl, _, _, rfl, by decide⟩, fun _ _ => ⟨rfl, rfl⟩⟩
  split at found
  · rename_i test
    rw [← found, raw_of_value (beq_iff_eq.mp (Bool.and_eq_true_iff.mp test).2)]
    exact .inl ⟨⟨rfl, _, _, rfl, by decide⟩, fun _ _ => ⟨rfl, rfl⟩⟩
  split at found
  · rename_i test
    rw [← found, raw_of_value (beq_iff_eq.mp test)]
    exact .inl ⟨⟨rfl, _, _, rfl, by decide⟩, fun _ _ => ⟨rfl, rfl⟩⟩
  split at found
  · rename_i test
    rw [← found, raw_of_value (beq_iff_eq.mp test)]
    exact .inl ⟨⟨rfl, _, _, rfl, by decide⟩, fun _ _ => ⟨rfl, rfl⟩⟩
  split at found
  · rename_i test
    rw [← found, raw_of_value (beq_iff_eq.mp (Bool.and_eq_true_iff.mp test).2)]
    exact .inl ⟨⟨rfl, _, _, rfl, by decide⟩, fun _ _ => ⟨rfl, rfl⟩⟩
  split at found
  · rename_i test
    rw [← found, raw_of_value (beq_iff_eq.mp (Bool.and_eq_true_iff.mp test).2)]
    exact .inl ⟨⟨rfl, _, _, rfl, by decide⟩, fun _ _ => ⟨rfl, rfl⟩⟩
  split at found
  · rename_i test
    rw [← found, raw_of_value (beq_iff_eq.mp (Bool.and_eq_true_iff.mp test).2)]
    exact .inl ⟨⟨rfl, _, _, rfl, by decide⟩, fun _ _ => ⟨rfl, rfl⟩⟩
  split at found
  · rename_i unsigned
    refine .inr (.inl ⟨?_, found.symm⟩)
    rw [Sval.val_of_unsigned unsigned]
    exact Int.natCast_nonneg _
  · rename_i signed
    have value := Sval.val_of_signed (Bool.eq_false_iff.mpr signed)
    split at found
    · rename_i negative
      exact .inr (.inr ⟨by rw [value]; exact negative, found.symm⟩)
    · rename_i positive
      refine .inr (.inl ⟨by rw [value]; exact Int.not_lt.mp positive, ?_⟩)
      have word := sval.uvalue_eq
      have bounds := sval.val_bounds
      have same : sval.uvalue = sval.value.natAbs := by omega
      rw [same, found]

theorem readsBack_named {name : List Char} (typed : sval.OfType type) (follows : Follows rest)
    (named : IsName name sval.raw) : ReadsBack type sval name rest := by
  obtain ⟨parsed, plain⟩ := named.2 type rest
  refine ⟨rest, ?_, follows.skipChar, follows.not_plus⟩
  rw [plain, parsed, svalTypeVal, ← typed.1]

/-- A value that is printed as a decimal number. -/
theorem readsBack_digits (typed : sval.OfType type) (follows : Follows rest)
    (positive : 0 ≤ sval.val) : ReadsBack type sval (Nat.toDigits 10 sval.uvalue) rest := by
  obtain ⟨c, tail, found, digit⟩ := Strtol.exists_digit sval.uvalue rest
  have opened : skipChar '(' (c :: tail) = c :: tail := by
    apply if_neg
    rintro rfl
    exact absurd digit (by decide)
  refine ⟨rest, ?_, follows.skipChar, follows.not_plus⟩
  rw [found, opened, parseVal_number tail (.inl digit), ← found]
  split_ifs with wide
  · have read := Strtol.strtoull_toDigits sval.raw follows.stops
    change some (svalTypeVal type (Strtol.strtoull (Nat.toDigits 10 sval.raw.toNat ++ rest)).1, _) =
      some (sval, rest)
    rw [show Nat.toDigits 10 sval.uvalue = Nat.toDigits 10 sval.raw.toNat from rfl, read,
      svalTypeVal, ← typed.1]
  · have small : sval.uvalue < 2 ^ 63 := by
      have top := IntKind.hi_of_positiveBits wide
      have word := sval.uvalue_eq
      have bound := typed.2.2
      unfold Ctype.hi at bound
      omega
    rw [Strtol.strtoll_toDigits small follows.stops, svalTypeVal, BitVec.ofInt_natCast, ← typed.1]
    change some ((⟨sval.type, BitVec.ofNat 64 sval.raw.toNat⟩ : Sval), rest) = _
    rw [BitVec.ofNat_toNat, BitVec.setWidth_eq]

theorem readsBack_negative (typed : sval.OfType type) (negative : sval.val < 0) :
    ReadsBack type sval ('(' :: '-' :: (Nat.toDigits 10 sval.value.natAbs ++ [')'])) rest := by
  have signed : typeUnsigned sval.type = false := by
    cases sign : typeUnsigned sval.type with
    | false => rfl
    | true =>
      rw [Sval.val_of_unsigned sign] at negative
      omega
  have narrow : typePositiveBits type ≠ 64 := by
    rw [← typed.1]
    exact IntKind.positiveBits_of_signed signed
  have value := Sval.val_of_signed signed
  have bounds := sval.val_bounds
  have read := Strtol.strtoll_neg_toDigits (show sval.value.natAbs ≤ 2 ^ 63 by omega)
    (stops_close rest)
  refine ⟨')' :: rest, ?_, rfl, by simp⟩
  have text : skipChar '(' ('(' :: '-' :: (Nat.toDigits 10 sval.value.natAbs ++ [')']) ++ rest) =
      '-' :: (Nat.toDigits 10 sval.value.natAbs ++ ')' :: rest) := by
    simp [skipChar]
  rw [text, parseVal_number _ (.inr rfl), if_neg narrow, read, svalTypeVal, ← typed.1]
  have number : -(sval.value.natAbs : Int) = sval.value := by omega
  rw [number, ← raw_of_value rfl]

theorem readsBack (typed : sval.OfType type) (follows : Follows rest) :
    ReadsBack type sval (svalToStr sval) rest := by
  rcases svalToStr_cases sval with named | ⟨positive, text⟩ | ⟨negative, text⟩
  · exact readsBack_named typed follows named
  · rw [text]
    exact readsBack_digits typed follows positive
  · rw [text]
    exact readsBack_negative typed negative

theorem svalToStr_starts (sval : Sval) : StartsValue (svalToStr sval) := by
  rcases svalToStr_cases sval with named | ⟨-, text⟩ | ⟨-, text⟩
  · exact named.1.2
  · obtain ⟨c, tail, found, digit⟩ := Strtol.exists_digit sval.uvalue []
    rw [append_nil] at found
    rw [text, found]
    refine ⟨c, tail, rfl, ?_, ?_, ?_⟩
    · rintro rfl
      exact absurd digit (by decide)
    · rintro rfl
      exact absurd digit (by decide)
    · rintro rfl
      exact absurd digit (by decide)
  · rw [text]
    exact ⟨_, _, rfl, by decide⟩

/-- The longest text is that of a negative number of nineteen digits. -/
theorem svalToStr_length (sval : Sval) : (svalToStr sval).length ≤ 22 := by
  have digits : ∀ {n k : Nat}, 0 < k → n < 10 ^ k → (Nat.toDigits 10 n).length ≤ k :=
    fun positive small => (Nat.length_toDigits_le_iff (by decide) positive).mpr small
  rcases svalToStr_cases sval with named | ⟨-, text⟩ | ⟨-, text⟩
  · rw [named.1.1]
    decide
  · rw [text]
    have word : sval.uvalue < 2 ^ 64 := sval.raw.isLt
    exact Nat.le_trans (digits (by decide) (show sval.uvalue < 10 ^ 20 by omega)) (by decide)
  · rw [text]
    have bounds := sval.value_eq
    have short := digits (k := 19) (by decide) (show sval.value.natAbs < 10 ^ 19 by omega)
    simp only [length_cons, length_append, length_nil]
    omega

end Value

section Range

variable {type : Ctype} {tmp : DataRange} {rest : List Char}

theorem rangeText_starts (tmp : DataRange) : StartsValue (rangeText tmp) := by
  obtain ⟨c, tail, found, first⟩ := svalToStr_starts tmp.min
  unfold rangeText
  split
  · exact ⟨c, tail, found, first⟩
  · exact ⟨c, _, by rw [found]; rfl, first⟩

theorem rangeText_length (tmp : DataRange) : (rangeText tmp).length ≤ 45 := by
  have low := svalToStr_length tmp.min
  have high := svalToStr_length tmp.max
  unfold rangeText
  split
  · omega
  · rw [length_append, length_cons]
    omega

/-- The first tests of an iteration on the text of a range. -/
theorem StartsValue.tests {text : List Char} (starts : StartsValue text) (rest : List Char) :
    ¬ endsText (text ++ rest) ∧ (text ++ rest).head? ≠ some '+' := by
  obtain ⟨c, tail, rfl, bracket, plus, -⟩ := starts
  refine ⟨?_, ?_⟩
  · rintro (none | some)
    · cases none
    · exact bracket (Option.some.inj some)
  · exact fun found => plus (Option.some.inj found)

variable {prevMin min max : Sval} {acc : RangeList} {fuel : Nat}

theorem svalFits_self {sval : Sval} (typed : sval.OfType type) : svalFits type sval = true :=
  (svalFits_iff type typed).mpr typed.2

/-- An iteration that reads a single value at the end of the text. -/
theorem strToRlLoop_last {sval : Sval} (typed : sval.OfType type) :
    strToRlLoop type (fuel + 1) (svalToStr sval ++ []) prevMin min max acc =
      some (addRangeT type acc sval sval, []) := by
  obtain ⟨ended, plus⟩ := (svalToStr_starts sval).tests []
  obtain ⟨c, parsed, closed, -⟩ := readsBack typed .nil
  rw [strToRlLoop, if_neg ended, if_neg plus]
  simp only [parsed, closed, svalFits_self typed, Bool.not_true, Bool.false_eq_true, if_false]
  exact if_pos (.inl rfl)

/-- An iteration that reads a single value and the comma after it. -/
theorem strToRlLoop_comma {sval : Sval} (typed : sval.OfType type) :
    strToRlLoop type (fuel + 1) (svalToStr sval ++ ',' :: rest) prevMin min max acc =
      strToRlLoop type fuel rest prevMin sval sval (addRangeT type acc sval sval) := by
  obtain ⟨ended, plus⟩ := (svalToStr_starts sval).tests (',' :: rest)
  obtain ⟨c, parsed, closed, -⟩ := readsBack typed (.comma rest)
  have comma : ¬ endsText (',' :: rest) := by simp [endsText]
  rw [strToRlLoop, if_neg ended, if_neg plus]
  simp only [parsed, closed, svalFits_self typed, Bool.not_true, Bool.false_eq_true, if_false,
    comma, List.head?_cons, if_true, tail_cons]

/-- An iteration that reads a range with two ends. -/
theorem strToRlLoop_range {low high : Sval} (lowTyped : low.OfType type)
    (highTyped : high.OfType type) (follows : Follows rest) :
    strToRlLoop type (fuel + 1) (svalToStr low ++ '-' :: (svalToStr high ++ rest)) prevMin min max
        acc =
      strToRlLoop type fuel (skipChar ',' rest) high low high (addRangeT type acc low high) := by
  obtain ⟨ended, plus⟩ := (svalToStr_starts low).tests ('-' :: (svalToStr high ++ rest))
  obtain ⟨c, parsed, closed, -⟩ := readsBack lowTyped (.dash (svalToStr high ++ rest))
  obtain ⟨c', parsed', closed', plus'⟩ := readsBack highTyped follows
  have dash : ¬ endsText ('-' :: (svalToStr high ++ rest)) := by simp [endsText]
  have other : ¬ some '-' = some ',' := by decide
  have noPlus : ¬ some '-' = some '+' := by decide
  rw [strToRlLoop, if_neg ended, if_neg plus]
  simp only [parsed, closed, svalFits_self lowTyped, Bool.not_true, Bool.false_eq_true, if_false,
    dash, List.head?_cons, other, noPlus, false_and, ne_eq, not_true_eq_false, tail_cons,
    parsed', plus', svalFits_self highTyped, reduceCtorEq, or_self, closed']

end Range

/-! ## The list -/

/-- The text of a list without a length limit. -/
def listText : RangeList → List Char
  | [] => []
  | [tmp] => rangeText tmp
  | tmp :: rest => rangeText tmp ++ ',' :: listText rest

section List

variable {type : Ctype} {rl : RangeList}

theorem strToRlLoop_nil {fuel : Nat} (enough : 0 < fuel) (prevMin min max : Sval)
    (acc : RangeList) : strToRlLoop type fuel [] prevMin min max acc = some (acc, []) := by
  obtain ⟨fuel, rfl⟩ := Nat.exists_eq_add_of_lt enough
  rw [Nat.zero_add, strToRlLoop]
  exact if_pos (.inl rfl)

/-- A range is read as one value or as two, and then the loop goes on. -/
theorem strToRlLoop_rangeText {tmp : DataRange} {rest : List Char} {prevMin min max : Sval}
    {acc : RangeList} {fuel : Nat} (low : tmp.min.OfType type) (high : tmp.max.OfType type)
    (enough : 0 < fuel) (follows : rest = [] ∨ ∃ tail, rest = ',' :: tail) :
    ∃ prevMin' min' max', strToRlLoop type (fuel + 1) (rangeText tmp ++ rest) prevMin min max acc =
      strToRlLoop type fuel (skipChar ',' rest) prevMin' min' max'
        (addRangeT type acc tmp.min tmp.max) := by
  unfold rangeText
  rw [svalCmp_ofType low high]
  simp only [intCmp_eq_zero]
  split_ifs with single
  · have same : tmp.max = tmp.min := Sval.ext_val (high.1.trans low.1.symm) single.symm
    rw [same]
    rcases follows with rfl | ⟨tail, rfl⟩
    · refine ⟨prevMin, min, max, ?_⟩
      rw [strToRlLoop_last low]
      exact (strToRlLoop_nil enough _ _ _ _).symm
    · exact ⟨prevMin, tmp.min, tmp.min, strToRlLoop_comma low⟩
  · refine ⟨tmp.max, tmp.min, tmp.max, ?_⟩
    rw [append_assoc, cons_append]
    apply strToRlLoop_range low high
    rcases follows with rfl | ⟨tail, rfl⟩
    · exact .nil
    · exact .comma tail

/-- The loop reads the text of a list range by range. -/
theorem strToRlLoop_listText (canonical : Canonical type rl) {fuel : Nat}
    (enough : (listText rl).length < fuel) (prevMin min max : Sval) (acc : RangeList) :
    strToRlLoop type fuel (listText rl) prevMin min max acc =
      some (rl.foldl (fun ret tmp => addRangeT type ret tmp.min tmp.max) acc, []) := by
  induction rl generalizing fuel prevMin min max acc with
  | nil => exact strToRlLoop_nil enough _ _ _ _
  | cons tmp rl ih =>
    obtain ⟨low, high, -⟩ := canonical.head
    obtain ⟨fuel, rfl⟩ := Nat.exists_eq_add_of_lt (Nat.lt_of_le_of_lt (Nat.zero_le _) enough)
    have filled : 0 < (rangeText tmp).length := by
      obtain ⟨c, tail, found, -⟩ := rangeText_starts tmp
      rw [found]
      exact Nat.succ_pos _
    rw [Nat.zero_add] at enough ⊢
    cases rl with
    | nil =>
      have more : 0 < fuel := by
        simp only [listText] at enough
        omega
      obtain ⟨prevMin', min', max', step⟩ := @strToRlLoop_rangeText type tmp [] prevMin min max
        acc fuel low high more (.inl rfl)
      rw [append_nil] at step
      rw [listText, step]
      exact strToRlLoop_nil more _ _ _ _
    | cons next rl =>
      have more : (listText (next :: rl)).length < fuel := by
        rw [listText, length_append, length_cons] at enough
        · omega
        · exact nofun
      obtain ⟨prevMin', min', max', step⟩ := @strToRlLoop_rangeText type tmp
        (',' :: listText (next :: rl)) prevMin min max acc fuel low high
        (Nat.lt_of_le_of_lt (Nat.zero_le _) more) (.inr ⟨_, rfl⟩)
      rw [listText, step]
      · exact ih canonical.tail more _ _ _ _
      · exact nofun

/-- Adding the ranges of a canonical list to the null list gives the list. -/
theorem foldl_addRangeT (canonical : Canonical type rl) :
    rl.foldl (fun ret tmp => addRangeT type ret tmp.min tmp.max) [] = rl := by
  obtain ⟨result, members⟩ := @castLoop_added type type rl [] canonical (.nil type)
  apply result.eq_of_rlSet_eq canonical
  ext x
  rw [members x, or_iff_left (mem_rlSet_nil x), mem_rlSet_iff]
  apply exists_congr
  intro drange
  apply and_congr_right
  intro member
  obtain ⟨first, order, last⟩ := ends_of_canonical canonical member
  rw [castEnds_self first order last]
  exact Iff.rfl

theorem listText_starts (nonempty : rl ≠ []) : StartsValue (listText rl) := by
  cases rl with
  | nil => exact absurd rfl nonempty
  | cons tmp rl =>
    obtain ⟨c, tail, found, first⟩ := rangeText_starts tmp
    cases rl with
    | nil => exact ⟨c, tail, found, first⟩
    | cons next rl =>
      refine ⟨c, tail ++ ',' :: listText (next :: rl), ?_, first⟩
      rw [listText, found]
      · rfl
      · exact nofun

theorem StartsValue.plain {text : List Char} (starts : StartsValue text) :
    text ≠ "empty".toList ∧ "[==$".toList.isPrefixOf text = false := by
  obtain ⟨c, tail, rfl, bracket, -, letter⟩ := starts
  refine ⟨?_, ?_⟩
  · intro same
    exact letter (List.cons.inj same).1
  · change ((('[' : Char) == c) && _) = false
    rw [beq_eq_false_iff_ne.mpr (Ne.symm bracket), Bool.false_and]

theorem strToRl_listText (canonical : Canonical type rl) :
    strToRl (some type) (listText rl) = some rl := by
  by_cases nonempty : rl = []
  · rw [nonempty]
    rfl
  obtain ⟨named, bracket⟩ := (listText_starts nonempty).plain
  have parsed : strToRlHelper type (listText rl) = some (rl, []) := by
    unfold strToRlHelper
    rw [strToRlLoop_listText canonical (Nat.lt_succ_self _), foldl_addRangeT canonical]
  unfold strToRl
  simp only [Option.getD_some, named, bracket, if_false, Bool.false_eq_true, parsed, ne_eq,
    not_true_eq_false, false_and, castRl_self canonical, rlIsSane_of_canonical canonical,
    Bool.not_true]

/-! ## What `show_rl` prints -/

theorem listText_snoc (init : RangeList) (last : DataRange) (filled : init ≠ []) :
    listText (init ++ [last]) = listText init ++ ',' :: rangeText last := by
  induction init with
  | nil => exact absurd rfl filled
  | cons tmp init ih =>
    cases init with
    | nil => rfl
    | cons next init =>
      have rest := ih nofun
      simp only [cons_append, listText] at rest ⊢
      rw [rest, append_assoc, cons_append]

theorem printAt_append {full text : List Char} (short : full.length + text.length < 255) :
    printAt full full.length text = full ++ text := by
  unfold printAt
  rw [take_length, take_of_length_le (by omega)]

def toTypeMax (last : DataRange) : DataRange := ⟨last.min, svalTypeMax last.min.type⟩

def abbreviation (last : DataRange) : List Char :=
  ',' :: (svalToStr last.min ++ '-' :: svalToStr (svalTypeMax last.min.type))

theorem abbreviation_length (last : DataRange) : (abbreviation last).length ≤ 46 := by
  have low := svalToStr_length last.min
  have high := svalToStr_length (svalTypeMax last.min.type)
  rw [abbreviation, length_cons, length_append, length_cons]
  omega

/-- The outcome of the loop on a list: its text, or the text up to some range that
is not the first and not the last one, and the abbreviation. -/
def Printed (list : RangeList) (result : List Char × Bool) : Prop :=
  result = (listText list, false) ∨
    ∃ init last rest, list = init ++ last :: rest ∧ init ≠ [] ∧ rest ≠ [] ∧
      result = (listText init ++ abbreviation last, true)

/-- The loop after at least one range.  The text written last starts at `prev`, where
48 bytes were left. -/
theorem showRlLoop_printed (init : RangeList) (last : DataRange) (rest : RangeList)
    (room : (listText init).length ≤ 207) (first : init = [] → (listText [last]).length ≤ 207) :
    Printed (init ++ last :: rest)
      (showRlLoop (listText (init ++ [last])) (listText (init ++ [last])).length
        (listText init).length (init.length + 1) (some last) rest) := by
  induction rest generalizing init last with
  | nil => exact .inl rfl
  | cons tmp rest ih =>
    rw [showRlLoop]
    simp only
    split_ifs with full zero
    · -- Less than 48 bytes are left: the last range is printed over.
      have filled : init ≠ [] := by
        rintro rfl
        have short := first rfl
        rw [nil_append] at full
        omega
      refine .inr ⟨init, last, tmp :: rest, rfl, filled, nofun, ?_⟩
      have length := abbreviation_length last
      rw [listText_snoc init last filled, printAt, take_left,
        take_of_length_le (by rw [← abbreviation]; omega)]
      rfl
    · exact zero.elim
    · have length := rangeText_length tmp
      have next := listText_snoc (init ++ [last]) tmp (by simp)
      rw [printAt_append (by rw [length_cons]; omega), ← length_append, ← next]
      have step := ih (init ++ [last]) tmp (by omega) (by simp)
      rw [append_assoc, singleton_append, length_append] at step
      exact step

theorem showRl_printed (list : RangeList) : Printed list (showRl list, showRlAbbreviates list) := by
  cases list with
  | nil => exact .inl rfl
  | cons tmp rest =>
    have length := rangeText_length tmp
    have step : showRlLoop [] 0 0 0 none (tmp :: rest) =
        showRlLoop (rangeText tmp) (rangeText tmp).length 0 1 (some tmp) rest := by
      have text := @printAt_append [] (rangeText tmp) (by rw [length_nil]; omega)
      rw [nil_append, length_nil] at text
      rw [showRlLoop]
      simp only [if_true, text, Nat.zero_add]
      exact if_neg (by decide)
    have printed := showRlLoop_printed [] tmp rest (by decide) (fun _ => by rw [listText]; omega)
    unfold showRl showRlAbbreviates
    rw [step]
    exact printed

variable {init rest : RangeList} {last : DataRange}

/-- A range with another one after it does not reach the maximum of the type. -/
theorem lt_hi_of_not_last (canonical : Canonical type (init ++ last :: rest)) (more : rest ≠ []) :
    last.min.OfType type ∧ last.min.val < type.hi := by
  induction init with
  | nil =>
    obtain ⟨low, -, order⟩ := canonical.head
    obtain ⟨next, found⟩ := List.exists_mem_of_ne_nil rest more
    have beyond := canonical.gap found
    have top := (canonical.typed next (mem_cons_of_mem _ found)).1.2.2
    exact ⟨low, by omega⟩
  | cons tmp init ih => exact ih canonical.tail

theorem abbreviation_eq (typed : last.min.OfType type) (below : last.min.val < type.hi) :
    abbreviation last = ',' :: rangeText (toTypeMax last) := by
  have different : ¬ svalCmp last.min (svalTypeMax last.min.type) = 0 := by
    rw [typed.1, svalCmp_ofType typed (svalTypeMax_ofType type), intCmp_eq_zero, svalTypeMax_val]
    exact Int.ne_of_lt below
  unfold rangeText
  rw [toTypeMax, if_neg different]
  rfl

/-- Widening the last range keeps a list canonical and only adds values. -/
theorem canonical_toTypeMax (canonical : Canonical type (init ++ last :: rest)) :
    Canonical type (init ++ [toTypeMax last]) ∧
      rlSet (init ++ last :: rest) ⊆ rlSet (init ++ [toTypeMax last]) := by
  induction init with
  | nil =>
    obtain ⟨low, high, order⟩ := canonical.head
    have top : (toTypeMax last).max.val = type.hi := by
      rw [toTypeMax, low.1, svalTypeMax_val]
    refine ⟨.singleton low ?_ ?_, ?_⟩
    · rw [toTypeMax, low.1]
      exact svalTypeMax_ofType type
    · rw [top]
      exact low.2.2
    · intro x member
      refine (mem_rlSet_cons x _ []).mpr (.inl ⟨?_, ?_⟩)
      · rcases (mem_rlSet_cons x last rest).mp member with near | far
        · exact near.1
        · have beyond := canonical.gap_of_mem far
          change last.min.val ≤ x
          omega
      · rw [top]
        exact (canonical.mem_type member).2
  | cons tmp init ih =>
    obtain ⟨low, high, order⟩ := canonical.head
    obtain ⟨wider, more⟩ := ih canonical.tail
    refine ⟨.cons low high order ?_ wider, ?_⟩
    · -- The first value of the widened tail is that of the tail.
      intro x member
      obtain ⟨source, inside, first, -⟩ := (mem_rlSet_iff x _).mp member
      rcases mem_append.mp inside with early | late
      · have beyond := canonical.gap (mem_append_left _ early)
        omega
      · have beyond := @Canonical.gap type tmp (init ++ last :: rest) canonical last (by simp)
        rw [mem_singleton.mp late] at first
        change last.min.val ≤ x at first
        omega
    · intro x member
      rcases (mem_rlSet_cons x tmp _).mp member with near | far
      · exact (mem_rlSet_cons x tmp _).mpr (.inl near)
      · exact (mem_rlSet_cons x tmp _).mpr (.inr (more far))

/-! ## The round trip -/

/-- Parsing the rendering of a list gives the list back, or a list with more values
when `show_rl` abbreviates. -/
theorem strToRl_showRl (canonical : Canonical type rl) :
    ∃ parsed, strToRl (some type) (showRl rl) = some parsed ∧
      (showRlAbbreviates rl = false → parsed = rl) ∧
      (showRlAbbreviates rl = true → rlSet rl ⊆ rlSet parsed) := by
  rcases showRl_printed rl with plain | ⟨init, last, rest, rfl, filled, more, cut⟩
  · obtain ⟨text, complete⟩ := Prod.mk.inj plain
    refine ⟨rl, ?_, fun _ => rfl, fun _ => Set.Subset.rfl⟩
    rw [text]
    exact strToRl_listText canonical
  · obtain ⟨text, abbreviated⟩ := Prod.mk.inj cut
    obtain ⟨typed, below⟩ := lt_hi_of_not_last canonical more
    obtain ⟨wider, superset⟩ := canonical_toTypeMax canonical
    refine ⟨init ++ [toTypeMax last], ?_, ?_, fun _ => superset⟩
    · rw [text, abbreviation_eq typed below, ← listText_snoc init _ filled]
      exact strToRl_listText wider
    · intro complete
      rw [abbreviated] at complete
      cases complete

def negativeGaps : RangeList :=
  [⟨intCtype.ofInt (-2 ^ 31), intCtype.ofInt (-5)⟩, ⟨intCtype.ofInt 0, intCtype.ofInt 0⟩,
    ⟨intCtype.ofInt 40, intCtype.ofInt (2 ^ 31 - 1)⟩]

theorem strToRl_showRl_negativeGaps :
    Canonical intCtype negativeGaps ∧ showRl negativeGaps = "s32min-(-5),0,40-s32max".toList ∧
      ∃ parsed, strToRl (some intCtype) (showRl negativeGaps) = some parsed ∧
        (showRlAbbreviates negativeGaps = false → parsed = negativeGaps) ∧
        (showRlAbbreviates negativeGaps = true → rlSet negativeGaps ⊆ rlSet parsed) :=
  ⟨by decide, by decide, strToRl_showRl (by decide)⟩

/-- Twenty ranges with ten digits at each end are abbreviated. -/
example : showRlAbbreviates ((List.range 20).map fun (i : Nat) =>
    ⟨intCtype.ofInt (1000000000 + 10 * i), intCtype.ofInt (1000000005 + 10 * i)⟩) = true := by
  decide

end List

end SmatchFormal.Ranges
