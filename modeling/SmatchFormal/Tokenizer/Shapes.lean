import SmatchFormal.Tokenizer.Idents

/-!
# Spellings of tokens

The texts that the scanner takes for one token, by the kind of the token.
-/

namespace SmatchFormal.Tokenizer

open SmatchFormal.Lib

def Spells (token : Token) : List Char → Prop
  | [] => False
  | c :: text => Strtol.isSpace c = false ∧ getOneToken c text = .token token []

theorem Spells.unique {first second : Token} {text : List Char} (one : Spells first text)
    (two : Spells second text) : first = second := by
  cases text with
  | nil => cases one
  | cons c text =>
    have same := one.2.symm.trans two.2
    cases same
    rfl

structure Lone (c : Char) : Prop where
  visible : Strtol.isSpace c = false
  letter : isLetter c = false
  digit : c.isDigit = false
  quote : isQuote c = false

def Special.text : Special → List Char
  | .single c => [c]
  | .combination value => value.text

def Special.Proper : Special → Prop
  | .single c => Lone c
  | .combination _ => True

def StartsNumber (c : Char) (tail : List Char) : Prop :=
  c.isDigit = true ∨ (c = '.' ∧ (tail.head?.any Char.isDigit) = true)

def LeadsLiteral (wide : Bool) (lead : List Char) : Prop :=
  if wide then lead = ['L'] ∨ lead = ['u'] else lead = []

inductive Shape : Token → List Char → Prop
  | ident {c : Char} {rest : List Char} (letter : isLetter c = true)
      (words : ∀ d ∈ rest, isWord d = true) (fits : (c :: rest).length ≤ identSize) :
      Shape (.ident (c :: rest)) (c :: rest)
  | number {c : Char} {tail : List Char} (starts : StartsNumber c tail)
      (body : numberTail tail = (tail, [])) :
      Shape (.number (if (c :: tail).length < numberSize then c :: tail else ['1'])) (c :: tail)
  | special {value : Special} (proper : value.Proper) : Shape (.special value) value.text
  | literal {delim : Char} {wide : Bool} {lead body bytes : List Char}
      (quote : isQuote delim = true) (leads : LeadsLiteral wide lead)
      (eaten : eatLoop delim false body = some (bytes, [])) :
      Shape (stringToken delim wide bytes) (lead ++ delim :: body)

theorem word_visible {c : Char} (word : isWord c = true) : Strtol.isSpace c = false := by
  have low : '0'.toNat ≤ c.toNat := by
    unfold isWord isLetter Char.isAlpha Char.isUpper Char.isLower Char.isDigit at word
    simp only [Bool.or_eq_true, Bool.and_eq_true, decide_eq_true_eq, beq_iff_eq, ge_iff_le,
      UInt32.le_iff_toNat_le] at word
    rcases word with ((⟨low, -⟩ | ⟨low, -⟩) | rfl) | ⟨low, -⟩
    · exact Nat.le_trans (by decide) low
    · exact Nat.le_trans (by decide) low
    · decide
    · exact low
  unfold Strtol.isSpace
  rw [Bool.or_eq_false_iff, Bool.and_eq_false_iff]
  constructor
  · rw [beq_eq_false_iff_ne]
    rintro rfl
    exact absurd low (by decide)
  · right
    rw [decide_eq_false_iff_not]
    exact fun high => absurd (Nat.le_trans low high) (by decide)

theorem letter_word {c : Char} (letter : isLetter c = true) : isWord c = true := by
  unfold isWord
  rw [letter, Bool.true_or]

theorem digit_word {c : Char} (digit : c.isDigit = true) : isWord c = true := by
  unfold isWord
  rw [digit, Bool.or_true]

theorem quote_cases {c : Char} (quote : isQuote c = true) : c = '\'' ∨ c = '"' := by
  unfold isQuote at quote
  simpa only [Bool.or_eq_true, beq_iff_eq] using quote

theorem quote_not_word {c : Char} (quote : isQuote c = true) : isWord c = false := by
  rcases quote_cases quote with rfl | rfl <;> decide

theorem word_not_quote {c : Char} (word : isWord c = true) : isQuote c = false := by
  cases quote : isQuote c with
  | false => rfl
  | true =>
    rw [quote_not_word quote] at word
    cases word

theorem combinationTable_text : ∀ entry ∈ combinationTable,
    entry.2.2.text = [entry.1, entry.2.1] := by decide

theorem findCombination_text {c next : Char} {value : Combination}
    (found : findCombination c next = some value) : value.text = [c, next] := by
  unfold findCombination at found
  cases entry : combinationTable.find? fun entry =>
      specialHash entry.1 entry.2.1 == specialHash c next with
  | none =>
    rw [entry] at found
    cases found
  | some triple =>
    obtain ⟨first, second, code⟩ := triple
    have text := combinationTable_text _ (List.mem_of_find?_eq_some entry)
    rw [entry] at found
    dsimp only at found text
    split_ifs at found with same
    rw [← Option.some.inj found, text, same.1, same.2]

theorem thirdChar_text {value longer : Combination} {third : Char}
    (found : thirdChar value = some (third, longer)) : longer.text = value.text ++ [third] := by
  cases value <;> cases found <;> rfl

theorem dropStreamEoln_token (text : List Char) (token : Token) (rest : List Char) :
    dropStreamEoln text ≠ .token token rest := by
  induction text with
  | nil => exact fun same => by cases same
  | cons c text ih =>
    unfold dropStreamEoln
    split_ifs
    · exact fun same => by cases same
    · exact ih

theorem dropStreamComment_token (text : List Char) (token : Token) (rest : List Char) :
    dropStreamComment text ≠ .token token rest := by
  induction text using dropStreamComment.induct with
  | case1 => exact fun same => by cases same
  | case2 c => exact fun same => by cases same
  | case3 curr next tail closed =>
    rw [dropStreamComment, if_pos closed]
    exact fun same => by cases same
  | case4 curr next tail inside ih =>
    rw [dropStreamComment, if_neg inside]
    exact ih

theorem eatString_token {delim : Char} {wide : Bool} {text : List Char} {token : Token}
    (scanned : eatString delim wide text = .token token []) :
    ∃ bytes, eatLoop delim false text = some (bytes, []) ∧
      token = stringToken delim wide bytes := by
  unfold eatString at scanned
  cases eaten : eatLoop delim false text with
  | none =>
    rw [eaten] at scanned
    cases scanned
  | some parts =>
    obtain ⟨bytes, rest⟩ := parts
    rw [eaten] at scanned
    cases scanned
    exact ⟨bytes, rfl, rfl⟩

theorem getOneNumber_shape {c : Char} {text : List Char} {token : Token}
    (starts : StartsNumber c text) (scanned : getOneNumber c text = .token token []) :
    Shape token (c :: text) := by
  have whole := numberTail_append_rest text
  unfold getOneNumber at scanned
  dsimp only at scanned
  injection scanned with same rest
  rw [rest, List.append_nil] at whole
  rw [whole] at same
  rw [← same]
  exact .number starts (Prod.ext whole rest)

theorem identTail_words (room : Nat) (text : List Char) :
    (∀ d ∈ (identTail room text).1, isWord d = true) ∧ (identTail room text).1.length ≤ room := by
  induction text generalizing room with
  | nil =>
    cases room <;>
      exact ⟨fun d member => absurd member List.not_mem_nil, Nat.zero_le _⟩
  | cons next rest ih =>
    cases room with
    | zero => exact ⟨fun d member => absurd member List.not_mem_nil, Nat.zero_le _⟩
    | succ room =>
      unfold identTail
      split_ifs with word
      · refine ⟨fun d member => ?_, Nat.succ_le_succ (ih room).2⟩
        rcases List.mem_cons.mp member with rfl | later
        · exact word
        · exact (ih room).1 d later
      · exact ⟨fun d member => absurd member List.not_mem_nil, Nat.zero_le _⟩

theorem getOneIdentifier_shape {c : Char} {text : List Char} {token : Token}
    (letter : isLetter c = true) (scanned : getOneIdentifier c text = .token token []) :
    Shape token (c :: text) := by
  have whole := identTail_append_rest (identSize - 1) text
  obtain ⟨words, length⟩ := identTail_words (identSize - 1) text
  -- a literal behind one letter
  have literal : ∀ delim : Char, isQuote delim = true →
      (c :: (identTail (identSize - 1) text).1 = ['L'] ∨
        c :: (identTail (identSize - 1) text).1 = ['u']) →
      (identTail (identSize - 1) text).2.head? = some delim →
      eatString delim true (identTail (identSize - 1) text).2.tail = .token token [] →
      Shape token (c :: text) := by
    intro delim quote lead head eats
    obtain ⟨bytes, eaten, rfl⟩ := eatString_token eats
    obtain ⟨tail, rest⟩ := List.head?_eq_some_iff.mp head
    rw [rest] at eaten whole
    have spelled : c :: text = (c :: (identTail (identSize - 1) text).1) ++ delim :: tail := by
      rw [List.cons_append, whole]
    rw [spelled]
    exact .literal quote lead eaten
  unfold getOneIdentifier at scanned
  dsimp only at scanned
  split_ifs at scanned with single double
  · exact literal '\'' rfl single.1 single.2 scanned
  · exact literal '"' rfl double.1 double.2 scanned
  · injection scanned with same rest
    rw [rest, List.append_nil] at whole
    rw [whole] at same words length
    rw [← same]
    exact .ident letter words (Nat.succ_le_succ length)

theorem scanCombination_shape {c : Char} {text : List Char} {token : Token} (lone : Lone c)
    (scanned : scanCombination c text = .token token []) : Shape token (c :: text) := by
  cases text with
  | nil =>
    cases scanned
    exact @Shape.special (.single c) lone
  | cons next rest =>
    unfold scanCombination at scanned
    dsimp only at scanned
    cases found : (if validSecond next then findCombination c next else none) with
    | none =>
      rw [found] at scanned
      cases scanned
    | some value =>
      rw [found] at scanned
      dsimp only at scanned
      have text : value.text = [c, next] := by
        split_ifs at found
        exact findCombination_text found
      cases third : thirdChar value with
      | none =>
        rw [third] at scanned
        cases scanned
        have spelled : [c, next] = (Special.combination value).text := text.symm
        rw [spelled]
        exact .special trivial
      | some pair =>
        obtain ⟨d, longer⟩ := pair
        rw [third] at scanned
        dsimp only at scanned
        split_ifs at scanned with head
        · injection scanned with same empty
          obtain ⟨tail, behind⟩ := List.head?_eq_some_iff.mp head
          rw [behind] at empty
          change tail = [] at empty
          have spelled : c :: next :: rest = (Special.combination longer).text := by
            change _ = longer.text
            rw [thirdChar_text third, text, behind, empty]
            rfl
          rw [spelled, ← same]
          exact .special trivial
        · injection scanned with same empty
          have spelled : c :: next :: rest = (Special.combination value).text := by
            rw [empty]
            exact text.symm
          rw [spelled, ← same]
          exact .special trivial

theorem getOneSpecial_shape {c : Char} {text : List Char} {token : Token}
    (visible : Strtol.isSpace c = false) (digit : c.isDigit = false) (letter : isLetter c = false)
    (scanned : getOneSpecial c text = .token token []) : Shape token (c :: text) := by
  unfold getOneSpecial at scanned
  split_ifs at scanned with number double single line block
  · exact getOneNumber_shape (Or.inr number) scanned
  · obtain ⟨bytes, eaten, rfl⟩ := eatString_token scanned
    rw [double]
    exact @Shape.literal '"' false [] text bytes rfl rfl eaten
  · obtain ⟨bytes, eaten, rfl⟩ := eatString_token scanned
    rw [single]
    exact @Shape.literal '\'' false [] text bytes rfl rfl eaten
  · exact absurd scanned (dropStreamEoln_token _ _ _)
  · exact absurd scanned (dropStreamComment_token _ _ _)
  · refine scanCombination_shape ⟨visible, letter, digit, ?_⟩ scanned
    unfold isQuote
    rw [beq_false_of_ne single, beq_false_of_ne double]
    rfl

theorem Spells.shape {token : Token} {text : List Char} (spelled : Spells token text) :
    Shape token text := by
  cases text with
  | nil => cases spelled
  | cons c text =>
    obtain ⟨visible, scanned⟩ := spelled
    unfold getOneToken at scanned
    split_ifs at scanned with digit letter
    · exact getOneNumber_shape (Or.inl digit) scanned
    · exact getOneIdentifier_shape letter scanned
    · rw [Bool.not_eq_true] at digit letter
      exact getOneSpecial_shape visible digit letter scanned

theorem headless {test : Prop} (d : Char) : ¬ (test ∧ ([] : List Char).head? = some d) := by
  rintro ⟨-, same⟩
  cases same

theorem numberTail_number {c : Char} {tail : List Char} (body : numberTail tail = (tail, [])) :
    getOneNumber c tail =
      .token (.number (if (c :: tail).length < numberSize then c :: tail else ['1'])) [] := by
  unfold getOneNumber
  rw [body]

theorem takeWhile_words {text : List Char} (words : ∀ d ∈ text, isWord d = true) :
    text.takeWhile isWord = text := List.takeWhile_eq_self_iff.mpr words

theorem eatString_eaten {delim : Char} {wide : Bool} {body bytes : List Char}
    (eaten : eatLoop delim false body = some (bytes, [])) :
    eatString delim wide body = .token (stringToken delim wide bytes) [] := by
  unfold eatString
  rw [eaten]

/-- The scanner of identifiers in front of a literal. -/
theorem getOneIdentifier_literal {c delim : Char} (lead : c = 'L' ∨ c = 'u')
    (quote : isQuote delim = true) (body : List Char) :
    getOneIdentifier c (delim :: body) = eatString delim true body := by
  have stops : identTail (identSize - 1) (delim :: body) = ([], delim :: body) := by
    have word : isWord delim = false := quote_not_word quote
    change identTail (254 + 1) (delim :: body) = _
    rw [identTail, word, if_neg Bool.false_ne_true]
  have buf : [c] = ['L'] ∨ [c] = ['u'] := by
    rcases lead with rfl | rfl
    · exact Or.inl rfl
    · exact Or.inr rfl
  unfold getOneIdentifier
  dsimp only
  rw [stops]
  rcases quote_cases quote with rfl | rfl
  · rw [if_pos ⟨buf, rfl⟩]
    rfl
  · have single : ¬ (([c] = ['L'] ∨ [c] = ['u']) ∧
        ('"' :: body).head? = some '\'') := by
      rintro ⟨-, same⟩
      cases same
    rw [if_neg single, if_pos ⟨buf, rfl⟩]
    rfl

theorem getOneToken_letter {c : Char} (letter : isLetter c = true) (text : List Char) :
    getOneToken c text = getOneIdentifier c text := by
  unfold getOneToken
  rw [letter_not_digit letter, if_neg Bool.false_ne_true, if_pos letter]

theorem getOneToken_special {c : Char} (digit : c.isDigit = false) (letter : isLetter c = false)
    (text : List Char) : getOneToken c text = getOneSpecial c text := by
  unfold getOneToken
  rw [digit, letter, if_neg Bool.false_ne_true, if_neg Bool.false_ne_true]

theorem combination_spells (value : Combination) :
    Spells (.special (.combination value)) value.text := by
  cases value <;> exact ⟨by decide, rfl⟩

theorem lone_spells {c : Char} (lone : Lone c) : Spells (.special (.single c)) [c] := by
  have quote := lone.quote
  refine ⟨lone.visible, ?_⟩
  unfold isQuote at quote
  rw [Bool.or_eq_false_iff, beq_eq_false_iff_ne, beq_eq_false_iff_ne] at quote
  rw [getOneToken_special lone.digit lone.letter]
  unfold getOneSpecial
  have number : ¬ (c = '.' ∧ ((([] : List Char).head?.any Char.isDigit) = true)) := by
    rintro ⟨-, digit⟩
    cases digit
  rw [if_neg number, if_neg quote.2, if_neg quote.1, if_neg (headless '/'), if_neg (headless '*')]
  rfl

theorem Shape.spells {token : Token} {text : List Char} (shape : Shape token text) :
    Spells token text := by
  cases shape with
  | @ident c rest letter words fits =>
    refine ⟨word_visible (letter_word letter), ?_⟩
    have read : identTail (identSize - 1) rest = (rest, []) := by
      rw [identTail_run (by rw [takeWhile_words words]; exact Nat.le_of_succ_le_succ fits),
        takeWhile_words words, List.dropWhile_eq_nil_iff.mpr words]
    rw [getOneToken_letter letter]
    unfold getOneIdentifier
    dsimp only
    rw [read, if_neg (headless '\''), if_neg (headless '"')]
  | @number c tail starts body =>
    rcases starts with digit | ⟨rfl, digit⟩
    · refine ⟨word_visible (digit_word digit), ?_⟩
      unfold getOneToken
      rw [if_pos digit]
      exact numberTail_number body
    · refine ⟨by decide, ?_⟩
      rw [getOneToken_special (by decide) (by decide)]
      unfold getOneSpecial
      rw [if_pos ⟨rfl, digit⟩]
      exact numberTail_number body
  | @special value proper =>
    cases value with
    | single c => exact lone_spells proper
    | combination value => exact combination_spells value
  | @literal delim wide lead body bytes quote leads eaten =>
    cases wide with
    | false =>
      obtain rfl : lead = [] := leads
      rcases quote_cases quote with rfl | rfl
      · exact ⟨by decide, eatString_eaten eaten⟩
      · exact ⟨by decide, eatString_eaten eaten⟩
    | true =>
      rcases leads with rfl | rfl
      · refine ⟨by decide, ?_⟩
        change getOneIdentifier 'L' (delim :: body) = _
        rw [getOneIdentifier_literal (Or.inl rfl) quote]
        exact eatString_eaten eaten
      · refine ⟨by decide, ?_⟩
        change getOneIdentifier 'u' (delim :: body) = _
        rw [getOneIdentifier_literal (Or.inr rfl) quote]
        exact eatString_eaten eaten

/-- A text spells a token exactly when it has the shape of the token. -/
theorem spells_iff_shape {token : Token} {text : List Char} :
    Spells token text ↔ Shape token text :=
  ⟨Spells.shape, Shape.spells⟩

end SmatchFormal.Tokenizer
