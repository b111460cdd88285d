import SmatchFormal.Tokenizer.Shapes

/-!
# Pasting tokens

`combine` of `pre-process.c` decides by the types of two tokens what the operator `##` makes of
them, and `merge` makes it.
-/

namespace SmatchFormal.Tokenizer

open SmatchFormal.Lib List

def cString (text : List Char) : List Char := text.takeWhile fun c => c != Char.ofNat 0

def showSpecial (value : Special) : List Char := cString value.text

def showChar (data : List Char) (wide : Bool) (delim : Char) : List Char :=
  cString ((if wide then ['L'] else []) ++ delim :: (data ++ [delim]))

def showToken : Token → List Char
  | .ident name => showIdent (some (allocIdent name))
  | .number text => text
  | .special value => showSpecial value
  | .char wide data => showChar data wide '\''
  | .embedded wide data => showChar data wide '\''
  | .string wide data => showChar data wide '"'

def isPlain : Token → Bool
  | .ident _ => true
  | .number _ => true
  | .special _ => true
  | _ => false

def widen : Token → Option Token
  | .char false data => some (.char true data)
  | .embedded false data => some (.embedded true data)
  | .string false data => some (.string true data)
  | _ => none

/-- The type that `combine` returns, with what it left in the buffer. -/
inductive Combined
  | error
  | wide (token : Token)
  | ident (buffer : List Char)
  | number (buffer : List Char)
  | special (buffer : List Char)
  deriving DecidableEq, Repr

/-- The part of `combine` that looks at the text. -/
def combineText (left right : Token) (p : List Char) : Combined :=
  match left with
  | .ident _ =>
    match right with
    | .special _ => .error
    | .number _ => if p.any fun c => isSign c || c == '.' then .error else .ident p
    | _ => .ident p
  | .number _ =>
    match right with
    | .special (.single c) =>
      if c = '.' then .number p
      else if isSign c ∧ (p[p.length - 2]?.any isExp) = true then .number p
      else .error
    | .special (.combination _) => .error
    | _ => .number p
  | _ => if p.head? = some '.' ∧ (p[1]?.any Char.isDigit) = true then .number p else .special p

def combine (left right : Token) : Combined :=
  if isPlain left then
    match (if left = .ident ['L'] then widen right else none) with
    | some token => .wide token
    | none =>
      if isPlain right then
        if (showToken left ++ showToken right).length ≥ 256 then .error
        else combineText left right (showToken left ++ showToken right)
      else .error
  else .error

/-- The token that `left` becomes, if the tokens can be pasted.  Three bytes of the buffer are
compared with a combination, and bytes behind a short text never make one. -/
def merge (left right : Token) : Option Token :=
  match combine left right with
  | .error => none
  | .wide token => some token
  | .ident p => some (.ident p)
  | .number p => some (.number p)
  | .special p =>
    if p.length ≥ 4 then none
    else (Combination.all.find? fun value => value.text == p).map fun value =>
      .special (.combination value)

instance (c : Char) : Decidable (Lone c) :=
  decidable_of_iff (Strtol.isSpace c = false ∧ isLetter c = false ∧ c.isDigit = false ∧
    isQuote c = false)
    ⟨fun all => ⟨all.1, all.2.1, all.2.2.1, all.2.2.2⟩,
      fun lone => ⟨lone.visible, lone.letter, lone.digit, lone.quote⟩⟩

theorem combination_lone (value : Combination) : ∀ c ∈ value.text, Lone c := by
  have all : value.text.all (fun c => decide (Lone c)) = true := by
    cases value <;> decide
  exact fun c member => of_decide_eq_true (all_eq_true.mp all c member)

theorem combination_two (value : Combination) : ∃ c d rest, value.text = c :: d :: rest := by
  cases value <;> exact ⟨_, _, _, rfl⟩

theorem combination_length (value : Combination) : value.text.length < 4 := by
  cases value <;> decide

theorem combination_visible (value : Combination) : Char.ofNat 0 ∉ value.text := by
  cases value <;> decide

theorem combination_injective {first second : Combination} (same : first.text = second.text) :
    first = second := by
  have apart : ∀ value ∈ Combination.all, ∀ other ∈ Combination.all,
      value.text = other.text → value = other := by
    decide
  have member (value : Combination) : value ∈ Combination.all := by
    cases value <;> decide
  exact apart first (member first) second (member second) same

theorem combination_mem (value : Combination) : value ∈ Combination.all := by
  cases value <;> decide

theorem special_lone {value : Special} (proper : value.Proper) : ∀ c ∈ value.text, Lone c := by
  cases value with
  | single c =>
    intro d member
    rw [mem_singleton.mp member]
    exact proper
  | combination value => exact combination_lone value

theorem special_nonempty (value : Special) : value.text ≠ [] := by
  cases value with
  | single c => exact cons_ne_nil c []
  | combination value =>
    obtain ⟨c, d, rest, text⟩ := combination_two value
    change value.text ≠ []
    rw [text]
    exact cons_ne_nil _ _

theorem lone_not_word {c : Char} (lone : Lone c) : isWord c = false := by
  unfold isWord
  rw [lone.letter, lone.digit]
  rfl

theorem shape_letter {token : Token} {c : Char} {text : List Char} (letter : isLetter c = true)
    (shape : Shape token (c :: text)) :
    (token = .ident (c :: text) ∧ ∀ d ∈ text, isWord d = true) ∨
      ∃ delim body bytes, isQuote delim = true ∧ (c = 'L' ∨ c = 'u') ∧ text = delim :: body ∧
        eatLoop delim false body = some (bytes, []) ∧ token = stringToken delim true bytes := by
  generalize whole : c :: text = spelled at shape
  cases shape with
  | ident head words fits =>
    cases whole
    exact Or.inl ⟨rfl, words⟩
  | number starts body =>
    cases whole
    rcases starts with digit | ⟨rfl, -⟩
    · rw [letter_not_digit letter] at digit
      cases digit
    · cases letter
  | special proper =>
    have lone := special_lone proper c (whole ▸ mem_cons_self)
    rw [lone.letter] at letter
    cases letter
  | @literal delim wide lead body bytes quote leads eaten =>
    cases wide with
    | false =>
      obtain rfl : lead = [] := leads
      cases whole
      have word := quote_not_word quote
      rw [letter_word letter] at word
      cases word
    | true =>
      refine Or.inr ⟨delim, body, bytes, quote, ?_, ?_, eaten, rfl⟩
      · rcases leads with rfl | rfl
        · exact Or.inl (List.cons.inj whole).1
        · exact Or.inr (List.cons.inj whole).1
      · rcases leads with rfl | rfl <;> exact (List.cons.inj whole).2

theorem shape_number {token : Token} {c : Char} {text : List Char} (starts : StartsNumber c text)
    (shape : Shape token (c :: text)) :
    numberTail text = (text, []) ∧
      token = .number (if (c :: text).length < numberSize then c :: text else ['1']) := by
  generalize whole : c :: text = spelled at shape
  have head : isLetter c = false ∧ isQuote c = false := by
    rcases starts with digit | ⟨rfl, -⟩
    · refine ⟨?_, word_not_quote (digit_word digit)⟩
      cases letter : isLetter c with
      | false => rfl
      | true =>
        rw [letter_not_digit letter] at digit
        cases digit
    · exact ⟨rfl, rfl⟩
  cases shape with
  | ident letter words fits =>
    cases whole
    rw [head.1] at letter
    cases letter
  | number starts' body =>
    cases whole
    exact ⟨body, rfl⟩
  | @special value proper =>
    have lone := special_lone proper
    rw [← whole] at lone
    rcases starts with digit | ⟨rfl, second⟩
    · rw [(lone c mem_cons_self).digit] at digit
      cases digit
    · cases text with
      | nil => cases second
      | cons d rest =>
        have digit : d.isDigit = true := second
        rw [(lone d (mem_cons_of_mem _ mem_cons_self)).digit] at digit
        cases digit
  | @literal delim wide lead body bytes quote leads eaten =>
    cases wide with
    | false =>
      obtain rfl : lead = [] := leads
      cases whole
      rw [head.2] at quote
      cases quote
    | true =>
      rcases leads with rfl | rfl
      · obtain rfl := (List.cons.inj whole).1
        cases head.1
      · obtain rfl := (List.cons.inj whole).1
        cases head.1

theorem shape_lone {token : Token} {c : Char} {text : List Char} (lone : Lone c)
    (shape : Shape token (c :: text)) :
    (∃ value : Special, value.Proper ∧ value.text = c :: text ∧ token = .special value) ∨
      (c = '.' ∧ (text.head?.any Char.isDigit) = true ∧
        token = .number (if (c :: text).length < numberSize then c :: text else ['1'])) := by
  generalize whole : c :: text = spelled at shape
  cases shape with
  | ident letter words fits =>
    cases whole
    rw [lone.letter] at letter
    cases letter
  | number starts body =>
    cases whole
    rcases starts with digit | both
    · rw [lone.digit] at digit
      cases digit
    · exact Or.inr ⟨both.1, both.2, rfl⟩
  | @special value proper => exact Or.inl ⟨value, proper, rfl, rfl⟩
  | @literal delim wide lead body bytes quote leads eaten =>
    cases wide with
    | false =>
      obtain rfl : lead = [] := leads
      cases whole
      rw [lone.quote] at quote
      cases quote
    | true =>
      have letter := lone.letter
      rcases leads with rfl | rfl
      · obtain rfl := (List.cons.inj whole).1
        cases letter
      · obtain rfl := (List.cons.inj whole).1
        cases letter

/-- All of a text is taken behind a number.  A sign is taken behind a character of an exponent. -/
def numberRun (signed : Bool) : List Char → Bool
  | [] => true
  | c :: rest => (isNumberChar c || (signed && isSign c)) && numberRun (isExp c) rest

def endsExp (signed : Bool) (text : List Char) : Bool := (text.getLast?.map isExp).getD signed

theorem sign_cases {c : Char} (sign : isSign c = true) : c = '-' ∨ c = '+' := by
  unfold isSign at sign
  simpa only [Bool.or_eq_true, beq_iff_eq] using sign

theorem sign_not_exp {c : Char} (sign : isSign c = true) : isExp c = false := by
  rcases sign_cases sign with rfl | rfl <;> rfl

theorem sign_not_word {c : Char} (sign : isSign c = true) : isWord c = false := by
  rcases sign_cases sign with rfl | rfl <;> decide

theorem digit_not_exp {c : Char} (digit : c.isDigit = true) : isExp c = false := by
  cases exp : isExp c with
  | false => rfl
  | true =>
    unfold isExp at exp
    simp only [Bool.or_eq_true, beq_iff_eq] at exp
    rcases exp with ((rfl | rfl) | rfl) | rfl <;> cases digit

theorem word_number {c : Char} (word : isWord c = true) : isNumberChar c = true := by
  unfold isNumberChar
  rw [word, Bool.or_true]

theorem numberTail_whole (text : List Char) :
    numberTail text = (text, []) ↔ numberRun false text = true := by
  induction text using numberTail.induct with
  | case1 => exact ⟨fun _ => rfl, fun _ => rfl⟩
  | case2 next found =>
    rw [numberTail, if_pos found, numberRun, found]
    exact ⟨fun _ => rfl, fun _ => rfl⟩
  | case3 next other =>
    rw [Bool.not_eq_true] at other
    rw [numberTail, other, if_neg Bool.false_ne_true, numberRun, other]
    exact ⟨fun same => (by cases same), fun same => (by cases same)⟩
  | case4 next sign rest found signed ih =>
    obtain ⟨exp, plus⟩ := Bool.and_eq_true_iff.mp signed
    rw [numberTail, if_pos found, if_pos signed, numberRun, numberRun, found, exp, plus,
      sign_not_exp plus]
    simp only [Bool.true_or, Bool.true_and, Bool.or_true, ← ih, Prod.ext_iff, List.cons.injEq,
      true_and]
  | case5 next sign rest found unsigned ih =>
    rw [Bool.not_eq_true] at unsigned
    rw [numberRun, Bool.false_and] at ih
    rw [numberTail, if_pos found, unsigned, if_neg Bool.false_ne_true, numberRun, numberRun, found,
      unsigned]
    simp only [Bool.true_or, Bool.true_and, ← ih, Prod.ext_iff, List.cons.injEq, true_and]
  | case6 next sign rest other =>
    rw [Bool.not_eq_true] at other
    rw [numberTail, other, if_neg Bool.false_ne_true, numberRun, other]
    exact ⟨fun same => (by cases same), fun same => (by cases same)⟩

theorem numberRun_append (signed : Bool) (first second : List Char) :
    numberRun signed (first ++ second) =
      (numberRun signed first && numberRun (endsExp signed first) second) := by
  induction first generalizing signed with
  | nil => rfl
  | cons c first ih =>
    have last : endsExp signed (c :: first) = endsExp (isExp c) first := by
      cases first with
      | nil => rfl
      | cons d first => rfl
    rw [cons_append, numberRun, numberRun, ih, last, Bool.and_assoc]

theorem numberRun_true {text : List Char} (run : numberRun false text = true) (signed : Bool) :
    numberRun signed text = true := by
  cases text with
  | nil => rfl
  | cons c rest =>
    rw [numberRun, Bool.false_and, Bool.or_false, Bool.and_eq_true] at run
    rw [numberRun, run.1, run.2]
    rfl

theorem numberRun_chars {signed : Bool} {text : List Char} (run : numberRun signed text = true) :
    ∀ c ∈ text, isNumberChar c = true ∨ isSign c = true := by
  induction text generalizing signed with
  | nil => exact fun c member => absurd member not_mem_nil
  | cons next rest ih =>
    rw [numberRun, Bool.and_eq_true, Bool.or_eq_true, Bool.and_eq_true] at run
    intro c member
    rcases mem_cons.mp member with rfl | later
    · exact run.1.imp_right And.right
    · exact ih run.2 c later

theorem numberRun_words {text : List Char} (words : ∀ c ∈ text, isWord c = true) (signed : Bool) :
    numberRun signed text = true := by
  induction text generalizing signed with
  | nil => rfl
  | cons c rest ih =>
    rw [numberRun, word_number (words c mem_cons_self),
      ih (fun d member => words d (mem_cons_of_mem c member))]
    rfl

section

variable {c : Char} {tail : List Char} (starts : StartsNumber c tail)
include starts

theorem starts_number :
    isNumberChar c = true ∧ isExp c = false := by
  rcases starts with digit | ⟨rfl, -⟩
  · exact ⟨word_number (digit_word digit), digit_not_exp digit⟩
  · exact ⟨rfl, rfl⟩

theorem numberRun_starts (body : numberTail tail = (tail, [])) :
    numberRun false (c :: tail) = true := by
  rw [numberRun, (starts_number starts).1, (starts_number starts).2,
    (numberTail_whole tail).mp body]
  rfl

/-- A text that starts like a number is a number or no token. -/
theorem spells_number {token : Token} (fits : (c :: tail).length < 256) :
    Spells token (c :: tail) ↔
      numberRun false (c :: tail) = true ∧ token = .number (c :: tail) := by
  have room : (c :: tail).length < numberSize := Nat.lt_trans fits (by decide)
  rw [spells_iff_shape]
  constructor
  · intro shape
    obtain ⟨body, same⟩ := shape_number starts shape
    rw [if_pos room] at same
    exact ⟨numberRun_starts starts body, same⟩
  · rintro ⟨run, rfl⟩
    have body : numberTail tail = (tail, []) := by
      rw [numberRun, (starts_number starts).2, Bool.and_eq_true] at run
      exact (numberTail_whole tail).mpr run.2
    have shape := Shape.number starts body
    rwa [if_pos room] at shape

end

theorem cString_visible {text : List Char} (visible : Char.ofNat 0 ∉ text) :
    cString text = text := by
  unfold cString
  rw [takeWhile_eq_self_iff]
  intro c member
  rw [bne_iff_ne]
  rintro rfl
  exact visible member

theorem words_visible {text : List Char} (words : ∀ c ∈ text, isWord c = true) :
    Char.ofNat 0 ∉ text := by
  intro member
  have word := words _ member
  rw [isWord_terminator] at word
  cases word

theorem showIdent_words {name : List Char} (words : ∀ c ∈ name, isWord c = true)
    (fits : name.length < 256) : showToken (.ident name) = name := by
  change cString (name.take (name.length % 256)) = name
  rw [Nat.mod_eq_of_lt fits, take_length]
  exact cString_visible (words_visible words)

theorem showSpecial_combination (value : Combination) :
    showSpecial (.combination value) = value.text := cString_visible (combination_visible value)

theorem showSpecial_terminator : showSpecial (.single (Char.ofNat 0)) = [] := rfl

theorem showSpecial_single {c : Char} (other : c ≠ Char.ofNat 0) : showSpecial (.single c) = [c] :=
  cString_visible fun member => other (mem_singleton.mp member).symm

theorem widen_char (delim : Char) (bytes : List Char) :
    widen (stringToken delim false bytes) = some (stringToken delim true bytes) := by
  unfold stringToken
  dsimp only
  split_ifs <;> rfl

theorem widen_wide (delim : Char) (bytes : List Char) :
    widen (stringToken delim true bytes) = none := by
  unfold stringToken
  dsimp only
  split_ifs <;> rfl

theorem literal_not_plain (delim : Char) (wide : Bool) (bytes : List Char) :
    isPlain (stringToken delim wide bytes) = false := by
  unfold stringToken
  dsimp only
  split_ifs <;> rfl

/-- `merge` agrees with the scanner about the text of two tokens. -/
def MergeAgrees (left right : Token) (text : List Char) : Prop :=
  ∀ token, merge left right = some token ↔ Spells token text

theorem agrees_some {left right good : Token} {text : List Char}
    (merged : merge left right = some good) (spelled : Spells good text) :
    MergeAgrees left right text := by
  intro token
  rw [merged, Option.some_inj]
  exact ⟨fun same => same ▸ spelled, fun other => spelled.unique other⟩

theorem agrees_none {left right : Token} {text : List Char} (merged : merge left right = none)
    (apart : ∀ token, ¬ Spells token text) : MergeAgrees left right text := by
  intro token
  rw [merged]
  exact ⟨fun same => (by cases same), fun spelled => absurd spelled (apart token)⟩

/-- Nothing is pasted to a literal that keeps its type. -/
theorem merge_literal {left right : Token} (narrow : left ≠ .ident ['L'] ∨ widen right = none)
    (literal : isPlain right = false) : merge left right = none := by
  have same : (if left = .ident ['L'] then widen right else none) = none := by
    rcases narrow with other | other
    · exact if_neg other
    · rw [other, ite_self]
  unfold merge combine
  rw [same, literal]
  cases isPlain left <;> rfl

theorem merge_not_plain {left right : Token} (literal : isPlain left = false) :
    merge left right = none := by
  unfold merge combine
  rw [literal]
  rfl

theorem combine_plain {left right : Token} (first : isPlain left = true)
    (second : isPlain right = true) (fits : (showToken left ++ showToken right).length < 256) :
    combine left right = combineText left right (showToken left ++ showToken right) := by
  have same : (if left = .ident ['L'] then widen right else none) = none := by
    have none : widen right = none := by
      cases right with
      | ident | number | special => rfl
      | char | embedded | string => cases second
    rw [none, ite_self]
  unfold combine
  rw [first, second, same, if_pos rfl, if_neg (Nat.not_le.mpr fits)]
  rfl

theorem merge_ident {left right : Token} {p : List Char} (made : combine left right = .ident p) :
    merge left right = some (.ident p) := by
  unfold merge
  rw [made]

theorem merge_number {left right : Token} {p : List Char} (made : combine left right = .number p) :
    merge left right = some (.number p) := by
  unfold merge
  rw [made]

theorem merge_error {left right : Token} (made : combine left right = .error) :
    merge left right = none := by
  unfold merge
  rw [made]

theorem merge_special {left right token : Token} {p : List Char}
    (made : combine left right = .special p) :
    merge left right = some token ↔
      ∃ value : Combination, value.text = p ∧ token = .special (.combination value) := by
  unfold merge
  rw [made]
  dsimp only
  constructor
  · intro merged
    split_ifs at merged
    obtain ⟨value, found, same⟩ := Option.map_eq_some_iff.mp merged
    have text := List.find?_some (p := fun other : Combination => other.text == p) found
    exact ⟨value, beq_iff_eq.mp text, same.symm⟩
  · rintro ⟨value, rfl, rfl⟩
    rw [if_neg (Nat.not_le.mpr (combination_length value))]
    cases found : Combination.all.find? fun other => other.text == value.text with
    | none =>
      have other := List.find?_eq_none.mp found value (combination_mem value)
      exact absurd (beq_self_eq_true _) other
    | some other =>
      have text := List.find?_some (p := fun second : Combination => second.text == value.text)
        found
      rw [combination_injective (beq_iff_eq.mp text)]
      rfl

/-- What is no combination is not pasted. -/
theorem merge_no_special {left right : Token} {p : List Char}
    (made : combine left right = .special p) (other : ∀ value : Combination, value.text ≠ p) :
    merge left right = none := by
  cases merged : merge left right with
  | none => rfl
  | some token =>
    obtain ⟨value, text, -⟩ := (merge_special made).mp merged
    exact absurd text (other value)

end SmatchFormal.Tokenizer
