import SmatchFormal.Tokenizer.Paste

/-!
# Pasting and scanning

`merge` decides from two tokens what the scanner decides from their text.  The pairs of tokens where
they differ are listed.
-/

namespace SmatchFormal.Tokenizer

open SmatchFormal.Lib List

/-! ## The differences -/

/-- The pairs of tokens where `combine` differs from the scanner. -/
inductive Slips : Token → Token → Prop
  | unicode {right : Token} (narrow : (widen right).isSome = true) : Slips (.ident ['u']) right
  | dots {text : List Char} {value : Combination} (two : value = .dotdot ∨ value = .ellipsis) :
      Slips (.number text) (.special (.combination value))
  | behindZero (value : Combination) :
      Slips (.special (.single (Char.ofNat 0))) (.special (.combination value))
  | fraction (tail : List Char) :
      Slips (.special (.single (Char.ofNat 0))) (.number ('.' :: tail))
  | beforeZero (value : Combination) :
      Slips (.special (.combination value)) (.special (.single (Char.ofNat 0)))

def Decided (left right : Token) (text : List Char) : Prop :=
  MergeAgrees left right text ↔ ¬ Slips left right

theorem decided_agrees {left right : Token} {text : List Char}
    (agrees : MergeAgrees left right text) (fine : ¬ Slips left right) :
    Decided left right text := ⟨fun _ => fine, fun _ => agrees⟩

/-- A token of the text that is not made. -/
theorem decided_missed {left right good : Token} {text : List Char} (slips : Slips left right)
    (merged : merge left right = none) (spelled : Spells good text) : Decided left right text := by
  refine ⟨fun agrees => ?_, fun fine => absurd slips fine⟩
  have made := (agrees good).mpr spelled
  rw [merged] at made
  cases made

/-- A token is made that the text does not spell. -/
theorem decided_invented {left right made : Token} {text : List Char} (slips : Slips left right)
    (merged : merge left right = some made) (apart : ¬ Spells made text) :
    Decided left right text :=
  ⟨fun agrees => absurd ((agrees made).mp merged) apart, fun fine => absurd slips fine⟩

/-! ## Behind an identifier -/

theorem ident_apart {c : Char} {rest second : List Char} (letter : isLetter c = true)
    (words : ∀ d ∈ rest, isWord d = true) {other : Char} (member : other ∈ second)
    (outside : isWord other = false)
    (plain : ∀ delim body, second = delim :: body → isQuote delim = false) (token : Token) :
    ¬ Spells token (c :: rest ++ second) := by
  intro spelled
  rcases shape_letter letter spelled.shape with
    ⟨-, all⟩ | ⟨delim, body, bytes, quote, -, split, -, -⟩
  · have word := all other (mem_append_right rest member)
    rw [outside] at word
    cases word
  · cases rest with
    | nil =>
      rw [plain delim body split] at quote
      cases quote
    | cons d rest =>
      have same : d = delim := (List.cons.inj split).1
      rw [← same, word_not_quote (words d mem_cons_self)] at quote
      cases quote

/-- A literal ends an identifier that does not lead it. -/
theorem ident_literal_apart {c delim : Char} {rest body : List Char} (letter : isLetter c = true)
    (words : ∀ d ∈ rest, isWord d = true) (quote : isQuote delim = true)
    (other : c :: rest ≠ ['L'] ∧ c :: rest ≠ ['u']) (token : Token) :
    ¬ Spells token (c :: rest ++ delim :: body) := by
  intro spelled
  rcases shape_letter letter spelled.shape with
    ⟨-, all⟩ | ⟨other', body', bytes, quote', lead, split, -, -⟩
  · have word := all delim (mem_append_right rest mem_cons_self)
    rw [quote_not_word quote] at word
    cases word
  · cases rest with
    | nil =>
      rcases lead with rfl | rfl
      · exact other.1 rfl
      · exact other.2 rfl
    | cons d rest =>
      have same : d = other' := (List.cons.inj split).1
      rw [← same, word_not_quote (words d mem_cons_self)] at quote'
      cases quote'

theorem number_outside {c : Char} (outside : isSign c = true ∨ c = '.') : isWord c = false := by
  rcases outside with sign | rfl
  · exact sign_not_word sign
  · decide

theorem number_word {c : Char} (taken : isNumberChar c = true ∨ isSign c = true)
    (inside : (isSign c || c == '.') = false) : isWord c = true := by
  obtain ⟨sign, dot⟩ := Bool.or_eq_false_iff.mp inside
  rcases taken with number | signed
  · unfold isNumberChar at number
    rwa [dot, Bool.false_or] at number
  · rw [sign] at signed
    cases signed

theorem word_inside {c : Char} (word : isWord c = true) : (isSign c || c == '.') = false := by
  rw [Bool.or_eq_false_iff, beq_eq_false_iff_ne]
  constructor
  · cases sign : isSign c with
    | false => rfl
    | true =>
      rw [sign_not_word sign] at word
      cases word
  · rintro rfl
    exact absurd word (by decide)

/-- The characters that a number starts with open no literal. -/
theorem starts_not_quote {c : Char} {tail : List Char} (starts : StartsNumber c tail) :
    isQuote c = false := by
  rcases starts with digit | ⟨rfl, -⟩
  · exact word_not_quote (digit_word digit)
  · rfl

section Ident

variable {c : Char} {rest : List Char}

theorem ident_words (letter : isLetter c = true) (words : ∀ d ∈ rest, isWord d = true) :
    ∀ d ∈ c :: rest, isWord d = true := by
  intro d member
  rcases mem_cons.mp member with rfl | later
  · exact letter_word letter
  · exact words d later

section

variable {second : List Char} (letter : isLetter c = true) (words : ∀ d ∈ rest, isWord d = true)
  (more : ∀ d ∈ second, isWord d = true) (fits : (c :: rest ++ second).length < 256)
include letter words more fits

theorem ident_spells :
    Spells (.ident (c :: rest ++ second)) (c :: rest ++ second) := by
  refine (Shape.ident letter ?_ (Nat.le_of_lt fits)).spells
  intro d member
  rcases mem_append.mp member with left | right
  · exact words d left
  · exact more d right

theorem decided_ident_ident :
    Decided (.ident (c :: rest)) (.ident second) (c :: rest ++ second) := by
  have bound := fits
  rw [length_append] at bound
  have shown : showToken (.ident (c :: rest)) = c :: rest :=
    showIdent_words (ident_words letter words) (by omega)
  have shown' : showToken (.ident second) = second := showIdent_words more (by omega)
  have made : combine (.ident (c :: rest)) (.ident second) = .ident (c :: rest ++ second) := by
    rw [combine_plain rfl rfl (by rw [shown, shown']; exact fits), shown, shown']
    rfl
  refine decided_agrees (agrees_some (merge_ident made) (ident_spells letter words more fits)) ?_
  intro slips
  cases slips with
  | unicode narrow => cases narrow

end

theorem decided_ident_number (letter : isLetter c = true) (words : ∀ d ∈ rest, isWord d = true)
    {d : Char} {tail : List Char} (starts : StartsNumber d tail)
    (run : numberRun false (d :: tail) = true) (fits : (c :: rest ++ d :: tail).length < 256) :
    Decided (.ident (c :: rest)) (.number (d :: tail)) (c :: rest ++ d :: tail) := by
  have bound := fits
  rw [length_append] at bound
  have shown : showToken (.ident (c :: rest)) = c :: rest :=
    showIdent_words (ident_words letter words) (by omega)
  have shown' : showToken (.number (d :: tail)) = d :: tail := rfl
  have made : combine (.ident (c :: rest)) (.number (d :: tail)) =
      if (c :: rest ++ d :: tail).any fun c => isSign c || c == '.' then .error
      else .ident (c :: rest ++ d :: tail) := by
    rw [combine_plain rfl rfl (by rw [shown, shown']; exact fits), shown, shown']
    rfl
  have fine : ¬ Slips (.ident (c :: rest)) (.number (d :: tail)) := by
    intro slips
    cases slips with
    | unicode narrow => cases narrow
  cases signs : (c :: rest ++ d :: tail).any fun c => isSign c || c == '.' with
  | true =>
    rw [signs, if_pos rfl] at made
    refine decided_agrees (agrees_none (merge_error made) ?_) fine
    obtain ⟨other, member, outside⟩ := any_eq_true.mp signs
    have right : other ∈ d :: tail := by
      rcases mem_append.mp member with left | right
      · rw [word_inside (ident_words letter words other left)] at outside
        cases outside
      · exact right
    rw [Bool.or_eq_true, beq_iff_eq] at outside
    refine ident_apart letter words right (number_outside outside) ?_
    intro delim body split
    rw [← (List.cons.inj split).1]
    exact starts_not_quote starts
  | false =>
    rw [signs, if_neg Bool.false_ne_true] at made
    refine decided_agrees (agrees_some (merge_ident made) ?_) fine
    refine ident_spells letter words ?_ fits
    intro other member
    have inside := any_eq_false.mp signs other (mem_append_right _ member)
    rw [Bool.not_eq_true] at inside
    exact number_word (numberRun_chars run other member) inside

section

variable (letter : isLetter c = true) (words : ∀ d ∈ rest, isWord d = true)
include letter words

theorem decided_ident_special {value : Special} (proper : value.Proper)
    (fits : (c :: rest ++ value.text).length < 256) :
    Decided (.ident (c :: rest)) (.special value) (c :: rest ++ value.text) := by
  have bound := fits
  rw [length_append] at bound
  have shown : showToken (.ident (c :: rest)) = c :: rest :=
    showIdent_words (ident_words letter words) (by omega)
  have shorter : (showSpecial value).length ≤ value.text.length :=
    (takeWhile_sublist _).length_le
  have made : combine (.ident (c :: rest)) (.special value) = .error := by
    rw [combine_plain rfl rfl]
    · rfl
    · rw [shown, length_append]
      change (c :: rest).length + (showSpecial value).length < 256
      omega
  refine decided_agrees (agrees_none (merge_error made) ?_) ?_
  · obtain ⟨d, tail, text⟩ := exists_cons_of_ne_nil (special_nonempty value)
    have lone : Lone d := special_lone proper d (text ▸ mem_cons_self)
    rw [text]
    refine ident_apart letter words mem_cons_self (lone_not_word lone) ?_
    intro delim body split
    rw [← (List.cons.inj split).1]
    exact lone.quote
  · intro slips
    cases slips with
    | unicode narrow => cases narrow

theorem decided_ident_narrow {delim : Char} {body bytes : List Char} (quote : isQuote delim = true)
    (eaten : eatLoop delim false body = some (bytes, [])) :
    Decided (.ident (c :: rest)) (stringToken delim false bytes) (c :: rest ++ delim :: body) := by
  have plain := literal_not_plain delim false bytes
  by_cases long : c :: rest = ['L']
  · rw [long]
    have merged : merge (.ident ['L']) (stringToken delim false bytes) =
        some (stringToken delim true bytes) := by
      unfold merge combine
      rw [if_pos rfl, widen_char]
      rfl
    refine decided_agrees (agrees_some merged ?_) ?_
    · exact (@Shape.literal delim true ['L'] body bytes quote (Or.inl rfl) eaten).spells
    · intro slips
      cases slips
  · by_cases unicode : c :: rest = ['u']
    · rw [unicode]
      have merged := @merge_literal (.ident ['u']) _ (Or.inl (by decide)) plain
      refine decided_missed (.unicode ?_) merged
        (@Shape.literal delim true ['u'] body bytes quote (Or.inr rfl) eaten).spells
      rw [widen_char]
      rfl
    · have merged := @merge_literal (.ident (c :: rest)) _
        (Or.inl fun same => long (Token.ident.inj same)) plain
      refine decided_agrees (agrees_none merged ?_) ?_
      · exact ident_literal_apart letter words quote ⟨long, unicode⟩
      · generalize right : stringToken delim false bytes = token
        intro slips
        generalize left : Token.ident (c :: rest) = first at slips
        cases slips with
        | unicode narrow => exact unicode (Token.ident.inj left)
        | dots | behindZero | fraction | beforeZero => cases left

theorem decided_ident_wide {delim : Char} {lead body bytes : List Char}
    (quote : isQuote delim = true) (leads : lead = ['L'] ∨ lead = ['u']) :
    Decided (.ident (c :: rest)) (stringToken delim true bytes)
      (c :: rest ++ (lead ++ delim :: body)) := by
  have merged := @merge_literal (.ident (c :: rest)) _ (Or.inr (widen_wide delim bytes))
    (literal_not_plain delim true bytes)
  refine decided_agrees (agrees_none merged ?_) ?_
  · have member : delim ∈ lead ++ delim :: body := mem_append_right lead mem_cons_self
    refine ident_apart letter words member (quote_not_word quote) ?_
    intro other tail split
    rcases leads with rfl | rfl
    · rw [← (List.cons.inj split).1]
      rfl
    · rw [← (List.cons.inj split).1]
      rfl
  · have wide := widen_wide delim bytes
    generalize stringToken delim true bytes = right at wide
    intro slips
    generalize left : Token.ident (c :: rest) = first at slips
    cases slips with
    | unicode narrow =>
      rw [wide] at narrow
      cases narrow
    | dots | behindZero | fraction | beforeZero => cases left

end

end Ident

/-! ## Behind a number -/

theorem numberRun_combination (value : Combination) (signed : Bool) :
    numberRun signed value.text = true ↔ value = .dotdot ∨ value = .ellipsis := by
  cases value <;> cases signed <;> decide

theorem numberRun_literal (signed : Bool) {delim : Char} (quote : isQuote delim = true)
    {text : List Char} (member : delim ∈ text) : numberRun signed text = false := by
  cases run : numberRun signed text with
  | false => rfl
  | true =>
    rcases numberRun_chars run delim member with number | sign
    · rcases quote_cases quote with rfl | rfl <;> cases number
    · rcases quote_cases quote with rfl | rfl <;> cases sign

theorem starts_append {c : Char} {tail : List Char} (starts : StartsNumber c tail)
    (second : List Char) : StartsNumber c (tail ++ second) := by
  rcases starts with digit | ⟨dot, digit⟩
  · exact Or.inl digit
  · refine Or.inr ⟨dot, ?_⟩
    cases tail with
    | nil => cases digit
    | cons d tail => exact digit

section Number

variable {c : Char} {tail second : List Char}

section

variable (starts : StartsNumber c tail) (run : numberRun false (c :: tail) = true)
include starts run

/-- What stands behind a number is taken, or the text is no token. -/
theorem spells_number_append (fits : (c :: tail ++ second).length < 256) (token : Token) :
    Spells token (c :: tail ++ second) ↔
      numberRun (endsExp false (c :: tail)) second = true ∧
        token = .number (c :: tail ++ second) := by
  have whole := numberRun_append false (c :: tail) second
  rw [run, Bool.true_and] at whole
  rw [← whole]
  exact spells_number (starts_append starts second) fits

theorem decided_number_taken (fits : (c :: tail ++ second).length < 256) {right : Token}
    (taken : numberRun (endsExp false (c :: tail)) second = true)
    (made : combine (.number (c :: tail)) right = .number (c :: tail ++ second))
    (fine : ¬ Slips (.number (c :: tail)) right) :
    Decided (.number (c :: tail)) right (c :: tail ++ second) :=
  decided_agrees (agrees_some (merge_number made)
    ((spells_number_append starts run fits _).mpr ⟨taken, rfl⟩)) fine

theorem decided_number_left (fits : (c :: tail ++ second).length < 256) {right : Token}
    (left : numberRun (endsExp false (c :: tail)) second = false)
    (merged : merge (.number (c :: tail)) right = none)
    (fine : ¬ Slips (.number (c :: tail)) right) :
    Decided (.number (c :: tail)) right (c :: tail ++ second) := by
  refine decided_agrees (agrees_none merged ?_) fine
  intro token spelled
  have taken := ((spells_number_append starts run fits token).mp spelled).1
  rw [left] at taken
  cases taken

theorem decided_number_ident (words : ∀ d ∈ second, isWord d = true)
    (fits : (c :: tail ++ second).length < 256) :
    Decided (.number (c :: tail)) (.ident second) (c :: tail ++ second) := by
  have bound := fits
  rw [length_append] at bound
  have shown : showToken (.ident second) = second := showIdent_words words (by omega)
  refine decided_number_taken starts run fits (numberRun_words words _) ?_ ?_
  · rw [combine_plain rfl rfl (by rw [shown]; exact fits), shown]
    rfl
  · intro slips
    cases slips

theorem decided_number_number (more : numberRun false second = true)
    (fits : (c :: tail ++ second).length < 256) :
    Decided (.number (c :: tail)) (.number second) (c :: tail ++ second) := by
  refine decided_number_taken starts run fits (numberRun_true more _) ?_ ?_
  · exact @combine_plain (.number (c :: tail)) (.number second) rfl rfl fits
  · intro slips
    cases slips

end

/-- The character that `combine` looks at in front of a sign. -/
theorem last_endsExp (c : Char) (tail : List Char) (d : Char) :
    ((c :: tail ++ [d])[(c :: tail ++ [d]).length - 2]?.any isExp) = endsExp false (c :: tail) := by
  have place : (c :: tail ++ [d]).length - 2 = (c :: tail).length - 1 := by
    rw [length_append]
    rfl
  have inside : (c :: tail).length - 1 < (c :: tail).length := Nat.lt_succ_self tail.length
  rw [place, List.getElem?_append_left inside, ← List.getLast?_eq_getElem?]
  unfold endsExp
  cases (c :: tail).getLast? <;> rfl

section

variable (starts : StartsNumber c tail) (run : numberRun false (c :: tail) = true)
include starts run

theorem decided_number_single {d : Char} (lone : Lone d) (fits : (c :: tail ++ [d]).length < 256) :
    Decided (.number (c :: tail)) (.special (.single d)) (c :: tail ++ [d]) := by
  have fine : ¬ Slips (.number (c :: tail)) (.special (.single d)) := by
    intro slips
    cases slips
  have taken : numberRun (endsExp false (c :: tail)) [d] =
      (d == '.' || (endsExp false (c :: tail) && isSign d)) := by
    rw [numberRun, numberRun, Bool.and_true]
    unfold isNumberChar
    rw [lone_not_word lone, Bool.or_false]
  by_cases zero : d = Char.ofNat 0
  · subst zero
    refine decided_number_left starts run fits ?_ (merge_error ?_) fine
    · rw [taken]
      exact Bool.and_false _
    · rw [combine_plain rfl rfl]
      · rfl
      · rw [length_append] at fits ⊢
        exact Nat.lt_of_le_of_lt (Nat.add_le_add_left (Nat.zero_le 1) _) fits
  · have shown : showToken (.special (.single d)) = [d] := showSpecial_single zero
    have made : combine (.number (c :: tail)) (.special (.single d)) =
        if d = '.' then .number (c :: tail ++ [d])
        else if isSign d ∧ endsExp false (c :: tail) = true then .number (c :: tail ++ [d])
        else .error := by
      rw [combine_plain rfl rfl (by rw [shown]; exact fits), shown, ← last_endsExp c tail d]
      rfl
    by_cases dot : d = '.'
    · rw [if_pos dot] at made
      refine decided_number_taken starts run fits ?_ made fine
      rw [taken, beq_iff_eq.mpr dot]
      rfl
    · rw [if_neg dot] at made
      rw [beq_false_of_ne dot, Bool.false_or] at taken
      by_cases sign : isSign d ∧ endsExp false (c :: tail) = true
      · rw [if_pos sign] at made
        refine decided_number_taken starts run fits ?_ made fine
        rw [taken, sign.1, sign.2]
        rfl
      · rw [if_neg sign] at made
        refine decided_number_left starts run fits ?_ (merge_error made) fine
        rw [taken, Bool.and_eq_false_iff]
        cases exp : endsExp false (c :: tail) with
        | false => exact Or.inl rfl
        | true =>
          right
          exact Bool.not_eq_true _ ▸ fun plus => sign ⟨plus, exp⟩

theorem decided_number_combination (value : Combination)
    (fits : (c :: tail ++ value.text).length < 256) :
    Decided (.number (c :: tail)) (.special (.combination value)) (c :: tail ++ value.text) := by
  have shown : showToken (.special (.combination value)) = value.text :=
    showSpecial_combination value
  have merged : merge (.number (c :: tail)) (.special (.combination value)) = none := by
    refine merge_error ?_
    rw [combine_plain rfl rfl (by rw [shown]; exact fits), shown]
    rfl
  cases taken : numberRun (endsExp false (c :: tail)) value.text with
  | true =>
    have two := (numberRun_combination value _).mp taken
    exact decided_missed (.dots two) merged
      ((spells_number_append starts run fits _).mpr ⟨taken, rfl⟩)
  | false =>
    refine decided_number_left starts run fits taken merged ?_
    intro slips
    cases slips with
    | dots two =>
      rw [(numberRun_combination value _).mpr two] at taken
      cases taken

theorem decided_number_literal {delim : Char} {wide : Bool} {bytes : List Char}
    (quote : isQuote delim = true) (member : delim ∈ second)
    (fits : (c :: tail ++ second).length < 256) :
    Decided (.number (c :: tail)) (stringToken delim wide bytes) (c :: tail ++ second) := by
  have plain := literal_not_plain delim wide bytes
  refine decided_number_left starts run fits (numberRun_literal _ quote member)
    (merge_literal (Or.inl fun same => (by cases same)) plain) ?_
  generalize stringToken delim wide bytes = right at plain
  intro slips
  cases slips with
  | dots => cases plain

end

end Number

/-! ## Behind a punctuator -/

theorem spells_lones {c d : Char} {rest : List Char} (lones : ∀ e ∈ c :: d :: rest, Lone e)
    (token : Token) :
    Spells token (c :: d :: rest) ↔
      ∃ value : Combination, value.text = c :: d :: rest ∧
        token = .special (.combination value) := by
  constructor
  · intro spelled
    rcases shape_lone (lones c mem_cons_self) spelled.shape with
      ⟨value, -, text, rfl⟩ | ⟨-, digit, -⟩
    · cases value with
      | single other => cases (List.cons.inj text).2
      | combination value => exact ⟨value, text, rfl⟩
    · have digit : d.isDigit = true := digit
      rw [(lones d (mem_cons_of_mem c mem_cons_self)).digit] at digit
      cases digit
  · rintro ⟨value, text, rfl⟩
    rw [← text]
    exact combination_spells value

theorem word_not_lone {c : Char} (word : isWord c = true) : ¬ Lone c := by
  intro lone
  rw [lone_not_word lone] at word
  cases word

theorem quote_not_lone {c : Char} (quote : isQuote c = true) : ¬ Lone c := by
  intro lone
  rw [lone.quote] at quote
  cases quote

section Punctuator

variable {value : Special} {second : List Char}

/-- What is no punctuator ends one, except a digit behind a dot. -/
theorem special_apart (proper : value.Proper) {other : Char} (member : other ∈ second)
    (outside : ¬ Lone other)
    (dot : value = .single '.' → (second.head?.any Char.isDigit) = false) (token : Token) :
    ¬ Spells token (value.text ++ second) := by
  intro spelled
  obtain ⟨c, rest, text⟩ := exists_cons_of_ne_nil (special_nonempty value)
  have lones := special_lone proper
  rw [text] at lones spelled
  rcases shape_lone (lones c mem_cons_self) spelled.shape with
    ⟨whole, proper', same, -⟩ | ⟨rfl, digit, -⟩
  · have lone := special_lone proper' other
    rw [same] at lone
    exact outside (lone (mem_cons_of_mem c (mem_append_right rest member)))
  · cases rest with
    | nil =>
      cases value with
      | single c =>
        have no := dot (congrArg Special.single (List.cons.inj text).1)
        have digit : (second.head?.any Char.isDigit) = true := digit
        rw [no] at digit
        cases digit
      | combination value =>
        obtain ⟨c, d, rest, two⟩ := combination_two value
        have longer : c :: d :: rest = ['.'] := two.symm.trans text
        cases (List.cons.inj longer).2
    | cons d rest =>
      have digit : d.isDigit = true := digit
      rw [(lones d (mem_cons_of_mem _ mem_cons_self)).digit] at digit
      cases digit

theorem fraction_cases (proper : value.Proper)
    (head : (showSpecial value ++ second).head? = some '.')
    (digit : ((showSpecial value ++ second)[1]?.any Char.isDigit) = true) :
    (value = .single '.' ∧ (second.head?.any Char.isDigit) = true) ∨
      (value = .single (Char.ofNat 0) ∧ second.head? = some '.' ∧
        (second[1]?.any Char.isDigit) = true) := by
  cases value with
  | single c =>
    by_cases zero : c = Char.ofNat 0
    · subst zero
      exact Or.inr ⟨rfl, head, digit⟩
    · rw [showSpecial_single zero] at head digit
      left
      refine ⟨congrArg Special.single (Option.some.inj head), ?_⟩
      cases second with
      | nil => cases digit
      | cons d second => exact digit
  | combination value =>
    obtain ⟨c, d, rest, two⟩ := combination_two value
    have lone := combination_lone value d (two ▸ mem_cons_of_mem c mem_cons_self)
    rw [showSpecial_combination, two] at digit
    have digit : d.isDigit = true := digit
    rw [lone.digit] at digit
    cases digit

theorem combine_special {right : Token} (plain : isPlain right = true)
    (fits : (showSpecial value ++ showToken right).length < 256) :
    combine (.special value) right =
      if (showSpecial value ++ showToken right).head? = some '.' ∧
          ((showSpecial value ++ showToken right)[1]?.any Char.isDigit) = true then
        .number (showSpecial value ++ showToken right)
      else .special (showSpecial value ++ showToken right) :=
  combine_plain rfl plain fits

theorem showSpecial_le (value : Special) : (showSpecial value).length ≤ value.text.length :=
  (takeWhile_sublist _).length_le

/-- A text with a character that is no punctuator is no combination. -/
theorem no_combination {text : List Char} {other : Char} (member : other ∈ text)
    (outside : ¬ Lone other) (value : Combination) : value.text ≠ text := by
  rintro rfl
  exact outside (combination_lone value other member)

theorem decided_special_ident (proper : value.Proper) {c : Char} {rest : List Char}
    (letter : isLetter c = true) (words : ∀ d ∈ rest, isWord d = true)
    (fits : (value.text ++ c :: rest).length < 256) :
    Decided (.special value) (.ident (c :: rest)) (value.text ++ c :: rest) := by
  have bound := fits
  have shorter := showSpecial_le value
  rw [length_append] at bound
  have shown : showToken (.ident (c :: rest)) = c :: rest :=
    showIdent_words (ident_words letter words) (by omega)
  have outside : ¬ Lone c := word_not_lone (letter_word letter)
  have number : ¬ ((showSpecial value ++ c :: rest).head? = some '.' ∧
      ((showSpecial value ++ c :: rest)[1]?.any Char.isDigit) = true) := by
    rintro ⟨head, digit⟩
    rcases fraction_cases proper head digit with ⟨-, second⟩ | ⟨-, dot, -⟩
    · have second : c.isDigit = true := second
      rw [letter_not_digit letter] at second
      cases second
    · rw [Option.some.inj dot] at letter
      cases letter
  have made : combine (.special value) (.ident (c :: rest)) =
      .special (showSpecial value ++ c :: rest) := by
    rw [combine_special rfl (by rw [shown, length_append]; omega), shown, if_neg number]
  refine decided_agrees (agrees_none (merge_no_special made ?_) ?_) ?_
  · exact no_combination (mem_append_right _ mem_cons_self) outside
  · exact special_apart proper mem_cons_self outside fun _ => letter_not_digit letter
  · intro slips
    cases slips

theorem starts_digit {c : Char} {tail : List Char} (starts : StartsNumber c tail) :
    ∃ d ∈ c :: tail, d.isDigit = true := by
  rcases starts with digit | ⟨-, digit⟩
  · exact ⟨c, mem_cons_self, digit⟩
  · cases tail with
    | nil => cases digit
    | cons d tail => exact ⟨d, mem_cons_of_mem c mem_cons_self, digit⟩

theorem decided_special_number (proper : value.Proper) {c : Char} {tail : List Char}
    (starts : StartsNumber c tail) (run : numberRun false (c :: tail) = true)
    (fits : (value.text ++ c :: tail).length < 256) :
    Decided (.special value) (.number (c :: tail)) (value.text ++ c :: tail) := by
  have bound := fits
  have shorter := showSpecial_le value
  rw [length_append] at bound
  have made := @combine_special value (.number (c :: tail)) rfl
    (by change (showSpecial value ++ c :: tail).length < 256; rw [length_append]; omega)
  change combine (.special value) (.number (c :: tail)) =
    if (showSpecial value ++ c :: tail).head? = some '.' ∧
      ((showSpecial value ++ c :: tail)[1]?.any Char.isDigit) = true then
        .number (showSpecial value ++ c :: tail)
    else .special (showSpecial value ++ c :: tail) at made
  obtain ⟨digit, member, isDigit⟩ := starts_digit starts
  have outside : ¬ Lone digit := word_not_lone (digit_word isDigit)
  by_cases fraction : value = .single '.' ∧ c.isDigit = true
  · obtain ⟨rfl, first⟩ := fraction
    have text : Special.text (.single '.') ++ c :: tail = '.' :: c :: tail := rfl
    rw [text] at fits ⊢
    have number : combine (.special (.single '.')) (.number (c :: tail)) =
        .number ('.' :: c :: tail) := made.trans (if_pos ⟨rfl, first⟩)
    have starts' : StartsNumber '.' (c :: tail) := Or.inr ⟨rfl, first⟩
    refine decided_agrees (agrees_some (merge_number number) ?_) ?_
    · rw [spells_number starts' fits]
      exact ⟨run, rfl⟩
    · generalize dot : '.' = first at *
      intro slips
      cases slips with
      | fraction tail => cases dot
  · by_cases zero : value = .single (Char.ofNat 0) ∧ c = '.'
    · obtain ⟨rfl, rfl⟩ := zero
      have second : ((tail.head?).any Char.isDigit) = true := by
        rcases starts with wrong | ⟨-, right⟩
        · cases wrong
        · exact right
      have second' : (tail[0]?.any Char.isDigit) = true := by rwa [← List.head?_eq_getElem?]
      have number : combine (.special (.single (Char.ofNat 0))) (.number ('.' :: tail)) =
          .number ('.' :: tail) := made.trans (if_pos ⟨rfl, second'⟩)
      refine decided_invented (.fraction tail) (merge_number number) ?_
      exact special_apart proper member outside (fun same => absurd same (by decide)) _
    · have number : ¬ ((showSpecial value ++ c :: tail).head? = some '.' ∧
          ((showSpecial value ++ c :: tail)[1]?.any Char.isDigit) = true) := by
        rintro ⟨head, second⟩
        rcases fraction_cases proper head second with ⟨dot, first⟩ | ⟨null, dot, -⟩
        · exact fraction ⟨dot, first⟩
        · exact zero ⟨null, Option.some.inj dot⟩
      rw [if_neg number] at made
      refine decided_agrees (agrees_none (merge_no_special made ?_) ?_) ?_
      · exact no_combination (mem_append_right _ member) outside
      · refine special_apart proper member outside fun dot => ?_
        cases first : c.isDigit with
        | false => exact first
        | true => exact absurd ⟨dot, first⟩ fraction
      · intro slips
        cases slips with
        | fraction tail => exact zero ⟨rfl, rfl⟩

theorem cons_cons {text : List Char} (two : 2 ≤ text.length) :
    ∃ c d rest, text = c :: d :: rest := by
  cases text with
  | nil => cases two
  | cons c text =>
    cases text with
    | nil => exact absurd (Nat.le_of_succ_le_succ two) (Nat.not_succ_le_zero 0)
    | cons d rest => exact ⟨c, d, rest, rfl⟩

theorem terminator_apart {text : List Char} (lones : ∀ c ∈ text, Lone c) (two : 2 ≤ text.length)
    (terminator : Char.ofNat 0 ∈ text) (token : Token) : ¬ Spells token text := by
  intro spelled
  obtain ⟨c, d, rest, rfl⟩ := cons_cons two
  obtain ⟨value, same, -⟩ := (spells_lones lones token).mp spelled
  exact combination_visible value (same ▸ terminator)

theorem shown_special {value : Special} (other : value ≠ .single (Char.ofNat 0)) :
    showSpecial value = value.text := by
  cases value with
  | single c => exact showSpecial_single fun same => other (congrArg Special.single same)
  | combination value => exact showSpecial_combination value

theorem short_no_combination {text : List Char} (short : text.length ≤ 1) (value : Combination) :
    value.text ≠ text := by
  rintro rfl
  obtain ⟨c, d, rest, two⟩ := combination_two value
  rw [two] at short
  exact absurd short (Nat.not_le.mpr (Nat.succ_lt_succ (Nat.succ_pos rest.length)))

theorem decided_special_special (proper : value.Proper) {right : Special}
    (proper' : right.Proper) (fits : (value.text ++ right.text).length < 256) :
    Decided (.special value) (.special right) (value.text ++ right.text) := by
  have lones : ∀ c ∈ value.text ++ right.text, Lone c := by
    intro c member
    rcases mem_append.mp member with first | second
    · exact special_lone proper c first
    · exact special_lone proper' c second
  have one : ∀ value : Special, 1 ≤ value.text.length := fun value =>
    length_pos_iff.mpr (special_nonempty value)
  have two : 2 ≤ (value.text ++ right.text).length := by
    rw [length_append]
    exact Nat.add_le_add (one value) (one right)
  have made : combine (.special value) (.special right) =
      .special (showSpecial value ++ showSpecial right) := by
    have shorter := showSpecial_le value
    have shorter' := showSpecial_le right
    have bound := fits
    rw [length_append] at bound
    refine (combine_special rfl ?_).trans (if_neg ?_)
    · change (showSpecial value ++ showSpecial right).length < 256
      rw [length_append]
      omega
    · rintro ⟨-, digit⟩
      change ((showSpecial value ++ showSpecial right)[1]?.any Char.isDigit) = true at digit
      cases found : (showSpecial value ++ showSpecial right)[1]? with
      | none =>
        rw [found] at digit
        cases digit
      | some c =>
      rw [found] at digit
      have isDigit : c.isDigit = true := digit
      have member := mem_of_getElem? found
      have lone : Lone c := by
        rcases mem_append.mp member with first | second
        · exact special_lone proper c ((takeWhile_sublist _).subset first)
        · exact special_lone proper' c ((takeWhile_sublist _).subset second)
      rw [lone.digit] at isDigit
      cases isDigit
  by_cases left : value = .single (Char.ofNat 0)
  · subst left
    have terminator : Char.ofNat 0 ∈ Special.text (.single (Char.ofNat 0)) ++ right.text :=
      mem_cons_self
    have apart := terminator_apart lones two terminator
    cases right with
    | single c =>
      refine decided_agrees (agrees_none (merge_no_special made ?_) apart) ?_
      · exact short_no_combination (showSpecial_le (.single c))
      · intro slips
        cases slips
    | combination other =>
      have merged := (merge_special made).mpr ⟨other, (showSpecial_combination other).symm, rfl⟩
      exact decided_invented (.behindZero other) merged (apart _)
  · by_cases behind : right = .single (Char.ofNat 0)
    · subst behind
      have terminator : Char.ofNat 0 ∈ value.text ++ Special.text (.single (Char.ofNat 0)) :=
        mem_append_right _ mem_cons_self
      have apart := terminator_apart lones two terminator
      rw [showSpecial_terminator, append_nil] at made
      cases value with
      | single c =>
        refine decided_agrees (agrees_none (merge_no_special made ?_) apart) ?_
        · exact short_no_combination (showSpecial_le (.single c))
        · intro slips
          cases slips
      | combination other =>
        have merged := (merge_special made).mpr
          ⟨other, (showSpecial_combination other).symm, rfl⟩
        exact decided_invented (.beforeZero other) merged (apart _)
    · rw [shown_special left, shown_special behind] at made
      refine decided_agrees (fun token => ?_) ?_
      · obtain ⟨c, d, rest, text⟩ := cons_cons two
        rw [merge_special made]
        rw [text] at lones ⊢
        exact (spells_lones lones token).symm
      · intro slips
        cases slips with
        | behindZero => exact left rfl
        | beforeZero => exact behind rfl

theorem decided_special_literal (proper : value.Proper) {delim : Char} {wide : Bool}
    {bytes : List Char} (quote : isQuote delim = true) (member : delim ∈ second)
    (head : (second.head?.any Char.isDigit) = false) :
    Decided (.special value) (stringToken delim wide bytes) (value.text ++ second) := by
  have plain := literal_not_plain delim wide bytes
  have merged : merge (.special value) (stringToken delim wide bytes) = none :=
    merge_literal (Or.inl fun same => (by cases same)) plain
  refine decided_agrees (agrees_none merged ?_) ?_
  · exact special_apart proper member (quote_not_lone quote) fun _ => head
  · generalize stringToken delim wide bytes = right at plain
    intro slips
    cases slips <;> cases plain

end Punctuator

/-! ## Behind a literal -/

theorem eatLoop_append {delim : Char} {escape : Bool} {text bytes rest : List Char}
    (eaten : eatLoop delim escape text = some (bytes, rest)) (more : List Char) :
    eatLoop delim escape (text ++ more) = some (bytes, rest ++ more) := by
  induction text generalizing escape bytes with
  | nil => cases eaten
  | cons next text ih =>
    rw [cons_append]
    unfold eatLoop at eaten ⊢
    split_ifs at eaten with closed line
    · cases eaten
      rw [if_pos closed]
    · cases eaten
      rw [if_neg closed, if_pos line]
    · obtain ⟨inner, found, same⟩ := Option.map_eq_some_iff.mp eaten
      cases same
      rw [if_neg closed, if_neg line, ih found]
      rfl

section

variable {delim : Char} {wide : Bool} {lead body bytes second : List Char}
  (quote : isQuote delim = true) (leads : LeadsLiteral wide lead)
  (eaten : eatLoop delim false body = some (bytes, [])) (more : second ≠ [])
include quote leads eaten more

theorem literal_apart (token : Token) :
    ¬ Spells token (lead ++ delim :: body ++ second) := by
  have scanned (wide : Bool) :
      eatString delim wide (body ++ second) = .token (stringToken delim wide bytes) second := by
    unfold eatString
    rw [eatLoop_append eaten second]
    rfl
  intro spelled
  suffices whole : Scan.token (stringToken delim wide bytes) second = .token token [] by
    injection whole with _ rest
    exact more rest
  rw [← scanned wide]
  cases wide with
  | false =>
    obtain rfl : lead = [] := leads
    have got := spelled.2
    rcases quote_cases quote with rfl | rfl
    · exact got
    · exact got
  | true =>
    rcases leads with rfl | rfl
    · rw [← getOneIdentifier_literal (Or.inl rfl) quote]
      exact spelled.2
    · rw [← getOneIdentifier_literal (Or.inr rfl) quote]
      exact spelled.2

theorem decided_literal (right : Token) :
    Decided (stringToken delim wide bytes) right (lead ++ delim :: body ++ second) := by
  have plain := literal_not_plain delim wide bytes
  refine decided_agrees
    (agrees_none (merge_not_plain plain) (literal_apart quote leads eaten more)) ?_
  generalize stringToken delim wide bytes = left at plain
  intro slips
  cases slips <;> cases plain

end

/-! ## All pairs -/

theorem shape_nonempty {token : Token} {text : List Char} (shape : Shape token text) :
    text ≠ [] := by
  cases shape with
  | ident => exact cons_ne_nil _ _
  | number => exact cons_ne_nil _ _
  | special => exact special_nonempty _
  | literal => exact append_ne_nil_of_right_ne_nil _ (cons_ne_nil _ _)

theorem fits_number {c : Char} {tail : List Char} (fits : (c :: tail).length < 256) :
    (if (c :: tail).length < numberSize then c :: tail else ['1']) = c :: tail :=
  if_pos (Nat.lt_trans fits (by decide))

theorem literal_member (delim : Char) (lead body : List Char) :
    delim ∈ lead ++ delim :: body := mem_append_right lead mem_cons_self

theorem decided_shapes {left right : Token} {first second : List Char} (one : Shape left first)
    (two : Shape right second) (fits : (first ++ second).length < 256) :
    Decided left right (first ++ second) := by
  have parts := fits
  rw [length_append] at parts
  cases one with
  | ident letter words =>
    cases two with
    | ident letter' words' =>
      exact decided_ident_ident letter words (ident_words letter' words') fits
    | number starts body =>
      rw [fits_number (by omega)]
      exact decided_ident_number letter words starts (numberRun_starts starts body) fits
    | special proper => exact decided_ident_special letter words proper fits
    | @literal delim wide lead body bytes quote leads eaten =>
      cases wide with
      | false =>
        obtain rfl : lead = [] := leads
        exact decided_ident_narrow letter words quote eaten
      | true => exact decided_ident_wide letter words quote leads
  | number starts body =>
    have run := numberRun_starts starts body
    rw [fits_number (by omega)]
    cases two with
    | ident letter words =>
      exact decided_number_ident starts run (ident_words letter words) fits
    | number starts' body' =>
      rw [fits_number (by omega)]
      exact decided_number_number starts run (numberRun_starts starts' body') fits
    | @special value proper =>
      cases value with
      | single d => exact decided_number_single starts run proper fits
      | combination value => exact decided_number_combination starts run value fits
    | @literal delim wide lead body' bytes quote leads eaten =>
      exact decided_number_literal starts run quote (literal_member delim lead body') fits
  | special proper =>
    cases two with
    | ident letter words => exact decided_special_ident proper letter words fits
    | number starts body =>
      rw [fits_number (by omega)]
      exact decided_special_number proper starts (numberRun_starts starts body) fits
    | special proper' => exact decided_special_special proper proper' fits
    | @literal delim wide lead body bytes quote leads eaten =>
      refine decided_special_literal proper quote (literal_member delim lead body) ?_
      cases wide with
      | false =>
        obtain rfl : lead = [] := leads
        rcases quote_cases quote with rfl | rfl <;> rfl
      | true => rcases leads with rfl | rfl <;> rfl
  | literal quote leads eaten => exact decided_literal quote leads eaten (shape_nonempty two) right

/-- `merge` makes exactly the token of the text, except for the listed pairs. -/
theorem merge_agrees_iff {left right : Token} {first second : List Char}
    (one : Spells left first) (two : Spells right second)
    (fits : (first ++ second).length < 256) :
    MergeAgrees left right (first ++ second) ↔ ¬ Slips left right :=
  decided_shapes one.shape two.shape fits

/-- A number that is made of a dot and a digit. -/
theorem merge_agrees_dot :
    MergeAgrees (.special (.single '.')) (.number ['5']) ['.', '5'] ↔
      ¬ Slips (.special (.single '.')) (.number ['5']) :=
  @merge_agrees_iff _ _ ['.'] ['5'] ⟨by decide, rfl⟩ ⟨by decide, rfl⟩ (by decide)

/-- The letter of a Unicode literal is not pasted to it. -/
theorem merge_unicode_apart :
    Spells (.ident ['u']) ['u'] ∧ Spells (.embedded false ['x']) ['\'', 'x', '\''] ∧
      ¬ MergeAgrees (.ident ['u']) (.embedded false ['x']) ['u', '\'', 'x', '\''] := by
  refine ⟨⟨by decide, rfl⟩, ⟨by decide, rfl⟩, fun agrees => ?_⟩
  have made := (agrees (.embedded true ['x'])).mpr ⟨by decide, rfl⟩
  cases made

end SmatchFormal.Tokenizer
