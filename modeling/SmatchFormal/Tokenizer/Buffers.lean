import SmatchFormal.Lib.FixedBuffer
import SmatchFormal.Tokenizer.Merge

/-!
# Buffers for shown tokens

`combine`, `show_ident`, `show_token` and `token_name_sequence` write texts into buffers of a fixed
size.  The functions here have no result where a write goes behind the buffer.
-/

namespace SmatchFormal.Tokenizer

open SmatchFormal.Lib List

inductive Produced : Token → Prop
  | scanned {token : Token} {text : List Char} (spells : Spells token text) : Produced token
  | pasted {left right token : Token} (first : Produced left) (second : Produced right)
      (merged : merge left right = some token) : Produced token

structure ProducedToken where
  token : Token
  produced : Produced token

/-- Names and numbers hold no terminator, and literals fit `MAX_STRING`. -/
def Clean : Token → Prop
  | .ident name => Char.ofNat 0 ∉ name
  | .number text => Char.ofNat 0 ∉ text
  | .special _ => True
  | .char _ data => data.length ≤ maxString
  | .embedded _ data => data.length ≤ maxString
  | .string _ data => data.length ≤ maxString

def combineInto (size : Nat) (left right : Token) : Option Combined :=
  if isPlain left then
    match (if left = .ident ['L'] then widen right else none) with
    | some token => some (.wide token)
    | none =>
      if isPlain right then
        ((FixedBuffer.copy size (showToken left)).bind fun buffer =>
          buffer.concat (showToken right)).map fun buffer =>
            if buffer.text.length ≥ 256 then .error else combineText left right buffer.text
      else some .error
  else some .error

def showIdentInto (size : Nat) : Option Ident → Option (List Char)
  | none => some (showIdent none)
  | some ident => (FixedBuffer.copy size (showIdent (some ident))).map FixedBuffer.text

def showCharInto (data : List Char) (wide : Bool) (delim : Char) : Option (List Char) :=
  (FixedBuffer.copy (maxString + 4)
    ((if wide then ['L'] else []) ++ delim :: (data ++ [delim]))).map fun buffer =>
      cString buffer.text

/-- All that `show_token` can be given.  A stream has a name, and the other types have a number. -/
inductive AnyToken
  | null
  | error
  | eof
  | source (token : ProducedToken)
  | streamBegin (name : List Char)
  | streamEnd (name : List Char)
  | untaint
  | unhandled (type : BitVec 6)

def beginText (name : List Char) : List Char := "<beginning of '".toList ++ name ++ "'>".toList

def endText (name : List Char) : List Char := "<end of '".toList ++ name ++ "'>".toList

def unhandledText (type : BitVec 6) : List Char :=
  "unhandled token type '".toList ++ Nat.toDigits 10 type.toNat ++ "' ".toList

def showSourceInto (size : Nat) : Token → Option (List Char)
  | .ident name => showIdentInto size (some (allocIdent name))
  | .number text => some text
  | .special value => some (showSpecial value)
  | .char wide data => showCharInto data wide '\''
  | .embedded wide data => showCharInto data wide '\''
  | .string wide data => showCharInto data wide '"'

def showTokenInto (size : Nat) : AnyToken → Option (List Char)
  | .null => some "<no token>".toList
  | .error => some "syntax error".toList
  | .eof => some "end-of-input".toList
  | .source token => showSourceInto size token.token
  | .streamBegin name => (FixedBuffer.copy size (beginText name)).map FixedBuffer.text
  | .streamEnd name => (FixedBuffer.copy size (endText name)).map FixedBuffer.text
  | .untaint => (FixedBuffer.copy size "<untaint>".toList).map FixedBuffer.text
  | .unhandled type => (FixedBuffer.copy size (unhandledText type)).map FixedBuffer.text

def matchOp (endop : Char) : AnyToken → Bool
  | .source token => decide (token.token = .special (.single endop))
  | _ => false

def nameText (size : Nat) : AnyToken → Option (List Char)
  | .source ⟨.string false data, _⟩ => some (cString data)
  | token => showTokenInto size token

def nameLoop {size : Nat} (endop : Char) (buffer : FilledBuffer Char size) :
    List AnyToken → Option (FixedBuffer Char size)
  | [] => buffer.terminate
  | token :: list =>
    if matchOp endop token then buffer.terminate
    else
      (nameText size token).bind fun val => (buffer.append val).bind fun filled =>
        nameLoop endop filled list

def tokenNameSequence (size : Nat) (endop : Char) (line : List AnyToken) :
    Option (FixedBuffer Char size) := nameLoop endop (.empty Char size) line

theorem showToken_clean {token : Token} (clean : Clean token) : Char.ofNat 0 ∉ showToken token := by
  have cut (text : List Char) : Char.ofNat 0 ∉ cString text := by
    intro member
    have other := mem_takeWhile_imp member
    rw [bne_self_eq_false] at other
    cases other
  cases token with
  | ident => exact cut _
  | number => exact clean
  | special => exact cut _
  | char => exact cut _
  | embedded => exact cut _
  | string => exact cut _

theorem scanned_clean {token : Token} {text : List Char} (shape : Shape token text) :
    Clean token := by
  cases shape with
  | ident letter words => exact words_visible (ident_words letter words)
  | @number c tail starts body =>
    intro member
    split_ifs at member
    · exact absurd (numberRun_chars (numberRun_starts starts body) _ member) (by decide)
    · exact absurd (mem_singleton.mp member) (by decide)
  | special => trivial
  | @literal delim wide lead body bytes =>
    have length : (bytes.take maxString).length ≤ maxString := length_take_le _ _
    unfold stringToken
    dsimp only
    split_ifs <;> exact length

theorem widen_clean {token wider : Token} (clean : Clean token)
    (widened : widen token = some wider) :
    Clean wider := by
  cases token with
  | ident | number | special => cases widened
  | char wide data | embedded wide data | string wide data =>
    cases wide with
    | true => cases widened
    | false =>
      cases widened
      exact clean

def CombinedClean : Combined → Prop
  | .wide token => Clean token
  | .ident buffer => Char.ofNat 0 ∉ buffer
  | .number buffer => Char.ofNat 0 ∉ buffer
  | _ => True

theorem combineText_clean (left right : Token) {p : List Char} (visible : Char.ofNat 0 ∉ p) :
    CombinedClean (combineText left right p) := by
  unfold combineText
  split
  · split
    · trivial
    · split_ifs
      · trivial
      · exact visible
    · exact visible
  · split
    · split_ifs
      · exact visible
      · exact visible
      · trivial
    · trivial
    · exact visible
  · split_ifs
    · exact visible
    · trivial

theorem combine_clean {left right : Token} (first : Clean left) (second : Clean right) :
    CombinedClean (combine left right) := by
  have visible : Char.ofNat 0 ∉ showToken left ++ showToken right := by
    intro member
    rcases mem_append.mp member with inside | inside
    · exact showToken_clean first inside
    · exact showToken_clean second inside
  unfold combine
  cases isPlain left with
  | false => trivial
  | true =>
    rw [if_pos rfl]
    cases widened : (if left = .ident ['L'] then widen right else none) with
    | some token =>
      have wide : widen right = some token := by
        split_ifs at widened
        exact widened
      exact widen_clean second wide
    | none =>
      dsimp only
      split_ifs
      · trivial
      · exact combineText_clean left right visible
      · trivial

theorem merge_clean {left right token : Token} (first : Clean left) (second : Clean right)
    (merged : merge left right = some token) : Clean token := by
  have clean := combine_clean first second
  unfold merge at merged
  cases made : combine left right with
  | error =>
    rw [made] at merged
    cases merged
  | wide token =>
    rw [made] at merged clean
    cases merged
    exact clean
  | ident p =>
    rw [made] at merged clean
    cases merged
    exact clean
  | number p =>
    rw [made] at merged clean
    cases merged
    exact clean
  | special p =>
    rw [made] at merged
    dsimp only at merged
    split_ifs at merged
    obtain ⟨value, -, same⟩ := Option.map_eq_some_iff.mp merged
    rw [← same]
    trivial

theorem Produced.clean {token : Token} (produced : Produced token) : Clean token := by
  induction produced with
  | scanned spells => exact scanned_clean spells.shape
  | pasted _ _ merged first second => exact merge_clean first second merged

/-- The length of a literal with its delimiters, or up to a terminator in it. -/
def literalWidth (wide : Bool) (data : List Char) : Nat :=
  wide.toNat + 1 + if Char.ofNat 0 ∈ data then (cString data).length else data.length + 1

def Token.width : Token → Nat
  | .ident name => name.length % 256
  | .number text => text.length
  | .special (.single c) => if c = Char.ofNat 0 then 0 else 1
  | .special (.combination value) => value.text.length
  | .char wide data => literalWidth wide data
  | .embedded wide data => literalWidth wide data
  | .string wide data => literalWidth wide data

/-- The length of a token in the name of a file.  A string stands without its delimiters. -/
def nameWidth : AnyToken → Nat
  | .null => 10
  | .error => 12
  | .eof => 12
  | .source ⟨.string false data, _⟩ => (cString data).length
  | .source token => token.token.width
  | .streamBegin name => name.length + 17
  | .streamEnd name => name.length + 11
  | .untaint => 9
  | .unhandled type => (unhandledText type).length

theorem cString_cut {first second : List Char} (terminator : Char.ofNat 0 ∈ first) :
    cString (first ++ second) = cString first := by
  unfold cString
  induction first with
  | nil => cases terminator
  | cons c first ih =>
    by_cases zero : c = Char.ofNat 0
    · subst zero
      rfl
    · have other : (c != Char.ofNat 0) = true := bne_iff_ne.mpr zero
      have later : Char.ofNat 0 ∈ first := by
        rcases mem_cons.mp terminator with same | later
        · exact absurd same.symm zero
        · exact later
      rw [cons_append, takeWhile_cons_of_pos (p := fun c => c != Char.ofNat 0) other,
        takeWhile_cons_of_pos (p := fun c => c != Char.ofNat 0) other, ih later]

theorem cString_append {first : List Char} (visible : Char.ofNat 0 ∉ first) (second : List Char) :
    cString (first ++ second) = first ++ cString second := by
  unfold cString
  refine takeWhile_append_of_pos fun c member => ?_
  rw [bne_iff_ne]
  rintro rfl
  exact visible member

theorem showChar_width (wide : Bool) (data : List Char) {delim : Char}
    (quote : isQuote delim = true) :
    (showChar data wide delim).length = literalWidth wide data := by
  have front : Char.ofNat 0 ∉ (if wide then ['L'] else []) ++ [delim] := by
    rcases quote_cases quote with rfl | rfl <;> cases wide <;> decide
  have close : Char.ofNat 0 ∉ [delim] := by
    rcases quote_cases quote with rfl | rfl <;> decide
  have whole : showChar data wide delim =
      ((if wide then ['L'] else []) ++ [delim]) ++ cString (data ++ [delim]) := by
    rw [← cString_append front, append_assoc, singleton_append]
    rfl
  have lead : ((if wide then ['L'] else []) ++ [delim]).length = wide.toNat + 1 := by
    cases wide <;> rfl
  rw [whole, length_append, lead]
  unfold literalWidth
  by_cases terminator : Char.ofNat 0 ∈ data
  · rw [if_pos terminator, cString_cut terminator]
  · rw [if_neg terminator, cString_append terminator, cString_visible close, length_append]
    rfl

theorem showToken_width {token : Token} (clean : Clean token) :
    (showToken token).length = token.width := by
  cases token with
  | ident name =>
    have visible : Char.ofNat 0 ∉ name.take (name.length % 256) := fun member =>
      clean (mem_of_mem_take member)
    change (cString (name.take (name.length % 256))).length = name.length % 256
    rw [cString_visible visible, length_take]
    exact Nat.min_eq_left (Nat.mod_le _ _)
  | number text => rfl
  | special value =>
    cases value with
    | single c =>
      change (showSpecial (.single c)).length = if c = Char.ofNat 0 then 0 else 1
      by_cases zero : c = Char.ofNat 0
      · rw [if_pos zero, zero]
        rfl
      · rw [if_neg zero, showSpecial_single zero]
        rfl
    | combination value => exact congrArg List.length (showSpecial_combination value)
  | char wide data => exact showChar_width wide data rfl
  | embedded wide data => exact showChar_width wide data rfl
  | string wide data => exact showChar_width wide data rfl

/-- Within the buffer, the result is that of `combine`. -/
theorem combineInto_eq {size : Nat} {left right : Token} {result : Combined}
    (made : combineInto size left right = some result) : result = combine left right := by
  unfold combineInto at made
  unfold combine
  cases plain : isPlain left with
  | false =>
    rw [plain] at made
    exact (Option.some.inj made).symm
  | true =>
    rw [plain, if_pos rfl] at made
    rw [if_pos rfl]
    cases widened : (if left = .ident ['L'] then widen right else none) with
    | some token =>
      rw [widened] at made
      exact (Option.some.inj made).symm
    | none =>
      rw [widened] at made
      dsimp only at made ⊢
      cases plain' : isPlain right with
      | false =>
        rw [plain'] at made
        exact (Option.some.inj made).symm
      | true =>
        rw [plain', if_pos rfl, FixedBuffer.copy_concat] at made
        obtain ⟨buffer, copied, same⟩ := Option.map_eq_some_iff.mp made
        rw [FixedBuffer.copy_text copied] at same
        rw [if_pos rfl]
        exact same.symm

theorem plain_not_wide {left right : Token} (plain : isPlain right = true) :
    (if left = .ident ['L'] then widen right else none) = none := by
  have none : widen right = none := by
    cases right with
    | ident | number | special => rfl
    | char | embedded | string => cases plain
  rw [none, ite_self]

/-- Two tokens are written one behind the other when both are identifiers, numbers or
punctuators. -/
theorem combineInto_isSome {left right : Token} (first : Clean left) (second : Clean right)
    (size : Nat) :
    (combineInto size left right).isSome = true ↔
      ¬ (isPlain left = true ∧ isPlain right = true ∧ size ≤ left.width + right.width) := by
  unfold combineInto
  cases plain : isPlain left with
  | false => exact ⟨fun _ both => (by cases both.1), fun _ => rfl⟩
  | true =>
    rw [if_pos rfl]
    cases plain' : isPlain right with
    | false =>
      refine ⟨fun _ both => (by cases both.2.1), fun _ => ?_⟩
      cases (if left = .ident ['L'] then widen right else none) with
      | some token => rfl
      | none => rfl
    | true =>
      rw [plain_not_wide plain']
      dsimp only
      rw [if_pos rfl, FixedBuffer.copy_concat, Option.isSome_map, FixedBuffer.copy_isSome,
        length_append, showToken_width first, showToken_width second]
      constructor
      · rintro fits ⟨-, -, long⟩
        exact absurd fits (Nat.not_lt.mpr long)
      · intro fits
        exact Nat.lt_of_not_le fun long => fits ⟨rfl, rfl, long⟩

theorem showIdentInto_isSome (name : List Char) :
    showIdentInto 256 (some (allocIdent name)) = some (showIdent (some (allocIdent name))) := by
  have short : (showIdent (some (allocIdent name))).length < 256 := by
    refine Nat.lt_of_le_of_lt (takeWhile_sublist _).length_le ?_
    change (name.take (name.length % 256)).length < 256
    rw [length_take]
    exact Nat.lt_of_le_of_lt (Nat.min_le_left _ _) (Nat.mod_lt _ (by decide))
  unfold showIdentInto FixedBuffer.copy
  dsimp only
  rw [dif_pos short]
  rfl

theorem showCharInto_eq {data : List Char} (length : data.length ≤ maxString) (wide : Bool)
    (delim : Char) : showCharInto data wide delim = some (showChar data wide delim) := by
  have fits : ((if wide then ['L'] else []) ++ delim :: (data ++ [delim])).length <
      maxString + 4 := by
    have one : (if wide then ['L'] else []).length ≤ 1 := by
      cases wide <;> decide
    rw [length_append, length_cons, length_append, length_singleton]
    omega
  unfold showCharInto FixedBuffer.copy
  rw [dif_pos fits]
  rfl

/-- The tokens of a source never fill a buffer. -/
theorem showSourceInto_eq {token : Token} (clean : Clean token) :
    showSourceInto 256 token = some (showToken token) := by
  cases token with
  | ident name => exact showIdentInto_isSome name
  | number text => rfl
  | special value => rfl
  | char wide data => exact showCharInto_eq clean wide '\''
  | embedded wide data => exact showCharInto_eq clean wide '\''
  | string wide data => exact showCharInto_eq clean wide '"'

theorem beginText_length (name : List Char) : (beginText name).length = name.length + 17 := by
  unfold beginText
  rw [length_append, length_append]
  change 15 + name.length + 2 = name.length + 17
  omega

theorem endText_length (name : List Char) : (endText name).length = name.length + 11 := by
  unfold endText
  rw [length_append, length_append]
  change 9 + name.length + 2 = name.length + 11
  omega

theorem unhandledText_length : ∀ type : BitVec 6, (unhandledText type).length < 256 := by
  decide

/-- The name of a stream that fits the buffer of `show_token`. -/
def StreamFits : AnyToken → Prop
  | .streamBegin name => name.length < 239
  | .streamEnd name => name.length < 245
  | _ => True

theorem showTokenInto_isSome (token : AnyToken) :
    (showTokenInto 256 token).isSome = true ↔ StreamFits token := by
  cases token with
  | null | error | eof => exact ⟨fun _ => trivial, fun _ => rfl⟩
  | source token =>
    refine ⟨fun _ => trivial, fun _ => ?_⟩
    change (showSourceInto 256 token.token).isSome = true
    rw [showSourceInto_eq token.produced.clean]
    rfl
  | streamBegin name =>
    change ((FixedBuffer.copy 256 (beginText name)).map FixedBuffer.text).isSome = true ↔
      name.length < 239
    rw [Option.isSome_map, FixedBuffer.copy_isSome, beginText_length]
    omega
  | streamEnd name =>
    change ((FixedBuffer.copy 256 (endText name)).map FixedBuffer.text).isSome = true ↔
      name.length < 245
    rw [Option.isSome_map, FixedBuffer.copy_isSome, endText_length]
    omega
  | untaint =>
    refine ⟨fun _ => trivial, fun _ => ?_⟩
    change ((FixedBuffer.copy 256 "<untaint>".toList).map FixedBuffer.text).isSome = true
    rw [Option.isSome_map, FixedBuffer.copy_isSome]
    decide
  | unhandled type =>
    refine ⟨fun _ => trivial, fun _ => ?_⟩
    change ((FixedBuffer.copy 256 (unhandledText type)).map FixedBuffer.text).isSome = true
    rw [Option.isSome_map, FixedBuffer.copy_isSome]
    exact unhandledText_length type

/-- A token that is shorter than the buffer is shown with its length. -/
theorem nameText_width {token : AnyToken} (short : nameWidth token < 256) :
    ∃ val, nameText 256 token = some val ∧ val.length = nameWidth token := by
  cases token with
  | null | error | eof => exact ⟨_, rfl, rfl⟩
  | source token =>
    obtain ⟨token, produced⟩ := token
    have shown := showSourceInto_eq produced.clean
    have width := showToken_width produced.clean
    cases token with
    | string wide data =>
      cases wide with
      | false => exact ⟨_, rfl, rfl⟩
      | true => exact ⟨_, shown, width⟩
    | ident | number | special | char | embedded => exact ⟨_, shown, width⟩
  | streamBegin name =>
    have fits : (beginText name).length < 256 := by
      rw [beginText_length]
      exact short
    refine ⟨beginText name, ?_, beginText_length name⟩
    unfold nameText showTokenInto FixedBuffer.copy
    dsimp only
    rw [dif_pos fits]
    rfl
  | streamEnd name =>
    have fits : (endText name).length < 256 := by
      rw [endText_length]
      exact short
    refine ⟨endText name, ?_, endText_length name⟩
    unfold nameText showTokenInto FixedBuffer.copy
    dsimp only
    rw [dif_pos fits]
    rfl
  | untaint => exact ⟨_, rfl, rfl⟩
  | unhandled type =>
    refine ⟨unhandledText type, ?_, rfl⟩
    unfold nameText showTokenInto FixedBuffer.copy
    dsimp only
    rw [dif_pos (unhandledText_length type)]
    rfl

/-- What is copied has the length of the token. -/
theorem nameText_length {token : AnyToken} {val : List Char}
    (shown : nameText 256 token = some val) : val.length = nameWidth token := by
  by_cases short : nameWidth token < 256
  · obtain ⟨text, same, length⟩ := nameText_width short
    rw [shown] at same
    rw [Option.some.inj same]
    exact length
  · cases token with
    | null | error | eof | untaint => exact absurd (by decide) short
    | source token =>
      obtain ⟨token, produced⟩ := token
      have whole := showSourceInto_eq produced.clean
      have width := showToken_width produced.clean
      cases token with
      | string wide data =>
        cases wide with
        | false => exact congrArg List.length (Option.some.inj shown).symm
        | true =>
          have same := shown.symm.trans whole
          rw [Option.some.inj same]
          exact width
      | ident | number | special | char | embedded =>
        have same := shown.symm.trans whole
        rw [Option.some.inj same]
        exact width
    | streamBegin name =>
      obtain ⟨buffer, copied, same⟩ := Option.map_eq_some_iff.mp shown
      rw [← same, FixedBuffer.copy_text copied]
      exact beginText_length name
    | streamEnd name =>
      obtain ⟨buffer, copied, same⟩ := Option.map_eq_some_iff.mp shown
      rw [← same, FixedBuffer.copy_text copied]
      exact endText_length name
    | unhandled type => exact absurd (unhandledText_length type) short

def named (endop : Char) (line : List AnyToken) : List AnyToken :=
  line.takeWhile fun token => !matchOp endop token

theorem nameLoop_isSome (endop : Char) (buffer : FilledBuffer Char 256) (line : List AnyToken) :
    (nameLoop endop buffer line).isSome = true ↔
      buffer.text.length + ((named endop line).map nameWidth).sum < 256 := by
  induction line generalizing buffer with
  | nil => exact FixedBuffer.copy_isSome
  | cons token list ih =>
    unfold nameLoop named
    cases ends : matchOp endop token with
    | true =>
      rw [if_pos rfl, takeWhile_cons_of_neg (by rw [ends]; decide)]
      exact FixedBuffer.copy_isSome
    | false =>
      rw [if_neg Bool.false_ne_true, takeWhile_cons_of_pos (by rw [ends]; rfl),
        map_cons, sum_cons]
      change _ ↔ buffer.text.length +
        (nameWidth token + ((named endop list).map nameWidth).sum) < 256
      cases shown : nameText 256 token with
      | none =>
        refine ⟨fun same => (by cases same), fun total => ?_⟩
        obtain ⟨val, some, -⟩ := @nameText_width token (by omega)
        rw [shown] at some
        cases some
      | some val =>
        have length := nameText_length shown
        rw [Option.bind_some]
        cases filled : buffer.append val with
        | none =>
          have long := FilledBuffer.append_none.mp filled
          refine ⟨fun same => (by cases same), fun total => ?_⟩
          omega
        | some next =>
          rw [Option.bind_some, ih next, FilledBuffer.append_some filled, length_append,
            length, Nat.add_assoc]

/-- The buffers hold what is written to them exactly for these tokens, and a paste within the
buffer is that of `combine`. -/
theorem buffers_hold_iff (left right : ProducedToken) (name : List Char) (token : AnyToken)
    (endop : Char) (line : List AnyToken) :
    ((combineInto 512 left.token right.token).isSome = true ↔
        ¬ (isPlain left.token = true ∧ isPlain right.token = true ∧
          512 ≤ left.token.width + right.token.width)) ∧
      (∀ result, combineInto 512 left.token right.token = some result →
        result = combine left.token right.token) ∧
      (showIdentInto 256 (some (allocIdent name))).isSome = true ∧
      ((showTokenInto 256 token).isSome = true ↔ StreamFits token) ∧
      ((tokenNameSequence 256 endop line).isSome = true ↔
        ((named endop line).map nameWidth).sum < 256) := by
  refine ⟨?_, fun _ => combineInto_eq, ?_, showTokenInto_isSome token, ?_⟩
  · exact combineInto_isSome left.produced.clean right.produced.clean 512
  · rw [showIdentInto_isSome]
    rfl
  · have all := nameLoop_isSome endop (.empty Char 256) line
    have none : (FilledBuffer.empty Char 256).text.length = 0 := rfl
    rwa [none, Nat.zero_add] at all

def digits (count : Nat) : List Char := List.replicate count '1'

theorem digits_spells {count : Nat} (small : count + 1 < numberSize) :
    Spells (.number ('1' :: digits count)) ('1' :: digits count) := by
  have words : ∀ c ∈ digits count, isWord c = true := by
    intro c member
    rw [eq_of_mem_replicate member]
    decide
  have body := (numberTail_whole (digits count)).mpr (numberRun_words words false)
  have shape := @Shape.number '1' (digits count) (Or.inl rfl) body
  have length : ('1' :: digits count).length < numberSize := by
    rw [length_cons, digits, length_replicate]
    exact small
  rw [if_pos length] at shape
  exact shape.spells

/-- Two numbers of 300 digits do not fit the buffer of `merge`. -/
theorem combine_overruns :
    Produced (.number ('1' :: digits 299)) ∧
      combineInto 512 (.number ('1' :: digits 299)) (.number ('1' :: digits 299)) = none := by
  have produced : Produced (.number ('1' :: digits 299)) :=
    .scanned (digits_spells (by decide))
  have width : Token.width (.number ('1' :: digits 299)) = 300 := by
    change ('1' :: digits 299).length = 300
    rw [length_cons, digits, length_replicate]
  refine ⟨produced, ?_⟩
  rw [← Option.not_isSome_iff_eq_none, combineInto_isSome produced.clean produced.clean, not_not,
    width]
  exact ⟨rfl, rfl, by decide⟩

end SmatchFormal.Tokenizer
