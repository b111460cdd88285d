import SmatchFormal.Tokenizer.Scan

/-!
# The tokens of a text

The loop of `tokenize_stream` over the scanners, with the flags that a token takes from its stream.
-/

namespace SmatchFormal.Tokenizer

open SmatchFormal.Lib List

/-- What is left of the text.  At the end of the file that is nothing. -/
def Scan.rest : Scan → List Char
  | .token _ rest => rest
  | .lineComment rest => rest
  | .comment rest => rest
  | .cut => []

theorem numberTail_append_rest (text : List Char) :
    (numberTail text).1 ++ (numberTail text).2 = text := by
  induction text using numberTail.induct with
  | case1 => rfl
  | case2 next found =>
    unfold numberTail
    rw [if_pos found]
    rfl
  | case3 next other =>
    unfold numberTail
    rw [if_neg other]
    rfl
  | case4 next sign rest found signed ih =>
    unfold numberTail
    rw [if_pos found, if_pos signed]
    exact congrArg (fun tail => next :: sign :: tail) ih
  | case5 next sign rest found unsigned ih =>
    unfold numberTail
    rw [if_pos found, if_neg unsigned]
    exact congrArg (List.cons next) ih
  | case6 next sign rest other =>
    unfold numberTail
    rw [if_neg other]
    rfl

theorem identTail_append_rest (room : Nat) (text : List Char) :
    (identTail room text).1 ++ (identTail room text).2 = text := by
  induction text generalizing room with
  | nil => cases room <;> rfl
  | cons next rest ih =>
    cases room with
    | zero => rfl
    | succ room =>
      unfold identTail
      split_ifs
      · exact congrArg (List.cons next) (ih room)
      · rfl

theorem eatLoop_suffix {delim : Char} {escape : Bool} {text bytes rest : List Char}
    (eaten : eatLoop delim escape text = some (bytes, rest)) : rest <:+ text := by
  induction text generalizing escape bytes with
  | nil => cases eaten
  | cons next text ih =>
    unfold eatLoop at eaten
    split_ifs at eaten
    · cases eaten
      exact suffix_cons next rest
    · cases eaten
      exact suffix_cons next rest
    · obtain ⟨inner, found, same⟩ := Option.map_eq_some_iff.mp eaten
      cases same
      exact (ih found).trans (suffix_cons next text)

theorem getOneNumber_rest (c : Char) (text : List Char) : (getOneNumber c text).rest <:+ text :=
  ⟨(numberTail text).1, numberTail_append_rest text⟩

theorem eatString_rest (delim : Char) (wide : Bool) (text : List Char) :
    (eatString delim wide text).rest <:+ text := by
  unfold eatString
  cases eaten : eatLoop delim false text with
  | none => exact nil_suffix
  | some parts => exact eatLoop_suffix eaten

theorem dropStreamEoln_rest (text : List Char) : (dropStreamEoln text).rest <:+ text := by
  induction text with
  | nil => exact nil_suffix
  | cons c text ih =>
    unfold dropStreamEoln
    split_ifs
    · exact suffix_cons c text
    · exact ih.trans (suffix_cons c text)

theorem dropStreamComment_rest (text : List Char) : (dropStreamComment text).rest <:+ text := by
  induction text using dropStreamComment.induct with
  | case1 => exact nil_suffix
  | case2 c => exact nil_suffix
  | case3 curr next rest closed =>
    unfold dropStreamComment
    rw [if_pos closed]
    exact (suffix_cons next rest).trans (suffix_cons curr _)
  | case4 curr next rest inside ih =>
    unfold dropStreamComment
    rw [if_neg inside]
    exact ih.trans (suffix_cons curr _)

theorem scanCombination_rest (c : Char) (text : List Char) :
    (scanCombination c text).rest <:+ text := by
  cases text with
  | nil => exact suffix_rfl
  | cons next rest =>
    have tail : rest <:+ next :: rest := suffix_cons next rest
    unfold scanCombination
    dsimp only
    cases (if validSecond next then findCombination c next else none) with
    | none => exact suffix_rfl
    | some value =>
      dsimp only
      cases thirdChar value with
      | none => exact tail
      | some longer =>
        dsimp only
        split_ifs
        · exact (tail_suffix rest).trans tail
        · exact tail

theorem getOneSpecial_rest (c : Char) (text : List Char) :
    (getOneSpecial c text).rest <:+ text := by
  unfold getOneSpecial
  split_ifs
  · exact getOneNumber_rest c text
  · exact eatString_rest '"' false text
  · exact eatString_rest '\'' false text
  · exact (dropStreamEoln_rest _).trans (tail_suffix text)
  · exact (dropStreamComment_rest _).trans (tail_suffix text)
  · exact scanCombination_rest c text

theorem getOneIdentifier_rest (c : Char) (text : List Char) :
    (getOneIdentifier c text).rest <:+ text := by
  have behind : (identTail (identSize - 1) text).2 <:+ text :=
    ⟨(identTail (identSize - 1) text).1, identTail_append_rest _ text⟩
  unfold getOneIdentifier
  dsimp only
  split_ifs
  · exact ((eatString_rest _ _ _).trans (tail_suffix _)).trans behind
  · exact ((eatString_rest _ _ _).trans (tail_suffix _)).trans behind
  · exact behind

theorem getOneToken_rest (c : Char) (text : List Char) : (getOneToken c text).rest <:+ text := by
  unfold getOneToken
  split_ifs
  · exact getOneNumber_rest c text
  · exact getOneIdentifier_rest c text
  · exact getOneSpecial_rest c text

structure PlacedToken where
  token : Token
  newline : Bool
  whitespace : Bool
  deriving DecidableEq, Repr

/-- Whether a line feed is returned while the scanner goes from the first character of a token to
what is left. -/
def readNewline (text rest : List Char) : Bool :=
  (text.take (text.length - rest.length)).contains '\n'

def nextNewline (rest : List Char) : Bool := rest.head? == some '\n'

/-- The loop of `tokenize_stream`, when the first character of the text was returned. -/
def tokenizeText (newline whitespace : Bool) : List Char → List PlacedToken
  | [] => []
  | c :: text =>
    if Strtol.isSpace c then tokenizeText (newline || nextNewline text) true text
    else
      match _scanned : getOneToken c text with
      | .token token rest =>
        ⟨token, newline, whitespace⟩ ::
          tokenizeText (readNewline text rest || nextNewline rest) false rest
      | .lineComment rest => tokenizeText (newline || readNewline text rest || nextNewline rest)
          whitespace rest
      | .comment rest => tokenizeText (newline || nextNewline rest) whitespace rest
      | .cut => []
termination_by text => text.length
decreasing_by
  · exact Nat.lt_succ_self _
  all_goals
    have suffix := getOneToken_rest c text
    rw [_scanned] at suffix
    exact Nat.lt_succ_of_le suffix.length_le

def startPlace : Place := ⟨1, 0, true⟩

def tokenizeBuffer (options : StreamOptions) (bytes : List Char) : List PlacedToken :=
  tokenizeText true false ((readAll options (.ofBuffer startPlace bytes)).chars.map Prod.fst)

/-- The tokens are those of the text with plain line ends and without continued lines. -/
theorem tokenizeBuffer_eq (options : StreamOptions) (bytes : List Char) :
    tokenizeBuffer options bytes = tokenizeText true false (spliceLines (normalize bytes)) := by
  unfold tokenizeBuffer
  rw [readAll_text]
  have whole : (Stream.ofBuffer startPlace bytes).contents 0 = bytes := append_nil bytes
  change tokenizeText true false ((readText options startPlace
    ((Stream.ofBuffer startPlace bytes).contents 0)).chars.map Prod.fst) = _
  rw [whole, readText_chars]

theorem tokenizeText_single {newline whitespace : Bool} {c : Char} {text : List Char}
    {token : Token}
    (visible : Strtol.isSpace c = false) (scanned : getOneToken c text = .token token []) :
    tokenizeText newline whitespace (c :: text) = [⟨token, newline, whitespace⟩] := by
  rw [tokenizeText, if_neg (by rw [visible]; exact Bool.false_ne_true)]
  split
  · rename_i same
    rw [scanned] at same
    cases same
    rw [tokenizeText]
  · rename_i same
    rw [scanned] at same
    cases same
  · rename_i same
    rw [scanned] at same
    cases same
  · rename_i same
    rw [scanned] at same
    cases same

end SmatchFormal.Tokenizer
