import SmatchFormal.Lib.InternTable
import SmatchFormal.Tokenizer.Tokens
import Mathlib.Data.Char

/-!
# Identifiers

All identifiers with one spelling share a `struct ident`.  The scanner and `built_in_ident` look
them up in one hash table.
-/

namespace SmatchFormal.Tokenizer

open SmatchFormal.Lib List

/-- The bytes of a name, and the length that is kept in one byte. -/
structure Ident where
  bytes : List Char
  len : Nat
  deriving DecidableEq, Repr

abbrev IdentTable := InternTable Ident (BitVec 64)

def allocIdent (name : List Char) : Ident := ⟨name, name.length % 256⟩

/-- `show_ident`.  The conversion `%.*s` stops at a terminator. -/
def showIdent : Option Ident → List Char
  | none => "<noident>".toList
  | some ident => (ident.bytes.take ident.len).takeWhile fun c => c != Char.ofNat 0

def identHashInit (c : Char) : BitVec 64 := BitVec.ofNat 64 c.toNat

def identHashAdd (oldhash : BitVec 64) (c : Char) : BitVec 64 :=
  oldhash * 11 + BitVec.ofNat 64 c.toNat

def identHashEnd (hash : BitVec 64) : BitVec 64 := ((hash >>> 16) + hash) &&& 65535

/-- The two comparisons with an entry.  Bytes behind the end of a shorter name count as different.
-/
def sameIdent (name : List Char) (ident : Ident) : Bool :=
  ident.len == name.length % 256 && name == ident.bytes.take name.length

def createHashedIdent (table : IdentTable) (name : List Char) (hash : BitVec 64) :
    Nat × IdentTable :=
  table.intern (sameIdent name) hash (allocIdent name)

def hashName : List Char → BitVec 64
  | [] => identHashEnd 0
  | c :: rest => identHashEnd (rest.foldl identHashAdd (identHashInit c))

def hashIdent (table : IdentTable) (name : List Char) : IdentTable :=
  table.insert (hashName (name.take (name.length % 256))) (allocIdent name)

def initSymbols (reserved : List (List Char)) : IdentTable := reserved.foldl hashIdent .empty

def builtInIdent (table : IdentTable) (name : List Char) : Nat × IdentTable :=
  createHashedIdent table name (hashName name)

def identLoop (hash : BitVec 64) : Nat → List Char → List Char × BitVec 64 × List Char
  | _, [] => ([], hash, [])
  | 0, next :: rest => ([], hash, next :: rest)
  | room + 1, next :: rest =>
    if isWord next then
      let loop := identLoop (identHashAdd hash next) room rest
      (next :: loop.1, loop.2)
    else ([], hash, next :: rest)

/-- An identifier token: the characters of the buffer and the number of its `struct ident`. -/
structure IdentToken where
  name : List Char
  id : Nat
  deriving DecidableEq, Repr

def scanIdentifier (table : IdentTable) (c : Char) (text : List Char) :
    Scan × Option IdentToken × IdentTable :=
  let loop := identLoop (identHashInit c) (identSize - 1) text
  let buf := c :: loop.1
  let rest := loop.2.2
  if (buf = ['L'] ∨ buf = ['u']) ∧ rest.head? = some '\'' then
    (eatString '\'' true rest.tail, none, table)
  else if (buf = ['L'] ∨ buf = ['u']) ∧ rest.head? = some '"' then
    (eatString '"' true rest.tail, none, table)
  else
    let created := createHashedIdent table buf (identHashEnd loop.2.1)
    (.token (.ident buf) rest, some ⟨buf, created.1⟩, created.2)

def scanToken (table : IdentTable) (c : Char) (text : List Char) :
    Scan × Option IdentToken × IdentTable :=
  if c.isDigit then (getOneNumber c text, none, table)
  else if isLetter c then scanIdentifier table c text
  else (getOneSpecial c text, none, table)

theorem identLoop_eq (hash : BitVec 64) (room : Nat) (text : List Char) :
    identLoop hash room text =
      ((identTail room text).1, (identTail room text).1.foldl identHashAdd hash,
        (identTail room text).2) := by
  induction text generalizing hash room with
  | nil => cases room <;> rfl
  | cons next rest ih =>
    cases room with
    | zero => rfl
    | succ room =>
      unfold identLoop identTail
      split_ifs
      · dsimp only
        rw [ih]
        rfl
      · rfl

theorem identLoop_hash (c : Char) (room : Nat) (text : List Char) :
    identHashEnd (identLoop (identHashInit c) room text).2.1 =
      hashName (c :: (identLoop (identHashInit c) room text).1) := by
  rw [identLoop_eq]
  rfl

theorem scanIdentifier_scan (table : IdentTable) (c : Char) (text : List Char) :
    (scanIdentifier table c text).1 = getOneIdentifier c text := by
  unfold scanIdentifier getOneIdentifier
  dsimp only
  rw [identLoop_eq]
  split_ifs <;> rfl

theorem scanToken_scan (table : IdentTable) (c : Char) (text : List Char) :
    (scanToken table c text).1 = getOneToken c text := by
  unfold scanToken getOneToken
  split_ifs
  · rfl
  · exact scanIdentifier_scan table c text
  · rfl

def scanText (table : IdentTable) : List Char → List IdentToken × IdentTable
  | [] => ([], table)
  | c :: text =>
    if Strtol.isSpace c then scanText table text
    else
      let scanned := scanToken table c text
      let later := scanText scanned.2.2 scanned.1.rest
      (scanned.2.1.toList ++ later.1, later.2)
termination_by text => text.length
decreasing_by
  · exact Nat.lt_succ_self _
  · rw [scanToken_scan]
    exact Nat.lt_succ_of_le (getOneToken_rest c text).length_le

/-- A source text, or a name that is passed to `built_in_ident`. -/
inductive Input
  | source (bytes : List Char)
  | builtIn (name : List Char)

def Input.run (options : StreamOptions) (table : IdentTable) :
    Input → List IdentToken × IdentTable
  | .source bytes =>
    scanText table ((readAll options (.ofBuffer startPlace bytes)).chars.map Prod.fst)
  | .builtIn name =>
    ([⟨name, (builtInIdent table name).1⟩], (builtInIdent table name).2)

def runInputs (options : StreamOptions) (table : IdentTable) :
    List Input → List IdentToken × IdentTable
  | [] => ([], table)
  | input :: inputs =>
    let first := input.run options table
    let later := runInputs options first.2 inputs
    (first.1 ++ later.1, later.2)

def startsLiteral (run rest : List Char) : Prop :=
  (run = ['L'] ∨ run = ['u']) ∧ (rest.head? = some '\'' ∨ rest.head? = some '"')

instance (run rest : List Char) : Decidable (startsLiteral run rest) :=
  inferInstanceAs (Decidable ((_ ∨ _) ∧ (_ ∨ _)))

/-- The runs of letters, digits and underscores at which the scanner starts a token with a letter or
an underscore, except the ones in front of a literal. -/
def wordRuns : List Char → List (List Char)
  | [] => []
  | c :: text =>
    if Strtol.isSpace c then wordRuns text
    else if isLetter c ∧ ¬ startsLiteral (c :: text.takeWhile isWord) (text.dropWhile isWord) then
      (c :: text.takeWhile isWord) :: wordRuns (text.dropWhile isWord)
    else wordRuns (getOneToken c text).rest
termination_by text => text.length
decreasing_by
  · exact Nat.lt_succ_self _
  · exact Nat.lt_succ_of_le (dropWhile_suffix _).length_le
  · exact Nat.lt_succ_of_le (getOneToken_rest c text).length_le

def Input.spellings : Input → List (List Char)
  | .source bytes => wordRuns (spliceLines (normalize bytes))
  | .builtIn name => [name]

theorem letter_not_digit {c : Char} (letter : isLetter c = true) : c.isDigit = false := by
  unfold isLetter Char.isAlpha Char.isUpper Char.isLower at letter
  unfold Char.isDigit
  simp only [Bool.or_eq_true, Bool.and_eq_true, decide_eq_true_eq, beq_iff_eq, ge_iff_le,
    UInt32.le_iff_toNat_le] at letter
  rw [Bool.and_eq_false_iff, decide_eq_false_iff_not, decide_eq_false_iff_not]
  simp only [ge_iff_le, UInt32.le_iff_toNat_le]
  rcases letter with (⟨low, -⟩ | ⟨low, -⟩) | rfl
  · exact Or.inr fun high => absurd (Nat.le_trans low high) (by decide)
  · exact Or.inr fun high => absurd (Nat.le_trans low high) (by decide)
  · exact Or.inr (by decide)

/-- A run that fits the buffer is read to its end. -/
theorem identTail_run {room : Nat} {text : List Char}
    (fits : (text.takeWhile isWord).length ≤ room) :
    identTail room text = (text.takeWhile isWord, text.dropWhile isWord) := by
  induction text generalizing room with
  | nil => cases room <;> rfl
  | cons next rest ih =>
    by_cases word : isWord next = true
    · rw [takeWhile_cons_of_pos word] at fits ⊢
      rw [dropWhile_cons_of_pos word]
      cases room with
      | zero => cases fits
      | succ room =>
        rw [identTail, if_pos word, ih (Nat.le_of_succ_le_succ fits)]
    · rw [takeWhile_cons_of_neg word, dropWhile_cons_of_neg word]
      cases room with
      | zero => rfl
      | succ room => rw [identTail, if_neg word]

section

variable (table : IdentTable)
include table

/-- The token of a run, when it fits the buffer. -/
theorem scanIdentifier_run {c : Char} {text : List Char}
    (fits : (c :: text.takeWhile isWord).length ≤ identSize)
    (plain : ¬ startsLiteral (c :: text.takeWhile isWord) (text.dropWhile isWord)) :
    scanIdentifier table c text =
      (.token (.ident (c :: text.takeWhile isWord)) (text.dropWhile isWord),
        some ⟨c :: text.takeWhile isWord, (builtInIdent table (c :: text.takeWhile isWord)).1⟩,
        (builtInIdent table (c :: text.takeWhile isWord)).2) := by
  have read := @identTail_run (identSize - 1) text (Nat.le_of_succ_le_succ fits)
  unfold scanIdentifier
  dsimp only
  rw [identLoop_eq, read]
  dsimp only
  rw [if_neg fun both => plain ⟨both.1, Or.inl both.2⟩,
    if_neg fun both => plain ⟨both.1, Or.inr both.2⟩]
  rfl

/-- In front of a literal there is no identifier. -/
theorem scanIdentifier_literal {c : Char} {text : List Char}
    (starts : startsLiteral (c :: text.takeWhile isWord) (text.dropWhile isWord)) :
    (scanIdentifier table c text).2 = (none, table) := by
  have fits : (text.takeWhile isWord).length ≤ identSize - 1 := by
    have short : (c :: text.takeWhile isWord).length = 1 := by
      rcases starts.1 with same | same <;> rw [same] <;> rfl
    rw [Nat.succ.inj short]
    exact Nat.zero_le _
  unfold scanIdentifier
  dsimp only
  rw [identLoop_eq, identTail_run fits]
  dsimp only
  by_cases single : (text.dropWhile isWord).head? = some '\''
  · rw [if_pos ⟨starts.1, single⟩]
  · have double := starts.2.resolve_left single
    rw [if_neg fun both => single both.2, if_pos ⟨starts.1, double⟩]

theorem scanToken_other {c : Char} (text : List Char) (other : isLetter c = false) :
    (scanToken table c text).2 = (none, table) := by
  unfold scanToken
  rw [other, if_neg Bool.false_ne_true]
  split_ifs <;> rfl

theorem scanToken_letter {c : Char} (text : List Char) (letter : isLetter c = true) :
    scanToken table c text = scanIdentifier table c text := by
  unfold scanToken
  rw [letter_not_digit letter, if_neg Bool.false_ne_true, if_pos letter]

theorem scanText_nil : scanText table [] = ([], table) := by
  rw [scanText]

theorem scanText_space {c : Char} (text : List Char) (space : Strtol.isSpace c = true) :
    scanText table (c :: text) = scanText table text := by
  rw [scanText, if_pos space]

theorem scanText_token {c : Char} (text : List Char) (visible : ¬ Strtol.isSpace c = true) :
    scanText table (c :: text) =
      ((scanToken table c text).2.1.toList ++
          (scanText (scanToken table c text).2.2 (scanToken table c text).1.rest).1,
        (scanText (scanToken table c text).2.2 (scanToken table c text).1.rest).2) := by
  rw [scanText, if_neg visible]

/-- The names of the identifier tokens are the runs, when these are short. -/
theorem scanText_names (text : List Char) (short : ∀ run ∈ wordRuns text, run.length < 256) :
    (scanText table text).1.map IdentToken.name = wordRuns text := by
  induction size : text.length using Nat.strongRecOn generalizing table text with
  | ind bound ih =>
    rcases text with _ | ⟨c, text⟩
    · rw [scanText_nil, wordRuns]
      rfl
    rw [length_cons] at size
    rw [wordRuns] at short ⊢
    by_cases space : Strtol.isSpace c = true
    · rw [if_pos space] at short ⊢
      rw [scanText_space table text space]
      exact ih text.length (by omega) table text short rfl
    rw [if_neg space] at short ⊢
    rw [scanText_token table text space]
    by_cases starts : isLetter c = true ∧
        ¬ startsLiteral (c :: text.takeWhile isWord) (text.dropWhile isWord)
    · rw [if_pos starts] at short ⊢
      have fits := short _ mem_cons_self
      have smaller := (dropWhile_suffix isWord (l := text)).length_le
      rw [scanToken_letter table text starts.1,
        scanIdentifier_run table (Nat.le_of_lt fits) starts.2]
      have later := ih (text.dropWhile isWord).length (by omega)
        (builtInIdent table (c :: text.takeWhile isWord)).2 (text.dropWhile isWord)
        (fun run member => short run (mem_cons_of_mem _ member)) rfl
      exact congrArg (List.cons _) later
    · rw [if_neg starts] at short ⊢
      have none' : (scanToken table c text).2 = (none, table) := by
        cases letter : isLetter c with
        | false => exact scanToken_other table text letter
        | true =>
          rw [scanToken_letter table text letter]
          exact scanIdentifier_literal table
            (not_not.mp fun plain => starts ⟨letter, plain⟩)
      have smaller := (getOneToken_rest c text).length_le
      rw [none', scanToken_scan]
      exact ih (getOneToken c text).rest.length (by omega) table _ short rfl

end

def Known (table : IdentTable) (token : IdentToken) : Prop :=
  table.find (sameIdent token.name) (hashName token.name) = some token.id

theorem sameIdent_alloc (name : List Char) : sameIdent name (allocIdent name) = true := by
  unfold sameIdent allocIdent
  rw [take_length, beq_self_eq_true, beq_self_eq_true]
  rfl

theorem builtInIdent_known (table : IdentTable) (name : List Char) :
    Known (builtInIdent table name).2 ⟨name, (builtInIdent table name).1⟩ :=
  InternTable.intern_find table (hashName name) (sameIdent_alloc name)

theorem builtInIdent_extends (table : IdentTable) (name : List Char) :
    table.Extends (builtInIdent table name).2 :=
  InternTable.intern_extends table (sameIdent name) (hashName name) (allocIdent name)

theorem known_mono {before after : IdentTable} (grown : before.Extends after) {token : IdentToken}
    (known : Known before token) : Known after token :=
  grown.find known

structure Shares (table : IdentTable) (result : List IdentToken × IdentTable) : Prop where
  grown : table.Extends result.2
  known : ∀ token ∈ result.1, Known result.2 token

theorem shares_none (table : IdentTable) : Shares table ([], table) :=
  ⟨InternTable.extends_refl table, fun _ member => absurd member not_mem_nil⟩

theorem Shares.append {table : IdentTable} {first later : List IdentToken × IdentTable}
    (one : Shares table first) (two : Shares first.2 later) :
    Shares table (first.1 ++ later.1, later.2) := by
  refine ⟨one.grown.trans two.grown, fun token member => ?_⟩
  rcases mem_append.mp member with early | late
  · exact known_mono two.grown (one.known token early)
  · exact two.known token late

theorem scanIdentifier_shares (table : IdentTable) (c : Char) (text : List Char) :
    Shares table ((scanIdentifier table c text).2.1.toList, (scanIdentifier table c text).2.2) := by
  unfold scanIdentifier
  dsimp only
  rw [identLoop_hash]
  split_ifs
  · exact shares_none table
  · exact shares_none table
  · refine ⟨builtInIdent_extends table _, fun token member => ?_⟩
    rw [mem_singleton.mp member]
    exact builtInIdent_known table _

theorem scanToken_shares (table : IdentTable) (c : Char) (text : List Char) :
    Shares table ((scanToken table c text).2.1.toList, (scanToken table c text).2.2) := by
  unfold scanToken
  split_ifs
  · exact shares_none table
  · exact scanIdentifier_shares table c text
  · exact shares_none table

theorem scanText_shares (table : IdentTable) (text : List Char) :
    Shares table (scanText table text) := by
  induction size : text.length using Nat.strongRecOn generalizing table text with
  | ind bound ih =>
    rcases text with _ | ⟨c, text⟩
    · rw [scanText_nil]
      exact shares_none table
    rw [length_cons] at size
    by_cases space : Strtol.isSpace c = true
    · rw [scanText_space table text space]
      exact ih text.length (by omega) table text rfl
    · have smaller : (scanToken table c text).1.rest.length ≤ text.length := by
        rw [scanToken_scan]
        exact (getOneToken_rest c text).length_le
      rw [scanText_token table text space]
      exact (scanToken_shares table c text).append (ih _ (by omega) _ _ rfl)

theorem input_shares (options : StreamOptions) (table : IdentTable) (input : Input) :
    Shares table (input.run options table) := by
  cases input with
  | source bytes => exact scanText_shares table _
  | builtIn name =>
    refine ⟨builtInIdent_extends table name, fun token member => ?_⟩
    rw [mem_singleton.mp member]
    exact builtInIdent_known table name

theorem runInputs_shares (options : StreamOptions) (table : IdentTable) (inputs : List Input) :
    Shares table (runInputs options table inputs) := by
  induction inputs generalizing table with
  | nil => exact shares_none table
  | cons input inputs ih => exact (input_shares options table input).append (ih _)

def Input.Short : Input → Prop
  | .source bytes => ∀ run ∈ wordRuns (spliceLines (normalize bytes)), run.length < 256
  | .builtIn name => name ≠ [] ∧ name.length < 256 ∧ Char.ofNat 0 ∉ name

theorem readAll_buffer (options : StreamOptions) (bytes : List Char) :
    (readAll options (.ofBuffer startPlace bytes)).chars.map Prod.fst =
      spliceLines (normalize bytes) := by
  have whole : (Stream.ofBuffer startPlace bytes).contents 0 = bytes := append_nil bytes
  rw [readAll_text]
  change (readText options startPlace
    ((Stream.ofBuffer startPlace bytes).contents 0)).chars.map Prod.fst = _
  rw [whole, readText_chars]

theorem input_names (options : StreamOptions) (table : IdentTable) (input : Input)
    (short : input.Short) : (input.run options table).1.map IdentToken.name = input.spellings := by
  cases input with
  | source bytes =>
    change (scanText table _).1.map IdentToken.name = _
    rw [readAll_buffer]
    exact scanText_names table _ short
  | builtIn name => rfl

theorem runInputs_names (options : StreamOptions) (table : IdentTable) (inputs : List Input)
    (short : ∀ input ∈ inputs, input.Short) :
    (runInputs options table inputs).1.map IdentToken.name = inputs.flatMap Input.spellings := by
  induction inputs generalizing table with
  | nil => rfl
  | cons input inputs ih =>
    rw [runInputs, flatMap_cons]
    dsimp only
    rw [map_append, input_names options table input (short input mem_cons_self),
      ih _ fun other member => short other (mem_cons_of_mem input member)]

def ShortName (name : List Char) : Prop := name.length < 256 ∧ Char.ofNat 0 ∉ name

theorem showIdent_known {table : IdentTable} {token : IdentToken} (known : Known table token)
    (short : ShortName token.name) : showIdent table.entries[token.id]? = token.name := by
  obtain ⟨ident, found, same⟩ := InternTable.find_accepts known
  obtain ⟨length, bytes⟩ := Bool.and_eq_true_iff.mp same
  rw [beq_iff_eq, Nat.mod_eq_of_lt short.1] at length
  rw [beq_iff_eq] at bytes
  rw [found]
  unfold showIdent
  dsimp only
  rw [length, ← bytes, takeWhile_eq_self_iff]
  intro c member
  rw [bne_iff_ne]
  rintro rfl
  exact short.2 member

theorem isWord_terminator : isWord (Char.ofNat 0) = false := by decide

/-- The runs of a text are made of word characters. -/
theorem wordRuns_words (text : List Char) : ∀ run ∈ wordRuns text, ∀ c ∈ run, isWord c = true := by
  induction size : text.length using Nat.strongRecOn generalizing text with
  | ind bound ih =>
    rcases text with _ | ⟨c, text⟩
    · rw [wordRuns]
      exact fun run member => absurd member not_mem_nil
    rw [length_cons] at size
    have smaller := (getOneToken_rest c text).length_le
    have shorter := (dropWhile_suffix isWord (l := text)).length_le
    rw [wordRuns]
    split_ifs with space starts
    · exact ih text.length (by omega) text rfl
    · intro run member
      rcases mem_cons.mp member with rfl | later
      · intro d inside
        rcases mem_cons.mp inside with rfl | tail
        · unfold isWord
          rw [starts.1, Bool.true_or]
        · exact mem_takeWhile_imp tail
      · exact ih _ (by omega) _ rfl run later
    · exact ih _ (by omega) _ rfl

theorem spellings_short {input : Input} (short : input.Short) :
    ∀ name ∈ input.spellings, ShortName name := by
  cases input with
  | source bytes =>
    intro run member
    refine ⟨short run member, fun terminator => ?_⟩
    have word := wordRuns_words _ run member _ terminator
    rw [isWord_terminator] at word
    cases word
  | builtIn name =>
    intro other member
    rw [mem_singleton.mp member]
    exact short.2

/-- When no identifier has more than 255 characters, every run becomes one identifier token, tokens
share their identifier exactly when their spellings are equal, and the identifier shows the
spelling. -/
theorem runInputs_idents (options : StreamOptions) (reserved : List (List Char))
    (inputs : List Input) (short : ∀ input ∈ inputs, input.Short) :
    (runInputs options (initSymbols reserved) inputs).1.map IdentToken.name =
        inputs.flatMap Input.spellings ∧
      (∀ token ∈ (runInputs options (initSymbols reserved) inputs).1,
        showIdent (runInputs options (initSymbols reserved) inputs).2.entries[token.id]? =
          token.name) ∧
      ∀ token ∈ (runInputs options (initSymbols reserved) inputs).1,
        ∀ other ∈ (runInputs options (initSymbols reserved) inputs).1,
          token.id = other.id ↔ token.name = other.name := by
  have names := runInputs_names options (initSymbols reserved) inputs short
  have shares := runInputs_shares options (initSymbols reserved) inputs
  have shown : ∀ token ∈ (runInputs options (initSymbols reserved) inputs).1,
      showIdent (runInputs options (initSymbols reserved) inputs).2.entries[token.id]? =
        token.name := by
    intro token member
    have spelled := mem_map_of_mem (f := IdentToken.name) member
    rw [names] at spelled
    obtain ⟨input, inside, name⟩ := mem_flatMap.mp spelled
    exact showIdent_known (shares.known token member)
      (spellings_short (short input inside) token.name name)
  refine ⟨names, shown, fun token member other inside => ⟨?_, ?_⟩⟩
  · intro same
    rw [← shown token member, ← shown other inside, same]
  · intro same
    have one := shares.known token member
    have two := shares.known other inside
    unfold Known at one two
    rw [same, two] at one
    exact (Option.some.inj one).symm

/-- A source text with a reserved word and a name, which is used once more. -/
def sampleInputs : List Input := [.source ['i', 'f', ' ', 'y'], .builtIn ['y']]

theorem wordRuns_sample : wordRuns ['i', 'f', ' ', 'y'] = [['i', 'f'], ['y']] := by
  rw [wordRuns, if_neg (by decide), if_pos (by decide)]
  refine congrArg _ ?_
  change wordRuns [' ', 'y'] = [['y']]
  rw [wordRuns, if_pos (by decide), wordRuns, if_neg (by decide), if_pos (by decide)]
  refine congrArg _ ?_
  change wordRuns [] = []
  rw [wordRuns]

theorem runInputs_sample :
    sampleInputs.flatMap Input.spellings = [['i', 'f'], ['y'], ['y']] ∧
      (runInputs ⟨8, 1⟩ (initSymbols [['i', 'f']]) sampleInputs).1.map IdentToken.name =
          sampleInputs.flatMap Input.spellings ∧
      (∀ token ∈ (runInputs ⟨8, 1⟩ (initSymbols [['i', 'f']]) sampleInputs).1,
        showIdent (runInputs ⟨8, 1⟩ (initSymbols [['i', 'f']]) sampleInputs).2.entries[token.id]? =
          token.name) ∧
      ∀ token ∈ (runInputs ⟨8, 1⟩ (initSymbols [['i', 'f']]) sampleInputs).1,
        ∀ other ∈ (runInputs ⟨8, 1⟩ (initSymbols [['i', 'f']]) sampleInputs).1,
          token.id = other.id ↔ token.name = other.name := by
  have source : (Input.source ['i', 'f', ' ', 'y']).spellings = [['i', 'f'], ['y']] :=
    wordRuns_sample
  refine ⟨congrArg (· ++ [['y']]) source, runInputs_idents ⟨8, 1⟩ [['i', 'f']] sampleInputs ?_⟩
  intro input member
  rcases mem_pair.mp member with rfl | rfl
  · change ∀ run ∈ (Input.source ['i', 'f', ' ', 'y']).spellings, run.length < 256
    rw [source]
    decide
  · exact ⟨by decide, by decide, by decide⟩

def longName : List Char := List.replicate 256 'a'

set_option maxRecDepth 4000 in
/-- The identifier of a name with 256 letters shows nothing. -/
theorem longName_lost :
    (runInputs ⟨8, 1⟩ (initSymbols []) [.source longName]).1 = [⟨longName, 0⟩] ∧
      showIdent (runInputs ⟨8, 1⟩ (initSymbols []) [.source longName]).2.entries[0]? = [] := by
  have text : spliceLines (normalize longName) = 'a' :: List.replicate 255 'a' := by
    decide
  have words : (List.replicate 255 'a').takeWhile isWord = List.replicate 255 'a' := by
    decide
  have rest : (List.replicate 255 'a').dropWhile isWord = [] := by
    decide
  have run : scanText (initSymbols []) ('a' :: List.replicate 255 'a') =
      ([⟨longName, 0⟩], (builtInIdent (initSymbols []) longName).2) := by
    have plain : ¬ startsLiteral ('a' :: (List.replicate 255 'a').takeWhile isWord)
        ((List.replicate 255 'a').dropWhile isWord) := by
      rw [rest]
      exact fun starts => starts.2.elim (fun same => by cases same) fun same => by cases same
    rw [scanText_token _ _ (by decide), scanToken_letter _ _ (by decide),
      scanIdentifier_run _ (by rw [words]; decide) plain, words, rest]
    dsimp only [Scan.rest]
    rw [scanText_nil]
    rfl
  have whole : runInputs ⟨8, 1⟩ (initSymbols []) [.source longName] =
      ([⟨longName, 0⟩], (builtInIdent (initSymbols []) longName).2) := by
    have input : (Input.source longName).run ⟨8, 1⟩ (initSymbols []) =
        ([⟨longName, 0⟩], (builtInIdent (initSymbols []) longName).2) := by
      change scanText (initSymbols []) _ = _
      rw [readAll_buffer, text, run]
    unfold runInputs
    rw [input]
    rfl
  rw [whole]
  exact ⟨rfl, by decide⟩

end SmatchFormal.Tokenizer
