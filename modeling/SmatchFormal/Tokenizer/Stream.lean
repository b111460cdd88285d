import Mathlib.Data.List.TakeWhile
import Mathlib.Tactic.Ring
import Mathlib.Data.Nat.SuccPred

/-!
# The characters of a stream

`nextchar` and `nextchar_slow` read a buffer that `read` fills again when it is used up.  Line ends
may be written in three ways, and a backslash at the end of a line continues it.
-/

namespace SmatchFormal.Tokenizer

open List

/-! ## Streams -/

structure StreamOptions where
  tabstop : Nat
  newlineEof : Nat

structure Chunk where
  bytes : List Char
  nonempty : bytes ≠ []

structure Place where
  line : Nat
  pos : Nat
  newline : Bool
  deriving DecidableEq, Repr

/-- A stream with the `size` bytes of its buffer.  Without a file descriptor nothing is read. -/
structure Stream where
  place : Place
  buffer : List Char
  offset : Nat
  unread : Option (List Chunk)

def Stream.contents (stream : Stream) (offset : Nat) : List Char :=
  stream.buffer.drop offset ++ (stream.unread.getD []).flatMap Chunk.bytes

/-- The next byte, the stream that holds it and the offset behind it. -/
def fetch (stream : Stream) (offset : Nat) : Option (Char × Stream × Nat) :=
  match stream.buffer[offset]? with
  | some c => some (c, stream, offset + 1)
  | none =>
    match stream.unread with
    | some (chunk :: unread) =>
      some (chunk.bytes.head chunk.nonempty,
        { stream with buffer := chunk.bytes, offset := 0, unread := some unread }, 1)
    | some [] => none
    | none => none

theorem fetch_none {stream : Stream} {offset : Nat} (found : fetch stream offset = none) :
    stream.contents offset = [] := by
  unfold fetch at found
  unfold Stream.contents
  cases byte : stream.buffer[offset]? with
  | some c =>
    rw [byte] at found
    cases found
  | none =>
    rw [byte] at found
    rw [drop_eq_nil_iff.mpr (List.getElem?_eq_none_iff.mp byte)]
    rcases unread : stream.unread with _ | _ | ⟨chunk, chunks⟩
    · rfl
    · rfl
    · rw [unread] at found
      cases found

/-- A byte can be put back, because it is in the buffer. -/
theorem fetch_some {stream stream' : Stream} {offset offset' : Nat} {c : Char}
    (found : fetch stream offset = some (c, stream', offset')) :
    stream.contents offset = c :: stream'.contents offset' ∧
      stream'.contents (offset' - 1) = c :: stream'.contents offset' ∧
      stream'.place = stream.place := by
  unfold fetch at found
  cases byte : stream.buffer[offset]? with
  | some d =>
    rw [byte] at found
    cases found
    obtain ⟨inside, same⟩ := List.getElem?_eq_some_iff.mp byte
    have whole : stream.contents offset = c :: stream.contents (offset + 1) := by
      unfold Stream.contents
      rw [drop_eq_getElem_cons inside, same]
      rfl
    exact ⟨whole, whole, rfl⟩
  | none =>
    rw [byte] at found
    rcases unread : stream.unread with _ | _ | ⟨chunk, chunks⟩
    · rw [unread] at found
      cases found
    · rw [unread] at found
      cases found
    · rw [unread] at found
      cases found
      obtain ⟨bytes, nonempty⟩ := chunk
      cases bytes with
      | nil => exact absurd rfl nonempty
      | cons c rest =>
        refine ⟨?_, rfl, rfl⟩
        unfold Stream.contents
        rw [drop_eq_nil_iff.mpr (List.getElem?_eq_none_iff.mp byte), unread]
        rfl

/-! ## The slow path -/

structure Next where
  char : Option Char
  stream : Stream
  warning : Option String

/-- `stream->line++` with the column and the flag of a new line. -/
def Place.lineFeed (place : Place) : Place := ⟨place.line + 1, 0, true⟩

def Place.splice (place : Place) : Place := { place with line := place.line + 1, pos := 0 }

def Place.step (place : Place) : Place := { place with pos := place.pos + 1 }

def Place.tab (options : StreamOptions) (place : Place) : Place :=
  { place with pos := place.pos + (options.tabstop - place.pos % options.tabstop) }

def eofWarning (options : StreamOptions) (place : Place) (spliced : Bool) : Option String :=
  if place.pos &&& options.newlineEof ≠ 0 then some "no newline at end of file"
  else if spliced then some "backslash-newline at end of file"
  else none

def gotEof (options : StreamOptions) (stream : Stream) (offset : Nat)
    (spliced hadBackslash : Bool) : Next :=
  if hadBackslash then ⟨some '\\', { stream with offset := offset }, none⟩
  else ⟨none, stream, eofWarning options stream.place spliced⟩

/-- Where the code behind the label `norm` goes: to `out`, perhaps with the byte put back, to
`restart` or to `repeat`. -/
inductive Norm
  | out (c : Char) (place : Place) (back : Nat)
  | restart (place : Place)
  | backslash (place : Place)

def norm (options : StreamOptions) (place : Place) (hadBackslash : Bool) (c : Char) : Norm :=
  if hadBackslash then
    if c = '\n' then .restart place.splice else .out '\\' place 1
  else if c = '\t' then .out c (place.tab options) 0
  else if c = '\n' then .out c place.lineFeed 0
  else if c = '\\' then .backslash place.step
  else .out c place.step 0

/-- The byte behind the label `check_lf`, or the one that was read. -/
def checkLf (hadCr : Bool) (c : Char) (offset : Nat) : Char × Nat :=
  if hadCr then ('\n', if c = '\n' then offset else offset - 1) else (c, offset)

def Stream.moved (stream : Stream) (place : Place) (offset : Nat) : Stream :=
  { stream with place := place, offset := offset }

/-- The byte to go on with and the offset behind it leave no more than before. -/
theorem checkLf_length {stream stream' : Stream} {offset offset' : Nat} {c : Char}
    (found : fetch stream offset = some (c, stream', offset')) (hadCr : Bool) :
    2 * (stream'.contents (checkLf hadCr c offset').2).length <
      2 * (stream.contents offset).length + hadCr.toNat := by
  obtain ⟨whole, back, -⟩ := fetch_some found
  have one := congrArg List.length whole
  have two := congrArg List.length back
  rw [length_cons] at one two
  cases hadCr with
  | false =>
    change 2 * (stream'.contents offset').length < 2 * (stream.contents offset).length + 0
    omega
  | true =>
    change 2 * (stream'.contents (if c = '\n' then offset' else offset' - 1)).length <
      2 * (stream.contents offset).length + 1
    split_ifs <;> omega

def slowLoop (options : StreamOptions) (stream : Stream) (offset : Nat)
    (spliced hadCr hadBackslash : Bool) : Next :=
  match _found : fetch stream offset with
  | none => gotEof options stream offset spliced hadBackslash
  | some (c, stream', offset') =>
    if hadCr = false ∧ c = '\r' then
      slowLoop options stream' offset' spliced true hadBackslash
    else
      match norm options stream'.place hadBackslash (checkLf hadCr c offset').1 with
      | .out d place back =>
        ⟨some d, stream'.moved place ((checkLf hadCr c offset').2 - back), none⟩
      | .restart place =>
        slowLoop options { stream' with place := place } (checkLf hadCr c offset').2 true false
          false
      | .backslash place =>
        slowLoop options { stream' with place := place } (checkLf hadCr c offset').2 spliced
          false true
termination_by 2 * (stream.contents offset).length + hadCr.toNat
decreasing_by
  · rename_i carriage
    obtain ⟨whole, -, -⟩ := fetch_some _found
    rw [whole, carriage.1, length_cons]
    change 2 * _ + 1 < 2 * (_ + 1) + 0
    omega
  · exact checkLf_length _found hadCr
  · exact checkLf_length _found hadCr

def nextcharSlow (options : StreamOptions) (stream : Stream) : Next :=
  slowLoop options stream stream.offset false false false

def special : List Char := ['\t', '\r', '\n', '\\']

def nextchar (options : StreamOptions) (stream : Stream) : Next :=
  match stream.buffer[stream.offset]? with
  | some c =>
    if c ∈ special then nextcharSlow options stream
    else ⟨some c, stream.moved stream.place.step (stream.offset + 1), none⟩
  | none => nextcharSlow options stream

/-! ## The characters of a text -/

/-- A line feed in one of its three spellings, when something follows a carriage return. -/
def takeNewline : List Char → Option (List Char)
  | '\n' :: rest => some rest
  | '\r' :: '\n' :: rest => some rest
  | '\r' :: c :: rest => some (c :: rest)
  | _ => none

theorem takeNewline_length {text rest : List Char} (found : takeNewline text = some rest) :
    rest.length < text.length := by
  unfold takeNewline at found
  split at found <;> cases found <;> simp

structure TextNext where
  char : Option Char
  place : Place
  rest : List Char
  warning : Option String

def nextText (options : StreamOptions) (place : Place) (spliced : Bool) (text : List Char) :
    TextNext :=
  match takeNewline text with
  | some rest => ⟨some '\n', place.lineFeed, rest, none⟩
  | none =>
    match text with
    | [] => ⟨none, place, [], eofWarning options place spliced⟩
    | c :: rest =>
      if c = '\r' then ⟨none, place, [], eofWarning options place spliced⟩
      else if c = '\\' then
        match _found : takeNewline rest with
        | some rest' => nextText options place.splice true rest'
        | none => ⟨some '\\', place.step, if rest = ['\r'] then [] else rest, none⟩
      else if c = '\t' then ⟨some '\t', place.tab options, rest, none⟩
      else ⟨some c, place.step, rest, none⟩
termination_by text.length
decreasing_by
  exact Nat.lt_succ_of_lt (takeNewline_length _found)

theorem takeNewline_cr (c : Char) (rest : List Char) :
    takeNewline ('\r' :: c :: rest) = some (if c = '\n' then rest else c :: rest) := by
  by_cases feed : c = '\n'
  · rw [feed]
    rfl
  · rw [if_neg feed]
    unfold takeNewline
    split
    · rename_i same
      cases same
    · rename_i same
      cases same
      exact absurd rfl feed
    · rename_i same
      cases same
      rfl
    · rename_i none
      exact absurd rfl (none c rest)

theorem takeNewline_other {c : Char} (rest : List Char) (feed : c ≠ '\n') (carriage : c ≠ '\r') :
    takeNewline (c :: rest) = none := by
  unfold takeNewline
  split
  · rename_i same
    cases same
    exact absurd rfl feed
  · rename_i same
    cases same
    exact absurd rfl carriage
  · rename_i same
    cases same
    exact absurd rfl carriage
  · rfl

section Text

variable (options : StreamOptions) (place : Place) (spliced : Bool) {rest : List Char}

theorem nextText_newline {text : List Char} (found : takeNewline text = some rest) :
    nextText options place spliced text = ⟨some '\n', place.lineFeed, rest, none⟩ := by
  unfold nextText
  rw [found]

theorem nextText_nil :
    nextText options place spliced [] = ⟨none, place, [], eofWarning options place spliced⟩ := by
  unfold nextText
  rfl

theorem nextText_return :
    nextText options place spliced ['\r'] =
      ⟨none, place, [], eofWarning options place spliced⟩ := by
  unfold nextText
  rfl

theorem nextText_splice {rest' : List Char} (found : takeNewline rest = some rest') :
    nextText options place spliced ('\\' :: rest) = nextText options place.splice true rest' := by
  rw [nextText, takeNewline_other rest (by decide) (by decide)]
  dsimp only
  rw [if_neg (by decide), if_pos rfl]
  split
  · rename_i same
    rw [found] at same
    rw [Option.some.inj same]
  · rename_i same
    rw [found] at same
    cases same

theorem nextText_backslash (found : takeNewline rest = none) :
    nextText options place spliced ('\\' :: rest) =
      ⟨some '\\', place.step, if rest = ['\r'] then [] else rest, none⟩ := by
  rw [nextText, takeNewline_other rest (by decide) (by decide)]
  dsimp only
  rw [if_neg (by decide), if_pos rfl]
  split
  · rename_i same
    rw [found] at same
    cases same
  · rfl

theorem nextText_tab :
    nextText options place spliced ('\t' :: rest) =
      ⟨some '\t', place.tab options, rest, none⟩ := by
  rw [nextText, takeNewline_other rest (by decide) (by decide)]
  dsimp only
  rw [if_neg (by decide), if_neg (by decide), if_pos rfl]

theorem nextText_plain {c : Char} (plain : c ∉ special) :
    nextText options place spliced (c :: rest) = ⟨some c, place.step, rest, none⟩ := by
  simp only [special, mem_cons, not_mem_nil, or_false, not_or] at plain
  obtain ⟨tab, carriage, feed, backslash⟩ := plain
  rw [nextText, takeNewline_other rest feed carriage]
  dsimp only
  rw [if_neg carriage, if_neg backslash, if_neg tab]

end Text

section Loop

variable {options : StreamOptions} {stream stream' : Stream} {offset offset' : Nat} {c : Char}
  {spliced hadCr hadBackslash : Bool}

theorem slowLoop_none (found : fetch stream offset = none) :
    slowLoop options stream offset spliced hadCr hadBackslash =
      gotEof options stream offset spliced hadBackslash := by
  rw [slowLoop]
  split
  · rfl
  · rename_i same
    rw [found] at same
    cases same

variable (found : fetch stream offset = some (c, stream', offset'))
include found

theorem slowLoop_cr (none : hadCr = false) (carriage : c = '\r') :
    slowLoop options stream offset spliced hadCr hadBackslash =
      slowLoop options stream' offset' spliced true hadBackslash := by
  rw [slowLoop]
  split
  · rename_i same
    rw [found] at same
    cases same
  · rename_i same
    rw [found] at same
    cases same
    rw [if_pos ⟨none, carriage⟩]

variable (plain : ¬ (hadCr = false ∧ c = '\r'))
include plain

theorem slowLoop_out {d : Char} {place : Place} {back : Nat}
    (goes : norm options stream'.place hadBackslash (checkLf hadCr c offset').1 =
      .out d place back) :
    slowLoop options stream offset spliced hadCr hadBackslash =
      ⟨some d, stream'.moved place ((checkLf hadCr c offset').2 - back), none⟩ := by
  rw [slowLoop]
  split
  · rename_i same
    rw [found] at same
    cases same
  · rename_i same
    rw [found] at same
    cases same
    rw [if_neg plain, goes]

theorem slowLoop_restart {place : Place}
    (goes : norm options stream'.place hadBackslash (checkLf hadCr c offset').1 =
      .restart place) :
    slowLoop options stream offset spliced hadCr hadBackslash =
      slowLoop options { stream' with place := place } (checkLf hadCr c offset').2 true false
        false := by
  rw [slowLoop]
  split
  · rename_i same
    rw [found] at same
    cases same
  · rename_i same
    rw [found] at same
    cases same
    rw [if_neg plain, goes]

theorem slowLoop_backslash {place : Place}
    (goes : norm options stream'.place hadBackslash (checkLf hadCr c offset').1 =
      .backslash place) :
    slowLoop options stream offset spliced hadCr hadBackslash =
      slowLoop options { stream' with place := place } (checkLf hadCr c offset').2 spliced false
        true := by
  rw [slowLoop]
  split
  · rename_i same
    rw [found] at same
    cases same
  · rename_i same
    rw [found] at same
    cases same
    rw [if_neg plain, goes]

end Loop

structure Agrees (next : Next) (text : TextNext) : Prop where
  char : next.char = text.char
  place : next.stream.place = text.place
  warning : next.warning = text.warning
  rest : next.char.isSome = true → next.stream.contents next.stream.offset = text.rest

def pending (hadBackslash hadCr : Bool) : List Char :=
  (if hadBackslash then ['\\'] else []) ++ (if hadCr then ['\r'] else [])

theorem gotEof_text (options : StreamOptions) {stream : Stream} {offset : Nat} {place : Place}
    (spliced hadCr hadBackslash : Bool) (none : stream.contents offset = [])
    (counted : stream.place = if hadBackslash then place.step else place) :
    Agrees (gotEof options stream offset spliced hadBackslash)
      (nextText options place spliced (pending hadBackslash hadCr ++ stream.contents offset)) := by
  rw [none, append_nil]
  cases hadBackslash with
  | false =>
    rw [if_neg Bool.false_ne_true] at counted
    cases hadCr with
    | false =>
      change Agrees _ (nextText options place spliced [])
      rw [nextText_nil, ← counted]
      exact ⟨rfl, rfl, rfl, fun some => by cases some⟩
    | true =>
      change Agrees _ (nextText options place spliced ['\r'])
      rw [nextText_return, ← counted]
      exact ⟨rfl, rfl, rfl, fun some => by cases some⟩
  | true =>
    rw [if_pos rfl] at counted
    cases hadCr with
    | false =>
      change Agrees _ (nextText options place spliced ['\\'])
      rw [nextText_backslash options place spliced rfl]
      exact ⟨rfl, counted, rfl, fun _ => none⟩
    | true =>
      change Agrees _ (nextText options place spliced ['\\', '\r'])
      rw [nextText_backslash options place spliced rfl]
      exact ⟨rfl, counted, rfl, fun _ => none⟩

/-- What is left when a carriage return was seen. -/
theorem checkLf_contents {stream stream' : Stream} {offset offset' : Nat} {c : Char}
    (found : fetch stream offset = some (c, stream', offset')) :
    stream'.contents (checkLf true c offset').2 =
      if c = '\n' then stream'.contents offset' else c :: stream'.contents offset' := by
  obtain ⟨-, back, -⟩ := fetch_some found
  unfold checkLf
  rw [if_pos rfl]
  by_cases feed : c = '\n'
  · rw [if_pos feed, if_pos feed]
  · rw [if_neg feed, if_neg feed, back]

section Refines

variable {options : StreamOptions} {stream stream' : Stream} {offset offset' : Nat} {c : Char}
  {place : Place} {spliced : Bool}

section

variable (found : fetch stream offset = some (c, stream', offset'))
include found

/-- The character behind a byte that is no carriage return. -/
theorem slowLoop_plain (counted : stream.place = place) (carriage : c ≠ '\r')
    (behind : c = '\\' → Agrees
      (slowLoop options { stream' with place := place.step } offset' spliced false true)
      (nextText options place spliced ('\\' :: stream'.contents offset'))) :
    Agrees (slowLoop options stream offset spliced false false)
      (nextText options place spliced (stream.contents offset)) := by
  obtain ⟨whole, -, placed⟩ := fetch_some found
  have plain : ¬ (false = false ∧ c = '\r') := fun both => carriage both.2
  rw [whole]
  rw [counted] at placed
  by_cases tab : c = '\t'
  · have goes : norm options stream'.place false (checkLf false c offset').1 =
        .out c (place.tab options) 0 := by
      rw [placed, tab]
      rfl
    rw [slowLoop_out found plain goes, tab, nextText_tab]
    exact ⟨rfl, rfl, rfl, fun _ => rfl⟩
  by_cases feed : c = '\n'
  · have goes : norm options stream'.place false (checkLf false c offset').1 =
        .out c place.lineFeed 0 := by
      rw [placed, feed]
      rfl
    rw [slowLoop_out found plain goes, feed, nextText_newline options place spliced rfl]
    exact ⟨rfl, rfl, rfl, fun _ => rfl⟩
  by_cases backslash : c = '\\'
  · have goes : norm options stream'.place false (checkLf false c offset').1 =
        .backslash place.step := by
      rw [placed, backslash]
      rfl
    rw [slowLoop_backslash found plain goes, backslash]
    exact behind backslash
  · have goes : norm options stream'.place false (checkLf false c offset').1 =
        .out c place.step 0 := by
      have other : norm options place false c =
          if c = '\t' then .out c (place.tab options) 0
          else if c = '\n' then .out c place.lineFeed 0
          else if c = '\\' then .backslash place.step
          else .out c place.step 0 := rfl
      rw [placed]
      exact other.trans ((if_neg tab).trans ((if_neg feed).trans (if_neg backslash)))
    have ordinary : c ∉ special := by
      simp [special, tab, carriage, feed, backslash]
    rw [slowLoop_out found plain goes, nextText_plain options place spliced ordinary]
    exact ⟨rfl, rfl, rfl, fun _ => rfl⟩

theorem slowLoop_escaped (counted : stream.place = place.step) (carriage : c ≠ '\r')
    (restarts : Agrees
      (slowLoop options { stream' with place := place.splice } offset' true false false)
      (nextText options place.splice true (stream'.contents offset'))) :
    Agrees (slowLoop options stream offset spliced false true)
      (nextText options place spliced ('\\' :: stream.contents offset)) := by
  obtain ⟨whole, back, placed⟩ := fetch_some found
  have plain : ¬ (false = false ∧ c = '\r') := fun both => carriage both.2
  rw [whole]
  rw [counted] at placed
  by_cases feed : c = '\n'
  · have goes : norm options stream'.place true (checkLf false c offset').1 =
        .restart place.splice := by
      rw [placed, feed]
      rfl
    rw [slowLoop_restart found plain goes, feed, nextText_splice options place spliced rfl]
    exact restarts
  · have goes : norm options stream'.place true (checkLf false c offset').1 =
        .out '\\' place.step 1 := by
      rw [placed]
      exact if_neg feed
    have alone : ¬ c :: stream'.contents offset' = ['\r'] := fun same =>
      carriage (List.cons.inj same).1
    rw [slowLoop_out found plain goes,
      nextText_backslash options place spliced (takeNewline_other _ feed carriage), if_neg alone]
    exact ⟨rfl, rfl, rfl, fun _ => back⟩

theorem slowLoop_return (counted : stream.place = place) :
    Agrees (slowLoop options stream offset spliced true false)
      (nextText options place spliced ('\r' :: stream.contents offset)) := by
  obtain ⟨whole, -, placed⟩ := fetch_some found
  have plain : ¬ (true = false ∧ c = '\r') := fun both => Bool.false_ne_true both.1.symm
  have goes : norm options stream'.place false (checkLf true c offset').1 =
      .out '\n' place.lineFeed 0 := by
    rw [placed, counted]
    rfl
  rw [slowLoop_out found plain goes, whole,
    nextText_newline options place spliced (takeNewline_cr c _)]
  have left := checkLf_contents found
  exact ⟨rfl, rfl, rfl, fun _ => left⟩

theorem slowLoop_both (counted : stream.place = place.step)
    (restarts : Agrees
      (slowLoop options { stream' with place := place.splice } (checkLf true c offset').2 true false
        false)
      (nextText options place.splice true (stream'.contents (checkLf true c offset').2))) :
    Agrees (slowLoop options stream offset spliced true true)
      (nextText options place spliced ('\\' :: '\r' :: stream.contents offset)) := by
  obtain ⟨whole, -, placed⟩ := fetch_some found
  have plain : ¬ (true = false ∧ c = '\r') := fun both => Bool.false_ne_true both.1.symm
  have goes : norm options stream'.place true (checkLf true c offset').1 =
      .restart place.splice := by
    rw [placed, counted]
    rfl
  rw [slowLoop_restart found plain goes, whole,
    nextText_splice options place spliced (takeNewline_cr c _), ← checkLf_contents found]
  exact restarts

end

end Refines

/-- The loop returns the next character of the bytes that are left, with those that its flags stand
for in front of them. -/
theorem slowLoop_text (options : StreamOptions) (stream : Stream) (offset : Nat) (place : Place)
    (spliced hadCr hadBackslash : Bool)
    (counted : stream.place = if hadBackslash then place.step else place) :
    Agrees (slowLoop options stream offset spliced hadCr hadBackslash)
      (nextText options place spliced (pending hadBackslash hadCr ++ stream.contents offset)) := by
  -- every round takes a byte, or puts one back and drops the carriage return
  induction size : 2 * (stream.contents offset).length + hadCr.toNat using Nat.strongRecOn
    generalizing stream offset place spliced hadCr hadBackslash with
  | ind bound ih =>
    cases found : fetch stream offset with
    | none =>
      rw [slowLoop_none found]
      exact gotEof_text options spliced hadCr hadBackslash (fetch_none found) counted
    | some fetched =>
      obtain ⟨c, stream', offset'⟩ := fetched
      obtain ⟨whole, -, placed⟩ := fetch_some found
      have less := checkLf_length found hadCr
      rw [size] at less
      cases hadCr with
      | true =>
        cases hadBackslash with
        | true =>
          exact slowLoop_both found counted
            (ih _ less { stream' with place := place.splice } _ _ _ false false rfl rfl)
        | false => exact slowLoop_return found counted
      | false =>
        by_cases carriage : c = '\r'
        · rw [slowLoop_cr found rfl carriage]
          have shorter : 2 * (stream'.contents offset').length + 1 < bound := by
            rw [← size, whole, length_cons]
            change _ < 2 * (_ + 1) + 0
            omega
          have inner := ih _ shorter stream' offset' place spliced true hadBackslash
            (placed.trans counted) rfl
          rw [whole, carriage]
          cases hadBackslash <;> exact inner
        · cases hadBackslash with
          | true =>
            exact slowLoop_escaped found counted carriage
              (ih _ less { stream' with place := place.splice } _ _ _ false false rfl rfl)
          | false =>
            refine slowLoop_plain found counted carriage fun _ => ?_
            exact ih _ less { stream' with place := place.step } _ place _ false true rfl rfl

/-- The fast path returns what the slow one would. -/
theorem nextchar_text (options : StreamOptions) (stream : Stream) :
    Agrees (nextchar options stream)
      (nextText options stream.place false (stream.contents stream.offset)) := by
  have slow := slowLoop_text options stream stream.offset stream.place false false false rfl
  unfold nextchar
  cases byte : stream.buffer[stream.offset]? with
  | none => exact slow
  | some c =>
    dsimp only
    by_cases marked : c ∈ special
    · rw [if_pos marked]
      exact slow
    · obtain ⟨inside, same⟩ := List.getElem?_eq_some_iff.mp byte
      have whole : stream.contents stream.offset = c :: stream.contents (stream.offset + 1) := by
        unfold Stream.contents
        rw [drop_eq_getElem_cons inside, same]
        rfl
      rw [if_neg marked, whole, nextText_plain options stream.place false marked]
      exact ⟨rfl, rfl, rfl, fun _ => rfl⟩

/-! ## Line ends and continued lines -/

/-- Every line end as a line feed.  A carriage return that is the last byte is dropped. -/
def normalize : List Char → List Char
  | [] => []
  | ['\r'] => []
  | '\r' :: '\n' :: rest => '\n' :: normalize rest
  | '\r' :: c :: rest => '\n' :: normalize (c :: rest)
  | c :: rest => c :: normalize rest

/-- The text without the line ends that a backslash takes away. -/
def spliceLines : List Char → List Char
  | '\\' :: '\n' :: rest => spliceLines rest
  | c :: rest => c :: spliceLines rest
  | [] => []

theorem normalize_cr (c : Char) (rest : List Char) :
    normalize ('\r' :: c :: rest) = '\n' :: normalize (if c = '\n' then rest else c :: rest) := by
  by_cases feed : c = '\n'
  · rw [feed]
    rfl
  · rw [if_neg feed, normalize]
    exact feed

theorem normalize_cons {c : Char} (rest : List Char) (carriage : c ≠ '\r') :
    normalize (c :: rest) = c :: normalize rest := by
  rw [normalize]
  · exact fun same _ => carriage same
  · exact fun _ same _ => carriage same
  · exact fun _ _ same _ => carriage same

theorem normalize_newline {text rest : List Char} (found : takeNewline text = some rest) :
    normalize text = '\n' :: normalize rest := by
  rcases text with _ | ⟨c, _ | ⟨d, tail⟩⟩
  · cases found
  · by_cases feed : c = '\n'
    · rw [feed] at found ⊢
      cases found
      rfl
    · by_cases carriage : c = '\r'
      · rw [carriage] at found
        cases found
      · rw [takeNewline_other _ feed carriage] at found
        cases found
  · by_cases feed : c = '\n'
    · rw [feed] at found ⊢
      cases found
      exact normalize_cons _ (by decide)
    · by_cases carriage : c = '\r'
      · rw [carriage, takeNewline_cr] at found
        rw [carriage, normalize_cr, Option.some.inj found]
      · rw [takeNewline_other _ feed carriage] at found
        cases found

/-- Without a line end in front there is none in the normal text. -/
theorem normalize_head {text : List Char} (none : takeNewline text = none) :
    (normalize text).head? ≠ some '\n' := by
  rcases text with _ | ⟨c, rest⟩
  · exact fun same => by cases same
  · by_cases carriage : c = '\r'
    · rcases rest with _ | ⟨d, tail⟩
      · rw [carriage]
        exact fun same => by cases same
      · rw [carriage, takeNewline_cr] at none
        cases none
    · rw [normalize_cons rest carriage]
      intro feed
      rw [Option.some.inj feed] at none
      cases none

theorem spliceLines_cons {c : Char} {rest : List Char}
    (kept : ¬ (c = '\\' ∧ rest.head? = some '\n')) :
    spliceLines (c :: rest) = c :: spliceLines rest := by
  rw [spliceLines]
  rintro tail same rfl
  exact kept ⟨same, rfl⟩

inductive Start : List Char → Prop
  | newline {text rest : List Char} (found : takeNewline text = some rest) : Start text
  | nil : Start []
  | carriage : Start ['\r']
  | splice {rest rest' : List Char} (found : takeNewline rest = some rest') (inner : Start rest') :
      Start ('\\' :: rest)
  | backslash {rest : List Char} (none : takeNewline rest = none) : Start ('\\' :: rest)
  | tab {rest : List Char} : Start ('\t' :: rest)
  | plain {c : Char} {rest : List Char} (ordinary : c ∉ special) : Start (c :: rest)

theorem start_of (text : List Char) : Start text := by
  induction size : text.length using Nat.strongRecOn generalizing text with
  | ind bound ih =>
    cases newline : takeNewline text with
    | some rest => exact .newline newline
    | none =>
      rcases text with _ | ⟨c, rest⟩
      · exact .nil
      rw [length_cons] at size
      by_cases carriage : c = '\r'
      · rw [carriage] at newline ⊢
        rcases rest with _ | ⟨d, tail⟩
        · exact .carriage
        · rw [takeNewline_cr] at newline
          cases newline
      by_cases backslash : c = '\\'
      · rw [backslash]
        cases behind : takeNewline rest with
        | some rest' =>
          have shorter := takeNewline_length behind
          exact .splice behind (ih rest'.length (by omega) rest' rfl)
        | none => exact .backslash behind
      by_cases tab : c = '\t'
      · rw [tab]
        exact .tab
      · have feed : c ≠ '\n' := by
          rintro rfl
          cases newline
        exact .plain (by simp [special, tab, carriage, feed, backslash])

section

variable (options : StreamOptions) (place : Place) (spliced : Bool) (text : List Char)
include options place spliced text

/-- The next character is the first one of the spliced text. -/
theorem nextText_chars :
    spliceLines (normalize text) = (nextText options place spliced text).char.toList ++
      spliceLines (normalize (nextText options place spliced text).rest) := by
  induction start_of text generalizing place spliced with
  | newline found =>
    rw [nextText_newline options place spliced found, normalize_newline found,
      spliceLines_cons fun both => absurd both.1 (by decide)]
    rfl
  | nil =>
    rw [nextText_nil]
    rfl
  | carriage =>
    rw [nextText_return]
    rfl
  | splice found inner ih =>
    rw [nextText_splice options place spliced found, normalize_cons _ (by decide),
      normalize_newline found]
    exact ih place.splice true
  | @backslash rest none =>
    rw [nextText_backslash options place spliced none, normalize_cons _ (by decide),
      spliceLines_cons fun both => normalize_head none both.2]
    by_cases last : rest = ['\r']
    · rw [if_pos last, last]
      rfl
    · rw [if_neg last]
      rfl
  | tab =>
    rw [nextText_tab, normalize_cons _ (by decide),
      spliceLines_cons fun both => absurd both.1 (by decide)]
    rfl
  | plain ordinary =>
    rw [nextText_plain options place spliced ordinary]
    simp only [special, mem_cons, not_mem_nil, or_false, not_or] at ordinary
    rw [normalize_cons _ ordinary.2.1, spliceLines_cons fun both => ordinary.2.2.2 both.1]
    rfl

theorem nextText_length (some : (nextText options place spliced text).char.isSome = true) :
    (nextText options place spliced text).rest.length < text.length := by
  induction start_of text generalizing place spliced with
  | newline found =>
    rw [nextText_newline options place spliced found]
    exact takeNewline_length found
  | nil =>
    rw [nextText_nil] at some
    cases some
  | carriage =>
    rw [nextText_return] at some
    cases some
  | splice found inner ih =>
    rw [nextText_splice options place spliced found] at some ⊢
    exact Nat.lt_trans (ih place.splice true some) (Nat.lt_succ_of_lt (takeNewline_length found))
  | @backslash rest none =>
    rw [nextText_backslash options place spliced none]
    by_cases last : rest = ['\r']
    · rw [if_pos last]
      exact Nat.succ_pos _
    · rw [if_neg last]
      exact Nat.lt_succ_self _
  | tab =>
    rw [nextText_tab]
    exact Nat.lt_succ_self _
  | plain ordinary =>
    rw [nextText_plain options place spliced ordinary]
    exact Nat.lt_succ_self _

/-- At the end the whole text is used up. -/
theorem nextText_end (none : (nextText options place spliced text).char = none) :
    (nextText options place spliced text).rest = [] := by
  induction start_of text generalizing place spliced with
  | newline found =>
    rw [nextText_newline options place spliced found] at none
    cases none
  | nil => rw [nextText_nil]
  | carriage => rw [nextText_return]
  | splice found inner ih =>
    rw [nextText_splice options place spliced found] at none ⊢
    exact ih place.splice true none
  | backslash behind =>
    rw [nextText_backslash options place spliced behind] at none
    cases none
  | tab =>
    rw [nextText_tab] at none
    cases none
  | plain ordinary =>
    rw [nextText_plain options place spliced ordinary] at none
    cases none

end

/-! ## Reading to the end -/

/-- The characters up to the end, with the place after each, and what the call at the end leaves. -/
structure Reading where
  chars : List (Char × Place)
  final : Place
  warning : Option String

theorem nextchar_length (options : StreamOptions) (stream : Stream) {c : Char}
    (found : (nextchar options stream).char = some c) :
    ((nextchar options stream).stream.contents (nextchar options stream).stream.offset).length <
      (stream.contents stream.offset).length := by
  have agrees := nextchar_text options stream
  have some : (nextchar options stream).char.isSome = true := by
    rw [found]
    rfl
  rw [agrees.rest some]
  rw [agrees.char] at some
  exact nextText_length options stream.place false _ some

def readAll (options : StreamOptions) (stream : Stream) : Reading :=
  match _found : (nextchar options stream).char with
  | none => ⟨[], (nextchar options stream).stream.place, (nextchar options stream).warning⟩
  | some c =>
    let reading := readAll options (nextchar options stream).stream
    ⟨(c, (nextchar options stream).stream.place) :: reading.chars, reading.final,
      reading.warning⟩
termination_by (stream.contents stream.offset).length
decreasing_by
  exact nextchar_length options stream _found

def readText (options : StreamOptions) (place : Place) (text : List Char) : Reading :=
  match _found : (nextText options place false text).char with
  | none =>
    ⟨[], (nextText options place false text).place, (nextText options place false text).warning⟩
  | some c =>
    let reading := readText options (nextText options place false text).place
      (nextText options place false text).rest
    ⟨(c, (nextText options place false text).place) :: reading.chars, reading.final,
      reading.warning⟩
termination_by text.length
decreasing_by
  exact nextText_length options place false text (Option.isSome_iff_exists.mpr ⟨c, _found⟩)

theorem readAll_end {options : StreamOptions} {stream : Stream}
    (found : (nextchar options stream).char = none) :
    readAll options stream =
      ⟨[], (nextchar options stream).stream.place, (nextchar options stream).warning⟩ := by
  rw [readAll]
  split
  · rfl
  · rename_i same
    rw [found] at same
    cases same

theorem readAll_char {options : StreamOptions} {stream : Stream} {c : Char}
    (found : (nextchar options stream).char = some c) :
    readAll options stream =
      ⟨(c, (nextchar options stream).stream.place) ::
          (readAll options (nextchar options stream).stream).chars,
        (readAll options (nextchar options stream).stream).final,
        (readAll options (nextchar options stream).stream).warning⟩ := by
  rw [readAll]
  split
  · rename_i same
    rw [found] at same
    cases same
  · rename_i same
    rw [found] at same
    cases same
    rfl

theorem readText_end {options : StreamOptions} {place : Place} {text : List Char}
    (found : (nextText options place false text).char = none) :
    readText options place text = ⟨[], (nextText options place false text).place,
      (nextText options place false text).warning⟩ := by
  rw [readText]
  split
  · rfl
  · rename_i same
    rw [found] at same
    cases same

theorem readText_char {options : StreamOptions} {place : Place} {text : List Char} {c : Char}
    (found : (nextText options place false text).char = some c) :
    readText options place text =
      ⟨(c, (nextText options place false text).place) ::
          (readText options (nextText options place false text).place
            (nextText options place false text).rest).chars,
        (readText options (nextText options place false text).place
          (nextText options place false text).rest).final,
        (readText options (nextText options place false text).place
          (nextText options place false text).rest).warning⟩ := by
  rw [readText]
  split
  · rename_i same
    rw [found] at same
    cases same
  · rename_i same
    rw [found] at same
    cases same
    rfl

/-- Reading depends on the bytes that are left only. -/
theorem readAll_text (options : StreamOptions) (stream : Stream) :
    readAll options stream = readText options stream.place (stream.contents stream.offset) := by
  induction size : (stream.contents stream.offset).length using Nat.strongRecOn
    generalizing stream with
  | ind bound ih =>
    have agrees := nextchar_text options stream
    cases found : (nextchar options stream).char with
    | none =>
      rw [readAll_end found, readText_end (agrees.char.symm.trans found), agrees.place,
        agrees.warning]
    | some c =>
      have left := agrees.rest (Option.isSome_iff_exists.mpr ⟨c, found⟩)
      have inner := ih _ (size ▸ nextchar_length options stream found) _ rfl
      rw [agrees.place, left] at inner
      rw [readAll_char found, readText_char (agrees.char.symm.trans found), inner, agrees.place]

theorem readText_chars (options : StreamOptions) (place : Place) (text : List Char) :
    (readText options place text).chars.map Prod.fst = spliceLines (normalize text) := by
  induction size : text.length using Nat.strongRecOn generalizing place text with
  | ind bound ih =>
    have next := nextText_chars options place false text
    cases found : (nextText options place false text).char with
    | none =>
      rw [readText_end found, next, found, nextText_end options place false text found]
      rfl
    | some c =>
      have shorter := nextText_length options place false text
        (Option.isSome_iff_exists.mpr ⟨c, found⟩)
      rw [readText_char found, next, found, map_cons, ih _ (size ▸ shorter) _ _ rfl]
      rfl

/-! ## The result -/

def Stream.ofFile (place : Place) (chunks : List Chunk) : Stream := ⟨place, [], 0, some chunks⟩

def Stream.ofBuffer (place : Place) (bytes : List Char) : Stream := ⟨place, bytes, 0, none⟩

/-- However a file is split, it is read like one buffer, and its characters are those of the text
with plain line ends and without continued lines. -/
theorem readAll_chunks (options : StreamOptions) (place : Place) (chunks : List Chunk) :
    readAll options (.ofFile place chunks) =
        readAll options (.ofBuffer place (chunks.flatMap Chunk.bytes)) ∧
      (readAll options (.ofFile place chunks)).chars.map Prod.fst =
        spliceLines (normalize (chunks.flatMap Chunk.bytes)) := by
  have file : (Stream.ofFile place chunks).contents 0 = chunks.flatMap Chunk.bytes := rfl
  have buffer : (Stream.ofBuffer place (chunks.flatMap Chunk.bytes)).contents 0 =
      chunks.flatMap Chunk.bytes := append_nil _
  have read : readAll options (.ofFile place chunks) =
      readText options place (chunks.flatMap Chunk.bytes) := by
    rw [readAll_text]
    exact congrArg _ file
  constructor
  · rw [read, readAll_text]
    exact (congrArg _ buffer).symm
  · rw [read]
    exact readText_chars options place _

end SmatchFormal.Tokenizer
