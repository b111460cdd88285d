import SmatchFormal.Tokenizer.Stream
import SmatchFormal.Lib.Strtol

/-!
# The scanners

`tokenize_stream` splits the characters of a stream into tokens.  A scanner is given the characters
that `nextchar` has still to return, behind the one that was returned last.  The warnings are left
out.
-/

namespace SmatchFormal.Tokenizer

open SmatchFormal.Lib

def isLetter (c : Char) : Bool := c.isAlpha || c == '_'

def isExp (c : Char) : Bool := c == 'e' || c == 'E' || c == 'p' || c == 'P'

def isWord (c : Char) : Bool := isLetter c || c.isDigit

def isNumberChar (c : Char) : Bool := c == '.' || isWord c

def isSign (c : Char) : Bool := c == '-' || c == '+'

def isQuote (c : Char) : Bool := c == '\'' || c == '"'

def validSecond (c : Char) : Bool :=
  c == '.' || c == '=' || c == '+' || c == '-' || c == '>' || c == '<' || c == '&' || c == '|' ||
    c == '#'

/-- The tokens of more than one character, in the order of `COMBINATION_STRINGS`. -/
inductive Combination
  | addAssign | increment
  | subAssign | decrement | dereference
  | mulAssign
  | divAssign
  | modAssign
  | lte | gte
  | equal | notequal
  | logicalAnd | andAssign
  | logicalOr | orAssign
  | xorAssign | hashhash
  | leftshift | rightshift | dotdot
  | shlAssign | shrAssign | ellipsis
  deriving DecidableEq, Repr

def Combination.all : List Combination :=
  [.addAssign, .increment, .subAssign, .decrement, .dereference, .mulAssign, .divAssign, .modAssign,
    .lte, .gte, .equal, .notequal, .logicalAnd, .andAssign, .logicalOr, .orAssign, .xorAssign,
    .hashhash, .leftshift, .rightshift, .dotdot, .shlAssign, .shrAssign, .ellipsis]

def Combination.text : Combination → List Char
  | .addAssign => ['+', '=']
  | .increment => ['+', '+']
  | .subAssign => ['-', '=']
  | .decrement => ['-', '-']
  | .dereference => ['-', '>']
  | .mulAssign => ['*', '=']
  | .divAssign => ['/', '=']
  | .modAssign => ['%', '=']
  | .lte => ['<', '=']
  | .gte => ['>', '=']
  | .equal => ['=', '=']
  | .notequal => ['!', '=']
  | .logicalAnd => ['&', '&']
  | .andAssign => ['&', '=']
  | .logicalOr => ['|', '|']
  | .orAssign => ['|', '=']
  | .xorAssign => ['^', '=']
  | .hashhash => ['#', '#']
  | .leftshift => ['<', '<']
  | .rightshift => ['>', '>']
  | .dotdot => ['.', '.']
  | .shlAssign => ['<', '<', '=']
  | .shrAssign => ['>', '>', '=']
  | .ellipsis => ['.', '.', '.']

inductive Special
  | single (c : Char)
  | combination (value : Combination)
  deriving DecidableEq, Repr

/-- What a token holds.  An identifier stands for its `struct ident`, a string for its bytes without
the terminator, and embedded bytes for as many as the type of the token says. -/
inductive Token
  | ident (name : List Char)
  | number (text : List Char)
  | special (value : Special)
  | char (wide : Bool) (data : List Char)
  | embedded (wide : Bool) (data : List Char)
  | string (wide : Bool) (data : List Char)
  deriving DecidableEq, Repr

/-- What `get_one_token` does: a token, or a comment, or nothing at the end of the file. -/
inductive Scan
  | token (token : Token) (rest : List Char)
  | lineComment (rest : List Char)
  | comment (rest : List Char)
  | cut
  deriving DecidableEq, Repr

def numberTail : List Char → List Char × List Char
  | [] => ([], [])
  | [next] => if isNumberChar next then ([next], []) else ([], [next])
  | next :: sign :: rest =>
    if isNumberChar next then
      if isExp next && isSign sign then
        (next :: sign :: (numberTail rest).1, (numberTail rest).2)
      else (next :: (numberTail (sign :: rest)).1, (numberTail (sign :: rest)).2)
    else ([], next :: sign :: rest)

def numberSize : Nat := 4095

def getOneNumber (c : Char) (text : List Char) : Scan :=
  let digits := c :: (numberTail text).1
  .token (.number (if digits.length < numberSize then digits else ['1'])) (numberTail text).2

def maxString : Nat := 8191

/-- The loop of `eat_string`, which ends behind the delimiter or a line feed. -/
def eatLoop (delim : Char) (escape : Bool) : List Char → Option (List Char × List Char)
  | [] => none
  | next :: rest =>
    if escape = false ∧ next = delim then some ([], rest)
    else if next = '\n' then some ([next], rest)
    else (eatLoop delim (!escape && next == '\\') rest).map fun eaten => (next :: eaten.1, eaten.2)

def stringToken (delim : Char) (wide : Bool) (bytes : List Char) : Token :=
  let data := bytes.take maxString
  if delim = '\'' then
    if 0 < data.length ∧ data.length ≤ 4 then .embedded wide data else .char wide data
  else .string wide data

def eatString (delim : Char) (wide : Bool) (text : List Char) : Scan :=
  match eatLoop delim false text with
  | none => .cut
  | some (bytes, rest) => .token (stringToken delim wide bytes) rest

def dropStreamEoln : List Char → Scan
  | [] => .cut
  | c :: rest => if c = '\n' then .lineComment rest else dropStreamEoln rest

def dropStreamComment : List Char → Scan
  | [] => .cut
  | [_] => .cut
  | curr :: next :: rest =>
    if curr = '*' ∧ next = '/' then .comment rest else dropStreamComment (next :: rest)

def specialHash (c0 c1 : Char) : Nat :=
  ((c0.toNat * 8 + c1.toNat * 2) + ((c0.toNat * 8 + c1.toNat * 2) >>> 5)) &&& 31

def combinationTable : List (Char × Char × Combination) :=
  [('+', '=', .addAssign), ('/', '=', .divAssign), ('^', '=', .xorAssign), ('&', '&', .logicalAnd),
    ('#', '#', .hashhash), ('<', '<', .leftshift), ('<', '=', .lte), ('!', '=', .notequal),
    ('%', '=', .modAssign), ('-', '-', .decrement), ('-', '=', .subAssign),
    ('-', '>', .dereference),
    ('=', '=', .equal), ('&', '=', .andAssign), ('*', '=', .mulAssign), ('.', '.', .dotdot),
    ('+', '+', .increment), ('|', '=', .orAssign), ('>', '=', .gte), ('|', '|', .logicalOr),
    ('>', '>', .rightshift)]

/-- The entry at the hash of two characters, when it is for them. -/
def findCombination (c next : Char) : Option Combination :=
  match combinationTable.find? fun entry => specialHash entry.1 entry.2.1 == specialHash c next with
  | some (first, second, value) => if first = c ∧ second = next then some value else none
  | none => none

def thirdChar : Combination → Option (Char × Combination)
  | .leftshift => some ('=', .shlAssign)
  | .rightshift => some ('=', .shrAssign)
  | .dotdot => some ('.', .ellipsis)
  | _ => none

def scanCombination (c : Char) (text : List Char) : Scan :=
  match text with
  | [] => .token (.special (.single c)) []
  | next :: rest =>
    match (if validSecond next then findCombination c next else none) with
    | none => .token (.special (.single c)) (next :: rest)
    | some value =>
      match thirdChar value with
      | none => .token (.special (.combination value)) rest
      | some (third, longer) =>
        if rest.head? = some third then .token (.special (.combination longer)) rest.tail
        else .token (.special (.combination value)) rest

def getOneSpecial (c : Char) (text : List Char) : Scan :=
  if c = '.' ∧ (text.head?.any Char.isDigit) = true then getOneNumber c text
  else if c = '"' then eatString '"' false text
  else if c = '\'' then eatString '\'' false text
  else if c = '/' ∧ text.head? = some '/' then dropStreamEoln text.tail
  else if c = '/' ∧ text.head? = some '*' then dropStreamComment text.tail
  else scanCombination c text

def identSize : Nat := 256

/-- The characters of an identifier behind the first one, up to the room in the buffer. -/
def identTail (room : Nat) : List Char → List Char × List Char
  | [] => ([], [])
  | next :: rest =>
    match room with
    | 0 => ([], next :: rest)
    | room + 1 =>
      if isWord next then (next :: (identTail room rest).1, (identTail room rest).2)
      else ([], next :: rest)

def getOneIdentifier (c : Char) (text : List Char) : Scan :=
  let buf := c :: (identTail (identSize - 1) text).1
  let rest := (identTail (identSize - 1) text).2
  if (buf = ['L'] ∨ buf = ['u']) ∧ rest.head? = some '\'' then eatString '\'' true rest.tail
  else if (buf = ['L'] ∨ buf = ['u']) ∧ rest.head? = some '"' then eatString '"' true rest.tail
  else .token (.ident buf) rest

def getOneToken (c : Char) (text : List Char) : Scan :=
  if c.isDigit then getOneNumber c text
  else if isLetter c then getOneIdentifier c text
  else getOneSpecial c text

end SmatchFormal.Tokenizer
