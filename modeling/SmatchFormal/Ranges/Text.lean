import SmatchFormal.Lib.Strtol
import SmatchFormal.Ranges.AddRange

/-!
# The text of a range list

`show_rl` prints a list into a buffer of 255 bytes and `str_to_rl` reads such a
text.  Ranges go through the database in this form.  The limits of the types
have names, negative numbers stand in parentheses, and a list that would fill
the buffer ends with the last range that was printed, widened to the maximum of
the type.
-/

namespace SmatchFormal.Ranges

open SmatchFormal.Lib

/-- `sval_to_str`.  The text of a number fits the 32 bytes of `buf`. -/
def svalToStr (sval : Sval) : List Char :=
  if svalUnsigned sval && sval.raw == BitVec.allOnes 64 then "u64max".toList
  else if svalUnsigned sval && sval.value == 4294967295 then "u32max".toList
  else if sval.value == 65535 then "u16max".toList
  else if svalSigned sval && sval.value == 2 ^ 63 - 1 then "s64max".toList
  else if sval.value == 2147483647 then "s32max".toList
  else if sval.value == 32767 then "s16max".toList
  else if svalSigned sval && sval.value == -32768 then "s16min".toList
  else if svalSigned sval && sval.value == -2147483648 then "s32min".toList
  else if svalSigned sval && sval.value == -2 ^ 63 then "s64min".toList
  else if svalUnsigned sval then Nat.toDigits 10 sval.uvalue
  else if sval.value < 0 then '(' :: '-' :: (Nat.toDigits 10 sval.value.natAbs ++ [')'])
  else Nat.toDigits 10 sval.value.natAbs

/-- The text of one range.  `get_err_pointer_str` prints pointers only. -/
def rangeText (tmp : DataRange) : List Char :=
  if svalCmp tmp.min tmp.max = 0 then svalToStr tmp.min
  else svalToStr tmp.min ++ '-' :: svalToStr tmp.max

/-- `snprintf(full + at, 255 - at, ...)`: what `full` holds afterwards. -/
def printAt (full : List Char) (position : Nat) (text : List Char) : List Char :=
  full.take position ++ text.take (255 - position - 1)

/-- The loop of `show_rl`.  `p` and `prev` are offsets into `full`; the result says
whether the list was abbreviated. -/
def showRlLoop (full : List Char) (p prev i : Nat) (prevDrange : Option DataRange) :
    RangeList → List Char × Bool
  | [] => (full, false)
  | tmp :: rest =>
    let remain : Int := 255 - p
    if remain < 48 then
      match prevDrange with
      | none => (full, true)
      | some prevDrange =>
        (printAt full prev (',' :: (svalToStr prevDrange.min ++
          '-' :: svalToStr (svalTypeMax prevDrange.min.type))), true)
    else
      let text := if i = 0 then rangeText tmp else ',' :: rangeText tmp
      showRlLoop (printAt full p text) (p + text.length) p (i + 1) (some tmp) rest

def showRl (list : RangeList) : List Char := (showRlLoop [] 0 0 0 none list).1

def showRlAbbreviates (list : RangeList) : Bool := (showRlLoop [] 0 0 0 none list).2

/-- The names `parse_val` knows, in the order of its tests. -/
def namedVals (type : Ctype) : List (List Char × Sval) :=
  [("max".toList, svalTypeMax type),
    ("u64max".toList, svalTypeVal type (BitVec.allOnes 64)),
    ("s64max".toList, svalTypeVal type (BitVec.ofInt 64 (2 ^ 63 - 1))),
    ("u32max".toList, svalTypeVal type (BitVec.ofInt 64 4294967295)),
    ("s32max".toList, svalTypeVal type (BitVec.ofInt 64 2147483647)),
    ("u16max".toList, svalTypeVal type (BitVec.ofInt 64 65535)),
    ("s16max".toList, svalTypeVal type (BitVec.ofInt 64 32767)),
    ("min".toList, svalTypeMin type),
    ("s64min".toList, svalTypeVal type (BitVec.ofInt 64 (-2 ^ 63))),
    ("s32min".toList, svalTypeVal type (BitVec.ofInt 64 (-2147483648))),
    ("s16min".toList, svalTypeVal type (BitVec.ofInt 64 (-32768))),
    ("long_min".toList, svalTypeVal type (BitVec.ofInt 64 (-2 ^ 63))),
    ("long_max".toList, svalTypeVal type (BitVec.ofInt 64 (2 ^ 63 - 1))),
    ("ulong_max".toList, svalTypeVal type (BitVec.allOnes 64)),
    -- `valid_ptr_max` is `ULONG_MAX & ~0xfffULL`.
    ("ptr_max".toList, svalTypeVal type (BitVec.ofInt 64 (-4096)))]

/-- `parse_val`: the value and the rest of the text.  `none` stands for a text that
starts with `[`, whose value depends on the arguments of a call. -/
def parseVal (type : Ctype) (start : List Char) : Option (Sval × List Char) :=
  match (namedVals type).find? fun entry => entry.1.isPrefixOf start with
  | some (name, ret) => some (ret, start.drop name.length)
  | none =>
    if start.head? = some '[' then none
    else if typePositiveBits type = 64 then
      let (value, c) := Strtol.strtoull start
      some (svalTypeVal type value, c)
    else
      let (value, c) := Strtol.strtoll start
      some (svalTypeVal type (BitVec.ofInt 64 value), c)

def skipChar (skipped : Char) : List Char → List Char
  | [] => []
  | c :: rest => if c = skipped then rest else c :: rest

def endsText (c : List Char) : Prop := c.head? = none ∨ c.head? = some '['

instance (c : List Char) : Decidable (endsText c) := inferInstanceAs (Decidable (_ ∨ _))

/-- The loop of `str_to_rl_helper`: the list and the text left over.  Every iteration
that does not end the loop moves on in the text. -/
def strToRlLoop (type : Ctype) :
    Nat → List Char → Sval → Sval → Sval → RangeList → Option (RangeList × List Char)
  | 0, _, _, _, _, _ => none
  | fuel + 1, c, prevMin, min, max, rlTmp =>
    if endsText c then some (rlTmp, c)
    else if c.head? = some '+' then
      let min := if svalCmp min (svalTypeMin type) ≠ 0 then max else min
      some (addRangeT type rlTmp min (svalTypeMax type), c)
    else
      match parseVal type (skipChar '(' c) with
      | none => none
      | some (parsed, c) =>
        let min := if !svalFits type parsed then svalTypeMin type else parsed
        let c := skipChar ')' c
        if endsText c then some (addRangeT type rlTmp min min, c)
        else if c.head? = some ',' then
          strToRlLoop type fuel c.tail prevMin min min (addRangeT type rlTmp min min)
        else
          let plus := c.head? = some '+'
          let min := if plus then prevMin else min
          let rlTmp := if plus then addRangeT type rlTmp min (svalTypeMax type) else rlTmp
          let c := if plus then c.tail else c
          if plus ∧ endsText c then some (rlTmp, c)
          -- `sm_debug("XXX: trouble parsing %s c = %s", str, c)`.
          else if c.head? ≠ some '-' then some (rlTmp, c)
          else
            match parseVal type (skipChar '(' c.tail) with
            | none => none
            | some (parsed, c) =>
              let plus := c.head? = some '+'
              let max :=
                if plus ∨ svalFits type parsed = false then svalTypeMax type else parsed
              let rlTmp := if plus then addRangeT type rlTmp min max else rlTmp
              let c := if plus then c.tail else c
              if plus ∧ endsText c then some (rlTmp, c)
              else
                strToRlLoop type fuel (skipChar ',' (skipChar ')' c)) max min max
                  (addRangeT type rlTmp min max)

def strToRlHelper (type : Ctype) (str : List Char) : Option (RangeList × List Char) :=
  strToRlLoop type (str.length + 1) str (svalTypeMin type) (svalTypeMin type) (svalTypeMax type) []

/-- `str_to_rl`, with the part of `str_to_dinfo` that needs no call.  `none` stands for
the texts with `[`, which refer to the arguments of a call. -/
def strToRl (type : Option Ctype) (value : List Char) : Option RangeList :=
  let type := type.getD llongCtype
  if value = "empty".toList then some []
  else if "[==$".toList.isPrefixOf value then none
  else
    match strToRlHelper type value with
    | none => none
    | some (rl, c) =>
      if c ≠ [] ∧ '[' ∈ value then none
      else
        let rl := castRl (some type) rl
        some (if !rlIsSane rl then allocWholeRl (some type) else rl)

end SmatchFormal.Ranges
