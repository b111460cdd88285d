import SmatchFormal.Lib.Decimal

/-!
# Parameter numbers inside of keys

`get_param_key_swap_dollar` puts the number of a parameter behind the `$` of a key and
`split_param_key` takes it out again.  The names of containers, `(8<~$0)` and `(8<~$0[2])`, are
printed for assignments of `container_of()` and read by `parse_container_string`.
-/

namespace SmatchFormal.Params

open SmatchFormal.Lib List

def print64 (text : List Char) : List Char := text.take 63

def beforeDollar (key : List Char) : List Char := key.takeWhile fun c => c != '$'

def afterDollar (key : List Char) : List Char := (key.dropWhile fun c => c != '$').tail

/-- The end of `get_param_key_swap_dollar`, for the key and the parameter that
`get_param_key_from_expr` gives. -/
def getParamKeySwapDollar (key : List Char) (param : Int) : Option (List Char) :=
  if '$' ∈ key then
    some (print64 (beforeDollar key ++ ['$'] ++ Decimal.decimalText param ++ afterDollar key))
  else none

/-- `split_param_key`, for a buffer of `len` bytes: the parameter and the key. -/
def splitParamKey (value : List Char) (len : Nat) : Option (Int × List Char) :=
  if value.length ≥ len then none
  else if '$' ∈ value then
    let param := Decimal.atoi (afterDollar value)
    if param < 0 ∨ param > 99 then none
    else
      let skip := if param > 9 then 2 else 1
      some (param, beforeDollar value ++ ['$'] ++ (afterDollar value).drop skip)
  else none

/-- What `handle_container_of_assign` prints, and with a count what
`handle_container_of_container_assign` prints. -/
def containerText (offset param : Int) (cnt : Option Int) : List Char :=
  print64 (['('] ++ Decimal.decimalText offset ++ ['<', '~', '$'] ++ Decimal.decimalText param ++
    (match cnt with
      | none => []
      | some cnt => ['['] ++ Decimal.decimalText cnt ++ [']']) ++ [')'])

def withMember (text : List Char) : Option (List Char) → List Char
  | none => text
  | some member => text ++ ['-', '>'] ++ member

structure Container where
  remove : Nat
  offset : Int
  param : Int
  cnt : Int
  member : List Char
  deriving DecidableEq, Repr

def readInt (p : List Char) : Int × List Char :=
  (Decimal.toInt32 (Decimal.strtoul p).1.toNat, (Decimal.strtoul p).2)

def parseCount (p : List Char) : Option (Int × List Char) :=
  match p with
  | '[' :: rest =>
    match (readInt rest).2 with
    | ']' :: tail => some ((readInt rest).1, tail)
    | _ => none
  | _ => some (1, p)

def parseMember (p : List Char) : Option (List Char) :=
  match p with
  | [')'] => some []
  | ')' :: '-' :: '>' :: c :: member => some (c :: member)
  | _ => none

def parseContainerAt (remove : Nat) (p : List Char) : Option Container :=
  match (readInt p).2 with
  | '<' :: '~' :: '$' :: digit :: rest =>
    if !digit.isDigit then none
    else if (readInt rest).1 ≠ 0 then none
    else do
      let (cnt, rest') ← parseCount (readInt rest).2
      let member ← parseMember rest'
      some ⟨remove, (readInt p).1, (readInt rest).1, cnt, member⟩
  | _ => none

def parseContainerFrom (remove : Nat) : List Char → Option Container
  | [] => none
  | '(' :: rest =>
    if rest.head?.any Char.isDigit then parseContainerAt remove rest
    else parseContainerFrom (remove + 1) rest
  | _ :: rest => parseContainerFrom (remove + 1) rest

def parseContainerString (str : List Char) : Option Container := parseContainerFrom 0 str

/-- The key with the number fits both buffers, or loses the zero at its end only, and the digits
behind the dollar read as the number. -/
def KeySurvives (key : List Char) (param : Nat) (len : Nat) : Prop :=
  let size := key.length + (Nat.toDigits 10 param).length
  (size < 64 ∨ size = 64 ∧ param = 0 ∧ afterDollar key = []) ∧ min size 63 < len ∧
    Decimal.toInt32 (min (2 ^ 63 - 1) (Strtol.takeDigits 10 param (afterDollar key)).1) = param

section Split

variable {key : List Char} {param len : Nat}

theorem dollar_split (pre post : List Char) (first : '$' ∉ pre) :
    '$' ∈ pre ++ '$' :: post ∧ beforeDollar (pre ++ '$' :: post) = pre ∧
      afterDollar (pre ++ '$' :: post) = post := by
  have other : ∀ c ∈ pre, (c != '$') = true := by
    intro c member
    rw [bne_iff_ne]
    rintro rfl
    exact first member
  refine ⟨by simp, ?_, ?_⟩
  · unfold beforeDollar
    rw [takeWhile_append_of_pos other]
    simp
  · unfold afterDollar
    rw [dropWhile_append_of_pos other]
    simp

theorem split_dollar (pre post : List Char) (first : '$' ∉ pre) (len : Nat) :
    splitParamKey (pre ++ '$' :: post) len =
      if (pre ++ '$' :: post).length ≥ len then none
      else if Decimal.atoi post < 0 ∨ Decimal.atoi post > 99 then none
      else some (Decimal.atoi post,
        pre ++ '$' :: post.drop (if Decimal.atoi post > 9 then 2 else 1)) := by
  obtain ⟨inside, before, after⟩ := dollar_split pre post first
  unfold splitParamKey
  rw [if_pos inside, before, after]
  simp only [append_assoc, cons_append, nil_append]

/-- The number of a parameter has one or two digits, and as many are skipped. -/
theorem digits_length (small : param ≤ 99) :
    (Nat.toDigits 10 param).length = if (param : Int) > 9 then 2 else 1 := by
  have less : ∀ n < 100, (Nat.toDigits 10 n).length = if n > 9 then 2 else 1 := by decide
  rw [less param (by omega)]
  split_ifs <;> omega

theorem swapDollar_eq (pre post : List Char) (first : '$' ∉ pre) (param : Nat) :
    getParamKeySwapDollar (pre ++ '$' :: post) param =
      some ((pre ++ '$' :: (Nat.toDigits 10 param ++ post)).take 63) := by
  obtain ⟨inside, before, after⟩ := dollar_split pre post first
  unfold getParamKeySwapDollar print64
  rw [if_pos inside, before, after, Decimal.decimalText_natCast]
  simp only [append_assoc, cons_append, nil_append]

/-- A text that fits is taken apart where the number is read. -/
theorem split_whole (pre post : List Char) (first : '$' ∉ pre) (small : param ≤ 99) (len : Nat) :
    splitParamKey (pre ++ '$' :: (Nat.toDigits 10 param ++ post)) len =
        some ((param : Int), pre ++ '$' :: post) ↔
      (pre ++ '$' :: (Nat.toDigits 10 param ++ post)).length < len ∧
        Decimal.toInt32 (min (2 ^ 63 - 1) (Strtol.takeDigits 10 param post).1) = param := by
  rw [split_dollar pre _ first, ← Decimal.atoi_append]
  constructor
  · intro back
    split_ifs at back with long range
    all_goals exact ⟨by omega, congrArg Prod.fst (Option.some.inj back)⟩
  · rintro ⟨short, number⟩
    rw [if_neg (by omega), number, if_neg (by omega), ← digits_length small, drop_left]

/-- A text that was cut is taken apart only when a zero at its end was cut off. -/
theorem split_cut (pre post : List Char) (first : '$' ∉ pre) (small : param ≤ 99) (len : Nat)
    (long : 64 ≤ (pre ++ '$' :: (Nat.toDigits 10 param ++ post)).length) :
    splitParamKey ((pre ++ '$' :: (Nat.toDigits 10 param ++ post)).take 63) len =
        some ((param : Int), pre ++ '$' :: post) ↔
      pre.length = 62 ∧ param = 0 ∧ post = [] ∧ 63 < len := by
  constructor
  · intro back
    have cut : ((pre ++ '$' :: (Nat.toDigits 10 param ++ post)).take 63).length = 63 := by
      rw [length_take]
      omega
    by_cases inside : pre.length < 63
    · -- the dollar is in what is left
      have left : (pre ++ '$' :: (Nat.toDigits 10 param ++ post)).take 63 =
          pre ++ '$' :: (Nat.toDigits 10 param ++ post).take (62 - pre.length) := by
        rw [take_append, take_of_length_le (by omega)]
        have one : 63 - pre.length = (62 - pre.length) + 1 := by omega
        rw [one, take_succ_cons]
      rw [left] at cut back
      generalize (Nat.toDigits 10 param ++ post).take (62 - pre.length) = after at cut back
      rw [split_dollar pre after first] at back
      have tooLong : ¬ (pre ++ '$' :: after).length ≥ len := by
        intro more
        rw [if_pos more] at back
        cases back
      have range : ¬ (Decimal.atoi after < 0 ∨ Decimal.atoi after > 99) := by
        intro wrong
        rw [if_neg tooLong, if_pos wrong] at back
        cases back
      rw [if_neg tooLong, if_neg range] at back
      obtain ⟨number, key⟩ := Prod.mk.inj (Option.some.inj back)
      rw [number] at key
      have lengths := congrArg List.length key
      have digits := digits_length small
      simp only [length_append, length_cons, length_drop] at lengths cut long tooLong
      rw [← digits] at lengths
      by_cases two : (param : Int) > 9
      · rw [if_pos two] at digits
        -- a single character is no number above nine
        obtain ⟨c, rfl⟩ := length_eq_one_iff.mp (show after.length = 1 by
          have some : after ≠ [] := by
            rintro rfl
            rw [Decimal.atoi_nil] at number
            omega
          have positive := length_pos_iff.mpr some
          omega)
        have below := Decimal.atoi_single c
        omega
      · rw [if_neg two] at digits
        have none : after = [] := length_eq_zero_iff.mp (by omega)
        rw [none, Decimal.atoi_nil] at number
        rw [none, drop_nil] at key
        have ends := append_cancel_left key
        rw [none, length_nil] at cut
        exact ⟨by omega, by omega, (List.cons.inj ends).2.symm, by omega⟩
    · have outside : '$' ∉ (pre ++ '$' :: (Nat.toDigits 10 param ++ post)).take 63 := by
        rw [take_append_of_le_length (by omega)]
        exact fun member => first (mem_of_mem_take member)
      unfold splitParamKey at back
      rw [if_neg outside] at back
      split_ifs at back
  · rintro ⟨size, rfl, rfl, room⟩
    have left : (pre ++ '$' :: (Nat.toDigits 10 0 ++ [])).take 63 = pre ++ '$' :: [] := by
      rw [take_append, take_of_length_le (by omega), size]
      rfl
    rw [left, split_dollar pre [] first, Decimal.atoi_nil]
    rw [if_neg (by simp only [length_append, length_cons, length_nil]; omega)]
    rfl

/-- The key and the number come back exactly when `KeySurvives` holds. -/
theorem splitParamKey_swapDollar (single : key.count '$' = 1) (small : param ≤ 99) (len : Nat) :
    (∃ text, getParamKeySwapDollar key param = some text ∧
      splitParamKey text len = some ((param : Int), key)) ↔ KeySurvives key param len := by
  have inside : '$' ∈ key := count_pos_iff.mp (by omega)
  obtain ⟨pre, post, rfl, first⟩ := eq_append_cons_of_mem inside
  have after := (dollar_split pre post first).2.2
  rw [swapDollar_eq pre post first]
  simp only [Option.some.injEq, exists_eq_left']
  have size : (pre ++ '$' :: (Nat.toDigits 10 param ++ post)).length =
      (pre ++ '$' :: post).length + (Nat.toDigits 10 param).length := by
    simp only [length_append, length_cons]
    omega
  unfold KeySurvives
  dsimp only
  rw [after, ← size]
  by_cases fits : (pre ++ '$' :: (Nat.toDigits 10 param ++ post)).length < 64
  · have least : min (pre ++ '$' :: (Nat.toDigits 10 param ++ post)).length 63 =
        (pre ++ '$' :: (Nat.toDigits 10 param ++ post)).length := Nat.min_eq_left (by omega)
    rw [take_of_length_le (by omega), split_whole pre post first small, least]
    exact ⟨fun back => ⟨Or.inl fits, back⟩, fun back => back.2⟩
  · rw [split_cut pre post first small len (by omega)]
    constructor
    · rintro ⟨preLength, rfl, rfl, room⟩
      refine ⟨Or.inr ⟨?_, rfl, rfl⟩, by omega, by decide⟩
      simp only [length_append, length_cons, preLength]
      rfl
    · rintro ⟨sizes, room, -⟩
      obtain ⟨whole, rfl, rfl⟩ := sizes.resolve_left fits
      have one : (Nat.toDigits 10 0).length = 1 := rfl
      simp only [length_append, length_cons, length_nil, one] at whole
      exact ⟨by omega, rfl, rfl, by omega⟩

end Split

section Container

variable {str p rest : List Char} {offset param count : Nat} {cnt : Option Nat}
  {member : Option (List Char)} {container : Container}

theorem parseContainerAt_param {remove : Nat}
    (read : parseContainerAt remove p = some container) : container.param = 0 := by
  unfold parseContainerAt at read
  split at read
  · split_ifs at read with digit zero
    obtain ⟨counted, -, read⟩ := Option.bind_eq_some_iff.mp read
    obtain ⟨path, -, read⟩ := Option.bind_eq_some_iff.mp read
    rw [← Option.some.inj read]
    exact not_not.mp zero
  · cases read

theorem parseContainerFrom_param {remove : Nat}
    (read : parseContainerFrom remove str = some container) : container.param = 0 := by
  induction str generalizing remove with
  | nil => cases read
  | cons c rest ih =>
    unfold parseContainerFrom at read
    split at read
    · cases read
    · rename_i same
      obtain ⟨-, rfl⟩ := List.cons.inj same
      split_ifs at read
      · exact parseContainerAt_param read
      · exact ih read
    · rename_i same
      obtain ⟨-, rfl⟩ := List.cons.inj same
      exact ih read

theorem readInt_text (small : count < 2 ^ 31) (ends : Decimal.Ends rest) :
    readInt (Nat.toDigits 10 count ++ rest) = ((count : Int), rest) := by
  unfold readInt
  rw [Decimal.strtoul_text (by omega) ends]
  dsimp only
  rw [BitVec.toNat_ofNat, Nat.mod_eq_of_lt (by omega), Decimal.toInt32_of_mem (by omega) (by omega)]

def countText : Option Nat → List Char
  | none => []
  | some count => '[' :: (Nat.toDigits 10 count ++ [']'])

theorem containerText_zero (small : offset < 2 ^ 31) (counts : ∀ count ∈ cnt, count < 2 ^ 31) :
    containerText offset (0 : Nat) (cnt.map fun (count : Nat) => (count : Int)) =
      '(' :: (Nat.toDigits 10 offset ++ '<' :: '~' :: '$' :: '0' :: (countText cnt ++ [')'])) := by
  have digits : ∀ n < 2 ^ 31, (Nat.toDigits 10 n).length ≤ 10 := fun n less =>
    (Nat.length_toDigits_le_iff (by decide) (by decide)).mpr (by omega)
  have offsetDigits := digits offset small
  unfold containerText print64
  rw [Decimal.decimalText_natCast, Decimal.decimalText_natCast]
  cases cnt with
  | none =>
    rw [take_of_length_le]
    · simp [countText]
    · simp only [length_append, length_cons, length_nil, Option.map_none,
        Nat.toDigits_zero]
      omega
  | some count =>
    have countDigits := digits count (counts count rfl)
    rw [take_of_length_le]
    · simp [countText, Decimal.decimalText_natCast]
    · simp only [length_append, length_cons, length_nil, Option.map_some,
        Nat.toDigits_zero, Decimal.decimalText_natCast]
      omega

theorem readInt_other (other : Decimal.strtoul p = (0, p)) : readInt p = (0, p) := by
  unfold readInt
  rw [other]
  exact Prod.ext (by decide : Decimal.toInt32 ((0 : BitVec 64).toNat) = 0) rfl

theorem readInt_countText : readInt (countText cnt ++ ')' :: rest) =
    (0, countText cnt ++ ')' :: rest) := by
  cases cnt with
  | none =>
    exact readInt_other
      (Decimal.strtoul_other rest (by decide) (by decide) (by decide) (by decide))
  | some count =>
    exact readInt_other
      (Decimal.strtoul_other _ (by decide) (by decide) (by decide) (by decide))

theorem parseCount_text (counts : ∀ count ∈ cnt, count < 2 ^ 31) :
    parseCount (countText cnt ++ ')' :: rest) =
      some (((cnt.getD 1 : Nat) : Int), ')' :: rest) := by
  cases cnt with
  | none => rfl
  | some count =>
    have read := @readInt_text (']' :: ')' :: rest) count (counts count rfl)
      (Decimal.ends_cons (by decide) _)
    unfold countText parseCount
    simp only [cons_append, append_assoc, nil_append, read, Option.getD_some]

/-- A container of the first parameter is read up to its member. -/
theorem parseContainerString_zero (small : offset < 2 ^ 31)
    (counts : ∀ count ∈ cnt, count < 2 ^ 31) (rest : List Char) :
    parseContainerString ('(' :: (Nat.toDigits 10 offset ++
        '<' :: '~' :: '$' :: '0' :: (countText cnt ++ ')' :: rest))) =
      (parseMember (')' :: rest)).map fun path =>
        ⟨0, offset, 0, ((cnt.getD 1 : Nat) : Int), path⟩ := by
  have read := @readInt_text ('<' :: '~' :: '$' :: '0' :: (countText cnt ++ ')' :: rest)) offset
    small (Decimal.ends_cons (by decide) _)
  obtain ⟨c, tail, found, digit⟩ := Strtol.exists_digit offset
    ('<' :: '~' :: '$' :: '0' :: (countText cnt ++ ')' :: rest))
  have start : (Nat.toDigits 10 offset ++
      '<' :: '~' :: '$' :: '0' :: (countText cnt ++ ')' :: rest)).head?.any Char.isDigit =
        true := by
    rw [found]
    exact digit
  unfold parseContainerString
  rw [parseContainerFrom, if_pos start]
  unfold parseContainerAt
  rw [read]
  split
  · rename_i digit tail same
    simp only [List.cons.injEq, true_and] at same
    obtain ⟨rfl, rfl⟩ := same
    rw [if_neg (by decide), readInt_countText, if_neg (by simp), parseCount_text counts]
    simp only [Option.bind_eq_bind, Option.bind_some]
    cases parseMember (')' :: rest) with
    | none => rfl
    | some path => rfl
  · rename_i other
    exact absurd rfl (other _ _)

/-- The text of a container comes back exactly for the first parameter and a member that is not
empty. -/
theorem parseContainerString_iff (small : offset < 2 ^ 31)
    (counts : ∀ count ∈ cnt, count < 2 ^ 31) :
    parseContainerString (withMember (containerText offset param
        (cnt.map fun (count : Nat) => (count : Int))) member) =
      some ⟨0, offset, param, ((cnt.getD 1 : Nat) : Int), member.getD []⟩ ↔
      param = 0 ∧ member ≠ some [] := by
  have zero : param = 0 → (parseContainerString (withMember (containerText offset param
      (cnt.map fun (count : Nat) => (count : Int))) member) =
      some ⟨0, offset, param, ((cnt.getD 1 : Nat) : Int), member.getD []⟩ ↔ member ≠ some []) := by
    rintro rfl
    rw [containerText_zero small counts]
    cases member with
    | none =>
      have text := @parseContainerString_zero offset cnt small counts []
      exact iff_of_true text (by simp)
    | some path =>
      have text := @parseContainerString_zero offset cnt small counts ('-' :: '>' :: path)
      have shape : withMember ('(' :: (Nat.toDigits 10 offset ++
          '<' :: '~' :: '$' :: '0' :: (countText cnt ++ [')']))) (some path) =
          '(' :: (Nat.toDigits 10 offset ++
            '<' :: '~' :: '$' :: '0' :: (countText cnt ++ ')' :: '-' :: '>' :: path)) := by
        simp [withMember]
      rw [shape, text]
      cases path with
      | nil => exact iff_of_false (by simp [parseMember]) (by simp)
      | cons c tail => exact iff_of_true rfl (by simp)
  constructor
  · intro read
    have first : param = 0 := by
      have number := parseContainerFrom_param read
      dsimp only at number
      omega
    exact ⟨first, (zero first).mp read⟩
  · rintro ⟨first, path⟩
    exact (zero first).mpr path

end Container

/-- Keys come back with their parameter exactly when `KeySurvives` holds, and containers exactly
for the first parameter and members that are not empty. -/
theorem paramTexts_iff (key : List Char) (param len offset place : Nat) (cnt : Option Nat)
    (member : Option (List Char)) :
    (key.count '$' = 1 → param ≤ 99 →
      ((∃ text, getParamKeySwapDollar key param = some text ∧
        splitParamKey text len = some ((param : Int), key)) ↔ KeySurvives key param len)) ∧
    (offset < 2 ^ 31 → (∀ count ∈ cnt, count < 2 ^ 31) →
      (parseContainerString (withMember (containerText offset place
          (cnt.map fun (count : Nat) => (count : Int))) member) =
        some ⟨0, offset, place, ((cnt.getD 1 : Nat) : Int), member.getD []⟩ ↔
        place = 0 ∧ member ≠ some [])) :=
  ⟨fun single small => splitParamKey_swapDollar single small len,
    fun small counts => parseContainerString_iff small counts⟩

/-- The theorem for `$->x` and the parameter 12, and for `(8<~$0[2])->x`. -/
theorem paramTexts_iff_twelve :
    ((∃ text, getParamKeySwapDollar "$->x".toList (12 : Nat) = some text ∧
        splitParamKey text 256 = some (((12 : Nat) : Int), "$->x".toList)) ↔
      KeySurvives "$->x".toList 12 256) ∧
    (parseContainerString (withMember (containerText (8 : Nat) (0 : Nat)
        ((some 2).map fun (count : Nat) => (count : Int))) (some "x".toList)) =
      some ⟨0, (8 : Nat), (0 : Nat), (((some 2).getD 1 : Nat) : Int),
        (some "x".toList).getD []⟩ ↔
      0 = 0 ∧ some "x".toList ≠ some []) :=
  ⟨(paramTexts_iff "$->x".toList 12 256 8 0 (some 2) (some "x".toList)).1 (by decide) (by decide),
    (paramTexts_iff "$->x".toList 12 256 8 0 (some 2) (some "x".toList)).2 (by decide) (by simp)⟩

/-- The container of the second parameter is read as one of the first, and a digit behind the
dollar as a part of the number. -/
theorem paramTexts_lose :
    containerText 8 1 none = "(8<~$1)".toList ∧
      parseContainerString "(8<~$1)".toList = some ⟨0, 8, 0, 1, []⟩ ∧
      getParamKeySwapDollar "(8<~$0)->x".toList 1 = some "(8<~$10)->x".toList ∧
      splitParamKey "(8<~$10)->x".toList 256 = some (10, "(8<~$)->x".toList) := by
  decide

end SmatchFormal.Params
