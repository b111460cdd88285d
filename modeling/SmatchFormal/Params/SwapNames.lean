import SmatchFormal.Params.Names
import Mathlib.Algebra.Order.Ring.Rat
import Mathlib.Tactic.FieldSimp
import Mathlib.Tactic.Linarith
import Mathlib.Tactic.LinearCombination
import Mathlib.Tactic.Ring

/-!
# Swapping names

`swap_names` replaces a variable by the name it was assigned, on the text of a state name.  Names
are read as C expressions over a memory of locations, members and stored pointers.
-/

namespace SmatchFormal.Params

open List

/-! ## The code -/

def isOpening (c : Char) : Bool := c == '*' || c == '&' || c == '('

/-- The end of `swap_names`: a buffer of 128 bytes, and `&*` taken off. -/
def finishSwap (buf : List Char) : Option (List Char) :=
  if buf.length ≥ 128 then none
  else if buf.take 2 = ['&', '*'] then some (buf.drop 2)
  else some buf

def swapNames (orig remove add : List Char) : Option (List Char) :=
  let starred := orig.head? = some '*'
  let addressed := add.head? = some '&'
  let isStar := starred ∧ ¬ addressed
  let isAddr := addressed ∧ ¬ starred
  let add := if addressed then add.tail else add
  let offset := (orig.takeWhile isOpening).length
  let len := remove.length
  if len + offset > orig.length then none
  else
    let next := (orig.drop (offset + len)).head?
    let isEnd := next = none
    if ¬ isEnd ∧ next ≠ some '-' then none
    else if (orig.drop offset).take len ≠ remove then none
    else if ¬ isStar ∧ isEnd then none
    else
      finishSwap (orig.take offset ++ add ++
        (if isEnd then [] else if isAddr then ['.'] else ['-', '>']) ++
        (if isEnd then [] else orig.drop (offset + 2 + len)))

/-! ## Names as expressions -/

structure Memory (α : Type) where
  location : Ident → α
  field : α → Ident → α
  load : α → α

inductive Meaning (α : Type)
  | object (place : α)
  | value (number : α)

section Semantics

variable {α : Type} (memory : Memory α)

def Memory.follow (place : α) (member : Member) : α :=
  match member.access with
  | .arrow => memory.field (memory.load place) member.name
  | .dot => memory.field place member.name

def Memory.walk (place : α) (chain : List Member) : α := chain.foldl memory.follow place

def Memory.place (name : StateName) : α := memory.walk (memory.location name.base) name.chain

def Memory.meaning (name : StateName) : Meaning α :=
  match name.before with
  | .stars count => .object (memory.load^[count] (memory.place name))
  | .address => .value (memory.place name)

def Memory.valueOf : Meaning α → α
  | .object place => memory.load place
  | .value number => number

def Memory.Same (orig other : Meaning α) : Prop :=
  match orig with
  | .object place => other = .object place
  | .value number => memory.valueOf other = number

def Memory.Alias (foo : Ident) (add : StateName) : Prop :=
  memory.load (memory.location foo) = memory.valueOf (memory.meaning add)

end Semantics

/-- The text can be read as a name that means the same wherever the alias holds. -/
def Denotes (orig add : StateName) (text : List Char) : Prop :=
  ∃ name : StateName, name.text = text ∧ ∀ (α : Type) (memory : Memory α),
    memory.Alias orig.base add → memory.Same (memory.meaning orig) (memory.meaning name)

/-- A star or `&` of the alias that meets the members of the name. -/
def Misread (orig add : StateName) : Prop :=
  orig.chain ≠ [] ∧
    match add.before with
    | .stars count => count ≠ 0
    | .address => (∃ count, orig.before = .stars (count + 1)) ∧
        ¬ (add.base = orig.base ∧ add.chain = [])

/-! ## What is returned -/

def joinMember (before : Before) (member : Member) : Member :=
  match before with
  | .stars (_ + 1) => member
  | _ => ⟨.dot, member.name⟩

def swapped (orig add : StateName) : StateName :=
  match add.before with
  | .stars count =>
    ⟨match orig.before with
      | .stars more => .stars (more + count)
      | .address => if count = 0 then .address else .stars (count - 1),
      add.base, add.chain ++ orig.chain⟩
  | .address =>
    ⟨orig.before, add.base, add.chain ++
      (match orig.chain with
      | [] => []
      | member :: rest => joinMember orig.before member :: rest)⟩

section Returned

variable {orig add : StateName} {text : List Char}

theorem head_star : orig.text.head? = some '*' ↔ ∃ count, orig.before = .stars (count + 1) := by
  obtain ⟨c, tail, same, plain⟩ := orig.base.head_plain
  obtain ⟨before, base, chain⟩ := orig
  unfold StateName.text
  dsimp only at same ⊢
  rw [same]
  cases before with
  | stars count =>
    cases count with
    | zero =>
      refine iff_of_false ?_ ?_
      · intro star
        exact identChar_ne plain (by decide) (Option.some.inj star)
      · rintro ⟨count, same⟩
        cases same
    | succ count => exact iff_of_true rfl ⟨count, rfl⟩
  | address =>
    refine iff_of_false ?_ ?_
    · intro star
      cases star
    · rintro ⟨count, same⟩
      cases same

theorem head_address : add.text.head? = some '&' ↔ add.before = .address := by
  obtain ⟨c, tail, same, plain⟩ := add.base.head_plain
  obtain ⟨before, base, chain⟩ := add
  unfold StateName.text
  dsimp only at same ⊢
  rw [same]
  cases before with
  | stars count =>
    refine iff_of_false ?_ ?_
    · intro address
      cases count with
      | zero => exact identChar_ne plain (by decide) (Option.some.inj address)
      | succ count => cases address
    · intro same
      cases same
  | address => exact iff_of_true rfl rfl

theorem takeWhile_opening (orig : StateName) :
    orig.text.takeWhile isOpening = orig.before.text := by
  obtain ⟨c, tail, same, plain⟩ := orig.base.head_plain
  have opening : ∀ d ∈ orig.before.text, isOpening d = true := by
    intro d member
    unfold Before.text at member
    split at member
    · rw [(mem_replicate.mp member).2]
      rfl
    · rw [mem_singleton.mp member]
      rfl
  have closed : isOpening c = false := by
    unfold isOpening
    rw [beq_eq_false_iff_ne.mpr (identChar_ne plain (by decide)),
      beq_eq_false_iff_ne.mpr (identChar_ne plain (by decide)),
      beq_eq_false_iff_ne.mpr (identChar_ne plain (by decide))]
    rfl
  unfold StateName.text
  rw [takeWhile_append_of_pos opening, same, cons_append,
    takeWhile_cons_of_neg (by rw [closed]; exact Bool.false_ne_true), append_nil]

/-- The alias without its `&`. -/
def addText (add : StateName) : List Char :=
  match add.before with
  | .stars _ => add.text
  | .address => add.base.text ++ chainText add.chain

theorem addText_eq :
    (if add.text.head? = some '&' then add.text.tail else add.text) = addText add := by
  obtain ⟨before, base, chain⟩ := add
  cases before with
  | stars count =>
    rw [if_neg]
    · rfl
    · intro same
      cases head_address.mp same
  | address => exact if_pos (head_address.mpr rfl)

def joinedText (orig add : StateName) : List Char :=
  match orig.chain with
  | [] => []
  | member :: rest =>
    (if add.text.head? = some '&' ∧ ¬ orig.text.head? = some '*' then ['.'] else ['-', '>']) ++
      (member.name.text ++ chainText rest)

/-- A name comes back only for a name that starts with a star or goes on with `->`. -/
theorem swapNames_some (returned : swapNames orig.text orig.base.text add.text = some text) :
    finishSwap (orig.before.text ++ addText add ++ joinedText orig add) = some text ∧
      (orig.chain = [] → (∃ count, orig.before = .stars (count + 1)) ∧ add.before ≠ .address) ∧
      ∀ member rest, orig.chain = member :: rest → member.access = .arrow := by
  have dropBefore : orig.text.drop orig.before.text.length =
      orig.base.text ++ chainText orig.chain := drop_left
  have dropBase : orig.text.drop (orig.before.text.length + orig.base.text.length) =
      chainText orig.chain := by
    rw [← drop_drop, dropBefore, drop_left]
  have takeBefore : orig.text.take orig.before.text.length = orig.before.text := take_left
  have skip : orig.text.drop (orig.before.text.length + 2 + orig.base.text.length) =
      (chainText orig.chain).drop 2 := by
    rw [← dropBase, drop_drop]
    congr 1
    omega
  unfold swapNames at returned
  dsimp only at returned
  rw [addText_eq, takeWhile_opening, dropBase, takeBefore, skip] at returned
  unfold joinedText
  cases same : orig.chain with
  | nil =>
    rw [same, chainText_nil] at returned
    simp only [List.head?_nil, not_true_eq_false, false_and, if_false, and_true,
      if_true] at returned
    split_ifs at returned with long other ends
    obtain ⟨starred, plain⟩ := ends
    rw [append_nil] at returned
    refine ⟨returned, fun _ => ⟨head_star.mp starred, fun same => plain (head_address.mpr same)⟩,
      ?_⟩
    intro member rest cons
    cases cons
  | cons member rest =>
    rw [same, chainText_cons] at returned
    obtain ⟨access, name⟩ := member
    cases access with
    | dot =>
      exfalso
      simp only [Access.text, cons_append, List.head?_cons] at returned
      split_ifs at returned with long next
      all_goals simp_all
    | arrow =>
      simp only [Access.text, cons_append, List.head?_cons, reduceCtorEq,
        not_false_eq_true, ne_eq, not_true_eq_false, and_false, if_false, nil_append,
        drop_succ_cons, drop_zero] at returned
      split_ifs at returned with long other address
      · refine ⟨?_, ?_, ?_⟩
        · dsimp only
          rw [if_pos address, ← append_assoc]
          exact returned
        · intro none
          cases none
        · rintro other tail cons
          rw [← (List.cons.inj cons).1]
      · refine ⟨?_, ?_, ?_⟩
        · dsimp only
          rw [if_neg address, ← append_assoc]
          exact returned
        · intro none
          cases none
        · rintro other tail cons
          rw [← (List.cons.inj cons).1]

theorem text_take (name : StateName) : name.text.take 2 ≠ ['&', '*'] := by
  intro same
  obtain ⟨c, tail, letters, plain⟩ := name.base.head_plain
  have address : name.before = .address := by
    refine head_address.mp ?_
    have first := congrArg List.head? same
    rw [List.head?_take, if_neg (by decide)] at first
    exact first
  unfold StateName.text at same
  rw [address, letters] at same
  have second := (List.cons.inj (List.cons.inj same).2).1
  exact identChar_ne plain (by decide) second

theorem returned_text (returned : swapNames orig.text orig.base.text add.text = some text) :
    text = (swapped orig add).text := by
  obtain ⟨finished, ends, arrows⟩ := swapNames_some returned
  -- a buffer that is the text of a name is returned as it is
  have whole : orig.before.text ++ addText add ++ joinedText orig add = (swapped orig add).text →
      text = (swapped orig add).text := by
    intro same
    rw [same] at finished
    unfold finishSwap at finished
    rw [if_neg (text_take _)] at finished
    split_ifs at finished with long
    exact (Option.some.inj finished).symm
  have plainJoin : add.before ≠ .address → joinedText orig add = chainText orig.chain := by
    intro plain
    unfold joinedText
    cases same : orig.chain with
    | nil => rfl
    | cons member rest =>
      have arrow := arrows member rest same
      dsimp only
      rw [if_neg (fun both => plain (head_address.mp both.1)), chainText_cons, arrow]
      rfl
  cases same : add.before with
  | stars count =>
    have join := plainJoin (by rw [same]; exact Before.noConfusion)
    have aliased : addText add =
        List.replicate count '*' ++ (add.base.text ++ chainText add.chain) := by
      unfold addText StateName.text
      rw [same]
      rfl
    cases before : orig.before with
    | stars more =>
      refine whole ?_
      unfold swapped StateName.text
      rw [same, before, join, aliased]
      simp only [Before.text, replicate_add, append_assoc, chainText_append]
    | address =>
      cases count with
      | zero =>
        refine whole ?_
        unfold swapped StateName.text
        rw [same, before, join, aliased]
        simp [Before.text, chainText_append]
      | succ count =>
        unfold swapped StateName.text
        rw [before, join, aliased] at finished
        rw [same, before]
        unfold finishSwap at finished
        split_ifs at finished with long cut
        · rw [← Option.some.inj finished]
          simp [Before.text, replicate_succ, chainText_append]
        · exact absurd rfl cut
  | address =>
    refine whole ?_
    have aliased : addText add = add.base.text ++ chainText add.chain := by
      unfold addText
      rw [same]
    have addressed := head_address.mpr same
    unfold swapped StateName.text joinedText
    rw [same, aliased]
    cases chain : orig.chain with
    | nil => simp
    | cons member rest =>
      have arrow := arrows member rest chain
      by_cases starred : orig.text.head? = some '*'
      · obtain ⟨count, before⟩ := head_star.mp starred
        dsimp only
        rw [if_neg (fun both => both.2 starred), before]
        simp [joinMember, chainText_append, chainText_cons, arrow, Access.text]
      · dsimp only
        rw [if_pos ⟨addressed, starred⟩]
        have joint : joinMember orig.before member = ⟨.dot, member.name⟩ := by
          unfold joinMember
          split
          · rename_i count before
            exact absurd (head_star.mpr ⟨_, before⟩) starred
          · rfl
        simp [joint, chainText_append, chainText_cons, Access.text]

end Returned

section Sound

variable {α : Type} {memory : Memory α} {orig add : StateName}

theorem walk_append (place : α) (first second : List Member) :
    memory.walk place (first ++ second) = memory.walk (memory.walk place first) second :=
  foldl_append

theorem same_refl (meaning : Meaning α) : memory.Same meaning meaning := by
  cases meaning with
  | object place => rfl
  | value number => rfl

/-- Without a star or `&` that meets the members, the new name means the same. -/
theorem swapped_same
    (ends : orig.chain = [] → (∃ count, orig.before = .stars (count + 1)) ∧ add.before ≠ .address)
    (arrows : ∀ member rest, orig.chain = member :: rest → member.access = .arrow)
    (read : ¬ Misread orig add) (holds : memory.Alias orig.base add) :
    memory.Same (memory.meaning orig) (memory.meaning (swapped orig add)) := by
  obtain ⟨before, base, chain⟩ := orig
  obtain ⟨addBefore, addBase, addChain⟩ := add
  unfold Misread at read
  unfold Memory.Alias Memory.meaning Memory.place at holds
  dsimp only at ends arrows read holds
  cases chain with
  | nil =>
    obtain ⟨⟨more, rfl⟩, plain⟩ := ends rfl
    cases addBefore with
    | stars count =>
      change memory.load _ = memory.load (memory.load^[count] _) at holds
      unfold swapped Memory.meaning Memory.place
      dsimp only
      refine congrArg Meaning.object ?_
      rw [append_nil, Function.iterate_add_apply, Function.iterate_succ_apply,
        Function.iterate_succ_apply]
      exact congrArg memory.load^[more] holds.symm
    | address => exact absurd rfl plain
  | cons member rest =>
    have arrow := arrows member rest rfl
    obtain ⟨access, name⟩ := member
    cases arrow
    -- the members start at the place the alias points to
    have start : memory.walk (memory.location base) (⟨.arrow, name⟩ :: rest) =
        memory.walk (memory.field (memory.load (memory.location base)) name) rest := rfl
    cases addBefore with
    | stars count =>
      have none : count = 0 := by
        by_contra some
        exact read ⟨cons_ne_nil _ _, some⟩
      subst none
      change memory.load _ = memory.load _ at holds
      have places : memory.walk (memory.location addBase) (addChain ++ ⟨.arrow, name⟩ :: rest) =
          memory.walk (memory.location base) (⟨.arrow, name⟩ :: rest) := by
        rw [walk_append, start, holds]
        rfl
      unfold swapped Memory.meaning Memory.place
      cases before with
      | stars more => exact congrArg (fun place => Meaning.object (memory.load^[more] place)) places
      | address => exact places
    | address =>
      change memory.load _ = memory.walk _ _ at holds
      have dotted : memory.walk (memory.location addBase) (addChain ++ ⟨.dot, name⟩ :: rest) =
          memory.walk (memory.location base) (⟨.arrow, name⟩ :: rest) := by
        rw [walk_append, start, holds]
        rfl
      cases before with
      | stars more =>
        cases more with
        | zero => exact congrArg Meaning.object dotted
        | succ more =>
          have own : addBase = base ∧ addChain = [] := by
            by_contra other
            exact read ⟨cons_ne_nil _ _, ⟨more, rfl⟩, other⟩
          obtain ⟨rfl, rfl⟩ := own
          exact same_refl _
      | address => exact dotted

end Sound

section Unsound

/-- Following a pointer doubles a place, and a member adds one to its triple. -/
def scaled (foo : Ident) (start : ℚ) : Memory ℚ where
  location name := if name = foo then start else 1
  field place _ := 3 * place + 1
  load place := 2 * place

variable {foo : Ident} {start : ℚ} {orig add : StateName}

theorem scaled_iterate (count : Nat) (place : ℚ) :
    (scaled foo start).load^[count] place = 2 ^ count * place := by
  induction count generalizing place with
  | zero => rw [pow_zero, one_mul, Function.iterate_zero_apply]
  | succ count ih =>
    rw [Function.iterate_succ_apply, ih, pow_succ, mul_assoc]
    rfl

theorem walk_scaled (chain : List Member) :
    ∃ slope : ℤ, ∃ rise : ℚ, 0 < slope ∧ 0 ≤ rise ∧ (chain = [] → slope = 1) ∧
      (chain ≠ [] → 3 ∣ slope ∧ 0 < rise) ∧ ∀ (foo : Ident) (start place : ℚ),
        (scaled foo start).walk place chain = slope * place + rise := by
  induction chain with
  | nil =>
    refine ⟨1, 0, one_pos, le_refl 0, fun _ => rfl, fun some => absurd rfl some, ?_⟩
    intro foo start place
    rw [Int.cast_one, one_mul, add_zero]
    rfl
  | cons member rest ih =>
    obtain ⟨slope, rise, positive, nonneg, -, -, line⟩ := ih
    have less : (0 : ℚ) < slope := Int.cast_pos.mpr positive
    obtain ⟨access, name⟩ := member
    cases access with
    | arrow =>
      refine ⟨3 * (2 * slope), slope + rise, by omega, by linarith,
        fun none => absurd none (cons_ne_nil _ _),
        fun _ => ⟨dvd_mul_right _ _, by linarith⟩, ?_⟩
      intro foo start place
      change (scaled foo start).walk (3 * (2 * place) + 1) rest = _
      rw [line]
      push_cast
      ring
    | dot =>
      refine ⟨3 * slope, slope + rise, by omega, by linarith,
        fun none => absurd none (cons_ne_nil _ _),
        fun _ => ⟨dvd_mul_right _ _, by linarith⟩, ?_⟩
      intro foo start place
      change (scaled foo start).walk (3 * place + 1) rest = _
      rw [line]
      push_cast
      ring

theorem exists_start (foo base : Ident) (slope rise : ℚ) (other : slope ≠ 2) :
    ∃ start : ℚ, 2 * start = slope * (if base = foo then start else 1) + rise := by
  by_cases own : base = foo
  · refine ⟨rise / (2 - slope), ?_⟩
    have nonzero : 2 - slope ≠ 0 := sub_ne_zero.mpr other.symm
    rw [if_pos own]
    field_simp
    ring
  · refine ⟨(slope + rise) / 2, ?_⟩
    rw [if_neg own]
    ring

/-- The places of the name and of the new name lie on one line. -/
theorem exists_line (name : Ident) (rest : List Member) :
    ∃ slope rise : ℚ, 0 < slope ∧ 0 < rise ∧ ∀ (foo : Ident) (start place : ℚ),
      (scaled foo start).walk place (⟨.arrow, name⟩ :: rest) =
        slope * (scaled foo start).load place + rise := by
  obtain ⟨slope, rise, positive, -, -, some, line⟩ := walk_scaled (⟨.dot, name⟩ :: rest)
  refine ⟨slope, rise, Int.cast_pos.mpr positive, (some (cons_ne_nil _ _)).2, ?_⟩
  intro foo start place
  exact line foo start (2 * place)

theorem star_differs {name : Ident} {rest : List Member} {count : Nat}
    (chain : orig.chain = ⟨.arrow, name⟩ :: rest) (stars : add.before = .stars (count + 1)) :
    ∃ memory : Memory ℚ, memory.Alias orig.base add ∧
      ¬ memory.Same (memory.meaning orig) (memory.meaning (swapped orig add)) := by
  obtain ⟨slope, rise, -, -, -, -, addLine⟩ := walk_scaled add.chain
  obtain ⟨slope', rise', -, above, line⟩ := exists_line name rest
  have odd : (2 : ℚ) ^ (count + 2) * slope ≠ 2 := by
    intro same
    have whole : (2 : ℤ) ^ (count + 2) * slope = 2 := by exact_mod_cast same
    rw [pow_add] at whole
    generalize (2 : ℤ) ^ count = power at whole
    have four : power * 2 ^ 2 * slope = 4 * (power * slope) := by ring
    omega
  obtain ⟨start, holds⟩ := exists_start orig.base add.base (2 ^ (count + 2) * slope)
    (2 ^ (count + 2) * rise) odd
  refine ⟨scaled orig.base start, ?_, ?_⟩
  · unfold Memory.Alias Memory.meaning Memory.place Memory.valueOf
    rw [stars]
    dsimp only
    rw [scaled_iterate, addLine]
    change 2 * (if orig.base = orig.base then start else 1) =
      2 * (2 ^ (count + 1) * (slope * (if add.base = orig.base then start else 1) + rise))
    rw [if_pos rfl, holds]
    ring
  · intro same
    have more : (1 : ℚ) < 2 ^ (count + 1) := one_lt_pow₀ (by norm_num) (by omega)
    -- the places of the two names
    have place : (scaled orig.base start).place orig =
        slope' * (2 ^ (count + 2) * (slope * (if add.base = orig.base then start else 1) + rise)) +
          rise' := by
      unfold Memory.place
      rw [chain, line]
      change slope' * (2 * (if orig.base = orig.base then start else 1)) + rise' = _
      rw [if_pos rfl, holds]
      ring
    have place' : (scaled orig.base start).place (swapped orig add) =
        slope' * (2 * (slope * (if add.base = orig.base then start else 1) + rise)) + rise' := by
      unfold Memory.place swapped
      rw [stars]
      dsimp only
      rw [walk_append, addLine, chain, line]
      rfl
    have moved : (2 : ℚ) ^ (count + 1) * (scaled orig.base start).place (swapped orig add) =
        (scaled orig.base start).place orig → False := by
      intro equal
      rw [place, place', pow_succ 2 (count + 1)] at equal
      have shift : (2 ^ (count + 1) - 1) * rise' = 0 := by linear_combination equal
      exact (mul_pos (sub_pos.mpr more) above).ne' shift
    cases before : orig.before with
    | stars more =>
      have form : (swapped orig add).before = .stars (more + (count + 1)) := by
        unfold swapped
        rw [stars, before]
      unfold Memory.meaning Memory.Same at same
      rw [before, form] at same
      dsimp only at same
      injection same with same
      rw [scaled_iterate, scaled_iterate, pow_add, mul_assoc] at same
      exact moved (mul_left_cancel₀ (pow_ne_zero more two_ne_zero) same)
    | address =>
      have form : (swapped orig add).before = .stars count := by
        unfold swapped
        rw [stars, before]
        rfl
      unfold Memory.meaning Memory.Same Memory.valueOf at same
      rw [before, form] at same
      dsimp only at same
      rw [scaled_iterate] at same
      refine moved ?_
      rw [← same, pow_succ, mul_comm (2 ^ count), mul_assoc]
      rfl

/-- A star of the name takes the place of `&`, and the members stay behind `->`. -/
theorem address_differs {name : Ident} {rest : List Member} {count : Nat}
    (chain : orig.chain = ⟨.arrow, name⟩ :: rest) (address : add.before = .address)
    (stars : orig.before = .stars (count + 1)) (other : ¬ (add.base = orig.base ∧ add.chain = [])) :
    ∃ memory : Memory ℚ, memory.Alias orig.base add ∧
      ¬ memory.Same (memory.meaning orig) (memory.meaning (swapped orig add)) := by
  obtain ⟨slope, rise, positive, nonneg, none, some, addLine⟩ := walk_scaled add.chain
  obtain ⟨slope', rise', positive', -, line⟩ := exists_line name rest
  have two : (slope : ℚ) ≠ 2 := by
    intro same
    have whole : slope = 2 := by exact_mod_cast same
    by_cases empty : add.chain = []
    · have one := none empty
      omega
    · have three := (some empty).1
      omega
  obtain ⟨start, holds⟩ := exists_start orig.base add.base slope rise two
  have nonzero : (slope : ℚ) * (if add.base = orig.base then start else 1) + rise ≠ 0 := by
    have less : (0 : ℚ) < slope := Int.cast_pos.mpr positive
    intro zero
    by_cases own : add.base = orig.base
    · have members : add.chain ≠ [] := fun empty => other ⟨own, empty⟩
      have above := (some members).2
      rw [zero] at holds
      rw [if_pos own] at zero
      have origin : start = 0 := by linarith
      rw [origin, mul_zero, zero_add] at zero
      exact above.ne' zero
    · rw [if_neg own] at zero
      linarith
  refine ⟨scaled orig.base start, ?_, ?_⟩
  · unfold Memory.Alias Memory.meaning Memory.place Memory.valueOf
    rw [address]
    dsimp only
    rw [addLine]
    change 2 * (if orig.base = orig.base then start else 1) = _
    rw [if_pos rfl, holds]
    rfl
  · intro same
    have place : (scaled orig.base start).place orig =
        slope' * (slope * (if add.base = orig.base then start else 1) + rise) + rise' := by
      unfold Memory.place
      rw [chain, line]
      change slope' * (2 * (if orig.base = orig.base then start else 1)) + rise' = _
      rw [if_pos rfl, holds]
    have place' : (scaled orig.base start).place (swapped orig add) =
        slope' * (2 * (slope * (if add.base = orig.base then start else 1) + rise)) + rise' := by
      unfold Memory.place swapped joinMember
      rw [address, chain, stars]
      dsimp only
      rw [walk_append, addLine, line]
      rfl
    have form : (swapped orig add).before = .stars (count + 1) := by
      unfold swapped
      rw [address, stars]
    unfold Memory.meaning Memory.Same at same
    rw [stars, form] at same
    dsimp only at same
    injection same with same
    rw [scaled_iterate, scaled_iterate] at same
    have equal := mul_left_cancel₀ (pow_ne_zero (count + 1) two_ne_zero) same
    rw [place, place'] at equal
    have origin : slope' *
        ((slope : ℚ) * (if add.base = orig.base then start else 1) + rise) = 0 := by linarith
    exact mul_ne_zero positive'.ne' nonzero origin

end Unsound

/-! ## The result -/

theorem not_denotes {orig add : StateName} {text : List Char}
    (returned : swapNames orig.text orig.base.text add.text = some text)
    (differs : ∃ memory : Memory ℚ, memory.Alias orig.base add ∧
      ¬ memory.Same (memory.meaning orig) (memory.meaning (swapped orig add))) :
    ¬ Denotes orig add text := by
  rintro ⟨name, read, means⟩
  obtain ⟨memory, holds, wrong⟩ := differs
  have reading : name = swapped orig add :=
    StateName.text_injective (read.trans (returned_text returned))
  exact wrong (reading ▸ means ℚ memory holds)

/-- A name that comes back denotes what the old one does exactly when no star or `&` of the alias
is misread. -/
theorem swapNames_denotes_iff (orig add : StateName) (text : List Char)
    (returned : swapNames orig.text orig.base.text add.text = some text) :
    Denotes orig add text ↔ ¬ Misread orig add := by
  obtain ⟨-, ends, arrows⟩ := swapNames_some returned
  constructor
  · rintro denotes ⟨members, wrong⟩
    refine not_denotes returned ?_ denotes
    obtain ⟨⟨access, member⟩, rest, chain⟩ := exists_cons_of_ne_nil members
    have arrow := arrows _ _ chain
    cases arrow
    cases before : add.before with
    | stars count =>
      rw [before] at wrong
      obtain ⟨more, rfl⟩ := Nat.exists_eq_succ_of_ne_zero wrong
      exact star_differs chain before
    | address =>
      rw [before] at wrong
      obtain ⟨⟨count, stars⟩, other⟩ := wrong
      exact address_differs chain before stars other
  · intro read
    exact ⟨swapped orig add, (returned_text returned).symm,
      fun α memory holds => swapped_same ends arrows read holds⟩

/-- The theorem for `f->m` where `f = &x`. -/
theorem swapNames_denotes_iff_address :
    Denotes ⟨.stars 0, .letter 'f' rfl, [⟨.arrow, .letter 'm' rfl⟩]⟩
        ⟨.address, .letter 'x' rfl, []⟩ ['x', '.', 'm'] ↔
      ¬ Misread ⟨.stars 0, .letter 'f' rfl, [⟨.arrow, .letter 'm' rfl⟩]⟩
        ⟨.address, .letter 'x' rfl, []⟩ :=
  swapNames_denotes_iff _ _ _ (by decide)

/-- `f->m` where `f = *y` becomes `*y->m`, a star of the member, and `*f->m` where `f = &x` becomes
`*x->m`. -/
theorem swapNames_misreads :
    (swapNames "f->m".toList "f".toList "*y".toList = some "*y->m".toList ∧
      ¬ Denotes ⟨.stars 0, .letter 'f' rfl, [⟨.arrow, .letter 'm' rfl⟩]⟩
        ⟨.stars 1, .letter 'y' rfl, []⟩ "*y->m".toList) ∧
    swapNames "*f->m".toList "f".toList "&x".toList = some "*x->m".toList ∧
      ¬ Denotes ⟨.stars 1, .letter 'f' rfl, [⟨.arrow, .letter 'm' rfl⟩]⟩
        ⟨.address, .letter 'x' rfl, []⟩ "*x->m".toList := by
  refine ⟨⟨by decide, ?_⟩, by decide, ?_⟩
  · exact not_denotes (by decide) (star_differs rfl rfl)
  · exact not_denotes (by decide) (address_differs rfl rfl rfl (by decide))

end SmatchFormal.Params
