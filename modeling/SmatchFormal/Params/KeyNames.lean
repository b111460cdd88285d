import SmatchFormal.Params.Names

/-!
# Keys of parameters

`state_name_to_param_name` writes the name of a state below a parameter with `$` for the parameter,
and `get_variable_from_key` puts the argument of a call in the place of the `$`.
-/

namespace SmatchFormal.Params

open List

/-- `snprintf` into a buffer of 256 bytes, where a text that does not fit is given up. -/
def print256 (text : List Char) : Option (List Char) :=
  if text.length ≥ 256 then none else some text

/-- The loop over the stars and the test for `&` at the start of both functions. -/
def splitLead (text : List Char) : Nat × Bool × List Char :=
  let starCnt := (text.takeWhile fun c => c == '*').length
  let rest := text.dropWhile fun c => c == '*'
  if rest.head? = some '&' then (starCnt, true, rest.tail) else (starCnt, false, rest)

def leadText (starCnt : Nat) (address : Bool) : List Char :=
  (if address then ['&'] else []) ++ List.replicate (min starCnt 10) '*'

def stateNameToParamName (stateName paramName : List Char) : Option (List Char) :=
  if ['<', '~', '$'] <:+: stateName then some stateName
  else if "r netdev_priv($)".toList <:+: stateName then some stateName
  else
    let nameLen := paramName.length
    let (starCnt, address, stateName) := splitLead stateName
    if starCnt > 10 then none
    else if stateName.take 2 = ['(', '*'] ∧ (stateName.drop 2).take nameLen = paramName ∧
        stateName[nameLen + 2]? = some ')' then
      print256 (leadText starCnt address ++ ['(', '*', '$', ')'] ++ stateName.drop (nameLen + 3))
    else if stateName = paramName then some (leadText starCnt address ++ ['$'])
    else if stateName.take nameLen = paramName ∧ stateName[nameLen]? = some '-' then
      print256 (leadText starCnt address ++ ['$'] ++ stateName.drop nameLen)
    else none

/-- What is read of an argument: the result of `expr_to_var_sym`, `is_struct_ptr` of its type, and
the operand of an `&`. -/
inductive Arg
  | addressOf (var : Option (List Char)) (structPtr : Bool) (unop : Arg)
  | other (var : Option (List Char)) (structPtr : Bool)

def Arg.var : Arg → Option (List Char)
  | .addressOf var _ _ => var
  | .other var _ => var

def variableFromSimplerKey (arg : Arg) (key : List Char) : Option (List Char) :=
  let (starCnt, address, key) := splitLead key
  let (arg, starCnt) : Arg × Nat :=
    match arg with
    | .addressOf var structPtr unop =>
      if starCnt ≠ 0 ∧ ¬ structPtr then (unop, starCnt - 1)
      else (.addressOf var structPtr unop, starCnt)
    | .other var structPtr => (.other var structPtr, starCnt)
  match arg with
  | .addressOf _ _ unop =>
    unop.var.bind fun tmp => print256 (leadText starCnt address ++ tmp ++ ['.'] ++ key.drop 3)
  | .other var _ =>
    var.bind fun tmp => print256 (leadText starCnt address ++ tmp ++ key.drop 1)

section Keys

-- `map_container_of_to_simpler_expr_key` and `map_netdev_priv_to_simpler_expr_key`
variable (mapContainerOf mapNetdevPriv : Arg → List Char → Option (Arg × List Char))

def getVariableFromKey (arg : Arg) (key : List Char) : Option (List Char) :=
  if key = ['$'] then arg.var
  else if key = ['*', '$'] then
    match arg with
    | .addressOf _ _ unop => unop.var
    | .other var _ => var.bind fun tmp => print256 ('*' :: tmp)
  else if key.take 4 = ['(', '*', '$', ')'] then
    match arg with
    | .addressOf _ _ unop => getVariableFromKey unop (('$' :: key.drop 4).take 255)
    | .other var _ => var.bind fun tmp => print256 (['(', '*'] ++ tmp ++ [')'] ++ key.drop 4)
  else do
    let (arg, key) ← if ['<', '~', '$'] <:+: key then mapContainerOf arg key else some (arg, key)
    let (arg, key) ←
      if "(r netdev_priv($))".toList <:+: key then mapNetdevPriv arg key else some (arg, key)
    variableFromSimplerKey arg key

end Keys

/-- A path below a variable: stars or `&`, the variable or `(*variable)`, and members. -/
structure AccessPath where
  before : Before
  pointed : Bool
  chain : List Member

def rootText (pointed : Bool) (root : List Char) : List Char :=
  if pointed then ['(', '*'] ++ root ++ [')'] else root

def AccessPath.spell (path : AccessPath) (root : List Char) : List Char :=
  path.before.text ++ (rootText path.pointed root ++ chainText path.chain)

def Before.starCnt : Before → Nat
  | .stars count => count
  | .address => 0

def Before.isAddress : Before → Bool
  | .stars _ => false
  | .address => true

theorem splitLead_before (before : Before) {c : Char} (tail : List Char) (star : c ≠ '*')
    (address : c ≠ '&') :
    splitLead (before.text ++ c :: tail) = (before.starCnt, before.isAddress, c :: tail) := by
  have other : (c == '*') = false := beq_eq_false_iff_ne.mpr star
  unfold splitLead
  cases before with
  | stars count =>
    have run : ∀ d ∈ (Before.stars count).text, (d == '*') = true := by
      intro d member
      rw [(mem_replicate.mp member).2]
      rfl
    dsimp only
    rw [takeWhile_append_of_pos run, dropWhile_append_of_pos run,
      takeWhile_cons_of_neg (by rw [other]; exact Bool.false_ne_true),
      dropWhile_cons_of_neg (by rw [other]; exact Bool.false_ne_true), append_nil,
      List.head?_cons, if_neg (fun same => address (Option.some.inj same))]
    unfold Before.text
    rw [length_replicate]
    rfl
  | address => rfl

theorem leadText_before {before : Before} (few : before.starCnt ≤ 10) :
    leadText before.starCnt before.isAddress = before.text := by
  unfold leadText
  rw [Nat.min_eq_left few]
  cases before with
  | stars count => rfl
  | address => rfl

theorem mem_spell {path : AccessPath} {root : List Char} {c : Char}
    (member : c ∈ path.spell root) :
    identChar c = true ∨ c ∈ ['*', '&', '(', ')', '-', '>', '.'] ∨ c ∈ root := by
  unfold AccessPath.spell at member
  rcases mem_append.mp member with lead | member
  · unfold Before.text at lead
    split at lead
    · rw [(mem_replicate.mp lead).2]
      exact Or.inr (Or.inl (by decide))
    · rw [mem_singleton.mp lead]
      exact Or.inr (Or.inl (by decide))
  rcases mem_append.mp member with inside | members
  · unfold rootText at inside
    split_ifs at inside
    · simp only [mem_append, mem_cons, not_mem_nil, or_false] at inside
      rcases inside with ((rfl | rfl) | inside) | rfl
      · exact Or.inr (Or.inl (by decide))
      · exact Or.inr (Or.inl (by decide))
      · exact Or.inr (Or.inr inside)
      · exact Or.inr (Or.inl (by decide))
    · exact Or.inr (Or.inr inside)
  · obtain ⟨⟨access, name⟩, -, letter⟩ := mem_flatMap.mp members
    rcases mem_append.mp letter with sign | letter
    · cases access with
      | arrow =>
        rcases mem_pair.mp sign with rfl | rfl
        · exact Or.inr (Or.inl (by decide))
        · exact Or.inr (Or.inl (by decide))
      | dot =>
        rw [mem_singleton.mp sign]
        exact Or.inr (Or.inl (by decide))
    · exact Or.inl (name.plain c letter)

theorem spell_special {path : AccessPath} {root : List Char} (less : '<' ∉ root)
    (space : ' ' ∉ root) :
    ¬ ['<', '~', '$'] <:+: path.spell root ∧
      ¬ "r netdev_priv($)".toList <:+: path.spell root ∧
      ¬ "(r netdev_priv($))".toList <:+: path.spell root := by
  have inside : ∀ {c : Char} {needle : List Char}, c ∈ needle → identChar c = false →
      c ∉ ['*', '&', '(', ')', '-', '>', '.'] → c ∉ root → ¬ needle <:+: path.spell root := by
    intro c needle member plain other outside found
    rcases mem_spell (found.subset member) with letter | sign | root
    · rw [plain] at letter
      cases letter
    · exact other sign
    · exact outside root
  exact ⟨inside (c := '<') (by decide) rfl (by decide) less,
    inside (c := ' ') (by decide) rfl (by decide) space,
    inside (c := ' ') (by decide) rfl (by decide) space⟩

theorem splitLead_spell {path : AccessPath} {root tail : List Char} {c : Char}
    (head : root = c :: tail) (star : c ≠ '*') (address : c ≠ '&') :
    splitLead (path.spell root) = (path.before.starCnt, path.before.isAddress,
      rootText path.pointed root ++ chainText path.chain) := by
  unfold AccessPath.spell rootText
  split_ifs
  · exact splitLead_before _ _ (by decide) (by decide)
  · rw [head]
    exact splitLead_before _ _ star address

theorem print256_some {text result : List Char} (printed : print256 text = some result) :
    result = text := by
  unfold print256 at printed
  split_ifs at printed
  exact (Option.some.inj printed).symm

theorem stateName_key {path : AccessPath} {base : Ident} {key : List Char}
    (written : stateNameToParamName (path.spell base.text) base.text = some key) :
    key = path.spell ['$'] ∧ path.before.starCnt ≤ 10 := by
  obtain ⟨c, tail, text, plain⟩ := base.head_plain
  have outside : ∀ {d : Char}, identChar d = false → d ∉ base.text := by
    intro d other member
    exact identChar_ne (base.plain d member) other rfl
  obtain ⟨container, netdev, -⟩ := @spell_special path base.text (outside rfl) (outside rfl)
  unfold stateNameToParamName at written
  rw [if_neg container, if_neg netdev, splitLead_spell text (identChar_ne plain rfl)
    (identChar_ne plain rfl)] at written
  dsimp only at written
  by_cases many : path.before.starCnt > 10
  · rw [if_pos many] at written
    cases written
  rw [if_neg many] at written
  have few : path.before.starCnt ≤ 10 := not_lt.mp many
  refine ⟨?_, few⟩
  rw [leadText_before few] at written
  unfold AccessPath.spell
  cases pointed : path.pointed with
  | true =>
    have shape : rootText true base.text ++ chainText path.chain =
        '(' :: '*' :: (base.text ++ ')' :: chainText path.chain) := by
      simp [rootText]
    rw [pointed, shape, if_pos] at written
    · rw [print256_some written]
      have rest : ('(' :: '*' :: (base.text ++ ')' :: chainText path.chain)).drop
          (base.text.length + 3) = chainText path.chain := by
        simp [drop_append]
      rw [rest]
      simp [rootText]
    · refine ⟨rfl, by simp, by simp⟩
  | false =>
    have shape : rootText false base.text ++ chainText path.chain =
        base.text ++ chainText path.chain := rfl
    rw [pointed, shape, if_neg] at written
    · by_cases whole : base.text ++ chainText path.chain = base.text
      · rw [if_pos whole] at written
        have empty : chainText path.chain = [] := append_right_eq_self.mp whole
        rw [← Option.some.inj written, empty]
        simp [rootText]
      · rw [if_neg whole] at written
        split_ifs at written
        rw [print256_some written, drop_left]
        simp [rootText]
    · rintro ⟨start, -⟩
      rw [text, cons_append] at start
      exact identChar_ne plain rfl (List.cons.inj start).1

section Reading

variable {mapContainerOf mapNetdevPriv : Arg → List Char → Option (Arg × List Char)}
  {path : AccessPath} {var : List Char} {ptr : Bool}

theorem getVariable_simpler (arg : Arg) (special : path.spell ['$'] ≠ ['$'])
    (star : path.spell ['$'] ≠ ['*', '$'])
    (pointed : (path.spell ['$']).take 4 ≠ ['(', '*', '$', ')']) :
    getVariableFromKey mapContainerOf mapNetdevPriv arg (path.spell ['$']) =
      variableFromSimplerKey arg (path.spell ['$']) := by
  obtain ⟨container, -, netdev⟩ := @spell_special path ['$'] (by decide) (by decide)
  unfold getVariableFromKey
  rw [if_neg special, if_neg star, if_neg pointed, if_neg container]
  simp only [Option.bind_eq_bind, Option.bind_some]
  rw [if_neg netdev]

/-- A plain variable takes the place of what stands behind the stars or `&`. -/
theorem simpler_other (few : path.before.starCnt ≤ 10) :
    variableFromSimplerKey (.other (some var) ptr) (path.spell ['$']) =
      print256 (path.before.text ++ var ++
        (rootText path.pointed ['$'] ++ chainText path.chain).drop 1) := by
  unfold variableFromSimplerKey
  rw [splitLead_spell rfl (by decide) (by decide)]
  dsimp only
  rw [leadText_before few]
  rfl

theorem print256_fits {text : List Char} (fits : text.length < 256) : print256 text = some text :=
  if_neg (by omega)

/-- A path that starts at the parameter is read below the variable. -/
theorem getVariable_root (few : path.before.starCnt ≤ 10) (pointed : path.pointed = false)
    (fits : (path.spell var).length < 256) :
    getVariableFromKey mapContainerOf mapNetdevPriv (.other (some var) ptr) (path.spell ['$']) =
      some (path.spell var) := by
  have shape : ∀ root, path.spell root =
      path.before.text ++ (root ++ chainText path.chain) := by
    intro root
    unfold AccessPath.spell
    rw [pointed]
    rfl
  by_cases special : path.spell ['$'] = ['$']
  · have sizes := congrArg List.length special
    rw [shape] at sizes
    simp only [length_append, length_cons, length_nil] at sizes
    have noLead : path.before.text = [] := length_eq_zero_iff.mp (by omega)
    have noChain : chainText path.chain = [] := length_eq_zero_iff.mp (by omega)
    unfold getVariableFromKey
    rw [if_pos special, shape, noLead, noChain, append_nil]
    rfl
  by_cases star : path.spell ['$'] = ['*', '$']
  · have letters := star
    rw [shape] at letters
    have lead : path.before.text = ['*'] ∧ chainText path.chain = [] := by
      cases before : path.before.text with
      | nil =>
        rw [before] at letters
        exact absurd (List.cons.inj letters).1 (by decide)
      | cons c tail =>
        rw [before, cons_append] at letters
        obtain ⟨first, rest⟩ := List.cons.inj letters
        have sizes := congrArg List.length rest
        simp only [length_append, length_cons, length_nil] at sizes
        have noTail : tail = [] := length_eq_zero_iff.mp (by omega)
        exact ⟨by rw [first, noTail], length_eq_zero_iff.mp (by omega)⟩
    have printed := print256_fits fits
    rw [shape, lead.1, lead.2, append_nil] at printed
    unfold getVariableFromKey
    rw [if_neg special, if_pos star, shape, lead.1, lead.2, append_nil]
    exact printed
  rw [getVariable_simpler _ special star, simpler_other few, pointed]
  · have printed := print256_fits fits
    rw [shape, ← append_assoc] at printed
    rw [shape, ← append_assoc]
    exact printed
  · intro start
    rw [shape] at start
    cases before : path.before with
    | stars count =>
      rw [before] at start
      cases count with
      | zero => exact absurd (List.cons.inj start).1 (by decide)
      | succ count => exact absurd (List.cons.inj start).1 (by decide)
    | address =>
      rw [before] at start
      exact absurd (List.cons.inj start).1 (by decide)

/-- The star in parentheses is read when nothing stands before it. -/
theorem getVariable_pointed (pointed : path.pointed = true) (plain : path.before = .stars 0)
    (fits : (path.spell var).length < 256) :
    getVariableFromKey mapContainerOf mapNetdevPriv (.other (some var) ptr) (path.spell ['$']) =
      some (path.spell var) := by
  have shape : ∀ root, path.spell root = '(' :: '*' :: (root ++ ')' :: chainText path.chain) := by
    intro root
    unfold AccessPath.spell
    rw [pointed, plain]
    simp [rootText, Before.text]
  have printed := print256_fits fits
  rw [shape] at printed
  unfold getVariableFromKey
  have start : ('(' :: '*' :: (['$'] ++ ')' :: chainText path.chain)).take 4 =
      ['(', '*', '$', ')'] := rfl
  rw [shape, shape, if_neg, if_neg, if_pos start]
  · dsimp only [Option.bind_some]
    rw [← printed]
    simp
  · intro same
    exact absurd (List.cons.inj same).1 (by decide)
  · intro same
    exact absurd (List.cons.inj same).1 (by decide)

theorem getVariable_broken (few : path.before.starCnt ≤ 10) (pointed : path.pointed = true)
    (lead : path.before ≠ .stars 0) (v : Ident) :
    getVariableFromKey mapContainerOf mapNetdevPriv (.other (some v.text) ptr)
      (path.spell ['$']) ≠ some (path.spell v.text) := by
  obtain ⟨c, tail, text, plain⟩ := v.head_plain
  have shape : ∀ root, path.spell root =
      path.before.text ++ '(' :: '*' :: (root ++ ')' :: chainText path.chain) := by
    intro root
    unfold AccessPath.spell
    rw [pointed]
    simp [rootText]
  have start : ∃ d rest, path.before.text = d :: rest ∧ d ≠ '(' ∧ d ≠ '$' := by
    cases before : path.before with
    | stars count =>
      cases count with
      | zero => exact absurd before lead
      | succ count => exact ⟨'*', List.replicate count '*', rfl, by decide, by decide⟩
    | address => exact ⟨'&', [], rfl, by decide, by decide⟩
  obtain ⟨d, rest, before, parenthesis, dollar⟩ := start
  rw [getVariable_simpler, simpler_other few, pointed]
  · intro read
    have same := @print256_some _ (path.spell v.text) read
    rw [shape, append_assoc] at same
    have behind := append_cancel_left same
    rw [text, cons_append] at behind
    exact identChar_ne plain rfl (List.cons.inj behind).1.symm
  · rw [shape, before]
    intro same
    exact dollar (List.cons.inj same).1
  · rw [shape]
    intro same
    have sizes := congrArg List.length same
    simp only [length_append, length_cons, length_nil] at sizes
    omega
  · rw [shape, before]
    intro same
    exact parenthesis (List.cons.inj same).1

theorem getVariable_address {name : Ident} {rest : List Member} {of : Option (List Char)}
    (few : path.before.starCnt ≤ 10) (pointed : path.pointed = false)
    (chain : path.chain = ⟨.arrow, name⟩ :: rest)
    (fits : (path.before.text ++ var ++ ['.'] ++ (name.text ++ chainText rest)).length < 256) :
    getVariableFromKey mapContainerOf mapNetdevPriv (.addressOf of true (.other (some var) ptr))
        (path.spell ['$']) =
      some (path.before.text ++ var ++ ['.'] ++ (name.text ++ chainText rest)) := by
  have shape : path.spell ['$'] =
      path.before.text ++ '$' :: '-' :: '>' :: (name.text ++ chainText rest) := by
    unfold AccessPath.spell
    rw [pointed, chain, chainText_cons]
    rfl
  have size : (path.spell ['$']).length ≥ 3 := by
    rw [shape]
    simp only [length_append, length_cons]
    omega
  rw [getVariable_simpler]
  · unfold variableFromSimplerKey
    rw [splitLead_spell rfl (by decide) (by decide)]
    dsimp only
    rw [if_neg (fun both => both.2 rfl)]
    dsimp only [Arg.var, Option.bind_some]
    rw [leadText_before few, pointed, chain, chainText_cons]
    exact print256_fits fits
  · intro same
    rw [same] at size
    simp at size
  · intro same
    rw [same] at size
    simp at size
  · intro start
    rw [shape] at start
    cases before : path.before with
    | stars count =>
      rw [before] at start
      cases count with
      | zero => exact absurd (List.cons.inj start).1 (by decide)
      | succ count => exact absurd (List.cons.inj start).1 (by decide)
    | address =>
      rw [before] at start
      exact absurd (List.cons.inj start).1 (by decide)

end Reading

/-- A key is read as the path below the argument exactly when nothing stands before a star in
parentheses, and below the address of a struct always. -/
theorem getVariableFromKey_iff
    (mapContainerOf mapNetdevPriv : Arg → List Char → Option (Arg × List Char))
    (path : AccessPath) (base : Ident) (key : List Char)
    (written : stateNameToParamName (path.spell base.text) base.text = some key) :
    (∀ (v : Ident) (ptr : Bool), (path.spell v.text).length < 256 →
      (getVariableFromKey mapContainerOf mapNetdevPriv (.other (some v.text) ptr) key =
          some (path.spell v.text) ↔
        (path.pointed = true → path.before = .stars 0))) ∧
    ∀ (var : List Char) (of : Option (List Char)) (ptr : Bool) (name : Ident)
      (rest : List Member), path.pointed = false → path.chain = ⟨.arrow, name⟩ :: rest →
      (path.before.text ++ var ++ ['.'] ++ (name.text ++ chainText rest)).length < 256 →
      getVariableFromKey mapContainerOf mapNetdevPriv (.addressOf of true (.other (some var) ptr))
          key =
        some (path.before.text ++ var ++ ['.'] ++ (name.text ++ chainText rest)) := by
  obtain ⟨rfl, few⟩ := stateName_key written
  constructor
  · intro v ptr fits
    cases pointed : path.pointed with
    | false => exact iff_of_true (getVariable_root few pointed fits) (fun wrong => by cases wrong)
    | true =>
      constructor
      · intro read _
        by_contra lead
        exact getVariable_broken few pointed lead v read
      · intro plain
        exact getVariable_pointed pointed (plain rfl) fits
  · intro var of ptr name rest pointed chain fits
    exact getVariable_address few pointed chain fits

/-- The theorem for `*p->m`, read for `v` and for `&x`. -/
theorem getVariableFromKey_iff_member :
    (getVariableFromKey (fun _ _ => none) (fun _ _ => none) (.other (some ['v']) true)
        "*$->m".toList = some "*v->m".toList ↔
      (false = true → Before.stars 1 = .stars 0)) ∧
    getVariableFromKey (fun _ _ => none) (fun _ _ => none)
      (.addressOf none true (.other (some ['x']) false)) "*$->m".toList =
        some "*x.m".toList := by
  have both := getVariableFromKey_iff (fun _ _ => none) (fun _ _ => none)
    ⟨.stars 1, false, [⟨.arrow, .letter 'm' rfl⟩]⟩ (.letter 'p' rfl) "*$->m".toList (by decide)
  exact ⟨both.1 (.letter 'v' rfl) true (by decide),
    both.2 ['x'] none false (.letter 'm' rfl) [] rfl rfl (by decide)⟩

/-- `*(*p)->m` is written as a key that is read with half of its parentheses. -/
theorem getVariableFromKey_unbalanced :
    (AccessPath.mk (.stars 1) true [⟨.arrow, .letter 'm' rfl⟩]).spell ['v'] =
        "*(*v)->m".toList ∧
      stateNameToParamName "*(*p)->m".toList "p".toList = some "*(*$)->m".toList ∧
      getVariableFromKey (fun _ _ => none) (fun _ _ => none) (.other (some "v".toList) true)
        "*(*$)->m".toList = some "*v*$)->m".toList := by
  decide

end SmatchFormal.Params
