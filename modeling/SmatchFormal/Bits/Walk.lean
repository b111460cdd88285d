import SmatchFormal.Bits.Info

/-!
# Bits along the paths of a function

The hooks of `smatch_bits.c` walk a function with one pair of bits for each variable.  What
`smatch_extra` knows is a parameter of every place of the function; an execution is one where
this knowledge is right and where no value is negative.  At an assignment the hook of
`smatch_extra` comes first, so that its knowledge is about the new value of the variable.
-/

namespace SmatchFormal.Bits

open SmatchFormal.Ranges SmatchFormal.Extra SmatchFormal.RangeMath Function

/-! ## The code -/

inductive BitOp where
  | and | or
deriving DecidableEq

def BitOp.info : BitOp → Option BitInfo → Option BitInfo → BitInfo
  | .and => binfoAND
  | .or => binfoOR

def BitOp.eval : BitOp → BitVec 64 → BitVec 64 → BitVec 64
  | .and => (· &&& ·)
  | .or => (· ||| ·)

/-- The expressions `get_bit_info` looks into; `other` is any expression it does not, with the
variables that it reads. -/
inductive Expr where
  | sym (name : String) (type : Ctype)
  | binop (op : BitOp) (left right : Expr)
  | leftShift (left right : Expr)
  | other (id : Nat) (type : Option Ctype) (reads : List String)
deriving DecidableEq

def Expr.reads : Expr → List String
  | .sym name _ => [name]
  | .binop _ left right | .leftShift left right => left.reads ++ right.reads
  | .other _ _ reads => reads

/-- `get_binop_type` for two integers.  Its last two tests are about `long` and `int` and do
not change the result where `long` is wider. -/
def getBinopType (left right : Ctype) : Ctype :=
  if typePositiveBits left < 31 ∧ typePositiveBits right < 31 then intCtype
  else if typePositiveBits left > typePositiveBits right then left
  else right

def getType : Expr → Option Ctype
  | .sym _ type => some type
  | .binop _ left right =>
    (getType left).bind fun left => (getType right).map (getBinopType left)
  | .leftShift left _ =>
    (getType left).map fun left => if typePositiveBits left < 31 then intCtype else left
  | .other _ type _ => type

/-- The answers of `smatch_extra` at one place: `get_value`, `get_implied_value` and
`get_implied_rl`. -/
structure Knowledge where
  constant : Expr → Option Sval
  value : Expr → Option Sval
  rl : Expr → Option RangeList

abbrev States := String → Option BitInfo

section Info

variable (know : Knowledge) (states : States)

def bitInfoOf (expr : Expr) (bstate binop : Option BitInfo) : BitInfo :=
  match know.value expr with
  | some known => ⟨known.raw, known.raw⟩
  | none =>
    binop.getD (combineBitInfo
      (((know.rl expr).map rlToBinfo).getD (unknownBitInfo (getType expr)))
      (bstate.getD (unknownBitInfo (getType expr))))

/-- `get_bit_info` with `handle_binop`.  Only a variable has a state. -/
def getBitInfo : Expr → BitInfo
  | .sym name type => bitInfoOf know (.sym name type) (states name) none
  | .binop op left right =>
    bitInfoOf know (.binop op left right) none
      (some (op.info (some (getBitInfo left)) (some (getBitInfo right))))
  | .leftShift left right =>
    bitInfoOf know (.leftShift left right) none
      ((getType left).bind fun type =>
        (know.value right).map (shiftBinfo (some type) (getBitInfo left)))
  | .other id type reads => bitInfoOf know (.other id type reads) none none

end Info

def States.update (states : States) (name : String) (info : BitInfo) : States :=
  fun other => if other = name then some info else states other

/-- `match_assign`, for `=` and for `&=` and `|=`, which `handled_by_assign_hook` takes. -/
def matchAssign (know : Knowledge) (states : States) (op : Option BitOp) (name : String)
    (type : Ctype) (right : Expr) : States :=
  let binfo := getBitInfo know states right
  let start := getBitInfo know states (.sym name type)
  let new := maskBinfo (some type) <| match op with
    | none => binfo
    | some op => op.info (some start) (some binfo)
  if isUnknownBinfo (some type) new && (states name).isNone then states
  else states.update name new

/-- `match_modify` for a change the assignment hook does not handle.  It is called for a variable
that has a state. -/
def matchModify (states : States) (name : String) : States :=
  if (states name).isSome then states.update name ⟨0, BitVec.allOnes 64⟩ else states

/-- A condition without `&&`, `||` and `!`.  In one that is not about a variable there is no state
to set, and it counts as `other`. -/
inductive Condition where
  | test (name : String) (type : Ctype) (right : Expr)
  | compare (equal : Bool) (name : String) (type : Ctype) (right : Expr)
  | other (id : Nat)
deriving DecidableEq

/-- `match_condition` and `match_compare`: the states on the given side of the condition. -/
def matchCondition (know : Knowledge) (states : States) (side : Bool) : Condition → States
  | .test name type right =>
    match know.constant right with
    | none => states
    | some sval =>
      let orig := getBitInfo know states (.sym name type)
      states.update name <|
        if side then
          if svalIsPowerOfTwo sval && orig.possible &&& sval.raw != 0 then
            ⟨orig.set ||| sval.raw, orig.possible⟩
          else orig
        else ⟨orig.set, orig.possible &&& ~~~sval.raw⟩
  | .compare equal name _ right =>
    match know.value right with
    | none => states
    | some sval => if side = equal then states.update name ⟨sval.raw, sval.raw⟩ else states
  | .other _ => states

/-- `unmatched_state`, from the range list `smatch_extra` has in the branch without bits.  Without
one the type is `NULL` or `long long`. -/
def unmatchedState (rl : Option RangeList) : BitInfo :=
  (rl.map rlToBinfo).getD (unknownBitInfo none)

/-- The merge of two branches.  A variable with a state in one of them gets one in the other. -/
def mergeStates (oneExtra twoExtra : String → Option RangeList) (one two : States) : States :=
  fun name =>
    if (one name).isNone && (two name).isNone then none
    else some (mergeBstates ((one name).getD (unmatchedState (oneExtra name)))
      ((two name).getD (unmatchedState (twoExtra name))))

/-- A function body without loops, with what `smatch_extra` knows where a hook asks for it. -/
inductive Stmt where
  | skip
  | assign (know : Knowledge) (op : Option BitOp) (name : String) (type : Ctype) (right : Expr)
  | modify (name : String)
  | seq (first second : Stmt)
  | branch (know : Knowledge) (condition : Condition) (yes no : Stmt)
      (yesExtra noExtra : String → Option RangeList)

def walk : Stmt → States → States
  | .skip, states => states
  | .assign know op name type right, states => matchAssign know states op name type right
  | .modify name, states => matchModify states name
  | .seq first second, states => walk second (walk first states)
  | .branch know condition yes no yesExtra noExtra, states =>
    mergeStates yesExtra noExtra (walk yes (matchCondition know states true condition))
      (walk no (matchCondition know states false condition))

/-! ## Executions -/

abbrev Store := String → BitVec 64

def Contains (rl : Option RangeList) (word : BitVec 64) : Prop :=
  ∀ own, rl = some own → ∃ type, Canonical type own ∧ (word.toNat : Int) ∈ rlSet own

/-- What `smatch_extra` says about the value of an expression is right. -/
structure Knowledge.Right (know : Knowledge) (expr : Expr) (word : BitVec 64) : Prop where
  constant : ∀ sval, know.constant expr = some sval → sval.val = word.toNat
  value : ∀ sval, know.value expr = some sval → sval.val = word.toNat
  rl : Contains (know.rl expr) word

/-- The values of the expressions `get_bit_info` does not look into.  They depend on the variables
that are read. -/
structure Oracle where
  value : Nat → List String → Store → BitVec 64
  depends : ∀ id reads store store', (∀ name ∈ reads, store name = store' name) →
    value id reads store = value id reads store'

/-- The values of an expression.  A shift is made in the promoted type of its left operand. -/
inductive Value (oracle : Oracle) (store : Store) : Expr → BitVec 64 → Prop
  | sym {name type} (fits : Fits type (store name)) :
      Value oracle store (.sym name type) (store name)
  | binop {op one two word other} (first : Value oracle store one word)
      (second : Value oracle store two other) :
      Value oracle store (.binop op one two) (op.eval word other)
  | leftShift {one two word other type} (first : Value oracle store one word)
      (second : Value oracle store two other) (typed : getType (.leftShift one two) = some type)
      (inside : other.toNat < typeBits type)
      (fits : Fits type ((word <<< other.toNat) &&& getTypePossible (some type))) :
      Value oracle store (.leftShift one two)
        ((word <<< other.toNat) &&& getTypePossible (some type))
  | other {id type reads}
      (fits : ∀ own, some own = type → Fits own (oracle.value id reads store)) :
      Value oracle store (.other id type reads) (oracle.value id reads store)

def Knowledge.RightAt (know : Knowledge) (oracle : Oracle) (store : Store) : Prop :=
  ∀ expr word, Value oracle store expr word → know.Right expr word

def convert (type : Ctype) (word : BitVec 64) : BitVec 64 :=
  if type.kind = .bool then if word = 0 then 0 else 1 else word &&& getTypePossible (some type)

def assigned (op : Option BitOp) (old word : BitVec 64) : BitVec 64 :=
  match op with
  | none => word
  | some op => op.eval old word

inductive Holds (oracle : Oracle) (store : Store) : Condition → Bool → Prop
  | test {name type two other side} (first : Value oracle store (.sym name type) (store name))
      (second : Value oracle store two other) (outcome : (store name &&& other != 0) = side) :
      Holds oracle store (.test name type two) side
  | compare {equal name type two other side}
      (first : Value oracle store (.sym name type) (store name))
      (second : Value oracle store two other)
      (outcome : ((store name == other) == equal) = side) :
      Holds oracle store (.compare equal name type two) side
  | other {id side} : Holds oracle store (.other id) side

/-- The runs of a body.  The right operand of an assignment has its value in the old store, and
what is known there is right for the new one. -/
inductive Exec : Stmt → Store → Store → Prop
  | skip {store} : Exec .skip store store
  | assign {oracle know op name type right store next word}
      (value : Value oracle store right word)
      (stored : next = Function.update store name (convert type (assigned op (store name) word)))
      (fits : op ≠ none → Fits type (store name) ∧ Fits type (next name))
      (known : know.RightAt oracle next) :
      Exec (.assign know op name type right) store next
  | modify {name store word} : Exec (.modify name) store (Function.update store name word)
  | seq {first second store middle last} (one : Exec first store middle)
      (two : Exec second middle last) : Exec (.seq first second) store last
  | yes {oracle know condition yes no yesExtra noExtra store last}
      (known : know.RightAt oracle store) (holds : Holds oracle store condition true)
      (run : Exec yes store last) (right : ∀ name, Contains (yesExtra name) (last name)) :
      Exec (.branch know condition yes no yesExtra noExtra) store last
  | no {oracle know condition yes no yesExtra noExtra store last}
      (known : know.RightAt oracle store) (holds : Holds oracle store condition false)
      (run : Exec no store last) (right : ∀ name, Contains (noExtra name) (last name)) :
      Exec (.branch know condition yes no yesExtra noExtra) store last

/-! ## The programs the masks are right for -/

/-- No operand narrower than `int` is shifted.  `binfo_LEFTSHIFT` would cut its bits off at the
width it had before the promotion. -/
def Expr.wide : Expr → Bool
  | .sym _ _ | .other _ _ _ => true
  | .binop _ left right => left.wide && right.wide
  | .leftShift left _ =>
    left.wide && (getType left).all fun type => 31 ≤ typePositiveBits type

/-- Nor is a `_Bool` assigned to, which is not cut off but compared with zero, and no assignment
reads the variable that it sets, whose new value `smatch_extra` would take for the old one. -/
def Stmt.plain : Stmt → Bool
  | .skip | .modify _ => true
  | .assign _ _ name type right =>
    type.kind ≠ .bool && right.wide && !right.reads.contains name
  | .seq first second => first.plain && second.plain
  | .branch _ _ yes no _ _ => yes.plain && no.plain

def Sound (states : States) (store : Store) : Prop :=
  ∀ name info, states name = some info → info.Allows (store name)

theorem BitOp.info_allows {left right : BitInfo} {word other : BitVec 64} (op : BitOp)
    (first : left.Allows word) (second : right.Allows other) :
    (op.info (some left) (some right)).Allows (op.eval word other) := by
  cases op with
  | and => exact binfoAND_allows first second
  | or => exact binfoOR_allows first second

section Expressions

variable {know : Knowledge} {states : States} {store : Store} {expr : Expr} {word : BitVec 64}

theorem Contains.allows {rl : Option RangeList} {info : BitInfo} (right : Contains rl word)
    (other : info.Allows word) : ((rl.map rlToBinfo).getD info).Allows word := by
  cases rl with
  | none =>
    exact other
  | some rl =>
    obtain ⟨type, canonical, member⟩ := right rl rfl
    exact rlToBinfo_allows canonical member

theorem bitInfoOf_allows {bstate binop : Option BitInfo} (right : know.Right expr word)
    (old : ∀ info, bstate = some info → info.Allows word)
    (found : ∀ info, binop = some info → info.Allows word)
    (fits : binop = none → ∀ own, some own = getType expr → Fits own word) :
    (bitInfoOf know expr bstate binop).Allows word := by
  unfold bitInfoOf
  cases value : know.value expr with
  | some known =>
    dsimp only
    rw [raw_eq (right.value known value)]
    exact allows_known word
  | none =>
    cases binop with
    | some info =>
      exact found info rfl
    | none =>
      have unknown := unknownBitInfo_allows (fits rfl)
      refine combineBitInfo_allows (right.rl.allows unknown) ?_
      cases bstate with
      | none =>
        exact unknown
      | some info =>
        exact old info rfl

theorem Value.congr {oracle : Oracle} {store' : Store} (value : Value oracle store expr word)
    (same : ∀ name ∈ expr.reads, store name = store' name) : Value oracle store' expr word := by
  induction value with
  | @sym name type fits =>
    rw [same name List.mem_cons_self] at fits ⊢
    exact .sym fits
  | binop first second ihOne ihTwo =>
    exact .binop (ihOne fun name member => same name (List.mem_append_left _ member))
      (ihTwo fun name member => same name (List.mem_append_right _ member))
  | leftShift first second typed inside fits ihOne ihTwo =>
    exact .leftShift (ihOne fun name member => same name (List.mem_append_left _ member))
      (ihTwo fun name member => same name (List.mem_append_right _ member)) typed inside fits
  | @other id type reads fits =>
    rw [oracle.depends id reads store store' same] at fits ⊢
    exact .other fits

def Reads (states : States) (store : Store) (expr : Expr) : Prop :=
  ∀ name ∈ expr.reads, ∀ info, states name = some info → info.Allows (store name)

/-- The value of an expression is one its bits allow. -/
theorem getBitInfo_allows {oracle : Oracle} (known : know.RightAt oracle store)
    (value : Value oracle store expr word) (sound : Reads states store expr)
    (wide : expr.wide = true) : (getBitInfo know states expr).Allows word := by
  induction value with
  | @sym name type fits =>
    refine bitInfoOf_allows (known _ _ (.sym fits)) (sound name List.mem_cons_self)
      (fun info absent => ?_) fun _ own typed => ?_
    · cases absent
    · cases typed
      exact fits
  | @binop op one two word other first second ihOne ihTwo =>
    obtain ⟨wideOne, wideTwo⟩ := Bool.and_eq_true_iff.mp wide
    refine bitInfoOf_allows (known _ _ (.binop first second)) (fun info absent => ?_)
      (fun info found => ?_) fun absent => ?_
    · cases absent
    · cases found
      exact op.info_allows
        (ihOne (fun name member => sound name (List.mem_append_left _ member)) wideOne)
        (ihTwo (fun name member => sound name (List.mem_append_right _ member)) wideTwo)
    · cases absent
  | @leftShift one two word other type first second typed inside fits ihOne ihTwo =>
    obtain ⟨wideOne, broad⟩ := Bool.and_eq_true_iff.mp wide
    refine bitInfoOf_allows (known _ _ (.leftShift first second typed inside fits))
      (fun info absent => ?_) (fun info found => ?_) fun _ own same => ?_
    · cases absent
    · obtain ⟨narrow, own, found⟩ := Option.bind_eq_some_iff.mp found
      obtain ⟨sval, amount, rfl⟩ := Option.map_eq_some_iff.mp found
      -- The operand has the type the shift is made in.
      rw [own] at broad
      have kept : type = narrow := by
        have promoted : getType (.leftShift one two) =
            some (if typePositiveBits narrow < 31 then intCtype else narrow) := by
          rw [getType, own]
          rfl
        rw [if_neg (Nat.not_lt.mpr (of_decide_eq_true broad)), typed] at promoted
        exact Option.some_inj.mp promoted
      have turns : other.toNat = sval.uvalue := by
        rw [← raw_eq ((known _ _ second).value sval amount)]
        rfl
      rw [turns, kept]
      exact shiftBinfo_allows (some narrow) sval
        (ihOne (fun name member => sound name (List.mem_append_left _ member)) wideOne)
    · rw [typed] at same
      cases same
      exact fits
  | @other id type reads fits =>
    refine bitInfoOf_allows (known _ _ (.other fits)) (fun info absent => ?_)
      (fun info absent => ?_) fun _ own typed => fits own typed
    · cases absent
    · cases absent

end Expressions

section Statements

variable {know : Knowledge} {states : States} {store last : Store}

theorem Sound.update {name : String} {info : BitInfo} {word : BitVec 64}
    (sound : Sound states store) (allowed : info.Allows word) :
    Sound (states.update name info) (Function.update store name word) := by
  intro other found state
  unfold States.update at state
  by_cases same : other = name
  · subst same
    rw [if_pos rfl] at state
    cases state
    rw [update_self]
    exact allowed
  · rw [if_neg same] at state
    rw [update_of_ne same]
    exact sound other found state

/-- A state that allows the value its variable has. -/
theorem Sound.known {name : String} {info : BitInfo} (sound : Sound states store)
    (allowed : info.Allows (store name)) : Sound (states.update name info) store := by
  have updated := @Sound.update _ _ name _ _ sound allowed
  rw [update_eq_self] at updated
  exact updated

/-- The bits of the left operand, which `smatch_extra` knows the new value of and `smatch_bits`
the old one, lie around the bits that both values have. -/
theorem getBitInfo_between {oracle : Oracle} {name : String} {type : Ctype} {next : Store}
    (sound : Sound states store) (known : know.RightAt oracle next)
    (old : Fits type (store name)) (new : Fits type (next name)) :
    (∀ i, (getBitInfo know states (.sym name type)).set.getLsbD i = true →
      (store name).getLsbD i = true ∨ (next name).getLsbD i = true) ∧
    ∀ i, (store name).getLsbD i = true → (next name).getLsbD i = true →
      (getBitInfo know states (.sym name type)).possible.getLsbD i = true := by
  have right := known _ _ (.sym new)
  have fits : ∀ word, Fits type word → (unknownBitInfo (some type)).Allows word :=
    fun word small => unknownBitInfo_allows fun own typed => by
      cases typed
      exact small
  have extra := right.rl.allows (fits _ new)
  have own : ((states name).getD (unknownBitInfo (some type))).Allows (store name) := by
    cases state : states name with
    | none =>
      exact fits _ old
    | some info =>
      exact sound name info state
  unfold getBitInfo bitInfoOf
  cases value : know.value (.sym name type) with
  | some sval =>
    dsimp only
    rw [raw_eq (right.value sval value)]
    exact ⟨fun i set => Or.inr set, fun i _ set => set⟩
  | none =>
    dsimp only [Option.getD_none, getType]
    unfold combineBitInfo
    split_ifs
    · exact ⟨fun i set => absurd (set.symm.trans BitVec.getLsbD_zero) (by decide),
        fun i set _ => (allows_top _).2 i set⟩
    · exact ⟨fun i set => absurd (set.symm.trans BitVec.getLsbD_zero) (by decide),
        fun i set _ => (allows_top _).2 i set⟩
    · simp only [BitVec.getLsbD_or, BitVec.getLsbD_and, Bool.or_eq_true, Bool.and_eq_true]
      exact ⟨fun i set => set.symm.imp (own.1 i) (extra.1 i),
        fun i first second => ⟨extra.2 i second, own.2 i first⟩⟩

/-- The new value of `x &= y` or `x |= y` is allowed, whichever value of `x` its bits are of. -/
theorem assigned_allows {start binfo : BitInfo} {old new word mask : BitVec 64} (op : BitOp)
    (stored : new = op.eval old word &&& mask) (inside : old &&& mask = old)
    (low : ∀ i, start.set.getLsbD i = true → old.getLsbD i = true ∨ new.getLsbD i = true)
    (high : ∀ i, old.getLsbD i = true → new.getLsbD i = true → start.possible.getLsbD i = true)
    (operand : binfo.Allows word) :
    (⟨(op.info (some start) (some binfo)).set &&& mask,
      (op.info (some start) (some binfo)).possible &&& mask⟩ : BitInfo).Allows new := by
  have bits : ∀ i, new.getLsbD i = true ↔
      (op.eval old word).getLsbD i = true ∧ mask.getLsbD i = true := fun i => by
    rw [stored, BitVec.getLsbD_and, Bool.and_eq_true]
  have kept : ∀ i, old.getLsbD i = true → mask.getLsbD i = true := fun i set => by
    rw [← inside, BitVec.getLsbD_and, Bool.and_eq_true] at set
    exact set.2
  unfold BitInfo.Allows
  simp only [BitVec.getLsbD_and, Bool.and_eq_true]
  cases op with
  | and =>
    simp only [BitOp.eval, BitVec.getLsbD_and, Bool.and_eq_true] at bits
    simp only [BitOp.info, binfoAND, BitVec.getLsbD_and, Bool.and_eq_true]
    refine ⟨fun i set => ?_, fun i set => ?_⟩
    · rcases low i set.1.1 with first | first
      · exact (bits i).mpr ⟨⟨first, operand.1 i set.1.2⟩, set.2⟩
      · exact first
    · obtain ⟨⟨first, second⟩, below⟩ := (bits i).mp set
      exact ⟨⟨high i first set, operand.2 i second⟩, below⟩
  | or =>
    simp only [BitOp.eval, BitVec.getLsbD_or, Bool.or_eq_true] at bits
    simp only [BitOp.info, binfoOR, BitVec.getLsbD_or, Bool.or_eq_true]
    refine ⟨fun i set => ?_, fun i set => ?_⟩
    · rcases set.1 with first | second
      · rcases low i first with first | first
        · exact (bits i).mpr ⟨Or.inl first, set.2⟩
        · exact first
      · exact (bits i).mpr ⟨Or.inr (operand.1 i second), set.2⟩
    · obtain ⟨either, below⟩ := (bits i).mp set
      rcases either with first | second
      · exact ⟨Or.inl (high i first set), below⟩
      · exact ⟨Or.inr (operand.2 i second), below⟩

theorem Fits.masked {type : Ctype} {word : BitVec 64} (fits : Fits type word) :
    word &&& getTypePossible (some type) = word := by
  refine BitVec.eq_of_getLsbD_eq fun i _ => ?_
  rw [BitVec.getLsbD_and, getTypePossible_bit]
  cases set : word.getLsbD i with
  | false =>
    rfl
  | true =>
    rw [decide_eq_true (bit_lt fits.below set)]
    rfl

theorem matchAssign_sound {oracle : Oracle} {op : Option BitOp} {name : String} {type : Ctype}
    {right : Expr} {next : Store} {word : BitVec 64} (sound : Sound states store)
    (value : Value oracle store right word)
    (stored : next = Function.update store name (convert type (assigned op (store name) word)))
    (fits : op ≠ none → Fits type (store name) ∧ Fits type (next name))
    (known : know.RightAt oracle next) (integer : type.kind ≠ .bool) (wide : right.wide = true)
    (apart : name ∉ right.reads) :
    Sound (matchAssign know states op name type right) next := by
  have others : ∀ other, other ≠ name → store other = next other := fun other differs => by
    rw [stored, update_of_ne differs]
  have reads : ∀ other ∈ right.reads, store other = next other := fun other member =>
    others other fun same => apart (same ▸ member)
  have new : next name = assigned op (store name) word &&& getTypePossible (some type) := by
    rw [stored, update_self, convert, if_neg integer]
  have operand : (getBitInfo know states right).Allows word :=
    getBitInfo_allows known (value.congr reads)
      (fun other member info state => reads other member ▸ sound other info state) wide
  unfold matchAssign
  dsimp only
  split_ifs with skipped
  · -- A variable without a state keeps it so.
    obtain ⟨-, absent⟩ := Bool.and_eq_true_iff.mp skipped
    intro other found state
    have differs : other ≠ name := by
      rintro rfl
      rw [state] at absent
      cases absent
    rw [← others other differs]
    exact sound other found state
  · rw [stored]
    refine sound.update ?_
    have same : convert type (assigned op (store name) word) = next name := by
      rw [stored, update_self]
    rw [same]
    cases op with
    | none =>
      rw [new]
      exact maskBinfo_allows (some type) operand
    | some op =>
      obtain ⟨old, fresh⟩ := fits (Option.some_ne_none op)
      obtain ⟨low, high⟩ := getBitInfo_between sound known old fresh
      exact assigned_allows op new old.masked low high operand

/-- Of a power of two that meets a word every bit is in the word. -/
theorem svalIsPowerOfTwo_bits {sval : Sval} {word : BitVec 64}
    (power : svalIsPowerOfTwo sval = true) (meets : (word &&& sval.raw != 0) = true)
    {i : Nat} (set : sval.raw.getLsbD i = true) :
    word.getLsbD i = true := by
  obtain ⟨nonzero, disjoint⟩ := Bool.and_eq_true_iff.mp power
  have positive : sval.raw.toNat ≠ 0 := fun zero =>
    bne_iff_ne.mp nonzero (BitVec.eq_of_toNat_eq zero)
  have less : (sval.raw - 1).toNat = sval.raw.toNat - 1 :=
    BitVec.toNat_sub_of_le (Nat.one_le_iff_ne_zero.mpr positive)
  obtain ⟨k, value⟩ := (Nat.and_sub_one_eq_zero_iff_isPowerOfTwo positive).mp
    (less ▸ congrArg BitVec.toNat (beq_iff_eq.mp disjoint))
  have only : ∀ {j}, sval.raw.getLsbD j = true → k = j := fun own => by
    rw [BitVec.getLsbD, value, Nat.testBit_two_pow] at own
    exact of_decide_eq_true own
  obtain ⟨j, common⟩ := exists_bit (bne_iff_ne.mp meets)
  obtain ⟨own, given⟩ := Bool.and_eq_true_iff.mp (BitVec.getLsbD_and ▸ common)
  rw [← only set, only given]
  exact own

theorem matchModify_sound {name : String} {word : BitVec 64} (sound : Sound states store) :
    Sound (matchModify states name) (Function.update store name word) := by
  unfold matchModify
  split_ifs with state
  · exact sound.update (allows_top _)
  · intro other found own
    have differs : other ≠ name := by
      rintro rfl
      rw [own] at state
      exact state rfl
    rw [update_of_ne differs]
    exact sound other found own

/-- On its side of a condition the states are sound for the store that takes this side. -/
theorem matchCondition_sound {oracle : Oracle} {condition : Condition} {side : Bool}
    (sound : Sound states store) (known : know.RightAt oracle store)
    (holds : Holds oracle store condition side) :
    Sound (matchCondition know states side condition) store := by
  cases holds with
  | @test name type two other _ first second outcome =>
    rw [matchCondition]
    cases constant : know.constant two with
    | none =>
      exact sound
    | some sval =>
      have orig := getBitInfo_allows known first (fun name _ => sound name) rfl
      have same := raw_eq ((known _ _ second).constant sval constant)
      rw [← same] at outcome
      refine sound.known ?_
      split_ifs with taken power
      · rw [taken] at outcome
        refine ⟨fun i set => ?_, orig.2⟩
        rw [BitVec.getLsbD_or, Bool.or_eq_true] at set
        rcases set with set | set
        · exact orig.1 i set
        · exact svalIsPowerOfTwo_bits (Bool.and_eq_true_iff.mp power).1 outcome set
      · exact orig
      · refine ⟨orig.1, fun i set => ?_⟩
        rw [Bool.not_eq_true _ |>.mp taken] at outcome
        have clear := congrArg (BitVec.getLsbD · i) (bne_eq_false_iff_eq.mp outcome)
        rw [BitVec.getLsbD_and, set, Bool.true_and] at clear
        rw [BitVec.getLsbD_and, BitVec.getLsbD_not,
          clear.trans BitVec.getLsbD_zero, orig.2 i set, decide_eq_true (BitVec.lt_of_getLsbD set)]
        rfl
  | @compare equal name type two other _ first second outcome =>
    rw [matchCondition]
    cases value : know.value two with
    | none =>
      exact sound
    | some sval =>
      dsimp only
      split_ifs with taken
      · have agree : ∀ one two : Bool, (one == two) = two → one = true := by decide
        have equals : store name = other := beq_iff_eq.mp (agree _ _ (taken ▸ outcome))
        rw [raw_eq ((known _ _ second).value sval value), ← equals]
        exact sound.known (allows_known _)
      · exact sound
  | other =>
    exact sound

theorem Sound.getD (sound : Sound states store) {name : String} {rl : Option RangeList}
    (right : Contains rl (store name)) :
    ((states name).getD (unmatchedState rl)).Allows (store name) := by
  cases state : states name with
  | none =>
    exact right.allows (allows_top _)
  | some info =>
    exact sound name info state

theorem mergeStates_sound {oneExtra twoExtra : String → Option RangeList} {one two : States}
    (branch : (Sound one store ∧ ∀ name, Contains (oneExtra name) (store name)) ∨
      Sound two store ∧ ∀ name, Contains (twoExtra name) (store name)) :
    Sound (mergeStates oneExtra twoExtra one two) store := by
  intro name info state
  unfold mergeStates at state
  split_ifs at state
  cases state
  exact mergeBstates_allows (branch.imp (fun first => first.1.getD (first.2 name))
    fun second => second.1.getD (second.2 name))

/-- `x = x + 1` from one: what is known of the right operand is about the new value, so that the
bits are those of three while the value is two. -/
example : walk (.assign ⟨fun _ => none, fun _ => some ⟨uintCtype, 3⟩, fun _ => none⟩ none "x"
    uintCtype (.other 0 (some uintCtype) ["x"])) (fun _ => none) "x" = some ⟨3, 3⟩ := rfl

def knowsNothing : Knowledge := ⟨fun _ => none, fun _ => none, fun _ => none⟩

theorem knowsNothing_rightAt (oracle : Oracle) (store : Store) :
    knowsNothing.RightAt oracle store := fun _ _ _ =>
  ⟨fun _ absent => absurd absent (Option.some_ne_none _).symm,
    fun _ absent => absurd absent (Option.some_ne_none _).symm,
    fun _ absent => absurd absent (Option.some_ne_none _).symm⟩

def knowsSix : Knowledge :=
  ⟨fun _ => none, fun expr => if expr = .other 0 (some intCtype) [] then
    some ⟨intCtype, 6⟩ else none,
    fun _ => none⟩

def sixOracle : Oracle := ⟨fun _ _ _ => 6, fun _ _ _ _ _ => rfl⟩

theorem knowsSix_rightAt (store : Store) : knowsSix.RightAt sixOracle store := by
  intro expr word value
  refine ⟨fun _ absent => absurd absent (Option.some_ne_none _).symm, fun sval known => ?_,
    fun _ absent => absurd absent (Option.some_ne_none _).symm⟩
  unfold knowsSix at known
  dsimp only at known
  split_ifs at known with constant
  subst constant
  cases known
  cases value
  change (⟨intCtype, 6⟩ : Sval).val = ((6 : BitVec 64).toNat : Int)
  decide

end Statements

end SmatchFormal.Bits
