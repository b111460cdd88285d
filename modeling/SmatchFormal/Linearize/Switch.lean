import SmatchFormal.Expand.FoldAgree
import SmatchFormal.Ptrlist.SortSound

/-!
# Switch instructions

`linearize_switch` turns the labels of a switch statement into ranges of `long long`
numbers and sorts them; `simplify_switch` takes the first range that holds a constant
condition.  A range with its ends reversed marks the default entry.
-/

namespace SmatchFormal.Linearize

open SmatchFormal.Ir SmatchFormal.Expand List

/-! ## The code -/

inductive CaseExpr where
  | value (value : BitVec 64)
  | other

structure CaseStmt where
  caseExpression : Option CaseExpr
  caseTo : Option CaseExpr

/-- A symbol of `switch_case->symbol_list`, with the block that is bound to it. -/
structure CaseSym (Block : Type) where
  block : Block
  stmt : CaseStmt

structure Multijmp (Block : Type) where
  target : Block
  begin : Int
  last : Int

section Code

variable {Block : Type}

def multijmpCmp (a b : Multijmp Block) : Int :=
  if a.begin > a.last then
    if b.begin > b.last then 0 else 1
  else if b.begin > b.last then -1
  else if a.begin = b.begin then
    if a.last = b.last then 0 else if a.last < b.last then -1 else 1
  else if a.begin < b.begin then -1 else 1

def sortSwitchCases (jumps : List (Multijmp Block)) : List (Multijmp Block) :=
  jumps.insertionSort fun a b => multijmpCmp a b ≤ 0

def caseEnd (begin : BitVec 64) : Option CaseExpr → Int
  | some (.value value) => value.toInt
  | _ => begin.toInt

/-- The entry of one label in the loop of `linearize_switch`. -/
def caseJump (sym : CaseSym Block) : Option (Multijmp Block) :=
  match sym.stmt.caseExpression with
  | none | some .other => none
  | some (.value value) =>
    let last := caseEnd value sym.stmt.caseTo
    if value.toInt > last then some ⟨sym.block, last, value.toInt⟩
    else some ⟨sym.block, value.toInt, last⟩

/-- `default_case` after the loop; a later default label replaces an earlier one. -/
def defaultCase (switchEnd : Block) (symbols : List (CaseSym Block)) : Block :=
  let defaults := symbols.filter fun sym => sym.stmt.caseExpression.isNone
  (defaults.getLast?.map CaseSym.block).getD switchEnd

def linearizeSwitch (switchEnd : Block) (symbols : List (CaseSym Block)) :
    List (Multijmp Block) :=
  sortSwitchCases (symbols.filterMap caseJump ++ [⟨defaultCase switchEnd symbols, 1, 0⟩])

def Multijmp.takes (val : Int) (jmp : Multijmp Block) : Bool :=
  decide (jmp.begin > jmp.last ∨ jmp.begin ≤ val ∧ val ≤ jmp.last)

/-- `simplify_switch`: the target of the jump that replaces the switch, if any. -/
def simplifySwitch (cond : Pseudo) (jumps : List (Multijmp Block)) : Option Block :=
  match cond with
  | .val value => (jumps.find? (Multijmp.takes value.toInt)).map Multijmp.target
  | _ => none

end Code

/-! ## Switch statements -/

def numberOf (type : IntType) (x : BitVec type.bitSize) : Int :=
  if type.unsigned then x.toNat else x.toInt

inductive Label (type : IntType) where
  | default
  | value (first : BitVec type.bitSize)
  | range (first last : BitVec type.bitSize)

namespace Label

variable {type : IntType}

def ends : Label type → Option (BitVec type.bitSize × BitVec type.bitSize)
  | default => none
  | value first => some (first, first)
  | range first last => some (first, last)

def NonEmpty (label : Label type) : Prop :=
  ∀ first last, label.ends = some (first, last) → numberOf type first ≤ numberOf type last

def Contains (label : Label type) (v : BitVec type.bitSize) : Prop :=
  ∃ first last, label.ends = some (first, last) ∧
    numberOf type first ≤ numberOf type v ∧ numberOf type v ≤ numberOf type last

/-- The label as the front end gives it to `linearize_switch`, with constants extended with
zeros. -/
def stmt : Label type → CaseStmt
  | default => ⟨none, none⟩
  | value first => ⟨some (.value (first.setWidth 64)), none⟩
  | range first last =>
    ⟨some (.value (first.setWidth 64)), some (.value (last.setWidth 64))⟩

/-- The range of the label goes over the place where the order of the type and the order of
`long long` differ: zero for a narrow signed type, the sign bit for an unsigned type of 64
bits. -/
def Crosses (label : Label type) : Prop :=
  ∃ first last, label.ends = some (first, last) ∧
    if type.unsigned then type.bitSize = 64 ∧ first.msb = false ∧ last.msb = true
    else 1 < type.bitSize ∧ type.bitSize < 64 ∧ first.msb = true ∧ last.msb = false

end Label

/-- A switch statement over a type.  Every label has a block of its own, ranges do not
overlap, and there is at most one default label. -/
structure SwitchStmt (Block : Type) (type : IntType) where
  labels : List (Label type × Block)
  switchEnd : Block
  nonEmpty : ∀ a ∈ labels, a.1.NonEmpty
  disjoint : ∀ a ∈ labels, ∀ b ∈ labels, ∀ v, a.1.Contains v → b.1.Contains v → a = b
  oneDefault : ∀ a ∈ labels, ∀ b ∈ labels, a.1 = .default → b.1 = .default → a = b
  ownBlock : ∀ a ∈ labels, ∀ b ∈ labels, a.2 = b.2 → a = b
  ownEnd : ∀ a ∈ labels, a.2 ≠ switchEnd

namespace SwitchStmt

variable {Block : Type} {type : IntType}

def symbols (stmt : SwitchStmt Block type) : List (CaseSym Block) :=
  stmt.labels.map fun a => ⟨a.2, a.1.stmt⟩

def jump (stmt : SwitchStmt Block type) (v : BitVec type.bitSize) : Option Block :=
  simplifySwitch (.val (v.setWidth 64)) (linearizeSwitch stmt.switchEnd stmt.symbols)

/-- The value belongs at the block: that of the label whose range has it, else that of the
default label, else the end of the switch. -/
def BelongsAt (stmt : SwitchStmt Block type) (v : BitVec type.bitSize) (block : Block) : Prop :=
  (∃ a ∈ stmt.labels, a.1.Contains v ∧ a.2 = block) ∨
  (∀ a ∈ stmt.labels, ¬a.1.Contains v) ∧
    ((∃ a ∈ stmt.labels, a.1 = .default ∧ a.2 = block) ∨
      (∀ a ∈ stmt.labels, a.1 ≠ .default) ∧ stmt.switchEnd = block)

end SwitchStmt

section Numbers

variable {type : IntType}

def keyOf (x : BitVec type.bitSize) : Int := (x.setWidth 64).toInt

theorem toInt_eq_halves {w : Nat} (pos : 0 < w) (x : BitVec w) :
    x.toInt = if x.toNat < 2 ^ (w - 1) then (x.toNat : Int)
      else (x.toNat : Int) - 2 * ((2 ^ (w - 1) : Nat) : Int) := by
  have double := two_pow_pred pos
  rw [BitVec.toInt_eq_toNat_cond, double]
  push_cast
  split_ifs <;> omega

theorem msb_eq_halves {w : Nat} (x : BitVec w) : x.msb = decide (2 ^ (w - 1) ≤ x.toNat) :=
  BitVec.msb_eq_decide x

theorem keyOf_narrow (narrow : type.bitSize < 64) (x : BitVec type.bitSize) :
    keyOf x = x.toNat := by
  have bound : x.toNat < 2 ^ 63 :=
    x.isLt.trans_le (Nat.pow_le_pow_right (by decide) (by omega))
  unfold keyOf
  rw [toInt_of_lt (by decide), toNat_setWidth_of_le narrow.le]
  rw [toNat_setWidth_of_le narrow.le]
  exact bound

theorem keyOf_word (word : type.bitSize = 64) (x : BitVec type.bitSize) : keyOf x = x.toInt := by
  have power : 2 ^ type.bitSize = 2 ^ 64 := by rw [word]
  unfold keyOf
  rw [BitVec.toInt_eq_toNat_cond, BitVec.toInt_eq_toNat_cond, toNat_setWidth_of_le word.le, power]

/-- The two orders agree on a range that does not cross. -/
theorem between_iff_of_not_crosses (pos : 0 < type.bitSize) (le : type.bitSize ≤ 64)
    {first last : BitVec type.bitSize} (full : numberOf type first ≤ numberOf type last)
    (stays : ¬if type.unsigned then type.bitSize = 64 ∧ first.msb = false ∧ last.msb = true
      else 1 < type.bitSize ∧ type.bitSize < 64 ∧ first.msb = true ∧ last.msb = false)
    (v : BitVec type.bitSize) :
    (numberOf type first ≤ numberOf type v ∧ numberOf type v ≤ numberOf type last) ↔
      (min (keyOf first) (keyOf last) ≤ keyOf v ∧ keyOf v ≤ max (keyOf first) (keyOf last)) := by
  have double := two_pow_pred pos
  have boundFirst := first.isLt
  have boundLast := last.isLt
  have boundV := v.isLt
  rw [msb_eq_halves, msb_eq_halves] at stays
  unfold numberOf at full ⊢
  rcases Nat.lt_or_eq_of_le le with narrow | word
  · rw [keyOf_narrow narrow, keyOf_narrow narrow, keyOf_narrow narrow]
    cases unsigned : type.unsigned with
    | true =>
      rw [unsigned] at full
      simp only [if_true] at full ⊢
      omega
    | false =>
      rw [unsigned] at full stays
      simp only [Bool.false_eq_true, if_false, toInt_eq_halves pos, decide_eq_true_eq,
        decide_eq_false_iff_not] at full stays ⊢
      rcases Nat.lt_or_ge 1 type.bitSize with wide | one
      · split_ifs at full ⊢ <;> omega
      · -- A range of one bit that crosses zero has both values.
        have half : 2 ^ (type.bitSize - 1) = 1 := by
          rw [show type.bitSize - 1 = 0 by omega, pow_zero]
        split_ifs at full ⊢ <;> omega
  · rw [keyOf_word word, keyOf_word word, keyOf_word word]
    cases unsigned : type.unsigned with
    | true =>
      rw [unsigned] at full stays
      simp only [if_true, toInt_eq_halves pos, decide_eq_true_eq,
        decide_eq_false_iff_not] at full stays ⊢
      split_ifs <;> omega
    | false =>
      rw [unsigned] at full
      simp only [Bool.false_eq_true, if_false] at full ⊢
      omega

/-- On a range that crosses, the ends come in the other order, and the range is what lies
outside of them. -/
theorem between_iff_of_crosses (pos : 0 < type.bitSize) {first last : BitVec type.bitSize}
    (crosses : if type.unsigned then type.bitSize = 64 ∧ first.msb = false ∧ last.msb = true
      else 1 < type.bitSize ∧ type.bitSize < 64 ∧ first.msb = true ∧ last.msb = false) :
    keyOf last < keyOf first ∧ ∀ v : BitVec type.bitSize,
      (numberOf type first ≤ numberOf type v ∧ numberOf type v ≤ numberOf type last) ↔
        (keyOf v ≤ keyOf last ∨ keyOf first ≤ keyOf v) := by
  have double := two_pow_pred pos
  have boundFirst := first.isLt
  have boundLast := last.isLt
  rw [msb_eq_halves, msb_eq_halves] at crosses
  unfold numberOf
  cases unsigned : type.unsigned with
  | true =>
    rw [unsigned] at crosses
    simp only [if_true, decide_eq_true_eq, decide_eq_false_iff_not] at crosses ⊢
    obtain ⟨word, low, high⟩ := crosses
    simp only [keyOf_word word, toInt_eq_halves pos]
    refine ⟨by split_ifs <;> omega, fun v => ?_⟩
    have boundV := v.isLt
    split_ifs <;> omega
  | false =>
    rw [unsigned] at crosses
    simp only [Bool.false_eq_true, if_false, decide_eq_true_eq,
      decide_eq_false_iff_not] at crosses ⊢
    obtain ⟨-, narrow, high, low⟩ := crosses
    simp only [keyOf_narrow narrow, toInt_eq_halves pos]
    refine ⟨by omega, fun v => ?_⟩
    have boundV := v.isLt
    split_ifs <;> omega

/-- The constants of a type fill an interval of `long long` numbers. -/
theorem exists_keys (pos : 0 < type.bitSize) (le : type.bitSize ≤ 64) :
    ∃ low : Int, (∀ x : BitVec type.bitSize, low ≤ keyOf x ∧ keyOf x < low + 2 ^ type.bitSize) ∧
      ∀ n : Nat, n < 2 ^ type.bitSize → ∃ x : BitVec type.bitSize, keyOf x = low + n := by
  have double := two_pow_pred pos
  rcases Nat.lt_or_eq_of_le le with narrow | word
  · refine ⟨0, fun x => ?_, fun n bound => ⟨BitVec.ofNat _ n, ?_⟩⟩
    · have bound := x.isLt
      rw [keyOf_narrow narrow]
      exact ⟨by omega, by exact_mod_cast (by omega : x.toNat < 0 + 2 ^ type.bitSize)⟩
    · rw [keyOf_narrow narrow, BitVec.toNat_ofNat, Nat.mod_eq_of_lt bound, zero_add]
  · refine ⟨-((2 ^ (type.bitSize - 1) : Nat) : Int), fun x => ?_, fun n bound => ?_⟩
    · have bound := x.isLt
      have cast : (2 : Int) ^ type.bitSize = 2 * ((2 ^ (type.bitSize - 1) : Nat) : Int) := by
        exact_mod_cast double
      rw [keyOf_word word, toInt_eq_halves pos, cast]
      split_ifs <;> omega
    · -- The negative numbers are the upper half of the constants.
      refine ⟨BitVec.ofNat _ (if n < 2 ^ (type.bitSize - 1) then n + 2 ^ (type.bitSize - 1)
        else n - 2 ^ (type.bitSize - 1)), ?_⟩
      rw [keyOf_word word, toInt_eq_halves pos, BitVec.toNat_ofNat, Nat.mod_eq_of_lt]
      · split_ifs <;> omega
      · split_ifs <;> omega

end Numbers

section Sorted

variable {Block : Type}

theorem multijmpCmp_le_iff (a b : Multijmp Block) :
    multijmpCmp a b ≤ 0 ↔ b.begin > b.last ∨
      a.begin ≤ a.last ∧ (a.begin < b.begin ∨ a.begin = b.begin ∧ a.last ≤ b.last) := by
  unfold multijmpCmp
  split_ifs <;> omega

theorem multijmpCmp_total (a b : Multijmp Block) : multijmpCmp a b ≤ 0 ∨ multijmpCmp b a ≤ 0 := by
  rw [multijmpCmp_le_iff, multijmpCmp_le_iff]
  omega

theorem multijmpCmp_trans {a b c : Multijmp Block} (first : multijmpCmp a b ≤ 0)
    (second : multijmpCmp b c ≤ 0) : multijmpCmp a c ≤ 0 := by
  rw [multijmpCmp_le_iff] at first second ⊢
  omega

theorem mem_sortSwitchCases {jumps : List (Multijmp Block)} {jmp : Multijmp Block} :
    jmp ∈ sortSwitchCases jumps ↔ jmp ∈ jumps :=
  mem_insertionSort _

theorem pairwise_sortSwitchCases (jumps : List (Multijmp Block)) :
    (sortSwitchCases jumps).Pairwise fun a b => multijmpCmp a b ≤ 0 := by
  let order : Multijmp Block → Multijmp Block → Prop := fun a b => multijmpCmp a b ≤ 0
  have total : Std.Total order := ⟨multijmpCmp_total⟩
  have trans : IsTrans _ order := ⟨fun _ _ _ => multijmpCmp_trans⟩
  exact pairwise_insertionSort order jumps

/-- `sort_list` of the jumps; `null` is what a null pointer would be compared as. -/
theorem sortList_sortSwitchCases (null : Multijmp Block) {h : Ptrlist.Heap (Multijmp Block)}
    {plist : Option Ptrlist.Addr} {nodes : List Ptrlist.Addr} {jumps : List (Multijmp Block)}
    (holds : Ptrlist.Holds h plist nodes (jumps.map some))
    (short : nodes.length ≤ Ptrlist.maxBlocks) :
    ∃ h' plist' nodes', Ptrlist.sortList (fun a b => multijmpCmp (a.getD null) (b.getD null)) h
        plist = some (h', plist') ∧
      Ptrlist.Holds h' plist' nodes' ((sortSwitchCases jumps).map some) := by
  let le : Option (Multijmp Block) → Option (Multijmp Block) → Bool :=
    Ptrlist.cmpLe fun a b => multijmpCmp (a.getD null) (b.getD null)
  have order : Lib.TotalPreorder le := by
    refine ⟨fun a b => ?_, fun a b c first second => ?_⟩
    · rw [Bool.or_eq_true]
      exact (multijmpCmp_total _ _).imp decide_eq_true decide_eq_true
    · exact decide_eq_true (multijmpCmp_trans (of_decide_eq_true first) (of_decide_eq_true second))
  obtain ⟨h', plist', nodes', contents, done, holds', -, sorted⟩ :=
    Ptrlist.sorts_of_length_le order holds short
  have inserted := Lib.stablySorted_insertionSort order (jumps.map some)
  rw [← map_insertionSort (fun a b => multijmpCmp a b ≤ 0) (fun a b => le a b) some jumps
    fun a _ b _ => decide_eq_true_iff.symm] at inserted
  rw [inserted.unique order sorted] at holds'
  exact ⟨h', plist', nodes', done, holds'⟩

/-- The entry that is taken comes no later than any other entry that would be taken. -/
theorem find_sortSwitchCases {jumps : List (Multijmp Block)} {val : Int} {jmp : Multijmp Block}
    (found : (sortSwitchCases jumps).find? (Multijmp.takes val) = some jmp) :
    jmp ∈ jumps ∧ jmp.takes val ∧
      ∀ other ∈ jumps, other.takes val → other = jmp ∨ multijmpCmp jmp other ≤ 0 := by
  obtain ⟨takes, before, after, split, none⟩ := List.find?_eq_some_iff_append.mp found
  have sorted := pairwise_sortSwitchCases jumps
  rw [split] at sorted
  have rest := (pairwise_cons.mp (pairwise_append.mp sorted).2.1).1
  refine ⟨mem_sortSwitchCases.mp (split ▸ mem_append_right _ mem_cons_self), takes, ?_⟩
  intro other member accepts
  have place := mem_sortSwitchCases.mpr member
  rw [split] at place
  rcases mem_append.mp place with earlier | later
  · have refused := none other earlier
    rw [accepts] at refused
    exact absurd refused (by decide)
  · rcases mem_cons.mp later with same | behind
    · exact Or.inl same
    · exact Or.inr (rest other behind)

end Sorted

section Entries

variable {Block : Type} {type : IntType}

/-- The entry of a range, with its ends in the order of `long long`. -/
def entryOf (block : Block) (first last : BitVec type.bitSize) : Multijmp Block :=
  ⟨block, min (keyOf first) (keyOf last), max (keyOf first) (keyOf last)⟩

theorem caseJump_stmt (block : Block) (label : Label type) :
    caseJump ⟨block, label.stmt⟩ =
      label.ends.map fun ends => entryOf block ends.1 ends.2 := by
  cases label with
  | default => rfl
  | value first =>
    change (if keyOf first > keyOf first then _ else _) = some (entryOf block first first)
    rw [if_neg (lt_irrefl _)]
    unfold entryOf
    rw [min_self, max_self]
    rfl
  | range first last =>
    change (if keyOf first > keyOf last then _ else _) = some (entryOf block first last)
    unfold entryOf
    split
    case isTrue reversed =>
        rw [min_eq_right reversed.le, max_eq_left reversed.le]
        rfl
    case isFalse ordered =>
        rw [min_eq_left (not_lt.mp ordered), max_eq_right (not_lt.mp ordered)]
        rfl

namespace SwitchStmt

variable (stmt : SwitchStmt Block type)

def entries : List (Multijmp Block) :=
  stmt.symbols.filterMap caseJump ++ [⟨defaultCase stmt.switchEnd stmt.symbols, 1, 0⟩]

variable {stmt}

theorem mem_entries {jmp : Multijmp Block} :
    jmp ∈ stmt.entries ↔
      (∃ a ∈ stmt.labels, ∃ first last, a.1.ends = some (first, last) ∧
        jmp = entryOf a.2 first last) ∨
      jmp = ⟨defaultCase stmt.switchEnd stmt.symbols, 1, 0⟩ := by
  unfold entries
  rw [mem_append, mem_singleton, mem_filterMap]
  refine or_congr_left ⟨?_, ?_⟩
  · rintro ⟨sym, member, entry⟩
    obtain ⟨a, inside, rfl⟩ := mem_map.mp member
    rw [caseJump_stmt] at entry
    obtain ⟨ends, known, rfl⟩ := Option.map_eq_some_iff.mp entry
    exact ⟨a, inside, ends.1, ends.2, known, rfl⟩
  · rintro ⟨a, inside, first, last, known, rfl⟩
    refine ⟨⟨a.2, a.1.stmt⟩, mem_map.mpr ⟨a, inside, rfl⟩, ?_⟩
    rw [caseJump_stmt, known]
    rfl

theorem entryOf_takes {block : Block} {first last v : BitVec type.bitSize} :
    (entryOf block first last).takes (keyOf v) ↔
      min (keyOf first) (keyOf last) ≤ keyOf v ∧ keyOf v ≤ max (keyOf first) (keyOf last) := by
  have ordered : ¬min (keyOf first) (keyOf last) > max (keyOf first) (keyOf last) :=
    not_lt.mpr min_le_max
  unfold Multijmp.takes entryOf
  rw [decide_eq_true_eq]
  exact or_iff_right ordered

theorem stmt_default_iff {label : Label type} :
    label.stmt.caseExpression.isNone ↔ label = .default := by
  cases label with
  | default => exact iff_of_true rfl rfl
  | value first => exact iff_of_false Bool.false_ne_true (by simp)
  | range first last => exact iff_of_false Bool.false_ne_true (by simp)

/-- `default_case` is the block of a default label, or else the end of the switch. -/
theorem defaultCase_symbols :
    (∃ a ∈ stmt.labels, a.1 = .default ∧ a.2 = defaultCase stmt.switchEnd stmt.symbols) ∨
      (∀ a ∈ stmt.labels, a.1 ≠ .default) ∧
        stmt.switchEnd = defaultCase stmt.switchEnd stmt.symbols := by
  simp only [defaultCase]
  cases known : (stmt.symbols.filter fun sym => sym.stmt.caseExpression.isNone).getLast? with
  | none =>
    refine Or.inr ⟨fun a inside isDefault => ?_, rfl⟩
    have empty := List.getLast?_eq_none_iff.mp known
    have excluded := filter_eq_nil_iff.mp empty ⟨a.2, a.1.stmt⟩
      (mem_map.mpr ⟨a, inside, rfl⟩)
    exact excluded (stmt_default_iff.mpr isDefault)
  | some sym =>
    have member := mem_filter.mp (mem_of_getLast? known)
    obtain ⟨a, inside, rfl⟩ := mem_map.mp member.1
    exact Or.inl ⟨a, inside, stmt_default_iff.mp member.2, rfl⟩

theorem defaultCase_ne {a : Label type × Block} (inside : a ∈ stmt.labels)
    {ends : BitVec type.bitSize × BitVec type.bitSize} (known : a.1.ends = some ends) :
    defaultCase stmt.switchEnd stmt.symbols ≠ a.2 := by
  rcases @defaultCase_symbols _ _ stmt with ⟨b, member, isDefault, same⟩ | ⟨-, same⟩
  · intro equal
    have one := stmt.ownBlock b member a inside (same.trans equal)
    rw [← one, isDefault] at known
    cases known
  · rw [← same]
    exact (stmt.ownEnd a inside).symm

theorem jump_eq (v : BitVec type.bitSize) :
    ∃ jmp ∈ stmt.entries, stmt.jump v = some jmp.target ∧ jmp.takes (keyOf v) ∧
      ∀ other ∈ stmt.entries, other.takes (keyOf v) → other = jmp ∨ multijmpCmp jmp other ≤ 0 := by
  cases found : (sortSwitchCases stmt.entries).find? (Multijmp.takes (keyOf v)) with
  | none =>
    -- The default entry takes every value.
    have last : ⟨defaultCase stmt.switchEnd stmt.symbols, 1, 0⟩ ∈ stmt.entries :=
      mem_entries.mpr (Or.inr rfl)
    exact absurd rfl (List.find?_eq_none.mp found _ (mem_sortSwitchCases.mpr last))
  | some jmp =>
    obtain ⟨member, takes, first⟩ := find_sortSwitchCases found
    exact ⟨jmp, member, congrArg (Option.map Multijmp.target) found, takes, first⟩

/-! ## Where a value goes -/

theorem entryOf_takes_iff (pos : 0 < type.bitSize) (le : type.bitSize ≤ 64)
    {a : Label type × Block} (inside : a ∈ stmt.labels) (stays : ¬a.1.Crosses)
    {first last : BitVec type.bitSize} (known : a.1.ends = some (first, last))
    (v : BitVec type.bitSize) :
    (entryOf a.2 first last).takes (keyOf v) ↔ a.1.Contains v := by
  have full := stmt.nonEmpty a inside first last known
  have same := between_iff_of_not_crosses pos le full
    (fun crosses => stays ⟨first, last, known, crosses⟩) v
  rw [entryOf_takes, ← same]
  constructor
  · intro between
    exact ⟨first, last, known, between⟩
  · rintro ⟨first', last', known', between⟩
    obtain ⟨rfl, rfl⟩ := Prod.mk.inj (Option.some.inj (known.symm.trans known'))
    exact between

theorem belongsAt_jump (pos : 0 < type.bitSize) (le : type.bitSize ≤ 64)
    (stays : ∀ a ∈ stmt.labels, ¬a.1.Crosses) (v : BitVec type.bitSize) :
    ∃ block, stmt.jump v = some block ∧ stmt.BelongsAt v block := by
  obtain ⟨jmp, member, target, takes, first⟩ := @jump_eq _ _ stmt v
  refine ⟨jmp.target, target, ?_⟩
  rcases mem_entries.mp member with ⟨a, inside, low, high, known, rfl⟩ | rfl
  · exact Or.inl ⟨a, inside, (entryOf_takes_iff pos le inside (stays a inside) known v).mp takes,
      rfl⟩
  · refine Or.inr ⟨fun a inside contains => ?_, defaultCase_symbols⟩
    obtain ⟨low, high, known, -⟩ := id contains
    have accepts := (entryOf_takes_iff pos le inside (stays a inside) known v).mpr contains
    have entry := mem_entries.mpr (Or.inl ⟨a, inside, low, high, known, rfl⟩)
    rcases first _ entry accepts with same | before
    · exact defaultCase_ne inside known (congrArg Multijmp.target same).symm
    · -- The default entry is behind the entries of the labels.
      rw [multijmpCmp_le_iff] at before
      rcases before with reversed | ⟨ordered, -⟩
      · exact absurd reversed (not_lt.mpr min_le_max)
      · exact absurd ordered (show ¬(1 : Int) ≤ 0 by decide)

/-- Every value goes where it belongs, so a label's own entry takes the values of its range. -/
theorem own_entry_takes
    (right : ∀ v, ∃ block, stmt.jump v = some block ∧ stmt.BelongsAt v block)
    {a : Label type × Block} (inside : a ∈ stmt.labels) {first last : BitVec type.bitSize}
    (known : a.1.ends = some (first, last)) {v : BitVec type.bitSize}
    (contains : a.1.Contains v) : (entryOf a.2 first last).takes (keyOf v) := by
  obtain ⟨jmp, member, target, takes, -⟩ := @jump_eq _ _ stmt v
  obtain ⟨block, same, belongs⟩ := right v
  have place : jmp.target = a.2 := by
    rw [target] at same
    rw [Option.some.inj same]
    rcases belongs with ⟨b, mem, holds, rfl⟩ | ⟨none, -⟩
    · rw [stmt.disjoint b mem a inside v holds contains]
    · exact absurd contains (none a inside)
  rcases mem_entries.mp member with ⟨b, mem, low, high, known', rfl⟩ | rfl
  · obtain rfl := stmt.ownBlock b mem a inside place
    obtain ⟨rfl, rfl⟩ := Prod.mk.inj (Option.some.inj (known.symm.trans known'))
    exact takes
  · exact absurd place (defaultCase_ne inside known)

/-- A value outside of a label's range does not go to the label's block. -/
theorem not_belongsAt_of_not_contains {a : Label type × Block} (inside : a ∈ stmt.labels)
    {ends : BitVec type.bitSize × BitVec type.bitSize} (known : a.1.ends = some ends)
    {v : BitVec type.bitSize} (outside : ¬a.1.Contains v) : ¬stmt.BelongsAt v a.2 := by
  rintro (⟨b, mem, holds, same⟩ | ⟨-, ⟨b, mem, isDefault, same⟩ | ⟨-, same⟩⟩)
  · obtain rfl := stmt.ownBlock b mem a inside same
    exact outside holds
  · obtain rfl := stmt.ownBlock b mem a inside same
    rw [isDefault] at known
    cases known
  · exact stmt.ownEnd a inside same.symm

/-- A label that crosses sends some value to a wrong block. -/
theorem not_crosses_of_right (pos : 0 < type.bitSize) (le : type.bitSize ≤ 64)
    (right : ∀ v, ∃ block, stmt.jump v = some block ∧ stmt.BelongsAt v block)
    {a : Label type × Block} (inside : a ∈ stmt.labels) : ¬a.1.Crosses := by
  rintro ⟨first, last, known, crosses⟩
  obtain ⟨reversed, between⟩ := between_iff_of_crosses pos crosses
  obtain ⟨low, bounds, values⟩ := exists_keys pos le
  have contains : ∀ v, keyOf v ≤ keyOf last ∨ keyOf first ≤ keyOf v → a.1.Contains v :=
    fun v outer => ⟨first, last, known, (between v).mpr outer⟩
  have wide : 1 < type.bitSize := by
    cases unsigned : type.unsigned with
    | true =>
      rw [unsigned] at crosses
      exact crosses.1 ▸ (by decide)
    | false =>
      rw [unsigned] at crosses
      exact crosses.1
  have four : 2 ^ 2 ≤ 2 ^ type.bitSize := Nat.pow_le_pow_right (by decide) wide
  have cast : ((2 ^ type.bitSize : Nat) : Int) = 2 ^ type.bitSize := Nat.cast_pow 2 _
  -- The smallest and the largest number are in the range, so the entry has them all.
  have lowest : keyOf last ≤ low := by
    obtain ⟨x, key⟩ := values 0 (by omega)
    have member := contains x (Or.inl (by have := (bounds last).1; omega))
    have takes := (entryOf_takes.mp (own_entry_takes right inside known member)).1
    omega
  have highest : low + 2 ^ type.bitSize - 1 ≤ keyOf first := by
    obtain ⟨x, key⟩ := values (2 ^ type.bitSize - 1) (by omega)
    have member := contains x (Or.inr (by have := (bounds first).2; omega))
    have takes := (entryOf_takes.mp (own_entry_takes right inside known member)).2
    omega
  obtain ⟨v, key⟩ := values 1 (by omega)
  have outside : ¬a.1.Contains v := by
    rintro ⟨first', last', known', inner⟩
    obtain ⟨rfl, rfl⟩ := Prod.mk.inj (Option.some.inj (known.symm.trans known'))
    have outer := (between v).mp inner
    omega
  -- Every entry in front of it starts at the smallest number too, and so overlaps it.
  obtain ⟨jmp, member, target, takes, front⟩ := @jump_eq _ _ stmt v
  have place : jmp.target = a.2 := by
    have entry := mem_entries.mpr (Or.inl ⟨a, inside, first, last, known, rfl⟩)
    have accepts : (entryOf a.2 first last).takes (keyOf v) :=
      entryOf_takes.mpr ⟨by omega, by omega⟩
    rcases front _ entry accepts with same | before
    · rw [← same]
      rfl
    · rw [multijmpCmp_le_iff] at before
      rcases before with empty | ⟨ordered, order⟩
      · exact absurd empty (not_lt.mpr min_le_max)
      · rcases mem_entries.mp member with ⟨b, mem, first', last', known', rfl⟩ | rfl
        · have start : min (keyOf first') (keyOf last') ≤ min (keyOf first) (keyOf last) := by
            rcases order with less | ⟨equal, -⟩
            · exact less.le
            · exact equal.le
          have full := stmt.nonEmpty b mem first' last' known'
          rcases min_le_iff.mp (start.trans (min_le_right _ _)) with small | small
          · rw [stmt.disjoint b mem a inside first' ⟨first', last', known', le_rfl, full⟩
              (contains first' (Or.inl small))]
            rfl
          · rw [stmt.disjoint b mem a inside last' ⟨first', last', known', full, le_rfl⟩
              (contains last' (Or.inl small))]
            rfl
        · exact absurd ordered (show ¬(1 : Int) ≤ 0 by decide)
  obtain ⟨block, same, belongs⟩ := right v
  rw [target, place] at same
  rw [← Option.some.inj same] at belongs
  exact not_belongsAt_of_not_contains inside known outside belongs

/-- A switch over a constant goes to the right block for every value of the type exactly when
no range crosses the place where the two orders differ. -/
theorem switch_right_iff (stmt : SwitchStmt Block type) (pos : 0 < type.bitSize)
    (le : type.bitSize ≤ 64) :
    (∀ v, ∃ block, stmt.jump v = some block ∧ stmt.BelongsAt v block) ↔
      ∀ a ∈ stmt.labels, ¬a.1.Crosses := by
  constructor
  · intro right a inside
    exact not_crosses_of_right pos le right inside
  · intro stays v
    exact belongsAt_jump pos le stays v

end SwitchStmt

end Entries

/-- `switch (x) { case -1 ... 1: ...; default: ...; }` for an `int`. -/
def aroundZero : SwitchStmt Nat ⟨32, false⟩ where
  labels := [(.range (-1) 1, 1), (.default, 2)]
  switchEnd := 3
  nonEmpty := by
    intro a inside first last known
    rcases mem_pair.mp inside with rfl | rfl
    · obtain ⟨rfl, rfl⟩ := Prod.mk.inj (Option.some.inj known)
      decide
    · cases known
  disjoint := by
    intro a inside b member v left right
    have only : ∀ c ∈ [((.range (-1) 1 : Label ⟨32, false⟩), 1), (.default, 2)],
        c.1.Contains v → c = (.range (-1) 1, 1) := by
      intro c place holds
      rcases mem_pair.mp place with rfl | rfl
      · rfl
      · obtain ⟨first, last, known, -⟩ := holds
        cases known
    rw [only a inside left, only b member right]
  oneDefault := by
    intro a inside b member left right
    rcases mem_pair.mp inside with rfl | rfl
    · cases left
    · rcases mem_pair.mp member with rfl | rfl
      · cases right
      · rfl
  ownBlock := by
    intro a inside b member same
    rcases mem_pair.mp inside with rfl | rfl <;>
      rcases mem_pair.mp member with rfl | rfl
    · rfl
    · exact absurd same (by decide)
    · exact absurd same (by decide)
    · rfl
  ownEnd := by
    intro a inside
    rcases mem_pair.mp inside with rfl | rfl
    · decide
    · decide

theorem switch_right_iff_aroundZero :
    (0 < 32 ∧ 32 ≤ 64) ∧
      ((∀ v, ∃ block, aroundZero.jump v = some block ∧ aroundZero.BelongsAt v block) ↔
        ∀ a ∈ aroundZero.labels, ¬a.1.Crosses) :=
  ⟨by decide, SwitchStmt.switch_right_iff aroundZero (by decide) (by decide)⟩

/-- Zero lies between `-1` and `1`, but goes to the default label. -/
theorem aroundZero_wrong :
    aroundZero.jump 0 = some 2 ∧ (Label.range (-1) 1 : Label ⟨32, false⟩).Contains 0 ∧
      ¬∀ v, ∃ block, aroundZero.jump v = some block ∧ aroundZero.BelongsAt v block := by
  have jumps : aroundZero.jump 0 = some 2 := by decide
  have contains : (Label.range (-1) 1 : Label ⟨32, false⟩).Contains 0 :=
    ⟨-1, 1, rfl, by decide⟩
  refine ⟨jumps, contains, fun right => ?_⟩
  obtain ⟨block, same, belongs⟩ := right 0
  rw [jumps] at same
  obtain rfl := Option.some.inj same
  have first : ((.range (-1) 1 : Label ⟨32, false⟩), 1) ∈ aroundZero.labels :=
    mem_cons_self
  rcases belongs with ⟨a, inside, holds, two⟩ | ⟨none, -⟩
  · have one := aroundZero.disjoint a inside _ first 0 holds contains
    rw [one] at two
    exact absurd two (by decide)
  · exact none _ first contains

end SmatchFormal.Linearize
