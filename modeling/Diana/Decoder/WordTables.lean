import Diana.Lib.Bits
import Diana.Lib.DispatchTree

/-!
# The search for a command of a word

`DianaA64_DecodeWord` of `diana_arm64.c` and `Lookup` of `diana_arm32.c` walk a generated tree to
the commands that are left to try for a word, and try them in turn. The tables are parameters, and
so is `FillResult`, which may refuse a word.

* `check`: a test of the tables against the list of the commands they are made for;
* `decodeWord_eq`: the tree finds what a search of the whole list finds;
* `wordClass_eq`, `wordClass_mono`, `decodeWord_mono`: what a word is called, and how that
  depends on the profile.
-/

namespace Diana.ArmTables

open Diana.Lib

abbrev Word := BitVec 32

/-! ## Tables -/

/-- `DianaA64Leaf` -/
structure Leaf where
  pattern : Pattern 32
  cmd : Nat
  deriving DecidableEq, Repr

/-- `DianaA32Tree`, and the three tables of `DianaA64Tables` that make one. -/
structure Tree where
  nodes : List DispatchNode
  slots : List Word
  leaves : List Leaf

/-- `DianaA64Distinct` -/
structure Distinct where
  lsb1 : Nat
  lsb2 : Nat
  width : Nat
  /-- `DIANA_A64_DISTINCT_SP_IS_31` -/
  spIs31 : Bool
  deriving DecidableEq, Repr

/-- What the search reads of `DianaA64CmdInfo` and `DianaA32CmdInfo`. -/
structure CmdInfo where
  commandId : Nat
  features : BitVec 64
  featuresAny : Nat
  unlessFirst : Nat
  unlessCount : Nat
  distinctFirst : Nat
  distinctCount : Nat
  deriving DecidableEq, Repr, Inhabited

/-- `DianaA64Tables`, or `DianaA32Tables` for one form. -/
structure Tables where
  tree : Tree
  cmds : List CmdInfo
  pUnless : List (Pattern 32)
  pDistinct : List Distinct
  pFeaturesAny : List (BitVec 64)
  unsupported : Tree
  undefinedCmd : Nat
  unsupportedCmd : Nat
  disabledCmd : Nat
  /-- `diana_a64_cmd_inst` -/
  inst : Nat
  /-- `diana_a64_cmd_inst_unsupported` -/
  instUnsupported : Nat
  /-- `diana_a64_cmd_inst_disabled` -/
  instDisabled : Nat

/-- `DIANA_A64_SLOT_NODE_FLAG` -/
def nodeFlag : Word := 0x80000000

/-- The leaves of a slot without the flag: the first and, in four bits, how many. -/
def Tree.leavesOf (T : Tree) (slot : Word) : List Leaf :=
  if slot = 0 then [] else (T.leaves.drop (slot >>> 4).toNat).take (slot &&& 15).toNat

/-- The loop of `WalkTree`. -/
def Tree.walkLoop (T : Tree) (word : Word) : (turns n : Nat) → Option Word
  | 0, _ => none
  | turns + 1, n =>
    match T.nodes[n]? with
    | none => none
    | some node =>
      match T.slots[node.first +
        ((word >>> node.shift) &&& (((1 : Word) <<< node.bits) - 1)).toNat]? with
      | none => none
      | some slot =>
        if slot &&& nodeFlag = 0 then some slot
          else walkLoop T word turns (slot &&& ~~~nodeFlag).toNat

/-- `WalkTree`. A walk that comes to its end meets no node twice. -/
def Tree.walkTree (T : Tree) (word : Word) : Option Word := T.walkLoop word T.nodes.length 0

/-! ## The search -/

/-- The test of a pair in `HasEqualFields` of `diana_arm64.c`. -/
def Distinct.equalA64 (d : Distinct) (word : Word) : Bool :=
  let mask := ((1 : Word) <<< d.width) - 1
  let value1 := (word >>> d.lsb1) &&& mask
  value1 == (word >>> d.lsb2) &&& mask && !(d.spIs31 && value1 == mask)

section Search

variable (equal : Distinct → Word → Bool) (T : Tables)

/-- `MatchesUnless` -/
def matchesUnless (cmd : CmdInfo) (word : Word) : Bool :=
  ((T.pUnless.drop cmd.unlessFirst).take cmd.unlessCount).any fun p => p.matches word

/-- `HasEqualFields` -/
def hasEqualFields (cmd : CmdInfo) (word : Word) : Bool :=
  ((T.pDistinct.drop cmd.distinctFirst).take cmd.distinctCount).any fun d => equal d word

/-- `IsCmdEnabled` -/
def isCmdEnabled (cmd : CmdInfo) (profile : BitVec 64) : Bool :=
  if cmd.features &&& ~~~profile ≠ 0 then false
  else cmd.featuresAny == 0 || T.pFeaturesAny.getD cmd.featuresAny 0 &&& profile != 0

def Tables.cmdAt (n : Nat) : CmdInfo := T.cmds.getD n default

/-- The tests behind the pattern. -/
def refuses (cmd : CmdInfo) (word : Word) : Bool :=
  (cmd.unlessCount != 0 && matchesUnless T cmd word) ||
    (cmd.distinctCount != 0 && hasEqualFields equal T cmd word)

variable {ρ : Type} (fillResult : (cmd : Nat) → Word → Option ρ)

/-- The loop of `DianaA64_DecodeWord` and of `Lookup`. -/
def lookup (profile : BitVec 64) (word : Word) : List Leaf → Option (Nat × ρ)
  | [] => none
  | leaf :: leaves =>
    if leaf.pattern.matches word = false then lookup profile word leaves
    else
      let cmd := T.cmdAt leaf.cmd
      if refuses equal T cmd word then lookup profile word leaves
      else if isCmdEnabled T cmd profile = false then lookup profile word leaves
      else
        match fillResult leaf.cmd word with
        | some r => some (leaf.cmd, r)
        | none => lookup profile word leaves

/-- The first loop of `GetUndefinedCmd`. -/
def findsDisabled (profile : BitVec 64) (word : Word) (leaves : List Leaf) : Bool :=
  leaves.any fun leaf =>
    leaf.pattern.matches word && !isCmdEnabled T (T.cmdAt leaf.cmd) profile && !refuses equal T
      (T.cmdAt leaf.cmd) word

/-- `GetUndefinedCmd` -/
def getUndefinedCmd (profile : BitVec 64) (word : Word) : Option Nat :=
  match T.tree.walkTree word with
  | none => none
  | some slot =>
    if findsDisabled equal T profile word (T.tree.leavesOf slot) then some T.disabledCmd
    else
      match T.unsupported.walkTree word with
      | none => none
      | some slot =>
        if (T.unsupported.leavesOf slot).any fun leaf => leaf.pattern.matches word then
          some T.unsupportedCmd
        else some T.undefinedCmd

/-- `DianaA64_DecodeWord`, and `Lookup` with what its callers do without a command: nothing when a
walk does not end, then nothing when `FillResult` refuses the last command, too. -/
def decodeWord (profile : BitVec 64) (word : Word) : Option (Option (Nat × ρ)) :=
  match T.tree.walkTree word with
  | none => none
  | some slot =>
    match lookup equal T fillResult profile word (T.tree.leavesOf slot) with
    | some r => some (some r)
    | none =>
      match getUndefinedCmd equal T profile word with
      | none => none
      | some cmd => some ((fillResult cmd word).map fun r => (cmd, r))

end Search

/-- `DIANA_A64_WORD_*` -/
inductive WordClass where
  | supported | unallocated | unsupported | disabled
  deriving DecidableEq, Repr

/-- `DianaA64_GetWordClass` of a result with this command. -/
def getWordClass (T : Tables) (cmd : Nat) : WordClass :=
  if (T.cmdAt cmd).commandId = T.inst then .unallocated
  else if (T.cmdAt cmd).commandId = T.instUnsupported then .unsupported
  else if (T.cmdAt cmd).commandId = T.instDisabled then .disabled
  else .supported

/-! ## The tree and the list -/

/-- The tree, with the slots told apart. -/
def Tree.toDispatch (T : Tree) : DispatchTree Leaf where
  node n := T.nodes[n]?
  slot i := T.slots[i]?.map fun slot =>
    if slot &&& nodeFlag = 0 then .items (T.leavesOf slot) else .child (slot &&& ~~~nodeFlag).toNat

/-- The tree is the one for a list of leaves: each word comes to the leaves that can match it, in
the order of the list. -/
def Tree.check (T : Tree) (leaves : List Leaf) : Bool :=
  T.toDispatch.check Leaf.pattern T.nodes.length 0 ⟨0, 0⟩ leaves

theorem field_eq (word : Word) (shift bits : Nat) :
    ((word >>> shift) &&& (((1 : Word) <<< bits) - 1)).toNat =
    (word.extractLsb' shift bits).toNat := by
  have hlt : word.toNat >>> shift < 2 ^ 32 := Nat.lt_of_le_of_lt (Nat.shiftRight_le _ _) word.isLt
  rw [BitVec.toNat_and, BitVec.toNat_ushiftRight, BitVec.extractLsb'_toNat]
  by_cases hbits : bits < 32
  · rw [toNat_lowMask hbits]
    exact Nat.and_two_pow_sub_one_eq_mod _ bits
  · have hzero : (1 : Word) <<< bits = 0 := BitVec.shiftLeft_eq_zero (Nat.le_of_not_lt hbits)
    have hpow : 2 ^ 32 ≤ 2 ^ bits := Nat.pow_le_pow_right Nat.two_pos (Nat.le_of_not_lt hbits)
    rw [hzero, Nat.mod_eq_of_lt (Nat.lt_of_lt_of_le hlt hpow)]
    exact (Nat.and_two_pow_sub_one_eq_mod _ 32).trans (Nat.mod_eq_of_lt hlt)

theorem walkLoop_leavesOf (T : Tree) (word : Word) (turns n : Nat) :
    (T.walkLoop word turns n).map T.leavesOf = T.toDispatch.walk word turns n := by
  induction turns generalizing n with
  | zero => rfl
  | succ turns ih =>
    unfold Tree.walkLoop DispatchTree.walk
    have hnode : T.toDispatch.node n = T.nodes[n]? := rfl
    rw [hnode]
    cases T.nodes[n]? with
    | none => rfl
    | some node =>
      dsimp only
      have hslot : T.toDispatch.slot (node.first + (word.extractLsb' node.shift node.bits).toNat) =
          T.slots[node.first + (word.extractLsb' node.shift node.bits).toNat]?.map fun slot =>
            if slot &&& nodeFlag = 0 then .items (T.leavesOf slot)
              else .child (slot &&& ~~~nodeFlag).toNat := rfl
      rw [hslot, field_eq]
      cases T.slots[node.first + (word.extractLsb' node.shift node.bits).toNat]? with
      | none => rfl
      | some slot =>
        rw [Option.map_some]
        dsimp only
        by_cases hflag : slot &&& nodeFlag = 0
        · rw [if_pos hflag, if_pos hflag, Option.map_some]
        · rw [if_neg hflag, if_neg hflag]
          exact ih _

theorem walkTree_of_check {T : Tree} {leaves : List Leaf} (h : T.check leaves = true)
    (word : Word) : ∃ slot, T.walkTree word = some slot ∧
      (T.leavesOf slot).filter (fun l => l.pattern.matches word) = leaves.filter fun l =>
      l.pattern.matches word := by
  have hall : (⟨0, 0⟩ : Pattern 32).matches word = true := beq_iff_eq.2 (BitVec.and_zero)
  obtain ⟨l, hwalk, hl⟩ := DispatchTree.walk_of_check h hall
  rw [← walkLoop_leavesOf] at hwalk
  obtain ⟨slot, hslot, rfl⟩ := Option.map_eq_some_iff.1 hwalk
  exact ⟨slot, hslot, hl⟩

section List

variable {equal : Distinct → Word → Bool} {T : Tables} {ρ : Type} {fillResult : (cmd : Nat) →
  Word → Option ρ}

/-- A leaf whose command the word is, for a profile. -/
def takes (equal : Distinct → Word → Bool) (T : Tables) (fillResult : (cmd : Nat) → Word → Option ρ)
    (profile : BitVec 64) (word : Word) (leaf : Leaf) : Bool :=
  leaf.pattern.matches word && !refuses equal T (T.cmdAt leaf.cmd) word && isCmdEnabled T
    (T.cmdAt leaf.cmd) profile && (fillResult leaf.cmd word).isSome

theorem lookup_eq (profile : BitVec 64) (word : Word) (leaves : List Leaf) :
    lookup equal T fillResult profile word leaves =
      (leaves.find? (takes equal T fillResult profile word)).bind fun leaf =>
        (fillResult leaf.cmd word).map fun r => (leaf.cmd, r) := by
  induction leaves with
  | nil => rfl
  | cons leaf leaves ih =>
    rw [lookup, List.find?_cons, takes]
    cases hmatches : leaf.pattern.matches word with
    | false => simpa [hmatches] using ih
    | true =>
      cases hrefuses : refuses equal T (T.cmdAt leaf.cmd) word with
      | true => simpa [hrefuses] using ih
      | false =>
        cases henabled : isCmdEnabled T (T.cmdAt leaf.cmd) profile with
        | false => simpa [hrefuses, henabled] using ih
        | true =>
          cases hfill : fillResult leaf.cmd word with
          | none => simpa [hrefuses, henabled, hfill] using ih
          | some r => simp [hrefuses, henabled, hfill]

/-- Leaves that do not match make no difference. -/
theorem find?_takes_filter (profile : BitVec 64) (word : Word) (leaves : List Leaf) :
    (leaves.filter fun l => l.pattern.matches word).find? (takes equal T fillResult profile word) =
      leaves.find? (takes equal T fillResult profile word) := by
  rw [List.find?_filter]
  refine congrArg (List.find? · leaves) (funext fun l => ?_)
  unfold takes
  cases l.pattern.matches word <;> simp

theorem findsDisabled_filter (profile : BitVec 64) (word : Word) (leaves : List Leaf) :
    findsDisabled equal T profile word (leaves.filter fun l => l.pattern.matches word) =
      findsDisabled equal T profile word leaves := by
  unfold findsDisabled
  rw [List.any_filter]
  refine congrArg (List.any leaves) (funext fun l => ?_)
  cases l.pattern.matches word <;> simp

/-- The tables are those for two lists of leaves: the commands, and the words that are no command of
the specification. -/
def Tables.check (T : Tables) (leaves unsupported : List Leaf) : Bool :=
  T.tree.check leaves && T.unsupported.check unsupported

/-- The command of a word that no leaf takes. -/
def undefinedOf (equal : Distinct → Word → Bool) (T : Tables) (leaves unsupported : List Leaf)
    (profile : BitVec 64) (word : Word) : Nat :=
  if findsDisabled equal T profile word leaves then T.disabledCmd
  else if unsupported.any fun l => l.pattern.matches word then T.unsupportedCmd
  else T.undefinedCmd

/-- A search of the whole list. -/
def decodeList (equal : Distinct → Word → Bool) (T : Tables)
    (fillResult : (cmd : Nat) → Word → Option ρ) (leaves unsupported : List Leaf)
    (profile : BitVec 64) (word : Word) : Option (Nat × ρ) :=
  let cmd := ((leaves.find? (takes equal T fillResult profile word)).map Leaf.cmd).getD
    (undefinedOf equal T leaves unsupported profile word)
  (fillResult cmd word).map fun r => (cmd, r)

variable {leaves unsupported : List Leaf}

theorem any_matches_filter (word : Word) (leaves : List Leaf) :
    ((leaves.filter fun l => l.pattern.matches word).any fun l => l.pattern.matches word) =
      leaves.any fun l => l.pattern.matches word := by
  rw [List.any_filter]
  exact congrArg (List.any leaves) (funext fun l => Bool.and_self _)

theorem getUndefinedCmd_eq (h : T.check leaves unsupported = true) (profile : BitVec 64)
    (word : Word) :
    getUndefinedCmd equal T profile word = some
    (undefinedOf equal T leaves unsupported profile word) := by
  obtain ⟨htree, hunsupported⟩ := Bool.and_eq_true_iff.1 h
  obtain ⟨slot, hwalk, hleaves⟩ := walkTree_of_check htree word
  obtain ⟨slot', hwalk', hleaves'⟩ := walkTree_of_check hunsupported word
  unfold getUndefinedCmd undefinedOf
  rw [hwalk, hwalk']
  dsimp only
  rw [← findsDisabled_filter, hleaves, findsDisabled_filter,
    ← any_matches_filter word (T.unsupported.leavesOf slot'), hleaves',
    any_matches_filter]
  cases findsDisabled equal T profile word leaves with
  | true => rfl
  | false => cases unsupported.any fun l => l.pattern.matches word <;> rfl

theorem decodeWord_eq (h : T.check leaves unsupported = true) (profile : BitVec 64) (word : Word) :
    decodeWord equal T fillResult profile word = some
    (decodeList equal T fillResult leaves unsupported profile word) := by
  obtain ⟨slot, hwalk, hleaves⟩ := walkTree_of_check (Bool.and_eq_true_iff.1 h).1 word
  unfold decodeWord decodeList
  rw [hwalk, getUndefinedCmd_eq h]
  dsimp only
  rw [lookup_eq, ← find?_takes_filter, hleaves, find?_takes_filter]
  cases hfind : leaves.find? (takes equal T fillResult profile word) with
  | none => rfl
  | some leaf =>
    have htakes := List.find?_some hfind
    unfold takes at htakes
    obtain ⟨r, hr⟩ := Option.isSome_iff_exists.1 (Bool.and_eq_true_iff.1 htakes).2
    simp [hr]

/-- Two commands, the more specific one with a feature, and a word that is allocated without a
command. -/
def twoCmds : Tables where
  tree :=
    { nodes := [⟨31, 1, 0⟩], slots := [0, 0x12],
      leaves := [⟨⟨0, 0⟩, 0⟩, ⟨⟨0xc0000000, 0xc0000000⟩, 4⟩, ⟨⟨0x80000000, 0x80000000⟩, 3⟩] }
  cmds := [⟨0, 0, 0, 0, 0, 0, 0⟩, ⟨1, 0, 0, 0, 0, 0, 0⟩, ⟨2, 0, 0, 0, 0, 0, 0⟩,
    ⟨3, 0, 0, 0, 0, 0, 0⟩, ⟨4, 1, 0, 0, 0, 0, 0⟩]
  pUnless := []
  pDistinct := []
  pFeaturesAny := []
  unsupported :=
    { nodes := [⟨31, 1, 0⟩], slots := [0x11, 0], leaves := [⟨⟨0, 0⟩, 0⟩, ⟨⟨0xc0000000, 0⟩, 0⟩] }
  undefinedCmd := 0
  unsupportedCmd := 1
  disabledCmd := 2
  inst := 0
  instUnsupported := 1
  instDisabled := 2

def twoLeaves : List Leaf := [⟨⟨0xc0000000, 0xc0000000⟩, 4⟩, ⟨⟨0x80000000, 0x80000000⟩, 3⟩]

def twoUnsupported : List Leaf := [⟨⟨0xc0000000, 0⟩, 0⟩]

theorem twoCmds_check : twoCmds.check twoLeaves twoUnsupported = true := by decide

theorem decodeWord_eq_twoCmds :
    decodeWord Distinct.equalA64 twoCmds (fun _ word => some word) 0 0xc0000001 = some
    (some (3, 0xc0000001)) :=
  (decodeWord_eq twoCmds_check 0 _).trans (by decide)

/-- What a word is for a profile. -/
def classOf (equal : Distinct → Word → Bool) (T : Tables)
    (fillResult : (cmd : Nat) → Word → Option ρ) (leaves unsupported : List Leaf)
    (profile : BitVec 64) (word : Word) : WordClass :=
  if leaves.any (takes equal T fillResult profile word) then .supported
  else if findsDisabled equal T profile word leaves then .disabled
  else if unsupported.any fun l => l.pattern.matches word then .unsupported
  else .unallocated

/-- The three commands of words without one: no leaf has them, and `FillResult` accepts
each word for them. -/
structure Specials (T : Tables) (fillResult : (cmd : Nat) → Word → Option ρ) (leaves : List Leaf) :
    Prop where
  inst : (T.cmdAt T.undefinedCmd).commandId = T.inst
  instUnsupported : (T.cmdAt T.unsupportedCmd).commandId = T.instUnsupported
  instDisabled : (T.cmdAt T.disabledCmd).commandId = T.instDisabled
  distinct : [T.inst, T.instUnsupported, T.instDisabled].Nodup
  leaves : ∀ l ∈ leaves, (T.cmdAt l.cmd).commandId ∉ [T.inst, T.instUnsupported, T.instDisabled]
  fills : ∀ cmd ∈ [T.undefinedCmd, T.unsupportedCmd, T.disabledCmd], ∀ word,
    (fillResult cmd word).isSome

theorem twoCmds_specials : Specials twoCmds (fun _ word => some word) twoLeaves where
  inst := rfl
  instUnsupported := rfl
  instDisabled := rfl
  distinct := by decide
  leaves := by decide
  fills _ _ _ := rfl

/-- `DianaA64_GetWordClass` of what `DianaA64_DecodeWord` leaves. -/
def wordClass (equal : Distinct → Word → Bool) (T : Tables)
    (fillResult : (cmd : Nat) → Word → Option ρ) (profile : BitVec 64) (word : Word) :
    Option WordClass :=
  match decodeWord equal T fillResult profile word with
  | some (some r) => some (getWordClass T r.1)
  | _ => none

theorem getWordClass_undefinedOf (hs : Specials T fillResult leaves) (profile : BitVec 64)
    (word : Word) : getWordClass T (undefinedOf equal T leaves unsupported profile word) =
      if findsDisabled equal T profile word leaves then .disabled
      else if unsupported.any fun l => l.pattern.matches word then .unsupported
      else .unallocated := by
  have hdistinct := hs.distinct
  simp only [List.nodup_cons, List.mem_cons, List.not_mem_nil, or_false, not_or] at hdistinct
  obtain ⟨⟨hne, hne'⟩, hne'', -⟩ := hdistinct
  unfold undefinedOf getWordClass
  cases findsDisabled equal T profile word leaves with
  | true => simp [hs.instDisabled, Ne.symm hne', Ne.symm hne'']
  | false =>
    cases unsupported.any fun l => l.pattern.matches word with
    | true => simp [hs.instUnsupported, Ne.symm hne]
    | false => simp [hs.inst]

theorem undefinedOf_fills (hs : Specials T fillResult leaves) (profile : BitVec 64) (word : Word) :
    (fillResult (undefinedOf equal T leaves unsupported profile word) word).isSome := by
  apply hs.fills
  unfold undefinedOf
  cases findsDisabled equal T profile word leaves with
  | true => simp
  | false => cases unsupported.any fun l => l.pattern.matches word <;> simp

/-- A word has one class: it is supported when a leaf takes it, disabled when one would but for the
profile, and what the other tree says when there is none. -/
theorem wordClass_eq (h : T.check leaves unsupported = true) (hs : Specials T fillResult leaves)
    (profile : BitVec 64) (word : Word) :
    wordClass equal T fillResult profile word = some
    (classOf equal T fillResult leaves unsupported profile word) := by
  unfold wordClass classOf
  rw [decodeWord_eq h]
  unfold decodeList
  cases hfind : leaves.find? (takes equal T fillResult profile word) with
  | none =>
    have hany : leaves.any (takes equal T fillResult profile word) = false :=
      List.any_eq_false.2 fun l hl => List.find?_eq_none.1 hfind l hl
    have hfills : (fillResult (undefinedOf equal T leaves unsupported profile word) word).isSome :=
      undefinedOf_fills hs profile word
    obtain ⟨r, hr⟩ := Option.isSome_iff_exists.1 hfills
    have hclass : getWordClass T (undefinedOf equal T leaves unsupported profile word) = _ :=
      getWordClass_undefinedOf hs profile word
    simp only [hany, Option.map_none, Option.getD_none, hr, Option.map_some, hclass,
      Bool.false_eq_true, if_false]
  | some leaf =>
    have htakes := List.find?_some hfind
    have hmem := List.mem_of_find?_eq_some hfind
    have hany : leaves.any (takes equal T fillResult profile word) = true :=
      List.any_eq_true.2 ⟨leaf, hmem, htakes⟩
    unfold takes at htakes
    obtain ⟨r, hr⟩ := Option.isSome_iff_exists.1 (Bool.and_eq_true_iff.1 htakes).2
    have hid := hs.leaves leaf hmem
    simp only [List.mem_cons, List.not_mem_nil, or_false, not_or] at hid
    simp [hany, hr, getWordClass, hid]

/-! ## Profiles -/

theorem and_not_eq_zero_iff {w : Nat} (x y : BitVec w) :
    x &&& ~~~y = 0 ↔ ∀ i, x.getLsbD i = true → y.getLsbD i = true := by
  constructor
  · intro h i hi
    have hbit := congrArg (fun z : BitVec w => z.getLsbD i) h
    have hlt := BitVec.lt_of_getLsbD hi
    simpa [hi, hlt] using hbit
  · intro h
    apply BitVec.eq_of_getLsbD_eq
    intro i hi
    cases hx : x.getLsbD i with
    | false => simp [hx]
    | true => simp [hx, h i hx]

theorem and_eq_zero_of_subset {w : Nat} {x y z : BitVec w} (hyz : y &&& ~~~z = 0)
    (h : x &&& z = 0) : x &&& y = 0 := by
  apply BitVec.eq_of_getLsbD_eq
  intro i hi
  have hbit := congrArg (fun v : BitVec w => v.getLsbD i) h
  cases hy : y.getLsbD i with
  | false => simp [hy]
  | true =>
    have hz := (and_not_eq_zero_iff y z).1 hyz i hy
    simpa [hy, hz] using hbit

theorem isCmdEnabled_mono {profile profile' : BitVec 64} (hp : profile &&& ~~~profile' = 0)
    {cmd : CmdInfo} (h : isCmdEnabled T cmd profile = true) :
    isCmdEnabled T cmd profile' = true := by
  unfold isCmdEnabled at h ⊢
  by_cases hfeatures : cmd.features &&& ~~~profile = 0
  · have hfeatures' : cmd.features &&& ~~~profile' = 0 := by
      rw [and_not_eq_zero_iff] at hfeatures hp ⊢
      exact fun i hi => hp i (hfeatures i hi)
    rw [if_neg (not_not_intro hfeatures)] at h
    rw [if_neg (not_not_intro hfeatures')]
    rcases Bool.or_eq_true_iff.1 h with hnone | hany
    · rw [hnone, Bool.true_or]
    · have hany' : T.pFeaturesAny.getD cmd.featuresAny 0 &&& profile' ≠ 0 := fun h0 =>
        bne_iff_ne.1 hany (and_eq_zero_of_subset hp h0)
      rw [bne_iff_ne.2 hany', Bool.or_true]
  · rw [if_pos hfeatures] at h
    cases h

theorem takes_mono {profile profile' : BitVec 64} (hp : profile &&& ~~~profile' = 0) {word : Word}
    {leaf : Leaf} (h : takes equal T fillResult profile word leaf = true) :
    takes equal T fillResult profile' word leaf = true := by
  unfold takes at h ⊢
  simp only [Bool.and_eq_true] at h ⊢
  exact ⟨⟨h.1.1, isCmdEnabled_mono hp h.1.2⟩, h.2⟩

theorem find?_weaken {α : Type} {p q : α → Bool} (hpq : ∀ x, p x = true → q x = true) (l : List α) :
    l.find? q = l.find? p ∨ ∃ x, l.find? q = some x ∧ p x = false := by
  induction l with
  | nil => exact .inl rfl
  | cons x l ih =>
    rw [List.find?_cons, List.find?_cons]
    cases hp : p x with
    | true =>
      rw [hpq x hp]
      exact .inl rfl
    | false =>
      cases q x with
      | true => exact .inr ⟨x, rfl, hp⟩
      | false => exact ih

/-- What is enabled only with more features is called disabled. -/
theorem findsDisabled_of_takes {profile profile' : BitVec 64} {word : Word}
    (h : leaves.any (takes equal T fillResult profile word) = false)
    (h' : leaves.any (takes equal T fillResult profile' word) = true) :
    findsDisabled equal T profile word leaves = true := by
  obtain ⟨leaf, hmem, htakes'⟩ := List.any_eq_true.1 h'
  have htakes := List.any_eq_false.1 h leaf hmem
  refine List.any_eq_true.2 ⟨leaf, hmem, ?_⟩
  unfold takes at htakes htakes'
  simp only [Bool.and_eq_true] at htakes htakes' ⊢
  obtain ⟨⟨⟨hmatches, hrefuses⟩, henabled'⟩, hfill⟩ := htakes'
  cases henabled : isCmdEnabled T (T.cmdAt leaf.cmd) profile with
  | true => exact absurd ⟨⟨⟨hmatches, hrefuses⟩, henabled⟩, hfill⟩ htakes
  | false => exact ⟨⟨hmatches, rfl⟩, hrefuses⟩

/-- A word that is supported stays so with more features; one that more features make supported is
called disabled without them, and never unsupported or unallocated. -/
theorem wordClass_mono (h : T.check leaves unsupported = true) (hs : Specials T fillResult leaves)
    {profile profile' : BitVec 64} (hp : profile &&& ~~~profile' = 0) (word : Word) :
    (wordClass equal T fillResult profile word = some .supported →
        wordClass equal T fillResult profile' word = some .supported) ∧
      (wordClass equal T fillResult profile' word = some .supported →
        wordClass equal T fillResult profile word = some .supported ∨
          wordClass equal T fillResult profile word = some .disabled) := by
  have hany : ∀ p, wordClass equal T fillResult p word = some .supported ↔
      leaves.any (takes equal T fillResult p word) = true := by
    intro p
    rw [wordClass_eq h hs, Option.some_inj]
    unfold classOf
    cases leaves.any (takes equal T fillResult p word) with
    | true => simp
    | false =>
      cases findsDisabled equal T p word leaves with
      | true => simp
      | false => cases unsupported.any fun l => l.pattern.matches word <;> simp
  rw [hany, hany]
  constructor
  · intro hsupported
    obtain ⟨leaf, hmem, htakes⟩ := List.any_eq_true.1 hsupported
    exact List.any_eq_true.2 ⟨leaf, hmem, takes_mono hp htakes⟩
  · intro hsupported'
    cases hsupported : leaves.any (takes equal T fillResult profile word) with
    | true => exact .inl rfl
    | false =>
      right
      rw [wordClass_eq h hs]
      unfold classOf
      simp [hsupported, findsDisabled_of_takes hsupported hsupported']

/-- One command, with a feature. -/
def featureCmd : Tables :=
  { twoCmds with
    tree :=
      { nodes := [⟨31, 1, 0⟩], slots := [0, 0x11],
        leaves := [⟨⟨0, 0⟩, 0⟩, ⟨⟨0x80000000, 0x80000000⟩, 4⟩] } }

/-- A word with a command of no feature stays supported; one that only the feature makes supported
is called disabled without it. -/
theorem wordClass_mono_twoCmds :
    wordClass Distinct.equalA64 twoCmds (fun _ word => some word) 1 0xc0000001 = some .supported ∧
      wordClass Distinct.equalA64 featureCmd (fun _ word => some word) 0 0x80000001 =
      some .disabled := by
  have hp : (0 : BitVec 64) &&& ~~~1 = 0 := by decide
  have hcheck : featureCmd.check [⟨⟨0x80000000, 0x80000000⟩, 4⟩] twoUnsupported = true := by decide
  have hspecials : Specials featureCmd (fun _ word => some word) [⟨⟨0x80000000, 0x80000000⟩, 4⟩] :=
    ⟨rfl, rfl, rfl, by decide, by decide, fun _ _ _ => rfl⟩
  refine ⟨(wordClass_mono twoCmds_check twoCmds_specials hp 0xc0000001).1 (by decide), ?_⟩
  exact ((wordClass_mono hcheck hspecials hp 0x80000001).2 (by decide)).resolve_left (by decide)

/-- Where a word is a command, more features change what it is only to a command that they
enable. -/
theorem decodeWord_mono (h : T.check leaves unsupported = true) {profile profile' : BitVec 64}
    (hp : profile &&& ~~~profile' = 0) {word : Word}
    (htakes : leaves.any (takes equal T fillResult profile word) = true) :
    decodeWord equal T fillResult profile' word = decodeWord equal T fillResult profile word ∨
      ∃ leaf ∈ leaves, leaf.pattern.matches word = true ∧ isCmdEnabled T
      (T.cmdAt leaf.cmd) profile = false ∧
        isCmdEnabled T (T.cmdAt leaf.cmd) profile' = true ∧
        ∃ r, fillResult leaf.cmd word = some r ∧ decodeWord equal T fillResult profile' word = some
        (some (leaf.cmd, r)) := by
  rw [decodeWord_eq h, decodeWord_eq h]
  unfold decodeList
  obtain ⟨leaf, hmem, hleaf⟩ := List.any_eq_true.1 htakes
  obtain heq | ⟨leaf', hfind, hnot⟩ := find?_weaken (fun _ => takes_mono hp) leaves
  · left
    rw [heq]
    cases hfind : leaves.find? (takes equal T fillResult profile word) with
    | none => exact absurd hleaf (List.find?_eq_none.1 hfind leaf hmem)
    | some _ => rfl
  · right
    have htakes' := List.find?_some hfind
    unfold takes at hnot htakes'
    simp only [Bool.and_eq_true] at htakes'
    obtain ⟨⟨⟨hmatches, hrefuses⟩, henabled'⟩, hfill⟩ := htakes'
    obtain ⟨r, hr⟩ := Option.isSome_iff_exists.1 hfill
    have henabled : isCmdEnabled T (T.cmdAt leaf'.cmd) profile = false := by
      simpa [hmatches, hrefuses, hfill] using hnot
    exact ⟨leaf', List.mem_of_find?_eq_some hfind, hmatches, henabled, henabled', r,
      hr, by simp [hfind, hr]⟩

theorem decodeWord_mono_twoCmds :
    ∃ leaf ∈ twoLeaves, isCmdEnabled twoCmds (twoCmds.cmdAt leaf.cmd) 0 = false ∧
      isCmdEnabled twoCmds (twoCmds.cmdAt leaf.cmd) 1 = true ∧
      decodeWord Distinct.equalA64 twoCmds (fun _ word => some word) 1 0xc0000001 = some
      (some (leaf.cmd, 0xc0000001)) := by
  have hp : (0 : BitVec 64) &&& ~~~1 = 0 := by decide
  have hne : decodeWord Distinct.equalA64 twoCmds (fun _ word => some word) 1 0xc0000001 ≠
      decodeWord Distinct.equalA64 twoCmds (fun _ word => some word) 0 0xc0000001 := by decide
  have htakes : twoLeaves.any
      (takes Distinct.equalA64 twoCmds (fun _ word => some word) 0 0xc0000001) = true := by decide
  obtain heq | ⟨leaf, hmem, -, hdisabled, henabled, r, hr, hdecode⟩ :=
    decodeWord_mono twoCmds_check hp htakes
  · exact absurd heq hne
  · cases hr
    exact ⟨leaf, hmem, hdisabled, henabled, hdecode⟩

end List

end Diana.ArmTables
