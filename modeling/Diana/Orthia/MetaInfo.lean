import Diana.Orthia.ArmCodeMap
import Diana.Orthia.DatabaseSaver

/-!
# The code map in the database

`SaveArmCodeMap` stores the changes of a code map as rows of `tbl_metainfo`, one by one:
`InsertMetaInfo` puts a new text into the rows of the same module, type and address, and adds a row
where there is none.

* `Stores`: the rows of a module say what a partial map says;
* `stores_saveArmCodeMap`: what a save makes of that map.
-/

namespace Diana.Orthia.ArmCode

open Diana.Lib Diana.Orthia.Saver

/-- A row of `tbl_metainfo`. The types are the numbers of `g_database_type_*`; no row has type
-1. -/
structure MetaRow where
  /-- `meta_mod_id`, the address of the module -/
  modId : Nat
  /-- `meta_address`, or `NULL` -/
  metaAddress : Option SqlInt
  metaType : Nat
  info : String
  deriving DecidableEq

def DI_MAX_OPERAND_SIZE : Nat := 2 ^ 64 - 1

def g_database_type_armCodeMap : Nat := 5

/-- `AddrToDb` -/
def toDb (address : Nat) : SqlInt := addrToDb (Fin.ofNat (2 ^ 64) address)

/-- `DbToAddr` -/
def ofDb (v : SqlInt) : Nat := (dbToAddr v).val

/-- `meta_address` of a row: `DI_MAX_OPERAND_SIZE` is not bound. -/
def metaKey (metaAddress : Nat) : Option SqlInt :=
  if metaAddress ≠ DI_MAX_OPERAND_SIZE then some (toDb metaAddress) else none

/-- The `WHERE` clause of the `UPDATE`. -/
def MetaRow.isAt (moduleAddress metaType : Nat) (key : Option SqlInt) (r : MetaRow) : Bool :=
  r.modId = moduleAddress ∧ r.metaType = metaType ∧ r.metaAddress = key

/-- `InsertMetaInfo`. The table has no unique key, so `INSERT OR REPLACE` inserts. -/
def insertMetaInfo (table : List MetaRow) (moduleAddress metaType : Nat) (text : String)
    (metaAddress : Nat) (checkDuplicates : Bool) : List MetaRow :=
  if checkDuplicates ∧ table.any (MetaRow.isAt moduleAddress metaType (metaKey metaAddress)) then
    table.map fun r => if r.isAt moduleAddress metaType (metaKey metaAddress) then
      { r with info := text } else r
  else table ++ [⟨moduleAddress, metaKey metaAddress, metaType, text⟩]

/-- `SaveArmCodeMap` -/
def saveArmCodeMap (table : List MetaRow) (baseAddress : Nat) (changes : List ArmCodeChange) :
    List MetaRow :=
  changes.foldl (fun table change =>
    insertMetaInfo table baseAddress g_database_type_armCodeMap (getArmCodeKindName change.kind)
      (add64 baseAddress change.offset) true) table

/-! ## Addresses in the table -/

theorem ofDb_toDb {a : Nat} (h : a < 2 ^ 64) : ofDb (toDb a) = a := by
  unfold ofDb toDb
  rw [dbToAddr_addrToDb]
  exact Nat.mod_eq_of_lt h

theorem ofDb_lt (v : SqlInt) : ofDb v < 2 ^ 64 := (dbToAddr v).isLt

theorem toDb_ofDb (v : SqlInt) : toDb (ofDb v) = v := by
  unfold toDb ofDb
  rw [Fin.ofNat_val_eq_self, addrToDb_dbToAddr]

/-- The order of the database is the order of the addresses. -/
theorem toInt_le_toInt {v w : SqlInt} : v.toInt ≤ w.toInt ↔ ofDb v ≤ ofDb w := by
  rw [toInt_eq, toInt_eq]
  unfold ofDb
  omega

theorem toDb_inj {a b : Nat} (ha : a < 2 ^ 64) (hb : b < 2 ^ 64) : toDb a = toDb b ↔ a = b := by
  constructor
  · intro h
    rw [← ofDb_toDb ha, ← ofDb_toDb hb, h]
  · exact congrArg toDb

/-! ## The rows of a module -/

/-- A row of the code map of the module at `base`. -/
def MetaRow.Own (base : Nat) (r : MetaRow) :
    Prop := r.modId = base ∧ r.metaType = g_database_type_armCodeMap

/-- The rows of the module at `base` that have an address tell the kinds of `st`, each address
once. -/
structure Stores (table : List MetaRow) (base : Nat) (st : Nat → Option ArmCodeKind) : Prop where
  sound : ∀ r ∈ table, r.Own base → ∀ v, r.metaAddress = some v →
    ∃ kind, r.info = getArmCodeKindName kind ∧ st (ofDb v) = some kind
  complete : ∀ x kind, st x = some kind → x < 2 ^ 64 ∧ ∃ r ∈ table,
    r.Own base ∧ r.metaAddress = some (toDb x)
  unique : table.Pairwise fun r r' => r.Own base → r'.Own base → r.metaAddress ≠ r'.metaAddress

/-- The kinds with another one at an address. There is no row at `DI_MAX_OPERAND_SIZE`. -/
def storeAt (st : Nat → Option ArmCodeKind) (address : Nat) (kind : ArmCodeKind) :
    Nat → Option ArmCodeKind :=
  fun x => if x = address ∧ x ≠ DI_MAX_OPERAND_SIZE then some kind else st x

/-- The kinds behind some changes. -/
def storeChanges (base : Nat) (st : Nat → Option ArmCodeKind) (changes : List ArmCodeChange) :
    Nat → Option ArmCodeKind :=
  changes.foldl (fun st change => storeAt st (add64 base change.offset) change.kind) st

section

variable {table : List MetaRow} {base x : Nat} {st : Nat → Option ArmCodeKind} {kind : ArmCodeKind}

/-- A database that has no code map of the module. -/
theorem stores_none (h : ∀ r ∈ table, ¬ r.Own base) : Stores table base fun _ => none where
  sound r hr hown := absurd hown (h r hr)
  complete _ _ h := nomatch h
  unique := List.pairwise_of_forall_mem_list fun r hr _ _ hown => absurd hown (h r hr)

theorem isAt_iff {r : MetaRow} {key : Option SqlInt} :
    r.isAt base g_database_type_armCodeMap key = true ↔ r.Own base ∧ r.metaAddress = key := by
  unfold MetaRow.isAt MetaRow.Own
  rw [decide_eq_true_iff, and_assoc]

theorem metaKey_eq_some {a : Nat} (ha : a < 2 ^ 64) {v : SqlInt} :
    metaKey a = some v ↔ ofDb v = a ∧ a ≠ DI_MAX_OPERAND_SIZE := by
  unfold metaKey
  by_cases hmax : a = DI_MAX_OPERAND_SIZE
  · rw [if_neg (not_not_intro hmax)]
    exact iff_of_false nofun fun h => h.2 hmax
  · rw [if_pos hmax, Option.some_inj, ← toDb_inj (ofDb_lt v) ha, toDb_ofDb, eq_comm]
    exact (and_iff_left hmax).symm

theorem storeAt_of_key {a : Nat} (ha : a < 2 ^ 64) {v : SqlInt} (h : metaKey a = some v) :
    storeAt st a kind (ofDb v) = some kind := by
  obtain ⟨hv, hmax⟩ := (metaKey_eq_some ha).1 h
  exact if_pos ⟨hv, hv ▸ hmax⟩

theorem storeAt_of_ne_key {a : Nat} (ha : a < 2 ^ 64) {v : SqlInt} (h : metaKey a ≠ some v) :
    storeAt st a kind (ofDb v) = st (ofDb v) := by
  refine if_neg fun hv => h ((metaKey_eq_some ha).2 ⟨hv.1, ?_⟩)
  rw [← hv.1]
  exact hv.2

/-- A kind that is stored afterwards is the new one or was stored before. -/
theorem storeAt_cases {a : Nat} {k : ArmCodeKind} (h : storeAt st a kind x = some k) :
    (x = a ∧ x ≠ DI_MAX_OPERAND_SIZE ∧ k = kind) ∨ st x = some k := by
  unfold storeAt at h
  split at h
  · rename_i hx
    exact Or.inl ⟨hx.1, hx.2, (Option.some.inj h).symm⟩
  · exact Or.inr h

/-- A row with a new text is at the same place. -/
theorem retext_place (r : MetaRow) (b : Bool) (text : String) :
    (if b then { r with info := text } else r).metaAddress = r.metaAddress ∧
      ((if b then { r with info := text } else r).Own base ↔ r.Own base) := by
  cases b <;> exact ⟨rfl, Iff.rfl⟩

/-- One row changes or is new; the other rows stay. -/
theorem stores_insertMetaInfo (h : Stores table base st) {a : Nat} (ha : a < 2 ^ 64)
    (kind : ArmCodeKind) :
    Stores
      (insertMetaInfo table base g_database_type_armCodeMap (getArmCodeKindName kind) a true)
      base (storeAt st a kind) := by
  have hkept : ∀ r ∈ table, r.Own base → ∀ v, r.metaAddress = some v → metaKey a ≠ r.metaAddress →
      ∃ k, r.info = getArmCodeKindName k ∧ storeAt st a kind (ofDb v) = some k := by
    intro r hr hown v hv hne
    rw [storeAt_of_ne_key ha (hv ▸ hne)]
    exact h.sound r hr hown v hv
  have hnew : ∀ v, metaKey a = some v →
      ∃ k, getArmCodeKindName kind = getArmCodeKindName k ∧ storeAt st a kind (ofDb v) = some k :=
    fun v hv => ⟨kind, rfl, storeAt_of_key ha hv⟩
  unfold insertMetaInfo
  split
  · rename_i hany
    obtain ⟨r₀, hr₀, hat₀⟩ := List.any_eq_true.1 hany.2
    obtain ⟨hown₀, hkey₀⟩ := isAt_iff.1 hat₀
    refine ⟨?_, ?_, ?_⟩
    · intro r hr hown v hv
      obtain ⟨s, hs, rfl⟩ := List.mem_map.1 hr
      obtain ⟨haddress, hownS⟩ :=
        @retext_place base s (s.isAt base g_database_type_armCodeMap (metaKey a))
        (getArmCodeKindName kind)
      rw [haddress] at hv
      by_cases hats : s.isAt base g_database_type_armCodeMap (metaKey a) = true
      · rw [if_pos hats]
        exact hnew v ((isAt_iff.1 hats).2 ▸ hv)
      · have hownS := hownS.1 hown
        rw [if_neg hats]
        exact hkept s hs hownS v hv fun he => hats (isAt_iff.2 ⟨hownS, he.symm⟩)
    · intro y k hy
      have hmap : ∀ r ∈ table, r.Own base ∧ r.metaAddress = some (toDb y) →
        ∃ r' ∈ (table.map fun r =>
          if r.isAt base g_database_type_armCodeMap (metaKey a) then
            { r with info := getArmCodeKindName kind }
          else r), r'.Own base ∧ r'.metaAddress = some (toDb y) := by
        intro r hr hown
        obtain ⟨haddress, hownR⟩ :=
          @retext_place base r (r.isAt base g_database_type_armCodeMap (metaKey a))
          (getArmCodeKindName kind)
        exact ⟨_, List.mem_map_of_mem hr, hownR.2 hown.1, haddress.trans hown.2⟩
      rcases storeAt_cases hy with ⟨rfl, hmax, -⟩ | hst
      · refine ⟨ha, hmap r₀ hr₀ ⟨hown₀, ?_⟩⟩
        rw [hkey₀]
        exact if_pos hmax
      · obtain ⟨hlt, r, hr, hown⟩ := h.complete y k hst
        exact ⟨hlt, hmap r hr hown⟩
    · rw [List.pairwise_map]
      refine h.unique.imp fun {r r'} hne hown hown' => ?_
      obtain ⟨haddress, hownR⟩ :=
        @retext_place base r (r.isAt base g_database_type_armCodeMap (metaKey a))
        (getArmCodeKindName kind)
      obtain ⟨haddress', hownR'⟩ :=
        @retext_place base r' (r'.isAt base g_database_type_armCodeMap (metaKey a))
        (getArmCodeKindName kind)
      rw [haddress, haddress']
      exact hne (hownR.1 hown) (hownR'.1 hown')
  · rename_i hany
    have hfree : ∀ r ∈ table, r.Own base → r.metaAddress ≠ metaKey a := fun r hr hown he =>
      hany ⟨rfl, List.any_eq_true.2 ⟨r, hr, isAt_iff.2 ⟨hown, he⟩⟩⟩
    refine ⟨?_, ?_, ?_⟩
    · intro r hr hown v hv
      rcases List.mem_append.1 hr with hr | hr
      · exact hkept r hr hown v hv (hfree r hr hown).symm
      · rw [List.mem_singleton.1 hr] at hv ⊢
        exact hnew v hv
    · intro y k hy
      rcases storeAt_cases hy with ⟨rfl, hmax, -⟩ | hst
      · exact ⟨ha, _, List.mem_append_right _ (List.mem_singleton_self _), ⟨rfl, rfl⟩, if_pos hmax⟩
      · obtain ⟨hlt, r, hr, hown⟩ := h.complete y k hst
        exact ⟨hlt, r, List.mem_append_left _ hr, hown⟩
    · refine List.pairwise_append.2 ⟨h.unique, List.pairwise_singleton _ _,
        fun r hr r' hr' hown _ => ?_⟩
      rw [List.mem_singleton.1 hr']
      exact hfree r hr hown

theorem stores_saveArmCodeMap (h : Stores table base st) (changes : List ArmCodeChange) :
    Stores (saveArmCodeMap table base changes) base (storeChanges base st changes) := by
  induction changes generalizing table st with
  | nil => exact h
  | cons change changes ih =>
    exact ih (stores_insertMetaInfo h (Nat.mod_lt _ (by decide)) change.kind)

/-! ## The kinds behind a save -/

theorem storeChanges_of_ne {changes : List ArmCodeChange}
    (h : ∀ c ∈ changes, add64 base c.offset ≠ x) : storeChanges base st changes x = st x := by
  induction changes generalizing st with
  | nil => rfl
  | cons c cs ih =>
    refine (ih fun d hd => h d (List.mem_cons_of_mem _ hd)).trans ?_
    exact if_neg fun hx => h c List.mem_cons_self hx.1.symm

/-- The last of the changes at an address stays; they are of one kind. -/
theorem storeChanges_of_mem {changes : List ArmCodeChange} (hx : x ≠ DI_MAX_OPERAND_SIZE)
    (hkind : ∀ c ∈ changes, add64 base c.offset = x → c.kind = kind) {c : ArmCodeChange}
    (hc : c ∈ changes) (hcx : add64 base c.offset = x) :
    storeChanges base st changes x = some kind := by
  induction changes generalizing st c with
  | nil => cases hc
  | cons d ds ih =>
    by_cases hlater : ∃ d' ∈ ds, add64 base d'.offset = x
    · obtain ⟨d', hd', hx'⟩ := hlater
      exact ih (fun d hd => hkind d (List.mem_cons_of_mem _ hd)) hd' hx'
    · refine (storeChanges_of_ne fun d' hd' he => hlater ⟨d', hd', he⟩).trans ?_
      rcases List.mem_cons.1 hc with rfl | hc
      · rw [← hkind c List.mem_cons_self hcx]
        exact if_pos ⟨hcx.symm, hx⟩
      · exact absurd ⟨c, hc, hcx⟩ hlater

/-- What an address of the module says after a save, by its offset. -/
theorem storeChanges_eq_some {changes : List ArmCodeChange} {offset : Nat}
    (hasc : Ascending changes) (hx : x ≠ DI_MAX_OPERAND_SIZE)
    (hoffset : ∀ c ∈ changes, add64 base c.offset = x ↔ c.offset = offset) :
    storeChanges base st changes x = some kind ↔
      (∃ c ∈ changes, c.offset = offset ∧ c.kind = kind) ∨
      ((∀ c ∈ changes, c.offset ≠ offset) ∧ st x = some kind) := by
  by_cases hmem : ∃ c ∈ changes, c.offset = offset
  · obtain ⟨c, hc, hco⟩ := hmem
    have hone : ∀ d ∈ changes, d.offset = offset → d = c := by
      intro d hd hdo
      rcases rel_of_pairwise hasc hd hc with he | hlt | hlt
      · exact he
      · omega
      · omega
    rw [storeChanges_of_mem hx (fun d hd he => congrArg _ (hone d hd ((hoffset d hd).1 he))) hc
      ((hoffset c hc).2 hco)]
    constructor
    · intro h
      exact Or.inl ⟨c, hc, hco, Option.some.inj h⟩
    · rintro (⟨d, hd, hdo, rfl⟩ | ⟨hnone, -⟩)
      · rw [hone d hd hdo]
      · exact absurd hco (hnone c hc)
  · have hnone : ∀ c ∈ changes, c.offset ≠ offset := fun c hc he => hmem ⟨c, hc, he⟩
    rw [storeChanges_of_ne fun c hc he => hnone c hc ((hoffset c hc).1 he)]
    constructor
    · exact fun h => Or.inr ⟨hnone, h⟩
    · rintro (⟨c, hc, he, -⟩ | ⟨-, h⟩)
      · exact absurd he (hnone c hc)
      · exact h

end

end Diana.Orthia.ArmCode
