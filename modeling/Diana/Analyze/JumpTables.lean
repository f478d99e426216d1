import Diana.Lib.Extension
import Diana.Analyze.KnownRegisters

/-!
# Jump tables

A switch in A64 code loads an entry of a table, adds it to an address and branches
there. `TrackArm64` recognises the load and the addition; at the branch
`SaveArm64JumpTable` follows every entry.

* `Table`: the load and the addition; `recognise`: how a step changes what was recognised;
* `Table.target`: what the processor computes for an index;
* `walk_describes`: the session describes what was recognised;
* `Reads`, `saveArm64JumpTable_routes`: the routes are those of the entries, taken as if
  loaded into an X register;
* `jumpTable_followed_iff`: when they are the addresses that the processor reaches.
-/

namespace Diana.Analyze.Arm64

open Diana.Lib Machine

/-! ## What the processor computes -/

/-- The extension of an operand register, before the shift. -/
def extendReg (shiftType : Nat) (v : Value) : Value :=
  if shiftType = DIANA_ARM_EXTEND_UXTB then (v.setWidth 8).setWidth 64
  else if shiftType = DIANA_ARM_EXTEND_UXTH then (v.setWidth 16).setWidth 64
  else if shiftType = DIANA_ARM_EXTEND_UXTW then (v.setWidth 32).setWidth 64
  else if shiftType = DIANA_ARM_EXTEND_SXTB then (v.setWidth 8).signExtend 64
  else if shiftType = DIANA_ARM_EXTEND_SXTH then (v.setWidth 16).signExtend 64
  else if shiftType = DIANA_ARM_EXTEND_SXTW then (v.setWidth 32).signExtend 64
  else v

/-- What a load leaves in its register: a signed load extends to the width of the
register it names, W or X. -/
def loadedValue (signed wide : Bool) (bytes : List Byte) : Value :=
  let v : BitVec (8 * bytes.length) := BitVec.ofNat _ (leNat bytes)
  if signed then if wide then v.signExtend 64 else (v.signExtend 32).setWidth 64
  else v.setWidth 64

/-- The register is an X register. -/
def Register.isX : Register → Bool
  | .x _ => true
  | _ => false

/-! ## What was recognised -/

/-- An instruction with the known value of its base. -/
structure Based where
  instruction : ParserResult
  base : Value
  relative : Bool

/-- The size of the entries that a load reads. -/
def Based.entrySize (b : Based) : Nat :=
  match b.instruction.linkedOperands with
  | [t, _] => (loadSize b.instruction.id t.usedSize).getD 0
  | _ => 0

/-- What `ldr... Rt, [Xn, Rm, extend #amount]` reads for an index. -/
def Based.entryBytes (b : Based) (loadBase : Value) (mem : Value → Byte) (i : Nat) : List Byte :=
  match b.instruction.linkedOperands with
  | [_, m] =>
    bytesAt mem (addressOf loadBase b.base b.relative +
      (extendReg m.shiftType (BitVec.ofNat 64 i) <<< m.shiftAmount))
      b.entrySize
  | _ => []

/-- `add Xd, Xn, Rm, extend #amount` -/
def Based.addTo (b : Based) (loadBase entry : Value) : Value :=
  match b.instruction.linkedOperands with
  | [_, _, m] =>
    addressOf loadBase b.base b.relative + (extendReg m.shiftType entry <<< m.shiftAmount)
  | _ => entry

/-- A jump table: the load of an entry with its bound, and the addition to it. -/
structure Table where
  load : Based
  count : Value
  add : Option Based

namespace Table

/-- The load extends the sign. -/
def signed (t : Table) : Bool := isSignedLoad t.load.instruction.id

/-- The load names an X register. -/
def wide (t : Table) : Bool :=
  t.load.instruction.linkedOperands.head?.any (·.recognizedRegister.isX)

/-- The target of an index, for an entry that is loaded into an X or a W register. -/
def targetWith (t : Table) (wide : Bool) (loadBase : Value) (mem : Value → Byte) (i : Nat) :
    Value :=
  let entry := loadedValue t.signed wide (t.load.entryBytes loadBase mem i)
  match t.add with
  | none => entry
  | some a => a.addTo loadBase entry

/-- The target that the processor computes. -/
def target (t : Table) : Value → (Value → Byte) → Nat → Value := t.targetWith t.wide

end Table

/-- What was recognised after an instruction. -/
def recognise (s : Tracking) (r : ParserResult) (g : Option Table) : Option Table :=
  match tableLoad? (s.compares r) r with
  | some l => some ⟨⟨r, l.base, l.relative⟩, (s.compares r).boundCount, none⟩
  | none =>
    match tableAdd? (s.compares r) r with
    | some a => g.map fun t => { t with add := some ⟨r, a.base, a.relative⟩ }
    | none => g

/-- A route is walked, from a state without a table. -/
inductive Walk (E : Env) : Tracking → Option Table → Prop where
  | start {s : Tracking} (h : s.tableReg = none) : Walk E s none
  | step {s t : Tracking} {g : Option Table} {r : ParserResult} {off next : Value}
      {actions : List Action}
      (walk : Walk E s g) (h : trackArm64 E r off next s = .ok (t, actions)) (he : Encodable r) :
    Walk E t (recognise s r g)

/-- The session's fields describe a table. -/
structure Describes (s : Tracking) (t : Table) : Prop where
  encodable : Encodable t.load.instruction
  load : ∃ op m rm dst k, t.load.instruction.linkedOperands = [op, m] ∧ op.type = .register dst ∧
    dst.index? = some k ∧
    m.type = .index rm ∧ m.opKind = .memRegoff ∧ isScaled s.tableEntrySize m = true ∧
    loadSize t.load.instruction.id op.usedSize = some s.tableEntrySize
  address : s.tableAddress = t.load.base
  addressRelative : s.tableAddressRelative = t.load.relative
  signed : s.tableSigned = t.signed
  count : s.tableCount = t.count
  unfinished : t.add = none → s.tableStage = 1
  finished : ∀ a, t.add = some a → s.tableStage = 2 ∧ s.tableBase = a.base ∧
    s.tableBaseRelative = a.relative ∧
    ∃ d n m, a.instruction.linkedOperands = [d, n, m] ∧ s.tableExtend = m.shiftType ∧
    s.tableShift = m.shiftAmount

/-! ## Steps that leave the table alone -/

section

variable {E : Env} {r : ParserResult} {off next : Value} {s t u : Tracking} {actions : List Action}

/-- The table is forgotten at most. -/
structure KeepsTable (s t : Tracking) : Prop where
  reg : t.tableReg = none ∨ t.tableReg = s.tableReg
  stage : t.tableStage = s.tableStage
  address : t.tableAddress = s.tableAddress
  addressRelative : t.tableAddressRelative = s.tableAddressRelative
  entrySize : t.tableEntrySize = s.tableEntrySize
  signed : t.tableSigned = s.tableSigned
  count : t.tableCount = s.tableCount
  base : t.tableBase = s.tableBase
  baseRelative : t.tableBaseRelative = s.tableBaseRelative
  extend : t.tableExtend = s.tableExtend
  shift : t.tableShift = s.tableShift

theorem KeepsTable.refl (s : Tracking) :
    KeepsTable s s := ⟨.inr rfl, rfl, rfl, rfl, rfl, rfl, rfl, rfl, rfl, rfl, rfl⟩

theorem KeepsTable.trans (h : KeepsTable s t) (h' : KeepsTable t u) : KeepsTable s u where
  reg := by
    rcases h'.reg with hr | hr
    · exact .inl hr
    · rw [hr]
      exact h.reg
  stage := h'.stage.trans h.stage
  address := h'.address.trans h.address
  addressRelative := h'.addressRelative.trans h.addressRelative
  entrySize := h'.entrySize.trans h.entrySize
  signed := h'.signed.trans h.signed
  count := h'.count.trans h.count
  base := h'.base.trans h.base
  baseRelative := h'.baseRelative.trans h.baseRelative
  extend := h'.extend.trans h.extend
  shift := h'.shift.trans h.shift

theorem keepsTable_forget (s : Tracking) (mask : Reg → Bool) :
    KeepsTable s (s.forgetArm64Registers mask) := by
  refine ⟨?_, rfl, rfl, rfl, rfl, rfl, rfl, rfl, rfl, rfl, rfl⟩
  unfold Tracking.forgetArm64Registers
  cases hr : s.tableReg with
  | none => exact .inl rfl
  | some n =>
    dsimp only
    rw [Option.filter_some]
    split
    · exact .inr rfl
    · exact .inl rfl

theorem keepsTable_set (s : Tracking) (d : Register) (v : Value) (relative : Bool) :
    KeepsTable s (s.setArm64Value d v relative) := by
  unfold Tracking.setArm64Value
  split
  · exact .refl s
  · rename_i n _
    exact ⟨(keepsTable_forget s (· = n)).reg, rfl, rfl, rfl, rfl, rfl, rfl, rfl, rfl, rfl, rfl⟩

theorem keepsTable_drop (s : Tracking) (d : Register) : KeepsTable s (s.dropArm64Register d) := by
  unfold Tracking.dropArm64Register
  split
  · exact .refl s
  · exact keepsTable_forget s _

theorem keepsTable_operands (ops : List LinkedOperand) (s : Tracking) :
    KeepsTable s (ops.foldl Tracking.forgetOperand s) := by
  induction ops generalizing s with
  | nil => exact .refl s
  | cons op ops ih =>
    refine .trans ?_ (ih _)
    unfold Tracking.forgetOperand
    split
    · exact keepsTable_drop s _
    · exact keepsTable_drop s _
    · split
      · exact keepsTable_drop s _
      · exact .refl s
    · exact .refl s

theorem keepsTable_compares (s : Tracking) (r : ParserResult) : KeepsTable s (s.compares r) := by
  unfold Tracking.compares
  cases s.getArm64BranchBound r false with
  | none => dsimp only; split <;> exact ⟨.inr rfl, rfl, rfl, rfl, rfl, rfl, rfl, rfl, rfl, rfl, rfl⟩
  | some count =>
    dsimp only; split <;> exact ⟨.inr rfl, rfl, rfl, rfl, rfl, rfl, rfl, rfl, rfl, rfl, rfl⟩

/-- A step that recognises nothing leaves the table alone or forgets it. -/
theorem tracks_table (he : Encodable r) (h : Tracks E r off next s t actions) :
    (∃ l, tableLoad? s r = some l ∧ t = s.beginTable l) ∨
      (∃ a, tableLoad? s r = none ∧ tableAdd? s r = some a ∧ t = s.addToTable a) ∨
      tableLoad? s r = none ∧ tableAdd? s r = none ∧ KeepsTable s t := by
  have hload : ∀ {id}, r.id = id → id ∉ [CmdId.ldrb, .ldrsb, .ldrh, .ldrsh, .ldrsw, .ldr] →
      tableLoad? s r = none := by
    intro id hid hnot
    cases hl : tableLoad? s r with
    | none => rfl
    | some l =>
      obtain ⟨op, m, rm, dst, -, -, -, -, hsize, -⟩ := tableLoad?_eq_some hl
      rw [hid] at hsize
      unfold loadSize at hsize
      split at hsize
      all_goals first
        | cases hsize
        | exact absurd (by decide) hnot
  have hadd : r.id ≠ .add → tableAdd? s r = none := by
    intro hid
    cases ha : tableAdd? s r with
    | none => rfl
    | some a => exact absurd (tableAdd?_eq_some ha).1 hid
  have hplain : ∀ {id}, r.id = id →
    id ∉ [CmdId.ldrb, .ldrsb, .ldrh, .ldrsh, .ldrsw, .ldr] → id ≠ .add →
      KeepsTable s t → tableLoad? s r = none ∧ tableAdd? s r = none ∧ KeepsTable s t :=
    fun hid hnot hne hk => ⟨hload hid hnot, hadd (by rw [hid]; exact hne), hk⟩
  cases h with
  | compare h =>
    exact .inr (.inr (hplain (compared?_eq_some h).1 (by decide) (by decide) ⟨.inr rfl, rfl, rfl,
      rfl, rfl, rfl, rfl, rfl, rfl, rfl, rfl⟩))
  | adr h =>
    exact .inr (.inr (hplain (adr?_eq_some h).1 (by decide) (by decide) (keepsTable_set _ _ _ _)))
  | tableLoad h _ => exact .inl ⟨_, h, rfl⟩
  | tableAdd h => exact .inr (.inl ⟨_, hload (tableAdd?_eq_some h).1 (by decide), h, rfl⟩)
  | unsupported h =>
    exact .inr (.inr (hplain (of_decide_eq_true h) (by decide) (by decide) (keepsTable_forget _ _)))
  | call h => exact .inr (.inr (hplain (he.call h) (by decide) (by decide) (keepsTable_forget _ _)))
  | adrpUnknown h _ _ =>
    exact .inr (.inr (hplain (adrp?_eq_some h).1 (by decide) (by decide) (keepsTable_drop _ _)))
  | adrp h _ _ =>
    exact .inr (.inr (hplain (adrp?_eq_some h).1 (by decide) (by decide) (keepsTable_set _ _ _ _)))
  | addImm h _ _ =>
    obtain ⟨hid, op, n, i, base, imm, hops, -, -, hi, -⟩ := addImm?_eq_some h
    refine .inr (.inr ⟨hload hid (by decide), ?_, keepsTable_set _ _ _ _⟩)
    cases ha : tableAdd? s r with
    | none => rfl
    | some a =>
      obtain ⟨-, d, k, m, reg, hops', hm, -⟩ := tableAdd?_eq_some ha
      rw [hops] at hops'
      cases hops'
      rw [hi] at hm
      cases hm
  | mov h _ _ =>
    exact .inr (.inr (hplain (mov?_eq_some h).1 (by decide) (by decide) (keepsTable_set _ _ _ _)))
  | movUnknown h _ =>
    exact .inr (.inr (hplain (mov?_eq_some h).1 (by decide) (by decide) (keepsTable_drop _ _)))
  | load hfrom hl _ =>
    obtain ⟨-, k, rm, hops, hk, hkind⟩ := loadsFrom_eq hfrom
    have hld : r.id = .ldr := by
      cases hfrom with
      | literal h => exact (literal?_eq_some h).1
      | offset h _ => exact (offsetLoad?_eq_some h).1
    refine .inr (.inr ⟨?_, hadd (by rw [hld]; decide), ?_⟩)
    · cases htl : tableLoad? s r with
      | none => rfl
      | some l =>
        obtain ⟨op, m, rm', dst, hops', -, hm, hkind', -, -, -, -, -, hv, -⟩ :=
          tableLoad?_eq_some htl
        rw [hops] at hops'
        cases hops'
        rw [hk] at hm
        cases hm
        rcases hkind with hpc | hkind
        · rw [hpc] at hv
          cases hv
        · rw [hkind] at hkind'
          cases hkind'
    · obtain ⟨n, v, -, -, rfl, -⟩ | ⟨rfl, -⟩ := loadArm64Value_cases hl
      · exact keepsTable_set _ _ _ _
      · exact keepsTable_drop _ _
  | other _ _ _ hl ha => exact .inr (.inr ⟨hl, ha, keepsTable_operands _ _⟩)

/-- What stays of a table still describes it. -/
theorem Describes.keeps {g : Table} (h : Describes s g) (hk : KeepsTable s t) : Describes t g where
  encodable := h.encodable
  load := by
    rw [hk.entrySize]
    exact h.load
  address := hk.address.trans h.address
  addressRelative := hk.addressRelative.trans h.addressRelative
  signed := hk.signed.trans h.signed
  count := hk.count.trans h.count
  unfinished ha := hk.stage.trans (h.unfinished ha)
  finished a ha := by
    rw [hk.stage, hk.base, hk.baseRelative, hk.extend, hk.shift]
    exact h.finished a ha

/-- Along a route, a register that holds a table holds the one that was recognised. -/
theorem walk_describes {g : Option Table} (walk : Walk E s g) (h : s.tableReg.isSome = true) :
    ∃ t, g = some t ∧ Describes s t := by
  induction walk with
  | start hnone =>
    rw [hnone] at h
    cases h
  | @step s t g r off next actions walk htrack he ih =>
    unfold recognise
    obtain ⟨l, hl, rfl⟩ | ⟨a, hl, ha, rfl⟩ | ⟨hl, ha, hk⟩ :=
      tracks_table he (trackArm64_cases htrack)
    · rw [hl]
      obtain ⟨op, m, rm, dst, hops, hop, hm, hkind, hsize, hdst, hsc, -, -, -, hsigned⟩ :=
        tableLoad?_eq_some hl
      exact ⟨_, rfl, he, ⟨op, m, rm, dst, _, hops, hop, hdst, hm, hkind, hsc, hsize⟩, rfl, rfl,
        hsigned, rfl, fun _ => rfl, nofun⟩
    · rw [hl, ha]
      obtain ⟨-, d, n, m, reg, hops, hm, -, -, -, -, -, hreg, -, hext, hsh⟩ := tableAdd?_eq_some ha
      have hsome : s.tableReg.isSome = true := by
        rcases (keepsTable_compares s r).reg with hr | hr
        · rw [hr] at hreg
          cases hreg
        · rw [← hr]
          exact hreg
      obtain ⟨t, rfl, ht⟩ := ih hsome
      have ht' := ht.keeps (keepsTable_compares s r)
      exact ⟨_, rfl, ht'.encodable, ht'.load, ht'.address, ht'.addressRelative, ht'.signed,
        ht'.count, nofun, fun b hb => by cases hb; exact ⟨rfl, rfl, rfl, d, n, m, hops, hext, hsh⟩⟩
    · rw [hl, ha]
      have hk' := (keepsTable_compares s r).trans hk
      have hsome : s.tableReg.isSome = true := by
        rcases hk'.reg with hr | hr
        · rw [hr] at h
          cases h
        · rw [← hr]
          exact h
      obtain ⟨t, rfl, ht⟩ := ih hsome
      exact ⟨t, rfl, ht.keeps hk'⟩

end

/-! ## The routes of the entries -/

/-- An operation saves the route to an address. -/
def IsRoute (E : Env) (absolute questionable : Bool) (a : Value) (action : Action) : Prop :=
  ∃ o, E.analyzeAddress a absolute = .ok (o, .normal) ∧
    action = .saveNewRoute o.toNat (alignedOffset E o) questionable false

section

variable {E : Env} {s : Tracking} {questionable : Bool}

/-- The base of the targets is relative. -/
def targetRelative (s : Tracking) : Bool := s.tableStage = 2 && s.tableBaseRelative

/-- The loop saves the routes of its entries. An entry that leads where the one before it
leads is passed over. -/
theorem saveEntries_routes
    (htotal : ∀ a, ∃ o res, E.analyzeAddress a (!targetRelative s) = .ok (o, res)) {e : Nat → Value}
    (n i : Nat) (previous : Value)
    (hread : ∀ k, i ≤ k → k < i + n →
      readArm64Entry E (s.tableAddress + BitVec.ofNat 64 (k * s.tableEntrySize))
      s.tableAddressRelative s.tableEntrySize s.tableSigned = some (e k)) :
    ∃ actions, saveEntries E s questionable n i previous = .ok actions ∧ ∀ action,
      (action ∈ actions ∨ i ≠ 0 ∧ IsRoute E (!targetRelative s) questionable previous action) ↔
        (∃ k, i ≤ k ∧ k < i + n ∧
          IsRoute E (!targetRelative s) questionable (tableTarget s (e k)) action) ∨
          i ≠ 0 ∧ IsRoute E (!targetRelative s) questionable previous action := by
  induction n generalizing i previous with
  | zero =>
    refine ⟨[], rfl, fun action => ?_⟩
    constructor
    · rintro (h | h)
      · exact absurd h List.not_mem_nil
      · exact .inr h
    · rintro (⟨k, h1, h2, -⟩ | h)
      · omega
      · exact .inr h
  | succ n ih =>
    have hrest : ∀ k, i + 1 ≤ k → k < i + 1 + n → _ := fun k h1 h2 => hread k (by omega) (by omega)
    -- the entries are this one and those behind it
    have hsplit : ∀ action, (∃ k, i ≤ k ∧ k < i + (n + 1) ∧
        IsRoute E (!targetRelative s) questionable (tableTarget s (e k)) action) ↔
        IsRoute E (!targetRelative s) questionable (tableTarget s (e i)) action ∨
          ∃ k, i + 1 ≤ k ∧ k < i + 1 + n ∧
          IsRoute E (!targetRelative s) questionable (tableTarget s (e k)) action := by
      intro action
      constructor
      · rintro ⟨k, h1, h2, h⟩
        rcases Nat.eq_or_lt_of_le h1 with rfl | hlt
        · exact .inl h
        · exact .inr ⟨k, hlt, by omega, h⟩
      · rintro (h | ⟨k, h1, h2, h⟩)
        · exact ⟨i, Nat.le_refl i, by omega, h⟩
        · exact ⟨k, by omega, by omega, h⟩
    rw [saveEntries, hread i (Nat.le_refl i) (by omega)]
    dsimp only
    split
    · rename_i hskip
      obtain ⟨actions, hacts, hmem⟩ := ih (i + 1) previous hrest
      refine ⟨actions, hacts, fun action => ?_⟩
      rw [hsplit, hskip.2, and_iff_right hskip.1]
      have h := hmem action
      rw [and_iff_right (Nat.succ_ne_zero i)] at h
      rw [h, or_comm (a := IsRoute E _ questionable previous action), or_assoc, or_self]
    · obtain ⟨actions, hacts, hmem⟩ := ih (i + 1) (tableTarget s (e i)) hrest
      obtain ⟨o, res, hans⟩ := htotal (tableTarget s (e i))
      have hans' : E.analyzeAddress (tableTarget s (e i))
          (!(s.tableStage = 2 && s.tableBaseRelative)) = .ok (o, res) := hans
      by_cases hres : res = .normal
      · subst hres
        refine ⟨.saveNewRoute o.toNat (alignedOffset E o) questionable false :: actions, ?_,
          fun action => ?_⟩
        · rw [hans', hacts]
          rfl
        · have h := hmem action
          rw [and_iff_right (Nat.succ_ne_zero i)] at h
          have hthis : action = .saveNewRoute o.toNat (alignedOffset E o) questionable false ↔
              IsRoute E (!targetRelative s) questionable (tableTarget s (e i)) action := by
            constructor
            · exact fun h => ⟨o, hans, h⟩
            · rintro ⟨o', ho', h⟩
              rw [hans] at ho'
              cases ho'
              exact h
          rw [hsplit, List.mem_cons, hthis, or_comm (b := action ∈ actions), h,
            or_comm (a := ∃ k, _)]
      · refine ⟨actions, ?_, fun action => ?_⟩
        · rw [hans', hacts]
          exact if_neg hres
        · have h := hmem action
          rw [and_iff_right (Nat.succ_ne_zero i)] at h
          have hthis : ¬ IsRoute E (!targetRelative s) questionable
              (tableTarget s (e i)) action := by
            rintro ⟨o', ho', -⟩
            rw [hans] at ho'
            cases ho'
            exact hres rfl
          rw [or_iff_left hthis, or_iff_left hthis] at h
          rw [hsplit, or_iff_right hthis, h]

/-- `SaveArm64JumpTable` saves the routes of all entries. -/
theorem saveArm64JumpTable_routes
    (htotal : ∀ a, ∃ o res, E.analyzeAddress a (!targetRelative s) = .ok (o, res))
    {e : Nat → Value} (hcount : s.tableCount.toNat ≤ DIANA_ARM64_MAX_JUMP_TABLE)
    (hread : ∀ k < s.tableCount.toNat,
      readArm64Entry E (s.tableAddress + BitVec.ofNat 64 (k * s.tableEntrySize))
      s.tableAddressRelative s.tableEntrySize s.tableSigned = some (e k)) :
    ∃ actions, saveArm64JumpTable E s questionable = .ok actions ∧ ∀ action, action ∈ actions ↔
      ∃ k < s.tableCount.toNat, IsRoute E (!targetRelative s) questionable
      (tableTarget s (e k)) action := by
  obtain ⟨actions, hacts, hmem⟩ :=
    @saveEntries_routes _ _ questionable htotal _ s.tableCount.toNat 0 0
    fun k _ hk => hread k (by omega)
  refine ⟨actions, ?_, fun action => ?_⟩
  · rw [saveArm64JumpTable, Nat.min_eq_left hcount]
    exact hacts
  · have h := hmem action
    simpa using h

end

/-! ## The analyzer's arithmetic -/

theorem and_low (v : Value) (k : Nat) :
    v &&& BitVec.ofNat 64 (2 ^ k - 1) = (v.setWidth k).setWidth 64 := by
  apply BitVec.eq_of_getLsbD_eq
  intro i hi
  rw [BitVec.getLsbD_and, BitVec.getLsbD_ofNat, Nat.testBit_two_pow_sub_one,
    BitVec.getLsbD_setWidth, BitVec.getLsbD_setWidth, decide_eq_true hi, Bool.true_and,
    Bool.true_and, Bool.and_comm]

/-- The analyzer extends as the processor does. -/
theorem extendArm64_eq (v : Value) (extend : Nat) : extendArm64 v extend = extendReg extend v := by
  unfold extendArm64 extendReg
  rw [show (0xFF : Value) = BitVec.ofNat 64 (2 ^ 8 - 1) from rfl,
    show (0xFFFF : Value) = BitVec.ofNat 64 (2 ^ 16 - 1) from rfl,
    show (0xFFFFFFFF : Value) = BitVec.ofNat 64 (2 ^ 32 - 1) from rfl, and_low v 8, and_low v 16,
    and_low v 32]

/-- An index below the largest table is the same in every extension. -/
theorem extendReg_index {st i : Nat}
    (hst : st ∈ [DIANA_ARM_EXTEND_UXTW, DIANA_ARM_EXTEND_UXTX, DIANA_ARM_EXTEND_SXTW,
      DIANA_ARM_EXTEND_SXTX])
    (hi : i < DIANA_ARM64_MAX_JUMP_TABLE) :
    extendReg st (BitVec.ofNat 64 i) = BitVec.ofNat 64 i := by
  have hi : i < 0x4000 := hi
  have hlow : (BitVec.ofNat 64 i).setWidth 32 = BitVec.ofNat 32 i := by
    apply BitVec.eq_of_toNat_eq
    rw [BitVec.toNat_setWidth, BitVec.toNat_ofNat, BitVec.toNat_ofNat]
    omega
  have hzero : (BitVec.ofNat 32 i).setWidth 64 = BitVec.ofNat 64 i := by
    apply BitVec.eq_of_toNat_eq
    rw [BitVec.toNat_setWidth, BitVec.toNat_ofNat, BitVec.toNat_ofNat]
    omega
  have hmsb : (BitVec.ofNat 32 i).msb = false := by
    rw [BitVec.msb_eq_decide, BitVec.toNat_ofNat]
    exact decide_eq_false (by omega)
  simp only [List.mem_cons, List.not_mem_nil, or_false] at hst
  rcases hst with rfl | rfl | rfl | rfl
  · show ((BitVec.ofNat 64 i).setWidth 32).setWidth 64 = _
    rw [hlow, hzero]
  · rfl
  · show ((BitVec.ofNat 64 i).setWidth 32).signExtend 64 = _
    rw [hlow, BitVec.signExtend_eq_setWidth_of_msb_false hmsb, hzero]
  · rfl

/-- The shift of the index is the size of the entries. -/
theorem scaled_index {size i : Nat} {m : LinkedOperand} (hsize : size ∈ [1, 2, 4, 8])
    (h : isScaled size m = true) :
    (BitVec.ofNat 64 i : Value) <<< m.shiftAmount = BitVec.ofNat 64 (i * size) := by
  have hshift : 2 ^ m.shiftAmount = size := by
    simp only [List.mem_cons, List.not_mem_nil, or_false] at hsize
    rcases hsize with rfl | rfl | rfl | rfl <;> simp [isScaled, scaleOf] at h <;> simp [h]
  apply BitVec.eq_of_toNat_eq
  rw [BitVec.toNat_shiftLeft, BitVec.toNat_ofNat, BitVec.toNat_ofNat, Nat.shiftLeft_eq, hshift,
    Nat.mod_mul_mod]

theorem loadedValue_unsigned {wide : Bool} {bytes : List Byte} (h : bytes.length ≤ 8) :
    loadedValue false wide bytes = BitVec.ofNat 64 (leNat bytes) := by
  have hlt := leNat_lt bytes
  rw [show (256 : Nat) = 2 ^ 8 from rfl, ← Nat.pow_mul] at hlt
  have hle : 2 ^ (8 * bytes.length) ≤ 2 ^ 64 := Nat.pow_le_pow_right (by decide) (by omega)
  apply BitVec.eq_of_toNat_eq
  show ((BitVec.ofNat (8 * bytes.length) (leNat bytes)).setWidth 64).toNat = _
  rw [BitVec.toNat_setWidth, BitVec.toNat_ofNat, BitVec.toNat_ofNat, Nat.mod_eq_of_lt hlt]

/-- An entry is read as if it was loaded into an X register. -/
theorem extendEntry_eq {signed : Bool} {bytes : List Byte} (h0 : 0 < bytes.length)
    (h8 : bytes.length ≤ 8) (hs : signed = true → bytes.length < 8) :
    extendEntry bytes.length signed (BitVec.ofNat 64 (leNat bytes)) =
    loadedValue signed true bytes := by
  cases signed with
  | false =>
    rw [loadedValue_unsigned h8]
    exact if_neg fun h => Bool.false_ne_true h.1
  | true =>
    have hlt := leNat_lt bytes
    rw [show (256 : Nat) = 2 ^ 8 from rfl, ← Nat.pow_mul] at hlt
    have hle : 2 ^ (8 * bytes.length) ≤ 2 ^ 64 := Nat.pow_le_pow_right (by decide) (by omega)
    have hv : (BitVec.ofNat 64 (leNat bytes)).toNat < 2 ^ (8 * bytes.length) := by
      rw [BitVec.toNat_ofNat, Nat.mod_eq_of_lt (Nat.lt_of_lt_of_le hlt hle)]
      exact hlt
    have hnarrow : (BitVec.ofNat 64 (leNat bytes)).setWidth (8 * bytes.length) =
        BitVec.ofNat _ (leNat bytes) := by
      apply BitVec.eq_of_toNat_eq
      rw [BitVec.toNat_setWidth, BitVec.toNat_ofNat, BitVec.toNat_ofNat,
        Nat.mod_eq_of_lt (Nat.lt_of_lt_of_le hlt hle)]
    have hext := or_allOnes_eq_signExtend (N := 64) (n := 8 * bytes.length) (by omega) hv
    rw [hnarrow] at hext
    unfold extendEntry
    rw [Nat.mul_comm bytes.length 8]
    simp only [hs rfl, true_and]
    exact hext

/-! ## The target of an entry -/

section

variable {E : Env} {s : Tracking} {t : Table} {loadBase : Value} {mem : Value → Byte}

/-- Entries are 1, 2, 4 or 8 bytes; signed ones are loaded by a narrower load. -/
theorem Describes.size (h : Describes s t) :
    t.load.entrySize = s.tableEntrySize ∧ s.tableEntrySize ∈ [1, 2, 4, 8] ∧
    (t.signed = true → s.tableEntrySize ≤ 4) := by
  obtain ⟨op, m, rm, dst, k, hops, hop, hdst, -, -, -, hsize⟩ := h.load
  refine ⟨by rw [Based.entrySize, hops]; dsimp only; rw [hsize]; rfl, ?_, fun hs => ?_⟩
  · have hused : op.usedSize = 4 ∨ op.usedSize = 8 := by
      rw [LinkedOperand.usedSize, LinkedOperand.recognizedRegister, hop]
      cases dst with
      | x n => exact .inr rfl
      | w n => exact .inl rfl
      | xzr | wzr | sp | wsp | pc | other => cases hdst
    unfold loadSize at hsize
    split at hsize
    · simp [← Option.some.inj hsize]
    · simp [← Option.some.inj hsize]
    · simp [← Option.some.inj hsize]
    · simp [← Option.some.inj hsize]
    · simp [← Option.some.inj hsize]
    · rw [← Option.some.inj hsize]
      rcases hused with h | h <;> simp [h]
    · cases hsize
  · have hs' : isSignedLoad t.load.instruction.id = true := hs
    rcases of_decide_eq_true hs' with hid | hid | hid <;> rw [hid] at hsize
      <;> simp only [loadSize, Option.some.injEq] at hsize <;> omega

/-- What the load reads is what stands at the address of the entry. -/
theorem Describes.entryBytes (h : Describes s t) (loadBase : Value) (mem : Value → Byte) {i : Nat}
    (hi : i < DIANA_ARM64_MAX_JUMP_TABLE) :
    t.load.entryBytes loadBase mem i =
      bytesAt mem (addressOf loadBase (s.tableAddress + BitVec.ofNat 64 (i * s.tableEntrySize))
        s.tableAddressRelative) s.tableEntrySize := by
  obtain ⟨op, m, rm, dst, k, hops, hop, hdst, hm, hkind, hsc, hsize⟩ := h.load
  have hext := h.encodable.extend m (by rw [hops]; simp) hkind
  rw [Based.entryBytes, hops]
  dsimp only
  rw [extendReg_index hext hi, scaled_index h.size.2.1 hsc, h.size.1, h.address, h.addressRelative,
    addressOf_add]

/-- Where the analyzer follows an entry, it goes as if the entry was loaded into an X register. -/
theorem Describes.tableTarget (h : Describes s t) (hE : Observes E loadBase mem) {i : Nat}
    (hi : i < DIANA_ARM64_MAX_JUMP_TABLE) {e : Value}
    (he : readArm64Entry E (s.tableAddress + BitVec.ofNat 64 (i * s.tableEntrySize))
      s.tableAddressRelative s.tableEntrySize s.tableSigned = some e) :
    addressOf loadBase (Arm64.tableTarget s e)
    (targetRelative s) = t.targetWith true loadBase mem i := by
  obtain ⟨bytes, hbytes, rfl⟩ := Option.map_eq_some_iff.1 he
  have hbytes := readModule_bytes (m := ⟨fun _ => 0, 0, mem⟩) hE hbytes
  rw [← h.entryBytes loadBase mem hi] at hbytes
  obtain ⟨-, hsize, hsigned⟩ := h.size
  have hlen : bytes.length = s.tableEntrySize := by
    rw [hbytes, h.entryBytes loadBase mem hi, bytesAt, List.length_map, List.length_range]
  have hpos : 0 < s.tableEntrySize ∧ s.tableEntrySize ≤ 8 := by
    simp only [List.mem_cons, List.not_mem_nil, or_false] at hsize
    omega
  have hentry : extendEntry s.tableEntrySize s.tableSigned (BitVec.ofNat 64 (leNat bytes)) =
      loadedValue t.signed true (t.load.entryBytes loadBase mem i) := by
    rw [← hlen, h.signed, hbytes.symm]
    exact extendEntry_eq (by omega) (by omega) fun hs => by have := hsigned hs; omega
  rw [hentry]
  unfold Arm64.tableTarget Table.targetWith targetRelative
  cases hadd : t.add with
  | none =>
    rw [h.unfinished hadd]
    rfl
  | some a =>
    obtain ⟨hstage, hbase, hrel, d, n, m, hops, hext, hsh⟩ := h.finished a hadd
    dsimp only
    rw [if_pos hstage, addressOf_add, hstage, Based.addTo, hops]
    dsimp only
    rw [extendArm64_eq, hbase, hrel, hext, hsh]
    rfl

end

/-! ## The module -/

/-- A module in memory: where it is, and which of its offsets are code that is analysed. -/
structure Module where
  loadBase : Value
  contains : Value → Prop
  maxOffset : Nat

/-- `br` reaches an instruction of the module: a misaligned target faults. -/
def Module.Reachable (M : Module) (a : Value) : Prop :=
  M.contains (a - M.loadBase) ∧ (a - M.loadBase).toNat < M.maxOffset ∧ a &&& 3 = 0

/-- The observer answers for a module. -/
structure Answers (E : Env) (M : Module) : Prop where
  absolute : ∀ a, ∃ o res, E.analyzeAddress a true = .ok (o, res) ∧
    (res = .normal ↔ M.contains (a - M.loadBase)) ∧ (res = .normal → o = a - M.loadBase)
  relative : ∀ a, ∃ o res, E.analyzeAddress a false = .ok (o, res) ∧
    (res = .normal ↔ M.contains a) ∧ (res = .normal → o = a)

/-- `SaveNewRoute` saves a route to an offset. -/
def Saved (M : Module) (actions : List Action) (o : Nat) : Prop :=
  (∃ questionable, Action.saveNewRoute o true questionable false ∈ actions) ∧ o < M.maxOffset

namespace Table

/-- The routes are the addresses in the module that the processor reaches for the
indexes below the bound. -/
def Exact (t : Table) (M : Module) (mem : Value → Byte) (actions : List Action) : Prop :=
  ∀ o, Saved M actions o ↔ ∃ i < t.count.toNat,
    M.Reachable (t.target M.loadBase mem i) ∧ o = (t.target M.loadBase mem i - M.loadBase).toNat

/-- All entries can be read. -/
def Readable (t : Table) (E : Env) : Prop :=
  ∀ i < t.count.toNat,
    (readModule E (t.load.base + BitVec.ofNat 64 (i * t.load.entrySize)) t.load.relative
    t.load.entrySize).isSome = true

end Table

section

variable {E : Env} {M : Module} {s : Tracking} {t : Table} {mem : Value → Byte}

theorem Answers.answer (hA : Answers E M) (a : Value) (relative : Bool) :
    ∃ o res, E.analyzeAddress a (!relative) = .ok (o, res) ∧
      (res = .normal ↔ M.contains (addressOf M.loadBase a relative - M.loadBase)) ∧
      (res = .normal → o = addressOf M.loadBase a relative - M.loadBase) := by
  cases relative with
  | false => exact hA.absolute a
  | true =>
    have ha : addressOf M.loadBase a true - M.loadBase = a := by
      show M.loadBase + a - M.loadBase = a
      rw [BitVec.add_comm, BitVec.add_sub_cancel]
    rw [ha]
    exact hA.relative a

/-- An offset is aligned where its address is. -/
theorem alignedOffset_iff (h : E.imageBase &&& 3 = M.loadBase &&& 3) (a : Value) :
    alignedOffset E (a - M.loadBase) = true ↔ a &&& 3 = 0 := by
  have hmod : ∀ v : Value, (v &&& 3).toNat = v.toNat % 4 := fun v => toNat_and_three v (by decide)
  have hbase := congrArg BitVec.toNat h
  rw [hmod, hmod] at hbase
  have hsum : (E.imageBase + (a - M.loadBase)).toNat % 4 = a.toNat % 4 := by
    rw [BitVec.toNat_add, BitVec.toNat_sub]
    have := M.loadBase.isLt
    have := a.isLt
    omega
  rw [alignedOffset, decide_eq_true_iff]
  constructor
  · intro hz
    apply BitVec.eq_of_toNat_eq
    rw [hmod, ← hsum, ← hmod, hz]
  · intro hz
    apply BitVec.eq_of_toNat_eq
    rw [hmod, hsum, ← hmod, hz]

/-- The routes that are saved are those of the entries, taken as if loaded into an X register. -/
theorem saved_routes (hA : Answers E M) (hE : Observes E M.loadBase mem)
    (haligned : E.imageBase &&& 3 = M.loadBase &&& 3) (h : Describes s t)
    (hcount : t.count.toNat ≤ DIANA_ARM64_MAX_JUMP_TABLE) (hread : t.Readable E)
    (questionable : Bool) :
    ∃ actions, saveArm64JumpTable E s questionable = .ok actions ∧ ∀ o,
    Saved M actions o ↔ ∃ i < t.count.toNat,
      M.Reachable (t.targetWith true M.loadBase mem i) ∧
      o = (t.targetWith true M.loadBase mem i - M.loadBase).toNat := by
  have hentry : ∀ i, ∃ e, i < t.count.toNat →
    readArm64Entry E (s.tableAddress + BitVec.ofNat 64 (i * s.tableEntrySize))
      s.tableAddressRelative s.tableEntrySize s.tableSigned = some e := by
    intro i
    by_cases hi : i < t.count.toNat
    · obtain ⟨bytes, hbytes⟩ := Option.isSome_iff_exists.1 (hread i hi)
      rw [h.size.1, ← h.address, ← h.addressRelative] at hbytes
      exact ⟨_, fun _ => by rw [readArm64Entry, hbytes]; rfl⟩
    · exact ⟨0, fun h => absurd h hi⟩
  choose e he using hentry
  have htotal : ∀ a, ∃ o res, E.analyzeAddress a (!targetRelative s) = .ok (o, res) := fun a =>
    have ⟨o, res, hans, _⟩ := hA.answer a (targetRelative s)
    ⟨o, res, hans⟩
  rw [← h.count] at hcount
  obtain ⟨actions, hacts, hmem⟩ := @saveArm64JumpTable_routes _ _ questionable htotal _ hcount
    fun k hk => he k (by rw [← h.count]; exact hk)
  refine ⟨actions, hacts, fun o => ?_⟩
  rw [h.count] at hcount hmem
  have htarget : ∀ i < t.count.toNat,
    addressOf M.loadBase (tableTarget s (e i)) (targetRelative s) =
      t.targetWith true M.loadBase mem i := fun i hi => h.tableTarget hE (by omega) (he i hi)
  constructor
  · rintro ⟨⟨q, hq⟩, hlt⟩
    obtain ⟨i, hi, o', hans', heq⟩ := (hmem _).1 hq
    obtain ⟨o'', res, hans, hiff, ho⟩ := hA.answer (tableTarget s (e i)) (targetRelative s)
    rw [hans] at hans'
    cases hans'
    have ho := ho rfl
    have hin := hiff.1 rfl
    rw [htarget i hi] at ho hin
    injection heq with h1 h2 _ _
    rw [ho] at h1 h2
    exact ⟨i, hi, ⟨hin, by rw [← h1]; exact hlt, (alignedOffset_iff haligned _).1 h2.symm⟩, h1⟩
  · rintro ⟨i, hi, ⟨hin, hlt, hal⟩, rfl⟩
    obtain ⟨o, res, hans, hiff, ho⟩ := hA.answer (tableTarget s (e i)) (targetRelative s)
    rw [htarget i hi] at hiff ho
    have hres := hiff.2 hin
    have ho := ho hres
    refine ⟨⟨questionable, (hmem _).2 ⟨i, hi, o, by rw [hans, hres], ?_⟩⟩, hlt⟩
    rw [ho, (alignedOffset_iff haligned _).2 hal]

end

/-! ## Entries that lose their sign -/

/-- The extensions that take no more than the low 32 bits of a register. -/
def narrowExtensions : List Nat :=
  [DIANA_ARM_EXTEND_UXTB, DIANA_ARM_EXTEND_UXTH, DIANA_ARM_EXTEND_UXTW, DIANA_ARM_EXTEND_SXTB,
    DIANA_ARM_EXTEND_SXTH, DIANA_ARM_EXTEND_SXTW]

/-- An addition that takes more than the low 32 bits of the entry's register. -/
def Based.takesHighBits (b : Based) : Bool :=
  match b.instruction.linkedOperands with
  | [_, _, m] => m.shiftType ∉ narrowExtensions && m.shiftAmount < 32
  | _ => false

namespace Table

/-- The entry of an index is negative. -/
def negative (t : Table) (loadBase : Value) (mem : Value → Byte) (i : Nat) : Bool :=
  let bytes := t.load.entryBytes loadBase mem i
  (BitVec.ofNat (8 * bytes.length) (leNat bytes)).msb

/-- The processor extends the sign of the entry to 32 bits only, and the addition takes more. -/
def Truncated (t : Table) (loadBase : Value) (mem : Value → Byte) (i : Nat) : Prop :=
  t.signed = true ∧ t.wide = false ∧ t.add.any (·.takesHighBits) = true ∧
    t.negative loadBase mem i = true

end Table

section

variable {bytes : List Byte}

theorem loadedValue_signed_low (wide : Bool) :
    (loadedValue true wide bytes).setWidth 32 =
      (BitVec.ofNat (8 * bytes.length) (leNat bytes)).signExtend 32 := by
  cases wide with
  | true => exact setWidth_signExtend_of_le _ (by decide)
  | false =>
    show (((BitVec.ofNat (8 * bytes.length) (leNat bytes)).signExtend 32).setWidth 64).setWidth 32 =
      _
    rw [BitVec.setWidth_setWidth_of_le _ (by decide), BitVec.setWidth_eq]

theorem loadedValue_of_nonnegative (h : (BitVec.ofNat (8 * bytes.length) (leNat bytes)).msb = false)
    (hlen : bytes.length ≤ 4) : loadedValue true true bytes = loadedValue true false bytes := by
  show (BitVec.ofNat (8 * bytes.length) (leNat bytes)).signExtend 64 =
    ((BitVec.ofNat (8 * bytes.length) (leNat bytes)).signExtend 32).setWidth 64
  rw [BitVec.signExtend_eq_setWidth_of_msb_false h, BitVec.signExtend_eq_setWidth_of_msb_false h]
  apply BitVec.eq_of_toNat_eq
  rw [BitVec.toNat_setWidth, BitVec.toNat_setWidth, BitVec.toNat_setWidth]
  have hlt := (BitVec.ofNat (8 * bytes.length) (leNat bytes)).isLt
  have hle : 2 ^ (8 * bytes.length) ≤ 2 ^ 32 := Nat.pow_le_pow_right (by decide) (by omega)
  omega

/-- Bits 31 and 32 of what a signed load leaves in an X register are the sign. -/
theorem loadedValue_wide_bits (h0 : 0 < bytes.length) (hlen : bytes.length ≤ 4) :
    (loadedValue true true bytes).getLsbD 31 = (BitVec.ofNat (8 * bytes.length) (leNat bytes)).msb ∧
      (loadedValue true true bytes).getLsbD 32 =
      (BitVec.ofNat (8 * bytes.length) (leNat bytes)).msb :=
  ⟨getLsbD_signExtend_high _ (by decide) (by omega) (by omega),
    getLsbD_signExtend_high _ (by decide) (by omega) (by omega)⟩

/-- In a W register bit 31 is the sign, and bit 32 is clear. -/
theorem loadedValue_narrow_bits (h0 : 0 < bytes.length) (hlen : bytes.length ≤ 4) :
    (loadedValue true false bytes).getLsbD 31 =
    (BitVec.ofNat (8 * bytes.length) (leNat bytes)).msb ∧
      (loadedValue true false bytes).getLsbD 32 = false := by
  constructor
  · show (((BitVec.ofNat (8 * bytes.length) (leNat bytes)).signExtend 32).setWidth 64).getLsbD 31 =
      _
    rw [BitVec.getLsbD_setWidth, getLsbD_signExtend_high _ (by decide) (by omega) (by omega)]
    simp
  · show (((BitVec.ofNat (8 * bytes.length) (leNat bytes)).signExtend 32).setWidth 64).getLsbD 32 =
      _
    rw [BitVec.getLsbD_setWidth, BitVec.getLsbD_of_ge _ 32 (by decide)]
    simp

/-- A narrow extension does not see the high bits. -/
theorem extendReg_congr {st : Nat} (h : st ∈ narrowExtensions) {v v' : Value}
    (hv : v.setWidth 32 = v'.setWidth 32) : extendReg st v = extendReg st v' := by
  have hlow : ∀ {k}, k ≤ 32 → v.setWidth k = v'.setWidth k := by
    intro k hk
    rw [← BitVec.setWidth_setWidth_of_le v hk, ← BitVec.setWidth_setWidth_of_le v' hk, hv]
  unfold extendReg
  rw [hlow (k := 8) (by decide), hlow (k := 16) (by decide), hlow (k := 32) (by decide)]
  simp only [narrowExtensions, List.mem_cons, List.not_mem_nil, or_false] at h
  rcases h with rfl | rfl | rfl | rfl | rfl | rfl <;> rfl

theorem extendReg_whole {st : Nat} (h : st ∉ narrowExtensions) (v : Value) :
    extendReg st v = v := by
  simp only [narrowExtensions, List.mem_cons, List.not_mem_nil, or_false, not_or] at h
  obtain ⟨h1, h2, h3, h4, h5, h6⟩ := h
  unfold extendReg
  rw [if_neg h1, if_neg h2, if_neg h3, if_neg h4, if_neg h5, if_neg h6]

/-- A shift by 32 or more drops the high bits. -/
theorem shiftLeft_congr {k : Nat} (hk : 32 ≤ k) {v v' : Value}
    (hv : v.setWidth 32 = v'.setWidth 32) : v <<< k = v' <<< k := by
  apply BitVec.eq_of_getLsbD_eq
  intro i hi
  rw [BitVec.getLsbD_shiftLeft, BitVec.getLsbD_shiftLeft]
  have hbit := congrArg (BitVec.getLsbD · (i - k)) hv
  simp only [BitVec.getLsbD_setWidth, decide_eq_true (show i - k < 32 by omega),
    Bool.true_and] at hbit
  rw [hbit]

/-- A shift by less than 32 keeps bits 31 and 32. -/
theorem bits_of_shiftLeft_eq {k : Nat} (hk : k < 32) {v v' : Value} (h : v <<< k = v' <<< k) :
    v.getLsbD 31 = v'.getLsbD 31 ∧ v.getLsbD 32 = v'.getLsbD 32 := by
  have hbit : ∀ i, i + k < 64 → v.getLsbD i = v'.getLsbD i := by
    intro i hi
    have := congrArg (BitVec.getLsbD · (i + k)) h
    simpa only [BitVec.getLsbD_shiftLeft, decide_eq_true hi,
      decide_eq_false (show ¬ i + k < k by omega), Nat.add_sub_cancel, Bool.true_and,
      Bool.not_false] using this
  exact ⟨hbit 31 (by omega), hbit 32 (by omega)⟩

end

section

variable {s : Tracking} {t : Table} {loadBase : Value} {mem : Value → Byte} {i : Nat}

theorem Describes.length_entryBytes (h : Describes s t) (loadBase : Value) (mem : Value → Byte)
    (hi : i < DIANA_ARM64_MAX_JUMP_TABLE) :
    (t.load.entryBytes loadBase mem i).length = s.tableEntrySize := by
  rw [h.entryBytes loadBase mem hi, bytesAt, List.length_map, List.length_range]

theorem Describes.signed_length (h : Describes s t) (hs : t.signed = true) (loadBase : Value)
    (mem : Value → Byte) (hi : i < DIANA_ARM64_MAX_JUMP_TABLE) :
    0 < (t.load.entryBytes loadBase mem i).length ∧
    (t.load.entryBytes loadBase mem i).length ≤ 4 := by
  obtain ⟨-, hsize, hle⟩ := h.size
  have := hle hs
  rw [h.length_entryBytes loadBase mem hi]
  simp only [List.mem_cons, List.not_mem_nil, or_false] at hsize
  omega

/-- An entry that keeps its sign leads where the analyzer follows it. -/
theorem Describes.target_eq (h : Describes s t) (hstage : s.tableStage = 2 ∨ s.tableEntrySize = 8)
    (hi : i < DIANA_ARM64_MAX_JUMP_TABLE) (ht : ¬ t.Truncated loadBase mem i) :
    t.targetWith true loadBase mem i = t.target loadBase mem i := by
  unfold Table.target
  cases hw : t.wide with
  | true => rfl
  | false =>
  unfold Table.targetWith
  cases hs : t.signed with
  | false => rfl
  | true =>
  obtain ⟨h0, h4⟩ := h.signed_length hs loadBase mem hi
  cases ha : t.add with
  | none =>
    have hone := h.unfinished ha
    have hle := h.size.2.2 hs
    omega
  | some a =>
    obtain ⟨-, -, -, d, n, m, hops, -, -⟩ := h.finished a ha
    have hlow : (loadedValue true true (t.load.entryBytes loadBase mem i)).setWidth 32 =
        (loadedValue true false (t.load.entryBytes loadBase mem i)).setWidth 32 :=
      (loadedValue_signed_low true).trans (loadedValue_signed_low false).symm
    dsimp only
    unfold Based.addTo
    rw [hops]
    dsimp only
    by_cases hnarrow : m.shiftType ∈ narrowExtensions
    · rw [extendReg_congr hnarrow hlow]
    · rw [extendReg_whole hnarrow, extendReg_whole hnarrow]
      by_cases hsh : m.shiftAmount < 32
      · have hhigh : t.add.any (·.takesHighBits) = true := by
          rw [ha, Option.any_some, Based.takesHighBits, hops]
          simp [hnarrow, hsh]
        have hneg : t.negative loadBase mem i = false := by
          rw [← Bool.not_eq_true]
          exact fun hn => ht ⟨hs, hw, hhigh, hn⟩
        rw [loadedValue_of_nonnegative hneg h4]
      · rw [shiftLeft_congr (by omega) hlow]

/-- An entry that loses its sign leads where the analyzer follows no entry, and the analyzer follows
it to where none leads. -/
theorem Describes.target_ne (h : Describes s t) (hi : i < DIANA_ARM64_MAX_JUMP_TABLE)
    (ht : t.Truncated loadBase mem i) {j : Nat} (hj : j < DIANA_ARM64_MAX_JUMP_TABLE) :
    t.targetWith true loadBase mem i ≠ t.target loadBase mem j ∧
      t.target loadBase mem i ≠ t.targetWith true loadBase mem j := by
  obtain ⟨hs, hw, hhigh, hneg⟩ := ht
  obtain ⟨a, ha, hhigh⟩ := (Option.any_eq_true _ _).1 hhigh
  obtain ⟨-, -, -, d, n, m, hops, -, -⟩ := h.finished a ha
  rw [Based.takesHighBits, hops] at hhigh
  obtain ⟨hnarrow, hsh⟩ := Bool.and_eq_true_iff.1 hhigh
  have hnarrow := of_decide_eq_true hnarrow
  have hsh := of_decide_eq_true hsh
  have hformula : ∀ w k, t.targetWith w loadBase mem k = addressOf loadBase a.base a.relative +
      (loadedValue true w (t.load.entryBytes loadBase mem k) <<< m.shiftAmount) := by
    intro w k
    unfold Table.targetWith
    rw [ha, hs]
    dsimp only
    rw [Based.addTo, hops]
    dsimp only
    rw [extendReg_whole hnarrow]
  have hleni := h.signed_length hs loadBase mem hi
  have hlenj := h.signed_length hs loadBase mem hj
  have hwi := loadedValue_wide_bits hleni.1 hleni.2
  have hni := loadedValue_narrow_bits hleni.1 hleni.2
  have hwj := loadedValue_wide_bits hlenj.1 hlenj.2
  have hnj := loadedValue_narrow_bits hlenj.1 hlenj.2
  have hmsb : (BitVec.ofNat (8 * (t.load.entryBytes loadBase mem i).length)
    (leNat (t.load.entryBytes loadBase mem i))).msb = true := hneg
  unfold Table.target
  rw [hw, hformula, hformula, hformula, hformula]
  constructor
  · -- bit 32 is set on the left only
    intro heq
    have hbits := bits_of_shiftLeft_eq hsh ((BitVec.add_right_inj _).1 heq)
    rw [hwi.2, hnj.2, hmsb] at hbits
    exact Bool.false_ne_true hbits.2.symm
  · -- on the left bit 31 is set and bit 32 clear, on the right they are equal
    intro heq
    have hbits := bits_of_shiftLeft_eq hsh ((BitVec.add_right_inj _).1 heq)
    rw [hni.1, hni.2, hwj.1, hwj.2, hmsb] at hbits
    exact Bool.false_ne_true (hbits.2.trans hbits.1.symm)

end

/-! ## Tables that are followed exactly -/

section

variable {E : Env} {M : Module} {s : Tracking} {t : Table} {mem : Value → Byte}

/-- The routes are right exactly if no entry that loses its sign has to do with the module. -/
theorem exact_iff (h : Describes s t) (hstage : s.tableStage = 2 ∨ s.tableEntrySize = 8)
    (hcount : t.count.toNat ≤ DIANA_ARM64_MAX_JUMP_TABLE) {actions : List Action}
    (hsaved : ∀ o, Saved M actions o ↔ ∃ i < t.count.toNat,
      M.Reachable (t.targetWith true M.loadBase mem i) ∧
      o = (t.targetWith true M.loadBase mem i - M.loadBase).toNat) :
    t.Exact M mem actions ↔ ∀ i < t.count.toNat, t.Truncated M.loadBase mem i →
      ¬ M.Reachable (t.targetWith true M.loadBase mem i) ∧ ¬ M.Reachable
      (t.target M.loadBase mem i) := by
  have hsame : ∀ {a b : Value}, (a - M.loadBase).toNat = (b - M.loadBase).toNat → a = b := by
    intro a b hab
    have := congrArg (· + M.loadBase) (BitVec.eq_of_toNat_eq hab)
    simpa only [BitVec.sub_add_cancel] using this
  constructor
  · intro hexact i hi ht
    constructor
    · intro hreach
      obtain ⟨j, hj, -, hab⟩ := (hexact _).1 ((hsaved _).2 ⟨i, hi, hreach, rfl⟩)
      exact (h.target_ne (by omega) ht (show j < _ by omega)).1 (hsame hab)
    · intro hreach
      obtain ⟨j, hj, -, hab⟩ := (hsaved _).1 ((hexact _).2 ⟨i, hi, hreach, rfl⟩)
      exact (h.target_ne (by omega) ht (show j < _ by omega)).2 (hsame hab)
  · intro hsafe o
    rw [hsaved]
    have heq : ∀ i, i < t.count.toNat → (M.Reachable (t.targetWith true M.loadBase mem i) ∨
        M.Reachable (t.target M.loadBase mem i)) →
        t.targetWith true M.loadBase mem i = t.target M.loadBase mem i := by
      intro i hi hreach
      refine h.target_eq hstage (by omega) fun ht => ?_
      rcases hreach with hr | hr
      · exact (hsafe i hi ht).1 hr
      · exact (hsafe i hi ht).2 hr
    constructor
    · rintro ⟨i, hi, hreach, ho⟩
      have hi' := heq i hi (.inl hreach)
      exact ⟨i, hi, by rw [← hi']; exact hreach, by rw [← hi']; exact ho⟩
    · rintro ⟨i, hi, hreach, ho⟩
      have hi' := heq i hi (.inr hreach)
      exact ⟨i, hi, by rw [hi']; exact hreach, by rw [hi']; exact ho⟩

/-- At a branch through a table the session describes the table that was recognised. -/
theorem walk_table {r : ParserResult} {g : Option Table} (walk : Walk E s g)
    (hbr : isArm64JumpTable s r = true) :
    ∃ t, g = some t ∧ Describes s t ∧ (s.tableStage = 2 ∨ s.tableEntrySize = 8) := by
  unfold isArm64JumpTable at hbr
  split at hbr
  · rename_i op ops n hops hreg
    obtain ⟨t, rfl, ht⟩ := walk_describes walk (by rw [hreg]; rfl)
    split at hbr
    · have hor := (Bool.and_eq_true_iff.1 hbr).2
      exact ⟨t, rfl, ht, by simpa using hor⟩
    · cases hbr
  · cases hbr

/-- A jump table with a bound of at most `0x4000` whose entries can be read is followed
exactly where the processor goes, unless a negative entry is loaded into a W register and
added from an X register. -/
theorem jumpTable_followed_iff (hA : Answers E M) (hE : Observes E M.loadBase mem)
    (haligned : E.imageBase &&& 3 = M.loadBase &&& 3) {g : Option Table} (walk : Walk E s g)
    {r : ParserResult} (hbr : isArm64JumpTable s r = true) (questionable : Bool) :
    ∃ t, g = some t ∧ (t.count.toNat ≤ DIANA_ARM64_MAX_JUMP_TABLE → t.Readable E →
      ((∃ actions, saveArm64JumpTable E s questionable = .ok actions ∧ t.Exact M mem actions) ↔
        ∀ i < t.count.toNat, t.Truncated M.loadBase mem i →
          ¬ M.Reachable (t.targetWith true M.loadBase mem i) ∧ ¬ M.Reachable
          (t.target M.loadBase mem i))) := by
  obtain ⟨t, rfl, ht, hstage⟩ := walk_table walk hbr
  refine ⟨t, rfl, fun hcount hread => ?_⟩
  obtain ⟨actions, hacts, hsaved⟩ := saved_routes hA hE haligned ht hcount hread questionable
  rw [← exact_iff ht hstage hcount hsaved]
  constructor
  · rintro ⟨actions', hacts', hexact⟩
    rw [hacts] at hacts'
    cases hacts'
    exact hexact
  · exact fun hexact => ⟨actions, hacts, hexact⟩

end

/-! ## A table of one byte -/

/-- One byte at offset 64, and zeros. -/
def oneByte (b : Byte) (a : Value) : Byte := if a = 64 then b else 0

/-- A module of 256 bytes at address 0. -/
def flatModule : Module := ⟨0, fun o => o.toNat < 256, 256⟩

/-- The observer of the module. -/
def flat (b : Byte) : Env where
  analyzeAddress a _ := .ok (a, if a.toNat < 256 then .normal else .external)
  randomRead o size := .ok (bytesAt (oneByte b) o size)
  imageBase := 0
  imageBaseUnknown := false
  addressesRelative := false

theorem flat_answer (a : Value) :
    (if a.toNat < 256 then AddressResult.normal else .external) = .normal ↔ a.toNat < 256 := by
  split <;> simp [*]

theorem flat_answers (b : Byte) : Answers (flat b) flatModule where
  absolute a := by
    rw [show a - flatModule.loadBase = a from BitVec.sub_zero a]
    exact ⟨a, _, rfl, flat_answer a, fun _ => rfl⟩
  relative a := ⟨a, _, rfl, flat_answer a, fun _ => rfl⟩

theorem flat_observes (b : Byte) : Observes (flat b) flatModule.loadBase (oneByte b) where
  absolute a o h := by
    have : a = o := congrArg Prod.fst (Except.ok.inj h)
    rw [← this]
    exact BitVec.zero_add a
  relative a o h := (congrArg Prod.fst (Except.ok.inj h) : a = o).symm
  content o size bytes h _ := by
    rw [← Except.ok.inj h]
    exact congrArg (bytesAt (oneByte b) · size) (BitVec.zero_add o).symm

/-- `adr Xn, label` -/
def adrTo (n : Reg) (rel : Value) :
    ParserResult := ⟨.adr, [{ type := .register (.x n) }, { type := .rel rel }], none⟩

/-- `ldrsb w3, [x0, w2, uxtw]` or `ldrb` -/
def loadByte (signed : Bool) : ParserResult where
  id := if signed then .ldrsb else .ldrb
  linkedOperands := [{ type := .register (.w 3) },
    { type := .index ⟨.x 0, .w 2, 0⟩, opKind := .memRegoff, shiftType := DIANA_ARM_EXTEND_UXTW }]

/-- `add x3, x1, x3, lsl #2` -/
def addX3 : ParserResult where
  id := .add
  linkedOperands := [{ type := .register (.x 3) }, { type := .register (.x 1) },
    { type := .shiftedReg (.x 3), shiftType := DIANA_ARM_SHIFT_LSL, shiftAmount := 2 }]

/-- `br x3` -/
def brX3 : ParserResult := ⟨.other, [{ type := .register (.x 3) }], some ⟨false⟩⟩

/-- No call and no `mov`, with operands as the decoder makes them. -/
theorem encodable_of {r : ParserResult} (hcall : r.isCall = false) (hmov : r.id ≠ .orr)
    (hadr : ∀ d v n, adr? r = some (d, v) ∨ adrp? r = some (d, v) → d ≠ .w n)
    (hops : ∀ op ∈ r.linkedOperands,
      op.writeback = false ∧ (∀ rm, op.type = .index rm → ∀ n, rm.reg ≠ .w n) ∧
      (op.opKind = .memRegoff → op.shiftType = DIANA_ARM_EXTEND_UXTW)) : Encodable r where
  call h := absurd (hcall.symm.trans h) Bool.false_ne_true
  wide := hadr
  mov d src n h := absurd (mov?_eq_some h).1 hmov
  base op hop := (hops op hop).2.1
  first _ d hd := (hops d (List.mem_of_mem_head? hd)).1
  offset op hop _ := (hops op hop).1
  extend op hop h := by
    rw [(hops op hop).2.2 h]
    decide

theorem adrTo_encodable (n : Reg) (rel : Value) : Encodable (adrTo n rel) := by
  refine encodable_of rfl (show CmdId.adr ≠ .orr by decide) ?_ ?_
  · rintro d v k (h | h)
    · cases h
      simp [LinkedOperand.recognizedRegister]
    · cases h
  · intro op hop
    simp only [adrTo, List.mem_cons, List.not_mem_nil, or_false] at hop
    rcases hop with rfl | rfl <;> simp

theorem loadByte_encodable (signed : Bool) : Encodable (loadByte signed) := by
  refine encodable_of rfl (by cases signed <;> decide) ?_ ?_
  · rintro d v k (h | h) <;> cases signed <;> cases h
  · intro op hop
    simp only [loadByte, List.mem_cons, List.not_mem_nil, or_false] at hop
    rcases hop with rfl | rfl
    · simp
    · exact ⟨rfl, fun rm h n => by cases h; simp, fun _ => rfl⟩

theorem addX3_encodable : Encodable addX3 := by
  refine encodable_of rfl (by decide) ?_ ?_
  · rintro d v k (h | h) <;> cases h
  · intro op hop
    simp only [addX3, List.mem_cons, List.not_mem_nil, or_false] at hop
    rcases hop with rfl | rfl | rfl <;> simp

/-- A route on which `w2` is below 1. -/
def bounded : Tracking := { unknown with boundReg := some 2, boundCount := 1 }

/-- Both bases are known: the table at 64, the targets from 32. -/
def based : Tracking :=
  ((((bounded.compares (adrTo 0 60)).setArm64Value (.x 0) 64 false).compares
    (adrTo 1 24)).setArm64Value (.x 1) 32 false)

/-- The entry is loaded and added. -/
def tabled (signed : Bool) : Tracking :=
  (((based.compares (loadByte signed)).beginTable ⟨3, 64, false, 1, signed⟩).compares
    addX3).addToTable ⟨3, 32, false, 1, 2⟩

/-- The table that is recognised. -/
def byteTable (signed : Bool) : Table := ⟨⟨loadByte signed, 64, false⟩, 1, some ⟨addX3, 32, false⟩⟩

theorem byteTable_walk (b : Byte) (signed : Bool) :
    Walk (flat b) (tabled signed) (some (byteTable signed)) := by
  have hadr0 : trackArm64 (flat b) (adrTo 0 60) 0 4 bounded =
      .ok ((bounded.compares (adrTo 0 60)).setArm64Value (.x 0) 64 false, []) := rfl
  have hadr1 : trackArm64 (flat b) (adrTo 1 24) 4 8
    ((bounded.compares (adrTo 0 60)).setArm64Value (.x 0) 64 false) =
      .ok (based, []) := rfl
  have hload : trackArm64 (flat b) (loadByte signed) 8 12 based =
      .ok ((based.compares (loadByte signed)).beginTable ⟨3, 64, false, 1, signed⟩,
        [.dropPending 64, .saveDataXRef 64 false]) := by cases signed <;> rfl
  have hadd : trackArm64 (flat b) addX3 12 16
    ((based.compares (loadByte signed)).beginTable ⟨3, 64, false, 1, signed⟩) =
      .ok (tabled signed, []) := by cases signed <;> rfl
  have walk :=
    Walk.step (.step (.step (.step (.start rfl) hadr0 (adrTo_encodable 0 60)) hadr1
      (adrTo_encodable 1 24)) hload
    (loadByte_encodable signed)) hadd addX3_encodable
  cases signed <;> exact walk

theorem byteTable_branch (signed : Bool) : isArm64JumpTable (tabled signed) brX3 = true := by
  cases signed <;> rfl

theorem byteTable_readable (b : Byte) (signed : Bool) : (byteTable signed).Readable (flat b) := by
  intro i hi
  have hzero : i = 0 := Nat.lt_one_iff.1 hi
  subst hzero
  cases signed <;> rfl

/-- `ldrsb w3` loads `0xFFFFFFFF`, the analyzer follows the entry to -1: it saves a route to offset
28, the processor goes to `0x40000001C`. -/
theorem not_exact_ldrsb :
    ¬ ∀ (E : Env) (M : Module) (mem : Value → Byte), Answers E M → Observes E M.loadBase mem →
      E.imageBase &&& 3 = M.loadBase &&& 3 → ∀ s t, Walk E s (some t) → ∀ r,
      isArm64JumpTable s r = true →
      t.count.toNat ≤ DIANA_ARM64_MAX_JUMP_TABLE → t.Readable E → ∀ questionable,
      ∃ actions, saveArm64JumpTable E s questionable = .ok actions ∧ t.Exact M mem actions := by
  intro h
  obtain ⟨actions, hacts, hexact⟩ :=
    h (flat 0xFF) flatModule (oneByte 0xFF) (flat_answers _) (flat_observes _) rfl (tabled true)
    (byteTable true) (byteTable_walk _ true) brX3 (byteTable_branch true) (by decide)
    (byteTable_readable _ true) false
  obtain ⟨t, ht, hdesc, hstage⟩ := walk_table (byteTable_walk 0xFF true) (byteTable_branch true)
  cases ht
  obtain ⟨actions', hacts', hsaved⟩ :=
    saved_routes (flat_answers _) (flat_observes _) rfl hdesc (by decide)
    (byteTable_readable _ true) false
  rw [hacts] at hacts'
  cases hacts'
  have hsafe := (exact_iff hdesc hstage (by decide) hsaved).1 hexact 0 (by decide) ⟨rfl, rfl,
      rfl, by decide⟩
  exact hsafe.1 ⟨show BitVec.toNat _ < 256 by decide, by decide, by decide⟩

/-- `ldrb w3` loads 3, and the entry is followed to 32 + 12. -/
theorem jumpTable_followed_ldrb :
    ∃ actions, saveArm64JumpTable (flat 3) (tabled false) false = .ok actions ∧
      (byteTable false).Exact flatModule (oneByte 3) actions ∧ Saved flatModule actions 44 := by
  obtain ⟨t, ht, h⟩ := jumpTable_followed_iff (flat_answers 3) (flat_observes 3) rfl
      (byteTable_walk 3 false)
    (byteTable_branch false) false
  cases ht
  obtain ⟨actions, hacts, hexact⟩ :=
    (h (by decide) (byteTable_readable 3 false)).2 fun i _ htr => absurd htr.1 (by decide)
  have hreach : flatModule.Reachable ((byteTable false).target flatModule.loadBase (oneByte 3) 0) :=
    ⟨show BitVec.toNat _ < 256 by decide, by decide, by decide⟩
  exact ⟨actions, hacts, hexact, (hexact 44).2 ⟨0, by decide, hreach, by decide⟩⟩

end Diana.Analyze.Arm64
