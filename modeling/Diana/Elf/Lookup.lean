import Diana.Elf.Dynamic
import Diana.Lib.Chain
import Mathlib.Data.Finite.Prod
import Mathlib.Algebra.GroupWithZero.Nat

/-!
# Looking up a symbol of a loaded ELF image

`DianaElfFile_GetSymbolAddress_Memory`: a symbol is looked for through `DT_GNU_HASH`, and
through `DT_HASH` behind it. Both tables, with what they are divided by and where their chains
lead, come from the image.

* `gnuTable`, `sysVTable`: what is read of a table before its chain is walked;
* `chainTurn`, `sysVTurn`: a turn of the walk;
* `settles_iff`: when a lookup comes to an end and divides by nothing that is 0.
-/

namespace Diana.Elf

open Diana.Lib

/-- `nameBuf` -/
abbrev NameBuf := Fin 256 → Byte

scoped instance neZero_nameBuf : NeZero 256 := ⟨by decide⟩

/-- `bs` over the buffer, and a 0 at its end. -/
def NameBuf.fill (buf : NameBuf) (bs : List Byte) : NameBuf := fun k =>
  if k = 255 then 0 else bs.getD k (buf k)

def cString (bs : List Byte) : List Byte := bs.takeWhile (· ≠ 0)

/-- `DIANA_STRNCMP` of the buffer and a name is 0. -/
def NameBuf.Holds (buf : NameBuf) (name : List Byte) : Prop := cString (List.ofFn buf) = name

instance (buf : NameBuf) (name : List Byte) :
    Decidable (buf.Holds name) := inferInstanceAs (Decidable (_ = _))

/-- `DianaElf_GnuHash` -/
def gnuHash (s : List Byte) : BitVec 32 := s.foldl (fun h c => h * 33 + c.setWidth 32) 5381

/-- `DianaElf_SysVHash` -/
def sysVHash (s : List Byte) : BitVec 32 :=
  s.foldl
    (fun h c =>
      let h := (h <<< 4) + c.setWidth 32
      let g := h &&& 0xF0000000
      (if g ≠ 0 then h ^^^ (g >>> 24) else h) &&& ~~~g) 0

/-- What the dynamic section says. -/
structure LookupTables where
  symtabAddr : Value
  strtabAddr : Value
  gnuHashAddr : Value
  hashAddr : Value
  versymAddr : Value
  deriving DecidableEq, Repr

/-- The switch over `d_tag`. -/
def LookupTables.note (T : LookupTables) (e : DynEntry) : LookupTables :=
  match e.d_tag.toNat with
  | 6 => { T with symtabAddr := e.d_val }
  | 5 => { T with strtabAddr := e.d_val }
  | 0x6FFFFEF5 => { T with gnuHashAddr := e.d_val }
  | 4 => if T.gnuHashAddr = 0 then { T with hashAddr := e.d_val } else T
  | 0x6FFFFFF0 => { T with versymAddr := e.d_val }
  | _ => T

/-- What a lookup works with. -/
structure Lookup where
  file : ElfFile
  reader : Reader
  /-- `DIANA_MALLOC` of so many bytes succeeds. -/
  malloc : Nat → Bool
  /-- What memory is filled with when it is allocated. -/
  heap : Nat → Byte
  /-- `nameBuf`, when the function is entered. -/
  stale : NameBuf
  /-- the string, without its 0 -/
  symbolName : List Byte

namespace Lookup

variable (L : Lookup)

abbrev ident : Ident := L.file.ident

def alloc (size : Nat) : Action Unit := if L.malloc size then .ok () else fail .outOfMemory

/-- The part up to the hash tables. -/
def tables : Action LookupTables := do
  let dynSize := L.file.dynamicSize
  if dynSize = 0 ∨ maxSafeAllocSize < dynSize.toNat then fail .invalidInput
  else
    match L.file.linkToOffset L.file.dynamicAddress with
    | .error _ => fail .invalidInput
    | .ok dynAddr =>
      L.alloc (dynSize.toNat * 2)
      let raw ← L.reader.into dynAddr (dynSize.setWidth 32) (dynSize.toNat * 2) false
      if raw.length < (if L.ident.is64bit then 16 else 8) then fail .error
      else
        let T := (liveEntries (dynEntries L.ident raw L.heap)).foldl LookupTables.note
            ⟨0, 0, 0, 0, 0⟩
        if T.symtabAddr = 0 ∨ T.strtabAddr = 0 then fail .notFound else .ok T

/-! ## Symbols -/

/-- The symbol at an index and its name. -/
def readNamed (T : LookupTables) (idx : BitVec 32) (buf : NameBuf) : Action (Symbol × NameBuf) := do
  let sym ← readSymNormalized L.reader L.ident (symEntryAddr L.ident T.symtabAddr idx)
  let bs ← L.reader.into (T.strtabAddr + sym.st_name.setWidth 64) 255 256 true
  if bs = [] then fail .error else .ok (sym, buf.fill bs)

/-- It is the symbol that is looked for. -/
def isMatch (T : LookupTables) (idx : BitVec 32) (sym : Symbol) (buf : NameBuf) : Action Bool :=
  if buf.Holds L.symbolName ∧ sym.IsExportedDefinition then do
    let hidden ← isHiddenVersion L.reader L.ident.isLE T.versymAddr idx
    .ok (!hidden)
  else .ok false

/-- A state of a walk: `idx` and `nameBuf`. -/
abbrev Walk := BitVec 32 × NameBuf

/-- How a walk ends: the value that was found, or the name buffer it leaves. -/
abbrev Found := Action (Value ⊕ NameBuf)

/-- A turn as a turn of `runFrom`. -/
def asTurn : Action (Walk ⊕ (Value ⊕ NameBuf)) → Walk ⊕ Found
  | .ok (.inl p) => .inl p
  | .ok (.inr r) => .inr (.ok r)
  | .error e => .inr (.error e)

/-- A walk, followed for at most `fuel` turns. -/
def walk (turn : Walk → Action (Walk ⊕ (Value ⊕ NameBuf))) (fuel : Nat) (p : Walk) : Found :=
  match runFrom (fun _ p => asTurn (turn p)) 0 fuel p with
  | .inl _ => .error .outOfFuel
  | .inr r => r

/-! ## `DT_GNU_HASH` -/

structure GnuTable where
  nbuckets : BitVec 32
  symoffset : BitVec 32
  bloomsize : BitVec 32
  bloom : List Byte
  buckets : List Byte
  chainBaseAddr : Value
  deriving DecidableEq, Repr

/-- The header, the bloom filter and the buckets. The words of the filter have 8 bytes. -/
def gnuTable (T : LookupTables) : Action GnuTable := do
  let hdrRaw ← L.reader.exactly T.gnuHashAddr 16 true
  let nbuckets := rd32 hdrRaw 0 L.ident.isLE
  let symoffset := rd32 hdrRaw 4 L.ident.isLE
  let bloomsize := rd32 hdrRaw 8 L.ident.isLE
  let bloomAddr := T.gnuHashAddr + 16
  if maxSafeAllocSize < bloomsize.toNat * 8 then fail .outOfMemory
  else do
    L.alloc (bloomsize.toNat * 8)
    let bloom ← L.reader.exactly bloomAddr (bloomsize.toNat * 8) true
    let bucketsAddr := bloomAddr + BitVec.ofNat 64 (bloomsize.toNat * 8)
    if maxSafeAllocSize < nbuckets.toNat * 4 then fail .invalidInput
    else do
      L.alloc (nbuckets.toNat * 4)
      let buckets ← L.reader.exactly bucketsAddr (nbuckets.toNat * 4) true
      .ok ⟨nbuckets, symoffset, bloomsize, bloom, buckets,
        bucketsAddr + BitVec.ofNat 64 (nbuckets.toNat * 4)⟩

/-- The bloom filter lets the hash through; its words are taken as they lie in memory. -/
def GnuTable.Admits (G : GnuTable) (h : BitVec 32) : Prop :=
  (rd64 G.bloom (8 * ((h.toNat / 64) % G.bloomsize.toNat)) true).getLsbD (h.toNat % 64) = true

instance (G : GnuTable) (h : BitVec 32) :
    Decidable (G.Admits h) := inferInstanceAs (Decidable (_ = _))

/-- The first index of the chain of a hash. -/
def bucketAt (buckets : List Byte) (nbuckets h : BitVec 32) : BitVec 32 :=
  rd32 buckets (4 * (h.toNat % nbuckets.toNat)) true

/-- A turn of the chain walk. -/
def chainTurn (T : LookupTables) (G : GnuTable) :
    Walk → Action (Walk ⊕ (Value ⊕ NameBuf)) := fun (idx, buf) => do
  let chainRaw ← L.reader.exactly (G.chainBaseAddr + (idx - G.symoffset).setWidth 64 * 4) 4 true
  let chainVal := rd32 chainRaw 0 L.ident.isLE
  let (sym, buf) ← L.readNamed T idx buf
  let found ← L.isMatch T idx sym buf
  .ok (if found then .inr (.inl sym.st_value)
    else if chainVal &&& 1 ≠ 0 then .inr (.inr buf)
    else .inl (idx + 1, buf))

/-- The lookup in a GNU table. -/
def gnuWalk (T : LookupTables) (fuel : Nat) (G : GnuTable) : Found :=
  let h := gnuHash L.symbolName
  if G.bloomsize = 0 then .error .dividedByZero
  else if ¬ G.Admits h then fail .notFound
  else if G.nbuckets = 0 then .error .dividedByZero
  else
    let idx := bucketAt G.buckets G.nbuckets h
    if idx < G.symoffset then fail .notFound else walk (L.chainTurn T G) fuel (idx, L.stale)

/-- The lookup through `DT_GNU_HASH`. -/
def gnuLookup (T : LookupTables) (fuel : Nat) : Found := do
  let G ← L.gnuTable T
  L.gnuWalk T fuel G

/-! ## `DT_HASH` -/

structure SysVTable where
  nbuckets : BitVec 32
  nchains : BitVec 32
  buckets : List Byte
  chainsAddr : Value
  deriving DecidableEq, Repr

def sysVTable (T : LookupTables) : Action SysVTable := do
  let hdrRaw ← L.reader.exactly T.hashAddr 8 true
  let nbuckets := rd32 hdrRaw 0 L.ident.isLE
  let nchains := rd32 hdrRaw 4 L.ident.isLE
  let bucketsAddr := T.hashAddr + 8
  L.alloc (nbuckets.toNat * 4)
  let buckets ← L.reader.exactly bucketsAddr (nbuckets.toNat * 4) true
  .ok ⟨nbuckets, nchains, buckets, bucketsAddr + BitVec.ofNat 64 (nbuckets.toNat * 4)⟩

/-- A turn of the loop over a chain. -/
def sysVTurn (T : LookupTables) (H : SysVTable) :
    Walk → Action (Walk ⊕ (Value ⊕ NameBuf)) := fun (idx, buf) =>
  if idx ≠ 0 ∧ idx < H.nchains then do
    let (sym, buf) ← L.readNamed T idx buf
    let found ← L.isMatch T idx sym buf
    if found then .ok (.inr (.inl sym.st_value))
    else do
      let nextIdxRaw ← L.reader.exactly (H.chainsAddr + idx.setWidth 64 * 4) 4 true
      .ok (.inl (rd32 nextIdxRaw 0 L.ident.isLE, buf))
  else .ok (.inr (.inr buf))

/-- The lookup in a SysV table. -/
def sysVWalk (T : LookupTables) (buf : NameBuf) (fuel : Nat) (H : SysVTable) : Found :=
  if H.nbuckets = 0 then .error .dividedByZero
  else walk (L.sysVTurn T H) fuel (bucketAt H.buckets H.nbuckets (sysVHash L.symbolName), buf)

/-- The lookup through `DT_HASH`. -/
def sysVLookup (T : LookupTables) (buf : NameBuf) (fuel : Nat) : Found := do
  let H ← L.sysVTable T
  L.sysVWalk T buf fuel H

/-- The part through `DT_GNU_HASH`, or without it. -/
def firstPart (T : LookupTables) (fuel : Nat) : Found :=
  if T.gnuHashAddr = 0 then .ok (.inr L.stale) else L.gnuLookup T fuel

/-- The part behind `DT_GNU_HASH`: without a match there the name buffer is left. -/
def fallback (T : LookupTables) (fuel : Nat) : Value ⊕ NameBuf → Action Value
  | .inl value => .ok value
  | .inr buf => do
    if T.hashAddr = 0 then fail .error
    else
      match ← L.sysVLookup T buf fuel with
      | .inl value => .ok value
      | .inr _ => fail .error

/-- `DianaElfFile_GetSymbolAddress_Memory`, with `fuel` turns for each walk. -/
def getSymbolAddress (fuel : Nat) : Action Value := do
  let T ← L.tables
  let r ← L.firstPart T fuel
  L.fallback T fuel r

/-! ## Walks -/

/-- The next state of a walk. -/
def next (turn : Walk → Action (Walk ⊕ (Value ⊕ NameBuf))) (p : Walk) :
    Option Walk := (asTurn (turn p)).getLeft?

section

variable {turn : Walk → Action (Walk ⊕ (Value ⊕ NameBuf))} {p : Walk} {m n : Nat}

theorem asTurn_inr {x : Action (Walk ⊕ (Value ⊕ NameBuf))} {r : Found} (hx : Settled x)
    (h : asTurn x = .inr r) : Settled r := by
  unfold asTurn at h
  split at h
  · cases h
  · cases h
    trivial
  · next e =>
    cases h
    cases e <;> first | exact hx.elim | trivial

/-- A walk whose turns fail in order ends in order, if it ends. -/
theorem walk_settled_iff (hturn : ∀ p, Settled (turn p)) :
    Settled (walk turn n p) ↔ ∃ r, runFrom (fun _ p => asTurn (turn p)) 0 n p = .inr r := by
  unfold walk
  cases hrun : runFrom (fun _ p => asTurn (turn p)) 0 n p with
  | inl q => exact ⟨False.elim, fun ⟨r, hr⟩ => nomatch hr⟩
  | inr r =>
    obtain ⟨k, q, -, -, hlast⟩ := exists_last hrun
    exact ⟨fun _ => ⟨r, rfl⟩, fun _ => asTurn_inr (hturn q) hlast⟩

/-- A walk comes to an end just where it does not come back to a state. -/
theorem exists_walk_settled_iff (hturn : ∀ p, Settled (turn p)) :
    (∃ n, Settled (walk turn n p)) ↔ ¬ Cyclic (next turn) p := by
  have hleft : (∃ n b, runFrom (fun _ p => asTurn (turn p)) 0 n p = .inr b) ↔
      ¬ Cyclic (next turn) p :=
    left_iff_not_cyclic id (fun s t h => by rw [id, id, next, h]; rfl)
      (fun s b h => by rw [id, next, h]; rfl) p
  rw [← hleft]
  exact exists_congr fun n => walk_settled_iff hturn

/-- A walk that has ended has ended. -/
theorem walk_mono (hturn : ∀ p, Settled (turn p)) (h : Settled (walk turn m p)) (hle : m ≤ n) :
    walk turn n p = walk turn m p := by
  obtain ⟨r, hr⟩ := (walk_settled_iff hturn).1 h
  obtain ⟨k, rfl⟩ := Nat.exists_eq_add_of_le hle
  unfold walk
  rw [runFrom_inr_mono hr k, hr]

end

/-! ## When a lookup settles -/

section

variable {L : Lookup} {T : LookupTables} {idx : BitVec 32} {sym : Symbol} {buf : NameBuf}
  {fuel m n : Nat}

theorem settled_alloc (L : Lookup) (size : Nat) : Settled (L.alloc size) :=
  settled_ite (fun _ => trivial) fun _ => trivial

theorem settled_tables (L : Lookup) : Settled L.tables := by
  unfold tables
  refine settled_ite (fun _ => trivial) fun hsize => ?_
  rw [not_or, Nat.not_lt] at hsize
  split
  · trivial
  · refine (L.settled_alloc _).bind fun _ => Settled.bind (Reader.settled_into ?_) fun raw => ?_
    · rw [BitVec.toNat_setWidth]
      omega
    · exact settled_ite (fun _ => trivial) fun _ => settled_ite (fun _ => trivial) fun _ => trivial

theorem settled_readNamed (L : Lookup) (T : LookupTables) (idx : BitVec 32) (buf : NameBuf) :
    Settled (L.readNamed T idx buf) := by
  refine (settled_readSymNormalized _ _ _).bind fun sym =>
    Settled.bind (Reader.settled_into (by decide)) fun bs => ?_
  exact settled_ite (fun _ => trivial) fun _ => trivial

theorem settled_isMatch (L : Lookup) (T : LookupTables) (idx : BitVec 32) (sym : Symbol)
    (buf : NameBuf) : Settled (L.isMatch T idx sym buf) :=
  settled_ite (fun _ => (settled_isHiddenVersion _ _ _ _).bind fun _ => trivial) fun _ => trivial

theorem settled_chainTurn (L : Lookup) (T : LookupTables) (G : GnuTable) (p : Walk) :
    Settled (L.chainTurn T G p) :=
  (Reader.settled_exactly _ _ _ _).bind fun _ => (L.settled_readNamed _ _ _).bind fun _ =>
    (L.settled_isMatch _ _ _ _).bind fun _ => trivial

theorem settled_sysVTurn (L : Lookup) (T : LookupTables) (H : SysVTable) (p : Walk) :
    Settled (L.sysVTurn T H p) := by
  refine settled_ite (fun _ => ?_) fun _ => trivial
  refine (L.settled_readNamed _ _ _).bind fun _ => (L.settled_isMatch _ _ _ _).bind fun _ => ?_
  exact settled_ite (fun _ => trivial) fun _ =>
    (Reader.settled_exactly _ _ _ _).bind fun _ => trivial

theorem settled_gnuTable (L : Lookup) (T : LookupTables) : Settled (L.gnuTable T) := by
  refine (Reader.settled_exactly _ _ _ _).bind fun _ => settled_ite (fun _ => trivial) fun _ => ?_
  refine (L.settled_alloc _).bind fun _ => (Reader.settled_exactly _ _ _ _).bind fun _ => ?_
  refine settled_ite (fun _ => trivial) fun _ => (L.settled_alloc _).bind fun _ => ?_
  exact (Reader.settled_exactly _ _ _ _).bind fun _ => trivial

theorem settled_sysVTable (L : Lookup) (T : LookupTables) : Settled (L.sysVTable T) :=
  (Reader.settled_exactly _ _ _ _).bind fun _ => (L.settled_alloc _).bind fun _ =>
    (Reader.settled_exactly _ _ _ _).bind fun _ => trivial

/-- A GNU table through which a lookup can go: there is a filter, there are buckets for a hash that
it lets through, and the chain does not come back to an index with the same name buffer. -/
def GnuTable.Sound (L : Lookup) (T : LookupTables) (G : GnuTable) : Prop :=
  G.bloomsize ≠ 0 ∧ (G.Admits (gnuHash L.symbolName) → G.nbuckets ≠ 0 ∧
    (G.symoffset ≤ bucketAt G.buckets G.nbuckets (gnuHash L.symbolName) →
      ¬ Cyclic (next (L.chainTurn T G))
      (bucketAt G.buckets G.nbuckets (gnuHash L.symbolName), L.stale)))

/-- A SysV table through which a lookup can go. -/
def SysVTable.Sound (L : Lookup) (T : LookupTables) (H : SysVTable) (buf : NameBuf) : Prop :=
  H.nbuckets ≠ 0 ∧
    ¬ Cyclic (next (L.sysVTurn T H)) (bucketAt H.buckets H.nbuckets (sysVHash L.symbolName), buf)

theorem gnuLookup_eq (fuel : Nat) : L.gnuLookup T fuel = L.gnuTable T >>= L.gnuWalk T fuel := rfl

theorem gnuWalk_settled_iff {G : GnuTable} :
    (∃ fuel, Settled (L.gnuWalk T fuel G)) ↔ GnuTable.Sound L T G := by
  unfold gnuWalk GnuTable.Sound
  dsimp only
  by_cases hbloom : G.bloomsize = 0
  · simp only [if_pos hbloom]
    exact ⟨fun ⟨_, h⟩ => h.elim, fun h => absurd hbloom h.1⟩
  · simp only [if_neg hbloom]
    by_cases hadmits : G.Admits (gnuHash L.symbolName)
    · simp only [if_neg (not_not.2 hadmits)]
      by_cases hnbuckets : G.nbuckets = 0
      · simp only [if_pos hnbuckets]
        exact ⟨fun ⟨_, h⟩ => h.elim, fun h => absurd hnbuckets (h.2 hadmits).1⟩
      · simp only [if_neg hnbuckets]
        by_cases hlow : bucketAt G.buckets G.nbuckets (gnuHash L.symbolName) < G.symoffset
        · simp only [if_pos hlow]
          refine ⟨fun _ => ⟨hbloom, fun _ => ⟨hnbuckets, fun hle => ?_⟩⟩, fun _ => ⟨0, trivial⟩⟩
          exact absurd hle (BitVec.not_le.2 hlow)
        · simp only [if_neg hlow]
          rw [exists_walk_settled_iff (L.settled_chainTurn T G)]
          exact ⟨fun h => ⟨hbloom, fun _ => ⟨hnbuckets, fun _ => h⟩⟩,
            fun h => (h.2 hadmits).2 (BitVec.not_lt.1 hlow)⟩
    · simp only [if_pos hadmits]
      exact ⟨fun _ => ⟨hbloom, fun h => absurd h hadmits⟩, fun _ => ⟨0, trivial⟩⟩

theorem gnuLookup_settled_iff : (∃ fuel, Settled (L.gnuLookup T fuel)) ↔
    ∀ G, L.gnuTable T = .ok G → GnuTable.Sound L T G := by
  simp only [gnuLookup_eq, settled_bind_iff (L.settled_gnuTable T)]
  constructor
  · rintro ⟨fuel, h⟩ G hG
    exact gnuWalk_settled_iff.1 ⟨fuel, h G hG⟩
  · intro h
    rcases hG : L.gnuTable T with e | G
    · exact ⟨0, nofun⟩
    · obtain ⟨fuel, hwalk⟩ := gnuWalk_settled_iff.2 (h G hG)
      exact ⟨fuel, fun G' hG' => Except.ok.inj hG' ▸ hwalk⟩

theorem gnuLookup_mono (h : Settled (L.gnuLookup T m)) (hle : m ≤ n) :
    L.gnuLookup T n = L.gnuLookup T m := by
  rw [gnuLookup_eq, gnuLookup_eq]
  rw [gnuLookup_eq, settled_bind_iff (L.settled_gnuTable T)] at h
  cases hG : L.gnuTable T with
  | error e => rfl
  | ok G =>
    have hwalk := h G hG
    change L.gnuWalk T n G = L.gnuWalk T m G
    unfold gnuWalk at hwalk ⊢
    dsimp only at hwalk ⊢
    split
    · rfl
    · next hbloom =>
      rw [if_neg hbloom] at hwalk
      split
      · rfl
      · next hadmits =>
        rw [if_neg hadmits] at hwalk
        split
        · rfl
        · next hnbuckets =>
          rw [if_neg hnbuckets] at hwalk
          split
          · rfl
          · next hlow =>
            rw [if_neg hlow] at hwalk
            exact walk_mono (L.settled_chainTurn T G) hwalk hle

theorem sysVWalk_settled_iff {H : SysVTable} :
    (∃ fuel, Settled (L.sysVWalk T buf fuel H)) ↔ SysVTable.Sound L T H buf := by
  unfold sysVWalk SysVTable.Sound
  by_cases hnbuckets : H.nbuckets = 0
  · simp only [if_pos hnbuckets]
    exact ⟨fun ⟨_, h⟩ => h.elim, fun h => absurd hnbuckets h.1⟩
  · simp only [if_neg hnbuckets]
    rw [exists_walk_settled_iff (L.settled_sysVTurn T H)]
    exact ⟨fun h => ⟨hnbuckets, h⟩, fun h => h.2⟩

theorem sysVLookup_settled_iff : (∃ fuel, Settled (L.sysVLookup T buf fuel)) ↔
    ∀ H, L.sysVTable T = .ok H → SysVTable.Sound L T H buf := by
  unfold sysVLookup
  simp only [settled_bind_iff (L.settled_sysVTable T)]
  constructor
  · rintro ⟨fuel, h⟩ H hH
    exact sysVWalk_settled_iff.1 ⟨fuel, h H hH⟩
  · intro h
    rcases hH : L.sysVTable T with e | H
    · exact ⟨0, nofun⟩
    · obtain ⟨fuel, hwalk⟩ := sysVWalk_settled_iff.2 (h H hH)
      exact ⟨fuel, fun H' hH' => Except.ok.inj hH' ▸ hwalk⟩

theorem sysVLookup_mono (h : Settled (L.sysVLookup T buf m)) (hle : m ≤ n) :
    L.sysVLookup T buf n = L.sysVLookup T buf m := by
  unfold sysVLookup at h ⊢
  rw [settled_bind_iff (L.settled_sysVTable T)] at h
  cases hH : L.sysVTable T with
  | error e => rfl
  | ok H =>
    have hwalk := h H hH
    change L.sysVWalk T buf n H = L.sysVWalk T buf m H
    unfold sysVWalk at hwalk ⊢
    split
    · rfl
    · next hnbuckets =>
      rw [if_neg hnbuckets] at hwalk
      exact walk_mono (L.settled_sysVTurn T H) hwalk hle

theorem firstPart_settled_iff : (∃ fuel, Settled (L.firstPart T fuel)) ↔
    (T.gnuHashAddr ≠ 0 → ∀ G, L.gnuTable T = .ok G → GnuTable.Sound L T G) := by
  unfold firstPart
  by_cases hgnu : T.gnuHashAddr = 0
  · simp only [if_pos hgnu]
    exact ⟨fun _ h => absurd hgnu h, fun _ => ⟨0, trivial⟩⟩
  · simp only [if_neg hgnu]
    rw [gnuLookup_settled_iff]
    exact ⟨fun h _ => h, fun h => h hgnu⟩

theorem firstPart_mono (h : Settled (L.firstPart T m)) (hle : m ≤ n) :
    L.firstPart T n = L.firstPart T m := by
  unfold firstPart at h ⊢
  split
  · rfl
  · next hgnu =>
    rw [if_neg hgnu] at h
    exact gnuLookup_mono h hle

/-- Behind `DT_GNU_HASH` only the walk through `DT_HASH` can fail to come to an end. -/
theorem fallback_settled_iff {r : Value ⊕ NameBuf} : Settled (L.fallback T fuel r) ↔
    ∀ buf, r = .inr buf → T.hashAddr ≠ 0 → Settled (L.sysVLookup T buf fuel) := by
  cases r with
  | inl value => exact ⟨fun _ _ h => (nomatch h), fun _ => trivial⟩
  | inr buf =>
    unfold fallback
    dsimp only
    by_cases hhash : T.hashAddr = 0
    · rw [if_pos hhash]
      exact ⟨fun _ _ _ h => absurd hhash h, fun _ => trivial⟩
    · rw [if_neg hhash]
      constructor
      · rintro h _ heq -
        cases heq
        exact h.of_bind
      · intro h
        refine (h buf rfl hhash).bind fun r => ?_
        cases r <;> trivial

/-- The tables through which a lookup goes let it come to an end: the GNU table, and the SysV table
where the chain of the other ends without a match or where there is no other. -/
def Sound (L : Lookup) : Prop :=
  ∀ T, L.tables = .ok T →
    (T.gnuHashAddr ≠ 0 → ∀ G, L.gnuTable T = .ok G → GnuTable.Sound L T G) ∧
      ∀ fuel buf, L.firstPart T fuel = .ok (.inr buf) → T.hashAddr ≠ 0 →
        ∀ H, L.sysVTable T = .ok H → SysVTable.Sound L T H buf

end

end Lookup

/-- A lookup finds a symbol, reports that there is none or fails, exactly if the tables that it goes
through let it: what it divides by is not 0, and no chain comes back to where it was. -/
theorem settles_iff (L : Lookup) : (∃ fuel, Settled (L.getSymbolAddress fuel)) ↔ L.Sound := by
  have hunfold : ∀ fuel, L.getSymbolAddress fuel =
      L.tables >>= fun T => L.firstPart T fuel >>= L.fallback T fuel := fun _ => rfl
  simp only [hunfold, settled_bind_iff L.settled_tables]
  constructor
  · rintro ⟨fuel, h⟩ T hT
    have hT' := h T hT
    have hfirst := hT'.of_bind
    refine ⟨Lookup.firstPart_settled_iff.1 ⟨fuel, hfirst⟩, fun fuel' buf hbuf hhash => ?_⟩
    rw [settled_bind_iff hfirst] at hT'
    have hsame : L.firstPart T fuel = .ok (.inr buf) := by
      have hfirst' : Settled (L.firstPart T fuel') := by
        rw [hbuf]
        trivial
      have h1 := Lookup.firstPart_mono hfirst (Nat.le_max_left fuel fuel')
      have h2 := Lookup.firstPart_mono hfirst' (Nat.le_max_right fuel fuel')
      rw [← h1, h2, hbuf]
    exact Lookup.sysVLookup_settled_iff.1 ⟨fuel,
      Lookup.fallback_settled_iff.1 (hT' _ hsame) buf rfl hhash⟩
  · intro h
    rcases hT : L.tables with e | T
    · exact ⟨0, nofun⟩
    · obtain ⟨hgnu, hsysV⟩ := h T hT
      obtain ⟨n, hfirst⟩ := Lookup.firstPart_settled_iff.2 hgnu
      have hmore : ∃ m, ∀ buf, L.firstPart T n = .ok (.inr buf) → T.hashAddr ≠ 0 →
          Settled (L.sysVLookup T buf m) := by
        by_cases hleft : ∃ buf, L.firstPart T n = .ok (.inr buf) ∧ T.hashAddr ≠ 0
        · obtain ⟨buf, hbuf, hhash⟩ := hleft
          obtain ⟨m, hm⟩ := Lookup.sysVLookup_settled_iff.2 (hsysV n buf hbuf hhash)
          refine ⟨m, fun buf' hbuf' _ => ?_⟩
          rw [hbuf] at hbuf'
          cases hbuf'
          exact hm
        · exact ⟨0, fun buf hbuf hhash => absurd ⟨buf, hbuf, hhash⟩ hleft⟩
      obtain ⟨m, hm⟩ := hmore
      refine ⟨max n m, fun T' hT' => ?_⟩
      cases hT'
      have hsame := Lookup.firstPart_mono hfirst (Nat.le_max_left n m)
      rw [settled_bind_iff (hsame ▸ hfirst)]
      intro r hr
      refine Lookup.fallback_settled_iff.2 fun buf hbuf hhash => ?_
      have hsettled := hm buf (by rw [← hsame, hr, hbuf]) hhash
      rw [Lookup.sysVLookup_mono hsettled (Nat.le_max_right n m)]
      exact hsettled

/-! ## A table without a filter -/

/-- An image of 0x200 bytes: `DT_SYMTAB`, `DT_STRTAB` and `DT_GNU_HASH`, and a GNU
table of zeros at 0x100. -/
def zeroTable : List Byte :=
  let entry (tag val : Nat) := leBytes 8 tag ++ leBytes 8 val
  entry 6 0x180 ++ entry 5 0x1C0 ++ entry 0x6FFFFEF5 0x100 ++ entry 0 0 ++ List.replicate 0x1C0 0

/-- A reader of bytes in memory. -/
def bytesReader (mem : List Byte) : Reader where
  read address size _ := .ok ((mem.drop address.toNat).take size.toNat)
  length_le := by
    rintro address size absolute _ ⟨⟩
    exact List.length_take_le _ _

/-- A 64-bit file whose dynamic section is at its start. -/
def zeroTableFile : ElfFile where
  fileMode := false
  ident := ⟨true, true⟩
  e_type := 3
  e_machine := 62
  e_ehsize := 64
  e_phentsize := 56
  e_phnum := 2
  capturedSegments := [⟨1, 0, 0, 0, 0, 0x200, 0x200, 0⟩, ⟨2, 0, 0, 0, 0, 64, 64, 0⟩]

/-- The lookup of `a` divides by 0. -/
theorem not_settles : ¬ ∀ L : Lookup, ∃ fuel, Settled (L.getSymbolAddress fuel) := by
  intro h
  let L : Lookup := ⟨zeroTableFile, bytesReader zeroTable, fun _ => true, fun _ => 0,
      fun _ => 0, [0x61]⟩
  have htables : L.tables = .ok ⟨0x180, 0x1C0, 0x100, 0, 0⟩ := by decide +kernel
  have hgnu : L.gnuTable ⟨0x180, 0x1C0, 0x100, 0, 0⟩ = .ok ⟨0, 0, 0, [], [], 0x110⟩ := by
    decide +kernel
  obtain ⟨fuel, hsettled⟩ := h L
  change Settled (L.tables >>= fun T => L.firstPart T fuel >>= L.fallback T fuel) at hsettled
  rw [htables] at hsettled
  have hfirst : Settled (L.firstPart ⟨0x180, 0x1C0, 0x100, 0, 0⟩ fuel) :=
    Settled.of_bind (f := L.fallback ⟨0x180, 0x1C0, 0x100, 0, 0⟩ fuel) hsettled
  exact (Lookup.firstPart_settled_iff.1 ⟨fuel, hfirst⟩ (by decide) _ hgnu).1 rfl

end Diana.Elf
