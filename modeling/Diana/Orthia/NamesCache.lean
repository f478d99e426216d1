import Mathlib.Algebra.Group.Int.Defs
import Mathlib.Algebra.Group.Nat.Defs
import Mathlib.Data.List.Nodup
import Mathlib.Tactic.Common

/-!
# The cache of module names

`ModuleNamesStorage` of `orthia_module_names.cpp`: the names of the modules that were looked at
last. They are built outside the lock, and kept unless something was invalidated in the meantime.

* `ModuleNamesStorage`: the storage and what its functions do under the lock;
* `step`: one step of any of the queries, or of the rest of the program;
* `Fresh`: what every step keeps;
* `run_fresh`: no query returns names that are older than it may.
-/

namespace Diana.Orthia.NamesCache

variable {δ : Type}

/-- `Address_type` of a module. -/
abbrev Address := BitVec 64

/-- Data of a module as a build has read it, and when. -/
structure Reading (δ : Type) where
  time : Nat
  value : δ

/-- `ModuleNames`: what the names are built from. -/
abbrev ModuleNames (δ : Type) := List (Reading δ)

/-- `c_maxModules` -/
def c_maxModules : Nat := 4

structure ModuleNamesStorage (δ : Type) where
  /-- Most recent first. -/
  m_modules : List (Address × ModuleNames δ)
  m_generation : Nat

namespace ModuleNamesStorage

variable (S : ModuleNamesStorage δ)

/-- The first part of `Query`: the names and the list with its entry at the front. -/
def lookup (moduleAddress : Address) : Option (ModuleNames δ × ModuleNamesStorage δ) :=
  match S.m_modules.find? (·.1 = moduleAddress) with
  | some entry =>
    some (entry.2, { S with m_modules := entry :: S.m_modules.eraseP (·.1 = moduleAddress) })
  | none => none

def removeIf (moduleAddress : Address) : List (Address × ModuleNames δ) :=
  S.m_modules.filter (·.1 ≠ moduleAddress)

/-- The last part of `Query`. -/
def store (moduleAddress : Address) (generation : Nat) (names : ModuleNames δ) :
    ModuleNamesStorage δ :=
  if generation ≠ S.m_generation then S
  else
    let modules := (moduleAddress, names) :: S.removeIf moduleAddress
    { S with m_modules := if c_maxModules < modules.length then modules.dropLast else modules }

/-- `++m_generation`; behind the last `long long` there is none. -/
def nextGeneration : Option Nat :=
  if S.m_generation + 1 < 2 ^ 63 then some (S.m_generation + 1) else none

/-- `Invalidate` -/
def invalidate (moduleAddress : Address) : Option (ModuleNamesStorage δ) :=
  S.nextGeneration.map fun generation => ⟨S.removeIf moduleAddress, generation⟩

/-- `Clear` -/
def clear : Option (ModuleNamesStorage δ) := S.nextGeneration.map fun generation => ⟨[], generation⟩

end ModuleNamesStorage

/-! ## The system -/

/-- A `Query` that builds names. -/
structure Build (δ : Type) where
  moduleAddress : Address
  generation : Nat
  lookedUpAt : Nat
  names : ModuleNames δ

/-- A `Query` that has returned. -/
structure Returned (δ : Type) where
  moduleAddress : Address
  lookedUpAt : Nat
  names : ModuleNames δ

/-- An `Invalidate` of a module, or a `Clear`. -/
structure Invalidation where
  time : Nat
  moduleAddress : Option Address
  deriving DecidableEq, Repr

/-- Names of the module are no longer valid. -/
def Invalidation.Covers (i : Invalidation) (moduleAddress : Address) : Prop :=
  i.moduleAddress = none ∨ i.moduleAddress = some moduleAddress

/-- The storage, the data of the modules and the queries under way, with what has happened so
far. -/
structure System (δ : Type) where
  storage : ModuleNamesStorage δ
  data : Address → δ
  builds : Nat → Option (Build δ)
  now : Nat
  invalidations : List Invalidation
  returned : List (Returned δ)

inductive Action (δ : Type) where
  /-- A new `Query`, up to where it leaves the lock. -/
  | lookup (query : Nat) (moduleAddress : Address)
  /-- `build` reads data of the module. -/
  | read (query : Nat)
  /-- `build` has thrown. -/
  | abandon (query : Nat)
  /-- The rest of the `Query`. -/
  | store (query : Nat)
  | invalidate (moduleAddress : Address)
  | clear
  /-- The data of a module change. -/
  | change (moduleAddress : Address) (value : δ)

namespace System

variable (s : System δ)

def withBuild (query : Nat) (b : Option (Build δ)) : Nat → Option (Build δ) :=
  fun q => if q = query then b else s.builds q

def lookup (query : Nat) (moduleAddress : Address) : System δ :=
  match s.storage.lookup moduleAddress with
  | some (names, storage) =>
    { s with storage, returned := ⟨moduleAddress, s.now, names⟩ :: s.returned }
  | none =>
    { s with builds := s.withBuild query (some ⟨moduleAddress, s.storage.m_generation, s.now, []⟩) }

def read (query : Nat) (b : Build δ) : System δ :=
  { s with
    builds :=
    s.withBuild query (some { b with names := b.names ++ [⟨s.now, s.data b.moduleAddress⟩] }) }

def store (query : Nat) (b : Build δ) : System δ :=
  { s with
    storage := s.storage.store b.moduleAddress b.generation b.names
    builds := s.withBuild query none
    returned := ⟨b.moduleAddress, b.lookedUpAt, b.names⟩ :: s.returned }

/-- A step before the clock goes on; there is none for a query that is not under way. -/
def act : Action δ → Option (System δ)
  | .lookup query moduleAddress =>
    if (s.builds query).isSome then none else some (s.lookup query moduleAddress)
  | .read query => (s.builds query).map (s.read query)
  | .abandon query => (s.builds query).map fun _ => { s with builds := s.withBuild query none }
  | .store query => (s.builds query).map (s.store query)
  | .invalidate moduleAddress =>
    (s.storage.invalidate moduleAddress).map fun storage =>
      { s with storage, invalidations := ⟨s.now, some moduleAddress⟩ :: s.invalidations }
  | .clear =>
    s.storage.clear.map fun storage =>
      { s with storage, invalidations := ⟨s.now, none⟩ :: s.invalidations }
  | .change moduleAddress value =>
    some { s with data := fun a => if a = moduleAddress then value else s.data a }

def step (a : Action δ) : Option (System δ) := (s.act a).map fun t => { t with now := s.now + 1 }

/-- The program starts with an empty storage. -/
def start (data : Address → δ) : System δ := ⟨⟨[], 0⟩, data, fun _ => none, 0, [], []⟩

/-- A run. -/
def run : System δ → List (Action δ) → Option (System δ)
  | s, [] => some s
  | s, a :: as => (s.step a).bind fun t => run t as

end System

/-! ## The storage -/

/-- At most one entry for a module, at most `c_maxModules` of them, and `P` of each. -/
structure Keeps (P : Address → ModuleNames δ → Prop) (S : ModuleNamesStorage δ) : Prop where
  nodup : (S.m_modules.map (·.1)).Nodup
  length_le : S.m_modules.length ≤ c_maxModules
  entries : ∀ e ∈ S.m_modules, P e.1 e.2

section

variable {S S' : ModuleNamesStorage δ} {P Q : Address → ModuleNames δ →
  Prop} {moduleAddress : Address} {generation : Nat} {names : ModuleNames δ}

theorem Keeps.mono (h : Keeps P S) (hPQ : ∀ a names, P a names → Q a names) : Keeps Q S :=
  ⟨h.nodup, h.length_le, fun e he => hPQ _ _ (h.entries e he)⟩

/-- What is found was there, and the entries are the same ones. -/
theorem lookup_spec (h : S.lookup moduleAddress = some (names, S')) :
    (moduleAddress, names) ∈ S.m_modules ∧ S'.m_modules.Perm S.m_modules ∧
    S'.m_generation = S.m_generation := by
  unfold ModuleNamesStorage.lookup at h
  cases hfind : S.m_modules.find? (·.1 = moduleAddress) with
  | none =>
    rw [hfind] at h
    cases h
  | some entry =>
    rw [hfind] at h
    cases h
    obtain ⟨hkey, before, after, hsplit, hbefore⟩ := List.find?_eq_some_iff_append.1 hfind
    have hkey' : entry.1 = moduleAddress := of_decide_eq_true hkey
    have hmem : entry ∈ S.m_modules := List.mem_of_find?_eq_some hfind
    refine ⟨hkey' ▸ hmem, ?_, rfl⟩
    have herase : (before ++ entry :: after).eraseP (·.1 = moduleAddress) = before ++ after := by
      rw [List.eraseP_append_right _ fun e he => by simpa using hbefore e he]
      simp [hkey']
    dsimp only
    rw [hsplit, herase]
    exact List.perm_middle.symm

theorem Keeps.lookup (h : Keeps P S) (hl : S.lookup moduleAddress = some (names, S')) :
    Keeps P S' ∧ P moduleAddress names := by
  obtain ⟨hmem, hperm, -⟩ := lookup_spec hl
  refine ⟨⟨(hperm.map _).nodup_iff.2 h.nodup, hperm.length_eq ▸ h.length_le, fun e he => ?_⟩,
    h.entries _ hmem⟩
  exact h.entries e (hperm.mem_iff.1 he)

theorem mem_removeIf {e : Address × ModuleNames δ} :
    e ∈ S.removeIf moduleAddress ↔ e ∈ S.m_modules ∧ e.1 ≠ moduleAddress := by
  rw [ModuleNamesStorage.removeIf, List.mem_filter, decide_eq_true_iff]

theorem Keeps.nodup_removeIf (h : Keeps P S) (moduleAddress : Address) :
    ((S.removeIf moduleAddress).map (·.1)).Nodup :=
  h.nodup.sublist (List.filter_sublist.map _)

theorem Keeps.store (h : Keeps P S) (hnames : generation = S.m_generation → P moduleAddress names) :
    Keeps P (S.store moduleAddress generation names) := by
  unfold ModuleNamesStorage.store
  split
  · exact h
  · next hgeneration =>
    have hlength : (S.removeIf moduleAddress).length ≤ c_maxModules :=
      Nat.le_trans (List.length_filter_le _ _) h.length_le
    have hnodup : (((moduleAddress, names) :: S.removeIf moduleAddress).map (·.1)).Nodup := by
      refine List.nodup_cons.2 ⟨fun hmem => ?_, h.nodup_removeIf moduleAddress⟩
      obtain ⟨e, he, hkey⟩ := List.mem_map.1 hmem
      exact (mem_removeIf.1 he).2 hkey
    have hentries : ∀ e ∈ (moduleAddress, names) :: S.removeIf moduleAddress, P e.1 e.2 :=
      List.forall_mem_cons.2 ⟨hnames (not_not.1 hgeneration),
        fun e he => h.entries e (mem_removeIf.1 he).1⟩
    dsimp only
    split
    · have hsub := List.dropLast_sublist ((moduleAddress, names) :: S.removeIf moduleAddress)
      refine ⟨hnodup.sublist (hsub.map _), ?_, fun e he => hentries e (hsub.subset he)⟩
      rw [List.length_dropLast, List.length_cons]
      exact hlength
    · next hfits => exact ⟨hnodup, Nat.le_of_not_lt hfits, hentries⟩

@[simp] theorem store_generation (S : ModuleNamesStorage δ) (moduleAddress : Address)
    (generation : Nat) (names : ModuleNames δ) :
    (S.store moduleAddress generation names).m_generation = S.m_generation := by
  unfold ModuleNamesStorage.store
  split <;> rfl

theorem nextGeneration_eq_some {g : Nat} (h : S.nextGeneration = some g) :
    g = S.m_generation + 1 := by
  unfold ModuleNamesStorage.nextGeneration at h
  split at h
  · exact (Option.some.inj h).symm
  · cases h

theorem invalidate_spec (h : S.invalidate moduleAddress = some S') :
    S'.m_modules = S.removeIf moduleAddress ∧ S'.m_generation = S.m_generation + 1 := by
  obtain ⟨g, hg, rfl⟩ := Option.map_eq_some_iff.1 h
  exact ⟨rfl, nextGeneration_eq_some hg⟩

theorem clear_spec (h : S.clear = some S') :
    S'.m_modules = [] ∧ S'.m_generation = S.m_generation + 1 := by
  obtain ⟨g, hg, rfl⟩ := Option.map_eq_some_iff.1 h
  exact ⟨rfl, nextGeneration_eq_some hg⟩

end

/-! ## Runs -/

/-- The names are built from data read after every invalidation of the module. -/
def Current (invalidations : List Invalidation) (moduleAddress : Address) (names : ModuleNames δ) :
    Prop :=
  ∀ i ∈ invalidations, i.Covers moduleAddress → ∀ r ∈ names, i.time < r.time

/-- What a query returns is not older than the invalidations before its lookup. -/
def Returned.Fresh (invalidations : List Invalidation) (r : Returned δ) : Prop :=
  ∀ i ∈ invalidations, i.Covers r.moduleAddress → i.time < r.lookedUpAt → ∀ reading ∈ r.names,
    i.time < reading.time

/-- A build that the storage would still take has started behind all invalidations. -/
structure Build.Fresh (m_generation : Nat) (invalidations : List Invalidation) (now : Nat)
    (b : Build δ) : Prop where
  lookedUpAt_lt : b.lookedUpAt < now
  names : ∀ r ∈ b.names, b.lookedUpAt < r.time
  generation_le : b.generation ≤ m_generation
  unchanged : b.generation = m_generation → ∀ i ∈ invalidations, i.time < b.lookedUpAt

structure Fresh (s : System δ) : Prop where
  storage : Keeps (Current s.invalidations) s.storage
  builds : ∀ q b, s.builds q = some b → b.Fresh s.storage.m_generation s.invalidations s.now
  invalidations : ∀ i ∈ s.invalidations, i.time < s.now
  lookedUp : ∀ r ∈ s.returned, r.lookedUpAt < s.now
  returned : ∀ r ∈ s.returned, r.Fresh s.invalidations

section

variable {s t : System δ} {b : Build δ} {moduleAddress : Address} {query : Nat}

theorem fresh_start (data : Address → δ) : Fresh (System.start data) where
  storage := ⟨List.nodup_nil, Nat.zero_le _, nofun⟩
  builds := nofun
  invalidations := nofun
  lookedUp := nofun
  returned := nofun

/-- The clock goes on. -/
theorem Fresh.tick (h : Fresh s) : Fresh { s with now := s.now + 1 } where
  storage := h.storage
  builds q b hb := { h.builds q b hb with
    lookedUpAt_lt := Nat.lt_succ_of_lt (h.builds q b hb).lookedUpAt_lt }
  invalidations i hi := Nat.lt_succ_of_lt (h.invalidations i hi)
  lookedUp r hr := Nat.lt_succ_of_lt (h.lookedUp r hr)
  returned := h.returned

/-- The builds after a step that sets one of them. -/
theorem withBuild_cases {b' : Option (Build δ)} {q : Nat} (h : s.withBuild query b' q = some b) :
    b' = some b ∨ s.builds q = some b := by
  unfold System.withBuild at h
  split at h
  · exact .inl h
  · exact .inr h

/-- Names that a build has read after its lookup. -/
theorem Build.Fresh.returned {m_generation now : Nat} {invalidations : List Invalidation}
    (hb : b.Fresh m_generation invalidations now) :
    Returned.Fresh invalidations ⟨b.moduleAddress, b.lookedUpAt, b.names⟩ :=
  fun _ _ _ hbefore r hr => Nat.lt_trans hbefore (hb.names r hr)

theorem Build.Fresh.current {m_generation now : Nat} {invalidations : List Invalidation}
    (hb : b.Fresh m_generation invalidations now) (hgeneration : b.generation = m_generation) :
    Current invalidations b.moduleAddress b.names :=
  fun i hi _ r hr => Nat.lt_trans (hb.unchanged hgeneration i hi) (hb.names r hr)

/-- A lookup in the list: what it returns is what the list keeps. -/
theorem Fresh.hit {names : ModuleNames δ} {S : ModuleNamesStorage δ} (h : Fresh s)
    (hl : s.storage.lookup moduleAddress = some (names, S)) :
    Fresh { s with
      storage := S, now := s.now + 1,
        returned := ⟨moduleAddress, s.now, names⟩ :: s.returned } := by
  obtain ⟨hkeeps, hcurrent⟩ := h.storage.lookup hl
  obtain ⟨-, -, hgeneration⟩ := lookup_spec hl
  refine ⟨hkeeps, fun q b hb => ?_, h.tick.invalidations, ?_, ?_⟩
  · obtain ⟨hlt, hnames, hle, hunchanged⟩ := h.tick.builds q b hb
    exact ⟨hlt, hnames, hgeneration ▸ hle, fun heq => hunchanged (heq.trans hgeneration)⟩
  · exact List.forall_mem_cons.2 ⟨Nat.lt_succ_self _, h.tick.lookedUp⟩
  · exact List.forall_mem_cons.2 ⟨fun i hi hcovers _ => hcurrent i hi hcovers, h.returned⟩

/-- One build is set to a fresh one, or ends. -/
theorem Fresh.withBuild {b' : Option (Build δ)} (h : Fresh s)
    (hb : ∀ b, b' = some b → b.Fresh s.storage.m_generation s.invalidations (s.now + 1)) :
    Fresh { s with builds := s.withBuild query b', now := s.now + 1 } := by
  refine { h.tick with builds := fun q b hq => ?_ }
  rcases withBuild_cases hq with hnew | hold
  · exact hb b hnew
  · exact h.tick.builds q b hold

/-- A lookup that finds nothing: whatever was invalidated was so before. -/
theorem Fresh.miss (h : Fresh s) (moduleAddress : Address) (query : Nat) :
    Fresh { s with
      builds := s.withBuild query (some ⟨moduleAddress, s.storage.m_generation, s.now, []⟩), now :=
        s.now + 1 } := by
  refine h.withBuild fun b hb => ?_
  cases hb
  exact ⟨Nat.lt_succ_self _, nofun, Nat.le_refl _, fun _ => h.invalidations⟩

theorem Fresh.read (h : Fresh s) (hb : s.builds query = some b) :
    Fresh { s.read query b with now := s.now + 1 } := by
  refine h.withBuild fun b' hb' => ?_
  cases hb'
  have hbuild := h.tick.builds query b hb
  refine { hbuild with names := fun r hr => ?_ }
  rcases List.mem_append.1 hr with hr | hr
  · exact hbuild.names r hr
  · rw [List.mem_singleton.1 hr]
    exact (h.builds query b hb).lookedUpAt_lt

theorem Fresh.store (h : Fresh s) (hb : s.builds query = some b) :
    Fresh { s.store query b with now := s.now + 1 } := by
  have hbuild := h.builds query b hb
  refine ⟨h.storage.store hbuild.current, fun q b' hq => ?_, h.tick.invalidations, ?_, ?_⟩
  · rcases withBuild_cases hq with hnew | hold
    · cases hnew
    · obtain ⟨hlt, hnames, hle, hunchanged⟩ := h.tick.builds q b' hold
      exact ⟨hlt, hnames, (store_generation ..).symm ▸ hle,
        fun heq => hunchanged (heq.trans (store_generation ..))⟩
  · exact List.forall_mem_cons.2 ⟨Nat.lt_succ_of_lt hbuild.lookedUpAt_lt, h.tick.lookedUp⟩
  · exact List.forall_mem_cons.2 ⟨hbuild.returned, h.returned⟩

/-- Something is invalidated: no build under way is stored any more, and what stays in the
list is not covered. -/
theorem Fresh.invalidated {S : ModuleNamesStorage δ} {i : Invalidation} (h : Fresh s)
    (hi : i.time = s.now) (hgeneration : S.m_generation = s.storage.m_generation + 1)
    (hkeeps : Keeps (fun a names => Current s.invalidations a names ∧ ¬ i.Covers a) S) :
    Fresh { s with storage := S, invalidations := i :: s.invalidations, now := s.now + 1 } := by
  refine ⟨hkeeps.mono fun a names hcurrent => ?_, fun q b hb => ?_, ?_, h.tick.lookedUp,
    fun r hr => ?_⟩
  · exact List.forall_mem_cons.2 ⟨fun hcovers => absurd hcovers hcurrent.2, hcurrent.1⟩
  · obtain ⟨hlt, hnames, hle, -⟩ := h.tick.builds q b hb
    refine ⟨hlt, hnames, ?_, fun heq => ?_⟩
    · exact hgeneration ▸ Nat.le_succ_of_le hle
    · have hle' : b.generation ≤ s.storage.m_generation := hle
      have heq' : b.generation = S.m_generation := heq
      omega
  · exact List.forall_mem_cons.2 ⟨hi ▸ Nat.lt_succ_self _, h.tick.invalidations⟩
  · refine List.forall_mem_cons.2 ⟨fun _ hbefore => ?_, h.returned r hr⟩
    have hlooked := h.lookedUp r hr
    omega

theorem Keeps.invalidate {S S' : ModuleNamesStorage δ} {P : Address → ModuleNames δ → Prop}
    (h : Keeps P S) (hS : S.invalidate moduleAddress = some S') (time : Nat) :
    Keeps (fun a names => P a names ∧
      ¬ (⟨time, some moduleAddress⟩ : Invalidation).Covers a) S' := by
  obtain ⟨hmodules, -⟩ := invalidate_spec hS
  refine ⟨hmodules ▸ h.nodup_removeIf moduleAddress, ?_, fun e he => ?_⟩
  · rw [hmodules]
    exact Nat.le_trans (List.length_filter_le _ _) h.length_le
  · rw [hmodules] at he
    obtain ⟨hmem, hne⟩ := mem_removeIf.1 he
    refine ⟨h.entries e hmem, ?_⟩
    rintro (hnone | hsome)
    · cases hnone
    · exact hne (Option.some.inj hsome).symm

theorem Keeps.clear {S S' : ModuleNamesStorage δ} {P : Address → ModuleNames δ → Prop}
    (hS : S.clear = some S') : Keeps P S' := by
  obtain ⟨hmodules, -⟩ := clear_spec hS
  refine ⟨?_, ?_, ?_⟩ <;> rw [hmodules]
  · exact List.nodup_nil
  · exact Nat.zero_le _
  · exact nofun

/-- Every step keeps the system fresh. -/
theorem Fresh.step {a : Action δ} (h : Fresh s) (hstep : s.step a = some t) : Fresh t := by
  obtain ⟨u, hact, rfl⟩ := Option.map_eq_some_iff.1 hstep
  cases a with
  | lookup query moduleAddress =>
    simp only [System.act] at hact
    split at hact
    · cases hact
    · cases hact
      unfold System.lookup
      split
      · next hl => exact h.hit hl
      · exact h.miss moduleAddress query
  | read query =>
    obtain ⟨b, hb, rfl⟩ := Option.map_eq_some_iff.1 hact
    exact h.read hb
  | abandon query =>
    obtain ⟨b, hb, rfl⟩ := Option.map_eq_some_iff.1 hact
    exact h.withBuild nofun
  | store query =>
    obtain ⟨b, hb, rfl⟩ := Option.map_eq_some_iff.1 hact
    exact h.store hb
  | invalidate moduleAddress =>
    obtain ⟨S, hS, rfl⟩ := Option.map_eq_some_iff.1 hact
    exact h.invalidated rfl (invalidate_spec hS).2 (h.storage.invalidate hS s.now)
  | clear =>
    obtain ⟨S, hS, rfl⟩ := Option.map_eq_some_iff.1 hact
    exact h.invalidated rfl (clear_spec hS).2 (Keeps.clear hS)
  | change moduleAddress value =>
    cases hact
    exact ⟨h.storage, h.tick.builds, h.tick.invalidations, h.tick.lookedUp, h.returned⟩

theorem Fresh.run {as : List (Action δ)} (h : Fresh s) (hrun : s.run as = some t) : Fresh t := by
  induction as generalizing s with
  | nil =>
    cases hrun
    exact h
  | cons a as ih =>
    obtain ⟨u, hstep, hrest⟩ := Option.bind_eq_some_iff.1 hrun
    exact ih (h.step hstep) hrest

/-- In every run, a query that looks after an invalidation returns names of data read after it, and
the storage holds at most one entry for a module and at most `c_maxModules` of them. -/
theorem run_fresh (data : Address → δ) (as : List (Action δ)) (s : System δ)
    (h : (System.start data).run as = some s) :
    (∀ r ∈ s.returned, ∀ i ∈ s.invalidations, i.Covers r.moduleAddress → i.time < r.lookedUpAt →
      ∀ reading ∈ r.names, i.time < reading.time) ∧
    (s.storage.m_modules.map (·.1)).Nodup ∧ s.storage.m_modules.length ≤ c_maxModules := by
  have hfresh := (fresh_start data).run h
  exact ⟨hfresh.returned, hfresh.storage.nodup, hfresh.storage.length_le⟩

/-- Queries of a module that is invalidated while two of them build its names: the last one finds
those of the third. -/
def overlapping : List (Action Nat) :=
  [.lookup 0 0x1000, .read 0, .lookup 1 0x1000, .change 0x1000 8, .invalidate 0x1000,
    .read 1, .store 1, .lookup 2 0x1000, .read 2, .store 2, .store 0, .lookup 3 0x1000]

theorem run_fresh_overlapping :
    ∃ s, (System.start fun _ => 7).run overlapping = some s ∧
      s.returned.map
      (fun r => (r.lookedUpAt, r.names.map fun reading => (reading.time, reading.value))) =
        [(11, [(8, 8)]), (0, [(1, 7)]), (7, [(8, 8)]), (2, [(5, 8)])] ∧
      (∀ r ∈ s.returned, ∀ i ∈ s.invalidations, i.Covers r.moduleAddress → i.time < r.lookedUpAt →
        ∀ reading ∈ r.names, i.time < reading.time) ∧
      (s.storage.m_modules.map (·.1)).Nodup ∧ s.storage.m_modules.length ≤ c_maxModules :=
  ⟨_, rfl, by decide, run_fresh _ overlapping _ rfl⟩

end

end Diana.Orthia.NamesCache
