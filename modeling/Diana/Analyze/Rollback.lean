import Diana.Analyze.References
import Diana.Analyze.Runs

/-!
# The states of an analysis

A turn of `Diana_AnalyzeCodeImpl` is a sequence of smaller steps: the next route is taken from the
stack, the instruction is constructed, its analysis saves routes and references one by one, the
route goes on, ends, or is rolled back. `Reached` are the states before and after each of them, in
any analysis of an image and in any sequence of analyses, with the offsets that were pushed on the
route stack so far.

* `Reached.iterate`: the states of the loop are reached;
* `Sound`: what holds in every state reached; `Sound.step`: each step keeps it;
* `xrefs_linked_once`: every reference is on one list of each kind, and no route is pushed twice;
* `rollback_replaces`: what a rollback does to the references from and to the route.
-/

namespace Diana.Analyze

open Diana.Lib

/-! ## Steps -/

/-- The parts of a turn. -/
inductive Step (cfg : Config) : Session → Session → Prop where
  /-- `SwitchToLastState`, or the current route goes on -/
  | next {s u : Session} (h : nextSession cfg s = some u) : Step cfg s u
  /-- a root route goes on behind what does not decode -/
  | skip {s : Session} (offset : Nat) (h : isStrictRoute cfg s = false) :
      Step cfg s { s with offset := offset }
  /-- the route is over -/
  | passOver {s : Session} (offset : Nat) :
      Step cfg s { s with offset := offset, needReset := true }
  /-- `RollbackCurrentRoute` -/
  | rollback {s : Session} (hn : s.needReset = false) (h : isStrictRoute cfg s = true) :
      Step cfg s { rollbackCurrentRoute s with needReset := true }
  /-- the first lines of `AnalyzeAndConstructInstruction` -/
  | construct {s t : Session} {w : WordFlags} (hn : s.needReset = false)
      (hslot : ∀ i, s.owner.presenceVec s.offset = some i →
        i.flags.invalid = false ∧ i.flags.isLoading = true)
      (h : constructInstruction s s.offset w = .ok t) : Step cfg s t
  /-- one operation of the analysis of the instruction -/
  | act {s t : Session} {x : Action} (hn : s.needReset = false)
      (hs : s.offset ∈ s.curRoute.instructions) (h : act cfg s.offset s x = .ok t) : Step cfg s t
  /-- the end of `AnalyzeAndConstructInstruction` -/
  | finish {s : Session} (hn : s.needReset = false) (hs : s.offset ∈ s.curRoute.instructions)
      (next : Nat) (reset : Bool) : Step cfg s { s with offset := next, needReset := reset }

/-- The start offsets of the routes a step pushed on the stack. -/
def pushed (s t : Session) : List Nat :=
  (t.stack.take (t.stack.length - s.stack.length)).map RouteInfo.startOffset

/-- The states of analyses on one owner, with the offsets pushed on the route stack so far. A next
analysis starts only at an offset that is not registered. -/
inductive Reached : Config → List Nat → Session → Prop where
  | start (cfg : Config) (n m entry : Nat) : Reached cfg [] (startSession (Owner.init n m) entry)
  | again {cfg : Config} {log : List Nat} {s : Session} (cfg' : Config) {entry : Nat}
      (h : Reached cfg log s) (hnew : s.owner.presenceVec entry = none) :
      Reached cfg' log (startSession s.owner entry)
  | step {cfg : Config} {log : List Nat} {s t : Session} (h : Reached cfg log s)
      (hst : Step cfg s t) : Reached cfg (pushed s t ++ log) t

section Turns

variable {cfg : Config} {env : Env} {log : List Nat} {s t u : Session}

/-- What the operations of an analysis do not change of a session. -/
theorem act_fixed {source : Nat} {x : Action} (h : act cfg source s x = .ok t) :
    t.curRoute = s.curRoute ∧ t.offset = s.offset ∧ t.needReset = s.needReset := by
  cases x with
  | note n =>
    cases h
    exact ⟨rfl, rfl, rfl⟩
  | saveNewRoute a b c d =>
    obtain rfl | rfl | ⟨i, -, rfl⟩ | ⟨-, -, rfl⟩ := saveNewRoute_cases h <;> exact ⟨rfl, rfl, rfl⟩
  | saveDataXRef a b =>
    cases h
    exact ⟨rfl, rfl, rfl⟩
  | saveNewExternalRoute a b c =>
    cases h
    exact ⟨rfl, rfl, rfl⟩
  | dropPending a =>
    simp only [act] at h
    split at h <;> cases h <;> exact ⟨rfl, rfl, rfl⟩
  | markData a b c =>
    simp only [act] at h
    split at h
    · obtain ⟨o, hq, hrest⟩ := bind_eq_ok.mp h
      cases hrest
      exact ⟨rfl, rfl, rfl⟩
    · cases h
      exact ⟨rfl, rfl, rfl⟩

theorem Reached.acts {l : List Action} (h : Reached cfg log s) (hn : s.needReset = false)
    (hs : s.offset ∈ s.curRoute.instructions) (ht : l.foldlM (Analyze.act cfg s.offset) s = .ok t) :
    (∃ log', Reached cfg log' t) ∧ t.needReset = false ∧ t.offset = s.offset ∧
      t.offset ∈ t.curRoute.instructions := by
  induction l generalizing s log with
  | nil =>
    cases ht
    exact ⟨⟨log, h⟩, hn, rfl, hs⟩
  | cons x l ih =>
    rw [List.foldlM_cons] at ht
    obtain ⟨v, hv, hrest⟩ := bind_eq_ok.mp ht
    obtain ⟨hcur, hoff, hreset⟩ := act_fixed hv
    rw [← hoff] at hrest
    obtain ⟨hr, hn', hoff', hs'⟩ := ih (h.step (.act hn hs hv)) (hreset.trans hn)
      (by rw [hcur, hoff]; exact hs) hrest
    exact ⟨hr, hn', hoff'.trans hoff, hs'⟩

theorem Reached.analyzeInstruction {a : Answers} {next : Nat} (h : Reached cfg log u)
    (hn : u.needReset = false)
    (hslot : ∀ i, u.owner.presenceVec u.offset = some i →
      i.flags.invalid = false ∧ i.flags.isLoading = true)
    (ht : Analyze.analyzeInstruction cfg a u next = .inl t) : ∃ log', Reached cfg log' t := by
  unfold Analyze.analyzeInstruction at ht
  split at ht
  · cases ht
  · next v hv =>
    cases ht
    obtain ⟨c, hc, h1⟩ := bind_eq_ok.mp hv
    obtain ⟨d, hf, h2⟩ := bind_eq_ok.mp h1
    obtain ⟨reset, -, h3⟩ := bind_eq_ok.mp h2
    cases h3
    have hcon : c.offset = u.offset ∧ c.needReset = u.needReset ∧
        c.curRoute.instructions = u.curRoute.instructions ++ [u.offset] := by
      obtain ⟨o, -, hrest⟩ := bind_eq_ok.mp hc
      cases hrest
      exact ⟨rfl, rfl, rfl⟩
    have hcr := h.step (.construct hn hslot hc)
    rw [← hcon.1] at hf
    obtain ⟨⟨log', hd⟩, hdn, -, hds⟩ := hcr.acts (hcon.2.1.trans hn)
        (by rw [hcon.2.2, hcon.1]; simp) hf
    have hfin := hd.step (.finish hdn hds next reset)
    unfold endTurn
    split
    · split
      case isTrue harm => exact ⟨_, hfin.step (.rollback harm.2.1 harm.2.2)⟩
      case isFalse => exact ⟨_, hfin.step (.passOver next)⟩
    · exact ⟨_, hfin⟩

theorem Reached.analyzeOffset (h : Reached cfg log u) (hn : u.needReset = false)
    (ht : Analyze.analyzeOffset cfg env u = .inl t) : ∃ log', Reached cfg log' t := by
  unfold Analyze.analyzeOffset at ht
  simp only at ht
  split at ht
  case isTrue =>
    split at ht
    case isTrue hstrict =>
      cases ht
      exact ⟨_, h.step (.rollback hn hstrict)⟩
    case isFalse =>
      cases ht
      exact ⟨_, h.step (.passOver u.offset)⟩
  case isFalse =>
    split at ht
    case h_1 =>
      split at ht
      case isTrue hstrict =>
        cases ht
        exact ⟨_, h.step (.rollback hn hstrict)⟩
      case isFalse hstrict =>
        split at ht
        · cases ht
        · cases ht
          exact ⟨_, h.step (.skip _ (Bool.eq_false_iff.2 hstrict))⟩
    case h_2 size hsize =>
      split at ht
      case h_1 i hi =>
        have hi' : u.owner.presenceVec u.offset = some i := hi
        split at ht
        case isTrue =>
          split at ht
          case isTrue hq =>
            cases ht
            have hroll := h.step (.rollback hn (by rw [isStrictRoute, hq]; rfl))
            exact ⟨_, hroll.step (.passOver (wrap (u.offset + size)))⟩
          case isFalse =>
            cases ht
            exact ⟨_, h.step (.passOver _)⟩
        case isFalse hv =>
          split at ht
          case isTrue =>
            cases ht
            exact ⟨_, h.step (.passOver _)⟩
          case isFalse hl =>
            refine h.analyzeInstruction hn (fun j hj => ?_) ht
            rw [hi'] at hj
            cases hj
            exact ⟨Bool.eq_false_iff.2 hv, by simpa using hl⟩
      case h_2 hi =>
        refine h.analyzeInstruction hn (fun j hj => ?_) ht
        rw [show u.owner.presenceVec u.offset = none from hi] at hj
        cases hj

/-- A turn of the loop is made of steps. -/
theorem Reached.iterate (h : Reached cfg log s) (ht : Analyze.iterate cfg env s = .inl t) :
    ∃ log', Reached cfg log' t := by
  obtain ⟨u, hu, hut⟩ := iterate_inl ht
  refine (h.step (.next hu)).analyzeOffset ?_ hut
  unfold nextSession at hu
  split at hu
  · split at hu <;> cases hu
    rfl
  · cases hu
    rfl

/-- The states of an analysis on an owner that analyses left. -/
theorem Reached.analyzeCodeImpl {cfg' : Config} {env : Nat → Env} {entry n : Nat}
    (h : Reached cfg log s) (hnew : s.owner.presenceVec entry = none)
    (ht : Analyze.analyzeCodeImpl cfg' env s.owner entry n = .inl t) :
    ∃ log', Reached cfg' log' t :=
  runFrom_inv (P := fun t => ∃ log', Reached cfg' log' t)
    (fun _ _ _ hs hstep => hs.elim fun _ hs => hs.iterate hstep) ⟨log, h.again cfg' hnew⟩ ht

end Turns

/-! ## What an operation adds -/

/-- Registered instructions stay. No operation of an analysis changes whether one is loading, and
none makes an invalid one valid or a constructed one invalid. -/
def Persists (o o' : Owner) : Prop :=
  ∀ a i, o.presenceVec a = some i → ∃ j, o'.presenceVec a = some j ∧
    j.flags.isLoading = i.flags.isLoading ∧ (i.flags.invalid = true → j.flags.invalid = true) ∧
      (i.flags.isLoading = false → j.flags.invalid = i.flags.invalid)

namespace Persists

variable {o o' o'' : Owner}

theorem refl (o : Owner) : Persists o o := fun _ i hi => ⟨i, hi, rfl, id, fun _ => rfl⟩

theorem trans (h : Persists o o') (h' : Persists o' o'') : Persists o o'' := by
  intro a i hi
  obtain ⟨j, hj, hlj, hvj, hsj⟩ := h a i hi
  obtain ⟨k, hk, hlk, hvk, hsk⟩ := h' a j hj
  exact ⟨k, hk, hlk.trans hlj, fun hv => hvk (hvj hv),
    fun hl => (hsk (hlj.trans hl)).trans (hsj hl)⟩

theorem of_presenceVec (h : o'.presenceVec = o.presenceVec) : Persists o o' :=
  fun _ i hi => ⟨i, by rw [h, hi], rfl, id, fun _ => rfl⟩

theorem modify {b : Nat} {f : InstrFlags → InstrFlags}
    (hf : ∀ g, (f g).isLoading = g.isLoading ∧ (g.invalid = true → (f g).invalid = true) ∧
      (g.isLoading = false → (f g).invalid = g.invalid)) : Persists o (o.modify b f) := by
  intro a i hi
  by_cases hab : a = b
  · subst hab
    exact ⟨_, by rw [Owner.modify_same, hi]; rfl, hf _⟩
  · exact ⟨i, by rw [Owner.modify_other hab, hi], rfl, id, fun _ => rfl⟩

theorem allocate {b : Nat} {f : InstrFlags} (hnone : o.presenceVec b = none) :
    Persists o (o.allocateInstruction b f) := by
  intro a i hi
  have hne : a ≠ b := by
    rintro rfl
    rw [hnone] at hi
    cases hi
  exact ⟨i, by simpa [hne] using hi, rfl, id, fun _ => rfl⟩

theorem refer {source a : Nat} {questionable addressTaken : Bool} :
    Persists o (o.refer source a questionable addressTaken) := by
  have hroot : Persists o (if questionable = true then o
      else o.modify a fun f => { f with root := true }) := by
    split
    · exact refl o
    · exact modify fun _ => ⟨rfl, id, fun _ => rfl⟩
  exact hroot.trans (of_presenceVec rfl)

theorem isSome (h : Persists o o') {a : Nat} (ha : (o.presenceVec a).isSome = true) :
    (o'.presenceVec a).isSome = true := by
  obtain ⟨i, hi⟩ := Option.isSome_iff_exists.1 ha
  obtain ⟨j, hj, -⟩ := h a i hi
  rw [hj]
  rfl

/-- What is registered and not valid stays so. -/
theorem isValid (h : Persists o o') {a : Nat} (ha : (o.presenceVec a).isSome = true)
    (hv : o.isValid a = false) : o'.isValid a = false := by
  obtain ⟨i, hi⟩ := Option.isSome_iff_exists.1 ha
  obtain ⟨j, hj, -, hij, -⟩ := h a i hi
  have hinv : i.flags.invalid = true := by simpa [Owner.isValid_of hi] using hv
  rw [Owner.isValid_of hj, hij hinv]
  rfl

theorem live (h : Persists o o') {l : List Nat} (hl : Live o l) : Live o' l := by
  intro a ha
  obtain ⟨i, hi, hli, hvi⟩ := hl a ha
  obtain ⟨j, hj, hlj, -, hvj⟩ := h a i hi
  exact ⟨j, hj, hlj.trans hli, (hvj hli).trans hvi⟩

end Persists

/-- The references that were added are not marked, as far as they stay in the image. -/
def AddsValid (o o' : Owner) : Prop :=
  ∃ new, o'.xrefs = o.xrefs ++ new ∧ ∀ x ∈ new, ∀ a, x.target = .inside a → x.flags.invalid = false

theorem AddsValid.of_eq {o o' : Owner} (h : o'.xrefs = o.xrefs) : AddsValid o o' :=
  ⟨[], by rw [h, List.append_nil], fun _ hx => absurd hx List.not_mem_nil⟩

theorem addsValid_createExternal (o : Owner) (source : Nat) (i : Instruction) (flags : XRefFlags) :
    AddsValid o (o.createExternal source i flags) := by
  refine ⟨[⟨source, .outside o.externals.length, flags⟩], rfl, fun x hx a ha => ?_⟩
  rw [List.mem_singleton.1 hx] at ha
  cases ha

theorem addsValid_refer (o : Owner) (source a : Nat) (questionable addressTaken : Bool) :
    AddsValid o (o.refer source a questionable addressTaken) := by
  refine ⟨[⟨source, .inside a, { addressTaken := addressTaken }⟩], ?_, fun x hx b _ => ?_⟩
  · cases questionable <;> rfl
  · rw [List.mem_singleton.1 hx]

/-- What an operation of the analysis of the instruction at `source` does. -/
structure Acted (source : Nat) (s t : Session) : Prop where
  slots : Persists s.owner t.owner
  stack : t.stack = s.stack ∨ ∃ r, t.stack = r :: s.stack ∧ r.instructions = [] ∧
    s.owner.presenceVec r.startOffset = none ∧ (t.owner.presenceVec r.startOffset).isSome = true
  xrefs : AddsValid s.owner t.owner
  linked : Linked s.owner → (s.owner.presenceVec source).isSome = true → Linked t.owner

section Operations

variable {cfg : Config} {source : Nat} {s t : Session}

theorem Acted.of_owner {o : Owner} (hp : Persists s.owner o) (hx : AddsValid s.owner o)
    (hl : Linked s.owner → (s.owner.presenceVec source).isSome = true → Linked o) :
    Acted source s { s with owner := o } := ⟨hp, .inl rfl, hx, hl⟩

theorem Acted.refl (source : Nat) (s : Session) : Acted source s s :=
  Acted.of_owner (Persists.refl _) (.of_eq rfl) fun h _ => h

theorem Acted.modify (source : Nat) (s : Session) {a : Nat} {f : InstrFlags → InstrFlags}
    (hf : ∀ g, (f g).isLoading = g.isLoading ∧ (g.invalid = true → (f g).invalid = true) ∧
      (g.isLoading = false → (f g).invalid = g.invalid)) :
    Acted source s { s with owner := s.owner.modify a f } :=
  Acted.of_owner (Persists.modify hf) (.of_eq rfl) fun h _ => h.modify a f

theorem Acted.createExternal (s : Session) (i : Instruction) (flags : XRefFlags) :
    Acted source s { s with owner := s.owner.createExternal source i flags } :=
  Acted.of_owner (Persists.of_presenceVec rfl) (addsValid_createExternal ..)
    fun h hs => h.createExternal i flags hs

theorem Linked.refer {o : Owner} (h : Linked o) {source a : Nat} (questionable addressTaken : Bool)
    (hs : (o.presenceVec source).isSome = true) (ha : (o.presenceVec a).isSome = true) :
    Linked (o.refer source a questionable addressTaken) := by
  have hroot : ∀ b, (o.presenceVec b).isSome = true →
      ((if questionable = true then o
        else o.modify a fun f => { f with root := true }).presenceVec b).isSome = true := by
    intro b hb
    split
    · exact hb
    · rw [modify_isSome]
      exact hb
  refine Linked.createXRef ?_ (hroot _ hs) (fun b hb => ?_) fun k hk => ?_
  · split
    · exact h
    · exact h.modify _ _
  · cases hb
    exact ⟨hroot _ ha, rfl⟩
  · cases hk

theorem acted_saveNewRoute {a : Nat} {aligned questionable addressTaken : Bool}
    (h : saveNewRoute cfg s source a aligned questionable addressTaken = .ok t) :
    Acted source s t := by
  obtain rfl | rfl | ⟨i, hi, rfl⟩ | ⟨-, hnone, rfl⟩ := saveNewRoute_cases h
  · exact Acted.refl source t
  · exact Acted.createExternal s _ _
  · refine Acted.of_owner Persists.refer (addsValid_refer ..) fun hl hs => hl.refer _ _ hs ?_
    rw [hi]
    rfl
  · have hnew : ((s.owner.allocateInstruction a { isLoading := true }).presenceVec a).isSome =
        true := by
      simp
    refine ⟨(Persists.allocate hnone).trans Persists.refer, .inr ⟨_, rfl, rfl, hnone, ?_⟩,
      addsValid_refer (s.owner.allocateInstruction a { isLoading := true }) .., fun hl hs => ?_⟩
    · exact Persists.refer.isSome hnew
    · exact (hl.allocate hnone _).refer _ _ ((Persists.allocate hnone).isSome hs) hnew

/-- Each operation of the analysis of an instruction. -/
theorem acted_act {x : Action} (h : act cfg source s x = .ok t) : Acted source s t := by
  cases x with
  | note n =>
    cases h
    refine Acted.modify source s fun g => ?_
    cases n <;> exact ⟨rfl, id, fun _ => rfl⟩
  | saveNewRoute a b c d => exact acted_saveNewRoute h
  | saveDataXRef a b =>
    cases h
    exact Acted.createExternal s _ _
  | saveNewExternalRoute a b c =>
    cases h
    unfold Owner.saveNewExternalRoute
    split
    · exact Acted.refl source s
    · split
      · exact Acted.refl source s
      · exact Acted.createExternal s _ _
  | dropPending a =>
    simp only [act] at h
    split at h
    · cases h
      refine Acted.modify source s fun g => ?_
      split
      case isTrue hg =>
        refine ⟨rfl, fun _ => rfl, fun hl => ?_⟩
        rw [hl] at hg
        cases hg
      case isFalse => exact ⟨rfl, id, fun _ => rfl⟩
    · cases h
      exact Acted.refl source s
  | markData a b c =>
    simp only [act] at h
    split at h
    · next hcond =>
      have hnone : s.owner.presenceVec a = none := Option.isNone_iff_eq_none.1 hcond.2
      obtain ⟨o, hq, hrest⟩ := bind_eq_ok.mp h
      rcases Owner.queryOrAllocate_cases hq with ⟨i, hi, -⟩ | ⟨-, rfl⟩
      · rw [hnone] at hi
        cases hi
      · cases hrest
        refine Acted.of_owner ((Persists.allocate hnone).trans (.of_presenceVec rfl)) (.of_eq rfl)
          fun hl _ => ?_
        exact (hl.allocate hnone _).congr rfl rfl rfl rfl fun _ hb => hb
    · cases h
      exact Acted.refl source s

end Operations

/-! ## What holds in every state -/

/-- The routes that are pending or under way. -/
def activeStarts (s : Session) : List Nat :=
  (if s.needReset then s.stack else s.curRoute :: s.stack).map RouteInfo.startOffset

/-- The instruction is invalid and no rollback is to come for it. -/
def Gone (s : Session) (a : Nat) : Prop :=
  ∃ i, s.owner.presenceVec a = some i ∧ i.flags.invalid = true ∧
    (i.flags.isLoading = true → a ∉ activeStarts s)

/-- A route is rolled back at its first offset or has registered it, and it is not pending again. -/
def StartOk (s : Session) : Prop :=
  Fresh s ∨ (s.owner.presenceVec s.curRoute.startOffset).isSome = true ∧
    s.curRoute.startOffset ∉ s.stack.map RouteInfo.startOffset

/-- What holds in every state of analyses that pushed `log` on the route stack. -/
structure Sound (cfg : Config) (log : List Nat) (s : Session) : Prop where
  linked : Linked s.owner
  /-- a marked reference goes from or to what is invalid for good -/
  marked : ∀ x ∈ s.owner.xrefs, ∀ a, x.target = .inside a → x.flags.invalid = true →
    s.owner.isValid x.source = false ∨ Gone s a
  nodup : s.needReset = false → s.curRoute.instructions.Nodup
  live : s.needReset = false → Live s.owner s.curRoute.instructions
  stackNodup : (s.stack.map RouteInfo.startOffset).Nodup
  stack : ∀ r ∈ s.stack, (s.owner.presenceVec r.startOffset).isSome = true ∧ r.instructions = []
  start : s.needReset = false → isStrictRoute cfg s = true → StartOk s
  logNodup : log.Nodup
  logged : ∀ a ∈ log, (s.owner.presenceVec a).isSome = true

section Steps

variable {cfg : Config} {log : List Nat} {s t u : Session}

theorem sound_start (cfg : Config) (n m entry : Nat) :
    Sound cfg [] (startSession (Owner.init n m) entry) where
  linked := Linked.init n m
  marked _ hx := absurd hx List.not_mem_nil
  nodup _ := List.nodup_nil
  live _ _ ha := absurd ha List.not_mem_nil
  stackNodup := List.nodup_nil
  stack _ hr := absurd hr List.not_mem_nil
  start _ _ := .inl ⟨rfl, rfl, rfl, rfl⟩
  logNodup := List.nodup_nil
  logged _ ha := absurd ha List.not_mem_nil

/-- What is gone stays so while its slot does and no route to it is taken up. -/
theorem Gone.persists {a : Nat} (h : Gone s a) (hp : Persists s.owner t.owner)
    (ha : a ∈ activeStarts t → a ∈ activeStarts s) : Gone t a := by
  obtain ⟨i, hi, hv, hl⟩ := h
  obtain ⟨j, hj, hlj, hvj, -⟩ := hp a i hi
  exact ⟨j, hj, hvj hv, fun hl' hm => hl (hlj ▸ hl') (ha hm)⟩

theorem Sound.again (h : Sound cfg log s) (cfg' : Config) {entry : Nat}
    (hnew : s.owner.presenceVec entry = none) : Sound cfg' log (startSession s.owner entry) where
  linked := h.linked
  marked x hx a ha hv := by
    rcases h.marked x hx a ha hv with hs | ⟨i, hi, hvi, -⟩
    · exact .inl hs
    · refine .inr ⟨i, hi, hvi, fun _ hm => ?_⟩
      rw [List.mem_singleton.1 hm] at hi
      rw [show s.owner.presenceVec entry = some i from hi] at hnew
      cases hnew
  nodup _ := List.nodup_nil
  live _ _ ha := absurd ha List.not_mem_nil
  stackNodup := List.nodup_nil
  stack _ hr := absurd hr List.not_mem_nil
  start _ _ := .inl ⟨rfl, rfl, rfl, hnew⟩
  logNodup := h.logNodup
  logged := h.logged

/-- The current route goes on elsewhere, or is over. -/
theorem Sound.move (h : Sound cfg log s) {offset : Nat} {reset : Bool}
    (hr : s.needReset = true → reset = true)
    (hstart : reset = false → isStrictRoute cfg s = true → s.curRoute.instructions ≠ []) :
    Sound cfg log { s with offset := offset, needReset := reset } := by
  have hn : reset = false → s.needReset = false := by
    intro hf
    cases hs : s.needReset with
    | false => rfl
    | true =>
      rw [hr hs] at hf
      cases hf
  refine ⟨h.linked, fun x hx a ha hv => ?_, fun hf => h.nodup (hn hf), fun hf => h.live (hn hf),
    h.stackNodup, h.stack, fun hf hstrict => ?_, h.logNodup, h.logged⟩
  · refine (h.marked x hx a ha hv).imp_right fun hg => hg.persists (Persists.refl _) fun hm => ?_
    cases reset with
    | true =>
      unfold activeStarts at hm ⊢
      split
      · exact hm
      · exact List.mem_cons_of_mem _ hm
    | false =>
      unfold activeStarts
      rw [hn rfl]
      exact hm
  · rcases h.start (hn hf) hstrict with hfr | hs
    · exact absurd hfr.instructions (hstart hf hstrict)
    · exact .inr hs

/-- The next route is taken from the stack. -/
theorem Sound.next (h : Sound cfg log s) (hu : nextSession cfg s = some u) : Sound cfg log u := by
  unfold nextSession at hu
  split at hu
  · cases hstack : s.stack with
    | nil =>
      rw [hstack] at hu
      cases hu
    | cons route rest =>
      rw [hstack] at hu
      cases hu
      have hnodup := h.stackNodup
      rw [hstack, List.map_cons, List.nodup_cons] at hnodup
      have hmem : ∀ r ∈ rest, r ∈ s.stack := fun r hr => hstack ▸ List.mem_cons_of_mem _ hr
      obtain ⟨hsome, hnil⟩ := h.stack route (hstack ▸ List.mem_cons_self)
      refine ⟨h.linked, fun x hx a ha hv => ?_, fun _ => hnil ▸ List.nodup_nil, fun _ a ha => ?_,
        hnodup.2, fun r hr => h.stack r (hmem r hr), fun _ _ => .inr ⟨hsome, hnodup.1⟩, h.logNodup,
        h.logged⟩
      · refine (h.marked x hx a ha hv).imp_right fun hg =>
          hg.persists (Persists.refl _) fun hm => ?_
        unfold activeStarts
        split
        · rw [hstack]
          exact hm
        · rw [hstack]
          exact List.mem_cons_of_mem _ hm
      · rw [hnil] at ha
        exact absurd ha List.not_mem_nil
  · next hgo =>
    obtain ⟨-, hreset⟩ := not_or.mp hgo
    cases hu
    have hf : s.needReset = false := Bool.eq_false_iff.2 hreset
    rw [show { s with needReset := false } = s by rw [← hf]]
    exact h

/-- An operation of the analysis of an instruction. -/
theorem Sound.act {x : Action} (h : Sound cfg log s) (hn : s.needReset = false)
    (hs : s.offset ∈ s.curRoute.instructions) (ht : Analyze.act cfg s.offset s x = .ok t) :
    Sound cfg (pushed s t ++ log) t := by
  obtain ⟨hcur, -, hreset⟩ := act_fixed ht
  have hact := acted_act ht
  have hnt : t.needReset = false := hreset.trans hn
  have hsource : (s.owner.presenceVec s.offset).isSome = true := by
    obtain ⟨i, hi, -⟩ := h.live hn _ hs
    rw [hi]
    rfl
  have hstrict : isStrictRoute cfg t = isStrictRoute cfg s := by
    unfold isStrictRoute
    rw [hcur]
  obtain ⟨new, hx, hvalid⟩ := hact.xrefs
  have hlogged : ∀ a ∈ log, (t.owner.presenceVec a).isSome = true :=
    fun a ha => hact.slots.isSome (h.logged a ha)
  have hmarked (hactive : ∀ a i, s.owner.presenceVec a = some i → a ∈ activeStarts t →
    a ∈ activeStarts s) :
      ∀ x ∈ t.owner.xrefs, ∀ a, x.target = .inside a → x.flags.invalid = true →
        t.owner.isValid x.source = false ∨ Gone t a := by
    intro y hy a ha hv
    rw [hx] at hy
    rcases List.mem_append.1 hy with hy | hy
    · rcases h.marked y hy a ha hv with hinv | ⟨i, hi, hrest⟩
      · exact .inl (hact.slots.isValid (h.linked.source y hy) hinv)
      · exact .inr (Gone.persists ⟨i, hi, hrest⟩ hact.slots (hactive a i hi))
    · rw [hvalid y hy a ha] at hv
      cases hv
  have hnodup : t.curRoute.instructions.Nodup := hcur ▸ h.nodup hn
  have hlive : Live t.owner t.curRoute.instructions := hact.slots.live (hcur ▸ h.live hn)
  rcases hact.stack with hst | ⟨r, hst, hnil, hnone, hsome⟩
  · have hpushed : pushed s t = [] := by simp [pushed, hst]
    rw [hpushed]
    refine ⟨hact.linked h.linked hsource, hmarked fun a i _ hm => ?_, fun _ => hnodup,
      fun _ => hlive, hst ▸ h.stackNodup, fun r hr => ?_, fun _ hstr => ?_, h.logNodup, hlogged⟩
    · unfold activeStarts at hm ⊢
      rwa [hst, hcur, hreset] at hm
    · rw [hst] at hr
      exact ⟨hact.slots.isSome (h.stack r hr).1, (h.stack r hr).2⟩
    · rcases h.start hn (hstrict ▸ hstr) with hf | hs'
      · rw [hf.instructions] at hs
        exact absurd hs List.not_mem_nil
      · refine .inr ?_
        rw [hcur, hst]
        exact ⟨hact.slots.isSome hs'.1, hs'.2⟩
  · -- a new route: its first instruction was not registered
    have hpushed : pushed s t = [r.startOffset] := by simp [pushed, hst]
    have hnew : ∀ a, (s.owner.presenceVec a).isSome = true → a ≠ r.startOffset := by
      rintro a ha rfl
      rw [hnone] at ha
      cases ha
    rw [hpushed]
    refine ⟨hact.linked h.linked hsource, hmarked fun a i hi hm => ?_, fun _ => hnodup,
      fun _ => hlive, ?_, fun q hq => ?_, fun _ hstr => ?_, ?_, fun a ha => ?_⟩
    · have hne : a ≠ r.startOffset := hnew a (by rw [hi]; rfl)
      unfold activeStarts at hm ⊢
      rw [hnt, hst, hcur] at hm
      rw [hn]
      simpa [hne] using hm
    · rw [hst, List.map_cons, List.nodup_cons]
      refine ⟨fun hm => ?_, h.stackNodup⟩
      obtain ⟨q, hq, he⟩ := List.mem_map.1 hm
      exact hnew _ (h.stack q hq).1 he
    · rw [hst] at hq
      rcases List.mem_cons.1 hq with rfl | hq
      · exact ⟨hsome, hnil⟩
      · exact ⟨hact.slots.isSome (h.stack q hq).1, (h.stack q hq).2⟩
    · rcases h.start hn (hstrict ▸ hstr) with hf | hs'
      · rw [hf.instructions] at hs
        exact absurd hs List.not_mem_nil
      · refine .inr ?_
        rw [hcur, hst]
        refine ⟨hact.slots.isSome hs'.1, fun hm => ?_⟩
        rcases List.mem_cons.1 hm with he | hm
        · exact hnew _ hs'.1 he
        · exact hs'.2 hm
    · exact List.nodup_cons.2 ⟨fun hm => hnew _ (h.logged _ hm) rfl, h.logNodup⟩
    · rcases List.mem_cons.1 ha with rfl | ha
      · exact hsome
      · exact hlogged a ha

/-- The first lines of the analysis of an instruction. -/
theorem Sound.construct {w : WordFlags} (h : Sound cfg log s) (hn : s.needReset = false)
    (hslot : ∀ i, s.owner.presenceVec s.offset = some i →
      i.flags.invalid = false ∧ i.flags.isLoading = true)
    (ht : constructInstruction s s.offset w = .ok t) : Sound cfg log t := by
  obtain ⟨⟨j, hj, hlj, hvj⟩, hother, hstack, hins⟩ := constructInstruction_exact ht
  obtain ⟨hlinked, hx, hcur, hquest, hreset⟩ : Linked t.owner ∧ t.owner.xrefs = s.owner.xrefs ∧
      t.curRoute.startOffset = s.curRoute.startOffset ∧
      isStrictRoute cfg t = isStrictRoute cfg s ∧ t.needReset = s.needReset := by
    obtain ⟨o, hq, hrest⟩ := bind_eq_ok.mp ht
    cases hrest
    refine ⟨?_, ?_, rfl, rfl, rfl⟩
    · dsimp only
      exact (h.linked.queryOrAllocate hq).modify _ _
    · rcases Owner.queryOrAllocate_cases hq with ⟨i, -, rfl⟩ | ⟨-, rfl⟩ <;> rfl
  have hsome : ∀ a, (s.owner.presenceVec a).isSome = true →
      (t.owner.presenceVec a).isSome = true := by
    intro a ha
    by_cases hao : a = s.offset
    · rw [hao, hj]
      rfl
    · rwa [hother a hao]
  -- what is invalid is not at the offset of the turn
  have hinv : ∀ a i, s.owner.presenceVec a = some i → i.flags.invalid = true → a ≠ s.offset := by
    rintro a i hi hv rfl
    rw [(hslot i hi).1] at hv
    cases hv
  have hold : ∀ b ∈ s.curRoute.instructions, b ≠ s.offset := by
    rintro b hb rfl
    obtain ⟨i, hi, hl, -⟩ := h.live hn _ hb
    rw [(hslot i hi).2] at hl
    cases hl
  refine ⟨hlinked, fun x hx' a ha hv => ?_, fun _ => ?_, fun _ b hb => ?_, hstack ▸ h.stackNodup,
    fun r hr => ?_, fun _ hstr => ?_, h.logNodup, fun a ha => hsome a (h.logged a ha)⟩
  · rw [hx] at hx'
    rcases h.marked x hx' a ha hv with hs | ⟨i, hi, hvi, hl⟩
    · obtain ⟨i, hi⟩ := Option.isSome_iff_exists.1 (h.linked.source x hx')
      have hvi : i.flags.invalid = true := by simpa [Owner.isValid_of hi] using hs
      have hi' : t.owner.presenceVec x.source = some i := by rw [hother _ (hinv _ i hi hvi), hi]
      left
      rw [Owner.isValid_of hi', hvi]
      rfl
    · refine .inr ⟨i, by rw [hother a (hinv a i hi hvi), hi], hvi, fun hli hm => hl hli ?_⟩
      unfold activeStarts at hm ⊢
      rw [hreset, hn] at hm
      rw [hn]
      simpa [hstack, hcur] using hm
  · rw [hins]
    exact List.nodup_append.2 ⟨h.nodup hn, List.nodup_singleton _, fun b hb c hc =>
      List.mem_singleton.1 hc ▸ hold b hb⟩
  · rw [hins] at hb
    rcases List.mem_append.1 hb with hb | hb
    · rw [hother b (hold b hb)]
      exact h.live hn b hb
    · rw [List.mem_singleton.1 hb]
      exact ⟨j, hj, hlj, hvj⟩
  · rw [hstack] at hr
    exact ⟨hsome _ (h.stack r hr).1, (h.stack r hr).2⟩
  · right
    rw [hcur, hstack]
    rcases h.start hn (hquest ▸ hstr) with hf | hs
    · rw [← hf.offset, hj, hf.stack]
      exact ⟨rfl, List.not_mem_nil⟩
    · exact ⟨hsome _ hs.1, hs.2⟩

/-! ## Rollbacks -/

/-- The offsets of a rollback: constructed and valid, or the first one of the route that is still
loading. -/
theorem mem_rollbackOffsets (h : Sound cfg log s) (hn : s.needReset = false) {a : Nat}
    (ha : a ∈ rollbackOffsets s) : ∃ i, s.owner.presenceVec a = some i ∧
      (i.flags.isLoading = false ∧ i.flags.invalid = false ∨
        i.flags.isLoading = true ∧ a = s.curRoute.startOffset) := by
  unfold rollbackOffsets at ha
  rcases List.mem_append.1 ha with ha | ha
  · obtain ⟨i, hi, hl, hv⟩ := h.live hn a ha
    exact ⟨i, hi, .inl ⟨hl, hv⟩⟩
  · split at ha
    case isTrue hany =>
      obtain ⟨i, hi, hl⟩ := (Option.any_eq_true _ _).1 hany
      rw [List.mem_singleton.1 ha]
      exact ⟨i, hi, .inr ⟨hl, rfl⟩⟩
    case isFalse => exact absurd ha List.not_mem_nil

theorem Sound.rollbackOffsets_nodup (h : Sound cfg log s) (hn : s.needReset = false) :
    (rollbackOffsets s).Nodup := by
  unfold rollbackOffsets
  refine List.nodup_append.2 ⟨h.nodup hn, ?_, fun a ha b hb => ?_⟩
  · split
    · exact List.nodup_singleton _
    · exact List.nodup_nil
  · split at hb
    case isTrue hany =>
      obtain ⟨i, hi, hl⟩ := (Option.any_eq_true _ _).1 hany
      rintro rfl
      obtain ⟨j, hj, hlj, -⟩ := h.live hn a ha
      rw [List.mem_singleton.1 hb,
        show s.owner.presenceVec s.curRoute.startOffset = some i from hi] at hj
      cases hj
      rw [hlj] at hl
      cases hl
    case isFalse => exact absurd hb List.not_mem_nil

/-- A rollback leaves no slot valid that was not, and none of the route. -/
theorem rollback_persists (s : Session) :
    (∀ a i, s.owner.presenceVec a = some i → ∃ j,
      (rollbackCurrentRoute s).owner.presenceVec a = some j ∧
      j.flags.isLoading = i.flags.isLoading ∧ (i.flags.invalid = true → j.flags.invalid = true) ∧
        (a ∈ rollbackOffsets s → j.flags.invalid = true)) := by
  intro a i hi
  have hp := rollback_presenceVec s a
  rw [hi] at hp
  by_cases ha : a ∈ rollbackOffsets s
  · rw [if_pos ha] at hp
    exact ⟨_, hp, rfl, fun _ => rfl, fun _ => rfl⟩
  · rw [if_neg ha] at hp
    exact ⟨i, hp, rfl, id, fun hm => absurd hm ha⟩

theorem Sound.rollback (h : Sound cfg log s) (hn : s.needReset = false)
    (hstrict : isStrictRoute cfg s = true) :
    Sound cfg log { rollbackCurrentRoute s with needReset := true } := by
  obtain ⟨hl, kept, new, hx, hrep, -⟩ := rollback_kept h.linked (h.rollbackOffsets_nodup hn)
  refine ⟨hl, fun y hy a ha hv => ?_, fun hf => Bool.noConfusion hf, fun hf => Bool.noConfusion hf,
    h.stackNodup, fun r hr => ⟨rollback_isSome (h.stack r hr).1, (h.stack r hr).2⟩,
    fun hf => Bool.noConfusion hf, h.logNodup, fun a ha => rollback_isSome (h.logged a ha)⟩
  have hgone : ∀ i, s.owner.presenceVec a = some i →
      i.flags.invalid = true ∨ a ∈ rollbackOffsets s →
      (i.flags.isLoading = true → a ∉ s.stack.map RouteInfo.startOffset) →
      Gone { rollbackCurrentRoute s with needReset := true } a := by
    intro i hi hor hld
    obtain ⟨j, hj, hlj, hvj, hmj⟩ := rollback_persists s a i hi
    exact ⟨j, hj, hor.elim hvj hmj, fun hl' => hld (hlj ▸ hl')⟩
  rw [hx] at hy
  rcases List.mem_append.1 hy with hy | hy
  · obtain ⟨x, hxm, rfl⟩ := List.mem_map.1 hy
    rw [markedBy_target] at ha
    rw [markedBy_source]
    obtain ⟨i, hi⟩ := Option.isSome_iff_exists.1 (h.linked.source x hxm)
    obtain ⟨j, hj, -, hvj, hmj⟩ := rollback_persists s _ i hi
    by_cases htouch : x.touches (rollbackOffsets s) = true
    · rcases Bool.or_eq_true_iff.1 htouch with hs | ht
      · left
        rw [Owner.isValid_of hj, hmj (by simpa using hs)]
        rfl
      · obtain ⟨b, hb, hxb⟩ := List.any_eq_true.1 ht
        obtain rfl : b = a := by
          have := (of_decide_eq_true hxb).symm.trans ha
          exact XRefTarget.inside.inj this
        obtain ⟨k, hk, hor⟩ := mem_rollbackOffsets h hn hb
        refine .inr (hgone k hk (.inr hb) fun hlk => ?_)
        rcases hor with ⟨hl', -⟩ | ⟨-, rfl⟩
        · rw [hlk] at hl'
          cases hl'
        · -- the route that failed on its first offset is not pending again
          rcases h.start hn hstrict with hf | hs
          · rw [← hf.offset, hf.new] at hk
            cases hk
          · exact hs.2
    · rw [XRef.markedBy, if_neg htouch] at hv
      rcases h.marked x hxm a ha hv with hs | ⟨k, hk, hvk, hlk⟩
      · left
        have hvi : i.flags.invalid = true := by simpa [Owner.isValid_of hi] using hs
        rw [Owner.isValid_of hj, hvj hvi]
        rfl
      · refine .inr (hgone k hk (.inl hvk) fun hl' hm => hlk hl' ?_)
        unfold activeStarts
        rw [hn]
        exact List.mem_cons_of_mem _ hm
  · obtain ⟨⟨n, hlt⟩, rfl⟩ := List.mem_iff_get.1 hy
    obtain ⟨-, -, k, i, hk, -⟩ := hrep.get (hrep.length_eq ▸ hlt) hlt
    rw [hk] at ha
    cases ha

/-- A step keeps what holds in every state. -/
theorem Sound.step (h : Sound cfg log s) (ht : Step cfg s t) : Sound cfg (pushed s t ++ log) t := by
  have hnil : t.stack.length ≤ s.stack.length → pushed s t = [] := by
    intro hle
    simp [pushed, Nat.sub_eq_zero_of_le hle]
  cases ht with
  | next hu =>
    rw [hnil]
    · exact h.next hu
    · unfold nextSession at hu
      split at hu
      · split at hu
        · cases hu
        · next route rest hstack =>
          cases hu
          rw [hstack]
          exact Nat.le_succ _
      · cases hu
        exact Nat.le_refl _
  | skip offset hs =>
    rw [hnil (Nat.le_refl _)]
    refine h.move id fun _ hstr => ?_
    rw [hs] at hstr
    cases hstr
  | passOver offset =>
    rw [hnil (Nat.le_refl _)]
    exact h.move (fun _ => rfl) fun hf => Bool.noConfusion hf
  | rollback hn hstr =>
    rw [hnil (Nat.le_refl _)]
    exact h.rollback hn hstr
  | construct hn hslot hc =>
    rw [hnil (by rw [(constructInstruction_exact hc).2.2.1])]
    exact h.construct hn hslot hc
  | act hn hs ha => exact h.act hn hs ha
  | finish hn hs next reset =>
    rw [hnil (Nat.le_refl _)]
    refine h.move (fun hr => ?_) fun _ _ hi => ?_
    · rw [hn] at hr
      cases hr
    · rw [hi] at hs
      exact absurd hs List.not_mem_nil

theorem Reached.sound (h : Reached cfg log s) : Sound cfg log s := by
  induction h with
  | start cfg n m entry => exact sound_start cfg n m entry
  | again cfg' _ hnew ih => exact ih.again cfg' hnew
  | step _ hst ih => exact ih.step hst

end Steps

/-! ## The references -/

section References

variable {cfg : Config} {log : List Nat} {s : Session}

/-- In every state of every analysis each cross reference is once on the list of its source and on
no other list of references from an instruction, once on the list of its target and on no other list
of references to one, and no offset was pushed on the route stack twice. -/
theorem xrefs_linked_once (h : Reached cfg log s) :
    (∀ i x, s.owner.xrefs[i]? = some x →
      (∀ a, (s.owner.referencesFrom a).count i = if a = x.source then 1 else 0) ∧
        ∀ t, (s.owner.referencesTo t).count i = if t = x.target then 1 else 0) ∧ log.Nodup := by
  have hs := h.sound
  refine ⟨fun i x hi => ⟨fun a => ?_, fun t => ?_⟩, hs.logNodup⟩
  · rw [hs.linked.fromSource, count_findIdxs _ hi]
    by_cases ha : a = x.source
    · simp [ha]
    · simp [ha, Ne.symm ha]
  · rw [hs.linked.toTarget, count_findIdxs _ hi]
    by_cases ht : t = x.target
    · simp [ht]
    · simp [ht, Ne.symm ht]

/-- The `push` of an address that is rolled back: its reference is replaced, and a jump goes to what
was rolled back. -/
theorem xrefs_linked_once_sharedTail : ∃ (log : List Nat) (t : Session),
    analyzeCodeImpl thirteenBytes (fun _ => x86Env thirteenBytes sharedTail at1000)
    (Owner.init 13 0)
        0 7 = .inl t ∧ Reached thirteenBytes log t ∧ t.owner.xrefs.length = 4 ∧
      (∀ i x, t.owner.xrefs[i]? = some x →
        (∀ a, (t.owner.referencesFrom a).count i = if a = x.source then 1 else 0) ∧
          ∀ r, (t.owner.referencesTo r).count i = if r = x.target then 1 else 0) ∧ log.Nodup := by
  have hrun : ∃ t, analyzeCodeImpl thirteenBytes (fun _ => x86Env thirteenBytes sharedTail at1000)
      (Owner.init 13 0) 0 7 = .inl t ∧ t.owner.xrefs.length = 4 := ⟨_, rfl, rfl⟩
  obtain ⟨t, ht, hlen⟩ := hrun
  obtain ⟨log, hr⟩ := (Reached.start thirteenBytes 13 0 0).analyzeCodeImpl rfl ht
  exact ⟨log, t, ht, hr, hlen, xrefs_linked_once hr⟩

/-- After a rollback in any state of an analysis, the references from and to the route are marked,
all others are as before, and behind them there is one valid data reference for each address that
was taken from an instruction that is still valid. None of these references was marked before. -/
theorem rollback_replaces (h : Reached cfg log s) (hn : s.needReset = false) :
    ∃ kept new,
      (rollbackCurrentRoute s).owner.xrefs =
          s.owner.xrefs.map (XRef.markedBy (rollbackOffsets s)) ++ new ∧
        List.Forall₂ (Replaces (rollbackCurrentRoute s).owner) kept new ∧
        kept.Perm (s.owner.xrefs.filter fun x =>
          keeps (rollbackCurrentRoute s).owner x && x.target ∈ (rollbackOffsets s).map .inside) ∧
        ∀ x ∈ kept, x.flags.invalid = false := by
  have hs := h.sound
  obtain ⟨-, kept, new, hx, hrep, hperm⟩ := rollback_kept hs.linked (hs.rollbackOffsets_nodup hn)
  refine ⟨kept, new, hx, hrep, hperm, fun x hxk => ?_⟩
  obtain ⟨hxm, hcond⟩ := List.mem_filter.1 (hperm.mem_iff.1 hxk)
  obtain ⟨hkeep, htarget⟩ := Bool.and_eq_true_iff.1 hcond
  obtain ⟨a, ha, hxa⟩ := List.mem_map.1 (of_decide_eq_true htarget)
  obtain ⟨i, hi, hor⟩ := mem_rollbackOffsets hs hn ha
  rw [Bool.eq_false_iff]
  intro hv
  rcases hs.marked x hxm a hxa.symm hv with hsrc | ⟨j, hj, hvj, hlj⟩
  · -- the source would not be valid after the rollback either
    obtain ⟨j, hj⟩ := Option.isSome_iff_exists.1 (hs.linked.source x hxm)
    obtain ⟨k, hk, -, hvk, -⟩ := rollback_persists s _ j hj
    have hvj : j.flags.invalid = true := by simpa [Owner.isValid_of hj] using hsrc
    have hvalid := (Bool.and_eq_true_iff.1 hkeep).2
    rw [Owner.isValid_of hk, hvk hvj] at hvalid
    cases hvalid
  · rw [hi] at hj
    cases hj
    rcases hor with ⟨-, hvi⟩ | ⟨hli, rfl⟩
    · rw [hvi] at hvj
      cases hvj
    · refine hlj hli ?_
      unfold activeStarts
      rw [hn]
      exact List.mem_cons_self

/-- The route of the two `nop`s behind the pushed address fails on the last byte. -/
theorem rollback_replaces_push : ∃ s,
    analyzeCodeImpl thirteenBytes (fun _ => x86Env thirteenBytes sharedTail at1000)
    (Owner.init 13 0)
        0 5 = .inl s ∧ s.needReset = false ∧ rollbackOffsets s = [10, 11] ∧ ∃ kept new,
      (rollbackCurrentRoute s).owner.xrefs =
          s.owner.xrefs.map (XRef.markedBy (rollbackOffsets s)) ++ new ∧
        List.Forall₂ (Replaces (rollbackCurrentRoute s).owner) kept new ∧
        kept.Perm (s.owner.xrefs.filter fun x =>
          keeps (rollbackCurrentRoute s).owner x && x.target ∈ (rollbackOffsets s).map .inside) ∧
        ∀ x ∈ kept, x.flags.invalid = false := by
  have hrun : ∃ s, analyzeCodeImpl thirteenBytes (fun _ => x86Env thirteenBytes sharedTail at1000)
      (Owner.init 13 0) 0 5 = .inl s ∧ s.needReset = false ∧ rollbackOffsets s = [10, 11] :=
    ⟨_, rfl, rfl, rfl⟩
  obtain ⟨s, hs, hn, hoff⟩ := hrun
  obtain ⟨log, hr⟩ := (Reached.start thirteenBytes 13 0 0).analyzeCodeImpl rfl hs
  exact ⟨s, hs, hn, hoff, rollback_replaces hr hn⟩

end References

end Diana.Analyze
