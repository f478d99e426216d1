import Diana.Analyze.Tally

/-!
# Runs of analyses

What the turns of `Diana_AnalyzeCodeImpl` keep of the tally, and what successful analyses leave: the
count of valid instructions is right after all of them, and valid instructions are complete unless a
root route started at bytes that do not decode.

* `Entry.turn`: a turn, from the offset of its route to the next one;
* `Runs`: the owners that successful analyses leave;
* `Runs.actualSize_eq`, `Runs.no_phantoms`.
-/

namespace Diana.Analyze

open Diana.Lib

variable {size : Nat} {decoded : Nat → Prop} {phantoms : Prop} {o o' : Owner}
  {routes routes' : List RouteInfo}

/-! ## The turns -/

section Turns

variable {cfg : Config} {env : Env} {s t u : Session}

/-- A turn leaves a phantom: the first instruction of a root route is still loading and does not
decode, and the route goes on behind it or ends. -/
def leavesPhantom (cfg : Config) (env : Env) (u : Session) : Prop :=
  isStrictRoute cfg u = false ∧ u.offset = u.curRoute.startOffset ∧
    ((env.answers u).misaligned = true ∨ ∃ e, (env.answers u).parse = .error e) ∧
    ∃ i, u.owner.presenceVec u.offset = some i ∧ i.flags.isLoading = true ∧ i.flags.invalid = false

/-- The turn decodes an instruction. -/
def decodesHere (env : Env) (u : Session) : Prop :=
  (env.answers u).misaligned = false ∧ ∃ n, (env.answers u).parse = .ok n

/-- A route that has to prove it is code and is under way: what it constructed is there, its first
instruction too. -/
structure UnderWay (s : Session) : Prop where
  nodup : s.curRoute.instructions.Nodup
  live : Live s.owner s.curRoute.instructions
  start : ∃ i, s.owner.presenceVec s.curRoute.startOffset = some i ∧ i.flags.isLoading = false

/-- The first turn of an analysis. -/
structure Fresh (s : Session) : Prop where
  stack : s.stack = []
  instructions : s.curRoute.instructions = []
  offset : s.offset = s.curRoute.startOffset
  new : s.owner.presenceVec s.offset = none

/-- What holds between the turns. -/
structure Head (cfg : Config) (size : Nat) (decoded : Nat → Prop) (phantoms : Prop) (s : Session) :
    Prop where
  tally : Tally size decoded phantoms s.owner s.stack
  route : s.needReset = false → Fresh s ∨ (isStrictRoute cfg s = true → UnderWay s)

/-- What holds at the offset of a turn: the route was just taken from the stack, or goes on. -/
def Entry (cfg : Config) (size : Nat) (decoded : Nat → Prop) (phantoms : Prop) (u : Session) :
    Prop :=
  u.offset < size ∧
    (Tally size decoded phantoms u.owner (u.curRoute :: u.stack) ∧
        u.offset = u.curRoute.startOffset ∨
      Tally size decoded phantoms u.owner u.stack ∧
        (Fresh u ∨ (isStrictRoute cfg u = true → UnderWay u)))

theorem Head.entry (hs : Head cfg size decoded phantoms s) (hmax : cfg.maxOffset ≤ size)
    (hu : nextSession cfg s = some u) : Entry cfg size decoded phantoms u := by
  unfold nextSession at hu
  split at hu
  · cases hstack : s.stack with
    | nil =>
      rw [hstack] at hu
      cases hu
    | cons route rest =>
      rw [hstack] at hu
      cases hu
      have ht := hs.tally
      rw [hstack] at ht
      obtain ⟨i, hi⟩ := Option.isSome_iff_exists.1 (ht.present _ List.mem_cons_self).1
      exact ⟨(ht.slots _ i hi).1, .inl ⟨ht, rfl⟩⟩
  · next hgo =>
    obtain ⟨hoff, hreset⟩ := not_or.mp hgo
    cases hu
    refine ⟨Nat.lt_of_lt_of_le (Nat.lt_of_not_le hoff) hmax, .inr ⟨hs.tally, ?_⟩⟩
    rcases hs.route (Bool.eq_false_iff.2 hreset) with hf | hw
    · exact .inl ⟨hf.stack, hf.instructions, hf.offset, hf.new⟩
    · exact .inr fun hstrict => ⟨(hw hstrict).nodup, (hw hstrict).live, (hw hstrict).start⟩

/-- A rollback at the offset of a turn. -/
theorem Entry.rollback (hu : Entry cfg size decoded phantoms u)
    (hstrict : isStrictRoute cfg u = true) :
    Tally size decoded phantoms (rollbackCurrentRoute u).owner u.stack := by
  rcases hu.2 with ⟨ht, -⟩ | ⟨ht, hf | hw⟩
  · exact tally_rollback_start ht
  · refine tally_rollback ht ?_ ?_ fun i hi => ?_
    · rw [hf.instructions]
      exact List.nodup_nil
    · rw [hf.instructions]
      exact fun _ ha => absurd ha List.not_mem_nil
    · rw [← hf.offset, hf.new] at hi
      cases hi
  · obtain ⟨i, hi, hl⟩ := (hw hstrict).start
    refine tally_rollback ht (hw hstrict).nodup (hw hstrict).live fun j hj => ?_
    rw [hi] at hj
    cases hj
    exact hl

/-- A route that ends or goes on without a rollback. -/
theorem Entry.leave (hu : Entry cfg size decoded phantoms u)
    (hi : ∀ i, u.owner.presenceVec u.offset = some i → i.flags.isLoading = true →
      u.offset = u.curRoute.startOffset →
        i.flags.invalid = false → i.flags.root = true → phantoms)
    (hq : ∀ i, u.owner.presenceVec u.offset = some i → i.flags.isLoading = true →
      u.curRoute.questionable = false) :
    Tally size decoded phantoms u.owner u.stack := by
  rcases hu.2 with ⟨ht, hoff⟩ | ⟨ht, -⟩
  · refine ht.drop fun i hp hl => ?_
    rw [← hoff] at hp
    have hslot := (ht.slots _ i hp).2
    obtain ⟨hroot, hv⟩ := hslot.roots _ List.mem_cons_self hoff.symm (hq i hp hl) hl
    exact ⟨hv, hroot, hi i hp hl hoff hv hroot⟩
  · exact ht

theorem questionable_of_not_strict (h : isStrictRoute cfg u = false) :
    u.curRoute.questionable = false := by
  unfold isStrictRoute at h
  exact (Bool.or_eq_false_iff.1 h).1

/-- The tally where a root route meets what does not decode. -/
theorem Entry.skip (hu : Entry cfg size decoded phantoms u) (hstrict : isStrictRoute cfg u = false)
    (hbad : (env.answers u).misaligned = true ∨ ∃ e, (env.answers u).parse = .error e)
    (hph : leavesPhantom cfg env u → phantoms) : Tally size decoded phantoms u.owner u.stack := by
  refine hu.leave (fun i hi hl hoff hv _ => hph ⟨hstrict, hoff, hbad, i, hi, hl, hv⟩) fun _ _ _ =>
    ?_
  exact questionable_of_not_strict hstrict

/-- The tally after an instruction is constructed at the offset of a turn. -/
theorem Entry.construct {w : WordFlags} (hu : Entry cfg size decoded phantoms u)
    (hd : decoded u.offset)
    (hslot : ∀ i, u.owner.presenceVec u.offset = some i →
      i.flags.invalid = false ∧ i.flags.isLoading = true)
    (h : constructInstruction u u.offset w = .ok t) :
    Tally size decoded phantoms t.owner t.stack ∧ (isStrictRoute cfg t = true → UnderWay t) := by
  obtain ⟨⟨j, hj, hlj, hvj⟩, hother, hstack, hins⟩ := constructInstruction_exact h
  have hcur : t.curRoute.startOffset = u.curRoute.startOffset ∧
      isStrictRoute cfg t = isStrictRoute cfg u := by
    obtain ⟨o, hq, hrest⟩ := bind_eq_ok.mp h
    cases hrest
    exact ⟨rfl, rfl⟩
  -- what the route constructed before is not at this offset
  have hold : Live u.owner u.curRoute.instructions → ∀ b ∈ u.curRoute.instructions,
      b ≠ u.offset := by
    rintro hlive b hb rfl
    obtain ⟨i, hi, hl, -⟩ := hlive _ hb
    rw [(hslot i hi).2] at hl
    cases hl
  have hway : u.curRoute.instructions.Nodup → Live u.owner u.curRoute.instructions →
      (∃ i, t.owner.presenceVec u.curRoute.startOffset = some i ∧ i.flags.isLoading = false) →
      UnderWay t := by
    intro hn hlive hstart
    refine ⟨?_, ?_, hcur.1 ▸ hstart⟩
    · rw [hins]
      exact List.nodup_append.2 ⟨hn, List.nodup_singleton _, fun b hb c hc =>
        List.mem_singleton.1 hc ▸ hold hlive b hb⟩
    · rw [hins]
      intro b hb
      rcases List.mem_append.1 hb with hb | hb
      · rw [hother b (hold hlive b hb)]
        exact hlive b hb
      · rw [List.mem_singleton.1 hb]
        exact ⟨j, hj, hlj, hvj⟩
  have hempty : ∀ {l : List Nat}, l = [] → l.Nodup ∧ Live u.owner l := by
    rintro l rfl
    exact ⟨List.nodup_nil, fun _ ha => absurd ha List.not_mem_nil⟩
  rw [hstack]
  rcases hu.2 with ⟨ht, hoff⟩ | ⟨ht, hroute⟩
  · obtain ⟨hout, hn⟩ := List.nodup_cons.1 ht.nodup
    have hnil := hempty (ht.present _ List.mem_cons_self).2
    refine ⟨tally_construct ht hu.1 hd (fun i hi => (hslot i hi).1) (fun r hr => ?_) hn
      (fun r hr => List.mem_cons_of_mem _ hr) h, fun _ => hway hnil.1 hnil.2 ⟨j, hoff ▸ hj, hlj⟩⟩
    constructor
    · exact List.mem_cons_of_mem _
    · intro hm
      rcases List.mem_cons.1 hm with rfl | hm
      · exact absurd hoff.symm hr
      · exact hm
  · refine ⟨tally_construct ht hu.1 hd (fun i hi => (hslot i hi).1) (fun _ _ => Iff.rfl) ht.nodup
      (fun _ hr => hr) h, fun hstrict => ?_⟩
    rcases hroute with hf | hw
    · have hnil := hempty hf.instructions
      exact hway hnil.1 hnil.2 ⟨j, hf.offset ▸ hj, hlj⟩
    · obtain ⟨hn, hlive, i, hi, hl⟩ := hw (hcur.2 ▸ hstrict)
      refine hway hn hlive ⟨i, ?_, hl⟩
      rw [hother, hi]
      intro he
      rw [he] at hi
      rw [(hslot i hi).2] at hl
      cases hl

/-- `AnalyzeAndConstructInstruction` with the end of its turn. -/
theorem Entry.instruction {a : Answers} {next : Nat} (hmax : cfg.maxOffset ≤ size)
    (hu : Entry cfg size decoded phantoms u) (hd : decoded u.offset)
    (hslot : ∀ i, u.owner.presenceVec u.offset = some i →
      i.flags.invalid = false ∧ i.flags.isLoading = true)
    (h : analyzeInstruction cfg a u next = .inl t) : Head cfg size decoded phantoms t := by
  unfold analyzeInstruction at h
  split at h
  · cases h
  · next v hv =>
    cases h
    obtain ⟨c, hc, h1⟩ := bind_eq_ok.mp hv
    obtain ⟨d, hf, h2⟩ := bind_eq_ok.mp h1
    obtain ⟨reset, hn, h3⟩ := bind_eq_ok.mp h2
    cases h3
    obtain ⟨ht, hw⟩ := hu.construct hd hslot hc
    have htd := tally_foldlM hmax ht hf
    have hst := stays_foldlM hf
    have hcur := (acts_foldlM _ hf).curRoute
    have hwd : isStrictRoute cfg d = true → UnderWay d := by
      intro hstrict
      obtain ⟨hnodup, hlive, i, hi, hl⟩ := hw (by
        unfold isStrictRoute at hstrict ⊢
        rwa [hcur] at hstrict)
      obtain ⟨i', hi', hl', -⟩ := hst _ i hi hl
      refine ⟨?_, ?_, i', ?_, hl'⟩
      · rw [hcur]
        exact hnodup
      · rw [hcur]
        exact hlive.stays hst
      · rw [hcur]
        exact hi'
    unfold endTurn
    split
    · split
      case isTrue harm =>
        refine ⟨?_, fun hreset => Bool.noConfusion hreset⟩
        obtain ⟨hnodup, hlive, i, hi, hl⟩ := hwd harm.2.2
        refine tally_rollback htd hnodup hlive fun j hj => ?_
        rw [hi] at hj
        cases hj
        exact hl
      case isFalse => exact ⟨htd, fun hreset => Bool.noConfusion hreset⟩
    · exact ⟨htd, fun _ => .inr fun hstrict =>
        ⟨(hwd hstrict).nodup, (hwd hstrict).live, (hwd hstrict).start⟩⟩

/-- A turn keeps what holds between the turns. -/
theorem Entry.turn (hmax : cfg.maxOffset ≤ size) (hu : Entry cfg size decoded phantoms u)
    (hph : leavesPhantom cfg env u → phantoms) (hd : decodesHere env u → decoded u.offset)
    (h : analyzeOffset cfg env u = .inl t) : Head cfg size decoded phantoms t := by
  unfold analyzeOffset at h
  simp only at h
  split at h
  case isTrue hmis =>
    split at h
    case isTrue hstrict =>
      cases h
      exact ⟨hu.rollback hstrict, fun hreset => Bool.noConfusion hreset⟩
    case isFalse hstrict =>
      cases h
      exact ⟨hu.skip (Bool.eq_false_iff.2 hstrict) (.inl hmis) hph,
        fun hreset => Bool.noConfusion hreset⟩
  case isFalse hmis =>
    have hmis' : (env.answers u).misaligned = false := Bool.eq_false_iff.2 hmis
    split at h
    case h_1 e he =>
      split at h
      case isTrue hstrict =>
        cases h
        exact ⟨hu.rollback hstrict, fun hreset => Bool.noConfusion hreset⟩
      case isFalse hstrict =>
        have ht := hu.skip (Bool.eq_false_iff.2 hstrict) (.inr ⟨e, he⟩) hph
        split at h
        · cases h
        · cases h
          exact ⟨ht, fun _ => .inr fun hstrict' => absurd hstrict' hstrict⟩
    case h_2 n hn =>
      have hdec : decoded u.offset := hd ⟨hmis', n, hn⟩
      split at h
      case h_1 i hi =>
        have hi' : u.owner.presenceVec u.offset = some i := hi
        have hsame : ∀ j, u.owner.presenceVec u.offset = some j → j = i := by
          intro j hj
          rw [hi'] at hj
          cases hj
          rfl
        split at h
        case isTrue hv =>
          split at h
          case isTrue hq =>
            cases h
            exact ⟨hu.rollback (by rw [isStrictRoute, hq]; rfl),
              fun hreset => Bool.noConfusion hreset⟩
          case isFalse hq =>
            cases h
            refine ⟨hu.leave (fun j hj _ _ hvj _ => ?_) fun _ _ _ => Bool.eq_false_iff.2 hq,
              fun hreset => Bool.noConfusion hreset⟩
            rw [hsame j hj, hv] at hvj
            cases hvj
        case isFalse hv =>
          split at h
          case isTrue hl =>
            have hl' : i.flags.isLoading = false := by simpa using hl
            cases h
            refine ⟨hu.leave (fun j hj hlj => ?_) fun j hj hlj => ?_,
              fun hreset => Bool.noConfusion hreset⟩
            · rw [hsame j hj, hl'] at hlj
              cases hlj
            · rw [hsame j hj, hl'] at hlj
              cases hlj
          case isFalse hl =>
            refine hu.instruction hmax hdec (fun j hj => ?_) h
            rw [hsame j hj]
            exact ⟨Bool.eq_false_iff.2 hv, by simpa using hl⟩
      case h_2 hi =>
        refine hu.instruction hmax hdec (fun j hj => ?_) h
        rw [show u.owner.presenceVec u.offset = none from hi] at hj
        cases hj

end Turns

/-! ## The runs -/

section Runs

variable {cfg : Config} {moveTo : Nat → Except Status Unit} {env : Nat → Env} {owner found : Owner}
  {entry n : Nat}

/-- A turn of the analysis decodes an instruction at `a`. -/
def DecodedBy (cfg : Config) (moveTo : Nat → Except Status Unit) (env : Nat → Env) (owner : Owner)
    (entry a : Nat) : Prop :=
  ∃ k s u, analyzeCodeEx2 cfg moveTo env owner entry k = .inl s ∧ nextSession cfg s = some u ∧
    u.offset = a ∧ decodesHere (env k) u

/-- The owners that successful analyses leave: entries, landing pads and scans, in any order and of
any architecture, with the offsets at which the turns decoded instructions. All turns meet the
condition `turn`. The presence vector has a slot for every offset of the image. -/
inductive Runs (turn : Config → Env → Session → Prop) : (Nat → Prop) → Owner → Prop where
  | init (n m : Nat) : Runs turn (fun _ => False) (Owner.init n m)
  | next {decoded : Nat → Prop} {cfg : Config} {moveTo : Nat → Except Status Unit} {env : Nat → Env}
      {owner found : Owner} {entry n : Nat} (howner : Runs turn decoded owner)
      (hmax : cfg.maxOffset ≤ owner.maxSize)
      (hturn : ∀ k s u, analyzeCodeEx2 cfg moveTo env owner entry k = .inl s →
        nextSession cfg s = some u → turn cfg (env k) u)
      (h : analyzeCodeEx2 cfg moveTo env owner entry n = .inr (.ok found)) :
      Runs turn (fun a => decoded a ∨ DecodedBy cfg moveTo env owner entry a) found

theorem Tally.mono {decoded' : Nat → Prop} (h : Tally size decoded phantoms o routes)
    (hd : ∀ a, decoded a → decoded' a) : Tally size decoded' phantoms o routes where
  maxSize := h.maxSize
  slots a i hi :=
    ⟨(h.slots a i hi).1, (h.slots a i hi).2.roots, (h.slots a i hi).2.settled,
      fun hl hv => hd a ((h.slots a i hi).2.decoded hl hv)⟩
  nodup := h.nodup
  present := h.present
  count := h.count

theorem tally_init (n m : Nat) : Tally n decoded phantoms (Owner.init n m) [] where
  maxSize := rfl
  slots _ _ hi := by cases hi
  nodup := List.nodup_nil
  present r hr := absurd hr List.not_mem_nil
  count := by simp [Owner.init, counted]

/-- Every session of an analysis is as it should be between the turns. -/
theorem analyzeCodeEx2_head (hmax : cfg.maxOffset ≤ size)
    (ho : Tally size decoded phantoms owner [])
    (hturn : ∀ k s u, analyzeCodeEx2 cfg moveTo env owner entry k = .inl s →
      nextSession cfg s = some u → leavesPhantom cfg (env k) u → phantoms)
    (hd : ∀ a, DecodedBy cfg moveTo env owner entry a → decoded a) {s : Session}
    (h : analyzeCodeEx2 cfg moveTo env owner entry n = .inl s) :
    Head cfg size decoded phantoms s := by
  have hrun : ∀ m, analyzeCodeEx2 cfg moveTo env owner entry m =
      analyzeCodeImpl cfg env owner entry m := by
    intro m
    unfold analyzeCodeEx2 at h ⊢
    split at h
    · cases h
    · split at h
      · cases h
      · rfl
  have hnew : owner.presenceVec entry = none := by
    unfold analyzeCodeEx2 at h
    split at h
    · cases h
    · next hnone => exact hnone
  induction n generalizing s with
  | zero =>
    rw [hrun] at h
    cases h
    exact ⟨ho, fun _ => .inl ⟨rfl, rfl, rfl, hnew⟩⟩
  | succ n ih =>
    have h' := h
    rw [hrun] at h'
    obtain ⟨t, ht, hstep⟩ := runFrom_pred h'
    rw [Nat.zero_add] at hstep
    have hreach : analyzeCodeEx2 cfg moveTo env owner entry n = .inl t := (hrun n).trans ht
    obtain ⟨u, hu, hut⟩ := iterate_inl hstep
    refine ((ih hreach).entry hmax hu).turn hmax (hturn n t u hreach hu) (fun hdec => ?_) hut
    exact hd _ ⟨n, t, u, hreach, hu, rfl, hdec⟩

theorem analyzeCodeEx2_tally (hmax : cfg.maxOffset ≤ size)
    (ho : Tally size decoded phantoms owner [])
    (hturn : ∀ k s u, analyzeCodeEx2 cfg moveTo env owner entry k = .inl s →
      nextSession cfg s = some u → leavesPhantom cfg (env k) u → phantoms)
    (hd : ∀ a, DecodedBy cfg moveTo env owner entry a → decoded a)
    (h : analyzeCodeEx2 cfg moveTo env owner entry n = .inr (.ok found)) :
    Tally size decoded phantoms found [] := by
  cases hnew : owner.getInstruction entry with
  | some i =>
    rw [analyzeCodeEx2, hnew] at h
    cases h
    exact ho
  | none =>
    cases hmove : moveTo entry with
    | error e =>
      rw [analyzeCodeEx2, hnew, hmove] at h
      cases h
    | ok v =>
      have hrun : ∀ m, analyzeCodeEx2 cfg moveTo env owner entry m =
          analyzeCodeImpl cfg env owner entry m := by
        intro m
        rw [analyzeCodeEx2, hnew, hmove]
      rw [hrun] at h
      obtain ⟨m, t, -, ht, hlast⟩ := exists_last h
      rw [Nat.zero_add] at hlast
      obtain ⟨-, hstack, rfl⟩ := iterate_ok hlast
      have htally := (analyzeCodeEx2_head hmax ho hturn hd ((hrun m).trans ht)).tally
      rwa [hstack] at htally

theorem Runs.tally (phantoms : Prop) {turn : Config → Env → Session → Prop}
    (hturn : ∀ cfg env u, turn cfg env u → leavesPhantom cfg env u → phantoms)
    (h : Runs turn decoded o) : Tally o.maxSize decoded phantoms o [] := by
  induction h with
  | init n m => exact tally_init n m
  | next howner hmax hcond h ih =>
    have ht := analyzeCodeEx2_tally hmax (ih.mono fun a ha => Or.inl ha)
      (fun k s u hs hu => hturn _ _ _ (hcond k s u hs hu)) (fun a ha => Or.inr ha) h
    rw [ht.maxSize]
    exact ht

theorem sum_toNat_range (p : Nat → Bool) (n : Nat) :
    ∑ a ∈ Finset.range n, (p a).toNat = ((List.range n).filter p).length := by
  induction n with
  | zero => rfl
  | succ n ih =>
    rw [Finset.sum_range_succ, ih, List.range_succ, List.filter_append, List.length_append]
    cases h : p n <;> simp [h]

/-- After successful analyses the count is the number of registered instructions that are not
invalid. -/
theorem Runs.actualSize_eq {turn : Config → Env → Session → Prop} (h : Runs turn decoded o) :
    o.actualSize = ((List.range o.maxSize).filter o.isValid).length := by
  have ht := h.tally True fun _ _ _ _ _ => trivial
  have hvalid : ∀ a, counted [] a (o.presenceVec a) = o.isValid a := by
    intro a
    unfold Owner.isValid
    cases o.presenceVec a with
    | none => rfl
    | some i => simp [counted]
  rw [ht.count]
  simp only [hvalid]
  exact sum_toNat_range _ _

/-- The push of an address that is rolled back, and a jump to what was rolled back. -/
theorem actualSize_sharedTail : ∃ found,
    analyzeCode thirteenBytes sharedTail at1000 (Owner.init 13 0) 0 8 = .inr (.ok found) ∧
      found.actualSize = ((List.range found.maxSize).filter found.isValid).length := by
  have hrun : ∃ found, analyzeCode thirteenBytes sharedTail at1000 (Owner.init 13 0) 0 8 =
      .inr (.ok found) := ⟨_, rfl⟩
  obtain ⟨found, hfound⟩ := hrun
  have hruns : Runs (fun _ _ _ => True) _ found :=
    .next (.init 13 0) (by decide) (fun _ _ _ _ _ => trivial) hfound
  exact ⟨found, hfound, hruns.actualSize_eq⟩

/-- In analyses that meet no root route whose start does not decode, every valid instruction has
been decoded and is complete. -/
theorem Runs.no_phantoms (h : Runs (fun cfg env u => ¬ leavesPhantom cfg env u) decoded o) (a : Nat)
    (i : Instruction) (hi : o.presenceVec a = some i) (hv : i.flags.invalid = false) :
    i.flags.isLoading = false ∧ decoded a := by
  have ht := h.tally False fun _ _ _ hn hp => hn hp
  have hslot := (ht.slots a i hi).2
  have hl : i.flags.isLoading = false := by
    by_contra hl
    rcases hslot.settled (by simpa using hl) hv with ⟨r, hr, -⟩ | ⟨-, hf⟩
    · exact absurd hr List.not_mem_nil
    · exact hf
  exact ⟨hl, hslot.decoded hl hv⟩

/-- A lone `ret`. -/
theorem no_phantoms_ret : ∃ found i,
    analyzeCodeEx2 oneByte (memoryMoveTo 1) (fun _ => oneByteEnv (.ok 1)) (Owner.init 1 0) 0 2 =
        .inr (.ok found) ∧
      found.presenceVec 0 = some i ∧ i.flags.isLoading = false ∧
      DecodedBy oneByte (memoryMoveTo 1) (fun _ => oneByteEnv (.ok 1)) (Owner.init 1 0) 0 0 := by
  have hturn : ∀ u, ¬ leavesPhantom oneByte (oneByteEnv (.ok 1)) u := by
    rintro u ⟨-, -, hm | ⟨e, he⟩, -⟩
    · cases hm
    · cases he
  have hrun : ∃ found i, analyzeCodeEx2 oneByte (memoryMoveTo 1) (fun _ => oneByteEnv (.ok 1))
      (Owner.init 1 0) 0 2 = .inr (.ok found) ∧ found.presenceVec 0 = some i ∧
        i.flags.invalid = false := ⟨_, _, rfl, rfl, rfl⟩
  obtain ⟨found, i, hfound, hi, hv⟩ := hrun
  obtain ⟨hl, hd⟩ := Runs.no_phantoms
    (.next (.init 1 0) (by decide) (fun _ _ u _ _ => hturn u) hfound) 0 i hi hv
  exact ⟨found, i, hfound, hi, hl, hd.resolve_left id⟩

/-- Four bytes of 64-bit code. -/
def fourBytes : Config := ⟨4, by decide, false, false⟩

/-- `jmp 2`, the byte `06`, which is no instruction in 64-bit code, and `ret`. -/
def jumpToNothing : Image where
  parseCmd
    | 0 => .ok ⟨2, some ⟨true, false, false, false, 0⟩, [.rel 0], false⟩
    | 3 => .ok ⟨1, some ⟨true, false, true, false, 0⟩, [], false⟩
    | _ => .error .invalidOpcode
  readPointer _ _ := none

/-- Offsets of the four bytes -/
def offsets4 : Observer where
  analyzeAddress address _ := if address < 4 then (address, .normal) else (address, .external)

/-- The target of the jump stays registered, valid and loading. -/
theorem phantom_after_jump :
    ¬ ∀ decoded o, Runs (fun _ _ _ => True) decoded o → ∀ a i, o.presenceVec a = some i →
      i.flags.invalid = false → i.flags.isLoading = false ∧ decoded a := by
  intro h
  have hrun : ∃ found i, analyzeCode fourBytes jumpToNothing offsets4 (Owner.init 4 0) 0 5 =
      .inr (.ok found) ∧ found.presenceVec 2 = some i ∧ i.flags.invalid = false ∧
        i.flags.isLoading = true := ⟨_, _, rfl, rfl, rfl, rfl⟩
  obtain ⟨found, i, hfound, hi, hv, hl⟩ := hrun
  have hnot :=
    (h _ found (.next (.init 4 0) (by decide) (fun _ _ _ _ _ => trivial) hfound) 2 i hi hv).1
  rw [hl] at hnot
  cases hnot

end Runs

end Diana.Analyze
