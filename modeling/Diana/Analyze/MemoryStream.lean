import Diana.Analyze.Termination

/-!
# Analysing an image in memory

`DianaMovableReadStreamOverMemory` refuses to be moved to the end of the image. The loop moves the
stream in two places: to the start of a pending route, which is always inside, and past an
instruction that did not decode on a route that need not prove it is code. When that instruction is
the last of the image the second move fails, and the analysis with it.

`Owner.PoolOk` counts the instructions the pool gave out: it never runs empty before every offset
has one.
-/

namespace Diana.Analyze

open Diana.Lib

/-- `DianaMovableReadStreamOverMemory_MoveTo` -/
def memoryMoveTo (bufferSize offset : Nat) : Except Status Unit :=
  if offset ≥ bufferSize then .error .endOfStream else .ok ()

/-- `Diana_AnalyzeCodeEx2` for a known architecture. -/
def analyzeCodeEx2 (cfg : Config) (moveTo : Nat → Except Status Unit) (env : Nat → Env)
    (owner : Owner) (initialOffset n : Nat) : Turn :=
  match owner.getInstruction initialOffset with
  | some _ => .inr (.ok owner)
  | none =>
    match moveTo initialOffset with
    | .error e => .inr (.error e)
    | .ok _ => analyzeCodeImpl cfg env owner initialOffset n

/-! ## The pool -/

/-- The pool has given out one instruction for each registered offset, all below its size. -/
def Owner.PoolOk (o : Owner) : Prop :=
  o.usedSize = ((Finset.range o.maxSize).filter fun a => (o.presenceVec a).isSome = true).card

theorem poolOk_init (n m : Nat) : (Owner.init n m).PoolOk := by
  simp [Owner.PoolOk, Owner.init]

/-- The pool only depends on which slots are filled. -/
theorem Owner.PoolOk.congr {o o' : Owner} (h : o.PoolOk) (hm : o'.maxSize = o.maxSize)
    (hu : o'.usedSize = o.usedSize)
    (hp : ∀ a, (o'.presenceVec a).isSome = (o.presenceVec a).isSome) : o'.PoolOk := by
  simp only [Owner.PoolOk, hm, hu, hp]
  exact h

theorem Owner.PoolOk.lt {o : Owner} (h : o.PoolOk) {a : Nat} (ha : a < o.maxSize)
    (hn : o.presenceVec a = none) : o.usedSize < o.maxSize := by
  rw [h]
  conv_rhs => rw [← Finset.card_range o.maxSize]
  refine Finset.card_lt_card (Finset.filter_ssubset.mpr ⟨a, Finset.mem_range.mpr ha, ?_⟩)
  rw [hn]
  decide

/-- Below the size of the pool a query never fails. -/
theorem Owner.PoolOk.query {o : Owner} (h : o.PoolOk) {a : Nat} (ha : a < o.maxSize)
    (f : InstrFlags) :
    ∃ o', o.queryOrAllocateInstruction a f = .ok o' ∧ o'.PoolOk ∧ o'.maxSize = o.maxSize := by
  unfold Owner.queryOrAllocateInstruction
  split
  · exact ⟨o, rfl, h, rfl⟩
  · next hn =>
    rw [if_neg (Nat.not_le.mpr (h.lt ha hn))]
    refine ⟨_, rfl, ?_, rfl⟩
    have hset : ((Finset.range o.maxSize).filter fun b =>
        ((o.allocateInstruction a f).presenceVec b).isSome = true) =
        insert a ((Finset.range o.maxSize).filter fun b => (o.presenceVec b).isSome = true) := by
      ext b
      rw [Finset.mem_filter, Finset.mem_insert, Finset.mem_filter,
        Owner.allocateInstruction_presenceVec]
      by_cases hb : b = a
      · subst hb
        simp [ha]
      · simp [hb]
    have hnot : a ∉ (Finset.range o.maxSize).filter fun b => (o.presenceVec b).isSome = true := by
      simp [hn]
    change o.usedSize + 1 = ((Finset.range o.maxSize).filter fun b =>
      ((o.allocateInstruction a f).presenceVec b).isSome = true).card
    rw [hset, Finset.card_insert_of_notMem hnot, ← h]

/-- What the loop needs of a session to find memory and routes in order. -/
structure Fine (cfg : Config) (s : Session) : Prop where
  pool : s.owner.PoolOk
  size : cfg.maxOffset ≤ s.owner.maxSize
  stack : ∀ r ∈ s.stack, r.startOffset < cfg.maxOffset

/-- A change of the owner that fills and empties no slot. -/
theorem Fine.owner {cfg : Config} {s : Session} (h : Fine cfg s) {o : Owner}
    (hm : o.maxSize = s.owner.maxSize) (hu : o.usedSize = s.owner.usedSize)
    (hp : ∀ a, (o.presenceVec a).isSome = (s.owner.presenceVec a).isSome) :
    Fine cfg { s with owner := o } :=
  ⟨h.pool.congr hm hu hp, hm ▸ h.size, h.stack⟩

theorem modify_isSome (o : Owner) (b : Nat) (f : InstrFlags → InstrFlags) (a : Nat) :
    ((o.modify b f).presenceVec a).isSome = (o.presenceVec a).isSome := by
  by_cases h : a = b
  · subst h
    rw [Owner.modify_same, Option.isSome_map]
  · rw [Owner.modify_other h]

theorem Fine.modify {cfg : Config} {s : Session} (h : Fine cfg s) (a : Nat)
    (f : InstrFlags → InstrFlags) : Fine cfg { s with owner := s.owner.modify a f } :=
  h.owner rfl rfl (modify_isSome s.owner a f)

theorem saveNewExternalRoute_sizes (o : Owner) (m : Bool) (a b : Nat) (l : Bool) (f : XRefFlags) :
    (o.saveNewExternalRoute m a b l f).maxSize = o.maxSize ∧
      (o.saveNewExternalRoute m a b l f).usedSize = o.usedSize := by
  unfold Owner.saveNewExternalRoute
  split
  · exact ⟨rfl, rfl⟩
  · split <;> exact ⟨rfl, rfl⟩

theorem saveNewRoute_fine {cfg : Config} {s : Session} (h : Fine cfg s) (source newOffset : Nat)
    (aligned questionable addressTaken : Bool) :
    ∃ t, saveNewRoute cfg s source newOffset aligned questionable addressTaken = .ok t ∧
      Fine cfg t := by
  unfold saveNewRoute
  split
  · exact ⟨s, rfl, h⟩
  · next hlt =>
    have hlt' : newOffset < cfg.maxOffset := Nat.lt_of_not_le hlt
    split
    · split
      · exact ⟨_, rfl, h.owner rfl rfl fun _ => rfl⟩
      · exact ⟨s, rfl, h⟩
    · simp only
      split
      · exact ⟨_, rfl, h.owner rfl rfl fun _ => rfl⟩
      · obtain ⟨o, hq, hpool, hmax⟩ :=
          h.pool.query (Nat.lt_of_lt_of_le hlt' h.size) { isLoading := true }
        have hroot : (if questionable = true then o
            else o.modify newOffset fun f => { f with root := true }).PoolOk ∧
            (if questionable = true then o
              else o.modify newOffset fun f => { f with root := true }).maxSize = o.maxSize := by
          split
          · exact ⟨hpool, rfl⟩
          · exact ⟨hpool.congr rfl rfl (modify_isSome o _ _), rfl⟩
        rw [hq]
        simp only [bind, Except.bind]
        split
        · exact ⟨_, rfl, ⟨hroot.1.congr rfl rfl fun _ => rfl, hroot.2.trans hmax ▸ h.size, h.stack⟩⟩
        · refine ⟨_, rfl, ⟨hroot.1.congr rfl rfl fun _ => rfl, hroot.2.trans hmax ▸ h.size, ?_⟩⟩
          intro r hr
          rcases List.mem_cons.mp hr with rfl | hr
          · exact hlt'
          · exact h.stack r hr

theorem act_fine {cfg : Config} {s : Session} (h : Fine cfg s) (source : Nat) (x : Action) :
    ∃ t, act cfg source s x = .ok t ∧ Fine cfg t := by
  cases x with
  | note n => exact ⟨_, rfl, h.modify source n.set⟩
  | saveNewRoute a b c d => exact saveNewRoute_fine h source a b c d
  | saveDataXRef a b => exact ⟨_, rfl, h.owner rfl rfl fun _ => rfl⟩
  | saveNewExternalRoute a b c =>
    obtain ⟨h1, h2⟩ := saveNewExternalRoute_sizes s.owner cfg.mode32 source a b c
    refine ⟨_, rfl, h.owner h1 h2 fun _ => ?_⟩
    rw [Owner.saveNewExternalRoute_presenceVec]
  | dropPending a =>
    simp only [act]
    split
    · exact ⟨_, rfl, h.modify a _⟩
    · exact ⟨s, rfl, h⟩
  | markData a b c =>
    simp only [act]
    split
    · next hlt =>
      obtain ⟨o, hq, hpool, hmax⟩ := h.pool.query (Nat.lt_of_lt_of_le hlt.1 h.size)
        { invalid := true, data := true, dataBytes := b, dataHalfwords := c }
      rw [hq]
      exact ⟨_, rfl, ⟨hpool.congr rfl rfl fun _ => rfl, hmax ▸ h.size, h.stack⟩⟩
    · exact ⟨s, rfl, h⟩

theorem foldlM_act_fine {cfg : Config} (source : Nat) (l : List Action) {s : Session}
    (h : Fine cfg s) : ∃ t, l.foldlM (act cfg source) s = .ok t ∧ Fine cfg t := by
  induction l generalizing s with
  | nil => exact ⟨s, rfl, h⟩
  | cons x l ih =>
    obtain ⟨u, hu, hfu⟩ := act_fine h source x
    obtain ⟨t, ht, hft⟩ := ih hfu
    exact ⟨t, by rw [List.foldlM_cons, hu]; exact ht, hft⟩

theorem foldl_owner_sizes {f : Owner → Nat → Owner}
    (hf : ∀ o a, (f o a).maxSize = o.maxSize ∧ (f o a).usedSize = o.usedSize ∧
      ∀ b, ((f o a).presenceVec b).isSome = (o.presenceVec b).isSome) (l : List Nat) (o : Owner) :
    (l.foldl f o).maxSize = o.maxSize ∧ (l.foldl f o).usedSize = o.usedSize ∧
      ∀ b, ((l.foldl f o).presenceVec b).isSome = (o.presenceVec b).isSome := by
  induction l generalizing o with
  | nil => exact ⟨rfl, rfl, fun _ => rfl⟩
  | cons a l ih =>
    obtain ⟨h1, h2, h3⟩ := hf o a
    obtain ⟨h4, h5, h6⟩ := ih (f o a)
    exact ⟨h4.trans h1, h5.trans h2, fun b => (h6 b).trans (h3 b)⟩

theorem addressTakenRouteKeeper_sizes (o : Owner) (a : Nat) :
    (o.addressTakenRouteKeeper a).maxSize = o.maxSize ∧
      (o.addressTakenRouteKeeper a).usedSize = o.usedSize :=
  ⟨Owner.addressTakenRouteKeeper_of (f := Owner.maxSize) (fun _ _ _ => rfl) o a,
    Owner.addressTakenRouteKeeper_of (f := Owner.usedSize) (fun _ _ _ => rfl) o a⟩

theorem rollback_fine {cfg : Config} {s : Session} (h : Fine cfg s) :
    Fine cfg (rollbackCurrentRoute s) := by
  obtain ⟨h1, h2, h3⟩ := foldl_owner_sizes (f := Owner.routeMarker)
    (fun o a => ⟨rfl, rfl, modify_isSome o a fun f => { f with invalid := true }⟩)
    (rollbackOffsets s) s.owner
  obtain ⟨h4, h5, h6⟩ := foldl_owner_sizes (f := Owner.addressTakenRouteKeeper)
    (fun o a => ⟨(addressTakenRouteKeeper_sizes o a).1, (addressTakenRouteKeeper_sizes o a).2,
      fun b => by rw [addressTakenRouteKeeper_presenceVec]⟩) (rollbackOffsets s)
    ((rollbackOffsets s).foldl Owner.routeMarker s.owner)
  exact h.owner (h4.trans h1) (h5.trans h2) fun a => (h6 a).trans (h3 a)

/-! ## One turn -/

theorem analyzeAndConstruct_fine {cfg : Config} {a : Answers} {s : Session} (next : Nat)
    (h : Fine cfg s) (hlt : s.offset < cfg.maxOffset) (ha : ∃ b, a.needReset = .ok b) :
    ∃ t, analyzeAndConstructInstruction cfg a s next = .ok t ∧ Fine cfg t := by
  obtain ⟨o, hq, hpool, hmax⟩ := h.pool.query (Nat.lt_of_lt_of_le hlt h.size) {}
  obtain ⟨b, hb⟩ := ha
  have hc : ∃ u, constructInstruction s s.offset a.wordFlags = .ok u ∧ Fine cfg u := by
    have hm : ∀ f, (o.modify s.offset f).PoolOk :=
      fun f => hpool.congr rfl rfl (modify_isSome o s.offset f)
    unfold constructInstruction
    rw [hq]
    exact ⟨_, rfl, ⟨hm _, hmax ▸ h.size, h.stack⟩⟩
  obtain ⟨u, hu, hfu⟩ := hc
  obtain ⟨v, hv, hfv⟩ := foldlM_act_fine s.offset a.actions hfu
  refine ⟨{ v with offset := next, needReset := b }, ?_, ⟨hfv.pool, hfv.size, hfv.stack⟩⟩
  unfold analyzeAndConstructInstruction
  rw [hu]
  simp only [bind, Except.bind] at hv ⊢
  rw [hv, hb]

theorem endTurn_fine {cfg : Config} {t : Session} (arm : Bool) (h : Fine cfg t) :
    Fine cfg (endTurn cfg arm t) := by
  unfold endTurn
  split
  · split
    · have hr := rollback_fine h
      exact ⟨hr.pool, hr.size, hr.stack⟩
    · exact ⟨h.pool, h.size, h.stack⟩
  · exact h

/-- The session whose offset the next turn looks at: the current one, or the next pending route. -/
def nextSession (cfg : Config) (s : Session) : Option Session :=
  if s.offset ≥ cfg.maxOffset ∨ s.needReset = true then
    match s.stack with
    | [] => none
    | route :: rest =>
      some { s with
        stack := rest, curRoute := route, offset := route.startOffset, needReset := false }
  else some { s with needReset := false }

/-- The instruction at the offset of `u` does not decode, on a route that need not prove it is code,
and there is no room for another one behind it. -/
def failsHere (cfg : Config) (env : Env) (u : Session) : Prop :=
  (env.answers u).misaligned = false ∧ (∃ e, (env.answers u).parse = .error e) ∧
    isStrictRoute cfg u = false ∧ u.offset + (env.answers u).alignment ≥ cfg.maxOffset

/-- The next turn meets an instruction at the end of the image that does not decode. -/
def failsAtEnd (cfg : Config) (env : Env) (s : Session) : Prop :=
  ∃ u, nextSession cfg s = some u ∧ failsHere cfg env u

/-- An image in memory, an observer and a decoder that answer every question. -/
structure InMemory (cfg : Config) (env : Env) : Prop where
  moveTo : env.moveTo = memoryMoveTo cfg.maxOffset
  observer : ∀ s, ∃ b, (env.answers s).needReset = .ok b

/-- The move past an instruction that did not decode. -/
theorem moveTo_next {cfg : Config} {env : Env} (henv : InMemory cfg env) {u : Session}
    (hlt : u.offset < cfg.maxOffset) :
    env.moveTo (wrap (u.offset + (env.answers u).alignment)) =
      if u.offset + (env.answers u).alignment ≥ cfg.maxOffset then .error .endOfStream
      else .ok () := by
  have hle := (env.answers u).alignment_le
  have hmax := cfg.maxOffset_le
  rw [henv.moveTo, memoryMoveTo, wrap, Nat.mod_eq_of_lt (by omega)]

theorem analyzeOffset_fine {cfg : Config} {env : Env} (henv : InMemory cfg env) {u : Session}
    (hfu : Fine cfg u) (hlt : u.offset < cfg.maxOffset) :
    (analyzeOffset cfg env u = .inr (.error .endOfStream) ∧ failsHere cfg env u) ∨
      ∃ t, analyzeOffset cfg env u = .inl t ∧ Fine cfg t ∧ ¬ failsHere cfg env u := by
  have hru : Fine cfg (rollbackCurrentRoute u) := rollback_fine hfu
  -- an instruction that decodes is analysed without an error
  have hanalyze : ∀ next, ∃ t, analyzeInstruction cfg (env.answers u) u next = .inl t ∧
      Fine cfg t := by
    intro next
    obtain ⟨t, ht, hft⟩ := analyzeAndConstruct_fine next hfu hlt (henv.observer u)
    refine ⟨endTurn cfg (env.answers u).arm t, ?_, endTurn_fine _ hft⟩
    rw [analyzeInstruction, ht]
  unfold analyzeOffset
  simp only
  split
  · next hmis =>
    right
    have hno : ¬ failsHere cfg env u := fun hf => by rw [hf.1] at hmis; cases hmis
    split
    · exact ⟨_, rfl, ⟨hru.pool, hru.size, hru.stack⟩, hno⟩
    · exact ⟨_, rfl, ⟨hfu.pool, hfu.size, hfu.stack⟩, hno⟩
  · next hmis =>
    split
    · next e hparse =>
      split
      · next hstrict =>
        exact Or.inr ⟨_, rfl, ⟨hru.pool, hru.size, hru.stack⟩,
          fun hf => by rw [hf.2.2.1] at hstrict; cases hstrict⟩
      · next hstrict =>
        rw [moveTo_next henv hlt]
        by_cases hend : u.offset + (env.answers u).alignment ≥ cfg.maxOffset
        · rw [if_pos hend]
          exact Or.inl ⟨rfl, by simpa using hmis, ⟨e, hparse⟩, by simpa using hstrict, hend⟩
        · rw [if_neg hend]
          exact Or.inr ⟨_, rfl, ⟨hfu.pool, hfu.size, hfu.stack⟩, fun hf => hend hf.2.2.2⟩
    · next size hparse =>
      right
      have hno : ¬ failsHere cfg env u := by
        rintro ⟨-, ⟨e, he⟩, -⟩
        rw [he] at hparse
        cases hparse
      split
      · split
        · split
          · exact ⟨_, rfl, ⟨hru.pool, hru.size, hru.stack⟩, hno⟩
          · exact ⟨_, rfl, ⟨hfu.pool, hfu.size, hfu.stack⟩, hno⟩
        · split
          · exact ⟨_, rfl, ⟨hfu.pool, hfu.size, hfu.stack⟩, hno⟩
          · obtain ⟨t, ht, hft⟩ := hanalyze (wrap (u.offset + size))
            exact ⟨t, ht, hft, hno⟩
      · obtain ⟨t, ht, hft⟩ := hanalyze (wrap (u.offset + size))
        exact ⟨t, ht, hft, hno⟩

/-- A turn fails at the end of the image, and only there. -/
theorem iterate_fine {cfg : Config} {env : Env} (henv : InMemory cfg env) {s : Session}
    (h : Fine cfg s) :
    (iterate cfg env s = .inr (.error .endOfStream) ∧ failsAtEnd cfg env s) ∨
      (iterate cfg env s = .inr (.ok s.owner) ∧ ¬ failsAtEnd cfg env s) ∨
      ∃ t, iterate cfg env s = .inl t ∧ Fine cfg t ∧ ¬ failsAtEnd cfg env s := by
  -- the turn once its session is known
  have hturn : ∀ v : Session, Fine cfg v → v.offset < cfg.maxOffset →
      iterate cfg env s = analyzeOffset cfg env v → nextSession cfg s = some v →
      (iterate cfg env s = .inr (.error .endOfStream) ∧ failsAtEnd cfg env s) ∨
        (iterate cfg env s = .inr (.ok s.owner) ∧ ¬ failsAtEnd cfg env s) ∨
        ∃ t, iterate cfg env s = .inl t ∧ Fine cfg t ∧ ¬ failsAtEnd cfg env s := by
    intro v hv hlt hit hnext
    have hiff : failsAtEnd cfg env s ↔ failsHere cfg env v := by
      constructor
      · rintro ⟨u, hu, hf⟩
        rw [hnext] at hu
        cases hu
        exact hf
      · exact fun hf => ⟨_, hnext, hf⟩
    rw [hit, hiff]
    rcases analyzeOffset_fine henv hv hlt with ⟨h1, h2⟩ | ⟨t, h1, h2, h3⟩
    · exact Or.inl ⟨h1, h2⟩
    · exact Or.inr (Or.inr ⟨t, h1, h2, h3⟩)
  by_cases hgo : s.offset ≥ cfg.maxOffset ∨ s.needReset = true
  · cases hstack : s.stack with
    | nil =>
      refine Or.inr (Or.inl ⟨by rw [iterate, if_pos hgo, hstack], ?_⟩)
      rintro ⟨u, hu, -⟩
      rw [nextSession, if_pos hgo, hstack] at hu
      cases hu
    | cons route rest =>
      have hlt : route.startOffset < cfg.maxOffset := h.stack route (by rw [hstack]; simp)
      have hmove : env.moveTo route.startOffset = .ok () := by
        rw [henv.moveTo, memoryMoveTo, if_neg (Nat.not_le.mpr hlt)]
      refine hturn
        { s with stack := rest, curRoute := route, offset := route.startOffset, needReset := false }
        ⟨h.pool, h.size, fun r hr => h.stack r (by rw [hstack]; exact List.mem_cons_of_mem _ hr)⟩
        hlt ?_ ?_
      · rw [iterate, if_pos hgo, hstack]
        simp only [hmove]
      · rw [nextSession, if_pos hgo, hstack]
  · refine hturn { s with needReset := false } ⟨h.pool, h.size, h.stack⟩
      (Nat.lt_of_not_le (not_or.mp hgo).1) ?_ ?_
    · rw [iterate, if_neg hgo]
    · rw [nextSession, if_neg hgo]

/-! ## The analysis -/

variable {cfg : Config} {env : Nat → Env} {owner : Owner} {entry : Nat}

/-- Every session the analysis reaches is in order. -/
theorem analyzeCodeImpl_fine (henv : ∀ k, InMemory cfg (env k)) (hpool : owner.PoolOk)
    (hsize : cfg.maxOffset ≤ owner.maxSize) {n : Nat} {s : Session}
    (h : analyzeCodeImpl cfg env owner entry n = .inl s) : Fine cfg s := by
  have hstart : Fine cfg (startSession owner entry) :=
    ⟨hpool, hsize, fun _ hr => absurd hr List.not_mem_nil⟩
  refine runFrom_inv (P := Fine cfg) ?_ hstart h
  intro k u t hu ht
  rcases iterate_fine (henv k) hu with ⟨h1, -⟩ | ⟨h1, -⟩ | ⟨v, h1, h2, -⟩
  · rw [h1] at ht
    cases ht
  · rw [h1] at ht
    cases ht
  · rw [h1] at ht
    cases ht
    exact h2

/-- Analysing an image in memory from an entry inside it succeeds if and only if no turn meets an
instruction at the very end of the image that does not decode, on a route that need not prove it is
code. -/
theorem analyzeCodeEx2_succeeds_iff (henv : ∀ k, InMemory cfg (env k)) (hpool : owner.PoolOk)
    (hsize : cfg.maxOffset ≤ owner.maxSize) (hentry : entry < cfg.maxOffset)
    (hnew : owner.getInstruction entry = none) :
    (∃ n found, analyzeCodeEx2 cfg (memoryMoveTo cfg.maxOffset) env owner entry n =
        .inr (.ok found)) ↔
      ∀ n s, analyzeCodeImpl cfg env owner entry n = .inl s → ¬ failsAtEnd cfg (env n) s := by
  have hex : ∀ n, analyzeCodeEx2 cfg (memoryMoveTo cfg.maxOffset) env owner entry n =
      analyzeCodeImpl cfg env owner entry n := by
    intro n
    rw [analyzeCodeEx2, hnew, memoryMoveTo, if_neg (Nat.not_le.mpr hentry)]
  simp only [hex]
  constructor
  · rintro ⟨n, found, hn⟩ m s hm hf
    have herr : iterate cfg (env m) s = .inr (.error .endOfStream) := by
      rcases iterate_fine (henv m) (analyzeCodeImpl_fine henv hpool hsize hm) with
        ⟨h1, -⟩ | ⟨-, h2⟩ | ⟨t, -, -, h2⟩
      · exact h1
      · exact absurd hf h2
      · exact absurd hf h2
    have hlast : analyzeCodeImpl cfg env owner entry (m + 1) = .inr (.error .endOfStream) := by
      rw [analyzeCodeImpl, runFrom_succ hm, Nat.zero_add, herr]
    cases runFrom_inr_unique hn hlast
  · intro hno
    obtain ⟨n, status, hn⟩ := analyzeCodeImpl_terminates cfg env owner entry
    obtain ⟨m, t, -, hrun, hlast⟩ := exists_last hn
    rw [Nat.zero_add] at hlast
    refine ⟨n, t.owner, hn.trans ?_⟩
    rcases iterate_fine (henv m) (analyzeCodeImpl_fine henv hpool hsize hrun) with
      ⟨-, h2⟩ | ⟨h1, -⟩ | ⟨u, h1, -, -⟩
    · exact absurd h2 (hno m t hrun)
    · rw [← hlast, h1]
    · rw [h1] at hlast
      cases hlast

/-- An image of one byte. -/
def oneByte : Config := ⟨1, by decide, true, false⟩

/-- The outside for an image of one byte that decodes to `parse` and ends the route. -/
def oneByteEnv (parse : Except Status Nat) : Env where
  moveTo := memoryMoveTo 1
  answers _ := ⟨false, parse, {}, 1, by decide, by decide, [.note .isRet], .ok true, false⟩

/-- A lone `ret`. -/
theorem analyzeCodeEx2_ret :
    (∃ n found, analyzeCodeEx2 oneByte (memoryMoveTo 1) (fun _ => oneByteEnv (.ok 1))
        (Owner.init 1 0) 0 n = .inr (.ok found)) ↔
      ∀ n s, analyzeCodeImpl oneByte (fun _ => oneByteEnv (.ok 1)) (Owner.init 1 0) 0 n = .inl s →
        ¬ failsAtEnd oneByte (oneByteEnv (.ok 1)) s :=
  analyzeCodeEx2_succeeds_iff (fun _ => ⟨rfl, fun _ => ⟨true, rfl⟩⟩) (poolOk_init 1 0) (by decide)
    (by decide) rfl

/-- The byte `0F` alone starts an instruction and does not end it: the analysis fails. -/
theorem analyzeCodeEx2_truncated :
    ¬ ∃ n found, analyzeCodeEx2 oneByte (memoryMoveTo 1)
      (fun _ => oneByteEnv (.error .endOfStream)) (Owner.init 1 0) 0 n = .inr (.ok found) := by
  rintro ⟨n, found, h⟩
  have h1 : analyzeCodeEx2 oneByte (memoryMoveTo 1) (fun _ => oneByteEnv (.error .endOfStream))
      (Owner.init 1 0) 0 1 = .inr (.error .endOfStream) := rfl
  cases runFrom_inr_unique h h1

end Diana.Analyze
