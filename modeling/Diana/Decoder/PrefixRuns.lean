import Diana.Decoder.ParseCmd

/-!
# Runs of prefixes

What the decoder makes of a run of prefix bytes before an opcode. It goes through the run byte by
byte, lists the legacy prefixes and drops a REX before one of them; the opcode is looked up in a
state that only depends on the last occurrences of the prefixes, on the REX at the end and on the
bytes behind the run. A REX directly before another REX is taken for the last prefix instead, and
the second one for the opcode.

* `parsePrefixes_run`, `parseRun_run`: the loop and what is behind it, for every run without such a
  pair;
* `behindRun_copy`, `sameOutcome_copy`: an earlier copy of a prefix changes nothing;
* `prefixes_iff`: the law of the prefix list, and when it holds.
-/

namespace Diana.Decoder

open Diana.Lib

/-! ## The cache -/

namespace Feed

variable {f : Feed}

/-- The cache between two instructions, and in the loop over the prefixes: nothing is in the
reserved bytes. -/
def Ready (f : Feed) : Prop := cacheReserved ≤ f.cacheIt ∧ f.cacheIt + f.cached.length ≤ cacheLength

theorem read_bytes (f : Feed) (n : Nat) : (f.read n).bytes = f.bytes := by
  simp [read, bytes]

theorem read_zero (f : Feed) : f.read 0 = f := by
  simp [read]

/-- Where the cache begins after `Diana_ReadCache`. -/
def fillAt (f : Feed) (optimize : Bool) : Nat :=
  if optimize = true ∨ f.cacheIt ≥ cacheLength then cacheReserved else f.cacheIt

theorem fill_eq (f : Feed) (optimize : Bool) :
    f.fill optimize =
      { f with cacheIt := f.fillAt optimize }.read
      (cacheLength - f.cached.length - f.fillAt optimize) := by
  have hstart : (if (if optimize then { f with cacheIt := cacheReserved } else f).cacheIt ≥
      cacheLength then
      { (if optimize then { f with cacheIt := cacheReserved } else f) with
        cacheIt := cacheReserved }
      else (if optimize then { f with cacheIt := cacheReserved } else f)) =
        { f with cacheIt := f.fillAt optimize } := by
    unfold fillAt
    cases optimize with
    | true => simp [cacheReserved, cacheLength]
    | false =>
      by_cases h : f.cacheIt ≥ cacheLength
      · simp [h]
      · simp [h]
  unfold fill
  simp only [hstart]
  split
  · rfl
  · rw [show cacheLength - f.cached.length - f.fillAt optimize = 0 by omega, read_zero]

theorem fill_bytes (f : Feed) (optimize : Bool) : (f.fill optimize).bytes = f.bytes := by
  rw [fill_eq, read_bytes]
  rfl

theorem Ready.fillAt_le (h : f.Ready) (optimize : Bool) :
    cacheReserved ≤ f.fillAt optimize ∧ f.fillAt optimize < cacheLength ∧
      f.fillAt optimize + f.cached.length ≤ cacheLength := by
  obtain ⟨hit, hend⟩ := h
  unfold fillAt
  by_cases h : optimize = true ∨ f.cacheIt ≥ cacheLength
  · rw [if_pos h]
    simp only [cacheReserved, cacheLength] at *
    omega
  · rw [if_neg h]
    simp only [cacheReserved, cacheLength] at *
    omega

theorem Ready.fill (h : f.Ready) (optimize : Bool) : (f.fill optimize).Ready := by
  obtain ⟨hit, -, hend⟩ := h.fillAt_le optimize
  rw [fill_eq]
  refine ⟨hit, ?_⟩
  simp only [read, List.length_append, List.length_take]
  omega

/-- After a fill there is a byte in the cache, if there is one at all. -/
theorem Ready.head?_fill (h : f.Ready) (optimize : Bool) :
    (f.fill optimize).cached.head? = f.bytes.head? := by
  obtain ⟨-, hlt, -⟩ := h.fillAt_le optimize
  rw [fill_eq]
  simp only [read, bytes]
  cases hc : f.cached with
  | cons b rest => rfl
  | nil =>
    obtain ⟨n, hn⟩ : ∃ n, cacheLength - ([] : List Byte).length - f.fillAt optimize = n + 1 :=
      ⟨cacheLength - f.fillAt optimize - 1, by simp only [List.length_nil]; omega⟩
    rw [hn]
    cases f.unread <;> rfl

/-- `Diana_ReadCache` with `bOptimize`: the cache only depends on the bytes there are. -/
theorem Ready.fill_true (h : f.Ready) :
    f.fill true = ⟨cacheReserved, f.bytes.take 5, f.bytes.drop 5⟩ := by
  obtain ⟨hit, hend⟩ := h
  have hlen : f.cached.length ≤ 5 := by
    simp only [cacheReserved, cacheLength] at hit hend
    omega
  have hn : cacheLength - f.cached.length - f.fillAt true = 5 - f.cached.length := by
    simp only [fillAt, cacheReserved, cacheLength, true_or, if_true]
    omega
  rw [fill_eq, hn]
  simp only [fillAt, true_or, if_true, read, bytes, mk.injEq, true_and]
  rw [List.take_append, List.drop_append, List.take_of_length_le hlen, List.drop_of_length_le hlen,
    List.nil_append]
  exact ⟨rfl, rfl⟩

/-- The cache without its first byte. -/
def eaten (f : Feed) : Feed := { f with cacheIt := f.cacheIt + 1, cached := f.cached.tail }

theorem Ready.eaten (h : f.Ready) {b : Byte} {rest : List Byte} (hb : f.cached = b :: rest) :
    f.eaten.Ready ∧ f.eaten.bytes = rest ++ f.unread := by
  obtain ⟨hit, hend⟩ := h
  rw [hb] at hend
  refine ⟨⟨?_, ?_⟩, ?_⟩
  · exact Nat.le_succ_of_le hit
  · simp only [Feed.eaten, hb, List.tail_cons, List.length_cons] at hend ⊢
    omega
  · simp [Feed.eaten, bytes, hb]

end Feed

/-! ## The loop over the prefixes -/

section Loop

variable {n : Nat} {c : Context} {f : Feed} {b : Byte} {rest : List Byte}

/-- At the end of the stream the loop fails. -/
theorem parsePrefixes_of_bytes_eq_nil (first nop : Bool) (hb : f.bytes = []) :
    parsePrefixes (n + 1) first nop ⟨c, f⟩ = .error (.status .ended) ⟨c, f.fill false⟩ := by
  have hfill : (f.fill false).cached = [] :=
    (List.append_eq_nil_iff.1 ((f.fill_bytes false).trans hb)).1
  have hread : readCache false ⟨c, f⟩ = .error (.status .ended) ⟨c, f.fill false⟩ := by
    simp [readCache, hfill]
  rw [parsePrefixes, bind_apply, hread]

/-- One turn of the loop: a byte is taken, and what is behind it is where it was. -/
theorem parsePrefixes_succ (first nop : Bool) (hf : f.Ready) (hb : f.bytes = b :: rest) :
    ∃ g : Feed, g.Ready ∧ g.bytes = rest ∧
      parsePrefixes (n + 1) first nop ⟨c, f⟩ =
        if (first || !nop) && b == 0x90 then .ok none ⟨c, g⟩
        else if isCustomPrefix b then
          match insertPrefix c b false with
          | .error e => .error (.status e) ⟨c, g⟩
          | .ok d => parsePrefixes n false (nop || canNotBeUsedWithRep b) ⟨d, g⟩
        else if c.amd64Mode && isRex b then
          if rest.head?.any isCustomPrefix then
            parsePrefixes n false (nop || canNotBeUsedWithRep b) ⟨c, g.fill false⟩
          else .ok (some b) ⟨c, g.fill false⟩
        else .ok (some b) ⟨c, g⟩ := by
  have hhead := hf.head?_fill false
  have hfb := f.fill_bytes false
  rw [hb] at hhead hfb
  obtain ⟨l, hl⟩ : ∃ l, (f.fill false).cached = b :: l := by
    cases hc : (f.fill false).cached with
    | nil =>
      rw [hc] at hhead
      cases hhead
    | cons a l =>
      rw [hc] at hhead
      cases hhead
      exact ⟨l, rfl⟩
  obtain ⟨hg, hgb⟩ := (hf.fill false).eaten hl
  rw [Feed.bytes, hl] at hfb
  have hrest : l ++ (f.fill false).unread = rest := (List.cons.inj hfb).2
  rw [hrest] at hgb
  refine ⟨_, hg, hgb, ?_⟩
  have hlook := hg.head?_fill false
  rw [hgb] at hlook
  have heaten : (f.fill false).eaten = ⟨(f.fill false).cacheIt + 1, l, (f.fill false).unread⟩ := by
    simp [Feed.eaten, hl]
  have hread : readCache false ⟨c, f⟩ = .ok () ⟨c, f.fill false⟩ := by
    simp [readCache, hl]
  have heat : cacheEatOne ⟨c, f.fill false⟩ = .ok b ⟨c, (f.fill false).eaten⟩ := by
    simp only [cacheEatOne, bind_apply, get_apply, hl, heaten]
    rfl
  rw [parsePrefixes, bind_apply, hread]
  simp only [bind_apply, heat]
  generalize (f.fill false).eaten = g at hlook
  rw [ite_apply']
  split
  · rfl
  · rw [ite_apply']
    split
    · simp only [bind_apply, get_apply]
      cases insertPrefix c b false <;> rfl
    · simp only [bind_apply, get_apply]
      rw [ite_apply']
      split
      · simp only [bind_apply, get_apply, setFeed_apply, hlook]
        rw [ite_apply']
        split <;> rfl
      · rfl

end Loop

/-! ## Runs -/

/-- The byte is a prefix: a legacy one, or REX in 64-bit mode. -/
def isPrefix (long : Bool) (value : Byte) : Bool := isCustomPrefix value || long && isRex value

/-- No REX stands directly before another one. -/
def NoRexPair (l : List Byte) : Prop := l.IsChain fun a b => ¬ (isRex a = true ∧ isRex b = true)

instance (l : List Byte) : Decidable (NoRexPair l) := inferInstanceAs (Decidable (List.IsChain _ l))

/-- The legacy prefixes of a run. -/
def customs (l : List Byte) : List Byte := l.filter isCustomPrefix

/-- The REX at the end of a run. -/
def rexOf (l : List Byte) : Option Byte := l.getLast?.filter isRex

/-- What the loop returns for a run before `op`. -/
def runResult (nop : Bool) (l : List Byte) (op : Byte) : Option Byte :=
  match rexOf l with
  | some rex => some rex
  | none => if op = 0x90 ∧ (nop || l.any canNotBeUsedWithRep) = false then none else some op

section Runs

variable {n : Nat} {c : Context} {f : Feed} {l k tail : List Byte} {op b : Byte}

theorem ne_nop_of_isPrefix {long : Bool} (h : isPrefix long b = true) : b ≠ 0x90 := by
  revert h
  cases long <;> revert b <;> decide

theorem not_isRex_of_isCustomPrefix (h : isCustomPrefix b = true) : isRex b = false := by
  revert h
  revert b
  decide

theorem rexOf_cons_of_ne_nil (b : Byte) (h : l ≠ []) : rexOf (b :: l) = rexOf l := by
  rw [rexOf, rexOf, List.getLast?_cons_of_ne_nil h]

theorem rexOf_cons_custom (h : isCustomPrefix b = true) : rexOf (b :: l) = rexOf l := by
  cases l with
  | nil => simp [rexOf, Option.filter, not_isRex_of_isCustomPrefix h]
  | cons a l => exact rexOf_cons_of_ne_nil b (List.cons_ne_nil a l)

theorem runResult_cons {nop : Bool} (hrex : rexOf (b :: l) = rexOf l) :
    runResult nop (b :: l) op = runResult (nop || canNotBeUsedWithRep b) l op := by
  unfold runResult
  rw [hrex, List.any_cons, Bool.or_assoc]

/-- The loop over a run without two REX in a row, up to the byte behind it. -/
theorem parsePrefixes_run (first nop : Bool) (hf : f.Ready) (hb : f.bytes = l ++ op :: tail)
    (hl : ∀ b ∈ l, isPrefix c.amd64Mode b = true) (hpair : NoRexPair l)
    (hop : isCustomPrefix op = false)
    (hrex : (rexOf l).isSome = true ∨ (c.amd64Mode && isRex op) = false) (hn : l.length < n)
    (hc : Listed c k) (hk : ∀ v ∈ k, isCustomPrefix v = true)
    (hfirst : first = true → nop = false) :
    ∃ d g, parsePrefixes n first nop ⟨c, f⟩ = .ok (runResult nop l op) ⟨d, g⟩ ∧
      Listed d (k ++ customs l) ∧ d.bare = c.bare ∧ g.Ready ∧
        g.bytes = if (rexOf l).isSome then op :: tail else tail := by
  obtain ⟨n, rfl⟩ : ∃ m, n = m + 1 := ⟨n - 1, by omega⟩
  induction l generalizing n first nop c f k with
  | nil =>
    obtain ⟨g, hg, hgb, hstep⟩ := parsePrefixes_succ (n := n) (c := c) first nop hf hb
    have hnop : (first || !nop) = !nop := by
      cases first with
      | false => rfl
      | true => simp [hfirst rfl]
    have hlong : (c.amd64Mode && isRex op) = false := by
      rcases hrex with h | h
      · cases h
      · exact h
    rw [hstep, hnop]
    refine ⟨c, g, ?_, by simpa [customs] using hc, rfl, hg, hgb⟩
    simp only [hop, hlong, Bool.false_eq_true, if_false, runResult, rexOf, List.getLast?_nil,
      Option.filter, List.any_nil, Bool.or_false]
    cases nop with
    | true => simp
    | false =>
      by_cases h90 : op = 0x90
      · subst h90
        rfl
      · have hne : (op == 0x90) = false := beq_eq_false_iff_ne.2 h90
        rw [hne, if_neg (by simp), if_neg fun h => h90 h.1]
  | cons b l ih =>
    have hpre := hl b List.mem_cons_self
    have hl' : ∀ v ∈ l, isPrefix c.amd64Mode v = true :=
      fun v hv => hl v (List.mem_cons_of_mem _ hv)
    have hpair' : NoRexPair l := List.IsChain.of_cons hpair
    obtain ⟨m, rfl⟩ : ∃ m, n = m + 1 := ⟨n - 1, by simp only [List.length_cons] at hn; omega⟩
    have hm : l.length < m + 1 := by
      simp only [List.length_cons] at hn
      omega
    rw [List.cons_append] at hb
    obtain ⟨g, hg, hgb, hstep⟩ := parsePrefixes_succ (n := m + 1) (c := c) first nop hf hb
    have h90 : (b == 0x90) = false := beq_eq_false_iff_ne.2 (ne_nop_of_isPrefix hpre)
    rw [hstep]
    simp only [h90, Bool.and_false, Bool.false_eq_true, if_false]
    by_cases hcb : isCustomPrefix b = true
    · -- a legacy prefix is listed
      obtain ⟨d, hd, hld, hbare⟩ := insertPrefix_custom b hc hk
      have hlong : d.amd64Mode = c.amd64Mode := by
        have : d.bare.amd64Mode = c.bare.amd64Mode := by rw [hbare]
        exact this
      simp only [hcb, if_true, hd]
      obtain ⟨d', g', hrun, hld', hbare', hg', hgb'⟩ := ih (k := k ++ [b]) false
        (nop || canNotBeUsedWithRep b) hg hgb (hlong ▸ hl') hpair'
        (by rw [← rexOf_cons_custom hcb, hlong]; exact hrex) hld
        (by simpa [or_imp, forall_and, hcb] using hk) (fun h => Bool.noConfusion h) m hm
      refine ⟨d', g', ?_, ?_, hbare'.trans hbare, hg', ?_⟩
      · rw [hrun, runResult_cons (rexOf_cons_custom hcb)]
      · simpa [customs, hcb] using hld'
      · rw [rexOf_cons_custom hcb]
        exact hgb'
    · -- a REX
      have hr : (c.amd64Mode && isRex b) = true := by
        rw [isPrefix, Bool.or_eq_true] at hpre
        exact hpre.resolve_left hcb
      have hrb : isRex b = true := (Bool.and_eq_true_iff.1 hr).2
      rw [if_neg hcb, if_pos hr]
      cases l with
      | nil =>
        refine ⟨c, g.fill false, ?_, ?_, rfl, hg.fill false, ?_⟩
        · simp [hop, runResult, rexOf, Option.filter, hrb]
        · simpa [customs, hcb] using hc
        · rw [Feed.fill_bytes, hgb]
          simp [rexOf, Option.filter, hrb]
      | cons b' l =>
        have hb' : isCustomPrefix b' = true := by
          have hnot := (List.isChain_cons_cons.1 hpair).1
          have := hl' b' List.mem_cons_self
          rw [isPrefix, Bool.or_eq_true, Bool.and_eq_true] at this
          exact this.resolve_right fun h => hnot ⟨hrb, h.2⟩
        have hrexOf := rexOf_cons_of_ne_nil b (List.cons_ne_nil b' l)
        rw [List.cons_append, List.head?_cons, Option.any_some, if_pos hb']
        obtain ⟨d', g', hrun, hld', hbare', hg', hgb'⟩ := ih false
          (nop || canNotBeUsedWithRep b) (hg.fill false) ((Feed.fill_bytes g false).trans hgb) hl'
          hpair' (by rw [← hrexOf]; exact hrex) hc hk (fun h => Bool.noConfusion h) m hm
        refine ⟨d', g', ?_, ?_, hbare', hg', ?_⟩
        · rw [hrun, runResult_cons hrexOf]
        · simpa [customs, hcb] using hld'
        · rw [hrexOf]
          exact hgb'

/-- The context behind a run: the last occurrences of the legacy prefixes, and the REX at the
end. -/
def behindRun (c : Context) (l : List Byte) : Context :=
  { resetPrefixes c with
    prefixes := (customs l).dedup ++ (rexOf l).toList
    lastPrefixBeforeRex := if customs l = [] then none else some ((customs l).dedup.length - 1)
    rexPrefixValue := (rexOf l).getD 0 }

/-- What `parseRun` returns for a run before `op`. -/
def runOpcode (l : List Byte) (op : Byte) : Option (Option Byte) :=
  (runResult false l op).map fun data => if (rexOf l).isSome then none else some data

/-- Where the first part of the decoder stops. -/
def runRest (l : List Byte) (op : Byte) (tail : List Byte) : List Byte :=
  if (rexOf l).isSome then op :: tail else tail

theorem eq_of_bare {c d : Context} (h : c.bare = d.bare) :
    c = { d with prefixes := c.prefixes, lastPrefixBeforeRex := c.lastPrefixBeforeRex } := by
  have hc : c = { c.bare with
      prefixes := c.prefixes, lastPrefixBeforeRex := c.lastPrefixBeforeRex } := rfl
  rw [h] at hc
  exact hc

theorem listed_resetPrefixes (c : Context) : Listed (resetPrefixes c) [] := ⟨rfl, rfl⟩

theorem isRex_of_rexOf {rex : Byte} (h : rexOf l = some rex) : isRex rex = true ∧ rex ∈ l := by
  obtain ⟨hlast, hrex⟩ := Option.filter_eq_some_iff.1 h
  exact ⟨hrex, List.mem_of_getLast? hlast⟩

/-- The first part of the decoder over a run without two REX in a row: what it leaves depends on the
run only through the last occurrences. -/
theorem parseRun_run (hf : f.Ready) (hb : f.bytes = l ++ op :: tail)
    (hl : ∀ b ∈ l, isPrefix c.amd64Mode b = true) (hpair : NoRexPair l)
    (hop : isCustomPrefix op = false)
    (hrex : (rexOf l).isSome = true ∨ (c.amd64Mode && isRex op) = false)
    (hn : l.length ≤ maxPrefixesCount) :
    ∃ g, parseRun ⟨c, f⟩ = .ok (runOpcode l op) ⟨behindRun c l, g⟩ ∧ g.bytes = runRest l op tail ∧
      (runOpcode l op ≠ none → g = ⟨cacheReserved, g.bytes.take 5, g.bytes.drop 5⟩) := by
  obtain ⟨d, g, hrun, hd, hbare, hg, hgb⟩ :=
    parsePrefixes_run (c := resetPrefixes c) (k := []) true false
    hf hb hl hpair hop hrex (Nat.lt_succ_of_le hn) (listed_resetPrefixes c) (by simp) (by simp)
  rw [List.nil_append] at hd
  have hlong : d.amd64Mode = c.amd64Mode := by
    have : d.bare.amd64Mode = (resetPrefixes c).bare.amd64Mode := by rw [hbare]
    exact this
  have hdeq := eq_of_bare hbare
  rw [hd.prefixes, hd.last] at hdeq
  cases hr : rexOf l with
  | some rex =>
    obtain ⟨hisRex, hmem⟩ := isRex_of_rexOf hr
    have hlongRex : (d.amd64Mode && isRex rex) = true := by
      have hp := hl rex hmem
      rw [isPrefix, not_isCustomPrefix_of_isRex hisRex, Bool.false_or] at hp
      rw [hlong]
      exact hp
    have hinsert := insertPrefix_rex (c := { d with rexPrefixValue := rex }) (l := customs l)
      ⟨hd.prefixes, hd.last⟩ (fun v hv => (List.mem_filter.1 hv).2) hisRex
    rw [hr] at hgb
    have hfill := hg.fill_true
    have hread : ∀ e : Context, readCache true ⟨e, g⟩ = .ok () ⟨e, g.fill true⟩ := by
      intro e
      have hne : (g.fill true).cached ≠ [] := by
        rw [hfill, hgb]
        simp
      simp [readCache, hne]
    refine ⟨g.fill true, ?_, ?_, fun _ => ?_⟩
    · simp only [parseRun, bind_apply, get_apply, setContext_apply, hrun, runResult, hr, ite_apply',
        if_pos hlongRex, hinsert, hread, pure_apply, runOpcode, behindRun, Option.map_some,
        Option.isSome_some, if_true, Option.toList_some, Option.getD_some]
      rw [hdeq]
    · rw [Feed.fill_bytes, hgb, runRest, hr]
    · rw [Feed.fill_bytes]
      exact hfill
  | none =>
    have hnotRex : (d.amd64Mode && isRex op) = false := by
      rw [hlong]
      exact hrex.resolve_left (by simp [hr])
    rw [hr] at hgb
    have hctx : d = behindRun c l := by
      rw [hdeq, behindRun, hr]
      simp [resetPrefixes]
    rw [hctx] at hnotRex
    by_cases hnop : op = 0x90 ∧ (false || l.any canNotBeUsedWithRep) = false
    · have hres : runResult false l op = none := by rw [runResult, hr]; exact if_pos hnop
      rw [hres] at hrun
      refine ⟨g, ?_, ?_, fun h => ?_⟩
      · simp only [parseRun, bind_apply, get_apply, setContext_apply, hrun, pure_apply,
          runOpcode, hres, Option.map_none, hctx]
      · rw [hgb, runRest, hr]
      · simp [runOpcode, hres] at h
    · have hres : runResult false l op = some op := by rw [runResult, hr]; exact if_neg hnop
      rw [hres] at hrun
      refine ⟨g.fill true, ?_, ?_, fun _ => ?_⟩
      · simp only [parseRun, bind_apply, get_apply, setContext_apply, setFeed_apply, hrun,
          pure_apply, runOpcode, hres, ite_apply', hnotRex, Bool.false_eq_true, if_false,
          Option.map_some, hr, Option.isSome_none, hctx]
      · rw [Feed.fill_bytes, hgb, runRest, hr]
      · rw [Feed.fill_bytes]
        exact hg.fill_true

/-- A run with two REX in a row, up to the first of them. -/
theorem exists_rexPair (h : ¬ NoRexPair l) :
    ∃ u r r' v, l = u ++ r :: r' :: v ∧ NoRexPair (u ++ [r]) ∧ isRex r = true ∧
    isRex r' = true := by
  induction l with
  | nil => exact absurd List.IsChain.nil h
  | cons b l ih =>
    cases l with
    | nil => exact absurd (List.IsChain.singleton b) h
    | cons b' l =>
      by_cases hb : isRex b = true ∧ isRex b' = true
      · exact ⟨[], b, b', l, rfl, List.IsChain.singleton b, hb.1, hb.2⟩
      · have hrest : ¬ NoRexPair (b' :: l) := fun hl => h (List.isChain_cons_cons.2 ⟨hb, hl⟩)
        obtain ⟨u, r, r', v, hl, hu, hr, hr'⟩ := ih hrest
        refine ⟨b :: u, r, r', v, by rw [hl, List.cons_append], ?_, hr, hr'⟩
        -- the byte behind `b` is the first one of `u ++ [r]`
        cases u with
        | nil =>
          obtain ⟨rfl, -⟩ := List.cons.inj hl
          exact List.isChain_cons_cons.2 ⟨hb, hu⟩
        | cons a u =>
          obtain ⟨rfl, -⟩ := List.cons.inj hl
          exact List.isChain_cons_cons.2 ⟨hb, hu⟩

theorem rexOf_concat {r : Byte} (h : isRex r = true) (u : List Byte) :
    rexOf (u ++ [r]) = some r := by
  simp [rexOf, Option.filter, h]

end Runs

/-! ## An earlier copy of a prefix -/

section Copy

variable {ps qs l : List Byte} {p op : Byte}

theorem dedup_copy (h : p ∈ qs) : (ps ++ p :: qs).dedup = (ps ++ qs).dedup := by
  rw [List.dedup_append, List.dedup_append, List.dedup_cons_of_mem h]

theorem customs_copy (h : p ∈ qs) :
    (customs (ps ++ p :: qs)).dedup = (customs (ps ++ qs)).dedup := by
  unfold customs
  rw [List.filter_append, List.filter_append]
  by_cases hp : isCustomPrefix p = true
  · rw [List.filter_cons_of_pos hp, dedup_copy (List.mem_filter.2 ⟨h, hp⟩)]
  · rw [List.filter_cons_of_neg hp]

theorem customs_copy_eq_nil (h : p ∈ qs) :
    customs (ps ++ p :: qs) = [] ↔ customs (ps ++ qs) = [] := by
  rw [← List.dedup_eq_nil (customs (ps ++ p :: qs)), customs_copy h, List.dedup_eq_nil]

theorem rexOf_copy (h : p ∈ qs) : rexOf (ps ++ p :: qs) = rexOf (ps ++ qs) := by
  have hne : qs ≠ [] := List.ne_nil_of_mem h
  unfold rexOf
  rw [List.getLast?_append_of_ne_nil _ (List.cons_ne_nil p qs), List.getLast?_cons_of_ne_nil hne,
    List.getLast?_append_of_ne_nil _ hne]

theorem any_copy (h : p ∈ qs) (test : Byte → Bool) :
    (ps ++ p :: qs).any test = (ps ++ qs).any test := by
  rw [List.any_append, List.any_append, List.any_cons]
  cases hp : test p with
  | false => rw [Bool.false_or]
  | true =>
    have hqs : qs.any test = true := List.any_eq_true.2 ⟨p, h, hp⟩
    rw [hqs, Bool.true_or]

theorem forall_mem_copy (h : p ∈ qs) {test : Byte → Bool} (hl : ∀ b ∈ ps ++ qs, test b = true) :
    ∀ b ∈ ps ++ p :: qs, test b = true := by
  intro b hb
  refine hl b ?_
  simp only [List.mem_append, List.mem_cons] at hb ⊢
  rcases hb with hb | rfl | hb
  · exact Or.inl hb
  · exact Or.inr h
  · exact Or.inr hb

/-- An earlier copy of a prefix changes nothing of what the first part of the decoder leaves. -/
theorem behindRun_copy (c : Context) (h : p ∈ qs) :
    behindRun c (ps ++ p :: qs) = behindRun c (ps ++ qs) := by
  simp only [behindRun, customs_copy h, customs_copy_eq_nil h, rexOf_copy h]

theorem runOpcode_copy (h : p ∈ qs) : runOpcode (ps ++ p :: qs) op = runOpcode (ps ++ qs) op := by
  simp only [runOpcode, runResult, rexOf_copy h, any_copy h]

theorem runRest_copy (h : p ∈ qs) (tail : List Byte) :
    runRest (ps ++ p :: qs) op tail = runRest (ps ++ qs) op tail := by
  simp only [runRest, rexOf_copy h]

end Copy

/-! ## The decoder over two states -/

section Same

variable {β : Type} {d : Linker β} {s t : Input}

/-- The same bytes are left. -/
def SameLeft (s t : Input) : Prop := s.feed.bytes = t.feed.bytes

/-- The same command and context, or the same error, and the same bytes are left. -/
def SameOutcome : EStateM.Result Failure Input (Command β) →
    EStateM.Result Failure Input (Command β) → Prop
  | .ok r s, .ok r' t => r' = r ∧ t.context = s.context ∧ SameLeft s t
  | .error e s, .error e' t => e' = e ∧ SameLeft s t
  | _, _ => False

/-- The same result but for its size, which is one more. -/
inductive SameDecode :
    EStateM.Result Failure Input (ParserResult β) → EStateM.Result Failure Input
    (ParserResult β) → Prop
  | ok (r : ParserResult β) (s t : Input) :
    SameDecode (.ok r s) (.ok { r with fullCmdSize := r.fullCmdSize + 1 } t)
  | error (e : Failure) (s t : Input) : SameDecode (.error e s) (.error e t)

theorem SameDecode.exists_ok {a b : EStateM.Result Failure Input (ParserResult β)}
    (h : SameDecode a b) (ha : ∃ r s, a = .ok r s) :
    ∃ r s r' t, a = .ok r s ∧ b = .ok r' t ∧ r' = { r with fullCmdSize := r.fullCmdSize + 1 } := by
  cases h with
  | ok r s t => exact ⟨r, s, _, t, rfl, rfl, rfl⟩
  | error e s t =>
    obtain ⟨r, s', h⟩ := ha
    cases h

/-- How many bytes a decoder took. -/
def taken {α : Type} (s : Input) : EStateM.Result Failure Input α → Int
  | .ok _ t => sizeBetween s.feed t.feed
  | .error _ t => sizeBetween s.feed t.feed

theorem SameOutcome.refl (r : EStateM.Result Failure Input (Command β)) : SameOutcome r r := by
  cases r with
  | ok r s => exact ⟨rfl, rfl, rfl⟩
  | error e s => exact ⟨rfl, rfl⟩

theorem sizeBetween_eq (f g : Feed) : sizeBetween f g = f.bytes.length - g.bytes.length := by
  simp only [sizeBetween, Feed.bytes, List.length_append]
  omega

theorem sizeBetween_succ {f f' g g' : Feed} (h : f'.bytes.length = f.bytes.length + 1)
    (hg : g.bytes = g'.bytes) : sizeBetween f' g' = sizeBetween f g + 1 := by
  rw [sizeBetween_eq, sizeBetween_eq, h, hg]
  omega

theorem taken_parseCmd (d : Linker β) (s : Input) :
    taken s (parseCmd d s) = taken s (parseCmdEx d s) := by
  unfold parseCmd
  cases parseCmdEx d s with
  | error e t =>
    cases e with
    | fault => rfl
    | status e =>
      dsimp only
      split <;> rfl
  | ok r t =>
    dsimp only
    split
    · rfl
    · split <;> rfl

/-- What `Diana_ParseCmd` adds to `Diana_ParseCmdEx`, from a state with one byte more. -/
theorem parseCmd_same (hlen : t.feed.bytes.length = s.feed.bytes.length + 1)
    (h : SameOutcome (parseCmdEx d s) (parseCmdEx d t))
    (hsize : taken s (parseCmd d s) < maxInstructionSize) :
    SameDecode (parseCmd d s) (parseCmd d t) := by
  rw [taken_parseCmd] at hsize
  unfold parseCmd
  cases hs : parseCmdEx d s with
  | error e s' =>
    cases ht : parseCmdEx d t with
    | ok r t' =>
      rw [hs, ht] at h
      exact h.elim
    | error e' t' =>
      rw [hs, ht] at h
      obtain ⟨rfl, hleft⟩ := h
      rw [hs] at hsize
      have hmore := sizeBetween_succ hlen hleft
      simp only [taken] at hsize
      cases e' with
      | fault => exact .error .fault s' t'
      | status e =>
        simp only [hmore, if_neg (show ¬ sizeBetween s.feed s'.feed > maxInstructionSize by omega),
          if_neg (show ¬ sizeBetween s.feed s'.feed + 1 > maxInstructionSize by omega)]
        exact .error (.status e) s' t'
  | ok r s' =>
    cases ht : parseCmdEx d t with
    | error e t' =>
      rw [hs, ht] at h
      exact h.elim
    | ok r' t' =>
      rw [hs, ht] at h
      obtain ⟨rfl, hcontext, hleft⟩ := h
      rw [hs] at hsize
      have hmore := sizeBetween_succ hlen hleft
      simp only [taken] at hsize
      simp only [hcontext, hmore,
        if_neg (show ¬ sizeBetween s.feed s'.feed > maxInstructionSize by omega),
        if_neg (show ¬ sizeBetween s.feed s'.feed + 1 > maxInstructionSize by omega)]
      split
      · exact .error (.status .invalidOpcode) s' t'
      · exact .ok _ s' t'

end Same

/-! ## The law -/

section Law

variable {β : Type} {c : Context} {f g : Feed} {ps qs l tail : List Byte} {p op : Byte}

/-- The opcode byte that the first part of the decoder took from the cache. -/
def takenOpcode : Option (Option Byte) → List Byte
  | none => [0x90]
  | some data => data.toList

/-- The prefixes of a run are listed: each at most once, in the order of their last occurrences,
with the index of the last one that is no REX; and the opcode is found behind them. -/
structure RunListed (s : Input) (l : List Byte) (op : Byte) (tail : List Byte)
    (data : Option (Option Byte)) (t : Input) : Prop where
  run : parseRun s = .ok data t
  nodup : t.context.prefixes.Nodup
  prefixes : t.context.prefixes = (customs l).dedup ++ (rexOf l).toList
  last : (t.context.lastPrefixBeforeRex.bind fun i => t.context.prefixes[i]?) = (customs l).getLast?
  opcode : takenOpcode data ++ t.feed.bytes = op :: tail

theorem getLast?_dedup (l : List Byte) : l.dedup.getLast? = l.getLast? := by
  rcases List.eq_nil_or_concat l with rfl | ⟨l, b, rfl⟩
  · rfl
  · rw [List.concat_eq_append, dedup_concat, List.getLast?_concat, List.getLast?_concat]

theorem takenOpcode_runOpcode (l : List Byte) (op : Byte) (tail : List Byte) :
    takenOpcode (runOpcode l op) ++ runRest l op tail = op :: tail := by
  cases hr : rexOf l with
  | some rex => simp [runOpcode, runResult, runRest, hr, takenOpcode]
  | none =>
    by_cases h : op = 0x90 ∧ l.any canNotBeUsedWithRep = false
    · obtain ⟨rfl, hany⟩ := h
      simp [runOpcode, runResult, runRest, hr, takenOpcode, hany]
    · have : runOpcode l op = some (some op) := by
        simp only [runOpcode, runResult, hr, Bool.false_or, if_neg h]
        rfl
      simp [this, runRest, hr, takenOpcode]

theorem nodup_behindRun (c : Context) (l : List Byte) : (behindRun c l).prefixes.Nodup := by
  refine List.nodup_append.2 ⟨List.nodup_dedup _, ?_, ?_⟩
  · cases rexOf l with
    | none => exact List.nodup_nil
    | some rex => exact List.nodup_singleton rex
  · rintro a ha b hb rfl
    have hcustom := (List.mem_filter.1 (List.mem_dedup.1 ha)).2
    have hrex := (isRex_of_rexOf (Option.mem_toList.1 hb)).1
    rw [not_isCustomPrefix_of_isRex hrex] at hcustom
    cases hcustom

theorem last_behindRun (c : Context) (l : List Byte) :
    ((behindRun c l).lastPrefixBeforeRex.bind fun i => (behindRun c l).prefixes[i]?) =
      (customs l).getLast? := by
  simp only [behindRun]
  by_cases h : customs l = []
  · simp [h]
  · have hlen : 0 < (customs l).dedup.length :=
      List.length_pos_iff.2 fun hnil => h ((List.dedup_eq_nil _).1 hnil)
    rw [if_neg h, Option.bind_some, List.getElem?_append_left (by omega),
      ← List.getLast?_eq_getElem?, getLast?_dedup]

/-- A run is listed exactly if no REX in it stands before another one. -/
theorem runListed_iff (hf : f.Ready) (hb : f.bytes = l ++ op :: tail)
    (hl : ∀ b ∈ l, isPrefix c.amd64Mode b = true) (hop : isPrefix c.amd64Mode op = false)
    (hn : l.length ≤ maxPrefixesCount) :
    (∃ data t, RunListed ⟨c, f⟩ l op tail data t) ↔ NoRexPair l := by
  obtain ⟨hcustom, hrex⟩ := Bool.or_eq_false_iff.1 hop
  constructor
  · rintro ⟨data, t, h⟩
    by_contra hpair
    -- the decoder stops at the first of two REX, with the second one as the opcode
    obtain ⟨u, r, r', v, rfl, hu, hr, hr'⟩ := exists_rexPair hpair
    have hbytes : f.bytes = (u ++ [r]) ++ r' :: (v ++ op :: tail) := by
      rw [hb]
      simp
    obtain ⟨g, hrun, hgb, -⟩ := parseRun_run (c := c) hf hbytes
      (fun b hb => hl b (by simp only [List.mem_append, List.mem_cons] at hb ⊢; tauto)) hu
      (not_isCustomPrefix_of_isRex hr') (Or.inl (by rw [rexOf_concat hr]; rfl))
      (by simp only [List.length_append, List.length_cons, List.length_nil] at hn ⊢; omega)
    obtain ⟨rfl, rfl⟩ : data = runOpcode (u ++ [r]) r' ∧ t = ⟨behindRun c (u ++ [r]), g⟩ := by
      have := h.run.symm.trans hrun
      cases this
      exact ⟨rfl, rfl⟩
    have hop := h.opcode
    rw [hgb, takenOpcode_runOpcode] at hop
    have := congrArg List.length hop
    simp only [List.length_cons, List.length_append] at this
    omega
  · intro hpair
    obtain ⟨g, hrun, hgb, -⟩ := parseRun_run (c := c) hf hb hl hpair hcustom (Or.inr hrex) hn
    exact ⟨_, _, hrun, nodup_behindRun c l, rfl,
      last_behindRun c l, by rw [hgb, takenOpcode_runOpcode]⟩

/-- Two runs with the same last occurrences. -/
theorem sameOutcome_copy (d : Linker β) (hf : f.Ready) (hg : g.Ready)
    (hfb : f.bytes = ps ++ qs ++ op :: tail) (hgb : g.bytes = ps ++ p :: qs ++ op :: tail)
    (hl : ∀ b ∈ ps ++ qs, isPrefix c.amd64Mode b = true) (hop : isPrefix c.amd64Mode op = false)
    (hp : p ∈ qs) (hn : (ps ++ p :: qs).length ≤ maxPrefixesCount)
    (hpair : NoRexPair (ps ++ qs)) (hpair' : NoRexPair (ps ++ p :: qs)) :
    SameOutcome (parseCmdEx d ⟨c, f⟩) (parseCmdEx d ⟨c, g⟩) := by
  obtain ⟨hcustom, hrex⟩ := Bool.or_eq_false_iff.1 hop
  have hn' : (ps ++ qs).length ≤ maxPrefixesCount := by
    simp only [List.length_append, List.length_cons] at hn ⊢
    omega
  have hl' : ∀ b ∈ ps ++ p :: qs, isPrefix c.amd64Mode b = true := forall_mem_copy hp hl
  obtain ⟨f', hrunf, hf', hstatef⟩ :=
    parseRun_run (c := c) hf hfb hl hpair hcustom (Or.inr hrex) hn'
  obtain ⟨g', hrung, hg', hstateg⟩ :=
    parseRun_run (c := c) hg hgb hl' hpair' hcustom (Or.inr hrex) hn
  rw [runOpcode_copy hp, behindRun_copy c hp] at hrung
  rw [runOpcode_copy hp] at hstateg
  rw [runRest_copy hp, ← hf'] at hg'
  simp only [parseCmdEx, bind_apply, hrunf, hrung]
  cases hcode : runOpcode (ps ++ qs) op with
  | none => exact ⟨rfl, rfl, hg'.symm⟩
  | some data =>
    have hsame : g' = f' := by
      rw [hstatef (by simp [hcode]), hstateg (by simp [hcode]), hg']
    rw [hsame]
    exact SameOutcome.refl _

/-- The list that `Diana_InsertPrefix` builds from the legacy prefixes, however many there are. -/
theorem foldlM_insertPrefix (hc : Listed c l) (hl : ∀ b ∈ l, isCustomPrefix b = true)
    (hqs : ∀ b ∈ qs, isCustomPrefix b = true) :
    ∃ d, qs.foldlM (fun e b => insertPrefix e b false) c = .ok d ∧ Listed d (l ++ qs) := by
  induction qs generalizing c l with
  | nil => exact ⟨c, rfl, by rwa [List.append_nil]⟩
  | cons b qs ih =>
    obtain ⟨d, hd, hlist, -⟩ := insertPrefix_custom b hc hl
    obtain ⟨e, he, hlist'⟩ := ih hlist
      (by simpa [or_imp, forall_and, hqs b List.mem_cons_self] using hl)
      (fun v hv => hqs v (List.mem_cons_of_mem _ hv))
    refine ⟨e, ?_, by simpa using hlist'⟩
    rw [List.foldlM_cons, hd]
    exact he

/-- The law of the prefixes, for a run and for the same run with an earlier copy of a prefix in it:
both are listed and the decoded instruction is the same. It holds exactly if in neither of them a
REX stands directly before another one; `Diana_InsertPrefix` alone keeps it for every sequence. -/
theorem prefixes_iff (d : Linker β) (c : Context) (f g : Feed) (ps qs tail : List Byte)
    (p op : Byte) (hf : f.Ready) (hg : g.Ready) (hfb : f.bytes = ps ++ qs ++ op :: tail)
    (hgb : g.bytes = ps ++ p :: qs ++ op :: tail)
    (hl : ∀ b ∈ ps ++ qs, isPrefix c.amd64Mode b = true) (hop : isPrefix c.amd64Mode op = false)
    (hp : p ∈ qs) (hn : (ps ++ p :: qs).length < maxInstructionSize)
    (hsize : taken ⟨c, f⟩ (parseCmd d ⟨c, f⟩) < maxInstructionSize) :
    (∀ l, (∀ b ∈ l, isCustomPrefix b = true) →
      ∃ e, l.foldlM (fun e b => insertPrefix e b false) (resetPrefixes c) = .ok e ∧ Listed e l) ∧
    (((∃ data t, RunListed ⟨c, f⟩ (ps ++ qs) op tail data t) ∧
        (∃ data t, RunListed ⟨c, g⟩ (ps ++ p :: qs) op tail data t) ∧
        SameDecode (parseCmd d ⟨c, f⟩) (parseCmd d ⟨c, g⟩)) ↔
      NoRexPair (ps ++ qs) ∧ NoRexPair (ps ++ p :: qs)) := by
  have hcount : (ps ++ p :: qs).length ≤ maxPrefixesCount := Nat.le_of_lt_succ hn
  have hcount' : (ps ++ qs).length ≤ maxPrefixesCount := by
    simp only [List.length_append, List.length_cons] at hcount ⊢
    omega
  have hl' : ∀ b ∈ ps ++ p :: qs, isPrefix c.amd64Mode b = true := forall_mem_copy hp hl
  refine ⟨fun l hc => foldlM_insertPrefix (listed_resetPrefixes c) (by simp) hc, ?_⟩
  rw [runListed_iff hf hfb hl hop hcount', runListed_iff hg hgb hl' hop hcount]
  constructor
  · rintro ⟨hpair, hpair', -⟩
    exact ⟨hpair, hpair'⟩
  · rintro ⟨hpair, hpair'⟩
    refine ⟨hpair, hpair', parseCmd_same ?_ ?_ hsize⟩
    · simp only [hfb, hgb, List.length_append, List.length_cons]
      omega
    · exact sameOutcome_copy d hf hg hfb hgb hl hop hp hcount hpair hpair'

end Law

/-! ## Two REX in a row -/

section Pair

/-- `mov`, 8B -/
def movInfo : CmdInfo := { id := 1, postbyteUsed := true }

/-- `dec`, 48 to 4F; `Diana_Init` keeps it out of 64-bit mode -/
def decInfo : CmdInfo := { id := 2, i386 := true, registerAsOpcode := true }

/-- Two entries of the opcode table. -/
def movDecTable : Table where
  root := .line false ⟨0, true⟩ 2 (fun i => if i = 0 then 0x8B else 0x48)
    (fun i => if i = 0 then .cmd movInfo else .cmd decInfo)
  isLines := rfl
  same := rfl
  depth := by
    intro i
    dsimp only
    split <;> trivial
  flagged := by
    intro i
    dsimp only
    split <;> exact ⟨rfl, trivial⟩

/-- A register operand, with its number. -/
def registerOperand (c : Context) (number : Byte) : LinkedOperand Byte where
  type := .register
  vsib := false
  vectorNumber := -1
  indexNumber := -1
  usedSize := c.currentOpsize
  rest := number

/-- The register forms of the two entries. -/
def movDec : Linker Byte where
  table := movDecTable
  nopInfo := { id := 0 }
  linkOperands c info bytes :=
    match info.postbyteUsed, bytes with
    | true, _ :: m :: _ =>
      ⟨2, c.rexPrefix, c.currentOpsize,
        .ok ⟨[registerOperand c ((m >>> 3) &&& 7), registerOperand c (m &&& 7)], false⟩⟩
    | false, b :: _ => ⟨1, c.rexPrefix, c.currentOpsize, .ok ⟨[registerOperand c (b &&& 7)], false⟩⟩
    | _, _ => ⟨bytes.length, c.rexPrefix, c.currentOpsize, .error .endOfStream⟩

/-- `Diana_InitContext` for 64-bit mode. -/
def longContext : Context where
  mainModeOpsize := 4
  currentOpsize := 4
  mainModeAddressSize := 8
  currentAddressSize := 8
  mainModeSreg := .ds
  currentSreg := .ds
  iPrefix := .none
  hasAddressSizePrefix := false
  hasOperandSizePrefix := false
  invalidState := false
  amd64Mode := true
  rexPrefix := 0
  rexPrefixValue := 0
  cache := fun _ => 0
  cacheSize := 0
  cacheIt := cacheReserved
  lastPrefixBeforeRex := none
  prefixes := []
  testMode := false
  vexPrefix := 0
  vexVVVV := 0
  evexPrefix := 0
  evexAAA := 0
  evexLL := 0

theorem prefixes_iff_opSize :
    ∃ r s r' t, parseCmd movDec ⟨longContext, ⟨2, [], [0x66, 0x8B, 0xC0]⟩⟩ = .ok r s ∧
      parseCmd movDec ⟨longContext, ⟨2, [], [0x66, 0x66, 0x8B, 0xC0]⟩⟩ = .ok r' t ∧
      r' = { r with fullCmdSize := r.fullCmdSize + 1 } := by
  have hsize : taken ⟨longContext, ⟨2, [], [0x66, 0x8B, 0xC0]⟩⟩
      (parseCmd movDec ⟨longContext, ⟨2, [], [0x66, 0x8B, 0xC0]⟩⟩) < maxInstructionSize := by decide
  have hpairs : NoRexPair ([] ++ [0x66]) ∧ NoRexPair ([] ++ 0x66 :: [0x66]) := by decide
  have hlaw := prefixes_iff movDec longContext ⟨2, [], [0x66, 0x8B, 0xC0]⟩ ⟨2, [],
      [0x66, 0x66, 0x8B, 0xC0]⟩ []
    [0x66] [0xC0] 0x66 0x8B ⟨by decide, by decide⟩ ⟨by decide, by decide⟩ rfl rfl
    (by decide) (by decide) (by decide) (by decide) hsize
  exact SameDecode.exists_ok (hlaw.2.mpr hpairs).right.right ⟨_, _, rfl⟩

/-- `mov rax, rax` with a copy of its REX in front is no command to the decoder: the copy is the REX
and the REX the opcode, which has no command in 64-bit mode. -/
theorem rexPair_is_error :
    ∃ r s t, parseCmd movDec ⟨longContext, ⟨2, [], [0x48, 0x8B, 0xC0]⟩⟩ = .ok r s ∧
      r.command.info = movInfo ∧ r.command.operands.length = 2 ∧ r.fullCmdSize = 3 ∧
      parseCmd movDec ⟨longContext, ⟨2, [], [0x48, 0x48, 0x8B, 0xC0]⟩⟩ =
        .error (.status .error) t ∧
      ¬ SameDecode (parseCmd movDec ⟨longContext, ⟨2, [], [0x48, 0x8B, 0xC0]⟩⟩)
        (parseCmd movDec ⟨longContext, ⟨2, [], [0x48, 0x48, 0x8B, 0xC0]⟩⟩) :=
  ⟨_, _, _, rfl, rfl, rfl, rfl, rfl, nofun⟩

end Pair

end Diana.Decoder
