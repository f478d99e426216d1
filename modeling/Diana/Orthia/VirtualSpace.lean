import Diana.Orthia.Metadata
import Diana.Orthia.Overlay

/-!
# Replaying the stored writes

`CVMVirtualSpace` builds the memory of a machine for a range of addresses: it goes through the
modules in their order, skips those whose summary says that they have nothing in the range, and
writes the items of the others that meet the range to a cache.

The summary is too small where a write below the earlier ones moved the lowest address, so a module
with writes in the range can be skipped.
-/

namespace Diana.Orthia

open Diana.Lib

/-- The page size of the cache. -/
def defaultPage : PageSize := ⟨0x100, by decide, by decide, by decide⟩

/-- The cache of a `CVMVirtualSpace`, and the writes that have been made to it. -/
structure Space where
  cache : Storage defaultPage
  replayed : List (Nat × List Byte)

def Space.empty : Space := ⟨.empty defaultPage false, []⟩

section

variable (X : Xml) (R : Reader) (start last : Nat)

/-- One item of `OnData`, for the range from `start` to `last`. -/
def Space.item (v : Space) (p : Parser) : Except Failure Space :=
  match p.queryAddress with
  | none => .error .noAddress
  | some currentStart =>
    match p.querySizeOfBinary with
    | .error e => .error e
    | .ok 0 => .ok v
    | .ok (n + 1) =>
      let currentLast := add64 currentStart n
      if currentLast < currentStart then .error .overflow
      else if currentLast < start ∨ last < currentStart then .ok v
      else
        match p.queryValue with
        | none => .ok v
        | some [] => .ok v
        | some value =>
          let sizeToWrite := value.length - (start - currentStart)
          if currentStart < start ∧ value.length ≤ start - currentStart then .error .internalError
          else if last < currentLast ∧ sizeToWrite ≤ currentLast - last then .error .internalError
          else
            -- the whole value is written, not only its part in the range
            let r := v.cache.write R true currentStart value
            if r.2 ≠ value.length then .error .internalError
            else .ok ⟨r.1, v.replayed ++ [(currentStart, value)]⟩

/-- What lives on from module to module: the space, the parser of its items and the summary that the
descriptions are read into. -/
structure Query where
  space : Space
  parser : Parser
  shown : Summary

def Query.initial : Query := ⟨.empty, .new, .zero⟩

/-- `OnData` of a module. A module without a description is shown with the one before. -/
def Query.onData (onlyEnabled : Bool) (q : Query) (m : Module) : Except Failure Query :=
  let shown := m.description.getD q.shown
  if onlyEnabled ∧ m.disabled then .ok { q with shown }
  else if last < shown.lowestAddress then .ok { q with shown }
  else if shown.sizeInBytes = 0 then .ok { q with shown }
  else
    let moduleLast := add64 shown.lowestAddress (shown.sizeInBytes - 1)
    if moduleLast < shown.lowestAddress then .error .overflow
    else if moduleLast < start then .ok { q with shown }
    else
      let items := queryItems X m.data.length q.parser m.data
      match items.1.foldlM (Space.item R start last) q.space with
      | .error e => .error e
      | .ok space => .ok ⟨space, items.2, shown⟩

/-- `CVMVirtualSpace` for `size` addresses from `start` on, after `Init`. -/
def virtualSpace (vm : Vm) (onlyEnabled : Bool) (start size : Nat) : Except Failure Space :=
  let last := sub64 (add64 start size) 1
  if last < start then .error .overflow
  else
    (vm.entries.foldlM (fun q e => Query.onData X R start last onlyEnabled q e.2)
      Query.initial).map (·.space)

end

/-! ## What is stored -/

/-- A write with an address in the range. -/
def ModWrite.meets (start last : Nat) (w : ModWrite) :
    Bool := decide (start ≤ w.last ∧ w.start ≤ last)

/-- The modules that are asked for. -/
def Module.selected (onlyEnabled : Bool) (m : Module) : Bool := !(onlyEnabled && m.disabled)

/-- The writes stored in the modules that are asked for, in module order and then write order. -/
def storedWrites (vm : Vm) (onlyEnabled : Bool) (cs : List (Nat × ModWrite)) : List ModWrite :=
  vm.entries.flatMap fun e => if e.2.selected onlyEnabled then writesTo e.1 cs else []

/-- The byte that the last write covering an address has there. -/
def lastByte (ws : List ModWrite) (a : Nat) : Option Byte :=
  ws.foldl (fun r w => if w.start ≤ a ∧ a ≤ w.last then w.data[a - w.start]? else r) none

/-! ## Writes to the cache -/

namespace Storage

variable {ps : PageSize} {R : Reader} {s : Storage ps} {k : Nat} {d : List Byte}

theorem queryPage_allocate (R : Reader) (s : Storage ps) (k : Nat) :
    ∃ d, s.queryPage R true k = some d := by
  unfold queryPage
  cases s.pages.find k with
  | some d => exact ⟨d, rfl⟩
  | none => exact ⟨_, if_neg fun h => h.2 rfl⟩

theorem pageByte_setPage_self {a : Nat} (hk : ps.bytes ∣ k) (hd : d.length = ps.bytes)
    (h : ps.start a = k) : (s.setPage k d hk hd).pageByte a = d[a - k]? := by
  have := ps.start_add_mod a
  unfold pageByte
  rw [h, find_setPage_self s hk hd, Option.bind_some]
  congr 1
  omega

theorem pageByte_setPage_of_ne {a : Nat} (hk : ps.bytes ∣ k) (hd : d.length = ps.bytes)
    (h : ps.start a ≠ k) : (s.setPage k d hk hd).pageByte a = s.pageByte a := by
  unfold pageByte
  rw [find_setPage_of_ne s hk hd h]

/-- A page there is is the one that is written to. -/
theorem getElem?_queryPage {allocate : Bool} {a : Nat} {b : Byte}
    (hq : s.queryPage R allocate (ps.start a) = some d) (hb : s.pageByte a = some b) :
    d[a - ps.start a]? = some b := by
  have hmod := ps.start_add_mod a
  unfold pageByte at hb
  unfold queryPage at hq
  cases hf : s.pages.find (ps.start a) with
  | none =>
    rw [hf] at hb
    cases hb
  | some d' =>
    rw [hf] at hb
    simp only [hf] at hq
    cases hq
    rw [Option.bind_some] at hb
    rw [← hb]
    congr 1
    omega

/-- The loop of `Write` with the allocate flag writes every byte, and no other byte of a page that
was there. -/
theorem writeLoop_allocate {fuel i : Nat} {bs : List Byte} (hf : bs.length ≤ fuel)
    (hk : ps.bytes ∣ k) (hi : i < ps.bytes) :
    (writeLoop R true fuel k i bs s).2 = bs.length ∧
      ∀ a b, (if k + i ≤ a ∧ a < k + i + bs.length then bs[a - (k + i)]? else s.pageByte a) =
        some b → (writeLoop R true fuel k i bs s).1.pageByte a = some b := by
  induction fuel generalizing k i bs s with
  | zero =>
    obtain rfl : bs = [] := List.length_eq_zero_iff.1 (by omega)
    refine ⟨rfl, fun a b h => ?_⟩
    rwa [if_neg (by rw [List.length_nil]; omega)] at h
  | succ fuel ih =>
    by_cases hbs : bs = []
    · subst hbs
      refine ⟨rfl, fun a b h => ?_⟩
      rwa [if_neg (by rw [List.length_nil]; omega)] at h
    obtain ⟨d, hq⟩ := queryPage_allocate R s k
    have hpos := List.length_pos_iff.2 hbs
    have hd := length_queryPage R s hq
    have htake : (bs.take (ps.bytes - i)).length = min (ps.bytes - i) bs.length := List.length_take
    have hdrop : (bs.drop (ps.bytes - i)).length = bs.length - (ps.bytes - i) := List.length_drop
    obtain ⟨hlen, heq⟩ := writeLoop_of_some fuel i hbs hq hk (by omega)
    have hrest : (bs.drop (ps.bytes - i)).length ≤ fuel := by omega
    obtain ⟨hcount, hbytes⟩ := ih (k := k + ps.bytes) (i := 0)
      (s := s.setPage k (overwrite d i (bs.take (ps.bytes - i))) hk hlen) hrest
      (Nat.dvd_add hk (Nat.dvd_refl _)) ps.pos
    rw [heq]
    refine ⟨by simp only; omega, fun a b h => hbytes a b ?_⟩
    by_cases hin : k + ps.bytes + 0 ≤ a ∧ a < k + ps.bytes + 0 + (bs.drop (ps.bytes - i)).length
    · rw [if_pos (by omega)] at h
      rw [if_pos hin, List.getElem?_drop, ← h]
      congr 1
      omega
    rw [if_neg hin]
    by_cases ha : ps.start a = k
    · have h3 : k ≤ a := ha ▸ ps.start_le a
      have h4 : a < k + ps.bytes := ha ▸ ps.lt_start a
      rw [pageByte_setPage_self hk hlen ha, getElem?_overwrite (by omega)]
      by_cases hcov : k + i ≤ a ∧ a < k + i + bs.length
      · rw [if_pos hcov] at h
        rw [if_pos (by omega), List.getElem?_take_of_lt (by omega), ← h]
        congr 1
        omega
      · rw [if_neg hcov] at h
        rw [if_neg (by omega)]
        subst ha
        exact getElem?_queryPage hq h
    · have hcov : ¬ (k + i ≤ a ∧ a < k + i + bs.length) := by
        intro hcov
        exact ha (PageSize.start_eq hk (by omega) (by omega))
      rw [if_neg hcov] at h
      rw [pageByte_setPage_of_ne hk hlen ha]
      exact h

theorem write_allocate (R : Reader) (s : Storage ps) (off : Nat) (bs : List Byte) :
    (s.write R true off bs).2 = bs.length ∧
      ∀ a b, (if off ≤ a ∧ a < off + bs.length then bs[a - off]? else s.pageByte a) = some b →
        (s.write R true off bs).1.pageByte a = some b := by
  have := writeLoop_allocate (R := R) (s := s) (Nat.le_refl bs.length) (ps.dvd_start off)
    (Nat.mod_lt off ps.pos)
  rw [ps.start_add_mod off] at this
  exact this

end Storage

/-! ## Replaying -/

section

variable {X : Xml} {R : Reader} {start last : Nat}

/-- The space after a write to the cache. -/
def Space.replay (R : Reader) (v : Space) (w : ModWrite) : Space :=
  ⟨(v.cache.write R true w.start w.data).1, v.replayed ++ [(w.start, w.data)]⟩

theorem Space.item_reads {p : Parser} {w : ModWrite} (h : p.Reads w) (hle : start ≤ last)
    (v : Space) :
    v.item R start last p = .ok (if w.meets start last then v.replay R w else v) := by
  obtain ⟨n, hn⟩ : ∃ n, w.data.length = n + 1 := ⟨w.data.length - 1, by have := w.length_pos; omega⟩
  have hsize := h.size
  have hlast : add64 w.start n = w.last := by
    rw [← add64_last, hn]
    rfl
  have hend : w.last + 1 = w.start + w.data.length := by
    rw [hn]
    unfold ModWrite.last
    omega
  have hsl := w.start_le_last
  have hcount := (Storage.write_allocate R v.cache w.start w.data).1
  rw [hn] at hsize
  unfold Space.item
  rw [h.address, hsize]
  simp only [hlast, if_neg (Nat.not_lt.2 hsl)]
  by_cases hm : start ≤ w.last ∧ w.start ≤ last
  · have hmeets : w.meets start last = true := decide_eq_true hm
    rw [if_neg (by omega), if_pos hmeets, h.value]
    split
    · rename_i hv
      cases hv
    · rename_i hv
      exact absurd (Option.some.inj hv) w.ne
    · rename_i value _ hv
      cases hv
      rw [if_neg (by omega), if_neg (by omega), if_neg (not_not.2 hcount)]
      rfl
  · have hmeets : ¬ w.meets start last = true := fun h => hm (of_decide_eq_true h)
    rw [if_pos (by omega), if_neg hmeets]

theorem Space.items_reads {ps : List Parser} {ws : List ModWrite}
    (h : List.Forall₂ Parser.Reads ps ws) (hle : start ≤ last) (v : Space) :
    ps.foldlM (Space.item R start last) v =
      .ok ((ws.filter (·.meets start last)).foldl (Space.replay R) v) := by
  induction h generalizing v with
  | nil => rfl
  | @cons p w ps ws hp _ ih =>
    rw [List.foldlM_cons, Space.item_reads hp hle]
    refine (ih _).trans ?_
    by_cases hm : w.meets start last = true
    · rw [if_pos hm, List.filter_cons_of_pos hm, List.foldl_cons]
    · rw [if_neg hm, List.filter_cons_of_neg hm]

/-- Whether the summary of a module lets its items through. -/
def passes (start last : Nat) (ws : List ModWrite) : Bool :=
  decide (lowest ws ≤ last ∧ reach ws % 2 ^ 64 ≠ 0 ∧ start < lowest ws + reach ws)

/-- The writes of a module that get into the cache. -/
def throughWrites (onlyEnabled : Bool) (start last : Nat) (m : Module) (ws : List ModWrite) :
    List ModWrite :=
  if m.selected onlyEnabled ∧ passes start last ws then ws.filter (·.meets start last) else []

/-- A query between two modules: the summary shown last ends at an address. -/
structure Query.Good (q : Query) : Prop where
  parser : q.parser.empty = false
  shown : q.shown.lowestAddress + q.shown.sizeInBytes ≤ 2 ^ 64

/-- The summary that a module is shown with. -/
theorem Module.Holds.shown_le {m : Module} {ws : List ModWrite} (h : m.Holds X ws) {q : Query}
    (hq : q.Good) : (m.description.getD q.shown).lowestAddress +
      (m.description.getD q.shown).sizeInBytes ≤ 2 ^ 64 := by
  rw [h.description, describe]
  split_ifs with hne
  · exact hq.shown
  · have := (reach_bounds hne).2
    simp only [Option.getD_some]
    omega

/-- One module. -/
theorem Query.onData_holds {m : Module} {ws : List ModWrite} (h : m.Holds X ws) (hle : start ≤ last)
    (onlyEnabled : Bool) {q : Query} (hq : q.Good) :
    ∃ q', q.onData X R start last onlyEnabled m = .ok q' ∧ q'.Good ∧
      q'.space = (throughWrites onlyEnabled start last m ws).foldl (Space.replay R) q.space := by
  obtain ⟨hitems, hparser⟩ := queryItems_blob (X := X) ws hq.parser (Nat.le_refl _)
  have hfold := Space.items_reads (R := R) hitems hle q.space
  have hshown := h.shown_le hq
  have hsel : m.selected onlyEnabled = true ↔ ¬ (onlyEnabled = true ∧ m.disabled = true) := by
    unfold Module.selected
    cases onlyEnabled <;> cases m.disabled <;> simp
  unfold Query.onData throughWrites
  rw [h.data]
  simp only [hfold, hsel]
  generalize hd : m.description.getD q.shown = shown at hshown
  -- what the summary says of a module that has writes
  have hpass : ws ≠ [] → (passes start last ws = true ↔ ¬ last < shown.lowestAddress ∧
      shown.sizeInBytes ≠ 0 ∧
        ¬ add64 shown.lowestAddress (shown.sizeInBytes - 1) < start) := by
    intro hne
    rw [h.description, describe, if_neg hne] at hd
    cases hd
    obtain ⟨hpos, hb⟩ := reach_bounds hne
    simp only [Option.getD_some] at hshown ⊢
    unfold passes
    rw [decide_eq_true_iff]
    by_cases h0 : reach ws % 2 ^ 64 = 0
    · exact iff_of_false (fun hc => hc.2.1 h0) fun hc => hc.2.1 h0
    · rw [add64_of_lt (by omega), Nat.mod_eq_of_lt (by omega)]
      omega
  have hempty : ws = [] → ws.filter (·.meets start last) = [] := by
    rintro rfl
    rfl
  have hskip : ¬ (¬ last < shown.lowestAddress ∧ shown.sizeInBytes ≠ 0 ∧
      ¬ add64 shown.lowestAddress (shown.sizeInBytes - 1) < start) →
      q.space = (if ¬ (onlyEnabled = true ∧ m.disabled = true) ∧ passes start last ws = true
        then ws.filter (·.meets start last) else []).foldl (Space.replay R) q.space := by
    intro hp
    split_ifs with hc
    · by_cases hne : ws = []
      · rw [hempty hne]
        rfl
      · exact absurd ((hpass hne).1 hc.2) hp
    · rfl
  by_cases h1 : onlyEnabled = true ∧ m.disabled = true
  · rw [if_pos h1, if_neg fun hc => hc.1 h1]
    exact ⟨_, rfl, ⟨hq.parser, hshown⟩, rfl⟩
  rw [if_neg h1]
  by_cases h2 : last < shown.lowestAddress
  · rw [if_pos h2]
    exact ⟨_, rfl, ⟨hq.parser, hshown⟩, hskip (fun hp => hp.1 h2)⟩
  rw [if_neg h2]
  by_cases h3 : shown.sizeInBytes = 0
  · rw [if_pos h3]
    exact ⟨_, rfl, ⟨hq.parser, hshown⟩, hskip (fun hp => hp.2.1 h3)⟩
  have hadd : add64 shown.lowestAddress (shown.sizeInBytes - 1) =
      shown.lowestAddress + (shown.sizeInBytes - 1) := add64_of_lt (by omega)
  rw [if_neg h3, if_neg (by omega)]
  by_cases h4 : add64 shown.lowestAddress (shown.sizeInBytes - 1) < start
  · rw [if_pos h4]
    exact ⟨_, rfl, ⟨hq.parser, hshown⟩, hskip (fun hp => hp.2.2 h4)⟩
  · rw [if_neg h4]
    refine ⟨_, rfl, ⟨hparser, hshown⟩, ?_⟩
    by_cases hne : ws = []
    · rw [hempty hne, ite_self]
    · rw [if_pos ⟨h1, (hpass hne).2 ⟨h2, h3, h4⟩⟩]

/-- All modules. -/
theorem Query.onData_all {L : List (Nat × Module)} (ws : Nat → List ModWrite)
    (h : ∀ e ∈ L, e.2.Holds X (ws e.1)) (hle : start ≤ last) (onlyEnabled : Bool) {q : Query}
    (hq : q.Good) :
    ∃ q', L.foldlM (fun q e => Query.onData X R start last onlyEnabled q e.2) q = .ok q' ∧
      q'.space = (L.flatMap fun e => throughWrites onlyEnabled start last e.2 (ws e.1)).foldl
        (Space.replay R) q.space := by
  induction L generalizing q with
  | nil => exact ⟨q, rfl, rfl⟩
  | cons e L ih =>
    obtain ⟨q₁, h1, hgood, hspace⟩ := Query.onData_holds (R := R) (h e List.mem_cons_self) hle
      onlyEnabled hq
    obtain ⟨q₂, h2, hspace'⟩ := ih (fun e he => h e (List.mem_cons_of_mem _ he)) hgood
    refine ⟨q₂, ?_, ?_⟩
    · rw [List.foldlM_cons, h1]
      exact h2
    · rw [hspace', hspace, List.flatMap_cons, List.foldl_append]

theorem replayed_foldl (ws : List ModWrite) (v : Space) :
    (ws.foldl (Space.replay R) v).replayed = v.replayed ++ ws.map fun w => (w.start, w.data) := by
  induction ws generalizing v with
  | nil => exact (List.append_nil _).symm
  | cons w ws ih =>
    rw [List.foldl_cons, ih]
    simp [Space.replay]

/-- The cache holds the byte of the last write that was replayed. -/
theorem pageByte_foldl {a : Nat} (ws : List ModWrite) {v : Space} {r : Option Byte}
    (hr : ∀ b, r = some b → v.cache.pageByte a = some b) {b : Byte}
    (hb : ws.foldl (fun r w => if w.start ≤ a ∧ a ≤ w.last then w.data[a - w.start]? else r) r =
      some b) : (ws.foldl (Space.replay R) v).cache.pageByte a = some b := by
  induction ws generalizing v r with
  | nil => exact hr b hb
  | cons w ws ih =>
    refine ih (v := v.replay R w) (fun c hc => ?_) hb
    refine (Storage.write_allocate R v.cache w.start w.data).2 a c ?_
    have hend : w.last + 1 = w.start + w.data.length := by
      have := w.length_pos
      unfold ModWrite.last
      omega
    beta_reduce at hc
    by_cases hcov : w.start ≤ a ∧ a ≤ w.last
    · rw [if_pos hcov] at hc
      rw [if_pos (by omega), hc]
    · rw [if_neg hcov] at hc
      rw [if_neg (by omega), hr c hc]

/-- Only writes that meet the range have a byte in it. -/
theorem lastByte_filter {a : Nat} (h1 : start ≤ a) (h2 : a ≤ last) (ws : List ModWrite) :
    lastByte (ws.filter (·.meets start last)) a = lastByte ws a := by
  unfold lastByte
  generalize (none : Option Byte) = r
  induction ws generalizing r with
  | nil => rfl
  | cons w ws ih =>
    by_cases hm : w.meets start last = true
    · rw [List.filter_cons_of_pos hm, List.foldl_cons, List.foldl_cons, ih]
    · have hcov : ¬ (w.start ≤ a ∧ a ≤ w.last) := by
        intro hcov
        exact hm (decide_eq_true ⟨by omega, by omega⟩)
      rw [List.filter_cons_of_neg hm, List.foldl_cons, if_neg hcov, ih]

end

/-! ## No write is left out -/

/-- The space for a range has replayed every stored write that meets the range, and its cache holds
the byte of the last one at every address of the range. -/
def Replays (X : Xml) (R : Reader) (vm : Vm) (cs : List (Nat × ModWrite)) (onlyEnabled : Bool)
    (start size : Nat) : Prop :=
  ∃ v, virtualSpace X R vm onlyEnabled start size = .ok v ∧
    v.replayed = ((storedWrites vm onlyEnabled cs).filter (·.meets start (start + size - 1))).map
      (fun w => (w.start, w.data)) ∧
    ∀ a b, start ≤ a → a < start + size → lastByte (storedWrites vm onlyEnabled cs) a = some b →
      v.cache.pageByte a = some b

/-- No selected module that has a write in the range is skipped: its recorded size is not zero and
reaches the range. -/
def NoneSkipped (vm : Vm) (cs : List (Nat × ModWrite)) (onlyEnabled : Bool) (start size : Nat) :
    Prop :=
  ∀ id m, vm.find id = some m → m.selected onlyEnabled →
    (∃ w ∈ writesTo id cs, w.meets start (start + size - 1)) →
      reach (writesTo id cs) < 2 ^ 64 ∧
        start < lowest (writesTo id cs) + reach (writesTo id cs)

/-- Parts left out of a list of parts leave the whole as it is only if they are empty. -/
theorem flatMap_eq_iff {α β : Type} {L : List α} {f g : α → List β}
    (h : ∀ a ∈ L, g a = f a ∨ g a = []) : L.flatMap g = L.flatMap f ↔ ∀ a ∈ L, g a = f a := by
  have hlen : ∀ L : List α, (∀ a ∈ L, g a = f a ∨ g a = []) →
      (L.flatMap g).length ≤ (L.flatMap f).length := by
    intro L h
    induction L with
    | nil => exact Nat.le_refl 0
    | cons a L ih =>
      have := ih fun b hb => h b (List.mem_cons_of_mem _ hb)
      rw [List.flatMap_cons, List.flatMap_cons, List.length_append, List.length_append]
      rcases h a List.mem_cons_self with ha | ha
      · rw [ha]
        omega
      · rw [ha, List.length_nil]
        omega
  refine ⟨fun he => ?_, fun he => ?_⟩
  · induction L with
    | nil => exact fun a ha => absurd ha List.not_mem_nil
    | cons a L ih =>
      have hL := fun b hb => h b (List.mem_cons_of_mem _ hb)
      have hle := hlen L hL
      rw [List.flatMap_cons, List.flatMap_cons] at he
      have ha : g a = f a := by
        rcases h a List.mem_cons_self with ha | ha
        · exact ha
        · have := congrArg List.length he
          rw [List.length_append, List.length_append, ha, List.length_nil] at this
          rw [ha]
          exact (List.length_eq_zero_iff.1 (by omega)).symm
      rw [ha] at he
      intro b hb
      rcases List.mem_cons.1 hb with rfl | hb
      · exact ha
      · exact ih hL (List.append_cancel_left he) b hb
  · induction L with
    | nil => rfl
    | cons a L ih =>
      rw [List.flatMap_cons, List.flatMap_cons, he a List.mem_cons_self,
        ih (fun b hb => h b (List.mem_cons_of_mem _ hb)) fun b hb =>
        he b (List.mem_cons_of_mem _ hb)]

section

variable {X : Xml} {R : Reader} {vm : Vm} {cs : List (Nat × ModWrite)} {onlyEnabled : Bool}
  {start size : Nat}

/-- The writes of a module that are in the range and asked for. -/
def wantedWrites (onlyEnabled : Bool) (start last : Nat) (m : Module) (ws : List ModWrite) :
    List ModWrite :=
  (if m.selected onlyEnabled then ws else []).filter (·.meets start last)

theorem throughWrites_eq_or (onlyEnabled : Bool) (start last : Nat) (m : Module)
    (ws : List ModWrite) :
    throughWrites onlyEnabled start last m ws = wantedWrites onlyEnabled start last m ws ∨
      throughWrites onlyEnabled start last m ws = [] := by
  unfold throughWrites wantedWrites
  by_cases hs : m.selected onlyEnabled = true
  · by_cases hp : passes start last ws = true
    · rw [if_pos ⟨hs, hp⟩, if_pos hs]
      exact .inl rfl
    · exact .inr (if_neg fun hc => hp hc.2)
  · exact .inr (if_neg fun hc => hs hc.1)

/-- The space that is built, and the writes it has replayed. -/
theorem virtualSpace_holds (R : Reader) (h : vm.Holds X fun id => writesTo id cs)
    (onlyEnabled : Bool) (h0 : 0 < size) (hfits : start + size ≤ 2 ^ 64) :
    ∃ v, virtualSpace X R vm onlyEnabled start size = .ok v ∧
      v = (vm.entries.flatMap fun e => throughWrites onlyEnabled start (start + size - 1) e.2
        (writesTo e.1 cs)).foldl (Space.replay R) .empty := by
  have hlast : sub64 (add64 start size) 1 = start + size - 1 := by
    unfold sub64 add64
    omega
  have hmem : ∀ e ∈ vm.entries, e.2.Holds X (writesTo e.1 cs) := fun e he =>
    h e.1 e.2 (vm.mem_entries.1 he)
  have hle : start ≤ start + size - 1 := by omega
  obtain ⟨q, hq, hspace⟩ := Query.onData_all (R := R) (fun id => writesTo id cs) hmem hle
    onlyEnabled (q := .initial) ⟨rfl, Nat.zero_le _⟩
  refine ⟨q.space, ?_, hspace⟩
  unfold virtualSpace
  simp only [hlast]
  rw [if_neg (by omega), hq]
  rfl

theorem filter_storedWrites (last : Nat) : (storedWrites vm onlyEnabled cs).filter
    (·.meets start last) =
      vm.entries.flatMap fun e => wantedWrites onlyEnabled start last e.2 (writesTo e.1 cs) := by
  rw [storedWrites, List.filter_flatMap]
  rfl

/-- A module with wanted writes lets them through when its summary reaches the range. -/
theorem throughWrites_eq_iff {last : Nat} (m : Module) (ws : List ModWrite) :
    throughWrites onlyEnabled start last m ws = wantedWrites onlyEnabled start last m ws ↔
      (m.selected onlyEnabled → (∃ w ∈ ws, w.meets start last) →
        reach ws < 2 ^ 64 ∧ start < lowest ws + reach ws) := by
  unfold throughWrites wantedWrites
  by_cases hs : m.selected onlyEnabled = true
  swap
  · rw [if_neg fun hc => hs hc.1, if_neg hs]
    exact iff_of_true rfl fun hc => absurd hc hs
  simp only [hs, true_and, if_true, forall_const]
  constructor
  · rintro he ⟨w, hw, hm⟩
    have hp : passes start last ws = true := by
      by_contra hp
      rw [if_neg hp] at he
      have := List.mem_filter.2 ⟨hw, hm⟩
      rw [← he] at this
      cases this
    obtain ⟨-, hne, hlt⟩ := of_decide_eq_true hp
    have := (reach_bounds (List.ne_nil_of_mem hw)).2
    exact ⟨by omega, hlt⟩
  · intro h
    by_cases hw : ∃ w ∈ ws, w.meets start last
    · obtain ⟨hr, hlt⟩ := h hw
      obtain ⟨w, hw, hm⟩ := hw
      have hpos := (reach_bounds (List.ne_nil_of_mem hw)).1
      have hlow := lowest_le hw
      have hm' := of_decide_eq_true hm
      refine if_pos (decide_eq_true ⟨by omega, ?_, hlt⟩)
      rw [Nat.mod_eq_of_lt hr]
      omega
    · have hnil : ws.filter (·.meets start last) = [] :=
        List.filter_eq_nil_iff.2 fun w hmem hm => hw ⟨w, hmem, hm⟩
      rw [hnil, ite_self]

end

/-- **A query replays every stored write** of the range, exactly when no selected module with a
write in the range is skipped. -/
theorem replays_iff (X : Xml) (R : Reader) {vm vm' : Vm} (hvm : vm.Fresh)
    {cs : List (Nat × ModWrite)} (hrun : writeAll X vm cs = .ok vm') (onlyEnabled : Bool)
    {start size : Nat} (h0 : 0 < size) (hfits : start + size ≤ 2 ^ 64) :
    Replays X R vm' cs onlyEnabled start size ↔ NoneSkipped vm' cs onlyEnabled start size := by
  have hholds := (writeAll_holds hvm.holds hrun).1
  have hwrites : vm'.Holds X fun id => writesTo id cs := hholds
  obtain ⟨v, hv, hspace⟩ := virtualSpace_holds R hwrites onlyEnabled h0 hfits
  have hlog : v.replayed = (vm'.entries.flatMap fun e => throughWrites onlyEnabled start
      (start + size - 1) e.2 (writesTo e.1 cs)).map fun w => (w.start, w.data) := by
    rw [hspace, replayed_foldl]
    rfl
  have hiff : NoneSkipped vm' cs onlyEnabled start size ↔ ∀ e ∈ vm'.entries,
      throughWrites onlyEnabled start (start + size - 1) e.2 (writesTo e.1 cs) =
        wantedWrites onlyEnabled start (start + size - 1) e.2 (writesTo e.1 cs) := by
    simp only [throughWrites_eq_iff]
    exact ⟨fun h e he => h e.1 e.2 (vm'.mem_entries.1 he),
      fun h id m hm => h (id, m) (vm'.mem_entries.2 hm)⟩
  rw [hiff]
  constructor
  · rintro ⟨v', hv', hrep, -⟩
    cases hv.symm.trans hv'
    rw [hlog, filter_storedWrites, List.map_flatMap, List.map_flatMap] at hrep
    have hparts := (flatMap_eq_iff fun e _ => ?_).1 hrep
    · intro e he
      rcases throughWrites_eq_or onlyEnabled start (start + size - 1) e.2
        (writesTo e.1 cs) with h | h
      · exact h
      · have := hparts e he
        rw [h] at this ⊢
        exact (List.map_eq_nil_iff.1 this.symm).symm
    · rcases throughWrites_eq_or onlyEnabled start (start + size - 1) e.2
        (writesTo e.1 cs) with h | h
      · exact .inl (by rw [h])
      · exact .inr (by rw [h]; rfl)
  · intro hall
    have hsame := (flatMap_eq_iff (L := vm'.entries)
      fun e _ => throughWrites_eq_or onlyEnabled start (start + size - 1) e.2
        (writesTo e.1 cs)).2 hall
    rw [← filter_storedWrites] at hsame
    refine ⟨v, hv, by rw [hlog, hsame], ?_⟩
    intro a b h1 h2 hb
    rw [hspace, hsame]
    refine pageByte_foldl _ (r := none) (fun c hc => nomatch hc) ?_
    have h3 : a ≤ start + size - 1 := by omega
    rw [← lastByte_filter h1 h3] at hb
    exact hb

/-- A write above the first one is replayed. -/
theorem replays_low : ∃ vm', writeAll rootXml oneModule [(1, writeLow), (1, writeHigh)] = .ok vm' ∧
    Replays rootXml (readerOverVector 0 []) vm' [(1, writeLow), (1, writeHigh)] true 0x2000 2 := by
  obtain ⟨vm', hrun⟩ := exists_of_toOption
    (r := writeAll rootXml oneModule [(1, writeLow), (1, writeHigh)]) (by decide +kernel)
  refine ⟨vm', hrun, (replays_iff rootXml _ oneModule_fresh hrun true (by decide)
    (by decide)).2 ?_⟩
  intro id m _ _ hw
  by_cases hid : id = 1
  · subst hid
    exact ⟨by decide, by decide⟩
  · obtain ⟨w, hw, -⟩ := hw
    rw [writesTo_cons_of_ne (Ne.symm hid), writesTo_cons_of_ne (Ne.symm hid)] at hw
    cases hw

/-- After a write below it, the first write is left out of a query of its own addresses. -/
theorem high_write_left_out : ∃ vm', writeAll rootXml oneModule [(1, writeHigh), (1, writeLow)] =
    .ok vm' ∧ ¬ Replays rootXml (readerOverVector 0 []) vm' [(1, writeHigh), (1, writeLow)] true
      0x2000 2 := by
  obtain ⟨vm', hrun⟩ := exists_of_toOption
    (r := writeAll rootXml oneModule [(1, writeHigh), (1, writeLow)]) (by decide +kernel)
  refine ⟨vm', hrun, ?_⟩
  rintro ⟨v, hv, hrep, -⟩
  have hgot : ((writeAll rootXml oneModule [(1, writeHigh), (1, writeLow)]).toOption.bind fun vm =>
      (virtualSpace rootXml (readerOverVector 0 []) vm true 0x2000 2).toOption).map (·.replayed) =
        some [] := by
    decide +kernel
  have hwanted : (writeAll rootXml oneModule [(1, writeHigh), (1, writeLow)]).toOption.map
    (fun vm =>
      ((storedWrites vm true [(1, writeHigh), (1, writeLow)]).filter
        (·.meets 0x2000 (0x2000 + 2 - 1))).map fun w => (w.start, w.data)) =
          some [(0x2000, [3, 4])] := by
    decide +kernel
  rw [hrun] at hgot hwanted
  have h1 : v.replayed = [] := by
    simpa [Except.toOption, hv] using hgot
  have h2 := Option.some.inj hwanted
  beta_reduce at h2
  rw [← hrep, h1] at h2
  cases h2

end Diana.Orthia
