import Diana.Pe.MapEx

/-!
# Copies page by page

`DianaStreams_CopyData` and `DianaStreams_MemsetData` of `diana_streams.c`: the pieces go through a
page, the last of them may be shorter.

* `turn`: a piece, whatever the page gets its bytes from;
* `CopyReturns`, `MemsetReturns`: what a call ends with;
* `Contents`: what the functions that the streams consist of do;
* `transfers_exact`: they come to an end, and what is written;
* `copyReturns_iff`, `memsetReturns_iff`: the copies of the mapping of an image are such calls.
-/

namespace Diana.Streams

open Diana.Lib Diana.Pe

variable {φ σ : Type}

/-- Where a loop is. -/
structure Transfer (φ σ : Type) where
  state : MapState φ σ
  addressToWrite : Pe.Value
  sizeToTransfer : Pe.Value

/-- What a call ends with. -/
abbrev Returned (φ σ : Type) := EStateM.Result Stop (MapState φ σ) Unit

/-- `sizeToUse` -/
def sizeToUse (pageSize : Nat) (sizeToTransfer : Pe.Value) : Nat :=
  if sizeToTransfer.toNat < pageSize then sizeToTransfer.toNat else pageSize

/-- A turn of the loop; `page n` fills the first `n` bytes of the page. -/
def turn (A : MapArgs φ σ) (page : Nat → Mapping φ σ (List Pe.Byte)) (t : Transfer φ σ) :
    Transfer φ σ ⊕ Returned φ σ :=
  if t.sizeToTransfer = 0 then .inr (.ok () t.state)
  else
    let n := sizeToUse A.pageSize t.sizeToTransfer
    match (page n >>= fun bs => onOut (writeExact A.out t.addressToWrite bs)) t.state with
    | .error e s => .inr (.error e s)
    | .ok _ s =>
      .inl ⟨s, t.addressToWrite + BitVec.ofNat 64 n, t.sizeToTransfer - BitVec.ofNat 64 n⟩

/-- A call with this loop returns `r`. -/
def Returns (A : MapArgs φ σ) (page : Nat → Mapping φ σ (List Pe.Byte)) (address size : Pe.Value)
    (s : MapState φ σ) (r : Returned φ σ) : Prop :=
  (∃ e, safeAdd address size = .error e ∧ r = .error (.failed e) s) ∨
    ∃ lastAddressToWrite n, safeAdd address size = .ok lastAddressToWrite ∧
      runFrom (fun _ => turn A page) 0 n ⟨s, address, size⟩ = .inr r

/-- `DianaStreams_CopyData` from the stream at its position. -/
def CopyReturns (A : MapArgs φ σ) : Pe.Value → Pe.Value → MapState φ σ → Returned φ σ → Prop :=
  Returns A fun n => onFile (exactRead A.file n .error)

/-- `pPage` after `DIANA_MEMSET`. -/
def memsetPage (pageSize : Nat) (size : Pe.Value) (value : Pe.Byte) (pPage : Nat → Pe.Byte) :
    Nat → Pe.Byte :=
  let sizeToMemsetInPage := if size.toNat < pageSize then size.toNat else pageSize
  overlay pPage 0 (List.replicate sizeToMemsetInPage value)

/-- `DianaStreams_MemsetData`; the page holds `pPage`. -/
def MemsetReturns (A : MapArgs φ σ) (value : Pe.Byte) (pPage : Nat → Pe.Byte)
    (address size : Pe.Value) : MapState φ σ → Returned φ σ → Prop :=
  Returns A (fun n => pure (window (memsetPage A.pageSize size value pPage) 0 n)) address size

/-! ## Streams -/

/-- What a source and an image are: the bytes from the position of the source on, and
those of the image. -/
structure Contents (A : MapArgs φ σ) where
  ahead : φ → Nat → Pe.Byte
  content : σ → Nat → Pe.Byte
  /-- A read delivers the bytes that come next. -/
  read : ∀ s n bs t, A.file.read s n = (.ok bs, t) →
    bs = window (ahead s) 0 bs.length ∧ ∀ i, ahead t i = ahead s (bs.length + i)
  /-- A write of bytes that have addresses changes as many of them as it says. -/
  write : ∀ s a bs n t, a.toNat + bs.length < 2 ^ 64 → A.out.write s a bs = (.ok n, t) →
    content t = overlay (content s) a.toNat (bs.take n)

/-- The page gets the bytes of `ahead` that come next, up to `limit` of them, and the
image is left alone. -/
def Fills (ahead : φ → Nat → Pe.Byte) (limit : Nat) (page : Nat → Mapping φ σ (List Pe.Byte)) :
    Prop :=
  ∀ n s bs t, n ≤ limit → page n s = .ok bs t →
    bs = window (ahead s.file) 0 n ∧ t.out = s.out ∧ ∀ i, ahead t.file i = ahead s.file (n + i)

variable {A : MapArgs φ σ} {page : Nat → Mapping φ σ (List Pe.Byte)} {ahead : φ → Nat → Pe.Byte}
  {address size : Pe.Value} {s : MapState φ σ} {t t' : Transfer φ σ}

theorem exactRead_eq_ok {F : SourceStream φ} {n : Nat} {e : Status} {u v : φ} {bs : List Pe.Byte}
    (h : exactRead F n e u = .ok bs v) : F.read u n = (.ok bs, v) ∧ bs.length = n := by
  unfold exactRead at h
  split at h
  · next hread =>
    split at h
    · next hlen =>
      cases h
      exact ⟨hread, hlen⟩
    · cases h
  · cases h

theorem writeExact_eq_ok {S : RandomStream σ} {a : Pe.Value} {bs : List Pe.Byte} {u v : σ}
    (h : writeExact S a bs u = .ok () v) : S.write u a bs = (.ok bs.length, v) := by
  unfold writeExact at h
  rw [get_bind] at h
  obtain ⟨r, w, hw⟩ : ∃ r w, S.write u a bs = (r, w) := ⟨_, _, rfl⟩
  rw [hw] at h
  dsimp only at h
  rw [set_bind] at h
  cases r with
  | error e => cases h
  | ok n =>
    dsimp only at h
    split at h
    · next hn =>
      cases h
      rw [hw, hn]
    · cases h

theorem onFile_eq_ok {α : Type} {x : Source φ α} {a : α} {u v : MapState φ σ}
    (h : onFile x u = .ok a v) : ∃ f, x u.file = .ok a f ∧ v = { u with file := f } := by
  cases hx : x u.file with
  | ok b f =>
    simp only [onFile, hx] at h
    cases h
    exact ⟨f, rfl, rfl⟩
  | error e f =>
    simp only [onFile, hx] at h
    cases h

theorem onOut_eq_ok {α : Type} {x : Run σ α} {a : α} {u v : MapState φ σ}
    (h : onOut x u = .ok a v) : ∃ o, x u.out = .ok a o ∧ v = { u with out := o } := by
  cases hx : x u.out with
  | ok b o =>
    simp only [onOut, hx] at h
    cases h
    exact ⟨o, rfl, rfl⟩
  | error e o =>
    simp only [onOut, hx] at h
    cases h

theorem bind_eq_ok_state {ε α β γ : Type} {x : EStateM ε γ α} {f : α → EStateM ε γ β}
    {u w : γ} {b : β} (h : (x >>= f) u = .ok b w) : ∃ a v, x u = .ok a v ∧ f a v = .ok b w := by
  cases hx : x u with
  | ok a v => exact ⟨a, v, rfl, (bind_of_ok hx).symm.trans h⟩
  | error e v => cases (bind_of_error hx).symm.trans h

theorem fills_read (M : Contents A) (limit : Nat) :
    Fills M.ahead limit fun n =>
    (onFile (exactRead A.file n .error) : Mapping φ σ (List Pe.Byte)) := by
  intro n s bs t _ h
  obtain ⟨f, hread, rfl⟩ := onFile_eq_ok h
  obtain ⟨hread, rfl⟩ := exactRead_eq_ok hread
  obtain ⟨hbs, hnext⟩ := M.read _ _ _ _ hread
  exact ⟨hbs, rfl, hnext⟩

theorem fills_memset (pageSize : Nat) (size : Pe.Value) (value : Pe.Byte) (pPage : Nat → Pe.Byte) :
    Fills (fun _ : φ => fun _ => value) (min pageSize size.toNat)
      fun n => (pure (window (memsetPage pageSize size value pPage) 0 n) :
        Mapping φ σ (List Pe.Byte)) := by
  intro n s bs t hn h
  cases h
  refine ⟨window_congr fun i _ hi => ?_, rfl, fun _ => rfl⟩
  have hlen : i < (List.replicate (if size.toNat < pageSize then size.toNat
      else pageSize) value).length := by
    rw [List.length_replicate]
    split <;> omega
  have hbyte := overlay_inside (m := pPage) (o := 0) hlen
  rw [Nat.zero_add, List.getElem_replicate] at hbyte
  exact hbyte

/-! ## Turns -/

theorem turn_eq_inl (h : turn A page t = .inl t') :
    t.sizeToTransfer ≠ 0 ∧ ∃ bs u, page (sizeToUse A.pageSize t.sizeToTransfer) t.state = .ok bs u ∧
      ∃ o, A.out.write u.out t.addressToWrite bs = (.ok bs.length, o) ∧
        t' = ⟨{ u with out := o },
          t.addressToWrite + BitVec.ofNat 64 (sizeToUse A.pageSize t.sizeToTransfer),
          t.sizeToTransfer - BitVec.ofNat 64 (sizeToUse A.pageSize t.sizeToTransfer)⟩ := by
  unfold turn at h
  split at h
  · cases h
  · next hsize =>
    dsimp only at h
    split at h
    · cases h
    · next hrun =>
      cases h
      obtain ⟨bs, u, hpage, hwrite⟩ := bind_eq_ok_state hrun
      obtain ⟨o, hwrite', rfl⟩ := onOut_eq_ok hwrite
      exact ⟨hsize, bs, u, hpage, o, writeExact_eq_ok hwrite', rfl⟩

theorem turn_eq_ok {u : MapState φ σ} (h : turn A page t = .inr (.ok () u)) :
    t.sizeToTransfer = 0 ∧ u = t.state := by
  unfold turn at h
  split at h
  · next hsize =>
    cases h
    exact ⟨hsize, rfl⟩
  · dsimp only at h
    split at h <;> cases h

theorem sizeToUse_le (pageSize : Nat) (n : Pe.Value) : sizeToUse pageSize n ≤ n.toNat := by
  unfold sizeToUse
  split <;> omega

theorem sizeToUse_le_page (pageSize : Nat) (n : Pe.Value) : sizeToUse pageSize n ≤ pageSize := by
  unfold sizeToUse
  split <;> omega

theorem sizeToUse_pos {pageSize : Nat} {n : Pe.Value} (hpage : 0 < pageSize) (hn : n ≠ 0) :
    0 < sizeToUse pageSize n := by
  have hn' : n.toNat ≠ 0 := fun h => hn (BitVec.eq_of_toNat_eq h)
  unfold sizeToUse
  split <;> omega

theorem toNat_sub_sizeToUse (pageSize : Nat) (n : Pe.Value) :
    (n - BitVec.ofNat 64 (sizeToUse pageSize n)).toNat = n.toNat - sizeToUse pageSize n := by
  have hle := sizeToUse_le pageSize n
  have hlt := n.isLt
  rw [BitVec.toNat_sub, BitVec.toNat_ofNat]
  omega

/-- A part of the bytes is copied. -/
structure Partway (M : Contents A) (ahead : φ → Nat → Pe.Byte) (address size : Pe.Value)
    (s : MapState φ σ) (copied : Nat) (t : Transfer φ σ) : Prop where
  left : copied + t.sizeToTransfer.toNat = size.toNat
  next : t.addressToWrite.toNat = address.toNat + copied
  content : M.content t.state.out =
    overlay (M.content s.out) address.toNat (window (ahead s.file) 0 copied)
  rest : ∀ i, ahead t.state.file i = ahead s.file (copied + i)

theorem partway_start (M : Contents A) (ahead : φ → Nat → Pe.Byte) (address size : Pe.Value)
    (s : MapState φ σ) : Partway M ahead address size s 0 ⟨s, address, size⟩ where
  left := Nat.zero_add _
  next := rfl
  content := (overlay_window (M.content s.out) address.toNat 0).symm
  rest i := by rw [Nat.zero_add]

theorem window_append (m : Nat → Pe.Byte) (o n k : Nat) :
    window m o (n + k) = window m o n ++ window m (o + n) k := by
  rw [window, List.range_add, List.map_append, List.map_map, window, window]
  refine congrArg _ (List.map_congr_left fun i _ => ?_)
  rw [Function.comp_apply, Nat.add_assoc]

/-- Another piece behind those that are copied. -/
theorem Partway.turn {M : Contents A} {copied : Nat}
    (hfills : Fills ahead (min A.pageSize size.toNat) page)
    (hfit : address.toNat + size.toNat < 2 ^ 64) (h : Partway M ahead address size s copied t)
    (hturn : turn A page t = .inl t') :
    Partway M ahead address size s (copied + sizeToUse A.pageSize t.sizeToTransfer) t' := by
  obtain ⟨-, bs, u, hpage, o, hwrite, rfl⟩ := turn_eq_inl hturn
  have hsize := h.left
  have haddress := h.next
  have hle := sizeToUse_le A.pageSize t.sizeToTransfer
  have hpagele := sizeToUse_le_page A.pageSize t.sizeToTransfer
  obtain ⟨rfl, hout, hnext⟩ := hfills _ _ _ _ (by omega) hpage
  have hbytes : window (ahead t.state.file) 0 (sizeToUse A.pageSize t.sizeToTransfer) =
      window (ahead s.file) copied (sizeToUse A.pageSize t.sizeToTransfer) := by
    refine List.map_congr_left fun i _ => ?_
    rw [Nat.zero_add, h.rest]
  have hcontent := M.write _ _ _ _ _ (by rw [length_window, haddress]; omega) hwrite
  refine ⟨?_, ?_, ?_, fun i => ?_⟩
  · dsimp only
    rw [toNat_sub_sizeToUse]
    omega
  · dsimp only
    rw [toNat_advance (n := t.sizeToTransfer.toNat) (by omega) hle, haddress, Nat.add_assoc]
  · rw [List.take_of_length_le (Nat.le_refl _), hout, h.content, haddress, hbytes] at hcontent
    have hlen := overlay_append (M.content s.out) address.toNat (window (ahead s.file) 0 copied)
      (window (ahead s.file) copied (sizeToUse A.pageSize t.sizeToTransfer))
    rw [length_window] at hlen
    rw [window_append, Nat.zero_add, ← hlen]
    exact hcontent
  · refine (hnext i).trans ?_
    rw [h.rest, Nat.add_assoc]

/-! ## Runs -/

/-- Every turn takes something off what is left. -/
theorem turn_lt (hpage : 0 < A.pageSize) (h : turn A page t = .inl t') :
    t'.sizeToTransfer.toNat < t.sizeToTransfer.toNat := by
  obtain ⟨hsize, bs, u, -, o, -, rfl⟩ := turn_eq_inl h
  have hpos := sizeToUse_pos hpage hsize
  have hle := sizeToUse_le A.pageSize t.sizeToTransfer
  have hleft := toNat_sub_sizeToUse A.pageSize t.sizeToTransfer
  dsimp only
  omega

/-- The loop is left. -/
theorem exists_left (hpage : 0 < A.pageSize) (page : Nat → Mapping φ σ (List Pe.Byte))
    (t : Transfer φ σ) : ∃ n r, runFrom (fun _ => turn A page) 0 n t = .inr r :=
  exists_runFrom_inr_of_reached (fun t => t.sizeToTransfer.toNat) fun _ _ _ h => turn_lt hpage h

theorem exists_returns (hpage : 0 < A.pageSize) (page : Nat → Mapping φ σ (List Pe.Byte))
    (address size : Pe.Value) (s : MapState φ σ) : ∃ r, Returns A page address size s r := by
  by_cases hfit : address.toNat + size.toNat < 2 ^ 64
  · obtain ⟨n, r, hr⟩ := exists_left hpage page ⟨s, address, size⟩
    exact ⟨r, .inr ⟨_, n, safeAdd_of_fit hfit, hr⟩⟩
  · exact ⟨_, .inl ⟨_, safeAdd_of_not_fit (Nat.le_of_not_lt hfit), rfl⟩⟩

/-- A call that succeeds has copied everything. -/
theorem copied_of_returns (M : Contents A) (hfills : Fills ahead (min A.pageSize size.toNat) page)
    {u : MapState φ σ} (h : Returns A page address size s (.ok () u)) :
    address.toNat + size.toNat < 2 ^ 64 ∧
      M.content u.out = overlay (M.content s.out) address.toNat
      (window (ahead s.file) 0 size.toNat) ∧
      ∀ i, ahead u.file i = ahead s.file (size.toNat + i) := by
  obtain ⟨e, -, hfailed⟩ | ⟨last, n, hadd, hrun⟩ := h
  · cases hfailed
  · have hfit : address.toNat + size.toNat < 2 ^ 64 := by
      by_contra hover
      rw [safeAdd_of_not_fit (Nat.le_of_not_lt hover)] at hadd
      cases hadd
    obtain ⟨m, t, -, hruns, hlast⟩ := exists_last hrun
    obtain ⟨copied, hpart⟩ :=
      runFrom_inv (P := fun t => ∃ copied, Partway M ahead address size s copied t)
      (fun _ _ _ ⟨_, hp⟩ hturn => ⟨_, hp.turn hfills hfit hturn⟩) ⟨0,
        partway_start M ahead address size s⟩ hruns
    obtain ⟨hzero, rfl⟩ := turn_eq_ok hlast
    have hall : copied = size.toNat := by
      have hleft := hpart.left
      rw [hzero] at hleft
      simpa using hleft
    rw [← hall]
    exact ⟨by omega, hpart.content, hpart.rest⟩

theorem window_const (value : Pe.Byte) (o n : Nat) :
    window (fun _ => value) o n = List.replicate n value := by
  rw [window, List.map_const', List.length_range]

/-- Both come to an end. A copy that succeeds has written the next `size` bytes of the source to
`address` and nothing else, and `DianaStreams_MemsetData` `size` times `value`. -/
theorem transfers_exact (M : Contents A) (hpage : 0 < A.pageSize) (address size : Pe.Value)
    (s : MapState φ σ) (value : Pe.Byte) (pPage : Nat → Pe.Byte) :
    ((∃ r, CopyReturns A address size s r) ∧
      ∀ u, CopyReturns A address size s (.ok () u) →
        address.toNat + size.toNat < 2 ^ 64 ∧
          M.content u.out = overlay (M.content s.out) address.toNat
          (window (M.ahead s.file) 0 size.toNat) ∧
          ∀ i, M.ahead u.file i = M.ahead s.file (size.toNat + i)) ∧
    (∃ r, MemsetReturns A value pPage address size s r) ∧
      ∀ u, MemsetReturns A value pPage address size s (.ok () u) →
        address.toNat + size.toNat < 2 ^ 64 ∧
          M.content u.out = overlay (M.content s.out) address.toNat
          (List.replicate size.toNat value) := by
  refine ⟨⟨exists_returns hpage _ address size s,
    fun _ h => copied_of_returns M (fills_read M _) h⟩, exists_returns hpage _ address size s,
    fun u h => ?_⟩
  obtain ⟨hfit, hcontent, -⟩ := copied_of_returns M (fills_memset A.pageSize size value pPage) h
  rw [window_const] at hcontent
  exact ⟨hfit, hcontent⟩

/-- A source that counts, and an image that is written. -/
def counting (pageSize : Nat) : MapArgs Nat (Nat → Pe.Byte) where
  file :=
    { moveTo := fun _ offset => (.ok (), offset.toNat),
      read := fun s n => (.ok (window (BitVec.ofNat 8) s n), s + n) }
  out :=
    { read := fun m a n => .ok (window m a.toNat n), write := fun m a bs => (.ok bs.length,
      overlay m a.toNat bs) }
  address := 0
  pageSize

def countingContents (pageSize : Nat) : Contents (counting pageSize) where
  ahead s i := BitVec.ofNat 8 (s + i)
  content := id
  read s n bs t h := by
    cases h
    refine ⟨?_, fun i => ?_⟩
    · rw [length_window]
      exact List.map_congr_left fun i _ => by rw [Nat.zero_add]
    · rw [length_window, Nat.add_assoc]
  write s a bs n t _ h := by
    cases h
    rw [List.take_of_length_le (Nat.le_refl _)]
    rfl

theorem transfers_exact_counting :
    (∀ u, CopyReturns (counting 2) 0x1000 5 ⟨7, fun _ => 0⟩ (.ok () u) →
      u.out = overlay (fun _ => 0) 0x1000 [7, 8, 9, 10, 11]) ∧
    ∀ u, MemsetReturns (counting 2) 1 (fun _ => 0xCC) 0x1000 5 ⟨7, fun _ => 0⟩ (.ok () u) →
      u.out = overlay (fun _ => 0) 0x1000 [1, 1, 1, 1, 1] := by
  have h := transfers_exact (countingContents 2) (by decide) 0x1000 5 ⟨7, fun _ => 0⟩ 1 fun _ =>
      0xCC
  exact ⟨fun u hu => (h.1.2 u hu).2.1, fun u hu => (h.2.2 u hu).2⟩

/-- The copy succeeds, in three pieces. -/
example : ∃ u, CopyReturns (counting 2) 0x1000 5 ⟨7, fun _ => 0⟩ (.ok () u) :=
  ⟨_, .inr ⟨_, 4, rfl, rfl⟩⟩

/-! ## The loops of the mapping -/

theorem returns_unique {r r' : Returned φ σ} (h : Returns A page address size s r)
    (h' : Returns A page address size s r') : r = r' := by
  obtain ⟨e, he, rfl⟩ | ⟨_, n, hadd, hrun⟩ := h
  · obtain ⟨e', he', rfl⟩ | ⟨_, _, hadd', -⟩ := h'
    · rw [he] at he'
      cases he'
      rfl
    · rw [he] at hadd'
      cases hadd'
  · obtain ⟨e', he', -⟩ | ⟨_, n', -, hrun'⟩ := h'
    · rw [hadd] at he'
      cases he'
    · exact runFrom_inr_unique hrun hrun'

/-- A loop that counts its turns down, with a turn for every byte. -/
theorem runFrom_eq_loop {limit : Nat} {loop : Nat → Pe.Value → Nat → Mapping φ σ Unit}
    (hpage : 0 < A.pageSize) (hlimit : limit < 2 ^ 64) (hzero : ∀ a n, loop 0 a n = pure ())
    (hsucc : ∀ fuel a n, n ≤ limit → loop (fuel + 1) a n =
      if n = 0 then pure ()
      else page (min A.pageSize n) >>= fun bs => onOut (writeExact A.out a bs) >>= fun _ =>
        loop fuel (a + BitVec.ofNat 64 (min A.pageSize n)) (n - min A.pageSize n))
    (fuel k n : Nat) (a : Pe.Value) (s : MapState φ σ) (hfuel : n ≤ fuel) (hn : n ≤ limit) :
    runFrom (fun _ => turn A page) k (fuel + 1) ⟨s, a, BitVec.ofNat 64 n⟩ = .inr
    (loop fuel a n s) := by
  have htoNat : (BitVec.ofNat 64 n).toNat = n := by
    rw [BitVec.toNat_ofNat]
    omega
  induction fuel generalizing k n a s with
  | zero =>
    obtain rfl : n = 0 := by omega
    rw [hzero]
    exact runFrom_inr rfl
  | succ fuel ih =>
    rw [hsucc fuel a n hn]
    by_cases hz : n = 0
    · subst hz
      exact runFrom_inr rfl
    · have hne : BitVec.ofNat 64 n ≠ 0 := fun h => hz (by rw [← htoNat, h]; rfl)
      have huse : sizeToUse A.pageSize (BitVec.ofNat 64 n) = min A.pageSize n := by
        rw [sizeToUse, htoNat]
        split <;> omega
      have hleft : BitVec.ofNat 64 n - BitVec.ofNat 64 (min A.pageSize n) =
          BitVec.ofNat 64 (n - min A.pageSize n) := by
        refine BitVec.eq_of_toNat_eq ?_
        rw [← huse, toNat_sub_sizeToUse, huse, htoNat, BitVec.toNat_ofNat]
        omega
      rw [if_neg hz]
      cases hx : (page (min A.pageSize n) >>= fun bs => onOut (writeExact A.out a bs)) s with
      | ok b v =>
        obtain ⟨bs, u, hread, hwrite⟩ := bind_eq_ok_state hx
        have hturn : turn A page ⟨s, a, BitVec.ofNat 64 n⟩ =
            .inl ⟨v, a + BitVec.ofNat 64 (min A.pageSize n),
              BitVec.ofNat 64 (n - min A.pageSize n)⟩ := by
          simp only [turn, if_neg hne, huse, hx, hleft]
        rw [runFrom_inl hturn, ih _ _ _ _ (by omega) (by omega) (by rw [BitVec.toNat_ofNat]; omega),
          bind_of_ok hread, bind_of_ok hwrite]
      | error e v =>
        have hturn : turn A page ⟨s, a, BitVec.ofNat 64 n⟩ = .inr (.error e v) := by
          simp only [turn, if_neg hne, huse, hx]
        rw [runFrom_inr hturn]
        cases hread : page (min A.pageSize n) s with
        | ok bs u =>
          rw [bind_of_ok hread] at hx ⊢
          rw [bind_of_error hx]
        | error e' u =>
          rw [bind_of_error hread] at hx ⊢
          cases hx
          rfl

/-- The copies of `DianaPeFile_MapEx` and `DianaElfFile_MapEx`. -/
theorem copyReturns_iff (hpage : 0 < A.pageSize) {n : Nat} (hn : n < 2 ^ 64) (r : Returned φ σ) :
    CopyReturns A address (BitVec.ofNat 64 n) s r ↔ A.copyData address n s = r := by
  have hreturns : CopyReturns A address (BitVec.ofNat 64 n) s (A.copyData address n s) := by
    unfold MapArgs.copyData
    cases hadd : safeAdd address (BitVec.ofNat 64 n) with
    | error e => exact .inl ⟨e, hadd, rfl⟩
    | ok last =>
      refine .inr ⟨last, n + 1, hadd, ?_⟩
      exact runFrom_eq_loop hpage hn (fun _ _ => rfl) (fun _ _ _ _ => rfl) n 0 n address s
        (Nat.le_refl n) (Nat.le_refl n)
  exact ⟨fun h => returns_unique hreturns h, fun h => h ▸ hreturns⟩

theorem window_memsetPage {pageSize n : Nat} {size : Pe.Value} (value : Pe.Byte)
    (pPage : Nat → Pe.Byte) (hn : n ≤ min pageSize size.toNat) :
    window (memsetPage pageSize size value pPage) 0 n = List.replicate n value := by
  obtain ⟨hbytes, -, -⟩ := @fills_memset Unit Unit pageSize size value pPage n ⟨(), ()⟩ _ _ hn rfl
  rw [hbytes, window_const]

/-- What they clear. -/
theorem memsetReturns_iff (hpage : 0 < A.pageSize) (pPage : Nat → Pe.Byte) {n : Nat}
    (hn : n < 2 ^ 64) (r : Returned φ σ) :
    MemsetReturns A 0 pPage address (BitVec.ofNat 64 n) s r ↔ A.memsetData address n s = r := by
  have hreturns : MemsetReturns A 0 pPage address (BitVec.ofNat 64 n) s
      (A.memsetData address n s) := by
    unfold MapArgs.memsetData
    cases hadd : safeAdd address (BitVec.ofNat 64 n) with
    | error e => exact .inl ⟨e, hadd, rfl⟩
    | ok last =>
      refine .inr ⟨last, n + 1, hadd, ?_⟩
      refine runFrom_eq_loop hpage hn (fun _ _ => rfl) (fun fuel a m hm => ?_) n 0 n address s
        (Nat.le_refl n) (Nat.le_refl n)
      have hpiece := @window_memsetPage A.pageSize (min A.pageSize m) (BitVec.ofNat 64 n) 0
        pPage (by rw [BitVec.toNat_ofNat]; omega)
      rw [hpiece]
      rfl
  exact ⟨fun h => returns_unique hreturns h, fun h => h ▸ hreturns⟩

end Diana.Streams
