import Diana.Pe.MapEx
import Diana.Pe.RelocsExact

/-!
# The writes of a mapping

What the mapping of a file writes to a memory that takes every access: the pages of the
headers and of the sections, one range after the other, and then the targets of the
relocations that the walk gets to.

* `Fills a n ws`: writes that make up a range; `Acts`: what a part of the mapping does;
* `acts_mapSection`: the writes for a section, and the memory behind it;
* `processRelocationEntry_traced`: those for a block of relocations;
* `cuts_mapEx`: a memory that refuses an access only cuts a mapping short.
-/

namespace Diana.Pe

open Diana.Lib

/-- A file, a memory and a trace of the writes. -/
abbrev Logged := MapState Nat ((Value → Byte) × List (Value × Nat))

/-- A mapping of the file to a memory that takes every access. -/
abbrev traced (file : List Byte) (address : Value) (pageSize : Nat) :
    MapArgs Nat ((Value → Byte) × List (Value × Nat)) :=
  (memoryArgs file (fun _ _ => true) address pageSize).logged

/-! ## Ranges -/

/-- The writes lie in the `n` bytes from `a` on and get to the end of them. -/
structure Fills (a n : Nat) (ws : List (Value × Nat)) : Prop where
  within : ∀ w ∈ ws, Between a (a + n) w
  empty : n = 0 → ws = []
  last : n ≠ 0 → ∃ w ∈ ws, w.1.toNat + w.2 = a + n

namespace Fills

variable {a n k lo hi : Nat} {ws ws' : List (Value × Nat)}

theorem nil (a : Nat) : Fills a 0 [] := ⟨nofun, fun _ => rfl, fun h => absurd rfl h⟩

theorem single {b : Value} (hn : n ≠ 0) : Fills b.toNat n [(b, n)] where
  within w hw := by
    rw [List.mem_singleton.1 hw]
    exact ⟨le_rfl, le_rfl⟩
  empty h := absurd h hn
  last _ := ⟨_, List.mem_singleton_self _, rfl⟩

theorem append (h : Fills a k ws) (h' : Fills (a + k) n ws') : Fills a (k + n) (ws ++ ws') where
  within w hw := by
    rcases List.mem_append.1 hw with hw | hw
    · obtain ⟨hlo, hhi⟩ := h.within w hw
      exact ⟨hlo, by omega⟩
    · obtain ⟨hlo, hhi⟩ := h'.within w hw
      exact ⟨by omega, by omega⟩
  empty hzero := by simp [h.empty (by omega), h'.empty (by omega)]
  last hne := by
    by_cases hn : n = 0
    · obtain ⟨w, hw, hend⟩ := h.last (by omega)
      exact ⟨w, List.mem_append_left _ hw, by omega⟩
    · obtain ⟨w, hw, hend⟩ := h'.last hn
      exact ⟨w, List.mem_append_right _ hw, by omega⟩

/-- All of it lies in a range that starts earlier, exactly if its end does. -/
theorem between_iff (h : Fills a n ws) (hlo : lo ≤ a) :
    (∀ w ∈ ws, Between lo hi w) ↔ n = 0 ∨ a + n ≤ hi := by
  constructor
  · intro hall
    by_cases hn : n = 0
    · exact .inl hn
    · obtain ⟨w, hw, hend⟩ := h.last hn
      exact .inr (hend ▸ (hall w hw).2)
  · rintro (hn | hhi) w hw
    · rw [h.empty hn] at hw
      cases hw
    · obtain ⟨h1, h2⟩ := h.within w hw
      exact ⟨by omega, by omega⟩

end Fills

/-! ## Parts of a mapping -/

/-- The run of `x` adds the writes `ws`; it succeeds exactly if `c`, and then it
leaves the memory `m`. -/
def Acts (x : Mapping Nat ((Value → Byte) × List (Value × Nat)) Unit) (s : Logged) (c : Prop)
    (m : Value → Byte) (ws : List (Value × Nat)) : Prop :=
  ∃ t : Logged, t.out.2 = s.out.2 ++ ws ∧
    (c ∧ x s = .ok () t ∧ t.out.1 = m ∨ ¬ c ∧ ∃ e, x s = .error e t)

namespace Acts

variable {x y : Mapping Nat ((Value → Byte) × List (Value × Nat)) Unit} {s : Logged} {c d : Prop}
  {m m' : Value → Byte} {ws ws' : List (Value × Nat)}
  {f : Unit → Mapping Nat ((Value → Byte) × List (Value × Nat)) Unit}

protected theorem pure (hc : c) : Acts (pure ()) s c s.out.1 [] :=
  ⟨s, (List.append_nil _).symm, .inl ⟨hc, rfl, rfl⟩⟩

theorem fail {e : Stop} (hc : ¬ c) (hx : x s = .error e s) : Acts x s c m [] :=
  ⟨s, (List.append_nil _).symm, .inr ⟨hc, e, hx⟩⟩

theorem congr (h : Acts x s c m ws) (hcd : c ↔ d) (hm : d → m = m') : Acts x s d m' ws := by
  obtain ⟨t, ht, ⟨hc, hx, hmem⟩ | ⟨hc, hx⟩⟩ := h
  · exact ⟨t, ht, .inl ⟨hcd.1 hc, hx, hmem.trans (hm (hcd.1 hc))⟩⟩
  · exact ⟨t, ht, .inr ⟨fun hd => hc (hcd.2 hd), hx⟩⟩

/-- A run that goes on as another one. -/
theorem of_eq {t : Logged} (h : Acts y t c m ws) (hx : x s = y t) (hout : t.out.2 = s.out.2) :
    Acts x s c m ws := by
  obtain ⟨u, hu, hrun⟩ := h
  refine ⟨u, by rw [hu, hout], ?_⟩
  rw [hx]
  exact hrun

/-- One part behind another that succeeds. -/
theorem bind {P : List (Value × Nat) → Prop} (h : Acts x s c m ws) (hc : c)
    (hf : ∀ t : Logged, t.out.1 = m → ∃ ws', P ws' ∧ Acts y t d m' ws') :
    ∃ ws', P ws' ∧ Acts (x >>= fun _ => y) s d m' (ws ++ ws') := by
  obtain ⟨t, ht, ⟨-, hx, hmem⟩ | ⟨hno, -⟩⟩ := h
  · obtain ⟨ws', hP, u, hu, hrun⟩ := hf t hmem
    refine ⟨ws', hP, u, by rw [hu, ht, List.append_assoc], ?_⟩
    rw [bind_of_ok hx]
    exact hrun
  · exact absurd hc hno

/-- A part that fails is the last one. -/
theorem bind_of_not (h : Acts x s c m ws) (hc : ¬ c) (hd : ¬ d) : Acts (x >>= f) s d m' ws := by
  obtain ⟨t, ht, ⟨hyes, -⟩ | ⟨-, e, hx⟩⟩ := h
  · exact absurd hyes hc
  · exact ⟨t, ht, .inr ⟨hd, e, bind_of_error hx⟩⟩

end Acts

section Pages

variable {file : List Byte} {address a : Value} {pageSize n : Nat} {s : Logged}

/-- The state with one more write. -/
def Logged.wrote (s : Logged) (a : Value) (bs : List Byte) : Logged :=
  { s with out := (store s.out.1 a bs, s.out.2 ++ [(a, bs.length)]) }

theorem traced_moveTo (offset : Value) :
    onFile (moveTo (fileStream file) offset) s = .ok () { s with file := offset.toNat } := rfl

theorem traced_read (h : n ≤ file.length - s.file) :
    onFile (exactRead (fileStream file) n .error) s =
      .ok ((file.drop s.file).take n) { s with file := s.file + n } := by
  unfold onFile
  rw [exactRead_apply (r := .ok ((file.drop s.file).take n)) (t := s.file + n) rfl]
  simp [h]

theorem traced_read_short (h : file.length - s.file < n) :
    onFile (exactRead (fileStream file) n .error) s =
      .error (.failed .error) { s with file := s.file + n } := by
  unfold onFile
  rw [exactRead_apply (r := .ok ((file.drop s.file).take n)) (t := s.file + n) rfl]
  simp [show ¬ n ≤ file.length - s.file by omega]

theorem writeExact_logged {t : (Value → Byte) × List (Value × Nat)} {bs : List Byte} :
    writeExact (memoryStream fun _ _ => true).logged a bs t =
      .ok () (store t.1 a bs, t.2 ++ [(a, bs.length)]) := by
  rw [writeExact_apply (r := .ok bs.length) (t := (store t.1 a bs, t.2 ++ [(a, bs.length)])) rfl]
  exact if_pos rfl

theorem traced_write {bs : List Byte} :
    onOut (writeExact (memoryStream fun _ _ => true).logged a bs) s = .ok () (s.wrote a bs) := by
  unfold onOut
  rw [writeExact_logged]
  rfl

/-- How much of `n` bytes is copied page by page, with `avail` of them in the file. -/
def dataSize (avail n pageSize : Nat) : Nat := if n ≤ avail then n else avail / pageSize * pageSize

/-- The first page. -/
theorem dataSize_page {avail : Nat} (hpage : 0 < pageSize) (h : min pageSize n ≤ avail) :
    dataSize avail n pageSize =
      min pageSize n + dataSize (avail - min pageSize n) (n - min pageSize n) pageSize := by
  unfold dataSize
  by_cases hn : n ≤ avail
  · rw [if_pos hn, if_pos (by omega)]
    omega
  · have hk : min pageSize n = pageSize := by omega
    have hdiv : avail / pageSize = (avail - pageSize) / pageSize + 1 := by
      rw [← Nat.add_div_right _ hpage, Nat.sub_add_cancel (by omega)]
    rw [if_neg hn, hk, if_neg (by omega), hdiv, Nat.add_mul, Nat.one_mul, Nat.add_comm]

theorem take_drop_split {l : List Byte} {p k : Nat} (hk : k ≤ n) :
    (l.drop p).take n = (l.drop p).take k ++ (l.drop (p + k)).take (n - k) := by
  rw [← List.drop_drop, ← List.take_add, Nat.add_sub_cancel' hk]

/-- The state behind a page. -/
def Logged.copied (s : Logged) (file : List Byte) (a : Value) (k : Nat) : Logged :=
  Logged.wrote { s with file := s.file + k } a ((file.drop s.file).take k)

theorem copyLoop_page {fuel : Nat} (hzero : n ≠ 0) (hread : min pageSize n ≤ file.length - s.file) :
    (traced file address pageSize).copyLoop (fuel + 1) a n s =
      (traced file address pageSize).copyLoop fuel (a + BitVec.ofNat 64 (min pageSize n))
        (n - min pageSize n) (s.copied file a (min pageSize n)) := by
  conv_lhs => unfold MapArgs.copyLoop
  rw [if_neg hzero]
  exact (bind_of_ok (traced_read hread)).trans (bind_of_ok traced_write)

/-- A page and what is behind it. -/
theorem store_copied {k : Nat} (hk : k ≤ n) (hread : k ≤ file.length - s.file) (hn : n ≤ 2 ^ 64) :
    store (s.copied file a k).out.1 (a + BitVec.ofNat 64 k)
        ((file.drop (s.copied file a k).file).take (n - k)) =
      store s.out.1 a ((file.drop s.file).take n) := by
  have hlength : ((file.drop s.file).take k).length = k := by
    rw [List.length_take, List.length_drop, Nat.min_eq_left hread]
  have hrest : ((file.drop s.file).take k).length +
      ((file.drop (s.file + k)).take (n - k)).length ≤ 2 ^ 64 := by
    rw [hlength, List.length_take]
    omega
  have hboth := store_append s.out.1 a hrest
  rw [hlength] at hboth
  rw [take_drop_split hk, hboth]
  rfl

/-- The loop copies page after page, until a page is not in the file. -/
theorem acts_copyLoop (hpage : 0 < pageSize) {fuel : Nat} (hn : n ≤ fuel)
    (hfit : a.toNat + n < 2 ^ 64) :
    ∃ ws, Fills a.toNat (dataSize (file.length - s.file) n pageSize) ws ∧
      Acts ((traced file address pageSize).copyLoop fuel a n) s (n ≤ file.length - s.file)
        (store s.out.1 a ((file.drop s.file).take n)) ws := by
  induction fuel generalizing a n s with
  | zero =>
    obtain rfl : n = 0 := Nat.le_zero.1 hn
    exact ⟨[], .nil _, .pure (Nat.zero_le _)⟩
  | succ fuel ih =>
    by_cases hzero : n = 0
    · subst hzero
      exact ⟨[], .nil _, .pure (Nat.zero_le _)⟩
    have hk : min pageSize n ≤ n := Nat.min_le_right _ _
    by_cases hread : min pageSize n ≤ file.length - s.file
    · have hnext := toNat_advance hfit hk
      obtain ⟨ws, hfills, u, hu, hrun⟩ := ih (a := a + BitVec.ofNat 64 (min pageSize n))
        (n := n - min pageSize n) (s := s.copied file a (min pageSize n)) (by omega) (by omega)
      have havail : file.length - (s.copied file a (min pageSize n)).file =
          file.length - s.file - min pageSize n := Nat.sub_add_eq _ _ _
      rw [havail, store_copied hk hread (by omega)] at hrun
      rw [havail, hnext] at hfills
      refine ⟨(a, min pageSize n) :: ws, ?_, u, ?_, ?_⟩
      · rw [dataSize_page hpage hread]
        exact (Fills.single (by omega)).append hfills
      · rw [hu]
        simp [Logged.copied, Logged.wrote, hread]
      · rw [copyLoop_page hzero hread]
        exact hrun.imp (fun h => ⟨by omega, h.2⟩) fun h => ⟨by omega, h.2⟩
    · -- the page is not in the file
      have hnone : dataSize (file.length - s.file) n pageSize = 0 := by
        unfold dataSize
        rw [if_neg (by omega), Nat.div_eq_of_lt (by omega), Nat.zero_mul]
      rw [hnone]
      refine ⟨[], .nil _, { s with file := s.file + min pageSize n }, (List.append_nil _).symm,
        .inr ⟨by omega, .failed .error, ?_⟩⟩
      unfold MapArgs.copyLoop
      rw [if_neg hzero]
      exact bind_of_error (traced_read_short (Nat.lt_of_not_le hread))

/-- The loop clears page after page. -/
theorem acts_memsetLoop (hpage : 0 < pageSize) {fuel : Nat} (hn : n ≤ fuel)
    (hfit : a.toNat + n < 2 ^ 64) :
    ∃ ws, Fills a.toNat n ws ∧ Acts ((traced file address pageSize).memsetLoop fuel a n) s True
      (store s.out.1 a (List.replicate n 0)) ws := by
  induction fuel generalizing a n s with
  | zero =>
    obtain rfl : n = 0 := Nat.le_zero.1 hn
    exact ⟨[], .nil _, .pure trivial⟩
  | succ fuel ih =>
    unfold MapArgs.memsetLoop
    by_cases hzero : n = 0
    · subst hzero
      exact ⟨[], .nil _, .pure trivial⟩
    rw [if_neg hzero]
    have hk : min pageSize n ≤ n := Nat.min_le_right _ _
    have hnext := toNat_advance hfit hk
    let t : Logged := s.wrote a (List.replicate (min pageSize n) 0)
    obtain ⟨ws, hfills, u, hu, hrun⟩ := ih (a := a + BitVec.ofNat 64 (min pageSize n))
      (n := n - min pageSize n) (s := t) (by omega) (by omega)
    have hmem : store t.out.1 (a + BitVec.ofNat 64 (min pageSize n))
        (List.replicate (n - min pageSize n) 0) = store s.out.1 a (List.replicate n 0) := by
      have hrest : (List.replicate (min pageSize n) (0 : Byte)).length +
          (List.replicate (n - min pageSize n) (0 : Byte)).length ≤ 2 ^ 64 := by
        rw [List.length_replicate, List.length_replicate]
        omega
      have hboth := store_append s.out.1 a hrest
      rw [List.replicate_append_replicate, Nat.add_sub_cancel' hk, List.length_replicate] at hboth
      exact hboth.symm
    refine ⟨(a, min pageSize n) :: ws, ?_, u, ?_, ?_⟩
    · rw [hnext] at hfills
      have hboth := (Fills.single (b := a) (n := min pageSize n) (by omega)).append hfills
      rwa [Nat.add_sub_cancel' hk] at hboth
    · rw [hu]
      simp [t, Logged.wrote]
    · rw [hmem] at hrun
      rcases hrun with ⟨-, hok, hout⟩ | ⟨hno, -⟩
      · exact .inl ⟨trivial, (bind_of_ok traced_write).trans hok, hout⟩
      · exact absurd trivial hno

theorem toNat_ofNat_of_lt {n : Nat} (h : n < 2 ^ 64) : (BitVec.ofNat 64 n).toNat = n := by
  rw [BitVec.toNat_ofNat, Nat.mod_eq_of_lt h]

section

variable {α β σ : Type} {x : Except Status α} {f : α → EStateM Stop σ β} {b : α}
  {e : Status} {t : σ}

theorem orFail_bind_of_ok (h : x = .ok b) : (orFail x >>= f) t = f b t := h ▸ rfl

theorem orFail_bind_of_error (h : x = .error e) :
    (orFail x >>= f) t = .error (.failed e) t := h ▸ rfl

end

theorem acts_copyData (hpage : 0 < pageSize) (hfit : a.toNat + n < 2 ^ 64) :
    ∃ ws, Fills a.toNat (dataSize (file.length - s.file) n pageSize) ws ∧
      Acts ((traced file address pageSize).copyData a n) s (n ≤ file.length - s.file)
        (store s.out.1 a ((file.drop s.file).take n)) ws := by
  obtain ⟨ws, hfills, hacts⟩ := acts_copyLoop (s := s) hpage le_rfl hfit
  exact ⟨ws, hfills, hacts.of_eq
    (orFail_bind_of_ok (safeAdd_of_fit (by rwa [toNat_ofNat_of_lt (by omega)]))) rfl⟩

theorem acts_memsetData (hpage : 0 < pageSize) (hfit : a.toNat + n < 2 ^ 64) :
    ∃ ws, Fills a.toNat n ws ∧ Acts ((traced file address pageSize).memsetData a n) s True
      (store s.out.1 a (List.replicate n 0)) ws := by
  obtain ⟨ws, hfills, hacts⟩ := acts_memsetLoop (s := s) hpage le_rfl hfit
  exact ⟨ws, hfills, hacts.of_eq
    (orFail_bind_of_ok (safeAdd_of_fit (by rwa [toNat_ofNat_of_lt (by omega)]))) rfl⟩

end Pages

/-! ## Sections -/

namespace SectionHeader

variable (h : SectionHeader)

/-- The data of the section are in a file of this size. -/
def HasData (fileSize : Nat) : Prop := h.copiedSize ≤ fileSize - h.pointerToRawData.toNat

instance (fileSize : Nat) : Decidable (h.HasData fileSize) := inferInstanceAs (Decidable (_ ≤ _))

/-- The mapping goes on behind the section. -/
def Passes (address : Value) (sizeOfModule fileSize : Nat) : Prop :=
  ¬ h.Refused sizeOfModule ∧ h.HasData fileSize ∧
    address.toNat + h.virtualAddress.toNat + h.mappedSize < 2 ^ 64

/-- How much is written for the section, from its `VirtualAddress` on: less than all, where the file
ends or an address overflows. -/
def writtenSize (address : Value) (sizeOfModule fileSize pageSize : Nat) : Nat :=
  if h.Refused sizeOfModule ∨ 2 ^ 64 ≤ address.toNat + h.virtualAddress.toNat + h.copiedSize then 0
  else if h.HasData fileSize ∧ address.toNat + h.virtualAddress.toNat + h.mappedSize < 2 ^ 64 then
    h.mappedSize
  else dataSize (fileSize - h.pointerToRawData.toNat) h.copiedSize pageSize

/-- The data of the section. -/
def rawData (file : List Byte) : List Byte := (file.drop h.pointerToRawData.toNat).take h.copiedSize

/-- The section in a memory, with its data and zeros behind them. -/
def mapInto (file : List Byte) (address : Value) (m : Value → Byte) : Value → Byte :=
  let sectionVA := h.virtualAddress.setWidth 64 + address
  store (store m sectionVA (h.rawData file)) (sectionVA + BitVec.ofNat 64 h.copiedSize)
    (List.replicate (h.mappedSize - h.copiedSize) 0)

end SectionHeader

section Sections

variable {file : List Byte} {address v : Value} {pageSize M : Nat} {h : SectionHeader} {s : Logged}

theorem acts_copySection (hpage : 0 < pageSize) (hfit : v.toNat + h.copiedSize < 2 ^ 64) :
    ∃ ws,
    Fills v.toNat (dataSize (file.length - h.pointerToRawData.toNat) h.copiedSize pageSize) ws ∧
      Acts ((traced file address pageSize).copySection h v) s (h.HasData file.length)
        (store s.out.1 v (h.rawData file)) ws := by
  unfold MapArgs.copySection SectionHeader.rawData SectionHeader.HasData
  by_cases hzero : h.copiedSize = 0
  · rw [hzero]
    exact ⟨[], .nil _, .pure (Nat.zero_le _)⟩
  · rw [if_pos hzero]
    have hoffset : (h.pointerToRawData.setWidth 64).toNat = h.pointerToRawData.toNat :=
      BitVec.toNat_setWidth_of_le (by decide)
    obtain ⟨ws, hfills, hacts⟩ := acts_copyData
      (s := { s with file := (h.pointerToRawData.setWidth 64).toNat }) hpage hfit
    dsimp only at hfills hacts
    rw [hoffset] at hfills hacts
    exact ⟨ws, hfills, hacts.of_eq (bind_of_ok (traced_moveTo _)) rfl⟩

theorem acts_clearSection (hpage : 0 < pageSize)
    (hfit : v.toNat + (h.mappedSize - h.copiedSize) < 2 ^ 64) :
    ∃ ws, Fills v.toNat (h.mappedSize - h.copiedSize) ws ∧
      Acts ((traced file address pageSize).clearSection h v) s True
        (store s.out.1 v (List.replicate (h.mappedSize - h.copiedSize) 0)) ws := by
  unfold MapArgs.clearSection
  by_cases htail : h.copiedSize < h.mappedSize
  · rw [if_pos htail]
    exact acts_memsetData hpage hfit
  · rw [if_neg htail, Nat.sub_eq_zero_of_le (Nat.le_of_not_lt htail)]
    exact ⟨[], .nil _, .pure trivial⟩

/-- The tail of a section whose end overflows is not cleared. -/
theorem clearSection_of_not_fit (hv : v.toNat < 2 ^ 64)
    (hfit : 2 ^ 64 ≤ v.toNat + (h.mappedSize - h.copiedSize)) :
    (traced file address pageSize).clearSection h v s = .error (.failed .overflow) s := by
  have hmapped := h.mappedSize_lt
  unfold MapArgs.clearSection
  rw [if_pos (by omega)]
  exact orFail_bind_of_error (safeAdd_of_not_fit (by rwa [toNat_ofNat_of_lt (by omega)]))

/-- Where a section starts and where its data end, if both are addresses. -/
theorem section_addresses (hfit : address.toNat + h.virtualAddress.toNat + h.copiedSize < 2 ^ 64) :
    (h.virtualAddress.setWidth 64 + address).toNat = address.toNat + h.virtualAddress.toNat ∧
      (h.virtualAddress.setWidth 64 + address + BitVec.ofNat 64 h.copiedSize).toNat =
        address.toNat + h.virtualAddress.toNat + h.copiedSize := by
  have hva : (h.virtualAddress.setWidth 64).toNat = h.virtualAddress.toNat :=
    BitVec.toNat_setWidth_of_le (by decide)
  have hstart : (h.virtualAddress.setWidth 64 + address).toNat =
      address.toNat + h.virtualAddress.toNat := by
    rw [BitVec.toNat_add, hva]
    omega
  exact ⟨hstart, by rw [toNat_advance (n := h.copiedSize) (by omega) le_rfl, hstart]⟩

/-- A section whose start, or the end of its data, overflows is not mapped. -/
theorem mapSection_of_not_fit (hrefused : ¬ h.Refused M)
    (hspace : 2 ^ 64 ≤ address.toNat + h.virtualAddress.toNat + h.copiedSize) :
    (traced file address pageSize).mapSection M h s = .error (.failed .overflow) s := by
  have hmapped := h.mappedSize_lt
  have hcopied := h.copiedSize_le
  have hva : (h.virtualAddress.setWidth 64).toNat = h.virtualAddress.toNat :=
    BitVec.toNat_setWidth_of_le (by decide)
  unfold MapArgs.mapSection
  rw [if_neg hrefused]
  by_cases hstart : 2 ^ 64 ≤ (h.virtualAddress.setWidth 64).toNat + address.toNat
  · exact orFail_bind_of_error (safeAdd_of_not_fit hstart)
  · refine (orFail_bind_of_ok (safeAdd_of_fit (Nat.lt_of_not_le hstart))).trans
      (orFail_bind_of_error (safeAdd_of_not_fit ?_))
    rw [BitVec.toNat_add, hva, toNat_ofNat_of_lt (by omega)]
    omega

/-- Where nothing overflows before, a section is its data and its tail. -/
theorem mapSection_of_fit (hrefused : ¬ h.Refused M)
    (hspace : address.toNat + h.virtualAddress.toNat + h.copiedSize < 2 ^ 64) :
    (traced file address pageSize).mapSection M h s =
      ((traced file address pageSize).copySection h
        (h.virtualAddress.setWidth 64 + address) >>= fun _ =>
        (traced file address pageSize).clearSection h
          (h.virtualAddress.setWidth 64 + address + BitVec.ofNat 64 h.copiedSize)) s := by
  have hva : (h.virtualAddress.setWidth 64).toNat = h.virtualAddress.toNat :=
    BitVec.toNat_setWidth_of_le (by decide)
  have hstart := (section_addresses hspace).1
  unfold MapArgs.mapSection
  rw [if_neg hrefused]
  refine (orFail_bind_of_ok
    (safeAdd_of_fit (by rw [hva]; change _ + address.toNat < _; omega))).trans
    (orFail_bind_of_ok (safeAdd_of_fit ?_))
  rw [toNat_ofNat_of_lt (by omega)]
  change (h.virtualAddress.setWidth 64 + address).toNat + _ < _
  omega

theorem dataSize_of_le {avail n : Nat} (h : n ≤ avail) : dataSize avail n pageSize = n := if_pos h

/-- What is written for a section, and what it leaves. -/
theorem acts_mapSection (hpage : 0 < pageSize) :
    ∃ ws, Fills (address.toNat + h.virtualAddress.toNat)
        (h.writtenSize address M file.length pageSize) ws ∧
      Acts ((traced file address pageSize).mapSection M h) s (h.Passes address M file.length)
        (h.mapInto file address s.out.1) ws := by
  have hmapped := h.mappedSize_lt
  have hcopied := h.copiedSize_le
  unfold SectionHeader.writtenSize SectionHeader.Passes SectionHeader.mapInto
  by_cases hrefused : h.Refused M
  · rw [if_pos (.inl hrefused)]
    refine ⟨[], .nil _, .fail (fun hpasses => hpasses.1 hrefused) (e := .failed .error) ?_⟩
    unfold MapArgs.mapSection
    rw [if_pos hrefused]
    rfl
  by_cases hspace : 2 ^ 64 ≤ address.toNat + h.virtualAddress.toNat + h.copiedSize
  · rw [if_pos (.inr hspace)]
    exact ⟨[], .nil _, .fail (fun hpasses => by omega) (mapSection_of_not_fit hrefused hspace)⟩
  rw [if_neg (by rw [not_or]; exact ⟨hrefused, hspace⟩)]
  rw [Nat.not_le] at hspace
  obtain ⟨hstart, hend⟩ := section_addresses hspace
  have hmap : (traced file address pageSize).mapSection M h s = _ :=
    mapSection_of_fit hrefused hspace
  obtain ⟨ws, hfills, hcopy⟩ := acts_copySection (h := h) (s := s)
    (v := h.virtualAddress.setWidth 64 + address) hpage (by omega)
  rw [hstart] at hfills
  by_cases hdata : h.HasData file.length
  · rw [dataSize_of_le hdata] at hfills ⊢
    by_cases hover : address.toNat + h.virtualAddress.toNat + h.mappedSize < 2 ^ 64
    · rw [if_pos ⟨hdata, hover⟩]
      obtain ⟨ws', hfills', hboth⟩ := hcopy.bind hdata fun t ht => ht ▸
        acts_clearSection (h := h) (s := t)
          (v := h.virtualAddress.setWidth 64 + address + BitVec.ofNat 64 h.copiedSize)
          hpage (by omega)
      have hall := hfills.append (hend ▸ hfills')
      rw [Nat.add_sub_cancel' hcopied] at hall
      exact ⟨ws ++ ws', hall,
        (hboth.congr (iff_of_true trivial ⟨hrefused, hdata, hover⟩) fun _ => rfl).of_eq
        hmap rfl⟩
    · -- the tail overflows
      rw [if_neg fun hboth => hover hboth.2]
      have hno : ¬ h.Passes address M file.length := fun hpasses => hover hpasses.2.2
      obtain ⟨ws', rfl, hboth⟩ := hcopy.bind (P := (· = [])) hdata fun t _ =>
        ⟨[], rfl, .fail (m := h.mapInto file address s.out.1) hno
          (clearSection_of_not_fit (h := h)
            (v := h.virtualAddress.setWidth 64 + address + BitVec.ofNat 64 h.copiedSize) (by omega)
            (by omega))⟩
      rw [List.append_nil] at hboth
      exact ⟨ws, hfills, hboth.of_eq hmap rfl⟩
  · rw [if_neg fun hboth => hdata hboth.1]
    exact ⟨ws, hfills, (hcopy.bind_of_not hdata fun hpasses => hdata hpasses.2.1).of_eq hmap rfl⟩

end Sections

/-! ## Relocations -/

/-- A memory that takes every access, with a trace of the writes. -/
abbrev tracedMemory : RandomStream ((Value → Byte) × List (Value × Nat)) :=
  (memoryStream fun _ _ => true).logged

/-- The address of a sub entry's target does not overflow. -/
def Addressable (address : Value) (virtualAddress : BitVec 32) (subEntry : BitVec 16) : Prop :=
  address.toNat + (rawTarget virtualAddress subEntry).toNat < 2 ^ 64

instance (address : Value) (virtualAddress : BitVec 32) (subEntry : BitVec 16) :
    Decidable (Addressable address virtualAddress subEntry) := inferInstanceAs (Decidable (_ < _))

/-- The targets of a block, up to the first one whose address overflows. -/
def reachedTargets (address : Value) (virtualAddress : BitVec 32) (subEntries : List (BitVec 16)) :
    List Target :=
  (subEntries.takeWhile fun e => Addressable address virtualAddress e).filterMap
    (targetOf virtualAddress)

/-- The write to a target. -/
def Target.write (address : Value) (t : Target) :
    Value × Nat := (address + BitVec.ofNat 64 t.rva, t.kind.width)

section Relocations

variable {address diff : Value} {va : BitVec 32} {e : BitVec 16} {relocs : List Byte} {o : Nat}
  {s : (Value → Byte) × List (Value × Nat)}

/-- A target of a sub entry is written. -/
theorem processSubEntry_traced (h : Addressable address va e) :
    ∃ t, processSubEntry tracedMemory address va diff e s = .ok () t ∧
      t.2 = s.2 ++ (targetOf va e).toList.map (Target.write address) := by
  unfold processSubEntry targetOf
  by_cases hraw : rawTarget va e = 0
  · refine ⟨s, by rw [if_pos hraw]; rfl, ?_⟩
    simp [hraw]
  · have hadd : safeAdd address ((rawTarget va e).setWidth 64) =
        .ok (address + (rawTarget va e).setWidth 64) := safeAdd_of_fit (by
      rw [BitVec.toNat_setWidth_of_le (by decide)]
      exact h)
    rw [if_neg hraw, hadd]
    rcases hkind : Kind.ofType (e >>> 12).toNat with _ | kind
    · exact ⟨s, rfl, by simp⟩
    · have hread : readExact tracedMemory (address + (rawTarget va e).setWidth 64) kind.width s =
          .ok (load s.1 (address + (rawTarget va e).setWidth 64) kind.width) s := by
        simp [readExact, RandomStream.logged, memoryStream]
      refine ⟨_, (bind_of_ok hread).trans writeExact_logged, ?_⟩
      rw [if_neg hraw]
      simp [Target.write, length_change, BitVec.ofNat_toNat]

/-- An address that overflows ends the loop. -/
theorem processSubEntry_of_not (h : ¬ Addressable address va e) :
    processSubEntry tracedMemory address va diff e s = .error .overflow s := by
  have hraw : rawTarget va e ≠ 0 := by
    intro hzero
    unfold Addressable at h
    rw [hzero] at h
    exact h address.isLt
  unfold processSubEntry
  rw [if_neg hraw, safeAdd_of_not_fit]
  · rfl
  · rw [BitVec.toNat_setWidth_of_le (by decide)]
    exact Nat.le_of_not_lt h

/-- A block is relocated up to the first target whose address overflows. -/
theorem processRelocationEntry_traced (l : List (BitVec 16)) :
    ∃ t, t.2 = s.2 ++ (reachedTargets address va l).map (Target.write address) ∧
      ((∀ e ∈ l, Addressable address va e) ∧
          processRelocationEntry tracedMemory address va diff l s = .ok () t ∨
        (¬ ∀ e ∈ l, Addressable address va e) ∧
          ∃ e, processRelocationEntry tracedMemory address va diff l s = .error e t) := by
  induction l generalizing s with
  | nil => exact ⟨s, by simp [reachedTargets], .inl ⟨nofun, rfl⟩⟩
  | cons e l ih =>
    unfold processRelocationEntry
    by_cases h : Addressable address va e
    · obtain ⟨t, hentry, htrace⟩ := processSubEntry_traced (s := s) h
      obtain ⟨u, hrest, hrun⟩ := ih (s := t)
      refine ⟨u, ?_, ?_⟩
      · rw [hrest, htrace, List.append_assoc, ← List.map_append]
        cases htarget : targetOf va e <;> simp [reachedTargets, h, htarget]
      · rw [bind_of_ok hentry, List.forall_mem_cons]
        exact hrun.imp (fun hall => ⟨⟨h, hall.1⟩, hall.2⟩) fun hno =>
          ⟨fun hall => hno.1 hall.2, hno.2⟩
    · refine ⟨s, by simp [reachedTargets, h], .inr ⟨?_, .overflow, ?_⟩⟩
      · exact fun hall => h (hall e List.mem_cons_self)
      · exact bind_of_error (processSubEntry_of_not h)

end Relocations

/-! ## Memories that refuse an access -/

section Refusing

variable {ok : Value → Nat → Bool} {file : List Byte} {address diff a : Value} {pageSize n : Nat}

abbrev Logged.trace (s : Logged) : List (Value × Nat) := s.out.2

theorem cuts_onFile {α : Type} (x : Source Nat α) : Cuts Logged.trace (onFile x) (onFile x) := by
  intro s
  refine ⟨?_, .inl rfl⟩
  unfold after onFile
  cases x s.file <;> exact List.prefix_rfl

theorem cuts_onOut {α : Type} {x y : Run ((Value → Byte) × List (Value × Nat)) α}
    (h : Cuts Prod.snd x y) : Cuts Logged.trace (onOut x) (onOut y) := by
  intro s
  obtain ⟨hgrows, hrun⟩ := h s.out
  have hafter : Logged.trace (after (onOut y) s) = (after y s.out).2 := by
    unfold after onOut
    cases y s.out <;> rfl
  rw [hafter]
  refine ⟨hgrows, ?_⟩
  rcases hrun with heq | ⟨e, t, hfail, hlog⟩
  · left
    unfold onOut
    rw [heq]
  · refine .inr ⟨.failed e, { s with out := t }, ?_, hlog⟩
    unfold onOut
    rw [hfail]

theorem cuts_orFail {α : Type} (x : Except Status α) :
    Cuts Logged.trace (orFail x : Mapping Nat _ α) (orFail x) := by
  cases x with
  | ok a => exact .pure a
  | error e => exact .throw _

theorem cuts_readExact : Cuts Prod.snd (readExact (memoryStream ok).logged a n)
    (readExact tracedMemory a n) := by
  intro s
  have hread : readExact tracedMemory a n s = .ok (load s.1 a n) s := by
    simp [readExact, RandomStream.logged, memoryStream]
  rw [after_of_ok hread, hread]
  refine ⟨List.prefix_rfl, ?_⟩
  cases hok : ok a n with
  | true => exact .inl (by simp [readExact, RandomStream.logged, memoryStream, hok])
  | false =>
    exact .inr ⟨.error, s, by simp [readExact, RandomStream.logged, memoryStream, hok],
      List.prefix_rfl⟩

theorem cuts_writeExact {bs : List Byte} :
    Cuts Prod.snd (writeExact (memoryStream ok).logged a bs) (writeExact tracedMemory a bs) := by
  intro s
  rw [after_of_ok writeExact_logged, writeExact_logged]
  refine ⟨List.prefix_append _ _, ?_⟩
  cases hok : ok a bs.length with
  | true =>
    left
    rw [writeExact_apply (r := .ok bs.length) (t := (store s.1 a bs, s.2 ++ [(a, bs.length)]))]
    · exact if_pos rfl
    · simp [RandomStream.logged, memoryStream, hok]
  | false =>
    refine .inr ⟨.error, (s.1, s.2 ++ [(a, bs.length)]), ?_, List.prefix_rfl⟩
    rw [writeExact_apply (r := .error .error) (t := (s.1, s.2 ++ [(a, bs.length)]))]
    simp [RandomStream.logged, memoryStream, hok]

theorem cuts_copyLoop (fuel : Nat) :
    Cuts Logged.trace ((memoryArgs file ok address pageSize).logged.copyLoop fuel a n)
    ((traced file address pageSize).copyLoop fuel a n) := by
  induction fuel generalizing a n with
  | zero => exact .pure ()
  | succ fuel ih =>
    unfold MapArgs.copyLoop
    exact .ite (.pure ()) (.bind (cuts_onFile _) fun _ => .bind (cuts_onOut cuts_writeExact)
      fun _ => ih)

theorem cuts_memsetLoop (fuel : Nat) :
    Cuts Logged.trace ((memoryArgs file ok address pageSize).logged.memsetLoop fuel a n)
      ((traced file address pageSize).memsetLoop fuel a n) := by
  induction fuel generalizing a n with
  | zero => exact .pure ()
  | succ fuel ih =>
    unfold MapArgs.memsetLoop
    exact .ite (.pure ()) (.bind (cuts_onOut cuts_writeExact) fun _ => ih)

theorem cuts_copyData :
    Cuts Logged.trace ((memoryArgs file ok address pageSize).logged.copyData a n)
    ((traced file address pageSize).copyData a n) :=
  .bind (cuts_orFail _) fun _ => cuts_copyLoop n

theorem cuts_memsetData :
    Cuts Logged.trace ((memoryArgs file ok address pageSize).logged.memsetData a n)
    ((traced file address pageSize).memsetData a n) :=
  .bind (cuts_orFail _) fun _ => cuts_memsetLoop n

theorem cuts_mapSection (M : Nat) (h : SectionHeader) :
    Cuts Logged.trace ((memoryArgs file ok address pageSize).logged.mapSection M h)
      ((traced file address pageSize).mapSection M h) := by
  refine .ite (.throw _) (.bind (cuts_orFail _) fun va => .bind (cuts_orFail _) fun vaEnd => ?_)
  exact .bind (.ite (.bind (cuts_onFile _) fun _ => cuts_copyData) (.pure ())) fun _ =>
    .ite cuts_memsetData (.pure ())

theorem cuts_mapSections (M : Nat) (l : List SectionHeader) :
    Cuts Logged.trace ((memoryArgs file ok address pageSize).logged.mapSections M l)
      ((traced file address pageSize).mapSections M l) := by
  induction l with
  | nil => exact .pure ()
  | cons h l ih => exact .bind (cuts_mapSection M h) fun _ => ih

theorem cuts_processSubEntry (va : BitVec 32) (e : BitVec 16) :
    Cuts Prod.snd (processSubEntry (memoryStream ok).logged address va diff e)
      (processSubEntry tracedMemory address va diff e) := by
  refine .ite (.pure ()) ?_
  cases safeAdd address ((rawTarget va e).setWidth 64) with
  | error e => exact .throw e
  | ok a =>
    cases Kind.ofType (e >>> 12).toNat with
    | none => exact .pure ()
    | some kind => exact .bind cuts_readExact fun _ => cuts_writeExact

theorem cuts_processRelocationEntry (va : BitVec 32) (l : List (BitVec 16)) :
    Cuts Prod.snd (processRelocationEntry (memoryStream ok).logged address va diff l)
      (processRelocationEntry tracedMemory address va diff l) := by
  induction l with
  | nil => exact .pure ()
  | cons e l ih => exact .bind (cuts_processSubEntry va e) fun _ => ih

/-! ### The walk over the blocks -/

section Blocks

variable {σ : Type} {A : MapArgs Nat σ} {pe : PeFile} {alloc : Bool} {fuel : Nat}
  {s : MapState Nat σ} {relocs : List Byte}

theorem relocateBlocks_of_error {e : Status}
    (hcapture : captureRelocs A.out alloc pe.relocationDirectory pe.imageBase A.address s.out =
      .error e) :
    A.relocateBlocks pe alloc fuel s = .error (.failed e) s := by
  unfold MapArgs.relocateBlocks
  rw [hcapture]

theorem relocateBlocks_of_none
    (hcapture : captureRelocs A.out alloc pe.relocationDirectory pe.imageBase A.address s.out =
      .ok none) :
    A.relocateBlocks pe alloc fuel s = .ok () s := by
  unfold MapArgs.relocateBlocks
  rw [hcapture]

/-- What the mapping makes of the end of a walk. -/
def endOfWalk (s : MapState Nat σ) :
    (Nat × σ) ⊕ (Except Status Unit × σ) → EStateM.Result Stop (MapState Nat σ) Unit
  | .inl (_, t) => .error .outOfFuel { s with out := t }
  | .inr (.error e, t) => .error (.failed e) { s with out := t }
  | .inr (.ok (), t) => .ok () { s with out := t }

theorem relocateBlocks_of_some (fuel : Nat)
    (hcapture : captureRelocs A.out alloc pe.relocationDirectory pe.imageBase A.address s.out =
      .ok (some relocs)) :
    A.relocateBlocks pe alloc fuel s = endOfWalk s
      (runFrom (fun _ => blockTurn A.out A.address (A.address - pe.imageBase) relocs) 0 fuel (0,
        s.out)) := by
  unfold MapArgs.relocateBlocks
  rw [hcapture]
  dsimp only
  rcases runFrom (fun _ => blockTurn A.out A.address (A.address - pe.imageBase) relocs) 0 fuel
    (0, s.out) with
    ⟨o, t⟩ | ⟨e | _, t⟩ <;> rfl

end Blocks

/-- What a loop over a state with a trace leads to. -/
abbrev Turned := (Nat × (Value → Byte) × List (Value × Nat)) ⊕
    (Except Status Unit × (Value → Byte) × List (Value × Nat))

/-- The trace where a turn ends. -/
def Turned.trace : Turned → List (Value × Nat)
  | .inl p => p.2.2
  | .inr r => r.2.2

/-- `Cuts`, for one turn or more of the walk. -/
def CutsTurn (log : List (Value × Nat)) (p q : Turned) : Prop :=
  log <+: Turned.trace q ∧ (p = q ∨ ∃ e t, p = .inr (.error e, t) ∧ t.2 <+: Turned.trace q)

theorem cuts_blockTurn (ok : Value → Nat → Bool) (relocs : List Byte) (o : Nat)
    (s : (Value → Byte) × List (Value × Nat)) :
    CutsTurn s.2 (blockTurn (memoryStream ok).logged address diff relocs (o, s))
      (blockTurn tracedMemory address diff relocs (o, s)) := by
  unfold blockTurn
  dsimp only
  split
  · split
    · exact ⟨List.prefix_rfl, .inl rfl⟩
    · obtain ⟨hgrows, hrun⟩ :=
        cuts_processRelocationEntry (virtualAddressAt relocs o)
          (subEntriesAt relocs o (subEntriesCount (sizeOfBlockAt relocs o))) s
      rcases hy : processRelocationEntry tracedMemory address (virtualAddressAt relocs o) diff
        (subEntriesAt relocs o (subEntriesCount (sizeOfBlockAt relocs o))) s with ⟨_, t⟩ | ⟨e, t⟩
      · rw [after_of_ok hy] at hgrows hrun
        refine ⟨hgrows, ?_⟩
        rcases hrun with heq | ⟨e, u, hfail, hlog⟩
        · rw [heq, hy]
          exact .inl rfl
        · rw [hfail]
          exact .inr ⟨e, u, rfl, hlog⟩
      · rw [after_of_error hy] at hgrows hrun
        refine ⟨hgrows, ?_⟩
        rcases hrun with heq | ⟨e', u, hfail, hlog⟩
        · rw [heq, hy]
          exact .inl rfl
        · rw [hfail]
          exact .inr ⟨e', u, rfl, hlog⟩
  · exact ⟨List.prefix_rfl, .inl rfl⟩

theorem cuts_runFrom (relocs : List Byte) (k fuel o : Nat)
    (s : (Value → Byte) × List (Value × Nat)) :
    CutsTurn s.2
    (runFrom (fun _ => blockTurn (memoryStream ok).logged address diff relocs) k fuel (o, s))
      (runFrom (fun _ => blockTurn tracedMemory address diff relocs) k fuel (o, s)) := by
  induction fuel generalizing k o s with
  | zero =>
    change CutsTurn s.2 (.inl (o, s)) (.inl (o, s))
    exact ⟨List.prefix_rfl, .inl rfl⟩
  | succ fuel ih =>
    obtain ⟨hgrows, hturn⟩ := cuts_blockTurn ok relocs o s
    rcases hy : blockTurn tracedMemory address diff relocs (o, s) with ⟨o', t⟩ | r
    · rw [hy] at hgrows hturn
      obtain ⟨hgrows', hrun⟩ := ih (k + 1) o' t
      have hrest : runFrom (fun _ => blockTurn tracedMemory address diff relocs) k (fuel + 1)
          (o, s) = _ := runFrom_inl hy
      rw [hrest]
      refine ⟨List.IsPrefix.trans hgrows hgrows', ?_⟩
      rcases hturn with heq | ⟨e, u, hfail, hlog⟩
      · rw [runFrom_inl heq]
        exact hrun
      · rw [runFrom_inr hfail]
        exact .inr ⟨e, u, rfl, List.IsPrefix.trans hlog hgrows'⟩
    · rw [hy] at hgrows hturn
      have hend : runFrom (fun _ => blockTurn tracedMemory address diff relocs) k (fuel + 1)
          (o, s) = _ := runFrom_inr hy
      rw [hend]
      refine ⟨hgrows, ?_⟩
      rcases hturn with heq | ⟨e, u, hfail, hlog⟩
      · rw [runFrom_inr heq]
        exact .inl rfl
      · rw [runFrom_inr hfail]
        exact .inr ⟨e, u, rfl, hlog⟩

/-- The directory is captured as it is, or not at all. -/
theorem captureRelocs_refusing (ok : Value → Nat → Bool) (address : Value) (alloc : Bool)
    (dir : Directory) (imageBase : Value)
    (s : (Value → Byte) × List (Value × Nat)) :
    captureRelocs (memoryStream ok).logged alloc dir imageBase address s =
        captureRelocs tracedMemory true dir imageBase address s ∨
      ∃ e, captureRelocs (memoryStream ok).logged alloc dir imageBase address s = .error e := by
  unfold captureRelocs
  split
  · exact .inl rfl
  split
  · exact .inl rfl
  split
  · exact .inl rfl
  by_cases halloc : alloc = false
  · exact .inr ⟨.outOfMemory, if_pos halloc⟩
  rw [if_neg halloc, if_neg nofun]
  by_cases hok : ok (address + dir.virtualAddress.setWidth 64) dir.size.toNat = true
  · left
    simp only [RandomStream.logged, memoryStream, if_pos hok, if_true]
  · right
    simp [RandomStream.logged, memoryStream, hok]

/-- The trace where a walk ends is that of the mapping. -/
theorem after_endOfWalk {x : Mapping Nat ((Value → Byte) × List (Value × Nat)) Unit} {s : Logged}
    {r : Turned} (h : x s = endOfWalk s r) : Logged.trace (after x s) = Turned.trace r := by
  unfold after
  rw [h]
  rcases r with ⟨o, t⟩ | ⟨e | _, t⟩ <;> rfl

theorem cuts_relocateBlocks (pe : PeFile) (alloc : Bool) (fuel : Nat) :
    Cuts Logged.trace ((memoryArgs file ok address pageSize).logged.relocateBlocks pe alloc fuel)
      ((traced file address pageSize).relocateBlocks pe true fuel) := by
  intro s
  have hcapture := captureRelocs_refusing ok address alloc pe.relocationDirectory pe.imageBase s.out
  rcases hy : captureRelocs tracedMemory true pe.relocationDirectory pe.imageBase address s.out
    with e | _ | relocs
  · have hrun : (traced file address pageSize).relocateBlocks pe true fuel s =
        .error (.failed e) s :=
      relocateBlocks_of_error hy
    rw [after_of_error hrun]
    refine ⟨List.prefix_rfl, ?_⟩
    rcases hcapture with hx | ⟨e', hx⟩
    · exact .inl ((relocateBlocks_of_error (hx.trans hy)).trans hrun.symm)
    · exact .inr ⟨.failed e', s, relocateBlocks_of_error hx, List.prefix_rfl⟩
  · have hrun : (traced file address pageSize).relocateBlocks pe true fuel s = .ok () s :=
      relocateBlocks_of_none hy
    rw [after_of_ok hrun]
    refine ⟨List.prefix_rfl, ?_⟩
    rcases hcapture with hx | ⟨e', hx⟩
    · exact .inl ((relocateBlocks_of_none (hx.trans hy)).trans hrun.symm)
    · exact .inr ⟨.failed e', s, relocateBlocks_of_error hx, List.prefix_rfl⟩
  · have hrun := relocateBlocks_of_some (A := traced file address pageSize) fuel hy
    obtain ⟨hgrows, hwalk⟩ := cuts_runFrom relocs 0 fuel 0 s.out
    rw [after_endOfWalk hrun]
    refine ⟨hgrows, ?_⟩
    rcases hcapture with hx | ⟨e', hx⟩
    · have hrun' := relocateBlocks_of_some (A := (memoryArgs file ok address pageSize).logged)
        fuel (hx.trans hy)
      rcases hwalk with heq | ⟨e, t, hfail, hlog⟩
      · exact .inl (hrun'.trans ((congrArg (endOfWalk s) heq).trans hrun.symm))
      · exact .inr ⟨.failed e, { s with out := t },
          hrun'.trans (congrArg (endOfWalk s) hfail), hlog⟩
    · exact .inr ⟨.failed e', s, relocateBlocks_of_error hx, hgrows⟩

theorem cuts_mapEx (pe : PeFile) (doNotRelocate alloc : Bool) (fuel : Nat) :
    Cuts Logged.trace
    ((memoryArgs file ok address pageSize).logged.mapEx pe doNotRelocate alloc fuel)
      ((traced file address pageSize).mapEx pe doNotRelocate true fuel) := by
  refine .ite (.throw _) (.ite (.throw _) (.ite (.throw _) (.bind (cuts_onFile _) fun _ => ?_)))
  refine .bind cuts_copyData fun _ => .bind (cuts_mapSections _ _) fun _ => .ite (.pure ()) ?_
  exact .bind (cuts_relocateBlocks pe alloc fuel) fun _ => cuts_onOut cuts_writeExact

end Refusing

end Diana.Pe
