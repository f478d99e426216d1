import Diana.Orthia.Storage

/-!
# The overlay memory is a byte map over its reader

`Overlay` says what the storage is for: the last byte written to an address, and which addresses lie
in a modified page. `Storage.Refines` connects it to the pages; `read` gives the bytes of the view,
`write` writes to it.
-/

namespace Diana.Orthia

open Diana.Lib

/-! ## Pages -/

section

variable {ps : PageSize} {a b k : Nat}

theorem PageSize.pos (ps : PageSize) : 0 < ps.bytes := by
  have := ps.le
  omega

theorem PageSize.start_le (ps : PageSize) (a : Nat) : ps.start a ≤ a := Nat.sub_le _ _

theorem PageSize.lt_start (ps : PageSize) (a : Nat) : a < ps.start a + ps.bytes := by
  have := Nat.mod_lt a ps.pos
  have := Nat.mod_le a ps.bytes
  unfold PageSize.start
  omega

theorem PageSize.start_add_mod (ps : PageSize) (a : Nat) : ps.start a + a % ps.bytes = a :=
  Nat.sub_add_cancel (Nat.mod_le _ _)

theorem PageSize.dvd_start (ps : PageSize) (a : Nat) : ps.bytes ∣ ps.start a :=
  Nat.dvd_sub_mod a

/-- A page is that of the addresses in it. -/
theorem PageSize.start_eq (hk : ps.bytes ∣ k) (h1 : k ≤ a) (h2 : a < k + ps.bytes) :
    ps.start a = k := by
  obtain ⟨c, rfl⟩ := hk
  have hm : a % ps.bytes = a - ps.bytes * c := by
    obtain ⟨i, rfl⟩ := Nat.exists_eq_add_of_le h1
    rw [Nat.mul_add_mod, Nat.mod_eq_of_lt (by omega)]
    omega
  unfold PageSize.start
  omega

theorem PageSize.mod_eq (hk : ps.bytes ∣ k) (h1 : k ≤ a) (h2 : a < k + ps.bytes) :
    a % ps.bytes = a - k := by
  have := ps.start_add_mod a
  rw [ps.start_eq hk h1 h2] at this
  omega

/-- Two pages do not overlap. -/
theorem PageSize.add_le {k' : Nat} (hk : ps.bytes ∣ k) (hk' : ps.bytes ∣ k') (h : k < k') :
    k + ps.bytes ≤ k' := by
  obtain ⟨c, rfl⟩ := hk
  obtain ⟨d, rfl⟩ := hk'
  have hcd : c < d := Nat.lt_of_mul_lt_mul_left h
  calc ps.bytes * c + ps.bytes = ps.bytes * (c + 1) := (Nat.mul_succ _ _).symm
    _ ≤ ps.bytes * d := Nat.mul_le_mul_left _ hcd

end

namespace Storage

variable {ps : PageSize} (R : Reader) (s : Storage ps)

/-- The byte of a modified page. -/
def pageByte (a : Nat) : Option Byte := (s.pages.find (ps.start a)).bind (·[a % ps.bytes]?)

/-- The byte at an address: that of its page, or the reader's. -/
def content (a : Nat) : Option Byte := (s.pageByte a).or (R.byte a)

variable {R s} {a k : Nat} {d : List Byte}

theorem content_of_find (h : s.pages.find k = some d) (h1 : k ≤ a) (h2 : a < k + ps.bytes) :
    s.content R a = d[a - k]? := by
  obtain ⟨hk, hd⟩ := s.page k d h
  have hlt : a - k < d.length := by omega
  unfold content pageByte
  rw [ps.start_eq hk h1 h2, ps.mod_eq hk h1 h2, h, Option.bind_some, List.getElem?_eq_getElem hlt]
  rfl

theorem content_of_find_none (h : s.pages.find (ps.start a) = none) : s.content R a = R.byte a := by
  unfold content pageByte
  rw [h]
  rfl

end Storage

/-! ## Reading -/

section

variable {R : Reader} {ps : Nat} {V : Nat → Option Byte}

/-- The entries of a page map from an iterator on, and the content `V` they are read for. -/
structure PagesOf (R : Reader) (ps : Nat) (V : Nat → Option Byte) (off : Nat)
    (L : List (Nat × List Byte)) : Prop where
  sep : L.Pairwise fun e e' => e.1 + ps ≤ e'.1
  length : ∀ e ∈ L, e.2.length = ps
  page : ∀ e ∈ L, ∀ i < ps, V (e.1 + i) = e.2[i]?
  gap : ∀ a, off ≤ a → (∀ e ∈ L, a < e.1 ∨ e.1 + ps ≤ a) → V a = R.byte a

/-- The stretches between the pages that a read up to `stop` crosses fit into a buffer. -/
def GapsFit (ps stop : Nat) (L : List (Nat × List Byte)) : Prop :=
  ∀ l₁ e e' l₂, L = l₁ ++ e :: e' :: l₂ → e.1 + ps < stop → e'.1 - ps - e.1 ≤ maxSize

theorem PagesOf.tail {off off' : Nat} {e : Nat × List Byte} {L : List (Nat × List Byte)}
    (h : PagesOf R ps V off (e :: L)) (ho : off ≤ off') (he : e.1 + ps ≤ off') :
    PagesOf R ps V off' L where
  sep := (List.pairwise_cons.1 h.sep).2
  length := fun e' he' => h.length e' (List.mem_cons_of_mem _ he')
  page := fun e' he' => h.page e' (List.mem_cons_of_mem _ he')
  gap := by
    intro a ha hL
    refine h.gap a (by omega) fun e' he' => ?_
    rcases List.mem_cons.1 he' with rfl | he'
    · exact .inr (by omega)
    · exact hL e' he'

/-- The bytes of a page, read from an offset on. -/
theorem readFrom_page {k off n : Nat} {d : List Byte} (hd : d.length = ps)
    (hV : ∀ i < ps, V (k + i) = d[i]?) (hk : k ≤ off) (hn : off + n ≤ k + ps) :
    readFrom V off n = (d.drop (off - k)).take n := by
  have hlen : ((d.drop (off - k)).take n).length = n := by
    rw [List.length_take, List.length_drop]
    omega
  have h := readFrom_eq_of_get (V := V) off ((d.drop (off - k)).take n) ?_
  · rwa [hlen] at h
  · intro i b hb
    have hi : i < n := by
      have := (List.getElem?_eq_some_iff.1 hb).1
      omega
    rw [List.getElem?_take_of_lt hi, List.getElem?_drop] at hb
    rw [show off + i = k + (off - k + i) by omega, hV _ (by omega)]
    exact hb

/-- The bytes between two pages come from the reader. -/
theorem PagesOf.readFrom_gap {off next n : Nat} {e : Nat × List Byte} {L : List (Nat × List Byte)}
    (h : PagesOf R ps V off (e :: L)) (hoff : off ≤ next) (he : e.1 + ps ≤ next)
    (hL : ∀ e' ∈ L, next + n ≤ e'.1) : R.read next n = readFrom V next n := by
  refine readFrom_congr fun i hi => (h.gap _ (by omega) fun e' he' => ?_).symm
  rcases List.mem_cons.1 he' with rfl | he'
  · exact .inr (by omega)
  · exact .inl (by have := hL e' he'; omega)

/-- A read that goes past a page: the rest of the page, then what lies behind it. -/
theorem readFrom_past_page {k off n : Nat} {d : List Byte} (hd : d.length = ps)
    (hV : ∀ i < ps, V (k + i) = d[i]?) (hk : k ≤ off) (hoff : off < k + ps)
    (hn : ps - (off - k) < n) :
    readFrom V off n = (d.drop (off - k)).take n ++
      readFrom V (off + (ps - (off - k))) (n - (ps - (off - k))) := by
  have hpage := readFrom_page hd hV hk (n := ps - (off - k)) (by omega)
  have hlen : (readFrom V off (ps - (off - k))).length = ps - (off - k) := by
    rw [hpage, List.length_take, List.length_drop]
    omega
  have hall : ∀ m, ps - (off - k) ≤ m → (d.drop (off - k)).take m = d.drop (off - k) := fun m hm =>
    List.take_of_length_le (by rw [List.length_drop]; omega)
  have hsplit := readFrom_add_of_full (n := n - (ps - (off - k))) hlen
  rw [show ps - (off - k) + (n - (ps - (off - k))) = n by omega, hpage] at hsplit
  rw [hsplit, hall _ (Nat.le_refl _), hall _ (by omega)]

/-- The stretch behind a page: up to the next one, or to the end of the read. -/
def stretch (ps stop : Nat) (e : Nat × List Byte) : List (Nat × List Byte) → Nat
  | [] => stop - (e.1 + ps)
  | e' :: _ => e'.1 - ps - e.1

/-- A read of the bytes from `off` to `stop` comes to the end of a page behind which the stretch
does not fit into a buffer. -/
def TooLarge (V : Nat → Option Byte) (ps off stop : Nat) (L : List (Nat × List Byte)) : Prop :=
  ∃ l₁ e l₂, L = l₁ ++ e :: l₂ ∧ e.1 + ps < stop ∧ (∀ a, off ≤ a → a < e.1 + ps → (V a).isSome) ∧
    maxSize < stretch ps stop e l₂

theorem tooLarge_cons {off stop : Nat} {e : Nat × List Byte} {L : List (Nat × List Byte)} :
    TooLarge V ps off stop (e :: L) ↔
      (e.1 + ps < stop ∧ (∀ a, off ≤ a → a < e.1 + ps → (V a).isSome) ∧
        maxSize < stretch ps stop e L) ∨ TooLarge V ps off stop L := by
  constructor
  · rintro ⟨l₁, e₁, l₂, hL, h⟩
    cases l₁ with
    | nil =>
      cases hL
      exact .inl h
    | cons x l₁ =>
      cases hL
      exact .inr ⟨l₁, e₁, l₂, rfl, h⟩
  · rintro (h | ⟨l₁, e₁, l₂, rfl, h⟩)
    · exact ⟨[], e, L, rfl, h⟩
    · exact ⟨e :: l₁, e₁, l₂, rfl, h⟩

/-- What has been read up to a page does not matter behind it. -/
theorem tooLarge_shift {off off' stop : Nat} {L : List (Nat × List Byte)} (hoff : off ≤ off')
    (hV : ∀ a, off ≤ a → a < off' → (V a).isSome) :
    TooLarge V ps off stop L ↔ TooLarge V ps off' stop L := by
  constructor
  · rintro ⟨l₁, e, l₂, hL, hlt, hV, hbig⟩
    exact ⟨l₁, e, l₂, hL, hlt, fun a ha => hV a (by omega), hbig⟩
  · rintro ⟨l₁, e, l₂, hL, hlt, hV', hbig⟩
    refine ⟨l₁, e, l₂, hL, hlt, fun a ha ha' => ?_, hbig⟩
    by_cases h : a < off'
    · exact hV a ha h
    · exact hV' a (by omega) ha'

/-- Up to a byte that cannot be read there is no such page behind it. -/
theorem not_tooLarge_of_none {off stop a : Nat} {L : List (Nat × List Byte)} (ha : off ≤ a)
    (hV : V a = none) (hL : ∀ e ∈ L, a < e.1 + ps) : ¬ TooLarge V ps off stop L := by
  rintro ⟨l₁, e, l₂, rfl, -, hall, -⟩
  have := hall a ha (hL e (by simp))
  rw [hV] at this
  cases this

theorem not_tooLarge_of_stop {off stop : Nat} {L : List (Nat × List Byte)}
    (hL : ∀ e ∈ L, stop ≤ e.1 + ps) : ¬ TooLarge V ps off stop L := by
  rintro ⟨l₁, e, l₂, rfl, hlt, -⟩
  have := hL e (by simp)
  omega

theorem GapsFit.not_tooLarge {off stop : Nat} {L : List (Nat × List Byte)} (h : GapsFit ps stop L)
    (hL : ∀ e ∈ L, off ≤ e.1 + ps) (hstop : stop ≤ off + maxSize) : ¬ TooLarge V ps off stop L := by
  rintro ⟨l₁, e, l₂, rfl, hlt, -, hbig⟩
  cases l₂ with
  | nil =>
    have := hL e (by simp)
    dsimp only [stretch] at hbig
    omega
  | cons e' l₂ => exact absurd (h l₁ e e' l₂ rfl hlt) (Nat.not_le_of_lt hbig)

/-- A read that stops early: where, and that there is nothing. -/
theorem exists_none_of_short {off n : Nat} (h : (readFrom V off n).length < n) :
    V (off + (readFrom V off n).length) = none := by
  induction n generalizing off with
  | zero => cases h
  | succ n ih =>
    cases hv : V off with
    | none => rw [readFrom_of_none hv]; exact hv
    | some b =>
      rw [readFrom_of_some hv] at h ⊢
      have := ih (Nat.lt_of_succ_lt_succ h)
      rwa [List.length_cons, Nat.add_comm _ 1, ← Nat.add_assoc]

theorem isSome_of_full {off n a : Nat} (h : (readFrom V off n).length = n) (h1 : off ≤ a)
    (h2 : a < off + n) : (V a).isSome := by
  have hlt : a - off < (readFrom V off n).length := by omega
  have := getElem?_readFrom (List.getElem?_eq_getElem hlt)
  rw [show off + (a - off) = a by omega] at this
  rw [this]
  rfl

/-- The loop of `Read` gives the bytes of the content, unless a buffer is too large. -/
theorem readPages_cases {L : List (Nat × List Byte)} {k : Nat} {d : List Byte} {off need : Nat}
    (h : PagesOf R ps V off ((k, d) :: L)) (hk : k ≤ off) (hoff : off < k + ps) :
    (¬ TooLarge V ps off (off + need) ((k, d) :: L) → readPages R ps ((k, d) :: L) off need =
      .ok (readFrom V off need)) ∧
      (TooLarge V ps off (off + need) ((k, d) :: L) → readPages R ps ((k, d) :: L) off need =
        .error .lengthError) := by
  have hsome : ∀ {k : Nat} {d : List Byte} {L : List (Nat × List Byte)} {off : Nat},
    PagesOf R ps V off ((k, d) :: L) →
      k ≤ off → ∀ a, off ≤ a → a < k + ps → (V a).isSome := by
    intro k d L off h hk a h1 h2
    have hd : d.length = ps := h.length _ List.mem_cons_self
    have hV := h.page _ List.mem_cons_self (a - k) (by omega)
    rw [show (k, d).1 + (a - k) = a by dsimp only; omega,
      List.getElem?_eq_getElem (by dsimp only; omega)] at hV
    rw [hV]
    rfl
  induction L generalizing k d off need with
  | nil =>
    have hd : d.length = ps := h.length _ List.mem_cons_self
    have hV := h.page _ List.mem_cons_self
    unfold readPages
    rw [if_neg (by omega)]
    by_cases hle : need ≤ ps - (off - k)
    · simp only [if_pos hle]
      rw [readFrom_page hd hV hk (by omega)]
      refine ⟨fun _ => rfl, fun ht => absurd ht (not_tooLarge_of_stop fun e he => ?_)⟩
      cases List.mem_singleton.1 he
      dsimp only
      omega
    · simp only [if_neg hle, if_neg (show ¬ need - (ps - (off - k)) = 0 by omega), Nat.min_self]
      by_cases hbig : maxSize < need - (ps - (off - k))
      · rw [if_pos hbig]
        refine ⟨fun ht => absurd (tooLarge_cons.2 (.inl ⟨?_, hsome h hk, ?_⟩)) ht, fun _ => rfl⟩
        · dsimp only
          omega
        · dsimp only [stretch]
          omega
      · rw [if_neg hbig]
        have := length_readFrom_le V (off + (ps - (off - k))) (need - (ps - (off - k)))
        rw [h.readFrom_gap (by omega) (by simp only; omega) (by simp), if_pos (by omega),
          readFrom_past_page hd hV hk hoff (by omega)]
        refine ⟨fun _ => rfl, fun ht => ?_⟩
        rcases tooLarge_cons.1 ht with ⟨-, -, ht⟩ | ⟨l₁, e, l₂, hL, -⟩
        · dsimp only [stretch] at ht
          omega
        · cases l₁ <;> cases hL
  | cons e L ih =>
    obtain ⟨k', d'⟩ := e
    have hd : d.length = ps := h.length _ List.mem_cons_self
    have hV := h.page _ List.mem_cons_self
    obtain ⟨hkk, hsep⟩ := List.pairwise_cons.1 h.sep
    have hkk' : k + ps ≤ k' := hkk _ List.mem_cons_self
    have hbehind : ∀ e ∈ (k', d') :: L, k' ≤ e.1 := by
      intro e he
      rcases List.mem_cons.1 he with rfl | he
      · exact Nat.le_refl _
      · have := (List.pairwise_cons.1 hsep).1 e he
        dsimp only at this
        omega
    unfold readPages
    rw [if_neg (by omega)]
    by_cases hle : need ≤ ps - (off - k)
    · simp only [if_pos hle]
      rw [readFrom_page hd hV hk (by omega)]
      refine ⟨fun _ => rfl, fun ht => absurd ht (not_tooLarge_of_stop fun e he => ?_)⟩
      rcases List.mem_cons.1 he with rfl | he
      · dsimp only
        omega
      · have := hbehind e he
        omega
    have hnext : off + (ps - (off - k)) = k + ps := by omega
    -- the pages behind the first one
    have htail : ∀ off' n, k' ≤ off' → off' < k' + ps → off' + n = off + need →
      (∀ a, off ≤ a → a < off' → (V a).isSome) →
        (¬ TooLarge V ps off (off + need) ((k', d') :: L) → readPages R ps ((k', d') :: L) off' n =
          .ok (readFrom V off' n)) ∧
        (TooLarge V ps off (off + need) ((k', d') :: L) → readPages R ps ((k', d') :: L) off' n =
          .error .lengthError) := by
      intro off' n h1 h2 h3 h4
      have := @ih _ _ _ n (h.tail (by omega) (by simp only; omega)) h1 h2
      rw [h3] at this
      rwa [tooLarge_shift (by omega) h4]
    have hcons : TooLarge V ps off (off + need) ((k, d) :: (k', d') :: L) ↔
        maxSize < k' - ps - k ∨ TooLarge V ps off (off + need) ((k', d') :: L) := by
      rw [tooLarge_cons]
      refine or_congr_left ⟨fun ht => ht.2.2, fun ht => ⟨?_, hsome h hk, ht⟩⟩
      dsimp only
      omega
    rw [readFrom_past_page hd hV hk hoff (by omega)]
    simp only [if_neg hle, hnext]
    generalize hm : need - (ps - (off - k)) = m
    by_cases hadj : k' - ps - k = 0
    · rw [if_pos hadj]
      obtain ⟨hok, herror⟩ := htail (k + ps) m (by omega) (by omega) (by omega) (hsome h hk)
      have hcons' : TooLarge V ps off (off + need) ((k, d) :: (k', d') :: L) ↔
          TooLarge V ps off (off + need) ((k', d') :: L) := by
        rw [hcons, hadj]
        exact or_iff_right (by decide)
      rw [hcons']
      refine ⟨fun ht => ?_, fun ht => ?_⟩
      · rw [hok ht]
        rfl
      · rw [herror ht]
        rfl
    rw [if_neg hadj]
    by_cases hbig : maxSize < k' - ps - k
    · rw [if_pos hbig]
      exact ⟨fun ht => absurd (hcons.2 (.inl hbig)) ht, fun _ => rfl⟩
    rw [if_neg hbig, hcons, or_iff_right hbig]
    -- the stretch up to the next page, as far as it is asked for
    have hread : R.read (k + ps) (min (k' - ps - k) m) =
        readFrom V (k + ps) (min (k' - ps - k) m) := by
      refine h.readFrom_gap (by omega) (Nat.le_refl _) fun e he => ?_
      have := hbehind e he
      omega
    have hbound := length_readFrom_le V (k + ps) (min (k' - ps - k) m)
    rw [hread]
    split_ifs with hstop
    · refine ⟨fun _ => ?_, fun ht => absurd ht ?_⟩
      · rcases hstop with hfull | hshort
        · rw [Nat.min_eq_right (by omega)]
        · have := readFrom_add_of_short (n := m - min (k' - ps - k) m) hshort
          rw [show min (k' - ps - k) m + (m - min (k' - ps - k) m) = m by omega] at this
          rw [this]
      · by_cases hshort : (readFrom V (k + ps) (min (k' - ps - k) m)).length < min (k' - ps - k) m
        · refine not_tooLarge_of_none (by omega) (exists_none_of_short hshort) fun e he => ?_
          have := hbehind e he
          omega
        · refine not_tooLarge_of_stop fun e he => ?_
          have := hbehind e he
          omega
    · have hmin : min (k' - ps - k) m = k' - ps - k := by omega
      rw [hmin] at hstop hbound ⊢
      have hlen : (readFrom V (k + ps) (k' - ps - k)).length = k' - ps - k := by omega
      have hsplit := readFrom_add_of_full (n := m - (k' - ps - k)) hlen
      rw [show k' - ps - k + (m - (k' - ps - k)) = m by omega] at hsplit
      rw [hlen]
      obtain ⟨hok, herror⟩ := htail (k + ps + (k' - ps - k)) (m - (k' - ps - k)) (by omega)
          (by omega) (by omega) (by
        intro a h1 h2
        by_cases ha : a < k + ps
        · exact hsome h hk a h1 ha
        · exact isSome_of_full hlen (by omega) h2)
      refine ⟨fun ht => ?_, fun ht => ?_⟩
      · rw [hok ht, hsplit, ← List.append_assoc]
        rfl
      · rw [herror ht]
        rfl

/-- `Read` from the iterator on. -/
theorem readFromIterator_cases {L : List (Nat × List Byte)} {off n : Nat} (h : PagesOf R ps V off L)
    (hL : ∀ e ∈ L, off < e.1 + ps) (hps : 0 < ps) :
    (¬ TooLarge V ps off (off + n) L → readFromIterator R ps L off n = .ok (readFrom V off n)) ∧
      (TooLarge V ps off (off + n) L → readFromIterator R ps L off n = .error .lengthError) := by
  cases L with
  | nil =>
    rw [readFromIterator]
    refine ⟨fun _ => ?_,
      fun ht => absurd ht (not_tooLarge_of_stop fun e he => absurd he List.not_mem_nil)⟩
    congr 1
    exact readFrom_congr fun i _ => (h.gap _ (by omega) (by simp)).symm
  | cons e L =>
    obtain ⟨k, d⟩ := e
    have hk := hL _ List.mem_cons_self
    have hbehind : ∀ e ∈ (k, d) :: L, k ≤ e.1 := by
      intro e he
      rcases List.mem_cons.1 he with rfl | he
      · exact Nat.le_refl _
      · have := (List.pairwise_cons.1 h.sep).1 e he
        dsimp only at this
        omega
    rw [readFromIterator]
    by_cases hlt : off < k
    · rw [if_pos hlt]
      have hread : R.read off (min (k - off) n) = readFrom V off (min (k - off) n) := by
        refine readFrom_congr fun i hi => (h.gap _ (by omega) fun e he => ?_).symm
        have := hbehind e he
        omega
      have hbound := length_readFrom_le V off (min (k - off) n)
      simp only [hread]
      split_ifs with hstop
      · refine ⟨fun _ => ?_, fun ht => absurd ht ?_⟩
        · rcases hstop with hfull | hshort
          · rw [Nat.min_eq_right (by omega)]
          · have := readFrom_add_of_short (n := n - min (k - off) n) hshort
            rw [show min (k - off) n + (n - min (k - off) n) = n by omega] at this
            rw [this]
        · by_cases hshort : (readFrom V off (min (k - off) n)).length < min (k - off) n
          · refine not_tooLarge_of_none (by omega) (exists_none_of_short hshort) fun e he => ?_
            have := hbehind e he
            omega
          · refine not_tooLarge_of_stop fun e he => ?_
            have := hbehind e he
            omega
      · have hmin : min (k - off) n = k - off := by omega
        rw [hmin] at hstop hbound ⊢
        have hlen : (readFrom V off (k - off)).length = k - off := by omega
        have hsplit := readFrom_add_of_full (n := n - (k - off)) hlen
        rw [show k - off + (n - (k - off)) = n by omega] at hsplit
        have h' : PagesOf R ps V (off + (k - off)) ((k, d) :: L) :=
          { h with gap := fun a ha => h.gap a (by omega) }
        obtain ⟨hok, herror⟩ :=
          @readPages_cases _ _ _ _ _ _ _ (n - (k - off)) h' (by omega) (by omega)
        rw [show off + (k - off) + (n - (k - off)) = off + n by omega,
          ← tooLarge_shift (Nat.le_add_right off (k - off)) fun a h1 h2 =>
          isSome_of_full hlen h1 h2] at hok herror
        rw [hlen]
        refine ⟨fun ht => ?_, fun ht => ?_⟩
        · rw [hok ht, hsplit]
          rfl
        · rw [herror ht]
          rfl
    · rw [if_neg hlt]
      exact readPages_cases h (by omega) hk

/-- `Read` from the iterator on, where the buffers are small enough. -/
theorem readFromIterator_eq {L : List (Nat × List Byte)} {off n : Nat} (h : PagesOf R ps V off L)
    (hfit : GapsFit ps (off + n) L) (hL : ∀ e ∈ L, off < e.1 + ps) (hps : 0 < ps)
    (hn : n ≤ maxSize) : readFromIterator R ps L off n = .ok (readFrom V off n) :=
  (readFromIterator_cases h hL hps).1 (hfit.not_tooLarge (fun e he => (hL e he).le) (by omega))

end

/-! ## Cached pages -/

section

variable {ps count addr k : Nat} {bs : List Byte} {m : OrdMap Nat (List Byte)}

theorem find_addPages_of_notMem (h : ∀ i < count, k ≠ addr + i * ps) :
    (addPages ps count addr bs m).find k = m.find k := by
  induction count generalizing addr bs m with
  | zero => rfl
  | succ count ih =>
    have h0 : k ≠ addr := by simpa using h 0 (Nat.succ_pos _)
    refine (ih fun i hi => ?_).trans (OrdMap.find_set_of_ne _ h0 _)
    have := h (i + 1) (Nat.succ_lt_succ hi)
    rwa [Nat.succ_mul, Nat.add_comm (i * ps), ← Nat.add_assoc] at this

theorem find_addPages {i : Nat} (hps : 0 < ps) (hi : i < count) :
    (addPages ps count addr bs m).find (addr + i * ps) = some ((bs.drop (i * ps)).take ps) := by
  induction count generalizing addr bs m i with
  | zero => cases hi
  | succ count ih =>
    cases i with
    | zero =>
      have hne : ∀ j < count, addr ≠ addr + ps + j * ps := fun j _ => by
        have := Nat.zero_le (j * ps)
        omega
      simp only [Nat.zero_mul, Nat.add_zero, List.drop_zero]
      rw [addPages, find_addPages_of_notMem hne, OrdMap.find_set_self]
    | succ i =>
      have := @ih (addr + ps) (bs.drop ps) (m.set addr (bs.take ps)) i (Nat.lt_of_succ_lt_succ hi)
      rw [List.drop_drop] at this
      rw [Nat.succ_mul, Nat.add_comm (i * ps), ← Nat.add_assoc]
      exact this

end

namespace Storage

variable {ps : PageSize} {R : Reader} {s : Storage ps} {off n : Nat}

/-- The gaps that a read crosses fit into a buffer: for a modified page in the range and the next
modified one, the stretch between them. -/
def CrossedGapsFit (s : Storage ps) (off n : Nat) : Prop :=
  ∀ k k', (s.pages.find k).isSome → (s.pages.find k').isSome → k < k' →
    (∀ j, k < j → j < k' → s.pages.find j = none) → off < k + ps.bytes → k + ps.bytes < off + n →
      k' - ps.bytes - k ≤ maxSize

theorem pagesOf_lowerBound (R : Reader) (s : Storage ps) (off : Nat) :
    PagesOf R ps.bytes (s.content R) off (s.pages.lowerBound (ps.start off)) where
  sep := by
    refine (s.pages.sorted_lowerBound _).imp_of_mem fun {e e'} he he' hlt => ?_
    exact PageSize.add_le (s.page _ _ (s.pages.mem_lowerBound.1 he).1).1
      (s.page _ _ (s.pages.mem_lowerBound.1 he').1).1 hlt
  length := fun e he => (s.page _ _ (s.pages.mem_lowerBound.1 he).1).2
  page := by
    intro e he i hi
    rw [content_of_find (s.pages.mem_lowerBound.1 he).1 (Nat.le_add_right _ _) (by omega),
      Nat.add_sub_cancel_left]
  gap := by
    intro a ha hL
    refine content_of_find_none ?_
    cases hf : s.pages.find (ps.start a) with
    | none => rfl
    | some d =>
      have hmem : (ps.start a, d) ∈ s.pages.lowerBound (ps.start off) := by
        refine s.pages.mem_lowerBound.2 ⟨hf, ?_⟩
        have h1 := ps.start_le off
        have h2 := ps.lt_start a
        by_contra hlt
        have := PageSize.add_le (ps.dvd_start a) (ps.dvd_start off) (by omega)
        omega
      have h1 := ps.start_le a
      have h2 := ps.lt_start a
      have := hL _ hmem
      simp only at this
      omega

theorem gapsFit_lowerBound (h : s.CrossedGapsFit off n) :
    GapsFit ps.bytes (off + n) (s.pages.lowerBound (ps.start off)) := by
  intro l₁ e e' l₂ hL hlt
  have hs := s.pages.sorted_lowerBound (ps.start off)
  have hmem : ∀ x ∈ l₁ ++ e :: e' :: l₂, s.pages.find x.1 = some x.2 ∧ ps.start off ≤ x.1 :=
    fun x hx => s.pages.mem_lowerBound.1 (hL ▸ hx)
  obtain ⟨he, hoe⟩ := hmem e (by simp)
  obtain ⟨he', -⟩ := hmem e' (by simp)
  rw [hL] at hs
  obtain ⟨-, hs2, hs3⟩ := List.pairwise_append.1 hs
  obtain ⟨hee, hs4⟩ := List.pairwise_cons.1 hs2
  obtain ⟨hel, -⟩ := List.pairwise_cons.1 hs4
  have hoff := ps.lt_start off
  refine h e.1 e'.1 (by rw [he]; rfl) (by rw [he']; rfl) (hee e' List.mem_cons_self) ?_
    (by omega) hlt
  intro j h1 h2
  cases hj : s.pages.find j with
  | none => rfl
  | some d =>
    have hmj : (j, d) ∈ l₁ ++ e :: e' :: l₂ :=
      hL ▸ s.pages.mem_lowerBound.2 ⟨hj, by omega⟩
    rcases List.mem_append.1 hmj with hm | hm
    · have := hs3 _ hm e List.mem_cons_self
      simp only at this
      omega
    · rcases List.mem_cons.1 hm with rfl | hm
      · exact absurd h1 (Nat.lt_irrefl _)
      · rcases List.mem_cons.1 hm with rfl | hm
        · exact absurd h2 (Nat.lt_irrefl _)
        · have := hel _ hm
          simp only at this
          omega

/-- The pages from `first` on are the ones just cached. -/
theorem find_cached {first x k : Nat} (hlb : s.pages.lowerBound first = []) (hk : first ≤ k)
    (h : (R.read first x).length = x ∧ ps.bytes ∣ x ∧ ps.bytes ∣ first) :
    (s.cached R first x).pages.find k =
      if ps.bytes ∣ k ∧ k < first + x then some (R.read k ps.bytes) else none := by
  obtain ⟨hlen, ⟨c, rfl⟩, hfirst⟩ := h
  have hnone : s.pages.find k = none := by
    cases hf : s.pages.find k with
    | none => rfl
    | some d =>
      have := s.pages.mem_lowerBound.2 ⟨hf, hk⟩
      rw [hlb] at this
      cases this
  have hc : ps.bytes * c / ps.bytes = c := Nat.mul_div_cancel_left c ps.pos
  unfold cached
  rw [dif_pos ⟨hlen, Nat.dvd_mul_right _ _, hfirst⟩]
  simp only [hc]
  split_ifs with hin
  · obtain ⟨hdvd, hlt⟩ := hin
    obtain ⟨i, hi⟩ : ps.bytes ∣ k - first := Nat.dvd_sub hdvd hfirst
    have hic : i < c := by
      refine Nat.lt_of_mul_lt_mul_left (a := ps.bytes) ?_
      omega
    have hki : k = first + i * ps.bytes := by
      rw [Nat.mul_comm i]
      omega
    have hstep : (i + 1) * ps.bytes ≤ ps.bytes * c := by
      rw [Nat.mul_comm]
      exact Nat.mul_le_mul_left _ hic
    rw [Nat.succ_mul] at hstep
    rw [hki, find_addPages ps.pos hic]
    -- the bytes of the page within the whole read
    have hget : ∀ j < ps.bytes * c, (R.read first (ps.bytes * c))[j]? = R.byte (first + j) := by
      intro j hj
      have hj' : j < (R.read first (ps.bytes * c)).length := by omega
      rw [List.getElem?_eq_getElem hj']
      exact (getElem?_readFrom (List.getElem?_eq_getElem hj')).symm
    have hpl : (((R.read first (ps.bytes * c)).drop (i * ps.bytes)).take ps.bytes).length =
        ps.bytes := by
      rw [List.length_take, List.length_drop, hlen]
      omega
    have := readFrom_eq_of_get (V := R.byte) (first + i * ps.bytes)
      (((R.read first (ps.bytes * c)).drop (i * ps.bytes)).take ps.bytes) ?_
    · rw [hpl] at this
      rw [← this]
      rfl
    · intro j b hb
      have hj : j < ps.bytes := by
        have := (List.getElem?_eq_some_iff.1 hb).1
        omega
      rw [List.getElem?_take_of_lt hj, List.getElem?_drop, hget _ (by omega)] at hb
      rw [Nat.add_assoc]
      exact hb
  · rw [find_addPages_of_notMem, hnone]
    rintro i hi rfl
    refine hin ⟨Nat.dvd_add hfirst (Nat.dvd_mul_left _ _), ?_⟩
    rw [Nat.mul_comm i]
    exact Nat.add_lt_add_left ((Nat.mul_lt_mul_left ps.pos).2 hi) _

theorem find_cached_of_lt {first x k : Nat} (hk : k < first) :
    (s.cached R first x).pages.find k = s.pages.find k := by
  unfold cached
  split_ifs with h
  · exact find_addPages_of_notMem fun i _ => by
      have := Nat.zero_le (i * ps.bytes)
      omega
  · rfl

theorem find_of_lowerBound_nil {first k : Nat} (hlb : s.pages.lowerBound first = [])
    (hk : first ≤ k) : s.pages.find k = none := by
  cases hf : s.pages.find k with
  | none => rfl
  | some d =>
    have := s.pages.mem_lowerBound.2 ⟨hf, hk⟩
    rw [hlb] at this
    cases this

/-- A page that is read whole is the reader's. -/
theorem content_of_find_read {k a : Nat} (h : s.pages.find k = some (R.read k ps.bytes))
    (h1 : k ≤ a) (h2 : a < k + ps.bytes) : s.content R a = R.byte a := by
  have hlen := (s.page _ _ h).2
  have hlt : a - k < (R.read k ps.bytes).length := by omega
  have hget := List.getElem?_eq_getElem hlt
  have := getElem?_readFrom hget
  rw [show k + (a - k) = a by omega] at this
  rw [content_of_find h h1 h2, hget, this]

/-- Caching changes no byte. -/
theorem content_cached {first x : Nat} (hlb : s.pages.lowerBound first = []) (a : Nat) :
    (s.cached R first x).content R a = s.content R a := by
  by_cases h : (R.read first x).length = x ∧ ps.bytes ∣ x ∧ ps.bytes ∣ first
  · by_cases hk : first ≤ ps.start a
    · have hf := find_cached (R := R) hlb hk h
      rw [content_of_find_none (find_of_lowerBound_nil hlb hk)]
      split_ifs at hf
      · exact content_of_find_read hf (ps.start_le a) (ps.lt_start a)
      · exact content_of_find_none hf
    · unfold content pageByte
      rw [find_cached_of_lt (Nat.not_le.1 hk)]
  · unfold cached
    rw [dif_neg h]

/-- The cached pages lie side by side. -/
theorem crossedGapsFit_cached {x : Nat} (hlb : s.pages.lowerBound (ps.start off) = [])
    (h : s.CrossedGapsFit off n) : (s.cached R (ps.start off) x).CrossedGapsFit off n := by
  by_cases hc : (R.read (ps.start off) x).length = x ∧ ps.bytes ∣ x ∧ ps.bytes ∣ ps.start off
  · intro k k' hk hk' hlt hnone ho _
    have hstart := ps.start_le off
    have hdk : ps.bytes ∣ k := by
      obtain ⟨d, hd⟩ := Option.isSome_iff_exists.1 hk
      exact (Storage.page _ _ _ hd).1
    have hfk : ps.start off ≤ k := by
      by_contra hcon
      have := PageSize.add_le hdk (ps.dvd_start off) (by omega)
      omega
    rw [find_cached hlb (by omega) hc] at hk'
    split_ifs at hk' with hin
    · have hle := PageSize.add_le hdk hin.1 hlt
      by_contra hgap
      have := hnone (k + ps.bytes) (by have := ps.pos; omega) (by omega)
      rw [find_cached hlb (by omega) hc,
        if_pos ⟨Nat.dvd_add hdk (Nat.dvd_refl _), by omega⟩] at this
      cases this
    · cases hk'
  · have : s.cached R (ps.start off) x = s := by
      unfold cached
      rw [dif_neg hc]
    rw [this]
    exact h

/-- The search for the first page stops where it starts. -/
theorem dropWhile_lowerBound (s : Storage ps) (off : Nat) :
    ((s.pages.lowerBound (ps.start off)).dropWhile fun e =>
      ¬ (off < e.1 ∨ off - e.1 < ps.bytes)) = s.pages.lowerBound (ps.start off) := by
  cases hL : s.pages.lowerBound (ps.start off) with
  | nil => rfl
  | cons e L =>
    have he := s.pages.mem_lowerBound.1 (hL ▸ List.mem_cons_self : e ∈ s.pages.lowerBound _)
    have h1 := ps.start_le off
    have h2 := ps.lt_start off
    refine List.dropWhile_cons_of_neg ?_
    simp only [decide_eq_true_eq, not_not]
    omega

/-- What a read of a storage is for: the bytes of the content, which it leaves as it is. -/
theorem read_spec (hn : n + ps.bytes ≤ maxSize) (hfit : s.CrossedGapsFit off n) :
    (s.read R off n).1 = .ok (readFrom (s.content R) off n) ∧
      (∀ a, (s.read R off n).2.content R a = s.content R a) ∧
      ∀ k, (s.pages.find k).isSome → (s.read R off n).2.pages.find k = s.pages.find k := by
  have hread : ∀ t : Storage ps, t.CrossedGapsFit off n →
      readFromIterator R ps.bytes ((t.pages.lowerBound (ps.start off)).dropWhile fun e =>
        ¬ (off < e.1 ∨ off - e.1 < ps.bytes)) off n = .ok (readFrom (t.content R) off n) := by
    intro t ht
    rw [dropWhile_lowerBound]
    refine readFromIterator_eq (pagesOf_lowerBound R t off) (gapsFit_lowerBound ht) ?_ ps.pos
      (by omega)
    intro e he
    have := (t.pages.mem_lowerBound.1 he).2
    have := ps.lt_start off
    omega
  have hround : ps.roundUp n ≤ maxSize := by
    have h1 := ps.start_le n
    have h2 := ps.lt_start n
    have h3 : maxSize < 2 ^ 64 := by decide
    unfold PageSize.roundUp
    split_ifs
    · rw [Nat.mod_eq_of_lt (by omega)]
      omega
    · rw [Nat.mod_eq_of_lt (by omega)]
      omega
  unfold read
  by_cases h0 : n = 0
  · subst h0
    exact ⟨rfl, fun _ => rfl, fun _ _ => rfl⟩
  simp only [if_neg h0]
  rw [if_neg (by omega)]
  by_cases hc : s.pages.lowerBound (ps.start off) = [] ∧ s.cacheReads = true
  · simp only [if_pos hc]
    refine ⟨?_, content_cached hc.1, ?_⟩
    · rw [hread _ (crossedGapsFit_cached hc.1 hfit)]
      congr 1
      exact readFrom_congr fun i _ => content_cached hc.1 _
    · intro k hk
      refine find_cached_of_lt (Nat.lt_of_not_le fun hle => ?_)
      rw [find_of_lowerBound_nil hc.1 hle] at hk
      cases hk
  · simp only [if_neg hc]
    exact ⟨hread s hfit, fun _ => trivial, fun _ _ => trivial⟩

end Storage

/-! ## The byte map -/

/-- What has been written: the last byte written to an address, and the addresses in a page that a
write has reached. -/
structure Overlay where
  written : Nat → Option Byte
  modified : Nat → Bool

namespace Overlay

def initial : Overlay := ⟨fun _ => none, fun _ => false⟩

/-- The byte at an address: the last one written, else the reader's, else zero in a modified
page. -/
def view (R : Reader) (o : Overlay) (a : Nat) : Option Byte :=
  (o.written a).or ((R.byte a).or (if o.modified a then some 0 else none))

/-- The bytes `bs` written from `off` on. -/
def write (ps : PageSize) (o : Overlay) (off : Nat) (bs : List Byte) : Overlay where
  written a := if off ≤ a ∧ a < off + bs.length then bs[a - off]? else o.written a
  modified a := o.modified a || decide (∃ b < off + bs.length, off ≤ b ∧ ps.start b = ps.start a)

theorem write_nil (ps : PageSize) (o : Overlay) (off : Nat) : o.write ps off [] = o := by
  unfold write
  congr 1
  · funext a
    exact if_neg (by rw [List.length_nil]; omega)
  · funext a
    rw [decide_eq_false, Bool.or_false]
    rintro ⟨b, hlt, hle, -⟩
    rw [List.length_nil] at hlt
    omega

theorem write_append (ps : PageSize) (o : Overlay) (off : Nat) (bs cs : List Byte) :
    o.write ps off (bs ++ cs) = (o.write ps off bs).write ps (off + bs.length) cs := by
  unfold write
  congr 1
  · funext a
    simp only [List.length_append]
    by_cases h1 : off + bs.length ≤ a ∧ a < off + bs.length + cs.length
    · rw [if_pos (by omega), if_pos h1, List.getElem?_append_right (by omega)]
      congr 1
      omega
    · rw [if_neg h1]
      by_cases h2 : off ≤ a ∧ a < off + bs.length
      · rw [if_pos (by omega), if_pos h2, List.getElem?_append_left (by omega)]
      · rw [if_neg (by omega), if_neg h2]
  · funext a
    simp only [List.length_append]
    rw [Bool.or_assoc, ← Bool.decide_or]
    congr 1
    refine decide_eq_decide.2 ⟨?_, ?_⟩
    · rintro ⟨b, hlt, hle, hb⟩
      by_cases h : b < off + bs.length
      · exact .inl ⟨b, h, hle, hb⟩
      · exact .inr ⟨b, by omega, by omega, hb⟩
    · rintro (⟨b, hlt, hle, hb⟩ | ⟨b, hlt, hle, hb⟩)
      · exact ⟨b, by omega, hle, hb⟩
      · exact ⟨b, by omega, by omega, hb⟩

end Overlay

/-- A page in which no byte can be read after one that cannot. -/
def ReadableUpTo (R : Reader) (ps : PageSize) (k : Nat) : Prop :=
  ∀ i j, i < j → j < ps.bytes → (R.byte (k + j)).isSome → (R.byte (k + i)).isSome

namespace Storage

variable {ps : PageSize} {R : Reader} {s : Storage ps} {o : Overlay} {k : Nat} {d : List Byte}

/-- The pages of a storage over a reader hold a byte map. -/
structure Refines (R : Reader) (s : Storage ps) (o : Overlay) : Prop where
  content : ∀ a, s.content R a = o.view R a
  paged : ∀ a, o.modified a → (s.pages.find (ps.start a)).isSome
  written : ∀ a, (o.written a).isSome → o.modified a

theorem refines_empty (R : Reader) (ps : PageSize) (cacheReads : Bool) :
    (empty ps cacheReads).Refines R .initial where
  content a := by
    rw [content_of_find_none (R := R) (s := empty ps cacheReads) rfl]
    exact (Option.or_none).symm
  paged _ h := nomatch h
  written _ h := nomatch h

/-- A page created from the reader. -/
theorem getElem?_newPage (h : (R.read k ps.bytes).length = ps.bytes ∨ ReadableUpTo R ps k) {i : Nat}
    (hi : i < ps.bytes) : (newPage ps R k)[i]? = (R.byte (k + i)).or (some 0) := by
  have hle := length_readFrom_le R.byte k ps.bytes
  unfold newPage
  by_cases hlt : i < (R.read k ps.bytes).length
  · rw [List.getElem?_append_left hlt, List.getElem?_eq_getElem hlt,
      getElem?_readFrom (List.getElem?_eq_getElem hlt)]
    rfl
  · have hnone : R.byte (k + i) = none := by
      rcases h with h | h
      · omega
      have hstop : R.byte (k + (R.read k ps.bytes).length) = none := by
        refine readFrom_stops ?_
        have : (R.read k ps.bytes).length = (readFrom R.byte k ps.bytes).length := rfl
        omega
      by_contra hsome
      rcases Nat.lt_or_eq_of_le (Nat.le_of_not_lt hlt) with hl | hl
      · have := h _ i hl hi (Option.isSome_iff_ne_none.2 hsome)
        rw [hstop] at this
        cases this
      · exact hsome (hl ▸ hstop)
    rw [List.getElem?_append_right (Nat.le_of_not_lt hlt), hnone, List.getElem?_replicate,
      if_pos (by omega)]
    rfl

/-- The page to write to holds the view, zeros where there is nothing. -/
theorem Refines.queryPage (h : s.Refines R o) {allocate : Bool} (hk : ps.bytes ∣ k)
    (hq : s.queryPage R allocate k = some d)
    (hnew : allocate → s.pages.find k = none → ReadableUpTo R ps k) {i : Nat} (hi : i < ps.bytes) :
    d[i]? = (o.view R (k + i)).or (some 0) := by
  have hc := h.content (k + i)
  have hstart : ps.start (k + i) = k := PageSize.start_eq hk (by omega) (by omega)
  unfold Storage.queryPage at hq
  cases hf : s.pages.find k with
  | some d' =>
    simp only [hf] at hq
    cases hq
    have hlen := (s.page _ _ hf).2
    rw [content_of_find hf (Nat.le_add_right _ _) (by omega), Nat.add_sub_cancel_left] at hc
    rw [← hc, List.getElem?_eq_getElem (by omega)]
    rfl
  | none =>
    simp only [hf] at hq
    split_ifs at hq with hcond
    cases hq
    rw [content_of_find_none (by rw [hstart]; exact hf)] at hc
    rw [← hc]
    refine getElem?_newPage ?_ hi
    cases allocate with
    | true => exact .inr (hnew rfl hf)
    | false =>
      refine .inl ?_
      by_contra hne
      exact hcond ⟨hne, Bool.false_ne_true⟩

theorem find_setPage_self (s : Storage ps) (hk : ps.bytes ∣ k) (hd : d.length = ps.bytes) :
    (s.setPage k d hk hd).pages.find k = some d :=
  OrdMap.find_set_self _ _ _

theorem find_setPage_of_ne (s : Storage ps) {j : Nat} (hk : ps.bytes ∣ k) (hd : d.length = ps.bytes)
    (h : j ≠ k) :
    (s.setPage k d hk hd).pages.find j = s.pages.find j :=
  OrdMap.find_set_of_ne _ h _

/-- The bytes of a page that has been written to. -/
theorem getElem?_overwrite {i j : Nat} {bs : List Byte} (h : i + bs.length ≤ d.length) :
    (overwrite d i bs)[j]? = if i ≤ j ∧ j < i + bs.length then bs[j - i]? else d[j]? := by
  have htake : (d.take i).length = i := by
    rw [List.length_take]
    omega
  unfold overwrite
  by_cases h1 : j < i
  · rw [if_neg (by omega), List.append_assoc, List.getElem?_append_left (by omega),
      List.getElem?_take_of_lt h1]
  · rw [List.append_assoc, List.getElem?_append_right (by omega), htake]
    by_cases h2 : j < i + bs.length
    · rw [if_pos (by omega), List.getElem?_append_left (by omega)]
    · rw [if_neg (by omega), List.getElem?_append_right (by omega), List.getElem?_drop]
      congr 1
      omega

/-- One page of a write. -/
theorem Refines.setPage (h : s.Refines R o) (off : Nat) (now : List Byte) (hk : ps.bytes ∣ k)
    (hbytes : ∀ i < ps.bytes, d[i]? = (o.view R (k + i)).or (some 0)) (hd : d.length = ps.bytes)
    (h1 : k ≤ off) (h2 : off + now.length ≤ k + ps.bytes) (hnow : now ≠ [])
    (hlen : (overwrite d (off - k) now).length = ps.bytes) :
    (s.setPage k (overwrite d (off - k) now) hk hlen).Refines R (o.write ps off now) where
  content := by
    intro a
    have hpos := List.length_pos_iff.2 hnow
    by_cases ha : ps.start a = k
    · have h3 : k ≤ a := ha ▸ ps.start_le a
      have h4 : a < k + ps.bytes := ha ▸ ps.lt_start a
      have hmod : (o.write ps off now).modified a = true := by
        refine Bool.or_eq_true_iff.2 (.inr (decide_eq_true ⟨off, by omega, Nat.le_refl _, ?_⟩))
        rw [ha, PageSize.start_eq hk h1 (by omega)]
      rw [content_of_find (find_setPage_self s hk hlen) h3 h4, getElem?_overwrite (by omega)]
      unfold Overlay.view
      rw [hmod]
      by_cases hin : off ≤ a ∧ a < off + now.length
      · have hw : (o.write ps off now).written a = now[a - off]? := if_pos hin
        rw [hw, if_pos (by omega), show a - k - (off - k) = a - off by omega,
          List.getElem?_eq_getElem (show a - off < now.length by omega)]
        rfl
      · have hw : (o.write ps off now).written a = o.written a := if_neg hin
        rw [hw, if_neg (by omega), hbytes _ (by omega), show k + (a - k) = a by omega]
        unfold Overlay.view
        cases o.written a <;> cases R.byte a <;> cases o.modified a <;> rfl
    · have hw : (o.write ps off now).written a = o.written a := by
        refine if_neg fun hin => ha ?_
        exact PageSize.start_eq hk (by omega) (by omega)
      have hm : (o.write ps off now).modified a = o.modified a := by
        refine (congrArg _ (decide_eq_false ?_)).trans (Bool.or_false _)
        rintro ⟨b, hlt, hle, hb⟩
        exact ha (hb ▸ PageSize.start_eq hk (by omega) (by omega))
      have hview : (o.write ps off now).view R a = o.view R a := by
        unfold Overlay.view
        rw [hw, hm]
      rw [hview, ← h.content]
      unfold Storage.content pageByte
      rw [find_setPage_of_ne s hk hlen ha]
  paged := by
    intro a ha
    by_cases hak : ps.start a = k
    · rw [hak, find_setPage_self s hk hlen]
      rfl
    · rw [find_setPage_of_ne s hk hlen hak]
      rcases Bool.or_eq_true_iff.1 ha with ha | ha
      · exact h.paged a ha
      · obtain ⟨b, hlt, hle, hb⟩ := of_decide_eq_true ha
        exact absurd (hb ▸ PageSize.start_eq hk (by omega) (by omega)) hak
  written := by
    intro a ha
    by_cases hin : off ≤ a ∧ a < off + now.length
    · exact Bool.or_eq_true_iff.2 (.inr (decide_eq_true ⟨a, hin.2, hin.1, rfl⟩))
    · have hw : (o.write ps off now).written a = o.written a := if_neg hin
      rw [hw] at ha
      exact Bool.or_eq_true_iff.2 (.inl (h.written a ha))

theorem writeLoop_of_none {allocate : Bool} {fuel page i : Nat} {bs : List Byte}
    (hq : s.queryPage R allocate page = none) :
    writeLoop R allocate (fuel + 1) page i bs s = (s, 0) := by
  unfold writeLoop
  split_ifs
  · rfl
  · split
    · rfl
    · rename_i h
      rw [hq] at h
      cases h

theorem writeLoop_of_some {allocate : Bool} (fuel i : Nat) {page : Nat} {bs : List Byte}
    (hbs : bs ≠ []) (hq : s.queryPage R allocate page = some d) (hp : ps.bytes ∣ page)
    (hi : i + (bs.take (ps.bytes - i)).length ≤ ps.bytes) :
    ∃ hlen, writeLoop R allocate (fuel + 1) page i bs s =
      let r := writeLoop R allocate fuel (page + ps.bytes) 0 (bs.drop (ps.bytes - i))
        (s.setPage page (overwrite d i (bs.take (ps.bytes - i))) hp hlen)
      (r.1, (bs.take (ps.bytes - i)).length + r.2) := by
  have hd := length_queryPage R s hq
  refine ⟨(length_overwrite (by omega)).trans hd, ?_⟩
  rw [writeLoop, if_neg hbs]
  split
  · rename_i h
    rw [hq] at h
    cases h
  · rename_i d' h
    cases hq.symm.trans h
    rw [dif_pos ⟨hp, hi⟩]

/-- The pages that a write may create are readable up to some byte. -/
def NewPagesReadable (R : Reader) (s : Storage ps) (allocate : Bool) (off n : Nat) : Prop :=
  allocate → ∀ b, off ≤ b → b < off + n → s.pages.find (ps.start b) = none →
    ReadableUpTo R ps (ps.start b)

/-- The loop of `Write` from an offset in a page on. -/
theorem writeLoop_spec {allocate : Bool} {fuel i : Nat} {bs : List Byte} (hf : bs.length ≤ fuel)
    (h : s.Refines R o) (hk : ps.bytes ∣ k) (hi : i < ps.bytes)
    (hnew : s.NewPagesReadable R allocate (k + i) bs.length) :
    (writeLoop R allocate fuel k i bs s).2 ≤ bs.length ∧
      (writeLoop R allocate fuel k i bs s).1.Refines R
        (o.write ps (k + i) (bs.take (writeLoop R allocate fuel k i bs s).2)) ∧
      ∀ j, (∀ b, k + i ≤ b → b < k + i + (writeLoop R allocate fuel k i bs s).2 → ps.start b ≠ j) →
        (writeLoop R allocate fuel k i bs s).1.pages.find j = s.pages.find j := by
  have hstop : ∀ {s : Storage ps} {o : Overlay} {off : Nat} {bs : List Byte}, s.Refines R o →
      0 ≤ bs.length ∧ s.Refines R (o.write ps off (bs.take 0)) ∧ ∀ j, (∀ b, off ≤ b →
        b < off + 0 → ps.start b ≠ j) → s.pages.find j = s.pages.find j := by
    intro s o off bs h
    rw [List.take_zero, Overlay.write_nil]
    exact ⟨Nat.zero_le _, h, fun _ _ => rfl⟩
  induction fuel generalizing k i bs s o with
  | zero => exact hstop h
  | succ fuel ih =>
    by_cases hbs : bs = []
    · subst hbs
      exact hstop h
    cases hq : s.queryPage R allocate k with
    | none =>
      rw [writeLoop_of_none hq]
      exact hstop h
    | some d =>
      have hpos := List.length_pos_iff.2 hbs
      have hd := length_queryPage R s hq
      have htake : (bs.take (ps.bytes - i)).length = min (ps.bytes - i) bs.length :=
        List.length_take
      have hdrop : (bs.drop (ps.bytes - i)).length = bs.length - (ps.bytes - i) :=
        List.length_drop
      have hks : ps.start (k + i) = k := PageSize.start_eq hk (by omega) (by omega)
      obtain ⟨hlen, heq⟩ := writeLoop_of_some fuel i hbs hq hk (by omega)
      have hbytes : ∀ j < ps.bytes, d[j]? = (o.view R (k + j)).or (some 0) := fun j hj =>
        h.queryPage hk hq (fun ha hn => by
          have := hnew ha (k + i) (Nat.le_refl _) (by omega) (by rw [hks]; exact hn)
          rwa [hks] at this) hj
      have hlen' : (overwrite d (k + i - k) (bs.take (ps.bytes - i))).length = ps.bytes := by
        rwa [Nat.add_sub_cancel_left]
      have hset := h.setPage (k + i) (bs.take (ps.bytes - i)) hk hbytes hd
        (Nat.le_add_right _ _) (by omega)
        (by rw [ne_eq, ← List.length_eq_zero_iff]; omega) hlen'
      simp only [Nat.add_sub_cancel_left] at hset
      rw [heq]
      have hself := find_setPage_self s hk hlen
      have hother := fun j => @find_setPage_of_ne _ _ _ s j hk hlen
      generalize s.setPage k (overwrite d i (bs.take (ps.bytes - i))) hk hlen = s'
        at hset hself hother ⊢
      have hnew' : s'.NewPagesReadable R allocate (k + ps.bytes + 0)
          (bs.drop (ps.bytes - i)).length := by
        intro ha b h1 h2 hn
        by_cases hb : ps.start b = k
        · rw [hb, hself] at hn
          cases hn
        · rw [hother _ hb] at hn
          exact hnew ha b (by omega) (by omega) hn
      have hrest : (bs.drop (ps.bytes - i)).length ≤ fuel := by omega
      obtain ⟨hle, href, hframe⟩ := ih hrest hset (Nat.dvd_add hk (Nat.dvd_refl _)) ps.pos hnew'
      simp only
      generalize writeLoop R allocate fuel (k + ps.bytes) 0 (bs.drop (ps.bytes - i)) s' = r
        at hle href hframe ⊢
      have hbytes' : bs.take ((bs.take (ps.bytes - i)).length + r.2) =
          bs.take (ps.bytes - i) ++ (bs.drop (ps.bytes - i)).take r.2 := by
        by_cases hle' : ps.bytes - i ≤ bs.length
        · rw [htake, Nat.min_eq_left hle', List.take_add]
        · rw [List.take_of_length_le (by omega), List.take_of_length_le (by omega),
            List.drop_eq_nil_of_le (by omega), List.take_nil, List.append_nil]
      refine ⟨by omega, ?_, ?_⟩
      · rw [hbytes', Overlay.write_append]
        by_cases hr : r.2 = 0
        · rw [hr, List.take_zero, Overlay.write_nil] at href ⊢
          exact href
        · rw [show k + i + (bs.take (ps.bytes - i)).length = k + ps.bytes + 0 by omega]
          exact href
      · intro j hj
        have hjk : j ≠ k := by
          rintro rfl
          exact hj (j + i) (Nat.le_refl _) (by omega) hks
        rw [hframe j fun b h1 h2 => hj b (by omega) (by omega), hother j hjk]

/-- What a write to a storage is for: the number of bytes it reports is written, from the first one
on, and the other pages stay. -/
theorem write_spec {allocate : Bool} {off : Nat} {bs : List Byte} (h : s.Refines R o)
    (hnew : s.NewPagesReadable R allocate off bs.length) :
    (s.write R allocate off bs).2 ≤ bs.length ∧
      (s.write R allocate off bs).1.Refines R
        (o.write ps off (bs.take (s.write R allocate off bs).2)) ∧
      ∀ k, (∀ b, off ≤ b → b < off + (s.write R allocate off bs).2 → ps.start b ≠ k) →
        (s.write R allocate off bs).1.pages.find k = s.pages.find k := by
  have hoff := ps.start_add_mod off
  have hnew' : s.NewPagesReadable R allocate (ps.start off + off % ps.bytes) bs.length := by
    rw [hoff]
    exact hnew
  have := writeLoop_spec (Nat.le_refl bs.length) h (ps.dvd_start off) (Nat.mod_lt off ps.pos) hnew'
  rw [hoff] at this
  exact this

end Storage

/-! ## Runs -/

/-- A call of `Read` or `Write`, its range not going past the last address. -/
inductive Call where
  | read (off n : Nat) (fits : off + n ≤ 2 ^ 64)
  | write (allocate : Bool) (off : Nat) (bs : List Byte) (fits : off + bs.length ≤ 2 ^ 64)

/-- What a call returns. -/
inductive Result where
  | bytes (r : Except Failure (List Byte))
  | count (n : Nat)

variable {ps : PageSize}

def Storage.call (R : Reader) (s : Storage ps) : Call → Result × Storage ps
  | .read off n _ => ((s.read R off n).1 |> .bytes, (s.read R off n).2)
  | .write allocate off bs _ =>
    ((s.write R allocate off bs).2 |> .count, (s.write R allocate off bs).1)

/-- The byte map after a call and what it returned. -/
def Overlay.call (ps : PageSize) (o : Overlay) : Call → Result → Overlay
  | .write _ off bs _, .count n => o.write ps off (bs.take n)
  | _, _ => o

/-- What a call promises: a read returns the bytes of the view up to the first address without one;
a write that reports `n` bytes has written the first `n` bytes and touched no page but theirs. -/
def Answers (R : Reader) (s : Storage ps) (o : Overlay) (s' : Storage ps) : Call → Result → Prop
  | .read off n _, .bytes r =>
    r = .ok (readFrom (o.view R) off n) ∧ ∀ a, s'.content R a = o.view R a
  | .write _ off bs _, .count n =>
    n ≤ bs.length ∧ (∀ a, s'.content R a = (o.write ps off (bs.take n)).view R a) ∧
      ∀ k, (∀ b, off ≤ b → b < off + n → ps.start b ≠ k) → s'.pages.find k = s.pages.find k
  | _, _ => False

/-- Every call of a run keeps its promise. -/
def AllAnswered (R : Reader) (s : Storage ps) (o : Overlay) : List Call → Prop
  | [] => True
  | c :: cs =>
    Answers R s o (s.call R c).2 c (s.call R c).1 ∧
      AllAnswered R (s.call R c).2 (o.call ps c (s.call R c).1) cs

/-- The calls that keep their promise: a read whose buffers exist, a write that creates no page in
which the reader has bytes after one it has not. -/
def Storage.Clear (R : Reader) (s : Storage ps) : Call → Prop
  | .read off n _ => n + ps.bytes ≤ maxSize ∧ s.CrossedGapsFit off n
  | .write allocate off bs _ => s.NewPagesReadable R allocate off bs.length

/-- Every call of a run is clear in the state it is made in. -/
def AllClear (R : Reader) (s : Storage ps) : List Call → Prop
  | [] => True
  | c :: cs => s.Clear R c ∧ AllClear R (s.call R c).2 cs

/-- One call. -/
theorem Storage.Refines.call {R : Reader} {s : Storage ps} {o : Overlay} (h : s.Refines R o)
    {c : Call} (hc : s.Clear R c) : Answers R s o (s.call R c).2 c (s.call R c).1 ∧
      (s.call R c).2.Refines R (o.call ps c (s.call R c).1) := by
  cases c with
  | read off n fits =>
    obtain ⟨hn, hfit⟩ := hc
    obtain ⟨hread, hcontent, hpages⟩ := Storage.read_spec (R := R) hn hfit
    have hview : ∀ a, (s.read R off n).2.content R a = o.view R a := fun a =>
      (hcontent a).trans (h.content a)
    refine ⟨⟨?_, hview⟩, hview, ?_, h.written⟩
    · rw [hread]
      congr 1
      exact readFrom_congr fun i _ => h.content _
    · intro a ha
      have := h.paged a ha
      exact (hpages _ this).symm ▸ this
  | write allocate off bs fits =>
    obtain ⟨hle, href, hframe⟩ := Storage.write_spec h hc
    exact ⟨⟨hle, href.content, hframe⟩, href⟩

theorem allAnswered_of_refines {R : Reader} {s : Storage ps} {o : Overlay} (h : s.Refines R o)
    {cs : List Call} (hcs : AllClear R s cs) : AllAnswered R s o cs := by
  induction cs generalizing s o with
  | nil => trivial
  | cons c cs ih =>
    obtain ⟨hc, hcs⟩ := hcs
    obtain ⟨hans, href⟩ := h.call hc
    exact ⟨hans, ih href hcs⟩

/-- **The overlay memory is a byte map over its reader**, in every run whose calls are clear. -/
theorem allAnswered_of_allClear (R : Reader) (ps : PageSize) (cacheReads : Bool) {cs : List Call}
    (hcs : AllClear R (Storage.empty ps cacheReads) cs) :
    AllAnswered R (Storage.empty ps cacheReads) .initial cs :=
  allAnswered_of_refines (Storage.refines_empty R ps cacheReads) hcs

/-- `CReaderOverVector` -/
def readerOverVector (region : Nat) (data : List Byte) : Reader where
  byte a := if region ≤ a ∧ a < 2 ^ 64 then data[a - region]? else none
  byte_eq_none a h := if_neg (by omega)

/-- The smallest page size. -/
def page16 : PageSize := ⟨0x10, by decide, by decide, by decide⟩

/-- A write into a page that the reader has the start of, and a read over it. -/
theorem allAnswered_over_region : AllAnswered (readerOverVector 0x100 [5, 6])
    (Storage.empty page16 true) .initial
    [.write true 0x101 [9] (by decide), .read 0x100 3 (by decide)] := by
  have hnew : (Storage.empty page16 true).NewPagesReadable (readerOverVector 0x100 [5, 6]) true
      0x101 1 := by
    intro _ b h1 h2 _
    obtain rfl : b = 0x101 := by omega
    intro i j hij hj hsome
    have hj1 : j < 2 := by
      by_contra hge
      have hnone : (readerOverVector 0x100 [5, 6]).byte (page16.start 0x101 + j) = none := by
        refine (ite_eq_right_iff.2 fun _ => List.getElem?_eq_none ?_)
        rw [show page16.start 0x101 = 0x100 from rfl]
        simp only [List.length_cons, List.length_nil]
        omega
      rw [hnone] at hsome
      cases hsome
    obtain rfl : i = 0 := by omega
    rfl
  refine allAnswered_of_allClear _ _ _ ⟨hnew, ⟨by decide, ?_⟩, trivial⟩
  have hframe := Storage.write_spec (s := Storage.empty page16 true)
    (Storage.refines_empty (readerOverVector 0x100 [5, 6]) page16 true)
    (show Storage.NewPagesReadable _ _ true 0x101 [(9 : Byte)].length from hnew)
  intro k k' hk hk' hlt
  have hpage : ∀ j, ((Storage.write (readerOverVector 0x100 [5, 6]) (Storage.empty page16 true) true
      0x101 [9]).1.pages.find j).isSome → j = 0x100 := by
    intro j hj
    by_contra hne
    rw [hframe.2.2 j fun b h1 h2 hb => ?_] at hj
    · cases hj
    · have hle := hframe.1
      simp only [List.length_cons, List.length_nil] at hle
      obtain rfl : b = 0x101 := by omega
      exact hne hb.symm
  have h1 := hpage k hk
  have h2 := hpage k' hk'
  omega

/-- A page created at a byte that the reader does not have: the bytes behind it are lost. -/
theorem region_lost_in_new_page : ¬ AllAnswered (readerOverVector 0x108 [7])
    (Storage.empty page16 false) .initial
    [.write true 0x100 [1] (by decide), .read 0x108 1 (by decide)] := by
  rintro ⟨-, ⟨hread, -⟩, -⟩
  have hgot : (Storage.read (readerOverVector 0x108 [7]) (Storage.call (readerOverVector 0x108 [7])
      (Storage.empty page16 false) (.write true 0x100 [1] (by decide))).2 0x108 1).1.toOption =
        some [0] := by
    decide +kernel
  rw [hread] at hgot
  revert hgot
  decide +kernel

end Diana.Orthia
