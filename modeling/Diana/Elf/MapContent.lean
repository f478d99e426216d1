import Diana.Elf.MapEx
import Diana.Pe.MapBounds
import Diana.Lib.FlatMemory

/-!
# What a mapped ELF file looks like

On a file in memory and an image in memory, a mapping that succeeds leaves the data of every
loadable segment, and zeros behind it, as long as the segments do not overlap.

* `Wrote`: what a run of writes leaves;
* `mapEx_spec`: the writes of a mapping lie in the module, and a mapping that succeeds is faithful.
-/

namespace Diana.Elf

open Diana.Lib

open Diana.Pe (MapArgs Mapping MapState orFail safeAdd onFile onOut memoryStream memoryArgs)

/-! ## Writes -/

/-- The values of `f` are in the `n` bytes from `a` on, and elsewhere what was there. -/
def Wrote (a : Value) (n : Nat) (f : Nat → Byte) (m m' : Value → Byte) : Prop :=
  ∀ x, m' x = if (x - a).toNat < n then f (x - a).toNat else m x

section

variable {a : Value} {n k : Nat} {f : Nat → Byte} {m m' m'' : Value → Byte}

theorem wrote_zero : Wrote a 0 f m m := fun _ => (if_neg (Nat.not_lt_zero _)).symm

theorem wrote_store {bs : List Byte} (hf : ∀ i (hi : i < bs.length), f i = bs[i]) :
    Wrote a bs.length f m (store m a bs) := by
  intro x
  split
  · next h => rw [store_inside h, hf]
  · next h => exact store_of_outside (Nat.le_of_not_lt h)

theorem Wrote.append (h : Wrote a k f m m')
    (h' : Wrote (a + BitVec.ofNat 64 k) n (fun i => f (k + i)) m' m'')
    (hfit : k + n < 2 ^ 64) : Wrote a (k + n) f m m'' := by
  intro x
  have hsub : (x - (a + BitVec.ofNat 64 k)).toNat = (2 ^ 64 - k + (x - a).toNat) % 2 ^ 64 := by
    rw [sub_add_eq_sub_sub, BitVec.toNat_sub, BitVec.toNat_ofNat,
      Nat.mod_eq_of_lt (show k < 2 ^ 64 by omega)]
  have hx := (x - a).isLt
  rw [h' x, h x, hsub]
  by_cases hlow : (x - a).toNat < k
  · rw [if_neg (by omega), if_pos hlow, if_pos (by omega)]
  · have hmod : (2 ^ 64 - k + (x - a).toNat) % 2 ^ 64 = (x - a).toNat - k := by omega
    rw [hmod]
    by_cases hhigh : (x - a).toNat < k + n
    · rw [if_pos (by omega), if_pos hhigh]
      dsimp only
      rw [Nat.add_sub_cancel' (Nat.le_of_not_lt hlow)]
    · rw [if_neg (by omega), if_neg hlow, if_neg hhigh]

theorem Wrote.congr {g : Nat → Byte} (h : Wrote a n f m m') (hfg : ∀ i < n, f i = g i) :
    Wrote a n g m m' := by
  intro x
  rw [h x]
  split
  · next hx => exact hfg _ hx
  · rfl

theorem Wrote.inside (h : Wrote a n f m m') {i : Nat} (hi : i < n) (hn : n ≤ 2 ^ 64) :
    m' (a + BitVec.ofNat 64 i) = f i := by
  have hsub := toNat_add_sub (i := i) a (by omega)
  rw [h, hsub, if_pos hi]

end

/-! ## An image in memory -/

/-- If it succeeds, `x` ends in `Q`. -/
abbrev Gives {ε σ α : Type} (x : EStateM ε σ α) (s : σ) (Q : α → σ → Prop) :
    Prop := Post x s Q fun _ _ => True

theorem Gives.bind {ε σ α β : Type} {x : EStateM ε σ α} {f : α → EStateM ε σ β} {s : σ}
    {Q : α → σ → Prop} {R : β → σ → Prop} (hx : Gives x s Q) (hf : ∀ a t, Q a t → Gives (f a) t R) :
    Gives (x >>= f) s R :=
  post_bind.2 (hx.mono hf fun _ _ h => h)

section Runs

variable {file : List Byte} {ok : Value → Nat → Bool} {address a : Value} {pageSize n : Nat}
  {s : MapState Nat (Value → Byte)}

theorem gives_safeAdd (a b : Value) :
    Gives (orFail (safeAdd a b) : Mapping Nat (Value → Byte) Value) s
    fun c t => s = t ∧ a.toNat + b.toNat < 2 ^ 64 ∧ c = a + b := by
  unfold safeAdd
  split
  · trivial
  · next h =>
    refine ⟨rfl, ?_, rfl⟩
    have ha := a.isLt
    rw [BitVec.lt_def, BitVec.toNat_sub_of_le (BitVec.le_def.2 (Nat.le_of_lt_succ ha))] at h
    change ¬ 2 ^ 64 - 1 - a.toNat < b.toNat at h
    omega

theorem gives_moveTo (offset : Value) :
    Gives (onFile (Pe.moveTo (Pe.fileStream file) offset)) s fun _ t =>
    t = { s with file := offset.toNat } := rfl

theorem gives_exactRead : Gives (onFile (Pe.exactRead (Pe.fileStream file) n .error)) s fun bs t =>
    bs = (file.drop s.file).take n ∧ bs.length = n ∧ t = { s with file := s.file + n } := by
  rw [Gives, Pe.post_onFile]
  unfold Post
  rw [Pe.exactRead_apply (r := .ok ((file.drop s.file).take n)) (t := s.file + n) rfl]
  dsimp only
  split
  · next h =>
    split at h
    · next hlength =>
      cases h
      exact ⟨rfl, hlength, rfl⟩
    · cases h
  · trivial

theorem gives_writeExact (bs : List Byte) :
    Gives (onOut (Pe.writeExact (memoryStream ok) a bs)) s fun _ t =>
    t = { s with out := store s.out a bs } := by
  rw [Gives, Pe.post_onOut]
  unfold Post
  cases hok : ok a bs.length with
  | true =>
    rw [Pe.writeExact_apply (r := .ok bs.length) (t := store s.out a bs) (if_pos hok)]
    dsimp only
    rw [if_pos rfl]
  | false =>
    rw [Pe.writeExact_apply (r := .error .error) (t := s.out)
      (if_neg (by rw [hok]; exact Bool.false_ne_true))]
    trivial

/-- The bytes of the file from its position on. -/
theorem gives_copyLoop (hpage : 0 < pageSize) (fuel : Nat) (hn : n ≤ fuel) (hfit : n < 2 ^ 64) :
    Gives ((memoryArgs file ok address pageSize).copyLoop fuel a n) s fun _ t =>
      Wrote a n (fun i => file.getD (s.file + i) 0) s.out t.out ∧
        (n ≠ 0 → s.file + n ≤ file.length) := by
  induction fuel generalizing a n s with
  | zero =>
    obtain rfl : n = 0 := Nat.le_zero.1 hn
    exact ⟨wrote_zero, fun h => absurd rfl h⟩
  | succ fuel ih =>
    unfold MapArgs.copyLoop
    refine post_ite (fun hzero => ?_) fun hzero => ?_
    · subst hzero
      exact ⟨wrote_zero, fun h => absurd rfl h⟩
    have hk : min pageSize n ≤ n := Nat.min_le_right _ _
    have hsize : (memoryArgs file ok address pageSize).pageSize = pageSize := rfl
    refine Gives.bind gives_exactRead ?_
    rintro bs _ ⟨hbs, hlength, rfl⟩
    refine Gives.bind (gives_writeExact bs) ?_
    rintro ⟨⟩ _ rfl
    refine Post.mono (ih (by omega) (by omega)) ?_ fun _ _ h => h
    rintro ⟨⟩ t ⟨hrest, hlast⟩
    have hread : s.file + min pageSize n ≤ file.length := by
      have := congrArg List.length hbs
      rw [hlength, List.length_take, List.length_drop] at this
      omega
    have hchunk : Wrote a (min pageSize n) (fun i => file.getD (s.file + i) 0) s.out
        (store s.out a bs) := by
      have hstore : Wrote a bs.length (fun i => file.getD (s.file + i) 0) s.out
          (store s.out a bs) := by
        refine wrote_store fun i hi => ?_
        have hin : s.file + i < file.length := by omega
        subst hbs
        rw [List.getElem_take, List.getElem_drop, List.getD_eq_getElem?_getD,
          List.getElem?_eq_getElem hin]
        rfl
      rwa [hlength] at hstore
    have hboth := hchunk.append (n := n - min pageSize n)
        (hrest.congr fun i _ => by rw [Nat.add_assoc]) (by omega)
    rw [Nat.add_sub_cancel' hk] at hboth
    refine ⟨hboth, fun _ => ?_⟩
    by_cases hmore : n - min pageSize n = 0
    · omega
    · have := hlast hmore
      dsimp only at this
      omega

theorem gives_copyData (hpage : 0 < pageSize) (hfit : n < 2 ^ 64) :
    Gives ((memoryArgs file ok address pageSize).copyData a n) s fun _ t =>
      Wrote a n (fun i => file.getD (s.file + i) 0) s.out t.out ∧
        (n ≠ 0 → s.file + n ≤ file.length) := by
  refine Gives.bind (gives_safeAdd _ _) ?_
  rintro _ _ ⟨rfl, -, -⟩
  exact gives_copyLoop hpage n le_rfl hfit

theorem gives_memsetLoop (hpage : 0 < pageSize) (fuel : Nat) (hn : n ≤ fuel) (hfit : n < 2 ^ 64) :
    Gives ((memoryArgs file ok address pageSize).memsetLoop fuel a n) s fun _ t => Wrote a n
    (fun _ => 0) s.out t.out := by
  induction fuel generalizing a n s with
  | zero =>
    obtain rfl : n = 0 := Nat.le_zero.1 hn
    exact wrote_zero (f := fun _ => 0)
  | succ fuel ih =>
    unfold MapArgs.memsetLoop
    refine post_ite (fun hzero => ?_) fun hzero => ?_
    · subst hzero
      exact wrote_zero (f := fun _ => 0)
    have hk : min pageSize n ≤ n := Nat.min_le_right _ _
    have hsize : (memoryArgs file ok address pageSize).pageSize = pageSize := rfl
    refine Gives.bind (gives_writeExact _) ?_
    rintro ⟨⟩ _ rfl
    refine Post.mono (ih (by omega) (by omega)) ?_ fun _ _ h => h
    rintro ⟨⟩ t hrest
    have hchunk : Wrote a (min pageSize n) (fun _ => 0) s.out
        (store s.out a (List.replicate (min pageSize n) 0)) := by
      have hstore : Wrote a (List.replicate (min pageSize n) (0 : Byte)).length (fun _ => 0) s.out
          (store s.out a (List.replicate (min pageSize n) 0)) :=
        wrote_store fun i hi => (List.getElem_replicate hi).symm
      rwa [List.length_replicate] at hstore
    have hboth := hchunk.append (n := n - min pageSize n) hrest (by omega)
    rwa [Nat.add_sub_cancel' hk] at hboth

/-- The range does not wrap. -/
theorem gives_memsetData (hpage : 0 < pageSize) (hfit : n < 2 ^ 64) :
    Gives ((memoryArgs file ok address pageSize).memsetData a n) s fun _ t =>
      Wrote a n (fun _ => 0) s.out t.out ∧ a.toNat + n < 2 ^ 64 := by
  refine Gives.bind (gives_safeAdd _ _) ?_
  rintro _ _ ⟨rfl, hsum, -⟩
  rw [BitVec.toNat_ofNat, Nat.mod_eq_of_lt hfit] at hsum
  exact Post.mono (gives_memsetLoop hpage n le_rfl hfit) (fun _ _ h => ⟨h, hsum⟩) fun _ _ h => h

end Runs

/-! ## Segments -/

namespace ProgramHeader

variable (h : ProgramHeader)

/-- What is mapped, byte by byte. -/
def content (file : List Byte) (i : Nat) : Byte :=
  if i < h.copiedSize then file.getD (h.p_offset.toNat + i) 0 else 0

/-- The address lies in the segment, mapped from `address` on. -/
def Covers (address : Value) (x : Value) : Prop := (x - (h.p_vaddr + address)).toNat < h.mappedSize

/-- The segment is mapped: it does not wrap, its data are in the file, and the image has its
content. -/
structure IsMapped (file : List Byte) (address : Value) (m : Value → Byte) : Prop where
  fits : h.p_vaddr.toNat + address.toNat + h.mappedSize < 2 ^ 64
  data : h.copiedSize ≠ 0 → h.p_offset.toNat + h.copiedSize ≤ file.length
  content : ∀ i < h.mappedSize, m (h.p_vaddr + address + BitVec.ofNat 64 i) = h.content file i

/-- The segments do not overlap. -/
def Apart (g : ProgramHeader) : Prop :=
  h.mappedSize = 0 ∨ g.mappedSize = 0 ∨ h.p_vaddr.toNat + h.mappedSize ≤ g.p_vaddr.toNat ∨
    g.p_vaddr.toNat + g.mappedSize ≤ h.p_vaddr.toNat

instance (g : ProgramHeader) : Decidable (h.Apart g) := inferInstanceAs (Decidable (_ ∨ _))

end ProgramHeader

section Segments

variable {file : List Byte} {ok : Value → Nat → Bool} {address : Value} {pageSize : Nat} {M : Value}
  {h : ProgramHeader} {s : MapState Nat (Value → Byte)}

theorem gives_copySegment (hpage : 0 < pageSize) (a : Value) :
    Gives (copySegment (memoryArgs file ok address pageSize) h a) s fun _ t =>
      Wrote a h.copiedSize (fun i => file.getD (h.p_offset.toNat + i) 0) s.out t.out ∧
        (h.copiedSize ≠ 0 → h.p_offset.toNat + h.copiedSize ≤ file.length) := by
  have hcopied := h.copiedSize_le
  have hmapped := h.mappedSize_lt
  unfold copySegment
  refine post_ite (fun _ => ?_) fun hzero => ?_
  · refine Gives.bind (gives_moveTo h.p_offset) ?_
    rintro ⟨⟩ _ rfl
    exact gives_copyData hpage (by omega)
  · rw [not_not] at hzero
    rw [hzero]
    exact ⟨wrote_zero (f := fun i => file.getD (h.p_offset.toNat + i) 0), fun hne => absurd rfl hne⟩

theorem gives_clearSegment (hpage : 0 < pageSize) (a : Value) :
    Gives (clearSegment (memoryArgs file ok address pageSize) h a) s fun _ t =>
      Wrote a (h.mappedSize - h.copiedSize) (fun _ => 0) s.out t.out ∧
        (h.copiedSize < h.mappedSize → a.toNat + (h.mappedSize - h.copiedSize) < 2 ^ 64) := by
  have hmapped := h.mappedSize_lt
  unfold clearSegment
  refine post_ite (fun _ => ?_) fun hfull => ?_
  · exact Post.mono (gives_memsetData hpage (by omega)) (fun _ _ ht => ⟨ht.1, fun _ => ht.2⟩)
      fun _ _ ht => ht
  · rw [Nat.sub_eq_zero_of_le (Nat.le_of_not_lt hfull)]
    exact ⟨wrote_zero (f := fun _ => 0), fun hlt => absurd hlt hfull⟩

/-- A segment is mapped, and nothing else is changed. -/
theorem gives_mapLoad (hpage : 0 < pageSize) :
    Gives (mapLoad (memoryArgs file ok address pageSize) M h) s fun _ t =>
    h.IsMapped file address t.out ∧ ∀ x, ¬ h.Covers address x → t.out x = s.out x := by
  have hcopied := h.copiedSize_le
  have hmapped := h.mappedSize_lt
  refine post_ite (fun _ => trivial) fun _ => ?_
  refine Gives.bind (gives_safeAdd _ _) ?_
  rintro va _ ⟨rfl, hva, rfl⟩
  change h.p_vaddr.toNat + address.toNat < 2 ^ 64 at hva
  refine Gives.bind (gives_safeAdd _ _) ?_
  rintro _ _ ⟨rfl, hend, rfl⟩
  refine Gives.bind (gives_copySegment hpage _) ?_
  rintro ⟨⟩ t ⟨hdata, hfile⟩
  refine Post.mono (gives_clearSegment hpage _) ?_ fun _ _ ht => ht
  rintro ⟨⟩ u ⟨hzeros, hspace⟩
  have hstart : (h.p_vaddr + address).toNat = h.p_vaddr.toNat + address.toNat := by
    rw [BitVec.toNat_add, Nat.mod_eq_of_lt hva]
  have hsize : (BitVec.ofNat 64 h.copiedSize).toNat = h.copiedSize := by
    rw [BitVec.toNat_ofNat, Nat.mod_eq_of_lt (by omega)]
  change (h.p_vaddr + address).toNat + (BitVec.ofNat 64 h.copiedSize).toNat < 2 ^ 64 at hend
  rw [hstart, hsize] at hend
  have hall : Wrote (h.p_vaddr + address) h.mappedSize (h.content file) s.out u.out := by
    have hboth := Wrote.append (f := h.content file) (hdata.congr fun i hi => (if_pos hi).symm)
      (hzeros.congr fun i _ => (if_neg (by omega)).symm) (by omega)
    rwa [Nat.add_sub_cancel' hcopied] at hboth
  refine ⟨⟨?_, hfile, fun i hi => hall.inside hi hmapped.le⟩, fun x hx => ?_⟩
  · by_cases htail : h.copiedSize < h.mappedSize
    · have htop := hspace htail
      change (h.p_vaddr + address + BitVec.ofNat 64 h.copiedSize).toNat +
        (h.mappedSize - h.copiedSize) < 2 ^ 64 at htop
      rw [BitVec.toNat_add, hstart, hsize, Nat.mod_eq_of_lt hend] at htop
      omega
    · omega
  · exact (hall x).trans (if_neg hx)

/-- The addresses of a segment are none of another. -/
theorem ProgramHeader.Apart.not_covers {g : ProgramHeader} {m m' : Value → Byte}
    (happart : h.Apart g) (hh : h.IsMapped file address m) (hg : g.IsMapped file address m')
    {i : Nat} (hi : i < h.mappedSize) :
    ¬ g.Covers address (h.p_vaddr + address + BitVec.ofNat 64 i) := by
  have hfits := hh.fits
  have hfits' := hg.fits
  have hshift : h.p_vaddr + address + BitVec.ofNat 64 i - (g.p_vaddr + address) =
      h.p_vaddr + BitVec.ofNat 64 i - g.p_vaddr := by
    rw [add_right_comm, add_sub_add_right_eq_sub]
  have hsum : (h.p_vaddr + BitVec.ofNat 64 i).toNat = h.p_vaddr.toNat + i := by
    rw [BitVec.toNat_add, BitVec.toNat_ofNat]
    omega
  unfold ProgramHeader.Covers
  rw [hshift, BitVec.toNat_sub, hsum]
  unfold ProgramHeader.Apart at happart
  omega

theorem gives_mapSegments {l : List ProgramHeader} (hpage : 0 < pageSize)
    (happart : l.Pairwise fun h g => h.p_type = DIANA_PT_LOAD → g.p_type = DIANA_PT_LOAD →
      h.Apart g) :
    Gives (mapSegments (memoryArgs file ok address pageSize) M l) s fun _ t =>
      (∀ h ∈ l, h.p_type = DIANA_PT_LOAD → h.IsMapped file address t.out) ∧
        ∀ x, (∀ h ∈ l, h.p_type = DIANA_PT_LOAD → ¬ h.Covers address x) → t.out x = s.out x := by
  induction l generalizing s with
  | nil => exact ⟨nofun, fun _ _ => rfl⟩
  | cons h l ih =>
    obtain ⟨hhead, htail⟩ := List.pairwise_cons.1 happart
    have hfirst : Gives (mapSegment (memoryArgs file ok address pageSize) M h) s fun _ t =>
        (h.p_type = DIANA_PT_LOAD → h.IsMapped file address t.out) ∧
          ∀ x, (h.p_type = DIANA_PT_LOAD → ¬ h.Covers address x) → t.out x = s.out x := by
      unfold mapSegment
      refine post_ite (fun hload => ?_) fun hload => ⟨fun h => absurd h hload, fun _ _ => rfl⟩
      exact Post.mono (gives_mapLoad hpage)
        (fun _ _ ht => ⟨fun _ => ht.1, fun x hx => ht.2 x (hx hload)⟩) fun _ _ ht => ht
    refine Gives.bind hfirst ?_
    rintro ⟨⟩ t ⟨hmapped, hsame⟩
    refine Post.mono (ih htail) ?_ fun _ _ ht => ht
    rintro ⟨⟩ u ⟨hrest, hsame'⟩
    refine ⟨List.forall_mem_cons.2 ⟨fun hload => ?_, hrest⟩, fun x hx => ?_⟩
    · -- what comes later is written elsewhere
      have hm := hmapped hload
      refine ⟨hm.fits, hm.data,
        fun i hi => (hsame' _ fun g hg hgload => ?_).trans (hm.content i hi)⟩
      exact (hhead g hg hload hgload).not_covers hm (hrest g hg hgload) hi
    · obtain ⟨hx', hxl⟩ := List.forall_mem_cons.1 hx
      exact (hsame' x hxl).trans (hsame x hx')

end Segments

/-! ## A mapped file -/

/-- `p_filesz` bytes of the file, `p_memsz` at most, and zeros up to `p_memsz`. -/
def ProgramHeader.Shows (h : ProgramHeader) (file : List Byte) (address : Value)
    (m : Value → Byte) : Prop :=
  (∀ i < min h.p_filesz.toNat h.p_memsz.toNat,
      file[h.p_offset.toNat + i]? = some (m (h.p_vaddr + address + BitVec.ofNat 64 i))) ∧
    ∀ i < h.p_memsz.toNat, h.p_filesz.toNat ≤ i → m (h.p_vaddr + address + BitVec.ofNat 64 i) = 0

theorem ProgramHeader.IsMapped.shows {h : ProgramHeader} {file : List Byte} {address : Value}
    {m : Value → Byte} (hm : h.IsMapped file address m) (hc : h.Counted) :
    h.Shows file address m := by
  have hmapped := hc.mappedSize_eq
  have hcopied : h.copiedSize = min h.p_filesz.toNat h.p_memsz.toNat := by
    unfold ProgramHeader.copiedSize
    split
    · next hempty =>
      rw [hempty.2]
      exact (Nat.zero_min _).symm
    · rw [hmapped]
  refine ⟨fun i hi => ?_, fun i hi hfile => ?_⟩
  · have hin := hm.data (by omega)
    rw [hm.content i (by omega), ProgramHeader.content, if_pos (by omega),
      List.getD_eq_getElem?_getD, List.getElem?_eq_getElem (by omega)]
    rfl
  · rw [hm.content i (by omega), ProgramHeader.content, if_neg (by omega)]

namespace ElfFile

variable (E : ElfFile)

/-- The loadable segments do not overlap. -/
def LoadsApart : Prop :=
  E.capturedSegments.Pairwise fun h g => h.p_type = DIANA_PT_LOAD →
    g.p_type = DIANA_PT_LOAD → h.Apart g

/-- A mapping that succeeds leaves every loadable segment as it is in the file. -/
def Faithful (address : Value) (pageSize : Nat) : Prop :=
  E.LoadsApart → ∀ (file : List Byte) (ok : Value → Nat → Bool) (s t : MapState Nat (Value → Byte)),
    E.mapEx (memoryArgs file ok address pageSize) true s = .ok () t →
      ∀ h ∈ E.capturedSegments, h.p_type = DIANA_PT_LOAD → h.Shows file address t.out

variable {E} in
theorem Counted.faithful (hc : E.Counted) (address : Value) (pageSize : Nat) :
    E.Faithful address pageSize := by
  intro happart file ok s t hrun h hmem hload
  have hgives : Gives (E.mapEx (memoryArgs file ok address pageSize) true) s fun _ t =>
      ∀ h ∈ E.capturedSegments, h.p_type = DIANA_PT_LOAD → h.IsMapped file address t.out := by
    refine post_ite (fun _ => trivial) fun _ => post_ite (fun _ => trivial) fun _ =>
      post_ite (fun _ => trivial) fun hpage => ?_
    change ¬ pageSize < 8 at hpage
    refine Gives.bind (Q := fun _ _ => True) ?_ fun _ _ _ => ?_
    · exact Post.mono (Q := fun _ _ => True) (E := fun _ _ => True)
        (by unfold Post; split <;> trivial) (fun _ _ h => h) fun _ _ h => h
    · refine Gives.bind (gives_mapSegments (by omega) happart) ?_
      rintro ⟨⟩ u ⟨hall, -⟩
      exact hall
  exact (hgives.ok hrun h hmem hload).shows (hc h hmem hload)

end ElfFile

/-- Where every loadable segment is counted, a mapping writes inside the module, on every file and
every image; and one that succeeds has copied the file, where the segments do not overlap. -/
theorem mapEx_spec (E : ElfFile) (hc : E.Counted) (address : Value) (pageSize : Nat) :
    E.WritesInside address pageSize ∧ E.Faithful address pageSize :=
  ⟨hc.writesInside address pageSize, hc.faithful address pageSize⟩

/-! ## A segment with more data than space -/

/-- A file of 0xC0 bytes: a segment from its start on of 0xB8 bytes for 0xB0 in memory, and behind
it a header without a type that ends the module at 0x200. -/
def largeSegment : List Byte :=
  let header := [0x7F, 0x45, 0x4C, 0x46, 2, 1, 1] ++ List.replicate 9 0 ++ leBytes 2 3 ++
      leBytes 2 62 ++ leBytes 4 1 ++
    leBytes 8 0 ++ leBytes 8 64 ++ leBytes 8 0 ++ leBytes 4 0 ++ leBytes 2 64 ++ leBytes 2 56 ++
    leBytes 2 2 ++ List.replicate 6 0
  let load := leBytes 4 1 ++ leBytes 4 0 ++ leBytes 8 0 ++ leBytes 8 0 ++ leBytes 8 0 ++
      leBytes 8 0xB8 ++ leBytes 8 0xB0 ++
    leBytes 8 0
  let empty := leBytes 4 0 ++ leBytes 4 0 ++ leBytes 8 0 ++ leBytes 8 0x200 ++ List.replicate 32 0
  header ++ load ++ empty ++ List.replicate 16 1

def largeSegmentFile : ElfFile where
  fileMode := true
  ident := ⟨true, true⟩
  e_type := 3
  e_machine := 62
  e_ehsize := 64
  e_phentsize := 56
  e_phnum := 2
  capturedSegments := [⟨1, 0, 0, 0, 0, 0xB8, 0xB0, 0⟩, ⟨0, 0, 0, 0x200, 0, 0, 0, 0⟩]

theorem mapEx_spec_largeSegment :
    largeSegmentFile.WritesInside 0x400000 0x1000 ∧ largeSegmentFile.Faithful 0x400000 0x1000 := by
  refine mapEx_spec largeSegmentFile (fun h hmem _ => ?_) 0x400000 0x1000
  simp only [largeSegmentFile, List.mem_cons, List.not_mem_nil, or_false] at hmem
  rcases hmem with rfl | rfl
  · exact ⟨by decide, by decide⟩
  · exact ⟨by decide, by decide⟩

/-- The parser accepts the file, and what is mapped at the end of the segment is not from the
file. -/
theorem not_mapped_faithfully : ¬ ∀ (file : List Byte) (E : ElfFile) (t : Nat),
    initElfFile (Pe.fileStream file) (fun _ => true)
    (BitVec.ofNat 64 file.length) true 0 = .ok E t →
      ∀ address pageSize, E.WritesInside address pageSize ∧
        (E.LoadsApart → ∀ (ok : Value → Nat → Bool) (s t : MapState Nat (Value → Byte)),
          E.mapEx (memoryArgs file ok address pageSize) true s = .ok () t →
            ∀ h ∈ E.capturedSegments, h.p_type = DIANA_PT_LOAD →
              (∀ i < h.p_filesz.toNat,
                file[h.p_offset.toNat + i]? = some
                (t.out (h.p_vaddr + address + BitVec.ofNat 64 i))) ∧
                ∀ i < h.p_memsz.toNat, h.p_filesz.toNat ≤ i →
                  t.out (h.p_vaddr + address + BitVec.ofNat 64 i) = 0) := by
  intro h
  have haccepted : initElfFile (Pe.fileStream largeSegment) (fun _ => true)
    (BitVec.ofNat 64 largeSegment.length) true 0 =
      .ok largeSegmentFile 176 := Pe.eq_ok_of_toOption (by decide +kernel)
  let s : MapState Nat (Value → Byte) := ⟨0, fun _ => 0⟩
  let r := largeSegmentFile.mapEx (memoryArgs largeSegment (fun _ _ => true) 0x400000 0x1000) true s
  have hlast : (Pe.toOption r).map (fun p => p.2.out 0x4000B0) = some 0 := by decide +kernel
  obtain ⟨⟨⟨⟩, t⟩, hrun, hzero⟩ := Option.map_eq_some_iff.1 hlast
  have hshows := (h _ _ _ haccepted 0x400000 0x1000).2 (by unfold ElfFile.LoadsApart; decide)
      (fun _ _ => true) s t
    (Pe.eq_ok_of_toOption hrun) ⟨1, 0, 0, 0, 0, 0xB8, 0xB0, 0⟩ List.mem_cons_self rfl
  have hbyte := hshows.1 0xB0 (by decide)
  rw [show (0 : Value) + 0x400000 + BitVec.ofNat 64 0xB0 = 0x4000B0 by decide, hzero] at hbyte
  exact absurd hbyte (by decide)

end Diana.Elf
