import Diana.Status
import Diana.Lib.Field
import Diana.Lib.LittleEndian
import Diana.Lib.Loop
import Diana.Lib.Patches

/-!
# Landing pads

`Diana_AnalyzeLandingPads` reads an image block by block and starts a route at every `bti` word.
What cannot be read is passed over by the size of a block.

* `turn`: a block, or a piece of a gap;
* `Wanted`: where routes should start; `Skipped`: behind the first gap;
* `landingPads_iff`: when routes start where they should, and nowhere else.
-/

namespace Diana.Analyze.LandingPads

open Diana.Lib

abbrev Byte := BitVec 8

/-- `OPERAND_SIZE` -/
abbrev Value := BitVec 64

def DIANA_A64_BTI_C : Nat := 0xD503245F
def DIANA_A64_BTI_J : Nat := 0xD503249F
def DIANA_A64_BTI_JC : Nat := 0xD50324DF

/-- `bti c`, `bti j` or `bti jc` -/
def isPad (word : Nat) : Bool :=
  word == DIANA_A64_BTI_C || word == DIANA_A64_BTI_J || word == DIANA_A64_BTI_JC

inductive Arch where
  | x86 | aarch64 | arm32 | thumb
  deriving DecidableEq, Repr

/-- `DianaAnalyzeParams` -/
structure Params where
  arch : Arch
  imageBase : Value

/-- What the function works with. -/
structure Env where
  /-- `pRandomRead` -/
  randomRead : Value → Nat → Except Status (List Byte)
  /-- `Diana_AnalyzeCodeEx2` at an offset, after those before it. -/
  analyzeCodeEx2 : List Value → Value → Except Status Unit

/-- Where the loop is, and where routes were started. -/
structure Scan where
  offset : Value
  calls : List Value

/-- What the function returns, and where routes were started. -/
abbrev Ended := Except Status Unit × List Value

/-- `sizeof(buffer)` -/
def bufferSize : Nat := 4096

/-- The loop over the words of a block. -/
def scanBlock (E : Env) : Value → List Byte → List Value → Except Status Unit × List Value
  | offset, b0 :: b1 :: b2 :: b3 :: rest, calls =>
    if isPad (leNat [b0, b1, b2, b3]) then
      match E.analyzeCodeEx2 calls offset with
      | .error e => (.error e, calls ++ [offset])
      | .ok () => scanBlock E (offset + 4) rest (calls ++ [offset])
    else scanBlock E (offset + 4) rest calls
  | _, _, calls => (.ok (), calls)

/-- How far a block takes the offset. -/
def advance (readBytes : Value) : Value := (readBytes &&& ~~~3) + if readBytes < 4 then 4 else 0

/-- A turn of the loop. -/
def turn (E : Env) (endOffset : Value) (s : Scan) : Scan ⊕ Ended :=
  if ¬ s.offset + 4 ≤ endOffset then .inr (.ok (), s.calls)
  else
    let size := if endOffset - s.offset < 4096 then (endOffset - s.offset).toNat else bufferSize
    match E.randomRead s.offset size with
    | .error _ | .ok [] => .inl { s with offset := s.offset + 4096 }
    | .ok bs =>
      match scanBlock E s.offset bs s.calls with
      | (.error e, calls) => .inr (.error e, calls)
      | (.ok (), calls) => .inl ⟨s.offset + advance (BitVec.ofNat 64 bs.length), calls⟩

/-- The first aligned address. -/
def firstOffset (imageBase startOffset : Value) : Value :=
  startOffset + ((4 - ((imageBase + startOffset) &&& 3)) &&& 3)

/-- `Diana_AnalyzeLandingPads` ends. -/
def Ends (E : Env) (pParams : Option Params) (startOffset endOffset : Value) (r : Ended) : Prop :=
  match pParams with
  | some ⟨.aarch64, imageBase⟩ =>
    ∃ n, runFrom (fun _ => turn E endOffset) 0 n ⟨firstOffset imageBase startOffset, []⟩ = .inr r
  | _ => r = (.ok (), [])

/-! ## Images -/

/-- An image whose pages of 4096 bytes can be read or not. -/
structure Image where
  readable : Nat → Bool
  content : Nat → Byte

namespace Image

variable (img : Image)

/-- A byte that can be read. -/
def ReadableByte (a : Nat) : Prop := a < 2 ^ 64 ∧ img.readable (a / 4096) = true

instance (a : Nat) : Decidable (img.ReadableByte a) := inferInstanceAs (Decidable (_ ∧ _))

/-- How many of `size` bytes can be read. -/
def prefixLength : (size a : Nat) → Nat
  | 0, _ => 0
  | size + 1, a => if img.ReadableByte a then prefixLength size (a + 1) + 1 else 0

/-- All bytes of a word. -/
def ReadableWord (a : Nat) : Prop := ∀ i < 4, img.ReadableByte (a + i)

/-- The word at `a` is a landing pad. -/
def PadAt (a : Nat) : Prop := isPad (leNat (window img.content a 4)) = true

instance (a : Nat) : Decidable (img.PadAt a) := inferInstanceAs (Decidable (_ = true))

/-- A stream over the image delivers what can be read, up to the first byte that cannot. -/
def DeliveredBy (randomRead : Value → Nat → Except Status (List Byte)) : Prop :=
  ∀ offset size,
    (img.ReadableByte offset.toNat →
      randomRead offset size = .ok
      (window img.content offset.toNat (img.prefixLength size offset.toNat))) ∧
    (¬ img.ReadableByte offset.toNat → ∀ bs, randomRead offset size = .ok bs → bs = [])

end Image

/-- Where a route should start. -/
structure Wanted (img : Image) (imageBase startOffset endOffset : Value) (a : Nat) : Prop where
  start_le : startOffset.toNat ≤ a
  le_end : a + 4 ≤ endOffset.toNat
  aligned : (imageBase.toNat + a) % 4 = 0
  readable : img.ReadableWord a
  pad : img.PadAt a

/-- The function terminates, and where it succeeds, it has started a route exactly once, in
increasing order, where it should. -/
def Exact (img : Image) (imageBase startOffset endOffset : Value) (E : Env) : Prop :=
  (∃ r, Ends E (some ⟨.aarch64, imageBase⟩) startOffset endOffset r) ∧
    ∀ calls, Ends E (some ⟨.aarch64, imageBase⟩) startOffset endOffset (.ok (), calls) →
      calls.Pairwise (· < ·) ∧ ∀ a, a ∈ calls ↔ Wanted img imageBase startOffset endOffset a.toNat

/-! ## Reads -/

section

variable {img : Image} {a n size : Nat}

theorem prefixLength_le : img.prefixLength size a ≤ size := by
  induction size generalizing a with
  | zero => exact Nat.le_refl 0
  | succ size ih =>
    unfold Image.prefixLength
    split
    · exact Nat.succ_le_succ ih
    · exact Nat.zero_le _

theorem readable_of_lt_prefixLength {i : Nat} (h : i < img.prefixLength size a) :
    img.ReadableByte (a + i) := by
  induction size generalizing a i with
  | zero => cases h
  | succ size ih =>
    unfold Image.prefixLength at h
    split at h
    · next ha =>
      cases i with
      | zero => exact ha
      | succ i =>
        have hi := ih (Nat.lt_of_succ_lt_succ h)
        rwa [Nat.add_right_comm] at hi
    · cases h

theorem not_readable_of_prefixLength_lt (h : img.prefixLength size a < size) :
    ¬ img.ReadableByte (a + img.prefixLength size a) := by
  induction size generalizing a with
  | zero => cases h
  | succ size ih =>
    unfold Image.prefixLength at h ⊢
    split
    · next ha =>
      rw [if_pos ha] at h
      have hnext := ih (Nat.lt_of_succ_lt_succ h)
      rwa [Nat.add_right_comm, Nat.add_assoc] at hnext
    · next ha => exact ha

theorem prefixLength_pos (ha : img.ReadableByte a) (hsize : 0 < size) :
    0 < img.prefixLength size a := by
  cases size with
  | zero => cases hsize
  | succ size =>
    unfold Image.prefixLength
    rw [if_pos ha]
    exact Nat.succ_pos _

theorem readable_congr {b : Nat} (hb : b < 2 ^ 64) (hpage : a / 4096 = b / 4096)
    (h : img.ReadableByte a) : img.ReadableByte b := ⟨hb, hpage ▸ h.2⟩

end

/-! ## Blocks -/

theorem window_succ (m : Nat → Byte) (o n : Nat) :
    window m o (n + 1) = m o :: window m (o + 1) n := by
  rw [window, List.range_succ_eq_map, List.map_cons, List.map_map, window]
  refine congrArg _ (List.map_congr_left fun i _ => ?_)
  rw [Function.comp_apply, Nat.succ_eq_add_one, Nat.add_comm i 1, Nat.add_assoc]

theorem window_add_four (m : Nat → Byte) (o n : Nat) :
    window m o (n + 4) = m o :: m (o + 1) :: m (o + 2) :: m (o + 3) :: window m (o + 4) n := by
  rw [window_succ, window_succ, window_succ, window_succ]

theorem toNat_add_four {offset : Value} (h : offset.toNat + 4 < 2 ^ 64) :
    (offset + 4).toNat = offset.toNat + 4 := by
  rw [BitVec.toNat_add]
  exact Nat.mod_eq_of_lt h

/-- The landing pads in a block. -/
structure PadsOf (img : Image) (x n : Nat) (L : List Value) : Prop where
  sorted : L.Pairwise (· < ·)
  mem : ∀ a, a ∈ L ↔ x ≤ a.toNat ∧ a.toNat + 4 ≤ x + n ∧ a.toNat % 4 = x % 4 ∧ img.PadAt a.toNat

/-- A word in front of a block. -/
theorem PadsOf.cons {img : Image} {x n : Nat} {L : List Value} (h : PadsOf img (x + 4) n L)
    {offset : Value} (hx : offset.toNat = x) :
    PadsOf img x (n + 4) (if img.PadAt x then offset :: L else L) := by
  have hmem : ∀ a : Value, (a = offset ∧ img.PadAt x ∨ a ∈ L) ↔
      x ≤ a.toNat ∧ a.toNat + 4 ≤ x + (n + 4) ∧ a.toNat % 4 = x % 4 ∧ img.PadAt a.toNat := by
    intro a
    rw [h.mem]
    constructor
    · rintro (⟨rfl, hpad⟩ | ⟨h1, h2, h3, h4⟩)
      · exact ⟨by omega, by omega, by omega, hx ▸ hpad⟩
      · exact ⟨by omega, by omega, by omega, h4⟩
    · rintro ⟨h1, h2, h3, h4⟩
      by_cases heq : a.toNat = x
      · exact .inl ⟨BitVec.eq_of_toNat_eq (heq.trans hx.symm), heq ▸ h4⟩
      · exact .inr ⟨by omega, by omega, by omega, h4⟩
  split
  · next hpad =>
    refine ⟨List.pairwise_cons.2 ⟨fun a ha => ?_, h.sorted⟩, fun a => ?_⟩
    · have := (h.mem a).1 ha
      rw [BitVec.lt_def, hx]
      omega
    · rw [List.mem_cons, ← hmem]
      simp [hpad]
  · next hpad =>
    refine ⟨h.sorted, fun a => ?_⟩
    rw [← hmem]
    simp [hpad]

theorem padsOf_nil (img : Image) {x n : Nat} (hn : n < 4) : PadsOf img x n [] := by
  refine ⟨List.Pairwise.nil, fun a => ⟨nofun, fun h => ?_⟩⟩
  omega

theorem scanBlock_of_lt_four {E : Env} {offset : Value} {bs : List Byte} (calls : List Value)
    (h : bs.length < 4) : scanBlock E offset bs calls = (.ok (), calls) := by
  match bs with
  | [] => rfl
  | [_] => rfl
  | [_, _] => rfl
  | [_, _, _] => rfl
  | _ :: _ :: _ :: _ :: _ =>
    simp only [List.length_cons] at h
    omega

/-- A block that is scanned to its end. -/
theorem scanBlock_ok {img : Image} {E : Env} {offset : Value}
    {calls calls' : List Value} {x n : Nat} (hx : offset.toNat = x ∨ n = 0) (hfit : x + n ≤ 2 ^ 64)
    (h : scanBlock E offset (window img.content x n) calls = (.ok (), calls')) :
    ∃ L, calls' = calls ++ L ∧ PadsOf img x n L := by
  induction n using Nat.strongRecOn generalizing offset x calls with
  | _ n ih =>
    by_cases hn : n < 4
    · rw [scanBlock_of_lt_four calls (by rwa [length_window])] at h
      exact ⟨[], by rw [List.append_nil]; exact (congrArg Prod.snd h).symm, padsOf_nil img hn⟩
    · obtain ⟨k, rfl⟩ : ∃ k, n = k + 4 := ⟨n - 4, by omega⟩
      have hoffset : offset.toNat = x := hx.resolve_right (by omega)
      have hword : leNat [img.content x, img.content (x + 1), img.content (x + 2),
        img.content (x + 3)] =
          leNat (window img.content x 4) := rfl
      have hnext : (offset + 4).toNat = x + 4 ∨ k = 0 := by
        by_cases hk : k = 0
        · exact .inr hk
        · exact .inl (hoffset ▸ toNat_add_four (by omega))
      rw [window_add_four, scanBlock, hword] at h
      by_cases hpad : img.PadAt x
      · have hpad' : isPad (leNat (window img.content x 4)) = true := hpad
        rw [if_pos hpad'] at h
        split at h
        · cases h
        · obtain ⟨L, rfl, hL⟩ := ih k (by omega) hnext (by omega) h
          have hcons := hL.cons hoffset
          rw [if_pos hpad] at hcons
          exact ⟨offset :: L, by rw [List.append_assoc]; rfl, hcons⟩
      · have hpad' : ¬ isPad (leNat (window img.content x 4)) = true := hpad
        rw [if_neg hpad'] at h
        obtain ⟨L, rfl, hL⟩ := ih k (by omega) hnext (by omega) h
        have hcons := hL.cons hoffset
        rw [if_neg hpad] at hcons
        exact ⟨L, rfl, hcons⟩

theorem toNat_advance {n : Nat} (hn : n ≤ 4096) :
    (advance (BitVec.ofNat 64 n)).toNat = n / 4 * 4 + if n < 4 then 4 else 0 := by
  have htoNat : (BitVec.ofNat 64 n).toNat = n := by
    rw [BitVec.toNat_ofNat]
    exact Nat.mod_eq_of_lt (by omega)
  have hclear : (BitVec.ofNat 64 n &&& ~~~(3 : BitVec 64)).toNat = n / 4 * 4 := by
    rw [← htoNat, ← toNat_clear_three, htoNat]
    rfl
  have hlt : (BitVec.ofNat 64 n < 4) ↔ n < 4 := by
    rw [BitVec.lt_def, htoNat]
    rfl
  unfold advance
  rw [BitVec.toNat_add, hclear]
  split
  · next h =>
    rw [if_pos (hlt.1 h)]
    exact Nat.mod_eq_of_lt (by have := hlt.1 h; change n / 4 * 4 + 4 < _; omega)
  · next h =>
    rw [if_neg fun hn => h (hlt.2 hn)]
    exact Nat.mod_eq_of_lt (by change n / 4 * 4 + 0 < _; omega)

/-! ## Turns -/

/-- What a turn does below the end of the address space. -/
inductive Turns (img : Image) (endOffset : Value) (s : Scan) : Scan ⊕ Ended → Prop where
  | finished (h : endOffset.toNat < s.offset.toNat + 4) :
      Turns img endOffset s (.inr (.ok (), s.calls))
  | gap (h : s.offset.toNat + 4 ≤ endOffset.toNat) (hgap : ¬ img.ReadableByte s.offset.toNat) :
    Turns img endOffset s (.inl { s with offset := s.offset + 4096 })
  | failed (h : s.offset.toNat + 4 ≤ endOffset.toNat) (e : Status) (calls : List Value) :
    Turns img endOffset s (.inr (.error e, calls))
  | block (h : s.offset.toNat + 4 ≤ endOffset.toNat) (hread : img.ReadableByte s.offset.toNat)
      (L : List Value)
    (n : Nat) (hn : n = img.prefixLength (min 4096 (endOffset.toNat - s.offset.toNat))
      s.offset.toNat)
    (hL : PadsOf img s.offset.toNat n L) :
    Turns img endOffset s (.inl ⟨s.offset + advance (BitVec.ofNat 64 n), s.calls ++ L⟩)

section

variable {img : Image} {E : Env} {endOffset : Value} {s t : Scan}

theorem turn_finished (h : ¬ s.offset + 4 ≤ endOffset) :
    turn E endOffset s = .inr (.ok (), s.calls) := if_pos h

/-- A read that delivers nothing. -/
theorem turn_gap (himg : img.DeliveredBy E.randomRead) (h : s.offset + 4 ≤ endOffset)
    (hgap : ¬ img.ReadableByte s.offset.toNat) :
    turn E endOffset s = .inl { s with offset := s.offset + 4096 } := by
  unfold turn
  rw [if_neg (not_not.2 h)]
  dsimp only
  split
  · rfl
  · rfl
  · next bs hne hread =>
    have hnil := (himg _ _).2 hgap bs hread
    exact absurd hnil (by rintro rfl; exact hne rfl)

/-- A read that delivers a block. -/
theorem turn_block (himg : img.DeliveredBy E.randomRead) (h : s.offset + 4 ≤ endOffset)
    (hread : img.ReadableByte s.offset.toNat) {size : Nat} (hpos : 0 < size)
    (hsize : (if endOffset - s.offset < 4096 then (endOffset - s.offset).toNat
      else bufferSize) = size) :
    turn E endOffset s =
      match scanBlock E s.offset
      (window img.content s.offset.toNat (img.prefixLength size s.offset.toNat)) s.calls with
      | (.error e, calls) => .inr (.error e, calls)
      | (.ok (), calls) =>
        .inl ⟨s.offset + advance (BitVec.ofNat 64 (img.prefixLength size s.offset.toNat)),
          calls⟩ := by
  have hdelivered := (himg s.offset size).1 hread
  have hne : img.prefixLength size s.offset.toNat ≠ 0 :=
    Nat.pos_iff_ne_zero.1 (prefixLength_pos hread hpos)
  obtain ⟨k, hk⟩ := Nat.exists_eq_succ_of_ne_zero hne
  unfold turn
  rw [if_neg (not_not.2 h)]
  dsimp only
  rw [hsize, hdelivered, hk, window_succ]
  dsimp only
  rw [List.length_cons, length_window]

theorem toNat_offset_add_four (h : s.offset.toNat + 4 < 2 ^ 64) :
    s.offset + 4 ≤ endOffset ↔ s.offset.toNat + 4 ≤ endOffset.toNat := by
  rw [BitVec.le_def, toNat_add_four h]

theorem size_eq (h : s.offset.toNat + 4 ≤ endOffset.toNat) :
    (if endOffset - s.offset < 4096 then (endOffset - s.offset).toNat else bufferSize) =
      min 4096 (endOffset.toNat - s.offset.toNat) := by
  have hsub : (endOffset - s.offset).toNat = endOffset.toNat - s.offset.toNat :=
    BitVec.toNat_sub_of_le (BitVec.le_def.2 (by omega))
  have h4096 : (4096 : Value).toNat = 4096 := rfl
  have hlt : endOffset - s.offset < 4096 ↔ endOffset.toNat - s.offset.toNat < 4096 := by
    rw [BitVec.lt_def, hsub, h4096]
  unfold bufferSize
  split
  · next hshort =>
    have := hlt.1 hshort
    omega
  · next hlong =>
    have := mt hlt.2 hlong
    omega

theorem turns (himg : img.DeliveredBy E.randomRead) (hwrap : s.offset.toNat + 4 < 2 ^ 64) :
    Turns img endOffset s (turn E endOffset s) := by
  by_cases h : s.offset.toNat + 4 ≤ endOffset.toNat
  · have hle := (toNat_offset_add_four hwrap).2 h
    by_cases hread : img.ReadableByte s.offset.toNat
    · rw [@turn_block _ _ _ _ himg hle hread (min 4096 (endOffset.toNat - s.offset.toNat))
        (by omega) (size_eq h)]
      have hfit : s.offset.toNat +
          img.prefixLength (min 4096 (endOffset.toNat - s.offset.toNat)) s.offset.toNat ≤
          2 ^ 64 := by
        have hfour : img.prefixLength (min 4096 (endOffset.toNat - s.offset.toNat)) s.offset.toNat ≤
            _ :=
          prefixLength_le
        have hend := endOffset.isLt
        omega
      split
      · exact .failed h _ _
      · next calls hscan =>
        obtain ⟨L, rfl, hL⟩ := scanBlock_ok (.inl rfl) hfit hscan
        exact .block h hread L _ rfl hL
    · rw [turn_gap himg hle hread]
      exact .gap h hread
  · rw [turn_finished fun hle => h ((toNat_offset_add_four hwrap).1 hle)]
    exact .finished (Nat.lt_of_not_le h)

end

/-! ## Scans

The offset of a scan from `o` stays congruent to `o` modulo 4, and modulo 4096 as long
as nothing can be read.
-/

/-- The word lies in the first page behind the gap that the scan starts in, in front of where the
scan comes to it. -/
def Skipped (img : Image) (o a : Nat) : Prop :=
  ∃ q, o / 4096 < q ∧ (∀ p, o / 4096 ≤ p → p < q → img.readable p = false) ∧ img.readable q = true ∧
    4096 * q ≤ a ∧ a < 4096 * q + o % 4096

/-- What a scan from `o` finds. -/
structure Found (img : Image) (o endOffset a : Nat) : Prop where
  start_le : o ≤ a
  le_end : a + 4 ≤ endOffset
  aligned : a % 4 = o % 4
  readable : img.ReadableWord a
  pad : img.PadAt a
  kept : ¬ Skipped img o a

/-- The scan leaves the address space: `offset + 4` is 0 then. -/
def Wraps (img : Image) (o endOffset : Nat) : Prop :=
  endOffset = 2 ^ 64 - 4096 ∧ o % 4096 = 4092 ∧ o + 4 ≤ endOffset ∧
    ∀ p, o / 4096 ≤ p → p < 2 ^ 52 - 1 → img.readable p = false

/-- In the first gap, or behind it. -/
inductive Phase (img : Image) (o x : Nat) : Prop where
  | gap (hmod : x % 4096 = o % 4096) (hgap : ∀ p,
      o / 4096 ≤ p → p ≤ x / 4096 → img.readable p = false)
  | reading (hpage : img.readable (x / 4096) = true ∨ x % 4096 < 4) (hpast : ∀ a,
      x ≤ a → ¬ Skipped img o a)

/-- The calls for what is found below `x`. -/
structure Calls (img : Image) (o endOffset x : Nat) (L : List Value) : Prop where
  sorted : L.Pairwise (· < ·)
  mem : ∀ a, a ∈ L ↔ a.toNat < x ∧ Found img o endOffset a.toNat

structure Inv (img : Image) (o endOffset : Nat) (calls : List Value) (s : Scan) : Prop where
  below : s.offset.toNat + 4 < 2 ^ 64
  start_le : o ≤ s.offset.toNat
  aligned : s.offset.toNat % 4 = o % 4
  phase : Phase img o s.offset.toNat
  found : ∃ L, s.calls = calls ++ L ∧ Calls img o endOffset s.offset.toNat L

section

variable {img : Image} {o x x' endOffset : Nat} {L L' : List Value}

theorem Calls.append (h : Calls img o endOffset x L) (hx : x ≤ x') (hsorted : L'.Pairwise (· < ·))
    (hmem : ∀ a, a ∈ L' ↔ x ≤ a.toNat ∧ a.toNat < x' ∧ Found img o endOffset a.toNat) :
    Calls img o endOffset x' (L ++ L') := by
  refine ⟨List.pairwise_append.2 ⟨h.sorted, hsorted, fun a ha b hb => ?_⟩, fun a => ?_⟩
  · have hax := ((h.mem a).1 ha).1
    have hxb := ((hmem b).1 hb).1
    exact BitVec.lt_def.2 (Nat.lt_of_lt_of_le hax hxb)
  · rw [List.mem_append, h.mem, hmem]
    constructor
    · rintro (⟨h1, h2⟩ | ⟨-, h1, h2⟩)
      · exact ⟨by omega, h2⟩
      · exact ⟨h1, h2⟩
    · rintro ⟨h1, h2⟩
      by_cases hlow : a.toNat < x
      · exact .inl ⟨hlow, h2⟩
      · exact .inr ⟨by omega, h1, h2⟩

/-- Nothing is found in between. -/
theorem Calls.skip (h : Calls img o endOffset x L) (hx : x ≤ x')
    (hnone : ∀ a, x ≤ a → a < x' → ¬ Found img o endOffset a) : Calls img o endOffset x' L := by
  have happend := @Calls.append _ _ _ _ _ _ [] h hx List.Pairwise.nil fun a =>
    ⟨nofun, fun ⟨h1, h2, h3⟩ => absurd h3 (hnone _ h1 h2)⟩
  rwa [List.append_nil] at happend

theorem not_readable_page {a : Nat} (h : ¬ img.ReadableByte a) (ha : a < 2 ^ 64) :
    img.readable (a / 4096) = false :=
  Bool.eq_false_iff.2 fun hpage => h ⟨ha, hpage⟩

theorem phase_start (img : Image) (o : Nat) : Phase img o o := by
  by_cases hpage : img.readable (o / 4096) = true
  · refine .reading (.inl hpage) fun a _ ⟨q, hq, hgap, _⟩ => ?_
    rw [hgap _ (Nat.le_refl _) hq] at hpage
    cases hpage
  · refine .gap rfl fun p h1 h2 => ?_
    rw [Nat.le_antisymm h2 h1]
    exact Bool.eq_false_iff.2 hpage

/-- A piece of a gap: what is found behind it starts in the next page. -/
theorem next_page_of_found {a : Nat} (hgap : img.readable (x / 4096) = false) (ha : x ≤ a)
    (hlt : a < x + 4096) (hfound : Found img o endOffset a) :
    a / 4096 = x / 4096 + 1 ∧ img.readable (x / 4096 + 1) = true := by
  have hread := (hfound.readable 0 (by decide)).2
  rw [Nat.add_zero] at hread
  have hne : a / 4096 ≠ x / 4096 := fun heq => by
    rw [heq, hgap] at hread
    cases hread
  have hpage : a / 4096 = x / 4096 + 1 := by omega
  exact ⟨hpage, hpage ▸ hread⟩

/-- A turn in a gap. -/
theorem Phase.step_gap (h : Phase img o x) (ho : o ≤ x) (hgap : img.readable (x / 4096) = false)
    (halign : x % 4 = o % 4) :
    Phase img o (x + 4096) ∧ ∀ a, x ≤ a → a < x + 4096 → ¬ Found img o endOffset a := by
  have hnext : (x + 4096) / 4096 = x / 4096 + 1 := Nat.add_div_right x (by decide)
  have hmod : (x + 4096) % 4096 = x % 4096 := Nat.add_mod_right x 4096
  cases h with
  | gap hx hpages =>
    refine ⟨?_, fun a h1 h2 hfound => ?_⟩
    · by_cases hread : img.readable (x / 4096 + 1) = true
      · refine .reading (.inl (hnext ▸ hread)) fun a ha ⟨q, hq, hbefore, hq', _, hlt⟩ => ?_
        -- the first page that can be read is the next one
        have hle : q ≤ x / 4096 + 1 := Nat.le_of_not_lt fun hlt => by
          rw [hbefore _ (by omega) hlt] at hread
          cases hread
        have hge : x / 4096 < q := Nat.lt_of_not_le fun hle => by
          rw [hpages q (by omega) hle] at hq'
          cases hq'
        omega
      · refine .gap (by omega) fun p h1 h2 => ?_
        rw [hnext] at h2
        rcases Nat.lt_succ_iff_lt_or_eq.1 (Nat.lt_succ_of_le h2) with hlt | rfl
        · exact hpages p h1 (Nat.le_of_lt_succ hlt)
        · exact Bool.eq_false_iff.2 hread
    · obtain ⟨h3, h4⟩ := next_page_of_found hgap h1 h2 hfound
      exact hfound.kept
        ⟨x / 4096 + 1, by omega, fun p hp hlt => hpages p hp (Nat.le_of_lt_succ hlt),
          h4, by omega, by omega⟩
  | reading hpage hpast =>
    have hlow : x % 4096 < 4 := hpage.resolve_left (by rw [hgap]; exact Bool.false_ne_true)
    refine ⟨.reading (.inr (by omega)) fun a ha => hpast a (by omega), fun a h1 h2 hfound => ?_⟩
    have halign' := hfound.aligned
    obtain ⟨h3, -⟩ := next_page_of_found hgap h1 h2 hfound
    omega

/-- A turn in a gap stays below the end of the address space, unless the scan leaves it. -/
theorem Phase.below_gap (h : Phase img o x) (ho : o ≤ x) (hgap : img.readable (x / 4096) = false)
    (hend : endOffset ≤ 2 ^ 64 - 4096) (hx : x + 4 ≤ endOffset) (hwraps : ¬ Wraps img o endOffset) :
    x + 4096 + 4 < 2 ^ 64 := by
  by_contra hover
  have hlast : x = 2 ^ 64 - 4100 := by omega
  cases h with
  | gap hmod hpages =>
    refine hwraps ⟨by omega, by omega, by omega, fun p h1 h2 => hpages p h1 ?_⟩
    rw [hlast]
    omega
  | reading hpage hpast =>
    have hlow : x % 4096 < 4 := hpage.resolve_left (by rw [hgap]; exact Bool.false_ne_true)
    omega

/-- Where something can be read, the first gap is left behind. -/
theorem Phase.past (h : Phase img o x) (ho : o ≤ x) (hpage : img.readable (x / 4096) = true)
    {a : Nat} (ha : x ≤ a) : ¬ Skipped img o a := by
  cases h with
  | gap hmod hpages =>
    rw [hpages _ (by omega) (Nat.le_refl _)] at hpage
    cases hpage
  | reading _ hpast => exact hpast a ha

/-- The first byte behind a short block. -/
theorem not_readable_behind {size n : Nat} (hn : n = img.prefixLength size x) (h : n < size) :
    ¬ img.ReadableByte (x + n) := by
  subst hn
  exact not_readable_of_prefixLength_lt h

/-- A turn that reads a block of `n` bytes. -/
theorem Phase.step_block {n : Nat} (h : Phase img o x) (ho : o ≤ x) (hread : img.ReadableByte x)
    (hx : x + 4 ≤ endOffset) (hend : endOffset ≤ 2 ^ 64 - 4096)
    (hn : n = img.prefixLength (min 4096 (endOffset - x)) x)
    (hx' : x' = x + (n / 4 * 4 + if n < 4 then 4 else 0)) :
    x ≤ x' ∧ x' ≤ endOffset ∧ x' % 4 = x % 4 ∧ Phase img o x' := by
  have hpos : 0 < n := hn ▸ prefixLength_pos hread (by omega)
  have hle : n ≤ min 4096 (endOffset - x) := hn ▸ prefixLength_le
  have hpast : ∀ a, x ≤ a → ¬ Skipped img o a := fun _ => h.past ho hread.2
  have hbytes : ∀ i < n, img.ReadableByte (x + i) :=
    fun i hi => readable_of_lt_prefixLength (hn ▸ hi)
  by_cases hshort : n < 4
  · rw [if_pos hshort] at hx'
    have hstop := not_readable_behind hn (by omega)
    have hpage : (x + n) % 4096 = 0 := by
      by_contra hne
      have hlast := hbytes (n - 1) (by omega)
      exact hstop (readable_congr (by omega) (by omega) hlast)
    exact ⟨by omega, by omega, by omega, .reading (.inr (by omega)) fun a ha => hpast a (by omega)⟩
  · rw [if_neg hshort] at hx'
    refine ⟨by omega, by omega, by omega, .reading ?_ fun a ha => hpast a (by omega)⟩
    by_cases hlow : x' % 4096 < 4
    · exact .inr hlow
    · -- the byte in front is in the same page
      obtain ⟨k, hk⟩ : ∃ k, x' = x + k + 1 := ⟨n / 4 * 4 - 1, by omega⟩
      have hlast := hbytes k (by omega)
      exact .inl (readable_congr (b := x') (by omega) (by omega) hlast).2

/-- What is found in a block. -/
theorem mem_block {n : Nat} {P : List Value} (h : Phase img o x) (ho : o ≤ x)
    (halign : x % 4 = o % 4) (hread : img.ReadableByte x) (hx : x + 4 ≤ endOffset)
    (hn : n = img.prefixLength (min 4096 (endOffset - x)) x) (hP : PadsOf img x n P) (a : Value) :
    a ∈ P ↔ x ≤ a.toNat ∧ a.toNat < x + (n / 4 * 4 + if n < 4 then 4 else 0) ∧
      Found img o endOffset a.toNat := by
  have hle : n ≤ min 4096 (endOffset - x) := hn ▸ prefixLength_le
  rw [hP.mem]
  constructor
  · rintro ⟨h1, h2, h3, h4⟩
    refine ⟨h1, by split <;> omega, by omega, by omega, by omega, fun i hi => ?_, h4,
      h.past ho hread.2 h1⟩
    obtain ⟨k, hk⟩ : ∃ k, a.toNat + i = x + k := ⟨a.toNat + i - x, by omega⟩
    rw [hk]
    exact @readable_of_lt_prefixLength _ _ (min 4096 (endOffset - x)) _ (by omega)
  · rintro ⟨h1, h2, hfound⟩
    have halign' := hfound.aligned
    refine ⟨h1, ?_, by omega, hfound.pad⟩
    by_cases hshort : n < 4
    · rw [if_pos hshort] at h2
      have hstop := not_readable_behind hn (by omega)
      have hax : a.toNat = x := by omega
      exact absurd (hfound.readable n hshort) (hax ▸ hstop)
    · rw [if_neg hshort] at h2
      omega

theorem inv_start (img : Image) {offset : Value} (endOffset : Nat) (calls : List Value)
    (h : offset.toNat + 4 < 2 ^ 64) : Inv img offset.toNat endOffset calls ⟨offset, calls⟩ where
  below := h
  start_le := Nat.le_refl _
  aligned := rfl
  phase := phase_start img _
  found := ⟨[], (List.append_nil calls).symm, List.Pairwise.nil, fun _ =>
    ⟨nofun, fun ⟨hlt, hfound⟩ => absurd hfound.start_le (Nat.not_le.2 hlt)⟩⟩

theorem toNat_add_of_lt {offset v : Value} (h : offset.toNat + v.toNat < 2 ^ 64) :
    (offset + v).toNat = offset.toNat + v.toNat := by
  rw [BitVec.toNat_add, Nat.mod_eq_of_lt h]

variable {E : Env} {last : Value} {calls : List Value} {s t : Scan}

/-- A turn keeps what is known, and goes on in the image. -/
theorem Inv.turn (himg : img.DeliveredBy E.randomRead) (hend : last.toNat ≤ 2 ^ 64 - 4096)
    (hwraps : ¬ Wraps img o last.toNat) (h : Inv img o last.toNat calls s)
    (hturn : turn E last s = .inl t) :
    Inv img o last.toNat calls t ∧ s.offset.toNat < t.offset.toNat := by
  obtain ⟨L, hcalls, hL⟩ := h.found
  have hturns := @turns _ _ last _ himg h.below
  rw [hturn] at hturns
  generalize hr : (Sum.inl t : Scan ⊕ Ended) = r at hturns
  cases hturns with
  | finished _ => cases hr
  | failed _ _ _ => cases hr
  | gap hle hgap =>
    obtain rfl := Sum.inl.inj hr
    have hpage := not_readable_page hgap s.offset.isLt
    have hbelow := h.phase.below_gap h.start_le hpage hend hle hwraps
    obtain ⟨hphase, hnone⟩ := @Phase.step_gap _ _ _ last.toNat h.phase h.start_le hpage h.aligned
    have hx : (s.offset + 4096).toNat = s.offset.toNat + 4096 := toNat_add_of_lt (by
      change s.offset.toNat + 4096 < 2 ^ 64
      omega)
    have halign := h.aligned
    have ho := h.start_le
    refine ⟨⟨?_, ?_, ?_, ?_, L, hcalls, ?_⟩, ?_⟩ <;> dsimp only <;> rw [hx]
    · exact hbelow
    · omega
    · omega
    · exact hphase
    · exact hL.skip (by omega) hnone
    · omega
  | block hle hread P n hn hP =>
    obtain rfl := Sum.inl.inj hr
    have hadvance := toNat_advance (n := n) (by
      have : n ≤ min 4096 (last.toNat - s.offset.toNat) := hn ▸ prefixLength_le
      omega)
    obtain ⟨hx, hlast, halign, hphase⟩ := h.phase.step_block h.start_le hread hle hend hn rfl
    have hlt := last.isLt
    have hto : (s.offset + advance (BitVec.ofNat 64 n)).toNat =
        s.offset.toNat + (n / 4 * 4 + if n < 4 then 4 else 0) := by
      rw [toNat_add_of_lt (by omega), hadvance]
    have hpos : 0 < n / 4 * 4 + if n < 4 then 4 else 0 := by split <;> omega
    have hmem := mem_block h.phase h.start_le h.aligned hread hle hn hP
    have haligned := h.aligned
    have ho := h.start_le
    refine ⟨⟨?_, ?_, ?_, ?_, L ++ P, ?_, ?_⟩, ?_⟩ <;> dsimp only
    · omega
    · omega
    · omega
    · exact hto ▸ hphase
    · rw [hcalls, List.append_assoc]
    · rw [hto]
      exact hL.append hx hP.sorted hmem
    · omega

/-- A scan that does not leave the address space comes to its end, and if it succeeds, it has
started routes at what it finds. -/
theorem scan_spec (himg : img.DeliveredBy E.randomRead) (hend : last.toNat ≤ 2 ^ 64 - 4096)
    {offset : Value} (ho : offset.toNat + 4 < 2 ^ 64) (hwraps : ¬ Wraps img offset.toNat last.toNat)
    (calls : List Value) :
    (∃ n r, runFrom (fun _ => Diana.Analyze.LandingPads.turn E last) 0 n ⟨offset, calls⟩ = .inr r) ∧
      ∀ n calls', runFrom (fun _ => Diana.Analyze.LandingPads.turn E last) 0 n ⟨offset, calls⟩ =
      .inr (.ok (), calls') →
        ∃ L, calls' = calls ++ L ∧ L.Pairwise (· < ·) ∧ ∀ a,
        a ∈ L ↔ Found img offset.toNat last.toNat a.toNat := by
  have hstart := inv_start img last.toNat calls ho
  constructor
  · refine exists_runFrom_inr (P := Inv img offset.toNat last.toNat calls) Nat.lt_wfRel.wf
      (fun s => 2 ^ 64 - s.offset.toNat) (fun _ s t hs ht => (hs.turn himg hend hwraps ht).1)
      (fun _ s t hs ht => ?_) hstart
    have hlt := (hs.turn himg hend hwraps ht).2
    have hs' := s.offset.isLt
    exact Nat.sub_lt_sub_left hs' hlt
  · intro n calls' hrun
    obtain ⟨m, s, -, hs, hlast⟩ := exists_last hrun
    have hinv := runFrom_inv (fun _ s t hs ht => (hs.turn himg hend hwraps ht).1) hstart hs
    obtain ⟨L, hcalls, hL⟩ := hinv.found
    have hturns := @turns _ _ last _ himg hinv.below
    rw [hlast] at hturns
    generalize hr : (Sum.inr (.ok (), calls') : Scan ⊕ Ended) = r at hturns
    cases hturns with
    | finished hfinished =>
      have hcalls' := congrArg Prod.snd (Sum.inr.inj hr)
      refine ⟨L, hcalls'.trans hcalls, hL.sorted,
        fun a => ⟨fun ha => ((hL.mem a).1 ha).2, fun hfound => ?_⟩⟩
      have h1 := hfound.le_end
      exact (hL.mem a).2 ⟨by omega, hfound⟩
    | failed _ _ _ => cases congrArg Prod.fst (Sum.inr.inj hr)
    | gap _ _ => cases hr
    | block _ _ _ _ _ _ => cases hr

end

/-! ## The first offset -/

section

variable {img : Image} {imageBase startOffset endOffset : Value}

theorem toNat_firstOffset (imageBase : Value) (h : startOffset.toNat ≤ 2 ^ 64 - 4096) :
    (firstOffset imageBase startOffset).toNat =
      startOffset.toNat + (4 - (imageBase.toNat + startOffset.toNat) % 4) % 4 := by
  have hlow : ((imageBase + startOffset) &&& 3).toNat =
      (imageBase.toNat + startOffset.toNat) % 4 := by
    refine (toNat_and_three _ (by decide)).trans ?_
    rw [BitVec.toNat_add]
    omega
  have hrest : (4 - ((imageBase + startOffset) &&& 3)).toNat =
      4 - (imageBase.toNat + startOffset.toNat) % 4 := by
    rw [BitVec.toNat_sub_of_le (BitVec.le_def.2 ?_), hlow]
    · rfl
    · rw [hlow]
      exact Nat.le_of_lt (Nat.mod_lt _ (by decide))
  have hand : ((4 - ((imageBase + startOffset) &&& 3)) &&& 3).toNat =
      (4 - (imageBase.toNat + startOffset.toNat) % 4) % 4 := by
    refine (toNat_and_three _ (by decide)).trans ?_
    rw [hrest]
  rw [firstOffset, toNat_add_of_lt (by rw [hand]; omega), hand]

/-- What is wanted is what a scan from the first offset finds, and what it skips. -/
theorem wanted_iff (hle : startOffset ≤ endOffset)
    (hend : endOffset.toNat ≤ 2 ^ 64 - 4096) (a : Nat) :
    Wanted img imageBase startOffset endOffset a ↔
      (firstOffset imageBase startOffset).toNat ≤ a ∧ a + 4 ≤ endOffset.toNat ∧
        a % 4 = (firstOffset imageBase startOffset).toNat % 4 ∧ img.ReadableWord a ∧
        img.PadAt a := by
  have hle' := BitVec.le_def.1 hle
  have hfirst := @toNat_firstOffset startOffset imageBase (by omega)
  constructor
  · rintro ⟨h1, h2, h3, h4, h5⟩
    exact ⟨by omega, h2, by omega, h4, h5⟩
  · rintro ⟨h1, h2, h3, h4, h5⟩
    exact ⟨by omega, h2, by omega, h4, h5⟩

/-- It is found unless it is skipped. -/
theorem found_iff (hle : startOffset ≤ endOffset)
    (hend : endOffset.toNat ≤ 2 ^ 64 - 4096) (a : Nat) :
    Found img (firstOffset imageBase startOffset).toNat endOffset.toNat a ↔
      Wanted img imageBase startOffset endOffset a ∧ ¬ Skipped img
      (firstOffset imageBase startOffset).toNat a := by
  rw [wanted_iff hle hend]
  constructor
  · rintro ⟨h1, h2, h3, h4, h5, h6⟩
    exact ⟨⟨h1, h2, h3, h4, h5⟩, h6⟩
  · rintro ⟨⟨h1, h2, h3, h4, h5⟩, h6⟩
    exact ⟨h1, h2, h3, h4, h5, h6⟩

end

/-! ## Calls that succeed -/

section

variable {img : Image} {E : Env} {last : Value}

/-- `Diana_AnalyzeCodeEx2` succeeds everywhere. -/
def succeeding (randomRead : Value → Nat → Except Status (List Byte)) :
    Env := ⟨randomRead, fun _ _ => .ok ()⟩

theorem scanBlock_succeeding (randomRead : Value → Nat → Except Status (List Byte)) (offset : Value)
    (bs : List Byte) (calls : List Value) :
    (scanBlock (succeeding randomRead) offset bs calls).1 = .ok () := by
  induction offset, bs, calls using scanBlock.induct (succeeding randomRead) with
  | case1 offset calls b0 b1 b2 b3 rest hpad e he => cases he
  | case2 offset calls b0 b1 b2 b3 rest hpad he ih =>
    rw [scanBlock, if_pos hpad]
    exact ih
  | case3 offset calls b0 b1 b2 b3 rest hpad ih =>
    rw [scanBlock, if_neg hpad]
    exact ih
  | case4 offset bs calls hne =>
    rw [scanBlock]
    exact hne

/-- And so does every run. -/
theorem ok_of_ended {randomRead : Value → Nat → Except Status (List Byte)} {n : Nat}
    {s : Scan} {r : Ended}
    (h : runFrom (fun _ => turn (succeeding randomRead) last) 0 n s = .inr r) : r.1 = .ok () := by
  obtain ⟨m, t, -, -, hlast⟩ := exists_last h
  unfold turn at hlast
  split at hlast
  · cases hlast
    rfl
  · dsimp only at hlast
    split at hlast
    · cases hlast
    · cases hlast
    · next bs _ _ =>
      have hok := scanBlock_succeeding randomRead t.offset bs t.calls
      split at hlast
      · next hscan =>
        rw [hscan] at hok
        cases hok
      · cases hlast

/-! ## A scan that leaves the address space -/

/-- The end of the last piece. -/
def lastOffset : Value := 0xFFFFFFFFFFFFFFFC

/-- The end of the image that the scan passes by. -/
def wrappingEnd : Value := 0xFFFFFFFFFFFFF000

/-- Whatever is scanned behind the end is harmless: the last page has no landing pad and
nothing is found from 0 on, or it cannot be read and nothing is found from 4092 on, in an
image where something can be. -/
def Recovers (img : Image) : Prop :=
  if img.readable (2 ^ 52 - 1) then
    ¬ img.PadAt lastOffset.toNat ∧ ∀ a, ¬ Found img 0 wrappingEnd.toNat a
  else ¬ Wraps img 4092 wrappingEnd.toNat ∧ ∀ a, ¬ Found img 4092 wrappingEnd.toNat a

theorem wraps_end {o : Nat} (h : Wraps img o last.toNat) :
    last = wrappingEnd := BitVec.eq_of_toNat_eq h.1

/-- A gap of a scan that is 4 bytes in front of the end of its pages. -/
theorem turn_gap_piece (himg : img.DeliveredBy E.randomRead) {offset : Value} (calls : List Value)
    (hmod : offset.toNat % 4096 = 4092) (hgap : img.readable (offset.toNat / 4096) = false) :
    turn E wrappingEnd ⟨offset, calls⟩ = .inl ⟨offset + 4096, calls⟩ := by
  have hend : wrappingEnd.toNat = 2 ^ 64 - 4096 := rfl
  have hlt := offset.isLt
  refine turn_gap himg (BitVec.le_def.2 ?_) fun hread => ?_
  · rw [BitVec.toNat_add, hend]
    change (offset.toNat + 4) % 2 ^ 64 ≤ _
    omega
  · rw [hread.2] at hgap
    cases hgap

/-- From the first offset, the scan gets to the last one. -/
theorem exits_iff_of_wraps (himg : img.DeliveredBy E.randomRead) {offset : Value}
    (calls : List Value) (h : Wraps img offset.toNat wrappingEnd.toNat) (r : Ended) :
    (∃ n, runFrom (fun _ => turn E wrappingEnd) 0 n ⟨offset, calls⟩ = .inr r) ↔
      ∃ n, runFrom (fun _ => turn E wrappingEnd) 0 n ⟨lastOffset, calls⟩ = .inr r := by
  obtain ⟨-, hmod, hlow, hpages⟩ := h
  have hend : wrappingEnd.toNat = 2 ^ 64 - 4096 := rfl
  rw [hend] at hlow
  obtain ⟨k, hk⟩ : ∃ k, offset.toNat + 4096 * k = 2 ^ 64 - 4100 :=
    ⟨(2 ^ 64 - 4100 - offset.toNat) / 4096, by omega⟩
  induction k generalizing offset with
  | zero =>
    rw [exits_iff_of_turn (turn_gap_piece himg calls hmod (hpages _ (Nat.le_refl _) (by omega)))]
    have hlast : offset + 4096 = lastOffset := BitVec.eq_of_toNat_eq (by
      rw [BitVec.toNat_add]
      change (offset.toNat + 4096) % 2 ^ 64 = 2 ^ 64 - 4
      omega)
    rw [hlast]
  | succ k ih =>
    have hnext : (offset + 4096).toNat = offset.toNat + 4096 := by
      rw [BitVec.toNat_add]
      change (offset.toNat + 4096) % 2 ^ 64 = _
      omega
    rw [exits_iff_of_turn (turn_gap_piece himg calls hmod (hpages _ (Nat.le_refl _) (by omega)))]
    have hmod' : (offset + 4096).toNat % 4096 = 4092 := by omega
    have hlow' : (offset + 4096).toNat + 4 ≤ 2 ^ 64 - 4096 := by omega
    have hpages' : ∀ p, (offset + 4096).toNat / 4096 ≤ p → p < 2 ^ 52 - 1 →
        img.readable p = false :=
      fun p hp => hpages p (by omega)
    have hk' : (offset + 4096).toNat + 4096 * k = 2 ^ 64 - 4100 := by
      rw [hnext, Nat.add_assoc, Nat.add_comm 4096, ← Nat.mul_succ]
      exact hk
    exact ih hmod' hlow' hpages' hk'

/-- Where nothing can be read at all, such a scan never ends. -/
theorem not_exits_of_gap (himg : img.DeliveredBy E.randomRead) {offset : Value} (calls : List Value)
    (hmod : offset.toNat % 4096 = 4092) (hgap : ∀ p < 2 ^ 52, img.readable p = false) (r : Ended) :
    ¬ ∃ n, runFrom (fun _ => turn E wrappingEnd) 0 n ⟨offset, calls⟩ = .inr r := by
  rintro ⟨n, hn⟩
  have hturn : ∀ s : Scan, s.offset.toNat % 4096 = 4092 →
      turn E wrappingEnd s = .inl ⟨s.offset + 4096, s.calls⟩ := fun s hs =>
    turn_gap_piece himg s.calls hs (hgap _ (by have := s.offset.isLt; omega))
  obtain ⟨m, s, -, hs, hlast⟩ := exists_last hn
  have hinv := runFrom_inv (P := fun s : Scan => s.offset.toNat % 4096 = 4092)
      (fun _ s t hs ht => ?_) hmod hs
  · rw [hturn s hinv] at hlast
    cases hlast
  · rw [hturn s hs] at ht
    obtain rfl := Sum.inl.inj ht
    rw [BitVec.toNat_add]
    change (s.offset.toNat + 4096) % 2 ^ 64 % 4096 = 4092
    omega

/-- The last page cannot be read. -/
theorem turn_last_gap (himg : img.DeliveredBy E.randomRead) (calls : List Value)
    (hpage : img.readable (2 ^ 52 - 1) = false) :
    turn E wrappingEnd ⟨lastOffset, calls⟩ = .inl ⟨4092, calls⟩ :=
  turn_gap_piece himg calls rfl hpage

/-- The last page is read to its end. -/
theorem turn_last_block (himg : img.DeliveredBy E.randomRead) (calls : List Value)
    (hpage : img.readable (2 ^ 52 - 1) = true) :
    turn E wrappingEnd ⟨lastOffset, calls⟩ =
      if img.PadAt lastOffset.toNat then
        match E.analyzeCodeEx2 calls lastOffset with
        | .error e => .inr (.error e, calls ++ [lastOffset])
        | .ok () => .inl ⟨0, calls ++ [lastOffset]⟩
      else .inl ⟨0, calls⟩ := by
  have hread : img.ReadableByte lastOffset.toNat := ⟨by decide, hpage⟩
  have hlast : lastOffset.toNat = 2 ^ 64 - 4 := rfl
  have hfour : img.prefixLength 4096 lastOffset.toNat = 4 := by
    have hstop := @not_readable_of_prefixLength_lt img lastOffset.toNat 4096
    have hbytes := @readable_of_lt_prefixLength img lastOffset.toNat 4096 4
    refine Nat.le_antisymm (Nat.le_of_not_lt fun hlong => ?_) (Nat.le_of_not_lt fun hshort => ?_)
    · have := (hbytes hlong).1
      omega
    · exact hstop (by omega) (readable_congr (by omega) (by omega) hread)
  have hle : lastOffset + 4 ≤ wrappingEnd := by decide
  have hsize : (if wrappingEnd - lastOffset < 4096 then (wrappingEnd - lastOffset).toNat
      else bufferSize) = 4096 := by
    decide
  rw [turn_block himg hle hread (by decide) hsize]
  dsimp only
  rw [hfour, show 4 = 0 + 4 from rfl, window_add_four, scanBlock]
  have hword : leNat [img.content lastOffset.toNat, img.content (lastOffset.toNat + 1),
      img.content (lastOffset.toNat + 2), img.content (lastOffset.toNat + 3)] =
      leNat (window img.content lastOffset.toNat 4) := rfl
  have hzero : lastOffset + advance (BitVec.ofNat 64 (0 + 4)) = 0 := by decide
  rw [hword, hzero]
  by_cases hpad : img.PadAt lastOffset.toNat
  · have hpad' : isPad (leNat (window img.content lastOffset.toNat 4)) = true := hpad
    rw [if_pos hpad, if_pos hpad']
    cases E.analyzeCodeEx2 calls lastOffset <;> rfl
  · have hpad' : ¬ isPad (leNat (window img.content lastOffset.toNat 4)) = true := hpad
    rw [if_neg hpad, if_neg hpad']
    rfl

end

/-! ## All images -/

section

variable {img : Image} {E : Env} {imageBase startOffset endOffset : Value}
  {randomRead : Value → Nat → Except Status (List Byte)}

theorem firstOffset_below (hle : startOffset ≤ endOffset) (hend : endOffset.toNat ≤ 2 ^ 64 - 4096) :
    (firstOffset imageBase startOffset).toNat + 4 < 2 ^ 64 := by
  have hle' := BitVec.le_def.1 hle
  have hfirst := @toNat_firstOffset startOffset imageBase (by omega)
  omega

/-- A scan that stays in the address space misses what it skips. -/
theorem exact_of_not_skipped (himg : img.DeliveredBy E.randomRead) (hle : startOffset ≤ endOffset)
    (hend : endOffset.toNat ≤ 2 ^ 64 - 4096)
    (hwraps : ¬ Wraps img (firstOffset imageBase startOffset).toNat endOffset.toNat)
    (hkept : ∀ a, Wanted img imageBase startOffset endOffset a →
      ¬ Skipped img (firstOffset imageBase startOffset).toNat a) :
    Exact img imageBase startOffset endOffset E := by
  obtain ⟨⟨n, r, hrun⟩, hcalls⟩ :=
    scan_spec himg hend (@firstOffset_below imageBase _ _ hle hend) hwraps []
  refine ⟨⟨r, n, hrun⟩, fun calls ⟨m, hm⟩ => ?_⟩
  obtain ⟨L, rfl, hsorted, hmem⟩ := hcalls m calls hm
  refine ⟨hsorted, fun a => ?_⟩
  rw [hmem, found_iff hle hend]
  exact ⟨fun h => h.1, fun h => ⟨h, hkept _ h⟩⟩

/-- And only then is it exact where all calls succeed. -/
theorem not_skipped_of_exact (himg : img.DeliveredBy randomRead) (hle : startOffset ≤ endOffset)
    (hend : endOffset.toNat ≤ 2 ^ 64 - 4096)
    (hwraps : ¬ Wraps img (firstOffset imageBase startOffset).toNat endOffset.toNat)
    (h : Exact img imageBase startOffset endOffset (succeeding randomRead)) {a : Nat}
    (ha : Wanted img imageBase startOffset endOffset a) :
    ¬ Skipped img (firstOffset imageBase startOffset).toNat a := by
  obtain ⟨⟨⟨status, calls⟩, n, hrun⟩, hexact⟩ := h
  obtain rfl : status = .ok () := ok_of_ended hrun
  obtain ⟨L, rfl, -, hmem⟩ := (scan_spec (E := succeeding randomRead) himg hend
    (@firstOffset_below imageBase _ _ hle hend) hwraps []).2 n calls hrun
  have hto : (BitVec.ofNat 64 a).toNat = a := by
    have hlt := ha.le_end
    rw [BitVec.toNat_ofNat]
    omega
  have hin := ((hexact _ ⟨n, hrun⟩).2 (BitVec.ofNat 64 a)).2 (hto.symm ▸ ha)
  rw [hmem, hto] at hin
  exact hin.kept

/-- Nothing is wanted where the scan leaves the address space. -/
theorem not_wanted_of_wraps (hle : startOffset ≤ endOffset) (hend : endOffset.toNat ≤ 2 ^ 64 - 4096)
    (h : Wraps img (firstOffset imageBase startOffset).toNat endOffset.toNat) (a : Nat) :
    ¬ Wanted img imageBase startOffset endOffset a := by
  intro ha
  obtain ⟨h1, h2, -, hread, -⟩ := (wanted_iff hle hend a).1 ha
  obtain ⟨-, -, -, hpages⟩ := h
  have hpage := (hread 0 (by decide)).2
  rw [Nat.add_zero, hpages (a / 4096) (by omega) (by omega)] at hpage
  cases hpage

/-- So that it is exact where no route is started. -/
theorem exact_iff_of_wraps (himg : img.DeliveredBy E.randomRead) (hle : startOffset ≤ endOffset)
    (hend : endOffset.toNat ≤ 2 ^ 64 - 4096)
    (h : Wraps img (firstOffset imageBase startOffset).toNat endOffset.toNat) :
    Exact img imageBase startOffset endOffset E ↔
      (∃ r n, runFrom (fun _ => turn E wrappingEnd) 0 n ⟨lastOffset, []⟩ = .inr r) ∧
        ∀ calls, (∃ n, runFrom (fun _ => turn E wrappingEnd) 0 n ⟨lastOffset, []⟩ =
          .inr (.ok (), calls)) → calls = [] := by
  have hnone := not_wanted_of_wraps hle hend h
  obtain rfl := wraps_end h
  have hexits := exits_iff_of_wraps (E := E) himg [] h
  have hends : ∀ r, Ends E (some ⟨.aarch64, imageBase⟩) startOffset wrappingEnd r ↔
      ∃ n, runFrom (fun _ => turn E wrappingEnd) 0 n ⟨lastOffset, []⟩ = .inr r := hexits
  unfold Exact
  simp only [hends, hnone, iff_false]
  refine and_congr Iff.rfl (forall_congr' fun calls => imp_congr Iff.rfl ⟨fun hcalls => ?_, ?_⟩)
  · exact List.eq_nil_iff_forall_not_mem.2 hcalls.2
  · rintro rfl
    exact ⟨List.Pairwise.nil, fun _ => List.not_mem_nil⟩

/-- From an offset behind the address space, no route is started in an image without landing
pads. -/
theorem quiet (himg : img.DeliveredBy E.randomRead) {offset : Value}
    (hlow : offset.toNat + 4 < 2 ^ 64) (hwraps : ¬ Wraps img offset.toNat wrappingEnd.toNat)
    (hnone : ∀ a, ¬ Found img offset.toNat wrappingEnd.toNat a) :
    (∃ r n, runFrom (fun _ => turn E wrappingEnd) 0 n ⟨offset, []⟩ = .inr r) ∧
      ∀ calls, (∃ n, runFrom (fun _ => turn E wrappingEnd) 0 n ⟨offset, []⟩ =
        .inr (.ok (), calls)) → calls = [] := by
  obtain ⟨⟨n, r, hrun⟩, hcalls⟩ := scan_spec himg (le_refl wrappingEnd.toNat) hlow hwraps []
  refine ⟨⟨r, n, hrun⟩, fun calls ⟨m, hm⟩ => ?_⟩
  obtain ⟨L, rfl, -, hmem⟩ := hcalls m calls hm
  exact List.eq_nil_iff_forall_not_mem.2 fun a ha => hnone _ ((hmem a).1 ha)

/-- And only in such an image, where all calls succeed. -/
theorem not_found_of_quiet (himg : img.DeliveredBy randomRead) {offset : Value}
    (hlow : offset.toNat + 4 < 2 ^ 64) (hwraps : ¬ Wraps img offset.toNat wrappingEnd.toNat)
    (h : ∀ calls,
      (∃ n, runFrom (fun _ => turn (succeeding randomRead) wrappingEnd) 0 n ⟨offset, []⟩ =
      .inr (.ok (), calls)) → calls = []) (a : Nat) :
      ¬ Found img offset.toNat wrappingEnd.toNat a := by
  intro ha
  obtain ⟨⟨n, ⟨status, calls⟩, hrun⟩, hcalls⟩ :=
    scan_spec (E := succeeding randomRead) himg (le_refl wrappingEnd.toNat) hlow hwraps []
  obtain rfl : status = .ok () := ok_of_ended hrun
  obtain ⟨L, hL, -, hmem⟩ := hcalls n calls hrun
  have hto : (BitVec.ofNat 64 a).toNat = a := by
    have hlt := ha.le_end
    have hlast := wrappingEnd.isLt
    rw [BitVec.toNat_ofNat]
    omega
  have hin := (hmem (BitVec.ofNat 64 a)).2 (hto.symm ▸ ha)
  rw [h calls ⟨n, hrun⟩, List.nil_append] at hL
  rw [← hL] at hin
  cases hin

theorem not_wraps_zero (img : Image) : ¬ Wraps img (0 : Value).toNat wrappingEnd.toNat :=
  fun h => by
  have := h.2.1
  revert this
  decide

/-- A scan that leaves the address space. -/
theorem exact_always_iff_of_wraps (himg : img.DeliveredBy randomRead)
    (hle : startOffset ≤ endOffset) (hend : endOffset.toNat ≤ 2 ^ 64 - 4096)
    (h : Wraps img (firstOffset imageBase startOffset).toNat endOffset.toNat) :
    (∀ analyze, Exact img imageBase startOffset endOffset ⟨randomRead, analyze⟩) ↔
    Recovers img := by
  have hzero := not_wraps_zero img
  unfold Recovers
  cases hpage : img.readable (2 ^ 52 - 1) with
  | true =>
    rw [if_pos rfl]
    constructor
    · intro hexact
      obtain ⟨⟨r, hr⟩, hcalls⟩ :=
        (exact_iff_of_wraps himg hle hend h).1 (hexact (succeeding randomRead).analyzeCodeEx2)
      have hturn := turn_last_block (E := succeeding randomRead) himg [] hpage
      by_cases hpad : img.PadAt lastOffset.toNat
      · -- the pad behind the end is called
        rw [if_pos hpad] at hturn
        have hrest := scan_spec (E := succeeding randomRead) himg (le_refl wrappingEnd.toNat)
          (show (0 : Value).toNat + 4 < 2 ^ 64 by decide) hzero [lastOffset]
        obtain ⟨⟨n, ⟨status, calls⟩, hrun⟩, hspec⟩ := hrest
        obtain rfl : status = .ok () := ok_of_ended hrun
        obtain ⟨L, rfl, -⟩ := hspec n calls hrun
        have hnil := hcalls _ ((exits_iff_of_turn hturn _).2 ⟨n, hrun⟩)
        cases hnil
      · rw [if_neg hpad] at hturn
        refine ⟨hpad, not_found_of_quiet himg (by decide) hzero fun calls hrun => ?_⟩
        exact hcalls calls ((exits_iff_of_turn hturn _).2 hrun)
    · rintro ⟨hpad, hnone⟩ analyze
      have hturn := turn_last_block (E := ⟨randomRead, analyze⟩) himg [] hpage
      rw [if_neg hpad] at hturn
      refine (exact_iff_of_wraps himg hle hend h).2 ?_
      simp only [exits_iff_of_turn hturn]
      exact quiet himg (by decide) hzero hnone
  | false =>
    rw [if_neg Bool.false_ne_true]
    have hturn : ∀ analyze, turn ⟨randomRead, analyze⟩ wrappingEnd ⟨lastOffset, []⟩ =
        .inl ⟨4092, []⟩ :=
      fun analyze => turn_last_gap himg [] hpage
    constructor
    · intro hexact
      obtain ⟨⟨r, hr⟩, hcalls⟩ :=
        (exact_iff_of_wraps himg hle hend h).1 (hexact (succeeding randomRead).analyzeCodeEx2)
      have hwraps : ¬ Wraps img 4092 wrappingEnd.toNat := by
        intro hall
        refine @not_exits_of_gap _ (succeeding randomRead) himg 4092 [] rfl (fun p hp => ?_) r
          ((exits_iff_of_turn (hturn _) r).1 hr)
        rcases Nat.lt_or_ge p (2 ^ 52 - 1) with hlt | hge
        · exact hall.2.2.2 p (Nat.zero_le _) hlt
        · rw [show p = 2 ^ 52 - 1 by omega]
          exact hpage
      refine ⟨hwraps, @not_found_of_quiet _ _ himg 4092 (by decide) hwraps fun calls hrun => ?_⟩
      exact hcalls calls ((exits_iff_of_turn (hturn _) _).2 hrun)
    · rintro ⟨hwraps, hnone⟩ analyze
      refine (exact_iff_of_wraps himg hle hend h).2 ?_
      simp only [exits_iff_of_turn (hturn analyze)]
      exact @quiet _ _ himg 4092 (by decide) hwraps hnone

/-- It is exact, whatever the calls return, unless a word that is wanted is skipped behind a gap or
the scan leaves the address space and does not recover. -/
theorem landingPads_iff (img : Image) (randomRead : Value → Nat → Except Status (List Byte))
    (himg : img.DeliveredBy randomRead) (imageBase startOffset endOffset : Value)
    (hle : startOffset ≤ endOffset) (hend : endOffset.toNat ≤ 2 ^ 64 - 4096) :
    (∀ analyze, Exact img imageBase startOffset endOffset ⟨randomRead, analyze⟩) ↔
      let o := (firstOffset imageBase startOffset).toNat
      (¬ Wraps img o endOffset.toNat ∧
          ∀ a, Wanted img imageBase startOffset endOffset a → ¬ Skipped img o a) ∨
        (Wraps img o endOffset.toNat ∧ Recovers img) := by
  dsimp only
  by_cases h : Wraps img (firstOffset imageBase startOffset).toNat endOffset.toNat
  · rw [exact_always_iff_of_wraps himg hle hend h]
    exact ⟨fun hr => .inr ⟨h, hr⟩, fun hr => (hr.resolve_left fun hn => hn.1 h).2⟩
  · constructor
    · intro hexact
      exact .inl ⟨h, fun a ha => not_skipped_of_exact himg hle hend h
        (hexact (succeeding randomRead).analyzeCodeEx2) ha⟩
    · rintro (⟨-, hkept⟩ | ⟨hwraps, -⟩) analyze
      · exact exact_of_not_skipped himg hle hend h hkept
      · exact absurd hwraps h

/-- The stream that fails where nothing can be read. -/
def Image.stream (img : Image) (offset : Value) (size : Nat) : Except Status (List Byte) :=
  if img.ReadableByte offset.toNat then
    .ok (window img.content offset.toNat (img.prefixLength size offset.toNat))
  else .error .endOfStream

theorem deliveredBy_stream (img : Image) : img.DeliveredBy img.stream := fun offset size =>
  ⟨fun h => if_pos h, fun h bs hbs => by
    rw [Image.stream, if_neg h] at hbs
    cases hbs⟩

/-- An image whose first page cannot be read, with a `bti c` at the start of the second one. -/
def gapImage : Image where
  readable p := p == 1
  content a := [0x5F, 0x24, 0x03, 0xD5].getD (a - 0x1000) 0

/-- From 0 on, it is found. -/
theorem landingPads_iff_gapImage : Exact gapImage 0 0 0x2000 (succeeding gapImage.stream) := by
  refine (landingPads_iff gapImage gapImage.stream (deliveredBy_stream gapImage) 0 0 0x2000
    (by decide) (by decide)).2
    (.inl ⟨fun h => absurd h.1 (by decide), fun a _ ⟨q, _, _, _, h1, h2⟩ => ?_⟩) _
  have hzero : (firstOffset 0 0).toNat % 4096 = 0 := by decide
  omega

theorem wanted_gapImage : Wanted gapImage 0 0x10 0x2000 0x1000 where
  start_le := by decide
  le_end := by decide
  aligned := by decide
  readable := by
    intro i hi
    interval_cases i <;> decide
  pad := by decide

/-- From 0x10 on, it is not. -/
theorem not_exact_gapImage :
    gapImage.DeliveredBy gapImage.stream ∧ ¬ ∀ analyze,
    Exact gapImage 0 0x10 0x2000 ⟨gapImage.stream, analyze⟩ := by
  refine ⟨deliveredBy_stream gapImage, fun h => ?_⟩
  refine not_skipped_of_exact (deliveredBy_stream gapImage) (by decide) (by decide)
    (fun h => absurd h.1 (by decide))
    (h (succeeding gapImage.stream).analyzeCodeEx2) wanted_gapImage ⟨1, by decide, fun p _ hp => ?_,
      rfl, by decide, by decide⟩
  rw [Nat.lt_one_iff.1 hp]
  rfl

end

end Diana.Analyze.LandingPads
