import Diana.Status
import Diana.Lib.Check
import Diana.Lib.Patches

/-!
# Streams over memory

`DianaMemoryStream`: a buffer with a position, read from there or anywhere, and written anywhere.
How much there is to give is cut to an `int`, and what `memcpy` gets is a `size_t` again.

* `MemoryStream.step`: one access; `Outcome.outOfBounds` where `memcpy` leaves the buffer;
* `fine_iff`: when an access does what it should;
* `throughout_fine_iff`: when all accesses of a run do.
-/

namespace Diana.Streams

open Diana.Lib

abbrev Byte := BitVec 8

/-- `OPERAND_SIZE`, `DIANA_SIZE_T` -/
abbrev Value := BitVec 64

/-- The size of a request: an `int` that is not negative. -/
abbrev Request := Fin (2 ^ 31)

/-- `DianaMemoryStream` -/
structure MemoryStream where
  content : Nat → Byte
  bufferSize : Value
  curSize : Value
  addressDifference : Value
  translateAbsoluteAddress : Option (Value → Except Status Value)

/-- What becomes of an access. -/
inductive Outcome (α : Type) where
  | ok (a : α)
  | failed (e : Status)
  /-- `memcpy` leaves the buffer. -/
  | outOfBounds
  deriving DecidableEq, Repr

namespace MemoryStream

variable (s : MemoryStream)

/-- `Translate` -/
def translate (offset : Value) : Except Status Value :=
  if offset < s.addressDifference then .error .endOfStream else .ok (offset - s.addressDifference)

/-- The bytes that `memcpy` touches are in the buffer. -/
def InBuffer (offset size : Value) :
    Prop := size = 0 ∨ offset.toNat + size.toNat ≤ s.bufferSize.toNat

instance (offset size : Value) :
    Decidable (s.InBuffer offset size) := inferInstanceAs (Decidable (_ ∨ _))

/-- `memcpy` from the buffer. -/
def copyOut (offset size : Value) : Outcome (List Byte) :=
  if s.InBuffer offset size then .ok (window s.content offset.toNat size.toNat) else .outOfBounds

/-- `(int)(bufferSize - offset)` -/
def left (offset : Value) : BitVec 32 := (s.bufferSize - offset).setWidth 32

/-- `sizeToGive` as an `int`. -/
def sizeToGive (offset : Value) (iBufferSize : Request) : BitVec 32 :=
  if (BitVec.ofNat 32 iBufferSize).slt (s.left offset) then BitVec.ofNat 32 iBufferSize
    else s.left offset

/-- `sizeToGive` as an `OPERAND_SIZE`. -/
def wideSizeToGive (offset : Value) (iBufferSize : Request) : Value :=
  if BitVec.ofNat 64 iBufferSize < (s.left offset).signExtend 64 then BitVec.ofNat 64 iBufferSize
  else (s.left offset).signExtend 64

/-- `MemoryStream_Read` -/
def read (iBufferSize : Request) : Outcome (List Byte) × MemoryStream :=
  let size := (s.sizeToGive s.curSize iBufferSize).signExtend 64
  (s.copyOut s.curSize size, { s with curSize := s.curSize + size })

/-- `DianaMemoryStream_RandomReadMoveTo` -/
def moveTo (offset : Value) : Except Status MemoryStream := do
  let offset ← s.translate offset
  return { s with curSize := offset }

/-- `DianaMovableReadStreamOverMemory_MoveTo` -/
def movableMoveTo (offset : Value) : Except Status MemoryStream :=
  if s.bufferSize ≤ offset then .error .endOfStream else .ok { s with curSize := offset }

/-- What `DIANA_ANALYZE_RANDOM_READ_ABSOLUTE` asks for. -/
def translateAbsolute (offset : Value) (absolute : Bool) : Except Status Value :=
  if absolute then
    match s.translateAbsoluteAddress with
    | some translate => translate offset
    | none => .error .endOfStream
  else .ok offset

/-- Where an offset is in the buffer; `absolute` is `DIANA_ANALYZE_RANDOM_READ_ABSOLUTE`. -/
def locate (offset : Value) (absolute : Bool) : Except Status Value := do
  let offset ← s.translate offset
  let offset ← s.translateAbsolute offset absolute
  if s.bufferSize ≤ offset then .error .endOfStream else .ok offset

/-- `DianaMemoryStream_RandomRead_V` -/
def randomReadV (offset : Value) (iBufferSize : Request) (absolute : Bool) : Outcome (List Byte) :=
  match s.locate offset absolute with
  | .error e => .failed e
  | .ok offset => s.copyOut offset (s.wideSizeToGive offset iBufferSize)

/-- `DianaMemoryStream_RandomRead` -/
def randomRead (offset : Value) (iBufferSize : Request) : Outcome (List Byte) :=
  match s.locate offset false with
  | .error e => .failed e
  | .ok offset => s.copyOut offset ((s.sizeToGive offset iBufferSize).signExtend 64)

/-- `DianaMovableReadStreamOverMemory_RandomRead` -/
def movableRandomRead (offset : Value) (iBufferSize : Request) (absolute : Bool) :
    Outcome (List Byte) :=
  if absolute then .failed .endOfStream else s.randomRead offset iBufferSize

/-- `DianaMemoryStream_RandomWrite_V` of the first `iBufferSize` bytes of `data`. -/
def randomWriteV (offset : Value) (data : Nat → Byte) (iBufferSize : Request) (absolute : Bool) :
    Outcome Value × MemoryStream :=
  match s.locate offset absolute with
  | .error e => (.failed e, s)
  | .ok offset =>
    let size := s.wideSizeToGive offset iBufferSize
    if s.InBuffer offset size then
      (.ok size, { s with content := overlay s.content offset.toNat (window data 0 size.toNat) })
    else (.outOfBounds, s)

end MemoryStream

/-! ## Accesses -/

/-- The accesses of `DianaMemoryStream` and of `DianaMovableReadStreamOverMemory`. -/
inductive Access where
  | moveTo (offset : Value)
  | movableMoveTo (offset : Value)
  | read (iBufferSize : Request)
  | randomReadV (offset : Value) (iBufferSize : Request) (absolute : Bool)
  | movableRandomRead (offset : Value) (iBufferSize : Request) (absolute : Bool)
  | randomWriteV (offset : Value) (data : Nat → Byte) (iBufferSize : Request) (absolute : Bool)

/-- The stream after a move. -/
def MemoryStream.after (s : MemoryStream) : Except Status MemoryStream → MemoryStream
  | .ok t => t
  | .error _ => s

namespace Access

/-- The stream after an access. -/
def next (s : MemoryStream) : Access → MemoryStream
  | moveTo offset => s.after (s.moveTo offset)
  | movableMoveTo offset => s.after (s.movableMoveTo offset)
  | read iBufferSize => (s.read iBufferSize).2
  | randomReadV _ _ _ => s
  | movableRandomRead _ _ _ => s
  | randomWriteV offset data iBufferSize absolute =>
    (s.randomWriteV offset data iBufferSize absolute).2

/-- At most the number of bytes asked for, out of the buffer, as they stand at a position. -/
def ReadsAt (s : MemoryStream) (position : Value) (iBufferSize : Request) :
    Outcome (List Byte) → Prop
  | .ok bs =>
    bs.length ≤ iBufferSize ∧ (bs = [] ∨ position.toNat + bs.length ≤ s.bufferSize.toNat) ∧
      bs = window s.content position.toNat bs.length
  | .failed _ => True
  | .outOfBounds => False

/-- At most the number of bytes given, at a position in the buffer, and no other byte is changed. -/
def WritesAt (s t : MemoryStream) (position : Value) (data : Nat → Byte) (iBufferSize : Request) :
    Outcome Value → Prop
  | .ok wrote =>
    wrote.toNat ≤ iBufferSize ∧ (wrote = 0 ∨ position.toNat + wrote.toNat ≤ s.bufferSize.toNat) ∧
      (∀ i, i < position.toNat ∨ position.toNat + wrote.toNat ≤ i → t.content i = s.content i) ∧
      ∀ i < wrote.toNat, t.content (position.toNat + i) = data i
  | .failed _ => t.content = s.content
  | .outOfBounds => False

/-- A located access of the right kind, or a refused one. -/
def Located {α : Type} (fine : Value → Outcome α → Prop) (out : Outcome α) :
    Except Status Value → Prop
  | .ok position => fine position out
  | .error _ => ∃ e, out = .failed e

/-- What an access of a stream is to do. -/
def Fine (s : MemoryStream) : Access → Prop
  | moveTo _ | movableMoveTo _ => True
  | read iBufferSize => ReadsAt s s.curSize iBufferSize (s.read iBufferSize).1
  | randomReadV offset iBufferSize absolute =>
    Located (ReadsAt s · iBufferSize) (s.randomReadV offset iBufferSize absolute)
      (s.locate offset absolute)
  | movableRandomRead offset iBufferSize absolute =>
    Located (ReadsAt s · iBufferSize) (s.movableRandomRead offset iBufferSize absolute)
      (if absolute then .error .endOfStream else s.locate offset false)
  | randomWriteV offset data iBufferSize absolute =>
    let (out, t) := s.randomWriteV offset data iBufferSize absolute
    Located (WritesAt s t · data iBufferSize) out (s.locate offset absolute)

/-- What is left from a position on does not turn negative as an `int`. -/
def FitsInt (s : MemoryStream) (position : Value) :
    Prop := (s.bufferSize - position).toNat % 2 ^ 32 < 2 ^ 31

/-- What an access asks of the stream. -/
def Sound (s : MemoryStream) : Access → Prop
  | read iBufferSize => FitsInt s s.curSize ∧
      (s.curSize ≤ s.bufferSize ∨ iBufferSize = 0 ∨ (s.bufferSize - s.curSize).toNat % 2 ^ 32 = 0)
  | movableRandomRead offset _ absolute =>
    absolute = false → ∀ position, s.locate offset false = .ok position → FitsInt s position
  | _ => True

end Access

/-! ## One access -/

section

variable {s : MemoryStream} {offset position : Value} {n : Request} {data : Nat →
  Byte} {absolute : Bool}

theorem toNat_request (n : Request) :
    (BitVec.ofNat 32 n).toNat = n ∧ (BitVec.ofNat 64 n).toNat = n := by
  have := n.isLt
  rw [BitVec.toNat_ofNat, BitVec.toNat_ofNat]
  omega

theorem lt_of_locate (h : s.locate offset absolute = .ok position) : position < s.bufferSize := by
  obtain ⟨start, htranslate, h⟩ := bind_eq_ok.1 h
  obtain ⟨place, hplace, h⟩ := bind_eq_ok.1 h
  split at h
  · cases h
  · next hend =>
    cases h
    exact BitVec.not_le.1 hend

theorem toNat_left (s : MemoryStream) (position : Value) :
    (s.left position).toNat = (s.bufferSize - position).toNat % 2 ^ 32 := BitVec.toNat_setWidth _ _

/-- The `size_t` that an `int` becomes. -/
theorem toNat_signExtend (v : BitVec 32) :
    (v.signExtend 64).toNat = if v.toNat < 2 ^ 31 then v.toNat
    else v.toNat + (2 ^ 64 - 2 ^ 32) := by
  have hv := v.isLt
  rw [BitVec.toNat_signExtend, BitVec.toNat_setWidth_of_le (by decide), BitVec.msb_eq_decide]
  by_cases h : v.toNat < 2 ^ 31
  · rw [if_pos h, if_neg (by simpa using h)]
    omega
  · rw [if_neg h, if_pos (by simpa using Nat.le_of_not_lt h)]

/-- What is given, where what is left does not turn negative. -/
theorem toNat_sizeToGive (h : Access.FitsInt s position) :
    ((s.sizeToGive position n).signExtend 64).toNat = min n.val
    ((s.bufferSize - position).toNat % 2 ^ 32) := by
  have hleft := toNat_left s position
  have hn := n.isLt
  unfold Access.FitsInt at h
  have hslt : (BitVec.ofNat 32 n).slt (s.left position) = true ↔
      n.val < (s.left position).toNat := by
    rw [BitVec.slt_iff_toInt_lt, BitVec.toInt_eq_toNat_of_lt (by rw [(toNat_request n).1]; omega),
      BitVec.toInt_eq_toNat_of_lt (by omega), (toNat_request n).1, Int.ofNat_lt]
  unfold MemoryStream.sizeToGive
  split
  · next hlt =>
    rw [hslt] at hlt
    rw [toNat_signExtend, (toNat_request n).1, if_pos hn]
    omega
  · next hlt =>
    rw [hslt] at hlt
    rw [toNat_signExtend, if_pos (by omega)]
    omega

/-- Where it does, more is given than can have been asked for. -/
theorem le_sizeToGive (h : ¬ Access.FitsInt s position) :
    2 ^ 31 ≤ ((s.sizeToGive position n).signExtend 64).toNat := by
  have hleft := toNat_left s position
  have hn := n.isLt
  unfold Access.FitsInt at h
  have hslt : ¬ (BitVec.ofNat 32 n).slt (s.left position) = true := by
    rw [BitVec.slt_iff_toInt_lt, BitVec.toInt_eq_toNat_of_lt (by rw [(toNat_request n).1]; omega),
      BitVec.toInt_eq_toNat_cond, if_neg (by omega)]
    omega
  unfold MemoryStream.sizeToGive
  rw [if_neg hslt, toNat_signExtend, if_neg (by omega)]
  omega

/-- The unsigned comparison takes a negative number for a large one. -/
theorem toNat_wideSizeToGive (s : MemoryStream) (position : Value) (n : Request) :
    (s.wideSizeToGive position n).toNat ≤ n ∧
      (s.wideSizeToGive position n).toNat ≤ (s.bufferSize - position).toNat := by
  have hleft := toNat_left s position
  have hn := n.isLt
  have hwide := toNat_signExtend (s.left position)
  unfold MemoryStream.wideSizeToGive
  split
  · next hlt =>
    rw [BitVec.lt_def, (toNat_request n).2, hwide] at hlt
    rw [(toNat_request n).2]
    split at hlt <;> omega
  · next hlt =>
    rw [BitVec.lt_def, (toNat_request n).2, hwide] at hlt
    rw [hwide]
    split at hlt
    · next hsmall =>
      rw [if_pos hsmall]
      omega
    · omega

/-- With at most what is left, `memcpy` stays in the buffer. -/
theorem inBuffer_of_le {size : Value} (hposition : position ≤ s.bufferSize)
    (hsize : size.toNat ≤ (s.bufferSize - position).toNat) : s.InBuffer position size := by
  right
  rw [BitVec.toNat_sub_of_le hposition] at hsize
  have : position.toNat ≤ s.bufferSize.toNat := hposition
  omega

theorem readsAt_copyOut {size : Value} : Access.ReadsAt s position n (s.copyOut position size) ↔
    s.InBuffer position size ∧ size.toNat ≤ n := by
  unfold MemoryStream.copyOut
  split
  · next hin =>
    have hlength : (window s.content position.toNat size.toNat).length = size.toNat :=
      length_window _ _ _
    change (window _ _ _).length ≤ n.val ∧ (_ = [] ∨ _ + (window _ _ _).length ≤ _) ∧
      _ = window _ _ (window _ _ _).length ↔ _
    rw [hlength]
    refine ⟨fun h => ⟨hin, h.1⟩, fun h => ⟨h.2, ?_, rfl⟩⟩
    rcases hin with hzero | hin
    · left
      rw [hzero]
      rfl
    · exact .inr hin
  · next hout => exact ⟨False.elim, fun h => hout h.1⟩

/-- A read with the arithmetic of an `int`. -/
theorem readsAt_sizeToGive :
    Access.ReadsAt s position n (s.copyOut position ((s.sizeToGive position n).signExtend 64)) ↔
      Access.FitsInt s position ∧
        (position ≤ s.bufferSize ∨ n = 0 ∨ (s.bufferSize - position).toNat % 2 ^ 32 = 0) := by
  have hn := n.isLt
  rw [readsAt_copyOut]
  by_cases hfits : Access.FitsInt s position
  · have hsize := toNat_sizeToGive (n := n) hfits
    constructor
    · rintro ⟨hin, -⟩
      refine ⟨hfits, ?_⟩
      rcases hin with hzero | hin
      · rw [hzero] at hsize
        have hmin : min n.val ((s.bufferSize - position).toNat % 2 ^ 32) = 0 := hsize.symm
        rcases Nat.min_eq_zero_iff.1 hmin with hzero | hzero
        · exact .inr (.inl (Fin.ext hzero))
        · exact .inr (.inr hzero)
      · exact .inl (BitVec.le_def.2 (by omega))
    · rintro ⟨-, hplace⟩
      refine ⟨?_, by omega⟩
      rcases hplace with hle | hzero | hzero
      · exact inBuffer_of_le hle (by omega)
      · refine .inl (BitVec.eq_of_toNat_eq ?_)
        rw [hsize, hzero]
        exact Nat.zero_min _
      · refine .inl (BitVec.eq_of_toNat_eq ?_)
        rw [hsize, hzero]
        exact Nat.min_zero _
  · have hlarge := le_sizeToGive (n := n) hfits
    exact ⟨fun h => absurd h.2 (by omega), fun h => absurd h.1 hfits⟩

/-- A read with the arithmetic of an `OPERAND_SIZE`. -/
theorem readsAt_wideSizeToGive (h : position < s.bufferSize) :
    Access.ReadsAt s position n (s.copyOut position (s.wideSizeToGive position n)) := by
  obtain ⟨hn, hleft⟩ := toNat_wideSizeToGive s position n
  exact readsAt_copyOut.2 ⟨inBuffer_of_le (BitVec.le_of_lt h) hleft, hn⟩

theorem randomReadV_fine (offset : Value) (n : Request) (absolute : Bool) :
    Access.Fine s (.randomReadV offset n absolute) := by
  change Access.Located _ (s.randomReadV offset n absolute) (s.locate offset absolute)
  unfold MemoryStream.randomReadV
  cases h : s.locate offset absolute with
  | error e => exact ⟨e, rfl⟩
  | ok position => exact readsAt_wideSizeToGive (lt_of_locate h)

theorem randomWriteV_fine (offset : Value) (data : Nat → Byte) (n : Request) (absolute : Bool) :
    Access.Fine s (.randomWriteV offset data n absolute) := by
  change Access.Located (Access.WritesAt s (s.randomWriteV offset data n absolute).2 · data n)
    (s.randomWriteV offset data n absolute).1 (s.locate offset absolute)
  unfold MemoryStream.randomWriteV
  cases h : s.locate offset absolute with
  | error e => exact ⟨e, rfl⟩
  | ok position =>
    obtain ⟨hn, hleft⟩ := toNat_wideSizeToGive s position n
    have hin := inBuffer_of_le (BitVec.le_of_lt (lt_of_locate h)) hleft
    have hlength := length_window data 0 (s.wideSizeToGive position n).toNat
    dsimp only
    rw [if_pos hin]
    refine ⟨hn, hin, fun i hi => ?_, fun i hi => ?_⟩
    · exact overlay_of_outside (by rw [hlength]; exact hi)
    · refine (overlay_inside (by rw [hlength]; exact hi)).trans ?_
      simp [window]

theorem movableRandomRead_fine_iff :
    Access.Fine s (.movableRandomRead offset n absolute) ↔ Access.Sound s
    (.movableRandomRead offset n absolute) := by
  change Access.Located _ (s.movableRandomRead offset n absolute)
    (if absolute then .error .endOfStream else s.locate offset false) ↔
      (absolute = false → ∀ position, s.locate offset false = .ok position →
        Access.FitsInt s position)
  unfold MemoryStream.movableRandomRead
  cases absolute with
  | true => exact ⟨nofun, fun _ => ⟨_, rfl⟩⟩
  | false =>
    unfold MemoryStream.randomRead
    cases h : s.locate offset false with
    | error e => exact ⟨nofun, fun _ => ⟨e, rfl⟩⟩
    | ok position =>
      refine readsAt_sizeToGive.trans ⟨fun hfine _ p hp => Except.ok.inj hp ▸ hfine.1,
        fun hsound => ⟨hsound rfl position rfl, ?_⟩⟩
      exact .inl (BitVec.le_of_lt (lt_of_locate h))

/-- One access does what it should, exactly if the stream is as it asks. -/
theorem fine_iff (s : MemoryStream) (x : Access) : x.Fine s ↔ x.Sound s := by
  cases x with
  | moveTo offset => exact Iff.rfl
  | movableMoveTo offset => exact Iff.rfl
  | read n => exact readsAt_sizeToGive
  | randomReadV offset n absolute =>
    exact ⟨fun _ => trivial, fun _ => randomReadV_fine offset n absolute⟩
  | movableRandomRead offset n absolute => exact movableRandomRead_fine_iff
  | randomWriteV offset data n absolute =>
    exact ⟨fun _ => trivial, fun _ => randomWriteV_fine offset data n absolute⟩

end

/-! ## Runs -/

/-- Something holds of every access of a run, in the stream as the access finds it. -/
def Throughout (P : MemoryStream → Access → Prop) (s : MemoryStream) : List Access → Prop
  | [] => True
  | x :: rest => P s x ∧ Throughout P (x.next s) rest

/-- The accesses of a run do what they should, exactly if each finds the stream as it asks. -/
theorem throughout_fine_iff (s : MemoryStream) (run : List Access) :
    Throughout (fun s x => x.Fine s) s run ↔ Throughout (fun s x => x.Sound s) s run := by
  induction run generalizing s with
  | nil => exact Iff.rfl
  | cons x rest ih => exact and_congr (fine_iff s x) (ih (x.next s))

/-- A buffer of one byte. -/
def oneByte : MemoryStream := ⟨fun _ => 0, 1, 0, 0, none⟩

/-- A read behind the end of the buffer leaves it. -/
theorem not_throughout_fine : ¬ ∀ (s : MemoryStream) (run : List Access), s.curSize = 0 →
    Throughout (fun s x => x.Fine s) s run := by
  intro h
  have hread : Access.ReadsAt (Access.next oneByte (.moveTo 2))
    (Access.next oneByte (.moveTo 2)).curSize 1
    ((Access.next oneByte (.moveTo 2)).read 1).1 := (h oneByte [.moveTo 2, .read 1] rfl).2.1
  have hout : ((Access.next oneByte (.moveTo 2)).read 1).1 = .outOfBounds := by decide
  rw [hout] at hread
  exact hread

end Diana.Streams
