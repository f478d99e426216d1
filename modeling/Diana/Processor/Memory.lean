import Diana.Lib.FlatMemory
import Diana.Processor.Shifts

/-!
# Memory as the commands see it

* `getLsbD_leValue`, `getElem_leBytes`: values and their bytes, bit by bit;
* `MemoryStream.ReadsBack`: a stream whose complete writes are found again by a read;
* `setMemValue_ok`, `getMemValue_of_read`: an access that succeeded;
* `flatStream`: bytes at every address, which every access reaches; `bufferStream`:
  the bytes of one buffer.
-/

namespace Diana.Processor

open Diana.Lib

/-! ## Values and bytes -/

theorem getLsbD_leValue (bs : List Byte) {i : Nat} (hi : i < 64) :
    (leValue bs).getLsbD i = (bs[i / 8]?.getD 0).getLsbD (i % 8) := by
  induction bs generalizing i with
  | nil => simp [leValue]
  | cons b bs ih =>
    rw [leValue, BitVec.getLsbD_or, BitVec.getLsbD_setWidth, BitVec.getLsbD_shiftLeft]
    by_cases h8 : i < 8
    · have hd : i / 8 = 0 := Nat.div_eq_of_lt h8
      rw [hd, Nat.mod_eq_of_lt h8]
      simp [hi, h8]
    · have hd : i / 8 = (i - 8) / 8 + 1 := by omega
      have hm : i % 8 = (i - 8) % 8 := by omega
      have hb : b.getLsbD i = false := BitVec.getLsbD_of_ge _ _ (by omega)
      rw [hd, hm, List.getElem?_cons_succ, hb, ih (by omega)]
      simp [hi, h8]

theorem getElem_leBytes {n k : Nat} (v : Value) (h : k < (leBytes n v).length) :
    (leBytes n v)[k] = (v >>> (8 * k)).setWidth 8 := by
  induction n generalizing k v with
  | zero => cases h
  | succ n ih =>
    cases k with
    | zero => simp [leBytes]
    | succ k =>
      have hshift : v >>> 8 >>> (8 * k) = v >>> (8 * (k + 1)) := by
        rw [← BitVec.shiftRight_add, Nat.mul_succ, Nat.add_comm]
      simp only [leBytes, List.getElem_cons_succ]
      rw [ih, hshift]

/-- A stored value reads back cut to the size. -/
theorem leValue_leBytes (v : Value) (size : Size) :
    leValue (leBytes size.bytes v) = cutValue v size := by
  apply BitVec.eq_of_getLsbD_eq
  intro i hi
  rw [getLsbD_leValue _ hi, cutValue_eq, Size.low, BitVec.getLsbD_setWidth,
    BitVec.getLsbD_setWidth, Size.bits]
  by_cases h : i < 8 * size.bytes
  · have hlt : i / 8 < (leBytes size.bytes v).length := by
      rw [length_leBytes]
      omega
    rw [List.getElem?_eq_getElem hlt, getElem_leBytes, Option.getD_some, BitVec.getLsbD_setWidth,
      BitVec.getLsbD_ushiftRight, Nat.div_add_mod]
    simp [hi, h, Nat.mod_lt]
  · rw [List.getElem?_eq_none (by rw [length_leBytes]; omega)]
    simp [h]

/-! ## Streams -/

variable {μ : Type}

theorem Size.bytes_le (size : Size) : size.bytes ≤ 8 := by cases size <;> decide

/-- The bytes of a value that a stream took completely are found again. -/
def MemoryStream.ReadsBack (S : MemoryStream μ) : Prop :=
  ∀ m selector offset bs seg m',
    bs.length ≤ 8 → S.write m selector offset bs seg = (.ok bs.length, m') →
    S.read m' selector offset bs.length seg = .ok bs

section

variable {S : MemoryStream μ} {s t : Proc μ} {selector offset v : Value} {size : Size}
  {seg : SegReg}

theorem setMemValue_ok {a : Unit} (h : setMemValue S selector offset size v seg s = .ok a t) :
    S.write s.mem selector offset (leBytes size.bytes v) seg = (.ok size.bytes, t.mem) ∧
      t = { s with mem := t.mem } := by
  unfold setMemValue at h
  rw [get_bind] at h
  cases hw : S.write s.mem selector offset (leBytes size.bytes v) seg with
  | mk r mem =>
    rw [hw] at h
    dsimp only at h
    rw [set_bind] at h
    cases r with
    | error e => cases h
    | ok wrote =>
      dsimp only at h
      by_cases hn : wrote = size.bytes
      · subst hn
        rw [if_neg (not_not.2 rfl)] at h
        cases h
        exact ⟨rfl, rfl⟩
      · rw [if_pos hn] at h
        cases h

theorem setMemValue_of_write {mem : μ}
    (h : S.write s.mem selector offset (leBytes size.bytes v) seg = (.ok size.bytes, mem)) :
    setMemValue S selector offset size v seg s = .ok () { s with mem } := by
  unfold setMemValue
  rw [get_bind, h]
  dsimp only
  rw [set_bind, if_neg (not_not.2 rfl)]
  rfl

theorem getMemValue_of_read {bs : List Byte}
    (h : S.read s.mem selector offset size.bytes seg = .ok bs) (hl : bs.length = size.bytes) :
    getMemValue S selector offset size seg s = .ok (leValue bs) s := by
  unfold getMemValue Proc.readMem
  rw [get_bind, h]
  dsimp only
  rw [if_pos hl]
  rfl

theorem readMem_of_read {bs : List Byte} (h : S.read s.mem selector offset size.bytes seg = .ok bs)
    (hl : bs.length = size.bytes) : s.readMem S selector offset size seg = (leValue bs, none) := by
  unfold Proc.readMem
  rw [h]
  dsimp only
  rw [if_pos hl]

/-- The read that follows a complete write. -/
theorem MemoryStream.ReadsBack.read (hS : S.ReadsBack) {m m' : μ}
    (h : S.write m selector offset (leBytes size.bytes v) seg = (.ok size.bytes, m')) :
    S.read m' selector offset size.bytes seg = .ok (leBytes size.bytes v) := by
  have hrun := hS m selector offset (leBytes size.bytes v) seg m'
  rw [length_leBytes] at hrun
  exact hrun size.bytes_le h

end

/-- A byte at every address; selectors are not looked at and no access fails. -/
def flatStream : MemoryStream (Value → Byte) where
  read m _ offset size _ := .ok (load m offset size)
  write m _ offset bs _ := (.ok bs.length, store m offset bs)

theorem flatStream_readsBack : flatStream.ReadsBack := by
  intro m selector offset bs seg m' hl h
  cases h
  have hle : bs.length ≤ 2 ^ 64 := hl.trans (by decide)
  exact congrArg Except.ok (load_store_same m offset hle)

/-- `DianaRandomMemoryStream`: one buffer, with segments of one size. An access that reaches behind
the end is carried out as far as the buffer goes. -/
def bufferStream (segmentSize : Value) : MemoryStream (List Byte) where
  read m selector offset size _ :=
    let offset := selector * segmentSize + offset
    if m.length < offset.toNat then .error .error else .ok ((m.drop offset.toNat).take size)
  write m selector offset bs _ :=
    let offset := selector * segmentSize + offset
    if m.length < offset.toNat then (.error .error, m)
    else
      let sizeToGive := min (m.length - offset.toNat) bs.length
      (.ok sizeToGive, m.take offset.toNat ++ bs.take sizeToGive ++ m.drop
        (offset.toNat + sizeToGive))

end Diana.Processor
