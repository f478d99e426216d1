import Diana.Pe.Relocs
import Mathlib.Tactic.IntervalCases

/-!
# What relocating an image changes

A well-formed relocation directory is a list of blocks, each with its sub entries. Relocating an
image by it changes the targets one after the other; since they do not overlap, each is changed once
and nothing else is.

* `Block.encode`, `targets`: the bytes of a directory, and what it names;
* `fixRelocs_eq`: `DianaPeFile_FixRelocs` is `applyAll` over the targets;
* `fixRelocs_exact`: every target is moved by the difference of the bases, no other byte changes,
  and relocating back restores the image.
-/

namespace Diana.Pe

open Diana.Lib

/-! ## Directories -/

/-- A block of a relocation directory. -/
structure Block where
  virtualAddress : BitVec 32
  subEntries : List (BitVec 16)
  deriving DecidableEq, Repr

def encodeEntries (l : List (BitVec 16)) : List Byte := l.flatMap fun e => leBytes 2 e.toNat

def Block.encode (b : Block) : List Byte :=
  leBytes 4 b.virtualAddress.toNat ++ leBytes 4 (headerSize + 2 * b.subEntries.length) ++
    encodeEntries b.subEntries

/-- The bytes of a well-formed directory. -/
def encodeBlocks (l : List Block) : List Byte := l.flatMap Block.encode

/-- A place in the image that is changed. -/
structure Target where
  kind : Kind
  rva : Nat
  deriving DecidableEq, Repr

/-- The target of a sub entry. An entry that comes to offset 0 is passed over. -/
def targetOf (virtualAddress : BitVec 32) (subEntry : BitVec 16) : Option Target :=
  if rawTarget virtualAddress subEntry = 0 then none
  else (Kind.ofType (subEntry >>> 12).toNat).map fun kind =>
    ⟨kind, (rawTarget virtualAddress subEntry).toNat⟩

def Block.targets (b : Block) : List Target := b.subEntries.filterMap (targetOf b.virtualAddress)

def targets (l : List Block) : List Target := l.flatMap Block.targets

theorem length_encodeEntries (l : List (BitVec 16)) : (encodeEntries l).length = 2 * l.length := by
  induction l with
  | nil => rfl
  | cons e l ih =>
    rw [encodeEntries, List.flatMap_cons, List.length_append, length_leBytes, List.length_cons]
    have : (List.flatMap (fun e => leBytes 2 e.toNat) l).length = 2 * l.length := ih
    omega

theorem length_encode (b : Block) : b.encode.length = headerSize + 2 * b.subEntries.length := by
  rw [Block.encode, List.length_append, List.length_append, length_leBytes, length_leBytes,
    length_encodeEntries, headerSize]

section Read

variable {pre post : List Byte} {b : Block}

theorem virtualAddressAt_encode :
    virtualAddressAt (pre ++ (b.encode ++ post)) pre.length = b.virtualAddress := by
  have htake : (b.encode ++ post).take 4 = leBytes 4 b.virtualAddress.toNat := by
    rw [Block.encode, List.append_assoc, List.append_assoc]
    exact List.take_left' (length_leBytes 4 _)
  rw [virtualAddressAt, numberAt, List.drop_left, htake, leNat_leBytes_of_lt b.virtualAddress.isLt,
    BitVec.ofNat_toNat, BitVec.setWidth_eq]

theorem sizeOfBlockAt_encode (h : b.encode.length < 2 ^ 32) :
    sizeOfBlockAt (pre ++ (b.encode ++ post)) pre.length = b.encode.length := by
  have hdrop : (pre ++ (b.encode ++ post)).drop (pre.length + 4) =
      leBytes 4 (headerSize + 2 * b.subEntries.length) ++ (encodeEntries b.subEntries ++ post) := by
    rw [List.drop_append, List.drop_of_length_le (by omega), List.nil_append,
      Nat.add_sub_cancel_left, Block.encode, List.append_assoc, List.append_assoc]
    exact List.drop_left' (length_leBytes 4 _)
  rw [length_encode] at h
  rw [sizeOfBlockAt, numberAt, hdrop, List.take_left' (length_leBytes 4 _), leNat_leBytes_of_lt h,
    length_encode]

/-- The number of sub entries of a block. -/
theorem subEntriesCount_encode (h : b.encode.length < 2 ^ 32) :
    subEntriesCount b.encode.length = b.subEntries.length := by
  have hcount := headerSize_add_subEntriesCount h
  rw [length_encode, headerSize] at hcount
  rw [length_encode, headerSize]
  omega

theorem drop_encodeEntries {l : List (BitVec 16)} {i : Nat} (h : i < l.length) :
    (encodeEntries l).drop (2 * i) = leBytes 2 (l[i]).toNat ++ encodeEntries (l.drop (i + 1)) := by
  induction l generalizing i with
  | nil => cases h
  | cons e l ih =>
    cases i with
    | zero => rfl
    | succ i =>
      have hi : i < l.length := Nat.lt_of_succ_lt_succ h
      have hdrop : (encodeEntries (e :: l)).drop (2 * (i + 1)) =
          (encodeEntries l).drop (2 * i) := by
        rw [encodeEntries, List.flatMap_cons, List.drop_append, List.drop_of_length_le (by simp),
          List.nil_append, length_leBytes]
        rfl
      rw [hdrop, ih hi]
      rfl

theorem subEntriesAt_encode :
    subEntriesAt (pre ++ (b.encode ++ post)) pre.length b.subEntries.length = b.subEntries := by
  refine List.ext_getElem (by simp [subEntriesAt]) fun i h1 h2 => ?_
  have hdrop : (pre ++ (b.encode ++ post)).drop (pre.length + headerSize + 2 * i) =
      leBytes 2 (b.subEntries[i]).toNat ++ (encodeEntries (b.subEntries.drop (i + 1)) ++ post) := by
    have hhead : (leBytes 4 b.virtualAddress.toNat ++
        leBytes 4 (headerSize + 2 * b.subEntries.length)).length = headerSize := by
      rw [List.length_append, length_leBytes, length_leBytes, headerSize]
    have hlen := length_encodeEntries b.subEntries
    rw [Nat.add_assoc, List.drop_append, List.drop_of_length_le (by omega), List.nil_append,
      Nat.add_sub_cancel_left, Block.encode, List.append_assoc, List.drop_append,
      List.drop_of_length_le (by omega), List.nil_append, hhead, Nat.add_sub_cancel_left,
      List.drop_append_of_le_length (by omega), drop_encodeEntries h2, List.append_assoc]
  simp only [subEntriesAt, List.getElem_map, List.getElem_range, numberAt, hdrop]
  rw [List.take_left' (length_leBytes 2 _), leNat_leBytes_of_lt (b.subEntries[i]).isLt,
    BitVec.ofNat_toNat, BitVec.setWidth_eq]

end Read

/-! ## The value of a `movw`/`movt` pair -/

section Thumb

variable (hw1 hw2 x y : BitVec 32) (p q : List Byte)

/-- The fields of `imm16` in the first halfword. -/
def immHw1 : BitVec 32 :=
  (hw1 &&& ~~~0x040F#32) ||| ((x >>> 12) &&& 0xF) ||| (((x >>> 11) &&& 1) <<< 10)

/-- The fields of `imm16` in the second halfword. -/
def immHw2 : BitVec 32 := (hw2 &&& ~~~0x70FF#32) ||| (((x >>> 8) &&& 7) <<< 12) ||| (x &&& 0xFF)

/-- `imm4:i:imm3:imm8` -/
def immOf : BitVec 32 :=
  ((hw1 &&& 0xF) <<< 12) ||| (((hw1 >>> 10) &&& 1) <<< 11) ||| (((hw2 >>> 12) &&& 7) <<< 8) |||
    (hw2 &&& 0xFF)

theorem immOf_imm : immOf (immHw1 hw1 x &&& 0xFFFF) (immHw2 hw2 x &&& 0xFFFF) = x &&& 0xFFFF := by
  apply BitVec.eq_of_getLsbD_eq
  intro i hi
  have hi' : i < 32 := hi
  simp only [immOf, immHw1, immHw2]
  interval_cases i <;> simp [-BitVec.getLsbD_eq_getElem]

theorem immHw1_immOf : immHw1 hw1 (immOf hw1 hw2) = hw1 := by
  apply BitVec.eq_of_getLsbD_eq
  intro i hi
  have hi' : i < 32 := hi
  simp only [immOf, immHw1]
  interval_cases i <;> simp [-BitVec.getLsbD_eq_getElem]

theorem immHw2_immOf : immHw2 hw2 (immOf hw1 hw2) = hw2 := by
  apply BitVec.eq_of_getLsbD_eq
  intro i hi
  have hi' : i < 32 := hi
  simp only [immOf, immHw2]
  interval_cases i <;> simp [-BitVec.getLsbD_eq_getElem]

theorem immHw1_immHw1 : immHw1 (immHw1 hw1 x &&& 0xFFFF) y = immHw1 (hw1 &&& 0xFFFF) y := by
  apply BitVec.eq_of_getLsbD_eq
  intro i hi
  have hi' : i < 32 := hi
  simp only [immHw1]
  interval_cases i <;> simp [-BitVec.getLsbD_eq_getElem]

theorem immHw2_immHw2 : immHw2 (immHw2 hw2 x &&& 0xFFFF) y = immHw2 (hw2 &&& 0xFFFF) y := by
  apply BitVec.eq_of_getLsbD_eq
  intro i hi
  have hi' : i < 32 := hi
  simp only [immHw2]
  interval_cases i <;> simp [-BitVec.getLsbD_eq_getElem]

/-- A number of two bytes. -/
theorem ofNat_leBytes (v : BitVec 32) :
    BitVec.ofNat 32 (leNat (leBytes 2 v.toNat)) = v &&& 0xFFFF := by
  apply BitVec.eq_of_toNat_eq
  have hmask : (v &&& 0xFFFF).toNat = v.toNat % 2 ^ 16 := by
    rw [BitVec.toNat_and]
    exact Nat.and_two_pow_sub_one_eq_mod v.toNat 16
  rw [leNat_leBytes, BitVec.toNat_ofNat, hmask]
  omega

theorem halfwords_setThumbMovImm16 : halfwords (setThumbMovImm16 p x ++ q) =
    (immHw1 (halfwords p).1 x &&& 0xFFFF, immHw2 (halfwords p).2 x &&& 0xFFFF) := by
  have hset : setThumbMovImm16 p x ++ q = leBytes 2 (immHw1 (halfwords p).1 x).toNat ++
      (leBytes 2 (immHw2 (halfwords p).2 x).toNat ++ q) := List.append_assoc _ _ _
  rw [hset, halfwords, List.take_left' (length_leBytes 2 _), List.drop_left' (length_leBytes 2 _),
    List.take_left' (length_leBytes 2 _), ofNat_leBytes, ofNat_leBytes]

theorem getThumbMovImm16_set : getThumbMovImm16 (setThumbMovImm16 p x ++ q) = x &&& 0xFFFF := by
  show immOf (halfwords (setThumbMovImm16 p x ++ q)).1 (halfwords (setThumbMovImm16 p x ++ q)).2 = _
  rw [halfwords_setThumbMovImm16]
  exact immOf_imm _ _ _

theorem halfwords_and : (halfwords p).1 &&& 0xFFFF = (halfwords p).1 ∧
    (halfwords p).2 &&& 0xFFFF = (halfwords p).2 := by
  have hmask : ∀ bs : List Byte,
      bs.length ≤ 2 → BitVec.ofNat 32 (leNat bs) &&& 0xFFFF = BitVec.ofNat 32 (leNat bs) := by
    intro bs hbs
    have hlt : leNat bs < 256 ^ 2 :=
      lt_of_lt_of_le (leNat_lt bs) (Nat.pow_le_pow_right (by decide) hbs)
    apply BitVec.eq_of_toNat_eq
    rw [BitVec.toNat_and, BitVec.toNat_ofNat, Nat.mod_eq_of_lt (by omega)]
    exact (Nat.and_two_pow_sub_one_eq_mod (leNat bs) 16).trans (Nat.mod_eq_of_lt hlt)
  exact ⟨hmask _ (by simp), hmask _ (by simp)⟩

theorem setThumbMovImm16_set :
    setThumbMovImm16 (setThumbMovImm16 p x ++ q) y = setThumbMovImm16 p y := by
  show leBytes 2 (immHw1 (halfwords (setThumbMovImm16 p x ++ q)).1 y).toNat ++
    leBytes 2 (immHw2 (halfwords (setThumbMovImm16 p x ++ q)).2 y).toNat = _
  rw [halfwords_setThumbMovImm16, immHw1_immHw1, immHw2_immHw2, (halfwords_and p).1,
    (halfwords_and p).2]
  rfl

theorem setThumbMovImm16_get (hp : p.length = 4) :
    setThumbMovImm16 p (getThumbMovImm16 p ) = p := by
  have hbytes : ∀ bs : List Byte,
      bs.length = 2 → leBytes 2 (BitVec.ofNat 32 (leNat bs)).toNat = bs := by
    intro bs hbs
    have hlt : leNat bs < 256 ^ 2 := hbs ▸ leNat_lt bs
    rw [BitVec.toNat_ofNat, Nat.mod_eq_of_lt (by omega), ← hbs, leBytes_leNat]
  show leBytes 2 (immHw1 (halfwords p).1 (immOf (halfwords p).1 (halfwords p).2)).toNat ++
    leBytes 2 (immHw2 (halfwords p).2 (immOf (halfwords p).1 (halfwords p).2)).toNat = p
  have htail : (p.drop 2).take 2 = p.drop 2 := List.take_of_length_le (by simp [hp])
  rw [immHw1_immOf, immHw2_immOf, halfwords, hbytes _ (by simp [hp]),
    hbytes _ (by simp [hp]), htail, List.take_append_drop]

end Thumb

/-! ## Targets as patches -/

theorem length_setThumbMovImm16 (p : List Byte) (v : BitVec 32) :
    (setThumbMovImm16 p v).length = 4 := by
  simp [setThumbMovImm16]

theorem length_change (diff : Value) (k : Kind) (w : List Byte) :
    (k.change diff w).length = k.width := by
  cases k <;> simp [Kind.change, Kind.width, length_setThumbMovImm16]

section Change

variable {d d' : Value} {k : Kind} {w : List Byte}

theorem setWidth_add_value (d d' : Value) : (d + d').setWidth 32 = d.setWidth 32 + d'.setWidth 32 :=
  BitVec.setWidth_add _ _ (by decide)

theorem halfwords_take (p : List Byte) : halfwords (p.take 4) = halfwords p := by
  rw [halfwords, halfwords, List.take_take, List.drop_take, List.take_take]
  rfl

theorem immOf_and (hw1 hw2 : BitVec 32) : immOf hw1 hw2 &&& 0xFFFF = immOf hw1 hw2 := by
  apply BitVec.eq_of_getLsbD_eq
  intro i hi
  have hi' : i < 32 := hi
  simp only [immOf]
  interval_cases i <;> simp [-BitVec.getLsbD_eq_getElem]

theorem pair_low (x y : BitVec 32) :
    (x ||| (y <<< 16)) &&& (0xFFFF : BitVec 32) = x &&& 0xFFFF := by
  apply BitVec.eq_of_getLsbD_eq
  intro i hi
  have hi' : i < 32 := hi
  interval_cases i <;> simp [-BitVec.getLsbD_eq_getElem]

theorem pair_high (x y : BitVec 32) :
    ((x &&& (0xFFFF : BitVec 32)) ||| (y <<< 16)) >>> 16 = y &&& 0xFFFF := by
  apply BitVec.eq_of_getLsbD_eq
  intro i hi
  have hi' : i < 32 := hi
  interval_cases i <;> simp [-BitVec.getLsbD_eq_getElem]

theorem getThumbMovImm16_and (p : List Byte) : getThumbMovImm16 p &&& 0xFFFF = getThumbMovImm16 p :=
  immOf_and _ _

theorem thumbPair_low (w : List Byte) : thumbPair w &&& 0xFFFF = getThumbMovImm16 (w.take 4) := by
  rw [thumbPair, pair_low, getThumbMovImm16_and, getThumbMovImm16, getThumbMovImm16, halfwords_take]

theorem thumbPair_high (w : List Byte) : thumbPair w >>> 16 = getThumbMovImm16 (w.drop 4) := by
  rw [thumbPair, ← getThumbMovImm16_and w, pair_high, getThumbMovImm16_and]

theorem thumbPair_append (p q : List Byte) (v : BitVec 32) :
    thumbPair (setThumbMovImm16 p (v &&& 0xFFFF) ++ setThumbMovImm16 q (v >>> 16)) = v := by
  have hdrop : (setThumbMovImm16 p (v &&& 0xFFFF) ++ setThumbMovImm16 q (v >>> 16)).drop 4 =
      setThumbMovImm16 q (v >>> 16) := List.drop_left' (length_setThumbMovImm16 _ _)
  have hq := getThumbMovImm16_set (v >>> 16) q []
  rw [List.append_nil] at hq
  rw [thumbPair, hdrop, getThumbMovImm16_set, hq]
  apply BitVec.eq_of_getLsbD_eq
  intro i hi
  have hi' : i < 32 := hi
  interval_cases i <;> simp [-BitVec.getLsbD_eq_getElem]

/-- The value of a pair is moved. -/
theorem thumbPair_change (d : Value) (w : List Byte) :
    thumbPair (Kind.thumbMov32.change d w) = thumbPair w + d.setWidth 32 :=
  thumbPair_append _ _ _

/-- Moving twice is moving once by the sum, except for the high halves. -/
theorem change_change (hk : k ≠ .high) : k.change d' (k.change d w) = k.change (d + d') w := by
  cases k with
  | high => exact absurd rfl hk
  | highLow =>
    have hv := (BitVec.ofNat 32 (leNat w) + d.setWidth 32).isLt
    simp only [Kind.change]
    rw [leNat_leBytes_of_lt hv, BitVec.ofNat_toNat, BitVec.setWidth_eq, setWidth_add_value,
      BitVec.add_assoc]
  | dir64 =>
    have hv := (BitVec.ofNat 64 (leNat w) + d).isLt
    simp only [Kind.change]
    rw [leNat_leBytes_of_lt hv, BitVec.ofNat_toNat, BitVec.setWidth_eq, BitVec.add_assoc]
  | thumbMov32 =>
    have hv := thumbPair_change d w
    have htake : (Kind.thumbMov32.change d w).take 4 =
        setThumbMovImm16 (w.take 4) ((thumbPair w + d.setWidth 32) &&& 0xFFFF) :=
      List.take_left' (length_setThumbMovImm16 _ _)
    have hdrop : (Kind.thumbMov32.change d w).drop 4 =
        setThumbMovImm16 (w.drop 4) ((thumbPair w + d.setWidth 32) >>> 16) :=
      List.drop_left' (length_setThumbMovImm16 _ _)
    have hset : ∀ (p : List Byte) (x y : BitVec 32),
        setThumbMovImm16 (setThumbMovImm16 p x) y = setThumbMovImm16 p y := by
      intro p x y
      have := setThumbMovImm16_set x y p []
      rwa [List.append_nil] at this
    show setThumbMovImm16 ((Kind.thumbMov32.change d w).take 4) _ ++
      setThumbMovImm16 ((Kind.thumbMov32.change d w).drop 4) _ = _
    rw [hv, htake, hdrop, hset, hset, BitVec.add_assoc, ← setWidth_add_value]
    rfl

/-- A high half is moved by the high half of the difference. -/
theorem toNat_high (d : Value) (n : Nat) :
    (((BitVec.ofNat 32 n <<< 16) + d.setWidth 32) >>> 16).toNat =
    (n + d.toNat / 2 ^ 16) % 2 ^ 16 := by
  rw [BitVec.toNat_ushiftRight, BitVec.toNat_add, BitVec.toNat_shiftLeft, BitVec.toNat_ofNat,
    BitVec.toNat_setWidth, Nat.shiftLeft_eq, Nat.shiftRight_eq_div_pow]
  omega

/-- The bytes of the number that they stand for. -/
theorem leBytes_eq {n v : Nat} (hw : w.length = n) (hv : v = leNat w) : leBytes n v = w := by
  rw [hv, ← hw, leBytes_leNat]

theorem leNat_lt_of_length {n : Nat} (hw : w.length = n) : leNat w < 256 ^ n := by
  rw [← hw]
  exact leNat_lt w

theorem change_zero (hw : w.length = k.width) : k.change 0 w = w := by
  have hzero : (0 : Value).setWidth 32 = 0#32 := rfl
  have hlt := leNat_lt_of_length hw
  cases k with
  | high =>
    refine leBytes_eq hw ?_
    rw [toNat_high]
    exact Nat.mod_eq_of_lt hlt
  | highLow =>
    refine leBytes_eq hw ?_
    rw [hzero, BitVec.add_zero, BitVec.toNat_ofNat]
    exact Nat.mod_eq_of_lt hlt
  | dir64 =>
    refine leBytes_eq hw ?_
    show (BitVec.ofNat 64 (leNat w) + 0#64).toNat = _
    rw [BitVec.add_zero, BitVec.toNat_ofNat]
    exact Nat.mod_eq_of_lt hlt
  | thumbMov32 =>
    have hlen : w.length = 8 := hw
    have htake : (w.take 4).length = 4 := by simp [hlen]
    have hdrop : (w.drop 4).length = 4 := by simp [hlen]
    simp only [Kind.change, hzero, BitVec.add_zero]
    rw [thumbPair_low, thumbPair_high, setThumbMovImm16_get _ htake, setThumbMovImm16_get _ hdrop,
      List.take_append_drop]

/-- The opposite difference moves a target back; high halves only by multiples of 64 KiB. -/
theorem change_neg (hk : k = .high → d.toNat % 2 ^ 16 = 0) (hw : w.length = k.width) :
    k.change (-d) (k.change d w) = w := by
  by_cases hhigh : k = .high
  · subst hhigh
    have hlt := leNat_lt_of_length hw
    have hd := hk rfl
    simp only [Kind.width] at hlt
    refine leBytes_eq hw ?_
    have hneg : (-d).toNat = (2 ^ 64 - d.toNat) % 2 ^ 64 := BitVec.toNat_neg d
    have hin := d.isLt
    have hmoved : leNat (Kind.high.change d w) = (leNat w + d.toNat / 2 ^ 16) % 2 ^ 16 := by
      rw [Kind.change, leNat_leBytes, toNat_high]
      omega
    rw [toNat_high, hmoved, hneg]
    omega
  · rw [change_change hhigh, ← BitVec.sub_eq_add_neg, BitVec.sub_self]
    exact change_zero hw

end Change

namespace Target

def patch (diff : Value) (t : Target) : Patch Byte where
  start := t.rva
  width := t.kind.width
  change := t.kind.change diff
  length_change w _ := length_change diff t.kind w

/-- The target lies in an image of this size. -/
def Inside (size : Nat) (t : Target) : Prop := t.rva + t.kind.width ≤ size

/-- The bytes of the target. -/
def bytes (t : Target) (m : Image) : List Byte := window m.byte t.rva t.kind.width

end Target

/-- The image after a list of targets. -/
def Image.moved (m : Image) (diff : Value) (l : List Target) : Image :=
  { m with byte := applyAll (l.map (Target.patch diff)) m.byte }

theorem Image.moved_nil (m : Image) (diff : Value) : m.moved diff [] = m := rfl

theorem Image.moved_append (m : Image) (diff : Value) (l l' : List Target) :
    m.moved diff (l ++ l') = (m.moved diff l).moved diff l' := by
  simp [Image.moved, applyAll, List.foldl_append]

section Process

variable {m : Image} {diff : Value} {va : BitVec 32} {e : BitVec 16} {size : Nat}

/-- The address space goes on behind the image. -/
def Image.InSpace (m : Image) : Prop := m.base.toNat + m.size ≤ 2 ^ 64

theorem safeAdd_of_inside (raw : BitVec 32) (hm : m.InSpace) (h : raw.toNat < m.size) :
    safeAdd m.base (raw.setWidth 64) = .ok (m.base + raw.setWidth 64) ∧
      (m.base + raw.setWidth 64 - m.base).toNat = raw.toNat := by
  have hraw := raw.isLt
  have hwide : (raw.setWidth 64).toNat = raw.toNat := by
    rw [BitVec.toNat_setWidth]
    omega
  unfold Image.InSpace at hm
  constructor
  · unfold safeAdd
    rw [if_neg]
    rw [BitVec.lt_def, BitVec.toNat_sub, hwide]
    have hmax : (0xFFFFFFFFFFFFFFFF : Value).toNat = 2 ^ 64 - 1 := rfl
    rw [hmax]
    omega
  · rw [BitVec.add_comm, BitVec.add_sub_cancel, hwide]

theorem read_inside (hm : m.InSpace) {raw : BitVec 32} {n : Nat} (hn : 0 < n)
    (h : raw.toNat + n ≤ m.size) :
    readExact imageStream (m.base + raw.setWidth 64) n m = .ok (window m.byte raw.toNat n) m := by
  obtain ⟨-, hoff⟩ := safeAdd_of_inside raw hm (by omega)
  simp only [readExact, get_bind, imageStream, hoff, if_pos h, length_window, if_true, pure_apply]

theorem write_inside (hm : m.InSpace) {raw : BitVec 32} {bs : List Byte} (hn : 0 < bs.length)
    (h : raw.toNat + bs.length ≤ m.size) :
    writeExact imageStream (m.base + raw.setWidth 64) bs m =
      .ok () { m with byte := overlay m.byte raw.toNat bs } := by
  obtain ⟨-, hoff⟩ := safeAdd_of_inside raw hm (by omega)
  simp only [writeExact, get_bind, imageStream, hoff, if_pos h]
  rfl

/-- One sub entry on an image. -/
theorem processSubEntry_eq (hm : m.InSpace) (h : ∀ t ∈ targetOf va e, t.Inside m.size)
    (hraw : (rawTarget va e).toNat < m.size) :
    processSubEntry imageStream m.base va diff e m = .ok ()
    (m.moved diff (targetOf va e).toList) := by
  unfold processSubEntry
  by_cases h0 : rawTarget va e = 0
  · rw [if_pos h0, targetOf, if_pos h0]
    rfl
  · obtain ⟨hadd, -⟩ := safeAdd_of_inside _ hm hraw
    rw [if_neg h0, hadd]
    dsimp only
    rw [targetOf, if_neg h0] at h ⊢
    cases hk : Kind.ofType (e >>> 12).toNat with
    | none => rfl
    | some kind =>
      rw [hk] at h
      have hin : (rawTarget va e).toNat + kind.width ≤ m.size := h ⟨kind, _⟩ rfl
      have hpos : 0 < kind.width := by cases kind <;> decide
      have hlen := length_change diff kind (window m.byte (rawTarget va e).toNat kind.width)
      refine (bind_of_ok (read_inside hm hpos hin)).trans ?_
      rw [write_inside hm (by omega) (by omega)]
      rfl

theorem moved_inSpace (hm : m.InSpace) (l : List Target) : (m.moved diff l).InSpace := hm

/-- The sub entries of a block on an image. -/
theorem processRelocationEntry_eq (hm : m.InSpace) {es : List (BitVec 16)}
    (h : ∀ e ∈ es, (rawTarget va e).toNat < m.size ∧ ∀ t ∈ targetOf va e, t.Inside m.size) :
    processRelocationEntry imageStream m.base va diff es m = .ok ()
    (m.moved diff (es.filterMap (targetOf va))) := by
  induction es generalizing m with
  | nil => rfl
  | cons e es ih =>
    obtain ⟨hraw, hin⟩ := h e List.mem_cons_self
    have hrest := ih (m := m.moved diff (targetOf va e).toList) (moved_inSpace hm _)
      fun e' he' => h e' (List.mem_cons_of_mem _ he')
    have hlist : (e :: es).filterMap (targetOf va) =
        (targetOf va e).toList ++ es.filterMap (targetOf va) := by
      rw [List.filterMap_cons]
      cases targetOf va e <;> rfl
    rw [processRelocationEntry, bind_of_ok (processSubEntry_eq hm hin hraw), hlist,
      Image.moved_append]
    exact hrest

end Process

/-! ## The walk over a well-formed directory -/

section Walk

variable {m : Image} {diff : Value} {pre post : List Byte} {b : Block} {l : List Block}

/-- Every sub entry of the block points into the image. -/
def Block.Inside (size : Nat) (b : Block) : Prop :=
  ∀ e ∈ b.subEntries, (rawTarget b.virtualAddress e).toNat < size ∧
    ∀ t ∈ targetOf b.virtualAddress e, t.Inside size

/-- The turn at a block of a well-formed directory. -/
theorem blockTurn_encode (hm : m.InSpace) (hb : b.Inside m.size) (hsize : b.encode.length < 2 ^ 32)
    (hlast : headerSize < (b.encode ++ post).length) :
    blockTurn imageStream m.base diff (pre ++ (b.encode ++ post)) (pre.length, m) =
      .inl ((pre ++ b.encode).length, m.moved diff b.targets) := by
  have hcount := subEntriesCount_encode hsize
  have hlen : pre.length + headerSize < (pre ++ (b.encode ++ post)).length := by
    rw [List.length_append]
    omega
  have hfit : ¬ (pre ++ (b.encode ++ post)).length - pre.length < b.encode.length := by
    simp only [List.length_append]
    omega
  have hnext : ((pre.length : Int) + headerSize + 2 * (b.subEntries.length : Int)).toNat =
      (pre ++ b.encode).length := by
    rw [List.length_append, length_encode]
    omega
  unfold blockTurn
  dsimp only
  rw [if_pos hlen, sizeOfBlockAt_encode hsize, if_neg hfit, hcount, virtualAddressAt_encode,
    subEntriesAt_encode, processRelocationEntry_eq hm hb]
  dsimp only
  rw [hnext]
  rfl

/-- The walk from a block of a well-formed directory on. -/
theorem runFrom_encode (diff : Value) (pre : List Byte) (hm : m.InSpace)
    (hl : ∀ b ∈ l, b.Inside m.size) (hsize : (encodeBlocks l).length < 2 ^ 32)
    (k : Nat) :
    ∃ n, runFrom (fun _ => blockTurn imageStream m.base diff (pre ++ encodeBlocks l)) k n
    (pre.length, m) =
      .inr (.ok (), m.moved diff (targets l)) := by
  induction l generalizing m pre k with
  | nil =>
    refine ⟨1, runFrom_inr ?_⟩
    unfold blockTurn
    dsimp only
    rw [if_neg (by simp [encodeBlocks])]
    rfl
  | cons b l ih =>
    have henc : encodeBlocks (b :: l) = b.encode ++ encodeBlocks l := rfl
    have htargets : targets (b :: l) = b.targets ++ targets l := rfl
    rw [henc, List.length_append] at hsize
    by_cases hlast : headerSize < (b.encode ++ encodeBlocks l).length
    · obtain ⟨n, hn⟩ := ih (m := m.moved diff b.targets) (pre ++ b.encode) (moved_inSpace hm _)
        (fun b' hb' => hl b' (List.mem_cons_of_mem _ hb')) (by omega) (k + 1)
      refine ⟨n + 1, ?_⟩
      rw [henc, runFrom_inl (blockTurn_encode hm (hl b List.mem_cons_self) (by omega) hlast),
        htargets, Image.moved_append, ← List.append_assoc]
      exact hn
    · -- the header alone at the end of the directory
      have hb := length_encode b
      rw [List.length_append] at hlast
      have hentries : b.subEntries = [] := List.length_eq_zero_iff.1 (by omega)
      have hrest : l = [] := by
        cases l with
        | nil => rfl
        | cons b' l =>
          have hb' := length_encode b'
          have : (encodeBlocks (b' :: l)).length = b'.encode.length + (encodeBlocks l).length :=
            List.length_append
          rw [headerSize] at *
          omega
      subst hrest
      refine ⟨1, runFrom_inr ?_⟩
      unfold blockTurn
      dsimp only
      rw [if_neg (by simp only [henc, List.length_append]; omega)]
      simp [targets, Block.targets, hentries, Image.moved_nil]

end Walk

/-! ## The image after relocating -/

section Exact

variable {m : Image} {dir : Directory} {imageBase diff : Value} {l : List Block}

/-- A well-formed relocation directory of an image: blocks in the image, and targets in it that
neither overlap each other nor the directory. -/
structure WellFormed (m : Image) (dir : Directory) (l : List Block) : Prop where
  address : dir.virtualAddress ≠ 0
  size : dir.size.toNat = (encodeBlocks l).length
  inside : dir.virtualAddress.toNat + dir.size.toNat ≤ m.size
  content : window m.byte dir.virtualAddress.toNat dir.size.toNat = encodeBlocks l
  blocks : ∀ b ∈ l, b.Inside m.size
  disjoint : (targets l).Pairwise fun t u => t.rva + t.kind.width ≤ u.rva ∨
    u.rva + u.kind.width ≤ t.rva
  apart : ∀ t ∈ targets l, t.rva + t.kind.width ≤ dir.virtualAddress.toNat ∨
    dir.virtualAddress.toNat + dir.size.toNat ≤ t.rva

/-- What is allocated for the directory. -/
def Directory.Allocates (dir : Directory) : Prop := dir.size.toNat ≤ maxSafeAllocSize

theorem captureRelocs_eq (hm : m.InSpace) (hdir : WellFormed m dir l) (hsize : dir.size ≠ 0)
    (halloc : dir.Allocates) (hdiff : m.base - imageBase ≠ 0) :
    captureRelocs imageStream true dir imageBase m.base m = .ok (some (encodeBlocks l)) := by
  have hpos : 0 < dir.size.toNat := by
    refine Nat.pos_of_ne_zero fun h => hsize ?_
    exact BitVec.eq_of_toNat_eq h
  have hin := hdir.inside
  obtain ⟨-, hoff⟩ := safeAdd_of_inside dir.virtualAddress hm (by omega)
  unfold captureRelocs
  rw [if_neg (not_or.2 ⟨hsize, hdir.address⟩), if_neg hdiff, if_neg (Nat.not_lt.2 halloc),
    if_neg (by simp)]
  simp only [imageStream, hoff, if_pos hin, hdir.content, if_pos hdir.size.symm]

/-- `DianaPeFile_FixRelocs` on a well-formed directory changes its targets one after the other. -/
theorem fixRelocs_eq (imageBase : Value) (hm : m.InSpace) (hdir : WellFormed m dir l)
    (halloc : dir.Allocates) : ∃ fuel, fixRelocs imageStream true dir imageBase m.base fuel m =
      some (.ok (), m.moved (m.base - imageBase) (targets l)) := by
  by_cases hsize : dir.size = 0
  · have hlen : (encodeBlocks l).length = 0 := by rw [← hdir.size, hsize]; rfl
    have hl : l = [] := by
      cases l with
      | nil => rfl
      | cons b l =>
        have hb := length_encode b
        have : (encodeBlocks (b :: l)).length = b.encode.length + (encodeBlocks l).length :=
          List.length_append
        rw [headerSize] at hb
        omega
    subst hl
    refine ⟨0, ?_⟩
    unfold fixRelocs captureRelocs
    rw [if_pos (.inl hsize)]
    rfl
  · by_cases hdiff : m.base - imageBase = 0
    · -- nothing is done, and moving by 0 does nothing
      refine ⟨0, ?_⟩
      have hsame : m.moved 0 (targets l) = m := by
        have hbyte : applyAll ((targets l).map (Target.patch 0)) m.byte = m.byte := by
          refine applyAll_eq_self fun p hp w hw => ?_
          obtain ⟨t, -, rfl⟩ := List.mem_map.1 hp
          exact change_zero hw
        rw [Image.moved, hbyte]
      unfold fixRelocs captureRelocs
      rw [if_neg (not_or.2 ⟨hsize, hdir.address⟩), if_pos hdiff, hdiff]
      exact congrArg (fun m => some (Except.ok (), m)) hsame.symm
    · obtain ⟨n, hn⟩ := runFrom_encode (m.base - imageBase) [] hm hdir.blocks
        (by rw [← hdir.size]; exact dir.size.isLt) 0
      refine ⟨n, ?_⟩
      unfold fixRelocs
      rw [captureRelocs_eq hm hdir hsize halloc hdiff]
      exact Sum.getRight?_eq_some_iff.2 hn

/-- How a target is changed by a difference of the bases. -/
def Target.Moved (diff : Value) (m m' : Image) (t : Target) : Prop :=
  match t.kind with
  | .high => leNat (t.bytes m') = (leNat (t.bytes m) + diff.toNat / 2 ^ 16) % 2 ^ 16
  | .highLow => leNat (t.bytes m') = (leNat (t.bytes m) + diff.toNat) % 2 ^ 32
  | .thumbMov32 => thumbPair (t.bytes m') = thumbPair (t.bytes m) + diff.setWidth 32
  | .dir64 => leNat (t.bytes m') = (leNat (t.bytes m) + diff.toNat) % 2 ^ 64

theorem pairwise_patch (hdir : WellFormed m dir l) (diff : Value) :
    ((targets l).map (Target.patch diff)).Pairwise Patch.Disjoint :=
  List.pairwise_map.2 hdir.disjoint

theorem moved_target (hdir : WellFormed m dir l) {t : Target} (ht : t ∈ targets l) :
    t.Moved diff m (m.moved diff (targets l)) := by
  have hbytes : t.bytes (m.moved diff (targets l)) = t.kind.change diff (t.bytes m) :=
    window_applyAll (pairwise_patch hdir diff) (List.mem_map_of_mem ht)
  unfold Target.Moved
  rw [hbytes]
  cases t.kind with
  | high =>
    dsimp only
    rw [Kind.change, leNat_leBytes, toNat_high]
    omega
  | highLow =>
    dsimp only
    rw [Kind.change, leNat_leBytes, BitVec.toNat_add, BitVec.toNat_ofNat, BitVec.toNat_setWidth]
    omega
  | thumbMov32 => exact thumbPair_change diff _
  | dir64 =>
    dsimp only
    rw [Kind.change, leNat_leBytes, BitVec.toNat_add, BitVec.toNat_ofNat]
    omega

/-- Relocating leaves a well-formed directory as it is. -/
theorem WellFormed.moved (hdir : WellFormed m dir l) (diff : Value) :
    WellFormed (m.moved diff (targets l)) dir l where
  address := hdir.address
  size := hdir.size
  inside := hdir.inside
  content := by
    rw [← hdir.content]
    refine window_congr fun i h1 h2 => applyAll_outside fun p hp => ?_
    obtain ⟨t, ht, rfl⟩ := List.mem_map.1 hp
    rintro ⟨hlo, hhi⟩
    have hapart := hdir.apart t ht
    simp only [Target.patch] at hlo hhi
    omega
  blocks := hdir.blocks
  disjoint := hdir.disjoint
  apart := hdir.apart

theorem WellFormed.rebase (hdir : WellFormed m dir l) (base : Value) :
    WellFormed { m with base := base } dir l :=
  ⟨hdir.address, hdir.size, hdir.inside, hdir.content, hdir.blocks, hdir.disjoint, hdir.apart⟩

/-- Relocating a well-formed image moves every target by the difference of the bases and changes no
other byte. Relocating the result back restores the image, if no target is a high half alone or the
difference is a multiple of 64 KiB. -/
theorem fixRelocs_exact (m : Image) (dir : Directory) (imageBase : Value) (l : List Block)
    (hm : m.InSpace) (hold : { m with base := imageBase }.InSpace) (hdir : WellFormed m dir l)
    (halloc : dir.Allocates) :
    ∃ m' : Image,
    (∃ fuel, fixRelocs imageStream true dir imageBase m.base fuel m = some (.ok (), m')) ∧
      (∀ t ∈ targets l, t.Moved (m.base - imageBase) m m') ∧
      (∀ i, (∀ t ∈ targets l, ¬ (t.rva ≤ i ∧ i < t.rva + t.kind.width)) → m'.byte i = m.byte i) ∧
      ((∀ t ∈ targets l, t.kind = .high → (m.base - imageBase).toNat % 2 ^ 16 = 0) →
        ∃ fuel, fixRelocs imageStream true dir m.base imageBase fuel { m' with base := imageBase } =
          some (.ok (), { m with base := imageBase })) := by
  obtain ⟨n, hn⟩ := fixRelocs_eq imageBase hm hdir halloc
  refine ⟨m.moved (m.base - imageBase) (targets l), ⟨n, hn⟩, fun t ht => moved_target hdir ht,
    fun i hi => ?_, fun hhigh => ?_⟩
  · refine applyAll_outside fun p hp => ?_
    obtain ⟨t, ht, rfl⟩ := List.mem_map.1 hp
    exact hi t ht
  · obtain ⟨k, hk⟩ :=
      fixRelocs_eq m.base (m := { m.moved (m.base - imageBase) (targets l) with base := imageBase })
      hold ((hdir.moved _).rebase imageBase) halloc
    refine ⟨k, hk.trans ?_⟩
    have hneg : imageBase - m.base = -(m.base - imageBase) := by
      rw [BitVec.neg_sub, BitVec.add_comm, ← BitVec.sub_eq_add_neg]
    have hundo := applyAll_undo (m := m.byte) (g := Target.patch (-(m.base - imageBase)))
      (pairwise_patch hdir (m.base - imageBase))
      fun t ht => ⟨rfl, rfl, fun w hw => change_neg (hhigh t ht) hw⟩
    simp only [Image.moved, hneg, hundo]

end Exact

section Example

/-- 64 bytes with a directory of one block at offset 32, behind a header and two words. -/
def sampleImage (subEntry : BitVec 16) : Image where
  base := 0x500000
  size := 64
  byte i :=
    (([0x4D, 0x5A, 0x90, 0, 0, 0, 0, 0, 0, 0, 0, 0, 0, 0, 0, 0, 0x00, 0x10, 0x40, 0, 0, 0, 0, 0,
    0, 0, 0, 0, 0, 0, 0, 0] ++ encodeBlocks [⟨0, [subEntry, 0]⟩])[i]?).getD 0

/-- One `HIGHLOW` target, at offset 16. -/
theorem fixRelocs_exact_sample : ∃ m' : Image,
    (∃ fuel, fixRelocs imageStream true ⟨32, 12⟩ 0x400000 0x500000 fuel (sampleImage 0x3010) =
      some (.ok (), m')) ∧ leNat (window m'.byte 16 4) = 0x501000 := by
  have htargets : targets [⟨0, [0x3010, 0]⟩] = [⟨.highLow, 16⟩] := rfl
  have hdir : WellFormed (sampleImage 0x3010) ⟨32, 12⟩ [⟨0, [0x3010, 0]⟩] :=
    { address := by decide
      size := rfl
      inside := by decide
      content := rfl
      blocks := by
        intro b hb e he
        obtain rfl := List.mem_singleton.1 hb
        simp only [List.mem_cons, List.not_mem_nil, or_false] at he
        rcases he with rfl | rfl
        · exact ⟨by decide, fun t ht => by cases ht; exact Nat.le_of_ble_eq_true rfl⟩
        · exact ⟨by decide, fun t ht => by cases ht⟩
      disjoint := by
        rw [htargets]
        exact List.pairwise_singleton _ _
      apart := by
        rw [htargets]
        intro t ht
        obtain rfl := List.mem_singleton.1 ht
        exact .inl (by decide) }
  obtain ⟨m', hrun, hmoved, -⟩ :=
    fixRelocs_exact (sampleImage 0x3010) ⟨32, 12⟩ 0x400000 [⟨0, [0x3010, 0]⟩]
    (by unfold Image.InSpace; decide) (by unfold Image.InSpace; decide) hdir
    (by unfold Directory.Allocates; decide)
  have hmem : (⟨.highLow, 16⟩ : Target) ∈ targets [⟨0, [0x3010, 0]⟩] := by
    rw [htargets]; exact List.mem_singleton_self _
  exact ⟨m', hrun, hmoved ⟨.highLow, 16⟩ hmem⟩

/-- A `HIGHLOW` target at offset 0 is left as it is; and a `HIGH` entry changes bytes, too, and the
change is not undone by the opposite difference. -/
theorem fixRelocs_not_plain :
    (∃ fuel, fixRelocs imageStream true ⟨32, 12⟩ 0x400000 0x500000 fuel (sampleImage 0x3000) =
      some (.ok (), sampleImage 0x3000)) ∧
    (leNat (window (sampleImage 0x3000).byte 0 4) ≠
      (leNat (window (sampleImage 0x3000).byte 0 4) + 0x100000) % 2 ^ 32) ∧
    ∃ fuel m' fuel' m'',
      fixRelocs imageStream true ⟨32, 12⟩ 0x3F8000 0x500000 fuel (sampleImage 0x1010) = some
      (.ok (), m') ∧
      fixRelocs imageStream true ⟨32, 12⟩ 0x500000 0x3F8000 fuel'
      { m' with base := 0x3F8000 } = some (.ok (), m'') ∧
      m'.byte 16 ≠ (sampleImage 0x1010).byte 16 ∧ m''.byte 16 ≠ (sampleImage 0x1010).byte 16 := by
  refine ⟨⟨2, rfl⟩, by decide, 2, _, 2, _, rfl, rfl, by decide, by decide⟩

end Example

end Diana.Pe
