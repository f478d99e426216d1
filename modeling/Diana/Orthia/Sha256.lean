import Diana.Lib.BlockStream
import Diana.Lib.Sha256
import Diana.Orthia.CommonFormat

/-!
# `CSha256`

`orthia_sha256.cpp` takes a message in pieces and hashes it as the standard does.

* `transform_eq`: `Transform` is the step of the standard;
* `update_toStream`: `Update` takes the bytes one after the other;
* `finishHex_updates`: the digest of the pieces put together.
-/

namespace Diana.Orthia

open Diana.Lib
open Diana.Lib.Sha256 (Word Hash)

/-! ## `Transform` -/

def c_k : List Word := [
  0x428a2f98, 0x71374491, 0xb5c0fbcf, 0xe9b5dba5, 0x3956c25b, 0x59f111f1, 0x923f82a4, 0xab1c5ed5,
  0xd807aa98, 0x12835b01, 0x243185be, 0x550c7dc3, 0x72be5d74, 0x80deb1fe, 0x9bdc06a7, 0xc19bf174,
  0xe49b69c1, 0xefbe4786, 0x0fc19dc6, 0x240ca1cc, 0x2de92c6f, 0x4a7484aa, 0x5cb0a9dc, 0x76f988da,
  0x983e5152, 0xa831c66d, 0xb00327c8, 0xbf597fc7, 0xc6e00bf3, 0xd5a79147, 0x06ca6351, 0x14292967,
  0x27b70a85, 0x2e1b2138, 0x4d2c6dfc, 0x53380d13, 0x650a7354, 0x766a0abb, 0x81c2c92e, 0x92722c85,
  0xa2bfe8a1, 0xa81a664b, 0xc24b8b70, 0xc76c51a3, 0xd192e819, 0xd6990624, 0xf40e3585, 0x106aa070,
  0x19a4c116, 0x1e376c08, 0x2748774c, 0x34b0bcb5, 0x391c0cb3, 0x4ed8aa4a, 0x5b9cca4f, 0x682e6ff3,
  0x748f82ee, 0x78a5636f, 0x84c87814, 0x8cc70208, 0x90befffa, 0xa4506ceb, 0xbef9a3f7, 0xc67178f2]

/-- `Rotr` -/
def rotr (value : Word) (bits : Nat) : Word := value >>> bits ||| value <<< (32 - bits)

/-- `w[i]` from the block. -/
def loadWord (block : List Byte) (i : Nat) : Word :=
  (block.getD (i * 4) 0).setWidth 32 <<< 24 ||| (block.getD (i * 4 + 1) 0).setWidth 32 <<< 16 |||
    (block.getD (i * 4 + 2) 0).setWidth 32 <<< 8 ||| (block.getD (i * 4 + 3) 0).setWidth 32

/-- `w[i]` from the words before it. -/
def extendWords (w : List Word) (i : Nat) : List Word :=
  let s0 := rotr (w.getD (i - 15) 0) 7 ^^^ rotr (w.getD (i - 15) 0) 18 ^^^ w.getD (i - 15) 0 >>> 3
  let s1 := rotr (w.getD (i - 2) 0) 17 ^^^ rotr (w.getD (i - 2) 0) 19 ^^^ w.getD (i - 2) 0 >>> 10
  w ++ [w.getD (i - 16) 0 + s0 + w.getD (i - 7) 0 + s1]

/-- The array `w`. -/
def blockWords (block : List Byte) : List Word :=
  (List.range' 16 48).foldl extendWords ((List.range 16).map (loadWord block))

/-- One turn of the loop over `w`. -/
def transformRound (w : List Word) (v : Hash) (i : Nat) : Hash :=
  let s1 := rotr v.e 6 ^^^ rotr v.e 11 ^^^ rotr v.e 25
  let ch := (v.e &&& v.f) ^^^ (~~~v.e &&& v.g)
  let t1 := v.h + s1 + ch + c_k.getD i 0 + w.getD i 0
  let s0 := rotr v.a 2 ^^^ rotr v.a 13 ^^^ rotr v.a 22
  let maj := (v.a &&& v.b) ^^^ (v.a &&& v.c) ^^^ (v.b &&& v.c)
  let t2 := s0 + maj
  { h := v.g, g := v.f, f := v.e, e := v.d + t1, d := v.c, c := v.b, b := v.a, a := t1 + t2 }

/-- `Transform`: `m_state` after it. -/
def transform (m_state : Hash) (block : List Byte) : Hash :=
  let v := (List.range 64).foldl (transformRound (blockWords block)) m_state
  { a := m_state.a + v.a, b := m_state.b + v.b, c := m_state.c + v.c, d := m_state.d + v.d
    e := m_state.e + v.e, f := m_state.f + v.f, g := m_state.g + v.g, h := m_state.h + v.h }

section Transform

theorem c_k_eq : c_k = (List.range 64).map Sha256.constant := by decide +kernel

theorem getD_map_range {α : Type} (f : Nat → α) {n i : Nat} (h : i < n) (d : α) :
    ((List.range n).map f).getD i d = f i := by
  rw [List.getD_eq_getElem?_getD, List.getElem?_map, List.getElem?_range h]
  rfl

theorem rotr_eq (value : Word) {bits : Nat} (h : bits < 32) :
    rotr value bits = value.rotateRight bits := by
  unfold rotr BitVec.rotateRight BitVec.rotateRightAux
  rw [Nat.mod_eq_of_lt h]

/-- A sum whose parts share no bits. -/
theorem mul_or {A b k : Nat} (h : b < 2 ^ k) : A * 2 ^ k ||| b = A * 2 ^ k + b := by
  rw [← Nat.shiftLeft_eq, Nat.shiftLeft_add_eq_or_of_lt h]

theorem loadWord_eq (block : List Byte) (i : Nat) : loadWord block i = Sha256.wordAt block i := by
  unfold loadWord Sha256.wordAt
  rw [Nat.mul_comm i 4]
  have hlt := fun k => (block.getD (4 * i + k) 0).isLt
  have h0 := hlt 0
  have h1 := hlt 1
  have h2 := hlt 2
  have h3 := hlt 3
  rw [Nat.add_zero] at h0
  revert h0 h1 h2 h3
  generalize block.getD (4 * i) 0 = b0
  generalize block.getD (4 * i + 1) 0 = b1
  generalize block.getD (4 * i + 2) 0 = b2
  generalize block.getD (4 * i + 3) 0 = b3
  intro h0 h1 h2 h3
  have hsum : b0.toNat * 2 ^ 24 ||| b1.toNat * 2 ^ 16 ||| b2.toNat * 2 ^ 8 ||| b3.toNat =
      b0.toNat * 2 ^ 24 + b1.toNat * 2 ^ 16 + b2.toNat * 2 ^ 8 + b3.toNat := by
    rw [mul_or (by omega),
      show b0.toNat * 2 ^ 24 + b1.toNat * 2 ^ 16 = (b0.toNat * 2 ^ 8 + b1.toNat) * 2 ^ 16 by omega,
      mul_or (by omega), show (b0.toNat * 2 ^ 8 + b1.toNat) * 2 ^ 16 + b2.toNat * 2 ^ 8 =
        (b0.toNat * 2 ^ 16 + b1.toNat * 2 ^ 8 + b2.toNat) * 2 ^ 8 by omega, mul_or (by omega)]
  apply BitVec.eq_of_toNat_eq
  simp only [BitVec.toNat_or, BitVec.toNat_shiftLeft, BitVec.toNat_setWidth, BitVec.toNat_ofNat,
    Nat.shiftLeft_eq]
  rw [show b0.toNat % 2 ^ 32 * 2 ^ 24 % 2 ^ 32 = b0.toNat * 2 ^ 24 by omega,
    show b1.toNat % 2 ^ 32 * 2 ^ 16 % 2 ^ 32 = b1.toNat * 2 ^ 16 by omega,
    show b2.toNat % 2 ^ 32 * 2 ^ 8 % 2 ^ 32 = b2.toNat * 2 ^ 8 by omega,
    show b3.toNat % 2 ^ 32 = b3.toNat by omega, hsum]
  omega

theorem blockWords_eq (block : List Byte) :
    blockWords block = (List.range 64).map (Sha256.schedule block) := by
  have hload : (List.range 16).map (loadWord block) =
      (List.range 16).map (Sha256.schedule block) := by
    refine List.map_congr_left fun i hi => ?_
    rw [loadWord_eq, Sha256.schedule, if_pos (List.mem_range.1 hi)]
  have hextend : ∀ n, (List.range' 16 n).foldl extendWords
    ((List.range 16).map (Sha256.schedule block)) =
      (List.range (16 + n)).map (Sha256.schedule block) := by
    intro n
    induction n with
    | zero => rfl
    | succ n ih =>
      rw [List.range'_1_concat, List.foldl_append, ih, List.foldl_cons, List.foldl_nil,
        ← Nat.add_assoc, List.range_succ, List.map_append, List.map_singleton]
      unfold extendWords
      rw [getD_map_range _ (by omega), getD_map_range _ (by omega), getD_map_range _ (by omega),
        getD_map_range _ (by omega), rotr_eq _ (by decide), rotr_eq _ (by decide),
        rotr_eq _ (by decide), rotr_eq _ (by decide), @Sha256.schedule.eq_def block (16 + n),
        if_neg (by omega)]
      refine congrArg (fun x => _ ++ [x]) ?_
      unfold Sha256.smallSigma0 Sha256.smallSigma1
      ac_rfl
  unfold blockWords
  rw [hload]
  exact hextend 48

/-- The rounds are the ones of the standard. -/
theorem foldl_transformRound (block : List Byte) (H : Hash) {n : Nat} (h : n ≤ 64) :
    (List.range n).foldl (transformRound (blockWords block)) H = Sha256.rounds block H n := by
  induction n with
  | zero => rfl
  | succ n ih =>
    rw [List.range_succ, List.foldl_append, ih (by omega), List.foldl_cons, List.foldl_nil,
      Sha256.rounds]
    unfold transformRound Sha256.round
    rw [blockWords_eq, c_k_eq, getD_map_range _ h, getD_map_range _ h]
    simp only [rotr_eq _ (show 6 < 32 by decide), rotr_eq _ (show 11 < 32 by decide),
      rotr_eq _ (show 25 < 32 by decide), rotr_eq _ (show 2 < 32 by decide),
      rotr_eq _ (show 13 < 32 by decide), rotr_eq _ (show 22 < 32 by decide)]
    rfl

/-- `Transform` is the step of the standard. -/
theorem transform_eq (H : Hash) (block : List Byte) :
    transform H block = Sha256.compress H block := by
  unfold transform Sha256.compress
  rw [foldl_transformRound block H (Nat.le_refl 64)]
  simp only [BitVec.add_comm]

end Transform

/-! ## The object -/

/-- `CSha256`: `block` is the first `m_blockSize` bytes of `m_block`, which is never full. -/
structure CSha256 where
  state : Hash
  block : List Byte
  blockSize_lt : block.length < 64
  totalSize : BitVec 64
  deriving DecidableEq

def CSha256.new : CSha256 where
  state := ⟨0x6a09e667, 0xbb67ae85, 0x3c6ef372, 0xa54ff53a, 0x510e527f, 0x9b05688c,
    0x1f83d9ab, 0x5be0cd19⟩
  block := []
  blockSize_lt := by decide
  totalSize := 0

/-- Some bytes go to the block, which is transformed when it is full. -/
def CSha256.take (s : CSha256) (part : List Byte) (h : s.block.length + part.length ≤ 64) :
    CSha256 :=
  if hfull : s.block.length + part.length = 64 then
    { s with state := transform s.state (s.block ++ part), block := [], blockSize_lt := by decide }
  else { s with block := s.block ++ part, blockSize_lt := by rw [List.length_append]; omega }

/-- The loop of `Update`. A turn takes a byte at least, so `size` turns are enough. -/
def CSha256.updateLoop : (size : Nat) → CSha256 → List Byte → CSha256
  | 0, s, _ => s
  | size + 1, s, bytes =>
    if bytes = [] then s
    else
      let part := bytes.take (64 - s.block.length)
      have h : s.block.length + part.length ≤ 64 := by
        have hlt := s.blockSize_lt
        simp only [part, List.length_take]
        omega
      updateLoop size (s.take part h) (bytes.drop part.length)

/-- `Update` -/
def CSha256.update (s : CSha256) (data : List Byte) : CSha256 :=
  updateLoop data.length { s with totalSize := s.totalSize + BitVec.ofNat 64 data.length } data

/-- The loop of `FinishHex` that adds zeros, or nothing when it has not come to an end. -/
def CSha256.padLoop : (turns : Nat) → CSha256 → Option CSha256
  | 0, _ => none
  | turns + 1, s => if s.block.length ≠ 56 then padLoop turns (s.update [0]) else some s

/-- `digits[n]` -/
def lowerDigit (n : Nat) : Byte := (ascii "0123456789abcdef").getD n 0

/-- `m_state` as text. -/
def stateText (H : Hash) : List Byte :=
  H.words.flatMap fun w => [28, 24, 20, 16, 12, 8, 4, 0].map fun shift =>
    lowerDigit ((w >>> shift) &&& 0xF).toNat

/-- `FinishHex` -/
def CSha256.finishHex (s : CSha256) : Option (List Byte) := do
  let bits := s.totalSize * 8
  let s ← (s.update [0x80]).padLoop 64
  let length := (List.range 8).map fun i => (bits >>> (56 - i * 8)).setWidth 8
  some (stateText (s.update length).state)

/-- `Sha256Hex` -/
def sha256Hex (data : List Byte) : Option (List Byte) := (CSha256.new.update data).finishHex

example : sha256Hex (ascii "abc") =
    some (ascii "ba7816bf8f01cfea414140de5dae2223b00361a396177a9cb410ff61f20015ad") := by
  decide +kernel

section Object

/-- The state and the bytes that wait. -/
def CSha256.toStream (s : CSha256) : Stream Hash Byte 64 := ⟨s.state, s.block, s.blockSize_lt⟩

/-- Nothing taken. -/
def initialStream : Stream Hash Byte 64 := Stream.new Sha256.initial (by decide)

theorem new_toStream : CSha256.new.toStream = initialStream := by
  have hstate : CSha256.new.state = Sha256.initial := by decide +kernel
  unfold CSha256.toStream initialStream Stream.new
  simp only [hstate]
  rfl

variable {s : CSha256}

theorem take_toStream {part : List Byte} (h : s.block.length + part.length ≤ 64) :
    (s.take part h).toStream = s.toStream.feed Sha256.compress part ∧
    (s.take part h).totalSize = s.totalSize := by
  unfold CSha256.take
  split
  · next hfull =>
    have hfeed := @Stream.feed_of_eq _ _ _ Sha256.compress s.toStream part hfull
    rw [hfeed]
    unfold CSha256.toStream
    simp only [transform_eq, and_self]
  · next hfull =>
    have hlt : s.block.length + part.length < 64 := by omega
    have hfeed := @Stream.feed_of_lt _ _ _ Sha256.compress s.toStream part hlt
    rw [hfeed]
    exact ⟨rfl, rfl⟩

/-- The turns take all the bytes. -/
theorem updateLoop_toStream {size : Nat} {bytes : List Byte} (h : bytes.length ≤ size) :
    (CSha256.updateLoop size s bytes).toStream = s.toStream.feed Sha256.compress bytes ∧
      (CSha256.updateLoop size s bytes).totalSize = s.totalSize := by
  induction size generalizing s bytes with
  | zero =>
    obtain rfl := List.length_eq_zero_iff.1 (Nat.le_zero.1 h)
    exact ⟨rfl, rfl⟩
  | succ size ih =>
    unfold CSha256.updateLoop
    split
    · next hnil =>
      subst hnil
      exact ⟨rfl, rfl⟩
    · next hne =>
      have hlt := s.blockSize_lt
      have hpos : 0 < bytes.length := List.length_pos_iff.2 hne
      have hpart : s.block.length + (bytes.take (64 - s.block.length)).length ≤ 64 := by
        rw [List.length_take]
        omega
      have hrest : (bytes.drop (bytes.take (64 - s.block.length)).length).length ≤ size := by
        rw [List.length_drop, List.length_take]
        omega
      have hsplit : bytes.take (64 - s.block.length) ++ bytes.drop
          (bytes.take (64 - s.block.length)).length = bytes := by
        rcases Nat.le_total (64 - s.block.length) bytes.length with hle | hle
        · rw [List.length_take, Nat.min_eq_left hle, List.take_append_drop]
        · rw [List.take_of_length_le hle, List.drop_length, List.append_nil]
      obtain ⟨htake, htotal⟩ := take_toStream hpart
      obtain ⟨hloop, hsame⟩ := @ih (s.take _ hpart) _ hrest
      dsimp only
      rw [hloop, hsame, htake, htotal, ← Stream.feed_append, hsplit]
      exact ⟨rfl, rfl⟩

/-- `Update` takes the bytes one after the other. -/
theorem update_toStream (s : CSha256) (data : List Byte) :
    (s.update data).toStream = s.toStream.feed Sha256.compress data ∧
      (s.update data).totalSize = s.totalSize + BitVec.ofNat 64 data.length :=
  updateLoop_toStream (Nat.le_refl _)

theorem eq_of_toStream {s t : CSha256} (hs : s.toStream = t.toStream)
    (ht : s.totalSize = t.totalSize) : s = t := by
  cases s
  cases t
  unfold CSha256.toStream at hs
  simp_all

theorem update_append (s : CSha256) (l l' : List Byte) :
    s.update (l ++ l') = (s.update l).update l' := by
  obtain ⟨hstream, htotal⟩ := update_toStream s l
  obtain ⟨hstream', htotal'⟩ := update_toStream (s.update l) l'
  obtain ⟨hboth, hsum⟩ := update_toStream s (l ++ l')
  refine eq_of_toStream ?_ ?_
  · rw [hboth, hstream', hstream, Stream.feed_append]
  · rw [hsum, htotal', htotal, List.length_append, BitVec.ofNat_add, BitVec.add_assoc]

/-- The pieces do not matter. -/
theorem foldl_update (pieces : List (List Byte)) (s : CSha256) :
    pieces.foldl CSha256.update s = s.update pieces.flatten := by
  induction pieces generalizing s with
  | nil =>
    obtain ⟨hstream, htotal⟩ := update_toStream s []
    exact (eq_of_toStream hstream (htotal.trans (BitVec.add_zero _))).symm
  | cons piece pieces ih => rw [List.foldl_cons, ih, List.flatten_cons, update_append]

theorem length_block (s : CSha256) (data : List Byte) :
    (s.update data).block.length = (s.block.length + data.length) % 64 := by
  have hstream := (update_toStream s data).1
  have hrest : (s.update data).block = (s.toStream.feed Sha256.compress data).rest := by
    rw [← hstream]
    rfl
  rw [hrest, Stream.length_rest_feed]
  rfl

/-- The loop of `FinishHex` adds as many zeros as are missing. -/
theorem padLoop_eq {turns k : Nat} (ht : k < turns) (hk : k = (56 + 64 - s.block.length) % 64) :
    ∃ t, s.padLoop turns = some t ∧ t.toStream = s.toStream.feed Sha256.compress
    (List.replicate k 0) := by
  induction turns generalizing s k with
  | zero => omega
  | succ turns ih =>
    have hlt := s.blockSize_lt
    unfold CSha256.padLoop
    by_cases hend : s.block.length = 56
    · obtain rfl : k = 0 := by omega
      rw [if_neg (not_not_intro hend)]
      exact ⟨s, rfl, rfl⟩
    · have hblock := length_block s [0]
      rw [List.length_singleton] at hblock
      obtain ⟨k, rfl⟩ : ∃ n, k = n + 1 := ⟨k - 1, by omega⟩
      obtain ⟨t, ht', hstream⟩ := @ih (s.update [0]) k (by omega) (by omega)
      rw [if_pos hend]
      refine ⟨t, ht', ?_⟩
      rw [hstream, (update_toStream s [0]).1, ← Stream.feed_append]
      rfl

theorem lowerDigit_eq : ∀ d < 16, lowerDigit d = Sha256.hexDigit d := by decide

theorem shift_digit (w : Word) (shift : Nat) :
    ((w >>> shift) &&& 0xF).toNat = w.toNat / 2 ^ shift % 16 := by
  rw [BitVec.toNat_and, BitVec.toNat_ushiftRight, Nat.shiftRight_eq_div_pow]
  exact Nat.and_two_pow_sub_one_eq_mod _ 4

/-- The digits of the words are the ones of their bytes. -/
theorem stateText_eq (H : Hash) : stateText H = Sha256.hex H.bytes := by
  unfold stateText Sha256.hex Hash.bytes
  rw [List.flatMap_assoc]
  refine List.flatMap_congr fun w _ => ?_
  have hw := w.isLt
  have hdigit : ∀ shift, lowerDigit ((w >>> shift) &&& 0xF).toNat =
      Sha256.hexDigit (w.toNat / 2 ^ shift % 16) := by
    intro shift
    rw [shift_digit, lowerDigit_eq _ (Nat.mod_lt _ (by decide))]
  simp only [hdigit, List.map_cons, List.map_nil]
  show _ = Sha256.hex (Sha256.wordBytes w)
  have hbytes : Sha256.wordBytes w = [BitVec.ofNat 8 (w.toNat / 256 ^ 3),
    BitVec.ofNat 8 (w.toNat / 256 ^ 2),
      BitVec.ofNat 8 (w.toNat / 256 ^ 1), BitVec.ofNat 8 (w.toNat / 256 ^ 0)] := rfl
  rw [hbytes]
  unfold Sha256.hex
  simp only [List.flatMap_cons, List.flatMap_nil, List.append_nil, List.cons_append,
    List.nil_append, BitVec.toNat_ofNat, List.cons.injEq, and_true]
  refine ⟨?_, ?_, ?_, ?_, ?_, ?_, ?_, ?_⟩ <;> exact congrArg _ (by omega)

/-- The eight bytes of the length. -/
theorem lengthBytes_eq {n : Nat} (h : n < 2 ^ 61) :
    ((List.range 8).map fun i => ((BitVec.ofNat 64 n * 8) >>> (56 - i * 8)).setWidth 8) =
    Sha256.lengthBytes (8 * n) := by
  unfold Sha256.lengthBytes
  refine List.map_congr_left fun i hi => ?_
  have hi8 := List.mem_range.1 hi
  have hpow : 256 ^ (7 - i) = 2 ^ (56 - i * 8) := by
    rw [show (256 : Nat) = 2 ^ 8 by decide, ← Nat.pow_mul]
    exact congrArg _ (by omega)
  have hbits : (BitVec.ofNat 64 n * 8).toNat = 8 * n := by
    rw [BitVec.toNat_mul, BitVec.toNat_ofNat]
    show n % 2 ^ 64 * 8 % 2 ^ 64 = 8 * n
    omega
  apply BitVec.eq_of_toNat_eq
  rw [BitVec.toNat_setWidth, BitVec.toNat_ushiftRight, hbits, Nat.shiftRight_eq_div_pow,
    BitVec.toNat_ofNat, hpow]

theorem mem_hex {bytes : List Byte} {c : Byte} (h : c ∈ Sha256.hex bytes) :
    c ∈ ascii "0123456789abcdef" := by
  have hdigit : ∀ d < 16, Sha256.hexDigit d ∈ ascii "0123456789abcdef" := by decide
  obtain ⟨b, -, hb⟩ := List.mem_flatMap.1 h
  have hlt := b.isLt
  simp only [List.mem_cons, List.not_mem_nil, or_false] at hb
  rcases hb with rfl | rfl
  · exact hdigit _ (by omega)
  · exact hdigit _ (by omega)

/-- The digest of what an object has taken. -/
theorem finishHex_of_toStream {m : List Byte}
    (hs : s.toStream = initialStream.feed Sha256.compress m)
    (ht : s.totalSize = BitVec.ofNat 64 m.length) (hm : m.length < 2 ^ 61) :
    s.finishHex = some (Sha256.hex (Sha256.sha256 m)) := by
  have hblock : s.block.length = m.length % 64 := by
    have hrest : s.block = (initialStream.feed Sha256.compress m).rest := by
      rw [← hs]
      rfl
    rw [hrest, Stream.length_rest_feed]
    exact congrArg (· % 64) (Nat.zero_add _)
  have hone := length_block s [0x80]
  rw [List.length_singleton] at hone
  obtain ⟨t, hpad, hstream⟩ := @padLoop_eq (s.update [0x80]) 64 (Sha256.zeros m.length)
    (Nat.mod_lt _ (by decide)) (by unfold Sha256.zeros; omega)
  have hall : (t.update (Sha256.lengthBytes (8 * m.length))).toStream =
      initialStream.feed Sha256.compress (Sha256.pad m) := by
    unfold Sha256.pad
    rw [(update_toStream t _).1, hstream, (update_toStream s [0x80]).1, hs, ← Stream.feed_append,
      ← Stream.feed_append, ← Stream.feed_append]
    simp
  have hstate : (t.update (Sha256.lengthBytes (8 * m.length))).state =
      chain Sha256.compress 64 Sha256.initial (Sha256.pad m) ((Sha256.pad m).length / 64) := by
    rw [← (@feed_new _ _ 64 Sha256.compress Sha256.initial (by decide) (Sha256.pad m)).1]
    exact congrArg Stream.state hall
  unfold CSha256.finishHex
  rw [hpad, ht]
  simp only [Option.bind_eq_bind, Option.bind_some]
  rw [lengthBytes_eq hm, hstate, stateText_eq]
  rfl

end Object

/-- The digest of a message does not depend on the pieces it comes in, and is the one of the
standard, in 64 digits. -/
theorem finishHex_updates (pieces : List (List Byte)) (h : pieces.flatten.length < 2 ^ 61) :
    (pieces.foldl CSha256.update CSha256.new).finishHex = some
    (Sha256.hex (Sha256.sha256 pieces.flatten)) ∧
      (Sha256.hex (Sha256.sha256 pieces.flatten)).length = 64 ∧
      ∀ c ∈ Sha256.hex (Sha256.sha256 pieces.flatten), c ∈ ascii "0123456789abcdef" := by
  obtain ⟨hstream, htotal⟩ := update_toStream CSha256.new pieces.flatten
  have hzero : CSha256.new.totalSize = 0#64 := rfl
  rw [new_toStream] at hstream
  rw [hzero, BitVec.zero_add] at htotal
  rw [foldl_update]
  exact ⟨finishHex_of_toStream hstream htotal h, rfl, fun c hc => mem_hex hc⟩

/-- A piece, an empty one and another one. -/
theorem finishHex_updates_abc :
    ([[0x61], [], [0x62, 0x63]].foldl CSha256.update CSha256.new).finishHex =
      some (Sha256.hex (Sha256.sha256 [0x61, 0x62, 0x63])) :=
  (finishHex_updates [[0x61], [], [0x62, 0x63]] (by decide)).1

end Diana.Orthia
