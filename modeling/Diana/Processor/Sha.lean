import Diana.Lib.Sha1
import Diana.Processor.State

/-!
# The SHA instructions

The values that `sha1rnds4`, `sha1nexte`, `sha1msg1`, `sha1msg2`, `sha256rnds2`, `sha256msg1` and
`sha256msg2` compute, with `paddd`, `pxor`, `pshufd` and `palignr`, which go with them. They are run
in the order they are made for.

* `sha256Words_eq`, `sha1Words_eq`: the vectors of the message schedule;
* `sha256Rounds_eq`, `sha1Rounds_eq`: the state after each group of four rounds;
* `sha256Block_eq`, `sha1Block_eq`: a block is compressed as the standard does it.
-/

namespace Diana.Processor

open Diana.Lib
open Diana.Lib.Sha256 (Word)

/-! ## Vectors -/

/-- `DianaRegisterXMM_type` -/
abbrev Xmm := BitVec 128

/-- `u32[k]` -/
def u32 (value : Xmm) (k : Nat) : Word := value.extractLsb' (32 * k) 32

/-- `u8[k]` -/
def u8 (value : Xmm) (k : Nat) : Byte := value.extractLsb' (8 * k) 8

/-- The vector with these values for `u32[0]`, …, `u32[3]`. -/
def ofDwords (a b c d : Word) : Xmm := d ++ c ++ b ++ a

/-- The vector with these values for `u8[0]`, …, `u8[n - 1]`. -/
def ofBytes (f : Nat → Byte) : (n : Nat) → Xmm
  | 0 => 0
  | n + 1 => ofBytes f n ||| (f n).setWidth 128 <<< (8 * n)

/-- `Diana_Call_paddd` of 16 bytes -/
def padddValue (dest src : Xmm) : Xmm :=
  ofDwords (u32 dest 0 + u32 src 0) (u32 dest 1 + u32 src 1) (u32 dest 2 + u32 src 2)
    (u32 dest 3 + u32 src 3)

/-- `Diana_Call_pxor` of 16 bytes -/
def pxorValue (dest src : Xmm) : Xmm := dest ^^^ src

/-- `Diana_Call_pshufd` -/
def pshufdValue (src : Xmm) (order : Value) : Xmm :=
  ofDwords (u32 src (order &&& 0x03).toNat) (u32 src ((order &&& 0x0C) >>> 2).toNat)
    (u32 src ((order &&& 0x30) >>> 4).toNat) (u32 src ((order &&& 0xC0) >>> 6).toNat)

/-- `Diana_Call_palignr` of 16 bytes -/
def palignrValue (a b : Xmm) (imm : Value) : Xmm :=
  let shift := (imm &&& 0xff).toNat
  ofBytes (fun i => if shift + i < 32 then if shift + i < 16 then u8 b (shift + i)
    else u8 a (shift + i - 16) else 0) 16

/-! ## The instructions -/

/-- `Di_Rol` -/
def rol (value : Word) (count : Nat) : Word := value <<< count ||| value >>> (32 - count)

/-- `Di_Ror` -/
def ror (value : Word) (count : Nat) : Word := value >>> count ||| value <<< (32 - count)

/-- `f` of `Diana_Call_sha1rnds4` -/
def sha1Function : (function : Nat) → (b c d : Word) → Word
  | 0, b, c, d => (b &&& c) ^^^ (~~~b &&& d)
  | 2, b, c, d => (b &&& c) ^^^ (b &&& d) ^^^ (c &&& d)
  | _, b, c, d => b ^^^ c ^^^ d

/-- `constants` of `Diana_Call_sha1rnds4` -/
def sha1Constants : List Word := [0x5A827999, 0x6ED9EBA1, 0x8F1BBCDC, 0xCA62C1D6]

/-- A turn of the loop of `Diana_Call_sha1rnds4`. -/
def sha1rnds4Turn (function : Nat) (w : List Word) (v : Sha1.Hash) (i : Nat) : Sha1.Hash :=
  let f := sha1Function function v.b v.c v.d
  let k := sha1Constants.getD function 0
  let next := f + rol v.a 5 + w.getD i 0 + k + if i ≠ 0 then v.e else 0
  { e := v.d, d := v.c, c := rol v.b 30, b := v.a, a := next }

/-- `Diana_Call_sha1rnds4` -/
def sha1rnds4Value (dest src : Xmm) (imm : Value) : Xmm :=
  let v := (List.range 4).foldl
      (sha1rnds4Turn (imm &&& 3).toNat [u32 src 3, u32 src 2, u32 src 1, u32 src 0])
    ⟨u32 dest 3, u32 dest 2, u32 dest 1, u32 dest 0, 0⟩
  ofDwords v.d v.c v.b v.a

/-- `Diana_Call_sha1nexte` -/
def sha1nexteValue (dest src : Xmm) : Xmm :=
  ofDwords (u32 src 0) (u32 src 1) (u32 src 2) (u32 src 3 + rol (u32 dest 3) 30)

/-- `Diana_Call_sha1msg1` -/
def sha1msg1Value (dest src : Xmm) : Xmm :=
  ofDwords (u32 src 2 ^^^ u32 dest 0) (u32 src 3 ^^^ u32 dest 1) (u32 dest 0 ^^^ u32 dest 2)
    (u32 dest 1 ^^^ u32 dest 3)

/-- `Diana_Call_sha1msg2` -/
def sha1msg2Value (dest src : Xmm) : Xmm :=
  let w16 := rol (u32 dest 3 ^^^ u32 src 2) 1
  let w17 := rol (u32 dest 2 ^^^ u32 src 1) 1
  let w18 := rol (u32 dest 1 ^^^ u32 src 0) 1
  let w19 := rol (u32 dest 0 ^^^ w16) 1
  ofDwords w19 w18 w17 w16

/-- `Di_Sigma0` -/
def sigma0 (w : Word) : Word := ror w 7 ^^^ ror w 18 ^^^ w >>> 3

/-- `Di_Sigma1` -/
def sigma1 (w : Word) : Word := ror w 17 ^^^ ror w 19 ^^^ w >>> 10

/-- `Diana_Call_sha256msg1` -/
def sha256msg1Value (dest src : Xmm) : Xmm :=
  ofDwords (u32 dest 0 + sigma0 (u32 dest 1)) (u32 dest 1 + sigma0 (u32 dest 2))
    (u32 dest 2 + sigma0 (u32 dest 3)) (u32 dest 3 + sigma0 (u32 src 0))

/-- `Diana_Call_sha256msg2` -/
def sha256msg2Value (dest src : Xmm) : Xmm :=
  let w16 := u32 dest 0 + sigma1 (u32 src 2)
  let w17 := u32 dest 1 + sigma1 (u32 src 3)
  ofDwords w16 w17 (u32 dest 2 + sigma1 w16) (u32 dest 3 + sigma1 w17)

/-- `Di_Sha256Sum0` -/
def sha256Sum0 (a : Word) : Word := ror a 2 ^^^ ror a 13 ^^^ ror a 22

/-- `Di_Sha256Sum1` -/
def sha256Sum1 (e : Word) : Word := ror e 6 ^^^ ror e 11 ^^^ ror e 25

/-- A turn of the loop of `Diana_Call_sha256rnds2`. -/
def sha256rnds2Turn (wk : Word) (v : Sha256.Hash) : Sha256.Hash :=
  let t := ((v.e &&& v.f) ^^^ (~~~v.e &&& v.g)) + sha256Sum1 v.e + wk + v.h
  let nextA := t + ((v.a &&& v.b) ^^^ (v.a &&& v.c) ^^^ (v.b &&& v.c)) + sha256Sum0 v.a
  let nextE := t + v.d
  { h := v.g, g := v.f, f := v.e, e := nextE, d := v.c, c := v.b, b := v.a, a := nextA }

/-- `Diana_Call_sha256rnds2` -/
def sha256rnds2Value (dest src wk : Xmm) : Xmm :=
  let v := sha256rnds2Turn (u32 wk 1) (sha256rnds2Turn (u32 wk 0)
    ⟨u32 src 3, u32 src 2, u32 dest 3, u32 dest 2, u32 src 1, u32 src 0, u32 dest 1, u32 dest 0⟩)
  ofDwords v.f v.e v.b v.a

/-! ## Lanes -/

theorem getLsbD_u32 (value : Xmm) (k i : Nat) :
    (u32 value k).getLsbD i = (decide (i < 32) && value.getLsbD (32 * k + i)) :=
  BitVec.getLsbD_extractLsb' ..

theorem getLsbD_ofDwords (a b c d : Word) (j : Nat) :
    (ofDwords a b c d).getLsbD j =
      if j < 32 then a.getLsbD j else if j - 32 < 32 then b.getLsbD (j - 32)
        else if j - 32 - 32 < 32 then c.getLsbD (j - 32 - 32)
        else d.getLsbD (j - 32 - 32 - 32) := by
  have hdc : (d ++ c).getLsbD (j - 32 - 32) =
      if j - 32 - 32 < 32 then c.getLsbD (j - 32 - 32) else d.getLsbD (j - 32 - 32 - 32) :=
    BitVec.getLsbD_append
  have hdcb : (d ++ c ++ b).getLsbD (j - 32) =
      if j - 32 < 32 then b.getLsbD (j - 32) else (d ++ c).getLsbD (j - 32 - 32) :=
    BitVec.getLsbD_append
  have hall : (ofDwords a b c d).getLsbD j = if j < 32 then a.getLsbD j
      else (d ++ c ++ b).getLsbD (j - 32) :=
    BitVec.getLsbD_append
  rw [hall, hdcb, hdc]

@[simp] theorem u32_ofDwords_zero (a b c d : Word) : u32 (ofDwords a b c d) 0 = a := by
  apply BitVec.eq_of_getLsbD_eq
  intro i hi
  rw [getLsbD_u32, getLsbD_ofDwords, decide_eq_true hi, Bool.true_and, Nat.mul_zero,
    Nat.zero_add, if_pos hi]

@[simp] theorem u32_ofDwords_one (a b c d : Word) : u32 (ofDwords a b c d) 1 = b := by
  apply BitVec.eq_of_getLsbD_eq
  intro i hi
  rw [getLsbD_u32, getLsbD_ofDwords, decide_eq_true hi, Bool.true_and, if_neg (by omega),
    if_pos (by omega)]
  exact congrArg _ (by omega)

@[simp] theorem u32_ofDwords_two (a b c d : Word) : u32 (ofDwords a b c d) 2 = c := by
  apply BitVec.eq_of_getLsbD_eq
  intro i hi
  rw [getLsbD_u32, getLsbD_ofDwords, decide_eq_true hi, Bool.true_and, if_neg (by omega),
    if_neg (by omega), if_pos (by omega)]
  exact congrArg _ (by omega)

@[simp] theorem u32_ofDwords_three (a b c d : Word) : u32 (ofDwords a b c d) 3 = d := by
  apply BitVec.eq_of_getLsbD_eq
  intro i hi
  rw [getLsbD_u32, getLsbD_ofDwords, decide_eq_true hi, Bool.true_and, if_neg (by omega),
    if_neg (by omega), if_neg (by omega)]
  exact congrArg _ (by omega)

theorem getLsbD_ofBytes (f : Nat → Byte) {n : Nat} (hn : n ≤ 16) {j : Nat} (hj : j < 128) :
    (ofBytes f n).getLsbD j = (decide (j < 8 * n) && (f (j / 8)).getLsbD (j % 8)) := by
  induction n with
  | zero => simp [ofBytes]
  | succ n ih =>
    rw [ofBytes, BitVec.getLsbD_or, ih (by omega), BitVec.getLsbD_shiftLeft, decide_eq_true hj,
      Bool.true_and, BitVec.getLsbD_setWidth]
    by_cases hlow : j < 8 * n
    · simp [hlow, show j < 8 * (n + 1) by omega]
    · by_cases hhigh : j < 8 * (n + 1)
      · have hdiv : j / 8 = n := by omega
        have hmod : j - 8 * n = j % 8 := by omega
        simp [hlow, hhigh, hdiv, hmod, show j % 8 < 128 by omega]
      · simp [hlow, hhigh, BitVec.getLsbD_of_ge (f n) (j - 8 * n) (by omega)]

/-- A shift of whole lanes. -/
theorem palignrValue_four (a b : Xmm) :
    palignrValue a b 4 = ofDwords (u32 b 1) (u32 b 2) (u32 b 3) (u32 a 0) := by
  apply BitVec.eq_of_getLsbD_eq
  intro j hj
  have hshift : ((4 : Value) &&& 0xff).toNat = 4 := rfl
  have hbyte : ∀ (v : Xmm) (k : Nat), (u8 v k).getLsbD (j % 8) = v.getLsbD (8 * k + j % 8) :=
    fun v k => by
    rw [u8, BitVec.getLsbD_extractLsb', decide_eq_true (Nat.mod_lt j (by decide)), Bool.true_and]
  unfold palignrValue
  rw [getLsbD_ofBytes _ (Nat.le_refl 16) hj, decide_eq_true (by omega), Bool.true_and, hshift,
    if_pos (by omega), getLsbD_ofDwords]
  simp only [getLsbD_u32]
  by_cases hlow : 4 + j / 8 < 16
  · rw [if_pos hlow, hbyte, show 8 * (4 + j / 8) + j % 8 = 32 + j by omega]
    split
    · next h => rw [decide_eq_true h, Bool.true_and]
    · split
      · next h => rw [decide_eq_true h, Bool.true_and]; exact congrArg _ (by omega)
      · rw [if_pos (by omega), decide_eq_true (by omega), Bool.true_and]
        exact congrArg _ (by omega)
  · rw [if_neg hlow, hbyte, if_neg (by omega), if_neg (by omega), if_neg (by omega),
      decide_eq_true (by omega), Bool.true_and]
    exact congrArg _ (by omega)

theorem pshufdValue_high (src : Xmm) :
    pshufdValue src 0x0E = ofDwords (u32 src 2) (u32 src 3) (u32 src 0) (u32 src 0) := rfl

/-! ## SHA-256 -/

theorem rol_eq (value : Word) {count : Nat} (h : count < 32) :
    rol value count = value.rotateLeft count := by
  unfold rol BitVec.rotateLeft BitVec.rotateLeftAux
  rw [Nat.mod_eq_of_lt h]

theorem ror_eq (value : Word) {count : Nat} (h : count < 32) :
    ror value count = value.rotateRight count := by
  unfold ror BitVec.rotateRight BitVec.rotateRightAux
  rw [Nat.mod_eq_of_lt h]

theorem sigma0_eq (w : Word) : sigma0 w = Sha256.smallSigma0 w := by
  unfold sigma0 Sha256.smallSigma0
  rw [ror_eq w (by decide), ror_eq w (by decide)]

theorem sigma1_eq (w : Word) : sigma1 w = Sha256.smallSigma1 w := by
  unfold sigma1 Sha256.smallSigma1
  rw [ror_eq w (by decide), ror_eq w (by decide)]

theorem sha256Sum0_eq (a : Word) : sha256Sum0 a = Sha256.bigSigma0 a := by
  unfold sha256Sum0 Sha256.bigSigma0
  rw [ror_eq a (by decide), ror_eq a (by decide), ror_eq a (by decide)]

theorem sha256Sum1_eq (e : Word) : sha256Sum1 e = Sha256.bigSigma1 e := by
  unfold sha256Sum1 Sha256.bigSigma1
  rw [ror_eq e (by decide), ror_eq e (by decide), ror_eq e (by decide)]

/-- A turn is a round. -/
theorem sha256rnds2Turn_eq (K W : Word) (v : Sha256.Hash) :
    sha256rnds2Turn (W + K) v = Sha256.round K W v := by
  unfold sha256rnds2Turn Sha256.round Sha256.Ch Sha256.Maj
  rw [sha256Sum0_eq, sha256Sum1_eq]
  generalize (v.e &&& v.f) ^^^ (~~~v.e &&& v.g) = ch
  generalize (v.a &&& v.b) ^^^ (v.a &&& v.c) ^^^ (v.b &&& v.c) = maj
  simp only [Sha256.Hash.mk.injEq, and_true, true_and]
  constructor <;> ac_rfl

/-- The words `4 * k`, … of a sequence, the first of them lowest. -/
def vectorOf (f : Nat → Word) (k : Nat) :
    Xmm := ofDwords (f (4 * k)) (f (4 * k + 1)) (f (4 * k + 2)) (f (4 * k + 3))

/-- The vectors of the message schedule: four from the block, each other from the four before it. -/
def sha256Words (block : List Byte) (k : Nat) : Xmm :=
  if k < 4 then vectorOf (Sha256.wordAt block) k
  else
    sha256msg2Value
      (padddValue (sha256msg1Value (sha256Words block (k - 4)) (sha256Words block (k - 3)))
        (palignrValue (sha256Words block (k - 1)) (sha256Words block (k - 2)) 4))
      (sha256Words block (k - 1))

theorem sha256Words_eq (block : List Byte) (k : Nat) :
    sha256Words block k = vectorOf (Sha256.schedule block) k := by
  induction k using Nat.strongRecOn with
  | _ k ih =>
    rw [sha256Words]
    by_cases hk : k < 4
    · rw [if_pos hk]
      unfold vectorOf
      rw [Sha256.schedule_of_lt _ (by omega), Sha256.schedule_of_lt _ (by omega),
        Sha256.schedule_of_lt _ (by omega), Sha256.schedule_of_lt _ (by omega)]
    · obtain ⟨k, rfl⟩ : ∃ n, k = n + 4 := ⟨k - 4, by omega⟩
      have hword : ∀ t, Sha256.schedule block t + Sha256.smallSigma0
        (Sha256.schedule block (t + 1)) +
          Sha256.schedule block (t + 9) + Sha256.smallSigma1 (Sha256.schedule block (t + 14)) =
            Sha256.schedule block (t + 16) := by
        intro t
        rw [Sha256.schedule_of_le block (Nat.le_add_left 16 t), show t + 16 - 2 = t + 14 by omega,
          show t + 16 - 7 = t + 9 by omega, show t + 16 - 15 = t + 1 by omega, Nat.add_sub_cancel]
        ac_rfl
      have h0 := hword (4 * k)
      have h1 := hword (4 * k + 1)
      have h2 := hword (4 * k + 2)
      have h3 := hword (4 * k + 3)
      rw [if_neg hk, show k + 4 - 4 = k by omega, show k + 4 - 3 = k + 1 by omega,
        show k + 4 - 1 = k + 3 by omega, show k + 4 - 2 = k + 2 by omega, ih k (by omega),
        ih (k + 1) (by omega), ih (k + 2) (by omega), ih (k + 3) (by omega), palignrValue_four]
      unfold sha256msg2Value padddValue sha256msg1Value vectorOf
      simp only [u32_ofDwords_zero, u32_ofDwords_one, u32_ofDwords_two, u32_ofDwords_three,
        sigma0_eq, sigma1_eq]
      simp only [Nat.mul_add, Nat.reduceMul, Nat.add_assoc, Nat.reduceAdd] at h0 h1 h2 h3 ⊢
      rw [h0, h1, h2, h3]

/-! ### The rounds -/

/-- The halves of a state, as `sha256rnds2` takes them. -/
def abefOf (H : Sha256.Hash) : Xmm := ofDwords H.f H.e H.b H.a
def cdghOf (H : Sha256.Hash) : Xmm := ofDwords H.h H.g H.d H.c

/-- Two rounds: one half is the one that the instruction gives, the other is the one
that was new before. -/
theorem sha256rnds2Value_eq (W K W' K' y z : Word) (H : Sha256.Hash) :
    sha256rnds2Value (cdghOf H) (abefOf H) (ofDwords (W + K) (W' + K') y z) =
      abefOf (Sha256.round K' W' (Sha256.round K W H)) := by
  unfold sha256rnds2Value cdghOf
  conv_lhs => unfold abefOf
  simp only [u32_ofDwords_zero, u32_ofDwords_one, u32_ofDwords_two, u32_ofDwords_three,
    sha256rnds2Turn_eq]
  rfl

theorem cdghOf_two (W K W' K' : Word) (H : Sha256.Hash) :
    cdghOf (Sha256.round K' W' (Sha256.round K W H)) = abefOf H := rfl

/-- Four rounds with their words and constants, from the halves to the halves. -/
def sha256Group (wk abef cdgh : Xmm) : Xmm × Xmm :=
  let cdgh := sha256rnds2Value cdgh abef wk
  let abef := sha256rnds2Value abef cdgh (pshufdValue wk 0x0E)
  (abef, cdgh)

theorem sha256Group_eq (W0 K0 W1 K1 W2 K2 W3 K3 : Word) (H : Sha256.Hash) :
    sha256Group (ofDwords (W0 + K0) (W1 + K1) (W2 + K2) (W3 + K3)) (abefOf H) (cdghOf H) =
      (abefOf (Sha256.round K3 W3 (Sha256.round K2 W2 (Sha256.round K1 W1 (Sha256.round K0 W0 H)))),
        cdghOf
        (Sha256.round K3 W3 (Sha256.round K2 W2 (Sha256.round K1 W1 (Sha256.round K0 W0 H))))) := by
  unfold sha256Group
  dsimp only
  rw [sha256rnds2Value_eq, pshufdValue_high, u32_ofDwords_zero, u32_ofDwords_two,
    u32_ofDwords_three, ← cdghOf_two W0 K0 W1 K1 H, sha256rnds2Value_eq, cdghOf_two]

/-- The groups of the rounds. -/
def sha256Rounds (block : List Byte) (abef cdgh : Xmm) : Nat → Xmm × Xmm
  | 0 => (abef, cdgh)
  | k + 1 =>
    let r := sha256Rounds block abef cdgh k
    sha256Group (padddValue (sha256Words block k) (vectorOf Sha256.constant k)) r.1 r.2

theorem sha256Rounds_eq (block : List Byte) (H : Sha256.Hash) (k : Nat) :
    sha256Rounds block (abefOf H) (cdghOf H) k =
      (abefOf (Sha256.rounds block H (4 * k)), cdghOf (Sha256.rounds block H (4 * k))) := by
  induction k with
  | zero => rfl
  | succ k ih =>
    rw [sha256Rounds, ih, sha256Words_eq]
    unfold padddValue vectorOf
    simp only [u32_ofDwords_zero, u32_ofDwords_one, u32_ofDwords_two, u32_ofDwords_three,
      sha256Group_eq]
    rfl

/-- A block: the rounds, and the sums with the state before them. -/
def sha256Block (abef cdgh : Xmm) (block : List Byte) : Xmm × Xmm :=
  let r := sha256Rounds block abef cdgh 16
  (padddValue r.1 abef, padddValue r.2 cdgh)

/-- The instructions compress a block as the standard does. -/
theorem sha256Block_eq (H : Sha256.Hash) (block : List Byte) :
    sha256Block (abefOf H) (cdghOf H) block = (abefOf (Sha256.compress H block),
      cdghOf (Sha256.compress H block)) := by
  unfold sha256Block
  rw [sha256Rounds_eq]
  unfold padddValue abefOf cdghOf
  simp only [u32_ofDwords_zero, u32_ofDwords_one, u32_ofDwords_two, u32_ofDwords_three]
  rfl

/-! ## SHA-1 -/

theorem u32_pxorValue (a b : Xmm) (k : Nat) :
    u32 (pxorValue a b) k = u32 a k ^^^ u32 b k := BitVec.extractLsb'_xor

/-- The words `4 * k`, … of a sequence, the first of them highest. -/
def vectorDown (f : Nat → Word) (k : Nat) :
    Xmm := ofDwords (f (4 * k + 3)) (f (4 * k + 2)) (f (4 * k + 1)) (f (4 * k))

/-- The vectors of the message schedule: four from the block, each other from the four before it. -/
def sha1Words (block : List Byte) (k : Nat) : Xmm :=
  if k < 4 then vectorDown (Sha256.wordAt block) k
  else
    sha1msg2Value
      (pxorValue (sha1msg1Value (sha1Words block (k - 4)) (sha1Words block (k - 3)))
        (sha1Words block (k - 2)))
      (sha1Words block (k - 1))

theorem sha1Words_eq (block : List Byte) (k : Nat) :
    sha1Words block k = vectorDown (Sha1.schedule block) k := by
  induction k using Nat.strongRecOn with
  | _ k ih =>
    rw [sha1Words]
    by_cases hk : k < 4
    · rw [if_pos hk]
      unfold vectorDown
      rw [Sha1.schedule_of_lt _ (by omega), Sha1.schedule_of_lt _ (by omega),
        Sha1.schedule_of_lt _ (by omega), Sha1.schedule_of_lt _ (by omega)]
    · obtain ⟨k, rfl⟩ : ∃ n, k = n + 4 := ⟨k - 4, by omega⟩
      have hword : ∀ t,
        (Sha1.schedule block (t + 2) ^^^ Sha1.schedule block t ^^^ Sha1.schedule block (t + 8) ^^^
          Sha1.schedule block (t + 13)).rotateLeft 1 = Sha1.schedule block (t + 16) := by
        intro t
        rw [Sha1.schedule_of_le block (Nat.le_add_left 16 t), show t + 16 - 3 = t + 13 by omega,
          show t + 16 - 8 = t + 8 by omega, show t + 16 - 14 = t + 2 by omega, Nat.add_sub_cancel]
        congr 1
        ac_rfl
      have h0 := hword (4 * k)
      have h1 := hword (4 * k + 1)
      have h2 := hword (4 * k + 2)
      have h3 := hword (4 * k + 3)
      rw [if_neg hk, show k + 4 - 4 = k by omega, show k + 4 - 3 = k + 1 by omega,
        show k + 4 - 1 = k + 3 by omega, show k + 4 - 2 = k + 2 by omega, ih k (by omega),
        ih (k + 1) (by omega), ih (k + 2) (by omega), ih (k + 3) (by omega)]
      unfold sha1msg2Value
      simp only [u32_pxorValue, rol_eq _ (show 1 < 32 by decide)]
      unfold sha1msg1Value vectorDown
      simp only [u32_ofDwords_zero, u32_ofDwords_one, u32_ofDwords_two, u32_ofDwords_three]
      simp only [Nat.mul_add, Nat.reduceMul, Nat.add_assoc, Nat.reduceAdd] at h0 h1 h2 h3 ⊢
      rw [h0, h1, h2, h3]

/-! ### The rounds -/

def abcdOf (H : Sha1.Hash) : Xmm := ofDwords H.d H.c H.b H.a
def eOf (H : Sha1.Hash) : Xmm := ofDwords 0 0 0 H.e

theorem sha1Function_eq {phase : Nat} (h : phase < 4) :
    sha1Function phase = Sha1.phaseFunction phase := by
  rcases phase with - | - | - | - | phase
  · rfl
  · rfl
  · rfl
  · rfl
  · omega

theorem sha1Constants_eq {phase : Nat} (h : phase < 4) :
    sha1Constants.getD phase 0 = Sha1.phaseConstant phase := by
  rcases phase with - | - | - | - | phase
  · rfl
  · rfl
  · rfl
  · rfl
  · omega

/-- A turn is a round. -/
theorem sha1rnds4Turn_eq {phase : Nat} (hphase : phase < 4) (w : List Word) (v : Sha1.Hash)
    {i : Nat} (hi : i ≠ 0) : sha1rnds4Turn phase w v i = Sha1.round phase (w.getD i 0) v := by
  unfold sha1rnds4Turn Sha1.round
  rw [rol_eq _ (by decide), rol_eq _ (by decide), if_pos hi, sha1Function_eq hphase,
    sha1Constants_eq hphase]
  simp only [Sha1.Hash.mk.injEq, and_true]
  ac_rfl

/-- The first word comes with the last word of the state. -/
theorem sha1rnds4Turn_zero {phase : Nat} (hphase : phase < 4) (W : Word) (w : List Word)
    (v : Sha1.Hash) (e : Word) :
    sha1rnds4Turn phase ((W + v.e) :: w) { v with e := e } 0 = Sha1.round phase W v := by
  unfold sha1rnds4Turn Sha1.round
  rw [rol_eq _ (by decide), rol_eq _ (by decide), if_neg (not_not_intro rfl),
    sha1Function_eq hphase, sha1Constants_eq hphase, List.getD_cons_zero]
  simp only [Sha1.Hash.mk.injEq, and_true]
  ac_rfl

theorem sha1rnds4Value_eq {phase : Nat} (hphase : phase < 4) (W0 W1 W2 W3 : Word) (H : Sha1.Hash) :
    sha1rnds4Value (abcdOf H) (ofDwords W3 W2 W1 (W0 + H.e)) (BitVec.ofNat 64 phase) =
      abcdOf
      (Sha1.round phase W3 (Sha1.round phase W2 (Sha1.round phase W1 (Sha1.round phase W0 H)))) :=
  by
  have himm : (BitVec.ofNat 64 phase &&& 3).toNat = phase := by
    rw [BitVec.toNat_and, BitVec.toNat_ofNat, Nat.mod_eq_of_lt (by omega)]
    exact (Nat.and_two_pow_sub_one_eq_mod phase 2).trans (Nat.mod_eq_of_lt hphase)
  have hfold : ∀ (f : Sha1.Hash → Nat → Sha1.Hash) (v : Sha1.Hash),
      (List.range 4).foldl f v = f (f (f (f v 0) 1) 2) 3 :=
    fun _ _ => rfl
  unfold sha1rnds4Value
  rw [himm, hfold]
  conv_lhs => unfold abcdOf
  simp only [u32_ofDwords_zero, u32_ofDwords_one, u32_ofDwords_two, u32_ofDwords_three]
  rw [sha1rnds4Turn_zero hphase W0 [W1, W2, W3] H 0, sha1rnds4Turn_eq hphase _ _ one_ne_zero,
    sha1rnds4Turn_eq hphase _ _ two_ne_zero, sha1rnds4Turn_eq hphase _ _ three_ne_zero]
  rfl

/-- The last word of the state four rounds on. -/
theorem sha1nexteValue_eq (phase : Nat) (V0 V1 V2 V3 W0 W1 W2 W3 : Word) (H : Sha1.Hash) :
    sha1nexteValue (abcdOf H) (ofDwords W3 W2 W1 W0) =
      ofDwords W3 W2 W1 (W0 +
        (Sha1.round phase V3 (Sha1.round phase V2
          (Sha1.round phase V1 (Sha1.round phase V0 H)))).e) := by
  unfold sha1nexteValue abcdOf
  simp only [u32_ofDwords_zero, u32_ofDwords_one, u32_ofDwords_two, u32_ofDwords_three,
    rol_eq _ (show 30 < 32 by decide)]
  rfl

/-- The words of a group with the last word of the state, which is `e` or comes from the group
before. -/
def sha1Source (block : List Byte) (e : Xmm) (previous : Xmm) : (k : Nat) → Xmm
  | 0 => padddValue e (sha1Words block 0)
  | k + 1 => sha1nexteValue previous (sha1Words block (k + 1))

/-- The groups of four rounds: what they leave, and what the last of them began with. -/
def sha1Rounds (block : List Byte) (abcd e : Xmm) : Nat → Xmm × Xmm
  | 0 => (abcd, abcd)
  | k + 1 =>
    let r := sha1Rounds block abcd e k
    (sha1rnds4Value r.1 (sha1Source block e r.2 k) (BitVec.ofNat 64 (k / 5)), r.1)

theorem rounds_four (block : List Byte) (H : Sha1.Hash) (k : Nat) :
    Sha1.rounds block H (4 * (k + 1)) =
      Sha1.round (k / 5) (Sha1.schedule block (4 * k + 3))
      (Sha1.round (k / 5) (Sha1.schedule block (4 * k + 2))
        (Sha1.round (k / 5) (Sha1.schedule block (4 * k + 1))
          (Sha1.round (k / 5) (Sha1.schedule block (4 * k)) (Sha1.rounds block H (4 * k))))) := by
  rw [Nat.mul_succ]
  simp only [Sha1.rounds]
  rw [show (4 * k + 3) / 20 = k / 5 by omega, show (4 * k + 2) / 20 = k / 5 by omega,
    show (4 * k + 1) / 20 = k / 5 by omega, show 4 * k / 20 = k / 5 by omega]

theorem sha1Source_eq (block : List Byte) (H : Sha1.Hash) (k : Nat) :
    sha1Source block (eOf H) (abcdOf (Sha1.rounds block H (4 * (k - 1)))) k =
      ofDwords (Sha1.schedule block (4 * k + 3)) (Sha1.schedule block (4 * k + 2))
      (Sha1.schedule block (4 * k + 1))
        (Sha1.schedule block (4 * k) + (Sha1.rounds block H (4 * k)).e) := by
  cases k with
  | zero =>
    have hstart : Sha1.rounds block H (4 * 0) = H := rfl
    rw [sha1Source, sha1Words_eq, hstart]
    unfold padddValue eOf vectorDown
    simp only [u32_ofDwords_zero, u32_ofDwords_one, u32_ofDwords_two, u32_ofDwords_three,
      BitVec.ofNat_eq_ofNat, BitVec.zero_add, BitVec.add_comm H.e]
  | succ k =>
    rw [sha1Source, sha1Words_eq, Nat.add_sub_cancel, rounds_four]
    exact sha1nexteValue_eq (k / 5) _ _ _ _ _ _ _ _ _

theorem sha1Rounds_eq (block : List Byte) (H : Sha1.Hash) {k : Nat} (hk : k ≤ 20) :
    sha1Rounds block (abcdOf H) (eOf H) k =
      (abcdOf (Sha1.rounds block H (4 * k)), abcdOf (Sha1.rounds block H (4 * (k - 1)))) := by
  induction k with
  | zero => rfl
  | succ k ih =>
    rw [sha1Rounds, ih (by omega), Nat.add_sub_cancel]
    dsimp only
    rw [sha1Source_eq, sha1rnds4Value_eq (by omega), rounds_four]

/-- A block: the rounds, and the sums with the state before them. -/
def sha1Block (abcd e : Xmm) (block : List Byte) : Xmm × Xmm :=
  let r := sha1Rounds block abcd e 20
  (padddValue r.1 abcd, sha1nexteValue r.2 e)

/-- The instructions compress a block as the standard does. -/
theorem sha1Block_eq (H : Sha1.Hash) (block : List Byte) :
    sha1Block (abcdOf H) (eOf H) block =
    (abcdOf (Sha1.compress H block), eOf (Sha1.compress H block)) := by
  have he :=
    sha1nexteValue_eq (19 / 5) (Sha1.schedule block (4 * 19)) (Sha1.schedule block (4 * 19 + 1))
    (Sha1.schedule block (4 * 19 + 2)) (Sha1.schedule block (4 * 19 + 3)) H.e 0 0 0
    (Sha1.rounds block H (4 * 19))
  rw [← rounds_four] at he
  unfold sha1Block
  rw [sha1Rounds_eq block H (Nat.le_refl 20)]
  dsimp only
  unfold eOf
  rw [he, BitVec.add_comm H.e]
  unfold padddValue abcdOf
  simp only [u32_ofDwords_zero, u32_ofDwords_one, u32_ofDwords_two, u32_ofDwords_three]
  rfl

end Diana.Processor
