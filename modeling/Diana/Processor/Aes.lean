import Diana.Lib.BinaryPoly
import Diana.Processor.State
import Mathlib.LinearAlgebra.Matrix.ToLin

/-!
# The AES instructions

The values that `aesenc`, `aesenclast`, `aesdec`, `aesdeclast` and `aesimc` compute. A byte is an
element of the field of 256 elements, and `Di_GfMul` multiplies there.

* `residue_gfMul`: `gfMul` multiplies modulo `X ^ 8 + X ^ 4 + X ^ 3 + X + 1`;
* `inverseSbox_sbox`, `mixColumns_inverse`, `shiftRows_inverse`: the steps of a round
  and those of its inverse;
* `ciphers_inverse`: rounds with the keys of `aesimc` undo rounds.
-/

namespace Diana.Processor.Aes

open Diana.Lib Polynomial

abbrev Byte := BitVec 8

/-- The bytes of an XMM register, column by column. -/
abbrev Block := Fin 16 → Byte

/-! ## Bytes -/

/-- The loop of `Di_GfMul`; `b` has eight bits. -/
def gfMulLoop : (turns : Nat) → (a b product : Byte) → Byte
  | 0, _, _, product => product
  | turns + 1, a, b, product =>
    if b = 0 then product
    else
      gfMulLoop turns (a <<< 1 ^^^ if a &&& 0x80 ≠ 0 then 0x1b else 0) (b >>> 1)
        (if b &&& 1 ≠ 0 then product ^^^ a else product)

/-- `Di_GfMul` -/
def gfMul (a b : Byte) : Byte := gfMulLoop 8 a b 0

/-- The loop of `Di_InitSbox` over the bits of the exponent. -/
def powerLoop : (turns exponent : Nat) → (power inverse : Byte) → Byte
  | 0, _, _, inverse => inverse
  | turns + 1, exponent, power, inverse =>
    if exponent = 0 then inverse
    else powerLoop turns (exponent / 2) (gfMul power power) (if exponent % 2 ≠ 0 then
      gfMul inverse power else inverse)

/-- `x ^ 254` -/
def gfInverse (x : Byte) : Byte := if x = 0 then 0 else powerLoop 8 254 x 1

def affine (inverse : Byte) : Byte :=
  [1, 2, 3, 4].foldl (fun s i => s ^^^ (inverse <<< i ||| inverse >>> (8 - i))) inverse ^^^ 0x63

/-- `g_sbox` -/
def sbox (x : Byte) : Byte := affine (gfInverse x)

/-- `g_inverseSbox` after the first turns of the loop of `Di_InitSbox`. -/
def inverseSboxAfter : Nat → Byte → Byte
  | 0, _ => 0
  | x + 1, s => if s = sbox (BitVec.ofNat 8 x) then BitVec.ofNat 8 x else inverseSboxAfter x s

def inverseSbox : Byte → Byte := inverseSboxAfter 256

/-! ## Steps of a round -/

/-- `Di_SubBytes` -/
def subBytes (box : Byte → Byte) (state : Block) : Block := fun i => box (state i)

def row (i : Fin 16) : Fin 4 := Fin.ofNat 4 (i.val % 4)

def col (i : Fin 16) : Fin 4 := Fin.ofNat 4 (i.val / 4)

/-- The byte in row `r` of column `c`. -/
def place (r c : Fin 4) : Fin 16 := Fin.ofNat 16 (r.val + 4 * c.val)

/-- The column that `Di_ShiftRows` takes a byte of row `r` and column `c` from. -/
def shiftedCol (inverse : Bool) (r c : Fin 4) : Fin 4 :=
  Fin.ofNat 4 (if inverse then (c.val + 4 - r.val) % 4 else (c.val + r.val) % 4)

/-- `Di_ShiftRows` -/
def shiftRows (inverse : Bool) (copy : Block) : Block := fun i =>
  copy (place (row i) (shiftedCol inverse (row i) (col i)))

def forward : List Byte := [2, 3, 1, 1]
def backward : List Byte := [14, 11, 13, 9]

/-- What byte `k` of a column is multiplied by in row `r`. -/
def coefficient (inverse : Bool) (r k : Fin 4) : Byte :=
  (if inverse then backward else forward).getD ((k.val + 4 - r.val) % 4) 0

/-- A byte of a new column. -/
def mixColumn (inverse : Bool) (column : Fin 4 → Byte) (r : Fin 4) : Byte :=
  [0, 1, 2, 3].foldl (fun value k => value ^^^ gfMul (coefficient inverse r k) (column k)) 0

/-- `Di_MixColumns` -/
def mixColumns (inverse : Bool) (state : Block) : Block := fun i =>
  mixColumn inverse (fun k => state (place k (col i))) (row i)

def addKey (state key : Block) : Block := fun i => state i ^^^ key i

/-- `DiAesRound` -/
inductive AesRound where
  | enc | enclast | dec | declast
  deriving DecidableEq, Repr

/-- `Diana_AesRoundValue` -/
def aesRoundValue (state key : Block) : AesRound → Block
  | .enc => addKey (mixColumns false (subBytes sbox (shiftRows false state))) key
  | .enclast => addKey (subBytes sbox (shiftRows false state)) key
  | .dec => addKey (mixColumns true (subBytes inverseSbox (shiftRows true state))) key
  | .declast => addKey (subBytes inverseSbox (shiftRows true state)) key

/-- `Diana_AesImcValue` -/
def aesImcValue (value : Block) : Block := mixColumns true value

/-! ## The field -/

theorem shift_eq_mulX : ∀ a : Byte,
    (a <<< 1 ^^^ if a &&& 0x80 ≠ 0 then 0x1b else 0) = mulX 0x1b#8 a := by decide

theorem lowest_ne_zero_iff : ∀ b : Byte, b &&& 1 ≠ 0 ↔ b.getLsbD 0 = true := by decide

theorem gfMulLoop_eq (turns : Nat) (a b product : Byte) :
    gfMulLoop turns a b product = mulLoop 0x1b#8 turns a b product := by
  induction turns generalizing a b product with
  | zero => rfl
  | succ turns ih =>
    rw [gfMulLoop]
    by_cases hb : b = 0
    · subst hb
      rw [if_pos rfl]
      exact (mulLoop_of_zero ..).symm
    · rw [if_neg hb, ih, shift_eq_mulX, mulLoop]
      simp only [lowest_ne_zero_iff]

theorem residue_gfMul (a b : Byte) :
    residue 0x1b#8 (gfMul a b) = residue 0x1b#8 a * residue 0x1b#8 b := by
  rw [gfMul, gfMulLoop_eq, residue_mulLoop 0x1b#8 b.isLt]
  exact (congrArg (· + _) (residue_zero _)).trans (zero_add _)

/-- `Di_GfMul` is the multiplication of its comment. -/
theorem bitsPoly_gfMul (a b : Byte) :
    bitsPoly (gfMul a b) = bitsPoly a * bitsPoly b %ₘ (X ^ 8 + X ^ 4 + X ^ 3 + X + 1) := by
  have hmodulus : modulus 0x1b#8 = X ^ 8 + X ^ 4 + X ^ 3 + X + 1 := by
    simp [modulus, bitsPoly, Finset.sum_range_succ]
    ring
  rw [← hmodulus]
  refine bitsPoly_eq_mod ?_
  rw [residue_gfMul, map_mul]
  rfl

/-! ## The boxes -/

/-- Each squaring takes the next bit of the exponent. -/
theorem residue_powerLoop {turns exponent : Nat} (h : exponent < 2 ^ turns) (power inverse : Byte) :
    residue 0x1b#8 (powerLoop turns exponent power inverse) =
    residue 0x1b#8 inverse * residue 0x1b#8 power ^ exponent := by
  induction turns generalizing exponent power inverse with
  | zero =>
    obtain rfl : exponent = 0 := by omega
    rw [powerLoop, pow_zero, mul_one]
  | succ turns ih =>
    rw [powerLoop]
    split
    · next hzero => rw [hzero, pow_zero, mul_one]
    · have hsquare : residue 0x1b#8 (gfMul power power) ^ (exponent / 2) =
          residue 0x1b#8 power ^ (2 * (exponent / 2)) := by
        rw [residue_gfMul, pow_mul, pow_two]
      rw [ih (by omega), hsquare]
      split
      · next hodd =>
        have hexponent : exponent = 2 * (exponent / 2) + 1 := by omega
        rw [residue_gfMul, mul_assoc, ← pow_succ', ← hexponent]
      · next heven =>
        have hexponent : exponent = 2 * (exponent / 2) := by omega
        rw [← hexponent]

theorem residue_gfInverse (x : Byte) : residue 0x1b#8 (gfInverse x) = residue 0x1b#8 x ^ 254 := by
  rw [gfInverse]
  split
  · next h =>
    rw [h]
    exact (residue_zero _).trans (zero_pow (by decide)).symm |>.trans
      (congrArg (· ^ 254) (residue_zero _).symm)
  · rw [residue_powerLoop (by decide)]
    exact (congrArg (· * _) (residue_one _ (by decide))).trans (one_mul _)

theorem residue_squares (x : Byte) (k : Nat) :
    residue 0x1b#8 ((fun y => gfMul y y)^[k] x) = residue 0x1b#8 x ^ 2 ^ k := by
  induction k generalizing x with
  | zero => rw [Function.iterate_zero_apply, pow_zero, pow_one]
  | succ k ih =>
    rw [Function.iterate_succ_apply, ih, residue_gfMul, ← pow_two, ← pow_mul, ← pow_succ']

/-- `X` squared eight times is `X` again, and so is each byte. -/
theorem residue_pow_256 (x : Byte) : residue 0x1b#8 x ^ 256 = residue 0x1b#8 x := by
  have htwo : residue 0x1b#8 2#8 = AdjoinRoot.root _ := by
    have := residue_mulX 0x1b#8 1#8
    rwa [residue_one _ (by decide), one_mul] at this
  refine residue_pow_of_root (k := 8) ?_ x
  rw [← htwo, ← residue_squares]
  rfl

theorem gfInverse_gfInverse (x : Byte) : gfInverse (gfInverse x) = x := by
  have h := residue_pow_256 x
  apply residue_injective 0x1b#8
  rw [residue_gfInverse, residue_gfInverse]
  calc (residue 0x1b#8 x ^ 254) ^ 254
      = (residue 0x1b#8 x ^ 256) ^ 252 * residue 0x1b#8 x ^ 4 := by ring
    _ = residue 0x1b#8 x ^ 252 * residue 0x1b#8 x ^ 4 := by rw [h]
    _ = residue 0x1b#8 x ^ 256 := by ring
    _ = residue 0x1b#8 x := h

/-- Squaring fixes 0 and 1 only. -/
theorem eq_of_gfMul_self : ∀ y : Byte, gfMul y y = y → y = 0 ∨ y = 1 := by decide +kernel

/-- `Di_InitSbox` inverts: the 255th power of a byte is its own square. -/
theorem gfMul_gfInverse {x : Byte} (hx : x ≠ 0) : gfMul x (gfInverse x) = 1 := by
  have h := residue_pow_256 x
  have hpow : residue 0x1b#8 (gfMul x (gfInverse x)) = residue 0x1b#8 x ^ 255 := by
    rw [residue_gfMul, residue_gfInverse]
    ring
  have hself : gfMul (gfMul x (gfInverse x)) (gfMul x (gfInverse x)) = gfMul x (gfInverse x) := by
    apply residue_injective 0x1b#8
    rw [residue_gfMul, hpow]
    calc
      residue 0x1b#8 x ^ 255 * residue 0x1b#8 x ^ 255 =
      residue 0x1b#8 x ^ 256 * residue 0x1b#8 x ^ 254 := by ring
      _ = residue 0x1b#8 x * residue 0x1b#8 x ^ 254 := by rw [h]
      _ = residue 0x1b#8 x ^ 255 := by ring
  refine (eq_of_gfMul_self _ hself).resolve_left fun hzero => hx ?_
  apply residue_injective 0x1b#8
  rw [hzero] at hpow
  calc residue 0x1b#8 x = residue 0x1b#8 x ^ 255 * residue 0x1b#8 x := by rw [← pow_succ, h]
    _ = residue 0x1b#8 0#8 * residue 0x1b#8 x := congrArg (· * _) hpow.symm
    _ = residue 0x1b#8 0#8 := by rw [residue_zero, zero_mul]

theorem gfMul_gfInverse_two : gfMul 2 (gfInverse 2) = 1 := gfMul_gfInverse (by decide)

def affineInverse (s : Byte) :
    Byte := [1, 3, 6].foldl (fun x i => x ^^^ (s <<< i ||| s >>> (8 - i))) 0x05

theorem affineInverse_affine : ∀ x : Byte, affineInverse (affine x) = x := by decide +kernel

theorem sbox_injective : Function.Injective sbox := by
  intro x y h
  apply (Function.LeftInverse.injective gfInverse_gfInverse)
  rw [← affineInverse_affine (gfInverse x), ← affineInverse_affine (gfInverse y)]
  exact congrArg affineInverse h

theorem inverseSbox_sbox (x : Byte) : inverseSbox (sbox x) = x := by
  have hafter : ∀ n, x.toNat < n → inverseSboxAfter n (sbox x) = x := by
    intro n
    induction n with
    | zero => exact fun h => absurd h (Nat.not_lt_zero _)
    | succ n ih =>
      intro hlt
      rw [inverseSboxAfter]
      split
      · next h => exact (sbox_injective h).symm
      · next hne =>
        apply ih
        have : x.toNat ≠ n := fun h => hne (by rw [← h, BitVec.ofNat_toNat, BitVec.setWidth_eq])
        omega
  exact hafter 256 x.isLt

/-! ## The other steps -/

@[simp] theorem row_place (r c : Fin 4) : row (place r c) = r := by revert r c; decide
@[simp] theorem col_place (r c : Fin 4) : col (place r c) = c := by revert r c; decide
@[simp] theorem place_row_col (i : Fin 16) : place (row i) (col i) = i := by revert i; decide

@[simp] theorem shiftedCol_shiftedCol (r c : Fin 4) :
    shiftedCol false r (shiftedCol true r c) = c := by
  revert r c
  decide

theorem shiftRows_inverse (state : Block) : shiftRows true (shiftRows false state) = state := by
  funext i
  simp [shiftRows]

theorem subBytes_inverse (state : Block) : subBytes inverseSbox (subBytes sbox state) = state :=
  funext fun i => inverseSbox_sbox (state i)

/-- A column is multiplied by a matrix. -/
noncomputable def mixMatrix (inverse : Bool) :
    Matrix (Fin 4) (Fin 4) (AdjoinRoot (modulus 0x1b#8)) :=
  Matrix.of fun r k => residue 0x1b#8 (coefficient inverse r k)

theorem residue_mixColumn (inverse : Bool) (column : Fin 4 → Byte) :
    (fun r => residue 0x1b#8 (mixColumn inverse column r)) = (mixMatrix inverse).mulVec fun k =>
    residue 0x1b#8 (column k) := by
  funext r
  simp [mixColumn, mixMatrix, Matrix.mulVec, dotProduct, Fin.sum_univ_four, residue_gfMul]

theorem mixMatrix_inverse : mixMatrix true * mixMatrix false = 1 := by
  have hproduct : ∀ r j, gfMul (coefficient true r 0) (coefficient false 0 j) ^^^
      gfMul (coefficient true r 1) (coefficient false 1 j) ^^^ gfMul (coefficient true r 2)
      (coefficient false 2 j) ^^^
        gfMul (coefficient true r 3) (coefficient false 3 j) = if r = j then 1#8 else 0#8 := by
    decide
  ext r j
  rw [Matrix.mul_apply, Fin.sum_univ_four, Matrix.one_apply]
  simp only [mixMatrix, Matrix.of_apply, ← residue_gfMul, ← residue_xor]
  rw [hproduct]
  split
  · exact residue_one _ (by decide)
  · exact residue_zero _

theorem mixColumn_inverse (column : Fin 4 → Byte) :
    mixColumn true (mixColumn false column) = column := by
  have h : (fun r => residue 0x1b#8 (mixColumn true (mixColumn false column) r)) = fun r =>
      residue 0x1b#8 (column r) := by
    rw [residue_mixColumn, residue_mixColumn, Matrix.mulVec_mulVec, mixMatrix_inverse,
      Matrix.one_mulVec]
  exact funext fun r => residue_injective _ (congrFun h r)

theorem mixColumn_xor (inverse : Bool) (a b : Fin 4 → Byte) (r : Fin 4) :
    mixColumn inverse (fun k => a k ^^^ b k) r =
    mixColumn inverse a r ^^^ mixColumn inverse b r := by
  have h : (fun r => residue 0x1b#8 (mixColumn inverse (fun k => a k ^^^ b k) r)) =
      fun r => residue 0x1b#8 (mixColumn inverse a r ^^^ mixColumn inverse b r) := by
    simp only [residue_xor]
    change _ = (fun r => residue 0x1b#8 (mixColumn inverse a r)) + fun r =>
      residue 0x1b#8 (mixColumn inverse b r)
    rw [residue_mixColumn, residue_mixColumn, residue_mixColumn, ← Matrix.mulVec_add]
    simp only [residue_xor]
    rfl
  exact residue_injective _ (congrFun h r)

theorem mixColumns_inverse (state : Block) : mixColumns true (mixColumns false state) = state := by
  funext i
  have hcolumn := congrFun (mixColumn_inverse fun k => state (place k (col i))) (row i)
  rw [place_row_col] at hcolumn
  simpa [mixColumns] using hcolumn

theorem mixColumns_addKey (inverse : Bool) (state key : Block) :
    mixColumns inverse (addKey state key) = addKey (mixColumns inverse state)
    (mixColumns inverse key) :=
  funext fun i => mixColumn_xor inverse _ _ (row i)

theorem addKey_addKey (state key : Block) : addKey (addKey state key) key = state := by
  funext i
  rw [addKey, addKey, BitVec.xor_assoc, BitVec.xor_self, BitVec.xor_zero]

/-! ## Programs -/

/-- A block encrypted: `pxor`, `aesenc` for each of the keys and `aesenclast`. -/
def encrypt (first : Block) (keys : List Block) (last m : Block) : Block :=
  aesRoundValue (keys.foldl (fun state key => aesRoundValue state key .enc) (addKey m first))
    last .enclast

/-- A block decrypted: the keys the other way round, those in the middle through `aesimc`. -/
def decrypt (first : Block) (keys : List Block) (last c : Block) : Block :=
  aesRoundValue (keys.reverse.foldl (fun state key => aesRoundValue state (aesImcValue key) .dec)
    (addKey c last)) first .declast

/-- A round of the inverse undoes a round, one step of it ahead. -/
theorem dec_enc (state key : Block) :
    aesRoundValue (subBytes sbox (shiftRows false (aesRoundValue state key .enc)))
    (aesImcValue key) .dec =
      subBytes sbox (shiftRows false state) := by
  have hcommute : ∀ s : Block,
      shiftRows true (subBytes sbox s) = subBytes sbox (shiftRows true s) := fun _ => rfl
  unfold aesRoundValue aesImcValue
  dsimp only
  rw [hcommute, shiftRows_inverse, subBytes_inverse, mixColumns_addKey, mixColumns_inverse,
    addKey_addKey]

theorem decRounds_encRounds (keys : List Block) (state : Block) :
    keys.reverse.foldl (fun state key => aesRoundValue state (aesImcValue key) .dec)
        (subBytes sbox (shiftRows false
          (keys.foldl (fun state key => aesRoundValue state key .enc) state))) =
      subBytes sbox (shiftRows false state) := by
  induction keys generalizing state with
  | nil => rfl
  | cons key keys ih =>
    rw [List.reverse_cons, List.foldl_append]
    exact (congrArg (fun s => aesRoundValue s (aesImcValue key) .dec) (ih _)).trans
      (dec_enc state key)

theorem decrypt_encrypt (first : Block) (keys : List Block) (last : Block) :
    Function.LeftInverse (decrypt first keys last) (encrypt first keys last) := by
  intro m
  have hlast : ∀ s, addKey (aesRoundValue s last .enclast) last =
      subBytes sbox (shiftRows false s) :=
    fun _ => addKey_addKey _ _
  have hfirst : ∀ s, aesRoundValue (subBytes sbox (shiftRows false s)) first .declast =
      addKey s first := by
    intro s
    change addKey (subBytes inverseSbox (subBytes sbox (shiftRows true (shiftRows false s))))
      first = _
    rw [shiftRows_inverse, subBytes_inverse]
  rw [decrypt, encrypt, hlast, decRounds_encRounds, hfirst, addKey_addKey]

/-- Each of the two undoes the other. -/
theorem ciphers_inverse (first : Block) (keys : List Block) (last : Block) :
    Function.LeftInverse (decrypt first keys last) (encrypt first keys last) ∧
      Function.RightInverse (decrypt first keys last) (encrypt first keys last) := by
  have : Finite Byte := .of_injective BitVec.toFin BitVec.toFin_injective
  have hleft := decrypt_encrypt first keys last
  exact ⟨hleft, hleft.rightInverse_of_surjective (Finite.surjective_of_injective hleft.injective)⟩

end Diana.Processor.Aes
