import Diana.Lib.Sha1
import Diana.Orthia.Sha256

/-!
# The SHA-1 of a message in pieces

`orthia_sha1.c`, and `CalcSha1` of `orthia_helpers.cpp` over it. An object goes from taking bytes to
a digest or to an error, and stays there.

* `processMessageBlock_eq`: `SHA1ProcessMessageBlock` is the step of the standard;
* `outcomes_eq`: a run of calls reports what the object of the specification reports;
* `calcSha1_eq`: a file is hashed as a whole, whatever its pages are.
-/

namespace Diana.Orthia.Sha1

open Diana.Lib
open Diana.Lib.Sha256 (Word)
open Diana.Lib.Sha1 (Hash)

/-! ## `SHA1ProcessMessageBlock` -/

/-- `SHA1CircularShift` -/
def sha1CircularShift (bits : Nat) (word : Word) : Word := word <<< bits ||| word >>> (32 - bits)

/-- `W[t]` from the words before it. -/
def extendWords (w : List Word) (t : Nat) : List Word :=
  w ++ [sha1CircularShift 1
    (w.getD (t - 3) 0 ^^^ w.getD (t - 8) 0 ^^^ w.getD (t - 14) 0 ^^^ w.getD (t - 16) 0)]

/-- The array `W`. -/
def blockWords (block : List Byte) : List Word :=
  (List.range' 16 64).foldl extendWords ((List.range 16).map (loadWord block))

/-- A turn of one of the four loops over `W`, which differ in the function and the constant. -/
def turn (f : Word → Word → Word → Word) (K : Word) (w : List Word) (v : Hash) (t : Nat) : Hash :=
  let temp := sha1CircularShift 5 v.a + f v.b v.c v.d + v.e + w.getD t 0 + K
  { e := v.d, d := v.c, c := sha1CircularShift 30 v.b, b := v.a, a := temp }

/-- `SHA1ProcessMessageBlock`: `Intermediate_Hash` after it. -/
def processMessageBlock (hash : Hash) (block : List Byte) : Hash :=
  let w := blockWords block
  let v :=
    (List.range' 0 20).foldl (turn (fun b c d => (b &&& c) ||| (~~~b &&& d)) 0x5A827999 w) hash
  let v := (List.range' 20 20).foldl (turn (fun b c d => b ^^^ c ^^^ d) 0x6ED9EBA1 w) v
  let v := (List.range' 40 20).foldl
      (turn (fun b c d => (b &&& c) ||| (b &&& d) ||| (c &&& d)) 0x8F1BBCDC w) v
  let v := (List.range' 60 20).foldl (turn (fun b c d => b ^^^ c ^^^ d) 0xCA62C1D6 w) v
  ⟨hash.a + v.a, hash.b + v.b, hash.c + v.c, hash.d + v.d, hash.e + v.e⟩

section Block

theorem sha1CircularShift_eq (word : Word) {bits : Nat} (h : bits < 32) :
    sha1CircularShift bits word = word.rotateLeft bits := by
  unfold sha1CircularShift BitVec.rotateLeft BitVec.rotateLeftAux
  rw [Nat.mod_eq_of_lt h]

theorem blockWords_eq (block : List Byte) :
    blockWords block = (List.range 80).map (Sha1.schedule block) := by
  have hload : (List.range 16).map (loadWord block) =
      (List.range 16).map (Sha1.schedule block) := by
    refine List.map_congr_left fun i hi => ?_
    rw [loadWord_eq, Sha1.schedule, if_pos (List.mem_range.1 hi)]
  have hextend : ∀ n, (List.range' 16 n).foldl extendWords
    ((List.range 16).map (Sha1.schedule block)) =
      (List.range (16 + n)).map (Sha1.schedule block) := by
    intro n
    induction n with
    | zero => rfl
    | succ n ih =>
      rw [List.range'_1_concat, List.foldl_append, ih, List.foldl_cons, List.foldl_nil,
        ← Nat.add_assoc, List.range_succ, List.map_append, List.map_singleton,
        Sha1.schedule_of_le block (Nat.le_add_right 16 n)]
      unfold extendWords
      rw [getD_map_range _ (by omega), getD_map_range _ (by omega), getD_map_range _ (by omega),
        getD_map_range _ (by omega), sha1CircularShift_eq _ (by decide)]
  unfold blockWords
  rw [hload]
  exact hextend 64

/-- The source has the functions of the standard with other connectives. -/
theorem choose_eq (b c d : Word) : (b &&& c) ||| (~~~b &&& d) = Sha256.Ch b c d := by
  unfold Sha256.Ch
  ext i hi
  simp only [BitVec.getElem_or, BitVec.getElem_and, BitVec.getElem_not, BitVec.getElem_xor]
  cases b[i] <;> simp

theorem majority_eq (x y z : Word) : (x &&& y) ||| (x &&& z) ||| (y &&& z) = Sha256.Maj x y z := by
  unfold Sha256.Maj
  ext i hi
  simp only [BitVec.getElem_or, BitVec.getElem_and, BitVec.getElem_xor]
  cases x[i] <;> cases y[i] <;> simp

/-- One of the loops is a phase of the rounds. -/
theorem foldl_turn (block : List Byte) (H : Hash) (phase : Nat) (hphase : phase < 4)
    {f : Word → Word → Word → Word} (hf : f = Sha1.phaseFunction phase) {n : Nat} (hn : n ≤ 20) :
    (List.range' (20 * phase) n).foldl (turn f (Sha1.phaseConstant phase) (blockWords block))
        (Sha1.rounds block H (20 * phase)) = Sha1.rounds block H (20 * phase + n) := by
  subst hf
  induction n with
  | zero => rfl
  | succ n ih =>
    have hdiv : (20 * phase + n) / 20 = phase := by omega
    rw [List.range'_1_concat, List.foldl_append, ih (by omega), List.foldl_cons, List.foldl_nil,
      ← Nat.add_assoc, Sha1.rounds, hdiv]
    unfold turn Sha1.round
    rw [blockWords_eq, getD_map_range _ (by omega), sha1CircularShift_eq _ (by decide),
      sha1CircularShift_eq _ (by decide)]
    simp only [BitVec.add_assoc, BitVec.add_comm (Sha1.schedule block _)]

/-- `SHA1ProcessMessageBlock` is the step of the standard. -/
theorem processMessageBlock_eq (H : Hash) (block : List Byte) :
    processMessageBlock H block = Sha1.compress H block := by
  have h0 : (List.range' 0 20).foldl
    (turn (fun b c d => (b &&& c) ||| (~~~b &&& d)) 0x5A827999 (blockWords block)) H =
      Sha1.rounds block H 20 :=
    foldl_turn block H 0 (by decide) (funext₃ choose_eq) (Nat.le_refl 20)
  have h1 : (List.range' 20 20).foldl
    (turn (fun b c d => b ^^^ c ^^^ d) 0x6ED9EBA1 (blockWords block))
      (Sha1.rounds block H 20) = Sha1.rounds block H 40 :=
    foldl_turn block H 1 (by decide) rfl (Nat.le_refl 20)
  have h2 : (List.range' 40 20).foldl
    (turn (fun b c d => (b &&& c) ||| (b &&& d) ||| (c &&& d)) 0x8F1BBCDC (blockWords block))
      (Sha1.rounds block H 40) = Sha1.rounds block H 60 :=
    foldl_turn block H 2 (by decide) (funext₃ majority_eq) (Nat.le_refl 20)
  have h3 : (List.range' 60 20).foldl
    (turn (fun b c d => b ^^^ c ^^^ d) 0xCA62C1D6 (blockWords block))
      (Sha1.rounds block H 60) = Sha1.rounds block H 80 :=
    foldl_turn block H 3 (by decide) rfl (Nat.le_refl 20)
  unfold processMessageBlock Sha1.compress
  dsimp only
  rw [h0, h1, h2, h3]
  simp only [BitVec.add_comm]

end Block

/-! ## The object -/

/-- The codes of `orthia_sha1.h`. -/
inductive Code where
  | shaSuccess | shaNull | shaInputTooLong | shaStateError
  deriving DecidableEq, Repr

/-- `SHA1Context`: `block` is the first `Message_Block_Index` bytes of `Message_Block`, which is
never full between two calls. -/
structure SHA1Context where
  intermediateHash : Hash
  lengthLow : Word
  lengthHigh : Word
  block : List Byte
  computed : Bool
  /-- `Corrupted`, where 0 is `shaSuccess` -/
  corrupted : Code
  deriving DecidableEq

/-- `SHA1Reset` -/
def reset : SHA1Context where
  intermediateHash := ⟨0x67452301, 0xEFCDAB89, 0x98BADCFE, 0x10325476, 0xC3D2E1F0⟩
  lengthLow := 0
  lengthHigh := 0
  block := []
  computed := false
  corrupted := .shaSuccess

namespace SHA1Context

/-- `SHA1ProcessMessageBlock` of a full block. -/
def process (s : SHA1Context) : SHA1Context :=
  { s with intermediateHash := processMessageBlock s.intermediateHash s.block, block := [] }

/-- The length, a byte later. The value that a length of too many bits puts to `Corrupted` is that
of `shaNull`. -/
def lengthen (s : SHA1Context) : SHA1Context :=
  let s := { s with lengthLow := s.lengthLow + 8 }
  if s.lengthLow = 0 then
    let s := { s with lengthHigh := s.lengthHigh + 1 }
    if s.lengthHigh = 0 then { s with corrupted := .shaNull } else s
  else s

/-- A turn of the loop of `SHA1Input`. -/
def inputByte (s : SHA1Context) (byte : Byte) : SHA1Context :=
  let s := { s with block := s.block ++ [byte] }.lengthen
  if s.block.length = 64 then s.process else s

/-- The loop of `SHA1Input`. -/
def inputLoop : SHA1Context → List Byte → SHA1Context
  | s, [] => s
  | s, byte :: message =>
    if s.corrupted ≠ .shaSuccess then s else inputLoop (s.inputByte byte) message

/-- `SHA1Input`; `none` is a null pointer with a length other than 0. -/
def input (s : SHA1Context) : Option (List Byte) → Code × SHA1Context
  | some [] => (.shaSuccess, s)
  | none => (.shaNull, s)
  | some message =>
    if s.computed then (.shaStateError, { s with corrupted := .shaStateError })
    else if s.corrupted ≠ .shaSuccess then (s.corrupted, s)
    else (.shaSuccess, s.inputLoop message)

/-- The zeros up to a place of the block. -/
def fillTo (s : SHA1Context) (n : Nat) : SHA1Context :=
  { s with block := s.block ++ List.replicate (n - s.block.length) 0 }

/-- The eight bytes at the end of the block. -/
def storeLength (s : SHA1Context) : SHA1Context :=
  { s with block := s.block ++ [24, 16, 8, 0].map (fun n => (s.lengthHigh >>> n).setWidth 8) ++
      [24, 16, 8, 0].map fun n => (s.lengthLow >>> n).setWidth 8 }

/-- `SHA1PadMessage` -/
def padMessage (s : SHA1Context) : SHA1Context :=
  let marked := { s with block := s.block ++ [0x80] }
  if 55 < s.block.length then ((marked.fillTo 64).process.fillTo 56).storeLength.process
  else (marked.fillTo 56).storeLength.process

/-- `Message_Digest` -/
def digest (s : SHA1Context) : List Byte :=
  (List.range 20).map fun i =>
    (s.intermediateHash.words.getD (i / 4) 0 >>> (8 * (3 - i % 4))).setWidth 8

/-- `SHA1Result` -/
def result (s : SHA1Context) : Code × Option (List Byte) × SHA1Context :=
  if s.corrupted ≠ .shaSuccess then (s.corrupted, none, s)
  else
    let s := if s.computed then s
        else { s.padMessage with block := [], lengthLow := 0, lengthHigh := 0, computed := true }
    (.shaSuccess, some s.digest, s)

end SHA1Context

/-- A call on an object. -/
inductive Call where
  | input (message : Option (List Byte))
  | result
  deriving DecidableEq, Repr

/-- What a call reports. -/
structure Outcome where
  code : Code
  digest : Option (List Byte)
  deriving DecidableEq, Repr

def SHA1Context.call (s : SHA1Context) : Call → Outcome × SHA1Context
  | .input message => let r := s.input message; (⟨r.1, none⟩, r.2)
  | .result => let r := s.result; (⟨r.1, r.2.1⟩, r.2.2)

/-- What the calls report, one after the other. -/
def SHA1Context.outcomes : SHA1Context → List Call → List Outcome
  | _, [] => []
  | s, c :: calls => (s.call c).1 :: (s.call c).2.outcomes calls

/-- The loop of `CalcSha1` over a file with this content, by pages of 1 MB. Every read succeeds: the
exception that a failing one ends the function with is left out. -/
def calcSha1Loop : (turns : Nat) → SHA1Context → List Byte → SHA1Context
  | 0, s, _ => s
  | turns + 1, s, rest =>
    if rest = [] then s
    else
      let page := rest.take (1024 * 1024)
      calcSha1Loop turns (s.input (some page)).2 (rest.drop page.length)

/-- `CalcSha1` -/
def calcSha1 (content : List Byte) : List Byte :=
  ((calcSha1Loop content.length reset content).result.2.1).getD (List.replicate 20 0)

/-! ## The specification -/

/-- What an object is for: it takes a message, then it has a digest; an error stays. -/
inductive Hasher where
  | taking (m : List Byte)
  | done (digest : List Byte)
  | failed (code : Code)
  deriving DecidableEq, Repr

def Hasher.call : Hasher → Call → Outcome × Hasher
  | h, .input none => (⟨.shaNull, none⟩, h)
  | h, .input (some []) => (⟨.shaSuccess, none⟩, h)
  | taking m, .input (some (b :: message)) =>
    (⟨.shaSuccess, none⟩, if (m ++ b :: message).length < 2 ^ 61 then taking (m ++ b :: message)
      else failed .shaNull)
  | done _, .input (some (_ :: _)) => (⟨.shaStateError, none⟩, failed .shaStateError)
  | failed code, .input (some (_ :: _)) => (⟨code, none⟩, failed code)
  | taking m, .result => (⟨.shaSuccess, some (Sha1.sha1 m)⟩, done (Sha1.sha1 m))
  | done digest, .result => (⟨.shaSuccess, some digest⟩, done digest)
  | failed code, .result => (⟨code, none⟩, failed code)

def Hasher.outcomes : Hasher → List Call → List Outcome
  | _, [] => []
  | h, c :: calls => (h.call c).1 :: (h.call c).2.outcomes calls

/-! ## The object keeps to it -/

/-- What the blocks of a message leave behind. -/
def fed (m : List Byte) :
    Stream Hash Byte 64 := (Stream.new Sha1.initial (Nat.succ_pos 63)).feed Sha1.compress m

theorem fed_append (m m' : List Byte) :
    fed (m ++ m') = (fed m).feed Sha1.compress m' := Stream.feed_append m m'

theorem length_rest_fed (m : List Byte) : (fed m).rest.length = m.length % 64 :=
  (Stream.length_rest_feed m).trans (congrArg (· % 64) (Nat.zero_add _))

/-- An object that has taken a message and no more. -/
structure Absorbs (s : SHA1Context) (m : List Byte) : Prop where
  hash : s.intermediateHash = (fed m).state
  block : s.block = (fed m).rest
  bits : s.lengthHigh.toNat * 2 ^ 32 + s.lengthLow.toNat = 8 * m.length
  computed : s.computed = false
  corrupted : s.corrupted = .shaSuccess

/-- The state of the specification that an object is in. -/
def Shows (s : SHA1Context) : Hasher → Prop
  | .taking m => m.length < 2 ^ 61 ∧ Absorbs s m
  | .done digest => s.computed = true ∧ s.corrupted = .shaSuccess ∧ s.digest = digest
  | .failed code =>
    s.corrupted = code ∧ code ≠ .shaSuccess ∧ (s.computed = true → code = .shaStateError)

theorem absorbs_reset : Absorbs reset [] := ⟨rfl, rfl, rfl, rfl, rfl⟩

variable {s : SHA1Context} {m : List Byte}

/-- The two words of the length are one number, until it has 64 bits. -/
theorem lengthen_spec {n : Nat} (hbits : s.lengthHigh.toNat * 2 ^ 32 + s.lengthLow.toNat = 8 * n) :
    ∃ low high, s.lengthen =
        { s with
          lengthLow := low, lengthHigh := high, corrupted :=
  if n + 1 = 2 ^ 61 then .shaNull else s.corrupted } ∧
      (n + 1 < 2 ^ 61 → high.toNat * 2 ^ 32 + low.toNat = 8 * (n + 1)) := by
  have hlow := s.lengthLow.isLt
  have hhigh := s.lengthHigh.isLt
  have hadd : (s.lengthLow + 8).toNat = (s.lengthLow.toNat + 8) % 2 ^ 32 := BitVec.toNat_add _ _
  have hone : (s.lengthHigh + 1).toNat = (s.lengthHigh.toNat + 1) % 2 ^ 32 := BitVec.toNat_add _ _
  have hzero : ∀ w : Word, w = 0 ↔ w.toNat = 0 :=
    fun w => ⟨fun h => h ▸ rfl, fun h => BitVec.eq_of_toNat_eq h⟩
  unfold SHA1Context.lengthen
  dsimp only
  by_cases hwrap : s.lengthLow + 8 = 0
  · rw [if_pos hwrap]
    rw [hzero, hadd] at hwrap
    by_cases hover : s.lengthHigh + 1 = 0
    · have hover' := (hzero _).1 hover
      rw [hone] at hover'
      refine ⟨s.lengthLow + 8, s.lengthHigh + 1, ?_, by omega⟩
      rw [if_pos hover, if_pos (by omega)]
    · have hover' := mt (hzero _).2 hover
      rw [hone] at hover'
      refine ⟨s.lengthLow + 8, s.lengthHigh + 1, ?_, by omega⟩
      rw [if_neg hover, if_neg (by omega)]
  · rw [if_neg hwrap]
    rw [hzero, hadd] at hwrap
    refine ⟨s.lengthLow + 8, s.lengthHigh, ?_, by omega⟩
    rw [if_neg (by omega)]

/-- A byte goes to the block and to the length. -/
theorem inputByte_spec (h : Absorbs s m) (b : Byte) :
    (s.inputByte b).computed = false ∧
      (s.inputByte b).corrupted = (if m.length + 1 = 2 ^ 61 then .shaNull else .shaSuccess) ∧
        (m.length + 1 < 2 ^ 61 → Absorbs (s.inputByte b) (m ++ [b])) := by
  obtain ⟨low, high, hlength, hbits⟩ := @lengthen_spec { s with block := s.block ++ [b] } _ h.bits
  have hfed : fed (m ++ [b]) = (fed m).push Sha1.compress b := fed_append m [b]
  have hlt := (fed m).lt
  have hblock : (s.block ++ [b]).length = (fed m).rest.length + 1 := by
    rw [h.block, List.length_append, List.length_singleton]
  have hcorrupted : (if m.length + 1 = 2 ^ 61 then Code.shaNull else s.corrupted) =
      if m.length + 1 = 2 ^ 61 then .shaNull else .shaSuccess := congrArg (ite _ _) h.corrupted
  have hfine : m.length + 1 < 2 ^ 61 →
      (if m.length + 1 = 2 ^ 61 then Code.shaNull else s.corrupted) = .shaSuccess :=
    fun hnext => (if_neg (Nat.ne_of_lt hnext)).trans h.corrupted
  have htotal : m.length + 1 < 2 ^ 61 → high.toNat * 2 ^ 32 + low.toNat = 8 * (m ++ [b]).length :=
    fun hnext => by
    rw [List.length_append, List.length_singleton]
    exact hbits hnext
  unfold SHA1Context.inputByte
  rw [hlength, ← hcorrupted]
  clear hcorrupted hlength
  generalize (if m.length + 1 = 2 ^ 61 then Code.shaNull else s.corrupted) = corrupted at hfine ⊢
  dsimp only
  by_cases hfull : (s.block ++ [b]).length = 64
  · have hpush : fed (m ++ [b]) = ⟨Sha1.compress (fed m).state ((fed m).rest ++ [b]), [],
        Nat.succ_pos 63⟩ :=
      hfed.trans (dif_neg (by omega))
    rw [if_pos hfull]
    unfold SHA1Context.process
    dsimp only
    refine ⟨h.computed, rfl, fun hnext => ⟨?_, ?_, htotal hnext, h.computed, hfine hnext⟩⟩
    · rw [hpush]
      exact (processMessageBlock_eq _ _).trans (by rw [h.hash, h.block])
    · rw [hpush]
  · have hpush := hfed.trans (dif_pos (by omega : (fed m).rest.length + 1 < 64))
    rw [if_neg hfull]
    refine ⟨h.computed, rfl, fun hnext => ⟨?_, ?_, htotal hnext, h.computed, hfine hnext⟩⟩
    · rw [hpush]
      exact h.hash
    · rw [hpush]
      exact congrArg (· ++ [b]) h.block

/-- A message of a length that the standard allows is taken to its end. -/
theorem absorbs_inputLoop (h : Absorbs s m) {message : List Byte}
    (hlt : (m ++ message).length < 2 ^ 61) : Absorbs (s.inputLoop message) (m ++ message) := by
  induction message generalizing s m with
  | nil =>
    rw [List.append_nil]
    exact h
  | cons b message ih =>
    have hnext : m.length + 1 < 2 ^ 61 := by
      rw [List.length_append, List.length_cons] at hlt
      omega
    have hassoc : m ++ b :: message = m ++ [b] ++ message := by simp
    rw [hassoc] at hlt ⊢
    rw [SHA1Context.inputLoop, if_neg (not_not_intro h.corrupted)]
    exact ih ((inputByte_spec h b).2.2 hnext) hlt

/-- Any other leaves the loop at the byte with which it has 2^64 bits. -/
theorem inputLoop_too_long (h : Absorbs s m) {message : List Byte} (hm : m.length < 2 ^ 61)
    (hle : 2 ^ 61 ≤ (m ++ message).length) :
    (s.inputLoop message).corrupted = .shaNull ∧ (s.inputLoop message).computed = false := by
  induction message generalizing s m with
  | nil =>
    rw [List.append_nil] at hle
    omega
  | cons b message ih =>
    obtain ⟨hcomputed, hcorrupted, habsorbs⟩ := inputByte_spec h b
    have hassoc : m ++ b :: message = m ++ [b] ++ message := by simp
    rw [SHA1Context.inputLoop, if_neg (not_not_intro h.corrupted)]
    by_cases hend : m.length + 1 = 2 ^ 61
    · rw [if_pos hend] at hcorrupted
      have hstop : (s.inputByte b).inputLoop message = s.inputByte b := by
        cases message with
        | nil => rfl
        | cons b' message =>
          rw [SHA1Context.inputLoop, if_pos]
          rw [hcorrupted]
          exact Code.noConfusion
      rw [hstop]
      exact ⟨hcorrupted, hcomputed⟩
    · rw [hassoc] at hle
      refine ih (habsorbs (by omega)) ?_ hle
      rw [List.length_append, List.length_singleton]
      omega

theorem input_of_absorbs (h : Absorbs s m) (message : List Byte) :
    s.input (some message) = (.shaSuccess, s.inputLoop message) := by
  cases message with
  | nil => rfl
  | cons b message =>
    unfold SHA1Context.input
    simp only [h.computed, h.corrupted, Bool.false_eq_true, if_false, ne_eq, not_true_eq_false]

/-! ### The digest -/

theorem storeLength_block (hbits : s.lengthHigh.toNat * 2 ^ 32 + s.lengthLow.toNat = 8 * m.length) :
    s.storeLength.block = s.block ++ Sha256.lengthBytes (8 * m.length) := by
  have hlow := s.lengthLow.isLt
  have hhigh := s.lengthHigh.isLt
  have hbyte : ∀ (w : Word) (n : Nat), (w >>> n).setWidth 8 = BitVec.ofNat 8 (w.toNat / 2 ^ n) := by
    intro w n
    apply BitVec.eq_of_toNat_eq
    rw [BitVec.toNat_setWidth, BitVec.toNat_ushiftRight, Nat.shiftRight_eq_div_pow,
      BitVec.toNat_ofNat]
  have hsplit : [24, 16, 8, 0].map (fun n => (s.lengthHigh >>> n).setWidth 8) ++
      [24, 16, 8, 0].map (fun n => (s.lengthLow >>> n).setWidth 8) =
      Sha256.lengthBytes (8 * m.length) := by
    have hbytes : Sha256.lengthBytes (8 * m.length) =
        [7, 6, 5, 4, 3, 2, 1, 0].map fun k => BitVec.ofNat 8 (8 * m.length / 256 ^ k) := rfl
    rw [hbytes, ← hbits]
    simp only [hbyte, List.map_cons, List.map_nil, List.cons_append, List.nil_append]
    refine congrArg₂ _ ?_ (congrArg₂ _ ?_
      (congrArg₂ _ ?_ (congrArg₂ _ ?_ (congrArg₂ _ ?_ (congrArg₂ _ ?_
      (congrArg₂ _ ?_ (congrArg₂ _ ?_ rfl))))))) <;>
    · apply BitVec.eq_of_toNat_eq
      simp only [BitVec.toNat_ofNat]
      omega
  unfold SHA1Context.storeLength
  dsimp only
  rw [List.append_assoc, hsplit]

theorem storeLength_process
    (hbits : s.lengthHigh.toNat * 2 ^ 32 + s.lengthLow.toNat = 8 * m.length) :
    s.storeLength.process.intermediateHash =
      Sha1.compress s.intermediateHash (s.block ++ Sha256.lengthBytes (8 * m.length)) := by
  unfold SHA1Context.process
  dsimp only
  rw [processMessageBlock_eq, storeLength_block hbits]
  rfl

/-- The padding is that of the standard, in one block or in two. -/
theorem padMessage_hash (h : Absorbs s m) :
    s.padMessage.intermediateHash = (fed (Sha256.pad m)).state := by
  have hlt := (fed m).lt
  have hlength := length_rest_fed m
  have hblock : s.block.length = (fed m).rest.length := congrArg List.length h.block
  have hmarked : (s.block ++ [0x80]).length = (fed m).rest.length + 1 := by
    rw [List.length_append, List.length_singleton, hblock]
  have hpad : fed (Sha256.pad m) =
      (fed m).feed Sha1.compress
      (0x80 :: (List.replicate (Sha256.zeros m.length) 0 ++ Sha256.lengthBytes (8 * m.length))) :=
    fed_append m _
  have hbytes : (Sha256.lengthBytes (8 * m.length)).length = 8 := rfl
  unfold SHA1Context.padMessage SHA1Context.fillTo
  dsimp only
  by_cases hroom : 55 < s.block.length
  · have hzeros : Sha256.zeros m.length = 63 - (fed m).rest.length + 56 := by
      unfold Sha256.zeros
      omega
    have hcut : 0x80 :: (List.replicate (Sha256.zeros m.length) (0 : Byte) ++ Sha256.lengthBytes
      (8 * m.length)) =
        (0x80 :: List.replicate (63 - (fed m).rest.length) 0) ++
          (List.replicate 56 0 ++ Sha256.lengthBytes (8 * m.length)) := by
      rw [hzeros, List.replicate_add]
      simp
    have hfirst := @Stream.feed_of_eq _ _ _ Sha1.compress (fed m)
        (0x80 :: List.replicate (63 - (fed m).rest.length) 0)
      (by rw [List.length_cons, List.length_replicate]; omega)
    have hsecond := @Stream.feed_of_eq _ _ _ Sha1.compress
      ⟨Sha1.compress (fed m).state
        ((fed m).rest ++ 0x80 :: List.replicate (63 - (fed m).rest.length) 0), [], Nat.succ_pos 63⟩
      (List.replicate 56 0 ++ Sha256.lengthBytes (8 * m.length))
      (by rw [List.length_append, List.length_replicate, hbytes]; rfl)
    have hrest : 64 - (s.block ++ [0x80]).length = 63 - (fed m).rest.length := by omega
    rw [if_pos hroom, hrest, hpad, hcut, Stream.feed_append, hfirst, hsecond,
      storeLength_process (m := m)]
    · unfold SHA1Context.process
      simp only [processMessageBlock_eq, h.hash, h.block, List.append_assoc, List.singleton_append,
        List.nil_append, List.length_nil, Nat.sub_zero]
    · unfold SHA1Context.process
      dsimp only
      exact h.bits
  · have hzeros : Sha256.zeros m.length = 55 - (fed m).rest.length := by
      unfold Sha256.zeros
      omega
    have hall := @Stream.feed_of_eq _ _ _ Sha1.compress (fed m)
      (0x80 :: (List.replicate (Sha256.zeros m.length) 0 ++ Sha256.lengthBytes (8 * m.length)))
      (by rw [List.length_cons, List.length_append, List.length_replicate, hbytes]; omega)
    have hrest : 56 - (s.block ++ [0x80]).length = 55 - (fed m).rest.length := by omega
    rw [if_neg hroom, hrest, hpad, hall, storeLength_process (m := m)]
    · simp only [hzeros, h.hash, h.block, List.append_assoc, List.cons_append, List.nil_append]
    · exact h.bits

theorem digest_eq (s : SHA1Context) : s.digest = s.intermediateHash.bytes := by
  have hrange : List.range 20 = (List.range 5).flatMap fun i => (List.range 4).map fun j =>
      4 * i + j := by decide
  have hwords : s.intermediateHash.words = (List.range 5).map fun i =>
      s.intermediateHash.words.getD i 0 := rfl
  unfold SHA1Context.digest Hash.bytes
  conv_rhs => rw [hwords]
  rw [hrange, List.map_flatMap, List.flatMap_map]
  refine List.flatMap_congr fun i _ => ?_
  unfold Sha256.wordBytes
  rw [List.map_map]
  refine List.map_congr_left fun j hj => ?_
  have hj4 := List.mem_range.1 hj
  have hdiv : (4 * i + j) / 4 = i := by omega
  have hmod : (4 * i + j) % 4 = j := by omega
  have hpow : 256 ^ (3 - j) = 2 ^ (8 * (3 - j)) := by rw [Nat.pow_mul]
  apply BitVec.eq_of_toNat_eq
  rw [Function.comp_apply, hdiv, hmod, BitVec.toNat_setWidth, BitVec.toNat_ushiftRight,
    Nat.shiftRight_eq_div_pow, BitVec.toNat_ofNat, hpow]

/-- The digest of what an object has taken. -/
theorem result_of_absorbs (h : Absorbs s m) :
    ∃ t, s.result = (.shaSuccess, some (Sha1.sha1 m), t) ∧ t.computed = true ∧
    t.corrupted = .shaSuccess ∧
      t.digest = Sha1.sha1 m := by
  have hstate : (fed (Sha256.pad m)).state =
      chain Sha1.compress 64 Sha1.initial (Sha256.pad m) ((Sha256.pad m).length / 64) :=
    (feed_new Sha1.initial (Nat.succ_pos 63) (Sha256.pad m)).1
  have hcorrupted : s.padMessage.corrupted = .shaSuccess := by
    unfold SHA1Context.padMessage SHA1Context.process SHA1Context.storeLength SHA1Context.fillTo
    dsimp only
    split <;> exact h.corrupted
  have hdigest : ({ s.padMessage with
      block := [], lengthLow := 0, lengthHigh := 0, computed := true } : SHA1Context).digest =
      Sha1.sha1 m := by
    rw [digest_eq]
    exact congrArg Hash.bytes ((padMessage_hash h).trans hstate)
  refine ⟨{ s.padMessage with block := [], lengthLow := 0, lengthHigh := 0, computed := true }, ?_,
    rfl, hcorrupted, hdigest⟩
  unfold SHA1Context.result
  rw [if_neg (not_not_intro h.corrupted), h.computed, hdigest.symm]
  rfl

/-! ### Runs -/

/-- A call reports what the specification does, and leads to the state that it leads to. -/
theorem shows_call {h : Hasher} (hs : Shows s h) (c : Call) :
    (s.call c).1 = (h.call c).1 ∧ Shows (s.call c).2 (h.call c).2 := by
  cases c with
  | input message =>
    rcases message with - | (- | ⟨b, message⟩)
    · cases h <;> exact ⟨rfl, hs⟩
    · cases h <;> exact ⟨rfl, hs⟩
    · cases h with
      | taking m =>
        obtain ⟨hm, h⟩ := hs
        unfold SHA1Context.call Hasher.call
        dsimp only
        rw [input_of_absorbs h]
        refine ⟨rfl, ?_⟩
        dsimp only
        split
        · next hlt => exact ⟨hlt, absorbs_inputLoop h hlt⟩
        · next hge =>
          obtain ⟨hcorrupted, hcomputed⟩ := inputLoop_too_long h hm (Nat.le_of_not_lt hge)
          refine ⟨hcorrupted, Code.noConfusion, fun hdone => ?_⟩
          rw [hcomputed] at hdone
          cases hdone
      | done digest =>
        obtain ⟨hcomputed, hcorrupted, -⟩ := hs
        have hcall : s.call (.input (some (b :: message))) =
            (⟨.shaStateError, none⟩, { s with corrupted := .shaStateError }) := by
          unfold SHA1Context.call SHA1Context.input
          simp only [hcomputed, if_true]
        rw [hcall]
        exact ⟨rfl, rfl, Code.noConfusion, fun _ => rfl⟩
      | failed code =>
        obtain ⟨hcode, hne, hstate⟩ := hs
        by_cases hcomputed : s.computed = true
        · obtain rfl := hstate hcomputed
          have hcall : s.call (.input (some (b :: message))) =
              (⟨.shaStateError, none⟩, { s with corrupted := .shaStateError }) := by
            unfold SHA1Context.call SHA1Context.input
            simp only [hcomputed, if_true]
          rw [hcall]
          exact ⟨rfl, rfl, hne, fun _ => rfl⟩
        · have hcall : s.call (.input (some (b :: message))) = (⟨code, none⟩, s) := by
            unfold SHA1Context.call SHA1Context.input
            simp only [hcomputed, Bool.false_eq_true, if_false, hcode, ne_eq, hne,
              not_false_eq_true, if_true]
          rw [hcall]
          exact ⟨rfl, hcode, hne, hstate⟩
  | result =>
    cases h with
    | taking m =>
      obtain ⟨t, hresult, hcomputed, hcorrupted, hdigest⟩ := result_of_absorbs hs.2
      unfold SHA1Context.call Hasher.call
      dsimp only
      rw [hresult]
      exact ⟨rfl, hcomputed, hcorrupted, hdigest⟩
    | done digest =>
      obtain ⟨hcomputed, hcorrupted, hdigest⟩ := hs
      have hcall : s.call .result = (⟨.shaSuccess, some digest⟩, s) := by
        unfold SHA1Context.call SHA1Context.result
        simp only [hcomputed, hcorrupted, ne_eq, not_true_eq_false, if_false, if_true, hdigest]
      rw [hcall]
      exact ⟨rfl, hcomputed, hcorrupted, hdigest⟩
    | failed code =>
      obtain ⟨hcode, hne, hstate⟩ := hs
      have hcall : s.call .result = (⟨code, none⟩, s) := by
        unfold SHA1Context.call SHA1Context.result
        simp only [hcode, ne_eq, hne, not_false_eq_true, if_true]
      rw [hcall]
      exact ⟨rfl, hcode, hne, hstate⟩

/-- Whatever the calls are, and in whatever order, an object reports what the specification does. -/
theorem outcomes_eq (calls : List Call) :
    reset.outcomes calls = (Hasher.taking []).outcomes calls := by
  have hrun : ∀ (s : SHA1Context) (h : Hasher),
      Shows s h → s.outcomes calls = h.outcomes calls := by
    induction calls with
    | nil => exact fun _ _ _ => rfl
    | cons c calls ih =>
      intro s h hs
      obtain ⟨hcode, hnext⟩ := shows_call hs c
      rw [SHA1Context.outcomes, Hasher.outcomes, hcode, ih _ _ hnext]
  exact hrun _ _ ⟨Nat.two_pow_pos 61, absorbs_reset⟩

/-- The pages are taken to the end of the file. -/
theorem absorbs_calcSha1Loop {turns : Nat} {rest : List Byte} (h : Absorbs s m)
    (hturns : rest.length ≤ turns) (hlt : (m ++ rest).length < 2 ^ 61) :
    Absorbs (calcSha1Loop turns s rest) (m ++ rest) := by
  induction turns generalizing s m rest with
  | zero =>
    obtain rfl := List.length_eq_zero_iff.1 (Nat.le_zero.1 hturns)
    rw [List.append_nil]
    exact h
  | succ turns ih =>
    unfold calcSha1Loop
    split
    · next hnil =>
      rw [hnil, List.append_nil]
      exact h
    · next hne =>
      have hpos : 0 < rest.length := List.length_pos_iff.2 hne
      have hpage : m ++ rest.take (1024 * 1024) ++ rest.drop (rest.take (1024 * 1024)).length =
          m ++ rest := by
        rw [List.append_assoc, List.length_take]
        rcases Nat.le_total (1024 * 1024) rest.length with hle | hle
        · rw [Nat.min_eq_left hle, List.take_append_drop]
        · rw [Nat.min_eq_right hle, List.take_of_length_le hle, List.drop_length, List.append_nil]
      have hshort : (rest.drop (rest.take (1024 * 1024)).length).length ≤ turns := by
        rw [List.length_drop, List.length_take]
        omega
      rw [← hpage] at hlt ⊢
      dsimp only
      rw [input_of_absorbs h]
      refine ih (absorbs_inputLoop h ?_) hshort hlt
      rw [List.length_append] at hlt
      omega

/-- A file is hashed as a whole. -/
theorem calcSha1_eq {content : List Byte} (h : content.length < 2 ^ 61) :
    calcSha1 content = Sha1.sha1 content := by
  have habsorbs : Absorbs (calcSha1Loop content.length reset content) content :=
    absorbs_calcSha1Loop absorbs_reset (Nat.le_refl _) h
  obtain ⟨t, hresult, -⟩ := result_of_absorbs habsorbs
  unfold calcSha1
  rw [hresult]
  rfl

theorem calcSha1_eq_abc : calcSha1 (ascii "abc") = Sha1.sha1 (ascii "abc") :=
  calcSha1_eq (by simp [ascii])

end Diana.Orthia.Sha1
