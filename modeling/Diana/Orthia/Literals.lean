import Diana.Orthia.Tokenizer
import Mathlib.Data.List.Basic
import Mathlib.Data.List.TakeWhile
import Mathlib.Tactic.IntervalCases

/-!
# Integer literals

What `CaptureDigitLiteral` makes of a literal: a radix mark, digits and suffixes.

* `Literal`: the parts of a literal; `Literal.WellFormed`: it is read as a whole;
* `literalValue_eq`: the value of its digits;
* `captureDigitLiteral_exact_iff`: when the token has the value.
-/

namespace Diana.Tokens

open Diana.Lib

/-! ## Digits -/

/-- The digits of the largest value. -/
def IntType.maxDigits : IntType → List Nat
  | .dec => [1, 8, 4, 4, 6, 7, 4, 4, 0, 7, 3, 7, 0, 9, 5, 5, 1, 6, 1, 5]
  | .octal => 1 :: List.replicate 21 7
  | .hex => List.replicate 16 15
  | .binary => List.replicate 64 1

def hexDigits : List Char :=
  ['0', '1', '2', '3', '4', '5', '6', '7', '8', '9', 'a', 'b', 'c', 'd', 'e', 'f', 'A', 'B', 'C',
    'D', 'E', 'F']

theorem char_le {a b : Char} : a ≤ b ↔ a.toNat ≤ b.toNat := by
  rw [Char.le_def, UInt32.le_iff_toNat_le]
  rfl

theorem mem_hexDigits {ch : Char} (h : digitValue ch < 16) : ch ∈ hexDigits := by
  have hrange : (48 ≤ ch.toNat ∧ ch.toNat ≤ 57) ∨ (97 ≤ ch.toNat ∧ ch.toNat ≤ 102) ∨
      (65 ≤ ch.toNat ∧ ch.toNat ≤ 70) := by
    unfold digitValue at h
    simp only [char_le] at h
    change (if 48 ≤ ch.toNat ∧ ch.toNat ≤ 57 then _
      else if 97 ≤ ch.toNat ∧ ch.toNat ≤ 122 then _ else
      if 65 ≤ ch.toNat ∧ ch.toNat ≤ 90 then _ else _) < 16 at h
    split_ifs at h <;> omega
  rw [← Char.ofNat_toNat ch]
  rcases hrange with ⟨h1, h2⟩ | ⟨h1, h2⟩ | ⟨h1, h2⟩
  all_goals interval_cases ch.toNat <;> decide

theorem toLower_digit : ∀ ch ∈ hexDigits, ch.toLower = Nat.digitChar (digitValue ch) :=
  List.forall_iff_forall_mem.1 (by decide)

theorem isHexChar_digit : ∀ ch ∈ hexDigits, isDigit ch ∨ isHexLetter ch :=
  List.forall_iff_forall_mem.1 (by decide)

theorem binary_digit : ∀ ch ∈ hexDigits, digitValue ch < 2 → ¬ ('2' ≤ ch ∧ ch ≤ '9') :=
  List.forall_iff_forall_mem.1 (by decide)

theorem decimal_digit : ∀ ch ∈ hexDigits, digitValue ch < 10 → isHexLetter ch = false :=
  List.forall_iff_forall_mem.1 (by decide)

theorem toLower_digitChar : ∀ d < 16, (Nat.digitChar d).toLower = Nat.digitChar d := by decide

theorem digitChar_inj : ∀ a < 16, ∀ b < 16, Nat.digitChar a = Nat.digitChar b → a = b := by decide

section

variable (type : IntType)

theorem radix_le : 1 < type.radix ∧ type.radix ≤ 16 := by cases type <;> decide

theorem ui64toa_max : ui64toa ullongMax type.radix = type.maxDigits.map Nat.digitChar := by
  cases type <;> decide +kernel

theorem maxDigits_lt : ∀ d ∈ type.maxDigits, d < type.radix := by cases type <;> decide

theorem ofDigits_maxDigits : Nat.ofDigits type.radix type.maxDigits.reverse = ullongMax := by
  cases type <;> decide +kernel

theorem pow_le_max : type.radix ^ (type.maxDigits.length - 1) ≤ ullongMax := by
  cases type <;> decide +kernel

end

section

variable {type : IntType} {digits : List Char}

theorem digitsValue_append (radix : Nat) (p d : List Char) :
    digitsValue radix (p ++ d) = digitsValue radix p * radix ^ d.length + digitsValue radix d := by
  unfold digitsValue
  rw [List.reverse_append, List.map_append, Nat.ofDigits_append, List.length_map,
    List.length_reverse, Nat.mul_comm, Nat.add_comm]

theorem digitsValue_lt (hdigits : ∀ ch ∈ digits, digitValue ch < type.radix) :
    digitsValue type.radix digits < type.radix ^ digits.length := by
  have h := Nat.ofDigits_lt_base_pow_length (b := type.radix) (l := digits.reverse.map digitValue)
      (radix_le type).1
    (by simpa using hdigits)
  rwa [List.length_map, List.length_reverse] at h

/-- A text of the length of the largest value is its text if it has its value. -/
theorem sameText_max (hdigits : ∀ ch ∈ digits, digitValue ch < type.radix)
    (hlength : digits.length = type.maxDigits.length) :
    sameText digits (ui64toa ullongMax type.radix) ↔ digitsValue type.radix digits = ullongMax := by
  have hhex : ∀ ch ∈ digits, digitValue ch < 16 :=
    fun ch h => (hdigits ch h).trans_le (radix_le type).2
  have hmax : ∀ d ∈ type.maxDigits, d < 16 :=
    fun d h => (maxDigits_lt type d h).trans_le (radix_le type).2
  have hdigitChars : digits.map Char.toLower = (digits.map digitValue).map Nat.digitChar := by
    rw [List.map_map]
    exact List.map_congr_left fun ch h => toLower_digit ch (mem_hexDigits (hhex ch h))
  have hmaxChars : (type.maxDigits.map Nat.digitChar).map Char.toLower =
      type.maxDigits.map Nat.digitChar := by
    rw [List.map_map]
    exact List.map_congr_left fun d h => toLower_digitChar d (hmax d h)
  unfold sameText
  rw [ui64toa_max, hdigitChars, hmaxChars]
  constructor
  · intro h
    have hvalues : digits.map digitValue = type.maxDigits := by
      refine List.ext_getElem (by rw [List.length_map, hlength]) fun i h1 h2 => ?_
      have hi := congrArg (fun l => l[i]?) h
      simp only [List.getElem?_map, List.getElem?_eq_getElem h1, List.getElem?_eq_getElem h2,
        Option.map_some, Option.some.injEq] at hi
      refine digitChar_inj _ ?_ _ (hmax _ (List.getElem_mem h2)) hi
      rw [List.getElem_map]
      exact hhex _ (List.getElem_mem _)
    rw [digitsValue, List.map_reverse, hvalues, ofDigits_maxDigits]
  · intro h
    have hvalues : (digits.map digitValue).reverse = type.maxDigits.reverse := by
      refine Nat.ofDigits_inj_of_len_eq (radix_le type).1 (by simpa using hlength)
        (by simpa using hdigits) (by simpa using maxDigits_lt type) ?_
      rw [ofDigits_maxDigits, ← h, digitsValue, List.map_reverse]
    rw [List.reverse_inj.1 hvalues]

/-- The last digits are those of the largest value. -/
def EndsInMax (type : IntType) (digits : List Char) : Prop :=
  digitsValue type.radix (digits.drop (digits.length - type.maxDigits.length)) = ullongMax

instance (type : IntType) (digits : List Char) :
    Decidable (EndsInMax type digits) := inferInstanceAs (Decidable (_ = _))

theorem length_of_max_le (hdigits : ∀ ch ∈ digits, digitValue ch < type.radix)
    (hmax : ullongMax ≤ digitsValue type.radix digits) : type.maxDigits.length ≤ digits.length := by
  have hlt : type.radix ^ (type.maxDigits.length - 1) < type.radix ^ digits.length :=
    ((pow_le_max type).trans hmax).trans_lt (digitsValue_lt hdigits)
  have := (Nat.pow_lt_pow_iff_right (radix_le type).1).1 hlt
  omega

/-- The value of digits: where it may have overflown, that of the last ones decides. -/
theorem literalValue_eq (hdigits : ∀ ch ∈ digits, digitValue ch < type.radix) :
    literalValue type.radix digits =
      if digitsValue type.radix digits < ullongMax then .ok (digitsValue type.radix digits)
      else if EndsInMax type digits then .ok ullongMax else .error "Integer overflow" := by
  have hall : ∀ ch ∈ digits, (fun ch => decide (digitValue ch < type.radix)) ch = true :=
    fun ch h => decide_eq_true (hdigits ch h)
  unfold literalValue strtoull
  rw [List.takeWhile_eq_self_iff.2 hall, List.dropWhile_eq_nil_iff.2 hall]
  dsimp only
  rw [if_neg (not_not_intro rfl)]
  by_cases hlt : digitsValue type.radix digits < ullongMax
  · rw [if_pos hlt, if_neg (by omega), Nat.min_eq_left hlt.le]
  · rw [if_neg hlt, Nat.min_eq_right (Nat.le_of_not_lt hlt)]
    have hlength := length_of_max_le hdigits (Nat.le_of_not_lt hlt)
    have hmaxLength : (ui64toa ullongMax type.radix).length = type.maxDigits.length := by
      rw [ui64toa_max, List.length_map]
    have hsame : _ ↔ digitsValue type.radix (digits.drop (digits.length - type.maxDigits.length)) =
        _ := sameText_max
      (fun ch h => hdigits ch (List.mem_of_mem_drop h)) (by rw [List.length_drop]; omega)
    rw [hmaxLength]
    by_cases hends : EndsInMax type digits
    · rw [if_pos hends, if_neg fun h => h.2 (hsame.2 hends)]
    · rw [if_neg hends, if_pos ⟨rfl, fun h => hends (hsame.1 h)⟩]

/-- The digits before the last ones. -/
def before (type : IntType) (digits : List Char) :
    List Char := digits.take (digits.length - type.maxDigits.length)

theorem digitsValue_split (hmax : ullongMax ≤ digitsValue type.radix digits)
    (hdigits : ∀ ch ∈ digits, digitValue ch < type.radix) :
    digitsValue type.radix digits = digitsValue type.radix
    (before type digits) * type.radix ^ type.maxDigits.length +
      digitsValue type.radix (digits.drop (digits.length - type.maxDigits.length)) := by
  have hlength := length_of_max_le hdigits hmax
  have h := digitsValue_append type.radix (digits.take (digits.length - type.maxDigits.length))
    (digits.drop (digits.length - type.maxDigits.length))
  rwa [List.take_append_drop, List.length_drop,
    show digits.length - (digits.length - type.maxDigits.length) =
    type.maxDigits.length by omega] at h

theorem max_lt_pow (type : IntType) : ullongMax < type.radix ^ type.maxDigits.length := by
  cases type <;> decide +kernel

theorem max_le_of_endsInMax (h : EndsInMax type digits) :
    ullongMax ≤ digitsValue type.radix digits := by
  have hsplit := digitsValue_append type.radix (digits.take (digits.length - type.maxDigits.length))
    (digits.drop (digits.length - type.maxDigits.length))
  rw [List.take_append_drop] at hsplit
  unfold EndsInMax at h
  omega

/-- The value is the largest one if its digits are the last ones, and only zeros stand before
them. -/
theorem eq_max_iff (hmax : ullongMax ≤ digitsValue type.radix digits)
    (hdigits : ∀ ch ∈ digits, digitValue ch < type.radix) :
    digitsValue type.radix digits = ullongMax ↔
      EndsInMax type digits ∧ digitsValue type.radix (before type digits) = 0 := by
  have hsplit := digitsValue_split hmax hdigits
  have hlt := max_lt_pow type
  unfold EndsInMax
  constructor
  · intro h
    have hzero : digitsValue type.radix (before type digits) = 0 := by
      by_contra hne
      have := Nat.le_mul_of_pos_left (type.radix ^ type.maxDigits.length) (Nat.pos_of_ne_zero hne)
      omega
    rw [hzero, Nat.zero_mul, Nat.zero_add] at hsplit
    exact ⟨hsplit.symm.trans h, hzero⟩
  · rintro ⟨hends, hzero⟩
    rw [hsplit, hzero, hends, Nat.zero_mul, Nat.zero_add]

end

/-! ## Literals -/

/-- A literal in a line: a `0` with a radix mark, digits, suffixes, in the windbg style an `h`, and
what follows it. -/
structure Literal where
  mark : Option Char
  digits : List Char
  suffixes : List Char
  closed : Bool
  rest : List Char

def isU (ch : Char) : Bool := ch = 'u' ∨ ch = 'U'

def isL (ch : Char) : Bool := ch = 'l' ∨ ch = 'L'

namespace Literal

variable (windbg : Bool) (L : Literal)

/-- What follows the digits. -/
def behind : List Char := L.suffixes ++ ((if L.closed then ['h'] else []) ++ L.rest)

def text :
    List Char := (match L.mark with | none => [] | some m => ['0', m]) ++ (L.digits ++ L.behind)

def type : IntType :=
  match L.mark with
  | none =>
    if hasCurrent L.digits = '0' then if windbg then .hex else .octal
      else if windbg then .hex else .dec
  | some 'n' => .dec
  | some 'b' => .binary
  | some _ => .hex

def value : Nat := digitsValue (L.type windbg).radix L.digits

/-- The suffixes that are there. -/
def was :
    Suffixes := ⟨0 < L.suffixes.countP isU, 0 < L.suffixes.countP isL, 1 < L.suffixes.countP isL⟩

/-- `sizeof` of the type: `int` and `unsigned`, or `long long` and `unsigned long long`. -/
def size : Nat := if L.was.wasLL ∨ windbg then 8 else 4

def signed : Bool := !(L.was.wasU ∨ windbg)

/-- The largest value of the type. -/
def largest : Nat := if L.signed windbg then 2 ^ (8 * L.size windbg - 1) - 1
    else 2 ^ (8 * L.size windbg) - 1

/-- The literal is read as a whole, and nothing behind it goes on with it. -/
structure WellFormed : Prop where
  mark : ∀ m ∈ L.mark, m ∈ ['n', 'x', 'X', 'b']
  digits : ∀ ch ∈ L.digits, digitValue ch < (L.type windbg).radix
  start : L.mark = none → L.digits ≠ [] ∧
    (hasCurrent L.digits = '0' → hasOneMore L.text ∉ ['n', 'x', 'X', 'b'])
  suffixes : ∀ ch ∈ L.suffixes, isU ch ∨ isL ch
  countU : L.suffixes.countP isU ≤ 1
  countL : L.suffixes.countP isL ≤ 2
  closed : L.closed → windbg
  body : ¬ isHexChar (hasCurrent L.behind)
  stop : L.closed = false → ¬ isU (hasCurrent L.rest) ∧ ¬ isL (hasCurrent L.rest) ∧
    (windbg → hasCurrent L.rest ≠ 'h')

end Literal

/-! ## Captures -/

section

variable {windbg : Bool} {L : Literal}

theorem digitBody_append {type : IntType} {digits behind : List Char}
    (hdigits : ∀ ch ∈ digits, digitValue ch < type.radix)
    (hbehind : ¬ isHexChar (hasCurrent behind)) :
    digitBody type (digits ++ behind) = .ok (digits, behind) := by
  induction digits with
  | nil =>
    cases behind with
    | nil => rfl
    | cons ch tail =>
      have hstop : ¬ (isDigit ch ∨ isHexLetter ch) := fun h => hbehind (decide_eq_true h)
      rw [List.nil_append, digitBody, if_neg hstop]
  | cons ch digits ih =>
    have hdigit := hdigits ch List.mem_cons_self
    have hmem := mem_hexDigits (hdigit.trans_le (radix_le type).2)
    have hgood : ¬ ((type = .binary ∧ '2' ≤ ch ∧ ch ≤ '9') ∨ (type ≠ .hex ∧ isHexLetter ch)) := by
      rintro (⟨rfl, h⟩ | ⟨hne, h⟩)
      · exact binary_digit ch hmem hdigit h
      · have hten : digitValue ch < 10 := by
          cases type with
          | hex => exact absurd rfl hne
          | dec => exact hdigit
          | octal => exact hdigit.trans (by decide)
          | binary => exact hdigit.trans (by decide)
        rw [decimal_digit ch hmem hten] at h
        exact absurd h (by decide)
    rw [List.cons_append, digitBody, if_pos (isHexChar_digit ch hmem), if_neg hgood,
      ih fun c h => hdigits c (List.mem_cons_of_mem _ h)]
    rfl

/-- The suffixes that are counted. -/
def Suffixes.of (u l : Nat) : Suffixes := ⟨0 < u, 0 < l, 1 < l⟩

theorem suffixLoop_append {suffixes tail : List Char}
    (hsuffixes : ∀ ch ∈ suffixes, isU ch ∨ isL ch) {u l : Nat} (hu : u + suffixes.countP isU ≤ 1)
    (hl : l + suffixes.countP isL ≤ 2) : suffixLoop windbg (.of u l) (suffixes ++ tail) =
      suffixLoop windbg (.of (u + suffixes.countP isU) (l + suffixes.countP isL)) tail := by
  induction suffixes generalizing u l with
  | nil => rfl
  | cons ch suffixes ih =>
    have hrest : ∀ c ∈ suffixes, isU c ∨ isL c := fun c h => hsuffixes c (List.mem_cons_of_mem _ h)
    rw [List.cons_append, suffixLoop]
    rcases hsuffixes ch List.mem_cons_self with h | h
    · -- a `u`, which is no `l`
      have hch : ch = 'u' ∨ ch = 'U' := of_decide_eq_true h
      have hnoL : isL ch = false := by rcases hch with rfl | rfl <;> rfl
      have hnoH : ch ≠ 'h' := by rcases hch with rfl | rfl <;> decide
      rw [List.countP_cons_of_pos h, List.countP_cons_of_neg (by rw [hnoL]; decide)] at *
      obtain rfl : u = 0 := by omega
      have hu0 : ¬ (Suffixes.of 0 l).wasU := Bool.false_ne_true
      rw [if_neg hnoH, if_pos hch, if_neg hu0,
        show 0 + (suffixes.countP isU + 1) = 0 + 1 + suffixes.countP isU by omega]
      exact ih (u := 0 + 1) hrest (by omega) hl
    · have hch : ch = 'l' ∨ ch = 'L' := of_decide_eq_true h
      have hnoU : isU ch = false := by rcases hch with rfl | rfl <;> rfl
      have hnoH : ch ≠ 'h' := by rcases hch with rfl | rfl <;> decide
      have hnotU : ¬ (ch = 'u' ∨ ch = 'U') := by rcases hch with rfl | rfl <;> decide
      rw [List.countP_cons_of_pos h, List.countP_cons_of_neg (by rw [hnoU]; decide)] at *
      have hl1 : ¬ ((Suffixes.of u l).wasL ∧ (Suffixes.of u l).wasLL) := by
        unfold Suffixes.of
        simp only [decide_eq_true_eq]
        omega
      have hnext : { Suffixes.of u l with wasL := true, wasLL := (Suffixes.of u l).wasL } =
          Suffixes.of u (l + 1) := by
        unfold Suffixes.of
        simp
      rw [if_neg hnoH, if_neg hnotU, if_pos hch, if_neg hl1, hnext,
        show l + (suffixes.countP isL + 1) = l + 1 + suffixes.countP isL by omega]
      exact ih (l := l + 1) hrest hu (by omega)

variable (hL : L.WellFormed windbg)

include hL

theorem suffixLoop_behind :
    suffixLoop windbg ⟨false, false, false⟩ L.behind = .ok (L.was, L.rest) := by
  have h : suffixLoop windbg _ (_ ++ ((if L.closed then ['h'] else []) ++ L.rest)) = _ :=
    suffixLoop_append (u := 0) (l := 0) hL.suffixes (by rw [Nat.zero_add]; exact hL.countU)
      (by rw [Nat.zero_add]; exact hL.countL)
  rw [Nat.zero_add, Nat.zero_add] at h
  refine h.trans ?_
  change suffixLoop windbg L.was _ = _
  cases hclosed : L.closed with
  | true =>
    rw [if_pos rfl, List.singleton_append, suffixLoop, if_pos rfl, if_pos (hL.closed hclosed)]
  | false =>
    rw [if_neg (by decide), List.nil_append]
    obtain ⟨hu, hl, hh⟩ := hL.stop hclosed
    cases hrest : L.rest with
    | nil => rfl
    | cons ch tail =>
      rw [hrest] at hu hl hh
      rw [suffixLoop]
      by_cases hch : ch = 'h'
      · have hwindbg : windbg = false := Bool.eq_false_iff.2 fun h => hh h hch
        rw [if_pos hch, hwindbg]
        rfl
      · have hnotU : ¬ (ch = 'u' ∨ ch = 'U') := fun h => hu (decide_eq_true h)
        have hnotL : ¬ (ch = 'l' ∨ ch = 'L') := fun h => hl (decide_eq_true h)
        rw [if_neg hch, if_neg hnotU, if_neg hnotL]

theorem literalPrefix_text :
    ∃ first body, literalPrefix windbg L.text = (L.type windbg, first, body ++ L.behind) ∧
    first ++ body = L.digits := by
  have hstart := hL.start
  unfold Literal.text at hstart ⊢
  unfold literalPrefix Literal.type
  cases hmark : L.mark with
  | some m =>
    have hm := hL.mark m hmark
    simp only [List.mem_cons, List.not_mem_nil, or_false] at hm
    refine ⟨[], L.digits, ?_, rfl⟩
    rcases hm with rfl | rfl | rfl | rfl <;> rfl
  | none =>
    obtain ⟨hne, hmarks⟩ := hstart hmark
    rw [hmark] at hmarks
    obtain ⟨d, digits, hdigits⟩ := List.exists_cons_of_ne_nil hne
    rw [hdigits] at hmarks ⊢
    refine ⟨[d], digits, ?_, rfl⟩
    dsimp only [List.nil_append, List.cons_append] at hmarks ⊢
    by_cases hzero : d = '0'
    · subst hzero
      have hsecond := hmarks rfl
      simp only [List.mem_cons, List.not_mem_nil, or_false, not_or] at hsecond
      obtain ⟨hn, hx, hX, hb⟩ := hsecond
      have hzero : ∀ l, hasCurrent ('0' :: l) = '0' := fun _ => rfl
      rw [if_pos (hzero _), if_neg hn, if_neg (by tauto), if_neg hb, if_pos (hzero _)]
      cases windbg <;> rfl
    · have hcurrent : ∀ l, hasCurrent (d :: l) ≠ '0' := fun _ => hzero
      rw [if_neg (hcurrent _), if_neg (hcurrent _)]
      rfl

omit hL in
theorem largest_le (windbg : Bool) (L : Literal) : L.largest windbg ≤ ullongMax := by
  unfold Literal.largest Literal.size
  split <;> split <;> decide

omit hL in
/-- A value that fits is registered as one of its type. -/
theorem registerLiteral_eq (t : Token) (ht : t.signedValue = false) {value : Nat}
    (hvalue : value ≤ ullongMax) : registerLiteral windbg L.was t value =
      if value ≤ L.largest windbg then
        .ok { t with data := leBytes (L.size windbg) value, signedValue := L.signed windbg }
      else .error "Constant too big" := by
  have hunsigned : ∀ d, { t with data := d } = { t with data := d, signedValue := false } :=
    fun d => by rw [← ht]
  unfold ullongMax at hvalue
  unfold registerLiteral Literal.largest Literal.size Literal.signed
  rcases L.was with ⟨u, l, ll⟩
  cases ll <;> cases windbg <;> cases u
  all_goals
    simp only [or_true, or_false, or_self, if_true, if_false, Bool.false_eq_true, decide_true,
      decide_false, Bool.not_true, Bool.not_false, hunsigned]
    split_ifs <;> first | rfl | omega

/-- The token of a literal. -/
def Literal.token (windbg : Bool) (L : Literal) (t : Token) : Token :=
  { t with
    literalType := .int, data := leBytes (L.size windbg) (L.value windbg), signedValue :=
    L.signed windbg }

theorem captureDigitLiteral_text (S : Settings) (hS : S.windbgStyle = windbg) (t : Token) :
    captureDigitLiteral S t L.text = literalValue (L.type windbg).radix L.digits >>= fun value =>
      registerLiteral windbg L.was { t with literalType := .int } value >>= fun t =>
        .ok (t, L.rest) := by
  obtain ⟨first, body, hprefix, hdigits⟩ := literalPrefix_text hL
  have hbody : ∀ ch ∈ body, digitValue ch < (L.type windbg).radix :=
    fun ch h => hL.digits ch (hdigits ▸ List.mem_append_right _ h)
  unfold captureDigitLiteral
  rw [hS, hprefix]
  dsimp only
  rw [digitBody_append hbody hL.body]
  change (literalValue _ (first ++ body) >>= _) = _
  rw [hdigits]
  refine bind_congr fun value => ?_
  rw [suffixLoop_behind hL]
  rfl

end

/-- The literal is larger than `ULLONG_MAX`, but ends in its digits, and its type holds them. -/
def Literal.WrapsToMax (windbg : Bool) (L : Literal) : Prop :=
  L.largest windbg = ullongMax ∧ EndsInMax (L.type windbg) L.digits ∧
    digitsValue (L.type windbg).radix (before (L.type windbg) L.digits) ≠ 0

/-- The value of the literal is that of its digits, or it does not fit and is rejected. -/
def Literal.Exact (S : Settings) (t : Token) (L : Literal) : Prop :=
  (L.value S.windbgStyle ≤ L.largest S.windbgStyle →
    captureDigitLiteral S t L.text = .ok (L.token S.windbgStyle t, L.rest)) ∧
  (L.largest S.windbgStyle < L.value S.windbgStyle → ∃ e, captureDigitLiteral S t L.text = .error e)

/-- Only a literal that ends in the digits of the largest value is not exact. -/
theorem captureDigitLiteral_exact_iff (S : Settings) (s : Tokenizer) (L : Literal)
    (hL : L.WellFormed S.windbgStyle) :
    L.Exact S (s.buildNewToken .literal) ↔ ¬ L.WrapsToMax S.windbgStyle := by
  have hlargest := largest_le S.windbgStyle L
  have hregister := fun value (hvalue : value ≤ ullongMax) => @registerLiteral_eq S.windbgStyle L
    { s.buildNewToken .literal with literalType := .int } rfl value hvalue
  have hsplit := fun h => @eq_max_iff (L.type S.windbgStyle) L.digits h hL.digits
  unfold Literal.Exact
  rw [captureDigitLiteral_text hL S rfl, literalValue_eq hL.digits]
  change (L.value S.windbgStyle ≤ _ → _) ∧ _ ↔ _
  rw [show digitsValue (L.type S.windbgStyle).radix L.digits =
    L.value S.windbgStyle from rfl] at hsplit ⊢
  by_cases hlt : L.value S.windbgStyle < ullongMax
  · -- nothing overflows
    have hwraps : ¬ L.WrapsToMax S.windbgStyle :=
      fun h => absurd (max_le_of_endsInMax h.2.1) (Nat.not_le_of_lt hlt)
    refine iff_of_true ⟨fun hfits => ?_, fun hlarge => ?_⟩ hwraps
    · rw [if_pos hlt]
      change (registerLiteral _ _ _ _ >>= _) = _
      rw [hregister _ hlt.le, if_pos hfits]
      rfl
    · rw [if_pos hlt]
      change ∃ e, (registerLiteral _ _ _ _ >>= _) = _
      rw [hregister _ hlt.le, if_neg (Nat.not_le_of_lt hlarge)]
      exact ⟨_, rfl⟩
  · have hmax := Nat.le_of_not_lt hlt
    rw [if_neg hlt]
    by_cases hends : EndsInMax (L.type S.windbgStyle) L.digits
    · -- the value that is registered is the largest one
      rw [if_pos hends]
      change (_ → (registerLiteral _ _ _ _ >>= _) = _) ∧
        (_ → ∃ e, (registerLiteral _ _ _ _ >>= _) = _) ↔ _
      rw [hregister _ le_rfl]
      by_cases hholds : L.largest S.windbgStyle = ullongMax
      · rw [if_pos hholds.ge, hholds]
        unfold Literal.WrapsToMax
        constructor
        · rintro ⟨-, hreject⟩ ⟨-, -, hne⟩
          have hbefore : L.value S.windbgStyle ≠ ullongMax := fun h => hne ((hsplit hmax).1 h).2
          obtain ⟨e, he⟩ := hreject (by omega)
          cases he
        · intro hwraps
          have hvalue : L.value S.windbgStyle = ullongMax :=
            (hsplit hmax).2 ⟨hends, by_contra fun hne => hwraps ⟨hholds, hends, hne⟩⟩
          refine ⟨fun _ => ?_, fun h => absurd h (by omega)⟩
          unfold Literal.token
          rw [hvalue]
          rfl
      · rw [if_neg (by omega)]
        exact iff_of_true ⟨fun h => absurd h (by omega), fun _ => ⟨_, rfl⟩⟩ fun h => hholds h.1
    · have hvalue : L.value S.windbgStyle ≠ ullongMax := fun h => hends ((hsplit hmax).1 h).1
      rw [if_neg hends]
      exact iff_of_true ⟨fun h => absurd h (by omega), fun _ => ⟨_, rfl⟩⟩ fun h => hends h.2.1

/-- `1ffffffffffffffff` at the end of a line -/
def largeHex : Literal := ⟨none, '1' :: List.replicate 16 'f', [], false, []⟩

theorem noKnownName_le (text : List Char) : 0 ≤ text.length := Nat.zero_le _

/-- The settings of the windbg style without names. -/
def windbgSettings : Settings := ⟨true, fun _ => 0, noKnownName_le, fun _ => 0, 4⟩

theorem wellFormed_largeHex : largeHex.WellFormed true where
  mark := nofun
  digits := List.forall_iff_forall_mem.1 (by decide)
  start := by decide
  suffixes := nofun
  countU := by decide
  countL := by decide
  closed := by decide
  body := by decide
  stop := by decide

theorem captureDigitLiteral_exact_iff_largeHex :
    largeHex.Exact windbgSettings ((Tokenizer.new []).buildNewToken .literal) ↔
    ¬ largeHex.WrapsToMax true :=
  captureDigitLiteral_exact_iff windbgSettings (.new []) largeHex wellFormed_largeHex

/-- `1ffffffffffffffff` is taken for `ffffffffffffffff`. -/
theorem not_exact : ¬ ∀ (S : Settings) (s : Tokenizer) (L : Literal), L.WellFormed S.windbgStyle →
    L.Exact S (s.buildNewToken .literal) := by
  intro h
  obtain ⟨e, he⟩ := (h windbgSettings (.new []) largeHex wellFormed_largeHex).2 (by decide +kernel)
  have hok : (captureDigitLiteral windbgSettings ((Tokenizer.new []).buildNewToken .literal)
      largeHex.text).toBool = true := by
    decide +kernel
  rw [he] at hok
  cases hok

end Diana.Tokens
