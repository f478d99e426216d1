import Diana.Lib.Check
import Diana.Orthia.Tokenizer

/-!
# Tokens tile their text

Every capture takes a beginning of what is left of the line, so the tokens, the blanks and the
comments follow each other without gaps.

* `Tiling`: a text and the symbols of its tokens;
* `capture_takes`: what a capture takes;
* `turn_spec`, `turns_spec`: a turn, and the loop of `GetNextToken`;
* `tokenize_tiling`: the calls come to an end, and the symbols tile the text.

The text is made of the lines that the source gives.
-/

namespace Diana.Tokens

open Diana.Lib

/-! ## Texts -/

/-- A text: every line starts with `none`. -/
def flat (lines : List (List Char)) :
    List (Option Char) := lines.flatMap fun line => none :: line.map some

/-- There is no end of a comment in the text. -/
def NoClose (body : List (Option Char)) : Prop := ∀ p q, body ≠ p ++ some '*' :: some '/' :: q

/-- The symbols and, between them, blanks, line comments and comments make up the text. -/
inductive Tiling : List (Option Char) → List (List Char) → Prop
  | done : Tiling [] []
  | newLine {text symbols} (next : Tiling text symbols) : Tiling (none :: text) symbols
  | blank {ch text symbols} (hblank : isBlank ch) (next : Tiling text symbols) :
  Tiling (some ch :: text) symbols
  /-- A line comment goes to the end of the line. -/
  | lineComment {text symbols} (next : Tiling (text.dropWhile Option.isSome) symbols) :
      Tiling (some '/' :: some '/' :: text) symbols
  | comment {body text symbols} (hbody : NoClose body) (next : Tiling text symbols) :
      Tiling (some '/' :: some '*' :: (body ++ some '*' :: some '/' :: text)) symbols
  | token {symbol text symbols} (hsymbol : symbol ≠ []) (next : Tiling text symbols) :
      Tiling (symbol.map some ++ text) (symbol :: symbols)

theorem noClose_nil : NoClose [] := by
  intro p q h
  have := congrArg List.length h
  simp at this

theorem noClose_cons {x : Option Char} {body : List (Option Char)} (hbody : NoClose body)
    (hx : x = some '*' → body.head? ≠ some (some '/')) : NoClose (x :: body) := by
  intro p q h
  cases p with
  | nil =>
    obtain ⟨rfl, rfl⟩ := List.cons.inj h
    exact hx rfl rfl
  | cons y p => exact hbody p q (List.cons.inj h).2

/-! ## Captures -/

/-- A capture takes something from the beginning of the line. -/
def Takes (rest left : List Char) : Prop := left <:+ rest ∧ left.length < rest.length

theorem suffix_tail {rest left : List Char} (h : left <:+ rest.tail) :
    left <:+ rest := h.trans (List.tail_suffix rest)

theorem takes_tail {rest left : List Char} (hrest : rest ≠ []) (h : left <:+ rest.tail) :
    Takes rest left := by
  refine ⟨suffix_tail h, ?_⟩
  have hlength := h.length_le
  have hpos := List.length_pos_iff.2 hrest
  rw [List.length_tail] at hlength
  omega

section

variable {S : Settings} {t t' : Token} {rest left : List Char}

theorem matchMore_suffix {matcher : Matcher} {originalChar : Char} {n index : Nat}
    {invalid : Bool} {a} (h : matchMore matcher originalChar n index invalid rest = .ok a) :
    a.2.2 <:+ rest := by
  induction n generalizing index invalid rest a with
  | zero =>
    cases h
    exact List.suffix_rfl
  | succ n ih =>
    unfold matchMore at h
    split at h
    · cases h
    · split at h
      · cases h
        exact List.suffix_rfl
      · split at h
        · cases h
          exact List.tail_suffix rest
        · obtain ⟨⟨more, result⟩, hmore, h⟩ := bind_eq_ok.1 h
          cases h
          have hsuffix := ih hmore
          exact suffix_tail hsuffix

theorem captureOperator_takes {matcher : Option Matcher} (hrest : rest ≠ [])
    (h : captureOperator matcher t rest = .ok (t', left)) : Takes rest left := by
  unfold captureOperator at h
  cases matcher with
  | none =>
    cases h
    exact takes_tail hrest List.suffix_rfl
  | some matcher =>
    obtain ⟨⟨more, invalid, behind⟩, hmore, h⟩ := bind_eq_ok.1 h
    dsimp only at h
    split at h
    · cases h
    · cases h
      exact takes_tail hrest (matchMore_suffix hmore)

theorem stringBody_suffix {type : LiteralType} {a} (h : stringBody S type rest = .ok a) :
    a.2 <:+ rest := by
  induction hn : rest.length using Nat.strong_induction_on generalizing rest a with
  | _ n ih =>
    unfold stringBody at h
    cases rest with
    | nil => cases h
    | cons ch tail =>
      have hlength : (ch :: tail).length = tail.length + 1 := rfl
      dsimp only at h
      split at h
      · split at h
        · cases h
        · next value size _ =>
          obtain ⟨⟨data, behind⟩, hdata, h⟩ := bind_eq_ok.1 h
          cases h
          have hdrop := ih (tail.drop size).length (by rw [List.length_drop]; omega) hdata rfl
          exact suffix_tail (hdrop.trans (List.drop_suffix size tail))
      · by_cases hquote : ch = if type.isChar then singleQuote else doubleQuote
        · rw [if_pos hquote] at h
          cases h
          exact List.suffix_cons ch tail
        · rw [if_neg hquote] at h
          obtain ⟨⟨data, behind⟩, hdata, h⟩ := bind_eq_ok.1 h
          cases h
          have htail := ih tail.length (by omega) hdata rfl
          exact suffix_tail htail

theorem captureStringLiteral_takes {type : LiteralType} (hrest : rest ≠ [])
    (h : captureStringLiteral S type t rest = .ok (t', left)) : Takes rest left := by
  unfold captureStringLiteral at h
  obtain ⟨⟨data, behind⟩, hdata, h⟩ := bind_eq_ok.1 h
  have hbehind : left = behind := by
    dsimp only at h
    split at h
    · split at h
      · cases h
      · cases h
        rfl
    · cases h
      rfl
  rw [hbehind]
  exact takes_tail hrest (stringBody_suffix hdata)

theorem digitBody_suffix {type : IntType} {a} (h : digitBody type rest = .ok a) : a.2 <:+ rest := by
  induction rest generalizing a with
  | nil =>
    cases h
    exact List.suffix_rfl
  | cons ch tail ih =>
    unfold digitBody at h
    split at h
    · split at h
      · cases h
      · obtain ⟨⟨digits, behind⟩, hdigits, h⟩ := bind_eq_ok.1 h
        cases h
        have hsuffix := ih hdigits
        exact suffix_tail hsuffix
    · cases h
      exact List.suffix_rfl

theorem suffixLoop_suffix {windbg : Bool} {was : Suffixes} {a}
    (h : suffixLoop windbg was rest = .ok a) : a.2 <:+ rest := by
  induction rest generalizing was a with
  | nil =>
    cases h
    exact List.suffix_rfl
  | cons ch tail ih =>
    unfold suffixLoop at h
    split at h
    · cases h
      cases windbg with
      | true => exact List.suffix_cons ch tail
      | false => exact List.suffix_rfl
    · split at h
      · split at h
        · cases h
        · exact suffix_tail (ih h)
      · split at h
        · split at h
          · cases h
          · exact suffix_tail (ih h)
        · cases h
          exact List.suffix_rfl

theorem literalPrefix_suffix (windbg : Bool) (rest : List Char) :
    (literalPrefix windbg rest).2.2 <:+ rest.tail := by
  have hdrop : rest.drop 2 <:+ rest.tail := by
    rw [← List.drop_one, ← List.drop_drop (i := 1) (j := 1)]
    exact List.drop_suffix 1 _
  unfold literalPrefix
  dsimp only
  split_ifs <;> first | exact hdrop | exact List.suffix_rfl

theorem captureDigitLiteral_takes (hrest : rest ≠ [])
    (h : captureDigitLiteral S t rest = .ok (t', left)) : Takes rest left := by
  unfold captureDigitLiteral at h
  obtain ⟨⟨digits, behind⟩, hdigits, h⟩ := bind_eq_ok.1 h
  obtain ⟨value, -, h⟩ := bind_eq_ok.1 h
  obtain ⟨⟨was, rest'⟩, hwas, h⟩ := bind_eq_ok.1 h
  obtain ⟨u, -, h⟩ := bind_eq_ok.1 h
  cases h
  exact takes_tail hrest ((suffixLoop_suffix hwas).trans
    ((digitBody_suffix hdigits).trans (literalPrefix_suffix _ _)))

theorem captureWord_takes {force : Bool} (hrest : rest ≠ [])
    (h : captureWord S force t rest = .ok (t', left)) : Takes rest left := by
  unfold captureWord at h
  dsimp only at h
  generalize (if S.windbgStyle = true then S.knownName rest else 0) = size at h
  generalize hstart : (if size = 0 then 1 else size) = start at h
  have hpos : 0 < start := by
    rw [← hstart]
    split <;> omega
  split at h
  · exact captureDigitLiteral_takes hrest h
  · cases h
    obtain ⟨m, rfl⟩ : ∃ m, start = m + 1 := ⟨start - 1, by omega⟩
    rw [← List.drop_tail]
    exact takes_tail hrest ((List.dropWhile_suffix _).trans (List.drop_suffix m _))

theorem captureName_takes {force : Bool} (hrest : rest ≠ [])
    (h : captureName S force t rest = .ok (t', left)) : Takes rest left := by
  have hwide : ∀ {type : LiteralType} {u : Token}, hasOneMore rest ≠ nul →
      captureStringLiteral S type u rest.tail = .ok (t', left) → Takes rest left := by
    intro type u hmore h
    have htail : rest.tail ≠ [] := fun he => hmore (by unfold hasOneMore hasCurrent; rw [he]; rfl)
    exact takes_tail hrest (captureStringLiteral_takes htail h).1
  unfold captureName at h
  split at h
  · next hwideChar => exact hwide (by rw [hwideChar.2]; decide) h
  · split at h
    · next hwideString => exact hwide (by rw [hwideString.2]; decide) h
    · exact captureWord_takes hrest h

theorem capture_takes {force : Bool} {s : Tokenizer} (hrest : s.rest ≠ [])
    (h : s.capture S force = .ok (t, left)) : Takes s.rest left := by
  unfold Tokenizer.capture at h
  dsimp only at h
  split at h
  · exact captureName_takes hrest h
  · split at h
    · exact captureOperator_takes hrest h
    · split at h
      · exact captureStringLiteral_takes hrest h
      · split at h
        · exact captureStringLiteral_takes hrest h
        · split at h
          · exact captureDigitLiteral_takes hrest h
          · split at h
            · cases h
            · exact captureName_takes hrest h

/-- The symbol of a capture is what it has taken. -/
theorem takes_symbol (h : Takes rest left) :
    rest.take (rest.length - left.length) ≠ [] ∧ rest = rest.take
    (rest.length - left.length) ++ left ∧
      rest.drop (rest.length - left.length) = left := by
  obtain ⟨⟨symbol, rfl⟩, hlength⟩ := h
  have hsize : (symbol ++ left).length - left.length = symbol.length := by
    rw [List.length_append]
    omega
  rw [hsize, List.take_left, List.drop_left]
  refine ⟨?_, rfl, rfl⟩
  rintro rfl
  simp at hlength

end

/-! ## Turns -/

theorem head_flat (lines : List (List Char)) : (flat lines).head? ≠ some (some '/') := by
  cases lines with
  | nil => exact nofun
  | cons line lines => exact nofun

/-- Two characters that are looked at. -/
theorem rest_of_two {rest : List Char} {a b : Char} (ha : hasCurrent rest = a)
    (hb : hasOneMore rest = b) (hnul : b ≠ nul) : ∃ tail, rest = a :: b :: tail := by
  cases rest with
  | nil => exact absurd hb.symm hnul
  | cons x tail =>
    cases tail with
    | nil => exact absurd hb.symm hnul
    | cons y tail =>
      obtain rfl : x = a := ha
      obtain rfl : y = b := hb
      exact ⟨tail, rfl⟩

/-- A line comment ends with its line. -/
theorem dropWhile_line (line : List Char) (lines : List (List Char)) :
    (line.map some ++ flat lines).dropWhile Option.isSome = flat lines := by
  rw [List.dropWhile_append_of_pos (by simp)]
  cases lines <;> rfl

namespace Tokenizer

/-- The text that is left. -/
def left (s : Tokenizer) : List (Option Char) := s.rest.map some ++ flat s.lines

/-- A turn takes some of it. -/
def size (s : Tokenizer) : Nat := s.rest.length + (s.lines.map fun line => line.length + 1).sum

/-- The symbols tile what is left, in a comment what is left behind its end. -/
def Tiles (s : Tokenizer) (symbols : List (List Char)) : Prop :=
  if s.inComment then
    ∃ body text, NoClose body ∧ s.left = body ++ some '*' :: some '/' :: text ∧ Tiling text symbols
  else Tiling s.left symbols

/-- What a turn does without a token. -/
structure Skips (s s' : Tokenizer) : Prop where
  eof : s'.eofReached = s.eofReached
  size : s'.size < s.size
  tiles : ∀ symbols, s'.Tiles symbols → s.Tiles symbols

/-- What a turn does with a token. -/
structure Gives (s : Tokenizer) (t : Token) (s' : Tokenizer) : Prop where
  size : s'.eofReached = false → s'.size < s.size
  last : s'.eofReached → t.type = .eof ∧ s.Tiles []
  tiles : s'.eofReached = false → ∀ symbols, s'.Tiles symbols → s.Tiles (t.symbol :: symbols)

variable {S : Settings} {force : Bool} {s s' : Tokenizer}

theorem size_lt {n : Nat} (hrest : n < s.rest.length) : (s.advance (n + 1)).size < s.size := by
  unfold size advance
  dsimp only
  rw [List.length_drop]
  omega

/-- A new line is taken. -/
theorem skips_newLine {line : List Char} {lines : List (List Char)} (hrest : s.rest = [])
    (hlines : s.lines = line :: lines)
    (hs' : s'.rest = line ∧ s'.lines = lines ∧ s'.inComment = s.inComment ∧
      s'.eofReached = s.eofReached) :
    Skips s s' := by
  obtain ⟨hrest', hlines', hcomment, heof⟩ := hs'
  have hleft : s.left = none :: s'.left := by
    unfold left
    rw [hrest, hlines, hrest', hlines']
    rfl
  refine ⟨heof, ?_, fun symbols h => ?_⟩
  · unfold size
    rw [hrest, hlines, hrest', hlines']
    simp
  · unfold Tiles at h ⊢
    rw [hcomment] at h
    rw [hleft]
    cases hin : s.inComment with
    | true =>
      rw [hin, if_pos rfl] at h
      obtain ⟨body, text, hbody, htext, h⟩ := h
      rw [if_pos rfl, htext]
      exact ⟨none :: body, text, noClose_cons hbody nofun, rfl, h⟩
    | false =>
      rw [hin, if_neg Bool.false_ne_true] at h
      exact .newLine h

/-- A character of a comment is skipped. -/
theorem skips_inComment {ch : Char} {tail : List Char} (hrest : s.rest = ch :: tail)
    (hin : s.inComment) (hclose : ¬ (ch = '*' ∧ hasOneMore s.rest = '/')) :
    Skips s (s.advance 1) := by
  have hleft : s.left = some ch :: (s.advance 1).left := by
    unfold left advance
    rw [hrest]
    rfl
  refine ⟨rfl, size_lt (by rw [hrest]; exact Nat.succ_pos _), fun symbols h => ?_⟩
  unfold Tiles at h ⊢
  rw [if_pos (show (s.advance 1).inComment = true from hin)] at h
  obtain ⟨body, text, hbody, htext, h⟩ := h
  rw [if_pos hin, hleft, htext]
  refine ⟨some ch :: body, text, noClose_cons hbody fun hstar hslash => ?_, rfl, h⟩
  -- the next character would be on the same line
  have hhead : ((s.advance 1).left).head? = some (some '/') := by
    rw [htext]
    cases body with
    | nil => cases hslash
    | cons x body => exact hslash
  unfold left advance at hhead
  rw [hrest] at hhead hclose
  cases tail with
  | nil => exact head_flat _ hhead
  | cons next tail =>
    exact hclose ⟨Option.some_inj.1 hstar, Option.some_inj.1 (Option.some_inj.1 hhead)⟩

/-- The end of a comment. -/
theorem skips_close (hclose : hasCurrent s.rest = '*' ∧ hasOneMore s.rest = '/')
    (hin : s.inComment) : Skips s { s.advance 2 with inComment := false } := by
  obtain ⟨tail, hrest⟩ := rest_of_two hclose.1 hclose.2 (by decide)
  have hleft : s.left = some '*' :: some '/' :: (s.advance 2).left := by
    unfold left advance
    rw [hrest]
    rfl
  refine ⟨rfl, size_lt (n := 1) (by rw [hrest]; exact Nat.succ_lt_succ (Nat.succ_pos _)),
    fun symbols h => ?_⟩
  unfold Tiles at h ⊢
  rw [if_neg Bool.false_ne_true] at h
  rw [if_pos hin, hleft]
  exact ⟨[], _, noClose_nil, rfl, h⟩

theorem skips_blank {ch : Char} {tail : List Char} (hrest : s.rest = ch :: tail)
    (hin : s.inComment = false) (hblank : isBlank ch) : Skips s (s.advance 1) := by
  refine ⟨rfl, size_lt (by rw [hrest]; exact Nat.succ_pos _), fun symbols h => ?_⟩
  have hleft : s.left = some ch :: (s.advance 1).left := by
    unfold left advance
    rw [hrest]
    rfl
  unfold Tiles at h ⊢
  rw [if_neg (by rw [show (s.advance 1).inComment = s.inComment from rfl, hin]; decide)] at h
  rw [if_neg (by rw [hin]; decide), hleft]
  exact .blank hblank h

theorem skips_lineComment {tail : List Char} (hrest : s.rest = '/' :: '/' :: tail)
    (hin : s.inComment = false) : Skips s { s.advance 2 with rest := [] } := by
  refine ⟨rfl, ?_, fun symbols h => ?_⟩
  · unfold size advance
    rw [hrest]
    simp
  · unfold Tiles at h ⊢
    rw [if_neg (by change ¬ s.inComment = true; rw [hin]; decide)] at h
    rw [if_neg (by rw [hin]; decide)]
    unfold left
    rw [hrest]
    refine .lineComment ?_
    change Tiling ((tail.map some ++ flat s.lines).dropWhile Option.isSome) symbols
    rw [dropWhile_line]
    exact h

theorem skips_comment {tail : List Char} (hrest : s.rest = '/' :: '*' :: tail)
    (hin : s.inComment = false) : Skips s { s.advance 2 with inComment := true } := by
  refine ⟨rfl, size_lt (n := 1) (by rw [hrest]; exact Nat.succ_lt_succ (Nat.succ_pos _)),
    fun symbols h => ?_⟩
  have hleft : s.left = some '/' :: some '*' :: (s.advance 2).left := by
    unfold left advance
    rw [hrest]
    rfl
  unfold Tiles at h ⊢
  rw [if_pos rfl] at h
  obtain ⟨body, text, hbody, htext, h⟩ := h
  rw [if_neg (by rw [hin]; decide), hleft, show (s.advance 2).left = _ from htext]
  exact .comment hbody h

/-- A token is what has been taken of the line. -/
theorem gives_capture {t : Token} {left : List Char} (hrest : s.rest ≠ [])
    (hin : s.inComment = false) (h : s.capture S force = .ok (t, left))
    (heof : s.eofReached = false) :
    Gives s { t with symbol := s.rest.take (s.rest.length - left.length) }
    (s.advance (s.rest.length - left.length)) := by
  have htakes := capture_takes hrest h
  obtain ⟨hsymbol, hsplit, hdrop⟩ := takes_symbol htakes
  refine ⟨fun _ => ?_, fun hend => absurd hend (by change ¬ s.eofReached = true; rw [heof]; decide),
    fun _ symbols h => ?_⟩
  · have hlt := htakes.2
    obtain ⟨n, hn⟩ : ∃ n, s.rest.length - left.length = n + 1 :=
      ⟨s.rest.length - left.length - 1, by omega⟩
    rw [hn]
    exact size_lt (by omega)
  · unfold Tiles at h ⊢
    rw [if_neg (by change ¬ s.inComment = true; rw [hin]; decide)] at h
    rw [if_neg (by rw [hin]; decide)]
    have hleft : s.left = (s.rest.take (s.rest.length - left.length)).map some ++
        (s.advance (s.rest.length - left.length)).left := by
      unfold Tokenizer.left advance
      rw [← List.append_assoc, ← List.map_append, List.take_append_drop]
    rw [hleft]
    exact .token hsymbol h

/-- What a turn does. -/
theorem turn_spec (heof : s.eofReached = false) {o : Option Token}
    (h : s.turn S force = .ok (o, s')) : match o with
    | none => Skips s s'
    | some t => Gives s t s' := by
  unfold turn at h
  cases hrest : s.rest with
  | nil =>
    rw [hrest] at h
    dsimp only at h
    cases hlines : s.lines with
    | nil =>
      rw [hlines] at h
      dsimp only at h
      split at h
      · cases h
      · next hin =>
        cases h
        refine ⟨nofun, fun _ => ⟨rfl, ?_⟩, nofun⟩
        unfold Tiles left
        rw [if_neg hin, hrest, hlines]
        exact .done
    | cons line lines =>
      rw [hlines] at h
      cases h
      exact skips_newLine hrest hlines ⟨rfl, rfl, rfl, rfl⟩
  | cons ch tail =>
    rw [hrest] at h
    dsimp only at h
    rw [← hrest] at h
    have hcurrent : hasCurrent s.rest = ch := by rw [hrest]; rfl
    split at h
    · next hin =>
      cases h
      dsimp only
      split
      · next hclose => exact skips_close ⟨hcurrent.trans hclose.1, hclose.2⟩ hin
      · next hclose => exact skips_inComment hrest hin hclose
    · next hin =>
      have hin : s.inComment = false := Bool.eq_false_iff.2 hin
      split at h
      · next hblank =>
        cases h
        exact skips_blank hrest hin hblank.2
      · split at h
        · next hslash =>
          cases h
          obtain ⟨tail, hrest⟩ := rest_of_two (hcurrent.trans hslash.2.1) hslash.2.2 (by decide)
          exact skips_lineComment hrest hin
        · split at h
          · next hstar =>
            cases h
            obtain ⟨tail, hrest⟩ := rest_of_two (hcurrent.trans hstar.2.1) hstar.2.2 (by decide)
            exact skips_comment hrest hin
          · split at h
            · cases h
            · next t left hcapture =>
              cases h
              exact gives_capture (by rw [hrest]; exact List.cons_ne_nil _ _) hin hcapture heof

/-- Enough turns come to an end. -/
theorem turns_isSome {n : Nat} (hn : s.size < n) (heof : s.eofReached = false) :
    ∃ r, s.turns S force n = some r := by
  induction n generalizing s with
  | zero => exact absurd hn (Nat.not_lt_zero _)
  | succ n ih =>
    unfold turns
    split
    · exact ⟨_, rfl⟩
    · exact ⟨_, rfl⟩
    · next s' hturn =>
      have hskips : Skips s s' := turn_spec heof hturn
      have hlt := hskips.size
      exact ih (by omega) (hskips.eof.trans heof)

/-- What the loop of `GetNextToken` does. -/
theorem turns_spec {n : Nat} (heof : s.eofReached = false) {t : Token}
    (h : s.turns S force n = some (.ok (t, s'))) : Gives s t s' := by
  induction n generalizing s with
  | zero => cases h
  | succ n ih =>
    unfold turns at h
    split at h
    · cases h
    · next u v hturn =>
      cases h
      exact turn_spec heof hturn
    · next s₁ hturn =>
      have hskips : Skips s s₁ := turn_spec heof hturn
      have hgives := ih (hskips.eof.trans heof) h
      have hlt := hskips.size
      exact ⟨fun hend => (hgives.size hend).trans hlt,
        fun hend => (hgives.last hend).imp_right (hskips.tiles _),
        fun hend symbols hs => hskips.tiles _ (hgives.tiles hend symbols hs)⟩

end Tokenizer

/-! ## All tokens -/

/-- The calls of `GetNextToken` up to the end of the file, with the flags of each call: at most
`calls` of them with at most `n` turns each. The last token is that of the end. -/
def tokenize (S : Settings) (force : Nat → Bool) (n : Nat) : (calls i : Nat) → (s : Tokenizer) →
    Option (Except String (List Token))
  | 0, _, _ => none
  | calls + 1, i, s =>
    match s.getNextToken S (force i) n with
    | none => none
    | some (.error e) => some (.error e)
    | some (.ok (none, _)) => some (.ok [])
    | some (.ok (some t, s')) =>
      if s'.eofReached then some (.ok [t]) else (tokenize S force n calls (i + 1) s').map fun r =>
        r.map fun ts => t :: ts

section

variable {S : Settings} {force : Nat → Bool} {n : Nat}

theorem tokenize_spec {calls i : Nat} {s : Tokenizer} (heof : s.eofReached = false)
    (hn : s.size < n) (hcalls : s.size < calls) : ∃ r, tokenize S force n calls i s = some r ∧
      ∀ ts, r = .ok ts → ∃ ts' last, ts = ts' ++ [last] ∧ last.type = .eof ∧ s.Tiles
      (ts'.map Token.symbol) := by
  induction calls generalizing i s with
  | zero => exact absurd hcalls (Nat.not_lt_zero _)
  | succ calls ih =>
    obtain ⟨r, hr⟩ := @Tokenizer.turns_isSome S (force i) s n hn heof
    unfold tokenize Tokenizer.getNextToken
    rw [if_neg (by rw [heof]; decide), hr]
    cases r with
    | error e => exact ⟨_, rfl, nofun⟩
    | ok p =>
      obtain ⟨t, s'⟩ := p
      have hgives := Tokenizer.turns_spec heof hr
      dsimp only [Option.map_some, Except.map]
      cases hend : s'.eofReached with
      | true =>
        rw [if_pos rfl]
        refine ⟨_, rfl, fun ts hts => ?_⟩
        cases hts
        exact ⟨[], t, rfl, hgives.last hend⟩
      | false =>
        have hlt := hgives.size hend
        obtain ⟨r, hr, hspec⟩ := ih (i := i + 1) hend (by omega) (by omega)
        rw [if_neg Bool.false_ne_true, hr]
        refine ⟨_, rfl, fun ts hts => ?_⟩
        cases r with
        | error e => cases hts
        | ok ts₁ =>
          cases hts
          obtain ⟨ts', last, rfl, hlast, htiles⟩ := hspec ts₁ rfl
          exact ⟨t :: ts', last, rfl, hlast, hgives.tiles hend _ htiles⟩

/-- The calls come to an end, and without an error the symbols of the tokens tile the text. -/
theorem tokenize_tiling (S : Settings) (force : Nat → Bool) (lines : List (List Char)) :
    ∃ n calls r, tokenize S force n calls 0 (.new lines) = some r ∧
      ∀ ts, r = .ok ts → ∃ ts' last, ts = ts' ++ [last] ∧ last.type = .eof ∧ Tiling (flat lines)
      (ts'.map Token.symbol) := by
  obtain ⟨r, hr, hspec⟩ :=
    @tokenize_spec S force _ _ 0 (Tokenizer.new lines) rfl (Nat.lt_succ_self _)
    (Nat.lt_succ_self _)
  exact ⟨_, _, r, hr, hspec⟩

end

end Diana.Tokens
