import Diana.Lib.LittleEndian
import Diana.Orthia.Basic
import Mathlib.Data.Nat.Digits.Defs
import Mathlib.Tactic.Common

/-!
# Tokens

`CTokenizer` cuts the lines of a source into tokens. A line is a list of characters, and a capture
takes what is left of it from `m_columnPos` on and gives the token with what is left behind it.

* `captureOperator`, `captureStringLiteral`, `captureDigitLiteral`, `captureName`: the captures;
* `Tokenizer.turn`: one turn of the loop of `GetNextToken`;
* `Tokenizer.getNextToken`: the loop.
-/

namespace Diana.Tokens

open Diana.Lib
open Diana.Orthia (Byte)

/-- `TokenType_type` -/
inductive TokenType where
  | eof
  | reservedWord
  | literal
  | name
  | specialSign
  | none
  deriving DecidableEq, Repr

/-- `LiteralType_type` -/
inductive LiteralType where
  | none
  | int
  | char
  | string
  | wideChar
  | wideString
  deriving DecidableEq, Repr

/-- `data` is what the token has in the binary storage, `symbol` its text in the symbol storage. -/
structure Token where
  type : TokenType
  literalType : LiteralType
  /-- The first is `signCharCode`. -/
  multiByteChar : List Char
  signedValue : Bool
  line : Int
  column : Nat
  reservedWordId : Nat
  data : List Byte
  symbol : List Char
  deriving DecidableEq, Repr

/-- What is set from outside. -/
structure Settings where
  windbgStyle : Bool
  /-- `m_knownNameMatcher`: the size of the longest known name that a text starts with, 0 if none -/
  knownName : List Char → Nat
  knownName_le : ∀ text, knownName text ≤ text.length
  /-- `GetReservedWord_Silent` -/
  reservedWord : List Char → Nat
  /-- `sizeof(wchar_t)` -/
  wcharSize : Nat

/-- A capture: the token and what is left of the line. -/
abbrev Captured := Except String (Token × List Char)

/-- The character 0, which stands for the end of a line. -/
def nul : Char := Char.ofNat 0

def singleQuote : Char := Char.ofNat 39

def doubleQuote : Char := Char.ofNat 34

def backslash : Char := Char.ofNat 92

/-- `HasCurrent` -/
def hasCurrent (rest : List Char) : Char := rest.headD nul

/-- `HasOneMore` -/
def hasOneMore (rest : List Char) : Char := hasCurrent rest.tail

/-- A `char` as a byte. -/
def byteOf (ch : Char) : Byte := BitVec.ofNat 8 ch.toNat

/-! ## Signs -/

/-- What a matcher says of the next character. -/
structure Match where
  canConcatenate : Bool
  resultWillBeInvalid : Bool
  resultWillBeFinal : Bool

/-- `SymbolMatcherFnc_type`: the index, the character and the first one; `none` if it does
not know the index. -/
abbrev Matcher := Nat → Char → Char → Option Match

/-- `DotMatcher` -/
def dotMatcher : Matcher
  | 1, ch, _ => some ⟨ch = '.', true, false⟩
  | 2, ch, _ => some ⟨ch = '.', false, true⟩
  | _, _, _ => none

/-- The matchers of one more character. -/
def oneMoreMatcher (more : Char → Char → Bool) : Matcher := fun index ch originalChar =>
  if index = 1 then some ⟨more ch originalChar, false, true⟩ else none

/-- `MinusMatcher` -/
def minusMatcher : Matcher :=
  oneMoreMatcher fun ch originalChar => ch = originalChar ∨ ch = '=' ∨ ch = '>'

/-- `DuplicationOrWithEqualMatcher` -/
def duplicationOrWithEqualMatcher :
    Matcher := oneMoreMatcher fun ch originalChar => ch = originalChar ∨ ch = '='

/-- `WithEqualMatcher` -/
def withEqualMatcher : Matcher := oneMoreMatcher fun ch _ => ch = '='

/-- `DuplicationMatcher` -/
def duplicationMatcher : Matcher := oneMoreMatcher fun ch originalChar => ch = originalChar

/-- `LessMoreMatcher` -/
def lessMoreMatcher : Matcher
  | 1, ch, originalChar =>
    if ch = originalChar then some ⟨true, false, false⟩
    else if ch = '=' then some ⟨true, false, true⟩
    else some ⟨false, false, false⟩
  | 2, ch, _ => some ⟨ch = '=', false, true⟩
  | _, _, _ => none

/-- The loop of `CaptureSign`: `n` characters may follow, the next has the given index. -/
def matchMore (matcher : Matcher) (originalChar : Char) :
    (n index : Nat) → (invalid : Bool) → (rest : List Char) → Except String
    (List Char × Bool × List Char)
  | 0, _, invalid, rest => .ok ([], invalid, rest)
  | n + 1, index, invalid, rest =>
    match matcher index (hasCurrent rest) originalChar with
    | none => .error "Internal error"
    | some m =>
      if !m.canConcatenate then .ok ([], invalid, rest)
      else if m.resultWillBeFinal then .ok ([hasCurrent rest], m.resultWillBeInvalid, rest.tail)
      else do
        let (more, result) ← matchMore matcher originalChar n
          (index + 1) m.resultWillBeInvalid rest.tail
        .ok (hasCurrent rest :: more, result)

/-- `TokenMaxOperatorSize` -/
def tokenMaxOperatorSize : Nat := 4

/-- The end of `CaptureSign`, which is reached when there is no comment. -/
def captureOperator (matcher : Option Matcher) (t : Token) (rest : List Char) : Captured :=
  let first := hasCurrent rest
  match matcher with
  | none => .ok ({ t with multiByteChar := [first] }, rest.tail)
  | some matcher => do
    let (more, invalid, left) ← matchMore matcher first (tokenMaxOperatorSize - 1) 1 false rest.tail
    if invalid then .error "Invalid sign sequence"
      else .ok ({ t with multiByteChar := first :: more }, left)

/-! ## Strings -/

/-- The value of a digit. -/
def digitValue (ch : Char) : Nat :=
  if '0' ≤ ch ∧ ch ≤ '9' then ch.toNat - 48
  else if 'a' ≤ ch ∧ ch ≤ 'z' then ch.toNat - 87
  else if 'A' ≤ ch ∧ ch ≤ 'Z' then ch.toNat - 55
  else 36

/-- The value of digits, the first of which is the most significant one. -/
def digitsValue (radix : Nat) (digits : List Char) :
    Nat := Nat.ofDigits radix (digits.reverse.map digitValue)

/-- `isspace` -/
def isspace (ch : Char) : Bool := ch = ' ' ∨ (9 ≤ ch.toNat ∧ ch.toNat ≤ 13)

/-- `isdigit` -/
def isDigit (ch : Char) : Bool := '0' ≤ ch ∧ ch ≤ '9'

/-- The sign that `strtol` reads, and the text behind it. -/
def strtolSign (text : List Char) : Bool × List Char :=
  match text.dropWhile isspace with
  | '-' :: tail => (true, tail)
  | '+' :: tail => (false, tail)
  | tail => (false, tail)

/-- The prefix `0x` is one if a digit follows. -/
def strtolPrefix (radix : Nat) (text : List Char) : List Char :=
  match text with
  | '0' :: x :: tail =>
    if radix = 16 ∧ (x = 'x' ∨ x = 'X') ∧ digitValue (hasCurrent tail) < 16 then tail else text
  | _ => text

/-- `strtol`: the value, and the text behind the number. Without digits nothing is read. -/
def strtol (radix : Nat) (text : List Char) : Int × List Char :=
  let (negative, body) := strtolSign text
  let number := strtolPrefix radix body
  let digits := number.takeWhile fun ch => digitValue ch < radix
  let value : Int := digitsValue radix digits
  if digits = [] then (0, text)
    else (if negative then -value else value, number.dropWhile fun ch => digitValue ch < radix)

/-- The text in a buffer. -/
def cString (buffer : List Char) : List Char := buffer.takeWhile (· ≠ nul)

/-- The escapes of one character. -/
def simpleEscape (ch : Char) : Option Nat :=
  if ch ∈ [singleQuote, doubleQuote, '?', backslash] then some ch.toNat
  else
    match ch with
    | 'a' => some 0x07
    | 'b' => some 0x08
    | 'f' => some 0x0c
    | 'n' => some 0x0a
    | 'r' => some 0x0d
    | 't' => some 0x09
    | 'v' => some 0x0b
    | _ => none

/-- How many digits follow the first character of an octal sequence. -/
def octalDigits (rest : List Char) : Nat :=
  if isDigit (hasCurrent rest) then if isDigit (hasOneMore rest) then 2 else 1 else 0

/-- `CaptureEscapedChar` behind the backslash: the value, and how many characters are read. -/
def captureEscapedChar (wide : Bool) (rest : List Char) : Except String (Int × Nat) :=
  match rest with
  | [] => .error "Error"
  | ch :: tail =>
    match simpleEscape ch with
    | some value => .ok (value, 1)
    | none =>
      if ch = 'x' then
        let size := if wide then 4 else 2
        if tail.length < size then .error "Error"
        else
          match strtol 16 (cString (tail.take size)) with
          | (value, []) => .ok (value, 1 + size)
          | _ => .error "Invalid hex literal"
      else
        match strtol 8 (cString (ch :: tail.take (octalDigits tail))) with
        | (value, []) => .ok (value, 1 + octalDigits tail)
        | _ => .error "Invalid dec literal"

/-- The bytes of a value of `n` bytes. -/
def bytesOfInt (n : Nat) (value : Int) : List Byte := leBytes n (value % 256 ^ n).toNat

def LiteralType.isWide (type : LiteralType) : Bool := type = .wideChar ∨ type = .wideString

def LiteralType.isChar (type : LiteralType) : Bool := type = .char ∨ type = .wideChar

/-- The loop of `CaptureStringLiteral`: what it collects, and what is left behind the closing
quote. -/
def stringBody (S : Settings) (type : LiteralType) (rest : List Char) :
    Except String (List Byte × List Char) :=
  match rest with
  | [] => .error "Invalid literal"
  | ch :: tail =>
    if ch = backslash ∧ !S.windbgStyle then
      match captureEscapedChar type.isWide tail with
      | .error e => .error e
      | .ok (value, size) => do
        let (data, left) ← stringBody S type (tail.drop size)
        .ok ((if type.isWide then bytesOfInt S.wcharSize value else bytesOfInt 1 value) ++ data,
          left)
    else if ch = (if type.isChar then singleQuote else doubleQuote) then .ok ([], tail)
    else do
      let (data, left) ← stringBody S type tail
      .ok ((if type.isWide then [byteOf ch, 0] else [byteOf ch]) ++ data, left)
termination_by rest.length
decreasing_by all_goals simp only [List.length_drop, List.length_cons]; omega

/-- `CaptureStringLiteral`, from the opening quote on -/
def captureStringLiteral (S : Settings) (type : LiteralType) (t : Token) (rest : List Char) :
    Captured := do
  let (data, left) ← stringBody S type rest.tail
  let zero : List Byte := if type.isWide then [0, 0] else [0]
  if type.isChar then
    if data = [] then .error "Empty character constant"
    else .ok ({ t with literalType := type, data := data }, left)
  else .ok ({ t with literalType := type, data := data ++ zero }, left)

/-! ## Numbers -/

/-- `IntType_type` -/
inductive IntType where
  | dec
  | octal
  | hex
  | binary
  deriving DecidableEq, Repr

def IntType.radix : IntType → Nat
  | .dec => 10
  | .octal => 8
  | .hex => 16
  | .binary => 2

/-- The first symbol: the type, the digit if it is one, and what is left. -/
def literalPrefix (windbg : Bool) (rest : List Char) : IntType × List Char × List Char :=
  let type := if windbg then IntType.hex else .dec
  if hasCurrent rest = '0' then
    let second := hasOneMore rest
    if second = 'n' then (.dec, [], rest.drop 2)
    else if second = 'x' ∨ second = 'X' then (.hex, [], rest.drop 2)
    else if second = 'b' then (.binary, [], rest.drop 2)
    else (if windbg then type else .octal, rest.take 1, rest.tail)
  else (type, rest.take 1, rest.tail)

def isHexLetter (ch : Char) : Bool := ('a' ≤ ch ∧ ch ≤ 'f') ∨ ('A' ≤ ch ∧ ch ≤ 'F')

/-- The loop over the body. -/
def digitBody (type : IntType) : (rest : List Char) → Except String (List Char × List Char)
  | [] => .ok ([], [])
  | ch :: tail =>
    if isDigit ch ∨ isHexLetter ch then
      if (type = .binary ∧ '2' ≤ ch ∧ ch ≤ '9') ∨ (type ≠ .hex ∧ isHexLetter ch) then
        .error "Invalid sequence"
      else do
        let (digits, left) ← digitBody type tail
        .ok (ch :: digits, left)
    else .ok ([], ch :: tail)

/-- `ULLONG_MAX` -/
def ullongMax : Nat := 2 ^ 64 - 1

/-- `strtoull` of a text without a sign, blanks or a prefix: the value, and the text behind the
number. -/
def strtoull (radix : Nat) (text : List Char) : Nat × List Char :=
  (min (digitsValue radix (text.takeWhile fun ch => digitValue ch < radix)) ullongMax,
    text.dropWhile fun ch => digitValue ch < radix)

/-- `portable_ui64toa` -/
def ui64toa (value radix : Nat) : List Char := Nat.toDigits radix value

/-- `DIANA_STRICMP` of equal texts -/
def sameText (a b : List Char) : Prop := a.map Char.toLower = b.map Char.toLower

instance (a b : List Char) : Decidable (sameText a b) := inferInstanceAs (Decidable (_ = _))

/-- The value of the digits. The largest value may stand for an overflow: its text is looked for at
the end of the digits. -/
def literalValue (radix : Nat) (digits : List Char) : Except String Nat :=
  let (value, endOfSequence) := strtoull radix digits
  if endOfSequence ≠ [] then .error "Can't convert literal"
  else if value = ullongMax ∧
      ¬ sameText (digits.drop (digits.length - (ui64toa value radix).length))
      (ui64toa value radix) then
    .error "Integer overflow"
  else .ok value

/-- `wasU`, `wasL`, `wasLL` -/
structure Suffixes where
  wasU : Bool
  wasL : Bool
  wasLL : Bool
  deriving DecidableEq, Repr

/-- The loop over the suffixes. -/
def suffixLoop (windbg : Bool) (was : Suffixes) :
    (rest : List Char) → Except String (Suffixes × List Char)
  | [] => .ok (was, [])
  | ch :: tail =>
    if ch = 'h' then .ok (was, if windbg then tail else ch :: tail)
    else if ch = 'u' ∨ ch = 'U' then
      if was.wasU then .error "Invalid U" else suffixLoop windbg { was with wasU := true } tail
    else if ch = 'l' ∨ ch = 'L' then
      if was.wasL ∧ was.wasLL then .error "Invalid L"
      else suffixLoop windbg { was with wasL := true, wasLL := was.wasL } tail
    else .ok (was, ch :: tail)

/-- What is registered for a value. -/
def registerLiteral (windbg : Bool) (was : Suffixes) (t : Token) (value : Nat) :
    Except String Token :=
  if was.wasLL ∨ windbg then
    if was.wasU ∨ windbg then .ok { t with data := leBytes 8 value }
    else if 2 ^ 63 ≤ value then .error "Constant too big"
    else .ok { t with data := leBytes 8 value, signedValue := true }
  else if 2 ^ 32 ≤ value then .error "Constant too big"
  else if was.wasU then .ok { t with data := leBytes 4 value }
  else if 2 ^ 31 ≤ value then .error "Constant too big"
  else .ok { t with data := leBytes 4 value, signedValue := true }

/-- `CaptureDigitLiteral` -/
def captureDigitLiteral (S : Settings) (t : Token) (rest : List Char) : Captured := do
  let (type, first, body) := literalPrefix S.windbgStyle rest
  let (digits, behind) ← digitBody type body
  let value ← literalValue type.radix (first ++ digits)
  let (was, left) ← suffixLoop S.windbgStyle ⟨false, false, false⟩ behind
  let t ← registerLiteral S.windbgStyle was { t with literalType := .int } value
  .ok (t, left)

/-! ## Names -/

/-- `IsHexChar` -/
def isHexChar (ch : Char) : Bool := isDigit ch ∨ isHexLetter ch

/-- `IsOtherNameSymbol` -/
def isOtherNameSymbol (windbg : Bool) (ch : Char) :
    Bool := windbg ∧ ch ∈ ['@', '$', '.', '#', '!', '?']

/-- `IsUTF8SpecialByte` -/
def isUTF8SpecialByte (ch : Char) : Bool := 127 < ch.toNat

/-- The characters that a name goes on with. -/
def isNameChar (windbg : Bool) (ch : Char) : Bool :=
  isDigit ch ∨ ('a' ≤ ch ∧ ch ≤ 'z') ∨ ('A' ≤ ch ∧ ch ≤ 'Z') ∨ ch = '_' ∨
    isOtherNameSymbol windbg ch ∨ isUTF8SpecialByte ch

/-- `isHexInt` behind a character; the other component is `hFound`. -/
def hexIntStep (was : Bool × Bool) (ch : Char) : Bool × Bool :=
  if was.1 ∧ !isHexChar ch then if ch = 'h' then (!was.2, true) else (false, was.2) else was

/-- The part of `CaptureName` behind the wide literals. -/
def captureWord (S : Settings) (force : Bool) (t : Token) (rest : List Char) : Captured :=
  let knownNameSize := if S.windbgStyle then S.knownName rest else 0
  let start := if knownNameSize = 0 then 1 else knownNameSize
  let more := (rest.drop start).takeWhile (isNameChar S.windbgStyle)
  let isHexInt := (more.foldl hexIntStep (knownNameSize = 0 ∧ isHexChar (hasCurrent rest), false)).1
  if S.windbgStyle ∧ !force ∧ isHexInt then captureDigitLiteral S { t with type := .literal } rest
  else
    let word := rest.take start ++ more
    let id := S.reservedWord word
    .ok
      ({ t with
        type := if id = 0 then .name else .reservedWord, reservedWordId := id, data :=
      word.map byteOf }, (rest.drop start).dropWhile (isNameChar S.windbgStyle))

/-- `CaptureName` -/
def captureName (S : Settings) (force : Bool) (t : Token) (rest : List Char) : Captured :=
  if hasCurrent rest = 'L' ∧ hasOneMore rest = singleQuote then
    captureStringLiteral S .wideChar { t with type := .literal } rest.tail
  else if hasCurrent rest = 'L' ∧ hasOneMore rest = doubleQuote then
    captureStringLiteral S .wideString { t with type := .literal } rest.tail
  else captureWord S force t rest

/-! ## The tokenizer -/

/-- `CTokenizer` with its source: `rest` is the line from `m_columnPos` on, `lines` what the source
still gives. `m_columnPos` is an `int`, so no line is as long as `2 ^ 31` characters. -/
structure Tokenizer where
  lines : List (List Char)
  rest : List Char
  lineNumber : Int
  columnPos : Nat
  inComment : Bool
  eofReached : Bool
  deriving DecidableEq, Repr

/-- The characters that are skipped. -/
def isBlank (ch : Char) : Bool := ch = ' ' ∨ ch.toNat ∈ [9, 10, 13]

def isSign (ch : Char) : Bool :=
  ch ∈ ['.', '>', '<', '+', '&', '|', '-', '/', '*', '%', '!', '^', ':', '=', ',', '?', '~', ';',
    '(', ')', '[', ']', Char.ofNat 123, Char.ofNat 125, '@', '$']

/-- `symbolMatcher` -/
def symbolMatcher (windbg : Bool) (ch : Char) : Option Matcher :=
  if ch = '.' then some dotMatcher
  else if ch = '>' ∨ ch = '<' then some lessMoreMatcher
  else if ch = '+' then if windbg then none else some duplicationOrWithEqualMatcher
  else if ch = '&' ∨ ch = '|' then some duplicationOrWithEqualMatcher
  else if ch = '-' then if windbg then none else some minusMatcher
  else if ch ∈ ['/', '*', '%', '!', '^'] then some withEqualMatcher
  else if ch = ':' ∨ ch = '=' then some duplicationMatcher
  else none

namespace Tokenizer

/-- The tokenizer after `Clear` and `ResetSource`. -/
def new (lines : List (List Char)) : Tokenizer :=
  { lines := lines, rest := [], lineNumber := -1, columnPos := 0, inComment := false,
    eofReached := false }

/-- `BuildNewToken` -/
def buildNewToken (s : Tokenizer) (type : TokenType) : Token :=
  { type := type, literalType := .none, multiByteChar := [], signedValue := false,
    line := s.lineNumber,
    column := s.columnPos, reservedWordId := 0, data := [], symbol := [] }

def advance (s : Tokenizer) (n : Nat) :
    Tokenizer := { s with rest := s.rest.drop n, columnPos := s.columnPos + n }

/-- The capture of a token that is not a sign. -/
def capture (S : Settings) (force : Bool) (s : Tokenizer) : Captured :=
  let ch := hasCurrent s.rest
  if force then captureName S force (s.buildNewToken .name) s.rest
  else if isSign ch then captureOperator (symbolMatcher S.windbgStyle ch)
    (s.buildNewToken .specialSign) s.rest
  else if ch = singleQuote then captureStringLiteral S .char (s.buildNewToken .literal) s.rest
  else if ch = doubleQuote then captureStringLiteral S .string (s.buildNewToken .literal) s.rest
  else if isDigit ch then captureDigitLiteral S (s.buildNewToken .literal) s.rest
  else if ch.toNat < 20 ∨ 127 < ch.toNat then .error "Invalid characters"
  else captureName S force (s.buildNewToken .name) s.rest

/-- A turn of the loop of `GetNextToken`: the token, if there is one, and the
tokenizer behind it. -/
def turn (S : Settings) (force : Bool) (s : Tokenizer) : Except String (Option Token × Tokenizer) :=
  match s.rest with
  | [] =>
    match s.lines with
    | [] =>
      if s.inComment then .error "Unexpected end of file found in comment"
      else .ok (some (s.buildNewToken .eof), { s with eofReached := true })
    | line :: lines =>
      .ok (none,
        { s with lines := lines, rest := line, lineNumber := s.lineNumber + 1, columnPos := 0 })
  | ch :: _ =>
    let next := hasOneMore s.rest
    if s.inComment then
      .ok (none, if ch = '*' ∧ next = '/' then { s.advance 2 with inComment := false }
        else s.advance 1)
    else if !force ∧ isBlank ch then .ok (none, s.advance 1)
    else if !force ∧ ch = '/' ∧ next = '/' then .ok (none, { s.advance 2 with rest := [] })
    else if !force ∧ ch = '/' ∧ next = '*' then .ok (none, { s.advance 2 with inComment := true })
    else
      match s.capture S force with
      | .error e => .error e
      | .ok (t, left) =>
        -- `RegisterSymbolData`
        let size := s.rest.length - left.length
        .ok (some { t with symbol := s.rest.take size }, s.advance size)

/-- The loop of `GetNextToken` of at most `n` turns: `none` if it has not come to an end. -/
def turns (S : Settings) (force : Bool) :
    (n : Nat) → (s : Tokenizer) → Option (Except String (Token × Tokenizer))
  | 0, _ => none
  | n + 1, s =>
    match s.turn S force with
    | .error e => some (.error e)
    | .ok (some t, s') => some (.ok (t, s'))
    | .ok (none, s') => turns S force n s'

/-- `GetNextToken`; a tokenizer at the end gives no token. -/
def getNextToken (S : Settings) (force : Bool) (n : Nat) (s : Tokenizer) :
    Option (Except String (Option Token × Tokenizer)) :=
  if s.eofReached then some (.ok (none, s))
  else (s.turns S force n).map fun r => r.map fun p => (some p.1, p.2)

end Tokenizer

end Diana.Tokens
