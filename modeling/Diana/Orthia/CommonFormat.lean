import Diana.Orthia.Basic
import Mathlib.Tactic.IntervalCases

/-!
# Items with an XML header

A module's data is a run of items. An item is the text of an XML element with the attributes of the
item, a zero byte and the item's bytes; the attribute `sys_bin_size` is the number of these bytes.
`CCommonFormatBuilder` makes an item and `CCommonFormatMultiParser` goes through a run of them.

The XML library is a parameter: what it prints it can read back, and what it prints holds no zero
byte.
-/

namespace Diana.Orthia

/-- The attributes of an item that the callers ask for. -/
structure Attributes where
  /-- `address` -/
  address : Option Nat
  /-- `sys_bin_size` -/
  size : Option Nat
  deriving DecidableEq

/-- The XML library on the header of an item. `parse` gives the attributes of the `root` element. -/
structure Xml where
  print : (address size : Nat) → List Byte
  parse : List Byte → Option Attributes
  zero_notMem : ∀ a n, 0 ∉ print a n
  parse_print : ∀ a n, a < 2 ^ 64 → n < 2 ^ 63 → parse (print a n) = some ⟨some a, some n⟩

/-- `CCommonFormatBuilder::Produce` of an item with an address. -/
def produce (X : Xml) (address : Nat) (value : List Byte) : List Byte :=
  X.print address value.length ++ 0 :: value

/-- `CCommonFormatParser`: `data` is what lies from `m_pDataStart` to `m_pDataEnd`. -/
structure Parser where
  root : Option Attributes
  empty : Bool
  data : List Byte
  fixedLength : Nat

namespace Parser

def new : Parser := { root := none, empty := false, data := [], fixedLength := 0 }

/-- `Parse`: whether it succeeded and the parser after it. A header that is the end of its input
leaves the data of the item before. -/
def parse (X : Xml) (p : Parser) (bs : List Byte) : Bool × Parser :=
  if bs = [] then (true, { p with empty := true, fixedLength := 0 })
  else
    let header := bs.takeWhile (· ≠ 0)
    match X.parse header with
    | none => (false, p)
    | some root =>
      (true,
        { p with
          root := some root
          data := if header.length + 1 < bs.length then bs.drop (header.length + 1) else p.data
          fixedLength := min (header.length + 1) bs.length })

/-- `QueryMetadata` of the address. -/
def queryAddress (p : Parser) : Option Nat := p.root.bind (·.address)

/-- `QuerySizeOfBinary` -/
def querySizeOfBinary (p : Parser) : Except Failure Nat :=
  match p.root.bind (·.size) with
  | none => .error .invalidFormat
  | some n => .ok n

/-- `QueryValue`. A size that is negative as `long long` is past the end of every buffer. -/
def queryValue (p : Parser) : Option (List Byte) :=
  if p.empty then some []
  else
    match p.root.bind (·.size) with
    | none => none
    | some n => if p.data.length < n then none else some (p.data.take n)

/-- `QuerySize` -/
def querySize (p : Parser) : Nat :=
  if p.fixedLength = 0 then 0
  else if p.empty then p.fixedLength
  else
    match p.root.bind (·.size) with
    | none => p.fixedLength
    | some n => if p.data.length < n then p.fixedLength else p.fixedLength + n

end Parser

/-- The items that `CCommonFormatMultiParser::QueryNextItem` goes through, as the parser sees each
of them, and the parser after the last call. Every item takes a byte, so `fuel` is the length. -/
def queryItems (X : Xml) : (fuel : Nat) → Parser → List Byte → List Parser × Parser
  | 0, p, _ => ([], p)
  | fuel + 1, p, bs =>
    if bs = [] then ([], p)
    else
      match p.parse X bs with
      | (false, p) => ([], p)
      | (true, p) =>
        if p.querySize = 0 then ([], p)
        else
          let r := queryItems X fuel p (bs.drop p.querySize)
          (p :: r.1, r.2)

/-! ## Stored writes -/

/-- A write that is stored: some bytes at an address, none of them past the last one. -/
structure ModWrite where
  start : Nat
  data : List Byte
  ne : data ≠ []
  length_le : data.length ≤ maxSize
  le : start + data.length ≤ 2 ^ 64

namespace ModWrite

/-- The address of the last byte. -/
def last (w : ModWrite) : Nat := w.start + (w.data.length - 1)

variable (w : ModWrite)

theorem length_pos : 0 < w.data.length := List.length_pos_iff.2 w.ne

theorem start_lt : w.start < 2 ^ 64 := by
  have := w.le
  have := w.length_pos
  omega

theorem length_lt : w.data.length < 2 ^ 63 := by
  have := w.length_le
  unfold maxSize at this
  omega

theorem start_le_last : w.start ≤ w.last := Nat.le_add_right _ _

theorem last_lt : w.last < 2 ^ 64 := by
  have := w.le
  have := w.length_pos
  unfold last
  omega

end ModWrite

/-- A parser that reads a write: its address, its size and its bytes. -/
structure Parser.Reads (p : Parser) (w : ModWrite) : Prop where
  address : p.queryAddress = some w.start
  size : p.querySizeOfBinary = .ok w.data.length
  value : p.queryValue = some w.data
  empty : p.empty = false

/-- The data of a module after some writes. -/
def blob (X : Xml) (ws : List ModWrite) : List Byte := ws.flatMap fun w => produce X w.start w.data

variable {X : Xml}

theorem takeWhile_produce {a : Nat} {value rest : List Byte} :
    (produce X a value ++ rest).takeWhile (· ≠ 0) = X.print a value.length := by
  have h : ∀ b ∈ X.print a value.length, decide (b ≠ 0) = true := fun b hb =>
    decide_eq_true fun e => X.zero_notMem a value.length (e ▸ hb)
  rw [produce, List.append_assoc, List.takeWhile_append_of_pos h, List.cons_append,
    List.takeWhile_cons_of_neg (by simp), List.append_nil]

/-- The parser at an item reads its address and its bytes, and its size is that of the item.
Where the item has no bytes and is the last one, the parser keeps the data of the item before,
but takes none of it. -/
theorem parse_item (p : Parser) (hp : p.empty = false) {a : Nat} (ha : a < 2 ^ 64)
    {value : List Byte} (hvalue : value.length < 2 ^ 63) (rest : List Byte) :
    ∃ q, p.parse X (produce X a value ++ rest) = (true, q) ∧ q.empty = false ∧
    q.queryAddress = some a ∧
      q.querySizeOfBinary = .ok value.length ∧ q.queryValue = some value ∧
        q.querySize = (produce X a value).length := by
  have hx := X.parse_print a value.length ha hvalue
  have hne : produce X a value ++ rest ≠ [] := by simp [produce]
  have hdrop : (produce X a value ++ rest).drop ((X.print a value.length).length + 1) =
      value ++ rest := by
    simp [produce, List.drop_append]
  have hlen : (produce X a value ++ rest).length =
      (X.print a value.length).length + 1 + (value ++ rest).length := by
    simp only [produce, List.length_append, List.length_cons]
    omega
  obtain ⟨data, hdata, htake, hle⟩ : ∃ data,
      (if (X.print a value.length).length + 1 < (produce X a value ++ rest).length then
        value ++ rest
        else p.data) = data ∧ data.take value.length = value ∧ value.length ≤ data.length := by
    by_cases hlast : (value ++ rest).length = 0
    · have hv : value = [] := (List.append_eq_nil_iff.1 (List.length_eq_zero_iff.1 hlast)).1
      rw [if_neg (by omega), hv]
      exact ⟨_, rfl, rfl, Nat.zero_le _⟩
    · rw [if_pos (by omega)]
      exact ⟨_, rfl, List.take_left, by rw [List.length_append]; omega⟩
  refine ⟨{ p with
    root := some ⟨some a, some value.length⟩
    data
    fixedLength := (X.print a value.length).length + 1 }, ?_, hp, rfl, rfl, ?_, ?_⟩
  · unfold Parser.parse
    rw [if_neg hne, takeWhile_produce]
    simp only [hx, hdrop, hdata]
    rw [Nat.min_eq_left (by omega)]
  · simp only [Parser.queryValue, hp, Option.bind_some]
    rw [if_neg Bool.false_ne_true, if_neg (by omega), htake]
  · simp only [Parser.querySize, hp, Option.bind_some]
    rw [if_neg (Nat.succ_ne_zero _), if_neg Bool.false_ne_true, if_neg (by omega), produce,
      List.length_append, List.length_cons]
    omega

/-- The parser at a stored write reads that write, and its size is that of the item. -/
theorem parse_produce (p : Parser) (hp : p.empty = false) (w : ModWrite) (rest : List Byte) :
    ∃ q, p.parse X (produce X w.start w.data ++ rest) = (true, q) ∧ q.Reads w ∧
      q.querySize = (produce X w.start w.data).length := by
  obtain ⟨q, hq, hempty, haddress, hbinary, hvalue, hsize⟩ :=
    parse_item p hp w.start_lt w.length_lt rest
  exact ⟨q, hq, ⟨haddress, hbinary, hvalue, hempty⟩, hsize⟩

/-- The items of a module's data are its writes, in order. -/
theorem queryItems_blob (ws : List ModWrite) {fuel : Nat} {p : Parser} (hp : p.empty = false)
    (hf : (blob X ws).length ≤ fuel) :
    List.Forall₂ Parser.Reads (queryItems X fuel p (blob X ws)).1 ws ∧
      (queryItems X fuel p (blob X ws)).2.empty = false := by
  induction ws generalizing fuel p with
  | nil =>
    cases fuel with
    | zero => exact ⟨.nil, hp⟩
    | succ fuel => exact ⟨.nil, hp⟩
  | cons w ws ih =>
    obtain ⟨q, hq, hr, hs⟩ := parse_produce (X := X) p hp w (blob X ws)
    have hb : blob X (w :: ws) = produce X w.start w.data ++ blob X ws := List.flatMap_cons
    have hpos : 0 < (produce X w.start w.data).length := by
      rw [produce, List.length_append, List.length_cons]
      omega
    rw [hb, List.length_append] at hf
    obtain ⟨fuel, rfl⟩ : ∃ f, fuel = f + 1 := ⟨fuel - 1, by omega⟩
    have hne : produce X w.start w.data ++ blob X ws ≠ [] := by simp [produce]
    have hd : (produce X w.start w.data ++ blob X ws).drop q.querySize = blob X ws := by
      rw [hs, List.drop_left]
    have := @ih fuel q hr.empty (by omega)
    rw [hb]
    unfold queryItems
    rw [if_neg hne, hq]
    simp only [hd]
    rw [if_neg (by omega)]
    exact ⟨.cons hr this.1, this.2⟩

/-! ## Header text

The text that the library prints for the two attributes, as an instance of `Xml`.
-/

/-- The hexadecimal digits of a number, the lowest one first. -/
def hexDigits : (fuel : Nat) → Nat → List Nat
  | 0, _ => []
  | fuel + 1, n => n % 16 :: if n / 16 = 0 then [] else hexDigits fuel (n / 16)

def ofHexDigits : List Nat → Nat
  | [] => 0
  | d :: ds => d + 16 * ofHexDigits ds

theorem ofHexDigits_hexDigits {fuel n : Nat} (h : n < 16 ^ fuel) :
    ofHexDigits (hexDigits fuel n) = n := by
  induction fuel generalizing n with
  | zero =>
    have hn : n = 0 := by
      rw [Nat.pow_zero] at h
      omega
    rw [hn, hexDigits, ofHexDigits]
  | succ fuel ih =>
    have hd : n / 16 < 16 ^ fuel := by
      rw [Nat.div_lt_iff_lt_mul (by decide)]
      rwa [Nat.pow_succ] at h
    unfold hexDigits ofHexDigits
    split
    · simp only [ofHexDigits]
      omega
    · rw [ih hd]
      omega

theorem lt_of_mem_hexDigits {fuel n d : Nat} (h : d ∈ hexDigits fuel n) : d < 16 := by
  induction fuel generalizing n with
  | zero => cases h
  | succ fuel ih =>
    unfold hexDigits at h
    rcases List.mem_cons.1 h with rfl | h
    · exact Nat.mod_lt _ (by decide)
    · split at h
      · cases h
      · exact ih h

/-- The character of a digit. -/
def hexByte (d : Nat) : Byte := if d < 10 then BitVec.ofNat 8 (48 + d) else BitVec.ofNat 8 (87 + d)

/-- The digit of a character. -/
def hexValue (b : Byte) : Option Nat :=
  if 48 ≤ b.toNat ∧ b.toNat < 58 then some (b.toNat - 48)
  else if 97 ≤ b.toNat ∧ b.toNat < 103 then some (b.toNat - 87)
  else none

theorem hexValue_hexByte {d : Nat} (h : d < 16) : hexValue (hexByte d) = some d := by
  interval_cases d <;> rfl

theorem hexByte_ne_zero {d : Nat} (h : d < 16) : hexByte d ≠ 0 := by
  interval_cases d <;> decide

theorem filterMap_hexByte {ds : List Nat} (h : ∀ d ∈ ds, d < 16) :
    (ds.map hexByte).filterMap hexValue = ds := by
  induction ds with
  | nil => rfl
  | cons d ds ih =>
    have hd := hexValue_hexByte (h d List.mem_cons_self)
    rw [List.map_cons, List.filterMap_cons_some hd, ih fun d hd => h d (List.mem_cons_of_mem _ hd)]

/-- `ToStringAsHex_Short` -/
def toHex (n : Nat) : List Byte := ((hexDigits 16 n).map hexByte).reverse

/-- The digits at the start of a text, and the rest. -/
def readHex (bs : List Byte) : Nat × List Byte :=
  let text := bs.takeWhile fun b => (hexValue b).isSome
  (ofHexDigits (text.reverse.filterMap hexValue), bs.drop text.length)

theorem readHex_toHex {n : Nat} (h : n < 2 ^ 64) {b : Byte} (hb : hexValue b = none)
    (rest : List Byte) : readHex (toHex n ++ b :: rest) = (n, b :: rest) := by
  have hall : ∀ c ∈ toHex n, (hexValue c).isSome = true := by
    intro c hc
    obtain ⟨d, hd, rfl⟩ := List.mem_map.1 (List.mem_reverse.1 hc)
    rw [hexValue_hexByte (lt_of_mem_hexDigits hd)]
    rfl
  have htake : (toHex n ++ b :: rest).takeWhile (fun c => (hexValue c).isSome) = toHex n := by
    rw [List.takeWhile_append_of_pos hall, List.takeWhile_cons_of_neg (by simp [hb]),
      List.append_nil]
  have hval : (toHex n).reverse.filterMap hexValue = hexDigits 16 n := by
    rw [toHex, List.reverse_reverse]
    exact filterMap_hexByte fun d hd => lt_of_mem_hexDigits hd
  unfold readHex
  simp only [htake, hval]
  rw [ofHexDigits_hexDigits (by omega), List.drop_left]

/-- The bytes of a text. -/
def ascii (s : String) : List Byte := s.toList.map fun c => BitVec.ofNat 8 c.toNat

/-- The rest of a text after a known start. -/
def afterText (start bs : List Byte) : Option (List Byte) :=
  if bs.take start.length = start then some (bs.drop start.length) else none

theorem afterText_append (start rest : List Byte) :
    afterText start (start ++ rest) = some rest := by
  simp [afterText]

def printRoot (a n : Nat) : List Byte :=
  ascii "<root address=\"" ++
    (toHex a ++ (ascii "\" sys_bin_size=\"" ++ (toHex n ++ ascii "\"/>")))

def parseRoot (bs : List Byte) : Option Attributes := do
  let (a, bs) := readHex (← afterText (ascii "<root address=\"") bs)
  let (n, bs) := readHex (← afterText (ascii "\" sys_bin_size=\"") bs)
  if bs = ascii "\"/>" then some ⟨some a, some n⟩ else none

theorem parseRoot_printRoot {a n : Nat} (ha : a < 2 ^ 64) (hn : n < 2 ^ 64) :
    parseRoot (printRoot a n) = some ⟨some a, some n⟩ := by
  have hq : hexValue 34 = none := by decide
  have h1 : ∀ rest, readHex (toHex a ++ (ascii "\" sys_bin_size=\"" ++ rest)) =
      (a, ascii "\" sys_bin_size=\"" ++ rest) := fun rest => readHex_toHex ha hq _
  have h2 : readHex (toHex n ++ ascii "\"/>") = (n, ascii "\"/>") := readHex_toHex hn hq _
  unfold parseRoot printRoot
  simp only [afterText_append, Option.bind_eq_bind, Option.bind_some, h1, h2, if_true]

theorem zero_notMem_toHex (n : Nat) : 0 ∉ toHex n := by
  intro h
  obtain ⟨d, hd, he⟩ := List.mem_map.1 (List.mem_reverse.1 h)
  exact hexByte_ne_zero (lt_of_mem_hexDigits hd) he

/-- The header as the library prints it: `<root address="1000" sys_bin_size="2"/>`. -/
def rootXml : Xml where
  print := printRoot
  parse := parseRoot
  zero_notMem := by
    intro a n h
    simp only [printRoot, List.mem_append, zero_notMem_toHex, false_or] at h
    revert h
    decide
  parse_print := fun _ _ ha hn => parseRoot_printRoot ha (by omega)

end Diana.Orthia
