import Diana.Orthia.FloatingFormat

/-!
# The write journal

The items of a module's data as they are built and read back: `CCommonFormatBuilder` sets the
attributes of a header and puts the bytes behind it, `CCommonFormatMultiBuilder` appends items, and
a caller takes them off again with `CCommonFormatMultiParser::QueryNextItem`. Here the XML library
sees attributes as the texts they are; the numbers are the conversions of the repository.

* `HeaderXml.toXml`: the headers read as numbers;
* `readItems_journal`: the items come back, and then the end.
-/

namespace Diana.Orthia

/-! ## Numbers as attributes -/

/-- `std::setw(width)` with `std::setfill('0')` -/
def fillZero (width : Nat) (text : List Byte) :
    List Byte := List.replicate (width - text.length) 48 ++ text

/-- `ToStringAsHex_Short`: the two halves one after the other. -/
def toStringAsHexShort (id : Nat) : List Byte :=
  if id / 2 ^ 32 ≠ 0 then toHex (id / 2 ^ 32) ++ fillZero 8 (toHex (id % 2 ^ 32))
    else toHex (id % 2 ^ 32)

/-- `HexStringToObject_Silent` of an `unsigned long long`. The `long long` one converts that. -/
def hexStringToObject (text : List Byte) : Option Nat :=
  match scanHex text with
  | some (negative, n, []) => if n < 2 ^ 64 then some (clamp64 negative n).val else none
  | _ => none

section Hex

theorem hexDigits_fuel {fuel n : Nat} (more : Nat) (h : n < 16 ^ (fuel + 1)) :
    hexDigits (fuel + 1 + more) n = hexDigits (fuel + 1) n := by
  induction fuel generalizing n with
  | zero =>
    have hn : n / 16 = 0 := by omega
    rw [Nat.add_right_comm, hexDigits, hexDigits, if_pos hn, if_pos hn]
  | succ fuel ih =>
    have hd : n / 16 < 16 ^ (fuel + 1) := by
      rw [Nat.div_lt_iff_lt_mul (by decide)]
      rwa [Nat.pow_succ] at h
    rw [show fuel + 1 + 1 + more = fuel + 1 + more + 1 by omega, hexDigits, hexDigits, ih hd]

/-- The low digits, with the zeros above them. -/
def lowDigits (count n : Nat) : List Nat :=
  hexDigits count n ++ List.replicate (count - (hexDigits count n).length) 0

theorem lowDigits_zero (count : Nat) : lowDigits count 0 = List.replicate count 0 := by
  cases count with
  | zero => rfl
  | succ count =>
    unfold lowDigits hexDigits
    simp [List.replicate_succ]

theorem lowDigits_succ (count n : Nat) :
    lowDigits (count + 1) n = n % 16 :: lowDigits count (n / 16) := by
  by_cases hn : n / 16 = 0
  · rw [hn, lowDigits_zero]
    unfold lowDigits hexDigits
    rw [if_pos hn]
    simp
  · unfold lowDigits
    rw [hexDigits, if_neg hn]
    simp

/-- A number above the low digits has them first. -/
theorem hexDigits_split {count n : Nat} (fuel : Nat) (h : n / 16 ^ count ≠ 0) :
    hexDigits (count + fuel) n = lowDigits count (n % 16 ^ count) ++ hexDigits fuel
    (n / 16 ^ count) := by
  induction count generalizing n with
  | zero =>
    rw [Nat.zero_add, Nat.pow_zero, Nat.div_one]
    rfl
  | succ count ih =>
    have hpow : n / 16 / 16 ^ count = n / 16 ^ (count + 1) := by
      rw [Nat.div_div_eq_div_mul, Nat.pow_succ, Nat.mul_comm]
    have hne : n / 16 ≠ 0 := by
      intro hz
      rw [hz, Nat.zero_div] at hpow
      exact h hpow.symm
    have hmod : n % 16 ^ (count + 1) % 16 = n % 16 :=
      Nat.mod_mod_of_dvd _ ⟨16 ^ count, by rw [Nat.pow_succ, Nat.mul_comm]⟩
    have hdiv : n % 16 ^ (count + 1) / 16 = n / 16 % 16 ^ count := by
      rw [Nat.pow_succ, Nat.mul_comm, Nat.mod_mul_right_div_self]
    rw [show count + 1 + fuel = count + fuel + 1 by omega, hexDigits, if_neg hne, ih (hpow ▸ h),
      lowDigits_succ, hmod, hdiv, hpow, List.cons_append]

theorem fillZero_toHex {n : Nat} (h : n < 2 ^ 32) :
    fillZero 8 (toHex n) = ((lowDigits 8 n).map hexByte).reverse := by
  have hfuel : hexDigits 16 n = hexDigits 8 n := @hexDigits_fuel 7 n 8 (by omega)
  unfold fillZero toHex lowDigits
  rw [hfuel, List.map_append, List.reverse_append, List.map_replicate, List.reverse_replicate,
    List.length_reverse, List.length_map]
  rfl

/-- The halves are the digits of the number. -/
theorem toStringAsHexShort_eq {n : Nat} (h : n < 2 ^ 64) : toStringAsHexShort n = toHex n := by
  have hlt : n % 2 ^ 32 < 2 ^ 32 := Nat.mod_lt _ (by decide)
  unfold toStringAsHexShort
  by_cases hhigh : n / 2 ^ 32 = 0
  · rw [if_neg (not_not_intro hhigh), Nat.mod_eq_of_lt (Nat.lt_of_div_eq_zero (by decide) hhigh)]
  · have hpow : (16 : Nat) ^ 8 = 2 ^ 32 := by decide
    have hall : hexDigits 16 n = lowDigits 8 (n % 2 ^ 32) ++ hexDigits 8 (n / 2 ^ 32) := by
      rw [← hpow]
      exact @hexDigits_split 8 n 8 hhigh
    have hfuel : hexDigits 16 (n / 2 ^ 32) = hexDigits 8 (n / 2 ^ 32) :=
      @hexDigits_fuel 7 _ 8 (by omega)
    rw [if_pos hhigh, fillZero_toHex hlt]
    unfold toHex
    rw [hfuel, hall, List.map_append, List.reverse_append]

theorem hexStringToObject_toHex {n : Nat} (h : n < 2 ^ 64) :
    hexStringToObject (toHex n) = some n := by
  unfold hexStringToObject
  rw [scanHex_toHex h]
  dsimp only
  rw [if_pos h]
  exact congrArg (fun a : Address => some a.val) (clamp64_val ⟨n, h⟩)

theorem hexStringToObject_toStringAsHexShort {n : Nat} (h : n < 2 ^ 64) :
    hexStringToObject (toStringAsHexShort n) = some n := by
  rw [toStringAsHexShort_eq h, hexStringToObject_toHex h]

end Hex

/-! ## `CCommonFormatBuilder` -/

/-- The name and the text of an attribute. -/
abbrev Attribute := List Byte × List Byte

/-- `ORTHIA_WRITE_FIELD_ADDRESS` -/
def ORTHIA_WRITE_FIELD_ADDRESS : List Byte := ascii "address"

def CFB_CONTENT_SIZE_FIELD : List Byte := ascii "sys_bin_size"

def CFB_ROOT_NODE_NAME : List Byte := ascii "root"

/-- `SetAttribute`: an attribute that is there gets the new text. -/
def setAttribute (name value : List Byte) : List Attribute → List Attribute
  | [] => [(name, value)]
  | p :: rest => if p.1 = name then (name, value) :: rest else p :: setAttribute name value rest

structure Builder where
  attributes : List Attribute
  compact : Bool
  wasMetadata : Bool

namespace Builder

def new (compact : Bool) : Builder := ⟨[], compact, false⟩

/-- `AddMetadata` of a text. -/
def addText (b : Builder) (name value : List Byte) : Builder :=
  { b with attributes := setAttribute name value b.attributes, wasMetadata := true }

/-- `AddMetadata` of a number. -/
def addMetadata (b : Builder) (name : List Byte) (value : Nat) :
    Builder := b.addText name (toStringAsHexShort value)

end Builder

/-- The attributes of an item. -/
def itemAttributes (address size : Nat) : List Attribute :=
  [(ORTHIA_WRITE_FIELD_ADDRESS, toStringAsHexShort address),
    (CFB_CONTENT_SIZE_FIELD, toStringAsHexShort size)]

/-- The XML library on a header: `print` is `XmlDocToString` of an element `root` with these
attributes, `parse` gives the name of the root element and its attributes. -/
structure HeaderXml where
  print : (compact : Bool) → List Attribute → List Byte
  parse : List Byte → Option (List Byte × List Attribute)
  zero_notMem : ∀ compact a n, 0 ∉ print compact (itemAttributes a n)
  parse_print : ∀ compact a n, a < 2 ^ 64 → n < 2 ^ 63 →
    parse (print compact (itemAttributes a n)) = some (CFB_ROOT_NODE_NAME, itemAttributes a n)

/-- `CCommonFormatBuilder::Produce` -/
def Builder.produce (X : HeaderXml) (b : Builder) (value : List Byte) : List Byte :=
  if b.compact ∧ value.length = 0 ∧ ¬ b.wasMetadata then []
  else
    let b := b.addText CFB_CONTENT_SIZE_FIELD (toStringAsHexShort value.length)
    X.print b.compact b.attributes ++ 0 :: value

/-! ## The items of a blob -/

/-- What `Parse` and the queries of numbers make of a header. -/
def HeaderXml.toXml (X : HeaderXml) (compact : Bool) : Xml where
  print a n := X.print compact (itemAttributes a n)
  parse bs := (X.parse bs).bind fun p =>
    if p.1 ≠ CFB_ROOT_NODE_NAME then none
    else some
      { address := (p.2.lookup ORTHIA_WRITE_FIELD_ADDRESS).bind hexStringToObject
        size := (p.2.lookup CFB_CONTENT_SIZE_FIELD).bind hexStringToObject }
  zero_notMem := X.zero_notMem compact
  parse_print a n ha hn := by
    have haddress : (itemAttributes a n).lookup ORTHIA_WRITE_FIELD_ADDRESS =
        some (toStringAsHexShort a) := by
      simp [itemAttributes]
    have hsize : (itemAttributes a n).lookup CFB_CONTENT_SIZE_FIELD =
        some (toStringAsHexShort n) := by
      have hne : (CFB_CONTENT_SIZE_FIELD == ORTHIA_WRITE_FIELD_ADDRESS) = false := by decide
      simp [itemAttributes, List.lookup_cons, hne]
    rw [X.parse_print compact a n ha hn, Option.bind_some, if_neg (not_not_intro rfl),
      haddress, hsize, Option.bind_some, Option.bind_some, hexStringToObject_toStringAsHexShort ha,
      hexStringToObject_toStringAsHexShort (by omega)]

section

variable {X : HeaderXml} {compact : Bool}

/-- An item is its header and its bytes. -/
theorem produce_eq (address : Nat) (value : List Byte) :
    ((Builder.new compact).addMetadata ORTHIA_WRITE_FIELD_ADDRESS address).produce X value =
      Orthia.produce (X.toXml compact) address value := by
  have hne : ORTHIA_WRITE_FIELD_ADDRESS ≠ CFB_CONTENT_SIZE_FIELD := by decide
  unfold Builder.produce
  rw [if_neg (by simp [Builder.addMetadata, Builder.addText])]
  simp only [Builder.addMetadata, Builder.addText, Builder.new, setAttribute, if_neg hne]
  rfl

end

/-- `CCommonFormatMultiBuilder`: `AddItem` of one item after the other. -/
def addItems (items : List (List Byte)) :
    List Byte := items.foldl (fun data item => data ++ item) []

/-- `CCommonFormatMultiParser::QueryNextItem` at the bytes from `m_pCurrentStart` on. -/
def queryNextItem (X : Xml) (current : List Byte) (p : Parser) : Bool × List Byte × Parser :=
  if current = [] then (false, current, p)
  else
    match p.parse X current with
    | (false, p) => (false, current, p)
    | (true, p) =>
      if p.querySize = 0 then (false, current, p) else (true, current.drop p.querySize, p)

/-- A caller takes the address and the bytes of each item while there is one: what it was given and
what is left of the blob, or nothing when `calls` of them have not come to an end. -/
def readItems (X : Xml) : (calls : Nat) → List Byte → Parser →
    Option (List (Option Nat × Option (List Byte)) × List Byte)
  | 0, _, _ => none
  | calls + 1, current, p =>
    match queryNextItem X current p with
    | (false, rest, _) => some ([], rest)
    | (true, rest, p) =>
      (readItems X calls rest p).map fun r => ((p.queryAddress, p.queryValue) :: r.1, r.2)

/-- An address and a byte string. -/
structure JournalItem where
  address : Address
  value : List Byte
  length_le : value.length ≤ maxSize

/-- The encoding of an item. -/
def JournalItem.encode (X : HeaderXml) (compact : Bool) (item : JournalItem) : List Byte :=
  ((Builder.new compact).addMetadata ORTHIA_WRITE_FIELD_ADDRESS item.address.val).produce
    X item.value

/-- The blob of some items. -/
def journal (X : HeaderXml) (compact : Bool) (items : List JournalItem) : List Byte :=
  addItems (items.map (JournalItem.encode X compact))

section

variable {X : HeaderXml} {compact : Bool}

theorem journal_cons (item : JournalItem) (items : List JournalItem) :
    journal X compact (item :: items) = item.encode X compact ++ journal X compact items := by
  have hflatten : ∀ (l : List (List Byte)) (acc : List Byte),
      l.foldl (fun d i => d ++ i) acc = acc ++ l.flatten := by
    intro l
    induction l with
    | nil => intro acc; simp
    | cons i l ih => intro acc; rw [List.foldl_cons, ih]; simp
  unfold journal addItems
  rw [hflatten, hflatten, List.map_cons, List.flatten_cons, List.nil_append, List.nil_append]

theorem queryNextItem_journal (item : JournalItem) (rest : List Byte) (p : Parser)
    (hp : p.empty = false) :
    ∃ q, queryNextItem (X.toXml compact) (item.encode X compact ++ rest) p = (true, rest, q) ∧
    q.empty = false ∧
      q.queryAddress = some item.address.val ∧ q.queryValue = some item.value := by
  have hlength : item.value.length < 2 ^ 63 := by
    have := item.length_le
    unfold maxSize at this
    omega
  obtain ⟨q, hq, hempty, haddress, -, hvalue, hsize⟩ :=
    @parse_item (X.toXml compact) p hp item.address.val item.address.isLt item.value hlength rest
  refine ⟨q, ?_, hempty, haddress, hvalue⟩
  have hpos : 0 < (produce (X.toXml compact) item.address.val item.value).length := by
    rw [produce, List.length_append, List.length_cons]
    omega
  have hne : produce (X.toXml compact) item.address.val item.value ++ rest ≠ [] := by simp [produce]
  unfold JournalItem.encode queryNextItem
  rw [produce_eq, if_neg hne, hq]
  dsimp only
  rw [if_neg (by omega), hsize, List.drop_left]

end

/-- The items of a blob come back in their order, and the call after the last one finds the end. -/
theorem readItems_journal (X : HeaderXml) (compact : Bool) (items : List JournalItem) :
    readItems (X.toXml compact) (items.length + 1) (journal X compact items) Parser.new =
      some (items.map fun item => (some item.address.val, some item.value), []) := by
  have hrun : ∀ (items : List JournalItem) (p : Parser), p.empty = false →
      readItems (X.toXml compact) (items.length + 1) (journal X compact items) p =
        some (items.map fun item => (some item.address.val, some item.value), []) := by
    intro items
    induction items with
    | nil => intro p _; rfl
    | cons item items ih =>
      intro p hp
      obtain ⟨q, hq, hempty, haddress, hvalue⟩ :=
        @queryNextItem_journal X compact item (journal X compact items) p hp
      rw [journal_cons, List.length_cons, readItems, hq]
      dsimp only
      rw [ih q hempty, haddress, hvalue]
      rfl
  exact hrun items Parser.new rfl

/-! ## Header text

The text that the library prints, as an instance of `HeaderXml`.
-/

def printHeader (l : List Attribute) : List Byte :=
  ascii "<root" ++
    ((l.flatMap fun p => 32 :: (p.1 ++ (ascii "=\"" ++ (p.2 ++ ascii "\"")))) ++ ascii "/>")

theorem zero_notMem_toStringAsHexShort (n : Nat) : 0 ∉ toStringAsHexShort n := by
  unfold toStringAsHexShort fillZero
  split
  · rw [List.mem_append, List.mem_append, not_or, not_or]
    exact ⟨zero_notMem_toHex _, by simp, zero_notMem_toHex _⟩
  · exact zero_notMem_toHex _

theorem printHeader_item {a n : Nat} (ha : a < 2 ^ 64) (hn : n < 2 ^ 64) :
    printHeader (itemAttributes a n) = printRoot a n := by
  unfold printHeader printRoot itemAttributes
  rw [toStringAsHexShort_eq ha, toStringAsHexShort_eq hn, List.flatMap_cons, List.flatMap_cons,
    List.flatMap_nil]
  simp [ORTHIA_WRITE_FIELD_ADDRESS, CFB_CONTENT_SIZE_FIELD, ascii]

theorem zero_notMem_printHeader (a n : Nat) : 0 ∉ printHeader (itemAttributes a n) := by
  unfold printHeader itemAttributes
  rw [List.flatMap_cons, List.flatMap_cons, List.flatMap_nil]
  intro h
  simp only [List.mem_append, List.mem_cons, zero_notMem_toStringAsHexShort, false_or,
    List.not_mem_nil, or_false] at h
  revert h
  decide

/-- `<root address="1000" sys_bin_size="2"/>` -/
def rootHeaderXml : HeaderXml where
  print _ l := printHeader l
  parse bs := do
    let l ← parseRoot bs
    some (CFB_ROOT_NODE_NAME, itemAttributes (← l.address) (← l.size))
  zero_notMem _ := zero_notMem_printHeader
  parse_print _ a n ha hn := by
    rw [printHeader_item ha (by omega), parseRoot_printRoot ha (by omega)]
    rfl

example : journal rootHeaderXml true [⟨0x1000, [], by decide⟩] =
    ascii "<root address=\"1000\" sys_bin_size=\"0\"/>" ++ [0] := by decide

end Diana.Orthia
