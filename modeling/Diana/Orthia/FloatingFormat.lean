import Diana.Orthia.Floating
import Diana.Orthia.CommonFormat
import Diana.Lib.Separators

/-!
# The text of a floating region

A floating region is saved as the attributes of one XML element. The entries are one
attribute, `<entry>:<referrer>,<referrer>/<kind>;<entry>:...`, and the slots of the entries
that have any are another, `<entry>:<i|e><slot>=<name>,...;<entry>:...`, with the separators
of a name written as `%XX`.

The XML library is a parameter: it returns the attributes it was given.
-/

namespace Diana.Orthia

open Diana.Lib

/-- The attributes of a floating region. -/
inductive Field where
  | base
  | size
  | protect
  | type
  | mapped
  | header
  | hash
  | hashed
  | codeStart
  | codeLast
  | entries
  | slots
  | snapshot
  | snapshotSize
  | snapshotMissing
  | sha256
  deriving DecidableEq, Repr

/-- The XML library on the `root` element of a floating region. -/
structure RootXml where
  print : List (Field × List Byte) → List Byte
  parse : List Byte → Option (List (Field × List Byte))
  print_ne : ∀ l, print l ≠ []
  zero_notMem : ∀ l, (∀ p ∈ l, 0 ∉ p.2) → 0 ∉ print l
  parse_print : ∀ l, (∀ p ∈ l, 0 ∉ p.2) → parse (print l) = some l

/-! ## Numbers -/

/-- `isspace` -/
def isSpace (b : Byte) : Bool := b.toNat = 32 ∨ 9 ≤ b.toNat ∧ b.toNat ≤ 13

/-- The value of a digit, in either case. -/
def digitValue (b : Byte) : Option Nat :=
  if 65 ≤ b.toNat ∧ b.toNat < 71 then some (b.toNat - 55) else hexValue b

def skipSign : List Byte → Bool × List Byte
  | b :: t => if b = 45 then (true, t) else if b = 43 then (false, t) else (false, b :: t)
  | [] => (false, [])

/-- `0x` before a digit. -/
def skipBase : List Byte → List Byte
  | z :: x :: d :: t =>
    if z = 48 ∧ (x = 120 ∨ x = 88) ∧ (digitValue d).isSome then d :: t else z :: x :: d :: t
  | t => t

/-- A number at the start of a text in base 16, as `strtoull` and a stream in `std::hex` find it:
whether it has a minus sign, its digits' value and the rest. -/
def scanHex (text : List Byte) : Option (Bool × Nat × List Byte) :=
  let (negative, t) := skipSign (text.dropWhile isSpace)
  let t := skipBase t
  let digits := t.takeWhile fun b => (digitValue b).isSome
  if digits = [] then none
  else some (negative, ofHexDigits (digits.reverse.filterMap digitValue), t.drop digits.length)

/-- The value of `strtoull`. -/
def clamp64 (negative : Bool) (n : Nat) : Address :=
  if n < 2 ^ 64 then if negative then -Fin.ofNat (2 ^ 64) n else Fin.ofNat (2 ^ 64) n
  else Fin.ofNat (2 ^ 64) (2 ^ 64 - 1)

/-- The value that `stream >> int` leaves. -/
def clampInt (negative : Bool) (n : Nat) : Int :=
  if negative then max (-2 ^ 31) (-n) else min (2 ^ 31 - 1) n

/-- `ParseHex`: the whole C string is a number. -/
def parseHex (text : List Byte) : Option Address :=
  if text = [] then none
  else
    let cstr := text.takeWhile (· ≠ 0)
    match scanHex cstr with
    | none => if cstr = [] then some 0 else none
    | some (negative, n, rest) => if rest = [] then some (clamp64 negative n) else none

/-- `ToHex` -/
def hexText (a : Address) : List Byte := toHex a.val

/-- `ToStringAsHex_Short((long long)value)` -/
def intText (value : Int) : List Byte := toHex (value % 2 ^ 64).toNat

/-! ## Names -/

/-- The characters that a name may not have in the text of the slots. -/
def isSeparator (c : Byte) : Bool :=
  c.toNat < 0x20 ∨ c = 37 ∨ c = 44 ∨ c = 59 ∨ c = 58 ∨ c = 61

/-- A digit of `%02X` -/
def upperByte (d : Nat) :
    Byte := if d < 10 then BitVec.ofNat 8 (48 + d) else BitVec.ofNat 8 (55 + d)

def escapeByte (c : Byte) : List Byte :=
  if isSeparator c then [37, upperByte (c.toNat / 16), upperByte (c.toNat % 16)] else [c]

def escapeName (name : List Byte) : List Byte := name.flatMap escapeByte

def unescapeName : List Byte → List Byte
  | c :: a :: b :: rest =>
    match if c = 37 then parseHex [a, b] else none with
    | some value => BitVec.ofNat 8 value.val :: unescapeName rest
    | none => c :: unescapeName (a :: b :: rest)
  -- no room for two digits
  | text => text

/-! ## `FormatFloatingRegion` -/

def kindText : ReferenceKind → List Byte
  | .code => ascii "/c"
  | .address => ascii "/a"
  | .data => ascii "/d"
  | .unknown => []

def referrerText (e : FloatingEntryInfo) (referrer : Address) (i : Nat) : List Byte :=
  hexText referrer ++ kindText (e.referrerKinds.getD i .unknown)

def entryText (e : FloatingEntryInfo) : List Byte :=
  hexText e.address ++ 58 ::
    [44].intercalate (e.referrers.zipIdx.map fun p => referrerText e p.1 p.2)

def entriesText (r : FloatingRegionInfo) : List Byte :=
  (r.entries.map entryText).foldl (appendItem 59) []

def slotText (s : PointerSlotInfo) : List Byte :=
  (if s.kind = .kindExport then 101 else 105) :: (hexText s.slot ++ 61 :: escapeName s.name)

def entrySlotsText (e : FloatingEntryInfo) : List Byte :=
  hexText e.address ++ 58 :: [44].intercalate (e.slots.map slotText)

def slotsText (r : FloatingRegionInfo) : List Byte :=
  ((r.entries.filter fun e => e.slots ≠ []).map entrySlotsText).foldl (appendItem 59) []

/-- `AddMetadata`: the attribute is a C string. -/
def addMetadata (field : Field) (value : List Byte) (attributes : List (Field × List Byte)) :
    List (Field × List Byte) :=
  attributes ++ [(field, value.takeWhile (· ≠ 0))]

/-- The attributes of a region, in the order they are added. -/
def regionMetadata (r : FloatingRegionInfo) : List (Field × List Byte) :=
  let l := addMetadata .base (hexText r.allocationBase) []
  let l := addMetadata .size (hexText r.allocationSize) l
  let l := addMetadata .protect (intText r.protect) l
  let l := addMetadata .type (intText r.type) l
  let l := addMetadata .mapped r.mappedName l
  let l := addMetadata .header r.header l
  let l := addMetadata .hash (hexText r.bytesHash) l
  let l := addMetadata .hashed (hexText r.hashedSize) l
  let l := addMetadata .codeStart (hexText r.codeStart) l
  let l := addMetadata .codeLast (hexText r.codeLast) l
  let l := addMetadata .entries (entriesText r) l
  let l := if slotsText r = [] then l else addMetadata .slots (slotsText r) l
  if r.snapshotFile = [] then l
  else
    let l := addMetadata .snapshot r.snapshotFile l
    let l := addMetadata .snapshotSize (hexText r.snapshotSize) l
    let l := addMetadata .snapshotMissing (hexText r.snapshotMissing) l
    addMetadata .sha256 r.sha256 l

def formatFloatingRegion (X : RootXml) (r : FloatingRegionInfo) : List Byte :=
  X.print (regionMetadata r)

/-! ## `ParseFloatingRegion` -/

def parseKind (letter : List Byte) : ReferenceKind :=
  if letter = ascii "c" then .code
  else if letter = ascii "a" then .address
  else if letter = ascii "d" then .data
  else .unknown

/-- `<referrer>` or `<referrer>/<kind>` -/
def parseReferrer (text : List Byte) : Option (Address × ReferenceKind) := do
  let (head, letter) := cutAt 47 text
  let referrer ← parseHex head
  some (referrer, (letter.map parseKind).getD .unknown)

/-- The enumerator's value. -/
def ReferenceKind.toNat : ReferenceKind → Nat
  | .unknown => 0
  | .code => 1
  | .address => 2
  | .data => 3

/-- The order of `std::pair<Address_type, int>`. -/
def referrerLe (a b : Address × ReferenceKind) : Bool :=
  a.1 < b.1 ∨ a.1 = b.1 ∧ a.2.toNat ≤ b.2.toNat

def parseEntry (item : List Byte) : Option FloatingEntryInfo := do
  let (head, list) := cutAt 58 item
  let address ← parseHex head
  let referrers ← (split 44 (list.getD [])).mapM parseReferrer
  let referrers := referrers.mergeSort referrerLe
  some { address, referrers := referrers.map Prod.fst, referrerKinds := referrers.map Prod.snd
         slots := [] }

def parseEntries (text : List Byte) : Option (List FloatingEntryInfo) := do
  let entries ← (split 59 text).mapM parseEntry
  some (entries.mergeSort fun a b => a.address ≤ b.address)

/-- `<i|e><slot>=<name>` -/
def parseSlot (text : List Byte) : Option PointerSlotInfo := do
  let (head, name) := cutAt 61 text
  let name ← name
  let kind ← head.head?
  if text.length < 2 ∨ kind ≠ 105 ∧ kind ≠ 101 then none
  else
    let slot ← parseHex head.tail
    some { slot, value := 0, kind := if kind = 101 then .kindExport else .kindImport
           name := unescapeName name }

def parseEntrySlots (r : FloatingRegionInfo) (item : List Byte) : Option FloatingRegionInfo := do
  let (head, list) := cutAt 58 item
  let list ← list
  let address ← parseHex head
  (split 44 list).foldlM (fun r text => do return (r.addSlot address (← parseSlot text)).region) r

def parseSlots (r : FloatingRegionInfo) (text : List Byte) : Option FloatingRegionInfo :=
  (split 59 text).foldlM parseEntrySlots r

/-- `CCommonFormatParser::Parse`: the attributes that the queries then see. -/
def parseMetadata (X : RootXml) (text : List Byte) : Option (List (Field × List Byte)) :=
  if text = [] then some [] else X.parse (text.takeWhile (· ≠ 0))

section Query

variable (attributes : List (Field × List Byte))

/-- `QueryMetadata` into a string. -/
def queryText (field : Field) : List Byte := (attributes.lookup field).getD []

/-- `QueryMetadata` into an `int`. -/
def queryInt (field : Field) : Int :=
  match (attributes.lookup field).bind scanHex with
  | none => 0
  | some (negative, n, _) => clampInt negative n

def queryHex (field : Field) : Option Address := (attributes.lookup field).bind parseHex

end Query

def parseFloatingRegion (X : RootXml) (text : List Byte) : Option FloatingRegionInfo := do
  let l ← parseMetadata X text
  let allocationBase ← queryHex l .base
  let allocationSize ← queryHex l .size
  if allocationSize = 0 then none
  else
    let entries ← parseEntries (queryText l .entries)
    let r : FloatingRegionInfo :=
      { allocationBase
        allocationSize
        protect := queryInt l .protect
        type := queryInt l .type
        mappedName := queryText l .mapped
        header := queryText l .header
        bytesHash := (queryHex l .hash).getD 0
        hashedSize := (queryHex l .hashed).getD 0
        codeStart := (queryHex l .codeStart).getD 0
        codeLast := (queryHex l .codeLast).getD 0
        entries
        snapshotFile := queryText l .snapshot
        snapshotSize := (queryHex l .snapshotSize).getD 0
        snapshotMissing := (queryHex l .snapshotMissing).getD 0
        sha256 := queryText l .sha256 }
    parseSlots r (queryText l .slots)

/-! ## Numbers read back -/

theorem digit_bounds {b : Byte} (h : (digitValue b).isSome) :
    48 ≤ b.toNat ∧ b.toNat < 58 ∨ 65 ≤ b.toNat ∧ b.toNat < 71 ∨ 97 ≤ b.toNat ∧ b.toNat < 103 := by
  unfold digitValue hexValue at h
  split at h
  · omega
  · split at h
    · omega
    · split at h
      · omega
      · cases h

theorem digit_ne {b c : Byte} (h : (digitValue b).isSome) (hc : digitValue c = none) : b ≠ c := by
  rintro rfl
  rw [hc] at h
  cases h

/-- A text of digits is one number. -/
theorem scanHex_digits {text : List Byte} (hne : text ≠ [])
    (h : ∀ b ∈ text, (digitValue b).isSome) :
    scanHex text = some (false, ofHexDigits (text.reverse.filterMap digitValue), []) := by
  obtain ⟨b, t, rfl⟩ := List.exists_cons_of_ne_nil hne
  have hb := h b List.mem_cons_self
  have hspace : isSpace b = false := by
    have := digit_bounds hb
    simp only [isSpace, decide_eq_false_iff_not]
    omega
  have hdrop : (b :: t).dropWhile isSpace = b :: t := List.dropWhile_cons_of_neg (by simp [hspace])
  have hsign : skipSign (b :: t) = (false, b :: t) := by
    rw [skipSign, if_neg (digit_ne hb rfl), if_neg (digit_ne hb rfl)]
  have hbase : skipBase (b :: t) = b :: t := by
    unfold skipBase
    split
    · rename_i z x d t' he
      have hx := h x (he ▸ List.mem_cons_of_mem _ List.mem_cons_self)
      exact (if_neg fun hc => hc.2.1.elim (digit_ne hx rfl) (digit_ne hx rfl)).trans he.symm
    · rfl
  have htake : (b :: t).takeWhile (fun b => (digitValue b).isSome) = b :: t :=
    List.takeWhile_eq_self_iff.2 h
  unfold scanHex
  simp only [hdrop, hsign, hbase, htake]
  rw [if_neg (List.cons_ne_nil _ _), List.drop_length]

theorem digitValue_hexByte {d : Nat} (h : d < 16) : digitValue (hexByte d) = some d := by
  interval_cases d <;> rfl

theorem digitValue_upperByte {d : Nat} (h : d < 16) : digitValue (upperByte d) = some d := by
  interval_cases d <;> rfl

theorem isSome_of_mem_toHex {n : Nat} {b : Byte} (h : b ∈ toHex n) : (digitValue b).isSome := by
  obtain ⟨d, hd, rfl⟩ := List.mem_map.1 (List.mem_reverse.1 h)
  rw [digitValue_hexByte (lt_of_mem_hexDigits hd)]
  rfl

theorem toHex_ne_nil (n : Nat) : toHex n ≠ [] := by
  unfold toHex hexDigits
  simp

theorem scanHex_toHex {n : Nat} (h : n < 2 ^ 64) : scanHex (toHex n) = some (false, n, []) := by
  rw [scanHex_digits (toHex_ne_nil n) fun b hb => isSome_of_mem_toHex hb]
  have hmap : ∀ ds : List Nat, (∀ d ∈ ds, d < 16) → (ds.map hexByte).filterMap digitValue = ds := by
    intro ds hds
    induction ds with
    | nil => rfl
    | cons d ds ih =>
      rw [List.map_cons, List.filterMap_cons_some (digitValue_hexByte (hds d List.mem_cons_self)),
        ih fun d hd => hds d (List.mem_cons_of_mem _ hd)]
  rw [toHex, List.reverse_reverse, hmap _ fun d hd => lt_of_mem_hexDigits hd,
    ofHexDigits_hexDigits (by omega)]

/-- A number of digits is read as its value. -/
theorem parseHex_digits {text : List Byte} (hne : text ≠ [])
    (h : ∀ b ∈ text, (digitValue b).isSome) :
    parseHex text = some (clamp64 false (ofHexDigits (text.reverse.filterMap digitValue))) := by
  have htake : text.takeWhile (· ≠ 0) = text :=
    List.takeWhile_eq_self_iff.2 fun b hb => decide_eq_true (digit_ne (h b hb) rfl)
  unfold parseHex
  rw [if_neg hne]
  simp only [htake, scanHex_digits hne h, if_true]

theorem clamp64_val (a : Address) : clamp64 false a.val = a := by
  unfold clamp64
  rw [if_pos a.isLt, if_neg Bool.false_ne_true]
  exact Fin.ofNat_val_eq_self a

@[simp] theorem parseHex_hexText (a : Address) : parseHex (hexText a) = some a := by
  have hs := scanHex_toHex a.isLt
  rw [scanHex_digits (toHex_ne_nil _) fun b hb => isSome_of_mem_toHex hb, Option.some.injEq,
    Prod.mk.injEq, Prod.mk.injEq] at hs
  rw [hexText, parseHex_digits (toHex_ne_nil _) fun b hb => isSome_of_mem_toHex hb, hs.2.1,
    clamp64_val]

theorem notMem_hexText {c : Byte} (hc : digitValue c = none) (a : Address) : c ∉ hexText a :=
  fun h => digit_ne (isSome_of_mem_toHex h) hc rfl

/-! ## Names read back -/

theorem parseHex_upper (c : Byte) :
    parseHex [upperByte (c.toNat / 16), upperByte (c.toNat % 16)] =
      some (Fin.ofNat (2 ^ 64) c.toNat) := by
  have hlt := c.isLt
  have hh : digitValue (upperByte (c.toNat / 16)) = some (c.toNat / 16) :=
    digitValue_upperByte (by omega)
  have hl : digitValue (upperByte (c.toNat % 16)) = some (c.toNat % 16) :=
    digitValue_upperByte (by omega)
  rw [parseHex_digits (List.cons_ne_nil _ _) (by simp [hh, hl])]
  have hv : ofHexDigits ([upperByte (c.toNat / 16), upperByte (c.toNat % 16)].reverse.filterMap
      digitValue) = c.toNat := by
    simp only [List.reverse_cons, List.reverse_nil, List.nil_append, List.singleton_append,
      List.filterMap_cons, List.filterMap_nil, hh, hl, ofHexDigits]
    omega
  rw [hv, clamp64, if_pos (by omega), if_neg Bool.false_ne_true]

theorem unescapeName_cons {c : Byte} (hc : c ≠ 37) (text : List Byte) :
    unescapeName (c :: text) = c :: unescapeName text := by
  match text with
  | [] => rfl
  | [a] => rfl
  | a :: b :: rest => rw [unescapeName, if_neg hc]

theorem unescapeName_escapeByte (c : Byte) (text : List Byte) :
    unescapeName (escapeByte c ++ text) = c :: unescapeName text := by
  have hlt := c.isLt
  unfold escapeByte
  split
  · show unescapeName (37 :: upperByte _ :: upperByte _ :: text) = _
    rw [unescapeName, if_pos rfl, parseHex_upper]
    show BitVec.ofNat 8 (c.toNat % 2 ^ 64) :: _ = _
    rw [Nat.mod_eq_of_lt (by omega), BitVec.ofNat_toNat, BitVec.setWidth_eq]
  · rename_i hs
    refine unescapeName_cons ?_ text
    rintro rfl
    exact hs rfl

theorem unescapeName_escapeName (name : List Byte) : unescapeName (escapeName name) = name := by
  induction name with
  | nil => rfl
  | cons c name ih =>
    rw [escapeName, List.flatMap_cons, unescapeName_escapeByte]
    exact congrArg _ ih

/-- An escaped name has no separator, and no percent sign but the ones of the escapes. -/
theorem notMem_escapeName {b : Byte} (hb : isSeparator b) (h37 : b ≠ 37) (name : List Byte) :
    b ∉ escapeName name := by
  intro h
  obtain ⟨c, -, hc⟩ := List.mem_flatMap.1 h
  unfold escapeByte at hc
  split at hc
  · have hlt := c.isLt
    have hne : ∀ d, d < 16 → b ≠ upperByte d := by
      intro d hd he
      have hs := digit_bounds (b := upperByte d) (by rw [digitValue_upperByte hd]; rfl)
      rw [← he] at hs
      simp only [isSeparator, decide_eq_true_eq] at hb
      rcases hb with hb | rfl | rfl | rfl | rfl | rfl
      · omega
      all_goals
        simp at hs
    rcases List.mem_cons.1 hc with rfl | hc
    · exact h37 rfl
    · rcases List.mem_cons.1 hc with he | hc
      · exact hne _ (by omega) he
      · exact hne _ (by omega) (List.mem_singleton.1 hc)
  · rename_i hs
    exact hs (List.mem_singleton.1 hc ▸ hb)

end Diana.Orthia
