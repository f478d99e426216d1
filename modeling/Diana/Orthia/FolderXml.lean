import Diana.Orthia.FloatingFormat
import Diana.Lib.Decimal

/-!
# XML files of a process folder

What `orthia_capture.cpp` and `orthia_saved_process.cpp` do with tinyxml2: elements with attributes
that are C strings, the first child of a name and the ones after it, and numbers as attributes in
base 16 (`ToHex`, `HexAttribute`) or base 10 (`SetAttribute` of an `int`, `IntAttribute`).

The text of a document is up to the library.
-/

namespace Diana.Orthia.Folder

open Diana.Lib

/-- A text that is given as a C string. -/
abbrev Text := { text : List Byte // 0 ∉ text }

/-- `""` -/
def Text.empty : Text := ⟨[], List.not_mem_nil⟩

/-- `XMLElement` -/
inductive Element where
  | mk (name : String) (attributes : List (String × Text)) (children : List Element)

namespace Element

def name : Element → String
  | mk name _ _ => name

def attributes : Element → List (String × Text)
  | mk _ attributes _ => attributes

def children : Element → List Element
  | mk _ _ children => children

end Element

/-- The XML library on a document, a list of elements. -/
structure DocumentXml where
  print : List Element → List Byte
  parse : List Byte → Option (List Element)

/-- The library gives back what it was given. -/
def DocumentXml.Returns (X : DocumentXml) (doc : List Element) :
    Prop := X.parse (X.print doc) = some doc

/-- `FirstChildElement` of a name. -/
def firstChildElement (children : List Element) (name : String) : Option Element :=
  children.find? fun e => e.name = name

/-- `FirstChildElement` of a name, then `NextSiblingElement` while there is one. -/
def childElements (children : List Element) (name : String) : List Element :=
  children.filter fun e => e.name = name

/-! ## Numbers -/

/-- `ToHex` -/
def hexOf (n : Nat) : Text := ⟨toHex n, zero_notMem_toHex n⟩

/-- `%d`, `%lld` -/
def intDigits (v : Int) : List Byte := if v < 0 then 45 :: decimal v.natAbs else decimal v.natAbs

theorem zero_notMem_decimal (n : Nat) :
    0 ∉ decimal n := fun h => absurd (isDigit_of_mem_decimal h) (by decide)

theorem zero_notMem_intDigits (v : Int) : 0 ∉ intDigits v := by
  unfold intDigits
  split
  · rw [List.mem_cons, not_or]
    exact ⟨by decide, zero_notMem_decimal _⟩
  · exact zero_notMem_decimal _

/-- `SetAttribute` of an `int` or an `int64_t`. -/
def intOf (v : Int) : Text := ⟨intDigits v, zero_notMem_intDigits v⟩

/-- `SetAttribute` of `value ? 1 : 0`. -/
def flagOf (b : Bool) : Text := intOf (if b then 1 else 0)

/-- `strtoull` in base 16. -/
def strtoull (text : List Byte) : Address :=
  match scanHex text with
  | none => 0
  | some (negative, n, _) => clamp64 negative n

/-- `sscanf` of `%d` or `%lld`. A number that is out of range has no meaning in C. -/
def scanInt (text : List Byte) : Option Int :=
  let (negative, t) := skipSign (text.dropWhile isSpace)
  let digits := t.takeWhile isDigit
  if digits = [] then none
  else if negative then some (-decimalValue digits) else some (decimalValue digits)

@[simp] theorem strtoull_toHex (a : Address) : strtoull (toHex a.val) = a := by
  unfold strtoull
  rw [scanHex_toHex a.isLt]
  exact clamp64_val a

theorem takeWhile_decimal (n : Nat) : (decimal n).takeWhile isDigit = decimal n :=
  List.takeWhile_eq_self_iff.2 fun _ h => isDigit_of_mem_decimal h

/-- A digit is neither a space nor a sign. -/
theorem skipSign_decimal (n : Nat) :
    skipSign ((decimal n).dropWhile isSpace) = (false, decimal n) := by
  obtain ⟨b, t, hbt⟩ := List.exists_cons_of_ne_nil (decimal_ne_nil n)
  have hb : 48 ≤ b.toNat :=
    (of_decide_eq_true (isDigit_of_mem_decimal (hbt ▸ List.mem_cons_self))).1
  have hspace : isSpace b = false := decide_eq_false (by omega)
  have hminus : b ≠ 45 := by
    rintro rfl
    exact absurd hb (by decide)
  have hplus : b ≠ 43 := by
    rintro rfl
    exact absurd hb (by decide)
  rw [hbt, List.dropWhile_cons_of_neg (by simp [hspace]), skipSign, if_neg hminus, if_neg hplus]

@[simp] theorem scanInt_intDigits (v : Int) : scanInt (intDigits v) = some v := by
  unfold scanInt intDigits
  by_cases hv : v < 0
  · have hsign : skipSign ((45 :: decimal v.natAbs).dropWhile isSpace) = (true, decimal v.natAbs) :=
      rfl
    rw [if_pos hv, hsign]
    dsimp only
    rw [takeWhile_decimal, if_neg (decimal_ne_nil _), if_pos rfl, decimalValue_decimal]
    exact congrArg some (by omega)
  · rw [if_neg hv, skipSign_decimal]
    dsimp only
    rw [takeWhile_decimal, if_neg (decimal_ne_nil _), if_neg Bool.false_ne_true,
      decimalValue_decimal]
    exact congrArg some (by omega)

/-! ## Attributes -/

namespace Element

variable (e : Element) (name : String)

/-- `Attribute` -/
def attr : Option Text := e.attributes.lookup name

/-- `HexAttribute` -/
def hexAttribute : Address :=
  match e.attr name with
  | none => 0
  | some text => if text.val = [] then 0 else strtoull text.val

/-- `IntAttribute`, `Int64Attribute` -/
def intAttribute (defaultValue : Int) :
    Int := ((e.attr name).bind fun text => scanInt text.val).getD defaultValue

/-- `TextAttribute` -/
def textAttribute : Text := (e.attr name).getD Text.empty

variable {e name}

theorem hexAttribute_of_eq {a : Address} (h : e.attr name = some (hexOf a.val)) :
    e.hexAttribute name = a := by
  unfold hexAttribute
  rw [h]
  exact (if_neg (toHex_ne_nil _)).trans (strtoull_toHex a)

theorem hexAttribute_of_none (h : e.attr name = none) : e.hexAttribute name = 0 := by
  unfold hexAttribute
  rw [h]

theorem intAttribute_of_eq {v : Int} (h : e.attr name = some (intOf v)) (defaultValue : Int) :
    e.intAttribute name defaultValue = v := by
  unfold intAttribute
  rw [h]
  exact congrArg (Option.getD · defaultValue) (scanInt_intDigits v)

theorem flagAttribute_of_eq {b : Bool} (h : e.attr name = some (flagOf b)) (defaultValue : Int) :
    (e.intAttribute name defaultValue != 0) = b := by
  rw [intAttribute_of_eq h]
  cases b <;> rfl

theorem textAttribute_of_eq {text : Text} (h : e.attr name = some text) :
    e.textAttribute name = text := by
  unfold textAttribute
  rw [h]
  rfl

theorem textAttribute_of_none (h : e.attr name = none) : e.textAttribute name = Text.empty := by
  unfold textAttribute
  rw [h]
  rfl

end Element

/-! ## Lists of numbers in an attribute -/

/-- The numbers one after the other, with a space in between. -/
def hexList (addresses : List Address) : List Byte :=
  addresses.foldl (fun text address => appendItem 32 text (toHex address.val)) []

/-- The loop over the words of a text: a word ends at the next space or at the end. -/
def words (text : List Byte) : List (List Byte) :=
  if text = [] then []
  else
    let word := text.takeWhile (· ≠ 32)
    word :: words (text.drop (word.length + 1))
termination_by text.length
decreasing_by
  have hpos : 0 < text.length := List.length_pos_iff.2 ‹_›
  rw [List.length_drop]
  omega

theorem words_append {word : List Byte} (h : 32 ∉ word) (rest : List Byte) :
    words (word ++ 32 :: rest) = word :: words rest := by
  have htake : (word ++ 32 :: rest).takeWhile (· ≠ 32) = word :=
    congrArg Prod.fst (cutAt_append h rest)
  rw [words, if_neg (by simp), htake]
  dsimp only
  rw [← List.drop_drop, List.drop_left]
  rfl

theorem words_of_notMem {word : List Byte} (h : 32 ∉ word) (hne : word ≠ []) :
    words word = [word] := by
  have htake : word.takeWhile (· ≠ 32) = word := congrArg Prod.fst (cutAt_of_notMem h)
  rw [words, if_neg hne, htake]
  dsimp only
  rw [List.drop_eq_nil_of_le (Nat.le_succ _), words, if_pos rfl]

theorem words_intercalate {items : List (List Byte)} (hsep : ∀ i ∈ items, 32 ∉ i)
    (hne : ∀ i ∈ items, i ≠ []) : words ([32].intercalate items) = items := by
  induction items with
  | nil => rw [words]; rfl
  | cons i items ih =>
    cases items with
    | nil =>
      rw [List.intercalate_singleton]
      exact words_of_notMem (hsep i List.mem_cons_self) (hne i List.mem_cons_self)
    | cons j items =>
      rw [List.intercalate_cons_cons, List.append_assoc, List.singleton_append,
        words_append (hsep i List.mem_cons_self),
        ih (fun k hk => hsep k (List.mem_cons_of_mem _ hk)) fun k hk =>
        hne k (List.mem_cons_of_mem _ hk)]

theorem space_notMem_toHex (n : Nat) :
    32 ∉ toHex n := fun h => absurd (isSome_of_mem_toHex h) (by decide)

theorem hexList_eq (addresses : List Address) :
    hexList addresses = [32].intercalate (addresses.map fun a => toHex a.val) := by
  unfold hexList
  rw [← foldl_appendItem, List.foldl_map]
  intro i hi
  obtain ⟨a, -, rfl⟩ := List.mem_map.1 hi
  exact toHex_ne_nil _

/-- The numbers come back. -/
theorem words_hexList (addresses : List Address) :
    (words (hexList addresses)).map strtoull = addresses := by
  rw [hexList_eq, words_intercalate, List.map_map]
  · exact (List.map_congr_left fun a _ => strtoull_toHex a).trans (List.map_id _)
  · intro i hi
    obtain ⟨a, -, rfl⟩ := List.mem_map.1 hi
    exact space_notMem_toHex _
  · intro i hi
    obtain ⟨a, -, rfl⟩ := List.mem_map.1 hi
    exact toHex_ne_nil _

theorem zero_notMem_hexList (addresses : List Address) : 0 ∉ hexList addresses := by
  rw [hexList_eq]
  intro h
  rcases mem_intercalate h with h | ⟨i, hi, h⟩
  · exact absurd h (by decide)
  · obtain ⟨a, -, rfl⟩ := List.mem_map.1 hi
    exact zero_notMem_toHex _ h

end Diana.Orthia.Folder
