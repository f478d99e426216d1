import Diana.Decoder.Context
import Diana.Status
import Mathlib.Data.List.Dedup

/-!
# Prefixes

The prefix list of the x86 decoder: which bytes are prefixes (`Di_ProcessCustomPrefix`), how the
list is built (`Diana_InsertPrefix`) and what each prefix does to the context (`ApplyPrefixes`).

A prefix that is repeated moves to the end of the list, by a shift of the array under it; the index
of the last prefix before REX is moved along.

* `insertPrefix_custom`, `insertPrefix_rex`: what `Diana_InsertPrefix` leaves;
* `Listed`: the list of the prefixes seen, in the order of their last occurrences.
-/

namespace Diana.Decoder

/-! ## The bytes -/

/-- `m_linkedPrefixFnc` of a prefix -/
inductive PrefixFnc where
  | lock | rep | repn | seg (sreg : SegReg) | opSize | addrSize | rex
  deriving DecidableEq, Repr

/-- `Di_ProcessCustomPrefix`: the function of a prefix, `none` for a byte that is no prefix. -/
def processCustomPrefix (value : Byte) : Option PrefixFnc :=
  if value = 0xF3 then some .rep
  else if value = 0xF2 then some .repn
  else if value = 0xF0 then some .lock
  else if value = 0x2E then some (.seg .cs)
  else if value = 0x36 then some (.seg .ss)
  else if value = 0x3E then some (.seg .ds)
  else if value = 0x26 then some (.seg .es)
  else if value = 0x64 then some (.seg .fs)
  else if value = 0x65 then some (.seg .gs)
  else if value = 0x66 then some .opSize
  else if value = 0x67 then some .addrSize
  else none

/-- The byte is a prefix for `Di_ProcessCustomPrefix`. -/
def isCustomPrefix (value : Byte) : Bool := (processCustomPrefix value).isSome

/-- The result of `Di_ProcessCustomPrefix`, `IsPrefixCanNotBeUsedWithRepInstruction`. -/
def canNotBeUsedWithRep (value : Byte) : Bool := value != 0x66 && value != 0x67

/-- A byte from `DI_REX_PREFIX_START` to `DI_REX_PREFIX_END`. -/
def isRex (value : Byte) : Bool := 0x40 ≤ value && value ≤ 0x4F

/-- What `Diana_InitUtils` links with a byte of the prefix list. -/
def linkedPrefixFnc (value : Byte) : PrefixFnc := (processCustomPrefix value).getD .rex

/-! ## What a prefix does -/

/-- `DI_REX_HAS_FLAG_W` -/
def rexW (rex : Byte) : Bool := rex &&& 8 != 0

/-- `Diana_CS`, `Diana_SS`, `Diana_DS`, `Diana_ES`: in 64-bit mode an FS or a GS before stays.
`Diana_FS` and `Diana_GS` always count. -/
def applySegment (c : Context) (sreg : SegReg) : Context :=
  let keeps := c.amd64Mode && (c.currentSreg == .fs || c.currentSreg == .gs) && sreg !=
      .fs && sreg != .gs
  { c with currentSreg := if keeps then c.currentSreg else sreg, rexPrefix := 0 }

/-- `Diana_OpSize` -/
def applyOpSize (c : Context) : Context :=
  let c := { c with rexPrefix := 0 }
  if c.hasOperandSizePrefix then c
  else
    let c := { c with hasOperandSizePrefix := true }
    if c.currentOpsize = 8 then { c with invalidState := true }
    else { c with currentOpsize := 6 - c.mainModeOpsize }

/-- `Diana_AddrSize` -/
def applyAddrSize (c : Context) : Context :=
  let c := { c with rexPrefix := 0 }
  if c.hasAddressSizePrefix then c
  else
    let c := { c with hasAddressSizePrefix := true }
    if c.currentAddressSize = 8 then { c with currentAddressSize := 4 }
    else { c with currentAddressSize := 6 - c.mainModeAddressSize }

/-- `Diana_Rex` -/
def applyRex (c : Context) : Context :=
  let c := { c with rexPrefix := c.rexPrefixValue }
  if rexW c.rexPrefix then { c with currentOpsize := 8 } else c

def PrefixFnc.apply (c : Context) : PrefixFnc → Context
  | .lock => { c with iPrefix := .lock, rexPrefix := 0 }
  | .rep => { c with iPrefix := .rep, rexPrefix := 0 }
  | .repn => { c with iPrefix := .repn, rexPrefix := 0 }
  | .seg sreg => applySegment c sreg
  | .opSize => applyOpSize c
  | .addrSize => applyAddrSize c
  | .rex => applyRex c

/-- `ApplyPrefixes`: all prefixes of the list but the one at an index. -/
def applyPrefixes (c : Context) (toExclude : Option Nat) : Context :=
  (List.range c.prefixes.length).foldl
    (fun d i => if some i = toExclude then d
      else (linkedPrefixFnc (c.prefixes.getD i 0)).apply d) c

/-! ## The list -/

/-- `DI_MAX_PREFIXES_COUNT` -/
def maxPrefixesCount : Nat := 14

/-- The loop that shifts the array down onto the index `i`, `n` entries, and shortens it by one. -/
def shiftDown (l : List Byte) : Nat → Nat → List Byte
  | 0, _ => l.dropLast
  | n + 1, i => shiftDown (l.set i (l.getD (i + 1) 0)) n (i + 1)

/-- The list without a prefix that is repeated. -/
def removeRepeated (c : Context) (value : Byte) : Context :=
  match c.prefixes.findIdx? (· == value) with
  | none => c
  | some i =>
    let prefixes := shiftDown c.prefixes (c.prefixes.length - (i + 1)) i
    { c with
      prefixes := prefixes
      lastPrefixBeforeRex :=
        match c.lastPrefixBeforeRex with
        | none => none
        | some k =>
          if k ≥ prefixes.length then
            if prefixes.length = 0 then none else some (prefixes.length - 1)
          else some k }

/-- `Diana_InsertPrefix` -/
def insertPrefix (c : Context) (value : Byte) (isRex : Bool) : Except Status Context :=
  if c.prefixes.length ≥ maxPrefixesCount then .error .error
  else
    let c := removeRepeated c value
    .ok { c with
      prefixes := c.prefixes ++ [value]
      lastPrefixBeforeRex := if isRex then c.lastPrefixBeforeRex else some c.prefixes.length }

/-! ## What the list holds -/

theorem shiftDown_eq {l : List Byte} {i : Nat} (h : i < l.length) :
    shiftDown l (l.length - (i + 1)) i = l.eraseIdx i := by
  obtain ⟨n, hn⟩ : ∃ n, l.length - (i + 1) = n := ⟨_, rfl⟩
  rw [hn]
  induction n generalizing l i with
  | zero =>
    have hi : i = l.length - 1 := by omega
    rw [shiftDown, hi, List.eraseIdx_length_sub_one]
  | succ n ih =>
    have hlen : (l.set i (l.getD (i + 1) 0)).length = l.length := List.length_set
    rw [shiftDown, ih (by omega) (by omega)]
    -- both lists are the old one with the entries from `i` on moved down
    refine List.ext_getElem? fun k => ?_
    simp only [List.getElem?_eraseIdx, List.getElem?_set, List.getD_eq_getElem?_getD]
    grind

theorem findIdx?_erase {l : List Byte} {value : Byte} {i : Nat}
    (h : l.findIdx? (· == value) = some i) : i < l.length ∧ l.eraseIdx i = l.erase value := by
  obtain ⟨hlt, hi, hfirst⟩ := List.findIdx?_eq_some_iff_getElem.1 h
  refine ⟨hlt, ?_⟩
  rw [List.erase_eq_eraseIdx]
  have : l.idxOf? value = some i := by
    rw [List.idxOf?, h]
  rw [this]

/-- `removeRepeated` takes the byte out of the list, and moves the index into what is left. -/
theorem removeRepeated_prefixes (c : Context) (value : Byte) :
    (removeRepeated c value).prefixes = c.prefixes.erase value := by
  unfold removeRepeated
  cases h : c.prefixes.findIdx? (· == value) with
  | none =>
    have hnot : value ∉ c.prefixes := by
      intro hm
      have := List.findIdx?_eq_none_iff.1 h value hm
      simp at this
    rw [List.erase_of_not_mem hnot]
  | some i =>
    obtain ⟨hlt, he⟩ := findIdx?_erase h
    exact (shiftDown_eq hlt).trans he

theorem dedup_concat (l : List Byte) (value : Byte) :
    (l ++ [value]).dedup = l.dedup.erase value ++ [value] := by
  induction l with
  | nil => rfl
  | cons a l ih =>
    rw [List.cons_append]
    by_cases hal : a ∈ l
    · rw [List.dedup_cons_of_mem (List.mem_append_left _ hal), List.dedup_cons_of_mem hal, ih]
    · by_cases hav : a = value
      · subst hav
        rw [List.dedup_cons_of_mem (by simp), List.dedup_cons_of_notMem hal, ih,
          List.erase_cons_head, List.erase_of_not_mem (by rwa [List.mem_dedup])]
      · rw [List.dedup_cons_of_notMem (by simp [hal, hav]), List.dedup_cons_of_notMem hal, ih,
          List.erase_cons_tail (by simpa using hav)]
        rfl

/-- The context without its prefix list. -/
def Context.bare (c : Context) : Context := { c with prefixes := [], lastPrefixBeforeRex := none }

/-- The list holds the prefixes `l`, the last occurrence of each, and the last one is
the last before REX. -/
structure Listed (c : Context) (l : List Byte) : Prop where
  prefixes : c.prefixes = l.dedup
  last : c.lastPrefixBeforeRex = if l = [] then none else some (l.dedup.length - 1)

/-- The bytes of `Di_ProcessCustomPrefix`. -/
def customPrefixes : List Byte :=
  [0xF3, 0xF2, 0xF0, 0x2E, 0x36, 0x3E, 0x26, 0x64, 0x65, 0x66, 0x67]

theorem mem_customPrefixes {value : Byte} (h : isCustomPrefix value = true) :
    value ∈ customPrefixes := by
  revert value
  decide

theorem not_isCustomPrefix_of_isRex {value : Byte} (h : isRex value = true) :
    isCustomPrefix value = false := by
  revert value
  decide

/-- There is room for every prefix. -/
theorem length_dedup_le {l : List Byte} (h : ∀ value ∈ l, isCustomPrefix value = true) :
    l.dedup.length ≤ 11 := by
  have hsub : l.dedup ⊆ customPrefixes :=
    fun value hv => mem_customPrefixes (h value (List.mem_dedup.1 hv))
  exact (List.subperm_of_subset (List.nodup_dedup l) hsub).length_le

section Insert

variable {c : Context} {l : List Byte} {value : Byte}

theorem removeRepeated_bare (c : Context) (value : Byte) :
    (removeRepeated c value).bare = c.bare := by
  unfold removeRepeated
  split <;> rfl

theorem insertPrefix_amd64Mode {d : Context} {rex : Bool} (h : insertPrefix c value rex = .ok d) :
    d.amd64Mode = c.amd64Mode := by
  unfold insertPrefix at h
  split at h
  · cases h
  · have hbare : (removeRepeated c value).bare.amd64Mode = c.bare.amd64Mode := by
      rw [removeRepeated_bare]
    cases h
    exact hbare

theorem insertPrefix_custom (value : Byte) (hc : Listed c l)
    (hl : ∀ v ∈ l, isCustomPrefix v = true) :
    ∃ d, insertPrefix c value false = .ok d ∧ Listed d (l ++ [value]) ∧ d.bare = c.bare := by
  have hroom := length_dedup_le hl
  have hlen : ¬ c.prefixes.length ≥ maxPrefixesCount := by
    rw [hc.prefixes, maxPrefixesCount]
    omega
  refine ⟨_, by rw [insertPrefix, if_neg hlen], ⟨?_, ?_⟩, ?_⟩
  · rw [removeRepeated_prefixes, hc.prefixes, dedup_concat]
  · rw [removeRepeated_prefixes, hc.prefixes, dedup_concat]
    simp
  · exact (removeRepeated_bare c value).symm ▸ rfl

/-- REX is not among the prefixes before it, so it goes behind them and moves nothing. -/
theorem insertPrefix_rex (hc : Listed c l) (hl : ∀ v ∈ l, isCustomPrefix v = true)
    (hrex : isRex value = true) :
    insertPrefix c value true = .ok { c with prefixes := c.prefixes ++ [value] } := by
  have hroom := length_dedup_le hl
  have hlen : ¬ c.prefixes.length ≥ maxPrefixesCount := by
    rw [hc.prefixes, maxPrefixesCount]
    omega
  have hnot : c.prefixes.findIdx? (· == value) = none := by
    rw [List.findIdx?_eq_none_iff]
    intro v hv
    rw [hc.prefixes, List.mem_dedup] at hv
    rw [beq_eq_false_iff_ne]
    rintro rfl
    have := not_isCustomPrefix_of_isRex hrex
    rw [hl v hv] at this
    cases this
  rw [insertPrefix, if_neg hlen, removeRepeated, hnot]
  rfl

end Insert

end Diana.Decoder
