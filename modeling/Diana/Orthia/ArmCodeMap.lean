import Diana.Lib.ChangePoints
import Diana.Orthia.Basic
import Mathlib.Data.List.Sort

/-!
# The code map of an AArch32 module

`CDianaModule::QueryArmCodeMap` writes the kinds of the bytes that an analysis found, A32 code, T32
code or data, as the offsets where the kind changes. Behind the last mark of some data the kind
returns to that of the module.

* `kindAt_codeMapLoop`: the changes give every instruction and data mark its kind;
* `EndsInside`: no data ends at the end of the module, so no change is recorded there.
-/

namespace Diana.Orthia.ArmCode

open Diana.Lib

/-- `DIANA_ARCH_*` -/
inductive DianaArch where
  | x86
  | aarch64
  | arm32
  | thumb
  deriving DecidableEq, Repr

inductive ArmCodeKind where
  | a32
  | t32
  /-- words: literals, tables of addresses -/
  | data
  /-- halfwords: a `tbh` table -/
  | data16
  /-- bytes: a `tbb` table -/
  | data8
  deriving DecidableEq, Repr

structure ArmCodeChange where
  /-- in the module -/
  offset : Nat
  kind : ArmCodeKind
  deriving DecidableEq, Repr

def getArmCodeKindName : ArmCodeKind → String
  | .t32 => "t32"
  | .data => "data"
  | .data16 => "data16"
  | .data8 => "data8"
  | .a32 => "a32"

def isArmCodeKindData (kind : ArmCodeKind) : Bool := kind = .data ∨ kind = .data16 ∨ kind = .data8

def findArmCodeKind (name : String) : Option ArmCodeKind :=
  [ArmCodeKind.a32, .t32, .data, .data16, .data8].find? fun kind => name = getArmCodeKindName kind

def getArmCodeKind (dianaArch : DianaArch) :
    ArmCodeKind := if dianaArch = .thumb then .t32 else .a32

def isDianaArchArm32 (dianaArch : DianaArch) : Bool := dianaArch = .arm32 ∨ dianaArch = .thumb

@[simp] theorem findArmCodeKind_name (kind : ArmCodeKind) :
    findArmCodeKind (getArmCodeKindName kind) = some kind := by
  cases kind <;> decide

/-! ## The analysis result -/

/-- An entry of `m_pInstructionsVec`, with the flags that the map is made of. -/
structure ArmInstruction where
  offset : Nat
  /-- `DI_INSTRUCTION_EXTERNAL` -/
  external : Bool
  /-- `DI_INSTRUCTION_INVALID` -/
  invalid : Bool
  /-- `DI_INSTRUCTION_DATA` -/
  data : Bool
  /-- `DI_INSTRUCTION_DATA_BYTES` -/
  dataBytes : Bool
  /-- `DI_INSTRUCTION_DATA_HALFWORDS` -/
  dataHalfwords : Bool
  /-- `DI_INSTRUCTION_THUMB` -/
  thumb : Bool
  deriving DecidableEq

/-- The entry of the map that an instruction gives: code, or data that the analyzer marked. -/
def ArmInstruction.entry (i : ArmInstruction) : Option ArmCodeChange :=
  if i.external then none
  else if i.invalid then
    if i.data then
      some ⟨i.offset, if i.dataBytes then .data8 else if i.dataHalfwords then .data16 else .data⟩
    else none
  else some ⟨i.offset, if i.thumb then .t32 else .a32⟩

/-- `std::sort` by offset -/
def sortEntries (entries : List ArmCodeChange) : List ArmCodeChange :=
  entries.insertionSort fun a b => a.offset ≤ b.offset

/-- The entry is the last mark of some data. -/
def endsData (e : ArmCodeChange) (rest : List ArmCodeChange) (last : Nat) : Bool :=
  isArmCodeKindData e.kind && match rest with
    | [] => true
    | next :: _ => next.offset > last

/-- The loop over the entries, with the kind at hand. -/
def codeMapLoop (moduleKind : ArmCodeKind) : ArmCodeKind → List ArmCodeChange → List ArmCodeChange
  | _, [] => []
  | current, e :: rest =>
    let changes := if e.kind ≠ current then [e] else []
    -- data is marked every 2 bytes: it ends where the marks do
    let last := add64 e.offset 2
    if endsData e rest last then
      changes ++ ⟨last, moduleKind⟩ :: codeMapLoop moduleKind moduleKind rest
    else changes ++ codeMapLoop moduleKind e.kind rest

/-- The instructions and data marks of an analysis result, in the order of their offsets. -/
def armEntries (instructions : List ArmInstruction) : List ArmCodeChange :=
  sortEntries (instructions.filterMap ArmInstruction.entry)

/-- `QueryArmCodeMap` -/
def queryArmCodeMap (dianaArch : DianaArch) (instructions : List ArmInstruction) :
    List ArmCodeChange :=
  if isDianaArchArm32 dianaArch then
    codeMapLoop (getArmCodeKind dianaArch) (getArmCodeKind dianaArch) (armEntries instructions)
  else []

/-- The kind that some changes give an offset. -/
def kindAt (first : ArmCodeKind) (changes : List ArmCodeChange) (offset : Nat) : ArmCodeKind :=
  valueAt ArmCodeChange.offset ArmCodeChange.kind first changes offset

theorem kindAt_cons_of_le {c : ArmCodeChange} {first : ArmCodeKind} {changes : List ArmCodeChange}
    {offset : Nat} (h : c.offset ≤ offset) :
    kindAt first (c :: changes) offset = kindAt c.kind changes offset := valueAt_cons_of_le h

/-! ## What the changes say -/

abbrev Ascending (l : List ArmCodeChange) : Prop := Increasing ArmCodeChange.offset l

/-- Behind data there is room for the change back, below `size`. -/
def EndsInside (size : Nat) : List ArmCodeChange → Prop
  | [] => True
  | e :: rest =>
    (endsData e rest (add64 e.offset 2) = true → e.offset + 2 < size) ∧ EndsInside size rest

/-- Entries that leave two bytes above them. -/
theorem endsInside_of_lt {size : Nat} {entries : List ArmCodeChange}
    (h : ∀ e ∈ entries, e.offset + 2 < size) : EndsInside size entries := by
  induction entries with
  | nil => trivial
  | cons e rest ih =>
    exact ⟨fun _ => h e List.mem_cons_self, ih fun x hx => h x (List.mem_cons_of_mem _ hx)⟩

instance decidableEndsInside (size : Nat) :
    (entries : List ArmCodeChange) → Decidable (EndsInside size entries)
  | [] => isTrue trivial
  | _ :: rest =>
    have := decidableEndsInside size rest
    inferInstanceAs (Decidable (_ ∧ _))

section

variable {moduleKind current : ArmCodeKind} {entries : List ArmCodeChange} {e : ArmCodeChange}
  {size : Nat}

/-- The changes of one round of the loop: where the kind differs, and where data ends. -/
theorem codeMapLoop_cons (moduleKind current : ArmCodeKind) (e : ArmCodeChange)
    (rest : List ArmCodeChange) : codeMapLoop moduleKind current (e :: rest) =
      (if e.kind ≠ current then [e] else []) ++
        if endsData e rest (add64 e.offset 2) then
          ⟨add64 e.offset 2, moduleKind⟩ :: codeMapLoop moduleKind moduleKind rest
        else codeMapLoop moduleKind e.kind rest := by
  rw [codeMapLoop]
  split <;> rfl

/-- The changes lie at entries or right behind data, below the size. -/
theorem offset_lt_of_mem_codeMapLoop (hin : ∀ x ∈ entries, x.offset < size)
    (hends : EndsInside size entries) (hsize : size ≤ 2 ^ 64) {c : ArmCodeChange}
    (hc : c ∈ codeMapLoop moduleKind current entries) : c.offset < size := by
  induction entries generalizing current with
  | nil => cases hc
  | cons e rest ih =>
    obtain ⟨hend, hends⟩ := hends
    have hrest := fun x hx => hin x (List.mem_cons_of_mem _ hx)
    rw [codeMapLoop_cons, List.mem_append] at hc
    rcases hc with hc | hc
    · split at hc
      · rw [List.mem_singleton.1 hc]
        exact hin e List.mem_cons_self
      · cases hc
    · split at hc
      · rename_i hlast
        rcases List.mem_cons.1 hc with rfl | hc
        · have := hend hlast
          show add64 e.offset 2 < size
          rwa [add64_of_lt (by omega)]
        · exact ih hrest hends hc
      · exact ih hrest hends hc

/-- A change has the kind of the module, or lies at an entry. -/
theorem mem_codeMapLoop {c : ArmCodeChange} (hc : c ∈ codeMapLoop moduleKind current entries) :
    c ∈ entries ∨ c.kind = moduleKind := by
  induction entries generalizing current with
  | nil => cases hc
  | cons e rest ih =>
    rw [codeMapLoop_cons, List.mem_append] at hc
    rcases hc with hc | hc
    · split at hc
      · exact Or.inl (List.mem_singleton.1 hc ▸ List.mem_cons_self)
      · cases hc
    · split at hc
      · rcases List.mem_cons.1 hc with rfl | hc
        · exact Or.inr rfl
        · exact (ih hc).imp_left (List.mem_cons_of_mem _)
      · exact (ih hc).imp_left (List.mem_cons_of_mem _)

/-- Behind an entry the changes lie above it, and above the end of data. -/
theorem lt_offset_of_mem_codeMapLoop {x : Nat} (hx : ∀ e ∈ entries, x < e.offset)
    (hends : EndsInside size entries) (hsize : size ≤ 2 ^ 64) {c : ArmCodeChange}
    (hc : c ∈ codeMapLoop moduleKind current entries) : x < c.offset := by
  induction entries generalizing current with
  | nil => cases hc
  | cons e rest ih =>
    obtain ⟨hend, hends⟩ := hends
    have he := hx e List.mem_cons_self
    have hrest := fun y hy => hx y (List.mem_cons_of_mem _ hy)
    rw [codeMapLoop_cons, List.mem_append] at hc
    rcases hc with hc | hc
    · split at hc
      · rw [List.mem_singleton.1 hc]
        exact he
      · cases hc
    · split at hc
      · rename_i hlast
        rcases List.mem_cons.1 hc with rfl | hc
        · have := hend hlast
          show x < add64 e.offset 2
          rw [add64_of_lt (by omega)]
          omega
        · exact ih hrest hends hc
      · exact ih hrest hends hc

/-- Where data ends, the next entry lies above the end. -/
theorem lt_of_endsData {rest : List ArmCodeChange} {last : Nat} (hr : Ascending rest)
    (h : endsData e rest last = true) : ∀ x ∈ rest, last < x.offset := by
  cases rest with
  | nil => exact fun x hx => absurd hx List.not_mem_nil
  | cons next rest =>
    have hnext : last < next.offset := by
      unfold endsData at h
      simpa using (Bool.and_eq_true_iff.1 h).2
    intro x hx
    rcases List.mem_cons.1 hx with rfl | hx
    · exact hnext
    · exact Nat.lt_trans hnext ((List.pairwise_cons.1 hr).1 x hx)

theorem ascending_codeMapLoop (he : Ascending entries) (hends : EndsInside size entries)
    (hsize : size ≤ 2 ^ 64) : Ascending (codeMapLoop moduleKind current entries) := by
  induction entries generalizing current with
  | nil => exact List.Pairwise.nil
  | cons e rest ih =>
    obtain ⟨hlt, hrest⟩ := List.pairwise_cons.1 he
    obtain ⟨hend, hends⟩ := hends
    rw [codeMapLoop_cons]
    -- the changes behind those of this entry, all above it
    have hbehind : Ascending (if endsData e rest (add64 e.offset 2) then
          ⟨add64 e.offset 2, moduleKind⟩ :: codeMapLoop moduleKind moduleKind rest
        else codeMapLoop moduleKind e.kind rest) ∧
        ∀ c ∈ (if endsData e rest (add64 e.offset 2) then
            ⟨add64 e.offset 2, moduleKind⟩ :: codeMapLoop moduleKind moduleKind rest
          else codeMapLoop moduleKind e.kind rest), e.offset < c.offset := by
      split
      · rename_i hlast
        have habove := lt_of_endsData hrest hlast
        have hroom := hend hlast
        rw [add64_of_lt (by omega)] at habove ⊢
        refine ⟨List.pairwise_cons.2 ⟨fun c hc => ?_, ih hrest hends⟩, fun c hc => ?_⟩
        · exact lt_offset_of_mem_codeMapLoop habove hends hsize hc
        · rcases List.mem_cons.1 hc with rfl | hc
          · exact Nat.lt_add_of_pos_right (by decide)
          · exact lt_offset_of_mem_codeMapLoop hlt hends hsize hc
      · exact ⟨ih hrest hends, fun c hc => lt_offset_of_mem_codeMapLoop hlt hends hsize hc⟩
    split
    · exact List.pairwise_cons.2 ⟨hbehind.2, hbehind.1⟩
    · exact hbehind.1

/-- Every entry finds its kind, by induction on the entries: the changes of this entry stand before
those of the rest, and those of the rest lie above it. -/
theorem kindAt_codeMapLoop (he : Ascending entries) (hends : EndsInside size entries)
    (hsize : size ≤ 2 ^ 64) {x : ArmCodeChange} (hx : x ∈ entries) :
    kindAt current (codeMapLoop moduleKind current entries) x.offset = x.kind := by
  induction entries generalizing current with
  | nil => cases hx
  | cons e rest ih =>
    obtain ⟨hlt, hrest⟩ := List.pairwise_cons.1 he
    obtain ⟨hend, hends⟩ := hends
    -- the change at the entry, if any, sets its kind
    have hhere : ∀ (cs : List ArmCodeChange) (y : Nat), e.offset ≤ y →
        kindAt current ((if e.kind ≠ current then [e] else []) ++ cs) y = kindAt e.kind cs y := by
      intro cs y hy
      by_cases hkind : e.kind = current
      · rw [if_neg (not_not_intro hkind), List.nil_append, hkind]
      · rw [if_pos hkind]
        exact kindAt_cons_of_le hy
    have hle : e.offset ≤ x.offset := by
      rcases List.mem_cons.1 hx with rfl | hx
      · exact Nat.le_refl _
      · exact Nat.le_of_lt (hlt x hx)
    rw [codeMapLoop_cons, hhere _ _ hle]
    rcases List.mem_cons.1 hx with rfl | hx
    · refine valueAt_of_lt fun c hc => ?_
      split at hc
      · rename_i hlast
        have hroom := hend hlast
        rcases List.mem_cons.1 hc with rfl | hc
        · show x.offset < add64 x.offset 2
          rw [add64_of_lt (by omega)]
          omega
        · exact lt_offset_of_mem_codeMapLoop hlt hends hsize hc
      · exact lt_offset_of_mem_codeMapLoop hlt hends hsize hc
    · split
      · rename_i hlast
        have habove := lt_of_endsData hrest hlast x hx
        rw [@kindAt_cons_of_le ⟨add64 e.offset 2, moduleKind⟩ _ _ _ (Nat.le_of_lt habove)]
        exact ih hrest hends hx
      · exact ih hrest hends hx

end

theorem sortEntries_perm (entries : List ArmCodeChange) : (sortEntries entries).Perm entries :=
  List.perm_insertionSort _ _

/-- Entries at distinct offsets are sorted strictly. -/
theorem ascending_sortEntries {entries : List ArmCodeChange}
    (h : (entries.map ArmCodeChange.offset).Nodup) : Ascending (sortEntries entries) := by
  have hle : (sortEntries entries).Pairwise fun a b => a.offset ≤ b.offset := by
    have : Std.Total fun a b : ArmCodeChange => a.offset ≤ b.offset := ⟨fun a b => Nat.le_total _ _⟩
    have : IsTrans ArmCodeChange fun a b => a.offset ≤ b.offset := ⟨fun a b c => Nat.le_trans⟩
    exact List.pairwise_insertionSort _ _
  have hne : (sortEntries entries).Pairwise fun a b => a.offset ≠ b.offset := by
    have := ((sortEntries_perm entries).map ArmCodeChange.offset).nodup_iff.2 h
    exact List.pairwise_map.1 this
  exact hle.imp₂ (fun a b h h' => Nat.lt_of_le_of_ne h h') hne

end Diana.Orthia.ArmCode
