import Diana.Lib.Patches
import Mathlib.Data.List.Forall2

/-!
# `Diana_Stack`

Items of one size on a chain of blocks. Blocks that have become empty stay on the chain and are
filled again before a new one is allocated. The items are counted in an `int`, and an item is only
looked for where the count is not 0.

* `StackOperation.run`: the operations; `Lifo`: what a list of items answers;
* `Holds s items`: the items in the blocks;
* `lifo_outcomes`: the answers are those of the list as long as the count does not wrap.
-/

namespace Diana.Containers

open Diana.Lib

/-- The bytes of an item. -/
abbrev Item := List (BitVec 8)

/-- `Diana_StackBlock`, with the bytes behind it. -/
structure StackBlock where
  curSizeInBytes : Nat
  data : Nat → BitVec 8

/-- An item more in a block. -/
def StackBlock.append (b : StackBlock) (item : Item) (dataSize : Nat) : StackBlock :=
  ⟨b.curSizeInBytes + dataSize, overlay b.data b.curSizeInBytes item⟩

/-- `Diana_Stack`. The current block is given by its place on the list of blocks. -/
structure DianaStack where
  blockList : List StackBlock
  currentBlock : Option Nat
  minBlockSize : Nat
  count : BitVec 32
  dataSize : Nat

namespace DianaStack

variable (s : DianaStack)

/-- `Diana_Stack_Init` -/
def init (minBlockSize dataSize : Nat) : DianaStack := ⟨[], none, minBlockSize, 0, dataSize⟩

/-- There is room for an item in a block. -/
def HasRoom (b : StackBlock) :
    Prop := (s.dataSize : Int) ≤ (s.minBlockSize : Int) - (b.curSizeInBytes : Int)

instance (b : StackBlock) : Decidable (s.HasRoom b) := inferInstanceAs (Decidable (_ ≤ _))

/-- The loop of `Diana_Stack_Push` along the blocks, the first of them the `i`-th: where it ends,
and whether with room. -/
def findRoom : List StackBlock → Nat → Nat × Bool
  | [], i => (i, false)
  | [b], i => (i, decide (s.HasRoom b))
  | b :: next :: rest, i => if s.HasRoom b then (i, true) else findRoom (next :: rest) (i + 1)

/-- The rest of `Diana_Stack_Push`, with a new block or without memory for one. -/
def pushBlock (item : Item) : Option (Nat → BitVec 8) → Bool × DianaStack
  | none => (false, s)
  | some fresh =>
    (true, { s with
      blockList := s.blockList ++ [⟨s.dataSize, overlay fresh 0 item⟩]
      currentBlock := some s.blockList.length
      count := s.count + 1 })

/-- `Diana_Stack_Push`: whether it succeeds. `malloc` is the content of the memory
that a new block gets. -/
def push (item : Item) (malloc : Option (Nat → BitVec 8)) : Bool × DianaStack :=
  match s.currentBlock with
  | none => s.pushBlock item malloc
  | some current =>
    match s.findRoom (s.blockList.drop current) current with
    | (i, true) =>
      (true, { s with
        blockList := s.blockList.modify i fun b => b.append item s.dataSize
        currentBlock := some i
        count := s.count + 1 })
    | (i, false) => pushBlock { s with currentBlock := some i } item malloc

def sizeAt (i : Nat) : Nat := (s.blockList[i]?.map StackBlock.curSizeInBytes).getD 0

/-- `Diana_Stack_GetTopPtr`: the block and the offset of the item. -/
def getTopPtr : Option (Nat × Nat) × DianaStack :=
  match s.currentBlock with
  | none => (none, s)
  | some current =>
    if s.count = 0 then (none, s)
    else if s.sizeAt current < s.dataSize then
      match current with
      | 0 => (none, { s with currentBlock := none })
      | prev + 1 => (some (prev, s.sizeAt prev - s.dataSize), { s with currentBlock := some prev })
    else (some (current, s.sizeAt current - s.dataSize), s)

/-- An item less in a block. -/
def shrink (i : Nat) : DianaStack :=
  { s with
    blockList := s.blockList.modify i fun b =>
      { b with curSizeInBytes := b.curSizeInBytes - s.dataSize }
    count := s.count - 1 }

/-- The bytes of an item. -/
def itemAt (i offset : Nat) :
    Item := (s.blockList[i]?.map fun b => window b.data offset s.dataSize).getD []

/-- `Diana_Stack_Pop` -/
def pop : Option Item × DianaStack :=
  match s.getTopPtr with
  | (none, s) => (none, s)
  | (some (i, offset), s) => (some (s.itemAt i offset), s.shrink i)

/-- The loop of `Diana_Stack_Clear`, for at most as many turns. -/
def clearLoop : Nat → DianaStack → DianaStack
  | 0, s => s
  | n + 1, s =>
    match s.getTopPtr with
    | (none, s) => s
    | (some (i, _), s) => clearLoop n (s.shrink i)

/-- `Diana_Stack_Clear`. Every turn counts down. -/
def clear : DianaStack := clearLoop (s.count.toNat + 1) s

end DianaStack

/-! ## Operations -/

inductive StackOperation where
  | push (item : Item) (malloc : Option (Nat → BitVec 8))
  | pop
  | clear

inductive Outcome where
  | pushed
  | outOfMemory
  | popped (item : Item)
  | empty
  | cleared
  deriving DecidableEq, Repr

def StackOperation.run (s : DianaStack) : StackOperation → Outcome × DianaStack
  | .push item malloc =>
    match s.push item malloc with
    | (true, s) => (.pushed, s)
    | (false, s) => (.outOfMemory, s)
  | .pop =>
    match s.pop with
    | (some item, s) => (.popped item, s)
    | (none, s) => (.empty, s)
  | .clear => (.cleared, s.clear)

/-- The outcomes of a sequence of operations. -/
def outcomes (s : DianaStack) : List StackOperation → List Outcome
  | [] => []
  | op :: ops => (op.run s).1 :: outcomes (op.run s).2 ops

/-- What a list of items answers, the last one first. Without memory an item may not be pushed. -/
def Lifo (items : List Item) : List StackOperation → List Outcome → Prop
  | [], [] => True
  | .push item _ :: ops, .pushed :: os => Lifo (item :: items) ops os
  | .push _ none :: ops, .outOfMemory :: os => Lifo items ops os
  | .pop :: ops, .popped item :: os => items.head? = some item ∧ Lifo items.tail ops os
  | .pop :: ops, .empty :: os => items = [] ∧ Lifo items ops os
  | .clear :: ops, .cleared :: os => Lifo [] ops os
  | _, _ => False

/-- Every item that is pushed has the size of the items. -/
def Sized (dataSize : Nat) (ops : List StackOperation) : Prop :=
  ∀ item malloc, .push item malloc ∈ ops → item.length = dataSize

/-- Nothing is pushed at a count of 2^32 - 1. -/
def NeverWraps (s : DianaStack) : List StackOperation → Prop
  | [] => True
  | op :: ops =>
    ((∃ item malloc, op = .push item malloc) → s.count ≠ 0xFFFFFFFF) ∧ NeverWraps (op.run s).2 ops

/-! ## The items in the blocks -/

/-- The items in a block, the first one first. -/
structure BlockHolds (dataSize : Nat) (b : StackBlock) (chunk : List Item) : Prop where
  size : b.curSizeInBytes = chunk.length * dataSize
  items : ∀ j item, chunk[j]? = some item → window b.data (j * dataSize) dataSize = item

/-- The blocks: `full` ones, the current one and `spare` ones. -/
structure InBlocks (s : DianaStack) (full : List StackBlock) (current : StackBlock)
    (spare : List StackBlock) (chunks : List (List Item)) (chunk : List Item) : Prop where
  blockList : s.blockList = full ++ current :: spare
  currentBlock : s.currentBlock = some full.length
  full_holds : List.Forall₂ (BlockHolds s.dataSize) full chunks
  full_room : ∀ b ∈ full, ¬ s.HasRoom b
  holds : BlockHolds s.dataSize current chunk
  spare_empty : ∀ b ∈ spare, b.curSizeInBytes = 0

/-- The items on a stack, the last one first. -/
structure Holds (s : DianaStack) (items : List Item) : Prop where
  fits : s.dataSize ≤ s.minBlockSize
  count : s.count = BitVec.ofNat 32 items.length
  blocks : (s.currentBlock = none ∧ s.blockList = [] ∧ items = []) ∨
    ∃ full current spare chunks chunk, InBlocks s full current spare chunks chunk ∧
      items = (chunks.flatten ++ chunk).reverse

section

variable {d : Nat} {b : StackBlock} {chunk : List Item} {item : Item} {s s' : DianaStack}
  {items : List Item} {malloc : Option (Nat → BitVec 8)}

theorem blockHolds_nil (h : b.curSizeInBytes = 0) : BlockHolds d b [] where
  size := by rw [h, List.length_nil, Nat.zero_mul]
  items _ _ hj := nomatch hj

theorem BlockHolds.append (h : BlockHolds d b chunk) (hitem : item.length = d) :
    BlockHolds d (b.append item d) (chunk ++ [item]) where
  size := by rw [StackBlock.append, h.size, List.length_append, List.length_singleton, Nat.succ_mul]
  items j x hj := by
    change window (overlay b.data b.curSizeInBytes item) (j * d) d = x
    rw [h.size]
    rcases Nat.lt_or_ge j chunk.length with hlt | hge
    · rw [List.getElem?_append_left hlt] at hj
      have hle : j * d + d ≤ chunk.length * d := by
        rw [← Nat.succ_mul]
        exact Nat.mul_le_mul_right d hlt
      rw [window_overlay_of_disjoint (.inl hle)]
      exact h.items j x hj
    · rw [List.getElem?_append_right hge, List.getElem?_singleton] at hj
      split at hj
      · next hzero =>
        obtain rfl : j = chunk.length := by omega
        obtain rfl := Option.some.inj hj
        subst hitem
        exact window_overlay_same _ _ _
      · cases hj

/-- The last item is taken from a block. -/
theorem BlockHolds.shrink (h : BlockHolds d b (chunk ++ [item])) :
    BlockHolds d { b with curSizeInBytes := b.curSizeInBytes - d } chunk where
  size := by
    rw [h.size, List.length_append, List.length_singleton, Nat.succ_mul, Nat.add_sub_cancel]
  items j x hj :=
    h.items j x (by rw [List.getElem?_append_left (List.getElem?_eq_some_iff.1 hj).1, hj])

theorem modify_length (l r : List StackBlock) (b : StackBlock) (f : StackBlock → StackBlock) :
    (l ++ b :: r).modify l.length f = l ++ f b :: r := by
  induction l with
  | nil => rfl
  | cons x l ih => rw [List.cons_append, List.length_cons, List.modify_succ_cons, ih]; rfl

theorem holds_init {minBlockSize dataSize : Nat} (h : dataSize ≤ minBlockSize) :
    Holds (DianaStack.init minBlockSize dataSize) [] := ⟨h, rfl, .inl ⟨rfl, rfl, rfl⟩⟩

theorem hasRoom_empty (hfits : s.dataSize ≤ s.minBlockSize) (h : b.curSizeInBytes = 0) :
    s.HasRoom b := by
  unfold DianaStack.HasRoom
  omega

/-- Where the loop along the blocks ends: in the current block, or in a spare one behind it. -/
theorem findRoom_eq {current : StackBlock} {spare : List StackBlock} (i : Nat)
    (hfits : s.dataSize ≤ s.minBlockSize) (hspare : ∀ b ∈ spare, b.curSizeInBytes = 0) :
    s.findRoom (current :: spare) i =
      if s.HasRoom current then (i, true)
      else (i + (if spare = [] then 0 else 1), decide (spare ≠ [])) := by
  cases spare with
  | nil =>
    unfold DianaStack.findRoom
    split <;> simp_all
  | cons b spare =>
    have hb := hasRoom_empty hfits (hspare b List.mem_cons_self)
    unfold DianaStack.findRoom
    split
    · rfl
    · cases spare with
      | nil => simp [DianaStack.findRoom, hb]
      | cons b' spare => simp [DianaStack.findRoom, hb]

/-- An item more in the current block. -/
theorem InBlocks.append {full spare : List StackBlock} {current : StackBlock}
    {chunks : List (List Item)} (h : InBlocks s full current spare chunks chunk)
    (hcount : s.count = BitVec.ofNat 32 (chunks.flatten ++ chunk).length)
    (hfits : s.dataSize ≤ s.minBlockSize) (hitem : item.length = s.dataSize)
    (hs : s' = { s with
      blockList := full ++ current.append item s.dataSize :: spare
      currentBlock := some full.length
      count := s.count + 1 }) : Holds s' (item :: (chunks.flatten ++ chunk).reverse) := by
  subst hs
  refine ⟨hfits, ?_, .inr ⟨full, current.append item s.dataSize, spare, chunks, chunk ++ [item],
    ?_, by simp⟩⟩
  · rw [List.length_cons, List.length_reverse, BitVec.ofNat_add, ← hcount]
    rfl
  · exact ⟨rfl, rfl, h.full_holds, h.full_room, h.holds.append hitem, h.spare_empty⟩

/-- An item in a new block behind full ones. -/
theorem holds_pushBlock {full : List StackBlock} {chunks : List (List Item)}
    {fresh : Nat → BitVec 8} (hfits : s.dataSize ≤ s.minBlockSize) (hlist : s.blockList = full)
    (hfull : List.Forall₂ (BlockHolds s.dataSize) full chunks) (hroom : ∀ b ∈ full, ¬ s.HasRoom b)
    (hcount : s.count = BitVec.ofNat 32 chunks.flatten.length) (hitem : item.length = s.dataSize) :
    ∃ s', s.pushBlock item (some fresh) = (true, s') ∧ Holds s'
    (item :: chunks.flatten.reverse) := by
  have hnew : BlockHolds s.dataSize ((⟨0, fresh⟩ : StackBlock).append item s.dataSize)
      ([] ++ [item]) :=
    (blockHolds_nil rfl).append hitem
  rw [StackBlock.append, Nat.zero_add] at hnew
  refine ⟨_, rfl, hfits, ?_,
    .inr ⟨full, _, [], chunks, [item], ⟨?_, ?_, hfull, hroom, hnew, by simp⟩, by simp⟩⟩
  · rw [List.length_cons, List.length_reverse, BitVec.ofNat_add, ← hcount]
    rfl
  · rw [hlist]
  · rw [hlist]

/-- A push puts an item on the stack, or there is no memory for a block. -/
theorem holds_push (h : Holds s items) (hitem : item.length = s.dataSize) :
    (∃ s', s.push item malloc = (true, s') ∧ Holds s' (item :: items)) ∨
      malloc = none ∧ ∃ s', s.push item malloc = (false, s') ∧ Holds s' items := by
  obtain ⟨hfits, hcount, ⟨hnone, hnil, rfl⟩ | ⟨full, current, spare, chunks, chunk, hblocks,
      rfl⟩⟩ := id h
  · unfold DianaStack.push
    rw [hnone]
    cases malloc with
    | none => exact .inr ⟨rfl, s, rfl, h⟩
    | some fresh =>
      exact .inl (@holds_pushBlock _ _ _ [] fresh hfits hnil .nil (by simp) hcount hitem)
  · rw [List.length_reverse] at hcount
    have hdrop : s.blockList.drop full.length = current :: spare := by
      rw [hblocks.blockList, List.drop_left]
    have hfound := @findRoom_eq s current spare full.length hfits hblocks.spare_empty
    unfold DianaStack.push
    rw [hblocks.currentBlock]
    dsimp only
    rw [hdrop, hfound]
    by_cases hcurrent : s.HasRoom current
    · left
      rw [if_pos hcurrent]
      refine ⟨_, rfl, hblocks.append hcount hfits hitem ?_⟩
      rw [hblocks.blockList, modify_length]
    · rw [if_neg hcurrent]
      have hfull : List.Forall₂ (BlockHolds s.dataSize) (full ++ [current]) (chunks ++ [chunk]) :=
        List.rel_append hblocks.full_holds (.cons hblocks.holds .nil)
      have hroom : ∀ b ∈ full ++ [current], ¬ s.HasRoom b := by
        intro b hb
        rcases List.mem_append.1 hb with hb | hb
        · exact hblocks.full_room b hb
        · rwa [List.mem_singleton.1 hb]
      have hflatten : (chunks ++ [chunk]).flatten = chunks.flatten ++ chunk := by simp
      cases spare with
      | nil =>
        cases malloc with
        | none =>
          refine .inr ⟨rfl, s, ?_, h⟩
          have hsame : { s with currentBlock := some full.length } = s := by
            rw [← hblocks.currentBlock]
          exact congrArg (Prod.mk false) hsame
        | some fresh =>
          left
          rw [← hflatten] at hcount ⊢
          exact holds_pushBlock (s := { s with currentBlock := some full.length }) hfits
            hblocks.blockList hfull hroom hcount hitem
      | cons b spare =>
        left
        have hshape : s.blockList = (full ++ [current]) ++ b :: spare := by simp [hblocks.blockList]
        have hspare := List.forall_mem_cons.1 hblocks.spare_empty
        have hnext : InBlocks { s with currentBlock := some (full ++ [current]).length }
            (full ++ [current]) b spare (chunks ++ [chunk]) [] :=
          ⟨hshape, rfl, hfull, hroom, blockHolds_nil hspare.1, hspare.2⟩
        have hadd := hnext.append (by rw [List.append_nil, hflatten]; exact hcount) hfits hitem rfl
        rw [List.append_nil, hflatten] at hadd
        have hindex : full.length + (if b :: spare = [] then 0 else 1) =
            (full ++ [current]).length := by simp
        rw [hindex]
        refine ⟨_, rfl, ?_⟩
        rw [hshape, modify_length]
        exact hadd

/-- The last item of the current block is the one on top, and is taken from it. -/
theorem InBlocks.top {full spare : List StackBlock} {current : StackBlock}
    {chunks : List (List Item)} (h : InBlocks s full current spare chunks (chunk ++ [item]))
    (hfits : s.dataSize ≤ s.minBlockSize)
    (hcount : s.count = BitVec.ofNat 32 ((chunks.flatten ++ chunk).length + 1)) :
    s.dataSize ≤ s.sizeAt full.length ∧ s.itemAt full.length
    (s.sizeAt full.length - s.dataSize) = item ∧
      Holds (s.shrink full.length) (chunks.flatten ++ chunk).reverse := by
  have hget : s.blockList[full.length]? = some current := by
    rw [h.blockList, List.getElem?_append_right (Nat.le_refl _), Nat.sub_self]
    rfl
  have hsize : s.sizeAt full.length = (chunk.length + 1) * s.dataSize := by
    rw [DianaStack.sizeAt, hget]
    exact h.holds.size.trans (by rw [List.length_append, List.length_singleton])
  have hoffset : s.sizeAt full.length - s.dataSize = chunk.length * s.dataSize := by
    rw [hsize, Nat.succ_mul, Nat.add_sub_cancel]
  refine ⟨by rw [hsize, Nat.succ_mul]; exact Nat.le_add_left _ _, ?_, hfits, ?_,
    .inr ⟨full, _, spare, chunks, chunk,
      ⟨?_, h.currentBlock, h.full_holds, h.full_room, h.holds.shrink, h.spare_empty⟩, rfl⟩⟩
  · rw [hoffset, DianaStack.itemAt, hget]
    exact h.holds.items chunk.length item (by simp)
  · rw [List.length_reverse]
    change s.count - 1 = _
    rw [hcount, BitVec.ofNat_add]
    exact BitVec.add_sub_cancel _ _
  · change s.blockList.modify full.length _ = _
    rw [h.blockList, modify_length]

/-- Where the count is not 0, the item on top is found, and what is left are the others. -/
theorem holds_getTopPtr (h : Holds s (item :: items)) (hzero : s.count ≠ 0) :
    ∃ t i offset, s.getTopPtr = (some (i, offset), t) ∧ t.itemAt i offset = item ∧ Holds
    (t.shrink i) items := by
  obtain ⟨hfits, hcount, ⟨-, -, hnil⟩ | ⟨full, current, spare, chunks, chunk, hblocks, hitems⟩⟩ := h
  · cases hnil
  have hall : chunks.flatten ++ chunk = items.reverse ++ [item] := by
    rw [← List.reverse_cons, hitems, List.reverse_reverse]
  unfold DianaStack.getTopPtr
  rw [hblocks.currentBlock]
  dsimp only
  rw [if_neg hzero]
  rcases List.eq_nil_or_concat chunk with rfl | ⟨chunk, last, rfl⟩
  · -- the current block is empty: the item is the last one of the full block before it
    have hempty : current.curSizeInBytes = 0 := by
      rw [hblocks.holds.size, List.length_nil, Nat.zero_mul]
    obtain ⟨full, b, rfl⟩ : ∃ full' b, full = full' ++ [b] := by
      rcases List.eq_nil_or_concat full with rfl | ⟨full, b, rfl⟩
      · cases hblocks.full_holds
        simp at hall
      · exact ⟨full, b, List.concat_eq_append⟩
    obtain ⟨chunks, ch, rfl, hfull, hb⟩ : ∃ chunks' ch, chunks = chunks' ++ [ch] ∧
        List.Forall₂ (BlockHolds s.dataSize) full chunks' ∧ BlockHolds s.dataSize b ch := by
      have hrev := List.forall₂_reverse_iff.2 hblocks.full_holds
      rw [List.reverse_append, List.reverse_singleton, List.singleton_append] at hrev
      obtain ⟨ch, chs, hb, hrest, hchs⟩ := List.forall₂_cons_left_iff.1 hrev
      refine ⟨chs.reverse, ch, by rw [← List.reverse_reverse chunks, hchs, List.reverse_cons], ?_,
        hb⟩
      rwa [← List.forall₂_reverse_iff, List.reverse_reverse]
    have hroom := hblocks.full_room b (by simp)
    have hsize := hb.size
    unfold DianaStack.HasRoom at hroom
    rcases List.eq_nil_or_concat ch with rfl | ⟨ch, last, rfl⟩
    · rw [List.length_nil, Nat.zero_mul] at hsize
      omega
    have hpos : 0 < s.dataSize := by
      rcases Nat.eq_zero_or_pos s.dataSize with h0 | hpos
      · rw [h0, Nat.mul_zero] at hsize
        omega
      · exact hpos
    have hcurrent : s.sizeAt (full ++ [b]).length = 0 := by
      rw [DianaStack.sizeAt, hblocks.blockList, List.getElem?_append_right (Nat.le_refl _),
        Nat.sub_self]
      exact hempty
    rw [List.concat_eq_append] at hb hall
    have hprev : InBlocks { s with currentBlock := some full.length } full b
        (current :: spare) chunks (ch ++ [last]) :=
      ⟨by simp [hblocks.blockList], rfl, hfull,
        fun b hb => hblocks.full_room b (List.mem_append_left _ hb), hb,
        List.forall_mem_cons.2 ⟨hempty, hblocks.spare_empty⟩⟩
    rw [List.append_nil, List.flatten_append, List.flatten_singleton, ← List.append_assoc] at hall
    obtain ⟨hrest, hlast⟩ := List.append_inj' hall rfl
    obtain rfl : last = item := by simpa using hlast
    rw [List.length_cons, ← List.length_reverse, ← hrest] at hcount
    obtain ⟨-, hitem, hholds⟩ := hprev.top hfits hcount
    rw [hrest, List.reverse_reverse] at hholds
    rw [if_pos (hcurrent ▸ hpos), List.length_append, List.length_singleton]
    exact ⟨_, full.length, _, rfl, hitem, hholds⟩
  · rw [List.concat_eq_append] at hblocks hall
    rw [← List.append_assoc] at hall
    obtain ⟨hrest, hlast⟩ := List.append_inj' hall rfl
    obtain rfl : last = item := by simpa using hlast
    rw [List.length_cons, ← List.length_reverse, ← hrest] at hcount
    obtain ⟨hle, hitem, hholds⟩ := hblocks.top hfits hcount
    rw [hrest, List.reverse_reverse] at hholds
    rw [if_neg (Nat.not_lt.2 hle)]
    exact ⟨s, full.length, _, rfl, hitem, hholds⟩

/-- With a count of 0 nothing is found. -/
theorem getTopPtr_of_zero (hzero : s.count = 0) : s.getTopPtr = (none, s) := by
  unfold DianaStack.getTopPtr
  split
  · rfl
  · rw [if_pos hzero]

theorem holds_pop (h : Holds s (item :: items)) (hzero : s.count ≠ 0) :
    ∃ t, s.pop = (some item, t) ∧ Holds t items := by
  obtain ⟨t, i, offset, htop, hitem, hholds⟩ := holds_getTopPtr h hzero
  unfold DianaStack.pop
  rw [htop]
  exact ⟨t.shrink i, by rw [← hitem], hholds⟩

/-- A loop with as many turns as there are items takes them all. -/
theorem holds_clearLoop (n : Nat) (h : Holds s items) (hn : items.length < n)
    (hwrap : items.length < 2 ^ 32) : Holds (DianaStack.clearLoop n s) [] := by
  induction n generalizing s items with
  | zero => exact absurd hn (Nat.not_lt_zero _)
  | succ n ih =>
    unfold DianaStack.clearLoop
    cases items with
    | nil =>
      rw [getTopPtr_of_zero h.count]
      exact h
    | cons item items =>
      have hzero : s.count ≠ 0 := by
        rw [h.count]
        intro h0
        have := congrArg BitVec.toNat h0
        rw [BitVec.toNat_ofNat, Nat.mod_eq_of_lt hwrap] at this
        exact absurd this (Nat.succ_ne_zero _)
      obtain ⟨t, i, offset, htop, -, hholds⟩ := holds_getTopPtr h hzero
      rw [htop]
      exact ih hholds (Nat.lt_of_succ_lt_succ hn) (Nat.lt_of_succ_lt hwrap)

end

/-! ## Sequences of operations -/

section Sequences

variable {s : DianaStack} {items : List Item} {ops : List StackOperation}

/-- Looking for the item on top changes the current block only; without an item nothing is found
later on either. -/
theorem getTopPtr_spec (s : DianaStack) :
    s.getTopPtr.2.dataSize = s.dataSize ∧ s.getTopPtr.2.count = s.count ∧
    (s.getTopPtr.1 = none → s.getTopPtr.2.getTopPtr.1 = none) := by
  rcases hcurrent : s.currentBlock with _ | current
  · have htop : s.getTopPtr = (none, s) := by rw [DianaStack.getTopPtr, hcurrent]
    rw [htop]
    exact ⟨rfl, rfl, fun _ => congrArg Prod.fst htop⟩
  · by_cases hzero : s.count = 0
    · rw [getTopPtr_of_zero hzero]
      exact ⟨rfl, rfl, fun _ => congrArg Prod.fst (getTopPtr_of_zero hzero)⟩
    · have htop : s.getTopPtr = if s.sizeAt current < s.dataSize then
          match current with
          | 0 => (none, { s with currentBlock := none })
          | prev + 1 =>
            (some (prev, s.sizeAt prev - s.dataSize), { s with currentBlock := some prev })
        else (some (current, s.sizeAt current - s.dataSize), s) := by
        rw [DianaStack.getTopPtr, hcurrent]
        exact if_neg hzero
      rw [htop]
      split
      · cases current with
        | zero => exact ⟨rfl, rfl, fun _ => rfl⟩
        | succ prev => exact ⟨rfl, rfl, fun h => nomatch h⟩
      · exact ⟨rfl, rfl, fun h => nomatch h⟩

theorem dataSize_clearLoop (n : Nat) (s : DianaStack) :
    (DianaStack.clearLoop n s).dataSize = s.dataSize := by
  induction n generalizing s with
  | zero => rfl
  | succ n ih =>
    have htop := (getTopPtr_spec s).1
    unfold DianaStack.clearLoop
    split
    · next heq => rwa [heq] at htop
    · next heq =>
      rw [heq] at htop
      exact (ih _).trans htop

theorem dataSize_run (s : DianaStack) (op : StackOperation) :
    (op.run s).2.dataSize = s.dataSize := by
  cases op with
  | push item malloc =>
    have hpush : (s.push item malloc).2.dataSize = s.dataSize := by
      unfold DianaStack.push DianaStack.pushBlock
      split
      · split <;> rfl
      · split
        · rfl
        · split <;> rfl
    rcases hrun : s.push item malloc with ⟨_ | _, t⟩ <;> rw [hrun] at hpush
      <;> rw [StackOperation.run, hrun] <;> exact hpush
  | pop =>
    have hpop : s.pop.2.dataSize = s.dataSize := by
      have htop := (getTopPtr_spec s).1
      unfold DianaStack.pop
      split <;> next heq => rwa [heq] at htop
    rcases hrun : s.pop with ⟨_ | _, t⟩ <;> rw [hrun] at hpop <;> rw [StackOperation.run, hrun]
      <;> exact hpop
  | clear => exact dataSize_clearLoop _ s

/-- The outcomes are those of the list of items. -/
theorem lifo_of_holds (h : Holds s items) (hsized : Sized s.dataSize ops)
    (hwraps : NeverWraps s ops) (hlength : items.length < 2 ^ 32) :
    Lifo items ops (outcomes s ops) := by
  induction ops generalizing s items with
  | nil => trivial
  | cons op ops ih =>
    obtain ⟨hwrap, hwraps⟩ := hwraps
    have hsized' : Sized (op.run s).2.dataSize ops := by
      rw [dataSize_run]
      exact fun item malloc hop => hsized item malloc (List.mem_cons_of_mem _ hop)
    have hnat : s.count.toNat = items.length := by
      rw [h.count, BitVec.toNat_ofNat, Nat.mod_eq_of_lt hlength]
    unfold outcomes
    cases op with
    | push item malloc =>
      have hne := hwrap ⟨item, malloc, rfl⟩
      have hlt : items.length + 1 < 2 ^ 32 := by
        have : s.count.toNat ≠ 0xFFFFFFFF := fun he => hne (BitVec.eq_of_toNat_eq he)
        omega
      rcases @holds_push _ _ _ malloc h (hsized item malloc List.mem_cons_self) with
        ⟨t, hpush, hholds⟩ | ⟨rfl, t, hpush, hholds⟩
      · have hrun : (StackOperation.push item malloc).run s = (.pushed, t) := by
          rw [StackOperation.run, hpush]
        rw [hrun] at hsized' hwraps ⊢
        exact ih hholds hsized' hwraps hlt
      · have hrun : (StackOperation.push item none).run s = (.outOfMemory, t) := by
          rw [StackOperation.run, hpush]
        rw [hrun] at hsized' hwraps ⊢
        exact ih hholds hsized' hwraps hlength
    | pop =>
      cases items with
      | nil =>
        have hrun : StackOperation.pop.run s = (.empty, s) := by
          rw [StackOperation.run, DianaStack.pop, getTopPtr_of_zero h.count]
        rw [hrun] at hsized' hwraps ⊢
        exact ⟨rfl, ih h hsized' hwraps hlength⟩
      | cons item items =>
        have hzero : s.count ≠ 0 := by
          intro h0
          rw [h0] at hnat
          cases hnat
        obtain ⟨t, hpop, hholds⟩ := holds_pop h hzero
        have hrun : StackOperation.pop.run s = (.popped item, t) := by rw [StackOperation.run, hpop]
        rw [hrun] at hsized' hwraps ⊢
        exact ⟨rfl, ih hholds hsized' hwraps (Nat.lt_of_succ_lt hlength)⟩
    | clear =>
      exact ih (holds_clearLoop _ h (hnat ▸ Nat.lt_succ_self _) hlength) hsized' hwraps (by simp)

end Sequences

/-- From an empty stack on, with items that fit in a block, every sequence of operations has the
outcomes that the list of items has, as long as the count does not wrap. -/
theorem lifo_outcomes (minBlockSize dataSize : Nat) (hfits : dataSize ≤ minBlockSize)
    (ops : List StackOperation) (hsized : Sized dataSize ops)
    (hwraps : NeverWraps (DianaStack.init minBlockSize dataSize) ops) :
    Lifo [] ops (outcomes (DianaStack.init minBlockSize dataSize) ops) :=
  lifo_of_holds (holds_init hfits) hsized hwraps (by simp)

/-- Two blocks of one item each. -/
theorem lifo_outcomes_two :
    Lifo [] [.push [1] (some fun _ => 0), .push [2] (some fun _ => 0), .pop, .pop, .pop]
    (outcomes (DianaStack.init 1 1) [.push [1] (some fun _ => 0), .push [2] (some fun _ => 0), .pop,
      .pop, .pop]) :=
  lifo_outcomes 1 1 (by decide) [.push [1] (some fun _ => 0), .push [2] (some fun _ => 0),
    .pop, .pop, .pop] (by
      intro item malloc h
      simp only [List.mem_cons, StackOperation.push.injEq, reduceCtorEq, List.not_mem_nil,
        or_false] at h
      obtain ⟨rfl, -⟩ | ⟨rfl, -⟩ := h <;> rfl)
    (by
      refine ⟨fun _ => ?_, fun _ => ?_, ?_, ?_, ?_, trivial⟩
      · decide
      · decide
      all_goals exact fun h => by obtain ⟨_, _, h⟩ := h; cases h)

section

variable {s : DianaStack} {items : List Item} {item : Item}

/-- Many pushes of an item, and what comes after them. -/
theorem lifo_pushes {n : Nat} {ops : List StackOperation} {fresh : Nat → BitVec 8}
    (h : Holds s items) (hitem : item.length = s.dataSize)
    (hlifo : Lifo items (List.replicate n (.push item (some fresh)) ++ ops)
      (outcomes s (List.replicate n (.push item (some fresh)) ++ ops))) :
    ∃ t, Holds t (List.replicate n item ++ items) ∧ Lifo (List.replicate n item ++ items) ops
    (outcomes t ops) := by
  induction n generalizing s items with
  | zero => exact ⟨s, h, hlifo⟩
  | succ n ih =>
    rcases @holds_push _ _ _ (some fresh) h hitem with ⟨t, hpush, hholds⟩ | ⟨hnone, -⟩
    · have hrun : (StackOperation.push item (some fresh)).run s = (.pushed, t) := by
        rw [StackOperation.run, hpush]
      have hsize := dataSize_run s (.push item (some fresh))
      rw [List.replicate_succ, List.cons_append, outcomes] at hlifo
      rw [hrun] at hlifo hsize
      obtain ⟨u, hu, hrest⟩ := ih hholds (hitem.trans hsize.symm) hlifo
      have hshape : List.replicate n item ++ item :: items =
          List.replicate (n + 1) item ++ items := by
        rw [List.replicate_succ', List.append_assoc]
        rfl
      rw [hshape] at hu hrest
      exact ⟨u, hu, hrest⟩
    · cases hnone

/-- Where the count has wrapped to 0, nothing is popped. -/
theorem not_lifo_pushes {n : Nat} (hpos : 0 < n) (hwrap : BitVec.ofNat 32 n = 0)
    (fresh : Nat → BitVec 8) : ¬ Lifo [] (List.replicate n (.push [1] (some fresh)) ++ [.pop])
      (outcomes (DianaStack.init 4096 1) (List.replicate n (.push [1] (some fresh)) ++ [.pop])) :=
  by
  intro hlifo
  obtain ⟨t, ht, hpop⟩ := lifo_pushes (holds_init (by decide)) rfl hlifo
  have hcount := ht.count
  rw [List.append_nil, List.length_replicate, hwrap] at hcount
  have hrun : StackOperation.pop.run t = (.empty, t) := by
    rw [StackOperation.run, DianaStack.pop, getTopPtr_of_zero hcount]
  rw [outcomes, hrun] at hpop
  have hnil := hpop.1
  rw [List.append_nil, List.replicate_eq_nil_iff] at hnil
  omega

end

/-- 2^32 items of one byte: the stack takes itself for empty. -/
theorem not_lifo_outcomes :
    ¬ ∀ minBlockSize dataSize, dataSize ≤ minBlockSize → ∀ ops, Sized dataSize ops →
    Lifo [] ops (outcomes (DianaStack.init minBlockSize dataSize) ops) := by
  intro h
  refine not_lifo_pushes (n := 2 ^ 32) (by decide) (by decide) (fun _ => 0)
    (h 4096 1 (by decide) _ ?_)
  intro item malloc hmem
  rcases List.mem_append.1 hmem with hmem | hmem
  · cases List.eq_of_mem_replicate hmem
    rfl
  · cases List.mem_singleton.1 hmem

end Diana.Containers
