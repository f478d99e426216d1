import Diana.Lib.OrdMap
import Diana.Lib.PartialBytes
import Diana.Orthia.Basic

/-!
# Modified pages over a reader

`CMemoryStorageOfModifiedData`: a map of pages in front of a reader. `read` puts together modified
pages and what the reader has between them; `write` copies a page from the reader before it changes
it.

Addresses and sizes are natural numbers: the calls do not wrap, and a page map has no page whose
start is not an address.
-/

namespace Diana.Orthia

open Diana.Lib

/-- `IMemoryReader`: the bytes that can be read; a request is answered up to the first byte that
cannot. -/
structure Reader where
  byte : Nat → Option Byte
  byte_eq_none : ∀ a, 2 ^ 64 ≤ a → byte a = none

def Reader.read (R : Reader) (off n : Nat) : List Byte := readFrom R.byte off n

/-- A page size the constructor accepts. -/
structure PageSize where
  bytes : Nat
  le : 0x10 ≤ bytes
  mod : bytes % 0x10 = 0
  lt : bytes < 2 ^ 31

/-- `CMemoryStorageOfModifiedData`. Every page starts at a multiple of the page size and is
whole. -/
structure Storage (ps : PageSize) where
  pages : OrdMap Nat (List Byte)
  page : ∀ k d, pages.find k = some d → ps.bytes ∣ k ∧ d.length = ps.bytes
  cacheReads : Bool

namespace Storage

variable {ps : PageSize}

def empty (ps : PageSize) (cacheReads : Bool) : Storage ps :=
  { pages := OrdMap.empty
    page := fun _ _ h => nomatch h
    cacheReads }

end Storage

/-- `QueryPageStartAddress` -/
def PageSize.start (ps : PageSize) (off : Nat) : Nat := off - off % ps.bytes

/-! ## Reading -/

/-- The loop of `Read` from the page at the iterator on, `need` bytes from `off` on still
missing. -/
def readPages (R : Reader) (ps : Nat) : List (Nat × List Byte) → (off need : Nat) →
    Except Failure (List Byte)
  | [], _, _ => .ok []
  | (k, d) :: rest, off, need =>
    if off < k ∨ ps ≤ off - k then .error .internalError
    else
      let chunk := (d.drop (off - k)).take need
      let here := ps - (off - k)
      if need ≤ here then .ok chunk
      else
        let range :=
          match rest with
          | [] => need - here
          | (k', _) :: _ => k' - ps - k
        if range = 0 then (chunk ++ ·) <$> readPages R ps rest (off + here) (need - here)
        else if maxSize < range then .error .lengthError
        else
          let requested := min range (need - here)
          let bs := R.read (off + here) requested
          if bs.length = need - here ∨ bs.length < requested then .ok (chunk ++ bs)
          else
            (chunk ++ bs ++ ·) <$>
              readPages R ps rest (off + here + bs.length) (need - here - bs.length)

/-- `Read` from its search for the first page on; `it` is the iterator. -/
def readFromIterator (R : Reader) (ps : Nat) (it : List (Nat × List Byte)) (off n : Nat) :
    Except Failure (List Byte) :=
  match it with
  | [] => .ok (R.read off n)
  | (k, _) :: _ =>
    if off < k then
      let toRead := min (k - off) n
      let bs := R.read off toRead
      if bs.length = n ∨ bs.length < toRead then .ok bs
      else (bs ++ ·) <$> readPages R ps it (off + bs.length) (n - bs.length)
    else readPages R ps it off n

/-- The pages of `count` pages of bytes, entered into a page map. -/
def addPages (ps : Nat) : (count addr : Nat) → List Byte → OrdMap Nat (List Byte) →
    OrdMap Nat (List Byte)
  | 0, _, _, m => m
  | count + 1, addr, bs, m => addPages ps count (addr + ps) (bs.drop ps) (m.set addr (bs.take ps))

theorem addPages_page {ps count addr : Nat} {bs : List Byte} {m : OrdMap Nat (List Byte)}
    (hm : ∀ k d, m.find k = some d → ps ∣ k ∧ d.length = ps) (ha : ps ∣ addr)
    (hbs : bs.length = count * ps) {k : Nat} {d : List Byte}
    (h : (addPages ps count addr bs m).find k = some d) : ps ∣ k ∧ d.length = ps := by
  induction count generalizing addr bs m with
  | zero => exact hm k d h
  | succ count ih =>
    have hl : ps ≤ bs.length := by
      rw [hbs, Nat.succ_mul]
      exact Nat.le_add_left _ _
    refine ih (m := m.set addr (bs.take ps)) ?_ (Nat.dvd_add ha (Nat.dvd_refl ps)) ?_ h
    · intro j d hj
      by_cases hja : j = addr
      · subst hja
        rw [OrdMap.find_set_self] at hj
        cases hj
        exact ⟨ha, by rw [List.length_take]; omega⟩
      · rw [OrdMap.find_set_of_ne _ hja] at hj
        exact hm j d hj
    · rw [List.length_drop, hbs, Nat.succ_mul, Nat.add_sub_cancel]

/-- A size rounded up to pages, as `Read` rounds it before it caches. -/
def PageSize.roundUp (ps : PageSize) (n : Nat) : Nat :=
  (if ps.start n = n then n else ps.start n + ps.bytes) % 2 ^ 64

namespace Storage

variable {ps : PageSize} (R : Reader) (s : Storage ps)

/-- The pages `Read` caches where no modified page lies at or behind the range. -/
def cached (first x : Nat) : Storage ps :=
  if h : (R.read first x).length = x ∧ ps.bytes ∣ x ∧ ps.bytes ∣ first then
    { s with
      pages := addPages ps.bytes (x / ps.bytes) first (R.read first x) s.pages
      page := fun _ _ => addPages_page s.page h.2.2 (by rw [h.1, Nat.div_mul_cancel h.2.1]) }
  else s

/-- `Read`: the bytes read, or what was thrown, and the storage with the pages it cached. -/
def read (off n : Nat) : Except Failure (List Byte) × Storage ps :=
  if n = 0 then (.ok [], s)
  else
    let first := ps.start off
    let x := ps.roundUp n
    if s.pages.lowerBound first = [] ∧ s.cacheReads ∧ maxSize < x then (.error .lengthError, s)
    else
      let s :=
        if s.pages.lowerBound first = [] ∧ s.cacheReads then s.cached R first x else s
      let it := (s.pages.lowerBound first).dropWhile fun e =>
        ¬ (off < e.1 ∨ off - e.1 < ps.bytes)
      (readFromIterator R ps.bytes it off n, s)

end Storage

/-! ## Writing -/

/-- The bytes of a page with `bs` written at an offset. -/
def overwrite (d : List Byte) (i : Nat) (bs : List Byte) : List Byte :=
  d.take i ++ bs ++ d.drop (i + bs.length)

theorem length_overwrite {d : List Byte} {i : Nat} {bs : List Byte} (h : i + bs.length ≤ d.length) :
    (overwrite d i bs).length = d.length := by
  unfold overwrite
  rw [List.length_append, List.length_append, List.length_take, List.length_drop]
  omega

namespace Storage

variable {ps : PageSize} (R : Reader) (s : Storage ps)

/-- The storage with the page at `k` set. -/
def setPage (k : Nat) (d : List Byte) (hk : ps.bytes ∣ k) (hd : d.length = ps.bytes) : Storage ps :=
  { s with
    pages := s.pages.set k d
    page := by
      intro j e hj
      by_cases hjk : j = k
      · subst hjk
        rw [OrdMap.find_set_self] at hj
        cases hj
        exact ⟨hk, hd⟩
      · rw [OrdMap.find_set_of_ne _ hjk] at hj
        exact s.page j e hj }

/-- A page as the reader has it, zeros where it has nothing. -/
def newPage (ps : PageSize) (R : Reader) (k : Nat) : List Byte :=
  R.read k ps.bytes ++ List.replicate (ps.bytes - (R.read k ps.bytes).length) 0

theorem length_newPage (k : Nat) : (newPage ps R k).length = ps.bytes := by
  have := length_readFrom_le R.byte k ps.bytes
  unfold newPage Reader.read
  rw [List.length_append, List.length_replicate]
  omega

/-- The page to write to: the one there is or, where the reader has it whole or `allocate` is set, a
new one. -/
def queryPage (allocate : Bool) (k : Nat) : Option (List Byte) :=
  match s.pages.find k with
  | some d => some d
  | none =>
    if (R.read k ps.bytes).length ≠ ps.bytes ∧ ¬ allocate then none else some (newPage ps R k)

theorem length_queryPage {allocate : Bool} {k : Nat} {d : List Byte}
    (h : s.queryPage R allocate k = some d) : d.length = ps.bytes := by
  unfold queryPage at h
  split at h
  · cases h
    exact (s.page k _ ‹_›).2
  · split_ifs at h
    cases h
    exact length_newPage R k

/-- The loop of `Write` from a page on: the storage and the number of bytes written. `fuel` is at
least the number of bytes, one of which every turn writes. -/
def writeLoop (allocate : Bool) : (fuel page offsetInPage : Nat) → List Byte → Storage ps →
    Storage ps × Nat
  | 0, _, _, _, s => (s, 0)
  | fuel + 1, page, offsetInPage, bs, s =>
    if bs = [] then (s, 0)
    else
      match hq : s.queryPage R allocate page with
      | none => (s, 0)
      | some d =>
        let now := bs.take (ps.bytes - offsetInPage)
        if h : ps.bytes ∣ page ∧ offsetInPage + now.length ≤ ps.bytes then
          let s := s.setPage page (overwrite d offsetInPage now) h.1
            (by rw [length_overwrite (by rw [length_queryPage R s hq]; exact h.2),
              length_queryPage R s hq])
          let r := writeLoop allocate fuel (page + ps.bytes) 0 (bs.drop (ps.bytes - offsetInPage)) s
          (r.1, now.length + r.2)
        else (s, 0)

/-- `Write`: the storage and the number of bytes written. -/
def write (allocate : Bool) (off : Nat) (bs : List Byte) : Storage ps × Nat :=
  writeLoop R allocate bs.length (ps.start off) (off % ps.bytes) bs s

end Storage

end Diana.Orthia
