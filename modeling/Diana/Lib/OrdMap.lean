import Mathlib.Algebra.Group.Int.Defs
import Mathlib.Algebra.Group.Nat.Defs
import Mathlib.Data.List.Sort
import Mathlib.Order.Defs.LinearOrder
import Mathlib.Order.Lattice

/-!
# Ordered maps

A finite map over ordered keys as the list of its entries, keys increasing: the model of `std::map`
with its iterators. An iterator is the list of the entries from it to the end.
-/

namespace Diana.Lib

/-- A finite map, its entries in the order of their keys. -/
structure OrdMap (α β : Type) [LinearOrder α] where
  entries : List (α × β)
  sorted : entries.Pairwise fun a b => a.1 < b.1

namespace OrdMap

variable {α β : Type} [LinearOrder α]

def empty : OrdMap α β := ⟨[], .nil⟩

/-! ## Entry lists -/

/-- The value at a key. -/
def lookup (k : α) : List (α × β) → Option β
  | [] => none
  | (k', v) :: l => if k' = k then some v else lookup k l

/-- The entries with the value at a key set. -/
def insertEntry (k : α) (v : β) : List (α × β) → List (α × β)
  | [] => [(k, v)]
  | (k', v') :: l =>
    if k < k' then (k, v) :: (k', v') :: l
    else if k = k' then (k, v) :: l
    else (k', v') :: insertEntry k v l

theorem mem_insertEntry {k : α} {v : β} {l : List (α × β)} {e : α × β}
    (h : e ∈ insertEntry k v l) : e = (k, v) ∨ e ∈ l := by
  induction l with
  | nil => exact .inl (List.mem_singleton.1 h)
  | cons hd tl ih =>
    obtain ⟨k', v'⟩ := hd
    unfold insertEntry at h
    split_ifs at h with h1 h2
    · exact List.mem_cons.1 h
    · rcases List.mem_cons.1 h with h | h
      · exact .inl h
      · exact .inr (List.mem_cons_of_mem _ h)
    · rcases List.mem_cons.1 h with h | h
      · exact .inr (h ▸ List.mem_cons_self)
      · rcases ih h with h | h
        · exact .inl h
        · exact .inr (List.mem_cons_of_mem _ h)

theorem sorted_insertEntry {l : List (α × β)} (k : α) (v : β)
    (h : l.Pairwise fun a b => a.1 < b.1) :
    (insertEntry k v l).Pairwise fun a b => a.1 < b.1 := by
  induction l with
  | nil => exact List.pairwise_singleton _ _
  | cons hd tl ih =>
    obtain ⟨k', v'⟩ := hd
    obtain ⟨hlt, hs⟩ := List.pairwise_cons.1 h
    unfold insertEntry
    split_ifs with h1 h2
    · refine List.pairwise_cons.2 ⟨fun e he => ?_, h⟩
      rcases List.mem_cons.1 he with rfl | he
      · exact h1
      · exact h1.trans (hlt e he)
    · subst h2
      exact List.pairwise_cons.2 ⟨hlt, hs⟩
    · refine List.pairwise_cons.2 ⟨fun e he => ?_, ih hs⟩
      rcases mem_insertEntry he with rfl | he
      · exact lt_of_le_of_ne (not_lt.1 h1) (Ne.symm h2)
      · exact hlt e he

theorem lookup_insertEntry_self (k : α) (v : β) (l : List (α × β)) :
    lookup k (insertEntry k v l) = some v := by
  induction l with
  | nil => simp [insertEntry, lookup]
  | cons hd tl ih =>
    obtain ⟨k', v'⟩ := hd
    unfold insertEntry
    split_ifs with h1 h2
    · simp [lookup]
    · simp [lookup]
    · simp [lookup, Ne.symm h2, ih]

theorem lookup_insertEntry_of_ne {k j : α} (h : j ≠ k) (v : β) (l : List (α × β)) :
    lookup j (insertEntry k v l) = lookup j l := by
  induction l with
  | nil => simp [insertEntry, lookup, h.symm]
  | cons hd tl ih =>
    obtain ⟨k', v'⟩ := hd
    unfold insertEntry
    split_ifs with h1 h2
    · simp [lookup, h.symm]
    · subst h2
      simp [lookup, h.symm]
    · simp [lookup, ih]

theorem lookup_filter {p : α → Bool} {j : α} (h : p j) (l : List (α × β)) :
    lookup j (l.filter fun e => p e.1) = lookup j l := by
  induction l with
  | nil => rfl
  | cons hd tl ih =>
    obtain ⟨k, v⟩ := hd
    by_cases hk : p k
    · rw [List.filter_cons_of_pos (by simpa using hk)]
      simp [lookup, ih]
    · rw [List.filter_cons_of_neg (by simpa using hk), ih]
      have : k ≠ j := fun e => hk (e ▸ h)
      simp [lookup, this]

theorem lookup_filter_none {p : α → Bool} {j : α} (h : p j = false) (l : List (α × β)) :
    lookup j (l.filter fun e => p e.1) = none := by
  induction l with
  | nil => rfl
  | cons hd tl ih =>
    obtain ⟨k, v⟩ := hd
    by_cases hk : p k
    · rw [List.filter_cons_of_pos (by simpa using hk)]
      have : k ≠ j := fun e => by rw [e, h] at hk; cases hk
      simp [lookup, this, ih]
    · rw [List.filter_cons_of_neg (by simpa using hk), ih]

theorem mem_of_lookup {k : α} {v : β} {l : List (α × β)} (h : lookup k l = some v) :
    (k, v) ∈ l := by
  induction l with
  | nil => cases h
  | cons hd tl ih =>
    obtain ⟨k', v'⟩ := hd
    unfold lookup at h
    split_ifs at h with hk
    · cases h
      exact hk ▸ List.mem_cons_self
    · exact List.mem_cons_of_mem _ (ih h)

theorem lookup_of_mem {k : α} {v : β} {l : List (α × β)} (hs : l.Pairwise fun a b => a.1 < b.1)
    (h : (k, v) ∈ l) : lookup k l = some v := by
  induction l with
  | nil => cases h
  | cons hd tl ih =>
    obtain ⟨k', v'⟩ := hd
    obtain ⟨hlt, hs⟩ := List.pairwise_cons.1 hs
    unfold lookup
    rcases List.mem_cons.1 h with h | h
    · cases h
      exact if_pos rfl
    · rw [if_neg (hlt _ h).ne, ih hs h]

/-! ## Maps -/

def find (m : OrdMap α β) (k : α) : Option β := lookup k m.entries

/-- `m[k] = v` -/
def set (m : OrdMap α β) (k : α) (v : β) : OrdMap α β :=
  ⟨insertEntry k v m.entries, sorted_insertEntry k v m.sorted⟩

/-- The entries whose keys meet `p`. -/
def keep (m : OrdMap α β) (p : α → Bool) : OrdMap α β :=
  ⟨m.entries.filter fun e => p e.1, m.sorted.filter _⟩

def erase (m : OrdMap α β) (k : α) : OrdMap α β := m.keep (· != k)

/-- `lower_bound` -/
def lowerBound (m : OrdMap α β) (k : α) : List (α × β) := m.entries.dropWhile fun e => e.1 < k

/-- `upper_bound` -/
def upperBound (m : OrdMap α β) (k : α) : List (α × β) := m.entries.dropWhile fun e => e.1 ≤ k

variable (m : OrdMap α β)

@[simp] theorem find_set_self (k : α) (v : β) : (m.set k v).find k = some v :=
  lookup_insertEntry_self k v m.entries

theorem find_set_of_ne {k j : α} (h : j ≠ k) (v : β) : (m.set k v).find j = m.find j :=
  lookup_insertEntry_of_ne h v m.entries

theorem find_keep {p : α → Bool} {k : α} (h : p k) : (m.keep p).find k = m.find k :=
  lookup_filter h m.entries

theorem find_keep_none {p : α → Bool} {k : α} (h : p k = false) : (m.keep p).find k = none :=
  lookup_filter_none h m.entries

theorem mem_entries {k : α} {v : β} : (k, v) ∈ m.entries ↔ m.find k = some v :=
  ⟨lookup_of_mem m.sorted, mem_of_lookup⟩

theorem sorted_lowerBound (k : α) : (m.lowerBound k).Pairwise fun a b => a.1 < b.1 :=
  m.sorted.sublist (List.dropWhile_sublist _)

theorem sorted_upperBound (k : α) : (m.upperBound k).Pairwise fun a b => a.1 < b.1 :=
  m.sorted.sublist (List.dropWhile_sublist _)

/-- What `dropWhile` leaves of increasing keys. -/
theorem mem_dropWhile {p : α → Bool} (hp : ∀ a b, a < b → p b → p a) {l : List (α × β)}
    (hs : l.Pairwise fun a b => a.1 < b.1) {e : α × β} :
    e ∈ l.dropWhile (fun e => p e.1) ↔ e ∈ l ∧ ¬ p e.1 := by
  induction l with
  | nil => simp
  | cons hd tl ih =>
    obtain ⟨hlt, hs⟩ := List.pairwise_cons.1 hs
    by_cases h : p hd.1
    · rw [List.dropWhile_cons_of_pos (by simpa using h), ih hs, List.mem_cons]
      constructor
      · exact fun he => ⟨.inr he.1, he.2⟩
      · rintro ⟨rfl | he, hn⟩
        · exact absurd h hn
        · exact ⟨he, hn⟩
    · rw [List.dropWhile_cons_of_neg (by simpa using h)]
      refine ⟨fun he => ⟨he, ?_⟩, fun he => he.1⟩
      rcases List.mem_cons.1 he with rfl | he
      · exact h
      · exact fun hp' => h (hp _ _ (hlt e he) hp')

theorem mem_lowerBound {k j : α} {v : β} :
    (j, v) ∈ m.lowerBound k ↔ m.find j = some v ∧ k ≤ j := by
  unfold lowerBound
  have h := mem_dropWhile (p := fun a => decide (a < k))
    (fun a b hab hb => by simp at hb ⊢; exact hab.trans hb) m.sorted (e := (j, v))
  simpa [mem_entries] using h

theorem mem_upperBound {k j : α} {v : β} :
    (j, v) ∈ m.upperBound k ↔ m.find j = some v ∧ k < j := by
  unfold upperBound
  have h := mem_dropWhile (p := fun a => decide (a ≤ k))
    (fun a b hab hb => by simp at hb ⊢; exact hab.le.trans hb) m.sorted (e := (j, v))
  simpa [mem_entries] using h

end OrdMap

end Diana.Lib
