import Diana.Lib.Copies
import Mathlib.Data.List.InsertIdx
import Mathlib.Order.Basic
import Mathlib.Order.Lattice
import Mathlib.Order.Defs.LinearOrder
import Mathlib.Tactic.Common

/-!
# Sorted vectors

A vector of elements with a key, kept in increasing order of the keys, with no key twice. An element
is found and put at the position that `std::lower_bound` gives.
-/

namespace Diana.Lib.SortedVec

variable {α β : Type} [LinearOrder α]

/-- The keys increase. -/
def Sorted (key : β → α) (l : List β) : Prop := l.Pairwise fun a b => key a < key b

/-- `std::lower_bound`, as an index -/
def lowerBound (key : β → α) (k : α) (l : List β) : Nat := (l.takeWhile fun e => key e < k).length

/-- The element at the lower bound of a key, if the key is its own. -/
def find (key : β → α) (k : α) (l : List β) : Option β :=
  l[lowerBound key k l]?.filter fun e => key e = k

/-- The element takes the place of the one with its key, or is inserted at its lower bound. -/
def put (key : β → α) (b : β) (l : List β) : List β :=
  let i := lowerBound key (key b) l
  if (find key (key b) l).isSome then l.set i b else l.insertIdx i b

variable {key : β → α} {k : α} {a b : β} {l l' : List β}

theorem lowerBound_cons :
    lowerBound key k (a :: l) = if key a < k then lowerBound key k l + 1 else 0 := by
  unfold lowerBound
  by_cases h : key a < k <;> simp [h]

@[simp] theorem find_nil : find key k [] = none := rfl

@[simp] theorem put_nil : put key b [] = [b] := rfl

theorem find_cons :
    find key k (a :: l) =
      if key a < k then find key k l else if key a = k then some a else none := by
  unfold find
  rw [lowerBound_cons]
  by_cases h : key a < k
  · simp [h]
  · by_cases h' : key a = k <;> simp [h, h', Option.filter]

theorem put_cons :
    put key b (a :: l) =
      if key a < key b then a :: put key b l
      else if key a = key b then b :: l else b :: a :: l := by
  unfold put
  rw [lowerBound_cons, find_cons]
  by_cases h : key a < key b
  · by_cases h' : (find key (key b) l).isSome <;> simp [h, h']
  · by_cases h' : key a = key b <;> simp [h, h']

theorem Sorted.nil : Sorted key [] := List.Pairwise.nil

theorem sorted_cons : Sorted key (a :: l) ↔ (∀ b ∈ l, key a < key b) ∧ Sorted key l :=
  List.pairwise_cons

theorem mem_put {e : β} (h : e ∈ put key b l) : e = b ∨ e ∈ l := by
  induction l with
  | nil => exact .inl (List.mem_singleton.1 h)
  | cons a l ih =>
    rw [put_cons] at h
    split at h
    · rcases List.mem_cons.1 h with rfl | h
      · exact .inr List.mem_cons_self
      · exact (ih h).imp_right (List.mem_cons_of_mem _)
    · split at h
      · exact (List.mem_cons.1 h).imp_right (List.mem_cons_of_mem _)
      · exact List.mem_cons.1 h

theorem mem_put_self : b ∈ put key b l := by
  induction l with
  | nil => exact List.mem_singleton_self b
  | cons a l ih =>
    rw [put_cons]
    split
    · exact List.mem_cons_of_mem _ ih
    · split <;> exact List.mem_cons_self

theorem mem_put_of_ne {e : β} (h : e ∈ l) (hk : key e ≠ key b) : e ∈ put key b l := by
  induction l with
  | nil => cases h
  | cons a l ih =>
    rw [put_cons]
    split
    · rcases List.mem_cons.1 h with rfl | h
      · exact List.mem_cons_self
      · exact List.mem_cons_of_mem _ (ih h)
    · split
      · rename_i hab
        rcases List.mem_cons.1 h with rfl | h
        · exact absurd hab hk
        · exact List.mem_cons_of_mem _ h
      · exact List.mem_cons_of_mem _ h

/-- A set of keys with one more. -/
theorem mem_put_id {k' : α} {l : List α} : k' ∈ put id k l ↔ k' = k ∨ k' ∈ l := by
  constructor
  · exact mem_put
  · intro h
    by_cases hk : k' = k
    · rw [hk]
      exact mem_put_self
    · exact mem_put_of_ne (h.resolve_left hk) hk

theorem Sorted.put (h : Sorted key l) (b : β) : Sorted key (put key b l) := by
  induction l with
  | nil => exact List.pairwise_singleton _ _
  | cons a l ih =>
    obtain ⟨ha, hl⟩ := sorted_cons.1 h
    rw [put_cons]
    split
    · rename_i hab
      refine sorted_cons.2 ⟨fun e he => ?_, ih hl⟩
      rcases mem_put he with rfl | he
      · exact hab
      · exact ha e he
    · rename_i hab
      split
      · rename_i hk
        exact sorted_cons.2 ⟨fun e he => hk ▸ ha e he, hl⟩
      · rename_i hk
        have hba : key b < key a := lt_of_le_of_ne (not_lt.1 hab) (Ne.symm hk)
        refine sorted_cons.2 ⟨fun e he => ?_, h⟩
        rcases List.mem_cons.1 he with rfl | he
        · exact hba
        · exact hba.trans (ha e he)

theorem mem_of_find (h : find key k l = some a) : a ∈ l ∧ key a = k := by
  obtain ⟨he, hk⟩ := Option.filter_eq_some_iff.1 h
  exact ⟨List.mem_of_getElem? he, of_decide_eq_true hk⟩

theorem find_of_mem (hs : Sorted key l) (h : a ∈ l) : find key (key a) l = some a := by
  induction l with
  | nil => cases h
  | cons b l ih =>
    obtain ⟨hb, hl⟩ := sorted_cons.1 hs
    rw [find_cons]
    rcases List.mem_cons.1 h with rfl | h
    · simp
    · rw [if_pos (hb a h)]
      exact ih hl h

/-- Keys may come more than once here. -/
theorem find_isSome_iff (hs : l.Pairwise fun a b => key a ≤ key b) :
    (find key k l).isSome = true ↔ ∃ a ∈ l, key a = k := by
  constructor
  · intro h
    obtain ⟨a, ha⟩ := Option.isSome_iff_exists.1 h
    exact ⟨a, mem_of_find ha⟩
  · rintro ⟨a, ha, rfl⟩
    induction l with
    | nil => cases ha
    | cons b l ih =>
      obtain ⟨hb, hs⟩ := List.pairwise_cons.1 hs
      rw [find_cons]
      rcases List.mem_cons.1 ha with rfl | ha
      · simp
      · have hle := hb a ha
        by_cases hlt : key b < key a
        · rw [if_pos hlt]
          exact ih hs ha
        · rw [if_neg hlt, if_pos (le_antisymm hle (not_lt.1 hlt))]
          rfl

@[simp] theorem find_put_self : find key (key b) (put key b l) = some b := by
  induction l with
  | nil => simp [find_cons]
  | cons a l ih =>
    rw [put_cons]
    split
    · rename_i h
      rw [find_cons, if_pos h]
      exact ih
    · split <;> simp [find_cons]

theorem find_put_of_ne (h : k ≠ key b) : find key k (put key b l) = find key k l := by
  induction l with
  | nil => simp [find_cons, Ne.symm h]
  | cons a l ih =>
    rw [put_cons]
    split
    · rw [find_cons, find_cons, ih]
    · rename_i hab
      split
      · rename_i hk
        rw [find_cons, find_cons, hk, if_neg (Ne.symm h), if_neg (Ne.symm h)]
      · rename_i hk
        rw [find_cons]
        split
        · rfl
        · rename_i hbk
          have hkb : k < key b := lt_of_le_of_ne (not_lt.1 hbk) h
          have hka : k < key a := hkb.trans_le (not_lt.1 hab)
          rw [if_neg (Ne.symm h), find_cons, if_neg hka.not_gt, if_neg hka.ne']

theorem find_put : find key k (put key b l) = if k = key b then some b else find key k l := by
  split
  · rename_i h
    rw [h, find_put_self]
  · rename_i h
    exact find_put_of_ne h

/-- Sorted vectors with the same elements at every key are equal. -/
theorem Sorted.ext (h : Sorted key l) (h' : Sorted key l')
    (he : ∀ k, find key k l = find key k l') : l = l' := by
  have hsub : ∀ {l l' : List β}, Sorted key l → (∀ k, find key k l = find key k l') →
      ∀ e ∈ l, e ∈ l' := fun hs he e hm => (mem_of_find (he (key e) ▸ find_of_mem hs hm)).1
  have hlt : ∀ {l : List β}, Sorted key l → l.Nodup := fun hs =>
    hs.imp fun {a b} hab (e : a = b) => absurd hab (e ▸ lt_irrefl _)
  have hp : l.Perm l' :=
    (List.perm_ext_iff_of_nodup (hlt h) (hlt h')).2 fun e =>
      ⟨hsub h he e, hsub h' (fun k => (he k).symm) e⟩
  exact hp.eq_of_pairwise (fun a b _ _ hab hba => absurd hba hab.not_gt) h h'

/-- Sorted sets with the same members are equal. -/
theorem Sorted.ext_mem {l l' : List α} (h : Sorted id l) (h' : Sorted id l')
    (hm : ∀ a, a ∈ l ↔ a ∈ l') : l = l' := by
  refine h.ext h' fun k => ?_
  by_cases hk : k ∈ l
  · exact (find_of_mem h hk).trans (find_of_mem h' ((hm k).1 hk)).symm
  · have hnone : ∀ {l : List α}, k ∉ l → find id k l = none := fun hn =>
      Option.eq_none_iff_forall_not_mem.2 fun a ha => hn ((mem_of_find ha).2 ▸ (mem_of_find ha).1)
    rw [hnone hk, hnone fun hk' => hk ((hm k).2 hk')]

theorem put_put_of_eq (hs : Sorted key l) (hk : key a = key b) :
    put key b (put key a l) = put key b l := by
  refine ((hs.put a).put b).ext (hs.put b) fun k => ?_
  simp only [find_put, hk]
  split <;> rfl

theorem put_comm (hs : Sorted key l) (hk : key a ≠ key b) :
    put key b (put key a l) = put key a (put key b l) := by
  refine ((hs.put a).put b).ext ((hs.put b).put a) fun k => ?_
  simp only [find_put]
  split
  · rename_i h
    rw [h, if_neg (Ne.symm hk)]
  · rfl

/-- Putting an element changes nothing exactly when it is there. -/
theorem put_eq_self_iff (hs : Sorted key l) : put key b l = l ↔ find key (key b) l = some b := by
  constructor
  · intro h
    rw [← h, find_put_self]
  · intro h
    refine (hs.put b).ext hs fun k => ?_
    rw [find_put]
    split
    · rename_i hk
      rw [hk, h]
    · rfl

theorem put_append_of_lt (h : ∀ a ∈ l, key a < key b) : put key b l = l ++ [b] := by
  induction l with
  | nil => rfl
  | cons a l ih =>
    rw [put_cons, if_pos (h a List.mem_cons_self), ih fun c hc => h c (List.mem_cons_of_mem _ hc)]
    rfl

/-- An element takes the place of the one with its key. -/
theorem put_middle {pre post : List β} (hs : Sorted key (pre ++ a :: post)) (hk : key b = key a) :
    put key b (pre ++ a :: post) = pre ++ b :: post := by
  induction pre with
  | nil =>
    rw [List.nil_append, put_cons, hk, if_neg (lt_irrefl _), if_pos rfl, List.nil_append]
  | cons c pre ih =>
    obtain ⟨hc, hl⟩ := sorted_cons.1 hs
    have hca : key c < key b := hk ▸ hc a (List.mem_append_right _ List.mem_cons_self)
    rw [List.cons_append, put_cons, if_pos hca, ih hl, List.cons_append]

theorem getLast?_eq_some_iff (hs : Sorted key l) :
    l.getLast? = some a ↔ a ∈ l ∧ ∀ b ∈ l, key b ≤ key a := by
  rcases List.eq_nil_or_concat l with rfl | ⟨l, z, rfl⟩
  · simp
  · rw [List.concat_eq_append] at hs ⊢
    have hz : ∀ b ∈ l, key b < key z := fun b hb =>
      (List.pairwise_append.1 hs).2.2 b hb z List.mem_cons_self
    rw [List.getLast?_append, List.getLast?_singleton, Option.some_or, Option.some.injEq]
    constructor
    · rintro rfl
      refine ⟨List.mem_append_right _ List.mem_cons_self, fun b hb => ?_⟩
      rcases List.mem_append.1 hb with hb | hb
      · exact (hz b hb).le
      · rw [List.mem_singleton.1 hb]
    · rintro ⟨ha, hmax⟩
      rcases List.mem_append.1 ha with ha | ha
      · exact absurd (hmax z (List.mem_append_right _ List.mem_cons_self)) (hz a ha).not_ge
      · exact (List.mem_singleton.1 ha).symm

theorem mem_takeWhile_le (hs : Sorted key l) :
    a ∈ l.takeWhile (fun e => key e ≤ k) ↔ a ∈ l ∧ key a ≤ k := by
  constructor
  · intro h
    have hk := List.mem_takeWhile_imp h
    exact ⟨(List.takeWhile_sublist _).subset h, of_decide_eq_true hk⟩
  · rintro ⟨ha, hk⟩
    refine mem_takeWhile_of_pairwise (hs.imp fun hxy hy => ?_) ha (decide_eq_true hk)
    exact decide_eq_true (hxy.le.trans (of_decide_eq_true hy))

/-- The element before the upper bound of a key: the last one whose key is not above it. -/
theorem getLast?_takeWhile_le (hs : Sorted key l) :
    (l.takeWhile fun e => key e ≤ k).getLast? = some a ↔
      a ∈ l ∧ key a ≤ k ∧ ∀ b ∈ l, key b ≤ k → key b ≤ key a := by
  rw [getLast?_eq_some_iff (hs.sublist (List.takeWhile_sublist _)), mem_takeWhile_le hs, and_assoc]
  refine and_congr_right fun _ => and_congr_right fun _ => ?_
  exact ⟨fun h b hb hbk => h b ((mem_takeWhile_le hs).2 ⟨hb, hbk⟩), fun h b hb =>
    h b ((mem_takeWhile_le hs).1 hb).1 ((mem_takeWhile_le hs).1 hb).2⟩

/-! ## Two vectors in step -/

section Pairs

variable {γ : Type} {c : γ} {refs : List (α × γ)}

theorem lowerBound_map_fst (k : α) (refs : List (α × γ)) :
    lowerBound id k (refs.map Prod.fst) = lowerBound Prod.fst k refs := by
  unfold lowerBound
  rw [List.takeWhile_map, List.length_map]
  rfl

/-- The keys of pairs, and what goes with a key at the same position. -/
theorem find_pair (k : α) (refs : List (α × γ)) :
    find Prod.fst k refs =
      if (refs.map Prod.fst)[lowerBound id k (refs.map Prod.fst)]? = some k then
        ((refs.map Prod.snd)[lowerBound id k (refs.map Prod.fst)]?).map (k, ·) else none := by
  rw [lowerBound_map_fst, find, List.getElem?_map, List.getElem?_map]
  cases refs[lowerBound Prod.fst k refs]? with
  | none => rfl
  | some p =>
    obtain ⟨k', c⟩ := p
    by_cases h : k' = k <;> simp [Option.filter, h]

theorem put_pair_of_find (h : (find Prod.fst k refs).isSome) :
    (put Prod.fst (k, c) refs).map Prod.fst = refs.map Prod.fst ∧
      (put Prod.fst (k, c) refs).map Prod.snd =
        (refs.map Prod.snd).set (lowerBound id k (refs.map Prod.fst)) c := by
  have hp : put Prod.fst (k, c) refs = refs.set (lowerBound Prod.fst k refs) (k, c) := if_pos h
  obtain ⟨p, hf⟩ := Option.isSome_iff_exists.1 h
  obtain ⟨hg, hk⟩ := Option.filter_eq_some_iff.1 hf
  rw [hp, lowerBound_map_fst, List.map_set, List.map_set]
  refine ⟨?_, rfl⟩
  refine List.ext_getElem? fun i => ?_
  rw [List.getElem?_set]
  split
  · rename_i hi
    subst hi
    rw [List.getElem?_map, hg, if_pos (by
      rw [List.length_map]
      exact (List.getElem?_eq_some_iff.1 hg).1)]
    exact congrArg some (of_decide_eq_true hk).symm
  · rfl

theorem put_pair_of_find_none (h : find Prod.fst k refs = none) :
    (put Prod.fst (k, c) refs).map Prod.fst =
        (refs.map Prod.fst).insertIdx (lowerBound id k (refs.map Prod.fst)) k ∧
      (put Prod.fst (k, c) refs).map Prod.snd =
        (refs.map Prod.snd).insertIdx (lowerBound id k (refs.map Prod.fst)) c := by
  have hp : put Prod.fst (k, c) refs = refs.insertIdx (lowerBound Prod.fst k refs) (k, c) :=
    if_neg (by
      show ¬ (find Prod.fst k refs).isSome
      simp [h])
  rw [hp, lowerBound_map_fst, List.map_insertIdx, List.map_insertIdx]
  exact ⟨rfl, rfl⟩

end Pairs

end Diana.Lib.SortedVec
