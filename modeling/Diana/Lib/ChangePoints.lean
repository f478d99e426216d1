import Mathlib.Algebra.Group.Int.Defs
import Mathlib.Algebra.Group.Nat.Defs
import Mathlib.Data.List.Basic
import Mathlib.Tactic.Common

/-!
# Change points

A value for every position, written down as the positions where it changes. `valueAt` goes
through a list of changes, and `Governs` is what it has to find: the change at the greatest
position that is not above.

* `governs_valueAt`: a list that has the changes of a window, and the value at its start,
  tells the values in it.
-/

namespace Diana.Lib

variable {α β : Type} (pos : α → Nat) (val : α → β)

/-- The value at `x`, when it is `first` before the changes. -/
def valueAt (first : β) : List α → Nat → β
  | [], _ => first
  | c :: cs, x => if pos c > x then first else valueAt (val c) cs x

/-- The changes stand in strictly increasing order. -/
def Increasing (l : List α) : Prop := l.Pairwise fun a b => pos a < pos b

/-- The change of `st` that reaches `x`: the one at the greatest position up to there, or `base`
when there is none. -/
def Governs (st : Nat → Option β) (base : β) (x : Nat) (v : β) : Prop :=
  (∃ y ≤ x, st y = some v ∧ ∀ z, y < z → z ≤ x → st z = none) ∨ (v = base ∧ ∀ z ≤ x, st z = none)

variable {pos val} {st : Nat → Option β} {base first v w : β} {lo hi x y : Nat} {l : List α} {c : α}

theorem Governs.unique (h : Governs st base x v) (h' : Governs st base x w) : v = w := by
  rcases h with ⟨y, hy, hst, hbetween⟩ | ⟨rfl, hnone⟩
  · rcases h' with ⟨y', hy', hst', hbetween'⟩ | ⟨rfl, hnone⟩
    · rcases Nat.lt_trichotomy y y' with hlt | rfl | hlt
      · rw [hbetween y' hlt hy'] at hst'
        cases hst'
      · rw [hst] at hst'
        exact Option.some.inj hst'
      · rw [hbetween' y hlt hy] at hst
        cases hst
    · rw [hnone y hy] at hst
      cases hst
  · rcases h' with ⟨y', hy', hst', -⟩ | ⟨rfl, -⟩
    · rw [hnone y' hy'] at hst'
      cases hst'
    · rfl

/-- Nothing changes between the two positions. -/
theorem Governs.mono (h : Governs st base x v) (hxy : x ≤ y)
    (hnone : ∀ z, x < z → z ≤ y → st z = none) : Governs st base y v := by
  rcases h with ⟨z, hz, hst, hbetween⟩ | ⟨rfl, hall⟩
  · refine Or.inl ⟨z, Nat.le_trans hz hxy, hst, fun t ht hty => ?_⟩
    by_cases htx : t ≤ x
    · exact hbetween t ht htx
    · exact hnone t (by omega) hty
  · refine Or.inr ⟨rfl, fun t hty => ?_⟩
    by_cases htx : t ≤ x
    · exact hall t htx
    · exact hnone t (by omega) hty

theorem governs_self (h : st x = some v) : Governs st base x v :=
  Or.inl ⟨x, Nat.le_refl x, h, fun z hlt hle => absurd hlt (by omega)⟩

@[simp] theorem valueAt_nil : valueAt pos val first [] x = first := rfl

theorem valueAt_cons_of_lt {cs : List α} (h : x < pos c) :
    valueAt pos val first (c :: cs) x = first := if_pos h

theorem valueAt_cons_of_le {cs : List α} (h : pos c ≤ x) :
    valueAt pos val first (c :: cs) x = valueAt pos val (val c) cs x := if_neg (Nat.not_lt.2 h)

/-- Changes above the position do not reach it. -/
theorem valueAt_of_lt (h : ∀ c ∈ l, x < pos c) : valueAt pos val first l x = first := by
  cases l with
  | nil => rfl
  | cons c cs => exact valueAt_cons_of_lt (h c List.mem_cons_self)

/-- By induction on the changes; the window starts at the last one that was gone by. -/
theorem governs_valueAt (hl : Increasing pos l) (hfirst : Governs st base lo first)
    (hmem : ∀ y v, lo < y → y < hi → (st y = some v ↔ ∃ c ∈ l, pos c = y ∧ val c = v))
    (hlo : ∀ c ∈ l, lo < pos c) (hlx : lo ≤ x) (hxh : x < hi) :
    Governs st base x (valueAt pos val first l x) := by
  have hquiet : ∀ {l : List α} {lo : Nat},
      (∀ y v, lo < y → y < hi → (st y = some v ↔ ∃ c ∈ l, pos c = y ∧ val c = v)) →
      (∀ c ∈ l, x < pos c) →
        ∀ z, lo < z → z ≤ x → st z = none := by
    intro l lo hmem habove z hlt hle
    cases hst : st z with
    | none => rfl
    | some v =>
      obtain ⟨c, hc, rfl, -⟩ := (hmem z v hlt (by omega)).1 hst
      have := habove c hc
      omega
  induction l generalizing lo first with
  | nil => exact hfirst.mono hlx (hquiet hmem fun c hc => absurd hc List.not_mem_nil)
  | cons c cs ih =>
    obtain ⟨hcs, hl⟩ := List.pairwise_cons.1 hl
    by_cases hx : x < pos c
    · rw [valueAt_cons_of_lt hx]
      refine hfirst.mono hlx (hquiet hmem fun d hd => ?_)
      rcases List.mem_cons.1 hd with rfl | hd
      · exact hx
      · exact Nat.lt_trans hx (hcs d hd)
    · rw [Nat.not_lt] at hx
      have hclo := hlo c List.mem_cons_self
      have hhere : st (pos c) = some (val c) :=
        (hmem _ _ hclo (by omega)).2 ⟨c, List.mem_cons_self, rfl, rfl⟩
      rw [valueAt_cons_of_le hx]
      refine ih hl (governs_self hhere) (fun y v hy hyh => ?_) hcs hx
      rw [hmem y v (by omega) hyh]
      constructor
      · rintro ⟨d, hd, rfl, rfl⟩
        rcases List.mem_cons.1 hd with rfl | hd
        · exact absurd hy (Nat.lt_irrefl _)
        · exact ⟨d, hd, rfl, rfl⟩
      · rintro ⟨d, hd, h⟩
        exact ⟨d, List.mem_cons_of_mem _ hd, h⟩

/-- All the changes up to a position. -/
theorem governs_valueAt_all (hl : Increasing pos l)
    (hmem : ∀ y v, y < hi → (st y = some v ↔ ∃ c ∈ l, pos c = y ∧ val c = v)) (hxh : x < hi) :
    Governs st base x (valueAt pos val base l x) := by
  cases l with
  | nil =>
    refine Or.inr ⟨rfl, fun y hy => Option.eq_none_iff_forall_ne_some.2 fun v hst => ?_⟩
    obtain ⟨c, hc, -⟩ := (hmem y v (by omega)).1 hst
    cases hc
  | cons c cs =>
    obtain ⟨hcs, hl⟩ := List.pairwise_cons.1 hl
    have hmem' : ∀ y v, y < hi →
        (st y = some v ↔ (pos c = y ∧ val c = v) ∨ ∃ d ∈ cs, pos d = y ∧ val d = v) := by
      intro y v hy
      rw [hmem y v hy, List.exists_mem_cons_iff]
    by_cases hx : x < pos c
    · rw [valueAt_cons_of_lt hx]
      refine Or.inr ⟨rfl, fun y hy => Option.eq_none_iff_forall_ne_some.2 fun v hst => ?_⟩
      rcases (hmem' y v (by omega)).1 hst with ⟨he, -⟩ | ⟨d, hd, he, -⟩
      · omega
      · have := hcs d hd
        omega
    · rw [Nat.not_lt] at hx
      rw [valueAt_cons_of_le hx]
      refine governs_valueAt hl (governs_self ((hmem' _ _ (by omega)).2 (Or.inl ⟨rfl, rfl⟩)))
        (fun y v hy hyh => ?_) hcs hx hxh
      rw [hmem' y v hyh]
      exact or_iff_right fun he => absurd he.1 (by omega)

/-- By induction on the position. -/
theorem exists_governs (st : Nat → Option β) (base : β) (x : Nat) : ∃ v, Governs st base x v := by
  induction x with
  | zero =>
    cases hst : st 0 with
    | none => exact ⟨base, Or.inr ⟨rfl, fun z hz => Nat.le_zero.1 hz ▸ hst⟩⟩
    | some v => exact ⟨v, governs_self hst⟩
  | succ x ih =>
    cases hst : st (x + 1) with
    | none =>
      obtain ⟨v, hv⟩ := ih
      refine ⟨v, hv.mono (Nat.le_succ x) fun z hlt hle => ?_⟩
      rw [show z = x + 1 by omega]
      exact hst
    | some v => exact ⟨v, governs_self hst⟩

/-- What governs counted from `lo` governs, where everything below `lo` says what is said without
it. -/
theorem governs_shift (hlow : ∀ y < lo, ∀ v, st y = some v → v = base)
    (h : Governs (fun o => st (lo + o)) base x v) : Governs st base (lo + x) v := by
  rcases h with ⟨y, hy, hst, hbetween⟩ | ⟨rfl, hnone⟩
  · refine Or.inl ⟨lo + y, by omega, hst, fun z hlt hle => ?_⟩
    have : st (lo + (z - lo)) = none := hbetween (z - lo) (by omega) (by omega)
    rwa [show lo + (z - lo) = z by omega] at this
  · have hall : ∀ z, lo ≤ z → z ≤ lo + x → st z = none := by
      intro z hlo hle
      have : st (lo + (z - lo)) = none := hnone (z - lo) (by omega)
      rwa [show lo + (z - lo) = z by omega] at this
    cases lo with
    | zero => exact Or.inr ⟨rfl, fun z hz => hall z (Nat.zero_le z) hz⟩
    | succ lo =>
      obtain ⟨w, hw⟩ := exists_governs st v lo
      have hbase : w = v := by
        rcases hw with ⟨y, hy, hst, -⟩ | ⟨rfl, -⟩
        · exact hlow y (by omega) w hst
        · rfl
      exact hbase ▸ hw.mono (by omega) fun z hlt hle => hall z hlt hle

end Diana.Lib
