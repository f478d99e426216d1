import Diana.Lib.Loop
import Mathlib.Data.Fintype.Pigeonhole

/-!
# Chains of pointers

* `follow`: the `n`-th link of a chain;
* `Cyclic`: the chain comes back to a link;
* `ends_iff_not_cyclic`: over finitely many links a chain ends where it is not cyclic;
* `left_iff_not_cyclic`: a loop that goes along a chain is left just then.
-/

namespace Diana.Lib

instance finite_bitVec (w : Nat) :
    Finite (BitVec w) := .of_injective BitVec.toFin fun _ _ => BitVec.eq_of_toFin_eq

variable {α : Type}

/-- The link after `n` steps. -/
def follow (next : α → Option α) : Nat → α → Option α
  | 0, a => some a
  | n + 1, a => (next a).bind (follow next n)

/-- A link of the chain from `a` is met again. -/
def Cyclic (next : α → Option α) (a : α) : Prop :=
  ∃ m n b, follow next m a = some b ∧ 0 < n ∧ follow next n b = some b

variable {next : α → Option α} {a b : α} {m n : Nat}

theorem follow_add (next : α → Option α) (m n : Nat) (a : α) :
    follow next (m + n) a = (follow next m a).bind (follow next n) := by
  induction m generalizing a with
  | zero => rw [Nat.zero_add]; rfl
  | succ m ih =>
    rw [Nat.succ_add]
    change (next a).bind (follow next (m + n)) =
      ((next a).bind (follow next m)).bind (follow next n)
    cases next a with
    | none => rfl
    | some b => exact ih b

/-- A chain that has ended has ended. -/
theorem follow_none_mono (h : follow next m a = none) (hle : m ≤ n) : follow next n a = none := by
  obtain ⟨k, rfl⟩ := Nat.exists_eq_add_of_le hle
  rw [follow_add, h]
  rfl

/-- Turn after turn along a cycle. -/
theorem follow_mul (h : follow next n b = some b) (k : Nat) : follow next (k * n) b = some b := by
  induction k with
  | zero => rw [Nat.zero_mul]; rfl
  | succ k ih => rw [Nat.succ_mul, follow_add, ih, Option.bind_some, h]

theorem Cyclic.follow_ne_none (h : Cyclic next a) (n : Nat) : follow next n a ≠ none := by
  obtain ⟨m, k, b, hm, hpos, hk⟩ := h
  intro hnone
  have hlong : follow next (m + n * k) a = some b := by
    rw [follow_add, hm, Option.bind_some, follow_mul hk]
  have hle : n ≤ m + n * k := (Nat.le_mul_of_pos_right n hpos).trans (Nat.le_add_left _ _)
  rw [follow_none_mono hnone hle] at hlong
  cases hlong

/-- Over finitely many links a chain that does not end comes back. -/
theorem ends_iff_not_cyclic [Finite α] : (∃ n, follow next n a = none) ↔ ¬ Cyclic next a := by
  refine ⟨fun ⟨n, hn⟩ h => h.follow_ne_none n hn, fun h => ?_⟩
  by_contra hends
  have hsome : ∀ n, ∃ b, follow next n a = some b := fun n =>
    Option.ne_none_iff_exists'.1 fun hn => hends ⟨n, hn⟩
  choose link hlink using hsome
  obtain ⟨i, j, hne, heq⟩ := Finite.exists_ne_map_eq_of_infinite link
  -- the link at the smaller index is met again at the larger one
  have hcyclic : ∀ i j, i < j → link i = link j → Cyclic next a := by
    intro i j hlt heq
    refine ⟨i, j - i, link i, hlink i, by omega, ?_⟩
    have hj := hlink j
    rw [← Nat.add_sub_of_le hlt.le, follow_add, hlink i, Option.bind_some] at hj
    rw [hj, Nat.add_sub_of_le hlt.le, heq]
  rcases Nat.lt_or_gt_of_ne hne with hlt | hgt
  · exact h (hcyclic i j hlt heq)
  · exact h (hcyclic j i hgt heq.symm)

/-- A loop that goes along a chain of links is left just where the chain is not cyclic. -/
theorem left_iff_not_cyclic [Finite α] {σ β : Type} {turn : σ → σ ⊕ β} (link : σ → α)
    (hgo : ∀ s t, turn s = .inl t → next (link s) = some (link t))
    (hout : ∀ s b, turn s = .inr b → next (link s) = none) (s : σ) :
    (∃ n b, runFrom (fun _ => turn) 0 n s = .inr b) ↔ ¬ Cyclic next (link s) := by
  have hfollow : ∀ n (k : Nat) (s : σ),
      (∀ t, runFrom (fun _ => turn) k n s = .inl t → follow next n (link s) = some (link t)) ∧
        ∀ b, runFrom (fun _ => turn) k n s = .inr b → follow next n (link s) = none := by
    intro n
    induction n with
    | zero =>
      refine fun _ _ => ⟨fun t h => ?_, fun b h => ?_⟩
      · cases h
        rfl
      · cases h
    | succ n ih =>
      intro k s
      cases hs : turn s with
      | inl t =>
        have hrun : runFrom (fun _ => turn) k (n + 1) s = runFrom (fun _ => turn) (k + 1) n t :=
          runFrom_inl hs
        rw [hrun]
        unfold follow
        rw [hgo s t hs]
        exact ih (k + 1) t
      | inr b =>
        have hrun : runFrom (fun _ => turn) k (n + 1) s = .inr b := runFrom_inr hs
        rw [hrun]
        unfold follow
        rw [hout s b hs]
        refine ⟨fun t h => ?_, fun _ _ => rfl⟩
        cases h
  rw [← ends_iff_not_cyclic]
  constructor
  · rintro ⟨n, b, hrun⟩
    exact ⟨n, (hfollow n 0 s).2 b hrun⟩
  · rintro ⟨n, hn⟩
    cases hrun : runFrom (fun _ => turn) 0 n s with
    | inl t => cases ((hfollow n 0 s).1 t hrun).symm.trans hn
    | inr b => exact ⟨n, b, hrun⟩

end Diana.Lib
