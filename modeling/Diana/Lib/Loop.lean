import Mathlib.Algebra.Group.Int.Defs
import Mathlib.Algebra.Group.Nat.Defs
import Mathlib.Order.WellFounded

/-!
# Loops with an outside world

A loop whose body may ask the outside for something at every turn: `step n s` is the `n`-th turn
from the state `s`, and it either goes on (`inl`) or leaves the loop (`inr`). The index stands for
whatever the world answers at that turn.

* `runFrom step k n s`: `n` turns from the state `s`, the first of them the `k`-th;
* `runFrom_inv`: what every turn preserves holds in every state reached;
* `exists_runFrom_inr`: a loop whose turns lower a well-founded measure is left;
* `Reached turn s p`: the states of a loop without an outside world;
* `Leads turn s r`: where a loop without an outside world goes, for runs put together from smaller
  ones.
-/

namespace Diana.Lib

variable {σ β : Type}

/-- `n` turns of the loop, starting with the `k`-th. -/
def runFrom (step : Nat → σ → σ ⊕ β) : Nat → Nat → σ → σ ⊕ β
  | _, 0, s => .inl s
  | k, n + 1, s =>
    match step k s with
    | .inl t => runFrom step (k + 1) n t
    | .inr b => .inr b

variable {step : Nat → σ → σ ⊕ β}

theorem runFrom_inl {k n : Nat} {s t : σ} (h : step k s = .inl t) :
    runFrom step k (n + 1) s = runFrom step (k + 1) n t := by
  simp only [runFrom, h]

theorem runFrom_inr {k n : Nat} {s : σ} {b : β} (h : step k s = .inr b) :
    runFrom step k (n + 1) s = .inr b := by
  simp only [runFrom, h]

/-- One more turn at the end. -/
theorem runFrom_succ {k n : Nat} {s t : σ} (h : runFrom step k n s = .inl t) :
    runFrom step k (n + 1) s = step (k + n) t := by
  induction n generalizing k s with
  | zero =>
    cases h
    cases hs : step k t with
    | inl u => exact runFrom_inl hs
    | inr b => exact runFrom_inr hs
  | succ n ih =>
    cases hs : step k s with
    | inl u =>
      rw [runFrom_inl hs] at h ⊢
      rw [ih h, Nat.add_right_comm, Nat.add_assoc]
    | inr b =>
      rw [runFrom_inr hs] at h
      cases h

/-- An invariant of the turns holds in every state reached. -/
theorem runFrom_inv {P : σ → Prop} (hstep : ∀ k s t, P s → step k s = .inl t → P t) {k n : Nat}
    {s t : σ} (hs : P s) (h : runFrom step k n s = .inl t) : P t := by
  induction n generalizing k s with
  | zero =>
    cases h
    exact hs
  | succ n ih =>
    cases hk : step k s with
    | inl u =>
      rw [runFrom_inl hk] at h
      exact ih (hstep k s u hs hk) h
    | inr b =>
      rw [runFrom_inr hk] at h
      cases h

/-- A loop that was left stays so. -/
theorem runFrom_inr_mono {k n : Nat} {s : σ} {b : β} (h : runFrom step k n s = .inr b) (m : Nat) :
    runFrom step k (n + m) s = .inr b := by
  induction n generalizing k s with
  | zero => cases h
  | succ n ih =>
    rw [Nat.add_right_comm]
    cases hk : step k s with
    | inl u =>
      rw [runFrom_inl hk] at h ⊢
      exact ih h
    | inr c =>
      rw [runFrom_inr hk] at h ⊢
      exact h

/-- The state before the last turn. -/
theorem runFrom_pred {k n : Nat} {s t : σ} (h : runFrom step k (n + 1) s = .inl t) :
    ∃ u, runFrom step k n s = .inl u ∧ step (k + n) u = .inl t := by
  cases hn : runFrom step k n s with
  | inl u => exact ⟨u, rfl, (runFrom_succ hn).symm.trans h⟩
  | inr b =>
    rw [runFrom_inr_mono hn 1] at h
    cases h

/-- A loop is left in one way only. -/
theorem runFrom_inr_unique {k m n : Nat} {s : σ} {b c : β} (h : runFrom step k m s = .inr b)
    (h' : runFrom step k n s = .inr c) : b = c := by
  have h1 := runFrom_inr_mono h n
  have h2 := runFrom_inr_mono h' m
  rw [Nat.add_comm, h1] at h2
  exact Sum.inr.inj h2

/-- The state in which a loop is left. -/
theorem exists_last {k n : Nat} {s : σ} {b : β} (h : runFrom step k n s = .inr b) :
    ∃ m t, m < n ∧ runFrom step k m s = .inl t ∧ step (k + m) t = .inr b := by
  induction n generalizing k s with
  | zero => cases h
  | succ n ih =>
    cases hk : step k s with
    | inl u =>
      rw [runFrom_inl hk] at h
      obtain ⟨m, t, hm, hrun, hlast⟩ := ih h
      refine ⟨m + 1, t, by omega, ?_, ?_⟩
      · rw [runFrom_inl hk]
        exact hrun
      · rw [← hlast, Nat.add_right_comm, Nat.add_assoc]
    | inr c =>
      rw [runFrom_inr hk] at h
      cases h
      exact ⟨0, s, by omega, rfl, hk⟩

/-- A loop whose turns lower a well-founded measure, under an invariant, is left. -/
theorem exists_runFrom_inr {α : Type} {r : α → α → Prop} (hr : WellFounded r) {P : σ → Prop}
    (measure : σ → α) (hstep : ∀ k s t, P s → step k s = .inl t → P t)
    (hlt : ∀ k s t, P s → step k s = .inl t → r (measure t) (measure s)) {k : Nat} {s : σ}
    (hs : P s) : ∃ n b, runFrom step k n s = .inr b := by
  induction hm : measure s using hr.induction generalizing k s with
  | _ a ih =>
    cases hk : step k s with
    | inl t =>
      obtain ⟨n, b, hrun⟩ :=
        ih (measure t) (hm ▸ hlt k s t hs hk) (hstep k s t hs hk) rfl
      exact ⟨n + 1, b, by rw [runFrom_inl hk]; exact hrun⟩
    | inr b => exact ⟨1, b, runFrom_inr hk⟩

section Reached

variable {turn : σ → σ ⊕ β} {s p : σ}

/-- A state that a loop that asks for nothing gets to. -/
def Reached (turn : σ → σ ⊕ β) (s p : σ) : Prop := ∃ n, runFrom (fun _ => turn) 0 n s = .inl p

theorem Reached.refl (turn : σ → σ ⊕ β) (s : σ) : Reached turn s s := ⟨0, rfl⟩

theorem Reached.next {q : σ} (h : Reached turn s p) (hq : turn p = .inl q) : Reached turn s q := by
  obtain ⟨n, hn⟩ := h
  exact ⟨n + 1, (runFrom_succ hn).trans hq⟩

/-- A loop whose turns lower a measure in the states it gets to is left. -/
theorem exists_runFrom_inr_of_reached (measure : σ → Nat)
    (h : ∀ p q, Reached turn s p → turn p = .inl q → measure q < measure p) :
    ∃ n b, runFrom (fun _ => turn) 0 n s = .inr b :=
  exists_runFrom_inr Nat.lt_wfRel.wf (P := Reached turn s) measure (fun _ _ _ hp hq => hp.next hq)
    (fun _ p q hp hq => h p q hp hq) (Reached.refl turn s)

theorem runFrom_const (turn : σ → σ ⊕ β) (k k' n : Nat) (s : σ) :
    runFrom (fun _ => turn) k n s = runFrom (fun _ => turn) k' n s := by
  induction n generalizing k k' s with
  | zero => rfl
  | succ n ih =>
    cases h : turn s with
    | inl t => rw [runFrom_inl h, runFrom_inl h, ih]
    | inr b => rw [runFrom_inr h, runFrom_inr h]

/-- How a loop is left does not depend on how far it has gone. -/
theorem exits_iff_of_turn {q : σ} (h : turn s = .inl q) (b : β) :
    (∃ n, runFrom (fun _ => turn) 0 n s = .inr b) ↔ ∃ n,
    runFrom (fun _ => turn) 0 n q = .inr b := by
  constructor
  · rintro ⟨n, hn⟩
    cases n with
    | zero => cases hn
    | succ n =>
      exact ⟨n, by
        rw [runFrom_const turn 0 1, ← @runFrom_inl _ _ (fun _ => turn) _ _ _ _ h]; exact hn⟩
  · rintro ⟨n, hn⟩
    exact ⟨n + 1, by rw [runFrom_inl h, runFrom_const turn _ 0]; exact hn⟩

/-- A loop that gets to a state that leads to itself is never left. -/
theorem runFrom_ne_inr_of_fixed (hp : Reached turn s p) (hfix : turn p = .inl p) (n : Nat) (b : β) :
    runFrom (fun _ => turn) 0 n s ≠ .inr b := by
  obtain ⟨m, hm⟩ := hp
  have hstay : ∀ k, runFrom (fun _ => turn) 0 (m + k) s = .inl p := by
    intro k
    induction k with
    | zero => exact hm
    | succ k ih => exact (runFrom_succ ih).trans hfix
  intro hb
  have := runFrom_inr_mono hb m
  rw [Nat.add_comm, hstay n] at this
  cases this

end Reached

/-- `s` goes in one or more turns of a loop that asks for nothing to `r`, a state or a way out. -/
inductive Leads (turn : σ → σ ⊕ β) : σ → σ ⊕ β → Prop where
  | last {s : σ} {r : σ ⊕ β} : turn s = r → Leads turn s r
  | more {s t : σ} {r : σ ⊕ β} : turn s = .inl t → Leads turn t r → Leads turn s r

namespace Leads

variable {turn : σ → σ ⊕ β}

theorem trans {s t : σ} {r : σ ⊕ β} (h : Leads turn s (.inl t)) (ht : Leads turn t r) :
    Leads turn s r := by
  generalize hr : (Sum.inl t : σ ⊕ β) = u at h
  induction h with
  | last hs =>
    subst hr
    exact .more hs ht
  | more hs _ ih => exact .more hs (ih hr)

/-- Two states with the same first turn. -/
theorem congr {s s' : σ} {r : σ ⊕ β} (hs : turn s = turn s') (h : Leads turn s' r) :
    Leads turn s r := by
  cases h with
  | last h => exact .last (hs.trans h)
  | more h ht => exact .more (hs.trans h) ht

theorem exists_runFrom {s : σ} {r : σ ⊕ β} (h : Leads turn s r) (k : Nat) :
    ∃ n, runFrom (fun _ => turn) k n s = r := by
  induction h generalizing k with
  | @last s r hs =>
    refine ⟨1, ?_⟩
    cases r with
    | inl t => exact runFrom_inl hs
    | inr b => exact runFrom_inr hs
  | more hs _ ih =>
    obtain ⟨n, hn⟩ := ih (k + 1)
    exact ⟨n + 1, (runFrom_inl hs).trans hn⟩

end Leads

/-- A loop over a list, in any order of the list: the turns commute in the states reached. -/
theorem foldl_perm {f : σ → β → σ} {P : σ → Prop} {l l' : List β} (hp : l.Perm l')
    (hstep : ∀ s, P s → ∀ x ∈ l, P (f s x))
    (hcomm : ∀ s, P s → ∀ x ∈ l, ∀ y ∈ l, f (f s x) y = f (f s y) x) {s : σ} (hs : P s) :
    l.foldl f s = l'.foldl f s := by
  induction hp generalizing s with
  | nil => rfl
  | cons x _ ih =>
    exact ih (fun s hs y hy => hstep s hs y (List.mem_cons_of_mem _ hy))
      (fun s hs y hy z hz => hcomm s hs y (List.mem_cons_of_mem _ hy) z (List.mem_cons_of_mem _ hz))
      (hstep s hs x List.mem_cons_self)
  | swap x y l =>
    rw [List.foldl_cons, List.foldl_cons, List.foldl_cons, List.foldl_cons,
      hcomm s hs y List.mem_cons_self x (List.mem_cons_of_mem _ List.mem_cons_self)]
  | trans h1 _ ih1 ih2 =>
    rw [ih1 hstep hcomm hs]
    exact ih2 (fun s hs x hx => hstep s hs x (h1.mem_iff.2 hx))
      (fun s hs x hx y hy => hcomm s hs x (h1.mem_iff.2 hx) y (h1.mem_iff.2 hy)) hs

/-- What a loop over a list brings about at one element and never undoes. -/
theorem foldl_of_mem {f : σ → β → σ} {P : σ → Prop} {l : List β} {x : β} (hx : x ∈ l)
    (hset : ∀ s, P (f s x)) (hkeep : ∀ s y, P s → P (f s y)) (s : σ) : P (l.foldl f s) := by
  have hrest : ∀ (l : List β) s, P s → P (l.foldl f s) := by
    intro l
    induction l with
    | nil => exact fun s hs => hs
    | cons y l ih => exact fun s hs => ih _ (hkeep s y hs)
  obtain ⟨l, l', rfl⟩ := List.append_of_mem hx
  rw [List.foldl_append, List.foldl_cons]
  exact hrest l' _ (hset _)

end Diana.Lib
