import Mathlib.Algebra.Group.Int.Defs
import Mathlib.Algebra.Group.Nat.Defs
import Mathlib.Data.List.Induction
import Mathlib.Tactic.Common

/-!
# Streams of blocks

A state takes a sequence in blocks of one size. A `Stream` takes it in pieces of any size: it keeps
what does not fill a block yet.

* `feed_append`: the pieces do not matter;
* `feed_new`: the state has taken the whole blocks of what came in, and the rest is kept.
-/

namespace Diana.Lib

variable {σ α : Type} {size : Nat}

/-- A state and the start of the next block. -/
structure Stream (σ α : Type) (size : Nat) where
  state : σ
  rest : List α
  lt : rest.length < size

/-- The state after the first blocks of a sequence. -/
def chain (compress : σ → List α → σ) (size : Nat) (s : σ) (l : List α) : Nat → σ
  | 0 => s
  | i + 1 => compress (chain compress size s l i) ((l.drop (size * i)).take size)

namespace Stream

/-- One element more. -/
def push (compress : σ → List α → σ) (s : Stream σ α size) (x : α) : Stream σ α size :=
  if h : s.rest.length + 1 < size then ⟨s.state, s.rest ++ [x], by simpa using h⟩
  else ⟨compress s.state (s.rest ++ [x]), [], Nat.zero_lt_of_lt s.lt⟩

def feed (compress : σ → List α → σ) (s : Stream σ α size) (l : List α) :
    Stream σ α size := l.foldl (push compress) s

variable {compress : σ → List α → σ} {s : Stream σ α size}

theorem feed_append (l l' : List α) :
    s.feed compress (l ++ l') = (s.feed compress l).feed compress l' :=
  List.foldl_append

/-- What does not fill the block is kept. -/
theorem feed_of_lt {l : List α} (h : s.rest.length + l.length < size) :
    s.feed compress l = ⟨s.state, s.rest ++ l, by simpa using h⟩ := by
  induction l generalizing s with
  | nil => simp [feed]
  | cons x l ih =>
    have hlt : s.rest.length + 1 < size := by
      rw [List.length_cons] at h
      omega
    have hpush : push compress s x = ⟨s.state, s.rest ++ [x], by simpa using hlt⟩ := dif_pos hlt
    have hstep : s.feed compress (x :: l) = (push compress s x).feed compress l := rfl
    have hrest : (s.rest ++ [x]).length + l.length < size := by
      simp only [List.length_append, List.length_cons, List.length_nil] at h ⊢
      omega
    rw [hstep, hpush, ih hrest]
    simp

/-- What fills the block goes to the state. -/
theorem feed_of_eq {l : List α} (h : s.rest.length + l.length = size) :
    s.feed compress l = ⟨compress s.state (s.rest ++ l), [], Nat.zero_lt_of_lt s.lt⟩ := by
  have hlt := s.lt
  rcases List.eq_nil_or_concat l with rfl | ⟨l, x, rfl⟩
  · rw [List.length_nil] at h
    omega
  · rw [List.concat_eq_append, List.length_append, List.length_singleton] at h
    have hbefore : s.rest.length + l.length < size := by omega
    have hfull : ¬(s.rest ++ l).length + 1 < size := by
      rw [List.length_append]
      omega
    rw [List.concat_eq_append, feed_append, feed_of_lt hbefore]
    refine (dif_neg hfull).trans ?_
    simp

end Stream

/-- How full the next block is. -/
theorem Stream.length_rest_feed {compress : σ → List α → σ} {s : Stream σ α size} (l : List α) :
    (s.feed compress l).rest.length = (s.rest.length + l.length) % size := by
  induction l generalizing s with
  | nil => exact (Nat.mod_eq_of_lt s.lt).symm
  | cons x l ih =>
    have hstep : s.feed compress (x :: l) = (s.push compress x).feed compress l := rfl
    have hlt := s.lt
    rw [hstep, ih, List.length_cons]
    unfold Stream.push
    split
    · rw [List.length_append, List.length_singleton, Nat.add_assoc, Nat.add_comm 1]
    · next hfull =>
      have hsize : s.rest.length + (l.length + 1) = l.length + size := by omega
      rw [hsize, Nat.add_mod_right, List.length_nil, Nat.zero_add]

/-! ## The whole sequence -/

variable {compress : σ → List α → σ}

/-- Blocks do not depend on what comes behind them. -/
theorem chain_append {s : σ} {l l' : List α} {i : Nat} (h : size * i ≤ l.length) :
    chain compress size s (l ++ l') i = chain compress size s l i := by
  induction i with
  | zero => rfl
  | succ i ih =>
    rw [Nat.mul_succ] at h
    have hblock : ((l ++ l').drop (size * i)).take size = (l.drop (size * i)).take size := by
      rw [List.drop_append_of_le_length (by omega), List.take_append_of_le_length]
      rw [List.length_drop]
      omega
    rw [chain, chain, ih (by omega), hblock]

/-- A stream that has taken nothing. -/
def Stream.new (s : σ) (h : 0 < size) : Stream σ α size := ⟨s, [], h⟩

/-- The state has the whole blocks, and the rest is kept. -/
theorem feed_new (s : σ) (h : 0 < size) (l : List α) :
    ((Stream.new s h).feed compress l).state = chain compress size s l (l.length / size) ∧
      ((Stream.new s h).feed compress l).rest = l.drop (size * (l.length / size)) := by
  induction l using List.reverseRecOn with
  | nil => simp [Stream.feed, Stream.new, chain]
  | append_singleton l x ih =>
    obtain ⟨hstate, hrest⟩ := ih
    have hsplit := Nat.div_add_mod l.length size
    have hlt := Nat.mod_lt l.length h
    have hle : size * (l.length / size) ≤ l.length := Nat.mul_div_le _ _
    have hrestlen : ((Stream.new s h).feed compress l).rest.length = l.length % size := by
      rw [hrest, List.length_drop]
      omega
    have hdrop : (l ++ [x]).drop (size * (l.length / size)) =
        l.drop (size * (l.length / size)) ++ [x] :=
      List.drop_append_of_le_length hle
    rw [Stream.feed_append, List.length_append, List.length_singleton]
    by_cases hfull : l.length % size + 1 < size
    · have hdiv : (l.length + 1) / size = l.length / size := by
        refine Nat.div_eq_of_lt_le ?_ ?_
        · rw [Nat.mul_comm]
          omega
        · rw [Nat.succ_mul, Nat.mul_comm]
          omega
      rw [Stream.feed_of_lt (by rw [hrestlen]; exact hfull), hdiv, chain_append hle, hdrop]
      exact ⟨hstate, congrArg (· ++ [x]) hrest⟩
    · have hdiv : (l.length + 1) / size = l.length / size + 1 := by
        refine Nat.div_eq_of_lt_le ?_ ?_
        · rw [Nat.succ_mul, Nat.mul_comm]
          omega
        · rw [Nat.succ_mul, Nat.succ_mul, Nat.mul_comm]
          omega
      have hend : size * (l.length / size + 1) = (l ++ [x]).length := by
        rw [Nat.mul_succ, List.length_append, List.length_singleton]
        omega
      have htake : (l.drop (size * (l.length / size)) ++ [x]).take size =
          l.drop (size * (l.length / size)) ++ [x] := by
        refine List.take_of_length_le ?_
        rw [List.length_append, List.length_drop, List.length_singleton]
        omega
      rw [Stream.feed_of_eq (by rw [hrestlen, List.length_singleton]; omega), hdiv, chain,
        chain_append hle, hdrop, htake, hend, List.drop_length]
      dsimp only
      rw [hstate, hrest]
      exact ⟨rfl, rfl⟩

end Diana.Lib
