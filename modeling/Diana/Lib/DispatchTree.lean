import Diana.Lib.Field

/-!
# Dispatch trees

A tree that sorts words by bit fields: a node looks at one field and has a slot for each of its
values, which leads to a node or holds the items that are left to try. An item has a pattern, a mask
and the value that it demands.

* `Pattern.matches`, `Pattern.meets`: the test of a word, and whether a word with some
  known bits can pass it;
* `check`: a test of the whole tree against a list of items;
* `walk_of_check`: in a tree that passes it each word comes to slots that hold what the list has for
  it, in the order of the list.
-/

namespace Diana.Lib

variable {w : Nat}

structure Pattern (w : Nat) where
  mask : BitVec w
  value : BitVec w
  deriving DecidableEq, Repr

def Pattern.matches (p : Pattern w) (x : BitVec w) : Bool := x &&& p.mask == p.value

/-- The two have the same bits where both have any. -/
def Pattern.meets (p q : Pattern w) : Bool := p.value &&& q.mask == q.value &&& p.mask

/-- Words that match both patterns. -/
def Pattern.inter (p q : Pattern w) : Pattern w := ⟨p.mask ||| q.mask, p.value ||| q.value⟩

theorem Pattern.meets_of_matches {p q : Pattern w} {x : BitVec w} (hp : p.matches x = true)
    (hq : q.matches x = true) : p.meets q = true :=
  beq_iff_eq.2 (mask_meet (beq_iff_eq.1 hp) (beq_iff_eq.1 hq))

theorem Pattern.inter_matches {p q : Pattern w} {x : BitVec w} (hp : p.matches x = true)
    (hq : q.matches x = true) : (p.inter q).matches x = true := by
  have hp := beq_iff_eq.1 hp
  have hq := beq_iff_eq.1 hq
  refine beq_iff_eq.2 ?_
  unfold Pattern.inter
  dsimp only
  rw [BitVec.and_or_distrib_left, hp, hq]

/-- A field with one of its values. -/
def Pattern.field (w shift bits k : Nat) : Pattern w :=
  ⟨(BitVec.allOnes bits).setWidth w <<< shift, (BitVec.ofNat bits k).setWidth w <<< shift⟩

theorem Pattern.field_matches (x : BitVec w) (shift bits : Nat) :
    (Pattern.field w shift bits (x.extractLsb' shift bits).toNat).matches x = true := by
  refine beq_iff_eq.2 ?_
  unfold Pattern.field
  dsimp only
  rw [BitVec.ofNat_toNat, BitVec.setWidth_eq]
  apply BitVec.eq_of_getLsbD_eq
  intro i hi
  simp only [BitVec.getLsbD_and, BitVec.getLsbD_shiftLeft, BitVec.getLsbD_setWidth,
    BitVec.getLsbD_allOnes, BitVec.getLsbD_extractLsb']
  by_cases hlow : i < shift
  · simp [hlow]
  · have hsum : shift + (i - shift) = i := by omega
    have hlt : i - shift < w := by omega
    simp [hi, hlow, hlt, hsum, Bool.and_comm]

/-! ## Trees -/

structure DispatchNode where
  shift : Nat
  bits : Nat
  /-- where the slots of the node begin -/
  first : Nat
  deriving DecidableEq, Repr

inductive DispatchSlot (ι : Type) where
  | child (n : Nat)
  | items (l : List ι)

structure DispatchTree (ι : Type) where
  node : Nat → Option DispatchNode
  slot : Nat → Option (DispatchSlot ι)

namespace DispatchTree

variable {ι : Type} (T : DispatchTree ι)

/-- The items that a word comes to from a node; none when the turns are used up or the tree has a
hole. -/
def walk (x : BitVec w) : (turns n : Nat) → Option (List ι)
  | 0, _ => none
  | turns + 1, n =>
    match T.node n with
    | none => none
    | some node =>
      match T.slot (node.first + (x.extractLsb' node.shift node.bits).toNat) with
      | none => none
      | some (.items l) => some l
      | some (.child m) => walk x turns m

/-- What is ruled out on the way does not match. -/
theorem filter_matches_of_known {pattern : ι → Pattern w} {known : Pattern w} {x : BitVec w}
    (h : known.matches x = true) (items : List ι) :
    (items.filter fun i => (pattern i).meets known).filter (fun i => (pattern i).matches x) =
      items.filter fun i => (pattern i).matches x := by
  rw [List.filter_filter]
  refine List.filter_congr fun i _ => ?_
  cases hi : (pattern i).matches x with
  | false => rfl
  | true => rw [Bool.true_and, Pattern.meets_of_matches hi h]

variable [DecidableEq ι] (pattern : ι → Pattern w)

/-- Each slot that a word can come to holds the items that are not ruled out on the way. -/
def check : (turns n : Nat) → (known : Pattern w) → List ι → Bool
  | 0, _, _, _ => false
  | turns + 1, n, known, items =>
    match T.node n with
    | none => false
    | some node =>
      (List.range (2 ^ node.bits)).all fun k =>
        let field := Pattern.field w node.shift node.bits k
        !field.meets known ||
          let known := field.inter known
          let left := items.filter fun i => (pattern i).meets known
          match T.slot (node.first + k) with
          | none => false
          | some (.items l) => l == left
          | some (.child m) => check turns m known left

variable {T pattern}

theorem walk_of_check {turns n : Nat} {known : Pattern w} {items : List ι}
    (h : T.check pattern turns n known items = true) {x : BitVec w} (hx : known.matches x = true) :
    ∃ l, T.walk x turns n = some l ∧
      l.filter (fun i => (pattern i).matches x) = items.filter fun i => (pattern i).matches x := by
  induction turns generalizing n known items with
  | zero => cases h
  | succ turns ih =>
    unfold check at h
    unfold walk
    cases hnode : T.node n with
    | none =>
      rw [hnode] at h
      cases h
    | some node =>
      rw [hnode] at h
      dsimp only at h ⊢
      have hfield := Pattern.field_matches x node.shift node.bits
      generalize hk : (x.extractLsb' node.shift node.bits).toNat = k at hfield ⊢
      have hlt : k < 2 ^ node.bits := hk ▸ (x.extractLsb' node.shift node.bits).isLt
      have hslot := List.all_eq_true.1 h k (List.mem_range.2 hlt)
      have hknown := Pattern.inter_matches hfield hx
      rw [Pattern.meets_of_matches hfield hx, Bool.not_true, Bool.false_or] at hslot
      cases hs : T.slot (node.first + k) with
      | none =>
        rw [hs] at hslot
        cases hslot
      | some s =>
        rw [hs] at hslot
        cases s with
        | items l =>
          refine ⟨l, rfl, ?_⟩
          rw [eq_of_beq hslot]
          exact filter_matches_of_known hknown items
        | child m =>
          obtain ⟨l, hwalk, hl⟩ := ih hslot hknown
          exact ⟨l, hwalk, hl.trans (filter_matches_of_known hknown items)⟩

end DispatchTree

end Diana.Lib
