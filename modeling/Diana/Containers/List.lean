import Diana.Lib.Links
import Mathlib.Data.Fintype.Card
import Mathlib.Data.Fintype.EquivFin

/-!
# `Diana_List`

The list of nodes that are linked both ways, with its ends and its size. A node is put next to
another one in one of two ways: at an end by `Diana_PushBack` or `Diana_PushFront`, which count it,
and else on the spot, where nothing is counted.

* `Operation.run`: the operations; `Operation.nodes`: what they make of the nodes on the list;
* `represents_run`: one operation; `represents_runAll`: a sequence of them;
* `wellFormed_runAll_iff`: when the size is that of the list.
-/

namespace Diana.Containers

open Diana.Lib

/-- The address of a node; 0 is none. -/
abbrev NodePointer := BitVec 64

/-- `Diana_List` -/
structure DianaList where
  first : NodePointer
  last : NodePointer
  size : BitVec 64
  deriving DecidableEq, Repr

/-- The nodes in memory and a list of them. -/
structure ListState where
  links : Links NodePointer
  list : DianaList

namespace ListState

variable (s : ListState)

/-- `Diana_InitList` -/
def initList (links : Links NodePointer) : ListState := ⟨links, 0, 0, 0⟩

/-- `Diana_PushBack` -/
def pushBack (node : NodePointer) : ListState :=
  let links := (s.links.setNext node 0).setPrev node 0
  if s.list.last ≠ 0 then
    { links := (links.setNext s.list.last node).setPrev node s.list.last
      list := { s.list with last := node, size := s.list.size + 1 } }
  else { links, list := { last := node, first := node, size := s.list.size + 1 } }

/-- `Diana_PushFront` -/
def pushFront (node : NodePointer) : ListState :=
  let links := (s.links.setNext node 0).setPrev node 0
  if s.list.first ≠ 0 then
    { links := (links.setPrev s.list.first node).setNext node s.list.first
      list := { s.list with first := node, size := s.list.size + 1 } }
  else { links, list := { last := node, first := node, size := s.list.size + 1 } }

/-- `Diana_InsertAfter` -/
def insertAfter (node nodeToInsert : NodePointer) : ListState :=
  let nextNode := s.links.next node
  if s.list.last = node then s.pushBack nodeToInsert
  else
    let links := (s.links.setNext node nodeToInsert).setPrev nextNode nodeToInsert
    { s with links := (links.setNext nodeToInsert nextNode).setPrev nodeToInsert node }

/-- `Diana_InsertBefore` -/
def insertBefore (node nodeToInsert : NodePointer) : ListState :=
  let prevNode := s.links.prev node
  if s.list.first = node then s.pushFront nodeToInsert
  else
    let links := (s.links.setPrev node nodeToInsert).setNext prevNode nodeToInsert
    { s with links := (links.setNext nodeToInsert node).setPrev nodeToInsert prevNode }

/-- `Diana_EraseNode` -/
def eraseNode (node : NodePointer) : ListState :=
  let nextNode := s.links.next node
  let s₁ : ListState :=
    if nextNode ≠ 0 then { s with links := s.links.setPrev nextNode (s.links.prev node) }
    else { s with list := { s.list with last := s.links.prev node } }
  let s₂ : ListState :=
    if s₁.links.prev node ≠ 0 then
      { s₁ with links := s₁.links.setNext (s₁.links.prev node) nextNode }
    else { s₁ with list := { s₁.list with first := s₁.links.next node } }
  { links := (s₂.links.setPrev node 0).setNext node 0
    list := { s₂.list with size := s₂.list.size - 1 } }

section Erase

variable {s} {node q : NodePointer}

theorem next_eraseNode (hq : q ≠ node) : (s.eraseNode node).links.next q =
    if s.links.prev node ≠ 0 ∧ q = s.links.prev node then s.links.next node
    else s.links.next q := by
  unfold eraseNode
  by_cases hnext : s.links.next node = 0#64 <;> by_cases hprev : s.links.prev node = 0#64
    <;> simp [hnext, hprev, hq]

theorem prev_eraseNode (hq : q ≠ node) : (s.eraseNode node).links.prev q =
    if s.links.next node ≠ 0 ∧ q = s.links.next node then s.links.prev node
    else s.links.prev q := by
  unfold eraseNode
  by_cases hnext : s.links.next node = 0#64 <;> by_cases hprev : s.links.prev node = 0#64
    <;> simp [hnext, hprev, hq]

theorem first_eraseNode : (s.eraseNode node).list.first =
    if s.links.prev node ≠ 0 then s.list.first else s.links.next node := by
  unfold eraseNode
  by_cases hnext : s.links.next node = 0#64 <;> by_cases hprev : s.links.prev node = 0#64
    <;> simp [hnext, hprev]

theorem last_eraseNode : (s.eraseNode node).list.last =
    if s.links.next node ≠ 0 then s.list.last else s.links.prev node := by
  unfold eraseNode
  by_cases hnext : s.links.next node = 0#64 <;> by_cases hprev : s.links.prev node = 0#64
    <;> simp [hnext, hprev]

theorem size_eraseNode : (s.eraseNode node).list.size = s.list.size - 1 := by
  unfold eraseNode
  by_cases hnext : s.links.next node = 0#64 <;> by_cases hprev : s.links.prev node = 0#64
    <;> simp [hnext, hprev]

end Erase

end ListState

/-! ## Sequences of operations -/

inductive Operation where
  | pushBack (node : NodePointer)
  | pushFront (node : NodePointer)
  | insertAfter (node nodeToInsert : NodePointer)
  | insertBefore (node nodeToInsert : NodePointer)
  | eraseNode (node : NodePointer)
  deriving DecidableEq, Repr

namespace Operation

def run (s : ListState) : Operation → ListState
  | .pushBack node => s.pushBack node
  | .pushFront node => s.pushFront node
  | .insertAfter node nodeToInsert => s.insertAfter node nodeToInsert
  | .insertBefore node nodeToInsert => s.insertBefore node nodeToInsert
  | .eraseNode node => s.eraseNode node

/-- A node that is inserted is not yet on the list; one to insert at or to erase is. -/
def Allowed (l : List NodePointer) : Operation → Prop
  | .pushBack node | .pushFront node => node ≠ 0 ∧ node ∉ l
  | .insertAfter node nodeToInsert | .insertBefore node nodeToInsert =>
    node ∈ l ∧ nodeToInsert ≠ 0 ∧ nodeToInsert ∉ l
  | .eraseNode node => node ∈ l

/-- What an operation makes of the nodes on the list. -/
def nodes (l : List NodePointer) : Operation → List NodePointer
  | .pushBack node => l ++ [node]
  | .pushFront node => node :: l
  | .insertAfter node nodeToInsert => l.flatMap fun x => if x = node then [x, nodeToInsert] else [x]
  | .insertBefore node nodeToInsert =>
    l.flatMap fun x => if x = node then [nodeToInsert, x] else [x]
  | .eraseNode node => l.erase node

/-- A node is inserted between two nodes of the list. -/
def InsertsBetween (l : List NodePointer) : Operation → Prop
  | .insertAfter node _ => l.getLast? ≠ some node
  | .insertBefore node _ => l.head? ≠ some node
  | _ => False

instance (l : List NodePointer) : (op : Operation) → Decidable (op.InsertsBetween l)
  | .insertAfter _ _ | .insertBefore _ _ => inferInstanceAs (Decidable (_ ≠ _))
  | .pushBack _ | .pushFront _ | .eraseNode _ => inferInstanceAs (Decidable False)

instance (l : List NodePointer) : (op : Operation) → Decidable (op.Allowed l)
  | .pushBack _ | .pushFront _ => inferInstanceAs (Decidable (_ ∧ _))
  | .insertAfter _ _ | .insertBefore _ _ => inferInstanceAs (Decidable (_ ∧ _ ∧ _))
  | .eraseNode _ => inferInstanceAs (Decidable (_ ∈ _))

def runAll (s : ListState) (ops : List Operation) : ListState := ops.foldl run s

/-- The nodes on the list behind a sequence of operations. -/
def nodesAfter (l : List NodePointer) (ops : List Operation) : List NodePointer := ops.foldl nodes l

/-- Every operation of a sequence may be made where it is made. -/
def AllAllowed (l : List NodePointer) : List Operation → Prop
  | [] => True
  | op :: ops => op.Allowed l ∧ AllAllowed (op.nodes l) ops

/-- How many nodes a sequence of operations inserts between two nodes of the list. -/
def insertedBetween (l : List NodePointer) : List Operation → Nat
  | [] => 0
  | op :: ops => (if op.InsertsBetween l then 1 else 0) + insertedBetween (op.nodes l) ops

end Operation

/-! ## The nodes on a list -/

/-- The nodes of a list: linked both ways, with its ends. -/
structure Represents (s : ListState) (l : List NodePointer) : Prop where
  nodup : l.Nodup
  nonzero : 0 ∉ l
  linked : s.links.Linked 0 l 0
  first : s.list.first = l.headD 0
  last : s.list.last = l.getLastD 0

/-- The nodes of a list, and as many of them as it says. -/
structure WellFormed (s : ListState) (l : List NodePointer) : Prop extends Represents s l where
  size : s.list.size.toNat = l.length

namespace Represents

variable {s s' : ListState} {l l₁ l₂ : List NodePointer} {node q y : NodePointer}

theorem nil (links : Links NodePointer) : Represents (ListState.initList links) [] :=
  ⟨List.nodup_nil, by simp, links.linked_nil 0 0, rfl, rfl⟩

theorem head?_eq_some_iff (h : Represents s l) : l.head? = some q ↔ q ≠ 0 ∧ q = s.list.first := by
  have h0 := h.nonzero
  rw [h.first]
  cases l with
  | nil => simp
  | cons x l =>
    simp only [List.head?_cons, Option.some.injEq, List.headD_cons]
    constructor
    · rintro rfl
      exact ⟨fun hx => h0 (by simp [hx]), rfl⟩
    · exact fun hq => hq.2.symm

theorem getLast?_eq_some_iff (h : Represents s l) :
    l.getLast? = some q ↔ q ≠ 0 ∧ q = s.list.last := by
  have h0 := h.nonzero
  rw [h.last]
  rcases List.eq_nil_or_concat l with rfl | ⟨l, x, rfl⟩
  · simp
  · simp only [List.concat_eq_append, List.getLast?_concat, Option.some.injEq, List.getLastD_concat]
    constructor
    · rintro rfl
      exact ⟨fun hx => h0 (by simp [hx]), rfl⟩
    · exact fun hq => hq.2.symm

theorem insert (h : Represents s (l₁ ++ l₂)) (hzero : y ≠ 0) (hy : y ∉ l₁ ++ l₂)
    (hnext : ∀ q, s'.links.next q = if q = y then l₂.headD 0 else if l₁.getLast? = some q then y
      else s.links.next q)
    (hprev : ∀ q, s'.links.prev q = if q = y then l₁.getLastD 0 else if l₂.head? = some q then y
      else s.links.prev q)
    (hfirst : s'.list.first = if l₁ = [] then y else s.list.first)
    (hlast : s'.list.last = if l₂ = [] then y else s.list.last) :
    Represents s' (l₁ ++ y :: l₂) where
  nodup := List.nodup_middle.2 (List.nodup_cons.2 ⟨hy, h.nodup⟩)
  nonzero h0 := by
    rcases List.mem_cons.1 (List.perm_middle.mem_iff.1 h0) with he | h0
    · exact hzero he.symm
    · exact h.nonzero h0
  linked := h.linked.insert h.nodup hy hnext hprev
  first := by
    rw [hfirst, h.first]
    cases l₁ <;> simp
  last := by
    rw [hlast, h.last]
    cases l₂ <;> simp [List.getLastD_eq_getLast?, List.getLast?_append, List.getLast?_cons]

theorem pushBack (h : Represents s l) (hzero : y ≠ 0) (hy : y ∉ l) :
    Represents (s.pushBack y) (l ++ [y]) ∧ (s.pushBack y).list.size = s.list.size + 1 := by
  have hl : Represents s (l ++ []) := by rwa [List.append_nil]
  have hend (q : NodePointer) := h.getLast?_eq_some_iff (q := q)
  unfold ListState.pushBack
  by_cases hlast : s.list.last = 0
  · obtain rfl : l = [] := by
      have h0 := h.nonzero
      have := h.last
      rcases List.eq_nil_or_concat l with rfl | ⟨l, x, rfl⟩
      · rfl
      · simp_all
    rw [if_neg (not_not.2 hlast)]
    refine ⟨hl.insert hzero (by simp) (fun q => ?_) (fun q => ?_) (by simp) (by simp), rfl⟩
    · simp
    · simp
  · have hne : s.list.last ≠ y := by
      rintro rfl
      exact hy (List.mem_of_getLast? ((hend _).2 ⟨hlast, rfl⟩))
    have hnil : l ≠ [] := by
      rintro rfl
      exact hlast h.last
    rw [if_pos hlast]
    refine ⟨hl.insert hzero (by simpa using hy) (fun q => ?_) (fun q => ?_) (by simp [hnil])
      (by simp), rfl⟩
    · by_cases hq : q = y
      · simp [hq, hne.symm]
      · by_cases hql : q = s.list.last
        · subst hql
          simpa [hend, hne] using fun h0 => absurd h0 hlast
        · simp [hend, hq, hql]
    · by_cases hq : q = y <;> simp [hq, h.last]

theorem pushFront (h : Represents s l) (hzero : y ≠ 0) (hy : y ∉ l) :
    Represents (s.pushFront y) (y :: l) ∧ (s.pushFront y).list.size = s.list.size + 1 := by
  have hl : Represents s ([] ++ l) := h
  have hstart (q : NodePointer) := h.head?_eq_some_iff (q := q)
  unfold ListState.pushFront
  by_cases hfirst : s.list.first = 0
  · obtain rfl : l = [] := by
      have h0 := h.nonzero
      have := h.first
      cases l <;> simp_all
    rw [if_neg (not_not.2 hfirst)]
    refine ⟨hl.insert hzero hy (fun q => ?_) (fun q => ?_) (by simp) (by simp), rfl⟩
    · simp
    · simp
  · have hne : s.list.first ≠ y := by
      rintro rfl
      exact hy (List.mem_of_head? ((hstart _).2 ⟨hfirst, rfl⟩))
    have hnil : l ≠ [] := by
      rintro rfl
      exact hfirst h.first
    rw [if_pos hfirst]
    refine ⟨hl.insert hzero hy (fun q => ?_) (fun q => ?_) (by simp) (by simp [hnil]), rfl⟩
    · by_cases hq : q = y <;> simp [hq, h.first]
    · by_cases hq : q = y
      · simp [hq, hne.symm]
      · by_cases hqf : q = s.list.first
        · subst hqf
          simpa [hstart, hne] using fun h0 => absurd h0 hfirst
        · simp [hstart, hq, hqf]

/-- A node is put behind a node that is not the last one. -/
theorem insertAfter (h : Represents s (l₁ ++ node :: l₂)) (hzero : y ≠ 0)
    (hy : y ∉ l₁ ++ node :: l₂) : Represents (s.insertAfter node y) (l₁ ++ node :: y :: l₂) ∧
      (s.insertAfter node y).list.size = if l₂ = [] then s.list.size + 1 else s.list.size := by
  unfold ListState.insertAfter
  cases l₂ with
  | nil =>
    have hlast : s.list.last = node := by rw [h.last, List.getLastD_concat]
    obtain ⟨hpush, hsize⟩ := h.pushBack hzero hy
    rw [if_pos hlast, if_pos rfl]
    exact ⟨by simpa using hpush, hsize⟩
  | cons z l₂ =>
    have hnode : node ≠ 0 := fun he => h.nonzero (by simp [he])
    have hlast : s.list.last ≠ node := by
      intro he
      have hend := h.getLast?_eq_some_iff.2 ⟨hnode, he.symm⟩
      rw [List.getLast?_append_of_ne_nil _ (List.cons_ne_nil _ _), List.getLast?_cons_cons] at hend
      exact (List.nodup_cons.1 (List.nodup_append.1 h.nodup).2.1).1 (List.mem_of_getLast? hend)
    rw [if_neg hlast, if_neg (List.cons_ne_nil _ _), (h.linked l₁ node (z :: l₂) rfl).1]
    have hl : Represents s ((l₁ ++ [node]) ++ z :: l₂) := by simpa using h
    have hshape : l₁ ++ node :: y :: z :: l₂ = (l₁ ++ [node]) ++ y :: (z :: l₂) := by simp
    rw [hshape]
    refine ⟨hl.insert hzero (by simpa using hy) (fun q => ?_) (fun q => ?_) (by simp) (by simp),
      rfl⟩
    · by_cases hq : q = y <;> simp [hq, eq_comm]
    · by_cases hq : q = y <;> simp [hq, eq_comm]

/-- A node is put before a node that is not the first one. -/
theorem insertBefore (h : Represents s (l₁ ++ node :: l₂)) (hzero : y ≠ 0)
    (hy : y ∉ l₁ ++ node :: l₂) : Represents (s.insertBefore node y) (l₁ ++ y :: node :: l₂) ∧
      (s.insertBefore node y).list.size = if l₁ = [] then s.list.size + 1 else s.list.size := by
  unfold ListState.insertBefore
  rcases List.eq_nil_or_concat l₁ with rfl | ⟨l₁, z, rfl⟩
  · have hfirst : s.list.first = node := h.first
    rw [if_pos hfirst, if_pos rfl]
    exact h.pushFront hzero hy
  · rw [List.concat_eq_append] at h hy ⊢
    have hnode : node ≠ 0 := fun he => h.nonzero (by simp [he])
    have hfirst : s.list.first ≠ node := by
      intro he
      have hstart := h.head?_eq_some_iff.2 ⟨hnode, he.symm⟩
      rw [List.head?_append_of_ne_nil _ (by simp)] at hstart
      exact (List.nodup_cons.1 (List.nodup_middle.1 h.nodup)).1
        (List.mem_append_left _ (List.mem_of_head? hstart))
    rw [if_neg hfirst, if_neg (by simp), (h.linked (l₁ ++ [z]) node l₂ rfl).2, List.getLastD_concat]
    refine ⟨h.insert hzero hy (fun q => ?_) (fun q => ?_) (by simp) (by simp), rfl⟩
    · by_cases hq : q = y <;> simp [hq, eq_comm]
    · by_cases hq : q = y <;> simp [hq, eq_comm]

theorem eraseNode (h : Represents s (l₁ ++ node :: l₂)) :
    Represents (s.eraseNode node) (l₁ ++ l₂) ∧ (s.eraseNode node).list.size = s.list.size - 1 := by
  obtain ⟨hnext, hprev⟩ := h.linked l₁ node l₂ rfl
  have hnodup := (List.nodup_middle.1 h.nodup).of_cons
  have hnode : node ∉ l₁ ++ l₂ := (List.nodup_cons.1 (List.nodup_middle.1 h.nodup)).1
  have hnonzero : (0 : NodePointer) ∉ l₁ ++ l₂ := fun h0 => h.nonzero (by
    rw [List.perm_middle.mem_iff]
    exact List.mem_cons_of_mem _ h0)
  have hne : ∀ q ∈ l₁ ++ l₂, q ≠ node := fun q hq he => hnode (he ▸ hq)
  refine ⟨⟨hnodup, hnonzero, h.linked.erase h.nodup (fun q hq => ?_) (fun q hq => ?_), ?_, ?_⟩,
    ListState.size_eraseNode⟩
  · rw [ListState.next_eraseNode (hne q hq), hnext, hprev]
    rcases List.eq_nil_or_concat l₁ with rfl | ⟨l₁, p, rfl⟩
    · simp
    · have hp : p ≠ 0#64 := fun he => hnonzero (by simp [he])
      simp [hp, eq_comm]
  · rw [ListState.prev_eraseNode (hne q hq), hnext, hprev]
    cases l₂ with
    | nil => simp
    | cons z l₂ =>
      have hz : z ≠ 0#64 := fun he => hnonzero (by simp [he])
      simp [hz, eq_comm]
  · rw [ListState.first_eraseNode, hnext, hprev, h.first]
    rcases List.eq_nil_or_concat l₁ with rfl | ⟨l₁, p, rfl⟩
    · simp
    · have hp : p ≠ 0 := fun he => hnonzero (by simp [he])
      rw [List.concat_eq_append, List.getLastD_concat, if_pos hp]
      cases l₁ <;> rfl
  · rw [ListState.last_eraseNode, hnext, hprev, h.last]
    cases l₂ with
    | nil => simp [List.getLastD_eq_getLast?]
    | cons z l₂ =>
      have hz : z ≠ 0#64 := fun he => hnonzero (by simp [he])
      simp [hz, List.getLastD_eq_getLast?, List.getLast?_append, List.getLast?_cons]

end Represents

theorem flatMap_of_notMem {l : List NodePointer} {node : NodePointer}
    {f : NodePointer → List NodePointer} (h : node ∉ l) :
    (l.flatMap fun x => if x = node then f x else [x]) = l := by
  induction l with
  | nil => rfl
  | cons x l ih =>
    obtain ⟨hx, hl⟩ := not_or.1 (mt List.mem_cons.2 h)
    rw [List.flatMap_cons, ih hl, if_neg (Ne.symm hx)]
    rfl

theorem flatMap_of_nodup {l₁ l₂ : List NodePointer} {node : NodePointer}
    {f : NodePointer → List NodePointer} (h : (l₁ ++ node :: l₂).Nodup) :
    ((l₁ ++ node :: l₂).flatMap fun x => if x = node then f x else [x]) = l₁ ++ (f node ++ l₂) := by
  have hnode := (List.nodup_cons.1 (List.nodup_middle.1 h)).1
  rw [List.flatMap_append, List.flatMap_cons,
    flatMap_of_notMem fun h => hnode (List.mem_append_left _ h),
    flatMap_of_notMem fun h => hnode (List.mem_append_right _ h), if_pos rfl]

/-- A node that is put into the list is counted, or it is not. -/
theorem counted {size size' : BitVec 64} {n : Nat} {c : Prop} [Decidable c]
    (h : size' = if c then size else size + 1) :
    (size'.toNat + (if c then 1 else 0) + n) % 2 ^ 64 = (size.toNat + (n + 1)) % 2 ^ 64 := by
  subst h
  split
  · rw [Nat.add_assoc, Nat.add_comm 1]
  · have : (size + 1).toNat = (size.toNat + 1) % 2 ^ 64 := BitVec.toNat_add _ _
    omega

/-- An operation keeps the links and the ends. It counts a node that it inserts, but not
between two others. -/
theorem represents_run {s : ListState} {l : List NodePointer} {op : Operation} (h : Represents s l)
    (hallowed : op.Allowed l) : Represents (op.run s) (op.nodes l) ∧
      ((op.run s).list.size.toNat + (if op.InsertsBetween l then 1 else 0) + l.length) % 2 ^ 64 =
        (s.list.size.toNat + (op.nodes l).length) % 2 ^ 64 := by
  cases op with
  | pushBack node =>
    obtain ⟨hrep, hsize⟩ := h.pushBack hallowed.1 hallowed.2
    refine ⟨hrep, ?_⟩
    rw [Operation.nodes, List.length_append, List.length_singleton]
    exact counted (hsize.trans (if_neg not_false).symm)
  | pushFront node =>
    obtain ⟨hrep, hsize⟩ := h.pushFront hallowed.1 hallowed.2
    exact ⟨hrep, counted (hsize.trans (if_neg not_false).symm)⟩
  | insertAfter node nodeToInsert =>
    obtain ⟨hmem, hzero, hnew⟩ := hallowed
    obtain ⟨l₁, l₂, rfl⟩ := List.append_of_mem hmem
    obtain ⟨hrep, hsize⟩ := h.insertAfter hzero hnew
    have hnodes : (Operation.insertAfter node nodeToInsert).nodes (l₁ ++ node :: l₂) =
        l₁ ++ node :: nodeToInsert :: l₂ :=
      flatMap_of_nodup (f := fun x => [x, nodeToInsert]) h.nodup
    have hbetween : (Operation.insertAfter node nodeToInsert).InsertsBetween (l₁ ++ node :: l₂) ↔
        l₂ ≠ [] := by
      rw [Operation.InsertsBetween, List.getLast?_append_of_ne_nil _ (List.cons_ne_nil _ _)]
      cases l₂ with
      | nil => simp
      | cons z l₂ =>
        have hnode := (List.nodup_cons.1 (List.nodup_append.1 h.nodup).2.1).1
        rw [List.getLast?_cons_cons]
        exact iff_of_true (fun he => hnode (List.mem_of_getLast? he)) (List.cons_ne_nil _ _)
    rw [hnodes]
    refine ⟨hrep, ?_⟩
    have hlength : (l₁ ++ node :: nodeToInsert :: l₂).length = (l₁ ++ node :: l₂).length + 1 := by
      simp only [List.length_append, List.length_cons]
      omega
    rw [hlength]
    refine counted (hsize.trans ?_)
    simp only [hbetween, ne_eq, ite_not]
  | insertBefore node nodeToInsert =>
    obtain ⟨hmem, hzero, hnew⟩ := hallowed
    obtain ⟨l₁, l₂, rfl⟩ := List.append_of_mem hmem
    obtain ⟨hrep, hsize⟩ := h.insertBefore hzero hnew
    have hnodes : (Operation.insertBefore node nodeToInsert).nodes (l₁ ++ node :: l₂) =
        l₁ ++ nodeToInsert :: node :: l₂ :=
      flatMap_of_nodup (f := fun x => [nodeToInsert, x]) h.nodup
    have hbetween : (Operation.insertBefore node nodeToInsert).InsertsBetween (l₁ ++ node :: l₂) ↔
        l₁ ≠ [] := by
      rw [Operation.InsertsBetween]
      cases l₁ with
      | nil => simp
      | cons z l₁ =>
        have hnode := (List.nodup_cons.1 (List.nodup_middle.1 h.nodup)).1
        refine iff_of_true (fun he => hnode ?_) (List.cons_ne_nil _ _)
        exact List.mem_append_left _ (List.mem_of_head? he)
    rw [hnodes]
    refine ⟨hrep, ?_⟩
    have hlength : (l₁ ++ nodeToInsert :: node :: l₂).length = (l₁ ++ node :: l₂).length + 1 := by
      simp only [List.length_append, List.length_cons]
      omega
    rw [hlength]
    refine counted (hsize.trans ?_)
    simp only [hbetween, ne_eq, ite_not]
  | eraseNode node =>
    obtain ⟨l₁, l₂, rfl⟩ := List.append_of_mem hallowed
    obtain ⟨hrep, hsize⟩ := h.eraseNode
    have hnode := (List.nodup_cons.1 (List.nodup_middle.1 h.nodup)).1
    have hnodes : (Operation.eraseNode node).nodes (l₁ ++ node :: l₂) = l₁ ++ l₂ := by
      rw [Operation.nodes, List.erase_append_right _ fun h => hnode (List.mem_append_left _ h),
        List.erase_cons_head]
    rw [hnodes]
    refine ⟨hrep, ?_⟩
    have hlength : (l₁ ++ node :: l₂).length = (l₁ ++ l₂).length + 1 := by
      simp only [List.length_append, List.length_cons]
      omega
    have hsub : (s.list.size - 1).toNat = (2 ^ 64 - 1 + s.list.size.toNat) % 2 ^ 64 :=
      BitVec.toNat_sub _ _
    rw [hlength, Operation.run, hsize, hsub,
      if_neg (show ¬ Operation.InsertsBetween _ (.eraseNode node) from not_false)]
    omega

/-- A sequence of operations. -/
theorem represents_runAll {s : ListState} {l : List NodePointer} {ops : List Operation}
    (h : Represents s l) (hallowed : Operation.AllAllowed l ops) :
    Represents (Operation.runAll s ops) (Operation.nodesAfter l ops) ∧
      ((Operation.runAll s ops).list.size.toNat + Operation.insertedBetween l ops + l.length) %
          2 ^ 64 =
        (s.list.size.toNat + (Operation.nodesAfter l ops).length) % 2 ^ 64 := by
  induction ops generalizing s l with
  | nil => exact ⟨h, rfl⟩
  | cons op ops ih =>
    obtain ⟨hop, hops⟩ := hallowed
    obtain ⟨hrep, hsize⟩ := represents_run h hop
    obtain ⟨hrest, hsizes⟩ := ih hrep hops
    refine ⟨hrest, ?_⟩
    change ((Operation.runAll (op.run s) ops).list.size.toNat +
      ((if op.InsertsBetween l then 1 else 0) + Operation.insertedBetween (op.nodes l) ops) +
      l.length) % 2 ^ 64 =
        (s.list.size.toNat + (Operation.nodesAfter (op.nodes l) ops).length) % 2 ^ 64
    omega

/-- There are fewer nodes than addresses. -/
theorem Represents.length_lt {s : ListState} {l : List NodePointer} (h : Represents s l) :
    l.length < 2 ^ 64 := by
  have hnodup : ((0 :: l).map BitVec.toFin).Nodup :=
    (List.nodup_cons.2 ⟨h.nonzero, h.nodup⟩).map fun _ _ => BitVec.eq_of_toFin_eq
  have hle := hnodup.length_le_card
  rwa [List.length_map, List.length_cons, Fintype.card_fin] at hle

/-- From an empty list on, a sequence of operations leaves the links and the ends as they
should be, and with them the size exactly if the nodes inserted between two others are none,
or a multiple of 2^64. -/
theorem wellFormed_runAll_iff (links : Links NodePointer) (ops : List Operation)
    (h : Operation.AllAllowed [] ops) :
    Represents (Operation.runAll (ListState.initList links) ops) (Operation.nodesAfter [] ops) ∧
      (WellFormed (Operation.runAll (ListState.initList links) ops) (Operation.nodesAfter [] ops) ↔
        Operation.insertedBetween [] ops % 2 ^ 64 = 0) := by
  obtain ⟨hrep, hsize⟩ := represents_runAll (.nil links) h
  have hlt := hrep.length_lt
  have hsizeLt := (Operation.runAll (ListState.initList links) ops).list.size.isLt
  have hzero : (ListState.initList links).list.size.toNat = 0 := rfl
  rw [hzero, List.length_nil] at hsize
  refine ⟨hrep, fun hw => ?_, fun hbetween => ⟨hrep, ?_⟩⟩
  · have := hw.size
    omega
  · omega

/-- Nodes at the ends are counted. -/
theorem wellFormed_runAll_ends : WellFormed
    (Operation.runAll (ListState.initList ⟨fun _ => 0, fun _ => 0⟩) [.pushBack 16,
      .insertAfter 16 32, .eraseNode 16])
    [32] :=
  (wellFormed_runAll_iff ⟨fun _ => 0, fun _ => 0⟩ [.pushBack 16, .insertAfter 16 32, .eraseNode 16]
    (by simp [Operation.AllAllowed, Operation.Allowed, Operation.nodes])).2.2 rfl

/-- A node between two others is not counted. -/
theorem not_wellFormed : ¬ ∀ links ops, Operation.AllAllowed [] ops →
    WellFormed (Operation.runAll (ListState.initList links) ops) (Operation.nodesAfter [] ops) := by
  intro h
  have hsize := (h ⟨fun _ => 0, fun _ => 0⟩ [.pushBack 16, .pushBack 32, .insertAfter 16 48]
    (by simp [Operation.AllAllowed, Operation.Allowed, Operation.nodes])).size
  exact absurd hsize (by decide)

end Diana.Containers
