import Diana.Orthia.Expressions

/-!
# Missing operands

An entry of a sum has no node from the sign before it up to its value. `Finalize` looks only at the
nodes from the current one to the root, so an entry stays empty for good when the current node
leaves it otherwise. Two steps do so: a bracket that closes a sum behind a sign, and a sign behind a
factor in brackets.

* `Node.Complete`: every entry of every node has a node;
* `leavesGap`: the two steps;
* `captureAddressExp_complete`: without them, `Calc` runs only on a complete tree.
-/

namespace Diana.Expressions

open Diana.Orthia (Byte)

/-- Every entry of every node has a node. -/
inductive Node.Complete : Node → Prop
  | address (a : Value) : Complete (.address a)
  | name (s : NameState) : Complete (.name s .missing)
  | childNode (s : NameState) {child : Node} : Complete child → Complete (.name s child)
  | function (started finalized : Bool) {childs : List (Bool × Node)} :
    (∀ c ∈ childs, Complete c.2) → Complete (.function started finalized childs)
  | multiply {childs : List (Option Bool × Node)} :
  (∀ c ∈ childs, Complete c.2) → Complete (.multiply childs)
  | summ (s : SummState) {childs : List (Bool × Node)} :
  (∀ c ∈ childs, Complete c.2) → Complete (.summ s childs)

/-! ## The value of a complete tree -/

section

variable (R : NameResolver)

theorem runtime_ne_nullPointer {x : Except String Value} :
    x.mapError Error.runtime ≠ .error .nullPointer := by
  cases x <;> exact nofun

theorem sum_ne_nullPointer {childs : List (Bool × Node)}
    (h : ∀ c ∈ childs, c.2.calc R ≠ .error .nullPointer) : sum R childs ≠ .error .nullPointer := by
  induction childs with
  | nil => exact nofun
  | cons c childs ih =>
    obtain ⟨positive, node⟩ := c
    have hnode := h _ List.mem_cons_self
    have hsum := ih fun c hc => h c (List.mem_cons_of_mem _ hc)
    unfold sum
    cases hr : sum R childs with
    | error e => exact fun he => hsum (hr.trans he)
    | ok result =>
      cases hv : node.calc R with
      | error e => exact fun he => hnode (hv.trans he)
      | ok value => exact nofun

theorem product_ne_nullPointer {childs : List (Option Bool × Node)}
    (h : ∀ c ∈ childs, c.2.calc R ≠ .error .nullPointer) :
    product R childs ≠ .error .nullPointer := by
  induction childs with
  | nil => exact nofun
  | cons c childs ih =>
    obtain ⟨multiply, node⟩ := c
    have hnode := h _ List.mem_cons_self
    have hproduct := ih fun c hc => h c (List.mem_cons_of_mem _ hc)
    cases childs with
    | nil => exact hnode
    | cons c childs =>
      obtain ⟨operator, before⟩ := c
      unfold product
      cases hr : product R ((operator, before) :: childs) with
      | error e => exact fun he => hproduct (hr.trans he)
      | ok result =>
        cases hv : node.calc R with
        | error e => exact fun he => hnode (hv.trans he)
        | ok value =>
          dsimp only [bind, Except.bind]
          split_ifs <;> exact nofun

/-- No null pointer is dereferenced in a complete tree. -/
theorem Node.Complete.calc_ne_nullPointer {node : Node} (h : node.Complete) :
    node.calc R ≠ .error .nullPointer := by
  induction h with
  | address a => exact nofun
  | name s => exact runtime_ne_nullPointer
  | childNode s _ ih =>
    unfold Node.calc
    split_ifs
    · exact runtime_ne_nullPointer
    · exact ih
  | @function started finalized childs _ ih =>
    rcases childs with _ | ⟨⟨hasComma, node⟩, _ | ⟨c, childs⟩⟩
    · exact nofun
    · have hnode := ih _ List.mem_cons_self
      unfold Node.calc
      cases hv : node.calc R with
      | error e => exact fun he => hnode (hv.trans he)
      | ok value => exact runtime_ne_nullPointer
    · exact nofun
  | multiply _ ih =>
    unfold Node.calc
    split_ifs
    · exact nofun
    · exact product_ne_nullPointer R ih
  | summ s _ ih => exact sum_ne_nullPointer R ih

end

/-! ## The tree between two tokens -/

namespace Node

def IsSumm (node : Node) : Prop := ∃ s childs, node = .summ s childs

/-- What a factor without an operator behind it is. -/
inductive Factor : Node → Prop
  | address (a : Value) : Factor (.address a)
  | name (s : NameState) : Factor (.name s .missing)
  | summ {s : SummState} {childs : List (Bool × Node)} :
    s.unary = true → (s.withBrackets = true ∨ childs ≠ []) → Factor (.summ s childs)

/-- A complete tree of the shape that the nodes give it. -/
inductive Sound : Node → Prop
  | address (a : Value) : Sound (.address a)
  | name (s : NameState) : Sound (.name s .missing)
  | childNode (s : NameState) {child : Node} : child.IsSumm → Sound child → Sound (.name s child)
  | function (started finalized : Bool) {childs : List (Bool × Node)} :
    (∀ c ∈ childs, c.2.IsSumm) → (∀ c ∈ childs, Sound c.2) → Sound
    (.function started finalized childs)
  | multiply {childs : List (Option Bool × Node)} : (∀ c ∈ childs, Sound c.2) →
    (∀ c rest, childs = (none, c) :: rest → c.Factor) → Sound (.multiply childs)
  | summ (s : SummState) {childs : List (Bool × Node)} :
  (∀ c ∈ childs, Sound c.2) → Sound (.summ s childs)

/-- The current node: its last entry may be missing, also that of an argument which
has just been made. -/
inductive Ready : Node → Prop
  | sound {node : Node} : node.Sound → Ready node
  | summ (s : SummState) (positive : Bool) {childs : List (Bool × Node)} :
  (∀ c ∈ childs, c.2.Sound) →
    Ready (.summ s ((positive, .missing) :: childs))
  | argument (s : SummState) (positive : Bool) {childs args : List (Bool × Node)} :
  (∀ c ∈ childs, c.2.Sound) →
    (∀ c ∈ args, c.2.IsSumm) → (∀ c ∈ args, c.2.Sound) →
    Ready (.function true false ((false, .summ s ((positive, .missing) :: childs)) :: args))

/-- The current node is ready, and the rest of the tree is sound. -/
inductive Spine : Nat → Node → Prop
  | ready {node : Node} : node.Ready → Spine 0 node
  | name (s : NameState) {depth : Nat} {child : Node} :
  child.IsSumm → Spine depth child → Spine (depth + 1) (.name s child)
  | function (started finalized hasComma : Bool) {depth : Nat} {child : Node}
  {childs : List (Bool × Node)} :
    child.IsSumm → (∀ c ∈ childs, c.2.IsSumm) → (∀ c ∈ childs, c.2.Sound) → Spine depth child →
    Spine (depth + 1) (.function started finalized ((hasComma, child) :: childs))
  | multiply {depth : Nat} {child : Node} {childs : List (Option Bool × Node)} :
  child.Factor → child.IsSumm →
    (∀ c ∈ childs, c.2.Sound) → Spine depth child → Spine (depth + 1)
    (.multiply ((none, child) :: childs))
  | summ (s : SummState) (positive : Bool) {depth : Nat} {child : Node}
  {childs : List (Bool × Node)} :
    (∀ c ∈ childs, c.2.Sound) → Spine depth child → Spine (depth + 1)
    (.summ s ((positive, child) :: childs))

/-- There is a node at the depth. -/
inductive Path : Nat → Node → Prop
  | here {node : Node} : node ≠ .missing → Path 0 node
  | name (s : NameState) {depth : Nat} {child : Node} :
  Path depth child → Path (depth + 1) (.name s child)
  | function (started finalized hasComma : Bool) {depth : Nat} {child : Node}
  {childs : List (Bool × Node)} :
    Path depth child → Path (depth + 1) (.function started finalized ((hasComma, child) :: childs))
  | multiply {depth : Nat} {child : Node} {childs : List (Option Bool × Node)} :
    Path depth child → Path (depth + 1) (.multiply ((none, child) :: childs))
  | summ (s : SummState) (positive : Bool) {depth : Nat} {child : Node}
  {childs : List (Bool × Node)} :
    Path depth child → Path (depth + 1) (.summ s ((positive, child) :: childs))

/-- What a node may become below another one. -/
def Keeps : Node → Node → Prop
  | .summ s childs, node => ∃ s' childs', node = .summ s' childs' ∧ s'.unary = s.unary ∧
    s'.withBrackets = s.withBrackets ∧ (childs ≠ [] → childs' ≠ [])
  | _, _ => True

variable {node node' : Node} {depth : Nat}

theorem Sound.complete (h : node.Sound) : node.Complete := by
  induction h with
  | address a => exact .address a
  | name s => exact .name s
  | childNode s _ _ ih => exact .childNode s ih
  | function started finalized _ _ ih => exact .function started finalized ih
  | multiply _ _ ih => exact .multiply ih
  | summ s _ ih => exact .summ s ih

theorem Sound.ne_missing (h : node.Sound) : node ≠ .missing := by
  rintro rfl
  cases h

theorem Sound.isMissing (h : node.Sound) : node.isMissing = false := by cases h <;> rfl

theorem IsSumm.keeps (h : node.IsSumm) (hk : node.Keeps node') : node'.IsSumm := by
  obtain ⟨s, childs, rfl⟩ := h
  obtain ⟨s', childs', rfl, -⟩ := hk
  exact ⟨s', childs', rfl⟩

theorem Factor.keeps (h : node.Factor) (hs : node.IsSumm) (hk : node.Keeps node') :
    node'.Factor := by
  obtain ⟨s, childs, rfl⟩ := hs
  obtain ⟨s', childs', rfl, hunary, hbrackets, hne⟩ := hk
  cases h with
  | summ hu hb => exact .summ (hunary.trans hu) (hb.imp hbrackets.trans hne)

theorem Path.pred (h : node.Path (depth + 1)) : node.Path depth := by
  induction depth generalizing node with
  | zero => cases h <;> exact .here nofun
  | succ depth ih =>
    cases h with
    | name s h => exact .name s (ih h)
    | function _ _ _ h => exact .function _ _ _ (ih h)
    | multiply h => exact .multiply (ih h)
    | summ _ _ h => exact .summ _ _ (ih h)

theorem Path.ne_missing (h : node.Path depth) : node ≠ .missing := by
  rintro rfl
  cases h with
  | here h => exact h rfl

/-- A node above another one may be the current one of a sound tree. -/
theorem Sound.spine (h : node.Sound) (hp : node.Path (depth + 1)) : node.Spine depth := by
  induction depth generalizing node with
  | zero => exact .ready (.sound h)
  | succ depth ih =>
    cases hp with
    | name s hp =>
      cases h with
      | name => exact absurd rfl hp.ne_missing
      | childNode _ hs h => exact .name s hs (ih h hp)
    | function _ _ _ hp =>
      cases h with
      | function _ _ hs h =>
        exact .function _ _ _ (hs _ List.mem_cons_self)
          (fun c hc => hs c (List.mem_cons_of_mem _ hc))
          (fun c hc => h c (List.mem_cons_of_mem _ hc)) (ih (h _ List.mem_cons_self) hp)
    | multiply hp =>
      cases h with
      | multiply h hfactor =>
        have hf := hfactor _ _ rfl
        refine .multiply hf ?_ (fun c hc => h c (List.mem_cons_of_mem _ hc))
          (ih (h _ List.mem_cons_self) hp)
        cases hf with
        | address => cases hp
        | name =>
          cases hp with
          | name _ hp => exact absurd rfl hp.ne_missing
        | summ => exact ⟨_, _, rfl⟩
    | summ _ _ hp =>
      cases h with
      | summ _ h =>
        exact .summ _ _ (fun c hc => h c (List.mem_cons_of_mem _ hc))
          (ih (h _ List.mem_cons_self) hp)

theorem sound_summ {s : SummState} {childs : List (Bool × Node)} :
    (Node.summ s childs).Sound ↔ ∀ c ∈ childs, c.2.Sound := by
  constructor
  · intro h
    cases h with
    | summ _ h => exact h
  · exact .summ s

theorem sound_multiply {childs : List (Option Bool × Node)} : (Node.multiply childs).Sound ↔
    (∀ c ∈ childs, c.2.Sound) ∧ ∀ c rest, childs = (none, c) :: rest → c.Factor := by
  constructor
  · intro h
    cases h with
    | multiply h hf => exact ⟨h, hf⟩
  · exact fun h => .multiply h.1 h.2

theorem sound_function {started finalized : Bool} {childs : List (Bool × Node)} :
    (Node.function started finalized childs).Sound ↔ (∀ c ∈ childs, c.2.IsSumm) ∧ ∀ c ∈ childs,
    c.2.Sound := by
  constructor
  · intro h
    cases h with
    | function _ _ hs h => exact ⟨hs, h⟩
  · exact fun h => .function _ _ h.1 h.2

theorem sound_emptySumm (s : SummState) :
    (Node.summ s []).Sound := .summ s fun _ h => absurd h List.not_mem_nil

theorem sound_newName (text : List Byte) : (newName text).Sound := .name _

end Node

/-! ## Answers -/

open Node

section

variable {σ : Type} {P : Node → Prop} {x y : σ} {node : Node} {childs : List (σ × Node)}

theorem forall_cons (hnode : P node) (h : ∀ c ∈ childs, P c.2) :
    ∀ c ∈ (x, node) :: childs, P c.2 := by
  intro c hc
  rcases List.mem_cons.1 hc with rfl | hc
  · exact hnode
  · exact h c hc

theorem forall_tail (h : ∀ c ∈ (x, node) :: childs, P c.2) : ∀ c ∈ childs, P c.2 :=
  fun c hc => h c (List.mem_cons_of_mem _ hc)

theorem forall_head (h : ∀ c ∈ (x, node) :: childs, P c.2) : P node := h _ List.mem_cons_self

end

/-- A plus or a minus. -/
def PlusMinus (t : Item) : Prop := t = .sign ['+'] ∨ t = .sign ['-']

/-- What the answer of a node to a token leaves: only a sign leaves an entry without a node. -/
inductive Follows (t : Item) (node : Node) : Answer → Prop
  | sent {depth : Nat} : node.Sound → node.Path depth → Follows t node (.sent depth)
  | parent {node' : Node} : node'.Sound → node.Keeps node' → Follows t node (.parent node')
  | here {node' : Node} {depth : Nat} :
  node'.Spine depth → node.Keeps node' → (¬ PlusMinus t → node'.Sound) →
    Follows t node (.here node' depth)

def Answered.Sat (Q : Answer → Prop) : Answered → Prop
  | .error e => e ≠ .nullPointer
  | .ok a => Q a

theorem sat_map {Q : Answer → Prop} {x : Except Error Unit} {a : Answer}
    (hx : x ≠ .error .nullPointer) (h : Q a) : Answered.Sat Q (x.map fun _ => a) := by
  cases x with
  | error e => exact fun he => hx (congrArg _ he)
  | ok _ => exact h

theorem Answered.Sat.lift {Q Q' : Answer → Prop} {set : Node → Node} {r : Answered} (h : r.Sat Q)
    (hQ : ∀ a, Q a → Q' (a.lift set)) : (r.lift set).Sat Q' := by
  cases r with
  | error e => exact h
  | ok a => exact hQ a h

section

variable {t : Item} {child : Node} {a : Answer}

theorem Follows.summ (h : Follows t child a) (s : SummState) (positive : Bool)
    {childs : List (Bool × Node)} (hs : ∀ c ∈ childs, c.2.Sound) :
    Follows t (.summ s ((positive, child) :: childs))
    (a.lift fun node => .summ s ((positive, node) :: childs)) := by
  have hk : ∀ node', (Node.summ s ((positive, child) :: childs)).Keeps
      (.summ s ((positive, node') :: childs)) :=
    fun _ => ⟨s, _, rfl, rfl, rfl, fun _ => nofun⟩
  cases h with
  | sent h hp => exact .sent (sound_summ.2 (forall_cons h hs)) (.summ _ _ hp)
  | parent h _ =>
    have hnode := (sound_summ (s := s)).2 (forall_cons (x := positive) h hs)
    exact .here (.ready (.sound hnode)) (hk _) fun _ => hnode
  | here h _ hq =>
    exact .here (.summ _ _ hs h) (hk _) fun ht => sound_summ.2 (forall_cons (hq ht) hs)

theorem Follows.name (h : Follows t child a) (hchild : child.IsSumm) (s : NameState) :
    Follows t (.name s child) (a.lift fun node => .name s node) := by
  cases h with
  | sent h hp => exact .sent (.childNode s hchild h) (.name s hp)
  | parent h hk =>
    have hnode := Sound.childNode s (hchild.keeps hk) h
    exact .here (.ready (.sound hnode)) trivial fun _ => hnode
  | here h hk hq =>
    exact .here (.name s (hchild.keeps hk) h) trivial fun ht =>
      .childNode s (hchild.keeps hk) (hq ht)

theorem Follows.function (h : Follows t child a) (hchild : child.IsSumm)
    (started finalized hasComma : Bool) {childs : List (Bool × Node)}
    (hi : ∀ c ∈ childs, c.2.IsSumm) (hs : ∀ c ∈ childs, c.2.Sound) :
    Follows t (.function started finalized ((hasComma, child) :: childs))
      (a.lift fun node => .function started finalized ((hasComma, node) :: childs)) := by
  have hsound : ∀ node', child.Keeps node' → node'.Sound →
      (Node.function started finalized ((hasComma, node') :: childs)).Sound :=
    fun _ hk h => sound_function.2 ⟨forall_cons (hchild.keeps hk) hi, forall_cons h hs⟩
  cases h with
  | sent h hp =>
    exact .sent (sound_function.2 ⟨forall_cons hchild hi, forall_cons h hs⟩) (.function _ _ _ hp)
  | parent h hk => exact .here (.ready (.sound (hsound _ hk h))) trivial fun _ => hsound _ hk h
  | here h hk hq =>
    exact .here (.function _ _ _ (hchild.keeps hk) hi hs h) trivial fun ht => hsound _ hk (hq ht)

theorem Follows.multiply (h : Follows t child a) (hchild : child.IsSumm) (hf : child.Factor)
    {childs : List (Option Bool × Node)} (hs : ∀ c ∈ childs, c.2.Sound) :
    Follows t (.multiply ((none, child) :: childs))
    (a.lift fun node => .multiply ((none, node) :: childs)) := by
  have hsound : ∀ node', node'.Factor → node'.Sound →
      (Node.multiply ((none, node') :: childs)).Sound :=
    fun _ hf h => sound_multiply.2 ⟨forall_cons h hs, fun _ _ he => by cases he; exact hf⟩
  cases h with
  | sent h hp => exact .sent (hsound _ hf h) (.multiply hp)
  | parent h hk =>
    have hnode := hsound _ (hf.keeps hchild hk) h
    exact .here (.ready (.sound hnode)) trivial fun _ => hnode
  | here h hk hq =>
    exact .here (.multiply (hf.keeps hchild hk) (hchild.keeps hk) hs h) trivial fun ht =>
      hsound _ (hf.keeps hchild hk) (hq ht)

end

/-! ## One node -/

section

variable {back : Bool} {t : Item} {forward : Answered} {s : SummState} {positive : Bool}
  {node : Node} {childs : List (Bool × Node)}

theorem addressAppend_sat (a : Value) (t : Item) :
    (addressAppend a t).Sat (Follows t (.address a)) := by
  unfold addressAppend
  split
  · exact .parent (.address a) trivial
  · exact nofun
  · exact .sent (.address a) (.here nofun)

theorem sound_newFunction : (Node.function false false []).Sound :=
  .function _ _ (fun _ h => absurd h List.not_mem_nil) fun _ h => absurd h List.not_mem_nil

/-- A sum whose last entry has no node, or which has no entry, takes a value. -/
theorem follows_value (hs : ∀ c ∈ childs, c.2.Sound) (hnode : node.Sound)
    {childs' : List (Bool × Node)} (t : Item) :
    Follows t (.summ s childs') (.here (.summ s ((positive, node) :: childs)) 0) := by
  have hsound : (Node.summ s ((positive, node) :: childs)).Sound := .summ _ (forall_cons hnode hs)
  exact .here (.ready (.sound hsound)) ⟨s, _, rfl, rfl, rfl, fun _ => nofun⟩ fun _ => hsound

theorem follows_below (hs : ∀ c ∈ childs, c.2.Sound) (hnode : node.Sound)
    {childs' : List (Bool × Node)} (t : Item) :
    Follows t (.summ s childs') (.here (.summ s ((positive, node) :: childs)) 1) := by
  have hsound : (Node.summ s ((positive, node) :: childs)).Sound := .summ _ (forall_cons hnode hs)
  exact .here (.summ _ _ hs (.ready (.sound hnode))) ⟨s, _, rfl, rfl, rfl, fun _ => nofun⟩ fun _ =>
    hsound

theorem follows_sign (hs : ∀ c ∈ childs, c.2.Sound) {childs' : List (Bool × Node)}
    (ht : PlusMinus t) :
    Follows t (.summ s childs') (.here (.summ s ((positive, .missing) :: childs)) 0) :=
  .here (.ready (.summ s positive hs)) ⟨s, _, rfl, rfl, rfl, fun _ => nofun⟩ fun h => absurd ht h

theorem summFinalize_of_missing (h : hasLast childs = false) :
    summFinalize s childs = .error .valueExpected := by
  unfold summFinalize
  rw [h]
  split_ifs with _ _ hlast
  · rfl
  · rfl
  · rfl
  · exact absurd rfl hlast

/-- A sum without a value for its last entry. -/
theorem summAppend_sat_missing {childs' : List (Bool × Node)} (hs : ∀ c ∈ childs, c.2.Sound)
    (hchilds : childs' = (positive, .missing) :: childs ∧ t ≠ .sign [')'] ∨ childs' = [] ∧
      childs = []) :
    (summAppend back s childs' t forward).Sat (Follows t (.summ s childs')) := by
  have hlast : hasLast childs' = false := by rcases hchilds with ⟨rfl, -⟩ | ⟨rfl, -⟩ <;> rfl
  have hfill : ∀ node, ∃ positive, fillLast node childs' = (positive, node) :: childs := by
    rcases hchilds with ⟨rfl, -⟩ | ⟨rfl, rfl⟩
    · exact fun node => ⟨positive, rfl⟩
    · exact fun node => ⟨true, rfl⟩
  unfold summAppend
  rw [if_neg fun h => Bool.false_ne_true (hlast.symm.trans h.2.2)]
  cases t with
  | eof =>
    dsimp only
    rw [summFinalize_of_missing hlast]
    exact nofun
  | poi =>
    obtain ⟨p, hp⟩ := hfill (.function false false [])
    unfold summAppendToken
    dsimp only
    rw [if_neg (ne_true_of_eq_false hlast), hp]
    exact follows_below hs sound_newFunction _
  | reservedWord =>
    unfold summAppendToken
    dsimp only
    rw [if_neg (ne_true_of_eq_false hlast)]
    exact nofun
  | name text =>
    obtain ⟨p, hp⟩ := hfill (newName text)
    unfold summAppendToken
    dsimp only
    rw [if_neg (ne_true_of_eq_false hlast), hp]
    exact follows_value hs (sound_newName text) _
  | literal value =>
    cases value with
    | none => exact nofun
    | some value =>
      obtain ⟨p, hp⟩ := hfill (.address value)
      unfold summAppendToken
      dsimp only
      rw [if_neg (ne_true_of_eq_false hlast), hp]
      exact follows_value hs (.address value) _
  | none => exact nofun
  | sign operator =>
    unfold summAppendSpecialSign
    dsimp only
    by_cases hsign : operator = ['+'] ∨ operator = ['-']
    · rw [if_pos hsign]
      have ht : PlusMinus (.sign operator) := hsign.imp (congrArg _) (congrArg _)
      rcases hchilds with ⟨rfl, -⟩ | ⟨rfl, rfl⟩
      · exact follows_sign hs ht
      · exact follows_sign hs ht
    rw [if_neg hsign]
    by_cases hopen : operator = ['(']
    · obtain ⟨p, hp⟩ := hfill (.summ ⟨false, true, false⟩ [])
      rw [if_pos hopen, hlast, hp]
      exact follows_below hs (sound_emptySumm _) _
    rw [if_neg hopen]
    by_cases hclose : operator = [')']
    · rw [if_pos hclose]
      rcases hchilds with ⟨rfl, hne⟩ | ⟨rfl, rfl⟩
      · exact absurd (congrArg _ hclose) hne
      · exact nofun
    rw [if_neg hclose, hlast]
    by_cases hmul : operator = ['/'] ∨ operator = ['*']
    · rw [if_pos hmul]
      rcases hchilds with ⟨rfl, -⟩ | ⟨rfl, rfl⟩ <;> exact nofun
    rw [if_neg hmul]
    by_cases hmark : operator = ['!']
    · rw [if_pos hmark, if_pos Bool.not_false]
      exact nofun
    · rw [if_neg hmark, if_pos Bool.not_false]
      exact nofun

/-- A sum with a value for its last entry. -/
theorem summAppend_sat_value (hnode : node.Sound) (hs : ∀ c ∈ childs, c.2.Sound)
    (hforward : t ≠ .sign [')'] → ¬ PlusMinus t → back = false → forward.Sat (Follows t node)) :
    (summAppend back s ((positive, node) :: childs) t forward).Sat
    (Follows t (.summ s ((positive, node) :: childs))) := by
  have hmissing := hnode.isMissing
  have hlast : hasLast ((positive, node) :: childs) = true := by
    unfold hasLast
    dsimp only
    rw [hmissing]
    rfl
  have hsound : (Node.summ s ((positive, node) :: childs)).Sound := .summ _ (forall_cons hnode hs)
  have hsent : Follows t (.summ s ((positive, node) :: childs)) (.sent 0) :=
    .sent hsound (.here nofun)
  have hasked : t ≠ .sign [')'] → ¬ PlusMinus t →
      Answered.Sat (Follows t (.summ s ((positive, node) :: childs)))
      (if back then .ok (.sent 0) else
        forward.lift fun node' => .summ s (setLast node' ((positive, node) :: childs))) := by
    intro hne hns
    cases back with
    | true => exact hsent
    | false => exact (hforward hne hns rfl).lift fun a ha => ha.summ s positive hs
  unfold summAppend
  by_cases hunary : s.unary ∧ !s.withBrackets ∧ hasLast ((positive, node) :: childs)
  · rw [if_pos hunary]
    exact hsent
  rw [if_neg hunary]
  cases t with
  | eof =>
    refine sat_map ?_ (.parent hsound ⟨s, _, rfl, rfl, rfl, id⟩)
    unfold summFinalize
    split_ifs <;> exact nofun
  | poi =>
    unfold summAppendToken
    dsimp only
    rw [if_pos hlast]
    exact hasked nofun (by unfold PlusMinus; exact nofun)
  | reservedWord =>
    unfold summAppendToken
    dsimp only
    rw [if_pos hlast]
    exact hasked nofun (by unfold PlusMinus; exact nofun)
  | name text =>
    unfold summAppendToken
    dsimp only
    rw [if_pos hlast]
    exact hasked nofun (by unfold PlusMinus; exact nofun)
  | literal value =>
    cases value with
    | none => exact nofun
    | some value =>
      unfold summAppendToken
      dsimp only
      rw [if_pos hlast]
      exact hasked nofun (by unfold PlusMinus; exact nofun)
  | none => exact nofun
  | sign operator =>
    unfold summAppendSpecialSign
    dsimp only
    by_cases hsign : operator = ['+'] ∨ operator = ['-']
    · rw [if_pos hsign, hmissing, if_neg Bool.false_ne_true]
      exact follows_sign (forall_cons hnode hs) (hsign.imp (congrArg _) (congrArg _))
    rw [if_neg hsign]
    have hns : ¬ PlusMinus (.sign operator) := fun h => hsign (h.imp Item.sign.inj Item.sign.inj)
    by_cases hopen : operator = ['(']
    · rw [if_pos hopen, if_pos hlast]
      exact nofun
    rw [if_neg hopen]
    by_cases hclose : operator = [')']
    · rw [if_pos hclose]
      split_ifs
      · exact hsent
      · exact .parent (.summ _ (forall_cons hnode hs)) ⟨_, _, rfl, rfl, rfl, id⟩
    rw [if_neg hclose]
    have hne : Item.sign operator ≠ .sign [')'] := fun h => hclose (Item.sign.inj h)
    by_cases hmul : operator = ['/'] ∨ operator = ['*']
    · rw [if_pos hmul, hmissing, if_neg Bool.false_ne_true]
      refine follows_below hs (.multiply
        (forall_cons hnode fun _ h => absurd h List.not_mem_nil) ?_) _
      exact fun _ _ h => nomatch h
    rw [if_neg hmul, hlast]
    by_cases hmark : operator = ['!']
    · rw [if_pos hmark, if_neg (ne_true_of_eq_false Bool.not_true)]
      cases back with
      | true => exact hsent
      | false =>
        rw [if_neg Bool.false_ne_true]
        have h := hforward hne hns rfl
        cases forward with
        | error e => exact h
        | ok a =>
          cases h with
          | sent => exact hsent
          | parent h _ => exact follows_value hs h _
          | here _ _ h => exact follows_value hs (h hns) _
    · rw [if_neg hmark, if_neg (ne_true_of_eq_false Bool.not_true)]
      exact hasked hne hns

end

theorem newSummAppend_sign {s : SummState} {operator : List Char}
    (h : operator = ['+'] ∨ operator = ['-']) (back : Bool) :
    newSummAppend back s (.sign operator) = .ok
    (.here (.summ s [(operator = ['+'], .missing)]) 0) := by
  unfold newSummAppend summAppend summAppendSpecialSign hasLast
  rw [if_neg fun h => Bool.false_ne_true h.2.2]
  dsimp only
  rw [if_pos h]

/-- A factor with a sign that has its value. -/
theorem unary_append {s : SummState} {childs : List (Bool × Node)} (h : (Node.summ s childs).Sound)
    (hunary : s.unary = true) (hbrackets : s.withBrackets = false) (hne : childs ≠ []) (back : Bool)
    (t : Item) : (Node.summ s childs).append back t = .ok (.sent 0) := by
  cases childs with
  | nil => exact absurd rfl hne
  | cons c childs =>
    obtain ⟨positive, node⟩ := c
    have hmissing := (forall_head (sound_summ.1 h)).isMissing
    unfold Node.append summAppend hasLast
    rw [if_pos ⟨hunary, by rw [hbrackets]; rfl, by dsimp only; rw [hmissing]; rfl⟩]

/-! ### The two steps -/

/-- The sum that a bracket reaches first has no value for its last entry. -/
def Node.lacksOperand : Node → Bool
  | .summ _ ((_, node) :: _) => node.isMissing
  | .function true false ((false, .summ _ ((_, node) :: _)) :: _) => node.isMissing
  | _ => false

/-- A product without an operator behind its last factor, which is in brackets. -/
def Node.behindGroup : Node → Bool
  | .multiply ((none, .summ s _) :: _) => s.withBrackets
  | _ => false

/-- The current node is left by this token with an entry that has no node. -/
def leavesGap (t : Item) (node : Node) : Bool :=
  (t = .sign [')'] && node.lacksOperand) ||
    ((t = .sign ['+'] || t = .sign ['-']) && node.behindGroup)

theorem Node.Sound.lacksOperand {node : Node} (h : node.Sound) : node.lacksOperand = false := by
  unfold Node.lacksOperand
  split
  · exact (forall_head (sound_summ.1 h)).isMissing
  · exact (forall_head (sound_summ.1 (forall_head (sound_function.1 h).2))).isMissing
  · rfl

theorem Node.IsSumm.behindGroup {node : Node} (h : node.IsSumm) : node.behindGroup = false := by
  obtain ⟨s, childs, rfl⟩ := h
  rfl

theorem Node.IsSumm.lacksOperand {node : Node} (h : node.IsSumm) (childs : List (Bool × Node)) :
    (Node.function true false ((false, node) :: childs)).lacksOperand = node.lacksOperand := by
  obtain ⟨s, childs', rfl⟩ := h
  cases childs' with
  | nil => rfl
  | cons c childs' => rfl

/-! ### Products, functions, names -/

section

variable {back : Bool} {t : Item}

/-- What is proved of the last entry of a node, which may be asked. -/
def Asked (back : Bool) (t : Item) (node : Node) : Prop :=
  node.Ready → (back = true → node.Sound) → ¬ (t = .sign [')'] ∧ node.lacksOperand = true) →
    (back = false → ¬ (PlusMinus t ∧ node.behindGroup = true)) →
    (node.append back t).Sat (Follows t node)

theorem Asked.sound {node : Node} (h : Asked back t node) (hnode : node.Sound)
    (hsign : ¬ (PlusMinus t ∧ node.behindGroup = true)) :
    (node.append back t).Sat (Follows t node) :=
  h (.sound hnode) (fun _ => hnode)
    (fun hc => Bool.false_ne_true (hnode.lacksOperand.symm.trans hc.2)) fun _ => hsign

theorem Asked.summ {node : Node} (h : Asked back t node) (hnode : node.Sound) (hs : node.IsSumm) :
    (node.append back t).Sat (Follows t node) :=
  h.sound hnode fun hc => Bool.false_ne_true (hs.behindGroup.symm.trans hc.2)

variable {node : Node} {childs : List (Option Bool × Node)} {operator : List Char}

theorem multiplyAppendFactor_sat {multiply : Option Bool} {new : Node}
    (h : (Node.multiply ((multiply, node) :: childs)).Sound) (hf : new.Factor) (hnew : new.Sound)
    (ht : (∃ text, t = .name text) ∨ ∃ value, t = .literal (some value))
    (hasked : Asked back t node) :
    (multiplyAppendFactor back ((multiply, node) :: childs) new (node.append back t)).Sat
      (Follows t (.multiply ((multiply, node) :: childs))) := by
  obtain ⟨hall, hfactor⟩ := sound_multiply.1 h
  have hnode := forall_head hall
  unfold multiplyAppendFactor pending
  dsimp only
  cases multiply with
  | some multiply =>
    have halloc : allocFactor new ((some multiply, node) :: childs) =
        .ok ((none, new) :: (some multiply, node) :: childs) := by
      unfold allocFactor
      split
      · rename_i heq
        cases heq
        exact absurd rfl hnode.ne_missing
      · rfl
    have hsound : (Node.multiply ((none, new) :: (some multiply, node) :: childs)).Sound :=
      .multiply (forall_cons hnew hall) fun c rest hc => by cases hc; exact hf
    rw [if_neg (show ¬ (!(some multiply).isSome) = true from nofun), halloc]
    exact .here (.ready (.sound hsound)) trivial fun _ => hsound
  | none =>
    rw [if_pos (show (!(none : Option Bool).isSome) = true from rfl)]
    have hc := hfactor _ _ rfl
    cases back with
    | true => exact .sent h (.here nofun)
    | false =>
      rw [if_neg Bool.false_ne_true]
      have hpath : (Node.multiply ((none, node) :: childs)).Path 1 :=
        .multiply (.here hnode.ne_missing)
      cases hc with
      | address a =>
        rcases ht with ⟨text, rfl⟩ | ⟨value, rfl⟩ <;> exact .sent h hpath
      | name s =>
        rcases ht with ⟨text, rfl⟩ | ⟨value, rfl⟩ <;> exact .sent h hpath
      | @summ s childs' hu hb =>
        have hs : (Node.summ s childs').IsSumm := ⟨_, _, rfl⟩
        exact (hasked.summ hnode hs).lift fun a ha =>
          ha.multiply hs (.summ hu hb) (forall_tail hall)

theorem multiplyAppendMark_sat {multiply : Option Bool}
    (h : (Node.multiply ((multiply, node) :: childs)).Sound)
    (hop : operator ∈ [['+'], ['-'], ['('], ['!']])
    (hsign : back = false → ¬ (PlusMinus (.sign operator) ∧
      (Node.multiply ((multiply, node) :: childs)).behindGroup = true))
    (hasked : Asked back (.sign operator) node) :
    (multiplyAppendMark back ((multiply, node) :: childs) (node.append back (.sign operator))).Sat
      (Follows (.sign operator) (.multiply ((multiply, node) :: childs))) := by
  obtain ⟨hall, hfactor⟩ := sound_multiply.1 h
  have hnode := forall_head hall
  unfold multiplyAppendMark
  by_cases hpending : pending ((multiply, node) :: childs) = true ∨
    (!hasLast ((multiply, node) :: childs)) = true
  · rw [if_pos hpending]
    exact nofun
  rw [if_neg hpending]
  cases back with
  | true => exact .sent h (.here nofun)
  | false =>
    rw [if_neg Bool.false_ne_true]
    cases multiply with
    | some multiply => exact absurd (.inl rfl) hpending
    | none =>
      have hself : Follows (.sign operator) (.multiply ((none, node) :: childs))
          (.here (.multiply ((none, node) :: childs)) 0) :=
        .here (.ready (.sound h)) trivial fun _ => h
      have hc := hfactor _ _ rfl
      cases hc with
      | address a => exact hself
      | name s =>
        simp only [List.mem_cons, List.not_mem_nil, or_false] at hop
        rcases hop with rfl | rfl | rfl | rfl <;> exact nofun
      | @summ s childs' hu hb =>
        by_cases hpm : PlusMinus (.sign operator)
        · -- the factor is not in brackets
          have hbrackets : s.withBrackets = false :=
            Bool.eq_false_iff.2 fun hb => hsign rfl ⟨hpm, hb⟩
          have hne := hb.resolve_left (ne_true_of_eq_false hbrackets)
          rw [unary_append hnode hu hbrackets hne]
          exact hself
        · have hs : (Node.summ s childs').IsSumm := ⟨_, _, rfl⟩
          have hanswer := hasked.summ hnode hs
          have hkept : ∀ node', (Node.summ s childs').Keeps node' → node'.Sound →
              Follows (.sign operator) (.multiply ((none, .summ s childs') :: childs))
                (.here (.multiply ((none, node') :: childs)) 0) := by
            intro node' hk hn
            have hsound : (Node.multiply ((none, node') :: childs)).Sound :=
              .multiply (forall_cons hn (forall_tail hall)) fun c rest hc => by
                cases hc
                exact (Factor.summ hu hb).keeps hs hk
            exact .here (.ready (.sound hsound)) trivial fun _ => hsound
          cases hr : (Node.summ s childs').append false (.sign operator) with
          | error e =>
            rw [hr] at hanswer
            exact hanswer
          | ok a =>
            rw [hr] at hanswer
            cases hanswer with
            | sent => exact hself
            | parent hn hk => exact hkept _ hk hn
            | here _ hk hn => exact hkept _ hk (hn hpm)

theorem allocFactor_of_sound {childs : List (Option Bool × Node)} (h : ∀ c ∈ childs, c.2.Sound)
    (new : Node) : allocFactor new childs = .ok ((none, new) :: childs) := by
  unfold allocFactor
  split
  · exact absurd rfl (forall_head h).ne_missing
  · rfl

/-- A product gets a factor with a sign or in brackets. -/
theorem multiplyAppend_unary {childs : List (Option Bool × Node)} (h : ∀ c ∈ childs, c.2.Sound)
    (hne : childs ≠ []) (hpending : pending childs = true) (hop : operator ∈ [['+'], ['-'], ['(']])
    (forward : Answered) :
    (multiplyAppendSpecialSign back childs operator forward).Sat
    (Follows (.sign operator) (.multiply childs)) := by
  have hspine : ∀ s childs', (Node.summ s childs').Factor → (Node.summ s childs').Ready →
      (Node.multiply ((none, .summ s childs') :: childs)).Spine 1 :=
    fun s childs' hf hr => .multiply hf ⟨s, childs', rfl⟩ h (.ready hr)
  have hempty : childs.isEmpty = false := Bool.eq_false_iff.2 fun he => hne (List.isEmpty_iff.1 he)
  unfold multiplyAppendSpecialSign
  simp only [List.mem_cons, List.not_mem_nil, or_false] at hop
  rw [if_neg (by rcases hop with rfl | rfl | rfl <;> decide), if_pos hop, hempty,
    if_neg Bool.false_ne_true, if_pos hpending]
  dsimp only
  rw [allocFactor_of_sound h]
  dsimp only
  by_cases hbracket : operator = ['(']
  · subst hbracket
    have hf : (Node.summ ⟨true, true, false⟩ []).Factor := .summ rfl (.inl rfl)
    have hsound : (Node.multiply ((none, .summ ⟨true, true, false⟩ []) :: childs)).Sound :=
      .multiply (forall_cons (sound_emptySumm _) h) fun c rest hc => by cases hc; exact hf
    exact .here (hspine _ _ hf (.sound (sound_emptySumm _))) trivial fun _ => hsound
  · have hsign : operator = ['+'] ∨ operator = ['-'] := by
      rcases hop with hop | hop | hop
      · exact .inl hop
      · exact .inr hop
      · exact absurd hop hbracket
    rw [decide_eq_false hbracket, if_pos Bool.not_false, newSummAppend_sign hsign]
    exact .here (hspine _ _ (.summ rfl (.inr (List.cons_ne_nil _ _)))
      (.summ _ _ fun _ h => absurd h List.not_mem_nil)) trivial
      fun hpm => absurd (hsign.imp (congrArg _) (congrArg _)) hpm

theorem multiplyAppend_sat {multiply : Option Bool}
    (h : (Node.multiply ((multiply, node) :: childs)).Sound)
    (hsign : back = false → ¬ (PlusMinus t ∧
      (Node.multiply ((multiply, node) :: childs)).behindGroup = true))
    (hasked : Asked back t node) :
    ((Node.multiply ((multiply, node) :: childs)).append back t).Sat
    (Follows t (.multiply ((multiply, node) :: childs))) := by
  obtain ⟨hall, hfactor⟩ := sound_multiply.1 h
  have hsent : Follows t (.multiply ((multiply, node) :: childs)) (.sent 0) := .sent h (.here nofun)
  unfold Node.append multiplyAppend
  cases t with
  | eof =>
    refine sat_map ?_ (.parent h trivial)
    unfold multiplyFinalize
    split_ifs <;> exact nofun
  | poi => exact hsent
  | reservedWord => exact hsent
  | none => exact hsent
  | name text =>
    exact multiplyAppendFactor_sat h (.name _) (sound_newName text) (.inl ⟨text, rfl⟩) hasked
  | literal value =>
    cases value with
    | none => exact nofun
    | some value =>
      exact multiplyAppendFactor_sat h (.address value) (.address value) (.inr ⟨value, rfl⟩) hasked
  | sign operator =>
    dsimp only
    by_cases hmul : operator = ['*'] ∨ operator = ['/']
    · unfold multiplyAppendSpecialSign
      rw [if_pos hmul]
      dsimp only
      split_ifs
      · exact nofun
      · have hsound : (Node.multiply ((some (operator = ['*']), node) :: childs)).Sound :=
          .multiply (forall_cons (forall_head hall) (forall_tail hall)) fun _ _ hc => nomatch hc
        exact .here (.ready (.sound hsound)) trivial fun _ => hsound
    by_cases hop : operator = ['+'] ∨ operator = ['-'] ∨ operator = ['(']
    · by_cases hpending : pending ((multiply, node) :: childs) = true
      · exact multiplyAppend_unary hall nofun hpending (by simpa using hop) _
      · unfold multiplyAppendSpecialSign
        rw [if_neg hmul, if_pos hop, if_neg hpending]
        refine multiplyAppendMark_sat h ?_ hsign hasked
        rcases hop with rfl | rfl | rfl <;> decide
    · unfold multiplyAppendSpecialSign
      rw [if_neg hmul, if_neg hop]
      split_ifs with hmark
      · exact multiplyAppendMark_sat h (by rw [hmark]; decide) hsign hasked
      · exact hsent

theorem multiplyAppend_nil (hsound : (Node.multiply []).Sound) :
    ((Node.multiply []).append back t).Sat (Follows t (.multiply [])) := by
  have hsent : Follows t (.multiply []) (.sent 0) := .sent hsound (.here nofun)
  have hfactor : ∀ {new : Node}, new.Sound → new.Factor →
      Follows t (.multiply []) (.here (.multiply [(none, new)]) 0) := by
    intro new hnew hf
    have hsound : (Node.multiply [(none, new)]).Sound :=
      .multiply (forall_cons hnew fun _ h => absurd h List.not_mem_nil) fun c rest hc => by
        cases hc; exact hf
    exact .here (.ready (.sound hsound)) trivial fun _ => hsound
  unfold Node.append multiplyAppend
  cases t with
  | eof => exact nofun
  | poi => exact hsent
  | reservedWord => exact hsent
  | none => exact hsent
  | name text => exact hfactor (sound_newName text) (.name _)
  | literal value =>
    cases value with
    | none => exact nofun
    | some value => exact hfactor (.address value) (.address value)
  | sign operator =>
    unfold multiplyAppendSpecialSign
    dsimp only
    by_cases hmul : operator = ['*'] ∨ operator = ['/']
    · rw [if_pos hmul]
      exact nofun
    rw [if_neg hmul]
    by_cases hop : operator = ['+'] ∨ operator = ['-'] ∨ operator = ['(']
    · rw [if_pos hop]
      exact nofun
    rw [if_neg hop]
    split_ifs
    · exact nofun
    · exact hsent

end

section

variable {back : Bool} {t : Item} {started finalized hasComma : Bool} {node : Node}
  {childs : List (Bool × Node)}

theorem createArgument_sat (h : (Node.function true false childs).Sound) :
    (createArgument back true false childs t).Sat (Follows t (.function true false childs)) := by
  obtain ⟨hsumm, hall⟩ := sound_function.1 h
  have halloc : ∀ c rest, childs ≠ (c, .missing) :: rest := by
    rintro c rest rfl
    exact (forall_head hall).ne_missing rfl
  have hmade : ∀ node, (Node.summ ⟨false, false, false⟩ []).Keeps node → node.Sound →
      Follows t (.function true false childs)
      (.here (.function true false ((false, node) :: childs)) 0) := by
    rintro node ⟨s, childs', rfl, -⟩ hn
    have hsound : (Node.function true false ((false, .summ s childs') :: childs)).Sound :=
      .function _ _ (forall_cons ⟨s, childs', rfl⟩ hsumm) (forall_cons hn hall)
    exact .here (.ready (.sound hsound)) trivial fun _ => hsound
  unfold createArgument
  dsimp only
  split
  · exact absurd rfl (halloc _ _)
  by_cases hsign : PlusMinus t
  · -- the value of the argument is still to come
    obtain ⟨operator, rfl, hop⟩ : ∃ operator,
        t = .sign operator ∧ (operator = ['+'] ∨ operator = ['-']) := by
      rcases hsign with rfl | rfl
      · exact ⟨_, rfl, .inl rfl⟩
      · exact ⟨_, rfl, .inr rfl⟩
    rw [newSummAppend_sign hop]
    exact .here (.ready (.argument _ _ (fun _ h => absurd h List.not_mem_nil) hsumm hall)) trivial
      fun h => absurd hsign h
  · have hnew : (newSummAppend back ⟨false, false, false⟩ t).Sat
        (Follows t (.summ ⟨false, false, false⟩ [])) :=
      @summAppend_sat_missing _ _ _ _ true _ _ (fun _ h => absurd h List.not_mem_nil)
        (.inr ⟨rfl, rfl⟩)
    cases hr : newSummAppend back ⟨false, false, false⟩ t with
    | error e =>
      rw [hr] at hnew
      exact hnew
    | ok a =>
      rw [hr] at hnew
      cases hnew with
      | sent => exact .sent h (.here nofun)
      | parent hn hk => exact hmade _ hk hn
      | here _ hk hn => exact hmade _ hk (hn hsign)

/-- What a function does with a token that its last argument is not asked for. -/
theorem functionAppendSpecialSign_sat (h : (Node.function started finalized childs).Sound)
    (operator : List Char) : (functionAppendSpecialSign started finalized childs operator).Sat
      (Follows (.sign operator) (.function started finalized childs)) := by
  obtain ⟨hsumm, hall⟩ := sound_function.1 h
  have hsent : Follows (.sign operator) (.function started finalized childs) (.sent 0) :=
    .sent h (.here nofun)
  unfold functionAppendSpecialSign
  cases childs with
  | nil =>
    have hstart : (Node.function true finalized []).Sound := .function _ _ hsumm hall
    dsimp only
    split_ifs
    · exact nofun
    · exact .here (.ready (.sound hstart)) trivial fun _ => hstart
    · exact nofun
    · exact nofun
    · exact nofun
    · exact hsent
  | cons c childs =>
    have hset : ∀ started finalized hasComma,
        (Node.function started finalized ((hasComma, c.2) :: childs)).Sound :=
      fun _ _ _ => .function _ _ (forall_cons (forall_head hsumm) (forall_tail hsumm))
        (forall_cons (forall_head hall) (forall_tail hall))
    dsimp only
    split_ifs
    · exact nofun
    · exact .here (.ready (.sound (hset _ _ _))) trivial fun _ => hset _ _ _
    · exact nofun
    · exact nofun
    · exact .parent (hset _ _ _) trivial
    · exact nofun
    · exact nofun
    · exact .here (.ready (.sound (hset _ _ _))) trivial fun _ => hset _ _ _
    · exact hsent

theorem functionAppend_sat
    (hr : (Node.function started finalized ((hasComma, node) :: childs)).Ready)
    (hback : back = true → (Node.function started finalized ((hasComma, node) :: childs)).Sound)
    (hclose : ¬ (t = .sign [')'] ∧
      (Node.function started finalized ((hasComma, node) :: childs)).lacksOperand = true))
    (hasked : Asked back t node) :
    ((Node.function started finalized ((hasComma, node) :: childs)).append back t).Sat
      (Follows t (.function started finalized ((hasComma, node) :: childs))) := by
  obtain ⟨hs, hi, hall, hready⟩ : node.IsSumm ∧ (∀ c ∈ childs, c.2.IsSumm) ∧
      (∀ c ∈ childs, c.2.Sound) ∧ node.Ready := by
    cases hr with
    | sound h =>
      obtain ⟨hi, hall⟩ := sound_function.1 h
      exact ⟨forall_head hi, forall_tail hi, forall_tail hall, .sound (forall_head hall)⟩
    | argument s positive h hi hall => exact ⟨⟨_, _, rfl⟩, hi, hall, .summ _ _ h⟩
  have hsound : (started = true → finalized = false → hasComma = true ∨ back = true) →
      (Node.function started finalized ((hasComma, node) :: childs)).Sound := by
    intro h
    cases hr with
    | sound h => exact h
    | argument => exact hback ((h rfl rfl).resolve_left Bool.false_ne_true)
  unfold Node.append functionAppend
  by_cases hnew : t ≠ .eof ∧ started = true ∧ (!finalized) = true ∧
    argumentEnded ((hasComma, node) :: childs) = true
  · obtain ⟨_, rfl, hf, hended⟩ := hnew
    rw [if_pos ⟨‹_›, rfl, hf, hended⟩]
    obtain rfl : finalized = false := by simpa using hf
    cases back with
    | true => exact nofun
    | false =>
      rw [if_neg Bool.false_ne_true]
      exact createArgument_sat (hsound fun _ _ => .inl hended)
  rw [if_neg hnew]
  by_cases hforward : t ≠ .eof ∧ started = true ∧ (!finalized) = true ∧ (!back) = true
  · rw [if_pos hforward]
    obtain ⟨hne, rfl, hf, hb⟩ := hforward
    obtain rfl : finalized = false := by simpa using hf
    obtain rfl : back = false := by simpa using hb
    obtain rfl : hasComma = false := Bool.eq_false_iff.2 fun h => hnew ⟨hne, rfl, rfl, h⟩
    rw [hs.lacksOperand] at hclose
    refine (hasked hready nofun hclose fun _ h => ?_).lift fun a ha =>
      ha.function hs true false false hi hall
    exact Bool.false_ne_true (hs.behindGroup.symm.trans h.2)
  rw [if_neg hforward]
  have hrest : t ≠ .eof → (Node.function started finalized ((hasComma, node) :: childs)).Sound := by
    refine fun hne => hsound fun hst hfin => .inr (Bool.of_not_eq_false fun hb => ?_)
    exact hforward ⟨hne, hst, by rw [hfin]; rfl, by rw [hb]; rfl⟩
  cases t with
  | eof =>
    dsimp only
    split_ifs with hopen
    · exact nofun
    · exact .parent (hsound fun hst hfin => absurd (.inr (by rw [hfin]; rfl)) hopen) trivial
  | sign operator => exact functionAppendSpecialSign_sat (hrest nofun) operator
  | poi => exact .sent (hrest nofun) (.here nofun)
  | reservedWord => exact .sent (hrest nofun) (.here nofun)
  | name text => exact .sent (hrest nofun) (.here nofun)
  | literal value => exact .sent (hrest nofun) (.here nofun)
  | none => exact .sent (hrest nofun) (.here nofun)

theorem functionAppend_nil (h : (Node.function started finalized []).Sound) :
    ((Node.function started finalized []).append back t).Sat
    (Follows t (.function started finalized [])) := by
  unfold Node.append functionAppend
  by_cases hnew : t ≠ .eof ∧ started = true ∧ (!finalized) = true ∧
    argumentEnded ([] : List (Bool × Node)) = true
  · rw [if_pos hnew]
    obtain ⟨_, rfl, hf, _⟩ := hnew
    obtain rfl : finalized = false := by simpa using hf
    cases back with
    | true => exact nofun
    | false => exact createArgument_sat h
  rw [if_neg hnew, if_neg fun hf => hnew ⟨hf.1, hf.2.1, hf.2.2.1, rfl⟩]
  cases t with
  | eof =>
    dsimp only
    split_ifs
    · exact nofun
    · exact .parent h trivial
  | sign operator => exact functionAppendSpecialSign_sat h operator
  | poi => exact .sent h (.here nofun)
  | reservedWord => exact .sent h (.here nofun)
  | name text => exact .sent h (.here nofun)
  | literal value => exact .sent h (.here nofun)
  | none => exact .sent h (.here nofun)

theorem nameAppend_sat {s : NameState} {child : Node} (h : (Node.name s child).Sound)
    (hasked : Asked back t child) :
    ((Node.name s child).append back t).Sat (Follows t (.name s child)) := by
  have hsent : Follows t (.name s child) (.sent 0) := .sent h (.here nofun)
  have hset : ∀ s', (Node.name s' child).Sound := by
    intro s'
    cases h with
    | name => exact .name s'
    | childNode _ hs h => exact .childNode s' hs h
  unfold Node.append nameAppend
  by_cases hforward : t ≠ .eof ∧ (!back) = true ∧ (!child.isMissing) = true
  · rw [if_pos hforward]
    cases h with
    | name => exact absurd hforward.2.2 nofun
    | childNode _ hs h => exact (hasked.summ h hs).lift fun a ha => ha.name hs s
  rw [if_neg hforward]
  cases t with
  | eof =>
    dsimp only
    split_ifs
    · exact nofun
    · exact .parent h trivial
  | poi => exact nofun
  | reservedWord => exact nofun
  | none => exact nofun
  | name text => exact hsent
  | literal value => exact hsent
  | sign operator =>
    have hgroup : ∀ s' : NameState, (Node.name s' (.summ ⟨false, true, false⟩ [])).Sound :=
      fun s' => .childNode s' ⟨_, _, rfl⟩ (sound_emptySumm _)
    dsimp only [nameAppendSpecialSign]
    split_ifs
    · exact nofun
    · exact .here (.ready (.sound (hset _))) trivial fun _ => hset _
    · exact nofun
    · exact nofun
    · exact .here (.ready (.sound (hgroup _))) trivial fun _ => hgroup _
    · exact hsent
    · exact .parent (hset _) trivial
    · exact nofun

/-! ### Any node -/

theorem append_sat (node : Node) : Asked back t node := by
  induction node using Node.append.induct with
  | case1 =>
    intro hr
    cases hr with
    | sound h => cases h
  | case2 a => exact fun _ _ _ _ => addressAppend_sat a t
  | case3 s child ih =>
    intro hr _ _ _
    cases hr with
    | sound h => exact nameAppend_sat h ih
  | case4 started finalized =>
    intro hr _ _ _
    cases hr with
    | sound h => exact functionAppend_nil h
  | case5 started finalized hasComma node childs ih =>
    exact fun hr hback hclose _ => functionAppend_sat hr hback hclose ih
  | case6 =>
    intro hr _ _ _
    cases hr with
    | sound h => exact multiplyAppend_nil h
  | case7 operator node childs ih =>
    intro hr _ _ hsign
    cases hr with
    | sound h => exact multiplyAppend_sat h hsign ih
  | case8 s =>
    exact fun _ _ _ _ => @summAppend_sat_missing _ _ _ _ true _ _
      (fun _ h => absurd h List.not_mem_nil) (.inr ⟨rfl, rfl⟩)
  | case9 s positive node childs ih =>
    intro hr _ hclose _
    cases hr with
    | sound h =>
      have hnode := forall_head (sound_summ.1 h)
      refine summAppend_sat_value hnode (forall_tail (sound_summ.1 h)) fun hne hns _ => ?_
      exact ih.sound hnode fun hc => hns hc.1
    | summ _ _ h => exact summAppend_sat_missing h (.inl ⟨rfl, fun ht => hclose ⟨ht, rfl⟩⟩)

end

/-! ### A node that is asked by its child -/

/-- It does not crash, and it sends nothing but itself. -/
def Answered.Alone (r : Answered) :
    Prop := r ≠ .error .nullPointer ∧ ∀ depth, r = .ok (.sent depth) → depth = 0

theorem alone_error {e : Error} (h : e ≠ .nullPointer) : Answered.Alone (.error e) :=
  ⟨fun he => h (Except.error.inj he), nofun⟩

theorem alone_sent : Answered.Alone (.ok (.sent 0)) := ⟨nofun, fun _ h => by cases h; rfl⟩

theorem alone_parent (node : Node) : Answered.Alone (.ok (.parent node)) := ⟨nofun, nofun⟩

theorem alone_here (node : Node) (depth : Nat) :
    Answered.Alone (.ok (.here node depth)) := ⟨nofun, nofun⟩

theorem alone_map {α : Type} {x : Except Error α} {f : α → Answer} (hx : x ≠ .error .nullPointer)
    (hf : ∀ a, Answered.Alone (.ok (f a))) : Answered.Alone (x.map f) := by
  cases x with
  | error e => exact alone_error fun he => hx (congrArg _ he)
  | ok a => exact hf a

section

variable {t : Item} {forward : Answered}

theorem summAppend_alone (s : SummState) (childs : List (Bool × Node)) :
    (summAppend true s childs t forward).Alone := by
  unfold summAppend
  split_ifs
  · exact alone_sent
  cases t with
  | eof =>
    refine alone_map ?_ fun _ => alone_parent _
    unfold summFinalize
    split_ifs <;> exact nofun
  | sign operator =>
    simp only [summAppendSpecialSign, ↓reduceIte]
    repeat' split
    all_goals first
      | exact alone_error nofun
      | exact alone_sent
      | exact alone_here _ _
      | exact alone_parent _
  | _ =>
    simp only [summAppendToken, ↓reduceIte]
    repeat' split
    all_goals first | exact alone_error nofun | exact alone_sent | exact alone_here _ _

theorem allocFactor_ne_nullPointer (node : Node) (childs : List (Option Bool × Node)) :
    allocFactor node childs ≠ .error .nullPointer := by
  unfold allocFactor
  split <;> exact nofun

theorem multiplyAppend_alone (childs : List (Option Bool × Node)) :
    (multiplyAppend true childs t forward).Alone := by
  have hfactor : ∀ node, (multiplyAppendFactor true childs node forward).Alone := by
    intro node
    unfold multiplyAppendFactor
    rw [if_pos rfl]
    split_ifs
    · exact alone_sent
    · exact alone_map (allocFactor_ne_nullPointer _ _) fun _ => alone_here _ _
  have hmark : (multiplyAppendMark true childs forward).Alone := by
    unfold multiplyAppendMark
    rw [if_pos rfl]
    split_ifs
    · exact alone_error nofun
    · exact alone_sent
  unfold multiplyAppend
  cases t with
  | eof =>
    refine alone_map ?_ fun _ => alone_parent _
    unfold multiplyFinalize
    split_ifs <;> exact nofun
  | poi => exact alone_sent
  | reservedWord => exact alone_sent
  | none => exact alone_sent
  | name text => exact hfactor _
  | literal value =>
    cases value with
    | none => exact alone_error nofun
    | some value => exact hfactor _
  | sign operator =>
    dsimp only [multiplyAppendSpecialSign]
    by_cases hmul : operator = ['*'] ∨ operator = ['/']
    · rw [if_pos hmul]
      repeat' split
      all_goals first | exact alone_error nofun | exact alone_here _ _
    rw [if_neg hmul]
    by_cases hop : operator = ['+'] ∨ operator = ['-'] ∨ operator = ['(']
    · rw [if_pos hop]
      split_ifs with _ _ hbracket
      · exact alone_error nofun
      · cases hr : allocFactor (.summ ⟨true, decide (operator = ['(']), false⟩ []) childs with
        | error e =>
          exact alone_error fun he => allocFactor_ne_nullPointer _ _ (hr.trans (congrArg _ he))
        | ok childs' =>
          have hsign : operator = ['+'] ∨ operator = ['-'] := by
            rcases hop with hop | hop | hop
            · exact .inl hop
            · exact .inr hop
            · rw [hop] at hbracket
              cases hbracket
          dsimp only
          rw [newSummAppend_sign hsign]
          exact alone_here _ _
      · cases hr : allocFactor (.summ ⟨true, decide (operator = ['(']), false⟩ []) childs with
        | error e =>
          exact alone_error fun he => allocFactor_ne_nullPointer _ _ (hr.trans (congrArg _ he))
        | ok childs' => exact alone_here _ _
      · exact hmark
    rw [if_neg hop]
    split_ifs
    · exact hmark
    · exact alone_sent

theorem functionAppend_alone (started finalized : Bool) (childs : List (Bool × Node)) :
    (functionAppend true started finalized childs t forward).Alone := by
  unfold functionAppend
  by_cases hnew : t ≠ .eof ∧ started = true ∧ (!finalized) = true ∧ argumentEnded childs = true
  · rw [if_pos hnew]
    exact alone_error nofun
  rw [if_neg hnew, if_neg fun h => Bool.false_ne_true h.2.2.2]
  cases t with
  | eof =>
    dsimp only
    split_ifs
    · exact alone_error nofun
    · exact alone_parent _
  | sign operator =>
    dsimp only [functionAppendSpecialSign]
    repeat' split
    all_goals first
      | exact alone_error nofun
      | exact alone_sent
      | exact alone_here _ _
      | exact alone_parent _
  | _ => exact alone_sent

theorem nameAppend_alone (s : NameState) (child : Node) :
    (nameAppend true s child t forward).Alone := by
  unfold nameAppend
  rw [if_neg fun h => Bool.false_ne_true h.2.1]
  cases t with
  | sign operator =>
    dsimp only [nameAppendSpecialSign]
    repeat' split
    all_goals first
      | exact alone_error nofun
      | exact alone_sent
      | exact alone_here _ _
      | exact alone_parent _
  | eof =>
    dsimp only
    split_ifs
    · exact alone_error nofun
    · exact alone_parent _
  | name text => exact alone_sent
  | literal value => exact alone_sent
  | _ => exact alone_error nofun

theorem append_alone {node : Node} (hne : node ≠ .missing) (t : Item) :
    (node.append true t).Alone := by
  unfold Node.append
  split
  · exact absurd rfl hne
  · unfold addressAppend
    split
    · exact alone_parent _
    · exact alone_error nofun
    · exact alone_sent
  · exact nameAppend_alone _ _
  · exact functionAppend_alone _ _ _
  · exact functionAppend_alone _ _ _
  · exact multiplyAppend_alone _
  · exact multiplyAppend_alone _
  · exact summAppend_alone _ _
  · exact summAppend_alone _ _

end

/-! ## A step -/

/-- The node at a depth. -/
def Node.at : (depth : Nat) → Node → Node
  | 0, node => node
  | depth + 1, node => Node.at depth node.last

section

variable {back : Bool} {t : Item} {node root : Node} {depth : Nat}

theorem appendAt_sat (h : root.Spine depth) (hback : back = true → root.Sound)
    (hclose : ¬ (t = .sign [')'] ∧ (root.at depth).lacksOperand = true))
    (hsign : back = false → ¬ (PlusMinus t ∧ (root.at depth).behindGroup = true)) :
    (root.appendAt back t depth).Sat (Follows t root) := by
  induction h with
  | ready h => exact append_sat _ h hback hclose hsign
  | name s hs _ ih =>
    refine (ih (fun hb => ?_) hclose hsign).lift fun a ha => ha.name hs s
    cases hback hb with
    | name => obtain ⟨_, _, h⟩ := hs; cases h
    | childNode _ _ h => exact h
  | function started finalized hasComma hs hi hall _ ih =>
    refine (ih (fun hb => ?_) hclose hsign).lift fun a ha =>
      ha.function hs started finalized hasComma hi hall
    exact forall_head (sound_function.1 (hback hb)).2
  | multiply hf hs hall _ ih =>
    refine (ih (fun hb => ?_) hclose hsign).lift fun a ha => ha.multiply hs hf hall
    exact forall_head (sound_multiply.1 (hback hb)).1
  | summ s positive hall _ ih =>
    refine (ih (fun hb => ?_) hclose hsign).lift fun a ha => ha.summ s positive hall
    exact forall_head (sound_summ.1 (hback hb))

theorem appendAt_ne_nullPointer (h : root.Path depth) :
    root.appendAt true t depth ≠ .error .nullPointer := by
  have hlift : ∀ {r : Answered} (set : Node → Node),
      r ≠ .error .nullPointer → r.lift set ≠ .error .nullPointer := by
    intro r set hr
    cases r with
    | error e => exact hr
    | ok a => exact nofun
  induction h with
  | here hne => exact (append_alone hne t).1
  | name _ _ ih => exact hlift _ ih
  | function _ _ _ _ ih => exact hlift _ ih
  | multiply _ ih => exact hlift _ ih
  | summ _ _ _ ih => exact hlift _ ih

/-- The node at a depth of a sound tree is sound. -/
theorem Node.Sound.at (h : root.Sound) (hp : root.Path depth) : (root.at depth).Sound := by
  induction hp with
  | here => exact h
  | name s hp ih =>
    cases h with
    | name => exact absurd rfl hp.ne_missing
    | childNode _ _ h => exact ih h
  | function _ _ _ _ ih => exact ih (forall_head (sound_function.1 h).2)
  | multiply _ ih => exact ih (forall_head (sound_multiply.1 h).1)
  | summ _ _ _ ih => exact ih (forall_head (sound_summ.1 h))

end

/-! ## Runs -/

section

variable {t : Item} {root : Node} {depth : Nat} {s s' : State} {ts : List Item}

theorem appendToParents_ne_nullPointer (hp : root.Path depth) :
    appendToParents t root depth ≠ .error .nullPointer := by
  induction depth with
  | zero => exact nofun
  | succ depth ih =>
    have hask := appendAt_ne_nullPointer (t := t) hp.pred
    unfold appendToParents
    cases hr : root.appendAt true t depth with
    | error e => exact fun he => hask (hr.trans (congrArg _ (Except.error.inj he)))
    | ok a =>
      cases a with
      | sent => exact ih hp.pred
      | parent => exact nofun
      | here => exact nofun

/-- The state behind a token: only a sign leaves an entry without a node. -/
def Behind (t : Item) (s : State) : Prop := s.root.Spine s.depth ∧ (¬ PlusMinus t → s.root.Sound)

theorem Behind.parent (h : root.Sound) : Behind t ⟨root, 0⟩ := ⟨.ready (.sound h), fun _ => h⟩

theorem appendToParents_sat (h : root.Sound) (hp : root.Path depth)
    (hs : appendToParents t root depth = .ok (some s')) : Behind t s' := by
  induction depth with
  | zero => cases hs
  | succ depth ih =>
    have hask : (root.appendAt true t depth).Sat (Follows t root) :=
      appendAt_sat (h.spine hp) (fun _ => h)
        (fun hc => Bool.false_ne_true ((h.at hp.pred).lacksOperand.symm.trans hc.2)) nofun
    unfold appendToParents at hs
    cases hr : root.appendAt true t depth with
    | error e =>
      rw [hr] at hs
      cases hs
    | ok a =>
      rw [hr] at hs hask
      cases hask with
      | sent => exact ih hp.pred hs
      | parent h =>
        cases hs
        exact .parent h
      | here h _ hq =>
        cases hs
        exact ⟨h, hq⟩

theorem leavesGap_iff {node : Node} : leavesGap t node = true ↔
    (t = .sign [')'] ∧ node.lacksOperand = true) ∨ (PlusMinus t ∧ node.behindGroup = true) := by
  unfold leavesGap PlusMinus
  simp only [Bool.or_eq_true, Bool.and_eq_true, decide_eq_true_eq]

/-- What is asked of an answer when a step leaves a gap. -/
def Answer.Sent (node : Node) (a : Answer) : Prop := ∀ k, a = .sent k → node.Path k

theorem append_of_lacksOperand {node : Node} (h : node.lacksOperand = true) :
    (node.append false (.sign [')'])).Sat (Answer.Sent node) := by
  have hsumm : ∀ s positive childs forward, ∀ r,
    r = summAppend false s ((positive, .missing) :: childs) (.sign [')']) forward →
      r = .ok (.sent 0) ∨ ∃ node, r = .ok (.parent node) := by
    rintro s positive childs forward r rfl
    unfold summAppend summAppendSpecialSign hasLast
    rw [if_neg fun h => Bool.false_ne_true h.2.2]
    dsimp only
    rw [if_neg (by decide), if_neg (by decide), if_pos rfl]
    split_ifs
    · exact .inl rfl
    · exact .inr ⟨_, rfl⟩
  unfold Node.lacksOperand at h
  split at h
  · rename_i s positive child childs
    cases child with
    | missing =>
      rcases hsumm s positive childs _ _ rfl with hr | ⟨node, hr⟩
      · exact Eq.mpr (congrArg (Answered.Sat _) hr) fun k hk => by cases hk; exact .here nofun
      · exact Eq.mpr (congrArg (Answered.Sat _) hr) fun k hk => nomatch hk
    | _ => cases h
  · rename_i s positive child childs args
    cases child with
    | missing =>
      have hforward : (Node.function true false
        ((false, .summ s ((positive, .missing) :: childs)) :: args)).append false
          (.sign [')']) = Answered.lift (fun node => .function true false ((false, node) :: args))
            ((Node.summ s ((positive, .missing) :: childs)).append false (.sign [')'])) := by
        rw [Node.append]
        unfold functionAppend
        rw [if_neg (fun h => Bool.false_ne_true h.2.2.2), if_pos ⟨nofun, rfl, rfl, rfl⟩]
        rfl
      rw [hforward]
      rcases hsumm s positive childs _ _ rfl with hr | ⟨node, hr⟩
      · rw [show (Node.summ s ((positive, .missing) :: childs)).append false
          (.sign [')']) = _ from hr]
        intro k hk
        cases hk
        exact .function _ _ _ (.here nofun)
      · rw [show (Node.summ s ((positive, .missing) :: childs)).append false
          (.sign [')']) = _ from hr]
        exact fun k hk => nomatch hk
    | _ => cases h
  · cases h

theorem append_of_behindGroup {node : Node} (ht : PlusMinus t) (h : node.behindGroup = true) :
    (node.append false t).Sat (Answer.Sent node) := by
  obtain ⟨operator, rfl, hop⟩ : ∃ operator,
      t = .sign operator ∧ (operator = ['+'] ∨ operator = ['-']) := by
    rcases ht with rfl | rfl
    · exact ⟨_, rfl, .inl rfl⟩
    · exact ⟨_, rfl, .inr rfl⟩
  unfold Node.behindGroup at h
  split at h
  · rename_i s childs rest
    -- the factor takes the sign
    have hsumm : ∃ node', (Node.summ s childs).append false (.sign operator) =
        .ok (.here node' 0) := by
      have htaken : ∀ forward, ∃ node',
          summAppend false s childs (.sign operator) forward = .ok (.here node' 0) := by
        intro forward
        unfold summAppend summAppendSpecialSign
        rw [if_neg fun hc => by rw [h] at hc; exact Bool.false_ne_true hc.2.1]
        dsimp only
        rw [if_pos hop]
        cases childs with
        | nil => exact ⟨_, rfl⟩
        | cons c childs =>
          dsimp only
          split_ifs
          · exact ⟨_, rfl⟩
          · exact ⟨_, rfl⟩
      unfold Node.append
      split
      all_goals rename_i heq; cases heq
      · exact htaken _
      · exact htaken _
    obtain ⟨node', hnode⟩ := hsumm
    have hmul : ∃ r, (Node.multiply ((none, .summ s childs) :: rest)).append false
        (.sign operator) = .ok (.here r 0) := by
      refine ⟨.multiply ((none, node') :: rest), ?_⟩
      rw [Node.append, hnode]
      unfold multiplyAppend multiplyAppendSpecialSign multiplyAppendMark
      rcases hop with rfl | rfl <;> rfl
    obtain ⟨r, hr⟩ := hmul
    rw [hr]
    exact fun k hk => nomatch hk
  · cases h

theorem appendAt_of_sent (h : root.Spine depth)
    (ha : ((root.at depth).append false t).Sat (Answer.Sent (root.at depth))) :
    (root.appendAt false t depth).Sat (Answer.Sent root) := by
  have hlift : ∀ {node child : Node} {set : Node → Node} {a : Answer},
    (∀ k, child.Path k → node.Path (k + 1)) →
      Answer.Sent child a → Answer.Sent node (a.lift set) := by
    intro node child set a hp ha k hk
    cases a with
    | sent k' =>
      cases hk
      exact hp _ (ha _ rfl)
    | parent => cases hk
    | here => cases hk
  induction h with
  | ready => exact ha
  | name s _ _ ih => exact (ih ha).lift fun a => hlift fun k => .name s
  | function started finalized hasComma _ _ _ _ ih =>
    exact (ih ha).lift fun a => hlift fun k => .function _ _ _
  | multiply _ _ _ _ ih => exact (ih ha).lift fun a => hlift fun k => .multiply
  | summ s positive _ _ ih => exact (ih ha).lift fun a => hlift fun k => .summ s positive

/-- A step crashes in no case, and without a gap the current node is behind it. -/
theorem appendToken_sat (h : s.root.Spine s.depth) : appendToken t s ≠ .error .nullPointer ∧
    ∀ s', appendToken t s = .ok (some s') → leavesGap t (s.root.at s.depth) = false →
    Behind t s' := by
  unfold appendToken
  by_cases hgap : leavesGap t (s.root.at s.depth) = true
  · have hnode : ((s.root.at s.depth).append false t).Sat (Answer.Sent (s.root.at s.depth)) := by
      rcases leavesGap_iff.1 hgap with ⟨rfl, hlacks⟩ | ⟨hsign, hgroup⟩
      · exact append_of_lacksOperand hlacks
      · exact append_of_behindGroup hsign hgroup
    refine ⟨?_, fun _ _ hno => absurd (hno.symm.trans hgap) Bool.false_ne_true⟩
    have hask := appendAt_of_sent h hnode
    cases hr : s.root.appendAt false t s.depth with
    | error e =>
      rw [hr] at hask
      exact fun he => hask (Except.error.inj he)
    | ok a =>
      rw [hr] at hask
      cases a with
      | sent k => exact appendToParents_ne_nullPointer (hask k rfl)
      | parent => exact nofun
      | here => exact nofun
  · have hnone := fun hc => hgap (leavesGap_iff.2 hc)
    have hask := @appendAt_sat false _ _ _ h nofun (fun hc => hnone (.inl hc)) fun _ hc =>
        hnone (.inr hc)
    cases hr : s.root.appendAt false t s.depth with
    | error e =>
      rw [hr] at hask
      exact ⟨fun he => hask (Except.error.inj he), nofun⟩
    | ok a =>
      rw [hr] at hask
      cases hask with
      | sent hs hp =>
        exact ⟨appendToParents_ne_nullPointer hp, fun s' hs' _ => appendToParents_sat hs hp hs'⟩
      | parent h =>
        refine ⟨nofun, fun s' hs' _ => ?_⟩
        cases hs'
        exact .parent h
      | here h _ hq =>
        refine ⟨nofun, fun s' hs' _ => ?_⟩
        cases hs'
        exact ⟨h, hq⟩

/-- No step that is taken leaves a gap. -/
def gapFree : List Item → State → Bool
  | [], _ => true
  | t :: ts, s =>
    match appendToken t s with
    | .ok (some s') => !leavesGap t (s.root.at s.depth) && gapFree ts s'
    | _ => true

theorem appendTokens_sat (h : s.root.Spine s.depth) (hgap : gapFree (ts ++ [.eof]) s = true) :
    appendTokens (ts ++ [.eof]) s ≠ .error .nullPointer ∧
      ∀ s', appendTokens (ts ++ [.eof]) s = .ok s' → s'.root.Spine s'.depth ∧ s'.root.Sound := by
  induction ts generalizing s with
  | nil =>
    obtain ⟨hcrash, hstep⟩ := appendToken_sat (t := .eof) h
    dsimp only [List.nil_append, appendTokens]
    cases hr : appendToken .eof s with
    | error e => exact ⟨fun he => hcrash (hr.trans (congrArg _ (Except.error.inj he))), nofun⟩
    | ok r =>
      cases r with
      | none => exact ⟨nofun, nofun⟩
      | some s₁ =>
        have hbehind := hstep s₁ hr rfl
        refine ⟨nofun, fun s' hs' => ?_⟩
        cases hs'
        exact ⟨hbehind.1, hbehind.2 (by unfold PlusMinus; exact nofun)⟩
  | cons t ts ih =>
    obtain ⟨hcrash, hstep⟩ := appendToken_sat (t := t) h
    dsimp only [List.cons_append, appendTokens]
    dsimp only [List.cons_append, gapFree] at hgap
    cases hr : appendToken t s with
    | error e => exact ⟨fun he => hcrash (hr.trans (congrArg _ (Except.error.inj he))), nofun⟩
    | ok r =>
      cases r with
      | none => exact ⟨nofun, nofun⟩
      | some s₁ =>
        rw [hr] at hgap
        obtain ⟨hno, hgap⟩ := Bool.and_eq_true_iff.1 hgap
        exact ih (hstep s₁ hr (by simpa using hno)).1 hgap

/-! ### The end -/

theorem append_eof {back : Bool} {node : Node} {k : Nat}
    (h : node.append back .eof = .ok (.sent k)) : k = 0 := by
  have hmap : ∀ {x : Except Error Unit} {node : Node},
      x.map (fun _ => Answer.parent node) ≠ .ok (.sent k) := by
    intro x node
    cases x <;> exact nofun
  unfold Node.append at h
  split at h
  · cases h
  · cases h
  · unfold nameAppend at h
    rw [if_neg fun h => h.1 rfl] at h
    dsimp only at h
    split_ifs at h
    cases h
  · unfold functionAppend at h
    rw [if_neg fun h => h.1 rfl, if_neg fun h => h.1 rfl] at h
    dsimp only at h
    split_ifs at h
    cases h
  · unfold functionAppend at h
    rw [if_neg fun h => h.1 rfl, if_neg fun h => h.1 rfl] at h
    dsimp only at h
    split_ifs at h
    cases h
  · unfold multiplyAppend at h
    exact absurd h hmap
  · unfold multiplyAppend at h
    exact absurd h hmap
  · unfold summAppend at h
    split_ifs at h
    · cases h
      rfl
    · exact absurd h hmap
  · unfold summAppend at h
    split_ifs at h
    · cases h
      rfl
    · exact absurd h hmap

theorem appendAt_eof {k : Nat} (h : root.appendAt false .eof depth = .ok (.sent k)) :
    k = depth := by
  induction depth generalizing root k with
  | zero => exact append_eof h
  | succ depth ih =>
    unfold Node.appendAt at h
    cases hr : root.last.appendAt false .eof depth with
    | error e =>
      rw [hr] at h
      cases h
    | ok a =>
      rw [hr] at h
      cases a with
      | sent k' =>
        cases h
        rw [ih hr]
      | parent => cases h
      | here => cases h

theorem finalizeTurns_sat {n : Nat} (h : s.root.Spine s.depth) (hs : s.root.Sound) :
    finalizeTurns .eof n s ≠ .error .nullPointer ∧ ∀ s', finalizeTurns .eof n s = .ok s' →
    s'.root.Sound := by
  induction n generalizing s with
  | zero =>
    refine ⟨nofun, fun s' hs' => ?_⟩
    cases hs'
    exact hs
  | succ n ih =>
    unfold finalizeTurns
    split_ifs
    · refine ⟨nofun, fun s' hs' => ?_⟩
      cases hs'
      exact hs
    have hns : ¬ PlusMinus .eof := by unfold PlusMinus; exact nofun
    have hask := @appendAt_sat false .eof _ _ h nofun (fun hc => nomatch hc.1) fun _ hc => hns hc.1
    cases hr : s.root.appendAt false .eof s.depth with
    | error e =>
      rw [hr] at hask
      exact ⟨fun he => hask (Except.error.inj he), nofun⟩
    | ok a =>
      rw [hr] at hask
      cases hask with
      | sent hs' _ =>
        rw [appendAt_eof hr]
        exact ih h hs
      | parent h => exact ih (.ready (.sound h)) h
      | here h _ hq => exact ih h (hq hns)

end

/-- The value is calculated on a complete tree only, and no null pointer is dereferenced. -/
def EvaluatedOrRejected (R : NameResolver) (ts : List Item) : Prop :=
  (∀ root, calcRoot ts = .ok root → root.Complete) ∧ captureAddressExp R ts ≠ .error .nullPointer

/-- A run without a step that leaves a gap: at the end every entry has its node. -/
theorem captureAddressExp_complete (R : NameResolver) (ts : List Item)
    (hgap : gapFree (ts ++ [.eof]) createRootNode = true) : EvaluatedOrRejected R ts := by
  have hroot : createRootNode.root.Spine createRootNode.depth := .ready (.sound (sound_emptySumm _))
  obtain ⟨hcrash, htokens⟩ := appendTokens_sat hroot hgap
  have hcalc : calcRoot ts ≠ .error .nullPointer ∧ ∀ root,
      calcRoot ts = .ok root → root.Complete := by
    unfold calcRoot
    cases hr : appendTokens (ts ++ [.eof]) createRootNode with
    | error e => exact ⟨fun he => hcrash (hr.trans (congrArg _ (Except.error.inj he))), nofun⟩
    | ok s =>
      obtain ⟨hspine, hsound⟩ := htokens s hr
      obtain ⟨hcrash, hturns⟩ := finalizeTurns_sat (n := maxDepth) hspine hsound
      change finalizeAll .eof s ≠ _ ∧ ∀ root, finalizeAll .eof s = _ → _
      unfold finalizeAll
      cases hf : finalizeTurns .eof maxDepth s with
      | error e => exact ⟨fun he => hcrash (hf.trans (congrArg _ (Except.error.inj he))), nofun⟩
      | ok s' =>
        dsimp only [bind, Except.bind]
        split_ifs
        · exact ⟨nofun, nofun⟩
        · refine ⟨nofun, fun root hroot => ?_⟩
          cases hroot
          exact (hturns s' hf).complete
  refine ⟨hcalc.2, ?_⟩
  unfold captureAddressExp
  cases hr : calcRoot ts with
  | error e => exact fun he => hcalc.1 (hr.trans (congrArg _ (Except.error.inj he)))
  | ok root => exact (hcalc.2 root hr).calc_ne_nullPointer R

/-- No name is known. -/
def noNames : NameResolver :=
  ⟨fun _ => .error "", fun _ => .error "", fun _ => 0, fun _ => Nat.zero_le _⟩

/-- The tokens of `(1+2)`. -/
theorem captureAddressExp_complete_sum :
    EvaluatedOrRejected noNames
    [.sign ['('], .literal (some 1), .sign ['+'], .literal (some 2), .sign [')']] :=
  captureAddressExp_complete noNames _ (by decide +kernel)

/-- `(1+)` -/
theorem not_evaluatedOrRejected : ¬ ∀ R ts, EvaluatedOrRejected R ts := by
  intro h
  exact (h noNames [.sign ['('], .literal (some 1), .sign ['+'], .sign [')']]).2 (by decide +kernel)

end Diana.Expressions
