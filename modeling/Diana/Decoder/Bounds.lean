import Diana.Decoder.Search

/-!
# The accesses of the search

Which keys of a line and which states a turn of `Diana_ParseCmdImpl` looks at, and
when all of them exist.

* `keyAccesses`, `stackAccesses`: the accesses of a turn; `InBounds`: those of a run are all in
  bounds;
* `Node.mark`: a table whose search stops where it looks at the key before the keys of a line;
* `step_mark`: until then the two searches go together.
-/

namespace Diana.Decoder

open Diana.Lib

variable {c : Context} {it : Nat}

/-! ## Accesses -/

/-- `key[index]` of a line with `count` keys. -/
structure Access where
  index : Int
  count : Nat
  deriving DecidableEq, Repr

def Access.inBounds (a : Access) : Prop := 0 ≤ a.index ∧ a.index < a.count

/-- The keys the loop over a LINE looks at, up to the one it stops at. -/
def scanned (c : Context) (it : Nat) {n : Nat} (opcode : Fin n → Byte) (object : Fin n → Node) :
    List (Fin n) → List (Fin n)
  | [] => []
  | i :: rest =>
    i :: if opcode i = c.cache it then
      match dispatchKey c it (object i) with
      | .rejected => scanned c it opcode object rest
      | _ => []
    else scanned c it opcode object rest

/-- The accesses of that loop from the key `next` on. -/
def lineAccesses (c : Context) (it : Nat) {n : Nat} (opcode : Fin n → Byte) (object : Fin n → Node)
    (next : Nat) : List Access :=
  (scanned c it opcode object ((List.finRange n).drop next)).map fun i => ⟨i.val, n⟩

/-- The accesses to the keys of a LINE just pushed for the same opcode: `position` is still -1. -/
def pushedAccesses (c : Context) (it : Nat) : Node → List Access
  | .line _ front n opcode object =>
    ⟨-1, n⟩ :: if front.opcode = c.cache it ∧ front.null = false then []
      else lineAccesses c it opcode object 0
  | _ => []

/-- The keys `FindNextCmdKey` looks at in a turn. -/
def keyAccesses (c : Context) (s : Search) : List Access :=
  match s.states.top.line with
  | .line _ _ _ opcode object => lineAccesses c s.it opcode object s.states.top.next
  | .index _ object =>
    ⟨(c.cache s.it).toNat, 256⟩ :: if (c.cache s.it).toNat < s.states.top.next then []
      else
        match dispatchKey c s.it (object (c.cache s.it).toFin) with
        | .line line _ true => pushedAccesses c s.it line
        | _ => []
  | _ => []

/-- One more state, where a line is pushed. -/
def pushes : Option (Nat × Dispatch) → Bool
  | some (_, .line ..) => true
  | _ => false

/-- What a turn finds behind the keys of the current state, and where the state goes on after it. -/
def look (c : Context) (it : Nat) (f : Frame) : Option (Nat × Dispatch) :=
  match f.line with
  | .line _ _ n opcode object =>
    (scanKeys c it opcode object ((List.finRange n).drop f.next)).map fun x => (x.1 + 1, x.2)
  | .index _ object =>
    if (c.cache it).toNat < f.next then none
    else some ((c.cache it).toNat + 1, dispatchKey c it (object (c.cache it).toFin))
  | _ => none

/-- The line a turn pushes for the same opcode. -/
def pushedSame (c : Context) (s : Search) : Option Node :=
  match s.states.top.line, look c s.it s.states.top with
  | .index .., some (_, .line line _ true) => some line
  | _, _ => none

/-- The states a turn looks at: the current one, the one it pushes, and the one it pushes from that.
The state `FindNextCmdKey_Rollback` goes back to is below the current one. -/
def stackAccesses (c : Context) (s : Search) : List Nat :=
  let current := s.states.below.length
  let pushed := if pushes (look c s.it s.states.top) then [current + 1] else []
  let again :=
    match pushedSame c s with
    | some line => if pushes (look c s.it ⟨line, 0, s.it⟩) then [current + 2] else []
    | none => []
  current :: (pushed ++ again)

/-- The search of a table from `cacheIt` on. -/
def start (c : Context) (root : Node) : Search := ⟨⟨⟨root, 0, c.cacheIt⟩, []⟩, c.cacheIt⟩

/-- The states the loop of `Diana_ParseCmdImpl` comes to. -/
def Reached (c : Context) (root : Node) (s : Search) : Prop :=
  c.cacheSize ≠ 0 ∧ ∃ n, runFrom (fun _ => step c) 0 n (start c root) = .inl s

/-- Every access of the search is in bounds. -/
def Table.InBounds (t : Table) (c : Context) : Prop :=
  ∀ s, Reached c t.root s →
    (∀ a ∈ keyAccesses c s, a.inBounds) ∧ ∀ i ∈ stackAccesses c s, i < maxLinesCount

/-! ## Turns that push no line for the same opcode -/

/-- A turn by what it finds. -/
theorem step_look {s : Search} (hs : pushedSame c s = none) :
    step c s =
      match look c s.it s.states.top with
      | none | some (_, .rejected) => rollback s.states.below
      | some (_, .result info) => .inr (.found info s.it)
      | some (k, .line line q _) =>
        match States.push ⟨{ s.states.top with next := k }, s.states.below⟩ line q with
        | none => .inr .fault
        | some t => if s.it + 1 < c.cacheEnd then .inl ⟨t, s.it + 1⟩ else rollback t.below := by
  obtain ⟨⟨⟨line, next, p⟩, below⟩, it⟩ := s
  cases line with
  | null | cmd => rfl
  | line same front n opcode object =>
    rw [step_line]
    simp only [look]
    cases scanKeys c it opcode object ((List.finRange n).drop next) with
    | none => rfl
    | some x =>
      obtain ⟨i, d⟩ := x
      cases d with
      | rejected | result | line => rfl
  | index same object =>
    simp only [step, findNextCmdKey, look]
    by_cases hlt : (c.cache it).toNat < next
    · simp only [if_pos hlt]
    · simp only [if_neg hlt]
      cases hd : dispatchKey c it (object (c.cache it).toFin) with
      | rejected | result => rfl
      | line line q retry =>
        cases retry with
        | false =>
          dsimp only
          cases States.push ⟨⟨.index same object, (c.cache it).toNat + 1, p⟩, below⟩ line q with
          | none | some => rfl
        | true => simp [pushedSame, look, hlt, hd] at hs

theorem scanKeys_some {n : Nat} {opcode : Fin n → Byte} {object : Fin n → Node} {l : List (Fin n)}
    {i : Fin n} {d : Dispatch} (h : scanKeys c it opcode object l = some (i, d)) :
    opcode i = c.cache it ∧ dispatchKey c it (object i) = d := by
  induction l with
  | nil => cases h
  | cons j l ih =>
    rw [scanKeys] at h
    split at h
    · next ho =>
      split at h
      · exact ih h
      · cases h
        exact ⟨ho, rfl⟩
    · exact ih h

theorem dispatchKey_line {n child : Node} {q : Nat} {r : Bool}
    (h : dispatchKey c it n = .line child q r) : child = n ∧ n.isLines ∧ r = n.same := by
  cases n with
  | null => cases h
  | cmd info =>
    rw [dispatchKey] at h
    split at h
    · cases h
    · cases h
  | line | index =>
    cases h
    exact ⟨rfl, rfl, rfl⟩

/-- A state whose line has room for `d` nodes on every way down. -/
structure Frame.Ok (d : Nat) (f : Frame) : Prop where
  isLines : f.line.isLines
  same : f.line.same = false
  fits : f.line.fits d
  flagged : f.line.wellFlagged

/-- Every state of a stack has room for what can come above it. -/
def StackOk : List Frame → Prop
  | [] => True
  | f :: fs => f.Ok (maxLinesCount - fs.length) ∧ StackOk fs

theorem Frame.Ok.pos {d : Nat} {f : Frame} (h : f.Ok d) : 0 < d := fits_pos h.isLines h.fits

/-- The line found behind a key of a state has room one less. -/
theorem Frame.Ok.child {d : Nat} {f : Frame} (h : f.Ok d) {k q : Nat} {child : Node} {r : Bool}
    (hlook : look c it f = some (k, .line child q r)) :
    child.isLines ∧ r = child.same ∧ child.fits (d - 1) ∧ child.wellFlagged := by
  obtain ⟨line, next, p⟩ := f
  obtain ⟨hl, -, hfits, hflag⟩ := h
  obtain ⟨d, rfl⟩ : ∃ e, d = e + 1 := ⟨d - 1, by have := fits_pos hl hfits; omega⟩
  cases line with
  | null | cmd => cases hl
  | line same front n opcode object =>
    obtain ⟨⟨i, disp⟩, hscan, heq⟩ := Option.map_eq_some_iff.1 hlook
    cases heq
    obtain ⟨rfl, hlines, hr⟩ := dispatchKey_line (scanKeys_some hscan).2
    exact ⟨hlines, hr, hfits i, (hflag i).2⟩
  | index same object =>
    simp only [look] at hlook
    split at hlook
    · cases hlook
    · obtain ⟨rfl, hlines, hr⟩ := dispatchKey_line (Prod.mk.inj (Option.some.inj hlook)).2
      exact ⟨hlines, hr, hfits _, (hflag _).2⟩

/-- Only an INDEX holds lines for the same opcode. -/
theorem Frame.Ok.child_same {d : Nat} {s : Search} (h : s.states.top.Ok d) {k q : Nat}
    {child : Node} {r : Bool} (hlook : look c s.it s.states.top = some (k, .line child q r))
    (hs : pushedSame c s = none) : child.same = false := by
  have hr := (h.child hlook).2.1
  obtain ⟨⟨⟨line, next, p⟩, below⟩, it⟩ := s
  cases line with
  | null | cmd => cases h.isLines
  | line same front n opcode object =>
    obtain ⟨⟨i, disp⟩, hscan, heq⟩ := Option.map_eq_some_iff.1 hlook
    cases heq
    obtain ⟨rfl, -, -⟩ := dispatchKey_line (scanKeys_some hscan).2
    exact (h.flagged i).1
  | index same object =>
    cases r with
    | false => exact hr.symm
    | true =>
      simp only [pushedSame] at hs hlook
      rw [hlook] at hs
      cases hs

/-- The turns that push no line for the same opcode keep the stack in order. -/
theorem StackOk.step {s t : Search} (h : StackOk (s.states.top :: s.states.below))
    (hs : pushedSame c s = none) (hstep : step c s = .inl t) :
    StackOk (t.states.top :: t.states.below) := by
  have hroll : ∀ {fs : List Frame}, StackOk fs → rollback fs = .inl t →
      StackOk (t.states.top :: t.states.below) := by
    intro fs hfs hr
    cases fs with
    | nil => cases hr
    | cons f fs =>
      cases hr
      exact hfs
  rw [step_look hs] at hstep
  split at hstep
  · exact hroll h.2 hstep
  · exact hroll h.2 hstep
  · cases hstep
  · next k child q r hlook =>
    have hchild := h.1.child hlook
    have htop : ({ s.states.top with next := k } : Frame).Ok
        (maxLinesCount - s.states.below.length) :=
      ⟨h.1.isLines, h.1.same, h.1.fits, h.1.flagged⟩
    split at hstep
    · cases hstep
    · next u hu =>
      rw [States.push] at hu
      split at hu
      · cases hu
        split at hstep
        · cases hstep
          refine ⟨⟨hchild.1, h.1.child_same hlook hs, ?_, hchild.2.2.2⟩, htop, h.2⟩
          have hd : maxLinesCount - (s.states.below.length + 1) =
              maxLinesCount - s.states.below.length - 1 := by omega
          simpa only [List.length_cons, hd] using hchild.2.2.1
        · have hover : StackOk ({ s.states.top with next := k } :: s.states.below) := ⟨htop, h.2⟩
          exact hroll hover hstep
      · cases hu

/-- With the stack in order a turn has room for the line it pushes. -/
theorem StackOk.room {f : Frame} {fs : List Frame} (h : StackOk (f :: fs)) {k q : Nat}
    {child : Node} {r : Bool} (hlook : look c it f = some (k, .line child q r)) :
    fs.length + 1 < maxLinesCount := by
  have hchild := h.1.child hlook
  have hpos := fits_pos hchild.1 hchild.2.2.1
  omega

/-! ## A search that stops at the key before the keys -/

/-- The node under a key of the opcode `b`, with the memory before the keys of every line for the
same opcode made to read as a key of that opcode. -/
def Node.mark : Node → Byte → Node
  | .null, _ => .null
  | .cmd info, _ => .cmd info
  | .line same front n opcode object, b =>
    .line same (if same then ⟨b, false⟩ else front) n opcode fun i => (object i).mark (opcode i)
  | .index same object, _ => .index same fun b => (object b).mark (BitVec.ofFin b)

namespace Node

@[simp] theorem mark_isLines (n : Node) (b : Byte) : (n.mark b).isLines = n.isLines := by
  cases n with
  | null | cmd | line | index => rfl

@[simp] theorem mark_same (n : Node) (b : Byte) : (n.mark b).same = n.same := by
  cases n with
  | null | cmd | line | index => rfl

@[simp] theorem mark_isLine (n : Node) (b : Byte) : (n.mark b).isLine = n.isLine := by
  cases n with
  | null | cmd | line | index => rfl

theorem mark_fits {n : Node} {d : Nat} (h : n.fits d) (b : Byte) : (n.mark b).fits d := by
  induction n generalizing d b with
  | null | cmd => simp [mark, fits]
  | line same front n opcode object ih =>
    obtain _ | d := d
    · exact h
    · exact fun i => ih i (h i) _
  | index same object ih =>
    obtain _ | d := d
    · exact h
    · exact fun b => ih b (h b) _

theorem mark_wellFlagged {n : Node} (h : n.wellFlagged) (b : Byte) : (n.mark b).wellFlagged := by
  induction n generalizing b with
  | null | cmd => trivial
  | line same front n opcode object ih =>
    intro i
    exact ⟨by simpa using (h i).1, ih i (h i).2 _⟩
  | index same object ih =>
    intro b
    exact ⟨by simpa using (h b).1, ih b (h b).2 _⟩

theorem mark_of_not_same {n : Node} (h : n.same = false) (b : Byte) : n.mark b = n.mark 0 := by
  cases n with
  | null | cmd | index => rfl
  | line same =>
    cases h
    rfl

end Node

/-- The marked table. -/
def Table.mark (t : Table) : Table where
  root := t.root.mark 0
  isLines := by simpa using t.isLines
  same := by simpa using t.same
  depth := Node.mark_fits t.depth 0
  flagged := Node.mark_wellFlagged t.flagged 0

def Dispatch.mark (b : Byte) : Dispatch → Dispatch
  | .rejected => .rejected
  | .result info => .result info
  | .line child q retry => .line (child.mark b) q retry

def Frame.mark (f : Frame) : Frame := { f with line := f.line.mark 0 }

def Search.mark (s : Search) : Search :=
  ⟨⟨s.states.top.mark, s.states.below.map Frame.mark⟩, s.it⟩

theorem dispatchKey_mark (n : Node) (b : Byte) :
    dispatchKey c it (n.mark b) = (dispatchKey c it n).mark b := by
  cases n with
  | null | line | index => rfl
  | cmd info =>
    simp only [Node.mark, dispatchKey]
    split
    · rfl
    · rfl

theorem scanKeys_mark {n : Nat} (opcode : Fin n → Byte) (object : Fin n → Node) (l : List (Fin n)) :
    scanKeys c it opcode (fun i => (object i).mark (opcode i)) l =
      (scanKeys c it opcode object l).map fun x => (x.1, x.2.mark (c.cache it)) := by
  induction l with
  | nil => rfl
  | cons i l ih =>
    simp only [scanKeys, dispatchKey_mark]
    by_cases ho : opcode i = c.cache it
    · rw [if_pos ho, if_pos ho, ho]
      cases dispatchKey c it (object i) with
      | rejected => exact ih
      | result | line => rfl
    · rw [if_neg ho, if_neg ho, ih]

/-- A turn finds the same in the marked table. -/
theorem look_mark (f : Frame) :
    look c it f.mark = (look c it f).map fun x => (x.1, x.2.mark (c.cache it)) := by
  obtain ⟨line, next, p⟩ := f
  cases line with
  | null | cmd => rfl
  | line same front n opcode object =>
    simp only [Frame.mark, Node.mark, look, scanKeys_mark, Option.map_map]
    rfl
  | index same object =>
    simp only [Frame.mark, Node.mark, look, dispatchKey_mark]
    split
    · rfl
    · rfl

theorem pushedSame_mark {s : Search} (h : pushedSame c s = none) : pushedSame c s.mark = none := by
  obtain ⟨⟨⟨line, next, p⟩, below⟩, it⟩ := s
  have hlook : look c it (Frame.mark ⟨line, next, p⟩) = _ := look_mark ⟨line, next, p⟩
  simp only [pushedSame, Search.mark] at h ⊢
  rw [hlook]
  cases line with
  | null | cmd | line => rfl
  | index same object =>
    cases hl : look c it ⟨.index same object, next, p⟩ with
    | none => rfl
    | some x =>
      obtain ⟨k, d⟩ := x
      simp only [hl] at h
      cases d with
      | rejected | result => rfl
      | line child q r =>
        cases r with
        | false => rfl
        | true => cases h

theorem rollback_mark (fs : List Frame) :
    rollback (fs.map Frame.mark) = (rollback fs).map Search.mark id := by
  cases fs with
  | nil => rfl
  | cons f fs => rfl

/-- Until a line is pushed for the same opcode the search of the marked table goes the same way. -/
theorem step_mark {s : Search} (hok : StackOk (s.states.top :: s.states.below))
    (hs : pushedSame c s = none) : step c s.mark = (step c s).map Search.mark id := by
  rw [step_look hs, step_look (pushedSame_mark hs)]
  have hlook : look c s.mark.it s.mark.states.top =
      (look c s.it s.states.top).map fun x => (x.1, x.2.mark (c.cache s.it)) := look_mark _
  rw [hlook]
  cases hl : look c s.it s.states.top with
  | none => exact rollback_mark _
  | some x =>
    obtain ⟨k, d⟩ := x
    cases d with
    | rejected => exact rollback_mark _
    | result info => rfl
    | line child q r =>
      have hroom := hok.room hl
      have hroom' : s.mark.states.below.length + 1 < maxLinesCount := by
        simpa [Search.mark] using hroom
      have hchild := Node.mark_of_not_same (hok.1.child_same hl hs) (c.cache s.it)
      simp only [Option.map_some, Dispatch.mark, push_eq hroom, push_eq hroom', hchild]
      by_cases hnext : s.it + 1 < c.cacheEnd
      · rw [if_pos hnext, if_pos (show s.mark.it + 1 < c.cacheEnd from hnext)]
        rfl
      · rw [if_neg hnext, if_neg (show ¬ s.mark.it + 1 < c.cacheEnd from hnext)]
        rfl

/-- Where a line is pushed for the same opcode the search of the marked table stops. -/
theorem step_mark_fault {s : Search} (hok : StackOk (s.states.top :: s.states.below))
    (hs : pushedSame c s ≠ none) : step c s.mark = .inr .fault := by
  obtain ⟨⟨⟨line, next, p⟩, below⟩, it⟩ := s
  cases line with
  | null | cmd => cases hok.1.isLines
  | line => exact absurd rfl hs
  | index same object =>
    have hcond : ¬ (c.cache it).toNat < next := by
      intro hlt
      simp [pushedSame, look, hlt] at hs
    cases hd : dispatchKey c it (object (c.cache it).toFin) with
    | rejected | result => simp [pushedSame, look, hcond, hd] at hs
    | line child q r =>
      cases r with
      | false => simp [pushedSame, look, hcond, hd] at hs
      | true =>
        have hlook : look c it ⟨.index same object, next, p⟩ =
            some ((c.cache it).toNat + 1, .line child q true) := by
          simp only [look, if_neg hcond, hd]
        have hroom : (below.map Frame.mark).length + 1 < maxLinesCount := by
          simpa using hok.room hlook
        obtain ⟨rfl, -, hr⟩ := dispatchKey_line hd
        obtain ⟨front, n, opcode, grandchild, hslot⟩ :=
          exists_line ((hok.1.flagged (c.cache it).toFin).1 hr.symm) hr.symm
        simp only [step, Search.mark, Frame.mark, Node.mark, findNextCmdKey, if_neg hcond,
          BitVec.ofFin_toFin, hslot, dispatchKey, Node.same, push_eq hroom, if_true, findInPushed,
          and_self]

theorem step_ne_fault {s : Search} (hok : StackOk (s.states.top :: s.states.below))
    (hs : pushedSame c s = none) : step c s ≠ .inr .fault := by
  have hroll : ∀ fs, rollback fs ≠ .inr .fault := by
    intro fs
    cases fs with
    | nil | cons => nofun
  rw [step_look hs]
  split
  · exact hroll _
  · exact hroll _
  · nofun
  · next k child q r hl =>
    rw [push_eq (hok.room hl)]
    dsimp only
    split
    · nofun
    · exact hroll _

/-! ## Runs -/

namespace Table

variable (t : Table) (c : Context)

theorem stackOk_start : StackOk ((start c t.root).states.top :: (start c t.root).states.below) :=
  ⟨⟨t.isLines, t.same, t.depth, t.flagged⟩, trivial⟩

variable {t c}

/-- A run along which no line is pushed for the same opcode is a run of the marked table. -/
theorem run_mark {n : Nat} {s : Search}
    (hrun : runFrom (fun _ => step c) 0 n (start c t.root) = .inl s)
    (hfree : ∀ m < n, ∀ u, runFrom (fun _ => step c) 0 m (start c t.root) = .inl u →
      pushedSame c u = none) :
    StackOk (s.states.top :: s.states.below) ∧
      runFrom (fun _ => step c) 0 n (start c t.mark.root) = .inl s.mark := by
  induction n generalizing s with
  | zero =>
    cases hrun
    exact ⟨t.stackOk_start c, rfl⟩
  | succ n ih =>
    obtain ⟨u, hu, hstep⟩ := runFrom_pred hrun
    obtain ⟨hok, hmark⟩ := ih hu fun m hm => hfree m (by omega)
    have hs := hfree n (by omega) u hu
    refine ⟨hok.step hs hstep, ?_⟩
    rw [runFrom_succ hmark, step_mark hok hs, hstep]
    rfl

/-- A run of the marked table is one of the table, where no line is pushed for the same opcode. -/
theorem run_of_mark (hfree : ∀ n u, runFrom (fun _ => step c) 0 n (start c t.root) = .inl u →
      pushedSame c u = none) {n : Nat} {u : Search}
    (hrun : runFrom (fun _ => step c) 0 n (start c t.mark.root) = .inl u) :
    ∃ s, runFrom (fun _ => step c) 0 n (start c t.root) = .inl s ∧ u = s.mark := by
  induction n generalizing u with
  | zero =>
    cases hrun
    exact ⟨_, rfl, rfl⟩
  | succ n ih =>
    obtain ⟨v, hv, hstep⟩ := runFrom_pred hrun
    obtain ⟨s, hs, rfl⟩ := ih hv
    obtain ⟨hok, -⟩ := run_mark hs fun m _ => hfree m
    rw [step_mark hok (hfree n s hs)] at hstep
    cases hnext : step c s with
    | inr o =>
      rw [hnext] at hstep
      cases hstep
    | inl s' =>
      rw [hnext] at hstep
      cases hstep
      exact ⟨s', (runFrom_succ hs).trans hnext, rfl⟩

/-- The search of the marked table misses the fronts when no line is pushed for the same opcode. -/
theorem frontsMissed_of_free (hsize : c.cacheSize ≠ 0)
    (hfree : ∀ n u, runFrom (fun _ => step c) 0 n (start c t.root) = .inl u →
      pushedSame c u = none) :
    t.mark.FrontsMissed c := by
  rintro ⟨path, stop⟩ he
  cases stop with
  | entry info => rfl
  | front =>
    obtain ⟨n, hn⟩ := (t.mark.leads_root c hsize).exists_runFrom 0
    rw [he] at hn
    obtain ⟨m, u, -, hm, hlast⟩ := exists_last hn
    obtain ⟨s, hs, rfl⟩ := run_of_mark hfree hm
    obtain ⟨hok, -⟩ := run_mark hs fun k _ => hfree k
    rw [step_mark hok (hfree m s hs)] at hlast
    cases hstep : step c s with
    | inl s' =>
      rw [hstep] at hlast
      cases hlast
    | inr o =>
      rw [hstep] at hlast
      cases hlast
      exact absurd hstep (step_ne_fault hok (hfree m s hs))

/-- And only then. The induction is on the length of the run. -/
theorem free_of_frontsMissed (hsize : c.cacheSize ≠ 0) (hmissed : t.mark.FrontsMissed c) (n : Nat)
    (u : Search) (hrun : runFrom (fun _ => step c) 0 n (start c t.root) = .inl u) :
    pushedSame c u = none := by
  induction n using Nat.strong_induction_on generalizing u with
  | _ n ih =>
    by_contra hs
    obtain ⟨hok, hmark⟩ := run_mark hrun ih
    have hfault := (runFrom_succ hmark).trans (step_mark_fault hok hs)
    obtain ⟨m, hm⟩ := (t.mark.leads_root c hsize).exists_runFrom 0
    rw [t.mark.expected_eq c hmissed] at hm
    exact t.mark.expected_ne_fault c (runFrom_inr_unique hm hfault)

end Table

/-! ## Bounds -/

theorem lineAccesses_inBounds {n : Nat} {opcode : Fin n → Byte} {object : Fin n → Node} {next : Nat}
    {a : Access} (ha : a ∈ lineAccesses c it opcode object next) : a.inBounds := by
  obtain ⟨i, -, rfl⟩ := List.mem_map.1 ha
  exact ⟨by simp, by simp⟩

/-- The accesses of a turn that pushes no line for the same opcode. -/
theorem inBounds_of_free {s : Search} (hok : StackOk (s.states.top :: s.states.below))
    (hs : pushedSame c s = none) :
    (∀ a ∈ keyAccesses c s, a.inBounds) ∧ ∀ i ∈ stackAccesses c s, i < maxLinesCount := by
  constructor
  · intro a ha
    obtain ⟨⟨⟨line, next, p⟩, below⟩, it⟩ := s
    cases line with
    | null | cmd => cases ha
    | line => exact lineAccesses_inBounds ha
    | index same object =>
      rcases List.mem_cons.1 ha with rfl | ha
      · exact ⟨by simp, by have := (c.cache it).isLt; simp; omega⟩
      · dsimp only at ha
        split at ha
        · cases ha
        · next hlt =>
          split at ha
          · next hd => simp [pushedSame, look, hlt, hd] at hs
          · cases ha
  · intro i hi
    have hpos := hok.1.pos
    simp only [stackAccesses, hs, List.append_nil, List.mem_cons] at hi
    rcases hi with rfl | hi
    · omega
    · split at hi
      · next hp =>
        cases List.mem_singleton.1 hi
        unfold pushes at hp
        split at hp
        · next hl => exact hok.room hl
        · cases hp
      · cases hi

/-- A line pushed for the same opcode is looked at before its first key. -/
theorem not_inBounds_of_same {s : Search} (hok : StackOk (s.states.top :: s.states.below))
    (hs : pushedSame c s ≠ none) : ∃ a ∈ keyAccesses c s, ¬ a.inBounds := by
  obtain ⟨⟨⟨line, next, p⟩, below⟩, it⟩ := s
  cases line with
  | null | cmd => cases hok.1.isLines
  | line => exact absurd rfl hs
  | index same object =>
    have hcond : ¬ (c.cache it).toNat < next := by
      intro hlt
      simp [pushedSame, look, hlt] at hs
    cases hd : dispatchKey c it (object (c.cache it).toFin) with
    | rejected | result => simp [pushedSame, look, hcond, hd] at hs
    | line child q r =>
      cases r with
      | false => simp [pushedSame, look, hcond, hd] at hs
      | true =>
        obtain ⟨rfl, -, hr⟩ := dispatchKey_line hd
        obtain ⟨front, n, opcode, grandchild, hslot⟩ :=
          exists_line ((hok.1.flagged (c.cache it).toFin).1 hr.symm) hr.symm
        refine ⟨⟨-1, n⟩, ?_, fun h => absurd h.1 (by simp)⟩
        simp [keyAccesses, hcond, hslot, dispatchKey, Node.same, pushedAccesses]

/-- Every access of the search is in bounds exactly when no line for the same opcode is come to
before an entry that fits. -/
theorem Table.inBounds_iff (t : Table) (c : Context) : t.InBounds c ↔ t.mark.FrontsMissed c := by
  by_cases hsize : c.cacheSize = 0
  · refine ⟨fun _ e he => ?_, fun _ s hs => absurd hsize hs.1⟩
    rw [find?_events_of_le (by simp [Context.cacheEnd, hsize])] at he
    cases he
  · constructor
    · intro h
      refine Table.frontsMissed_of_free hsize ?_
      intro n
      induction n using Nat.strong_induction_on with
      | _ n ih =>
        intro u hrun
        by_contra hs
        obtain ⟨hok, -⟩ := run_mark hrun ih
        obtain ⟨a, ha, hbad⟩ := not_inBounds_of_same hok hs
        exact hbad ((h u ⟨hsize, n, hrun⟩).1 a ha)
    · rintro hmissed s ⟨-, n, hrun⟩
      have hfree := Table.free_of_frontsMissed hsize hmissed
      obtain ⟨hok, -⟩ := run_mark hrun fun m _ => hfree m
      exact inBounds_of_free hok (hfree n s hrun)

/-- The first turn of the search of `addTable` looks at `key[-1]`. -/
theorem not_inBounds_add : ¬ addTable.InBounds addContext := by
  intro h
  have hkeys : keyAccesses addContext (start addContext addTable.root) = [⟨2, 256⟩, ⟨-1, 1⟩] := rfl
  have hbad := (h _ ⟨by decide, 0, rfl⟩).1 ⟨-1, 1⟩ (by rw [hkeys]; simp)
  exact absurd hbad.1 (by decide)

end Diana.Decoder
