import Diana.Lib.Loop
import Diana.Decoder.Context

/-!
# The search of the opcode tables

`Diana_ParseCmdImpl` walks a tree of LINE and INDEX nodes with a stack of positions: it goes
down while the bytes of the cache match, comes back when nothing below does, and goes on behind
the key it left off at.

* `step`: one turn of its loop; `parseCmdImpl`: the loop;
* `Table.firstMatch`: what it is for, the first entry of the table that fits the bytes;
* `sound`: from a node the search comes to the first event of the node that hits, or back to the
  node above.
-/

namespace Diana.Decoder

open Diana.Lib

/-! ## Keys and filters -/

/-- `DianaParserCmdKey`; without `has_extension` there is no extension. -/
structure CmdKey where
  opcode : Byte
  extension : Option Byte
  deriving DecidableEq, Repr

namespace Context

variable (c : Context)

/-- `it_end` -/
def cacheEnd : Nat := c.cacheIt + c.cacheSize

/-- `GetKeyByAddress` at a position of the cache. -/
def keyAt (it : Nat) : CmdKey where
  opcode := c.cache it
  extension := if c.cacheEnd - it - 1 = 0 then none else some (c.cache (it + 1))

/-- `DI_VEX_PREFIX_W` -/
def vexW : Bool := c.vexPrefix &&& 2 != 0

end Context

/-- `TryMatchKey`: the mode. -/
def tryMatchKey (c : Context) (info : CmdInfo) : Bool :=
  (!info.testModeOnly || c.testMode) &&
    (!(info.amd64 || info.i386) || info.amd64 && c.mainModeAddressSize == 8 ||
      info.i386 && c.mainModeAddressSize != 8)

/-- `AreKeysGood`: the byte after the opcode. -/
def areKeysGood (info : CmdInfo) (key : CmdKey) : Bool :=
  (!info.postbyteUsed || key.extension.isSome) &&
    (info.extensionMask == 0 || key.extension.any fun e =>
      info.extension &&& info.extensionMask == info.extensionMask &&& e) &&
    (info.extensionDenyMask == 0 || key.extension.any fun e =>
      info.extension &&& info.extensionDenyMask != info.extensionDenyMask &&& e)

/-- The VEX, EVEX and W rules of `DispatchKey`. -/
def prefixesFit (c : Context) (info : CmdInfo) : Bool :=
  (info.vexEncoded == (c.vexPrefix != 0)) && (info.evex.isSome == (c.evexPrefix != 0)) &&
    !(info.vexW0 && c.vexW) && !(info.vexW1 && !c.vexW)

/-- An entry passes every filter of `DispatchKey` with its opcode ending at `it`. -/
def accepts (c : Context) (it : Nat) (info : CmdInfo) : Bool :=
  tryMatchKey c info && areKeysGood info (c.keyAt it) && prefixesFit c info

/-! ## The stack of states -/

/-- `DianaParserContextState`; `next` is `position + 1`, the key the next call looks at first. -/
structure Frame where
  line : Node
  next : Nat
  opcodePosition : Nat

/-- `DianaParserContext`: the current state and those below it. -/
structure States where
  top : Frame
  below : List Frame

/-- `DianaParserContext_PushOpcode`. `none` when `states` has no room: the check in it lets one
state too many pass. -/
def States.push (s : States) (line : Node) (opcodePosition : Nat) : Option States :=
  if s.below.length + 1 < maxLinesCount then
    some ⟨⟨line, 0, opcodePosition⟩, s.top :: s.below⟩
  else none

/-- What `DispatchKey` finds behind a key. -/
inductive Dispatch where
  | rejected
  | result (info : CmdInfo)
  | line (line : Node) (opcodePosition : Nat) (retry : Bool)

/-- `DispatchKey`, for a key that has the opcode. -/
def dispatchKey (c : Context) (it : Nat) : Node → Dispatch
  | .null => .rejected
  | .cmd info => if accepts c it info then .result info else .rejected
  | object => .line object (if object.same then it else it + 1) object.same

/-- What `FindNextCmdKey` returns. -/
inductive Found where
  | notFound (s : States)
  | result (info : CmdInfo)
  | pushed (s : States)
  /-- an access outside the tables or the stack -/
  | fault

/-- The loop of `FindNextCmdKey` over the keys of a LINE from some key on: the first one that has
the opcode and is not rejected. -/
def scanKeys (c : Context) (it : Nat) {n : Nat} (opcode : Fin n → Byte) (object : Fin n → Node) :
    List (Fin n) → Option (Fin n × Dispatch)
  | [] => none
  | i :: rest =>
    if opcode i = c.cache it then
      match dispatchKey c it (object i) with
      | .rejected => scanKeys c it opcode object rest
      | d => some (i, d)
    else scanKeys c it opcode object rest

/-- The part of `FindNextCmdKey` for a LINE as the current state. -/
def findInLine (c : Context) (it : Nat) (s : States) : Found :=
  match s.top.line with
  | .line _ _ n opcode object =>
    match scanKeys c it opcode object ((List.finRange n).drop s.top.next) with
    | none => .notFound s
    | some (_, .rejected) => .notFound s
    | some (_, .result info) => .result info
    | some (i, .line line opcodePosition _) =>
      match { s with top.next := i + 1 }.push line opcodePosition with
      | none => .fault
      | some t => .pushed t
  | _ => .notFound s

/-- What `FindNextCmdKey` does with a state it has just pushed for the same opcode: it goes into the
loop of a LINE without moving `position` up from -1 first, so the first key it looks at is the one
before the keys. -/
def findInPushed (c : Context) (it : Nat) (s : States) : Found :=
  match s.top.line with
  | .line _ front .. =>
    if front.opcode = c.cache it ∧ front.null = false then .fault else findInLine c it s
  | _ => .notFound s

/-- `FindNextCmdKey` -/
def findNextCmdKey (c : Context) (it : Nat) (s : States) : Found :=
  match s.top.line with
  | .index _ object =>
    if (c.cache it).toNat < s.top.next then .notFound s
    else
      let s := { s with top.next := (c.cache it).toNat + 1 }
      match dispatchKey c it (object (c.cache it).toFin) with
      | .rejected => .notFound s
      | .result info => .result info
      | .line line opcodePosition retry =>
        match s.push line opcodePosition with
        | none => .fault
        | some t => if retry then findInPushed c it t else .pushed t
  | _ => findInLine c it s

/-! ## The loop -/

/-- The stack and the byte of the cache the search is at. -/
structure Search where
  states : States
  it : Nat

inductive Outcome where
  /-- `DI_SUCCESS`, with `pInfo` and `*pOutIt` -/
  | found (info : CmdInfo) (it : Nat)
  /-- `DI_ERROR` -/
  | error
  | fault
  deriving DecidableEq, Repr

/-- `FindNextCmdKey_Rollback`, on the states below the current one. -/
def rollback : List Frame → Search ⊕ Outcome
  | [] => .inr .error
  | f :: fs => .inl ⟨⟨f, fs⟩, f.opcodePosition⟩

/-- One turn of the loop of `Diana_ParseCmdImpl`. -/
def step (c : Context) (s : Search) : Search ⊕ Outcome :=
  match findNextCmdKey c s.it s.states with
  | .fault => .inr .fault
  | .result info => .inr (.found info s.it)
  | .pushed t => if s.it + 1 < c.cacheEnd then .inl ⟨t, s.it + 1⟩ else rollback t.below
  | .notFound t => rollback t.below

/-- `Diana_ParseCmdImpl`, at most `n` turns of its loop. -/
def parseCmdImpl (c : Context) (root : Node) (n : Nat) : Option Outcome :=
  if c.cacheSize = 0 then some .error
  else
    match runFrom (fun _ => step c) 0 n ⟨⟨⟨root, 0, c.cacheIt⟩, []⟩, c.cacheIt⟩ with
    | .inl _ => none
    | .inr o => some o

/-! ## What the search is for -/

namespace Context

variable (c : Context)

/-- The cached bytes from `it` on. -/
def bytesFrom (it : Nat) : List Byte := (List.range (c.cacheEnd - it)).map fun i => c.cache (it + i)

theorem bytesFrom_of_lt {it : Nat} (h : it < c.cacheEnd) :
    c.bytesFrom it = c.cache it :: c.bytesFrom (it + 1) := by
  obtain ⟨k, hk⟩ : ∃ k, c.cacheEnd - it = k + 1 := ⟨c.cacheEnd - it - 1, by omega⟩
  have hk' : c.cacheEnd - (it + 1) = k := by omega
  simp only [bytesFrom, hk, hk', List.range_succ_eq_map, List.map_cons, List.map_map, Nat.add_zero]
  congr 1
  apply List.map_congr_left
  intro i _
  simp only [Function.comp_apply]
  congr 1
  omega

theorem bytesFrom_of_le {it : Nat} (h : c.cacheEnd ≤ it) : c.bytesFrom it = [] := by
  simp [bytesFrom, Nat.sub_eq_zero_of_le h]

end Context

/-- An event is for the bytes from `it` on: they begin with its path, and an entry passes the
filters where its path ends. -/
def Event.hits (c : Context) (it : Nat) (e : Event) : Bool :=
  e.path.isPrefixOf (c.bytesFrom it) &&
    match e.stop with
    | .entry info => accepts c (it + e.path.length - 1) info
    | .front => true

/-- The first entry of the table, in depth-first key order, for the bytes from `cacheIt` on. -/
def Table.firstMatch (t : Table) (c : Context) : Option Event :=
  t.entries.find? (Event.hits c c.cacheIt)

/-- What a search for that entry returns. -/
def Table.expected (t : Table) (c : Context) : Outcome :=
  match t.firstMatch c with
  | some ⟨path, .entry info⟩ => .found info (c.cacheIt + path.length - 1)
  | _ => .error

/-- The search comes to an entry that fits, or to none, before it takes the memory before the keys
of a line for a key. -/
def Table.FrontsMissed (t : Table) (c : Context) : Prop :=
  ∀ e, t.root.events.find? (Event.hits c c.cacheIt) = some e → e.isEntry

/-! ## Events and bytes -/

variable {c : Context} {it : Nat}

theorem head_eventsUnder {n : Node} {b : Byte} {e : Event} (h : e ∈ n.eventsUnder b) :
    e.path.head? = some b := by
  cases n with
  | null => cases h
  | cmd info =>
    cases List.mem_singleton.1 h
    rfl
  | line same front n opcode object =>
    simp only [Node.eventsUnder] at h
    split at h
    · exact of_decide_eq_true (List.mem_filter.1 h).2
    · obtain ⟨e', -, rfl⟩ := List.mem_map.1 h
      rfl
  | index same object =>
    simp only [Node.eventsUnder] at h
    split at h
    · exact of_decide_eq_true (List.mem_filter.1 h).2
    · obtain ⟨e', -, rfl⟩ := List.mem_map.1 h
      rfl

theorem path_ne_nil {n : Node} {e : Event} (h : e ∈ n.events) : e.path ≠ [] := by
  intro he
  cases n with
  | null | cmd => cases h
  | line same front n opcode object =>
    obtain ⟨i, -, hi⟩ := List.mem_flatMap.1 h
    simpa [he] using head_eventsUnder hi
  | index same object =>
    obtain ⟨b, -, hb⟩ := List.mem_flatMap.1 h
    simpa [he] using head_eventsUnder hb

/-- An event that hits has the byte of the cache at the head of its path. -/
theorem Event.hits_head {e : Event} (h : e.hits c it) (hne : e.path ≠ []) :
    it < c.cacheEnd ∧ e.path.head? = some (c.cache it) := by
  have hp := List.isPrefixOf_iff_prefix.1 (Bool.and_eq_true_iff.1 h).1
  obtain ⟨b, p, hpath⟩ := List.exists_cons_of_ne_nil hne
  rw [hpath] at hp ⊢
  rcases lt_or_ge it c.cacheEnd with hlt | hge
  · rw [c.bytesFrom_of_lt hlt] at hp
    exact ⟨hlt, congrArg some (List.cons_prefix_cons.1 hp).1⟩
  · rw [c.bytesFrom_of_le hge] at hp
    cases List.prefix_nil.1 hp

/-- No event behind a key of another opcode hits. -/
theorem find?_eventsUnder_of_ne {n : Node} {b : Byte} (hb : b ≠ c.cache it) :
    (n.eventsUnder b).find? (Event.hits c it) = none := by
  rw [List.find?_eq_none]
  intro e he hhit
  have hhead := head_eventsUnder he
  have hne : e.path ≠ [] := by
    intro h
    simp [h] at hhead
  rw [(Event.hits_head hhit hne).2] at hhead
  exact hb (Option.some.inj hhead).symm

theorem Event.hits_under (e : Event) (hlt : it < c.cacheEnd) :
    (e.under (c.cache it)).hits c it = e.hits c (it + 1) := by
  have hlen : it + (e.path.length + 1) - 1 = it + 1 + e.path.length - 1 := by omega
  simp only [Event.hits, Event.under, c.bytesFrom_of_lt hlt, List.isPrefixOf_cons_cons_self,
    List.length_cons, hlen]

/-- Events below the byte at `it`. -/
theorem find?_map_under (es : List Event) (hlt : it < c.cacheEnd) :
    (es.map (Event.under (c.cache it))).find? (Event.hits c it) =
      (es.find? (Event.hits c (it + 1))).map (Event.under (c.cache it)) := by
  have hcomp : Event.hits c it ∘ Event.under (c.cache it) = Event.hits c (it + 1) :=
    funext fun e => e.hits_under hlt
  rw [List.find?_map, hcomp]

/-- Behind the last byte of the cache nothing hits. -/
theorem find?_events_of_le {n : Node} (hle : c.cacheEnd ≤ it) :
    n.events.find? (Event.hits c it) = none := by
  rw [List.find?_eq_none]
  intro e he hhit
  exact absurd (Event.hits_head hhit (path_ne_nil he)).1 (by omega)

theorem eventsUnder_of_not_same {n : Node} (hn : n.isLines) (hs : n.same = false) (b : Byte) :
    n.eventsUnder b = n.events.map (Event.under b) := by
  cases n with
  | null | cmd => cases hn
  | line same front n opcode object =>
    cases hs
    rfl
  | index same object =>
    cases hs
    rfl

theorem find?_eventsUnder_cmd (info : CmdInfo) (hlt : it < c.cacheEnd) :
    ((Node.cmd info).eventsUnder (c.cache it)).find? (Event.hits c it) =
      if accepts c it info then some ⟨[c.cache it], .entry info⟩ else none := by
  have hhit : Event.hits c it ⟨[c.cache it], .entry info⟩ = accepts c it info := by
    simp [Event.hits, c.bytesFrom_of_lt hlt]
  cases hacc : accepts c it info with
  | true => simp [Node.eventsUnder, hhit, hacc]
  | false => simp [Node.eventsUnder, hhit, hacc]

theorem find?_filter_of_imp {es : List Event} {p q : Event → Bool} (h : ∀ e ∈ es, q e → p e) :
    (es.filter p).find? q = es.find? q := by
  induction es with
  | nil => rfl
  | cons e es ih =>
    have ih := ih fun e' he' => h e' (List.mem_cons_of_mem _ he')
    cases hq : q e with
    | true => rw [List.filter_cons_of_pos (h e List.mem_cons_self hq), List.find?_cons_of_pos hq,
        List.find?_cons_of_pos hq]
    | false =>
      rw [List.find?_cons_of_neg (by simp [hq])]
      cases hp : p e with
      | true => rw [List.filter_cons_of_pos hp, List.find?_cons_of_neg (by simp [hq]), ih]
      | false => rw [List.filter_cons_of_neg (by simp [hp]), ih]

/-- Of the slots of an INDEX only the one of the byte counts. -/
theorem find?_flatMap_eq {α : Type} {l : List α} {f : α → List Event} {p : Event → Bool} {a : α}
    (ha : a ∈ l) (hne : ∀ b, b ≠ a → (f b).find? p = none) :
    (l.flatMap f).find? p = (f a).find? p := by
  induction l with
  | nil => cases ha
  | cons b l ih =>
    rw [List.flatMap_cons, List.find?_append]
    by_cases hb : b = a
    · subst hb
      cases hf : (f b).find? p with
      | some e => rfl
      | none =>
        rw [Option.none_or, List.find?_eq_none]
        intro e he
        obtain ⟨x, -, hx⟩ := List.mem_flatMap.1 he
        by_cases hxb : x = b
        · exact List.find?_eq_none.1 hf e (hxb ▸ hx)
        · exact List.find?_eq_none.1 (hne x hxb) e hx
    · rw [hne b hb, Option.none_or]
      exact ih ((List.mem_cons.1 ha).resolve_left (Ne.symm hb))

/-- Where the search is when the events `es` of a node at the byte `it` are done with. -/
def verdict (it : Nat) (below : List Frame) : Option Event → Search ⊕ Outcome
  | some ⟨path, .entry info⟩ => .inr (.found info (it + path.length - 1))
  | some ⟨_, .front⟩ => .inr .fault
  | none => rollback below

theorem verdict_under (below : List Frame) (b : Byte) (o : Option Event) :
    verdict it below (o.map (Event.under b)) = verdict (it + 1) below o := by
  match o with
  | none => rfl
  | some ⟨path, .front⟩ => rfl
  | some ⟨path, .entry info⟩ =>
    have hlen : it + (path.length + 1) - 1 = it + 1 + path.length - 1 := by omega
    simp only [Option.map_some, Event.under, verdict, List.length_cons, hlen]

/-- Only a search that found nothing depends on what is below. -/
theorem verdict_some (below below' : List Frame) (e : Event) :
    verdict it below (some e) = verdict it below' (some e) := by
  obtain ⟨path, stop⟩ := e
  cases stop with
  | entry info => rfl
  | front => rfl

/-! ## The search of a node -/

/-- From a node at the byte `it` the search comes to the first event that hits, or back to what is
below it on the stack. -/
def Sound (c : Context) (n : Node) (d : Nat) : Prop :=
  ∀ it below, it < c.cacheEnd → below.length + d ≤ maxLinesCount →
    Leads (step c) ⟨⟨⟨n, 0, it⟩, below⟩, it⟩ (verdict it below (n.events.find? (Event.hits c it)))

/-- A child of a frame: the search goes down to it and comes back to the frame, moved behind the
child's key. `hturn` is the turn that pushes the child. -/
theorem leads_child {child : Node} {d : Nat} (hsound : Sound c child d)
    {s : Search} {f : Frame} {below : List Frame} (hroom : below.length + (d + 1) ≤ maxLinesCount)
    (hf : f.opcodePosition = it) {r : Search ⊕ Outcome}
    (hturn : step c s = if it + 1 < c.cacheEnd then .inl ⟨⟨⟨child, 0, it + 1⟩, f :: below⟩, it + 1⟩
      else rollback (f :: below))
    (hr : child.events.find? (Event.hits c (it + 1)) = none → Leads (step c) ⟨⟨f, below⟩, it⟩ r)
    (hr' : ∀ e, child.events.find? (Event.hits c (it + 1)) = some e →
      r = verdict (it + 1) below (some e)) :
    Leads (step c) s r := by
  have hback : rollback (f :: below) = .inl ⟨⟨f, below⟩, it⟩ := by
    rw [rollback, hf]
  by_cases hnext : it + 1 < c.cacheEnd
  · rw [if_pos hnext] at hturn
    have hchild := hsound (it + 1) (f :: below) hnext (by simp; omega)
    cases hfind : child.events.find? (Event.hits c (it + 1)) with
    | none =>
      rw [hfind, verdict, hback] at hchild
      exact .more hturn (hchild.trans (hr hfind))
    | some e =>
      rw [hfind, verdict_some _ below] at hchild
      rw [hr' e hfind]
      exact .more hturn hchild
  · rw [if_neg hnext, hback] at hturn
    exact .more hturn (hr (find?_events_of_le (by omega)))

theorem push_eq {f : Frame} {below : List Frame} (h : below.length + 1 < maxLinesCount) (n : Node)
    (p : Nat) : States.push ⟨f, below⟩ n p = some ⟨⟨n, 0, p⟩, f :: below⟩ := if_pos h

section Line

variable {same : Bool} {front : Front} {n : Nat} {opcode : Fin n → Byte} {object : Fin n → Node}
  {below : List Frame}

/-- A turn at a LINE, by what the loop over its keys finds. -/
theorem step_line (next p : Nat) :
    step c ⟨⟨⟨.line same front n opcode object, next, p⟩, below⟩, it⟩ =
      match scanKeys c it opcode object ((List.finRange n).drop next) with
      | none | some (_, .rejected) => rollback below
      | some (_, .result info) => .inr (.found info it)
      | some (i, .line line q _) =>
        match States.push ⟨⟨.line same front n opcode object, i + 1, p⟩, below⟩ line q with
        | none => .inr .fault
        | some t => if it + 1 < c.cacheEnd then .inl ⟨t, it + 1⟩ else rollback t.below := by
  simp only [step, findNextCmdKey, findInLine]
  cases scanKeys c it opcode object ((List.finRange n).drop next) with
  | none => rfl
  | some x =>
    obtain ⟨i, d⟩ := x
    cases d with
    | rejected => rfl
    | result info => rfl
    | line line q retry =>
      dsimp only
      cases States.push ⟨⟨.line same front n opcode object, i + 1, p⟩, below⟩ line q with
      | none => rfl
      | some t => rfl

theorem drop_finRange {next : Nat} (h : next < n) :
    (List.finRange n).drop next = ⟨next, h⟩ :: (List.finRange n).drop (next + 1) := by
  have hlen : next < (List.finRange n).length := by simpa using h
  rw [List.drop_eq_getElem_cons hlen]
  simp

/-- A key that the loop over the keys passes by. -/
theorem step_line_skip {next : Nat} (h : next < n)
    (hskip : opcode ⟨next, h⟩ = c.cache it → dispatchKey c it (object ⟨next, h⟩) = .rejected)
    (p : Nat) : step c ⟨⟨⟨.line same front n opcode object, next, p⟩, below⟩, it⟩ =
      step c ⟨⟨⟨.line same front n opcode object, next + 1, p⟩, below⟩, it⟩ := by
  have hscan : scanKeys c it opcode object ((List.finRange n).drop next) =
      scanKeys c it opcode object ((List.finRange n).drop (next + 1)) := by
    rw [drop_finRange h, scanKeys]
    split
    · rw [hskip ‹_›]
    · rfl
  rw [step_line, step_line, hscan]

theorem dispatchKey_lines {m : Node} (hm : m.isLines) (hs : m.same = false) :
    dispatchKey c it m = .line m (it + 1) false := by
  cases m with
  | null | cmd => cases hm
  | line same => cases hs; rfl
  | index same => cases hs; rfl

variable {d : Nat} (hsound : ∀ i, (object i).isLines → 0 < d ∧ Sound c (object i) d)
  (hsame : ∀ i, (object i).same = false) (hlt : it < c.cacheEnd)
  (hroom : below.length + (d + 1) ≤ maxLinesCount)

include hsound hsame hlt hroom in
/-- From the key `next` of a LINE on. The induction is on the keys left. -/
theorem leads_line (next : Nat) :
    Leads (step c) ⟨⟨⟨.line same front n opcode object, next, it⟩, below⟩, it⟩
      (verdict it below ((((List.finRange n).drop next).flatMap fun i =>
        (object i).eventsUnder (opcode i)).find? (Event.hits c it))) := by
  induction hk : n - next generalizing next with
  | zero =>
    have hdrop : (List.finRange n).drop next = [] := List.drop_eq_nil_of_le (by simp; omega)
    refine .last ?_
    rw [step_line, hdrop]
    rfl
  | succ k ih =>
    have hn : next < n := by omega
    have hrest := ih (next + 1) (by omega)
    rw [drop_finRange hn, List.flatMap_cons, List.find?_append]
    by_cases ho : opcode ⟨next, hn⟩ = c.cache it
    · have hhead : scanKeys c it opcode object ((List.finRange n).drop next) =
          match dispatchKey c it (object ⟨next, hn⟩) with
          | .rejected => scanKeys c it opcode object ((List.finRange n).drop (next + 1))
          | d => some (⟨next, hn⟩, d) := by
        rw [drop_finRange hn, scanKeys, if_pos ho]
      rw [ho]
      have hskip : dispatchKey c it (object ⟨next, hn⟩) = .rejected →
          ((object ⟨next, hn⟩).eventsUnder (c.cache it)).find? (Event.hits c it) = none →
          Leads (step c) ⟨⟨⟨.line same front n opcode object, next, it⟩, below⟩,
            it⟩ (verdict it below
            ((((object ⟨next, hn⟩).eventsUnder (c.cache it)).find? (Event.hits c it)).or
              ((((List.finRange n).drop (next + 1)).flatMap fun i =>
                (object i).eventsUnder (opcode i)).find? (Event.hits c it)))) := by
        intro hrej hnone
        rw [hnone, Option.none_or]
        exact hrest.congr (step_line_skip hn (fun _ => hrej) it)
      by_cases hl : (object ⟨next, hn⟩).isLines
      · obtain ⟨hd, hs⟩ := hsound _ hl
        rw [dispatchKey_lines hl (hsame _)] at hhead
        rw [eventsUnder_of_not_same hl (hsame _), find?_map_under _ hlt]
        refine leads_child hs hroom (f := ⟨.line same front n opcode object, next + 1, it⟩)
          rfl ?_ ?_ ?_
        · rw [step_line, hhead]
          dsimp only
          rw [push_eq (by omega)]
        · intro hnone
          rw [hnone]
          exact hrest
        · intro e he
          rw [he, Option.map_some, Option.some_or, ← Option.map_some, verdict_under]
      · cases hobj : object ⟨next, hn⟩ with
        | null =>
          rw [hobj] at hskip
          exact hskip rfl rfl
        | cmd info =>
          rw [hobj] at hskip hhead
          by_cases hacc : accepts c it info = true
          · refine .last ?_
            have hdis : dispatchKey c it (.cmd info) = .result info := if_pos hacc
            rw [step_line, hhead, hdis, find?_eventsUnder_cmd info hlt, if_pos hacc]
            rfl
          · refine hskip (if_neg hacc) ?_
            rw [find?_eventsUnder_cmd info hlt, if_neg hacc]
        | line | index =>
          rw [hobj] at hl
          exact absurd rfl hl
    · rw [find?_eventsUnder_of_ne ho, Option.none_or]
      exact hrest.congr (step_line_skip hn (fun h => absurd h ho) it)

end Line

section Index

variable {same : Bool} {object : Fin 256 → Node} {below : List Frame}

/-- The second visit of an INDEX ends at once: `position` is behind the byte. -/
theorem step_index_again (p : Nat) :
    step c ⟨⟨⟨.index same object, (c.cache it).toNat + 1, p⟩, below⟩, it⟩ = rollback below := by
  simp [step, findNextCmdKey]

theorem find?_events_index :
    (Node.index same object).events.find? (Event.hits c it) =
      ((object (c.cache it).toFin).eventsUnder (c.cache it)).find? (Event.hits c it) := by
  refine find?_flatMap_eq (List.mem_finRange _) ?_
  intro b hb
  refine find?_eventsUnder_of_ne ?_
  intro h
  exact hb (by rw [← h])

/-- A turn at an INDEX, by what its slot holds. -/
theorem step_index (p : Nat) :
    step c ⟨⟨⟨.index same object, 0, p⟩, below⟩, it⟩ =
      match dispatchKey c it (object (c.cache it).toFin) with
      | .rejected => rollback below
      | .result info => .inr (.found info it)
      | .line line q retry =>
        match States.push ⟨⟨.index same object, (c.cache it).toNat + 1, p⟩, below⟩ line q with
        | none => .inr .fault
        | some t =>
          match if retry then findInPushed c it t else .pushed t with
          | .fault => .inr .fault
          | .result info => .inr (.found info it)
          | .pushed t => if it + 1 < c.cacheEnd then .inl ⟨t, it + 1⟩ else rollback t.below
          | .notFound t => rollback t.below := by
  simp only [step, findNextCmdKey, Nat.not_lt_zero, if_false]
  cases dispatchKey c it (object (c.cache it).toFin) with
  | rejected => rfl
  | result info => rfl
  | line line q retry =>
    dsimp only
    cases States.push ⟨⟨.index same object, (c.cache it).toNat + 1, p⟩, below⟩ line q with
    | none => rfl
    | some t => rfl

/-- A LINE with `THE_SAME_OPCODE` in the slot of the byte: its front, if it reads as a key of that
opcode, then its keys. -/
theorem find?_eventsUnder_same {front : Front} {n : Nat} {opcode : Fin n → Byte}
    {object : Fin n → Node} (hlt : it < c.cacheEnd) :
    ((Node.line true front n opcode object).eventsUnder (c.cache it)).find? (Event.hits c it) =
      if front.opcode = c.cache it ∧ front.null = false then some ⟨[front.opcode], .front⟩
      else (Node.line true front n opcode object).events.find? (Event.hits c it) := by
  have hfilter : ∀ e ∈ front.events ++ (Node.line true front n opcode object).events,
      e.hits c it → decide (e.path.head? = some (c.cache it)) := by
    intro e he hhit
    refine decide_eq_true (Event.hits_head hhit ?_).2
    rcases List.mem_append.1 he with he | he
    · unfold Front.events at he
      split at he
      · cases he
      · cases List.mem_singleton.1 he
        exact List.cons_ne_nil _ _
    · exact path_ne_nil he
  have hunder : ((Node.line true front n opcode object).eventsUnder (c.cache it)).find?
      (Event.hits c it) = (front.events ++ (Node.line true front n opcode object).events).find?
        (Event.hits c it) := find?_filter_of_imp hfilter
  have hfront : front.events.find? (Event.hits c it) =
      if front.opcode = c.cache it ∧ front.null = false then some ⟨[front.opcode], .front⟩
      else none := by
    have hhit : Event.hits c it ⟨[front.opcode], .front⟩ = decide (front.opcode = c.cache it) := by
      simp only [Event.hits, c.bytesFrom_of_lt hlt, List.isPrefixOf_cons_cons,
        List.isPrefixOf_nil_left, Bool.and_true]
      rfl
    cases hnull : front.null with
    | true => simp [Front.events, hnull]
    | false => simp [Front.events, hnull, List.find?_singleton, hhit]
  rw [hunder, List.find?_append, hfront]
  split
  · rfl
  · rfl

theorem exists_line {n : Node} (h : n.isLine) (hs : n.same = true) :
    ∃ front k opcode child, n = .line true front k opcode child := by
  cases n with
  | line same front k opcode child =>
    cases hs
    exact ⟨front, k, opcode, child, rfl⟩
  | null | cmd | index => cases h

variable {d : Nat} (hsound : ∀ b, (object b).isLines → 0 < d ∧ Sound c (object b) d)
  (hflag : ∀ b, (object b).same → (object b).isLine) (hlt : it < c.cacheEnd)
  (hroom : below.length + (d + 1) ≤ maxLinesCount)

include hsound hflag hlt hroom in
theorem leads_index :
    Leads (step c) ⟨⟨⟨.index same object, 0, it⟩, below⟩, it⟩
      (verdict it below ((Node.index same object).events.find? (Event.hits c it))) := by
  rw [find?_events_index]
  have hturn : step c ⟨⟨⟨.index same object, 0, it⟩, below⟩, it⟩ = _ := step_index it
  have hback : Leads (step c) ⟨⟨⟨.index same object, (c.cache it).toNat + 1, it⟩, below⟩, it⟩
      (rollback below) := .last (step_index_again it)
  have hsound := hsound (c.cache it).toFin
  have hflag := hflag (c.cache it).toFin
  generalize object (c.cache it).toFin = slot at hturn hsound hflag ⊢
  by_cases hl : slot.isLines
  · obtain ⟨hd, hs⟩ := hsound hl
    cases hsame : slot.same with
    | false =>
      rw [dispatchKey_lines hl hsame] at hturn
      dsimp only at hturn
      rw [push_eq (by omega)] at hturn
      rw [eventsUnder_of_not_same hl hsame, find?_map_under _ hlt]
      refine leads_child hs hroom (f := ⟨.index same object, (c.cache it).toNat + 1, it⟩)
        rfl hturn ?_ ?_
      · intro hnone
        rw [hnone]
        exact hback
      · intro e he
        rw [he, verdict_under]
    | true =>
      obtain ⟨front, n, opcode, child, rfl⟩ := exists_line (hflag hsame) hsame
      rw [find?_eventsUnder_same hlt]
      have hdis : dispatchKey c it (.line true front n opcode child) =
          .line (.line true front n opcode child) it true := rfl
      rw [hdis] at hturn
      dsimp only at hturn
      rw [push_eq (by omega)] at hturn
      by_cases hfront : front.opcode = c.cache it ∧ front.null = false
      · rw [if_pos hfront]
        refine .last ?_
        simpa [findInPushed, hfront, verdict] using hturn
      · rw [if_neg hfront]
        -- the turn of the INDEX is the first turn of the LINE it has pushed
        have hsame : step c ⟨⟨⟨.index same object, 0, it⟩, below⟩, it⟩ =
            step c ⟨⟨⟨.line true front n opcode child, 0, it⟩,
              ⟨.index same object, (c.cache it).toNat + 1, it⟩ :: below⟩, it⟩ := by
          rw [hturn]
          simp only [if_true, findInPushed, if_neg hfront, step, findNextCmdKey]
        have hline := hs it (⟨.index same object, (c.cache it).toNat + 1, it⟩ :: below) hlt
          (by simp; omega)
        cases hfind : (Node.line true front n opcode child).events.find? (Event.hits c it) with
        | none =>
          rw [hfind] at hline
          exact Leads.trans (hline.congr hsame) hback
        | some e =>
          rw [hfind, verdict_some _ below] at hline
          exact hline.congr hsame
  · cases slot with
    | null => exact .last hturn
    | cmd info =>
      refine .last ?_
      rw [hturn, find?_eventsUnder_cmd info hlt]
      cases hacc : accepts c it info with
      | true => simp [dispatchKey, hacc, verdict]
      | false => simp [dispatchKey, hacc, verdict]
    | line | index => exact absurd rfl hl

end Index

theorem fits_pos {n : Node} (hn : n.isLines) {d : Nat} (h : n.fits d) : 0 < d := by
  obtain _ | d := d
  · cases n with
    | null | cmd => cases hn
    | line | index => exact h.elim
  · exact Nat.succ_pos d

/-- Every node whose depth fits the stack is searched soundly. The induction is on the tree. -/
theorem sound (n : Node) : ∀ d, n.isLines → n.fits d → n.wellFlagged → Sound c n d := by
  induction n with
  | null | cmd => exact fun _ h => nomatch h
  | line same front n opcode object ih =>
    intro d _ hfits hflag it below hlt hroom
    obtain _ | d := d
    · exact hfits.elim
    · refine leads_line (d := d) ?_ (fun i => (hflag i).1) hlt hroom 0
      intro i hi
      exact ⟨fits_pos hi (hfits i), ih i d hi (hfits i) (hflag i).2⟩
  | index same object ih =>
    intro d _ hfits hflag it below hlt hroom
    obtain _ | d := d
    · exact hfits.elim
    · refine leads_index (d := d) ?_ (fun b => (hflag b).1) hlt hroom
      intro b hb
      exact ⟨fits_pos hb (hfits b), ih b d hb (hfits b) (hflag b).2⟩

/-! ## The whole search -/

namespace Table

variable (t : Table) (c : Context)

/-- The first event that hits is the first entry that does, when it is an entry. -/
theorem firstMatch_eq (hmissed : t.FrontsMissed c) :
    t.firstMatch c = t.root.events.find? (Event.hits c c.cacheIt) := by
  have hsplit : ∀ es : List Event,
      (∀ e, es.find? (Event.hits c c.cacheIt) = some e → e.isEntry) →
        (es.filter Event.isEntry).find? (Event.hits c c.cacheIt) =
          es.find? (Event.hits c c.cacheIt) := by
    intro es
    induction es with
    | nil => exact fun _ => rfl
    | cons e es ih =>
      intro h
      cases hhit : e.hits c c.cacheIt with
      | true =>
        rw [List.find?_cons_of_pos hhit] at h ⊢
        rw [List.filter_cons_of_pos (h e rfl), List.find?_cons_of_pos hhit]
      | false =>
        have hneg : ¬ e.hits c c.cacheIt = true := by simp [hhit]
        rw [List.find?_cons_of_neg hneg] at h ⊢
        cases hentry : e.isEntry with
        | true => rw [List.filter_cons_of_pos hentry, List.find?_cons_of_neg hneg, ih h]
        | false => rw [List.filter_cons_of_neg (by simp [hentry]), ih h]
  exact hsplit _ hmissed

/-- The result is never a fault. -/
theorem expected_ne_fault : t.expected c ≠ .fault := by
  unfold expected
  split
  · nofun
  · nofun

theorem expected_eq (hmissed : t.FrontsMissed c) :
    verdict c.cacheIt [] (t.root.events.find? (Event.hits c c.cacheIt)) = .inr (t.expected c) := by
  rw [expected, firstMatch_eq t c hmissed]
  cases hfind : t.root.events.find? (Event.hits c c.cacheIt) with
  | none => rfl
  | some e =>
    have hentry := hmissed e hfind
    obtain ⟨path, stop⟩ := e
    cases stop with
    | entry info => rfl
    | front => cases hentry

/-- The search of a table that has bytes to look at. -/
theorem leads_root (hsize : c.cacheSize ≠ 0) :
    Leads (step c) ⟨⟨⟨t.root, 0, c.cacheIt⟩, []⟩, c.cacheIt⟩
      (verdict c.cacheIt [] (t.root.events.find? (Event.hits c c.cacheIt))) := by
  refine sound t.root maxLinesCount t.isLines t.depth t.flagged c.cacheIt [] ?_ ?_
  · unfold Context.cacheEnd
    omega
  · simp

/-- `Diana_ParseCmdImpl` returns the first entry that fits, and `DI_ERROR` when there is none,
exactly when the memory before the keys of a line is not taken for a key first. -/
theorem parseCmdImpl_iff :
    (∃ n, parseCmdImpl c t.root n = some (t.expected c)) ↔ t.FrontsMissed c := by
  by_cases hsize : c.cacheSize = 0
  · have hnone : t.root.events.find? (Event.hits c c.cacheIt) = none :=
      find?_events_of_le (by simp [Context.cacheEnd, hsize])
    have hmissed : t.FrontsMissed c := by
      intro e he
      rw [hnone] at he
      cases he
    have herror : t.expected c = .error := by
      rw [expected, firstMatch_eq t c hmissed, hnone]
    refine ⟨fun _ => hmissed, fun _ => ⟨0, ?_⟩⟩
    rw [parseCmdImpl, if_pos hsize, herror]
  · obtain ⟨n, hn⟩ := (t.leads_root c hsize).exists_runFrom 0
    constructor
    · rintro ⟨m, hm⟩ e he
      rw [parseCmdImpl, if_neg hsize] at hm
      obtain ⟨path, stop⟩ := e
      cases stop with
      | entry info => rfl
      | front =>
        rw [he, verdict] at hn
        split at hm
        · cases hm
        · next o ho =>
          have hfault := runFrom_inr_unique ho hn
          rw [hfault] at hm
          exact absurd (Option.some.inj hm).symm (t.expected_ne_fault c)
    · intro hmissed
      rw [t.expected_eq c hmissed] at hn
      exact ⟨n, by rw [parseCmdImpl, if_neg hsize, hn]⟩

end Table

/-! A LINE for the opcode 02 in an INDEX. In a 64-bit build the byte before its keys that is read as
an opcode is the low byte of `m_type`, which is 2 for a LINE, and the pointer is the eight bytes
before the object. -/

def addLine : Node := .line true ⟨2, false⟩ 1 (fun _ => 2) (fun _ => .cmd { id := 0 })

def addTable : Table where
  root := .index false fun b => if b = 2 then addLine else .null
  isLines := rfl
  same := rfl
  depth := by
    intro b
    dsimp only
    split
    · exact fun _ => trivial
    · trivial
  flagged := by
    intro b
    dsimp only
    split
    · exact ⟨fun _ => rfl, fun _ => ⟨rfl, trivial⟩⟩
    · exact ⟨fun h => (Bool.false_ne_true h).elim, trivial⟩

/-- The context of `Diana_InitContext` for 32-bit code, with one byte in the cache. -/
def addContext : Context where
  mainModeOpsize := 4
  currentOpsize := 4
  mainModeAddressSize := 4
  currentAddressSize := 4
  mainModeSreg := .ds
  currentSreg := .ds
  iPrefix := .none
  hasAddressSizePrefix := false
  hasOperandSizePrefix := false
  invalidState := false
  amd64Mode := false
  rexPrefix := 0
  rexPrefixValue := 0
  cache := fun _ => 2
  cacheSize := 1
  cacheIt := 2
  lastPrefixBeforeRex := none
  prefixes := []
  testMode := false
  vexPrefix := 0
  vexVVVV := 0
  evexPrefix := 0
  evexAAA := 0
  evexLL := 0

/-- The entry fits the byte, and the search does not come to it. -/
theorem not_found_add : ¬ ∃ n, parseCmdImpl addContext addTable.root n =
    some (addTable.expected addContext) := by
  rintro ⟨n, hn⟩
  have hstep : step addContext ⟨⟨⟨addTable.root, 0, 2⟩, []⟩, 2⟩ = .inr .fault := rfl
  rw [parseCmdImpl, if_neg (by decide)] at hn
  obtain _ | n := n
  · cases hn
  · rw [show addContext.cacheIt = 2 from rfl, runFrom_inr hstep] at hn
    exact addTable.expected_ne_fault addContext (Option.some.inj hn).symm

end Diana.Decoder
