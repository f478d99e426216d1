import Diana.Processor.ArithCommands
import Diana.Processor.Stack

/-!
# String commands

One element of `movs`, `stos`, `lods`, `cmps` and `scas`, and what it leaves alone.

* `StringCommand.call`: the handlers; `StringCommand.body`: the handlers after they have
  told that they ignore ZF;
* `body_keeps`, `element_stringFrame`: an element leaves RCX, RIP and the state of the fetch;
* `StringCommand.store`: what an element does before its write;
* `body_faultsLike`: an element fails where that fails, or the write;
* `body_fault`: an element that fails changes nothing but the memory.
-/

namespace Diana.Processor

open Diana.Lib

variable {μ : Type} (S : MemoryStream μ) (I : Insn)

/-! ## The handlers -/

/-- `DianaProcessor_CmdUsesNormalRep` -/
def Proc.usesNormalRep (s : Proc μ) : Proc μ :=
  { s with stateFlags := { s.stateFlags with cmdUsesNormalRep := true } }

/-- `Diana_Call_movs` after `DianaProcessor_CmdUsesNormalRep` -/
def moveString : Exec μ Unit := do
  if I.operands.length ≠ 2 then throw (.command .error)
  match stringRegister I.addressSize 6, stringRegister I.addressSize 7 with
  | some si, some di => do
    let (srcAddress, src) ← readString S I .ds si
    let (selector, destAddress) ← calcIndexM I ⟨.es, some di, none, 0, 0⟩
    setMemValue S selector destAddress I.firstSize src .es
    let s ← get
    modify fun t => t.setValue si (nextString I s.flags srcAddress)
    modify fun t => t.setValue di (nextString I s.flags destAddress)
  | _, _ => throw (.command .error)

def callMovs : Exec μ Unit := do
  modify Proc.usesNormalRep
  moveString S I

/-- `Diana_Call_stos` after `DianaProcessor_CmdUsesNormalRep` -/
def storeString : Exec μ Unit := do
  let s ← get
  let src := s.getValueEx .rax I.firstSize
  if I.operands.length ≠ 1 then throw (.command .error)
  match stringRegister I.addressSize 7 with
  | some di => do
    -- the value found there is not used
    let (selector, destAddress) ← calcIndexM I ⟨.es, some di, none, 0, 0⟩
    let _ ← getMemValue S selector destAddress I.firstSize .es
    setMemValue S selector destAddress I.firstSize src .es
    let s ← get
    modify fun t => t.setValue di (nextString I s.flags destAddress)
  | none => throw (.command .error)

def callStos : Exec μ Unit := do
  modify Proc.usesNormalRep
  storeString S I

/-- `Diana_Call_lods` after `DianaProcessor_CmdUsesNormalRep`; `seg` is `currentCmd_sreg`. -/
def loadString (seg : SegReg) : Exec μ Unit := do
  let s ← get
  let rsi := s.getValueEx .rsi I.addressSize
  let selector := s.getValue (.seg seg)
  let value ← getMemValue S selector rsi I.firstSize seg
  modify fun t => t.setValueEx (some .rax) .rax value I.firstSize
  let s ← get
  modify fun t => t.setValueEx (some .rsi) .rsi (nextString I s.flags rsi) I.addressSize

def callLods (seg : SegReg) : Exec μ Unit := do
  modify Proc.usesNormalRep
  loadString S I seg

inductive StringCommand where
  | movs | stos | lods | cmps | scas
  deriving DecidableEq, Repr

namespace StringCommand

/-- The REP prefix of the command does not look at ZF. -/
def normalRep : StringCommand → Bool
  | movs | stos | lods => true
  | cmps | scas => false

def command : StringCommand → Command
  | movs => .movs
  | stos => .stos
  | lods => .lods
  | cmps => .cmps
  | scas => .scas

def call (seg : SegReg) : StringCommand → Exec μ Unit
  | movs => callMovs S I
  | stos => callStos S I
  | lods => callLods S I seg
  | cmps => callCmps S I
  | scas => callScas S I

def body (seg : SegReg) : StringCommand → Exec μ Unit
  | movs => moveString S I
  | stos => storeString S I
  | lods => loadString S I seg
  | cmps => callCmps S I
  | scas => callScas S I

/-- The state in which the body starts. -/
def mark (c : StringCommand) (s : Proc μ) : Proc μ := if c.normalRep then s.usesNormalRep else s

theorem call_apply (c : StringCommand) (seg : SegReg) (s : Proc μ) :
    c.call S I seg s = c.body S I seg (c.mark s) := by cases c <;> rfl

end StringCommand

/-! ## What an element leaves alone -/

/-- What no element changes; the request for PF, SF and ZF may be taken back. -/
structure StringFrame (s t : Proc μ) : Prop where
  mode : t.mode = s.mode
  rcx : t.getValue .rcx = s.getValue .rcx
  rip : t.getValue .rip = s.getValue .rip
  ripChanged : t.stateFlags.ripChanged = s.stateFlags.ripChanged
  normalRep : t.stateFlags.cmdUsesNormalRep = s.stateFlags.cmdUsesNormalRep
  toRemove : t.stateFlagsToRemove = s.stateFlagsToRemove
  idle : s.Idle → t.Idle

instance : Std.Refl (@StringFrame μ) := ⟨fun _ => ⟨rfl, rfl, rfl, rfl, rfl, rfl, id⟩⟩

instance : IsTrans (Proc μ) StringFrame where
  trans _ _ _ h h' := ⟨h'.mode.trans h.mode, h'.rcx.trans h.rcx, h'.rip.trans h.rip,
    h'.ripChanged.trans h.ripChanged, h'.normalRep.trans h.normalRep, h'.toRemove.trans h.toRemove,
    fun hs => h'.idle (h.idle hs)⟩

/-- A register of another cell than RCX and RIP. -/
theorem stringFrame_setValueEx (s : Proc μ) {r : Register} (hrcx : r.cell ≠ .gp 1)
    (hrip : r.cell ≠ .rip) (v : Value) (size : Size) :
    StringFrame s (s.setValueEx (some r) r v size) := by
  have hr : ¬ (some r = some Register.rip ∨ some r = some Register.ip) := by
    rintro (h | h) <;> cases h <;> exact hrip rfl
  have hrest := Proc.sameRest_setValueEx s (some r) r v size
  have hflags : (s.setValueEx (some r) r v size).stateFlags = s.stateFlags := by
    unfold Proc.setValueEx Proc.updatePsz Proc.setCell
    dsimp only
    rw [if_neg hr]
    split_ifs <;> rfl
  exact ⟨hrest.mode, getValueEx_setValueEx_of_ne s (Ne.symm hrcx) _ _ _ _,
    getValueEx_setValueEx_of_ne s (Ne.symm hrip) _ _ _ _, congrArg _ hflags, congrArg _ hflags,
    hrest.toRemove, (congrArg StateFlags.updateFlagsPsz hflags).trans⟩

theorem setMemValue_keeps (selector offset : Value) (size : Size) (v : Value) (seg : SegReg) :
    Keeps (fun s t : Proc μ => t = { s with mem := t.mem })
    (setMemValue S selector offset size v seg) := by
  intro s
  unfold setMemValue
  rw [post_bind, post_get]
  obtain ⟨r, mem⟩ := S.write s.mem selector offset (leBytes size.bytes v) seg
  cases r with
  | error e => rfl
  | ok wrote =>
    by_cases h : wrote ≠ size.bytes
    · simp only [post_bind, post_set, if_pos h]
      rfl
    · simp only [post_bind, post_set, if_neg h]
      rfl

/-- What an element may do, one by one. -/
structure Element (R : Proc μ → Proc μ → Prop) : Prop where
  flags (s : Proc μ) (f : Value) : R s { s with flags := f }
  memory (s : Proc μ) (mem : μ) : R s { s with mem }
  register (s : Proc μ) {r : Register} (hrcx : r.cell ≠ .gp 1) (hrip : r.cell ≠ .rip) (v : Value)
    (size : Size) : R s (s.setValueEx (some r) r v size)
  updatePSZ (s : Proc μ) (v : Value) (size : Size) : R s (s.updatePSZ v size)

theorem element_stringFrame : Element (@StringFrame μ) where
  flags _ _ := ⟨rfl, rfl, rfl, rfl, rfl, rfl, id⟩
  memory _ _ := ⟨rfl, rfl, rfl, rfl, rfl, rfl, id⟩
  register s _ := stringFrame_setValueEx s
  updatePSZ _ _ _ := ⟨rfl, rfl, rfl, rfl, rfl, rfl, fun _ => rfl⟩

section

variable {S} {I} {R : Proc μ → Proc μ → Prop}

namespace Element

theorem setValue (hR : Element R) {addressSize : Size} {r : Register} {i : Fin 16}
    (h : stringRegister addressSize i = some r) (hi : i ≠ 1) (v : Value) :
    Keeps R (modify (fun t => t.setValue r v) : Exec μ Unit) := by
  have hcell : r.cell = .gp i := by
    cases addressSize <;> cases h <;> rfl
  exact Keeps.modify fun s =>
    hR.register s (by rw [hcell]; simpa using hi) (by rw [hcell]; nofun) v r.size

theorem modifyFlags (hR : Element R) (f : Value → Value) : Keeps R (modifyFlags f : Exec μ Unit) :=
  Keeps.modify fun s => hR.flags s _

theorem setMemValue (hR : Element R) (selector offset : Value) (size : Size) (v : Value)
    (seg : SegReg) : Keeps R (setMemValue S selector offset size v seg) :=
  (setMemValue_keeps S selector offset size v seg).mono fun s _ h => h ▸ hR.memory s _

end Element

variable [Std.Refl R]

/-- The test for the number of operands. -/
theorem keeps_guard {c : Prop} [Decidable c] {e : Fault} {f : Unit → Exec μ Unit} {x : Exec μ Unit}
    (hx : Keeps R x) : Keeps R (if c then throw e >>= f else x) :=
  Keeps.ite (fun s => refl_of R s) hx

/-- What an element may do is kept by the whole element, also where it fails. -/
theorem body_keeps [IsTrans (Proc μ) R] (hR : Element R) (c : StringCommand) (seg : SegReg) :
    Keeps R (c.body S I seg) := by
  cases c with
  | movs =>
    change Keeps _ (moveString S I)
    unfold moveString
    refine keeps_guard ?_
    split
    · rename_i si di hsi hdi
      refine (readString_keeps .ds si).of_eq.bind fun p => ?_
      refine (calcIndexM_keeps I _).of_eq.bind fun q => ?_
      refine (hR.setMemValue q.1 q.2 I.firstSize p.2 .es).bind fun _ => ?_
      refine Keeps.get.bind fun s => ?_
      exact (hR.setValue hsi (by decide) _).bind fun _ => hR.setValue hdi (by decide) _
    · exact Keeps.throw _
  | stos =>
    change Keeps _ (storeString S I)
    unfold storeString
    refine Keeps.get.bind fun s => keeps_guard ?_
    split
    · rename_i di hdi
      refine (calcIndexM_keeps I _).of_eq.bind fun q =>
        (getMemValue_keeps S _ _ _ _).of_eq.bind fun _ => ?_
      refine (hR.setMemValue q.1 q.2 I.firstSize _ .es).bind fun _ => Keeps.get.bind fun s => ?_
      exact hR.setValue hdi (by decide) _
    · exact Keeps.throw _
  | lods =>
    change Keeps _ (loadString S I seg)
    unfold loadString
    refine Keeps.get.bind fun s => (getMemValue_keeps S _ _ _ _).of_eq.bind fun _ => ?_
    refine (Keeps.modify fun s => hR.register s (by decide) (by decide) _ _).bind fun _ => ?_
    exact Keeps.get.bind fun s => Keeps.modify fun s =>
      hR.register s (by decide) (by decide) _ _
  | cmps =>
    change Keeps _ (callCmps S I)
    unfold callCmps
    refine keeps_guard ?_
    split
    · rename_i si di hsi hdi
      refine (readString_keeps .ds si).of_eq.bind fun p =>
        (readString_keeps .es di).of_eq.bind fun q => ?_
      refine Keeps.get.bind fun s => (hR.modifyFlags _).bind fun _ =>
        (hR.modifyFlags _).bind fun _ => ?_
      refine (hR.setValue hsi (by decide) _).bind fun _ => ?_
      refine (hR.setValue hdi (by decide) _).bind fun _ => ?_
      exact Keeps.modify fun s => hR.updatePSZ s _ _
    · exact Keeps.throw _
  | scas =>
    change Keeps _ (callScas S I)
    unfold callScas
    refine Keeps.get.bind fun s => keeps_guard ?_
    split
    · rename_i di hdi
      refine (readString_keeps .es di).of_eq.bind fun q => ?_
      refine (hR.modifyFlags _).bind fun _ => (hR.modifyFlags _).bind fun _ => ?_
      refine (hR.setValue hdi (by decide) _).bind fun _ => ?_
      exact Keeps.modify fun s => hR.updatePSZ s _ _
    · exact Keeps.throw _

end

/-! ## Elements that fail -/

/-- The write of an element. -/
structure Store where
  selector : Value
  address : Value
  value : Value

namespace Store

def write (d : Store) : Exec μ Unit := setMemValue S d.selector d.address I.firstSize d.value .es

/-- What the stream says to the write, and the memory after it. -/
def outcome (d : Store) (m : μ) : Except Status Nat × μ :=
  S.write m d.selector d.address (leBytes I.firstSize.bytes d.value) .es

/-- A write that fails, or takes a part of the value, leaves the memory as it was. -/
def Clean (d : Store) (m : μ) :
    Prop := (d.outcome S I m).1 ≠ .ok I.firstSize.bytes → (d.outcome S I m).2 = m

end Store

/-- What `moveString` does before its write. -/
def moveStore : Exec μ (Option Store) := do
  if I.operands.length ≠ 2 then throw (.command .error)
  match stringRegister I.addressSize 6, stringRegister I.addressSize 7 with
  | some si, some di => do
    let (_, src) ← readString S I .ds si
    let (selector, destAddress) ← calcIndexM I ⟨.es, some di, none, 0, 0⟩
    return some ⟨selector, destAddress, src⟩
  | _, _ => throw (.command .error)

/-- What `storeString` does before its write. -/
def storeStore : Exec μ (Option Store) := do
  let s ← get
  if I.operands.length ≠ 1 then throw (.command .error)
  match stringRegister I.addressSize 7 with
  | some di => do
    let (selector, destAddress) ← calcIndexM I ⟨.es, some di, none, 0, 0⟩
    let _ ← getMemValue S selector destAddress I.firstSize .es
    return some ⟨selector, destAddress, s.getValueEx .rax I.firstSize⟩
  | none => throw (.command .error)

/-- The read of `loadString`. -/
def loadStore (seg : SegReg) : Exec μ (Option Store) := do
  let s ← get
  let _ ← getMemValue S (s.getValue (.seg seg)) (s.getValueEx .rsi I.addressSize) I.firstSize seg
  return none

/-- The reads of `callCmps`. -/
def cmpsStore : Exec μ (Option Store) := do
  if I.operands.length ≠ 2 then throw (.command .error)
  match stringRegister I.addressSize 6, stringRegister I.addressSize 7 with
  | some si, some di => do
    let _ ← readString S I .ds si
    let _ ← readString S I .es di
    return none
  | _, _ => throw (.command .error)

/-- The read of `callScas`. -/
def scasStore : Exec μ (Option Store) := do
  if I.operands.length ≠ 1 then throw (.command .error)
  match stringRegister I.addressSize 7 with
  | some di => do
    let _ ← readString S I .es di
    return none
  | none => throw (.command .error)

/-- What an element does before its write, which `lods`, `cmps` and `scas` do not have. -/
def StringCommand.store (seg : SegReg) : StringCommand → Exec μ (Option Store)
  | movs => moveStore S I
  | stos => storeStore S I
  | lods => loadStore S I seg
  | cmps => cmpsStore S I
  | scas => scasStore S I

/-- `x` fails where `y`, which changes nothing, fails, and where the write that `y` finds fails. -/
def FaultsLike (x : Exec μ Unit) (y : Exec μ (Option Store)) : Prop :=
  ∀ s e u, x s = .error e u ↔
    (u = s ∧ y s = .error e s) ∨ ∃ d, y s = .ok (some d) s ∧ d.write S I s = .error e u

section

variable {S I} {α : Type} {x : Exec μ Unit} {y : Exec μ (Option Store)}

theorem FaultsLike.throw (e : Fault) :
    FaultsLike S I (MonadExcept.throw e) (MonadExcept.throw e) := by
  intro s e' u
  constructor
  · intro h
    cases h
    exact .inl ⟨rfl, rfl⟩
  · rintro (⟨rfl, h⟩ | ⟨d, h, -⟩)
    · cases h
      rfl
    · cases h

theorem FaultsLike.get {f : Proc μ → Exec μ Unit} (h : ∀ s, FaultsLike S I (f s) y) :
    FaultsLike S I (MonadState.get >>= f) y := fun s => h s s

/-- After a read. -/
theorem FaultsLike.read {r : Exec μ α} {f : α → Exec μ Unit} {g : α → Exec μ (Option Store)}
    (hr : Keeps Eq r) (hf : ∀ a, FaultsLike S I (f a) (g a)) :
    FaultsLike S I (r >>= f) (r >>= g) := by
  intro s e u
  have hkeeps := hr s
  cases hrun : r s with
  | ok a t =>
    obtain rfl : s = t := hkeeps.ok hrun
    rw [bind_of_ok hrun, bind_of_ok hrun]
    exact hf a s e u
  | error e' t =>
    obtain rfl : s = t := hkeeps.error hrun
    rw [bind_of_error hrun, bind_of_error hrun]
    exact FaultsLike.throw e' s e u

/-- The test for the number of operands. -/
theorem FaultsLike.guard {c : Prop} [Decidable c] {e : Fault} {f : Unit → Exec μ Unit}
    {g : Unit → Exec μ (Option Store)} (h : FaultsLike S I x y) :
    FaultsLike S I (if c then MonadExcept.throw e >>= f else x)
    (if c then MonadExcept.throw e >>= g else y) := by
  split
  · exact FaultsLike.throw e
  · exact h

/-- A write, and what cannot fail. -/
theorem FaultsLike.write (d : Store) {f : Unit → Exec μ Unit}
    (hf : ∀ a s, Post (f a) s (fun _ _ => True) fun _ _ => False) :
    FaultsLike S I (d.write S I >>= f) (pure (some d)) := by
  intro s e u
  constructor
  · intro h
    refine .inr ⟨d, rfl, ?_⟩
    cases hw : d.write S I s with
    | ok a t =>
      rw [bind_of_ok hw] at h
      exact ((hf a t).error h).elim
    | error e' t =>
      rw [bind_of_error hw] at h
      exact h
  · rintro (⟨-, h⟩ | ⟨d', h, hw⟩)
    · cases h
    · cases h
      exact bind_of_error hw

/-- What cannot fail. -/
theorem FaultsLike.of_total (hx : ∀ s, Post x s (fun _ _ => True) fun _ _ => False) :
    FaultsLike S I x (pure none) := by
  intro s e u
  constructor
  · intro h
    exact ((hx s).error h).elim
  · rintro (⟨-, h⟩ | ⟨d, h, -⟩)
    · cases h
    · cases h

end

theorem body_faultsLike (c : StringCommand) (seg : SegReg) :
    FaultsLike S I (c.body S I seg) (c.store S I seg) := by
  cases c with
  | movs =>
    change FaultsLike S I (moveString S I) (moveStore S I)
    unfold moveString moveStore
    refine .guard ?_
    cases stringRegister I.addressSize 6 with
    | none => exact .throw _
    | some si =>
      cases stringRegister I.addressSize 7 with
      | none => exact .throw _
      | some di =>
        refine .read (readString_keeps .ds si) fun p => .read (calcIndexM_keeps I _) fun q => ?_
        exact .write ⟨q.1, q.2, p.2⟩ fun _ _ => trivial
  | stos =>
    change FaultsLike S I (storeString S I) (storeStore S I)
    unfold storeString storeStore
    refine .read Keeps.get fun s => .guard ?_
    cases stringRegister I.addressSize 7 with
    | none => exact .throw _
    | some di =>
      refine .read (calcIndexM_keeps I _) fun q => .read (getMemValue_keeps S _ _ _ _) fun _ => ?_
      exact .write ⟨q.1, q.2, s.getValueEx .rax I.firstSize⟩ fun _ _ => trivial
  | lods =>
    change FaultsLike S I (loadString S I seg) (loadStore S I seg)
    unfold loadString loadStore
    exact .read Keeps.get fun s => .read (getMemValue_keeps S _ _ _ _) fun _ =>
      .of_total fun _ => trivial
  | cmps =>
    change FaultsLike S I (callCmps S I) (cmpsStore S I)
    unfold callCmps cmpsStore
    refine .guard ?_
    cases stringRegister I.addressSize 6 with
    | none => exact .throw _
    | some si =>
      cases stringRegister I.addressSize 7 with
      | none => exact .throw _
      | some di =>
        refine .read (readString_keeps .ds si) fun p => .read (readString_keeps .es di) fun q => ?_
        exact .of_total fun _ => trivial
  | scas =>
    change FaultsLike S I (callScas S I) (scasStore S I)
    unfold callScas scasStore
    refine .get fun s => .guard ?_
    cases stringRegister I.addressSize 7 with
    | none => exact .throw _
    | some di => exact .read (readString_keeps .es di) fun q => .of_total fun _ => trivial

/-- An element that fails changes nothing but the memory. -/
theorem body_fault (c : StringCommand) (seg : SegReg) (s : Proc μ) :
    Post (c.body S I seg) s (fun _ _ => True) fun _ t => t = { s with mem := t.mem } := by
  unfold Post
  cases hrun : c.body S I seg s with
  | ok a t => trivial
  | error e t =>
    dsimp only
    rcases (body_faultsLike S I c seg s e t).1 hrun with ⟨rfl, -⟩ | ⟨d, -, hw⟩
    · rfl
    · exact (setMemValue_keeps S d.selector d.address I.firstSize d.value .es s).error hw

/-- The elements of a command all leave the memory where they fail if its writes do. -/
theorem mem_of_fault {c : StringCommand} {seg : SegReg} {s u : Proc μ} {e : Fault}
    (hclean : ∀ d, c.store S I seg s = .ok (some d) s → d.Clean S I s.mem)
    (h : c.body S I seg s = .error e u) : u.mem = s.mem := by
  rcases (body_faultsLike S I c seg s e u).1 h with ⟨rfl, -⟩ | ⟨d, hd, hw⟩
  · rfl
  · obtain ⟨hu, hne⟩ := (setMemValue_post S d.selector d.address I.firstSize d.value .es s).error hw
    rw [hu]
    exact hclean d hd hne

/-- A write that is not completed is a failed element. -/
theorem fault_of_store {c : StringCommand} {seg : SegReg} {s : Proc μ} {d : Store}
    (hd : c.store S I seg s = .ok (some d) s)
    (hne : (d.outcome S I s.mem).1 ≠ .ok I.firstSize.bytes) :
    ∃ e, c.body S I seg s = .error e { s with mem := (d.outcome S I s.mem).2 } := by
  have hpost := setMemValue_post S d.selector d.address I.firstSize d.value .es s
  cases hw : d.write S I s with
  | ok a t => exact absurd (congrArg Prod.fst (setMemValue_ok hw).1) hne
  | error e t =>
    obtain ⟨rfl, -⟩ := hpost.error hw
    exact ⟨e, (body_faultsLike S I c seg s e _).2 (.inr ⟨d, hd, hw⟩)⟩

/-- `lods`, `cmps` and `scas` have no write. -/
theorem store_ne_some {c : StringCommand} (hm : c ≠ .movs) (hs : c ≠ .stos)
    (seg : SegReg) (d : Store) (s t : Proc μ) : c.store S I seg s ≠ .ok (some d) t := by
  have hpost : Post (c.store S I seg) s (fun o _ => o = none) fun _ _ => True := by
    cases c with
    | movs => exact absurd rfl hm
    | stos => exact absurd rfl hs
    | lods => exact post_bind_of_forall fun _ _ => post_bind_of_forall fun _ _ => rfl
    | cmps =>
      change Post (cmpsStore S I) _ _ _
      unfold cmpsStore
      refine post_ite (fun _ => trivial) fun _ => ?_
      split
      · exact post_bind_of_forall fun _ _ => post_bind_of_forall fun _ _ => rfl
      · trivial
    | scas =>
      change Post (scasStore S I) _ _ _
      unfold scasStore
      refine post_ite (fun _ => trivial) fun _ => ?_
      split
      · exact post_bind_of_forall fun _ _ => rfl
      · trivial
  intro h
  cases hpost.ok h

end Diana.Processor
