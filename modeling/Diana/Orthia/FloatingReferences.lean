import Diana.Orthia.Floating

/-!
# References in any order

Calls of `AddReference` commute, unless they give one reference two kinds: a known kind takes the
place of an unknown one and stays.
-/

namespace Diana.Orthia

open Diana.Lib

/-- The kind of a reference after one more of the same two addresses. -/
def ReferenceKind.or (old new : ReferenceKind) :
    ReferenceKind := if old = .unknown then new else old

theorem ReferenceKind.or_comm (old k k' : ReferenceKind)
    (h : old ≠ .unknown ∨ k = .unknown ∨ k' = .unknown ∨ k = k') :
    (old.or k).or k' = (old.or k').or k := by
  unfold ReferenceKind.or
  rcases h with h | rfl | rfl | rfl
  · simp [h]
  · cases old <;> cases k' <;> rfl
  · cases old <;> cases k <;> rfl
  · rfl

namespace FloatingEntryInfo

variable {e : FloatingEntryInfo} {x y : Address} {k k' : ReferenceKind}

/-- The kind of a referrer of the entry. -/
def kindOf (e : FloatingEntryInfo) (x : Address) : Option ReferenceKind :=
  (SortedVec.find Prod.fst x e.refs).map Prod.snd

/-- The kind that `AddReference` leaves. -/
def mergeKind (old : Option ReferenceKind) (k : ReferenceKind) : ReferenceKind :=
  (old.map (·.or k)).getD k

/-- Whether `AddReference` changes the kind. -/
def changesKind (old : Option ReferenceKind) (k : ReferenceKind) : Bool :=
  match old with
  | none => true
  | some o => o = .unknown ∧ k ≠ .unknown

theorem find_refs (e : FloatingEntryInfo) (x : Address) :
    SortedVec.find Prod.fst x e.refs = (e.kindOf x).map (x, ·) := by
  unfold kindOf
  cases hf : SortedVec.find Prod.fst x e.refs with
  | none => rfl
  | some p => rw [← (SortedVec.mem_of_find hf).2]; rfl

/-- `AddReference` on an entry: the kinds merge. -/
theorem WellFormed.addReferrer_eq (h : e.WellFormed) :
    e.addReferrer x k =
      (e.withRefs (SortedVec.put Prod.fst (x, mergeKind (e.kindOf x) k) e.refs),
        changesKind (e.kindOf x) k) := by
  rw [FloatingEntryInfo.addReferrer_eq h.kinds, find_refs]
  cases ho : e.kindOf x with
  | none => rfl
  | some old =>
    simp only [Option.map_some]
    by_cases hc : old = .unknown ∧ k ≠ .unknown
    · rw [if_pos hc, hc.1]
      simp [mergeKind, ReferenceKind.or, changesKind, hc.2]
    · have hm : mergeKind (some old) k = old := by
        rw [not_and, not_not] at hc
        show old.or k = old
        unfold ReferenceKind.or
        split
        · rename_i hu
          rw [hc hu, hu]
        · rfl
      have hput : SortedVec.put Prod.fst (x, old) e.refs = e.refs := by
        refine (SortedVec.put_eq_self_iff h.sorted_refs).2 ?_
        rw [find_refs, ho]
        rfl
      rw [if_neg hc, hm, hput, withRefs_refs h.kinds]
      exact congrArg _ (decide_eq_false hc).symm

theorem WellFormed.kindOf_addReferrer (h : e.WellFormed) :
    (e.addReferrer x k).1.kindOf y =
      if y = x then some (mergeKind (e.kindOf x) k) else e.kindOf y := by
  rw [h.addReferrer_eq, kindOf, refs_withRefs, SortedVec.find_put]
  split
  · rfl
  · rfl

theorem mergeKind_comm {old : Option ReferenceKind}
    (h : (∃ o, old = some o ∧ o ≠ .unknown) ∨ k = .unknown ∨ k' = .unknown ∨ k = k') :
    mergeKind (some (mergeKind old k)) k' = mergeKind (some (mergeKind old k')) k := by
  cases old with
  | none =>
    have := ReferenceKind.or_comm .unknown k k' (h.imp_left fun ⟨o, ho, _⟩ => by cases ho)
    exact this
  | some o =>
    refine ReferenceKind.or_comm o k k' (h.imp_left ?_)
    rintro ⟨o', ⟨⟩, hne⟩
    exact hne

theorem changesKind_comm (old : Option ReferenceKind) (k k' : ReferenceKind) :
    (changesKind old k || changesKind (some (mergeKind old k)) k') =
      (changesKind old k' || changesKind (some (mergeKind old k')) k) := by
  cases old with
  | none => rfl
  | some o => cases o <;> cases k <;> cases k' <;> rfl

/-- Two references to one entry, in either order. -/
theorem WellFormed.addReferrer_comm (h : e.WellFormed) (x y : Address) (k k' : ReferenceKind)
    (hk : x = y → (∃ o, e.kindOf x = some o ∧ o ≠ .unknown) ∨ k = .unknown ∨
      k' = .unknown ∨ k = k') :
    ((e.addReferrer x k).1.addReferrer y k').1 = ((e.addReferrer y k').1.addReferrer x k).1 ∧
      ((e.addReferrer x k).2 || ((e.addReferrer x k).1.addReferrer y k').2) =
        ((e.addReferrer y k').2 || ((e.addReferrer y k').1.addReferrer x k).2) := by
  have hx := (kept_addReferrer h x k).wellFormed
  have hy := (kept_addReferrer h y k').wellFormed
  rw [hx.addReferrer_eq, hy.addReferrer_eq, h.kindOf_addReferrer, h.kindOf_addReferrer]
  rw [h.addReferrer_eq, h.addReferrer_eq]
  by_cases hxy : x = y
  · subst hxy
    have hm := mergeKind_comm (hk rfl)
    have hput : ∀ a b : ReferenceKind, SortedVec.put Prod.fst (x, b)
        (SortedVec.put Prod.fst (x, a) e.refs) = SortedVec.put Prod.fst (x, b) e.refs :=
      fun _ _ => SortedVec.put_put_of_eq h.sorted_refs rfl
    simp only [if_true, refs_withRefs, changesKind_comm _ k k', and_true, hput, hm]
    rfl
  · simp only [hxy, Ne.symm hxy, if_false, refs_withRefs, Bool.or_comm, and_true]
    rw [SortedVec.put_comm (a := (x, _)) (b := (y, _)) h.sorted_refs hxy]
    rfl

end FloatingEntryInfo

namespace FloatingRegionInfo

variable {r : FloatingRegionInfo} {a b x y : Address} {k k' : ReferenceKind}

/-- The kind of a reference of the region. -/
def kindAt (r : FloatingRegionInfo) (a x : Address) : Option ReferenceKind :=
  (r.findEntry a).bind (·.kindOf x)

theorem findEntry_updateEntry {f : FloatingEntryInfo → FloatingEntryInfo × Bool}
    (hf : (f ((r.findEntry a).getD (.new a))).1.address = a) :
    (r.updateEntry a f).region.findEntry b =
      if b = a then some (f ((r.findEntry a).getD (.new a))).1 else r.findEntry b := by
  show SortedVec.find FloatingEntryInfo.address b (SortedVec.put FloatingEntryInfo.address
    (f ((r.findEntry a).getD (.new a))).1 r.entries) = _
  rw [SortedVec.find_put, hf]
  rfl

theorem WellFormed.address_addReferrer (h : r.WellFormed) :
    (((r.findEntry a).getD (.new a)).addReferrer x k).1.address = a :=
  (FloatingEntryInfo.kept_addReferrer h.findEntry_getD.1 x k).address.trans h.findEntry_getD.2

theorem kindOf_getD (r : FloatingRegionInfo) (a x : Address) :
    ((r.findEntry a).getD (.new a)).kindOf x = r.kindAt a x := by
  unfold kindAt
  cases r.findEntry a with
  | none => rfl
  | some e => rfl

theorem WellFormed.kindAt_addReference (h : r.WellFormed) :
    (r.addReference a x k).region.kindAt b y =
      if b = a ∧ y = x then some (FloatingEntryInfo.mergeKind (r.kindAt a x) k)
      else r.kindAt b y := by
  unfold addReference
  rw [kindAt, findEntry_updateEntry h.address_addReferrer]
  by_cases hb : b = a
  · subst hb
    rw [if_pos rfl, Option.bind_some, h.findEntry_getD.1.kindOf_addReferrer, kindOf_getD,
      kindOf_getD]
    simp
  · rw [if_neg hb, if_neg fun hc => hb hc.1]
    rfl

theorem addReference_of_findEntry {o : Option FloatingEntryInfo} (h : r.findEntry a = o) :
    r.addReference a x k =
      { region := { r with
          entries := SortedVec.put FloatingEntryInfo.address
            ((o.getD (.new a)).addReferrer x k).1 r.entries }
        changed := ((o.getD (.new a)).addReferrer x k).2
        newEntry := !o.isSome } := by
  subst h
  rfl

/-- Two calls of `AddReference`, in either order. -/
theorem WellFormed.addReference_comm (h : r.WellFormed) (a x : Address) (k : ReferenceKind)
    (b y : Address) (k' : ReferenceKind)
    (hk : a = b → x = y → (∃ o, r.kindAt a x = some o ∧ o ≠ .unknown) ∨ k = .unknown ∨
      k' = .unknown ∨ k = k') :
    ((r.addReference a x k).region.addReference b y k').region =
        ((r.addReference b y k').region.addReference a x k).region ∧
      ((r.addReference a x k).changed ||
        ((r.addReference a x k).region.addReference b y k').changed) =
        ((r.addReference b y k').changed ||
          ((r.addReference b y k').region.addReference a x k).changed) ∧
      ((r.addReference a x k).newEntry ||
          ((r.addReference a x k).region.addReference b y k').newEntry) =
        ((r.addReference b y k').newEntry ||
          ((r.addReference b y k').region.addReference a x k).newEntry) := by
  have hfa : (r.addReference a x k).region.findEntry b = _ :=
    findEntry_updateEntry (b := b) h.address_addReferrer
  have hfb : (r.addReference b y k').region.findEntry a = _ :=
    findEntry_updateEntry (b := a) h.address_addReferrer
  rw [addReference_of_findEntry hfa, addReference_of_findEntry hfb]
  by_cases hab : a = b
  · subst hab
    have he := (h.findEntry_getD (a := a)).1
    have hcomm := he.addReferrer_comm x y k k'
      (fun hxy => by rw [kindOf_getD]; exact hk rfl hxy)
    simp only [if_true, Option.getD_some, Option.isSome_some, Bool.not_true]
    have hx := FloatingEntryInfo.kept_addReferrer he x k
    have hy := FloatingEntryInfo.kept_addReferrer he y k'
    have hxy := FloatingEntryInfo.kept_addReferrer hx.wellFormed y k'
    have hyx := FloatingEntryInfo.kept_addReferrer hy.wellFormed x k
    have hput := SortedVec.put_put_of_eq h.entries hxy.address.symm
    have hput' := SortedVec.put_put_of_eq h.entries hyx.address.symm
    have heq := congrArg (fun e => SortedVec.put FloatingEntryInfo.address e r.entries) hcomm.1
    exact ⟨congrArg (fun entries => { r with entries }) (hput.trans (heq.trans hput'.symm)),
      hcomm.2, rfl⟩
  · rw [if_neg (Ne.symm hab), if_neg hab]
    have hput := SortedVec.put_comm
      (a := (((r.findEntry a).getD (.new a)).addReferrer x k).1)
      (b := (((r.findEntry b).getD (.new b)).addReferrer y k').1) h.entries (by
        rw [h.address_addReferrer, h.address_addReferrer]
        exact hab)
    exact ⟨congrArg (fun entries => { r with entries }) hput, Bool.or_comm _ _, Bool.or_comm _ _⟩

end FloatingRegionInfo

end Diana.Orthia
