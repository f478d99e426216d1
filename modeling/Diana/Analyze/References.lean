import Diana.Analyze.Tally
import Diana.Lib.Indices

/-!
# The lists of cross references

Each cross reference is on the list of its source and on that of its target, at the place of its
creation and once. The lists are started when an instruction is made, so this rests on no reference
going from or to an instruction that is not there yet.

* `Linked`: the lists of all instructions, by the references there are;
* `Linked.createXRef`, `Linked.allocate`, ...: the operations of the owner keep it;
* `routeMarker_xrefs`, `rollback_kept`: what a rollback does to the references.
-/

namespace Diana.Analyze

open Diana.Lib

theorem Owner.isValid_of {o : Owner} {a : Nat} {i : Instruction} (hi : o.presenceVec a = some i) :
    o.isValid a = !i.flags.invalid := by
  unfold Owner.isValid
  rw [hi]

/-- The lists hold the references from and to each instruction, in the order of their creation. -/
structure Linked (o : Owner) : Prop where
  toTarget : ∀ t, o.referencesTo t = o.xrefs.findIdxs fun x => x.target = t
  fromSource : ∀ a, o.referencesFrom a = o.xrefs.findIdxs fun x => x.source = a
  source : ∀ x ∈ o.xrefs, (o.presenceVec x.source).isSome = true
  inside : ∀ x ∈ o.xrefs, ∀ a, x.target = .inside a →
    (o.presenceVec a).isSome = true ∧ x.flags.data = false
  outside : ∀ x ∈ o.xrefs, ∀ k, x.target = .outside k → k < o.externals.length

namespace Linked

variable {o o' : Owner}

theorem init (n m : Nat) : Linked (Owner.init n m) where
  toTarget _ := rfl
  fromSource _ := rfl
  source _ hx := absurd hx List.not_mem_nil
  inside _ hx := absurd hx List.not_mem_nil
  outside _ hx := absurd hx List.not_mem_nil

/-- Only the references and what is there count. -/
theorem congr (h : Linked o) (hx : o'.xrefs = o.xrefs) (ht : o'.referencesTo = o.referencesTo)
    (hf : o'.referencesFrom = o.referencesFrom) (he : o'.externals = o.externals)
    (hp : ∀ a, (o.presenceVec a).isSome = true → (o'.presenceVec a).isSome = true) : Linked o' where
  toTarget t := by rw [ht, hx, h.toTarget]
  fromSource a := by rw [hf, hx, h.fromSource]
  source x hm := hp _ (h.source x (hx ▸ hm))
  inside x hm a ha := ⟨hp _ (h.inside x (hx ▸ hm) a ha).1, (h.inside x (hx ▸ hm) a ha).2⟩
  outside x hm k hk := by
    rw [he]
    exact h.outside x (hx ▸ hm) k hk

theorem modify (h : Linked o) (a : Nat) (f : InstrFlags → InstrFlags) : Linked (o.modify a f) := by
  refine h.congr rfl rfl rfl rfl fun b hb => ?_
  by_cases hba : b = a
  · subst hba
    rw [Owner.modify_same, Option.isSome_map]
    exact hb
  · rw [Owner.modify_other hba]
    exact hb

/-- A new instruction has no references yet, so it starts with empty lists. -/
theorem allocate (h : Linked o) {a : Nat} (hnone : o.presenceVec a = none) (f : InstrFlags) :
    Linked (o.allocateInstruction a f) := by
  have hkeep : ∀ b, (o.presenceVec b).isSome = true →
      ((o.allocateInstruction a f).presenceVec b).isSome = true := by
    intro b hb
    rw [Owner.allocateInstruction_presenceVec]
    split
    · rfl
    · exact hb
  refine ⟨fun t => ?_, fun b => ?_, fun x hx => hkeep _ (h.source x hx),
    fun x hx b hb => ⟨hkeep _ (h.inside x hx b hb).1, (h.inside x hx b hb).2⟩, h.outside⟩
  · by_cases ht : t = .inside a
    · subst ht
      show (if XRefTarget.inside a = .inside a then [] else o.referencesTo (.inside a)) = _
      rw [if_pos rfl, eq_comm, List.findIdxs_eq_nil_iff]
      intro x hx
      rw [decide_eq_false_iff_not]
      intro hxa
      have hsome := (h.inside x hx a hxa).1
      rw [hnone] at hsome
      cases hsome
    · show (if t = .inside a then [] else o.referencesTo t) = _
      rw [if_neg ht]
      exact h.toTarget t
  · by_cases hb : b = a
    · subst hb
      show (if b = b then [] else o.referencesFrom b) = _
      rw [if_pos rfl, eq_comm, List.findIdxs_eq_nil_iff]
      intro x hx
      rw [decide_eq_false_iff_not]
      intro hxa
      have hsome := h.source x hx
      rw [hxa, hnone] at hsome
      cases hsome
    · show (if b = a then [] else o.referencesFrom b) = _
      rw [if_neg hb]
      exact h.fromSource b

theorem queryOrAllocate (h : Linked o) {a : Nat} {f : InstrFlags}
    (hq : o.queryOrAllocateInstruction a f = .ok o') : Linked o' := by
  rcases Owner.queryOrAllocate_cases hq with ⟨i, -, rfl⟩ | ⟨hnone, rfl⟩
  · exact h
  · exact h.allocate hnone f

theorem createXRef (h : Linked o) {source : Nat} {target : XRefTarget} {flags : XRefFlags}
    (hs : (o.presenceVec source).isSome = true)
    (hi : ∀ a, target = .inside a → (o.presenceVec a).isSome = true ∧ flags.data = false)
    (ho : ∀ k, target = .outside k → k < o.externals.length) :
    Linked (o.createXRef source target flags) where
  toTarget t := by
    show (if t = target then o.referencesTo t ++ [o.xrefs.length] else o.referencesTo t) =
      (o.xrefs ++ [_]).findIdxs _
    rw [findIdxs_concat, h.toTarget t]
    by_cases ht : t = target
    · simp [ht]
    · simp [ht, Ne.symm ht]
  fromSource a := by
    show (if a = source then o.referencesFrom a ++ [o.xrefs.length] else o.referencesFrom a) =
      (o.xrefs ++ [_]).findIdxs _
    rw [findIdxs_concat, h.fromSource a]
    by_cases ha : a = source
    · simp [ha]
    · simp [ha, Ne.symm ha]
  source x hx := by
    rcases List.mem_append.1 hx with hx | hx
    · exact h.source x hx
    · rw [List.mem_singleton.1 hx]
      exact hs
  inside x hx a ha := by
    rcases List.mem_append.1 hx with hx | hx
    · exact h.inside x hx a ha
    · rw [List.mem_singleton.1 hx] at ha ⊢
      exact hi a ha
  outside x hx k hk := by
    rcases List.mem_append.1 hx with hx | hx
    · exact h.outside x hx k hk
    · rw [List.mem_singleton.1 hx] at hk
      exact ho k hk

theorem createExternal (h : Linked o) {source : Nat} (i : Instruction) (flags : XRefFlags)
    (hs : (o.presenceVec source).isSome = true) : Linked (o.createExternal source i flags) := by
  have hnew : ∀ x ∈ o.xrefs, x.target ≠ .outside o.externals.length :=
    fun x hx he => Nat.lt_irrefl _ (h.outside x hx _ he)
  -- the new external instruction, before the reference to it
  have hext : Linked { o with
      externals := o.externals ++ [i]
      referencesTo := fun t =>
        if t = .outside o.externals.length then [] else o.referencesTo t } := by
    refine ⟨fun t => ?_, h.fromSource, h.source, h.inside, fun x hx k hk => ?_⟩
    · by_cases ht : t = .outside o.externals.length
      · subst ht
        show (if _ then _ else _) = _
        rw [if_pos rfl, eq_comm, List.findIdxs_eq_nil_iff]
        exact fun x hx => decide_eq_false (hnew x hx)
      · show (if _ then _ else _) = _
        rw [if_neg ht]
        exact h.toTarget t
    · have := h.outside x hx k hk
      simp
      omega
  refine hext.createXRef hs (fun a ha => ?_) fun k hk => ?_
  · cases ha
  · cases hk
    simp

end Linked

/-! ## What a rollback does to the references -/

/-- `DI_XREF_INVALID` -/
def XRef.mark (x : XRef) : XRef := { x with flags := { x.flags with invalid := true } }

/-- The reference goes from or to one of the instructions at `l`. -/
def XRef.touches (l : List Nat) (x : XRef) :
    Bool := x.source ∈ l || l.any fun a => x.target = .inside a

/-- A reference as it is once the instructions at `l` are rolled back. -/
def XRef.markedBy (l : List Nat) (x : XRef) : XRef := if x.touches l then x.mark else x

section MarkedBy

variable (l : List Nat) (x : XRef)

@[simp] theorem markedBy_source : (x.markedBy l).source = x.source := by
  unfold XRef.markedBy
  split <;> rfl

@[simp] theorem markedBy_target : (x.markedBy l).target = x.target := by
  unfold XRef.markedBy
  split <;> rfl

@[simp] theorem markedBy_data : (x.markedBy l).flags.data = x.flags.data := by
  unfold XRef.markedBy
  split <;> rfl

@[simp] theorem markedBy_addressTaken :
    (x.markedBy l).flags.addressTaken = x.flags.addressTaken := by
  unfold XRef.markedBy
  split <;> rfl

@[simp] theorem markedBy_nil : x.markedBy [] = x := rfl

theorem markedBy_cons (a : Nat) : (x.markedBy [a]).markedBy l = x.markedBy (a :: l) := by
  have hl : (x.markedBy [a]).touches l = x.touches l := by simp [XRef.touches]
  unfold XRef.markedBy at hl ⊢
  rw [hl]
  by_cases h1 : x.touches [a] = true
  · have hcons : x.touches (a :: l) = true := by
      simp only [XRef.touches, List.mem_cons, List.any_cons, Bool.or_eq_true, decide_eq_true_iff,
        List.not_mem_nil, or_false, List.any_nil, Bool.or_false] at h1 ⊢
      tauto
    rw [if_pos h1, if_pos hcons]
    split <;> rfl
  · have hcons : x.touches (a :: l) = x.touches l := by
      simp only [XRef.touches, List.mem_cons, List.any_cons, Bool.or_eq_true, decide_eq_true_iff,
        List.not_mem_nil, or_false, List.any_nil, Bool.or_false, not_or] at h1 ⊢
      simp [h1.1, h1.2]
    rw [if_neg h1, hcons]

end MarkedBy

namespace Linked

variable {o o' : Owner}

/-- `RouteMarker` finds all references from and to its instruction on the two lists. -/
theorem routeMarker_xrefs (h : Linked o) (a : Nat) :
    (o.routeMarker a).xrefs = o.xrefs.map (XRef.markedBy [a]) := by
  show (o.referencesFrom a).foldl (fun l i => l.modify i XRef.mark)
    ((o.referencesTo (.inside a)).foldl (fun l i => l.modify i XRef.mark) o.xrefs) = _
  rw [h.toTarget, foldl_modify_findIdxs]
  -- the first loop does not move the references from the instruction
  have hfrom : o.referencesFrom a = (o.xrefs.map fun x =>
      if decide (x.target = .inside a) = true then x.mark else x).findIdxs fun x =>
        x.source = a := by
    rw [h.fromSource, List.findIdxs_map]
    congr 1
    funext x
    by_cases hx : x.target = .inside a <;> simp [hx, XRef.mark]
  rw [hfrom, foldl_modify_findIdxs, List.map_map]
  refine List.map_congr_left fun x _ => ?_
  unfold XRef.markedBy XRef.touches
  by_cases ht : x.target = .inside a <;> by_cases hs : x.source = a <;> simp [ht, hs, XRef.mark]

theorem routeMarker (h : Linked o) (a : Nat) : Linked (o.routeMarker a) := by
  have hm := h.modify a fun f => { f with invalid := true }
  have hx := h.routeMarker_xrefs a
  refine ⟨fun t => ?_, fun b => ?_, fun x hx' => ?_, fun x hx' b hb => ?_, fun x hx' k hk => ?_⟩
  · rw [hx, List.findIdxs_map]
    simp only [Function.comp_def, markedBy_target]
    exact h.toTarget t
  · rw [hx, List.findIdxs_map]
    simp only [Function.comp_def, markedBy_source]
    exact h.fromSource b
  · rw [hx] at hx'
    obtain ⟨y, hy, rfl⟩ := List.mem_map.1 hx'
    rw [markedBy_source]
    exact hm.source y hy
  · rw [hx] at hx'
    obtain ⟨y, hy, rfl⟩ := List.mem_map.1 hx'
    rw [markedBy_target] at hb
    rw [markedBy_data]
    exact hm.inside y hy b hb
  · rw [hx] at hx'
    obtain ⟨y, hy, rfl⟩ := List.mem_map.1 hx'
    rw [markedBy_target] at hk
    exact hm.outside y hy k hk

/-- The first loop of a rollback marks what goes from or to the route. -/
theorem foldl_routeMarker (h : Linked o) (l : List Nat) :
    Linked (l.foldl Owner.routeMarker o) ∧
      (l.foldl Owner.routeMarker o).xrefs = o.xrefs.map (XRef.markedBy l) ∧
      (l.foldl Owner.routeMarker o).externals = o.externals := by
  induction l generalizing o with
  | nil =>
    refine ⟨h, ?_, rfl⟩
    rw [show XRef.markedBy [] = id from funext markedBy_nil, List.map_id]
    rfl
  | cons a l ih =>
    obtain ⟨hl, hx, he⟩ := ih (h.routeMarker a)
    refine ⟨hl, ?_, he⟩
    rw [List.foldl_cons, hx, h.routeMarker_xrefs, List.map_map]
    exact List.map_congr_left fun x _ => markedBy_cons l x a

end Linked

/-- `y` stands for `x` once the target of `x` is no code: a valid data reference from the same
instruction to the same offset. -/
def Replaces (o : Owner) (x y : XRef) : Prop :=
  y.source = x.source ∧ y.flags = { data := true, addressTaken := true } ∧
    ∃ k i, y.target = .outside k ∧ o.externals[k]? = some i ∧ x.target = .inside i.offset

/-- `o'` is `o` with one data reference for each reference of the list. -/
structure Kept (o : Owner) (kept : List XRef) (o' : Owner) : Prop where
  linked : Linked o'
  presenceVec : o'.presenceVec = o.presenceVec
  externals : o.externals <+: o'.externals
  xrefs : ∃ new, o'.xrefs = o.xrefs ++ new ∧ List.Forall₂ (Replaces o') kept new

/-- The references that `AddressTakenKeeper` keeps. -/
def keeps (o : Owner) (x : XRef) : Bool := x.flags.addressTaken && o.isValid x.source

section Keepers

variable {o o' : Owner} {kept : List XRef}

theorem Kept.refl (h : Linked o) : Kept o [] o :=
  ⟨h, rfl, List.prefix_rfl, [], (List.append_nil _).symm, .nil⟩

theorem Replaces.mono {x y : XRef} (h : Replaces o x y) (he : o.externals <+: o'.externals) :
    Replaces o' x y := by
  obtain ⟨hs, hf, k, i, hk, hi, ht⟩ := h
  obtain ⟨new, hnew⟩ := he
  refine ⟨hs, hf, k, i, hk, ?_, ht⟩
  obtain ⟨hlt, -⟩ := List.getElem?_eq_some_iff.1 hi
  rw [← hnew, List.getElem?_append_left hlt, hi]

theorem Kept.saveDataXRef (h : Kept o kept o') {x : XRef} {a : Nat} (hx : x ∈ o.xrefs)
    (ht : x.target = .inside a) : Kept o (kept ++ [x]) (o'.saveDataXRef x.source a true) := by
  obtain ⟨new, hnew, hrep⟩ := h.xrefs
  have hmem : x ∈ o'.xrefs := by
    rw [hnew]
    exact List.mem_append_left _ hx
  have hext : o'.externals <+: (o'.saveDataXRef x.source a true).externals := List.prefix_append _ _
  refine ⟨h.linked.createExternal _ _ (h.linked.source x hmem), h.presenceVec,
    h.externals.trans hext, new ++
    [⟨x.source, .outside o'.externals.length, { data := true, addressTaken := true }⟩], ?_, ?_⟩
  · rw [← List.append_assoc, ← hnew]
    rfl
  · refine List.rel_append (hrep.imp fun _ _ hr => hr.mono hext) (.cons ?_ .nil)
    exact ⟨rfl, rfl, _, ⟨a, { data := true }⟩,
      rfl, by simp [Owner.saveDataXRef, Owner.createExternal, Owner.createXRef], ht⟩

/-- `AddressTakenKeeper` at the index of a reference to the route. -/
theorem Kept.keeper (h : Kept o kept o') {i : Nat} {x : XRef} {a : Nat} (hi : o.xrefs[i]? = some x)
    (ht : x.target = .inside a) :
    Kept o (kept ++ [x].filter (keeps o)) (o'.addressTakenKeeper i) := by
  obtain ⟨new, hnew, -⟩ := h.xrefs
  obtain ⟨hlt, -⟩ := List.getElem?_eq_some_iff.1 hi
  have hmem : x ∈ o.xrefs := List.mem_of_getElem? hi
  have hdata : x.flags.data = false := by
    refine (h.linked.inside x ?_ a ht).2
    rw [hnew]
    exact List.mem_append_left _ hmem
  have hvalid : o'.isValid x.source = o.isValid x.source := by
    unfold Owner.isValid
    rw [h.presenceVec]
  unfold Owner.addressTakenKeeper
  rw [hnew, List.getElem?_append_left hlt, hi]
  simp only [hdata, hvalid, true_and]
  by_cases hk : x.flags.addressTaken = true ∧ o.isValid x.source = true
  · rw [if_pos hk, List.filter_cons_of_pos (by simpa [keeps] using hk), List.filter_nil, ht]
    exact h.saveDataXRef hmem ht
  · rw [if_neg hk, List.filter_cons_of_neg (by simpa [keeps] using hk), List.filter_nil,
      List.append_nil]
    exact h

/-- `AddressTakenRouteKeeper` meets every reference to its instruction once. -/
theorem Kept.routeKeeper (h : Kept o kept o') (a : Nat) :
    Kept o (kept ++ (o.xrefs.filter fun x => x.target = .inside a).filter (keeps o))
      (o'.addressTakenRouteKeeper a) := by
  obtain ⟨new, hnew, hrep⟩ := h.xrefs
  -- the data references that were added are not on the list
  have hlist : o'.referencesTo (.inside a) = o.xrefs.findIdxs fun x => x.target = .inside a := by
    have hout : (new.findIdxs (fun x => x.target = .inside a) (0 + o.xrefs.length)) = [] := by
      rw [List.findIdxs_eq_nil_iff]
      intro y hy
      obtain ⟨⟨n, hn⟩, rfl⟩ := List.mem_iff_get.1 hy
      obtain ⟨-, -, k, i, hk, -⟩ := hrep.get (hrep.length_eq ▸ hn) hn
      rw [hk]
      rfl
    rw [h.linked.toTarget, hnew, List.findIdxs_append, hout, List.append_nil]
  unfold Owner.addressTakenRouteKeeper
  rw [hlist]
  refine foldl_findIdxs (R := fun l s => Kept o (kept ++ l.filter (keeps o)) s) _ _ ?_
    (by simpa using h)
  intro l s i x hx hp hs
  rw [List.filter_append, ← List.append_assoc]
  exact hs.keeper hx (by simpa using hp)

theorem Kept.routeKeepers (h : Kept o kept o') (l : List Nat) :
    Kept o
    (kept ++ l.flatMap fun a => (o.xrefs.filter fun x => x.target = .inside a).filter (keeps o))
      (l.foldl Owner.addressTakenRouteKeeper o') := by
  induction l generalizing kept o' with
  | nil => simpa using h
  | cons a l ih =>
    rw [List.foldl_cons, List.flatMap_cons, ← List.append_assoc]
    exact ih (h.routeKeeper a)

end Keepers

/-- A rollback marks what goes from or to the route, and keeps the addresses that were taken from
what is still valid then. -/
theorem rollback_kept {s : Session} (h : Linked s.owner) (hn : (rollbackOffsets s).Nodup) :
    Linked (rollbackCurrentRoute s).owner ∧ ∃ kept new,
      (rollbackCurrentRoute s).owner.xrefs =
          s.owner.xrefs.map (XRef.markedBy (rollbackOffsets s)) ++ new ∧
        List.Forall₂ (Replaces (rollbackCurrentRoute s).owner) kept new ∧
        kept.Perm (s.owner.xrefs.filter fun x =>
          keeps (rollbackCurrentRoute s).owner x && x.target ∈
            (rollbackOffsets s).map .inside) := by
  generalize hR : rollbackOffsets s = R at hn
  obtain ⟨hl, hx, -⟩ := h.foldl_routeMarker R
  have hroll : (rollbackCurrentRoute s).owner =
      R.foldl Owner.addressTakenRouteKeeper (R.foldl Owner.routeMarker s.owner) := by
    rw [← hR]
    rfl
  have hkept := (Kept.refl hl).routeKeepers R
  rw [← hroll, List.nil_append] at hkept
  generalize R.foldl Owner.routeMarker s.owner = marked at hl hx hkept
  have hkeeps : ∀ x : XRef,
      keeps marked (x.markedBy R) = keeps (rollbackCurrentRoute s).owner x := by
    intro x
    unfold keeps Owner.isValid
    rw [hkept.presenceVec, markedBy_addressTaken, markedBy_source]
  -- the references of the marked owner are those before, under the map
  have hback : (R.flatMap fun a => (marked.xrefs.filter fun x => x.target = .inside a).filter
    (keeps marked)) =
      (R.flatMap fun a => (s.owner.xrefs.filter (keeps (rollbackCurrentRoute s).owner)).filter
        fun x => x.target = .inside a).map (XRef.markedBy R) := by
    rw [List.map_flatMap]
    refine List.flatMap_congr fun a _ => ?_
    rw [hx, List.filter_map, List.filter_map, List.filter_filter, List.filter_filter]
    simp only [Function.comp_def, hkeeps, markedBy_target]
    congr 1
    exact List.filter_congr fun x _ => Bool.and_comm _ _
  obtain ⟨new, hnew, hrep⟩ := hkept.xrefs
  rw [hback, List.forall₂_map_left_iff] at hrep
  refine ⟨hkept.linked, _, new, by rw [hnew, hx], hrep.imp fun x y hxy => ?_, ?_⟩
  · simpa only [Replaces, markedBy_source, markedBy_target] using hxy
  · have hinj : (R.map XRefTarget.inside).Nodup := hn.map fun a b hab => XRefTarget.inside.inj hab
    have hperm := flatMap_filter_perm XRef.target
      (s.owner.xrefs.filter (keeps (rollbackCurrentRoute s).owner)) hinj
    rw [List.flatMap_map, List.filter_filter] at hperm
    refine hperm.trans (List.Perm.of_eq (List.filter_congr fun x _ => Bool.and_comm _ _))

end Diana.Analyze
