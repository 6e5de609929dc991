import Jinux.Vm.CowFault

/-!
# Page faults and protection through a VMAR

A page fault goes down to the child VMAR that contains the address and then to the mapping that does
(`Vmar.handlePageFault`).  `Vmar.protect` changes the permissions of every mapping that meets the
range; if a mapping refuses the permissions, those before it keep the new ones.

Neither moves a mapping: `Vmar.bare` forgets the permissions and the mapped pages and stays the
same.
-/

namespace Jinux

open StateRules Result OrdMap List Option

namespace Vmar

mutual

/-- The search of `handle_page_fault`: the keys of the child VMARs on the way, the key of the
mapping, and the mapping. -/
def faultTarget : Vmar → ℕ → Result (List ℕ × ℕ × VmMapping)
  | ⟨base, size, _, ⟨children⟩, ⟨mappings⟩, _⟩, addr =>
    if addr < base ∨ base + size ≤ addr then
      returnErrnoWithMessage .eacces "page fault addr is not in current vmar"
    else
      match faultTargetInChild children addr with
      | some r => r
      | none =>
        match mappings.find? fun e => e.1 ≤ addr && addr < e.1 + e.2.mapSize with
        | none => returnErrnoWithMessage .eacces "page fault addr is not in current vmar"
        | some (key, m) => .ok ([], key, m)

/-- The loop over the children: the first one that contains the address decides. -/
def faultTargetInChild : List (ℕ × Vmar) → ℕ → Option (Result (List ℕ × ℕ × VmMapping))
  | [], _ => none
  | (k, c) :: cs, addr =>
    if k ≤ addr ∧ addr < k + c.size then
      some (do
        let (path, key, m) ← faultTarget c addr
        pure (k :: path, key, m))
    else faultTargetInChild cs addr

end

/-- Replace a mapping of the VMAR at the end of a path. -/
def setMapping (v : Vmar) (path : List ℕ) (key : ℕ) (m : VmMapping) : Vmar :=
  match v.at? path with
  | none => v
  | some u => v.replaceAt path { u with vmMappings := u.vmMappings.insert key m }

/-- `handle_page_fault` -/
def handlePageFault (v : Vmar) (s : VmSpace) (addr : ℕ) (write : Bool) : VmoM (Vmar × VmSpace) := do
  let (path, key, m) ← liftR (v.faultTarget addr)
  let (m, s) ← m.handlePageFault s addr write
  return (v.setMapping path key m, s)

/-! ### Protection -/

/-- The loop of `do_protect_inner` over the mappings: what it leaves behind, and what it returns. -/
def protectMappings (perms : VmPerms) (range : Range) :
    List (ℕ × VmMapping) → VmSpace → (List (ℕ × VmMapping) × VmSpace) × Result Unit
  | [], s => (([], s), .ok ())
  | (k, m) :: es, s =>
    let vmMappingRange : Range := ⟨k, k + m.mapSize⟩
    if isIntersected range vmMappingRange then
      match m.protect s perms (range.inter vmMappingRange) with
      | .error e => (((k, m) :: es, s), .error e)
      | .ok (m, s) =>
        let p := protectMappings perms range es s
        (((k, m) :: p.1.1, p.1.2), p.2)
    else
      let p := protectMappings perms range es s
      (((k, m) :: p.1.1, p.1.2), p.2)

mutual

/-- `do_protect_inner` -/
def doProtectInner (perms : VmPerms) : Vmar → Range → VmSpace → (Vmar × VmSpace) × Result Unit
  | ⟨base, size, isDestroyed, ⟨children⟩, ⟨mappings⟩, regions⟩, range, s =>
    match protectMappings perms range mappings s with
    | ((mappings, s), .error e) =>
      ((⟨base, size, isDestroyed, ⟨children⟩, ⟨mappings⟩, regions⟩, s), .error e)
    | ((mappings, s), .ok _) =>
      let p := doProtectChildren perms children range s
      ((⟨base, size, isDestroyed, ⟨p.1.1⟩, ⟨mappings⟩, regions⟩, p.1.2), p.2)

/-- The loop of `do_protect_inner` over the children. -/
def doProtectChildren (perms : VmPerms) :
    List (ℕ × Vmar) → Range → VmSpace → (List (ℕ × Vmar) × VmSpace) × Result Unit
  | [], _, s => (([], s), .ok ())
  | (k, c) :: cs, range, s =>
    if isIntersected range c.range then
      match doProtectInner perms c (range.inter c.range) s with
      | ((c, s), .error e) => (((k, c) :: cs, s), .error e)
      | ((c, s), .ok _) =>
        let p := doProtectChildren perms cs range s
        (((k, c) :: p.1.1, p.1.2), p.2)
    else
      let p := doProtectChildren perms cs range s
      (((k, c) :: p.1.1, p.1.2), p.2)

end

mutual

/-- `check_protected_range` -/
def checkProtectedRange : Vmar → Range → Result Unit
  | ⟨base, size, _, ⟨children⟩, _, regions⟩, protectedRange => do
    assert (base ≤ protectedRange.start)
    assert (protectedRange.stop ≤ base + size)
    if regions.values.any fun r => isIntersected r.range protectedRange then
      returnErrnoWithMessage .eacces "protected range is not fully mapped"
    else checkProtectedChildren children protectedRange

/-- The loop of `check_protected_range` over the children. -/
def checkProtectedChildren : List (ℕ × Vmar) → Range → Result Unit
  | [], _ => pure ()
  | (_, c) :: cs, protectedRange => do
    if isIntersected c.range protectedRange then
      checkProtectedRange c (c.range.inter protectedRange)
    checkProtectedChildren cs protectedRange

end

/-- `protect` -/
def protect (v : Vmar) (s : VmSpace) (perms : VmPerms) (range : Range) :
    (Vmar × VmSpace) × Result Unit :=
  let check : Result Unit := do
    assert (range.start % pageSize = 0)
    assert (range.stop % pageSize = 0)
    v.checkProtectedRange range
  match check with
  | .error e => ((v, s), .error e)
  | .ok _ => doProtectInner perms v range s

end Vmar

/-! ### What faults and protection leave alone -/

/-- The mapping without its permissions and without the pages it has mapped. -/
def VmMapping.bare (m : VmMapping) : VmMapping := { m with mappedPages := ∅, pagePerms := .empty }

namespace Vmar

mutual

/-- The tree with its mappings bare. -/
def bare : Vmar → Vmar
  | ⟨base, size, isDestroyed, ⟨children⟩, ⟨mappings⟩, regions⟩ =>
    ⟨base, size, isDestroyed, ⟨bareChildren children⟩, ⟨mappings.map fun e => (e.1, e.2.bare)⟩,
      regions⟩

/-- The children with their mappings bare. -/
def bareChildren : List (ℕ × Vmar) → List (ℕ × Vmar)
  | [] => []
  | (k, c) :: cs => (k, bare c) :: bareChildren cs

end

theorem bareChildren_eq (cs : List (ℕ × Vmar)) :
    bareChildren cs = cs.map fun e => (e.1, e.2.bare) := by
  induction cs with
  | nil => rfl
  | cons e cs ih => rw [bareChildren, ih, map_cons]

theorem bare_eq (v : Vmar) : v.bare = { v with
    childVmars := v.childVmars.mapValues bare
    vmMappings := v.vmMappings.mapValues VmMapping.bare } := by
  obtain ⟨base, size, isDestroyed, ⟨children⟩, ⟨mappings⟩, regions⟩ := v
  rw [bare, bareChildren_eq]
  rfl

@[simp] theorem bare_range (v : Vmar) : v.bare.range = v.range := by
  rw [bare_eq]
  rfl

theorem bare_size (v : Vmar) : v.bare.size = v.size := by
  rw [bare_eq]

theorem get?_childVmars_bare (v : Vmar) (k : ℕ) :
    v.bare.childVmars.get? k = (v.childVmars.get? k).map bare := by
  rw [bare_eq]
  exact get?_mapValues _ _ _

theorem get?_vmMappings_bare (v : Vmar) (k : ℕ) :
    v.bare.vmMappings.get? k = (v.vmMappings.get? k).map VmMapping.bare := by
  rw [bare_eq]
  exact get?_mapValues _ _ _

variable {path : List ℕ} {v u : Vmar}

theorem at?_bare : ∀ v : Vmar, v.bare.at? path = (v.at? path).map bare := by
  induction path with
  | nil => exact fun v => rfl
  | cons k path ih =>
    intro v
    rw [at?, at?, get?_childVmars_bare]
    cases v.childVmars.get? k with
    | none => rfl
    | some c => exact ih c

/-- The maps of a VMAR are in the order of their keys. -/
def Ordered (v : Vmar) : Prop := Shaped v.vmMappings ∧ v.childVmars.Sorted

theorem shaped_mapValues {M : OrdMap ℕ VmMapping} :
    Shaped (M.mapValues VmMapping.bare) ↔ Shaped M := by
  have hget : ∀ k m, (M.mapValues VmMapping.bare).get? k = some m ↔
      ∃ m', M.get? k = some m' ∧ m'.bare = m := fun k m => by
    rw [get?_mapValues, map_eq_some_iff]
  constructor
  · intro h
    have hm := fun k m hm => (hget k _).2 ⟨m, hm, rfl⟩
    exact ⟨⟨sorted_mapValues.1 h.sorted, fun k m hk => h.keyed k m.bare (hm k m hk)⟩,
      fun k m hk => ⟨(h.aligned k _ (hm k m hk)).addr, (h.aligned k _ (hm k m hk)).offset⟩,
      fun k m hk => h.live k m.bare (hm k m hk)⟩
  · intro h
    refine ⟨⟨sorted_mapValues.2 h.sorted, fun k m hk => ?_⟩, fun k m hk => ?_, fun k m hk => ?_⟩
    all_goals obtain ⟨m', hm', rfl⟩ := (hget k m).1 hk
    · exact h.keyed k m' hm'
    · exact ⟨(h.aligned k m' hm').addr, (h.aligned k m' hm').offset⟩
    · exact h.live k m' hm'

theorem ordered_bare : v.bare.Ordered ↔ v.Ordered := by
  rw [bare_eq]
  exact and_congr shaped_mapValues sorted_mapValues

theorem everywhere_bare : v.bare.Everywhere Ordered ↔ v.Everywhere Ordered := by
  constructor
  · rintro h u ⟨path, hu⟩
    exact ordered_bare.1 (h u.bare ⟨path, by rw [at?_bare, hu, map_some]⟩)
  · rintro h u ⟨path, hu⟩
    rw [at?_bare, map_eq_some_iff] at hu
    obtain ⟨u', hu', rfl⟩ := hu
    exact ordered_bare.2 (h u' ⟨path, hu'⟩)

theorem Everywhere.of_bare {v' : Vmar} (h : v.Everywhere Ordered) (heq : v'.bare = v.bare) :
    v'.Everywhere Ordered := by
  rw [← everywhere_bare, heq]
  exact everywhere_bare.2 h

/-- Replacing a VMAR of the tree by one that is bare the same. -/
theorem replaceAt_bare {u' : Vmar} (h : v.Everywhere Ordered) (hu : v.at? path = some u)
    (heq : u'.bare = u.bare) : (v.replaceAt path u').bare = v.bare := by
  induction path generalizing u v with
  | nil =>
    cases hu
    exact heq
  | cons k path ih =>
    obtain ⟨hself, hchild⟩ := everywhere_iff.1 h
    obtain ⟨c, hc, hu⟩ := bind_eq_some_iff.1 hu
    rw [replaceAt, hc, bare_eq, bare_eq v]
    simp [hself.2.mapValues_insert hc (ih (hchild k c hc) hu heq)]

theorem setMapping_bare {key : ℕ} {m m' : VmMapping} (h : v.Everywhere Ordered)
    (hu : v.at? path = some u) (hm : u.vmMappings.get? key = some m) (heq : m'.bare = m.bare) :
    (v.setMapping path key m').bare = v.bare := by
  rw [setMapping, hu]
  refine replaceAt_bare h hu ?_
  rw [bare_eq, bare_eq u]
  simp [(h u ⟨path, hu⟩).1.sorted.mapValues_insert hm heq]

/-! ### The target of a fault -/

/-- The target of a fault, with the mapping bare. -/
def bareTarget (t : List ℕ × ℕ × VmMapping) : List ℕ × ℕ × VmMapping := (t.1, t.2.1, t.2.2.bare)

theorem faultTarget_bare : ∀ (v : Vmar) (addr : ℕ),
    v.bare.faultTarget addr = (v.faultTarget addr).map bareTarget := by
  refine bare.induct
    (fun v => ∀ addr, v.bare.faultTarget addr = (v.faultTarget addr).map bareTarget)
    (fun cs => ∀ addr, faultTargetInChild (bareChildren cs) addr =
      (faultTargetInChild cs addr).map (Except.map bareTarget)) ?_ ?_ ?_
  · intro base size isDestroyed children mappings regions ih addr
    have hfind : (mappings.map fun e => (e.1, e.2.bare)).find?
        (fun e => e.1 ≤ addr && addr < e.1 + e.2.mapSize) =
        (mappings.find? fun e => e.1 ≤ addr && addr < e.1 + e.2.mapSize).map
          fun e => (e.1, e.2.bare) := by
      rw [find?_map]
      rfl
    rw [bare, faultTarget, faultTarget, ih, hfind]
    split_ifs
    · rfl
    cases faultTargetInChild children addr with
    | some r => rfl
    | none => cases mappings.find? fun e => e.1 ≤ addr && addr < e.1 + e.2.mapSize <;> rfl
  · exact fun addr => rfl
  · intro k c cs ihc ihcs addr
    rw [bareChildren, faultTargetInChild, faultTargetInChild, bare_size]
    split_ifs
    · rw [ihc]
      cases c.faultTarget addr <;> rfl
    · exact ihcs addr

/-- What the search finds is a mapping of the tree that contains the address. -/
theorem faultTarget_ok : ∀ (v : Vmar) {addr : ℕ} {path : List ℕ} {key : ℕ} {m : VmMapping},
    v.Everywhere Ordered → v.faultTarget addr = .ok (path, key, m) →
      addr ∈ v.range ∧ ∃ u, v.at? path = some u ∧ u.vmMappings.get? key = some m ∧
        key ≤ addr ∧ addr < key + m.mapSize := by
  refine bare.induct
    (fun v => ∀ {addr path key m}, v.Everywhere Ordered → v.faultTarget addr = .ok (path, key, m) →
      addr ∈ v.range ∧ ∃ u, v.at? path = some u ∧ u.vmMappings.get? key = some m ∧
        key ≤ addr ∧ addr < key + m.mapSize)
    (fun cs => ∀ {addr path key m}, (∀ e ∈ cs, Vmar.Everywhere Ordered e.2) →
      faultTargetInChild cs addr = some (.ok (path, key, m)) →
      ∃ k c path', (k, c) ∈ cs ∧ path = k :: path' ∧ ∃ u, c.at? path' = some u ∧
        u.vmMappings.get? key = some m ∧ key ≤ addr ∧ addr < key + m.mapSize) ?_ ?_ ?_
  · intro base size isDestroyed children mappings regions ih addr path key m hord h
    obtain ⟨hself, hchild⟩ := everywhere_iff.1 hord
    rw [faultTarget] at h
    split_ifs at h with hin
    · cases h
    have hrange : addr ∈ (⟨base, base + size⟩ : Range) := Span.mem_mk.2 (by omega)
    refine ⟨hrange, ?_⟩
    cases hc : faultTargetInChild children addr with
    | some r =>
      rw [hc] at h
      have hall : ∀ e ∈ children, Vmar.Everywhere Ordered e.2 := fun e he =>
        hchild e.1 e.2 ((mem_entries hself.2).1 he)
      obtain ⟨k, c, path', hmem, rfl, hu⟩ := ih hall (hc.trans (congrArg some h))
      obtain ⟨u, hu, hrest⟩ := hu
      refine ⟨u, ?_, hrest⟩
      rw [at?, (mem_entries hself.2).1 hmem]
      exact hu
    | none =>
      rw [hc] at h
      cases hf : mappings.find? fun e => e.1 ≤ addr && addr < e.1 + e.2.mapSize with
      | none => simp only [hf] at h; cases h
      | some e =>
        simp only [hf] at h
        cases h
        have hp := find?_some hf
        simp only [Bool.and_eq_true, decide_eq_true_iff] at hp
        exact ⟨_, rfl, (mem_entries hself.1.sorted).1 (mem_of_find?_eq_some hf), hp⟩
  · intro addr path key m _ h
    cases h
  · intro k c cs ihc ihcs addr path key m hall h
    obtain ⟨hc, hcs⟩ := forall_mem_cons.1 hall
    rw [faultTargetInChild] at h
    split_ifs at h
    · obtain ⟨⟨path', key', m'⟩, ht, h⟩ := bind_ok.1 (some.inj h)
      cases h
      exact ⟨k, c, path', mem_cons_self, rfl, (ihc hc ht).2⟩
    · obtain ⟨k', c', path', hmem, hrest⟩ := ihcs hcs h
      exact ⟨k', c', path', mem_cons_of_mem _ hmem, hrest⟩

end Vmar

/-! ### What a fault does -/

namespace VmMapping

variable {w w' : World} {m : VmMapping} {s : VmSpace}

theorem handlePageFault_bare {addr : ℕ} {write : Bool} {p : VmMapping × VmSpace}
    (h : m.handlePageFault s addr write w = .ok p w') : p.1.bare = m.bare := by
  obtain ⟨frame, -, hmap⟩ := handlePageFault_ok h
  rw [(mapOnePage_ok hmap).1]
  rfl

end VmMapping

namespace Vmar

variable {w w' : World} {v v' : Vmar} {s s' : VmSpace} {addr : ℕ} {write : Bool}

/-- A page fault that is handled is handled by the mapping that the search finds. -/
theorem handlePageFault_ok (h : v.handlePageFault s addr write w = .ok (v', s') w') :
    ∃ path key m m', v.faultTarget addr = .ok (path, key, m) ∧
      m.handlePageFault s addr write w = .ok (m', s') w' ∧ v' = v.setMapping path key m' := by
  obtain ⟨⟨path, key, m⟩, ht, h⟩ := liftR_bind_ok.1 h
  obtain ⟨⟨m', s1⟩, _, hm, h⟩ := bind_ok.1 h
  cases h
  exact ⟨path, key, m, m', ht, hm, rfl⟩

theorem handlePageFault_bare (hv : v.Everywhere Ordered)
    (h : v.handlePageFault s addr write w = .ok (v', s') w') : v'.bare = v.bare := by
  obtain ⟨path, key, m, m', ht, hm, rfl⟩ := handlePageFault_ok h
  obtain ⟨-, u, hu, hget, -⟩ := faultTarget_ok v hv ht
  exact setMapping_bare hv hu hget (VmMapping.handlePageFault_bare hm)

end Vmar

/-! ### What protection does -/

/-- The pages are mapped to the frames they were mapped to; only flags have changed. -/
structure VmSpace.Reflags (s s' : VmSpace) : Prop where
  areas : s'.areas = s.areas
  frame : ∀ i, (s'.pt.get? i).map Pte.frame = (s.pt.get? i).map Pte.frame

theorem VmSpace.Reflags.refl (s : VmSpace) : s.Reflags s := ⟨rfl, fun _ => rfl⟩

theorem VmSpace.Reflags.trans {s s' s'' : VmSpace} (h : s.Reflags s') (h' : s'.Reflags s'') :
    s.Reflags s'' := ⟨h'.areas.trans h.areas, fun i => (h'.frame i).trans (h.frame i)⟩

namespace VmMapping

theorem protectPage_reflags {perms : VmPerms} {p p' : VmMapping × VmSpace} {k : ℕ}
    (h : protectPage perms p k = .ok p') : p'.1.bare = p.1.bare ∧ p.2.Reflags p'.2 := by
  obtain ⟨-, hareas, hpt⟩ := protectPage_ok h
  constructor
  · unfold protectPage at h
    obtain ⟨addr, -, h⟩ := bind_ok.1 h
    split_ifs at h
    · obtain ⟨s1, -, h⟩ := bind_ok.1 h
      cases h
      rfl
    · cases h
      rfl
  · refine ⟨hareas, fun i => ?_⟩
    rcases hpt with hpt | ⟨-, -, pte, hpte, hpt⟩
    · simp only [hpt]
    · simp only [hpt, get?_insert]
      split_ifs with hi
      · rw [hi, hpte]
        rfl
      · rfl

theorem protect_reflags {perms : VmPerms} {range : Range} {m : VmMapping} {s : VmSpace}
    {p : VmMapping × VmSpace} (h : m.protect s perms range = .ok p) :
    p.1.bare = m.bare ∧ s.Reflags p.2 := by
  obtain ⟨_, -, h⟩ := bind_ok.1 h
  obtain ⟨_, -, h⟩ := bind_ok.1 h
  obtain ⟨_, -, h⟩ := bind_ok.1 h
  obtain ⟨_, -, h⟩ := bind_ok.1 h
  obtain ⟨_, -, h⟩ := bind_ok.1 h
  obtain ⟨_, -, h⟩ := bind_ok.1 h
  obtain ⟨_, -, h⟩ := bind_ok.1 h
  exact foldlM_invariant (P := fun _ p => p.1.bare = m.bare ∧ s.Reflags p.2)
    (fun k ks p p' hp hk => ⟨(protectPage_reflags hk).1.trans hp.1,
      hp.2.trans (protectPage_reflags hk).2⟩) ⟨rfl, .refl s⟩ h

end VmMapping

namespace Vmar

variable {perms : VmPerms}

theorem protectMappings_reflags {range : Range} {es : List (ℕ × VmMapping)} : ∀ s : VmSpace,
    (protectMappings perms range es s).1.1.map (fun e => (e.1, e.2.bare)) =
        es.map (fun e => (e.1, e.2.bare)) ∧
      s.Reflags (protectMappings perms range es s).1.2 := by
  induction es with
  | nil => exact fun s => ⟨rfl, .refl s⟩
  | cons e es ih =>
    intro s
    rw [protectMappings]
    split_ifs
    · cases hm : e.2.protect s perms (range.inter ⟨e.1, e.1 + e.2.mapSize⟩) with
      | error err => exact ⟨rfl, .refl s⟩
      | ok p =>
        obtain ⟨hbare, hflags⟩ := VmMapping.protect_reflags hm
        obtain ⟨hes, hs⟩ := ih p.2
        simp only [map_cons, hbare, hes, true_and]
        exact hflags.trans hs
    · obtain ⟨hes, hs⟩ := ih s
      simp only [map_cons, hes, true_and]
      exact hs

theorem doProtectInner_reflags : ∀ (v : Vmar) (range : Range) (s : VmSpace),
    (doProtectInner perms v range s).1.1.bare = v.bare ∧
      s.Reflags (doProtectInner perms v range s).1.2 := by
  refine bare.induct (fun v => ∀ range s, (doProtectInner perms v range s).1.1.bare = v.bare ∧
      s.Reflags (doProtectInner perms v range s).1.2)
    (fun cs => ∀ range s, bareChildren (doProtectChildren perms cs range s).1.1 = bareChildren cs ∧
        s.Reflags (doProtectChildren perms cs range s).1.2) ?_ ?_ ?_
  · intro base size isDestroyed children mappings regions ih range s
    obtain ⟨hms, hs⟩ := @protectMappings_reflags perms range mappings s
    rw [doProtectInner]
    rcases hp : protectMappings perms range mappings s with ⟨⟨ms, s1⟩, e | _⟩
    · rw [hp] at hms hs
      simp only [bare, hms, true_and]
      exact hs
    · rw [hp] at hms hs
      obtain ⟨hcs, hs'⟩ := ih range s1
      simp only [bare, hms, hcs, true_and]
      exact hs.trans hs'
  · exact fun range s => ⟨rfl, .refl s⟩
  · intro k c cs ihc ihcs range s
    rw [doProtectChildren]
    split_ifs
    · obtain ⟨hc, hs⟩ := ihc (range.inter c.range) s
      rcases hp : doProtectInner perms c (range.inter c.range) s with ⟨⟨c', s1⟩, e | _⟩
      · rw [hp] at hc hs
        simp only [bareChildren, hc, true_and]
        exact hs
      · rw [hp] at hc hs
        obtain ⟨hcs, hs'⟩ := ihcs range s1
        simp only [bareChildren, hc, hcs, true_and]
        exact hs.trans hs'
    · obtain ⟨hcs, hs⟩ := ihcs range s
      simp only [bareChildren, hcs, true_and]
      exact hs

/-- Protection moves no mapping and no page, whether it succeeds or not. -/
theorem protect_reflags (v : Vmar) (s : VmSpace) (range : Range) :
    (v.protect s perms range).1.1.bare = v.bare ∧ s.Reflags (v.protect s perms range).1.2 := by
  unfold protect
  simp only
  split
  · exact ⟨rfl, .refl s⟩
  · exact doProtectInner_reflags v range s

end Vmar

end Jinux
