import Jinux.Vm.Tree

/-!
# Disjointness inside a VMAR

The free regions, the children and the mappings of a VMAR are meant to divide its addresses among
them: no address belongs to two of them, and all lie inside the VMAR.  This file follows that
property through every operation on every VMAR of a tree.

It fails on two of the operations:

* `destroy` gives back the range of **every** child, so a child that is alive and that the range
  does not meet ends up both in use and free;
* an overwriting mapping is never checked to lie inside the VMAR.

Runs in which neither happens keep it (`AddrSpace.disjoint_of_reachable`).
-/

namespace Jinux

open SpanMap VmMapping FreeRegions Jinux.Span
open List (mem_map mem_append mem_filterMap)

namespace Vmar

/-! ### The invariant -/

/-- The ranges of the free regions, the children and the mappings. -/
def parts (v : Vmar) : List Range :=
  v.freeRegions.values.map FreeRegion.range ++ v.childVmars.values.map Vmar.range ++
    v.vmMappings.values.map VmMapping.range

/-- The parts of the VMAR are pairwise disjoint and lie inside it. -/
def Disjoint (v : Vmar) : Prop :=
  v.parts.Pairwise Apart ∧ ∀ r ∈ v.parts, r.Within v.range

/-- The address is free in the VMAR. -/
abbrev FreeAt (v : Vmar) (a : ℕ) : Prop := Free v.freeRegions a

/-- The address belongs to a child. -/
abbrev ChildAt (v : Vmar) (a : ℕ) : Prop := Covers Vmar.range v.childVmars a

/-- The address belongs to a mapping. -/
abbrev MapAt (v : Vmar) (a : ℕ) : Prop := Covers VmMapping.range v.vmMappings a

/-- Every address of the VMAR belongs to one part at most. -/
structure Inv (v : Vmar) : Prop where
  free : Good v.freeRegions
  child : Tiles Vmar.range v.childVmars
  map : Tiles VmMapping.range v.vmMappings
  freeChild : ∀ a, v.FreeAt a → ¬ v.ChildAt a
  freeMap : ∀ a, v.FreeAt a → ¬ v.MapAt a
  childMap : ∀ a, v.ChildAt a → ¬ v.MapAt a
  within : ∀ a, v.FreeAt a ∨ v.ChildAt a ∨ v.MapAt a → a ∈ v.range

variable {v v' : Vmar} {s s' : VmSpace} {range r : Range} {F : FreeRegions} {addr x : ℕ}

theorem Inv.disjoint (h : v.Inv) : v.Disjoint := by
  have hf : ∀ {a r}, r ∈ v.freeRegions.values.map FreeRegion.range → a ∈ r → v.FreeAt a := by
    intro a r hr ha
    obtain ⟨b, hb, rfl⟩ := mem_map.1 hr
    exact h.free.tiles.covers_iff.2 ⟨b, hb, ha⟩
  have hc : ∀ {a r}, r ∈ v.childVmars.values.map Vmar.range → a ∈ r → v.ChildAt a := by
    intro a r hr ha
    obtain ⟨b, hb, rfl⟩ := mem_map.1 hr
    exact h.child.covers_iff.2 ⟨b, hb, ha⟩
  have hm : ∀ {a r}, r ∈ v.vmMappings.values.map VmMapping.range → a ∈ r → v.MapAt a := by
    intro a r hr ha
    obtain ⟨b, hb, rfl⟩ := mem_map.1 hr
    exact h.map.covers_iff.2 ⟨b, hb, ha⟩
  refine ⟨List.pairwise_append.2 ⟨List.pairwise_append.2 ⟨h.free.tiles.pairwise_apart,
    h.child.pairwise_apart, ?_⟩, h.map.pairwise_apart, ?_⟩, ?_⟩
  · intro r hr r' hr'
    exact apart_iff.2 fun a ha ha' => h.freeChild a (hf hr ha) (hc hr' ha')
  · intro r hr r' hr'
    refine apart_iff.2 fun a ha ha' => ?_
    rcases mem_append.1 hr with hr | hr
    · exact h.freeMap a (hf hr ha) (hm hr' ha')
    · exact h.childMap a (hc hr ha) (hm hr' ha')
  · intro r hr a ha
    rcases mem_append.1 hr with hr | hr
    · rcases mem_append.1 hr with hr | hr
      · exact h.within a (.inl (hf hr ha))
      · exact h.within a (.inr (.inl (hc hr ha)))
    · exact h.within a (.inr (.inr (hm hr ha)))

/-! ### Allocating a child -/

/-- A VMAR with one free region and nothing else. -/
theorem inv_of_free {base size start stop : ℕ} {isDestroyed : Bool} (hle : start ≤ stop)
    (hin : (⟨start, stop⟩ : Range).Within ⟨base, base + size⟩) :
    Vmar.Inv ⟨base, size, isDestroyed, .empty, .empty,
      OrdMap.empty.insert start ⟨⟨start, stop⟩⟩⟩ := by
  have hno : ∀ x ∈ (⟨start, stop⟩ : Range), ¬ Free (.empty : FreeRegions) x :=
    fun _ _ => not_covers_empty
  obtain ⟨hg, hf⟩ := good_empty.insert_new (r := ⟨⟨start, stop⟩⟩) hle hno rfl
  refine ⟨hg, tiles_empty, tiles_empty, fun _ _ => not_covers_empty,
    fun _ _ => not_covers_empty, fun _ h => absurd h not_covers_empty, ?_⟩
  rintro a (ha | ha | ha)
  · exact hin a (((hf a).1 ha).resolve_right not_covers_empty)
  · exact absurd ha not_covers_empty
  · exact absurd ha not_covers_empty

theorem inv_fresh (offset size : ℕ) : (fresh offset size).Inv :=
  inv_of_free (Nat.le_add_right _ _) (Within.refl _)

theorem inv_newRoot : newRoot.Inv :=
  inv_of_free (by decide) (within_of_le (by decide) (by decide))

theorem Inv.allocChild (hi : v.Inv) {o : ChildOptions} (ha : v.allocChild o = .ok v') : v'.Inv := by
  obtain ⟨childOffset, align, base, r, offset, hfind, rfl⟩ := allocChild_ok ha
  obtain ⟨hget, hstart, hstop⟩ := hi.free.find hfind
  obtain ⟨hg, hfree⟩ := hi.free.allocate hget (a := ⟨offset, offset + o.size⟩) hstart
    (Nat.le_add_right _ _) hstop
  -- the addresses of the child were free
  have hwas : ∀ x ∈ (⟨offset, offset + o.size⟩ : Range), v.FreeAt x := fun x hx =>
    ⟨base, r, hget, hstart.trans hx.1, hx.2.trans_le hstop⟩
  have hchild : Tiles Vmar.range (v.childVmars.insert offset (fresh offset o.size)) :=
    hi.child.insert rfl fun x hx k' _ hat => hi.freeChild x (hwas x hx) hat.covers
  have hcov : ∀ x, Covers Vmar.range (v.childVmars.insert offset (fresh offset o.size)) x →
      x ∈ (⟨offset, offset + o.size⟩ : Range) ∨ v.ChildAt x := fun x => covers_of_insert
  refine ⟨hg, hchild, hi.map, ?_, ?_, ?_, ?_⟩
  · intro x hx hc
    obtain ⟨hx, hout⟩ := (hfree x).1 hx
    exact (hcov x hc).elim hout (hi.freeChild x hx)
  · exact fun x hx => hi.freeMap x ((hfree x).1 hx).1
  · intro x hx
    exact (hcov x hx).elim (fun hx => hi.freeMap x (hwas x hx)) (hi.childMap x)
  · rintro x (hx | hx | hx)
    · exact hi.within x (.inl ((hfree x).1 hx).1)
    · exact (hcov x hx).elim (fun hx => hi.within x (.inl (hwas x hx)))
        fun hx => hi.within x (.inr (.inl hx))
    · exact hi.within x (.inr (.inr hx))

/-! ### Mapping a VMO -/

/-- A new mapping goes to addresses that belong to no other part. -/
theorem Inv.addMapping (hi : v.Inv) {m : VmMapping}
    (hd : ∀ x ∈ m.range, ¬ v.FreeAt x ∧ ¬ v.ChildAt x ∧ ¬ v.MapAt x ∧ x ∈ v.range) :
    ({ v with vmMappings := v.vmMappings.insert m.mapToAddr m } : Vmar).Inv := by
  have hmap : Tiles VmMapping.range (v.vmMappings.insert m.mapToAddr m) :=
    hi.map.insert rfl fun x hx k' _ hat => (hd x hx).2.2.1 hat.covers
  have hcov : ∀ x, Covers VmMapping.range (v.vmMappings.insert m.mapToAddr m) x →
      x ∈ m.range ∨ v.MapAt x := fun x => covers_of_insert
  refine ⟨hi.free, hi.child, hmap, hi.freeChild, ?_, ?_, ?_⟩
  · intro x hx hm
    exact (hcov x hm).elim (fun hm => (hd x hm).1 hx) (hi.freeMap x hx)
  · intro x hx hm
    exact (hcov x hm).elim (fun hm => (hd x hm).2.1 hx) (hi.childMap x hx)
  · rintro x (hx | hx | hx)
    · exact hi.within x (.inl hx)
    · exact hi.within x (.inr (.inl hx))
    · exact (hcov x hx).elim (fun hx => (hd x hx).2.2.2) fun hx => hi.within x (.inr (.inr hx))

/-- Fewer free addresses and fewer mapped ones. -/
theorem Inv.shrink (hi : v.Inv) {M : OrdMap ℕ VmMapping} (hF : Good F)
    (hM : Tiles VmMapping.range M) (hf : ∀ x, Free F x → v.FreeAt x)
    (hm : ∀ x, Covers VmMapping.range M x → v.MapAt x) :
    ({ v with freeRegions := F, vmMappings := M } : Vmar).Inv := by
  refine ⟨hF, hi.child, hM, fun x hx => hi.freeChild x (hf x hx),
    fun x hx hx' => hi.freeMap x (hf x hx) (hm x hx'), fun x hx hx' => hi.childMap x hx (hm x hx'),
    ?_⟩
  rintro x (hx | hx | hx)
  · exact hi.within x (.inl (hf x hx))
  · exact hi.within x (.inr (.inl hx))
  · exact hi.within x (.inr (.inr (hm x hx)))

/-- The addresses of an overwriting mapping lie inside the VMAR. -/
def OverwritesInside (v : Vmar) (o : MapOptions) : Prop :=
  o.canOverwrite = true → ∀ addr, o.offset = some addr →
    (⟨addr, addr + o.size⟩ : Range).Within v.range

theorem Inv.build (hi : v.Inv) {o : MapOptions} (hin : v.OverwritesInside o)
    (hb : v.build s o = .ok (addr, v', s')) : v'.Inv := by
  obtain ⟨hcheck, v1, hres, rfl⟩ := build_ok hb
  obtain ⟨hF, hfree, -⟩ := hres.free hi.free
  have hsub : ∀ x ∈ (o.mapping addr).range, x ∈ o.reserved addr := fun x => o.mapping_sub
  cases hres with
  | overwrite hover hoffset _ hout =>
    obtain ⟨ts, hts⟩ := trimLoop_rounds hout
    obtain ⟨hM, hmap⟩ := hts.tiles hi.map
    have h1 := hi.shrink hF hM (fun x hx => ((hfree x).1 hx).1) fun x hx => by
      obtain ⟨m, hm, hxm, -⟩ := hmap x hx
      exact ⟨_, m, hm, hxm⟩
    refine h1.addMapping fun x hx => ⟨fun hf => ((hfree x).1 hf).2 (hsub x hx), ?_, ?_,
      hin hover addr hoffset x hx⟩
    · intro hc
      obtain ⟨c, hc, hxc⟩ := hi.child.covers_iff.1 hc
      exact apart_iff.1 (hcheck.child addr hoffset c hc) x (hsub x hx) hxc
    · intro hm
      obtain ⟨m, -, -, hcut⟩ := hmap x hm
      exact hcut (hsub x hx)
  | fit hover hfind hmeet =>
    have hwas : ∀ x ∈ (o.mapping addr).range, v.FreeAt x := by
      obtain ⟨hget, hstart, hstop⟩ := hi.free.find hfind
      exact fun x hx => ⟨_, _, hget, hstart.trans hx.1, (hsub x hx).2.trans_le hstop⟩
    have h1 := hi.shrink hF hi.map (fun x hx => ((hfree x).1 hx).1) fun _ => id
    exact h1.addMapping fun x hx => ⟨fun hf => ((hfree x).1 hf).2 (hsub x hx),
      hi.freeChild x (hwas x hx), hi.freeMap x (hwas x hx), hi.within x (.inl (hwas x hx))⟩

/-! ### Destruction -/

theorem Inv.returned (h : v.Inv) : Good v.returned ∧
    ∀ x, Free v.returned x → v.FreeAt x ∨ v.ChildAt x ∨ v.MapAt x := by
  obtain ⟨hg1, hf1⟩ := h.free.append_values h.child (fun _ => Nat.le_add_right _ _) h.freeChild
  obtain ⟨hg2, hf2⟩ := hg1.append_values h.map (fun _ => Nat.le_add_right _ _) fun x hx =>
    (hf1 x hx).elim (h.freeMap x) (h.childMap x)
  exact ⟨hg2, fun x hx => (hf2 x hx).elim (fun hx => (hf1 x hx).imp_right .inl)
    fun hx => .inr (.inr hx)⟩

theorem Inv.destroyAll (hi : v.Inv) (hd : v.destroyAll s = .ok (v', s')) : v'.Inv := by
  obtain ⟨F, s1, hF, rfl, -⟩ := destroyAll_ok hd
  obtain ⟨hg, hfree⟩ := hi.returned
  obtain ⟨hg', hmerge, -⟩ := hg.merge hF
  refine ⟨hg', tiles_empty, tiles_empty, fun _ _ => not_covers_empty,
    fun _ _ => not_covers_empty, fun _ hc => absurd hc not_covers_empty, ?_⟩
  rintro x (hx | hx | hx)
  · exact hi.within x (hfree x ((hmerge x).1 hx))
  · exact absurd hx not_covers_empty
  · exact absurd hx not_covers_empty

/-- No child that is alive and not empty lies outside the range. -/
def DestroysChildren (v : Vmar) (range : Range) : Prop :=
  ∀ c ∈ v.childVmars.values, c.isDestroyed = true ∨ c.size = 0 ∨ ¬ range.Apart c.range

instance (v : Vmar) (range : Range) : Decidable (v.DestroysChildren range) :=
  inferInstanceAs (Decidable (∀ c ∈ v.childVmars.values, _))

/-- The addresses that `destroy` gives back: those of the children and the mapped ones in the
range. -/
theorem Inv.mem_givenBack (h : v.Inv) :
    (∃ r ∈ v.givenBack range, x ∈ r) ↔ v.ChildAt x ∨ v.MapAt x ∧ x ∈ range := by
  constructor
  · rintro ⟨r, hr, hx⟩
    rcases mem_append.1 hr with hr | hr
    · obtain ⟨c, hc, rfl⟩ := mem_map.1 hr
      exact .inl (h.child.covers_iff.2 ⟨c, hc, hx⟩)
    · obtain ⟨m, hm, hr⟩ := mem_filterMap.1 hr
      obtain ⟨rfl, -⟩ := mem_destroyRangeOf hr
      obtain ⟨hxm, hxr⟩ := mem_inter.1 hx
      exact .inr ⟨h.map.covers_iff.2 ⟨m, hm, hxm⟩, hxr⟩
  · rintro (hc | ⟨hm, hxr⟩)
    · obtain ⟨c, hc, hx⟩ := h.child.covers_iff.1 hc
      exact ⟨_, List.mem_append_left _ (List.mem_map_of_mem hc), hx⟩
    · obtain ⟨m, hm, hx⟩ := h.map.covers_iff.1 hm
      have hmeet : isIntersected m.range range = true :=
        isIntersected_iff.2 fun hap => apart_iff.1 hap x hx hxr
      refine ⟨m.range.inter range, List.mem_append_right _ (mem_filterMap.2 ⟨m, hm, ?_⟩),
        mem_inter.2 ⟨hx, hxr⟩⟩
      rw [destroyRangeOf, if_pos hmeet]

theorem Inv.givenBack_indep (h : v.Inv) (range : Range) :
    ∀ r ∈ v.givenBack range, ∀ r' ∈ v.givenBack range, ∀ x, x ∈ r → x ∈ r' → r = r' := by
  intro r hr r' hr' x hx hx'
  have hmap : ∀ {m : VmMapping}, m ∈ v.vmMappings.values → ∀ {r}, destroyRangeOf range m = some r →
      x ∈ r → x ∈ m.range ∧ v.MapAt x := by
    intro m hm r hr hx
    obtain ⟨rfl, -⟩ := mem_destroyRangeOf hr
    have hxm := (mem_inter.1 hx).1
    exact ⟨hxm, h.map.covers_iff.2 ⟨m, hm, hxm⟩⟩
  rcases mem_append.1 hr with hr | hr
  · obtain ⟨c, hc, rfl⟩ := mem_map.1 hr
    have hcx : v.ChildAt x := h.child.covers_iff.2 ⟨c, hc, hx⟩
    rcases mem_append.1 hr' with hr' | hr'
    · obtain ⟨c', hc', rfl⟩ := mem_map.1 hr'
      rw [h.child.eq_of_mem hc hc' hx hx']
    · obtain ⟨m, hm, hr'⟩ := mem_filterMap.1 hr'
      exact absurd (hmap hm hr' hx').2 (h.childMap x hcx)
  · obtain ⟨m, hm, hr⟩ := mem_filterMap.1 hr
    obtain ⟨hxm, hmx⟩ := hmap hm hr hx
    rcases mem_append.1 hr' with hr' | hr'
    · obtain ⟨c, hc, rfl⟩ := mem_map.1 hr'
      exact absurd hmx (h.childMap x (h.child.covers_iff.2 ⟨c, hc, hx'⟩))
    · obtain ⟨m', hm', hr'⟩ := mem_filterMap.1 hr'
      rw [h.map.eq_of_mem hm hm' hxm (hmap hm' hr' hx').1, hr'] at hr
      exact (Option.some.inj hr).symm

theorem Inv.givenBack_le (hr : r ∈ v.givenBack range) : r.start ≤ r.stop := by
  rcases mem_append.1 hr with hr | hr
  · obtain ⟨c, -, rfl⟩ := mem_map.1 hr
    exact Nat.le_add_right _ _
  · obtain ⟨m, -, hr⟩ := mem_filterMap.1 hr
    exact (mem_destroyRangeOf hr).2.le

theorem Inv.not_free_givenBack (h : v.Inv) (hr : r ∈ v.givenBack range) (hx : x ∈ r) :
    ¬ v.FreeAt x := by
  intro hf
  rcases h.mem_givenBack.1 ⟨r, hr, hx⟩ with hc | ⟨hm, -⟩
  · exact h.freeChild x hf hc
  · exact h.freeMap x hf hm

/-- What is free after `destroy` was free, belonged to a child or was mapped in the range. -/
theorem Inv.free_destroy (h : v.Inv)
    (hF : mergeContinuousRegions (v.freeRegions.append (freed (v.givenBack range))) = .ok F) :
    Good F ∧ ∀ x, Free F x → v.FreeAt x ∨ v.ChildAt x ∨ v.MapAt x ∧ x ∈ range := by
  obtain ⟨hg, hfree⟩ := h.free.append_freed (h.givenBack_indep range) (fun _ => Inv.givenBack_le)
    fun r hr x hx => h.not_free_givenBack hr hx
  obtain ⟨hg', hmerge, -⟩ := hg.merge hF
  exact ⟨hg', fun x hx => (hfree x ((hmerge x).1 hx)).imp_right h.mem_givenBack.1⟩

theorem Inv.destroy (hi : v.Inv) (hall : v.DestroysChildren range)
    (hd : v.destroy s range = .ok (v', s')) : v'.Inv := by
  obtain ⟨children, s1, out, F, hchildren, hout, hF, rfl⟩ := destroy_ok hd
  obtain ⟨hsorted, hsurv⟩ := survivors_get? hi.child.sorted (destroyChildren_ok hchildren)
  obtain ⟨ts, hts⟩ := trimLoop_rounds hout
  obtain ⟨hM, hmap⟩ := hts.tiles hi.map
  obtain ⟨hg, hfree⟩ := hi.free_destroy hF
  -- only empty children are left
  have hnone : ∀ k x, ¬ At Vmar.range (survivors children) k x := by
    rintro k x ⟨c, hc, hx⟩
    obtain ⟨hget, hapart, hlive⟩ := hsurv k c hc
    rcases hall c (OrdMap.mem_values_of_get? hget) with hd | hz | hmeet
    · rw [hlive] at hd
      cases hd
    · have hlt : x < c.base + c.size := hx.2
      rw [hz] at hlt
      exact absurd hx.1 (not_le.2 hlt)
    · exact hmeet hapart
  have hmapped : ∀ x, Covers VmMapping.range (out.mappings.retain fun _ m => !m.isDestroyed) x →
      v.MapAt x ∧ x ∉ range := by
    rintro x ⟨k, hk⟩
    obtain ⟨m, hm, hxm, hcut⟩ := hmap x (hM.covers_of_retain ⟨k, hk⟩)
    exact ⟨⟨_, m, hm, hxm⟩, fun hxr => hcut (mem_cut_destroyRangeOf.2 ⟨hxm, hxr⟩)⟩
  have hM' := hM.retain fun _ m => !m.isDestroyed
  refine ⟨hg, ⟨⟨hsorted, fun k c hc => hi.child.keyed k c (hsurv k c hc).1⟩,
    fun k _ x hx => absurd hx (hnone k x)⟩, hM', fun x _ ⟨k, hk⟩ => hnone k x hk, ?_,
    fun x ⟨k, hk⟩ => absurd hk (hnone k x), ?_⟩
  · intro x hx hm
    obtain ⟨hm, hout⟩ := hmapped x hm
    rcases hfree x hx with hf | hc | ⟨-, hxr⟩
    · exact hi.freeMap x hf hm
    · exact hi.childMap x hc hm
    · exact hout hxr
  · rintro x (hx | ⟨k, hk⟩ | hx)
    · exact hi.within x ((hfree x hx).imp_right (Or.imp_right And.left))
    · exact absurd hk (hnone k x)
    · exact hi.within x (.inr (.inr (hmapped x hx).1))

/-! ### Mapping a page -/

theorem Inv.mapPage (hi : v.Inv) {cowChild isReadonly : Bool} {frame : FrameId}
    (hm : v.mapPage s addr cowChild frame isReadonly = .ok (v', s')) : v'.Inv := by
  obtain ⟨key, m, pages, hget, rfl⟩ := mapPage_same hi.map.sorted hm
  have hrange : ({ m with mappedPages := pages } : VmMapping).range = m.range := rfl
  exact hi.shrink hi.free (hi.map.replace hget hrange) (fun _ => id)
    fun x ⟨k', hk'⟩ => ⟨k', (at_insert_same hget hrange).1 hk'⟩

/-- A child may be replaced by one with the same range. -/
theorem replaceable_inv : Replaceable Inv := by
  intro v c c' k hi hc hr
  have hcov : ∀ x, Covers Vmar.range (v.childVmars.insert k c') x → v.ChildAt x :=
    fun x ⟨k', hk'⟩ => ⟨k', (at_insert_same hc hr).1 hk'⟩
  exact ⟨hi.free, hi.child.replace hc hr, hi.map,
    fun x hx hx' => hi.freeChild x hx (hcov x hx'), hi.freeMap,
    fun x hx => hi.childMap x (hcov x hx),
    fun x hx => hi.within x (hx.imp_right (Or.imp_left (hcov x)))⟩

end Vmar

/-- The condition under which an operation keeps the parts of a VMAR apart. -/
def VmarOp.KeepsApart : VmarOp → Vmar → Prop
  | .build o, v => v.OverwritesInside o
  | .destroy range, v => v.DestroysChildren range
  | _, _ => True

theorem VmarOp.inv_run {op : VmarOp} {v v' : Vmar} {s s' : VmSpace} (hok : op.KeepsApart v)
    (h : v.Inv) (hrun : op.run v s = .ok (v', s')) : v'.Inv := by
  cases op with
  | allocChild o =>
    obtain ⟨v1, hv1, hrun⟩ := Result.bind_ok.1 hrun
    cases hrun
    exact h.allocChild hv1
  | build o =>
    obtain ⟨⟨addr, v1, s1⟩, hv1, hrun⟩ := Result.bind_ok.1 hrun
    cases hrun
    exact h.build hok hv1
  | destroy range => exact h.destroy hok hrun
  | destroyAll => exact h.destroyAll hrun
  | mapPage addr cowChild frame isReadonly => exact h.mapPage hrun

namespace AddrSpace

/-- Each step keeps the parts of the VMAR it works on apart. -/
abbrev KeepsApart : AddrSpace → List ℕ × VmarOp → Prop := Locally VmarOp.KeepsApart

theorem localInvariant_inv : LocalInvariant VmarOp.KeepsApart Vmar.Inv where
  root := Vmar.inv_newRoot
  fresh := Vmar.inv_fresh
  sorted _ h := h.child.sorted
  replace := Vmar.replaceable_inv
  run _ _ _ _ _ hok h hrun := VmarOp.inv_run hok h hrun

/-- **The parts of every VMAR stay disjoint and inside it** in every run in which no overwriting
mapping leaves its VMAR and no `destroy` passes by a child that is alive. -/
theorem disjoint_of_reachable {a : AddrSpace} (h : (lts.restrict KeepsApart).Reachable init a)
    {u : Vmar} (hu : u.InTree a.vmar) : u.Disjoint :=
  (localInvariant_inv.everywhere h u hu).disjoint

/-- Overwrite the page at an address by a page of a VMO. -/
def overwritePage (addr : ℕ) : Vmar.MapOptions :=
  { vmo := ⟨0, .all⟩, vmoSize := 0x1000, perms := {}, size := 0x1000, offset := some addr,
    canOverwrite := true }

/-- A child of one page, a mapping behind it, and the child destroyed. -/
def childThenMapping : List (List ℕ × VmarOp) :=
  [([], .allocChild { size := 0x1000, offset := some 0x200000 }),
    ([], .build (overwritePage 0x201000)), ([], .destroy ⟨0x200000, 0x201000⟩)]

theorem disjoint_childThenMapping :
    (lts.restrict KeepsApart).Reachable init (init.after childThenMapping) ∧
      (init.after childThenMapping).vmar.Disjoint := by
  have hsteps : StepsMeet KeepsApart init childThenMapping := by
    refine ⟨fun u _ => trivial, fun a ha => ⟨fun u hu => ?_, fun a' ha' => ⟨fun u hu => ?_,
      fun _ _ => trivial⟩⟩⟩
    · cases ha
      cases hu
      rintro - addr ⟨⟩
      exact within_of_le (by decide) (by decide)
    · cases ha
      cases ha'
      cases hu
      change Vmar.DestroysChildren _ _
      decide
  have hr : (lts.restrict KeepsApart).Reachable init (init.after childThenMapping) :=
    reachable_restrict_runAll (.refl init) hsteps rfl
  exact ⟨hr, disjoint_of_reachable hr ⟨[], rfl⟩⟩

/-- Two children, and a `destroy` of the first: the second is alive and its range is free. -/
def destroyBesideChild : List (List ℕ × VmarOp) :=
  [([], .allocChild { size := 0x1000, offset := some 0x200000 }),
    ([], .allocChild { size := 0x1000, offset := some 0x300000 }),
    ([], .destroy ⟨0x200000, 0x201000⟩)]

/-- An overwriting mapping behind the end of the root VMAR. -/
def overwriteOutside : List (List ℕ × VmarOp) := [([], .build (overwritePage 0x200000000000))]

theorem exists_not_disjoint :
    (∃ a, lts.Reachable init a ∧ ∃ u : Vmar, u.InTree a.vmar ∧ ¬ u.parts.Pairwise Apart) ∧
      ∃ a, lts.Reachable init a ∧ ∃ u : Vmar, u.InTree a.vmar ∧
        ¬ ∀ r ∈ u.parts, r.Within u.range := by
  have hbeside : init.runAll destroyBesideChild = .ok (init.after destroyBesideChild) := rfl
  have houtside : init.runAll overwriteOutside = .ok (init.after overwriteOutside) := rfl
  refine ⟨⟨_, reachable_runAll hbeside, _, ⟨[], rfl⟩, by decide⟩,
    _, reachable_runAll houtside, _, ⟨[], rfl⟩, fun h => ?_⟩
  have hin := h ⟨0x200000000000, 0x200000001000⟩ (by decide) 0x200000000000 (by decide)
  exact absurd hin (by decide)

end AddrSpace

end Jinux
