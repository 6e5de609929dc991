import Jinux.Vm.Disjoint
import Jinux.Vm.Exact

/-!
# No address gets lost

An address that the root VMAR takes out of its free regions is meant to come back: every address is
free, in a child or mapped, and destroying everything leaves the one free region of a new root.
This file follows that property through the operations on the root VMAR.

Addresses do get lost:

* `build` reserves the size of the VMO where that is larger than the mapping, and `destroy` gives
  back the mapping only;
* a mapping that `destroy` or an overwriting `build` replaces by an empty one is never given back;
* an empty child gives back an empty range, which replaces a free region that starts there.

Runs in which none of this happens keep it (`AddrSpace.whole_of_reachable`).
-/

namespace Jinux

open SpanMap VmMapping OrdMap FreeRegions

namespace Vmar

/-- The addresses of the root VMAR. -/
def rootRange : Range := ⟨rootVmarLowestAddr, rootVmarHighestAddr⟩

/-- Every address is in a free region, in a child that is alive or in a mapping. -/
def Covered (v : Vmar) : Prop :=
  ∀ x ∈ rootRange, (∃ r ∈ v.freeRegions.values, x ∈ r.range) ∨
    (∃ c ∈ v.childVmars.values, c.isDestroyed = false ∧ x ∈ c.range) ∨
    ∃ m ∈ v.vmMappings.values, x ∈ m.range

/-- Destroying all addresses leaves the free region of a new root VMAR. -/
def Restores (v : Vmar) : Prop :=
  ∀ (range : Range) (s s' : VmSpace) (v' : Vmar), rootRange.Within range →
    v.destroy s range = .ok (v', s') → v'.freeRegions = newRoot.freeRegions

/-- Every address of the root VMAR belongs to exactly one part, and no free region or child is
empty. -/
structure Whole (v : Vmar) : Prop extends Inv v where
  shaped : Shaped v.vmMappings
  range : v.range = newRoot.range
  all : ∀ x, v.FreeAt x ∨ v.ChildAt x ∨ v.MapAt x ↔ x ∈ rootRange
  solid : Solid v.freeRegions
  children : ∀ k c, v.childVmars.get? k = some c → 0 < c.size ∧ c.isDestroyed = false

variable {v v' : Vmar} {addr : ℕ} {s s' : VmSpace} {range : Range} {o : MapOptions}

theorem Whole.covered (h : v.Whole) : v.Covered := by
  intro x hx
  rcases (h.all x).2 hx with hf | hc | hm
  · exact .inl (h.free.tiles.covers_iff.1 hf)
  · obtain ⟨k, c, hc, hx⟩ := hc
    exact .inr (.inl ⟨c, mem_values_of_get? hc, (h.children k c hc).2, hx⟩)
  · exact .inr (.inr (h.map.covers_iff.1 hm))

theorem whole_newRoot : newRoot.Whole := by
  refine ⟨inv_newRoot, Shaped.empty, rfl, fun x => ?_,
    forall_insert nofun (by decide), nofun⟩
  obtain ⟨-, hf⟩ := good_empty.insert_new
    (r := ⟨rootRange⟩) (by decide) (fun _ _ => not_covers_empty) rfl
  have hfree : newRoot.FreeAt x ↔ x ∈ rootRange :=
    (hf x).trans (or_iff_left not_covers_empty)
  rw [hfree]
  refine or_iff_left ?_
  rintro (hc | hm)
  · exact not_covers_empty hc
  · exact not_covers_empty hm

/-! ### Allocating a child -/

theorem Whole.allocChild (h : v.Whole) {o : ChildOptions} (hpos : 0 < o.size)
    (ha : v.allocChild o = .ok v') : v'.Whole := by
  have hi := h.toInv.allocChild ha
  obtain ⟨childOffset, align, base, r, offset, hfind, rfl⟩ := allocChild_ok ha
  obtain ⟨hget, hstart, hstop⟩ := h.free.find hfind
  obtain ⟨-, hfree⟩ := h.free.allocate hget (a := ⟨offset, offset + o.size⟩) hstart
    (Nat.le_add_right _ _) hstop
  have hwas : ∀ x ∈ (fresh offset o.size).range, v.FreeAt x := fun x hx =>
    ⟨base, r, hget, hstart.trans hx.1, hx.2.trans_le hstop⟩
  obtain ⟨-, hchild⟩ := h.child.insert_of_apart (k := offset) rfl
    (Nat.lt_add_of_pos_right hpos) fun x hx => h.freeChild x (hwas x hx)
  refine ⟨hi, h.shaped, h.range, fun x => ?_, h.solid.allocate,
    forall_insert h.children ⟨hpos, rfl⟩⟩
  have hroot := h.all x
  change Free _ x ∨
    Covers Vmar.range (v.childVmars.insert offset (fresh offset o.size)) x ∨ v.MapAt x ↔ _
  rw [hfree x, hchild x]
  by_cases hx : x ∈ (fresh offset o.size).range
  · exact iff_of_true (.inr (.inl (.inl hx))) (hroot.1 (.inl (hwas x hx)))
  · have hx' : x ∉ (⟨offset, offset + o.size⟩ : Range) := hx
    rw [← hroot, and_iff_left hx', or_iff_right hx]

/-! ### Mapping a VMO -/

/-- The VMO is not larger than the mapping, and an overwriting mapping lies among the addresses of
the root VMAR and takes nothing but its own pages. -/
def FillsReserved (v : Vmar) (o : MapOptions) : Prop :=
  o.vmoSize ≤ o.size ∧ (o.canOverwrite = true → ∀ addr, o.offset = some addr →
    (⟨addr, addr + o.size⟩ : Range).Within rootRange ∧ v.NothingBeside o addr)

theorem MapOptions.mem_reserved (h : o.vmoSize ≤ o.size) {x : ℕ} :
    x ∈ o.reserved addr ↔ x ∈ (o.mapping addr).range := by
  have heq : o.reserved addr = (o.mapping addr).range :=
    congrArg (fun n => (⟨addr, addr + n⟩ : Range)) (max_eq_left h)
  rw [heq]

/-- All that is reserved becomes mapped, and nothing else changes. -/
theorem Whole.mapAt_build (h : v.Whole) (hok : v.FillsReserved o)
    (hb : v.build s o = .ok (addr, v', s')) : (o.reserved addr).Within rootRange ∧
      ∀ x, v'.MapAt x ↔ x ∈ o.reserved addr ∨ v.MapAt x ∧ x ∉ o.reserved addr := by
  have hmem : ∀ {x}, x ∈ o.reserved addr ↔ x ∈ (o.mapping addr).range :=
    MapOptions.mem_reserved hok.1
  obtain ⟨hcheck, v1, hres, hv⟩ := build_ok hb
  cases hres with
  | overwrite hover hoffset _ hout =>
    obtain ⟨hin, hno⟩ := hok.2 hover addr hoffset
    refine ⟨fun x hx => hin x (hmem.1 hx), fun x => ?_⟩
    obtain ⟨ts, hts⟩ := trimLoop_rounds hout
    have hv' : v'.vmMappings = _ := congrArg Vmar.vmMappings hv
    have hM' := tiles_overwrite h.map hts hv'
    by_cases hx : x ∈ o.reserved addr
    · refine iff_of_true ⟨addr, o.mapping addr, ?_, hmem.1 hx⟩ (.inl hx)
      rw [hv', get?_insert_self]
    · have hsame := resolve_overwrite h.map hts hv' h.shaped hno.neighbour hno.start hx
      rw [or_iff_right hx, and_iff_left hx, ← not_iff_not, ← not_covers_iff hM'.toKeyed, hsame,
        not_covers_iff h.map.toKeyed]
  | @fit base r hover hfind hmeet =>
    obtain ⟨hget, hstart, hstop⟩ := h.free.find hfind
    have hwas : ∀ x ∈ o.reserved addr, v.FreeAt x := fun x hx =>
      ⟨_, _, hget, hstart.trans hx.1, hx.2.trans_le hstop⟩
    have hpos : addr < (o.mapping addr).range.stop := by
      have hlt := start_lt_stop hmeet
      exact (hmem.1 ⟨le_rfl, hlt⟩).2
    obtain ⟨-, hcov⟩ := h.map.insert_of_apart (b := o.mapping addr) rfl hpos fun x hx =>
      h.freeMap x (hwas x (hmem.2 hx))
    refine ⟨fun x hx => (h.all x).1 (.inl (hwas x hx)), fun x => ?_⟩
    rw [hv]
    refine (hcov x).trans (or_congr hmem.symm (and_iff_left_of_imp fun hm hx => ?_).symm)
    exact h.freeMap x (hwas x hx) hm

theorem Whole.build (h : v.Whole) (hok : v.FillsReserved o)
    (hb : v.build s o = .ok (addr, v', s')) : v'.Whole := by
  have hinside : v.OverwritesInside o := fun hover addr hoffset => by
    rw [h.range]
    exact ((hok.2 hover addr hoffset).1).trans (Span.within_of_le (by decide) (by decide))
  have hi := h.toInv.build hinside hb
  obtain ⟨hin, hmap⟩ := h.mapAt_build hok hb
  have hshaped := shaped_build h.shaped hb
  obtain ⟨-, v1, hres, hv⟩ := build_ok hb
  obtain ⟨-, hfree, hsolid⟩ := hres.free h.free
  have hsame : v1.range = v.range ∧ v1.childVmars = v.childVmars := by
    cases hres <;> exact ⟨rfl, rfl⟩
  have hfree' : ∀ x, v'.FreeAt x ↔ v.FreeAt x ∧ x ∉ o.reserved addr := by rw [hv]; exact hfree
  have hchild' : v'.childVmars = v.childVmars := by rw [hv]; exact hsame.2
  refine ⟨hi, hshaped, ?_, fun x => ?_, ?_, ?_⟩
  · rw [hv]
    exact hsame.1.trans h.range
  · rw [hfree' x, hmap x, ChildAt, hchild']
    by_cases hx : x ∈ o.reserved addr
    · exact iff_of_true (.inr (.inr (.inl hx))) (hin x hx)
    · rw [← h.all x, and_iff_left hx, or_iff_right hx, and_iff_left hx]
  · rw [hv]
    exact hsolid h.solid
  · rw [hchild']
    exact h.children

/-! ### Destruction -/

/-- The range meets every child and replaces no mapping by an empty one. -/
def GivesAllBack (v : Vmar) (range : Range) : Prop :=
  ¬ ClobbersNext v.vmMappings range ∧ ∀ c ∈ v.childVmars.values, ¬ range.Apart c.range

instance (v : Vmar) (range : Range) : Decidable (v.GivesAllBack range) :=
  inferInstanceAs (Decidable (_ ∧ ∀ c ∈ v.childVmars.values, _))

section

variable (h : v.Whole)

include h

theorem Whole.givenBack_lt {r : Range} (hr : r ∈ v.givenBack range) : r.start < r.stop := by
  rcases List.mem_append.1 hr with hr | hr
  · obtain ⟨c, hc, rfl⟩ := List.mem_map.1 hr
    obtain ⟨k, hk⟩ := mem_values.1 hc
    exact Nat.lt_add_of_pos_right (h.children k c ((mem_entries h.child.sorted).1 hk)).1
  · obtain ⟨m, -, hr⟩ := List.mem_filterMap.1 hr
    exact (mem_destroyRangeOf hr).2

/-- Exactly the addresses of children and the mapped ones in the range become free, and the free
regions are merged. -/
theorem Whole.free_destroy {F : FreeRegions}
    (hF : mergeContinuousRegions (v.freeRegions.append (freed (v.givenBack range))) = .ok F) :
    (∀ x, Free F x ↔ v.FreeAt x ∨ v.ChildAt x ∨ v.MapAt x ∧ x ∈ range) ∧
      Good F ∧ Solid F ∧ Merged F := by
  have hd : ∀ r ∈ v.givenBack range, ∀ x ∈ r, ¬ v.FreeAt x := fun r hr x hx =>
    h.not_free_givenBack hr hx
  have hne : ∀ r ∈ v.givenBack range, r.start < r.stop := fun r hr => h.givenBack_lt hr
  obtain ⟨hg, hfree⟩ := h.free.append_freed (h.givenBack_indep range) (fun r hr => (hne r hr).le) hd
  obtain ⟨hg', hmerge, hsolid⟩ := hg.merge hF
  refine ⟨fun x => ?_, hg', hsolid (h.solid.append_freed hne)⟩
  have hback : (∃ r ∈ v.givenBack range, x ∈ r) ↔ v.ChildAt x ∨ v.MapAt x ∧ x ∈ range :=
    h.mem_givenBack
  rw [hmerge x, ← hback]
  exact ⟨hfree x, h.free.free_append_freed (h.givenBack_indep range) hne hd⟩

/-- After a `destroy` that gives all back there is no child, and exactly the mapped addresses
outside the range are still mapped. -/
theorem Whole.destroy_parts (hok : v.GivesAllBack range) (hd : v.destroy s range = .ok (v', s')) :
    (∀ k, v'.childVmars.get? k = none) ∧ (∀ x, v'.MapAt x ↔ v.MapAt x ∧ x ∉ range) ∧
      (∀ x, v'.FreeAt x ↔ v.FreeAt x ∨ v.ChildAt x ∨ v.MapAt x ∧ x ∈ range) ∧
      Good v'.freeRegions ∧ Solid v'.freeRegions ∧
      Merged v'.freeRegions := by
  obtain ⟨children, s1, out, F, hchildren, hout, hF, rfl⟩ := destroy_ok hd
  obtain ⟨-, hsurv⟩ := survivors_get? h.child.sorted (destroyChildren_ok hchildren)
  obtain ⟨ts, hts⟩ := trimLoop_rounds hout
  refine ⟨fun k => ?_, fun x => ?_, h.free_destroy hF⟩
  · cases hget : (survivors children).get? k with
    | none => rfl
    | some c =>
      obtain ⟨hc, hap, -⟩ := hsurv k c hget
      exact absurd hap (hok.2 c (mem_values_of_get? hc))
  · have hlive : out.mappings.retain (fun _ m => !m.isDestroyed) = out.mappings :=
      (h.shaped.rounds hts).retain_live
    rw [hlive]
    have hc := cutsOut_destroy range
    by_cases hx : x ∈ range
    · exact iff_of_false (hts.not_covers h.map hc hx) fun hm => hm.2 hx
    · have hM' : Keyed VmMapping.range ({ v with vmMappings := out.mappings } : Vmar).vmMappings :=
        (hts.tiles h.map).1.toKeyed
      have hsame : ({ v with vmMappings := out.mappings } : Vmar).resolve x = v.resolve x :=
        hts.resolve h.shaped h.map hc hok.1 rfl hx
      rw [and_iff_left hx, ← not_iff_not, ← not_covers_iff h.map.toKeyed, ← hsame]
      exact (not_covers_iff hM').symm

theorem Whole.destroy (hok : v.GivesAllBack range)
    (hd : v.destroy s range = .ok (v', s')) : v'.Whole := by
  obtain ⟨hchild, hmap, hfree, -, hsolid, -⟩ := h.destroy_parts hok hd
  have hi := h.toInv.destroy (fun c hc => .inr (.inr (hok.2 c hc))) hd
  have hnone : ∀ x, ¬ v'.ChildAt x := by
    rintro x ⟨k, c, hc, -⟩
    rw [hchild k] at hc
    cases hc
  refine ⟨hi, shaped_destroy h.shaped hd, ?_, fun x => ?_, hsolid, fun k c hc => ?_⟩
  · obtain ⟨children, s1, out, F, -, -, -, rfl⟩ := destroy_ok hd
    exact h.range
  · rw [hfree x, hmap x, ← h.all x]
    tauto
  · rw [hchild k] at hc
    cases hc

/-- A range that holds all addresses meets every child and cuts no tail. -/
theorem Whole.givesAllBack (hr : rootRange.Within range) : v.GivesAllBack range := by
  refine ⟨?_, fun c hc hap => ?_⟩
  · rintro ⟨m, hm, ⟨hlt, hin, -⟩, -⟩
    have hx : m.mapToAddr ∈ m.range := ⟨le_rfl, hlt.trans hin⟩
    have hroot := (h.all _).1 (.inr (.inr (h.map.covers_iff.2 ⟨m, hm, hx⟩)))
    exact absurd (hr _ hroot).1 (not_le.2 hlt)
  · obtain ⟨k, hk⟩ := mem_values.1 hc
    have hpos := (h.children k c ((mem_entries h.child.sorted).1 hk)).1
    have hx : c.base ∈ c.range := ⟨le_rfl, Nat.lt_add_of_pos_right hpos⟩
    have hroot := (h.all _).1 (.inr (.inl (h.child.covers_iff.2 ⟨c, hc, hx⟩)))
    exact Span.apart_iff.1 hap c.base (hr _ hroot) hx

/-- **Destroying everything leaves one free region.** -/
theorem Whole.restores : v.Restores := by
  intro range s s' v' hr hd
  obtain ⟨-, -, hfree, hg, hsolid, hmerged⟩ := h.destroy_parts (h.givesAllBack hr) hd
  refine hg.eq_singleton hsolid hmerged (by decide) fun x => ?_
  have hroot := h.all x
  refine (hfree x).trans ?_
  change _ ↔ x ∈ rootRange
  tauto

/-! ### Steps elsewhere in the tree -/

theorem Whole.mapPage {cowChild isReadonly : Bool} {frame : FrameId}
    (hm : v.mapPage s addr cowChild frame isReadonly = .ok (v', s')) : v'.Whole := by
  have hi := h.toInv.mapPage hm
  have hs := shaped_mapPage h.shaped hm
  obtain ⟨key, m, pages, hget, rfl⟩ := mapPage_same h.map.sorted hm
  have hrange : ({ m with mappedPages := pages } : VmMapping).range = m.range := rfl
  refine ⟨hi, hs, h.range, fun x => ?_, h.solid, h.children⟩
  rw [← h.all x]
  exact or_congr_right (or_congr_right (exists_congr fun k => at_insert_same hget hrange))

theorem Whole.replaceChild {c c' : Vmar} {k : ℕ} (hc : v.childVmars.get? k = some c)
    (hr : c'.range = c.range) (hd : c'.isDestroyed = c.isDestroyed) :
    ({ v with childVmars := v.childVmars.insert k c' } : Vmar).Whole := by
  refine ⟨replaceable_inv v c c' k h.toInv hc hr, h.shaped, h.range, fun x => ?_, h.solid,
    forall_insert h.children ?_⟩
  · rw [← h.all x]
    exact or_congr_right (or_congr_left (exists_congr fun k' => at_insert_same hc hr))
  · obtain ⟨hpos, hlive⟩ := h.children k c hc
    have hbase : c'.base = c.base := congrArg Span.start hr
    have hstop : c'.base + c'.size = c.base + c.size := congrArg Span.stop hr
    exact ⟨by omega, hd.trans hlive⟩

end

theorem replaceAt_live {path : List ℕ} {u u' : Vmar} (hu : v.at? path = some u)
    (hd : u'.isDestroyed = u.isDestroyed) : (v.replaceAt path u').isDestroyed = v.isDestroyed := by
  cases path with
  | nil =>
    cases hu
    exact hd
  | cons k path =>
    obtain ⟨c, hc, -⟩ := Option.bind_eq_some_iff.1 hu
    rw [replaceAt, hc]

end Vmar

/-- The condition under which an operation on the root VMAR loses no address. -/
def VmarOp.LosesNothing : VmarOp → Vmar → Prop
  | .allocChild o, _ => 0 < o.size
  | .build o, v => v.FillsReserved o
  | .destroy range, v => v.GivesAllBack range
  | _, _ => True

theorem VmarOp.whole_run {op : VmarOp} {v v' : Vmar} {s s' : VmSpace} (hop : op ≠ .destroyAll)
    (hok : op.LosesNothing v) (h : v.Whole) (hrun : op.run v s = .ok (v', s')) : v'.Whole := by
  cases op with
  | allocChild o =>
    obtain ⟨v1, hv1, hrun⟩ := Result.bind_ok.1 hrun
    cases hrun
    exact h.allocChild hok hv1
  | build o =>
    obtain ⟨⟨addr, v1, s1⟩, hv1, hrun⟩ := Result.bind_ok.1 hrun
    cases hrun
    exact h.build hok hv1
  | destroy range => exact h.destroy hok hrun
  | destroyAll => exact absurd rfl hop
  | mapPage addr cowChild frame isReadonly => exact h.mapPage hrun

namespace AddrSpace

/-- No VMAR is destroyed as a whole, and steps on the root VMAR lose nothing. -/
def LosesNothing (a : AddrSpace) (l : List ℕ × VmarOp) : Prop :=
  l.2 ≠ .destroyAll ∧ (l.1 = [] → l.2.LosesNothing a.vmar)

theorem whole_step {a a' : AddrSpace} {l : List ℕ × VmarOp} (h : a.vmar.Whole)
    (hok : a.LosesNothing l) (hs : lts.step a l a') : a'.vmar.Whole := by
  obtain ⟨u, u', hu, hrun, hvmar⟩ := apply_ok hs
  obtain ⟨path, op⟩ := l
  obtain ⟨hop, hroot⟩ := hok
  rw [hvmar]
  cases path with
  | nil =>
    cases hu
    exact VmarOp.whole_run hop (hroot rfl) h hrun
  | cons k path =>
    obtain ⟨c, hc, hu⟩ := Option.bind_eq_some_iff.1 hu
    have hkeeps := VmarOp.run_keeps hrun
    rw [Vmar.replaceAt, hc]
    exact h.replaceChild hc (Vmar.replaceAt_range hu hkeeps.range)
      (Vmar.replaceAt_live hu (hkeeps.live hop))

/-- **No address of the root VMAR gets lost**, and destroying everything leaves its one free region,
in every run whose steps lose nothing. -/
theorem whole_of_reachable {a : AddrSpace} (h : (lts.restrict LosesNothing).Reachable init a) :
    a.vmar.Covered ∧ a.vmar.Restores := by
  have hw : a.vmar.Whole := h.invariant (P := fun a => a.vmar.Whole) Vmar.whole_newRoot
    fun _ _ _ hw hs => whole_step hw hs.1 hs.2
  exact ⟨hw.covered, hw.restores⟩

theorem whole_childThenMapping :
    (lts.restrict LosesNothing).Reachable init (init.after childThenMapping) ∧
      (init.after childThenMapping).vmar.Covered ∧ (init.after childThenMapping).vmar.Restores := by
  have hsteps : StepsMeet LosesNothing init childThenMapping := by
    refine ⟨⟨by simp, fun _ => Nat.succ_pos _⟩, fun a ha => ⟨⟨by simp, fun _ => ?_⟩, fun a' ha' =>
      ⟨⟨by simp, fun _ => ?_⟩, fun _ _ => trivial⟩⟩⟩
    · cases ha
      refine ⟨by decide, ?_⟩
      rintro - addr ⟨⟩
      refine ⟨Span.within_of_le (by decide) (by decide), by decide, fun x _ hge hx => ?_,
        nofun⟩
      exact absurd hx.2 (not_lt.2 hge)
    · cases ha
      cases ha'
      change Vmar.GivesAllBack _ _
      decide
  have hr : (lts.restrict LosesNothing).Reachable init (init.after childThenMapping) :=
    reachable_restrict_runAll (.refl init) hsteps rfl
  exact ⟨hr, whole_of_reachable hr⟩

/-- One page of a VMO of three pages. -/
def onePageOfThree : Vmar.MapOptions :=
  { vmo := ⟨0, .all⟩, vmoSize := 0x3000, perms := {}, size := 0x1000, offset := some 0x201000 }

/-- The two pages behind the mapping are neither free nor mapped, and never come back. -/
theorem exists_not_covered :
    ∃ a, (lts.restrict fun _ l => l.2 ≠ .destroyAll).Reachable init a ∧
      (∃ x ∈ Vmar.rootRange, pageSize ∣ x ∧ (∀ r ∈ a.vmar.freeRegions.values, x ∉ r.range) ∧
        (∀ c ∈ a.vmar.childVmars.values, x ∉ c.range) ∧
        ∀ m ∈ a.vmar.vmMappings.values, x ∉ m.range) ∧
      ∃ v' s', a.vmar.destroy a.space Vmar.rootRange = .ok (v', s') ∧
        v'.freeRegions ≠ Vmar.newRoot.freeRegions := by
  refine ⟨init.after [([], .build onePageOfThree)], ?_, ⟨0x202000, by decide⟩, _, _, rfl, by decide⟩
  exact (Lts.Reachable.refl init).step (l := ([], .build onePageOfThree)) ⟨by simp, rfl⟩

end AddrSpace

end Jinux
