import Jinux.Vm.Tree

/-!
# What holds of mappings in every run

Whatever the operations on an address space, mappings stay in order under their own start, at page
boundaries of the address space and of their VMO, and none is marked destroyed
(`AddrSpace.shaped_of_reachable`).  No condition on the steps is needed for this.
-/

namespace Jinux

open SpanMap VmMapping Vmar OrdMap

/-- Mappings are keyed by their start, page aligned and not marked destroyed. -/
structure Shaped (M : OrdMap ℕ VmMapping) : Prop extends Keyed VmMapping.range M where
  aligned : ∀ k m, M.get? k = some m → m.Aligned
  live : ∀ k m, M.get? k = some m → m.isDestroyed = false

namespace Shaped

variable {M : OrdMap ℕ VmMapping} {m : VmMapping} {k : ℕ}

theorem empty : Shaped .empty :=
  ⟨tiles_empty.toKeyed, nofun, nofun⟩

theorem insert (h : Shaped M) (hk : m.mapToAddr = k) (ha : m.Aligned)
    (hl : m.isDestroyed = false) : Shaped (M.insert k m) :=
  ⟨h.toKeyed.insert hk, forall_insert h.aligned ha, forall_insert h.live hl⟩

theorem aligned_of_mem (h : Shaped M) (hm : m ∈ M.values) : m.Aligned := by
  obtain ⟨k, hk⟩ := mem_values.1 hm
  exact h.aligned k m ((mem_entries h.sorted).1 hk)

theorem retain (h : Shaped M) (p : ℕ → VmMapping → Bool) : Shaped (M.retain p) :=
  ⟨h.toKeyed.retain p, fun k m hm => h.aligned k m (h.get?_of_retain hm),
    fun k m hm => h.live k m (h.get?_of_retain hm)⟩

/-- Dropping the mappings marked destroyed drops none. -/
theorem retain_live (h : Shaped M) : M.retain (fun _ m => !m.isDestroyed) = M := by
  refine congrArg OrdMap.mk (List.filter_eq_self.2 fun e he => ?_)
  change (!e.2.isDestroyed) = true
  rw [h.live e.1 e.2 ((mem_entries h.sorted).1 he)]
  rfl

/-- Trimming leaves pieces of mappings, and a piece of an aligned mapping is aligned. -/
theorem rounds {rangeOf : VmMapping → Option Range} {out : TrimOut}
    {ts : List (ℕ × VmMapping × Trimmed)} (h : Shaped M)
    (hr : Rounds rangeOf M.entries out ts) : Shaped out.mappings := by
  have hpiece : ∀ k b, out.mappings.get? k = some b →
      ∃ m, M.get? m.mapToAddr = some m ∧ ∃ x y, Piece m b x y := by
    intro k b hb
    obtain ⟨e, he, hget, hrest⟩ := hr.rest h.toKeyed hb
    obtain ⟨z, hp, -⟩ := (hr.cases e he).rest_piece hrest
    exact ⟨e.2.1, hget, k, z, hp⟩
  refine ⟨hr.keyed_mappings h.toKeyed, fun k b hb => ?_, fun k b hb => ?_⟩
  · obtain ⟨m, hm, x, y, hp⟩ := hpiece k b hb
    exact hp.aligned (h.aligned _ m hm)
  · obtain ⟨m, hm, x, y, hp⟩ := hpiece k b hb
    exact hp.isDestroyed.trans (h.live _ m hm)

end Shaped

namespace Vmar

variable {v v' : Vmar} {s s' : VmSpace} {addr : ℕ} {o : MapOptions}

/-- The address that `build` chooses is page aligned. -/
theorem Reserves.dvd_addr (h : Reserves v s o addr v' s') (hcheck : Checked v o) :
    pageSize ∣ addr := by
  refine Nat.dvd_trans hcheck.align ?_
  cases h with
  | overwrite _ hoffset _ _ => exact hcheck.offset addr hoffset
  | fit _ hfind _ =>
    obtain ⟨-, -, -, hsome, hnone⟩ := FreeRegions.findFreeRegion_ok hfind
    cases ho : o.offset with
    | none => exact hnone ho
    | some offset =>
      rw [hsome offset ho]
      exact hcheck.offset offset ho

theorem shaped_build (h : Shaped v.vmMappings) (hb : v.build s o = .ok (addr, v', s')) :
    Shaped v'.vmMappings := by
  obtain ⟨hcheck, v1, hres, rfl⟩ := build_ok hb
  have haligned : (o.mapping addr).Aligned :=
    ⟨hres.dvd_addr hcheck, Nat.dvd_trans hcheck.align hcheck.vmoOffset⟩
  cases hres with
  | overwrite _ _ _ hout =>
    obtain ⟨ts, hts⟩ := trimLoop_rounds hout
    exact (h.rounds hts).insert rfl haligned rfl
  | fit _ _ _ => exact h.insert rfl haligned rfl

theorem shaped_destroy {range : Range} (h : Shaped v.vmMappings)
    (hd : v.destroy s range = .ok (v', s')) : Shaped v'.vmMappings := by
  obtain ⟨children, s1, out, F, -, hout, -, rfl⟩ := destroy_ok hd
  obtain ⟨ts, hts⟩ := trimLoop_rounds hout
  exact (h.rounds hts).retain fun _ m => !m.isDestroyed

theorem shaped_mapPage {cowChild isReadonly : Bool} {frame : FrameId} (h : Shaped v.vmMappings)
    (hm : v.mapPage s addr cowChild frame isReadonly = .ok (v', s')) : Shaped v'.vmMappings := by
  obtain ⟨key, m, pages, hget, rfl⟩ := mapPage_same h.sorted hm
  have ha := h.aligned key m hget
  exact h.insert (h.keyed key m hget) ⟨ha.addr, ha.offset⟩ (h.live key m hget)

end Vmar

theorem VmarOp.shaped_run {op : VmarOp} {v v' : Vmar} {s s' : VmSpace} (h : Shaped v.vmMappings)
    (hrun : op.run v s = .ok (v', s')) : Shaped v'.vmMappings := by
  cases op with
  | allocChild o =>
    obtain ⟨v1, hv1, hrun⟩ := Result.bind_ok.1 hrun
    cases hrun
    obtain ⟨childOffset, align, base, r, offset, -, rfl⟩ := allocChild_ok hv1
    exact h
  | build o =>
    obtain ⟨⟨addr, v1, s1⟩, hv1, hrun⟩ := Result.bind_ok.1 hrun
    cases hrun
    exact shaped_build h hv1
  | destroy range => exact shaped_destroy h hrun
  | destroyAll =>
    obtain ⟨F, s1, -, rfl, -⟩ := destroyAll_ok hrun
    exact Shaped.empty
  | mapPage addr cowChild frame isReadonly => exact shaped_mapPage h hrun

namespace AddrSpace

theorem localInvariant_shaped : LocalInvariant (fun _ _ => True) fun v =>
    Shaped v.vmMappings ∧ v.childVmars.Sorted where
  root := ⟨Shaped.empty, sorted_empty⟩
  fresh _ _ := ⟨Shaped.empty, sorted_empty⟩
  sorted _ h := h.2
  replace _ _ c' k h _ _ := ⟨h.1, h.2.insert k c'⟩
  run _ _ _ _ _ _ h hrun := ⟨VmarOp.shaped_run h.1 hrun, (VmarOp.run_keeps hrun).sorted h.2⟩

/-- **Mappings keep their shape in every run.** -/
theorem shaped_of_reachable {a : AddrSpace} (h : lts.Reachable init a) {u : Vmar}
    (hu : u.InTree a.vmar) : Shaped u.vmMappings :=
  (localInvariant_shaped.everywhere_of_reachable h u hu).1

end AddrSpace

end Jinux
