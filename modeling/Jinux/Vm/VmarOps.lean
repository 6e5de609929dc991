import Jinux.Vm.AddrSpace
import Jinux.Vm.Regions

/-!
# What the operations of a VMAR do

One lemma per operation, for a call that succeeds: the checks it passed, the regions it took or gave
back, and what became of the children and the mappings.  Every later result about VMARs is derived
from these.

* `trimLoop_trace` : a loop of trimming, as what it did to each mapping;
* `allocChild_ok`, `build_ok` : the options are checked, addresses are reserved, the child or the
  mapping is inserted;
* `destroyAll_ok`, `destroy_ok` : ranges are given back and what they held is dropped.
-/

namespace Jinux

open SpanMap VmMapping Result List OrdMap FreeRegions

namespace Vmar

/-! ### What a trimming loop leaves -/

/-- The range cut out of a mapping; the empty range if there is none. -/
def cut (rangeOf : VmMapping → Option Range) (m : VmMapping) : Range := (rangeOf m).getD ⟨0, 0⟩

/-- The rounds of a trimming loop: each mapping with its key and what trimming did to it. -/
structure Rounds (rangeOf : VmMapping → Option Range) (es : List (ℕ × VmMapping)) (out : TrimOut)
    (ts : List (ℕ × VmMapping × Trimmed)) : Prop where
  entries : es = ts.map fun e => (e.1, e.2.1)
  cases : ∀ e ∈ ts, TrimCase e.2.1 (cut rangeOf e.2.1) e.2.2
  kept : out.kept = ts.map fun e => (e.1, e.2.2.self)
  remove : out.remove = ts.flatMap fun e => if e.2.2.remove then [e.2.1.mapToAddr] else []
  append : out.append = ts.flatMap fun e => e.2.2.append.toList.map fun a => (a.mapToAddr, a)

variable {rangeOf : VmMapping → Option Range} {out : TrimOut} {M : OrdMap ℕ VmMapping}
  {ts : List (ℕ × VmMapping × Trimmed)} {k a : ℕ} {b : VmMapping}

/-- How the space changes along the rounds. -/
inductive Trace (rangeOf : VmMapping → Option Range) :
    List (ℕ × VmMapping × Trimmed) → VmSpace → VmSpace → Prop
  | nil (s : VmSpace) : Trace rangeOf [] s s
  | skip {k : ℕ} {m : VmMapping} {ts : List (ℕ × VmMapping × Trimmed)} {s s' : VmSpace}
      (h : rangeOf m = none) (ht : Trace rangeOf ts s s') :
      Trace rangeOf ((k, m, { self := m }) :: ts) s s'
  | trim {k : ℕ} {m : VmMapping} {t : Trimmed} {r : Range}
      {ts : List (ℕ × VmMapping × Trimmed)} {s s₁ s' : VmSpace} (h : rangeOf m = some r)
      (hm : m.trimMapping s r = .ok (t, s₁)) (ht : Trace rangeOf ts s₁ s') :
      Trace rangeOf ((k, m, t) :: ts) s s'

variable {s s' : VmSpace} {e e' : ℕ × VmMapping × Trimmed} {m : VmMapping} {v v' : Vmar}
  {o : MapOptions} {addr x : ℕ} {range : Range} {cowChild isReadonly : Bool}
  {es : List (ℕ × VmMapping)} {u : Unit} {frame : FrameId}

theorem Trace.cases_of_mem (h : Trace rangeOf ts s s') :
    ∀ e ∈ ts, TrimCase e.2.1 (cut rangeOf e.2.1) e.2.2 := by
  induction h with
  | nil s => exact fun _ he => by cases he
  | @skip k m ts s s' hr _ ih =>
    refine forall_mem_cons.2 ⟨.apart (Span.apart_iff.2 fun x _ hx => ?_), ih⟩
    simp [cut, hr] at hx
  | @trim k m t r ts s s1 s' hr hm _ ih =>
    refine forall_mem_cons.2 ⟨?_, ih⟩
    simp only [cut, hr]
    exact trimMapping_cases hm

theorem trimLoop_trace (h : trimLoop rangeOf es s = .ok (out, s')) :
    ∃ ts, Rounds rangeOf es out ts ∧ Trace rangeOf ts s s' := by
  induction es generalizing s s' out with
  | nil =>
    cases h
    exact ⟨[], ⟨rfl, by simp, rfl, rfl, rfl⟩, .nil s⟩
  | cons e es ih =>
    obtain ⟨k, m⟩ := e
    unfold trimLoop at h
    have hround : ∃ t s1, (∀ ts s', Trace rangeOf ts s1 s' → Trace rangeOf ((k, m, t) :: ts) s s') ∧
        (do let p ← trimLoop rangeOf es s1
            pure
              ({ kept := (k, t.self) :: p.1.kept
                 remove := (if t.remove then [m.mapToAddr] else []) ++ p.1.remove
                 append := (t.append.toList.map fun a => (a.mapToAddr, a)) ++ p.1.append }, p.2) :
          Result (TrimOut × VmSpace)) = .ok (out, s') := by
      cases hr : rangeOf m with
      | none =>
        rw [hr] at h
        exact ⟨{ self := m }, s, fun _ _ => .skip hr, h⟩
      | some r =>
        rw [hr] at h
        obtain ⟨⟨t, s1⟩, ht, h⟩ := bind_ok.1 h
        exact ⟨t, s1, fun _ _ => .trim hr ht, h⟩
    obtain ⟨t, s1, ht, h⟩ := hround
    obtain ⟨⟨out', s2⟩, hrest, h⟩ := bind_ok.1 h
    cases h
    obtain ⟨ts, hts, htr⟩ := ih hrest
    have htr' := ht ts s2 htr
    refine ⟨(k, m, t) :: ts, ⟨?_, htr'.cases_of_mem, ?_, ?_, ?_⟩, htr'⟩
    · rw [hts.entries]; rfl
    · simp only [map_cons, hts.kept]
    · simp only [flatMap_cons, hts.remove]
    · simp [hts.append]

theorem trimLoop_rounds (h : trimLoop rangeOf es s = .ok (out, s')) :
    ∃ ts, Rounds rangeOf es out ts :=
  (trimLoop_trace h).imp fun _ hts => hts.1

section

variable (h : Rounds rangeOf M.entries out ts)

include h

theorem Rounds.keyed (hM : Keyed VmMapping.range M)
    (he : e ∈ ts) : M.get? e.1 = some e.2.1 ∧ e.2.1.mapToAddr = e.1 := by
  have hmem : (e.1, e.2.1) ∈ M.entries := by
    rw [h.entries]
    exact mem_map.2 ⟨e, he, rfl⟩
  have hget := (mem_entries hM.sorted).1 hmem
  exact ⟨hget, hM.keyed _ _ hget⟩

theorem Rounds.at_of_mem (hM : Keyed VmMapping.range M)
    (he : e ∈ ts) (ha : a ∈ e.2.1.range) : At VmMapping.range M e.2.1.mapToAddr a := by
  obtain ⟨hget, hkey⟩ := h.keyed hM he
  exact ⟨e.2.1, hkey ▸ hget, ha⟩

theorem Rounds.mem_values (he : e ∈ ts) : e.2.1 ∈ M.values := by
  rw [values, h.entries, map_map]
  exact mem_map_of_mem he

theorem Rounds.exists_of_mem (hm : m ∈ M.values) : ∃ e ∈ ts, e.2.1 = m := by
  rw [values, h.entries, map_map] at hm
  exact mem_map.1 hm

section

variable (hM : Keyed VmMapping.range M)

include hM

/-- No mapping is visited twice. -/
theorem Rounds.entry_inj (he : e ∈ ts) (he' : e' ∈ ts) (hkey : e.2.1.mapToAddr = e'.2.1.mapToAddr) :
    e = e' := by
  have hs : ts.Pairwise fun e e' => e.1 < e'.1 := by
    have := hM.sorted
    rw [Sorted, h.entries, pairwise_map] at this
    exact this
  have hk : e.1 = e'.1 := by rw [← (h.keyed hM he).2, ← (h.keyed hM he').2, hkey]
  obtain ⟨key, x⟩ := e
  obtain ⟨key', x'⟩ := e'
  obtain rfl : key = key' := hk
  rw [Sorted.key_inj hs he he']

/-- A mapping after the loop is a piece of a mapping before it. -/
theorem Rounds.rest (hb : out.mappings.get? k = some b) :
    ∃ e ∈ ts, M.get? e.2.1.mapToAddr = some e.2.1 ∧ Rest e.2.1 e.2.2 k b := by
  unfold TrimOut.mappings at hb
  rw [get?_append (sorted_empty.insertAll _), Option.or_eq_some_iff] at hb
  rcases hb with hb | ⟨-, hb⟩
  · have hmem := mem_of_get?_insertAll hb
    rw [h.append, mem_flatMap] at hmem
    obtain ⟨e, he, hmem⟩ := hmem
    obtain ⟨b', hb', heq⟩ := mem_map.1 hmem
    cases heq
    obtain ⟨hget, hkey⟩ := h.keyed hM he
    exact ⟨e, he, hkey ▸ hget, .appended (Option.mem_toList.1 hb')⟩
  · rw [get?_removeAll] at hb
    split_ifs at hb with hrem
    have hmem := mem_of_get? hb
    rw [h.kept] at hmem
    obtain ⟨e, he, heq⟩ := mem_map.1 hmem
    obtain ⟨hget, hkey⟩ := h.keyed hM he
    cases heq
    have hrm : e.2.2.remove = false := by
      by_contra hr
      refine hrem ?_
      rw [h.remove, mem_flatMap]
      exact ⟨e, he, by simp [Bool.not_eq_false _ ▸ hr, hkey]⟩
    refine ⟨e, he, hkey ▸ hget, ?_⟩
    rw [← hkey]
    exact .kept hrm

theorem Rounds.sorted_kept : (⟨out.kept⟩ : OrdMap ℕ VmMapping).Sorted := by
  refine hM.sorted.of_keys ?_
  change out.kept.map Prod.fst = M.entries.map Prod.fst
  rw [h.kept, h.entries, map_map, map_map]
  rfl

/-- Mappings stay in order, each under its own start. -/
theorem Rounds.keyed_mappings : Keyed VmMapping.range out.mappings := by
  refine ⟨((h.sorted_kept hM).removeAll _).append _, fun k b hb => ?_⟩
  obtain ⟨e, he, -, hr⟩ := h.rest hM hb
  exact ((h.cases e he).rest_range hr).1.symm

end

/-- Two mappings that hold an address are the same one. -/
theorem Rounds.entry_eq (hM : Tiles VmMapping.range M) (he : e ∈ ts) (he' : e' ∈ ts)
    (ha : a ∈ e.2.1.range) (ha' : a ∈ e'.2.1.range) : e = e' :=
  h.entry_inj hM.toKeyed he he' (hM.indep _ _ a (h.at_of_mem hM.toKeyed he ha)
    (h.at_of_mem hM.toKeyed he' ha'))

/-- **Trimming keeps mappings apart**, and what is still mapped was mapped before and not cut
out. -/
theorem Rounds.tiles (hM : Tiles VmMapping.range M) :
    Tiles VmMapping.range out.mappings ∧
      ∀ a, Covers VmMapping.range out.mappings a →
        ∃ m, M.get? m.mapToAddr = some m ∧ a ∈ m.range ∧ a ∉ cut rangeOf m := by
  have hrest : ∀ k a, At VmMapping.range out.mappings k a →
      ∃ e ∈ ts, M.get? e.2.1.mapToAddr = some e.2.1 ∧ a ∈ e.2.1.range ∧
        a ∉ cut rangeOf e.2.1 ∧ ∃ b, Rest e.2.1 e.2.2 k b ∧ a ∈ b.range := by
    rintro k a ⟨b, hb, ha⟩
    obtain ⟨e, he, hget, hr⟩ := h.rest hM.toKeyed hb
    obtain ⟨hin, hout⟩ := ((h.cases e he).rest_range hr).2 a ha
    exact ⟨e, he, hget, hin, hout, b, hr, ha⟩
  refine ⟨⟨h.keyed_mappings hM.toKeyed, fun k k' a ha ha' => ?_⟩, fun a ⟨k, hk⟩ => ?_⟩
  · -- both pieces hold `a`, so they come from the same mapping
    obtain ⟨e, he, -, hin, -, b, hr, hb⟩ := hrest k a ha
    obtain ⟨e', he', -, hin', -, b', hr', hb'⟩ := hrest k' a ha'
    obtain rfl := h.entry_eq hM he he' hin hin'
    rw [((h.cases e he).rest_range hr).1, ((h.cases e he).rest_range hr').1,
      (h.cases e he).rest_indep hr hr' hb hb']
  · obtain ⟨e, -, hget, hin, hout, -⟩ := hrest k a hk
    exact ⟨e.2.1, hget, hin, hout⟩

end

/-! ### Children -/

/-- A child VMAR as it is created: all of it is free. -/
def fresh (offset size : ℕ) : Vmar :=
  { base := offset, size, isDestroyed := false, childVmars := .empty, vmMappings := .empty,
    freeRegions := empty.insert offset ⟨⟨offset, offset + size⟩⟩ }

theorem allocChild_ok {o : ChildOptions} (h : v.allocChild o = .ok v') :
    ∃ childOffset align base r offset,
      findFreeRegion childOffset o.size align v.freeRegions.entries = .ok (base, r, offset) ∧
      v' = { v with
        freeRegions := allocate v.freeRegions base r ⟨offset, offset + o.size⟩
        childVmars := v.childVmars.insert offset (fresh offset o.size) } := by
  obtain ⟨align, -, h⟩ := bind_ok.1 h
  split_ifs at h
  · cases h
  · obtain ⟨childOffset, -, h⟩ := bind_ok.1 h
    obtain ⟨⟨base, r, offset⟩, hfind, h⟩ := bind_ok.1 (viaFrame_ok.1 h)
    cases h
    exact ⟨childOffset, align, base, r, offset, hfind, rfl⟩

/-! ### Mapping a VMO -/

/-- The addresses that `build` reserves from `addr` on. -/
def MapOptions.reserved (o : MapOptions) (addr : ℕ) : Range := ⟨addr, addr + max o.size o.vmoSize⟩

/-- The mapping that `build` makes at `addr`. -/
def MapOptions.mapping (o : MapOptions) (addr : ℕ) : VmMapping :=
  { vmo := o.vmo, vmoOffset := o.vmoOffset, mapSize := o.size, mapToAddr := addr
    pagePerms := empty.insertAll ((World.pageIdxs
      ⟨o.vmoOffset / pageSize, (o.vmoOffset + o.size + (pageSize - 1)) / pageSize⟩).map
      fun pageIdx => (pageIdx, o.perms.toVmPerm)) }

theorem MapOptions.mapping_sub (hx : x ∈ (o.mapping addr).range) : x ∈ o.reserved addr :=
  ⟨hx.1, hx.2.trans_le (Nat.add_le_add_left (le_max_left _ _) _)⟩

/-- The outcomes of `allocateFreeRegionForVmo`. -/
inductive Reserves (v : Vmar) (s : VmSpace) (o : MapOptions) : ℕ → Vmar → VmSpace → Prop
  /-- The regions and the mappings in the way are cut. -/
  | overwrite {addr : ℕ} {F : FreeRegions} {out : TrimOut} {s' : VmSpace}
      (hover : o.canOverwrite = true) (hoffset : o.offset = some addr)
      (hF : splitRegions (o.reserved addr) v.freeRegions = .ok F)
      (hout : trimLoop (fun _ => some (o.reserved addr)) v.vmMappings.entries s = .ok (out, s')) :
      Reserves v s o addr { v with freeRegions := F, vmMappings := out.mappings } s'
  /-- A free region is found that holds all of it. -/
  | fit {addr base : ℕ} {r : FreeRegion} (hover : o.canOverwrite = false)
      (hfind : findFreeRegion o.offset (max o.size o.vmoSize) o.align v.freeRegions.entries =
        .ok (base, r, addr))
      (hmeet : ¬ r.range.Apart (o.reserved addr)) :
      Reserves v s o addr { v with
        freeRegions := allocate v.freeRegions base r (r.range.inter (o.reserved addr)) } s

theorem allocateFreeRegionForVmo_ok (h : v.allocateFreeRegionForVmo s o = .ok (addr, v', s')) :
    Reserves v s o addr v' s' := by
  simp only [allocateFreeRegionForVmo] at h
  split_ifs at h with hover
  · cases hoff : o.offset with
    | none =>
      rw [hoff] at h
      cases h
    | some offset =>
      rw [hoff] at h
      obtain ⟨stop, hstop, h⟩ := bind_ok.1 h
      obtain ⟨-, rfl⟩ := addUsize_ok.1 hstop
      obtain ⟨F, hF, h⟩ := bind_ok.1 h
      obtain ⟨⟨v1, s1⟩, htrim, h⟩ := bind_ok.1 h
      obtain ⟨⟨out, s2⟩, hout, htrim⟩ := bind_ok.1 htrim
      cases htrim
      cases h
      exact .overwrite hover hoff hF hout
  · obtain ⟨⟨base, r, offset⟩, hfind, h⟩ := bind_ok.1 h
    obtain ⟨stop, hstop, h⟩ := bind_ok.1 h
    obtain ⟨-, rfl⟩ := addUsize_ok.1 hstop
    obtain ⟨a, ha, h⟩ := bind_ok.1 h
    simp only [getIntersectedRange, bind_ok, debugAssert_ok, pure_ok] at ha
    obtain ⟨-, hmeet, rfl⟩ := ha
    cases h
    exact .fit (Bool.not_eq_true _ ▸ hover) hfind (isIntersected_iff.1 hmeet)

/-- **Exactly the reserved addresses stop being free.** -/
theorem Reserves.free (h : Reserves v s o addr v' s') (hg : Good v.freeRegions) :
    Good v'.freeRegions ∧ (∀ x, Free v'.freeRegions x ↔
      Free v.freeRegions x ∧ x ∉ o.reserved addr) ∧
      (Solid v.freeRegions → Solid v'.freeRegions) := by
  cases h with
  | overwrite _ _ hF _ => exact hg.splitRegions hF
  | @fit _ r _ hfind hmeet =>
    obtain ⟨hget, hstart, hstop⟩ := hg.find hfind
    have hle : (r.range.inter (o.reserved addr)).start ≤ (r.range.inter (o.reserved addr)).stop :=
      (not_le.1 hmeet).le
    obtain ⟨hgood, hfree⟩ := hg.allocate hget (le_max_left _ _) hle (min_le_left _ _)
    refine ⟨hgood, fun x => (hfree x).trans (and_congr_right fun _ => not_congr ?_),
      fun hs => hs.allocate⟩
    rw [Span.mem_inter]
    exact and_iff_right_of_imp fun hx => ⟨hstart.trans hx.1, hx.2.trans_le hstop⟩

/-- The checks that `build` makes. -/
structure Checked (v : Vmar) (o : MapOptions) : Prop where
  align : pageSize ∣ o.align
  vmoOffset : o.align ∣ o.vmoOffset
  offset : ∀ addr, o.offset = some addr → o.align ∣ addr
  child : ∀ addr, o.offset = some addr → ∀ c ∈ v.childVmars.values,
    (o.reserved addr).Apart c.range

theorem checkOverwrite_ok (h : v.checkOverwrite o = .ok u) (ho : o.offset = some addr) {c : Vmar}
    (hc : c ∈ v.childVmars.values) : (o.reserved addr).Apart c.range := by
  obtain ⟨-, -, h⟩ := bind_ok.1 h
  rw [ho] at h
  obtain ⟨stop, hstop, h⟩ := bind_ok.1 h
  obtain ⟨-, rfl⟩ := addUsize_ok.1 hstop
  unfold checkVmoOverwrite at h
  split_ifs at h with hany
  · cases h
  all_goals
    by_contra hmeet
    exact hany (any_eq_true.2 ⟨c, hc, isIntersected_iff.2 hmeet⟩)

theorem checkOptions_ok (h : v.checkOptions o = .ok u) : Checked v o := by
  obtain ⟨_, halign, h⟩ := bind_ok.1 h
  obtain ⟨_, hpow, h⟩ := bind_ok.1 h
  rw [debugAssert_ok] at halign hpow
  rw [if_neg (by simp [halign, hpow])] at h
  obtain ⟨_, hvmo, h⟩ := bind_ok.1 h
  rw [debugAssert_ok] at hvmo
  rw [if_neg (not_not.2 hvmo)] at h
  have hrest : (∀ addr, o.offset = some addr → o.align ∣ addr) ∧
      ∃ u, v.checkOverwrite o = .ok u := by
    cases hoff : o.offset with
    | none =>
      rw [hoff] at h
      obtain ⟨_, -, h⟩ := bind_ok.1 h
      exact ⟨nofun, _, h⟩
    | some offset =>
      rw [hoff] at h
      obtain ⟨_, hoffset, h⟩ := bind_ok.1 h
      rw [debugAssert_ok] at hoffset
      rw [if_neg (not_not.2 hoffset)] at h
      obtain ⟨_, -, h⟩ := bind_ok.1 h
      refine ⟨fun addr ha => ?_, _, h⟩
      cases ha
      exact Nat.dvd_of_mod_eq_zero hoffset
  obtain ⟨hoffset, u, hover⟩ := hrest
  exact ⟨Nat.dvd_of_mod_eq_zero halign, Nat.dvd_of_mod_eq_zero hvmo, hoffset,
    fun addr ho c hc => checkOverwrite_ok hover ho hc⟩

theorem build_ok (h : v.build s o = .ok (addr, v', s')) :
    Checked v o ∧ ∃ v₁, Reserves v s o addr v₁ s' ∧
      v' = { v₁ with vmMappings := v₁.vmMappings.insert addr (o.mapping addr) } := by
  obtain ⟨_, hcheck, h⟩ := bind_ok.1 h
  obtain ⟨⟨m, v₁, s1⟩, hm, h⟩ := bind_ok.1 h
  cases h
  obtain ⟨⟨a, v2, s2⟩, hres, hm⟩ := bind_ok.1 hm
  obtain ⟨stop, hstop, hm⟩ := bind_ok.1 hm
  obtain ⟨-, rfl⟩ := addUsize_ok.1 hstop
  obtain ⟨idxs, hidxs, hm⟩ := bind_ok.1 hm
  cases hm
  rw [getPageIdxRange_ok hidxs]
  exact ⟨checkOptions_ok hcheck, v₁, allocateFreeRegionForVmo_ok hres, rfl⟩

theorem build_overwrite_ok (hover : o.canOverwrite = true) (h : v.build s o = .ok (addr, v', s')) :
    ∃ F out, o.offset = some addr ∧
      trimLoop (fun _ => some (o.reserved addr)) v.vmMappings.entries s = .ok (out, s') ∧
      v' = { v with
        freeRegions := F
        vmMappings := out.mappings.insert addr (o.mapping addr) } := by
  obtain ⟨-, v1, hres, rfl⟩ := build_ok h
  cases hres with
  | fit hfit _ _ =>
    rw [hover] at hfit
    cases hfit
  | overwrite _ hoffset _ hout => exact ⟨_, _, hoffset, hout, rfl⟩

/-! ### Destruction -/

/-- The free regions once all children and mappings have given back their ranges. -/
def returned (v : Vmar) : FreeRegions :=
  (v.freeRegions.append (freed (v.childVmars.values.map Vmar.range))).append
    (freed (v.vmMappings.values.map VmMapping.range))

theorem destroyAll_ok (h : v.destroyAll s = .ok (v', s')) :
    ∃ F s₁, mergeContinuousRegions v.returned = .ok F ∧
      v' = ⟨v.base, v.size, true, .empty, .empty, F⟩ ∧ s' = VmSpace.clear s₁ := by
  obtain ⟨base, size, isDestroyed, ⟨children⟩, mappings, regions⟩ := v
  obtain ⟨s₁, -, h⟩ := bind_ok.1 h
  obtain ⟨s2, -, h⟩ := bind_ok.1 h
  obtain ⟨F, hF, h⟩ := bind_ok.1 h
  cases h
  refine ⟨F, s2, ?_, rfl, rfl⟩
  rw [← hF]
  simp only [returned, values, map_map]
  rfl

/-- What `destroy` does to a child: a child that meets the range is destroyed, others stay. -/
structure ChildRound (range : Range) (e e' : ℕ × Vmar) : Prop where
  key : e'.1 = e.1
  same : e'.2.range = e.2.range
  destroyed : isIntersected range e.2.range = true → e'.2.isDestroyed = true
  kept : isIntersected range e.2.range = false → e'.2 = e.2

theorem destroyChildren_ok {cs cs' : List (ℕ × Vmar)}
    (h : destroyChildren range cs s = .ok (cs', s')) :
    List.Forall₂ (ChildRound range) cs cs' := by
  induction cs generalizing cs' s s' with
  | nil =>
    cases h
    exact .nil
  | cons e cs ih =>
    simp only [destroyChildren] at h
    split_ifs at h with hmeet
    · obtain ⟨⟨c', s1⟩, hc, h⟩ := bind_ok.1 h
      obtain ⟨⟨cs1, s2⟩, hcs, h⟩ := bind_ok.1 h
      cases h
      obtain ⟨F, s3, -, rfl, -⟩ := destroyAll_ok hc
      exact .cons ⟨rfl, rfl, fun _ => rfl, fun hn => absurd hmeet (Bool.not_eq_true _ ▸ hn)⟩
        (ih hcs)
    · obtain ⟨_, hc, h⟩ := bind_ok.1 h
      cases hc
      obtain ⟨⟨cs1, s2⟩, hcs, h⟩ := bind_ok.1 h
      cases h
      exact .cons ⟨rfl, rfl, fun hm => absurd hm hmeet, fun _ => rfl⟩ (ih hcs)

/-- The children that `destroy` keeps. -/
abbrev survivors (children : List (ℕ × Vmar)) : OrdMap ℕ Vmar :=
  (⟨children⟩ : OrdMap ℕ Vmar).retain fun _ c => !c.isDestroyed

/-- A child that is kept was there before, does not meet the range and is not destroyed. -/
theorem survivors_get? {M : OrdMap ℕ Vmar} {children : List (ℕ × Vmar)} (hM : M.Sorted)
    (h : List.Forall₂ (ChildRound range) M.entries children) :
    (survivors children).Sorted ∧ ∀ k c, (survivors children).get? k = some c →
      M.get? k = some c ∧ range.Apart c.range ∧ c.isDestroyed = false := by
  have hkeys : M.keys = children.map Prod.fst := by
    rw [OrdMap.keys, ← forall₂_eq_eq_eq, forall₂_map_left_iff, forall₂_map_right_iff]
    exact h.imp fun _ _ hr => hr.key.symm
  have hsorted : (⟨children⟩ : OrdMap ℕ Vmar).Sorted := hM.of_keys hkeys.symm
  refine ⟨hsorted.retain _, fun k c hc => ?_⟩
  rw [get?_retain hsorted, Option.filter_eq_some_iff] at hc
  obtain ⟨hc, hlive⟩ := hc
  rw [Bool.not_eq_true'] at hlive
  obtain ⟨e, he, hr⟩ := exists_mem_of_forall₂ h (mem_of_get? hc)
  have hmeet : isIntersected range e.2.range = false := by
    cases hi : isIntersected range e.2.range with
    | false => rfl
    | true => exact absurd (hr.destroyed hi) (by rw [hlive]; decide)
  obtain ⟨k0, c0⟩ := e
  obtain rfl : k = k0 := hr.key
  obtain rfl : c = c0 := hr.kept hmeet
  refine ⟨(mem_entries hM).1 he, ?_, hlive⟩
  by_contra hn
  rw [isIntersected_iff.2 hn] at hmeet
  cases hmeet

theorem mem_destroyRangeOf {r : Range} (h : destroyRangeOf range m = some r) :
    r = m.range.inter range ∧ r.start < r.stop := by
  unfold destroyRangeOf at h
  split_ifs at h with hmeet
  cases h
  exact ⟨rfl, of_decide_eq_true hmeet⟩

theorem mem_cut_destroyRangeOf : x ∈ cut (destroyRangeOf range) m ↔ x ∈ m.range ∧ x ∈ range := by
  unfold cut destroyRangeOf
  split_ifs with hmeet
  · exact Span.mem_inter
  · refine iff_of_false (fun hx => by simp at hx) fun hx =>
      hmeet (isIntersected_iff.2 fun hap => ?_)
    exact Span.apart_iff.1 hap x hx.1 hx.2

/-- The ranges that `destroy` gives back. -/
def givenBack (v : Vmar) (range : Range) : List Range :=
  v.childVmars.values.map Vmar.range ++ v.vmMappings.values.filterMap (destroyRangeOf range)

theorem destroy_ok (h : v.destroy s range = .ok (v', s')) :
    ∃ children s₁ out F,
      destroyChildren range v.childVmars.entries s = .ok (children, s₁) ∧
      trimLoop (destroyRangeOf range) v.vmMappings.entries s₁ = .ok (out, s') ∧
      mergeContinuousRegions (v.freeRegions.append (freed (v.givenBack range))) =
        .ok F ∧
      v' = { v with
        childVmars := survivors children
        vmMappings := out.mappings.retain fun _ m => !m.isDestroyed
        freeRegions := F } := by
  obtain ⟨_, -, h⟩ := bind_ok.1 h
  obtain ⟨⟨children, s₁⟩, hchildren, h⟩ := bind_ok.1 h
  obtain ⟨⟨out, s2⟩, hout, h⟩ := bind_ok.1 h
  obtain ⟨F, hF, h⟩ := bind_ok.1 h
  cases h
  exact ⟨children, s₁, out, F, hchildren, hout, hF, rfl⟩

/-! ### Mapping a page -/

/-- The page of a fault is one of the mapping that holds the address. -/
theorem mapPage_ok (h : v.mapPage s addr cowChild frame isReadonly = .ok (v', s')) :
    ∃ key m m', (key, m) ∈ v.vmMappings.entries ∧ key ≤ addr ∧ addr < key + m.mapSize ∧
      m.mapOnePage cowChild s ((m.vmoOffset + addr - m.mapToAddr) / pageSize) frame isReadonly =
        .ok (m', s') ∧
      v' = { v with vmMappings := v.vmMappings.insert key m' } := by
  unfold mapPage at h
  cases hfind : v.vmMappings.entries.find? fun e => e.1 ≤ addr && addr < e.1 + e.2.mapSize with
  | none =>
    rw [hfind] at h
    cases h
  | some e =>
    obtain ⟨key, m⟩ := e
    rw [hfind] at h
    obtain ⟨x, hx, h⟩ := bind_ok.1 h
    obtain ⟨-, rfl⟩ := addUsize_ok.1 hx
    obtain ⟨y, hy, h⟩ := bind_ok.1 h
    obtain ⟨-, rfl⟩ := subUsize_ok.1 hy
    obtain ⟨⟨m', s1⟩, hone, h⟩ := bind_ok.1 h
    cases h
    have hin := find?_some hfind
    simp only [Bool.and_eq_true, decide_eq_true_iff] at hin
    exact ⟨key, m, m', mem_of_find?_eq_some hfind, hin.1, hin.2, hone, rfl⟩

/-- A page fault changes the mapped pages of one mapping. -/
theorem mapPage_same (hs : v.vmMappings.Sorted)
    (h : v.mapPage s addr cowChild frame isReadonly = .ok (v', s')) :
    ∃ key m pages, v.vmMappings.get? key = some m ∧
      v' = { v with vmMappings := v.vmMappings.insert key { m with mappedPages := pages } } := by
  obtain ⟨key, m, m', hmem, -, -, hone, rfl⟩ := mapPage_ok h
  exact ⟨key, m, _, (mem_entries hs).1 hmem, by rw [(VmMapping.mapOnePage_ok hone).1]⟩

end Vmar

end Jinux
