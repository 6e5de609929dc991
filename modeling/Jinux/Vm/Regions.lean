import Jinux.Lib.SpanMap
import Jinux.Vm.Trim

/-!
# Free regions

The operations on the free regions of a VMAR, in terms of the addresses that are free: allocation
takes a range out, merging changes nothing, and giving ranges back adds them.
-/

namespace Jinux

open SpanMap Result List OrdMap Vmar Jinux.Span

namespace FreeRegions

/-- The regions tile, and none has its ends the wrong way round. -/
structure Good (m : FreeRegions) : Prop where
  tiles : Tiles FreeRegion.range m
  oriented : ∀ k r, m.get? k = some r → r.start ≤ r.stop

/-- The address is free. -/
abbrev Free (m : FreeRegions) (a : ℕ) : Prop := Covers FreeRegion.range m a

variable {m m' : FreeRegions} {r r' : FreeRegion} {base fuel size align offset k : ℕ}
  {a mapRange : Range} {childOffset : Option ℕ} {ks : List ℕ}

theorem good_empty : Good .empty := ⟨tiles_empty, nofun⟩

theorem Good.remove (h : Good m) (k : ℕ) : Good (m.remove k) :=
  ⟨h.tiles.remove k, fun k' r hr => h.oriented k' r (of_get?_remove hr).2⟩

/-- A region outside a map of regions and the map, as the merging loop handles them. -/
structure Split (r : FreeRegion) (m : FreeRegions) : Prop where
  good : Good m
  oriented : r.start ≤ r.stop
  apart : ∀ x ∈ r.range, ¬ Free m x

/-- A region and the other ones make up the free addresses. -/
theorem Good.split (h : Good m) (hr : m.get? base = some r) :
    Split r (m.remove base) ∧ ∀ x, x ∈ r.range ∨ Free (m.remove base) x ↔ Free m x := by
  have hc : ∀ x, Free (m.remove base) x ↔ Free m x ∧ x ∉ r.range :=
    fun x => h.tiles.covers_remove hr
  refine ⟨⟨h.remove base, h.oriented base r hr, fun x hx hf => ((hc x).1 hf).2 hx⟩, fun x => ?_⟩
  have hin : x ∈ r.range → Free m x := fun hx => ⟨base, r, hr, hx⟩
  rw [hc x]
  tauto

/-- Insert a region, if it is not empty. -/
def insertSolid (m : FreeRegions) (r : FreeRegion) : FreeRegions :=
  if r.start < r.stop then m.insert r.start r else m

theorem allocate_eq : allocate m base r a =
    (insertSolid (m.remove base) ⟨⟨r.start, a.start⟩⟩).insertSolid ⟨⟨a.stop, r.stop⟩⟩ := by
  unfold allocate insertRegions FreeRegion.allocateRange insertSolid
  by_cases h1 : r.range.start < a.start <;> by_cases h2 : a.stop < r.range.stop <;>
    simp [FreeRegion.start, FreeRegion.stop, insertAll, h1, h2]

theorem Good.insertSolid (h : Good m) (hd : ∀ x ∈ r.range, ¬ Free m x) :
    Good (m.insertSolid r) ∧ ∀ x, Free (m.insertSolid r) x ↔ x ∈ r.range ∨ Free m x := by
  unfold FreeRegions.insertSolid
  split_ifs with hne
  · obtain ⟨ht, hc⟩ := h.tiles.insert_of_apart rfl hne hd
    exact ⟨⟨ht, forall_insert h.oriented hne.le⟩, hc⟩
  · exact ⟨h, fun x => (or_iff_right fun hx => hne (hx.1.trans_lt hx.2)).symm⟩

/-- **Allocation takes exactly the allocated range out of the free addresses.** -/
theorem Good.allocate (h : Good m) (hr : m.get? base = some r) (hstart : r.start ≤ a.start)
    (hle : a.start ≤ a.stop) (hstop : a.stop ≤ r.stop) :
    Good (allocate m base r a) ∧ ∀ x, Free (allocate m base r a) x ↔ Free m x ∧ x ∉ a := by
  obtain ⟨hs, hfree⟩ := h.split hr
  -- the piece in front of the range, then the piece behind it
  obtain ⟨h1, hc1⟩ := hs.good.insertSolid (r := ⟨⟨r.start, a.start⟩⟩) fun x hx =>
    hs.apart x ⟨hx.1, hx.2.trans_le (hle.trans hstop)⟩
  obtain ⟨h2, hc2⟩ := h1.insertSolid (r := ⟨⟨a.stop, r.stop⟩⟩) fun x hx hf => by
    rcases (hc1 x).1 hf with hx' | hf
    · exact absurd (hx'.2.trans_le (hle.trans hx.1)) (lt_irrefl x)
    · exact hs.apart x ⟨(hstart.trans hle).trans hx.1, hx.2⟩ hf
  rw [allocate_eq]
  refine ⟨h2, fun x => ?_⟩
  have hmem : x ∈ r.range ↔ r.start ≤ x ∧ x < r.stop := Iff.rfl
  rw [hc2, hc1, ← hfree, hmem, mem_mk, mem_mk, mem_def]
  by_cases hf : Free (m.remove base) x
  · have hx : ¬ (r.start ≤ x ∧ x < r.stop) := fun hx => hs.apart x hx hf
    simp only [hf, or_true, true_and, true_iff]
    omega
  · simp only [hf, or_false]
    omega

/-! ### Merging -/

theorem mergeOtherRegion_ok {other : FreeRegion} (h : r.mergeOtherRegion other = .ok r') :
    r.stop = other.start ∧ r.start < other.stop ∧ r' = ⟨⟨r.start, other.stop⟩⟩ := by
  simp only [FreeRegion.mergeOtherRegion, bind_ok, assert_ok, pure_ok] at h
  obtain ⟨-, h1, -, h2, rfl⟩ := h
  exact ⟨h1, h2, rfl⟩

/-- The loop moves regions from the map into the region; no address gets lost. -/
theorem mergeLoop_ok (hs : Split r m) (h : mergeLoop fuel r m = .ok (r', m')) :
    Split r' m' ∧ r'.start = r.start ∧ ∀ x, x ∈ r'.range ∨ Free m' x ↔ x ∈ r.range ∨ Free m x := by
  induction fuel generalizing r m with
  | zero =>
    cases h
    exact ⟨hs, rfl, fun _ => Iff.rfl⟩
  | succ fuel ih =>
    unfold mergeLoop at h
    cases hget : m.get? r.stop with
    | none =>
      rw [hget] at h
      cases h
      exact ⟨hs, rfl, fun _ => Iff.rfl⟩
    | some other =>
      rw [hget] at h
      obtain ⟨r1, hr1, h⟩ := bind_ok.1 h
      obtain ⟨hstop, hlt, rfl⟩ := mergeOtherRegion_ok hr1
      obtain ⟨hs0, hfree⟩ := hs.good.split hget
      -- the two adjacent regions make up the merged one
      have hunion : ∀ x, x ∈ (⟨r.start, other.stop⟩ : Range) ↔
          x ∈ r.range ∨ x ∈ other.range := by
        intro x
        have h1 : x ∈ r.range ↔ r.start ≤ x ∧ x < r.stop := Iff.rfl
        have h2 : x ∈ other.range ↔ other.start ≤ x ∧ x < other.stop := Iff.rfl
        have h3 := hs.oriented
        have h4 := hs0.oriented
        rw [h1, h2, mem_mk]
        omega
      have hs1 : Split ⟨⟨r.start, other.stop⟩⟩ (m.remove r.stop) := by
        refine ⟨hs0.good, hlt.le, fun x hx hf => ?_⟩
        rcases (hunion x).1 hx with hx | hx
        · exact hs.apart x hx ((hfree x).1 (.inr hf))
        · exact hs0.apart x hx hf
      obtain ⟨hs', hst, hiff⟩ := ih hs1 h
      refine ⟨hs', hst, fun x => ?_⟩
      rw [hiff x, ← hfree x, ← or_assoc]
      exact or_congr_left (hunion x)

/-- The loop stops where no region follows. -/
theorem mergeLoop_end (hlen : m.entries.length ≤ fuel) (h : mergeLoop fuel r m = .ok (r', m')) :
    m'.get? r'.stop = none ∧ (r.start < r.stop → r'.start < r'.stop) ∧
      ∀ k b, m'.get? k = some b → m.get? k = some b := by
  induction fuel generalizing r r' m m' with
  | zero =>
    cases h
    have hnil : m.entries = [] := eq_nil_of_length_eq_zero (Nat.le_zero.1 hlen)
    exact ⟨by rw [get?, hnil]; rfl, id, fun _ _ => id⟩
  | succ fuel ih =>
    unfold mergeLoop at h
    cases hget : m.get? r.stop with
    | none =>
      rw [hget] at h
      cases h
      exact ⟨hget, id, fun _ _ => id⟩
    | some other =>
      rw [hget] at h
      obtain ⟨r1, hr1, h⟩ := bind_ok.1 h
      obtain ⟨-, hlt, rfl⟩ := mergeOtherRegion_ok hr1
      have hlen' := Nat.le_of_lt_succ ((length_remove_lt hget).trans_le hlen)
      obtain ⟨hend, hsolid, hsub⟩ := ih hlen' h
      exact ⟨hend, fun _ => hsolid hlt, fun k b hb => (of_get?_remove (hsub k b hb)).2⟩

/-- No region is empty. -/
def Solid (m : FreeRegions) : Prop := ∀ k r, m.get? k = some r → r.start < r.stop

/-- No region starts where another one ends. -/
def Merged (m : FreeRegions) : Prop := ∀ k r, m.get? k = some r → m.get? r.stop = none

/-- The old and the new regions of the merging loop, with the keys still to visit. -/
structure Merging (m : FreeRegions) (ks : List ℕ) (p : FreeRegions × FreeRegions) : Prop where
  old : Good p.1
  new : Good p.2
  apart : ∀ x, Free p.1 x → ¬ Free p.2 x
  free : ∀ x, Free p.1 x ∨ Free p.2 x ↔ Free m x
  ascending : ks.Pairwise (· < ·)
  todo : ∀ k r, p.1.get? k = some r → k ∈ ks
  below : ∀ k r, p.2.get? k = some r → ∀ k' ∈ ks, k < k'

/-- No old or new region is empty, and no region starts where a new one ends. -/
structure Swept (p : FreeRegions × FreeRegions) : Prop where
  old : Solid p.1
  new : Solid p.2
  ends : ∀ k r, p.2.get? k = some r → p.1.get? r.stop = none
  merged : Merged p.2

/-- Insert a region, empty or not, under a key that is not in use. -/
theorem Good.insert_new (h : Good m) (hor : r.start ≤ r.stop) (hd : ∀ x ∈ r.range, ¬ Free m x)
    (hkey : m.get? r.start = none) :
    Good (m.insert r.start r) ∧ ∀ x, Free (m.insert r.start r) x ↔ x ∈ r.range ∨ Free m x := by
  refine ⟨⟨h.tiles.insert rfl fun x hx k' _ hat => hd x hx hat.covers,
    forall_insert h.oriented hor⟩, fun x => covers_insert fun x ⟨b, hb, _⟩ => ?_⟩
  rw [hkey] at hb
  cases hb

/-- The merged region ends where no region starts, and starts where no new one ends. -/
theorem Swept.insert {p : FreeRegions × FreeRegions} {rest : FreeRegions} {old : FreeRegion}
    (h : Swept p) (hold : p.1.get? r.start = some old) (hne : r.start < r.stop)
    (hrest : ∀ k b, rest.get? k = some b → p.1.get? k = some b) (hend : rest.get? r.stop = none)
    (hbelow : ∀ k b, p.2.get? k = some b → k < r.start) : Swept (rest, p.2.insert r.start r) := by
  have hnone : ∀ {k : ℕ}, p.1.get? k = none → rest.get? k = none := by
    intro k hk
    cases hget : rest.get? k with
    | none => rfl
    | some b => exact absurd (hrest k b hget) (by rw [hk]; simp)
  refine ⟨fun k b hb => h.old k b (hrest k b hb), forall_insert h.new hne,
    forall_insert (fun k b hb => hnone (h.ends k b hb)) hend,
    forall_insert (fun k b hb => ?_) ?_⟩
  · rw [get?_insert_of_ne, h.merged k b hb]
    -- the merged region was an old one, and none starts where a new one ends
    intro heq
    rw [← heq, h.ends k b hb] at hold
    cases hold
  · rw [get?_insert_of_ne hne.ne']
    cases hget : p.2.get? r.stop with
    | none => rfl
    | some c => exact absurd (hbelow _ c hget) hne.asymm

/-- One round: the region with the key, and what it merges with, move to the new regions. -/
theorem Merging.step {p p' : FreeRegions × FreeRegions} {key : ℕ} (h : Merging m (key :: ks) p)
    (hs : mergeStep p key = .ok p') : Merging m ks p' ∧ (Swept p → Swept p') := by
  obtain ⟨hlt, hasc⟩ := pairwise_cons.1 h.ascending
  have hnew : p.2.get? key = none := by
    cases hget : p.2.get? key with
    | none => rfl
    | some r => exact absurd (h.below key r hget key mem_cons_self) (lt_irrefl _)
  have htodo : ∀ {k r}, p.1.get? k = some r → k ≠ key → k ∈ ks := fun hr hne =>
    (mem_cons.1 (h.todo _ _ hr)).resolve_left hne
  have hbelow : ∀ {k r}, p.2.get? k = some r → ∀ k' ∈ ks, k < k' := fun hr k' hk' =>
    h.below _ _ hr k' (mem_cons_of_mem _ hk')
  unfold mergeStep at hs
  cases hget : p.1.get? key with
  | none =>
    rw [hget] at hs
    cases hs
    refine ⟨⟨h.old, h.new, h.apart, h.free, hasc, fun k r hr => htodo hr ?_,
      fun k r hr => hbelow hr⟩, id⟩
    rintro rfl
    rw [hget] at hr
    cases hr
  | some r =>
    rw [hget] at hs
    obtain ⟨⟨r', rest⟩, hloop, hs⟩ := bind_ok.1 hs
    cases hs
    obtain ⟨hsplit, hparts⟩ := h.old.split hget
    obtain ⟨hs', hstart, hiff⟩ := mergeLoop_ok hsplit hloop
    obtain ⟨hend, hsolid, hsub⟩ := mergeLoop_end le_rfl hloop
    have hrest : ∀ {k b}, rest.get? k = some b → k ≠ key ∧ p.1.get? k = some b :=
      fun hb => of_get?_remove (hsub _ _ hb)
    have hrkey : r'.start = key := hstart.trans (h.old.tiles.keyed key r hget)
    -- the merged region and the rest make up the old regions
    have hold : ∀ x, x ∈ r'.range ∨ Free rest x ↔ Free p.1 x :=
      fun x => (hiff x).trans (hparts x)
    obtain ⟨hgood, hfree⟩ := h.new.insert_new hs'.oriented
      (fun x hx => h.apart x ((hold x).1 (.inl hx))) (hrkey ▸ hnew)
    refine ⟨⟨hs'.good, hgood, fun x hx hf => ?_, fun x => ?_, hasc,
      fun k b hb => htodo (hrest hb).2 (hrest hb).1,
      forall_insert (fun k b hb => hbelow hb) (hrkey ▸ hlt)⟩, fun hsw => ?_⟩
    · rcases (hfree x).1 hf with hx' | hf
      · exact hs'.apart x hx' hx
      · exact h.apart x ((hold x).1 (.inr hx)) hf
    · rw [hfree x, ← h.free x, ← hold x]
      tauto
    · exact hsw.insert (hrkey ▸ hget) (hsolid (hsw.old key r hget))
        (fun k b hb => (hrest hb).2) hend fun k b hb => hrkey ▸ h.below k b hb key mem_cons_self

/-- **Merging changes no free address**; if no region is empty, the merged ones are not adjacent. -/
theorem Good.merge (h : Good m) (hm : mergeContinuousRegions m = .ok m') :
    Good m' ∧ (∀ x, Free m' x ↔ Free m x) ∧ (Solid m → Solid m' ∧ Merged m') := by
  obtain ⟨p, hfold, hm⟩ := bind_ok.1 hm
  cases hm
  have h0 : Merging m m.keys (m, .empty) :=
    ⟨h, good_empty, fun _ _ => not_covers_empty, fun x => or_iff_left not_covers_empty,
      pairwise_map.2 h.tiles.sorted,
      fun k r hr => mem_map.2 ⟨(k, r), mem_of_get? hr, rfl⟩, nofun⟩
  have hsw0 : Solid m → Swept (m, .empty) := fun hs =>
    ⟨hs, nofun, nofun, nofun⟩
  obtain ⟨hmg, hsw⟩ := foldlM_invariant
    (P := fun ks p => Merging m ks p ∧ (Solid m → Swept p))
    (fun key ks p p' hp hs => ⟨(hp.1.step hs).1, fun hsolid => (hp.1.step hs).2 (hp.2 hsolid)⟩)
    ⟨h0, hsw0⟩ hfold
  refine ⟨hmg.new, fun x => ?_, fun hs => ⟨(hsw hs).new, (hsw hs).merged⟩⟩
  rw [← hmg.free x]
  refine (or_iff_right ?_).symm
  rintro ⟨k, b, hb, -⟩
  exact absurd (hmg.todo k b hb) not_mem_nil

/-- Regions that are not empty, not adjacent and cover one span are one region. -/
theorem Good.eq_singleton (h : Good m) (hs : Solid m) (hm : Merged m) {lo hi : ℕ} (hlt : lo < hi)
    (hfree : ∀ x, Free m x ↔ lo ≤ x ∧ x < hi) : m = empty.insert lo ⟨⟨lo, hi⟩⟩ := by
  have hstart : ∀ {k r}, m.get? k = some r → r.start = k ∧ lo ≤ r.start ∧ r.stop ≤ hi := by
    intro k r hr
    have hne := hs k r hr
    have h1 := (hfree r.start).1 ⟨k, r, hr, le_rfl, hne⟩
    have h2 := (hfree (r.stop - 1)).1 ⟨k, r, hr, Nat.le_sub_one_of_lt hne,
      Nat.sub_one_lt (Nat.ne_zero_of_lt hne)⟩
    exact ⟨h.tiles.keyed k r hr, h1.1, by omega⟩
  -- the region of the first address
  obtain ⟨k, r, hr, hin⟩ := (hfree lo).2 ⟨le_rfl, hlt⟩
  obtain ⟨hk, hlo, hhi⟩ := hstart hr
  have hrlo : r.start = lo := le_antisymm hin.1 hlo
  have hrhi : r.stop = hi := by
    refine le_antisymm hhi (not_lt.1 fun hlt' => ?_)
    -- otherwise the address behind it is in another region, which starts there
    have hlor : lo < r.stop := hin.2
    obtain ⟨k2, r2, hr2, hin2⟩ := (hfree r.stop).2 ⟨hlor.le, hlt'⟩
    have hk2 := (hstart hr2).1
    have hle2 : r2.start ≤ r.stop := hin2.1
    rcases hle2.eq_or_lt with heq | hlt2
    · exact absurd (hm k r hr) (by rw [← heq, hk2, hr2]; simp)
    · have hprev : k = k2 := h.tiles.indep k k2 (r.stop - 1)
        ⟨r, hr, Nat.le_sub_one_of_lt (hs k r hr), Nat.sub_one_lt (Nat.ne_zero_of_lt hlor)⟩
        ⟨r2, hr2, Nat.le_sub_one_of_lt hlt2, (Nat.sub_le _ _).trans_lt hin2.2⟩
      rw [← hprev, hr] at hr2
      cases hr2
      exact lt_irrefl _ hin2.2
  have hreg : r = ⟨⟨lo, hi⟩⟩ := congrArg FreeRegion.mk (congrArg₂ Span.mk hrlo hrhi)
  refine h.tiles.sorted.ext (sorted_empty.insert _ _) fun k' => ?_
  rw [get?_insert]
  split_ifs with hk'
  · rw [hk', ← hreg]
    exact (hk.symm.trans hrlo) ▸ hr
  · cases hget : m.get? k' with
    | none => rfl
    | some r' =>
      -- its first address is in the one region
      obtain ⟨hstart', hlo', hhi'⟩ := hstart hget
      have hne' := hs k' r' hget
      refine absurd (h.tiles.indep k' k r'.start ⟨r', hget, le_rfl, hne'⟩ ⟨r, hr, ?_, ?_⟩) ?_
      · exact hrlo.le.trans hlo'
      · exact hne'.trans_le (hhi'.trans hrhi.ge)
      · exact fun heq => hk' (heq.trans (hk.symm.trans hrlo))

/-! ### Giving ranges back -/

section Freed

variable {rs : List Range}

theorem freed_get? (hr : (freed rs).get? k = some r) : r.range ∈ rs ∧ r.start = k := by
  obtain ⟨b, hb, he⟩ := mem_map.1 (mem_of_get?_insertAll hr)
  obtain ⟨a, ha, rfl⟩ := mem_map.1 hb
  cases he
  exact ⟨ha, rfl⟩

theorem exists_freed (ha : a ∈ rs) : ∃ r, (freed rs).get? a.start = some r :=
  exists_get?_insertAll (mem_map.2 ⟨⟨a⟩, mem_map.2 ⟨a, ha, rfl⟩, rfl⟩)

variable (hrs : ∀ r ∈ rs, ∀ r' ∈ rs, ∀ x, x ∈ r → x ∈ r' → r = r')

include hrs

theorem tiles_freed : Tiles FreeRegion.range (freed rs) := by
  refine tiles_insertAll fun b hb b' hb' x hx hx' => ?_
  obtain ⟨r, hr, rfl⟩ := mem_map.1 hb
  obtain ⟨r', hr', rfl⟩ := mem_map.1 hb'
  exact congrArg start (hrs r hr r' hr' x hx hx')

/-- **Ranges given back become free**, if they were not free and do not meet each other. -/
theorem Good.append_freed (h : Good m) (hor : ∀ r ∈ rs, r.start ≤ r.stop)
    (hd : ∀ r ∈ rs, ∀ x ∈ r, ¬ Free m x) :
    Good (m.append (freed rs)) ∧
      ∀ x, Free (m.append (freed rs)) x → Free m x ∨ ∃ r ∈ rs, x ∈ r := by
  have ht := tiles_freed hrs
  have hcov : ∀ x, Covers FreeRegion.range (freed rs) x → ∃ r ∈ rs, x ∈ r :=
    fun x ⟨k, b, hb, hx⟩ => ⟨b.range, (freed_get? hb).1, hx⟩
  refine ⟨⟨h.tiles.append ht fun x hf hx => ?_, fun k b hb => ?_⟩, fun x hx => ?_⟩
  · obtain ⟨r, hr, hx⟩ := hcov x hx
    exact hd r hr x hx hf
  · rw [get?_append ht.sorted, Option.or_eq_some_iff] at hb
    rcases hb with hb | ⟨-, hb⟩
    · exact hor _ (freed_get? hb).1
    · exact h.oriented k b hb
  · obtain ⟨k, hk⟩ := hx
    rcases (at_append ht.sorted).1 hk with hk | ⟨-, hk⟩
    · exact .inr (hcov x hk.covers)
    · exact .inl hk.covers

/-- Nothing is lost when the ranges given back are not empty.  An empty one would replace a region
that starts at the same address. -/
theorem Good.free_append_freed (h : Good m) (hne : ∀ r ∈ rs, r.start < r.stop)
    (hd : ∀ r ∈ rs, ∀ x ∈ r, ¬ Free m x) {x : ℕ} (hx : Free m x ∨ ∃ r ∈ rs, x ∈ r) :
    Free (m.append (freed rs)) x := by
  have ht := tiles_freed hrs
  rcases hx with ⟨k, b, hb, hx⟩ | ⟨r, hr, hx⟩
  · refine ⟨k, (at_append ht.sorted).2 (.inr ⟨?_, b, hb, hx⟩)⟩
    cases hget : (freed rs).get? k with
    | none => rfl
    | some r =>
      obtain ⟨hr, hstart⟩ := freed_get? hget
      have hkey : b.range.start = k := h.tiles.keyed k b hb
      have hkb : k ∈ b.range := ⟨hkey.le, (hkey ▸ hx.1).trans_lt hx.2⟩
      exact absurd ⟨k, b, hb, hkb⟩ (hd _ hr k ⟨hstart.le, hstart ▸ hne _ hr⟩)
  · obtain ⟨b, hb⟩ := exists_freed hr
    obtain ⟨hmem, hstart⟩ := freed_get? hb
    have heq : b.range = r :=
      hrs _ hmem r hr r.start ⟨hstart.le, hstart ▸ hne _ hmem⟩ ⟨le_rfl, hne r hr⟩
    exact ⟨_, (at_append ht.sorted).2 (.inl ⟨b, hb, heq ▸ hx⟩)⟩

omit hrs in
theorem Solid.append_freed (h : Solid m) (hne : ∀ r ∈ rs, r.start < r.stop) :
    Solid (m.append (freed rs)) := by
  intro k r hr
  rcases get?_insertAll_cases hr with hmem | hold
  · exact hne _ (freed_get? (lookup_of_mem (sorted_empty.insertAll _) hmem)).1
  · exact h k r hold

end Freed

/-- The entries of a map of spans give back their spans. -/
theorem Good.append_values {β : Type*} {f : β → Range} {t : OrdMap ℕ β} (h : Good m)
    (ht : Tiles f t) (hor : ∀ b, (f b).start ≤ (f b).stop) (hd : ∀ x, Free m x → ¬ Covers f t x) :
    Good (m.append (freed (t.values.map f))) ∧
      ∀ x, Free (m.append (freed (t.values.map f))) x → Free m x ∨ Covers f t x := by
  have hcov : ∀ r ∈ t.values.map f, ∀ x ∈ r, Covers f t x := by
    intro r hr x hx
    obtain ⟨b, hb, rfl⟩ := mem_map.1 hr
    exact ht.covers_iff.2 ⟨b, hb, hx⟩
  have hrs : ∀ r ∈ t.values.map f, ∀ r' ∈ t.values.map f, ∀ x, x ∈ r → x ∈ r' → r = r' := by
    intro r hr r' hr' x hx hx'
    obtain ⟨b, hb, rfl⟩ := mem_map.1 hr
    obtain ⟨b', hb', rfl⟩ := mem_map.1 hr'
    rw [ht.eq_of_mem hb hb' hx hx']
  have horiented : ∀ r ∈ t.values.map f, r.start ≤ r.stop := by
    intro r hr
    obtain ⟨b, -, rfl⟩ := mem_map.1 hr
    exact hor b
  obtain ⟨hg, hfree⟩ := h.append_freed hrs horiented fun r hr x hx hf => hd x hf (hcov r hr x hx)
  refine ⟨hg, fun x hx => (hfree x hx).imp_right ?_⟩
  rintro ⟨r, hr, hx⟩
  exact hcov r hr x hx

/-! ### Splitting -/

theorem allocate_get? (h : (allocate m base r a).get? k = some r') :
    (k ≠ base ∧ m.get? k = some r') ∨ r'.start < r'.stop ∧ (r'.range = ⟨r.start, a.start⟩ ∨
      r'.range = ⟨a.stop, r.stop⟩) := by
  have hone : ∀ {m : FreeRegions} {r : FreeRegion}, (m.insertSolid r).get? k = some r' →
      m.get? k = some r' ∨ r.start < r.stop ∧ r' = r := by
    intro m r hr
    unfold insertSolid at hr
    split_ifs at hr with hlt
    · rcases of_get?_insert hr with ⟨-, rfl⟩ | ⟨-, hr⟩
      · exact .inr ⟨hlt, rfl⟩
      · exact .inl hr
    · exact .inl hr
  rw [allocate_eq] at h
  rcases hone h with h | ⟨hlt, rfl⟩
  · rcases hone h with h | ⟨hlt, rfl⟩
    · exact .inl (of_get?_remove h)
    · exact .inr ⟨hlt, .inl rfl⟩
  · exact .inr ⟨hlt, .inr rfl⟩

theorem Solid.allocate (h : Solid m) : Solid (allocate m base r a) := by
  intro k r' hr'
  rcases allocate_get? hr' with ⟨-, hold⟩ | ⟨hlt, -⟩
  · exact h k r' hold
  · exact hlt

/-- What the loop of splitting has done to the free regions, with the keys still to visit. -/
structure Splitting (mapRange : Range) (m₀ : FreeRegions) (ks : List ℕ) (m : FreeRegions) :
    Prop where
  good : Good m
  outside : ∀ x, x ∉ mapRange → (Free m x ↔ Free m₀ x)
  sub : ∀ x, Free m x → Free m₀ x
  todo : ∀ k r, m.get? k = some r → ¬ r.range.Apart mapRange → k ∈ ks
  solid : Solid m₀ → Solid m

theorem Splitting.step {m₀ : FreeRegions} (h : Splitting mapRange m₀ (base :: ks) m)
    (hs : splitRegion mapRange m base = .ok m') : Splitting mapRange m₀ ks m' := by
  simp only [splitRegion, getIntersectedRange, bind_ok, unwrap_ok, debugAssert_ok, pure_ok] at hs
  obtain ⟨r, hr, a, ⟨-, hmeet, rfl⟩, rfl⟩ := hs
  have hlt : (r.range.inter mapRange).start < (r.range.inter mapRange).stop :=
    of_decide_eq_true hmeet
  obtain ⟨hg, hfree⟩ := h.good.allocate hr (le_max_left _ _) hlt.le
    (min_le_left _ _)
  refine ⟨hg, fun x hx => ?_, fun x hx => h.sub x ((hfree x).1 hx).1, fun k r' hr' hna => ?_,
    fun hsolid => (h.solid hsolid).allocate⟩
  · rw [hfree x, h.outside x hx]
    exact and_iff_left fun hin => hx (mem_inter.1 hin).2
  · rcases allocate_get? hr' with ⟨hne, hold⟩ | ⟨-, hleft | hright⟩
    · exact (mem_cons.1 (h.todo k r' hold hna)).resolve_left hne
    · -- the piece in front of the range ends where the range starts, or is empty
      refine absurd ?_ hna
      rw [hleft, apart_iff]
      rintro x ⟨hx, hx'⟩ hxm
      rcases lt_max_iff.1 hx' with hx' | hx'
      · exact absurd hx (not_le.2 hx')
      · exact absurd hxm.1 (not_le.2 hx')
    · refine absurd ?_ hna
      rw [hright, apart_iff]
      rintro x ⟨hx, hx'⟩ hxm
      rcases min_le_iff.1 hx with hx | hx
      · exact absurd hx' (not_lt.2 hx)
      · exact absurd hxm.2 (not_lt.2 hx)

/-- **Splitting takes exactly the mapped range out of the free addresses.** -/
theorem Good.splitRegions (h : Good m) (hs : splitRegions mapRange m = .ok m') :
    Good m' ∧ (∀ x, Free m' x ↔ Free m x ∧ x ∉ mapRange) ∧ (Solid m → Solid m') := by
  have h0 : Splitting mapRange m
      ((m.entries.filter fun e => isIntersected e.2.range mapRange).map Prod.fst) m := by
    refine ⟨h, fun _ _ => Iff.rfl, fun _ => id, fun k r hr hna => ?_, id⟩
    exact mem_map.2 ⟨(k, r), mem_filter.2
      ⟨mem_of_get? hr, VmMapping.isIntersected_iff.2 hna⟩, rfl⟩
  have hend := foldlM_invariant (P := Splitting mapRange m)
    (fun _ _ _ _ hp hstep => hp.step hstep) h0 hs
  refine ⟨hend.good, fun x => ⟨fun hx => ⟨hend.sub x hx, fun hxm => ?_⟩,
    fun ⟨hx, hxm⟩ => (hend.outside x hxm).2 hx⟩, hend.solid⟩
  obtain ⟨k, r, hr, hxr⟩ := hx
  exact absurd (hend.todo k r hr fun hap => apart_iff.1 hap x hxr hxm) not_mem_nil

/-! ### Finding a region -/

theorem findFreeRegion_ok {es : List (ℕ × FreeRegion)}
    (h : findFreeRegion childOffset size align es = .ok (base, r, offset)) :
    (base, r) ∈ es ∧ (base ≤ offset ∨ r.start ≤ offset) ∧ offset + size ≤ r.stop ∧
      (∀ o, childOffset = some o → offset = o) ∧ (childOffset = none → align ∣ offset) := by
  induction es with
  | nil => cases h
  | cons e es ih =>
    obtain ⟨found, hfits, h⟩ := bind_ok.1 h
    cases found with
    | none =>
      obtain ⟨hmem, hrest⟩ := ih h
      exact ⟨mem_cons_of_mem _ hmem, hrest⟩
    | some o =>
      cases h
      refine ⟨mem_cons_self, ?_⟩
      unfold regionFits at hfits
      cases childOffset with
      | some o' =>
        dsimp only at hfits
        split_ifs at hfits with hle
        · obtain ⟨stop, hstop, hfits⟩ := bind_ok.1 hfits
          obtain ⟨-, rfl⟩ := addUsize_ok.1 hstop
          split_ifs at hfits with hend
          · cases hfits
            exact ⟨.inl hle, hend, fun _ h => Option.some.inj h, nofun⟩
          · cases hfits
        · cases hfits
      | none =>
        obtain ⟨st, hst, hfits⟩ := bind_ok.1 hfits
        obtain ⟨stop, hstop, hfits⟩ := bind_ok.1 hfits
        obtain ⟨-, rfl⟩ := addUsize_ok.1 hstop
        split_ifs at hfits with hend
        · cases hfits
          exact ⟨.inr hend.1, hend.2, nofun, fun _ => dvd_of_alignUp hst⟩
        · cases hfits

/-- The region found for a child or a VMO holds the addresses asked for. -/
theorem Good.find (h : Good m)
    (hf : findFreeRegion childOffset size align m.entries = .ok (base, r, offset)) :
    m.get? base = some r ∧ r.start ≤ offset ∧ offset + size ≤ r.stop := by
  obtain ⟨hmem, hle, hstop, -⟩ := findFreeRegion_ok hf
  have hget := (mem_entries h.tiles.sorted).1 hmem
  have hkey : r.start = base := h.tiles.keyed _ _ hget
  refine ⟨hget, ?_, hstop⟩
  rcases hle with hle | hle
  · exact hkey ▸ hle
  · exact hle

end FreeRegions

end Jinux
