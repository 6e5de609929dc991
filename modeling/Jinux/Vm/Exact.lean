import Jinux.Vm.Shape

/-!
# Exactness of unmapping and of overwriting

The mappings of a VMAR are a partial function on addresses (`Vmar.resolve`): the VMO behind an
address, the offset in it and the permission of the page.  `destroy` is meant to make it undefined
on the range and nothing else; an overwriting `build` is meant to redefine it on the new mapping and
nothing else.  Both go through the same loop of trimming, and both fail where that loop does: a
range that ends exactly at the end of a mapping leaves an empty mapping behind it, under the key of
a mapping that starts there (`Rounds.lookup`).

* `AddrSpace.destroy_exact_iff` : `destroy` is exact unless it replaces such a neighbour;
* `AddrSpace.build_exact_iff` : an overwriting `build` is exact unless it does so, or the VMO is
  larger than the mapping and something was mapped in the surplus.
-/

namespace Jinux

open SpanMap VmMapping List OrdMap Jinux.Span

variable {v v' : Vmar} {m : VmMapping}

/-! ### Resolving an address -/

/-- What an address resolves to. -/
structure Target where
  vmo : Vmo
  offset : ℕ
  perm : Option VmPerm
  deriving DecidableEq

/-- What an address of a mapping resolves to. -/
def VmMapping.target (m : VmMapping) (x : ℕ) : Target := ⟨m.vmo, m.offsetOf x, m.permOf x⟩

theorem VmMapping.Piece.target {m' : VmMapping} {a b x : ℕ} (h : Piece m m' a b) (ha : m.Aligned)
    (hx : x ∈ m'.range) : m'.target x = m.target x := by
  have hoff : m'.offsetOf x = m.offsetOf x :=
    offsetOf_eq h.mapToAddr h.start h.offset (h.mapToAddr ▸ hx.1)
  rw [VmMapping.target, VmMapping.target, h.vmo, hoff, h.perms ha x hx]

namespace Vmar

/-- What an address resolves to, by `get_vm_mapping`. -/
def resolve (v : Vmar) (x : ℕ) : Option Target :=
  match v.getVmMapping x with
  | .ok m => some (m.target x)
  | .error _ => none

variable {x : ℕ}

section

variable (hM : Keyed VmMapping.range v.vmMappings)

include hM

theorem find_iff {e : ℕ × VmMapping} (he : e ∈ v.vmMappings.entries) :
    (decide (e.1 ≤ x) && decide (x < e.1 + e.2.mapSize)) = true ↔ x ∈ e.2.range := by
  have hkey : e.2.mapToAddr = e.1 := hM.keyed _ _ ((mem_entries hM.sorted).1 he)
  rw [Bool.and_eq_true, decide_eq_true_iff, decide_eq_true_iff, ← hkey]
  rfl

theorem resolve_eq_none_iff : v.resolve x = none ↔ ∀ m ∈ v.vmMappings.values, x ∉ m.range := by
  have hnone : v.resolve x = none ↔
      (v.vmMappings.entries.find? fun e => e.1 ≤ x && x < e.1 + e.2.mapSize) = none := by
    unfold resolve getVmMapping
    cases v.vmMappings.entries.find? fun e => e.1 ≤ x && x < e.1 + e.2.mapSize <;> simp [
      returnErrnoWithMessage]
  rw [hnone, find?_eq_none]
  constructor
  · intro h m hm hx
    obtain ⟨k, hk⟩ := mem_values.1 hm
    exact h (k, m) hk ((find_iff hM hk).2 hx)
  · intro h e he hx
    exact h e.2 (mem_values.2 ⟨e.1, he⟩) ((find_iff hM he).1 hx)

theorem not_covers_iff : v.resolve x = none ↔ ¬ Covers VmMapping.range v.vmMappings x := by
  rw [resolve_eq_none_iff hM, hM.covers_iff]
  simp

end

theorem resolve_of_mem (hM : Tiles VmMapping.range v.vmMappings) (hm : m ∈ v.vmMappings.values)
    (hx : x ∈ m.range) : v.resolve x = some (m.target x) := by
  obtain ⟨k, hmem⟩ := mem_values.1 hm
  unfold resolve getVmMapping
  cases hf : v.vmMappings.entries.find? fun e => e.1 ≤ x && x < e.1 + e.2.mapSize with
  | none => exact absurd ((find_iff hM.toKeyed hmem).2 hx) (find?_eq_none.1 hf _ hmem)
  | some e =>
    -- no other mapping holds the address
    have he := mem_of_find?_eq_some hf
    have hfound := find?_some hf
    have hxe : x ∈ e.2.range := (find_iff hM.toKeyed he).1 hfound
    have heq : e.2 = m := hM.eq_of_mem (mem_values.2 ⟨e.1, he⟩) hm hxe hx
    simp [heq]

/-- A piece of a mapping resolves as the mapping did. -/
theorem resolve_of_piece {b : VmMapping} {k y z : ℕ} (hs : Shaped v.vmMappings)
    (hM : Tiles VmMapping.range v.vmMappings) (hM' : Tiles VmMapping.range v'.vmMappings)
    (hm : m ∈ v.vmMappings.values) (hx : x ∈ m.range) (hb : v'.vmMappings.get? k = some b)
    (hxb : x ∈ b.range) (hp : Piece m b y z) : v'.resolve x = v.resolve x := by
  rw [resolve_of_mem hM' (mem_values_of_get? hb) hxb, resolve_of_mem hM hm hx,
    hp.target (hs.aligned_of_mem hm) hxb]

/-! ### What a trimming loop leaves of the mappings -/

/-- The loop cuts the range `r` out of every mapping. -/
structure CutsOut (rangeOf : VmMapping → Option Range) (r : Range) : Prop where
  mem : ∀ (m : VmMapping) (x : ℕ), x ∈ m.range → (x ∈ cut rangeOf m ↔ x ∈ r)
  tail : ∀ m : VmMapping, m.TailCut (cut rangeOf m) → m.mapToAddr < r.start ∧
    r.start < m.mapToAddr + m.mapSize ∧ m.mapToAddr + m.mapSize ≤ r.stop
  tailCut : ∀ m : VmMapping, m.TailCut r → m.TailCut (cut rangeOf m)

theorem cutsOut_const (r : Range) : CutsOut (fun _ => some r) r where
  mem _ _ _ := Iff.rfl
  tail _ h := ⟨h.1, h.2.1, h.2.2.ge⟩
  tailCut _ h := h

theorem cutsOut_destroy (r : Range) : CutsOut (destroyRangeOf r) r where
  mem m x hx := by
    rw [mem_cut_destroyRangeOf]
    exact and_iff_right hx
  tail m h := by
    unfold cut destroyRangeOf at h
    split_ifs at h with hmeet
    · obtain ⟨hlt, hin, hstop⟩ := h
      have hlt' : m.mapToAddr < r.start := (lt_max_iff.1 hlt).resolve_left (lt_irrefl _)
      have hin' : r.start < m.mapToAddr + m.mapSize := (le_max_right _ _).trans_lt hin
      exact ⟨hlt', hin', hstop ▸ min_le_right _ _⟩
    · exact absurd h.1 (Nat.not_lt_zero _)
  tailCut m h := by
    obtain ⟨hlt, hin, hstop⟩ := h
    have hmeet : isIntersected m.range r = true := by
      refine isIntersected_iff.2 fun hap => ?_
      exact apart_iff.1 hap r.start ⟨hlt.le, hin⟩ ⟨le_rfl, hstop ▸ hin⟩
    have hinter : m.range.inter r = ⟨r.start, m.mapToAddr + m.mapSize⟩ := by
      rw [inter, hstop]
      exact congrArg₂ _ (max_eq_right hlt.le) (min_self _)
    unfold cut destroyRangeOf
    rw [if_pos hmeet, hinter]
    exact ⟨hlt, hin, rfl⟩

variable {rangeOf : VmMapping → Option Range} {out : TrimOut} {M : OrdMap ℕ VmMapping}
  {ts : List (ℕ × VmMapping × Trimmed)} {r : Range} {k addr : ℕ} {m b : VmMapping}
  {e : ℕ × VmMapping × Trimmed} {o : MapOptions}

theorem Rounds.mem_append_iff (h : Rounds rangeOf M.entries out ts) :
    (k, b) ∈ out.append ↔ k = b.mapToAddr ∧ ∃ e ∈ ts, e.2.2.append = some b := by
  rw [h.append, mem_flatMap]
  constructor
  · rintro ⟨e, he, hmem⟩
    obtain ⟨b', hb', heq⟩ := mem_map.1 hmem
    cases heq
    exact ⟨rfl, e, he, Option.mem_toList.1 hb'⟩
  · rintro ⟨rfl, e, he, hb⟩
    exact ⟨e, he, mem_map.2 ⟨b, Option.mem_toList.2 hb, rfl⟩⟩

/-- An appended mapping wins over one that is kept under the same key. -/
theorem TrimOut.get?_of_append (hmem : (k, b) ∈ out.append) :
    ∃ b', out.mappings.get? k = some b' ∧ (k, b') ∈ out.append := by
  obtain ⟨b', hb'⟩ := exists_get?_insertAll hmem
  refine ⟨b', ?_, mem_of_get?_insertAll hb'⟩
  unfold TrimOut.mappings
  rw [get?_append (sorted_empty.insertAll _), hb', Option.some_or]

/-- A mapping that is kept stands under its key, unless another is appended there. -/
theorem Rounds.get?_kept (h : Rounds rangeOf M.entries out ts) (hM : Keyed VmMapping.range M)
    (he : e ∈ ts) (hrem : e.2.2.remove = false) (hno : ∀ b, (e.2.1.mapToAddr, b) ∉ out.append) :
    out.mappings.get? e.2.1.mapToAddr = some e.2.2.self := by
  have hnone : (OrdMap.empty.insertAll out.append).get? e.2.1.mapToAddr = none := by
    cases hget : (OrdMap.empty.insertAll out.append).get? e.2.1.mapToAddr with
    | none => rfl
    | some b => exact absurd (mem_of_get?_insertAll hget) (hno b)
  have hsorted : (⟨out.kept⟩ : OrdMap ℕ VmMapping).Sorted := h.sorted_kept hM
  have hremove : e.2.1.mapToAddr ∉ out.remove := by
    rw [h.remove, mem_flatMap]
    rintro ⟨e', he', hmem⟩
    split_ifs at hmem with hrem'
    · rw [h.entry_inj hM he he' (mem_singleton.1 hmem), hrem'] at hrem
      cases hrem
    · cases hmem
  unfold TrimOut.mappings
  rw [get?_append (sorted_empty.insertAll _), hnone, Option.none_or,
    get?_removeAll, if_neg hremove, ← mem_entries hsorted, h.kept]
  exact mem_map.2 ⟨e, he, by rw [(h.keyed hM he).2]⟩

/-- A non-empty piece is found under its key, unless an empty mapping has taken its place. -/
theorem Rounds.get?_rest (h : Rounds rangeOf M.entries out ts) (hM : Tiles VmMapping.range M)
    (he : e ∈ ts) (hr : Rest e.2.1 e.2.2 k b) (hx : x ∈ b.range) :
    out.mappings.get? k = some b ∨
      ∃ e' ∈ ts, e'.2.1.TailCut (cut rangeOf e'.2.1) ∧ k = (cut rangeOf e'.2.1).stop := by
  obtain ⟨hkey, hsub⟩ := (h.cases e he).rest_range hr
  have hkb : k ∈ b.range := hkey ▸ start_mem hx
  by_cases happ : ∃ b', (k, b') ∈ out.append
  · obtain ⟨b', hb'⟩ := happ
    obtain ⟨c, hc, hmem⟩ := TrimOut.get?_of_append hb'
    obtain ⟨hkc, e', he', hce'⟩ := h.mem_append_iff.1 hmem
    by_cases hempty : c.mapToAddr ∈ c.range
    · -- both hold their key, so they are pieces of the same mapping
      have hr' : Rest e'.2.1 e'.2.2 k c := hkc ▸ .appended hce'
      have hke' := (((h.cases e' he').rest_range hr').2 k (hkc ▸ hempty)).1
      obtain rfl := h.entry_eq hM he he' (hsub k hkb).1 hke'
      rw [(h.cases e he).rest_indep hr hr' hkb (hkc ▸ hempty)]
      exact Or.inl hc
    · obtain ⟨htail, hstop⟩ := (h.cases e' he').tailCut_of_append hce' hempty
      exact Or.inr ⟨e', he', htail, hkc.trans hstop⟩
  · have hno : ∀ b', (k, b') ∉ out.append := fun b' hb' => happ ⟨b', hb'⟩
    cases hr with
    | kept hrem => exact Or.inl (h.get?_kept hM.toKeyed he hrem hno)
    | appended ha => exact absurd (h.mem_append_iff.2 ⟨rfl, e, he, ha⟩) (hno b)

/-- A mapping starts where another one loses its tail: the range starts inside the first and ends
where it ends and the second begins. -/
def ClobbersNext (M : OrdMap ℕ VmMapping) (r : Range) : Prop :=
  ∃ m ∈ M.values, m.TailCut r ∧ ∃ m' ∈ M.values, m'.mapToAddr = r.stop ∧ 0 < m'.mapSize

instance (M : OrdMap ℕ VmMapping) (r : Range) : Decidable (ClobbersNext M r) :=
  inferInstanceAs (Decidable (∃ m ∈ M.values, _))

/-- The neighbour that gets lost resolves before. -/
theorem exists_resolve_of_clobbers (hs : Shaped v.vmMappings)
    (hM : Tiles VmMapping.range v.vmMappings) (h : ClobbersNext v.vmMappings r) :
    ∃ t, pageSize ∣ r.stop ∧ v.resolve r.stop = some t := by
  obtain ⟨m, -, -, m', hm', hstart, hpos⟩ := h
  have hmem : r.stop ∈ m'.range := ⟨hstart.le, hstart ▸ Nat.lt_add_of_pos_right hpos⟩
  exact ⟨_, hstart ▸ (hs.aligned_of_mem hm').addr, resolve_of_mem hM hm' hmem⟩

/-- **What a trimming loop leaves of an address outside the range**: a piece of its mapping, unless
the mapping starts where another one lost its tail. -/
theorem Rounds.lookup (h : Rounds rangeOf M.entries out ts) (hM : Tiles VmMapping.range M)
    (hc : CutsOut rangeOf r) (hno : ¬ ClobbersNext M r) (hm : m ∈ M.values) (hx : x ∈ m.range)
    (hxr : x ∉ r) : ∃ k b, out.mappings.get? k = some b ∧ x ∈ b.range ∧ ∃ y z, Piece m b y z := by
  obtain ⟨e, he, rfl⟩ := h.exists_of_mem hm
  obtain ⟨k, b, hr, hxb⟩ := (h.cases e he).exists_rest hx fun hcut => hxr ((hc.mem _ x hx).1 hcut)
  rcases h.get?_rest hM he hr hxb with hget | ⟨e', he', htail, hk⟩
  · obtain ⟨z, hp, -⟩ := (h.cases e he).rest_piece hr
    exact ⟨k, b, hget, hxb, k, z, hp⟩
  · -- the piece starts at the end of the mapping `e'` that loses its tail
    refine absurd ?_ hno
    obtain ⟨hlt, hin, hle⟩ := hc.tail _ htail
    obtain ⟨hkb, hsub⟩ := (h.cases e he).rest_range hr
    obtain ⟨hke, hkcut⟩ := hsub k (hkb ▸ start_mem hxb)
    have hkend : k = e'.2.1.mapToAddr + e'.2.1.mapSize := hk.trans htail.2.2
    have hkr : k ∉ r := fun hkr => hkcut ((hc.mem _ k hke).2 hkr)
    have hkstop : k = r.stop := by
      rw [mem_def, not_and, not_lt] at hkr
      exact le_antisymm (hkend ▸ hle) (hkr (hkend ▸ hin.le))
    have hstart : e.2.1.mapToAddr = k := by
      -- otherwise the address before `k` would lie in both mappings
      by_contra hne
      have hlt' : e.2.1.mapToAddr < k := lt_of_le_of_ne hke.1 hne
      have he1 : k - 1 ∈ e.2.1.range := ⟨Nat.le_sub_one_of_lt hlt', (Nat.sub_le _ _).trans_lt hke.2⟩
      have he2 : k - 1 ∈ e'.2.1.range :=
        ⟨Nat.le_sub_one_of_lt (hkend ▸ hlt.trans hin),
          hkend ▸ Nat.sub_one_lt (Nat.ne_zero_of_lt (hlt.trans hin))⟩
      obtain rfl := h.entry_eq hM he he' he1 he2
      exact absurd hke.2 (hkend ▸ lt_irrefl _)
    refine ⟨e'.2.1, h.mem_values he', ⟨hlt, hin, hkstop ▸ hkend⟩, e.2.1, h.mem_values he,
      hstart.trans hkstop, ?_⟩
    exact Nat.pos_of_lt_add_right (hx.1.trans_lt hx.2)

/-- Where a mapping starts and another one loses its tail, nothing is mapped any more. -/
theorem Rounds.not_covers_of_clobbers (h : Rounds rangeOf M.entries out ts)
    (hM : Tiles VmMapping.range M) (hc : CutsOut rangeOf r) (hclob : ClobbersNext M r) :
    ¬ Covers VmMapping.range out.mappings r.stop := by
  obtain ⟨m, hm, htail, m', hm', hstart, hpos⟩ := hclob
  have hmem' : r.stop ∈ m'.range := ⟨hstart.le, hstart ▸ Nat.lt_add_of_pos_right hpos⟩
  obtain ⟨e', he', rfl⟩ := h.exists_of_mem hm'
  -- the neighbour is not touched
  have hap : e'.2.1.range.Apart (cut rangeOf e'.2.1) := by
    refine apart_iff.2 fun x hx hcut => ?_
    exact absurd ((hc.mem _ x hx).1 hcut).2 (not_lt.2 (hstart ▸ hx.1))
  have halone := (h.cases e' he').of_apart hap
  -- a mapping that holds the address is the neighbour, kept under its key
  have howner : ∀ e ∈ ts, r.stop ∈ e.2.1.range → e = e' := fun e he hx =>
    h.entry_eq hM he he' hx hmem'
  rintro ⟨k, b, hb, hx⟩
  obtain ⟨e, he, hget, hr⟩ := h.rest hM.toKeyed hb
  obtain rfl := howner e he (((h.cases e he).rest_range hr).2 _ hx).1
  rw [halone] at hr
  cases hr with
  | appended ha => cases ha
  | kept _ =>
    -- but the empty mapping left behind the tail has that key
    obtain ⟨e1, he1, rfl⟩ := h.exists_of_mem hm
    have hcut := hc.tailCut _ htail
    obtain ⟨b1, hb1, hkey1⟩ := (h.cases e1 he1).append_of_tailCut hcut
    have hkey : b1.mapToAddr = e.2.1.mapToAddr := by
      rw [hkey1, hcut.2.2, ← htail.2.2, hstart]
    obtain ⟨c, hc', hmem⟩ := TrimOut.get?_of_append (h.mem_append_iff.2 ⟨hkey.symm, e1, he1, hb1⟩)
    obtain ⟨-, e2, he2, happ⟩ := h.mem_append_iff.1 hmem
    rw [hb] at hc'
    cases hc'
    obtain rfl := howner e2 he2 (((h.cases e2 he2).rest_range (.appended happ)).2 _ hmem').1
    rw [halone] at happ
    cases happ

/-- **Trimming is exact** unless it takes away a neighbour. -/
theorem Rounds.resolve (h : Rounds rangeOf v.vmMappings.entries out ts)
    (hs : Shaped v.vmMappings) (hM : Tiles VmMapping.range v.vmMappings) (hc : CutsOut rangeOf r)
    (hno : ¬ ClobbersNext v.vmMappings r) (hv' : v'.vmMappings = out.mappings) (hxr : x ∉ r) :
    v'.resolve x = v.resolve x := by
  obtain ⟨hM', hcov⟩ := h.tiles hM
  rw [← hv'] at hM' hcov
  by_cases hx : Covers VmMapping.range v.vmMappings x
  · obtain ⟨m, hm, hx⟩ := hM.covers_iff.1 hx
    obtain ⟨k, b, hb, hxb, y, z, hp⟩ := h.lookup hM hc hno hm hx hxr
    exact resolve_of_piece hs hM hM' hm hx (hv' ▸ hb) hxb hp
  · rw [(not_covers_iff hM.toKeyed).2 hx, not_covers_iff hM'.toKeyed]
    intro hx'
    obtain ⟨m, hm, hxm, -⟩ := hcov x hx'
    exact hx ⟨_, m, hm, hxm⟩

/-- Nothing is mapped in the range after trimming. -/
theorem Rounds.not_covers (h : Rounds rangeOf M.entries out ts) (hM : Tiles VmMapping.range M)
    (hc : CutsOut rangeOf r) (hxr : x ∈ r) : ¬ Covers VmMapping.range out.mappings x := by
  intro hx
  obtain ⟨m, -, hxm, hcut⟩ := (h.tiles hM).2 x hx
  exact hcut ((hc.mem m x hxm).2 hxr)

/-! ### Unmapping -/

/-- `v'` is `v` without the pages of the range. -/
def Unmaps (v v' : Vmar) (range : Range) : Prop :=
  ∀ x, pageSize ∣ x → (x ∈ range → ∀ m ∈ v'.vmMappings.values, x ∉ m.range) ∧
    (x ∉ range → v'.resolve x = v.resolve x)

theorem destroy_unmaps_iff {s s' : VmSpace} {range : Range} (hs : Shaped v.vmMappings)
    (hM : Tiles VmMapping.range v.vmMappings) (hd : v.destroy s range = .ok (v', s')) :
    v.Unmaps v' range ↔ ¬ ClobbersNext v.vmMappings range := by
  obtain ⟨children, s1, out, F, -, hout, -, hv⟩ := destroy_ok hd
  obtain ⟨ts, hts⟩ := trimLoop_rounds hout
  have hv' : v'.vmMappings = out.mappings := by
    rw [hv]
    exact (hs.rounds hts).retain_live
  have hM' : Tiles VmMapping.range v'.vmMappings := hv' ▸ (hts.tiles hM).1
  have hc := cutsOut_destroy range
  constructor
  · intro hex hclob
    have hgone := hts.not_covers_of_clobbers hM hc hclob
    rw [← hv', ← not_covers_iff hM'.toKeyed] at hgone
    obtain ⟨t, hstop, ht⟩ := exists_resolve_of_clobbers hs hM hclob
    rw [(hex _ hstop).2 fun h => lt_irrefl _ h.2, ht] at hgone
    cases hgone
  · intro hno x _
    refine ⟨fun hx => ?_, fun hx => hts.resolve hs hM hc hno hv' hx⟩
    have hnone := hts.not_covers hM hc hx
    rwa [← hv', ← not_covers_iff hM'.toKeyed, resolve_eq_none_iff hM'.toKeyed] at hnone

/-! ### Overwriting -/

/-- `v'` is `v` with the pages of the new mapping redefined. -/
def Overwrites (v v' : Vmar) (o : MapOptions) (addr : ℕ) : Prop :=
  ∀ x, pageSize ∣ x →
    (x ∈ (⟨addr, addr + o.size⟩ : Range) →
      v'.resolve x = some ⟨o.vmo, o.vmoOffset + (x - addr), some o.perms.toVmPerm⟩) ∧
    (x ∉ (⟨addr, addr + o.size⟩ : Range) → v'.resolve x = v.resolve x)

/-- Overwriting takes nothing but the pages of the new mapping. -/
structure NothingBeside (v : Vmar) (o : MapOptions) (addr : ℕ) : Prop where
  /-- No mapping starts where the reserved range cuts off the tail of another. -/
  neighbour : ¬ ClobbersNext v.vmMappings (o.reserved addr)
  /-- No page is mapped that is reserved for the VMO only. -/
  surplus : ∀ x, pageSize ∣ x → addr + o.size ≤ x → x ∈ o.reserved addr →
    ∀ m ∈ v.vmMappings.values, x ∉ m.range
  /-- An empty mapping replaces no other. -/
  start : o.size = 0 → ∀ m ∈ v.vmMappings.values, m.mapToAddr = addr → m.mapSize = 0

theorem MapOptions.mapping_target (hx : x ∈ (o.mapping addr).range) :
    (o.mapping addr).target x = ⟨o.vmo, o.vmoOffset + (x - addr), some o.perms.toVmPerm⟩ := by
  have hidx : (o.vmoOffset + (x - addr)) / pageSize ∈ World.pageIdxs
      ⟨o.vmoOffset / pageSize, (o.vmoOffset + o.size + (pageSize - 1)) / pageSize⟩ := by
    have h1 : addr ≤ x := hx.1
    have h2 : x < addr + o.size := hx.2
    rw [World.mem_pageIdxs, mem_mk]
    unfold pageSize
    omega
  obtain ⟨perm, hperm⟩ := exists_get?_insertAll
    (mem_map_of_mem (f := fun pageIdx => (pageIdx, o.perms.toVmPerm)) hidx)
  obtain ⟨i, -, hi⟩ := mem_map.1 (mem_of_get?_insertAll hperm)
  cases hi
  exact congrArg _ hperm

section Overwriting

variable (hM : Tiles VmMapping.range v.vmMappings)
  (h : Rounds (fun _ => some (o.reserved addr)) v.vmMappings.entries out ts)
  (hv' : v'.vmMappings = out.mappings.insert addr (o.mapping addr))

include hM h hv'

theorem tiles_overwrite : Tiles VmMapping.range v'.vmMappings := by
  rw [hv']
  refine (h.tiles hM).1.insert rfl fun x hx k' _ hat => ?_
  exact h.not_covers hM (cutsOut_const _) (o.mapping_sub hx) hat.covers

/-- What the new mapping does not hold is left by trimming, under another key. -/
theorem resolve_overwrite_none (hx : x ∉ (o.mapping addr).range)
    (hno : ∀ k', k' ≠ addr → ¬ At VmMapping.range out.mappings k' x) : v'.resolve x = none := by
  rw [not_covers_iff (tiles_overwrite hM h hv').toKeyed, hv']
  rintro ⟨k', hk'⟩
  rcases at_insert.1 hk' with ⟨-, hx'⟩ | ⟨hne, hk'⟩
  · exact hx hx'
  · exact hno k' hne hk'

/-- Under the start of the new mapping trimming leaves a mapping only if nothing was reserved. -/
theorem eq_of_get?_addr (hb : out.mappings.get? addr = some b) (hx : x ∈ b.range) :
    o.size = 0 ∧ b ∈ v.vmMappings.values := by
  obtain ⟨e, he, -, hr⟩ := h.rest hM.toKeyed hb
  obtain ⟨hkey, hsub⟩ := (h.cases e he).rest_range hr
  have haddr : addr ∈ b.range := hkey ▸ start_mem hx
  have hmax : max o.size o.vmoSize = 0 := by
    by_contra hne
    have hpos := Nat.lt_add_of_pos_right (n := addr) (Nat.pos_of_ne_zero hne)
    exact h.not_covers hM (cutsOut_const _) ⟨le_rfl, hpos⟩ ⟨addr, b, hb, haddr⟩
  -- nothing is cut out of any mapping
  have hap : e.2.1.range.Apart (cut (fun _ => some (o.reserved addr)) e.2.1) := by
    refine apart_iff.2 fun y _ hy => ?_
    have hlt : y < addr + max o.size o.vmoSize := hy.2
    rw [hmax] at hlt
    exact absurd hy.1 (not_le.2 hlt)
  rw [(h.cases e he).of_apart hap] at hr
  cases hr with
  | kept _ => exact ⟨Nat.eq_zero_of_le_zero (hmax ▸ le_max_left _ _), h.mem_values he⟩
  | appended ha => cases ha

/-- Outside the reserved range nothing changes, unless a mapping gets replaced. -/
theorem resolve_overwrite (hs : Shaped v.vmMappings)
    (hno : ¬ ClobbersNext v.vmMappings (o.reserved addr))
    (hstart : o.size = 0 → ∀ m ∈ v.vmMappings.values, m.mapToAddr = addr → m.mapSize = 0)
    (hxr : x ∉ o.reserved addr) : v'.resolve x = v.resolve x := by
  have hM' := tiles_overwrite hM h hv'
  by_cases hcov : Covers VmMapping.range v.vmMappings x
  · obtain ⟨m, hm, hxm⟩ := hM.covers_iff.1 hcov
    obtain ⟨k, b, hb, hxb, y, z, hp⟩ := h.lookup hM (cutsOut_const _) hno hm hxm hxr
    have hne : k ≠ addr := by
      rintro rfl
      obtain ⟨hsize, hbm⟩ := eq_of_get?_addr hM h hv' hb hxb
      have hzero := hstart hsize b hbm ((h.keyed_mappings hM.toKeyed).keyed _ b hb)
      exact absurd (hxb.1.trans_lt hxb.2) (by rw [VmMapping.range, hzero]; exact lt_irrefl _)
    have hb' : v'.vmMappings.get? k = some b := by rw [hv', get?_insert_of_ne hne, hb]
    exact resolve_of_piece hs hM hM' hm hxm hb' hxb hp
  · rw [(not_covers_iff hM.toKeyed).2 hcov]
    refine resolve_overwrite_none hM h hv' (fun hx => hxr (o.mapping_sub hx)) fun k' _ hat =>
      hcov ?_
    obtain ⟨m, hm, hxm, -⟩ := (h.tiles hM).2 x hat.covers
    exact ⟨_, m, hm, hxm⟩

theorem overwrites_of_nothingBeside (hs : Shaped v.vmMappings) (hn : v.NothingBeside o addr) :
    v.Overwrites v' o addr := by
  have hM' := tiles_overwrite hM h hv'
  intro x hdvd
  refine ⟨fun hx => ?_, fun hx => ?_⟩
  · rw [← MapOptions.mapping_target hx]
    exact resolve_of_mem hM' (mem_values_of_get? (by rw [hv', get?_insert_self])) hx
  · by_cases hxr : x ∈ o.reserved addr
    · -- a page of the surplus was not mapped and is not mapped now
      have hge : addr + o.size ≤ x := not_lt.1 fun hlt => hx ⟨hxr.1, hlt⟩
      rw [(resolve_eq_none_iff hM.toKeyed).2 (hn.surplus x hdvd hge hxr)]
      exact resolve_overwrite_none hM h hv' hx fun k' _ hat =>
        h.not_covers hM (cutsOut_const _) hxr hat.covers
    · exact resolve_overwrite hM h hv' hs hn.neighbour hn.start hxr

theorem nothingBeside_of_overwrites (hs : Shaped v.vmMappings) (ho : v.Overwrites v' o addr) :
    v.NothingBeside o addr := by
  have hc := cutsOut_const (o.reserved addr)
  -- a page outside the new mapping that resolved before still does
  have hstill : ∀ {x}, pageSize ∣ x → x ∉ (o.mapping addr).range → ∀ m ∈ v.vmMappings.values,
      x ∈ m.range → ∃ k', k' ≠ addr ∧ At VmMapping.range out.mappings k' x := by
    intro x hdvd hx m hm hxm
    by_contra hno
    push Not at hno
    have hnone := resolve_overwrite_none hM h hv' hx hno
    rw [(ho x hdvd).2 hx, resolve_eq_none_iff hM.toKeyed] at hnone
    exact hnone m hm hxm
  refine ⟨fun hclob => ?_, fun x hdvd hge hxr m hm hxm => ?_, fun hsize m hm hstart => ?_⟩
  · have hgone := h.not_covers_of_clobbers hM hc hclob
    obtain ⟨-, -, -, m', hm', hstart, hpos⟩ := id hclob
    obtain ⟨t, hdvd, -⟩ := exists_resolve_of_clobbers hs hM hclob
    have hout : (o.reserved addr).stop ∉ (o.mapping addr).range := fun hin =>
      absurd hin.2 (not_lt.2 (Nat.add_le_add_left (le_max_left _ _) _))
    obtain ⟨k', -, hat⟩ := hstill hdvd hout m' hm'
      ⟨hstart.le, hstart ▸ Nat.lt_add_of_pos_right hpos⟩
    exact hgone hat.covers
  · obtain ⟨k', -, hat⟩ := hstill hdvd (fun hin => absurd hin.2 (not_lt.2 hge)) m hm hxm
    exact h.not_covers hM hc hxr hat.covers
  · by_contra hne
    have hout : addr ∉ (o.mapping addr).range := fun hin =>
      absurd hin.2 (not_lt.2 (by rw [MapOptions.mapping, hsize]; exact le_rfl))
    have hin : addr ∈ m.range :=
      ⟨hstart.le, hstart ▸ Nat.lt_add_of_pos_right (Nat.pos_of_ne_zero hne)⟩
    obtain ⟨k', hk', b, hb, hxb⟩ := hstill (hstart ▸ (hs.aligned_of_mem hm).addr) hout m hm hin
    -- the mapping that holds the start is `m` itself, and no piece of it starts earlier
    obtain ⟨e, he, hget, hr⟩ := h.rest hM.toKeyed hb
    obtain ⟨z, hp, -⟩ := (h.cases e he).rest_piece hr
    obtain ⟨hkey, hsub⟩ := (h.cases e he).rest_range hr
    have hem : e.2.1 = m := hM.eq_of_mem (h.mem_values he) hm (hsub addr hxb).1 hin
    rw [hem] at hp
    exact hk' (le_antisymm (hkey ▸ hxb.1) (hstart ▸ hp.start))

end Overwriting

theorem build_overwrites_iff {s s' : VmSpace} (hs : Shaped v.vmMappings)
    (hM : Tiles VmMapping.range v.vmMappings) (hover : o.canOverwrite = true)
    (hb : v.build s o = .ok (addr, v', s')) : v.Overwrites v' o addr ↔ v.NothingBeside o addr := by
  obtain ⟨F, out, -, hout, hv⟩ := build_overwrite_ok hover hb
  obtain ⟨ts, hts⟩ := trimLoop_rounds hout
  have hv' : v'.vmMappings = out.mappings.insert addr (o.mapping addr) := by rw [hv]
  exact ⟨nothingBeside_of_overwrites hM hts hv' hs, overwrites_of_nothingBeside hM hts hv' hs⟩

end Vmar

/-! ### In every state of an address space -/

namespace AddrSpace

open Vmar

section

variable {a : AddrSpace} (hr : lts.Reachable init a) (hv : v.InTree a.vmar)
  (hdisj : (v.vmMappings.values.map VmMapping.range).Pairwise Apart) {s s' : VmSpace}

include hr hv hdisj

/-- **Unmapping is exact**, on a VMAR whose mappings are disjoint, if and only if no mapping starts
where the range cuts off the tail of another. -/
theorem destroy_exact_iff {range : Range} (hd : v.destroy s range = .ok (v', s')) :
    v.Unmaps v' range ↔ ¬ ClobbersNext v.vmMappings range := by
  have hs := shaped_of_reachable hr hv
  exact destroy_unmaps_iff hs (hs.toKeyed.tiles hdisj) hd

/-- **Overwriting is exact**, on a VMAR whose mappings are disjoint, if and only if nothing is
reserved beside the new mapping that was mapped. -/
theorem build_exact_iff {o : MapOptions} {addr : ℕ} (hover : o.canOverwrite = true)
    (hb : v.build s o = .ok (addr, v', s')) :
    v.Overwrites v' o addr ↔ v.NothingBeside o addr := by
  have hs := shaped_of_reachable hr hv
  exact build_overwrites_iff hs (hs.toKeyed.tiles hdisj) hover hb

end

/-- Map a VMO of two pages at an address. -/
def twoPages (addr : ℕ) : MapOptions :=
  { vmo := ⟨0, .all⟩, vmoSize := 0x2000, perms := {}, size := 0x2000, offset := some addr }

/-- One mapping of two pages. -/
def oneMapping : List (List ℕ × VmarOp) := [([], .build (twoPages 0x201000))]

/-- Two mappings of two pages, one behind the other. -/
def twoMappings : List (List ℕ × VmarOp) :=
  [([], .build (twoPages 0x201000)), ([], .build (twoPages 0x203000))]

theorem runAll_oneMapping : init.runAll oneMapping = .ok (init.after oneMapping) := rfl

theorem runAll_twoMappings : init.runAll twoMappings = .ok (init.after twoMappings) := rfl

theorem destroy_exact_oneMapping :
    ∃ v' s', (init.after oneMapping).vmar.destroy {} ⟨0x202000, 0x203000⟩ = .ok (v', s') ∧
      (init.after oneMapping).vmar.Unmaps v' ⟨0x202000, 0x203000⟩ := by
  obtain ⟨⟨v', s'⟩, hd⟩ :
      ∃ p, (init.after oneMapping).vmar.destroy {} ⟨0x202000, 0x203000⟩ = .ok p := ⟨_, rfl⟩
  exact ⟨v', s', hd, (destroy_exact_iff (reachable_runAll runAll_oneMapping) ⟨[], rfl⟩ (by decide)
    hd).2 (by decide)⟩

/-- Cutting off the second page of the first mapping takes the second mapping away. -/
theorem exists_destroy_not_exact :
    ∃ (a : AddrSpace) (v v' : Vmar) (s' : VmSpace), lts.Reachable init a ∧ v.InTree a.vmar ∧
      v.childVmars.entries = [] ∧ v.destroy a.space ⟨0x202000, 0x203000⟩ = .ok (v', s') ∧
      ¬ v.Unmaps v' ⟨0x202000, 0x203000⟩ := by
  refine ⟨_, _, _, _, reachable_runAll runAll_twoMappings, ⟨[], rfl⟩, rfl, rfl, fun h => ?_⟩
  have hres := (h 0x203000 (by decide)).2 (by decide)
  revert hres
  decide

/-- Overwrite the page at an address by the first page of a VMO of the given size. -/
def firstPage (addr vmoSize : ℕ) : MapOptions :=
  { vmo := ⟨0, .all⟩, vmoSize, perms := {}, size := 0x1000, offset := some addr,
    canOverwrite := true }

theorem build_exact_oneMapping :
    ∃ v' s', (init.after oneMapping).vmar.build {} (firstPage 0x202000 0x1000) =
        .ok (0x202000, v', s') ∧
      (init.after oneMapping).vmar.Overwrites v' (firstPage 0x202000 0x1000) 0x202000 := by
  obtain ⟨⟨addr, v', s'⟩, hb⟩ :
      ∃ p, (init.after oneMapping).vmar.build {} (firstPage 0x202000 0x1000) = .ok p := ⟨_, rfl⟩
  obtain rfl : addr = 0x202000 := by cases hb; rfl
  refine ⟨v', s', hb, (build_exact_iff (reachable_runAll runAll_oneMapping) ⟨[], rfl⟩ (by decide)
    rfl hb).2 ⟨by decide, fun x _ hge hx => ?_, nofun⟩⟩
  exact absurd hx.2 (not_lt.2 hge)

/-- Overwriting the first of two pages by the first page of a larger VMO unmaps the second. -/
theorem exists_build_not_exact :
    ∃ (a : AddrSpace) (v v' : Vmar) (s' : VmSpace), lts.Reachable init a ∧ v.InTree a.vmar ∧
      v.childVmars.entries = [] ∧
      v.build a.space (firstPage 0x201000 0x2000) = .ok (0x201000, v', s') ∧
      ¬ v.Overwrites v' (firstPage 0x201000 0x2000) 0x201000 := by
  refine ⟨_, _, _, _, reachable_runAll runAll_oneMapping, ⟨[], rfl⟩, rfl, rfl, fun h => ?_⟩
  have hres := (h 0x202000 (by decide)).2 (by decide)
  revert hres
  decide

end AddrSpace

end Jinux
