import Jinux.Vm.Disjoint
import Jinux.Vm.Exact
import Jinux.Vm.Unmapping

/-!
# No stale translation

The pages mapped in the `VmSpace` are meant to be pages of mappings: once `destroy` or an
overwriting `build` has removed a range, none of its pages may be mapped any more.  The invariant is
that every mapped page is recorded by a mapping of the tree that holds its address (`Vmar.Holds`).
Removal keeps it where every cut is clean (`VmMapping.CutsCleanly`), and then no address computation
on the way underflows either.

* `AddrSpace.no_stale_translation` : in every run of clean steps, a removal leaves no page of the
  range mapped and does not underflow.
-/

namespace Jinux

open SpanMap VmMapping Result List OrdMap FreeRegions VmSpace VmarOp Option

variable {v v' : Vmar} {s s' : VmSpace} {r : Range}

namespace Vmar

/-! ### Pages and the mappings that hold them -/

/-- A mapping of the VMAR has the page at `x`. -/
def HoldsAt (v : Vmar) (x : ℕ) : Prop :=
  ∃ k m, v.vmMappings.get? k = some m ∧ x ∈ m.range ∧ m.pageOf x ∈ m.mappedPages

/-- A VMAR of the tree has the page at `x`. -/
def Holds (v : Vmar) (x : ℕ) : Prop := ∃ u : Vmar, u.InTree v ∧ u.HoldsAt x

variable {u u' : Vmar} {x : ℕ} {P : Vmar → Prop} {f : FrameId}

theorem holds_iff : v.Holds x ↔ v.HoldsAt x ∨ ∃ k c, v.childVmars.get? k = some c ∧ c.Holds x := by
  constructor
  · rintro ⟨u, hu, hx⟩
    rcases inTree_iff.1 hu with rfl | ⟨k, c, hc, hu⟩
    · exact .inl hx
    · exact .inr ⟨k, c, hc, u, hu, hx⟩
  · rintro (hx | ⟨k, c, hc, u, hu, hx⟩)
    · exact ⟨v, inTree_iff.2 (.inl rfl), hx⟩
    · exact ⟨u, inTree_iff.2 (.inr ⟨k, c, hc, hu⟩), hx⟩

variable {path : List ℕ} {range : Range} {addr : ℕ} {ms : List VmMapping} {cs cs' : List (ℕ × Vmar)}
  {rangeOf : VmMapping → Option Range}

theorem Holds.of_at? (hu : v.at? path = some u) (h : u.Holds x) : v.Holds x := by
  obtain ⟨w, ⟨path', hw⟩, hx⟩ := h
  refine ⟨w, ⟨path ++ path', ?_⟩, hx⟩
  induction path generalizing v with
  | nil =>
    cases hu
    exact hw
  | cons k path ih =>
    obtain ⟨c, hc, hu⟩ := bind_eq_some_iff.1 hu
    rw [cons_append, at?, hc]
    exact ih hu

theorem at?_replaceAt :
    ∀ {u u' v : Vmar}, v.at? path = some u → (v.replaceAt path u').at? path = some u' := by
  induction path with
  | nil => exact fun _ => rfl
  | cons k path ih =>
    intro u u' v hu
    obtain ⟨c, hc, hu⟩ := bind_eq_some_iff.1 hu
    rw [replaceAt, hc]
    change ((v.childVmars.insert k (c.replaceAt path u')).get? k).bind (at? path) = some u'
    rw [get?_insert_self]
    exact ih hu

/-- A page that the replaced VMAR keeps is kept by the tree. -/
theorem Holds.replaceAt (hu : v.at? path = some u) (h : (u.Holds x → u'.Holds x)) (hx : v.Holds x) :
    (v.replaceAt path u').Holds x := by
  induction path generalizing u v with
  | nil =>
    cases hu
    exact h hx
  | cons k path ih =>
    obtain ⟨c, hc, hu'⟩ := bind_eq_some_iff.1 hu
    rw [Vmar.replaceAt, hc]
    refine holds_iff.2 ((holds_iff.1 hx).imp id ?_)
    rintro ⟨k', c', hc', hx⟩
    by_cases hk : k' = k
    · subst hk
      rw [hc] at hc'
      cases hc'
      exact ⟨k', _, get?_insert_self _ _ _, ih hu' h hx⟩
    · exact ⟨k', c', (get?_insert_of_ne hk).trans hc', hx⟩

theorem mem_range_of_at? (hP : ∀ v, P v → v.Inv) (h : v.Everywhere P) (hu : v.at? path = some u)
    (hx : x ∈ u.range) : x ∈ v.range := by
  induction path generalizing u v with
  | nil =>
    cases hu
    exact hx
  | cons k path ih =>
    obtain ⟨c, hc, hu⟩ := bind_eq_some_iff.1 hu
    obtain ⟨hv, hchild⟩ := everywhere_iff.1 h
    exact (hP v hv).within x (.inr (.inl ⟨k, c, hc, ih (hchild k c hc) hu hx⟩))

/-- A VMAR holds only pages of its range. -/
theorem Holds.mem_range (hP : ∀ v, P v → v.Inv) (h : v.Everywhere P)
    (hx : v.Holds x) : x ∈ v.range := by
  obtain ⟨w, hw, k, m, hm, hxm, -⟩ := hx
  have hin := (hP w (h w hw)).within x (.inr (.inr ⟨k, m, hm, hxm⟩))
  obtain ⟨path, hw⟩ := hw
  exact mem_range_of_at? hP h hw hin

/-- In a disjoint tree, a page in the range of a VMAR is held by none outside its subtree. -/
theorem Holds.at? (hP : ∀ v, P v → v.Inv) (h : v.Everywhere P) (hu : v.at? path = some u) (hxu : x ∈
    u.range) (hx : v.Holds x) : u.Holds x := by
  induction path generalizing u v with
  | nil =>
    cases hu
    exact hx
  | cons k path ih =>
    obtain ⟨c, hc, hu⟩ := bind_eq_some_iff.1 hu
    obtain ⟨hv, hchild⟩ := everywhere_iff.1 h
    have hxc : x ∈ c.range := mem_range_of_at? hP (hchild k c hc) hu hxu
    rcases holds_iff.1 hx with ⟨k', m, hm, hxm, -⟩ | ⟨k', c', hc', hx⟩
    · exact absurd ⟨k', m, hm, hxm⟩ ((hP v hv).childMap x ⟨k, c, hc, hxc⟩)
    · have hkk : k = k' := (hP v hv).child.indep k k' x ⟨c, hc, hxc⟩
        ⟨c', hc', Holds.mem_range hP (hchild k' c' hc') hx⟩
      subst hkk
      rw [hc] at hc'
      cases hc'
      exact ih (hchild k c hc) hu hxu hx

/-! ### Trimming loops -/

section Loop

variable {out : TrimOut} {M : OrdMap ℕ VmMapping} {ts : List (ℕ × VmMapping × Trimmed)}

/-- Every mapping is cut cleanly. -/
def TrimsCleanly (rangeOf : VmMapping → Option Range) (M : OrdMap ℕ VmMapping) : Prop :=
  ∀ m ∈ M.values, m.CutsCleanly (cut rangeOf m)

instance (rangeOf : VmMapping → Option Range) (M : OrdMap ℕ VmMapping) :
    Decidable (TrimsCleanly rangeOf M) := inferInstanceAs (Decidable (∀ m ∈ M.values, _))

/-- Each round does its work in some part of the run, and later rounds only unmap more. -/
theorem Trace.space (h : Trace rangeOf ts s s')
    (hc : ∀ e ∈ ts, e.2.1.Aligned ∧ e.2.1.CutsCleanly (cut rangeOf e.2.1)) :
    Sub s s' ∧ ∀ e ∈ ts, ∃ s₁ s₂, TrimsSpace e.2.1 (cut rangeOf e.2.1) e.2.2 s₁ s₂ ∧ Sub s₂ s' := by
  induction h with
  | nil s => exact ⟨.refl s, fun _ he => by cases he⟩
  | @skip k m ts s s' hr _ ih =>
    obtain ⟨hsub, hrest⟩ := ih fun e he => hc e (mem_cons_of_mem _ he)
    refine ⟨hsub, forall_mem_cons.2 ⟨⟨s, s, ⟨.refl s, fun x _ _ hx => ?_, fun k b hb => ?_⟩, hsub⟩,
      hrest⟩⟩
    · simp [cut, hr] at hx
    · cases hb with
      | kept _ => exact fun _ _ _ => id
      | appended h => cases h
  | @trim k m t r ts s s₁ s' hr hm _ ih =>
    obtain ⟨hsub, hrest⟩ := ih fun e he => hc e (mem_cons_of_mem _ he)
    obtain ⟨ha, hclean⟩ := hc _ mem_cons_self
    have hcut : cut rangeOf m = r := by rw [cut, hr, getD_some]
    have hone : TrimsSpace m (cut rangeOf m) t s s₁ := by
      rw [hcut]
      exact trimMapping_space ha (hcut ▸ hclean) hm
    exact ⟨hone.sub.trans hsub, forall_mem_cons.2 ⟨⟨s, s₁, hone, hsub⟩, hrest⟩⟩

theorem Rounds.space (h : Rounds rangeOf M.entries out ts) (hs : Shaped M)
    (hc : TrimsCleanly rangeOf M) (htr : Trace rangeOf ts s s') :
    Sub s s' ∧ ∀ e ∈ ts, ∃ s₁ s₂, TrimsSpace e.2.1 (cut rangeOf e.2.1) e.2.2 s₁ s₂ ∧ Sub s₂ s' :=
  htr.space fun _ he => ⟨hs.aligned_of_mem (h.mem_values he), hc _ (h.mem_values he)⟩

/-- A page that is still mapped after the loop is held by a piece of its mapping. -/
theorem Rounds.holdsAt (h : Rounds rangeOf M.entries out ts) (hs : Shaped M)
    (hM : Tiles VmMapping.range M) (hc : CutsOut rangeOf r) (hno : ¬ ClobbersNext M r)
    (htr : Trace rangeOf ts s s') (hclean : TrimsCleanly rangeOf M) {k : ℕ} {m : VmMapping}
    (hm : M.get? k = some m) (hx : x ∈ m.range) (hmem : m.pageOf x ∈ m.mappedPages)
    (hdvd : pageSize ∣ x) (hf : s'.areas.get? x = some f) :
    ∃ k b, out.mappings.get? k = some b ∧ x ∈ b.range ∧ b.pageOf x ∈ b.mappedPages := by
  have hmv := mem_values_of_get? hm
  obtain ⟨-, hspace⟩ := h.space hs hclean htr
  obtain ⟨e, he, rfl⟩ := h.exists_of_mem hmv
  obtain ⟨s1, s2, htrim, hsub⟩ := hspace e he
  have hxr : x ∉ r := by
    intro hxr
    have hnone := htrim.gone x hdvd hx ((hc.mem _ x hx).2 hxr) hmem
    rw [hsub.none hnone] at hf
    cases hf
  obtain ⟨k', b, hb, hxb, y, z, hp⟩ := h.lookup hM hc hno hmv hx hxr
  -- the piece comes from this mapping
  obtain ⟨e', he', -, hrest⟩ := h.rest hM.toKeyed hb
  have hx' := (((h.cases e' he').rest_range hrest).2 x hxb).1
  obtain rfl := h.entry_eq hM he he' hx hx'
  exact ⟨k', b, hb, hxb, hp.pageOf hxb ▸ htrim.kept k' b hrest x hdvd hxb hmem⟩

theorem trimLoop_noUnderflow (hs : Shaped M) (h : TrimsCleanly rangeOf M) :
    NoUnderflow (trimLoop rangeOf M.entries s) := by
  have hall : ∀ e ∈ M.entries, e.2.Aligned ∧ e.2.CutsCleanly (cut rangeOf e.2) := fun e he =>
    have hmem := mem_values.2 ⟨e.1, he⟩
    ⟨hs.aligned_of_mem hmem, h _ hmem⟩
  generalize M.entries = es at hall
  induction es generalizing s with
  | nil => exact .ok _
  | cons e es ih =>
    obtain ⟨k, m⟩ := e
    obtain ⟨ha, hc⟩ := hall _ mem_cons_self
    have hrest := fun s => ih (fun e he => hall e (mem_cons_of_mem _ he)) (s := s)
    unfold trimLoop
    cases hr : rangeOf m with
    | none => exact .bind (.pure _) fun _ _ => .bind (hrest _) fun _ _ => .pure _
    | some r =>
      have hcut : cut rangeOf m = r := by rw [cut, hr, getD_some]
      exact .bind (trimMapping_noUnderflow ha (hcut ▸ hc)) fun _ _ =>
        .bind (hrest _) fun _ _ => .pure _

end Loop

/-! ### Destroying whole VMARs -/

section Closed

open VmSpace (Closed)

variable {I : VmSpace → Prop}

theorem Trace.closed (hI : Closed I) {ts : List (ℕ × VmMapping × Trimmed)}
    (h : Trace rangeOf ts s s') : I s → I s' := by
  induction h with
  | nil s => exact id
  | skip _ _ ih => exact ih
  | trim _ hm _ ih => exact fun hs => ih (trimMapping_closed hI hm hs)

theorem trimLoop_closed (hI : Closed I) {es : List (ℕ × VmMapping)} {out : TrimOut}
    (h : trimLoop rangeOf es s = .ok (out, s')) (hs : I s) : I s' := by
  obtain ⟨ts, -, ht⟩ := trimLoop_trace h
  exact ht.closed hI hs

theorem unmapAll_closed (hI : Closed I) (h : unmapAll ms s = .ok s') (hs : I s) : I s' := by
  induction ms generalizing s with
  | nil =>
    cases h
    exact hs
  | cons m ms ih =>
    obtain ⟨p, hp, h⟩ := bind_ok.1 h
    exact ih h (unmap_closed hI hp hs)

theorem destroyAll_closed (hI : Closed I) : ∀ (v : Vmar) (s : VmSpace) {p : Vmar × VmSpace},
    v.destroyAll s = .ok p → I s → I p.2 := by
  refine destroyAll.induct (fun v s => ∀ {p}, v.destroyAll s = .ok p → I s → I p.2)
    (fun cs s => ∀ {s'}, destroyAllChildren cs s = .ok s' → I s → I s') ?_ ?_ ?_
  · intro base size isDestroyed children mappings regions s ih p h hs
    obtain ⟨s1, hs1, h⟩ := bind_ok.1 h
    obtain ⟨s2, hs2, h⟩ := bind_ok.1 h
    obtain ⟨F, -, h⟩ := bind_ok.1 h
    cases h
    exact hI.clear _ (unmapAll_closed hI hs2 (ih hs1 hs))
  · intro s s' h hs
    cases h
    exact hs
  · intro k c cs s ihc ihcs s' h hs
    obtain ⟨⟨c', s1⟩, hc, h⟩ := bind_ok.1 h
    exact ihcs s1 h (ihc hc hs)

/-- Either all children stay as they are, or everything has been unmapped on the way. -/
theorem destroyChildren_closed (hI : Closed I) (h : destroyChildren range cs s = .ok (cs', s')) :
    (I s → I s') ∧ ((∀ e ∈ cs, range.Apart e.2.range) ∨ ((∀ s, I (clear s)) → I s')) := by
  induction cs generalizing cs' s s' with
  | nil =>
    cases h
    exact ⟨id, .inl nofun⟩
  | cons e cs ih =>
    obtain ⟨k, c⟩ := e
    simp only [destroyChildren] at h
    split_ifs at h with hmeet
    · obtain ⟨⟨c', s1⟩, hc, h⟩ := bind_ok.1 h
      obtain ⟨⟨cs1, s2⟩, hcs, h⟩ := bind_ok.1 h
      cases h
      refine ⟨fun hs => (ih hcs).1 (destroyAll_closed hI c s hc hs), .inr fun hclear => ?_⟩
      obtain ⟨F, s3, -, -, rfl⟩ := destroyAll_ok hc
      exact (ih hcs).1 (hclear s3)
    · obtain ⟨_, hc, h⟩ := bind_ok.1 h
      cases hc
      obtain ⟨⟨cs1, s2⟩, hcs, h⟩ := bind_ok.1 h
      cases h
      refine ⟨(ih hcs).1, (ih hcs).2.imp_left fun hcs' => forall_mem_cons.2 ⟨?_, hcs'⟩⟩
      by_contra hn
      exact hmeet (isIntersected_iff.2 hn)

end Closed

/-- `destroy_all` unmaps everything, also what other VMARs have mapped. -/
theorem destroyAll_none (h : v.destroyAll s = .ok (v', s')) (x : ℕ) : s'.areas.get? x = none := by
  obtain ⟨F, s1, -, -, rfl⟩ := destroyAll_ok h
  rfl

theorem destroyChildren_space (h : destroyChildren range cs s = .ok (cs', s')) :
    Sub s s' ∧ ((∀ e ∈ cs, range.Apart e.2.range) ∨ ∀ x, s'.areas.get? x = none) :=
  ⟨(destroyChildren_closed (closed_sub s) h).1 (.refl s),
    (destroyChildren_closed (I := fun s => ∀ x, s.areas.get? x = none)
      ⟨fun s x s' hs h y => ((closed_sub s).unmapPage s x s' (.refl s) h).none (hs y),
        fun _ _ _ => rfl⟩ h).2.imp_right fun h => h fun _ _ => rfl⟩

theorem mergeContinuousRegions_noUnderflow (m : FreeRegions) :
    NoUnderflow (mergeContinuousRegions m) := by
  have hloop : ∀ (fuel : ℕ) (r : FreeRegion) (m : FreeRegions),
      NoUnderflow (mergeLoop fuel r m) := by
    intro fuel
    induction fuel with
    | zero => exact fun _ _ => .ok _
    | succ fuel ih =>
      intro r m
      unfold mergeLoop
      cases m.get? r.stop with
      | none => exact .ok _
      | some other =>
        refine .bind ?_ fun _ _ => ih _ _
        exact .bind (.assert _) fun _ _ => .bind (.assert _) fun _ _ => .pure _
  refine .bind ?_ fun _ _ => .pure _
  refine .foldlM (I := fun _ => True) (fun p k _ _ => ⟨?_, fun _ _ => trivial⟩) trivial
  unfold mergeStep
  cases p.1.get? k with
  | none => exact .ok _
  | some r => exact .bind (hloop _ _ _) fun _ _ => .pure _

/-- The mappings and the children of the VMAR are in order. -/
def InOrder (v : Vmar) : Prop := Shaped v.vmMappings ∧ v.childVmars.Sorted

theorem unmapAll_noUnderflow (h : ∀ m ∈ ms, m.Aligned) :
    ∀ {s : VmSpace}, NoUnderflow (unmapAll ms s) := by
  induction ms with
  | nil => exact .ok _
  | cons m ms ih =>
    refine .bind ?_ fun _ _ => ih fun m hm => h m (mem_cons_of_mem _ hm)
    exact unmapRange_noUnderflow (h m mem_cons_self) le_rfl (Nat.le_add_right _ _)

theorem destroyAll_noUnderflow : ∀ (v : Vmar) (s : VmSpace), v.Everywhere InOrder →
    NoUnderflow (v.destroyAll s) := by
  refine destroyAll.induct (fun v s => v.Everywhere InOrder → NoUnderflow (v.destroyAll s))
    (fun cs s => (∀ e ∈ cs, e.2.Everywhere InOrder) → NoUnderflow (destroyAllChildren cs s))
    ?_ ?_ ?_
  · intro base size isDestroyed children mappings regions s ih h
    obtain ⟨⟨hs, hsorted⟩, hchild⟩ := everywhere_iff.1 h
    refine .bind (ih fun e he => hchild e.1 e.2 ((mem_entries hsorted).1 he)) fun _ _ => ?_
    refine .bind (unmapAll_noUnderflow fun m hm => hs.aligned_of_mem hm) fun _ _ => ?_
    exact .bind (mergeContinuousRegions_noUnderflow _) fun _ _ => .pure _
  · intro s _
    exact .ok _
  · intro k c cs s ihc ihcs h
    exact .bind (ihc (h _ mem_cons_self)) fun _ _ =>
      ihcs _ fun e he => h e (mem_cons_of_mem _ he)

theorem destroyChildren_noUnderflow (h : ∀ e ∈ cs, e.2.Everywhere InOrder) :
    ∀ {s : VmSpace}, NoUnderflow (destroyChildren range cs s) := by
  induction cs with
  | nil => exact .ok _
  | cons e cs ih =>
    intro s
    obtain ⟨k, c⟩ := e
    have hrest := fun s => ih (fun e he => h e (mem_cons_of_mem _ he)) (s := s)
    exact .ite (fun _ => .bind (destroyAll_noUnderflow c s (h _ mem_cons_self)) fun _ _ =>
      .bind (hrest _) fun _ _ => .pure _) fun _ => .bind (.pure _) fun _ _ =>
      .bind (hrest _) fun _ _ => .pure _

/-! ### Operations on one VMAR -/

/-- The parts of the VMAR are disjoint, its mappings in order, and it is empty once destroyed. -/
structure Tidy (v : Vmar) : Prop extends Inv v where
  shaped : Shaped v.vmMappings
  dead : v.isDestroyed = true → v.childVmars = .empty ∧ v.vmMappings = .empty

theorem Everywhere.inOrder (h : v.Everywhere Tidy) : v.Everywhere InOrder :=
  fun u hu => ⟨(h u hu).shaped, (h u hu).child.sorted⟩

/-- A VMAR that is destroyed or empty has no page. -/
theorem not_holds_of_dead (h : v.Everywhere Tidy) (hv : v.isDestroyed = true ∨ v.size = 0) :
    ¬ v.Holds x := by
  intro hx
  rcases hv with hdead | hsize
  · obtain ⟨hc, hm⟩ := (everywhere_iff.1 h).1.dead hdead
    rcases holds_iff.1 hx with ⟨k, m, hget, -⟩ | ⟨k, c, hget, -⟩
    · rw [hm] at hget
      cases hget
    · rw [hc] at hget
      cases hget
  · obtain ⟨h1, h2⟩ := hx.mem_range (fun _ => Tidy.toInv) h
    simp only [range] at h1 h2
    omega

theorem holds_allocChild {o : ChildOptions} (h : v.Everywhere Tidy) (hpos : 0 < o.size)
    (ha : v.allocChild o = .ok v') (hx : v.Holds x) : v'.Holds x := by
  obtain ⟨hv, hchild⟩ := everywhere_iff.1 h
  obtain ⟨childOffset, align, base, r, offset, hfind, rfl⟩ := allocChild_ok ha
  obtain ⟨hget, hstart, hstop⟩ := hv.free.find hfind
  refine holds_iff.2 ((holds_iff.1 hx).imp id ?_)
  rintro ⟨k, c, hc, hxc⟩
  refine ⟨k, c, (get?_insert_of_ne ?_).trans hc, hxc⟩
  -- the address of the new child was free
  rintro rfl
  have hfree : v.FreeAt k := ⟨base, r, hget, hstart, (Nat.lt_add_of_pos_right hpos).trans_le hstop⟩
  have hxr := hxc.mem_range (fun _ => Tidy.toInv) (hchild k c hc)
  have hbase : c.range.start = k := hv.child.keyed k c hc
  exact hv.freeChild k hfree ⟨k, c, hc, hbase.le, (hbase ▸ hxr.1).trans_lt hxr.2⟩

/-- An overwriting mapping lies inside the VMAR, cuts cleanly, and replaces no other mapping. -/
def OverwritesCleanly (v : Vmar) (o : MapOptions) : Prop :=
  v.OverwritesInside o ∧ (o.canOverwrite = true → ∀ addr, o.offset = some addr →
    ¬ ClobbersNext v.vmMappings (o.reserved addr) ∧
    (o.size = 0 → ∀ m ∈ v.vmMappings.values, m.mapToAddr = addr → m.mapSize = 0) ∧
    TrimsCleanly (fun _ => some (o.reserved addr)) v.vmMappings)

theorem holds_build {o : MapOptions} (hv : v.Tidy) (hok : v.OverwritesCleanly o)
    (hb : v.build s o = .ok (addr, v', s')) (hdvd : pageSize ∣ x) (hf : s'.areas.get? x = some f)
    (hx : v.Holds x) : v'.Holds x := by
  obtain ⟨-, v1, hres, rfl⟩ := build_ok hb
  cases hres with
  | @overwrite F out _ hover hoffset _ hout =>
    obtain ⟨hno, hempty, hclean⟩ := hok.2 hover addr hoffset
    obtain ⟨ts, hts, htr⟩ := trimLoop_trace hout
    refine holds_iff.2 ((holds_iff.1 hx).imp_left ?_)
    rintro ⟨k, m, hm, hxm, hmem⟩
    obtain ⟨k', b, hb', hxb, hbmem⟩ := hts.holdsAt hv.shaped hv.map (cutsOut_const _) hno htr
      hclean hm hxm hmem hdvd hf
    refine ⟨k', b, (get?_insert_of_ne ?_).trans hb', hxb, hbmem⟩
    have hv' : ({ v with vmMappings := out.mappings.insert addr (o.mapping addr) } :
        Vmar).vmMappings = out.mappings.insert addr (o.mapping addr) := rfl
    -- under the new address there is a mapping only if nothing was reserved
    rintro rfl
    obtain ⟨hsize, hbv⟩ := eq_of_get?_addr hv.map hts hv' hb' hxb
    have hzero := hempty hsize b hbv ((hts.keyed_mappings hv.map.toKeyed).keyed _ b hb')
    exact absurd (hxb.1.trans_lt hxb.2) (by rw [VmMapping.range, hzero]; exact lt_irrefl _)
  | @fit base r hover hfind hmeet =>
    obtain ⟨hget, hstart, hstop⟩ := hv.free.find hfind
    refine holds_iff.2 ((holds_iff.1 hx).imp_left ?_)
    rintro ⟨k, m, hm, hxm, hmem⟩
    refine ⟨k, m, (get?_insert_of_ne ?_).trans hm, hxm, hmem⟩
    -- the new address was free
    rintro rfl
    have hfree : v.FreeAt k := ⟨base, r, hget, hstart, (start_lt_stop hmeet).trans_le hstop⟩
    have hkey : m.range.start = k := hv.map.keyed k m hm
    exact hv.freeMap k hfree ⟨k, m, hm, hkey.le, (hkey ▸ hxm.1).trans_lt hxm.2⟩

/-- The range meets every child that is alive, cuts cleanly, and replaces no mapping. -/
def DestroysCleanly (v : Vmar) (range : Range) : Prop :=
  v.DestroysChildren range ∧ ¬ ClobbersNext v.vmMappings range ∧
    TrimsCleanly (destroyRangeOf range) v.vmMappings

instance (v : Vmar) (range : Range) : Decidable (v.DestroysCleanly range) :=
  inferInstanceAs (Decidable (_ ∧ _ ∧ _))

theorem holds_destroy (h : v.Everywhere Tidy) (hok : v.DestroysCleanly range)
    (hd : v.destroy s range = .ok (v', s')) (hdvd : pageSize ∣ x)
    (hf : s'.areas.get? x = some f) (hx : v.Holds x) : v'.Holds x := by
  obtain ⟨hv, hchild⟩ := everywhere_iff.1 h
  obtain ⟨children, s1, out, F, hchildren, hout, -, rfl⟩ := destroy_ok hd
  obtain ⟨ts, hts, htr⟩ := trimLoop_trace hout
  rcases holds_iff.1 hx with ⟨k, m, hm, hxm, hmem⟩ | ⟨k, c, hc, hxc⟩
  · obtain ⟨k', b, hb, hxb, hbmem⟩ := hts.holdsAt hv.shaped hv.map (cutsOut_destroy range)
      hok.2.1 htr hok.2.2 hm hxm hmem hdvd hf
    refine holds_iff.2 (.inl ⟨k', b, ?_, hxb, hbmem⟩)
    rw [(hv.shaped.rounds hts).retain_live, hb]
  · -- a child with pages is alive, so it meets the range, and then nothing is mapped
    have hcv := mem_of_get? hc
    have hmeet : ¬ range.Apart c.range := by
      rcases hok.1 c (mem_values.2 ⟨k, hcv⟩) with hdead | hsize | hmeet
      · exact absurd hxc (not_holds_of_dead (hchild k c hc) (.inl hdead))
      · exact absurd hxc (not_holds_of_dead (hchild k c hc) (.inr hsize))
      · exact hmeet
    obtain ⟨hsub, -⟩ := hts.space hv.shaped hok.2.2 htr
    rcases (destroyChildren_space hchildren).2 with hap | hnone
    · exact absurd (hap _ hcv) hmeet
    · rw [hsub.none (hnone x)] at hf
      cases hf

theorem holds_mapPage {cowChild isReadonly : Bool} {frame : FrameId} (hv : v.Tidy)
    (hm : v.mapPage s addr cowChild frame isReadonly = .ok (v', s')) :
    (s.Consistent → s'.Consistent) ∧ (∀ x, v.Holds x → v'.Holds x) ∧
      ∀ x f, s'.areas.get? x = some f → s.areas.get? x = some f ∨ v'.Holds x := by
  obtain ⟨key, m, m', hmem, hle, hlt, hone, rfl⟩ := mapPage_ok hm
  have hget := (mem_entries hv.map.sorted).1 hmem
  have hkey : m.mapToAddr = key := hv.map.keyed key m hget
  have haddr : addr ∈ m.range := ⟨hkey.le.trans hle, hlt.trans_le (by rw [VmMapping.range, hkey])⟩
  have hidx : (m.vmoOffset + addr - m.mapToAddr) / pageSize = m.pageOf addr := by
    rw [pageOf, offsetOf, Nat.add_sub_assoc (show m.mapToAddr ≤ addr from haddr.1)]
  rw [hidx] at hone
  obtain ⟨hcons, hareas⟩ := mapOnePage_space hone
  obtain ⟨hin, hpage⟩ := pageAddr_mem haddr
  rw [(mapOnePage_ok hone).1]
  refine ⟨hcons, fun x hx => holds_iff.2 ((holds_iff.1 hx).imp_left ?_), fun x f hx => ?_⟩
  · rintro ⟨k, m0, hm0, hxm, hpages⟩
    by_cases hk : k = key
    · subst hk
      rw [hget] at hm0
      cases hm0
      exact ⟨k, _, get?_insert_self _ _ _, hxm, Finset.mem_insert_of_mem hpages⟩
    · exact ⟨k, m0, (get?_insert_of_ne hk).trans hm0, hxm, hpages⟩
  · refine (hareas x f hx).symm.imp_right ?_
    rintro rfl
    refine holds_iff.2 (.inl ⟨key, _, get?_insert_self _ _ _, hin, ?_⟩)
    exact Finset.mem_insert.2 (.inl hpage)

end Vmar

open Vmar

/-- The condition under which an operation on a VMAR leaves no stale page. -/
def VmarOp.Clean (op : VmarOp) (v : Vmar) : Prop :=
  v.isDestroyed = false ∧
    match op with
    | .allocChild o => 0 < o.size
    | .build o => v.OverwritesCleanly o
    | .destroy r => v.DestroysCleanly r
    | _ => True

variable {op : VmarOp}

theorem VmarOp.Clean.keepsApart (h : op.Clean v) : op.KeepsApart v := by
  obtain ⟨-, h⟩ := h
  cases op with
  | build o | destroy range => exact h.1
  | allocChild _ | destroyAll | mapPage _ _ _ _ => exact trivial

theorem VmarOp.tidy_run (hok : op.Clean v) (h : v.Tidy) (hrun : op.run v s = .ok (v', s')) :
    v'.Tidy := by
  refine ⟨inv_run hok.keepsApart h.toInv hrun, shaped_run h.shaped hrun, fun hdead => ?_⟩
  by_cases hop : op = .destroyAll
  · subst hop
    obtain ⟨F, s1, -, rfl, -⟩ := destroyAll_ok hrun
    exact ⟨rfl, rfl⟩
  · rw [(run_keeps hrun).live hop, hok.1] at hdead
    cases hdead

/-- What is mapped after an operation was mapped before and held as before, or is new and held. -/
theorem VmarOp.run_held (hok : op.Clean v) (h : v.Everywhere Tidy)
    (hs : s.Consistent) (hrun : op.run v s = .ok (v', s')) :
    s'.Consistent ∧ ∀ x f, s'.areas.get? x = some f →
      s.areas.get? x = some f ∧ (v.Holds x → v'.Holds x) ∨ v'.Holds x := by
  have hv := (everywhere_iff.1 h).1
  -- an operation that only unmaps pages
  have of_sub : Sub s s' →
      (∀ x f, pageSize ∣ x → s'.areas.get? x = some f → v.Holds x → v'.Holds x) →
      s'.Consistent ∧ ∀ x f, s'.areas.get? x = some f →
        s.areas.get? x = some f ∧ (v.Holds x → v'.Holds x) ∨ v'.Holds x := fun hsub hkeep =>
    ⟨hsub.consistent hs, fun x f hx => .inl ⟨hsub.areas x f hx,
      hkeep x f (hs.page x f (hsub.areas x f hx)) hx⟩⟩
  cases op with
  | allocChild o =>
    obtain ⟨v1, hv1, hrun⟩ := bind_ok.1 hrun
    cases hrun
    exact of_sub (.refl s) fun x f _ _ => holds_allocChild h hok.2 hv1
  | build o =>
    obtain ⟨⟨addr, v1, s1⟩, hv1, hrun⟩ := bind_ok.1 hrun
    cases hrun
    refine of_sub ?_ fun x f hdvd hx => holds_build hv hok.2 hv1 hdvd hx
    obtain ⟨-, v2, hres, -⟩ := build_ok hv1
    cases hres with
    | fit _ _ _ => exact .refl s
    | overwrite hover hoffset _ hout =>
      obtain ⟨ts, hts, htr⟩ := trimLoop_trace hout
      exact (hts.space hv.shaped (hok.2.2 hover addr hoffset).2.2 htr).1
  | destroy range =>
    refine of_sub ?_ fun x f hdvd hx => holds_destroy h hok.2 hrun hdvd hx
    obtain ⟨children, s1, out, F, hchildren, hout, -, -⟩ := destroy_ok hrun
    obtain ⟨ts, hts, htr⟩ := trimLoop_trace hout
    exact (destroyChildren_space hchildren).1.trans (hts.space hv.shaped hok.2.2.2 htr).1
  | destroyAll =>
    refine of_sub (destroyAll_closed (closed_sub s) v s hrun (.refl s)) fun x f _ hx => ?_
    rw [destroyAll_none hrun x] at hx
    cases hx
  | mapPage addr cowChild frame isReadonly =>
    obtain ⟨hcons, hkeep, hareas⟩ := holds_mapPage hv hrun
    exact ⟨hcons hs, fun x f hx => (hareas x f hx).imp_left fun hx => ⟨hx, hkeep x⟩⟩

/-! ### Whole runs -/

namespace Vmar

theorem checkDestroyRange_noUnderflow (v : Vmar) (r : Range) :
    NoUnderflow (v.checkDestroyRange r) := by
  refine .bind (.debugAssert _) fun _ _ => .bind (.debugAssert _) fun _ _ => .forM fun e _ => ?_
  exact .ite (fun _ => .pure _) fun _ => .ite (fun _ => .pure _) fun _ =>
    .bind (.assert _) fun _ _ => .returnErrnoWithMessage _ _

theorem destroy_noUnderflow (h : v.Everywhere Tidy) (hok : v.DestroysCleanly r) :
    NoUnderflow (v.destroy s r) := by
  obtain ⟨hv, hchild⟩ := everywhere_iff.1 h
  refine .bind (checkDestroyRange_noUnderflow v r) fun _ _ => .bind ?_ fun _ _ =>
    .bind ?_ fun _ _ => .bind (mergeContinuousRegions_noUnderflow _) fun _ _ => .pure _
  · exact destroyChildren_noUnderflow fun e he =>
      (hchild e.1 e.2 ((mem_entries hv.child.sorted).1 he)).inOrder
  · exact trimLoop_noUnderflow hv.shaped hok.2.2

theorem checkOptions_noUnderflow (v : Vmar) (o : MapOptions) : NoUnderflow (v.checkOptions o) := by
  have hrights : NoUnderflow (o.vmo.checkRights o.perms.toRights) :=
    .ite (fun _ => .ok _) fun _ => .returnErrnoWithMessage _ _
  have hover : NoUnderflow (v.checkOverwrite o) := by
    refine .bind (.debugAssert _) fun _ _ => ?_
    cases o.offset with
    | none => exact .ite (fun _ => .returnErrnoWithMessage _ _) fun _ => .pure _
    | some offset =>
      exact .bind (.addUsize _ _) fun _ _ => .ite (fun _ => .returnErrnoWithMessage _ _) fun _ =>
        .ite (fun _ => .returnErrnoWithMessage _ _) fun _ => .pure _
  have hend : NoUnderflow (do o.vmo.checkRights o.perms.toRights; v.checkOverwrite o) :=
    .bind hrights fun _ _ => hover
  refine .bind (.debugAssert _) fun _ _ => .bind (.debugAssert _) fun _ _ => ?_
  refine .ite (fun _ => .bind (.returnErrnoWithMessage _ _) nofun) fun _ => ?_
  refine .bind (.debugAssert _) fun _ _ => ?_
  refine .ite (fun _ => .bind (.returnErrnoWithMessage _ _) nofun) fun _ => ?_
  cases o.offset with
  | none => exact hend
  | some offset =>
    refine .bind (.debugAssert _) fun _ _ => ?_
    exact .ite (fun _ => .bind (.returnErrnoWithMessage _ _) nofun) fun _ => hend

theorem splitRegions_noUnderflow (r : Range) (m : FreeRegions) :
    NoUnderflow (splitRegions r m) := by
  refine .foldlM (I := fun _ => True) (fun m k _ _ => ⟨?_, fun _ _ => trivial⟩) trivial
  exact .bind (.unwrap _) fun _ _ => .bind (.bind (.debugAssert _) fun _ _ => .pure _) fun _ _ =>
    .pure _

theorem build_noUnderflow {o : MapOptions} (hv : v.Tidy) (hover : o.canOverwrite = true)
    (hok : v.OverwritesCleanly o) : NoUnderflow (v.build s o) := by
  refine .bind (checkOptions_noUnderflow v o) fun _ _ => .bind ?_ fun _ _ => .pure _
  refine .bind ?_ fun _ _ => .bind (.addUsize _ _) fun _ _ =>
    .bind (.getPageIdxRange _) fun _ _ => .pure _
  refine .ite (fun _ => ?_) fun hn => absurd hover hn
  cases hoffset : o.offset with
  | none => exact .returnErrnoWithMessage _ _
  | some offset =>
    have hclean := (hok.2 hover offset hoffset).2.2
    refine .bind (.addUsize _ _) fun stop hstop => .bind (splitRegions_noUnderflow _ _) fun _ _ =>
      .bind ?_ fun _ _ => .pure _
    obtain ⟨-, rfl⟩ := addUsize_ok.1 hstop
    exact .bind (trimLoop_noUnderflow hv.shaped hclean) fun _ _ => .pure _

theorem modifyAt_noUnderflow {f : Vmar → VmSpace → Result (Vmar × VmSpace)}
    {path : List ℕ} : ∀ {v : Vmar}, (∀ u, v.at? path = some u → NoUnderflow (f u s)) →
      NoUnderflow (modifyAt f path v s) := by
  induction path with
  | nil => exact fun h => h _ rfl
  | cons k path ih =>
    intro v h
    refine .bind (.unwrap _) fun c hc => .bind (ih fun u hu => h u ?_) fun _ _ => .pure _
    rw [at?, unwrap_ok.1 hc]
    exact hu

end Vmar

/-- The addresses that an operation removes before it returns. -/
def VmarOp.removed : VmarOp → Option Range
  | .destroy r => some r
  | .build o => if o.canOverwrite then o.offset.map o.reserved else none
  | _ => none

theorem VmarOp.run_noUnderflow (h : v.Everywhere Tidy) (hok : op.Clean v)
    (hr : op.removed = some r) : NoUnderflow (op.run v s) := by
  cases op with
  | destroy range => exact destroy_noUnderflow h hok.2
  | build o =>
    simp only [removed] at hr
    split_ifs at hr with hover
    exact .bind (build_noUnderflow (everywhere_iff.1 h).1 hover hok.2) fun _ _ => .pure _
  | allocChild o | destroyAll | mapPage _ _ _ _ => cases hr

/-- A VMAR holds no page that it has just removed. -/
theorem VmarOp.not_holds_removed (h : v.Tidy) (h' : v'.Everywhere Tidy) (hr : op.removed = some r)
    (hrun : op.run v s = .ok (v', s')) {x : ℕ} (hx : x ∈ r) : ¬ v'.Holds x := by
  intro hold
  obtain ⟨-, hchild'⟩ := everywhere_iff.1 h'
  have hcx : ∀ {k c}, v'.childVmars.get? k = some c → c.Holds x → x ∈ c.range := fun hc hxc =>
    hxc.mem_range (fun _ => Tidy.toInv) (hchild' _ _ hc)
  cases op with
  | destroy range =>
    cases hr
    obtain ⟨children, s1, out, F, hchildren, hout, -, rfl⟩ := destroy_ok hrun
    obtain ⟨ts, hts⟩ := trimLoop_rounds hout
    rcases holds_iff.1 hold with ⟨k, m, hm, hxm, -⟩ | ⟨k, c, hc, hxc⟩
    · have hcov := (hts.tiles h.map).1.covers_of_retain ⟨k, m, hm, hxm⟩
      exact hts.not_covers h.map (cutsOut_destroy _) hx hcov
    · have hap := ((survivors_get? h.child.sorted (destroyChildren_ok hchildren)).2 k c hc).2.1
      exact Span.apart_iff.1 hap x hx (hcx hc hxc)
  | build o =>
    simp only [removed] at hr
    split_ifs at hr with hover
    obtain ⟨⟨addr, v1, s1⟩, hb, hrun⟩ := bind_ok.1 hrun
    cases hrun
    obtain ⟨hcheck, -⟩ := build_ok hb
    obtain ⟨F, out, hoffset, hout, rfl⟩ := build_overwrite_ok hover hb
    rw [hoffset] at hr
    cases hr
    obtain ⟨ts, hts⟩ := trimLoop_rounds hout
    rcases holds_iff.1 hold with ⟨k, m, hm, hxm, hmem⟩ | ⟨k, c, hc, hxc⟩
    · rcases of_get?_insert hm with ⟨-, rfl⟩ | ⟨-, hm⟩
      · -- no page of the new mapping is mapped yet
        exact absurd hmem (Finset.notMem_empty _)
      · exact hts.not_covers h.map (cutsOut_const _) hx ⟨k, m, hm, hxm⟩
    · have hap := hcheck.child addr hoffset c (mem_values_of_get? hc)
      exact Span.apart_iff.1 hap x hx (hcx hc hxc)
  | allocChild o | destroyAll | mapPage _ _ _ _ => cases hr

/-- The page at `x` is not mapped, and the page table has no entry for it. -/
def VmSpace.Unmapped (s : VmSpace) (x : ℕ) : Prop :=
  s.isMapped x = false ∧ s.pt.get? (ptIndex x) = none

namespace AddrSpace

/-- Each step is clean at the VMAR it works on. -/
abbrev Clean : AddrSpace → List ℕ × VmarOp → Prop := Locally VmarOp.Clean

theorem localInvariant_tidy : LocalInvariant VmarOp.Clean Tidy where
  root := ⟨inv_newRoot, Shaped.empty, nofun⟩
  fresh _ _ := ⟨inv_fresh _ _, Shaped.empty, nofun⟩
  sorted _ h := h.child.sorted
  replace v c c' k h hc hr := by
    refine ⟨replaceable_inv v c c' k h.toInv hc hr, h.shaped, fun hdead => ?_⟩
    rw [(h.dead hdead).1] at hc
    cases hc
  run _ _ _ _ _ hok h hrun := tidy_run hok h hrun

/-- Every page that is mapped is held by a mapping of the tree. -/
structure AllHeld (a : AddrSpace) : Prop where
  consistent : a.space.Consistent
  held : ∀ x f, a.space.areas.get? x = some f → a.vmar.Holds x

theorem AllHeld.step {a a' : AddrSpace} {l : List ℕ × VmarOp} (h : a.AllHeld)
    (ht : a.vmar.Everywhere Tidy) (hok : a.Clean l) (hs : lts.step a l a') : a'.AllHeld := by
  obtain ⟨u, u', hu, hrun, hvmar⟩ := apply_ok hs
  obtain ⟨hcons, hareas⟩ := run_held (hok u hu) (ht.at? hu) h.consistent hrun
  refine ⟨hcons, fun x f hx => ?_⟩
  rw [hvmar]
  rcases hareas x f hx with ⟨hold, hkeep⟩ | hnew
  · exact (h.held x f hold).replaceAt hu hkeep
  · exact hnew.of_at? (at?_replaceAt hu)

theorem allHeld_of_reachable {a : AddrSpace} (h : (lts.restrict Clean).Reachable init a) :
    a.AllHeld := by
  have hinit : init.AllHeld :=
    ⟨⟨nofun, nofun⟩, nofun⟩
  have hall : a.AllHeld ∧ (lts.restrict Clean).Reachable init a :=
    h.invariant (P := fun a => a.AllHeld ∧ (lts.restrict Clean).Reachable init a)
      ⟨hinit, .refl init⟩
      fun a l a' hi hs => ⟨hi.1.step (localInvariant_tidy.everywhere hi.2) hs.1 hs.2, hi.2.step hs⟩
  exact hall.1

/-- Pages of the root VMAR have their own page-table entries. -/
theorem eq_of_ptIndex {x y : ℕ} (hx : x ∈ newRoot.range) (hy : y ∈ newRoot.range)
    (hdx : pageSize ∣ x) (hdy : pageSize ∣ y) (h : ptIndex x = ptIndex y) : x = y := by
  have h1 := hx.2
  have h2 := hy.2
  simp only [newRoot, Vmar.range, rootVmarHighestAddr, pageSize, ptIndex] at *
  omega

/-- **A removal leaves no page mapped and does not underflow**, in every run of clean steps. -/
theorem no_stale_translation {a : AddrSpace} (h : (lts.restrict Clean).Reachable init a)
    {path : List ℕ} {op : VmarOp} {u : Vmar} {r : Range} (hu : a.vmar.at? path = some u)
    (hr : op.removed = some r) (hok : op.Clean u) :
    NoUnderflow (a.apply path op) ∧ ∀ a', a.apply path op = .ok a' →
      ∀ x, pageSize ∣ x → x ∈ r → x ∈ u.range → a'.space.Unmapped x := by
  have ht := localInvariant_tidy.everywhere h
  refine ⟨.bind (modifyAt_noUnderflow fun w hw => ?_) fun _ _ => .pure _,
    fun a' hs x hdvd hx hxu => ?_⟩
  · rw [hu] at hw
    cases hw
    exact run_noUnderflow (ht.at? hu) hok hr
  have hclean : a.Clean (path, op) := fun w hw => by
    rw [hu] at hw
    cases hw
    exact hok
  have h' : (lts.restrict Clean).Reachable init a' := h.step (l := (path, op)) ⟨hclean, hs⟩
  have ht' := localInvariant_tidy.everywhere h'
  have hheld := allHeld_of_reachable h'
  have hroot := range_of_reachable h'.of_restrict
  obtain ⟨w, u', hw, hrun, hvmar⟩ := apply_ok hs
  rw [hu] at hw
  cases hw
  have hu' : a'.vmar.at? path = some u' := hvmar ▸ at?_replaceAt hu
  have hxu' : x ∈ u'.range := (run_keeps hrun).range ▸ hxu
  -- a page of the range that is mapped would be held by the VMAR
  have hnone : ∀ f, a'.space.areas.get? x ≠ some f := fun f hf =>
    not_holds_removed (everywhere_iff.1 (ht.at? hu)).1 (ht'.at? hu') hr hrun hx
      ((hheld.held x f hf).at? (fun _ => Tidy.toInv) ht' hu' hxu')
  constructor
  · by_contra hm
    obtain ⟨f, hf⟩ := get?_of_isMapped hheld.consistent.page hdvd (Bool.not_eq_false _ ▸ hm)
    exact hnone f hf
  · cases hget : a'.space.pt.get? (ptIndex x) with
    | none => rfl
    | some pte =>
      obtain ⟨y, f, hy, hidx⟩ := hheld.consistent.pt _ pte hget
      have hyr : y ∈ newRoot.range :=
        hroot ▸ (hheld.held y f hy).mem_range (fun _ => Tidy.toInv) ht'
      have hxr : x ∈ newRoot.range := hroot ▸ mem_range_of_at? (fun _ => Tidy.toInv) ht' hu' hxu'
      obtain rfl := eq_of_ptIndex hyr hxr (hheld.consistent.page y f hy) hdvd hidx
      exact absurd hy (hnone f)

/-- Map two pages, the second one to a frame. -/
def secondPageMapped : List (List ℕ × VmarOp) :=
  [([], .build (twoPages 0x201000)), ([], .mapPage 0x202000 false 7 false)]

theorem no_stale_secondPage :
    NoUnderflow ((init.after secondPageMapped).apply [] (.destroy ⟨0x200000, 0x300000⟩)) ∧
      ∃ a', (init.after secondPageMapped).apply [] (.destroy ⟨0x200000, 0x300000⟩) = .ok a' ∧
        (init.after secondPageMapped).space.isMapped 0x202000 = true ∧
        a'.space.Unmapped 0x202000 := by
  have hsteps : StepsMeet Clean init secondPageMapped := by
    refine ⟨?_, fun a ha => ⟨?_, fun _ _ => trivial⟩⟩
    · rintro _ ⟨⟩
      exact ⟨rfl, nofun, nofun⟩
    · cases ha
      rintro _ ⟨⟩
      exact ⟨rfl, trivial⟩
  have hr : (lts.restrict Clean).Reachable init (init.after secondPageMapped) :=
    reachable_restrict_runAll (.refl init) hsteps rfl
  have hok : (destroy ⟨0x200000, 0x300000⟩).Clean (init.after secondPageMapped).vmar :=
    ⟨rfl, (by decide : Vmar.DestroysCleanly _ _)⟩
  have hroot : (init.after secondPageMapped).vmar.at? [] = some _ := rfl
  obtain ⟨hno, hun⟩ := no_stale_translation hr hroot rfl hok
  exact ⟨hno, _, rfl, by decide, hun _ rfl 0x202000 ⟨0x202, rfl⟩ (by decide) (by decide)⟩

/-- Map two pages, the first one to a frame. -/
def firstPageMapped : List (List ℕ × VmarOp) :=
  [([], .build (twoPages 0x201000)), ([], .mapPage 0x201000 false 7 false)]

/-- Map one page and a half, the second page to a frame. -/
def halfPageMapped : List (List ℕ × VmarOp) :=
  [([], .build { twoPages 0x201000 with size := 0x1800 }), ([], .mapPage 0x202000 false 7 false)]

/-- Map four pages over what is there. -/
def fourPagesOver (addr : ℕ) : MapOptions :=
  { twoPages addr with vmoSize := 0x4000, size := 0x4000, canOverwrite := true }

/-- Removing the first of two pages underflows in `page_map_addr`, overwriting from below the
mapping underflows in `unmap`, overwriting the second half of a mapping leaves its last page. -/
theorem exists_stale :
    (∃ a r, lts.Reachable init a ∧
      a.apply [] (.destroy r) = .error (.panic .subOverflow)) ∧
    (∃ a o, lts.Reachable init a ∧ o.canOverwrite = true ∧
      a.apply [] (.build o) = .error (.panic .subOverflow)) ∧
    ∃ a a' op r x, lts.Reachable init a ∧ op.removed = some r ∧ a.apply [] op = .ok a' ∧
      pageSize ∣ x ∧ x ∈ r ∧ x ∈ a.vmar.range ∧ a'.space.areas.get? x = some 7 := by
  have hfirst : init.runAll firstPageMapped = .ok (init.after firstPageMapped) := rfl
  have hhalf : init.runAll halfPageMapped = .ok (init.after halfPageMapped) := rfl
  refine ⟨⟨_, ⟨0x201000, 0x202000⟩, reachable_runAll hfirst, rfl⟩,
    ⟨_, fourPagesOver 0x200000, reachable_runAll runAll_oneMapping, rfl, rfl⟩,
    _, _, .build (fourPagesOver 0x202000), _, 0x202000, reachable_runAll hhalf, rfl, rfl,
    ⟨0x202, rfl⟩, by decide, by decide, by decide⟩

end AddrSpace

end Jinux
