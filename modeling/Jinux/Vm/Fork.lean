import Jinux.Vm.CowIsolation
import Jinux.Vm.VmarAccess

/-!
# Forking an address space

`fork_from` copies the VMAR tree of a process; every mapping of the copy shows a copy-on-write child
of the VMO that the original shows.

* `World.Forks` : what reading and forking do to the memory;
* `Vmar.newCow_ensures` : wherever the original finds a mapping, the copy finds a mapping with the
  same contents, whose VMO is new and is mapped nowhere else.
-/

namespace Jinux

open StateRules List World VmMapping

variable {w w' w'' : World} {n : ℕ}

namespace World

variable {w'' : World} {id : VmoId}

/-- `w'` comes from `w` by operations that change no contents: pages of VMOs below `n` are populated
and copy-on-write children that have committed nothing are added. -/
structure Forks (n : ℕ) (w w' : World) : Prop where
  length : w.vmos.length ≤ w'.vmos.length
  next : w.nextFrame ≤ w'.nextFrame
  wf : w'.Wf
  size : ∀ id < w.vmos.length, (w'.vmo id).size = (w.vmo id).size
  cow : ∀ id < w.vmos.length, (w'.vmo id).isCow = (w.vmo id).isCow
  inherited : ∀ id < w.vmos.length, (w'.vmo id).inheritedPages = (w.vmo id).inheritedPages
  content : ∀ id < w.vmos.length, ∀ k, w'.pageContent id k = w.pageContent id k
  fixed : ∀ id < w.vmos.length, n ≤ id → w'.vmo id = w.vmo id
  fresh : ∀ id k f, (w'.vmo id).committedPages.get? k = some f →
    (w.vmo id).committedPages.get? k = some f ∨ w.nextFrame ≤ f
  inj : ∀ i j k k' f, w.nextFrame ≤ f → (w'.vmo i).committedPages.get? k = some f →
    (w'.vmo j).committedPages.get? k' = some f → i = j ∧ k = k'
  added : ∀ id, w.vmos.length ≤ id → id < w'.vmos.length →
    (w'.vmo id).isCow = true ∧ (w'.vmo id).committedPages = .empty

namespace Forks

theorem refl (hw : w.Wf) : Forks n w w where
  length := le_rfl
  next := le_rfl
  wf := hw
  size _ _ := rfl
  cow _ _ := rfl
  inherited _ _ := rfl
  content _ _ _ := rfl
  fixed _ _ _ := rfl
  fresh _ _ _ h := .inl h
  inj i _ k _ f hge hi _ := absurd (hw.committed_lt i k f hi) (Nat.not_lt.2 hge)
  added _ hge hlt := absurd hlt (Nat.not_lt.2 hge)

theorem of_populate (hw : w.Wf) (hid : id < n) (h : Populate id w w') : Forks n w w' where
  length := h.length.ge
  next := h.next
  wf := h.toEvolve.wf hw
  size j _ := by
    by_cases hj : j = id
    · rw [hj, h.size]
    · rw [h.other j hj]
  cow j _ := by
    by_cases hj : j = id
    · rw [hj, h.cow]
    · rw [h.other j hj]
  inherited j _ := by
    by_cases hj : j = id
    · rw [hj, h.inherited]
    · rw [h.other j hj]
  content j _ k := h.content j k
  fixed j _ hj := h.other j (hid.trans_le hj).ne'
  fresh j k f hf := by
    by_cases hj : j = id
    · subst hj
      exact (h.fresh k f hf).imp_right And.left
    · rw [h.other j hj] at hf
      exact .inl hf
  inj i j k k' f hge hi hj := by
    -- a fresh frame can only be a page of `id`
    have only : ∀ j k, (w'.vmo j).committedPages.get? k = some f → j = id := by
      intro j k hj
      by_contra hne
      rw [h.other j hne] at hj
      exact absurd (hw.committed_lt j k f hj) (Nat.not_lt.2 hge)
    obtain rfl := only i k hi
    obtain rfl := only j k' hj
    exact ⟨rfl, h.inj k k' f hge hi hj⟩
  added j hge hlt := absurd (h.length ▸ hlt) (Nat.not_lt.2 hge)

theorem of_append {v : VmoInner} (hw : w.Wf) (hcow : v.isCow = true)
    (hcom : v.committedPages = .empty)
    (hinh : ∀ fs f, v.inheritedPages = some fs → f ∈ fs → f < w.nextFrame) :
    Forks n w { w with vmos := w.vmos ++ [v] } := by
  have hold : ∀ j < w.vmos.length, ({ w with vmos := w.vmos ++ [v] } : World).vmo j = w.vmo j :=
    fun j hj => by rw [vmo_append, if_neg hj.ne]
  have hcommitted : ∀ j k f,
      (({ w with vmos := w.vmos ++ [v] } : World).vmo j).committedPages.get? k = some f →
      (w.vmo j).committedPages.get? k = some f := by
    intro j k f h
    rw [vmo_append] at h
    split_ifs at h
    · rw [hcom] at h
      cases h
    · exact h
  refine ⟨by simp, le_rfl, hw.append hcom hinh,
    fun j hj => by rw [hold j hj], fun j hj => by rw [hold j hj], fun j hj => by rw [hold j hj],
    fun j hj k => ?_, fun j hj _ => hold j hj, fun j k f h => .inl (hcommitted j k f h), ?_, ?_⟩
  · exact pageContent_congr (fun _ _ => rfl) (by rw [hold j hj]) (by rw [hold j hj])
      (by rw [hold j hj])
  · intro i j k k' f hge hi _
    exact absurd (hw.committed_lt i k f (hcommitted i k f hi)) (Nat.not_lt.2 hge)
  · intro j hge hlt
    have hj : j = w.vmos.length := by
      simp only [length_append, length_singleton] at hlt
      omega
    rw [vmo_append, if_pos hj]
    exact ⟨hcow, hcom⟩

theorem trans (hn : n ≤ w.vmos.length) (h : Forks n w w') (h' : Forks n w' w'') :
    Forks n w w'' where
  length := h.length.trans h'.length
  next := h.next.trans h'.next
  wf := h'.wf
  size j hj := (h'.size j (hj.trans_le h.length)).trans (h.size j hj)
  cow j hj := (h'.cow j (hj.trans_le h.length)).trans (h.cow j hj)
  inherited j hj := (h'.inherited j (hj.trans_le h.length)).trans (h.inherited j hj)
  content j hj k := (h'.content j (hj.trans_le h.length) k).trans (h.content j hj k)
  fixed j hj hge := (h'.fixed j (hj.trans_le h.length) hge).trans (h.fixed j hj hge)
  fresh j k f hf := by
    rcases h'.fresh j k f hf with hf | hge
    · exact h.fresh j k f hf
    · exact .inr (h.next.trans hge)
  inj i j k k' f hge hi hj := by
    by_cases hf : w'.nextFrame ≤ f
    · exact h'.inj i j k k' f hf hi hj
    · exact h.inj i j k k' f hge ((h'.fresh i k f hi).resolve_right hf)
        ((h'.fresh j k' f hj).resolve_right hf)
  added j hge hlt := by
    by_cases hj : j < w'.vmos.length
    · rw [h'.fixed j hj (hn.trans hge)]
      exact h.added j hge hj
    · exact h'.added j (Nat.not_lt.1 hj) hlt

end Forks

end World

namespace VmMapping

variable {m m' : VmMapping}

theorem newCow_run (m : VmMapping) (w : World) : m.newCow w =
    match m.vmo.dup.unwrap with
    | .error e => .error e w
    | .ok _ =>
      match allocChildVmo m.vmo.id ⟨0, (w.vmo m.vmo.id).size⟩
          (ChildType.flags .cow (w.vmo m.vmo.id).flags {}) .cow w with
      | .ok id w' => .ok { m with vmo := { m.vmo with id }, mappedPages := ∅ } w'
      | .error e w' => .error e w' := by
  unfold newCow
  cases hdup : m.vmo.dup.unwrap with
  | error e => exact liftR_error_bind
  | ok parent =>
    obtain ⟨-, -, hparent⟩ := Result.bind_ok.1 (Result.unwrap_ok.1 hdup)
    obtain rfl := Result.pure_ok.1 hparent
    rw [liftR_ok_bind, get_bind]
    cases hr : allocChildVmo m.vmo.id ⟨0, (w.vmo m.vmo.id).size⟩
      (ChildType.flags .cow (w.vmo m.vmo.id).flags {}) .cow w with
    | ok id w' => exact bind_of_ok hr
    | error e w' => exact bind_of_error hr

/-- `m'` shows in `w'` what `m`, with one of the first `n` VMOs, showed in `w`: its VMO is new and
inherits a frame for every page, with the contents of that page. -/
structure CopyOf (n : ℕ) (w w' : World) (m m' : VmMapping) : Prop where
  old : m.vmo.id < n
  eq : m' = { m with vmo := { m.vmo with id := m'.vmo.id }, mappedPages := ∅ }
  ge : w.vmos.length ≤ m'.vmo.id
  lt : m'.vmo.id < w'.vmos.length
  size : (w'.vmo m'.vmo.id).size = (w.vmo m.vmo.id).size
  dvd : pageSize ∣ (w.vmo m.vmo.id).size
  inherited : ∃ fs, (w'.vmo m'.vmo.id).inheritedPages = some fs ∧
    fs.length = (w.vmo m.vmo.id).size / pageSize
  content : ∀ k < (w.vmo m.vmo.id).size / pageSize,
    w'.pageContent m'.vmo.id k = w.pageContent m.vmo.id k

theorem newCow_ensures (hw : w.Wf) (hn : n ≤ w.vmos.length) (hid : m.vmo.id < n) :
    Ensures (Forks n) m.newCow w fun m' w' =>
      CopyOf n w w' m m' ∧ m'.vmo.id = w.vmos.length ∧ w'.vmos.length = w.vmos.length + 1 := by
  unfold Ensures
  rw [newCow_run]
  cases m.vmo.dup.unwrap with
  | error e => exact Forks.refl hw
  | ok _ =>
    have hadds := allocChildVmo_addsChild hw (hid.trans_le hn)
      ⟨0, (w.vmo m.vmo.id).size⟩ (ChildType.flags .cow (w.vmo m.vmo.id).flags {}) .cow
    generalize allocChildVmo m.vmo.id _ _ .cow w = r at hadds
    cases hadds with
    | error hpop => exact Forks.of_populate hw hid hpop
    | @ok w1 v fs hpop _ hdvd hfs hcow hsize hcom hinh =>
      have hlen := hpop.length
      have hvmo := vmo_append (w := w1) v
      have hself : ({ w1 with vmos := w1.vmos ++ [v] } : World).vmo w1.vmos.length = v := by
        rw [hvmo, if_pos rfl]
      simp only [Nat.zero_div, min_self, Nat.sub_zero] at hfs hsize
      have hlt : ∀ f ∈ fs, f < w1.nextFrame := fun f hf => by
        obtain ⟨_, -, hs⟩ := exists_mem_of_forall₂ hfs hf
        exact hs.lt
      have happ : Forks n w1 { w1 with vmos := w1.vmos ++ [v] } := by
        refine .of_append (hpop.toEvolve.wf hw) (by simpa using hcow) hcom fun fs' f h hf => ?_
        rw [hinh] at h
        cases h
        exact hlt f hf
      refine ⟨(Forks.of_populate hw hid hpop).trans hn happ,
        ⟨hid, rfl, hlen.ge, by simp, ?_, hdvd, ⟨fs, ?_, ?_⟩, fun k hk => ?_⟩, hlen, by simp [hlen]⟩
      · rw [hself, hsize]
      · rw [hself, hinh]
      · rw [← hfs.length_eq, length_range']
      · -- page `k` is served by the frame that the access to the parent returned
        have hk' : k < fs.length := by rwa [← hfs.length_eq, length_range']
        obtain ⟨k', hk'', hs⟩ := getElem?_of_forall₂ hfs (getElem?_eq_getElem hk')
        rw [getElem?_range' hk, Nat.zero_add, Nat.one_mul, Option.some.injEq] at hk''
        subst hk''
        rw [hs.content]
        unfold pageContent
        rw [hself, hcom, hinh, OrdMap.get?_empty]
        simp [getElem?_eq_getElem hk']

/-- A copy stays one when more is forked. -/
theorem CopyOf.forks (h : CopyOf n w w' m m') (hn : n ≤ w.vmos.length) (hf : Forks n w' w'') :
    CopyOf n w w'' m m' := by
  have hfixed := hf.fixed m'.vmo.id h.lt (hn.trans h.ge)
  refine ⟨h.old, h.eq, h.ge, h.lt.trans_le hf.length, hfixed ▸ h.size, h.dvd, hfixed ▸ h.inherited,
    fun k hk => ?_⟩
  rw [hf.content _ h.lt, h.content k hk]

/-- A copy made after something else was forked is a copy of what was there before. -/
theorem CopyOf.of_forks {w₀ : World} (h : CopyOf n w w' m m') (hn : n ≤ w₀.vmos.length)
    (hf : Forks n w₀ w) : CopyOf n w₀ w' m m' := by
  have hid := h.old.trans_le hn
  have hsize := hf.size m.vmo.id hid
  refine ⟨h.old, h.eq, hf.length.trans h.ge, h.lt, h.size.trans hsize, hsize ▸ h.dvd,
    hsize ▸ h.inherited, fun k hk => ?_⟩
  rw [← hf.content _ hid, h.content k (hsize ▸ hk)]

end VmMapping

namespace Vmar

variable {es : List (ℕ × VmMapping)}

/-- The VMOs that were added on the way from `w` to `w'`. -/
def addedIds (w w' : World) : List VmoId :=
  List.range' w.vmos.length (w'.vmos.length - w.vmos.length)

theorem addedIds_append (h : w.vmos.length ≤ w'.vmos.length)
    (h' : w'.vmos.length ≤ w''.vmos.length) :
    addedIds w w' ++ addedIds w' w'' = addedIds w w'' := by
  obtain ⟨a, ha⟩ := Nat.exists_eq_add_of_le h
  obtain ⟨b, hb⟩ := Nat.exists_eq_add_of_le h'
  rw [addedIds, addedIds, addedIds, hb, ha, Nat.add_sub_cancel_left, Nat.add_sub_cancel_left,
    Nat.add_assoc, Nat.add_sub_cancel_left, range'_append_1]

/-- The mappings `es'` are copies of `es`, each with a VMO of its own. -/
structure CopiesMappings (n : ℕ) (w w' : World) (es es' : List (ℕ × VmMapping)) : Prop where
  ids : es'.map (fun e => e.2.vmo.id) = addedIds w w'
  each : List.Forall₂ (fun e e' => e.1 = e'.1 ∧ CopyOf n w w' e.2 e'.2) es es'

theorem newCowMappings_ensures (hes : ∀ e ∈ es, e.2.vmo.id < n) (hw : w.Wf)
    (hn : n ≤ w.vmos.length) :
    Ensures (Forks n) (newCowMappings es) w fun es' w' => CopiesMappings n w w' es es' := by
  induction es generalizing w with
  | nil =>
    exact .pure (Forks.refl hw) ⟨by simp [addedIds], .nil⟩
  | cons e es ih =>
    have hid := hes e mem_cons_self
    refine .bind (·.trans hn) (newCow_ensures hw hn hid) fun m' w1 hf1 hm => ?_
    obtain ⟨hcopy, hidm, hlen⟩ := hm
    have hn1 := hn.trans hf1.length
    have hes' : ∀ e ∈ es, e.2.vmo.id < n := fun e he => hes e (mem_cons_of_mem _ he)
    refine .bind (·.trans hn1) (ih hes' hf1.wf hn1) fun es' w2 hf2 hcs => ?_
    refine .pure (Forks.refl hf2.wf) ⟨?_, .cons ⟨rfl, hcopy.forks hn hf2⟩ ?_⟩
    · have hfirst : addedIds w w1 = [m'.vmo.id] := by simp [addedIds, hidm, hlen]
      rw [map_cons, hcs.ids, ← addedIds_append hf1.length hf2.length, hfirst]
      rfl
    · exact hcs.each.imp fun e e' hc => ⟨hc.1, hc.2.of_forks hn hf1⟩

/-- The VMAR `c` is a copy of `v`: it finds a copy of the mapping that `v` finds. -/
structure Copies (n : ℕ) (w w' : World) (v c : Vmar) : Prop where
  size : c.size = v.size
  ids : c.vmoIds = addedIds w w'
  locate : ∀ {add msg offset len m o}, v.locate add msg offset len = .ok (m, o) →
    ∃ m', c.locate add msg offset len = .ok (m', o) ∧ CopyOf n w w' m m'

/-- The VMARs `cs'` are copies of `cs`. -/
structure CopiesChildren (n : ℕ) (w w' : World) (cs cs' : List (ℕ × Vmar)) : Prop where
  ids : ∀ base, (placementsInChildren base cs').map (fun p => p.1.vmo.id) = addedIds w w'
  none : ∀ {add msg start stop len}, locateInChild add msg cs start stop len = none →
    locateInChild add msg cs' start stop len = none
  some : ∀ {add msg start stop len m o},
    locateInChild add msg cs start stop len = some (.ok (m, o)) →
    ∃ m', locateInChild add msg cs' start stop len = some (.ok (m', o)) ∧
      CopyOf n w w' m m'

/-- Corresponding mappings are found by the same search. -/
theorem CopiesMappings.locate {es' : List (ℕ × VmMapping)} (h : CopiesMappings n w w' es es')
    {msg : String} {start stop o : ℕ} {m : VmMapping}
    (hm : locateInMappings msg es start stop = .ok (m, o)) :
    ∃ m', locateInMappings msg es' start stop = .ok (m', o) ∧ CopyOf n w w' m m' := by
  have hall := h.each
  clear h
  induction hall with
  | nil => cases hm
  | @cons e e' es es' he _ ih =>
    have hsize : e'.2.mapSize = e.2.mapSize := by rw [he.2.eq]
    rw [locateInMappings] at hm ⊢
    rw [hsize, ← he.1]
    split_ifs at hm ⊢ with hin
    · cases hm
      exact ⟨e'.2, rfl, he.2⟩
    · exact ih hm

theorem newCow_ensures (v : Vmar) : (∀ p ∈ v.placements, p.1.vmo.id < n) →
    ∀ {w : World}, w.Wf → n ≤ w.vmos.length →
      Ensures (Forks n) v.newCow w fun c w' => Copies n w w' v c := by
  revert v
  refine newCow.induct
    (fun v => (∀ p ∈ v.placements, p.1.vmo.id < n) → ∀ {w : World}, w.Wf → n ≤ w.vmos.length →
      Ensures (Forks n) v.newCow w fun c w' => Copies n w w' v c)
    (fun cs => (∀ e ∈ cs, ∀ p ∈ e.2.placements, p.1.vmo.id < n) → ∀ {w : World}, w.Wf →
      n ≤ w.vmos.length →
      Ensures (Forks n) (newCowChildren cs) w fun cs' w' => CopiesChildren n w w' cs cs')
    ?_ ?_ ?_
  · intro base size isDestroyed children mappings regions ih hv w hw hn
    simp only [placements, mem_append] at hv
    have hchildren : ∀ e ∈ children, ∀ p ∈ e.2.placements, p.1.vmo.id < n := fun e he p hp => by
      obtain ⟨z, hz⟩ := exists_placement_of_child base he hp
      exact hv (p.1, z) (.inl hz)
    have hmappings : ∀ e ∈ mappings, e.2.vmo.id < n := fun e he =>
      hv _ (.inr (mem_map.2 ⟨e, he, rfl⟩))
    refine .bind (·.trans hn) (ih hchildren hw hn) fun children' w1 hf1 hcs => ?_
    have hn1 := hn.trans hf1.length
    refine .bind (·.trans hn1) (newCowMappings_ensures hmappings hf1.wf hn1)
      fun es' w2 hf2 hes => ?_
    refine .pure (Forks.refl hf2.wf) ⟨rfl, ?_, fun h => ?_⟩
    · rw [vmoIds, placements, map_append, hcs.ids base, map_map,
        ← addedIds_append hf1.length hf2.length, ← hes.ids]
      rfl
    · obtain ⟨start, stop, hstart, hstop, h⟩ := locate_ok.1 h
      rcases h with hc | ⟨hc, hm⟩
      · obtain ⟨m', hm', hcopy⟩ := hcs.some hc
        exact ⟨m', locate_ok.2 ⟨start, stop, hstart, hstop, .inl hm'⟩, hcopy.forks hn hf2⟩
      · obtain ⟨m', hm', hcopy⟩ := hes.locate hm
        exact ⟨m', locate_ok.2 ⟨start, stop, hstart, hstop, .inr ⟨hcs.none hc, hm'⟩⟩,
          hcopy.of_forks hn hf1⟩
  · intro _ w hw _
    exact .pure (Forks.refl hw) ⟨by simp [addedIds, placementsInChildren], fun _ => rfl,
      by simp [locateInChild]⟩
  · intro k c cs ihc ihcs hcs w hw hn
    refine .bind (·.trans hn) (ihc (hcs _ mem_cons_self) hw hn) fun c' w1 hf1 hc => ?_
    have hn1 := hn.trans hf1.length
    have hcs' : ∀ e ∈ cs, ∀ p ∈ e.2.placements, p.1.vmo.id < n := fun e he =>
      hcs e (mem_cons_of_mem _ he)
    refine .bind (·.trans hn1) (ihcs hcs' hf1.wf hn1) fun cs' w2 hf2 hrest => ?_
    refine .pure (Forks.refl hf2.wf) ⟨fun base => ?_, fun h => ?_, fun h => ?_⟩
    · rw [placementsInChildren, map_append, hrest.ids base,
        ← addedIds_append hf1.length hf2.length, ← hc.ids, map_map]
      rfl
    · rw [locateInChild] at h ⊢
      rw [hc.size]
      split_ifs at h ⊢ with hin
      exact hrest.none h
    · rw [locateInChild] at h ⊢
      rw [hc.size]
      split_ifs at h ⊢ with hin
      · obtain ⟨m', hm', hcopy⟩ := hc.locate (Option.some.inj h)
        exact ⟨m', by rw [hm'], hcopy.forks hn hf2⟩
      · obtain ⟨m', hm', hcopy⟩ := hrest.some h
        exact ⟨m', hm', hcopy.of_forks hn hf1⟩

end Vmar

end Jinux
