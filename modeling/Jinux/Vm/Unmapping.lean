import Jinux.Kernel.Underflow
import Jinux.Vm.Trim

/-!
# What mapping and trimming do to the `VmSpace`

Unmapping takes pages out of the `VmSpace` and adds none (`VmSpace.Sub`).  Of the ways to trim a
mapping, covering it and cutting it on the right unmap the pages that are lost.  Cutting it on the
left does not: `trim_left` moves the start of the mapping first and computes the addresses of the
lost pages from the new start, which is a subtraction below zero for every one of them.  It succeeds
only when no lost page was ever mapped (`trimLeft_space`).

* `trimMapping_space` : after a trim that succeeds no lost page is mapped, unless the mapping was
  cut on the right and its size is not a multiple of the page size;
* `trimMapping_noUnderflow` : when a trim does not underflow.
-/

namespace Jinux

open Result List OrdMap World

namespace VmSpace

/-- Areas are pages, and the page table has entries for areas only. -/
structure Consistent (s : VmSpace) : Prop where
  page : ∀ x f, s.areas.get? x = some f → pageSize ∣ x
  pt : ∀ i pte, s.pt.get? i = some pte → ∃ x f, s.areas.get? x = some f ∧ ptIndex x = i

/-- `s'` is `s` with some pages unmapped. -/
structure Sub (s s' : VmSpace) : Prop where
  areas : ∀ x f, s'.areas.get? x = some f → s.areas.get? x = some f
  consistent : s.Consistent → s'.Consistent

variable {s s' s'' : VmSpace} {x : ℕ} {frame : FrameId} {perm : VmPerm}

theorem Sub.refl (s : VmSpace) : Sub s s := ⟨fun _ _ => id, id⟩

theorem Sub.trans (h : Sub s s') (h' : Sub s' s'') : Sub s s'' :=
  ⟨fun x f hx => h.areas x f (h'.areas x f hx), fun hc => h'.consistent (h.consistent hc)⟩

theorem Sub.none (h : Sub s s') (hx : s.areas.get? x = none) : s'.areas.get? x = none := by
  cases hget : s'.areas.get? x with
  | none => rfl
  | some f =>
    rw [h.areas x f hget] at hx
    cases hx

theorem isMapped_of_get? {f : FrameId} (h : s.areas.get? x = some f) : s.isMapped x = true := by
  refine any_eq_true.2 ⟨x, mem_map.2 ⟨_, mem_of_get? h, rfl⟩, ?_⟩
  simp [pageSize]

theorem get?_of_isMapped (hs : ∀ x f, s.areas.get? x = some f → pageSize ∣ x) (hx : pageSize ∣ x)
    (h : s.isMapped x = true) : ∃ f, s.areas.get? x = some f := by
  obtain ⟨start, hstart, hin⟩ := any_eq_true.1 h
  obtain ⟨e, he, rfl⟩ := mem_map.1 hstart
  obtain ⟨f, hf⟩ := exists_lookup he
  simp only [Bool.and_eq_true, decide_eq_true_iff] at hin
  have hdvd := hs _ f hf
  -- two pages closer than a page are the same
  have heq : x = e.1 := by
    unfold pageSize at *
    omega
  exact ⟨f, heq ▸ hf⟩

theorem unmapPage_ok (h : s.unmapPage x = .ok s') :
    s'.areas = s.areas.remove x ∧ s'.pt = s.pt.remove (ptIndex x) := by
  unfold unmapPage at h
  cases hget : s.areas.get? x with
  | none =>
    rw [hget] at h
    cases h
  | some f =>
    rw [hget] at h
    simp only [ptUnmap] at h
    split_ifs at h
    cases h
    exact ⟨rfl, rfl⟩

theorem sub_remove (ha : s'.areas = s.areas.remove x) (hp : s'.pt = s.pt.remove (ptIndex x)) :
    Sub s s' ∧ s'.areas.get? x = none := by
  have hareas : ∀ y f, s'.areas.get? y = some f → s.areas.get? y = some f :=
    fun y f hy => (of_get?_remove (ha ▸ hy)).2
  refine ⟨⟨hareas, fun hc => ⟨fun y f hy => hc.page y f (hareas y f hy), fun i pte hi => ?_⟩⟩,
    by rw [ha, get?_remove, if_pos rfl]⟩
  obtain ⟨hix, hi⟩ := of_get?_remove (hp ▸ hi)
  obtain ⟨y, f, hy, rfl⟩ := hc.pt i pte hi
  refine ⟨y, f, ?_, rfl⟩
  rw [ha, get?_remove, if_neg, hy]
  rintro rfl
  exact hix rfl

theorem unmap_ok (h : s.unmap x = .ok s') : Sub s s' ∧ s'.areas.get? x = none := by
  obtain ⟨-, -, h⟩ := bind_ok.1 h
  obtain ⟨ha, hp⟩ := unmapPage_ok h
  exact sub_remove ha hp

/-- Unmapping returns an error only where no area starts. -/
theorem get?_of_unmap_err {e : Error} (h : s.unmap x = .error (.err e)) :
    s.areas.get? x = none := by
  cases hget : s.areas.get? x with
  | none => rfl
  | some f =>
    simp only [unmap, assert, unmapPage, hget, ptUnmap] at h
    split_ifs at h <;> cases h

theorem unmap_noUnderflow (s : VmSpace) (x : ℕ) : NoUnderflow (s.unmap x) := by
  refine .bind (.assert _) fun _ _ => ?_
  unfold unmapPage
  cases s.areas.get? x with
  | none => exact .returnErrno _
  | some f =>
    refine .ite (fun _ => by simp [NoUnderflow]) fun _ => .ok _

theorem map_ok (h : s.map frame x perm = .ok s') :
    pageSize ∣ x ∧ s'.areas = s.areas.insert x frame ∧
      s'.pt = s.pt.insert (ptIndex x) ⟨frame, perm.toFlags⟩ := by
  obtain ⟨_, hal, h⟩ := bind_ok.1 h
  simp only [ptMap] at h
  split_ifs at h
  cases h
  exact ⟨Nat.dvd_of_mod_eq_zero (by simpa [isPageAligned] using hal), rfl, rfl⟩

theorem Consistent.map (hs : s.Consistent) (h : s.map frame x perm = .ok s') : s'.Consistent := by
  obtain ⟨hx, ha, hp⟩ := map_ok h
  refine ⟨ha ▸ forall_insert hs.page hx, fun i pte hi => ?_⟩
  rcases of_get?_insert (hp ▸ hi) with ⟨rfl, -⟩ | ⟨hix, hi⟩
  · exact ⟨x, frame, by rw [ha, get?_insert_self], rfl⟩
  · obtain ⟨y, f, hy, rfl⟩ := hs.pt i pte hi
    exact ⟨y, f, by rwa [ha, get?_insert_of_ne (ne_of_apply_ne ptIndex hix)], rfl⟩

theorem clear_sub (s : VmSpace) : Sub s s.clear := by
  refine ⟨nofun, fun hc => ⟨nofun, fun i pte hi => ?_⟩⟩
  change (s.pt.removeAll _).get? i = some pte at hi
  rw [get?_removeAll] at hi
  split_ifs at hi with hmem
  obtain ⟨x, f, hx, rfl⟩ := hc.pt i pte hi
  exact absurd (mem_map.2 ⟨x, mem_map.2 ⟨_, mem_of_get? hx, rfl⟩, rfl⟩) hmem

/-- What unmapping a page and clearing the whole space keep. -/
structure Closed (I : VmSpace → Prop) : Prop where
  unmapPage : ∀ s x s', I s → s.unmapPage x = .ok s' → I s'
  clear : ∀ s, I s → I s.clear

/-- Unmapping takes pages out of a space and adds none. -/
theorem closed_sub (s : VmSpace) : Closed (Sub s) where
  unmapPage _ _ _ hs h := hs.trans (sub_remove (unmapPage_ok h).1 (unmapPage_ok h).2).1
  clear s' hs := hs.trans (clear_sub s')

end VmSpace

namespace VmMapping

open VmSpace

variable {m m' : VmMapping} {s s' : VmSpace} {p p' p'' : VmMapping × VmSpace} {k x a : ℕ}
  {vaddr : ℕ} {mayDestroy : Bool} {ks : List ℕ}
  {f : VmMapping × VmSpace → ℕ → Result (VmMapping × VmSpace)} {range : Range}

/-! ### Single pages -/

/-- The address of a page, where it does not underflow. -/
def pageAddr (m : VmMapping) (pageIdx : ℕ) : ℕ := pageIdx * pageSize - m.vmoOffset + m.mapToAddr

/-- The page of an address. -/
def pageOf (m : VmMapping) (x : ℕ) : ℕ := m.offsetOf x / pageSize

theorem pageMapAddr_ok (h : m.pageMapAddr k = .ok a) : a = m.pageAddr k := by
  simp only [pageMapAddr, bind_ok, subUsize_ok, addUsize_ok] at h
  obtain ⟨_, ⟨-, rfl⟩, -, rfl⟩ := h
  rfl

theorem pageOf_mul (ha : m.Aligned) (hx : pageSize ∣ x) : m.pageOf x * pageSize = m.offsetOf x :=
  Nat.div_mul_cancel (Nat.dvd_add ha.offset (Nat.dvd_sub hx ha.addr))

theorem pageAddr_pageOf (ha : m.Aligned) (hx : pageSize ∣ x) (hle : m.mapToAddr ≤ x) :
    m.pageAddr (m.pageOf x) = x := by
  rw [pageAddr, pageOf_mul ha hx, offsetOf]
  omega

/-- What unmapping the pages `ks` of a mapping does. -/
structure Unmapped (p : VmMapping × VmSpace) (ks : List ℕ) (p' : VmMapping × VmSpace) : Prop where
  shape : SameShape p.1 p'.1
  sub : Sub p.2 p'.2
  gone : ∀ k ∈ ks, p'.2.areas.get? (p.1.pageAddr k) = none
  kept : ∀ i ∈ p.1.mappedPages, i ∉ ks → i ∈ p'.1.mappedPages

theorem SameShape.pageAddr (h : SameShape m m') (k : ℕ) : m'.pageAddr k = m.pageAddr k := by
  rw [VmMapping.pageAddr, VmMapping.pageAddr, h.vmoOffset, h.mapToAddr]

theorem unmapOnePage_space (h : unmapOnePage p k = .ok p') : Unmapped p [k] p' := by
  obtain ⟨m, s⟩ := p
  obtain ⟨hm, addr, haddr, hs⟩ := unmapOnePage_ok h
  obtain rfl := pageMapAddr_ok haddr
  have hspace : Sub s p'.2 ∧ p'.2.areas.get? (m.pageAddr k) = none := by
    split_ifs at hs with hmapped
    · exact unmap_ok hs
    · obtain rfl : s = p'.2 := Except.ok.inj hs
      refine ⟨Sub.refl _, ?_⟩
      cases hget : p'.2.areas.get? (m.pageAddr k) with
      | none => rfl
      | some f => exact absurd (isMapped_of_get? hget) hmapped
  refine ⟨hm ▸ ⟨rfl, rfl, rfl, rfl, rfl⟩, hspace.1, fun i hi => ?_, fun i hi hne => ?_⟩
  · rw [mem_singleton.1 hi]
    exact hspace.2
  · rw [hm]
    exact Finset.mem_erase.2 ⟨fun he => hne (mem_singleton.2 he), hi⟩

/-- An error of `unmap_one_page` says that the page is not mapped. -/
theorem ignoreErr_unmapOnePage_space (h : ignoreErr p (unmapOnePage p k) = .ok p') :
    Unmapped p [k] p' := by
  cases hone : unmapOnePage p k with
  | ok q =>
    rw [hone] at h
    cases h
    exact unmapOnePage_space hone
  | error e =>
    rw [hone] at h
    cases e with
    | panic e => cases h
    | err e =>
      cases h
      refine ⟨SameShape.refl _, Sub.refl _, fun i hi => ?_, fun _ hi _ => hi⟩
      rw [mem_singleton.1 hi]
      rcases bind_err.1 hone with haddr | ⟨addr, haddr, hone⟩
      · simp [pageMapAddr, bind_err] at haddr
      · obtain rfl := pageMapAddr_ok haddr
        split_ifs at hone
        · rcases bind_err.1 hone with hun | ⟨_, -, hone⟩
          · exact get?_of_unmap_err hun
          · cases hone
        · cases hone

/-- Mapping a page adds its address and nothing else. -/
theorem mapOnePage_space {cowChild isReadonly : Bool}
    (h : m.mapOnePage cowChild s k frame isReadonly = .ok (m', s')) :
    (s.Consistent → s'.Consistent) ∧
      ∀ x f, s'.areas.get? x = some f → x = m.pageAddr k ∨ s.areas.get? x = some f := by
  obtain ⟨-, addr, perm, s1, haddr, -, hs1, hs2⟩ := mapOnePage_ok h
  obtain rfl := pageMapAddr_ok haddr
  have hsub : Sub s s1 := by
    rcases hs1 with rfl | ⟨-, hun⟩
    · exact .refl s1
    · exact (unmap_ok hun).1
  refine ⟨fun hc => (hsub.consistent hc).map hs2, ?_⟩
  rw [(map_ok hs2).2.1]
  exact forall_insert (fun x f hx => Or.inr (hsub.areas x f hx)) (Or.inl rfl)

/-- The page of an address of the mapping starts in the mapping. -/
theorem pageAddr_mem (hx : x ∈ m.range) :
    m.pageAddr (m.pageOf x) ∈ m.range ∧ m.pageOf (m.pageAddr (m.pageOf x)) = m.pageOf x := by
  simp only [pageAddr, pageOf, offsetOf, VmMapping.range, Span.mem_mk, pageSize] at *
  omega

theorem Unmapped.nil (p : VmMapping × VmSpace) : Unmapped p [] p :=
  ⟨SameShape.refl _, Sub.refl _, nofun, fun _ hi _ => hi⟩

theorem Unmapped.append {ks' : List ℕ} (h : Unmapped p ks p') (h' : Unmapped p' ks' p'') :
    Unmapped p (ks ++ ks') p'' := by
  refine ⟨h.shape.trans h'.shape, h.sub.trans h'.sub, fun k hk => ?_, fun i hi hne => ?_⟩
  · rcases mem_append.1 hk with hk | hk
    · exact h'.sub.none (h.gone k hk)
    · exact h.shape.pageAddr k ▸ h'.gone k hk
  · rw [mem_append, not_or] at hne
    exact h'.kept i (h.kept i hi hne.1) hne.2

/-- A loop that unmaps one page after the other. -/
theorem foldlM_unmapped (hf : ∀ p k p', f p k = .ok p' → Unmapped p [k] p')
    (h : ks.foldlM f p = .ok p') : Unmapped p ks p' := by
  induction ks generalizing p p' with
  | nil =>
    cases h
    exact .nil p
  | cons k ks ih =>
    obtain ⟨p1, h1, h⟩ := bind_ok.1 h
    exact (hf p k p1 h1).append (ih h)

/-! ### What every operation keeps -/

section Closed

variable {I : VmSpace → Prop}

theorem unmapOnePage_closed (hI : Closed I) (h : unmapOnePage p k = .ok p') (hp : I p.2) :
    I p'.2 := by
  obtain ⟨-, addr, -, hs⟩ := unmapOnePage_ok h
  split_ifs at hs
  · obtain ⟨_, -, hun⟩ := bind_ok.1 hs
    exact hI.unmapPage _ _ _ hp hun
  · exact Except.ok.inj hs ▸ hp

theorem ignoreErr_closed (hI : Closed I) (h : ignoreErr p (unmapOnePage p k) = .ok p')
    (hp : I p.2) : I p'.2 := by
  cases hr : unmapOnePage p k with
  | ok p1 =>
    rw [hr] at h
    cases h
    exact unmapOnePage_closed hI hr hp
  | error e =>
    rw [hr] at h
    cases e with
    | err e =>
      cases h
      exact hp
    | panic q => cases h

/-- A loop keeps what its rounds keep. -/
theorem foldlM_closed (hf : ∀ k p p', f p k = .ok p' → I p.2 → I p'.2) (h : ks.foldlM f p = .ok p')
    (hp : I p.2) : I p'.2 :=
  foldlM_invariant (P := fun _ p => I p.2) (fun k _ p p' hp hk => hf k p p' hk hp) hp h

theorem unmap_closed (hI : Closed I) (h : m.unmap s range mayDestroy = .ok p') (hs : I s) :
    I p'.2 := by
  obtain ⟨_, -, h⟩ := bind_ok.1 h
  obtain ⟨_, -, h⟩ := bind_ok.1 h
  obtain ⟨_, -, h⟩ := bind_ok.1 h
  obtain ⟨_, -, h⟩ := bind_ok.1 h
  obtain ⟨_, -, h⟩ := bind_ok.1 h
  obtain ⟨p1, hp1, h⟩ := bind_ok.1 h
  cases h
  have hp : I p1.2 := foldlM_closed (fun k p p' hk hp => unmapOnePage_closed hI hk hp) hp1 hs
  split_ifs <;> exact hp

theorem trimLeft_closed (hI : Closed I) (h : m.trimLeft s vaddr = .ok p') (hs : I s) : I p'.2 := by
  obtain ⟨_, -, h⟩ := bind_ok.1 h
  obtain ⟨_, -, h⟩ := bind_ok.1 h
  obtain ⟨_, -, h⟩ := bind_ok.1 h
  refine foldlM_closed (fun k p p' hk hp => ?_) h hs
  unfold trimLeftPage at hk
  simp only at hk
  split_ifs at hk
  · exact ignoreErr_closed hI hk hp
  · cases hk
    exact hp

theorem trimRight_closed (hI : Closed I) (h : m.trimRight s vaddr = .ok p') (hs : I s) :
    I p'.2 := by
  obtain ⟨_, -, h⟩ := bind_ok.1 h
  obtain ⟨_, -, h⟩ := bind_ok.1 h
  obtain ⟨_, -, h⟩ := bind_ok.1 h
  obtain ⟨_, -, h⟩ := bind_ok.1 h
  obtain ⟨p1, hp1, h⟩ := bind_ok.1 h
  cases h
  have hp : I p1.2 := foldlM_closed (fun k p p' hk hp => by
    exact ignoreErr_closed hI hk hp) hp1 hs
  exact hp

theorem trimMapping_closed (hI : Closed I) {r : Range} {t : Trimmed × VmSpace}
    (h : m.trimMapping s r = .ok t) (hs : I s) : I t.2 := by
  unfold trimMapping at h
  split_ifs at h
  · cases h
    exact hs
  · obtain ⟨p1, hp1, h⟩ := bind_ok.1 h
    cases h
    exact unmap_closed hI hp1 hs
  · obtain ⟨p1, hp1, h⟩ := bind_ok.1 h
    cases h
    exact trimLeft_closed hI hp1 hs
  · cases h
    exact hs
  · obtain ⟨m1, -, h⟩ := bind_ok.1 h
    obtain ⟨p1, hp1, h⟩ := bind_ok.1 h
    obtain ⟨p2, hp2, h⟩ := bind_ok.1 h
    cases h
    exact trimRight_closed hI hp2 (trimLeft_closed hI hp1 hs)
  · obtain ⟨p1, hp1, h⟩ := bind_ok.1 h
    cases h
    exact trimRight_closed hI hp1 hs

end Closed

/-! ### Ranges of pages -/

theorem unmap_space (h : m.unmap s range mayDestroy = .ok p) :
    m.mapToAddr ≤ range.start ∧ Sub s p.2 ∧
      ∀ k ∈ (⟨(range.start - m.mapToAddr + m.vmoOffset) / pageSize,
        (range.stop - m.mapToAddr + m.vmoOffset + (pageSize - 1)) / pageSize⟩ : Range),
        p.2.areas.get? (m.pageAddr k) = none := by
  simp only [unmap, bind_ok, subUsize_ok, addUsize_ok] at h
  obtain ⟨_, ⟨hle, rfl⟩, _, ⟨-, rfl⟩, _, ⟨-, rfl⟩, _, ⟨-, rfl⟩, idxs, hidxs, q, hq, h⟩ := h
  obtain rfl := getPageIdxRange_ok hidxs
  have hun := foldlM_unmapped (fun _ _ _ => unmapOnePage_space) hq
  cases h
  exact ⟨hle, hun.sub, fun k hk => hun.gone k (mem_pageIdxs.2 hk)⟩

theorem trimRight_space (h : m.trimRight s vaddr = .ok p) :
    Sub s p.2 ∧
      (∀ k ∈ (⟨(vaddr - m.mapToAddr + m.vmoOffset) / pageSize,
        (m.mapSize + m.vmoOffset) / pageSize⟩ : Range), p.2.areas.get? (m.pageAddr k) = none) ∧
      ∀ i ∈ m.mappedPages, i < (vaddr - m.mapToAddr + m.vmoOffset) / pageSize →
        i ∈ p.1.mappedPages := by
  simp only [trimRight, bind_ok, addUsize_ok] at h
  obtain ⟨-, -, -, -, _, ⟨-, rfl⟩, _, ⟨-, rfl⟩, q, hq, h⟩ := h
  have hround : ∀ p k p', trimRightPage p k = .ok p' → Unmapped p [k] p' := by
    intro p k p' h
    have hun := ignoreErr_unmapOnePage_space h
    have hs := (trimRightPage_ok h).1
    exact ⟨hs, hun.sub, hun.gone, hun.kept⟩
  have hun := foldlM_unmapped hround hq
  cases h
  refine ⟨hun.sub, fun k hk => hun.gone k (mem_pageIdxs.2 hk), fun i hi hlt => ?_⟩
  exact hun.kept i hi fun hk => absurd (mem_pageIdxs.1 hk).1 (not_le.2 hlt)

/-- A page below the start of the mapping cannot be unmapped. -/
theorem trimLeftPage_space (hlt : k * pageSize < p.1.vmoOffset) (h : trimLeftPage p k = .ok p') :
    k ∉ p.1.mappedPages ∧ p' = ({ p.1 with pagePerms := p.1.pagePerms.remove k }, p.2) := by
  simp only [trimLeftPage] at h
  split_ifs at h with hk
  · have hun : pageMapAddr { p.1 with
        pagePerms := p.1.pagePerms.remove k
        mappedPages := p.1.mappedPages.erase k } k = .error (.panic .subOverflow) := by
      simp only [pageMapAddr, subUsize, if_neg (not_le.2 hlt)]
      rfl
    simp only [unmapOnePage, hun] at h
    cases h
  · cases h
    exact ⟨hk, rfl⟩

/-- **`trim_left` unmaps nothing**: it succeeds only if no page below the new start is mapped. -/
theorem trimLeft_space (h : m.trimLeft s vaddr = .ok p) :
    pageSize ∣ vaddr ∧ p.2 = s ∧ p.1.mappedPages = m.mappedPages ∧
      ∀ k ∈ (⟨m.vmoOffset / pageSize, m.offsetOf vaddr / pageSize⟩ : Range), k ∉ m.mappedPages := by
  simp only [trimLeft, bind_ok, debugAssert_ok, addUsize_ok] at h
  obtain ⟨-, -, -, hal, _, ⟨-, rfl⟩, h⟩ := h
  have hloop : ∀ (ks : List ℕ) {p p' : VmMapping × VmSpace}, ks.foldlM trimLeftPage p = .ok p' →
      (∀ k ∈ ks, k * pageSize < p.1.vmoOffset) →
      p'.2 = p.2 ∧ p'.1.mappedPages = p.1.mappedPages ∧ ∀ k ∈ ks, k ∉ p.1.mappedPages := by
    intro ks
    induction ks with
    | nil =>
      intro p p' h _
      cases h
      exact ⟨rfl, rfl, nofun⟩
    | cons k ks ih =>
      intro p p' h hlt
      obtain ⟨p1, h1, h⟩ := bind_ok.1 h
      obtain ⟨hk, rfl⟩ := trimLeftPage_space (hlt k mem_cons_self) h1
      obtain ⟨hs, hpages, hks⟩ := ih h fun i hi => hlt i (mem_cons_of_mem _ hi)
      exact ⟨hs, hpages, forall_mem_cons.2 ⟨hk, hks⟩⟩
  obtain ⟨hs, hpages, hks⟩ := hloop _ h fun k hk => by
    have hlt := (mem_pageIdxs.1 hk).2
    simp only [pageSize] at hlt ⊢
    omega
  exact ⟨Nat.dvd_of_mod_eq_zero hal, hs, hpages, fun k hk => hks k (mem_pageIdxs.2 hk)⟩

/-! ### Trimming -/

/-- The range can be cut out of the mapping without a trace: a range that covers the mapping starts
with it, a cut that leaves something behind has no mapped page in front of its end, and a mapping
that is cut on the right has a whole number of pages. -/
def CutsCleanly (m : VmMapping) (r : Range) : Prop :=
  m.range.Apart r ∨
    if r.start ≤ m.mapToAddr ∧ m.mapToAddr + m.mapSize ≤ r.stop then r.start = m.mapToAddr
    else if r.stop ≤ m.mapToAddr + m.mapSize then
      ∀ i ∈ m.mappedPages, m.offsetOf r.stop ≤ i * pageSize
    else pageSize ∣ m.mapSize

instance (m : VmMapping) (r : Range) : Decidable (m.CutsCleanly r) := by
  unfold CutsCleanly
  infer_instance

/-- The page of an address of a piece. -/
theorem Piece.pageOf {b : ℕ} (h : Piece m m' a b) (hx : x ∈ m'.range) :
    m'.pageOf x = m.pageOf x := by
  rw [VmMapping.pageOf, VmMapping.pageOf,
    offsetOf_eq h.mapToAddr h.start h.offset (h.mapToAddr ▸ hx.1)]

/-- No page in front of a cut was mapped, if the cut on the left succeeded. -/
theorem not_mem_of_trimLeft (ha : m.Aligned) (h : m.trimLeft s vaddr = .ok p)
    (hx : pageSize ∣ x) (hle : m.mapToAddr ≤ x) (hlt : x < vaddr) : m.pageOf x ∉ m.mappedPages := by
  obtain ⟨hdvd, -, -, hnot⟩ := trimLeft_space h
  refine hnot _ ⟨Nat.div_le_div_right (Nat.le_add_right _ _), ?_⟩
  have hmul := pageOf_mul ha hx
  have hoff : m.offsetOf x < m.offsetOf vaddr := Nat.add_lt_add_left (by omega) _
  have hal : pageSize ∣ m.offsetOf vaddr := Nat.dvd_add ha.offset (Nat.dvd_sub hdvd ha.addr)
  simp only [pageSize] at *
  omega

/-- What a trim has done to the space: no page that was taken away is mapped, and the mapped pages
of what is left are still recorded. -/
structure TrimsSpace (m : VmMapping) (r : Range) (t : Trimmed) (s s' : VmSpace) : Prop where
  sub : Sub s s'
  gone : ∀ x, pageSize ∣ x → x ∈ m.range → x ∈ r → m.pageOf x ∈ m.mappedPages →
    s'.areas.get? x = none
  kept : ∀ k b, Rest m t k b → ∀ x, pageSize ∣ x → x ∈ b.range → m.pageOf x ∈ m.mappedPages →
    m.pageOf x ∈ b.mappedPages

variable {r : Range}

theorem trimsSpace_all (ha : m.Aligned) (hle : r.start ≤ m.mapToAddr)
    (h : m.unmap s r true = .ok p) : TrimsSpace m r { self := p.1, remove := true } s p.2 := by
  obtain ⟨hge, hsub, hgone⟩ := unmap_space h
  refine ⟨hsub, fun x hx hxm hxr _ => ?_, fun k b hr => ?_⟩
  · -- the pages unmapped are those of the range, which starts with the mapping
    have hmul := pageOf_mul ha hx
    have h1 := hxm.1
    have h2 := hxr.2
    rw [← pageAddr_pageOf ha hx hxm.1]
    refine hgone _ ⟨Nat.div_le_div_right ?_, ?_⟩
    · unfold offsetOf
      omega
    · unfold offsetOf at hmul
      simp only [VmMapping.range, pageSize] at *
      omega
  · cases hr with
    | kept h | appended h => cases h

theorem trimsSpace_left (ha : m.Aligned) (h : m.trimLeft s r.stop = .ok p) :
    TrimsSpace m r { self := p.1, remove := true, append := some p.1 } s p.2 := by
  obtain ⟨-, hs, hpages, -⟩ := trimLeft_space h
  refine ⟨hs ▸ Sub.refl s, fun x hx hxm hxr hmem => ?_, fun k b hr => ?_⟩
  · exact absurd hmem (not_mem_of_trimLeft ha h hx hxm.1 hxr.2)
  · cases hr with
    | kept h => cases h
    | appended h =>
      cases h
      rw [hpages]
      exact fun _ _ _ => id

theorem trimsSpace_middle (ha : m.Aligned) (hlt : r.start < r.stop)
    (h : m.trimLeft s r.stop = .ok p) (h' : m.trimRight p.2 r.start = .ok p') :
    TrimsSpace m r { self := p'.1, append := some p.1 } s p'.2 := by
  obtain ⟨-, hs, hpages, -⟩ := trimLeft_space h
  obtain ⟨hsub, -, -⟩ := trimRight_space h'
  refine ⟨hs ▸ hsub, fun x hx hxm hxr hmem => ?_, fun k b hr => ?_⟩
  · exact absurd hmem (not_mem_of_trimLeft ha h hx hxm.1 hxr.2)
  · cases hr with
    | kept _ =>
      intro x hx hxb hmem
      rw [(trimRight_ok h').range] at hxb
      exact absurd hmem (not_mem_of_trimLeft ha h hx hxb.1 (hxb.2.trans hlt))
    | appended h =>
      cases h
      rw [hpages]
      exact fun _ _ _ => id

theorem trimsSpace_right (ha : m.Aligned) (hsize : pageSize ∣ m.mapSize)
    (h : m.trimRight s r.start = .ok p) : TrimsSpace m r { self := p.1 } s p.2 := by
  obtain ⟨hsub, hgone, hkept⟩ := trimRight_space h
  have hdvd : pageSize ∣ r.start := by
    simp only [trimRight, bind_ok, debugAssert_ok] at h
    obtain ⟨-, -, -, hal, -⟩ := h
    exact Nat.dvd_of_mod_eq_zero hal
  obtain ⟨j, hj⟩ := ha.offset
  refine ⟨hsub, fun x hx hxm hxr _ => ?_, fun k b hr => ?_⟩
  · have hmul := pageOf_mul ha hx
    have h1 := hxr.1
    have h2 := hxm.1
    have h3 := hxm.2
    rw [← pageAddr_pageOf ha hx hxm.1]
    refine hgone _ ⟨Nat.div_le_div_right ?_, ?_⟩
    · unfold offsetOf
      omega
    · unfold offsetOf at hmul
      simp only [VmMapping.range, pageSize] at *
      omega
  · cases hr with
    | kept _ =>
      intro x hx hxb hmem
      rw [(trimRight_ok h).range] at hxb
      refine hkept _ hmem ?_
      have hmul := pageOf_mul ha hx
      have h1 := hxb.1
      have h2 := hxb.2
      unfold offsetOf at hmul
      simp only [pageSize] at *
      omega
    | appended h => cases h

/-- **No page that a clean cut takes away is still mapped.** -/
theorem trimMapping_space {t : Trimmed} (ha : m.Aligned) (hc : m.CutsCleanly r)
    (h : m.trimMapping s r = .ok (t, s')) : TrimsSpace m r t s s' := by
  unfold trimMapping at h
  split_ifs at h with hi hall hle hstop hstop
  · cases h
    have hap : m.range.Apart r := by
      by_contra hn
      rw [isIntersected_iff.2 hn] at hi
      cases hi
    refine ⟨Sub.refl s, fun x _ hx hxr => absurd hxr (Span.apart_iff.1 hap x hx), fun k b hr => ?_⟩
    cases hr with
    | kept _ => exact fun _ _ _ => id
    | appended h => cases h
  all_goals have hmeet : ¬ m.range.Apart r := isIntersected_iff.1 (by simpa using hi)
  · obtain ⟨p, hp, h⟩ := bind_ok.1 h
    cases h
    exact trimsSpace_all ha hall.1 hp
  · obtain ⟨p, hp, h⟩ := bind_ok.1 h
    cases h
    exact trimsSpace_left ha hp
  · -- unreachable: the range would cover the mapping
    exact absurd ⟨hle, le_of_lt (not_le.1 hstop)⟩ hall
  · obtain ⟨c, hcl, h⟩ := bind_ok.1 h
    obtain ⟨p, hp, h⟩ := bind_ok.1 h
    obtain ⟨q, hq, h⟩ := bind_ok.1 h
    cases h
    rw [tryClone_ok hcl] at hp
    exact trimsSpace_middle ha (start_lt_stop hmeet) hp hq
  · obtain ⟨q, hq, h⟩ := bind_ok.1 h
    cases h
    have hc' := hc.resolve_left hmeet
    rw [if_neg hall, if_neg (show ¬ r.stop ≤ m.mapToAddr + m.mapSize from hstop)] at hc'
    exact trimsSpace_right ha hc' hq

/-! ### Underflow -/

theorem unmapOnePage_noUnderflow (h : p.1.vmoOffset ≤ k * pageSize) :
    NoUnderflow (unmapOnePage p k) := by
  obtain ⟨m, s⟩ := p
  refine .bind (.bind (.subUsize h) fun _ _ => .addUsize _ _) fun addr _ => ?_
  exact .ite (fun _ => .bind (unmap_noUnderflow s addr) fun _ _ => .pure _) fun _ => .pure _

/-- Pages from the start of the mapping on are unmapped without underflow. -/
theorem le_mul_of_div_le {off : ℕ} (hoff : pageSize ∣ off) (hle : off ≤ a) (hk : a / pageSize ≤ k) :
    off ≤ k * pageSize := by
  simp only [pageSize] at *
  omega

theorem unmapRange_noUnderflow (ha : m.Aligned) (hstart : m.mapToAddr ≤ range.start)
    (hstop : m.mapToAddr ≤ range.stop) : NoUnderflow (m.unmap s range mayDestroy) := by
  refine .bind (.subUsize hstart) fun a ha' => .bind (.addUsize _ _) fun b hb =>
    .bind (.subUsize hstop) fun _ _ => .bind (.addUsize _ _) fun _ _ =>
    .bind (.getPageIdxRange _) fun idxs hidxs => .bind ?_ fun _ _ => .pure _
  obtain ⟨-, rfl⟩ := addUsize_ok.1 hb
  obtain rfl := getPageIdxRange_ok hidxs
  refine .foldlM (I := fun p => p.1.vmoOffset = m.vmoOffset) (fun p k hk hp => ⟨?_, ?_⟩) rfl
  · refine unmapOnePage_noUnderflow (hp ▸ le_mul_of_div_le ha.offset ?_ (mem_pageIdxs.1 hk).1)
    exact Nat.le_add_left _ _
  · exact fun p' h => (unmapOnePage_space h).shape.vmoOffset.trans hp

theorem trimRight_noUnderflow (ha : m.Aligned) : NoUnderflow (m.trimRight s vaddr) := by
  refine .bind (.debugAssert _) fun _ _ => .bind (.debugAssert _) fun _ _ =>
    .bind (.addUsize _ _) fun b hb => .bind (.addUsize _ _) fun _ _ => .bind ?_ fun _ _ => .pure _
  obtain ⟨-, rfl⟩ := addUsize_ok.1 hb
  refine .foldlM (I := fun p => p.1.vmoOffset = m.vmoOffset) (fun p k hk hp => ⟨?_, ?_⟩) rfl
  · refine .ignoreErr (unmapOnePage_noUnderflow ?_)
    exact hp ▸ le_mul_of_div_le ha.offset (Nat.le_add_left _ _) (mem_pageIdxs.1 hk).1
  · exact fun p' h => (trimRightPage_ok h).1.vmoOffset.trans hp

theorem trimLeft_noUnderflow (h : ∀ i ∈ m.mappedPages, m.offsetOf vaddr ≤ i * pageSize) :
    NoUnderflow (m.trimLeft s vaddr) := by
  refine .bind (.debugAssert _) fun _ _ => .bind (.debugAssert _) fun _ _ =>
    .bind (.addUsize _ _) fun b hb => ?_
  obtain ⟨-, rfl⟩ := addUsize_ok.1 hb
  refine .foldlM (I := fun p => p.1.mappedPages = m.mappedPages) (fun p k hk hp => ?_) rfl
  -- no page of the loop is mapped
  have hnot : k ∉ p.1.mappedPages := by
    intro hmem
    have hle := h k (hp ▸ hmem)
    have hlt := (mem_pageIdxs.1 hk).2
    unfold offsetOf at hle
    simp only [pageSize] at hle hlt
    omega
  have hround : trimLeftPage p k = .ok ({ p.1 with pagePerms := p.1.pagePerms.remove k }, p.2) := by
    simp [trimLeftPage, if_neg hnot]
  rw [hround]
  refine ⟨.ok _, fun p' h => ?_⟩
  cases h
  exact hp

/-- **A clean cut does not underflow.** -/
theorem trimMapping_noUnderflow (ha : m.Aligned) (hc : m.CutsCleanly r) :
    NoUnderflow (m.trimMapping s r) := by
  refine .ite (fun _ => .pure _) fun hi => ?_
  have hmeet : ¬ m.range.Apart r := isIntersected_iff.1 (by simpa using hi)
  have hc' := hc.resolve_left hmeet
  refine .ite (fun hall => ?_) fun hall => ?_
  · rw [if_pos hall] at hc'
    exact .bind (unmapRange_noUnderflow ha hc'.ge (hc' ▸ (start_lt_stop hmeet).le))
      fun _ _ => .pure _
  rw [if_neg hall] at hc'
  -- what is left of the mapping behind the range has no mapped page in front of it
  have hleft : r.stop ≤ m.mapToAddr + m.mapSize →
      ∀ i ∈ m.mappedPages, m.offsetOf r.stop ≤ i * pageSize :=
    fun hstop => by rwa [if_pos hstop] at hc'
  refine .ite (fun _ => .ite (fun hstop => ?_) fun _ => .pure _) fun _ =>
    .ite (fun hstop => ?_) fun _ => ?_
  · exact .bind (trimLeft_noUnderflow (hleft hstop)) fun _ _ => .pure _
  · refine .bind ?_ fun c hcl => .bind ?_ fun _ _ =>
      .bind (trimRight_noUnderflow ha) fun _ _ => .pure _
    · refine .bind ?_ fun _ _ => .pure _
      exact .bind (.ite (fun _ => .pure _) fun _ => .returnErrnoWithMessage _ _) fun _ _ => .pure _
    · rw [tryClone_ok hcl]
      exact trimLeft_noUnderflow (hleft hstop)
  · exact .bind (trimRight_noUnderflow ha) fun _ _ => .pure _

end VmMapping

end Jinux
