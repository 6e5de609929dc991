import Jinux.Vm.Vmar

/-!
# What trimming does to a mapping

`VmMapping.trimMapping` cuts a range out of a mapping.  `trimMapping_cases` lists its outcomes on
success: the mapping is left alone, removed, cut on the left, cut on the right, or cut in two.  Note
the fourth case of the list: a range that ends exactly at the end of the mapping counts as lying
inside it, and leaves an **empty** mapping behind the range.
-/

namespace Jinux

open Result Jinux.Span

namespace VmMapping

/-- The same piece of the same VMO at the same address. -/
structure SameShape (m m' : VmMapping) : Prop where
  vmo : m'.vmo = m.vmo
  vmoOffset : m'.vmoOffset = m.vmoOffset
  mapSize : m'.mapSize = m.mapSize
  mapToAddr : m'.mapToAddr = m.mapToAddr
  isDestroyed : m'.isDestroyed = m.isDestroyed

variable {m m' m'' : VmMapping} {s s' : VmSpace}

theorem SameShape.refl (m : VmMapping) : SameShape m m := ⟨rfl, rfl, rfl, rfl, rfl⟩

theorem SameShape.trans (h : SameShape m m') (h' : SameShape m' m'') : SameShape m m'' :=
  ⟨h'.vmo.trans h.vmo, h'.vmoOffset.trans h.vmoOffset, h'.mapSize.trans h.mapSize,
    h'.mapToAddr.trans h.mapToAddr, h'.isDestroyed.trans h.isDestroyed⟩

theorem SameShape.range (h : SameShape m m') : m'.range = m.range := by
  simp [VmMapping.range, h.mapToAddr, h.mapSize]

variable {p p' : VmMapping × VmSpace} {k vaddr a x : ℕ} {ks : List ℕ} {r : Range}

/-- Unmapping a page changes the mapped pages and the space only. -/
theorem unmapOnePage_ok (h : unmapOnePage p k = .ok p') :
    p'.1 = { p.1 with mappedPages := p.1.mappedPages.erase k } ∧ ∃ addr,
      p.1.pageMapAddr k = .ok addr ∧
        (if p.2.isMapped addr then p.2.unmap addr else pure p.2) = .ok p'.2 := by
  obtain ⟨addr, haddr, h⟩ := bind_ok.1 h
  split_ifs at h with hmapped
  · obtain ⟨s', hs', h⟩ := bind_ok.1 h
    cases h
    exact ⟨rfl, addr, haddr, (if_pos hmapped).trans hs'⟩
  · cases h
    exact ⟨rfl, addr, haddr, if_neg hmapped⟩

theorem ignoreErr_unmapOnePage (h : ignoreErr p (unmapOnePage p k) = .ok p') :
    SameShape p.1 p'.1 ∧ p'.1.pagePerms = p.1.pagePerms := by
  unfold ignoreErr at h
  split at h
  · cases h
    exact ⟨SameShape.refl _, rfl⟩
  · rw [(unmapOnePage_ok h).1]
    exact ⟨⟨rfl, rfl, rfl, rfl, rfl⟩, rfl⟩

/-- A round of either trimming loop forgets the permission of one page. -/
theorem trimLeftPage_ok (h : trimLeftPage p k = .ok p') :
    SameShape p.1 p'.1 ∧ p'.1.pagePerms = p.1.pagePerms.remove k := by
  simp only [trimLeftPage] at h
  split_ifs at h
  · obtain ⟨hs, hp⟩ := ignoreErr_unmapOnePage h
    exact ⟨⟨hs.vmo, hs.vmoOffset, hs.mapSize, hs.mapToAddr, hs.isDestroyed⟩, hp⟩
  · cases h
    exact ⟨⟨rfl, rfl, rfl, rfl, rfl⟩, rfl⟩

theorem trimRightPage_ok (h : trimRightPage p k = .ok p') :
    SameShape p.1 p'.1 ∧ p'.1.pagePerms = p.1.pagePerms.remove k := by
  obtain ⟨hs, hp⟩ := ignoreErr_unmapOnePage h
  exact ⟨⟨hs.vmo, hs.vmoOffset, hs.mapSize, hs.mapToAddr, hs.isDestroyed⟩, hp⟩

/-- A trimming loop forgets the permissions of the pages it visits. -/
theorem foldlM_forget {f : VmMapping × VmSpace → ℕ → Result (VmMapping × VmSpace)}
    (hf : ∀ p k p', f p k = .ok p' → SameShape p.1 p'.1 ∧ p'.1.pagePerms = p.1.pagePerms.remove k)
    (h : ks.foldlM f p = .ok p') : SameShape p.1 p'.1 ∧ p'.1.pagePerms =
    p.1.pagePerms.removeAll ks := by
  induction ks generalizing p with
  | nil =>
    cases h
    exact ⟨SameShape.refl _, rfl⟩
  | cons k ks ih =>
    obtain ⟨p1, h1, h⟩ := bind_ok.1 h
    obtain ⟨hs1, hp1⟩ := hf p k p1 h1
    obtain ⟨hs, hp⟩ := ih h
    refine ⟨hs1.trans hs, ?_⟩
    rw [hp, hp1]
    rfl

/-! ### Cutting on one side -/

/-- The mapping starts at a page of the address space and at a page of the VMO. -/
structure Aligned (m : VmMapping) : Prop where
  addr : pageSize ∣ m.mapToAddr
  offset : pageSize ∣ m.vmoOffset

/-- The offset in the VMO of the byte behind an address. -/
def offsetOf (m : VmMapping) (x : ℕ) : ℕ := m.vmoOffset + (x - m.mapToAddr)

/-- The permission of the page behind an address. -/
def permOf (m : VmMapping) (x : ℕ) : Option VmPerm := m.pagePerms.get? (m.offsetOf x / pageSize)

/-- `m'` is the part of `m` from address `a` up to address `b`: the VMO bytes stay where they were,
and so do the permissions of its pages. -/
structure Piece (m m' : VmMapping) (a b : ℕ) : Prop where
  vmo : m'.vmo = m.vmo
  range : m'.range = ⟨a, b⟩
  start : m.mapToAddr ≤ a
  le : a ≤ b
  stop : b ≤ m.mapToAddr + m.mapSize
  offset : m'.vmoOffset = m.vmoOffset + (a - m.mapToAddr)
  isDestroyed : m'.isDestroyed = m.isDestroyed
  aligned : m.Aligned → m'.Aligned
  perms : m.Aligned → ∀ x ∈ m'.range, m'.permOf x = m.permOf x

theorem Piece.mapToAddr {b : ℕ} (h : Piece m m' a b) : m'.mapToAddr = a :=
  congrArg Span.start h.range

theorem offsetOf_eq (haddr : m'.mapToAddr = a) (hle : m.mapToAddr ≤ a)
    (hoff : m'.vmoOffset = m.vmoOffset + (a - m.mapToAddr)) (hx : a ≤ x) :
    m'.offsetOf x = m.offsetOf x := by
  unfold offsetOf
  omega

/-- Permissions that a trimming loop does not forget stay. -/
theorem permOf_removeAll (hp : m'.pagePerms = m.pagePerms.removeAll ks)
    (hoff : m'.offsetOf x = m.offsetOf x) (hx : m.offsetOf x / pageSize ∉ ks) :
    m'.permOf x = m.permOf x := by
  rw [permOf, permOf, hp, hoff, OrdMap.get?_removeAll, if_neg hx]

theorem trimLeft_ok (h : m.trimLeft s vaddr = .ok p) :
    Piece m p.1 vaddr (m.mapToAddr + m.mapSize) := by
  simp only [trimLeft, bind_ok, debugAssert_ok, addUsize_ok] at h
  obtain ⟨-, ⟨hle, hge⟩, -, hal, off, ⟨-, rfl⟩, h⟩ := h
  obtain ⟨hs, hp⟩ := foldlM_forget (fun _ _ _ => trimLeftPage_ok) h
  have hrange : p.1.range = ⟨vaddr, m.mapToAddr + m.mapSize⟩ := by
    rw [hs.range]
    simp only [VmMapping.range, Span.mk.injEq, true_and]
    omega
  refine ⟨hs.vmo, hrange, hle, hge, le_rfl, hs.vmoOffset, hs.isDestroyed, fun ha => ?_,
    fun ha x hx => ?_⟩
  · have hv : pageSize ∣ vaddr := Nat.dvd_of_mod_eq_zero hal
    exact ⟨hs.mapToAddr ▸ hv, hs.vmoOffset ▸ Nat.dvd_add ha.offset (Nat.dvd_sub hv ha.addr)⟩
  · rw [hrange] at hx
    have hoff : p.1.offsetOf x = m.offsetOf x := offsetOf_eq hs.mapToAddr hle hs.vmoOffset hx.1
    refine permOf_removeAll hp hoff fun hmem => ?_
    -- the pages forgotten lie below the new start
    have hlt := (World.mem_pageIdxs.1 hmem).2
    refine absurd (Nat.div_le_div_right ?_) (not_le.2 hlt)
    exact Nat.add_le_add_left (Nat.sub_le_sub_right hx.1 _) _

theorem trimRight_ok (h : m.trimRight s vaddr = .ok p) : Piece m p.1 m.mapToAddr vaddr := by
  simp only [trimRight, bind_ok, debugAssert_ok, addUsize_ok] at h
  obtain ⟨-, ⟨hle, hge⟩, -, hal, off, ⟨-, rfl⟩, off', ⟨-, rfl⟩, q, hq, h⟩ := h
  obtain ⟨hs, hp⟩ := foldlM_forget (fun _ _ _ => trimRightPage_ok) hq
  cases h
  have hrange : ({ q.1 with mapSize := vaddr - q.1.mapToAddr } : VmMapping).range =
      ⟨m.mapToAddr, vaddr⟩ := by
    simp only [VmMapping.range, hs.mapToAddr, Span.mk.injEq, true_and]
    omega
  have hoffset : q.1.vmoOffset = m.vmoOffset + (m.mapToAddr - m.mapToAddr) := by
    rw [hs.vmoOffset, Nat.sub_self, Nat.add_zero]
  refine ⟨hs.vmo, hrange, le_rfl, hle, hge, hoffset, hs.isDestroyed, fun ha => ?_,
    fun ha x hx => ?_⟩
  · exact ⟨hs.mapToAddr ▸ ha.addr, hs.vmoOffset ▸ ha.offset⟩
  · rw [hrange] at hx
    refine permOf_removeAll hp (offsetOf_eq hs.mapToAddr le_rfl hoffset hx.1) fun hmem => ?_
    -- the first page forgotten starts at the new end
    have hge' := (World.mem_pageIdxs.1 hmem).1
    have hv : pageSize ∣ vaddr - m.mapToAddr + m.vmoOffset :=
      Nat.dvd_add (Nat.dvd_sub (Nat.dvd_of_mod_eq_zero hal) ha.addr) ha.offset
    have hlt : m.offsetOf x < vaddr - m.mapToAddr + m.vmoOffset := by
      have h1 := hx.1
      have h2 := hx.2
      simp only at h1 h2
      unfold offsetOf
      omega
    exact absurd hge' (not_le.2 ((Nat.div_lt_iff_lt_mul (by decide)).2
      ((Nat.div_mul_cancel hv).symm ▸ hlt)))

theorem isIntersected_iff {s : Range} : isIntersected r s = true ↔ ¬ r.Apart s := by
  rw [isIntersected, decide_eq_true_iff, Apart, not_le]

theorem start_lt_stop {s : Range} (h : ¬ r.Apart s) : s.start < s.stop :=
  (le_max_right _ _).trans_lt ((not_le.1 h).trans_le (min_le_right _ _))

theorem tryClone_ok (h : m.tryClone = .ok m') : m' = m := by
  simp only [tryClone, Vmo.dup, bind_ok, pure_ok] at h
  obtain ⟨v, ⟨-, -, rfl⟩, rfl⟩ := h
  rfl

/-- The outcomes of a successful `trimMapping`. -/
inductive TrimCase (m : VmMapping) (r : Range) : Trimmed → Prop
  /-- The range does not meet the mapping. -/
  | apart (h : m.range.Apart r) : TrimCase m r { self := m }
  /-- The range covers the mapping. -/
  | all {m' : VmMapping} (hmeet : ¬ m.range.Apart r) (hle : r.start ≤ m.mapToAddr)
      (hge : m.mapToAddr + m.mapSize ≤ r.stop) : TrimCase m r { self := m', remove := true }
  /-- The range covers the start of the mapping. -/
  | left {m' : VmMapping} (hmeet : ¬ m.range.Apart r) (hle : r.start ≤ m.mapToAddr)
      (hlt : r.stop < m.mapToAddr + m.mapSize)
      (hp : Piece m m' r.stop (m.mapToAddr + m.mapSize)) :
      TrimCase m r { self := m', remove := true, append := some m' }
  /-- The range starts inside the mapping and ends inside it or exactly at its end. -/
  | middle {m' another : VmMapping} (hmeet : ¬ m.range.Apart r) (hlt : m.mapToAddr < r.start)
      (hp : Piece m m' m.mapToAddr r.start)
      (hp' : Piece m another r.stop (m.mapToAddr + m.mapSize)) :
      TrimCase m r { self := m', append := some another }
  /-- The range starts inside the mapping and ends behind it. -/
  | right {m' : VmMapping} (hmeet : ¬ m.range.Apart r) (hlt : m.mapToAddr < r.start)
      (hgt : m.mapToAddr + m.mapSize < r.stop)
      (hp : Piece m m' m.mapToAddr r.start) : TrimCase m r { self := m' }

theorem trimMapping_cases {t : Trimmed} (h : m.trimMapping s r = .ok (t, s')) : TrimCase m r t := by
  unfold trimMapping at h
  split_ifs at h with hi hall hle hstop hstop
  · cases h
    refine .apart ?_
    by_contra hn
    rw [isIntersected_iff.2 hn] at hi
    cases hi
  all_goals have hmeet : ¬ m.range.Apart r := isIntersected_iff.1 (by simpa using hi)
  · obtain ⟨p, -, h⟩ := bind_ok.1 h
    cases h
    exact .all hmeet hall.1 hall.2
  · obtain ⟨p, hp, h⟩ := bind_ok.1 h
    cases h
    exact .left hmeet hle (not_le.1 fun hge => hall ⟨hle, hge⟩) (trimLeft_ok hp)
  · -- unreachable: the range would cover the mapping
    exact absurd ⟨hle, le_of_lt (not_le.1 hstop)⟩ hall
  · obtain ⟨c, hc, h⟩ := bind_ok.1 h
    obtain ⟨p, hp, h⟩ := bind_ok.1 h
    obtain ⟨q, hq, h⟩ := bind_ok.1 h
    cases h
    rw [tryClone_ok hc] at hp
    exact .middle hmeet (not_le.1 hle) (trimRight_ok hq) (trimLeft_ok hp)
  · obtain ⟨q, hq, h⟩ := bind_ok.1 h
    cases h
    exact .right hmeet (not_le.1 hle) (not_le.1 hstop) (trimRight_ok hq)

/-! ### The pieces of a trimmed mapping -/

/-- `m'` stays of `m` when `r` is cut out, under key `k`. -/
inductive Rest (m : VmMapping) (t : Trimmed) : ℕ → VmMapping → Prop
  | kept (h : t.remove = false) : Rest m t m.mapToAddr t.self
  | appended {m' : VmMapping} (h : t.append = some m') : Rest m t m'.mapToAddr m'

variable {t : Trimmed}

/-- A mapping that is left alone is all of itself. -/
theorem Piece.refl (m : VmMapping) : Piece m m m.mapToAddr (m.mapToAddr + m.mapSize) :=
  ⟨rfl, rfl, le_rfl, Nat.le_add_right _ _, le_rfl, by rw [Nat.sub_self, Nat.add_zero], rfl, id,
    fun _ _ _ => rfl⟩

variable (h : TrimCase m r t)

include h

/-- What stays is a piece on one side of the range, under its own start. -/
theorem TrimCase.rest_piece (hr : Rest m t k m') :
    ∃ b, Piece m m' k b ∧ (m.range.Apart r ∨ b ≤ r.start ∨ r.stop ≤ k) := by
  cases h with
  | apart hap =>
    cases hr with
    | kept _ => exact ⟨_, Piece.refl m, .inl hap⟩
    | appended h => cases h
  | all _ _ _ =>
    cases hr with
    | kept h | appended h => cases h
  | left _ _ _ hp =>
    cases hr with
    | kept h => cases h
    | appended h =>
      cases h
      exact ⟨_, hp.mapToAddr.symm ▸ hp, .inr (.inr hp.mapToAddr.ge)⟩
  | middle _ _ hp hp' =>
    cases hr with
    | kept _ => exact ⟨_, hp, .inr (.inl le_rfl)⟩
    | appended h =>
      cases h
      exact ⟨_, hp'.mapToAddr.symm ▸ hp', .inr (.inr hp'.mapToAddr.ge)⟩
  | right _ _ _ hp =>
    cases hr with
    | kept _ => exact ⟨_, hp, .inr (.inl le_rfl)⟩
    | appended h => cases h

/-- What stays lies in the mapping and outside the range, under its own start. -/
theorem TrimCase.rest_range (hr : Rest m t k m') :
    k = m'.mapToAddr ∧ ∀ a ∈ m'.range, a ∈ m.range ∧ a ∉ r := by
  obtain ⟨b, hp, hside⟩ := h.rest_piece hr
  refine ⟨hp.mapToAddr.symm, fun a ha => ?_⟩
  rw [hp.range] at ha
  have hm : a ∈ m.range := ⟨hp.start.trans ha.1, ha.2.trans_le hp.stop⟩
  refine ⟨hm, fun har => ?_⟩
  rcases hside with hap | hle | hle
  · exact apart_iff.1 hap a hm har
  · exact absurd har.1 (not_le.2 (ha.2.trans_le hle))
  · exact absurd har.2 (not_lt.2 (hle.trans ha.1))

/-- The pieces that stay of one mapping do not meet. -/
theorem TrimCase.rest_indep {k' : ℕ} (hr : Rest m t k m') (hr' : Rest m t k' m'')
    (ha : a ∈ m'.range) (ha' : a ∈ m''.range) : m' = m'' := by
  -- only a cut in two leaves two pieces, one below the range and one above it
  have apart : ∀ {c : VmMapping}, t.remove = false → t.append = some c → a ∈ t.self.range →
      a ∈ c.range → False := by
    intro c hrem happ hself hc
    cases h with
    | apart _ | right _ _ _ _ => cases happ
    | all _ _ _ | left _ _ _ _ => cases hrem
    | middle hmeet _ hp hp' =>
      cases happ
      rw [hp.range] at hself
      rw [hp'.range] at hc
      exact absurd (hself.2.trans ((start_lt_stop hmeet).trans_le hc.1)) (lt_irrefl a)
  cases hr with
  | kept h1 =>
    cases hr' with
    | kept _ => rfl
    | appended h2 => exact (apart h1 h2 ha ha').elim
  | appended h1 =>
    cases hr' with
    | kept h2 => exact (apart h2 h1 ha' ha).elim
    | appended h2 => exact Option.mem_unique h1 h2

/-- What is not cut out stays. -/
theorem TrimCase.exists_rest (hx : x ∈ m.range) (hr : x ∉ r) :
    ∃ k m', Rest m t k m' ∧ x ∈ m'.range := by
  have hin : m.mapToAddr ≤ x ∧ x < m.mapToAddr + m.mapSize := hx
  have hout : ¬ (r.start ≤ x ∧ x < r.stop) := hr
  cases h with
  | apart _ => exact ⟨_, _, .kept rfl, hx⟩
  | all _ hle hge => exact absurd ⟨hle.trans hin.1, hin.2.trans_le hge⟩ hr
  | left _ hle _ hp =>
    refine ⟨_, _, .appended rfl, ?_⟩
    rw [hp.range, mem_mk]
    omega
  | middle _ hlt hp hp' =>
    by_cases hxr : x < r.start
    · refine ⟨_, _, .kept rfl, ?_⟩
      rw [hp.range]
      exact ⟨hin.1, hxr⟩
    · refine ⟨_, _, .appended rfl, ?_⟩
      rw [hp'.range, mem_mk]
      omega
  | right _ hlt hgt hp =>
    refine ⟨_, _, .kept rfl, ?_⟩
    rw [hp.range, mem_mk]
    omega

/-- The range starts inside the mapping and ends exactly at its end. -/
def TailCut (m : VmMapping) (r : Range) : Prop :=
  m.mapToAddr < r.start ∧ r.start < m.mapToAddr + m.mapSize ∧ r.stop = m.mapToAddr + m.mapSize

instance (m : VmMapping) (r : Range) : Decidable (m.TailCut r) :=
  inferInstanceAs (Decidable (_ ∧ _))

/-- An appended mapping is empty only behind a tail that was cut off. -/
theorem TrimCase.tailCut_of_append (ha : t.append = some m')
    (hempty : m'.mapToAddr ∉ m'.range) : m.TailCut r ∧ m'.mapToAddr = r.stop := by
  cases h with
  | apart _ | all _ _ _ | right _ _ _ _ => cases ha
  | left _ _ hlt hp =>
    cases ha
    refine absurd ?_ hempty
    rw [hp.range, hp.mapToAddr]
    exact ⟨le_rfl, hlt⟩
  | middle hmeet hlt hp hp' =>
    cases ha
    rw [hp'.range, hp'.mapToAddr, mem_mk, not_and] at hempty
    have hlt' := (start_lt_stop hmeet).trans_le hp'.le
    exact ⟨⟨hlt, hlt', le_antisymm hp'.le (not_lt.1 (hempty le_rfl))⟩, hp'.mapToAddr⟩

/-- Cutting off the tail appends a mapping under the end of the range. -/
theorem TrimCase.append_of_tailCut (hm : m.TailCut r) :
    ∃ m', t.append = some m' ∧ m'.mapToAddr = r.stop := by
  obtain ⟨hlt, hin, hstop⟩ := hm
  cases h with
  | apart hap =>
    refine absurd ⟨le_rfl, hstop ▸ hin⟩ (apart_iff.1 hap r.start ⟨hlt.le, hin⟩)
  | all _ hle _ | left _ hle _ _ => exact absurd hle (not_le.2 hlt)
  | right _ _ hgt _ => exact absurd hstop hgt.ne'
  | middle _ _ _ hp' => exact ⟨_, rfl, hp'.mapToAddr⟩

/-- A mapping that the range does not meet is left alone. -/
theorem TrimCase.of_apart (hap : m.range.Apart r) : t = { self := m } := by
  cases h with
  | apart _ => rfl
  | all hmeet _ _ => exact absurd hap hmeet
  | left hmeet _ _ _ | middle hmeet _ _ _ | right hmeet _ _ _ => exact absurd hap hmeet

end VmMapping

end Jinux
