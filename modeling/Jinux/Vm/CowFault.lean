import Jinux.Vm.CowIsolation
import Jinux.Vm.Stale

/-!
# Writable pages of a copy-on-write mapping

A read fault on a copy-on-write child maps the frame of the parent without the write permission, so
that the first write faults again and copies the frame.  `protect` does not know about this: it puts
the new permission into the page table of every mapped page.

* `CowMapping` : a mapping of a copy-on-write child, with the memory and the `VmSpace`;
* `CowMapping.writable_own` : in every run whose `protect` calls give the write permission to copied
  pages only, a page that is mapped writable is a page of the child itself.
-/

namespace Jinux

open StateRules VmSpace Result OrdMap VmMapping World

variable {w w' : World} {k x : ℕ} {write cowChild isReadonly : Bool} {m m' : VmMapping}
  {s s' : VmSpace} {frame : FrameId} {ks : List ℕ}

/-! ### The page of a fault -/

namespace World

variable {id : VmoId} {f : FrameId}

theorem get?_commitNew (hid : id < w.vmos.length) (page : ℕ → UInt8) (j : ℕ) :
    ((w.commitNew id k page).vmo id).committedPages.get? j =
      if j = k then some w.nextFrame else (w.vmo id).committedPages.get? j := by
  rw [vmo_commitNew_self hid, get?_insert]

/-- What a page access does to the committed pages of a copy-on-write child: the page is one of them
afterwards, unless it is only read. -/
theorem getCommittedFrame_cow (hw : w.Wf) (hcow : (w.vmo id).isCow = true)
    (h : getCommittedFrame id k write w = .ok f w') :
    (∀ j ≠ k, (w'.vmo id).committedPages.get? j = (w.vmo id).committedPages.get? j) ∧
      ((w'.vmo id).committedPages.get? k = some f ∨
        write = false ∧ (w'.vmo id).committedPages.get? k = none) := by
  have hid := VmoTree.lt_length_of_cow hcow
  cases accessed hw hid h with
  | committed hc => exact ⟨fun _ _ => rfl, .inl hc⟩
  | shared hc _ _ hs => exact ⟨fun _ _ => rfl, .inr ⟨hs.resolve_left (by simp [hcow]), hc⟩⟩
  | commit =>
    exact ⟨fun j hj => by rw [get?_commitNew hid, if_neg hj],
      .inl (by rw [get?_commitNew hid, if_pos rfl])⟩
  | zeros hc _ _ _ hread => exact ⟨fun _ _ => rfl, .inr ⟨hread, hc⟩⟩

/-- A page access that fails commits nothing. -/
theorem getCommittedFrame_err {e : Fault} (hw : w.Wf) (hid : id < w.vmos.length)
    (h : getCommittedFrame id k write w = .error e w') : w'.vmo id = w.vmo id := by
  cases accessed hw hid h with
  | noMemory | missing => rfl

end World

namespace VmMapping

/-- The page-table entry that mapping a page makes. -/
theorem mapOnePage_pt (h : m.mapOnePage cowChild s k frame isReadonly = .ok (m', s')) :
    ∃ perm, m.pagePerms.get? k = some perm ∧ pageSize ∣ m.pageAddr k ∧
      ∀ i, s'.pt.get? i = if i = ptIndex (m.pageAddr k) then
        some ⟨frame, (if isReadonly then perm.subW else perm).toFlags⟩ else s.pt.get? i := by
  obtain ⟨-, addr, perm, s1, haddr, hperm, hs1, hs2⟩ := mapOnePage_ok h
  obtain rfl := pageMapAddr_ok haddr
  refine ⟨perm, hperm, (map_ok hs2).1, fun i => ?_⟩
  rw [(map_ok hs2).2.2, get?_insert]
  by_cases hi : i = ptIndex (m.pageAddr k)
  · rw [if_pos hi, if_pos hi]
  · rw [if_neg hi, if_neg hi]
    -- what was unmapped first was the entry of the same page
    rcases hs1 with rfl | ⟨-, hun⟩
    · rfl
    · obtain ⟨_, -, hun⟩ := bind_ok.1 hun
      rw [(unmapPage_ok hun).2, get?_remove, if_neg hi]

/-- The fields that place the mapping are the same. -/
structure Placed (m m' : VmMapping) : Prop where
  vmo : m'.vmo = m.vmo
  vmoOffset : m'.vmoOffset = m.vmoOffset
  mapSize : m'.mapSize = m.mapSize
  mapToAddr : m'.mapToAddr = m.mapToAddr

theorem Placed.trans {m'' : VmMapping} (h : Placed m m') (h' : Placed m' m'') : Placed m m'' :=
  ⟨h'.vmo.trans h.vmo, h'.vmoOffset.trans h.vmoOffset, h'.mapSize.trans h.mapSize,
    h'.mapToAddr.trans h.mapToAddr⟩

theorem Placed.range (h : Placed m m') : m'.range = m.range := by
  simp [VmMapping.range, h.mapToAddr, h.mapSize]

theorem Placed.pageAddr (h : Placed m m') (k : ℕ) : m'.pageAddr k = m.pageAddr k := by
  simp [VmMapping.pageAddr, h.mapToAddr, h.vmoOffset]

theorem Placed.pageOf (h : Placed m m') (x : ℕ) : m'.pageOf x = m.pageOf x := by
  simp [VmMapping.pageOf, offsetOf, h.mapToAddr, h.vmoOffset]

theorem foldlM_placed {f : VmMapping × VmSpace → ℕ → Result (VmMapping × VmSpace)}
    (hf : ∀ {p k p'}, f p k = .ok p' → Placed p.1 p'.1) :
    ∀ {p p' : VmMapping × VmSpace}, ks.foldlM f p = .ok p' → Placed p.1 p'.1 :=
  fun {p _} h => foldlM_invariant (P := fun _ p' => Placed p.1 p'.1)
    (fun _ _ _ _ hp hk => hp.trans (hf hk)) ⟨rfl, rfl, rfl, rfl⟩ h

/-- One round of `protect` writes the flags into the entry of the page, if there is one. -/
theorem protectPage_ok {perms : VmPerms} (h : protectPage perms (m, s) k = .ok (m', s')) :
    Placed m m' ∧ s'.areas = s.areas ∧ (s'.pt = s.pt ∨ s.isMapped (m.pageAddr k) = true ∧
      pageSize ∣ m.pageAddr k ∧ ∃ pte, s.pt.get? (ptIndex (m.pageAddr k)) = some pte ∧
        s'.pt =
          s.pt.insert (ptIndex (m.pageAddr k)) { pte with flags := perms.toVmPerm.toFlags }) := by
  obtain ⟨addr, haddr, h⟩ := bind_ok.1 h
  obtain rfl := pageMapAddr_ok haddr
  change (if s.isMapped (m.pageAddr k) then
    s.protect (m.pageAddr k) perms.toVmPerm >>= fun s => pure (_, s) else _) = _ at h
  split_ifs at h with hmapped
  · obtain ⟨s1, hs1, h⟩ := bind_ok.1 h
    cases h
    obtain ⟨_, hdvd, hs1⟩ := bind_ok.1 hs1
    rw [debugAssert_ok] at hdvd
    unfold ptProtect at hs1
    split_ifs at hs1
    cases hpte : s.pt.get? (ptIndex (m.pageAddr k)) with
    | none =>
      rw [hpte] at hs1
      cases hs1
    | some pte =>
      rw [hpte] at hs1
      cases hs1
      exact ⟨⟨rfl, rfl, rfl, rfl⟩, rfl, .inr ⟨hmapped, Nat.dvd_of_mod_eq_zero hdvd, pte, rfl, rfl⟩⟩
  · cases h
    exact ⟨⟨rfl, rfl, rfl, rfl⟩, rfl, .inl rfl⟩

/-- Unmapping adds no entry. -/
theorem closed_pt (s : VmSpace) :
    Closed fun s' => ∀ i pte, s'.pt.get? i = some pte → s.pt.get? i = some pte where
  unmapPage s₁ x s₂ hs h i pte hi :=
    hs i pte (of_get?_remove ((unmapPage_ok h).2 ▸ hi)).2
  clear s₁ hs i pte hi := by
    change (s₁.pt.removeAll _).get? i = some pte at hi
    rw [get?_removeAll] at hi
    split_ifs at hi
    exact hs i pte hi

end VmMapping

/-! ### Entries that fit their page -/

/-- An entry fits a page of a copy-on-write child: it has the frame that the child has committed, or
the child has committed none and the entry is not writable. -/
def Pte.Fits (committed : Option FrameId) (pte : Pte) : Prop :=
  match committed with
  | some f => pte.frame = f
  | none => pte.flags.writable = false

/-- Every entry for a page of the mapping fits. -/
def VmSpace.Fits (w : World) (m : VmMapping) (s : VmSpace) : Prop :=
  ∀ x ∈ m.range, pageSize ∣ x → ∀ pte, s.pt.get? (ptIndex x) = some pte →
    pte.Fits ((w.vmo m.vmo.id).committedPages.get? (m.pageOf x))

namespace VmMapping

/-- The mapping is placed in the address space of a user. -/
structure InUser (m : VmMapping) : Prop extends m.Aligned where
  le : m.mapToAddr + m.mapSize ≤ rootVmarHighestAddr

theorem InUser.mem (h : m.InUser) (hx : x ∈ m.range) : x ∈ Vmar.newRoot.range :=
  ⟨Nat.zero_le _, lt_of_lt_of_le hx.2 h.le⟩

theorem InUser.eq_of_ptIndex (h : m.InUser) {y : ℕ} (hx : x ∈ m.range) (hy : y ∈ m.range)
    (hdx : pageSize ∣ x) (hdy : pageSize ∣ y) (heq : ptIndex x = ptIndex y) : x = y :=
  AddrSpace.eq_of_ptIndex (h.mem hx) (h.mem hy) hdx hdy heq

theorem Placed.fits (h : Placed m m') (hs : s.Fits w m)
    (hpt : ∀ i pte, s'.pt.get? i = some pte → s.pt.get? i = some pte) : s'.Fits w m' := by
  intro x hx hdvd pte hpte
  rw [h.vmo, h.pageOf]
  exact hs x (h.range ▸ hx) hdvd pte (hpt _ pte hpte)

theorem Placed.inUser (h : Placed m m') (hm : m.InUser) : m'.InUser :=
  ⟨⟨h.mapToAddr ▸ hm.addr, h.vmoOffset ▸ hm.offset⟩, by rw [h.mapToAddr, h.mapSize]; exact hm.le⟩

variable {addr : ℕ} {perms : VmPerms} {r : Range} {p : VmMapping × VmSpace} {mayDestroy : Bool}
  {e : Error}

theorem pageOf_pageAddr (hk : m.vmoOffset ≤ k * pageSize) : m.pageOf (m.pageAddr k) = k := by
  rw [pageOf, offsetOf, pageAddr, Nat.add_sub_cancel, Nat.add_sub_cancel' hk]
  exact Nat.mul_div_cancel k (by decide)

theorem protectPage_fits (hm : m.InUser) (hs : s.Fits w m) (hk : m.vmoOffset ≤ k * pageSize)
    (hin : m.pageAddr k ∈ m.range) (hok : perms.write = true → s.isMapped (m.pageAddr k) = true →
      ((w.vmo m.vmo.id).committedPages.get? k).isSome = true)
    (h : protectPage perms (m, s) k = .ok (m', s')) : s'.Fits w m' := by
  obtain ⟨hplaced, -, hpt⟩ := protectPage_ok h
  rcases hpt with hpt | ⟨hmapped, hdvd, pte, hpte, hpt⟩
  · exact hplaced.fits hs fun i pte hi => hpt ▸ hi
  intro x hx hdx pte' hpte'
  rw [hplaced.range] at hx
  rw [hplaced.vmo, hplaced.pageOf]
  rw [hpt, get?_insert] at hpte'
  split_ifs at hpte' with hidx
  · -- the entry whose flags change belongs to page `k`
    obtain rfl := hm.eq_of_ptIndex hx hin hdx hdvd hidx
    have hfits := hs _ hin hdvd pte hpte
    rw [pageOf_pageAddr hk] at hfits ⊢
    cases hpte'
    cases hc : (w.vmo m.vmo.id).committedPages.get? k with
    | some f =>
      rw [hc] at hfits
      exact hfits
    | none =>
      rw [hc] at hok
      have hwrite : perms.write = false := by
        by_contra hne
        exact absurd (hok (by simpa using hne) hmapped) (by simp)
      simp [Pte.Fits, VmPerms.toVmPerm, hwrite]
  · exact hs x hx hdx pte' hpte'

/-- The loop of `protect`. -/
theorem foldlM_protectPage_fits (hm : m.InUser) (hs : s.Fits w m)
    (hks : ∀ k ∈ ks, m.vmoOffset ≤ k * pageSize ∧ m.pageAddr k ∈ m.range ∧
      (perms.write = true → s.isMapped (m.pageAddr k) = true →
        ((w.vmo m.vmo.id).committedPages.get? k).isSome = true))
    (h : ks.foldlM (protectPage perms) (m, s) = .ok (m', s')) : s'.Fits w m' := by
  induction ks generalizing m s with
  | nil =>
    cases h
    exact hs
  | cons k ks ih =>
    obtain ⟨⟨m1, s1⟩, h1, h⟩ := bind_ok.1 h
    obtain ⟨hk, hin, hok⟩ := hks k List.mem_cons_self
    obtain ⟨hplaced, hareas, -⟩ := protectPage_ok h1
    have hmapped : ∀ x, s1.isMapped x = s.isMapped x := fun x => by rw [isMapped, hareas, isMapped]
    refine ih (hplaced.inUser hm) (protectPage_fits hm hs hk hin hok h1) (fun j hj => ?_) h
    rw [hplaced.vmoOffset, hplaced.pageAddr, hplaced.range, hplaced.vmo, hmapped]
    exact hks j (List.mem_cons_of_mem k hj)

/-- The pages that `protect` visits lie in its range. -/
theorem pageAddr_mem_range (hm : m.Aligned) (hle : m.mapToAddr ≤ r.start)
    (hstart : pageSize ∣ r.start) (hstop : pageSize ∣ r.stop)
    (hk : k ∈ (⟨(r.start - m.mapToAddr + m.vmoOffset) / pageSize,
      (r.stop - m.mapToAddr + m.vmoOffset) / pageSize⟩ : Range)) :
    m.vmoOffset ≤ k * pageSize ∧ m.pageAddr k ∈ r ∧ pageSize ∣ m.pageAddr k := by
  obtain ⟨a, ha⟩ := hm.addr
  obtain ⟨b, hb⟩ := hm.offset
  simp only [Span.mem_def, pageAddr, pageSize] at *
  omega

theorem protect_placed (h : m.protect s perms r = .ok p) : Placed m p.1 := by
  simp only [protect, Result.bind_ok] at h
  obtain ⟨-, -, -, -, -, -, _, -, _, -, _, -, _, -, h⟩ := h
  exact foldlM_placed (fun h => (protectPage_ok h).1) h

theorem protect_fits (hm : m.InUser) (hs : s.Fits w m) (hstop : r.stop ≤ m.range.stop)
    (hok : perms.write = true → ∀ x ∈ r, pageSize ∣ x → s.isMapped x = true →
      ((w.vmo m.vmo.id).committedPages.get? (m.pageOf x)).isSome = true)
    (h : m.protect s perms r = .ok (m', s')) : s'.Fits w m' := by
  simp only [protect, Result.bind_ok, debugAssert_ok, subUsize_ok, addUsize_ok] at h
  obtain ⟨-, -, -, hdstart, -, hdstop, _, ⟨hle, rfl⟩, _, ⟨-, rfl⟩, _, ⟨-, rfl⟩, _, ⟨-, rfl⟩, h⟩ := h
  refine foldlM_protectPage_fits hm hs (fun k hk => ?_) h
  obtain ⟨hk', hin, hdvd⟩ := pageAddr_mem_range hm.toAligned hle (Nat.dvd_of_mod_eq_zero hdstart)
    (Nat.dvd_of_mod_eq_zero hdstop) (mem_pageIdxs.1 hk)
  refine ⟨hk', ⟨hle.trans hin.1, lt_of_lt_of_le hin.2 hstop⟩, fun hw hmapped => ?_⟩
  have := hok hw _ hin hdvd hmapped
  rwa [pageOf_pageAddr hk'] at this

theorem unmap_placed (h : m.unmap s r mayDestroy = .ok p) : Placed m p.1 := by
  simp only [unmap, Result.bind_ok] at h
  obtain ⟨_, -, _, -, _, -, _, -, _, -, ⟨m1, s1⟩, hfold, h⟩ := h
  cases h
  refine (foldlM_placed (fun h => (unmapOnePage_ok h).1 ▸ ⟨rfl, rfl, rfl, rfl⟩) hfold).trans ?_
  split_ifs <;> exact ⟨rfl, rfl, rfl, rfl⟩

theorem unmap_fits (hs : s.Fits w m) (h : m.unmap s r mayDestroy = .ok (m', s')) : s'.Fits w m':=
  (unmap_placed h).fits hs (unmap_closed (closed_pt s) h fun _ _ => id)

/-- A page fault that succeeds: the frame of the page is looked up and mapped. -/
theorem handlePageFault_ok (h : m.handlePageFault s addr write w = .ok p w') :
    ∃ frame, getCommittedFrame m.vmo.id ((m.vmoOffset + addr - m.mapToAddr) / pageSize)
        write w = .ok frame w' ∧
      m.mapOnePage (w'.vmo m.vmo.id).isCow s ((m.vmoOffset + addr - m.mapToAddr) / pageSize) frame
        ((w'.vmo m.vmo.id).isCow && !write) = .ok p := by
  obtain ⟨_, hadd, h⟩ := liftR_bind_ok.1 h
  obtain ⟨-, rfl⟩ := addUsize_ok.1 hadd
  obtain ⟨_, hsub, h⟩ := liftR_bind_ok.1 h
  obtain ⟨-, rfl⟩ := subUsize_ok.1 hsub
  rw [get_bind] at h
  by_cases hsz : (w.vmo m.vmo.id).size ≤ m.vmoOffset + addr - m.mapToAddr
  · rw [if_pos hsz] at h
    cases h
  rw [if_neg hsz] at h
  obtain ⟨_, -, h⟩ := liftR_bind_ok.1 h
  obtain ⟨_, -, h⟩ := liftR_bind_ok.1 h
  obtain ⟨frame, w1, hframe, h⟩ := bind_ok.1 h
  obtain ⟨hmap, rfl⟩ := liftR_ok.1 h
  exact ⟨frame, hframe, hmap⟩

/-- Mapping a page succeeds or panics. -/
theorem mapOnePage_ne_err : m.mapOnePage cowChild s k frame isReadonly ≠ .error (.err e) := by
  intro h
  rcases bind_err.1 h with h | ⟨addr, -, h⟩
  · simp [pageMapAddr, bind_err] at h
  rcases bind_err.1 h with h | ⟨perm, -, h⟩
  · exact unwrap_ne_err h
  rcases bind_err.1 h with h | ⟨_, -, h⟩
  · exact debugAssert_ne_err h
  rcases bind_err.1 h with h | ⟨s1, -, h⟩
  · split_ifs at h
    · exact Result.unwrap_ne_err h
    · cases h
  rcases bind_err.1 h with h | ⟨_, -, h⟩
  · rcases bind_err.1 h with h | ⟨_, -, h⟩
    · exact assert_ne_err h
    · unfold ptMap at h
      split_ifs at h <;> cases h
  · cases h

/-- A page fault that fails does so before it maps anything: in a check, or for lack of memory. -/
theorem handlePageFault_err (h : m.handlePageFault s addr write w = .error (.err e) w') :
    w' = w ∨ ∃ k, getCommittedFrame m.vmo.id k write w = .error (.err e) w' := by
  rcases liftR_bind_error.1 h with h | ⟨_, -, h⟩
  · exact .inl (liftR_error.1 h).2.symm
  rcases liftR_bind_error.1 h with h | ⟨vmoOffset, -, h⟩
  · exact .inl (liftR_error.1 h).2.symm
  rw [get_bind] at h
  by_cases hsz : (w.vmo m.vmo.id).size ≤ vmoOffset
  · rw [if_pos hsz] at h
    exact .inl (liftR_error.1 h).2.symm
  rw [if_neg hsz] at h
  rcases liftR_bind_error.1 h with h | ⟨_, -, h⟩
  · exact .inl (liftR_error.1 h).2.symm
  rcases liftR_bind_error.1 h with h | ⟨_, -, h⟩
  · exact .inl (liftR_error.1 h).2.symm
  rcases bind_error.1 h with h | ⟨frame, w1, hframe, h⟩
  · exact .inr ⟨_, h⟩
  exact absurd (liftR_error.1 h).1 mapOnePage_ne_err

theorem handlePageFault_placed (h : m.handlePageFault s addr write w = .ok p w') :
    Placed m p.1 := by
  obtain ⟨frame, -, hmap⟩ := handlePageFault_ok h
  exact (mapOnePage_ok hmap).1 ▸ ⟨rfl, rfl, rfl, rfl⟩

/-- A page fault populates pages of the VMO at most. -/
theorem handlePageFault_populate (hw : w.Wf) (hid : m.vmo.id < w.vmos.length) :
    (∀ p w', m.handlePageFault s addr write w = .ok p w' → Populate m.vmo.id w w') ∧
      ∀ e w', m.handlePageFault s addr write w = .error (.err e) w' →
        Populate m.vmo.id w w' := by
  refine ⟨fun p w' h => ?_, fun e w' h => ?_⟩
  · obtain ⟨frame, hframe, -⟩ := handlePageFault_ok h
    have hspec := getCommittedFrame_spec hw hid
      ((m.vmoOffset + addr - m.mapToAddr) / pageSize) write
    rw [hframe] at hspec
    exact hspec.1
  · rcases handlePageFault_err h with rfl | ⟨k, hframe⟩
    · exact Populate.refl hw _
    · have hspec := getCommittedFrame_spec hw hid k write
      rw [hframe] at hspec
      exact hspec.1

/-- A page fault on a copy-on-write child maps a page that fits. -/
theorem handlePageFault_fits (hw : w.Wf) (hcow : (w.vmo m.vmo.id).isCow = true) (hm : m.InUser)
    (hs : s.Fits w m) (hin : addr ∈ m.range)
    (h : m.handlePageFault s addr write w = .ok (m', s') w') : s'.Fits w' m' := by
  have hplaced := handlePageFault_placed h
  have hpop := (handlePageFault_populate hw (VmoTree.lt_length_of_cow hcow)).1 _ _ h
  obtain ⟨frame, hframe, hmap⟩ := handlePageFault_ok h
  have hpage : (m.vmoOffset + addr - m.mapToAddr) / pageSize = m.pageOf addr := by
    rw [pageOf, offsetOf, Nat.add_sub_assoc (show m.mapToAddr ≤ addr from hin.1)]
  rw [hpage] at hframe hmap
  rw [hpop.cow, hcow] at hmap
  obtain ⟨hother, hself⟩ := getCommittedFrame_cow hw hcow hframe
  obtain ⟨perm, -, hdvd, hpt⟩ := mapOnePage_pt hmap
  obtain ⟨hmem, hof⟩ := pageAddr_mem hin
  intro x hx hdx pte hpte
  rw [hplaced.range] at hx
  rw [hplaced.vmo, hplaced.pageOf]
  rw [hpt] at hpte
  by_cases hidx : ptIndex x = ptIndex (m.pageAddr (m.pageOf addr))
  · -- the page of the fault
    rw [if_pos hidx] at hpte
    obtain rfl := hm.eq_of_ptIndex hx hmem hdx hdvd hidx
    cases hpte
    rw [hof]
    rcases hself with hself | ⟨rfl, hself⟩
    · simp [Pte.Fits, hself]
    · simp [Pte.Fits, hself]
  · rw [if_neg hidx] at hpte
    have hne : m.pageOf x ≠ m.pageOf addr := by
      intro heq
      refine hidx (congrArg ptIndex ?_)
      rw [← heq, pageAddr_pageOf hm.toAligned hdx hx.1]
    rw [hother _ hne]
    exact hs x hx hdx pte hpte

end VmMapping

/-! ### Runs -/

/-- A mapping of a copy-on-write child in the address space of a user, with the memory and the
`VmSpace`. -/
structure CowMapping where
  world : World
  mapping : VmMapping
  space : VmSpace
  wf : world.Wf
  cow : (world.vmo mapping.vmo.id).isCow = true
  inUser : mapping.InUser

/-- What happens to a mapping. -/
inductive MappingOp where
  | fault (addr : ℕ) (write : Bool)
  | protect (perms : VmPerms) (range : Range)
  | unmap (range : Range) (mayDestroy : Bool)

/-- The VMAR passes on the faults at addresses of the mapping, and the part of a range that lies in
it. -/
def MappingOp.Within (m : VmMapping) : MappingOp → Prop
  | .fault addr _ => addr ∈ m.range
  | .protect _ range => range.stop ≤ m.range.stop
  | .unmap .. => True

instance (m : VmMapping) (op : MappingOp) : Decidable (op.Within m) :=
  match op with
  | .fault addr _ => inferInstanceAs (Decidable (addr ∈ m.range))
  | .protect _ range => inferInstanceAs (Decidable (range.stop ≤ m.range.stop))
  | .unmap .. => inferInstanceAs (Decidable True)

namespace CowMapping

/-- The state after an operation that keeps the place of the mapping. -/
def move (c : CowMapping) (w : World) (p : VmMapping × VmSpace)
    (hw : Populate c.mapping.vmo.id c.world w) (hp : VmMapping.Placed c.mapping p.1) :
    CowMapping where
  world := w
  mapping := p.1
  space := p.2
  wf := hw.toEvolve.wf c.wf
  cow := by rw [hp.vmo, hw.cow, c.cow]
  inUser := hp.inUser c.inUser

/-- The state after an operation; `none` for a panic.  A page fault that returns an error leaves the
mapping as it was, and what the other operations leave behind after an error is not followed. -/
def apply (c : CowMapping) : MappingOp → Option CowMapping
  | .fault addr write =>
    have hpop := handlePageFault_populate c.wf (VmoTree.lt_length_of_cow c.cow)
    match h : c.mapping.handlePageFault c.space addr write c.world with
    | .ok p w => some (c.move w p (hpop.1 p w h) (handlePageFault_placed h))
    | .error (.err e) w => some (c.move w (c.mapping, c.space) (hpop.2 e w h) ⟨rfl, rfl, rfl, rfl⟩)
    | .error (.panic _) _ => none
  | .protect perms range =>
    match h : c.mapping.protect c.space perms range with
    | .ok p => some (c.move c.world p (.refl c.wf _) (protect_placed h))
    | .error _ => none
  | .unmap range mayDestroy =>
    match h : c.mapping.unmap c.space range mayDestroy with
    | .ok p => some (c.move c.world p (.refl c.wf _) (unmap_placed h))
    | .error _ => none

/-- All runs of operations on the mapping. -/
def lts : Lts CowMapping MappingOp where
  step c op c' := op.Within c.mapping ∧ c.apply op = some c'

/-- No page of the mapping is mapped in the page table. -/
def Fresh (c : CowMapping) : Prop :=
  ∀ x ∈ c.mapping.range, pageSize ∣ x → c.space.pt.get? (ptIndex x) = none

/-- A page that is mapped writable has a frame of the child's own. -/
def OwnsWritable (c : CowMapping) : Prop :=
  ∀ x ∈ c.mapping.range, pageSize ∣ x → ∀ pte, c.space.pt.get? (ptIndex x) = some pte →
    pte.flags.writable = true →
      ∃ k, (c.world.vmo c.mapping.vmo.id).committedPages.get? k = some pte.frame

/-- The condition: `protect` gives the write permission to a mapped page only if the child has
copied the page. -/
def ProtectsCopied (c : CowMapping) : MappingOp → Prop
  | .protect perms range => perms.write = true → ∀ x ∈ range, pageSize ∣ x →
      c.space.isMapped x = true → c.world.pageCommited c.mapping.vmo.id (c.mapping.pageOf x) = true
  | _ => True

variable {c c' : CowMapping} {op : MappingOp}

theorem fits_apply (hin : op.Within c.mapping) (hok : c.ProtectsCopied op)
    (hs : c.space.Fits c.world c.mapping) (h : c.apply op = some c') :
    c'.space.Fits c'.world c'.mapping := by
  cases op with
  | fault addr write =>
    simp only [apply] at h
    split at h
    · rename_i p w hrun
      cases h
      exact handlePageFault_fits c.wf c.cow c.inUser hs hin hrun
    · rename_i e w hrun
      cases h
      -- nothing was committed, so every entry fits as before
      have hvmo : w.vmo c.mapping.vmo.id = c.world.vmo c.mapping.vmo.id := by
        rcases handlePageFault_err hrun with rfl | ⟨k, hframe⟩
        · rfl
        · exact getCommittedFrame_err c.wf (VmoTree.lt_length_of_cow c.cow) hframe
      intro x hx hdvd pte hpte
      exact hvmo ▸ hs x hx hdvd pte hpte
    · cases h
  | protect perms range =>
    simp only [apply] at h
    split at h
    · rename_i p hrun
      cases h
      exact protect_fits c.inUser hs hin hok hrun
    · cases h
  | unmap range mayDestroy =>
    simp only [apply] at h
    split at h
    · rename_i p hrun
      cases h
      exact unmap_fits hs hrun
    · cases h

/-- **A page that is mapped writable is the child's own**, in every state of every run in which
`protect` gives the write permission to copied pages only. -/
theorem writable_own (hc : c.Fresh) (hr : (lts.restrict ProtectsCopied).Reachable c c') :
    c'.OwnsWritable := by
  have hfits : c'.space.Fits c'.world c'.mapping := by
    refine hr.invariant (P := fun c => c.space.Fits c.world c.mapping) ?_ ?_
    · intro x hx hdvd pte hpte
      rw [hc x hx hdvd] at hpte
      cases hpte
    · exact fun c op c' hs hstep => fits_apply hstep.2.1 hstep.1 hs hstep.2.2
  intro x hx hdvd pte hpte hw
  have hpage := hfits x hx hdvd pte hpte
  cases hk : (c'.world.vmo c'.mapping.vmo.id).committedPages.get? (c'.mapping.pageOf x) with
  | some f =>
    rw [hk] at hpage
    exact ⟨_, hk.trans (congrArg some hpage.symm)⟩
  | none =>
    rw [hk] at hpage
    exact absurd hw (by simpa [Pte.Fits] using hpage)

/-- The state after an operation that does not panic. -/
def next (c : CowMapping) (op : MappingOp) : CowMapping := (c.apply op).getD c

theorem step_next (hin : op.Within c.mapping) (h : (c.apply op).isSome = true) :
    lts.step c op (c.next op) := by
  obtain ⟨c', hc'⟩ := Option.isSome_iff_exists.1 h
  exact ⟨hin, by rw [next, hc', Option.getD_some]⟩

/-- A read-only page at `0x201000`. -/
def readOnlyPage : VmMapping where
  vmo := ⟨1, .all⟩
  vmoOffset := 0
  mapSize := pageSize
  mapToAddr := 0x201000
  pagePerms := ⟨[(0, { r := true })]⟩

/-- A mapping of a child that inherited the frame of its one page. -/
def inheritedPage : CowMapping where
  world := ⟨fun _ _ => 0, 1, fun _ => false, [{ size := pageSize, committedPages := ⟨[(0, 0)]⟩ },
    { size := pageSize, inheritedPages := some [0], isCow := true }]⟩
  mapping := readOnlyPage
  space := {}
  wf := by
    refine ⟨fun id k f h => ?_, fun id fs f h hf => ?_⟩
    · rcases id with _ | _ | id
      · cases List.mem_singleton.1 (mem_of_get? h)
        exact Nat.one_pos
      · cases h
      · cases h
    · rcases id with _ | _ | id
      · cases h
      · cases h
        rw [List.mem_singleton.1 hf]
        exact Nat.one_pos
      · cases h
  cow := rfl
  inUser := ⟨⟨⟨0x201, rfl⟩, ⟨0, rfl⟩⟩, by decide⟩

/-- Give the page the read and the write permission. -/
def makeWritable : MappingOp := .protect { read := true, write := true } ⟨0x201000, 0x202000⟩

theorem protectsCopied_makeWritable (h : c.space.isMapped 0x201000 = true →
    c.world.pageCommited c.mapping.vmo.id (c.mapping.pageOf 0x201000) = true) :
    c.ProtectsCopied makeWritable := by
  intro _ x hx hdvd
  obtain rfl : x = 0x201000 := by
    obtain ⟨k, rfl⟩ := hdvd
    have h1 : 0x201000 ≤ pageSize * k := hx.1
    have h2 : pageSize * k < 0x202000 := hx.2
    unfold pageSize at *
    omega
  exact h

/-- The page is made writable before it is mapped, and a write fault copies it. -/
def copiedPage : CowMapping := (inheritedPage.next makeWritable).next (.fault 0x201000 true)

/-- A copied page may be made writable again. -/
theorem writable_own_copied :
    (copiedPage.next makeWritable).space.pt.get? (ptIndex 0x201000) =
        some ⟨1, VmPerm.toFlags { r := true, w := true }⟩ ∧
      (copiedPage.next makeWritable).OwnsWritable := by
  have h1 : lts.step inheritedPage makeWritable _ := step_next (by decide) (by decide +kernel)
  have h2 : lts.step (inheritedPage.next makeWritable) (.fault 0x201000 true) copiedPage :=
    step_next (by decide +kernel) (by decide +kernel)
  have h3 : lts.step copiedPage makeWritable _ := step_next (by decide +kernel) (by decide +kernel)
  have hok1 : inheritedPage.ProtectsCopied makeWritable :=
    protectsCopied_makeWritable (by decide +kernel)
  have hok3 : copiedPage.ProtectsCopied makeWritable :=
    protectsCopied_makeWritable (by decide +kernel)
  have hr : (lts.restrict ProtectsCopied).Reachable inheritedPage copiedPage :=
    .step (l := .fault 0x201000 true) (.step (.refl _) ⟨hok1, h1⟩) ⟨trivial, h2⟩
  exact ⟨by decide +kernel, writable_own (fun _ _ _ => rfl) (hr.step ⟨hok3, h3⟩)⟩

/-- A read fault maps the inherited frame. -/
def readPage : CowMapping := inheritedPage.next (.fault 0x201000 false)

/-- When a page has been read, making it writable lets the child write the frame of its parent. -/
theorem exists_writable_inherited : ∃ c c' : CowMapping, c.Fresh ∧ lts.Reachable c c' ∧
    ¬ c'.OwnsWritable := by
  have h1 : lts.step inheritedPage (.fault 0x201000 false) readPage :=
    step_next (by decide) (by decide +kernel)
  have h2 : lts.step readPage makeWritable (readPage.next makeWritable) :=
    step_next (by decide +kernel) (by decide +kernel)
  refine ⟨inheritedPage, _, fun _ _ _ => rfl, .step (.step (.refl _) h1) h2, fun h => ?_⟩
  obtain ⟨k, hk⟩ := h 0x201000 (by decide +kernel) ⟨0x201, rfl⟩
    ⟨0, VmPerm.toFlags { r := true, w := true }⟩ (by decide +kernel) rfl
  cases hk

end CowMapping

end Jinux
