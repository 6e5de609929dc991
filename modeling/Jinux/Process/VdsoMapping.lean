import Jinux.Process.ProgramLoader
import Jinux.Vm.RootVmo

/-!
# The vDSO of every process

`load_program_to_vm` maps one and the same VMO, the vDSO, into every address space.  The mapping is
not copy-on-write; its data page is readable and writable, and the VMO has all rights, so that
`mprotect` can make every page of it writable.

* `VdsoProcs` : processes that load, store, fault and change permissions, with the updates of the
  kernel;
* `VdsoProcs.reads_kernel_data` : **if no process stores to a page of the vDSO, then every process
  reads what the kernel has written**;
* `VdsoProcs.exists_store_seen` : a store of one process that another process reads.
-/

namespace Jinux

open StateRules VmSpace Vmar World VmMapping Function Option

variable {w w' : World} {d id : VmoId} {f : FrameId} {write : Bool} {flags : VmoFlags}
  {a : ByteStore} {m m' : VmMapping} {addr : ℕ}

/-! ### The memory access of a user program -/

/-- The frame that a user's access reaches; `none` is a page fault. -/
def VmSpace.translate (s : VmSpace) (addr : ℕ) (write : Bool) : Option FrameId :=
  match s.pt.get? (ptIndex addr) with
  | none => none
  | some pte =>
    if addr < 2 ^ 47 && pte.flags.present && pte.flags.user && (!write || pte.flags.writable) then
      some pte.frame
    else none

/-- A user program writes a byte of a frame. -/
def World.storeByte (w : World) (f : FrameId) (j : ℕ) (b : UInt8) : World :=
  w.setFrame f (overwrite (w.mem f) j [b])

/-! ### Frames of the vDSO and other frames -/

namespace World

variable {j : VmoId} {k : ℕ}

/-- A frame that has been allocated and is no page of the VMO `d`. -/
def Foreign (w : World) (d : VmoId) (f : FrameId) : Prop :=
  f < w.nextFrame ∧ ∀ k, (w.vmo d).committedPages.get? k ≠ some f

/-- `id` refers to no page of the VMO `d`. -/
def Apart (w : World) (d id : VmoId) : Prop := ∀ f, w.Refers id f → w.Foreign d f

theorem Foreign.grow (h : w.Foreign d f) (hg : Grow id w w') : w'.Foreign d f := by
  refine ⟨lt_of_lt_of_le h.1 hg.next, fun k hk => ?_⟩
  by_cases hd : d = id
  · subst hd
    rcases hg.fresh k f hk with hk | ⟨hge, -⟩
    · exact h.2 k hk
    · exact absurd h.1 (Nat.not_lt.2 hge)
  · rw [hg.other d hd] at hk
    exact h.2 k hk

/-- A fresh frame of another VMO. -/
theorem foreign_of_fresh (hw : w.Wf) (hg : Grow id w w') (hd : d ≠ id) (hge : w.nextFrame ≤ f)
    (hlt : f < w'.nextFrame) : w'.Foreign d f := by
  refine ⟨hlt, fun k hk => ?_⟩
  rw [hg.other d hd] at hk
  exact absurd (hw.committed_lt d k f hk) (Nat.not_lt.2 hge)

theorem Apart.grow (hw : w.Wf) (h : w.Apart d j) (hj : d ≠ j) (hg : Grow id w w') :
    w'.Apart d j := by
  intro f hf
  by_cases hji : j = id
  · subst hji
    rcases hf with ⟨k, hk⟩ | ⟨fs, hfs, hmem⟩
    · rcases hg.fresh k f hk with hk | ⟨hge, hlt⟩
      · exact (h f (.inl ⟨k, hk⟩)).grow hg
      · exact foreign_of_fresh hw hg hj hge hlt
    · rw [hg.inherited] at hfs
      exact (h f (.inr ⟨fs, hfs, hmem⟩)).grow hg
  · rw [Refers, hg.other j hji] at hf
    exact (h f hf).grow hg

/-- The frame of a page access is one that the VMO refers to, or a fresh one. -/
theorem refers_or_fresh (hw : w.Wf) (hid : id < w.vmos.length)
    (h : getCommittedFrame id k write w = .ok f w') : w.Refers id f ∨ w.nextFrame ≤ f := by
  cases accessed hw hid h with
  | committed hc => exact .inl (.inl ⟨k, hc⟩)
  | shared _ hi hf => exact .inl (.inr ⟨_, hi, List.mem_of_getElem? hf⟩)
  | commit | zeros => exact .inr le_rfl

/-- A page access to another VMO yields a frame that is none of `d`. -/
theorem foreign_getCommittedFrame (hw : w.Wf) (hid : id < w.vmos.length) (hd : d ≠ id)
    (hap : w.Apart d id) (h : getCommittedFrame id k write w = .ok f w') : w'.Foreign d f := by
  have hspec := getCommittedFrame_spec hw hid k write
  rw [h] at hspec
  rcases refers_or_fresh hw hid h with hr | hge
  · exact (hap f hr).grow hspec.1.toGrow
  · exact foreign_of_fresh hw hspec.1.toGrow hd hge hspec.2.1

end World

namespace RootVmo

theorem Holds.grow_other (h : Holds d flags a w) (hd : d ≠ id) (hg : Grow id w w') :
    Holds d flags a w' := by
  have hv := hg.other d hd
  refine ⟨hg.wf h.wf, hg.length ▸ h.lt, hv ▸ h.flags_eq, hv ▸ h.root, hv ▸ h.size_eq, h.dvd,
    h.bound, hv ▸ h.inj, fun k f hf j hj => ?_, hv ▸ h.zero⟩
  rw [hv] at hf
  rw [hg.mem f (h.wf.committed_lt d k f hf)]
  exact h.shown k f hf j hj

theorem Holds.storeByte (h : Holds d flags a w) (hf : w.Foreign d f) (j : ℕ) (b : UInt8) :
    Holds d flags a (w.storeByte f j b) := by
  refine ⟨⟨h.wf.committed_lt, h.wf.inherited_lt⟩, h.lt, h.flags_eq, h.root, h.size_eq, h.dvd,
    h.bound, h.inj, fun k g hg i hi => ?_, h.zero⟩
  have hne : g ≠ f := by
    rintro rfl
    exact hf.2 k hg
  change update w.mem f _ g i = _
  rw [update_of_ne hne]
  exact h.shown k g hg i hi

end RootVmo

/-! ### What every step does to the memory -/

namespace World

/-- The pages of `d` stay, and what is apart from them stays apart. -/
structure Carries (d : VmoId) (w w' : World) : Prop where
  foreign : ∀ f, w.Foreign d f → w'.Foreign d f
  keep : ∀ k f, (w.vmo d).committedPages.get? k = some f →
    (w'.vmo d).committedPages.get? k = some f
  apart : ∀ j, d ≠ j → w.Apart d j → w'.Apart d j

theorem Carries.refl (d : VmoId) (w : World) : Carries d w w :=
  ⟨fun _ h => h, fun _ _ h => h, fun _ _ h => h⟩

theorem Carries.of_grow (hw : w.Wf) (hg : Grow id w w') : Carries d w w' := by
  refine ⟨fun f hf => hf.grow hg, fun k f hk => ?_, fun j hj hap => hap.grow hw hj hg⟩
  by_cases hd : d = id
  · subst hd
    exact hg.keep k f hk
  · rw [hg.other d hd]
    exact hk

/-- A frame has been written, and nothing else is different. -/
theorem Carries.mem (h : Carries d w w') (mem : FrameId → ℕ → UInt8) :
    Carries d w { w' with mem } := ⟨h.foreign, h.keep, h.apart⟩

/-- The frame behind an address of a mapping: the page of the vDSO, or a foreign frame. -/
def Behind (w : World) (d : VmoId) (m : VmMapping) (addr : ℕ) (f : FrameId) : Prop :=
  m.vmo.id = d ∧ (w.vmo d).committedPages.get? (m.pageOf addr) = some f ∨
    m.vmo.id ≠ d ∧ w.Foreign d f

theorem Behind.carry (h : w.Behind d m addr f) (hc : Carries d w w') : w'.Behind d m addr f :=
  h.imp (fun h => ⟨h.1, hc.keep _ f h.2⟩) fun h => ⟨h.1, hc.foreign f h.2⟩

end World

namespace VmMapping

open RootVmo

variable {s s' : VmSpace}

/-- A page fault keeps the data of the vDSO, and maps a frame of the vDSO only for a mapping of the
vDSO. -/
theorem handlePageFault_behind (h : Holds d flags a w) (hap : m.vmo.id ≠ d → w.Apart d m.vmo.id)
    (ha : m.Aligned) (hle : m.mapToAddr ≤ addr)
    (hrun : m.handlePageFault s addr write w = .ok (m', s') w') :
    Holds d flags a w' ∧ Carries d w w' ∧ ∃ f, w'.Behind d m addr f ∧
      ∀ i pte, s'.pt.get? i = some pte →
        i = ptIndex addr ∧ pte.frame = f ∨ s.pt.get? i = some pte := by
  have hid : m.vmo.id < w.vmos.length := by
    by_contra hid
    exact (handlePageFault_missing hid).1 _ _ hrun
  have hgrow := ((handlePageFault_populate h.wf hid).1 _ _ hrun).toGrow
  obtain ⟨f, hframe, hmap⟩ := handlePageFault_ok hrun
  rw [Nat.add_sub_assoc hle, ← offsetOf, ← pageOf] at hframe hmap
  have hbehind : Holds d flags a w' ∧ w'.Behind d m addr f := by
    by_cases hd : m.vmo.id = d
    · subst hd
      have hc := getCommittedFrame_contract (m.pageOf addr) write w w ⟨h, .refl h.wf _⟩
      rw [hframe] at hc
      exact ⟨hc.1.1, .inl ⟨rfl, hc.2⟩⟩
    · exact ⟨h.grow_other (Ne.symm hd) hgrow,
        .inr ⟨hd, foreign_getCommittedFrame h.wf hid (Ne.symm hd) (hap hd) hframe⟩⟩
  refine ⟨hbehind.1, .of_grow h.wf hgrow, f, hbehind.2, fun i pte hpte => ?_⟩
  obtain ⟨perm, -, -, hpt⟩ := mapOnePage_pt hmap
  rw [hpt, (pageAddr_pageOf_eq ha hle).1, ptIndex_alignDownPage] at hpte
  by_cases hi : i = ptIndex addr
  · rw [if_pos hi] at hpte
    cases hpte
    exact .inl ⟨hi, rfl⟩
  · rw [if_neg hi] at hpte
    exact .inr hpte

theorem handlePageFault_refused (h : Holds d flags a w) {e : Error}
    (hrun : m.handlePageFault s addr write w = .error (.err e) w') :
    Holds d flags a w' ∧ Carries d w w' := by
  by_cases hid : m.vmo.id < w.vmos.length
  · have hgrow := ((handlePageFault_populate h.wf hid).2 _ _ hrun).toGrow
    refine ⟨?_, .of_grow h.wf hgrow⟩
    by_cases hd : m.vmo.id = d
    · subst hd
      rcases handlePageFault_err hrun with rfl | ⟨k, hframe⟩
      · exact h
      · have hc := getCommittedFrame_contract k write w w ⟨h, .refl h.wf _⟩
        rw [hframe] at hc
        exact hc.2.2
    · exact h.grow_other (Ne.symm hd) hgrow
  · obtain rfl := (handlePageFault_missing hid).2 _ _ hrun
    exact ⟨h, .refl d w'⟩

end VmMapping

/-! ### Processes -/

/-- The processes of a system, with the memory and with what the kernel has written to the vDSO. -/
structure VdsoProcs where
  world : World
  procs : ℕ → AddrSpace
  /-- What the kernel has written. -/
  data : ByteStore

/-- What happens. -/
inductive VdsoOp where
  /-- Process `i` reads a byte. -/
  | load (i addr : ℕ) (b : UInt8)
  /-- Process `i` writes a byte. -/
  | store (i addr : ℕ) (b : UInt8)
  /-- Process `i` has a page fault. -/
  | fault (i addr : ℕ) (write : Bool)
  /-- Process `i` calls `mprotect`. -/
  | protect (i : ℕ) (perms : VmPerms) (range : Range)
  | update (offset : ℕ) (buf : List UInt8)

namespace VdsoProcs

/-- Process `i` has changed. -/
def setProc (s : VdsoProcs) (i : ℕ) (a : AddrSpace) : VdsoProcs :=
  { s with procs := update s.procs i a }

/-- A step, where `d` is the VMO of the vDSO. -/
inductive Step (d : VmoId) : VdsoProcs → VdsoOp → VdsoProcs → Prop
  | load {s : VdsoProcs} {i addr : ℕ} {f : FrameId}
      (h : (s.procs i).space.translate addr false = some f) :
      Step d s (.load i addr (s.world.mem f (addr % pageSize))) s
  | store {s : VdsoProcs} {i addr : ℕ} {b : UInt8} {f : FrameId}
      (h : (s.procs i).space.translate addr true = some f) :
      Step d s (.store i addr b) { s with world := s.world.storeByte f (addr % pageSize) b }
  | fault {s : VdsoProcs} {i addr : ℕ} {write : Bool} {v : Vmar} {p : VmSpace} {w : World}
      (h : (s.procs i).vmar.handlePageFault (s.procs i).space addr write s.world = .ok (v, p) w) :
      Step d s (.fault i addr write) { s.setProc i ⟨v, p⟩ with world := w }
  | faultFailed {s : VdsoProcs} {i addr : ℕ} {write : Bool} {e : Error} {w : World}
      (h : (s.procs i).vmar.handlePageFault (s.procs i).space addr write s.world =
        .error (.err e) w) : Step d s (.fault i addr write) { s with world := w }
  | protect {s : VdsoProcs} {i : ℕ} {perms : VmPerms} {range : Range} {a : AddrSpace}
      {r : Result Unit} (h : (s.procs i).protect perms range = (a, r))
      (hr : ∀ e, r ≠ .error (.panic e)) : Step d s (.protect i perms range) (s.setProc i a)
  | update {s : VdsoProcs} {offset : ℕ} {buf : List UInt8} {w : World}
      (hb : offset + buf.length ≤ s.data.size)
      (h : writeBytes d offset buf s.world = .ok () w) :
      Step d s (.update offset buf) { s with world := w, data := s.data.write offset buf }

/-- All runs. -/
def lts (d : VmoId) : Lts VdsoProcs VdsoOp := ⟨Step d⟩

/-- The mapping `m` of the VMO is what process `i` has at the page of `addr`, and it has nothing
else there. -/
structure Sees (v : Vmar) (addr : ℕ) (m : VmMapping) : Prop where
  target : ∃ path key, v.faultTarget addr = .ok (path, key, m)
  only : ∀ y, alignDownPage y = alignDownPage addr → ∀ path key m',
    v.faultTarget y = .ok (path, key, m') → m'.bare = m.bare

/-- A store does not go to a page of the vDSO. -/
def KeepsOff (d : VmoId) (s : VdsoProcs) : VdsoOp → Prop
  | .store i addr _ => ∀ y, alignDownPage y = alignDownPage addr → ∀ path key m,
      (s.procs i).vmar.faultTarget y = .ok (path, key, m) → m.vmo.id ≠ d
  | _ => True

/-- The programs have been loaded: every process has the vDSO, and nothing else that it maps has
frames of the vDSO. -/
structure Initial (vdsoVmo : Vmo) (flags : VmoFlags) (s : VdsoProcs) : Prop where
  holds : RootVmo.Holds vdsoVmo.id flags s.data s.world
  loaded : ∀ i, Loaded vdsoVmo (s.procs i)
  apart : ∀ i addr path key m, (s.procs i).vmar.faultTarget addr = .ok (path, key, m) →
    m.vmo.id ≠ vdsoVmo.id → s.world.Apart vdsoVmo.id m.vmo.id

/-! ### The invariant -/

/-- What holds of every process. -/
structure Proc (d : VmoId) (w : World) (a : AddrSpace) : Prop where
  ordered : a.vmar.Everywhere Ordered
  range : a.vmar.range = newRoot.range
  apart : ∀ addr path key m, a.vmar.faultTarget addr = .ok (path, key, m) → m.vmo.id ≠ d →
    w.Apart d m.vmo.id
  /-- An entry of the page table has been made by a fault of a mapping. -/
  entry : ∀ i pte, a.space.pt.get? i = some pte → ∃ y path key m,
    a.vmar.faultTarget y = .ok (path, key, m) ∧ ptIndex y = i ∧ w.Behind d m y pte.frame

variable {a a' : AddrSpace} {y : ℕ}

theorem Proc.carry (h : Proc d w a) (hc : Carries d w w') : Proc d w' a where
  ordered := h.ordered
  range := h.range
  apart addr path key m ht hd := hc.apart _ (Ne.symm hd) (h.apart addr path key m ht hd)
  entry i pte hpte := by
    obtain ⟨y, path, key, m, ht, hy, hbehind⟩ := h.entry i pte hpte
    exact ⟨y, path, key, m, ht, hy, hbehind.carry hc⟩

theorem placed_of_bare (h : m'.bare = m.bare) : Placed m m' :=
  ⟨(congrArg VmMapping.vmo h :), (congrArg VmMapping.vmoOffset h :),
    (congrArg mapSize h :), (congrArg mapToAddr h :)⟩

theorem behind_bare (hb : m'.bare = m.bare) (h : w.Behind d m y f) : w.Behind d m' y f := by
  have hp := placed_of_bare hb
  have hpage : m'.pageOf y = m.pageOf y := by
    rw [pageOf, offsetOf, hp.vmoOffset, hp.mapToAddr]
    rfl
  rwa [Behind, hp.vmo, hpage]

/-- The search for the target of a fault sees the bare tree only. -/
theorem faultTarget_of_bare {v v' : Vmar} (hb : v'.bare = v.bare) {path : List ℕ} {key : ℕ}
    (ht : v.faultTarget y = .ok (path, key, m)) :
    ∃ m', v'.faultTarget y = .ok (path, key, m') ∧ m'.bare = m.bare := by
  have h := faultTarget_bare v y
  rw [← hb, faultTarget_bare, ht] at h
  cases ht' : v'.faultTarget y with
  | error e =>
    rw [ht'] at h
    cases h
  | ok t =>
    obtain ⟨path', key', m'⟩ := t
    rw [ht'] at h
    obtain ⟨rfl, h⟩ := Prod.mk.inj (Except.ok.inj h)
    obtain ⟨rfl, h⟩ := Prod.mk.inj h
    exact ⟨m', rfl, h⟩

/-- A process whose tree has changed in the flags of pages only. -/
theorem Proc.of_bare (h : Proc d w a) (hb : a'.vmar.bare = a.vmar.bare)
    (hentry : ∀ i pte, a'.space.pt.get? i = some pte → ∃ y path key m,
      a.vmar.faultTarget y = .ok (path, key, m) ∧ ptIndex y = i ∧ w.Behind d m y pte.frame) :
    Proc d w a' where
  ordered := h.ordered.of_bare hb
  range := (range_of_bare hb).trans h.range
  apart addr path key m ht hd := by
    obtain ⟨m0, ht0, hm0⟩ := faultTarget_of_bare hb.symm ht
    have hvmo := (placed_of_bare hm0).vmo
    exact hvmo ▸ h.apart addr path key m0 ht0 (hvmo ▸ hd)
  entry i pte hpte := by
    obtain ⟨y, path, key, m, ht, hy, hbehind⟩ := hentry i pte hpte
    obtain ⟨m', ht', hm'⟩ := faultTarget_of_bare hb ht
    exact ⟨y, path, key, m', ht', hy, behind_bare hm' hbehind⟩

/-- What holds in every state. -/
structure Inv (d : VmoId) (flags : VmoFlags) (s : VdsoProcs) : Prop where
  holds : RootVmo.Holds d flags s.data s.world
  procs : ∀ i, Proc d s.world (s.procs i)

theorem Initial.inv {vdsoVmo : Vmo} {s : VdsoProcs} (h : Initial vdsoVmo flags s) :
    Inv vdsoVmo.id flags s := by
  refine ⟨h.holds, fun i => ?_⟩
  have hf := (h.loaded i).fresh
  refine ⟨hf.ordered, hf.range, h.apart i, fun j pte hpte => ?_⟩
  rw [hf.empty j] at hpte
  cases hpte

variable {s s' : VdsoProcs} {i : ℕ}

theorem Inv.setProc (h : Inv d flags s) (ha : Proc d s.world a) : Inv d flags (s.setProc i a) := by
  refine ⟨h.holds, fun j => ?_⟩
  change Proc d s.world (update s.procs i a j)
  by_cases hj : j = i
  · subst hj
    rwa [update_self]
  · rw [update_of_ne hj]
    exact h.procs j

theorem Inv.world (h : Inv d flags s) (hd : RootVmo.Holds d flags s.data w)
    (hc : Carries d s.world w) : Inv d flags { s with world := w } :=
  ⟨hd, fun j => (h.procs j).carry hc⟩

/-- The entry behind an access that the page table allows. -/
theorem exists_of_translate {p : VmSpace} (h : p.translate addr write = some f) :
    ∃ pte, p.pt.get? (ptIndex addr) = some pte ∧ pte.frame = f ∧ addr < 2 ^ 47 := by
  unfold VmSpace.translate at h
  cases hpte : p.pt.get? (ptIndex addr) with
  | none =>
    rw [hpte] at h
    cases h
  | some pte =>
    simp only [hpte] at h
    split_ifs at h with hok
    simp only [Bool.and_eq_true, decide_eq_true_iff] at hok
    exact ⟨pte, rfl, some.inj h, hok.1.1.1⟩

/-- The mapping behind an access that the page table allows. -/
theorem Proc.access (h : Proc d w a) (ht : a.space.translate addr write = some f) : ∃ y path key m,
      a.vmar.faultTarget y = .ok (path, key, m) ∧ alignDownPage y = alignDownPage addr ∧
        w.Behind d m y f := by
  obtain ⟨pte, hpte, rfl, haddr⟩ := exists_of_translate ht
  obtain ⟨y, path, key, m, hy, hidx, hbehind⟩ := h.entry _ pte hpte
  refine ⟨y, path, key, m, hy, ?_, hbehind⟩
  have hlt := (faultTarget_placed h.ordered h.range hy).2.2
  simp only [ptIndex, alignDownPage, pageSize, rootVmarHighestAddr] at *
  omega

theorem Inv.step {op : VdsoOp} (h : Inv d flags s) (hok : KeepsOff d s op)
    (hs : (lts d).step s op s') : Inv d flags s' := by
  cases hs with
  | load => exact h
  | @store i addr b f ht =>
    obtain ⟨y, path, key, m, hy, halign, hbehind⟩ := (h.procs i).access ht
    rcases hbehind with ⟨hd, -⟩ | ⟨-, hf⟩
    · exact absurd hd (hok y halign path key m hy)
    · exact h.world (h.holds.storeByte hf _ b) ((Carries.refl d s.world).mem _)
  | @fault i addr write v p w hrun =>
    have hi := h.procs i
    have hbare := handlePageFault_bare hi.ordered hrun
    obtain ⟨path, key, m, m', ht, hm, -⟩ := handlePageFault_ok hrun
    obtain ⟨ha, hle, -⟩ := faultTarget_placed hi.ordered hi.range ht
    obtain ⟨hholds, hc, f, hbehind, hpt⟩ :=
      handlePageFault_behind h.holds (hi.apart addr path key m ht) ha hle hm
    refine Inv.setProc (h.world hholds hc) ((hi.carry hc).of_bare hbare fun j pte hpte => ?_)
    rcases hpt j pte hpte with ⟨rfl, rfl⟩ | hpte
    · exact ⟨addr, path, key, m, ht, rfl, hbehind⟩
    · exact (hi.carry hc).entry j pte hpte
  | @faultFailed i addr write e w hrun =>
    rcases handlePageFault_err hrun with rfl | ⟨path, key, m, -, hm⟩
    · exact h
    · obtain ⟨hholds, hc⟩ := handlePageFault_refused h.holds hm
      exact h.world hholds hc
  | @protect i perms range a r hrun hr =>
    obtain ⟨hbare, hflags⟩ :=
      @protect_reflags perms (s.procs i).vmar (s.procs i).space range
    obtain ⟨rfl, -⟩ := Prod.mk.inj hrun
    refine h.setProc ((h.procs i).of_bare hbare fun j pte hpte => ?_)
    have hframe := hflags.frame j
    rw [show _ = some pte from hpte] at hframe
    obtain ⟨pte0, hpte0, heq⟩ := map_eq_some_iff.1 hframe.symm
    exact heq ▸ (h.procs i).entry j pte0 hpte0
  | @update offset buf w hb hrun =>
    have hholds := RootVmo.writeBytes_contract hb s.world h.holds
    rw [hrun] at hholds
    obtain ⟨w1, mem, hpop, heq, -⟩ := writeBytes_writesOwn h.holds.wf h.holds.lt offset buf
    rw [after, hrun] at heq
    refine ⟨hholds, fun j => (h.procs j).carry ?_⟩
    rw [show w = { w1 with mem } from heq]
    exact (Carries.of_grow h.holds.wf hpop.toGrow).mem mem

/-- The offset of an address, from another address of its page. -/
theorem offsetOf_eq (ha : m.Aligned) (hle : m.mapToAddr ≤ addr) (hle' : m.mapToAddr ≤ y)
    (halign : alignDownPage y = alignDownPage addr) :
    m.pageOf y * pageSize + addr % pageSize = m.offsetOf addr := by
  obtain ⟨j, hj⟩ := ha.offset
  obtain ⟨k, hk⟩ := ha.addr
  replace halign := Nat.eq_of_mul_eq_mul_right (by decide) halign
  simp only [pageOf, offsetOf, pageSize] at *
  omega

/-- **Every process reads from the vDSO what the kernel has written**, in every run in which no
process stores to a page of the vDSO. -/
theorem reads_kernel_data {vdsoVmo : Vmo} {s₀ : VdsoProcs} {addr : ℕ} {b : UInt8} {m : VmMapping}
    (hinit : Initial vdsoVmo flags s₀)
    (hr : ((lts vdsoVmo.id).restrict (KeepsOff vdsoVmo.id)).Reachable s₀ s)
    (hload : (lts vdsoVmo.id).step s (.load i addr b) s')
    (hsees : Sees (s.procs i).vmar addr m) (hm : m.vmo.id = vdsoVmo.id) :
    b = s.data.bytes (m.offsetOf addr) := by
  have h : Inv vdsoVmo.id flags s :=
    hr.invariant hinit.inv fun _ _ _ h hs => h.step hs.1 hs.2
  have hi := h.procs i
  obtain ⟨f, hf, rfl⟩ : ∃ f, (s.procs i).space.translate addr false = some f ∧
      b = s.world.mem f (addr % pageSize) := by
    cases hload with
    | load hf => exact ⟨_, hf, rfl⟩
  obtain ⟨y, path, key, m', hy, halign, hbehind⟩ := hi.access hf
  obtain ⟨path', key', ht⟩ := hsees.target
  have hbare := hsees.only y halign path key m' hy
  have hbehind := behind_bare hbare.symm hbehind
  obtain ⟨ha, hle, -⟩ := faultTarget_placed hi.ordered hi.range ht
  obtain ⟨-, hle', -⟩ := faultTarget_placed hi.ordered hi.range hy
  rw [(placed_of_bare hbare).mapToAddr] at hle'
  rcases hbehind with ⟨-, hc⟩ | ⟨hne, -⟩
  · rw [h.holds.shown _ f hc _ (Nat.mod_lt _ (by decide)), offsetOf_eq ha hle hle' halign]
  · exact absurd hm hne

/-! ### A store that another process reads -/

/-- The VMO of the vDSO. -/
def exampleVdso : Vmo := ⟨0, .all⟩

/-- A memory with the vDSO and a VMO of one page, for a segment of the program. -/
def exampleWorld : World :=
  ⟨fun _ _ => 0, 0, fun _ => false, [{ size := 5 * pageSize }, { size := pageSize }]⟩

/-- Map the segment. -/
def exampleSegment : MapOptions where
  vmo := ⟨1, .all⟩
  vmoSize := 0x1000
  perms := { read := true, write := true }
  size := 0x1000
  offset := some 0x400000
  canOverwrite := true

/-- A process that has loaded a program of one segment. -/
def loadProgram : Result AddrSpace := do
  let (_, a) ← mapVdsoToVm exampleVdso .init
  buildAll [exampleSegment] a

/-- The address space of such a process. -/
def loaded : AddrSpace := loadProgram.toOption.getD .init

theorem loaded_loaded : Loaded exampleVdso loaded := by
  have hsome : loadProgram.toOption.isSome = true := by decide +kernel
  have hok : loadProgram = .ok loaded := by
    unfold loaded
    cases h : loadProgram with
    | ok a => rfl
    | error e =>
      rw [h] at hsome
      cases hsome
  obtain ⟨⟨base, a⟩, hvdso, hprogram⟩ := Result.bind_ok.1 hok
  exact ⟨[], [exampleSegment], base, .init, a, by decide, rfl, hvdso, hprogram⟩

/-- The mapping of the vDSO in that address space, bare. -/
def vdsoMapping : VmMapping where
  vmo := exampleVdso
  vmoOffset := 0
  mapSize := 0x5000
  mapToAddr := 0x100000
  pagePerms := .empty

/-- The mappings of that address space. -/
theorem mappings_loaded : loaded.vmar.bare.vmMappings =
    ⟨[(0x100000, vdsoMapping), (0x400000, (exampleSegment.mapping 0x400000).bare)]⟩ := by
  decide +kernel

/-- The first page of the vDSO is seen. -/
theorem sees_dataPage {v : Vmar} (hb : v.bare = loaded.vmar.bare) :
    ∃ m, m.bare = vdsoMapping ∧ Sees v 0x100000 m := by
  have htarget : (loaded.vmar.faultTarget 0x100000).toOption.map bareTarget =
      some ([], 0x100000, vdsoMapping) := by
    decide +kernel
  obtain ⟨⟨path, key, m0⟩, ht, hm0⟩ := map_eq_some_iff.1 htarget
  obtain ⟨rfl, hm0⟩ := Prod.mk.inj hm0
  obtain ⟨rfl, hm0⟩ := Prod.mk.inj hm0
  have hok : loaded.vmar.faultTarget 0x100000 = .ok ([], 0x100000, m0) := by
    cases h : loaded.vmar.faultTarget 0x100000 with
    | error e =>
      rw [h] at ht
      cases ht
    | ok t =>
      rw [h] at ht
      exact congrArg Except.ok (some.inj ht)
  obtain ⟨m, ht, hm⟩ := faultTarget_of_bare hb hok
  replace hm := hm.trans hm0
  refine ⟨m, hm, ⟨_, _, ht⟩, fun y hy path key m' ht' => ?_⟩
  have hord : v.Everywhere Ordered := loaded_loaded.fresh.ordered.of_bare hb
  obtain ⟨-, u, hu, hget, hle, hlt⟩ := faultTarget_ok v hord ht'
  have hu' : loaded.vmar.bare.at? path = some u.bare := by
    rw [← hb, at?_bare, hu]
    rfl
  have hget' : u.bare.vmMappings.get? key = some m'.bare := by
    rw [get?_vmMappings_bare, hget]
    rfl
  cases path with
  | cons k path =>
    cases hu'
  | nil =>
    rw [← some.inj hu', mappings_loaded] at hget'
    have hmem := OrdMap.mem_of_get? hget'
    simp only [List.mem_cons, Prod.mk.injEq, List.not_mem_nil, or_false] at hmem
    rcases hmem with ⟨-, h⟩ | ⟨rfl, -⟩
    · exact h.trans hm.symm
    · -- the segment is on another page
      simp only [alignDownPage, pageSize] at hy
      omega

/-- A process stores to the vDSO, and another one loads. -/
def storeThenLoad : VmoM (Option UInt8) := do
  let (_, p) ← loaded.vmar.handlePageFault loaded.space 0x100000 true
  match p.translate 0x100000 true with
  | none => return none
  | some f =>
    modify fun w => w.storeByte f 0 7
    let (_, p) ← loaded.vmar.handlePageFault loaded.space 0x100000 false
    match p.translate 0x100000 false with
    | none => return none
    | some f => return some ((← get).mem f 0)

theorem returned_storeThenLoad : returned storeThenLoad exampleWorld = some (some 7) := by
  decide +kernel

theorem vmo_exampleWorld (id : VmoId) : (exampleWorld.vmo id).committedPages = .empty ∧
    (exampleWorld.vmo id).inheritedPages = none := by
  rcases id with _ | _ | _ <;> exact ⟨rfl, rfl⟩

/-- The system with the vDSO all zero. -/
def exampleProcs : VdsoProcs := ⟨exampleWorld, fun _ => loaded, .zeros (5 * pageSize)⟩

theorem initial_exampleProcs : Initial exampleVdso {} exampleProcs := by
  have hnone : ∀ id k, (exampleWorld.vmo id).committedPages.get? k = none := by
    intro id k
    rw [(vmo_exampleWorld id).1]
    rfl
  have hwf : exampleWorld.Wf := by
    refine ⟨fun id k f hf => ?_, fun id fs f hfs => ?_⟩
    · cases (hnone id k).symm.trans hf
    · cases (vmo_exampleWorld id).2.symm.trans hfs
  refine ⟨⟨hwf, by decide, rfl, rfl, rfl, by decide, by decide, fun k k' f hf => ?_,
    fun k f hf => ?_, fun k _ j _ => rfl⟩, fun _ => loaded_loaded,
    fun i addr path key m _ _ f hf => ?_⟩
  · cases (hnone 0 k).symm.trans hf
  · cases (hnone 0 k).symm.trans hf
  · rcases hf with ⟨k, hk⟩ | ⟨fs, hfs, -⟩
    · cases (hnone _ k).symm.trans hk
    · cases (vmo_exampleWorld _).2.symm.trans hfs

/-- A process that has had a page fault reads the zero of the kernel. -/
theorem reads_kernel_data_first : ∃ (s : VdsoProcs) (b : UInt8) (m : VmMapping),
    ((lts exampleVdso.id).restrict (KeepsOff exampleVdso.id)).Reachable exampleProcs s ∧
      (lts exampleVdso.id).step s (.load 1 0x100000 b) s ∧
      Sees (s.procs 1).vmar 0x100000 m ∧ m.vmo.id = exampleVdso.id ∧
      b = s.data.bytes (m.offsetOf 0x100000) := by
  have hfirst : returned (do
      let (_, p) ← loaded.vmar.handlePageFault loaded.space 0x100000 false
      return (p.translate 0x100000 false).isSome) exampleWorld = some true := by
    decide +kernel
  obtain ⟨w', hrun⟩ := ok_of_returned hfirst
  obtain ⟨⟨v, p⟩, w, hfault, hrun⟩ := bind_ok.1 hrun
  obtain ⟨f, hf⟩ := isSome_iff_exists.1 (EStateM.Result.ok.inj hrun).1
  obtain ⟨m, hm, hsees⟩ :=
    sees_dataPage (handlePageFault_bare loaded_loaded.fresh.ordered hfault)
  let s : VdsoProcs := { exampleProcs.setProc 1 ⟨v, p⟩ with world := w }
  have hstep : ((lts 0).restrict (KeepsOff 0)).step exampleProcs (.fault 1 0x100000 false) s :=
    ⟨trivial, .fault hfault⟩
  have hload : (lts 0).step s (.load 1 0x100000 (w.mem f 0)) s := .load hf
  have hid : m.vmo.id = exampleVdso.id := congrArg Vmo.id (placed_of_bare (m := vdsoMapping) hm).vmo
  have hr := (Lts.Reachable.refl exampleProcs).step hstep
  exact ⟨s, _, m, hr, hload, hsees, hid,
    reads_kernel_data initial_exampleProcs hr hload hsees hid⟩

/-- **A process reads from the vDSO what another process has stored there.** -/
theorem exists_store_seen : ∃ (s₀ s s' : VdsoProcs) (i addr : ℕ) (b : UInt8) (m : VmMapping),
    Initial exampleVdso {} s₀ ∧ (lts exampleVdso.id).Reachable s₀ s ∧
      (lts exampleVdso.id).step s (.load i addr b) s' ∧ Sees (s.procs i).vmar addr m ∧
      m.vmo.id = exampleVdso.id ∧ b ≠ s.data.bytes (m.offsetOf addr) := by
  obtain ⟨w', hrun⟩ := ok_of_returned returned_storeThenLoad
  obtain ⟨⟨v0, p0⟩, w1, hfault0, hrun⟩ := bind_ok.1 hrun
  cases hf0 : p0.translate 0x100000 true with
  | none =>
    simp only [hf0] at hrun
    cases hrun
  | some f0 =>
    simp only [hf0] at hrun
    obtain ⟨_, _, hstore, hrun⟩ := bind_ok.1 hrun
    cases hstore
    obtain ⟨⟨v1, p1⟩, w2, hfault1, hrun⟩ := bind_ok.1 hrun
    cases hf1 : p1.translate 0x100000 false with
    | none =>
      simp only [hf1] at hrun
      cases hrun
    | some f1 =>
      simp only [hf1] at hrun
      obtain ⟨_, _, hget, hrun⟩ := bind_ok.1 hrun
      cases hget
      have hbyte : w2.mem f1 0 = 7 := some.inj (EStateM.Result.ok.inj hrun).1
      obtain ⟨m, hm, hsees⟩ :=
        sees_dataPage (handlePageFault_bare loaded_loaded.fresh.ordered hfault1)
      let s1 : VdsoProcs := { exampleProcs.setProc 0 ⟨v0, p0⟩ with world := w1 }
      let s2 : VdsoProcs := { s1 with world := w1.storeByte f0 0 7 }
      let s3 : VdsoProcs := { s2.setProc 1 ⟨v1, p1⟩ with world := w2 }
      have h1 : (lts 0).step exampleProcs (.fault 0 0x100000 true) s1 := .fault hfault0
      have h2 : (lts 0).step s1 (.store 0 0x100000 7) s2 := .store hf0
      have h3 : (lts 0).step s2 (.fault 1 0x100000 false) s3 := .fault hfault1
      have h4 : (lts 0).step s3 (.load 1 0x100000 (w2.mem f1 0)) s3 := .load hf1
      refine ⟨exampleProcs, s3, s3, 1, 0x100000, w2.mem f1 0, m, initial_exampleProcs,
        (((Lts.Reachable.refl _).step h1).step h2).step h3, h4, hsees, ?_, ?_⟩
      · exact congrArg Vmo.id ((placed_of_bare (m := vdsoMapping) hm).vmo)
      · rw [hbyte]
        exact (by decide : (7 : UInt8) ≠ 0)

end VdsoProcs

end Jinux
