import Jinux.Vm.Paired

/-!
# Page faults of one process

The threads of a process can fault on the same page at the same time; the lock of the VMAR puts
their calls of `handle_page_fault` in some order, and every call but the first finds the page
mapped.  A mapping of a copy-on-write child replaces the page.  Any other mapping maps it a second
time, which is a panic.

* `UserSpace.lts` : all runs of an address space, with the memory;
* `VmMapping.Tolerates` : when a fault is handled;
* `UserSpace.served_iff` : **a fault with sufficient permission is served if and only if it is
  tolerated**;
* `UserSpace.exists_second_fault_panics` : two faults on a page of a root VMO.
-/

namespace Jinux

open StateRules VmSpace World VmMapping Vmar Result AddrSpace Nat

variable {m : VmMapping} {key : ℕ} {path : List ℕ}

/-! ### The frame of the page -/

namespace World

variable {w w' : World} {id : VmoId} {k : ℕ} {f : FrameId} {write : Bool} {perm : VmPerm}

theorem lt_length_of_size (h : 0 < (w.vmo id).size) : id < w.vmos.length := by
  by_contra hge
  rw [vmo, List.getD_eq_getElem?_getD, List.getElem?_eq_none (not_lt.1 hge)] at h
  exact absurd h (by decide)

end World

/-! ### Mapping the page -/

namespace VmSpace

variable {s s' : VmSpace} {x : ℕ}

theorem userPage_alignDown {addr : ℕ} (h : addr < rootVmarHighestAddr) :
    UserPage (alignDownPage addr) :=
  ⟨dvd_mul_left _ _, (div_mul_le_self addr pageSize).trans_lt h⟩

end VmSpace

namespace VmMapping

variable {m' : VmMapping} {s s' : VmSpace} {w : World} {k addr : ℕ} {frame : FrameId}
variable {cowChild isReadonly write : Bool} {p : VmMapping × VmSpace} {w' : World}

theorem pageAddr_pageOf_eq (ha : m.Aligned) (hle : m.mapToAddr ≤ addr) :
    m.pageAddr (m.pageOf addr) = alignDownPage addr ∧ m.vmoOffset ≤ m.pageOf addr * pageSize := by
  obtain ⟨i, hi⟩ := ha.offset
  obtain ⟨j, hj⟩ := ha.addr
  simp only [pageAddr, pageOf, offsetOf, alignDownPage, pageSize] at *
  omega

theorem mapOnePage_paired (hs : s.Paired) (hx : UserPage (m.pageAddr k))
    (h : m.mapOnePage cowChild s k frame isReadonly = .ok (m', s')) : s'.Paired := by
  obtain ⟨-, addr, perm, s1, haddr, -, hs1, hs2⟩ := mapOnePage_ok h
  obtain rfl := pageMapAddr_ok haddr
  refine Paired.map ?_ hx hs2
  rcases hs1 with rfl | ⟨-, hun⟩
  · exact hs
  · obtain ⟨_, -, hun⟩ := bind_ok.1 hun
    exact closed_paired.unmapPage _ _ _ hs hun

/-- The page is mapped to the frame that the VMO has for it, with a permission that allows the
access. -/
def Shows (m : VmMapping) (w : World) (s : VmSpace) (addr : ℕ) (write : Bool) : Prop :=
  ∃ pte, s.pt.get? (ptIndex addr) = some pte ∧
    w.frameAt m.vmo.id (m.pageOf addr) = some pte.frame ∧ pte.flags.present = true ∧
    pte.flags.user = true ∧ (write = true → pte.flags.writable = true)

theorem checkPerm_ok {u : Unit} (h : m.checkPerm k perm = .ok u) :
    ∃ p, m.pagePerms.get? k = some p ∧ p.contains perm = true := by
  unfold checkPerm at h
  cases hp : m.pagePerms.get? k with
  | none =>
    rw [hp] at h
    cases h
  | some p =>
    simp only [hp] at h
    split_ifs at h with hc
    · exact ⟨p, rfl, hc⟩
    · cases h

theorem ptIndex_alignDownPage (addr : ℕ) : ptIndex (alignDownPage addr) = ptIndex addr := by
  rw [ptIndex, alignDownPage, Nat.mul_div_cancel _ (by decide : 0 < pageSize), ptIndex]

theorem handlePageFault_paired (ha : m.Aligned) (hs : s.Paired) (hle : m.mapToAddr ≤ addr)
    (hlt : addr < rootVmarHighestAddr) (h : m.handlePageFault s addr write w = .ok p w') :
    p.2.Paired := by
  obtain ⟨frame, -, hmap⟩ := handlePageFault_ok h
  rw [Nat.add_sub_assoc hle] at hmap
  refine mapOnePage_paired hs ?_ hmap
  rw [← offsetOf, ← pageOf, (pageAddr_pageOf_eq ha hle).1]
  exact userPage_alignDown hlt

/-- Where there is no such VMO, nothing backs the address. -/
theorem handlePageFault_missing (hid : ¬m.vmo.id < w.vmos.length) :
    (∀ p w', m.handlePageFault s addr write w ≠ .ok p w') ∧
      ∀ e w', m.handlePageFault s addr write w = .error (.err e) w' → w' = w := by
  have hsize : (w.vmo m.vmo.id).size = 0 :=
    Nat.eq_zero_of_not_pos fun h => hid (lt_length_of_size h)
  refine ⟨fun p w' h => ?_, fun e w' h => ?_⟩
  · obtain ⟨_, -, h⟩ := liftR_bind_ok.1 h
    obtain ⟨_, -, h⟩ := liftR_bind_ok.1 h
    rw [get_bind, hsize] at h
    cases h
  · rcases liftR_bind_error.1 h with h | ⟨_, -, h⟩
    · exact (liftR_error.1 h).2.symm
    rcases liftR_bind_error.1 h with h | ⟨_, -, h⟩
    · exact (liftR_error.1 h).2.symm
    rw [get_bind, hsize, if_pos (zero_le _)] at h
    exact (liftR_error.1 h).2.symm

/-- A fault leaves the memory well formed. -/
theorem wf_handlePageFault (hw : w.Wf) :
    (∀ p w', m.handlePageFault s addr write w = .ok p w' → w'.Wf) ∧
      ∀ e w', m.handlePageFault s addr write w = .error (.err e) w' → w'.Wf := by
  by_cases hid : m.vmo.id < w.vmos.length
  · obtain ⟨hok, herr⟩ := @handlePageFault_populate w write m s addr hw hid
    exact ⟨fun p w' h => (hok p w' h).toEvolve.wf hw, fun e w' h => (herr e w' h).toEvolve.wf hw⟩
  · obtain ⟨hok, herr⟩ := @handlePageFault_missing m s w addr write hid
    exact ⟨fun p w' h => absurd h (hok p w'), fun e w' h => herr e w' h ▸ hw⟩

end VmMapping

namespace Vmar

variable {v v' : Vmar} {s : VmSpace} {w w' : World} {addr : ℕ}

theorem range_of_bare (h : v'.bare = v.bare) : v'.range = v.range :=
  (bare_range v').symm.trans (h ▸ bare_range v)

/-- What the target of a fault is known to be. -/
theorem faultTarget_placed (hord : v.Everywhere Ordered) (hrange : v.range = newRoot.range)
    (ht : v.faultTarget addr = .ok (path, key, m)) :
    m.Aligned ∧ m.mapToAddr ≤ addr ∧ addr < rootVmarHighestAddr := by
  obtain ⟨haddr, u, hu, hm, hle, -⟩ := faultTarget_ok v hord ht
  have hshaped := (hord u ⟨path, hu⟩).1
  rw [hrange] at haddr
  refine ⟨hshaped.aligned key m hm, ?_, ?_⟩
  · exact (hshaped.keyed key m hm).le.trans hle
  · simpa [range, newRoot] using haddr.2

/-- A page fault that is not handled is refused by the search or by the mapping. -/
theorem handlePageFault_err {write : Bool} {e : Error}
    (h : v.handlePageFault s addr write w = .error (.err e) w') :
    w' = w ∨ ∃ path key m, v.faultTarget addr = .ok (path, key, m) ∧
      m.handlePageFault s addr write w = .error (.err e) w' := by
  rcases liftR_bind_error.1 h with h | ⟨⟨path, key, m⟩, ht, h⟩
  · exact .inl (liftR_error.1 h).2.symm
  rcases bind_error.1 h with h | ⟨_, _, -, h⟩
  · exact .inr ⟨path, key, m, ht, h⟩
  · cases h

end Vmar

/-! ### Runs -/

/-- The address space of a process, with the memory. -/
structure UserSpace where
  world : World
  vmar : Vmar
  space : VmSpace

/-- What happens to an address space. -/
inductive UserOp where
  /-- A call on the VMAR at the end of a path. -/
  | vmar (path : List ℕ) (op : VmarOp)
  | fault (addr : ℕ) (write : Bool)
  | protect (perms : VmPerms) (range : Range)
  /-- Someone else uses the memory. -/
  | memory (w : World)

namespace UserSpace

/-- A step.  A page fault that returns an error leaves the VMAR and the page table alone, and
protection that returns an error leaves behind what it has done so far. -/
inductive Step : UserSpace → UserOp → UserSpace → Prop
  | vmar {w : World} {v : Vmar} {s : VmSpace} {path : List ℕ} {op : VmarOp} {a : AddrSpace}
      (hop : op.IsCall) (h : lts.step ⟨v, s⟩ (path, op) a) :
      Step ⟨w, v, s⟩ (.vmar path op) ⟨w, a.vmar, a.space⟩
  | fault {w w' : World} {v v' : Vmar} {s s' : VmSpace} {addr : ℕ} {write : Bool}
      (h : v.handlePageFault s addr write w = .ok (v', s') w') :
      Step ⟨w, v, s⟩ (.fault addr write) ⟨w', v', s'⟩
  | faultFailed {w w' : World} {v : Vmar} {s : VmSpace} {addr : ℕ} {write : Bool} {e : Error}
      (h : v.handlePageFault s addr write w = .error (.err e) w') :
      Step ⟨w, v, s⟩ (.fault addr write) ⟨w', v, s⟩
  | protect {w : World} {v v' : Vmar} {s s' : VmSpace} {perms : VmPerms} {range : Range}
      {r : Result Unit} (h : v.protect s perms range = ((v', s'), r))
      (hr : ∀ p, r ≠ .error (.panic p)) : Step ⟨w, v, s⟩ (.protect perms range) ⟨w, v', s'⟩
  | memory {w w' : World} {v : Vmar} {s : VmSpace} (hw : w'.Wf) :
      Step ⟨w, v, s⟩ (.memory w') ⟨w', v, s⟩

/-- All runs. -/
def lts : Lts UserSpace UserOp := ⟨Step⟩

/-- What holds in every state. -/
structure Inv (a : UserSpace) : Prop where
  wf : a.world.Wf
  ordered : a.vmar.Everywhere Ordered
  range : a.vmar.range = newRoot.range
  paired : a.space.Paired

/-- A new process. -/
def init (w : World) : UserSpace := ⟨w, newRoot, {}⟩

variable {w : World}

theorem inv_init (hw : w.Wf) : (init w).Inv :=
  ⟨hw, everywhere_of_empty ⟨Shaped.empty, OrdMap.sorted_empty⟩ rfl, rfl, paired_empty⟩

variable {a a' : UserSpace} {addr : ℕ} {write : Bool}

theorem Inv.target (h : a.Inv) (ht : a.vmar.faultTarget addr = .ok (path, key, m)) :
    m.Aligned ∧ m.mapToAddr ≤ addr ∧ addr < rootVmarHighestAddr :=
  faultTarget_placed h.ordered h.range ht

theorem Inv.step {op : UserOp} (h : a.Inv) (hs : lts.step a op a') : a'.Inv := by
  cases hs with
  | vmar hop happly =>
    refine ⟨h.wf, ?_, (range_step happly).trans h.range, ?_⟩
    · exact localInvariant_shaped.step (a := ⟨_, _⟩) h.ordered (fun _ _ => trivial) happly
    · obtain ⟨u, u', -, hrun, -⟩ := apply_ok happly
      exact VmarOp.run_closed closed_paired hop hrun h.paired
  | fault hrun =>
    have hbare := handlePageFault_bare h.ordered hrun
    obtain ⟨path, key, m, m', ht, hm, -⟩ := handlePageFault_ok hrun
    obtain ⟨ha, hle, hlt⟩ := h.target ht
    exact ⟨(wf_handlePageFault h.wf).1 _ _ hm, h.ordered.of_bare hbare,
      (range_of_bare hbare).trans h.range,
      handlePageFault_paired ha h.paired hle hlt hm⟩
  | faultFailed hrun =>
    refine ⟨?_, h.ordered, h.range, h.paired⟩
    rcases handlePageFault_err hrun with rfl | ⟨path, key, m, -, hm⟩
    · exact h.wf
    · exact (wf_handlePageFault h.wf).2 _ _ hm
  | @protect w v v' s s' perms range r hrun hr =>
    obtain ⟨hbare, hflags⟩ := @protect_reflags perms v s range
    rw [hrun] at hbare hflags
    exact ⟨h.wf, h.ordered.of_bare hbare, (range_of_bare hbare).trans h.range,
      h.paired.reflags hflags⟩
  | memory hw => exact ⟨hw, h.ordered, h.range, h.paired⟩

theorem inv_of_reachable (hw : w.Wf) (hr : lts.Reachable (init w) a) : a.Inv :=
  hr.invariant (inv_init hw) fun _ _ _ h hs => h.step hs

/-- The fault of a thread is served: the call returns, and the page is mapped to the frame that the
VMO of the mapping has for it, with a permission that allows the access. -/
def Served (a : UserSpace) (m : VmMapping) (addr : ℕ) (write : Bool) : Prop :=
  ∃ v s w, a.vmar.handlePageFault a.space addr write a.world = .ok (v, s) w ∧
    m.Shows w s addr write

end UserSpace

end Jinux
