import Jinux.Vm.Fork

/-!
# A fork as a snapshot

The documentation of `new_cow` promises that a copy-on-write child behaves as if all its pages were
copied from the parent upon creation.  The code copies a page when the child writes it, but not when
the parent does, so the promise holds as long as no write goes in place to a frame that the child
still shares.

* `Procs` : the processes, each with its root VMAR, and the memory they share;
* `Procs.fork_snapshot` : in every run that spares the frames the child shares, the child reads the
  bytes that the parent had at the time of the fork, wherever it has not written itself.
-/

namespace Jinux

open StateRules VmMapping World Vmar VmPerm Nat

/-! ### What an access does -/

variable {σ α β : Type} {w w' : World} {v : Vmar} {n offset len : ℕ} {c : VmoId}

theorem after_liftR_bind (r : Result α) (f : α → EStateM Fault σ β) (s : σ) :
    after (liftR r >>= f) s = match r with | .ok a => after (f a) s | .error _ => s := by
  cases r <;> rfl

theorem after_viaFrameError (x : EStateM Fault σ α) (s : σ) :
    after (viaFrameError x) s = after x s := by
  unfold after viaFrameError
  rcases x s with ⟨a, s'⟩ | ⟨_ | _, s'⟩ <;> rfl

theorem liftR_bind (r : Result α) (f : α → Result β) :
    (liftR (r >>= f) : EStateM Fault σ β) = liftR r >>= fun a => liftR (f a) := by
  cases r <;> rfl

theorem liftR_pure (a : α) : (liftR (pure a) : EStateM Fault σ α) = pure a := rfl

theorem forM_liftR {γ : Type} (g : γ → Result PUnit) (l : List γ) :
    (l.forM fun c => liftR (g c) : EStateM Fault σ PUnit) = liftR (l.forM g) := by
  induction l with
  | nil => rfl
  | cons c l ih =>
    change (liftR (g c) >>= fun _ => l.forM fun c => liftR (g c)) =
      liftR (g c >>= fun _ => l.forM g)
    rw [liftR_bind, ih]

namespace VmMapping

variable {m : VmMapping}

/-- The checks of `read_bytes` and `write_bytes` before the VMO is accessed; returns the offset in
the VMO. -/
def checkAccess (m : VmMapping) (perm : VmPerm) (offset len : ℕ) : Result ℕ := do
  let start ← addUsize m.vmoOffset offset
  let stop ← addUsize start len
  let idxs ← getPageIdxRange ⟨start, stop⟩
  (pageIdxs idxs).forM fun pageIdx => m.checkPerm pageIdx perm
  pure start

theorem readBytes_eq (m : VmMapping) (offset len : ℕ) : m.readBytes offset len =
    liftR (m.checkAccess R offset len) >>= fun start => m.vmo.readBytes start len := by
  simp only [readBytes, checkAccess, liftR_bind, liftR_pure, forM_liftR, bind_assoc, pure_bind]

theorem writeBytes_eq (m : VmMapping) (offset : ℕ) (buf : List UInt8) : m.writeBytes offset buf =
    liftR (m.checkAccess W offset buf.length) >>= fun start =>
      m.vmo.writeBytes start buf := by
  simp only [writeBytes, checkAccess, liftR_bind, liftR_pure, forM_liftR, bind_assoc, pure_bind]

theorem checkAccess_ok {perm : VmPerm} {start : ℕ} (h : m.checkAccess perm offset len = .ok start) :
    start = m.vmoOffset + offset := by
  obtain ⟨start', hstart, h⟩ := Result.bind_ok.1 h
  obtain ⟨_, -, h⟩ := Result.bind_ok.1 h
  obtain ⟨_, -, h⟩ := Result.bind_ok.1 h
  obtain ⟨_, -, h⟩ := Result.bind_ok.1 h
  cases h
  exact (addUsize_ok.1 hstart).2.symm

end VmMapping

namespace Vmar

/-- A read does nothing, or reads the VMO of the mapping it finds. -/
theorem after_read (v : Vmar) (offset len : ℕ) (w : World) :
    after (v.read offset len) w = w ∨ ∃ m o, v.readTarget offset len = .ok (m, o) ∧
      after (v.read offset len) w =
        after (readBytes m.vmo.id (m.vmoOffset + o) len) w := by
  rw [read]
  cases htarget : v.readTarget offset len with
  | error e => exact .inl rfl
  | ok p =>
    simp only [readBytes_eq, after_liftR_bind]
    cases hcheck : p.1.checkAccess R p.2 len with
    | error e => exact .inl rfl
    | ok start =>
      obtain rfl := checkAccess_ok hcheck
      simp only [Vmo.readBytes, after_viaFrameError]
      cases p.1.vmo.checkRights { read := true } with
      | error e => exact .inl rfl
      | ok _ => exact .inr ⟨_, _, rfl, rfl⟩

/-- A write does nothing, or writes the VMO of the mapping it finds. -/
theorem after_write (v : Vmar) (offset : ℕ) (buf : List UInt8) (w : World) :
    after (v.write offset buf) w = w ∨ ∃ m o, v.writeTarget offset buf.length = .ok (m, o) ∧
      after (v.write offset buf) w =
        after (writeBytes m.vmo.id (m.vmoOffset + o) buf) w := by
  rw [write]
  cases htarget : v.writeTarget offset buf.length with
  | error e => exact .inl rfl
  | ok p =>
    simp only [writeBytes_eq, after_liftR_bind]
    cases hcheck : p.1.checkAccess W p.2 buf.length with
    | error e => exact .inl rfl
    | ok start =>
      obtain rfl := checkAccess_ok hcheck
      simp only [Vmo.writeBytes, after_viaFrameError]
      cases p.1.vmo.checkRights { write := true } with
      | error e => exact .inl rfl
      | ok _ => exact .inr ⟨_, _, rfl, rfl⟩

theorem viaFrameError_ok {x : EStateM Fault σ α} {s s' : σ} {a : α} :
    viaFrameError x s = .ok a s' ↔ x s = .ok a s' := by
  unfold viaFrameError
  rcases x s with ⟨b, s''⟩ | ⟨_ | _, s''⟩ <;> simp

/-- When a read succeeds, and with what. -/
theorem read_ok {bs : List UInt8} : v.read offset len w = .ok bs w' ↔
    ∃ m o, v.readTarget offset len = .ok (m, o) ∧
      (∃ start, m.checkAccess R o len = .ok start) ∧
      m.vmo.checkRights { read := true } = .ok () ∧
      readBytes m.vmo.id (m.vmoOffset + o) len w = .ok bs w' := by
  constructor
  · intro h
    obtain ⟨⟨m, o⟩, htarget, h⟩ := liftR_bind_ok.1 h
    replace h : m.readBytes o len w = .ok bs w' := h
    rw [readBytes_eq] at h
    obtain ⟨start, hcheck, h⟩ := liftR_bind_ok.1 h
    obtain ⟨⟨⟩, hrights, h⟩ := liftR_bind_ok.1 (viaFrameError_ok.1 h)
    obtain rfl := checkAccess_ok hcheck
    exact ⟨m, o, htarget, ⟨_, hcheck⟩, hrights, h⟩
  · rintro ⟨m, o, htarget, ⟨start, hcheck⟩, hrights, h⟩
    refine liftR_bind_ok.2 ⟨(m, o), htarget, ?_⟩
    change m.readBytes o len w = .ok bs w'
    rw [readBytes_eq]
    obtain rfl := checkAccess_ok hcheck
    exact liftR_bind_ok.2 ⟨_, hcheck, viaFrameError_ok.2 (liftR_bind_ok.2 ⟨(), hrights, h⟩)⟩

/-- The VMAR maps VMOs of the world. -/
def Maps (v : Vmar) (w : World) : Prop := ∀ p ∈ v.placements, p.1.vmo.id < w.vmos.length

theorem addUsize_eq {a b c : ℕ} (h : addUsize a b = .ok c) : c = a + b :=
  (addUsize_ok.1 h).2.symm

theorem checkedAdd_eq {a b c : ℕ} (h : checkedAdd a b = .ok c) : c = a + b := by
  unfold checkedAdd at h
  split_ifs at h
  · cases h
    rfl
  · cases h

theorem read_forks (hv : v.Maps w) (hw : w.Wf) :
    Forks w.vmos.length w (after (v.read offset len) w) := by
  rcases after_read v offset len w with h | ⟨m, o, htarget, h⟩
  · rw [h]
    exact .refl hw
  · have hid : m.vmo.id < w.vmos.length := hv _ (locate_mem addUsize_eq v htarget)
    rw [h]
    exact .of_populate hw hid (readBytes_spec hw hid _ _).1

end Vmar

/-! ### The frames of a copy -/

namespace World

variable {o : World} {lo : ℕ} {id : VmoId} {f : FrameId} {x : VmoM α}

/-- `c` still shares frame `f` with its parent: it inherited `f` for a page that it has not
copied. -/
def Shares (w : World) (c : VmoId) (f : FrameId) : Prop :=
  ∃ k < ((w.vmo c).inheritedPages.getD []).length,
    ((w.vmo c).inheritedPages.getD [])[k]? = some f ∧ (w.vmo c).committedPages.get? k = none

instance (w : World) (c : VmoId) (f : FrameId) : Decidable (w.Shares c f) :=
  inferInstanceAs (Decidable (∃ k < _, _ ∧ _))

theorem shares_of_inherited {fs : List FrameId} {k : ℕ} (hfs : (w.vmo c).inheritedPages = some fs)
    (hf : fs[k]? = some f) (hk : (w.vmo c).committedPages.get? k = none) : w.Shares c f := by
  refine ⟨k, ?_, ?_, hk⟩
  · rw [hfs]
    exact (List.getElem?_eq_some_iff.1 hf).1
  · rw [hfs]
    exact hf

/-- Since the state `o`, in which they were new, the VMOs from `lo` on have committed fresh frames
only, and no frame that was allocated since backs two pages. -/
structure Shelter (lo : ℕ) (o w : World) : Prop where
  wf : w.Wf
  length : o.vmos.length ≤ w.vmos.length
  next : o.nextFrame ≤ w.nextFrame
  cow : ∀ c, lo ≤ c → c < o.vmos.length → (w.vmo c).isCow = true
  inherited : ∀ c, lo ≤ c → c < o.vmos.length →
    (w.vmo c).inheritedPages = (o.vmo c).inheritedPages
  size : ∀ c, lo ≤ c → c < o.vmos.length → (w.vmo c).size = (o.vmo c).size
  young : ∀ c k f, lo ≤ c → c < o.vmos.length → (w.vmo c).committedPages.get? k = some f →
    o.nextFrame ≤ f
  inj : ∀ i j k k' f, o.nextFrame ≤ f → (w.vmo i).committedPages.get? k = some f →
    (w.vmo j).committedPages.get? k' = some f → i = j ∧ k = k'
  /-- Slices are older. -/
  slice : ∀ i fs f, (w.vmo i).isCow = false → (w.vmo i).inheritedPages = some fs → f ∈ fs →
    f < o.nextFrame

namespace Shelter

theorem start (hf : Forks lo w o) (hlo : lo = w.vmos.length) : Shelter lo o o where
  wf := hf.wf
  length := le_rfl
  next := le_rfl
  cow c hc hlt := (hf.added c (hlo ▸ hc) hlt).1
  inherited _ _ _ := rfl
  size _ _ _ := rfl
  young c k f hc hlt h := by
    rw [(hf.added c (hlo ▸ hc) hlt).2] at h
    cases h
  inj i _ k _ f hge hi _ := absurd (hf.wf.committed_lt i k f hi) (not_lt.2 hge)
  slice i fs f _ hfs hf' := hf.wf.inherited_lt i fs f hfs hf'

theorem forks (h : Shelter lo o w) (hf : Forks n w w') : Shelter lo o w' where
  wf := hf.wf
  length := h.length.trans hf.length
  next := h.next.trans hf.next
  cow c hc hlt := (hf.cow c (hlt.trans_le h.length)).trans (h.cow c hc hlt)
  inherited c hc hlt := (hf.inherited c (hlt.trans_le h.length)).trans (h.inherited c hc hlt)
  size c hc hlt := (hf.size c (hlt.trans_le h.length)).trans (h.size c hc hlt)
  young c k f hc hlt hk := by
    rcases hf.fresh c k f hk with hold | hge
    · exact h.young c k f hc hlt hold
    · exact h.next.trans hge
  inj i j k k' f hge hi hj := by
    by_cases hnew : w.nextFrame ≤ f
    · exact hf.inj i j k k' f hnew hi hj
    · exact h.inj i j k k' f hge ((hf.fresh i k f hi).resolve_right hnew)
        ((hf.fresh j k' f hj).resolve_right hnew)
  slice i fs f hcow hfs hmem := by
    by_cases hi : i < w.vmos.length
    · exact h.slice i fs f (hf.cow i hi ▸ hcow) (hf.inherited i hi ▸ hfs) hmem
    · -- a VMO that was added is a copy-on-write child
      by_cases hi' : i < w'.vmos.length
      · rw [(hf.added i (not_lt.1 hi) hi').1] at hcow
        cases hcow
      · simp [vmo, List.getElem?_eq_none (not_lt.1 hi')] at hfs

theorem with_mem (h : Shelter lo o w) (mem : FrameId → ℕ → UInt8) : Shelter lo o { w with mem } :=
  { h with wf := ⟨h.wf.committed_lt, h.wf.inherited_lt⟩ }

end Shelter

theorem Shelter.after_write (h : Shelter lo o w) (hid : id < w.vmos.length)
    (hx : WritesOwn id offset len w x) : Shelter lo o (after x w) := by
  obtain ⟨w1, mem, hpop, heq, -⟩ := hx
  rw [heq]
  exact (h.forks (.of_populate h.wf hid hpop)).with_mem mem

/-- A write of `len` bytes at `offset` of `id` changes no frame in place that a VMO between `lo` and
`hi` shares. -/
def Spares (w : World) (lo hi : ℕ) (id : VmoId) (offset len : ℕ) : Prop :=
  ∀ i < len, ∀ f, w.inPlace id ((offset + i) / pageSize) = some f →
    ∀ c < hi, lo ≤ c → ¬ w.Shares c f

instance (w : World) (lo hi : ℕ) (id : VmoId) (offset len : ℕ) :
    Decidable (w.Spares lo hi id offset len) :=
  inferInstanceAs (Decidable (∀ i < len, ∀ f ∈ w.inPlace id ((offset + i) / pageSize),
    ∀ c < hi, lo ≤ c → ¬ w.Shares c f))

/-- A write that spares the shared frames changes no byte of a sheltered VMO, except for those that
it writes there. -/
theorem Shelter.byteAt_write {y : ℕ} (h : Shelter lo o w) (ho : o.Wf) (hid : id < w.vmos.length)
    (hx : WritesOwn id offset len w x) (hspare : w.Spares lo o.vmos.length id offset len)
    (hc : lo ≤ c) (hlt : c < o.vmos.length) (hy : id = c → y < offset ∨ offset + len ≤ y) :
    (after x w).byteAt c y = w.byteAt c y := by
  obtain ⟨w1, mem, hpop, heq, hown⟩ := hx
  have h1 : Shelter lo o w1 := h.forks (.of_populate h.wf hid hpop)
  have hdiv := div_add_mod' y pageSize
  have hbyte : w1.byteAt c y = w.byteAt c y := by rw [byteAt, byteAt, hpop.content]
  rw [heq, ← hbyte]
  refine byteAt_with_mem fun f hf => by_contra fun hne => ?_
  obtain ⟨k, hwrites⟩ := hown f _ hne
  rcases frameAt_eq_some.1 hf with hk | ⟨hk, fs, hfs, hf⟩
  · -- a frame of its own, which only a write to `c` itself can reach
    have hyoung := h1.young c _ f hc hlt hk
    rcases hwrites.backs with hback | ⟨hcow, fs, hfs, hf⟩
    · obtain ⟨rfl, rfl⟩ := h1.inj _ _ _ _ f hyoung hback hk
      have := hwrites.ge
      have := hwrites.lt_stop
      rcases hy rfl with hy | hy <;> omega
    · exact absurd (h1.slice id fs f hcow hfs (List.mem_of_getElem? hf)) (not_lt.2 hyoung)
  · have hold : f < o.nextFrame :=
      ho.inherited_lt c fs f (h1.inherited c hc hlt ▸ hfs) (List.mem_of_getElem? hf)
    rcases hwrites.place with hplace | hfresh
    · -- a frame that `c` shares, written in place
      have hpos : offset + (k * pageSize + y % pageSize - offset) = k * pageSize + y % pageSize :=
        Nat.add_sub_cancel' hwrites.ge
      have hpage : (k * pageSize + y % pageSize) / pageSize = k := by
        rw [mul_comm, mul_add_div (by decide), div_eq_of_lt hwrites.lt, add_zero]
      refine hspare (k * pageSize + y % pageSize - offset) ?_ f ?_ c hlt hc
        (shares_of_inherited ?_ hf ?_)
      · have := hwrites.lt_stop
        omega
      · rw [hpos, hpage, hplace]
      · rw [h.inherited c hc hlt, ← h1.inherited c hc hlt, hfs]
      · cases hw : (w.vmo c).committedPages.get? (y / pageSize) with
        | none => rfl
        | some f' =>
          rw [hpop.toGrow.keep_any hw] at hk
          cases hk
    · exact absurd (hold.trans_le h.next) (not_lt.2 hfresh)

end World

/-- A range of bytes of a whole number of pages lies in these pages. -/
theorem getPageIdxRange_stop_le {start stop size : ℕ} {idxs : Range}
    (h : getPageIdxRange ⟨start, stop⟩ = .ok idxs) (hstop : stop ≤ size) (hdvd : pageSize ∣ size) :
    idxs.stop ≤ size / pageSize := by
  obtain ⟨q, rfl⟩ := hdvd
  have hps := pageSize_pos
  rw [getPageIdxRange_ok h, Nat.mul_div_cancel_left _ hps]
  refine Nat.lt_add_one_iff.1 (Nat.div_lt_of_lt_mul ?_)
  change stop + (pageSize - 1) < pageSize * q + pageSize
  omega

/-- Where its bytes have not changed, a copy reads what the original read. -/
theorem VmMapping.CopyOf.readBytes_eq {lo x : ℕ} {o t : World} {m m' : VmMapping}
    {bytes : List UInt8} (h : CopyOf n w o m m') (hw : w.Wf) (hid : m.vmo.id < w.vmos.length)
    (hshelter : Shelter lo o t) (hlo : lo ≤ m'.vmo.id)
    (hread : World.outcome (World.readBytes m.vmo.id x len w) = .ok bytes)
    (hsame : ∀ i < len, t.byteAt m'.vmo.id (x + i) = o.byteAt m'.vmo.id (x + i)) :
    World.readBytes m'.vmo.id x len t = .ok bytes t := by
  obtain ⟨hbound, hsize, ⟨idxs, hidxs, hlen⟩, hlength, hget⟩ := readBytes_ok hw hid hread
  have hsize' : (t.vmo m'.vmo.id).size = (w.vmo m.vmo.id).size :=
    (hshelter.size _ hlo h.lt).trans h.size
  have hid' := h.lt.trans_le hshelter.length
  obtain ⟨fs, hfs, hfs_len⟩ := h.inherited
  have hframes : ∀ k ∈ idxs, (t.frameAt m'.vmo.id k).isSome = true := by
    intro k hk
    have hk' : k < fs.length :=
      hfs_len ▸ hk.2.trans_le (getPageIdxRange_stop_le hidxs hsize h.dvd)
    rw [frameAt, hshelter.inherited _ hlo h.lt, hfs]
    cases (t.vmo m'.vmo.id).committedPages.get? k <;> simp [hk']
  obtain ⟨bs, hbs⟩ := readBytes_of_frameAt hshelter.wf hbound (hsize'.symm ▸ hsize) hidxs
    hlen hframes
  obtain ⟨-, -, -, hlength', hget'⟩ :=
    readBytes_ok hshelter.wf hid' (outcome_ok.2 ⟨_, hbs⟩)
  have heq : bs = bytes := by
    refine List.ext_getElem? fun i => ?_
    by_cases hi : i < len
    · rw [hget' i hi, hget i hi, hsame i hi, byteAt, byteAt, h.content]
      exact div_lt_div_of_lt_of_dvd h.dvd (by omega)
    · rw [List.getElem?_eq_none (by omega), List.getElem?_eq_none (by omega)]
  rw [hbs, heq]

/-! ### Processes -/

/-- The root VMARs of all processes and the memory they share.  Every frame that a VMO refers to has
been allocated, and every mapping shows a VMO of the memory. -/
structure Procs where
  world : World
  /-- The root VMAR of every process. -/
  vmars : List Vmar
  wf : world.Wf
  maps : ∀ v ∈ vmars, v.Maps world

/-- What processes do to their memory. -/
inductive ProcOp where
  | read (p offset len : ℕ)
  | write (p offset : ℕ) (buf : List UInt8)
  | fork (p : ℕ)

/-- The process of an operation. -/
def ProcOp.proc : ProcOp → ℕ
  | .read p .. | .write p .. | .fork p => p

theorem Vmar.write_same (hv : v.Maps w) (hw : w.Wf) (offset : ℕ) (buf : List UInt8) :
    (after (v.write offset buf) w).Wf ∧
      (after (v.write offset buf) w).vmos.length = w.vmos.length := by
  rcases after_write v offset buf w with h | ⟨m, o, htarget, h⟩
  · rw [h]
    exact ⟨hw, rfl⟩
  · have hid : m.vmo.id < w.vmos.length := hv _ (locate_mem checkedAdd_eq v htarget)
    obtain ⟨w1, mem, hpop, heq, -⟩ := writeBytes_writesOwn hw hid (m.vmoOffset + o) buf
    rw [h, heq]
    exact ⟨⟨(hpop.toEvolve.wf hw).committed_lt, (hpop.toEvolve.wf hw).inherited_lt⟩, hpop.length⟩

theorem Vmar.Maps.mono (hv : v.Maps w) (h : w.vmos.length ≤ w'.vmos.length) :
    v.Maps w' := fun p hp => (hv p hp).trans_le h

theorem Vmar.newCow_spec (hv : v.Maps w) (hw : w.Wf) :
    Ensures (Forks w.vmos.length) v.newCow w fun c w' => Copies w.vmos.length w w' v c :=
  newCow_ensures v hv hw le_rfl

/-- The copy maps VMOs of the memory. -/
theorem Vmar.Copies.maps {c : Vmar} (h : Copies n w w' v c)
    (hlen : w.vmos.length ≤ w'.vmos.length) : c.Maps w' := by
  intro p hp
  have hmem : p.1.vmo.id ∈ addedIds w w' := h.ids ▸ List.mem_map.2 ⟨p, hp, rfl⟩
  exact (List.mem_range'_1.1 hmem).2.trans_eq (Nat.add_sub_cancel' hlen)

namespace Procs

/-- The root VMAR of a process. -/
def vmar (s : Procs) (p : ℕ) : Vmar := s.vmars.getD p newRoot

theorem maps_vmar (s : Procs) (p : ℕ) : (s.vmar p).Maps s.world := by
  unfold vmar
  rw [List.getD_eq_getElem?_getD]
  cases hp : s.vmars[p]? with
  | some v => exact s.maps v (List.mem_of_getElem? hp)
  | none =>
    intro q hq
    simp [newRoot, OrdMap.empty, placements, placementsInChildren] at hq

/-- The processes after a change of the memory that keeps all VMOs. -/
def withWorld (s : Procs) (w : World) (hw : w.Wf)
    (hlen : s.world.vmos.length ≤ w.vmos.length) : Procs :=
  ⟨w, s.vmars, hw, fun v hv => (s.maps v hv).mono hlen⟩

/-- `fork_from`: the copy of the root VMAR of `p` is the root VMAR of a new process. -/
def fork (s : Procs) (p : ℕ) : Procs :=
  match h : (s.vmar p).newCow s.world with
  | .ok c w' =>
    have hspec := (newCow_spec (s.maps_vmar p) s.wf).of_ok h
    ⟨w', s.vmars ++ [c], hspec.1.wf, fun v hv => by
      rcases List.mem_append.1 hv with hv | hv
      · exact (s.maps v hv).mono hspec.1.length
      · rw [List.mem_singleton.1 hv]
        exact hspec.2.maps hspec.1.length⟩
  | .error _ w' =>
    have hspec : Forks s.world.vmos.length s.world w' :=
      after_of_error h ▸ (newCow_spec (s.maps_vmar p) s.wf).after
    s.withWorld w' hspec.wf hspec.length

/-- The processes after an operation, whether it succeeded or not. -/
def apply (s : Procs) : ProcOp → Procs
  | .read p offset len =>
    have h := read_forks (s.maps_vmar p) s.wf
    s.withWorld (after ((s.vmar p).read offset len) s.world) h.wf h.length
  | .write p offset buf =>
    have h := write_same (s.maps_vmar p) s.wf offset buf
    s.withWorld (after ((s.vmar p).write offset buf) s.world) h.1 h.2.ge
  | .fork p => s.fork p

/-- All runs of the processes. -/
def lts : Lts Procs ProcOp where
  step s op s' := op.proc < s.vmars.length ∧ s' = s.apply op

theorem fork_cases (s : Procs) (p : ℕ) :
    Forks s.world.vmos.length s.world (s.fork p).world ∧
      ((s.fork p).vmars = s.vmars ∨ ∃ c, (s.fork p).vmars = s.vmars ++ [c] ∧
        Copies s.world.vmos.length s.world (s.fork p).world (s.vmar p) c) := by
  have hens := newCow_spec (s.maps_vmar p) s.wf
  unfold fork
  split
  · rename_i c w' h
    exact ⟨(hens.of_ok h).1, .inr ⟨c, rfl, (hens.of_ok h).2⟩⟩
  · rename_i e w' h
    exact ⟨after_of_error h ▸ hens.after, .inl rfl⟩

/-- The fork of `p` succeeds in `s` and leads to `s₁`; the copy is the VMAR behind the others. -/
def Forked (s : Procs) (p : ℕ) (s₁ : Procs) : Prop :=
  s₁ = s.fork p ∧ s.vmars.length < s₁.vmars.length

/-- What a process reads at an offset of its root VMAR. -/
def reads (s : Procs) (p offset len : ℕ) : Result (List UInt8) :=
  outcome ((s.vmar p).read offset len s.world)

/-- The condition under which the copy made by the fork from `s` to `s₁` keeps its `len` bytes at
`offset`: the new process does not write them itself, and no write changes a frame in place that a
VMO of the copy still shares. -/
def Spares (s s₁ : Procs) (offset len : ℕ) (t : Procs) : ProcOp → Prop
  | .write q writeOffset buf =>
    (q = s.vmars.length → writeOffset + buf.length ≤ offset ∨ offset + len ≤ writeOffset) ∧
      ∀ m o, (t.vmar q).writeTarget writeOffset buf.length = .ok (m, o) →
        t.world.Spares s.world.vmos.length s₁.world.vmos.length m.vmo.id (m.vmoOffset + o)
          buf.length
  | _ => True

/-- What holds since the fork from `s` to `s₁`: only the new process maps the VMOs of the copy, and
the bytes from `y` on of the VMO `c` are those of `s₁`. -/
structure Since (s s₁ : Procs) (c : VmoId) (y len : ℕ) (t : Procs) : Prop where
  shelter : Shelter s.world.vmos.length s₁.world t.world
  lt : s.vmars.length < t.vmars.length
  child : t.vmar s.vmars.length = s₁.vmar s.vmars.length
  others : ∀ q ≠ s.vmars.length, ∀ p ∈ (t.vmar q).placements,
    p.1.vmo.id < s.world.vmos.length ∨ s₁.world.vmos.length ≤ p.1.vmo.id
  bytes : ∀ i < len, t.world.byteAt c (y + i) = s₁.world.byteAt c (y + i)

section Run

variable {s s₁ t : Procs} {p y : ℕ}

theorem vmar_of_concat (h : t.vmars = s.vmars ++ [v]) (q : ℕ) :
    t.vmar q = if q = s.vmars.length then v else s.vmar q := by
  rw [vmar, h]
  exact Table.getD_concat _ _ _ q

theorem Forked.copies (h : Forked s p s₁) :
    Forks s.world.vmos.length s.world s₁.world ∧
      (∀ q ≠ s.vmars.length, s₁.vmar q = s.vmar q) ∧
      Copies s.world.vmos.length s.world s₁.world (s.vmar p) (s₁.vmar s.vmars.length) := by
  obtain ⟨rfl, hlt⟩ := h
  obtain ⟨hforks, hsame | ⟨v, hv, hcopies⟩⟩ := s.fork_cases p
  · exact absurd (hsame ▸ hlt) (lt_irrefl _)
  · refine ⟨hforks, fun q hq => by rw [vmar_of_concat hv, if_neg hq], ?_⟩
    rwa [vmar_of_concat hv, if_pos rfl]

theorem Since.start (h : Forked s p s₁) : Since s s₁ c y len s₁ where
  shelter := .start h.copies.1 rfl
  lt := h.2
  child := rfl
  others q hq m hm := .inl (s.maps_vmar q m (h.copies.2.1 q hq ▸ hm))
  bytes _ _ := rfl

variable (hc : s.world.vmos.length ≤ c) (hlt : c < s₁.world.vmos.length)
include hlt

section

variable (h : Since s s₁ c y len t)

include h

/-- What forks and reads do keeps the bytes. -/
theorem Since.bytes_forks (hf : Forks n t.world w) :
    ∀ i < len, w.byteAt c (y + i) = s₁.world.byteAt c (y + i) := fun i hi => by
  rw [← h.bytes i hi, byteAt, byteAt, hf.content c (hlt.trans_le h.shelter.length)]

theorem Since.read (q readOffset readLen : ℕ) :
    Since s s₁ c y len (t.apply (.read q readOffset readLen)) where
  shelter := h.shelter.forks (read_forks (t.maps_vmar q) t.wf)
  lt := h.lt
  child := h.child
  others := h.others
  bytes := h.bytes_forks hlt (read_forks (t.maps_vmar q) t.wf)

theorem Since.fork (q : ℕ) : Since s s₁ c y len (t.apply (.fork q)) := by
  obtain ⟨hforks, hvmars⟩ := t.fork_cases q
  have hbytes := h.bytes_forks hlt hforks
  rcases hvmars with hsame | ⟨v, hv, hcopies⟩
  · have hvmar : ∀ q', (t.fork q).vmar q' = t.vmar q' := fun q' => by rw [vmar, hsame, vmar]
    exact ⟨h.shelter.forks hforks, hsame ▸ h.lt, (hvmar _).trans h.child,
      fun q' hq' m hm => h.others q' hq' m (hvmar q' ▸ hm), hbytes⟩
  · refine ⟨h.shelter.forks hforks, ?_, ?_, fun q' hq' m hm => ?_, hbytes⟩
    · exact h.lt.trans (by simp [apply, hv])
    · exact ((vmar_of_concat hv _).trans (if_neg h.lt.ne)).trans h.child
    · replace hm : m ∈ ((t.fork q).vmar q').placements := hm
      rw [vmar_of_concat hv] at hm
      split_ifs at hm
      · -- a mapping of the new copy shows a VMO that is newer still
        have hmem : m.1.vmo.id ∈ addedIds t.world (t.fork q).world :=
          hcopies.ids ▸ List.mem_map.2 ⟨m, hm, rfl⟩
        exact .inr (h.shelter.length.trans (List.mem_range'_1.1 hmem).1)
      · exact h.others q' hq' m hm

/-- A write elsewhere, or to another address of the new process. -/
theorem Since.write {o writeOffset q : ℕ} {m : VmMapping} {buf : List UInt8}
    (hc : s.world.vmos.length ≤ c) (hf : Forked s p s₁)
    (hm : (m, (o : ℤ) - offset) ∈ (s₁.vmar s.vmars.length).placements) (hid : m.vmo.id = c)
    (hy : m.vmoOffset + o = y) (hspare : Spares s s₁ offset len t (.write q writeOffset buf)) :
    Since s s₁ c y len (t.apply (.write q writeOffset buf)) := by
  rcases after_write (t.vmar q) writeOffset buf t.world with hskip | ⟨m', o', htarget, hafter⟩
  · exact ⟨by simpa only [apply, withWorld, hskip] using h.shelter, h.lt, h.child, h.others,
      by simpa only [apply, withWorld, hskip] using h.bytes⟩
  · have hplace := locate_mem checkedAdd_eq (t.vmar q) htarget
    have hid' : m'.vmo.id < t.world.vmos.length := t.maps_vmar q _ hplace
    have hwrites := writeBytes_writesOwn t.wf hid' (m'.vmoOffset + o') buf
    refine ⟨?_, h.lt, h.child, h.others, fun i hi => ?_⟩
    · simpa only [apply, withWorld, hafter] using h.shelter.after_write hid' hwrites
    · simp only [apply, hafter]
      rw [← h.bytes i hi]
      refine h.shelter.byteAt_write s₁.wf hid' hwrites (hspare.2 m' o' htarget) hc hlt fun heq => ?_
      by_cases hq : q = s.vmars.length
      · -- the new process maps the VMO once, so the write is at another address
        rw [hq, h.child] at hplace
        have hnodup : (s₁.vmar s.vmars.length).vmoIds.Nodup := by
          rw [hf.copies.2.2.ids]
          exact List.nodup_range'
        obtain ⟨rfl, hshift⟩ := Prod.mk.inj
          (List.inj_on_of_nodup_map hnodup hplace hm (heq.trans hid.symm))
        have := hspare.1 hq
        omega
      · rcases h.others q hq _ hplace with hlow | hhigh
        · exact absurd (heq ▸ hlow) (not_lt.2 hc)
        · exact absurd hlt (not_lt.2 (heq ▸ hhigh))

end

end Run

/-- **A fork is a snapshot as long as shared frames are not written in place.**  What the parent
reads at the time of the fork the new process reads in every state of every run that spares what it
shares, wherever it has not written itself. -/
theorem fork_snapshot {s s₁ t : Procs} {p offset len : ℕ} {bytes : List UInt8} (hf : Forked s p s₁)
    (hparent : s.reads p offset len = .ok bytes)
    (hrun : (lts.restrict (Spares s s₁ offset len)).Reachable s₁ t) :
    t.reads s.vmars.length offset len = .ok bytes := by
  obtain ⟨w', hread⟩ := outcome_ok.1 hparent
  obtain ⟨m, o, htarget, hcheck, hrights, hbytes⟩ := read_ok.1 hread
  have hcopies := hf.copies.2.2
  obtain ⟨m', htarget', hcopy⟩ := hcopies.locate htarget
  have hplace := locate_mem addUsize_eq _ htarget'
  have hvmoOffset : m'.vmoOffset = m.vmoOffset := by rw [hcopy.eq]
  have hlt := hcopy.lt
  have hsince : Since s s₁ m'.vmo.id (m'.vmoOffset + o) len t := by
    refine hrun.invariant (Since.start hf) fun t op t' ht hstep => ?_
    obtain ⟨hspare, -, rfl⟩ := hstep
    cases op with
    | read q off n => exact ht.read hlt q off n
    | write q off buf => exact ht.write hlt hcopy.ge hf hplace rfl rfl hspare
    | fork q => exact ht.fork hlt q
  rw [hvmoOffset] at hsince
  have hread' := hcopy.readBytes_eq s.wf hcopy.old hsince.shelter hcopy.ge
    (outcome_ok.2 ⟨_, hbytes⟩) hsince.bytes
  refine outcome_ok.2 ⟨t.world, read_ok.2 ⟨m', o, hsince.child ▸ htarget', ?_, ?_, ?_⟩⟩
  · rw [hcopy.eq]
    exact hcheck
  · rw [hcopy.eq]
    exact hrights
  · rw [hvmoOffset, hread']

/-- A page at `0x201000` that may be read and written. -/
def onePage : VmMapping where
  vmo := ⟨0, .all⟩
  vmoOffset := 0
  mapSize := pageSize
  mapToAddr := 0x201000
  pagePerms := ⟨[(0, { r := true, w := true })]⟩

/-- A process that maps one page. -/
def oneProcess : Procs where
  world := ⟨fun _ _ => 0, 0, fun _ => false, [{ size := pageSize }]⟩
  vmars := [{ newRoot with vmMappings := ⟨[(0x201000, onePage)]⟩ }]
  wf := by
    refine ⟨fun id k f h => ?_, fun id fs f h => ?_⟩ <;>
    · rcases id with _ | id <;> cases h
  maps := by
    intro v hv p hp
    obtain rfl := List.mem_singleton.1 hv
    obtain rfl := List.mem_singleton.1 hp
    exact one_pos

/-- After the fork, the new process writes the second byte of the page. -/
def childWrote : Procs := (oneProcess.fork 0).apply (.write 1 0x201001 [1])

theorem forked_oneProcess : Forked oneProcess 0 (oneProcess.fork 0) := ⟨rfl, by decide +kernel⟩

/-- Once the new process has copied the page, the old one may write it. -/
theorem snapshot_childWrote : oneProcess.reads 0 0x201000 1 = .ok [0] ∧
    (childWrote.apply (.write 0 0x201000 [7])).reads 1 0x201000 1 = .ok [0] := by
  have hread : oneProcess.reads 0 0x201000 1 = .ok [0] := by decide +kernel
  have hlen : oneProcess.vmars.length = 1 := rfl
  have hchild : Spares oneProcess (oneProcess.fork 0) 0x201000 1 (oneProcess.fork 0)
      (.write 1 0x201001 [1]) := by
    have htarget : ((oneProcess.fork 0).vmar 1).writeTarget 0x201001 1 =
      .ok ({ onePage with vmo := ⟨1, .all⟩ }, 1) := by decide +kernel
    refine ⟨fun _ => .inr (by decide), fun m o h => ?_⟩
    cases htarget.symm.trans h
    decide +kernel
  have hparent : Spares oneProcess (oneProcess.fork 0) 0x201000 1 childWrote
      (.write 0 0x201000 [7]) := by
    have htarget : (childWrote.vmar 0).writeTarget 0x201000 1 = .ok (onePage, 0) := by
      decide +kernel
    refine ⟨nofun, fun m o h => ?_⟩
    cases htarget.symm.trans h
    decide +kernel
  have hrun : (lts.restrict (Spares oneProcess (oneProcess.fork 0) 0x201000 1)).Reachable
      (oneProcess.fork 0) (childWrote.apply (.write 0 0x201000 [7])) :=
    .step (.step (.refl _) ⟨hchild, by decide +kernel, rfl⟩) ⟨hparent, by decide +kernel, rfl⟩
  exact ⟨hread, hlen ▸ fork_snapshot forked_oneProcess hread hrun⟩

/-- The old process writes the page first, and the new one reads what was written. -/
theorem exists_not_snapshot : ∃ s s₁ t : Procs, Forked s 0 s₁ ∧
    lts.step s₁ (.write 0 0x201000 [7]) t ∧ s.reads 0 0x201000 1 = .ok [0] ∧
      t.reads s.vmars.length 0x201000 1 = .ok [7] :=
  ⟨oneProcess, oneProcess.fork 0, _, forked_oneProcess, ⟨by decide +kernel, rfl⟩, by decide +kernel,
    by decide +kernel⟩

end Procs

end Jinux
