import Jinux.Lib.Lts
import Jinux.Vm.FrameBytes
import Jinux.Vm.VmoPages

/-!
# A root VMO is a byte array

A root VMO keeps its bytes in frames that are committed on demand and may be given back.  What a
user of the VMO sees is simpler: `ByteStore`, an array of bytes that starts with zeros.

* `RootOp.exec` : the methods of the VMO;
* `RootOp.apply`, `RootOp.result` : what they do to the array and what they return;
* `RootVmo.Holds` : the VMO shows the bytes of the array, from a frame of its own for each committed
  page and as zeros for every other page;
* `RootVmo.exec_contract` : each method keeps `Holds` and returns what the array returns, or finds
  no memory and then changes nothing;
* `RootVmo.refines_byteStore` : **so it is in every history**.
-/

namespace Jinux

open StateRules World Contract List Nat

/-! ### The array -/

/-- An array of bytes.  There is nothing beyond its size. -/
@[ext] structure ByteStore where
  size : ℕ
  bytes : Bytes
  zero_of_le : ∀ x, size ≤ x → bytes x = 0

namespace ByteStore

/-- `n` zero bytes. -/
def zeros (n : ℕ) : ByteStore := ⟨n, fun _ => 0, fun _ _ => rfl⟩

/-- The array with `bs` at `offset`. -/
def write (a : ByteStore) (offset : ℕ) (bs : List UInt8) : ByteStore where
  size := a.size
  bytes x := if x < a.size then writeAt a.bytes offset bs x else 0
  zero_of_le _ hx := if_neg (not_lt.2 hx)

/-- The range, rounded down and up to page boundaries, has page `k`. -/
def Touches (r : Range) (k : ℕ) : Prop := r.start < (k + 1) * pageSize ∧ k * pageSize < r.stop

instance (r : Range) (k : ℕ) : Decidable (Touches r k) := inferInstanceAs (Decidable (_ ∧ _))

/-- The array with zeros in the pages that satisfy `p`. -/
def zeroPages (a : ByteStore) (p : ℕ → Prop) [DecidablePred p] : ByteStore where
  size := a.size
  bytes x := if p (x / pageSize) then 0 else a.bytes x
  zero_of_le x hx := by rw [a.zero_of_le x hx, ite_self]

/-- The array with another size: bytes are dropped or zeros are added at the end. -/
def resize (a : ByteStore) (n : ℕ) : ByteStore where
  size := n
  bytes x := if x < n then a.bytes x else 0
  zero_of_le _ hx := if_neg (not_lt.2 hx)

end ByteStore

/-! ### Histories -/

/-- A call of a method. -/
inductive RootOp where
  | read (offset len : ℕ)
  | write (offset : ℕ) (buf : List UInt8)
  | clear (range : Range)
  | commit (range : Range)
  | decommit (range : Range)
  | resize (newSize : ℕ)
  deriving DecidableEq, Repr

namespace RootOp

/-- The call on the VMO `id`; only a read returns bytes. -/
def exec (id : VmoId) : RootOp → VmoM (List UInt8)
  | .read offset len => readBytes id offset len
  | .write offset buf => do writeBytes id offset buf; return []
  | .clear range => do World.clear id range; return []
  | .commit range => do World.commit id range; return []
  | .decommit range => do World.decommit id range; return []
  | .resize newSize => do World.resize id newSize; return []

/-- A size rounded up to pages. -/
def roundUp (n : ℕ) : ℕ := (n + (pageSize - 1)) / pageSize * pageSize

/-- What the call does to the array. -/
def apply : RootOp → ByteStore → ByteStore
  | .read _ _, a => a
  | .write offset buf, a => a.write offset buf
  | .clear range, a => a.write range.start (replicate (range.stop - range.start) 0)
  | .commit _, a => a
  | .decommit range, a => a.zeroPages (ByteStore.Touches range)
  | .resize newSize, a => a.resize (roundUp newSize)

/-- What the call returns. -/
def result : RootOp → ByteStore → List UInt8
  | .read offset len, a => readAt a.bytes offset len
  | _, _ => []

/-- The call stays inside the array; a size is one that can be rounded up. -/
def InBounds (flags : VmoFlags) (a : ByteStore) : RootOp → Prop
  | .read offset len => offset + len ≤ a.size
  | .write offset buf => offset + buf.length ≤ a.size
  | .clear range => range.start ≤ range.stop ∧ range.stop ≤ a.size
  | .commit range => range.stop ≤ a.size
  | .decommit range => range.stop ≤ a.size
  | .resize newSize => flags.resizable = true ∧ newSize + (pageSize - 1) < usizeBound

end RootOp

namespace RootVmo

open RootOp (roundUp)

/-- A call on the VMO, next to what it does to the array.  A call that returns an error does nothing
to the array. -/
def lts (id : VmoId) (flags : VmoFlags) : Lts (World × ByteStore) RootOp where
  step s op s' := op.InBounds flags s.2 ∧
    ((∃ out, op.exec id s.1 = .ok out s'.1 ∧ s'.2 = op.apply s.2) ∨
      ∃ e, op.exec id s.1 = .error (.err e) s'.1 ∧ s'.2 = s.2)

/-- The VMO shows the bytes of the array. -/
structure Holds (id : VmoId) (flags : VmoFlags) (a : ByteStore) (w : World) : Prop where
  wf : w.Wf
  lt : id < w.vmos.length
  flags_eq : (w.vmo id).flags = flags
  root : (w.vmo id).inheritedPages = none
  size_eq : (w.vmo id).size = a.size
  dvd : pageSize ∣ a.size
  bound : a.size < usizeBound
  /-- No frame serves two pages. -/
  inj : ∀ k k' f, (w.vmo id).committedPages.get? k = some f →
    (w.vmo id).committedPages.get? k' = some f → k = k'
  /-- A committed page shows the bytes of the array. -/
  shown : Backed (w.vmo id).committedPages.get? w.mem a.bytes
  /-- Every other page is zero. -/
  zero : ∀ k, (w.vmo id).committedPages.get? k = none → ∀ j < pageSize,
    a.bytes (k * pageSize + j) = 0

variable {id : VmoId} {flags : VmoFlags} {a a' : ByteStore} {w w' : World} {k n : ℕ}
  {offset size : ℕ} {buf : List UInt8} {r range : Range}

/-- The run found no memory for a page, and the VMO still shows the array. -/
def NoMemory (id : VmoId) (flags : VmoFlags) (a : ByteStore) (e : Fault) (w : World) : Prop :=
  e = outOfMemory ∧ (∃ n, w.noMemory n = true) ∧ Holds id flags a w

/-! ### Committing -/

theorem Holds.bump (h : Holds id flags a w) : Holds id flags a w.bump :=
  { h with wf := (Grow.of_bump h.wf id).wf h.wf }

theorem Holds.commitNew (h : Holds id flags a w) (hk : (w.vmo id).committedPages.get? k = none) :
    Holds id flags a (w.commitNew id k fun _ => 0) := by
  have hg : Grow id w (w.commitNew id k fun _ => 0) := Grow.of_commitNew h.wf h.lt hk
  have hv : (w.commitNew id k fun _ => 0).vmo id = _ := vmo_commitNew_self h.lt
  have hget : ∀ k', ((w.commitNew id k fun _ => 0).vmo id).committedPages.get? k' =
      if k' = k then some w.nextFrame else (w.vmo id).committedPages.get? k' := by
    intro k'
    rw [hv, OrdMap.get?_insert]
  refine ⟨hg.wf h.wf, hg.length ▸ h.lt, by rw [hv, h.flags_eq], by rw [hv, h.root],
    by rw [hv, h.size_eq], h.dvd, h.bound, fun k1 k2 f => hg.page_unique (h.inj k1 k2 f),
    fun k' f hf j hj => ?_, fun k' hk' j hj => ?_⟩
  · rw [hget] at hf
    split_ifs at hf with hkk
    · cases hf
      rw [mem_commitNew, mem_fill_self, hkk, h.zero k hk j hj]
    · rw [hg.mem f (h.wf.committed_lt id k' f hf)]
      exact h.shown k' f hf j hj
  · rw [hget] at hk'
    split_ifs at hk'
    exact h.zero k' hk' j hj

/-- A page access commits the page at most. -/
theorem getCommittedFrame_contract (k : ℕ) (writePage : Bool) (w₀ : World) :
    Contract (fun w => Holds id flags a w ∧ Grow id w₀ w)
      (getCommittedFrame id k writePage)
      (fun f w => (Holds id flags a w ∧ Grow id w₀ w) ∧
        (w.vmo id).committedPages.get? k = some f)
      (NoMemory id flags a) := by
  rintro w ⟨h, hg⟩
  generalize hr : getCommittedFrame id k writePage w = r
  cases accessed h.wf h.lt hr with
  | committed hc => exact ⟨⟨h, hg⟩, hc⟩
  | commit hc hp =>
    simp only [pageContent, hc, h.root, Option.some.injEq] at hp
    subst hp
    refine ⟨⟨h.commitNew hc, hg.trans (Grow.of_commitNew h.wf h.lt hc)⟩, ?_⟩
    rw [vmo_commitNew_self h.lt, OrdMap.get?_insert_self]
  | noMemory hm => exact ⟨rfl, ⟨_, hm⟩, h.bump⟩
  | shared _ hi | zeros _ hi | missing _ hi => cases h.root.symm.trans hi

theorem ensureAllPagesExist_contract (ks : List ℕ) (writePage : Bool) (w₀ : World) :
    Contract (fun w => Holds id flags a w ∧ Grow id w₀ w)
      (ensureAllPagesExist id writePage ks)
      (fun fs w => (Holds id flags a w ∧ Grow id w₀ w) ∧
        Forall₂ (fun k f => (w.vmo id).committedPages.get? k = some f) ks fs)
      (NoMemory id flags a) := by
  induction ks generalizing w₀ with
  | nil => exact pure fun w h => ⟨h, .nil⟩
  | cons k ks ih =>
    refine bind (getCommittedFrame_contract k writePage w₀) fun f w hw => ?_
    -- what the first access committed stays
    have hrest := ih w w ⟨hw.1.1, Grow.refl hw.1.1.wf id⟩
    cases hr : ensureAllPagesExist id writePage ks w with
    | error e w' =>
      rw [hr] at hrest
      rw [bind_of_error hr]
      exact hrest
    | ok fs w' =>
      rw [hr] at hrest
      rw [bind_of_ok hr]
      obtain ⟨⟨h', hg'⟩, hfs⟩ := hrest
      exact ⟨⟨h', hw.1.2.trans hg'⟩, .cons (hg'.keep k f hw.2) hfs⟩

/-! ### Reading and writing -/

theorem Holds.getPageIdxRange (h : Holds id flags a w) (hr : r.stop ≤ a.size) :
    getPageIdxRange r = .ok ⟨r.start / pageSize, (r.stop + (pageSize - 1)) / pageSize⟩ :=
  getPageIdxRange_of_lt (lt_of_le_size h.dvd h.bound hr)

theorem readBytes_contract {len : ℕ} (hb : offset + len ≤ a.size) :
    Contract (Holds id flags a) (readBytes id offset len)
      (fun out w => out = readAt a.bytes offset len ∧ Holds id flags a w)
      (NoMemory id flags a) := by
  intro w h
  have hbound := h.bound
  rw [readBytes, addUsize_ok.2 ⟨by omega, rfl⟩, liftR_ok_bind, get_bind, h.size_eq,
    if_neg (by omega), h.getPageIdxRange hb, liftR_ok_bind]
  refine bind (ensureAllPagesExist_contract _ false w) (fun fs w' hw' => ?_) w ⟨h, .refl h.wf id⟩
  obtain ⟨⟨h', -⟩, hfs⟩ := hw'
  rw [if_neg (FramesAt.le hfs).not_gt]
  exact ⟨h'.shown.readFrames hfs, h'⟩

theorem bytes_write (hb : offset + buf.length ≤ a.size) :
    (a.write offset buf).bytes = writeAt a.bytes offset buf := by
  funext x
  by_cases hx : x < a.size
  · exact if_pos hx
  · rw [writeAt_of_le (by omega), a.zero_of_le x (not_lt.1 hx)]
    exact if_neg hx

/-- The bytes go to the frames of the pages that the write meets. -/
theorem Holds.write (h : Holds id flags a w) {fs : List FrameId} (hb : offset + buf.length ≤ a.size)
    (hfs : FramesAt (w.vmo id).committedPages.get? (offset / pageSize)
      (numPages offset (offset + buf.length)) fs) :
    Holds id flags (a.write offset buf)
      { w with mem := writeFrames w.mem fs (offset % pageSize) buf } := by
  refine { h with wf := { h.wf with }, shown := ?_, zero := fun k hk j hj => ?_ }
  all_goals rw [bytes_write hb]
  · exact h.shown.writeFrames h.inj hfs
  · -- a page without a frame is not written
    rw [writeAt_of_disjoint (not_mem_of_numPages hj fun hmem => ?_)]
    · exact h.zero k hk j hj
    · obtain ⟨f', -, hk'⟩ :=
        exists_mem_of_forall₂ (Forall₂.flip hfs) (mem_range'_1.2 hmem)
      cases hk'.symm.trans hk

theorem writeBytes_contract (hb : offset + buf.length ≤ a.size) :
    Contract (Holds id flags a) (writeBytes id offset buf)
      (fun _ => Holds id flags (a.write offset buf)) (NoMemory id flags a) := by
  intro w h
  have hbound := h.bound
  rw [writeBytes, addUsize_ok.2 ⟨by omega, rfl⟩, liftR_ok_bind, get_bind, h.size_eq,
    (debugAssert_ok (u := ())).2 hb, liftR_ok_bind, if_neg (by omega), h.getPageIdxRange hb,
    liftR_ok_bind]
  refine bind (ensureAllPagesExist_contract _ true w) (fun fs w' hw' => ?_) w ⟨h, .refl h.wf id⟩
  obtain ⟨⟨h', -⟩, hfs⟩ := hw'
  rw [if_neg (FramesAt.le hfs).not_gt]
  exact h'.write hb hfs

/-! ### Committing and decommitting ranges -/

theorem commitPage_contract (k : ℕ) :
    Contract (Holds id flags a) (commitPage id (k * pageSize)) (fun _ => Holds id flags a)
      (NoMemory id flags a) := by
  intro w h
  cases hc : (w.vmo id).committedPages.get? k with
  | some f =>
    have hrun : commitPage id (k * pageSize) w = .ok ⟨⟩ w := by
      unfold commitPage
      rw [Nat.mul_div_cancel k (by decide), get_bind, hc]
      rfl
    rw [hrun]
    exact h
  | none =>
    rw [commitPage_run hc]
    split_ifs with hm
    · exact ⟨rfl, ⟨_, hm⟩, h.bump⟩
    · exact h.commitNew hc

theorem commit_contract (hb : range.stop ≤ a.size) :
    Contract (Holds id flags a) (commit id range) (fun _ => Holds id flags a)
      (NoMemory id flags a) := by
  intro w h
  rw [commit, h.getPageIdxRange hb, liftR_ok_bind]
  exact forM (fun k _ => commitPage_contract k) w h

/-- The VMO record is replaced by one with fewer committed pages. -/
theorem Holds.setVmo (h : Holds id flags a w) {v : VmoInner} (hflags : v.flags = flags)
    (hroot : v.inheritedPages = none) (hsize : v.size = a'.size) (hdvd : pageSize ∣ a'.size)
    (hbound : a'.size < usizeBound) (hsub : ∀ k f, v.committedPages.get? k = some f →
      (w.vmo id).committedPages.get? k = some f ∧
        ∀ j < pageSize, a'.bytes (k * pageSize + j) = a.bytes (k * pageSize + j))
    (hzero : ∀ k, v.committedPages.get? k = none → ∀ j < pageSize,
      a'.bytes (k * pageSize + j) = 0) : Holds id flags a' (w.setVmo id v) := by
  have hv : (w.setVmo id v).vmo id = v := vmo_setVmo_self h.lt
  have hlen : (w.setVmo id v).vmos.length = w.vmos.length := length_setVmo
  refine ⟨h.wf.setVmo h.lt (fun k f hk => (hsub k f hk).1) (hroot.trans h.root.symm), hlen ▸ h.lt,
    hv.symm ▸ hflags, hv.symm ▸ hroot, hv.symm ▸ hsize, hdvd, hbound, ?_, ?_, hv.symm ▸ hzero⟩
  all_goals rw [hv]
  · exact fun k k' f hk hk' => h.inj k k' f (hsub k f hk).1 (hsub k' f hk').1
  · intro k f hk j hj
    rw [(hsub k f hk).2 j hj]
    exact h.shown k f (hsub k f hk).1 j hj

/-- A page that is given back reads as zeros. -/
theorem Holds.decommitPage (h : Holds id flags a w) (k : ℕ) :
    Holds id flags (a.zeroPages (· = k)) (after (decommitPage id (k * pageSize)) w) := by
  have hdiv : k * pageSize / pageSize = k := Nat.mul_div_cancel k (by decide)
  have hbytes : ∀ k' j, j < pageSize → (a.zeroPages (· = k)).bytes (k' * pageSize + j) =
      if k' = k then 0 else a.bytes (k' * pageSize + j) := by
    intro k' j hj
    simp [ByteStore.zeroPages, div_mul_add hj]
  refine h.setVmo h.flags_eq h.root h.size_eq h.dvd h.bound (fun k' f hk' => ?_)
    fun k' hk' j hj => ?_
  · obtain ⟨hkk, hk'⟩ := OrdMap.of_get?_remove hk'
    exact ⟨hk', fun j hj => by rw [hbytes k' j hj, if_neg (hdiv ▸ hkk)]⟩
  · rw [hdiv, OrdMap.get?_remove] at hk'
    rw [hbytes k' j hj]
    split_ifs at hk' ⊢
    · rfl
    · exact h.zero k' hk' j hj

theorem decommit_loop (ks : List ℕ) (h : Holds id flags a w) :
    ∃ w', (ks.forM fun k => decommitPage id (k * pageSize)) w = .ok ⟨⟩ w' ∧
      Holds id flags (a.zeroPages (· ∈ ks)) w' := by
  induction ks generalizing a w with
  | nil =>
    refine ⟨w, rfl, ?_⟩
    exact h
  | cons k ks ih =>
    obtain ⟨w', hrun, h'⟩ := ih (h.decommitPage k)
    refine ⟨w', hrun, ?_⟩
    have hsame : (a.zeroPages (· = k)).zeroPages (· ∈ ks) = a.zeroPages (· ∈ k :: ks) := by
      refine ByteStore.ext rfl (funext fun x => ?_)
      simp only [ByteStore.zeroPages]
      split_ifs with h1 h2 h3 <;> simp_all
    rw [← hsame]
    exact h'

theorem touches_iff : ByteStore.Touches r k ↔
    r.start / pageSize ≤ k ∧ k < (r.stop + (pageSize - 1)) / pageSize := by
  have hps := pageSize_pos
  have hstop : k < (r.stop + (pageSize - 1)) / pageSize ↔ k * pageSize < r.stop := by
    rw [lt_iff_add_one_le, le_div_iff_mul_le hps, add_mul]
    omega
  rw [ByteStore.Touches, ← Nat.div_lt_iff_lt_mul hps, Nat.lt_succ_iff, hstop]

theorem decommit_run (hb : range.stop ≤ a.size) (h : Holds id flags a w) :
    ∃ w', decommit id range w = .ok ⟨⟩ w' ∧
      Holds id flags (a.zeroPages (ByteStore.Touches range)) w' := by
  obtain ⟨w', hrun, h'⟩ := decommit_loop (pageIdxs
    ⟨range.start / pageSize, (range.stop + (pageSize - 1)) / pageSize⟩) h
  refine ⟨w', ?_, ?_⟩
  · rw [decommit, h.getPageIdxRange hb]
    exact hrun
  · have hsame : a.zeroPages (ByteStore.Touches range) = a.zeroPages (· ∈ pageIdxs
        ⟨range.start / pageSize, (range.stop + (pageSize - 1)) / pageSize⟩) := by
      simp [ByteStore.zeroPages, touches_iff]
    rw [hsame]
    exact h'

/-! ### Resizing -/

theorem Holds.setSize (h : Holds id flags a w) (hbytes : a'.bytes = a.bytes)
    (hdvd : pageSize ∣ a'.size) (hbound : a'.size < usizeBound) :
    Holds id flags a' (w.setVmo id { w.vmo id with size := a'.size }) :=
  h.setVmo h.flags_eq h.root rfl hdvd hbound (fun _ _ hk => ⟨hk, fun _ _ => by rw [hbytes]⟩)
    fun k hk j hj => by rw [hbytes]; exact h.zero k hk j hj

/-- A byte array in whose end, from `n` on, nothing but zeros stands, cut or extended to `n`. -/
theorem resize_bytes (hz : ∀ x, n ≤ x → a.bytes x = 0) : (a.resize n).bytes = a.bytes := by
  funext x
  by_cases hx : x < n
  · exact if_pos hx
  · rw [hz x (not_lt.1 hx)]
    exact if_neg hx

/-- Shrinking gives back the pages from the new size on. -/
theorem zeroPages_bytes (hn : pageSize ∣ n) :
    (a.resize n).bytes = (a.zeroPages (ByteStore.Touches ⟨n, a.size⟩)).bytes := by
  funext x
  obtain ⟨i, rfl⟩ := hn
  have hdiv := div_add_mod' x pageSize
  have hstart : pageSize * i < (x / pageSize + 1) * pageSize ↔ pageSize * i ≤ x := by
    rw [Nat.mul_comm pageSize i, Nat.mul_lt_mul_right pageSize_pos, Nat.lt_succ_iff,
      le_div_iff_mul_le pageSize_pos]
  simp only [ByteStore.resize, ByteStore.zeroPages, ByteStore.Touches, hstart]
  by_cases hx : x < pageSize * i
  · rw [if_pos hx, if_neg (by omega)]
  · rw [if_neg hx]
    split_ifs with ht
    · rfl
    · exact (a.zero_of_le x (by omega)).symm

theorem roundUp_lt (h : size + (pageSize - 1) < usizeBound) : roundUp size < usizeBound :=
  lt_of_le_of_lt (div_mul_le_self _ _) h

theorem resize_run {newSize : ℕ} (hflags : flags.resizable = true)
    (hb : newSize + (pageSize - 1) < usizeBound) (h : Holds id flags a w) :
    ∃ w', resize id newSize w = .ok ⟨⟩ w' ∧ Holds id flags (a.resize (roundUp newSize)) w' := by
  have halign : alignUp newSize pageSize = .ok (roundUp newSize) := by
    rw [alignUp, if_pos hb]
    rfl
  have hdvd : pageSize ∣ roundUp newSize := dvd_mul_left _ _
  have hbound : roundUp newSize < usizeBound := roundUp_lt hb
  rw [resize, get_bind, h.flags_eq, (assert_ok (u := ())).2 hflags, liftR_ok_bind, halign,
    liftR_ok_bind, get_bind, h.size_eq]
  generalize roundUp newSize = n at hdvd hbound
  split_ifs with heq hlt
  · subst heq
    have hsame : a.resize a.size = a := ByteStore.ext rfl (resize_bytes a.zero_of_le)
    exact ⟨w, rfl, hsame.symm ▸ h⟩
  · have hstop : (⟨n, a.size⟩ : Range).stop ≤ a.size := le_refl _
    obtain ⟨w', hrun, h'⟩ := decommit_run hstop h
    exact ⟨_, bind_of_ok hrun, h'.setSize (zeroPages_bytes hdvd) hdvd hbound⟩
  · have hbytes : (a.resize n).bytes = a.bytes :=
      resize_bytes fun x hx => a.zero_of_le x ((not_lt.1 hlt).trans hx)
    exact ⟨_, rfl, h.setSize hbytes hdvd hbound⟩

/-! ### Histories of calls -/

theorem contract_of_run {x : VmoM PUnit} {P Q : World → Prop} {E : Fault → World → Prop}
    (h : ∀ w, P w → ∃ w', x w = .ok ⟨⟩ w' ∧ Q w') : Contract P x (fun _ => Q) E := by
  intro w hw
  obtain ⟨w', hrun, hQ⟩ := h w hw
  rw [hrun]
  exact hQ

theorem exec_contract {op : RootOp} (hop : op.InBounds flags a) :
    Contract (Holds id flags a) (op.exec id)
      (fun out w => out = op.result a ∧ Holds id flags (op.apply a) w) (NoMemory id flags a) := by
  cases op with
  | read offset len => exact readBytes_contract hop
  | write offset buf => exact void (writeBytes_contract hop)
  | clear range =>
    refine void ?_
    rw [World.clear, subUsize_ok.2 ⟨hop.1, rfl⟩]
    refine writeBytes_contract ?_
    rw [length_replicate, Nat.add_sub_cancel' hop.1]
    exact hop.2
  -- all arguments are given, so that elaboration does not run the calls
  | commit range => exact @void _ _ _ _ _ _ _ _ (@commit_contract _ _ _ _ hop)
  | decommit range =>
    exact @void _ _ _ _ _ _ _ _ (@contract_of_run _ _ _ _ fun _ h => decommit_run hop h)
  | resize newSize =>
    exact @void _ _ _ _ _ _ _ _ (@contract_of_run _ _ _ _ fun _ h => resize_run hop.1 hop.2 h)

theorem allocVmo_ok (hflags : flags.contiguous = false)
    (h : allocVmo size flags w = .ok id w') : size + (pageSize - 1) < usizeBound ∧
      id = w.vmos.length ∧
      w' = { w with vmos := w.vmos ++ [{ flags, size := roundUp size }] } := by
  obtain ⟨n, halign, hadd⟩ := liftR_bind_ok.1 h
  obtain ⟨hlt, hn⟩ := alignUp_ok halign
  obtain rfl : n = roundUp size := hn
  rw [committedPagesIfContinuous, hflags] at hadd
  cases hadd
  exact ⟨hlt, rfl, rfl⟩

theorem holds_of_allocVmo (hw : w.Wf) (hflags : flags.contiguous = false)
    (h : allocVmo size flags w = .ok id w') : Holds id flags (.zeros (roundUp size)) w' := by
  obtain ⟨hlt, rfl, rfl⟩ := allocVmo_ok hflags h
  have hnew := vmo_append (w := w) { flags, size := roundUp size } w.vmos.length
  rw [if_pos rfl] at hnew
  refine ⟨hw.append rfl nofun, by simp, by rw [hnew], by rw [hnew], by rw [hnew]; rfl,
    dvd_mul_left _ _, roundUp_lt hlt, ?_, ?_, fun _ _ _ _ => rfl⟩
  all_goals rw [hnew]
  all_goals exact nofun

/-- **A root VMO is an array of bytes that starts with zeros**: in every history of calls inside the
array, each call returns what the array returns, or finds no memory. -/
theorem refines_byteStore {size : ℕ} {w₀ w₁ : World} (hw : w₀.Wf)
    (hflags : flags.contiguous = false) (halloc : allocVmo size flags w₀ = .ok id w₁)
    (hr : (lts id flags).Reachable (w₁, .zeros (roundUp size)) (w, a)) (op : RootOp)
    (hop : op.InBounds flags a) :
    (w.vmo id).size = a.size ∧
      ((∃ w', op.exec id w = .ok (op.result a) w') ∨
        ∃ w', op.exec id w = .error outOfMemory w' ∧ ∃ n, w'.noMemory n = true) := by
  have hall : Holds id flags a w := by
    refine hr.invariant (P := fun s => Holds id flags s.2 s.1)
      (holds_of_allocVmo hw hflags halloc) ?_
    rintro ⟨w, a⟩ op ⟨w', a'⟩ h ⟨hop, hstep⟩
    rcases hstep with ⟨out, hrun, rfl⟩ | ⟨e, hrun, rfl⟩
    · exact ((exec_contract hop).of_ok h hrun).2
    · exact ((exec_contract hop).of_error h hrun).2.2
  refine ⟨hall.size_eq, ?_⟩
  cases hrun : op.exec id w with
  | ok out w' =>
    obtain ⟨rfl, -⟩ := (exec_contract hop).of_ok hall hrun
    exact Or.inl ⟨w', rfl⟩
  | error e w' =>
    obtain ⟨rfl, hm, -⟩ := (exec_contract hop).of_error hall hrun
    exact Or.inr ⟨w', rfl, hm⟩

/-- A machine without VMOs and with enough memory. -/
def emptyWorld : World := ⟨fun _ _ => 0, 0, fun _ => false, []⟩

/-- A write that crosses a page boundary is read back. -/
theorem refines_byteStore_two_pages :
    ∃ w₁ w, allocVmo 5000 {} emptyWorld = .ok 0 w₁ ∧
      (RootOp.write 4094 [1, 2, 3, 4]).exec 0 w₁ = .ok [] w ∧ (w.vmo 0).size = 8192 ∧
      ((∃ w', (RootOp.read 4093 6).exec 0 w = .ok [0, 1, 2, 3, 4, 0] w') ∨
        ∃ w', (RootOp.read 4093 6).exec 0 w = .error outOfMemory w' ∧
          ∃ n, w'.noMemory n = true) := by
  have hwf : emptyWorld.Wf := ⟨nofun, nofun⟩
  obtain ⟨w₁, halloc⟩ : ∃ w₁, allocVmo 5000 {} emptyWorld = .ok 0 w₁ := ⟨_, rfl⟩
  obtain ⟨w, hwrite⟩ : ∃ w, (RootOp.write 4094 [1, 2, 3, 4]).exec 0 w₁ = .ok [] w := by
    cases halloc
    exact ⟨_, rfl⟩
  have hin : (RootOp.write 4094 [1, 2, 3, 4]).InBounds {} (.zeros (roundUp 5000)) := by
    change 4094 + 4 ≤ roundUp 5000
    decide
  have hin' : (RootOp.read 4093 6).InBounds {} ((RootOp.write 4094 [1, 2, 3, 4]).apply
      (.zeros (roundUp 5000))) := by
    change 4093 + 6 ≤ roundUp 5000
    decide
  have hr : (lts 0 {}).Reachable (w₁, .zeros (roundUp 5000))
      (w, (RootOp.write 4094 [1, 2, 3, 4]).apply (.zeros (roundUp 5000))) :=
    .step (.refl _) (l := .write 4094 [1, 2, 3, 4])
      ⟨hin, Or.inl ⟨[], hwrite, rfl⟩⟩
  have hread := refines_byteStore hwf rfl halloc hr (.read 4093 6) hin'
  exact ⟨w₁, w, halloc, hwrite, hread⟩

end RootVmo

end Jinux
