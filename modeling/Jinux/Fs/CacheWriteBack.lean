import Jinux.Fs.CachedFile

/-!
# Writing cached pages back

`evict_range` writes the dirty pages of a range to the backend and keeps them; `decommit` writes
them back and drops them.  Neither changes what the cache shows (`CachedFile.WritesBack`).

* `CacheOp` : the calls of which a history is made;
* `CachedFile.refines_backend` : **in every history what was written last is read, and after an
  eviction or a decommit the backend has it**.
-/

namespace Jinux

open StateRules World CachedFile ByteStore PageCacheManager Contract OrdMap Function

variable {w₀ w : World} {id : VmoId} {n size k j : ℕ} {m : Bytes} {s s' : CachedFile}
  {range : Range}

namespace CachedFile

variable {g : ℕ → CacheM PUnit}

/-! ### Writing back -/

/-- The call returns, changes nothing that is seen, and leaves the pages of `ks` clean. -/
def WritesBack (w₀ : World) (id : VmoId) (n size : ℕ) (m : Bytes) (x : CacheM PUnit)
    (ks : ℕ → Prop) : Prop :=
  ∀ s, Caches w₀ id n size m s → ∃ s', x s = .ok ⟨⟩ s' ∧ Caches w₀ id n size m s' ∧
    ∀ k < n, ks k ∨ s.Clean k → s'.Clean k

/-- A loop writes back what its rounds write back. -/
theorem WritesBack.forM (hg : ∀ k, WritesBack w₀ id n size m (g k) (· = k)) (ks : List ℕ) :
    WritesBack w₀ id n size m (ks.forM g) (· ∈ ks) := by
  induction ks with
  | nil =>
    intro s h
    exact ⟨s, rfl, h, fun k _ hk => hk.resolve_left List.not_mem_nil⟩
  | cons k ks ih =>
    intro s h
    obtain ⟨s1, hrun1, h1, hclean1⟩ := hg k s h
    obtain ⟨s2, hrun2, h2, hclean2⟩ := ih s1 h1
    refine ⟨s2, (bind_of_ok hrun1).trans hrun2, h2, fun k' hk' hk => hclean2 k' hk' ?_⟩
    rcases hk with hk | hk
    · rcases List.mem_cons.1 hk with hk | hk
      · exact .inr (hclean1 k' hk' (.inl hk))
      · exact .inl hk
    · exact .inr (hclean1 k' hk' (.inr hk))

/-- A page of the backend is written back. -/
theorem Caches.backend (h : Caches w₀ id n size m s) {page : CachePage} (hk : k < n)
    (hp : s.pages.get? k = some page) {k' : ℕ} (hk' : k' < n) (hclean : k' = k ∨ s.Clean k')
    (hj : j < pageSize) :
    update s.backend k (s.world.mem page.frame) k' j = m (k' * pageSize + j) := by
  by_cases hkk : k' = k
  · rw [hkk, update_self]
    refine h.shown k page.frame ?_ j hj
    rw [h.frameOf_eq hk, h.same, hp]
    rfl
  · rw [update_of_ne hkk]
    exact h.clean k' hk' (hclean.resolve_left hkk) j hj

theorem evictPage_writesBack (k : ℕ) : WritesBack w₀ id n size m (evictPage k) (· = k) := by
  intro s h
  unfold evictPage
  rw [get_bind]
  cases hp : s.pages.get? k with
  | none =>
    refine ⟨s, rfl, h, fun k' _ hk' => hk'.elim (fun hkk page hpage => ?_) fun h => h⟩
    rw [hkk, hp] at hpage
    cases hpage
  | some page =>
    simp only [h.npages_eq]
    by_cases hd : page.state = .dirty ∧ k < n
    · rw [if_pos hd]
      have hget : ∀ k', (s.pages.insert k { page with state := .upToDate }).get? k' =
          if k' = k then some { page with state := .upToDate } else s.pages.get? k' :=
        fun k' => get?_insert ..
      -- the page is clean now, and the others are as they were
      have hclean : ∀ k', k' = k ∨ s.Clean k' → ∀ page',
          (s.pages.insert k { page with state := .upToDate }).get? k' = some page' →
          page'.state ≠ .dirty := by
        intro k' hk' page' hpage'
        rw [hget] at hpage'
        split_ifs at hpage' with hkk
        · cases hpage'
          exact nofun
        · exact hk'.resolve_left hkk page' hpage'
      refine ⟨_, rfl, ?_, fun k' _ => hclean k'⟩
      refine { h with same := fun k' => ?_, clean := fun k' hk' hc j hj => ?_ }
      · have hframe : (s.pages.get? k').map CachePage.frame =
            ((s.pages.insert k { page with state := .upToDate }).get? k').map CachePage.frame := by
          rw [hget]
          split_ifs with hkk
          · rw [hkk, hp]
            rfl
          · rfl
        exact (h.same k').trans hframe
      · refine h.backend hd.2 hp hk' ?_ hj
        by_cases hkk : k' = k
        · exact .inl hkk
        · refine .inr fun page' hpage' => hc page' ?_
          exact (hget k').trans ((if_neg hkk).trans hpage')
    · rw [if_neg hd]
      refine ⟨s, rfl, h, fun k' hk' hc => hc.elim (fun hkk page' hpage' hdirty => hd ?_) fun h => h⟩
      rw [hkk, hp] at hpage'
      cases hpage'
      exact ⟨hdirty, hkk ▸ hk'⟩

theorem manager_decommitPage_run (s : CachedFile) (k : ℕ) :
    PageCacheManager.decommitPage k s = .ok ⟨⟩
      (match s.pages.get? k with
      | some page =>
        { s with
          pages := s.pages.remove k
          backend := if page.state = .dirty ∧ k < s.npages then
            update s.backend k (s.world.mem page.frame) else s.backend }
      | none => s) := by
  unfold PageCacheManager.decommitPage
  rw [get_bind]
  cases hp : s.pages.get? k with
  | none => rfl
  | some page =>
    simp only
    by_cases hd : page.state = .dirty ∧ k < s.npages
    · rw [if_pos hd, if_pos hd]
      rfl
    · rw [if_neg hd, if_neg hd]
      rfl

/-- The page leaves the VMO. -/
theorem Caches.decommit (h : Caches w₀ id n size m s) (k : ℕ) {pages : OrdMap ℕ CachePage}
    {backend : ℕ → ℕ → UInt8} (hworld : w = s.world.setVmo id { s.world.vmo id with
      committedPages := (s.world.vmo id).committedPages.remove k })
    (hpages : ∀ k', pages.get? k' = if k' = k then none else s.pages.get? k')
    (hbackend : ∀ k' < n, k' = k ∨ s.Clean k' → ∀ j < pageSize,
      backend k' j = m (k' * pageSize + j)) :
    Caches w₀ id n size m { s with world := w, pages, backend } := by
  obtain rfl := h.vmo_eq
  have hv : w.vmo s.vmo = { s.world.vmo s.vmo with
      committedPages := (s.world.vmo s.vmo).committedPages.remove k } := by
    rw [hworld]
    exact vmo_setVmo_self h.lt
  have hget : ∀ k', (w.vmo s.vmo).committedPages.get? k' =
      if k' = k then none else (s.world.vmo s.vmo).committedPages.get? k' := by
    intro k'
    rw [hv, get?_remove]
  have hsub : ∀ k' f, (w.vmo s.vmo).committedPages.get? k' = some f →
      (s.world.vmo s.vmo).committedPages.get? k' = some f := by
    intro k' f hf
    rw [hget] at hf
    split_ifs at hf
    exact hf
  have hlen : w.vmos.length = s.world.vmos.length := by rw [hworld, length_setVmo]
  have hother : ∀ j ≠ s.vmo, w.vmo j = w₀.vmo j := by
    intro j hj
    rw [hworld, vmo_setVmo_ne hj, h.other j hj]
  refine ⟨?_, rfl, hlen ▸ h.lt, hlen.trans h.length_eq, hother, h.npages_eq,
    by rw [hv]; exact h.size_eq, h.dvd, h.bound, by rw [hv]; exact h.root, fun k' => ?_,
    fun k1 k2 f h1 h2 => ?_, fun k' f hf j hj => ?_, fun k' hk' hc j hj => ?_⟩
  · change w.Wf
    rw [hworld]
    exact h.wf.setVmo h.lt (fun k' f hf => (of_get?_remove hf).2) rfl
  · change (w.vmo s.vmo).committedPages.get? k' = (pages.get? k').map CachePage.frame
    rw [hget, hpages, h.same]
    split_ifs <;> rfl
  · exact h.inj k1 k2 f (hsub k1 f h1) (hsub k2 f h2)
  · have hmem : w.mem = s.world.mem := by
      rw [hworld]
      rfl
    rw [hmem]
    refine h.shown k' f ?_ j hj
    simp only [frameOf] at hf ⊢
    split_ifs at hf ⊢
    exact hsub k' f hf
  · refine hbackend k' hk' ?_ j hj
    by_cases hkk : k' = k
    · exact .inl hkk
    · refine .inr fun page hpage => hc page ?_
      exact (hpages k').trans ((if_neg hkk).trans hpage)

theorem decommitPage_writesBack (k : ℕ) :
    WritesBack w₀ id n size m (decommitPage (k * pageSize)) (· = k) := by
  intro s h
  have hdiv : k * pageSize / pageSize = k := Nat.mul_div_cancel k (by decide)
  have hrun : liftW (World.decommitPage id (k * pageSize)) s = .ok ⟨⟩ { s with
      world := s.world.setVmo id { s.world.vmo id with
        committedPages := (s.world.vmo id).committedPages.remove (k * pageSize / pageSize) } } :=
    rfl
  unfold decommitPage
  rw [get_bind, h.vmo_eq, bind_of_ok hrun, hdiv, h.same]
  cases hp : s.pages.get? k with
  | none =>
    have hpages : ∀ k', s.pages.get? k' = if k' = k then none else s.pages.get? k' := by
      intro k'
      split_ifs with hkk
      · rw [hkk, hp]
      · rfl
    refine ⟨_, rfl, h.decommit k rfl hpages fun k' hk' hc j hj => h.clean k' hk' ?_ j hj, ?_⟩
    · refine hc.elim (fun hkk page hpage => ?_) fun h => h
      rw [hkk, hp] at hpage
      cases hpage
    · refine fun k' _ hc => hc.elim (fun hkk page hpage => ?_) fun h => h
      rw [hkk, hp] at hpage
      cases hpage
  | some page =>
    simp only [Option.map_some, Option.isSome_some, if_true]
    rw [manager_decommitPage_run]
    simp only [hp]
    refine ⟨_, rfl, h.decommit k rfl (fun k' => get?_remove ..) fun k' hk' hc j hj => ?_, ?_⟩
    · rw [h.npages_eq]
      split_ifs with hd
      · exact h.backend hd.2 hp hk' hc hj
      · refine h.clean k' hk' (hc.elim (fun hkk page' hpage' hdirty => hd ?_) fun h => h) j hj
        rw [hkk, hp] at hpage'
        cases hpage'
        exact ⟨hdirty, hkk ▸ hk'⟩
    · refine fun k' _ hc page' hpage' => ?_
      obtain ⟨hkk, hpage'⟩ := of_get?_remove hpage'
      exact hc.resolve_left hkk page' hpage'

/-- The pages of a range that can be rounded to pages are written back. -/
theorem writesBack_range (hg : ∀ k, WritesBack w₀ id n size m (g k) (· = k))
    (hr : range.stop + (pageSize - 1) < usizeBound) :
    WritesBack w₀ id n size m (do
      let idxs ← liftR (getPageIdxRange range)
      (pageIdxs idxs).forM g) (Touches range) := by
  intro s h
  obtain ⟨s', hrun, h', hclean⟩ := WritesBack.forM hg (pageIdxs
    ⟨range.start / pageSize, (range.stop + (pageSize - 1)) / pageSize⟩) s h
  refine ⟨s', ?_, h', fun k hk hc => hclean k hk (hc.imp_left fun ht => ?_)⟩
  · rw [getPageIdxRange_of_lt hr]
    exact hrun
  · exact mem_pageIdxs.2 (RootVmo.touches_iff.1 ht)

/-- A range that cannot be rounded to pages is not walked at all. -/
theorem lt_of_range_ok {α : Type} {f : Range → CacheM α} {a : α}
    (h : (liftR (getPageIdxRange range) >>= f) s = .ok a s') :
    range.stop + (pageSize - 1) < usizeBound := by
  obtain ⟨idxs, _, hidxs, -⟩ := bind_ok.1 h
  obtain ⟨y, hy, -⟩ := Result.bind_ok.1 (liftR_ok.1 hidxs).1
  exact (alignUp_ok hy).1

/-! ### Histories of calls -/

end CachedFile

/-- A call on a page cache. -/
inductive CacheOp where
  | read (offset len : ℕ)
  | write (offset : ℕ) (buf : List UInt8)
  | evict (range : Range)
  | decommit (range : Range)
  deriving DecidableEq, Repr

namespace CacheOp

/-- The call; only a read returns bytes. -/
def exec : CacheOp → CacheM (List UInt8)
  | .read offset len => readBytes offset len
  | .write offset buf => do writeBytes offset buf; return []
  | .evict range => do evictRange range; return []
  | .decommit range => do CachedFile.decommit range; return []

/-- What the call does to the file. -/
def apply : CacheOp → Bytes → Bytes
  | .write offset buf, m => writeAt m offset buf
  | _, m => m

/-- What the call returns. -/
def result : CacheOp → Bytes → List UInt8
  | .read offset len, m => readAt m offset len
  | _, _ => []

/-- Reads and writes stay inside the VMO and the backend. -/
def InBounds (s : CachedFile) : CacheOp → Prop
  | .read offset len => offset + len ≤ s.size ∧ offset + len ≤ s.npages * pageSize
  | .write offset buf => offset + buf.length ≤ s.size ∧ offset + buf.length ≤ s.npages * pageSize
  | .evict _ => True
  | .decommit _ => True

end CacheOp

namespace CachedFile

variable {op : CacheOp}

/-- A call on the cache, next to what it does to the file.  A call that returns an error does
nothing to the file. -/
def lts : Lts (CachedFile × Bytes) CacheOp where
  step s op s' := op.InBounds s.1 ∧
    ((∃ out, op.exec s.1 = .ok out s'.1 ∧ s'.2 = op.apply s.2) ∨
      ∃ e, op.exec s.1 = .error (.err e) s'.1 ∧ s'.2 = s.2)

/-- The bytes of the backend. -/
def fileBytes (backend : ℕ → ℕ → UInt8) : Bytes := fun x => backend (x / pageSize) (x % pageSize)

theorem caches_of_withCapacity {capacity : ℕ} {backend : ℕ → ℕ → UInt8} {w' : World} (hw : w.Wf)
    (h : withCapacity capacity n backend w = .ok s w') :
    Caches s.world s.vmo n s.size (fileBytes backend) s := by
  obtain ⟨id, w1, halloc, h⟩ := bind_ok.1 h
  cases h
  obtain ⟨hlt, rfl, rfl⟩ := RootVmo.allocVmo_ok rfl halloc
  have hnew := vmo_append (w := w)
    { flags := { resizable := true }, size := RootOp.roundUp capacity } w.vmos.length
  rw [if_pos rfl] at hnew
  refine ⟨hw.append rfl (by simp), rfl, by simp, rfl, fun _ _ => rfl, rfl, rfl, ?_, ?_,
    by rw [hnew], fun k => ?_, ?_, fun k f hf => ?_, fun k _ _ j hj => ?_⟩
  · rw [size, hnew]
    exact Nat.dvd_mul_left _ _
  · rw [size, hnew]
    exact RootVmo.roundUp_lt hlt
  · rw [hnew]
    rfl
  · rw [hnew]
    simp
  · simp only [frameOf, hnew] at hf
    split_ifs at hf
    cases hf
  · change backend k j = backend ((k * pageSize + j) / pageSize) ((k * pageSize + j) % pageSize)
    rw [div_mul_add hj, Nat.mul_comm, Nat.mul_add_mod, Nat.mod_eq_of_lt hj]

theorem evictRange_writesBack (hr : range.stop + (pageSize - 1) < usizeBound) :
    WritesBack w₀ id n size m (evictRange range) (Touches range) :=
  writesBack_range evictPage_writesBack hr

theorem decommit_writesBack (hr : range.stop + (pageSize - 1) < usizeBound) :
    WritesBack w₀ id n size m (decommit range) (Touches range) :=
  writesBack_range decommitPage_writesBack hr

/-- A call that writes pages back, or fails before it has begun. -/
theorem caches_of_walk {f : Range → CacheM PUnit} (h : Caches w₀ id n size m s)
    (hx : range.stop + (pageSize - 1) < usizeBound →
      WritesBack w₀ id n size m (liftR (getPageIdxRange range) >>= f) (Touches range)) :
    Caches w₀ id n size m (after (liftR (getPageIdxRange range) >>= f) s) := by
  by_cases hr : range.stop + (pageSize - 1) < usizeBound
  · obtain ⟨s', hrun, h', -⟩ := hx hr s h
    rw [after_of_ok hrun]
    exact h'
  · rw [getPageIdxRange_of_le (Nat.not_lt.1 hr)]
    exact h

theorem exec_contract (h : Caches w₀ id n size m s) (hop : op.InBounds s) :
    Contract (Caches w₀ id n size m) op.exec
      (fun out s => out = op.result m ∧ Caches w₀ id n size (op.apply m) s)
      (fun _ => Caches w₀ id n size m) := by
  have hsize : s.size = size := by rw [CachedFile.size, h.vmo_eq, h.size_eq]
  cases op with
  | read offset len =>
    rw [CacheOp.InBounds, hsize, h.npages_eq] at hop
    exact (readBytes_contract hop.1 hop.2).weaken (fun _ h => h) (fun _ _ h => h) fun _ _ h => h.2.2
  | write offset buf =>
    rw [CacheOp.InBounds, hsize, h.npages_eq] at hop
    exact void ((writeBytes_contract hop.1 hop.2).weaken (fun _ h => h) (fun _ _ h => h)
      fun _ _ h => h.2.2)
  -- all arguments are given, so that elaboration does not run the calls
  | evict range =>
    exact @void _ _ _ _ _ _ _ _
      (@of_after _ _ _ _ _ fun s h => caches_of_walk h evictRange_writesBack)
  | decommit range =>
    exact @void _ _ _ _ _ _ _ _
      (@of_after _ _ _ _ _ fun s h => caches_of_walk h decommit_writesBack)

theorem Caches.step {m' : Bytes} (h : Caches w₀ id n size m s) (hs : lts.step (s, m) op (s', m')) :
    Caches w₀ id n size m' s' := by
  obtain ⟨hop, hrun⟩ := hs
  rcases hrun with ⟨out, hrun, rfl⟩ | ⟨e, hrun, rfl⟩
  · exact ((exec_contract h hop).of_ok h hrun).2
  · exact (exec_contract h hop).of_error h hrun

/-- What a cache that shows `m` returns and leaves in the backend. -/
structure Serves (s : CachedFile) (npages : ℕ) (m : Bytes) : Prop where
  /-- A read returns the bytes of the file, or finds no memory. -/
  read : ∀ offset len, offset + len ≤ s.size → offset + len ≤ npages * pageSize →
    (∃ s', readBytes offset len s = .ok (readAt m offset len) s') ∨
      ∃ s', readBytes offset len s = .error outOfMemory s' ∧
        ∃ i, s'.world.noMemory i = true
  /-- After an eviction or a decommit the backend has the pages of the range. -/
  written : ∀ range s', evictRange range s = .ok ⟨⟩ s' ∨
    decommit range s = .ok ⟨⟩ s' → ∀ k < npages, Touches range k → ∀ j < pageSize,
      s'.backend k j = m (k * pageSize + j)
  /-- Both succeed, for a range that can be rounded to pages. -/
  succeeds : ∀ range : Range, range.stop + (pageSize - 1) < usizeBound →
    (∃ s', evictRange range s = .ok ⟨⟩ s') ∧ ∃ s', decommit range s = .ok ⟨⟩ s'

theorem Caches.written (h : Caches w₀ id n size m s) {x : CacheM PUnit} {ks : ℕ → Prop}
    (hx : WritesBack w₀ id n size m x ks) (hrun : x s = .ok ⟨⟩ s') (hk : k < n) (hks : ks k)
    (hj : j < pageSize) : s'.backend k j = m (k * pageSize + j) := by
  obtain ⟨s1, hrun1, h1, hclean⟩ := hx s h
  cases hrun.symm.trans hrun1
  exact h1.clean k hk (hclean k hk (.inl hks)) j hj

theorem Caches.serves (h : Caches w₀ id n size m s) : s.Serves n m where
  read offset len hsize hn := by
    rw [CachedFile.size, h.vmo_eq, h.size_eq] at hsize
    cases hrun : readBytes offset len s with
    | ok out s' =>
      obtain ⟨rfl, -⟩ := (readBytes_contract hsize hn).of_ok h hrun
      exact .inl ⟨s', rfl⟩
    | error e s' =>
      obtain ⟨rfl, hm, -⟩ := (readBytes_contract hsize hn).of_error h hrun
      exact .inr ⟨s', rfl, hm⟩
  written range s' hrun k hk ht j hj := by
    rcases hrun with hrun | hrun
    · exact h.written (evictRange_writesBack (lt_of_range_ok hrun)) hrun hk ht hj
    · exact h.written (decommit_writesBack (lt_of_range_ok hrun)) hrun hk ht hj
  succeeds range hr := by
    obtain ⟨s1, hrun1, -⟩ := evictRange_writesBack hr s h
    obtain ⟨s2, hrun2, -⟩ := decommit_writesBack hr s h
    exact ⟨⟨s1, hrun1⟩, s2, hrun2⟩

/-- **The page cache refines its backend**: in every history of calls a read returns what was
written last, or what the backend had at the start, and after an eviction or a decommit the backend
has the pages of the range. -/
theorem refines_backend {capacity npages : ℕ} {backend : ℕ → ℕ → UInt8} {w w' : World}
    {s₀ : CachedFile} (hw : w.Wf) (hnew : withCapacity capacity npages backend w = .ok s₀ w')
    (hr : lts.Reachable (s₀, fileBytes backend) (s, m)) : s.Serves npages m := by
  have hall : Caches s₀.world s₀.vmo npages s₀.size m s :=
    hr.invariant (P := fun t => Caches s₀.world s₀.vmo npages s₀.size t.2 t.1)
      (caches_of_withCapacity hw hnew) fun _ _ _ h hs => h.step hs
  exact hall.serves

/-- A file of two pages, all of whose bytes are `7`, is written across its page boundary. -/
theorem refines_backend_two_pages :
    ∃ s₀ s w', withCapacity 8192 2 (fun _ _ => 7) RootVmo.emptyWorld = .ok s₀ w' ∧
      (CacheOp.write 4095 [1, 2]).exec s₀ = .ok [] s ∧
      s.Serves 2 (writeAt (fileBytes fun _ _ => 7) 4095 [1, 2]) := by
  have hwf : RootVmo.emptyWorld.Wf := ⟨nofun, nofun⟩
  obtain ⟨s₀, w', hnew⟩ : ∃ s₀ w',
      withCapacity 8192 2 (fun _ _ => 7) RootVmo.emptyWorld = .ok s₀ w' := ⟨_, _, rfl⟩
  obtain ⟨s, hwrite⟩ : ∃ s, (CacheOp.write 4095 [1, 2]).exec s₀ = .ok [] s := by
    cases hnew
    exact ⟨_, rfl⟩
  have hin : (CacheOp.write 4095 [1, 2]).InBounds s₀ := by
    cases hnew
    exact ⟨by decide, by decide⟩
  have hr : lts.Reachable (s₀, fileBytes fun _ _ => 7)
      (s, writeAt (fileBytes fun _ _ => 7) 4095 [1, 2]) :=
    .step (.refl _) (l := .write 4095 [1, 2]) ⟨hin, .inl ⟨[], hwrite, rfl⟩⟩
  exact ⟨s₀, s, w', hnew, hwrite, refines_backend hwf hnew hr⟩

end CachedFile

end Jinux
