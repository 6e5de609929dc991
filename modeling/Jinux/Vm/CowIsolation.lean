import Jinux.Lib.Lts
import Jinux.Vm.VmoBytes

/-!
# Copy-on-write isolation

A tree of VMOs grows by allocating roots, slices and copy-on-write children, and its pages are read,
written, accessed and decommitted in any order.  Frames are shared by reference across the tree, so
that a write on one VMO leaves another alone is a matter of who owns a frame:

* a committed frame belongs to one page of one VMO (`VmoTree.Inv.unique`);
* a VMO never commits a frame that one of its ancestors, or it itself, inherited
  (`VmoTree.Inv.apart`), because what it commits is fresh and what they inherited is older.

Both hold in every reachable tree, and **a write on a copy-on-write child changes nothing that an
ancestor reads** follows (`VmoTree.cow_write_isolated`).
-/

namespace Jinux

open StateRules World

/-- The VMOs, and for each of them its ancestors, the parent first. -/
structure VmoTree where
  world : World
  ancestors : List (List VmoId)

/-- The operations on a tree of VMOs. -/
inductive VmoOp where
  /-- `VmoOptions::alloc`, neither contiguous nor with a pager. -/
  | alloc (size : ℕ) (resizable dma : Bool)
  /-- `VmoChildOptions::alloc` -/
  | child (parent : VmoId) (range : Range) (flags : VmoFlags) (childType : ChildType)
  /-- `read_bytes` -/
  | read (id : VmoId) (offset len : ℕ)
  /-- `write_bytes` -/
  | write (id : VmoId) (offset : ℕ) (buf : List UInt8)
  /-- `get_committed_frame` -/
  | access (id : VmoId) (pageIdx : ℕ) (writePage : Bool)
  /-- `decommit` -/
  | decommit (id : VmoId) (range : Range)

namespace VmoTree

/-- The ancestors of `id`. -/
def ancestorsOf (t : VmoTree) (id : VmoId) : List VmoId := t.ancestors.getD id []

/-- A new VMO with the given ancestors exists if the allocation succeeded. -/
def adopt (t : VmoTree) (anc : List VmoId) : EStateM.Result Fault World VmoId → VmoTree
  | .ok _ w => ⟨w, t.ancestors ++ [anc]⟩
  | .error _ w => ⟨w, t.ancestors⟩

/-- The tree after an operation, whether it succeeded or not. -/
def apply (t : VmoTree) : VmoOp → VmoTree
  | .alloc size resizable dma => t.adopt [] (allocVmo size { resizable, dma } t.world)
  | .child parent range flags childType =>
    t.adopt (parent :: t.ancestorsOf parent)
      (allocChildVmo parent range flags childType t.world)
  | .read id offset len => { t with world := after (readBytes id offset len) t.world }
  | .write id offset buf => { t with world := after (writeBytes id offset buf) t.world }
  | .access id pageIdx writePage =>
    { t with world := after (getCommittedFrame id pageIdx writePage) t.world }
  | .decommit id range => { t with world := after (decommit id range) t.world }

/-- The operation is on a VMO of the tree. -/
def Valid (t : VmoTree) : VmoOp → Prop
  | .alloc .. => True
  | .child id .. | .read id .. | .write id .. | .access id .. | .decommit id .. =>
    id < t.world.vmos.length

instance (t : VmoTree) : DecidablePred t.Valid
  | .alloc .. => .isTrue trivial
  | .child id .. | .read id .. | .write id .. | .access id .. | .decommit id .. =>
    inferInstanceAs (Decidable (id < t.world.vmos.length))

/-- All runs of the VMO operations. -/
def lts : Lts VmoTree VmoOp where
  step t op t' := t.Valid op ∧ t' = t.apply op

/-- No VMO yet, any contents of memory, any pattern of failing allocations. -/
def init (mem : FrameId → ℕ → UInt8) (noMemory : ℕ → Bool) : VmoTree :=
  ⟨{ mem, nextFrame := 0, noMemory, vmos := [] }, []⟩

theorem reachable_apply {t₀ t : VmoTree} (h : lts.Reachable t₀ t) {op : VmoOp}
    (hv : t.Valid op) : lts.Reachable t₀ (t.apply op) := h.step ⟨hv, rfl⟩

/-- Who owns the frames. -/
structure Inv (t : VmoTree) : Prop where
  length : t.ancestors.length = t.world.vmos.length
  wf : t.world.Wf
  /-- A committed frame belongs to one page of one VMO. -/
  unique : ∀ i j k k' f, (t.world.vmo i).committedPages.get? k = some f →
    (t.world.vmo j).committedPages.get? k' = some f → i = j ∧ k = k'
  /-- A VMO is younger than its ancestors. -/
  lt : ∀ c, ∀ a ∈ t.ancestorsOf c, a < c
  /-- A VMO never commits a frame that it or an ancestor inherited. -/
  apart : ∀ c a fs f k, a = c ∨ a ∈ t.ancestorsOf c → (t.world.vmo a).inheritedPages = some fs →
    f ∈ fs → (t.world.vmo c).committedPages.get? k ≠ some f

variable {t : VmoTree} {w' : World} {id c : VmoId} {w : World} {anc : List VmoId}

theorem inv_init (mem : FrameId → ℕ → UInt8) (noMemory : ℕ → Bool) : (init mem noMemory).Inv where
  length := rfl
  wf := ⟨nofun, nofun⟩
  unique _ _ _ _ _ h := by cases h
  lt _ _ h := by cases h
  apart _ _ _ _ _ _ h := by cases h

/-- Operations on one VMO keep the ownership of frames. -/
theorem Inv.evolve (hi : t.Inv) (h : Evolve id t.world w') :
    ({ t with world := w' } : VmoTree).Inv := by
  have hinh : ∀ a, (w'.vmo a).inheritedPages = (t.world.vmo a).inheritedPages := by
    intro a
    by_cases ha : a = id
    · rw [ha, h.inherited]
    · rw [h.other a ha]
  -- a committed page is an old one, or a new one of `id` with a fresh frame
  have hcom : ∀ i k f, (w'.vmo i).committedPages.get? k = some f →
      (t.world.vmo i).committedPages.get? k = some f ∨ i = id ∧ t.world.nextFrame ≤ f := by
    intro i k f hf
    by_cases hid : i = id
    · subst hid
      exact (h.fresh k f hf).imp_right fun hn => ⟨rfl, hn.1⟩
    · rw [h.other i hid] at hf
      exact .inl hf
  refine ⟨hi.length.trans h.length.symm, h.wf hi.wf, ?_, hi.lt, ?_⟩
  · intro i j k k' f hik hjk
    rcases hcom i k f hik with ho | ⟨rfl, hge⟩
    · rcases hcom j k' f hjk with ho' | ⟨-, hge⟩
      · exact hi.unique i j k k' f ho ho'
      · exact absurd (hi.wf.committed_lt i k f ho) (Nat.not_lt.2 hge)
    · rcases hcom j k' f hjk with ho' | ⟨rfl, -⟩
      · exact absurd (hi.wf.committed_lt j k' f ho') (Nat.not_lt.2 hge)
      · exact ⟨rfl, h.inj k k' f hge hik hjk⟩
  · intro c a fs f k hac hfs hf hck
    have hfs' : (t.world.vmo a).inheritedPages = some fs := (hinh a).symm.trans hfs
    rcases hcom c k f hck with ho | ⟨-, hge⟩
    · exact hi.apart c a fs f k hac hfs' hf ho
    · exact absurd (hi.wf.inherited_lt a fs f hfs' hf) (Nat.not_lt.2 hge)

/-- A new VMO owns no frame, and what it inherited has been allocated before. -/
theorem Inv.add (hi : t.Inv) {v : VmoInner} (hcom : v.committedPages = .empty)
    (hinh : ∀ fs f, v.inheritedPages = some fs → f ∈ fs → f < t.world.nextFrame)
    (hanc : ∀ a ∈ anc, a < t.world.vmos.length) :
    (⟨{ t.world with vmos := t.world.vmos ++ [v] }, t.ancestors ++ [anc]⟩ : VmoTree).Inv := by
  obtain ⟨w, as⟩ := t
  have hlen : as.length = w.vmos.length := hi.length
  set w' : World := { w with vmos := w.vmos ++ [v] } with hw'
  -- every VMO of the new tree is an old one, the new one, or absent
  have hvmo : ∀ j, w'.vmo j = if j = w.vmos.length then v else w.vmo j :=
    vmo_append v
  have hcom' : ∀ j k f, (w'.vmo j).committedPages.get? k = some f →
      j ≠ w.vmos.length ∧ (w.vmo j).committedPages.get? k = some f := by
    intro j k f h
    rw [hvmo] at h
    split_ifs at h with hj
    · rw [hcom] at h
      cases h
    · exact ⟨hj, h⟩
  have hanc' : ∀ c, (⟨w', as ++ [anc]⟩ : VmoTree).ancestorsOf c =
      if c = w.vmos.length then anc else (⟨w, as⟩ : VmoTree).ancestorsOf c := by
    intro c
    rw [← hlen]
    exact Table.getD_concat _ _ _ c
  refine ⟨by simp [hw', hlen], hi.wf.append hcom hinh, ?_, ?_, ?_⟩
  · intro i j k k' f h h'
    exact hi.unique i j k k' f (hcom' i k f h).2 (hcom' j k' f h').2
  · intro c a ha
    rw [hanc'] at ha
    split_ifs at ha with hc
    · rw [hc]
      exact hanc a ha
    · exact hi.lt c a ha
  · -- the new VMO has committed nothing, and no old VMO has it as an ancestor
    intro c a fs f k hac hfs hf hck
    obtain ⟨hc, hck⟩ := hcom' c k f hck
    rw [hanc', if_neg hc] at hac
    have ha : a ≠ w.vmos.length := by
      rcases hac with rfl | hac
      · exact hc
      · have hclt : c < as.length := by
          by_contra hge
          simp [ancestorsOf, List.getElem?_eq_none (Nat.not_lt.1 hge)] at hac
        exact Nat.ne_of_lt ((hi.lt c a hac).trans (hlen ▸ hclt))
    simp only [hvmo, if_neg ha] at hfs
    exact hi.apart c a fs f k hac hfs hf hck

/-! ### Every operation keeps the invariant -/

/-- What an allocation of a VMO does: pages of an existing VMO may be populated first, and the new
VMO has committed nothing. -/
inductive Adds (w : World) : EStateM.Result Fault World VmoId → Prop
  | ok {id n : VmoId} {w₁ : World} {v : VmoInner} (hev : Evolve id w w₁)
      (hcom : v.committedPages = .empty)
      (hinh : ∀ fs f, v.inheritedPages = some fs → f ∈ fs → f < w₁.nextFrame) :
      Adds w (.ok n { w₁ with vmos := w₁.vmos ++ [v] })
  | error {id : VmoId} {w₁ : World} {e : Fault} (hev : Evolve id w w₁) :
      Adds w (.error e w₁)

theorem Inv.adopt (hi : t.Inv) {r : EStateM.Result Fault World VmoId}
    (hanc : ∀ a ∈ anc, a < t.world.vmos.length) (hr : Adds t.world r) : (t.adopt anc r).Inv := by
  cases hr with
  | error hev => exact hi.evolve hev
  | ok hev hcom hinh =>
    refine (hi.evolve hev).add hcom hinh fun a ha => ?_
    rw [hev.length]
    exact hanc a ha

theorem adds_allocVmo (hw : w.Wf) (size : ℕ) (resizable dma : Bool) :
    Adds w (allocVmo size { resizable, dma } w) := by
  unfold allocVmo
  cases alignUp size pageSize with
  | error e => exact .error (Evolve.refl hw 0)
  | ok size => exact .ok (Evolve.refl hw 0) rfl nofun

theorem adds_allocChildVmo (hw : w.Wf) {parent : VmoId} (hid : parent < w.vmos.length)
    (range : Range) (flags : VmoFlags) (childType : ChildType) :
    Adds w (allocChildVmo parent range flags childType w) := by
  have hadds := allocChildVmo_addsChild hw hid range flags childType
  generalize allocChildVmo parent range flags childType w = r at hadds
  cases hadds with
  | error hpop => exact .error hpop.toEvolve
  | ok hpop _ _ hfs _ _ hcom hinh =>
    refine .ok hpop.toEvolve hcom fun fs' f hfs' hf => ?_
    rw [hinh] at hfs'
    cases hfs'
    obtain ⟨_, -, hs⟩ := exists_mem_of_forall₂ hfs hf
    exact hs.lt

/-- Decommitting takes frames away and adds none. -/
theorem decommitPage_evolve (hw : w.Wf) (hid : id < w.vmos.length) (offset : ℕ) :
    Evolve id w (after (decommitPage id offset) w) := by
  have hv : (after (decommitPage id offset) w).vmo id =
      { w.vmo id with
        committedPages := (w.vmo id).committedPages.remove (offset / pageSize) } :=
    vmo_setVmo_self hid
  have hget : ∀ k f, ((after (decommitPage id offset) w).vmo id).committedPages.get? k =
      some f → (w.vmo id).committedPages.get? k = some f := by
    intro k f h
    rw [hv] at h
    exact (OrdMap.of_get?_remove h).2
  refine ⟨length_setVmo, le_rfl, fun j hj => vmo_setVmo_ne hj, by rw [hv], by rw [hv],
    fun k f h => .inl (hget k f h), fun k _ f hge h _ => ?_⟩
  exact absurd (hw.committed_lt id k f (hget k f h)) (Nat.not_lt.2 hge)

theorem decommit_evolve (hw : w.Wf) (hid : id < w.vmos.length) (range : Range) :
    Evolve id w (after (decommit id range) w) := by
  unfold decommit
  cases getPageIdxRange range with
  | error e => exact Evolve.refl hw id
  | ok idxs =>
    -- the loop, from states in which `id` exists
    have hloop := Keeps.forM (R := fun s s' : World => s.Wf → id < s.vmos.length → Evolve id s s')
      (fun s hs _ => Evolve.refl hs id)
      (fun h h' hs hid => (h hs hid).trans (h' ((h hs hid).wf hs) ((h hs hid).length ▸ hid)))
      (fun pageIdx s hs hid => decommitPage_evolve hs hid (pageIdx * pageSize))
      (pageIdxs idxs)
    exact hloop w hw hid

theorem Inv.apply (hi : t.Inv) {op : VmoOp} (hv : t.Valid op) : (t.apply op).Inv := by
  cases op with
  | alloc size resizable dma =>
    have hadds := adds_allocVmo hi.wf size resizable dma
    rw [VmoTree.apply]
    exact hi.adopt (by simp) hadds
  | child parent range flags childType =>
    refine hi.adopt (fun a ha => ?_) (adds_allocChildVmo hi.wf hv range flags childType)
    rcases List.mem_cons.1 ha with rfl | ha
    · exact hv
    · exact (hi.lt parent a ha).trans hv
  | read id offset len => exact hi.evolve (readBytes_spec hi.wf hv offset len).1.toEvolve
  | write id offset buf =>
    obtain ⟨w1, mem, hpop, heq, -⟩ := writeBytes_writesOwn hi.wf hv offset buf
    have hev : Evolve id t.world { w1 with mem } := { hpop.toEvolve with }
    rw [VmoTree.apply, heq]
    exact hi.evolve hev
  | access id pageIdx writePage =>
    have hspec := getCommittedFrame_spec hi.wf hv pageIdx writePage
    simp only [VmoTree.apply, after]
    cases hr : getCommittedFrame id pageIdx writePage t.world with
    | ok f w' | error e w' => rw [hr] at hspec; exact hi.evolve hspec.1.toEvolve
  | decommit id range => exact hi.evolve (decommit_evolve hi.wf hv range)

/-- Frames are owned as `Inv` says in every tree that any run reaches. -/
theorem inv_of_reachable {mem : FrameId → ℕ → UInt8} {noMemory : ℕ → Bool}
    (h : lts.Reachable (init mem noMemory) t) : t.Inv := by
  refine h.invariant (inv_init mem noMemory) ?_
  rintro s op s' hi ⟨hv, rfl⟩
  exact hi.apply hv

/-! ### Isolation -/

theorem lt_length_of_cow (h : (w.vmo c).isCow = true) : c < w.vmos.length := by
  by_contra hge
  simp [vmo, List.getElem?_eq_none (Nat.not_lt.1 hge)] at h

/-- A write on a copy-on-write child leaves the contents of its ancestors as they were. -/
theorem Inv.pageContent_write (hi : t.Inv) {a : VmoId} (hc : c < t.world.vmos.length)
    (hcow : (t.world.vmo c).isCow = true) (ha : a ∈ t.ancestorsOf c) (offset : ℕ) (buf : List UInt8)
    (k : ℕ) :
    (after (writeBytes c offset buf) t.world).pageContent a k = t.world.pageContent a k := by
  obtain ⟨w1, mem, hpop, heq, hown⟩ := writeBytes_writesOwn hi.wf hc offset buf
  have hi1 : ({ t with world := w1 } : VmoTree).Inv := hi.evolve hpop.toEvolve
  rw [heq, ← hpop.content a k]
  refine pageContent_congr (fun f hf => funext fun j => ?_) rfl rfl rfl
  by_contra hne
  obtain ⟨k', hwrites⟩ := hown f j hne
  have hk' := hwrites.backs.own (hpop.cow.trans hcow)
  -- `f` cannot be both a frame of the ancestor and a committed frame of the child
  rcases hf with ⟨k'', hk''⟩ | ⟨fs, hfs, hmem⟩
  · have hac : a = c := (hi1.unique a c k'' k' f hk'' hk').1
    exact absurd (hi.lt c a ha) (hac ▸ lt_irrefl a)
  · exact hi1.apart c a fs f k' (.inr ha) hfs hmem hk'

/-- **A write on a copy-on-write child never changes what an ancestor reads.**  In every reachable
tree, whatever the write does (also when it fails half-way), every read of every ancestor has the
outcome it would have had before the write; the one exception is a read that needs a frame when the
allocator has none. -/
theorem cow_write_isolated {mem : FrameId → ℕ → UInt8} {noMemory : ℕ → Bool}
    (ht : lts.Reachable (init mem noMemory) t) {c a : VmoId}
    (hcow : (t.world.vmo c).isCow = true) (ha : a ∈ t.ancestorsOf c)
    (offset : ℕ) (buf : List UInt8) (readOffset len : ℕ) :
    let w' := after (writeBytes c offset buf) t.world
    let before := outcome (readBytes a readOffset len t.world)
    let later := outcome (readBytes a readOffset len w')
    later = before ∨
      (∃ n, t.world.noMemory n = true) ∧
        (before = .error outOfMemory ∨ later = .error outOfMemory) := by
  intro w' before later
  have hi : t.Inv := inv_of_reachable ht
  have hc : c < t.world.vmos.length := lt_length_of_cow hcow
  obtain ⟨w1, mem', hpop, heq, -⟩ := writeBytes_writesOwn hi.wf hc offset buf
  have heq' : w' = { w1 with mem := mem' } := heq
  have hne : a ≠ c := (hi.lt c a ha).ne
  have hev : Evolve c t.world w' := by
    rw [heq']
    exact { hpop.toEvolve with }
  have hi' : ({ t with world := w' } : VmoTree).Inv := hi.evolve hev
  have hmem : w'.noMemory = t.world.noMemory := by rw [heq']; exact hpop.noMemory
  have hsize : (w'.vmo a).size = (t.world.vmo a).size := by
    rw [heq']
    exact congrArg VmoInner.size (hpop.other a hne)
  have hread : w'.readSpec a readOffset len = t.world.readSpec a readOffset len :=
    readSpec_congr hsize (hi.pageContent_write hc hcow ha offset buf) readOffset len
  have halt : a < t.world.vmos.length := (hi.lt c a ha).trans hc
  -- both reads return the contents unless memory runs out
  obtain ⟨-, hb⟩ := readBytes_spec hi.wf halt readOffset len
  obtain ⟨-, hl⟩ := readBytes_spec hi'.wf (hev.length ▸ halt) readOffset len
  rcases hb with hb | ⟨hb, hn⟩
  · rcases hl with hl | ⟨hl, hn⟩
    · exact .inl (hl.trans (hread.trans hb.symm))
    · exact .inr ⟨hmem ▸ hn, .inr hl⟩
  · exact .inr ⟨hn, .inl hb⟩

/-- A one-page root and a copy-on-write child of it. -/
def cowPair : VmoTree :=
  ((init (fun _ _ => 0) fun _ => false).apply (.alloc pageSize false false)).apply
    (.child 0 ⟨0, pageSize⟩ {} .cow)

theorem cowPair_write_isolated :
    (cowPair.world.vmo 1).isCow = true ∧ 0 ∈ cowPair.ancestorsOf 1 ∧
      outcome (readBytes 0 0 2 (after (writeBytes 1 0 [7]) cowPair.world)) =
        outcome (readBytes 0 0 2 cowPair.world) := by
  have hcow : (cowPair.world.vmo 1).isCow = true := by decide +kernel
  have ha : 0 ∈ cowPair.ancestorsOf 1 := by decide +kernel
  have hr : lts.Reachable (init (fun _ _ => 0) fun _ => false) cowPair := by
    refine reachable_apply (reachable_apply (Lts.Reachable.refl _) ?_) ?_
    · exact trivial
    · decide +kernel
  refine ⟨hcow, ha, (cow_write_isolated hr hcow ha 0 [7] 0 2).resolve_right ?_⟩
  rintro ⟨⟨n, hn⟩, -⟩
  cases hn

end VmoTree

end Jinux
