import Jinux.Lib.StateRules
import Jinux.Lib.Table
import Jinux.Vm.Vmo

/-!
# How a VMO gets its pages

`World.getCommittedFrame` is the only place where a page access allocates, copies or shares a frame.
`Accessed` lists everything it can do; the facts the rest of the development uses are derived from
that list:

* `Evolve id w w'` and `Grow id w w'` : operations on `id` add only fresh frames, and add them to
  `id` alone; populating pages takes none away;
* `pageContent` : the bytes of a page as a reader sees them, which populating a page never changes.
-/

namespace Jinux

open StateRules OrdMap List Nat

namespace World

/-- One more allocation took place. -/
def bump (w : World) : World := { w with nextFrame := w.nextFrame + 1 }

/-- The next frame is allocated and holds `page`. -/
def fill (w : World) (page : ℕ → UInt8) : World := w.bump.setFrame w.nextFrame page

/-- The next frame is allocated, holds `page` and becomes page `pageIdx` of `id`. -/
def commitNew (w : World) (id : VmoId) (pageIdx : ℕ) (page : ℕ → UInt8) : World :=
  (w.fill page).setVmo id
    { w.vmo id with committedPages := (w.vmo id).committedPages.insert pageIdx w.nextFrame }

/-- Every frame that a VMO refers to has been allocated. -/
structure Wf (w : World) : Prop where
  committed_lt : ∀ id k f, (w.vmo id).committedPages.get? k = some f → f < w.nextFrame
  inherited_lt : ∀ id fs f, (w.vmo id).inheritedPages = some fs → f ∈ fs → f < w.nextFrame

/-- The bytes of a page as a reader sees them; `none` beyond the pages of a slice. -/
def pageContent (w : World) (id : VmoId) (pageIdx : ℕ) : Option (ℕ → UInt8) :=
  match (w.vmo id).committedPages.get? pageIdx with
  | some f => some (w.mem f)
  | none =>
    match (w.vmo id).inheritedPages with
    | none => some fun _ => 0
    | some fs =>
      match fs[pageIdx]? with
      | some f => some (w.mem f)
      | none => if (w.vmo id).isCow then some fun _ => 0 else none

variable {w w' w'' : World} {id j : VmoId} {k : ℕ} {f : FrameId} {page : ℕ → UInt8}

/-! ### Field lemmas -/

variable {v : VmoInner} {x : VmoM FrameId} {next : World} {writePage : Bool}

@[simp] theorem vmo_setVmo_self (h : id < w.vmos.length) : (w.setVmo id v).vmo id = v := by
  simp [vmo, setVmo, h]

@[simp] theorem vmo_setVmo_ne (h : j ≠ id) : (w.setVmo id v).vmo j = w.vmo j := by
  simp [vmo, setVmo, getElem?_set_ne (Ne.symm h)]

@[simp] theorem vmo_fill : (w.fill page).vmo id = w.vmo id := rfl

@[simp] theorem length_setVmo : (w.setVmo id v).vmos.length = w.vmos.length := by
  simp [setVmo]

@[simp] theorem vmos_fill : (w.fill page).vmos = w.vmos := rfl

theorem mem_fill_of_lt (h : f < w.nextFrame) : (w.fill page).mem f = w.mem f := by
  simp [fill, setFrame, bump, Function.update_of_ne (Nat.ne_of_lt h)]

@[simp] theorem mem_fill_self : (w.fill page).mem w.nextFrame = page := by
  simp [fill, setFrame]

theorem vmo_commitNew_self (h : id < w.vmos.length) :
    (w.commitNew id k page).vmo id =
      { w.vmo id with committedPages := (w.vmo id).committedPages.insert k w.nextFrame } :=
  vmo_setVmo_self h

@[simp] theorem vmo_commitNew_ne (h : j ≠ id) : (w.commitNew id k page).vmo j = w.vmo j := by
  simp [commitNew, h]

theorem mem_commitNew : (w.commitNew id k page).mem = (w.fill page).mem := rfl

@[simp] theorem length_commitNew : (w.commitNew id k page).vmos.length = w.vmos.length := by
  simp [commitNew]

theorem vmo_append (v : VmoInner) (j : VmoId) :
    ({ w with vmos := w.vmos ++ [v] } : World).vmo j = if j = w.vmos.length then v else w.vmo j :=
  Table.getD_concat _ _ _ j

/-- A new VMO that owns no frame, and whose inherited frames have been allocated before. -/
theorem Wf.append (hw : w.Wf) (hcom : v.committedPages = .empty)
    (hinh : ∀ fs f, v.inheritedPages = some fs → f ∈ fs → f < w.nextFrame) :
    ({ w with vmos := w.vmos ++ [v] } : World).Wf where
  committed_lt j k f hf := by
    rw [vmo_append] at hf
    split_ifs at hf
    · rw [hcom] at hf
      cases hf
    · exact hw.committed_lt j k f hf
  inherited_lt j fs f hfs hf := by
    rw [vmo_append] at hfs
    split_ifs at hfs
    · exact hinh fs f hfs hf
    · exact hw.inherited_lt j fs f hfs hf

/-- A VMO that gives frames back. -/
theorem Wf.setVmo (hw : w.Wf) (hid : id < w.vmos.length)
    (hsub : ∀ k f, v.committedPages.get? k = some f → (w.vmo id).committedPages.get? k = some f)
    (hinh : v.inheritedPages = (w.vmo id).inheritedPages) : (w.setVmo id v).Wf where
  committed_lt j k f hf := by
    by_cases hj : j = id
    · subst hj
      rw [vmo_setVmo_self hid] at hf
      exact hw.committed_lt j k f (hsub k f hf)
    · rw [vmo_setVmo_ne hj] at hf
      exact hw.committed_lt j k f hf
  inherited_lt j fs f hfs hf := by
    by_cases hj : j = id
    · subst hj
      rw [vmo_setVmo_self hid, hinh] at hfs
      exact hw.inherited_lt j fs f hfs hf
    · rw [vmo_setVmo_ne hj] at hfs
      exact hw.inherited_lt j fs f hfs hf

/-- Filling the next frame with zeros and copying a page into it fills it with that page. -/
theorem setFrame_fill : (w.fill fun _ => 0).setFrame w.nextFrame page = w.fill page := by
  simp [fill, setFrame]

/-! ### Everything a page access can do -/

/-- Allocate the next frame with `page` in it and go on to the state `next`, or be out of memory. -/
def allocThen (w next : World) : EStateM.Result Fault World FrameId :=
  if w.noMemory w.nextFrame then .error (.err ⟨.enomem, none⟩) w.bump else .ok w.nextFrame next

theorem allocSingle_run (w : World) : allocSingle w = w.allocThen (w.fill fun _ => 0) := rfl

theorem bind_allocThen {g : FrameId → VmoM FrameId} {next' : World} (hx : x w = w.allocThen next)
    (hg : g w.nextFrame next = .ok w.nextFrame next') : (x >>= g) w = w.allocThen next' := by
  unfold allocThen at hx ⊢
  split_ifs at hx ⊢
  · exact bind_of_error hx
  · rw [bind_of_ok hx, hg]

theorem insertFrame_fill (hk : (w.vmo id).committedPages.get? k = none) :
    insertFrame id k w.nextFrame (w.fill page) = .ok ⟨⟩ (w.commitNew id k page) := by
  rw [insertFrame, get_bind, vmo_fill, hk]
  rfl

theorem commitPage_run (hk : (w.vmo id).committedPages.get? k = none) :
    commitPage id (k * pageSize) w =
      if w.noMemory w.nextFrame then .error (.err ⟨.enomem, none⟩) w.bump
      else .ok ⟨⟩ (w.commitNew id k fun _ => 0) := by
  have hdiv : k * pageSize / pageSize = k := Nat.mul_div_cancel k (by decide)
  unfold commitPage
  simp only [hdiv]
  rw [get_bind, hk]
  simp only [Option.isSome_none, Bool.false_eq_true, if_false]
  by_cases hm : w.noMemory w.nextFrame = true
  · rw [if_pos hm]
    exact bind_of_error (by rw [allocSingle_run, allocThen, if_pos hm])
  · rw [if_neg hm, bind_of_ok (by rw [allocSingle_run, allocThen, if_neg hm])]
    exact insertFrame_fill hk

theorem copyFromFrame_run (dst src : FrameId) (w : World) :
    copyFromFrame dst src w = .ok ⟨⟩ (w.setFrame dst (w.mem src)) := rfl

theorem getInheritedFrameOrAlloc_run (hw : w.Wf) (k : ℕ) (writePage : Bool) {fs : List FrameId}
    (hi : (w.vmo id).inheritedPages = some fs) :
    getInheritedFrameOrAlloc id k writePage w =
      match fs[k]? with
      | some f =>
        if (w.vmo id).shouldShareFrameWithParent writePage then .ok f w
        else w.allocThen (w.fill (w.mem f))
      | none =>
        if (w.vmo id).isCow then w.allocThen (w.fill fun _ => 0)
        else .error (.err ⟨.einval, some "the page is not inherited from parent"⟩) w := by
  unfold getInheritedFrameOrAlloc
  rw [get_bind, hi, bind_of_ok (show liftR (unwrap (some fs)) w = .ok fs w from rfl)]
  cases hf : fs[k]? with
  | none =>
    by_cases hcow : (w.vmo id).isCow = true
    · simp only [hcow]
      exact allocSingle_run w
    · simp only [hcow]
      rfl
  | some f =>
    by_cases hs : (w.vmo id).shouldShareFrameWithParent writePage = true
    · simp only [hs]
      rfl
    · simp only [hs]
      refine bind_allocThen (allocSingle_run w) ?_
      have hlt : f < w.nextFrame := hw.inherited_lt id fs f hi (mem_of_getElem? hf)
      rw [bind_of_ok (copyFromFrame_run _ _ _), mem_fill_of_lt hlt, setFrame_fill]
      rfl

/-- Keeping the frame that an allocation handed out. -/
theorem bind_insertFrame (hc : (w.vmo id).committedPages.get? k = none)
    (hx : x w = w.allocThen (w.fill page)) :
    (do let frame ← x; insertFrame id k frame; return frame : VmoM FrameId) w =
      w.allocThen (w.commitNew id k page) := by
  refine bind_allocThen hx ?_
  rw [bind_of_ok (insertFrame_fill hc)]
  rfl

/-- The error of an access beyond the pages of a slice. -/
def notInherited : Fault := .err ⟨.einval, some "the page is not inherited from parent"⟩

/-- The error of an allocation that finds no free frame. -/
def outOfMemory : Fault := .err ⟨.enomem, none⟩

/-- The outcomes of a page access: a committed frame is used; an inherited frame is shared; a page
of a root VMO, or one that a copy-on-write child writes, gets a frame of its own; a page beyond the
parent is zero for a copy-on-write child that reads it and an error for a slice. -/
inductive Accessed (id : VmoId) (k : ℕ) (writePage : Bool) (w : World) :
    EStateM.Result Fault World FrameId → Prop
  | committed {f : FrameId} (hc : (w.vmo id).committedPages.get? k = some f) :
      Accessed id k writePage w (.ok f w)
  | shared {f : FrameId} {fs : List FrameId} (hc : (w.vmo id).committedPages.get? k = none)
      (hi : (w.vmo id).inheritedPages = some fs) (hf : fs[k]? = some f)
      (hs : (w.vmo id).isCow = false ∨ writePage = false) : Accessed id k writePage w (.ok f w)
  | commit {page : ℕ → UInt8} (hc : (w.vmo id).committedPages.get? k = none)
      (hp : w.pageContent id k = some page)
      (hown : (w.vmo id).inheritedPages = none ∨ (w.vmo id).isCow = true ∧ writePage = true) :
      Accessed id k writePage w (.ok w.nextFrame (w.commitNew id k page))
  | zeros {fs : List FrameId} (hc : (w.vmo id).committedPages.get? k = none)
      (hi : (w.vmo id).inheritedPages = some fs) (hf : fs[k]? = none)
      (hcow : (w.vmo id).isCow = true) (hread : writePage = false) :
      Accessed id k writePage w (.ok w.nextFrame (w.fill fun _ => 0))
  | noMemory (hm : w.noMemory w.nextFrame = true) :
      Accessed id k writePage w (.error outOfMemory w.bump)
  | missing {fs : List FrameId} (hc : (w.vmo id).committedPages.get? k = none)
      (hi : (w.vmo id).inheritedPages = some fs) (hf : fs[k]? = none)
      (hcow : (w.vmo id).isCow = false) : Accessed id k writePage w (.error notInherited w)

theorem accessed_allocThen (h : Accessed id k writePage w (.ok w.nextFrame next)) :
    Accessed id k writePage w (w.allocThen next) := by
  unfold allocThen
  split_ifs with hm
  exacts [.noMemory hm, h]

/-- A page access, following the tests of the source in order. -/
theorem accessed (hw : w.Wf) (hid : id < w.vmos.length) {r : EStateM.Result Fault World FrameId}
    (hr : getCommittedFrame id k writePage w = r) : Accessed id k writePage w r := by
  subst hr
  unfold getCommittedFrame
  rw [get_bind]
  cases hc : (w.vmo id).committedPages.get? k with
  | some f => exact .committed hc
  | none =>
    cases hi : (w.vmo id).inheritedPages with
    | none =>
      simp only [Option.isNone_none, if_true]
      by_cases hm : w.noMemory w.nextFrame = true
      · rw [bind_of_error (by rw [commitPage_run hc, if_pos hm])]
        exact .noMemory hm
      · rw [bind_of_ok (by rw [commitPage_run hc, if_neg hm]), get_bind,
          vmo_commitNew_self hid, get?_insert_self]
        exact .commit hc (by simp [pageContent, hc, hi]) (.inl hi)
    | some fs =>
      have hrun := getInheritedFrameOrAlloc_run hw k writePage hi
      simp only [Option.isNone_some]
      by_cases hs : (w.vmo id).shouldShareFrameWithParent writePage = true
      · simp only [hs, Bool.not_true, Bool.false_eq_true, if_false] at hrun ⊢
        cases hf : fs[k]? with
        | some f =>
          simp only [hf] at hrun
          rw [bind_of_ok hrun]
          exact .shared hc hi hf (by simpa [VmoInner.shouldShareFrameWithParent] using hs)
        | none =>
          simp only [hf] at hrun
          split_ifs at hrun with hcow
          · rw [bind_allocThen (g := pure) hrun rfl]
            refine accessed_allocThen (.zeros hc hi hf hcow ?_)
            simpa [VmoInner.shouldShareFrameWithParent, hcow] using hs
          · rw [bind_of_error hrun]
            exact .missing hc hi hf (Bool.eq_false_iff.2 hcow)
      · have hown : (w.vmo id).isCow = true ∧ writePage = true := by
          simpa [VmoInner.shouldShareFrameWithParent] using hs
        simp only [hs, hown.1, if_true, Bool.not_false, Bool.false_eq_true, if_false] at hrun ⊢
        cases hf : fs[k]? with
        | some f =>
          rw [bind_insertFrame hc (by simpa only [hf] using hrun)]
          exact accessed_allocThen (.commit hc (by simp [pageContent, hc, hi, hf]) (.inr hown))
        | none =>
          rw [bind_insertFrame hc (by simpa only [hf] using hrun)]
          exact accessed_allocThen
            (.commit hc (by simp [pageContent, hc, hi, hf, hown.1]) (.inr hown))

/-- `id` refers to frame `f`, as a committed or as an inherited page. -/
def Refers (w : World) (id : VmoId) (f : FrameId) : Prop :=
  (∃ k, (w.vmo id).committedPages.get? k = some f) ∨
    ∃ fs, (w.vmo id).inheritedPages = some fs ∧ f ∈ fs

theorem Wf.lt_of_refers (hw : w.Wf) (h : w.Refers id f) : f < w.nextFrame := by
  rcases h with ⟨k, hk⟩ | ⟨fs, hfs, hf⟩
  · exact hw.committed_lt id k f hk
  · exact hw.inherited_lt id fs f hfs hf

/-- The contents of a page depend only on the frames that the VMO refers to. -/
theorem pageContent_congr (hmem : ∀ f, w.Refers j f → w'.mem f = w.mem f)
    (hk : (w'.vmo j).committedPages.get? k = (w.vmo j).committedPages.get? k)
    (hi : (w'.vmo j).inheritedPages = (w.vmo j).inheritedPages)
    (hcow : (w'.vmo j).isCow = (w.vmo j).isCow) : w'.pageContent j k = w.pageContent j k := by
  unfold pageContent
  rw [hk, hi, hcow]
  cases hc : (w.vmo j).committedPages.get? k with
  | some f => simp only [hmem f (.inl ⟨k, hc⟩)]
  | none =>
    cases hi : (w.vmo j).inheritedPages with
    | none => rfl
    | some fs =>
      cases hf : fs[k]? with
      | none => simp only [hf]
      | some f => simp [hf, hmem f (.inr ⟨fs, hi, mem_of_getElem? hf⟩)]

/-! ### Growth -/

/-- `w'` comes from `w` by operations on `id` alone: other VMOs stay, and every page that `id` gains
has a fresh frame. -/
structure Evolve (id : VmoId) (w w' : World) : Prop where
  length : w'.vmos.length = w.vmos.length
  next : w.nextFrame ≤ w'.nextFrame
  other : ∀ j ≠ id, w'.vmo j = w.vmo j
  inherited : (w'.vmo id).inheritedPages = (w.vmo id).inheritedPages
  cow : (w'.vmo id).isCow = (w.vmo id).isCow
  /-- A new page has a fresh frame. -/
  fresh : ∀ k f, (w'.vmo id).committedPages.get? k = some f →
    (w.vmo id).committedPages.get? k = some f ∨ w.nextFrame ≤ f ∧ f < w'.nextFrame
  /-- No fresh frame serves two pages. -/
  inj : ∀ k k' f, w.nextFrame ≤ f → (w'.vmo id).committedPages.get? k = some f →
    (w'.vmo id).committedPages.get? k' = some f → k = k'

namespace Evolve

theorem refl (hw : w.Wf) (id : VmoId) : Evolve id w w where
  length := rfl
  next := le_rfl
  other _ _ := rfl
  inherited := rfl
  cow := rfl
  fresh _ _ h := .inl h
  inj k _ f hf h _ := absurd (hw.committed_lt id k f h) (not_lt.2 hf)

theorem wf (hw : w.Wf) (h : Evolve id w w') : w'.Wf where
  committed_lt j k f hf := by
    by_cases hj : j = id
    · subst hj
      rcases h.fresh k f hf with hold | ⟨-, hlt⟩
      · exact lt_of_lt_of_le (hw.committed_lt j k f hold) h.next
      · exact hlt
    · rw [h.other j hj] at hf
      exact lt_of_lt_of_le (hw.committed_lt j k f hf) h.next
  inherited_lt j fs f hfs hf := by
    refine lt_of_lt_of_le (hw.inherited_lt j fs f ?_ hf) h.next
    by_cases hj : j = id
    · subst hj
      rw [← h.inherited]
      exact hfs
    · rw [← h.other j hj]
      exact hfs

/-- A frame that served one page serves one page. -/
theorem page_unique (h : Evolve id w w') {k' : ℕ}
    (hold : (w.vmo id).committedPages.get? k = some f →
      (w.vmo id).committedPages.get? k' = some f → k = k')
    (hk : (w'.vmo id).committedPages.get? k = some f)
    (hk' : (w'.vmo id).committedPages.get? k' = some f) : k = k' := by
  -- a fresh frame is new here; an older one was already in `w` on both pages
  by_cases hf : w.nextFrame ≤ f
  · exact h.inj k k' f hf hk hk'
  · exact hold ((h.fresh k f hk).resolve_right fun hn => hf hn.1)
      ((h.fresh k' f hk').resolve_right fun hn => hf hn.1)

theorem trans (h : Evolve id w w') (h' : Evolve id w' w'') : Evolve id w w'' where
  length := h'.length.trans h.length
  next := h.next.trans h'.next
  other j hj := (h'.other j hj).trans (h.other j hj)
  inherited := h'.inherited.trans h.inherited
  cow := h'.cow.trans h.cow
  fresh k f hf := by
    rcases h'.fresh k f hf with hf' | ⟨hge, hlt⟩
    · rcases h.fresh k f hf' with hf'' | ⟨hge, hlt⟩
      · exact .inl hf''
      · exact .inr ⟨hge, lt_of_lt_of_le hlt h'.next⟩
    · exact .inr ⟨h.next.trans hge, hlt⟩
  inj k k' f hge := h'.page_unique (h.inj k k' f hge)

end Evolve

/-- `w'` comes from `w` by populating pages of `id`: frames are only added, and only to `id`. -/
structure Grow (id : VmoId) (w w' : World) : Prop extends Evolve id w w' where
  noMemory : w'.noMemory = w.noMemory
  mem : ∀ f < w.nextFrame, w'.mem f = w.mem f
  size : (w'.vmo id).size = (w.vmo id).size
  /-- A committed page stays. -/
  keep : ∀ k f, (w.vmo id).committedPages.get? k = some f →
    (w'.vmo id).committedPages.get? k = some f

namespace Grow

theorem refl (hw : w.Wf) (id : VmoId) : Grow id w w where
  toEvolve := Evolve.refl hw id
  noMemory := rfl
  mem _ _ := rfl
  size := rfl
  keep _ _ h := h

theorem trans (h : Grow id w w') (h' : Grow id w' w'') : Grow id w w'' where
  toEvolve := h.toEvolve.trans h'.toEvolve
  noMemory := h'.noMemory.trans h.noMemory
  mem f hf := (h'.mem f (lt_of_lt_of_le hf h.next)).trans (h.mem f hf)
  size := h'.size.trans h.size
  keep k f hf := h'.keep k f (h.keep k f hf)

theorem of_bump (hw : w.Wf) (id : VmoId) : Grow id w w.bump :=
  { refl hw id with
    next := le_succ _
    fresh := fun _ _ h => .inl h }

theorem of_fill (hw : w.Wf) (id : VmoId) : Grow id w (w.fill page) :=
  { refl hw id with
    next := le_succ _
    mem := fun _ hf => mem_fill_of_lt hf
    fresh := fun _ _ h => .inl h }

theorem of_commitNew (hw : w.Wf) (hid : id < w.vmos.length)
    (hk : (w.vmo id).committedPages.get? k = none) : Grow id w (w.commitNew id k page) := by
  have hv : (w.commitNew id k page).vmo id = _ := vmo_commitNew_self hid
  have hget : ∀ k', ((w.commitNew id k page).vmo id).committedPages.get? k' =
      if k' = k then some w.nextFrame else (w.vmo id).committedPages.get? k' := by
    intro k'
    rw [hv, get?_insert]
  refine ⟨⟨by simp, le_succ _, fun j hj => vmo_commitNew_ne hj, by rw [hv], by rw [hv], ?_, ?_⟩,
    rfl, fun f hf => mem_fill_of_lt hf, by rw [hv], ?_⟩
  · intro k' f hf
    rw [hget] at hf
    split_ifs at hf with hkk
    · cases hf
      exact .inr ⟨le_rfl, lt_succ_self _⟩
    · exact .inl hf
  · -- the only page with a fresh frame is `k`
    have only : ∀ k' f, w.nextFrame ≤ f →
        ((w.commitNew id k page).vmo id).committedPages.get? k' = some f → k' = k := by
      intro k' f hge hf
      by_contra hne
      rw [hget, if_neg hne] at hf
      exact absurd (hw.committed_lt id k' f hf) (not_lt.2 hge)
    intro k1 k2 f hge h1 h2
    rw [only k1 f hge h1, only k2 f hge h2]
  · intro k' f hf
    have hne : k' ≠ k := by
      rintro rfl
      rw [hk] at hf
      cases hf
    rw [hget, if_neg hne]
    exact hf

/-- A committed page of any VMO stays. -/
theorem keep_any (h : Grow id w w') (hk : (w.vmo j).committedPages.get? k = some f) :
    (w'.vmo j).committedPages.get? k = some f := by
  by_cases hj : j = id
  · subst hj
    exact h.keep k f hk
  · rw [h.other j hj, hk]

/-- Growing one VMO leaves the pages of every other VMO as they were. -/
theorem pageContent_other (hw : w.Wf) (h : Grow id w w') (hj : j ≠ id) :
    w'.pageContent j k = w.pageContent j k :=
  pageContent_congr (fun f hf => h.mem f (hw.lt_of_refers hf)) (by rw [h.other j hj])
    (by rw [h.other j hj]) (by rw [h.other j hj])

/-- Growth that adds no page leaves the contents of the VMO as they were. -/
theorem pageContent_self (hw : w.Wf) (h : Grow id w w')
    (hk : (w'.vmo id).committedPages.get? k = (w.vmo id).committedPages.get? k) :
    w'.pageContent id k = w.pageContent id k :=
  pageContent_congr (fun f hf => h.mem f (hw.lt_of_refers hf)) hk h.inherited h.cow

end Grow

/-- `w'` comes from `w` by populating pages of `id` with the bytes a reader already saw. -/
structure Populate (id : VmoId) (w w' : World) : Prop extends Grow id w w' where
  content : ∀ j k, w'.pageContent j k = w.pageContent j k

namespace Populate

theorem refl (hw : w.Wf) (id : VmoId) : Populate id w w := ⟨Grow.refl hw id, fun _ _ => rfl⟩

theorem trans (h : Populate id w w') (h' : Populate id w' w'') : Populate id w w'' :=
  ⟨h.toGrow.trans h'.toGrow, fun j k => (h'.content j k).trans (h.content j k)⟩

/-- Growth that adds no page. -/
theorem of_grow (hw : w.Wf) (h : Grow id w w') (hv : w'.vmo id = w.vmo id) : Populate id w w' := by
  refine ⟨h, fun j k => ?_⟩
  by_cases hj : j = id
  · subst hj
    exact h.pageContent_self hw (by rw [hv])
  · exact h.pageContent_other hw hj

theorem of_commitNew (hw : w.Wf) (hid : id < w.vmos.length)
    (hk : (w.vmo id).committedPages.get? k = none) (hp : w.pageContent id k = some page) :
    Populate id w (w.commitNew id k page) := by
  have hg : Grow id w (w.commitNew id k page) := Grow.of_commitNew hw hid hk
  have hv : (w.commitNew id k page).vmo id = _ := vmo_commitNew_self hid
  refine ⟨hg, fun j k' => ?_⟩
  by_cases hj : j = id
  · subst hj
    by_cases hkk : k' = k
    · subst hkk
      rw [hp]
      unfold pageContent
      rw [hv, get?_insert_self]
      simp [mem_commitNew]
    · exact hg.pageContent_self hw (by rw [hv, get?_insert_of_ne hkk])
  · exact hg.pageContent_other hw hj

end Populate

/-- The frame that is written when page `k` of `id` is: its own, or for a slice the parent's. -/
def Backs (w : World) (id : VmoId) (k : ℕ) (f : FrameId) : Prop :=
  (w.vmo id).committedPages.get? k = some f ∨
    (w.vmo id).isCow = false ∧ ∃ fs, (w.vmo id).inheritedPages = some fs ∧ fs[k]? = some f

/-- The frame that a write of page `k` changes in place, neither allocated nor copied first. -/
def inPlace (w : World) (id : VmoId) (k : ℕ) : Option FrameId :=
  match (w.vmo id).committedPages.get? k with
  | some f => some f
  | none => if (w.vmo id).isCow then none else (w.vmo id).inheritedPages.bind (·[k]?)

theorem Backs.grow (h : w.Backs id k f) (hg : Grow id w w') : w'.Backs id k f := by
  refine h.imp (hg.keep k f) ?_
  rintro ⟨hcow, fs, hfs, hf⟩
  exact ⟨hg.cow ▸ hcow, fs, hg.inherited ▸ hfs, hf⟩

theorem Backs.own (h : w.Backs id k f) (hcow : (w.vmo id).isCow = true) :
    (w.vmo id).committedPages.get? k = some f :=
  h.resolve_right fun hs => by rw [hcow] at hs; cases hs.1

/-- A frame written in place after some growth was there before, or is fresh. -/
theorem inPlace_of_grow (hg : Grow id w w') (h : w'.inPlace id k = some f) :
    w.inPlace id k = some f ∨ w.nextFrame ≤ f := by
  unfold inPlace at h ⊢
  cases hc' : (w'.vmo id).committedPages.get? k with
  | some f' =>
    simp only [hc', Option.some.injEq] at h
    subst h
    exact (hg.fresh k f' hc').imp (fun hc => by simp only [hc]) And.left
  | none =>
    have hc : (w.vmo id).committedPages.get? k = none := by
      by_contra hne
      obtain ⟨f', hf'⟩ := Option.ne_none_iff_exists'.1 hne
      rw [hg.keep k f' hf'] at hc'
      cases hc'
    simp only [hc', hg.cow, hg.inherited] at h
    simp only [hc]
    exact .inl h

/-- What a page access of `id` at `k` promises: a frame with the bytes of the page, which backs the
page when it is written; or an error, and then out of memory unless the page does not exist. -/
def AccessSpec (id : VmoId) (k : ℕ) (writePage : Bool) (w : World) :
    EStateM.Result Fault World FrameId → Prop
  | .ok f w' => Populate id w w' ∧ f < w'.nextFrame ∧ w.pageContent id k = some (w'.mem f) ∧
      (writePage = true → w'.Backs id k f ∧ (w.inPlace id k = some f ∨ w.nextFrame ≤ f))
  | .error e w' => Populate id w w' ∧
      ((e = outOfMemory ∧ ∃ n, w.noMemory n = true) ∨
        e = notInherited ∧ w.pageContent id k = none)

/-- **Every page access keeps its promise.** -/
theorem getCommittedFrame_spec (hw : w.Wf) (hid : id < w.vmos.length) (k : ℕ) (writePage : Bool) :
    AccessSpec id k writePage w (getCommittedFrame id k writePage w) := by
  generalize hr : getCommittedFrame id k writePage w = r
  cases accessed hw hid hr with
  | committed hc =>
    exact ⟨Populate.refl hw id, hw.committed_lt id k _ hc, by simp [pageContent, hc],
      fun _ => ⟨.inl hc, .inl (by simp [inPlace, hc])⟩⟩
  | shared hc hi hf hs =>
    refine ⟨Populate.refl hw id, hw.inherited_lt id _ _ hi (mem_of_getElem? hf),
      by simp [pageContent, hc, hi, hf], fun hwr => ?_⟩
    -- a copy-on-write child never shares a page that it writes
    have hcow : (w.vmo id).isCow = false := hs.resolve_right (by simp [hwr])
    exact ⟨.inr ⟨hcow, _, hi, hf⟩, .inl (by simp [inPlace, hc, hcow, hi, hf])⟩
  | commit hc hp _ =>
    refine ⟨Populate.of_commitNew hw hid hc hp, lt_succ_self _, ?_, fun _ => ⟨.inl ?_, .inr le_rfl⟩⟩
    · rw [hp, mem_commitNew, mem_fill_self]
    · rw [vmo_commitNew_self hid, get?_insert_self]
  | zeros hc hi hf hcow hread =>
    refine ⟨Populate.of_grow hw (Grow.of_fill hw id) rfl, lt_succ_self _, ?_, fun hwr => ?_⟩
    · simp [pageContent, hc, hi, hf, hcow]
    · rw [hread] at hwr
      cases hwr
  | noMemory hm => exact ⟨Populate.of_grow hw (Grow.of_bump hw id) rfl, .inl ⟨rfl, _, hm⟩⟩
  | missing hc hi hf hcow =>
    exact ⟨Populate.refl hw id, .inr ⟨rfl, by simp [pageContent, hc, hi, hf, hcow]⟩⟩

end World

end Jinux
