import Jinux.Vm.VmoPages

/-!
# Reading and writing a VMO

`World.readBytes` and `World.writeBytes` walk over the pages of a range.  A read returns the bytes
of `pageContent`, whatever it allocates on the way (`readBytes_spec`), and a write changes memory
only in the frames it was handed, which for a copy-on-write child are its own (`writeBytes_cow`).
-/

namespace Jinux

open StateRules Result Nat

namespace World

variable {w w' w'' : World} {id j : VmoId} {k : ℕ} {f : FrameId}

/-! ### Frames for a list of pages -/

/-- What an access of page `k` that returned `f` still guarantees in a later state `w'`. -/
structure Serves (id : VmoId) (writePage : Bool) (w w' : World) (k : ℕ) (f : FrameId) : Prop where
  lt : f < w'.nextFrame
  content : w.pageContent id k = some (w'.mem f)
  written : writePage = true → w'.Backs id k f ∧ (w.inPlace id k = some f ∨ w.nextFrame ≤ f)

variable {writePage isCow : Bool} {α β : Type} {ks : List ℕ} {offset len : ℕ} {r : Result α}
  {fs : List FrameId} {idxs range : Range} {parent : VmoId}

theorem Serves.grow (h : Serves id writePage w w' k f) (hg : Grow id w' w'') :
    Serves id writePage w w'' k f where
  lt := lt_of_lt_of_le h.lt hg.next
  content := by rw [h.content, hg.mem f h.lt]
  written hwr := ⟨(h.written hwr).1.grow hg, (h.written hwr).2⟩

/-- What a page access guarantees after pages have been populated, it guarantees before. -/
theorem Serves.after_populate (h : Serves id writePage w' w'' k f) (hpop : Populate id w w') :
    Serves id writePage w w'' k f where
  lt := h.lt
  content := by rw [← hpop.content, h.content]
  written hwr := by
    obtain ⟨hback, hplace⟩ := h.written hwr
    refine ⟨hback, ?_⟩
    rcases hplace with hplace | hfresh
    · exact inPlace_of_grow hpop.toGrow hplace
    · exact .inr (hpop.next.trans hfresh)

/-- What accessing a list of pages promises. -/
def AccessesSpec (id : VmoId) (ks : List ℕ) (writePage : Bool) (w : World) :
    EStateM.Result Fault World (List FrameId) → Prop
  | .ok fs w' => Populate id w w' ∧ List.Forall₂ (Serves id writePage w w') ks fs
  | .error e w' => Populate id w w' ∧
      ((e = outOfMemory ∧ ∃ n, w.noMemory n = true) ∨
        e = notInherited ∧ ∃ k ∈ ks, w.pageContent id k = none)

theorem ensureAllPagesExist_spec (id : VmoId) (writePage : Bool) (ks : List ℕ) :
    ∀ {w : World}, w.Wf → id < w.vmos.length →
      AccessesSpec id ks writePage w (ensureAllPagesExist id writePage ks w) := by
  induction ks with
  | nil => exact fun hw _ => ⟨Populate.refl hw id, List.Forall₂.nil⟩
  | cons k ks ih =>
    intro w hw hid
    have hspec := getCommittedFrame_spec hw hid k writePage
    unfold ensureAllPagesExist
    cases hr : getCommittedFrame id k writePage w with
    | error e w1 =>
      rw [hr] at hspec
      rw [bind_of_error hr]
      refine ⟨hspec.1, hspec.2.imp_right fun h => ⟨h.1, k, List.mem_cons_self, h.2⟩⟩
    | ok f w1 =>
      rw [hr] at hspec
      obtain ⟨hpop, hlt, hcont, hown⟩ := hspec
      have hrest := ih (hpop.toGrow.toEvolve.wf hw) (hpop.length ▸ hid)
      rw [bind_of_ok hr]
      cases hr' : ensureAllPagesExist id writePage ks w1 with
      | error e w2 =>
        rw [hr'] at hrest
        rw [bind_of_error hr']
        refine ⟨hpop.trans hrest.1, hrest.2.imp (fun h => ⟨h.1, hpop.noMemory ▸ h.2⟩) ?_⟩
        rintro ⟨he, k', hk', hnone⟩
        exact ⟨he, k', List.mem_cons_of_mem _ hk', by rw [← hpop.content, hnone]⟩
      | ok fs w2 =>
        rw [hr'] at hrest
        rw [bind_of_ok hr']
        refine ⟨hpop.trans hrest.1, List.Forall₂.cons ?_ ?_⟩
        · exact Serves.grow ⟨hlt, hcont, hown⟩ hrest.1.toGrow
        · exact hrest.2.imp fun _ _ h => h.after_populate hpop

/-! ### Reading -/

/-- The outcome of a run, without the state. -/
def outcome {α : Type} : EStateM.Result Fault World α → Result α
  | .ok a _ => .ok a
  | .error e _ => .error e

theorem outcome_ok {r : EStateM.Result Fault World α} {a : α} :
    outcome r = .ok a ↔ ∃ w, r = .ok a w := by
  cases r <;> simp [outcome]

/-- The contents of a list of pages. -/
def pagesSpec (w : World) (id : VmoId) : List ℕ → Result (List (ℕ → UInt8))
  | [] => .ok []
  | k :: ks =>
    match w.pageContent id k with
    | none => .error notInherited
    | some page => do
      let pages ← pagesSpec w id ks
      pure (page :: pages)

/-- The bytes that `readFrames` collects, from the contents of the frames. -/
def readPages : List (ℕ → UInt8) → ℕ → ℕ → List UInt8
  | [], _, _ => []
  | page :: pages, start, n =>
    let len := min (pageSize - start) n
    if len = 0 then [] else slice page start len ++ readPages pages 0 (n - len)

/-- What `readBytes` returns when memory does not run out, as a function of the contents. -/
def readSpec (w : World) (id : VmoId) (offset len : ℕ) : Result (List UInt8) := do
  let stop ← addUsize offset len
  if (w.vmo id).size < stop then
    returnErrnoWithMessage .einval "read range exceeds vmo size"
  else
    let idxs ← getPageIdxRange ⟨offset, stop⟩
    let pages ← w.pagesSpec id (pageIdxs idxs)
    if pages.length * pageSize < len + offset % pageSize then returnErrno .einval
    else pure (readPages pages (offset % pageSize) len)

theorem readFrames_eq (mem : FrameId → ℕ → UInt8) (fs : List FrameId) :
    ∀ start n, readFrames mem fs start n = readPages (fs.map mem) start n := by
  induction fs with
  | nil => exact fun _ _ => rfl
  | cons f fs ih =>
    intro start n
    simp [readFrames, readPages, ih]

theorem pagesSpec_of_serves (h : List.Forall₂ (Serves id writePage w w') ks fs) :
    w.pagesSpec id ks = .ok (fs.map w'.mem) := by
  induction h with
  | nil => rfl
  | cons hs _ ih => rw [pagesSpec, hs.content, ih]; rfl

theorem pagesSpec_of_none (hk : k ∈ ks) (hnone : w.pageContent id k = none) :
    w.pagesSpec id ks = .error notInherited := by
  induction ks with
  | nil => cases hk
  | cons k' ks ih =>
    unfold pagesSpec
    rcases List.mem_cons.1 hk with rfl | hk
    · rw [hnone]
    · cases w.pageContent id k' with
      | none => rfl
      | some page => rw [ih hk]; rfl

/-- The contents decide what a read returns. -/
theorem readSpec_congr (hs : (w'.vmo id).size = (w.vmo id).size)
    (hc : ∀ k, w'.pageContent id k = w.pageContent id k) (offset len : ℕ) :
    w'.readSpec id offset len = w.readSpec id offset len := by
  have hp : ∀ ks, w'.pagesSpec id ks = w.pagesSpec id ks := by
    intro ks
    induction ks with
    | nil => rfl
    | cons k ks ih => rw [pagesSpec, pagesSpec, hc, ih]
  simp [readSpec, hs, hp]

/-- A run populates pages of `id` at most, and its outcome is `spec` unless memory runs out. -/
def Meets {α : Type} (id : VmoId) (w : World) (x : VmoM α) (spec : Result α) : Prop :=
  Populate id w (after x w) ∧
    (outcome (x w) = spec ∨ outcome (x w) = .error outOfMemory ∧ ∃ n, w.noMemory n = true)

theorem meets_liftR (hw : w.Wf) (r : Result α) : Meets id w (liftR r) r := by
  cases r <;> exact ⟨Populate.refl hw id, .inl rfl⟩

theorem meets_liftR_bind (hw : w.Wf) {f : α → VmoM β} {g : α → Result β}
    (h : ∀ a, Meets id w (f a) (g a)) : Meets id w (liftR r >>= f) (r >>= g) := by
  cases r with
  | error e => exact ⟨Populate.refl hw id, .inl rfl⟩
  | ok a => exact h a

theorem meets_get_bind {f : World → VmoM α} {spec : Result α} (h : Meets id w (f w) spec) :
    Meets id w (get >>= f) spec := h

/-- The frames for a list of pages, followed by a pure computation on the frames and the memory that
only depends on the contents. -/
theorem meets_ensureAllPagesExist_bind (hw : w.Wf) (hid : id < w.vmos.length)
    {f : List FrameId → VmoM α} {g : List (ℕ → UInt8) → Result α}
    (h : ∀ fs w', w'.Wf → Meets id w' (f fs) (g (fs.map w'.mem))) :
    Meets id w (ensureAllPagesExist id writePage ks >>= f) (w.pagesSpec id ks >>= g) := by
  have hspec := ensureAllPagesExist_spec id writePage ks hw hid
  cases hr : ensureAllPagesExist id writePage ks w with
  | error e w' =>
    rw [hr] at hspec
    unfold Meets
    rw [after_of_error (bind_of_error hr), bind_of_error hr]
    refine ⟨hspec.1, ?_⟩
    rcases hspec.2 with ⟨rfl, hm⟩ | ⟨rfl, k, hk, hnone⟩
    · exact .inr ⟨rfl, hm⟩
    · rw [pagesSpec_of_none hk hnone]
      exact .inl rfl
  | ok fs w' =>
    rw [hr] at hspec
    obtain ⟨hpop, hserve⟩ := hspec
    obtain ⟨hpop', hout⟩ := h fs w' (hpop.toGrow.toEvolve.wf hw)
    rw [pagesSpec_of_serves hserve]
    have hafter : after (ensureAllPagesExist id writePage ks >>= f) w = after (f fs) w' := by
      simp [after, bind_of_ok hr]
    refine ⟨hafter ▸ hpop.trans hpop', ?_⟩
    rw [bind_of_ok hr]
    exact hout.imp_right fun h => ⟨h.1, hpop.noMemory ▸ h.2⟩

/-- **A read returns the contents of the VMO**, or finds no memory for a page it has to commit; in
both cases no VMO's contents change. -/
theorem readBytes_spec (hw : w.Wf) (hid : id < w.vmos.length) (offset len : ℕ) :
    Meets id w (readBytes id offset len) (w.readSpec id offset len) := by
  refine meets_liftR_bind hw fun stop => meets_get_bind ?_
  by_cases hsz : (w.vmo id).size < stop
  · rw [if_pos hsz, if_pos hsz]
    exact meets_liftR hw _
  · rw [if_neg hsz, if_neg hsz]
    refine meets_liftR_bind hw fun idxs => ?_
    refine meets_ensureAllPagesExist_bind hw hid fun fs w' hw' => ?_
    rw [List.length_map]
    by_cases hlen : fs.length * pageSize < len + offset % pageSize
    · rw [if_pos hlen, if_pos hlen]
      exact meets_liftR hw' _
    · rw [if_neg hlen, if_neg hlen, ← readFrames_eq]
      exact meets_get_bind (meets_liftR hw' (.ok _))

/-! ### Single bytes -/

/-- The byte at offset `x` of a VMO, as a reader sees it. -/
def byteAt (w : World) (id : VmoId) (x : ℕ) : Option UInt8 :=
  (w.pageContent id (x / pageSize)).map fun page => page (x % pageSize)

theorem length_slice (page : ℕ → UInt8) (start n : ℕ) : (slice page start n).length = n := by
  simp [slice]

theorem readPages_getElem? (pages : List (ℕ → UInt8)) :
    ∀ start n i, start < pageSize → start + n ≤ pages.length * pageSize → i < n →
      (readPages pages start n)[i]? =
        pages[(start + i) / pageSize]?.map fun page => page ((start + i) % pageSize) := by
  induction pages with
  | nil =>
    intro start n i _ hn hi
    simp only [List.length_nil] at hn
    omega
  | cons page pages ih =>
    intro start n i hstart hn hi
    simp only [List.length_cons, Nat.add_mul] at hn
    have hlen : min (pageSize - start) n ≠ 0 := by omega
    simp only [readPages, if_neg hlen]
    by_cases hlt : i < min (pageSize - start) n
    · rw [List.getElem?_append_left (by rwa [length_slice]), div_eq_of_lt (by omega),
        mod_eq_of_lt (by omega)]
      simp [slice, hlt]
    · -- the byte lies in a later page, and the first page is read to its end
      have hfull : min (pageSize - start) n = pageSize - start := by omega
      have hsum : start + i = i - (pageSize - start) + pageSize := by omega
      rw [List.getElem?_append_right (by rw [length_slice]; omega), length_slice, hfull,
        ih 0 _ _ pageSize_pos (by omega) (by omega), hsum, Nat.add_div_right _ pageSize_pos]
      simp

theorem length_readPages (pages : List (ℕ → UInt8)) :
    ∀ start n, start < pageSize → start + n ≤ pages.length * pageSize →
      (readPages pages start n).length = n := by
  induction pages with
  | nil =>
    intro start n _ hn
    simp only [List.length_nil] at hn
    simp only [readPages, List.length_nil]
    omega
  | cons page pages ih =>
    intro start n hstart hn
    simp only [List.length_cons, Nat.add_mul] at hn
    simp only [readPages]
    split_ifs with hlen
    · simp only [List.length_nil]
      omega
    · rw [List.length_append, length_slice, ih 0 _ pageSize_pos (by omega)]
      omega

theorem pagesSpec_ok {pages : List (ℕ → UInt8)} (h : w.pagesSpec id ks = .ok pages) :
    List.Forall₂ (fun k page => w.pageContent id k = some page) ks pages := by
  induction ks generalizing pages with
  | nil =>
    cases h
    exact .nil
  | cons k ks ih =>
    rw [pagesSpec] at h
    cases hk : w.pageContent id k with
    | none =>
      rw [hk] at h
      cases h
    | some page =>
      rw [hk] at h
      obtain ⟨rest, hrest, h⟩ := bind_ok.1 h
      cases h
      exact .cons hk (ih hrest)

/-- The pages that `getPageIdxRange` names for a range of bytes hold all of them. -/
theorem pageIdxs_getElem? (h : getPageIdxRange ⟨offset, offset + len⟩ = .ok idxs) {i : ℕ}
    (hi : i < len) :
    (pageIdxs idxs)[(offset % pageSize + i) / pageSize]? = some ((offset + i) / pageSize) := by
  rw [getPageIdxRange_ok h, pageIdxs]
  have hsum : offset + i = offset % pageSize + i + pageSize * (offset / pageSize) := by
    have := mod_add_div offset pageSize
    omega
  have hdiv : (offset + i) / pageSize = offset / pageSize + (offset % pageSize + i) / pageSize := by
    rw [hsum, add_mul_div_left _ _ pageSize_pos, add_comm]
  have hlt : (offset + i) / pageSize < (offset + len + (pageSize - 1)) / pageSize := by
    rw [Nat.lt_iff_add_one_le, Nat.le_div_iff_mul_le pageSize_pos, Nat.add_mul]
    have := div_mul_le_self (offset + i) pageSize
    omega
  have hidx : (offset % pageSize + i) / pageSize <
      (offset + len + (pageSize - 1)) / pageSize - offset / pageSize := by omega
  rw [List.getElem?_range' hidx, hdiv, one_mul]

/-- What a successful read returned, byte by byte. -/
theorem readBytes_ok (hw : w.Wf) (hid : id < w.vmos.length) {bs : List UInt8}
    (h : outcome (readBytes id offset len w) = .ok bs) :
    offset + len < usizeBound ∧ offset + len ≤ (w.vmo id).size ∧
      (∃ idxs, getPageIdxRange ⟨offset, offset + len⟩ = .ok idxs ∧
        len + offset % pageSize ≤ (pageIdxs idxs).length * pageSize) ∧
      bs.length = len ∧ ∀ i < len, bs[i]? = w.byteAt id (offset + i) := by
  have hspec : w.readSpec id offset len = .ok bs := by
    rcases (readBytes_spec hw hid offset len).2 with hs | ⟨hs, -⟩
    · rw [← hs, h]
    · rw [h] at hs
      cases hs
  obtain ⟨stop, hstop, hspec⟩ := bind_ok.1 hspec
  obtain ⟨hlt, rfl⟩ := addUsize_ok.1 hstop
  split_ifs at hspec with hsz
  · cases hspec
  obtain ⟨idxs, hidxs, hspec⟩ := Result.bind_ok.1 hspec
  obtain ⟨pages, hpages, hspec⟩ := bind_ok.1 hspec
  split_ifs at hspec with hlen
  · cases hspec
  obtain rfl := pure_ok.1 hspec
  have hall := pagesSpec_ok hpages
  have hps : offset % pageSize < pageSize := mod_lt _ (by decide)
  refine ⟨hlt, not_lt.1 hsz, ⟨idxs, hidxs, ?_⟩, length_readPages _ _ _ hps (by omega),
    fun i hi => ?_⟩
  · rw [hall.length_eq]
    omega
  · rw [readPages_getElem? _ _ _ _ hps (by omega) hi, byteAt]
    obtain ⟨hidx, hval⟩ := List.getElem?_eq_some_iff.1 (pageIdxs_getElem? hidxs hi)
    have hidx' : (offset % pageSize + i) / pageSize < pages.length := hall.length_eq ▸ hidx
    have hpage := List.forall₂_iff_get.1 hall |>.2 _ hidx hidx'
    simp only [List.get_eq_getElem, hval] at hpage
    have hmod : (offset % pageSize + i) % pageSize = (offset + i) % pageSize := mod_add_mod _ _ _
    rw [hpage, List.getElem?_eq_getElem hidx', hmod]

/-- The frame that serves page `k` to a reader without an allocation. -/
def frameAt (w : World) (id : VmoId) (k : ℕ) : Option FrameId :=
  ((w.vmo id).committedPages.get? k).or ((w.vmo id).inheritedPages.bind (·[k]?))

theorem pageContent_of_frameAt (h : w.frameAt id k = some f) :
    w.pageContent id k = some (w.mem f) := by
  unfold frameAt at h
  unfold pageContent
  cases hc : (w.vmo id).committedPages.get? k with
  | some f' =>
    simp only [hc, Option.some_or] at h
    rw [h]
  | none =>
    simp only [hc, Option.none_or, Option.bind_eq_some_iff] at h
    obtain ⟨fs, hfs, hf⟩ := h
    simp [hfs, hf]

/-- A page without a frame is all zeros, or does not exist. -/
theorem pageContent_of_no_frame (h : w.frameAt id k = none) : w.pageContent id k =
    if (w.vmo id).inheritedPages.isNone || (w.vmo id).isCow then some fun _ => 0 else none := by
  obtain ⟨hk, hfs⟩ := Option.or_eq_none_iff.1 h
  unfold pageContent
  rw [hk]
  cases hi : (w.vmo id).inheritedPages with
  | none => rfl
  | some fs =>
    rw [hi] at hfs
    replace hfs : fs[k]? = none := hfs
    simp [hfs]

theorem frameAt_eq_some : w.frameAt id k = some f ↔
    (w.vmo id).committedPages.get? k = some f ∨ (w.vmo id).committedPages.get? k = none ∧
      ∃ fs, (w.vmo id).inheritedPages = some fs ∧ fs[k]? = some f := by
  unfold frameAt
  cases (w.vmo id).committedPages.get? k <;> simp [Option.bind_eq_some_iff]

/-- A byte depends on the frame of its page only. -/
theorem byteAt_with_mem {mem : FrameId → ℕ → UInt8} {x : ℕ}
    (h : ∀ f, w.frameAt id (x / pageSize) = some f →
      mem f (x % pageSize) = w.mem f (x % pageSize)) :
    ({ w with mem } : World).byteAt id x = w.byteAt id x := by
  cases hf : w.frameAt id (x / pageSize) with
  | some f =>
    have hf' : ({ w with mem } : World).frameAt id (x / pageSize) = some f := hf
    rw [byteAt, byteAt, pageContent_of_frameAt hf, pageContent_of_frameAt hf']
    exact congrArg some (h f hf)
  | none =>
    have hf' : ({ w with mem } : World).frameAt id (x / pageSize) = none := hf
    rw [byteAt, byteAt, pageContent_of_no_frame hf, pageContent_of_no_frame hf']
    rfl

section Frames

variable (hw : w.Wf) (hs : (w.vmo id).shouldShareFrameWithParent writePage = true)

include hw hs

/-- A page that has a frame is read without an allocation, and so is that of a slice written. -/
theorem getCommittedFrame_of_frameAt (h : w.frameAt id k = some f) :
    getCommittedFrame id k writePage w = .ok f w := by
  unfold getCommittedFrame
  rw [get_bind]
  rcases frameAt_eq_some.1 h with hc | ⟨hc, fs, hi, hf⟩
  · rw [hc]
    rfl
  · have hrun := getInheritedFrameOrAlloc_run hw k writePage hi
    simp only [hf, hs] at hrun
    simp only [hc, hi, hs]
    exact bind_of_ok hrun

theorem ensureAllPagesExist_of_frameAt (h : ∀ k ∈ ks, (w.frameAt id k).isSome = true) :
    ∃ fs, ensureAllPagesExist id writePage ks w = .ok fs w ∧
      List.Forall₂ (fun k f => w.frameAt id k = some f) ks fs := by
  induction ks with
  | nil => exact ⟨[], rfl, .nil⟩
  | cons k ks ih =>
    obtain ⟨f, hf⟩ := Option.isSome_iff_exists.1 (h k List.mem_cons_self)
    obtain ⟨fs, hfs, hall⟩ := ih fun k' hk' => h k' (List.mem_cons_of_mem _ hk')
    refine ⟨f :: fs, ?_, .cons hf hall⟩
    rw [ensureAllPagesExist, bind_of_ok (getCommittedFrame_of_frameAt hw hs hf), bind_of_ok hfs]
    rfl

end Frames

/-- A read of pages that all have frames returns their bytes. -/
theorem readBytes_of_frameAt (hw : w.Wf) (hlt : offset + len < usizeBound)
    (hsz : offset + len ≤ (w.vmo id).size)
    (hidxs : getPageIdxRange ⟨offset, offset + len⟩ = .ok idxs)
    (hlen : len + offset % pageSize ≤ (pageIdxs idxs).length * pageSize)
    (hframes : ∀ k ∈ idxs, (w.frameAt id k).isSome = true) :
    ∃ bs, readBytes id offset len w = .ok bs w := by
  have hs : (w.vmo id).shouldShareFrameWithParent false = true := by
    simp [VmoInner.shouldShareFrameWithParent]
  obtain ⟨fs, hfs, hall⟩ :=
    ensureAllPagesExist_of_frameAt hw hs fun k hk => hframes k (mem_pageIdxs.1 hk)
  refine ⟨readFrames w.mem fs (offset % pageSize) len, ?_⟩
  have hadd : addUsize offset len = .ok (offset + len) := addUsize_ok.2 ⟨hlt, rfl⟩
  unfold readBytes
  rw [hadd, liftR_ok_bind, get_bind, if_neg (not_lt.2 hsz), hidxs,
    liftR_ok_bind, bind_of_ok hfs, if_neg (by rw [← hall.length_eq]; omega)]
  rfl

/-! ### Writing -/

/-- A byte that `writeFrames` changes lies in one of the frames, at an offset that is written. -/
theorem exists_of_writeFrames_ne {j : ℕ} :
    ∀ {mem : FrameId → ℕ → UInt8} {start : ℕ} {bs : List UInt8}, start < pageSize →
      writeFrames mem fs start bs f j ≠ mem f j →
      ∃ i, fs[i]? = some f ∧ j < pageSize ∧ start ≤ i * pageSize + j ∧
        i * pageSize + j < start + bs.length := by
  induction fs with
  | nil => exact fun _ h => absurd rfl h
  | cons f' fs ih =>
    intro mem start bs hstart h
    simp only [writeFrames] at h
    split_ifs at h with hlen
    · exact absurd rfl h
    set len := min (pageSize - start) bs.length with hlen_def
    set mem' := Function.update mem f' (overwrite (mem f') start (bs.take len)) with hmem'
    by_cases htail : writeFrames mem' fs 0 (bs.drop len) f j = mem' f j
    · -- the byte is written in the first frame
      rw [htail, hmem'] at h
      by_cases hf : f = f'
      · subst hf
        rw [Function.update_self, overwrite] at h
        split_ifs at h with hj
        · rw [List.length_take] at hj
          exact ⟨0, rfl, by omega, by omega, by omega⟩
        · exact absurd rfl h
      · rw [Function.update_of_ne hf] at h
        exact absurd rfl h
    · obtain ⟨i, hi, hj, -, hlt⟩ := ih (by decide : 0 < pageSize) htail
      rw [List.length_drop] at hlt
      refine ⟨i + 1, hi, hj, ?_, ?_⟩ <;> rw [Nat.add_mul] <;> omega

/-- Byte `j` of frame `f` is written as a byte of page `k` of `id`, by a write of `len` bytes at
`offset` that began in `w` and found its frames in `w₁`. -/
structure WritesByte (id : VmoId) (offset len : ℕ) (w w₁ : World) (f : FrameId) (j k : ℕ) :
    Prop where
  lt : j < pageSize
  ge : offset ≤ k * pageSize + j
  lt_stop : k * pageSize + j < offset + len
  backs : w₁.Backs id k f
  place : w.inPlace id k = some f ∨ w.nextFrame ≤ f

/-- A run of `x` populates pages of `id` and then changes only bytes of `id` from `offset` to
`offset + len`. -/
def WritesOwn {α : Type} (id : VmoId) (offset len : ℕ) (w : World) (x : VmoM α) : Prop :=
  ∃ w₁ mem, Populate id w w₁ ∧ after x w = { w₁ with mem } ∧
    ∀ f j, mem f j ≠ w₁.mem f j → ∃ k, WritesByte id offset len w w₁ f j k

theorem WritesOwn.of_after_eq {x : VmoM α} (hpop : Populate id w (after x w)) :
    WritesOwn id offset len w x :=
  ⟨after x w, (after x w).mem, hpop, rfl, fun _ _ h => absurd rfl h⟩

theorem writesOwn_liftR (hw : w.Wf) (r : Result α) : WritesOwn id offset len w (liftR r) := by
  cases r <;> exact WritesOwn.of_after_eq (Populate.refl hw id)

theorem writesOwn_liftR_bind (hw : w.Wf) {f : α → VmoM β}
    (h : ∀ a, r = .ok a → WritesOwn id offset len w (f a)) :
    WritesOwn id offset len w (liftR r >>= f) := by
  cases r with
  | error e => exact WritesOwn.of_after_eq (Populate.refl hw id)
  | ok a => exact h a rfl

/-- **A write changes bytes of its own VMO in its range.** -/
theorem writeBytes_writesOwn (hw : w.Wf) (hid : id < w.vmos.length) (offset : ℕ)
    (buf : List UInt8) : WritesOwn id offset buf.length w (writeBytes id offset buf) := by
  refine writesOwn_liftR_bind hw fun stop hstop => ?_
  obtain ⟨-, rfl⟩ := addUsize_ok.1 hstop
  refine writesOwn_liftR_bind hw fun _ _ => ?_
  by_cases hsz : (w.vmo id).size < offset + buf.length
  · rw [if_pos hsz]
    exact writesOwn_liftR hw _
  · rw [if_neg hsz]
    refine writesOwn_liftR_bind hw fun idxs hidxs => ?_
    have hspec := ensureAllPagesExist_spec id true (pageIdxs idxs) hw hid
    cases hr : ensureAllPagesExist id true (pageIdxs idxs) w with
    | error e w1 =>
      rw [hr] at hspec
      refine WritesOwn.of_after_eq ?_
      rw [after_of_error (bind_of_error hr)]
      exact hspec.1
    | ok fs w1 =>
      rw [hr] at hspec
      obtain ⟨hpop, hserve⟩ := hspec
      by_cases hlen : fs.length * pageSize < buf.length + offset % pageSize
      · refine WritesOwn.of_after_eq ?_
        simp only [after, bind_of_ok hr, if_pos hlen]
        exact hpop
      · refine ⟨w1, writeFrames w1.mem fs (offset % pageSize) buf, hpop, ?_, fun f j hne => ?_⟩
        · simp only [after, bind_of_ok hr, if_neg hlen, modify_run]
        · -- the frame of the byte was handed out for a page of the range
          obtain ⟨i, hi, hj, hge, hlt⟩ := exists_of_writeFrames_ne (mod_lt _ (by decide)) hne
          obtain ⟨k, hk, hs⟩ := getElem?_of_forall₂ hserve hi
          have hkey : k = offset / pageSize + i := by
            rw [getPageIdxRange_ok hidxs, pageIdxs] at hk
            obtain ⟨-, rfl⟩ := List.getElem?_eq_some_iff.1 hk
            simp
          obtain ⟨hback, hplace⟩ := hs.written rfl
          have hdiv := div_add_mod' offset pageSize
          refine ⟨k, hj, ?_, ?_, hback, hplace⟩ <;> rw [hkey, Nat.add_mul] <;> omega

/-! ### Child VMOs -/

theorem getInheritedFramesFromParent_spec (parent : VmoId) (isCow : Bool) (ks : List ℕ) (hw : w.Wf)
    (hid : parent < w.vmos.length) :
    Populate parent w (after (getInheritedFramesFromParent parent isCow ks) w) ∧
      ∀ fs w', getInheritedFramesFromParent parent isCow ks w = .ok fs w' →
        List.Forall₂ (Serves parent (!isCow) w w') ks fs := by
  induction ks generalizing w with
  | nil =>
    refine ⟨Populate.refl hw parent, fun fs w' h => ?_⟩
    cases h
    exact .nil
  | cons k ks ih =>
    have hspec := getCommittedFrame_spec hw hid k (!isCow)
    unfold getInheritedFramesFromParent
    cases hr : getCommittedFrame parent k (!isCow) w with
    | error e w1 =>
      rw [hr] at hspec
      cases e <;> simp only [after, hr] <;> exact ⟨hspec.1, by simp⟩
    | ok f0 w1 =>
      rw [hr] at hspec
      obtain ⟨hpop, hlt, hcont, hwritten⟩ := hspec
      obtain ⟨hpop', hfs⟩ := ih (hpop.toEvolve.wf hw) (hpop.length ▸ hid)
      cases hr' : getInheritedFramesFromParent parent isCow ks w1 with
      | error e w2 =>
        rw [after_of_error hr'] at hpop'
        simp only [after, hr, bind_of_error hr']
        exact ⟨hpop.trans hpop', by simp⟩
      | ok fs w2 =>
        rw [after_of_ok hr'] at hpop'
        simp only [after, hr, bind_of_ok hr']
        refine ⟨hpop.trans hpop', fun fs' w' h => ?_⟩
        cases h
        exact .cons (Serves.grow ⟨hlt, hcont, hwritten⟩ hpop'.toGrow)
          ((hfs fs w2 hr').imp fun _ _ hs => hs.after_populate hpop)

/-- What the allocation of a child does: it populates pages of the parent, and then it fails or adds
a VMO that has committed nothing and refers to the frames of the parent's pages. -/
inductive AddsChild (parent : VmoId) (range : Range) (isCow : Bool) (w : World) :
    EStateM.Result Fault World VmoId → Prop
  | error {w₁ : World} {e : Fault} (hpop : Populate parent w w₁) :
      AddsChild parent range isCow w (.error e w₁)
  | ok {w₁ : World} {v : VmoInner} {fs : List FrameId} (hpop : Populate parent w w₁)
      (hstart : pageSize ∣ range.start) (hstop : pageSize ∣ range.stop)
      (hfs : List.Forall₂ (Serves parent (!isCow) w w₁) (List.range' (range.start / pageSize)
        ((min range.stop (w.vmo parent).size - range.start) / pageSize)) fs)
      (hcow : v.isCow = isCow) (hsize : v.size = range.stop - range.start)
      (hcom : v.committedPages = .empty) (hinh : v.inheritedPages = some fs) :
      AddsChild parent range isCow w (.ok w₁.vmos.length { w₁ with vmos := w₁.vmos ++ [v] })

theorem addsChild_liftR_bind (hw : w.Wf) {f : α → VmoM VmoId}
    (h : ∀ a, r = .ok a → AddsChild parent range isCow w (f a w)) :
    AddsChild parent range isCow w ((liftR r >>= f) w) := by
  cases r with
  | error e => exact .error (Populate.refl hw parent)
  | ok a => exact h a rfl

theorem checkChildRange_ok {size : ℕ} {childType : ChildType}
    (h : checkChildRange size range childType = .ok isCow) : isCow = decide (childType = .cow) := by
  cases childType with
  | slice | cow =>
    obtain ⟨-, -, h⟩ := bind_ok.1 h
    split_ifs at h
    · cases h
    · exact (pure_ok.1 h).symm

theorem allocChildVmo_addsChild (hw : w.Wf) (hid : parent < w.vmos.length) (range : Range)
    (flags : VmoFlags) (childType : ChildType) :
    AddsChild parent range (decide (childType = .cow)) w
      (allocChildVmo parent range flags childType w) := by
  refine addsChild_liftR_bind hw fun _ hstart => addsChild_liftR_bind hw fun _ hstop => ?_
  rw [debugAssert_ok] at hstart hstop
  rw [if_neg (by simp [hstart, hstop])]
  refine addsChild_liftR_bind hw fun isCow hcow => ?_
  obtain rfl := checkChildRange_ok hcow
  obtain ⟨hpop, hfs⟩ := getInheritedFramesFromParent_spec parent (decide (childType = .cow))
    (List.range' (range.start / pageSize) ((if range.start ≤ min range.stop (w.vmo parent).size then
      min range.stop (w.vmo parent).size - range.start else 0) / pageSize)) hw hid
  cases hr : getInheritedFramesFromParent parent (decide (childType = .cow)) _ w with
  | error e w1 =>
    rw [after_of_error hr] at hpop
    rw [bind_of_error hr]
    exact .error hpop
  | ok fs w1 =>
    rw [after_of_ok hr] at hpop
    rw [bind_of_ok hr]
    have hall := hfs fs w1 hr
    cases hsub : subUsize range.stop range.start with
    | error e => exact .error hpop
    | ok size =>
      obtain ⟨-, rfl⟩ := subUsize_ok.1 hsub
      refine .ok hpop (dvd_of_mod_eq_zero hstart) (dvd_of_mod_eq_zero hstop) ?_ rfl rfl rfl rfl
      split_ifs at hall with hle
      · exact hall
      · rw [Nat.sub_eq_zero_of_le (Nat.le_of_not_le hle)]
        exact hall

end World

end Jinux
