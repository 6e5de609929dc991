import Jinux.Lib.Bytes
import Jinux.Vm.Vmo

/-!
# Bytes spread over frames

`VmFrameVec` reads and writes a list of frames as if it were one buffer.  `World.Shows` says that
the frames hold consecutive pages of a byte memory; then `readFrames` and `writeFrames` are `readAt`
and `writeAt` of that memory, for frames that are all different.

`World.Backed` is the same for a map from page numbers to frames: what is read from the frames of a
range of pages is what the memory has there, and a write to them is a write to the memory.
-/

namespace Jinux

open List Nat

namespace World

variable {mem : FrameId → ℕ → UInt8} {fs : List FrameId} {f : FrameId} {m : Bytes}
  {k start n stop : ℕ} {bs : List UInt8} {j start : ℕ} {r : Range}

/-- The frames hold the pages of `m` from page `k` on. -/
def Shows (mem : FrameId → ℕ → UInt8) (k : ℕ) (fs : List FrameId) (m : Bytes) : Prop :=
  ∀ i f, fs[i]? = some f → ∀ j < pageSize, mem f j = m ((k + i) * pageSize + j)

theorem Shows.head (h : Shows mem k (f :: fs) m) (hj : j < pageSize) :
    mem f j = m (k * pageSize + j) := h 0 f rfl j hj

theorem Shows.tail (h : Shows mem k (f :: fs) m) : Shows mem (k + 1) fs m := by
  intro i f' hi j hj
  rw [h (i + 1) f' hi j hj, show k + 1 + i = k + (i + 1) by omega]

theorem Shows.cons (hhead : ∀ j < pageSize, mem f j = m (k * pageSize + j))
    (htail : Shows mem (k + 1) fs m) : Shows mem k (f :: fs) m := by
  intro i f' hi j hj
  cases i with
  | zero =>
    cases hi
    exact hhead j hj
  | succ i =>
    rw [htail i f' hi j hj, show k + 1 + i = k + (i + 1) by omega]

theorem readFrames_of_shows (h : Shows mem k fs m) (hstart : start < pageSize)
    (hn : start + n ≤ fs.length * pageSize) :
    readFrames mem fs start n = readAt m (k * pageSize + start) n := by
  induction fs generalizing k start n with
  | nil =>
    rw [length_nil] at hn
    obtain rfl : n = 0 := by omega
    rfl
  | cons f fs ih =>
    rw [length_cons, add_mul] at hn
    rw [readFrames]
    have hpage : ∀ len, start + len ≤ pageSize →
        slice (mem f) start len = readAt m (k * pageSize + start) len := by
      intro len hlen
      refine map_congr_left fun i hi => ?_
      have hi' := mem_range.1 hi
      rw [h.head (show start + i < pageSize by omega), add_assoc]
    by_cases hfit : n ≤ pageSize - start
    · rw [Nat.min_eq_right hfit, hpage n (by omega), Nat.sub_self,
        ih h.tail (by decide) (zero_le _)]
      split_ifs with h0
      · subst h0
        rfl
      · exact append_nil _
    · have hlen : min (pageSize - start) n = pageSize - start := by omega
      rw [hlen, if_neg (by omega), hpage _ (by omega), ih h.tail (by decide) (by omega),
        show (k + 1) * pageSize + 0 = k * pageSize + start + (pageSize - start) by
          rw [add_mul]; omega,
        ← readAt_add, show pageSize - start + (n - (pageSize - start)) = n by omega]

theorem writeFrames_of_notMem (h : f ∉ fs) : writeFrames mem fs start bs f = mem f := by
  induction fs generalizing mem start bs with
  | nil => rfl
  | cons f' fs ih =>
    rw [mem_cons, not_or] at h
    rw [writeFrames]
    split_ifs
    · rfl
    · rw [ih h.2, Function.update_of_ne h.1]

/-- The bytes written in one page. -/
theorem overwrite_eq_writeAt {page : ℕ → UInt8}
    (hpage : ∀ j < pageSize, page j = m (k * pageSize + j)) (hj : j < pageSize) :
    overwrite page start bs j = writeAt m (k * pageSize + start) bs (k * pageSize + j) := by
  unfold overwrite
  split_ifs with h
  · rw [writeAt, if_pos (by omega), getD_eq_getElem?_getD,
      show k * pageSize + j - (k * pageSize + start) = j - start by omega,
      getElem?_eq_getElem (by omega), Option.getD_some, Option.getD_some]
  · rw [hpage j hj, writeAt_of_disjoint (by omega)]

theorem writeFrames_of_shows (hnodup : fs.Nodup) (h : Shows mem k fs m) (hstart : start < pageSize)
    (hn : start + bs.length ≤ fs.length * pageSize) :
    Shows (writeFrames mem fs start bs) k fs (writeAt m (k * pageSize + start) bs) := by
  induction fs generalizing mem m k start bs with
  | nil =>
    intro i f hi
    cases hi
  | cons f fs ih =>
    rw [length_cons, add_mul] at hn
    obtain ⟨hf, hnodup⟩ := nodup_cons.1 hnodup
    rw [writeFrames]
    split_ifs with h0
    · obtain rfl : bs = [] := length_eq_zero_iff.1 (by omega)
      rw [writeAt_nil]
      exact h
    · -- the first frame gets its part, and the rest is written from the start of the next frame
      set len := min (pageSize - start) bs.length with hlen
      have hsplit : writeAt m (k * pageSize + start) bs =
          writeAt (writeAt m (k * pageSize + start) (bs.take len)) ((k + 1) * pageSize + 0)
            (bs.drop len) := by
        by_cases hfit : bs.length ≤ len
        · rw [take_of_length_le hfit, drop_of_length_le hfit, writeAt_nil]
        · conv_lhs => rw [← take_append_drop len bs, writeAt_append]
          have hnext : k * pageSize + start + (bs.take len).length = (k + 1) * pageSize + 0 := by
            rw [length_take, add_mul]
            omega
          rw [hnext]
      rw [hsplit]
      refine .cons (fun j hj => ?_) (ih hnodup ?_ (by decide) ?_)
      · have hlt : k * pageSize + j < (k + 1) * pageSize + 0 := by
          rw [add_mul]
          omega
        rw [writeFrames_of_notMem hf, Function.update_self, writeAt_of_lt hlt]
        exact overwrite_eq_writeAt (fun _ => h.head) hj
      · intro i f' hi j hj
        have hne : f' ≠ f := by
          rintro rfl
          exact hf (mem_of_getElem? hi)
        rw [Function.update_of_ne hne, h.tail i f' hi j hj, writeAt_of_le]
        rw [length_take, add_mul, add_mul]
        omega
      · rw [length_drop]
        omega

/-! ### Pages of a range -/

theorem getPageIdxRange_of_lt (h : r.stop + (pageSize - 1) < usizeBound) :
    getPageIdxRange r = .ok ⟨r.start / pageSize, (r.stop + (pageSize - 1)) / pageSize⟩ := by
  have halign : alignUp r.stop pageSize =
      .ok ((r.stop + (pageSize - 1)) / pageSize * pageSize) := by
    rw [alignUp, if_pos h]
    rfl
  rw [getPageIdxRange, halign]
  simp [alignDownPage, Nat.mul_div_cancel _ pageSize_pos]

theorem getPageIdxRange_of_le (h : usizeBound ≤ r.stop + (pageSize - 1)) :
    getPageIdxRange r = .error (.panic .unwrap) := by
  have halign : alignUp r.stop pageSize = .error (.panic .unwrap) := by
    rw [alignUp, if_neg (not_lt.2 h)]
    rfl
  rw [getPageIdxRange, halign]
  rfl

/-- What lies below a size that is a multiple of pages can be rounded up. -/
theorem lt_of_le_size {size x : ℕ} (hdvd : pageSize ∣ size) (hsize : size < usizeBound)
    (hx : x ≤ size) : x + (pageSize - 1) < usizeBound := by
  obtain ⟨n, hn⟩ := hdvd
  have hps : pageSize = 4096 := rfl
  have hub : usizeBound = 2 ^ 64 := rfl
  rw [hps] at hn
  omega

theorem div_mul_add (hj : j < pageSize) : (k * pageSize + j) / pageSize = k := by
  rw [mul_comm, mul_add_div (by decide), div_eq_of_lt hj, add_zero]

/-- The number of a range's pages, of which the first one is numbered `start / pageSize`. -/
def numPages (start stop : ℕ) : ℕ := (stop + (pageSize - 1)) / pageSize - start / pageSize

theorem le_numPages (start len : ℕ) :
    start % pageSize + len ≤ numPages start (start + len) * pageSize := by
  have h1 := div_add_mod' start pageSize
  have h2 := div_add_mod' (start + len + (pageSize - 1)) pageSize
  have h3 := mod_lt (start + len + (pageSize - 1)) pageSize_pos
  rw [numPages, Nat.sub_mul]
  omega

/-- A page that is not among those of a range has no byte of it. -/
theorem not_mem_of_numPages (hj : j < pageSize)
    (hk : ¬(start / pageSize ≤ k ∧ k < start / pageSize + numPages start stop)) :
    k * pageSize + j < start ∨ stop ≤ k * pageSize + j := by
  by_cases hlt : k < start / pageSize
  · left
    have h1 := div_add_mod' start pageSize
    have h2 : (k + 1) * pageSize ≤ start / pageSize * pageSize := mul_le_mul_right _ hlt
    rw [add_mul] at h2
    omega
  · right
    have hge : (stop + (pageSize - 1)) / pageSize ≤ k := by
      rw [numPages] at hk
      omega
    have h2 := mul_le_mul_right pageSize hge
    have h3 := div_add_mod' (stop + (pageSize - 1)) pageSize
    have h4 := mod_lt (stop + (pageSize - 1)) pageSize_pos
    omega

/-- The pages of a range inside the first `n` pages are among those. -/
theorem lt_of_numPages (hle : start ≤ stop) (hn : stop ≤ n * pageSize)
    (hk : k < start / pageSize + numPages start stop) : k < n := by
  have hps := pageSize_pos
  have h1 : (stop + (pageSize - 1)) / pageSize ≤ n := by
    rw [← Nat.lt_succ_iff, Nat.div_lt_iff_lt_mul hps, Nat.succ_mul]
    omega
  have h2 : start / pageSize ≤ (stop + (pageSize - 1)) / pageSize :=
    Nat.div_le_div_right (by omega)
  rw [numPages] at hk
  omega

/-! ### Maps from pages to frames -/

/-- Every frame of the map holds its page of `m`. -/
def Backed (get : ℕ → Option FrameId) (mem : FrameId → ℕ → UInt8) (m : Bytes) : Prop :=
  ∀ k f, get k = some f → ∀ j < pageSize, mem f j = m (k * pageSize + j)

/-- The frames of consecutive pages. -/
abbrev FramesAt (get : ℕ → Option FrameId) (k n : ℕ) (fs : List FrameId) : Prop :=
  List.Forall₂ (fun k f => get k = some f) (List.range' k n) fs

section Backed

variable {get : ℕ → Option FrameId} {offset len : ℕ}

section

variable (hfs : FramesAt get k n fs) {get' : ℕ → Option FrameId}

include hfs

theorem FramesAt.getElem? {i : ℕ} (hi : fs[i]? = some f) : get (k + i) = some f := by
  obtain ⟨k', hk', hf⟩ := getElem?_of_forall₂ hfs hi
  obtain ⟨_, rfl⟩ := List.getElem?_eq_some_iff.1 hk'
  rwa [getElem_range', one_mul] at hf

/-- The frames of one map are those of another one, `d` pages further on. -/
theorem FramesAt.shift {d : ℕ} (h : ∀ k', k ≤ k' → k' < k + n → get' (d + k') = get k') :
    FramesAt get' (d + k) n fs := by
  rw [FramesAt, forall₂_iff_get] at hfs ⊢
  refine ⟨by rw [length_range', ← hfs.1, length_range'], fun i hi hi' => ?_⟩
  rw [length_range'] at hi
  have hf := hfs.2 i (by rwa [length_range']) hi'
  simp only [get_eq_getElem, getElem_range', one_mul] at hf ⊢
  rw [add_assoc, h (k + i) (le_add_right k i) (by omega), hf]

theorem FramesAt.congr (h : ∀ k', k ≤ k' → k' < k + n → get' k' = get k') :
    FramesAt get' k n fs := by
  have hshift : FramesAt get' (0 + k) n fs :=
    hfs.shift fun k' hle hlt => by rw [zero_add, h k' hle hlt]
  rwa [zero_add] at hshift

theorem FramesAt.nodup (hinj : ∀ k k' f, get k = some f → get k' = some f → k = k') : fs.Nodup := by
  rw [nodup_iff_getElem?_ne_getElem?]
  intro i j hij hj heq
  have hf := getElem?_eq_getElem hj
  have hi := hinj _ _ _ (hfs.getElem? (heq.trans hf)) (hfs.getElem? hf)
  omega

theorem FramesAt.length : fs.length = n := by
  rw [← hfs.length_eq, length_range']

theorem Backed.shows (h : Backed get mem m) : Shows mem k fs m :=
  fun _ _ hi j hj => h _ _ (hfs.getElem? hi) j hj

end

/-- The frames of the pages of a range have room for it. -/
theorem FramesAt.le (h : FramesAt get (offset / pageSize) (numPages offset (offset + len)) fs) :
    len + offset % pageSize ≤ fs.length * pageSize := by
  rw [h.length, add_comm]
  exact le_numPages offset len

/-- Reading a range from the frames of its pages. -/
theorem Backed.readFrames (h : Backed get mem m)
    (hfs : FramesAt get (offset / pageSize) (numPages offset (offset + len)) fs) :
    readFrames mem fs (offset % pageSize) len = readAt m offset len := by
  have hread := readFrames_of_shows (h.shows hfs) (mod_lt offset (by decide))
    (by rw [add_comm]; exact hfs.le)
  rw [div_add_mod'] at hread
  exact hread

/-- Writing a range to the frames of its pages. -/
theorem Backed.writeFrames (h : Backed get mem m)
    (hinj : ∀ k k' f, get k = some f → get k' = some f → k = k')
    (hfs : FramesAt get (offset / pageSize) (numPages offset (offset + bs.length)) fs) :
    Backed get (writeFrames mem fs (offset % pageSize) bs) (writeAt m offset bs) := by
  have hshows := writeFrames_of_shows (hfs.nodup hinj) (h.shows hfs)
    (mod_lt offset (by decide)) (by rw [add_comm]; exact hfs.le)
  rw [div_add_mod'] at hshows
  intro k f hk j hj
  by_cases hin : f ∈ fs
  · obtain ⟨i, hi⟩ := mem_iff_getElem?.1 hin
    obtain rfl := hinj _ _ f (hfs.getElem? hi) hk
    exact hshows i f hi j hj
  · -- the page is not written, for its frame is not
    rw [writeAt_of_disjoint (not_mem_of_numPages hj fun hmem => ?_)]
    · exact (congrFun (writeFrames_of_notMem hin) j).trans (h k f hk j hj)
    · obtain ⟨f', hf', hk'⟩ :=
        exists_mem_of_forall₂ (List.Forall₂.flip hfs) (mem_range'_1.2 hmem)
      cases hk'.symm.trans hk
      exact hin hf'

end Backed

end World

end Jinux
