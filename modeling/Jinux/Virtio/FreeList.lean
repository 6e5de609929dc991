import Mathlib.Data.List.Perm.Basic
import Mathlib.Data.Nat.SuccPred
import Jinux.Lib.Links
import Jinux.Virtio.Queue

/-!
# The free list of a virtqueue

The chains in flight and the free list are threaded through the same `next` fields.

* `QueueSystem.Inv` : the free list and the chains in flight share the descriptors among them, and
  the table has each chain as it was given to the device;
* `QueueSystem.free_list_exact`, `QueueSystem.completions_harmless` : **this holds in every run**
  where the device returns heads of chains in flight, and where the index before such a head is the
  last one of a chain in flight or of the free list;
* `QueueSystem.exists_lost_descriptor` : `recycle_descriptors` writes to the `next` field of the
  descriptor before the head, which can be in the middle of another chain;
* `QueueSystem.exists_panic` : an index that was never submitted.
-/

namespace Jinux

open Function List

namespace Virtio

open VirtQueue

/-! ### Chains in the table -/

variable {descs : ℕ → Descriptor} {c : List Link} {i size t : ℕ}

/-- A chain does not depend on the `next` field of its last descriptor. -/
theorem Holds.update {d : Descriptor} : ∀ {c : List Link}, Holds descs c → i ∉ (ids c).dropLast →
    d.addr = (descs i).addr → d.len = (descs i).len → d.flags = (descs i).flags →
    Holds (update descs i d) c := by
  intro c
  induction c with
  | nil => exact fun _ _ _ _ _ => trivial
  | cons l rest ih =>
    rintro ⟨haddr, hlen, hflags, hnext, hrest⟩ hi ha hl hf
    have hsame : ∀ {α : Type} (proj : Descriptor → α), proj d = proj (descs i) →
        proj (Function.update descs i d l.desc) = proj (descs l.desc) := by
      intro α proj hproj
      rcases eq_or_ne l.desc i with rfl | hne
      · rw [update_self, hproj]
      · rw [update_of_ne hne]
    refine ⟨(hsame _ ha).trans haddr, (hsame _ hl).trans hlen, (hsame _ hf).trans hflags, ?_, ?_⟩
    · intro l' hl'
      cases rest with
      | nil => cases hl'
      | cons l₂ rest =>
        have hne : l.desc ≠ i := by
          rintro rfl
          exact hi mem_cons_self
        rw [update_of_ne hne]
        exact hnext l' hl'
    · refine ih hrest (fun hmem => hi ?_) ha hl hf
      cases rest with
      | nil => cases hmem
      | cons l₂ rest => exact mem_cons_of_mem _ hmem

/-- A chain depends on its own descriptors. -/
theorem Holds.congr {descs' : ℕ → Descriptor} : ∀ {c : List Link}, Holds descs c →
    (∀ i ∈ ids c, descs' i = descs i) → Holds descs' c := by
  intro c
  induction c with
  | nil => exact fun _ _ => trivial
  | cons l rest ih =>
    rintro ⟨haddr, hlen, hflags, hnext, hrest⟩ hsame
    rw [Holds, hsame l.desc mem_cons_self]
    exact ⟨haddr, hlen, hflags, hnext, ih hrest fun i hi => hsame i (mem_cons_of_mem _ hi)⟩

/-- A chain is what one finds by following `next`. -/
theorem Holds.iterate_eq : ∀ {c : List Link} {h : ℕ}, Holds descs c → (ids c).head? = some h →
    iterate (fun i => (descs i).next) h c.length = ids c := by
  intro c
  induction c with
  | nil => exact fun _ _ => rfl
  | cons l rest ih =>
    rintro h ⟨-, -, -, hnext, hrest⟩ hh
    cases hh
    cases rest with
    | nil => rfl
    | cons l₂ rest =>
      have hlink : (descs l.desc).next = l₂.desc := hnext l₂ rfl
      have hrec := ih hrest rfl
      rw [length_cons, iterate, hlink, hrec]
      rfl

/-- The loop of `recycle_descriptors` over a chain. -/
theorem Holds.recycleLoop {origin : ℕ} : ∀ {c : List Link} {h t fuel numUsed : ℕ},
    Holds descs c → (ids c).head? = some h → (ids c).getLast? = some t → (∀ i ∈ ids c, i ≤ size) →
    c.length ≤ numUsed → numUsed < fuel →
    recycleLoop size origin fuel descs h numUsed =
      .ok (Function.update descs t { descs t with next := origin }, numUsed - c.length) := by
  intro c
  induction c with
  | nil => nofun
  | cons l rest ih =>
    rintro h t fuel numUsed ⟨-, -, hflags, hnext, hrest⟩ hh ht hsize hle hfuel
    cases hh
    obtain ⟨fuel, rfl⟩ := Nat.exists_eq_succ_of_ne_zero (Nat.ne_of_gt (Nat.zero_lt_of_lt hfuel))
    have hl : ¬ size < l.desc := not_lt.2 (hsize _ mem_cons_self)
    have hpos : numUsed ≠ 0 := Nat.ne_of_gt (Nat.lt_of_lt_of_le (Nat.succ_pos _) hle)
    rw [VirtQueue.recycleLoop, if_neg hl, if_neg hpos, hflags]
    cases rest with
    | nil =>
      cases ht
      rfl
    | cons l₂ rest =>
      have hlink : (descs l.desc).next = l₂.desc := hnext l₂ rfl
      simp only [isEmpty_cons, Bool.not_false, if_true, hlink]
      rw [ih hrest rfl (by simpa [ids] using ht) (fun i hi => hsize i
        (mem_cons_of_mem _ hi)) (by simp only [length_cons] at hle ⊢; omega) (by omega)]
      simp only [length_cons]
      congr 2
      omega

/-- The loop of `recycle_descriptors` reads the descriptors of the chain. -/
theorem Holds.visited_eq : ∀ {c : List Link} {h fuel : ℕ}, Holds descs c →
    (ids c).head? = some h → c.length ≤ fuel → visited descs fuel h = ids c := by
  intro c
  induction c with
  | nil => nofun
  | cons l rest ih =>
    rintro h fuel ⟨-, -, hflags, hnext, hrest⟩ hh hle
    cases hh
    obtain ⟨fuel, rfl⟩ := Nat.exists_eq_add_of_lt (Nat.lt_of_lt_of_le (Nat.succ_pos _) hle)
    rw [visited, hflags]
    cases rest with
    | nil => rfl
    | cons l₂ rest =>
      have hlink : (descs l.desc).next = l₂.desc := hnext l₂ rfl
      rw [hlink, ih hrest rfl (by simp only [length_cons] at hle ⊢; omega)]
      rfl

/-! ### Filling descriptors -/

/-- The chain of the first free descriptors and some buffers. -/
def zipLinks (is : List ℕ) (bufs : List (Buf × Bool)) : List Link :=
  zipWith (fun i b => ⟨i, b.1, b.2⟩) is bufs

theorem ids_zipLinks : ∀ {is : List ℕ} {bufs : List (Buf × Bool)}, is.length = bufs.length →
    ids (zipLinks is bufs) = is
  | [], [], _ => rfl
  | i :: is, b :: bufs, h => by
    rw [zipLinks, zipWith_cons_cons, ids, map_cons]
    exact congrArg (i :: ·) (ids_zipLinks (Nat.succ.inj h))

/-- What the loops of `add_buf` and `add_vm` do. -/
structure Filled (f f' : Filling) (is : List ℕ) (bufs : List (Buf × Bool)) : Prop where
  next : ∀ i, (f'.descs i).next = (f.descs i).next
  other : ∀ i ∉ is, f'.descs i = f.descs i
  links : ∀ l ∈ zipLinks is bufs, f'.descs l.desc =
    ⟨l.buf.addr, l.buf.len % 2 ^ 32, ⟨true, l.write⟩, (f.descs l.desc).next⟩
  freeHead : f'.freeHead = (fun i => (f.descs i).next)^[bufs.length] f.freeHead
  last : f'.last = is.getLast?.getD f.last

theorem exists_filled : ∀ {bufs : List (Buf × Bool)} {f : Filling}
    {is : List ℕ}, iterate (fun i => (f.descs i).next) f.freeHead bufs.length = is →
    is.Nodup → (∀ i ∈ is, i ≤ size) →
    ∃ f', bufs.foldlM (fillOne size) f = .ok f' ∧ Filled f f' is bufs := by
  intro bufs
  induction bufs with
  | nil =>
    rintro f is rfl - -
    exact ⟨f, rfl, fun _ => rfl, fun _ _ => rfl, nofun, rfl, rfl⟩
  | cons b bufs ih =>
    rintro f is rfl hnodup hsize
    -- the state after the first buffer; all `next` fields are as they were
    obtain ⟨f1, hf1⟩ : ∃ f1 : Filling, f1 = {
        descs := update f.descs f.freeHead
          ⟨b.1.addr, b.1.len % 2 ^ 32, ⟨true, b.2⟩, (f.descs f.freeHead).next⟩
        freeHead := (f.descs f.freeHead).next
        last := f.freeHead } := ⟨_, rfl⟩
    have hfill : fillOne size f b = .ok f1 := by
      rw [fillOne, if_pos (hsize _ mem_cons_self), hf1]
    have hnext : (fun i => (f1.descs i).next) = fun i => (f.descs i).next := by
      funext i
      rw [hf1]
      rcases eq_or_ne i f.freeHead with rfl | hne
      · simp only [update_self]
      · simp [update_of_ne hne]
    have hhead : f1.freeHead = (f.descs f.freeHead).next := by rw [hf1]
    obtain ⟨hnot, hnodup⟩ := nodup_cons.1 hnodup
    obtain ⟨f', hfold, h⟩ := ih (by rw [hnext, hhead]) hnodup
      fun i hi => hsize i (mem_cons_of_mem _ hi)
    refine ⟨f', ?_, fun i => ?_, fun i hi => ?_, fun l hl => ?_, ?_, ?_⟩
    · rw [foldlM_cons, hfill]
      exact hfold
    · exact (h.next i).trans (congrFun hnext i)
    · rw [length_cons, iterate, mem_cons, not_or] at hi
      rw [h.other i hi.2, hf1]
      exact update_of_ne hi.1 _ _
    · rw [zipLinks] at hl
      rcases mem_cons.1 hl with rfl | hl
      · rw [h.other _ hnot, hf1]
        exact update_self ..
      · rw [h.links l hl]
        exact congrArg _ (congrFun hnext l.desc)
    · rw [h.freeHead, hnext, hhead]
      rfl
    · rw [h.last, hf1, length_cons, iterate, getLast?_cons]
      rfl

/-- The descriptors of a chain after the last one has lost its flag `NEXT`. -/
theorem holds_of_filled {next : ℕ → ℕ} : ∀ {c : List Link} {h : ℕ}, (ids c).Nodup →
    iterate next h c.length = ids c → (ids c).getLast? = some t →
    (∀ l ∈ c, descs l.desc = ⟨l.buf.addr, l.buf.len % 2 ^ 32, ⟨true, l.write⟩, next l.desc⟩) →
    Holds (update descs t (descs t).withoutNext) c := by
  intro c
  induction c with
  | nil => exact fun _ _ _ _ => trivial
  | cons l rest ih =>
    intro h hnodup hiter ht hdescs
    have hl := hdescs l mem_cons_self
    obtain ⟨rfl, hiter⟩ := cons.inj hiter
    cases rest with
    | nil =>
      obtain rfl : l.desc = t := Option.some.inj ht
      rw [Holds, update_self, hl]
      exact ⟨rfl, rfl, rfl, nofun, trivial⟩
    | cons l₂ rest =>
      have ht' : (ids (l₂ :: rest)).getLast? = some t := by simpa [ids] using ht
      obtain ⟨hnot, hnodup⟩ := nodup_cons.1 hnodup
      have hne : l.desc ≠ t := by
        rintro rfl
        exact hnot (mem_of_getLast? ht')
      rw [Holds, update_of_ne hne, hl]
      refine ⟨rfl, rfl, rfl, ?_, ih hnodup hiter ht' fun l' hl' => ?_⟩
      · rintro l' ⟨⟩
        exact (cons.inj hiter).1
      · exact hdescs l' (mem_cons_of_mem l hl')

/-! ### What holds in every state -/

namespace QueueSystem

/-- The free list and the chains in flight share the descriptors among them, and the table has each
chain as it was given to the device. -/
structure Inv (s : QueueSystem) : Prop where
  perm : (s.queue.freeList ++ s.inFlight).Perm (range s.queue.queueSize)
  holds : ∀ c ∈ s.chains, c ≠ [] ∧ Holds s.queue.descs c
  numUsed : s.queue.numUsed = s.inFlight.length
  panicked : s.panicked = none

variable {s : QueueSystem} {q : VirtQueue}

theorem Inv.nodup (h : Inv s) : (s.queue.freeList ++ s.inFlight).Nodup :=
  h.perm.nodup_iff.2 nodup_range

theorem Inv.mem_iff (h : Inv s) :
    i ∈ s.queue.freeList ∨ i ∈ s.inFlight ↔ i < s.queue.queueSize := by
  rw [← mem_append, h.perm.mem_iff, mem_range]

theorem Inv.numUsed_le (h : Inv s) : s.queue.numUsed ≤ s.queue.queueSize := by
  have hlen := h.perm.length_eq
  rw [length_append, length_range, ← h.numUsed] at hlen
  omega

variable {n head : ℕ} {legacy : Bool} {m : Memory} {l₁ l₂ : List (List Link)}
  {inputs outputs : List Buf} {l : List ℕ} {a : Act} {q' : VirtQueue}

/-- A new virtqueue: each descriptor is linked to the next one. -/
theorem of_new (hnew : new size legacy m = .ok q) :
    q.numUsed = 0 ∧ q.freeHead = 0 ∧ ∀ i, i < q.queueSize - 1 → q.nextOf i = i + 1 := by
  unfold new at hnew
  split_ifs at hnew
  cases hnew
  refine ⟨rfl, rfl, fun i hi => ?_⟩
  exact congrArg Descriptor.next (if_pos hi)

theorem iterate_succ_eq_range (n : ℕ) : iterate Nat.succ 0 n = range n := by
  refine ext_getElem (by simp) fun i _ _ => ?_
  rw [getElem_iterate, Nat.succ_iterate, getElem_range, Nat.zero_add]

theorem freeList_of_new (hnew : new size legacy m = .ok q) : q.freeList = range q.queueSize := by
  obtain ⟨hused, hhead, hnext⟩ := of_new hnew
  rw [freeList, hused, hhead, ← iterate_succ_eq_range]
  refine Links.iterate_congr fun i hi => ?_
  rw [iterate_succ_eq_range, dropLast_eq_take, length_range, take_range] at hi
  exact hnext i (Nat.lt_of_lt_of_le (mem_range.1 hi) (Nat.min_le_left _ _))

theorem inv_start (hnew : new size legacy m = .ok q) : Inv (start q) := by
  refine ⟨?_, nofun, (of_new hnew).1, rfl⟩
  show (q.freeList ++ []).Perm _
  rw [append_nil, freeList_of_new hnew]
  exact Perm.refl _

/-- The free list is the chain that the next call of `add` makes, and the rest. -/
theorem freeList_split (hfull : n + q.numUsed ≤ q.queueSize) :
    q.freeList = iterate q.nextOf q.freeHead n ++
      List.iterate q.nextOf (q.nextOf^[n] q.freeHead) (q.queueSize - (q.numUsed + n)) := by
  rw [← List.iterate_add, freeList]
  congr 1
  omega

section Submit

variable {bufs : List (Buf × Bool)} {f : Filling}

/-- No `next` field changes when a chain is submitted. -/
theorem nextOf_submit (n : ℕ) (hfill : Filled ⟨q.descs, q.freeHead, q.freeHead⟩ f
    (iterate q.nextOf q.freeHead bufs.length) bufs) : (q.submit f n).nextOf = q.nextOf := by
  funext i
  refine Eq.trans ?_ (hfill.next i)
  show (update f.descs f.last _ i).next = _
  rcases eq_or_ne i f.last with rfl | hit
  · rw [update_self]
    rfl
  · rw [update_of_ne hit]

/-- The free list loses the indices of the new chain. -/
theorem freeList_submit (hfull : bufs.length + q.numUsed ≤ q.queueSize)
    (hfill : Filled ⟨q.descs, q.freeHead, q.freeHead⟩ f
      (iterate q.nextOf q.freeHead bufs.length) bufs) :
    q.freeList = ids (chainOf q bufs) ++ (q.submit f bufs.length).freeList := by
  have hids : ids (chainOf q bufs) = iterate q.nextOf q.freeHead bufs.length :=
    ids_zipLinks (length_iterate ..)
  rw [freeList_split hfull, hids, freeList, nextOf_submit _ hfill]
  exact congrArg (fun a => _ ++ iterate q.nextOf a _) hfill.freeHead.symm

/-- The chain of an accepted call is made of the first free descriptors. -/
theorem Inv.submit (h : Inv s) (hne : bufs.length ≠ 0)
    (hfull : bufs.length + s.queue.numUsed ≤ s.queue.queueSize)
    (hfill : Filled ⟨s.queue.descs, s.queue.freeHead, s.queue.freeHead⟩ f
      (iterate s.queue.nextOf s.queue.freeHead bufs.length) bufs) :
    Inv { s with
      queue := s.queue.submit f bufs.length, chains := chainOf s.queue bufs :: s.chains } := by
  have hfree := freeList_submit hfull hfill
  have hids : ids (chainOf s.queue bufs) =
      iterate s.queue.nextOf s.queue.freeHead bufs.length :=
    ids_zipLinks (length_iterate ..)
  rw [← hids] at hfill
  have hlen : (ids (chainOf s.queue bufs)).length = bufs.length := by
    rw [hids, length_iterate]
  obtain ⟨t, ht⟩ : ∃ t, (ids (chainOf s.queue bufs)).getLast? = some t := by
    obtain ⟨n, hn⟩ := Nat.exists_eq_succ_of_ne_zero hne
    exact ⟨_, by rw [hids, hn]; exact Links.iterate_getLast ..⟩
  have hlast : f.last = t := by
    rw [hfill.last, ht]
    rfl
  have hdescs : (s.queue.submit f bufs.length).descs =
      update f.descs t (f.descs t).withoutNext := hlast ▸ rfl
  have hnodup : (ids (chainOf s.queue bufs)).Nodup ∧
      ∀ i ∈ ids (chainOf s.queue bufs), i ∉ s.inFlight := by
    have hall := h.nodup
    rw [hfree, append_assoc] at hall
    obtain ⟨hn, -, hd⟩ := nodup_append.1 hall
    exact ⟨hn, fun i hi hi' => hd i hi i (mem_append_right _ hi') rfl⟩
  refine ⟨?_, ?_, ?_, h.panicked⟩
  · have hperm := h.perm
    rw [hfree] at hperm
    refine Perm.trans ?_ hperm
    rw [inFlight, flatMap_cons, ← append_assoc]
    exact Perm.append_right _ perm_append_comm
  · intro c hc
    rcases mem_cons.1 hc with rfl | hc
    · refine ⟨fun hnil => hne ?_, ?_⟩
      · rw [← hlen, hnil]
        rfl
      · rw [hdescs]
        have hlinks : ∀ l ∈ chainOf s.queue bufs, f.descs l.desc =
            ⟨l.buf.addr, l.buf.len % 2 ^ 32, ⟨true, l.write⟩, s.queue.nextOf l.desc⟩ := by
          rw [hids] at hfill
          exact hfill.links
        refine holds_of_filled (h := s.queue.freeHead) hnodup.1 ?_ ht hlinks
        rw [hids]
        exact congrArg _ (by simp [chainOf])
    · -- the other chains have none of its descriptors
      refine ⟨(h.holds c hc).1, (h.holds c hc).2.congr fun i hi => ?_⟩
      have hi' : i ∉ ids (chainOf s.queue bufs) := fun hi' =>
        hnodup.2 i hi' (mem_flatMap.2 ⟨c, hc, hi⟩)
      have hit : i ≠ t := by
        rintro rfl
        exact hi' (mem_of_getLast? ht)
      rw [hdescs, update_of_ne hit]
      exact hfill.other i hi'
  · show s.queue.numUsed + bufs.length = _
    rw [inFlight, flatMap_cons, length_append, h.numUsed, hlen, Nat.add_comm]
    rfl

end Submit

theorem length_bufs (inputs outputs : List Buf) :
    (bufs inputs outputs).length = inputs.length + outputs.length := by
  rw [bufs, length_append, length_map, length_map]

/-- `add_buf` and `add_vm` take the first descriptors of the free list. -/
theorem Inv.add_ok (h : Inv s) (hempty : ¬ (inputs.isEmpty && outputs.isEmpty) = true)
    (hfull : inputs.length + outputs.length + s.queue.numUsed ≤ s.queue.queueSize) :
    ∃ f, s.queue.add inputs outputs =
        .ok (s.queue.freeHead, s.queue.submit f (inputs.length + outputs.length)) ∧
      s.queue.freeList = ids (chainOf s.queue (bufs inputs outputs)) ++
        (s.queue.submit f (inputs.length + outputs.length)).freeList ∧
      Inv { s with
        queue := s.queue.submit f (inputs.length + outputs.length)
        chains := chainOf s.queue (bufs inputs outputs) :: s.chains } := by
  rw [add, if_neg hempty, if_neg (not_lt.2 hfull)]
  rw [← length_bufs] at hfull ⊢
  have hne : (bufs inputs outputs).length ≠ 0 := by
    rw [length_bufs]
    simp only [Bool.and_eq_true, isEmpty_iff_length_eq_zero] at hempty
    omega
  have hsplit := freeList_split hfull
  have hnodup := (nodup_append.1 (hsplit ▸ (nodup_append.1 h.nodup).1)).1
  obtain ⟨f, hfold, hfill⟩ := @exists_filled s.queue.queueSize (bufs inputs outputs)
    ⟨s.queue.descs, s.queue.freeHead, s.queue.freeHead⟩ _ rfl hnodup fun i hi =>
      (h.mem_iff.1 (Or.inl (hsplit ▸ mem_append_left _ hi))).le
  rw [hfold]
  exact ⟨f, rfl, freeList_submit hfull hfill, h.submit hne hfull hfill⟩

theorem Inv.add (h : Inv s) : Inv (s.exec (.add inputs outputs)) := by
  by_cases hempty : (inputs.isEmpty && outputs.isEmpty) = true
  · simp only [exec, VirtQueue.add, if_pos hempty]
    exact h
  · by_cases hfull : inputs.length + outputs.length + s.queue.numUsed ≤ s.queue.queueSize
    · obtain ⟨f, hadd, -, h'⟩ := h.add_ok hempty hfull
      simp only [exec, hadd]
      exact h'
    · simp only [exec, VirtQueue.add, if_neg hempty, if_pos (not_le.1 hfull)]
      exact h

/-- The free list and the chains in flight. -/
def lists (s : QueueSystem) : List (List ℕ) := s.queue.freeList :: s.chains.map ids

theorem Inv.nodup_lists (h : Inv s) : s.lists.flatten.Nodup := by
  exact h.nodup

theorem Inv.lt_of_mem_lists (h : Inv s) (hl : l ∈ s.lists) (hi : i ∈ l) :
    i < s.queue.queueSize := by
  refine h.mem_iff.1 ?_
  rcases mem_cons.1 hl with rfl | hl
  · exact Or.inl hi
  · obtain ⟨c, hc, rfl⟩ := mem_map.1 hl
    exact Or.inr (mem_flatMap.2 ⟨c, hc, hi⟩)

theorem mem_lists_of_chain (hc : c ∈ s.chains) : ids c ∈ s.lists :=
  mem_cons_of_mem _ (mem_map_of_mem hc)

/-- The table has the chains in flight and the free list. -/
structure Threaded (s : QueueSystem) (descs : ℕ → Descriptor) : Prop where
  holds : ∀ c ∈ s.chains, Holds descs c
  free : iterate (fun i => (descs i).next) s.queue.freeHead
    (s.queue.queueSize - s.queue.numUsed) = s.queue.freeList

theorem Inv.threaded (h : Inv s) : s.Threaded s.queue.descs := ⟨fun c hc => (h.holds c hc).2, rfl⟩

/-- No list depends on the `next` field of the last descriptor of a list. -/
theorem Threaded.relink (ht : s.Threaded descs) (h : Inv s) (hl : l ∈ s.lists) {p : ℕ}
    (hp : l.getLast? = some p) (n : ℕ) :
    s.Threaded (update descs p { descs p with next := n }) := by
  have hnot : ∀ l' ∈ s.lists, p ∉ l'.dropLast := fun l' hl' =>
    Links.getLast_notMem_dropLast h.nodup_lists hl hl' hp
  refine ⟨fun c hc => (ht.holds c hc).update (hnot _ (mem_lists_of_chain hc)) rfl rfl rfl, ?_⟩
  rw [← ht.free]
  refine Links.iterate_congr fun i hi => ?_
  rw [ht.free] at hi
  have hne : i ≠ p := by
    rintro rfl
    exact hnot _ mem_cons_self hi
  simp [update_of_ne hne]

theorem inFlight_perm (hchains : s.chains = l₁ ++ c :: l₂) :
    s.inFlight.Perm (ids c ++ (l₁ ++ l₂).flatMap ids) := by
  rw [inFlight, hchains]
  exact perm_middle.flatMap_right ids

theorem Inv.numUsed_eq (h : Inv s) (hchains : s.chains = l₁ ++ c :: l₂) :
    s.queue.numUsed = c.length + ((l₁ ++ l₂).flatMap ids).length := by
  rw [h.numUsed, (inFlight_perm hchains).length_eq, length_append, ids, length_map]

/-- A chain whose last descriptor leads to the head of the free list stands in front of it. -/
theorem Threaded.iterate_append (h : s.Threaded descs) (hc : c ∈ s.chains) (hlen : c.length = n + 1)
    (hhead : (ids c).head? = some head) (ht : (ids c).getLast? = some t)
    (hnext : (descs t).next = s.queue.freeHead) :
    iterate (fun i => (descs i).next) head (n + 1 + (s.queue.queueSize - s.queue.numUsed)) =
      ids c ++ s.queue.freeList := by
  have hiter := (h.holds c hc).iterate_eq hhead
  have hlink : (fun i => (descs i).next) ((fun i => (descs i).next)^[n] head) =
      s.queue.freeHead := by
    have hlast := Links.iterate_getLast (fun i => (descs i).next) head n
    rw [← hlen, hiter, ht] at hlast
    rw [← Option.some.inj hlast]
    exact hnext
  rw [Links.iterate_append hlink, h.free, ← hlen, hiter]

/-- The invariant, when a chain has come in front of the free list. -/
theorem Inv.returned (h : Inv s) (hchains : s.chains = l₁ ++ c :: l₂) (hthreaded : s.Threaded descs)
    (hfree : iterate (fun i => (descs i).next) head
      (s.queue.queueSize - (s.queue.numUsed - c.length)) = ids c ++ s.queue.freeList) : Inv { s with
      queue := { s.queue with descs, numUsed := s.queue.numUsed - c.length, freeHead := head },
      chains := l₁ ++ l₂ } := by
  refine ⟨?_, fun c' hc' => ?_, ?_, h.panicked⟩
  · refine Perm.trans ?_ h.perm
    show (iterate (fun i => (descs i).next) head _ ++ (l₁ ++ l₂).flatMap ids).Perm _
    rw [hfree]
    calc ids c ++ s.queue.freeList ++ (l₁ ++ l₂).flatMap ids
        |>.Perm (s.queue.freeList ++ ids c ++ (l₁ ++ l₂).flatMap ids) :=
          perm_append_comm.append_right _
      _ |>.Perm (s.queue.freeList ++ s.inFlight) := by
          rw [append_assoc]
          exact (inFlight_perm hchains).symm.append_left _
  · have hmem : c' ∈ s.chains := by
      rw [hchains]
      rcases mem_append.1 hc' with hc' | hc'
      · exact mem_append_left _ hc'
      · exact mem_append_right _ (mem_cons_of_mem c hc')
    exact ⟨(h.holds c' hmem).1, hthreaded.holds c' hmem⟩
  · show s.queue.numUsed - c.length = _
    rw [h.numUsed_eq hchains, Nat.add_sub_cancel_left]
    rfl

/-- A chain in flight is given back. -/
theorem Inv.recycleDescriptors (h : Inv s) (hchains : s.chains = l₁ ++ c :: l₂)
    (hhead : (ids c).head? = some head)
    (hapart : ∃ l ∈ s.lists, l.getLast? = some (s.queue.lastFreeHead head)) :
    (∀ i ∈ s.queue.touched head, i < s.queue.queueSize) ∧
    ∃ descs numUsed, ∃ q' : VirtQueue, q' = { s.queue with descs, numUsed, freeHead := head } ∧
      s.queue.recycleDescriptors head = .ok q' ∧ q'.freeList = ids c ++ s.queue.freeList ∧
      Inv { s with queue := q', chains := l₁ ++ l₂ } := by
  obtain ⟨l, hl, hp⟩ := hapart
  have hc : c ∈ s.chains := hchains ▸ mem_append_right _ mem_cons_self
  obtain ⟨n, hlen⟩ : ∃ n, c.length = n + 1 := by
    cases c with
    | nil => cases hhead
    | cons _ rest => exact ⟨rest.length, rfl⟩
  obtain ⟨t, ht⟩ : ∃ t, (ids c).getLast? = some t := by
    rw [getLast?_eq_getElem?, ids]
    exact ⟨_, getElem?_eq_getElem (by simp [hlen])⟩
  have hused := h.numUsed_eq hchains
  have hsize := h.numUsed_le
  -- both writes are to the `next` field of the last descriptor of a list
  obtain ⟨descs1, hdescs1⟩ : ∃ descs1, descs1 = update s.queue.descs
      (s.queue.lastFreeHead head) { s.queue.descs (s.queue.lastFreeHead head) with next := head } :=
    ⟨_, rfl⟩
  have h1 : s.Threaded descs1 := hdescs1 ▸ h.threaded.relink h hl hp head
  obtain ⟨descs2, hdescs2⟩ : ∃ descs2, descs2 = update descs1 t
      { descs1 t with next := s.queue.freeHead } := ⟨_, rfl⟩
  have h2 : s.Threaded descs2 := hdescs2 ▸ h1.relink h (mem_lists_of_chain hc) ht _
  have hloop : recycleLoop s.queue.queueSize s.queue.freeHead (s.queue.numUsed + 1) descs1
      head s.queue.numUsed = .ok (descs2, s.queue.numUsed - c.length) := by
    rw [hdescs2]
    exact (h1.holds c hc).recycleLoop hhead ht
      (fun i hi => (h.lt_of_mem_lists (mem_lists_of_chain hc) hi).le) (by omega) (by omega)
  have hfree : iterate (fun i => (descs2 i).next) head
      (s.queue.queueSize - (s.queue.numUsed - c.length)) = ids c ++ s.queue.freeList := by
    have hcount : s.queue.queueSize - (s.queue.numUsed - c.length) =
        n + 1 + (s.queue.queueSize - s.queue.numUsed) := by omega
    rw [hcount]
    refine h2.iterate_append hc hlen hhead ht ?_
    rw [hdescs2]
    simp
  refine ⟨?_, descs2, s.queue.numUsed - c.length, _, rfl, ?_, hfree, h.returned hchains h2 hfree⟩
  · intro i hi
    rw [touched, ← hdescs1, (h1.holds c hc).visited_eq hhead (by omega)] at hi
    rcases mem_cons.1 hi with rfl | hi
    · exact h.lt_of_mem_lists hl (mem_of_getLast? hp)
    · exact h.lt_of_mem_lists (mem_lists_of_chain hc) hi
  · have hle : ¬ s.queue.queueSize < s.queue.lastFreeHead head :=
      not_lt.2 (h.lt_of_mem_lists hl (mem_of_getLast? hp)).le
    rw [VirtQueue.recycleDescriptors, if_neg hle, ← hdescs1]
    dsimp only
    rw [hloop]
    rfl

/-- A call that gives back a chain in flight. -/
theorem Inv.popNext (h : Inv s) (hrec : s.Recycles a) (hhonest : s.Honest a) (hapart : s.Apart a) :
    (∀ i ∈ s.queue.touched s.queue.nextHead, i < s.queue.queueSize) ∧
      ∃ q', s.queue.popNext = .ok q' ∧ Inv { s with queue := q', chains := s.remaining } := by
  obtain ⟨c, hc, hhead⟩ := mem_filterMap.1 (hhonest hrec)
  obtain ⟨c', l₁, l₂, -, hhead', hchains, herase⟩ := exists_of_eraseP
    (p := fun c => (ids c).head? = some s.queue.nextHead) hc (by simpa using hhead)
  have hlists : ∃ l ∈ s.lists, l.getLast? = some (s.queue.lastFreeHead s.queue.nextHead) := by
    rcases hapart hrec with hfree | ⟨c, hc, hlast⟩
    · exact ⟨_, mem_cons_self, hfree⟩
    · exact ⟨_, mem_lists_of_chain hc, hlast⟩
  obtain ⟨htouched, -, -, q', -, hrecycle, -, h'⟩ :=
    h.recycleDescriptors hchains (by simpa using hhead') hlists
  refine ⟨htouched, { q' with lastUsedIdx := (q'.lastUsedIdx + 1) % 2 ^ 16 }, ?_, ?_⟩
  · rw [VirtQueue.popNext, hrecycle]
    rfl
  · rw [remaining, herase]
    exact ⟨h'.perm, h'.holds, h'.numUsed, h'.panicked⟩

theorem Inv.exec (h : Inv s) (hhonest : s.Honest a) (hapart : s.Apart a) : Inv (s.exec a) := by
  cases a with
  | add inputs outputs => exact h.add
  | device usedRingIdx used => exact ⟨h.perm, h.holds, h.numUsed, h.panicked⟩
  | popUsed =>
    simp only [QueueSystem.exec, popUsed]
    split_ifs with hready
    · obtain ⟨-, q', hpop, h'⟩ := h.popNext (a := .popUsed) hready hhonest hapart
      rw [hpop]
      exact h'
    · exact h
  | popUsedWithToken token =>
    simp only [QueueSystem.exec, popUsedWithToken]
    split_ifs with hready htoken
    · exact h
    · obtain ⟨-, q', hpop, h'⟩ :=
        h.popNext (a := .popUsedWithToken token) ⟨hready, not_not.1 htoken⟩ hhonest hapart
      rw [hpop]
      exact h'
    · exact h

theorem Inv.of_reachable (hnew : new size legacy m = .ok q)
    (hr : (lts.restrict fun s a => s.Honest a ∧ s.Apart a).Reachable (start q) s) : Inv s := by
  refine hr.invariant (inv_start hnew) fun s a s' h hs => ?_
  obtain ⟨-, ⟨⟩⟩ := Option.ite_none_right_eq_some.1 hs.2
  exact h.exec hs.1.1 hs.1.2

/-- **The free list is exact in every run** where the device returns heads of chains in flight and
where the index before each of them is the last one of a list. -/
theorem free_list_exact {size : ℕ} {legacy : Bool} {m : Memory}
    (hnew : new size legacy m = .ok q)
    (hr : (lts.restrict fun s a => s.Honest a ∧ s.Apart a).Reachable (start q) s) :
    s.queue.freeList.Nodup ∧
      (∀ i, i ∈ s.queue.freeList ↔ i < s.queue.queueSize ∧ i ∉ s.inFlight) ∧
      (∀ c ∈ s.chains, Holds s.queue.descs c) ∧ s.inFlight.Nodup := by
  have h := Inv.of_reachable hnew hr
  obtain ⟨hfree, hflight, hdisj⟩ := nodup_append.1 h.nodup
  refine ⟨hfree, fun i => ?_, fun c hc => (h.holds c hc).2, hflight⟩
  rw [← h.mem_iff]
  constructor
  · exact fun hi => ⟨Or.inl hi, fun hi' => hdisj i hi i hi' rfl⟩
  · exact fun hi => hi.1.resolve_right hi.2

/-- `pop_used` returns the index that the device has written. -/
theorem recycles_of_popUsed {r : ℕ × ℕ} (hpop : s.queue.popUsed = .ok (r, q')) :
    s.Recycles .popUsed ∧ r.1 = s.queue.nextHead := by
  simp only [popUsed] at hpop
  split_ifs at hpop with hready
  cases hnext : s.queue.popNext with
  | error f =>
    rw [hnext] at hpop
    cases hpop
  | ok q1 =>
    rw [hnext] at hpop
    cases hpop
    exact ⟨hready, rfl⟩

theorem recycles_of_popUsedWithToken {token len : ℕ}
    (hpop : s.queue.popUsedWithToken token = .ok (len, q')) :
    s.Recycles (.popUsedWithToken token) ∧ token = s.queue.nextHead := by
  simp only [popUsedWithToken] at hpop
  split_ifs at hpop with hready htoken
  exact ⟨⟨hready, not_not.1 htoken⟩, (not_not.1 htoken).symm⟩

/-- **The used ring does no harm in every run** of this kind: no call panics or leaves the table, a
call returns a head that is in flight, and the number of used descriptors is right. -/
theorem completions_harmless {size : ℕ} {legacy : Bool} {m : Memory}
    (hnew : new size legacy m = .ok q)
    (hr : (lts.restrict fun s a => s.Honest a ∧ s.Apart a).Reachable (start q) s) :
    s.panicked = none ∧ s.queue.numUsed = s.inFlight.length ∧
      (∀ a, s.Honest a → s.Apart a → (s.exec a).panicked = none ∧
        (s.exec a).queue.numUsed = (s.exec a).inFlight.length ∧
        (s.Recycles a → ∀ i ∈ s.queue.touched s.queue.nextHead, i < s.queue.queueSize)) ∧
      (s.Honest .popUsed → ∀ r q', s.queue.popUsed = .ok (r, q') → r.1 ∈ s.heads) ∧
      ∀ token, s.Honest (.popUsedWithToken token) →
        ∀ r q', s.queue.popUsedWithToken token = .ok (r, q') → token ∈ s.heads := by
  have h := Inv.of_reachable hnew hr
  refine ⟨h.panicked, h.numUsed, fun a hhonest hapart => ?_, fun hhonest r q' hpop => ?_,
    fun token hhonest r q' hpop => ?_⟩
  · have h' := h.exec hhonest hapart
    exact ⟨h'.panicked, h'.numUsed, fun hrec => (h.popNext hrec hhonest hapart).1⟩
  · obtain ⟨hrec, heq⟩ := recycles_of_popUsed hpop
    exact heq ▸ hhonest hrec
  · obtain ⟨hrec, heq⟩ := recycles_of_popUsedWithToken hpop
    exact heq ▸ hhonest hrec

/-! ### A queue of four descriptors -/

/-- A new queue. -/
def fresh (size : ℕ) : VirtQueue where
  descs i := if i < size - 1 then ⟨0, 0, ⟨false, false⟩, i + 1⟩ else ⟨0, 0, ⟨false, false⟩, 0⟩
  avail _ := 0
  availRingIdx := 0
  used _ := ⟨0, 0⟩
  usedRingIdx := 0
  queueSize := size
  numUsed := 0
  freeHead := 0
  availIdx := 0
  lastUsedIdx := 0

theorem new_eq_fresh (hpow : size.isPowerOfTwo) (hle : size ≤ maxSize false) :
    new size false zeroMemory = .ok (fresh size) := by
  rw [new, if_neg (not_not.2 hpow), if_neg (not_lt.2 hle)]
  rfl

/-- A new queue of four descriptors. -/
def four : VirtQueue := fresh 4

theorem four_new : new 4 false zeroMemory = .ok four :=
  new_eq_fresh ⟨2, rfl⟩ (by decide)

instance (s : QueueSystem) (a : Act) : Decidable (s.Recycles a) :=
  match a with
  | .popUsed => inferInstanceAs (Decidable (_ = true))
  | .popUsedWithToken _ => inferInstanceAs (Decidable (_ ∧ _))
  | .add _ _ | .device _ _ => inferInstanceAs (Decidable False)

instance (s : QueueSystem) (a : Act) : Decidable (s.Honest a) :=
  inferInstanceAs (Decidable (_ → _))

instance (s : QueueSystem) (a : Act) : Decidable (s.Apart a) :=
  inferInstanceAs (Decidable (_ → _ ∨ _))

/-- The driver adds buffers that the device writes. -/
def adds (addrs : List ℕ) : Act := .add [] (addrs.map (⟨·, 512⟩))

/-- The device returns one chain after another. -/
def returns (ids : List ℕ) : Act := .device ids.length fun i => ⟨ids.getD i 0, 0⟩

/-- Three chains; the first two come back in the order in which they were added. -/
theorem free_list_exact_two : ∃ s : QueueSystem,
    (lts.restrict fun s a => s.Honest a ∧ s.Apart a).Reachable (start four) s ∧
    s.inFlight = [2, 3] ∧ s.queue.freeList = [1, 0] ∧ s.inFlight.Nodup ∧
      ∀ c ∈ s.chains, Holds s.queue.descs c := by
  obtain ⟨s, hr, hflight, hfree⟩ := Lts.exists_run_restrict step (start four)
    [adds [100], adds [200], adds [300, 400], returns [0, 1], .popUsed, .popUsed]
    (fun s => s.inFlight = [2, 3] ∧ s.queue.freeList = [1, 0])
    (fun s a => s.Honest a ∧ s.Apart a) (by decide +kernel)
  obtain ⟨-, -, hholds, hnodup⟩ := free_list_exact four_new hr
  exact ⟨s, hr, hflight, hfree, hnodup, hholds⟩

/-- The device returns only heads of chains in flight.  When the chain of descriptor 3 comes back,
`recycle_descriptors` links descriptor 2 to it, which is in flight and was linked to
descriptor 0. -/
theorem exists_lost_descriptor : ∃ s : QueueSystem,
    new 4 false zeroMemory = .ok four ∧
    (lts.restrict Honest).Reachable (start four) s ∧
    s.chains.map ids = [[2, 0], [1]] ∧ (∃ c ∈ s.chains, ¬ Holds s.queue.descs c) := by
  obtain ⟨s, hr, hids, hlost⟩ := Lts.exists_run_restrict step (start four)
    [adds [100], adds [200], adds [300], returns [0, 2], .popUsed, .popUsed, adds [400, 500],
      adds [600], returns [0, 2, 3], .popUsed]
    (fun s => s.chains.map ids = [[2, 0], [1]] ∧ ∃ c ∈ s.chains, ¬ Holds s.queue.descs c) Honest
    (by decide +kernel)
  exact ⟨s, four_new, hr, hids, hlost⟩

/-- A used ring with entries that the driver does not look at, and a call that waits for another
token. -/
theorem completions_harmless_two : ∃ s : QueueSystem,
    (lts.restrict fun s a => s.Honest a ∧ s.Apart a).Reachable (start four) s ∧
    s.inFlight = [2, 3] ∧ s.queue.numUsed = 2 ∧ s.panicked = none := by
  obtain ⟨s, hr, hflight⟩ := Lts.exists_run_restrict step (start four)
    [adds [100], adds [200], adds [300, 400], returns [65536, 77], .popUsed, .popUsedWithToken 1,
      returns [65536, 1], .popUsedWithToken 1]
    (fun s => s.inFlight = [2, 3]) (fun s a => s.Honest a ∧ s.Apart a) (by decide +kernel)
  obtain ⟨hpanicked, hused, -⟩ := completions_harmless four_new hr
  exact ⟨s, hr, hflight, by rw [hused, hflight]; rfl, hpanicked⟩

/-- An index that was never submitted. -/
theorem exists_panic : ∃ s : QueueSystem, new 4 false zeroMemory = .ok four ∧
    lts.Reachable (start four) s ∧ s.panicked = some .outOfBounds := by
  obtain ⟨s, hr, hpanicked⟩ := Lts.exists_run step (start four)
    [adds [100], returns [77], .popUsed] (fun s => s.panicked = some .outOfBounds)
    (by decide +kernel)
  exact ⟨s, four_new, hr, hpanicked⟩

/-- The head of the free list, which is not in flight: the call returns it, and takes it off the
number of used descriptors. -/
theorem exists_returned_twice : ∃ s : QueueSystem, lts.Reachable (start four) s ∧
    s.panicked = none ∧ s.inFlight = [0] ∧ s.queue.numUsed = 0 :=
  Lts.exists_run step (start four) [adds [100], returns [1], .popUsed] _ (by decide +kernel)

end QueueSystem

end Virtio

end Jinux
