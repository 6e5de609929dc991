import Jinux.Lib.Lts
import Jinux.Process.Futex

/-!
# Futexes of several address spaces

All processes share the one table of buckets, and the key of an item is the virtual address that its
thread has passed to `futex_wait_bitset`, whatever address space that address belongs to.

* `FutexSpaces` : the table, with the address space of the thread that each waiter stands for;
* `FutexSpaces.Isolated` : a call does not wake, move or count a waiter of another address space;
* `FutexSpaces.exists_foreign_wake` : a process wakes a thread of another one;
* `FutexSpaces.isolated_of_apart` : **processes are isolated as long as no address is used for
  futexes in two address spaces**.
-/

namespace Jinux

open Function List FutexBucket Futexes Retain FutexBucketVec

variable {size m a : ℕ} {bitset : BitVec 32}

/-- A call of a thread, with what it passes. -/
inductive FutexCall where
  /-- `futex_wait_bitset`, where `word` is what the thread can read at the address. -/
  | wait (addr : ℕ) (val : BitVec 32) (word : Option (BitVec 32)) (bitset : BitVec 32)
  /-- `futex_wake_bitset` -/
  | wake (addr maxCount : ℕ) (bitset : BitVec 32)
  /-- `futex_requeue` -/
  | requeue (addr maxNwakes maxNrequeues newAddr : ℕ)

/-- The addresses that a call is about. -/
def FutexCall.addrs : FutexCall → List ℕ
  | .wait addr _ _ _ => [addr]
  | .wake addr _ _ => [addr]
  | .requeue addr _ _ newAddr => [addr, newAddr]

namespace Futexes

variable [NeZero size] {s : Futexes size} {a b key max : ℕ} {r : FutexItem → Bool} {i : Fin size}

variable {item : FutexItem}

theorem mem_items : item ∈ s.items key ↔ item ∈ s.bucketOf key ∧ item.key = key := by
  rw [items_eq, mem_filter, beq_iff_eq]

/-- A wake does not touch the items with a property that no item of its word has. -/
theorem filter_dequeue (hr : ∀ item ∈ s.items key, ¬ r item) (i : Fin size) :
    ((s.dequeue key max bitset).buckets.bucket i).filter r = (s.buckets.bucket i).filter r := by
  rw [dequeue, set_bucket, dequeueItems_eq]
  rcases eq_or_ne i (bucketIndex size key) with rfl | hne
  · rw [update_self]
    refine filter_dropFirst_of_disjoint (fun item hitem h => hr item ?_) max
    exact mem_items.2 ⟨hitem, beq_iff_eq.1 (Bool.and_eq_true_iff.1 h).2⟩
  · rw [update_of_ne hne]

/-- Nor does a requeue, if the items do not get the property with the new key. -/
theorem filter_requeue (hr : ∀ item ∈ s.items a, ¬ r item ∧ ¬ r (item.withKey b)) (m : ℕ)
    (i : Fin size) :
    ((s.requeue a b m).buckets.bucket i).filter r = (s.buckets.bucket i).filter r := by
  have hitem : ∀ item ∈ s.bucketOf a, item.key == a → ¬ r item ∧ ¬ r (item.withKey b) :=
    fun item hitem hkey => hr item (mem_items.2 ⟨hitem, beq_iff_eq.1 hkey⟩)
  rw [requeue]
  split_ifs with h
  · rw [updateItemKeys, set_bucket, updateItemKeys_eq]
    rcases eq_or_ne i (bucketIndex size a) with rfl | hne
    · rw [update_self]
      exact filter_mapFirst_of_disjoint hitem m
    · rw [update_of_ne hne]
  · rw [requeueItems, set_bucket, set_bucket, requeueItemsToAnotherBucket_eq]
    rcases eq_or_ne i (bucketIndex size b) with rfl | hnb
    · -- nothing that comes to the other bucket has the property
      rw [update_self, filter_append]
      refine (congrArg _ (filter_eq_nil_iff.2 ?_)).trans (append_nil _)
      intro item hmoved
      obtain ⟨old, hold, rfl⟩ := mem_map.1 hmoved
      obtain ⟨hmem, hkey⟩ := mem_filter.1 (mem_of_mem_take hold)
      exact (hitem old hmem hkey).2
    · rw [update_of_ne hnb]
      rcases eq_or_ne i (bucketIndex size a) with rfl | hna
      · rw [update_self]
        exact filter_dropFirst_of_disjoint (fun item h hkey => (hitem item h hkey).1) m
      · rw [update_of_ne hna]

theorem mem_of_mem_dequeue (h : item ∈ (s.dequeue key max bitset).buckets.bucket i) :
    item ∈ s.buckets.bucket i := by
  rw [dequeue, set_bucket] at h
  rcases eq_or_ne i (bucketIndex size key) with rfl | hne
  · rw [update_self] at h
    exact mem_of_mem_dequeueItems h
  · rwa [update_of_ne hne] at h

/-- An item after a requeue was there before, or it is one of the word with a new key. -/
theorem mem_of_mem_requeue (h : item ∈ (s.requeue a b m).buckets.bucket i) :
    item ∈ s.buckets.bucket i ∨ ∃ old ∈ s.items a, item = old.withKey b := by
  rw [requeue] at h
  split_ifs at h with hab
  · rw [updateItemKeys, set_bucket, updateItemKeys_eq] at h
    rcases eq_or_ne i (bucketIndex size a) with rfl | hne
    · rw [update_self] at h
      rcases mem_mapFirst h with h | ⟨old, hold, hkey, rfl⟩
      · exact .inl h
      · exact .inr ⟨old, mem_items.2 ⟨hold, beq_iff_eq.1 hkey⟩, rfl⟩
    · rw [update_of_ne hne] at h
      exact .inl h
  · rw [requeueItems, set_bucket, set_bucket, requeueItemsToAnotherBucket_eq] at h
    rcases eq_or_ne i (bucketIndex size b) with rfl | hnb
    · rw [update_self] at h
      rcases mem_append.1 h with h | h
      · exact .inl h
      · obtain ⟨old, hold, rfl⟩ := mem_map.1 h
        obtain ⟨hold, hkey⟩ := mem_filter.1 (mem_of_mem_take hold)
        exact .inr ⟨old, mem_items.2 ⟨hold, beq_iff_eq.1 hkey⟩, rfl⟩
    · rw [update_of_ne hnb] at h
      rcases eq_or_ne i (bucketIndex size a) with rfl | hna
      · rw [update_self] at h
        exact .inl ((dropFirst_sublist m _).mem h)
      · rw [update_of_ne hna] at h
        exact .inl h

theorem mem_enqueue {item' : FutexItem} : item' ∈ (s.enqueue item).buckets.bucket i ↔
      item' ∈ s.buckets.bucket i ∨ i = bucketIndex size item.key ∧ item' = item := by
  rw [enqueue]
  rcases eq_or_ne i (bucketIndex size item.key) with rfl | hne
  · simp [enqueueItem, bucketOf]
  · simp [hne]

theorem mem_items_of_mem_dequeued (h : item ∈ s.dequeued key max bitset) : item ∈ s.items key := by
  rw [dequeued_eq] at h
  exact mem_of_mem_filter (mem_of_mem_take h)

end Futexes

/-- The futexes of all processes. -/
structure FutexSpaces (size : ℕ) [NeZero size] where
  futexes : Futexes size
  /-- The root VMAR of the process of each waiter. -/
  space : ℕ → ℕ
  /-- How many waiters there have been. -/
  next : ℕ

namespace FutexSpaces

variable [NeZero size] {s s' : FutexSpaces size} {p count : ℕ} {call : FutexCall} {usedBy : ℕ → ℕ}

/-- No thread waits. -/
def start : FutexSpaces size := ⟨⟨.new size, fun _ => false⟩, fun _ => 0, 0⟩

/-- A call of a thread in the address space `p`, and how many waiters it reports to have woken. -/
def step (s : FutexSpaces size) (p : ℕ) : FutexCall → Option (ℕ × FutexSpaces size)
  | .wait addr val word bitset =>
    match s.futexes.waitSection addr val word bitset s.next with
    | .ok futexes => some (0, ⟨futexes, update s.space s.next p, s.next + 1⟩)
    | .error (.err _) => some (0, s)
    | .error (.panic _) => none
  | .wake addr maxCount bitset =>
    let r := s.futexes.futexWakeBitset addr maxCount bitset
    some (r.1, { s with futexes := r.2 })
  | .requeue addr maxNwakes maxNrequeues newAddr =>
    let r := s.futexes.futexRequeue addr maxNwakes maxNrequeues newAddr
    some (r.1, { s with futexes := r.2 })

/-- The calls of all processes, one after the other. -/
def lts (size : ℕ) [NeZero size] : Lts (FutexSpaces size) (ℕ × FutexCall) where
  step s l s' := ∃ count, s.step l.1 l.2 = some (count, s')

/-- The items that a call takes out of the queues to wake their waiters. -/
def dequeued (s : FutexSpaces size) : FutexCall → List FutexItem
  | .wait _ _ _ _ => []
  | .wake addr maxCount bitset => s.futexes.dequeued addr maxCount bitset
  | .requeue addr maxNwakes _ _ => s.futexes.dequeued addr maxNwakes futexBitsetMatchAny

/-- The call of a process neither wakes nor moves nor counts a waiter of another address space. -/
structure Isolated (p : ℕ) (call : FutexCall) (s s' : FutexSpaces size) (count : ℕ) : Prop where
  untouched : ∀ i,
    (s'.futexes.buckets.bucket i).filter (fun item => s'.space item.waiter ≠ p) =
      (s.futexes.buckets.bucket i).filter fun item => s.space item.waiter ≠ p
  not_woken : ∀ w, s'.space w ≠ p → s'.futexes.isWoken w = s.futexes.isWoken w
  counted : count = (s.dequeued call).length ∧ ∀ item ∈ s.dequeued call, s.space item.waiter = p

/-- The call uses addresses of its own address space. -/
def Apart (usedBy : ℕ → ℕ) (_ : FutexSpaces size) (l : ℕ × FutexCall) : Prop :=
  ∀ addr ∈ l.2.addrs, usedBy addr = l.1

instance (usedBy : ℕ → ℕ) (s : FutexSpaces size) (l : ℕ × FutexCall) :
    Decidable (Apart usedBy s l) :=
  inferInstanceAs (Decidable (∀ addr ∈ l.2.addrs, usedBy addr = l.1))

/-! ### The key of an item tells the address space -/

/-- What holds if every call keeps to its own addresses. -/
structure Inv (usedBy : ℕ → ℕ) (s : FutexSpaces size) : Prop where
  usedBy_key : ∀ i, ∀ item ∈ s.futexes.buckets.bucket i, usedBy item.key = s.space item.waiter
  waiter_lt : ∀ i, ∀ item ∈ s.futexes.buckets.bucket i, item.waiter < s.next

theorem Inv.own (h : Inv usedBy s) (ha : usedBy a = p) {item : FutexItem}
    (hitem : item ∈ s.futexes.items a) : s.space item.waiter = p := by
  obtain ⟨hmem, hkey⟩ := mem_items.1 hitem
  rw [← h.usedBy_key _ item hmem, hkey, ha]

variable {addr maxCount : ℕ}

theorem Inv.wake (h : Inv usedBy s) :
    Inv usedBy { s with futexes := (s.futexes.dequeueAndWakeItems addr maxCount bitset).2 } :=
  ⟨fun i item hitem => h.usedBy_key i item (mem_of_mem_dequeue hitem),
    fun i item hitem => h.waiter_lt i item (mem_of_mem_dequeue hitem)⟩

theorem Inv.requeue {b : ℕ} (h : Inv usedBy s) (ha : usedBy a = p) (hb : usedBy b = p) :
    Inv usedBy { s with futexes := s.futexes.requeue a b m } := by
  refine ⟨fun i item hitem => ?_, fun i item hitem => ?_⟩ <;>
    rcases mem_of_mem_requeue hitem with hitem | ⟨old, hold, rfl⟩
  · exact h.usedBy_key i item hitem
  · exact hb.trans (h.own ha hold).symm
  · exact h.waiter_lt i item hitem
  · exact h.waiter_lt _ old (mem_items.1 hold).1

theorem Inv.wait (h : Inv usedBy s) (ha : usedBy addr = p) :
    Inv usedBy ⟨s.futexes.enqueue ⟨addr, bitset, s.next⟩, update s.space s.next p, s.next + 1⟩ := by
  refine ⟨fun i item hitem => ?_, fun i item hitem => ?_⟩ <;>
    rcases mem_enqueue.1 hitem with hitem | ⟨-, rfl⟩
  · rw [h.usedBy_key i item hitem]
    exact (update_of_ne (Nat.ne_of_lt (h.waiter_lt i item hitem)) _ _).symm
  · exact ha.trans (update_self s.next p s.space).symm
  · exact Nat.lt_succ_of_lt (h.waiter_lt i item hitem)
  · exact Nat.lt_succ_self _

/-! ### One call -/

theorem isolated_same (p : ℕ) (s : FutexSpaces size) (h : s.dequeued call = []) :
    Isolated p call s s 0 :=
  ⟨fun _ => rfl, fun _ _ => rfl, by simp [h]⟩

theorem Inv.isolated_wait (h : Inv usedBy s) (hcall : s.dequeued call = []) :
    Isolated p call s
      ⟨s.futexes.enqueue ⟨addr, bitset, s.next⟩, update s.space s.next p, s.next + 1⟩ 0 := by
  have hspace : ∀ i, ∀ item ∈ s.futexes.buckets.bucket i,
      update s.space s.next p item.waiter = s.space item.waiter := fun i item hitem =>
    update_of_ne (Nat.ne_of_lt (h.waiter_lt i item hitem)) _ _
  refine ⟨fun i => ?_, fun w hw => ?_, by simp [hcall]⟩
  · have hold : (s.futexes.buckets.bucket i).filter
        (fun item => update s.space s.next p item.waiter ≠ p) =
        (s.futexes.buckets.bucket i).filter fun item => s.space item.waiter ≠ p :=
      filter_congr fun item hitem => by rw [hspace i item hitem]
    rw [← hold]
    rcases eq_or_ne i (bucketIndex size addr) with rfl | hne
    · -- the new item is one of the process itself
      simp [enqueue, enqueueItem, bucketOf]
    · simp [enqueue, hne]
  · have hne : w ≠ s.next := fun hw' => hw (hw' ▸ update_self _ _ _)
    exact update_of_ne hne _ _

theorem Inv.isolated_wake (h : Inv usedBy s) (ha : usedBy addr = p)
    (hcall : s.dequeued call = s.futexes.dequeued addr maxCount bitset) :
    Isolated p call s { s with futexes := (s.futexes.dequeueAndWakeItems addr maxCount bitset).2 }
      (s.futexes.dequeueAndWakeItems addr maxCount bitset).1 := by
  have hown : ∀ item ∈ s.futexes.dequeued addr maxCount bitset, s.space item.waiter = p :=
    fun item hitem => h.own ha (mem_items_of_mem_dequeued hitem)
  refine ⟨fun i => ?_, fun w hw => ?_, ?_, hcall ▸ hown⟩
  · refine filter_dequeue (fun item hitem => ?_) i
    simp [h.own ha hitem]
  · have hnot : w ∉ (s.futexes.dequeued addr maxCount bitset).map FutexItem.waiter := by
      intro hmem
      obtain ⟨item, hitem, rfl⟩ := mem_map.1 hmem
      exact hw (hown item hitem)
    refine (FutexItem.batchWake_eq _ _ w).trans ?_
    simp [hnot]
  · rw [hcall, dequeueAndWakeItems, Futexes.dequeued, dequeueItems_eq]

theorem Inv.isolated_requeue {t : FutexSpaces size} {b : ℕ} (h : Inv usedBy t) (ha : usedBy a = p)
    (hst : Isolated p call s t count) :
    Isolated p call s { t with futexes := t.futexes.requeue a b m } count := by
  refine ⟨fun i => ?_, fun w hw => ?_, hst.counted⟩
  · refine (filter_requeue (fun item hitem => ?_) m i).trans (hst.untouched i)
    simp [FutexItem.withKey, h.own ha hitem]
  · refine Eq.trans ?_ (hst.not_woken w hw)
    rw [Futexes.requeue]
    split_ifs <;> rfl

/-- One call by a process that keeps to the addresses of its address space. -/
theorem Inv.step (h : Inv usedBy s) (hok : Apart usedBy s (p, call))
    (hs : s.step p call = some (count, s')) : Inv usedBy s' ∧ Isolated p call s s' count := by
  cases call with
  | wait addr val word bitset =>
    have ha : usedBy addr = p := hok addr mem_cons_self
    rw [FutexSpaces.step] at hs
    split at hs
    · next futexes hwait =>
      cases hs
      obtain rfl := waitSection_eq_ok hwait
      exact ⟨h.wait ha, h.isolated_wait rfl⟩
    · cases hs
      exact ⟨h, isolated_same p s rfl⟩
    · cases hs
  | wake addr maxCount bitset =>
    have ha : usedBy addr = p := hok addr mem_cons_self
    cases hs
    exact ⟨h.wake, h.isolated_wake ha rfl⟩
  | requeue addr maxNwakes maxNrequeues newAddr =>
    have ha : usedBy addr = p := hok addr mem_cons_self
    have hb : usedBy newAddr = p := hok newAddr (mem_cons_of_mem _ mem_cons_self)
    cases hs
    rw [futexRequeue]
    split_ifs
    · exact ⟨h.wake, h.isolated_wake ha rfl⟩
    · exact ⟨h.wake.requeue ha hb, h.wake.isolated_requeue ha (h.isolated_wake ha rfl)⟩

/-- **Isolation of address spaces.**  In every run in which no address is used for futexes in two
address spaces, no call wakes, moves or counts a waiter of another address space. -/
theorem isolated_of_apart (usedBy : ℕ → ℕ) {s s' : FutexSpaces size}
    (h : ((lts size).restrict (Apart usedBy)).Reachable start s) {p : ℕ} {call : FutexCall}
    (hok : Apart usedBy s (p, call)) {count : ℕ} (hs : s.step p call = some (count, s')) :
    Isolated p call s s' count := by
  have hinv : Inv usedBy s := by
    refine h.invariant ⟨fun _ _ => nofun, fun _ _ => nofun⟩ fun s l s' hi hstep => ?_
    obtain ⟨hok, count, hs⟩ := hstep
    exact (hi.step hok hs).1
  exact (hinv.step hok hs).2

/-- A thread of the address space 1 waits on the word at `0x1000`. -/
def oneWaiter (size : ℕ) [NeZero size] : FutexSpaces size :=
  ⟨start.futexes.enqueue ⟨0x1000, futexBitsetMatchAny, 0⟩, update (fun _ => 0) 0 1, 1⟩

/-- The address `0x1000` is used in the address space 1, the others in the address space 2. -/
def firstPage (addr : ℕ) : ℕ := if addr = 0x1000 then 1 else 2

theorem isolated_oneWaiter :
    Isolated 2 (.wake 0x2000 1 futexBitsetMatchAny) (oneWaiter 256)
      { oneWaiter 256 with
        futexes :=
          ((oneWaiter 256).futexes.futexWakeBitset 0x2000 1 futexBitsetMatchAny).2 } 0 := by
  have hok : Apart firstPage (oneWaiter 256) (2, .wake 0x2000 1 futexBitsetMatchAny) := by decide
  exact isolated_of_apart firstPage
    (.step (l := (1, .wait 0x1000 0 (some 0) futexBitsetMatchAny)) (.refl _) ⟨by decide, 0, rfl⟩)
    hok rfl

/-- A process wakes a thread of another address space that waits on another word, at the same
address. -/
theorem exists_foreign_wake : ∃ s s' : FutexSpaces 256, (lts 256).Reachable start s ∧
    s.step 2 (.wake 0x1000 1 futexBitsetMatchAny) = some (1, s') ∧ s.space 0 = 1 ∧
    s.futexes.isWoken 0 = false ∧ s'.futexes.isWoken 0 = true ∧
    ¬ Isolated 2 (.wake 0x1000 1 futexBitsetMatchAny) s s' 1 := by
  refine ⟨oneWaiter 256, _, .step (l := (1, .wait 0x1000 0 (some 0) futexBitsetMatchAny)) (.refl _)
    ⟨0, rfl⟩, rfl, rfl, rfl, rfl, fun h => ?_⟩
  exact absurd (h.not_woken 0 (by decide)) (by decide)

end FutexSpaces

end Jinux
