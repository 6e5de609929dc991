import Mathlib.Data.BitVec
import Jinux.Kernel.Result
import Jinux.Lib.Retain

/-!
# Futexes

The threads that wait on a futex word stand in a queue.  There is one table of queues for the whole
kernel, and the address of the word decides which queue, its bucket, it is; so a bucket holds the
waiters of many words, in the order in which they came.

* `FutexBucketVec` : the buckets.  An item always stands in the bucket of its key;
* `Futexes.futexWakeBitset`, `Futexes.futexRequeue` : the calls, each as a whole, with the filters
  over the queues as they are in the code;
* `Futexes.items` : the waiters on one word, the oldest first;
* `Futexes.wake_and_requeue_exact` : **wake and requeue do exactly what they are asked for**, be the
  two words in one bucket or in two.
-/

namespace Jinux

open Function List Retain

variable {q : FutexBucket} {key newKey max size : ℕ} {bitset : BitVec 32} {β : Type*}

/-- `FUTEX_BITSET_MATCH_ANY` -/
def futexBitsetMatchAny : BitVec 32 := 0xFFFFFFFF

/-- `FutexItem`, with the address of the word as its key. -/
structure FutexItem where
  key : ℕ
  bitset : BitVec 32
  waiter : ℕ
deriving DecidableEq

namespace FutexItem

/-- The bitset of the item and the one of a wake have a bit in common. -/
def meets (bitset : BitVec 32) (item : FutexItem) : Bool := bitset &&& item.bitset != 0

/-- The item with another key. -/
def withKey (key : ℕ) (item : FutexItem) : FutexItem := { item with key := key }

@[simp] theorem withKey_key (key : ℕ) (item : FutexItem) : (item.withKey key).key = key := rfl

theorem filter_map_withKey (l : List FutexItem) (key c : ℕ) :
    (l.map (withKey key)).filter (fun item => item.key == c) =
      if c = key then l.map (withKey key) else [] := by
  split_ifs with hc
  · rw [filter_eq_self]
    intro item hitem
    obtain ⟨_, _, rfl⟩ := mem_map.1 hitem
    simp [hc]
  · rw [filter_eq_nil_iff]
    intro item hitem hkey
    obtain ⟨_, _, rfl⟩ := mem_map.1 hitem
    exact hc (beq_iff_eq.1 hkey).symm

/-- `FutexWaiter::wake` for the waiters of the items, one after the other. -/
def batchWake (isWoken : ℕ → Bool) (items : List FutexItem) : ℕ → Bool :=
  items.foldl (fun isWoken item =>
    if isWoken item.waiter then isWoken else update isWoken item.waiter true) isWoken

theorem batchWake_eq (items : List FutexItem) : ∀ (isWoken : ℕ → Bool) (w : ℕ),
    batchWake isWoken items w = (isWoken w || decide (w ∈ items.map waiter)) := by
  induction items with
  | nil => simp [batchWake]
  | cons item items ih =>
    intro isWoken w
    have hstep : batchWake isWoken (item :: items) =
        batchWake (update isWoken item.waiter true) items := by
      rw [batchWake, foldl_cons]
      split_ifs with hw
      · have hsame : update isWoken item.waiter true = isWoken := by
          rw [← hw, update_eq_self]
        rw [hsame, batchWake]
      · rfl
    rw [hstep, ih]
    rcases eq_or_ne w item.waiter with rfl | hne
    · simp
    · simp [hne]

end FutexItem

/-- `FutexBucket` -/
abbrev FutexBucket := List FutexItem

namespace FutexBucket

variable {another : FutexBucket} {item : FutexItem} {i : Fin size}

/-- `enqueue_item` -/
def enqueueItem (q : FutexBucket) (item : FutexItem) : FutexBucket := q ++ [item]

/-- An item that a wake looks for. -/
def wanted (key : ℕ) (bitset : BitVec 32) (item : FutexItem) : Bool :=
  item.meets bitset && item.key == key

/-- The filter of `dequeue_and_wake_items`: what is left, how many items are gone, and which. -/
def dequeueItems (q : FutexBucket) (key max : ℕ) (bitset : BitVec 32) :
    FutexBucket × (ℕ × List FutexItem) :=
  retain (upTo (wanted key bitset) max fun items item => items ++ [item]) (0, []) q

/-- The loop of `update_item_keys`, when `count` keys have been changed. -/
def updateItemKeysFrom (key newKey max : ℕ) : ℕ → FutexBucket → FutexBucket
  | _, [] => []
  | count, item :: q =>
    if count = max then item :: q
    else if item.key = key then
      item.withKey newKey :: updateItemKeysFrom key newKey max (count + 1) q
    else item :: updateItemKeysFrom key newKey max count q

/-- `update_item_keys` -/
def updateItemKeys (q : FutexBucket) (key newKey max : ℕ) : FutexBucket :=
  updateItemKeysFrom key newKey max 0 q

/-- `requeue_items_to_another_bucket` -/
def requeueItemsToAnotherBucket (q : FutexBucket) (key : ℕ) (another : FutexBucket)
    (newKey max : ℕ) : FutexBucket × FutexBucket :=
  let r := retain (upTo (fun item => item.key == key) max fun another item =>
    enqueueItem another (item.withKey newKey)) (0, another) q
  (r.1, r.2.2)

theorem foldl_concat (f : FutexItem → β) (l : List FutexItem) :
    ∀ items : List β, l.foldl (fun items item => items ++ [f item]) items = items ++ l.map f := by
  induction l with
  | nil => simp
  | cons item l ih =>
    simp [ih]

theorem dequeueItems_eq (q : FutexBucket) (key max : ℕ) (bitset : BitVec 32) :
    q.dequeueItems key max bitset =
      (dropFirst (wanted key bitset) max q, (((q.filter (wanted key bitset)).take max).length,
          (q.filter (wanted key bitset)).take max)) := by
  rw [dequeueItems, retain_upTo, foldl_concat fun item => item]
  simp

theorem updateItemKeysFrom_eq (key newKey max : ℕ) (q : FutexBucket) :
    ∀ count ≤ max, updateItemKeysFrom key newKey max count q =
      mapFirst (fun item => item.key == key) (FutexItem.withKey newKey) (max - count) q := by
  induction q with
  | nil => simp [updateItemKeysFrom]
  | cons item q ih =>
    intro count hle
    rw [updateItemKeysFrom]
    split_ifs with hmax hkey
    · rw [hmax, Nat.sub_self, mapFirst]
    · obtain ⟨k, hk⟩ : ∃ k, max - count = k + 1 := ⟨max - count - 1, by omega⟩
      rw [hk, mapFirst, if_pos (by simpa using hkey), ih (count + 1) (by omega)]
      congr 2
      omega
    · rw [mapFirst_cons_of_neg (by simpa using hkey), ih count hle]

theorem updateItemKeys_eq (q : FutexBucket) (key newKey max : ℕ) :
    q.updateItemKeys key newKey max =
      mapFirst (fun item => item.key == key) (FutexItem.withKey newKey) max q :=
  updateItemKeysFrom_eq key newKey max q 0 (Nat.zero_le _)

theorem requeueItemsToAnotherBucket_eq (q : FutexBucket) (key : ℕ) (another : FutexBucket)
    (newKey max : ℕ) :
    q.requeueItemsToAnotherBucket key another newKey max =
      (dropFirst (fun item => item.key == key) max q, another ++
          ((q.filter fun item => item.key == key).take max).map (FutexItem.withKey newKey)) := by
  unfold requeueItemsToAnotherBucket enqueueItem
  rw [retain_upTo]
  exact congrArg _ (foldl_concat (FutexItem.withKey newKey) _ another)

theorem mem_of_mem_dequeueItems (h : item ∈ (q.dequeueItems key max bitset).1) : item ∈ q := by
  rw [dequeueItems_eq] at h
  exact (dropFirst_sublist max q).mem h

theorem mem_of_mem_updateItemKeys (h : item ∈ q.updateItemKeys key newKey max) :
    item ∈ q ∨ item.key = newKey := by
  rw [updateItemKeys_eq] at h
  rcases mem_mapFirst h with h | ⟨_, _, _, rfl⟩
  · exact .inl h
  · exact .inr rfl

theorem mem_of_mem_requeue_fst
    (h : item ∈ (q.requeueItemsToAnotherBucket key another newKey max).1) : item ∈ q := by
  rw [requeueItemsToAnotherBucket_eq] at h
  exact (dropFirst_sublist max q).mem h

theorem mem_of_mem_requeue_snd
    (h : item ∈ (q.requeueItemsToAnotherBucket key another newKey max).2) :
    item ∈ another ∨ item.key = newKey := by
  rw [requeueItemsToAnotherBucket_eq] at h
  rcases mem_append.1 h with h | h
  · exact .inl h
  · obtain ⟨_, _, rfl⟩ := mem_map.1 h
    exact .inr rfl

/-- A waiter that is moved stands in one of the two queues before and after. -/
theorem mem_waiters_requeue {w : ℕ} :
    (w ∈ (q.requeueItemsToAnotherBucket key another newKey max).1.map FutexItem.waiter ∨
      w ∈ (q.requeueItemsToAnotherBucket key another newKey max).2.map FutexItem.waiter) ↔
    w ∈ q.map FutexItem.waiter ∨ w ∈ another.map FutexItem.waiter := by
  have hq := ((take_append_dropFirst_perm (p := fun item : FutexItem => item.key == key)
    max q).map FutexItem.waiter).mem_iff (a := w)
  rw [map_append, mem_append] at hq
  rw [requeueItemsToAnotherBucket_eq, map_append, map_map, mem_append, ← hq]
  exact or_left_comm.trans (or_comm.trans (or_congr_left or_comm))

end FutexBucket

open FutexItem FutexBucket

/-- The index that `get_bucket` computes among `size` buckets. -/
def bucketIndex (size : ℕ) [NeZero size] (key : ℕ) : Fin size :=
  ⟨(size - 1) &&& (key >>> 2) / size,
    Nat.lt_of_le_of_lt Nat.and_le_left (Nat.sub_one_lt (NeZero.ne size))⟩

/-- `FutexBucketVec`, with an invariant: an item stands in the bucket of its key.  How many buckets
there are, `BUCKET_COUNT`, depends on the number of CPUs. -/
structure FutexBucketVec (size : ℕ) [NeZero size] where
  bucket : Fin size → FutexBucket
  placed : ∀ i, ∀ item ∈ bucket i, bucketIndex size item.key = i

namespace FutexBucketVec

variable [NeZero size] {v : FutexBucketVec size}

/-- `FutexBucketVec::new` -/
def new (size : ℕ) [NeZero size] : FutexBucketVec size := ⟨fun _ => [], fun _ _ => nofun⟩

/-- One bucket gets another queue, all of whose items belong there. -/
def set (v : FutexBucketVec size) (i : Fin size) (q : FutexBucket)
    (hq : ∀ item ∈ q, bucketIndex size item.key = i) : FutexBucketVec size where
  bucket := update v.bucket i q
  placed j item hitem := by
    rcases eq_or_ne j i with rfl | hne
    · rw [update_self] at hitem
      exact hq item hitem
    · rw [update_of_ne hne] at hitem
      exact v.placed j item hitem

@[simp] theorem set_bucket {hq : ∀ item ∈ q, bucketIndex size item.key = i} :
    (v.set i q hq).bucket = update v.bucket i q := rfl

/-- The items with a key, bucket by bucket. -/
def items (v : FutexBucketVec size) (key : ℕ) : List FutexItem :=
  (List.finRange size).flatMap fun i => (v.bucket i).filter fun item => item.key == key

theorem flatMap_eq_single {α : Type*} {f : α → List β} {a : α} {l : List α} (hl : l.Nodup)
    (ha : a ∈ l) (hf : ∀ b ∈ l, b ≠ a → f b = []) : l.flatMap f = f a := by
  induction l with
  | nil => simp at ha
  | cons b l ih =>
    obtain ⟨hb, hl⟩ := nodup_cons.1 hl
    rw [flatMap_cons]
    rcases mem_cons.1 ha with rfl | ha
    · have hrest : l.flatMap f = [] := by
        rw [flatMap_eq_nil_iff]
        intro b hbl
        exact hf b (mem_cons_of_mem _ hbl) fun hba => hb (hba ▸ hbl)
      rw [hrest, append_nil]
    · rw [hf b mem_cons_self fun hba => hb (hba ▸ ha),
        ih hl ha fun c hc => hf c (mem_cons_of_mem _ hc), nil_append]

/-- All the items with a key are in one bucket. -/
theorem items_eq (v : FutexBucketVec size) (key : ℕ) :
    v.items key = (v.bucket (bucketIndex size key)).filter fun item => item.key == key := by
  refine flatMap_eq_single (nodup_finRange size) (mem_finRange _) fun i _ hi => ?_
  rw [filter_eq_nil_iff]
  intro item hitem hkey
  rw [beq_iff_eq] at hkey
  exact hi (by rw [← hkey, v.placed i item hitem])

theorem items_set {hq : ∀ item ∈ q, bucketIndex size item.key = i} (key : ℕ) :
    (v.set i q hq).items key =
      if bucketIndex size key = i then q.filter (fun item => item.key == key) else v.items key := by
  rw [items_eq, items_eq, set_bucket]
  split_ifs with hi
  · rw [hi, update_self]
  · rw [update_of_ne hi]

end FutexBucketVec

/-- The table of buckets and the flags `is_woken` of the waiters. -/
structure Futexes (size : ℕ) [NeZero size] where
  buckets : FutexBucketVec size
  isWoken : ℕ → Bool

open FutexBucketVec

namespace Futexes

variable [NeZero size] {s : Futexes size} {a b : ℕ}

/-- The queue that the key belongs to. -/
def bucketOf (s : Futexes size) (key : ℕ) : FutexBucket := s.buckets.bucket (bucketIndex size key)

/-- The items that wait on a word, the oldest first. -/
def items (s : Futexes size) (key : ℕ) : List FutexItem := s.buckets.items key

theorem items_eq (s : Futexes size) (key : ℕ) :
    s.items key = (s.bucketOf key).filter fun item => item.key == key :=
  FutexBucketVec.items_eq _ key

/-- A new waiter comes to the end of the queue. -/
def enqueue (s : Futexes size) (item : FutexItem) : Futexes size where
  buckets := s.buckets.set (bucketIndex size item.key)
      ((s.bucketOf item.key).enqueueItem item) <| by
    intro item' hitem
    rcases mem_append.1 hitem with hitem | hitem
    · exact s.buckets.placed _ item' hitem
    · rw [mem_singleton.1 hitem]
  isWoken := update s.isWoken item.waiter false

/-- The locked section of `futex_wait_bitset`, where `word` is what can be read at the address. -/
def waitSection (s : Futexes size) (addr : ℕ) (val : BitVec 32) (word : Option (BitVec 32))
    (bitset : BitVec 32) (waiter : ℕ) : Result (Futexes size) := do
  let loaded ← unwrap word
  if loaded ≠ val then returnErrnoWithMessage .einval "futex value does not match"
  else .ok (s.enqueue ⟨addr, bitset, waiter⟩)

theorem waitSection_eq_ok {s' : Futexes size} {addr waiter : ℕ} {val : BitVec 32}
    {word : Option (BitVec 32)} (h : s.waitSection addr val word bitset waiter = .ok s') :
    s' = s.enqueue ⟨addr, bitset, waiter⟩ := by
  rw [waitSection, Result.bind_ok] at h
  obtain ⟨loaded, -, h⟩ := h
  split_ifs at h
  · cases h
  · exact (Except.ok.inj h).symm

/-- The items that a wake takes out. -/
def dequeued (s : Futexes size) (key max : ℕ) (bitset : BitVec 32) : List FutexItem :=
  ((s.bucketOf key).dequeueItems key max bitset).2.2

/-- The buckets without the items that a wake takes out. -/
def dequeue (s : Futexes size) (key max : ℕ) (bitset : BitVec 32) : Futexes size where
  buckets := s.buckets.set (bucketIndex size key)
    ((s.bucketOf key).dequeueItems key max bitset).1 fun item hitem =>
      s.buckets.placed _ item (mem_of_mem_dequeueItems hitem)
  isWoken := s.isWoken

/-- `dequeue_and_wake_items` on the bucket of the key -/
def dequeueAndWakeItems (s : Futexes size) (key max : ℕ) (bitset : BitVec 32) : ℕ × Futexes size :=
  (((s.bucketOf key).dequeueItems key max bitset).2.1, { s.dequeue key max bitset with
      isWoken := batchWake s.isWoken (s.dequeued key max bitset) })

/-- `update_item_keys` on the bucket of two keys -/
def updateItemKeys (s : Futexes size) (key newKey max : ℕ)
    (h : bucketIndex size key = bucketIndex size newKey) : Futexes size where
  buckets := s.buckets.set (bucketIndex size key)
    ((s.bucketOf key).updateItemKeys key newKey max) fun item hitem => by
      rcases mem_of_mem_updateItemKeys hitem with hitem | hkey
      · exact s.buckets.placed _ item hitem
      · rw [hkey, h]
  isWoken := s.isWoken

/-- `requeue_items_to_another_bucket` from the bucket of one key to the one of another -/
def requeueItems (s : Futexes size) (key newKey max : ℕ) : Futexes size where
  buckets :=
    let r := (s.bucketOf key).requeueItemsToAnotherBucket key (s.bucketOf newKey) newKey max
    (s.buckets.set (bucketIndex size key) r.1 fun item hitem =>
      s.buckets.placed _ item (mem_of_mem_requeue_fst hitem)).set
      (bucketIndex size newKey) r.2 fun item hitem => by
        rcases mem_of_mem_requeue_snd hitem with hitem | hkey
        · exact s.buckets.placed _ item hitem
        · rw [hkey]
  isWoken := s.isWoken

/-- Waiters on one word are made to wait on another one, in either of the two ways. -/
def requeue (s : Futexes size) (key newKey max : ℕ) : Futexes size :=
  if h : bucketIndex size key = bucketIndex size newKey then s.updateItemKeys key newKey max h
  else s.requeueItems key newKey max

/-- `futex_wake_bitset` -/
def futexWakeBitset (s : Futexes size) (addr maxCount : ℕ) (bitset : BitVec 32) :
    ℕ × Futexes size := s.dequeueAndWakeItems addr maxCount bitset

/-- `futex_wake` -/
def futexWake (s : Futexes size) (addr maxCount : ℕ) : ℕ × Futexes size :=
  s.futexWakeBitset addr maxCount futexBitsetMatchAny

/-- `futex_requeue` -/
def futexRequeue (s : Futexes size) (addr maxNwakes maxNrequeues newAddr : ℕ) : ℕ × Futexes size :=
  if newAddr = addr then s.futexWake addr maxNwakes
  else
    let r := s.dequeueAndWakeItems addr maxNwakes futexBitsetMatchAny
    (r.1, r.2.requeue addr newAddr maxNrequeues)

/-! ### What the calls do to the waiters on one word -/

theorem filter_wanted (s : Futexes size) (key : ℕ) (bitset : BitVec 32) :
    (s.bucketOf key).filter (wanted key bitset) = (s.items key).filter (meets bitset) := by
  rw [items_eq, filter_filter]
  rfl

theorem dequeued_eq (s : Futexes size) (key max : ℕ) (bitset : BitVec 32) :
    s.dequeued key max bitset = ((s.items key).filter (meets bitset)).take max := by
  rw [dequeued, dequeueItems_eq, filter_wanted]

theorem items_dequeue_self (s : Futexes size) (key max : ℕ) (bitset : BitVec 32) :
    (s.dequeue key max bitset).items key = dropFirst (wanted key bitset) max (s.items key) := by
  rw [items, dequeue, items_set, if_pos rfl, dequeueItems_eq, items_eq]
  exact filter_dropFirst (fun item h => (Bool.and_eq_true_iff.1 h).2) max _

theorem items_dequeue_of_ne (hb : b ≠ key) : (s.dequeue key max bitset).items b = s.items b := by
  rw [items, dequeue, items_set]
  split_ifs with hi
  · rw [dequeueItems_eq, filter_dropFirst_of_disjoint, items_eq, bucketOf, bucketOf, hi]
    · intro item _ h hkey
      have hitem := (Bool.and_eq_true_iff.1 h).2
      rw [beq_iff_eq] at hitem hkey
      exact hb (hkey.symm.trans hitem)
  · rfl

/-! ### Which waiters are queued -/

/-- An item of the waiter stands in a bucket. -/
def Queued (s : Futexes size) (w : ℕ) : Prop :=
  ∃ i, w ∈ (s.buckets.bucket i).map waiter

instance (s : Futexes size) (w : ℕ) : Decidable (s.Queued w) :=
  inferInstanceAs (Decidable (∃ i, w ∈ (s.buckets.bucket i).map waiter))

variable {w : ℕ} {s' : Futexes size}

theorem queued_iff_of_set (h : s'.buckets.bucket = update s.buckets.bucket i q) :
    s'.Queued w ↔ w ∈ q.map waiter ∨ ∃ j ≠ i, w ∈ (s.buckets.bucket j).map waiter := by
  unfold Queued
  rw [h]
  constructor
  · rintro ⟨j, hj⟩
    rcases eq_or_ne j i with rfl | hne
    · rw [update_self] at hj
      exact .inl hj
    · rw [update_of_ne hne] at hj
      exact .inr ⟨j, hne, hj⟩
  · rintro (hq | ⟨j, hne, hj⟩)
    · exact ⟨i, by rwa [update_self]⟩
    · exact ⟨j, by rwa [update_of_ne hne]⟩

/-- The waiters of one bucket, and the others. -/
theorem queued_iff (i : Fin size) : s.Queued w ↔ w ∈ (s.buckets.bucket i).map waiter ∨
      ∃ j ≠ i, w ∈ (s.buckets.bucket j).map waiter :=
  queued_iff_of_set (update_eq_self i s.buckets.bucket).symm

theorem queued_enqueue {item : FutexItem} :
    (s.enqueue item).Queued w ↔ w = item.waiter ∨ s.Queued w := by
  rw [queued_iff_of_set rfl, queued_iff (bucketIndex size item.key), ← or_assoc]
  simp [enqueueItem, bucketOf, or_comm]

theorem queued_of_queued_dequeue (h : (s.dequeue key max bitset).Queued w) : s.Queued w := by
  rw [queued_iff_of_set rfl] at h
  refine (queued_iff (bucketIndex size key)).2 (h.imp_left fun hw => ?_)
  rw [dequeueItems_eq] at hw
  exact ((dropFirst_sublist max _).map _).mem hw

/-- A waiter whose item is gone is one of those to wake. -/
theorem queued_or_dequeued (h : s.Queued w) :
    (s.dequeue key max bitset).Queued w ∨ w ∈ (s.dequeued key max bitset).map waiter := by
  rw [queued_iff_of_set rfl, dequeued, dequeueItems_eq]
  rcases (queued_iff (bucketIndex size key)).1 h with hw | hother
  · have hperm := (take_append_dropFirst_perm (p := wanted key bitset) max
      (s.bucketOf key)).map waiter
    rcases mem_append.1 (map_append ▸ hperm.mem_iff.2 hw) with hw | hw
    · exact .inr hw
    · exact .inl (.inl hw)
  · exact .inl (.inr hother)

theorem queued_of_mem_dequeued (h : w ∈ (s.dequeued key max bitset).map waiter) : s.Queued w := by
  rw [dequeued, dequeueItems_eq] at h
  refine ⟨bucketIndex size key, ?_⟩
  exact (((take_sublist max _).trans filter_sublist).map _).mem h

/-- Two buckets change. -/
theorem queued_iff_of_set₂ {k : Fin size} {q' : FutexBucket} (hik : i ≠ k)
    (h : s'.buckets.bucket = update (update s.buckets.bucket i q) k q') :
    s'.Queued w ↔ (w ∈ q.map waiter ∨ w ∈ q'.map waiter) ∨
      ∃ j, j ≠ i ∧ j ≠ k ∧ w ∈ (s.buckets.bucket j).map waiter := by
  unfold Queued
  rw [h]
  constructor
  · rintro ⟨j, hj⟩
    rw [update_apply, update_apply] at hj
    split_ifs at hj with hk hi
    · exact .inl (.inr hj)
    · exact .inl (.inl hj)
    · exact .inr ⟨j, hi, hk, hj⟩
  · rintro ((hq | hq) | ⟨j, hi, hk, hj⟩)
    · exact ⟨i, by rwa [update_of_ne hik, update_self]⟩
    · exact ⟨k, by rwa [update_self]⟩
    · exact ⟨j, by rwa [update_of_ne hk, update_of_ne hi]⟩

theorem queued_requeueItems (h : bucketIndex size a ≠ bucketIndex size b) (m : ℕ) :
    (s.requeueItems a b m).Queued w ↔ s.Queued w := by
  have hself : s.buckets.bucket = update (update s.buckets.bucket (bucketIndex size a)
      (s.bucketOf a)) (bucketIndex size b) (s.bucketOf b) := by
    rw [bucketOf, bucketOf, update_eq_self, update_eq_self]
  rw [queued_iff_of_set₂ h rfl, mem_waiters_requeue, queued_iff_of_set₂ h hself]

theorem queued_requeue (a b m : ℕ) : (s.requeue a b m).Queued w ↔ s.Queued w := by
  rw [requeue]
  split_ifs with hi
  · rw [queued_iff_of_set rfl, queued_iff (bucketIndex size a), updateItemKeys_eq,
      map_mapFirst (f := withKey b) fun _ => rfl]
    rfl
  · exact queued_requeueItems hi m

/-- In `s'` the oldest `n` items of the word `a` that the bits meet are gone and their waiters
woken, which are `count` many, and all else is as in `s`. -/
structure WakesExactly (s s' : Futexes size) (a n : ℕ) (bits : BitVec 32) (count : ℕ) : Prop where
  count_eq : count = min n ((s.items a).countP (meets bits))
  isWoken_eq : ∀ w, s'.isWoken w = (s.isWoken w ||
    decide (w ∈ (((s.items a).filter (meets bits)).take n).map waiter))
  perm : (((s.items a).filter (meets bits)).take n ++ s'.items a).Perm (s.items a)
  sublist : (s'.items a).Sublist (s.items a)
  others : ∀ c ≠ a, s'.items c = s.items c

/-- In `s'` the oldest `m` items of the word `a` have become items of the word `b`, and all else is
as in `s`. -/
structure RequeuesExactly (s s' : Futexes size) (a b m : ℕ) : Prop where
  isWoken_eq : s'.isWoken = s.isWoken
  rest : s'.items a = (s.items a).drop m
  moved : (((s.items a).take m).map (withKey b)).Sublist (s'.items b)
  sublist : (s.items b).Sublist (s'.items b)
  perm : (s'.items b).Perm (s.items b ++ ((s.items a).take m).map (withKey b))
  others : ∀ c, c ≠ a → c ≠ b → s'.items c = s.items c

theorem dequeueAndWakeItems_exact (s : Futexes size) (key max : ℕ) (bitset : BitVec 32) :
    WakesExactly s (s.dequeueAndWakeItems key max bitset).2 key max bitset
      (s.dequeueAndWakeItems key max bitset).1 := by
  have hitems : (s.dequeueAndWakeItems key max bitset).2.items key =
      dropFirst (wanted key bitset) max (s.items key) :=
    items_dequeue_self s key max bitset
  have hwanted : (s.items key).filter (wanted key bitset) =
      (s.items key).filter (meets bitset) := by
    refine filter_congr fun item hitem => ?_
    rw [items_eq] at hitem
    rw [wanted, of_mem_filter hitem, Bool.and_true]
  refine ⟨?_, fun w => ?_, ?_, ?_, fun c hc => items_dequeue_of_ne hc⟩
  · rw [dequeueAndWakeItems, dequeueItems_eq, filter_wanted, length_take, countP_eq_length_filter]
  · rw [← dequeued_eq]
    exact batchWake_eq _ _ w
  · rw [hitems, ← hwanted]
    exact take_append_dropFirst_perm max _
  · rw [hitems]
    exact dropFirst_sublist max _

theorem updateItemKeys_exact (hab : a ≠ b) (m : ℕ) (h : bucketIndex size a = bucketIndex size b) :
    RequeuesExactly s (s.updateItemKeys a b m h) a b m := by
  have hself : ∀ c, bucketIndex size c = bucketIndex size a →
      (s.updateItemKeys a b m h).items c =
        (mapFirst (fun item => item.key == a) (withKey b) m
          (s.bucketOf a)).filter fun item => item.key == c := by
    intro c hc
    rw [items, updateItemKeys, items_set, if_pos hc, updateItemKeys_eq]
  have hb : s.items b = (s.bucketOf a).filter fun item => item.key == b := by
    rw [items_eq, bucketOf, bucketOf, h]
  -- an item that gets the key `b` had another one
  have hgain : ∀ item : FutexItem, item.key == a →
      ¬ (item.key == b) ∧ ((item.withKey b).key == b) := by
    intro item hitem
    rw [beq_iff_eq] at hitem
    simp [hitem, hab]
  refine ⟨rfl, ?_, ?_, ?_, ?_, fun c hca hcb => ?_⟩
  · rw [hself a rfl, filter_mapFirst_self (by simp [hab.symm]), items_eq]
  · rw [hself b h.symm, items_eq]
    exact map_take_sublist_filter_mapFirst hgain m _
  · rw [hself b h.symm, hb]
    exact sublist_filter_mapFirst hgain m _
  · rw [hself b h.symm, hb, items_eq]
    exact filter_mapFirst_perm hgain m _
  · by_cases hc : bucketIndex size c = bucketIndex size a
    · rw [hself c hc, filter_mapFirst_of_disjoint, items_eq, bucketOf, bucketOf, hc]
      · intro item _ hitem
        rw [beq_iff_eq] at hitem
        simp [hitem, hca.symm, hcb.symm]
    · rw [items, updateItemKeys, items_set, if_neg hc]
      rfl

theorem requeueItems_exact (m : ℕ) (h : bucketIndex size a ≠ bucketIndex size b) :
    RequeuesExactly s (s.requeueItems a b m) a b m := by
  have hb : (s.requeueItems a b m).items b =
      s.items b ++ ((s.items a).take m).map (withKey b) := by
    rw [items, requeueItems, items_set, if_pos rfl, requeueItemsToAnotherBucket_eq, filter_append,
      filter_map_withKey, if_pos rfl, ← items_eq, ← items_eq]
  have hother : ∀ c ≠ a, c ≠ b → (s.requeueItems a b m).items c = s.items c := by
    intro c hca hcb
    rw [items, requeueItems, items_set, items_set, requeueItemsToAnotherBucket_eq]
    split_ifs with hib hia
    · -- what came to the bucket of `b` has the key `b`
      rw [filter_append, filter_map_withKey, if_neg hcb, append_nil, items_eq,
        bucketOf, bucketOf, hib]
    · rw [filter_dropFirst_of_disjoint, items_eq, bucketOf, bucketOf, hia]
      · intro item _ hitem hkey
        rw [beq_iff_eq] at hitem hkey
        exact hca (hkey.symm.trans hitem)
    · rfl
  refine ⟨rfl, ?_, ?_, ?_, ?_, fun c => hother c⟩
  · rw [items, requeueItems, items_set, if_neg h, items_set, if_pos rfl,
      requeueItemsToAnotherBucket_eq, filter_dropFirst fun _ hitem => hitem, ← items_eq]
    refine dropFirst_of_forall (fun item hitem => ?_) m
    rw [items_eq] at hitem
    exact (mem_filter.1 hitem).2
  · rw [hb]
    exact sublist_append_right _ _
  · rw [hb]
    exact sublist_append_left _ _
  · rw [hb]

theorem requeue_exact (hab : a ≠ b) (m : ℕ) : RequeuesExactly s (s.requeue a b m) a b m := by
  rw [requeue]
  split_ifs with h
  · exact updateItemKeys_exact hab m h
  · exact requeueItems_exact m h

/-- **Wake and requeue are exact.**  `futex_wake_bitset` wakes the oldest waiters that it is asked
for and no other, and `futex_requeue` does the same and then makes the oldest of those that are left
wait on the other word. -/
theorem wake_and_requeue_exact (s : Futexes size) {a b : ℕ} (hab : a ≠ b) (n m : ℕ)
    (bits : BitVec 32) :
    WakesExactly s (s.futexWakeBitset a n bits).2 a n bits (s.futexWakeBitset a n bits).1 ∧
      ∃ t : Futexes size, WakesExactly s t a n futexBitsetMatchAny (s.futexRequeue a n m b).1 ∧
        RequeuesExactly t (s.futexRequeue a n m b).2 a b m := by
  refine ⟨dequeueAndWakeItems_exact s a n bits,
    (s.dequeueAndWakeItems a n futexBitsetMatchAny).2, ?_, ?_⟩
  · rw [futexRequeue, if_neg hab.symm]
    exact dequeueAndWakeItems_exact s a n futexBitsetMatchAny
  · rw [futexRequeue, if_neg hab.symm]
    exact requeue_exact hab m

/-- Three threads wait on the word at `0x1000`. -/
def threeWaiters : Futexes 256 :=
  ((((⟨.new 256, fun _ => false⟩ : Futexes 256).enqueue ⟨0x1000, futexBitsetMatchAny, 0⟩).enqueue
    ⟨0x1000, 2, 1⟩).enqueue ⟨0x1000, futexBitsetMatchAny, 2⟩)

theorem threeWaiters_exact :
    (threeWaiters.futexRequeue 0x1000 1 1 0x2000).1 = 1 ∧
      ((threeWaiters.futexRequeue 0x1000 1 1 0x2000).2.items 0x2000).map waiter = [1] ∧
      WakesExactly threeWaiters (threeWaiters.futexWakeBitset 0x1000 1 1).2 0x1000 1 1
        (threeWaiters.futexWakeBitset 0x1000 1 1).1 ∧
      ∃ t, WakesExactly threeWaiters t 0x1000 1 futexBitsetMatchAny
          (threeWaiters.futexRequeue 0x1000 1 1 0x2000).1 ∧
        RequeuesExactly t (threeWaiters.futexRequeue 0x1000 1 1 0x2000).2 0x1000 0x2000 1 :=
  ⟨by decide +kernel, by decide +kernel, wake_and_requeue_exact threeWaiters (by decide) 1 1 1⟩

end Futexes

end Jinux
