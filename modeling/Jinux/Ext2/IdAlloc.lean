import Mathlib.Data.List.Basic
import Jinux.Kernel.Result

/-!
# Bitmap allocators

`IdAlloc` hands out the numbers below its capacity.  A bit is set when its number is allocated, and
`first_available_id` is the position of the first bit that is not set, so that `alloc` need not
search from the start.  That it is so is part of the type.

* `IdAlloc.alloc_eq_some`, `IdAlloc.free_ok` : what `alloc` and `free` do to the bits;
* `IdAlloc.freeIds_of_alloc`, `IdAlloc.freeIds_of_free` : and to the number of free ids;
* `IdAlloc.alloc_least` : **`alloc` returns the least number that is free**, after any calls.
-/

namespace Jinux

open List

/-- Indexing an array. -/
def index {α : Type*} (xs : List α) (i : ℕ) : Result α :=
  match xs[i]? with
  | some x => .ok x
  | none => .error (.panic .outOfBounds)

@[simp] theorem index_ok {α : Type*} {xs : List α} {i : ℕ} {x : α} :
    index xs i = .ok x ↔ xs[i]? = some x := by
  unfold index
  cases xs[i]? <;> simp

/-- The position of the first bit that is not set, or the length. -/
def firstFree (bits : List Bool) : ℕ := bits.findIdx (!·)

section FirstFree

variable {bits : List Bool} {n : ℕ}

theorem firstFree_le (bits : List Bool) : firstFree bits ≤ bits.length := findIdx_le_length

theorem getElem?_of_lt_firstFree (h : n < firstFree bits) : bits[n]? = some true := by
  have hlen : n < bits.length := h.trans_le (firstFree_le bits)
  have htrue := not_of_lt_findIdx h
  rw [getElem?_eq_getElem hlen]
  simpa using htrue

theorem getElem?_firstFree (h : firstFree bits < bits.length) :
    bits[firstFree bits]? = some false := by
  have hfalse : (!bits[firstFree bits]) = true := findIdx_getElem
  rw [getElem?_eq_getElem h]
  simpa using hfalse

/-- The first free position, from the bits up to it. -/
theorem firstFree_eq (hle : n ≤ bits.length) (hbefore : ∀ i < n, bits[i]? = some true)
    (hat : n < bits.length → bits[n]? = some false) : firstFree bits = n := by
  rcases lt_trichotomy (firstFree bits) n with hlt | heq | hgt
  · have hfalse := getElem?_firstFree (hlt.trans_le hle)
    rw [hbefore _ hlt] at hfalse
    cases hfalse
  · exact heq
  · have htrue := getElem?_of_lt_firstFree hgt
    rw [hat (hgt.trans_le (firstFree_le bits))] at htrue
    cases htrue

/-- A search that starts behind set bits finds the first free position. -/
theorem firstFree_eq_add_drop (hle : n ≤ bits.length) (hbefore : ∀ i < n, bits[i]? = some true) :
    firstFree bits = n + firstFree (bits.drop n) := by
  have hlen : (bits.drop n).length = bits.length - n := length_drop
  have hfirst := firstFree_le (bits.drop n)
  refine firstFree_eq (by omega) (fun i hi => ?_) fun hlt => ?_
  · by_cases hin : i < n
    · exact hbefore i hin
    · have htrue := getElem?_of_lt_firstFree (show i - n < firstFree (bits.drop n) by omega)
      rwa [getElem?_drop, show n + (i - n) = i by omega] at htrue
  · have hfalse := getElem?_firstFree (show firstFree (bits.drop n) < (bits.drop n).length by omega)
    rwa [getElem?_drop] at hfalse

theorem firstFree_set_true (h : firstFree bits < bits.length) :
    firstFree bits + 1 + firstFree ((bits.set (firstFree bits) true).drop (firstFree bits + 1)) =
      firstFree (bits.set (firstFree bits) true) := by
  refine (firstFree_eq_add_drop (by rw [length_set]; exact h) fun i hi => ?_).symm
  rw [getElem?_set]
  split_ifs with heq
  · rfl
  · exact getElem?_of_lt_firstFree (by omega)

theorem firstFree_set_false (bits : List Bool) (n : ℕ) :
    (if n < firstFree bits then n else firstFree bits) = firstFree (bits.set n false) := by
  have hle := firstFree_le bits
  split_ifs with hlt
  · refine (firstFree_eq (by rw [length_set]; omega) (fun i hi => ?_) fun _ => ?_).symm
    · rw [getElem?_set_ne (by omega)]
      exact getElem?_of_lt_firstFree (by omega)
    · exact getElem?_set_self (by omega)
  · refine (firstFree_eq (by rw [length_set]; omega) (fun i hi => ?_) fun h => ?_).symm
    · rw [getElem?_set_ne (by omega)]
      exact getElem?_of_lt_firstFree hi
    · rw [length_set] at h
      rw [getElem?_set]
      split_ifs with heq hlen
      · rfl
      · omega
      · exact getElem?_firstFree h

end FirstFree

/-- An allocator of numbers. -/
structure IdAlloc where
  bitset : List Bool
  firstAvailableId : ℕ
  firstAvailableId_eq : firstAvailableId = firstFree bitset

namespace IdAlloc

/-- The allocator of a bitmap: `from_bytes_with_capacity` after it has made the bits. -/
def ofBits (bits : List Bool) : IdAlloc := ⟨bits, firstFree bits, rfl⟩

/-- `alloc` -/
def alloc (a : IdAlloc) : Option (ℕ × IdAlloc) :=
  if h : a.firstAvailableId < a.bitset.length then
    let id := a.firstAvailableId
    let bitset := a.bitset.set id true
    some (id, ⟨bitset, id + 1 + firstFree (bitset.drop (id + 1)), by
      obtain ⟨bits, _, rfl⟩ := a
      exact firstFree_set_true h⟩)
  else none

/-- `is_allocated` -/
def isAllocated (a : IdAlloc) (id : ℕ) : Result Bool := index a.bitset id

/-- `free` -/
def free (a : IdAlloc) (id : ℕ) : Result IdAlloc := do
  let allocated ← a.isAllocated id
  debugAssert (allocated = true)
  pure ⟨a.bitset.set id false, if id < a.firstAvailableId then id else a.firstAvailableId, by
    rw [a.firstAvailableId_eq]
    exact firstFree_set_false a.bitset id⟩

/-- The number `id` is allocated. -/
def Allocated (a : IdAlloc) (id : ℕ) : Prop := a.bitset[id]? = some true

/-- How many numbers are free. -/
def freeIds (a : IdAlloc) : ℕ := a.bitset.count false

variable {a b : IdAlloc} {id : ℕ}

theorem alloc_eq_some (h : a.alloc = some (id, b)) :
    a.bitset[id]? = some false ∧ b.bitset = a.bitset.set id true := by
  obtain ⟨bits, _, rfl⟩ := a
  unfold alloc at h
  split_ifs at h with hlt
  cases h
  exact ⟨getElem?_firstFree hlt, rfl⟩

theorem isAllocated_eq_true : a.isAllocated id = .ok true ↔ a.Allocated id := index_ok

theorem free_ok (h : a.free id = .ok b) : a.Allocated id ∧ b.bitset = a.bitset.set id false := by
  simp only [free, Result.bind_ok, debugAssert_ok, Result.pure_ok] at h
  obtain ⟨allocated, hget, -, rfl, rfl⟩ := h
  exact ⟨isAllocated_eq_true.1 hget, rfl⟩

theorem freeIds_of_alloc (h : a.alloc = some (id, b)) : b.freeIds + 1 = a.freeIds := by
  obtain ⟨hget, hset⟩ := alloc_eq_some h
  obtain ⟨hlt, hid⟩ := List.getElem?_eq_some_iff.1 hget
  have hpos : 0 < a.bitset.count false := count_pos_iff.2 (mem_of_getElem? hget)
  rw [freeIds, freeIds, hset, count_set hlt, hid]
  simp
  omega

theorem freeIds_of_free (h : a.free id = .ok b) : b.freeIds = a.freeIds + 1 := by
  obtain ⟨hget, hset⟩ := free_ok h
  obtain ⟨hlt, hid⟩ := List.getElem?_eq_some_iff.1 hget
  rw [freeIds, freeIds, hset, count_set hlt, hid]
  simp

/-! ### Runs -/

/-- The bits of some bytes, from the least significant bit of each. -/
def bitsOf (bs : List UInt8) : List Bool := bs.flatMap fun b => (range 8).map b.toNat.testBit

/-- `with_capacity` -/
def withCapacity (capacity : ℕ) : IdAlloc where
  bitset := replicate capacity false
  firstAvailableId := 0
  firstAvailableId_eq := by cases capacity <;> rfl

/-- `from_bytes_with_capacity` -/
def fromBytesWithCapacity (slice : List UInt8) (capacity : ℕ) : IdAlloc :=
  .ofBits (
    if slice.length * 8 < capacity then
      bitsOf slice ++ replicate (capacity - slice.length * 8) false
    else (bitsOf (slice.take ((capacity + 7) / 8))).take capacity)

/-- `bs` can be what `as_bytes` returns: the bits behind the capacity are any. -/
def AsBytes (a : IdAlloc) (bs : List UInt8) : Prop :=
  bs.length = (a.bitset.length + 7) / 8 ∧ (bitsOf bs).take a.bitset.length = a.bitset

/-- The calls. -/
inductive Call where
  | alloc
  | free (id : ℕ)

/-- The allocator after a call. -/
def Call.run (a : IdAlloc) : Call → Result IdAlloc
  | .alloc => pure ((a.alloc.map Prod.snd).getD a)
  | .free id => a.free id

variable {a₀ : IdAlloc} {capacity : ℕ} {calls : List Call}

theorem length_bitsOf (bs : List UInt8) : (bitsOf bs).length = bs.length * 8 := by
  simp [bitsOf]

theorem length_fromBytes (slice : List UInt8) (capacity : ℕ) :
    (fromBytesWithCapacity slice capacity).bitset.length = capacity := by
  unfold fromBytesWithCapacity ofBits
  split_ifs with h
  · simp only [length_append, length_bitsOf, length_replicate]
    omega
  · simp only [length_take, length_bitsOf]
    omega

theorem length_of_run {c : Call} (h : c.run a = .ok b) : b.bitset.length = a.bitset.length := by
  cases c with
  | free id => rw [(free_ok h).2, length_set]
  | alloc =>
    cases Result.pure_ok.1 h
    cases halloc : a.alloc with
    | none => rfl
    | some r => exact (congrArg length (alloc_eq_some halloc).2).trans length_set

theorem length_of_runs (h : calls.foldlM Call.run a₀ = .ok a) :
    a.bitset.length = a₀.bitset.length := by
  induction calls generalizing a₀ with
  | nil => cases h; rfl
  | cons c calls ih =>
    obtain ⟨b, hb, h⟩ := Result.bind_ok.1 h
    exact (ih h).trans (length_of_run hb)

theorem allocated_of_alloc (h : a.alloc = some (id, b)) (i : ℕ) :
    b.Allocated i ↔ i = id ∨ a.Allocated i := by
  obtain ⟨hget, hset⟩ := alloc_eq_some h
  rw [Allocated, hset]
  rcases eq_or_ne id i with rfl | hne
  · rw [List.getElem?_set_self (List.getElem?_eq_some_iff.1 hget).1]
    simp
  · rw [getElem?_set_ne hne]
    simp [Allocated, hne.symm]

/-- **The allocator hands out the least number that is free**, after any calls; rebuilt from its
bytes it has the same numbers. -/
theorem alloc_least
    (h₀ : a₀ = withCapacity capacity ∨ ∃ slice, a₀ = fromBytesWithCapacity slice capacity)
    (hrun : calls.foldlM Call.run a₀ = .ok a) :
    a.firstAvailableId ≤ capacity ∧ ¬a.Allocated a.firstAvailableId ∧
      (∀ i < a.firstAvailableId, a.Allocated i) ∧
      (a.alloc = none ↔ ∀ i < capacity, a.Allocated i) ∧
      (∀ id b, a.alloc = some (id, b) →
        id = a.firstAvailableId ∧ ∀ i, b.Allocated i ↔ i = id ∨ a.Allocated i) ∧
      ∀ bs, a.AsBytes bs → (fromBytesWithCapacity bs capacity).bitset = a.bitset := by
  have hlen : a.bitset.length = capacity := by
    rw [length_of_runs hrun]
    rcases h₀ with rfl | ⟨slice, rfl⟩
    · exact length_replicate
    · exact length_fromBytes slice capacity
  have hfirst := a.firstAvailableId_eq
  have hle := firstFree_le a.bitset
  have hbefore : ∀ i < a.firstAvailableId, a.Allocated i := fun i hi =>
    getElem?_of_lt_firstFree (hfirst ▸ hi)
  have hat : ¬a.Allocated a.firstAvailableId := by
    rcases hle.lt_or_eq with hlt | heq
    · rw [Allocated, hfirst, getElem?_firstFree hlt]
      simp
    · rw [Allocated, hfirst, heq]
      simp
  refine ⟨by omega, hat, hbefore, ?_, fun id b h => ⟨?_, allocated_of_alloc h⟩, fun bs hbs => ?_⟩
  · unfold alloc
    split_ifs with hlt
    · exact ⟨nofun, fun h => absurd (h _ (hlen ▸ hlt)) hat⟩
    · exact ⟨fun _ i hi => hbefore i (by omega), fun _ => rfl⟩
  · unfold alloc at h
    split_ifs at h with hlt
    cases h
    rfl
  · -- the bytes are as many as the capacity needs
    obtain ⟨hbytes, hbits⟩ := hbs
    rw [hlen] at hbytes hbits
    rw [fromBytesWithCapacity, if_neg (by omega), take_of_length_le hbytes.le]
    exact hbits

/-- Ten numbers, of which a byte says that the first two are allocated. -/
theorem alloc_least_ten : ∃ a, [.alloc, .free 0].foldlM Call.run (fromBytesWithCapacity [3] 10) =
    .ok a ∧ ¬a.Allocated a.firstAvailableId := by
  refine ⟨_, rfl, ?_⟩
  have hrun : [.alloc, .free 0].foldlM Call.run (fromBytesWithCapacity [3] 10) = .ok _ := rfl
  exact (alloc_least (.inr ⟨[3], rfl⟩) hrun).2.1

end IdAlloc

end Jinux
