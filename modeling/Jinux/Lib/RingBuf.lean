import Mathlib.Data.Nat.Notation

/-!
# Bounded ring buffers

A ring buffer holds up to `capacity` elements, first in, first out.  The operations are `new`,
`is_empty`, `is_full`, `push_slice` and `pop_slice` of `HeapRb` in the crate `ringbuf`; the last two
move as many elements of a slice as there is room or contents for.
-/

namespace Jinux

open List

universe u

/-- A bounded buffer with the elements from the oldest to the newest. -/
structure RingBuf (α : Type u) where
  capacity : ℕ
  /-- The elements, the oldest first. -/
  elems : List α
  pos : 0 < capacity
  le : elems.length ≤ capacity

namespace RingBuf

variable {α : Type u}

/-- A buffer without elements. -/
def new (capacity : ℕ) (pos : 0 < capacity) : RingBuf α := ⟨capacity, [], pos, Nat.zero_le _⟩

/-- No element is left. -/
def isEmpty (b : RingBuf α) : Bool := b.elems.isEmpty

/-- No element fits in. -/
def isFull (b : RingBuf α) : Bool := b.elems.length == b.capacity

/-- How many elements of a slice fit in. -/
def room (b : RingBuf α) (xs : List α) : ℕ := min (b.capacity - b.elems.length) xs.length

/-- Add the elements of a slice that fit in; returns their number. -/
def pushSlice (b : RingBuf α) (xs : List α) : ℕ × RingBuf α :=
  (b.room xs, { b with
    elems := b.elems ++ xs.take (b.room xs)
    le := by
      have := b.le
      simp only [room, length_append, length_take]
      omega })

/-- Take up to `n` elements out; returns them. -/
def popSlice (b : RingBuf α) (n : ℕ) : List α × RingBuf α :=
  (b.elems.take n, { b with
    elems := b.elems.drop n
    le := by
      have := b.le
      rw [length_drop]
      omega })

variable {b : RingBuf α} {xs : List α} {n : ℕ}

@[simp] theorem capacity_pushSlice : (b.pushSlice xs).2.capacity = b.capacity := rfl

@[simp] theorem elems_pushSlice :
    (b.pushSlice xs).2.elems = b.elems ++ xs.take (b.pushSlice xs).1 := rfl

@[simp] theorem capacity_popSlice : (b.popSlice n).2.capacity = b.capacity := rfl

@[simp] theorem elems_popSlice : (b.popSlice n).2.elems = b.elems.drop n := rfl

@[simp] theorem fst_popSlice : (b.popSlice n).1 = b.elems.take n := rfl

theorem isEmpty_iff : b.isEmpty = true ↔ b.elems = [] := List.isEmpty_iff

theorem isFull_iff : b.isFull = true ↔ b.elems.length = b.capacity := beq_iff_eq

/-- A full buffer has elements. -/
theorem not_isFull_of_isEmpty (h : b.isEmpty = true) : b.isFull = false := by
  have := b.pos
  rw [isEmpty_iff] at h
  simp only [isFull, h, length_nil, beq_eq_false_iff_ne]
  omega

/-- Pushing does not empty a buffer. -/
theorem isEmpty_pushSlice (h : (b.pushSlice xs).2.isEmpty = true) : b.isEmpty = true := by
  rw [isEmpty_iff, elems_pushSlice, append_eq_nil_iff] at h
  exact isEmpty_iff.2 h.1

/-- Pushing does not make room. -/
theorem isFull_pushSlice (h : b.isFull = true) : (b.pushSlice xs).2.isFull = true := by
  have hle := (b.pushSlice xs).2.le
  rw [isFull_iff] at h ⊢
  rw [elems_pushSlice, capacity_pushSlice, length_append] at *
  omega

/-- Popping does not fill a buffer. -/
theorem isFull_popSlice (h : (b.popSlice n).2.isFull = true) : b.isFull = true := by
  have := b.le
  rw [isFull_iff, elems_popSlice, capacity_popSlice, length_drop] at h
  rw [isFull_iff]
  omega

/-- An empty buffer stays empty. -/
theorem isEmpty_popSlice (h : b.isEmpty = true) : (b.popSlice n).2.isEmpty = true := by
  rw [isEmpty_iff] at h ⊢
  rw [elems_popSlice, h, drop_nil]

/-- A pop of a positive number of elements that finds none finds the buffer empty. -/
theorem isEmpty_of_popSlice (hn : 0 < n) (h : (b.popSlice n).1.length = 0) :
    (b.popSlice n).2.isEmpty = true := by
  rw [fst_popSlice, length_take] at h
  rw [isEmpty_iff]
  exact drop_of_length_le (by omega)

end RingBuf

end Jinux
