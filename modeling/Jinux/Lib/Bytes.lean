import Mathlib.Data.List.Range
import Mathlib.Data.UInt

/-!
# Byte memories and little-endian numbers

A memory of bytes is a function from addresses.  `readAt` and `writeAt` move blocks of bytes;
`toLe` and `ofLe` are the bytes of a number, the lowest one first.  A `ByteWrite` is a write as a
value; of a list of writes that are apart, each one can be read back.  `wordBytes` is how 64-bit
words lie in memory, one after the other, and `readWord` reads one of them.
-/

namespace Jinux

open List Nat

/-- A memory of bytes. -/
abbrev Bytes := ℕ → UInt8

/-- The `len` bytes from `o` on. -/
def readAt (m : Bytes) (o len : ℕ) : List UInt8 := (List.range len).map fun i => m (o + i)

/-- The memory with the bytes `bs` from `o` on. -/
def writeAt (m : Bytes) (o : ℕ) (bs : List UInt8) : Bytes :=
  fun a => if o ≤ a then bs[a - o]?.getD (m a) else m a

variable {m m' : Bytes} {o a len : ℕ} {bs : List UInt8} {w : BitVec 64}

@[simp] theorem length_readAt (m : Bytes) (o len : ℕ) : (readAt m o len).length = len := by
  simp [readAt]

theorem readAt_congr (h : ∀ a, o ≤ a → a < o + len → m a = m' a) :
    readAt m o len = readAt m' o len := by
  refine map_congr_left fun i hi => h _ (by omega) ?_
  have := mem_range.1 hi
  omega

theorem writeAt_of_lt (h : a < o) : writeAt m o bs a = m a := if_neg (by omega)

theorem writeAt_of_le (h : o + bs.length ≤ a) : writeAt m o bs a = m a := by
  rw [writeAt, if_pos (by omega), getElem?_eq_none (by omega), Option.getD_none]

/-- A write changes only the bytes it writes. -/
theorem writeAt_of_disjoint (h : a < o ∨ o + bs.length ≤ a) : writeAt m o bs a = m a :=
  h.elim writeAt_of_lt writeAt_of_le

@[simp] theorem writeAt_nil (m : Bytes) (o : ℕ) : writeAt m o [] = m := by
  funext a
  simp [writeAt]

theorem writeAt_append (m : Bytes) (o : ℕ) (bs bs' : List UInt8) :
    writeAt m o (bs ++ bs') = writeAt (writeAt m o bs) (o + bs.length) bs' := by
  funext a
  unfold writeAt
  by_cases ho : o ≤ a
  · by_cases hb : o + bs.length ≤ a
    · rw [if_pos ho, if_pos hb, if_pos ho, getElem?_append_right (by omega),
        getElem?_eq_none (show bs.length ≤ a - o by omega), Option.getD_none, sub_add_eq]
    · rw [if_pos ho, if_neg hb, if_pos ho, getElem?_append_left (by omega)]
  · rw [if_neg ho, if_neg (by omega), if_neg ho]

theorem writeAt_congr_at (h : m a = m' a) : writeAt m o bs a = writeAt m' o bs a := by
  rw [writeAt, writeAt, h]

/-- Writes without a common byte commute. -/
theorem writeAt_comm {o' : ℕ} {bs' : List UInt8}
    (h : ∀ a, o ≤ a → a < o + bs.length → a < o' ∨ o' + bs'.length ≤ a) :
    writeAt (writeAt m o bs) o' bs' = writeAt (writeAt m o' bs') o bs := by
  funext a
  by_cases ha : o ≤ a ∧ a < o + bs.length
  · have hother := h a ha.1 ha.2
    rw [writeAt_of_disjoint hother]
    exact writeAt_congr_at (writeAt_of_disjoint hother).symm
  · have hout : a < o ∨ o + bs.length ≤ a := by omega
    rw [writeAt_of_disjoint hout]
    exact writeAt_congr_at (writeAt_of_disjoint hout)

theorem readAt_writeAt (m : Bytes) (o : ℕ) (bs : List UInt8) :
    readAt (writeAt m o bs) o bs.length = bs := by
  refine ext_getElem (by simp) fun i h1 h2 => ?_
  simp only [readAt, getElem_map, getElem_range, writeAt]
  rw [if_pos (by omega), show o + i - o = i by omega, getElem?_eq_getElem h2, Option.getD_some]

/-- The `w` low bytes of a number. -/
def toLe : ℕ → ℕ → List UInt8
  | 0, _ => []
  | w + 1, n => UInt8.ofNat n :: toLe w (n / 256)

/-- The number of the bytes. -/
def ofLe : List UInt8 → ℕ
  | [] => 0
  | b :: bs => b.toNat + 256 * ofLe bs

@[simp] theorem length_toLe (w n : ℕ) : (toLe w n).length = w := by
  induction w generalizing n with
  | zero => rfl
  | succ w ih => rw [toLe, length_cons, ih]

theorem ofLe_toLe {w n : ℕ} (h : n < 256 ^ w) : ofLe (toLe w n) = n := by
  induction w generalizing n with
  | zero =>
    exact (lt_one_iff.1 h).symm
  | succ w ih =>
    have hdiv : n / 256 < 256 ^ w := by
      exact Nat.div_lt_of_lt_mul (by rwa [Nat.mul_comm])
    rw [toLe, ofLe, ih hdiv, UInt8.toNat_ofNat']
    omega

theorem toLe_ofLe (bs : List UInt8) : toLe bs.length (ofLe bs) = bs := by
  induction bs with
  | nil => rfl
  | cons b bs ih =>
    have hb := b.toNat_lt
    rw [length_cons, toLe, ofLe, show (b.toNat + 256 * ofLe bs) / 256 = ofLe bs by omega]
    congr 1
    apply UInt8.toNat_inj.1
    rw [UInt8.toNat_ofNat']
    omega

/-! ### Parts of a write -/

/-- A part of the bytes that were written. -/
theorem readAt_writeAt_part (m : Bytes) (o : ℕ) (as bs cs : List UInt8) :
    readAt (writeAt m o (as ++ bs ++ cs)) (o + as.length) bs.length = bs := by
  refine ext_getElem (by simp) fun i h1 h2 => ?_
  simp only [readAt, getElem_map, getElem_range, writeAt]
  rw [if_pos (by omega), show o + as.length + i - o = as.length + i by omega,
    append_assoc, getElem?_append_right (by omega), Nat.add_sub_cancel_left,
    getElem?_append_left h2, getElem?_eq_getElem h2, Option.getD_some]

/-- Two neighbouring reads. -/
theorem readAt_add (m : Bytes) (o l l' : ℕ) :
    readAt m o (l + l') = readAt m o l ++ readAt m (o + l) l' := by
  simp [readAt, range_add, add_assoc]

/-! ### Many writes -/

/-- A write: the address and the bytes. -/
abbrev ByteWrite := ℕ × List UInt8

namespace ByteWrite

/-- The memory after the write. -/
def apply (m : Bytes) (w : ByteWrite) : Bytes := writeAt m w.1 w.2

/-- The two writes have no byte in common. -/
def Apart (w w' : ByteWrite) : Prop := w.1 + w.2.length ≤ w'.1 ∨ w'.1 + w'.2.length ≤ w.1

variable {w : ByteWrite} {ws : List ByteWrite}

theorem readAt_apply_of_apart (h : w.Apart (o, bs)) :
    readAt (apply m w) o bs.length = readAt m o bs.length := by
  refine readAt_congr fun a hle hlt => writeAt_of_disjoint ?_
  rcases h with h | h
  · exact Or.inr (le_trans h hle)
  · exact Or.inl (lt_of_lt_of_le hlt h)

theorem readAt_foldl_of_apart (h : ∀ w ∈ ws, w.Apart (o, bs)) :
    readAt (ws.foldl apply m) o bs.length = readAt m o bs.length := by
  induction ws generalizing m with
  | nil => rfl
  | cons w ws ih =>
    rw [foldl_cons, ih fun w' hw' => h w' (mem_cons_of_mem _ hw'),
      readAt_apply_of_apart (h w mem_cons_self)]

/-- Of writes that are apart each one can be read back. -/
theorem readAt_foldl_of_mem (hapart : ws.Pairwise fun w w' => w'.Apart w) (h : (o, bs) ∈ ws) :
    readAt (ws.foldl apply m) o bs.length = bs := by
  induction ws generalizing m with
  | nil => cases h
  | cons w ws ih =>
    rw [pairwise_cons] at hapart
    rw [foldl_cons]
    rcases mem_cons.1 h with rfl | h
    · rw [readAt_foldl_of_apart hapart.1]
      exact readAt_writeAt m o bs
    · exact ih hapart.2 h

end ByteWrite

/-! ### Words -/

/-- The bytes of a list of words. -/
def wordBytes (ws : List (BitVec 64)) : List UInt8 := ws.flatMap fun w => toLe 8 w.toNat

/-- The word at an address.  It is irreducible, since the bytes of an unknown memory do not
compute. -/
@[irreducible] def readWord (m : Bytes) (a : ℕ) : BitVec 64 := BitVec.ofNat 64 (ofLe (readAt m a 8))

@[simp] theorem length_wordBytes (ws : List (BitVec 64)) :
    (wordBytes ws).length = 8 * ws.length := by
  induction ws with
  | nil => rfl
  | cons w ws ih =>
    rw [wordBytes, flatMap_cons, length_append, length_toLe, length_cons]
    rw [wordBytes] at ih
    omega

theorem readWord_of_bytes (h : readAt m a 8 = toLe 8 w.toNat) : readWord m a = w := by
  rw [readWord, h, ofLe_toLe (by simpa using w.isLt), BitVec.ofNat_toNat, BitVec.setWidth_eq]

/-- A word of a list that was written. -/
theorem readWord_writeAt {ws : List (BitVec 64)} {i : ℕ} (h : ws[i]? = some w) :
    readWord (writeAt m o (wordBytes ws)) (o + 8 * i) = w := by
  obtain ⟨hi, hw⟩ := List.getElem?_eq_some_iff.1 h
  refine readWord_of_bytes ?_
  have hsplit : wordBytes ws =
      wordBytes (ws.take i) ++ toLe 8 w.toNat ++ wordBytes (ws.drop (i + 1)) := by
    conv_lhs => rw [← take_append_drop i ws, drop_eq_getElem_cons hi, hw]
    simp [wordBytes]
  have hlen : (wordBytes (ws.take i)).length = 8 * i := by
    rw [length_wordBytes, length_take, min_eq_left hi.le]
  have hpart := readAt_writeAt_part m o (wordBytes (ws.take i)) (toLe 8 w.toNat)
    (wordBytes (ws.drop (i + 1)))
  rwa [hlen, ← hsplit] at hpart

/-- A write elsewhere leaves a word as it is. -/
theorem readWord_writeAt_of_apart (h : a + 8 ≤ o ∨ o + bs.length ≤ a) :
    readWord (writeAt m o bs) a = readWord m a := by
  rw [readWord, readWord, readAt_congr fun b _ _ => writeAt_of_disjoint (by omega)]

end Jinux
