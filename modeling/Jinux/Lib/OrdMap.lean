import Mathlib.Data.List.Sort

/-!
# Ordered maps

`OrdMap κ α` is a finite map kept as the list of its entries in ascending key order, the view an
ordered search tree gives to its clients: iteration visits the entries in key order, insertion
replaces the entry with the same key, and `append` lets the entries of the second map win.

The type carries no proof (it is used below recursive types, where a proof field is not allowed);
`OrdMap.Sorted` states the order, and every operation keeps it.  Lookup laws for `insert`,
`remove` and `retain` need no order; reading an entry back from the list of entries does.
-/

namespace Jinux

open List Option

universe u v

/-- A finite map, as the list of its entries in ascending key order. -/
structure OrdMap (κ : Type u) (α : Type v) where
  /-- The entries, in ascending key order. -/
  entries : List (κ × α)
  deriving DecidableEq, Repr

namespace OrdMap

variable {κ : Type u} {α : Type v} {e : κ × α}

/-- The empty map. -/
def empty : OrdMap κ α := ⟨[]⟩

/-- The keys in ascending order. -/
def keys (m : OrdMap κ α) : List κ := m.entries.map Prod.fst

/-- The values in ascending order of their keys. -/
def values (m : OrdMap κ α) : List α := m.entries.map Prod.snd

/-- Keep the entries satisfying `p`. -/
def retain (p : κ → α → Bool) (m : OrdMap κ α) : OrdMap κ α := ⟨m.entries.filter fun e => p e.1 e.2⟩

/-- The map with every value replaced by its image. -/
def mapValues {β : Type v} (f : α → β) (m : OrdMap κ α) : OrdMap κ β :=
  ⟨m.entries.map fun e => (e.1, f e.2)⟩

variable [LinearOrder κ]

/-- The value of `k` in a list of entries: the first one wins. -/
def lookup (k : κ) : List (κ × α) → Option α
  | [] => none
  | (k', a) :: es => if k = k' then some a else lookup k es

/-- The value of `k`. -/
def get? (m : OrdMap κ α) (k : κ) : Option α := lookup k m.entries

/-- Insertion into a list of entries, in front of the first greater key. -/
def insertEntry (k : κ) (a : α) : List (κ × α) → List (κ × α)
  | [] => [(k, a)]
  | (k', b) :: es =>
    if k < k' then (k, a) :: (k', b) :: es
    else if k = k' then (k, a) :: es
    else (k', b) :: insertEntry k a es

/-- Bind `k` to `a`, replacing the former value. -/
def insert (m : OrdMap κ α) (k : κ) (a : α) : OrdMap κ α := ⟨insertEntry k a m.entries⟩

/-- Remove the entry of `k`. -/
def remove (m : OrdMap κ α) (k : κ) : OrdMap κ α := m.retain fun k' _ => k' ≠ k

/-- Insert all the entries of a list. -/
def insertAll (m : OrdMap κ α) (es : List (κ × α)) : OrdMap κ α :=
  es.foldl (fun m e => m.insert e.1 e.2) m

/-- Remove all the keys of a list. -/
def removeAll (m : OrdMap κ α) (ks : List κ) : OrdMap κ α := ks.foldl remove m

/-- Move all the entries of `m'` into `m`; an entry of `m'` replaces one with the same key. -/
def append (m m' : OrdMap κ α) : OrdMap κ α := m.insertAll m'.entries

/-- The keys are strictly ascending. -/
def Sorted (m : OrdMap κ α) : Prop := m.entries.Pairwise fun e e' => e.1 < e'.1

/-! ### Lookup -/

@[simp] theorem get?_empty (k : κ) : (empty : OrdMap κ α).get? k = none := rfl

theorem lookup_cons (k k' : κ) (a : α) (es : List (κ × α)) :
    lookup k ((k', a) :: es) = if k = k' then some a else lookup k es := rfl

theorem lookup_insertEntry (k k' : κ) (a : α) (es : List (κ × α)) :
    lookup k' (insertEntry k a es) = if k' = k then some a else lookup k' es := by
  induction es with
  | nil => rfl
  | cons e es ih =>
    obtain ⟨j, b⟩ := e
    by_cases h1 : k < j
    · simp [insertEntry, h1, lookup_cons]
    by_cases h2 : k = j
    · subst h2
      by_cases h3 : k' = k <;> simp [insertEntry, lookup_cons, h3]
    · simp only [insertEntry, h1, h2, ↓reduceIte, lookup_cons, ih]
      by_cases h3 : k' = k
      · subst h3; simp [h2]
      · simp [h3]

theorem get?_insert (m : OrdMap κ α) (k k' : κ) (a : α) :
    (m.insert k a).get? k' = if k' = k then some a else m.get? k' :=
  lookup_insertEntry k k' a m.entries

@[simp] theorem get?_insert_self (m : OrdMap κ α) (k : κ) (a : α) :
    (m.insert k a).get? k = some a := by simp [get?_insert]

theorem get?_insert_of_ne {m : OrdMap κ α} {k k' : κ} {a : α} (h : k' ≠ k) :
    (m.insert k a).get? k' = m.get? k' := by rw [get?_insert, if_neg h]

theorem lookup_filter_key (q : κ → Bool) (k : κ) (es : List (κ × α)) :
    lookup k (es.filter fun e => q e.1) = if q k then lookup k es else none := by
  induction es with
  | nil => simp [lookup]
  | cons e es ih =>
    obtain ⟨j, b⟩ := e
    by_cases hj : q j
    · by_cases hk : k = j
      · subst hk; simp [hj, lookup_cons]
      · simp [hj, lookup_cons, hk, ih]
    · by_cases hk : k = j
      · subst hk; simp [hj, ih]
      · simp [hj, lookup_cons, hk, ih]

theorem get?_remove (m : OrdMap κ α) (k k' : κ) :
    (m.remove k).get? k' = if k' = k then none else m.get? k' := by
  have h := lookup_filter_key (α := α) (fun j => decide (j ≠ k)) k' m.entries
  by_cases hk : k' = k
  · simpa [get?, remove, retain] using h
  · simpa [get?, remove, retain] using h

theorem get?_removeAll (m : OrdMap κ α) (ks : List κ) (k : κ) :
    (m.removeAll ks).get? k = if k ∈ ks then none else m.get? k := by
  induction ks generalizing m with
  | nil => simp [removeAll]
  | cons j ks ih =>
    have := ih (m.remove j)
    simp only [removeAll, foldl_cons] at this ⊢
    rw [this, get?_remove]
    by_cases hk : k ∈ ks <;> by_cases hj : k = j <;> simp [hj]

variable {k k' : κ} {a b : α} {es : List (κ × α)} {m : OrdMap κ α} {m' : OrdMap κ α} {β : Type v}
  {f : α → β}

/-- An entry after an insertion is the new one, or an old one under another key. -/
theorem of_get?_insert (h : (m.insert k a).get? k' = some b) :
    (k' = k ∧ b = a) ∨ (k' ≠ k ∧ m.get? k' = some b) := by
  rw [get?_insert] at h
  split_ifs at h with hk
  · exact .inl ⟨hk, (some.inj h).symm⟩
  · exact .inr ⟨hk, h⟩

/-- What holds of the entries and of the new one holds after the insertion. -/
theorem forall_insert {P : κ → α → Prop} (h : ∀ k b, m.get? k = some b → P k b) (ha : P k a) :
    ∀ k' b, (m.insert k a).get? k' = some b → P k' b := by
  intro k' b hb
  rcases of_get?_insert hb with ⟨rfl, rfl⟩ | ⟨-, hb⟩
  · exact ha
  · exact h k' b hb

theorem of_get?_remove (h : (m.remove k).get? k' = some a) : k' ≠ k ∧ m.get? k' = some a := by
  rw [get?_remove] at h
  split_ifs at h with hk
  exact ⟨hk, h⟩

theorem mem_of_lookup (h : lookup k es = some a) : (k, a) ∈ es := by
  induction es with
  | nil => cases h
  | cons e es ih =>
    rw [lookup_cons] at h
    split_ifs at h with hk
    · cases h; subst hk; exact mem_cons_self
    · exact mem_cons_of_mem _ (ih h)

theorem mem_of_get? (h : m.get? k = some a) : (k, a) ∈ m.entries := mem_of_lookup h

theorem exists_lookup (h : e ∈ es) : ∃ a, lookup e.1 es = some a := by
  induction es with
  | nil => cases h
  | cons e' es ih =>
    obtain ⟨j, b⟩ := e'
    rw [lookup_cons]
    split_ifs with hk
    · exact ⟨b, rfl⟩
    · exact ih ((mem_cons.1 h).resolve_left fun he => hk (congrArg Prod.fst he))

/-! ### Order -/

theorem sorted_empty : (empty : OrdMap κ α).Sorted := Pairwise.nil

theorem mem_insertEntry (h : e ∈ insertEntry k a es) : e = (k, a) ∨ e ∈ es := by
  induction es with
  | nil => simpa [insertEntry] using h
  | cons e' es ih =>
    simp only [insertEntry] at h
    split_ifs at h with h1 h2
    · exact (mem_cons.1 h).imp id id
    · exact (mem_cons.1 h).imp id (mem_cons_of_mem _)
    · rcases mem_cons.1 h with rfl | h
      · exact .inr mem_cons_self
      · exact (ih h).imp id (mem_cons_of_mem _)

theorem Sorted.insert (h : m.Sorted) (k : κ) (a : α) : (m.insert k a).Sorted := by
  obtain ⟨es⟩ := m
  simp only [Sorted, OrdMap.insert] at h ⊢
  induction es with
  | nil => simp [insertEntry]
  | cons e es ih =>
    rw [pairwise_cons] at h
    simp only [insertEntry]
    split_ifs with h1 h2
    · refine pairwise_cons.2 ⟨fun e he => ?_, pairwise_cons.2 h⟩
      rcases mem_cons.1 he with rfl | he
      · exact h1
      · exact h1.trans (h.1 e he)
    · subst h2; exact pairwise_cons.2 h
    · refine pairwise_cons.2 ⟨fun e he => ?_, ih h.2⟩
      rcases mem_insertEntry he with rfl | he
      · exact lt_of_le_of_ne (not_lt.1 h1) (Ne.symm h2)
      · exact h.1 e he

omit [LinearOrder κ] in
theorem mem_retain {p : κ → α → Bool} :
    e ∈ (m.retain p).entries ↔ e ∈ m.entries ∧ p e.1 e.2 = true := mem_filter

theorem Sorted.retain (h : m.Sorted) (p : κ → α → Bool) : (m.retain p).Sorted := Pairwise.filter _ h

theorem Sorted.remove (h : m.Sorted) (k : κ) : (m.remove k).Sorted :=
  h.retain _

theorem Sorted.insertAll (h : m.Sorted) (es : List (κ × α)) : (m.insertAll es).Sorted := by
  induction es generalizing m with
  | nil => exact h
  | cons e es ih => exact ih (h.insert e.1 e.2)

theorem Sorted.removeAll (h : m.Sorted) (ks : List κ) : (m.removeAll ks).Sorted := by
  induction ks generalizing m with
  | nil => exact h
  | cons k ks ih => exact ih (h.remove k)

theorem Sorted.append (h : m.Sorted) (m' : OrdMap κ α) : (m.append m').Sorted := h.insertAll _

/-! ### Entries of a sorted map -/

theorem lookup_of_mem (hs : es.Pairwise fun e e' => e.1 < e'.1) (h : (k, a) ∈ es) :
    lookup k es = some a := by
  induction es with
  | nil => cases h
  | cons e es ih =>
    rw [pairwise_cons] at hs
    rw [lookup_cons]
    rcases mem_cons.1 h with h | h
    · cases h; simp
    · rw [if_neg (hs.1 _ h).ne', ih hs.2 h]

theorem mem_entries (hs : m.Sorted) : (k, a) ∈ m.entries ↔ m.get? k = some a :=
  ⟨lookup_of_mem hs, mem_of_get?⟩

/-- A sorted map is determined by its lookups. -/
theorem Sorted.ext (hs : m.Sorted) (hs' : m'.Sorted) (h : ∀ k, m.get? k = m'.get? k) : m = m' := by
  refine congrArg OrdMap.mk (Pairwise.eq_of_mem_iff hs hs' fun e => ?_)
  exact (mem_entries hs).trans ((h e.1).symm ▸ (mem_entries hs').symm)

theorem length_remove_lt (h : m.get? k = some a) : (m.remove k).entries.length < m.entries.length :=
  length_filter_lt_length_iff_exists.2 ⟨_, mem_of_get? h, by simp⟩

theorem Sorted.key_inj (hs : m.Sorted) (ha : (k, a) ∈ m.entries) (hb : (k, b) ∈ m.entries) :
    a = b :=
  some.inj (((mem_entries hs).1 ha).symm.trans ((mem_entries hs).1 hb))

theorem lookup_foldl_insert (es : List (κ × α)) (hs : es.Pairwise fun e e' => e.1 < e'.1)
    (m : OrdMap κ α) (k : κ) : (m.insertAll es).get? k = (lookup k es).or (m.get? k) := by
  induction es generalizing m with
  | nil => simp [insertAll, lookup]
  | cons e es ih =>
    obtain ⟨j, b⟩ := e
    rw [pairwise_cons] at hs
    have := ih hs.2 (m.insert j b)
    simp only [insertAll, foldl_cons] at this ⊢
    rw [this, get?_insert, lookup_cons]
    by_cases hk : k = j
    · subst hk
      have hn : lookup k es = none := by
        cases hl : lookup k es with
        | none => rfl
        | some c => exact absurd (hs.1 _ (mem_of_lookup hl)) (lt_irrefl k)
      simp [hn]
    · simp [hk]

theorem get?_insertAll_cases :
    ∀ {m : OrdMap κ α}, (m.insertAll es).get? k = some a → (k, a) ∈ es ∨ m.get? k = some a := by
  induction es with
  | nil => exact fun h => .inr h
  | cons e es ih =>
    intro m h
    rcases ih h with h | h
    · exact .inl (mem_cons_of_mem _ h)
    · rw [get?_insert] at h
      split_ifs at h with hk
      · cases h
        exact .inl (hk ▸ mem_cons_self)
      · exact .inr h

theorem mem_of_get?_insertAll (h : (empty.insertAll es).get? k = some a) : (k, a) ∈ es :=
  (get?_insertAll_cases h).resolve_right (by simp)

theorem exists_insertAll : ∀ {m : OrdMap κ α}, (∃ a, m.get? k = some a) ∨ k ∈ es.map Prod.fst →
      ∃ a, (m.insertAll es).get? k = some a := by
  induction es with
  | nil => exact fun h => h.resolve_right (by simp)
  | cons e es ih =>
    intro m h
    refine ih (or_iff_not_imp_right.2 fun hk => ?_)
    rw [get?_insert]
    split_ifs with he
    · exact ⟨e.2, rfl⟩
    · exact h.resolve_right fun hmem => (mem_cons.1 hmem).elim he hk

theorem exists_get?_insertAll (h : (k, a) ∈ es) : ∃ b, (empty.insertAll es).get? k = some b :=
  exists_insertAll (.inr (mem_map.2 ⟨_, h, rfl⟩))

theorem get?_append (hs : m'.Sorted) (k : κ) : (m.append m').get? k = (m'.get? k).or (m.get? k) :=
  lookup_foldl_insert m'.entries hs m k

/-- The order is one of the keys only. -/
theorem Sorted.of_keys (hs : m.Sorted) (h : m'.keys = m.keys) : m'.Sorted := by
  have hk : m.keys.Pairwise (· < ·) := pairwise_map.2 hs
  rw [← h] at hk
  exact pairwise_map.1 hk

theorem get?_retain (hs : m.Sorted) (p : κ → α → Bool) (k : κ) :
    (m.retain p).get? k = (m.get? k).filter (p k) := by
  apply ext
  intro a
  simp only [filter_eq_some_iff]
  rw [← mem_entries (hs.retain p), mem_retain, mem_entries hs]

/-- A relation between the values of any two distinct keys holds pairwise along the values. -/
theorem Sorted.pairwise_values (hs : m.Sorted) {R : α → α → Prop}
    (h : ∀ k k' a a', (k, a) ∈ m.entries → (k', a') ∈ m.entries → k < k' → R a a') :
    m.values.Pairwise R := by
  rw [values, pairwise_map]
  exact hs.imp_of_mem fun {e e'} he he' hlt => h e.1 e'.1 e.2 e'.2 he he' hlt

theorem get?_mapValues (f : α → β) (m : OrdMap κ α) (k : κ) :
    (m.mapValues f).get? k = (m.get? k).map f := by
  obtain ⟨es⟩ := m
  change lookup k (es.map fun e => (e.1, f e.2)) = (lookup k es).map f
  induction es with
  | nil => rfl
  | cons e es ih =>
    rw [map_cons, lookup_cons, lookup_cons]
    split_ifs
    · rfl
    · exact ih

theorem sorted_mapValues : (m.mapValues f).Sorted ↔ m.Sorted := pairwise_map

/-- Replacing a value by one with the same image. -/
theorem Sorted.mapValues_insert (hs : m.Sorted) (hk : m.get? k = some a) (hf : f b = f a) :
    (m.insert k b).mapValues f = m.mapValues f := by
  refine Sorted.ext (sorted_mapValues.2 (hs.insert k b)) (sorted_mapValues.2 hs) fun k' => ?_
  rw [get?_mapValues, get?_mapValues, get?_insert]
  split_ifs with h
  · rw [h, hk, map_some, map_some, hf]
  · rfl

omit [LinearOrder κ] in
theorem mem_values : a ∈ m.values ↔ ∃ k, (k, a) ∈ m.entries := by
  simp [values]

theorem mem_values_of_get? (h : m.get? k = some a) : a ∈ m.values :=
  mem_values.2 ⟨k, mem_of_get? h⟩

end OrdMap

/-- Related lists are related at every index. -/
theorem getElem?_of_forall₂ {α : Type u} {β : Type v} {R : α → β → Prop} {l : List α} {l' : List β}
    (h : Forall₂ R l l') {i : ℕ} {b : β} (hb : l'[i]? = some b) : ∃ a, l[i]? = some a ∧ R a b := by
  obtain ⟨hlen, hall⟩ := forall₂_iff_get.1 h
  obtain ⟨hi, rfl⟩ := List.getElem?_eq_some_iff.1 hb
  exact ⟨l[i], getElem?_eq_getElem (hlen ▸ hi), hall i (hlen ▸ hi) hi⟩

/-- Every element of the second of two related lists has a partner in the first. -/
theorem exists_mem_of_forall₂ {α : Type u} {β : Type v} {R : α → β → Prop} {l : List α}
    {l' : List β} (h : Forall₂ R l l') {b : β} (hb : b ∈ l') : ∃ a ∈ l, R a b := by
  obtain ⟨i, hi⟩ := mem_iff_getElem?.1 hb
  obtain ⟨a, ha, hr⟩ := getElem?_of_forall₂ h hi
  exact ⟨a, mem_of_getElem? ha, hr⟩

end Jinux
