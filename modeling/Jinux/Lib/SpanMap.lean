import Mathlib.Data.List.Pairwise
import Jinux.Lib.OrdMap
import Jinux.Lib.Span

/-!
# Maps of spans

A map whose values occupy spans of a linear order, each stored under the first element of its span:
the free list of an allocator, the regions of an address space.  `Tiles f m` says that the map is
sorted, keyed that way, and that no element lies in the spans of two entries; `Covers f m a` says
that some entry occupies `a`.  The laws below say what each map operation does to the occupied
elements and when it keeps `Tiles`.
-/

namespace Jinux

open OrdMap List

universe u v

namespace SpanMap

variable {α : Type u} {β : Type v} [LinearOrder α] {p : α → β → Bool}

/-- The entry with key `k` occupies `a`. -/
def At (f : β → Span α) (m : OrdMap α β) (k a : α) : Prop := ∃ b, m.get? k = some b ∧ a ∈ f b

/-- Some entry occupies `a`. -/
def Covers (f : β → Span α) (m : OrdMap α β) (a : α) : Prop := ∃ k, At f m k a

/-- Entries are in order, each under the start of its span. -/
structure Keyed (f : β → Span α) (m : OrdMap α β) : Prop where
  sorted : m.Sorted
  keyed : ∀ k b, m.get? k = some b → (f b).start = k

/-- Entries are keyed by the start of their span, and no element is occupied twice. -/
structure Tiles (f : β → Span α) (m : OrdMap α β) : Prop extends Keyed f m where
  indep : ∀ k k' a, At f m k a → At f m k' a → k = k'

variable {f : β → Span α} {m m' : OrdMap α β} {k k' a : α} {b : β} {b' : β}

theorem At.covers (h : At f m k a) : Covers f m a := ⟨k, h⟩

theorem not_at_empty : ¬ At f (.empty : OrdMap α β) k a := by
  rintro ⟨b, h, -⟩
  cases h

theorem not_covers_empty : ¬ Covers f (.empty : OrdMap α β) a := fun ⟨_, h⟩ => not_at_empty h

theorem tiles_empty : Tiles f (.empty : OrdMap α β) where
  sorted := sorted_empty
  keyed _ _ h := by cases h
  indep _ _ _ h := absurd h not_at_empty

/-! ### Occupied elements after an operation -/

theorem at_insert : At f (m.insert k b) k' a ↔ k' = k ∧ a ∈ f b ∨ k' ≠ k ∧ At f m k' a := by
  unfold At
  by_cases h : k' = k
  · simp [h]
  · simp [get?_insert, h]

theorem at_remove : At f (m.remove k) k' a ↔ k' ≠ k ∧ At f m k' a := by
  unfold At
  by_cases h : k' = k
  · simp [get?_remove, h]
  · simp [get?_remove, h]

theorem at_append (hs : m'.Sorted) :
    At f (m.append m') k a ↔ At f m' k a ∨ m'.get? k = none ∧ At f m k a := by
  unfold At
  rw [get?_append hs]
  cases m'.get? k <;> simp

theorem at_of_insertAll {es : List (α × β)} (h : At f (m.insertAll es) k a) :
    (∃ b, (k, b) ∈ es ∧ a ∈ f b) ∨ At f m k a := by
  induction es generalizing m with
  | nil => exact .inr h
  | cons e es ih =>
    rcases ih h with ⟨b, hb, ha⟩ | h
    · exact .inl ⟨b, mem_cons_of_mem _ hb, ha⟩
    · rcases at_insert.1 h with ⟨rfl, ha⟩ | ⟨-, h⟩
      · exact .inl ⟨e.2, mem_cons_self, ha⟩
      · exact .inr h

theorem covers_of_insert (h : Covers f (m.insert k b) a) : a ∈ f b ∨ Covers f m a := by
  obtain ⟨k', h'⟩ := h
  rcases at_insert.1 h' with ⟨-, ha⟩ | ⟨-, h'⟩
  · exact .inl ha
  · exact .inr h'.covers

theorem covers_insert (h : ∀ a, At f m k a → a ∈ f b) :
    Covers f (m.insert k b) a ↔ a ∈ f b ∨ Covers f m a := by
  refine ⟨covers_of_insert, ?_⟩
  rintro (ha | ⟨k', h'⟩)
  · exact ⟨k, at_insert.2 (.inl ⟨rfl, ha⟩)⟩
  · by_cases hk : k' = k
    · subst hk
      exact ⟨k', at_insert.2 (.inl ⟨rfl, h a h'⟩)⟩
    · exact ⟨k', at_insert.2 (.inr ⟨hk, h'⟩)⟩

/-- Replacing an entry by one with the same span changes no occupied element. -/
theorem at_insert_same (hk : m.get? k = some b) (hb : f b' = f b) :
    At f (m.insert k b') k' a ↔ At f m k' a := by
  rw [at_insert]
  by_cases h : k' = k
  · subst h
    simp [At, hk, hb]
  · simp [h]

theorem Tiles.covers_remove (h : Tiles f m) (hk : m.get? k = some b) :
    Covers f (m.remove k) a ↔ Covers f m a ∧ a ∉ f b := by
  constructor
  · rintro ⟨k', h'⟩
    obtain ⟨hne, h'⟩ := at_remove.1 h'
    exact ⟨⟨k', h'⟩, fun ha => hne (h.indep k' k a h' ⟨b, hk, ha⟩)⟩
  · rintro ⟨⟨k', h'⟩, hna⟩
    refine ⟨k', at_remove.2 ⟨?_, h'⟩⟩
    rintro rfl
    obtain ⟨b', hb', ha⟩ := h'
    rw [hk] at hb'
    cases hb'
    exact hna ha

/-! ### Operations that keep the tiling -/

theorem Keyed.insert (h : Keyed f m) (hk : (f b).start = k) : Keyed f (m.insert k b) where
  sorted := h.sorted.insert k b
  keyed := forall_insert h.keyed hk

theorem Tiles.insert (h : Tiles f m) (hk : (f b).start = k)
    (hd : ∀ a ∈ f b, ∀ k', k' ≠ k → ¬ At f m k' a) : Tiles f (m.insert k b) where
  toKeyed := h.toKeyed.insert hk
  indep k₁ k₂ a h₁ h₂ := by
    rcases at_insert.1 h₁ with ⟨e1, ha⟩ | ⟨n1, h₁⟩
    · rcases at_insert.1 h₂ with ⟨e2, -⟩ | ⟨n2, h₂⟩
      · rw [e1, e2]
      · exact absurd h₂ (hd a ha k₂ n2)
    · rcases at_insert.1 h₂ with ⟨-, ha⟩ | ⟨-, h₂⟩
      · exact absurd h₁ (hd a ha k₁ n1)
      · exact h.indep k₁ k₂ a h₁ h₂

theorem Tiles.replace (h : Tiles f m) (hk : m.get? k = some b) (hb : f b' = f b) :
    Tiles f (m.insert k b') := by
  refine h.insert (hb ▸ h.keyed k b hk) fun a ha k' hne hat => hne ?_
  exact h.indep k' k a hat ⟨b, hk, hb ▸ ha⟩

/-- A non-empty span that meets no entry can be added. -/
theorem Tiles.insert_of_apart (h : Tiles f m) (hk : (f b).start = k) (hne : k < (f b).stop)
    (hd : ∀ a ∈ f b, ¬ Covers f m a) :
    Tiles f (m.insert k b) ∧ ∀ a, Covers f (m.insert k b) a ↔ a ∈ f b ∨ Covers f m a := by
  refine ⟨h.insert hk fun a ha k' _ hat => hd a ha hat.covers, fun a => covers_insert ?_⟩
  -- an entry with the same key would occupy the key itself
  rintro a' ⟨b', hb', ha'⟩
  have hstart := h.keyed k b' hb'
  have hk' : k ∈ f b' := ⟨hstart.le, hstart ▸ ha'.1.trans_lt ha'.2⟩
  exact absurd ⟨k, b', hb', hk'⟩ (hd k ⟨hk.le, hne⟩)

theorem Keyed.get?_of_retain (h : Keyed f m)
    (hb : (m.retain p).get? k = some b) : m.get? k = some b := by
  rw [get?_retain h.sorted, Option.filter_eq_some_iff] at hb
  exact hb.1

theorem Keyed.at_of_retain (h : Keyed f m) (ha : At f (m.retain p) k a) : At f m k a := by
  obtain ⟨b, hb, ha⟩ := ha
  exact ⟨b, h.get?_of_retain hb, ha⟩

theorem Keyed.covers_of_retain (h : Keyed f m) (ha : Covers f (m.retain p) a) : Covers f m a :=
  ha.imp fun _ => h.at_of_retain

theorem Keyed.retain (h : Keyed f m) (p : α → β → Bool) : Keyed f (m.retain p) :=
  ⟨h.sorted.retain p, fun k b hb => h.keyed k b (h.get?_of_retain hb)⟩

theorem Tiles.retain (h : Tiles f m) (p : α → β → Bool) : Tiles f (m.retain p) :=
  ⟨h.toKeyed.retain p, fun k k' a h₁ h₂ => h.indep k k' a (h.at_of_retain h₁) (h.at_of_retain h₂)⟩

theorem Tiles.remove (h : Tiles f m) (k : α) : Tiles f (m.remove k) := h.retain _

theorem Tiles.append (h : Tiles f m) (h' : Tiles f m')
    (hd : ∀ a, Covers f m a → ¬ Covers f m' a) : Tiles f (m.append m') where
  sorted := h.sorted.append m'
  keyed k b hb := by
    rw [get?_append h'.sorted, Option.or_eq_some_iff] at hb
    rcases hb with hb | ⟨-, hb⟩
    · exact h'.keyed k b hb
    · exact h.keyed k b hb
  indep k1 k2 a h1 h2 := by
    rcases (at_append h'.sorted).1 h1 with h1 | ⟨-, h1⟩
    · rcases (at_append h'.sorted).1 h2 with h2 | ⟨-, h2⟩
      · exact h'.indep k1 k2 a h1 h2
      · exact absurd h1.covers (hd a h2.covers)
    · rcases (at_append h'.sorted).1 h2 with h2 | ⟨-, h2⟩
      · exact absurd h2.covers (hd a h1.covers)
      · exact h.indep k1 k2 a h1 h2

theorem keyed_insertAll (hm : ∀ k b, m.get? k = some b → (f b).start = k) (bs : List β) :
    ∀ k b, (m.insertAll (bs.map fun b => ((f b).start, b))).get? k = some b → (f b).start = k := by
  induction bs generalizing m with
  | nil => exact hm
  | cons b0 bs ih => exact ih (forall_insert hm rfl)

/-- Spans inserted under their starts tile when any two that meet start together. -/
theorem tiles_insertAll {bs : List β}
    (h : ∀ b ∈ bs, ∀ b' ∈ bs, ∀ a, a ∈ f b → a ∈ f b' → (f b).start = (f b').start) :
    Tiles f (OrdMap.empty.insertAll (bs.map fun b => ((f b).start, b))) := by
  have hmem : ∀ k a, At f (OrdMap.empty.insertAll (bs.map fun b => ((f b).start, b))) k a →
      ∃ b ∈ bs, (f b).start = k ∧ a ∈ f b := by
    intro k a hk
    rcases at_of_insertAll hk with ⟨b, hb, ha⟩ | hk
    · obtain ⟨b', hb', he⟩ := mem_map.1 hb
      cases he
      exact ⟨b, hb', rfl, ha⟩
    · exact absurd hk not_at_empty
  refine ⟨⟨sorted_empty.insertAll _, ?_⟩, ?_⟩
  · exact keyed_insertAll nofun bs
  · intro k k' a hk hk'
    obtain ⟨b, hb, rfl, ha⟩ := hmem k a hk
    obtain ⟨b', hb', rfl, ha'⟩ := hmem k' a hk'
    exact h b hb b' hb' a ha ha'

/-- Entries of a tiling occupy spans that are pairwise apart. -/
theorem Tiles.pairwise_apart (h : Tiles f m) : (m.values.map f).Pairwise Span.Apart := by
  rw [pairwise_map]
  refine h.sorted.pairwise_values fun k k' b b' hb hb' hlt => Span.apart_iff.2 fun a ha ha' => ?_
  have hk : At f m k a := ⟨b, (mem_entries h.sorted).1 hb, ha⟩
  have hk' : At f m k' a := ⟨b', (mem_entries h.sorted).1 hb', ha'⟩
  exact hlt.ne (h.indep k k' a hk hk')

/-- Spans that are pairwise apart tile. -/
theorem Keyed.tiles (h : Keyed f m) (hp : (m.values.map f).Pairwise Span.Apart) : Tiles f m := by
  refine ⟨h, ?_⟩
  rintro k k' a ⟨b, hb, ha⟩ ⟨b', hb', ha'⟩
  rw [OrdMap.values, map_map, pairwise_map] at hp
  by_contra hne
  have : Std.Symm fun e e' : α × β => ((f ∘ Prod.snd) e).Apart ((f ∘ Prod.snd) e') :=
    ⟨fun _ _ hr => hr.symm⟩
  exact Span.apart_iff.1 (hp.forall (mem_of_get? hb) (mem_of_get? hb')
    fun he => hne (congrArg Prod.fst he)) a ha ha'

theorem Keyed.covers_iff (h : Keyed f m) : Covers f m a ↔ ∃ b ∈ m.values, a ∈ f b := by
  constructor
  · rintro ⟨k, b, hb, ha⟩
    exact ⟨b, mem_values_of_get? hb, ha⟩
  · rintro ⟨b, hb, ha⟩
    obtain ⟨k, hk⟩ := mem_values.1 hb
    exact ⟨k, b, (mem_entries h.sorted).1 hk, ha⟩

/-- Entries that share an element are the same. -/
theorem Tiles.eq_of_mem (h : Tiles f m) (hb : b ∈ m.values) (hb' : b' ∈ m.values)
    (ha : a ∈ f b) (ha' : a ∈ f b') : b = b' := by
  obtain ⟨k, hk⟩ := mem_values.1 hb
  obtain ⟨k', hk'⟩ := mem_values.1 hb'
  rw [mem_entries h.sorted] at hk hk'
  have hkk : k = k' := h.indep k k' a ⟨b, hk, ha⟩ ⟨b', hk', ha'⟩
  rw [hkk, hk'] at hk
  exact (Option.some.inj hk).symm

end SpanMap

end Jinux
