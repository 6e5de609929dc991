import Jinux.Lib.Lts
import Jinux.Lib.Table
import Jinux.Vm.PageTable

/-!
# The page table refines a finite map

The operations on the page table of a process change a map from page addresses to frames and flags;
the tree of tables in memory stores this map.  `Rep pt T K M` says how: `T` gives for each list of
indices the table that they lead to, `K` are the entries of the kernel half of the root, and `M` is
the map.

* `Rep.walk_eq` : the walk of the four levels yields what the map has;
* `PtRun.refines_map` : **every run of `map`, `unmap` and `protect` with addresses of the user half
  updates the map**, and leaves the kernel half of the root alone;
* `PtRun.exists_alias` : an address that is no kernel address and no user address either shares
  its entry with a user address.
-/

namespace Jinux

open Function List VmSpace Result Option

namespace Paging

open PageTable

/-! ### The map -/

/-- What a page that was never mapped has. -/
def unmapped : ℕ × Flags := (0, ⟨0, Nat.zero_and allFlags⟩)

/-- The operations on a user page table. -/
inductive PtOp where
  | map (va frame : ℕ) (flags : Flags)
  | unmap (va : ℕ)
  | protect (va : ℕ) (flags : Flags)

/-- The address of an operation. -/
def PtOp.vaddr : PtOp → ℕ
  | .map va _ _ | .unmap va | .protect va _ => va

/-- What an operation does to the page table. -/
def PageTable.exec (pt : PageTable) : PtOp → Result (PageTable × Outcome)
  | .map va frame flags => pt.map va frame flags
  | .unmap va => pt.unmap va
  | .protect va flags => pt.protect va flags

/-- What an operation does to a map of page addresses. -/
def applyMap (M : ℕ → ℕ × Flags) : PtOp → (ℕ → ℕ × Flags) × Outcome
  | .map va frame flags =>
    if (M va).2.isPresent then (M, .error .invalidModification)
    else (update M va (frame, flags), .ok none)
  | .unmap va =>
    if M va = unmapped then (M, .error .invalidModification)
    else (update M va unmapped, .ok none)
  | .protect va flags =>
    if (M va).2.isPresent then
      (update M va ((M va).1, flags), .ok (some (M va).2))
    else (M, .error .invalidModification)

variable {frame n : ℕ} {pt₀ : PageTable} {p : List ℕ}

/-- `map` of a page that is not present. -/
theorem applyMap_map {M : ℕ → ℕ × Flags} {va : ℕ} {flags : Flags}
    (hp : (M va).2.isPresent = false) : applyMap M (.map va frame flags) =
      (update M va (frame, flags), .ok none) :=
  if_neg (by rw [hp]; nofun)

/-! ### Addresses of pages -/

/-- A page of the user half. -/
def UserPage (va : ℕ) : Prop := pageSize ∣ va ∧ va < 2 ^ 47

/-- The indices of an address in the first `n` levels, which lead to a table. -/
def tablePath (va n : ℕ) : List ℕ := (List.range n).map fun k => pageIndex va (4 - k)

variable {va va' : ℕ}

theorem tablePath_succ (va n : ℕ) :
    tablePath va (n + 1) = tablePath va n ++ [pageIndex va (4 - n)] := by
  rw [tablePath, range_succ, map_append]
  rfl

theorem length_tablePath (va n : ℕ) : (tablePath va n).length = n := by simp [tablePath]

theorem UserPage.pageIndex_lt (h : UserPage va) : pageIndex va 4 < 256 := by
  have hlt := h.2
  simp only [pageIndex]
  omega

/-- Two pages of the user half have no entry in common. -/
theorem UserPage.eq_of_path (h : UserPage va) (h' : UserPage va')
    (hpath : tablePath va 3 = tablePath va' 3) (hidx : pageIndex va 1 = pageIndex va' 1) :
    va = va' := by
  obtain ⟨⟨k, rfl⟩, hk⟩ := h
  obtain ⟨⟨k', rfl⟩, hk'⟩ := h'
  simp only [tablePath, range_succ, range_zero, nil_append, map_cons,
    cons_append, List.cons.injEq] at hpath
  simp only [pageIndex, pageSize] at *
  omega

variable {f g i : ℕ} {m : ℕ × Flags}

theorem entryAddr_inj {j : ℕ} (hf : IsFrame f) (hg : IsFrame g) (hi : i < 512) (hj : j < 512)
    (h : entryAddr f i = entryAddr g j) : f = g ∧ i = j := by
  obtain ⟨a, rfl⟩ := hf.aligned
  obtain ⟨b, rfl⟩ := hg.aligned
  simp only [entryAddr, pageSize] at *
  omega

/-- An entry of another table is not in the frame. -/
theorem entryAddr_outside (hf : IsFrame f) (hg : IsFrame g) (hne : f ≠ g) (hi : i < 512) :
    ¬(g ≤ entryAddr f i ∧ entryAddr f i < g + pageSize) := by
  obtain ⟨a, rfl⟩ := hf.aligned
  obtain ⟨b, rfl⟩ := hg.aligned
  simp only [entryAddr, pageSize] at *
  omega

theorem entryAddr_inside (hi : i < 512) : f ≤ entryAddr f i ∧ entryAddr f i < f + pageSize := by
  simp only [entryAddr, pageSize]
  omega

/-! ### How the tables store the map -/

/-- The page table stores the map `M`: `T` gives the table of a list of indices, and `K` the kernel
half of the root. -/
structure Rep (pt : PageTable) (T : List ℕ → Option ℕ) (K : ℕ → ℕ) (M : ℕ → ℕ × Flags) : Prop where
  root : T [] = some pt.rootPaddr
  table : ∀ p f, T p = some f → f ∈ pt.tables
  inj : ∀ p q f, T p = some f → T q = some f → p = q
  closed : ∀ p i, T (p ++ [i]) ≠ none → T p ≠ none
  /-- An entry above the last level points to a table, or is zero. -/
  inner : ∀ p f i, T p = some f → p.length < 3 → i < 512 → (p = [] → i < 256) →
    pt.mem (entryAddr f i) = (T (p ++ [i])).elim 0 (newEntry · tableFlags)
  /-- An entry of the last level has what the map has. -/
  leaf : ∀ va f, UserPage va → T (tablePath va 3) = some f →
    pt.mem (entryAddr f (pageIndex va 1)) = newEntry (M va).1 (M va).2
  absent : ∀ va, UserPage va → T (tablePath va 3) = none → M va = unmapped
  frame : ∀ va, UserPage va → IsFrame (M va).1
  kernel : ∀ i, 256 ≤ i → i < 512 → pt.mem (entryAddr pt.rootPaddr i) = K i
  nodup : (pt.tables ++ pt.supply).Nodup
  isFrame : ∀ f ∈ pt.tables ++ pt.supply, IsFrame f

variable {pt : PageTable} {T : List ℕ → Option ℕ} {K : ℕ → ℕ} {M : ℕ → ℕ × Flags} {rest : List ℕ}

theorem Rep.isFrame_table (h : Rep pt T K M) (hf : T p = some f) : IsFrame f :=
  h.isFrame f (mem_append_left _ (h.table p f hf))

/-- Every table on the way to a table exists. -/
theorem Rep.above (h : Rep pt T K M) (m k : ℕ) :
    T (tablePath va (m + k)) ≠ none → T (tablePath va m) ≠ none := by
  induction k with
  | zero => exact id
  | succ k ih =>
    intro hk
    rw [← Nat.add_assoc, tablePath_succ] at hk
    exact ih (h.closed _ _ hk)

section NewTable

/-- The page table with a new table in the frame `g`, to which the entry `i` of the table `f`
points. -/
def PageTable.withTable (pt : PageTable) (f i g : ℕ) (rest : List ℕ) : PageTable :=
  (pt.takeFrame g rest).write (entryAddr f i) (newEntry g tableFlags)

section

variable (h : Rep pt T K M) (hsupply : pt.supply = g :: rest)

include h hsupply

theorem Rep.ne_supply (hp : T p = some f) : f ≠ g := by
  rintro rfl
  have hnodup := h.nodup
  rw [hsupply] at hnodup
  exact (nodup_append.1 hnodup).2.2 f (h.table p f hp) f mem_cons_self rfl

theorem Rep.isFrame_supply : IsFrame g :=
  h.isFrame g (by simp [hsupply])

variable (hp : T p = some f) (hi : i < 512) {q : List ℕ} {f' j : ℕ}

include hp hi

/-- An entry of an old table. -/
theorem Rep.withTable_old (hq : T q = some f') (hj : j < 512) (hne : ¬(f' = f ∧ j = i)) :
    (pt.withTable f i g rest).mem (entryAddr f' j) = pt.mem (entryAddr f' j) := by
  have haddr : entryAddr f' j ≠ entryAddr f i :=
    fun heq => hne (entryAddr_inj (h.isFrame_table hq) (h.isFrame_table hp) hj hi heq)
  change update _ _ _ _ = _
  rw [update_of_ne haddr]
  exact if_neg (entryAddr_outside (h.isFrame_table hq) (h.isFrame_supply hsupply)
    (h.ne_supply hsupply hq) hj)

/-- An entry of the new table. -/
theorem Rep.withTable_new (hj : j < 512) : (pt.withTable f i g rest).mem (entryAddr g j) = 0 := by
  have haddr : entryAddr g j ≠ entryAddr f i := fun heq => h.ne_supply hsupply hp
    (entryAddr_inj (h.isFrame_supply hsupply) (h.isFrame_table hp) hj hi heq).1.symm
  change update _ _ _ _ = _
  rw [update_of_ne haddr]
  exact if_pos (entryAddr_inside hj)

/-- The entries above the last level. -/
theorem Rep.withTable_inner (hnone : T (p ++ [i]) = none)
    (hTq : update T (p ++ [i]) (some g) q = some f') (hlen : q.length < 3) (hj : j < 512)
    (hroot : q = [] → j < 256) : (pt.withTable f i g rest).mem (entryAddr f' j) =
      (update T (p ++ [i]) (some g) (q ++ [j])).elim 0 (newEntry · tableFlags) := by
  rcases Table.update_some_eq_some.1 hTq with ⟨rfl, rfl⟩ | ⟨-, hq⟩
  · -- no table is below the new one
    have hbelow : T (p ++ [i] ++ [j]) = none := by
      by_contra hne
      exact h.closed _ _ hne hnone
    rw [h.withTable_new hsupply hp hi hj, update_of_ne (by simp), hbelow]
    rfl
  · by_cases hsame : f' = f ∧ j = i
    · obtain ⟨rfl, rfl⟩ := hsame
      rw [h.inj q p f' hq hp, update_self]
      exact update_self ..
    · rw [h.withTable_old hsupply hp hi hq hj hsame, h.inner q f' j hq hlen hj hroot, update_of_ne]
      intro heq
      obtain ⟨hqp, hj'⟩ := append_inj' heq rfl
      exact hsame ⟨some.inj ((hqp ▸ hq).symm.trans hp), singleton_injective hj'⟩

/-- The entries of the last level. -/
theorem Rep.withTable_leaf (hlen : p.length < 3) (hnone : T (p ++ [i]) = none) (hva : UserPage va)
    (hq : update T (p ++ [i]) (some g) (tablePath va 3) = some f') :
    (pt.withTable f i g rest).mem (entryAddr f' (pageIndex va 1)) = newEntry (M va).1 (M va).2 := by
  rcases Table.update_some_eq_some.1 hq with ⟨heq, rfl⟩ | ⟨-, hq⟩
  · rw [h.withTable_new hsupply hp hi (pageIndex_lt va 1), h.absent va hva (heq ▸ hnone)]
    rfl
  · rw [h.withTable_old hsupply hp hi hq (pageIndex_lt va 1), h.leaf va f' hva hq]
    rintro ⟨rfl, -⟩
    have hlen' := length_tablePath va 3
    rw [h.inj _ p f' hq hp] at hlen'
    omega

/-- The tables with a new one. -/
theorem Rep.createTable (hlen : p.length < 3) (hroot : p = [] → i < 256)
    (hnone : T (p ++ [i]) = none) :
    Rep (pt.withTable f i g rest) (update T (p ++ [i]) (some g)) K M := by
  refine ⟨?_, fun q f' hq => ?_, fun q q' f' hq hq' => ?_, fun q j hq => ?_,
    fun q f' j => h.withTable_inner hsupply hp hi hnone,
    fun va f' hva => h.withTable_leaf hsupply hp hi hlen hnone hva, fun va hva hq => ?_, h.frame,
    fun j hj hj' => ?_, ?_, ?_⟩
  · rw [update_of_ne (by simp)]
    exact h.root
  · rcases Table.update_some_eq_some.1 hq with ⟨-, rfl⟩ | ⟨-, hq⟩
    · exact mem_append_right _ mem_cons_self
    · exact mem_append_left _ (h.table q f' hq)
  · rcases Table.update_some_eq_some.1 hq with ⟨rfl, rfl⟩ | ⟨-, hq⟩ <;>
      rcases Table.update_some_eq_some.1 hq' with ⟨rfl, hf'⟩ | ⟨-, hq'⟩
    · rfl
    · exact absurd rfl (h.ne_supply hsupply hq')
    · exact absurd hf' (h.ne_supply hsupply hq)
    · exact h.inj q q' f' hq hq'
  · by_cases hqp : q = p ++ [i]
    · rw [hqp, update_self]
      nofun
    · rw [update_of_ne hqp]
      by_cases hqj : q ++ [j] = p ++ [i]
      · rw [(append_inj' hqj rfl).1, hp]
        nofun
      · rw [update_of_ne hqj] at hq
        exact h.closed q j hq
  · by_cases heq : tablePath va 3 = p ++ [i]
    · rw [heq, update_self] at hq
      cases hq
    · rw [update_of_ne heq] at hq
      exact h.absent va hva hq
  · refine (h.withTable_old hsupply hp hi h.root hj' ?_).trans (h.kernel j hj hj')
    rintro ⟨hf, rfl⟩
    exact absurd (hroot (h.inj p [] f hp (hf ▸ h.root))) (by omega)
  · have hnodup := h.nodup
    rw [hsupply] at hnodup
    simpa [withTable, write, takeFrame] using hnodup
  · intro f' hf'
    refine h.isFrame f' ?_
    rw [hsupply]
    simpa [withTable, write, takeFrame] using hf'

end

end NewTable

/-- The map with another value at one page whose table exists. -/
theorem Rep.write (h : Rep pt T K M) (hva : UserPage va) (hg : T (tablePath va 3) = some g)
    (hm : IsFrame m.1) :
    Rep (pt.write (entryAddr g (pageIndex va 1)) (newEntry m.1 m.2)) T K (update M va m) := by
  have hold : ∀ q f j, T q = some f → j < 512 → ¬(q = tablePath va 3 ∧ j = pageIndex va 1) →
      (pt.write (entryAddr g (pageIndex va 1)) (newEntry m.1 m.2)).mem (entryAddr f j) =
        pt.mem (entryAddr f j) := by
    intro q f j hq hj hne
    refine update_of_ne (fun heq => hne ?_) ..
    obtain ⟨rfl, hj'⟩ := entryAddr_inj (h.isFrame_table hq) (h.isFrame_table hg) hj
      (pageIndex_lt va 1) heq
    exact ⟨h.inj q _ f hq hg, hj'⟩
  have hshort : ∀ q : List ℕ, q.length < 3 → q ≠ tablePath va 3 := by
    rintro q hq rfl
    rw [length_tablePath] at hq
    omega
  refine ⟨h.root, h.table, h.inj, h.closed, fun q f j hq hql hj hqr => ?_, fun va' f hva' hq => ?_,
    fun va' hva' hq => ?_, fun va' hva' => ?_, fun j hj hj' => ?_, h.nodup, h.isFrame⟩
  · rw [hold q f j hq hj fun hsame => hshort q hql hsame.1]
    exact h.inner q f j hq hql hj hqr
  · by_cases heq : va' = va
    · subst heq
      cases hq.symm.trans hg
      rw [update_self]
      exact update_self ..
    · rw [update_of_ne heq, hold _ f _ hq (pageIndex_lt va' 1), h.leaf va' f hva' hq]
      exact fun hsame => heq (hva'.eq_of_path hva hsame.1 hsame.2)
  · rw [update_of_ne, h.absent va' hva' hq]
    rintro rfl
    cases hg.symm.trans hq
  · by_cases heq : va' = va
    · subst heq
      rwa [update_self]
    · rw [update_of_ne heq]
      exact h.frame va' hva'
  · exact (hold [] _ j h.root hj' fun hsame => hshort [] (by decide) hsame.1).trans
      (h.kernel j hj hj')

/-! ### The walk -/

/-- The table that an entry above the last level points to. -/
theorem Rep.inner_some (h : Rep pt T K M) (hp : T p = some f) (hlen : p.length < 3)
    (hi : i < 512) (hroot : p = [] → i < 256) (hg : T (p ++ [i]) = some g) :
    (flagsOf (pt.mem (entryAddr f i))).isPresent = true ∧
      (flagsOf (pt.mem (entryAddr f i))).isHuge = false ∧ paddrOf (pt.mem (entryAddr f i)) = g := by
  have hmem := h.inner p f i hp hlen hi hroot
  rw [hg] at hmem
  rw [hmem]
  simp only [elim_some, flagsOf_newEntry, paddrOf_newEntry (h.isFrame_table hg)]
  decide

theorem Rep.inner_none (h : Rep pt T K M) (hp : T p = some f) (hlen : p.length < 3)
    (hi : i < 512) (hroot : p = [] → i < 256) (hg : T (p ++ [i]) = none) :
    (flagsOf (pt.mem (entryAddr f i))).isPresent = false := by
  rw [h.inner p f i hp hlen hi hroot, hg]
  rfl

/-- The path of a walk when `n` levels are left, and its next index. -/
theorem tablePath_next (hva : UserPage va) (hn : n < 3) :
    (tablePath va (2 - n)).length < 3 ∧ (tablePath va (2 - n) = [] → pageIndex va (n + 2) < 256) ∧
      tablePath va (3 - n) = tablePath va (2 - n) ++ [pageIndex va (n + 2)] := by
  refine ⟨by rw [length_tablePath]; omega, fun hnil => ?_, ?_⟩
  · have hlen := congrArg List.length hnil
    rw [length_tablePath, length_nil] at hlen
    obtain rfl : n = 2 := by omega
    exact hva.pageIndex_lt
  · rw [show 3 - n = 2 - n + 1 by omega, tablePath_succ, show 4 - (2 - n) = n + 2 by omega]

/-- The walk goes down to a table that exists. -/
theorem Rep.walk_down (h : Rep pt T K M) (hva : UserPage va) (create : Bool) {f' : ℕ} (hn : n < 3)
    (hf : T (tablePath va (2 - n)) = some f) (hf' : T (tablePath va (3 - n)) = some f') :
    pageWalkFrom va create (n + 1) (entryAddr f (pageIndex va (n + 2))) pt =
      pageWalkFrom va create n (entryAddr f' (pageIndex va (n + 1))) pt := by
  obtain ⟨hlen, hroot, hpath⟩ := tablePath_next hva hn
  obtain ⟨hpresent, hhuge, hpaddr⟩ :=
    h.inner_some hf hlen (pageIndex_lt va (n + 2)) hroot (hpath ▸ hf')
  rw [pageWalkFrom, if_pos hpresent]
  simp only [hhuge, hpaddr]
  rfl

/-- A walk that has nothing to create changes nothing. -/
theorem Rep.walk_table (h : Rep pt T K M) (hva : UserPage va) (create : Bool)
    (hcreate : create = true → T (tablePath va 3) ≠ none) (hn : n ≤ 3)
    (hf : T (tablePath va (3 - n)) = some f) :
    pageWalkFrom va create n (entryAddr f (pageIndex va (n + 1))) pt =
      .ok (pt, (T (tablePath va 3)).map (entryAddr · (pageIndex va 1))) := by
  induction n generalizing f with
  | zero =>
    rw [hf]
    rfl
  | succ n ih =>
    rw [show 3 - (n + 1) = 2 - n by omega] at hf
    cases hf' : T (tablePath va (3 - n)) with
    | none =>
      have hnone : T (tablePath va 3) = none := by
        by_contra hne
        refine h.above (3 - n) n ?_ hf'
        rwa [show 3 - n + n = 3 by omega]
      obtain ⟨hlen, hroot, hpath⟩ := tablePath_next hva (show n < 3 by omega)
      have hpresent := h.inner_none hf hlen (pageIndex_lt va (n + 2)) hroot (hpath ▸ hf')
      obtain rfl : create = false := by simpa using fun hc => hcreate hc hnone
      rw [pageWalkFrom, if_neg (by rw [hpresent]; nofun), hnone]
      rfl
    | some f' =>
      rw [h.walk_down hva create (by omega) hf hf']
      exact ih (by omega) hf'

/-- The walk goes on in the table that it has created. -/
theorem pageWalkFrom_create {current : ℕ} (hpresent : (flagsOf (pt.mem current)).isPresent = false)
    (hsupply : pt.supply = g :: rest) (hg : IsFrame g) : pageWalkFrom va true (n + 1) current pt =
      pageWalkFrom va true n (entryAddr g (pageIndex va (n + 1)))
        ((pt.takeFrame g rest).write current (newEntry g tableFlags)) := by
  have hmem : ((pt.takeFrame g rest).write current (newEntry g tableFlags)).mem current =
      newEntry g tableFlags := update_self ..
  rw [pageWalkFrom, if_neg (by rw [hpresent]; nofun), if_pos rfl, createTable, hsupply]
  change (if _ then _ else _) = _
  rw [hmem, flagsOf_newEntry, paddrOf_newEntry hg, if_neg (by decide)]

/-- A walk that creates the tables that are missing, unless the allocator has no frame for them. -/
theorem walk_create (hva : UserPage va) (h : Rep pt T K M) (hn : n ≤ 3)
    (hf : T (tablePath va (3 - n)) = some f) :
    (∃ pt' T' g,
      pageWalkFrom va true n (entryAddr f (pageIndex va (n + 1))) pt =
        .ok (pt', some (entryAddr g (pageIndex va 1))) ∧
      Rep pt' T' K M ∧ T' (tablePath va 3) = some g ∧ ∀ p f, T p = some f → T' p = some f) ∨
    (pageWalkFrom va true n (entryAddr f (pageIndex va (n + 1))) pt = .error (.panic .unwrap) ∧
      pt.supply.length < n) := by
  induction n generalizing f pt T with
  | zero =>
    exact .inl ⟨pt, T, f, rfl, h, hf, fun _ _ hp => hp⟩
  | succ n ih =>
    obtain ⟨hlen, hroot, hpath⟩ := tablePath_next hva (show n < 3 by omega)
    rw [show 3 - (n + 1) = 2 - n by omega] at hf
    have hi := pageIndex_lt va (n + 2)
    cases hf' : T (tablePath va (3 - n)) with
    | some f' =>
      rw [h.walk_down hva true (by omega) hf hf']
      exact (ih h (by omega) hf').imp_right fun hfail => ⟨hfail.1, by omega⟩
    | none =>
      rw [hpath] at hf'
      have hpresent := h.inner_none hf hlen hi hroot hf'
      cases hsupply : pt.supply with
      | nil =>
        rw [pageWalkFrom, if_neg (by rw [hpresent]; nofun), if_pos rfl, createTable, hsupply]
        exact .inr ⟨rfl, Nat.succ_pos n⟩
      | cons g rest =>
        have hg : IsFrame g := h.isFrame g (by simp [hsupply])
        rw [pageWalkFrom_create hpresent hsupply hg]
        rcases ih (h.createTable hsupply hf hi hlen hroot hf') (by omega)
          (show update T _ _ _ = some g by rw [hpath, update_self]) with
          ⟨pt', T', g', hrun, h', hT', hmono⟩ | ⟨hrun, hlt⟩
        · refine .inl ⟨pt', T', g', hrun, h', hT', fun p f0 hp => hmono p f0 ?_⟩
          rwa [update_of_ne]
          rintro rfl
          cases hf'.symm.trans hp
        · exact .inr ⟨hrun, Nat.succ_lt_succ hlt⟩

theorem Rep.pageWalk_found (h : Rep pt T K M) (hva : UserPage va) (create : Bool)
    (hg : T (tablePath va 3) = some g) :
    pt.pageWalk va create = .ok (pt, some (entryAddr g (pageIndex va 1))) := by
  have hwalk := h.walk_table hva create (fun _ => by rw [hg]; nofun) le_rfl h.root
  rwa [hg] at hwalk

/-- **The walk of the four levels yields what the map has.** -/
theorem Rep.walk_eq (h : Rep pt T K M) (hva : UserPage va) : pt.walk va = M va := by
  cases hg : T (tablePath va 3) with
  | some g =>
    rw [walk, h.pageWalk_found hva false hg]
    simp [h.leaf va g hva hg, flagsOf_newEntry, paddrOf_newEntry (h.frame va hva)]
  | none =>
    have hrun : pt.pageWalk va false = .ok (pt, none) := by
      have hwalk := h.walk_table hva false nofun le_rfl h.root
      rwa [hg] at hwalk
    rw [walk, hrun, h.absent va hva hg]
    rfl

/-! ### The operations -/

theorem UserPage.checkVaddr (hva : UserPage va) (pt : PageTable)
    (op : Result (PageTable × Outcome)) : pt.checkVaddr va op = op := by
  have hlt := hva.2
  refine if_neg ?_
  simp only [isKernelVaddr, beq_iff_eq]
  omega

theorem UserPage.tlbFlush (hva : UserPage va) : tlbFlush va = .ok () :=
  if_pos (.inl (Nat.div_eq_of_lt hva.2))

theorem newEntry_eq_zero (hm : IsFrame m.1) : newEntry m.1 m.2 = 0 ↔ m = unmapped := by
  constructor
  · intro h
    have hpaddr := paddrOf_newEntry hm m.2
    have hflags := flagsOf_newEntry m.1 m.2
    rw [h] at hpaddr hflags
    exact Prod.ext hpaddr.symm hflags.symm
  · rintro rfl
    rfl

theorem isUsed_newEntry (hm : IsFrame m.1) : isUsed (newEntry m.1 m.2) = true ↔ m ≠ unmapped := by
  rw [isUsed, bne_iff_ne, ne_eq, newEntry_eq_zero hm]

theorem isUsed_of_isPresent (h : m.2.isPresent = true) : isUsed (newEntry m.1 m.2) = true :=
  isUsed_of_present (by rwa [flagsOf_newEntry])

section

variable (h : Rep pt T K M) (hva : UserPage va)

include h hva

/-- `map` refuses a page that is present. -/
theorem Rep.map_present (hg : T (tablePath va 3) = some g) (hp : (M va).2.isPresent = true)
    (hrun : pt₀.pageWalk va true = .ok (pt, some (entryAddr g (pageIndex va 1)))) (frame : ℕ)
    (flags : Flags) : pt₀.map va frame flags = .ok (pt, .error .invalidModification) := by
  rw [PageTable.map, hva.checkVaddr, PageTable.doMap, hrun]
  change (if _ then _ else _) = _
  rw [h.leaf va g hva hg, flagsOf_newEntry, hp, isUsed_of_isPresent hp]
  rfl

/-- What `map` does once the last entry is found. -/
theorem Rep.map_found {flags : Flags} (hg : T (tablePath va 3) = some g) (hframe : IsFrame frame)
    (hrun : pt₀.pageWalk va true = .ok (pt, some (entryAddr g (pageIndex va 1)))) :
    ∃ pt', pt₀.map va frame flags = .ok (pt', (applyMap M (.map va frame flags)).2) ∧
      Rep pt' T K (applyMap M (.map va frame flags)).1 := by
  simp only [applyMap]
  by_cases hp : (M va).2.isPresent = true
  · rw [if_pos hp]
    exact ⟨pt, h.map_present hva hg hp hrun frame flags, h⟩
  · rw [if_neg hp, PageTable.map, hva.checkVaddr, PageTable.doMap, hrun]
    refine ⟨pt.write (entryAddr g (pageIndex va 1)) (newEntry frame flags), ?_,
      h.write (m := (frame, flags)) hva hg hframe⟩
    change (if _ then _ else _) = _
    rw [h.leaf va g hva hg, flagsOf_newEntry, if_neg (by simp [hp]), hva.tlbFlush]
    rfl

/-- `map` updates the map, unless the allocator has no frame for a table. -/
theorem Rep.map (flags : Flags) (hframe : IsFrame frame) :
    (∃ pt' T', pt.map va frame flags = .ok (pt', (applyMap M (.map va frame flags)).2) ∧
        Rep pt' T' K (applyMap M (.map va frame flags)).1 ∧ T' (tablePath va 3) ≠ none ∧
        ∀ p f, T p = some f → T' p = some f) ∨
      (pt.map va frame flags = .error (.panic .unwrap) ∧ pt.supply.length < 3) := by
  rcases walk_create hva h le_rfl h.root with ⟨pt1, T', g, hrun, h', hg, hmono⟩ | ⟨hrun, hlt⟩
  · obtain ⟨pt', hmap, hrep⟩ := h'.map_found hva hg hframe hrun
    exact .inl ⟨pt', T', hmap, hrep, by rw [hg]; nofun, hmono⟩
  · refine .inr ⟨?_, hlt⟩
    have hwalk : pt.pageWalk va true = .error (.panic .unwrap) := hrun
    rw [PageTable.map, hva.checkVaddr, PageTable.doMap, hwalk]
    rfl

theorem Rep.unmap (hg : T (tablePath va 3) ≠ none) :
    ∃ pt', pt.unmap va = .ok (pt', (applyMap M (.unmap va)).2) ∧
      Rep pt' T K (applyMap M (.unmap va)).1 := by
  obtain ⟨g, hg⟩ := ne_none_iff_exists'.1 hg
  have hleaf := h.leaf va g hva hg
  have hused := isUsed_newEntry (h.frame va hva)
  rw [PageTable.unmap, hva.checkVaddr, PageTable.doUnmap, h.pageWalk_found hva false hg]
  simp only [applyMap]
  by_cases hm : M va = unmapped
  · refine ⟨pt, ?_, by simpa only [if_pos hm] using h⟩
    change (if _ then _ else _) = _
    rw [hleaf, hm]
    rfl
  · refine ⟨pt.write (entryAddr g (pageIndex va 1)) 0, ?_, ?_⟩
    · rw [if_neg hm]
      change (if _ then _ else _) = _
      rw [hleaf, hused.2 hm, hva.tlbFlush]
      rfl
    · rw [if_neg hm]
      exact h.write hva hg (show IsFrame unmapped.1 by rfl)

theorem Rep.protect (flags : Flags) (hg : T (tablePath va 3) ≠ none) :
    ∃ pt', pt.protect va flags = .ok (pt', (applyMap M (.protect va flags)).2) ∧
      Rep pt' T K (applyMap M (.protect va flags)).1 := by
  obtain ⟨g, hg⟩ := ne_none_iff_exists'.1 hg
  have hleaf := h.leaf va g hva hg
  have hframe := h.frame va hva
  rw [PageTable.protect, hva.checkVaddr, PageTable.doProtect, h.pageWalk_found hva false hg]
  simp only [applyMap]
  by_cases hp : (M va).2.isPresent = true
  · refine ⟨pt.write (entryAddr g (pageIndex va 1)) (newEntry (M va).1 flags), ?_, ?_⟩
    · rw [if_pos hp]
      change (if _ then _ else _) = _
      rw [hleaf, flagsOf_newEntry, paddrOf_newEntry hframe, hp, isUsed_of_isPresent hp,
        hva.tlbFlush]
      rfl
    · rw [if_pos hp]
      exact h.write (m := ((M va).1, flags)) hva hg hframe
  · refine ⟨pt, ?_, by simpa only [if_neg hp] using h⟩
    rw [if_neg hp]
    change (if _ then _ else _) = _
    rw [hleaf, flagsOf_newEntry, if_pos (by simp [hp])]
    rfl

end

/-! ### A new page table -/

/-- The state of a page table that has nothing but its root. -/
structure Fresh (pt : PageTable) (rest : List ℕ) : Prop where
  tables : pt.tables = [pt.rootPaddr]
  supply : pt.supply = rest
  zero : ∀ i < 256, pt.mem (entryAddr pt.rootPaddr i) = 0

/-- The page table of `MemorySet::new`, with entries in the kernel half of the root. -/
theorem fresh_of_memorySet {mem : ℕ → ℕ} {supply : List ℕ} {mapped : List (ℕ × ℕ)}
    (hkernel : ∀ e ∈ mapped, 256 ≤ e.1) (hnew : ofMemorySet mem supply mapped = .ok pt) :
    ∃ rest, supply = pt.rootPaddr :: rest ∧ Fresh pt rest := by
  obtain ⟨pt₀, h0, hfold⟩ := bind_ok.1 hnew
  cases supply with
  | nil => cases h0
  | cons frame rest =>
    have hstart : (∀ e ∈ mapped, 256 ≤ e.1) ∧ frame :: rest = pt₀.rootPaddr :: rest ∧
        Fresh pt₀ rest := by
      cases h0
      refine ⟨hkernel, rfl, rfl, rfl, fun i hi => if_pos (entryAddr_inside (by omega))⟩
    refine ⟨rest, (foldlM_invariant (P := fun es pt => (∀ e ∈ es, 256 ≤ e.1) ∧
      frame :: rest = pt.rootPaddr :: rest ∧ Fresh pt rest) ?_ hstart hfold).2⟩
    rintro ⟨index, pte⟩ es b b' ⟨hes, hroot, hb⟩ hs
    obtain ⟨_, hindex, hs⟩ := bind_ok.1 hs
    split_ifs at hs
    cases hs
    have hge : 256 ≤ index := hes _ mem_cons_self
    refine ⟨fun e he => hes e (mem_cons_of_mem _ he), hroot, hb.tables, hb.supply, fun i hi => ?_⟩
    rw [← hb.zero i hi]
    refine update_of_ne ?_ ..
    change entryAddr b.rootPaddr i ≠ entryAddr b.rootPaddr index
    simp only [entryAddr]
    omega

theorem Fresh.rep (h : Fresh pt rest) (hnodup : (pt.rootPaddr :: rest).Nodup)
    (hframe : ∀ f ∈ pt.rootPaddr :: rest, IsFrame f) :
    Rep pt (fun p => if p = [] then some pt.rootPaddr else none)
      (fun i => pt.mem (entryAddr pt.rootPaddr i)) fun _ => unmapped := by
  have hroot : ∀ {p : List ℕ} {f : ℕ}, (if p = [] then some pt.rootPaddr else none) = some f →
      p = [] ∧ pt.rootPaddr = f := by
    intro p f hf
    obtain ⟨hp, hf⟩ := ite_none_right_eq_some.1 hf
    exact ⟨hp, some.inj hf⟩
  have hlist : pt.tables ++ pt.supply = pt.rootPaddr :: rest := by
    rw [h.tables, h.supply]
    rfl
  refine ⟨rfl, fun p f hf => ?_, fun p q f hp hq => ?_, fun p i hp => ?_,
    fun p f i hf _ _ hi => ?_, fun va f _ hf => ?_, fun _ _ _ => rfl, fun _ _ => rfl,
    fun _ _ _ => rfl, hlist ▸ hnodup, hlist ▸ hframe⟩
  · rw [h.tables, ← (hroot hf).2]
    exact mem_cons_self
  · rw [(hroot hp).1, (hroot hq).1]
  · simp at hp
  · obtain ⟨rfl, rfl⟩ := hroot hf
    exact h.zero i (hi rfl)
  · have hlen := length_tablePath va 3
    rw [(hroot hf).1] at hlen
    cases hlen

/-! ### Runs -/

/-- A page table, the map, and the addresses that have been mapped before. -/
structure PtRun where
  pt : PageTable
  map : ℕ → ℕ × Flags
  seen : List ℕ

namespace PtRun

/-- An address that is page-aligned and is no kernel address. -/
def NotKernel (va : ℕ) : Prop :=
  pageSize ∣ va ∧ va < usizeBound ∧ isKernelVaddr va = false

/-- The calls that the callers make: `unmap` and `protect` are for addresses that were mapped. -/
def InDomain (s : PtRun) : PtOp → Prop
  | .map va frame flags => NotKernel va ∧ IsFrame frame ∧ flags.isPresent = true
  | .unmap va => NotKernel va ∧ va ∈ s.seen
  | .protect va _ => NotKernel va ∧ va ∈ s.seen

/-- The addresses that have been mapped. -/
def nextSeen (seen : List ℕ) : PtOp → List ℕ
  | .map va _ _ => va :: seen
  | _ => seen

/-- All runs. -/
def lts : Lts PtRun PtOp where
  step s op s' := s.InDomain op ∧ (∃ r, s.pt.exec op = .ok (s'.pt, r)) ∧
    s'.map = (applyMap s.map op).1 ∧ s'.seen = nextSeen s.seen op

/-- Nothing is mapped. -/
def start (pt : PageTable) : PtRun := ⟨pt, fun _ => unmapped, []⟩

/-- The address is in the user half (`is_user_vaddr`). -/
def IsUser (_ : PtRun) (op : PtOp) : Prop := op.vaddr < 2 ^ 47

/-- What holds in every state. -/
def Inv (root : ℕ) (K : ℕ → ℕ) (s : PtRun) : Prop :=
  ∃ T, Rep s.pt T K s.map ∧ T [] = some root ∧ ∀ va ∈ s.seen, T (tablePath va 3) ≠ none

variable {root : ℕ} {s s' : PtRun} {op : PtOp}

/-- An operation does to the page table what it does to the map, unless the allocator has no frame
for a table. -/
theorem Inv.exec (h : Inv root K s) (hop : s.InDomain op) (huser : IsUser s op) :
    (∃ pt', s.pt.exec op = .ok (pt', (applyMap s.map op).2) ∧
        Inv root K ⟨pt', (applyMap s.map op).1, nextSeen s.seen op⟩) ∨
      (s.pt.exec op = .error (.panic .unwrap) ∧ s.pt.supply.length < 3) := by
  obtain ⟨T, hrep, hroot, hseen⟩ := h
  cases op with
  | map va frame flags =>
    obtain ⟨⟨hva, -⟩, hframe, -⟩ := hop
    refine (hrep.map ⟨hva, huser⟩ flags hframe).imp_left ?_
    rintro ⟨pt', T', hrun, hrep', hg, hmono⟩
    refine ⟨pt', hrun, T', hrep', hmono _ _ hroot, fun va' hva' => ?_⟩
    rcases mem_cons.1 hva' with rfl | hva'
    · exact hg
    · obtain ⟨f, hf⟩ := ne_none_iff_exists'.1 (hseen va' hva')
      rw [hmono _ f hf]
      nofun
  | unmap va =>
    obtain ⟨⟨hva, -⟩, hmem⟩ := hop
    obtain ⟨pt', hrun, hrep'⟩ := hrep.unmap ⟨hva, huser⟩ (hseen va hmem)
    exact .inl ⟨pt', hrun, T, hrep', hroot, hseen⟩
  | protect va flags =>
    obtain ⟨⟨hva, -⟩, hmem⟩ := hop
    obtain ⟨pt', hrun, hrep'⟩ := hrep.protect ⟨hva, huser⟩ flags (hseen va hmem)
    exact .inl ⟨pt', hrun, T, hrep', hroot, hseen⟩

theorem Inv.step (h : Inv root K s) (huser : IsUser s op) (hs : lts.step s op s') :
    Inv root K s' := by
  obtain ⟨hop, ⟨r, hrun⟩, hmap, hseen⟩ := hs
  rcases h.exec hop huser with ⟨pt', hrun', h'⟩ | ⟨hfail, -⟩
  · obtain ⟨hpt, -⟩ := Prod.mk.inj (Except.ok.inj (hrun.symm.trans hrun'))
    obtain ⟨pt1, map1, seen1⟩ := s'
    cases hmap
    cases hseen
    cases hpt
    exact h'
  · cases hrun.symm.trans hfail

/-- **The page table refines the map** in every run with addresses of the user half: the walk yields
what the map has, operations return what they return on the map, mapping a page that is present
changes nothing, and the kernel half of the root stays as it was. -/
theorem refines_map {mem : ℕ → ℕ} {supply : List ℕ} {mapped : List (ℕ × ℕ)} {pt₀ : PageTable}
    (hnodup : supply.Nodup) (hframe : ∀ f ∈ supply, IsFrame f) (hkernel : ∀ e ∈ mapped, 256 ≤ e.1)
    (hnew : ofMemorySet mem supply mapped = .ok pt₀)
    (hr : (lts.restrict IsUser).Reachable (start pt₀) s) :
    (∀ va, UserPage va → s.pt.walk va = s.map va) ∧
      (∀ op, s.InDomain op → IsUser s op →
        (∃ pt', s.pt.exec op = .ok (pt', (applyMap s.map op).2)) ∨ s.pt.supply.length < 3) ∧
      (∀ va frame flags, UserPage va → (s.map va).2.isPresent = true →
        s.pt.map va frame flags = .ok (s.pt, .error .invalidModification)) ∧
      s.pt.rootPaddr = pt₀.rootPaddr ∧ ∀ i, 256 ≤ i → i < 512 →
        s.pt.mem (entryAddr s.pt.rootPaddr i) = pt₀.mem (entryAddr pt₀.rootPaddr i) := by
  obtain ⟨rest, rfl, hfresh⟩ := fresh_of_memorySet hkernel hnew
  have h0 : Inv pt₀.rootPaddr (fun i => pt₀.mem (entryAddr pt₀.rootPaddr i)) (start pt₀) :=
    ⟨_, hfresh.rep hnodup hframe, rfl, nofun⟩
  have h := hr.invariant h0 fun _ _ _ h hs => h.step hs.1 hs.2
  obtain ⟨T, hrep, hroot, -⟩ := id h
  refine ⟨fun va hva => hrep.walk_eq hva, fun op hop huser => ?_, fun va frame flags hva hp => ?_,
    mem_unique hrep.root hroot, hrep.kernel⟩
  · exact (h.exec hop huser).imp (fun ⟨pt', hrun, _⟩ => ⟨pt', hrun⟩) And.right
  · -- a page that is present has its table
    have hg : T (tablePath va 3) ≠ none := by
      intro hg
      rw [hrep.absent va hva hg] at hp
      cases hp
    obtain ⟨g, hg⟩ := ne_none_iff_exists'.1 hg
    exact hrep.map_present hva hg hp (hrep.pageWalk_found hva true hg) frame flags

/-! ### An address that is neither of the kernel nor of the user -/

/-- Seven frames. -/
def exampleSupply : List ℕ := [0x1000, 0x2000, 0x3000, 0x4000, 0x5000, 0x6000, 0x7000]

/-- One entry of the kernel. -/
def exampleMapped : List (ℕ × ℕ) := [(256, 0x9003)]

/-- Present, writable and accessible by the user. -/
def exampleFlags : Flags := ⟨7, by decide⟩

/-- Map the first page, then the page at `va`. -/
def mapTwo (va : ℕ) : Result (Outcome × ℕ × Outcome) := do
  let pt ← ofMemorySet (fun _ => 0) exampleSupply exampleMapped
  let p ← pt.map 0 0xA000 exampleFlags
  let q ← p.1.map va 0xB000 exampleFlags
  pure (p.2, p.1.supply.length, q.2)

/-- The page table after the first page is mapped. -/
theorem exists_mapped_first {r : Outcome} (h : (mapTwo va).toOption = some (.ok none, n, r)) :
    ∃ pt₀ s,
      ofMemorySet (fun _ => 0) exampleSupply exampleMapped = .ok pt₀ ∧
      (lts.restrict IsUser).Reachable (start pt₀) s ∧
      s.map = update (fun _ => unmapped) 0 (0xA000, exampleFlags) ∧
      s.pt.supply.length = n ∧ ∃ pt', s.pt.map va 0xB000 exampleFlags = .ok (pt', r) := by
  have hok : mapTwo va = .ok (.ok none, n, r) := by
    cases hm : mapTwo va with
    | error e =>
      rw [hm] at h
      cases h
    | ok t =>
      rw [hm] at h
      exact congrArg Except.ok (some.inj h)
  obtain ⟨pt₀, hnew, hok⟩ := bind_ok.1 hok
  obtain ⟨⟨pt, r1⟩, hfirst, hok⟩ := bind_ok.1 hok
  obtain ⟨⟨pt', r2⟩, hsecond, hok⟩ := bind_ok.1 hok
  cases hok
  have hstep : (lts.restrict IsUser).step (start pt₀) (.map 0 0xA000 exampleFlags)
      ⟨pt, update (fun _ => unmapped) 0 (0xA000, exampleFlags), [0]⟩ := by
    refine ⟨(by decide : 0 < 2 ^ 47), ⟨⟨by decide, by decide, rfl⟩, rfl, rfl⟩, ⟨_, hfirst⟩, ?_, rfl⟩
    rw [applyMap_map (show unmapped.2.isPresent = false by decide)]
    rfl
  exact ⟨pt₀, _, hnew, (Lts.Reachable.refl _).step hstep, rfl, rfl, pt', hsecond⟩

/-- The walk to the first page, once it is mapped. -/
theorem refines_map_first : ∃ pt₀ s,
    ofMemorySet (fun _ => 0) exampleSupply exampleMapped = .ok pt₀ ∧
      (lts.restrict IsUser).Reachable (start pt₀) s ∧ s.pt.walk 0 = (0xA000, exampleFlags) := by
  have hrun : (mapTwo 0x1000).toOption = some (.ok none, 3, .ok none) := by
    decide +kernel
  obtain ⟨pt₀, s, hnew, hr, hmap, -⟩ := exists_mapped_first hrun
  have h := refines_map (by decide) (by decide) (by decide) hnew hr
  refine ⟨pt₀, s, hnew, hr, (h.1 0 ⟨by decide, by decide⟩).trans ?_⟩
  rw [hmap, update_self]

/-- **An alias**: `2 ^ 48` is no kernel address, and mapping it is refused when `0` is mapped. -/
theorem exists_alias : ∃ (pt₀ : PageTable) (s : PtRun) (op : PtOp) (pt' : PageTable),
    ofMemorySet (fun _ => 0) exampleSupply exampleMapped = .ok pt₀ ∧
      lts.Reachable (start pt₀) s ∧ s.InDomain op ∧ 3 ≤ s.pt.supply.length ∧
      s.pt.exec op = .ok (pt', .error .invalidModification) ∧ (applyMap s.map op).2 = .ok none := by
  have hrun : (mapTwo (2 ^ 48)).toOption = some (.ok none, 3, .error .invalidModification) := by
    decide +kernel
  obtain ⟨pt₀, s, hnew, hr, hmap, hlen, pt', hsecond⟩ := exists_mapped_first hrun
  refine ⟨pt₀, s, .map (2 ^ 48) 0xB000 exampleFlags, pt', hnew, hr.of_restrict,
    ⟨⟨by decide, by decide, by decide⟩, by decide, by decide⟩, hlen.ge, hsecond, ?_⟩
  have hfree : s.map (2 ^ 48) = unmapped := by
    rw [hmap]
    rfl
  rw [applyMap_map (by rw [hfree]; decide)]

end PtRun

end Paging

end Jinux
