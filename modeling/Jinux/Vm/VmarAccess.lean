import Jinux.Vm.Vmar

/-!
# Memory access through a VMAR

The kernel reads and writes user memory through the root VMAR of a process: `read` and `write` go
down to the child VMAR that contains the whole range and then to the mapping that does.  `new_cow`
copies a tree of VMARs for a fork; every mapping of the copy gets its own copy-on-write child of the
VMO.

* `Vmar.locate` : the mapping that serves a range of addresses, and the offset in the mapping;
* `Vmar.placements` : all mappings of the tree, each with the distance from offsets in the VMAR to
  offsets in the mapping.
-/

namespace Jinux

open List

/-- `checked_add`, with the error that `write` returns. -/
def checkedAdd (a b : ℕ) : Result ℕ :=
  if a + b < usizeBound then .ok (a + b)
  else returnErrnoWithMessage .efault "Arithmetic Overflow"

namespace Vmar

/-- The loop over the mappings: the first one that contains the range serves it. -/
def locateInMappings (msg : String) :
    List (ℕ × VmMapping) → ℕ → ℕ → Result (VmMapping × ℕ)
  | [], _, _ => returnErrnoWithMessage .eacces msg
  | (k, m) :: es, start, stop =>
    if k ≤ start ∧ stop ≤ k + m.mapSize then .ok (m, start - k)
    else locateInMappings msg es start stop

mutual

/-- The search of `read` and `write`: they differ in how they add addresses and in the message. -/
def locate (add : ℕ → ℕ → Result ℕ) (msg : String) : Vmar → ℕ → ℕ → Result (VmMapping × ℕ)
  | ⟨base, _, _, ⟨children⟩, ⟨mappings⟩, _⟩, offset, len => do
    let start ← add base offset
    let stop ← add len start
    match locateInChild add msg children start stop len with
    | some r => r
    | none => locateInMappings msg mappings start stop

/-- The loop over the children: the first one that contains the range decides. -/
def locateInChild (add : ℕ → ℕ → Result ℕ) (msg : String) :
    List (ℕ × Vmar) → ℕ → ℕ → ℕ → Option (Result (VmMapping × ℕ))
  | [], _, _, _ => none
  | (k, c) :: cs, start, stop, len =>
    if k ≤ start ∧ stop ≤ k + c.size then some (locate add msg c (start - k) len)
    else locateInChild add msg cs start stop len

end

/-- Where `read` reads from. -/
def readTarget (v : Vmar) (offset len : ℕ) : Result (VmMapping × ℕ) :=
  v.locate addUsize "read range is not backed up by a vmo" offset len

/-- Where `write` writes to. -/
def writeTarget (v : Vmar) (offset len : ℕ) : Result (VmMapping × ℕ) :=
  v.locate checkedAdd "write range is not backed up by a vmo" offset len

/-- `read` -/
def read (v : Vmar) (offset len : ℕ) : VmoM (List UInt8) := do
  let (m, mappingOffset) ← liftR (v.readTarget offset len)
  m.readBytes mappingOffset len

/-- `write` -/
def write (v : Vmar) (offset : ℕ) (buf : List UInt8) : VmoM Unit := do
  let (m, mappingOffset) ← liftR (v.writeTarget offset buf.length)
  m.writeBytes mappingOffset buf

/-- The loop of `new_cow` over the mappings. -/
def newCowMappings : List (ℕ × VmMapping) → VmoM (List (ℕ × VmMapping))
  | [] => return []
  | (k, m) :: es => do
    let m ← m.newCow
    let es ← newCowMappings es
    return (k, m) :: es

mutual

/-- `new_cow`: the entries are inserted in the order of their keys. -/
def newCow : Vmar → VmoM Vmar
  | ⟨base, size, _, ⟨children⟩, ⟨mappings⟩, regions⟩ => do
    let children ← newCowChildren children
    let mappings ← newCowMappings mappings
    return ⟨base, size, false, ⟨children⟩, ⟨mappings⟩, regions⟩

/-- The loop of `new_cow` over the children. -/
def newCowChildren : List (ℕ × Vmar) → VmoM (List (ℕ × Vmar))
  | [] => return []
  | (k, c) :: cs => do
    let c ← newCow c
    let cs ← newCowChildren cs
    return (k, c) :: cs

end

/-! ### The mappings of a tree -/

mutual

/-- The mappings of a VMAR and of its children, each with the distance from an offset in the VMAR to
the offset in the mapping. -/
def placements : Vmar → List (VmMapping × ℤ)
  | ⟨base, _, _, ⟨children⟩, ⟨mappings⟩, _⟩ =>
    placementsInChildren base children ++ mappings.map fun e => (e.2, (base : ℤ) - e.1)

/-- The placements in the children of a VMAR. -/
def placementsInChildren (base : ℕ) : List (ℕ × Vmar) → List (VmMapping × ℤ)
  | [] => []
  | (k, c) :: cs =>
    (placements c).map (fun p => (p.1, p.2 + (base : ℤ) - (k : ℤ))) ++ placementsInChildren base cs

end

/-- The VMOs that the tree maps, in the order in which `new_cow` meets them. -/
def vmoIds (v : Vmar) : List VmoId := v.placements.map fun p => p.1.vmo.id

variable {msg : String} {add : ℕ → ℕ → Result ℕ}

theorem locateInMappings_ok {start stop o : ℕ} {m : VmMapping}
    {es : List (ℕ × VmMapping)} (h : locateInMappings msg es start stop = .ok (m, o)) :
    ∃ k, (k, m) ∈ es ∧ k ≤ start ∧ o = start - k := by
  induction es with
  | nil => cases h
  | cons e es ih =>
    rw [locateInMappings] at h
    split_ifs at h with hin
    · cases h
      exact ⟨e.1, mem_cons_self, hin.1, rfl⟩
    · obtain ⟨k, hk, hle, ho⟩ := ih h
      exact ⟨k, mem_cons_of_mem _ hk, hle, ho⟩

/-- What `locate` finds in a VMAR: the two sums, and then the children or the mappings. -/
theorem locate_ok {base size offset len : ℕ} {isDestroyed : Bool} {children : List (ℕ × Vmar)}
    {mappings : List (ℕ × VmMapping)} {regions : FreeRegions} {r : VmMapping × ℕ} :
    locate add msg ⟨base, size, isDestroyed, ⟨children⟩, ⟨mappings⟩, regions⟩ offset len = .ok r ↔
      ∃ start stop, add base offset = .ok start ∧ add len start = .ok stop ∧
        (locateInChild add msg children start stop len = some (.ok r) ∨
          locateInChild add msg children start stop len = none ∧
            locateInMappings msg mappings start stop = .ok r) := by
  rw [locate, Result.bind_ok]
  refine exists_congr fun start => ?_
  rw [Result.bind_ok, ← exists_and_left]
  refine exists_congr fun stop => and_congr_right fun _ => and_congr_right fun _ => ?_
  cases locateInChild add msg children start stop len <;> simp

/-- What `locate` finds is one of the placements. -/
theorem locate_mem (hadd : ∀ {a b c}, add a b = .ok c → c = a + b) :
    ∀ (v : Vmar) {offset len o : ℕ} {m : VmMapping},
      v.locate add msg offset len = .ok (m, o) → (m, (o : ℤ) - offset) ∈ v.placements := by
  refine newCow.induct (fun v => ∀ {offset len o m}, v.locate add msg offset len = .ok (m, o) →
      (m, (o : ℤ) - offset) ∈ v.placements)
    (fun cs => ∀ {base start stop len offset o : ℕ} {m}, start = base + offset →
      locateInChild add msg cs start stop len = some (.ok (m, o)) →
      (m, (o : ℤ) - offset) ∈ placementsInChildren base cs) ?_ ?_ ?_
  · intro base size isDestroyed children mappings regions ih offset len o m h
    obtain ⟨start, stop, hstart, -, h⟩ := locate_ok.1 h
    have hstart := hadd hstart
    rw [placements, mem_append]
    refine h.imp (ih hstart) ?_
    rintro ⟨-, hm⟩
    obtain ⟨k, hk, hle, rfl⟩ := locateInMappings_ok hm
    refine mem_map.2 ⟨_, hk, Prod.ext rfl ?_⟩
    omega
  · intro base start stop len offset o m _ h
    cases h
  · intro k c cs ihc ihcs base start stop len offset o m hstart h
    rw [locateInChild] at h
    rw [placementsInChildren, mem_append]
    split_ifs at h with hin
    · have hmem := ihc (Option.some.inj h)
      refine Or.inl (mem_map.2 ⟨_, hmem, Prod.ext rfl ?_⟩)
      omega
    · exact Or.inr (ihcs hstart h)

/-- The mappings of a child are among those of its parent. -/
theorem exists_placement_of_child (base : ℕ) {cs : List (ℕ × Vmar)} {e : ℕ × Vmar} (he : e ∈ cs)
    {p : VmMapping × ℤ} (hp : p ∈ e.2.placements) :
    ∃ z, (p.1, z) ∈ placementsInChildren base cs := by
  induction cs with
  | nil => cases he
  | cons e' cs ih =>
    rcases mem_cons.1 he with rfl | he
    · exact ⟨_, mem_append_left _ (mem_map.2 ⟨p, hp, rfl⟩)⟩
    · obtain ⟨z, hz⟩ := ih he
      exact ⟨z, mem_append_right _ hz⟩

end Vmar

end Jinux
