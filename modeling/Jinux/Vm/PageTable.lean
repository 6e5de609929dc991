import Jinux.Vm.Space

/-!
# The page table

A page table is a tree of frames in physical memory: four levels of tables with 512 entries of eight
bytes.  An entry is a word that holds a physical address and the flags (`Paging.newEntry`,
`Paging.paddrOf`, `Paging.flagsOf`).  `PageTable.pageWalk` follows the indices of an address from
the root to the last entry, and creates the tables that are missing if it is told to.

The frame allocator is the list `supply` of the frames that it will hand out, and a frame is zeroed
when it is handed out; an empty list is the panic of the `unwrap`.  The flags are those of the
source as bits, since an entry keeps all of them; `Jinux.PageTableFlags` has those of user pages.
-/

namespace Jinux

namespace Paging

/-! ### Entries -/

/-- `PageTableFlags::PRESENT` -/
def presentFlag : ℕ := 1

/-- `PageTableFlags::WRITABLE` -/
def writableFlag : ℕ := 2

/-- `PageTableFlags::USER` -/
def userFlag : ℕ := 4

/-- `PageTableFlags::HUGE` -/
def hugeFlag : ℕ := 0x80

/-- `PageTableFlags::all` -/
def allFlags : ℕ := 0x80000000000001FF

/-- `PageTableEntry::PHYS_ADDR_MASK` -/
def physAddrMask : ℕ := 0xFFFFFFFFFF000

/-- A set of flags. -/
@[ext]
structure Flags where
  bits : ℕ
  valid : bits &&& allFlags = bits
  deriving DecidableEq

/-- `contains`, for one flag -/
def Flags.contains (f : Flags) (flag : ℕ) : Bool := f.bits &&& flag == flag

/-- `is_present` -/
def Flags.isPresent (f : Flags) : Bool := f.contains presentFlag

/-- `is_huge` -/
def Flags.isHuge (f : Flags) : Bool := f.contains hugeFlag

/-- The flags of a new table: present, accessible by the user, writable (`set_readable` does
nothing). -/
def tableFlags : Flags := ⟨presentFlag ||| userFlag ||| writableFlag, by decide⟩

/-- `PageTableEntry::new`, and what `update` writes -/
def newEntry (paddr : ℕ) (flags : Flags) : ℕ := paddr &&& physAddrMask ||| flags.bits

/-- `PageTableEntry::paddr` -/
def paddrOf (pte : ℕ) : ℕ := pte &&& physAddrMask

/-- `PageTableEntry::flags` -/
def flagsOf (pte : ℕ) : Flags := ⟨pte &&& allFlags, by rw [Nat.and_assoc, Nat.and_self]⟩

/-- `PageTableEntry::is_used` -/
def isUsed (pte : ℕ) : Bool := pte != 0

/-- The address of a frame: it is a multiple of the page size and has at most 52 bits. -/
def IsFrame (paddr : ℕ) : Prop := paddr &&& physAddrMask = paddr

instance (paddr : ℕ) : Decidable (IsFrame paddr) := inferInstanceAs (Decidable (_ = _))

theorem flags_and_mask (f : Flags) : f.bits &&& physAddrMask = 0 := by
  rw [← f.valid, Nat.and_assoc, show allFlags &&& physAddrMask = 0 by decide, Nat.and_zero]

theorem paddrOf_newEntry {paddr : ℕ} (h : IsFrame paddr) (flags : Flags) :
    paddrOf (newEntry paddr flags) = paddr := by
  rw [paddrOf, newEntry, Nat.and_or_distrib_right, flags_and_mask, Nat.or_zero, h, h]

theorem flagsOf_newEntry (paddr : ℕ) (flags : Flags) : flagsOf (newEntry paddr flags) = flags := by
  ext
  change (paddr &&& physAddrMask ||| flags.bits) &&& allFlags = flags.bits
  rw [Nat.and_or_distrib_right, Nat.and_assoc, show physAddrMask &&& allFlags = 0 by decide,
    Nat.and_zero, Nat.zero_or, flags.valid]

theorem IsFrame.aligned {paddr : ℕ} (h : IsFrame paddr) : pageSize ∣ paddr := by
  have hmod : paddr &&& (2 ^ 12 - 1) = 0 := by
    rw [← h, Nat.and_assoc, show physAddrMask &&& (2 ^ 12 - 1) = 0 by decide, Nat.and_zero]
  rw [Nat.and_two_pow_sub_one_eq_mod] at hmod
  exact Nat.dvd_of_mod_eq_zero hmod

theorem isUsed_of_present {pte : ℕ} (h : (flagsOf pte).isPresent = true) : isUsed pte = true := by
  rw [isUsed, bne_iff_ne]
  rintro rfl
  cases h

/-! ### Addresses -/

/-- `PageTableEntry::page_index` -/
def pageIndex (va level : ℕ) : ℕ := va / 2 ^ (12 + 9 * (level - 1)) % 512

theorem pageIndex_lt (va level : ℕ) : pageIndex va level < 512 := Nat.mod_lt _ (by decide)

/-- The address of an entry of a table. -/
def entryAddr (table index : ℕ) : ℕ := table + 8 * index

/-- `VirtAddr::new` in `tlb_flush` panics for an address that is not canonical. -/
def tlbFlush (va : ℕ) : Result Unit :=
  if va / 2 ^ 47 = 0 ∨ va / 2 ^ 47 = 1 ∨ va / 2 ^ 47 = 2 ^ 17 - 1 then .ok ()
  else .error (.panic .unwrap)

/-! ### The table -/

/-- `PageTableError` -/
inductive PageTableError where
  | invalidModification
  | invalidVaddr
  deriving DecidableEq

/-- What an operation returns; the flags are the old ones of `protect`. -/
abbrev Outcome := Except PageTableError (Option Flags)

/-- A page table, with the memory and the frame allocator. -/
structure PageTable where
  rootPaddr : ℕ
  /-- The frames of the tables. -/
  tables : List ℕ
  /-- The words of the physical memory, by address. -/
  mem : ℕ → ℕ
  /-- The frames that the allocator will hand out. -/
  supply : List ℕ

namespace PageTable

/-- Write an entry. -/
def write (pt : PageTable) (addr pte : ℕ) : PageTable :=
  { pt with mem := Function.update pt.mem addr pte }

/-- A frame of the supply, zeroed, becomes a table. -/
def takeFrame (pt : PageTable) (frame : ℕ) (rest : List ℕ) : PageTable where
  rootPaddr := pt.rootPaddr
  tables := pt.tables ++ [frame]
  mem := fun a => if frame ≤ a ∧ a < frame + pageSize then 0 else pt.mem a
  supply := rest

/-- Create the next table, for an entry that is not present. -/
def createTable (pt : PageTable) (current : ℕ) : Result PageTable :=
  match pt.supply with
  | [] => .error (.panic .unwrap)
  | frame :: rest => .ok ((pt.takeFrame frame rest).write current (newEntry frame tableFlags))

/-- The loop of `page_walk`: `n` levels are left below the entry at `current`. -/
def pageWalkFrom (va : ℕ) (create : Bool) : ℕ → ℕ → PageTable → Result (PageTable × Option ℕ)
  | 0, current, pt => .ok (pt, some current)
  | n + 1, current, pt =>
    let descend (pt : PageTable) : Result (PageTable × Option ℕ) :=
      let pte := pt.mem current
      if (flagsOf pte).isHuge then .ok (pt, some current)
      else pageWalkFrom va create n (entryAddr (paddrOf pte) (pageIndex va (n + 1))) pt
    if (flagsOf (pt.mem current)).isPresent then descend pt
    else if create then pt.createTable current >>= descend
    else .ok (pt, none)

/-- `page_walk`: the address of the last entry, for four levels -/
def pageWalk (pt : PageTable) (va : ℕ) (create : Bool) : Result (PageTable × Option ℕ) :=
  pageWalkFrom va create 3 (entryAddr pt.rootPaddr (pageIndex va 4)) pt

/-- `do_map` -/
def doMap (pt : PageTable) (va paddr : ℕ) (flags : Flags) : Result (PageTable × Outcome) := do
  let (pt, lastEntry) ← pt.pageWalk va true
  let addr ← unwrap lastEntry
  if isUsed (pt.mem addr) && (flagsOf (pt.mem addr)).isPresent then
    pure (pt, .error .invalidModification)
  else do
    tlbFlush va
    pure (pt.write addr (newEntry paddr flags), .ok none)

/-- `do_unmap` -/
def doUnmap (pt : PageTable) (va : ℕ) : Result (PageTable × Outcome) := do
  let (pt, lastEntry) ← pt.pageWalk va false
  let addr ← unwrap lastEntry
  if !isUsed (pt.mem addr) && !(flagsOf (pt.mem addr)).isPresent then
    pure (pt, .error .invalidModification)
  else do
    tlbFlush va
    pure (pt.write addr 0, .ok none)

/-- `do_protect` -/
def doProtect (pt : PageTable) (va : ℕ) (newFlags : Flags) : Result (PageTable × Outcome) := do
  let (pt, lastEntry) ← pt.pageWalk va false
  let addr ← unwrap lastEntry
  let oldFlags := flagsOf (pt.mem addr)
  if !isUsed (pt.mem addr) || !oldFlags.isPresent then
    pure (pt, .error .invalidModification)
  else do
    tlbFlush va
    pure (pt.write addr (newEntry (paddrOf (pt.mem addr)) newFlags), .ok (some oldFlags))

/-- `PageTable::<UserMode>::map`, `unmap` and `protect` refuse kernel addresses. -/
def checkVaddr (pt : PageTable) (va : ℕ) (op : Result (PageTable × Outcome)) :
    Result (PageTable × Outcome) :=
  if VmSpace.isKernelVaddr va then .ok (pt, .error .invalidVaddr) else op

/-- `PageTable::<UserMode>::map` -/
def map (pt : PageTable) (va paddr : ℕ) (flags : Flags) : Result (PageTable × Outcome) :=
  pt.checkVaddr va (pt.doMap va paddr flags)

/-- `PageTable::<UserMode>::unmap` -/
def unmap (pt : PageTable) (va : ℕ) : Result (PageTable × Outcome) :=
  pt.checkVaddr va (pt.doUnmap va)

/-- `PageTable::<UserMode>::protect` -/
def protect (pt : PageTable) (va : ℕ) (flags : Flags) : Result (PageTable × Outcome) :=
  pt.checkVaddr va (pt.doProtect va flags)

/-- `PageTable::<UserMode>::new` -/
def new (mem : ℕ → ℕ) : List ℕ → Result PageTable
  | [] => .error (.panic .unwrap)
  | frame :: rest => .ok (takeFrame ⟨frame, [], mem, []⟩ frame rest)

/-- `add_root_mapping` -/
def addRootMapping (pt : PageTable) (index pte : ℕ) : Result PageTable := do
  debugAssert ((index + 1) * 8 ≤ pageSize)
  if pt.rootPaddr = 0 then .error (.panic .unwrap)
  else pure (pt.write (entryAddr pt.rootPaddr index) pte)

/-- The page table of `MemorySet::new`; `mapped` is `ALL_MAPPED_PTE`. -/
def ofMemorySet (mem : ℕ → ℕ) (supply : List ℕ) (mapped : List (ℕ × ℕ)) : Result PageTable := do
  let pt ← new mem supply
  mapped.foldlM (fun pt (index, pte) => pt.addRootMapping index pte) pt

/-- The walk of the four levels: what the last entry holds, and nothing where a table is missing. -/
def walk (pt : PageTable) (va : ℕ) : ℕ × Flags :=
  match pt.pageWalk va false with
  | .ok (_, some addr) => (paddrOf (pt.mem addr), flagsOf (pt.mem addr))
  | _ => (0, ⟨0, rfl⟩)

end PageTable

end Paging

end Jinux
