import Jinux.Ext2.Groups
import Jinux.Lib.Lts

/-!
# The free counts of the superblock and of the groups

`alloc_block` takes a block from a group and then counts down in the superblock; `free_block` counts
up in the superblock and then gives the block back to its group.  The two counts are under different
locks, so they differ while calls are on the way.

* `FsSystem` : any number of threads in these calls, and in the same ones for inodes.  Each section
  under a lock is one step, and a thread that would panic takes no step;
* `FsPc.debt` : a thread between its two sections owes the superblock one count;
* `FsSystem.freeCounts_safe` : **the count of the superblock is never below the sum of the counts of
  the groups**, no count underflows, and the two agree whenever no call is on the way.
-/

namespace Jinux

open Function Ext2 Result

universe u

variable {n : ℕ} {r : Resource} {fs : Ext2 n} {g : Fin n}

/-- What a call returns: an allocation the number, a free nothing. -/
abbrev FsReturn := Result (Option ℕ)

/-- Where a thread is in `alloc_block`, `alloc_ino`, `free_block` or `free_inode`. -/
inductive FsPc (n : ℕ) where
  /-- In none of them; what the last call returned. -/
  | idle (returned : Option FsReturn)
  /-- At the head of the loop of an allocation, with the next group and the rounds left. -/
  | fast (r : Resource) (isDir : Bool) (g rounds : ℕ)
  /-- The group has a free entry; before its write lock is taken. -/
  | slow (r : Resource) (isDir : Bool) (g : Fin n) (rounds : ℕ)
  /-- The group gave the entry `idx`; before the lock of the superblock is taken. -/
  | decSuper (r : Resource) (g : Fin n) (idx : ℕ)
  /-- In a free, before the lock of the superblock is taken. -/
  | incSuper (r : Resource) (isDir : Bool) (g : Fin n) (idx : ℕ)
  /-- In a free, before the lock of the group is taken. -/
  | freeInGroup (r : Resource) (isDir : Bool) (g : Fin n) (idx : ℕ)

/-- The calls. -/
inductive FsCall where
  | allocBlock (g : ℕ)
  | allocIno (g : ℕ) (isDir : Bool)
  | freeBlock (bid : ℕ)
  | freeInode (ino : ℕ) (isDir : Bool)

namespace FsPc

variable {p : FsPc n}

/-- The start of an allocation. -/
def startAlloc (r : Resource) (isDir : Bool) (g : ℕ) : FsPc n :=
  if n ≤ g then .idle (some (returnErrnoWithMessage .einval "invalid block group idx"))
  else .fast r isDir g n

/-- The start of a free. -/
def startFree (fs : Ext2 n) (r : Resource) (isDir : Bool) (id : ℕ) : Result (FsPc n) :=
  match fs.locate r id with
  | .ok (g, idx) => .ok (.incSuper r isDir g idx)
  | .error (.err e) => .ok (.idle (some (.error (.err e))))
  | .error (.panic p) => .error (.panic p)

/-- The start of a call, up to its first lock. -/
def start (fs : Ext2 n) : FsCall → Result (FsPc n)
  | .allocBlock g => .ok (startAlloc .block false g)
  | .allocIno g isDir => .ok (startAlloc .inode isDir g)
  | .freeBlock bid => startFree fs .block false bid
  | .freeInode ino isDir => startFree fs .inode isDir ino

/-- The next section of a call. -/
def next (fs : Ext2 n) : FsPc n → Result (FsPc n × Ext2 n)
  | .idle returned => .ok (.idle returned, fs)
  | .fast _ _ _ 0 => .ok (.idle (some (returnErrnoWithMessage .enospc "no space on device")), fs)
  | .fast r isDir g (rounds + 1) => do
    let g ← wrap g
    if (fs.groups g).freeCount r = 0 then pure (.fast r isDir (g + 1) rounds, fs)
    else pure (.slow r isDir g rounds, fs)
  | .slow r isDir g rounds => do
    match ← fs.allocSlow r isDir g with
    | none => pure (.fast r isDir (g + 1) rounds, fs)
    | some (idx, fs) => pure (.decSuper r g idx, fs)
  | .decSuper r g idx => do
    let (id, fs) ← fs.decSuper r g idx
    pure (.idle (some (.ok (some id))), fs)
  | .incSuper r isDir g idx => do
    let fs ← fs.incSuper r
    pure (.freeInGroup r isDir g idx, fs)
  | .freeInGroup r isDir g idx => do
    let fs ← fs.freeInGroup r isDir g idx
    pure (.idle (some (.ok none)), fs)

/-- In no call. -/
def isIdle : FsPc n → Bool
  | .idle _ => true
  | _ => false

/-- By how much the count of the superblock is ahead because of a thread: it is between the two
sections of an allocation or of a free of `r`. -/
def debt (r : Resource) : FsPc n → ℕ
  | .decSuper r' _ _ | .freeInGroup r' _ _ _ => if r' = r then 1 else 0
  | _ => 0

theorem debt_of_isIdle : ∀ {p : FsPc n}, p.isIdle = true → p.debt r = 0
  | .idle _, _ => rfl

theorem debt_startAlloc (r r' : Resource) (isDir : Bool) (g : ℕ) :
    (startAlloc r isDir g : FsPc n).debt r' = 0 := by
  unfold startAlloc
  split_ifs <;> rfl

theorem debt_of_startFree {r' : Resource} {isDir : Bool} {id : ℕ}
    (h : startFree fs r isDir id = .ok p) : p.debt r' = 0 := by
  unfold startFree at h
  split at h <;> cases h <;> rfl

theorem debt_of_start {c : FsCall} (h : start fs c = .ok p) : p.debt r = 0 := by
  cases c with
  | allocBlock g | allocIno g isDir =>
    cases h
    exact debt_startAlloc _ _ _ _
  | freeBlock bid | freeInode ino isDir => exact debt_of_startFree h

end FsPc

namespace Ext2

/-- The sum of the counts of the groups. -/
def groupFree (fs : Ext2 n) (r : Resource) : ℕ := total (fun m => m.freeCount r) fs.groups

/-- The counts of every group are those of its bitmaps. -/
def Counted (fs : Ext2 n) : Prop := ∀ g, (fs.groups g).Counted

/-- The counts of an image: each group counts the zero bits of its bitmaps, and the superblock the
sum of the counts of the groups. -/
structure Consistent (fs : Ext2 n) : Prop where
  counted : fs.Counted
  superBlock : ∀ r, fs.superBlock r = fs.groupFree r

variable {m : GroupMetadata}

theorem Counted.update (h : fs.Counted) (hm : m.Counted) :
    ({ fs with groups := update fs.groups g m }).Counted := by
  intro g'
  rcases eq_or_ne g' g with rfl | hne
  · show (update fs.groups g' m g').Counted
    rwa [Function.update_self]
  · show (Function.update fs.groups g m g').Counted
    rw [Function.update_of_ne hne]
    exact h g'

theorem groupFree_update (fs : Ext2 n) (g : Fin n) (m : GroupMetadata) (r : Resource) :
    ({ fs with groups := update fs.groups g m }).groupFree r + (fs.groups g).freeCount r =
      fs.groupFree r + m.freeCount r := total_update _ _ _ _

end Ext2

namespace FsPc

/-- A step from `fs` and `p` to `fs'` and `p'` keeps the books: what the superblock has more than
the groups and the thread is owed stays the same. -/
def Balanced (fs : Ext2 n) (p : FsPc n) (fs' : Ext2 n) (p' : FsPc n) : Prop :=
  ∀ r, fs'.superBlock r + (fs.groupFree r + p.debt r) =
    fs.superBlock r + (fs'.groupFree r + p'.debt r)

variable {fs' : Ext2 n} {isDir : Bool} {idx id : ℕ}

theorem balanced_of_debt_eq {p p' : FsPc n} (h : ∀ r, p.debt r = p'.debt r) :
    Balanced fs p fs p' := fun r => by rw [h r]

theorem balanced_allocSlow {rounds : ℕ} (h : fs.allocSlow r isDir g = .ok (some (idx, fs'))) :
    Balanced fs (.slow r isDir g rounds) fs' (.decSuper r g idx) := by
  intro r'
  obtain ⟨m, hm, rfl⟩ := allocSlow_ok h
  obtain ⟨-, hpos, -, hcount, -⟩ := GroupMetadata.alloc_ok hm
  have hsum := fs.groupFree_update g m r'
  rw [hcount] at hsum
  rcases eq_or_ne r' r with rfl | hne
  · rw [update_self] at hsum
    simp only [debt, if_true]
    omega
  · rw [update_of_ne hne] at hsum
    simp only [debt, if_neg hne.symm]
    omega

theorem balanced_decSuper (h : fs.decSuper r g idx = .ok (id, fs')) (ret : Option FsReturn) :
    Balanced fs (.decSuper r g idx) fs' (.idle ret) := by
  intro r'
  obtain ⟨-, hpos, rfl⟩ := decSuper_ok h
  show update fs.superBlock r _ r' + (fs.groupFree r' + _) = _ + (fs.groupFree r' + 0)
  rcases eq_or_ne r' r with rfl | hne
  · rw [update_self]
    simp only [debt, if_true]
    omega
  · rw [update_of_ne hne]
    simp [debt, if_neg hne.symm]

theorem balanced_incSuper (h : fs.incSuper r = .ok fs') :
    Balanced fs (.incSuper r isDir g idx) fs' (.freeInGroup r isDir g idx) := by
  intro r'
  rw [incSuper_ok h]
  show update fs.superBlock r _ r' + (fs.groupFree r' + 0) = _ + (fs.groupFree r' + _)
  rcases eq_or_ne r' r with rfl | hne
  · rw [update_self]
    simp only [debt, if_true]
    omega
  · rw [update_of_ne hne]
    simp [debt, if_neg hne.symm]

theorem balanced_freeInGroup (h : fs.freeInGroup r isDir g idx = .ok fs') (ret : Option FsReturn) :
    Balanced fs (.freeInGroup r isDir g idx) fs' (.idle ret) := by
  intro r'
  obtain ⟨m, hm, rfl⟩ := freeInGroup_ok h
  obtain ⟨-, -, hcount, -⟩ := GroupMetadata.free_ok hm
  have hsum := fs.groupFree_update g m r'
  rw [hcount] at hsum
  rcases eq_or_ne r' r with rfl | hne
  · rw [update_self] at hsum
    simp only [debt, if_true]
    omega
  · rw [update_of_ne hne] at hsum
    simp only [debt, if_neg hne.symm]
    omega

/-- Every section keeps the books, and the counts of the groups stay those of the bitmaps. -/
theorem next_ok (hc : fs.Counted) {p p' : FsPc n} (h : p.next fs = .ok (p', fs')) :
    fs'.Counted ∧ Balanced fs p fs' p' := by
  unfold next at h
  split at h
  · cases h
    exact ⟨hc, balanced_of_debt_eq fun _ => rfl⟩
  · cases h
    exact ⟨hc, balanced_of_debt_eq fun _ => rfl⟩
  · obtain ⟨g, -, h⟩ := bind_ok.1 h
    split_ifs at h
    · cases h
      exact ⟨hc, balanced_of_debt_eq fun _ => rfl⟩
    · cases h
      exact ⟨hc, balanced_of_debt_eq fun _ => rfl⟩
  · obtain ⟨_ | ⟨idx, fs1⟩, hslow, h⟩ := bind_ok.1 h
    · cases h
      exact ⟨hc, balanced_of_debt_eq fun _ => rfl⟩
    · cases h
      refine ⟨?_, balanced_allocSlow hslow⟩
      obtain ⟨m, hm, rfl⟩ := allocSlow_ok hslow
      exact hc.update ((hc _).alloc hm)
  · obtain ⟨⟨id, fs1⟩, hdec, h⟩ := bind_ok.1 h
    cases h
    refine ⟨?_, balanced_decSuper hdec _⟩
    obtain ⟨-, -, rfl⟩ := decSuper_ok hdec
    exact hc
  · obtain ⟨fs1, hinc, h⟩ := bind_ok.1 h
    cases h
    refine ⟨?_, balanced_incSuper hinc⟩
    rw [incSuper_ok hinc]
    exact hc
  · obtain ⟨fs1, hfree, h⟩ := bind_ok.1 h
    cases h
    refine ⟨?_, balanced_freeInGroup hfree _⟩
    obtain ⟨m, hm, rfl⟩ := freeInGroup_ok hfree
    exact hc.update ((hc _).free hm)

end FsPc

/-- The threads `ι` and the file system they share. -/
structure FsSystem (n : ℕ) (ι : Type u) where
  fs : Ext2 n
  pc : ι → FsPc n

/-- What a thread does next. -/
inductive FsOp where
  | call (c : FsCall)
  | go

namespace FsSystem

variable {ι : Type u} [DecidableEq ι]

/-- A step of thread `i`.  A panic stops it. -/
def step (s : FsSystem n ι) (l : ι × FsOp) : Option (FsSystem n ι) :=
  match l.2, (s.pc l.1).isIdle with
  | .call c, true =>
    match FsPc.start s.fs c with
    | .ok p => some ⟨s.fs, update s.pc l.1 p⟩
    | .error _ => none
  | .go, false =>
    match (s.pc l.1).next s.fs with
    | .ok (p, fs) => some ⟨fs, update s.pc l.1 p⟩
    | .error _ => none
  | _, _ => none

/-- Every interleaving of the sections of the threads. -/
def lts : Lts (FsSystem n ι) (ι × FsOp) := Lts.ofFun step

/-- No call is on the way. -/
def Quiet (s : FsSystem n ι) : Prop := ∀ i, (s.pc i).isIdle = true

variable [Fintype ι] {s : FsSystem n ι}

/-- The superblock counts what is free in the groups and what the threads owe it. -/
structure Inv (s : FsSystem n ι) : Prop where
  counted : s.fs.Counted
  superBlock : ∀ r, s.fs.superBlock r = s.fs.groupFree r + total (FsPc.debt r) s.pc

theorem Inv.move (h : s.Inv) {i : ι} {p : FsPc n} (hc : fs.Counted)
    (hb : FsPc.Balanced s.fs (s.pc i) fs p) : Inv ⟨fs, update s.pc i p⟩ := by
  refine ⟨hc, fun r => ?_⟩
  have hold := h.superBlock r
  have hstep := hb r
  have htotal := total_update (FsPc.debt r) s.pc i p
  show fs.superBlock r = fs.groupFree r + total (FsPc.debt r) (update s.pc i p)
  omega

theorem Inv.step {s' : FsSystem n ι} {l : ι × FsOp} (h : s.Inv) (hs : s.step l = some s') :
    s'.Inv := by
  unfold FsSystem.step at hs
  split at hs
  · next c _ hidle =>
    split at hs
    · next p hp =>
      cases hs
      refine h.move h.counted (FsPc.balanced_of_debt_eq fun r => ?_)
      rw [FsPc.debt_of_isIdle hidle, FsPc.debt_of_start hp]
    · cases hs
  · split at hs
    · next p fs hnext =>
      cases hs
      obtain ⟨hc, hb⟩ := FsPc.next_ok h.counted hnext
      exact h.move hc hb
    · cases hs
  · cases hs

theorem Inv.of_reachable {s₀ : FsSystem n ι} (h₀ : s₀.fs.Consistent) (hquiet : s₀.Quiet)
    (hr : lts.Reachable s₀ s) : s.Inv := by
  refine hr.invariant (P := Inv) ⟨h₀.counted, fun r => ?_⟩ fun s l s' h hs => h.step hs
  have hzero : total (FsPc.debt r) s₀.pc = 0 :=
    total_eq_zero.2 fun i => FsPc.debt_of_isIdle (hquiet i)
  rw [hzero, h₀.superBlock r, Nat.add_zero]

/-- One group with a free block and a free inode, and two threads. -/
def oneFree : FsSystem 1 (Fin 2) :=
  ⟨⟨fun _ => 2, fun _ => ⟨fun _ => .ofBits [true, false], fun _ => 1, 0⟩, fun _ => 1⟩,
    fun _ => .idle none⟩

/-- Thread `0` takes the free block, thread `1` frees the other one, and neither is done. -/
def allocBesideFree : List (Fin 2 × FsOp) :=
  [(0, .call (.allocBlock 0)), (0, .go), (0, .go), (1, .call (.freeBlock 0)), (1, .go)]

/-- **The free counts are safe under any interleaving.**  From a consistent image, with any number
of threads in `alloc_block`, `free_block`, `alloc_ino` and `free_inode`: the superblock never counts
less than the groups together, `dec_free_blocks` and `dec_free_inodes` never underflow, neither in
the superblock nor in a group, and superblock and groups agree whenever no call is on the way. -/
theorem freeCounts_safe {s₀ s : FsSystem n ι} (h₀ : s₀.fs.Consistent) (hquiet : s₀.Quiet)
    (hr : lts.Reachable s₀ s) (r : Resource) :
    s.fs.groupFree r ≤ s.fs.superBlock r ∧
      (∀ i g idx, s.pc i = .decSuper r g idx → ∃ c, decCount (s.fs.superBlock r) = .ok c) ∧
      (∀ g isDir, (s.fs.groups g).alloc r isDir ≠ .error (.panic .debugAssertion)) ∧
      (s.Quiet → s.fs.superBlock r = s.fs.groupFree r) := by
  have hinv := Inv.of_reachable h₀ hquiet hr
  have hsuper := hinv.superBlock r
  refine ⟨by omega, fun i g idx hi => ?_, fun g isDir => ?_, fun hq => ?_⟩
  · have hdebt := le_total (FsPc.debt r) s.pc i
    rw [hi] at hdebt
    simp only [FsPc.debt, if_true] at hdebt
    exact ⟨_, decCount_ok.2 ⟨by omega, rfl⟩⟩
  · exact (hinv.counted g).alloc_ne_debugAssertion r isDir
  · have hzero : total (FsPc.debt r) s.pc = 0 :=
      total_eq_zero.2 fun i => FsPc.debt_of_isIdle (hq i)
    omega

theorem freeCounts_safe_allocBesideFree :
    ∃ s, lts.Reachable oneFree s ∧ s.fs.groupFree .block = 0 ∧ s.fs.superBlock .block = 2 ∧
      s.fs.groupFree .block ≤ s.fs.superBlock .block := by
  obtain ⟨s, hreach, hgroup, hsuper⟩ := Lts.exists_run step oneFree allocBesideFree
    (fun s => s.fs.groupFree .block = 0 ∧ s.fs.superBlock .block = 2) (by decide +kernel)
  have hconsistent : oneFree.fs.Consistent := ⟨fun _ _ => rfl, fun _ => rfl⟩
  exact ⟨s, hreach, hgroup, hsuper, (freeCounts_safe hconsistent (fun _ => rfl) hreach .block).1⟩

end FsSystem

end Jinux
