import Jinux.Lib.Shared
import Jinux.Process.ProgramLoader
import Jinux.Process.Wait
import Jinux.Vm.VmarAccess

/-!
# Processes that share

A process has a handle to its root VMAR and one to its file table.  `clone` with `CLONE_VM` or
`CLONE_FILES` gives the child the handles of its parent, without them copies.  `execve` clears the
root VMAR, `do_exit_group` closes the files of the table and `reap_zombie_child` destroys the root
VMAR of the child, whoever else has a handle to them.

* `ProcSystem` : the processes with what they share, and their calls;
* `ProcSystem.exists_damage` : an `execve`, an exit and a reap that take away the mappings or the
  files of a process that shares them;
* `ProcSystem.end_leaves_others` : **the end of a process leaves the others alone**: their mappings
  if no `clone` had `CLONE_VM`, and their files if none had `CLONE_FILES`.
-/

namespace Jinux

open Function Vmar Option

/-- `CloneFlags` -/
structure CloneFlags where
  bits : BitVec 32
  deriving DecidableEq

namespace CloneFlags

def empty : CloneFlags := ⟨0⟩
def cloneVm : CloneFlags := ⟨0x00000100⟩
def cloneFiles : CloneFlags := ⟨0x00000400⟩
def cloneThread : CloneFlags := ⟨0x00010000⟩

/-- The flags `CLONE_VM`, `CLONE_FS`, `CLONE_FILES`, `CLONE_SIGHAND`, `CLONE_THREAD`,
`CLONE_SYSVSEM`, `CLONE_SETTLS`, `CLONE_PARENT_SETTID`, `CLONE_CHILD_CLEARTID` and
`CLONE_CHILD_SETTID`. -/
def supportedFlags : CloneFlags := ⟨0x013D0F00⟩

/-- `contains` -/
def contains (flags flag : CloneFlags) : Bool := flags.bits &&& flag.bits == flag.bits

/-- `check_unsupported_flags` panics on other flags. -/
def checkUnsupportedFlags (flags : CloneFlags) : Bool := supportedFlags.contains flags

end CloneFlags

/-- `FileTableEntry` -/
structure FileTableEntry where
  file : ℕ
  closeOnExec : Bool
  deriving DecidableEq

/-- `FileTable`, the slots of its table. -/
abbrev FileTable := List (Option FileTableEntry)

namespace FileTable

/-- `FileTable::insert` -/
def insert (t : FileTable) (file : ℕ) : FileTable :=
  match t.findIdx? isNone with
  | some fd => t.set fd (some ⟨file, false⟩)
  | none => t ++ [some ⟨file, false⟩]

/-- `FileTable::close_file` -/
def closeFile (t : FileTable) (fd : ℕ) : FileTable := t.set fd none

/-- `FileTable::close_all` -/
def closeAll (t : FileTable) : FileTable :=
  ((List.range t.length).filter fun fd => t[fd]?.join.isSome).foldl closeFile t

end FileTable

/-- `clear_root_vmar` -/
def AddrSpace.clearRootVmar (a : AddrSpace) : AddrSpace :=
  ⟨{ a.vmar with
      childVmars := .empty
      vmMappings := .empty
      freeRegions := newRoot.freeRegions },
    a.space.clear⟩

/-- What `execve` finds. -/
structure ExecImage where
  /-- The header is read, and the interpreter of a script is looked up. -/
  found : Result Unit
  heap : MapOptions
  /-- The header is parsed, and the dynamic linker is looked up. -/
  parsed : Result Unit
  /-- The segments of the program and of the dynamic linker, and the stack. -/
  program : List MapOptions

/-- How `load_program_to_vm` ends once the address space is cleared. -/
inductive ExecEnd where
  | loaded
  | failed
  /-- The process cannot go on, and exits. -/
  | exits
  deriving DecidableEq

namespace AddrSpace

/-- Mappings one after the other, until one fails. -/
def buildWhile : List MapOptions → AddrSpace → AddrSpace × ExecEnd
  | [], a => (a, .loaded)
  | o :: os, a =>
    match a.apply [] (.build o) with
    | .ok a => buildWhile os a
    | .error _ => (a, .exits)

/-- `ProcessVm::clear` -/
def clear (heap : MapOptions) (a : AddrSpace) : Result AddrSpace :=
  (a.clearRootVmar.apply [] (.build heap)).unwrap

/-- `load_program_to_vm` -/
def loadProgram (vdsoVmo : Vmo) (image : ExecImage) (a : AddrSpace) :
    Result (AddrSpace × ExecEnd) := do
  image.found
  let a ← a.clear image.heap
  let (_, a) ← mapVdsoToVm vdsoVmo a
  match image.parsed with
  | .ok () => pure (buildWhile image.program a)
  | .error (.err _) => pure (a, .failed)
  | .error (.panic p) => .error (.panic p)

end AddrSpace

/-- The processes. -/
structure ProcSystem where
  world : World
  vms : Shared ℕ AddrSpace
  files : Shared ℕ FileTable
  /-- The status of each process that has been created and not been reaped. -/
  status : ℕ → Option ProcessStatus
  parent : ℕ → ℕ
  nextPid : ℕ

/-- A call of a process. -/
inductive ProcStep where
  /-- `clone_child`; `settid` says whether the thread id can be written where the flags ask for
  it. -/
  | clone (p : ℕ) (flags : CloneFlags) (settid : Bool)
  /-- An operation on the address space; one that fails leaves `left`. -/
  | vm (p : ℕ) (path : List ℕ) (op : VmarOp) (left : AddrSpace)
  | openFile (p file : ℕ)
  | closeFile (p fd : ℕ)
  /-- Programs and page faults write to memory, and VMOs are created. -/
  | memory (world : World)
  /-- `execve` -/
  | exec (p : ℕ) (image : ExecImage)
  /-- `do_exit_group` -/
  | exitGroup (p : ℕ) (termStatus : TermStatus)
  /-- `reap_zombie_child`, by `p`. -/
  | reap (p child : ℕ)

/-- The process that the call is the end of, of its program or of itself. -/
def ProcStep.ends : ProcStep → Option ℕ
  | .exec p _ | .exitGroup p _ | .reap _ p => some p
  | _ => none

namespace ProcSystem

variable {s s' : ProcSystem} {l : ProcStep} {p q child : ℕ}

/-- One process, the init process. -/
def start (world : World) (vm : AddrSpace) (files : FileTable) : ProcSystem where
  world := world
  vms := ⟨fun _ => 0, fun _ => vm, 1⟩
  files := ⟨fun _ => 0, fun _ => files, 1⟩
  status p := if p = 1 then some .runnable else none
  parent _ := 0
  nextPid := 2

/-- The process runs. -/
def Running (s : ProcSystem) (p : ℕ) : Prop := s.status p = some .runnable

instance (s : ProcSystem) (p : ℕ) : Decidable (s.Running p) :=
  inferInstanceAs (Decidable (_ = _))

/-- There is such a process, perhaps a zombie. -/
def Live (s : ProcSystem) (p : ℕ) : Prop := s.status p ≠ none

/-- A new process with the given root VMARs and file tables. -/
def addChild (s : ProcSystem) (p : ℕ) (vms : Shared ℕ AddrSpace) (files : Shared ℕ FileTable) :
    ProcSystem :=
  { s with
    vms := vms
    files := files
    status := update s.status s.nextPid (some .runnable)
    parent := update s.parent s.nextPid p
    nextPid := s.nextPid + 1 }

/-- `clone_files` -/
def cloneFiles (s : ProcSystem) (p child : ℕ) (flags : CloneFlags) : Shared ℕ FileTable :=
  if flags.contains .cloneFiles then s.files.share p child
  else s.files.give child (s.files.get p)

/-- `clone_child_process`.  An error is returned before the child is in a table. -/
def cloneChildProcess (s : ProcSystem) (p : ℕ) (flags : CloneFlags) (settid : Bool) :
    Option ProcSystem :=
  let files := s.cloneFiles p s.nextPid flags
  if flags.contains .cloneVm then
    some (if settid then s.addChild p (s.vms.share p s.nextPid) files else s)
  else
    match (s.vms.get p).vmar.newCow s.world with
    | .ok vmar world =>
      some (if settid then
        { s with world := world }.addChild p (s.vms.give s.nextPid ⟨vmar, {}⟩) files
      else { s with world := world })
    | .error (.err _) world => some { s with world := world }
    | .error (.panic _) _ => none

/-- `clone_child`.  A thread is no process of its own. -/
def cloneChild (s : ProcSystem) (p : ℕ) (flags : CloneFlags) (settid : Bool) :
    Option ProcSystem :=
  if flags.checkUnsupportedFlags then
    if flags.contains .cloneThread then some s else s.cloneChildProcess p flags settid
  else none

/-- `do_exit_group` -/
def doExitGroup (s : ProcSystem) (p : ℕ) (termStatus : TermStatus) : ProcSystem :=
  { s with
    files := s.files.set p (s.files.get p).closeAll
    status := update s.status p (some (.zombie termStatus))
    -- the children move to the init process
    parent := fun c => if s.parent c = p ∧ p ≠ 1 ∧ s.status 1 ≠ none then 1 else s.parent c }

/-- `execve` -/
def execve (vdsoVmo : Vmo) (s : ProcSystem) (p : ℕ) (image : ExecImage) : Option ProcSystem :=
  match (s.vms.get p).loadProgram vdsoVmo image with
  | .ok (vm, .exits) => some ({ s with vms := s.vms.set p vm }.doExitGroup p (.exited 1))
  | .ok (vm, _) => some { s with vms := s.vms.set p vm }
  | .error (.err _) => some s
  | .error (.panic _) => none

/-- `reap_zombie_child` -/
def reapZombieChild (s : ProcSystem) (child : ℕ) : Option ProcSystem :=
  match (s.vms.get child).vmar.destroyAll (s.vms.get child).space with
  | .ok (vmar, space) =>
    some { s with
      vms := s.vms.set child ⟨vmar, space⟩
      status := update s.status child none }
  | .error _ => none

/-- The child is a zombie of `p`. -/
def IsZombieChild (s : ProcSystem) (p child : ℕ) : Prop :=
  s.parent child = p ∧ ∃ status ∈ s.status child, status.isZombie = true

instance (s : ProcSystem) (p child : ℕ) : Decidable (s.IsZombieChild p child) :=
  inferInstanceAs (Decidable (_ ∧ ∃ status ∈ s.status child, status.isZombie = true))

/-- An operation of a process on its address space. -/
def vmOp (s : ProcSystem) (p : ℕ) (path : List ℕ) (op : VmarOp) (left : AddrSpace) :
    Option ProcSystem :=
  match (s.vms.get p).apply path op with
  | .ok vm => some { s with vms := s.vms.set p vm }
  | .error (.err _) => some { s with vms := s.vms.set p left }
  | .error (.panic _) => none

/-- A call of a process that runs. -/
def step (vdsoVmo : Vmo) (s : ProcSystem) : ProcStep → Option ProcSystem
  | .clone p flags settid => if s.Running p then s.cloneChild p flags settid else none
  | .vm p path op left => if s.Running p then s.vmOp p path op left else none
  | .openFile p file =>
    if s.Running p then some { s with files := s.files.set p ((s.files.get p).insert file) }
    else none
  | .closeFile p fd =>
    if s.Running p then some { s with files := s.files.set p ((s.files.get p).closeFile fd) }
    else none
  | .memory world => some { s with world := world }
  | .exec p image => if s.Running p then s.execve vdsoVmo p image else none
  | .exitGroup p termStatus => if s.Running p then some (s.doExitGroup p termStatus) else none
  | .reap p child =>
    if s.Running p ∧ s.IsZombieChild p child then s.reapZombieChild child else none

/-- The calls of the processes, one after the other. -/
def lts (vdsoVmo : Vmo) : Lts ProcSystem ProcStep := Lts.ofFun (step vdsoVmo)

/-- No `clone` has `CLONE_VM`, but to make a thread. -/
def NoCloneVm (_ : ProcSystem) : ProcStep → Prop
  | .clone _ flags _ =>
    flags.contains .cloneVm = true → flags.contains .cloneThread = true
  | _ => True

/-- No `clone` has `CLONE_FILES`, but to make a thread. -/
def NoCloneFiles (_ : ProcSystem) : ProcStep → Prop
  | .clone _ flags _ =>
    flags.contains .cloneFiles = true → flags.contains .cloneThread = true
  | _ => True

/-! ### What a call does -/

variable {vdsoVmo : Vmo}

/-- A `clone`, with what it changes. -/
inductive Cloned (s : ProcSystem) (p : ℕ) (flags : CloneFlags) : ProcSystem → Prop
  | none (world : World) : Cloned s p flags { s with world := world }
  | child (world : World) (vms : Shared ℕ AddrSpace) (hthread : flags.contains .cloneThread = false)
      (hvms : flags.contains .cloneVm = true ∨ ∃ vm, vms = s.vms.give s.nextPid vm) :
      Cloned s p flags
        ({ s with world := world }.addChild p vms (s.cloneFiles p s.nextPid flags))

theorem cloned_of_cloneChild {flags : CloneFlags} {settid : Bool}
    (h : s.cloneChild p flags settid = some s') : Cloned s p flags s' := by
  unfold cloneChild at h
  split_ifs at h with hsupported hthread
  · cases h
    exact .none s.world
  · rw [Bool.not_eq_true] at hthread
    unfold cloneChildProcess at h
    by_cases hvm : flags.contains .cloneVm = true
    · rw [if_pos hvm] at h
      cases h
      split_ifs
      · exact .child s.world _ hthread (.inl hvm)
      · exact .none s.world
    · rw [if_neg hvm] at h
      split at h
      · next vmar world _ =>
        cases h
        split_ifs
        · exact .child world _ hthread (.inr ⟨_, rfl⟩)
        · exact .none world
      · next world _ =>
        cases h
        exact .none world
      · cases h

/-- The calls, with what they change. -/
inductive Moved (s : ProcSystem) : ProcStep → ProcSystem → Prop
  | clone {s' : ProcSystem} (p : ℕ) (flags : CloneFlags) (settid : Bool)
      (h : Cloned s p flags s') : Moved s (.clone p flags settid) s'
  | vm {l : ProcStep} (p : ℕ) (vm : AddrSpace) (hp : s.Running p) (hl : ∀ q ∈ l.ends, q = p) :
      Moved s l { s with vms := s.vms.set p vm }
  | file {l : ProcStep} (p : ℕ) (files : FileTable) (hl : l.ends = none) :
      Moved s l { s with files := s.files.set p files }
  | memory {l : ProcStep} (world : World) : Moved s l { s with world := world }
  | exit {l : ProcStep} (p : ℕ) (vm : AddrSpace) (termStatus : TermStatus) (hp : s.Running p)
      (hl : ∀ q ∈ l.ends, q = p) :
      Moved s l ({ s with vms := s.vms.set p vm }.doExitGroup p termStatus)
  | reap {l : ProcStep} (child : ℕ) (vm : AddrSpace) (hchild : s.Live child)
      (hl : ∀ q ∈ l.ends, q = child) :
      Moved s l { s with
        vms := s.vms.set child vm
        status := update s.status child none }

theorem set_get (sh : Shared ℕ AddrSpace) (p : ℕ) : sh.set p (sh.get p) = sh := by
  rw [Shared.set, Shared.get, update_eq_self]

theorem moved_execve {image : ExecImage} (hp : s.Running p)
    (h : s.execve vdsoVmo p image = some s') : Moved s (.exec p image) s' := by
  have hl : ∀ q ∈ (ProcStep.exec p image).ends, q = p := fun q hq => (some.inj hq).symm
  unfold execve at h
  split at h
  · next vm _ =>
    cases h
    exact .exit p vm _ hp hl
  · next vm _ _ _ =>
    cases h
    exact .vm p vm hp hl
  · cases h
    exact .memory s.world
  · cases h

theorem moved_of_step (h : s.step vdsoVmo l = some s') : Moved s l s' := by
  cases l <;> simp only [step] at h
  case clone p flags settid =>
    split_ifs at h
    exact .clone p flags settid (cloned_of_cloneChild h)
  case vm p path op left =>
    split_ifs at h with hp
    unfold vmOp at h
    split at h
    · next vm _ =>
      cases h
      exact .vm p vm hp nofun
    · cases h
      exact .vm p left hp nofun
    · cases h
  case openFile p file =>
    split_ifs at h
    cases h
    exact .file p _ rfl
  case closeFile p fd =>
    split_ifs at h
    cases h
    exact .file p _ rfl
  case memory world =>
    cases h
    exact .memory world
  case exec p image =>
    split_ifs at h with hp
    exact moved_execve hp h
  case exitGroup p termStatus =>
    split_ifs at h with hp
    cases h
    have hmoved := Moved.exit (l := .exitGroup p termStatus) p (s.vms.get p) termStatus hp
      fun q hq => (some.inj hq).symm
    rwa [set_get] at hmoved
  case reap p child =>
    split_ifs at h with hzombie
    unfold reapZombieChild at h
    split at h
    · next vmar space _ =>
      cases h
      refine .reap child ⟨vmar, space⟩ (fun hnone => ?_) fun q hq => (some.inj hq).symm
      obtain ⟨-, -, status, hstatus, -⟩ := hzombie
      rw [hnone] at hstatus
      cases hstatus
    · cases h

/-! ### Processes that share nothing -/

theorem Running.live (h : s.Running p) : s.Live p := by
  rw [Live, show s.status p = _ from h]
  exact nofun

theorem live_addChild {vms : Shared ℕ AddrSpace} {files : Shared ℕ FileTable}
    (h : (s.addChild p vms files).Live q) : q = s.nextPid ∨ s.Live q := by
  rcases eq_or_ne q s.nextPid with heq | hne
  · exact .inl heq
  · exact .inr (by simpa [Live, addChild, hne] using h)

/-- A change of the status of a live process makes no other process live. -/
theorem live_update {status : Option ProcessStatus} (hp : s.Live p)
    (h : update s.status p status q ≠ none) : s.Live q := by
  rcases eq_or_ne q p with rfl | hne
  · exact hp
  · rwa [update_of_ne hne] at h

/-- The root VMARs of the processes stay apart. -/
theorem Moved.apart_vms (hm : Moved s l s') (hl : NoCloneVm s l) (h : s.vms.Apart s.Live) :
    s'.vms.Apart s'.Live := by
  cases hm with
  | clone p flags settid hc =>
    cases hc with
    | none world => exact h
    | child world vms hthread hvms =>
      have hvm : ¬ flags.contains .cloneVm = true := fun hvm => by
        rw [hl hvm] at hthread
        cases hthread
      obtain ⟨vm, rfl⟩ := hvms.resolve_left hvm
      exact (h.give s.nextPid vm).mono fun q hq => live_addChild (s := { s with world := world }) hq
  | vm p vm hp => exact h.set p vm
  | file | memory => exact h
  | exit p vm termStatus hp => exact (h.set p vm).mono fun q hq => live_update hp.live hq
  | reap child vm hchild => exact (h.set child vm).mono fun q hq => live_update hchild hq

/-- The file tables of the processes stay apart. -/
theorem Moved.apart_files (hm : Moved s l s') (hl : NoCloneFiles s l) (h : s.files.Apart s.Live) :
    s'.files.Apart s'.Live := by
  cases hm with
  | clone p flags settid hc =>
    cases hc with
    | none world => exact h
    | child world vms hthread hvms =>
      have hfiles : ¬ flags.contains .cloneFiles = true := fun hfiles => by
        rw [hl hfiles] at hthread
        cases hthread
      have hcopied : s.cloneFiles p s.nextPid flags = s.files.give s.nextPid (s.files.get p) := by
        rw [cloneFiles, if_neg hfiles]
      rw [hcopied]
      exact (h.give s.nextPid _).mono fun q hq => live_addChild (s := { s with world := world }) hq
  | vm | memory => exact h
  | file p files => exact h.set p files
  | exit p vm termStatus hp => exact (h.set p _).mono fun q hq => live_update hp.live hq
  | reap child vm hchild => exact h.mono fun q hq => live_update hchild hq

/-- The end of a process is not seen by one that does not share its root VMAR. -/
theorem Moved.get_vms (hm : Moved s l s') (hl : l.ends = some p) (h : s.vms.Apart s.Live)
    (hq : s.Live q) (hne : q ≠ p) : s'.vms.get q = s.vms.get q := by
  cases hm with
  | clone => cases hl
  | vm p' vm hp hends | exit p' vm termStatus hp hends =>
    obtain rfl := hends p hl
    exact h.get_set_of_ne hp.live hq hne vm
  | file | memory => rfl
  | reap child vm hchild hends =>
    obtain rfl := hends p hl
    exact h.get_set_of_ne hchild hq hne vm

/-- The end of a process is not seen by one that does not share its file table. -/
theorem Moved.get_files (hm : Moved s l s') (hl : l.ends = some p) (h : s.files.Apart s.Live)
    (hq : s.Live q) (hne : q ≠ p) : s'.files.get q = s.files.get q := by
  cases hm with
  | clone => cases hl
  | vm | memory | reap => rfl
  | file p' files hends =>
    rw [hl] at hends
    cases hends
  | exit p' vm termStatus hp hends =>
    obtain rfl := hends p hl
    exact h.get_set_of_ne hp.live hq hne _

theorem live_start {world : World} {vm : AddrSpace} {files : FileTable}
    (h : (start world vm files).Live p) : p = 1 := by
  by_contra hne
  exact h (if_neg hne)

/-- **The end of a process leaves the others alone.**  An `execve`, an exit or a reap of `p` leaves
the root VMAR of another process that runs as it was, in every run in which no `clone` of a process
has `CLONE_VM`, and its file table in every run in which none has `CLONE_FILES`. -/
theorem end_leaves_others (world : World) (vm : AddrSpace) (files : FileTable)
    (hl : l.ends = some p) (hs : s.step vdsoVmo l = some s') (hq : s.Running q) (hne : q ≠ p) :
    (((lts vdsoVmo).restrict NoCloneVm).Reachable (start world vm files) s →
      s'.vms.get q = s.vms.get q) ∧
    (((lts vdsoVmo).restrict NoCloneFiles).Reachable (start world vm files) s →
      s'.files.get q = s.files.get q) := by
  constructor
  · intro h
    have hapart : s.vms.Apart s.Live := by
      refine h.invariant (P := fun s => s.vms.Apart s.Live) ?_ fun s l s' hi hstep =>
        (moved_of_step hstep.2).apart_vms hstep.1 hi
      exact ⟨fun _ _ => Nat.one_pos, fun p q hp hq _ => (live_start hp).trans (live_start hq).symm⟩
    exact (moved_of_step hs).get_vms hl hapart hq.live hne
  · intro h
    have hapart : s.files.Apart s.Live := by
      refine h.invariant (P := fun s => s.files.Apart s.Live) ?_ fun s l s' hi hstep =>
        (moved_of_step hstep.2).apart_files hstep.1 hi
      exact ⟨fun _ _ => Nat.one_pos, fun p q hp hq _ => (live_start hp).trans (live_start hq).symm⟩
    exact (moved_of_step hs).get_files hl hapart hq.live hne

/-! ### Runs of a parent and a child -/

/-- The VMO of the vDSO. -/
def sampleVdso : Vmo := ⟨0, .all⟩

/-- A memory with the vDSO, a heap and a segment of one page. -/
def sampleWorld : World :=
  ⟨fun _ _ => 0, 0, fun _ => false, [{ size := 5 * pageSize }, { size := 0 }, { size := pageSize }]⟩

/-- A segment at an address. -/
def sampleSegment (addr : ℕ) : MapOptions where
  vmo := ⟨2, .all⟩
  vmoSize := 0x1000
  perms := { read := true, write := true }
  size := 0x1000
  offset := some addr

/-- A program of one segment. -/
def sampleImage : ExecImage where
  found := .ok ()
  heap :=
    { vmo := ⟨1, .all⟩, vmoSize := 0, perms := { read := true, write := true }, size := 0x3e8000,
      offset := some 0x10000000 }
  parsed := .ok ()
  program := [sampleSegment 0x600000]

/-- An address space with one segment. -/
def sampleVm : AddrSpace :=
  (AddrSpace.init.apply [] (.build (sampleSegment 0x400000))).toOption.getD .init

/-- The init process has one segment and one file. -/
def sampleStart : ProcSystem := start sampleWorld sampleVm [some ⟨0, false⟩]

/-- The addresses of the mappings of a process. -/
def mapped (s : ProcSystem) (p : ℕ) : List ℕ := (s.vms.get p).vmar.vmMappings.keys

/-- The child is reaped. -/
theorem end_leaves_others_fork : ∃ s s' : ProcSystem,
    (lts sampleVdso).Reachable sampleStart s ∧ s.step sampleVdso (.reap 1 2) = some s' ∧
      s.mapped 1 = [0x400000] ∧
      s'.vms.get 1 = s.vms.get 1 ∧ s'.files.get 1 = s.files.get 1 := by
  obtain ⟨s, hs, h⟩ := bind_eq_some_iff.1 (show ((Lts.run (step sampleVdso) sampleStart
      [.clone 1 .empty true, .exitGroup 2 (.exited 0)]).bind fun s =>
        (s.step sampleVdso (.reap 1 2)).map fun _ => (s.mapped 1, s.status 1)) =
      some ([0x400000], some .runnable) by decide +kernel)
  obtain ⟨s', hs', h⟩ := map_eq_some_iff.1 h
  obtain ⟨hmapped, hrun⟩ := Prod.mk.inj h
  have hall := end_leaves_others sampleWorld sampleVm [some ⟨0, false⟩] rfl hs' hrun (by decide)
  have hvm : CloneFlags.empty.contains .cloneVm = false := by decide
  have hfiles : CloneFlags.empty.contains .cloneFiles = false := by decide
  exact ⟨s, s', Lts.reachable_run hs, hs', hmapped,
    hall.1 (Lts.reachable_run_restrict (by simp [NoCloneVm, hvm]) hs),
    hall.2 (Lts.reachable_run_restrict (by simp [NoCloneFiles, hfiles]) hs)⟩

/-- The child of a `clone` takes away mappings of its parent by an `execve`, and by being reaped,
and files by its exit. -/
theorem exists_damage :
    (∃ s s', (lts sampleVdso).Reachable sampleStart s ∧ s.Running 1 ∧
      s.step sampleVdso (.exec 2 sampleImage) = some s' ∧
      0x400000 ∈ s.mapped 1 ∧ 0x400000 ∉ s'.mapped 1) ∧
    (∃ s s', (lts sampleVdso).Reachable sampleStart s ∧ s.Running 1 ∧
      s.step sampleVdso (.exitGroup 2 (.exited 0)) = some s' ∧
      s.files.get 1 = [some ⟨0, false⟩] ∧ s'.files.get 1 = [none]) ∧
    (∃ s s', (lts sampleVdso).Reachable sampleStart s ∧ s.Running 1 ∧
      s.step sampleVdso (.reap 1 2) = some s' ∧
      0x400000 ∈ s.mapped 1 ∧ 0x400000 ∉ s'.mapped 1) := by
  refine ⟨?_, ?_, ?_⟩
  · obtain ⟨s, s', hr, hs, h⟩ := Lts.exists_run_step (step sampleVdso) sampleStart
      [.clone 1 .cloneVm true] (.exec 2 sampleImage) (fun s s' => s.status 1 = some .runnable ∧
        0x400000 ∈ s.mapped 1 ∧ 0x400000 ∉ s'.mapped 1) (by decide +kernel)
    exact ⟨s, s', hr, h.1, hs, h.2⟩
  · obtain ⟨s, s', hr, hs, h⟩ := Lts.exists_run_step (step sampleVdso) sampleStart
      [.clone 1 .cloneFiles true] (.exitGroup 2 (.exited 0)) (fun s s' =>
        s.status 1 = some .runnable ∧ s.files.get 1 = [some ⟨0, false⟩] ∧ s'.files.get 1 = [none])
      (by decide +kernel)
    exact ⟨s, s', hr, h.1, hs, h.2⟩
  · obtain ⟨s, s', hr, hs, h⟩ := Lts.exists_run_step (step sampleVdso) sampleStart
      [.clone 1 .cloneVm true, .exitGroup 2 (.exited 0)] (.reap 1 2) (fun s s' =>
        s.status 1 = some .runnable ∧ 0x400000 ∈ s.mapped 1 ∧ 0x400000 ∉ s'.mapped 1)
      (by decide +kernel)
    exact ⟨s, s', hr, h.1, hs, h.2⟩

end ProcSystem

end Jinux
