import Mathlib.Data.Finset.Insert
import Jinux.Kernel.Result
import Jinux.Lib.Lts

/-!
# Credentials

A thread has four user ids, four group ids and a set of supplementary groups.  It is privileged if
its effective user id is that of root.

* `Ids` : four ids with the rules for changing them, which are the same for users and groups;
* `Credentials` : the ids of a thread, and the methods and system calls that change them;
* `Credentials.no_escalation` : **a thread without root among its user ids keeps to the ids it
  has**, in every sequence of calls where `set_uid` and `set_gid` ask for ids that the thread has
  and `setgroups` for the groups it is in;
* `Credentials.exists_root` : `set_uid` and `set_gid` check nothing.
-/

namespace Jinux

open Result List

/-- `ROOT_UID` -/
def rootUid : ℕ := 0

/-- The texts of the four refusals. -/
structure IdMessages where
  real : String
  effective : String
  saved : String
  fs : String

/-- Four user ids or four group ids. -/
structure Ids where
  /-- `ruid`, `rgid` -/
  real : ℕ
  /-- `euid`, `egid` -/
  effective : ℕ
  /-- `suid`, `sgid` -/
  saved : ℕ
  /-- `fsuid`, `fsgid` -/
  fs : ℕ
  deriving DecidableEq, Repr

namespace Ids

/-- `set_uid`, `set_gid` -/
def setId (ids : Ids) (privileged : Bool) (id : ℕ) : Ids :=
  if privileged then { ids with real := id, effective := id, saved := id }
  else { ids with effective := id }

/-- `check_uid_perm`, `check_gid_perm` -/
def checkPerm (ids : Ids) (privileged : Bool) (msgs : IdMessages)
    (real effective saved : Option ℕ) (realMayBeOldSaved : Bool) : Result Unit :=
  if privileged then .ok ()
  else if real.any fun id => id ≠ ids.real && id ≠ ids.effective &&
      (!realMayBeOldSaved || id ≠ ids.saved) then
    returnErrnoWithMessage .eperm msgs.real
  else if effective.any fun id => id ≠ ids.real && id ≠ ids.effective && id ≠ ids.saved then
    returnErrnoWithMessage .eperm msgs.effective
  else if saved.any fun id => id ≠ ids.real && id ≠ ids.effective && id ≠ ids.saved then
    returnErrnoWithMessage .eperm msgs.saved
  else .ok ()

/-- `set_resuid_unchecked`, `set_resgid_unchecked` -/
def setResUnchecked (ids : Ids) (real effective saved : Option ℕ) : Ids :=
  { ids with
    real := real.getD ids.real
    effective := effective.getD ids.effective
    saved := saved.getD ids.saved }

/-- `set_reuid`, `set_regid` -/
def setRe (ids : Ids) (privileged : Bool) (msgs : IdMessages) (real effective : Option ℕ) :
    Result Ids := do
  ids.checkPerm privileged msgs real effective none false
  let shouldSetSaved := real.isSome || effective.any fun id => id ≠ ids.real
  let ids := ids.setResUnchecked real effective none
  let ids := if shouldSetSaved then { ids with saved := ids.effective } else ids
  pure { ids with fs := ids.effective }

/-- `set_resuid`, `set_resgid` -/
def setRes (ids : Ids) (privileged : Bool) (msgs : IdMessages)
    (real effective saved : Option ℕ) : Result Ids := do
  ids.checkPerm privileged msgs real effective saved true
  let ids := ids.setResUnchecked real effective saved
  pure { ids with fs := ids.effective }

/-- `set_fsuid`, `set_fsgid`, with the old value -/
def setFs (ids : Ids) (privileged : Bool) (msgs : IdMessages) (fs : Option ℕ) :
    Result (ℕ × Ids) :=
  match fs with
  | none => .ok (ids.fs, ids)
  | some fs =>
    if privileged then .ok (ids.fs, { ids with fs })
    else if fs ≠ ids.real ∧ fs ≠ ids.effective ∧ fs ≠ ids.saved then
      returnErrnoWithMessage .eperm msgs.fs
    else .ok (ids.fs, { ids with fs })

/-- All four. -/
def toList (ids : Ids) : List ℕ := [ids.real, ids.effective, ids.saved, ids.fs]

end Ids

/-- `Credentials_` -/
structure Credentials where
  uids : Ids
  gids : Ids
  supplementaryGids : Finset ℕ
  deriving DecidableEq

namespace Credentials

/-- `Credentials_::new` -/
def new (uid gid : ℕ) : Credentials :=
  ⟨⟨uid, uid, uid, uid⟩, ⟨gid, gid, gid, gid⟩, {gid}⟩

/-- `is_privileged` -/
def isPrivileged (c : Credentials) : Bool := c.uids.effective = rootUid

/-- What is refused for user ids. -/
def uidMessages : IdMessages where
  real := "ruid can only be one of old ruid, old euid (and old suid)."
  effective := "euid can only be one of old ruid, old euid and old suid."
  saved := "suid can only be one of old ruid, old euid and old suid."
  fs := "fsuid can only be one of old ruid, old euid and old suid."

/-- What is refused for group ids; the last text is that for user ids. -/
def gidMessages : IdMessages where
  real := "rgid can only be one of old rgid, old egid (and old sgid)."
  effective := "egid can only be one of old rgid, old egid and old sgid."
  saved := "sgid can only be one of old rgid, old egid and old sgid."
  fs := "fsuid can only be one of old ruid, old euid and old suid."

/-- `set_uid` -/
def setUid (c : Credentials) (uid : ℕ) : Credentials :=
  { c with uids := c.uids.setId c.isPrivileged uid }

/-- `set_reuid` -/
def setReuid (c : Credentials) (ruid euid : Option ℕ) : Result Credentials := do
  let uids ← c.uids.setRe c.isPrivileged uidMessages ruid euid
  pure { c with uids }

/-- `set_resuid` -/
def setResuid (c : Credentials) (ruid euid suid : Option ℕ) : Result Credentials := do
  let uids ← c.uids.setRes c.isPrivileged uidMessages ruid euid suid
  pure { c with uids }

/-- `set_fsuid` -/
def setFsuid (c : Credentials) (fsuid : Option ℕ) : Result (ℕ × Credentials) := do
  let p ← c.uids.setFs c.isPrivileged uidMessages fsuid
  pure (p.1, { c with uids := p.2 })

/-- `set_gid` -/
def setGid (c : Credentials) (gid : ℕ) : Credentials :=
  { c with gids := c.gids.setId c.isPrivileged gid }

/-- `set_regid` -/
def setRegid (c : Credentials) (rgid egid : Option ℕ) : Result Credentials := do
  let gids ← c.gids.setRe c.isPrivileged gidMessages rgid egid
  pure { c with gids }

/-- `set_resgid` -/
def setResgid (c : Credentials) (rgid egid sgid : Option ℕ) : Result Credentials := do
  let gids ← c.gids.setRes c.isPrivileged gidMessages rgid egid sgid
  pure { c with gids }

/-- `set_fsgid` -/
def setFsgid (c : Credentials) (fsgid : Option ℕ) : Result (ℕ × Credentials) := do
  let p ← c.gids.setFs c.isPrivileged gidMessages fsgid
  pure (p.1, { c with gids := p.2 })

/-! ### The system calls -/

/-- `NGROUPS_MAX` -/
def ngroupsMax : ℕ := 65536

/-- The list of groups in the memory of the user; `read` is `read_val_from_user`. -/
def readGroups (read : ℕ → Result ℕ) (groupListAddr size : ℕ) : Result (Finset ℕ) :=
  (range size).foldlM (fun groups idx => do
    let addr ← addUsize groupListAddr (idx * 4)
    let gid ← read addr
    pure (insert gid groups)) ∅

/-- `sys_setgroups` -/
def sysSetgroups (c : Credentials) (read : ℕ → Result ℕ) (size groupListAddr : ℕ) :
    Result Credentials :=
  if ngroupsMax < size then
    returnErrnoWithMessage .einval "size cannot be greater than NGROUPS_MAX"
  else do
    let supplementaryGids ← readGroups read groupListAddr size
    pure { c with supplementaryGids }

/-- `sys_setuid` -/
def sysSetuid (c : Credentials) (uid : ℤ) : Result Credentials :=
  if uid < 0 then returnErrnoWithMessage .einval "uid cannot be negative"
  else .ok (c.setUid uid.toNat)

/-- A call. -/
inductive Call where
  | setUid (uid : ℕ)
  | setReuid (ruid euid : Option ℕ)
  | setResuid (ruid euid suid : Option ℕ)
  | setFsuid (fsuid : Option ℕ)
  | setGid (gid : ℕ)
  | setRegid (rgid egid : Option ℕ)
  | setResgid (rgid egid sgid : Option ℕ)
  | setFsgid (fsgid : Option ℕ)
  | sysSetgroups (read : ℕ → Result ℕ) (size groupListAddr : ℕ)

/-- A call and its outcome. -/
def exec (c : Credentials) : Call → Result Credentials
  | .setUid uid => .ok (c.setUid uid)
  | .setReuid ruid euid => c.setReuid ruid euid
  | .setResuid ruid euid suid => c.setResuid ruid euid suid
  | .setFsuid fsuid => do
    let p ← c.setFsuid fsuid
    pure p.2
  | .setGid gid => .ok (c.setGid gid)
  | .setRegid rgid egid => c.setRegid rgid egid
  | .setResgid rgid egid sgid => c.setResgid rgid egid sgid
  | .setFsgid fsgid => do
    let p ← c.setFsgid fsgid
    pure p.2
  | .sysSetgroups read size groupListAddr => c.sysSetgroups read size groupListAddr

/-- One call; an error leaves the credentials as they were, and a panic ends the run. -/
def step (c : Credentials) (call : Call) : Option Credentials :=
  (ignoreErr c (c.exec call)).toOption

/-- All sequences of calls. -/
def lts : Lts Credentials Call := .ofFun step

/-- The ids that the call sets without a check are those that the thread has. -/
def Modest (c : Credentials) : Call → Prop
  | .setUid uid => uid = c.uids.real ∨ uid = c.uids.effective ∨ uid = c.uids.saved
  | .setGid gid => gid = c.gids.real ∨ gid = c.gids.effective ∨ gid = c.gids.saved
  | .sysSetgroups read size groupListAddr => size ≤ ngroupsMax →
      ∀ groups, readGroups read groupListAddr size = .ok groups → groups = c.supplementaryGids
  | _ => True

end Credentials

/-! ### What a thread without privileges can do -/

namespace Ids

variable {ids ids' : Ids} {P Q : ℕ → Prop} {msgs : IdMessages} {real effective saved : Option ℕ}
  {privileged : Bool}

/-- The first three ids satisfy `P`, and the last one `Q`. -/
structure Inside (P Q : ℕ → Prop) (ids : Ids) : Prop where
  real : P ids.real
  effective : P ids.effective
  saved : P ids.saved
  fs : Q ids.fs

/-- What `check_uid_perm` lets through is one of the old ids. -/
theorem checkPerm_ok {mayBe : Bool} (hpriv : privileged = false)
    (h : ids.checkPerm privileged msgs real effective saved mayBe = .ok ()) (hP : Inside P Q ids) :
    (∀ id ∈ real, P id) ∧ (∀ id ∈ effective, P id) ∧ ∀ id ∈ saved, P id := by
  have hmem : ∀ id, id = ids.real ∨ id = ids.effective ∨ id = ids.saved → P id := by
    rintro id (rfl | rfl | rfl)
    exacts [hP.real, hP.effective, hP.saved]
  rw [checkPerm, if_neg (Bool.eq_false_iff.1 hpriv)] at h
  obtain ⟨hreal, h⟩ := ite_errno_ok.1 h
  obtain ⟨heffective, h⟩ := ite_errno_ok.1 h
  obtain ⟨hsaved, -⟩ := ite_errno_ok.1 h
  refine ⟨?_, ?_, ?_⟩
  · rintro id rfl
    refine hmem id ?_
    simp only [Option.any_some, Bool.and_eq_true, decide_eq_true_eq, Bool.or_eq_true] at hreal
    tauto
  · rintro id rfl
    refine hmem id ?_
    simp only [Option.any_some, Bool.and_eq_true, decide_eq_true_eq] at heffective
    tauto
  · rintro id rfl
    refine hmem id ?_
    simp only [Option.any_some, Bool.and_eq_true, decide_eq_true_eq] at hsaved
    tauto

theorem Inside.setResUnchecked (h : Inside P Q ids) (hreal : ∀ id ∈ real, P id)
    (heffective : ∀ id ∈ effective, P id) (hsaved : ∀ id ∈ saved, P id) :
    Inside P Q (ids.setResUnchecked real effective saved) := by
  have hgetD : ∀ {o : Option ℕ} {id : ℕ}, (∀ id ∈ o, P id) → P id → P (o.getD id) := by
    intro o id ho hid
    cases o with
    | none => exact hid
    | some id' => exact ho id' rfl
  exact ⟨hgetD hreal h.real, hgetD heffective h.effective, hgetD hsaved h.saved, h.fs⟩

section

variable (h : Inside P Q ids) (hpriv : privileged = false)

include h hpriv

theorem Inside.setRe (hPQ : ∀ id, P id → Q id)
    (hs : ids.setRe privileged msgs real effective = .ok ids') : Inside P Q ids' := by
  obtain ⟨_, hcheck, hs⟩ := bind_ok.1 hs
  obtain ⟨hreal, heffective, hsaved⟩ := checkPerm_ok hpriv hcheck h
  have h' := h.setResUnchecked hreal heffective hsaved
  cases hs
  split
  · exact ⟨h'.real, h'.effective, h'.effective, hPQ _ h'.effective⟩
  · exact ⟨h'.real, h'.effective, h'.saved, hPQ _ h'.effective⟩

theorem Inside.setRes (hPQ : ∀ id, P id → Q id)
    (hs : ids.setRes privileged msgs real effective saved = .ok ids') : Inside P Q ids' := by
  obtain ⟨_, hcheck, hs⟩ := bind_ok.1 hs
  obtain ⟨hreal, heffective, hsaved⟩ := checkPerm_ok hpriv hcheck h
  have h' := h.setResUnchecked hreal heffective hsaved
  cases hs
  exact ⟨h'.real, h'.effective, h'.saved, hPQ _ h'.effective⟩

theorem Inside.setFs {fs : Option ℕ} {old : ℕ} (hPQ : ∀ id, P id → Q id)
    (hs : ids.setFs privileged msgs fs = .ok (old, ids')) : Inside P Q ids' := by
  cases fs with
  | none =>
    cases hs
    exact h
  | some fs =>
    rw [Ids.setFs, if_neg (Bool.eq_false_iff.1 hpriv)] at hs
    obtain ⟨hone, hs⟩ := ite_errno_ok.1 hs
    cases hs
    refine ⟨h.real, h.effective, h.saved, hPQ _ ?_⟩
    by_cases hreal : fs = ids.real
    · exact hreal ▸ h.real
    · by_cases heffective : fs = ids.effective
      · exact heffective ▸ h.effective
      · have hsaved : fs = ids.saved := by tauto
        exact hsaved ▸ h.saved

theorem Inside.setId {id : ℕ} (hid : id = ids.real ∨ id = ids.effective ∨ id = ids.saved) :
    Inside P Q (ids.setId privileged id) := by
  rw [Ids.setId, if_neg (Bool.eq_false_iff.1 hpriv)]
  refine ⟨h.real, ?_, h.saved, h.fs⟩
  rcases hid with rfl | rfl | rfl
  exacts [h.real, h.effective, h.saved]

end

/-- The old ids, and what the last one may be. -/
theorem inside_self (ids : Ids) :
    Inside (fun id => id ∈ [ids.real, ids.effective, ids.saved]) (fun id => id ∈ ids.toList)
      ids := by
  constructor <;> simp [toList]

end Ids

namespace Credentials

variable {c₀ c c' : Credentials} {call : Call}

/-- No user id that can become the effective one is that of root. -/
def Unprivileged (c : Credentials) : Prop :=
  c.uids.real ≠ rootUid ∧ c.uids.effective ≠ rootUid ∧ c.uids.saved ≠ rootUid

/-- The ids are among the first ones, and the groups are the first ones. -/
structure Inv (c₀ c : Credentials) : Prop where
  uids : c.uids.Inside (fun id => id ∈ [c₀.uids.real, c₀.uids.effective, c₀.uids.saved])
    fun id => id ∈ c₀.uids.toList
  gids : c.gids.Inside (fun id => id ∈ [c₀.gids.real, c₀.gids.effective, c₀.gids.saved])
    fun id => id ∈ c₀.gids.toList
  groups : c.supplementaryGids = c₀.supplementaryGids

theorem Inv.isPrivileged (h : Inv c₀ c) (h₀ : c₀.Unprivileged) : c.isPrivileged = false := by
  refine decide_eq_false fun hroot => ?_
  have hmem := h.uids.effective
  rw [hroot] at hmem
  simp only [mem_cons, not_mem_nil, or_false] at hmem
  rcases hmem with hmem | hmem | hmem
  exacts [h₀.1 hmem.symm, h₀.2.1 hmem.symm, h₀.2.2 hmem.symm]

/-- The first three ids are among all four. -/
theorem mem_toList (ids : Ids) (id : ℕ) (h : id ∈ [ids.real, ids.effective, ids.saved]) :
    id ∈ ids.toList := by
  simp only [Ids.toList, mem_cons] at h ⊢
  tauto

theorem Inv.exec (h : Inv c₀ c) (h₀ : c₀.Unprivileged) (hmodest : c.Modest call)
    (hs : c.exec call = .ok c') : Inv c₀ c' := by
  have hpriv := h.isPrivileged h₀
  cases call with
  | setUid uid =>
    cases hs
    exact ⟨h.uids.setId hpriv hmodest, h.gids, h.groups⟩
  | setReuid ruid euid =>
    obtain ⟨uids, huids, ⟨⟩⟩ := bind_ok.1 hs
    exact ⟨h.uids.setRe hpriv (mem_toList _) huids, h.gids, h.groups⟩
  | setResuid ruid euid suid =>
    obtain ⟨uids, huids, ⟨⟩⟩ := bind_ok.1 hs
    exact ⟨h.uids.setRes hpriv (mem_toList _) huids, h.gids, h.groups⟩
  | setFsuid fsuid =>
    obtain ⟨p, hp, ⟨⟩⟩ := bind_ok.1 hs
    obtain ⟨⟨old, uids⟩, huids, ⟨⟩⟩ := bind_ok.1 hp
    exact ⟨h.uids.setFs hpriv (mem_toList _) huids, h.gids, h.groups⟩
  | setGid gid =>
    cases hs
    exact ⟨h.uids, h.gids.setId hpriv hmodest, h.groups⟩
  | setRegid rgid egid =>
    obtain ⟨gids, hgids, ⟨⟩⟩ := bind_ok.1 hs
    exact ⟨h.uids, h.gids.setRe hpriv (mem_toList _) hgids, h.groups⟩
  | setResgid rgid egid sgid =>
    obtain ⟨gids, hgids, ⟨⟩⟩ := bind_ok.1 hs
    exact ⟨h.uids, h.gids.setRes hpriv (mem_toList _) hgids, h.groups⟩
  | setFsgid fsgid =>
    obtain ⟨p, hp, ⟨⟩⟩ := bind_ok.1 hs
    obtain ⟨⟨old, gids⟩, hgids, ⟨⟩⟩ := bind_ok.1 hp
    exact ⟨h.uids, h.gids.setFs hpriv (mem_toList _) hgids, h.groups⟩
  | sysSetgroups read size groupListAddr =>
    obtain ⟨hsize, hs⟩ := ite_errno_ok.1 hs
    obtain ⟨groups, hgroups, ⟨⟩⟩ := bind_ok.1 hs
    exact ⟨h.uids, h.gids, (hmodest (not_lt.1 hsize) groups hgroups).trans h.groups⟩

theorem Inv.step (h : Inv c₀ c) (h₀ : c₀.Unprivileged) (hmodest : c.Modest call)
    (hs : c.step call = some c') : Inv c₀ c' := by
  rcases ok_or_eq_of_ignoreErr hs with hexec | rfl
  · exact h.exec h₀ hmodest hexec
  · exact h

/-- **A thread without root among its user ids keeps to the ids and the groups it has.** -/
theorem no_escalation (h₀ : c₀.Unprivileged) (hr : (lts.restrict Modest).Reachable c₀ c) :
    (∀ id ∈ c.uids.toList, id ∈ c₀.uids.toList) ∧ (∀ id ∈ c.gids.toList, id ∈ c₀.gids.toList) ∧
      c.supplementaryGids = c₀.supplementaryGids := by
  have h : Inv c₀ c := hr.invariant
    ⟨Ids.inside_self c₀.uids, Ids.inside_self c₀.gids, rfl⟩ fun _ _ _ h hs => h.step h₀ hs.1 hs.2
  have hall : ∀ {ids0 ids : Ids},
      ids.Inside (fun id => id ∈ [ids0.real, ids0.effective, ids0.saved])
        (fun id => id ∈ ids0.toList) → ∀ id ∈ ids.toList, id ∈ ids0.toList := by
    intro ids0 ids hin id hid
    simp only [Ids.toList, mem_cons, not_mem_nil, or_false] at hid
    rcases hid with rfl | rfl | rfl | rfl
    exacts [mem_toList _ _ hin.real, mem_toList _ _ hin.effective, mem_toList _ _ hin.saved, hin.fs]
  exact ⟨hall h.uids, hall h.gids, h.groups⟩

/-- A program of user 1000 that was started with the saved id of user 1001 changes to it. -/
theorem no_escalation_saved : ∃ c₀ c : Credentials, (lts.restrict Modest).Reachable c₀ c ∧
    c₀.uids = ⟨1000, 1000, 1001, 1000⟩ ∧ c.uids = ⟨1000, 1001, 1001, 1001⟩ ∧
      ∀ id ∈ c.uids.toList, id ∈ c₀.uids.toList := by
  have hr : (lts.restrict Modest).Reachable ⟨⟨1000, 1000, 1001, 1000⟩, ⟨100, 100, 100, 100⟩, {100}⟩
      ⟨⟨1000, 1001, 1001, 1001⟩, ⟨100, 100, 100, 100⟩, {100}⟩ :=
    (Lts.Reachable.refl _).step (l := .setResuid none (some 1001) none) ⟨trivial, rfl⟩
  exact ⟨_, _, hr, rfl, rfl, (no_escalation ⟨by decide, by decide, by decide⟩ hr).1⟩

/-- User 1000 asks `setuid` for root and gets it, and so is free to set the other ids too. -/
theorem exists_root : ∃ c : Credentials, (Credentials.new 1000 1000).Unprivileged ∧
    (Credentials.new 1000 1000).sysSetuid 0 = .ok c ∧ c.isPrivileged = true ∧
    lts.Reachable (Credentials.new 1000 1000) c := by
  refine ⟨⟨⟨1000, 0, 1000, 1000⟩, ⟨1000, 1000, 1000, 1000⟩, {1000}⟩, ⟨by decide, by decide,
    by decide⟩, rfl, rfl, (Lts.Reachable.refl _).step (l := .setUid 0) rfl⟩

end Credentials

end Jinux
