import Jinux.Kernel.Result
import Jinux.Lib.Lts

/-!
# Sessions and their controlling terminals

A session has at most one controlling terminal, and a terminal is the controlling terminal of at
most one session.  The session keeps the terminal in its field `terminal`, and the job control of
the terminal keeps the session; the two are set and given up by calls that go through both objects.

* `Terminals.setCurrentSession`, `Terminals.releaseCurrentSession` : the calls, for a terminal and
  the current process;
* `Terminals.Agree` : the two ends of the link belong together;
* `Terminals.exists_released_taken` : a terminal that was released is never free again;
* `Terminals.agree_of_no_release` : **session and terminal agree as long as no terminal is
  released**.
-/

namespace Jinux

open Function

/-- The process that makes a call. -/
structure CurrentProcess where
  pid : ℕ
  group : ℕ
  session : ℕ

/-- The part of `Session` that is about its terminal. -/
structure TtySession where
  leader : Option ℕ
  terminal : Option ℕ

/-- `JobControl` -/
structure JobControl where
  foreground : Option ℕ
  session : Option ℕ

/-- The sessions and the terminals. -/
structure Terminals where
  session : ℕ → TtySession
  jobControl : ℕ → JobControl

namespace Terminals

variable {s s' : Terminals} {t : ℕ} {current : CurrentProcess}

/-- No session has a terminal. -/
def start (leader : ℕ → Option ℕ) : Terminals :=
  ⟨fun sid => ⟨leader sid, none⟩, fun _ => ⟨none, none⟩⟩

/-- `Process::is_session_leader` -/
def isSessionLeader (s : Terminals) (current : CurrentProcess) : Bool :=
  (s.session current.session).leader = some current.pid

/-- `Terminal::is_controlling_terminal` -/
def isControllingTerminal (s : Terminals) (t : ℕ) (current : CurrentProcess) : Bool :=
  (s.session current.session).terminal = some t

/-- The field `terminal` of a session is set. -/
def setTerminalField (s : Terminals) (sid : ℕ) (terminal : Option ℕ) : Terminals :=
  { s with session := update s.session sid { s.session sid with terminal } }

/-- The job control of a terminal is set. -/
def setJobControl (s : Terminals) (t : ℕ) (job : JobControl) : Terminals :=
  { s with jobControl := update s.jobControl t job }

/-- `JobControl::set_current_session` -/
def jobSetCurrentSession (s : Terminals) (t : ℕ) (current : CurrentProcess) : Result Terminals :=
  if (s.jobControl t).session.isSome then
    returnErrnoWithMessage .eperm "the terminal is already controlling terminal of another session"
  else .ok (s.setJobControl t ⟨some current.group, some current.session⟩)

/-- `JobControl::release_current_session`, up to the signals to the foreground group -/
def jobReleaseCurrentSession (s : Terminals) (t : ℕ) : Result Terminals :=
  if (s.jobControl t).session.isNone then
    returnErrnoWithMessage .enotty "the terminal is not controlling terminal now"
  else .ok s

/-- `Session::set_terminal` -/
def setTerminal (s : Terminals) (sid t : ℕ) (getTerminal : Terminals → Result Terminals) :
    Result Terminals :=
  if (s.session sid).terminal.isSome then
    returnErrnoWithMessage .eperm "current session already has controlling terminal"
  else do
    let s ← getTerminal s
    .ok (s.setTerminalField sid (some t))

/-- `Session::release_terminal` -/
def releaseTerminal (s : Terminals) (sid : ℕ) (releaseSession : Terminals → Result Terminals) :
    Result Terminals :=
  if (s.session sid).terminal.isNone then
    returnErrnoWithMessage .enotty "current session does not has controlling terminal"
  else do
    let s ← releaseSession s
    .ok (s.setTerminalField sid none)

/-- `Terminal::set_current_session` -/
def setCurrentSession (s : Terminals) (t : ℕ) (current : CurrentProcess) : Result Terminals :=
  if s.isSessionLeader current then
    s.setTerminal current.session t fun s => s.jobSetCurrentSession t current
  else returnErrnoWithMessage .eperm "current process is not session leader"

/-- `Terminal::release_current_session` -/
def releaseCurrentSession (s : Terminals) (t : ℕ) (current : CurrentProcess) : Result Terminals :=
  if s.isControllingTerminal t current then
    if s.isSessionLeader current then
      s.releaseTerminal current.session fun s => s.jobReleaseCurrentSession t
    else .ok s
  else returnErrnoWithMessage .enotty "release wrong tty"

/-- A call on a terminal. -/
inductive Call where
  | set (t : ℕ)
  | release (t : ℕ)

/-- What a call of a process returns. -/
def call (s : Terminals) (current : CurrentProcess) : Call → Result Terminals
  | .set t => s.setCurrentSession t current
  | .release t => s.releaseCurrentSession t current

/-- A call, whether it succeeds or fails; one that fails changes nothing. -/
def step (s : Terminals) (l : CurrentProcess × Call) : Option Terminals :=
  match s.call l.1 l.2 with
  | .ok s' => some s'
  | .error (.err _) => some s
  | .error (.panic _) => none

/-- The calls of all processes, one after the other. -/
def lts : Lts Terminals (CurrentProcess × Call) := Lts.ofFun step

/-- The terminal of a session is the one whose job control has the session. -/
def Agree (s : Terminals) : Prop :=
  ∀ sid t, (s.session sid).terminal = some t ↔ (s.jobControl t).session = some sid

/-- No session leader releases the controlling terminal of its session. -/
def NoRelease (s : Terminals) (l : CurrentProcess × Call) : Prop :=
  ∀ t, l.2 = .release t → s.isControllingTerminal t l.1 → ¬ s.isSessionLeader l.1

theorem agree_start (leader : ℕ → Option ℕ) : (start leader).Agree := by
  intro sid t
  exact ⟨nofun, nofun⟩

theorem jobSetCurrentSession_ok (h : s.jobSetCurrentSession t current = .ok s') :
    (s.jobControl t).session = none ∧
      s' = s.setJobControl t ⟨some current.group, some current.session⟩ := by
  unfold jobSetCurrentSession at h
  split_ifs at h with hsome
  · cases h
  · exact ⟨Option.not_isSome_iff_eq_none.1 hsome, (Except.ok.inj h).symm⟩

/-- A terminal that is taken: both ends of the link are set. -/
theorem setCurrentSession_ok (h : s.setCurrentSession t current = .ok s') :
    (s.session current.session).terminal = none ∧ (s.jobControl t).session = none ∧
      s' = (s.setJobControl t ⟨some current.group, some current.session⟩).setTerminalField
        current.session (some t) := by
  unfold setCurrentSession setTerminal at h
  split_ifs at h with hleader hterm
  · cases h
  · obtain ⟨s1, hjob, h⟩ := Result.bind_ok.1 h
    cases h
    obtain ⟨hnone, rfl⟩ := jobSetCurrentSession_ok hjob
    exact ⟨Option.not_isSome_iff_eq_none.1 hterm, hnone, rfl⟩
  · cases h

theorem Agree.set (h : s.Agree) (hs : s.setCurrentSession t current = .ok s') : s'.Agree := by
  obtain ⟨hterm, hjob, rfl⟩ := setCurrentSession_ok hs
  intro sid t'
  have hsid : (s.session sid).terminal = some t → False := fun hsid => by
    rw [h sid t, hjob] at hsid
    cases hsid
  rcases eq_or_ne sid current.session with rfl | hne <;> rcases eq_or_ne t' t with rfl | hne'
  · simp [setTerminalField, setJobControl]
  · have hold := h current.session t'
    rw [hterm] at hold
    simp only [setTerminalField, setJobControl, update_self, update_of_ne hne']
    refine ⟨fun heq => absurd (Option.some.inj heq).symm hne', fun heq => ?_⟩
    exact absurd (hold.2 heq) nofun
  · simp only [setTerminalField, setJobControl, update_self, update_of_ne hne]
    exact ⟨fun heq => (hsid heq).elim, fun heq => absurd (Option.some.inj heq).symm hne⟩
  · simp only [setTerminalField, setJobControl, update_of_ne hne, update_of_ne hne']
    exact h sid t'

/-- Without a release of the controlling terminal by the session leader nothing is released. -/
theorem releaseCurrentSession_ok (hno : s.isControllingTerminal t current →
    ¬ s.isSessionLeader current) (h : s.releaseCurrentSession t current = .ok s') : s' = s := by
  unfold releaseCurrentSession at h
  split_ifs at h with hctrl hleader
  · exact absurd hleader (hno hctrl)
  · exact (Except.ok.inj h).symm
  · cases h

theorem Agree.step {l : CurrentProcess × Call} (h : s.Agree) (hok : s.NoRelease l)
    (hs : s.step l = some s') : s'.Agree := by
  obtain ⟨current, call⟩ := l
  unfold Terminals.step at hs
  split at hs
  · next s1 hcall =>
    cases hs
    cases call with
    | set t => exact h.set hcall
    | release t =>
      rw [releaseCurrentSession_ok (hok t rfl) hcall]
      exact h
  · cases hs
    exact h
  · cases hs

/-- **Session and terminal agree.**  In every run in which no session leader releases the
controlling terminal of its session, the terminal of a session is the one whose job control has the
session. -/
theorem agree_of_no_release {leader : ℕ → Option ℕ} {s : Terminals}
    (h : (lts.restrict NoRelease).Reachable (start leader) s) : s.Agree :=
  h.invariant (agree_start leader) fun _ _ _ ha hs => ha.step hs.1 hs.2

/-- A session leader. -/
def shell : CurrentProcess := ⟨1, 1, 1⟩

/-- Process 1 leads session 1. -/
def oneSession : Terminals := start fun sid => if sid = 1 then some 1 else none

theorem agree_shell : ∃ s, (lts.restrict NoRelease).Reachable oneSession s ∧
    (s.session 1).terminal = some 0 ∧ s.Agree := by
  have hr : (lts.restrict NoRelease).Reachable oneSession
      ((oneSession.setJobControl 0 ⟨some 1, some 1⟩).setTerminalField 1 (some 0)) :=
    .step (l := (shell, .set 0)) (.refl _) ⟨nofun, rfl⟩
  exact ⟨_, hr, rfl, agree_of_no_release hr⟩

/-- After a release the terminal belongs to no session, but its job control still has the session,
and no session can take the terminal. -/
theorem exists_released_taken : ∃ s, lts.Reachable oneSession s ∧
    (s.session 1).terminal = none ∧ (s.jobControl 0).session = some 1 ∧ ¬ s.Agree ∧
    s.setCurrentSession 0 shell = returnErrnoWithMessage .eperm
      "the terminal is already controlling terminal of another session" := by
  have hr : lts.Reachable oneSession
      (((oneSession.setJobControl 0 ⟨some 1, some 1⟩).setTerminalField 1 (some 0)).setTerminalField
        1 none) :=
    .step (l := (shell, .release 0)) (.step (l := (shell, .set 0)) (.refl _) rfl) rfl
  refine ⟨_, hr, rfl, rfl, fun h => ?_, rfl⟩
  exact absurd ((h 1 0).2 rfl) nofun

end Terminals

end Jinux
