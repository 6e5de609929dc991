import Jinux.Kernel.Result
import Jinux.Lib.Lts

/-!
# The blocking mode of unix stream sockets

A socket keeps its `O_NONBLOCK` flag in its initial state, in its listening state, or in the two
ends of the channels of its endpoint.  The side that connects makes both endpoints, and the other
one waits in the backlog until it is accepted.

* `Endpoint.setNonblocking` sets the flag whatever it is asked for;
* `Endpoint.newPair` gives both endpoints the flag of the side that connects.

`UnixSockets.reports_wanted` says in which runs every socket still has the mode that was set on it,
and `UnixSockets.exists_wrong_mode` is a run in which two sockets have not.
-/

namespace Jinux

open Function List

/-- `StatusFlags` -/
abbrev StatusFlags := BitVec 32

namespace StatusFlags

/-- `O_NONBLOCK` -/
def oNonblock : StatusFlags := 1 <<< 11

/-- `O_DIRECT` -/
def oDirect : StatusFlags := 1 <<< 14

/-- `contains` -/
def contains (flags other : StatusFlags) : Bool := flags &&& other == other

/-- The flags of a mode. -/
def ofMode (isNonblocking : Bool) : StatusFlags := if isNonblocking then oNonblock else 0

end StatusFlags

open StatusFlags

/-- `check_status_flags` -/
def checkStatusFlags (flags : StatusFlags) : Result Unit :=
  if !(oNonblock ||| oDirect).contains flags then
    returnErrnoWithMessage .einval "invalid flags"
  else if flags.contains oDirect then
    returnErrnoWithMessage .einval "O_DIRECT is not supported"
  else .ok ()

/-- `should_io_return` -/
def shouldIoReturn (res : Result ℕ) (isNonblocking : Bool) : Bool :=
  isNonblocking || match res with
    | .error (.err e) => e.errno != .eagain
    | _ => true

/-- `Endpoint`: the flags of its ends of the two channels. -/
structure Endpoint where
  reader : StatusFlags
  writer : StatusFlags
  deriving DecidableEq

namespace Endpoint

/-- `Endpoint::new_pair` -/
def newPair (isNonblocking : Bool) : Result (Endpoint × Endpoint) := do
  let flags := ofMode isNonblocking
  checkStatusFlags flags
  checkStatusFlags flags
  pure (⟨flags, flags⟩, ⟨flags, flags⟩)

/-- `is_nonblocking` -/
def isNonblocking (e : Endpoint) : Result Bool := do
  debugAssert (e.reader.contains oNonblock = e.writer.contains oNonblock)
  pure (e.reader.contains oNonblock)

/-- `set_nonblocking`: the source does not use its argument. -/
def setNonblocking (e : Endpoint) (_isNonblocking : Bool) : Result Endpoint := do
  checkStatusFlags (e.reader ||| oNonblock)
  checkStatusFlags (e.writer ||| oNonblock)
  pure ⟨e.reader ||| oNonblock, e.writer ||| oNonblock⟩

/-- Whether `read` returns with a result of `try_read`, and does not wait. -/
def readReturns (e : Endpoint) (res : Result ℕ) : Bool :=
  shouldIoReturn res (e.reader.contains oNonblock)

/-- Whether `write` returns with a result of `try_write`, and does not wait. -/
def writeReturns (e : Endpoint) (res : Result ℕ) : Bool :=
  shouldIoReturn res (e.writer.contains oNonblock)

end Endpoint

/-- `State` of a `UnixStreamSocket`; addresses are numbers. -/
inductive SockState where
  | init (isNonblocking : Bool) (addr : Option ℕ)
  | listen (isNonblocking : Bool) (addr : ℕ)
  | connected (endpoint : Endpoint)
  deriving DecidableEq

namespace SockState

/-- `status_flags` -/
def statusFlags : SockState → Result StatusFlags
  | .init nb _ => .ok (ofMode nb)
  | .listen nb _ => .ok (ofMode nb)
  | .connected e => do pure (ofMode (← e.isNonblocking))

/-- `set_status_flags` -/
def setStatusFlags (newFlags : StatusFlags) : SockState → Result SockState
  | .init _ addr => .ok (.init (newFlags.contains oNonblock) addr)
  | .listen _ addr => .ok (.listen (newFlags.contains oNonblock) addr)
  | .connected e => do
    let e ← (e.setNonblocking (newFlags.contains oNonblock)).unwrap
    pure (.connected e)

/-- Whether the socket is connected. -/
def isConnected : SockState → Bool
  | .connected _ => true
  | _ => false

end SockState

/-- A socket, and the mode its user wants: that of its creation, or of the flags set last. -/
structure UnixSocket where
  state : SockState
  wanted : Bool
  deriving DecidableEq

/-- The sockets, and the backlogs of the addresses: how many endpoints may wait, and those that
do. -/
structure UnixSockets where
  sockets : List UnixSocket := []
  backlogs : ℕ → Option (ℕ × List Endpoint) := fun _ => none

/-- The calls.  Sockets are numbered as they are made. -/
inductive UnixOp where
  | socket (isNonblocking : Bool)
  | socketpair (isNonblocking : Bool)
  | bind (i addr : ℕ)
  | listen (i backlog : ℕ)
  | connect (i addr : ℕ)
  | accept (i : ℕ)
  | setStatusFlags (i : ℕ) (flags : StatusFlags)

namespace UnixSockets

/-- A call that returns `Ok`; one that fails changes nothing.  A new socket of `accept` has not been
asked to be nonblocking by anyone. -/
def step (s : UnixSockets) : UnixOp → Option UnixSockets
  | .socket nb => some { s with sockets := s.sockets ++ [⟨.init nb none, nb⟩] }
  | .socketpair nb => do
    let (a, b) ← (Endpoint.newPair nb).toOption
    some { s with sockets := s.sockets ++ [⟨.connected a, nb⟩, ⟨.connected b, nb⟩] }
  | .bind i addr =>
    match s.sockets[i]? with
    | some ⟨.init nb none, wanted⟩ =>
      some { s with sockets := s.sockets.set i ⟨.init nb (some addr), wanted⟩ }
    | _ => none
  | .listen i backlog =>
    match s.sockets[i]? with
    | some ⟨.init nb (some addr), wanted⟩ =>
      if (s.backlogs addr).isSome then none
      else some ⟨s.sockets.set i ⟨.listen nb addr, wanted⟩,
        update s.backlogs addr (some (backlog, []))⟩
    | _ => none
  | .connect i addr =>
    match s.sockets[i]?, s.backlogs addr with
    | some ⟨.init nb own, wanted⟩, some (backlog, incoming) => do
      let (this, remote) ← (Endpoint.newPair nb).toOption
      if own = some addr ∨ backlog ≤ incoming.length then none
      else some ⟨s.sockets.set i ⟨.connected this, wanted⟩,
        update s.backlogs addr (some (backlog, incoming ++ [remote]))⟩
    | _, _ => none
  | .accept i =>
    match s.sockets[i]? with
    | some ⟨.listen _ addr, _⟩ =>
      match s.backlogs addr with
      | some (backlog, e :: incoming) =>
        some ⟨s.sockets ++ [⟨.connected e, false⟩],
          update s.backlogs addr (some (backlog, incoming))⟩
      | _ => none
    | _ => none
  | .setStatusFlags i flags => do
    let socket ← s.sockets[i]?
    let state ← (socket.state.setStatusFlags flags).toOption
    some { s with sockets := s.sockets.set i ⟨state, flags.contains oNonblock⟩ }

abbrev lts : Lts UnixSockets UnixOp := .ofFun step

/-- Connected sockets are only ever made nonblocking, and a nonblocking socket does not connect. -/
def KeepsMode (s : UnixSockets) : UnixOp → Prop
  | .setStatusFlags i flags =>
    flags.contains oNonblock = true ∨ s.sockets[i]?.all (!·.state.isConnected) = true
  | .connect i _ => s.sockets[i]?.all (!·.wanted) = true
  | _ => True

instance (s : UnixSockets) (op : UnixOp) : Decidable (s.KeepsMode op) := by
  cases op <;> unfold KeepsMode <;> infer_instance

/-- The flags of an endpoint in a mode. -/
def endpoint (isNonblocking : Bool) : Endpoint := ⟨ofMode isNonblocking, ofMode isNonblocking⟩

/-- The socket has the mode that its user wants. -/
def Agrees (socket : UnixSocket) : Prop :=
  match socket.state with
  | .init nb _ => nb = socket.wanted
  | .listen nb _ => nb = socket.wanted
  | .connected e => e = endpoint socket.wanted

/-- All sockets have their mode, and those that wait for `accept` are blocking. -/
structure Inv (s : UnixSockets) : Prop where
  agrees : ∀ socket ∈ s.sockets, Agrees socket
  waiting : ∀ addr b, b ∈ s.backlogs addr → ∀ e ∈ b.2, e = endpoint false

theorem newPair_eq (nb : Bool) : Endpoint.newPair nb = .ok (endpoint nb, endpoint nb) := by
  cases nb <;> rfl

variable {socket : UnixSocket}

theorem Agrees.set (h : Agrees socket) {flags : StatusFlags}
    {state : SockState} (hok : flags.contains oNonblock = true ∨ socket.state.isConnected = false)
    (hs : socket.state.setStatusFlags flags = .ok state) :
    Agrees ⟨state, flags.contains oNonblock⟩ := by
  obtain ⟨state0, wanted⟩ := socket
  cases state0 with
  | init nb addr | listen nb addr => cases hs; rfl
  | connected e =>
    obtain rfl : e = endpoint wanted := h
    have hnb := hok.resolve_right nofun
    rw [hnb]
    -- the flag is set on a blocking and on a nonblocking endpoint
    have hset : ∀ b, (endpoint b).setNonblocking (flags.contains oNonblock) = .ok (endpoint true) :=
      fun b => by cases b <;> rfl
    rw [SockState.setStatusFlags, hset] at hs
    cases hs
    rfl

variable {s s' : UnixSockets}

theorem Inv.step {op : UnixOp} (h : s.Inv) (hok : s.KeepsMode op) (hs : s.step op = some s') :
    s'.Inv := by
  have hset : ∀ {i socket}, Agrees socket → ∀ x ∈ s.sockets.set i socket, Agrees x :=
    fun hnew x hx => (mem_or_eq_of_mem_set hx).elim (h.agrees x) fun heq => heq ▸ hnew
  have hupdate : ∀ {addr n es}, (∀ e ∈ es, e = endpoint false) → ∀ a b,
      b ∈ update s.backlogs addr (some (n, es)) a → ∀ e ∈ b.2, e = endpoint false := by
    intro addr n es hes a b hb
    rw [update_apply] at hb
    split_ifs at hb
    · cases hb
      exact hes
    · exact h.waiting a b hb
  cases op with
  | socket nb =>
    cases hs
    exact ⟨forall_mem_append.2 ⟨h.agrees, by simp [Agrees]⟩, h.waiting⟩
  | socketpair nb =>
    simp only [UnixSockets.step, newPair_eq] at hs
    cases hs
    exact ⟨forall_mem_append.2 ⟨h.agrees, by simp [Agrees]⟩, h.waiting⟩
  | bind i addr =>
    simp only [UnixSockets.step] at hs
    split at hs <;> cases hs
    rename_i hi
    have hnb := h.agrees _ (mem_of_getElem? hi)
    exact ⟨hset hnb, h.waiting⟩
  | listen i backlog =>
    simp only [UnixSockets.step] at hs
    split at hs <;> try cases hs
    rename_i hi
    split_ifs at hs
    cases hs
    have hnb := h.agrees _ (mem_of_getElem? hi)
    exact ⟨hset hnb, hupdate nofun⟩
  | connect i addr =>
    simp only [UnixSockets.step, newPair_eq] at hs
    split at hs <;> try cases hs
    rename_i nb own wanted backlog incoming hi hb
    obtain rfl : nb = wanted := h.agrees _ (mem_of_getElem? hi)
    obtain rfl : nb = false := by simpa [KeepsMode, hi] using hok
    simp only [Except.toOption, Option.bind_eq_bind, Option.bind_some] at hs
    split_ifs at hs
    cases hs
    exact ⟨hset rfl, hupdate (forall_mem_append.2 ⟨h.waiting addr _ hb, by simp⟩)⟩
  | accept i =>
    simp only [UnixSockets.step] at hs
    split at hs <;> try cases hs
    split at hs <;> cases hs
    rename_i hb
    have hes := forall_mem_cons.1 (h.waiting _ _ hb)
    exact ⟨forall_mem_append.2 ⟨h.agrees, by simp [Agrees, hes.1]⟩, hupdate hes.2⟩
  | setStatusFlags i flags =>
    obtain ⟨socket, hi, hs⟩ := Option.bind_eq_some_iff.1 hs
    obtain ⟨state, hstate, hs⟩ := Option.bind_eq_some_iff.1 hs
    cases hs
    refine ⟨hset ((h.agrees _ (mem_of_getElem? hi)).set ?_ ?_), h.waiting⟩
    · simpa [KeepsMode, hi] using hok
    · cases hres : socket.state.setStatusFlags flags <;> simp_all [Except.toOption]

/-- What a socket with the right mode shows of it. -/
def Reports (socket : UnixSocket) : Prop :=
  socket.state.statusFlags = .ok (ofMode socket.wanted) ∧
    ∀ e, socket.state = .connected e → ∀ res, e.readReturns res = shouldIoReturn res socket.wanted ∧
      e.writeReturns res = shouldIoReturn res socket.wanted

theorem Agrees.reports (h : Agrees socket) : Reports socket := by
  obtain ⟨state, wanted⟩ := socket
  cases state with
  | init nb addr | listen nb addr => exact ⟨by rw [show nb = wanted from h]; rfl, nofun⟩
  | connected e =>
    obtain rfl : e = endpoint wanted := h
    refine ⟨by cases wanted <;> rfl, fun e he res => ?_⟩
    cases he
    cases wanted <;> exact ⟨rfl, rfl⟩

/-- **Every socket has the mode that was set on it**, if connected sockets are only made nonblocking
and only blocking sockets connect. -/
theorem reports_wanted (hr : (lts.restrict KeepsMode).Reachable {} s) :
    ∀ socket ∈ s.sockets, Reports socket := by
  have h : s.Inv := hr.invariant (P := Inv) ⟨nofun, nofun⟩ fun _ _ _ hi hs => hi.step hs.1 hs.2
  exact fun socket hsocket => (h.agrees socket hsocket).reports

/-- A blocking client connects and is then made nonblocking; the accepted socket stays blocking. -/
theorem reports_wanted_accepted : ∃ s, (lts.restrict KeepsMode).Reachable {} s ∧
    s.sockets.map UnixSocket.wanted = [true, true, false] ∧
    ∀ socket ∈ s.sockets, Reports socket := by
  obtain ⟨s, hr, hwanted⟩ := Lts.exists_run_restrict step {} [.socket false, .socket true,
    .bind 1 7, .listen 1 1, .connect 0 7, .accept 1, .setStatusFlags 0 oNonblock]
    (fun s => s.sockets.map UnixSocket.wanted = [true, true, false]) KeepsMode (by decide +kernel)
  exact ⟨s, hr, hwanted, reports_wanted hr⟩

/-- **Two sockets with the wrong mode**: a nonblocking client connects and is then made blocking.
It stays nonblocking, and so is the accepted socket. -/
theorem exists_wrong_mode : ∃ s, lts.Reachable {} s ∧ ∃ client accepted,
    s.sockets[0]? = some client ∧ s.sockets[2]? = some accepted ∧
    client.wanted = false ∧ client.state.statusFlags = .ok oNonblock ∧
    accepted.wanted = false ∧ accepted.state.statusFlags = .ok oNonblock :=
  ⟨_, Lts.reachable_run (show Lts.run step {} [.socket true, .socket false, .bind 1 7,
    .listen 1 1, .connect 0 7, .accept 1, .setStatusFlags 0 0] = some _ from rfl),
    _, _, rfl, rfl, rfl, rfl, rfl, rfl⟩

end UnixSockets

end Jinux
