import Jinux.Kernel.Result

/-!
# The loops of a connected TCP stream

A pass of `ConnectedStream::recvfrom` or `ConnectedStream::sendto` tries a transfer.  If no byte was
moved, it looks at the pollee, which `update_io_events` has set from the socket.  The network acts
between the passes.  The socket is one of smoltcp, of which only the documented laws are used.

* `ConnectedStream.progress_iff` : **a pass returns, waits or changes the socket**, unless the
  buffer is empty and the socket is ready;
* `ConnectedStream.exists_spin` : such a pass leads to itself.
-/

namespace Jinux

open Function

/-- The ways of a stream. -/
inductive Way where
  | recv
  | send
  deriving DecidableEq

/-- `RawTcpSocket`, with the states `σ`, and what is assumed of it. -/
structure RawTcpSocket (σ : Type) where
  /-- `can_recv` and `can_send` -/
  can : σ → Way → Bool
  /-- `recv_slice` and `send_slice`; an error is `none`. -/
  slice : σ → Way → ℕ → Option (ℕ × σ)
  /-- The bytes to receive, or the space to send. -/
  room : σ → Way → ℕ
  slice_moves {t t' : σ} {way : Way} {len n : ℕ} (h : slice t way len = some (n, t')) :
    n = min len (room t way)
  slice_zero {t t' : σ} {way : Way} {len : ℕ} (h : slice t way len = some (0, t')) : t' = t
  slice_of_can {t : σ} {way : Way} (h : can t way = true) (len : ℕ) : slice t way len ≠ none
  room_of_can {t : σ} {way : Way} (h : can t way = true) : room t way ≠ 0

/-- `ConnectedStream` with the events of its pollee. -/
structure ConnectedStream (σ : Type) where
  nonblocking : Bool
  socket : σ
  /-- `IN` and `OUT` -/
  ready : Way → Bool
  /-- `HUP` or `ERR` -/
  failed : Bool

/-- How a pass ends. -/
inductive Pass where
  | returns (res : Result ℕ)
  | waits
  | again

namespace ConnectedStream

variable {σ : Type} (tcp : RawTcpSocket σ) (s : ConnectedStream σ) (len : ℕ) (way : Way)

/-- `update_io_events` -/
def updateIoEvents : ConnectedStream σ := { s with ready := tcp.can s.socket }

/-- `try_recvfrom`, after `poll_ifaces` -/
def tryRecvfrom : Result ℕ × ConnectedStream σ :=
  match tcp.slice s.socket .recv len with
  | some (n, socket) => (.ok n, { s with socket }.updateIoEvents tcp)
  | none => (returnErrnoWithMessage .enotconn "fail to recv packet", s.updateIoEvents tcp)

/-- `try_sendto`, up to `poll_ifaces` -/
def trySendto : Result ℕ × ConnectedStream σ :=
  match tcp.slice s.socket .send len with
  | some (0, socket) => (.ok 0, { s with socket }.updateIoEvents tcp)
  | some (n, socket) => (.ok n, { s with socket })
  | none => (returnErrnoWithMessage .enobufs "cannot send packet", s)

/-- The rest of a pass. -/
def finish (errno : Errno) (msg retry : String) :
    Result ℕ × ConnectedStream σ → Pass × ConnectedStream σ
  | (.ok 0, s) =>
    (if s.failed then .returns (returnErrnoWithMessage errno msg)
      else if s.ready way then .again
      else if s.nonblocking then .returns (returnErrnoWithMessage .eagain retry) else .waits, s)
  | (res, s) => (.returns res, s)

/-- A pass of `recvfrom` or `sendto`. -/
def pass : Way → Pass × ConnectedStream σ
  | .recv => finish .recv .enotconn "recv packet fails" "try to recv again" (s.tryRecvfrom tcp len)
  | .send => finish .send .enobufs "fail to send packets" "try to send again" (s.trySendto tcp len)

variable {tcp s len way}

theorem finish_again {errno : Errno} {msg retry : String} {p : Result ℕ × ConnectedStream σ} :
    (finish way errno msg retry p).1 = .again ↔
      p.1 = .ok 0 ∧ p.2.failed = false ∧ p.2.ready way = true := by
  obtain ⟨_ | _ | n, s⟩ := p
  · simp [finish]
  · simp only [finish]
    split_ifs <;> simp [*]
  · simp [finish]

/-- A pass that starts over has moved nothing on a socket that is ready. -/
theorem pass_again : (s.pass tcp len way).1 = .again ↔
    ∃ t, tcp.slice s.socket way len = some (0, t) ∧ tcp.can t way = true ∧ s.failed = false := by
  cases way with
  | recv =>
    rw [pass, finish_again, tryRecvfrom]
    rcases tcp.slice s.socket .recv len with _ | ⟨_ | n, t⟩ <;>
      simp [returnErrnoWithMessage, updateIoEvents, and_comm]
  | send =>
    rw [pass, finish_again, trySendto]
    rcases tcp.slice s.socket .send len with _ | ⟨_ | n, t⟩ <;>
      simp [returnErrnoWithMessage, updateIoEvents, and_comm]

/-- A transfer of nothing leaves the socket as it was. -/
theorem pass_socket (h : tcp.slice s.socket way len = some (0, s.socket)) :
    (s.pass tcp len way).2.socket = s.socket := by
  cases way with
  | recv => rw [pass, tryRecvfrom, h]; rfl
  | send => rw [pass, trySendto, h]; rfl

/-- **A pass returns, waits or changes the socket**, unless the buffer is empty and the socket is
ready. -/
theorem progress_iff (tcp : RawTcpSocket σ) (s : ConnectedStream σ) (len : ℕ) (way : Way) :
    ((s.pass tcp len way).1 ≠ .again ∨ (s.pass tcp len way).2.socket ≠ s.socket) ↔
      ¬(len = 0 ∧ tcp.can s.socket way = true ∧ s.failed = false) := by
  rw [← not_and_or, not_iff_not, pass_again]
  constructor
  · rintro ⟨⟨t, ht, hcan, hf⟩, -⟩
    obtain rfl := tcp.slice_zero ht
    have hmin := tcp.slice_moves ht
    have hroom := tcp.room_of_can hcan
    exact ⟨by omega, hcan, hf⟩
  · rintro ⟨rfl, hcan, hf⟩
    obtain ⟨⟨n, t⟩, ht⟩ := Option.ne_none_iff_exists'.1 (tcp.slice_of_can hcan 0)
    obtain rfl : n = 0 := by simpa using tcp.slice_moves ht
    obtain rfl := tcp.slice_zero ht
    exact ⟨⟨_, ht, hcan, hf⟩, pass_socket ht⟩

/-- An open socket with two buffers. -/
def buffers : RawTcpSocket (Way → ℕ) where
  can t way := t way != 0
  slice t way len := some (min len (t way), update t way (t way - min len (t way)))
  room t := t
  slice_moves h := by cases h; rfl
  slice_zero {t t' way len} h := by
    obtain ⟨hmin, rfl⟩ := Prod.mk.inj (Option.some.inj h)
    simp [hmin]
  slice_of_can _ _ := nofun
  room_of_can h := by simpa using h

/-- An empty buffer and a socket with data and space. -/
theorem exists_spin : ∃ s : ConnectedStream (Way → ℕ),
    s.pass buffers 0 .recv = (.again, s) ∧ s.pass buffers 0 .send = (.again, s) := by
  refine ⟨⟨false, fun _ => 1, fun _ => true, false⟩, ?_⟩
  simp [pass, tryRecvfrom, trySendto, finish, updateIoEvents, buffers]

end ConnectedStream

end Jinux
