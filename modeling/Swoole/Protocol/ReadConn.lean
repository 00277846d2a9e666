import Swoole.Core.String
import Swoole.Library.Resumable

/-!
# A connection as its reader sees it

Each port type has its own reader, and all readers work the same way: they store
what `recv` returns behind the bytes in the connection's buffer, decide what the
bytes amount to, and go on or return; the port's handler closes the connection on
`SW_ERR`.

Two things end a connection's story without a close.  A `recv` that stores more
bytes than the buffer has room for overwrites memory the model knows nothing of,
and so does any other access outside a block; `broken` stands for these, for a
failed assertion and for the call of `abort()`.
-/

namespace Swoole

/-- Where a connection stands: served, closed, or past undefined behaviour. -/
inductive Status where
  | active
  | closed
  | broken
  deriving DecidableEq, Repr

/-- A connection as a reader sees it, with the part of the peer's stream still to
come and the packages handed to `onPackage` so far, oldest first. -/
structure ReadConn where
  buffer : SwString
  recvWait : Bool
  wire : Bytes
  packages : List Bytes
  status : Status

namespace ReadConn

/-- A freshly accepted connection; `swServer_get_buffer` allocates its buffer. -/
def init (fresh : ℕ → UInt8) (stream : Bytes) : ReadConn where
  buffer := .new fresh bufferSize
  recvWait := false
  wire := stream
  packages := []
  status := .active

/-- `swReactorThread_onClose`, as far as the reader is concerned. -/
def close (c : ReadConn) : ReadConn := { c with status := .closed }

/-- The reader's caller: `SW_ERR` closes the connection. -/
def settle (c : ReadConn) : Ret → ReadConn
  | .ok => c
  | .err => c.close

/-- The part of the stream that has been received. -/
def arrived (stream : Bytes) (c : ReadConn) : Bytes :=
  stream.take (stream.length - c.wire.length)

variable {c : ReadConn} {stream : Bytes}

theorem arrived_eq {got : Bytes} (h : got ++ c.wire = stream) : c.arrived stream = got := by
  subst h
  simp [arrived]

/-- The settled outcome of a step of a reader. -/
def settled : ReadConn × Next Ret → ReadConn
  | (c, .again) => c
  | (c, .ret v) => c.settle v

/-- The connection after `bytes` were stored behind the bytes in use. -/
def stored (c : ReadConn) (bytes wire : Bytes)
    (h : c.buffer.data.length + bytes.length ≤ c.buffer.size) : ReadConn :=
  { c with buffer := c.buffer.append bytes h, wire := wire }

/-- What every reader does when `recv` fails: `SW_CLOSE` gives the connection up,
`SW_ERROR` and `SW_WAIT` wait for the next event. -/
def recvFailed (c : ReadConn) (e : Errno) : ReadConn × Next Ret :=
  match connectionError e with
  | .close => (c, .ret .err)
  | .error | .wait => (c, .ret .ok)
  | .abort => ({ c with status := .broken }, .ret .ok)

/-- A failed `recv` changes the status at most; a transient error not even that. -/
theorem settled_recvFailed (hact : c.status = .active) (e : Errno) :
    ∃ status, settled (c.recvFailed e) = { c with status := status } ∧
      ((connectionError e = .wait ∨ connectionError e = .error) → status = .active) := by
  cases haction : connectionError e with
  | close =>
    refine ⟨.closed, ?_, by simp⟩
    simp only [recvFailed, haction]
    rfl
  | error | wait =>
    refine ⟨.active, ?_, fun _ => rfl⟩
    simp only [recvFailed, haction]
    rw [← hact]
    rfl
  | abort =>
    refine ⟨.broken, ?_, by simp⟩
    simp only [recvFailed, haction]
    rfl

theorem arrived_of_split {c' : ReadConn} {bytes : Bytes}
    (hsplit : c.arrived stream ++ c.wire = stream) (hwire : bytes ++ c'.wire = c.wire) :
    c'.arrived stream = c.arrived stream ++ bytes := by
  apply arrived_eq
  rw [List.append_assoc, hwire, hsplit]

/-! ## One answer of the kernel

The length reader and the EOF reader differ in what they ask for (`request`) and in what they make
of the bytes that are stored (`received`). -/

section Turn

variable (request : SwString → ℕ) (received : ReadConn → ReadConn × Next Ret)

/-- A reader from one `recv` to the next, or to its return. -/
def recvThen (c : ReadConn) (a : RecvAnswer) : ReadConn × Next Ret :=
  match recv (request c.buffer) c.wire a with
  | (.error e, _) => c.recvFailed e
  | (.data [], _) => (c, .ret .err)
  | (.data (b :: bs), wire) =>
    if h : c.buffer.data.length + (b :: bs).length ≤ c.buffer.size then
      received (c.stored (b :: bs) wire h)
    else ({ c with status := .broken, wire := wire }, .ret .ok)

/-- Only an active connection has read events. -/
def onRead : Resumable ReadConn RecvAnswer Ret where
  step c a := if c.status = .active then c.recvThen request received a else (c, .ret .ok)
  settle := ReadConn.settle

variable {request received} {a : RecvAnswer} {e : Errno} {bytes wire : Bytes}

theorem turn_of_not_active (h : c.status ≠ .active) : (onRead request received).turn c a = c := by
  simp [Resumable.turn, onRead, h, settle]

theorem turn_of_active (h : c.status = .active) :
    (onRead request received).turn c a = settled (c.recvThen request received a) := by
  unfold Resumable.turn
  simp only [onRead, if_pos h]
  rcases c.recvThen request received a with ⟨c', _ | v⟩ <;> rfl

variable (hact : c.status = .active)
include hact

/-- A failed `recv` leaves the buffer, the mode, the stream and the packages alone; a transient
error leaves the connection active, too. -/
theorem turn_of_error
    (h : recv (request c.buffer) c.wire a = (.error e, wire)) :
    ∃ status, (onRead request received).turn c a = { c with status := status } ∧
      ((connectionError e = .wait ∨ connectionError e = .error) → status = .active) := by
  rw [turn_of_active hact]
  simp only [recvThen, h]
  exact settled_recvFailed hact e

/-- A `recv` that returns `0` closes the connection. -/
theorem turn_of_eof (h : recv (request c.buffer) c.wire a = (.data [], wire)) :
    (onRead request received).turn c a = c.close := by
  rw [turn_of_active hact]
  simp only [recvThen, h]
  rfl

/-- Bytes for which the buffer has no room end the model of the connection. -/
theorem turn_of_overflow
    (h : recv (request c.buffer) c.wire a = (.data bytes, wire)) (hne : bytes ≠ [])
    (hroom : ¬ c.buffer.data.length + bytes.length ≤ c.buffer.size) :
    (onRead request received).turn c a = { c with status := .broken, wire := wire } := by
  obtain ⟨b, bs, rfl⟩ := List.exists_cons_of_ne_nil hne
  rw [turn_of_active hact]
  simp only [recvThen, h, dif_neg hroom]
  rfl

/-- Bytes that fit are stored, and `received` decides what to do with them. -/
theorem turn_of_data (h : recv (request c.buffer) c.wire a = (.data bytes, wire)) (hne : bytes ≠ [])
    (hroom : c.buffer.data.length + bytes.length ≤ c.buffer.size) :
    (onRead request received).turn c a = settled (received (c.stored bytes wire hroom)) := by
  obtain ⟨b, bs, rfl⟩ := List.exists_cons_of_ne_nil hne
  rw [turn_of_active hact]
  simp only [recvThen, h, dif_pos hroom]

omit hact

/-- **What one answer can do**: nothing to a connection that is not served, change the status
after an error, end the connection, or store bytes. -/
theorem turn_rule {P : ReadConn → Prop} (idle : c.status ≠ .active → P c)
    (failed : ∀ e wire status, c.status = .active →
      recv (request c.buffer) c.wire a = (.error e, wire) → P { c with status := status })
    (ended : ∀ wire status, status ≠ .active → P { c with status := status, wire := wire })
    (stored : ∀ bytes wire hroom, c.status = .active →
      recv (request c.buffer) c.wire a = (.data bytes, wire) → bytes ≠ [] →
        P (settled (received (c.stored bytes wire hroom)))) :
    P ((onRead request received).turn c a) := by
  by_cases hact : c.status = .active
  swap
  · rw [turn_of_not_active hact]
    exact idle hact
  rcases hrecv : recv (request c.buffer) c.wire a with ⟨bytes | e, wire⟩
  · cases bytes with
    | nil =>
      rw [turn_of_eof hact hrecv]
      exact ended c.wire .closed nofun
    | cons b bs =>
      by_cases hroom : c.buffer.data.length + (b :: bs).length ≤ c.buffer.size
      · rw [turn_of_data hact hrecv nofun hroom]
        exact stored _ _ hroom hact hrecv nofun
      · rw [turn_of_overflow hact hrecv nofun hroom]
        exact ended wire .broken nofun
  · obtain ⟨status, heq, -⟩ := @turn_of_error c request received a e wire hact hrecv
    rw [heq]
    exact failed e wire status hact hrecv

end Turn

end ReadConn

end Swoole
