import Swoole.Protocol.ReadConn
import Swoole.Protocol.Settings

/-!
# The length reader

`swProtocol_recv_check_length` reads one connection of a port that frames its
packages by a length field.  It is entered on every read event and works in two
modes.  With `offset == 0` it wants a header and asks `recv` for a whole header's
worth of bytes, however many of them it already has; once the length function
knows the package length, it sets `recv_wait`, stores that length in `offset`, and
from then on asks for the difference `offset - length`, an unsigned 32-bit number.

`recvCheckLength` is that function, one `recv` at a time, as a resumable call;
its caller `swPort_onRead_check_length` closes the connection on `SW_ERR`.  The
length function and `onPackage` are parameters, as they are function pointers in
the source: the reader serves length-checked, MQTT, WebSocket and HTTP/2 ports.  A
length function that reads outside the block (`none`) breaks the connection.
-/

namespace Swoole.Protocol

section Reader

variable (getLength : SwString → Option ℤ) (onPackage : Bytes → Ret) (p : Protocol)

/-- `recvbuf_size`. -/
def recvbufSize (buffer : SwString) : ℕ :=
  if 0 < buffer.offset then toUInt32 ((buffer.offset : ℤ) - buffer.data.length)
  else p.headerSize

/-- `do_package`: hand the buffer over and clear it. -/
def doPackage (c : ReadConn) : ReadConn × Next Ret :=
  ({ c with
      buffer := c.buffer.clear
      recvWait := false
      packages := c.packages ++ [c.buffer.data] }, .ret (onPackage c.buffer.data))

/-- The package length is known: make room, remember it, and either hand the
package over or go for the rest of it. -/
def learnLength (c : ReadConn) (packageLength : ℕ) : ReadConn × Next Ret :=
  let c' : ReadConn :=
    { c with
      buffer := { c.buffer.reserve packageLength with offset := packageLength }
      recvWait := true }
  if c'.buffer.data.length = packageLength then doPackage onPackage c' else (c', .again)

/-- What follows a `recv` that stored some bytes. -/
def received (c : ReadConn) : ReadConn × Next Ret :=
  if c.recvWait then
    if c.buffer.data.length = c.buffer.offset then doPackage onPackage c else (c, .ret .ok)
  else
    match getLength c.buffer with
    | none => ({ c with status := .broken }, .ret .ok)
    | some packageLength =>
      if packageLength < 0 then (c, .ret .err)
      else if packageLength = 0 then (c, .ret .ok)
      else if p.maxLength < packageLength.toNat then (c, .ret .err)
      else learnLength onPackage c packageLength.toNat

/-- `swProtocol_recv_check_length` from one `recv` to the next, or to its return. -/
def recvCheckLength : ReadConn → RecvAnswer → ReadConn × Next Ret :=
  ReadConn.recvThen p.recvbufSize (received getLength onPackage p)

/-- `swPort_onRead_check_length`: only an active connection has read events. -/
def onReadCheckLength : Resumable ReadConn RecvAnswer Ret where
  step c a :=
    if c.status = .active then recvCheckLength getLength onPackage p c a
    else (c, .ret .ok)
  settle := ReadConn.settle

/-- What one answer of the kernel makes of a connection. -/
abbrev readTurn : ReadConn → RecvAnswer → ReadConn :=
  (onReadCheckLength getLength onPackage p).turn

end Reader

/-! ## What one answer can do -/

section Turn

variable {getLength : SwString → Option ℤ} {onPackage : Bytes → Ret} {p : Protocol}
variable {c : ReadConn} {a : RecvAnswer}

variable {buffer : SwString}

theorem recvbufSize_of_lt (h : buffer.data.length < buffer.offset)
    (hsize : buffer.offset < 2 ^ 32) :
    p.recvbufSize buffer = buffer.offset - buffer.data.length := by
  have hdiff := toUInt32_of_nonneg (x := (buffer.offset : ℤ) - buffer.data.length)
    (by omega) (by omega)
  rw [recvbufSize, if_pos (by omega)]
  omega

theorem recvbufSize_of_gt (hpos : 0 < buffer.offset) (h : buffer.offset < buffer.data.length)
    (hsize : buffer.data.length < 2 ^ 32) :
    p.recvbufSize buffer = buffer.offset + 2 ^ 32 - buffer.data.length := by
  have hdiff := toUInt32_of_neg (x := (buffer.offset : ℤ) - buffer.data.length)
    (by omega) (by omega)
  rw [recvbufSize, if_pos hpos]
  omega

theorem recvbufSize_of_offset_zero (h : buffer.offset = 0) :
    p.recvbufSize buffer = p.headerSize := by
  simp [recvbufSize, h]

theorem readTurn_eq : readTurn getLength onPackage p c a =
    (ReadConn.onRead p.recvbufSize (received getLength onPackage p)).turn c a := rfl

/-- Handing a package over appends it, clears the buffer and, when `onPackage`
accepts it, leaves the connection in the header mode. -/
theorem settled_doPackage (c : ReadConn) :
    ∃ status, ReadConn.settled (doPackage onPackage c) =
        { c with
          buffer := c.buffer.clear
          recvWait := false
          packages := c.packages ++ [c.buffer.data]
          status := status } ∧
      (onPackage c.buffer.data = .ok → status = c.status) ∧
      (status = .active → c.status = .active) := by
  cases hret : onPackage c.buffer.data with
  | ok => exact ⟨c.status, by simp [ReadConn.settled, doPackage, hret, ReadConn.settle], by simp⟩
  | err =>
    exact ⟨.closed, by simp [ReadConn.settled, doPackage, hret, ReadConn.settle, ReadConn.close],
      by simp⟩

end Turn

end Swoole.Protocol
