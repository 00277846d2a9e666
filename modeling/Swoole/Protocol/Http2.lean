import Swoole.Protocol.CheckLength
import Swoole.Protocol.HttpRequest

/-!
# HTTP/2 connections

A connection of an HTTP port may begin with the preface of HTTP/2 in place of a request.  The reader
of requests finds it in its buffer, hands the frames that came along to `swHttp2_parse_frame`, and
leaves everything else to the length reader, which has a buffer of its own.

The method `HTTP_PRI` is set by the first three bytes of the preface, before the rest of it is
looked at; with a method, the next bytes are not compared with anything.  When the preface is
taken off, it is taken off the bytes of the last `recv`.
-/

namespace Swoole

namespace Http2

/-- `SW_HTTP2_PRI_STRING`. -/
def preface : Bytes := ascii "PRI * HTTP/2.0\r\n\r\nSM\r\n\r\n".toList

/-- `SW_HTTP2_FRAME_HEADER_SIZE`. -/
def frameHeaderSize : ℕ := 9

/-- `swHttp2_get_length`. -/
def getLength (buf : Bytes) : ℕ :=
  (buf.getD 0 0).toNat * 2 ^ 16 + (buf.getD 1 0).toNat * 2 ^ 8 + (buf.getD 2 0).toNat

/-- `swHttp2_get_frame_length`. -/
def getFrameLength (buf : Bytes) : ℤ :=
  if buf.length < frameHeaderSize then 0 else (getLength buf + frameHeaderSize : ℕ)

/-- The frames that `swHttp2_parse_frame` hands over, whatever `onPackage` answers; a part of a
frame at the end is left where it is. -/
def parseFrame : ℕ → Bytes → List Bytes
  | 0, _ => []
  | fuel + 1, data =>
    if data.length < frameHeaderSize then []
    else if getLength data + frameHeaderSize ≤ data.length then
      data.take (getLength data + frameHeaderSize) ::
        parseFrame fuel (data.drop (getLength data + frameHeaderSize))
    else []

/-- The settings of an HTTP/2 port. -/
def protocol (maxLength : UInt32) : Protocol where
  splitByEof := false
  packageEof := []
  packageLengthType := .N
  packageLengthSize := 9
  packageLengthOffset := 0
  packageBodyOffset := 0
  packageMaxLength := maxLength

end Http2

/-- A connection of an HTTP/2 port: what belongs to the reader of requests, with `pri` for the
method `HTTP_PRI`, and what belongs to the length reader. -/
structure Http2Conn where
  http : HttpConn
  pri : Bool
  http2Stream : Bool
  buffer : SwString
  recvWait : Bool

namespace Http2Conn

def init (fresh : ℕ → UInt8) (stream : Bytes) : Http2Conn where
  http := .init stream
  pri := false
  http2Stream := false
  buffer := .new fresh bufferSize
  recvWait := false

variable (c : Http2Conn)

/-! ## The reader of requests -/

/-- What the reader of requests makes of the connection on its own. -/
def lift (next : HttpConn × Next Ret) : Http2Conn × Next Ret := ({ c with http := next.1 }, next.2)

/-- The branch of `HTTP_PRI`, with the bytes of the last `recv`.  If these are fewer than the
preface has, the length that `swHttp2_parse_frame` gets is a difference below zero in a
`uint32_t`. -/
def handOver (bytes : Bytes) : Http2Conn × Next Ret :=
  if bytes.length < Http2.preface.length then
    ({ c with http := { c.http with status := .broken } }, .ret .ok)
  else
    let rest := bytes.drop Http2.preface.length
    ({ c with
        http := { c.http with
          request := none
          packages := c.http.packages ++ Http2.parseFrame rest.length rest }
        pri := false
        http2Stream := true }, .ret .ok)

/-- What follows a `recv` that stored `bytes`. -/
def received (maxLength : UInt32) (r : HttpRequest) (bytes : Bytes) : Http2Conn × Next Ret :=
  if c.pri then c.handOver bytes
  else if r.method = none ∧ HttpRequest.readMethod r.buffer = none ∧
      r.buffer.cells 0 3 = Http2.preface.take 3 then
    if r.buffer.cells 0 Http2.preface.length = Http2.preface then c.handOver bytes
    else if r.buffer.data.length < httpHeaderMaxSize then
      ({ c with http := { c.http with request := some r }, pri := true }, .ret .ok)
    else c.lift c.http.closeFd
  else c.lift (c.http.received maxLength.toNat r)

/-- `swPort_onRead_http` from one `recv` to the next, without a stream. -/
def recvHttp (fresh : ℕ → ℕ → UInt8) (maxLength : UInt32) (a : RecvAnswer) : Http2Conn × Next Ret :=
  let r := c.http.current fresh
  match recv r.bufLen c.http.wire a with
  | (.error e, _) => c.lift (c.http.recvFailed r e)
  | (.data [], _) => c.lift c.http.closeFd
  | (.data (b :: bs), wire) =>
    if h : r.buffer.data.length + (b :: bs).length ≤ r.buffer.size then
      { c with http := { c.http with wire := wire } }.received maxLength (r.stored (b :: bs) h)
        (b :: bs)
    else ({ c with http := { c.http with status := .broken, wire := wire } }, .ret .ok)

/-! ## The length reader -/

/-- The connection as the length reader sees it. -/
def reading : ReadConn where
  buffer := c.buffer
  recvWait := c.recvWait
  wire := c.http.wire
  packages := c.http.packages
  status := c.http.status

/-- What the length reader makes of it. -/
def setReading (d : ReadConn) : Http2Conn :=
  { c with
    http := { c.http with wire := d.wire, packages := d.packages, status := d.status }
    buffer := d.buffer
    recvWait := d.recvWait }

/-- The length function of an HTTP/2 port. -/
def frameLength (buffer : SwString) : Option ℤ := some (Http2.getFrameLength buffer.data)

/-- **`swPort_onRead_http`**: what one answer of the kernel makes of a connection. -/
def readTurn (fresh : ℕ → ℕ → UInt8) (maxLength : UInt32) (onPackage : Bytes → Ret) (c : Http2Conn)
    (a : RecvAnswer) : Http2Conn :=
  if c.http2Stream then
    c.setReading (Protocol.readTurn frameLength onPackage (Http2.protocol maxLength) c.reading a)
  else if c.http.status = .active then (c.recvHttp fresh maxLength a).1
  else c

end Http2Conn

end Swoole
