import Swoole.Core.String
import Swoole.Library.LittleEndian
import Swoole.Library.StepRun

/-!
# Datagrams

A thread of its own serves each datagram port.  `swReactorThread_onPackage` puts a
`swDgramPacket` in front of a datagram, which holds the source and the number of bytes that
follow, and sends both to a worker in chunks of at most `SW_BUFFER_SIZE` bytes.  For a unix
socket the path of the sender comes between the two.  While it does so
`factory_lock_target` makes `swFactoryProcess_dispatch` stay with one worker.

`swWorker_onTask` appends the chunks of a thread to the merge buffer that the worker has for
that thread.  It takes the length out of the header when the first chunk is there, and calls
`onPacket` as soon as that many bytes have come.

The model has any number of threads and workers.  An event is a datagram that `recvfrom`
returns, one `dispatch` of a thread, or one task of a worker, in any order.  `arrived`,
`assigned` and `packets` are history: the datagrams of a thread, the worker that each was
given to, and the calls of `onPacket` a worker made for a thread.
-/

namespace Swoole

open Function
open LittleEndian (bytes value)

/-- `SW_BUFFER_SIZE_UDP`. -/
def bufferSizeUdp : ℕ := 65536

/-- `sizeof(swDgramPacket)`: sixteen bytes for the address, the port in two, two bytes of
padding, and the length in four. -/
def dgramPacketSize : ℕ := 24

/-- `SW_EVENT_UDP`, `SW_EVENT_UDP6` and `SW_EVENT_UNIX_DGRAM`. -/
inductive DgramType where
  | udp
  | udp6
  | unixDgram
  deriving DecidableEq, Repr

/-- Where a datagram comes from.  Of a `sockaddr_un` only the text of `sun_path` counts. -/
inductive DgramSource where
  | v4 (address : Vector UInt8 4) (port : UInt16)
  | v6 (address : Vector UInt8 16) (port : UInt16)
  | un (path : Bytes) (short : path.length < 108)

/-- A datagram that `recvfrom` returns, and what is on the stack at that moment: the bytes
of `pkt` that are not set, and those of `packet` that are not received. -/
structure Datagram where
  fromFd : ℕ
  source : DgramSource
  payload : Bytes
  unset : ℕ → UInt8
  stale : ℕ → UInt8

/-- A call of `onPacket`: what the PHP callback is given. -/
structure Packet where
  type : DgramType
  serverSocket : ℕ
  address : Bytes
  port : ℕ
  data : Bytes
  deriving DecidableEq, Repr

/-- The message that one `dispatch` sends. -/
structure DgramTask where
  type : DgramType
  fromFd : ℕ
  fromId : ℕ
  data : Bytes
  deriving DecidableEq, Repr

namespace Datagram

variable (d : Datagram)

def type : DgramType :=
  match d.source with
  | .v4 .. => .udp
  | .v6 .. => .udp6
  | .un .. => .unixDgram

def port : ℕ :=
  match d.source with
  | .v4 _ port | .v6 _ port => port.toNat
  | .un .. => 0

/-- The sender's address or path, a path with its terminating zero. -/
def address : Bytes :=
  match d.source with
  | .v4 address _ => address.toList
  | .v6 address _ => address.toList
  | .un path _ => path ++ [0]

/-- The call of `onPacket` that the datagram asks for; `from_fd` is a `uint8_t`. -/
def packet : Packet where
  type := d.type
  serverSocket := d.fromFd % 2 ^ 8
  address := d.address
  port := d.port
  data := d.payload

/-! ## `swReactorThread_onPackage` -/

/-- What `recvfrom` stores in `packet`. -/
def received : Bytes := d.payload.take bufferSizeUdp

/-- What is copied in between the header and the payload. -/
def path : Bytes :=
  match d.source with
  | .un path _ => path ++ [0]
  | _ => []

/-- `pkt.length`, which counts the path as well. -/
def length : ℕ := d.received.length + d.path.length

def headerSize : ℕ := dgramPacketSize + d.path.length

/-- The union at the start of a `swDgramPacket`. -/
def addr : Bytes :=
  match d.source with
  | .v4 address _ => address.toList ++ (List.range 12).map fun i => d.unset (4 + i)
  | .v6 address _ => address.toList
  | .un path _ =>
    bytes 2 (path.length + 1) ++ (List.range 14).map fun i => d.unset (2 + i)

/-- `pkt`, byte by byte. -/
def header : Bytes :=
  d.addr ++ bytes 2 d.port ++ [d.unset 18, d.unset 19] ++
    bytes 4 d.length

/-- The bytes of `packet` from `start` on. -/
def cells (start count : ℕ) : Bytes :=
  (List.range count).map fun i => d.received.getD (start + i) (d.stale (start + i))

/-- `task.data.info.len` of the first chunk. -/
def firstLen : ℕ :=
  if bufferSize - dgramPacketSize < d.length then bufferSize else d.length + dgramPacketSize

/-- The first chunk. -/
def first : Bytes := d.header ++ d.path ++ d.cells 0 (d.firstLen - d.headerSize)

/-- `send_n` before the first chunk. -/
def sendN : ℕ := d.length + d.headerSize

end Datagram

/-- `swReactorThread_onPackage` before one of its dispatches; `started` is whether the first
chunk has been sent. -/
structure DgramSend where
  datagram : Datagram
  started : Bool
  sendN : ℕ
  offset : ℕ

namespace DgramSend

variable (x : DgramSend)

/-- `task.data.info.len`. -/
def len : ℕ :=
  if x.started then if bufferSize < x.sendN then bufferSize else x.sendN
  else x.datagram.firstLen

/-- The chunk that is sent next. -/
def data : Bytes := if x.started then x.datagram.cells x.offset x.len else x.datagram.first

def task (fromId : ℕ) : DgramTask where
  type := x.datagram.type
  fromFd := x.datagram.fromFd % 2 ^ 8
  fromId := fromId
  data := x.data

/-- What is left to do behind a chunk. -/
def advance : Option DgramSend :=
  if x.sendN - x.len = 0 then none
  else
    some
      { x with
        started := true
        sendN := x.sendN - x.len
        offset := if x.started then x.offset + x.len else bufferSize - x.datagram.headerSize }

end DgramSend

/-- A thread that serves a datagram port; `targetWorker` is `SwooleTG.factory_target_worker`. -/
structure DgramThread where
  sending : Option DgramSend
  targetWorker : Option ℕ
  arrived : List Datagram
  assigned : List (ℕ × Datagram)

/-- The server as far as datagrams are concerned. -/
structure DgramServer where
  threads : ℕ → DgramThread
  queues : ℕ → List DgramTask
  buffers : ℕ → ℕ → SwString
  packets : ℕ → ℕ → List Packet
  /-- The worker has failed an assertion or written outside of a block. -/
  aborted : ℕ → Bool

/-- The page size, and the size that merge buffers begin with. -/
structure DgramSettings where
  pagesize : ℕ
  bufferInputSize : ℕ
  pagesize_lt : pagesize < 2 ^ 31

namespace DgramServer

inductive Event where
  /-- `recvfrom` returns a datagram. -/
  | receive (thread : ℕ) (d : Datagram)
  /-- The next `dispatch` of a thread; `scheduled` is what `swServer_worker_schedule` would
  choose, and `written` whether the write to the pipe succeeds. -/
  | chunk (thread scheduled : ℕ) (written : Bool)
  /-- A worker takes the next message from its pipe. -/
  | task (worker : ℕ)

/-- Before the first datagram; `fresh` is what the allocator left in the merge buffers. -/
def initial (cfg : DgramSettings) (fresh : ℕ → UInt8) : DgramServer where
  threads := fun _ => ⟨none, none, [], []⟩
  queues := fun _ => []
  buffers := fun _ _ => .new fresh cfg.bufferInputSize
  packets := fun _ _ => []
  aborted := fun _ => false

variable (cfg : DgramSettings) (s : DgramServer)

def setThread (thread : ℕ) (th : DgramThread) : DgramServer :=
  { s with threads := update s.threads thread th }

/-- `swReactorThread_onPackage` up to its first dispatch; a datagram without a payload is
not passed on. -/
def receive (thread : ℕ) (d : Datagram) : DgramServer :=
  let th := s.threads thread
  match th.sending with
  | some _ => s
  | none =>
    s.setThread thread
      { th with
        arrived := th.arrived ++ [d]
        sending := if 0 < d.received.length then some ⟨d, false, d.sendN, 0⟩ else none }

/-- `swFactoryProcess_dispatch`, and what `swReactorThread_onPackage` does behind it.  If the
first dispatch fails it returns and leaves the target locked. -/
def dispatch (thread scheduled : ℕ) (written : Bool) : DgramServer :=
  let th := s.threads thread
  match th.sending with
  | none => s
  | some x =>
    let target := th.targetWorker.getD scheduled
    if written then
      let next := x.advance
      { s with queues := update s.queues target (s.queues target ++ [x.task thread]) }
        |>.setThread thread
          { th with
            sending := next
            targetWorker := if next.isSome then some target else none
            assigned :=
              if x.started then th.assigned else th.assigned ++ [(target, x.datagram)] }
    else
      s.setThread thread
        { th with
          sending := none
          targetWorker := if x.started then none else some target }

/-! ## The worker -/

/-- `header->length`. -/
def headerLength (package : SwString) : ℕ := value (package.cells 20 4)

/-- `swString_append_ptr`, and the length of the datagram if it is not known yet. -/
def merge (package : SwString) (data : Bytes) : Option SwString :=
  (package.appendPtr cfg.pagesize data).map fun p =>
    if p.1.offset = 0 then { p.1 with offset := headerLength p.1 } else p.1

/-- The datagram is complete; the difference is a `size_t`. -/
def Complete (package : SwString) : Prop :=
  package.offset = toSizeT (package.data.length - dgramPacketSize : ℤ)
  deriving Decidable

/-- `php_swoole_onPacket`: what it finds in the merge buffer. -/
def onPacket (package : SwString) (task : DgramTask) : Packet :=
  let length := headerLength package
  match task.type with
  | .udp =>
    ⟨.udp, task.fromFd, package.cells 0 4, value (package.cells 16 2),
      package.cells dgramPacketSize length⟩
  | .udp6 =>
    ⟨.udp6, task.fromFd, package.cells 0 16, value (package.cells 16 2),
      package.cells dgramPacketSize length⟩
  | .unixDgram =>
    let pathLength := value (package.cells 0 2)
    ⟨.unixDgram, task.fromFd, package.cells dgramPacketSize pathLength, 0,
      package.cells (dgramPacketSize + pathLength) (length - pathLength)⟩

def setBuffer (worker thread : ℕ) (package : SwString) : DgramServer :=
  { s with
    buffers := update s.buffers worker
      (update (s.buffers worker) thread package) }

/-- `swWorker_onTask` behind the merging; `none` is an append that failed. -/
def onMerged (worker : ℕ) (task : DgramTask) : Option SwString → DgramServer
  | none => { s with aborted := update s.aborted worker true }
  | some package =>
    if Complete package then
      { s.setBuffer worker task.fromId package.clear with
        packets := update s.packets worker
          (update (s.packets worker) task.fromId
            (s.packets worker task.fromId ++ [onPacket package task])) }
    else s.setBuffer worker task.fromId package

/-- `swWorker_onTask` for a chunk of a datagram. -/
def onTask (worker : ℕ) (task : DgramTask) : DgramServer :=
  s.onMerged worker task (merge cfg (s.buffers worker task.fromId) task.data)

def step (cfg : DgramSettings) (s : DgramServer) : Event → DgramServer
  | .receive thread d => s.receive thread d
  | .chunk thread scheduled written => s.dispatch thread scheduled written
  | .task worker =>
    if s.aborted worker then s
    else
      match s.queues worker with
      | [] => s
      | task :: rest =>
        { s with queues := update s.queues worker rest }.onTask cfg worker task

/-! ## Delivery -/

/-- The datagrams of a thread that were given to a worker. -/
def assignedTo (worker thread : ℕ) : List Datagram :=
  ((s.threads thread).assigned.filter (·.1 = worker)).map Prod.snd

/-- Nothing of a thread is on its way to a worker. -/
def Settled (worker thread : ℕ) : Prop :=
  (∀ task ∈ s.queues worker, task.fromId ≠ thread) ∧
    ∀ x ∈ (s.threads thread).sending, x.started = true →
      (s.threads thread).targetWorker ≠ some worker

/-- **Delivery**: each datagram that arrived was given to one worker, apart from the one the
thread has not sent anything of yet; the calls of `onPacket` that a worker has made for a
thread are those for the datagrams it was given, from the first one on; and when nothing is on
its way they are all of them, and the merge buffer is empty. -/
structure Delivered : Prop where
  assigned : ∀ thread, (s.threads thread).arrived =
    (s.threads thread).assigned.map Prod.snd ++
      ((s.threads thread).sending.toList.filter (!·.started)).map (·.datagram)
  packets : ∀ worker thread,
    s.packets worker thread <+: (s.assignedTo worker thread).map Datagram.packet
  settled : ∀ worker thread, s.Settled worker thread →
    s.packets worker thread = (s.assignedTo worker thread).map Datagram.packet ∧
      (s.buffers worker thread).data = []

/-- **The condition on an event**: a datagram comes from a UDP port, has a payload, and one
that `recvfrom` does not cut off; and the pipe takes every message. -/
def Deliverable : Event → Prop
  | .receive _ d => d.type ≠ .unixDgram ∧ 0 < d.payload.length ∧ d.payload.length ≤ bufferSizeUdp
  | .chunk _ _ written => written = true
  | .task _ => True

instance (event : Event) : Decidable (Deliverable event) := by
  unfold Deliverable
  split <;> infer_instance

end DgramServer

end Swoole
