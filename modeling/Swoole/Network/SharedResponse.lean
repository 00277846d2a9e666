import Swoole.Library.StepRun
import Swoole.Network.ResponseQueue

/-!
# Large responses through shared memory

A worker process answers a client through a pipe to the reactor thread of the connection.
A response that does not fit a pipe message is put into `send_shm`, a block of memory that
the worker shares with the reactor threads, and the message only says how long it is and
whose block it is in.  The block holds one response, and `worker->lock` guards it: the worker
takes the lock before it copies the response in, and *the reactor thread* releases it, in
another process, once it has passed the response on.

Messages of all workers share the pipes, the kernel may refuse a message for the moment, in
which case it waits in the worker's out buffer, and neither the copying nor the passing on is
a single step.  `step` takes any of the parties one step further:

* a worker in `swFactoryProcess_finish` (`FinishStage` is its place there);
* a message on its way (`Place`), which ends inside a call of `swReactorThread_send` if the
  response is a large one (`SendCall`, on a connection as in `Swoole.Network.ResponseQueue`);
* a task worker in `swTaskWorker_finish`, which takes the same lock for a result of its own.

`intact_run` says that nobody writes to the block between the copy and the release, so that an
open connection gets the response whole, unless `swReactorThread_send` takes its length for a
negative one.
-/

open List Function

namespace Swoole

/-- The settings that decide about a response. -/
structure PipeSettings extends ResponseSettings where
  reactorNum : ℕ
  reactorPipeNum : ℕ
  /-- `buffer_output_size` is a `uint32_t`. -/
  bufferOutputSize_lt : bufferOutputSize < 2 ^ 32

/-- The event types that a worker sends to a reactor thread. -/
inductive SendType where
  | tcp
  | close
  | sendfile
  | denyRequest
  | denyExit
  deriving DecidableEq, Repr

/-- `swSendData`.  A `length` of zero says that the data fits a pipe message. -/
structure SendData where
  fd : ℕ
  type : SendType
  length : ℕ
  data : Bytes
  deriving DecidableEq, Repr

/-- What follows the head of a pipe message: the data itself (`SW_RESPONSE_SMALL`), or a
`swPackage_response` (`SW_RESPONSE_BIG`). -/
inductive PipeContent where
  | small (data : Bytes)
  | big (length : ℤ) (workerId : ℕ)
  deriving DecidableEq, Repr

structure PipeMessage where
  fd : ℕ
  type : SendType
  content : PipeContent
  deriving DecidableEq, Repr

/-- A connection, as `swFactoryProcess_finish` finds it. -/
structure FinishConn where
  closed : Bool
  removed : Bool
  overflow : Bool
  fromId : ℕ
  deriving DecidableEq, Repr

/-- The place of a worker in `swFactoryProcess_finish`: outside, waiting for the lock, having
copied so many bytes, or about to write the message to a pipe. -/
inductive FinishStage where
  | idle
  | locking (resp : SendData) (fromId : ℕ)
  | storing (resp : SendData) (fromId copied : ℕ)
  | sending (pipe : ℕ) (message : PipeMessage)
  deriving DecidableEq, Repr

/-- A call of `swReactorThread_send`: the connection as the call found it, and as it is now.
`registered` is whether `reactor->set` knows the descriptor. -/
structure SendCall where
  found : ResponseConn
  now : ResponseConn
  registered : Bool
  deriving DecidableEq

namespace SendCall

variable (cfg : PipeSettings) (data : Bytes) (call : SendCall)

/-- `swReactorThread_send`, up to the first `send`. -/
def start (conn : ResponseConn) (registered : Bool) : SendCall :=
  ⟨conn, conn.reactorSend cfg.toResponseSettings data registered, registered⟩

/-- The call waits for the result of a `send`. -/
def waits : Bool :=
  match call.now.call with
  | .direct _ => true
  | _ => false

/-- The result of the `send`, if there was one. -/
def answer (a : SendAnswer) : SendCall :=
  if call.waits then
    { call with now := call.now.directSent cfg.toResponseSettings data a call.registered }
  else call

/-- The connection is there to send to, and no close is queued. -/
structure Open : Prop where
  removed : call.found.removed = false
  close : .close ∉ call.found.chunks
  registered : call.registered = true

/-- The data goes to the client, behind what the connection had got before. -/
def Whole : Prop := call.now.handed = call.found.handed ++ data

/-- On an open connection the call waits with everything still to send, or the data goes to the
client. -/
structure Follows : Prop where
  outcome : call.Open → data.length < 2 ^ 31 →
    call.found.chunks = [] ∧ call.now = { call.found with call := .direct data } ∨
      call.waits = false ∧ call.Whole data

variable {cfg data call}

theorem waits_of_idle (h : call.now.call = .idle) : call.waits = false := by
  rw [waits, h]

theorem follows_start (conn : ResponseConn) (registered : Bool) :
    (start cfg data conn registered).Follows data := by
  refine ⟨?_⟩
  rintro ⟨hremoved, hclose, hregistered⟩ hlen
  obtain rfl : registered = true := hregistered
  have hqueued := @ResponseConn.sendData_handed cfg.toResponseSettings conn data data
    hremoved hclose hlen
  simp only [start, ResponseConn.reactorSend]
  split_ifs with hempty
  · -- a direct send, which nothing is queued in front of
    exact .inl ⟨hempty, rfl⟩
  · exact .inr ⟨waits_of_idle hqueued.2, hqueued.1⟩
  · exact .inr ⟨waits_of_idle hqueued.2, hqueued.1⟩

theorem Follows.answer (h : call.Follows data) (a : SendAnswer) :
    (call.answer cfg data a).Follows data := by
  unfold SendCall.answer
  split_ifs with hwaits
  · refine ⟨?_⟩
    rintro ⟨hremoved, hclose, hregistered⟩ hlen
    rcases h.outcome ⟨hremoved, hclose, hregistered⟩ hlen with ⟨hempty, hnow⟩ | ⟨hdone, -⟩
    · rw [show call.registered = true from hregistered, hnow]
      rcases @ResponseConn.directSent_handed cfg.toResponseSettings
        { call.found with call := .direct data } data hremoved hempty hlen a with
          hagain | ⟨hhanded, hidle⟩
      · exact .inl ⟨hempty, hagain⟩
      · exact .inr ⟨waits_of_idle hidle, hhanded⟩
    · -- a call that has its result waits for none
      exact absurd (hwaits.symm.trans hdone) (by decide)
  · exact h

theorem waits_eagain : (call.answer cfg data (.fail .eagain)).waits = false := by
  unfold answer
  split_ifs with hwaits
  · exact waits_of_idle ResponseConn.directSent_call_of_eagain
  · exact Bool.eq_false_iff.mpr hwaits

theorem Follows.whole (h : call.Follows data) (hdone : call.waits = false) (hopen : call.Open)
    (hlen : data.length < 2 ^ 31) : call.Whole data := by
  rcases h.outcome hopen hlen with ⟨-, hnow⟩ | ⟨-, hwhole⟩
  · rw [waits, hnow] at hdone
    cases hdone
  · exact hwhole

end SendCall

/-- A call of `swReactorThread_send` with a large response that has returned: what it was
asked to send, and what became of the connection, if the session still had one. -/
structure Passage where
  fd : ℕ
  length : ℕ
  call : Option SendCall
  deriving DecidableEq

/-- The call was asked to send the response, and an open connection got it whole. -/
structure Passage.Of (p : Passage) (resp : SendData) : Prop where
  fd_eq : p.fd = resp.fd
  length_eq : p.length = resp.data.length
  whole : ∀ call ∈ p.call, call.Open → resp.data.length < 2 ^ 31 → call.Whole resp.data

/-- `swWorker`.  `stored` and `passed` are history: the responses that were copied to
`send_shm`, and what the reactor threads made of it. -/
structure ShmWorker where
  lock : Bool
  sendShm : Bytes
  stage : FinishStage
  /-- A task worker is between taking and releasing the lock. -/
  taskHolds : Bool
  stored : List SendData
  passed : List Passage
  deriving DecidableEq

/-- Where a message is: in the out buffer that a worker has for the pipe, in the pipe, or
inside a call of `swReactorThread_send`, which finds the connection of the session or not. -/
inductive Place where
  | backlog (worker : ℕ)
  | kernel
  | reactor (call : Option SendCall)
  deriving DecidableEq

/-- A message on its way. -/
structure Flight where
  pipe : ℕ
  place : Place
  message : PipeMessage
  deriving DecidableEq

/-- How the kernel answers the write of a message to a pipe. -/
inductive PipeAnswer where
  | taken
  | again
  | error
  deriving DecidableEq, Repr

/-- The workers, and the messages on their way, oldest first in each place. -/
structure ShmServer where
  workers : ℕ → ShmWorker
  flights : List Flight

/-- Memory after a write of `piece` at `start`. -/
def overwrite (memory : Bytes) (start : ℕ) (piece : Bytes) : Bytes :=
  memory.take start ++ piece ++ memory.drop (start + piece.length)

theorem overwrite_length {memory piece : Bytes} {start : ℕ}
    (h : start + piece.length ≤ memory.length) :
    (overwrite memory start piece).length = memory.length := by
  simp only [overwrite, length_append, length_take, length_drop]
  omega

theorem take_overwrite {memory piece : Bytes} {start : ℕ}
    (h : start + piece.length ≤ memory.length) :
    (overwrite memory start piece).take (start + piece.length) = memory.take start ++ piece := by
  have hlen : (memory.take start ++ piece).length = start + piece.length := by
    rw [length_append, length_take, min_eq_left (by omega)]
  rw [overwrite, ← hlen, take_left]

namespace Flight

/-- The message announces a large response of the worker. -/
def largeOf (id : ℕ) (f : Flight) : Bool :=
  match f.message.content with
  | .small _ => false
  | .big _ workerId => workerId = id

/-- The call of `swReactorThread_send` that the message is in. -/
def call (f : Flight) : Option SendCall :=
  match f.place with
  | .reactor call => call
  | _ => none

/-- The message is inside a call of `swReactorThread_send`. -/
def atReactor (f : Flight) : Bool :=
  match f.place with
  | .reactor _ => true
  | _ => false

theorem call_eq_none {f : Flight} (h : f.atReactor = false) : f.call = none := by
  unfold atReactor at h
  unfold call
  split at h
  · cases h
  · rfl

/-- The first message that meets `p`, and the others. -/
def pick (p : Flight → Bool) (flights : List Flight) : Option (Flight × List Flight) :=
  (flights.find? p).map fun f => (f, flights.eraseP p)

theorem pick_spec {p : Flight → Bool} {flights rest : List Flight} {f : Flight}
    (h : pick p flights = some (f, rest)) :
    ∃ front back, flights = front ++ f :: back ∧ rest = front ++ back ∧ p f = true := by
  obtain ⟨f', hfind, heq⟩ := Option.map_eq_some_iff.mp h
  obtain ⟨rfl, rfl⟩ := Prod.mk.inj heq
  obtain ⟨hp, front, back, rfl, hfront⟩ := find?_eq_some_iff_append.mp hfind
  refine ⟨front, back, rfl, ?_, hp⟩
  rw [eraseP_append_right _ (fun a ha => by simpa using hfront a ha), eraseP_cons_of_pos hp]

end Flight

namespace ShmServer

/-- Before the first response; the shared memory is zeroed. -/
def initial (cfg : PipeSettings) : ShmServer where
  workers _ :=
    { lock := false
      sendShm := replicate cfg.bufferOutputSize 0
      stage := .idle
      taskHolds := false
      stored := []
      passed := [] }
  flights := []

inductive Event where
  /-- `swServer_tcp_send`; `conn` is what `swServer_connection_verify` finds. -/
  | send (worker fd : ℕ) (data : Bytes) (conn : Option FinishConn)
  /-- `swServer_tcp_sendfile`; `readable` is what `access` answers. -/
  | sendfile (worker fd : ℕ) (filename : Bytes) (readable : Bool) (conn : Option FinishConn)
  /-- The close message at the end of `swFactoryProcess_end`. -/
  | close (worker fd : ℕ) (conn : Option FinishConn)
  /-- `swServer_tcp_deny_request` and `swServer_tcp_deny_exit`. -/
  | deny (worker target : ℕ) (exit : Bool)
  /-- `worker->lock.lock` returns, if the lock is free. -/
  | lock (worker : ℕ)
  /-- The `memcpy` to `send_shm` copies so many more bytes. -/
  | copy (worker count : ℕ)
  /-- `swWorker_send2reactor`. -/
  | write (worker : ℕ) (answer : PipeAnswer)
  /-- The kernel takes the first message of an out buffer. -/
  | flush (worker pipe : ℕ)
  /-- A reactor thread reads a message from a pipe; `conn` is what `swServer_connection_verify`
  finds. -/
  | receive (pipe : ℕ) (conn : Option ResponseConn) (registered : Bool)
  /-- `swReactorThread_send` returns, or gets the result of a `send` first. -/
  | sent (pipe : ℕ) (a : SendAnswer)
  | taskLock (worker : ℕ)
  | taskUnlock (worker : ℕ)
  deriving DecidableEq

variable (cfg : PipeSettings) (s : ShmServer)

def modifyWorker (id : ℕ) (f : ShmWorker → ShmWorker) : ShmServer :=
  { s with workers := Function.update s.workers id (f (s.workers id)) }

/-! ## The worker -/

/-- The response `swServer_tcp_send` asks for; `none` is more than the output buffer. -/
def tcpSend (fd : ℕ) (data : Bytes) : Option SendData :=
  if cfg.bufferOutputSize ≤ data.length then none
  else if bufferSize ≤ data.length then some ⟨fd, .tcp, data.length, data⟩
  else some ⟨fd, .tcp, 0, data⟩

/-- The response `swServer_tcp_sendfile` asks for: the file name with its terminating zero. -/
def tcpSendfile (fd : ℕ) (filename : Bytes) (readable : Bool) : Option SendData :=
  if bufferSize - 1 < filename.length then none
  else if readable then some ⟨fd, .sendfile, 0, filename ++ [0]⟩
  else none

/-- The pipe that `swWorker_send2reactor` picks. -/
def pipeWorkerId (fromId fd : ℕ) : ℕ := fromId + fd % cfg.reactorPipeNum * cfg.reactorNum

/-- `swFactoryProcess_finish` up to the first thing it may have to wait for. -/
def finish (resp : SendData) : Option FinishConn → FinishStage
  | none => .idle
  | some conn =>
    if (conn.closed = true ∨ conn.removed = true) ∧ resp.type ≠ .close then .idle
    else if conn.overflow then .idle
    else if 0 < resp.length then .locking resp conn.fromId
    else
      .sending (pipeWorkerId cfg conn.fromId resp.fd) ⟨resp.fd, resp.type, .small resp.data⟩

/-- A worker that is not inside a call begins one. -/
def begin (id : ℕ) (stage : FinishStage) : ShmServer :=
  match (s.workers id).stage with
  | .idle => s.modifyWorker id fun k => { k with stage := stage }
  | _ => s

/-- A call of `swFactoryProcess_finish` with a response that passed the checks before it. -/
def beginFinish (id : ℕ) (resp : Option SendData) (conn : Option FinishConn) : ShmServer :=
  match resp with
  | none => s
  | some resp => s.begin id (finish cfg resp conn)

/-- The message of `swServer_tcp_deny_request` and `swServer_tcp_deny_exit`. -/
def denyMessage (exit : Bool) : PipeMessage :=
  ⟨0, if exit then .denyExit else .denyRequest, .small ['0'.toUInt8]⟩

/-- The lock is free, so the worker gets it; otherwise it goes on waiting. -/
def acquire (k : ShmWorker) : ShmWorker :=
  match k.stage with
  | .locking resp fromId =>
    if k.lock then k else { k with lock := true, stage := .storing resp fromId 0 }
  | _ => k

/-- Some more bytes of the response are copied; after the last one the message is ready. -/
def copyStep (id count : ℕ) (k : ShmWorker) : ShmWorker :=
  match k.stage with
  | .storing resp fromId copied =>
    let piece := ((resp.data.take resp.length).drop copied).take count
    let k' := { k with sendShm := overwrite k.sendShm copied piece }
    if copied + piece.length < resp.length then
      { k' with stage := .storing resp fromId (copied + piece.length) }
    else
      { k' with
        stage := .sending (pipeWorkerId cfg fromId resp.fd)
          ⟨resp.fd, resp.type, .big (toInt32 resp.length) id⟩
        stored := k.stored ++ [resp] }
  | _ => k

/-- The worker's out buffer for a pipe is not empty. -/
def hasBacklog (id pipe : ℕ) : Bool :=
  s.flights.any fun f => decide (f.pipe = pipe ∧ f.place = .backlog id)

/-- `swWorker_send2reactor`: the message goes to the pipe, or behind the messages that wait
for it.  If the write fails the message is lost, and the lock stays taken. -/
def write (id : ℕ) (answer : PipeAnswer) : ShmServer :=
  match (s.workers id).stage with
  | .sending pipe message =>
    let s' := s.modifyWorker id fun k => { k with stage := .idle }
    if s.hasBacklog id pipe then
      { s' with flights := s.flights ++ [⟨pipe, .backlog id, message⟩] }
    else
      match answer with
      | .taken => { s' with flights := s.flights ++ [⟨pipe, .kernel, message⟩] }
      | .again => { s' with flights := s.flights ++ [⟨pipe, .backlog id, message⟩] }
      | .error => s'
  | _ => s

/-- The pipe takes the first message of the worker's out buffer. -/
def flush (id pipe : ℕ) : ShmServer :=
  match Flight.pick (fun f => f.pipe = pipe ∧ f.place = .backlog id) s.flights with
  | none => s
  | some (f, rest) => { s with flights := rest ++ [{ f with place := .kernel }] }

/-! ## The reactor threads -/

/-- The thread that serves the pipe is inside a call of `swReactorThread_send`. -/
def busy (pipe : ℕ) : Bool :=
  s.flights.any fun f => f.atReactor && decide (f.pipe % cfg.reactorNum = pipe % cfg.reactorNum)

/-- The data that the message of a large response stands for. -/
def announced (length : ℤ) (workerId : ℕ) : Bytes :=
  (s.workers workerId).sendShm.take (toUInt32 length)

/-- `swReactorThread_onPipeReceive` at the next message of a pipe.  A message that denies
requests only sets a flag of a worker; the bytes of a small response are in the message. -/
def receive (pipe : ℕ) (conn : Option ResponseConn) (registered : Bool) : ShmServer :=
  if s.busy cfg pipe then s
  else
    match Flight.pick (fun f => f.pipe = pipe ∧ f.place = .kernel) s.flights with
    | none => s
    | some (f, rest) =>
      if f.message.type = .denyRequest ∨ f.message.type = .denyExit then
        { s with flights := rest }
      else
        match f.message.content with
        | .small _ => { s with flights := rest }
        | .big length workerId =>
          let call := conn.map (SendCall.start cfg (s.announced length workerId) · registered)
          { s with flights := rest ++ [{ f with place := .reactor call }] }

/-- The call of `swReactorThread_send` goes on; once it has returned, the lock is released. -/
def sent (pipe : ℕ) (a : SendAnswer) : ShmServer :=
  match Flight.pick (fun f => f.pipe = pipe ∧ f.atReactor) s.flights with
  | none => s
  | some (f, rest) =>
    match f.message.content with
    | .small _ => s
    | .big length workerId =>
      let call := f.call.map (SendCall.answer cfg (s.announced length workerId) · a)
      if call.any SendCall.waits then
        { s with flights := rest ++ [{ f with place := .reactor call }] }
      else
        let passage : Passage := ⟨f.message.fd, toUInt32 length, call⟩
        { s with flights := rest }.modifyWorker workerId fun k =>
          { k with lock := false, passed := k.passed ++ [passage] }

/-! ## The task workers -/

def taskLock (k : ShmWorker) : ShmWorker :=
  if k.lock then k else { k with lock := true, taskHolds := true }

def taskUnlock (k : ShmWorker) : ShmWorker :=
  if k.taskHolds then { k with lock := false, taskHolds := false } else k

def step (cfg : PipeSettings) (s : ShmServer) : Event → ShmServer
  | .send id fd data conn => s.beginFinish cfg id (tcpSend cfg fd data) conn
  | .sendfile id fd filename readable conn =>
    s.beginFinish cfg id (tcpSendfile fd filename readable) conn
  | .close id fd conn => s.beginFinish cfg id (some ⟨fd, .close, 0, []⟩) conn
  | .deny id target exit => s.begin id (.sending target (denyMessage exit))
  | .lock id => s.modifyWorker id acquire
  | .copy id count => s.modifyWorker id (copyStep cfg id count)
  | .write id answer => s.write id answer
  | .flush id pipe => s.flush id pipe
  | .receive pipe conn registered => s.receive cfg pipe conn registered
  | .sent pipe a => s.sent cfg pipe a
  | .taskLock id => s.modifyWorker id taskLock
  | .taskUnlock id => s.modifyWorker id taskUnlock

/-! ## Responses arrive intact -/

/-- **Intact**: the responses of a worker that reactor threads passed on are those it stored,
one for one; a call of `swReactorThread_send` that has not returned finds the next stored
response in the memory it was given; and once the lock is free nothing that was stored is
missing. -/
structure Intact (s : ShmServer) (id : ℕ) : Prop where
  passed : ∀ (i : ℕ) (p : Passage), (s.workers id).passed[i]? = some p →
    ∃ resp, (s.workers id).stored[i]? = some resp ∧ p.Of resp
  passing : ∀ f ∈ s.flights, f.atReactor = true → ∀ length, f.message.content = .big length id →
    ∃ resp, (s.workers id).stored[(s.workers id).passed.length]? = some resp ∧
      f.message.fd = resp.fd ∧ s.announced length id = resp.data
  kept : (s.workers id).lock = false →
    (s.workers id).stored.length = (s.workers id).passed.length

end ShmServer

/-! ## The invariant of one worker -/

namespace PipeMessage

def isBig (m : PipeMessage) : Bool :=
  match m.content with
  | .small _ => false
  | .big _ _ => true

end PipeMessage

namespace FinishStage

/-- The worker holds the lock, for a response that is not on its way yet. -/
def holds : FinishStage → Bool
  | .storing .. => true
  | .sending _ message => message.isBig
  | _ => false

def isStoring : FinishStage → Bool
  | .storing .. => true
  | _ => false

end FinishStage

/-- A large response as `swServer_tcp_send` lets it through. -/
def SendData.Fits (cfg : PipeSettings) (resp : SendData) : Prop :=
  resp.length = resp.data.length ∧ resp.data.length < cfg.bufferOutputSize

/-- A stage that a call begins with: it holds nothing, and a response that waits for the lock is
data that fits the memory. -/
inductive FinishStage.Opening (cfg : PipeSettings) : FinishStage → Prop
  | idle : Opening cfg .idle
  | locking {resp : SendData} {fromId : ℕ} (hfits : resp.Fits cfg) (htype : resp.type = .tcp) :
      Opening cfg (.locking resp fromId)
  | sending {pipe : ℕ} {message : PipeMessage} (hsmall : message.isBig = false) :
      Opening cfg (.sending pipe message)

namespace ShmServer

/-- A call that begins with the data of the message, or goes on with it, keeps to the data. -/
def Goes (s : ShmServer) (f : Flight) (length : ℤ) (id : ℕ) (call : Option SendCall) : Prop :=
  (∀ c ∈ f.call, c.Follows (s.announced length id)) →
    ∀ c ∈ call, c.Follows (s.announced length id)

/-- **What a step can do.**  `Lost` is to hold of a worker whose message is lost although it
announces a large response. -/
inductive Change (cfg : PipeSettings) (Lost : ℕ → Prop) (s : ShmServer) : ShmServer → Prop
  | stay : Change cfg Lost s s
  | begin {id : ℕ} {stage : FinishStage} (hidle : (s.workers id).stage = .idle)
      (hstage : stage.Opening cfg) :
      Change cfg Lost s (s.modifyWorker id fun k => { k with stage := stage })
  | acquire (id : ℕ) : Change cfg Lost s (s.modifyWorker id acquire)
  | copy (id count : ℕ) : Change cfg Lost s (s.modifyWorker id (copyStep cfg id count))
  | taskLock (id : ℕ) : Change cfg Lost s (s.modifyWorker id taskLock)
  | taskUnlock (id : ℕ) : Change cfg Lost s (s.modifyWorker id taskUnlock)
  | depart {id pipe : ℕ} {f : Flight} (hstage : (s.workers id).stage = .sending pipe f.message)
      (hf : f.atReactor = false) :
      Change cfg Lost s { s.modifyWorker id (fun k => { k with stage := .idle }) with
        flights := s.flights ++ [f] }
  | leave {id pipe : ℕ} {message : PipeMessage}
      (hstage : (s.workers id).stage = .sending pipe message)
      (hlost : message.isBig = true → Lost id) :
      Change cfg Lost s (s.modifyWorker id fun k => { k with stage := .idle })
  | move {p : Flight → Bool} {f : Flight} {rest : List Flight}
      (hpick : Flight.pick p s.flights = some (f, rest)) :
      Change cfg Lost s { s with flights := rest ++ [{ f with place := .kernel }] }
  | pass {p : Flight → Bool} {f : Flight} {rest : List Flight} {length : ℤ} {id : ℕ}
      {call : Option SendCall} (hpick : Flight.pick p s.flights = some (f, rest))
      (hcontent : f.message.content = .big length id)
      (hcall : s.Goes f length id call) :
      Change cfg Lost s { s with flights := rest ++ [{ f with place := .reactor call }] }
  | discard {p : Flight → Bool} {f : Flight} {rest : List Flight}
      (hpick : Flight.pick p s.flights = some (f, rest))
      (hsmall : f.message.isBig = true →
        f.message.type = .denyRequest ∨ f.message.type = .denyExit) :
      Change cfg Lost s { s with flights := rest }
  | release {p : Flight → Bool} {f : Flight} {rest : List Flight} {length : ℤ} {id : ℕ}
      {call : Option SendCall} (hpick : Flight.pick p s.flights = some (f, rest))
      (hcontent : f.message.content = .big length id)
      (hcall : s.Goes f length id call) (hdone : call.any SendCall.waits = false) :
      Change cfg Lost s ({ s with flights := rest }.modifyWorker id fun k =>
        { k with
          lock := false
          passed := k.passed ++ [(⟨f.message.fd, toUInt32 length, call⟩ : Passage)] })

variable {cfg : PipeSettings} {Lost : ℕ → Prop} {s : ShmServer} {id : ℕ}

theorem change_begin {stage : FinishStage} (hstage : stage.Opening cfg) :
    Change cfg Lost s (s.begin id stage) := by
  unfold ShmServer.begin
  split
  next hidle => exact .begin hidle hstage
  · exact .stay

theorem change_beginFinish {resp : Option SendData} {conn : Option FinishConn}
    (hresp : ∀ r ∈ resp, 0 < r.length → r.Fits cfg ∧ r.type = .tcp) :
    Change cfg Lost s (s.beginFinish cfg id resp conn) := by
  match resp, conn with
  | none, _ => exact .stay
  | some resp, none => exact change_begin .idle
  | some resp, some conn =>
    refine change_begin ?_
    simp only [finish]
    split_ifs with _ _ hlen
    · exact .idle
    · exact .idle
    · exact .locking (hresp resp rfl hlen).1 (hresp resp rfl hlen).2
    · exact .sending rfl

/-- `swServer_tcp_send` lets no response through that is larger than the memory. -/
theorem tcpSend_large {fd : ℕ} {data : Bytes} :
    ∀ r ∈ tcpSend cfg fd data, 0 < r.length → r.Fits cfg ∧ r.type = .tcp := by
  intro r hr hlen
  simp only [tcpSend] at hr
  split_ifs at hr with hmax hbig
  · cases hr
  · cases hr
    exact ⟨⟨rfl, by simpa using hmax⟩, rfl⟩
  · cases hr
    exact absurd hlen (lt_irrefl 0)

theorem tcpSendfile_length {fd : ℕ} {filename : Bytes} {readable : Bool} :
    ∀ r ∈ tcpSendfile fd filename readable, r.length = 0 := by
  intro r hr
  simp only [tcpSendfile] at hr
  split_ifs at hr <;> cases hr
  rfl

theorem change_write (answer : PipeAnswer)
    (hlost : ∀ pipe message, answer = .error → (s.workers id).stage = .sending pipe message →
      s.hasBacklog id pipe = false → message.isBig = true → Lost id) :
    Change cfg Lost s (s.write id answer) := by
  unfold ShmServer.write
  split
  case h_2 => exact .stay
  case h_1 pipe message hstage =>
    split_ifs with hbacklog
    · exact .depart (f := ⟨pipe, .backlog id, message⟩) hstage rfl
    · cases answer with
      | taken => exact .depart (f := ⟨pipe, .kernel, message⟩) hstage rfl
      | again => exact .depart (f := ⟨pipe, .backlog id, message⟩) hstage rfl
      | error =>
        exact .leave hstage (hlost pipe message rfl hstage (Bool.eq_false_iff.mpr hbacklog))

theorem goes_start (f : Flight) (length : ℤ) (conn : Option ResponseConn) (registered : Bool) :
    s.Goes f length id (conn.map (SendCall.start cfg (s.announced length id) · registered)) := by
  intro _ call hcall
  obtain ⟨c, -, rfl⟩ := Option.mem_map.mp hcall
  exact SendCall.follows_start c registered

theorem goes_answer (f : Flight) (length : ℤ) (a : SendAnswer) :
    s.Goes f length id (f.call.map (SendCall.answer cfg (s.announced length id) · a)) := by
  intro hfollows call hcall
  obtain ⟨c, hc, rfl⟩ := Option.mem_map.mp hcall
  exact (hfollows c hc).answer a

theorem change_receive (pipe : ℕ) (conn : Option ResponseConn) (registered : Bool) :
    Change cfg Lost s (s.receive cfg pipe conn registered) := by
  unfold ShmServer.receive
  split_ifs
  · exact .stay
  · split
    · exact .stay
    next f rest hpick =>
      split_ifs with hdeny
      · exact .discard hpick fun _ => hdeny
      · split
        next data hcontent =>
          refine .discard hpick fun hbig => ?_
          rw [PipeMessage.isBig, hcontent] at hbig
          cases hbig
        next length workerId hcontent =>
          exact .pass hpick hcontent (goes_start f length conn registered)

theorem change_sent (pipe : ℕ) (a : SendAnswer) : Change cfg Lost s (s.sent cfg pipe a) := by
  unfold ShmServer.sent
  split
  · exact .stay
  next f rest hpick =>
    split
    · exact .stay
    next length workerId hcontent =>
      dsimp only
      split_ifs with hwaits
      · exact .pass hpick hcontent (goes_answer f length a)
      · exact .release hpick hcontent (goes_answer f length a) (Bool.eq_false_iff.mpr hwaits)

theorem change_step {event : Event}
    (hlost : ∀ id pipe message, event = .write id .error →
      (s.workers id).stage = .sending pipe message → s.hasBacklog id pipe = false →
      message.isBig = true → Lost id) : Change cfg Lost s (step cfg s event) := by
  cases event with
  | send id fd data conn => exact change_beginFinish tcpSend_large
  | sendfile id fd filename readable conn =>
    refine change_beginFinish fun r hr hlen => ?_
    exact absurd (tcpSendfile_length r hr) (ne_of_gt hlen)
  | close id fd conn =>
    show Change cfg Lost s (s.beginFinish cfg id (some ⟨fd, .close, 0, []⟩) conn)
    refine change_beginFinish fun r hr hlen => ?_
    cases hr
    exact absurd hlen (lt_irrefl 0)
  | deny id target exit => exact change_begin (.sending rfl)
  | lock id => exact .acquire id
  | copy id count => exact .copy id count
  | write id answer =>
    exact change_write answer fun pipe message hanswer =>
      hlost id pipe message (congrArg (Event.write id) hanswer)
  | flush id pipe =>
    show Change cfg Lost s (s.flush id pipe)
    unfold ShmServer.flush
    split
    · exact .stay
    next f rest hpick => exact .move hpick
  | receive pipe conn registered => exact change_receive pipe conn registered
  | sent pipe a => exact change_sent pipe a
  | taskLock id => exact .taskLock id
  | taskUnlock id => exact .taskUnlock id

end ShmServer

namespace ShmWorker

/-- The message stands for the last response that was stored: it is the one the reactor
threads have not passed on yet, and `sendShm` still holds it. -/
structure Carries (cfg : PipeSettings) (id : ℕ) (k : ShmWorker) (m : PipeMessage)
    (resp : SendData) : Prop where
  last : k.stored.length = k.passed.length + 1
  stored : k.stored[k.passed.length]? = some resp
  fits : resp.Fits cfg
  fd_eq : m.fd = resp.fd
  content_eq : m.content = .big (toInt32 resp.length) id
  shm : k.sendShm.take resp.data.length = resp.data

/-- What holds at a place in `swFactoryProcess_finish`. -/
def Staged (cfg : PipeSettings) (id : ℕ) (k : ShmWorker) : FinishStage → Prop
  | .idle => True
  | .locking resp _ => resp.Fits cfg
  | .storing resp _ copied =>
    resp.Fits cfg ∧ copied ≤ resp.data.length ∧ k.sendShm.take copied = resp.data.take copied
  | .sending _ message => message.isBig = true → ∃ resp, k.Carries cfg id message resp

/-- **The invariant**, for one worker and the messages `large` on their way that announce a
large response of its own.  The lock has at most one holder: the worker, a task worker or a
message. -/
structure Lane (cfg : PipeSettings) (id : ℕ) (k : ShmWorker) (large : List Flight) : Prop where
  size : k.sendShm.length = cfg.bufferOutputSize
  alone : k.stage.holds.toNat + k.taskHolds.toNat + large.length ≤ k.lock.toNat
  level : k.lock = false ∨ k.taskHolds = true ∨ k.stage.isStoring = true →
    k.stored.length = k.passed.length
  staged : k.Staged cfg id k.stage
  flying : ∀ f ∈ large, ∃ resp, k.Carries cfg id f.message resp ∧
    ∀ call ∈ f.call, call.Follows resp.data
  done : ∀ (i : ℕ) (p : Passage), k.passed[i]? = some p →
    ∃ resp, k.stored[i]? = some resp ∧ p.Of resp

variable {cfg : PipeSettings} {id : ℕ} {k : ShmWorker} {large : List Flight}
  {m : PipeMessage} {resp : SendData}

variable {k' : ShmWorker} {f f' : Flight} {stage : FinishStage}

/-- The length that the reactor reads from the message is the response's. -/
theorem Carries.length_eq {length : ℤ} {owner : ℕ} (h : k.Carries cfg id m resp)
    (hcontent : m.content = .big length owner) :
    owner = id ∧ toUInt32 length = resp.data.length := by
  have hlt := cfg.bufferOutputSize_lt
  have hfits := h.fits.2
  have heq := hcontent.symm.trans h.content_eq
  injection heq with hlength howner
  rw [hlength, h.fits.1]
  exact ⟨howner, toUInt32_toInt32 (by omega)⟩

theorem Carries.congr (h : k.Carries cfg id m resp)
    (hstored : k'.stored = k.stored) (hpassed : k'.passed = k.passed)
    (hshm : k'.sendShm = k.sendShm) : k'.Carries cfg id m resp where
  last := by rw [hstored, hpassed, h.last]
  stored := by rw [hstored, hpassed, h.stored]
  fits := h.fits
  fd_eq := h.fd_eq
  content_eq := h.content_eq
  shm := by rw [hshm, h.shm]

theorem Staged.congr (h : k.Staged cfg id stage) (hstored : k'.stored = k.stored)
    (hpassed : k'.passed = k.passed) (hshm : k'.sendShm = k.sendShm) : k'.Staged cfg id stage := by
  cases stage with
  | idle => trivial
  | locking resp fromId => exact h
  | storing resp fromId copied => exact ⟨h.1, h.2.1, by rw [hshm, h.2.2]⟩
  | sending pipe message =>
    intro hbig
    obtain ⟨resp, hc⟩ := h hbig
    exact ⟨resp, hc.congr hstored hpassed hshm⟩

namespace Lane

variable (h : Lane cfg id k large)

include h

theorem keep {large' : List Flight} (hstored : k'.stored = k.stored)
    (hpassed : k'.passed = k.passed) (hshm : k'.sendShm = k.sendShm)
    (halone : k'.stage.holds.toNat + k'.taskHolds.toNat + large'.length ≤ k'.lock.toNat)
    (hlevel : k'.lock = false ∨ k'.taskHolds = true ∨ k'.stage.isStoring = true →
      k.lock = false ∨ k.taskHolds = true ∨ k.stage.isStoring = true)
    (hstaged : k.Staged cfg id k'.stage)
    (hflying : ∀ f ∈ large', ∃ resp, k.Carries cfg id f.message resp ∧
      ∀ call ∈ f.call, call.Follows resp.data) :
    Lane cfg id k' large' where
  size := by rw [hshm, h.size]
  alone := halone
  level := fun hl => by rw [hstored, hpassed, h.level (hlevel hl)]
  staged := hstaged.congr hstored hpassed hshm
  flying := fun f hf => by
    obtain ⟨resp, hc, hcall⟩ := hflying f hf
    exact ⟨resp, hc.congr hstored hpassed hshm, hcall⟩
  done := by
    rw [hstored, hpassed]
    exact h.done

/-- A worker begins a call, or is done with a message that was not big or that the pipe did
not take. -/
theorem begin (hstage : stage.Opening cfg) : Lane cfg id { k with stage := stage } large := by
  have halone := h.alone
  have hfree : stage.holds = false ∧ stage.isStoring = false ∧ k.Staged cfg id stage := by
    cases hstage with
    | idle => exact ⟨rfl, rfl, trivial⟩
    | locking hfits => exact ⟨rfl, rfl, hfits⟩
    | sending hsmall =>
      exact ⟨hsmall, rfl, fun hbig => absurd (hsmall.symm.trans hbig) (by decide)⟩
  refine h.keep rfl rfl rfl ?_ ?_ hfree.2.2 h.flying
  · simp only [hfree.1, Bool.toNat_false]
    omega
  · rintro (hlock | htask | hstoring)
    · exact .inl hlock
    · exact .inr (.inl htask)
    · exact absurd (hfree.2.1.symm.trans hstoring) (by decide)

theorem acquire : Lane cfg id (ShmServer.acquire k) large := by
  unfold ShmServer.acquire
  split
  case h_2 => exact h
  case h_1 resp fromId hstage =>
    split_ifs with hlock
    · exact h
    · have hfree : k.lock = false := by simpa using hlock
      have halone := h.alone
      have hfits := h.staged
      rw [hstage] at halone hfits
      rw [hfree] at halone
      refine h.keep rfl rfl rfl ?_ (fun _ => .inl hfree) ⟨hfits, Nat.zero_le _, by simp⟩ h.flying
      simp only [FinishStage.holds, Bool.toNat_true, Bool.toNat_false] at halone ⊢
      omega

theorem taskLock : Lane cfg id (ShmServer.taskLock k) large := by
  unfold ShmServer.taskLock
  split_ifs with hlock
  · exact h
  · have hfree : k.lock = false := by simpa using hlock
    have halone := h.alone
    rw [hfree] at halone
    refine h.keep rfl rfl rfl ?_ (fun _ => .inl hfree) h.staged h.flying
    simp only [Bool.toNat_true, Bool.toNat_false] at halone ⊢
    omega

theorem taskUnlock : Lane cfg id (ShmServer.taskUnlock k) large := by
  unfold ShmServer.taskUnlock
  split_ifs with htask
  · have halone := h.alone
    have hle := Bool.toNat_le k.lock
    rw [htask] at halone
    refine h.keep rfl rfl rfl ?_ (fun _ => .inr (.inl htask)) h.staged h.flying
    simp only [Bool.toNat_true, Bool.toNat_false] at halone ⊢
    omega
  · exact h

/-- The copy goes on.  Nobody else holds the lock, so there is no message that the memory
has to be kept for. -/
theorem copyStep (count : ℕ) : Lane cfg id (ShmServer.copyStep cfg id count k) large := by
  unfold ShmServer.copyStep
  split
  case h_2 => exact h
  case h_1 resp fromId copied hstage =>
    have halone := h.alone
    have hlock := Bool.toNat_le k.lock
    have hlevel := h.level (.inr (.inr (by rw [hstage]; rfl)))
    have hstaged := h.staged
    rw [hstage] at halone hstaged
    obtain ⟨⟨hlen, hfits⟩, hcopied, hshm⟩ := hstaged
    simp only [FinishStage.holds, Bool.toNat_true] at halone
    have hnone : large = [] := length_eq_zero_iff.mp (by omega)
    subst hnone
    rw [hlen, take_length]
    generalize hpiece : (resp.data.drop copied).take count = piece
    have hle : copied + piece.length ≤ resp.data.length := by
      rw [← hpiece, length_take, length_drop]
      omega
    have hinside : copied + piece.length ≤ k.sendShm.length := by
      rw [h.size]
      omega
    have hread : (overwrite k.sendShm copied piece).take (copied + piece.length) =
        resp.data.take (copied + piece.length) := by
      have hprefix : piece <+: resp.data.drop copied := hpiece ▸ take_prefix count _
      rw [take_overwrite hinside, hshm, take_add, ← prefix_iff_eq_take.mp hprefix]
    have hsize : (overwrite k.sendShm copied piece).length = cfg.bufferOutputSize := by
      rw [overwrite_length hinside, h.size]
    dsimp only
    split_ifs with hmore
    · exact ⟨hsize, halone, fun _ => hlevel, ⟨⟨hlen, hfits⟩, hle, hread⟩, forall_mem_nil _, h.done⟩
    · have hall : copied + piece.length = resp.data.length := by omega
      rw [hall, take_length] at hread
      refine ⟨hsize, halone, ?_, ?_, forall_mem_nil _, ?_⟩
      · rintro (hfree | htask | hstoring)
        · rw [show k.lock = false from hfree, Bool.toNat_false] at halone
          omega
        · rw [show k.taskHolds = true from htask, Bool.toNat_true] at halone
          omega
        · cases hstoring
      · intro _
        refine ⟨resp, ?_, ?_, ⟨hlen, hfits⟩, rfl, ?_, hread⟩
        · simp [hlevel]
        · simp [← hlevel]
        · rw [hlen]
      · intro i p hp
        obtain ⟨resp', hresp', hof⟩ := h.done i p hp
        exact ⟨resp', by
          rw [List.getElem?_append_left (List.getElem?_eq_some_iff.mp hresp').1, hresp'], hof⟩

theorem depart {pipe : ℕ} (hstage : k.stage = .sending pipe m)
    (hbig : m.isBig = true) (hf : f.message = m) (hcall : f.call = none) :
    Lane cfg id { k with stage := .idle } (large ++ [f]) := by
  have halone := h.alone
  have hstaged := h.staged
  rw [hstage] at halone hstaged
  have hleave := h.begin .idle
  refine hleave.keep rfl rfl rfl ?_ (fun hl => hl) trivial fun f' hf' => ?_
  · simp only [FinishStage.holds, hbig, Bool.toNat_true, Bool.toNat_false, length_append,
      length_singleton] at halone ⊢
    omega
  · rcases mem_append.mp hf' with hold | hnew
    · exact hleave.flying f' hold
    · obtain ⟨resp, hc⟩ := hstaged hbig
      rw [mem_singleton.mp hnew, hf, hcall]
      exact ⟨resp, hc.congr rfl rfl rfl, by simp⟩

theorem large_le : large.length ≤ 1 := by
  have halone := h.alone
  have hlock := Bool.toNat_le k.lock
  omega

end Lane

variable (h : Lane cfg id k [f])
include h

/-- A message moves on, and its call, if it is in one, is still about the response. -/
theorem Lane.move (hmessage : f'.message = f.message)
    (hcall : ∀ resp, k.Carries cfg id f.message resp → (∀ call ∈ f.call, call.Follows resp.data) →
      ∀ call ∈ f'.call, call.Follows resp.data) : Lane cfg id k [f'] := by
  refine h.keep rfl rfl rfl h.alone (fun hl => hl) h.staged fun g hg => ?_
  obtain ⟨resp, hc, hfollows⟩ := h.flying f mem_cons_self
  rw [mem_singleton.mp hg, hmessage]
  exact ⟨resp, hc, hcall resp hc hfollows⟩

/-- A message is thrown away, and with it the right to release the lock. -/
theorem Lane.discard : Lane cfg id k [] := by
  have halone := h.alone
  refine h.keep rfl rfl rfl ?_ (fun hl => hl) h.staged (forall_mem_nil _)
  simp only [length_singleton, length_nil] at halone ⊢
  omega

/-- The reactor thread is done with the response and releases the lock. -/
theorem Lane.release {length : ℤ} {call : Option SendCall}
    (hcontent : f.message.content = .big length id)
    (hcall : (∀ c ∈ f.call, c.Follows (k.sendShm.take (toUInt32 length))) →
      ∀ c ∈ call, c.Follows (k.sendShm.take (toUInt32 length)))
    (hdone : call.any SendCall.waits = false) :
    Lane cfg id
      { k with lock := false, passed := k.passed ++ [⟨f.message.fd, toUInt32 length, call⟩] }
      [] := by
  have halone := h.alone
  have hlock := Bool.toNat_le k.lock
  obtain ⟨resp, hc, hfollows⟩ := h.flying f mem_cons_self
  have hlen := (hc.length_eq hcontent).2
  rw [hlen, hc.shm] at hcall
  have hof : Passage.Of ⟨f.message.fd, toUInt32 length, call⟩ resp := by
    refine ⟨hc.fd_eq, hlen, fun c hmem => ?_⟩
    obtain rfl : call = some c := hmem
    exact (hcall hfollows c rfl).whole hdone
  simp only [length_singleton] at halone
  have hstage : k.stage.holds = false := Bool.toNat_eq_zero.mp (by omega)
  refine ⟨h.size, ?_, ?_, ?_, forall_mem_nil _, ?_⟩
  · simp only [length_nil, Bool.toNat_false]
    omega
  · intro _
    simp [hc.last]
  · have hstaged := h.staged
    cases hk : k.stage with
    | idle => trivial
    | locking resp fromId =>
      rw [hk] at hstaged
      exact hstaged
    | storing resp fromId copied =>
      rw [hk] at hstage
      cases hstage
    | sending pipe message =>
      rw [hk] at hstage
      intro hbig
      exact absurd (hstage.symm.trans hbig) (by decide)
  · intro i p hp
    rcases Nat.lt_trichotomy i k.passed.length with hlt | rfl | hgt
    · rw [getElem?_append_left hlt] at hp
      exact h.done i p hp
    · simp only [getElem?_concat_length, Option.some.injEq] at hp
      subst hp
      exact ⟨resp, hc.stored, hof⟩
    · rw [getElem?_eq_none (by simp; omega)] at hp
      cases hp

end ShmWorker

namespace ShmServer

open ShmWorker StepRun
open Flight (largeOf)

/-! ## The invariant of the server -/

/-- The large responses of a worker that are on their way. -/
def large (s : ShmServer) (id : ℕ) : List Flight := s.flights.filter (largeOf id)

def Inv (cfg : PipeSettings) (s : ShmServer) : Prop :=
  ∀ id, Lane cfg id (s.workers id) (s.large id)

variable {cfg : PipeSettings} {s : ShmServer} {id : ℕ}
variable {p : Flight → Bool} {f f' : Flight} {rest : List Flight} {pipe : ℕ}

theorem inv_initial (cfg : PipeSettings) : Inv cfg (initial cfg) := fun _ =>
  ⟨length_replicate, Nat.le_refl 0, fun _ => rfl, trivial, forall_mem_nil _, by simp [initial]⟩

variable (h : Inv cfg s)
include h

theorem Inv.modifyWorker {f : ShmWorker → ShmWorker}
    (hf : Lane cfg id (s.workers id) (s.large id) → Lane cfg id (f (s.workers id)) (s.large id)) :
    Inv cfg (s.modifyWorker id f) :=
  (forall_update_iff s.workers fun id w => Lane cfg id w (s.large id)).mpr
    ⟨hf (h id), fun id' _ => h id'⟩

variable (hpick : Flight.pick p s.flights = some (f, rest))
include hpick

/-- One message is picked out: it does not concern the worker, or it is the one large
response of the worker that is on its way. -/
theorem Inv.pick (id : ℕ) :
    (f.largeOf id = false ∧ rest.filter (largeOf id) = s.large id) ∨
      (f.largeOf id = true ∧ s.large id = [f] ∧ rest.filter (largeOf id) = []) := by
  obtain ⟨front, back, hflights, rfl, -⟩ := Flight.pick_spec hpick
  have hlarge : s.large id = front.filter (largeOf id) ++
      (f :: back).filter (largeOf id) := by
    rw [large, hflights, filter_append]
  cases hf : f.largeOf id
  · left
    rw [filter_cons_of_neg (by simp [hf])] at hlarge
    exact ⟨rfl, by rw [hlarge, filter_append]⟩
  · right
    have hle := (h id).large_le
    rw [filter_cons_of_pos hf] at hlarge
    rw [hlarge, length_append, length_cons] at hle
    have hfront := length_eq_zero_iff.mp
      (show (front.filter (largeOf id)).length = 0 by omega)
    have hback := length_eq_zero_iff.mp
      (show (back.filter (largeOf id)).length = 0 by omega)
    exact ⟨rfl, by rw [hlarge, hfront, hback]; rfl, by rw [filter_append, hfront, hback]; rfl⟩

/-- A message is picked out, and goes on as another one with the same content. -/
theorem Inv.move (hmessage : f'.message = f.message)
    (hcall : ∀ id resp, (s.workers id).Carries cfg id f.message resp →
      (∀ call ∈ f.call, call.Follows resp.data) → ∀ call ∈ f'.call, call.Follows resp.data) :
    Inv cfg { s with flights := rest ++ [f'] } := by
  intro id
  have hsame : f'.largeOf id = f.largeOf id := by rw [largeOf, largeOf, hmessage]
  obtain ⟨hother, hrest⟩ | ⟨hown, hlarge, hrest⟩ := h.pick hpick id
  · have heq : ShmServer.large { s with flights := rest ++ [f'] } id = s.large id := by
      rw [large, filter_append, hrest, filter_cons_of_neg (by simp [hsame, hother]),
        filter_nil, append_nil]
    rw [heq]
    exact h id
  · have heq : ShmServer.large { s with flights := rest ++ [f'] } id = [f'] := by
      rw [large, filter_append, hrest, filter_cons_of_pos (by simp [hsame, hown])]
      rfl
    have hlane := h id
    rw [hlarge] at hlane
    rw [heq]
    exact hlane.move hmessage (hcall id)

theorem Inv.discard : Inv cfg { s with flights := rest } := by
  intro id
  have hlane := h id
  obtain ⟨hother, hrest⟩ | ⟨hown, hlarge, hrest⟩ := h.pick hpick id
  · rw [show ShmServer.large { s with flights := rest } id = s.large id from hrest]
    exact hlane
  · rw [hlarge] at hlane
    rw [show ShmServer.large { s with flights := rest } id = [] from hrest]
    exact hlane.discard

theorem Inv.release {length : ℤ} {call : Option SendCall}
    (hcontent : f.message.content = .big length id) (hcall : s.Goes f length id call)
    (hdone : call.any SendCall.waits = false) :
    Inv cfg ({ s with flights := rest }.modifyWorker id fun k =>
      { k with
        lock := false
        passed := k.passed ++ [(⟨f.message.fd, toUInt32 length, call⟩ : Passage)] }) := by
  intro id'
  by_cases hid : id' = id
  · subst hid
    have hlane := h id'
    have hown : f.largeOf id' = true := by simp [largeOf, hcontent]
    obtain ⟨hother, -⟩ | ⟨-, hlarge, hrest⟩ := h.pick hpick id'
    · exact absurd (hother.symm.trans hown) (by decide)
    · rw [hlarge] at hlane
      simp only [ShmServer.modifyWorker, update_self, large, hrest]
      exact hlane.release hcontent hcall hdone
  · have hdiscard := h.discard hpick id'
    simp only [ShmServer.modifyWorker, update_of_ne hid]
    exact hdiscard

omit hpick

theorem Inv.largeOf_sending {id' : ℕ} (hstage : (s.workers id).stage = .sending pipe f.message)
    (hown : f.largeOf id' = true) : id' = id ∧ f.message.isBig = true := by
  cases hcontent : f.message.content with
  | small data => simp [largeOf, hcontent] at hown
  | big length owner =>
    have hbig : f.message.isBig = true := by simp [PipeMessage.isBig, hcontent]
    have hstaged := (h id).staged
    rw [hstage] at hstaged
    obtain ⟨resp, hc⟩ := hstaged hbig
    simp only [largeOf, hcontent, decide_eq_true_eq] at hown
    exact ⟨hown.symm.trans (hc.length_eq hcontent).1, hbig⟩

theorem Inv.depart
    (hstage : (s.workers id).stage = .sending pipe f.message) (hcall : f.call = none) :
    Inv cfg { s.modifyWorker id (fun k => { k with stage := .idle }) with
      flights := s.flights ++ [f] } := by
  intro id'
  have hleave := h.modifyWorker (f := fun k => { k with stage := .idle })
    (fun hlane : Lane cfg id (s.workers id) (s.large id) => hlane.begin .idle) id'
  simp only [large, filter_append]
  cases hown : f.largeOf id'
  · rw [filter_cons_of_neg (by simp [hown]), filter_nil, append_nil]
    exact hleave
  · obtain ⟨rfl, hbig⟩ := h.largeOf_sending hstage hown
    rw [filter_cons_of_pos hown, filter_nil]
    simp only [ShmServer.modifyWorker, update_self]
    exact (h id').depart hstage hbig rfl hcall

/-- **The step lemma.** -/
theorem Inv.change {Lost : ℕ → Prop} {s' : ShmServer}
    (hchange : Change cfg Lost s s') : Inv cfg s' := by
  cases hchange with
  | stay => exact h
  | begin hidle hstage => exact h.modifyWorker fun hlane => hlane.begin hstage
  | acquire id => exact h.modifyWorker fun hlane => hlane.acquire
  | copy id count => exact h.modifyWorker fun hlane => hlane.copyStep count
  | taskLock id => exact h.modifyWorker fun hlane => hlane.taskLock
  | taskUnlock id => exact h.modifyWorker fun hlane => hlane.taskUnlock
  | depart hstage hf => exact h.depart hstage (Flight.call_eq_none hf)
  | leave hstage hlost => exact h.modifyWorker fun hlane => hlane.begin .idle
  | move hpick => exact h.move hpick rfl fun _ _ _ _ => by simp [Flight.call]
  | pass hpick hcontent hcall =>
    refine h.move hpick rfl fun id resp hc => ?_
    obtain ⟨rfl, hlen⟩ := hc.length_eq hcontent
    have hdata := hc.shm
    rw [← hlen] at hdata
    rw [← hdata]
    exact hcall
  | discard hpick hsmall => exact h.discard hpick
  | release hpick hcontent hcall hdone => exact h.release hpick hcontent hcall hdone

theorem Inv.intact (id : ℕ) : s.Intact id where
  passed := (h id).done
  passing := by
    intro f hf _ length hcontent
    have hown : f ∈ s.large id :=
      mem_filter.mpr ⟨hf, by simp [largeOf, hcontent]⟩
    obtain ⟨resp, hc, -⟩ := (h id).flying f hown
    exact ⟨resp, hc.stored, hc.fd_eq, by rw [announced, (hc.length_eq hcontent).2, hc.shm]⟩
  kept := fun hlock => (h id).level (.inl hlock)

omit h

theorem finish_of_big {fd : ℕ} {data : Bytes} (hbig : bufferSize ≤ data.length)
    (hmax : data.length < cfg.bufferOutputSize) (fromId : ℕ) :
    tcpSend cfg fd data = some ⟨fd, .tcp, data.length, data⟩ ∧
      finish cfg ⟨fd, .tcp, data.length, data⟩ (some ⟨false, false, false, fromId⟩) =
        .locking ⟨fd, .tcp, data.length, data⟩ fromId := by
  have hpos : 0 < data.length := lt_of_lt_of_le (by decide) hbig
  constructor
  · rw [tcpSend, if_neg (by omega), if_pos hbig]
  · simp [finish, hpos]

/-- One worker, and shared memory for a response of `2^31` bytes. -/
def largeSettings : PipeSettings where
  toResponseSettings := ResponseConn.largeSettings
  reactorNum := 1
  reactorPipeNum := 1
  bufferOutputSize_lt := by decide

theorem passed_of_big {fd : ℕ} {data : Bytes} {conn : ResponseConn} (a : SendAnswer)
    (hbig : bufferSize ≤ data.length) (hmax : data.length < cfg.bufferOutputSize)
    (hdone : (SendCall.start cfg data conn true).waits = false) :
    let worker := (run (step cfg) (initial cfg)
      [.send 0 fd data (some ⟨false, false, false, 0⟩), .lock 0, .copy 0 data.length,
        .write 0 .taken, .receive (pipeWorkerId cfg 0 fd) (some conn) true,
        .sent (pipeWorkerId cfg 0 fd) a]).workers 0
    worker.stored = [⟨fd, .tcp, data.length, data⟩] ∧
      worker.passed = [⟨fd, data.length, some (SendCall.start cfg data conn true)⟩] := by
  have hlt := cfg.bufferOutputSize_lt
  have hlen : toUInt32 (toInt32 data.length) = data.length := toUInt32_toInt32 (by omega)
  obtain ⟨hsend, hfinish⟩ := @finish_of_big cfg fd data hbig hmax 0
  generalize hpipe : pipeWorkerId cfg 0 fd = pipe
  simp [step, hsend, hfinish, beginFinish, begin, initial, modifyWorker, acquire, copyStep, hpipe,
    write, hasBacklog, receive, busy, Flight.pick, sent, Flight.atReactor, Flight.call, announced,
    SendCall.answer, hdone, hlen, overwrite]

end ShmServer

end Swoole
