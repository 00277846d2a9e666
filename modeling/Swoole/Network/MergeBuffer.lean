import Swoole.Network.PackageMerge
import Swoole.Protocol.PackageSize
import Swoole.Protocol.WebSocket

/-!
# Packages and the size of the merge buffer

A worker puts the chunks of a package together in a buffer that is allocated once, when
the worker starts, and `swWorker_onTask` appends chunks to it without looking at its size.
`swServer_worker_init` takes the size from the first port of the server:
`package_max_length` if that port checks for an EOF or a length or speaks HTTP, and
`SW_BUFFER_SIZE_BIG` otherwise.  Every port of the server hands its packages to the same
workers.

`ListenPort.largest` is the largest package a port can dispatch, the entities of HTTP
requests left aside, and `Covers` says that the merge buffer has room for it, for all
ports.  The packages of an HTTP port are a header longer than its `package_max_length`, so
the entities have to be that much shorter than the merge buffer (`Checked`).

The buffer is emptied only when the last chunk of a package has reached `onReceive`.  What
a package leaves behind that is discarded in the middle is in the buffer when the next one
comes, so `fits_run` is about runs in which packages are kept whole.
-/

namespace Swoole

open StepRun List

/-! ## Ports -/

/-- `swListenPort`, as far as it decides how connections are read. -/
structure ListenPort where
  openEofCheck : Bool
  openLengthCheck : Bool
  openHttpProtocol : Bool
  openWebsocketProtocol : Bool
  openMqttProtocol : Bool
  protocol : Protocol
  deriving DecidableEq

/-- What `onRead` of a port is set to, together with its length function. -/
inductive PortReader where
  | checkEof
  | checkLength
  | http
  | mqtt
  | raw
  deriving DecidableEq

/-- A connection of a port.  If the port speaks HTTP, this is before or after the upgrade;
`earlier` are the packages from before. -/
inductive PortConn where
  | read (c : ReadConn)
  | http (c : HttpConn)
  | webSocket (earlier : List Bytes) (c : WebSocketConn)

/-- The packages dispatched in chunks. -/
def PortConn.packages : PortConn → List Bytes
  | .read c => c.packages
  | .http c => c.packages
  | .webSocket earlier c => earlier ++ c.packages

/-- What a connection sees: the kernel answers a `recv`, or the worker has completed a
WebSocket handshake. -/
inductive PortEvent where
  | recv (a : RecvAnswer)
  | upgrade
  deriving DecidableEq

namespace ListenPort

variable (port : ListenPort)

/-- The choice of the reader in `swPort_set_protocol`. -/
def reader : PortReader :=
  if port.openEofCheck then .checkEof
  else if port.openLengthCheck then .checkLength
  else if port.openHttpProtocol then .http
  else if port.openMqttProtocol then .mqtt
  else .raw

/-- What `swPort_set_protocol` makes of the protocol record. -/
def setProtocol : Protocol :=
  match port.reader with
  | .checkEof =>
    { port.protocol with packageEof := port.protocol.packageEof.take dataEofMaxlen }
  | .http =>
    if port.openWebsocketProtocol then
      { port.protocol with packageLengthSize := webSocketHeaderLen.toUInt8 }
    else port.protocol
  | .checkLength | .mqtt | .raw => port.protocol

theorem maxLength_setProtocol : port.setProtocol.maxLength = port.protocol.maxLength := by
  unfold setProtocol
  split
  · rfl
  · split <;> rfl
  all_goals rfl

/-- A connection the port accepts. -/
def accept (fresh : ℕ → ℕ → UInt8) (stream : Bytes) : PortConn :=
  match port.reader with
  | .http => .http (.init stream)
  | .checkEof | .checkLength | .mqtt | .raw => .read (.init (fresh 0) stream)

/-- A read with the reader of the port.  A raw port dispatches what one `recv` returns as
one event that is not a chunk, and keeps nothing. -/
def readTurn (pagesize : ℕ) (onPackage : Bytes → Ret) (c : ReadConn) (a : RecvAnswer) :
    ReadConn :=
  match port.reader with
  | .checkEof => port.setProtocol.readTurnEof pagesize c a
  | .checkLength =>
    Protocol.readTurn (LengthFunction.lengthField.apply port.setProtocol) onPackage
      port.setProtocol c a
  | .mqtt =>
    Protocol.readTurn (LengthFunction.mqtt.apply port.setProtocol) onPackage
      port.setProtocol c a
  | .http | .raw => c

/-- One event of a connection.  An upgraded connection goes on with a buffer of its own. -/
def turn (pagesize : ℕ) (onPackage : Bytes → Ret) (fresh : ℕ → ℕ → UInt8) :
    PortConn → PortEvent → PortConn
  | .read c, .recv a => .read (port.readTurn pagesize onPackage c a)
  | .http c, .recv a => .http (c.readTurn fresh port.setProtocol.maxLength a)
  | .webSocket earlier c, .recv a => .webSocket earlier (c.readTurn port.setProtocol a)
  | .http c, .upgrade =>
    if port.openWebsocketProtocol ∧ c.status = .active then
      .webSocket c.packages (.init (fresh c.packages.length) c.wire)
    else .http c
  | .read c, .upgrade => .read c
  | .webSocket earlier c, .upgrade => .webSocket earlier c

/-- The largest package the port dispatches in chunks, but for a request with an entity. -/
def largest : ℕ :=
  match port.reader with
  | .checkEof => max bufferSize port.protocol.maxLength
  | .checkLength | .mqtt => port.protocol.maxLength
  | .http =>
    if port.openWebsocketProtocol then max httpHeaderMaxSize port.protocol.maxLength
    else httpHeaderMaxSize
  | .raw => 0

/-- **The condition on an event**: an entity that an HTTP reader finds out about has room in
`size` bytes behind a header. -/
def Checked (size : ℕ) (fresh : ℕ → ℕ → UInt8) : PortConn → PortEvent → Prop
  | .http c, .recv a => c.ChecksLength fresh port.protocol.maxLength (size - httpHeaderMaxSize) a
  | _, _ => True

instance (size : ℕ) (fresh : ℕ → ℕ → UInt8) (c : PortConn) (e : PortEvent) :
    Decidable (port.Checked size fresh c e) := by
  unfold Checked
  split <;> infer_instance

/-! ## What a port can dispatch -/

/-- What is known about a connection of the port at any time. -/
def Within (size : ℕ) : PortConn → Prop
  | .read c =>
    match port.reader with
    | .checkEof => c.WithinEof port.setProtocol
    | .checkLength | .mqtt => c.Within port.setProtocol
    | .http => False
    | .raw => c.packages = []
  | .http c => port.reader = .http ∧ c.Within (size - httpHeaderMaxSize)
  | .webSocket earlier c =>
    port.reader = .http ∧ port.openWebsocketProtocol = true ∧ c.Within port.setProtocol ∧
      ∀ data ∈ earlier, data.length ≤ httpHeaderMaxSize + (size - httpHeaderMaxSize)

variable {port} {size pagesize : ℕ} {onPackage : Bytes → Ret} {fresh : ℕ → ℕ → UInt8}
  {c : PortConn}

theorem within_accept (stream : Bytes) : port.Within size (port.accept fresh stream) := by
  cases hreader : port.reader with
  | checkEof =>
    simp only [accept, hreader, Within]
    exact ReadConn.withinEof_init _ _
  | checkLength | mqtt =>
    simp only [accept, hreader, Within]
    exact ReadConn.within_init _ _
  | http =>
    simp only [accept, hreader]
    exact ⟨hreader, HttpConn.within_init _⟩
  | raw =>
    simp only [accept, hreader, Within]
    rfl

theorem within_readTurn {c : ReadConn} (h : port.Within size (.read c)) (a : RecvAnswer) :
    port.Within size (.read (port.readTurn pagesize onPackage c a)) := by
  cases hreader : port.reader with
  | checkEof =>
    simp only [readTurn, hreader, Within] at h ⊢
    exact h.readTurnEof a
  | checkLength | mqtt =>
    simp only [readTurn, hreader, Within] at h ⊢
    exact h.readTurn a
  | http | raw =>
    simp only [readTurn, hreader]
    exact h

/-- **One event.** -/
theorem within_turn (h : port.Within size c) {e : PortEvent}
    (hchecked : port.Checked size fresh c e) :
    port.Within size (port.turn pagesize onPackage fresh c e) := by
  cases e with
  | recv a =>
    cases c with
    | read c => exact within_readTurn h a
    | http c =>
      rw [Checked, ← maxLength_setProtocol] at hchecked
      exact ⟨h.1, h.2.readTurn hchecked⟩
    | webSocket earlier c => exact ⟨h.1, h.2.1, h.2.2.1.readTurn a, h.2.2.2⟩
  | upgrade =>
    cases c with
    | read c => exact h
    | http c =>
      simp only [turn]
      split
      · next hupgrade => exact ⟨h.1, hupgrade.1, WebSocketConn.within_init _ _, h.2.packages⟩
      · exact h
    | webSocket earlier c => exact h

/-- What a port dispatches is no longer than `size` if its largest package is not. -/
theorem length_le_of_within (h : port.Within size c) (hlargest : port.largest ≤ size) :
    ∀ data ∈ c.packages, data.length ≤ size := by
  intro data hdata
  have hmax := port.maxLength_setProtocol
  cases c with
  | read c =>
    have hdata : data ∈ c.packages := hdata
    refine le_trans ?_ hlargest
    cases hreader : port.reader with
    | checkEof | checkLength | mqtt =>
      simp only [Within, hreader] at h
      simp only [largest, hreader, ← hmax]
      exact h.packages data hdata
    | http =>
      simp only [Within, hreader] at h
    | raw =>
      simp only [Within, hreader] at h
      rw [h] at hdata
      cases hdata
  | http c =>
    simp only [largest, h.1] at hlargest
    have hle := h.2.packages data hdata
    split_ifs at hlargest <;> omega
  | webSocket earlier c =>
    simp only [largest, h.1, h.2.1, if_true, ← hmax, max_le_iff] at hlargest
    rcases mem_append.mp hdata with hdata | hdata
    · have hle := h.2.2.2 data hdata
      omega
    · exact (h.2.2.1.packages data hdata).trans hlargest.2

end ListenPort

/-! ## The worker -/

/-- The ports of a server, `listen_list` first. -/
structure ServerPorts where
  listenList : ListenPort
  others : List ListenPort

namespace ServerPorts

variable (serv : ServerPorts)

def ports : List ListenPort := serv.listenList :: serv.others

/-- The size of the merge buffers: `buffer_input_size`, an `int`, as `swString_new` gets
it. -/
def bufferInputSize : ℕ :=
  if serv.listenList.openEofCheck ∨ serv.listenList.openLengthCheck ∨
      serv.listenList.openHttpProtocol then
    toSizeT (toInt32 serv.listenList.protocol.maxLength)
  else bufferSizeBig

/-- The merge buffer has room for the largest package of every port. -/
def Covers : Prop := ∀ port ∈ serv.ports, port.largest ≤ serv.bufferInputSize
  deriving Decidable

/-- A package that a connection of one of the ports dispatches, and whose entities are
within what the merge buffer has room for behind a header. -/
def Dispatches (data : Bytes) : Prop :=
  ∃ port ∈ serv.ports, ∃ (pagesize : ℕ) (onPackage : Bytes → Ret) (fresh : ℕ → ℕ → UInt8)
    (stream : Bytes) (events : List PortEvent),
    EachStep (port.turn pagesize onPackage fresh) (port.Checked serv.bufferInputSize fresh)
        (port.accept fresh stream) events ∧
      data ∈ (run (port.turn pagesize onPackage fresh) (port.accept fresh stream) events).packages

/-- The `memcpy` of `swWorker_onTask` stays inside of the merge buffer: the chunk that the
worker takes has room behind what is there. -/
def Appends (s : MergeServer) : MergeServer.Event → Prop
  | .task => ∀ c ∈ s.queue.head?.toList, s.discardData c.fd = false →
    (s.buffers c.fromId).length + c.data.length ≤ serv.bufferInputSize
  | _ => True

instance (s : MergeServer) (e : MergeServer.Event) : Decidable (serv.Appends s e) := by
  unfold Appends
  split <;> infer_instance

variable {serv}

theorem Dispatches.length_le {data : Bytes} (h : serv.Dispatches data) (hcovers : serv.Covers) :
    data.length ≤ serv.bufferInputSize := by
  obtain ⟨port, hport, pagesize, onPackage, fresh, stream, events, hchecked, hdata⟩ := h
  have hwithin : port.Within serv.bufferInputSize
      (run (port.turn pagesize onPackage fresh) (port.accept fresh stream) events) :=
    hchecked.run_invariant (fun _ _ h hstep => ListenPort.within_turn h hstep)
      (ListenPort.within_accept stream)
  exact ListenPort.length_le_of_within hwithin (hcovers port hport) data hdata

/-- **One event of the worker and its reactors.** -/
theorem appends_of_inv {s : MergeServer} (h : s.Inv)
    (hle : ∀ x ∈ s.dispatched, x.2.length ≤ serv.bufferInputSize) {e : MergeServer.Event}
    (hwhole : s.Whole e) : serv.Appends s e := by
  cases e with
  | task =>
    intro c hc hdiscard
    obtain ⟨rest, hqueue⟩ : ∃ rest, s.queue = c :: rest := by
      cases hq : s.queue with
      | nil => simp [hq] at hc
      | cons x rest => simp_all
    -- what the buffer holds and the chunk are the front of one dispatched package
    have hpackage := congrArg length (h.package_eq hqueue hwhole hdiscard)
    have hknown := hle _ (h.chunks c (by rw [hqueue]; exact mem_cons_self)).known
    have hstop := c.piece.stop_le
    rw [length_append, length_take] at hpackage
    simp only at hknown
    omega
  | accept | close | serverClose | dispatch | chunk => trivial

/-- **Every package fits into the merge buffer, and no chunk is written outside of it.**
The buffer covers the ports, and the announced lengths leave room for a header.  Then what
the ports dispatch is no longer than the buffer; and in any interleaving in which the
dispatched packages are kept whole, each chunk that the worker takes has room. -/
theorem fits_run (hcovers : serv.Covers) (disableNotify discardTimeoutRequest : Bool)
    (maxConnection : ℕ) (events : List MergeServer.Event)
    (hports : ∀ reactor fd data, .dispatch reactor fd data ∈ events → serv.Dispatches data)
    (hlaw : EachStep MergeServer.step MergeServer.Lawful
      (.init disableNotify discardTimeoutRequest maxConnection) events)
    (hwhole : EachStep MergeServer.step MergeServer.Whole
      (.init disableNotify discardTimeoutRequest maxConnection) events) :
    (∀ data, serv.Dispatches data → data.length ≤ serv.bufferInputSize) ∧
      EachStep MergeServer.step serv.Appends
        (.init disableNotify discardTimeoutRequest maxConnection) events := by
  refine ⟨fun data h => h.length_le hcovers, ?_⟩
  have hevents : EachStep MergeServer.step (fun _ e => ∀ reactor fd data,
      e = .dispatch reactor fd data → data.length ≤ serv.bufferInputSize)
      (.init disableNotify discardTimeoutRequest maxConnection) events := by
    refine eachStep_of_forall (fun e he reactor fd data heq => ?_) _
    subst heq
    exact (hports reactor fd data he).length_le hcovers
  refine ((hlaw.and hwhole).and hevents).imp
    (P := fun s => s.Inv ∧ ∀ x ∈ s.dispatched, x.2.length ≤ serv.bufferInputSize)
    (fun s e h he => ⟨h.1.step he.1.1 he.1.2, fun x hx => ?_⟩)
    (fun s e h he => appends_of_inv h.1 h.2 he.1.2)
    ⟨MergeServer.inv_init _ _ _, nofun⟩
  rcases MergeServer.mem_dispatched_step hx with hold | ⟨reactor, fd, heq⟩
  · exact h.2 x hold
  · exact he.2 reactor fd x.2 heq

/-! ## Two servers -/

/-- A port that speaks HTTP. -/
def httpPort (maxLength : UInt32) : ListenPort where
  openEofCheck := false
  openLengthCheck := false
  openHttpProtocol := true
  openWebsocketProtocol := false
  openMqttProtocol := false
  protocol :=
    { splitByEof := false
      packageEof := []
      packageLengthType := .N
      packageLengthSize := 0
      packageLengthOffset := 0
      packageBodyOffset := 0
      packageMaxLength := maxLength }

/-- The request as one package of a connection of reactor 0. -/
def postOnce : List MergeServer.Event :=
  [.accept 5 0, .dispatch 0 5 HttpConn.postMessage.text, .chunk 0 true, .task]

/-- An HTTP port with a limit of 16 KiB comes first, and another one behind it has more. -/
theorem fits_http_first :
    let serv : ServerPorts := ⟨httpPort 16384, [httpPort 32768]⟩
    HttpConn.postMessage.text.length ≤ serv.bufferInputSize ∧
      EachStep MergeServer.step serv.Appends (.init false false 1024) postOnce := by
  intro serv
  have hpost : serv.Dispatches HttpConn.postMessage.text :=
    ⟨httpPort 32768, by simp [serv, ports], 4096, fun _ => .ok, fun _ _ => 0,
      HttpConn.postMessage.text, [.recv (.deliver 20), .recv (.deliver 99)],
      by decide +kernel, by decide +kernel⟩
  have hfits := @fits_run serv (by decide) false false 1024 postOnce
    (fun reactor fd data hmem => by
      have heq : data = HttpConn.postMessage.text := by
        simp [postOnce] at hmem
        exact hmem.2.2
      exact heq ▸ hpost)
    (by decide +kernel) (by decide +kernel)
  exact ⟨hfits.1 _ hpost, hfits.2⟩

/-- **A request longer than the merge buffer.**  The only port of the server accepts
entities of 20 bytes, and so the merge buffer has 20 bytes; a request with an entity of 11
bytes is dispatched with its header, 50 bytes in all, and the worker writes them outside of
the buffer. -/
theorem not_fits_http_request :
    let serv : ServerPorts := ⟨httpPort 20, []⟩
    HttpConn.postMessage.text ∈ (run ((httpPort 20).turn 4096 (fun _ => .ok) fun _ _ => 0)
        ((httpPort 20).accept (fun _ _ => 0) HttpConn.postMessage.text)
        [.recv (.deliver 99)]).packages ∧
      ¬ HttpConn.postMessage.text.length ≤ serv.bufferInputSize ∧
      ¬ EachStep MergeServer.step serv.Appends (.init false false 1024) postOnce := by
  decide +kernel

end ServerPorts

end Swoole
