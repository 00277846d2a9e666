import Swoole.Core.Socket
import Swoole.Library.StepRun

/-!
# The packet mode of the asynchronous client

In packet mode the server sends a length of four bytes in network byte order and then that many
bytes.  `swClient_onStreamRead` is called when the socket is readable.  It asks for the four bytes,
and then once for as many bytes as they say, and hands what it has got to `onReceive`.

It keeps nothing from one call to the next.  So both `recv`s have to be complete: of a length that
comes in pieces the rest counts as zero, and of a body that comes in pieces the first one is handed
on, and the second is taken for a length.  And `buf` is read from the buffer before the buffer is
extended; when `realloc` moves it, the body is received into memory that has been freed.
-/

namespace Swoole

open StepRun List

/-- What `realloc` does with a block that is to be extended. -/
inductive ReallocAnswer where
  | inPlace
  | moved
  | failed
  deriving DecidableEq, Repr

/-- What the system answers in a call of `swClient_onStreamRead`. -/
structure PacketEvent where
  header : RecvAnswer
  memory : ReallocAnswer
  body : RecvAnswer
  deriving DecidableEq, Repr

inductive ClientStatus where
  | connected
  | closed
  /-- `abort()` was called. -/
  | aborted
  deriving DecidableEq, Repr

/-- A client in packet mode.  `wire` is what it has not received yet, `size` is the size of its
buffer, and `delivered` is what it has handed to `onReceive`.  `broken` says that it has written
outside of the buffer. -/
structure PacketClient where
  wire : Bytes
  size : ℕ
  status : ClientStatus
  delivered : List Bytes
  broken : Bool
  deriving DecidableEq, Repr

namespace PacketClient

variable (c : PacketClient)

/-- `ntohl(len_tmp)`, where only the first bytes of `len_tmp` have been received. -/
def bodyLength (bytes : Bytes) : ℕ := netValue (bytes ++ List.replicate (4 - bytes.length) 0)

/-- The buffer is extended if the body is longer; the result of `swString_extend` is not looked
at.  The second part of the answer is whether `buf` still points to the buffer. -/
def extendBuffer (length : ℕ) (memory : ReallocAnswer) : PacketClient × Bool :=
  if c.size < length then
    match memory with
    | .inPlace => ({ c with size := length }, true)
    | .moved => ({ c with size := length }, false)
    | .failed => (c, true)
  else (c, true)

/-- The second `recv`. -/
def readBody (length : ℕ) (valid : Bool) (answer : RecvAnswer) : PacketClient :=
  match recv length c.wire answer with
  | (.error errno, wire) =>
    match connectionError errno with
    | .close => { c with wire := wire, status := .closed }
    | .abort => { c with wire := wire, status := .aborted }
    | .error | .wait => { c with wire := wire }
  | (.data [], wire) => { c with wire := wire, status := .closed }
  | (.data bytes, wire) =>
    { c with
      wire := wire
      delivered := c.delivered ++ [bytes]
      broken := c.broken || !valid || decide (c.size < bytes.length) }

/-- `swClient_onStreamRead`. -/
def onStreamRead (event : PacketEvent) : PacketClient :=
  match recv 4 c.wire event.header with
  | (.error _, wire) | (.data [], wire) => { c with wire := wire, status := .closed }
  | (.data bytes, wire) =>
    let (c', valid) :=
      ({ c with wire := wire } : PacketClient).extendBuffer (bodyLength bytes) event.memory
    c'.readBody (bodyLength bytes) valid event.body

/-- A call for a socket that is readable. -/
def step (c : PacketClient) (event : PacketEvent) : PacketClient :=
  if c.status = .connected ∧ c.broken = false then c.onStreamRead event else c

/-! ## Packets -/

/-- A packet with its length in front. -/
def encode (body : Bytes) : Bytes := netBytes 4 body.length ++ body

/-- The stream that the server sends. -/
def stream (bodies : List Bytes) : Bytes := bodies.flatMap encode

/-- A client with a buffer of `size` bytes that is about to receive the packets. -/
def init (bodies : List Bytes) (size : ℕ) : PacketClient where
  wire := stream bodies
  size := size
  status := .connected
  delivered := []
  broken := false

/-- **The contract**: `onReceive` has got the bodies of the first packets. -/
structure Sound (bodies : List Bytes) (c : PacketClient) : Prop where
  order : c.delivered <+: bodies
  intact : c.broken = false

instance (bodies : List Bytes) (c : PacketClient) : Decidable (Sound bodies c) :=
  decidable_of_iff (c.delivered <+: bodies ∧ c.broken = false)
    ⟨fun h => ⟨h.1, h.2⟩, fun h => ⟨h.1, h.2⟩⟩

/-- The second `recv` gets all of a body, or the connection is given up. -/
def TakesBody (length : ℕ) (rest : Bytes) : RecvAnswer → Prop
  | .deliver limit => length ≤ limit + 1 ∧ length ≤ maxRecvCount
  | .fail errno => connectionError errno = .close ∨ connectionError errno = .abort
  | .shutdown => rest = []

/-- The first `recv` gets all of the length, the second one all of the body, and the buffer is not
moved in between; or the connection is closed. -/
def TakesPacket (c : PacketClient) (event : PacketEvent) : RecvAnswer → Prop
  | .deliver limit =>
    3 ≤ limit ∧ TakesBody (netValue (c.wire.take 4)) (c.wire.drop 4) event.body ∧
      (netValue (c.wire.take 4) ≤ c.size ∨ event.memory = .inPlace)
  | .fail _ | .shutdown => True

instance (length : ℕ) (rest : Bytes) (answer : RecvAnswer) :
    Decidable (TakesBody length rest answer) := by
  unfold TakesBody
  split <;> infer_instance

instance (c : PacketClient) (event : PacketEvent) (answer : RecvAnswer) :
    Decidable (c.TakesPacket event answer) := by
  unfold TakesPacket
  split <;> infer_instance

def Whole (c : PacketClient) (event : PacketEvent) : Prop := c.TakesPacket event event.header
  deriving Decidable

variable {c : PacketClient} {bodies rest : List Bytes} {body : Bytes}

/-! ## Steps -/

/-- The client is in front of the packets `rest`, or the connection has ended. -/
structure Inv (bodies : List Bytes) (c : PacketClient) : Prop where
  front : ∃ rest, c.delivered ++ rest = bodies ∧ (c.status = .connected → c.wire = stream rest)
  intact : c.broken = false

theorem Inv.sound (h : Inv bodies c) : Sound bodies c := by
  obtain ⟨rest, hrest, -⟩ := h.front
  exact ⟨⟨rest, hrest⟩, h.intact⟩

theorem inv_close (hrest : c.delivered ++ rest = bodies) (hintact : c.broken = false) {wire : Bytes}
    {status : ClientStatus} (hstatus : status ≠ .connected) :
    Inv bodies { c with wire := wire, status := status } :=
  ⟨⟨rest, hrest, fun h => absurd h hstatus⟩, hintact⟩

/-- **A body** is received as a whole, or the connection ends. -/
theorem inv_readBody (hintact : c.broken = false) (hrest : c.delivered ++ body :: rest = bodies)
    (hwire : c.wire = body ++ stream rest) (hsize : body.length ≤ c.size) {answer : RecvAnswer}
    (hbody : TakesBody body.length c.wire answer) :
    Inv bodies (c.readBody body.length true answer) := by
  cases answer with
  | fail errno =>
    simp only [PacketClient.readBody, recv]
    rcases hbody with hclose | habort
    · rw [hclose]
      exact inv_close hrest hintact (by rintro ⟨⟩)
    · rw [habort]
      exact inv_close hrest hintact (by rintro ⟨⟩)
  | shutdown =>
    have hempty : c.wire = [] := hbody
    simp only [PacketClient.readBody, recv, hempty]
    exact inv_close hrest hintact (by rintro ⟨⟩)
  | deliver limit =>
    obtain ⟨hlimit, hmax⟩ := hbody
    by_cases hne : body = []
    · subst hne
      exact inv_close hrest hintact (by rintro ⟨⟩)
    · obtain ⟨b, bs, rfl⟩ := exists_cons_of_ne_nil hne
      simp only [PacketClient.readBody, hwire, recv_append hne hlimit hmax]
      refine ⟨⟨rest, ?_, fun _ => rfl⟩, ?_⟩
      · rw [append_assoc, singleton_append]
        exact hrest
      · simpa [hintact] using hsize

theorem extendBuffer_spec {length : ℕ} {memory : ReallocAnswer}
    (h : length ≤ c.size ∨ memory = .inPlace) :
    ∃ size, length ≤ size ∧ c.extendBuffer length memory = ({ c with size := size }, true) := by
  unfold extendBuffer
  split_ifs with hlt
  · rw [h.resolve_left (not_le.mpr hlt)]
    exact ⟨length, le_rfl, rfl⟩
  · exact ⟨c.size, Nat.le_of_not_lt hlt, rfl⟩

variable {event : PacketEvent}

/-- What a call does with a length and a body that have come as a whole. -/
theorem onStreamRead_eq (hlength : body.length < 2 ^ 32) {limit : ℕ}
    (hheader : event.header = .deliver limit) (hlimit : 3 ≤ limit)
    (hwire : c.wire = encode body ++ stream rest)
    (hmemory : body.length ≤ c.size ∨ event.memory = .inPlace) :
    ∃ size, body.length ≤ size ∧ c.onStreamRead event =
      ({ c with wire := body ++ stream rest, size := size } : PacketClient).readBody body.length
        true event.body := by
  have hvalue : netValue (netBytes 4 body.length) = body.length := netValue_netBytes hlength
  have hrecv : recv 4 c.wire (.deliver limit) =
      (.data (netBytes 4 body.length), body ++ stream rest) := by
    have happend := @recv_append (netBytes 4 body.length) (body ++ stream rest) limit nofun
    rw [length_netBytes] at happend
    rw [hwire, encode, append_assoc]
    exact happend (by omega) (by decide)
  have hlen : bodyLength (netBytes 4 body.length) = body.length := by
    rw [bodyLength, length_netBytes, Nat.sub_self, replicate_zero, append_nil, hvalue]
  obtain ⟨size, hsize, hextend⟩ :=
    @extendBuffer_spec { c with wire := body ++ stream rest } body.length event.memory hmemory
  refine ⟨size, hsize, ?_⟩
  obtain ⟨b, bs, hbytes⟩ : ∃ b bs, netBytes 4 body.length = b :: bs := ⟨_, _, rfl⟩
  rw [hbytes] at hrecv hlen
  simp only [onStreamRead, hheader, hrecv, hlen, hextend]

/-- **A call** of `swClient_onStreamRead` takes a packet. -/
theorem Inv.onStreamRead (h : Inv bodies c) (hlen : ∀ body ∈ bodies, body.length < 2 ^ 32)
    (hconnected : c.status = .connected) (hwhole : c.Whole event) :
    Inv bodies (c.onStreamRead event) := by
  obtain ⟨rest, hrest, hwire⟩ := h.front
  have hwire := hwire hconnected
  unfold Whole at hwhole
  cases hheader : event.header with
  | fail errno =>
    simp only [PacketClient.onStreamRead, hheader, recv]
    exact inv_close hrest h.intact (by rintro ⟨⟩)
  | shutdown =>
    cases hempty : c.wire
    all_goals
      simp only [PacketClient.onStreamRead, hheader, recv, hempty]
      exact inv_close hrest h.intact (by rintro ⟨⟩)
  | deliver limit =>
    rw [hheader] at hwhole
    obtain ⟨hlimit, hbody, hmemory⟩ := hwhole
    cases rest with
    | nil =>
      have hempty : c.wire = [] := hwire
      simp only [PacketClient.onStreamRead, hheader, recv, hempty]
      exact inv_close hrest h.intact (by rintro ⟨⟩)
    | cons body rest =>
      -- the client is at the start of a packet, so the first `recv` gets its length
      have hwire : c.wire = encode body ++ stream rest := hwire
      have hlt : body.length < 2 ^ 32 := hlen body (hrest ▸ by simp)
      have htake : netValue (c.wire.take 4) = body.length := by
        rw [hwire, encode, append_assoc, take_left' (length_netBytes 4 body.length),
          netValue_netBytes hlt]
      have hdrop : c.wire.drop 4 = body ++ stream rest := by
        rw [hwire, encode, append_assoc, drop_left' (length_netBytes 4 body.length)]
      rw [htake] at hbody hmemory
      rw [hdrop] at hbody
      obtain ⟨size, hsize, hread⟩ := onStreamRead_eq hlt hheader hlimit hwire hmemory
      rw [hread]
      exact @inv_readBody { c with wire := body ++ stream rest, size := size } _ rest _ h.intact
        hrest rfl hsize _ hbody

/-- **One call.** -/
theorem Inv.step (h : Inv bodies c) (hlen : ∀ body ∈ bodies, body.length < 2 ^ 32)
    (hwhole : c.Whole event) : Inv bodies (c.step event) := by
  unfold PacketClient.step
  split_ifs with hrunning
  · exact h.onStreamRead hlen hrunning.1 hwhole
  · exact h

/-- **Each call of `onReceive` gets the body of the next packet**, if the packets come whole. -/
theorem whole_packets_run (bodies : List Bytes) (hlen : ∀ body ∈ bodies, body.length < 2 ^ 32)
    (size : ℕ) (events : List PacketEvent) (hwhole : EachStep step Whole (init bodies size) events)
    (used : List PacketEvent) (hused : used <+: events) :
    Sound bodies (run step (init bodies size) used) := by
  have hinv : Inv bodies (run step (init bodies size) used) :=
    EachStep.run_invariant (P := Inv bodies) (fun _ _ h hevent => h.step hlen hevent)
      (hwhole.restrict hused) ⟨⟨bodies, rfl, fun _ => rfl⟩, rfl⟩
  exact hinv.sound

/-- Two packets, the second of which is longer than the buffer. -/
theorem whole_packets_two :
    let bodies : List Bytes := [[1, 2], [3, 4, 5]]
    let events : List PacketEvent :=
      [⟨.deliver 9, .failed, .deliver 1⟩, ⟨.deliver 3, .inPlace, .deliver 2⟩]
    EachStep step Whole (init bodies 2) events ∧
      (run step (init bodies 2) events).delivered = bodies ∧
      Sound bodies (run step (init bodies 2) events) :=
  ⟨by decide, by decide, whole_packets_run _ (by decide) _ _ (by decide) _ (prefix_refl _)⟩

/-- A body that comes in two pieces: the first one is handed to `onReceive`. -/
theorem not_sound_half_body :
    let events : List PacketEvent := [⟨.deliver 3, .inPlace, .deliver 0⟩]
    (run step (init [[1, 2]] 8) events).delivered = [[1]] ∧
      ¬ Sound [[1, 2]] (run step (init [[1, 2]] 8) events) := by
  decide

end PacketClient

end Swoole
