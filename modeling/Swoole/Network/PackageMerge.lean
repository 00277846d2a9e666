import Swoole.Core.String
import Swoole.Library.Pieces
import Swoole.Network.Session

/-!
# Packages in chunks

A reactor thread hands a package to a worker in chunks of at most `SW_BUFFER_SIZE`
bytes: `swReactorThread_dispatch` sends `SW_EVENT_PACKAGE_START` chunks and a final
`SW_EVENT_PACKAGE_END` chunk.  Every chunk goes through `swFactoryProcess_dispatch`,
which looks the connection up again: it fails if the connection is gone, drops the
chunk if the server has closed the connection, and otherwise stamps the chunk with the
session id and writes it to the worker's pipe.  `swWorker_onTask` discards chunks of
connections that are gone or closed, and appends the others to the merge buffer of
their reactor; at an end chunk it hands the buffer to `onReceive` and empties it.

The model is one worker with its pipe, the reactor threads, and the connection and
session tables that all of them look at.  An event is one round of a dispatch loop, one
chunk taken by the worker, or a change of the tables, in any order.

`piece`, `sessionId` and `sent` are history variables: which part of which package a
chunk is, and for a dispatch loop the session it began with and whether its first
chunk was sent.  `dispatched` and `received` record the packages and what `onReceive`
was given.
-/

open Function List

namespace Swoole

/-- One chunk on the pipe; `fd` is a session id by then. -/
structure PackageChunk where
  last : Bool
  fd : ℕ
  fromId : ℕ
  data : Bytes
  piece : Pieces.Piece ℕ UInt8

/-- `swReactorThread_dispatch` inside its loop. -/
structure Dispatch where
  fd : ℕ
  fromId : ℕ
  data : Bytes
  offset : ℕ
  sessionId : ℕ
  sent : Bool
  offset_lt : offset < data.length

/-- The server as far as packages are concerned. -/
structure MergeServer where
  disableNotify : Bool
  discardTimeoutRequest : Bool
  sessions : SessionServer
  closed : ℕ → Bool
  dispatching : ℕ → Option Dispatch
  queue : List PackageChunk
  buffers : ℕ → Bytes
  dispatched : List (ℕ × Bytes)
  received : List (ℕ × Bytes)

namespace Dispatch

variable (d : Dispatch)

/-- `send_n`. -/
def sendN : ℕ := d.data.length - d.offset

/-- `task.data.info.len`. -/
def len : ℕ := if bufferSize < d.sendN then bufferSize else d.sendN

theorem len_pos : 0 < d.len := by
  have hlt := d.offset_lt
  unfold len sendN
  split
  · decide
  · omega

theorem offset_add_len_le : d.offset + d.len ≤ d.data.length := by
  have hlt := d.offset_lt
  unfold len sendN
  split <;> omega

/-- The part of the package that goes out next. -/
def piece : Pieces.Piece ℕ UInt8 where
  tag := d.sessionId
  message := d.data
  start := d.offset
  stop := d.offset + d.len
  start_lt := Nat.lt_add_of_pos_right d.len_pos
  stop_le := d.offset_add_len_le

/-- The chunk that goes out next, stamped with a session id. -/
def chunk (sessionId : ℕ) : PackageChunk where
  last := !decide (bufferSize < d.sendN)
  fd := sessionId
  fromId := d.fromId
  data := (d.data.drop d.offset).take d.len
  piece := d.piece

/-- The loop behind a chunk: the next round, or its end. -/
def advance (sent : Bool) : Option Dispatch :=
  if h : d.offset + d.len < d.data.length then
    some { d with offset := d.offset + d.len, sent := sent, offset_lt := h }
  else none

end Dispatch

namespace MergeServer

variable (s : MergeServer)

def init (disableNotify discardTimeoutRequest : Bool) (maxConnection : ℕ) : MergeServer where
  disableNotify := disableNotify
  discardTimeoutRequest := discardTimeoutRequest
  sessions := .init maxConnection
  closed := fun _ => false
  dispatching := fun _ => none
  queue := []
  buffers := fun _ => []
  dispatched := []
  received := []

/-! ## Reactor threads -/

/-- What `swFactoryProcess_dispatch` makes of a chunk: `SW_ERR`, `SW_OK` without
sending anything, or a session id to send it with. -/
inductive FactoryDispatch where
  | error
  | dropped
  | send (sessionId : ℕ)
  deriving DecidableEq

/-- `swFactoryProcess_dispatch`, up to the write. -/
def factoryDispatch (fd : ℕ) : FactoryDispatch :=
  match s.sessions.connectionGet fd with
  | none => .error
  | some conn =>
    if conn.active = false then .error
    else if s.closed fd then .dropped
    else .send conn.sessionId

/-- `swReactorThread_dispatch`, up to its loop. -/
def dispatch (reactor fd : ℕ) (data : Bytes) : MergeServer :=
  match s.dispatching reactor with
  | some _ => s
  | none =>
    let conn := s.sessions.connectionList fd
    { s with
      dispatched := s.dispatched ++ [(conn.sessionId, data)]
      dispatching :=
        if h : 0 < data.length then
          update s.dispatching reactor
            (some ⟨fd, conn.fromId, data, 0, conn.sessionId, false, h⟩)
        else s.dispatching }

/-- One round of the loop of `swReactorThread_dispatch`; `written` is whether the write
to the pipe succeeds. -/
def dispatchChunk (reactor : ℕ) (written : Bool) : MergeServer :=
  match s.dispatching reactor with
  | none => s
  | some d =>
    match s.factoryDispatch d.fd with
    | .error => { s with dispatching := update s.dispatching reactor none }
    | .dropped =>
      { s with dispatching := update s.dispatching reactor (d.advance d.sent) }
    | .send sessionId =>
      if written then
        { s with
          queue := s.queue ++ [d.chunk sessionId]
          dispatching := update s.dispatching reactor (d.advance true) }
      else { s with dispatching := update s.dispatching reactor none }

/-! ## The worker -/

/-- `swWorker_discard_data`. -/
def discardData (sessionId : ℕ) : Bool :=
  match s.sessions.connectionVerify sessionId with
  | none => !(s.disableNotify && !s.discardTimeoutRequest)
  | some conn => s.closed conn.fd

/-- `swWorker_onTask` for a chunk. -/
def onTask (c : PackageChunk) : MergeServer :=
  if s.discardData c.fd then s
  else
    let package := s.buffers c.fromId ++ c.data
    if c.last then
      { s with
        received := s.received ++ [(c.fd, package)]
        buffers := update s.buffers c.fromId [] }
    else { s with buffers := update s.buffers c.fromId package }

/-! ## Runs -/

/-- What happens: the tables change, a reactor thread starts to dispatch a package or
goes one round further, the worker takes a chunk off its pipe. -/
inductive Event where
  | accept (fd fromId : ℕ)
  | close (fd : ℕ) (deleted : Bool)
  | serverClose (fd : ℕ)
  | dispatch (reactor fd : ℕ) (data : Bytes)
  | chunk (reactor : ℕ) (written : Bool)
  | task
  deriving DecidableEq

/-- One event.  A connection that is set up or closed is zeroed, `closed` included;
`swFactoryProcess_end` sets it. -/
def step : Event → MergeServer
  | .accept fd fromId =>
    { s with
      sessions := s.sessions.connectionNew fd fromId
      closed := update s.closed fd false }
  | .close fd deleted =>
    let sessions := s.sessions.close fd deleted
    { s with
      sessions := sessions
      closed :=
        if (sessions.connectionList fd).active = false then update s.closed fd false
        else s.closed }
  | .serverClose fd => { s with closed := update s.closed fd true }
  | .dispatch reactor fd data => s.dispatch reactor fd data
  | .chunk reactor written => s.dispatchChunk reactor written
  | .task =>
    match s.queue with
    | [] => s
    | c :: rest => { s with queue := rest }.onTask c

/-- The session table is used as it has to be, and a reactor thread dispatches packages
of its own connections. -/
def Lawful : Event → Prop
  | .accept fd fromId => s.sessions.Admissible (.accept fd fromId)
  | .close fd deleted => s.sessions.Admissible (.close fd deleted)
  | .dispatch reactor fd _ =>
    (s.sessions.connectionList fd).active = true ∧
      (s.sessions.connectionList fd).fromId = reactor
  | .serverClose _ | .chunk _ _ | .task => True

instance (e : Event) : Decidable (s.Lawful e) := by
  unfold Lawful
  split <;> infer_instance

/-- Every payload given to `onReceive` is a package that was dispatched for the
session it is reported for. -/
def Exact : Prop := ∀ r ∈ s.received, r ∈ s.dispatched
  deriving Decidable

/-- The round of a dispatch loop puts a chunk on the pipe. -/
def Sends (d : Dispatch) (written : Bool) : Prop :=
  ∃ sessionId, s.factoryDispatch d.fd = .send sessionId ∧ written = true

instance (d : Dispatch) (written : Bool) : Decidable (s.Sends d written) :=
  match h : s.factoryDispatch d.fd with
  | .send sessionId => decidable_of_iff (written = true) (by simp [Sends, h])
  | .error => .isFalse (by simp [Sends, h])
  | .dropped => .isFalse (by simp [Sends, h])

/-- **The condition on an event.**  A round of a dispatch loop behind the first one
sends a chunk exactly if the first round did, and with the session id the loop began
with; and the worker takes a chunk that goes on with a package exactly if the merge
buffer of its reactor holds what came before. -/
def Whole : Event → Prop
  | .chunk reactor written =>
    ∀ d ∈ (s.dispatching reactor).toList,
      (0 < d.offset → (s.Sends d written ↔ d.sent = true)) ∧
        (s.Sends d written → s.factoryDispatch d.fd = .send d.sessionId)
  | .task =>
    ∀ c ∈ s.queue.head?.toList,
      0 < c.piece.start → (s.discardData c.fd = false ↔ s.buffers c.fromId ≠ [])
  | .accept _ _ | .close _ _ | .serverClose _ | .dispatch _ _ _ => True

instance (e : Event) : Decidable (s.Whole e) := by
  unfold Whole
  split <;> infer_instance

/-! ## The invariant -/

open Pieces

/-- Where the dispatch loop of a reactor thread has led its chunks to. -/
def Reaches (c : Cursor ℕ UInt8) : Option Dispatch → Prop
  | none => c = none
  | some d =>
    if d.sent then
      ∃ p, c = some p ∧ p.tag = d.sessionId ∧ p.message = d.data ∧ p.stop = d.offset
    else c = none

/-- What the merge buffer holds at a cursor: the part of the package up to it, or
nothing, if that part was discarded. -/
def Merged : Cursor ℕ UInt8 → Bytes → Prop
  | none, buffer => buffer = []
  | some p, buffer => buffer = p.message.take p.stop ∨ buffer = []

/-- The chunks of one reactor lead from the worker's cursor `c` to its dispatch loop. -/
structure ReactorInv (reactor : ℕ) (buffer : Bytes) (queue : List PackageChunk)
    (loop : Option Dispatch) (c : Cursor ℕ UInt8) : Prop where
  merged : Merged c buffer
  linked : ∃ c', Linked c ((queue.filter (·.fromId = reactor)).map (·.piece)) c' ∧
    Reaches c' loop

/-- A chunk is the piece it is recorded as, and its package was dispatched. -/
structure ChunkInv (dispatched : List (ℕ × Bytes)) (c : PackageChunk) : Prop where
  fd : c.fd = c.piece.tag
  data : c.data = c.piece.content
  last : c.last = true ↔ c.piece.stop = c.piece.message.length
  known : (c.piece.tag, c.piece.message) ∈ dispatched

structure LoopInv (dispatched : List (ℕ × Bytes)) (reactor : ℕ) (d : Dispatch) : Prop where
  fromId : d.fromId = reactor
  known : (d.sessionId, d.data) ∈ dispatched
  sent : d.sent = true → 0 < d.offset

structure Inv (s : MergeServer) : Prop where
  reactors : ∀ reactor, ∃ c,
    ReactorInv reactor (s.buffers reactor) s.queue (s.dispatching reactor) c
  chunks : ∀ c ∈ s.queue, ChunkInv s.dispatched c
  loops : ∀ reactor, ∀ d ∈ s.dispatching reactor, LoopInv s.dispatched reactor d
  exact : s.Exact

/-! ## Dispatching -/

section Dispatching

variable {s : MergeServer} {reactor : ℕ}

theorem loops_update {dispatched : List (ℕ × Bytes)} {loops : ℕ → Option Dispatch}
    {loop : Option Dispatch} (h : ∀ r, ∀ d ∈ loops r, LoopInv dispatched r d)
    (hloop : ∀ d ∈ loop, LoopInv dispatched reactor d) :
    ∀ r, ∀ d ∈ update loops reactor loop r, LoopInv dispatched r d :=
  (forall_update_iff loops fun r loop => ∀ d ∈ loop, LoopInv dispatched r d).mpr
    ⟨hloop, fun r _ => h r⟩

theorem Inv.dispatch (h : s.Inv) {fd : ℕ} (data : Bytes)
    (hown : (s.sessions.connectionList fd).fromId = reactor) :
    (s.dispatch reactor fd data).Inv := by
  unfold MergeServer.dispatch
  split
  · exact h
  next hidle =>
  let package := ((s.sessions.connectionList fd).sessionId, data)
  have hmem : ∀ x ∈ s.dispatched, x ∈ s.dispatched ++ [package] :=
    fun x hx => mem_append_left _ hx
  have hloops : ∀ r, ∀ d ∈ s.dispatching r, LoopInv (s.dispatched ++ [package]) r d :=
    fun r d hd => ⟨(h.loops r d hd).fromId, hmem _ (h.loops r d hd).known, (h.loops r d hd).sent⟩
  have hchunks : ∀ c ∈ s.queue, ChunkInv (s.dispatched ++ [package]) c := by
    intro c hc
    have hchunk := h.chunks c hc
    exact ⟨hchunk.fd, hchunk.data, hchunk.last, hmem _ hchunk.known⟩
  have hexact : ∀ x ∈ s.received, x ∈ s.dispatched ++ [package] :=
    fun x hx => hmem x (h.exact x hx)
  by_cases hlen : 0 < data.length
  · simp only [dif_pos hlen]
    refine ⟨fun r => ?_, hchunks, loops_update hloops ?_, hexact⟩
    · obtain ⟨c, hc⟩ := h.reactors r
      by_cases hr : r = reactor
      · subst hr
        obtain ⟨c', hlinked, hreaches⟩ := hc.linked
        rw [hidle] at hreaches
        refine ⟨c, hc.merged, c', hlinked, ?_⟩
        simpa [Reaches] using hreaches
      · refine ⟨c, ?_⟩
        simp only [update_of_ne hr]
        exact hc
    · rintro d ⟨⟩
      exact ⟨hown, mem_append_right _ (mem_singleton.mpr rfl), nofun⟩
  · simp only [dif_neg hlen]
    exact ⟨h.reactors, hchunks, hloops, hexact⟩

variable {d : Dispatch}

/-- A loop none of whose chunks is on its way may go on without sending, or end. -/
theorem Inv.setLoop (h : s.Inv) (hd : s.dispatching reactor = some d) (hsent : d.sent = false)
    {loop : Option Dispatch} (hloop : ∀ d' ∈ loop, d'.sent = false ∧ d'.fromId = d.fromId ∧
      d'.sessionId = d.sessionId ∧ d'.data = d.data) :
    ({ s with dispatching := update s.dispatching reactor loop } : MergeServer).Inv := by
  refine ⟨fun r => ?_, h.chunks, loops_update h.loops fun d' hd' => ?_, h.exact⟩
  · obtain ⟨c, hc⟩ := h.reactors r
    refine ⟨c, ?_⟩
    by_cases hr : r = reactor
    · subst hr
      obtain ⟨c', hlinked, hreaches⟩ := hc.linked
      have hnone : c' = none := by
        rw [hd] at hreaches
        simpa [Reaches, hsent] using hreaches
      refine ⟨hc.merged, c', hlinked, ?_⟩
      simp only [update_self]
      cases loop with
      | none => exact hnone
      | some d' => simpa [Reaches, (hloop d' rfl).1] using hnone
    · simp only [update_of_ne hr]
      exact hc
  · have hold := h.loops reactor d hd
    obtain ⟨hsent', hfrom, hsession, hdata⟩ := hloop d' hd'
    refine ⟨hfrom.trans hold.fromId, ?_, fun htrue => absurd htrue (by simp [hsent'])⟩
    rw [hsession, hdata]
    exact hold.known

theorem advance_eq (d : Dispatch) (sent : Bool) :
    ∀ d' ∈ d.advance sent, d'.sent = sent ∧ d'.fromId = d.fromId ∧
      d'.sessionId = d.sessionId ∧ d'.data = d.data ∧ d'.offset = d.offset + d.len := by
  intro d' hd'
  unfold Dispatch.advance at hd'
  split at hd'
  · obtain rfl := Option.some.inj hd'
    exact ⟨rfl, rfl, rfl, rfl, rfl⟩
  · exact absurd hd' (by simp)

theorem follows_piece {c : Cursor ℕ UInt8} (hreaches : Reaches c (some d))
    (hsent : d.sent = false → d.offset = 0) : Follows c d.piece := by
  cases hd : d.sent with
  | true =>
    obtain ⟨p, rfl, htag, hmessage, hstop⟩ : ∃ p, c = some p ∧ p.tag = d.sessionId ∧
        p.message = d.data ∧ p.stop = d.offset := by simpa [Reaches, hd] using hreaches
    exact ⟨htag.symm, hmessage.symm, hstop.symm⟩
  | false =>
    obtain rfl : c = none := by simpa [Reaches, hd] using hreaches
    exact hsent hd

/-- Behind that chunk the loop has reached the cursor behind that piece. -/
theorem reaches_advance (d : Dispatch) : Reaches d.piece.next (d.advance true) := by
  have hle := d.offset_add_len_le
  unfold Dispatch.advance
  by_cases hlt : d.offset + d.len < d.data.length
  · have hne : d.piece.stop ≠ d.piece.message.length := by
      show d.offset + d.len ≠ d.data.length
      omega
    rw [dif_pos hlt, Piece.next, if_neg hne]
    exact ⟨d.piece, rfl, rfl, rfl, rfl⟩
  · have heq : d.piece.stop = d.piece.message.length := by
      show d.offset + d.len = d.data.length
      omega
    rw [dif_neg hlt, Piece.next, if_pos heq]
    rfl

theorem chunkInv_chunk (d : Dispatch) {dispatched : List (ℕ × Bytes)}
    (hknown : (d.sessionId, d.data) ∈ dispatched) : ChunkInv dispatched (d.chunk d.sessionId) where
  fd := rfl
  data := by
    show _ = (d.data.drop d.offset).take (d.offset + d.len - d.offset)
    rw [Nat.add_sub_cancel_left]
    rfl
  last := by
    have hlt := d.offset_lt
    show (!decide (bufferSize < d.sendN)) = true ↔ d.offset + d.len = d.data.length
    rw [Bool.not_eq_true', decide_eq_false_iff_not]
    unfold Dispatch.len Dispatch.sendN
    split <;> omega
  known := hknown

/-- A round that sends, with the session of the loop, puts the next piece at the end
of the chunks of its reactor. -/
theorem Inv.sendChunk (h : s.Inv) (hd : s.dispatching reactor = some d)
    (hsent : d.sent = false → d.offset = 0) : ({ s with
        queue := s.queue ++ [d.chunk d.sessionId]
        dispatching := update s.dispatching reactor (d.advance true) } :
      MergeServer).Inv := by
  have hloop := h.loops reactor d hd
  refine ⟨fun r => ?_, fun c hc => ?_, loops_update h.loops fun d' hd' => ?_, h.exact⟩
  · obtain ⟨c, hc⟩ := h.reactors r
    obtain ⟨c', hlinked, hreaches⟩ := hc.linked
    by_cases hr : r = reactor
    · subst hr
      rw [hd] at hreaches
      refine ⟨c, hc.merged, d.piece.next, ?_, ?_⟩
      · have hfilter : filter (fun x : PackageChunk => decide (x.fromId = r))
            (s.queue ++ [d.chunk d.sessionId]) =
              s.queue.filter (fun x => decide (x.fromId = r)) ++ [d.chunk d.sessionId] := by
          simp [Dispatch.chunk, hloop.fromId]
        rw [hfilter, map_append]
        exact hlinked.concat (follows_piece hreaches hsent)
      · simp only [update_self]
        exact reaches_advance d
    · refine ⟨c, hc.merged, c', ?_, ?_⟩
      · have hne : d.fromId ≠ r := by
          rw [hloop.fromId]
          exact Ne.symm hr
        simpa [filter_append, Dispatch.chunk, hne] using hlinked
      · simp only [update_of_ne hr]
        exact hreaches
  · rcases mem_append.mp hc with hc | hc
    · exact h.chunks c hc
    · obtain rfl : c = d.chunk d.sessionId := by simpa using hc
      exact chunkInv_chunk d hloop.known
  · obtain ⟨hsent', hfrom, hsession, hdata, hoffset⟩ := advance_eq d true d' hd'
    refine ⟨hfrom.trans hloop.fromId, ?_, fun _ => ?_⟩
    · rw [hsession, hdata]
      exact hloop.known
    · have hpos := d.len_pos
      omega

/-- **One round of a dispatch loop.** -/
theorem Inv.dispatchChunk (h : s.Inv) {written : Bool}
    (hwhole : s.Whole (.chunk reactor written)) : (s.dispatchChunk reactor written).Inv := by
  unfold MergeServer.dispatchChunk
  split
  · exact h
  next d hd =>
  obtain ⟨hsends, hsession⟩ := hwhole d (by simp [hd])
  have hloop := h.loops reactor d hd
  -- a round that sends nothing is one of a loop that has sent nothing
  have hsilent : ¬ s.Sends d written → d.sent = false := by
    intro hnot
    by_contra htrue
    have hsent : d.sent = true := by simpa using htrue
    exact hnot ((hsends (hloop.sent hsent)).mpr hsent)
  split
  · next herror =>
    exact h.setLoop hd (hsilent (by simp [Sends, herror])) (by simp)
  · next hdropped =>
    have hsent := hsilent (by simp [Sends, hdropped])
    refine h.setLoop hd hsent fun d' hd' => ?_
    obtain ⟨hsent', hfrom, hsession', hdata, -⟩ := advance_eq d d.sent d' hd'
    exact ⟨hsent'.trans hsent, hfrom, hsession', hdata⟩
  · next sessionId hsend =>
    split
    · next hwritten =>
      have hyes : s.Sends d written := ⟨sessionId, hsend, hwritten⟩
      obtain rfl : sessionId = d.sessionId := by
        have heq := hsend.symm.trans (hsession hyes)
        simpa using heq
      refine h.sendChunk hd fun hsent => ?_
      by_contra hoffset
      have htrue := (hsends (by omega)).mp hyes
      exact absurd (hsent.symm.trans htrue) Bool.false_ne_true
    · next hwritten =>
      refine h.setLoop hd (hsilent ?_) (by simp)
      rintro ⟨_, -, htrue⟩
      exact hwritten htrue

end Dispatching

/-! ## Merging -/

section Merging

variable {s : MergeServer} {c : PackageChunk} {rest : List PackageChunk}

variable {buffer : Bytes} {cursor : Cursor ℕ UInt8} {q : Piece ℕ UInt8}

/-- What the worker has of the package in front of a chunk that it takes. -/
theorem buffer_of_follows (hmerged : Merged cursor buffer) (hfollows : Follows cursor q)
    (hheld : 0 < q.start → buffer ≠ []) : buffer = q.message.take q.start := by
  cases cursor with
  | none =>
    have hstart : q.start = 0 := hfollows
    rw [hstart, take_zero]
    exact hmerged
  | some p =>
    obtain ⟨-, hmessage, hstart⟩ := hfollows
    have hpos := p.start_lt
    rcases hmerged with heq | hnil
    · rw [hmessage, hstart]
      exact heq
    · exact absurd hnil (hheld (by omega))

theorem buffer_eq_nil_of_follows (hmerged : Merged cursor buffer) (hfollows : Follows cursor q)
    (hheld : 0 < q.start → buffer = []) : buffer = [] := by
  cases cursor with
  | none => exact hmerged
  | some p =>
    obtain ⟨-, -, hstart⟩ := hfollows
    have hpos := p.start_lt
    exact hheld (by omega)

theorem merged_next_nil (q : Piece ℕ UInt8) : Merged q.next [] := by
  unfold Piece.next
  split
  · rfl
  · exact .inr rfl

/-- The worker's buffers change at the reactor of the chunk only, to what fits the
cursor behind it. -/
theorem Inv.takeChunk (h : s.Inv) (hqueue : s.queue = c :: rest)
    (hmerged : Merged c.piece.next buffer) {received : List (ℕ × Bytes)}
    (hreceived : ∀ r ∈ received, r ∈ s.dispatched) : ({ s with
        queue := rest
        buffers := update s.buffers c.fromId buffer
        received := received } : MergeServer).Inv := by
  refine ⟨fun r => ?_, fun x hx => ?_, h.loops, hreceived⟩
  · obtain ⟨cursor, hc⟩ := h.reactors r
    obtain ⟨c', hlinked, hreaches⟩ := hc.linked
    rw [hqueue] at hlinked
    by_cases hr : c.fromId = r
    · subst hr
      rw [filter_cons_of_pos (by simp), map_cons] at hlinked
      refine ⟨c.piece.next, ?_, c', hlinked.2, hreaches⟩
      simp only [update_self]
      exact hmerged
    · rw [filter_cons_of_neg (by simpa using hr)] at hlinked
      refine ⟨cursor, ?_, c', hlinked, hreaches⟩
      simp only [update_of_ne (Ne.symm hr)]
      exact hc.merged
  · exact h.chunks x (by rw [hqueue]; exact mem_cons_of_mem c hx)

/-- **The chunk that the worker takes goes behind the part of its package in front of it.** -/
theorem Inv.package_eq (h : s.Inv) (hqueue : s.queue = c :: rest) (hwhole : s.Whole .task)
    (hdiscard : s.discardData c.fd = false) :
    s.buffers c.fromId ++ c.data = c.piece.message.take c.piece.stop := by
  have hcond := hwhole c (by simp [hqueue])
  have hchunk := h.chunks c (by rw [hqueue]; exact mem_cons_self)
  obtain ⟨cursor, hc⟩ := h.reactors c.fromId
  obtain ⟨c', hlinked, -⟩ := hc.linked
  rw [hqueue, filter_cons_of_pos (by simp), map_cons] at hlinked
  rw [buffer_of_follows hc.merged hlinked.1 fun hstart => (hcond hstart).mp hdiscard, hchunk.data]
  exact prefix_append_content c.piece

/-- **The worker takes a chunk.** -/
theorem Inv.task (h : s.Inv) (hqueue : s.queue = c :: rest) (hwhole : s.Whole .task) :
    (({ s with queue := rest } : MergeServer).onTask c).Inv := by
  have hcond := hwhole c (by simp [hqueue])
  have hchunk := h.chunks c (by rw [hqueue]; exact mem_cons_self)
  obtain ⟨cursor, hc⟩ := h.reactors c.fromId
  obtain ⟨c', hlinked, -⟩ := hc.linked
  rw [hqueue, filter_cons_of_pos (by simp), map_cons] at hlinked
  have hfollows : Follows cursor c.piece := hlinked.1
  have hverdict : ({ s with queue := rest } : MergeServer).discardData c.fd = s.discardData c.fd :=
    rfl
  unfold MergeServer.onTask
  rw [hverdict]
  cases hdiscard : s.discardData c.fd with
  | true =>
    have hnil : s.buffers c.fromId = [] := by
      refine buffer_eq_nil_of_follows hc.merged hfollows fun hstart => ?_
      by_contra hne
      exact absurd ((hcond hstart).mpr hne) (by simp [hdiscard])
    have htake := h.takeChunk hqueue (merged_next_nil c.piece) h.exact
    rw [← hnil, update_eq_self] at htake
    exact htake
  | false =>
    rw [if_neg (by simp)]
    have hpackage := h.package_eq hqueue hwhole hdiscard
    split
    · next hlast =>
      have hstop := hchunk.last.mp hlast
      refine h.takeChunk hqueue (merged_next_nil c.piece) fun r hr => ?_
      rcases mem_append.mp hr with hr | hr
      · exact h.exact r hr
      · obtain rfl : r = (c.fd, s.buffers c.fromId ++ c.data) := by simpa using hr
        rw [hpackage, hstop, take_length, hchunk.fd]
        exact hchunk.known
    · next hlast =>
      refine h.takeChunk hqueue ?_ h.exact
      have hstop : c.piece.stop ≠ c.piece.message.length := fun heq => hlast (hchunk.last.mpr heq)
      rw [Piece.next, if_neg hstop]
      exact .inl hpackage

end Merging

/-! ## Runs -/

theorem inv_init (disableNotify discardTimeoutRequest : Bool) (maxConnection : ℕ) :
    (init disableNotify discardTimeoutRequest maxConnection).Inv where
  reactors := fun _ => ⟨none, rfl, none, rfl, rfl⟩
  chunks := by simp [init]
  loops := by simp [init]
  exact := by simp [init, Exact]

/-- **The step lemma.** -/
theorem Inv.step {s : MergeServer} (h : s.Inv) {e : Event} (hlaw : s.Lawful e)
    (hwhole : s.Whole e) : (s.step e).Inv := by
  cases e with
  | accept fd fromId => exact ⟨h.reactors, h.chunks, h.loops, h.exact⟩
  | close fd deleted => exact ⟨h.reactors, h.chunks, h.loops, h.exact⟩
  | serverClose fd => exact ⟨h.reactors, h.chunks, h.loops, h.exact⟩
  | dispatch reactor fd data => exact h.dispatch data hlaw.2
  | chunk reactor written => exact h.dispatchChunk hwhole
  | task =>
    cases hqueue : s.queue with
    | nil => simpa [MergeServer.step, hqueue] using h
    | cons c rest => simpa [MergeServer.step, hqueue] using h.task hqueue hwhole

theorem mem_dispatched_step {s : MergeServer} {e : Event} {x : ℕ × Bytes}
    (hx : x ∈ (s.step e).dispatched) :
    x ∈ s.dispatched ∨ ∃ reactor fd, e = .dispatch reactor fd x.2 := by
  cases e with
  | dispatch reactor fd data =>
    simp only [MergeServer.step, MergeServer.dispatch] at hx
    split at hx
    · exact .inl hx
    · refine (mem_append.mp hx).imp_right fun hnew => ⟨reactor, fd, ?_⟩
      rw [mem_singleton.mp hnew]
  | chunk reactor written =>
    simp only [MergeServer.step, dispatchChunk] at hx
    split at hx
    · exact .inl hx
    · split at hx
      · exact .inl hx
      · exact .inl hx
      · split_ifs at hx <;> exact .inl hx
  | task =>
    simp only [MergeServer.step] at hx
    split at hx
    · exact .inl hx
    · simp only [onTask] at hx
      split_ifs at hx <;> exact .inl hx
  | accept | close | serverClose => exact .inl hx

open StepRun

/-- **Packages are reassembled exactly.**  Take any interleaving of accepts, closes,
dispatch loops of any number of reactor threads and tasks of one worker.  If every
event is lawful and keeps packages whole, then in every state of the run each payload
given to `onReceive` is a package dispatched for the session it is reported for. -/
theorem exact_run (disableNotify discardTimeoutRequest : Bool) (maxConnection : ℕ)
    (events : List Event)
    (hlaw : EachStep step Lawful (init disableNotify discardTimeoutRequest maxConnection) events)
    (hwhole : EachStep step Whole (init disableNotify discardTimeoutRequest maxConnection) events) :
    ∀ used, used <+: events →
      (run step (init disableNotify discardTimeoutRequest maxConnection) used).Exact := by
  intro used hpre
  have hinv := ((hlaw.and hwhole).restrict hpre).run_invariant (P := Inv)
    (fun s e h he => h.step he.1 he.2) (inv_init disableNotify discardTimeoutRequest maxConnection)
  exact hinv.exact

/-- Two connections of reactor 0.  The first one sends a package of two chunks and is
closed between them, so that the worker discards the end chunk; the second one then
sends a short package. -/
def closedMidway : List Event :=
  [.accept 5 0, .accept 6 0, .dispatch 0 5 (replicate 8181 97), .chunk 0 true, .chunk 0 true,
    .task, .close 5 true, .task, .dispatch 0 6 [98], .chunk 0 true, .task]

/-- **The merge buffer outlives the package.**  The second connection is handed the
first chunk of the other connection's package in front of its own. -/
theorem not_exact_closed_midway :
    EachStep step Lawful (init false false 1024) closedMidway ∧
      ¬ (run step (init false false 1024) closedMidway).Exact := by
  decide +kernel

/-- Two reactors send packages of two and three chunks, interleaved at the worker. -/
def interleaved : List Event :=
  [.accept 5 0, .accept 6 1, .dispatch 0 5 (replicate 8181 97), .chunk 0 true,
    .dispatch 1 6 (replicate 16361 98), .chunk 1 true, .task, .chunk 0 true, .chunk 1 true,
    .task, .task, .chunk 1 true, .task, .task]

theorem exact_interleaved :
    (run step (init false false 1024) interleaved).received.length = 2 ∧
      (run step (init false false 1024) interleaved).Exact :=
  ⟨by decide +kernel,
    exact_run false false 1024 interleaved (by decide +kernel) (by decide +kernel) interleaved
      (prefix_refl _)⟩

end MergeServer

end Swoole
