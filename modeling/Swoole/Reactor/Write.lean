import Swoole.Core.Buffer
import Swoole.Library.StepRun

/-!
# Writing to a stream socket

`swReactor_write` first tries to send directly, but only while nothing is queued;
what the kernel does not take is appended to the socket's `out_buffer`, and the
write event is switched on.  `swReactor_onWrite` sends from the head of the queue
until it is empty or the kernel wants no more.

Both functions stop at every `send` for the kernel's answer and may then send again.
The model therefore has a place for the call in progress (`Call`), and three kinds of
event: a call of `write`, a write event, and an answer of the kernel.  `kernel` is
what the kernel has taken so far and `returned` lists the calls of `write` that have
returned, with what they returned; both are history variables.

The law is `Ordered`: what the kernel has taken, followed by what is queued, is the
concatenation of the data of the successful writes.  It holds between calls and
inside them, because a direct send only happens while the queue is empty, and a
direct send that moved anything ends the call.
-/

namespace Swoole

open List

/-- The global options `swReactor_write` looks at. -/
structure WriteSettings where
  socketBufferSize : ℕ
  socketDontwait : Bool

/-- The call a socket is in the middle of, waiting for the result of a `send`. -/
inductive Call where
  | idle
  | write (data : Bytes)
  | onWrite
  | closed
  deriving DecidableEq

/-- `swConnection`, as a writer sees it. -/
structure OutConn where
  outBuffer : Option Buffer
  bufferSize : ℕ
  sslSend : Bool
  readEvent : Bool
  writeEvent : Bool
  closeWait : Bool
  sendWait : Bool
  call : Call
  kernel : Bytes
  returned : List (Bytes × Ret)

namespace OutConn

/-- A fresh socket. -/
def init (bufferSize : ℕ) (sslSend readEvent : Bool) : OutConn where
  outBuffer := none
  bufferSize := bufferSize
  sslSend := sslSend
  readEvent := readEvent
  writeEvent := false
  closeWait := false
  sendWait := false
  call := .idle
  kernel := []
  returned := []

variable (cfg : WriteSettings) (c : OutConn)

/-- The chunks of the out buffer; `swBuffer_empty` asks whether there are none. -/
def chunks : List Chunk := (c.outBuffer.map Buffer.chunks).getD []

/-- The bytes in the out buffer that are still to be sent. -/
def queued : Bytes := (c.outBuffer.map Buffer.queued).getD []

/-- The data of the writes that returned success, in call order. -/
def succeeded : Bytes := (c.returned.filter fun r => r.2 = .ok).flatMap Prod.fst

/-! ## `swReactor_write` -/

/-- The call of `write` for `data` returns. -/
def returns (data : Bytes) (ret : Ret) : OutConn :=
  { c with call := .idle, returned := c.returned ++ [(data, ret)] }

/-- `append_buffer`: queue what is left of `data`, unless the queue is too long and
the program must not wait. -/
def appendBuffer (buffer : Buffer) (data left : Bytes) : OutConn :=
  if c.bufferSize < buffer.length ∧ cfg.socketDontwait = true then c.returns data .err
  else { c with outBuffer := some (buffer.append left) }.returns data .ok

/-- `do_buffer`: make sure that there is a buffer, and wait for write events. -/
def doBuffer (data left : Bytes) : OutConn :=
  let buffer := c.outBuffer.getD .new
  appendBuffer cfg { c with outBuffer := some buffer, writeEvent := true } buffer data left

/-- The first use of a socket gives it a `buffer_size`. -/
def withBufferSize : OutConn :=
  { c with bufferSize := if c.bufferSize = 0 then cfg.socketBufferSize else c.bufferSize }

/-- `swReactor_write`, up to its first `send`. -/
def write (data : Bytes) : OutConn :=
  let c' := withBufferSize cfg c
  if c'.chunks = [] then
    if c'.sslSend then doBuffer cfg c' data data else { c' with call := .write data }
  else appendBuffer cfg c' (c'.outBuffer.getD .new) data data

/-- What `swReactor_write` makes of an `errno`. -/
def writeErrno (data : Bytes) : Errno → OutConn
  | .eagain => doBuffer cfg c data data
  | .eintr => c
  | _ => c.returns data .err

/-- `swReactor_write`, from the result of a `send` on. -/
def writeSent (data : Bytes) (a : SendAnswer) : OutConn :=
  match send data.length a with
  | .sent count e =>
    if 0 < count then
      if data.length = count then { c with kernel := c.kernel ++ data }.returns data .ok
      else
        doBuffer cfg { c with kernel := c.kernel ++ data.take count } data (data.drop count)
    else writeErrno cfg c data e
  | .error e => writeErrno cfg c data e

/-! ## `swReactor_onWrite` -/

/-- `reactor->close`. -/
def closed : OutConn := { c with outBuffer := none, call := .closed }

/-- Pop the chunks at the head that are sent already, as `swConnection_buffer_send`
does without asking the kernel. -/
def skipSent : ℕ → Buffer → Buffer
  | 0, buffer => buffer
  | rounds + 1, buffer =>
    match buffer.chunks with
    | .data bytes offset :: _ =>
      if bytes.length - offset = 0 then skipSent rounds buffer.popTrunk else buffer
    | _ => buffer

/-- The loop of `swReactor_onWrite`, up to its next `send` or to its end. -/
def onWriteLoop (buffer : Buffer) : OutConn :=
  let buffer' := skipSent buffer.chunks.length buffer
  match buffer'.chunks with
  | [] =>
    { c with
      outBuffer := some buffer'
      writeEvent := false
      call := .idle }
  | .close :: _ => c.closed
  | .data _ _ :: _ => { c with outBuffer := some buffer', call := .onWrite }

/-- `swReactor_onWrite`, up to its first `send`. -/
def onWrite : OutConn :=
  match c.outBuffer with
  | none => { c with writeEvent := false }
  | some buffer => c.onWriteLoop buffer

/-- `swReactor_onWrite`, from the result of a `send` in `swConnection_buffer_send` on. -/
def onWriteSent (a : SendAnswer) : OutConn :=
  match c.outBuffer with
  | none => c
  | some buffer =>
    match buffer.chunks with
    | .data bytes offset :: _ =>
      let sendn := bytes.length - offset
      match send sendn a with
      | .sent count _ =>
        let c' := { c with kernel := c.kernel ++ (bytes.drop offset).take count }
        if count = sendn then c'.onWriteLoop buffer.popTrunk
        else c'.onWriteLoop (buffer.advance count)
      | .error e =>
        match connectionError e with
        | .error => c.onWriteLoop buffer
        | .close => c.closed
        | .wait =>
          if c.closeWait then c.closed else { c with sendWait := true, call := .idle }
        | .abort => c.closed
    | _ => c

/-! ## Events -/

/-- What can happen to the socket. -/
inductive Event where
  | write (data : Bytes)
  | writable
  | answer (a : SendAnswer)
  deriving DecidableEq

/-- An idle socket can be called; a call in progress waits for the kernel. -/
def step (c : OutConn) (event : Event) : OutConn :=
  match c.call, event with
  | .idle, .write data => write cfg c data
  | .idle, .writable => c.onWrite
  | .write data, .answer a => writeSent cfg c data a
  | .onWrite, .answer a => c.onWriteSent a
  | _, _ => c

/-- Events whose sends end with a count, `EAGAIN` or `EINTR`. -/
def Event.Benign : Event → Prop
  | .answer a => a.Benign
  | _ => True

instance (event : Event) : Decidable event.Benign := by
  unfold Event.Benign
  split <;> infer_instance

/-- **Nothing is lost, duplicated or reordered.** -/
def Ordered : Prop := c.kernel ++ c.queued = c.succeeded
  deriving Decidable

/-! ## The invariant -/

/-- The law, together with what keeps it: only data is queued, the socket is not
given up, and a direct send goes on only while nothing is queued. -/
structure Inv (c : OutConn) : Prop where
  ordered : c.Ordered
  allData : ∀ chunk ∈ c.chunks, chunk.IsData
  closeWait : c.closeWait = false
  direct : ∀ data, c.call = .write data → c.chunks = []

section Steps

variable {cfg c} {buffer : Buffer} {data left : Bytes}

theorem succeeded_returns_ok : (c.returns data .ok).succeeded = c.succeeded ++ data := by
  simp [succeeded, returns]

theorem succeeded_returns_err : (c.returns data .err).succeeded = c.succeeded := by
  simp [succeeded, returns]

theorem queued_of_chunks_nil (h : c.chunks = []) : c.queued = [] := by
  unfold chunks at h
  unfold queued
  cases hbuffer : c.outBuffer with
  | none => rfl
  | some buffer =>
    rw [hbuffer] at h
    change buffer.chunks = [] at h
    show buffer.chunks.flatMap Chunk.pending = []
    rw [h]
    rfl

theorem Inv.returns_err (h : c.Inv) : (c.returns data .err).Inv := by
  refine ⟨?_, h.allData, h.closeWait, fun _ hcall => by cases hcall⟩
  unfold Ordered
  rw [succeeded_returns_err]
  exact h.ordered

/-- A write whose data went to the kernel in part, or not at all, and is queued for
the rest. -/
theorem inv_append (hall : buffer.AllData) (hclose : c.closeWait = false)
    (hsum : c.kernel ++ buffer.queued ++ left = c.succeeded ++ data) :
    ({ c with outBuffer := some (buffer.append left) }.returns data .ok).Inv := by
  refine ⟨?_, Buffer.append_allData hall left, hclose, fun _ hcall => by cases hcall⟩
  unfold Ordered
  rw [succeeded_returns_ok]
  show c.kernel ++ (buffer.append left).queued = c.succeeded ++ data
  rw [Buffer.append_queued, ← append_assoc, hsum]

/-- `do_buffer` after a direct send of the part of `data` before `left`: the queue is
empty, so it is not too long either. -/
theorem inv_doBuffer_of_empty (hempty : c.chunks = []) (hclose : c.closeWait = false)
    (hsum : c.kernel ++ left = c.succeeded ++ data) : (doBuffer cfg c data left).Inv := by
  have hchunks : (c.outBuffer.getD .new).chunks = [] := by
    unfold chunks at hempty
    cases hbuffer : c.outBuffer with
    | none => rfl
    | some buffer =>
      rw [hbuffer] at hempty
      exact hempty
  have hlen := (c.outBuffer.getD .new).length_of_empty hchunks
  have hqueued : (c.outBuffer.getD .new).queued = [] := by
    unfold Buffer.queued
    rw [hchunks]
    rfl
  have hall : (c.outBuffer.getD .new).AllData := by
    intro chunk hchunk
    rw [hchunks] at hchunk
    cases hchunk
  unfold doBuffer appendBuffer
  simp only [hlen, Nat.not_lt_zero, false_and, if_false]
  refine inv_append (c := { c with outBuffer := some (c.outBuffer.getD .new), writeEvent := true })
    hall hclose ?_
  show c.kernel ++ (c.outBuffer.getD .new).queued ++ left = c.succeeded ++ data
  rw [hqueued, append_nil, hsum]

variable (h : c.Inv)
include h

/-- The law before anything of `data` is sent, with an empty queue. -/
theorem Inv.sum_of_empty (hempty : c.chunks = []) : c.kernel ++ data = c.succeeded ++ data := by
  have hordered : c.kernel ++ c.queued = c.succeeded := h.ordered
  rw [queued_of_chunks_nil hempty, append_nil] at hordered
  rw [hordered]

/-- Choosing the buffer size changes nothing the invariant speaks about. -/
theorem Inv.withBufferSize : (withBufferSize cfg c).Inv :=
  ⟨h.ordered, h.allData, h.closeWait, h.direct⟩

theorem Inv.appendBuffer (hne : c.chunks ≠ []) :
    (appendBuffer cfg c (c.outBuffer.getD .new) data data).Inv := by
  cases hbuffer : c.outBuffer with
  | none => exact absurd (by simp [chunks, hbuffer]) hne
  | some buffer =>
    have hordered : c.kernel ++ c.queued = c.succeeded := h.ordered
    have hall := h.allData
    rw [queued, hbuffer] at hordered
    rw [chunks, hbuffer] at hall
    unfold OutConn.appendBuffer
    split
    · exact h.returns_err
    · exact inv_append hall h.closeWait (congrArg (· ++ data) hordered)

theorem Inv.write : (write cfg c data).Inv := by
  have h' : (OutConn.withBufferSize cfg c).Inv := h.withBufferSize
  unfold OutConn.write
  simp only
  split
  · next hempty =>
    split
    · exact inv_doBuffer_of_empty hempty h'.closeWait (h'.sum_of_empty hempty)
    · exact ⟨h'.ordered, h'.allData, h'.closeWait, fun _ _ => hempty⟩
  · next hne => exact h'.appendBuffer hne

theorem Inv.writeErrno (hcall : c.call = .write data) (e : Errno) :
    (writeErrno cfg c data e).Inv := by
  have hempty := h.direct data hcall
  cases e with
  | eagain => exact inv_doBuffer_of_empty hempty h.closeWait (h.sum_of_empty hempty)
  | eintr => exact h
  | _ => exact h.returns_err

theorem Inv.writeSent (hcall : c.call = .write data) (a : SendAnswer) :
    (writeSent cfg c data a).Inv := by
  have hempty := h.direct data hcall
  have hsum : c.kernel ++ data = c.succeeded ++ data := h.sum_of_empty hempty
  unfold OutConn.writeSent
  cases a with
  | fail e => exact h.writeErrno hcall e
  | accept limit e =>
    simp only [send]
    split
    · split
      · -- the kernel took everything
        refine ⟨?_, h.allData, h.closeWait, fun _ hidle => by cases hidle⟩
        unfold Ordered
        rw [succeeded_returns_ok]
        show (c.kernel ++ data) ++ c.queued = c.succeeded ++ data
        rw [queued_of_chunks_nil hempty, append_nil, hsum]
      · -- the kernel took a part: the rest is queued
        refine inv_doBuffer_of_empty hempty h.closeWait ?_
        show (c.kernel ++ data.take (min limit data.length)) ++
          data.drop (min limit data.length) = c.succeeded ++ data
        rw [append_assoc, take_append_drop, hsum]
    · exact h.writeErrno hcall e

omit h

theorem skipSent_queued : ∀ (rounds : ℕ) (buffer : Buffer), buffer.AllData →
    (skipSent rounds buffer).queued = buffer.queued ∧ (skipSent rounds buffer).AllData := by
  intro rounds
  induction rounds with
  | zero => intro buffer hall; exact ⟨rfl, hall⟩
  | succ rounds ih =>
    intro buffer hall
    unfold skipSent
    split
    · next bytes offset rest hchunks =>
      split
      · next hsent =>
        obtain ⟨hqueued, hall'⟩ := ih _ (Buffer.popTrunk_allData hall hchunks)
        refine ⟨?_, hall'⟩
        rw [hqueued, Buffer.queued_of_cons hchunks]
        show _ = bytes.drop offset ++ _
        rw [drop_of_length_le (by omega), nil_append]
      · exact ⟨rfl, hall⟩
    · exact ⟨rfl, hall⟩

/-- The loop neither sends nor loses anything before its next `send`. -/
theorem inv_onWriteLoop (hall : buffer.AllData) (hclose : c.closeWait = false)
    (hsum : c.kernel ++ buffer.queued = c.succeeded) : (c.onWriteLoop buffer).Inv := by
  obtain ⟨hqueued, hall'⟩ := skipSent_queued buffer.chunks.length buffer hall
  rw [← hqueued] at hsum
  unfold onWriteLoop
  simp only
  split
  · exact ⟨hsum, hall', hclose, nofun⟩
  · next rest hchunks =>
    have hdata := hall' .close (by rw [hchunks]; exact mem_cons_self)
    exact hdata.elim
  · exact ⟨hsum, hall', hclose, nofun⟩

theorem Inv.onWrite (h : c.Inv) : c.onWrite.Inv := by
  have hordered : c.kernel ++ c.queued = c.succeeded := h.ordered
  have hall := h.allData
  unfold OutConn.onWrite
  split
  · exact ⟨h.ordered, h.allData, h.closeWait, h.direct⟩
  · next buffer hbuffer =>
    rw [queued, hbuffer] at hordered
    rw [chunks, hbuffer] at hall
    exact inv_onWriteLoop hall h.closeWait hordered

/-- What a benign `send` from the head of the queue moves to the kernel is taken off
the queue. -/
theorem Inv.onWriteSent (h : c.Inv) {a : SendAnswer} (ha : a.Benign) : (c.onWriteSent a).Inv := by
  have hordered : c.kernel ++ c.queued = c.succeeded := h.ordered
  have hall := h.allData
  unfold OutConn.onWriteSent
  split
  · exact h
  · next buffer hbuffer =>
    rw [queued, hbuffer] at hordered
    rw [chunks, hbuffer] at hall
    split
    swap
    · exact h
    next bytes offset rest hchunks =>
      cases a with
      | accept limit e =>
        simp only [send]
        split
        · -- the whole chunk is out
          next hfull =>
            refine inv_onWriteLoop (Buffer.popTrunk_allData hall hchunks) h.closeWait ?_
            show c.kernel ++ (bytes.drop offset).take (min limit (bytes.length - offset)) ++
              buffer.popTrunk.queued = c.succeeded
            rw [hfull, take_of_length_le (by rw [length_drop]), append_assoc, ← hordered]
            exact congrArg (c.kernel ++ ·) (Buffer.queued_of_cons hchunks).symm
        · refine inv_onWriteLoop (Buffer.advance_allData hall hchunks _) h.closeWait ?_
          rw [append_assoc, Buffer.advance_queued hchunks]
          exact hordered
      | fail e =>
        rcases ha with rfl | rfl
        · simp only [connectionError]
          rw [if_neg (by simp [h.closeWait])]
          exact ⟨h.ordered, h.allData, h.closeWait, fun _ hidle => by cases hidle⟩
        · exact inv_onWriteLoop hall h.closeWait hordered

/-- **One event keeps the order.** -/
theorem Inv.step (h : c.Inv) {event : Event} (hevent : event.Benign) : (step cfg c event).Inv := by
  unfold OutConn.step
  split
  · exact h.write
  · exact h.onWrite
  · next hcall => exact h.writeSent hcall _
  · exact h.onWriteSent hevent
  · exact h

theorem inv_init (bufferSize : ℕ) (sslSend readEvent : Bool) :
    (init bufferSize sslSend readEvent).Inv :=
  ⟨rfl, by simp [init, chunks], rfl, fun _ hcall => by cases hcall⟩

end Steps

/-- **The output stream keeps its order.**  For every socket and all options, every
sequence of writes and write events, and every outcome of every `send` — any count,
`EAGAIN`, `EINTR` — what the kernel has taken followed by what is queued is the data
of the successful writes, in call order. -/
theorem ordered_run (cfg : WriteSettings) (bufferSize : ℕ) (sslSend readEvent : Bool)
    (events : List Event) (hevents : ∀ event ∈ events, event.Benign) :
    (StepRun.run (step cfg) (init bufferSize sslSend readEvent) events).Ordered :=
  (StepRun.run_invariant_of_inputs (f := step cfg) (P := Inv) (B := Event.Benign)
    (fun _ _ hevent h => h.step hevent) events hevents
    (inv_init bufferSize sslSend readEvent)).ordered

/-- Three writes: the first goes out in part, the second is queued behind it, and the
third is refused because the queue is too long; the write event sends the rest. -/
theorem ordered_partial_sends :
    (StepRun.run (step ⟨2, true⟩) (init 0 false true)
      [.write [1, 2, 3], .answer (.fail .eintr), .answer (.accept 1 .ok), .write [4],
        .write [5], .writable, .answer (.accept 1 .ok), .answer (.fail .eagain),
        .writable, .answer (.accept 9 .ok)]).Ordered :=
  ordered_run ⟨2, true⟩ 0 false true _ (by decide)

end OutConn

end Swoole
