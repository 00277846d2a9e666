import Swoole.Core.String
import Swoole.Reactor.Write

/-!
# The response queue of a connection

`swReactorThread_send` takes the responses of the workers.  While nothing is queued, data
goes to the kernel directly; what the kernel does not take is queued in chunks of at most
`SW_BUFFER_SIZE_BIG` bytes.  A close request closes the connection at once if nothing is
queued, and is queued itself otherwise.  `swReactorThread_onWrite` sends from the head of the
queue and closes the connection when it comes to the close chunk.

As in `Reactor.Write`, the functions stop at every `send` for the kernel's answer, and the
model has a place for the call in progress.  `registered` is whether `reactor->set` finds the
descriptor; if it does not, the connection is given up.

`written`, `accepted` and `late` are history variables: what the kernel has taken, the data
for which `swReactorThread_send` returned success before a close request was queued, and
after it.  `ClosedInOrder` is the law: a connection that ends at the close chunk has written
what was accepted, neither less nor more.

The queueing loop counts in an `int`.  Data of `2^31` bytes or more is negative there, and
nothing of it is queued (`enqueue_of_large`).
-/

open List StepRun

namespace Swoole

/-- The part of a queue that is to be sent before the connection is closed. -/
def beforeClose : List Chunk → Bytes
  | [] => []
  | .close :: _ => []
  | .data bytes offset :: rest => bytes.drop offset ++ beforeClose rest

theorem beforeClose_append_data {chunks : List Chunk} (h : .close ∉ chunks) (data : Bytes) :
    beforeClose (chunks ++ [.data data 0]) = beforeClose chunks ++ data := by
  induction chunks with
  | nil => simp [beforeClose]
  | cons chunk chunks ih =>
    cases chunk with
    | close => exact absurd mem_cons_self h
    | data bytes offset =>
      have hrest : Chunk.close ∉ chunks := fun hmem => h (mem_cons_of_mem _ hmem)
      simp only [cons_append, beforeClose, ih hrest, append_assoc]

theorem beforeClose_append_of_mem {chunks : List Chunk} (h : .close ∈ chunks)
    (back : List Chunk) : beforeClose (chunks ++ back) = beforeClose chunks := by
  induction chunks with
  | nil => exact absurd h not_mem_nil
  | cons chunk chunks ih =>
    cases chunk with
    | close => rfl
    | data bytes offset =>
      have hrest : Chunk.close ∈ chunks := by simpa using h
      simp only [cons_append, beforeClose, ih hrest]

theorem beforeClose_append_close (chunks : List Chunk) :
    beforeClose (chunks ++ [.close]) = beforeClose chunks := by
  induction chunks with
  | nil => rfl
  | cons chunk chunks ih =>
    cases chunk with
    | close => rfl
    | data bytes offset => simp only [cons_append, beforeClose, ih]

/-- The options that sending depends on. -/
structure ResponseSettings where
  bufferOutputSize : ℕ
  socketBufferSize : ℕ
  disableNotify : Bool
  deriving DecidableEq

/-- The call a connection is in the middle of, waiting for the result of a `send`. -/
inductive ResponseCall where
  | idle
  | direct (data : Bytes)
  | onWrite
  deriving DecidableEq

/-- How a connection ends: at the close chunk, or in another way. -/
inductive ConnEnd where
  | chunk
  | other
  deriving DecidableEq

/-- `swConnection`, as the response queue sees it. -/
structure ResponseConn where
  outBuffer : Option Buffer
  directSend : Bool
  removed : Bool
  closeReset : Bool
  overflow : Bool
  connectNotify : Bool
  closeNotify : Bool
  closeForce : Bool
  closeWait : Bool
  sendWait : Bool
  call : ResponseCall
  ended : Option ConnEnd
  written : Bytes
  accepted : Bytes
  late : Bytes
  deriving DecidableEq

namespace ResponseConn

open OutConn (skipSent)

/-- A connection as `swServer_master_onAccept` leaves it. -/
def init (directSend connectNotify : Bool) : ResponseConn where
  outBuffer := none
  directSend := directSend
  removed := false
  closeReset := false
  overflow := false
  connectNotify := connectNotify
  closeNotify := false
  closeForce := false
  closeWait := false
  sendWait := false
  call := .idle
  ended := none
  written := []
  accepted := []
  late := []

variable (cfg : ResponseSettings) (c : ResponseConn)

/-- The chunks of the out buffer; `swBuffer_empty` asks whether there are none. -/
def chunks : List Chunk := (c.outBuffer.map Buffer.chunks).getD []

/-- What the client gets in front of a close: it is with the kernel, or queued. -/
def handed : Bytes := c.written ++ beforeClose c.chunks

/-- `reactor->close`. -/
def finish (how : ConnEnd) : ResponseConn :=
  { c with outBuffer := none, call := .idle, ended := some how }

/-- `swReactorThread_send` returns success for `data`. -/
def accept (data : Bytes) : ResponseConn :=
  if .close ∈ c.chunks then { c with call := .idle, late := c.late ++ data }
  else { c with call := .idle, accepted := c.accepted ++ data }

/-! ## `swReactorThread_send` -/

/-- The queueing loop, for the bytes that are left. -/
def enqueueLoop : ℕ → Buffer → Bytes → Buffer
  | 0, buffer, _ => buffer
  | rounds + 1, buffer, left =>
    if left = [] then buffer
    else enqueueLoop rounds (buffer.append (left.take bufferSizeBig)) (left.drop bufferSizeBig)

/-- `int _length = _send_length;` and the loop `while (_length > 0)`. -/
def enqueue (buffer : Buffer) (left : Bytes) : Buffer :=
  if 0 < toInt32 left.length then enqueueLoop left.length buffer left else buffer

/-- Wait for write events, or give the connection up. -/
def listen (registered : Bool) : ResponseConn := if registered then c else c.finish .other

/-- Go on with a new queue and return success for `data`. -/
def queueData (queue : Buffer) (overflow : Bool) (data : Bytes) (registered : Bool) :
    ResponseConn :=
  ({ c with outBuffer := some queue, overflow := overflow }.accept data).listen registered

/-- Queue what is `left` of `data`. -/
def sendData (data left : Bytes) (registered : Bool) : ResponseConn :=
  if c.removed then { c with outBuffer := some (c.outBuffer.getD .new), call := .idle }
  else
    c.queueData (enqueue (c.outBuffer.getD .new) left)
      (c.overflow || decide (cfg.bufferOutputSize ≤ (c.outBuffer.getD .new).length)) data registered

/-- `swReactorThread_send` with data, up to the first `send`. -/
def reactorSend (data : Bytes) (registered : Bool) : ResponseConn :=
  if c.chunks = [] then
    if c.directSend then { c with call := .direct data } else c.sendData cfg data data registered
  else c.sendData cfg data data registered

/-- `swReactorThread_send` with data, from the result of a direct `send` on.  The result `-1`
is compared with the length as a `uint32_t`. -/
def directSent (data : Bytes) (a : SendAnswer) (registered : Bool) : ResponseConn :=
  match send data.length a with
  | .sent count e =>
    if count = data.length then { c with written := c.written ++ data }.accept data
    else if 0 < count then
      { c with written := c.written ++ data.take count }.sendData cfg data (data.drop count)
        registered
    else if e = .eintr then c
    else c.sendData cfg data data registered
  | .error e =>
    if data.length = toUInt32 (-1) then c.accept data
    else if e = .eintr then c
    else c.sendData cfg data data registered

/-- `swReactorThread_send` with a close event. -/
def reactorSendClose (registered : Bool) : ResponseConn :=
  if c.closeReset = true ∨ c.chunks = [] then c.finish .other
  else { c with outBuffer := some (c.outBuffer.getD .new).appendClose }.listen registered

/-! ## `swReactorThread_onWrite` -/

/-- The loop of `swReactorThread_onWrite`, up to its next `send` or to its end. -/
def onWriteLoop (buffer : Buffer) : ResponseConn :=
  let buffer' := skipSent buffer.chunks.length buffer
  match buffer'.chunks with
  | [] =>
    { c with
      outBuffer := some buffer'
      overflow := c.overflow && decide (cfg.socketBufferSize ≤ buffer'.length)
      call := .idle }
  | .close :: _ => c.finish .chunk
  | .data _ _ :: _ => { c with outBuffer := some buffer', call := .onWrite }

/-- `swReactorThread_onWrite`, up to its first `send`. -/
def onWrite : ResponseConn :=
  if c.connectNotify then { c with connectNotify := false }
  else if c.closeNotify then { c with closeNotify := false }
  else if cfg.disableNotify = true ∧ c.closeForce = true then c.finish .other
  else
    match c.outBuffer with
    | none => c
    | some buffer => c.onWriteLoop cfg buffer

/-- `swReactorThread_onWrite`, from the result of a `send` in `swConnection_buffer_send` on. -/
def onWriteSent (a : SendAnswer) : ResponseConn :=
  match c.outBuffer with
  | none => c
  | some buffer =>
    match buffer.chunks with
    | .data bytes offset :: _ =>
      let sendn := bytes.length - offset
      match send sendn a with
      | .sent count _ =>
        let c' := { c with written := c.written ++ (bytes.drop offset).take count }
        if count = sendn then c'.onWriteLoop cfg buffer.popTrunk
        else c'.onWriteLoop cfg (buffer.advance count)
      | .error e =>
        match connectionError e with
        | .error => c.onWriteLoop cfg buffer
        | .close => { c with closeWait := true }.finish .other
        | .wait =>
          if c.closeWait then c.finish .other else { c with sendWait := true, call := .idle }
        | .abort => c.finish .other
    | _ => c

/-! ## Events -/

/-- What can happen to the connection: a response of a worker, a write event, an answer of
the kernel; and that the client goes, user code asks for a reset, or the heartbeat thread
finds the connection idle. -/
inductive Event where
  | data (bytes : Bytes) (registered : Bool)
  | close (registered : Bool)
  | writable
  | answer (a : SendAnswer) (registered : Bool)
  | gone
  | reset
  | heartbeat
  deriving DecidableEq

def step (c : ResponseConn) (event : Event) : ResponseConn :=
  if c.ended.isSome then c
  else
    match c.call, event with
    | .idle, .data bytes registered => c.reactorSend cfg bytes registered
    | .idle, .close registered => c.reactorSendClose registered
    | .idle, .writable => c.onWrite cfg
    | .direct data, .answer a registered => c.directSent cfg data a registered
    | .onWrite, .answer a _ => c.onWriteSent cfg a
    | _, .gone => { c with removed := true }
    | _, .reset => { c with closeReset := true }
    | _, .heartbeat => { c with closeForce := true, closeNotify := true, closeWait := true }
    | _, _ => c

/-- **The law**: when the connection has ended at the close chunk, the kernel was given the
data accepted before the close request, in order, and nothing else. -/
def ClosedInOrder : Prop := c.ended = some .chunk → c.written = c.accepted
  deriving Decidable

/-- **The condition**: the length of the data is an `int`. -/
def Event.Fits : Event → Prop
  | .data bytes _ => bytes.length < 2 ^ 31
  | _ => True

instance (event : Event) : Decidable event.Fits := by
  unfold Event.Fits
  split <;> infer_instance

/-! ## The invariant -/

variable {cfg c} {buffer : Buffer} {data left : Bytes} {registered : Bool}

theorem skipSent_beforeClose : ∀ (rounds : ℕ) (buffer : Buffer),
    beforeClose (skipSent rounds buffer).chunks = beforeClose buffer.chunks := by
  intro rounds
  induction rounds with
  | zero => intro buffer; rfl
  | succ rounds ih =>
    intro buffer
    unfold skipSent
    split
    · next bytes offset rest hchunks =>
      split
      · next hsent =>
        rw [ih, Buffer.popTrunk_chunks hchunks, hchunks]
        show _ = bytes.drop offset ++ _
        rw [drop_of_length_le (by omega), nil_append]
      · rfl
    · rfl

theorem skipSent_of_nil {rounds : ℕ} (h : buffer.chunks = []) :
    skipSent rounds buffer = buffer := by
  cases rounds with
  | zero => rfl
  | succ rounds =>
    unfold skipSent
    rw [h]

/-- Queued data comes before a close only if the close is not there yet. -/
theorem enqueueLoop_chunks : ∀ (rounds : ℕ) (buffer : Buffer) (left : Bytes), left.length ≤ rounds →
    beforeClose (enqueueLoop rounds buffer left).chunks =
        (if .close ∈ buffer.chunks then beforeClose buffer.chunks
          else beforeClose buffer.chunks ++ left) ∧
      (.close ∈ (enqueueLoop rounds buffer left).chunks ↔ .close ∈ buffer.chunks) := by
  intro rounds
  induction rounds with
  | zero =>
    intro buffer left hle
    obtain rfl := length_eq_zero_iff.mp (Nat.le_zero.mp hle)
    simp [enqueueLoop]
  | succ rounds ih =>
    intro buffer left hle
    unfold enqueueLoop
    split
    · next hnil => simp [hnil]
    · next hne =>
      obtain ⟨hbefore, hclose⟩ := ih (buffer.append (left.take bufferSizeBig))
        (left.drop bufferSizeBig) (by rw [length_drop, bufferSizeBig]; omega)
      have hchunks : (buffer.append (left.take bufferSizeBig)).chunks =
        buffer.chunks ++ [.data (left.take bufferSizeBig) 0] := rfl
      have hmem : Chunk.close ∈ (buffer.append (left.take bufferSizeBig)).chunks ↔
          .close ∈ buffer.chunks := by
        rw [hchunks]
        simp
      refine ⟨?_, hclose.trans hmem⟩
      rw [hbefore, if_congr hmem rfl rfl, hchunks]
      split
      · next hthere => exact beforeClose_append_of_mem hthere _
      · next hnot =>
        rw [beforeClose_append_data hnot, append_assoc, take_append_drop]

theorem enqueue_chunks (hfits : left.length < 2 ^ 31) :
    beforeClose (enqueue buffer left).chunks =
        (if .close ∈ buffer.chunks then beforeClose buffer.chunks
          else beforeClose buffer.chunks ++ left) ∧
      (.close ∈ (enqueue buffer left).chunks ↔ .close ∈ buffer.chunks) := by
  unfold enqueue
  rw [toInt32_natCast hfits]
  split
  · exact enqueueLoop_chunks left.length buffer left le_rfl
  · next hzero =>
    obtain rfl : left = [] := length_eq_zero_iff.mp (by omega)
    simp

/-- Nothing is queued of data whose length is no `int`. -/
theorem enqueue_of_large (hlow : 2 ^ 31 ≤ left.length) (hhigh : left.length < 2 ^ 32) :
    enqueue buffer left = buffer := by
  unfold enqueue
  rw [toInt32_of_le (by omega) (by omega), if_neg (by omega)]

/-- What is out and what is to go out before a close is what was accepted; or the client is
gone, nothing is queued and nothing can be any more. -/
def Balanced (c : ResponseConn) : Prop :=
  c.removed = true ∧ c.chunks = [] ∨ c.written ++ beforeClose c.chunks = c.accepted

structure Inv (c : ResponseConn) : Prop where
  balanced : c.ended = none → c.Balanced
  direct : ∀ data, c.call = .direct data → c.chunks = [] ∧ data.length < 2 ^ 31
  closed : c.ClosedInOrder

theorem inv_finish_other : (c.finish .other).Inv where
  balanced := nofun
  direct := nofun
  closed := nofun

theorem inv_listen (h : c.Inv) : (c.listen registered).Inv := by
  unfold listen
  split
  · exact h
  · exact inv_finish_other

theorem chunks_getD : (c.outBuffer.getD .new).chunks = c.chunks := by
  unfold chunks
  cases c.outBuffer <;> rfl

theorem Balanced.sum (h : c.Balanced) (hopen : c.removed = false) :
    c.written ++ beforeClose c.chunks = c.accepted := by
  rcases h with ⟨hremoved, -⟩ | hsum
  · exact absurd (hremoved.symm.trans hopen) (by decide)
  · exact hsum

theorem accept_handed (data : Bytes) :
    (c.accept data).handed = c.handed ∧ (c.accept data).call = .idle := by
  unfold accept
  split <;> exact ⟨rfl, rfl⟩

theorem handed_queue (queue : Buffer) (overflow : Bool) :
    { c with outBuffer := some queue, overflow := overflow }.handed =
      c.written ++ beforeClose queue.chunks := rfl

theorem sendData_handed (hopen : c.removed = false) (hclose : .close ∉ c.chunks)
    (hfits : left.length < 2 ^ 31) :
    (c.sendData cfg data left true).handed = c.handed ++ left ∧
      (c.sendData cfg data left true).call = .idle := by
  have hbefore := (@enqueue_chunks (c.outBuffer.getD .new) left hfits).1
  rw [chunks_getD, if_neg hclose] at hbefore
  rw [sendData, if_neg (by simp [hopen]), queueData, listen, if_pos rfl]
  refine ⟨?_, (accept_handed data).2⟩
  rw [(accept_handed data).1, handed_queue, hbefore, handed, append_assoc]

/-- Nothing is queued of data whose length is no `int`. -/
theorem sendData_of_large (hopen : c.removed = false) (hlow : 2 ^ 31 ≤ left.length)
    (hhigh : left.length < 2 ^ 32) : (c.sendData cfg data left true).handed = c.handed := by
  rw [sendData, if_neg (by simp [hopen]), queueData, listen, if_pos rfl,
    enqueue_of_large hlow hhigh, (accept_handed data).1, handed_queue, chunks_getD, handed]

theorem sendData_call : (c.sendData cfg data left registered).call = .idle := by
  unfold sendData queueData listen
  split_ifs
  · rfl
  · exact (accept_handed data).2
  · rfl

/-- A direct `send` is answered: all of the data is handed on, or it has to be tried again. -/
theorem directSent_handed (hopen : c.removed = false) (hempty : c.chunks = [])
    (hfits : data.length < 2 ^ 31) (a : SendAnswer) :
    c.directSent cfg data a true = c ∨ (c.directSent cfg data a true).handed = c.handed ++ data ∧
      (c.directSent cfg data a true).call = .idle := by
  have hclose : .close ∉ c.chunks := by simp [hempty]
  have hlen : data.length ≠ toUInt32 (-1) := by
    have hvalue : toUInt32 (-1) = 2 ^ 32 - 1 := rfl
    omega
  unfold directSent
  split
  · next count e _ =>
    split_ifs
    · refine .inr ⟨(accept_handed data).1.trans ?_, (accept_handed data).2⟩
      show c.written ++ data ++ beforeClose c.chunks = c.handed ++ data
      simp [handed, hempty, beforeClose]
    · obtain ⟨hhanded, hcall⟩ := @sendData_handed cfg { c with
        written := c.written ++ data.take count } data (data.drop count) hopen hclose
          (by rw [length_drop]; omega)
      refine .inr ⟨hhanded.trans ?_, hcall⟩
      show c.written ++ data.take count ++ beforeClose c.chunks ++ _ = c.handed ++ data
      simp [handed, hempty, beforeClose]
    · exact .inl rfl
    · exact .inr (sendData_handed hopen hclose hfits)
  · rw [if_neg hlen]
    split_ifs
    · exact .inl rfl
    · exact .inr (sendData_handed hopen hclose hfits)

/-- A direct `send` that fails for good ends the call. -/
theorem directSent_call_of_eagain :
    (c.directSent cfg data (.fail .eagain) registered).call = .idle := by
  simp only [directSent, send, reduceCtorEq, if_false]
  split_ifs
  · exact (accept_handed data).2
  · exact sendData_call

variable (hended : c.ended = none)
include hended

theorem inv_of_balanced (hcall : ∀ data, c.call ≠ .direct data) (h : c.Balanced) : c.Inv :=
  ⟨fun _ => h, fun data hdata => absurd hdata (hcall data), fun h => by simp [hended] at h⟩

theorem inv_accept (hlate : .close ∈ c.chunks → c.Balanced)
    (hsum : .close ∉ c.chunks → c.removed = true ∧ c.chunks = [] ∨
      c.written ++ beforeClose c.chunks = c.accepted ++ data) : (c.accept data).Inv := by
  unfold accept
  split
  · next hmem => exact inv_of_balanced hended nofun (hlate hmem)
  · next hnot => exact inv_of_balanced hended nofun (hsum hnot)

/-- A new queue that ends with what is `left` of `data`, unless a close is in the way. -/
theorem inv_queueData {queue : Buffer} {overflow : Bool}
    (hbefore : beforeClose queue.chunks =
      if .close ∈ c.chunks then beforeClose c.chunks else beforeClose c.chunks ++ left)
    (hclose : .close ∈ queue.chunks ↔ .close ∈ c.chunks)
    (hlate : .close ∈ c.chunks → c.written ++ beforeClose c.chunks = c.accepted)
    (hsum : .close ∉ c.chunks → c.written ++ beforeClose c.chunks ++ left = c.accepted ++ data) :
    (c.queueData queue overflow data registered).Inv := by
  refine inv_listen (inv_accept hended (fun hmem => .inr ?_) fun hmem => .inr ?_)
  · have hthere : .close ∈ c.chunks := hclose.mp hmem
    rw [if_pos hthere] at hbefore
    show c.written ++ beforeClose queue.chunks = c.accepted
    rw [hbefore, hlate hthere]
  · have hnot : .close ∉ c.chunks := fun hthere => hmem (hclose.mpr hthere)
    rw [if_neg hnot] at hbefore
    show c.written ++ beforeClose queue.chunks = c.accepted ++ data
    rw [hbefore, ← append_assoc, hsum hnot]

/-- Data of which the part before `left` is out, and the rest is queued or refused. -/
theorem inv_sendData (hfits : left.length < 2 ^ 31)
    (hgone : c.removed = true → c.Balanced)
    (hlate : .close ∈ c.chunks → c.removed = false → c.written ++ beforeClose c.chunks = c.accepted)
    (hsum : .close ∉ c.chunks → c.removed = false →
      c.written ++ beforeClose c.chunks ++ left = c.accepted ++ data) :
    (c.sendData cfg data left registered).Inv := by
  unfold sendData
  split
  · next hremoved =>
    refine inv_of_balanced hended nofun ?_
    have hbalanced := hgone hremoved
    unfold Balanced chunks at hbalanced ⊢
    simpa [chunks_getD, chunks] using hbalanced
  · next hremoved =>
    have hopen : c.removed = false := by simpa using hremoved
    obtain ⟨hbefore, hclose⟩ := @enqueue_chunks (c.outBuffer.getD .new) left hfits
    rw [chunks_getD] at hbefore hclose
    exact inv_queueData hended hbefore hclose (hlate · hopen) (hsum · hopen)

theorem Balanced.sendData (h : c.Balanced) (hfits : data.length < 2 ^ 31) :
    (c.sendData cfg data data registered).Inv :=
  inv_sendData hended hfits (fun _ => h) (fun _ => h.sum) fun _ hopen => by rw [h.sum hopen]

theorem Inv.reactorSend (h : c.Inv) (hfits : data.length < 2 ^ 31) :
    (c.reactorSend cfg data registered).Inv := by
  have hbalanced := h.balanced hended
  unfold ResponseConn.reactorSend
  split_ifs with hempty
  · exact ⟨fun _ => hbalanced, fun d hd => by cases hd; exact ⟨hempty, hfits⟩, h.closed⟩
  all_goals exact hbalanced.sendData hended hfits

theorem Inv.directSent (h : c.Inv) (hcall : c.call = .direct data) (a : SendAnswer) :
    (c.directSent cfg data a registered).Inv := by
  obtain ⟨hempty, hfits⟩ := h.direct data hcall
  have hbalanced := h.balanced hended
  have hnot : .close ∉ c.chunks := by simp [hempty]
  have hwritten : c.removed = false → c.written = c.accepted := by
    intro hopen
    simpa [hempty, beforeClose] using hbalanced.sum hopen
  unfold ResponseConn.directSent
  cases a with
  | accept limit e =>
    simp only [send]
    split_ifs with hall hsome
    · -- the kernel took everything
      refine inv_accept hended (fun hmem => absurd hmem hnot) fun _ => ?_
      rcases hbalanced with hgone | hsum
      · exact .inl hgone
      · refine .inr ?_
        show c.written ++ data ++ beforeClose c.chunks = c.accepted ++ data
        rw [hempty, beforeClose, append_nil] at hsum ⊢
        rw [hsum]
    · -- the kernel took a part: the rest is queued, or refused if the client is gone
      refine inv_sendData hended (by rw [length_drop]; omega) (fun hgone => ?_)
        (fun hmem => absurd hmem hnot) fun _ hopen => ?_
      · exact .inl ⟨hgone, hempty⟩
      · show c.written ++ data.take _ ++ beforeClose c.chunks ++ data.drop _ = c.accepted ++ data
        rw [hempty, beforeClose, append_nil, append_assoc, take_append_drop, hwritten hopen]
    · exact h
    · exact hbalanced.sendData hended hfits
  | fail e =>
    have hlen : data.length ≠ toUInt32 (-1) := by
      have hvalue : toUInt32 (-1) = 2 ^ 32 - 1 := rfl
      omega
    simp only [send, if_neg hlen]
    split_ifs
    · exact h
    · exact hbalanced.sendData hended hfits

theorem Inv.reactorSendClose (h : c.Inv) (hcall : ∀ data, c.call ≠ .direct data) :
    (c.reactorSendClose registered).Inv := by
  unfold ResponseConn.reactorSendClose
  split_ifs with hnow
  · exact inv_finish_other
  · refine inv_listen (inv_of_balanced hended hcall (.inr ?_))
    have hsum : c.written ++ beforeClose c.chunks = c.accepted := by
      rcases h.balanced hended with ⟨-, hempty⟩ | hsum
      · exact absurd (.inr hempty) hnow
      · exact hsum
    show c.written ++ beforeClose ((c.outBuffer.getD .new).chunks ++ [.close]) = c.accepted
    rw [beforeClose_append_close, chunks_getD, hsum]

/-- The loop sends nothing before its next `send`; if it comes to the close chunk, all that
was before it is out. -/
theorem inv_onWriteLoop (h : { c with outBuffer := some buffer }.Balanced) :
    (c.onWriteLoop cfg buffer).Inv := by
  have hskip : { c with
      outBuffer := some (skipSent buffer.chunks.length buffer) }.Balanced := by
    rcases h with ⟨hgone, hempty : buffer.chunks = []⟩ | hsum
    · rw [skipSent_of_nil hempty]
      exact .inl ⟨hgone, hempty⟩
    · exact .inr ((congrArg (c.written ++ ·) (skipSent_beforeClose ..)).trans hsum)
  unfold onWriteLoop
  simp only
  split
  · exact inv_of_balanced hended nofun hskip
  · next rest hchunks =>
    refine ⟨nofun, nofun, fun _ => ?_⟩
    simpa [Balanced, chunks, hchunks, beforeClose, finish] using hskip
  · exact inv_of_balanced hended nofun hskip

theorem Inv.onWrite (h : c.Inv) : (c.onWrite cfg).Inv := by
  have hbalanced := h.balanced hended
  unfold ResponseConn.onWrite
  split_ifs
  · exact ⟨h.balanced, h.direct, h.closed⟩
  · exact ⟨h.balanced, h.direct, h.closed⟩
  · exact inv_finish_other
  · split
    · exact h
    · next buffer hbuffer =>
      refine inv_onWriteLoop hended ?_
      simpa [Balanced, chunks, hbuffer] using hbalanced

theorem Inv.onWriteSent (h : c.Inv) (a : SendAnswer) : (c.onWriteSent cfg a).Inv := by
  have hbalanced := h.balanced hended
  unfold ResponseConn.onWriteSent
  split
  · exact h
  · next buffer hbuffer =>
    split
    swap
    · exact h
    next bytes offset rest hchunks =>
      have hsum : c.written ++ (bytes.drop offset ++ beforeClose rest) = c.accepted := by
        rcases hbalanced with ⟨-, hempty⟩ | hsum
        · simp [chunks, hbuffer, hchunks] at hempty
        · simpa [chunks, hbuffer, hchunks, beforeClose] using hsum
      cases a with
      | accept limit e =>
        simp only [send]
        split_ifs with hfull
        · refine inv_onWriteLoop hended (.inr ?_)
          show _ ++ beforeClose buffer.popTrunk.chunks = _
          rw [hfull, take_of_length_le (by rw [length_drop]),
            Buffer.popTrunk_chunks hchunks, append_assoc, hsum]
        · refine inv_onWriteLoop hended (.inr ?_)
          show _ ++ beforeClose (buffer.advance _).chunks = _
          rw [Buffer.advance_chunks hchunks]
          show c.written ++ (bytes.drop offset).take _ ++
            (bytes.drop (offset + _) ++ beforeClose rest) = _
          rw [← drop_drop, append_assoc, ← append_assoc (take _ _), take_append_drop, hsum]
      | fail e =>
        simp only [send]
        cases connectionError e with
        | error =>
          refine inv_onWriteLoop hended ?_
          simpa [Balanced, chunks, hbuffer] using hbalanced
        | close => exact inv_finish_other
        | abort => exact inv_finish_other
        | wait =>
          split_ifs
          · exact inv_finish_other
          · exact inv_of_balanced hended (by rintro _ ⟨⟩) hbalanced

omit hended

/-- **One event keeps the law.** -/
theorem Inv.step (h : c.Inv) {event : Event} (hevent : event.Fits) : (step cfg c event).Inv := by
  unfold ResponseConn.step
  split
  · exact h
  · next hopen =>
    have hended : c.ended = none := by simpa using hopen
    have hbalanced := h.balanced hended
    split
    · exact h.reactorSend hended hevent
    · next hcall => exact h.reactorSendClose hended fun _ hd => by simp [hcall] at hd
    · exact h.onWrite hended
    · next hcall => exact h.directSent hended hcall _
    · exact h.onWriteSent hended _
    · refine ⟨fun _ => ?_, h.direct, h.closed⟩
      rcases hbalanced with ⟨-, hempty⟩ | hsum
      · exact .inl ⟨rfl, hempty⟩
      · exact .inr hsum
    · exact ⟨h.balanced, h.direct, h.closed⟩
    · exact ⟨h.balanced, h.direct, h.closed⟩
    · exact h

theorem inv_init (directSend connectNotify : Bool) : (init directSend connectNotify).Inv :=
  inv_of_balanced rfl nofun (.inr rfl)

/-- **Responses and the close keep their order.**  For every connection and all options,
every sequence of responses shorter than `2^31` bytes, close requests and write events, and
every outcome of every `send`: if the connection ends at the close chunk, what was written is
the data accepted before the close request, in order, and nothing accepted after it. -/
theorem closedInOrder_run (cfg : ResponseSettings) (directSend connectNotify : Bool)
    (events : List Event) (hevents : ∀ event ∈ events, event.Fits) :
    ∀ used, used <+: events →
      (run (step cfg) (init directSend connectNotify) used).ClosedInOrder := by
  intro used hpre
  exact (run_invariant_of_inputs (f := step cfg) (P := Inv) (B := Event.Fits)
    (fun _ _ hevent h => h.step hevent) used
    (fun event hevent => hevents event (hpre.subset hevent))
    (inv_init directSend connectNotify)).closed

/-- The first response goes out in part, the second and the close are queued behind it, the
third comes after the close; two write events send the rest and close the connection. -/
theorem closedInOrder_partial_sends :
    let events : List Event := [.data [1, 2, 3] true, .answer (.accept 1 .ok) true, .data [4] true,
      .close true, .data [5] true, .writable, .answer (.accept 1 .ok) true,
      .answer (.fail .eagain) true, .writable, .answer (.accept 9 .ok) true,
      .answer (.accept 9 .ok) true]
    let c := run (step ⟨2097152, 8192, false⟩) (init true false) events
    c.ended = some .chunk ∧ c.accepted = [1, 2, 3, 4] ∧ c.late = [5] ∧ c.ClosedInOrder :=
  ⟨by decide, by decide, by decide, closedInOrder_run _ _ _ _ (by decide) _ prefix_rfl⟩

/-- **Nothing is lost, sent twice or out of order.**  As long as a connection has not ended and its
client is there, the kernel has the data that was accepted, up to what is queued in front of a
close. -/
theorem conserved_run (cfg : ResponseSettings) (directSend connectNotify : Bool)
    (events : List Event) (hevents : ∀ event ∈ events, event.Fits) :
    let c := run (step cfg) (init directSend connectNotify) events
    c.ended = none → c.removed = false → c.written ++ beforeClose c.chunks = c.accepted := by
  intro c hended hopen
  have h : c.Inv := run_invariant_of_inputs (fun _ _ hevent h => h.step hevent) events hevents
    (inv_init directSend connectNotify)
  exact (h.balanced hended).sum hopen

/-- One byte of the first response is with the kernel, and the rest is queued. -/
theorem conserved_partial_send :
    let c := run (step ⟨2097152, 8192, false⟩) (init true false)
      [.data [1, 2, 3] true, .answer (.accept 1 .ok) true, .data [4] true, .close true]
    c.written = [1] ∧ c.written ++ beforeClose c.chunks = [1, 2, 3, 4] :=
  ⟨by decide, conserved_run _ _ _ _ (by decide) (by decide) (by decide)⟩

/-- Data whose length is no `int` is accepted behind a queue, and not queued. -/
theorem step_large (hended : c.ended = none) (hcall : c.call = .idle) (hremoved : c.removed = false)
    (hbuffer : c.outBuffer = some buffer) (hdata : buffer.AllData) (hne : buffer.chunks ≠ [])
    (hlow : 2 ^ 31 ≤ data.length) (hhigh : data.length < 2 ^ 32) :
    step cfg c (.data data true) =
      { c with
        overflow := c.overflow || decide (cfg.bufferOutputSize ≤ buffer.length)
        accepted := c.accepted ++ data } := by
  have hchunks : c.chunks = buffer.chunks := by rw [chunks, hbuffer]; rfl
  have hnot : Chunk.close ∉ buffer.chunks := fun hmem => hdata _ hmem
  have hsend : step cfg c (.data data true) = c.sendData cfg data data true := by
    rw [step, if_neg (by simp [hended]), reactorSend, if_neg (by rwa [hchunks])]
    exact hcall
  rw [hsend, sendData, if_neg (by simp [hremoved]), hbuffer, Option.getD_some,
    enqueue_of_large hlow hhigh, ← hbuffer]
  generalize (c.overflow || decide (cfg.bufferOutputSize ≤ buffer.length)) = overflow
  rw [queueData, listen, if_pos rfl, accept, if_neg (by simpa [chunks, hbuffer] using hnot),
    ← hcall,
    ← hbuffer]

/-- Room for `2^31` bytes in the output buffer. -/
def largeSettings : ResponseSettings := ⟨2 ^ 31 + 1, 8192, false⟩

/-- A connection with one byte queued. -/
def oneQueued : ResponseConn :=
  run (step largeSettings) (init true false)
    [.data [1] true, .answer (.fail .eagain) true]

/-- Whatever was accepted behind the byte without being queued, a close lets the connection
end when the byte is out. -/
theorem ended_behind_byte (overflow : Bool) (accepted : Bytes) :
    let c := run (step largeSettings)
      { oneQueued with overflow := overflow, accepted := accepted }
      [.close true, .writable, .answer (.accept 1 .ok) true]
    c.ended = some .chunk ∧ c.written = [1] ∧ c.accepted = accepted :=
  ⟨rfl, rfl, rfl⟩

/-- **Large data gets lost.**  One byte is queued; data of `2^31` bytes is accepted but not
queued; the close is queued behind the byte.  The connection ends at the close chunk, and
only the byte was written. -/
theorem not_closedInOrder_large :
    let c := run (step largeSettings) (init true false)
      [.data [1] true, .answer (.fail .eagain) true, .data (replicate (2 ^ 31) 0) true,
        .close true, .writable, .answer (.accept 1 .ok) true]
    c.ended = some .chunk ∧ c.written = [1] ∧ c.accepted = [1] ++ replicate (2 ^ 31) 0 ∧
      ¬ c.ClosedInOrder := by
  have hlen : (replicate (2 ^ 31) (0 : UInt8)).length = 2 ^ 31 := length_replicate
  generalize replicate (2 ^ 31) (0 : UInt8) = big at hlen ⊢
  have hne : big ≠ [] := by
    rintro rfl
    cases hlen
  have hdata : (Buffer.new.append [1]).AllData :=
    Buffer.append_allData (fun _ hchunk => absurd hchunk not_mem_nil) [1]
  have hlarge := @step_large largeSettings oneQueued (Buffer.new.append [1]) big rfl rfl rfl rfl
    hdata nofun hlen.ge (by rw [hlen]; decide)
  intro c
  have hc : c = run (step largeSettings)
      (step largeSettings oneQueued (.data big true))
      [.close true, .writable, .answer (.accept 1 .ok) true] := by
    rw [oneQueued, ← run_cons, ← run_append]
    rfl
  rw [hlarge] at hc
  obtain ⟨hended, hwritten, haccepted⟩ := ended_behind_byte _ (oneQueued.accepted ++ big)
  rw [hc]
  refine ⟨hended, hwritten, haccepted, fun hlaw => hne ?_⟩
  exact self_eq_append_right.mp (hwritten.symm.trans ((hlaw hended).trans haccepted))

end ResponseConn

end Swoole
