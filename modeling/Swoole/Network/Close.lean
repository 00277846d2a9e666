import Swoole.Network.Session

/-!
# Closing a connection

Several parties close connections of a server in process mode.  The reactor sees the client
go and tells a worker; user code in any worker closes by session id; the heartbeat thread
marks idle connections and lets the reactor tell a worker.  All of them end in
`swFactoryProcess_end`, which runs in a worker: it finds the connection, looks at its flags,
calls `onClose` and sends a close response, on which the reactor closes the socket.

The flags live in shared memory, and a call of `swFactoryProcess_end` touches them four
times: it reads them, sets `closing`, and after the callback clears `closing` and sets
`closed`.  The model has the calls in flight as a list, each with its place in the function
(`EndStage`), and any of them may move next; this covers calls in different workers as well
as a close that user code makes inside the callback.  Messages between reactor and workers
are kept in lists, too, from which any may be taken.

`closes` is a history variable: the calls of `onClose`, with the id they were made for, the
accept that had last assigned this id when the call began, and the connection found.

The second part is about one call alone.  `swWorker_get_connection` goes through the slot of
the id and does not compare ids, so an id whose slot is in use under another id leads to a
foreign connection; `framed_iff` says that this is the only way to touch one.
-/

namespace Swoole

open List Function

/-- The server options that closing depends on: `disable_notify`, and whether `onClose` is
set. -/
structure CloseSettings where
  disableNotify : Bool
  onClose : Bool
  deriving DecidableEq

/-- A chunk of the out buffer; what it carries does not matter here. -/
inductive OutChunk where
  | data
  | close
  deriving DecidableEq

/-- `swConnection`, as far as closing is concerned. -/
structure CloseConn where
  connectNotify : Bool
  closeNotify : Bool
  closeWait : Bool
  closed : Bool
  closing : Bool
  closeForce : Bool
  closeReset : Bool
  overflow : Bool
  out : List OutChunk
  deriving DecidableEq

/-- A zeroed connection. -/
def CloseConn.zero : CloseConn := ⟨false, false, false, false, false, false, false, false, []⟩

/-- Where a call of `swFactoryProcess_end` stands. -/
inductive EndStage where
  /-- It has read the flags and is about to set `closing`. -/
  | tested
  /-- `closing` is set, and `onClose` runs. -/
  | called
  /-- `closing` is cleared again. -/
  | cleared
  /-- `closed` is set, and the response is to be sent. -/
  | marked
  deriving DecidableEq

/-- A call of `swFactoryProcess_end` in flight: its argument, the accept that has assigned
it last, and the connection it points to. -/
structure EndCall where
  sessionId : ℕ
  session : Option Accept
  fd : ℕ
  stage : EndStage
  deriving DecidableEq

/-- A call of `onClose`. -/
structure CloseCall where
  sessionId : ℕ
  session : Option Accept
  fd : ℕ
  deriving DecidableEq

/-- What a worker sends to the reactor; `chunks` is how many chunks the data makes. -/
inductive Response where
  | data (sessionId chunks : ℕ)
  | close (sessionId : ℕ)
  deriving DecidableEq

/-- How a message of the reactor gets to the worker: through the pipe, into the buffer of
the pipe, or not at all. -/
inductive Delivery where
  | written
  | buffered
  | failed
  deriving DecidableEq

/-- The server; `pending` are the close messages in the buffers of the pipes and `tasks`
those in the pipes, by session id. -/
structure CloseServer where
  sessions : SessionServer
  conns : ℕ → CloseConn
  pending : List ℕ
  tasks : List ℕ
  calls : List EndCall
  responses : List Response
  closes : List CloseCall

/-- `swReactor_del`, as far as the connection is concerned. -/
def SessionServer.remove (s : SessionServer) (fd : ℕ) : SessionServer :=
  { s with
    connectionList :=
      update s.connectionList fd { s.connectionList fd with removed := true } }

namespace CloseServer

def init (maxConnection : ℕ) : CloseServer where
  sessions := .init maxConnection
  conns := fun _ => .zero
  pending := []
  tasks := []
  calls := []
  responses := []
  closes := []

variable (cfg : CloseSettings) (s : CloseServer)

def modifyConn (fd : ℕ) (f : CloseConn → CloseConn) : CloseServer :=
  { s with conns := update s.conns fd (f (s.conns fd)) }

/-- `swServer_connection_new`, and the `connect_notify` of `swServer_master_onAccept`. -/
def accept (fd fromId : ℕ) (connectNotify : Bool) : CloseServer :=
  { s with
    sessions := s.sessions.connectionNew fd fromId
    conns := update s.conns fd { CloseConn.zero with connectNotify := connectNotify } }

/-! ## The reactor -/

/-- `swReactorThread_close`; `deleted` is whether `reactor->del` succeeds. -/
def reactorClose (fd : ℕ) (deleted : Bool) : CloseServer :=
  match s.sessions.connectionGet fd with
  | none => s
  | some conn =>
    if conn.removed = false ∧ deleted = false then s
    else
      { s with
        sessions := s.sessions.close fd deleted
        conns := update s.conns fd .zero }

/-- `swFactoryProcess_notify` with a close event: `swFactoryProcess_dispatch` discards it
if the server has closed the connection, unless the close is forced. -/
def notify (fd : ℕ) (delivery : Delivery) : CloseServer :=
  match s.sessions.connectionGet fd with
  | none => s
  | some conn =>
    if conn.active = false then s
    else if (s.conns fd).closed = true ∧ (s.conns fd).closeForce = false then s
    else
      match delivery with
      | .written => { s with tasks := s.tasks ++ [conn.sessionId] }
      | .buffered => { s with pending := s.pending ++ [conn.sessionId] }
      | .failed => s

/-- `swReactorThread_onClose`: the client is gone, or its data was refused. -/
def onClose (fd : ℕ) (deleted : Bool) (delivery : Delivery) : CloseServer :=
  match s.sessions.connectionGet fd with
  | none => s
  | some conn =>
    if conn.active = false then s
    else if cfg.disableNotify then s.reactorClose fd deleted
    else if deleted then { s with sessions := s.sessions.remove fd }.notify fd delivery
    else s

/-- The heartbeat thread at an idle connection. -/
def heartbeat (fd : ℕ) : CloseServer :=
  match s.sessions.connectionGet fd with
  | none => s
  | some conn =>
    if conn.active then
      s.modifyConn fd fun c => { c with closeForce := true, closeNotify := true, closeWait := true }
    else s

/-- The kernel takes so many data chunks from the head of the queue. -/
def drain : ℕ → List OutChunk → List OutChunk
  | taken + 1, .data :: out => drain taken out
  | _, out => out

/-- The loop of `swReactorThread_onWrite` over the out buffer.  `error` is whether the send
that fails says that the connection is gone; otherwise the kernel wants no more for now. -/
def onWriteLoop (fd taken : ℕ) (error deleted : Bool) : CloseServer :=
  match drain taken (s.conns fd).out with
  | [] => s.modifyConn fd fun c => { c with out := [], overflow := false }
  | .close :: out =>
    (s.modifyConn fd fun c => { c with out := .close :: out }).reactorClose fd deleted
  | .data :: out =>
    if error = true ∨ (s.conns fd).closeWait = true then
      (s.modifyConn fd fun c =>
        { c with out := .data :: out, closeWait := true }).reactorClose fd deleted
    else s.modifyConn fd fun c => { c with out := .data :: out }

/-- `swReactorThread_onWrite`. -/
def onWrite (fd : ℕ) (delivery : Delivery) (taken : ℕ) (error deleted : Bool) : CloseServer :=
  match s.sessions.connectionGet fd with
  | none => s
  | some conn =>
    if conn.active = false then s
    else if (s.conns fd).connectNotify then
      s.modifyConn fd fun c => { c with connectNotify := false }
    else if (s.conns fd).closeNotify then
      (s.notify fd delivery).modifyConn fd fun c => { c with closeNotify := false }
    else if cfg.disableNotify = true ∧ (s.conns fd).closeForce = true then
      s.reactorClose fd deleted
    else s.onWriteLoop fd taken error deleted

/-- `swReactorThread_onPipeWrite` at one buffered message. -/
def onPipeWrite (k : ℕ) : CloseServer :=
  match s.pending[k]? with
  | none => s
  | some sessionId =>
    let s' := { s with pending := s.pending.eraseIdx k }
    match s.sessions.connectionVerify sessionId with
    | none => s'
    | some conn =>
      if (s.conns conn.fd).closed then s' else { s' with tasks := s.tasks ++ [sessionId] }

/-- The end of `swReactorThread_send`: wait for write events, or give the connection up if
it is not `registered` any more. -/
def listen (fd : ℕ) (registered deleted : Bool) : CloseServer :=
  if registered then s else s.reactorClose fd deleted

/-- `swReactorThread_send`.  `direct` is whether the kernel takes all data at once, and
`full` whether the out buffer has reached `buffer_output_size`. -/
def reactorSend (response : Response) (direct full registered deleted : Bool) : CloseServer :=
  match response with
  | .close sessionId =>
    match s.sessions.connectionVerify sessionId with
    | none => s
    | some conn =>
      if (s.conns conn.fd).closeReset = true ∨ (s.conns conn.fd).out = [] then
        s.reactorClose conn.fd deleted
      else
        (s.modifyConn conn.fd fun c => { c with out := c.out ++ [.close] }).listen conn.fd
          registered deleted
  | .data sessionId chunks =>
    match s.sessions.connectionVerify sessionId with
    | none => s
    | some conn =>
      if (s.conns conn.fd).out = [] ∧ direct = true then s
      else if conn.removed then s
      else
        (s.modifyConn conn.fd fun c =>
          { c with
            out := c.out ++ replicate chunks .data
            overflow := c.overflow || full }).listen conn.fd registered deleted

/-- `swReactorThread_onPipeReceive` of one response. -/
def onPipeReceive (k : ℕ) (direct full registered deleted : Bool) : CloseServer :=
  match s.responses[k]? with
  | none => s
  | some response =>
    { s with responses := s.responses.eraseIdx k }.reactorSend response direct full registered
      deleted

/-! ## The workers -/

/-- `swFactoryProcess_finish` with data. -/
def finishData (sessionId chunks : ℕ) (sent : Bool) : CloseServer :=
  match s.sessions.connectionVerify sessionId with
  | none => s
  | some conn =>
    if (s.conns conn.fd).closed = true ∨ conn.removed = true then s
    else if (s.conns conn.fd).overflow then s
    else if sent then { s with responses := s.responses ++ [.data sessionId chunks] }
    else s

/-- `swFactoryProcess_finish` with a close event. -/
def finishClose (sessionId : ℕ) (sent : Bool) : CloseServer :=
  match s.sessions.connectionVerify sessionId with
  | none => s
  | some conn =>
    if (s.conns conn.fd).overflow then s
    else if sent then { s with responses := s.responses ++ [.close sessionId] }
    else s

/-- `swWorker_get_connection`: the descriptor it leads to. -/
def workerGetConnection (sessionId : ℕ) : ℕ := (s.sessions.getSession sessionId).fd

/-- `swFactoryProcess_end` up to the test of the flags; `none` is a call that has returned
with an error. -/
def endTest (sessionId : ℕ) : Option EndCall :=
  let fd := s.workerGetConnection sessionId
  let call : EndCall := ⟨sessionId, s.sessions.lastAssigned sessionId, fd, .tested⟩
  match s.sessions.connectionGet fd with
  | none => none
  | some conn =>
    if conn.active = false then none
    else if (s.conns fd).closeForce then some call
    else if (s.conns fd).closing then none
    else if (s.conns fd).closed then none
    else some call

/-- The next step of a call of `swFactoryProcess_end`, from `do_close` on; `none` is a call
that has returned. -/
def endStep (call : EndCall) (sent : Bool) : CloseServer × Option EndCall :=
  match call.stage with
  | .tested =>
    let s' := s.modifyConn call.fd fun c => { c with closing := true }
    let closes :=
      if cfg.onClose then s.closes ++ [⟨call.sessionId, call.session, call.fd⟩] else s.closes
    ({ s' with closes := closes }, some { call with stage := .called })
  | .called =>
    (s.modifyConn call.fd fun c => { c with closing := false },
      some { call with stage := .cleared })
  | .cleared =>
    (s.modifyConn call.fd fun c => { c with closed := true }, some { call with stage := .marked })
  | .marked => (s.finishClose call.sessionId sent, none)

/-- A worker begins a call of `swFactoryProcess_end`. -/
def beginEnd (sessionId : ℕ) : CloseServer :=
  match s.endTest sessionId with
  | none => s
  | some call => { s with calls := s.calls ++ [call] }

/-- `swWorker_onTask` with a close event. -/
def onTask (k : ℕ) : CloseServer :=
  match s.tasks[k]? with
  | none => s
  | some sessionId => { s with tasks := s.tasks.eraseIdx k }.beginEnd sessionId

/-- A call in flight moves on. -/
def advance (k : ℕ) (sent : Bool) : CloseServer :=
  match s.calls[k]? with
  | none => s
  | some call =>
    match s.endStep cfg call sent with
    | (s', none) => { s' with calls := s.calls.eraseIdx k }
    | (s', some call') => { s' with calls := s.calls.set k call' }

/-- The `reset` of the `close` method of a server. -/
def markReset (sessionId : ℕ) : CloseServer :=
  match s.sessions.connectionVerify sessionId with
  | none => s
  | some conn => s.modifyConn conn.fd fun c => { c with closeReset := true }

/-! ## Interleavings -/

/-- A step of one of the parties, with what the kernel answers. -/
inductive Event where
  | accept (fd fromId : ℕ) (connectNotify : Bool)
  | onClose (fd : ℕ) (deleted : Bool) (delivery : Delivery)
  | heartbeat (fd : ℕ)
  | onWrite (fd : ℕ) (delivery : Delivery) (taken : ℕ) (error deleted : Bool)
  | onPipeWrite (k : ℕ)
  | onPipeReceive (k : ℕ) (direct full registered deleted : Bool)
  | send (sessionId chunks : ℕ) (sent : Bool)
  | reset (sessionId : ℕ)
  | close (sessionId : ℕ)
  | onTask (k : ℕ)
  | advance (k : ℕ) (sent : Bool)
  deriving DecidableEq

def step (s : CloseServer) : Event → CloseServer
  | .accept fd fromId connectNotify => s.accept fd fromId connectNotify
  | .onClose fd deleted delivery => s.onClose cfg fd deleted delivery
  | .heartbeat fd => s.heartbeat fd
  | .onWrite fd delivery taken error deleted => s.onWrite cfg fd delivery taken error deleted
  | .onPipeWrite k => s.onPipeWrite k
  | .onPipeReceive k direct full registered deleted =>
    s.onPipeReceive k direct full registered deleted
  | .send sessionId chunks sent => s.finishData sessionId chunks sent
  | .reset sessionId => s.markReset sessionId
  | .close sessionId => s.beginEnd sessionId
  | .onTask k => s.onTask k
  | .advance k sent => s.advance cfg k sent

/-! ## One call alone -/

/-- The states a call goes through when nobody else moves. -/
def endRun (sent : Bool) : ℕ → CloseServer → EndCall → List CloseServer
  | 0, _, _ => []
  | rounds + 1, s, call =>
    let next := s.endStep cfg call sent
    match next.2 with
    | none => [next.1]
    | some call' => next.1 :: endRun sent rounds next.1 call'

/-- `swFactoryProcess_end`: the states it goes through; none if it returns at a test. -/
def factoryEnd (sessionId : ℕ) (sent : Bool) : List CloseServer :=
  match s.endTest sessionId with
  | none => []
  | some call => endRun cfg sent 4 s call

/-- The connection on `fd` is active and has this id. -/
def Own (sessionId fd : ℕ) : Prop :=
  (s.sessions.connectionList fd).active = true ∧
    (s.sessions.connectionList fd).sessionId = sessionId
  deriving Decidable

/-- Nothing happened from `s` to `s'` but to the connection of the id: no other connection
has changed, `onClose` was called for no other, and a close response is for this one. -/
structure FramedAt (s s' : CloseServer) (sessionId : ℕ) : Prop where
  sessions : s'.sessions = s.sessions
  conns : ∀ fd, s'.conns fd ≠ s.conns fd → s.Own sessionId fd
  closes : ∃ new, s'.closes = s.closes ++ new ∧ ∀ c ∈ new, s.Own sessionId c.fd
  responses : ∃ new, s'.responses = s.responses ++ new ∧
    ∀ r ∈ new, r = .close sessionId ∧ ∃ fd, s.Own sessionId fd

/-- **The frame property**, in every state the call goes through. -/
def Framed (sessionId : ℕ) (sent : Bool) : Prop :=
  ∀ s' ∈ s.factoryEnd cfg sessionId sent, FramedAt s s' sessionId

/-- The slot of the id leads to an active connection on which a close may go ahead. -/
def MayEnd (sessionId : ℕ) : Prop :=
  2 < s.workerGetConnection sessionId ∧
    s.workerGetConnection sessionId ≤ s.sessions.maxConnection ∧
    (s.sessions.connectionList (s.workerGetConnection sessionId)).active = true ∧
    ((s.conns (s.workerGetConnection sessionId)).closeForce = true ∨
      (s.conns (s.workerGetConnection sessionId)).closing = false ∧
        (s.conns (s.workerGetConnection sessionId)).closed = false)
  deriving Decidable

/-- **The condition**: the connection that the slot of the id leads to has this id. -/
def OwnSlot (sessionId : ℕ) : Prop :=
  s.MayEnd sessionId →
    (s.sessions.connectionList (s.workerGetConnection sessionId)).sessionId = sessionId
  deriving Decidable

variable {cfg s} {sessionId fd : ℕ} {call : EndCall} {sent : Bool}

theorem modifyConn_of_ne {fd' : ℕ} (h : fd' ≠ fd) (f : CloseConn → CloseConn) :
    (s.modifyConn fd f).conns fd' = s.conns fd' := update_of_ne h _ _

@[simp] theorem modifyConn_self (f : CloseConn → CloseConn) :
    (s.modifyConn fd f).conns fd = f (s.conns fd) := update_self _ _ _

theorem endTest_eq_some_iff : s.endTest sessionId = some call ↔
    s.MayEnd sessionId ∧
      call = ⟨sessionId, s.sessions.lastAssigned sessionId, s.workerGetConnection sessionId,
        .tested⟩ := by
  unfold endTest SessionServer.connectionGet MayEnd
  simp only
  constructor
  · intro h
    split at h
    · cases h
    · next conn hget =>
      split_ifs at hget with hrange
      cases hget
      split_ifs at h with hact hforce hclosing hclosed
      all_goals
        obtain rfl := Option.some.inj h
        refine ⟨⟨by omega, by omega, Bool.eq_true_of_not_eq_false hact, ?_⟩, rfl⟩
      · exact .inl hforce
      · exact .inr ⟨Bool.eq_false_of_not_eq_true hclosing, Bool.eq_false_of_not_eq_true hclosed⟩
  · rintro ⟨⟨hlow, hhigh, hact, hflags⟩, rfl⟩
    rw [if_neg (by omega)]
    simp only [hact]
    rcases hflags with hforce | ⟨hclosing, hclosed⟩
    · simp [hforce]
    · simp [hclosing, hclosed]

theorem ownSlot_iff : s.OwnSlot sessionId ↔
    ∀ call, s.endTest sessionId = some call → s.Own sessionId call.fd := by
  constructor
  · intro h call hcall
    obtain ⟨hmay, rfl⟩ := endTest_eq_some_iff.mp hcall
    exact ⟨hmay.2.2.1, h hmay⟩
  · intro h hmay
    exact (h _ (endTest_eq_some_iff.mpr ⟨hmay, rfl⟩)).2

/-- `swServer_connection_verify` returns the connection of the id. -/
theorem own_of_connectionVerify {conn : Connection}
    (h : s.sessions.connectionVerify sessionId = some conn) :
    s.Own sessionId (s.workerGetConnection sessionId) := by
  obtain ⟨rfl, hact, hsid⟩ := SessionServer.connectionVerify_eq_some h
  exact ⟨hact, hsid⟩

theorem framedAt_refl : FramedAt s s sessionId :=
  ⟨rfl, fun _ h => absurd rfl h, ⟨[], by simp⟩, ⟨[], by simp⟩⟩

/-- `swFactoryProcess_finish` sends a close response, or does nothing. -/
theorem finishClose_cases :
    (s.Own sessionId (s.workerGetConnection sessionId) ∧ s.finishClose sessionId sent =
        { s with responses := s.responses ++ [.close sessionId] }) ∨
      s.finishClose sessionId sent = s := by
  unfold finishClose
  split
  · exact .inr rfl
  · next hverify =>
    split_ifs
    · exact .inr rfl
    · exact .inl ⟨own_of_connectionVerify hverify, rfl⟩
    · exact .inr rfl

theorem finishClose_framed : FramedAt s (s.finishClose sessionId sent) sessionId := by
  obtain ⟨hown, heq⟩ | heq := @finishClose_cases s sessionId sent
  · rw [heq]
    exact ⟨rfl, fun _ h => absurd rfl h, ⟨[], by simp⟩,
      ⟨[.close sessionId], rfl, by simpa using ⟨_, hown⟩⟩⟩
  · rw [heq]
    exact framedAt_refl

theorem FramedAt.trans {s₁ s₂ : CloseServer} (h₁ : FramedAt s s₁ sessionId)
    (h₂ : FramedAt s₁ s₂ sessionId) : FramedAt s s₂ sessionId := by
  have hown : ∀ fd, s₁.Own sessionId fd → s.Own sessionId fd := by
    intro fd h
    unfold Own at h ⊢
    rwa [h₁.sessions] at h
  obtain ⟨new₁, hnew₁, hcloses₁⟩ := h₁.closes
  obtain ⟨new₂, hnew₂, hcloses₂⟩ := h₂.closes
  obtain ⟨sent₁, hsent₁, hresponses₁⟩ := h₁.responses
  obtain ⟨sent₂, hsent₂, hresponses₂⟩ := h₂.responses
  refine ⟨h₂.sessions.trans h₁.sessions, fun fd hne => ?_, ⟨new₁ ++ new₂, ?_, fun c hc => ?_⟩,
    ⟨sent₁ ++ sent₂, ?_, fun r hr => ?_⟩⟩
  · by_cases heq : s₂.conns fd = s₁.conns fd
    · exact h₁.conns fd (by rwa [heq] at hne)
    · exact hown fd (h₂.conns fd heq)
  · rw [hnew₂, hnew₁, append_assoc]
  · rcases mem_append.mp hc with hc | hc
    · exact hcloses₁ c hc
    · exact hown _ (hcloses₂ c hc)
  · rw [hsent₂, hsent₁, append_assoc]
  · rcases mem_append.mp hr with hr | hr
    · exact hresponses₁ r hr
    · obtain ⟨heq, fd, hfd⟩ := hresponses₂ r hr
      exact ⟨heq, fd, hown fd hfd⟩

theorem endStep_framed (hid : call.sessionId = sessionId) (hown : s.Own sessionId call.fd) :
    FramedAt s (s.endStep cfg call sent).1 sessionId := by
  have hmodify : ∀ f, FramedAt s (s.modifyConn call.fd f) sessionId := by
    intro f
    refine ⟨rfl, fun fd hne => ?_, ⟨[], by simp [modifyConn]⟩, ⟨[], by simp [modifyConn]⟩⟩
    by_cases hfd : fd = call.fd
    · rwa [hfd]
    · exact absurd (modifyConn_of_ne hfd f) hne
  unfold endStep
  split
  · have hclosing := hmodify fun c => { c with closing := true }
    refine ⟨hclosing.sessions, hclosing.conns, ?_, hclosing.responses⟩
    by_cases hset : cfg.onClose = true
    · refine ⟨[⟨call.sessionId, call.session, call.fd⟩], by simp [hset], ?_⟩
      simpa using hown
    · exact ⟨[], by simp [hset], by simp⟩
  · exact hmodify fun c => { c with closing := false }
  · exact hmodify fun c => { c with closed := true }
  · subst hid
    exact finishClose_framed

theorem endStep_call {call' : EndCall} (h : (s.endStep cfg call sent).2 = some call') :
    call'.sessionId = call.sessionId ∧ call'.fd = call.fd := by
  unfold endStep at h
  split at h <;> cases h <;> exact ⟨rfl, rfl⟩

theorem endRun_framed : ∀ (rounds : ℕ) {s : CloseServer} {call : EndCall},
    call.sessionId = sessionId → s.Own sessionId call.fd →
      ∀ s' ∈ endRun cfg sent rounds s call, FramedAt s s' sessionId := by
  intro rounds
  induction rounds with
  | zero =>
    intro s call _ _ s' hs'
    exact absurd hs' not_mem_nil
  | succ rounds ih =>
    intro s call hid hown s' hs'
    have hstep := @endStep_framed cfg s sessionId call sent hid hown
    unfold endRun at hs'
    simp only at hs'
    split at hs'
    · rw [mem_singleton.mp hs']
      exact hstep
    · next call' hcall' =>
      obtain ⟨hid', hfd'⟩ := endStep_call hcall'
      rcases mem_cons.mp hs' with rfl | hs'
      · exact hstep
      · refine hstep.trans (ih (hid'.trans hid) ?_ s' hs')
        unfold Own at hown ⊢
        rwa [hstep.sessions, hfd']

theorem framed_of_ownSlot (h : s.OwnSlot sessionId) : s.Framed cfg sessionId sent := by
  intro s' hs'
  unfold factoryEnd at hs'
  cases hcall : s.endTest sessionId with
  | none => simp [hcall] at hs'
  | some call =>
    rw [hcall] at hs'
    have hid : call.sessionId = sessionId := by rw [(endTest_eq_some_iff.mp hcall).2]
    exact endRun_framed 4 hid (ownSlot_iff.mp h call hcall) s' hs'

/-- A call that goes ahead sets and clears `closing`, and one of the two is a change. -/
theorem ownSlot_of_framed (h : s.Framed cfg sessionId sent) : s.OwnSlot sessionId := by
  rw [ownSlot_iff]
  intro call hcall
  have htested : call.stage = .tested := by rw [(endTest_eq_some_iff.mp hcall).2]
  unfold Framed factoryEnd at h
  rw [hcall] at h
  have hset := h (s.endStep cfg call sent).1 (by
    simp [endRun, endStep, htested])
  have hcleared := h ((s.endStep cfg call sent).1.endStep cfg { call with stage := .called } sent).1
    (by simp [endRun, endStep, htested])
  by_cases hclosing : (s.conns call.fd).closing = true
  · refine hcleared.conns call.fd fun heq => ?_
    have hbit : false = (s.conns call.fd).closing := by
      simpa [endStep, htested] using congrArg CloseConn.closing heq
    exact absurd (hbit.trans hclosing) Bool.false_ne_true
  · refine hset.conns call.fd fun heq => ?_
    have hbit : (s.conns call.fd).closing = true := by
      simpa [endStep, htested, modifyConn] using congrArg CloseConn.closing heq
    exact hclosing hbit

/-- **What a close touches.**  In every state of the server and for every id, a call of
`swFactoryProcess_end` changes the flags of no connection, calls `onClose` for none and
sends a close response for none but the active connection of that id, if and only if the
slot of the id does not lead to another connection on which a close may go ahead. -/
theorem framed_iff_ownSlot (cfg : CloseSettings) (s : CloseServer) (sessionId : ℕ) (sent : Bool) :
    s.Framed cfg sessionId sent ↔ s.OwnSlot sessionId :=
  ⟨ownSlot_of_framed, framed_of_ownSlot⟩

/-- A connection closed by its own id. -/
theorem framed_accepted :
    let s := StepRun.run (step ⟨false, true⟩) (init 1024) [.accept 3 0 false, .accept 4 1 false]
    s.OwnSlot 2 ∧ (s.factoryEnd ⟨false, true⟩ 2 true).length = 4 ∧ s.Framed ⟨false, true⟩ 2 true :=
  ⟨by decide, by decide, (framed_iff_ownSlot _ _ _ _).mpr (by decide)⟩

/-- **A close by a foreign id.**  One connection was accepted, with the id 1.  The id
1048577 was never assigned, but its slot is the same; a close of it calls `onClose` and
marks the connection as closed. -/
theorem not_framed_foreign_id :
    let s := StepRun.run (step ⟨false, true⟩) (init 1024) [.accept 3 0 false]
    ¬ s.Framed ⟨false, true⟩ 1048577 true ∧
      (s.sessions.connectionList 3).sessionId = 1 ∧ s.sessions.lastAssigned 1048577 = none ∧
      (s.factoryEnd ⟨false, true⟩ 1048577 true).getLast?.map
        (fun s' => ((s'.conns 3).closed, s'.closes, s'.responses)) =
          some (true, [⟨1048577, none, 3⟩], []) :=
  ⟨fun h => absurd (ownSlot_of_framed h) (by decide), by decide, by decide, by decide⟩

end CloseServer

end Swoole
