import Swoole.Network.Close

/-!
# The close response of a server-side close

`swFactoryProcess_end` marks the connection as closed and then calls `swFactoryProcess_finish`,
which has reasons of its own not to send: the session id is looked up anew and compared, a
connection whose output buffer has overflowed gets nothing any more, not even a close, and the
pipe may refuse the message.  Then `swFactoryProcess_end` returns an error, but the mark stays, and
a connection that is marked is not closed a second time.

A call is followed from its tests to its return.  While `onClose` runs, the callback and the other
processes may do anything (`during`), and the other processes may do so again until
`swFactoryProcess_finish` has looked at the connection (`between`).
-/

namespace Swoole.CloseServer

variable (cfg : CloseSettings) (s : CloseServer)

/-- Whether `swFactoryProcess_finish` with a close event returns `SW_OK`. -/
def finishReturns (sessionId : ℕ) (sent : Bool) : Bool :=
  match s.sessions.connectionVerify sessionId with
  | none => false
  | some conn => if (s.conns conn.fd).overflow then false else sent

section call

variable (call : EndCall) (during between : CloseServer → CloseServer) (sent : Bool)

/-- `onClose` has returned. -/
def afterOnClose : CloseServer := during (s.endStep cfg call sent).1

/-- The connection is marked as closed. -/
def marked : CloseServer :=
  (((s.afterOnClose cfg call during sent).endStep cfg { call with stage := .called } sent).1.endStep
    cfg { call with stage := .cleared } sent).1

/-- `swFactoryProcess_finish` looks at the connection. -/
def finishing : CloseServer := between (s.marked cfg call during sent)

/-- The call returns. -/
def ended : CloseServer :=
  ((s.finishing cfg call during between sent).endStep cfg { call with stage := .marked } sent).1

/-- **The contract of a call** that passes the tests: a close response is handed to the pipe, or
the call returns an error and the connection is not marked as closed. -/
def CloseKept : Prop :=
  (s.ended cfg call during between sent).responses =
      (s.finishing cfg call during between sent).responses ++ [.close call.sessionId] ∨
    (s.finishing cfg call during between sent).finishReturns call.sessionId sent = false ∧
      ((s.ended cfg call during between sent).conns call.fd).closed = false

end call

/-- The id leads to its connection, the output buffer has not overflowed, and the pipe takes the
message. -/
def WillSend (sessionId : ℕ) (sent : Bool) : Prop :=
  sent = true ∧ ∃ conn ∈ s.sessions.connectionVerify sessionId,
    (s.conns conn.fd).overflow = false
  deriving Decidable

variable {cfg s} {sessionId : ℕ} {call : EndCall} {during between : CloseServer → CloseServer}
  {sent : Bool}

/-- `swFactoryProcess_finish` with a close event: it sends and succeeds, or does neither. -/
theorem finishClose_responses :
    (s.WillSend sessionId sent ∧ s.finishReturns sessionId sent = true ∧
        (s.finishClose sessionId sent).responses = s.responses ++ [.close sessionId]) ∨
      (¬ s.WillSend sessionId sent ∧ s.finishReturns sessionId sent = false ∧
        (s.finishClose sessionId sent).responses = s.responses) := by
  unfold finishClose finishReturns WillSend
  cases hverify : s.sessions.connectionVerify sessionId with
  | none => simp
  | some conn =>
    by_cases hoverflow : (s.conns conn.fd).overflow = true
    · simp [hoverflow]
    · cases sent with
      | false => simp [hoverflow]
      | true => simp [hoverflow]

theorem finishClose_conns : (s.finishClose sessionId sent).conns = s.conns := by
  rcases @finishClose_cases s sessionId sent with ⟨-, heq⟩ | heq <;> rw [heq]

theorem marked_closed : ((s.marked cfg call during sent).conns call.fd).closed = true := by
  simp [marked, endStep]

/-- The flags of a close are not what decides whether its response is sent. -/
theorem marked_willSend : (s.marked cfg call during sent).WillSend sessionId sent ↔
    (s.afterOnClose cfg call during sent).WillSend sessionId sent := by
  have hoverflow : ∀ fd, ((s.marked cfg call during sent).conns fd).overflow =
      ((s.afterOnClose cfg call during sent).conns fd).overflow := by
    intro fd
    by_cases hfd : fd = call.fd
    · subst hfd
      simp [marked, endStep]
    · simp [marked, endStep, modifyConn_of_ne hfd]
  unfold WillSend
  simp only [hoverflow]
  rfl

/-- **When a server-side close is not lost.**  Let a call of `swFactoryProcess_end` pass its tests.
Its close response is sent, or it fails and leaves no mark, if and only if
`swFactoryProcess_finish` finds what it needs or another process has taken the mark back by then.
If no other process comes in between, what it needs is decided when `onClose` returns. -/
theorem close_kept_iff (cfg : CloseSettings) (s : CloseServer) (sessionId : ℕ) (call : EndCall)
    (htest : s.endTest sessionId = some call) (during between : CloseServer → CloseServer)
    (sent : Bool) :
    (s.CloseKept cfg call during between sent ↔
      (s.finishing cfg call during between sent).WillSend sessionId sent ∨
        ((s.finishing cfg call during between sent).conns call.fd).closed = false) ∧
    (s.CloseKept cfg call during id sent ↔
      (s.afterOnClose cfg call during sent).WillSend sessionId sent) := by
  have hid : call.sessionId = sessionId := by rw [(endTest_eq_some_iff.mp htest).2]
  have hkept : ∀ between, s.CloseKept cfg call during between sent ↔
      (s.finishing cfg call during between sent).WillSend sessionId sent ∨
        ((s.finishing cfg call during between sent).conns call.fd).closed = false := by
    intro between
    unfold CloseKept ended
    simp only [endStep, hid, finishClose_conns]
    rcases @finishClose_responses (s.finishing cfg call during between sent) sessionId sent with
      ⟨hsend, hreturns, hresponses⟩ | ⟨hsend, hreturns, hresponses⟩
    · simp [hsend, hresponses]
    · simp [hsend, hreturns, hresponses]
  refine ⟨hkept between, (hkept id).trans ?_⟩
  have hclosed := @marked_closed cfg s call during sent
  rw [finishing, id_eq, marked_willSend, hclosed]
  simp

/-- The close of a connection with data in its output buffer. -/
theorem close_kept_buffered :
    let cfg : CloseSettings := ⟨false, true⟩
    let s := StepRun.run (step cfg) (init 1024)
      [.accept 3 0 false, .send 1 1 true, .onPipeReceive 0 false false true true]
    let call : EndCall := ⟨1, some ⟨0, 3, 1⟩, 3, .tested⟩
    s.endTest 1 = some call ∧ s.CloseKept cfg call id id true :=
  ⟨by decide, (close_kept_iff _ _ 1 _ (by decide) id id true).2.mpr (by decide)⟩

/-- **A lost close.**  The output buffer has overflowed: the connection is marked as closed, the
call returns an error, and no close response is on its way. -/
theorem not_close_kept_overflow :
    let cfg : CloseSettings := ⟨false, true⟩
    let s := StepRun.run (step cfg) (init 1024)
      [.accept 3 0 false, .send 1 1 true, .onPipeReceive 0 false false true true,
        .send 1 1 true, .onPipeReceive 0 false true true true]
    let call : EndCall := ⟨1, some ⟨0, 3, 1⟩, 3, .tested⟩
    (s.conns 3).overflow = true ∧ s.endTest 1 = some call ∧
      ((s.ended cfg call id id true).conns 3).closed = true ∧
      (s.ended cfg call id id true).responses = [] ∧ ¬ s.CloseKept cfg call id id true := by
  refine ⟨by decide, by decide, by decide, by decide, ?_⟩
  rintro (hsent | ⟨-, hclosed⟩)
  · exact absurd hsent (by decide)
  · exact absurd hclosed (by decide)

end Swoole.CloseServer
