import Swoole.Network.SharedResponse

/-!
# The pipe that a reply takes

There is one pipe for each worker process, and the reactor threads share them out among
themselves: the thread `r` reads the pipes whose index leaves the remainder `r` on division
by `reactor_num` (`swReactorThread_loop`).  A worker that answers a session may use any pipe
of the thread that owns the connection.  `swWorker_send2reactor` takes the session id modulo
`reactor_pipe_num`, the quotient of `worker_num` by `reactor_num`, for the number of the pipe
among those of the thread.

The three computations are in three files and the division is rounded down, so the pipes
above `reactor_pipe_num * reactor_num` are never used for replies.  The index passes through
an `int16_t` (`from_id` in `swDataHead`) and a `uint16_t` (the argument of
`swServer_get_worker`); for a reactor id from `2^15` on, the second conversion undoes the first.

`step` is the traffic on these pipes.  A reply waits in the out buffer that its worker keeps
for the pipe, then in the pipe, which all workers write to, until the thread reads it.
`Traffic` says that the order is kept, one equation for each worker and session.
-/

open List Function

namespace Swoole

/-- A session id has 24 bits. -/
structure SessionId where
  id : ℕ
  id_lt : id < 2 ^ 24
  deriving DecidableEq, Repr

/-- The numbers of threads and processes, as `swServer_start_check` leaves them. -/
structure PipeLayout where
  reactorNum : ℕ
  workerNum : ℕ
  taskWorkerNum : ℕ
  userWorkerNum : ℕ
  reactorNum_pos : 1 ≤ reactorNum
  reactorNum_le : reactorNum ≤ workerNum
  /-- `worker_num` is a `uint16_t`. -/
  workerNum_lt : workerNum < 2 ^ 16

/-- The table of processes in which `swServer_get_worker` finds a worker. -/
inductive WorkerSlot where
  | event (index : ℕ)
  | task (index : ℕ)
  | user (index : ℕ)
  deriving DecidableEq, Repr

/-- The memory that `swReactorThread_loop` asks for when it adds a pipe: the buffer for
requests and the lock. -/
structure PipeAlloc where
  inBuffer : Bool
  lock : Bool
  deriving DecidableEq, Repr

namespace PipeLayout

variable (cfg : PipeLayout)

/-- `serv->reactor_pipe_num`, which `swFactoryProcess_start` sets. -/
def reactorPipeNum : ℕ := cfg.workerNum / cfg.reactorNum

/-- `swServer_get_worker`; the argument is converted to `uint16_t`. -/
def getWorker (workerId : ℤ) : Option WorkerSlot :=
  let workerId := toUInt16 workerId
  let taskWorkerMax := toUInt16 (cfg.taskWorkerNum + cfg.workerNum)
  let userWorkerMax := toUInt16 (taskWorkerMax + cfg.userWorkerNum)
  if workerId < cfg.workerNum then some (.event workerId)
  else if workerId < taskWorkerMax then some (.task (workerId - cfg.workerNum))
  else if workerId < userWorkerMax then some (.user (workerId - taskWorkerMax))
  else none

/-- `pipe_worker_id` of `swWorker_send2reactor`.  `conn->from_id` is copied to a field of
type `int16_t`, and the remainder is the one of `int`. -/
def pipeWorkerId (fromId : ℕ) (fd : ℤ) : ℤ :=
  let reactorId := toInt16 fromId
  let pipeIndex := fd.tmod cfg.reactorPipeNum
  reactorId + pipeIndex * cfg.reactorNum

/-- The worker whose pipe `swWorker_send2reactor` writes to. -/
def send2reactor (fromId : ℕ) (fd : ℤ) : Option WorkerSlot :=
  cfg.getWorker (cfg.pipeWorkerId fromId fd)

/-- The loop of `swReactorThread_loop` over the pipes.  It ends early when memory is short:
without the buffer the pipe is not added, without the lock it has been added already. -/
def addPipes (reactorId : ℕ) (allocs : ℕ → PipeAlloc) : List ℕ → List ℕ
  | [] => []
  | i :: is =>
    if i % cfg.reactorNum = reactorId then
      if (allocs i).inBuffer = false then []
      else if (allocs i).lock = false then [i]
      else i :: addPipes reactorId allocs is
    else addPipes reactorId allocs is

/-- The pipes that a reactor thread reads. -/
def watched (reactorId : ℕ) (allocs : ℕ → PipeAlloc) : List ℕ :=
  cfg.addPipes reactorId allocs (range cfg.workerNum)

/-! ## The choice of the pipe -/

/-- The index that the choice amounts to. -/
def replyIndex (fromId fd : ℕ) : ℕ := fromId + fd % cfg.reactorPipeNum * cfg.reactorNum

variable {cfg}

theorem reactorPipeNum_pos : 0 < cfg.reactorPipeNum :=
  Nat.div_pos cfg.reactorNum_le cfg.reactorNum_pos

variable {fromId : ℕ} (hr : fromId < cfg.reactorNum)
include hr

/-- The pipe is one of the first `reactor_pipe_num * reactor_num`, and these are not more
than there are workers. -/
theorem replyIndex_lt (fd : ℕ) : cfg.replyIndex fromId fd < cfg.workerNum := by
  have hindex : fd % cfg.reactorPipeNum + 1 ≤ cfg.reactorPipeNum :=
    Nat.mod_lt fd reactorPipeNum_pos
  calc cfg.replyIndex fromId fd
      < cfg.reactorNum + fd % cfg.reactorPipeNum * cfg.reactorNum :=
        Nat.add_lt_add_right hr _
    _ = (fd % cfg.reactorPipeNum + 1) * cfg.reactorNum := by
        rw [Nat.add_mul, one_mul, add_comm]
    _ ≤ cfg.reactorPipeNum * cfg.reactorNum := Nat.mul_le_mul_right _ hindex
    _ ≤ cfg.workerNum := Nat.div_mul_le_self _ _

theorem replyIndex_mod (fd : ℕ) : cfg.replyIndex fromId fd % cfg.reactorNum = fromId := by
  rw [replyIndex, Nat.add_mul_mod_self_right, Nat.mod_eq_of_lt hr]

/-- The two conversions of the index cancel out, for every reactor id. -/
theorem toUInt16_pipeWorkerId (fd : ℕ) :
    toUInt16 (cfg.pipeWorkerId fromId fd) = cfg.replyIndex fromId fd := by
  have hlt : cfg.replyIndex fromId fd < 2 ^ 16 :=
    lt_trans (replyIndex_lt hr fd) cfg.workerNum_lt
  rw [pipeWorkerId, toUInt16_toInt16_add, ← Int.ofNat_tmod]
  exact toUInt16_natCast hlt

theorem send2reactor_eq (fd : ℕ) :
    cfg.send2reactor fromId fd = some (.event (cfg.replyIndex fromId fd)) := by
  have hlt := replyIndex_lt hr fd
  simp only [send2reactor, getWorker, toUInt16_pipeWorkerId hr, if_pos hlt]

/-! ## The pipes of a thread -/

variable {allocs : ℕ → PipeAlloc} {is : List ℕ}

omit hr

/-- However early the loop ends, a thread reads pipes of its own only. -/
theorem mod_of_mem_addPipes {reactorId i : ℕ}
    (h : i ∈ cfg.addPipes reactorId allocs is) : i % cfg.reactorNum = reactorId := by
  induction is with
  | nil => cases h
  | cons j is ih =>
    simp only [addPipes] at h
    split_ifs at h with hj _ _
    · cases h
    · rwa [mem_singleton.mp h]
    · rcases mem_cons.mp h with rfl | hmem
      · exact hj
      · exact ih hmem
    · exact ih h

theorem mem_addPipes {reactorId i : ℕ} (hallocs : ∀ j, allocs j = ⟨true, true⟩) (hi : i ∈ is)
    (hmod : i % cfg.reactorNum = reactorId) : i ∈ cfg.addPipes reactorId allocs is := by
  induction is with
  | nil => cases hi
  | cons j is ih =>
    simp only [addPipes, hallocs]
    rcases mem_cons.mp hi with rfl | hmem
    · rw [if_pos hmod]
      exact mem_cons_self
    · by_cases hj : j % cfg.reactorNum = reactorId
      · rw [if_pos hj]
        exact mem_cons_of_mem _ (ih hmem)
      · rw [if_neg hj]
        exact ih hmem

end PipeLayout

/-! ## The traffic on the pipes -/

/-- A message of a worker to a session. -/
structure Reply where
  worker : ℕ
  session : SessionId
  data : Bytes
  deriving DecidableEq, Repr

/-- The reply is one of the worker to the session. -/
def Reply.isOf (worker : ℕ) (session : SessionId) (x : Reply) : Bool :=
  decide (x.worker = worker ∧ x.session = session)

/-- The replies on their way: in the out buffer that a worker has for a pipe, and in a pipe.
`sent` and `received` are history: the replies that `swWorker_send2reactor` took, with the
pipe it chose, and those that the reactor threads have read. -/
structure ReplyPipes where
  outBuffer : ℕ → WorkerSlot → List Reply
  pipe : WorkerSlot → List Reply
  crashed : Bool
  sent : List (WorkerSlot × Reply)
  received : ℕ → List Reply

namespace ReplyPipes

open StepRun PipeLayout
open Reply (isOf)

def initial : ReplyPipes where
  outBuffer _ _ := []
  pipe _ := []
  crashed := false
  sent := []
  received _ := []

inductive Event where
  /-- `swWorker_send2reactor`; `answer` is how the write ends. -/
  | reply (worker : ℕ) (session : SessionId) (data : Bytes) (answer : PipeAnswer)
  /-- The kernel takes the first message of an out buffer. -/
  | flush (worker : ℕ) (slot : WorkerSlot)
  /-- `swReactorThread_onPipeReceive` reads the next message of a pipe. -/
  | receive (reactor index : ℕ)
  deriving DecidableEq, Repr

/-- The write to the pipe of `slot`: it goes to the kernel only while the out buffer is empty.
A write that fails, at the socket or at the out buffer, leaves nothing behind. -/
def write (s : ReplyPipes) (slot : WorkerSlot) (x : Reply) (answer : PipeAnswer) : ReplyPipes :=
  match answer with
  | .error => s
  | .taken =>
    if s.outBuffer x.worker slot = [] then
      { s with
        pipe := update s.pipe slot (s.pipe slot ++ [x])
        sent := s.sent ++ [(slot, x)] }
    else
      { s with
        outBuffer := update s.outBuffer x.worker
          (update (s.outBuffer x.worker) slot (s.outBuffer x.worker slot ++ [x]))
        sent := s.sent ++ [(slot, x)] }
  | .again =>
    { s with
      outBuffer := update s.outBuffer x.worker
        (update (s.outBuffer x.worker) slot (s.outBuffer x.worker slot ++ [x]))
      sent := s.sent ++ [(slot, x)] }

/-- The end of `swWorker_send2reactor`; there is no check that a worker was found. -/
def writeTo (s : ReplyPipes) (x : Reply) (answer : PipeAnswer) : Option WorkerSlot → ReplyPipes
  | none => { s with crashed := true }
  | some slot => s.write slot x answer

def flush (s : ReplyPipes) (worker : ℕ) (slot : WorkerSlot) : ReplyPipes :=
  match s.outBuffer worker slot with
  | [] => s
  | x :: rest =>
    { s with
      outBuffer := update s.outBuffer worker
        (update (s.outBuffer worker) slot rest)
      pipe := update s.pipe slot (s.pipe slot ++ [x]) }

def receive (s : ReplyPipes) (reactor index : ℕ) : ReplyPipes :=
  match s.pipe (.event index) with
  | [] => s
  | x :: rest =>
    { s with
      pipe := update s.pipe (.event index) rest
      received := update s.received reactor (s.received reactor ++ [x]) }

/-- `owner` is the reactor thread of each session; `allocs` answers the allocations of the
threads. -/
def step (cfg : PipeLayout) (owner : SessionId → Fin cfg.reactorNum) (allocs : ℕ → PipeAlloc)
    (s : ReplyPipes) : Event → ReplyPipes
  | .reply worker session data answer =>
    s.writeTo ⟨worker, session, data⟩ answer (cfg.send2reactor (owner session) session.id)
  | .flush worker slot => s.flush worker slot
  | .receive reactor index =>
    if index ∈ cfg.watched reactor allocs then s.receive reactor index else s

variable {cfg : PipeLayout} (owner : SessionId → Fin cfg.reactorNum) {allocs : ℕ → PipeAlloc}
  {s : ReplyPipes}

/-- The pipe of a session. -/
def slotOf (session : SessionId) : WorkerSlot := .event (cfg.replyIndex (owner session) session.id)

/-- Every reply is where the replies to its session belong. -/
structure Routed (s : ReplyPipes) : Prop where
  alive : s.crashed = false
  outBuffer : ∀ worker slot, ∀ x ∈ s.outBuffer worker slot,
    x.worker = worker ∧ slot = slotOf owner x.session
  pipe : ∀ slot, ∀ x ∈ s.pipe slot, slot = slotOf owner x.session
  sent : ∀ y ∈ s.sent, y.1 = slotOf owner y.2.session
  received : ∀ reactor, ∀ x ∈ s.received reactor, reactor = owner x.session

/-- The replies of a worker to a session, as they follow one another from the thread that
owns the session back to the worker. -/
def line (s : ReplyPipes) (worker : ℕ) (session : SessionId) : List Reply :=
  s.received (owner session) ++ s.pipe (slotOf owner session) ++
    s.outBuffer worker (slotOf owner session)

/-- **The traffic is in order**: what the thread has received of a worker's replies to a
session, followed by what waits in the pipe and in the out buffer, is what the worker sent. -/
structure Traffic (s : ReplyPipes) : Prop extends Routed owner s where
  ordered : ∀ worker session, (s.line owner worker session).filter (isOf worker session) =
    (s.sent.map Prod.snd).filter (isOf worker session)

theorem traffic_initial : Traffic owner initial where
  alive := rfl
  outBuffer := nofun
  pipe := nofun
  sent := nofun
  received := nofun
  ordered _ _ := rfl

variable {owner}

theorem send2reactor_owner (session : SessionId) :
    cfg.send2reactor (owner session) session.id = some (slotOf owner session) :=
  send2reactor_eq (owner session).isLt session.id

variable {x : Reply} {worker : ℕ} {session : SessionId}

theorem isOf_iff : x.isOf worker session = true ↔ x.worker = worker ∧ x.session = session := by
  rw [isOf, decide_eq_true_eq]

theorem filter_singleton_of_ne (h : ¬(x.worker = worker ∧ x.session = session)) :
    [x].filter (isOf worker session) = [] := by
  rw [filter_cons_of_neg (fun hof => h (isOf_iff.mp hof)), filter_nil]

/-! ## Each step keeps the order -/

variable {s' : ReplyPipes}

theorem Traffic.join (h : Traffic owner s) (hrouted : Routed owner s')
    (hsent : s'.sent = s.sent ++ [(slotOf owner x.session, x)]) (hline : ∀ worker session,
      (s'.line owner worker session).filter (isOf worker session) =
        (s.line owner worker session ++ [x]).filter (isOf worker session)) :
    Traffic owner s' where
  toRouted := hrouted
  ordered worker session := by
    rw [hline, hsent, map_append, filter_append, filter_append, h.ordered worker session]
    rfl

theorem Traffic.advance (h : Traffic owner s) (hrouted : Routed owner s')
    (hsent : s'.sent = s.sent)
    (hline : ∀ worker session, (s'.line owner worker session).filter (isOf worker session) =
        (s.line owner worker session).filter (isOf worker session)) :
    Traffic owner s' where
  toRouted := hrouted
  ordered worker session := by rw [hline, hsent, h.ordered worker session]

/-- An out buffer with a reply more at its end. -/
def enqueue (s : ReplyPipes) (slot : WorkerSlot) (x : Reply) : ReplyPipes :=
  { s with
    outBuffer := update s.outBuffer x.worker
      (update (s.outBuffer x.worker) slot (s.outBuffer x.worker slot ++ [x]))
    sent := s.sent ++ [(slot, x)] }

variable {l : List Reply}

theorem outBuffer_update {worker' : ℕ} {slot slot' : WorkerSlot} :
    update s.outBuffer worker (update (s.outBuffer worker) slot l)
        worker' slot' =
      if worker' = worker ∧ slot' = slot then l else s.outBuffer worker' slot' := by
  by_cases hworker : worker' = worker
  · subst hworker
    by_cases hslot : slot' = slot
    · subst hslot
      simp
    · simp [hslot]
  · simp [hworker]

theorem pipe_update {slot slot' : WorkerSlot} :
    update s.pipe slot l slot' = if slot' = slot then l else s.pipe slot' := by
  rw [update_apply]

variable (h : Traffic owner s)
include h

theorem Traffic.enqueue : Traffic owner (s.enqueue (slotOf owner x.session) x) := by
  refine h.join (x := x) ⟨h.alive, ?_, h.pipe, ?_, h.received⟩ rfl fun worker session => ?_
  · intro worker slot y hy
    simp only [ReplyPipes.enqueue, outBuffer_update] at hy
    split_ifs at hy with heq
    · rcases mem_append.mp hy with hold | hnew
      · obtain ⟨rfl, rfl⟩ := heq
        exact h.outBuffer _ _ y hold
      · rw [mem_singleton.mp hnew]
        exact ⟨heq.1.symm, heq.2⟩
    · exact h.outBuffer worker slot y hy
  · exact forall_mem_append.mpr ⟨h.sent, forall_mem_singleton.mpr rfl⟩
  · simp only [line, ReplyPipes.enqueue, outBuffer_update]
    split_ifs with heq
    · obtain ⟨rfl, hslot⟩ := heq
      rw [hslot, append_assoc _ _ [x]]
    · rw [filter_append _ [x], filter_singleton_of_ne, append_nil]
      rintro ⟨rfl, rfl⟩
      exact heq ⟨rfl, rfl⟩

/-- A reply goes to the pipe at once; the out buffer of its worker is empty, so it overtakes
no other reply of the worker. -/
theorem Traffic.direct
    (hempty : s.outBuffer x.worker (slotOf owner x.session) = []) : Traffic owner
      { s with
        pipe := update s.pipe (slotOf owner x.session)
          (s.pipe (slotOf owner x.session) ++ [x])
        sent := s.sent ++ [(slotOf owner x.session, x)] } := by
  refine h.join (x := x) ⟨h.alive, h.outBuffer, ?_, ?_, h.received⟩ rfl fun worker session => ?_
  · refine (forall_update_iff s.pipe fun slot l => ∀ y ∈ l, slot = slotOf owner y.session).mpr
      ⟨?_, fun slot _ => h.pipe slot⟩
    exact forall_mem_append.mpr ⟨h.pipe _, forall_mem_singleton.mpr rfl⟩
  · exact forall_mem_append.mpr ⟨h.sent, forall_mem_singleton.mpr rfl⟩
  · simp only [line, pipe_update, filter_append]
    by_cases hof : x.worker = worker ∧ x.session = session
    · obtain ⟨rfl, rfl⟩ := hof
      simp [hempty]
    · split_ifs with hslot
      · rw [filter_append, filter_singleton_of_ne hof, hslot]
        simp
      · rw [filter_singleton_of_ne hof, append_nil]

theorem Traffic.write (answer : PipeAnswer) :
    Traffic owner (s.write (slotOf owner x.session) x answer) := by
  cases answer with
  | error => exact h
  | again => exact h.enqueue
  | taken =>
    simp only [ReplyPipes.write]
    split_ifs with hempty
    · exact h.direct hempty
    · exact h.enqueue

theorem Traffic.flush (worker : ℕ) (slot : WorkerSlot) : Traffic owner (s.flush worker slot) := by
  unfold ReplyPipes.flush
  split
  case h_1 => exact h
  case h_2 x rest hbuffer =>
    have hx := h.outBuffer worker slot x (by rw [hbuffer]; exact mem_cons_self)
    refine h.advance ⟨h.alive, ?_, ?_, h.sent, h.received⟩ rfl fun worker' session => ?_
    · intro worker' slot' y hy
      simp only [outBuffer_update] at hy
      split_ifs at hy with heq
      · obtain ⟨rfl, rfl⟩ := heq
        exact h.outBuffer _ _ y (by rw [hbuffer]; exact mem_cons_of_mem _ hy)
      · exact h.outBuffer _ _ y hy
    · refine (forall_update_iff s.pipe fun slot l => ∀ y ∈ l, slot = slotOf owner y.session).mpr
        ⟨?_, fun slot' _ => h.pipe slot'⟩
      exact forall_mem_append.mpr ⟨h.pipe slot, forall_mem_singleton.mpr hx.2⟩
    · simp only [line, outBuffer_update, pipe_update]
      by_cases hslot : slotOf owner session = slot
      · rw [if_pos hslot]
        by_cases hworker : worker' = worker
        · rw [if_pos ⟨hworker, hslot⟩, hworker, hslot, hbuffer]
          simp [append_assoc]
        · rw [if_neg (fun heq => hworker heq.1), hslot]
          have hother : ¬(x.worker = worker' ∧ x.session = session) :=
            fun heq => hworker (heq.1.symm.trans hx.1)
          simp only [filter_append, filter_singleton_of_ne hother, append_nil]
      · rw [if_neg hslot, if_neg (fun heq => hslot heq.2)]

theorem Traffic.receive {reactor index : ℕ}
    (hown : index % cfg.reactorNum = reactor) : Traffic owner (s.receive reactor index) := by
  unfold ReplyPipes.receive
  split
  case h_1 => exact h
  case h_2 x rest hpipe =>
    have hold := h.pipe (.event index)
    rw [hpipe] at hold
    have hx := hold x mem_cons_self
    have hreactor : reactor = owner x.session := by
      injection hx with hindex
      rw [← hown, hindex]
      exact replyIndex_mod (owner x.session).isLt _
    refine h.advance ⟨h.alive, h.outBuffer, ?_, h.sent, ?_⟩ rfl fun worker session => ?_
    · exact (forall_update_iff s.pipe fun slot l => ∀ y ∈ l, slot = slotOf owner y.session).mpr
        ⟨fun y hy => hold y (mem_cons_of_mem _ hy), fun slot _ => h.pipe slot⟩
    · refine (forall_update_iff s.received fun reactor l => ∀ y ∈ l, reactor = owner y.session).mpr
        ⟨?_, fun reactor' _ => h.received reactor'⟩
      exact forall_mem_append.mpr ⟨h.received reactor, forall_mem_singleton.mpr hreactor⟩
    · simp only [line, update_apply]
      by_cases hslot : slotOf owner session = .event index
      · -- The session shares the pipe with the message, so its thread is this one.
        have hthread : (owner session : ℕ) = reactor := by
          injection hslot with hindex
          rw [← hown, ← hindex]
          exact (replyIndex_mod (owner session).isLt _).symm
        rw [if_pos hslot, if_pos hthread, hthread, hslot, hpipe]
        simp [append_assoc]
      · have hother : ¬(x.worker = worker ∧ x.session = session) := by
          rintro ⟨-, rfl⟩
          exact hslot hx.symm
        split_ifs with hthread
        · rw [hthread]
          simp only [filter_append, filter_singleton_of_ne hother, append_nil]
        · rfl

omit h

theorem step_reply (worker : ℕ) (session : SessionId) (data : Bytes) (answer : PipeAnswer) :
    step cfg owner allocs s (.reply worker session data answer) =
      s.write (slotOf owner session) ⟨worker, session, data⟩ answer :=
  congrArg (s.writeTo ⟨worker, session, data⟩ answer) (send2reactor_owner session)

theorem Traffic.step (h : Traffic owner s) (event : Event) :
    Traffic owner (step cfg owner allocs s event) := by
  cases event with
  | reply worker session data answer =>
    rw [step_reply]
    exact h.write (x := ⟨worker, session, data⟩) answer
  | flush worker slot => exact h.flush worker slot
  | receive reactor index =>
    simp only [ReplyPipes.step]
    split_ifs with hmem
    · exact h.receive (mod_of_mem_addPipes hmem)
    · exact h

/-- **The reply pipe**: `swWorker_send2reactor` chooses a pipe of an event worker that belongs
to the reactor thread of the connection, and that the thread reads unless it ran short of
memory.  In every run all replies to a session take the same pipe, no other thread reads them,
and the thread receives those of one worker in the order in which they were sent, without a
gap. -/
theorem reply_pipe_run (cfg : PipeLayout) (owner : SessionId → Fin cfg.reactorNum)
    (allocs : ℕ → PipeAlloc) (events : List Event) :
    (∀ (r : Fin cfg.reactorNum) (session : SessionId), ∃ index,
      cfg.send2reactor r session.id = some (.event index) ∧ index < cfg.workerNum ∧
        index % cfg.reactorNum = r ∧ index ∈ cfg.watched r fun _ => ⟨true, true⟩) ∧
    (run (step cfg owner allocs) initial events).crashed = false ∧
    ∀ (worker : ℕ) (session : SessionId),
      let s := run (step cfg owner allocs) initial events
      (∀ y ∈ s.sent, y.2.session = session →
        cfg.send2reactor (owner session) session.id = some y.1) ∧
      (∀ reactor, ∀ x ∈ s.received reactor, x.session = session → reactor = owner session) ∧
      (s.line owner worker session).filter (isOf worker session) =
        (s.sent.map Prod.snd).filter (isOf worker session) := by
  have h : Traffic owner (run (step cfg owner allocs) initial events) :=
    run_invariant (fun _ event h => h.step event) events (traffic_initial owner)
  refine ⟨fun r session => ?_, h.alive, fun worker session => ⟨?_, ?_, h.ordered worker session⟩⟩
  · have hlt := replyIndex_lt r.isLt session.id
    have hmod := replyIndex_mod r.isLt session.id
    exact ⟨_, send2reactor_eq r.isLt session.id, hlt, hmod,
      mem_addPipes (fun _ => rfl) (mem_range.mpr hlt) hmod⟩
  · rintro y hy rfl
    rw [send2reactor_owner, h.sent y hy]
  · rintro reactor x hx rfl
    exact h.received reactor x hx

def fourWorkers : PipeLayout := ⟨2, 4, 0, 0, by decide, by decide, by decide⟩

/-- A reply that waits in the out buffer, goes to the pipe and is read by the second thread. -/
theorem reply_pipe_four_workers :
    let owner : SessionId → Fin fourWorkers.reactorNum := fun _ => ⟨1, by decide⟩
    let x : Reply := ⟨0, ⟨5, by decide⟩, [97]⟩
    let events : List Event := [.reply 0 x.session [97] .again, .flush 0 (.event 3), .receive 1 3]
    let s := run (step fourWorkers owner fun _ => ⟨true, true⟩) initial events
    s.crashed = false ∧ s.received 1 = [x] ∧
      (s.line owner 0 x.session).filter (isOf 0 x.session) = [x] := by
  intro owner x events s
  obtain ⟨-, hcrashed, hline⟩ := reply_pipe_run fourWorkers owner (fun _ => ⟨true, true⟩) events
  exact ⟨hcrashed, by decide, (hline 0 x.session).2.2.trans (by decide)⟩

end ReplyPipes

end Swoole
