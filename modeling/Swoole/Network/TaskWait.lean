import Swoole.Core.String
import Swoole.Library.StepRun

/-!
# `taskwait`

A worker that calls `taskwait` sends a task to a task worker and waits for its result.  There is
one slot for results per worker and one event counter to say that something is in it.
`taskwait` clears the slot, reads the counter until it is zero, sends the task, waits until the
counter is not zero, and takes what the slot then holds.  `swTaskWorker_finish` writes the slot
under a lock and then adds one to the counter.

The number of the task is written into the slot, but `taskwait` does not look at it.  After a
call has timed out, its task may still be under way: what `finish` does for it after the next call
has read the counter is taken for the result of that call.

A step of the system is a step of the worker or a step of a call of `finish`; the task workers'
steps come in between the worker's in any order.  `finished` and `returned` are histories: what
`finish` was called with, and what `taskwait` has returned, each with the number of the task.
-/

namespace Swoole

open StepRun List

/-- What a task hands to `finish`. -/
structure TaskResult where
  serialized : Bool
  data : List UInt8
  deriving DecidableEq, Repr

/-- `SwooleG.task_result[SwooleWG.id]`.  A large result is in a file, and `data` is what the file
holds. -/
structure ResultSlot where
  fd : ℕ
  serialized : Bool
  tmpfile : Bool
  data : List UInt8
  deriving DecidableEq, Repr

namespace ResultSlot

/-- `bzero`. -/
def zero : ResultSlot := ⟨0, false, false, []⟩

/-- What `php_swoole_get_task_result` makes its answer of. -/
def result (slot : ResultSlot) : TaskResult := ⟨slot.serialized, slot.data⟩

end ResultSlot

/-- Where a call of `swTaskWorker_finish` is. -/
inductive ResultStage where
  /-- In front of `worker->lock.lock`. -/
  | locking
  /-- In front of the fields of `result->info`. -/
  | storing
  /-- In front of the data. -/
  | packing
  /-- In front of `task_notify_pipe->write`. -/
  | notifying
  deriving DecidableEq, Repr

/-- A call of `swTaskWorker_finish`. -/
structure ResultCall where
  task : ℕ
  result : TaskResult
  stage : ResultStage
  deriving DecidableEq, Repr

/-- The call has the lock. -/
def ResultCall.Holds (c : ResultCall) : Prop := c.stage = .storing ∨ c.stage = .packing
  deriving Decidable

/-- Where the worker is in `taskwait`, and the number of its task. -/
inductive WaitStage where
  | idle
  /-- The slot is cleared. -/
  | preparing (id : ℕ)
  /-- The counter was zero. -/
  | drained (id : ℕ)
  /-- The task is sent. -/
  | waiting (id : ℕ)
  /-- The counter was not zero. -/
  | copying (id : ℕ)
  deriving DecidableEq, Repr

/-- A worker's slot and counter, and who is at work on them. -/
structure TaskWait where
  nextId : ℕ
  slot : ResultSlot
  notify : ℕ
  stage : WaitStage
  calls : List ResultCall
  dispatched : List ℕ
  finished : List (ℕ × TaskResult)
  returned : List (ℕ × TaskResult)
  deriving DecidableEq, Repr

namespace TaskWait

def init : TaskWait := ⟨0, .zero, 0, .idle, [], [], [], []⟩

/-- What the system answers to a call of `finish`. -/
inductive Outcome where
  | ok
  /-- `errno` is `EAGAIN` behind the `write`, whether or not that has failed. -/
  | again
  | failed
  deriving DecidableEq, Repr

inductive Event where
  /-- `taskwait` is called; `packed` is false if a large task cannot be written to a file. -/
  | taskwait (packed : Bool)
  /-- `read(efd, &notify, sizeof(notify))`, to clear the history. -/
  | drain
  | dispatch (sent : Bool)
  /-- `task_notify_pipe->read` finds the counter. -/
  | wake
  | timeout
  /-- `php_swoole_get_task_result`. -/
  | copy (readable : Bool)
  /-- A task worker calls `finish` for a task. -/
  | finish (task : ℕ) (result : TaskResult)
  /-- A step of that call. -/
  | advance (task : ℕ) (outcome : Outcome)
  deriving DecidableEq, Repr

variable (s : TaskWait)

/-! ## The worker -/

/-- `taskwait` up to where it clears the history. -/
def taskwait (packed : Bool) : TaskWait :=
  { s with
    nextId := s.nextId + 1
    slot := .zero
    stage := if packed then .preparing s.nextId else .idle }

/-- The loop that clears the history ends with the first `read` that finds nothing. -/
def drain (id : ℕ) : TaskWait :=
  if 0 < s.notify then { s with notify := 0 } else { s with stage := .drained id }

/-- `swProcessPool_dispatch_blocking`. -/
def dispatch (id : ℕ) (sent : Bool) : TaskWait :=
  if sent then { s with stage := .waiting id, dispatched := id :: s.dispatched }
  else { s with stage := .idle }

/-- `task_notify_pipe->read`, if it does not time out. -/
def wake (id : ℕ) : TaskWait :=
  if 0 < s.notify then { s with notify := 0, stage := .copying id } else { s with stage := .idle }

/-- The end of `taskwait`; there is nothing to return if the file cannot be read. -/
def copy (id : ℕ) (readable : Bool) : TaskWait :=
  if s.slot.tmpfile ∧ ¬ readable then { s with stage := .idle }
  else { s with stage := .idle, returned := s.returned ++ [(id, s.slot.result)] }

/-! ## The task workers -/

/-- The call goes on to another stage. -/
def moveCall (c : ResultCall) (stage : ResultStage) : TaskWait :=
  { s with calls := s.calls.map fun c' => if c' = c then { c with stage := stage } else c' }

/-- The call returns. -/
def endCall (c : ResultCall) : TaskWait := { s with calls := s.calls.filter fun c' => c' ≠ c }

/-- A large result goes to a file. -/
def Large (data : List UInt8) : Prop := ipcMaxSize - dataHeadSize ≤ data.length
  deriving Decidable

/-- `result->info` is written. -/
def storeInfo (c : ResultCall) : TaskWait :=
  { s with
    slot := { s.slot with fd := c.task, serialized := c.result.serialized, tmpfile := false } }

/-- The data is written, or the name of a file with it. -/
def storeData (c : ResultCall) : TaskWait :=
  { s with
    slot :=
      { s.slot with
        tmpfile := s.slot.tmpfile || decide (Large c.result.data)
        data := c.result.data } }

def notifyWorker : TaskWait := { s with notify := s.notify + 1 }

/-- A step of `swTaskWorker_finish`. -/
def advanceCall (c : ResultCall) (outcome : Outcome) : TaskWait :=
  match c.stage with
  | .locking => if ∃ c' ∈ s.calls, c'.Holds then s else s.moveCall c .storing
  | .storing => (s.storeInfo c).moveCall c .packing
  | .packing =>
    if Large c.result.data ∧ outcome = .failed then s.endCall c
    else (s.storeData c).moveCall c .notifying
  | .notifying =>
    match outcome with
    | .ok => (s.notifyWorker).endCall c
    | .again => s.notifyWorker
    | .failed => s.endCall c

def advance (task : ℕ) (outcome : Outcome) : TaskWait :=
  match s.calls.find? fun c => c.task = task with
  | none => s
  | some c => s.advanceCall c outcome

/-- `swTaskWorker_finish` is called. -/
def finish (task : ℕ) (result : TaskResult) : TaskWait :=
  { s with
    calls := ⟨task, result, .locking⟩ :: s.calls
    finished := (task, result) :: s.finished }

/-- **One step.**  An event that does not fit the place where the worker is does nothing. -/
def step (s : TaskWait) (event : Event) : TaskWait :=
  match event, s.stage with
  | .taskwait packed, .idle => s.taskwait packed
  | .drain, .preparing id => s.drain id
  | .dispatch sent, .drained id => s.dispatch id sent
  | .wake, .waiting id => s.wake id
  | .timeout, .waiting _ => { s with stage := .idle }
  | .copy readable, .copying id => s.copy id readable
  | .finish task result, _ => s.finish task result
  | .advance task outcome, _ => s.advance task outcome
  | _, _ => s

/-- `finish` is called for a task that was sent, by the one task worker that has it. -/
def Admissible (s : TaskWait) : Event → Prop
  | .finish task _ => task ∈ s.dispatched ∧ ∀ c ∈ s.calls, c.task ≠ task
  | _ => True

instance (s : TaskWait) (event : Event) : Decidable (s.Admissible event) := by
  unfold Admissible
  split <;> infer_instance

/-- **The contract**: what a call has returned, `finish` was called with for its task. -/
def Sound (s : TaskWait) : Prop := ∀ answer ∈ s.returned, answer ∈ s.finished
  deriving Decidable

/-- No call of `finish` is under way when the history has been cleared. -/
def QuietDrain (s : TaskWait) : WaitStage → Prop
  | .preparing _ => 0 < s.notify ∨ s.calls = []
  | .idle | .drained _ | .waiting _ | .copying _ => True

/-- From then on `finish` is called for the task of the call only, and once. -/
def QuietFinish (s : TaskWait) (task : ℕ) : WaitStage → Prop
  | .idle | .preparing _ => True
  | .waiting id => task = id ∧ ∀ f ∈ s.finished, f.1 ≠ id
  | .drained _ | .copying _ => False

def Quiet (s : TaskWait) : Event → Prop
  | .drain => s.QuietDrain s.stage
  | .finish task _ => s.QuietFinish task s.stage
  | .taskwait _ | .dispatch _ | .wake | .timeout | .copy _ | .advance _ _ => True

instance (s : TaskWait) (stage : WaitStage) : Decidable (s.QuietDrain stage) := by
  unfold QuietDrain
  split <;> infer_instance

instance (s : TaskWait) (task : ℕ) (stage : WaitStage) : Decidable (s.QuietFinish task stage) := by
  unfold QuietFinish
  split <;> infer_instance

instance (s : TaskWait) (event : Event) : Decidable (s.Quiet event) := by
  unfold Quiet
  split <;> infer_instance

/-! ## The invariant -/

variable {s : TaskWait} {id : ℕ}

/-- The slot holds a result of the task, and no call of `finish` will write to it. -/
def Stored (s : TaskWait) (id : ℕ) : Prop :=
  ∃ result, (id, result) ∈ s.finished ∧ s.slot.result = result ∧
    ∀ c ∈ s.calls, c = ⟨id, result, .notifying⟩

/-- How far the one call of `finish` for the task is, while the worker waits. -/
inductive Progress (s : TaskWait) (id : ℕ) : Prop
  /-- It has not begun, or it has failed. -/
  | silent (hcalls : s.calls = []) (hnotify : s.notify = 0)
  | storing (c : ResultCall) (hcalls : s.calls = [c]) (hnotify : s.notify = 0)
      (hstage : c.stage ≠ .notifying) (htask : c.task = id)
      (hfinished : (id, c.result) ∈ s.finished)
      (hinfo : c.stage = .packing → s.slot.serialized = c.result.serialized)
  | stored (hstored : s.Stored id)

/-- What the worker relies on. -/
def Clear (s : TaskWait) : WaitStage → Prop
  | .idle | .preparing _ => True
  | .drained _ => s.calls = [] ∧ s.notify = 0
  | .waiting id => s.Progress id
  | .copying id => s.Stored id

structure Inv (s : TaskWait) : Prop where
  sound : s.Sound
  clear : s.Clear s.stage

/-! ## Steps of a call of `finish` -/

/-- A step of `finish` leaves what the worker alone writes. -/
theorem advance_frame (task : ℕ) (outcome : Outcome) :
    (s.advance task outcome).stage = s.stage ∧ (s.advance task outcome).finished = s.finished ∧
      (s.advance task outcome).returned = s.returned := by
  unfold advance
  split
  · exact ⟨rfl, rfl, rfl⟩
  · rename_i c _
    obtain ⟨task, result, stage⟩ := c
    cases stage with
    | locking =>
      simp only [advanceCall]
      split_ifs <;> exact ⟨rfl, rfl, rfl⟩
    | storing => exact ⟨rfl, rfl, rfl⟩
    | packing =>
      simp only [advanceCall]
      split_ifs <;> exact ⟨rfl, rfl, rfl⟩
    | notifying => cases outcome <;> exact ⟨rfl, rfl, rfl⟩

theorem advance_of_calls_eq_nil (h : s.calls = []) (task : ℕ) (outcome : Outcome) :
    s.advance task outcome = s := by
  rw [advance, h]
  rfl

theorem Stored.advance (h : s.Stored id) (task : ℕ) (outcome : Outcome) :
    (s.advance task outcome).Stored id := by
  obtain ⟨result, hfinished, hslot, hcalls⟩ := h
  unfold TaskWait.advance
  split
  · exact ⟨result, hfinished, hslot, hcalls⟩
  · rename_i c hc
    have hc' := hcalls c (mem_of_find?_eq_some hc)
    subst hc'
    cases outcome with
    | ok => exact ⟨result, hfinished, hslot, fun c' hc' => hcalls c' (mem_filter.mp hc').1⟩
    | again => exact ⟨result, hfinished, hslot, hcalls⟩
    | failed => exact ⟨result, hfinished, hslot, fun c' hc' => hcalls c' (mem_filter.mp hc').1⟩

/-- **A step of the one call** on its way to the slot. -/
theorem Progress.advance (h : s.Progress id) (task : ℕ) (outcome : Outcome) :
    (s.advance task outcome).Progress id := by
  cases h with
  | silent hcalls hnotify =>
    rw [advance_of_calls_eq_nil hcalls]
    exact .silent hcalls hnotify
  | stored hstored => exact .stored (hstored.advance task outcome)
  | storing c hcalls hnotify hstage htask hfinished hinfo =>
    unfold TaskWait.advance
    split
    · exact .storing c hcalls hnotify hstage htask hfinished hinfo
    · rename_i c' hc'
      have heq : c' = c := by
        have hmem := mem_of_find?_eq_some hc'
        rwa [hcalls, mem_singleton] at hmem
      subst heq
      have hmove : ∀ stage, (s.calls.map fun c =>
          if c = c' then { c' with stage := stage } else c) = [{ c' with stage := stage }] := by
        simp [hcalls]
      obtain ⟨task', result, stage⟩ := c'
      subst htask
      cases stage with
      | locking =>
        -- it is the only call, so nobody holds the lock
        have hfree : ¬ ∃ c ∈ s.calls, c.Holds := by simp [hcalls, ResultCall.Holds]
        simp only [advanceCall, if_neg hfree]
        exact .storing _ (hmove .storing) hnotify nofun rfl hfinished nofun
      | storing => exact .storing _ (hmove .packing) hnotify nofun rfl hfinished fun _ => rfl
      | packing =>
        simp only [advanceCall]
        split_ifs
        · exact .silent (by simp [endCall, hcalls]) hnotify
        · refine .stored ⟨result, hfinished, ?_, fun c hc => ?_⟩
          · show (⟨s.slot.serialized, result.data⟩ : TaskResult) = result
            rw [hinfo rfl]
          · exact mem_singleton.mp (hmove .notifying ▸ hc)
      | notifying => exact absurd rfl hstage

theorem Clear.advance {stage : WaitStage} (h : s.Clear stage) (task : ℕ) (outcome : Outcome) :
    (s.advance task outcome).Clear stage := by
  cases stage with
  | idle => trivial
  | preparing id => trivial
  | drained id =>
    rw [advance_of_calls_eq_nil h.1]
    exact h
  | waiting id => exact Progress.advance h task outcome
  | copying id => exact Stored.advance h task outcome

variable (h : s.Inv)
include h

theorem Inv.advance (task : ℕ) (outcome : Outcome) : (s.advance task outcome).Inv := by
  obtain ⟨hstage, hfinished, hreturned⟩ := advance_frame (s := s) task outcome
  refine ⟨?_, ?_⟩
  · unfold Sound
    rw [hfinished, hreturned]
    exact h.sound
  · rw [hstage]
    exact h.clear.advance task outcome

/-- **`finish` is called** for the task that the worker waits for. -/
theorem Inv.finish {task : ℕ} {result : TaskResult}
    (hquiet : s.QuietFinish task s.stage) : (s.finish task result).Inv := by
  obtain ⟨hsound, hclear⟩ := h
  refine ⟨fun answer hanswer => mem_cons_of_mem _ (hsound answer hanswer), ?_⟩
  show (s.finish task result).Clear s.stage
  cases hstage : s.stage with
  | idle => trivial
  | preparing id => trivial
  | drained id =>
    rw [hstage] at hquiet
    exact hquiet.elim
  | copying id =>
    rw [hstage] at hquiet
    exact hquiet.elim
  | waiting id =>
    rw [hstage] at hquiet hclear
    obtain ⟨rfl, hfirst⟩ := hquiet
    -- a second call of `finish` would find the first one in the history
    rcases hclear with ⟨hcalls, hnotify⟩ | ⟨c, -, -, -, -, hfinished, -⟩ | ⟨_, hfinished, -, -⟩
    · refine .storing ⟨task, result, .locking⟩ ?_ hnotify nofun rfl mem_cons_self nofun
      rw [TaskWait.finish, hcalls]
    all_goals exact absurd rfl (hfirst _ hfinished)

/-! ## Steps of the worker -/

theorem Inv.drain (hquiet : 0 < s.notify ∨ s.calls = [])
    (hstage : s.stage = .preparing id) : (s.drain id).Inv := by
  unfold TaskWait.drain
  split_ifs with hnotify
  · refine ⟨h.sound, ?_⟩
    rw [hstage]
    trivial
  · exact ⟨h.sound, hquiet.resolve_left hnotify, Nat.eq_zero_of_not_pos hnotify⟩

/-- The worker only wakes up when the result of its task is in the slot. -/
theorem Inv.wake (hstage : s.stage = .waiting id) : (s.wake id).Inv := by
  unfold TaskWait.wake
  split_ifs with hnotify
  · have hclear := h.clear
    rw [hstage] at hclear
    refine ⟨h.sound, ?_⟩
    -- `notify` is written after the slot, so a call that is still storing has not woken anyone
    rcases hclear with ⟨-, hzero⟩ | ⟨_, -, hzero, -, -, -, -⟩ | ⟨hstored⟩
    · omega
    · omega
    · exact hstored
  · exact ⟨h.sound, trivial⟩

theorem Inv.copy (hstage : s.stage = .copying id) (readable : Bool) : (s.copy id readable).Inv := by
  unfold TaskWait.copy
  split_ifs
  · exact ⟨h.sound, trivial⟩
  · refine ⟨fun answer hanswer => ?_, trivial⟩
    rcases mem_append.mp hanswer with hold | hnew
    · exact h.sound answer hold
    · have hclear := h.clear
      rw [hstage] at hclear
      obtain ⟨result, hfinished, hslot, -⟩ := hclear
      rw [mem_singleton.mp hnew, hslot]
      exact hfinished

/-- **One step.** -/
theorem Inv.step {event : Event} (hquiet : s.Quiet event) : (s.step event).Inv := by
  unfold TaskWait.step
  split
  · refine ⟨h.sound, ?_⟩
    unfold TaskWait.taskwait
    split_ifs <;> trivial
  · rename_i id hstage
    refine h.drain ?_ hstage
    rw [Quiet, hstage] at hquiet
    exact hquiet
  · rename_i sent id hstage
    have hclear := h.clear
    rw [hstage] at hclear
    unfold TaskWait.dispatch
    split_ifs
    · exact ⟨h.sound, .silent hclear.1 hclear.2⟩
    · exact ⟨h.sound, trivial⟩
  · rename_i id hstage
    exact h.wake hstage
  · exact ⟨h.sound, trivial⟩
  · rename_i readable id hstage
    exact h.copy hstage readable
  · exact h.finish hquiet
  · exact h.advance _ _
  · exact h

omit h

/-- **A call returns the result of its own task**, if no call of `finish` for another one comes in
between. -/
theorem own_result_run (events : List Event) (hquiet : EachStep step Quiet init events)
    (used : List Event) (hused : used <+: events) : (run step init used).Sound :=
  ((hquiet.restrict hused).run_invariant (fun _ _ h hevent => Inv.step h hevent)
    ⟨nofun, trivial⟩).sound

/-- The first call times out, and its result comes while the worker is idle.  The second call
clears it away and gets its own result. -/
theorem own_result_after_timeout :
    let late : List Event :=
      [.taskwait true, .drain, .dispatch true, .timeout, .finish 0 ⟨false, [1]⟩, .advance 0 .ok,
        .advance 0 .ok, .advance 0 .ok, .advance 0 .ok]
    let own : List Event :=
      [.taskwait true, .drain, .drain, .dispatch true, .finish 1 ⟨false, [2]⟩, .advance 1 .ok,
        .advance 1 .ok, .advance 1 .ok, .advance 1 .ok, .wake, .copy true]
    EachStep step Admissible init (late ++ own) ∧ EachStep step Quiet init (late ++ own) ∧
      (run step init late).notify = 1 ∧
      (run step init (late ++ own)).returned = [(1, ⟨false, [2]⟩)] ∧
      (run step init (late ++ own)).Sound :=
  ⟨by decide, by decide, by decide, by decide, own_result_run _ (by decide) _ (prefix_refl _)⟩

/-- The result of the first call comes when the second one has cleared the history, and is taken
for its result. -/
theorem late_result_returned :
    let events : List Event :=
      [.taskwait true, .drain, .dispatch true, .timeout, .taskwait true, .drain, .dispatch true,
        .finish 0 ⟨false, [1]⟩, .advance 0 .ok, .advance 0 .ok, .advance 0 .ok, .advance 0 .ok,
        .wake, .copy true]
    EachStep step Admissible init events ∧
      (run step init events).returned = [(1, ⟨false, [1]⟩)] ∧ ¬ (run step init events).Sound := by
  decide

end TaskWait

end Swoole
