import Swoole.Core.Heap
import Swoole.Core.Int
import Swoole.Library.StepRun

/-!
# The reactor timer

`swTimer` keeps the pending timers in a min-heap by deadline and tells the event
loop how long it may sleep by writing `timeout_msec` of the main reactor.  Three
functions write it: `swTimer_init` and `swTimer_add` with an interval, and
`swTimer_select`, which fires what is due, with the time left to the next deadline.

`swTimer_select` calls back into the program, and the callback may add and delete
timers.  So a select is not one step of the model but a sequence of them: `select`
runs up to the first callback and leaves the timer in the mode `callback`, further
events are what the callback does, and `ret` continues the loop behind it.

The clock and the allocator are outside the program: an event carries what
`gettimeofday` and `malloc` answer.  `clock` and `lastReading` record the latest time
seen and the reading of the last add or select that returned; the source has no such
variables.
-/

namespace Swoole

open Function

/-! ## The clock -/

/-- `struct timeval`, as the kernel fills it in: it keeps the time in nanoseconds in
64 bits, which bounds the seconds. -/
structure Timeval where
  sec : ℕ
  usec : ℕ
  sec_lt : sec < 2 ^ 34
  usec_lt : usec < 1000000
  deriving DecidableEq

namespace Timeval

/-- The time in microseconds. -/
def micros (v : Timeval) : ℕ := v.sec * 1000000 + v.usec

end Timeval

/-- The milliseconds from `base` to `now`, as `swTimer_get_relative_msec` computes
them: the difference of the microseconds is divided towards zero. -/
def relativeMsec (base now : Timeval) : ℤ :=
  ((now.sec : ℤ) - base.sec) * 1000 + Int.tdiv ((now.usec : ℤ) - base.usec) 1000

theorem tdiv_thousand (x : ℤ) :
    (0 ≤ x ∧ Int.tdiv x 1000 = x / 1000) ∨ (x < 0 ∧ Int.tdiv x 1000 = -(-x / 1000)) := by
  rcases Int.lt_or_le x 0 with hneg | hpos
  · refine .inr ⟨hneg, ?_⟩
    rw [← Int.tdiv_eq_ediv_of_nonneg (by omega : 0 ≤ -x), Int.neg_tdiv, Int.neg_neg]
  · exact .inl ⟨hpos, Int.tdiv_eq_ediv_of_nonneg hpos⟩

variable (base : Timeval)

/-- A later time has no smaller reading, even where the seconds carry. -/
theorem relativeMsec_mono {v w : Timeval} (h : v.micros ≤ w.micros) :
    relativeMsec base v ≤ relativeMsec base w := by
  have hw := w.usec_lt
  have hdv := tdiv_thousand ((v.usec : ℤ) - base.usec)
  have hdw := tdiv_thousand ((w.usec : ℤ) - base.usec)
  unfold Timeval.micros at h
  unfold relativeMsec
  omega

theorem relativeMsec_self : relativeMsec base base = 0 := by
  simp [relativeMsec]

theorem relativeMsec_lt (now : Timeval) : relativeMsec base now < 2 ^ 45 := by
  have hs := now.sec_lt
  have hu := now.usec_lt
  have hd := tdiv_thousand ((now.usec : ℤ) - base.usec)
  unfold relativeMsec
  omega

/-! ## The timer -/

/-- `swTimer_node`. -/
structure TimerNode where
  heapNode : Ptr
  execMsec : ℤ
  interval : ℕ
  id : ℤ
  remove : Bool
  deriving DecidableEq

instance : Inhabited TimerNode := ⟨0, 0, 0, 0, false⟩

/-- Where `swTimer_select` is: not running, or inside the callback of `tnode`, whose
heap node is `tmp`, with the reading `now` it started from. -/
inductive SelectCall where
  | idle
  | callback (now : ℤ) (tmp tnode : Ptr)
  deriving DecidableEq

/-- `SwooleG.timer` with its nodes, and `timeout_msec` of the main reactor. -/
structure Timer where
  basetime : Timeval
  heap : Heap Ptr
  node : Ptr → TimerNode
  num : ℤ
  nextId : ℤ
  nextMsec : ℤ
  timeoutMsec : ℤ
  call : SelectCall
  clock : Timeval
  lastReading : ℤ

/-- What the allocator answers to a `swTimer_add`. -/
structure AddMemory where
  tnode : Option Ptr
  push : Heap.PushMemory
  deriving DecidableEq

namespace Timer

variable (t : Timer)

/-- `swTimer_get_relative_msec`; it is `SW_ERR` when `gettimeofday` fails. -/
def getRelativeMsec : Option Timeval → ℤ
  | none => -1
  | some now => relativeMsec t.basetime now

/-- The time that an event has seen. -/
def observe (now : Option Timeval) : Timer := { t with clock := now.getD t.clock }

/-- `swReactorTimer_set`; `timeout_msec` is an `int32_t`. -/
def set (execMsec : ℤ) : Timer := { t with timeoutMsec := toInt32 execMsec }

/-- `swTimer_init`, with `swReactorTimer_init`. -/
def init (msec : ℤ) : Option Timeval → Timer
  | none => t
  | some now =>
    { t with
      basetime := now
      heap := .new 1024 .min
      nextId := 1
      nextMsec := msec
      timeoutMsec := toInt32 msec }

/-- `swTimer_add` once the node is allocated and the clock read.  When the heap has no
memory, the node is freed and nothing else undone. -/
def addAt (msec : ℤ) (interval : Bool) (nowMsec : ℤ) (tnode : Ptr) (push : Heap.PushMemory) :
    Timer :=
  let node : TimerNode :=
    { heapNode := 0
      execMsec := nowMsec + msec
      interval := if interval then toUInt32 msec else 0
      id := t.nextId
      remove := false }
  let t' := if msec < t.nextMsec then t.set msec else t
  let t'' := { t' with nextId := t.nextId + 1, num := t.num + 1, lastReading := nowMsec }
  match t.heap.push (toUInt64 node.execMsec) tnode push with
  | (heap, none) => { t'' with heap := heap }
  | (heap, some q) =>
    { t'' with heap := heap, node := update t.node tnode { node with heapNode := q } }

/-- `swTimer_add`. -/
def add (msec : ℤ) (interval : Bool) (now : Option Timeval) (mem : AddMemory) : Timer :=
  match mem.tnode with
  | none => t
  | some tnode =>
    if t.getRelativeMsec now < 0 then t
    else t.addAt msec interval (t.getRelativeMsec now) tnode mem.push

/-- `swTimer_del`. -/
def del (tnode : Ptr) : Timer := { t with heap := t.heap.remove (t.node tnode).heapNode }

/-! ## `swTimer_select` -/

/-- Behind the loop: set the timeout by the last node the loop looked at. -/
def selectEnd (now : ℤ) : Option Ptr → Timer
  | none => { t.set (-1) with call := .idle, lastReading := now }
  | some tnode =>
    { t.set ((t.node tnode).execMsec - now) with call := .idle, lastReading := now }

/-- The head of the loop, up to the next callback or to the end of the select. -/
def selectLoop (now : ℤ) (tnode : Option Ptr) : Timer :=
  match t.heap.top with
  | none => t.selectEnd now tnode
  | some tmp =>
    if now < (t.node (t.heap.data tmp)).execMsec then t.selectEnd now (some (t.heap.data tmp))
    else { t with call := .callback now tmp (t.heap.data tmp) }

/-- `swTimer_select`, up to its first callback. -/
def select (now : Option Timeval) : Timer :=
  if t.getRelativeMsec now < 0 then t else t.selectLoop (t.getRelativeMsec now) none

/-- The next deadline of a tick timer that has just fired; `again` is `_now_msec`. -/
def nextExecMsec (n : TimerNode) (now again : ℤ) : ℤ :=
  if again ≤ 0 then now + n.interval
  else if n.execMsec + n.interval < again then again + n.interval
  else n.execMsec + n.interval

/-- Give a tick timer its next deadline. -/
def reschedule (now again : ℤ) (tmp tnode : Ptr) : Timer :=
  let exec := nextExecMsec (t.node tnode) now again
  { t with
    node := update t.node tnode { t.node tnode with execMsec := exec }
    heap := t.heap.changePriority (toUInt64 exec) tmp }

/-- A tick timer that was not cleared by its own callback goes on. -/
def Continues (tnode : Ptr) : Prop :=
  0 < (t.node tnode).interval ∧ (t.node tnode).remove = false
  deriving Decidable

/-- `swTimer_select`, from the return of a callback to the next one or to its end. -/
def callbackReturned (now : ℤ) (tmp tnode : Ptr) (again : Option Timeval) : Timer :=
  if t.Continues tnode then
    (t.reschedule now (t.getRelativeMsec again) tmp tnode).selectLoop now (some tnode)
  else { t with num := t.num - 1, heap := t.heap.pop.1 }.selectLoop now (some tnode)

/-! ## Runs -/

/-- What happens to the timer: a call of one of its functions, the callback of the
running timer clearing that timer (which only marks it), or returning. -/
inductive Event where
  | init (msec : ℤ) (now : Option Timeval)
  | add (msec : ℤ) (interval : Bool) (now : Option Timeval) (mem : AddMemory)
  | del (tnode : Ptr)
  | select (now : Option Timeval)
  | clear
  | ret (now : Option Timeval)
  deriving DecidableEq

/-- Mark the running timer for removal. -/
def clear : Timer :=
  match t.call with
  | .idle => t
  | .callback _ _ tnode =>
    { t with node := update t.node tnode { t.node tnode with remove := true } }

/-- One event. -/
def step : Event → Timer
  | .init msec now => (t.observe now).init msec now
  | .add msec interval now mem => (t.observe now).add msec interval now mem
  | .del tnode => t.del tnode
  | .select now => (t.observe now).select now
  | .clear => t.clear
  | .ret now =>
    match t.call with
    | .idle => t
    | .callback nowMsec tmp tnode => (t.observe now).callbackReturned nowMsec tmp tnode now

/-- The timer after its first `swTimer_init`. -/
def start (msec : ℤ) (now : Timeval) : Timer where
  basetime := now
  heap := .new 1024 .min
  node := fun _ => default
  num := 0
  nextId := 1
  nextMsec := msec
  timeoutMsec := toInt32 msec
  call := .idle
  clock := now
  lastReading := 0

/-- The timers that wait in the heap. -/
def pending : List Ptr := t.heap.stored.map t.heap.data

/-- `gettimeofday` does not run backwards. -/
def OnTime (now : Option Timeval) : Prop := ∀ v ∈ now, t.clock.micros ≤ v.micros
  deriving Decidable

/-- **How the timer is used.**  The clock does not run backwards; an interval is an
`int`; the allocator does not hand out what is in use; `swTimer_del` is called for a
pending timer, not for the one whose callback is running; and a select is neither
restarted nor is the timer set up again while it runs. -/
def Lawful : Event → Prop
  | .init _ now => t.call = .idle ∧ t.OnTime now
  | .add msec _ now mem =>
    t.OnTime now ∧ -2 ^ 31 ≤ msec ∧ msec < 2 ^ 31 ∧
      (∀ p ∈ mem.tnode.toList, p ∉ t.pending) ∧
      ∀ q ∈ mem.push.node.toList, q ∉ t.heap.stored
  | .del tnode =>
    tnode ∈ t.pending ∧
      match t.call with
      | .idle => True
      | .callback _ _ running => tnode ≠ running
  | .select now => t.call = .idle ∧ t.OnTime now
  | .clear => True
  | .ret now => t.OnTime now

instance : ∀ e, Decidable (t.Lawful e)
  | .init _ _ | .select _ => inferInstanceAs (Decidable (_ ∧ _))
  | .add _ _ _ _ => inferInstanceAs (Decidable (_ ∧ _ ∧ _ ∧ (∀ _ ∈ _, _) ∧ ∀ _ ∈ _, _))
  | .del tnode =>
    @instDecidableAnd _ _ (inferInstanceAs (Decidable (tnode ∈ t.pending)))
      (match t.call with
      | .idle => .isTrue trivial
      | .callback _ _ running => inferInstanceAs (Decidable (tnode ≠ running)))
  | .clear => .isTrue trivial
  | .ret now => inferInstanceAs (Decidable (t.OnTime now))

end Timer

end Swoole
