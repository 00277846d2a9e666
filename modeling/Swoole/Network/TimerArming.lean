import Swoole.Network.Timer

/-!
# The reactor never sleeps past a deadline

Between two calls the event loop sleeps for `timeout_msec`, and `-1` means for ever.
So as long as a timer is pending, the timeout has to be non-negative and must not
reach beyond the earliest deadline, counted from the clock reading of the call that
left it: this is `Armed`.

`swTimer_select` sets the timeout from the top of the heap and always leaves it that
way.  `swTimer_add` does not look at the heap: it writes its own interval if that is
below `_next_msec` and otherwise nothing, and `_next_msec` never changes after
`swTimer_init`.  `InTime` is what an add needs for that to be right, and what the
32 bits of `timeout_msec` need of a callback; it looks at the state before the event
only.

* `Base` — the heap holds the pending timers by deadline, and every deadline is less
  than `2^31` milliseconds ahead of the clock;
* `Running` — inside a callback the running timer is on top of the heap and due, and
  no deadline is `2^31` milliseconds after the start of the select;
* `inv_step` — every lawful event that is in time keeps the invariant;
* `armed_run` — so every run of such events is armed whenever no select is running.
-/

namespace Swoole.Timer

open TimerNode (execMsec heapNode)
open Function (update update_of_ne update_self)

/-! ## The property -/

/-- Every pending timer lets the reactor sleep as long as it is going to. -/
def Armed (t : Timer) : Prop :=
  ∀ p ∈ t.pending,
    0 ≤ t.timeoutMsec ∧ t.timeoutMsec ≤ (t.node p).execMsec - t.lastReading
  deriving Decidable

/-- An add from outside a callback: the timeout that it leaves, its own interval or
the old one, must suit its own timer and all the others. -/
def AddInTime (t : Timer) (msec reading : ℤ) : Prop :=
  if msec < t.nextMsec then 0 ≤ msec ∧ ∀ p ∈ t.pending, reading + msec ≤ (t.node p).execMsec
  else
    0 ≤ t.timeoutMsec ∧ t.timeoutMsec ≤ msec ∧
      ∀ p ∈ t.pending, reading + t.timeoutMsec ≤ (t.node p).execMsec
  deriving Decidable

/-- **The condition on an event.**  An add that succeeds is in time; during a select
no deadline is set `2^31` milliseconds or more after its start. -/
def InTime (t : Timer) : Event → Prop
  | .add msec _ now mem =>
    mem.tnode.isSome → 0 ≤ t.getRelativeMsec now →
      match t.call with
      | .idle => t.AddInTime msec (t.getRelativeMsec now)
      | .callback start _ _ => 0 ≤ msec ∧ t.getRelativeMsec now + msec < start + 2 ^ 31
  | .ret now =>
    match t.call with
    | .idle => True
    | .callback start _ tnode =>
      t.Continues tnode → t.getRelativeMsec now + (t.node tnode).interval < start + 2 ^ 31
  | .init _ _ | .del _ | .select _ | .clear => True

instance (t : Timer) (e : Event) : Decidable (t.InTime e) := by
  unfold InTime
  repeat' split
  all_goals infer_instance

/-! ## The invariant -/

/-- The timer that a heap node stands for. -/
def timerOf (t : Timer) (q : Ptr) : TimerNode := t.node (t.heap.data q)

/-- Its deadline. -/
def deadline (t : Timer) (q : Ptr) : ℤ := (t.node (t.heap.data q)).execMsec

/-- The latest reading of the clock. -/
def reading (t : Timer) : ℤ := relativeMsec t.basetime t.clock

/-- What is known of a heap node `q` and its timer: they point to each other, the
priority is the deadline, and neither deadline nor interval is out of range. -/
structure Entry (t : Timer) (q : Ptr) : Prop where
  linked : (t.node (t.heap.data q)).heapNode = q
  priority : t.heap.priority q = toUInt64 (t.deadline q)
  nonneg : 0 ≤ t.deadline q
  interval : (t.node (t.heap.data q)).interval < 2 ^ 31
  horizon : t.deadline q < t.reading + 2 ^ 31

/-- The heap holds the pending timers, in the order of their deadlines. -/
structure Base (t : Timer) : Prop where
  valid : t.heap.Valid
  min : t.heap.type = .min
  entry : ∀ q ∈ t.heap.stored, t.Entry q
  started : t.basetime.micros ≤ t.clock.micros

/-- Inside the callback of `tnode`: its heap node is on top, and it is due. -/
structure OnTop (t : Timer) (now : ℤ) (tmp tnode : Ptr) : Prop where
  nonneg : 0 ≤ now
  past : now ≤ t.reading
  top : t.heap.top = some tmp
  data : t.heap.data tmp = tnode
  due : (t.node tnode).execMsec ≤ now

/-- A select that started at the reading `now` can express every deadline. -/
structure Within (t : Timer) (now : ℤ) : Prop where
  nonneg : 0 ≤ now
  past : now ≤ t.reading
  near : ∀ q ∈ t.heap.stored, t.deadline q < now + 2 ^ 31

/-- Inside the callback of `tnode`, in a select that can express every deadline. -/
structure Running (t : Timer) (now : ℤ) (tmp tnode : Ptr) : Prop extends Within t now where
  top : t.heap.top = some tmp
  data : t.heap.data tmp = tnode
  due : (t.node tnode).execMsec ≤ now

structure Inv (t : Timer) : Prop where
  base : t.Base
  idle : t.call = .idle → t.Armed
  callback : ∀ now tmp tnode, t.call = .callback now tmp tnode → t.Running now tmp tnode

section Base

variable {t t' : Timer} {q : Ptr}

theorem mem_pending {p : Ptr} : p ∈ t.pending ↔ ∃ q ∈ t.heap.stored, t.heap.data q = p :=
  List.mem_map

/-- An entry does not change with the rest of the timer or with a mark, and the clock only helps. -/
theorem Entry.congr (h : t.Entry q) {mark : Bool}
    (htimer : t'.timerOf q = { t.timerOf q with remove := mark })
    (hpriority : t'.heap.priority q = t.heap.priority q) (hreading : t.reading ≤ t'.reading) :
    t'.Entry q where
  linked := (congrArg heapNode htimer).trans h.linked
  priority := by
    rw [hpriority, h.priority]
    exact congrArg (fun n => toUInt64 n.execMsec) htimer.symm
  nonneg := h.nonneg.trans (congrArg execMsec htimer).ge
  interval := (congrArg TimerNode.interval htimer).trans_lt h.interval
  horizon := (congrArg execMsec htimer).trans_lt
    (h.horizon.trans_le (Int.add_le_add_right hreading _))

theorem reading_congr (hbase : t'.basetime = t.basetime) (hclock : t'.clock = t.clock) :
    t'.reading = t.reading := by
  rw [reading, reading, hbase, hclock]

variable (hb : t.Base)
include hb

theorem Base.reading_nonneg : 0 ≤ t.reading := by
  have := relativeMsec_mono t.basetime hb.started
  rw [relativeMsec_self] at this
  exact this

theorem Base.rank_eq (hq : q ∈ t.heap.stored) : t.heap.rank q = t.deadline q := by
  have he := hb.entry q hq
  have hlt : t.reading < 2 ^ 45 := relativeMsec_lt t.basetime t.clock
  have hhorizon := he.horizon
  rw [Heap.rank, hb.min, Heap.rankOf, he.priority]
  exact toUInt64_of_nonneg he.nonneg (by omega)

variable {tmp : Ptr}

theorem Base.top_le (htop : t.heap.top = some tmp) :
    tmp ∈ t.heap.stored ∧ ∀ q ∈ t.heap.stored, t.deadline tmp ≤ t.deadline q := by
  obtain ⟨hmem, -, -, hmin⟩ := hb.valid.top_spec htop
  refine ⟨hmem, fun q hq => ?_⟩
  rw [← hb.rank_eq hmem, ← hb.rank_eq hq]
  exact hmin q hq

theorem Base.data_ne {r : Ptr} (hq : q ∈ t.heap.stored) (hr : r ∈ t.heap.stored)
    (hne : q ≠ r) : t.heap.data q ≠ t.heap.data r := by
  intro heq
  have hlink := (hb.entry q hq).linked
  rw [heq, (hb.entry r hr).linked] at hlink
  exact hne hlink.symm

theorem Base.shrink (hvalid : t'.heap.Valid) (htype : t'.heap.type = t.heap.type)
    (hdata : t'.heap.data = t.heap.data) (hpriority : t'.heap.priority = t.heap.priority)
    (hsub : ∀ q ∈ t'.heap.stored, q ∈ t.heap.stored) (hnode : t'.node = t.node)
    (hbase : t'.basetime = t.basetime) (hclock : t'.clock = t.clock) : t'.Base where
  valid := hvalid
  min := htype.trans hb.min
  entry := by
    intro q hq
    have htimer : t'.timerOf q = t.timerOf q := by rw [timerOf, timerOf, hdata, hnode]
    exact (hb.entry q (hsub q hq)).congr htimer (by rw [hpriority]) (reading_congr hbase hclock).ge
  started := by rw [hbase, hclock]; exact hb.started

theorem Base.congr (hheap : t'.heap = t.heap) (hnode : t'.node = t.node)
    (hbase : t'.basetime = t.basetime) (hclock : t'.clock = t.clock) : t'.Base :=
  hb.shrink (by rw [hheap]; exact hb.valid) (by rw [hheap]) (by rw [hheap]) (by rw [hheap])
    (by rw [hheap]; exact fun _ hq => hq) hnode hbase hclock

variable {now : ℤ} {tnode : Ptr}

omit hb

variable (hrun : t.OnTop now tmp tnode)
include hrun

theorem OnTop.mem (hb : t.Base) : tmp ∈ t.heap.stored :=
  (hb.valid.top_spec hrun.top).1

theorem OnTop.timerOf_eq : t.timerOf tmp = t.node tnode := by
  rw [timerOf, hrun.data]

theorem OnTop.running
    (hnear : ∀ q ∈ t.heap.stored, t.deadline q < now + 2 ^ 31) : t.Running now tmp tnode :=
  ⟨⟨hrun.nonneg, hrun.past, hnear⟩, hrun.top, hrun.data, hrun.due⟩

omit hrun

theorem Running.onTop (hrun : t.Running now tmp tnode) : t.OnTop now tmp tnode :=
  ⟨hrun.nonneg, hrun.past, hrun.top, hrun.data, hrun.due⟩

end Base

/-! ## The clock -/

section Observe

variable {t : Timer} {now : Option Timeval}

theorem reading_le_observe (hon : t.OnTime now) : t.reading ≤ (t.observe now).reading := by
  cases now with
  | none => exact le_rfl
  | some v => exact relativeMsec_mono t.basetime (hon v rfl)

theorem Base.observe (hb : t.Base) (hon : t.OnTime now) : (t.observe now).Base where
  valid := hb.valid
  min := hb.min
  entry := fun q hq => (hb.entry q hq).congr rfl rfl (reading_le_observe hon)
  started := by
    cases now with
    | none => exact hb.started
    | some v => exact hb.started.trans (hon v rfl)

theorem OnTop.observe {start : ℤ} {tmp tnode : Ptr} (hrun : t.OnTop start tmp tnode)
    (hon : t.OnTime now) : (t.observe now).OnTop start tmp tnode :=
  ⟨hrun.nonneg, hrun.past.trans (reading_le_observe hon), hrun.top, hrun.data, hrun.due⟩

theorem Inv.observe (h : t.Inv) (hon : t.OnTime now) : (t.observe now).Inv where
  base := h.base.observe hon
  idle := h.idle
  callback := fun start tmp tnode hcall =>
    let hrun := h.callback start tmp tnode hcall
    (hrun.onTop.observe hon).running hrun.near

theorem getRelativeMsec_observe (h : 0 ≤ t.getRelativeMsec now) :
    (t.observe now).getRelativeMsec now = (t.observe now).reading := by
  cases now with
  | none => exact absurd h (by simp [getRelativeMsec])
  | some v => rfl

end Observe

/-! ## The select loop -/

section Select

variable {t : Timer} {now : ℤ}

/-- What the head of the loop does: it goes into the callback of the timer on top if that is due,
and otherwise it ends the select. -/
theorem selectLoop_cases (t : Timer) (now : ℤ) (tnode : Option Ptr) :
    (∃ tmp, t.heap.top = some tmp ∧ t.deadline tmp ≤ now ∧
        t.selectLoop now tnode = { t with call := .callback now tmp (t.heap.data tmp) }) ∨
      ∃ timeout,
        t.selectLoop now tnode =
            { t with timeoutMsec := timeout, call := .idle, lastReading := now } ∧
          ∀ tmp, t.heap.top = some tmp →
            now < t.deadline tmp ∧ timeout = toInt32 (t.deadline tmp - now) := by
  unfold selectLoop
  cases htop : t.heap.top with
  | none => cases tnode <;> exact .inr ⟨_, rfl, nofun⟩
  | some tmp =>
    simp only
    split_ifs with hlate
    · exact .inr ⟨_, rfl, by rintro _ ⟨⟩; exact ⟨hlate, rfl⟩⟩
    · exact .inl ⟨tmp, rfl, not_lt.mp hlate, rfl⟩

/-- From the head of its loop a select goes into the callback of a timer that is due,
or it ends and leaves the timeout right. -/
theorem inv_selectLoop (hb : t.Base) (hw : t.Within now) (tnode : Option Ptr) :
    (t.selectLoop now tnode).Inv := by
  rcases t.selectLoop_cases now tnode with ⟨tmp, htop, hdue, heq⟩ | ⟨timeout, heq, hlate⟩ <;>
    rw [heq]
  · refine ⟨hb.congr rfl rfl rfl rfl, nofun, ?_⟩
    rintro _ _ _ ⟨⟩
    exact ⟨⟨hw.nonneg, hw.past, hw.near⟩, htop, rfl, hdue⟩
  · refine ⟨hb.congr rfl rfl rfl rfl, fun _ p hp => ?_, nofun⟩
    obtain ⟨q, hq, rfl⟩ := mem_pending.mp (show p ∈ t.pending from hp)
    cases htop : t.heap.top with
    | none =>
      rw [Heap.stored_eq_nil_of_top_eq_none htop] at hq
      cases hq
    | some tmp =>
      obtain ⟨hlt, rfl⟩ := hlate tmp htop
      obtain ⟨hmem, hmin⟩ := hb.top_le htop
      have hnear := hw.near tmp hmem
      have hle := hmin q hq
      show 0 ≤ toInt32 _ ∧ toInt32 _ ≤ t.deadline q - now
      rw [toInt32_of_lt (by omega) (by omega)]
      omega

theorem Inv.select (h : t.Inv) {now : Option Timeval}
    (hon : t.OnTime now) : ((t.observe now).select now).Inv := by
  unfold Timer.select
  split
  · exact h.observe hon
  · next hread =>
    have hb := h.base.observe hon
    have heq := getRelativeMsec_observe (t := t) (not_lt.mp hread)
    refine inv_selectLoop hb ⟨not_lt.mp hread, heq.le, fun q hq => ?_⟩ none
    rw [heq]
    exact (hb.entry q hq).horizon

/-- The timer on top leaves. -/
def popTop (t : Timer) : Timer := { t with num := t.num - 1, heap := t.heap.pop.1 }

variable {again now : ℤ}

/-- The next deadline of a tick timer is neither negative nor out of reach. -/
theorem nextExecMsec_bounds {n : TimerNode} (hexec : 0 ≤ n.execMsec) (hdue : n.execMsec ≤ now)
    (hinterval : n.interval < 2 ^ 31) (hagain : again + n.interval < now + 2 ^ 31) :
    0 ≤ nextExecMsec n now again ∧ nextExecMsec n now again < now + 2 ^ 31 := by
  unfold nextExecMsec
  split_ifs <;> omega

variable (hb : t.Base)
include hb

theorem Base.pop (htop : t.heap.top = some tmp) : t.popTop.Base := by
  obtain ⟨hvalid, hstored⟩ := Heap.pop_valid hb.valid htop
  obtain ⟨hdata, htype, hpriority⟩ := t.heap.pop_frame
  exact hb.shrink hvalid htype hdata hpriority (fun q hq => ((hstored q).mp hq).1) rfl rfl rfl

/-- A tick timer goes to its next deadline, and the others are not touched. -/
theorem timerOf_reschedule (hmem : tmp ∈ t.heap.stored) (now again : ℤ) {q : Ptr}
    (hq : q ∈ t.heap.stored) : (t.reschedule now again tmp (t.heap.data tmp)).timerOf q =
      if q = tmp then { t.timerOf tmp with execMsec := nextExecMsec (t.timerOf tmp) now again }
      else t.timerOf q := by
  have hdata : (t.reschedule now again tmp (t.heap.data tmp)).heap.data = t.heap.data :=
    (Heap.changePriority_frame _ _ _).1
  rw [timerOf, hdata]
  split_ifs with hne
  · rw [hne]
    exact update_self _ _ _
  · exact update_of_ne (hb.data_ne hq hmem hne) _ _

theorem Base.reschedule (hmem : tmp ∈ t.heap.stored)
    (hpos : 0 ≤ nextExecMsec (t.node (t.heap.data tmp)) now again)
    (hlt : nextExecMsec (t.node (t.heap.data tmp)) now again < t.reading + 2 ^ 31) :
    (t.reschedule now again tmp (t.heap.data tmp)).Base := by
  have htmp := hb.entry tmp hmem
  obtain ⟨hvalid, hstored⟩ := Heap.changePriority_valid hb.valid
    (toUInt64 (nextExecMsec (t.node (t.heap.data tmp)) now again)) hmem
  refine ⟨hvalid, (Heap.changePriority_frame _ _ _).2.1.trans hb.min, fun q hq => ?_, hb.started⟩
  have hq' := (hstored q).mp hq
  have htimer := timerOf_reschedule hb hmem now again hq'
  have hprio : (t.reschedule now again tmp (t.heap.data tmp)).heap.priority =
      update t.heap.priority tmp
        (toUInt64 (nextExecMsec (t.node (t.heap.data tmp)) now again)) :=
    (Heap.changePriority_frame _ _ _).2.2.2
  by_cases hne : q = tmp
  · subst hne
    rw [if_pos rfl] at htimer
    have hnew : (t.reschedule now again q (t.heap.data q)).deadline q =
        nextExecMsec (t.node (t.heap.data q)) now again := congrArg execMsec htimer
    refine ⟨(congrArg heapNode htimer).trans htmp.linked, ?_, hpos.trans hnew.ge,
      (congrArg TimerNode.interval htimer).trans_lt htmp.interval, hnew.trans_lt hlt⟩
    rw [hnew, hprio, update_self]
  · rw [if_neg hne] at htimer
    exact (hb.entry q hq').congr htimer (by rw [hprio, update_of_ne hne]) le_rfl

variable {tnode : Ptr} (hrun : t.Running now tmp tnode)
include hrun

/-- The callback of an after timer, or of a tick timer it has cleared, returns: the
running timer is still the one on top, and leaves. -/
theorem Running.pop : t.popTop.Within now := by
  refine ⟨hrun.nonneg, hrun.past, fun q hq => ?_⟩
  rw [deadline, popTop, (Heap.pop_frame _).1]
  exact hrun.near q (((Heap.pop_valid hb.valid hrun.top).2 q).mp hq).1

/-- The callback of a tick timer returns: the timer goes to its next deadline, which the select
can express. -/
theorem Running.reschedule (hagain : again + (t.node tnode).interval < now + 2 ^ 31) :
    (t.reschedule now again tmp tnode).Base ∧ (t.reschedule now again tmp tnode).Within now := by
  obtain ⟨hmem, -⟩ := hb.top_le hrun.top
  obtain rfl : t.heap.data tmp = tnode := hrun.data
  have htmp := hb.entry tmp hmem
  have hpast := hrun.past
  obtain ⟨hpos, hlt⟩ := nextExecMsec_bounds htmp.nonneg hrun.due htmp.interval hagain
  obtain ⟨-, hstored⟩ := Heap.changePriority_valid hb.valid
    (toUInt64 (nextExecMsec (t.node (t.heap.data tmp)) now again)) hmem
  refine ⟨hb.reschedule hmem hpos (by omega), hrun.nonneg, hrun.past, fun q hq => ?_⟩
  have hq' := (hstored q).mp hq
  have hnear := hrun.near q hq'
  show ((t.reschedule now again tmp (t.heap.data tmp)).timerOf q).execMsec < _
  rw [timerOf_reschedule hb hmem now again hq']
  split_ifs
  · exact hlt
  · exact hnear

theorem Running.callbackReturned (again : Option Timeval) (hagain : t.Continues tnode →
      t.getRelativeMsec again + (t.node tnode).interval < now + 2 ^ 31) :
    (t.callbackReturned now tmp tnode again).Inv := by
  unfold Timer.callbackReturned
  split
  · next hcont =>
    obtain ⟨hb', hw'⟩ := hrun.reschedule hb (hagain hcont)
    exact inv_selectLoop hb' hw' (some tnode)
  · exact inv_selectLoop (hb.pop hrun.top) (hrun.pop hb) (some tnode)

end Select

/-! ## Adding and deleting -/

section AddDel

variable {t : Timer} {msec : ℤ} {interval : Bool} {now : ℤ} {tnode : Ptr} {push : Heap.PushMemory}

/-- The timer that an add makes, with the heap node it gets. -/
def newTimer (t : Timer) (msec : ℤ) (interval : Bool) (now : ℤ) (q : Ptr) : TimerNode where
  heapNode := q
  execMsec := now + msec
  interval := if interval then toUInt32 msec else 0
  id := t.nextId
  remove := false

/-- What an add does besides the push. -/
def announce (t : Timer) (msec now : ℤ) : Timer :=
  { t with
    timeoutMsec := if msec < t.nextMsec then toInt32 msec else t.timeoutMsec
    nextId := t.nextId + 1
    num := t.num + 1
    lastReading := now }

section

variable (t msec interval now tnode push)

theorem addAt_cases :
    (∃ size, t.addAt msec interval now tnode push =
        { t.announce msec now with heap := { t.heap with size := size } }) ∨
      ∃ size q, push.node = some q ∧ t.addAt msec interval now tnode push =
        { t.announce msec now with
          heap := ({ t.heap with size := size } : Heap Ptr).pushNode (toUInt64 (now + msec)) tnode q
          node := update t.node tnode (t.newTimer msec interval now q) } := by
  have hset : (if msec < t.nextMsec then t.set msec else t) =
      { t with timeoutMsec := if msec < t.nextMsec then toInt32 msec else t.timeoutMsec } := by
    split_ifs <;> rfl
  simp only [addAt, hset]
  rcases t.heap.push_cases (toUInt64 (now + msec)) tnode push with
    ⟨size, heq⟩ | ⟨size, q, hq, heq⟩ <;> rw [heq]
  · exact .inl ⟨size, rfl⟩
  · exact .inr ⟨size, q, hq, rfl⟩

theorem addAt_frame :
    let t' := t.addAt msec interval now tnode push
    t'.basetime = t.basetime ∧ t'.clock = t.clock ∧ t'.call = t.call ∧ t'.nextId = t.nextId + 1 ∧
      t'.heap.type = t.heap.type ∧ t'.lastReading = now ∧
      t'.timeoutMsec = if msec < t.nextMsec then toInt32 msec else t.timeoutMsec := by
  intro t'
  rcases t.addAt_cases msec interval now tnode push with ⟨size, heq⟩ | ⟨size, q, -, heq⟩ <;>
    rw [show t' = _ from heq]
  · exact ⟨rfl, rfl, rfl, rfl, rfl, rfl, rfl⟩
  · exact ⟨rfl, rfl, rfl, rfl, (Heap.pushNode_frame _ _ _ _).2.1, rfl, rfl⟩

end

/-- The blocks that `malloc` gives for a timer are not in use. -/
structure Unused (t : Timer) (tnode : Ptr) (push : Heap.PushMemory) : Prop where
  tnode : tnode ∉ t.pending
  node : ∀ q ∈ push.node, q ∉ t.heap.stored

/-- What `swTimer_add` can do besides reading the clock: nothing, or the add. -/
theorem add_cases {now : Option Timeval} {mem : AddMemory}
    (hlaw : t.Lawful (.add msec interval now mem)) :
    (t.observe now).add msec interval now mem = t.observe now ∨
      ∃ tnode, mem.tnode.isSome ∧ 0 ≤ t.getRelativeMsec now ∧
        (t.observe now).Unused tnode mem.push ∧ (t.observe now).add msec interval now mem =
          (t.observe now).addAt msec interval (t.observe now).reading tnode mem.push := by
  obtain ⟨-, -, -, hfresh, hnode⟩ := hlaw
  unfold Timer.add
  split
  · exact .inl rfl
  next tnode htnode =>
  split
  · exact .inl rfl
  next hread =>
  refine .inr ⟨tnode, by rw [htnode]; rfl, not_lt.mp hread,
    ⟨hfresh tnode (by simp [htnode]), fun q hq => hnode q (by simpa using hq)⟩, ?_⟩
  rw [getRelativeMsec_observe (t := t) (not_lt.mp hread)]

/-- After an add every heap node is an old one with its old timer, or the new one. -/
theorem addAt_stored (hvalid : t.heap.Valid) (msec : ℤ) (interval : Bool) (now : ℤ)
    (hfree : t.Unused tnode push) :
    let t' := t.addAt msec interval now tnode push
    t'.heap.Valid ∧ ∀ q ∈ t'.heap.stored,
      (q ∈ t.heap.stored ∧ t'.timerOf q = t.timerOf q ∧
          t'.heap.priority q = t.heap.priority q) ∨
        (t'.heap.priority q = toUInt64 (now + msec) ∧
          t'.timerOf q = t.newTimer msec interval now q) := by
  intro t'
  rcases t.addAt_cases msec interval now tnode push with ⟨size, heq⟩ | ⟨size, q, hq, heq⟩ <;>
    rw [show t' = _ from heq]
  · exact ⟨hvalid.of_size size, fun r hr => .inl ⟨hr, rfl, rfl⟩⟩
  · obtain ⟨hvalid', hstored⟩ := Heap.pushNode_valid (hvalid.of_size size)
      (toUInt64 (now + msec)) tnode (hfree.node q hq)
    refine ⟨hvalid', fun r hr => ?_⟩
    by_cases hrq : r = q
    · exact .inr ⟨by simp [hrq], by simp [timerOf, hrq]⟩
    · have hold : r ∈ t.heap.stored := ((hstored r).mp hr).resolve_left hrq
      have hne : t.heap.data r ≠ tnode := fun heq => hfree.tnode (mem_pending.mpr ⟨r, hold, heq⟩)
      exact .inl ⟨hold, by simp [timerOf, hrq, hne], by simp [hrq]⟩

theorem Base.addAt (hb : t.Base) (hfree : t.Unused tnode push) (hpos : 0 ≤ msec)
    (hlt : msec < 2 ^ 31) : (t.addAt msec interval t.reading tnode push).Base := by
  obtain ⟨hvalid, hstored⟩ := addAt_stored hb.valid msec interval t.reading hfree
  obtain ⟨hbase, hclock, -, -, htype, -⟩ := t.addAt_frame msec interval t.reading tnode push
  have hreading := reading_congr hbase hclock
  have hnonneg := hb.reading_nonneg
  refine ⟨hvalid, htype.trans hb.min, fun q hq => ?_, by rw [hbase, hclock]; exact hb.started⟩
  · rcases hstored q hq with ⟨hold, htimer, hprio⟩ | ⟨hprio, hnew⟩
    · exact (hb.entry q hold).congr htimer hprio hreading.ge
    · have hdeadline : (t.addAt msec interval t.reading tnode push).deadline q = t.reading + msec :=
        congrArg execMsec hnew
      have hinterval : (if interval then toUInt32 msec else 0) < 2 ^ 31 := by
        have := toUInt32_of_nonneg hpos (by omega)
        split <;> omega
      exact ⟨congrArg heapNode hnew, by rw [hprio, hdeadline], by omega,
        (congrArg TimerNode.interval hnew).trans_lt hinterval, by omega⟩

theorem AddInTime.nonneg (hin : t.AddInTime msec now) : 0 ≤ msec := by
  unfold AddInTime at hin
  split_ifs at hin with hset
  · exact hin.1
  · exact hin.1.trans hin.2.1

/-- **An add outside of callbacks** that is in time leaves the timeout right. -/
theorem armed_addAt (hb : t.Base) (hfree : t.Unused tnode push) (hlt : msec < 2 ^ 31)
    (hin : t.AddInTime msec now) : (t.addAt msec interval now tnode push).Armed := by
  obtain ⟨-, -, -, -, -, hlast, htimeout⟩ := t.addAt_frame msec interval now tnode push
  intro p hp
  obtain ⟨q, hq, rfl⟩ := mem_pending.mp hp
  show _ ∧ _ ≤ ((t.addAt msec interval now tnode push).timerOf q).execMsec - _
  rw [hlast, htimeout]
  unfold AddInTime at hin
  rcases (addAt_stored hb.valid msec interval now hfree).2 q hq with
    ⟨hold, htimer, -⟩ | ⟨-, hnew⟩
  · have hmem := mem_pending.mpr ⟨q, hold, rfl⟩
    rw [htimer]
    split_ifs at hin ⊢ with hset
    · have hle := hin.2 _ hmem
      rw [toInt32_of_lt (by omega) hlt, timerOf]
      omega
    · have hle := hin.2.2 _ hmem
      rw [timerOf]
      omega
  · rw [hnew]
    show _ ∧ _ ≤ now + msec - now
    split_ifs at hin ⊢ with hset
    · rw [toInt32_of_lt (by omega) hlt]
      omega
    · omega

/-- A node on top of the heap stays there if the timer that is added is not due before it. -/
theorem Base.top_addAt (hb : t.Base) (htop : t.heap.top = some tmp) (msec : ℤ) (interval : Bool)
    (now : ℤ) (hfree : t.Unused tnode push) (hle : t.deadline tmp ≤ now + msec)
    (hlt : now + msec < 2 ^ 63) :
    let t' := t.addAt msec interval now tnode push
    t'.heap.top = some tmp ∧ t'.heap.data tmp = t.heap.data tmp ∧
      t'.node (t.heap.data tmp) = t.node (t.heap.data tmp) := by
  intro t'
  obtain ⟨hmem, hroot, hnum, -⟩ := hb.valid.top_spec htop
  have hne : t.heap.data tmp ≠ tnode := fun heq => hfree.tnode (mem_pending.mpr ⟨tmp, hmem, heq⟩)
  rcases t.addAt_cases msec interval now tnode push with ⟨size, heq⟩ | ⟨size, q, hq, heq⟩ <;>
    rw [show t' = _ from heq]
  · exact ⟨htop, rfl, rfl⟩
  · have htmp : tmp ≠ q := fun heq => hfree.node q hq (heq ▸ hmem)
    have hrank : t.heap.rank (t.heap.nodes 1) ≤
        Heap.rankOf t.heap.type (toUInt64 (now + msec)) := by
      have hpos := (hb.entry tmp hmem).nonneg
      have hval := toUInt64_of_nonneg (x := now + msec) (by omega) (by omega)
      rw [hroot, hb.rank_eq hmem, hb.min, Heap.rankOf, hval]
      exact hle
    have hpush := Heap.pushNode_root (h := { t.heap with size := size }) hnum
      (toUInt64 (now + msec)) tnode (hroot ▸ htmp) hrank
    refine ⟨?_, by simp [htmp], update_of_ne hne _ _⟩
    rw [Heap.top, (Heap.pushNode_frame _ _ _ _).2.2.1, if_neg (by show t.heap.num + 1 ≠ 1; omega),
      hpush]
    exact congrArg some hroot

variable {q : Ptr}

theorem Base.top_remove (hb : t.Base) (htop : t.heap.top = some tmp)
    (hq : q ∈ t.heap.stored) (hne : q ≠ tmp) : (t.heap.remove q).top = some tmp := by
  obtain ⟨-, hroot, hnum, -⟩ := hb.valid.top_spec htop
  obtain ⟨i, hi, hin, hat⟩ := Heap.mem_stored.mp hq
  have hi1 : i ≠ 1 := fun heq => hne (by rw [← hat, heq, hroot])
  rw [Heap.top, (Heap.remove_frame _ _).2.2.1, if_neg (by omega),
    Heap.remove_root hb.valid hq (by rwa [hroot]), hroot]

variable {running : Ptr}

/-- **An add inside a callback** leaves the running timer on top of the heap. -/
theorem OnTop.addAt {start : ℤ} (hrun : t.OnTop start tmp running) (hb : t.Base)
    (hfree : t.Unused tnode push) (hpos : 0 ≤ msec) (hlt : msec < 2 ^ 31) :
    (t.addAt msec interval t.reading tnode push).OnTop start tmp running := by
  obtain ⟨hbase, hclock, -⟩ := t.addAt_frame msec interval t.reading tnode push
  obtain rfl : t.heap.data tmp = running := hrun.data
  have hpast := hrun.past
  have hdue : t.deadline tmp ≤ start := hrun.due
  have hbound : t.reading < 2 ^ 45 := relativeMsec_lt t.basetime t.clock
  obtain ⟨htop, hdata, hsame⟩ :=
    hb.top_addAt hrun.top msec interval t.reading hfree (by omega) (by omega)
  exact ⟨hrun.nonneg, (reading_congr hbase hclock).symm ▸ hpast, htop,
    hdata, by rw [hsame]; exact hrun.due⟩

theorem Inv.add (h : t.Inv) {now : Option Timeval} {mem : AddMemory}
    (hlaw : t.Lawful (.add msec interval now mem)) (hin : t.InTime (.add msec interval now mem)) :
    ((t.observe now).add msec interval now mem).Inv := by
  have hobs := h.observe hlaw.1
  have hlt := hlaw.2.2.1
  rcases add_cases hlaw with heq | ⟨tnode, hsome, hread, hfree, heq⟩ <;> rw [heq]
  · exact hobs
  have hin' := hin hsome hread
  rw [show t.getRelativeMsec now = _ from getRelativeMsec_observe hread] at hin'
  obtain ⟨-, -, hcall, -⟩ := (t.observe now).addAt_frame msec interval
    (t.observe now).reading tnode mem.push
  cases hmode : t.call with
  | idle =>
    rw [hmode] at hin'
    refine ⟨hobs.base.addAt hfree (AddInTime.nonneg hin') hlt,
      fun _ => armed_addAt hobs.base hfree hlt hin', ?_⟩
    intro start tmp running hrun
    rw [hcall] at hrun
    exact absurd (hrun.symm.trans hmode) nofun
  | callback start tmp running =>
    rw [hmode] at hin'
    refine ⟨hobs.base.addAt hfree hin'.1 hlt, ?_, ?_⟩
    · intro hidle
      rw [hcall] at hidle
      exact absurd (hidle.symm.trans hmode) nofun
    · intro start' tmp' running' hrun
      rw [hcall] at hrun
      obtain ⟨rfl, rfl, rfl⟩ : start = start' ∧ tmp = tmp' ∧ running = running' := by
        simpa using hmode.symm.trans hrun
      have hold := hobs.callback start tmp running hmode
      refine (hold.onTop.addAt hobs.base hfree hin'.1 hlt).running fun q hq => ?_
      rcases (addAt_stored hobs.base.valid msec interval _ hfree).2 q hq with
        ⟨hq', htimer, -⟩ | ⟨-, hnew⟩
      · exact (congrArg execMsec htimer).trans_lt (hold.near q hq')
      · exact (congrArg execMsec hnew).trans_lt hin'.2

theorem Base.del (hb : t.Base) (hq : q ∈ t.heap.stored) :
    (t.del (t.heap.data q)).Base ∧
      ∀ r, r ∈ (t.del (t.heap.data q)).heap.stored ↔ r ∈ t.heap.stored ∧ r ≠ q := by
  obtain ⟨hvalid, hstored⟩ := Heap.remove_valid hb.valid hq
  unfold Timer.del
  rw [(hb.entry q hq).linked]
  obtain ⟨hdata, htype, -, hpriority⟩ := t.heap.remove_frame q
  exact ⟨hb.shrink hvalid htype hdata hpriority (fun r hr => ((hstored r).mp hr).1) rfl rfl rfl,
    hstored⟩

theorem del_data (t : Timer) (tnode : Ptr) : (t.del tnode).heap.data = t.heap.data :=
  (Heap.remove_frame _ _).1

theorem OnTop.del (hrun : t.OnTop now tmp running) (hb : t.Base) (hq : q ∈ t.heap.stored)
    (hne : t.heap.data q ≠ running) : (t.del (t.heap.data q)).OnTop now tmp running := by
  refine ⟨hrun.nonneg, hrun.past, ?_, by rw [del_data]; exact hrun.data, hrun.due⟩
  unfold Timer.del
  rw [(hb.entry q hq).linked]
  exact hb.top_remove hrun.top hq fun heq => hne (by rw [heq]; exact hrun.data)

theorem Inv.del (h : t.Inv) (hlaw : t.Lawful (.del tnode)) : (t.del tnode).Inv := by
  obtain ⟨hpending, hother⟩ := hlaw
  obtain ⟨q, hq, rfl⟩ := mem_pending.mp hpending
  obtain ⟨hb, hstored⟩ := h.base.del hq
  refine ⟨hb, fun hidle p hp => ?_, fun now tmp running hcall => ?_⟩
  · obtain ⟨r, hr, rfl⟩ := mem_pending.mp hp
    exact h.idle hidle _ (mem_pending.mpr ⟨r, ((hstored r).mp hr).1, by rw [del_data]⟩)
  · rw [show t.call = _ from hcall] at hother
    have hrun := h.callback now tmp running hcall
    refine (hrun.onTop.del h.base hq hother).running fun r hr => ?_
    rw [deadline, del_data]
    exact hrun.near r ((hstored r).mp hr).1

/-- The mark that the callback of a timer leaves on it. -/
def mark (t : Timer) (tnode : Ptr) : Timer :=
  { t with node := update t.node tnode { t.node tnode with remove := true } }

theorem clear_eq_mark (hcall : t.call = .callback now tmp running) : t.clear = t.mark running := by
  simp only [clear, mark, hcall]

theorem node_mark (t : Timer) (tnode p : Ptr) :
    ∃ mark, (t.mark tnode).node p = { t.node p with remove := mark } := by
  by_cases hp : p = tnode
  · subst hp
    exact ⟨true, update_self _ _ _⟩
  · exact ⟨(t.node p).remove, update_of_ne hp _ _⟩

theorem Base.mark (hb : t.Base) (tnode : Ptr) : (t.mark tnode).Base where
  valid := hb.valid
  min := hb.min
  entry := by
    intro q hq
    obtain ⟨_, htimer⟩ := t.node_mark tnode (t.heap.data q)
    exact (hb.entry q hq).congr htimer rfl le_rfl
  started := hb.started

theorem execMsec_mark (t : Timer) (tnode p : Ptr) :
    ((t.mark tnode).node p).execMsec = (t.node p).execMsec := by
  obtain ⟨_, hnode⟩ := t.node_mark tnode p
  rw [hnode]

theorem OnTop.mark (hrun : t.OnTop now tmp running) (tnode : Ptr) :
    (t.mark tnode).OnTop now tmp running :=
  ⟨hrun.nonneg, hrun.past, hrun.top, hrun.data, (execMsec_mark _ _ _).trans_le hrun.due⟩

theorem Inv.clear (h : t.Inv) : t.clear.Inv := by
  cases hcall : t.call with
  | idle =>
    rw [Timer.clear, hcall]
    exact h
  | callback now tmp running =>
    rw [clear_eq_mark hcall]
    refine ⟨h.base.mark running, fun hidle => absurd (hcall.symm.trans hidle) nofun, ?_⟩
    intro now' tmp' running' hcall'
    have hrun := h.callback now' tmp' running' hcall'
    exact (hrun.onTop.mark running).running fun q hq =>
      (execMsec_mark _ _ _).trans_lt (hrun.near q hq)

theorem inv_fresh {t : Timer} (hheap : t.heap = .new 1024 .min) (hcall : t.call = .idle)
    (hclock : t.clock = t.basetime) : t.Inv where
  base := by
    refine ⟨by rw [hheap]; exact Heap.new_valid 1024 .min, by rw [hheap]; rfl, fun q hq => ?_,
      by rw [hclock]⟩
    rw [hheap, Heap.stored_new] at hq
    exact absurd hq List.not_mem_nil
  idle := by
    intro _ p hp
    rw [pending, hheap, Heap.stored_new] at hp
    exact absurd hp List.not_mem_nil
  callback := by
    intro now tmp running hrun
    exact absurd (hcall.symm.trans hrun) nofun

end AddDel

/-! ## Runs -/

/-- **The step lemma.** -/
theorem inv_step {t : Timer} {e : Event} (h : t.Inv) (hlaw : t.Lawful e) (hin : t.InTime e) :
    (t.step e).Inv := by
  cases e with
  | init msec now =>
    cases now with
    | none => exact h.observe hlaw.2
    | some v => exact inv_fresh rfl hlaw.1 rfl
  | add msec interval now mem => exact h.add hlaw hin
  | del tnode => exact h.del hlaw
  | select now => exact h.select hlaw.2
  | clear => exact h.clear
  | ret now =>
    cases hcall : t.call with
    | idle => simpa [Timer.step, hcall] using h
    | callback start tmp tnode =>
      have hobs := h.observe (show t.OnTime now from hlaw)
      have hret := (hobs.callback start tmp tnode hcall).callbackReturned hobs.base now
        fun hcont => by
          unfold InTime at hin
          rw [hcall] at hin
          exact hin hcont
      simpa [Timer.step, hcall] using hret

open StepRun

/-- **Timer arming.**  Start the timer and let any sequence of calls follow, callbacks
and what they do included.  If every event is lawful and in time, then in every state
of the run in which no select is under way, and in which a timer is pending, the
timeout is non-negative and does not reach beyond any pending deadline, counted from
the reading of the last add or select. -/
theorem armed_run (msec : ℤ) (now : Timeval) (events : List Event)
    (hlaw : EachStep step Lawful (start msec now) events)
    (hin : EachStep step InTime (start msec now) events) :
    ∀ used, used <+: events → (run step (start msec now) used).call = .idle →
      (run step (start msec now) used).Armed := by
  intro used hpre
  have hboth : EachStep step (fun t e => t.Lawful e ∧ t.InTime e) (start msec now) used :=
    (hlaw.restrict hpre).and (hin.restrict hpre)
  have hinv : (run step (start msec now) used).Inv :=
    hboth.run_invariant (P := Inv) (fun t e h he => inv_step h he.1 he.2) (inv_fresh rfl rfl rfl)
  exact hinv.idle

/-- A time in the first second of the clock. -/
def atMsec (msec : Fin 1000) : Timeval := ⟨0, msec * 1000, by decide, by omega⟩

/-- An add for which the allocator has the timer `tnode` and the heap node `q`. -/
def addOf (msec : ℤ) (interval : Bool) (now : Fin 1000) (tnode q : Ptr) : Event :=
  .add msec interval (some (atMsec now)) ⟨some tnode, ⟨true, some q⟩⟩

/-- The timer is set up for an interval of 10; a tick timer fires at 10 and adds a
timer in its callback, which returns late; that timer is deleted and another one
added. -/
theorem armed_add_in_callback :
    let events := [addOf 10 true 0 1 2, .select (some (atMsec 10)), addOf 5 false 11 3 4,
      .ret (some (atMsec 12)), .del 3, addOf 7 false 12 5 6]
    (EachStep step Lawful (start 10 (atMsec 0)) events ∧
        EachStep step InTime (start 10 (atMsec 0)) events ∧
        (run step (start 10 (atMsec 0)) events).call = .idle ∧
        (run step (start 10 (atMsec 0)) events).pending ≠ []) ∧
      (run step (start 10 (atMsec 0)) events).Armed :=
  ⟨by decide +kernel, armed_run 10 (atMsec 0) _ (by decide +kernel) (by decide +kernel) _
    List.prefix_rfl (by decide +kernel)⟩

/-- **A longer timer disarms a shorter one.**  Set up for 1000, the timer gets timers
of 1000, 10 and 100 milliseconds at one and the same time.  Each of the last two is
below `_next_msec`, so the third overwrites the timeout of the second: the reactor is
told to sleep 100 milliseconds with a deadline 10 milliseconds away. -/
theorem not_armed_longer_after_shorter :
    let events := [addOf 1000 false 0 1 2, addOf 10 false 0 3 4, addOf 100 false 0 5 6]
    EachStep step Lawful (start 1000 (atMsec 0)) events ∧
      (run step (start 1000 (atMsec 0)) events).call = .idle ∧
      (run step (start 1000 (atMsec 0)) events).timeoutMsec = 100 ∧
      ¬ (run step (start 1000 (atMsec 0)) events).Armed := by
  decide +kernel

end Swoole.Timer
