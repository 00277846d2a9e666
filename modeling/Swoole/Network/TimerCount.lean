import Swoole.Network.TimerArming

/-!
# The count of timers

`timer->num` is meant to be the number of pending timers.  The event loop of a client, which has
no server to keep it alive, reads it: `swReactor_onTimeout_and_Finish` stops the loop when
`num` is not positive and no event is left.

`swTimer_add` counts a timer before it pushes it to the heap, and does not take it back when
the push fails; `swTimer_del` takes a timer out of the heap and does not count it down.  Only
`swTimer_select` does, for the timer that has fired.  So `drift`, the difference of `num` and
the number of pending timers, never falls (`drift_step`), and the loop of a client that has
cleared its last timer never ends.

* `Sound` — the heap is valid, heap nodes and timers point to each other, and inside a callback
  the running timer is in the heap, so that there is something to pop behind it;
* `num_eq_pending_iff` — the count is right in every state of a run exactly if no step leaks.
-/

namespace Swoole

/-- What `swReactor_onTimeout_and_Finish` sees of a reactor without a server. -/
structure ClientLoop where
  eventNum : ℕ
  aioInit : Bool
  aioTaskNum : ℕ
  deriving DecidableEq, Repr

namespace ClientLoop

/-- No event is left; the pipe of the asynchronous tasks does not count if there are none. -/
def Idle (r : ClientLoop) : Prop :=
  if r.aioInit = true ∧ r.eventNum = 1 ∧ r.aioTaskNum = 0 then True else r.eventNum = 0
  deriving Decidable

/-- The loop is told to stop, with `num` as `timer->num`. -/
def Stops (r : ClientLoop) (num : ℤ) : Prop := num ≤ 0 ∧ r.Idle
  deriving Decidable

end ClientLoop

namespace Timer

/-- **The count is right**: it is the number of pending timers, and so every client loop stops
if and only if no timer is pending and no event is left. -/
structure Counted (t : Timer) : Prop where
  num_eq : t.num = t.pending.length
  stops_iff : ∀ r : ClientLoop, r.Stops t.num ↔ t.pending = [] ∧ r.Idle

/-- The event leaves `timer->num` too large: a timer is deleted, or a timer is counted and then
finds no place in the heap, because the array is full and cannot grow or because there is no
memory for a heap node. -/
def Leaks (t : Timer) : Event → Prop
  | .del _ => True
  | .add _ _ now mem =>
    mem.tnode.isSome = true ∧ 0 ≤ t.getRelativeMsec now ∧
      ((t.heap.size ≤ t.heap.num ∧ mem.push.realloc = false) ∨ mem.push.node = none)
  | _ => False

instance (t : Timer) : ∀ e, Decidable (t.Leaks e)
  | .del _ => .isTrue trivial
  | .add _ _ _ _ => inferInstanceAs (Decidable (_ ∧ _ ∧ _))
  | .init _ _ | .select _ | .clear | .ret _ => .isFalse nofun

/-! ## What is in the heap -/

/-- By how much `timer->num` exceeds the number of pending timers. -/
def drift (t : Timer) : ℤ := t.num - t.pending.length

theorem length_pending (t : Timer) : t.pending.length = t.heap.num - 1 := by
  simp [pending, Heap.stored, IndexedHeap.elems]

theorem counted_iff {t : Timer} : t.Counted ↔ t.drift = 0 := by
  constructor
  · intro h
    have hnum := h.num_eq
    unfold drift
    omega
  · intro h
    have hnum : t.num = t.pending.length := by
      unfold drift at h
      omega
    refine ⟨hnum, fun r => and_congr_left' ?_⟩
    rw [hnum, ← List.length_eq_zero_iff]
    omega

/-- The heap is a heap, its nodes and the timers point to each other, and the timer whose
callback is running is in it. -/
structure Sound (t : Timer) : Prop where
  valid : t.heap.Valid
  linked : ∀ q ∈ t.heap.stored, (t.node (t.heap.data q)).heapNode = q
  running : ∀ now tmp tnode, t.call = .callback now tmp tnode →
    tmp ∈ t.heap.stored ∧ t.heap.data tmp = tnode

theorem sound_start (msec : ℤ) (now : Timeval) : (start msec now).Sound where
  valid := Heap.new_valid 1024 .min
  linked := nofun
  running := nofun

variable {t : Timer}

theorem one_lt_num {q : Ptr} (hq : q ∈ t.heap.stored) : 1 < t.heap.num := by
  obtain ⟨i, hi, hlt, -⟩ := Heap.mem_stored.mp hq
  omega

theorem Sound.observe (h : t.Sound) (now : Option Timeval) : (t.observe now).Sound :=
  ⟨h.valid, h.linked, h.running⟩

/-! ## The select loop -/

/-- From the head of its loop a select goes into the callback of the timer on top, or ends. -/
theorem Sound.selectLoop (hvalid : t.heap.Valid)
    (hlinked : ∀ q ∈ t.heap.stored, (t.node (t.heap.data q)).heapNode = q) (now : ℤ)
    (tnode : Option Ptr) : (t.selectLoop now tnode).Sound := by
  rcases t.selectLoop_cases now tnode with ⟨tmp, htop, -, heq⟩ | ⟨timeout, heq, -⟩ <;> rw [heq]
  · refine ⟨hvalid, hlinked, ?_⟩
    rintro _ _ _ ⟨⟩
    exact ⟨(hvalid.top_spec htop).1, rfl⟩
  · exact ⟨hvalid, hlinked, nofun⟩

theorem drift_selectLoop (t : Timer) (now : ℤ) (tnode : Option Ptr) :
    (t.selectLoop now tnode).drift = t.drift := by
  rcases t.selectLoop_cases now tnode with ⟨_, -, -, heq⟩ | ⟨_, heq, -⟩ <;>
  · rw [heq]
    rfl

theorem Sound.select (h : t.Sound) (now : Option Timeval) : (t.select now).Sound := by
  unfold Timer.select
  split_ifs
  · exact h
  · exact Sound.selectLoop h.valid h.linked _ _

theorem drift_select (now : Option Timeval) : (t.select now).drift = t.drift := by
  unfold Timer.select
  split_ifs
  · rfl
  · exact drift_selectLoop t _ _

variable {tnode : Ptr} {now : ℤ}

/-- The callback returns: the timer is rescheduled, or counted down and popped. -/
theorem Sound.callbackReturned {tmp : Ptr} (h : t.Sound) (hcall : t.call = .callback now tmp tnode)
    (again : Option Timeval) : (t.callbackReturned now tmp tnode again).Sound ∧
      (t.callbackReturned now tmp tnode again).drift = t.drift := by
  obtain ⟨hmem, rfl⟩ := h.running now tmp tnode hcall
  have hnum := one_lt_num hmem
  unfold Timer.callbackReturned
  split_ifs
  · obtain ⟨hvalid, hstored⟩ := Heap.changePriority_valid h.valid
      (toUInt64 (nextExecMsec (t.node (t.heap.data tmp)) now (t.getRelativeMsec again))) hmem
    refine ⟨Sound.selectLoop hvalid (fun q hq => ?_) _ _, ?_⟩
    · have hlinked := h.linked q ((hstored q).mp hq)
      simp only [reschedule, Heap.changePriority_frame]
      by_cases hsame : t.heap.data q = t.heap.data tmp
      · rw [hsame] at hlinked
        rw [hsame, Function.update_self]
        exact hlinked
      · rw [Function.update_of_ne hsame]
        exact hlinked
    · rw [drift_selectLoop, drift, drift, length_pending, length_pending]
      simp only [reschedule, Heap.changePriority_frame]
  · obtain ⟨q, htop⟩ : ∃ q, t.heap.top = some q :=
      ⟨t.heap.nodes 1, by rw [Heap.top, if_neg (by omega)]⟩
    obtain ⟨hvalid, hstored⟩ := Heap.pop_valid h.valid htop
    refine ⟨Sound.selectLoop hvalid (fun q hq => ?_) _ _, ?_⟩
    · simp only [Heap.pop_frame]
      exact h.linked q ((hstored q).mp hq).1
    · rw [drift_selectLoop, drift, drift, length_pending, length_pending]
      simp only [Heap.pop_num, if_neg (show t.heap.num ≠ 1 by omega)]
      omega

/-! ## Adding and deleting -/

variable {interval : Bool} {msec : ℤ} {push : Heap.PushMemory}

theorem Sound.addAt (h : t.Sound) (hfree : t.Unused tnode push) :
    (t.addAt msec interval now tnode push).Sound := by
  obtain ⟨hvalid, hstored⟩ := addAt_stored h.valid msec interval now hfree
  obtain ⟨-, -, hcall, -⟩ := t.addAt_frame msec interval now tnode push
  refine ⟨hvalid, fun r hr => ?_, fun now' tmp running hrun => ?_⟩
  · rcases hstored r hr with ⟨hold, htimer, -⟩ | ⟨-, hnew⟩
    · exact (congrArg TimerNode.heapNode htimer).trans (h.linked r hold)
    · exact congrArg TimerNode.heapNode hnew
  · rw [hcall] at hrun
    obtain ⟨hmem, hdata⟩ := h.running now' tmp running hrun
    rcases t.addAt_cases msec interval now tnode push with ⟨size, heq⟩ | ⟨size, q, hq, heq⟩ <;>
      rw [heq]
    · exact ⟨hmem, hdata⟩
    · have hne : tmp ≠ q := fun heq => hfree.node q hq (heq ▸ hmem)
      have hpush := (Heap.pushNode_valid (h.valid.of_size size) (toUInt64 (now + msec)) tnode
        (hfree.node q hq)).2 tmp
      exact ⟨hpush.mpr (.inr hmem), by simpa [hne] using hdata⟩

/-- An add that pushes its timer counts it; one that cannot push it counts it all the same. -/
theorem drift_addAt (hnum : 0 < t.heap.num) :
    (t.addAt msec interval now tnode push).drift = t.drift +
      if (t.heap.size ≤ t.heap.num ∧ push.realloc = false) ∨ push.node = none then 1 else 0 := by
  have hpush := t.heap.push_num (toUInt64 (now + msec)) tnode push
  have hfails := t.heap.push_eq_none_iff (toUInt64 (now + msec)) tnode push
  have hcount : (t.addAt msec interval now tnode push).num = t.num + 1 ∧
      (t.addAt msec interval now tnode push).heap =
        (t.heap.push (toUInt64 (now + msec)) tnode push).1 := by
    simp only [Timer.addAt]
    rcases hresult : t.heap.push (toUInt64 (now + msec)) tnode push with ⟨heap, _ | q⟩ <;>
      exact ⟨rfl, rfl⟩
  rw [drift, drift, length_pending, length_pending, hcount.1, hcount.2, hpush]
  by_cases hfail : (t.heap.push (toUInt64 (now + msec)) tnode push).2 = none
  · rw [if_pos hfail, if_pos (hfails.mp hfail)]
    omega
  · rw [if_neg hfail, if_neg (fun h => hfail (hfails.mpr h))]
    omega

/-- An add leaks exactly if it gets as far as the heap and finds no place there. -/
theorem Sound.add (h : t.Sound) {now : Option Timeval} {mem : AddMemory}
    (hlaw : t.Lawful (.add msec interval now mem)) :
    ((t.observe now).add msec interval now mem).Sound ∧
      ((t.observe now).add msec interval now mem).drift =
        t.drift + if t.Leaks (.add msec interval now mem) then 1 else 0 := by
  obtain ⟨-, -, -, hfresh, hnode⟩ := hlaw
  have hobs := h.observe now
  unfold Timer.add
  cases htnode : mem.tnode with
  | none =>
    refine ⟨hobs, ?_⟩
    rw [if_neg (fun hleaks => by simp [Leaks, htnode] at hleaks)]
    exact (Int.add_zero _).symm
  | some tnode =>
    have hfree : (t.observe now).Unused tnode mem.push :=
      ⟨hfresh tnode (by simp [htnode]), fun q hq => hnode q (by simpa using hq)⟩
    split_ifs with hread hleaks hleaks
    · exact absurd hleaks.2.1 (not_le.mpr hread)
    · exact ⟨hobs, (Int.add_zero _).symm⟩
    · refine ⟨hobs.addAt hfree, ?_⟩
      rw [drift_addAt hobs.valid.num_pos]
      exact congrArg _ (if_pos hleaks.2.2)
    · refine ⟨hobs.addAt hfree, ?_⟩
      rw [drift_addAt hobs.valid.num_pos]
      refine congrArg _ (if_neg fun hfail => hleaks ⟨by rw [htnode]; rfl, not_lt.mp hread, hfail⟩)

/-- A deletion takes a timer out of the heap and leaves the count alone. -/
theorem Sound.del (h : t.Sound) (hlaw : t.Lawful (.del tnode)) :
    (t.del tnode).Sound ∧ (t.del tnode).drift = t.drift + 1 := by
  obtain ⟨hpending, hother⟩ := hlaw
  obtain ⟨q, hq, rfl⟩ := mem_pending.mp hpending
  obtain ⟨hvalid, hstored⟩ := Heap.remove_valid h.valid hq
  have hnum := one_lt_num hq
  unfold Timer.del
  rw [h.linked q hq]
  refine ⟨⟨hvalid, fun r hr => ?_, fun now tmp running hcall => ?_⟩, ?_⟩
  · simp only [Heap.remove_frame]
    exact h.linked r ((hstored r).mp hr).1
  · obtain ⟨hmem, hdata⟩ := h.running now tmp running hcall
    have hne : tmp ≠ q := by
      rintro rfl
      rw [show t.call = _ from hcall] at hother
      exact hother hdata
    refine ⟨(hstored tmp).mpr ⟨hmem, hne⟩, ?_⟩
    simp only [Heap.remove_frame]
    exact hdata
  · rw [drift, drift, length_pending, length_pending]
    simp only [Heap.remove_frame]
    omega

theorem Sound.clear (h : t.Sound) : t.clear.Sound ∧ t.clear.drift = t.drift := by
  unfold Timer.clear
  split
  · exact ⟨h, rfl⟩
  next now tmp running hcall =>
    refine ⟨⟨h.valid, fun q hq => ?_, h.running⟩, rfl⟩
    have hlinked := h.linked q hq
    by_cases hsame : t.heap.data q = running
    · rw [hsame] at hlinked
      simp only [hsame, Function.update_self]
      exact hlinked
    · simp only [Function.update_of_ne hsame]
      exact hlinked

/-! ## Runs -/

/-- **The step lemma**: the drift grows by one with a step that leaks, and never falls. -/
theorem Sound.step (h : t.Sound) {e : Event} (hlaw : t.Lawful e)
    (hinit : ∀ msec now, e ≠ Event.init msec now) :
    (t.step e).Sound ∧ (t.step e).drift = t.drift + if t.Leaks e then 1 else 0 := by
  cases e with
  | init msec now => exact absurd rfl (hinit msec now)
  | add msec interval now mem => exact h.add hlaw
  | del tnode =>
    exact h.del hlaw
  | select now =>
    rw [if_neg (show ¬t.Leaks (.select now) from nofun), Int.add_zero]
    exact ⟨(h.observe now).select now, drift_select now⟩
  | clear =>
    rw [if_neg (show ¬t.Leaks .clear from nofun), Int.add_zero]
    exact h.clear
  | ret now =>
    rw [if_neg (show ¬t.Leaks (.ret now) from nofun), Int.add_zero]
    cases hcall : t.call with
    | idle => simpa [Timer.step, hcall] using h
    | callback start tmp tnode =>
      simp only [Timer.step, hcall]
      exact (h.observe now).callbackReturned (t := t.observe now) hcall now

open StepRun

/-- **The count of timers is right in every state of a run, exactly when no step leaks.**  The
run is any lawful sequence of additions, deletions, selects and what their callbacks do; the
allocator and the clock may fail at any time. -/
theorem num_eq_pending_iff (msec : ℤ) (now : Timeval) (events : List Event)
    (hlaw : EachStep step Lawful (start msec now) events)
    (hinit : ∀ msec now, Event.init msec now ∉ events) :
    (∀ used, used <+: events → (run step (start msec now) used).Counted) ↔
      EachStep step (fun t e => ¬t.Leaks e) (start msec now) events := by
  have hadm : EachStep step (fun t e => t.Lawful e ∧ ∀ msec now, e ≠ Event.init msec now)
      (start msec now) events := by
    refine hlaw.and (eachStep_of_forall (B := fun e => ∀ msec now, e ≠ Event.init msec now) ?_ _)
    rintro e he msec now rfl
    exact hinit msec now he
  refine EachStep.forall_prefix_iff (I := Sound) ?_ ?_ hadm (sound_start msec now)
    (counted_iff.mpr rfl)
  · intro t e hsound _ hadm _
    exact (hsound.step hadm.1 hadm.2).1
  · intro t e hsound hcounted hadm
    rw [counted_iff, (hsound.step hadm.1 hadm.2).2, counted_iff.mp hcounted]
    split_ifs with hleaks
    · exact iff_of_false (by decide) (fun h => h hleaks)
    · exact iff_of_true rfl hleaks

/-- A tick timer fires, adds an after timer in its callback and clears itself; the after timer
fires as well, and the count goes back to zero. -/
theorem num_eq_pending_tick_cleared :
    let events := [addOf 10 true 0 1 2, .select (some (atMsec 10)), addOf 5 false 10 3 4, .clear,
      .ret (some (atMsec 11)), .select (some (atMsec 20)), .ret (some (atMsec 20))]
    (EachStep step Lawful (start 10 (atMsec 0)) events ∧
        (∀ msec now, Event.init msec now ∉ events) ∧
        EachStep step (fun t e => ¬t.Leaks e) (start 10 (atMsec 0)) events) ∧
      (run step (start 10 (atMsec 0)) events).Counted := by
  refine ⟨⟨by decide +kernel, by simp [addOf], by decide +kernel⟩, ?_⟩
  exact (num_eq_pending_iff 10 (atMsec 0) _ (by decide +kernel) (by simp [addOf])).mpr
    (by decide +kernel) _ List.prefix_rfl

/-- A client adds a timer and clears it, or the push of its timer finds no memory: no timer is
pending, but `num` is one, and the loop does not stop although nothing is left to do. -/
theorem not_counted_cleared_or_refused :
    let cleared := [addOf 10 false 0 1 2, .del 1]
    let refused := [.add 10 false (some (atMsec 0)) ⟨some 1, ⟨true, none⟩⟩]
    ∀ events ∈ [cleared, refused],
      EachStep step Lawful (start 10 (atMsec 0)) events ∧
        (run step (start 10 (atMsec 0)) events).pending = [] ∧
        (run step (start 10 (atMsec 0)) events).num = 1 ∧
        (ClientLoop.mk 0 false 0).Idle ∧
        ¬(ClientLoop.mk 0 false 0).Stops (run step (start 10 (atMsec 0)) events).num := by
  decide +kernel

end Timer

end Swoole
