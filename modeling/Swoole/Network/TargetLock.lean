import Swoole.Network.Datagram
import Swoole.Network.PackageMerge

/-!
# The target of a message in chunks

The chunks of one message have to go to one worker.  While a thread sends a message it sets
`factory_lock_target`; the first dispatch then stores the worker that the scheduler chose in
`factory_target_worker`, and the later ones take it from there.  Both belong to the thread, so
they have to be reset before its next message, or that message goes to the old worker.

`swReactorThread_dispatch` has one way out behind the lock, and `swReactorThread_onPackage` has
three: the dispatch of the first chunk fails, the first chunk was all of the message, or the
loop over the other chunks ends.  The first of them returns without a reset.

The two loops are those of `DgramSend` and `Dispatch`; here only the lock is followed.  What
each `factory->dispatch` meets is an input: the worker that would be scheduled, and whether
the dispatch succeeds.
-/

namespace Swoole

/-- `serv->factory`: only the one for processes looks at the lock. -/
inductive FactoryKind where
  | process
  | other
  deriving DecidableEq, Repr

/-- What a call of `factory->dispatch` meets: the choice of `swServer_worker_schedule`, and
whether it succeeds. -/
structure DispatchAnswer where
  scheduled : ℕ
  ok : Bool
  deriving DecidableEq, Repr

/-- The two fields of `SwooleTG`; the second one is an `int16_t`. -/
structure TargetLock where
  lockTarget : Bool
  targetWorker : ℤ
  deriving DecidableEq, Repr

variable {x x' : DgramSend}

theorem DgramSend.advance_eq_some (h : x.advance = some x') :
    x.len < x.sendN ∧ x'.sendN = x.sendN - x.len ∧ x'.started = true := by
  by_cases hlast : x.sendN - x.len = 0
  · rw [advance, if_pos hlast] at h
    cases h
  · rw [advance, if_neg hlast] at h
    cases h
    exact ⟨by omega, rfl, rfl⟩

theorem DgramSend.len_pos (h : x.len < x.sendN) : 0 < x.len := by
  unfold len Datagram.firstLen at h ⊢
  split_ifs at h ⊢
  · decide
  · exact absurd h (lt_irrefl _)
  · decide
  · exact lt_of_lt_of_le (by decide) (Nat.le_add_left dgramPacketSize _)

theorem DgramSend.sendN_advance_lt (h : x.advance = some x') : x'.sendN < x.sendN := by
  obtain ⟨hlt, hsendN, -⟩ := advance_eq_some h
  have hpos := len_pos hlt
  omega

theorem Dispatch.offset_advance_lt {d d' : Dispatch} {sent : Bool} (h : d.advance sent = some d') :
    d'.data.length - d'.offset < d.data.length - d.offset := by
  unfold Dispatch.advance at h
  split_ifs at h with hmore
  cases h
  have hpos := d.len_pos
  show d.data.length - (d.offset + d.len) < d.data.length - d.offset
  omega

namespace TargetLock

/-- As the thread starts, and as each message should leave it. -/
def unlocked : TargetLock := ⟨false, -1⟩

def lock (t : TargetLock) : TargetLock := { t with lockTarget := true }

/-- The worker that `factory->dispatch` sends a task to, if the task names none. -/
def target (kind : FactoryKind) (t : TargetLock) (a : DispatchAnswer) : ℕ :=
  match kind with
  | .process =>
    if t.lockTarget = true ∧ 0 ≤ t.targetWorker then toUInt16 t.targetWorker
    else toUInt16 a.scheduled
  | .other => toUInt16 a.scheduled

/-- What `factory->dispatch` does to the lock. -/
def factoryDispatch (kind : FactoryKind) (t : TargetLock) (a : DispatchAnswer) : TargetLock :=
  match kind with
  | .process =>
    if t.lockTarget = true ∧ t.targetWorker < 0 then
      { t with targetWorker := toInt16 (toUInt16 a.scheduled) }
    else t
  | .other => t

/-- `swReactorThread_onPackage` from a dispatch on.  If the dispatch of the first chunk fails
it returns at once; the loop over the others ends with the reset. -/
def packageLoop (kind : FactoryKind) (answers : ℕ → DispatchAnswer) (i : ℕ) (x : DgramSend)
    (t : TargetLock) : TargetLock :=
  if (answers i).ok then
    match _h : x.advance with
    | none => unlocked
    | some x' => packageLoop kind answers (i + 1) x' (t.factoryDispatch kind (answers i))
  else if x.started then unlocked
  else t.factoryDispatch kind (answers i)
termination_by x.sendN
decreasing_by exact DgramSend.sendN_advance_lt _h

/-- `swReactorThread_onPackage`; `received` is what `recvfrom` returns, if it does not fail. -/
def onPackage (kind : FactoryKind) (answers : ℕ → DispatchAnswer) (t : TargetLock) :
    Option Datagram → TargetLock
  | none => t
  | some d =>
    if 0 < d.received.length then packageLoop kind answers 0 ⟨d, false, d.sendN, 0⟩ t.lock else t

/-- The loop of `swReactorThread_dispatch`, and the reset behind it. -/
def dispatchLoop (kind : FactoryKind) (answers : ℕ → DispatchAnswer) (i : ℕ) (d : Dispatch)
    (t : TargetLock) : TargetLock :=
  if (answers i).ok then
    match _h : d.advance true with
    | none => unlocked
    | some d' => dispatchLoop kind answers (i + 1) d' (t.factoryDispatch kind (answers i))
  else unlocked
termination_by d.data.length - d.offset
decreasing_by exact Dispatch.offset_advance_lt _h

/-- `swReactorThread_dispatch`. -/
def dispatch (kind : FactoryKind) (answers : ℕ → DispatchAnswer) (t : TargetLock)
    (fd fromId sessionId : ℕ) (data : Bytes) : TargetLock :=
  if h : 0 < data.length then
    dispatchLoop kind answers 0 ⟨fd, fromId, data, 0, sessionId, false, h⟩ t.lock
  else unlocked

/-! ## The messages of a thread -/

/-- A call that a thread makes; `answers` are what its dispatches meet. -/
inductive Message where
  | package (received : Option Datagram) (answers : ℕ → DispatchAnswer)
  | stream (fd fromId sessionId : ℕ) (data : Bytes) (answers : ℕ → DispatchAnswer)
  /-- `factory->notify`, for a connection that was accepted or closed. -/
  | notify (answer : DispatchAnswer)

def step (kind : FactoryKind) (t : TargetLock) : Message → TargetLock
  | .package received answers => t.onPackage kind answers received
  | .stream fd fromId sessionId data answers => t.dispatch kind answers fd fromId sessionId data
  | .notify answer => t.factoryDispatch kind answer

/-- The message begins with a dispatch, and it goes to the worker that the scheduler chooses
for it. -/
def Fresh (kind : FactoryKind) (t : TargetLock) : Message → Prop
  | .package none _ => True
  | .package (some d) answers => 0 < d.received.length →
      t.lock.target kind (answers 0) = toUInt16 (answers 0).scheduled
  | .stream _ _ _ data answers => 0 < data.length →
      t.lock.target kind (answers 0) = toUInt16 (answers 0).scheduled
  | .notify answer => t.target kind answer = toUInt16 answer.scheduled

/-- The dispatch of the first chunk of a datagram succeeds. -/
def FirstTaken : Message → Prop
  | .package (some d) answers => 0 < d.received.length → (answers 0).ok = true
  | _ => True

/-! ## The ways out -/

variable {kind : FactoryKind} {answers : ℕ → DispatchAnswer} {t : TargetLock} {i : ℕ}

theorem packageLoop_of_started (h : x.started = true) :
    packageLoop kind answers i x t = unlocked := by
  fun_induction packageLoop kind answers i x t with
  | case1 i x t hok hlast => rfl
  | case2 i x t hok x' hnext ih => exact ih (DgramSend.advance_eq_some hnext).2.2
  | case3 => rfl
  | case4 i x t hok hstarted => exact absurd h hstarted

theorem packageLoop_of_ok (h : (answers i).ok = true) :
    packageLoop kind answers i x t = unlocked := by
  rw [packageLoop, if_pos h]
  split
  · rfl
  · rename_i x' hnext
    exact packageLoop_of_started (DgramSend.advance_eq_some hnext).2.2

theorem packageLoop_of_not_ok (h : (answers i).ok = false) (hx : x.started = false) :
    packageLoop kind answers i x t = t.factoryDispatch kind (answers i) := by
  rw [packageLoop, if_neg (by rw [h]; decide), if_neg (by rw [hx]; decide)]

theorem dispatchLoop_eq {d : Dispatch} : dispatchLoop kind answers i d t = unlocked := by
  fun_induction dispatchLoop kind answers i d t with
  | case1 => rfl
  | case2 i d t hok d' hnext ih => exact ih
  | case3 => rfl

/-- `swReactorThread_dispatch` resets the lock on every way out. -/
theorem dispatch_eq {fd fromId sessionId : ℕ} {data : Bytes} :
    t.dispatch kind answers fd fromId sessionId data = unlocked := by
  unfold dispatch
  split_ifs
  · exact dispatchLoop_eq
  · rfl

variable {a : DispatchAnswer}

theorem factoryDispatch_lockTarget : (t.factoryDispatch kind a).lockTarget = t.lockTarget := by
  unfold factoryDispatch
  split
  · split_ifs <;> rfl
  · rfl

theorem factoryDispatch_unlocked : unlocked.factoryDispatch kind a = unlocked := by
  cases kind <;> rfl

theorem target_of_neg (h : t.targetWorker < 0) : t.target kind a = toUInt16 a.scheduled := by
  unfold target
  split
  · rw [if_neg (fun hpos => absurd hpos.2 (by omega))]
  · rfl

theorem fresh_unlocked (m : Message) : Fresh kind unlocked m := by
  cases m with
  | package received answers =>
    cases received with
    | none => trivial
    | some d => exact fun _ => target_of_neg (by decide)
  | stream fd fromId sessionId data answers => exact fun _ => target_of_neg (by decide)
  | notify answer => exact target_of_neg (by decide)

/-- A message that finds the lock open leaves it open exactly if the dispatch of its first
chunk does not fail. -/
theorem step_unlocked_iff {m : Message} : step kind unlocked m = unlocked ↔ FirstTaken m := by
  cases m with
  | stream fd fromId sessionId data answers => exact iff_of_true dispatch_eq trivial
  | notify answer => exact iff_of_true factoryDispatch_unlocked trivial
  | package received answers =>
    cases received with
    | none => exact iff_of_true rfl trivial
    | some d =>
      simp only [step, onPackage, FirstTaken]
      split_ifs with hreceived
      · cases hok : (answers 0).ok with
        | true => exact iff_of_true (packageLoop_of_ok hok) fun _ => rfl
        | false =>
          refine iff_of_false (fun heq => ?_) fun h => absurd (h hreceived) (by decide)
          rw [packageLoop_of_not_ok hok rfl] at heq
          have hlock := congrArg lockTarget heq
          rw [factoryDispatch_lockTarget] at hlock
          cases hlock
      · exact iff_of_true rfl fun h => absurd h hreceived

open StepRun

/-- **The target lock does not leak, exactly when no first chunk of a datagram is lost**: in a
thread whose datagrams all have their first dispatch succeed, whatever the other dispatches do,
every call returns with the lock reset, and every message begins with a worker of the
scheduler's choice; and a datagram whose first dispatch fails leaves the lock behind. -/
theorem target_reset_iff (kind : FactoryKind) (messages : List Message) :
    EachStep (step kind) (fun t m => step kind t m = unlocked ∧ Fresh kind t m) unlocked messages ↔
      ∀ m ∈ messages, FirstTaken m := by
  induction messages with
  | nil => exact iff_of_true trivial nofun
  | cons m messages ih =>
    rw [eachStep_cons, List.forall_mem_cons, step_unlocked_iff]
    constructor
    · rintro ⟨⟨htaken, -⟩, hrest⟩
      rw [step_unlocked_iff.mpr htaken] at hrest
      exact ⟨htaken, ih.mp hrest⟩
    · rintro ⟨htaken, hrest⟩
      refine ⟨⟨htaken, fresh_unlocked m⟩, ?_⟩
      rw [step_unlocked_iff.mpr htaken]
      exact ih.mpr hrest

/-- A datagram of one byte. -/
def smallDatagram : Datagram where
  fromFd := 3
  source := .v4 (.replicate 4 127) 9501
  payload := [0]
  unset := fun _ => 0
  stale := fun _ => 0

/-- The worker 0 is scheduled for the datagram and its pipe refuses it.  The target stays
locked, so the next datagram goes to the worker 0 as well, although the scheduler would have
chosen the worker 1. -/
theorem not_target_reset_refused :
    step .process unlocked (.package (some smallDatagram) fun _ => ⟨0, false⟩) = ⟨true, 0⟩ ∧
      ¬Fresh .process ⟨true, 0⟩ (.package (some smallDatagram) fun _ => ⟨1, true⟩) := by
  constructor
  · have hreceived : 0 < smallDatagram.received.length := by decide
    simp only [step, onPackage, if_pos hreceived]
    rw [packageLoop_of_not_ok rfl rfl]
    decide
  · intro hfresh
    exact absurd (hfresh (by decide)) (by decide)

end TargetLock

end Swoole
