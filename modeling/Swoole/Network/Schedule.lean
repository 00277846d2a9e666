import Swoole.Core.Int
import Swoole.Library.Rotation

/-!
# Choosing a worker

`swServer_worker_schedule` chooses the worker for a request by the dispatch mode of the server,
and then passes over workers that deny requests.  `swProcessPool_schedule` chooses a task worker.
Both have a preemptive mode, which looks for an idle worker by a shared 32-bit counter.

A worker is known by its place in the list of workers.  An access behind the list is `none`.
-/

namespace Swoole

open List

/-- `SW_WORKER_BUSY`, `SW_WORKER_IDLE` and `SW_WORKER_DEL`; `unset` is a zeroed worker. -/
inductive WorkerStatus where
  | unset
  | busy
  | idle
  | del
  deriving DecidableEq, Repr

/-- What the schedulers see of a `swWorker`. -/
structure ScheduledWorker where
  status : WorkerStatus
  denyRequest : UInt8
  deriving DecidableEq, Repr

/-- `swFactory_dispatch_mode`.  Any other value of `dispatch_mode` is treated as `queue` is. -/
inductive DispatchMode where
  | round
  | fdmod
  | queue
  | ipmod
  | uidmod
  deriving DecidableEq, Repr

/-- What `swServer_worker_schedule` reads of a `swConnection`: whether it is an IPv4 connection, the
address, the last word of the IPv6 address, and `uid`, a `long`. -/
structure ScheduledConn where
  tcp : Bool
  v4 : UInt32
  v6 : UInt32
  uid : ℤ

/-- The worker at the index is idle. -/
def IsIdle (workers : List ScheduledWorker) (i : ℕ) : Prop :=
  (workers[i]?).map ScheduledWorker.status = some .idle
  deriving Decidable

/-- The worker at the index denies requests. -/
def Denies (workers : List ScheduledWorker) (i : ℕ) : Prop :=
  (workers[i]?).map ScheduledWorker.denyRequest = some 1
  deriving Decidable

/-- The worker that the counter points to, `k` increments after it was `round`. -/
def roundTarget (round : UInt32) (num k : ℕ) : ℕ := (round.toNat + k) % 2 ^ 32 % num

/-- The preemptive loop, for a number of rounds: `target = fetch_add(round, 1) % worker_num`, up
to an idle worker.  The counter goes on by the rounds that were made. -/
def preempt (workers : List ScheduledWorker) (round : UInt32) (rounds : ℕ) : ℕ × UInt32 :=
  let found := Rotation.seek (IsIdle workers) (roundTarget round workers.length) rounds 0 0
  (found.1, round + UInt32.ofNat found.2)

/-! ## The server -/

/-- What `swServer_worker_schedule` reads of `swServer`; there is at least one worker, and
`worker_num` is a `uint16_t`. -/
structure ScheduleServer where
  dispatchMode : DispatchMode
  workers : List ScheduledWorker
  workerRoundId : UInt32
  maxConnection : UInt32
  connectionList : ℕ → ScheduledConn
  num_pos : 0 < workers.length
  num_lt : workers.length < 2 ^ 16

namespace ScheduleServer

variable (s : ScheduleServer)

/-- `worker_num`. -/
abbrev workerNum : ℕ := s.workers.length

/-- `swServer_connection_get`.  The first comparison is one of unsigned numbers. -/
def connectionGet (fd : ℤ) : Option ScheduledConn :=
  if s.maxConnection.toNat < toUInt32 fd ∨ fd ≤ 2 then none else some (s.connectionList fd.toNat)

/-- The target by the mode, and the counter.  The remainder of a `long` by an `int` has the sign
of the `long`; the target is a `uint32_t`. -/
def target (key : UInt32) : ℕ × UInt32 :=
  match s.dispatchMode with
  | .round => (s.workerRoundId.toNat % s.workerNum, s.workerRoundId + 1)
  | .fdmod => (key.toNat % s.workerNum, s.workerRoundId)
  | .ipmod =>
    match s.connectionGet (toInt32 key.toNat) with
    | none => (key.toNat % s.workerNum, s.workerRoundId)
    | some conn =>
      if conn.tcp then (conn.v4.toNat % s.workerNum, s.workerRoundId)
      else (conn.v6.toNat % s.workerNum, s.workerRoundId)
  | .uidmod =>
    match s.connectionGet (toInt32 key.toNat) with
    | none => (key.toNat % s.workerNum, s.workerRoundId)
    | some conn =>
      if conn.uid ≠ 0 then (toUInt32 (conn.uid.tmod s.workerNum), s.workerRoundId)
      else (key.toNat % s.workerNum, s.workerRoundId)
  | .queue => preempt s.workers s.workerRoundId (s.workerNum + 1)

/-- The loop that passes over workers that deny requests, with `worker_num - i` for `left`. -/
def passDenied : ℕ → ℕ → Option ℕ
  | 0, target =>
    (s.workers[target]?).map fun worker => if worker.denyRequest = 1 then 0 else target
  | left + 1, target =>
    (s.workers[target]?).bind fun worker =>
      if worker.denyRequest = 1 then passDenied left ((target + 1) % 2 ^ 32 % s.workerNum)
      else some target

/-- **`swServer_worker_schedule`**: the worker, and the counter. -/
def workerSchedule (key : UInt32) : Option (ℕ × UInt32) :=
  (s.passDenied s.workerNum (s.target key).1).map fun id => (id, (s.target key).2)

end ScheduleServer

/-! ## The pool of task workers -/

/-- What `swProcessPool_schedule` reads of `swProcessPool`; there is at least one worker, and
`run_worker_num` is an `uint32_t`. -/
structure SchedulePool where
  dispatchMode : DispatchMode
  workers : List ScheduledWorker
  roundId : UInt32
  num_pos : 0 < workers.length
  num_lt : workers.length < 2 ^ 32

namespace SchedulePool

variable (p : SchedulePool)

/-- `run_worker_num`. -/
abbrev runWorkerNum : ℕ := p.workers.length

/-- The number of rounds; the bound of the loop is an `int`. -/
def rounds : ℕ := (toInt32 (toInt32 p.runWorkerNum + 1)).toNat

/-- **`swProcessPool_schedule`**: the worker, and the counter. -/
def schedule : ℕ × UInt32 :=
  if p.dispatchMode = .queue then (0, p.roundId) else preempt p.workers p.roundId p.rounds

end SchedulePool

/-! ## The range of the target -/

/-- A remainder by a small number that is not negative stays below it as a `uint32_t`. -/
theorem toUInt32_tmod_lt {x : ℤ} {n : ℕ} (hpos : 0 < n) (hlt : n < 2 ^ 16)
    (h : 0 ≤ x ∨ (n : ℤ) ∣ x) : toUInt32 (x.tmod n) < n := by
  rcases h with hnonneg | hdvd
  · have hlow := Int.tmod_nonneg (n : ℤ) hnonneg
    have hhigh := Int.tmod_lt_of_pos x (Int.natCast_pos.mpr hpos)
    have heq := toUInt32_of_nonneg hlow (by omega)
    omega
  · rw [Int.tmod_eq_zero_of_dvd hdvd]
    exact hpos

theorem le_toUInt32_tmod {x : ℤ} {n : ℕ} (hpos : 0 < n) (hlt : n < 2 ^ 16) (hneg : x < 0)
    (hdvd : ¬ (n : ℤ) ∣ x) : n ≤ toUInt32 (x.tmod n) := by
  have hne : x.tmod n ≠ 0 := fun hzero => hdvd (Int.dvd_of_tmod_eq_zero hzero)
  have hflip : x.tmod n = -((-x).tmod n) := by rw [Int.neg_tmod, Int.neg_neg]
  have hlow := Int.tmod_nonneg (n : ℤ) (by omega : 0 ≤ -x)
  have hhigh := Int.tmod_lt_of_pos (-x) (Int.natCast_pos.mpr hpos)
  have heq := toUInt32_of_neg (x := x.tmod n) (by omega) (by omega)
  omega

namespace ScheduleServer

variable {s : ScheduleServer} {key : UInt32}

theorem mod_workerNum_lt (x : ℕ) : x % s.workerNum < s.workerNum := Nat.mod_lt x s.num_pos

theorem preempt_lt {workers : List ScheduledWorker} (hpos : 0 < workers.length) (round : UInt32)
    {rounds : ℕ} (hrounds : 0 < rounds) : (preempt workers round rounds).1 < workers.length := by
  obtain ⟨i, -, heq⟩ := @Rotation.exists_seek_eq (IsIdle workers) _
    (roundTarget round workers.length) rounds 0 0 hrounds
  show (Rotation.seek _ _ rounds 0 0).1 < workers.length
  rw [heq]
  exact Nat.mod_lt _ hpos

/-- The user id that a request is dispatched by does not have a negative remainder. -/
def UidFits (s : ScheduleServer) (key : UInt32) : Prop :=
  s.dispatchMode = .uidmod →
    ∀ conn ∈ s.connectionGet (toInt32 key.toNat), 0 ≤ conn.uid ∨ (s.workerNum : ℤ) ∣ conn.uid

theorem target_lt (h : s.UidFits key) : (s.target key).1 < s.workerNum := by
  unfold target
  cases hmode : s.dispatchMode with
  | round | fdmod => exact mod_workerNum_lt _
  | queue => exact preempt_lt s.num_pos _ (Nat.succ_pos _)
  | ipmod =>
    cases hconn : s.connectionGet (toInt32 key.toNat) with
    | none => exact mod_workerNum_lt _
    | some conn =>
      simp only
      split_ifs <;> exact mod_workerNum_lt _
  | uidmod =>
    cases hconn : s.connectionGet (toInt32 key.toNat) with
    | none => exact mod_workerNum_lt _
    | some conn =>
      simp only
      split_ifs
      · exact toUInt32_tmod_lt s.num_pos s.num_lt (h hmode conn hconn)
      · exact mod_workerNum_lt _

/-! ## Passing over workers -/

variable {target : ℕ}

/-- The numbers that the loop looks at; inside the list the `uint32_t` does not wrap. -/
theorem next_target (h : target < s.workerNum) :
    (target + 1) % 2 ^ 32 % s.workerNum = (target + 1) % s.workerNum := by
  have hlt := s.num_lt
  rw [Nat.mod_eq_of_lt (show target + 1 < 2 ^ 32 by unfold workerNum at h; omega)]

variable (left : ℕ)

theorem passDenied_of_not_denies (ht : target < s.workerNum) (h : ¬ Denies s.workers target) :
    s.passDenied left target = some target := by
  have hworker : s.workers[target]? = some s.workers[target] := getElem?_eq_getElem ht
  rw [Denies, hworker, Option.map_some, Option.some_inj] at h
  cases left <;> simp [passDenied, hworker, h]

/-- A worker that denies requests is passed over; in the last round worker `0` takes its place. -/
theorem passDenied_of_denies (h : Denies s.workers target) :
    s.passDenied 0 target = some 0 ∧ ∀ left, s.passDenied (left + 1) target =
      s.passDenied left ((target + 1) % 2 ^ 32 % s.workerNum) := by
  obtain ⟨worker, hworker, hdeny⟩ := Option.map_eq_some_iff.mp h
  simp [passDenied, hworker, hdeny]

/-- The loop ends at a worker: one that does not deny requests if it meets one, and otherwise `0`.
-/
theorem exists_passDenied : ∀ {target : ℕ}, target < s.workerNum →
    ∃ id, s.passDenied left target = some id ∧ id < s.workerNum ∧
      ((∃ k ≤ left, ¬ Denies s.workers ((target + k) % s.workerNum)) → ¬ Denies s.workers id) ∧
      (Denies s.workers id → id = 0) ∧ (¬ Denies s.workers target → id = target) := by
  induction left with
  | zero =>
    intro target ht
    by_cases hdeny : Denies s.workers target
    · refine ⟨0, (passDenied_of_denies hdeny).1, s.num_pos, ?_, fun _ => rfl, absurd hdeny⟩
      rintro ⟨k, hk, hnot⟩
      rw [Nat.le_zero.mp hk, add_zero, Nat.mod_eq_of_lt ht] at hnot
      exact absurd hdeny hnot
    · exact ⟨target, passDenied_of_not_denies 0 ht hdeny, ht, fun _ => hdeny,
        fun h => absurd h hdeny, fun _ => rfl⟩
  | succ left ih =>
    intro target ht
    by_cases hdeny : Denies s.workers target
    · obtain ⟨id, heq, hlt, hfound, hzero, -⟩ := ih (@mod_workerNum_lt s (target + 1))
      rw [← next_target ht, ← (passDenied_of_denies hdeny).2] at heq
      refine ⟨id, heq, hlt, ?_, hzero, absurd hdeny⟩
      rintro ⟨k, hk, hnot⟩
      cases k with
      | zero =>
        rw [add_zero, Nat.mod_eq_of_lt ht] at hnot
        exact absurd hdeny hnot
      | succ k =>
        refine hfound ⟨k, Nat.le_of_succ_le_succ hk, ?_⟩
        rwa [Nat.mod_add_mod, add_assoc, add_comm 1 k]
    · exact ⟨target, passDenied_of_not_denies (left + 1) ht hdeny, ht, fun _ => hdeny,
        fun h => absurd h hdeny, fun _ => rfl⟩

/-- In as many rounds as there are workers the loop meets all of them. -/
theorem exists_passDenied_all (ht : target < s.workerNum) :
    ∃ id, s.passDenied s.workerNum target = some id ∧ id < s.workerNum ∧
      ((∃ i < s.workerNum, ¬ Denies s.workers i) → ¬ Denies s.workers id) ∧
      (Denies s.workers id → id = 0) ∧ (¬ Denies s.workers target → id = target) := by
  obtain ⟨id, heq, hlt, hfound, hrest⟩ := exists_passDenied s.workerNum ht
  refine ⟨id, heq, hlt, ?_, hrest⟩
  rintro ⟨i, hi, hnot⟩
  obtain ⟨k, hk, hki⟩ := Rotation.exists_add_mod s.num_pos target hi
  exact hfound ⟨k, le_of_lt hk, hki ▸ hnot⟩

theorem passDenied_of_le (h : s.workerNum ≤ target) : s.passDenied left target = none := by
  have hnone : s.workers[target]? = none := getElem?_eq_none h
  cases left <;> simp [passDenied, hnone]

/-- **A worker is chosen.**  The id lies below `worker_num`, and the worker does not deny requests
if there is one that does not, exactly as long as the user id of the connection, in the mode that
uses it, is not a negative number with a remainder. -/
theorem worker_chosen_iff (s : ScheduleServer) (key : UInt32) :
    (∃ id round, s.workerSchedule key = some (id, round) ∧ id < s.workerNum ∧
      ((∃ i < s.workerNum, ¬ Denies s.workers i) → ¬ Denies s.workers id)) ↔ s.UidFits key := by
  constructor
  · rintro ⟨id, round, heq, -⟩ hmode conn hconn
    by_contra hnot
    obtain ⟨hneg, hdvd⟩ := not_or.mp hnot
    have hneg : conn.uid < 0 := Int.not_le.mp hneg
    have htarget : (s.target key).1 = toUInt32 (conn.uid.tmod s.workerNum) := by
      unfold target
      rw [hmode, Option.mem_def.mp hconn]
      exact congrArg Prod.fst (if_pos (Int.ne_of_lt hneg))
    have hbehind := le_toUInt32_tmod s.num_pos s.num_lt hneg hdvd
    rw [workerSchedule, htarget, passDenied_of_le _ hbehind] at heq
    exact nomatch heq
  · intro hfits
    obtain ⟨id, heq, hlt, hfound, -⟩ := exists_passDenied_all (target_lt hfits)
    exact ⟨id, (s.target key).2, by rw [workerSchedule, heq, Option.map_some], hlt, hfound⟩

/-- Two workers, and the user id `-1`: the target is `4294967295`. -/
def negativeUid : ScheduleServer where
  dispatchMode := .uidmod
  workers := [⟨.idle, 0⟩, ⟨.idle, 0⟩]
  workerRoundId := 0
  maxConnection := 1000
  connectionList := fun _ => ⟨true, 0, 0, -1⟩
  num_pos := by decide
  num_lt := by decide

theorem not_worker_chosen_negative :
    (negativeUid.target 3).1 = 4294967295 ∧ negativeUid.workerSchedule 3 = none := by
  decide

end ScheduleServer

/-! ## Idle workers first -/

/-- The workers with another assignment of states. -/
def setStatus (status : ℕ → WorkerStatus) (workers : List ScheduledWorker) : List ScheduledWorker :=
  workers.mapIdx fun i worker => { worker with status := status i }

/-- If any worker is idle, the chosen one is. -/
def IdleFirst (workers : List ScheduledWorker) (id : ℕ) : Prop :=
  (∃ i, IsIdle workers i) → IsIdle workers id

/-- The counter does not wrap inside the `num + 1` values from `round` on, or only behind the
first of them, or by at most one residue. -/
def WrapCovers (num : ℕ) (round : UInt32) : Prop :=
  round.toNat + num ≤ 2 ^ 32 ∨ round.toNat + 1 = 2 ^ 32 ∨ 2 ^ 32 % num ≤ 1

section Status

variable {status : ℕ → WorkerStatus} {workers : List ScheduledWorker}

@[simp] theorem length_setStatus : (setStatus status workers).length = workers.length :=
  length_mapIdx

theorem isIdle_setStatus {i : ℕ} :
    IsIdle (setStatus status workers) i ↔ i < workers.length ∧ status i = .idle := by
  unfold IsIdle setStatus
  rw [getElem?_mapIdx, Option.map_map]
  by_cases hi : i < workers.length
  · rw [getElem?_eq_getElem hi, Option.map_some, Option.some_inj]
    exact (and_iff_right hi).symm
  · rw [getElem?_eq_none (not_lt.mp hi)]
    exact ⟨fun h => (nomatch h), fun h => absurd h.1 hi⟩

theorem denies_setStatus {i : ℕ} : Denies (setStatus status workers) i ↔ Denies workers i := by
  unfold Denies setStatus
  rw [getElem?_mapIdx, Option.map_map]
  rfl

theorem idleFirst_only_iff {j id : ℕ} (hj : j < workers.length) :
    IdleFirst (setStatus (fun i => if i = j then .idle else .busy) workers) id ↔ id = j := by
  have hidle : ∀ i,
      IsIdle (setStatus (fun i => if i = j then .idle else .busy) workers) i ↔ i = j := by
    intro i
    rw [isIdle_setStatus]
    by_cases hi : i = j
    · simp [hi, hj]
    · simp [hi]
  unfold IdleFirst
  rw [hidle]
  exact ⟨fun h => h ⟨j, (hidle j).mpr rfl⟩, fun h _ => h⟩

/-- **The preemptive loop finds an idle worker**, whatever the states are, exactly for the
counters whose `num + 1` values meet every worker. -/
theorem idleFirst_preempt_iff (hpos : 0 < workers.length) (hlt : workers.length < 2 ^ 32)
    (round : UInt32) :
    (∀ status, IdleFirst (setStatus status workers)
      (preempt (setStatus status workers) round (workers.length + 1)).1) ↔
        WrapCovers workers.length round := by
  unfold WrapCovers
  rw [← Rotation.covers_iff hpos hlt round.toNat_lt]
  constructor
  · intro hall j hj
    have hchosen := (idleFirst_only_iff hj).mp (hall fun i => if i = j then .idle else .busy)
    obtain ⟨k, hk, heq⟩ := @Rotation.exists_seek_eq
      (IsIdle (setStatus (fun i => if i = j then .idle else .busy) workers)) _
      (roundTarget round workers.length) (workers.length + 1) 0 0 (Nat.succ_pos _)
    refine ⟨k, Nat.le_of_lt_succ hk, ?_⟩
    rw [← hchosen]
    simp only [preempt, length_setStatus]
    rw [heq, zero_add]
    rfl
  · rintro hcovers status ⟨i, hidle⟩
    obtain ⟨k, hk, heq⟩ := hcovers i (isIdle_setStatus.mp hidle).1
    simp only [preempt, length_setStatus]
    refine Rotation.seek_of_exists ⟨k, Nat.lt_succ_of_le hk, ?_⟩
    rw [zero_add, roundTarget, heq]
    exact hidle

end Status

namespace SchedulePool

variable (p : SchedulePool)

/-- The pool with another assignment of states. -/
def withStatus (status : ℕ → WorkerStatus) : SchedulePool :=
  { p with
    workers := setStatus status p.workers
    num_pos := by rw [length_setStatus]; exact p.num_pos
    num_lt := by rw [length_setStatus]; exact p.num_lt }

variable {p}

/-- The bound of the loop is one more than the number of workers, or below zero. -/
theorem rounds_eq : p.rounds = if p.runWorkerNum < 2 ^ 31 - 1 then p.runWorkerNum + 1 else 0 := by
  have hlt : p.runWorkerNum < 2 ^ 32 := p.num_lt
  unfold rounds
  split_ifs with hsmall
  · rw [toInt32_natCast (by omega), toInt32_of_lt (by omega) (by omega)]
    omega
  · by_cases hint : p.runWorkerNum < 2 ^ 31
    · rw [toInt32_natCast hint, toInt32_of_le (by omega) (by omega)]
      omega
    · have hneg : toInt32 p.runWorkerNum = p.runWorkerNum - 2 ^ 32 :=
        toInt32_of_le (by omega) (by omega)
      rw [hneg, toInt32_of_lt (by omega) (by omega)]
      omega

/-- A choice that does not look at the workers is right for one worker only. -/
theorem forall_idleFirst_zero_iff {workers : List ScheduledWorker} (hpos : 0 < workers.length) :
    (∀ status, IdleFirst (setStatus status workers) 0) ↔ workers.length = 1 := by
  constructor
  · intro hall
    by_contra hne
    have hone : 1 < workers.length := by omega
    exact absurd ((idleFirst_only_iff hone).mp (hall _)) (by decide)
  · rintro hone status ⟨i, hidle⟩
    obtain rfl : i = 0 := by
      have hi := (isIdle_setStatus.mp hidle).1
      omega
    exact hidle

theorem forall_idleFirst_schedule_iff :
    (∀ status, IdleFirst (p.withStatus status).workers (p.withStatus status).schedule.1) ↔
      if p.dispatchMode = .queue then p.runWorkerNum = 1
      else p.runWorkerNum < 2 ^ 31 - 1 ∧ WrapCovers p.runWorkerNum p.roundId := by
  by_cases hmode : p.dispatchMode = .queue
  · have hschedule : ∀ status, (p.withStatus status).schedule.1 = 0 := fun status => by
      rw [schedule, if_pos (show (p.withStatus status).dispatchMode = .queue from hmode)]
    simp only [hschedule, if_pos hmode]
    exact forall_idleFirst_zero_iff p.num_pos
  · have hschedule : ∀ status, (p.withStatus status).schedule.1 =
        (preempt (setStatus status p.workers) p.roundId p.rounds).1 := by
      intro status
      rw [schedule, if_neg (show (p.withStatus status).dispatchMode ≠ .queue from hmode)]
      have hrounds : (p.withStatus status).rounds = p.rounds := by
        unfold rounds
        rw [show (p.withStatus status).runWorkerNum = p.runWorkerNum from length_setStatus]
      rw [hrounds]
      rfl
    simp only [hschedule, if_neg hmode]
    rw [rounds_eq]
    by_cases hsmall : p.runWorkerNum < 2 ^ 31 - 1
    · rw [if_pos hsmall, and_iff_right hsmall]
      exact idleFirst_preempt_iff p.num_pos p.num_lt p.roundId
    · rw [if_neg hsmall]
      refine (forall_idleFirst_zero_iff p.num_pos).trans
        ⟨fun hone => ?_, fun h => absurd h.1 hsmall⟩
      have hone : p.runWorkerNum = 1 := hone
      omega

end SchedulePool

namespace ScheduleServer

variable (s : ScheduleServer)

/-- The server with another assignment of states. -/
def withStatus (status : ℕ → WorkerStatus) : ScheduleServer :=
  { s with
    workers := setStatus status s.workers
    num_pos := by rw [length_setStatus]; exact s.num_pos
    num_lt := by rw [length_setStatus]; exact s.num_lt }

/-- An idle worker is chosen if there is one. -/
def ChoosesIdle (key : UInt32) : Prop :=
  ∃ id round, s.workerSchedule key = some (id, round) ∧ IdleFirst s.workers id

variable {s} {key : UInt32}

/-- In the preemptive mode the choice is made among the idle workers, and then passes over those
that deny requests. -/
theorem exists_schedule_withStatus (hmode : s.dispatchMode = .queue) (key : UInt32)
    (status : ℕ → WorkerStatus) :
    ∃ id round, (s.withStatus status).workerSchedule key = some (id, round) ∧ id < s.workerNum ∧
      ((∃ i < s.workerNum, ¬ Denies s.workers i) → ¬ Denies s.workers id) ∧
      (Denies s.workers id → id = 0) ∧
      ((∀ i, ¬ Denies s.workers i) → id =
        (preempt (setStatus status s.workers) s.workerRoundId (s.workerNum + 1)).1) := by
  have htarget : (s.withStatus status).target key =
      preempt (setStatus status s.workers) s.workerRoundId (s.workerNum + 1) := by
    unfold target
    rw [show (s.withStatus status).dispatchMode = .queue from hmode]
    show preempt _ _ ((setStatus status s.workers).length + 1) = _
    rw [length_setStatus]
    rfl
  have hnum : (s.withStatus status).workerNum = s.workerNum := length_setStatus
  have hdenies : ∀ i, Denies (s.withStatus status).workers i ↔ Denies s.workers i := fun i =>
    denies_setStatus
  have hlt : ((s.withStatus status).target key).1 < (s.withStatus status).workerNum :=
    target_lt fun huid => absurd (hmode.symm.trans huid) (by decide)
  obtain ⟨id, heq, hid, hfound, hzero, hsame⟩ := exists_passDenied_all hlt
  simp only [hdenies, hnum] at hid hfound hzero hsame
  refine ⟨id, _, by rw [workerSchedule, heq, Option.map_some], hid, hfound, hzero, fun hnone => ?_⟩
  rw [hsame (hnone _), htarget]

theorem forall_choosesIdle_iff (hmode : s.dispatchMode = .queue) (key : UInt32) :
    (∀ status, (s.withStatus status).ChoosesIdle key) ↔
      WrapCovers s.workerNum s.workerRoundId ∧
        (s.workerNum = 1 ∨ ∀ i < s.workerNum, ¬ Denies s.workers i) := by
  have hnever : (∀ i < s.workerNum, ¬ Denies s.workers i) → ∀ i, ¬ Denies s.workers i := by
    intro hall i hdenies
    by_cases hi : i < s.workerNum
    · exact hall i hi hdenies
    · rw [Denies, getElem?_eq_none (not_lt.mp hi)] at hdenies
      exact nomatch hdenies
  -- a worker that denies requests is not chosen, nor is any but the first one if all of them do
  have hpassed : ∀ j < s.workerNum, (Denies s.workers j ∧ ∃ i < s.workerNum, ¬ Denies s.workers i) ∨
      ((∀ i < s.workerNum, Denies s.workers i) ∧ j ≠ 0) →
        ¬ ∀ status, (s.withStatus status).ChoosesIdle key := by
    intro j hj hcase hall
    obtain ⟨id, round, heq, hidle⟩ := hall fun i => if i = j then .idle else .busy
    obtain ⟨id', round', heq', hlt, hfound, hzero, -⟩ :=
      exists_schedule_withStatus hmode key fun i => if i = j then .idle else .busy
    obtain ⟨rfl, rfl⟩ := Prod.mk.inj (Option.some.inj (heq.symm.trans heq'))
    obtain rfl := (idleFirst_only_iff hj).mp hidle
    rcases hcase with ⟨hdenies, hother⟩ | ⟨hdenies, hne⟩
    · exact hfound hother hdenies
    · exact hne (hzero (hdenies id hlt))
  constructor
  · intro hall
    by_cases hone : s.workerNum = 1
    · refine ⟨.inr (.inr ?_), .inl hone⟩
      rw [hone, Nat.mod_one]
      exact Nat.zero_le 1
    · have hpos : 0 < s.workerNum := s.num_pos
      have hnone : ∀ i < s.workerNum, ¬ Denies s.workers i := by
        intro j hj hdenies
        by_cases hother : ∃ i < s.workerNum, ¬ Denies s.workers i
        · exact hpassed j hj (.inl ⟨hdenies, hother⟩) hall
        · refine hpassed 1 (by omega) (.inr ⟨fun i hi => ?_, Nat.one_ne_zero⟩) hall
          exact not_not.mp fun hnot => hother ⟨i, hi, hnot⟩
      refine ⟨(idleFirst_preempt_iff s.num_pos (lt_trans s.num_lt (by decide)) _).mp ?_,
        .inr hnone⟩
      intro status
      obtain ⟨id, round, heq, hidle⟩ := hall status
      obtain ⟨id', round', heq', -, -, -, hsame⟩ := exists_schedule_withStatus hmode key status
      obtain ⟨rfl, rfl⟩ := Prod.mk.inj (Option.some.inj (heq.symm.trans heq'))
      exact hsame (hnever hnone) ▸ hidle
  · rintro ⟨hcovers, hcase⟩ status
    obtain ⟨id, round, heq, hlt, -, -, hsame⟩ := exists_schedule_withStatus hmode key status
    refine ⟨id, round, heq, ?_⟩
    rcases hcase with hone | hnone
    · rintro ⟨i, hidle⟩
      have hi : i < s.workerNum := (isIdle_setStatus.mp hidle).1
      rwa [show id = i by omega]
    · rw [hsame (hnever hnone)]
      exact (idleFirst_preempt_iff s.num_pos (lt_trans s.num_lt (by decide)) _).mpr hcovers status

end ScheduleServer

/-- **Idle workers come first**, whatever the states of the workers are: in the pool, exactly if
it is not in the queue mode (or has one worker), the bound of the loop is an `int`, and the
counter meets every worker before or behind its wrap; in the preemptive mode of the server,
exactly if the counter does and no worker denies requests (or there is one worker). -/
theorem idle_first_iff (pool : SchedulePool) (serv : ScheduleServer)
    (hmode : serv.dispatchMode = .queue) (key : UInt32) :
    ((∀ status, IdleFirst (pool.withStatus status).workers (pool.withStatus status).schedule.1) ↔
      if pool.dispatchMode = .queue then pool.runWorkerNum = 1
      else pool.runWorkerNum < 2 ^ 31 - 1 ∧ WrapCovers pool.runWorkerNum pool.roundId) ∧
    ((∀ status, (serv.withStatus status).ChoosesIdle key) ↔
      WrapCovers serv.workerNum serv.workerRoundId ∧
        (serv.workerNum = 1 ∨ ∀ i < serv.workerNum, ¬ Denies serv.workers i)) :=
  ⟨SchedulePool.forall_idleFirst_schedule_iff, ScheduleServer.forall_choosesIdle_iff hmode key⟩

/-- Six workers, and a counter. -/
def sixWorkers (round : UInt32) : ScheduleServer where
  dispatchMode := .queue
  workers := replicate 6 ⟨.busy, 0⟩
  workerRoundId := round
  maxConnection := 1000
  connectionList := fun _ => ⟨true, 0, 0, 0⟩
  num_pos := by decide
  num_lt := by decide

/-- A pool of six workers, and a counter. -/
def sixTaskWorkers (round : UInt32) : SchedulePool where
  dispatchMode := .round
  workers := replicate 6 ⟨.busy, 0⟩
  roundId := round
  num_pos := by decide
  num_lt := by decide

theorem idle_first_six_workers :
    (∀ status, IdleFirst ((sixTaskWorkers 0).withStatus status).workers
      ((sixTaskWorkers 0).withStatus status).schedule.1) ∧
    ∀ status, ((sixWorkers 0).withStatus status).ChoosesIdle 3 := by
  obtain ⟨hpool, hserv⟩ := idle_first_iff (sixTaskWorkers 0) (sixWorkers 0) rfl 3
  refine ⟨hpool.mpr ⟨by decide, .inl (by decide)⟩, hserv.mpr ⟨.inl (by decide), .inr ?_⟩⟩
  decide

/-- With `2 ^ 32 - 2` for the counter the workers `2`, `3`, `0`, `1`, `2`, `3`, `4` are looked at;
the only idle worker is the last one. -/
theorem not_idle_first_wrap :
    let status : ℕ → WorkerStatus := fun i => if i = 5 then .idle else .busy
    IsIdle ((sixTaskWorkers 4294967294).withStatus status).workers 5 ∧
      ¬ IsIdle ((sixTaskWorkers 4294967294).withStatus status).workers 4 ∧
      ((sixTaskWorkers 4294967294).withStatus status).schedule = (4, 5) ∧
      ((sixWorkers 4294967294).withStatus status).workerSchedule 3 = some (4, 5) := by
  decide

end Swoole
