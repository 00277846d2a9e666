import Swoole.Library.StepRun
import Swoole.Network.Manager

/-!
# `swManager_loop_sync`

The manager waits for its children and replaces those that have exited.  A reload copies the pids
of the workers into `reload_workers`, and from then on each round of the loop sends a `SIGTERM` to
one of them.

A reload is asked for by a signal, which only sets flags.  The loop copies the workers when `wait`
has failed, as it does when the signal interrupts it.  But the end of the round sends a `SIGTERM`
whenever `reloading` is set.  If the signal comes at another time, `wait` may next return a child,
and the pid that is killed is one that no copy has put there: zero in the first reload, and one of
an earlier reload later on.  With no task workers, `SIGUSR2` does not lead to a copy at all.
-/

namespace Swoole

open StepRun List ManagerProcess

/-- A `SIGTERM` of the reload step, and what was copied for this reload. -/
structure ReloadKill where
  pid : ℕ
  snapshot : Option (List ℕ)
  deriving DecidableEq, Repr

/-- The state of `swManager_loop_sync`.  `snapshot` is what was copied for the reload that was
asked for last, and `kills` are the `SIGTERM`s of the reload step. -/
structure SyncManager where
  process : ManagerProcess
  workers : List ℕ
  tasks : TaskPool
  reloadWorkers : List ℕ
  reloadWorkerI : ℕ
  reloadWorkerNum : ℕ
  place : ManagerPlace
  snapshot : Option (List ℕ)
  kills : List ReloadKill

namespace SyncManager

/-- `swManager_start` up to the loop, where the answers of `fork` for the task workers are
`taskForks`. -/
def init (workers : List ℕ) (taskForks : List (Option ℕ)) : SyncManager where
  process := .init
  workers := workers
  tasks := .start taskForks
  reloadWorkers := List.replicate (workers.length + taskForks.length) 0
  reloadWorkerI := 0
  reloadWorkerNum := workers.length + taskForks.length
  place := .waiting
  snapshot := none
  kills := []

inductive Event where
  /-- A signal comes when the manager is not blocked in `wait`. -/
  | signal (sig : ManagerSignal)
  /-- A signal interrupts `wait`. -/
  | interrupt (sig : ManagerSignal)
  /-- `wait` fails for another reason. -/
  | waitFails
  /-- `wait` returns a child. -/
  | exit (pid : ℕ)
  /-- The flags are tested. -/
  | check
  /-- What has exited is replaced; the answers of `fork` for a worker and for a task worker. -/
  | reap (forks : ℕ → ℕ) (taskFork : Option ℕ) (pick : ℕ)
  /-- The reload step. -/
  | kill

variable (m : SyncManager)

/-- A signal is handled.  If a reload begins, nothing has been copied for it. -/
def signal (sig : ManagerSignal) : SyncManager :=
  { m with
    process := m.process.signalHandle sig
    snapshot := if m.process.Begins sig then none else m.snapshot }

/-- The next round of the loop. -/
def nextRound : SyncManager := { m with place := m.process.nextPlace }

/-- `memcpy` into `reload_workers`. -/
def copyWorkers (pids : List ℕ) : SyncManager :=
  { m with
    reloadWorkers := pids ++ m.reloadWorkers.drop pids.length
    reloadWorkerNum := pids.length
    reloadWorkerI := 0
    snapshot := some pids
    place := .killing }

/-- All workers are copied. -/
def snapshotAll : SyncManager :=
  { m.copyWorkers (m.workers ++ m.tasks.pids) with
    process := { m.process with reloadEventWorker := false } }

/-- The task workers are copied. -/
def snapshotTasks : SyncManager :=
  { m.copyWorkers m.tasks.pids with
    process := { m.process with reloadTaskWorker := false } }

/-- What follows `wait`. -/
def check (pid : Option ℕ) : SyncManager :=
  match m.process.afterWait pid (m.tasks.workers ≠ []) with
  | .reap => { m with place := .reaping pid }
  | .copyAll => m.snapshotAll
  | .copyTasks => m.snapshotTasks
  | .nextRound => m.nextRound

/-- The loop over the workers from index `i` on.  Once a worker has been replaced, the pid is
zero. -/
def replaceWorkers (forks : ℕ → ℕ) : ℕ → ℕ → List ℕ → List ℕ × ℕ
  | _, pid, [] => ([], pid)
  | i, pid, worker :: workers =>
    if pid = worker then
      let (rest, pid') := replaceWorkers forks (i + 1) 0 workers
      (forks i :: rest, pid')
    else
      let (rest, pid') := replaceWorkers forks (i + 1) pid workers
      (worker :: rest, pid')

/-- A worker or a task worker that has exited is replaced. -/
def replace (pid : ℕ) (forks : ℕ → ℕ) (taskFork : Option ℕ) (pick : ℕ) : SyncManager :=
  let (workers, pid') := replaceWorkers forks 0 pid m.workers
  { m with
    workers := workers
    tasks := if 0 < pid' then m.tasks.exited pid' taskFork pick else m.tasks }

def reap (pid : Option ℕ) (forks : ℕ → ℕ) (taskFork : Option ℕ) (pick : ℕ) : SyncManager :=
  match pid with
  | some pid =>
    if m.process.running then { m.replace pid forks taskFork pick with place := .killing }
    else { m with place := .killing }
  | none => { m with place := .killing }

/-- The reload step. -/
def kill : SyncManager :=
  if m.process.reloading then
    if m.reloadWorkerNum ≤ m.reloadWorkerI then
      nextRound
        { m with process := { m.process with reloading := false }, reloadWorkerI := 0 }
    else
      nextRound
        { m with
          kills := ⟨m.reloadWorkers.getD m.reloadWorkerI 0, m.snapshot⟩ :: m.kills
          reloadWorkerI := m.reloadWorkerI + 1 }
  else m.nextRound

/-- **One step.**  An event that does not fit the place of the loop does nothing. -/
def step (m : SyncManager) (event : Event) : SyncManager :=
  match event, m.place with
  | .signal sig, _ => m.signal sig
  | .interrupt sig, .waiting => { m.signal sig with place := .returned none }
  | .waitFails, .waiting => { m with place := .returned none }
  | .exit pid, .waiting => { m with place := .returned (some pid) }
  | .check, .returned pid => m.check pid
  | .reap forks taskFork pick, .reaping pid => m.reap pid forks taskFork pick
  | .kill, .killing => m.kill
  | _, _ => m

/-- A new process has a pid. -/
def Admissible (m : SyncManager) : Event → Prop
  | .reap forks taskFork _ => (∀ i < m.workers.length, 0 < forks i) ∧ ∀ pid ∈ taskFork, 0 < pid
  | .signal _ | .interrupt _ | .waitFails | .exit _ | .check | .kill => True

instance (m : SyncManager) (event : Event) : Decidable (m.Admissible event) := by
  unfold Admissible
  split <;> infer_instance

/-- **The contract**: what the reload step kills was copied for this reload, and has a pid. -/
def Sound (m : SyncManager) : Prop :=
  ∀ k ∈ m.kills, k.pid ≠ 0 ∧ ∃ pids ∈ k.snapshot, k.pid ∈ pids
  deriving Decidable

/-- The workers can be copied before the next reload step. -/
def Early : ManagerPlace → Prop
  | .waiting | .returned none | .stopped => True
  | .returned (some _) | .reaping _ | .killing => False

instance : ∀ place, Decidable (Early place)
  | .waiting | .returned none | .stopped => .isTrue trivial
  | .returned (some _) | .reaping _ | .killing => .isFalse id

/-- A reload begins in front of `wait`, in it or when it has just failed, and `wait` returns no
child while the workers are still to be copied. -/
def Timely (m : SyncManager) : Event → Prop
  | .signal sig => m.process.Begins sig → Early m.place
  | .exit _ => ¬ m.process.Pending
  | .interrupt _ | .waitFails | .check | .reap _ _ _ | .kill => True

instance (m : SyncManager) (event : Event) : Decidable (m.Timely event) := by
  unfold Timely
  split <;> infer_instance

/-! ## The invariant -/

variable {m : SyncManager}

/-- How far a reload is. -/
inductive Reload (m : SyncManager) : Prop
  | none (hreloading : m.process.reloading = false) (hpending : ¬ m.process.Pending)
  /-- The workers are to be copied when `wait` has failed. -/
  | asked (hasked : m.process.Asked) (hplace : Early m.place)
  /-- The workers have been copied. -/
  | copied (pids : List ℕ) (hreloading : m.process.reloading = true)
      (hpending : ¬ m.process.Pending) (hsnapshot : m.snapshot = some pids)
      (hcopy : pids <+: m.reloadWorkers) (hnum : m.reloadWorkerNum = pids.length)
      (hpids : ∀ pid ∈ pids, 0 < pid)

structure Inv (m : SyncManager) : Prop where
  sound : m.Sound
  workers : ∀ pid ∈ m.workers, 0 < pid
  tasks : ∀ pid ∈ m.tasks.pids, 0 < pid
  reload : m.Reload

variable {workers : List ℕ}

theorem init_inv {taskForks : List (Option ℕ)} (hworkers : ∀ pid ∈ workers, 0 < pid)
    (htasks : ∀ fork ∈ taskForks, ∃ pid, fork = some pid ∧ 0 < pid) :
    (init workers taskForks).Inv :=
  ⟨nofun, hworkers, TaskPool.start_pids htasks,
    .none rfl (by simp [init, ManagerProcess.Pending, ManagerProcess.init])⟩

/-- A reload that has not been asked for anew is where it was, if the loop does not get closer to
the reload step. -/
theorem Reload.congr {m' : SyncManager} (h : m.Reload)
    (hreloading : m'.process.reloading = m.process.reloading)
    (hevent : m'.process.reloadEventWorker = m.process.reloadEventWorker)
    (htask : m'.process.reloadTaskWorker = m.process.reloadTaskWorker)
    (hsnapshot : m'.snapshot = m.snapshot) (hcopy : m'.reloadWorkers = m.reloadWorkers)
    (hnum : m'.reloadWorkerNum = m.reloadWorkerNum)
    (hplace : m.process.Pending → Early m.place → Early m'.place) : m'.Reload := by
  have hpending : m'.process.Pending ↔ m.process.Pending := by
    unfold ManagerProcess.Pending
    rw [hevent, htask]
  cases h with
  | none h0 h1 => exact .none (hreloading.trans h0) (fun h => h1 (hpending.mp h))
  | asked hasked hearly =>
    refine .asked ⟨hreloading.trans hasked.1, ?_⟩ (hplace hasked.pending hearly)
    rw [hevent, htask]
    exact hasked.2
  | copied pids h0 h1 h2 h3 h4 h5 =>
    exact .copied pids (hreloading.trans h0) (fun h => h1 (hpending.mp h)) (hsnapshot.trans h2)
      (hcopy ▸ h3) (hnum.trans h4) h5

/-! ## Steps -/

/-- **A signal** is handled. -/
theorem Reload.signal (h : m.Reload) {sig : ManagerSignal}
    (hearly : m.process.Begins sig → Early m.place) : (m.signal sig).Reload := by
  by_cases hbegins : m.process.Begins sig
  · have hpending : ¬ m.process.Pending := by
      cases h with
      | none _ hpending => exact hpending
      | asked hasked => exact absurd (hbegins.2.symm.trans hasked.1) Bool.false_ne_true
      | copied _ hreloading => exact absurd (hbegins.2.symm.trans hreloading) Bool.false_ne_true
    exact .asked (signalHandle_of_begins hbegins hpending) (hearly hbegins)
  · obtain ⟨hreloading, hevent, htask⟩ := signalHandle_of_not_begins hbegins
    exact h.congr hreloading hevent htask (if_neg hbegins) rfl rfl fun _ hplace => hplace

theorem Reload.nextRound (h : m.Reload) : m.nextRound.Reload := by
  refine h.congr rfl rfl rfl rfl rfl rfl fun _ _ => ?_
  unfold SyncManager.nextRound nextPlace
  split_ifs <;> trivial

/-- **The workers are copied.** -/
theorem copyWorkers_reload {process : ManagerProcess} {pids : List ℕ}
    (hreloading : process.reloading = true) (hpending : ¬ process.Pending)
    (hpids : ∀ pid ∈ pids, 0 < pid) :
    Reload { m.copyWorkers pids with process := process } :=
  .copied pids hreloading hpending rfl (prefix_append ..) rfl hpids

variable {pid : Option ℕ}

/-- **The flags are tested.** -/
theorem Inv.check (h : m.Inv) (hplace : m.place = .returned pid) : (m.check pid).Inv := by
  unfold SyncManager.check
  split
  · rename_i hreap
    refine ⟨h.sound, h.workers, h.tasks, h.reload.congr rfl rfl rfl rfl rfl rfl ?_⟩
    intro hpending hearly
    -- nothing is to be copied, or `wait` has returned a child
    rcases afterWait_reap hreap with hpid | hreloading | hnot
    · obtain ⟨pid, rfl⟩ := Option.ne_none_iff_exists'.mp hpid
      rw [hplace] at hearly
      exact hearly.elim
    · cases h.reload with
      | none _ hnot => exact absurd hpending hnot
      | asked hasked => exact absurd (hreloading.symm.trans hasked.1) Bool.false_ne_true
      | copied _ _ hnot => exact absurd hpending hnot
    · exact absurd hpending hnot
  · rename_i hcopy
    obtain ⟨hreloading, hevent⟩ := afterWait_copyAll hcopy
    -- exactly one of the two flags is set, and it is the one for all workers
    have htask : m.process.reloadTaskWorker = false := by
      cases h.reload with
      | none _ hnot => exact absurd (.inl hevent) hnot
      | copied _ _ hnot => exact absurd (.inl hevent) hnot
      | asked hasked =>
        have hne := hasked.2
        rw [hevent] at hne
        exact eq_false_of_ne_true hne.symm
    refine ⟨h.sound, h.workers, h.tasks, copyWorkers_reload hreloading ?_ fun pid hpid => ?_⟩
    · simp [ManagerProcess.Pending, htask]
    · exact (mem_append.mp hpid).elim (h.workers pid) (h.tasks pid)
  · rename_i hcopy
    obtain ⟨hreloading, hevent, -⟩ := afterWait_copyTasks hcopy
    refine ⟨h.sound, h.workers, h.tasks, copyWorkers_reload hreloading ?_ h.tasks⟩
    simp [ManagerProcess.Pending, hevent]
  · exact ⟨h.sound, h.workers, h.tasks, h.reload.nextRound⟩

theorem replaceWorkers_pos (forks : ℕ → ℕ) (i pid : ℕ)
    (hforks : ∀ k < i + workers.length, 0 < forks k) (hworkers : ∀ worker ∈ workers, 0 < worker) :
    ∀ worker ∈ (replaceWorkers forks i pid workers).1, 0 < worker := by
  induction workers generalizing i pid with
  | nil => nofun
  | cons worker workers ih =>
    have hrest : ∀ k < i + 1 + workers.length, 0 < forks k := fun k hk =>
      hforks k (by rw [length_cons]; omega)
    have hpos := fun pid => ih (i + 1) pid hrest fun w hw =>
      hworkers w (mem_cons_of_mem worker hw)
    intro w hw
    rw [replaceWorkers] at hw
    split_ifs at hw
    · rcases mem_cons.mp hw with rfl | hw
      · exact hforks i (by simp)
      · exact hpos 0 w hw
    · rcases mem_cons.mp hw with rfl | hw
      · exact hworkers w mem_cons_self
      · exact hpos pid w hw

/-- **What has exited is replaced.** -/
theorem Inv.reap (h : m.Inv) (hplace : m.place = .reaping pid) {forks : ℕ → ℕ}
    {taskFork : Option ℕ} (pick : ℕ) (hforks : ∀ i < m.workers.length, 0 < forks i)
    (htaskFork : ∀ pid ∈ taskFork, 0 < pid) : (m.reap pid forks taskFork pick).Inv := by
  have hlate : m.process.Pending → Early m.place → False := fun _ hearly => by
    rwa [hplace] at hearly
  have hsame : Inv { m with place := .killing } :=
    ⟨h.sound, h.workers, h.tasks,
      h.reload.congr rfl rfl rfl rfl rfl rfl fun hpending hearly => (hlate hpending hearly).elim⟩
  unfold SyncManager.reap
  split
  · rename_i pid
    split_ifs
    · refine ⟨h.sound, ?_, ?_,
        h.reload.congr rfl rfl rfl rfl rfl rfl fun hpending hearly => (hlate hpending hearly).elim⟩
      · exact replaceWorkers_pos forks 0 pid (by rwa [Nat.zero_add]) h.workers
      · intro other hother
        simp only [replace] at hother
        split_ifs at hother
        · rcases TaskPool.mem_pids_exited hother with hold | hnew
          · exact h.tasks other hold
          · exact htaskFork other (TaskPool.mem_of_respawned hnew)
        · exact h.tasks other hother
    · exact hsame
  · exact hsame

/-- **The reload step.** -/
theorem Inv.kill (h : m.Inv) (hplace : m.place = .killing) : m.kill.Inv := by
  have hlate : ¬ Early m.place := by
    rw [hplace]
    exact id
  unfold SyncManager.kill
  split_ifs with hreloading hdone
  · have hpending : ¬ m.process.Pending := by
      cases h.reload with
      | none _ hnot => exact hnot
      | asked _ hearly => exact absurd hearly hlate
      | copied _ _ hnot => exact hnot
    exact ⟨h.sound, h.workers, h.tasks, Reload.nextRound (.none rfl hpending)⟩
  · cases h.reload with
    | none hnot => exact absurd (hnot.symm.trans hreloading) Bool.false_ne_true
    | asked _ hearly => exact absurd hearly hlate
    | copied pids hr hpending hsnapshot hcopy hnum hpids =>
      -- the pid is read below `reload_worker_num`, where the copy is
      have hlt : m.reloadWorkerI < pids.length := by omega
      have hmem : m.reloadWorkers.getD m.reloadWorkerI 0 ∈ pids := by
        obtain ⟨rest, hrest⟩ := hcopy
        rw [getD_eq_getElem?_getD, ← hrest, getElem?_append_left hlt, getElem?_eq_getElem hlt]
        exact getElem_mem hlt
      refine ⟨fun k hk => ?_, h.workers, h.tasks,
        Reload.nextRound (.copied pids hr hpending hsnapshot hcopy hnum hpids)⟩
      rcases mem_cons.mp hk with rfl | hk
      · exact ⟨(hpids _ hmem).ne', pids, hsnapshot, hmem⟩
      · exact h.sound k hk
  · exact ⟨h.sound, h.workers, h.tasks, h.reload.nextRound⟩

/-- **One step.** -/
theorem Inv.step (h : m.Inv) {event : Event} (hadm : m.Admissible event)
    (htimely : m.Timely event) : (m.step event).Inv := by
  unfold SyncManager.step
  split
  · exact ⟨h.sound, h.workers, h.tasks, h.reload.signal htimely⟩
  · rename_i sig hplace
    have hsignal : (m.signal sig).Reload := h.reload.signal fun _ => by rw [hplace]; trivial
    exact ⟨h.sound, h.workers, h.tasks, hsignal.congr rfl rfl rfl rfl rfl rfl fun _ _ => trivial⟩
  · exact ⟨h.sound, h.workers, h.tasks, h.reload.congr rfl rfl rfl rfl rfl rfl fun _ _ => trivial⟩
  · exact ⟨h.sound, h.workers, h.tasks,
      h.reload.congr rfl rfl rfl rfl rfl rfl fun hpending _ => absurd hpending htimely⟩
  · rename_i pid hplace
    exact h.check hplace
  · rename_i forks taskFork pick pid hplace
    exact h.reap hplace pick hadm.1 hadm.2
  · rename_i hplace
    exact h.kill hplace
  · exact h

/-- **Only workers that were copied for the reload are killed**, if all forks of the start have
succeeded and every reload is timely. -/
theorem reload_kills_run (workers : List ℕ) (taskForks : List (Option ℕ)) (events : List Event)
    (hworkers : ∀ pid ∈ workers, 0 < pid)
    (htasks : ∀ fork ∈ taskForks, ∃ pid, fork = some pid ∧ 0 < pid)
    (hadm : EachStep step Admissible (init workers taskForks) events)
    (htimely : EachStep step Timely (init workers taskForks) events) (used : List Event)
    (hused : used <+: events) : (run step (init workers taskForks) used).Sound := by
  have hinv : (run step (init workers taskForks) used).Inv :=
    EachStep.run_invariant (P := Inv) (fun _ _ h hevent => h.step hevent.1 hevent.2)
      ((hadm.and htimely).restrict hused) (init_inv hworkers htasks)
  exact hinv.sound

/-- Two workers and a task worker.  A reload interrupts `wait`, and each of the three is killed
when the one before has been replaced. -/
theorem reload_kills_three_workers :
    let m := init [100, 101] [some 102]
    let round (pid fork : ℕ) : List Event :=
      [.exit pid, .check, .reap (fun _ => fork) (some fork) 0, .kill]
    let events : List Event :=
      [.interrupt .usr1, .check, .kill] ++ round 100 103 ++ round 101 104 ++ round 102 105
    EachStep step Admissible m events ∧ EachStep step Timely m events ∧
      ((run step m events).kills.map ReloadKill.pid) = [102, 101, 100] ∧
      (run step m events).workers = [103, 104] ∧ (run step m events).tasks.pids = [105] ∧
      (run step m events).process.reloading = false ∧ (run step m events).Sound :=
  ⟨by decide, by decide, by decide, by decide, by decide, by decide,
    reload_kills_run _ _ _ (by decide) (by simp) (by decide) (by decide) _ (prefix_refl _)⟩

/-- The signal comes while a worker that has exited is being replaced.  The reload step follows
at once, and kills the pid zero. -/
theorem kills_zero :
    let events : List Event :=
      [.exit 100, .check, .signal .usr1, .reap (fun _ => 101) none 0, .kill]
    EachStep step Admissible (init [100] []) events ∧
      (run step (init [100] []) events).kills = [⟨0, none⟩] ∧
      ¬ (run step (init [100] []) events).Sound := by
  decide

end SyncManager

end Swoole
