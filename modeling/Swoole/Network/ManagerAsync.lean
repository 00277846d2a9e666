import Swoole.Library.StepRun
import Swoole.Network.Manager
import Mathlib.Data.List.Nodup

/-!
# `swManager_loop_async`

In this loop a reload starts the new workers before the old ones are gone.  The reload step forks a
process for every slot of `serv->workers`, records it in `pidMap` under the pid of the old one and
sends that a signal.  When a worker has exited, its slot gets the pid that the map has for it.

So a worker that exits without a reload is not replaced: the map has nothing for it, and its slot
gets the pid zero.  And if the new process has exited before the old one, the slot gets the pid of
a process that has been reaped already.

`alive` are the processes that have not been reaped, and `forked` all processes that the manager
has started, each with the slot it was started for.
-/

open List Option

namespace Swoole

open StepRun

/-- What a process was forked for. -/
inductive ProcessRole where
  | worker (slot : ℕ)
  | task
  deriving DecidableEq, Repr

structure Process where
  pid : ℕ
  role : ProcessRole
  deriving DecidableEq, Repr

/-- The state of `swManager_loop_async`. -/
structure AsyncManager where
  process : ManagerProcess
  workers : List ℕ
  tasks : TaskPool
  reloadWorkers : List ℕ
  pidMap : PidMap
  place : ManagerPlace
  alive : List Process
  forked : List Process

namespace AsyncManager

/-- One process per slot. -/
def slotProcesses (workers : List ℕ) : List Process :=
  workers.mapIdx fun i pid => ⟨pid, .worker i⟩

/-- The processes of `swManager_start`. -/
def startProcesses (workers : List ℕ) (taskForks : List ℕ) : List Process :=
  slotProcesses workers ++ taskForks.map fun pid => ⟨pid, .task⟩

/-- `swManager_start` up to the loop; all of its forks have succeeded. -/
def init (workers taskForks : List ℕ) : AsyncManager where
  process := .init
  workers := workers
  tasks := .start (taskForks.map some)
  reloadWorkers := replicate (workers.length + taskForks.length) 0
  pidMap := .empty
  place := .waiting
  alive := startProcesses workers taskForks
  forked := startProcesses workers taskForks

inductive Event where
  /-- A signal comes when the manager is not blocked in `wait`. -/
  | signal (sig : ManagerSignal)
  /-- A signal interrupts `wait`. -/
  | interrupt (sig : ManagerSignal)
  /-- `wait` fails for another reason. -/
  | waitFails
  /-- `wait` returns a child. -/
  | exit (pid : ℕ)
  /-- The flags are tested. -/
  | check
  /-- What has exited is replaced; the answer of `fork` for a task worker. -/
  | reap (taskFork : Option ℕ) (pick : ℕ)
  /-- The reload step; the answers of `fork` by slot. -/
  | reload (forks : ℕ → ℕ)

variable (m : AsyncManager)

def signal (sig : ManagerSignal) : AsyncManager :=
  { m with process := m.process.signalHandle sig }

/-- `wait` reaps a child. -/
def exit (pid : ℕ) : AsyncManager :=
  { m with
    alive := m.alive.filter fun p => p.pid ≠ pid
    place := .returned (some pid) }

def nextRound : AsyncManager := { m with place := m.process.nextPlace }

/-- `memcpy` into `reload_workers`. -/
def copyWorkers (pids : List ℕ) : AsyncManager :=
  { m with
    reloadWorkers := pids ++ m.reloadWorkers.drop pids.length
    place := .killing }

/-- What follows `wait`. -/
def check (pid : Option ℕ) : AsyncManager :=
  match m.process.afterWait pid (m.tasks.workers ≠ []) with
  | .reap => { m with place := .reaping pid }
  | .copyAll =>
    { m.copyWorkers (m.workers ++ m.tasks.pids) with
      process := { m.process with reloadEventWorker := false } }
  | .copyTasks =>
    { m.copyWorkers m.tasks.pids with
      process := { m.process with reloadTaskWorker := false } }
  | .nextRound => m.nextRound

/-- The pid that a slot gets when its worker has exited. -/
def newPid (pid pick : ℕ) : ℕ := (m.pidMap.find pid pick).getD 0

/-- The loop over the workers, and the task worker if there is one with the pid. -/
def replace (pid : ℕ) (taskFork : Option ℕ) (pick : ℕ) : AsyncManager :=
  let new := ((m.tasks.respawned pid taskFork pick).map fun pid => ⟨pid, .task⟩).toList
  { m with
    workers := m.workers.map fun worker => if pid = worker then m.newPid pid pick else worker
    tasks := m.tasks.exited pid taskFork pick
    alive := new ++ m.alive
    forked := new ++ m.forked }

def reap (pid : Option ℕ) (taskFork : Option ℕ) (pick : ℕ) : AsyncManager :=
  match pid with
  | some pid =>
    if m.process.running then { m.replace pid taskFork pick with place := .killing }
    else { m with place := .killing }
  | none => { m with place := .killing }

/-- The round of the reload step for slot `i`. -/
def reloadSlot (forks : ℕ → ℕ) (m : AsyncManager) (i : ℕ) : AsyncManager :=
  { m with
    pidMap := m.pidMap.add (m.reloadWorkers.getD i 0) (forks i)
    alive := ⟨forks i, .worker i⟩ :: m.alive
    forked := ⟨forks i, .worker i⟩ :: m.forked }

/-- The reload step.  It goes over the slots of the workers, also if the task workers have been
copied. -/
def reload (forks : ℕ → ℕ) : AsyncManager :=
  if m.process.reloading then
    let m' := (range m.workers.length).foldl (reloadSlot forks) m
    nextRound { m' with process := { m.process with reloading := false } }
  else m.nextRound

/-- **One step.**  An event that does not fit the place of the loop does nothing. -/
def step (m : AsyncManager) (event : Event) : AsyncManager :=
  match event, m.place with
  | .signal sig, _ => m.signal sig
  | .interrupt sig, .waiting => { m.signal sig with place := .returned none }
  | .waitFails, .waiting => { m with place := .returned none }
  | .exit pid, .waiting => m.exit pid
  | .check, .returned pid => m.check pid
  | .reap taskFork pick, .reaping pid => m.reap pid taskFork pick
  | .reload forks, .killing => m.reload forks
  | _, _ => m

/-- An exit has been processed. -/
def Settled : ManagerPlace → Prop
  | .returned (some _) | .reaping (some _) => False
  | .waiting | .returned none | .reaping none | .killing | .stopped => True

instance (place : ManagerPlace) : Decidable (Settled place) := by
  unfold Settled
  split <;> infer_instance

/-- **The contract**: while the server is running, and no exit is being processed, every slot holds
the pid of a process that was forked for it and has not been reaped. -/
def Sound (m : AsyncManager) : Prop :=
  m.process.running = true → Settled m.place → ∀ p ∈ slotProcesses m.workers, p ∈ m.alive
  deriving Decidable

/-- The pids of all processes so far. -/
def used : List ℕ := m.forked.map Process.pid

/-- A new process has a pid, and no two have the same. -/
def Admissible (m : AsyncManager) : Event → Prop
  | .reload forks => m.process.reloading = true →
      (∀ i < m.workers.length, 0 < forks i) ∧ ((range m.workers.length).map forks).Nodup
  | .reap taskFork _ => ∀ pid ∈ taskFork, 0 < pid
  | .signal _ | .interrupt _ | .waitFails | .exit _ | .check => True

instance (m : AsyncManager) (event : Event) : Decidable (m.Admissible event) := by
  unfold Admissible
  split <;> infer_instance

/-- A worker only exits when a reload has forked a process to replace it, and that process does not
exit before; and no pid is used twice. -/
def Orderly (m : AsyncManager) : Event → Prop
  | .exit pid =>
    (pid ∈ m.workers → m.pidMap.dataOf pid ≠ []) ∧
      ∀ worker ∈ m.workers, pid ∉ m.pidMap.dataOf worker
  | .reload forks => m.process.reloading = true → ∀ i < m.workers.length, forks i ∉ m.used
  | .reap taskFork _ => ∀ pid ∈ taskFork, pid ∉ m.used
  | .signal _ | .interrupt _ | .waitFails | .check => True

instance (m : AsyncManager) (event : Event) : Decidable (m.Orderly event) := by
  unfold Orderly
  split <;> infer_instance

/-! ## The invariant -/

variable {m : AsyncManager}

/-- What a pid may be that stands for slot `i` in `reload_workers`: nothing, a task worker, or a
worker of this slot. -/
def Known (forked : List Process) (i k : ℕ) : Prop :=
  k = 0 ∨ ⟨k, .task⟩ ∈ forked ∨ ⟨k, .worker i⟩ ∈ forked

/-- What holds of the processes, whether or not the server is running. -/
structure History (m : AsyncManager) : Prop where
  nodup : m.used.Nodup
  pos : ∀ pid ∈ m.used, 0 < pid
  alive : ∀ p ∈ m.alive, p ∈ m.forked
  slots : ∀ i pid, m.workers[i]? = some pid → ⟨pid, .worker i⟩ ∈ m.forked
  tasks : ∀ k ∈ m.tasks.pids, k = 0 ∨ ⟨k, .task⟩ ∈ m.forked
  copies : ∀ i < m.workers.length, Known m.forked i (m.reloadWorkers.getD i 0)
  nodes : ∀ k v, (k, v) ∈ m.pidMap.nodes → ∃ i, Known m.forked i k

/-- The exit that is being processed. -/
def Dying (m : AsyncManager) (pid : ℕ) : Prop :=
  m.place = .returned (some pid) ∨ m.place = .reaping (some pid)

/-- What holds of the slots while the server is running. -/
structure Slots (m : AsyncManager) : Prop where
  /-- The process of a slot lives, or its exit is being processed and there is another one. -/
  alive : ∀ i pid, m.workers[i]? = some pid → ⟨pid, .worker i⟩ ∈ m.alive ∨
    m.Dying pid ∧ ∃ v, (pid, v) ∈ m.pidMap.nodes
  gone : ∀ pid, m.Dying pid → ∀ p ∈ m.alive, p.pid ≠ pid
  /-- A process that is to get the slot lives. -/
  ready : ∀ i pid v, m.workers[i]? = some pid → (pid, v) ∈ m.pidMap.nodes →
    ⟨v, .worker i⟩ ∈ m.alive
  /-- It has not been in a slot yet. -/
  fresh : ∀ pid ∈ m.workers, ∀ v, (pid, v) ∈ m.pidMap.nodes →
    v ∉ m.workers ∧ (∀ w, (v, w) ∉ m.pidMap.nodes) ∧
      ∀ j < m.workers.length, m.reloadWorkers.getD j 0 ≠ v

structure Inv (m : AsyncManager) : Prop where
  history : m.History
  slots : m.process.running = true → m.Slots

/-! ## Processes -/

variable {i k : ℕ}

theorem Known.mono {forked forked' : List Process} (h : Known forked i k)
    (hsub : ∀ p ∈ forked, p ∈ forked') : Known forked' i k :=
  h.imp_right (Or.imp (hsub _) (hsub _))

theorem History.unique (h : m.History) {p q : Process} (hp : p ∈ m.forked) (hq : q ∈ m.forked)
    (hpid : p.pid = q.pid) : p = q :=
  inj_on_of_nodup_map h.nodup hp hq hpid

theorem mem_used {p : Process} (h : p ∈ m.forked) : p.pid ∈ m.used := mem_map_of_mem h

/-- A pid that stands for slot `i` is not that of another slot's worker. -/
theorem History.slot_eq (h : m.History) {j : ℕ} (hk : Known m.forked i k)
    (hj : ⟨k, .worker j⟩ ∈ m.forked) : j = i := by
  rcases hk with rfl | htask | hworker
  · exact absurd (h.pos 0 (mem_used hj)) (lt_irrefl 0)
  · nomatch h.unique htask hj rfl
  · cases h.unique hworker hj rfl
    rfl

theorem not_known (hpos : 0 < k) (hnew : k ∉ m.used) : ¬ Known m.forked i k := by
  rintro (rfl | htask | hworker)
  · exact lt_irrefl 0 hpos
  · exact hnew (mem_used htask)
  · exact hnew (mem_used hworker)

theorem not_dying_of_settled (h : Settled m.place) (pid : ℕ) : ¬ m.Dying pid := by
  rintro (hplace | hplace)
  all_goals
    rw [hplace] at h
    exact h

variable {pid : ℕ}

theorem Dying.unique {pid' : ℕ} (h : m.Dying pid) (h' : m.Dying pid') : pid = pid' := by
  rcases h with h | h
  · rcases h' with h' | h'
    · cases h.symm.trans h'
      rfl
    · nomatch h.symm.trans h'
  · rcases h' with h' | h'
    · nomatch h.symm.trans h'
    · cases h.symm.trans h'
      rfl

/-- **The contract follows.** -/
theorem Inv.sound (h : m.Inv) : m.Sound := by
  intro hrunning hsettled p hp
  obtain ⟨i, hi, rfl⟩ := mem_mapIdx.mp hp
  refine ((h.slots hrunning).alive i _ (getElem?_eq_getElem hi)).resolve_right ?_
  exact fun hdying => not_dying_of_settled hsettled _ hdying.1

/-! ## Steps that change no process -/

/-- The history is not a matter of the signals and of the place in the loop. -/
theorem History.setControl (h : m.History) (process : ManagerProcess) (place : ManagerPlace) :
    History { m with process := process, place := place } :=
  ⟨h.nodup, h.pos, h.alive, h.slots, h.tasks, h.copies, h.nodes⟩

variable {m' : AsyncManager}

/-- The slots are a matter of the processes, the maps and the exit that is being processed. -/
theorem Slots.congr (h : m.Slots) (hworkers : m'.workers = m.workers) (hmap : m'.pidMap = m.pidMap)
    (halive : m'.alive = m.alive) (hcopies : m'.reloadWorkers = m.reloadWorkers)
    (hdying : ∀ pid, m'.Dying pid ↔ m.Dying pid) : m'.Slots := by
  obtain ⟨h1, h2, h3, h4⟩ := h
  refine ⟨?_, ?_, ?_, ?_⟩
  · simpa only [hworkers, hmap, halive, hdying] using h1
  · simpa only [halive, hdying] using h2
  · simpa only [hworkers, hmap, halive] using h3
  · simpa only [hworkers, hmap, hcopies] using h4

theorem settled_nextPlace (process : ManagerProcess) : Settled process.nextPlace := by
  unfold ManagerProcess.nextPlace
  split_ifs <;> trivial

theorem dying_congr (h : Settled m.place) (h' : Settled m'.place) (pid : ℕ) :
    m'.Dying pid ↔ m.Dying pid :=
  iff_of_false (not_dying_of_settled h' pid) (not_dying_of_settled h pid)

variable {process : ManagerProcess}

theorem running_of_signalHandle {sig : ManagerSignal}
    (h : (process.signalHandle sig).running = true) : process.running = true := by
  cases sig with
  | term => nomatch h
  | usr1 =>
    unfold ManagerProcess.signalHandle at h
    split_ifs at h <;> exact h
  | usr2 =>
    unfold ManagerProcess.signalHandle at h
    split_ifs at h <;> exact h

theorem Inv.signal (h : m.Inv) (sig : ManagerSignal) : (m.signal sig).Inv :=
  ⟨h.history.setControl _ _, fun hrunning =>
    (h.slots (running_of_signalHandle hrunning)).congr rfl rfl rfl rfl fun _ => Iff.rfl⟩

theorem Inv.setPlace (h : m.Inv) {place : ManagerPlace} (hplace : Settled m.place)
    (hplace' : Settled place) : Inv { m with place := place } :=
  ⟨h.history.setControl _ _, fun hrunning =>
    (h.slots hrunning).congr rfl rfl rfl rfl (dying_congr hplace hplace')⟩

/-- A `memcpy` over the front of a list. -/
theorem getD_overlay (pids rest : List ℕ) (i : ℕ) :
    (pids ++ rest.drop pids.length).getD i 0 =
      if i < pids.length then pids.getD i 0 else rest.getD i 0 := by
  split_ifs with hi
  · simp only [getD_eq_getElem?_getD, getElem?_append_left hi]
  · simp only [getD_eq_getElem?_getD, getElem?_append_right (not_lt.mp hi),
      getElem?_drop, Nat.add_sub_cancel' (not_lt.mp hi)]

/-- **Workers are copied**, each slot's own or those of the task workers. -/
theorem Inv.copyWorkers (h : m.Inv) {pids : List ℕ}
    (hrunning : process.running = m.process.running) (hplace : Settled m.place)
    (hpids : ∀ i < m.workers.length, ∀ k, pids[i]? = some k →
      m.workers[i]? = some k ∨ k ∈ m.tasks.pids) :
    Inv { m.copyWorkers pids with process := process } := by
  have hcopies : ∀ i < m.workers.length, ∀ k, (m.copyWorkers pids).reloadWorkers.getD i 0 = k →
      m.workers[i]? = some k ∨ k ∈ m.tasks.pids ∨ m.reloadWorkers.getD i 0 = k := by
    intro i hi k hk
    simp only [AsyncManager.copyWorkers, getD_overlay] at hk
    split_ifs at hk with hlt
    · rw [getD_eq_getElem?_getD, getElem?_eq_getElem hlt] at hk
      have hget : pids[i]? = some k := by
        rw [getElem?_eq_getElem hlt]
        exact congrArg some hk
      exact (hpids i hi k hget).imp_right .inl
    · exact .inr (.inr hk)
  refine ⟨⟨h.history.nodup, h.history.pos, h.history.alive, h.history.slots, h.history.tasks,
    fun i hi => ?_, h.history.nodes⟩, fun hrun => ?_⟩
  · rcases hcopies i hi _ rfl with hslot | htask | hold
    · exact .inr (.inr (h.history.slots i _ hslot))
    · exact (h.history.tasks _ htask).imp_right .inl
    · have hknown := h.history.copies i hi
      rwa [hold] at hknown
  · have hslots := h.slots (hrunning.symm.trans hrun)
    have hdying := @dying_congr m { m.copyWorkers pids with process := process } hplace trivial
    refine ⟨fun i pid hpid => ?_, fun pid hpid => hslots.gone pid ((hdying pid).mp hpid),
      hslots.ready, fun pid hpid v hv => ?_⟩
    · exact (hslots.alive i pid hpid).imp_right fun ⟨hd, hnode⟩ => ⟨(hdying pid).mpr hd, hnode⟩
    · obtain ⟨hfirst, hnode, hcopy⟩ := hslots.fresh pid hpid v hv
      refine ⟨hfirst, hnode, fun j hj heq => ?_⟩
      rcases hcopies j hj v heq with hslot | htask | hold
      · exact hfirst (mem_of_getElem? hslot)
      · -- a task worker is not the worker of a slot
        obtain ⟨i, hi⟩ := getElem?_of_mem hpid
        have hworker := h.history.alive _ (hslots.ready i pid v hi hv)
        rcases h.history.tasks v htask with rfl | htask
        · exact lt_irrefl 0 (h.history.pos 0 (mem_used hworker))
        · nomatch h.history.unique htask hworker rfl
      · exact hcopy j hj hold

/-- **The flags are tested.** -/
theorem Inv.check (h : m.Inv) {pid : Option ℕ} (hplace : m.place = .returned pid) :
    (m.check pid).Inv := by
  have hsettled : m.process.afterWait pid (m.tasks.workers ≠ []) ≠ .reap → Settled m.place := by
    intro hne
    rw [hplace, ManagerProcess.eq_none_of_afterWait hne]
    trivial
  unfold AsyncManager.check
  split
  · refine ⟨h.history.setControl _ _, fun hrunning =>
      (h.slots hrunning).congr rfl rfl rfl rfl fun other => ?_⟩
    unfold Dying
    rw [hplace]
    simp
  · rename_i hcopy
    refine h.copyWorkers rfl (hsettled (by rw [hcopy]; nofun)) fun i hi k hk => .inl ?_
    rwa [getElem?_append_left hi] at hk
  · rename_i hcopy
    exact h.copyWorkers rfl (hsettled (by rw [hcopy]; nofun)) fun i hi k hk =>
      .inr (mem_of_getElem? hk)
  · rename_i hnext
    exact h.setPlace (hsettled (by rw [hnext]; nofun)) (settled_nextPlace _)

/-! ## Exits -/

/-- **A child is reaped.** -/
theorem Inv.exit (h : m.Inv) (hplace : m.place = .waiting) (horderly : m.Orderly (.exit pid)) :
    (m.exit pid).Inv := by
  obtain ⟨hreplaced, hready⟩ := horderly
  have hkeep : ∀ p ∈ m.alive, p.pid ≠ pid → p ∈ (m.exit pid).alive := fun p hp hne =>
    mem_filter.mpr ⟨hp, decide_eq_true hne⟩
  have hwas : ∀ other, ¬ m.Dying other := not_dying_of_settled (by rw [hplace]; trivial)
  refine ⟨⟨h.history.nodup, h.history.pos,
    fun p hp => h.history.alive p (mem_of_mem_filter hp), h.history.slots, h.history.tasks,
    h.history.copies, h.history.nodes⟩, fun hrunning => ?_⟩
  have hslots := h.slots hrunning
  refine ⟨fun i other hother => ?_, fun other hdying p hp => ?_, fun i other v hother hv => ?_,
    hslots.fresh⟩
  · by_cases heq : other = pid
    · subst heq
      obtain ⟨v, hv⟩ := exists_mem_of_ne_nil _ (hreplaced (mem_of_getElem? hother))
      exact .inr ⟨.inl rfl, v, PidMap.mem_dataOf.mp hv⟩
    · exact .inl (hkeep _ ((hslots.alive i other hother).resolve_right
        fun hd => hwas other hd.1) heq)
  · have heq : other = pid := by
      rcases hdying with hd | hd
      · cases hd
        rfl
      · nomatch hd
    rw [heq]
    exact of_decide_eq_true (mem_filter.mp hp).2
  · refine hkeep _ (hslots.ready i other v hother hv) fun heq => ?_
    exact hready other (mem_of_getElem? hother) (heq ▸ PidMap.mem_dataOf.mpr hv)

/-- A slot after the loop over the workers: it has kept its worker, or has got a new one. -/
theorem getElem?_replace {pick other : ℕ} (taskFork : Option ℕ)
    (h : (m.replace pid taskFork pick).workers[i]? = some other) :
    (m.workers[i]? = some other ∧ other ≠ pid) ∨
      (m.workers[i]? = some pid ∧ other = m.newPid pid pick) := by
  simp only [replace, getElem?_map, map_eq_some_iff] at h
  obtain ⟨worker, hworker, hother⟩ := h
  split_ifs at hother with heq
  · exact .inr ⟨heq ▸ hworker, hother.symm⟩
  · exact .inl ⟨hother ▸ hworker, fun h => heq (h.symm.trans hother.symm)⟩

theorem Slots.newPid (h : m.Slots) (pick : ℕ) (hdying : m.Dying pid)
    (hslot : m.workers[i]? = some pid) :
    (pid, m.newPid pid pick) ∈ m.pidMap.nodes ∧ ⟨m.newPid pid pick, .worker i⟩ ∈ m.alive := by
  obtain ⟨v, hv⟩ : ∃ v, (pid, v) ∈ m.pidMap.nodes := by
    rcases h.alive i pid hslot with halive | ⟨-, hnode⟩
    · exact absurd rfl (h.gone pid hdying _ halive)
    · exact hnode
  obtain ⟨data, hdata⟩ := PidMap.exists_find hv pick
  have hnew : m.newPid pid pick = data := by rw [AsyncManager.newPid, hdata, getD_some]
  rw [hnew]
  exact ⟨PidMap.mem_of_find hdata, h.ready i pid data hslot (PidMap.mem_of_find hdata)⟩

variable {taskFork : Option ℕ}

theorem History.replace (h : m.History) (hslots : m.Slots) {pick : ℕ}
    (hdying : m.Dying pid) (hpos : ∀ pid ∈ taskFork, 0 < pid)
    (hnew : ∀ pid ∈ taskFork, pid ∉ m.used) : (m.replace pid taskFork pick).History := by
  have hgrow : ∀ p ∈ m.forked, p ∈ (m.replace pid taskFork pick).forked := fun p hp =>
    mem_append_right _ hp
  have hused : (m.replace pid taskFork pick).used =
      (m.tasks.respawned pid taskFork pick).toList ++ m.used := by
    simp only [used, AsyncManager.replace, map_append]
    cases m.tasks.respawned pid taskFork pick <;> rfl
  have hrespawned : ∀ k ∈ (m.tasks.respawned pid taskFork pick).toList, k ∈ taskFork := by
    intro k hk
    exact TaskPool.mem_of_respawned (mem_toList.mp hk)
  refine ⟨?_, ?_, ?_, ?_, ?_, ?_, ?_⟩
  · rw [hused, nodup_append]
    refine ⟨?_, h.nodup, fun a ha b hb heq => hnew a (hrespawned a ha) (heq ▸ hb)⟩
    cases m.tasks.respawned pid taskFork pick <;> simp
  · rw [hused]
    intro k hk
    rcases mem_append.mp hk with hk | hk
    · exact hpos k (hrespawned k hk)
    · exact h.pos k hk
  · intro p hp
    rcases mem_append.mp hp with hp | hp
    · exact mem_append_left _ hp
    · exact hgrow p (h.alive p hp)
  · intro i other hother
    rcases getElem?_replace taskFork hother with ⟨hold, -⟩ | ⟨hslot, rfl⟩
    · exact hgrow _ (h.slots i other hold)
    · exact hgrow _ (h.alive _ (hslots.newPid pick hdying hslot).2)
  · intro k hk
    rcases TaskPool.mem_pids_exited hk with hk | hk
    · exact (h.tasks k hk).imp_right (hgrow _)
    · refine .inr (mem_append_left _ ?_)
      rw [hk]
      exact mem_singleton_self _
  · intro i hi
    rw [AsyncManager.replace, length_map] at hi
    exact (h.copies i hi).mono hgrow
  · intro k v hv
    obtain ⟨i, hi⟩ := h.nodes k v hv
    exact ⟨i, hi.mono hgrow⟩

/-- **The slot of a worker that has exited** gets the process that was forked for it. -/
theorem Slots.replace (h : m.Slots) (hhistory : m.History) (pick : ℕ) (taskFork : Option ℕ)
    (hdying : m.Dying pid) : Slots { m.replace pid taskFork pick with place := .killing } := by
  have hgrow : ∀ p ∈ m.alive, p ∈ (m.replace pid taskFork pick).alive := fun p hp =>
    mem_append_right _ hp
  -- the worker that has got the slot has none to follow it yet
  have hlast : ∀ i v : ℕ, m.workers[i]? = some pid → (m.newPid pid pick, v) ∉ m.pidMap.nodes := by
    intro i v hslot
    have hnode := (h.newPid pick hdying hslot).1
    exact (h.fresh pid (mem_of_getElem? hslot) _ hnode).2.1 v
  refine ⟨fun i other hother => .inl ?_, fun other hd => ?_, fun i other v hother hv => ?_,
    fun other hmem v hv => ?_⟩
  · rcases getElem?_replace taskFork hother with ⟨hold, hne⟩ | ⟨hslot, rfl⟩
    · exact hgrow _ ((h.alive i other hold).resolve_right fun hd => hne (hd.1.unique hdying))
    · exact hgrow _ (h.newPid pick hdying hslot).2
  · exact absurd hd (not_dying_of_settled
      (m := { m.replace pid taskFork pick with place := .killing }) trivial other)
  · rcases getElem?_replace taskFork hother with ⟨hold, -⟩ | ⟨hslot, rfl⟩
    · exact hgrow _ (h.ready i other v hold hv)
    · exact absurd hv (hlast i v hslot)
  · obtain ⟨i, hother⟩ := getElem?_of_mem hmem
    rcases getElem?_replace taskFork hother with ⟨hold, hne⟩ | ⟨hslot, rfl⟩
    · obtain ⟨hfirst, hnode, hcopy⟩ := h.fresh other (mem_of_getElem? hold) v hv
      refine ⟨fun hin => ?_, hnode, fun j hj => hcopy j (by simpa [AsyncManager.replace] using hj)⟩
      obtain ⟨j, hj⟩ := getElem?_of_mem hin
      rcases getElem?_replace taskFork hj with ⟨hj, -⟩ | ⟨hj, heq⟩
      · exact hfirst (mem_of_getElem? hj)
      · -- two slots do not wait for the same process
        have hmine := hhistory.alive _ (h.ready i other v hold hv)
        have htheirs := hhistory.alive _ (h.newPid pick hdying hj).2
        rw [← heq] at htheirs
        cases hhistory.unique hmine htheirs rfl
        exact hne (Option.some.inj (hold.symm.trans hj))
    · exact absurd hv (hlast i v hslot)

/-- **What has exited is replaced.** -/
theorem Inv.reap (h : m.Inv) {pid : Option ℕ} (hplace : m.place = .reaping pid)
    (pick : ℕ) (hpos : ∀ pid ∈ taskFork, 0 < pid) (hnew : ∀ pid ∈ taskFork, pid ∉ m.used) :
    (m.reap pid taskFork pick).Inv := by
  cases pid with
  | none => exact h.setPlace (by rw [hplace]; trivial) trivial
  | some pid =>
    have hdying : m.Dying pid := .inr hplace
    unfold AsyncManager.reap
    split_ifs with hrunning
    · have hslots := h.slots hrunning
      have hhistory : (m.replace pid taskFork pick).History :=
        h.history.replace hslots hdying hpos hnew
      exact ⟨hhistory.setControl _ _, fun _ => hslots.replace h.history pick taskFork hdying⟩
    · exact ⟨h.history.setControl _ _, fun hrun => absurd hrun hrunning⟩

/-! ## Reloads -/

variable {forks : ℕ → ℕ}

/-- **A process is forked for a slot.** -/
theorem Inv.reloadSlot (h : m.Inv) (hi : i < m.workers.length) (hsettled : Settled m.place)
    (hpos : 0 < forks i) (hnew : forks i ∉ m.used) : (reloadSlot forks m i).Inv := by
  have hhistory := h.history
  have hgrow : ∀ p ∈ m.forked, p ∈ (AsyncManager.reloadSlot forks m i).forked := fun p hp =>
    mem_cons_of_mem _ hp
  have hnodes : ∀ k v, (k, v) ∈ (AsyncManager.reloadSlot forks m i).pidMap.nodes →
      (k, v) ∈ m.pidMap.nodes ∨ k = m.reloadWorkers.getD i 0 ∧ v = forks i := by
    intro k v hv
    rcases mem_cons.mp hv with heq | hv
    · exact .inr (Prod.mk.inj heq)
    · exact .inl hv
  refine ⟨⟨nodup_cons.mpr ⟨hnew, hhistory.nodup⟩, ?_, ?_, ?_, ?_, ?_, ?_⟩, fun hrunning => ?_⟩
  · intro pid hpid
    rcases mem_cons.mp hpid with rfl | hpid
    · exact hpos
    · exact hhistory.pos pid hpid
  · intro p hp
    rcases mem_cons.mp hp with rfl | hp
    · exact mem_cons_self
    · exact hgrow p (hhistory.alive p hp)
  · exact fun j pid hj => hgrow _ (hhistory.slots j pid hj)
  · exact fun k hk => (hhistory.tasks k hk).imp_right (hgrow _)
  · exact fun j hj => (hhistory.copies j hj).mono hgrow
  · intro k v hv
    rcases hnodes k v hv with hv | ⟨rfl, rfl⟩
    · obtain ⟨j, hj⟩ := hhistory.nodes k v hv
      exact ⟨j, hj.mono hgrow⟩
    · exact ⟨i, (hhistory.copies i hi).mono hgrow⟩
  · have hslots := h.slots hrunning
    have hdying : ∀ pid, ¬ (AsyncManager.reloadSlot forks m i).Dying pid :=
      not_dying_of_settled hsettled
    have hunused : ∀ j, ¬ Known m.forked j (forks i) := fun j => not_known hpos hnew
    refine ⟨fun j pid hj => .inl ?_, fun pid hd => absurd hd (hdying pid), fun j pid v hj hv => ?_,
      fun pid hpid v hv => ?_⟩
    · exact mem_cons_of_mem _ ((hslots.alive j pid hj).resolve_right
        fun hd => not_dying_of_settled hsettled pid hd.1)
    · rcases hnodes pid v hv with hv | ⟨rfl, rfl⟩
      · exact mem_cons_of_mem _ (hslots.ready j pid v hj hv)
      · -- what is recorded under the pid of a slot was forked for that slot
        rw [hhistory.slot_eq (hhistory.copies i hi) (hhistory.slots j _ hj)]
        exact mem_cons_self
    · rcases hnodes pid v hv with hv | ⟨rfl, rfl⟩
      · obtain ⟨hfirst, hnode, hcopy⟩ := hslots.fresh pid hpid v hv
        refine ⟨hfirst, fun w hw => ?_, hcopy⟩
        rcases hnodes v w hw with hw | ⟨heq, -⟩
        · exact hnode w hw
        · exact hcopy i hi heq.symm
      · refine ⟨fun hin => ?_, fun w hw => ?_, fun j hj heq => ?_⟩
        · obtain ⟨j, hj⟩ := getElem?_of_mem hin
          exact hnew (mem_used (hhistory.slots j _ hj))
        · rcases hnodes _ w hw with hw | ⟨heq, -⟩
          · obtain ⟨j, hj⟩ := hhistory.nodes _ w hw
            exact hunused j hj
          · exact hunused i (heq ▸ hhistory.copies i hi)
        · exact hunused j (heq ▸ hhistory.copies j hj)

theorem Inv.reloadSlots (h : m.Inv) {slots : List ℕ}
    (hslots : ∀ i ∈ slots, i < m.workers.length ∧ 0 < forks i ∧ forks i ∉ m.used)
    (hsettled : Settled m.place) (hnodup : (slots.map forks).Nodup) :
    (slots.foldl (AsyncManager.reloadSlot forks) m).Inv ∧
      Settled (slots.foldl (AsyncManager.reloadSlot forks) m).place ∧
      (slots.foldl (AsyncManager.reloadSlot forks) m).process = m.process := by
  induction slots generalizing m with
  | nil => exact ⟨h, hsettled, rfl⟩
  | cons i slots ih =>
    obtain ⟨hi, hpos, hnew⟩ := hslots i mem_cons_self
    obtain ⟨hnot, hnodup⟩ := nodup_cons.mp hnodup
    refine ih (h.reloadSlot hi hsettled hpos hnew) (fun j hj => ?_) hsettled hnodup
    obtain ⟨hj', hpos', hnew'⟩ := hslots j (mem_cons_of_mem i hj)
    refine ⟨hj', hpos', fun hin => ?_⟩
    rcases mem_cons.mp hin with heq | hin
    · exact hnot (mem_map.mpr ⟨j, hj, heq⟩)
    · exact hnew' hin

theorem Inv.reload (h : m.Inv) (hplace : m.place = .killing) (hadm : m.Admissible (.reload forks))
    (horderly : m.Orderly (.reload forks)) : (m.reload forks).Inv := by
  have hsettled : Settled m.place := by
    rw [hplace]
    trivial
  unfold AsyncManager.reload
  split_ifs with hreloading
  · obtain ⟨hpos, hnodup⟩ := hadm hreloading
    have hnew := horderly hreloading
    have hslots : ∀ i ∈ range m.workers.length,
        i < m.workers.length ∧ 0 < forks i ∧ forks i ∉ m.used := fun i hi =>
      ⟨mem_range.mp hi, hpos i (mem_range.mp hi), hnew i (mem_range.mp hi)⟩
    obtain ⟨hinv, hsettled', hprocess⟩ := h.reloadSlots hslots hsettled hnodup
    refine ⟨hinv.history.setControl _ _, fun hrunning => ?_⟩
    refine (hinv.slots (hprocess ▸ hrunning)).congr rfl rfl rfl rfl
      (dying_congr hsettled' (settled_nextPlace _))
  · exact h.setPlace hsettled (settled_nextPlace _)

/-! ## Runs -/

/-- **One step.** -/
theorem Inv.step (h : m.Inv) {event : Event} (hadm : m.Admissible event)
    (horderly : m.Orderly event) : (m.step event).Inv := by
  unfold AsyncManager.step
  split
  · exact h.signal _
  · rename_i sig hplace
    exact (h.signal sig).setPlace (show Settled m.place by rw [hplace]; trivial) trivial
  · rename_i hplace
    exact h.setPlace (by rw [hplace]; trivial) trivial
  · rename_i pid hplace
    exact h.exit hplace horderly
  · rename_i pid hplace
    exact h.check hplace
  · rename_i taskFork pick pid hplace
    exact h.reap hplace pick hadm horderly
  · rename_i forks hplace
    exact h.reload hplace hadm horderly
  · exact h

theorem init_inv {workers taskForks : List ℕ} (hpos : ∀ pid ∈ workers ++ taskForks, 0 < pid)
    (hnodup : (workers ++ taskForks).Nodup) : (init workers taskForks).Inv := by
  have hused : (init workers taskForks).used = workers ++ taskForks := by
    have hslots : (slotProcesses workers).map Process.pid = workers := by
      refine ext_getElem (by simp [slotProcesses]) fun i hi hi' => ?_
      simp [slotProcesses]
    have htasks : (taskForks.map fun pid => (⟨pid, .task⟩ : Process)).map Process.pid =
        taskForks := by
      simp [Function.comp_def]
    rw [used, init, startProcesses, map_append, hslots, htasks]
  have hslots : ∀ i pid : ℕ, workers[i]? = some pid →
      ⟨pid, .worker i⟩ ∈ startProcesses workers taskForks := by
    intro i pid hpid
    obtain ⟨hi, rfl⟩ := List.getElem?_eq_some_iff.mp hpid
    exact mem_append_left _ (mem_mapIdx.mpr ⟨i, hi, rfl⟩)
  refine ⟨⟨hused ▸ hnodup, hused ▸ hpos, fun p hp => hp, hslots, fun k hk => ?_, fun i hi => ?_,
    nofun⟩, fun _ => ?_⟩
  · refine (TaskPool.mem_pids_start hk).imp_right fun hmem => mem_append_right _ ?_
    obtain ⟨pid, hpid, heq⟩ := mem_map.mp hmem
    exact mem_map.mpr ⟨pid, hpid, by rw [Option.some.inj heq]⟩
  · refine .inl ?_
    rw [getD_eq_getElem?_getD, init, getElem?_replicate]
    split_ifs <;> rfl
  · have hdying : ∀ pid, ¬ (init workers taskForks).Dying pid := fun pid hd => by
      rcases hd with hd | hd <;> nomatch hd
    exact ⟨fun i pid hpid => .inl (hslots i pid hpid), fun pid hd => absurd hd (hdying pid),
      nofun, nofun⟩

/-- **Every slot holds a living process**, if workers only exit when they have been replaced. -/
theorem slots_alive_run (workers taskForks : List ℕ) (events : List Event)
    (hpos : ∀ pid ∈ workers ++ taskForks, 0 < pid) (hnodup : (workers ++ taskForks).Nodup)
    (hadm : EachStep step Admissible (init workers taskForks) events)
    (horderly : EachStep step Orderly (init workers taskForks) events) (used : List Event)
    (hused : used <+: events) : (run step (init workers taskForks) used).Sound := by
  have hinv : (run step (init workers taskForks) used).Inv :=
    EachStep.run_invariant (P := Inv) (fun _ _ h hevent => h.step hevent.1 hevent.2)
      ((hadm.and horderly).restrict hused) (init_inv hpos hnodup)
  exact hinv.sound

/-- Two workers and a task worker.  A reload forks two processes, and each gets its slot when the
old worker has exited. -/
theorem slots_alive_reload :
    let m := init [100, 101] [102]
    let round (pid : ℕ) (fork : Option ℕ) : List Event :=
      [.exit pid, .check, .reap fork 0, .reload fun _ => 0]
    let events : List Event :=
      [.interrupt .usr1, .check, .reload fun i => 103 + i] ++ round 101 none ++
        round 102 (some 110) ++ round 100 none
    EachStep step Admissible m events ∧ EachStep step Orderly m events ∧
      (run step m events).workers = [103, 104] ∧ (run step m events).tasks.pids = [110] ∧
      (run step m events).place = .waiting ∧ (run step m events).Sound :=
  ⟨by decide, by decide, by decide, by decide, by decide,
    slots_alive_run _ _ _ (by decide) (by decide) (by decide) (by decide) _ (prefix_refl _)⟩

/-- A worker crashes, and its slot gets the pid zero. -/
theorem slot_zero_crash :
    let events : List Event := [.exit 100, .check, .reap none 0]
    EachStep step Admissible (init [100] []) events ∧
      (run step (init [100] []) events).workers = [0] ∧
      ¬ (run step (init [100] []) events).Sound := by
  decide

end AsyncManager

end Swoole
