import Mathlib.Tactic.Common

/-!
# The manager process

What the two loops of the manager have in common: the flags that the signal handler sets and what
the loop does with them when `wait` has returned, maps from pids, and the pool of the task workers.

A loop reads a flag at a few places; `ManagerPlace` says in front of which one it is.  A signal may
come in front of each.  While `reloading` is set the handler changes no flag of the reload, so what
a loop does behind a test of it is one step.

`fork` answers with the pid of the child or, as `none`, with an error.  Where the source repeats
a `fork` until it succeeds, the answer is that of the last one.
-/

namespace Swoole

open List

/-! ## Signals -/

/-- The signals that the manager handles. -/
inductive ManagerSignal where
  | term
  /-- `SIGUSR1`: all workers are to be reloaded. -/
  | usr1
  /-- `SIGUSR2`: the task workers are. -/
  | usr2
  deriving DecidableEq, Repr

/-- `ManagerProcess`, with `SwooleG.running`. -/
structure ManagerProcess where
  running : Bool
  reloading : Bool
  reloadEventWorker : Bool
  reloadTaskWorker : Bool
  deriving DecidableEq, Repr

namespace ManagerProcess

def init : ManagerProcess := ⟨true, false, false, false⟩

/-- `swManager_signal_handle`. -/
def signalHandle (m : ManagerProcess) : ManagerSignal → ManagerProcess
  | .term => { m with running := false }
  | .usr1 => if m.reloading then m else { m with reloading := true, reloadEventWorker := true }
  | .usr2 => if m.reloading then m else { m with reloading := true, reloadTaskWorker := true }

/-- A reload was asked for, and its workers have not been copied yet. -/
def Pending (m : ManagerProcess) : Prop := m.reloadEventWorker ∨ m.reloadTaskWorker
  deriving Decidable

/-- A signal that begins a reload. -/
def Begins (m : ManagerProcess) (sig : ManagerSignal) : Prop := sig ≠ .term ∧ m.reloading = false
  deriving Decidable

variable {m : ManagerProcess} {sig : ManagerSignal}

/-- Exactly one reload is asked for. -/
def Asked (m : ManagerProcess) : Prop :=
  m.reloading = true ∧ m.reloadEventWorker ≠ m.reloadTaskWorker

theorem Asked.pending (h : m.Asked) : m.Pending := by
  obtain ⟨-, hne⟩ := h
  unfold Pending
  cases hevent : m.reloadEventWorker with
  | true => exact .inl rfl
  | false =>
    rw [hevent] at hne
    exact .inr (eq_true_of_ne_false hne.symm)

theorem signalHandle_of_begins (h : m.Begins sig) (hpending : ¬ m.Pending) :
    (m.signalHandle sig).Asked := by
  obtain ⟨hsig, hreloading⟩ := h
  simp only [Pending, not_or, Bool.not_eq_true] at hpending
  cases sig with
  | term => exact absurd rfl hsig
  | usr1 | usr2 => simp [signalHandle, Asked, hreloading, hpending]

theorem signalHandle_of_not_begins (h : ¬ m.Begins sig) :
    (m.signalHandle sig).reloading = m.reloading ∧
      (m.signalHandle sig).reloadEventWorker = m.reloadEventWorker ∧
      (m.signalHandle sig).reloadTaskWorker = m.reloadTaskWorker := by
  cases sig with
  | term => exact ⟨rfl, rfl, rfl⟩
  | usr1 | usr2 =>
    have hreloading : m.reloading = true := by simpa [Begins] using h
    rw [signalHandle, if_pos hreloading]
    exact ⟨rfl, rfl, rfl⟩

end ManagerProcess

/-! ## The loops -/

/-- Where a loop is. -/
inductive ManagerPlace where
  /-- In front of `wait`, or in it. -/
  | waiting
  /-- In front of the tests of the flags; `none` is the answer `-1`. -/
  | returned (pid : Option ℕ)
  /-- In front of `if (SwooleG.running == 1)`. -/
  | reaping (pid : Option ℕ)
  /-- In front of the reload step. -/
  | killing
  /-- Behind the loop. -/
  | stopped
  deriving DecidableEq, Repr

/-- What follows `wait`. -/
inductive AfterWait where
  | reap
  /-- All workers are copied into `reload_workers`. -/
  | copyAll
  /-- The task workers are. -/
  | copyTasks
  | nextRound
  deriving DecidableEq, Repr

namespace ManagerProcess

variable (m : ManagerProcess)

/-- The tests of the flags behind `wait`. -/
def afterWait (pid : Option ℕ) (hasTasks : Bool) : AfterWait :=
  if pid ≠ none then .reap
  else if m.reloading = false then .reap
  else if m.reloadEventWorker then .copyAll
  else if m.reloadTaskWorker then if hasTasks then .copyTasks else .nextRound
  else .reap

/-- Where the next round of a loop begins, if there is one. -/
def nextPlace : ManagerPlace := if m.running then .waiting else .stopped

variable {m} {pid : Option ℕ} {hasTasks : Bool}

theorem afterWait_reap (h : m.afterWait pid hasTasks = .reap) :
    pid ≠ none ∨ m.reloading = false ∨ ¬ m.Pending := by
  unfold afterWait at h
  split_ifs at h with hpid hreloading hevent htask
  · exact .inl hpid
  · exact .inr (.inl hreloading)
  · exact .inr (.inr (not_or.mpr ⟨hevent, htask⟩))

/-- Only when `wait` has failed, anything else is done. -/
theorem eq_none_of_afterWait (h : m.afterWait pid hasTasks ≠ .reap) : pid = none := by
  by_contra hpid
  exact h (if_pos hpid)

theorem afterWait_copyAll (h : m.afterWait pid hasTasks = .copyAll) :
    m.reloading = true ∧ m.reloadEventWorker = true := by
  unfold afterWait at h
  split_ifs at h with hpid hreloading hevent
  exact ⟨eq_true_of_ne_false hreloading, hevent⟩

theorem afterWait_nextRound (h : m.afterWait pid hasTasks = .nextRound) :
    m.reloadTaskWorker = true ∧ hasTasks = false := by
  unfold afterWait at h
  split_ifs at h with hpid hreloading hevent htask hnone
  exact ⟨htask, eq_false_of_ne_true hnone⟩

theorem afterWait_copyTasks (h : m.afterWait pid hasTasks = .copyTasks) :
    m.reloading = true ∧ m.reloadEventWorker = false ∧ m.reloadTaskWorker = true := by
  unfold afterWait at h
  split_ifs at h with hpid hreloading hevent htask
  exact ⟨eq_true_of_ne_false hreloading, eq_false_of_ne_true hevent, htask⟩

end ManagerProcess

/-! ## Maps from pids -/

/-- A `swHashMap` whose keys are pids. -/
structure PidMap where
  nodes : List (ℕ × ℕ)

namespace PidMap

def empty : PidMap := ⟨[]⟩

variable (map : PidMap) (key : ℕ)

/-- `swHashMap_add_int`; a node with the same key is not replaced. -/
def add (data : ℕ) : PidMap := ⟨(key, data) :: map.nodes⟩

/-- The data of the nodes with the key. -/
def dataOf : List ℕ := (map.nodes.filter fun node => node.1 = key).map Prod.snd

/-- `swHashMap_find_int`.  Which of several nodes with the key comes first depends on how often
the buckets were expanded; `pick` says which. -/
def find (pick : ℕ) : Option ℕ := (map.dataOf key)[pick % (map.dataOf key).length]?

/-- `swHashMap_del_int`. -/
def del (pick : ℕ) : PidMap :=
  match map.find key pick with
  | none => map
  | some data => ⟨map.nodes.erase (key, data)⟩

variable {map key} {data : ℕ}

theorem mem_dataOf : data ∈ map.dataOf key ↔ (key, data) ∈ map.nodes := by
  simp [dataOf]

theorem mem_of_find {pick : ℕ} (h : map.find key pick = some data) : (key, data) ∈ map.nodes :=
  mem_dataOf.mp (mem_of_getElem? h)

theorem exists_find (h : (key, data) ∈ map.nodes) (pick : ℕ) :
    ∃ data', map.find key pick = some data' := by
  have hpos : 0 < (map.dataOf key).length := length_pos_of_mem (mem_dataOf.mpr h)
  exact ⟨_, getElem?_eq_getElem (Nat.mod_lt pick hpos)⟩

end PidMap

/-! ## The task workers -/

/-- A `swWorker` of the pool. -/
structure PoolWorker where
  pid : ℕ
  deleted : Bool

/-- `SwooleGS->task_workers`. -/
structure TaskPool where
  workers : List PoolWorker
  map : PidMap

namespace TaskPool

variable (pool : TaskPool)

/-- `swProcessPool_spawn` of the worker with index `j`. -/
def spawn (j : ℕ) (fork : Option ℕ) (pick : ℕ) : TaskPool :=
  match pool.workers[j]?, fork with
  | some worker, some pid =>
    { workers := pool.workers.set j ⟨pid, false⟩
      map := (if worker.pid = 0 then pool.map else pool.map.del worker.pid pick).add pid j }
  | _, _ => pool

/-- The loop of `swProcessPool_start`; it ends with the first `fork` that fails. -/
def startLoop : TaskPool → ℕ → List (Option ℕ) → TaskPool
  | pool, _, [] => pool
  | pool, _, none :: _ => pool
  | pool, j, some pid :: forks => startLoop (pool.spawn j (some pid) 0) (j + 1) forks

/-- `swProcessPool_start`; its answer is not looked at. -/
def start (forks : List (Option ℕ)) : TaskPool :=
  startLoop ⟨replicate forks.length ⟨0, false⟩, .empty⟩ 0 forks

/-- What the manager does for a task worker that has exited. -/
def exited (pid : ℕ) (fork : Option ℕ) (pick : ℕ) : TaskPool :=
  match pool.map.find pid pick with
  | none => pool
  | some j =>
    match pool.workers[j]? with
    | none => pool
    | some worker =>
      if worker.deleted then { pool with workers := pool.workers.set j ⟨worker.pid, false⟩ }
      else pool.spawn j fork pick

/-- The process that is forked then. -/
def respawned (pid : ℕ) (fork : Option ℕ) (pick : ℕ) : Option ℕ :=
  match pool.map.find pid pick with
  | none => none
  | some j =>
    match pool.workers[j]? with
    | none => none
    | some worker => if worker.deleted then none else fork

def pids : List ℕ := pool.workers.map PoolWorker.pid

variable {pool}

theorem length_workers_spawn (j pick : ℕ) (fork : Option ℕ) :
    (pool.spawn j fork pick).workers.length = pool.workers.length := by
  unfold spawn
  split
  · exact length_set
  · rfl

theorem length_workers_exited (pid pick : ℕ) (fork : Option ℕ) :
    (pool.exited pid fork pick).workers.length = pool.workers.length := by
  unfold exited
  split
  · rfl
  · split
    · rfl
    · split_ifs
      · exact length_set
      · exact length_workers_spawn ..

variable {fork : Option ℕ} {pid pick : ℕ}

theorem mem_pids_spawn {j : ℕ} (h : pid ∈ (pool.spawn j fork pick).pids) :
    pid ∈ pool.pids ∨ fork = some pid := by
  unfold spawn at h
  split at h
  · rw [pids, map_set] at h
    rcases mem_or_eq_of_mem_set h with h | h
    · exact .inl h
    · exact .inr (by rw [h])
  · exact .inl h

theorem mem_pids_exited {exit : ℕ} (h : pid ∈ (pool.exited exit fork pick).pids) :
    pid ∈ pool.pids ∨ pool.respawned exit fork pick = some pid := by
  unfold exited at h
  unfold respawned
  cases hfind : pool.map.find exit pick with
  | none =>
    rw [hfind] at h
    exact .inl h
  | some j =>
    rw [hfind] at h
    cases hworker : pool.workers[j]? with
    | none =>
      simp only [hworker] at h
      exact .inl h
    | some worker =>
      simp only [hworker] at h ⊢
      split_ifs at h ⊢
      · rw [pids, map_set] at h
        rcases mem_or_eq_of_mem_set h with h | h
        · exact .inl h
        · have hmem : worker ∈ pool.workers := mem_of_getElem? hworker
          rw [h]
          exact .inl (mem_map.mpr ⟨worker, hmem, rfl⟩)
      · exact mem_pids_spawn h

theorem mem_of_respawned {exit : ℕ} (h : pool.respawned exit fork pick = some pid) :
    fork = some pid := by
  unfold respawned at h
  split at h
  · nomatch h
  · split at h
    · nomatch h
    · split_ifs at h
      exact h

variable {forks : List (Option ℕ)}

theorem mem_pids_start (h : pid ∈ (start forks).pids) : pid = 0 ∨ some pid ∈ forks := by
  have hloop : ∀ (forks : List (Option ℕ)) (pool : TaskPool) (j : ℕ),
      pid ∈ (startLoop pool j forks).pids → pid ∈ pool.pids ∨ some pid ∈ forks := by
    intro forks
    induction forks with
    | nil => exact fun _ _ h => .inl h
    | cons fork forks ih =>
      intro pool j h
      cases fork with
      | none => exact .inl h
      | some new =>
        rcases ih _ _ h with h | h
        · refine (mem_pids_spawn h).imp_right fun heq => ?_
          rw [heq]
          exact mem_cons_self
        · exact .inr (mem_cons_of_mem _ h)
  refine (hloop forks _ 0 h).imp_left fun h => ?_
  rw [pids, map_replicate] at h
  exact eq_of_mem_replicate h

/-- The workers in front of `j` have been started. -/
theorem startLoop_pids (forks : List (Option ℕ))
    (hforks : ∀ fork ∈ forks, ∃ pid, fork = some pid ∧ 0 < pid) (pool : TaskPool) (j : ℕ)
    (hlen : pool.pids.length = j + forks.length)
    (hpids : ∀ k pid, k < j → pool.pids[k]? = some pid → 0 < pid) :
    ∀ pid ∈ (startLoop pool j forks).pids, 0 < pid := by
  induction forks generalizing pool j with
  | nil =>
    intro pid hpid
    obtain ⟨k, hk, hget⟩ := getElem_of_mem hpid
    refine hpids k pid ?_ (List.getElem?_eq_some_iff.mpr ⟨hk, hget⟩)
    rwa [startLoop, hlen] at hk
  | cons fork forks ih =>
    obtain ⟨pid, rfl, hpid⟩ := hforks fork mem_cons_self
    rw [length_cons] at hlen
    have hj : j < pool.workers.length := by
      rw [pids, length_map] at hlen
      omega
    have hspawn : (pool.spawn j (some pid) 0).pids = pool.pids.set j pid := by
      unfold spawn
      rw [getElem?_eq_getElem hj]
      simp only [pids, map_set]
    refine ih (fun fork hfork => hforks fork (mem_cons_of_mem _ hfork)) _ _ ?_ ?_
    · rw [hspawn, length_set, hlen]
      omega
    · intro k other hk hother
      rw [hspawn, getElem?_set] at hother
      split_ifs at hother with heq
      · rw [← Option.some.inj hother]
        exact hpid
      · exact hpids k other (by omega) hother

/-- If no `fork` fails, all task workers have a pid. -/
theorem start_pids (hforks : ∀ fork ∈ forks, ∃ pid, fork = some pid ∧ 0 < pid) :
    ∀ pid ∈ (start forks).pids, 0 < pid :=
  startLoop_pids forks hforks _ 0 (by simp [pids]) nofun

end TaskPool

end Swoole
