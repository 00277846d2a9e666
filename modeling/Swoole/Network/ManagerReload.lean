import Swoole.Network.ManagerSync

/-!
# Reload requests that are locked out

While a reload is on its way the signal handler ignores further ones.  The loop takes `reloading`
back when it comes to the reload step behind the last worker.  This does not need the workers to
exit: a signal makes `wait` fail, and a round whose `wait` has failed goes on to the reload step as
well.  So in most states some more signals bring the reload to its end, and then the next one is
heard.

`SIGUSR2` to a server without task workers is the exception.  The loop finds nothing to copy and
begins the next round; it leaves `reloading` and `reload_task_worker` set.  From then on every
signal is ignored by the handler, and every round that it causes ends at the same place.
-/

namespace Swoole.SyncManager

open StepRun List ManagerProcess SyncManager

variable {m : SyncManager}

/-- A reload signal, or a step of the loop itself. -/
def ReloadOnly : Event → Prop
  | .signal sig | .interrupt sig => sig ≠ .term
  | .check | .reap _ _ _ | .kill => True
  | .waitFails | .exit _ => False

/-- Some worker that was copied for the reload has not been replaced yet. -/
def Remains (m : SyncManager) : Prop :=
  ∃ pids ∈ m.snapshot, ∃ pid ∈ pids, pid ∈ m.workers ∨ pid ∈ m.tasks.pids
  deriving Decidable

/-- **Locked out**: a reload is on its way, none of its workers is left to wait for, and whatever
reload signals come and whatever the loop does with them, the reload stays on its way.  So the
handler ignores them all. -/
structure LockedOut (m : SyncManager) : Prop where
  reloading : m.process.reloading = true
  noneLeft : ¬ m.Remains
  ignored : ∀ later : List Event, (∀ event ∈ later, ReloadOnly event) →
    (run step m later).process.reloading = true

/-- The server is not told to stop. -/
def Continues : Event → Prop
  | .signal sig | .interrupt sig => sig ≠ .term
  | .waitFails | .exit _ | .check | .reap _ _ _ | .kill => True

instance : ∀ event, Decidable (Continues event)
  | .signal sig | .interrupt sig => inferInstanceAs (Decidable (sig ≠ .term))
  | .waitFails | .exit _ | .check | .reap _ _ _ | .kill => .isTrue trivial

/-- A `SIGUSR2` that begins a reload finds task workers. -/
def Answerable (m : SyncManager) : Event → Prop
  | .signal sig | .interrupt sig =>
    sig = .usr2 → m.process.Begins sig → 0 < m.tasks.workers.length
  | .waitFails | .exit _ | .check | .reap _ _ _ | .kill => True

instance (m : SyncManager) : ∀ event, Decidable (m.Answerable event)
  | .signal _ | .interrupt _ => inferInstanceAs (Decidable (_ → _ → _))
  | .waitFails | .exit _ | .check | .reap _ _ _ | .kill => .isTrue trivial

variable {event : Event}

theorem ReloadOnly.continues (h : ReloadOnly event) : Continues event := by
  cases event <;> first | exact h | trivial

/-! ## The invariant -/

/-- The loop runs, and if the task workers are to be copied there are some. -/
structure Serving (m : SyncManager) : Prop where
  running : m.process.running = true
  place : m.place ≠ .stopped
  tasks : m.process.reloadTaskWorker = true → m.tasks.workers ≠ []

theorem init_serving (workers : List ℕ) (taskForks : List (Option ℕ)) :
    (init workers taskForks).Serving where
  running := rfl
  place := nofun
  tasks := nofun

namespace Serving

variable (h : m.Serving)
include h

theorem nextPlace : m.process.nextPlace = .waiting :=
  if_pos h.running

theorem nextRound : m.nextRound.Serving where
  running := h.running
  place := by
    show m.process.nextPlace ≠ .stopped
    rw [h.nextPlace]
    nofun
  tasks := h.tasks

theorem signal {sig : ManagerSignal} (hsig : sig ≠ .term)
    (hanswer : sig = .usr2 → m.process.Begins sig → 0 < m.tasks.workers.length) :
    (m.signal sig).Serving := by
  cases sig with
  | term => exact absurd rfl hsig
  | usr1 =>
    refine ⟨?_, h.place, ?_⟩
    all_goals
      simp only [SyncManager.signal, signalHandle]
      split_ifs
    · exact h.running
    · exact h.running
    all_goals exact h.tasks
  | usr2 =>
    by_cases hreloading : m.process.reloading = true
    · refine ⟨?_, h.place, ?_⟩
      all_goals simp only [SyncManager.signal, signalHandle, if_pos hreloading]
      · exact h.running
      · exact h.tasks
    · have htasks := hanswer rfl ⟨hsig, eq_false_of_ne_true hreloading⟩
      refine ⟨?_, h.place, fun _ => length_pos_iff.mp htasks⟩
      simp only [SyncManager.signal, signalHandle, if_neg hreloading]
      exact h.running

theorem check (pid : Option ℕ) : (m.check pid).Serving := by
  unfold SyncManager.check
  split
  · exact ⟨h.running, nofun, h.tasks⟩
  · exact ⟨h.running, nofun, h.tasks⟩
  · exact ⟨h.running, nofun, nofun⟩
  · exact h.nextRound

theorem reap (pid : Option ℕ) (forks : ℕ → ℕ) (taskFork : Option ℕ) (pick : ℕ) :
    (m.reap pid forks taskFork pick).Serving := by
  unfold SyncManager.reap
  split
  · split_ifs
    · refine ⟨h.running, (by rintro ⟨⟩), fun hflag => ?_⟩
      have htasks := h.tasks hflag
      rw [← length_pos_iff] at htasks ⊢
      simp only [replace]
      split_ifs
      · rwa [TaskPool.length_workers_exited]
      · exact htasks
    · exact ⟨h.running, (by rintro ⟨⟩), h.tasks⟩
  · exact ⟨h.running, (by rintro ⟨⟩), h.tasks⟩

theorem kill : m.kill.Serving := by
  unfold SyncManager.kill
  split_ifs
  · exact nextRound ⟨h.running, h.place, h.tasks⟩
  · exact nextRound ⟨h.running, h.place, h.tasks⟩
  · exact h.nextRound

/-- **One step.** -/
theorem step (hcontinues : Continues event) (hanswer : m.Answerable event) :
    (m.step event).Serving := by
  unfold SyncManager.step
  split
  · exact h.signal hcontinues hanswer
  · have hsignal := h.signal hcontinues hanswer
    exact ⟨hsignal.running, nofun, hsignal.tasks⟩
  · exact ⟨h.running, nofun, h.tasks⟩
  · exact ⟨h.running, nofun, h.tasks⟩
  · exact h.check _
  · exact h.reap _ _ _ _
  · exact h.kill
  · exact h

end Serving

/-! ## More signals bring a reload to its end -/

/-- The copies that are still asked for. -/
def copies (m : SyncManager) : ℕ :=
  m.process.reloadEventWorker.toNat + m.process.reloadTaskWorker.toNat

/-- The workers that the reload step has still to come to. -/
def left (m : SyncManager) : ℕ := m.reloadWorkerNum - m.reloadWorkerI

/-- How far it is to the reload step. -/
def distance : ManagerPlace → ℕ
  | .waiting => 3
  | .returned _ => 2
  | .reaping _ => 1
  | .killing | .stopped => 0

/-- What becomes smaller with each step of the loop, in this order. -/
def remaining (m : SyncManager) : ℕ × ℕ × ℕ := (m.copies, m.left, distance m.place)

/-- The order of `remaining`. -/
def Less : ℕ × ℕ × ℕ → ℕ × ℕ × ℕ → Prop := Prod.Lex (· < ·) (Prod.Lex (· < ·) (· < ·))

theorem less_wf : WellFounded Less :=
  (Prod.lex ⟨_, Nat.lt_wfRel.wf⟩ (Prod.lex ⟨_, Nat.lt_wfRel.wf⟩ ⟨_, Nat.lt_wfRel.wf⟩)).wf

theorem less_iff {a b : ℕ × ℕ × ℕ} :
    Less a b ↔ a.1 < b.1 ∨ a.1 = b.1 ∧ (a.2.1 < b.2.1 ∨ a.2.1 = b.2.1 ∧ a.2.2 < b.2.2) := by
  rw [Less, Prod.lex_def, Prod.lex_def]

theorem signal_ignored (hreloading : m.process.reloading = true) (sig : ManagerSignal)
    (hsig : sig ≠ .term) : m.signal sig = m := by
  have hnot : ¬ m.process.Begins sig := fun h => by
    rw [h.2] at hreloading
    nomatch hreloading
  have hprocess : m.process.signalHandle sig = m.process := by
    cases sig with
    | term => exact absurd rfl hsig
    | usr1 => exact if_pos hreloading
    | usr2 => exact if_pos hreloading
  rw [signal, hprocess, if_neg hnot]

variable {pid : Option ℕ}

theorem remaining_check (h : m.Serving) (hplace : m.place = .returned pid) :
    Less (m.check pid).remaining m.remaining := by
  rw [less_iff]
  unfold check
  split
  · exact .inr ⟨rfl, .inr ⟨rfl, by simp [remaining, hplace, distance]⟩⟩
  · -- a copy takes its flag back
    rename_i hcopy
    have hevent := (afterWait_copyAll hcopy).2
    left
    simp [remaining, copies, snapshotAll, hevent]
  · rename_i hcopy
    have hflag := (afterWait_copyTasks hcopy).2.2
    left
    simp [remaining, copies, snapshotTasks, copyWorkers, hflag]
  · rename_i hnext
    obtain ⟨hflag, hempty⟩ := afterWait_nextRound hnext
    exact absurd (by simpa using hempty) (h.tasks hflag)

theorem remaining_reap (hplace : m.place = .reaping pid) (forks : ℕ → ℕ) (taskFork : Option ℕ)
    (pick : ℕ) : Less (m.reap pid forks taskFork pick).remaining m.remaining := by
  rw [less_iff]
  unfold reap
  split
  · split_ifs <;> exact .inr ⟨rfl, .inr ⟨rfl, by simp [remaining, hplace, distance]⟩⟩
  · exact .inr ⟨rfl, .inr ⟨rfl, by simp [remaining, hplace, distance]⟩⟩

theorem remaining_kill (hreloading : m.process.reloading = true) :
    m.kill.process.reloading = false ∨ Less m.kill.remaining m.remaining := by
  unfold kill
  split_ifs with hdone
  · exact .inl rfl
  · refine .inr (less_iff.mpr (.inr ⟨rfl, .inl ?_⟩))
    show m.reloadWorkerNum - (m.reloadWorkerI + 1) < m.reloadWorkerNum - m.reloadWorkerI
    omega

/-- **The loop gets on**: by a signal if it is in `wait`, and by its own step elsewhere. -/
theorem Serving.progress (h : m.Serving) (hreloading : m.process.reloading = true) :
    ∃ event, ReloadOnly event ∧ ((m.step event).process.reloading = false ∨
      (m.step event).Serving ∧ Less (m.step event).remaining m.remaining) := by
  have hserving {event : Event} (hreload : ReloadOnly event) : (m.step event).Serving := by
    refine h.step hreload.continues ?_
    -- nothing begins while a reload is on its way
    cases event with
    | signal sig | interrupt sig =>
      exact fun _ hbegins => absurd (hbegins.2.symm.trans hreloading) Bool.false_ne_true
    | waitFails | exit pid | check | reap forks taskFork pick | kill => trivial
  cases hplace : m.place with
  | waiting =>
    have husr1 : ReloadOnly (.interrupt .usr1) := nofun
    refine ⟨.interrupt .usr1, husr1, .inr ⟨hserving husr1, ?_⟩⟩
    have hstep : m.step (.interrupt .usr1) = { m with place := .returned none } := by
      simp only [SyncManager.step, hplace]
      rw [signal_ignored hreloading .usr1 nofun]
    rw [hstep, less_iff]
    exact .inr ⟨rfl, .inr ⟨rfl, by simp [remaining, hplace, distance]⟩⟩
  | returned pid =>
    refine ⟨.check, trivial, .inr ⟨hserving trivial, ?_⟩⟩
    have hstep : m.step .check = m.check pid := by simp only [SyncManager.step, hplace]
    rw [hstep]
    exact remaining_check h hplace
  | reaping pid =>
    refine ⟨.reap (fun _ => 1) none 0, trivial, .inr ⟨hserving trivial, ?_⟩⟩
    have hstep : m.step (.reap (fun _ => 1) none 0) = m.reap pid (fun _ => 1) none 0 := by
      simp only [SyncManager.step, hplace]
    rw [hstep]
    exact remaining_reap hplace _ _ _
  | killing =>
    refine ⟨.kill, trivial, ?_⟩
    have hstep : m.step .kill = m.kill := by simp only [SyncManager.step, hplace]
    have hserved : (m.step .kill).Serving := hserving trivial
    rw [hstep] at hserved ⊢
    exact (remaining_kill hreloading).imp id fun hless => ⟨hserved, hless⟩
  | stopped => exact absurd hplace h.place

theorem Serving.exists_heard (h : m.Serving) :
    ∃ later : List Event, (∀ event ∈ later, ReloadOnly event) ∧
      (run SyncManager.step m later).process.reloading = false :=
  exists_run_of_measure (I := Serving) less_wf remaining
    (fun _ hm hreloading => hm.progress (eq_true_of_ne_false hreloading)) h

/-- **Reload requests are not locked out** unless a `SIGUSR2` finds no task workers. -/
theorem not_locked_out_run (workers : List ℕ) (taskForks : List (Option ℕ)) (events : List Event)
    (hcontinues : ∀ event ∈ events, Continues event)
    (hanswer : EachStep step Answerable (init workers taskForks) events) (used : List Event)
    (hused : used <+: events) : ¬ (run step (init workers taskForks) used).LockedOut := by
  have hserving : (run step (init workers taskForks) used).Serving :=
    EachStep.run_invariant (P := Serving) (fun _ _ h hevent => h.step hevent.1 hevent.2)
      (((eachStep_of_forall hcontinues _).and hanswer).restrict hused)
      (init_serving workers taskForks)
  intro hlocked
  obtain ⟨later, hlater, hheard⟩ := hserving.exists_heard
  exact Bool.false_ne_true (hheard.symm.trans (hlocked.ignored later hlater))

/-- A worker and a task worker, which is reloaded. -/
theorem not_locked_out_task_worker :
    let events : List Event :=
      [.interrupt .usr2, .check, .kill, .exit 101, .check, .reap (fun _ => 0) (some 102) 0]
    (∀ event ∈ events, Continues event) ∧
      EachStep step Answerable (init [100] [some 101]) events ∧
      (run step (init [100] [some 101]) events).tasks.pids = [102] ∧
      ¬ (run step (init [100] [some 101]) events).LockedOut :=
  ⟨by decide, by decide, by decide,
    not_locked_out_run _ _ _ (by decide) (by decide) _ (prefix_refl _)⟩

/-! ## Without task workers -/

/-- Where `SIGUSR2` leaves a server without task workers. -/
structure Stuck (m : SyncManager) : Prop where
  reloading : m.process.reloading = true
  event : m.process.reloadEventWorker = false
  task : m.process.reloadTaskWorker = true
  running : m.process.running = true
  tasks : m.tasks.workers = []
  place : m.place = .waiting ∨ m.place = .returned none

/-- The tests of the flags lead back to `wait`, past the reload step. -/
theorem Stuck.check (h : m.Stuck) : (m.check none).Stuck := by
  have hafter : m.process.afterWait none (m.tasks.workers ≠ []) = .nextRound := by
    simp [afterWait, h.reloading, h.event, h.task, h.tasks]
  have hcheck : m.check none = m.nextRound := by
    rw [SyncManager.check, hafter]
  rw [hcheck]
  exact ⟨h.reloading, h.event, h.task, h.running, h.tasks, .inl (if_pos h.running)⟩

theorem Stuck.step (h : m.Stuck) (hreload : ReloadOnly event) : (m.step event).Stuck := by
  cases event with
  | signal sig =>
    have hstep : m.step (.signal sig) = m := signal_ignored h.reloading sig hreload
    rwa [hstep]
  | interrupt sig =>
    rcases h.place with hplace | hplace
    · have hstep : m.step (.interrupt sig) = { m with place := .returned none } := by
        simp only [step, hplace]
        rw [signal_ignored h.reloading sig hreload]
      rw [hstep]
      exact ⟨h.reloading, h.event, h.task, h.running, h.tasks, .inr rfl⟩
    · simpa only [step, hplace] using h
  | check =>
    rcases h.place with hplace | hplace
    · simpa only [step, hplace] using h
    · simpa only [step, hplace] using h.check
  | reap forks taskFork pick =>
    rcases h.place with hplace | hplace <;> simpa only [step, hplace] using h
  | kill =>
    rcases h.place with hplace | hplace <;> simpa only [step, hplace] using h
  | waitFails => exact hreload.elim
  | exit pid => exact hreload.elim

/-- One worker and no task workers: after a `SIGUSR2` every reload signal is ignored. -/
theorem locked_out_no_task_workers :
    (run step (init [100] []) [.interrupt .usr2, .check]).LockedOut := by
  have hstuck : (run step (init [100] []) [.interrupt .usr2, .check]).Stuck :=
    ⟨rfl, rfl, rfl, rfl, rfl, .inl rfl⟩
  refine ⟨rfl, by decide, fun later hlater => ?_⟩
  exact (run_invariant_of_inputs (P := Stuck) (B := ReloadOnly) (fun _ _ hevent h => h.step hevent)
    later hlater hstuck).reloading

end Swoole.SyncManager
