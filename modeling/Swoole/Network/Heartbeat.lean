import Swoole.Library.StepRun
import Mathlib.Logic.Function.Basic

/-!
# The range of the heartbeat

The heartbeat thread visits the connections from `minfd` to `maxfd`.  An accept raises `maxfd`; a
close of the connection at `maxfd` looks for the next one below.  The two bounds have no place of
their own: they are the `fd` fields of the first two entries of `connection_list`, which belong to
the descriptors 0 and 1.
-/

open Function StepRun

namespace Swoole

/-- `serv->connection_list`, the fields of an entry that the bounds depend on. -/
structure ConnectionList where
  fd : ℕ → ℕ
  active : ℕ → Bool

namespace ConnectionList

/-- No connection yet; the listening sockets have set the bounds. -/
def init (minfd maxfd : ℕ) : ConnectionList where
  fd
    | 0 => maxfd
    | 1 => minfd
    | _ => 0
  active _ := false

variable (s : ConnectionList)

/-- `swServer_get_maxfd`. -/
def maxfd : ℕ := s.fd 0

/-- `swServer_get_minfd`. -/
def minfd : ℕ := s.fd 1

/-- `swServer_set_maxfd`. -/
def setMaxfd (fd : ℕ) : ConnectionList := { s with fd := update s.fd 0 fd }

/-- The entry of a descriptor is written. -/
def write (fd value : ℕ) (active : Bool) : ConnectionList :=
  ⟨update s.fd fd value, update s.active fd active⟩

/-- `swServer_connection_new`. -/
def connectionNew (fd : ℕ) : ConnectionList :=
  (if s.maxfd < fd then s.setMaxfd fd else s).write fd fd true

/-- The search for the new `maxfd`, from a descriptor downwards. -/
def findMaxFd : ℕ → ℕ
  | 0 => 0
  | fd + 1 => if s.active (fd + 1) = false ∧ s.minfd < fd + 1 then findMaxFd fd else fd + 1

/-- `swReactorThread_close`; `deleted` says whether the reactor gives the descriptor back.
`swReactor_close` zeroes the entry. -/
def close (maxConnection fd : ℕ) (deleted : Bool) : ConnectionList :=
  if maxConnection < fd ∨ fd ≤ 2 ∨ deleted = false then s
  else (if fd = s.maxfd then s.setMaxfd (s.findMaxFd (fd - 1)) else s).write fd 0 false

inductive Event where
  | accept (fd : ℕ)
  | close (fd : ℕ) (deleted : Bool)
  deriving DecidableEq, Repr

def step (maxConnection : ℕ) (s : ConnectionList) : Event → ConnectionList
  | .accept fd => s.connectionNew fd
  | .close fd deleted => s.close maxConnection fd deleted

/-- **The heartbeat reaches every connection.** -/
def Covers : Prop := ∀ fd, s.active fd = true → fd ≤ s.maxfd

/-- **The condition**: the connection that is given the descriptor 0 is alone. -/
def Spares : Event → Prop
  | .accept fd => fd = 0 → ∀ other, s.active other = true → other = 0
  | .close _ _ => True

variable {s} {fd other value : ℕ} {active : Bool}

theorem maxfd_setMaxfd : (s.setMaxfd fd).maxfd = fd := by simp [setMaxfd, maxfd]

theorem maxfd_write (hfd : fd ≠ 0) : (s.write fd value active).maxfd = s.maxfd :=
  update_of_ne hfd.symm ..

theorem active_write (hne : other ≠ fd) : (s.write fd value active).active other = s.active other :=
  update_of_ne hne ..

theorem le_findMaxFd (hactive : s.active fd = true) {n : ℕ} (hle : fd ≤ n) :
    fd ≤ s.findMaxFd n := by
  induction n with
  | zero => exact hle
  | succ n ih =>
    rw [findMaxFd]
    split_ifs with hpass
    · refine ih (Nat.le_of_lt_succ (lt_of_le_of_ne hle ?_))
      rintro rfl
      exact absurd (hactive.symm.trans hpass.1) (by decide)
    · exact hle

/-- An entry other than that of `maxfd` is written, and `maxfd` is no less than the connections. -/
theorem covers_write (hfd : fd ≠ 0) (hown : active = true → fd ≤ s.maxfd)
    (hothers : ∀ other, other ≠ fd → s.active other = true → other ≤ s.maxfd) :
    (s.write fd value active).Covers := by
  intro other hother
  rw [maxfd_write hfd]
  by_cases hne : other = fd
  · subst hne
    exact hown ((update_self ..).symm.trans hother)
  · exact hothers other hne ((active_write hne).symm.trans hother)

theorem covers_connectionNew_iff (h : s.Covers) :
    (s.connectionNew fd).Covers ↔ s.Spares (.accept fd) := by
  by_cases hfd : fd = 0
  · -- the entry of the descriptor is the one of `maxfd`
    subst hfd
    rw [connectionNew, if_neg (Nat.not_lt_zero _)]
    have hmax : (s.write 0 0 true).maxfd = 0 := update_self 0 0 s.fd
    refine ⟨fun hcovers _ other hother => ?_, fun hspares other hother => ?_⟩
    · by_contra hne
      exact hne (Nat.le_zero.mp (hmax ▸ hcovers other ((active_write hne).trans hother)))
    · by_contra hne
      have hne' : other ≠ 0 := by omega
      exact hne' (hspares rfl other ((active_write hne').symm.trans hother))
  · refine iff_of_true ?_ fun hzero => absurd hzero hfd
    rw [connectionNew]
    split_ifs with hlt
    · refine covers_write hfd (fun _ => maxfd_setMaxfd.ge) fun other _ hother => ?_
      rw [maxfd_setMaxfd]
      exact (h other hother).trans hlt.le
    · exact covers_write hfd (fun _ => not_lt.mp hlt) fun other _ => h other

theorem covers_close (h : s.Covers) (maxConnection fd : ℕ) (deleted : Bool) :
    (s.close maxConnection fd deleted).Covers := by
  rw [close]
  split_ifs with hnone htop
  · exact h
  · refine covers_write (by omega) nofun fun other hne hother => ?_
    have hle := h other hother
    rw [maxfd_setMaxfd]
    exact @le_findMaxFd s other hother (fd - 1) (by omega)
  · exact covers_write (by omega) nofun fun other _ => h other

/-- **The bound covers every connection** after each step, exactly as long as no connection is
given the descriptor 0 while there are others. -/
theorem covers_iff_eachStep (minfd maxfd maxConnection : ℕ) (events : List Event) :
    (∀ used, used <+: events → (run (step maxConnection) (init minfd maxfd) used).Covers) ↔
      EachStep (step maxConnection) Spares (init minfd maxfd) events := by
  refine forall_prefix_iff_eachStep (I := fun _ => True) (Q := Covers) (fun _ _ _ _ _ => trivial)
    (fun s event _ h => ?_) events trivial nofun
  cases event with
  | accept fd => exact covers_connectionNew_iff h
  | close fd deleted => exact iff_of_true (covers_close h maxConnection fd deleted) trivial

/-- The standard input was closed, and its descriptor is that of the second client. -/
theorem not_covers_descriptor_zero :
    ¬ (run (step 1024) (init 3 3) [.accept 5, .accept 0]).Covers :=
  fun h => absurd (h 5 rfl) (by decide)

end ConnectionList

end Swoole
