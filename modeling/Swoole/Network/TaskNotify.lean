import Swoole.Core.Socket

/-!
# The notification of a blocking task

`swTaskWorker_finish` writes to the `task_notify` pipe of the worker that waits for the result,
and does so again while `errno` is `EAGAIN` and the pipe is writable.  It does not look at what
`write` has returned, and a `write` that succeeds leaves `errno` alone: behind an old `EAGAIN` the
notification is sent over and over.
-/

namespace Swoole.TaskNotify

/-- How `poll` ends. -/
inductive PollAnswer where
  | ready
  | timedOut
  | failed (errno : Errno)
  deriving DecidableEq, Repr

/-- `swSocket_wait`: whether it returns `SW_OK`, and `errno` behind it. -/
def socketWait (errno : Errno) : PollAnswer → Bool × Errno
  | .ready => (true, errno)
  | .timedOut => (false, errno)
  | .failed e => (e = .eintr, e)

/-- What the kernel answers in one round: the error of a `write` that fails, and the end of a
`poll`. -/
structure Round where
  write : Option Errno
  poll : PollAnswer
  deriving DecidableEq, Repr

/-- The notifications a call has written, and how it has returned, if it has. -/
structure Notified where
  written : ℕ
  returned : Option Ret
  deriving DecidableEq, Repr

/-- The loop of `swTaskWorker_finish`, for so many answers.  `errno` is what the calls before it
left. -/
def notifyLoop : Errno → List Round → Notified
  | _, [] => ⟨0, none⟩
  | errno, r :: rounds =>
    let errno' := r.write.getD errno
    let written := if r.write = none then 1 else 0
    if errno' = .eagain ∧ (socketWait errno' r.poll).1 = true then
      let rest := notifyLoop (socketWait errno' r.poll).2 rounds
      ⟨written + rest.written, rest.returned⟩
    else ⟨written, some (if r.write = none then .ok else .err)⟩

/-- **One notification**: behind the first one the call has returned, and with success there is
one. -/
structure Once (n : Notified) : Prop where
  stops : 0 < n.written → n.returned = some .ok
  one : n.returned = some .ok → n.written = 1

/-- At the first `write` that succeeds `errno` is not `EAGAIN`, or the `poll` behind it fails. -/
def FirstSettles : Errno → List Round → Prop
  | _, [] => True
  | errno, r :: rounds =>
    match r.write with
    | none => ¬ (errno = .eagain ∧ (socketWait errno r.poll).1 = true)
    | some e =>
      e = .eagain ∧ (socketWait e r.poll).1 = true → FirstSettles (socketWait e r.poll).2 rounds

theorem written_pos {errno : Errno} {rounds : List Round}
    (h : (notifyLoop errno rounds).returned = some .ok) :
    0 < (notifyLoop errno rounds).written := by
  induction rounds generalizing errno with
  | nil => cases h
  | cons r rounds ih =>
    unfold notifyLoop at h ⊢
    simp only at h ⊢
    split_ifs at h ⊢ with hagain hwrite
    · exact Nat.add_pos_left one_pos _
    · exact Nat.add_pos_right _ (ih h)
    · exact one_pos
    · cases h

/-- **A finished task is notified once**, exactly if no old `EAGAIN` is taken for one of the first
`write` that succeeds. -/
theorem once_iff_firstSettles (errno : Errno) (rounds : List Round) :
    Once (notifyLoop errno rounds) ↔ FirstSettles errno rounds := by
  induction rounds generalizing errno with
  | nil => exact iff_of_true ⟨nofun, nofun⟩ trivial
  | cons r rounds ih =>
    obtain ⟨_ | e, poll⟩ := r
    · simp only [notifyLoop, FirstSettles, Option.getD_none, if_true]
      by_cases hagain : errno = .eagain ∧ (socketWait errno poll).1 = true
      · rw [if_pos hagain]
        -- the loop goes on, and a success later on is a second notification
        refine iff_of_false (fun h => ?_) (not_not_intro hagain)
        have hok := h.stops (Nat.add_pos_left one_pos _)
        have hone := h.one hok
        have hpos := written_pos hok
        simp only at hone
        omega
      · rw [if_neg hagain]
        exact iff_of_true ⟨fun _ => rfl, fun _ => rfl⟩ hagain
    · simp only [notifyLoop, FirstSettles, Option.getD_some, reduceCtorEq, if_false, zero_add]
      by_cases hagain : e = .eagain ∧ (socketWait e poll).1 = true
      · rw [if_pos hagain, forall_prop_of_true hagain]
        exact ih _
      · rw [if_neg hagain]
        exact iff_of_true ⟨nofun, nofun⟩ fun h => absurd h hagain

/-- `errno` is `EAGAIN` before the first `write`, and the pipe stays writable: two notifications. -/
theorem not_once_stale_eagain :
    notifyLoop .eagain [⟨none, .ready⟩, ⟨none, .failed .other⟩] = ⟨2, some .ok⟩ ∧
      ¬ Once (notifyLoop .eagain [⟨none, .ready⟩, ⟨none, .failed .other⟩]) :=
  ⟨by decide, fun h => absurd (h.one rfl) (by decide)⟩

end Swoole.TaskNotify
