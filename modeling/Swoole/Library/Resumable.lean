import Swoole.Library.StepRun

/-!
# Calls that are resumed by an oracle

An event handler asks its environment for something — the next bytes of a
socket, the outcome of a send — computes on the answer, and either asks again or
returns.  Such a handler is a **resumable call**: a state type, and one function
that says what an answer leads to.

The event loop enters the handler afresh after each return, when the environment has
settled the connection (`settle`).  `turn` is one answer, seen from outside: the
handler's own step, followed by `settle` when it returned.  Whether the handler asks
again or is entered again makes no difference to what the state becomes, so what is to
be shown about every way the answers may fall is shown about the runs of `turn`.
-/

universe u v w

/-- What an answer leads to: the next question, or the end of the call. -/
inductive Next (ρ : Type w) where
  | again
  | ret (value : ρ)
  deriving DecidableEq

/-- A handler that alternates questions to an oracle with computation. -/
structure Resumable (σ : Type u) (ι : Type v) (ρ : Type w) where
  /-- What the state becomes on an answer, and how the call goes on. -/
  step : σ → ι → σ × Next ρ
  /-- What the caller of the handler does with a returned value. -/
  settle : σ → ρ → σ

namespace Resumable

variable {σ : Type u} {ι : Type v} {ρ : Type w} (m : Resumable σ ι ρ)

/-- One answer, seen from outside the handler. -/
def turn (s : σ) (i : ι) : σ :=
  match m.step s i with
  | (s', .again) => s'
  | (s', .ret r) => m.settle s' r

variable {i : ι}

/-- What a step leads to and the caller's reaction keeps, a turn leads to. -/
theorem turn_invariant {P : σ → Prop} {s : σ} (hstep : P (m.step s i).1)
    (hsettle : ∀ s r, P s → P (m.settle s r)) : P (m.turn s i) := by
  unfold turn
  split
  · next s' heq => simpa only [heq] using hstep
  · next s' r heq => exact hsettle s' r (by simpa only [heq] using hstep)

end Resumable
