import Swoole.Core.Socket

/-!
# Deferred callbacks

`swReactor_onFinish` walks through a list of callbacks, calls them, and frees their nodes in a
second pass.  What a callback defers itself is an input, as the nodes that `malloc` returns.
-/

namespace Swoole.Reactor

open List

variable {α : Type*}

/-- `swReactor_defer`, with the answer of `malloc`: the node that holds the callback. -/
def defer (list : List α) : Option α → List α × Ret
  | none => (list, .err)
  | some cb => (list ++ [cb], .ok)

/-- Some calls of `swReactor_defer`. -/
def deferAll (list : List α) (calls : List (Option α)) : List α :=
  calls.foldl (fun list malloc => (defer list malloc).1) list

/-- `defer_callback_list`, and the nodes whose callbacks were called, or that were freed. -/
structure Deferred (α : Type*) where
  list : List α
  called : List α
  freed : List α

/-- The loop that calls the callbacks.  The link to the next node is read when the callback has
returned; `calls i` is what the callback of the `i`-th round defers. -/
def callLoop (calls : ℕ → List (Option α)) : ℕ → ℕ → Deferred α → Option (Deferred α)
  | 0, _, _ => none
  | fuel + 1, i, s =>
    match s.list[i]? with
    | none => some s
    | some cb =>
      callLoop calls fuel (i + 1)
        { s with list := deferAll s.list (calls i), called := s.called ++ [cb] }

/-- `swReactor_onFinish`; what `swSignal_callback` defers comes first, and what the timers defer
that `swReactor_onTimeout_and_Finish` looks after comes last. -/
def onFinish (fuel : ℕ) (signal : List (Option α)) (calls : ℕ → List (Option α))
    (timers : List (Option α)) (list : List α) : Option (Deferred α) :=
  (callLoop calls fuel 0 ⟨deferAll list signal, [], []⟩).map fun s =>
    { s with list := deferAll [] timers, freed := s.list }

/-- What is registered after `n` rounds, in this order. -/
def registered (first : List α) (calls : ℕ → List (Option α)) : ℕ → List α
  | 0 => first
  | n + 1 => deferAll (registered first calls n) (calls n)

theorem prefix_deferAll (list : List α) (calls : List (Option α)) :
    list <+: deferAll list calls := by
  induction calls generalizing list with
  | nil => exact prefix_rfl
  | cons malloc calls ih =>
    refine IsPrefix.trans ?_ (ih _)
    cases malloc with
    | none => exact prefix_rfl
    | some cb => exact prefix_append ..

variable {first : List α} {calls : ℕ → List (Option α)} {n fuel i : ℕ}

/-- **The run lemma.**  After `i` rounds the first `i` callbacks have been called. -/
theorem callLoop_eq (hn : (registered first calls n).length ≤ n) (hle : i ≤ n)
    (hi : i ≤ (registered first calls i).length) (hfuel : n < fuel + i) :
    let all := registered first calls
    ∃ m, (all m).length = m ∧
      callLoop calls fuel i ⟨all i, (all i).take i, []⟩ = some ⟨all m, all m, []⟩ := by
  intro all
  induction fuel generalizing i with
  | zero => omega
  | succ fuel ih =>
    rw [callLoop]
    cases hcb : (all i)[i]? with
    | none =>
      have hlen := getElem?_eq_none_iff.mp hcb
      exact ⟨i, le_antisymm hlen hi, by simp only [take_of_length_le hlen]⟩
    | some cb =>
      have hlt := (List.getElem?_eq_some_iff.mp hcb).1
      have hmore : all i <+: all (i + 1) := prefix_deferAll (all i) (calls i)
      have hbelow : i < n := lt_of_le_of_ne hle fun heq => by
        subst heq
        exact absurd hn (not_le.mpr hlt)
      obtain ⟨m, hm, hrun⟩ := ih hbelow (hlt.trans_le hmore.length_le) (by omega)
      obtain ⟨rest, hrest⟩ := hmore
      refine ⟨m, hm, Eq.trans ?_ hrun⟩
      rw [← hrest, take_append_of_le_length hlt, hrest, take_add_one, hcb]
      rfl

/-- **Deferred callbacks.**  If the chain of registrations ends, what is registered before the loop
or in its rounds is called once, in the order of the registrations, and freed.  The list then holds
what the timers have deferred. -/
theorem onFinish_calls_registered (list : List α) (signal timers : List (Option α))
    (calls : ℕ → List (Option α)) (n fuel : ℕ) (hfuel : n < fuel)
    (hn : (registered (deferAll list signal) calls n).length ≤ n) :
    ∃ m, (registered (deferAll list signal) calls m).length = m ∧
      onFinish fuel signal calls timers list = some ⟨deferAll [] timers,
        registered (deferAll list signal) calls m, registered (deferAll list signal) calls m⟩ := by
  obtain ⟨m, hm, hloop⟩ := callLoop_eq hn (Nat.zero_le _) (Nat.zero_le _) hfuel
  exact ⟨m, hm, congrArg (Option.map _) hloop⟩

/-- The only callback defers another one. -/
def chain : ℕ → List (Option ℕ)
  | 0 => [some 2]
  | _ + 1 => []

theorem onFinish_calls_chain :
    ∃ m, (registered [1] chain m).length = m ∧
      onFinish 3 [] chain [] [1] = some ⟨[], registered [1] chain m, registered [1] chain m⟩ :=
  onFinish_calls_registered [1] [] [] chain 2 3 (by decide) (by decide)

/-- A callback that a timer defers is still in the list. -/
theorem not_empty_after_timer : onFinish 1 [] chain [some 1] [] = some ⟨[1], [], []⟩ := rfl

end Swoole.Reactor
