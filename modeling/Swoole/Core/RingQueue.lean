import Mathlib.Data.Nat.ModEq
import Swoole.Library.StepRun

/-!
# `swRingQueue`

A ring of pointers: `head` is where the oldest one is, `tail` is where the next one goes.  The
two meet when the queue is empty and when it is full, and `tag` tells these apart.  It is set
by the push that makes them meet and reset by the pop that does; in between, when they are
apart, it keeps whatever value it had.

This is the version that is compiled without `SW_USE_RINGQUEUE_TS`.  `pushed` and `popped` are
history variables: the pointers that `swRingQueue_push` has taken and that `swRingQueue_pop`
has given back, oldest first.
-/

namespace Swoole

open StepRun List Function

/-- `swRingQueue`; `data` is the array by its indices. -/
structure RingQueue (α : Type*) where
  head : ℕ
  tail : ℕ
  tag : Bool
  size : ℕ
  data : ℕ → α
  pushed : List α
  popped : List α

namespace RingQueue

variable {α : Type*}

/-- `swRingQueue_init`, when the allocation succeeds; the array is zeroed. -/
def init (null : α) (bufferSize : ℕ) : RingQueue α where
  head := 0
  tail := 0
  tag := false
  size := bufferSize
  data := fun _ => null
  pushed := []
  popped := []

variable (q : RingQueue α)

/-- `swRingQueue_empty`. -/
def Empty : Prop := q.head = q.tail ∧ q.tag = false
  deriving Decidable

/-- `swRingQueue_full`. -/
def Full : Prop := q.head = q.tail ∧ q.tag = true
  deriving Decidable

/-- `swRingQueue_push` stores the pointer. -/
def put (x : α) : RingQueue α :=
  let tail := (q.tail + 1) % q.size
  { q with
    data := Function.update q.data q.tail x
    tail := tail
    tag := if tail = q.head then true else q.tag
    pushed := q.pushed ++ [x] }

/-- `swRingQueue_push`, and whether it returns `SW_OK`. -/
def push (x : α) : RingQueue α × Bool :=
  if q.Full then (q, false) else (q.put x, true)

/-- `swRingQueue_pop` gives back the pointer at the head. -/
def take : RingQueue α :=
  let head := (q.head + 1) % q.size
  { q with
    head := head
    tag := if q.tail = head then false else q.tag
    popped := q.popped ++ [q.data q.head] }

/-- `swRingQueue_pop`, and what it stores in `*pop_data` when it returns `SW_OK`. -/
def pop : RingQueue α × Option α :=
  if q.Empty then (q, none) else (q.take, some (q.data q.head))

/-- A call of one of the two functions. -/
inductive Op (α : Type*) where
  | push (x : α)
  | pop
  deriving DecidableEq, Repr

/-- One call. -/
def step (q : RingQueue α) : Op α → RingQueue α
  | .push x => (q.push x).1
  | .pop => q.pop.1

/-! ## The contract -/

/-- The pointers that the queue holds. -/
def count : ℕ := q.pushed.length - q.popped.length

/-- **The contract of a state**: what was popped is the beginning of what was pushed, and the
queue holds at most `size` pointers. -/
structure Fifo : Prop where
  popped : q.popped <+: q.pushed
  bounded : q.count ≤ q.size

/-- **The contract of a call**: a push fails just when the queue holds `size` pointers, and a
pop just when it holds none.  A pop returns the oldest pointer that was pushed and not popped,
and the two histories record what was taken and what was given back. -/
def Answers : Op α → Prop
  | .push x => ((q.push x).2 = false ↔ q.count = q.size) ∧
    (q.push x).1.pushed = q.pushed ++ if (q.push x).2 then [x] else []
  | .pop => (q.pop.2 = none ↔ q.count = 0) ∧ q.pop.2 = (q.pushed.drop q.popped.length).head? ∧
    q.pop.1.popped = q.popped ++ q.pop.2.toList

/-! ## The ring -/

/-- Offsets from the head that are smaller than the size stand for different indices. -/
theorem index_injective {size head i j : ℕ} (hi : i < size) (hj : j < size)
    (h : (head + i) % size = (head + j) % size) : i = j := by
  have hmod : i % size = j % size := Nat.ModEq.add_left_cancel' head h
  rwa [Nat.mod_eq_of_lt hi, Nat.mod_eq_of_lt hj] at hmod

/-- The tail meets the head when there is nothing or everything between them. -/
theorem index_eq_head_iff {size head n : ℕ} (hhead : head < size) (hn : n ≤ size) :
    (head + n) % size = head ↔ n = 0 ∨ n = size := by
  constructor
  · intro h
    rcases Nat.lt_or_eq_of_le hn with hlt | heq
    · left
      refine @index_injective size head n 0 hlt (Nat.zero_lt_of_lt hhead) ?_
      rw [h, add_zero, Nat.mod_eq_of_lt hhead]
    · exact .inr heq
  · rintro (rfl | rfl)
    · exact Nat.mod_eq_of_lt hhead
    · rw [Nat.add_mod_right, Nat.mod_eq_of_lt hhead]

/-- The queue holds `items`, the oldest one first.  The tag matters only where the ends meet. -/
structure Holds (items : List α) : Prop where
  head_lt : q.head < q.size
  conserved : q.pushed = q.popped ++ items
  bounded : items.length ≤ q.size
  tail : q.tail = (q.head + items.length) % q.size
  tag_empty : items = [] → q.tag = false
  tag_full : items.length = q.size → q.tag = true
  cells : ∀ i (h : i < items.length), q.data ((q.head + i) % q.size) = items.get ⟨i, h⟩

theorem init_holds (null : α) {size : ℕ} (hsize : 0 < size) : (init null size).Holds [] where
  head_lt := hsize
  conserved := rfl
  bounded := Nat.zero_le _
  tail := (Nat.mod_eq_of_lt hsize).symm
  tag_empty := fun _ => rfl
  tag_full := fun h => absurd h (ne_of_lt hsize)
  cells := fun _ h => absurd h (Nat.not_lt_zero _)

namespace Holds

variable {q} {items : List α} (h : q.Holds items)
include h

theorem count_eq : q.count = items.length := by
  rw [count, h.conserved, length_append, Nat.add_sub_cancel_left]

theorem meet_iff : q.head = q.tail ↔ items.length = 0 ∨ items.length = q.size := by
  rw [h.tail, eq_comm]
  exact index_eq_head_iff h.head_lt h.bounded

theorem full_iff : q.Full ↔ items.length = q.size := by
  constructor
  · rintro ⟨hmeet, htag⟩
    rcases h.meet_iff.mp hmeet with hnil | hfull
    · -- an empty queue has its tag reset
      rw [h.tag_empty (length_eq_zero_iff.mp hnil)] at htag
      exact absurd htag Bool.false_ne_true
    · exact hfull
  · intro hfull
    exact ⟨h.meet_iff.mpr (.inr hfull), h.tag_full hfull⟩

theorem empty_iff : q.Empty ↔ items = [] := by
  constructor
  · rintro ⟨hmeet, htag⟩
    rcases h.meet_iff.mp hmeet with hnil | hfull
    · exact length_eq_zero_iff.mp hnil
    · rw [h.tag_full hfull] at htag
      exact absurd htag.symm Bool.false_ne_true
  · intro hnil
    exact ⟨h.meet_iff.mpr (.inl (by rw [hnil]; rfl)), h.tag_empty hnil⟩

theorem fifo : q.Fifo where
  popped := ⟨items, h.conserved.symm⟩
  bounded := h.count_eq ▸ h.bounded

theorem data_head (hempty : ¬ q.Empty) : items.head? = some (q.data q.head) := by
  obtain _ | ⟨x, rest⟩ := items
  · exact absurd (h.empty_iff.mpr rfl) hempty
  · have hcell := h.cells 0 (Nat.zero_lt_succ _)
    rw [add_zero, Nat.mod_eq_of_lt h.head_lt] at hcell
    rw [hcell]
    rfl

theorem answers (op : Op α) : q.Answers op := by
  cases op with
  | push x =>
    have hok : (q.push x).2 = false ↔ q.Full := by
      unfold push
      split <;> simp_all
    refine ⟨hok.trans (h.count_eq ▸ h.full_iff), ?_⟩
    unfold push
    split
    · exact (append_nil _).symm
    · rfl
  | pop =>
    have hok : q.pop.2 = none ↔ q.Empty := by
      unfold pop
      split <;> simp_all
    refine ⟨hok.trans (h.count_eq ▸ h.empty_iff.trans length_eq_zero_iff.symm), ?_⟩
    rw [h.conserved, drop_left]
    unfold pop
    split
    · next hempty =>
      rw [h.empty_iff.mp hempty]
      exact ⟨rfl, (append_nil _).symm⟩
    · next hempty => exact ⟨(h.data_head hempty).symm, rfl⟩

theorem tail_succ : (q.tail + 1) % q.size = (q.head + (items.length + 1)) % q.size := by
  rw [h.tail, Nat.mod_add_mod, add_assoc]

theorem put (hroom : items.length < q.size) (x : α) :
    (q.put x).Holds (items ++ [x]) where
  head_lt := h.head_lt
  conserved := by
    show q.pushed ++ [x] = q.popped ++ (items ++ [x])
    rw [h.conserved, append_assoc]
  bounded := by
    rw [length_append]
    exact hroom
  tail := by
    rw [length_append]
    exact h.tail_succ
  tag_empty := fun hnil => absurd hnil (by simp)
  tag_full := by
    intro hfull
    rw [length_append] at hfull
    have hmeet : (q.tail + 1) % q.size = q.head := by
      rw [h.tail_succ]
      exact (index_eq_head_iff h.head_lt hroom).mpr (.inr hfull)
    exact if_pos hmeet
  cells := by
    intro i hi
    rw [length_append, length_singleton] at hi
    show update q.data q.tail x ((q.head + i) % q.size) = _
    rcases Nat.lt_or_eq_of_le (Nat.le_of_lt_succ hi) with hold | rfl
    · -- the cell of an older item is not the one that is written
      have hne : (q.head + i) % q.size ≠ q.tail := by
        rw [h.tail]
        exact fun heq =>
          absurd (index_injective (hold.trans hroom) hroom heq) (ne_of_lt hold)
      rw [update_of_ne hne, h.cells i hold]
      simp [getElem_append_left hold]
    · rw [← h.tail, update_self]
      simp

omit h

theorem take {x : α} {items : List α} (h : q.Holds (x :: items)) : q.take.Holds items where
  head_lt := Nat.mod_lt _ (Nat.zero_lt_of_lt h.head_lt)
  conserved := by
    have hfront := h.data_head fun hempty => cons_ne_nil _ _ (h.empty_iff.mp hempty)
    rw [head?_cons, Option.some_inj] at hfront
    show q.pushed = q.popped ++ [q.data q.head] ++ items
    rw [← hfront, h.conserved, append_assoc, singleton_append]
  bounded := Nat.le_of_succ_le h.bounded
  tail := by
    show q.tail = ((q.head + 1) % q.size + items.length) % q.size
    rw [h.tail, Nat.mod_add_mod, length_cons, add_assoc, add_comm 1]
  tag_empty := by
    rintro rfl
    exact if_pos h.tail
  tag_full := by
    intro hfull
    exact absurd h.bounded (by rw [length_cons, hfull]; exact Nat.not_succ_le_self _)
  cells := by
    intro i hi
    have hcell := h.cells (i + 1) (Nat.succ_lt_succ hi)
    show q.data (((q.head + 1) % q.size + i) % q.size) = _
    rw [Nat.mod_add_mod, add_assoc, add_comm 1]
    exact hcell

theorem step (h : q.Holds items) (op : Op α) : ∃ items', (q.step op).Holds items' := by
  cases op with
  | push x =>
    show ∃ items', (q.push x).1.Holds items'
    rw [push]
    split
    · exact ⟨items, h⟩
    · next hfull =>
      have hroom : items.length < q.size :=
        lt_of_le_of_ne h.bounded fun heq => hfull (h.full_iff.mpr heq)
      exact ⟨items ++ [x], h.put hroom x⟩
  | pop =>
    show ∃ items', q.pop.1.Holds items'
    rw [pop]
    split
    · exact ⟨items, h⟩
    · next hempty =>
      obtain _ | ⟨x, rest⟩ := items
      · exact absurd (h.empty_iff.mpr rfl) hempty
      · exact ⟨rest, h.take⟩

end Holds

/-- Some list of items is what the queue holds. -/
def Inv : Prop := ∃ items, q.Holds items

theorem inv_step {q : RingQueue α} (h : q.Inv) (op : Op α) : (q.step op).Inv := by
  obtain ⟨items, hitems⟩ := h
  exact hitems.step op

/-- **`swRingQueue` is a bounded FIFO**: whatever is called, the pointers popped so far are the
first ones of those pushed so far, each pop returns the oldest pointer not popped yet, a push
fails exactly when `size` pointers are held and a pop fails exactly when none is. -/
theorem bounded_fifo_run (null : α) (size : ℕ) (hsize : 0 < size) (ops : List (Op α)) :
    (∀ used, used <+: ops → (run step (init null size) used).Fifo) ∧
      EachStep step Answers (init null size) ops := by
  have hinit : (init null size).Inv := ⟨[], init_holds null hsize⟩
  constructor
  · intro used _
    obtain ⟨items, hitems⟩ := run_invariant (P := Inv) (fun _ op h => inv_step h op) used hinit
    exact hitems.fifo
  · exact eachStep_of_invariant (P := Inv) (B := fun _ => True)
      (fun _ op _ h => h.elim fun _ hitems => hitems.answers op)
      (fun _ op _ h _ => inv_step h op) ops (fun _ _ => trivial) hinit

/-- A queue of capacity one is filled, refuses, is emptied and refuses again. -/
theorem bounded_fifo_capacity_one :
    (∀ used, used <+: [Op.push 7, .push 8, .pop, .pop, .push 9] → (run step (init 0 1) used).Fifo) ∧
      EachStep step Answers (init 0 1) [Op.push 7, .push 8, .pop, .pop, .push 9] ∧
      (run step (init 0 1) [Op.push 7, .push 8, .pop, .pop, .push 9]).popped = [7] :=
  ⟨(bounded_fifo_run 0 1 (by decide) _).1, (bounded_fifo_run 0 1 (by decide) _).2, by decide⟩

end RingQueue

end Swoole
