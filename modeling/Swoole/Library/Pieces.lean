import Mathlib.Data.List.Basic

/-!
# Messages in pieces

A message that is too long to travel in one go is cut into pieces, which follow one
another on an ordered channel, one message after the other.  A receiver of such a
stream is at a boundary between two messages, or behind a piece that was not the last
of its message: this is a `Cursor`.

* `Follows c q` — the piece `q` is what a receiver at `c` may get next;
* `Linked c qs c'` — the pieces `qs` lead from the cursor `c` to the cursor `c'`;
* `finished qs` — the tags of the messages that end in `qs`;
* `prefix_append_content` — what precedes a piece of its message, followed by the
  piece, is what precedes the next one.
-/

namespace Pieces

universe u v

/-- A non-empty part of a message, with a tag that says whose message it is. -/
structure Piece (τ : Type u) (α : Type v) where
  tag : τ
  message : List α
  start : ℕ
  stop : ℕ
  start_lt : start < stop
  stop_le : stop ≤ message.length

variable {τ : Type u} {α : Type v}

/-- The elements of the message that the piece carries. -/
def Piece.content (q : Piece τ α) : List α := (q.message.drop q.start).take (q.stop - q.start)

/-- Nothing, or the piece received last, if its message goes on. -/
abbrev Cursor (τ : Type u) (α : Type v) := Option (Piece τ α)

/-- The cursor behind a piece. -/
def Piece.next (q : Piece τ α) : Cursor τ α :=
  if q.stop = q.message.length then none else some q

/-- A piece begins a message at a boundary, and goes on with the same message
elsewhere. -/
def Follows : Cursor τ α → Piece τ α → Prop
  | none, q => q.start = 0
  | some p, q => q.tag = p.tag ∧ q.message = p.message ∧ q.start = p.stop

/-- The pieces lead from one cursor to another. -/
def Linked : Cursor τ α → List (Piece τ α) → Cursor τ α → Prop
  | c, [], c' => c = c'
  | c, q :: qs, c' => Follows c q ∧ Linked q.next qs c'

theorem Linked.concat {c c' : Cursor τ α} {qs : List (Piece τ α)} {q : Piece τ α}
    (h : Linked c qs c') (hq : Follows c' q) : Linked c (qs ++ [q]) q.next := by
  induction qs generalizing c with
  | nil =>
    obtain rfl : c = c' := h
    exact ⟨hq, rfl⟩
  | cons p qs ih => exact ⟨h.1, ih h.2⟩

/-- The tags of the messages that end in one of the pieces. -/
def finished (qs : List (Piece τ α)) : List τ :=
  qs.filterMap fun q => if q.stop = q.message.length then some q.tag else none

@[simp] theorem finished_nil : finished ([] : List (Piece τ α)) = [] := rfl

variable (q : Piece τ α) (qs : List (Piece τ α))

theorem finished_cons : finished (q :: qs) =
      (if q.stop = q.message.length then [q.tag] else []) ++ finished qs := by
  by_cases h : q.stop = q.message.length <;> simp [finished, h]

theorem finished_concat : finished (qs ++ [q]) =
      finished qs ++ (if q.stop = q.message.length then [q.tag] else []) := by
  have hlast := finished_cons q []
  rw [finished_nil, List.append_nil] at hlast
  rw [← hlast]
  exact List.filterMap_append

/-- The message of a piece that is sent has ended with it, or is the one at the cursor. -/
theorem finished_concat_next :
    finished (qs ++ [q]) ++ q.next.toList.map Piece.tag = finished qs ++ [q.tag] := by
  rw [finished_concat, Piece.next]
  split_ifs <;> simp

/-- What comes before a piece and the piece itself make up what comes before the next
one. -/
theorem prefix_append_content : q.message.take q.start ++ q.content = q.message.take q.stop := by
  have hstart := q.start_lt
  have hsum : q.stop = q.start + (q.stop - q.start) := by omega
  rw [Piece.content]
  conv_rhs => rw [hsum, List.take_add]

end Pieces
