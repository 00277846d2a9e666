import Mathlib.Data.List.Basic

/-!
# Framing a stream by its own head

A **framing** reads off the head of a stream how long the frame standing there
is, and answers only once the frame has arrived completely.  Three facts about
that answer are all a reader needs: a frame is not empty, it lies inside what has
arrived, and more input does not change the answer.

`Framing.frames` cuts a whole stream at once: the frames, in order, and the
unfinished remainder.  The segmentation law is `frames_append`: cutting `s ++ t`
is cutting `s`, and then cutting `t` with the remainder of `s` in front.  A reader
that hands over every complete frame and keeps the remainder therefore produces
the same frames however the stream reaches it.

`AtBoundaries` says that a predicate holds at the head of the stream and at every
point where a frame ends.
-/

universe u

/-- A way to read the length of the frame at the head of a stream. -/
structure Framing (α : Type u) where
  /-- The length of the frame at the head, once it has arrived completely. -/
  next : List α → Option ℕ
  pos : ∀ {s : List α} {n : ℕ}, next s = some n → 0 < n
  le_length : ∀ {s : List α} {n : ℕ}, next s = some n → n ≤ s.length
  stable : ∀ {s : List α} {n : ℕ} (t : List α), next s = some n → next (s ++ t) = some n

namespace Framing

open List

variable {α : Type u} (F : Framing α) {s : List α} {n : ℕ}

theorem length_drop_lt (h : F.next s = some n) : (s.drop n).length < s.length := by
  have hpos := F.pos h
  have hle := F.le_length h
  rw [length_drop]
  omega

/-- Cut a stream into its complete frames and the unfinished remainder. -/
def frames (s : List α) : List (List α) × List α :=
  match _h : F.next s with
  | none => ([], s)
  | some n =>
    (s.take n :: (frames (s.drop n)).1, (frames (s.drop n)).2)
termination_by s.length
decreasing_by all_goals exact F.length_drop_lt _h

theorem frames_of_none (h : F.next s = none) : F.frames s = ([], s) := by
  rw [frames]
  split
  · rfl
  · next n hn => rw [h] at hn; cases hn

theorem frames_of_some (h : F.next s = some n) :
    F.frames s = (s.take n :: (F.frames (s.drop n)).1, (F.frames (s.drop n)).2) := by
  conv_lhs => rw [frames]
  split
  · next hn => rw [h] at hn; cases hn
  · next m hm =>
    rw [h] at hm
    cases hm
    rfl

theorem frames_induction {P : List α → Prop} (last : ∀ s, F.next s = none → P s)
    (more : ∀ s n, F.next s = some n → P (s.drop n) → P s) : ∀ s, P s := by
  intro s
  induction hlen : s.length using Nat.strongRecOn generalizing s with
  | ind len ih =>
    cases h : F.next s with
    | none => exact last s h
    | some n =>
      have hlt := F.length_drop_lt h
      exact more s n h (ih _ (hlen ▸ hlt) _ rfl)

/-- Nothing is lost by cutting: the frames followed by the remainder are the
stream. -/
theorem frames_flatten (s : List α) : (F.frames s).1.flatten ++ (F.frames s).2 = s := by
  induction s using F.frames_induction with
  | last s h => simp [F.frames_of_none h]
  | more s n h ih => simp [F.frames_of_some h, ih]

theorem length_remainder_le (s : List α) : (F.frames s).2.length ≤ s.length := by
  have hlen := congrArg List.length (F.frames_flatten s)
  rw [length_append] at hlen
  omega

theorem length_remainder_lt_of_some (h : F.next s = some n) : (F.frames s).2.length < s.length := by
  rw [F.frames_of_some h]
  exact Nat.lt_of_le_of_lt (F.length_remainder_le _) (F.length_drop_lt h)

theorem next_remainder (s : List α) : F.next (F.frames s).2 = none := by
  induction s using F.frames_induction with
  | last s h => simpa [F.frames_of_none h] using h
  | more s n h ih => simpa [F.frames_of_some h] using ih

/-- **The segmentation law.**  Cutting `s ++ t` hands over the frames of `s`, and
then whatever `t` completes behind the remainder of `s`. -/
theorem frames_append (s t : List α) :
    F.frames (s ++ t) =
      ((F.frames s).1 ++ (F.frames ((F.frames s).2 ++ t)).1,
        (F.frames ((F.frames s).2 ++ t)).2) := by
  induction s using F.frames_induction with
  | last s h => simp [F.frames_of_none h]
  | more s n h ih =>
    have hle := F.le_length h
    have hdrop : (s ++ t).drop n = s.drop n ++ t := by
      rw [drop_append_of_le_length hle]
    have htake : (s ++ t).take n = s.take n := by
      rw [take_append_of_le_length hle]
    rw [F.frames_of_some (F.stable t h), hdrop, htake, ih, F.frames_of_some h]
    simp

/-- Once a stream has handed over a frame, every continuation hands it over at
least as often. -/
theorem length_frames_le_append (s t : List α) :
    (F.frames s).1.length ≤ (F.frames (s ++ t)).1.length := by
  rw [F.frames_append]
  simp

theorem next_nil : F.next [] = none := by
  cases h : F.next [] with
  | none => rfl
  | some n =>
    have hpos := F.pos h
    have hle := F.le_length h
    simp only [length_nil] at hle
    omega

theorem frames_flatten_of_next {fs : List (List α)} (h : ∀ f ∈ fs, F.next f = some f.length) :
    F.frames fs.flatten = (fs, []) := by
  induction fs with
  | nil => exact F.frames_of_none F.next_nil
  | cons f fs ih =>
    have hhead : F.next (f ++ fs.flatten) = some f.length := F.stable _ (h f mem_cons_self)
    rw [flatten_cons, F.frames_of_some hhead, take_left, drop_left,
      ih fun g hg => h g (mem_cons_of_mem f hg)]

/-- `Ok` holds at the head of the stream and at the end of every frame. -/
inductive AtBoundaries (Ok : List α → Prop) : List α → Prop
  | last {s : List α} (ok : Ok s) (h : F.next s = none) : AtBoundaries Ok s
  | more {s : List α} {n : ℕ} (ok : Ok s) (h : F.next s = some n)
      (rest : AtBoundaries Ok (s.drop n)) : AtBoundaries Ok s

variable {F} {Ok : List α → Prop}

theorem AtBoundaries.head (h : F.AtBoundaries Ok s) : Ok s := by
  cases h with
  | last ok _ => exact ok
  | more ok _ _ => exact ok

/-- The remainder of a prefix stands at a boundary of the whole stream, so what
holds at the boundaries holds of the remainder followed by the rest. -/
theorem AtBoundaries.remainder {t : List α} (h : F.AtBoundaries Ok (s ++ t)) :
    F.AtBoundaries Ok ((F.frames s).2 ++ t) := by
  induction s using F.frames_induction with
  | last s hs => simpa [F.frames_of_none hs] using h
  | more s n hs ih =>
    rw [F.frames_of_some hs]
    refine ih ?_
    cases h with
    | last _ hnone =>
      rw [F.stable t hs] at hnone
      cases hnone
    | more _ hsome rest =>
      rw [F.stable t hs] at hsome
      cases hsome
      rwa [drop_append_of_le_length (F.le_length hs)] at rest

end Framing
