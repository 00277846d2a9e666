import Swoole.Library.Framing
import Mathlib.Data.List.Infix
import Mathlib.Data.Nat.Find

/-!
# Searching for a word

`firstOcc word s` is the first position at which `word` occurs in `s`.  Besides
saying what it finds, two facts about it carry every incremental search: a hit is
not undone by more input (`firstOcc_append`), and positions that are known to miss
may be skipped (`firstOcc_eq_drop`).

A stream of pieces that each end with the first occurrence of a mark is a framing,
`terminated`; its frames are cut at the left-to-right, non-overlapping occurrences
of the mark.

`firstIn` is the search of a range of positions for one with a given property.
-/

universe u

namespace Search

open List

/-! ## Positions -/

section Positions

variable {P : ℕ → Prop} [DecidablePred P] {a b i : ℕ}

/-- The first `i` with `a ≤ i < b` and `P i`. -/
def firstIn (P : ℕ → Prop) [DecidablePred P] (a b : ℕ) : Option ℕ :=
  (range' a (b - a)).find? fun i => P i

theorem firstIn_eq_some :
    firstIn P a b = some i ↔ P i ∧ (a ≤ i ∧ i < b) ∧ ∀ j, a ≤ j → j < i → ¬ P j := by
  unfold firstIn
  rw [find?_range'_eq_some, mem_range'_1]
  simp only [decide_eq_true_eq, Bool.not_eq_true', decide_eq_false_iff_not]
  exact and_congr_right fun _ => and_congr_left fun _ => by omega

theorem firstIn_eq_none : firstIn P a b = none ↔ ∀ j, a ≤ j → j < b → ¬ P j := by
  unfold firstIn
  rw [find?_range'_eq_none]
  simp only [Bool.not_eq_true', decide_eq_false_iff_not]
  exact forall_congr' fun j => ⟨fun h h1 h2 => h h1 (by omega), fun h h1 h2 => h h1 (by omega)⟩

theorem firstIn_of_le (h : b ≤ a) : firstIn P a b = none :=
  firstIn_eq_none.mpr fun j h1 h2 => by omega

theorem firstIn_of_pos (h : a < b) (hP : P a) : firstIn P a b = some a :=
  firstIn_eq_some.mpr ⟨hP, by omega, fun j h1 h2 => by omega⟩

theorem firstIn_of_neg (hP : ¬ P a) : firstIn P a b = firstIn P (a + 1) b := by
  cases h : firstIn P (a + 1) b with
  | none =>
    rw [firstIn_eq_none] at h ⊢
    intro j h1 h2
    rcases eq_or_lt_of_le h1 with rfl | hlt
    · exact hP
    · exact h j hlt h2
  | some i =>
    obtain ⟨hi, hrange, hbefore⟩ := firstIn_eq_some.mp h
    refine firstIn_eq_some.mpr ⟨hi, by omega, fun j h1 h2 => ?_⟩
    rcases eq_or_lt_of_le h1 with rfl | hlt
    · exact hP
    · exact hbefore j hlt h2

end Positions

/-! ## Words -/

variable {α : Type u} {word s t : List α} {i : ℕ}

/-- `word` occurs in `s` at position `i`. -/
def OccursAt (word s : List α) (i : ℕ) : Prop := word <+: s.drop i

instance [DecidableEq α] (word s : List α) (i : ℕ) : Decidable (OccursAt word s i) :=
  inferInstanceAs (Decidable (word <+: s.drop i))

theorem OccursAt.length_le (h : OccursAt word s i) (hne : word ≠ []) :
    i + word.length ≤ s.length := by
  have hlen := List.IsPrefix.length_le h
  have hpos := length_pos_iff.mpr hne
  rw [length_drop] at hlen
  omega

theorem OccursAt.append (h : OccursAt word s i) (t : List α) : OccursAt word (s ++ t) i := by
  unfold OccursAt
  rw [drop_append]
  exact h.trans (prefix_append _ _)

/-- An occurrence that ends inside `s` is an occurrence in `s`. -/
theorem OccursAt.of_append (h : OccursAt word (s ++ t) i) (hle : i + word.length ≤ s.length) :
    OccursAt word s i := by
  unfold OccursAt at h ⊢
  rw [drop_append] at h
  refine prefix_of_prefix_length_le h (prefix_append _ _) ?_
  rw [length_drop]
  omega

theorem occursAt_drop {k : ℕ} : OccursAt word (s.drop k) i ↔ OccursAt word s (k + i) := by
  unfold OccursAt
  rw [drop_drop]

section First

variable [DecidableEq α]

/-- The first position at which a (non-empty) word occurs. -/
def firstOcc (word : List α) : List α → Option ℕ
  | [] => none
  | a :: s => if word <+: a :: s then some 0 else (firstOcc word s).map (· + 1)

variable (hne : word ≠ [])
include hne

theorem firstOcc_eq_some :
    firstOcc word s = some i ↔ OccursAt word s i ∧ ∀ j < i, ¬ OccursAt word s j := by
  induction s generalizing i with
  | nil => simp [firstOcc, OccursAt, hne]
  | cons a s ih =>
    unfold firstOcc
    by_cases hhead : word <+: a :: s
    · rw [if_pos hhead]
      constructor
      · intro h
        cases h
        exact ⟨hhead, by simp⟩
      · rintro ⟨-, hbefore⟩
        cases i with
        | zero => rfl
        | succ i => exact absurd hhead (hbefore 0 (by omega))
    · rw [if_neg hhead]
      cases i with
      | zero => simp [OccursAt, hhead]
      | succ i =>
        rw [Option.map_eq_some_iff]
        constructor
        · rintro ⟨k, hk, hki⟩
          obtain rfl : k = i := by omega
          obtain ⟨hocc, hbefore⟩ := ih.mp hk
          refine ⟨hocc, fun j hj => ?_⟩
          cases j with
          | zero => exact hhead
          | succ j => exact hbefore j (by omega)
        · rintro ⟨hocc, hbefore⟩
          exact ⟨i, ih.mpr ⟨hocc, fun j hj => hbefore (j + 1) (by omega)⟩, rfl⟩

theorem firstOcc_eq_none : firstOcc word s = none ↔ ∀ j, ¬ OccursAt word s j := by
  constructor
  · intro h j hj
    have hex : ∃ j, OccursAt word s j := ⟨j, hj⟩
    have hsome := (firstOcc_eq_some hne).mpr
      ⟨Nat.find_spec hex, fun k hk => Nat.find_min hex hk⟩
    rw [h] at hsome
    cases hsome
  · intro h
    cases hocc : firstOcc word s with
    | none => rfl
    | some i => exact absurd ((firstOcc_eq_some hne).mp hocc).1 (h i)

theorem firstOcc_append (h : firstOcc word s = some i) (t : List α) :
    firstOcc word (s ++ t) = some i := by
  obtain ⟨hocc, hbefore⟩ := (firstOcc_eq_some hne).mp h
  refine (firstOcc_eq_some hne).mpr ⟨hocc.append t, fun j hj hj' => hbefore j hj ?_⟩
  exact hj'.of_append (by have := hocc.length_le hne; omega)

theorem firstOcc_eq_drop {k : ℕ} (hmiss : ∀ j < k, ¬ OccursAt word s j) :
    firstOcc word s = (firstOcc word (s.drop k)).map (k + ·) := by
  cases hdrop : firstOcc word (s.drop k) with
  | none =>
    rw [Option.map_none, firstOcc_eq_none hne]
    intro j hj
    have hkj : k ≤ j := by
      by_contra hlt
      exact hmiss j (by omega) hj
    refine (firstOcc_eq_none hne).mp hdrop (j - k) (occursAt_drop.mpr ?_)
    rwa [Nat.add_sub_cancel' hkj]
  | some i =>
    obtain ⟨hocc, hbefore⟩ := (firstOcc_eq_some hne).mp hdrop
    rw [Option.map_some, firstOcc_eq_some hne]
    refine ⟨occursAt_drop.mp hocc, fun j hj hj' => ?_⟩
    by_cases hkj : k ≤ j
    · refine hbefore (j - k) (by omega) (occursAt_drop.mpr ?_)
      rwa [Nat.add_sub_cancel' hkj]
    · exact hmiss j (by omega) hj'

omit hne

/-- Pieces that each end with the first occurrence of a mark. -/
def terminated (mark : List α) (hne : mark ≠ []) : Framing α where
  next s := (firstOcc mark s).map (· + mark.length)
  pos {s n} h := by
    obtain ⟨i, -, rfl⟩ := Option.map_eq_some_iff.mp h
    have hpos := length_pos_iff.mpr hne
    omega
  le_length {s n} h := by
    obtain ⟨i, hi, rfl⟩ := Option.map_eq_some_iff.mp h
    exact ((firstOcc_eq_some hne).mp hi).1.length_le hne
  stable {s n} t h := by
    obtain ⟨i, hi, rfl⟩ := Option.map_eq_some_iff.mp h
    rw [firstOcc_append hne hi t]
    rfl

section Terminated

variable {mark : List α} (hne : mark ≠ [])

theorem terminated_next_eq_none :
    (terminated mark hne).next s = none ↔ ∀ j, ¬ OccursAt mark s j := by
  rw [← firstOcc_eq_none hne]
  exact Option.map_eq_none_iff

/-- Input that begins with an unfinished piece and does finish it, finishes it past
the unfinished part. -/
theorem lt_of_terminated_next {n : ℕ} (hs : (terminated mark hne).next s = none)
    (h : (terminated mark hne).next (s ++ t) = some n) : s.length < n := by
  obtain ⟨i, hi, rfl⟩ := Option.map_eq_some_iff.mp h
  by_contra hle
  exact (terminated_next_eq_none hne).mp hs i
    (((firstOcc_eq_some hne).mp hi).1.of_append (by omega))

/-- When all pieces of a stream and its unfinished tail are short, what is
unfinished at any point of the stream is short as well. -/
theorem length_remainder_lt {bound : ℕ}
    (hpieces : ∀ piece ∈ ((terminated mark hne).frames (s ++ t)).1, piece.length ≤ bound)
    (htail : ((terminated mark hne).frames (s ++ t)).2.length < bound) :
    ((terminated mark hne).frames s).2.length < bound := by
  rw [Framing.frames_append] at hpieces htail
  have hnone := (terminated mark hne).next_remainder s
  revert hnone hpieces htail
  generalize ((terminated mark hne).frames s).2 = r
  intro hpieces htail hnone
  cases hnext : (terminated mark hne).next (r ++ t) with
  | none =>
    rw [Framing.frames_of_none _ hnext, length_append] at htail
    omega
  | some n =>
    have hlt := lt_of_terminated_next hne hnone hnext
    have hle := (terminated mark hne).le_length hnext
    have hpiece := hpieces ((r ++ t).take n) (by simp [Framing.frames_of_some _ hnext])
    rw [length_take] at hpiece
    omega

end Terminated

end First

end Search
