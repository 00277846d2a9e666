import Mathlib.Tactic.Common

/-!
# Pieces of memory

A span is a piece of memory: where it starts and how long it is.  `Within` and `Apart` say how
two of them lie.  A span of length zero holds no cell; it is apart from a span it does not lie
strictly inside of.
-/

/-- A piece of memory. -/
structure Span where
  start : ℕ
  length : ℕ
  deriving DecidableEq, Repr

namespace Span

open List

/-- The first address behind a span. -/
def stop (a : Span) : ℕ := a.start + a.length

/-- One span lies inside another. -/
def Within (a b : Span) : Prop := b.start ≤ a.start ∧ a.stop ≤ b.stop
  deriving Decidable

/-- One span ends before the other begins. -/
def Apart (a b : Span) : Prop := a.stop ≤ b.start ∨ b.stop ≤ a.start
  deriving Decidable

variable {a a' b b' : Span}

theorem Apart.symm (h : a.Apart b) : b.Apart a := Or.symm h

theorem Apart.mono (h : a.Apart b) (ha : a'.Within a) (hb : b'.Within b) : a'.Apart b' := by
  unfold Apart Within at *
  omega

theorem Apart.start_ne (h : a.Apart b) (ha : 0 < a.length) (hb : 0 < b.length) :
    a.start ≠ b.start := by
  unfold Apart stop at h
  omega

/-! ## Spans one behind the other -/

/-- The spans follow each other without a gap, from `p` to `q`. -/
def Tiles : ℕ → List Span → ℕ → Prop
  | p, [], q => p = q
  | p, a :: spans, q => a.start = p ∧ Tiles a.stop spans q

variable {p q r k : ℕ} {spans spans' : List Span} (h : Tiles p spans q)
include h

theorem Tiles.append (h' : Tiles q spans' r) : Tiles p (spans ++ spans') r := by
  induction spans generalizing p with
  | nil =>
    rw [show p = q from h]
    exact h'
  | cons a spans ih => exact ⟨h.1, ih h.2⟩

theorem Tiles.concat : Tiles p (spans ++ [⟨q, k⟩]) (q + k) :=
  h.append ⟨rfl, rfl⟩

theorem Tiles.le : p ≤ q := by
  induction spans generalizing p with
  | nil => exact Nat.le_of_eq h
  | cons a spans ih =>
    obtain ⟨rfl, htail⟩ := h
    exact Nat.le_trans (Nat.le_add_right _ _) (ih htail)

theorem Tiles.bounds (ha : a ∈ spans) : p ≤ a.start ∧ a.stop ≤ q := by
  induction spans generalizing p with
  | nil => cases ha
  | cons b spans ih =>
    obtain ⟨rfl, htail⟩ := h
    rcases mem_cons.mp ha with rfl | ha
    · exact ⟨Nat.le_refl _, htail.le⟩
    · have := ih htail ha
      unfold stop at *
      omega

theorem Tiles.pairwise : spans.Pairwise Apart := by
  induction spans generalizing p with
  | nil => exact .nil
  | cons b spans ih =>
    exact .cons (fun _ ha => .inl (h.2.bounds ha).1) (ih h.2)

/-- Two rows of spans, of which the second ends before the first begins. -/
theorem Tiles.pairwise_append {p' q' : ℕ} (h' : Tiles p' spans' q')
    (hle : q' ≤ p) : (spans ++ spans').Pairwise Apart := by
  refine List.pairwise_append.mpr ⟨h.pairwise, h'.pairwise, fun a ha b hb => .inr ?_⟩
  exact Nat.le_trans (Nat.le_trans (h'.bounds hb).2 hle) (h.bounds ha).1

theorem Tiles.mul_length_le (hmin : ∀ a ∈ spans, k ≤ a.length) : p + k * spans.length ≤ q := by
  induction spans generalizing p with
  | nil => exact Nat.le_of_eq h
  | cons b spans ih =>
    obtain ⟨rfl, htail⟩ := h
    have hrest := ih htail fun a ha => hmin a (mem_cons_of_mem b ha)
    have hb := hmin b mem_cons_self
    rw [length_cons, Nat.mul_succ]
    unfold stop at hrest
    omega

end Span
