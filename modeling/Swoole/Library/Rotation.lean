import Mathlib.Tactic.Common

/-!
# Searching in turn

Two searches among `n` things that are numbered from `0` on.

`seek` looks at one number after another and stays at the last one when its rounds are used up.

The numbers may come from a counter that wraps at `M`, taken modulo `n`.  As long as the counter
does not wrap, `n` values in a row meet every residue; at the wrap the residues jump by `M % n`,
and `covers_iff` says for which counters `n + 1` values still meet all of them.
-/

namespace Rotation

/-! ## Looking at one after another -/

section Seek

variable (P : ℕ → Prop) [DecidablePred P] (f : ℕ → ℕ)

/-- Look at `f k`, `f (k + 1)`, …, at most `rounds` of them, for one with `P`; what it ends with,
and the number of rounds it took. -/
def seek : ℕ → ℕ → ℕ → ℕ × ℕ
  | 0, k, last => (last, k)
  | rounds + 1, k, _ => if P (f k) then (f k, k + 1) else seek rounds (k + 1) (f k)

variable {P f}

theorem exists_seek_eq {rounds k last : ℕ} (h : 0 < rounds) :
    ∃ i < rounds, (seek P f rounds k last).1 = f (k + i) := by
  induction rounds generalizing k last with
  | zero => exact absurd h (Nat.lt_irrefl 0)
  | succ rounds ih =>
    unfold seek
    by_cases hP : P (f k)
    · rw [if_pos hP]
      exact ⟨0, h, rfl⟩
    · rw [if_neg hP]
      cases rounds with
      | zero => exact ⟨0, h, rfl⟩
      | succ rounds =>
        obtain ⟨i, hi, heq⟩ := @ih (k + 1) (f k) (Nat.succ_pos rounds)
        refine ⟨i + 1, Nat.succ_lt_succ hi, ?_⟩
        rw [heq, Nat.add_right_comm, Nat.add_assoc]

/-- The search finds what there is to be found among the numbers it looks at. -/
theorem seek_of_exists {rounds k last : ℕ} (h : ∃ i < rounds, P (f (k + i))) :
    P (seek P f rounds k last).1 := by
  induction rounds generalizing k last with
  | zero =>
    obtain ⟨i, hi, -⟩ := h
    exact absurd hi (Nat.not_lt_zero i)
  | succ rounds ih =>
    unfold seek
    by_cases hP : P (f k)
    · rwa [if_pos hP]
    · rw [if_neg hP]
      obtain ⟨i, hi, hPi⟩ := h
      cases i with
      | zero => exact absurd hPi hP
      | succ i =>
        refine ih ⟨i, Nat.lt_of_succ_lt_succ hi, ?_⟩
        rwa [Nat.add_right_comm, Nat.add_assoc]

end Seek

/-! ## A counter that wraps -/

/-- Going back from `n * q + c` by no more than `c`. -/
theorem sub_mod_of_le {n q c k : ℕ} (hc : c < n) (hk : k ≤ c) : (n * q + c - k) % n = c - k := by
  have hsplit : n * q + c - k = c - k + n * q := by omega
  rw [hsplit, Nat.add_mul_mod_self_left, Nat.mod_eq_of_lt (by omega)]

/-- Going back from `n * (q + 1) + c` by more than `c`. -/
theorem sub_mod_of_lt {n q c k : ℕ} (hck : c < k) (hk : k ≤ n + c) :
    (n * (q + 1) + c - k) % n = n + c - k := by
  have hsplit : n * (q + 1) + c - k = n + c - k + n * q := by
    rw [Nat.mul_succ]
    omega
  rw [hsplit, Nat.add_mul_mod_self_left, Nat.mod_eq_of_lt (by omega)]

variable {M n r : ℕ}

theorem wrapped {i : ℕ} (hi : M ≤ r + i) (hn : r + i < 2 * M) : (r + i) % M = r + i - M := by
  rw [Nat.mod_eq_sub_mod hi, Nat.mod_eq_of_lt (by omega)]

variable (hn : 0 < n)
include hn

/-- The whole turns in `M`. -/
theorem exists_turns (hM : n < M) : ∃ q, M = n * (q + 1) + M % n := by
  have hdiv : 0 < M / n := Nat.div_pos (Nat.le_of_lt hM) hn
  refine ⟨M / n - 1, ?_⟩
  rw [Nat.sub_add_cancel hdiv]
  exact (Nat.div_add_mod M n).symm

variable {j : ℕ}

/-- `n` numbers in a row have all residues. -/
theorem exists_add_mod (r : ℕ) (hj : j < n) : ∃ i < n, (r + i) % n = j := by
  have hr := Nat.mod_lt r hn
  have hsum : r + (j + (n - r % n)) = j + n * (r / n + 1) := by
    have hdiv := Nat.div_add_mod r n
    rw [Nat.mul_succ]
    omega
  refine ⟨(j + (n - r % n)) % n, Nat.mod_lt _ hn, ?_⟩
  rw [Nat.add_mod_mod, hsum, Nat.add_mul_mod_self_left, Nat.mod_eq_of_lt hj]

/-- So have `n` values of the counter without a wrap. -/
theorem exists_of_no_wrap (h : r + n ≤ M) (hj : j < n) : ∃ i ≤ n, (r + i) % M % n = j := by
  obtain ⟨i, hi, heq⟩ := exists_add_mod hn r hj
  have hsmall : (r + i) % M = r + i := Nat.mod_eq_of_lt (by omega)
  exact ⟨i, Nat.le_of_lt hi, by rw [hsmall, heq]⟩

/-- At a wrap by `0` or `1` residues nothing is skipped that the extra value does not make up for.
-/
theorem exists_of_small_jump (hM : n < M) (hr : r < M) (hwrap : M < r + n)
    (hjump : M % n ≤ 1) (hj : j < n) : ∃ i ≤ n, (r + i) % M % n = j := by
  by_cases hlow : j ≤ n - (M - r)
  · -- behind the wrap
    refine ⟨M - r + j, by omega, ?_⟩
    rw [wrapped (by omega) (by omega), show r + (M - r + j) - M = j by omega, Nat.mod_eq_of_lt hj]
  · -- in front of it
    obtain ⟨q, hq⟩ := exists_turns hn hM
    generalize hk : n + M % n - j = k
    have hvalue : r + (M - k - r) = n * (q + 1) + M % n - k := by omega
    have hsmall : (r + (M - k - r)) % M = r + (M - k - r) := Nat.mod_eq_of_lt (by omega)
    refine ⟨M - k - r, by omega, ?_⟩
    rw [hsmall, hvalue, sub_mod_of_lt (by omega) (by omega)]
    omega

theorem exists_missed (hM : n < M) (hr : r < M) (hwrap : M < r + n) (hlast : r + 1 ≠ M)
    (hjump : 1 < M % n) : ∃ j < n, ∀ i ≤ n, (r + i) % M % n ≠ j := by
  have hc := Nat.mod_lt M hn
  obtain ⟨q, hq⟩ := exists_turns hn hM
  refine ⟨n - 1 - (M - r - M % n), by omega, fun i hi => ?_⟩
  by_cases hbefore : r + i < M
  · rw [Nat.mod_eq_of_lt hbefore]
    generalize hk : M - (r + i) = k
    by_cases hle : k ≤ M % n
    · rw [show r + i = n * (q + 1) + M % n - k by omega, sub_mod_of_le hc hle]
      omega
    · rw [show r + i = n * (q + 1) + M % n - k by omega, sub_mod_of_lt (by omega) (by omega)]
      omega
  · rw [wrapped (by omega) (by omega), Nat.mod_eq_of_lt (by omega)]
    omega

/-- **Which counters meet all residues.**  `n + 1` values of a counter that wraps at `M`, from `r`
on, meet every residue modulo `n` unless the wrap comes strictly inside and jumps by two residues
or more. -/
theorem covers_iff (hM : n < M) (hr : r < M) :
    (∀ j < n, ∃ i ≤ n, (r + i) % M % n = j) ↔ r + n ≤ M ∨ r + 1 = M ∨ M % n ≤ 1 := by
  constructor
  · intro hall
    by_contra hnot
    obtain ⟨hwrap, hlast, hjump⟩ : M < r + n ∧ r + 1 ≠ M ∧ 1 < M % n := by omega
    obtain ⟨j, hj, hmiss⟩ := exists_missed hn hM hr hwrap hlast hjump
    obtain ⟨i, hi, heq⟩ := hall j hj
    exact hmiss i hi heq
  · rintro (hfits | hlast | hjump) j hj
    · exact exists_of_no_wrap hn hfits hj
    · refine ⟨j + 1, hj, ?_⟩
      rw [wrapped (by omega) (by omega), show r + (j + 1) - M = j by omega, Nat.mod_eq_of_lt hj]
    · by_cases hfits : r + n ≤ M
      · exact exists_of_no_wrap hn hfits hj
      · exact exists_of_small_jump hn hM hr (Nat.lt_of_not_le hfits) hjump hj

end Rotation
