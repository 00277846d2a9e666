import Mathlib.Algebra.Order.Ring.Int

/-!
# Little-endian numerals

A number as a list of bytes, the lowest first, and the number that such a list stands for.
-/

namespace LittleEndian

/-- The number that the bytes stand for. -/
def value : List UInt8 → ℕ
  | [] => 0
  | b :: bytes => b.toNat + 2 ^ 8 * value bytes

/-- The `n` low bytes of a number. -/
def bytes : ℕ → ℕ → List UInt8
  | 0, _ => []
  | n + 1, x => x.toUInt8 :: bytes n (x / 2 ^ 8)

@[simp] theorem length_bytes (n x : ℕ) : (bytes n x).length = n := by
  induction n generalizing x with
  | zero => rfl
  | succ n ih => rw [bytes, List.length_cons, ih]

/-- The `n` low bytes of a number stand for its remainder. -/
theorem value_bytes_eq_mod (n x : ℕ) : value (bytes n x) = x % 2 ^ (8 * n) := by
  induction n generalizing x with
  | zero => exact (Nat.mod_one x).symm
  | succ n ih =>
    have hbyte : x.toUInt8.toNat = x % 2 ^ 8 := by simp
    rw [bytes, value, ih, hbyte, Nat.mul_succ, add_comm (8 * n), Nat.pow_add, Nat.mod_mul]

/-- A number below `2 ^ (8 * n)` is read back from its `n` low bytes. -/
theorem value_bytes {n x : ℕ} (h : x < 2 ^ (8 * n)) : value (bytes n x) = x := by
  rw [value_bytes_eq_mod, Nat.mod_eq_of_lt h]

theorem take_bytes {k n : ℕ} (h : k ≤ n) (x : ℕ) : (bytes n x).take k = bytes k x := by
  induction k generalizing n x with
  | zero => rfl
  | succ k ih =>
    obtain ⟨n, rfl⟩ := Nat.exists_eq_add_of_le' h
    rw [← add_assoc, bytes, List.take_succ_cons, ih (by omega), bytes]

end LittleEndian
