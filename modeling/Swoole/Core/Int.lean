import Mathlib.Algebra.Order.Ring.Int

/-!
# C integers

The source mixes `int`, `long` and unsigned counters freely.  A value is modelled as
an integer or a natural number, and the conversions that can change it are written
out: to a signed type the residue nearest to zero, to an unsigned one the residue.
-/

namespace Swoole

/-- Conversion to `int16_t`. -/
def toInt16 (x : ℤ) : ℤ := Int.bmod x (2 ^ 16)

/-- Conversion to `int32_t`. -/
def toInt32 (x : ℤ) : ℤ := Int.bmod x (2 ^ 32)

/-- Conversion to `uint16_t`. -/
def toUInt16 (x : ℤ) : ℕ := (x % 2 ^ 16).toNat

/-- Conversion to `uint32_t`. -/
def toUInt32 (x : ℤ) : ℕ := (x % 2 ^ 32).toNat

variable {x : ℤ}

/-- A value in the range of `int32_t` is kept. -/
theorem toInt32_of_lt (h0 : -2 ^ 31 ≤ x) (h : x < 2 ^ 31) : toInt32 x = x := by
  exact Int.bmod_eq_of_le (by omega) (by omega)

/-- From `2^31` to `2^32` the conversion falls into the negative numbers. -/
theorem toInt32_of_le (h : 2 ^ 31 ≤ x) (h' : x < 2 ^ 32) : toInt32 x = x - 2 ^ 32 := by
  unfold toInt32
  simp only [Int.bmod]
  split <;> omega

variable {n : ℕ}

theorem toInt32_natCast (h : n < 2 ^ 31) : toInt32 n = n :=
  toInt32_of_lt (by omega) (by omega)

theorem toInt16_bounds (x : ℤ) : -2 ^ 15 ≤ toInt16 x ∧ toInt16 x < 2 ^ 15 := by
  have hle := Int.le_bmod (x := x) (m := 2 ^ 16) (by omega)
  have hlt := Int.bmod_lt (x := x) (m := 2 ^ 16) (by omega)
  unfold toInt16
  omega

theorem toInt32_bounds (x : ℤ) : -2 ^ 31 ≤ toInt32 x ∧ toInt32 x < 2 ^ 31 := by
  have hle := Int.le_bmod (x := x) (m := 2 ^ 32) (by omega)
  have hlt := Int.bmod_lt (x := x) (m := 2 ^ 32) (by omega)
  unfold toInt32
  omega

theorem toUInt32_of_nonneg (h0 : 0 ≤ x) (h : x < 2 ^ 32) : (toUInt32 x : ℤ) = x := by
  unfold toUInt32
  omega

/-- The `uint32_t` difference of two counters that stand the wrong way round. -/
theorem toUInt32_of_neg (h0 : x < 0) (h : -2 ^ 32 ≤ x) : (toUInt32 x : ℤ) = x + 2 ^ 32 := by
  unfold toUInt32
  omega

/-- A `uint32_t` that goes through an `int` and back is kept. -/
theorem toUInt32_toInt32 (h : n < 2 ^ 32) : toUInt32 (toInt32 n) = n := by
  unfold toUInt32 toInt32
  simp only [Int.bmod]
  split <;> omega

/-- Conversion to `size_t`. -/
def toSizeT (x : ℤ) : ℕ := (x % 2 ^ 64).toNat

theorem toSizeT_natCast (h : n < 2 ^ 64) : toSizeT n = n := by
  unfold toSizeT
  omega

/-- Conversion to `uint64_t`, which is what `size_t` is. -/
abbrev toUInt64 (x : ℤ) : ℕ := toSizeT x

theorem toUInt64_of_nonneg (h0 : 0 ≤ x) (h : x < 2 ^ 64) : (toUInt64 x : ℤ) = x := by
  unfold toUInt64 toSizeT
  omega

theorem toUInt16_natCast (h : n < 2 ^ 16) : toUInt16 n = n := by
  unfold toUInt16
  omega

/-- A 16-bit value that went through `int16_t` comes back in a sum. -/
theorem toUInt16_toInt16_add (x y : ℤ) : toUInt16 (toInt16 x + y) = toUInt16 (x + y) := by
  unfold toUInt16 toInt16
  rw [Int.add_emod, Int.add_emod x]
  congr 3
  exact Int.bmod_emod

end Swoole
