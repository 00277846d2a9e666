import Swoole.Core.Int
import Swoole.Core.Socket

/-!
# C text functions

The library functions the parsers apply to text, in the C locale and on the bytes
from a pointer on.
-/

namespace Swoole

open List

/-- A text literal. -/
def ascii (text : List Char) : Bytes := text.map Char.toUInt8

/-- `tolower`. -/
def toLower (b : UInt8) : UInt8 := if 65 ≤ b ∧ b ≤ 90 then b + 32 else b

/-- `isspace`. -/
def isSpace (b : UInt8) : Bool := b == 32 || (9 ≤ b && b ≤ 13)

/-- `isdigit`. -/
def isDigit (b : UInt8) : Bool := 48 ≤ b && b ≤ 57

/-- The value of a row of digits. -/
def decimal (digits : Bytes) : ℕ := digits.foldl (fun n b => 10 * n + (b.toNat - 48)) 0

/-- `strtol` with base ten, which stops at the ends of the range of a `long`. -/
def strtol (text : Bytes) : ℤ :=
  match text.dropWhile isSpace with
  | 45 :: digits => max (-(decimal (digits.takeWhile isDigit) : ℤ)) (-2 ^ 63)
  | 43 :: digits => min (decimal (digits.takeWhile isDigit)) (2 ^ 63 - 1)
  | digits => min (decimal (digits.takeWhile isDigit)) (2 ^ 63 - 1)

/-- `atoi`. -/
def atoi (text : Bytes) : ℤ := toInt32 (strtol text)

/-- Blanks, digits and something that is not a digit: `atoi` reads the digits. -/
theorem atoi_of_digits {blanks digits rest : Bytes} (hblanks : ∀ b ∈ blanks, isSpace b = true)
    (hdigits : ∀ b ∈ digits, isDigit b = true) (hne : digits ≠ [])
    (hrest : ∀ b ∈ rest.head?, isDigit b = false) (hvalue : decimal digits < 2 ^ 63) :
    atoi (blanks ++ digits ++ rest) = toInt32 (decimal digits) := by
  obtain ⟨d, ds, rfl⟩ := exists_cons_of_ne_nil hne
  have hd : isDigit d = true := hdigits d mem_cons_self
  have hrange : 48 ≤ d ∧ d ≤ 57 := by simpa [isDigit] using hd
  have hspace : isSpace d = false := by
    rw [Bool.eq_false_iff]
    intro h
    simp only [isSpace, Bool.or_eq_true, beq_iff_eq, Bool.and_eq_true, decide_eq_true_eq] at h
    rcases h with rfl | ⟨-, h⟩
    · exact absurd hrange.1 (by decide)
    · exact absurd (UInt8.le_trans hrange.1 h) (by decide)
  have hdrop : (blanks ++ (d :: ds) ++ rest).dropWhile isSpace = d :: (ds ++ rest) := by
    rw [append_assoc, dropWhile_append_of_pos hblanks, cons_append,
      dropWhile_cons_of_neg (by simp [hspace])]
  have htake : (d :: (ds ++ rest)).takeWhile isDigit = d :: ds := by
    rw [← cons_append, takeWhile_append_of_pos hdigits]
    cases rest with
    | nil => simp
    | cons b rest =>
      rw [takeWhile_cons_of_neg (by simp [hrest b (by simp)]), append_nil]
  have hplus : d ≠ 43 := by
    rintro rfl
    exact absurd hrange.1 (by decide)
  have hminus : d ≠ 45 := by
    rintro rfl
    exact absurd hrange.1 (by decide)
  have hlong : strtol (blanks ++ (d :: ds) ++ rest) = decimal (d :: ds) := by
    unfold strtol
    rw [hdrop]
    split
    · next heq => exact absurd (cons.inj heq).1 hminus
    · next heq => exact absurd (cons.inj heq).1 hplus
    · rw [htake]
      omega
  rw [atoi, hlong]

end Swoole
