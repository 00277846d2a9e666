import Mathlib.Data.Nat.GCD.Basic
import Swoole.Core.Text

/-!
# Helpers of `base.c`

The loops are modelled with fuel, and run as many rounds as there is fuel.
-/

open List

namespace Swoole

/-! ## Divisor and multiple -/

/-- `swoole_common_divisor`; a difference is only formed of the larger number. -/
def commonDivisor : ℕ → ℕ → ℕ → Option ℕ
  | _, 0, v => some v
  | 0, _ + 1, _ => none
  | fuel + 1, u + 1, v =>
    if u + 1 < v then commonDivisor fuel (v - (u + 1)) (u + 1)
    else commonDivisor fuel (u + 1 - v) v

/-- The loop of `swoole_common_multiple`; `res` is an `int`. -/
def commonMultipleLoop : ℕ → ℕ → ℕ → Option ℕ
  | 0, _, _ => none
  | fuel + 1, mCup, nCup =>
    let res := toInt32 (mCup % nCup : ℕ)
    if res = 0 then some nCup else commonMultipleLoop fuel nCup (toUInt32 res)

/-- `swoole_common_multiple`; the product is formed first, and is a `uint32_t`. -/
def commonMultiple (fuel u v : ℕ) : Option ℕ :=
  (commonMultipleLoop fuel u v).map (toUInt32 (u * v) / ·)

variable {fuel u v : ℕ}

theorem commonDivisor_eq (hv : 0 < v) (hfuel : u + v ≤ fuel) :
    commonDivisor fuel u v = some (u.gcd v) := by
  induction fuel generalizing u v with
  | zero => omega
  | succ fuel ih =>
    cases u with
    | zero => rw [commonDivisor, Nat.gcd_zero_left]
    | succ u =>
      rw [commonDivisor]
      split_ifs with hlt
      · rw [ih (Nat.succ_pos u) (by omega), Nat.gcd_sub_self_left hlt.le, Nat.gcd_comm]
      · rw [ih hv (by omega), Nat.gcd_sub_self_left (not_lt.mp hlt)]

theorem commonMultipleLoop_eq (hv : 0 < v) (hlt : v < 2 ^ 32) (hfuel : v ≤ fuel) :
    commonMultipleLoop fuel u v = some (u.gcd v) := by
  induction fuel generalizing u v with
  | zero => omega
  | succ fuel ih =>
    have hmod := Nat.mod_lt u hv
    have hres : toUInt32 (toInt32 (u % v : ℕ)) = u % v := toUInt32_toInt32 (by omega)
    rw [Nat.gcd_comm, Nat.gcd_rec, commonMultipleLoop]
    split_ifs with hzero
    · rw [hzero] at hres
      rw [← hres, show toUInt32 0 = 0 from rfl, Nat.gcd_zero_left]
    · rw [hres]
      rcases Nat.eq_zero_or_pos (u % v) with hnone | hpos
      · exact absurd (by rw [hnone]; rfl) hzero
      · rw [ih hpos (by omega) (by omega), Nat.gcd_comm]

/-- **Divisor and multiple.**  The least common multiple comes out if the product fits as well. -/
theorem commonDivisor_commonMultiple_iff (u v fuel : ℕ) (hu : 0 < u) (hv : 0 < v)
    (hlt : v < 2 ^ 32) (hfuel : u + v ≤ fuel) :
    commonDivisor fuel u v = some (u.gcd v) ∧ (u.lcm v < 2 ^ 32 →
      (commonMultiple fuel u v = some (u.lcm v) ↔ u * v < 2 ^ 32)) := by
  refine ⟨commonDivisor_eq hv hfuel, fun hlcm => ?_⟩
  have hpos : 0 < u.gcd v := Nat.gcd_pos_of_pos_left v hu
  have hgcd : u.gcd v ≤ v := Nat.gcd_le_right u hv
  rw [commonMultiple, commonMultipleLoop_eq hv hlt (by omega), Option.map_some, Option.some_inj]
  constructor
  · intro heq
    by_contra hlarge
    have hwrap : toUInt32 (u * v) + 2 ^ 32 ≤ u * v := by
      unfold toUInt32
      rw [← Nat.cast_mul]
      generalize u * v = p at *
      omega
    have hsum := Nat.div_le_div_right (c := u.gcd v) (le_trans (by omega) hwrap :
      toUInt32 (u * v) + u.gcd v ≤ u * v)
    rw [Nat.add_div_right _ hpos, heq] at hsum
    exact absurd hsum (Nat.not_succ_le_self _)
  · intro hsmall
    unfold toUInt32
    rw [← Nat.cast_mul]
    change _ = u * v / _
    generalize u * v = p at *
    congr 1
    omega

theorem commonDivisor_commonMultiple_twelve_eighteen :
    commonDivisor 30 12 18 = some 6 ∧ commonMultiple 30 12 18 = some 36 := by
  obtain ⟨hdivisor, hmultiple⟩ := commonDivisor_commonMultiple_iff 12 18 30 (by decide)
    (by decide) (by decide) (by decide)
  exact ⟨hdivisor, (hmultiple (by decide)).mpr (by decide)⟩

/-- The product is zero. -/
theorem not_commonMultiple_square :
    Nat.lcm (2 ^ 16) (2 ^ 16) = 2 ^ 16 ∧
      commonMultiple (2 ^ 17) (2 ^ 16) (2 ^ 16) = some 0 := by
  decide

/-! ## Versions

A version is a string, given by its bytes in front of the null byte. -/

/-- The sign of a number, and what is behind it. -/
def strtoulSign (text : Bytes) : Bool × Bytes :=
  match text.dropWhile isSpace with
  | 45 :: digits => (true, digits)
  | 43 :: digits => (false, digits)
  | digits => (false, digits)

/-- `strtoul` with base ten: the value, which stops at the end of the range of an `unsigned
long` and is negated there, and the tail.  Without a digit nothing is read. -/
def strtoul (text : Bytes) : ℕ × Bytes :=
  let (minus, number) := strtoulSign text
  let value := decimal (number.takeWhile isDigit)
  if number.takeWhile isDigit = [] then (0, text)
  else if 2 ^ 64 ≤ value then (2 ^ 64 - 1, number.dropWhile isDigit)
  else (if minus then (2 ^ 64 - value) % 2 ^ 64 else value, number.dropWhile isDigit)

/-- The loop of `swoole_version_compare`. -/
def versionCompareLoop : ℕ → Bytes → Bytes → Option ℤ
  | 0, _, _ => none
  | fuel + 1, version1, version2 =>
    let (ver1, tail1) := strtoul version1
    let (ver2, tail2) := strtoul version2
    if ver1 < ver2 then some (-1)
    else if ver2 < ver1 then some 1
    else
      match tail1, tail2 with
      | [], [] => some 0
      | [], _ :: _ => some (-1)
      | _ :: _, [] => some 1
      | _ :: version1, _ :: version2 => versionCompareLoop fuel version1 version2

/-- `swoole_version_compare`, with fuel for every byte of the first version. -/
def versionCompare (version1 version2 : Bytes) : Option ℤ :=
  versionCompareLoop (version1.length + 1) version1 version2

/-- The numbers of a version, which do not depend on the other one. -/
def versionNumbers : ℕ → Bytes → List ℕ
  | 0, _ => []
  | fuel + 1, version =>
    (strtoul version).1 ::
      match (strtoul version).2 with
      | [] => []
      | _ :: version => versionNumbers fuel version

theorem length_strtoul_le (text : Bytes) : (strtoul text).2.length ≤ text.length := by
  have hnumber : (strtoulSign text).2.length ≤ text.length := by
    have hblanks := (dropWhile_sublist (l := text) isSpace).length_le
    unfold strtoulSign
    split
    case h_3 => exact hblanks
    all_goals
      next heq =>
        rw [heq] at hblanks
        exact Nat.le_of_succ_le hblanks
  have htail := (dropWhile_sublist (l := (strtoulSign text).2) isDigit).length_le.trans hnumber
  unfold strtoul
  simp only
  split_ifs
  · exact le_rfl
  all_goals exact htail

/-- The result of a comparison as an `int`. -/
def orderingSign : Ordering → ℤ
  | .lt => -1
  | .eq => 0
  | .gt => 1

variable {fuel' : ℕ} {version1 version2 : Bytes}

/-- **The loop compares the numbers**; a version that has no more of them is below. -/
theorem versionCompareLoop_eq (h1 : version1.length < fuel) (h2 : version2.length < fuel') :
    versionCompareLoop fuel version1 version2 = some (orderingSign
      (compare (versionNumbers fuel version1) (versionNumbers fuel' version2))) := by
  induction fuel generalizing fuel' version1 version2 with
  | zero => exact absurd h1 (Nat.not_lt_zero _)
  | succ fuel ih =>
    obtain ⟨fuel', rfl⟩ := Nat.exists_eq_add_one.mpr (Nat.zero_lt_of_lt h2)
    have htail1 := (length_strtoul_le version1).trans (Nat.le_of_lt_succ h1)
    have htail2 := (length_strtoul_le version2).trans (Nat.le_of_lt_succ h2)
    rw [versionCompareLoop, versionNumbers, versionNumbers, List.compare_cons_cons]
    generalize strtoul version1 = parsed1 at htail1 ⊢
    generalize strtoul version2 = parsed2 at htail2 ⊢
    obtain ⟨ver1, tail1⟩ := parsed1
    obtain ⟨ver2, tail2⟩ := parsed2
    simp only at htail1 htail2 ⊢
    split_ifs with hlt hgt
    · rw [Nat.compare_eq_lt.mpr hlt]
      rfl
    · rw [Nat.compare_eq_gt.mpr hgt]
      rfl
    · rw [Nat.compare_eq_eq.mpr (by omega), Ordering.eq_then]
      -- a version that goes on has another number
      rcases tail1 with _ | ⟨b1, tail1⟩ <;> rcases tail2 with _ | ⟨b2, tail2⟩
      · rfl
      · obtain ⟨n, rfl⟩ := Nat.exists_eq_add_one.mpr (Nat.zero_lt_of_lt htail2)
        rfl
      · obtain ⟨n, rfl⟩ := Nat.exists_eq_add_one.mpr (Nat.zero_lt_of_lt htail1)
        rfl
      · exact ih htail1 htail2

/-- **Versions are ordered.** -/
theorem versionCompare_order (a b c : Bytes) :
    ∃ ab bc ac, versionCompare a b = some ab ∧ versionCompare b a = some (-ab) ∧
      versionCompare b c = some bc ∧ versionCompare a c = some ac ∧
      (ab ≤ 0 → bc ≤ 0 → ac ≤ 0) := by
  let numbers (version : Bytes) := versionNumbers (version.length + 1) version
  have hcompare (v w : Bytes) :
      versionCompare v w = some (orderingSign (compare (numbers v) (numbers w))) :=
    versionCompareLoop_eq (Nat.lt_succ_self _) (Nat.lt_succ_self _)
  have hle (o : Ordering) : orderingSign o ≤ 0 ↔ o.isLE = true := by cases o <;> decide
  refine ⟨_, _, _, hcompare a b, ?_, hcompare b c, hcompare a c, fun hab hbc => ?_⟩
  · rw [hcompare, Std.OrientedOrd.eq_swap]
    cases compare (numbers a) (numbers b) <;> rfl
  · rw [hle] at hab hbc ⊢
    exact Std.TransOrd.isLE_trans hab hbc

end Swoole
