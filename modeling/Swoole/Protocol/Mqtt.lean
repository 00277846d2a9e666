import Mathlib.Tactic.Ring
import Swoole.Protocol.Settings

/-!
# The remaining length of an MQTT package

Behind the first byte of an MQTT package stands the length of the rest, seven bits a byte, lowest
first, with the high bit set on every byte but the last; there are four such bytes at most.

`swMqtt_get_length` follows the high bits and looks neither at the number of bytes received nor at
the number of bytes it has read.  It comes to the length that is written, but only if one of the
next four bytes received ends it (`decodes_iff_ends`): it does not wait for bytes that have not
come, and it refuses nothing.
-/

namespace Swoole.Mqtt

open List

/-- What the bytes behind the first one say: the remaining length and the number of its bytes; or
that there are bytes missing, or that there are too many. -/
inductive Remaining where
  | value (length count : ℕ)
  | incomplete
  | malformed
  deriving DecidableEq

/-- **The variable-length integer**, of at most `n` bytes. -/
def remaining : ℕ → Bytes → Remaining
  | 0, _ => .malformed
  | _ + 1, [] => .incomplete
  | n + 1, b :: rest =>
    if b.toNat < 128 then .value b.toNat 1
    else
      match remaining n rest with
      | .value length count => .value (b.toNat % 128 + 128 * length) (count + 1)
      | r => r

/-- The length function does what it should: it reads at most four length bytes, all of them
received, and returns the length of the package, `0` for missing bytes, or an error. -/
def Decodes (buffer : SwString) : Prop :=
  (minLength ≤ buffer.data.length → ∃ length count, getLength buffer = some (length, count) ∧
    count ≤ 4 ∧ count < buffer.data.length) ∧
  match remaining 4 (buffer.data.drop 1) with
  | .value length count => getPackageLength buffer = some ((1 + count + length : ℕ) : ℤ)
  | .incomplete => getPackageLength buffer = some 0
  | .malformed => ∃ code < 0, getPackageLength buffer = some code

/-- Nothing but the first byte was received, or one of the four bytes behind it was received and
ends the length. -/
def Ends (buffer : SwString) : Prop :=
  buffer.data.length < minLength ∨ ∃ b ∈ (buffer.data.drop 1).take 4, b.toNat < 128

theorem and_127 (b : UInt8) : (b &&& 127).toNat = b.toNat % 128 := by
  exact Nat.and_two_pow_sub_one_eq_mod b.toNat 7

theorem continues_iff (b : UInt8) : (b &&& 128 != 0) = true ↔ ¬ b.toNat < 128 := by
  have hbits : ∀ i : Fin 256, ((UInt8.ofNat i &&& 128 != 0) = true ↔ ¬ i.val < 128) := by
    decide +kernel
  simpa using hbits ⟨b.toNat, b.toNat_lt⟩

variable {n count k l len mul cells : ℕ} {bytes : Bytes} {buffer : SwString}

theorem exists_value_iff : (∃ l k, remaining n bytes = .value l k) ↔
    ∃ b ∈ bytes.take n, b.toNat < 128 := by
  induction n generalizing bytes with
  | zero => simp [remaining]
  | succ n ih =>
    cases bytes with
    | nil => simp [remaining]
    | cons b rest =>
      rw [remaining, take_succ_cons]
      simp only [mem_cons, exists_eq_or_imp]
      split_ifs with hb
      · simp [hb]
      · rw [← ih]
        cases remaining n rest <;> simp [hb]

theorem remaining_bounds (h : remaining n bytes = .value l k) :
    k ≤ n ∧ k ≤ bytes.length ∧ l < 128 ^ n := by
  induction n generalizing bytes l k with
  | zero => cases h
  | succ n ih =>
    cases bytes with
    | nil => cases h
    | cons b rest =>
      have hpow : 128 ≤ 128 ^ (n + 1) := Nat.le_self_pow (Nat.succ_ne_zero n) 128
      rw [remaining] at h
      split_ifs at h
      · cases h
        rw [length_cons]
        omega
      · cases hrest : remaining n rest with
        | value l' k' =>
          rw [hrest] at h
          cases h
          have hle := ih hrest
          rw [length_cons, Nat.pow_succ]
          omega
        | incomplete | malformed => simp [hrest] at h

/-- The loop computes the integer.  With `n` bytes to go, `mul` leaves room for them, so that no
`int` overflows. -/
theorem getLengthLoop_eq (h : remaining n (buffer.data.drop (count + 1)) = .value l k)
    (hcells : buffer.data.length ≤ cells + count + 1) (hlen : len < mul)
    (hmul : mul * 128 ^ n ≤ 2 ^ 28) :
    getLengthLoop buffer cells count mul len = some (((len + mul * l : ℕ) : ℤ), count + k) := by
  induction n generalizing count k l len mul cells with
  | zero => cases h
  | succ n ih =>
    cases hdrop : buffer.data.drop (count + 1) with
    | nil =>
      rw [hdrop] at h
      cases h
    | cons b rest =>
      have hlt : count + 1 < buffer.data.length := by
        have hlength := congrArg List.length hdrop
        rw [length_drop, length_cons] at hlength
        omega
      have hbyte : buffer.byteAt (count + 1) = b := by
        have hget := congrArg (·.head?) hdrop
        simpa [SwString.byteAt] using congrArg (·.getD (buffer.beyond (count + 1))) hget
      have hrest : rest = buffer.data.drop (count + 1 + 1) := by
        rw [← drop_drop, hdrop]
        rfl
      obtain ⟨cells, rfl⟩ : ∃ m, cells = m + 1 := ⟨cells - 1, by omega⟩
      have hpow : mul * 128 * 128 ^ n ≤ 2 ^ 28 := by rwa [mul_assoc, ← Nat.pow_succ']
      have hroom : mul * 128 ≤ 2 ^ 28 :=
        (Nat.le_mul_of_pos_right _ (Nat.pow_pos (by decide))).trans hpow
      have hdigit : b.toNat % 128 * mul ≤ 127 * mul := Nat.mul_le_mul_right _ (by omega)
      rw [hdrop, remaining] at h
      simp only [getLengthLoop, hbyte, and_127]
      have hsum : toInt32 (len + (b.toNat % 128 : ℕ) * mul) = (len + b.toNat % 128 * mul : ℕ) := by
        rw [← toInt32_natCast (n := len + b.toNat % 128 * mul) (by omega)]
        rfl
      rw [hsum]
      split_ifs at h with hb
      · cases h
        rw [if_neg fun hc => (continues_iff b).mp hc hb, Nat.mod_eq_of_lt hb, mul_comm]
      · have hnext : toInt32 ((mul : ℤ) * 128) = (mul * 128 : ℕ) := by
          rw [← toInt32_natCast (n := mul * 128) (by omega)]
          rfl
        rw [if_pos ((continues_iff b).mpr hb), hnext]
        cases hvalue : remaining n rest with
        | value l' k' =>
          rw [hvalue] at h
          cases h
          rw [hrest] at hvalue
          have hlength : len + mul * (b.toNat % 128 + 128 * l') =
              len + b.toNat % 128 * mul + mul * 128 * l' := by ring
          rw [ih hvalue (by omega) (by omega) hpow, hlength, add_assoc count, add_comm 1]
        | incomplete | malformed => simp [hvalue] at h

/-- The loop stops at a byte without the high bit, wherever that byte is. -/
theorem getLengthLoop_stops {mul len length : ℤ} {stop : ℕ}
    (h : getLengthLoop buffer cells count mul len = some (length, stop)) :
    count < stop ∧ (buffer.byteAt stop).toNat < 128 := by
  induction cells generalizing count mul len with
  | zero => cases h
  | succ cells ih =>
    simp only [getLengthLoop] at h
    split_ifs at h with hb
    · obtain ⟨hlt, hstop⟩ := ih h
      exact ⟨by omega, hstop⟩
    · cases h
      exact ⟨Nat.lt_succ_self _, by_contra fun hc => hb ((continues_iff _).mpr hc)⟩

/-- **When an MQTT length is decoded as it should be**: exactly when it ends among the bytes
received, within four bytes, or when nothing of it has come. -/
theorem decodes_iff_ends (buffer : SwString) : Decodes buffer ↔ Ends buffer := by
  constructor
  · rintro ⟨hreads, -⟩
    refine or_iff_not_imp_left.mpr fun hlong => ?_
    obtain ⟨length, count, hget, hfour, hlt⟩ := hreads (not_lt.mp hlong)
    obtain ⟨hpos, hstop⟩ := getLengthLoop_stops hget
    refine ⟨buffer.data.get ⟨count, hlt⟩, ?_, buffer.byteAt_of_lt hlt ▸ hstop⟩
    rw [mem_take_iff_getElem]
    refine ⟨count - 1, by rw [length_drop]; omega, ?_⟩
    simp [Nat.sub_add_cancel hpos]
  · intro h
    by_cases hlong : buffer.data.length < minLength
    · have hnil : buffer.data.drop 1 = [] :=
        drop_of_length_le (Nat.le_of_lt_succ hlong)
      refine ⟨fun hle => absurd hlong (not_lt.mpr hle), ?_⟩
      rw [hnil]
      exact if_pos hlong
    · obtain ⟨l, k, hvalue⟩ := exists_value_iff.mpr (h.resolve_left hlong)
      obtain ⟨hfour, hle, hl⟩ := remaining_bounds hvalue
      have hsize := buffer.length_le
      rw [length_drop] at hle
      have hget : getLength buffer = some (((0 + 1 * l : ℕ) : ℤ), 0 + k) :=
        getLengthLoop_eq (n := 4) hvalue (by omega) one_pos (by decide)
      refine ⟨fun hmin => ⟨_, _, hget, by omega, ?_⟩, ?_⟩
      · unfold minLength at hmin
        omega
      · rw [hvalue]
        simp only [getPackageLength, if_neg hlong, hget, Option.map_some]
        rw [← toInt32_natCast (n := 1 + k + l) (by omega)]
        congr 2
        push_cast
        ring

/-- Two bytes have come, and the second one announces a third: it is read all the same, and with
a `5` left there the package is taken to have 643 bytes. -/
theorem not_decodes_missing_byte :
    getPackageLength ⟨[0x30, 0x80], fun _ => 5, 8, 0, by decide⟩ = some 643 ∧
      ¬ Decodes ⟨[0x30, 0x80], fun _ => 5, 8, 0, by decide⟩ := by
  have hread : getPackageLength ⟨[0x30, 0x80], fun _ => 5, 8, 0, by decide⟩ = some 643 := by
    decide
  refine ⟨hread, fun h => ?_⟩
  have hzero : getPackageLength ⟨[0x30, 0x80], fun _ => 5, 8, 0, by decide⟩ = some 0 := h.2
  exact absurd (hread.symm.trans hzero) (by decide)

end Swoole.Mqtt
