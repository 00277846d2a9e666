import Mathlib.Algebra.Order.Ring.Int

/-!
# The socket, as the event handlers see it

`swConnection_recv` and `swConnection_send` wrap the system calls of a
non-blocking stream socket.  What the kernel answers is outside the program, so
it is an input of the model: an `RecvAnswer` says how the next `recv` turns out,
and the bytes it hands over are taken off the front of `wire`, the part of the
peer's stream that has not been received yet.

`connectionError` is `swConnection_error`, which sorts an `errno` into the three
reactions the handlers know (and `abort()` for `EFAULT`).

At the end, numbers in network byte order.
-/

namespace Swoole

open List

abbrev Bytes := List UInt8

/-- `SW_OK` and `SW_ERR`. -/
inductive Ret where
  | ok
  | err
  deriving DecidableEq, Repr

/-- The error numbers the handlers tell apart; `ok` is `errno == 0`. -/
inductive Errno where
  | efault
  | econnreset
  | epipe
  | enotconn
  | etimedout
  | econnrefused
  | enetdown
  | enetunreach
  | ehostdown
  | ehostunreach
  | eagain
  | eintr
  | ok
  | other
  deriving DecidableEq, Repr

/-- `SW_ERROR`, `SW_CLOSE`, `SW_WAIT`, and the call of `abort()`. -/
inductive ErrorAction where
  | error
  | close
  | wait
  | abort
  deriving DecidableEq, Repr

/-- `swConnection_error`. -/
def connectionError : Errno → ErrorAction
  | .efault => .abort
  | .econnreset | .epipe | .enotconn | .etimedout | .econnrefused
  | .enetdown | .enetunreach | .ehostdown | .ehostunreach => .close
  | .eagain | .ok => .wait
  | .eintr | .other => .error

/-! ## Receiving -/

/-- How the kernel answers the next `recv`: it has at least one and at most
`limit + 1` bytes at hand, or it fails, or the peer has shut the stream down. -/
inductive RecvAnswer where
  | deliver (limit : ℕ)
  | fail (errno : Errno)
  | shutdown
  deriving DecidableEq, Repr

/-- What `recv` returns: a count with the bytes stored (`n == 0` is the empty
list), or `-1` with `errno`. -/
inductive RecvResult where
  | data (bytes : Bytes)
  | error (errno : Errno)
  deriving DecidableEq, Repr

/-- A single `recv` transfers at most this many bytes, so its result always fits
the handlers' `int n`. -/
def maxRecvCount : ℕ := 0x7ffff000

/-- `recv(fd, buf, n, 0)`: the result, and the part of the stream still to come. -/
def recv (n : ℕ) (wire : Bytes) : RecvAnswer → RecvResult × Bytes
  | .fail e => (.error e, wire)
  | .shutdown =>
    match wire with
    | [] => (.data [], [])
    | _ :: _ => (.error .eagain, wire)
  | .deliver limit =>
    if n = 0 then (.data [], wire)
    else
      match wire with
      | [] => (.error .eagain, [])
      | _ :: _ =>
        let k := min (min n (limit + 1)) maxRecvCount
        (.data (wire.take k), wire.drop k)

/-- An answer is **benign** when it neither closes the stream nor reports an error
that makes the handler give the connection up: bytes, or a transient error. -/
def RecvAnswer.Benign : RecvAnswer → Prop
  | .deliver _ => True
  | .fail e => connectionError e = .wait ∨ connectionError e = .error
  | .shutdown => False

instance : DecidablePred RecvAnswer.Benign := fun
  | .deliver _ => .isTrue trivial
  | .fail _ => inferInstanceAs (Decidable (_ ∨ _))
  | .shutdown => .isFalse id

variable {a : RecvAnswer} {n : ℕ}

/-- A successful `recv` moves a prefix of the stream, no longer than asked for. -/
theorem recv_data {wire wire' bytes : Bytes} (h : recv n wire a = (.data bytes, wire')) :
    bytes ++ wire' = wire ∧ bytes.length ≤ n ∧ bytes.length ≤ maxRecvCount := by
  unfold recv at h
  cases a with
  | fail e => simp at h
  | shutdown =>
    cases wire with
    | nil =>
      obtain ⟨rfl, rfl⟩ := h
      simp
    | cons b bs => simp at h
  | deliver limit =>
    by_cases hn : n = 0
    · simp only [hn, if_true, Prod.mk.injEq, RecvResult.data.injEq] at h
      obtain ⟨rfl, rfl⟩ := h
      simp
    · cases wire with
      | nil => simp [hn] at h
      | cons b bs =>
        simp only [hn, if_false, Prod.mk.injEq, RecvResult.data.injEq] at h
        obtain ⟨rfl, rfl⟩ := h
        refine ⟨List.take_append_drop _ _, ?_, ?_⟩ <;>
        · rw [length_take]
          omega

/-- A failed `recv` takes nothing off the stream. -/
theorem recv_error {wire wire' : Bytes} {e : Errno} (h : recv n wire a = (.error e, wire')) :
    wire' = wire := by
  unfold recv at h
  cases a with
  | fail e' =>
    simp only [Prod.mk.injEq] at h
    exact h.2.symm
  | shutdown =>
    cases wire with
    | nil => simp at h
    | cons b bs =>
      simp only [Prod.mk.injEq] at h
      exact h.2.symm
  | deliver limit =>
    by_cases hn : n = 0
    · simp [hn] at h
    · cases wire with
      | nil =>
        simp only [hn, if_false, Prod.mk.injEq] at h
        exact h.2.symm
      | cons b bs => simp [hn] at h

/-- A benign answer never ends the stream as long as something is asked for, and
the only errors it leads to are transient. -/
theorem recv_benign {n : ℕ} {wire : Bytes} {a : RecvAnswer} (hn : 0 < n) (ha : a.Benign) :
    (∃ bytes wire', recv n wire a = (.data bytes, wire') ∧ bytes ≠ []) ∨
      ∃ e, recv n wire a = (.error e, wire) ∧
        (connectionError e = .wait ∨ connectionError e = .error) := by
  cases a with
  | shutdown => exact ha.elim
  | fail e => exact .inr ⟨e, rfl, ha⟩
  | deliver limit =>
    have hn' : n ≠ 0 := by omega
    cases wire with
    | nil => exact .inr ⟨.eagain, by simp [recv, hn'], .inl rfl⟩
    | cons b bs =>
      have hrecv : recv n (b :: bs) (.deliver limit) =
          (.data ((b :: bs).take (min (min n (limit + 1)) maxRecvCount)),
            (b :: bs).drop (min (min n (limit + 1)) maxRecvCount)) := by
        simp only [recv, hn', if_false]
      refine .inl ⟨_, _, hrecv, ?_⟩
      simp [take_eq_nil_iff, hn', maxRecvCount]

/-- A `recv` that asks for something returns `0` only at the end of the stream. -/
theorem recv_empty {wire wire' : Bytes} (hn : 0 < n) (h : recv n wire a = (.data [], wire')) :
    wire = [] := by
  cases a with
  | fail e => cases h
  | shutdown =>
    cases wire with
    | nil => rfl
    | cons b bs => cases h
  | deliver limit =>
    obtain ⟨bytes, wire'', hdata, hne⟩ | ⟨e, herror, -⟩ :=
      @recv_benign n wire (.deliver limit) hn trivial
    · rw [hdata] at h
      cases h
      exact absurd rfl hne
    · rw [herror] at h
      cases h

/-- A `recv` gets what the smallest of the three limits allows. -/
theorem recv_deliver {request limit : ℕ} {front back : Bytes} (hne : front ≠ [])
    (hcount : min (min request (limit + 1)) maxRecvCount = front.length) :
    recv request (front ++ back) (.deliver limit) = (.data front, back) := by
  obtain ⟨b, bs, rfl⟩ := exists_cons_of_ne_nil hne
  have hpos : request ≠ 0 := by
    rintro rfl
    simp at hcount
  rw [cons_append]
  simp only [recv, if_neg hpos, hcount]
  rw [← cons_append, take_left, drop_left]

/-- A `recv` that is complete. -/
theorem recv_append {front back : Bytes} {limit : ℕ} (hne : front ≠ [])
    (hlimit : front.length ≤ limit + 1) (hmax : front.length ≤ maxRecvCount) :
    recv front.length (front ++ back) (.deliver limit) = (.data front, back) :=
  recv_deliver hne (by omega)

/-! ## Sending -/

/-- How the kernel answers the next `send`: it takes at most `limit` bytes, and
`errno` is then whatever an earlier call left there, or it fails. -/
inductive SendAnswer where
  | accept (limit : ℕ) (errno : Errno)
  | fail (errno : Errno)
  deriving DecidableEq, Repr

/-- What `send` returns: a count, or `-1`; and the value of `errno` afterwards. -/
inductive SendResult where
  | sent (count : ℕ) (errno : Errno)
  | error (errno : Errno)
  deriving DecidableEq, Repr

/-- `send(fd, buf, n, 0)`. -/
def send (n : ℕ) : SendAnswer → SendResult
  | .accept limit e => .sent (min limit n) e
  | .fail e => .error e

/-- Any count, or one of the two errors after which a sender tries again. -/
def SendAnswer.Benign : SendAnswer → Prop
  | .accept _ _ => True
  | .fail e => e = .eagain ∨ e = .eintr

instance : DecidablePred SendAnswer.Benign := fun
  | .accept _ _ => .isTrue trivial
  | .fail _ => inferInstanceAs (Decidable (_ ∨ _))

/-! ## Network byte order -/

/-- A number in network byte order: what `ntohs`, `ntohl` and `swoole_ntoh64` make of a load. -/
def netValue (bytes : Bytes) : ℕ := bytes.foldl (fun n b => 2 ^ 8 * n + b.toNat) 0

/-- The `n` low bytes of a number, the highest first. -/
def netBytes : ℕ → ℕ → Bytes
  | 0, _ => []
  | n + 1, x => (x / 2 ^ (8 * n)).toUInt8 :: netBytes n x

@[simp] theorem length_netBytes (n x : ℕ) : (netBytes n x).length = n := by
  induction n with
  | zero => rfl
  | succ n ih => rw [netBytes, length_cons, ih]

theorem foldl_netBytes (n x : ℕ) : ∀ high : ℕ,
    (netBytes n x).foldl (fun n b => 2 ^ 8 * n + b.toNat) high =
      2 ^ (8 * n) * high + x % 2 ^ (8 * n) := by
  induction n with
  | zero => simp [netBytes, Nat.mod_one]
  | succ n ih =>
    intro high
    have hbyte : (x / 2 ^ (8 * n)).toUInt8.toNat = x / 2 ^ (8 * n) % 2 ^ 8 := by simp
    have hpow : 2 ^ (8 * (n + 1)) = 2 ^ (8 * n) * 2 ^ 8 := by
      rw [Nat.mul_succ, Nat.pow_add]
    rw [netBytes, foldl_cons, ih, hbyte, hpow, Nat.mod_mul, Nat.mul_add, mul_assoc]
    omega

theorem netValue_netBytes {x : ℕ} (h : x < 2 ^ (8 * n)) : netValue (netBytes n x) = x := by
  rw [netValue, foldl_netBytes, mul_zero, zero_add, Nat.mod_eq_of_lt h]

end Swoole
