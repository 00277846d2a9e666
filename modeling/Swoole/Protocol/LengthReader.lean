import Swoole.Protocol.CheckLength

/-!
# The length reader against a framing

The length reader serves several protocols, and for each of them there is a framing that says
which packages a stream holds.  What keeps the reader in step with a framing is the same for all:
as long as the length it learns is that of the frame whose header is in the buffer, and the frame
covers the bytes that came along, every package it passes on is the next frame of the stream.

`Announces` is what the reader has to know of a header: the frame has `n` bytes, whatever follows.
`Synced` is the invariant, and `Synced.readTurn` the step: the protocol only has to say what
follows a `recv` in the header mode.
-/

namespace Swoole.Protocol

open List ReadConn

variable {F : Framing UInt8} {p : Protocol} {getLength : SwString → Option ℤ}
variable {onPackage : Bytes → Ret} {stream data : Bytes} {c : ReadConn} {n : ℕ}

/-- The frame at the head of `data` has `n` bytes, whatever comes behind. -/
def Announces (F : Framing UInt8) (data : Bytes) (n : ℕ) : Prop :=
  ∀ rest, ((data ++ rest).length < n → F.next (data ++ rest) = none) ∧
    ((data ++ rest).length = n → F.next (data ++ rest) = some n)

theorem Announces.append (h : Announces F data n) (more : Bytes) :
    Announces F (data ++ more) n := by
  intro rest
  rw [append_assoc]
  exact h (more ++ rest)

theorem Announces.next_eq (h : Announces F data n) :
    (data.length < n → F.next data = none) ∧ (data.length = n → F.next data = some n) := by
  have hnil := h []
  rwa [append_nil] at hnil

/-- The connection has passed on the frames that have arrived, and holds a part of the next one;
the mode says whether its header is complete. -/
structure Synced (F : Framing UInt8) (p : Protocol) (stream : Bytes) (c : ReadConn) : Prop where
  active : c.status = .active
  split : c.arrived stream ++ c.wire = stream
  framed : F.frames (c.arrived stream) = (c.packages, c.buffer.data)
  header : c.recvWait = false → c.buffer.offset = 0 ∧ c.buffer.data.length < p.headerSize
  body : c.recvWait = true → c.buffer.data.length < c.buffer.offset ∧
    c.buffer.offset ≤ c.buffer.size ∧ Announces F c.buffer.data c.buffer.offset
  size : bufferSize ≤ c.buffer.size ∧ c.buffer.size < 2 ^ 32

/-- Between a `recv` and what follows it: the buffered bytes may hold a frame. -/
structure Pending (F : Framing UInt8) (stream : Bytes) (c : ReadConn) : Prop where
  active : c.status = .active
  split : c.arrived stream ++ c.wire = stream
  framed : F.frames (c.arrived stream) =
    (c.packages ++ (F.frames c.buffer.data).1, (F.frames c.buffer.data).2)
  size : bufferSize ≤ c.buffer.size ∧ c.buffer.size < 2 ^ 32

theorem synced_init (fresh : ℕ → UInt8) (stream : Bytes) (hpos : 0 < p.headerSize) :
    Synced F p stream (.init fresh stream) := by
  have harrived : (init fresh stream).arrived stream = [] := arrived_eq rfl
  refine ⟨rfl, ?_, ?_, fun _ => ⟨rfl, hpos⟩, nofun, le_rfl, ?_⟩
  · rw [harrived]
    rfl
  · rw [harrived, F.frames_of_none F.next_nil]
    rfl
  · show bufferSize < 2 ^ 32
    decide

theorem Synced.stored (h : Synced F p stream c) {bytes wire : Bytes}
    (hwire : bytes ++ wire = c.wire)
    (hroom : c.buffer.data.length + bytes.length ≤ c.buffer.size) :
    Pending F stream (c.stored bytes wire hroom) := by
  have harrived : (c.stored bytes wire hroom).arrived stream = c.arrived stream ++ bytes :=
    arrived_of_split h.split hwire
  refine ⟨h.active, ?_, ?_, h.size⟩
  · rw [harrived, append_assoc]
    show c.arrived stream ++ (bytes ++ wire) = stream
    rw [hwire, h.split]
  · rw [harrived, F.frames_append, h.framed]
    rfl

variable (h : Pending F stream c)
include h

theorem Pending.frames_eq (hnext : F.next c.buffer.data = none) :
    F.frames (c.arrived stream) = (c.packages, c.buffer.data) := by
  rw [h.framed, F.frames_of_none hnext, append_nil]

theorem Pending.received_short (hwait : c.recvWait = false)
    (hoffset : c.buffer.offset = 0) (hshort : c.buffer.data.length < p.headerSize)
    (hnext : F.next c.buffer.data = none) (hlen : getLength c.buffer = some 0) :
    Synced F p stream (settled (received getLength onPackage p c)) := by
  unfold received
  rw [if_neg (Bool.eq_false_iff.mp hwait), hlen]
  show Synced F p stream c
  exact ⟨h.active, h.split, h.frames_eq hnext, fun _ => ⟨hoffset, hshort⟩, by simp [hwait], h.size⟩

variable (hpos : 0 < p.headerSize) (haccept : ∀ b, onPackage b = .ok)
include hpos haccept

theorem Pending.doPackage (hnext : F.next c.buffer.data = some c.buffer.data.length) :
    Synced F p stream (settled (Protocol.doPackage onPackage c)) := by
  have hframes : F.frames (c.arrived stream) = (c.packages ++ [c.buffer.data], []) := by
    rw [h.framed, F.frames_of_some hnext, take_length, drop_length, F.frames_of_none F.next_nil]
  obtain ⟨status, heq, hstatus, -⟩ := @settled_doPackage onPackage c
  obtain rfl : status = .active := (hstatus (haccept _)).trans h.active
  rw [heq]
  exact ⟨rfl, h.split, hframes, fun _ => ⟨rfl, hpos⟩, nofun, h.size⟩

/-- The header is complete: the rest of its frame is still to come, or nothing is. -/
theorem Pending.learnLength (hn : Announces F c.buffer.data n) (hle : c.buffer.data.length ≤ n)
    (hlt : n < 2 ^ 32) :
    Synced F p stream (settled (Protocol.learnLength onPackage c n)) := by
  have hdata := c.buffer.reserve_data n
  have hsize : bufferSize ≤ (c.buffer.reserve n).size ∧ (c.buffer.reserve n).size < 2 ^ 32 := by
    have hold := h.size
    rw [SwString.reserve_size]
    omega
  unfold Protocol.learnLength
  by_cases hend : c.buffer.data.length = n
  · rw [if_pos (hdata ▸ hend)]
    refine Pending.doPackage ⟨h.active, h.split, ?_, hsize⟩ hpos haccept ?_
    · show F.frames (c.arrived stream) = (c.packages ++ (F.frames (c.buffer.reserve n).data).1,
        (F.frames (c.buffer.reserve n).data).2)
      rw [hdata]
      exact h.framed
    · show F.next (c.buffer.reserve n).data = some (c.buffer.reserve n).data.length
      rw [hdata, hend]
      exact hn.next_eq.2 hend
  · rw [if_neg (hdata ▸ hend)]
    have hbelow : c.buffer.data.length < n := lt_of_le_of_ne hle hend
    refine ⟨h.active, h.split, ?_, nofun, fun _ => ?_, hsize⟩
    · show F.frames (c.arrived stream) = (c.packages, (c.buffer.reserve n).data)
      rw [hdata, h.frames_eq (hn.next_eq.1 hbelow)]
    · show (c.buffer.reserve n).data.length < n ∧ n ≤ (c.buffer.reserve n).size ∧
        Announces F (c.buffer.reserve n).data n
      rw [hdata, SwString.reserve_size]
      exact ⟨hbelow, le_max_right _ _, hn⟩

theorem Pending.received_body (hwait : c.recvWait = true)
    (hn : Announces F c.buffer.data c.buffer.offset)
    (hle : c.buffer.data.length ≤ c.buffer.offset) (hsize : c.buffer.offset ≤ c.buffer.size) :
    Synced F p stream (settled (received getLength onPackage p c)) := by
  unfold received
  rw [if_pos hwait]
  by_cases hend : c.buffer.data.length = c.buffer.offset
  · rw [if_pos hend]
    exact h.doPackage hpos haccept (hend ▸ hn.next_eq.2 hend)
  · rw [if_neg hend]
    have hlt : c.buffer.data.length < c.buffer.offset := lt_of_le_of_ne hle hend
    show Synced F p stream c
    exact ⟨h.active, h.split, h.frames_eq (hn.next_eq.1 hlt), by simp [hwait],
      fun _ => ⟨hlt, hsize, hn⟩, h.size⟩

/-- Bytes stored in the header mode that complete a header, whose frame covers them all. -/
theorem Pending.received_header (hwait : c.recvWait = false)
    (hheader : p.headerSize ≤ c.buffer.data.length) (hlen : getLength c.buffer = some (n : ℤ))
    (hn : Announces F c.buffer.data n) (hle : c.buffer.data.length ≤ n) (hmax : n ≤ p.maxLength) :
    Synced F p stream (settled (received getLength onPackage p c)) := by
  have hmaxlt : p.maxLength < 2 ^ 32 := p.packageMaxLength.toNat_lt
  unfold received
  rw [if_neg (Bool.eq_false_iff.mp hwait), hlen]
  show Synced F p stream (settled (if (n : ℤ) < 0 then _ else _))
  rw [if_neg (by omega), if_neg (by omega), Int.toNat_natCast, if_neg (by omega)]
  exact h.learnLength hpos haccept hn hle (by omega)

omit h haccept

theorem Synced.recvbufSize_pos (h : Synced F p stream c) : 0 < p.recvbufSize c.buffer := by
  cases hwait : c.recvWait with
  | false =>
    rw [recvbufSize_of_offset_zero (h.header hwait).1]
    exact hpos
  | true =>
    obtain ⟨hlt, hle, -⟩ := h.body hwait
    have hsize := h.size.2
    rw [recvbufSize_of_lt hlt (by omega)]
    omega

include haccept

/-- **One step of the length reader.**  In the body mode every answer keeps the connection in step;
`hheader` is what the protocol says about bytes stored in the header mode. -/
theorem Synced.readTurn (h : Synced F p stream c) {a : RecvAnswer} (ha : a.Benign)
    (hheader : c.recvWait = false → ∀ bytes wire, bytes ++ wire = c.wire →
      recv (p.recvbufSize c.buffer) c.wire a = (.data bytes, wire) →
      ∃ hroom : c.buffer.data.length + bytes.length ≤ c.buffer.size,
        Synced F p stream
          (settled (received getLength onPackage p (c.stored bytes wire hroom)))) :
    Synced F p stream (readTurn getLength onPackage p c a) := by
  rcases recv_benign (h.recvbufSize_pos hpos) ha with
    ⟨bytes, wire, hrecv, hne⟩ | ⟨e, hrecv, htransient⟩
  · obtain ⟨hwire, hle, -⟩ := recv_data hrecv
    cases hwait : c.recvWait with
    | true =>
      obtain ⟨hlt, hsize, hn⟩ := h.body hwait
      have hsizelt := h.size.2
      rw [recvbufSize_of_lt hlt (by omega)] at hle
      have hroom : c.buffer.data.length + bytes.length ≤ c.buffer.size := by omega
      rw [readTurn_eq, turn_of_data h.active hrecv hne hroom]
      refine (h.stored hwire hroom).received_body hpos haccept hwait (hn.append bytes) ?_ hsize
      show (c.buffer.data ++ bytes).length ≤ c.buffer.offset
      rw [length_append]
      omega
    | false =>
      obtain ⟨hroom, hsynced⟩ := hheader hwait bytes wire hwire hrecv
      rw [readTurn_eq, turn_of_data h.active hrecv hne hroom]
      exact hsynced
  · obtain ⟨status, heq, hstatus⟩ := @ReadConn.turn_of_error c _
      (received getLength onPackage p) a e c.wire h.active hrecv
    obtain rfl : status = .active := hstatus htransient
    rw [readTurn_eq, heq]
    exact ⟨rfl, h.split, h.framed, h.header, h.body, h.size⟩

end Swoole.Protocol
