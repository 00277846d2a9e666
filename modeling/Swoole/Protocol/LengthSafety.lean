import Swoole.Protocol.CheckLength

/-!
# What the length reader asks `recv` for

The reader stores what `recv` returns behind the bytes it already has, so it must
never ask for more than the buffer has room for.  In the body mode it asks for
`offset - length`, and since the buffer was extended to `offset` this is safe as
long as the difference does not run below zero; in the header mode it asks for a
whole header without looking at what is already there.

Both can go wrong, and exactly in the header mode: when the bytes of a header
arrive in pieces, the second `recv` may bring more than the package is long, and
`offset - length` wraps to nearly `2^32`; and a buffer in which no length is found
must still have room for another header.  `stepFits` says that neither happens at
a step; `asksWithinRoom_iff_eachStep_fits` says that the reader never asks for too
much if and only if every step is of that kind.
-/

namespace Swoole.Protocol

open StepRun SwString ReadConn

variable (getLength : SwString → Option ℤ) (onPackage : Bytes → Ret) (p : Protocol)

/-- The next `recv` stays inside the connection's buffer. -/
def AsksWithinRoom (c : ReadConn) : Prop :=
  c.status = .active → p.recvbufSize c.buffer ≤ c.buffer.room
  deriving Decidable

/-- What the length function may answer on the bytes buffered so far: no length
leaves room for another header, and an accepted length covers those bytes. -/
def LengthFits (buffer : SwString) (length : ℤ) : Prop :=
  (length = 0 → buffer.data.length + p.headerSize ≤ buffer.size) ∧
    (0 < length → length.toNat ≤ p.maxLength → buffer.data.length ≤ length.toNat)
  deriving Decidable

/-- The bytes just stored in the header mode meet `LengthFits`. -/
def headerFits (buffer : SwString) : Bool :=
  match getLength buffer with
  | some length => p.LengthFits buffer length
  | none => true

/-- The condition on a step: a connection that wants a header, and the bytes the
kernel hands it. -/
def stepFits (c : ReadConn) (a : RecvAnswer) : Bool :=
  match c.status, c.recvWait, recv (p.recvbufSize c.buffer) c.wire a with
  | .active, false, (.data (b :: bs), _) =>
    if h : c.buffer.data.length + (b :: bs).length ≤ c.buffer.size then
      headerFits getLength p (c.buffer.append (b :: bs) h)
    else true
  | _, _, _ => true

/-- What the two modes know about the buffer. -/
structure ModeInv (c : ReadConn) : Prop where
  header : c.recvWait = false → c.buffer.offset = 0
  body : c.recvWait = true → c.buffer.data.length < c.buffer.offset ∧
    c.buffer.offset ≤ c.buffer.size
  headerSize_le : p.headerSize ≤ c.buffer.size
  size_lt : c.buffer.size < 2 ^ 32

variable {getLength onPackage p} {c : ReadConn} {a : RecvAnswer}

variable (hsize : p.headerSize ≤ c.buffer.size) (hlt : c.buffer.size < 2 ^ 32)
include hsize hlt

/-- Handing a package over is always safe: the cleared buffer has room for a
header. -/
theorem settled_doPackage_fits :
    p.AsksWithinRoom (settled (doPackage onPackage c)) ∧
      p.ModeInv (settled (doPackage onPackage c)) := by
  obtain ⟨status, heq, -, -⟩ := @settled_doPackage onPackage c
  rw [heq]
  constructor
  · intro _
    rw [recvbufSize_of_offset_zero rfl]
    simpa [room] using hsize
  · exact ⟨fun _ => rfl, by simp, by simpa using hsize, by simpa using hlt⟩

/-- The step that learns a package length asks for the right number of bytes
exactly when that length covers the bytes buffered so far. -/
theorem settled_learnLength_fits {len : ℕ} (hpos : 0 < len) (hact : c.status = .active)
    (hlen : len < 2 ^ 32) :
    (p.AsksWithinRoom (settled (learnLength onPackage c len)) ↔ c.buffer.data.length ≤ len) ∧
      (c.buffer.data.length ≤ len → p.ModeInv (settled (learnLength onPackage c len))) := by
  have hle := c.buffer.length_le
  unfold learnLength
  by_cases heq : c.buffer.data.length = len
  · rw [if_pos (by simpa using heq)]
    have hfits := @settled_doPackage_fits onPackage p
      { c with
        buffer := { c.buffer.reserve len with offset := len }
        recvWait := true }
      (by simp only [reserve_size]; omega)
      (by simp only [reserve_size]; omega)
    exact ⟨⟨fun _ => heq.le, fun _ => hfits.1⟩, fun _ => hfits.2⟩
  · rw [if_neg (by simpa using heq)]
    simp only [settled]
    constructor
    · constructor
      · intro hask
        by_contra hgt
        -- the length is smaller than what is buffered: the difference wraps
        have hask' := hask hact
        rw [recvbufSize_of_gt hpos (by simp only [reserve_data]; omega)
          (by simp only [reserve_data]; omega)] at hask'
        simp only [room, reserve_data, reserve_size] at hask'
        omega
      · intro hcover _
        rw [recvbufSize_of_lt (by simp only [reserve_data]; omega) hlen]
        simp only [room, reserve_data, reserve_size]
        omega
    · intro hcover
      refine ⟨by simp, fun _ => ?_, ?_, ?_⟩
      · simp only [reserve_data, reserve_size]
        omega
      all_goals
        simp only [reserve_size]
        omega

theorem settled_received_body (hwait : c.recvWait = true)
    (hoff : c.buffer.data.length ≤ c.buffer.offset) (hsz : c.buffer.offset ≤ c.buffer.size) :
    p.AsksWithinRoom (settled (received getLength onPackage p c)) ∧
      p.ModeInv (settled (received getLength onPackage p c)) := by
  unfold received
  rw [if_pos hwait]
  by_cases hend : c.buffer.data.length = c.buffer.offset
  · rw [if_pos hend]
    exact settled_doPackage_fits hsize hlt
  · rw [if_neg hend]
    show p.AsksWithinRoom c ∧ p.ModeInv c
    refine ⟨fun _ => ?_, by simp [hwait], fun _ => ⟨by omega, hsz⟩, hsize, hlt⟩
    rw [recvbufSize_of_lt (by omega) (by omega)]
    unfold room
    omega

omit hsize hlt in
theorem asksWithinRoom_of_not_active (h : c.status ≠ .active) : p.AsksWithinRoom c :=
  fun hact => absurd hact h

/-- Bytes stored in the header mode keep the reader within its buffer exactly
when the length function's answer on them fits. -/
theorem settled_received_header (hact : c.status = .active) (hwait : c.recvWait = false)
    (hoff : c.buffer.offset = 0) :
    (p.AsksWithinRoom (settled (received getLength onPackage p c)) ↔
        headerFits getLength p c.buffer = true) ∧
      (headerFits getLength p c.buffer = true →
        p.ModeInv (settled (received getLength onPackage p c))) := by
  have hinv : p.ModeInv c := ⟨fun _ => hoff, by simp [hwait], hsize, hlt⟩
  have hclosed : p.ModeInv (c.settle .err) :=
    ⟨fun _ => hoff, by simp [settle, close, hwait], hsize, hlt⟩
  have hnot : p.AsksWithinRoom (c.settle .err) :=
    asksWithinRoom_of_not_active (by simp [settle, close])
  have hle := c.buffer.length_le
  unfold received headerFits
  rw [if_neg (by simp [hwait])]
  cases hget : getLength c.buffer with
  | none =>
    refine ⟨⟨fun _ => rfl, fun _ => asksWithinRoom_of_not_active (by simp [settled,
      settle])⟩, fun _ => ?_⟩
    exact ⟨fun _ => hoff, by simp [settled, settle, hwait], hsize, hlt⟩
  | some len =>
    simp only [decide_eq_true_eq]
    by_cases hneg : len < 0
    · rw [if_pos hneg]
      exact ⟨⟨fun _ => ⟨by omega, by omega⟩, fun _ => hnot⟩, fun _ => hclosed⟩
    rw [if_neg hneg]
    by_cases hzero : len = 0
    · -- no length yet: the next question is for a whole header again
      rw [if_pos hzero]
      refine ⟨?_, fun _ => hinv⟩
      show (c.status = .active → p.recvbufSize c.buffer ≤ c.buffer.room) ↔ _
      rw [recvbufSize_of_offset_zero hoff]
      unfold LengthFits room
      constructor
      · intro h
        have := h hact
        exact ⟨fun _ => by omega, by omega⟩
      · intro h _
        omega
    rw [if_neg hzero]
    by_cases hmax : p.maxLength < len.toNat
    · rw [if_pos hmax]
      exact ⟨⟨fun _ => ⟨by omega, by omega⟩, fun _ => hnot⟩, fun _ => hclosed⟩
    · rw [if_neg hmax]
      have hmaxlt : p.maxLength < 2 ^ 32 := p.packageMaxLength.toNat_lt
      obtain ⟨hiff, hmode⟩ := @settled_learnLength_fits onPackage p c hsize hlt len.toNat
        (by omega) hact (by omega)
      have hfits : p.LengthFits c.buffer len ↔ c.buffer.data.length ≤ len.toNat := by
        constructor
        · intro h
          exact h.2 (by omega) (by omega)
        · intro h
          exact ⟨by omega, fun _ _ => h⟩
      rw [hfits]
      exact ⟨hiff, hmode⟩

omit hsize hlt

/-- **One step.**  In a state that asks for no more than it has room for, the next
state asks for no more than it has room for exactly when the step meets the
condition. -/
theorem asksWithinRoom_readTurn (hinv : p.ModeInv c) (hask : p.AsksWithinRoom c) :
    (p.AsksWithinRoom (readTurn getLength onPackage p c a) ↔ stepFits getLength p c a = true) ∧
      (stepFits getLength p c a = true →
        p.ModeInv (readTurn getLength onPackage p c a)) := by
  by_cases hact : c.status = .active
  swap
  · have hfit : stepFits getLength p c a = true := by
      unfold stepFits
      split
      · next h _ _ => exact absurd h hact
      · rfl
    rw [readTurn_eq, turn_of_not_active hact]
    exact ⟨⟨fun _ => hfit, fun _ => hask⟩, fun _ => hinv⟩
  rcases hrecv : recv (p.recvbufSize c.buffer) c.wire a with ⟨bytes | e, wire⟩
  · cases bytes with
    | nil =>
      have hfit : stepFits getLength p c a = true := by simp [stepFits, hrecv]
      rw [readTurn_eq, turn_of_eof hact hrecv]
      exact ⟨⟨fun _ => hfit, fun _ => asksWithinRoom_of_not_active (by simp [close])⟩,
        fun _ => ⟨hinv.header, hinv.body, hinv.headerSize_le, hinv.size_lt⟩⟩
    | cons b bs =>
      have hlen := (recv_data hrecv).2.1
      have hle := c.buffer.length_le
      have hroom : c.buffer.data.length + (b :: bs).length ≤ c.buffer.size := by
        have := hask hact
        unfold room at this
        omega
      have hlt := hinv.size_lt
      rw [readTurn_eq, turn_of_data hact hrecv (by simp) hroom]
      cases hwait : c.recvWait with
      | true =>
        have hfit : stepFits getLength p c a = true := by simp [stepFits, hwait]
        obtain ⟨hoff, hsz⟩ := hinv.body hwait
        rw [recvbufSize_of_lt hoff (by omega)] at hlen
        obtain ⟨hask', hinv'⟩ := @settled_received_body getLength onPackage p
          (c.stored (b :: bs) wire hroom) hinv.headerSize_le hlt hwait
          (by simp only [stored, append_data, List.length_append, append_offset]; omega) hsz
        exact ⟨⟨fun _ => hfit, fun _ => hask'⟩, fun _ => hinv'⟩
      | false =>
        have hfit : stepFits getLength p c a =
            headerFits getLength p (c.stored (b :: bs) wire hroom).buffer := by
          simp only [stepFits, hact, hwait, hrecv, dif_pos hroom, stored]
        rw [hfit]
        exact settled_received_header hinv.headerSize_le hlt hact hwait (hinv.header hwait)
  · have hfit : stepFits getLength p c a = true := by simp [stepFits, hrecv]
    obtain ⟨status, heq, -⟩ := @ReadConn.turn_of_error c _ (received getLength onPackage p) a e wire
      hact hrecv
    rw [readTurn_eq, heq]
    exact ⟨⟨fun _ => hfit, fun _ _ => hask hact⟩,
      fun _ => ⟨hinv.header, hinv.body, hinv.headerSize_le, hinv.size_lt⟩⟩

/-- **The length reader stays inside its buffer exactly when every step fits.**
For every setting, length function, memory contents, peer stream and sequence of
kernel answers: in every state the reader reaches it asks `recv` for at most
`size - length` bytes if and only if a header fits an empty buffer and at every
step that stores header bytes the length function's answer fits. -/
theorem asksWithinRoom_iff_eachStep_fits (cfg : LengthSettings) (f : LengthFunction)
    (onPackage : Bytes → Ret) (fresh : ℕ → UInt8) (stream : Bytes) (answers : List RecvAnswer) :
    (∀ used, used <+: answers → cfg.protocol.AsksWithinRoom
          (run (readTurn (f.apply cfg.protocol) onPackage cfg.protocol)
            (.init fresh stream) used)) ↔
      cfg.protocol.headerSize ≤ bufferSize ∧
        EachStep (readTurn (f.apply cfg.protocol) onPackage cfg.protocol)
          (fun c a => stepFits (f.apply cfg.protocol) cfg.protocol c a = true)
          (.init fresh stream) answers := by
  have hfirst : cfg.protocol.AsksWithinRoom (.init fresh stream) ↔
      cfg.protocol.headerSize ≤ bufferSize := by
    unfold AsksWithinRoom
    rw [recvbufSize_of_offset_zero (by rfl)]
    simp [init, room]
  by_cases hH : cfg.protocol.headerSize ≤ bufferSize
  · have hinv : cfg.protocol.ModeInv (.init fresh stream) :=
      ⟨fun _ => rfl, by simp [init], hH, by simp [init, bufferSize,
        ipcMaxSize, dataHeadSize]⟩
    rw [forall_prefix_iff_eachStep (I := cfg.protocol.ModeInv)
      (C := fun c a => stepFits (f.apply cfg.protocol) cfg.protocol c a = true)
      (fun c a hI hQ hC => (asksWithinRoom_readTurn hI hQ).2 hC)
      (fun c a hI hQ => (asksWithinRoom_readTurn hI hQ).1) answers hinv (hfirst.mpr hH)]
    exact ⟨fun h => ⟨hH, h⟩, fun h => h.2⟩
  · refine ⟨fun h => absurd (hfirst.mp (h [] List.nil_prefix)) hH, fun h => absurd h.1 hH⟩

/-- A header in two pieces, and two MQTT pings in one: in both runs the reader
ends up with more bytes than the package is long and asks for nearly `2^32` more. -/
theorem not_asksWithinRoom_split_header :
    let cfg : LengthSettings := ⟨.N, 0, 4, 2097152⟩
    let reached (f : LengthFunction) (stream : Bytes) (answers : List RecvAnswer) :=
      run (readTurn (f.apply cfg.protocol) (fun _ => .ok) cfg.protocol)
        (.init (fun _ => 0) stream) answers
    ¬ cfg.protocol.AsksWithinRoom
        (reached .lengthField [0, 0, 0, 1, 65, 0, 0, 0, 1, 66] [.deliver 2, .deliver 3]) ∧
      ¬ cfg.protocol.AsksWithinRoom
        (reached .mqtt [0xC0, 0, 0xC0, 0] [.deliver 3]) := by
  decide +kernel

end Swoole.Protocol
