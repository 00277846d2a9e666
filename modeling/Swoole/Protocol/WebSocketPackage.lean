import Swoole.Protocol.WebSocketFraming

/-!
# What becomes of a WebSocket frame

`swPort_websocket_onPackage` is handed one frame as a whole.  The two bytes it writes for the
`FIN` bit and the opcode of a data frame lie in front of the payload, whatever the header is, so
that the payload is dispatched unmasked and untouched (`dispatched_dataFrame`).  The unmasking
loop counts with an `int`, and so does the reader that hands the frame over.

A `PING` is answered from a fixed place, behind two bytes.  That is the payload if the header has
no more than these; otherwise the answer begins with the rest of the header (`answered_iff`).
-/

open List

namespace Swoole.WebSocketFrame

/-- The application data of a frame, unmasked. -/
def unmasked (data : Bytes) : Bytes :=
  if (decode data).masked then
    applyMask (decode data).maskKey (data.drop (decode data).headerLength)
  else data.drop (decode data).headerLength

variable {data : Bytes}

theorem Complete.drop_unmask (h : Complete data) :
    ((decode data).unmask data).drop (decode data).headerLength = unmasked data := by
  have hlen : (data.drop (decode data).headerLength).length = (decode data).payloadLength := by
    rw [length_drop, h, Nat.add_sub_cancel_left]
  unfold unmask unmasked
  split
  · rw [drop_left' (length_take_of_le h.headerLength_le), mapIdx_mask hlen]
  · rfl

theorem Complete.length_unmasked (h : Complete data) :
    (unmasked data).length = (decode data).payloadLength := by
  rw [← h.drop_unmask, length_drop, length_unmask, h, Nat.add_sub_cancel_left]

/-! ## Data frames -/

/-- One package is dispatched: the `FIN` bit, the opcode and the unmasked data. -/
def Dispatched (data : Bytes) : Prop :=
  (onPackage data).map (·.packages) =
    some [(if (decode data).fin then 1 else 0) :: (decode data).opcode.toUInt8 :: unmasked data]

/-- A frame that carries data: a continuation, a text or a binary frame. -/
def CarriesData (data : Bytes) : Prop :=
  (decode data).opcode = 0x0 ∨ (decode data).opcode = 0x1 ∨ (decode data).opcode = 0x2

/-- Data is dispatched unless the masked payload has more bytes than an `int` can count. -/
theorem Complete.dispatched_iff (h : Complete data) (hopcode : CarriesData data) :
    Dispatched data ↔ ((decode data).masked = true → (decode data).payloadLength < 2 ^ 31) := by
  have hlen : data.length = _ := h
  have htwo := two_le_headerLength data
  unfold CarriesData at hopcode
  unfold Dispatched onPackage
  simp only
  by_cases hlong : (decode data).masked = true ∧ 2 ^ 31 ≤ (decode data).payloadLength
  · rw [if_pos ⟨hlong.1, .inr hlong.2⟩]
    exact iff_of_false (by simp) fun hlt => absurd (hlt hlong.1) (not_lt.mpr hlong.2)
  · have hshort : (decode data).masked = true → (decode data).payloadLength < 2 ^ 31 :=
      fun hmasked => not_le.mp fun hle => hlong ⟨hmasked, hle⟩
    have hinside : ¬ ((decode data).masked = true ∧ (data.length < (decode data).headerLength +
        (decode data).payloadLength ∨ 2 ^ 31 ≤ (decode data).payloadLength)) :=
      fun hout => hout.2.elim (by omega) fun hle => hlong ⟨hout.1, hle⟩
    have hoffset : data.length - (decode data).payloadLength - 2 + 2 =
        (decode data).headerLength := by omega
    rw [if_neg hinside, if_pos hopcode, if_pos (by omega), hoffset, h.drop_unmask]
    exact iff_of_true rfl hshort

/-- A data frame as the reader hands it over: as a whole, with a length that is an `int`. -/
structure DataFrame where
  data : Bytes
  complete : Complete data
  opcode : CarriesData data
  length_lt : data.length < 2 ^ 31

/-- **Every data frame is dispatched**, once and with its unmasked payload. -/
theorem dispatched_dataFrame (f : DataFrame) : Dispatched f.data := by
  refine (f.complete.dispatched_iff f.opcode).mpr fun _ => ?_
  have hlen : f.data.length = _ := f.complete
  have hlt := f.length_lt
  omega

/-- A final text frame with the byte `h`, masked. -/
theorem dispatched_masked :
    Dispatched [0x81, 0x81, 1, 2, 3, 4, 0x69] ∧
      (onPackage [0x81, 0x81, 1, 2, 3, 4, 0x69]).map (·.packages) = some [[1, 1, 0x68]] :=
  ⟨dispatched_dataFrame ⟨[0x81, 0x81, 1, 2, 3, 4, 0x69], by decide, .inr (.inl rfl), by decide⟩,
    by decide⟩

/-! ## `PING` -/

/-- A `PING` frame as a whole, with no more data than a control frame may have. -/
structure PingFrame where
  data : Bytes
  complete : Complete data
  opcode : (decode data).opcode = 0x9
  payloadLength_le : (decode data).payloadLength ≤ 125

/-- One frame is sent back, a final `PONG` with the same application data. -/
def Answered (data : Bytes) : Prop :=
  ∃ reply, (onPackage data).map (·.replies) = some [reply] ∧ Complete reply ∧
    (decode reply).fin = true ∧ (decode reply).opcode = 0xa ∧ unmasked reply = unmasked data

theorem decode_pong (h : data.length < 2 ^ 64) :
    decode (pong data) = ⟨true, 0xa, false, [], headerSize data.length false, data.length⟩ :=
  @decode_header (fun _ => 0) 0xa true false data.length h (by decide) data

theorem length_pong (data : Bytes) :
    (pong data).length = headerSize data.length false + data.length := by
  rw [pong, length_append]
  exact congrArg (· + _) (length_header (fun _ => 0) data.length 0xa 1 false)

theorem unmasked_pong (h : data.length < 2 ^ 64) : unmasked (pong data) = data := by
  simp only [unmasked, decode_pong h, Bool.false_eq_true, if_false]
  exact drop_left' (length_header (fun _ => 0) data.length 0xa 1 false)

/-- **When a `PING` is answered with its own data**: exactly when its header has two bytes, and
it has data, but no more than 123 bytes of it. -/
theorem answered_iff (f : PingFrame) : Answered f.data ↔
    (decode f.data).headerLength = 2 ∧ 0 < (decode f.data).payloadLength ∧
      (decode f.data).payloadLength ≤ 123 := by
  have hcomplete : f.data.length = _ := f.complete
  have htwo := two_le_headerLength f.data
  have hsmall := f.payloadLength_le
  have hrest : (((decode f.data).unmask f.data).drop 2).length = f.data.length - 2 := by
    rw [length_drop, length_unmask]
  unfold Answered onPackage
  rw [if_neg (by omega), if_neg (by rw [f.opcode]; decide), if_pos f.opcode]
  split
  · next hrefused =>
    refine iff_of_false ?_ (by omega)
    rintro ⟨reply, hreply, -⟩
    exact absurd hreply (by simp)
  · next hsent =>
    constructor
    · rintro ⟨reply, hreply, -, -, -, hdata⟩
      obtain rfl : pong (((decode f.data).unmask f.data).drop 2) = reply := by
        simpa using hreply
      rw [unmasked_pong (by omega)] at hdata
      have hlen := congrArg length hdata
      rw [hrest, f.complete.length_unmasked] at hlen
      omega
    · rintro ⟨hheader, -, -⟩
      refine ⟨_, rfl, ?_⟩
      rw [unmasked_pong (by omega), decode_pong (by omega), ← f.complete.drop_unmask, hheader]
      refine ⟨?_, rfl, rfl, rfl⟩
      rw [Complete, decode_pong (by omega), length_pong]

/-- A masked `PING` with the byte `h`: the key and the byte are sent back. -/
theorem not_answered_masked : ∃ f : PingFrame,
    (onPackage f.data).map (·.replies) = some [[0x8a, 5, 1, 2, 3, 4, 0x68]] ∧
      unmasked f.data = [0x68] ∧ ¬ Answered f.data := by
  refine ⟨⟨[0x89, 0x81, 1, 2, 3, 4, 0x69], by decide, by decide, by decide⟩, by decide,
    by decide, ?_⟩
  rintro ⟨reply, hreply, -, -, -, hdata⟩
  obtain rfl : [0x8a, 5, 1, 2, 3, 4, 0x68] = reply := by
    simpa using (show some [[0x8a, 5, 1, 2, 3, 4, 0x68]] = some [reply] from hreply)
  exact absurd hdata (by decide)

end Swoole.WebSocketFrame
