import Swoole.Core.Text
import Swoole.Protocol.Http2Framing

/-!
# HTTP/2 responses

`swoole_http2_do_response` sends a response as a HEADERS frame and a DATA frame.  The length field
of a frame has 24 bits, and `swHttp2_set_frame_header` cuts the length it is given to them: with a
body of 16 MiB the DATA frame announces an empty payload, and the client takes the body for
frames.
-/

namespace Swoole.Http2

open List

/-- `SW_HTTP2_TYPE_DATA`. -/
def typeData : UInt8 := 0

/-- `SW_HTTP2_TYPE_HEADERS`. -/
def typeHeaders : UInt8 := 1

/-- `SW_HTTP2_FLAG_END_STREAM`. -/
def flagEndStream : UInt8 := 1

/-- `SW_HTTP2_FLAG_END_HEADERS`. -/
def flagEndHeaders : UInt8 := 4

/-- `swHttp2_set_frame_header`: an assignment to a `char` keeps the low eight bits. -/
def setFrameHeader (type : UInt8) (length : ℕ) (flags : UInt8) (streamId : ℕ) : Bytes :=
  netBytes 3 length ++ type :: flags :: netBytes 4 streamId

/-- The stream of a frame, as `swoole_http2_onFrame` reads it. -/
def streamId (frame : Bytes) : ℕ := netValue ((frame.drop 5).take 4) % 2 ^ 31

/-- `sizeof(header_buffer)`. -/
def headerBufferSize : ℕ := 8192

/-- What becomes of a response: memory outside a buffer is touched, `swServer_tcp_send` refuses
it, or its bytes are sent. -/
inductive Sending where
  | overrun
  | refused
  | sent (bytes : Bytes)

/-- `swoole_http_buffer` with a response in it.  If there is no memory for the body, it is left
out: the result of `swString_append` is not looked at. -/
def responseBuffer (id : ℕ) (block : Bytes) (grown : Bool) (body : Bytes) : Bytes :=
  setFrameHeader typeHeaders block.length flagEndHeaders id ++ block ++
    (setFrameHeader typeData body.length flagEndStream id ++ if grown then body else [])

/-- **`swoole_http2_do_response`**, with the header block of `http2_build_header`.  If that fails,
`n` is -1, and so many bytes are copied from `header_buffer`. -/
def doResponse (bufferOutputSize id : ℕ) (block : Option Bytes) (grown : Bool) (body : Bytes) :
    Sending :=
  match block with
  | none => .overrun
  | some block =>
    if headerBufferSize < block.length then .overrun
    else
      let buffer := responseBuffer id block grown body
      -- the length is passed on as a `uint32_t`
      let length := buffer.length % 2 ^ 32
      if bufferOutputSize ≤ length then .refused else .sent (buffer.take length)

/-- A frame of a type, on a stream, with a payload: its length field says where it ends. -/
structure Carries (type : UInt8) (id : ℕ) (payload frame : Bytes) : Prop where
  complete : Complete frame
  type_eq : frame.getD 3 0 = type
  streamId_eq : streamId frame = id
  payload_eq : frame.drop frameHeaderSize = payload

/-- If bytes are sent, they are cut into a HEADERS frame with the header block and a DATA frame
with the whole body, both on the stream of the request. -/
def Sending.WellFormed (id : ℕ) (block : Option Bytes) (body : Bytes) : Sending → Prop
  | .overrun => False
  | .refused => True
  | .sent bytes => ∃ b first second, block = some b ∧ bytes = first ++ second ∧
      Carries typeHeaders id b first ∧ Carries typeData id body second

section

variable {type flags : UInt8} {id : ℕ} {payload : Bytes}

theorem carries_setFrameHeader (hid : id < 2 ^ 31) (h : payload.length < 2 ^ 24) :
    Carries type id payload (setFrameHeader type payload.length flags id ++ payload) where
  complete := by
    simp [Complete, getLength, setFrameHeader, netBytes, frameHeaderSize]
    omega
  type_eq := by simp [setFrameHeader, netBytes]
  streamId_eq := by
    have hdrop : ((setFrameHeader type payload.length flags id ++ payload).drop 5).take 4 =
        netBytes 4 id := by simp [setFrameHeader, netBytes]
    rw [streamId, hdrop, netValue_netBytes (by omega), Nat.mod_eq_of_lt hid]
  payload_eq := by simp [setFrameHeader, netBytes, frameHeaderSize]

variable {b body : Bytes} {grown : Bool}

theorem length_responseBuffer : (responseBuffer id b grown body).length =
    b.length + 18 + if grown then body.length else 0 := by
  simp [responseBuffer, setFrameHeader, apply_ite length]
  omega

theorem sent_wellFormed_iff (hid : id < 2 ^ 31) (hb : b.length ≤ headerBufferSize) :
    (Sending.sent ((responseBuffer id b grown body).take
        ((responseBuffer id b grown body).length % 2 ^ 32))).WellFormed id (some b) body ↔
      body.length < 2 ^ 24 ∧ (grown ∨ body = []) := by
  unfold headerBufferSize at hb
  have hnine : frameHeaderSize = 9 := rfl
  constructor
  · rintro ⟨b', first, second, hb', hbytes, hfirst, hsecond⟩
    cases hb'
    obtain ⟨hle, -⟩ := hfirst.complete
    obtain ⟨hle', heq⟩ := hsecond.complete
    have hlt := getLength_lt second
    have hsize := congrArg length hbytes
    have hdrop := congrArg length hfirst.payload_eq
    have hdrop' := congrArg length hsecond.payload_eq
    rw [length_take, length_responseBuffer, length_append] at hsize
    rw [length_drop] at hdrop hdrop'
    refine ⟨by omega, ?_⟩
    cases grown with
    | true => exact .inl rfl
    | false =>
      -- without the body, the two frames are longer than what is sent
      refine .inr (length_eq_zero_iff.mp ?_)
      simp only [Bool.false_eq_true, if_false] at hsize
      omega
  · rintro ⟨hbody, hgrown⟩
    have hlt : (responseBuffer id b grown body).length < 2 ^ 32 := by
      rw [length_responseBuffer]
      split <;> omega
    rw [Nat.mod_eq_of_lt hlt, take_length]
    have hbuffer : responseBuffer id b grown body = responseBuffer id b true body := by
      rcases hgrown with rfl | rfl
      · rfl
      · simp [responseBuffer]
    exact ⟨b, _, _, rfl, hbuffer, carries_setFrameHeader hid (by omega),
      carries_setFrameHeader hid hbody⟩

end

/-- **Responses are well-formed** exactly if the header block fits `header_buffer` and, unless the
response is refused, the body is shorter than 16 MiB and there is memory for it. -/
theorem doResponse_wellFormed_iff (bufferOutputSize : ℕ) (id : Fin (2 ^ 31)) (block : Option Bytes)
    (grown : Bool) (body : Bytes) :
    (doResponse bufferOutputSize id block grown body).WellFormed id block body ↔
      ∃ b, block = some b ∧ b.length ≤ headerBufferSize ∧
        (bufferOutputSize ≤ (responseBuffer id b grown body).length % 2 ^ 32 ∨
          body.length < 2 ^ 24 ∧ (grown ∨ body = [])) := by
  cases block with
  | none => simp [doResponse, Sending.WellFormed]
  | some b =>
    simp only [Option.some_inj, exists_eq_left']
    unfold doResponse
    simp only
    split_ifs with hbig hrefused
    · exact iff_of_false (fun h => h) fun h => Nat.not_le_of_lt hbig h.1
    · exact iff_of_true trivial ⟨not_lt.mp hbig, .inl hrefused⟩
    · rw [sent_wellFormed_iff id.isLt (not_lt.mp hbig), or_iff_right hrefused,
        and_iff_right (not_lt.mp hbig)]

theorem not_wellFormed_of_long {n : ℕ} (hb : b.length ≤ headerBufferSize) (hlong : 2 ^ 24 ≤ n)
    (hsent : b.length + 18 + n < 2 ^ 25) :
    ¬ (doResponse (2 ^ 25) 1 (some b) true (replicate n 0)).WellFormed 1 (some b)
      (replicate n 0) := by
  have hlen : (responseBuffer 1 b true (replicate n 0)).length = b.length + 18 + n := by
    simp [length_responseBuffer]
  unfold doResponse
  simp only
  rw [if_neg (not_lt.mpr hb), if_neg (by omega), sent_wellFormed_iff (by decide) hb,
    length_replicate]
  omega

/-- The fields of `http2_build_header` in front of a body of 16 MiB, as literals. -/
def plainBlock : Bytes :=
  [136, 118, 18] ++ ascii "swoole-http-server".toList ++ [95, 9] ++ ascii "text/html".toList ++
    [97, 29] ++ ascii "Thu, 01 Jan 1970 00:00:00 GMT".toList ++ [92, 8] ++ ascii "16777216".toList

/-- A body of 16 MiB under an output buffer of 32 MiB: the DATA frame announces no payload. -/
theorem not_wellFormed_sixteen_mebibytes :
    ¬ (doResponse (2 ^ 25) 1 (some plainBlock) true (replicate (2 ^ 24) 0)).WellFormed 1
      (some plainBlock) (replicate (2 ^ 24) 0) :=
  not_wellFormed_of_long (by decide) (by decide) (by decide)

end Swoole.Http2
