import Mathlib.Data.List.GetD
import Swoole.Core.String

/-!
# WebSocket frames

`swWebSocket_encode` puts a frame header and the payload, masked if that is asked for, at
the end of a buffer; `swWebSocket_decode` reads the header of a frame that lies at the
start of a block and unmasks the payload in place.  A header has two bytes, an extended
payload length of two or eight bytes in network byte order, and a masking key of four.

`swPort_websocket_onPackage` decodes the frame a connection has received.  It dispatches the
payload of a data frame, with two bytes for the `FIN` bit and the opcode in front, and
answers control frames.

The encoder appends through `swString_append_ptr` and does not look at what that returns.
From `2 ^ 30` bytes on, the buffer cannot grow any more, and only the header is appended:
`roundTrips_iff` says when a frame can be read back.
-/

open List

namespace Swoole

/-- `SW_WEBSOCKET_HEADER_LEN`. -/
def webSocketHeaderLen : ℕ := 2

/-- `SW_WEBSOCKET_MASK_LEN`. -/
def webSocketMaskLen : ℕ := 4

/-! ## Frames -/

/-- `swWebSocket_frame`, less the reserved bits and the pointer to the payload. -/
structure WebSocketFrame where
  fin : Bool
  opcode : ℕ
  masked : Bool
  maskKey : Bytes
  headerLength : ℕ
  payloadLength : ℕ
  deriving DecidableEq

namespace WebSocketFrame

/-- The masking loops: every byte with the byte of the key it falls on. -/
def applyMask (key data : Bytes) : Bytes :=
  data.mapIdx fun i b => b ^^^ key.getD (i % webSocketMaskLen) 0

@[simp] theorem length_applyMask (key data : Bytes) : (applyMask key data).length = data.length :=
  length_mapIdx

variable {data : Bytes}

theorem mapIdx_mask {key : Bytes} {n : ℕ} (h : data.length = n) :
    (data.mapIdx fun i b => if i < n then b ^^^ key.getD (i % webSocketMaskLen) 0 else b) =
      applyMask key data := by
  refine ext_getElem (by simp) fun i hi _ => ?_
  rw [length_mapIdx, h] at hi
  simp only [applyMask, getElem_mapIdx, if_pos hi]

theorem applyMask_applyMask (key data : Bytes) : applyMask key (applyMask key data) = data := by
  refine ext_getElem (by simp) fun i _ _ => ?_
  simp only [applyMask, getElem_mapIdx]
  rw [UInt8.xor_assoc, UInt8.xor_self, UInt8.xor_zero]

/-! ### Encoding -/

/-- `FRAME_SET_FIN` and `FRAME_SET_MASK`. -/
def setBit (x : ℤ) : UInt8 := if x % 2 = 1 then 0x80 else 0

/-- `FRAME_SET_LENGTH`. -/
def setLength (length i : ℕ) : UInt8 := (length / 2 ^ (i * 8)).toUInt8

/-- The two lengths of a header, the second only if there is one. -/
def lengthBytes (length : ℕ) (mask : ℤ) : Bytes :=
  if length < 126 then [setBit mask ||| setLength length 0]
  else if length < 65536 then
    [setBit mask ||| 126, setLength length 1, setLength length 0]
  else
    [setBit mask ||| 127, setLength length 7, setLength length 6, setLength length 5,
      setLength length 4, setLength length 3, setLength length 2, setLength length 1,
      setLength length 0]

/-- `masks`; `rand i` is the `i`-th value of `rand()`. -/
def masks (rand : ℕ → ℕ) : Bytes :=
  (range webSocketMaskLen).map fun i => (rand i % 26 + 97).toUInt8

/-- `frame_header`. -/
def header (rand : ℕ → ℕ) (length : ℕ) (opcode : UInt8) (finish mask : ℤ) : Bytes :=
  [setBit finish ||| opcode &&& 0x0f] ++ lengthBytes length mask ++
    if mask = 0 then [] else masks rand

/-- The payload as it is sent. -/
def body (rand : ℕ → ℕ) (data : Bytes) (mask : ℤ) : Bytes :=
  if mask = 0 then data else applyMask (masks rand) data

/-- `swWebSocket_encode`.  What the two calls return is not looked at; `none` is undefined
behaviour in one of them. -/
def encode (pagesize : ℕ) (rand : ℕ → ℕ) (buffer : SwString) (data : Bytes) (opcode : UInt8)
    (finish mask : ℤ) : Option SwString :=
  (buffer.appendPtr pagesize (header rand data.length opcode finish mask)).bind fun r =>
    (r.1.appendPtr pagesize (body rand data mask)).map Prod.fst

/-! ### Decoding -/

/-- The number of bytes of the extended payload length, by the seven-bit length. -/
def extendedSize (length : ℕ) : ℕ :=
  if length = 0x7e then 2 else if 0x7e < length then 8 else 0

/-- `swWebSocket_decode`, without the unmasking. -/
def decode (data : Bytes) : WebSocketFrame :=
  let first := data.getD 0 0
  let second := data.getD 1 0
  let length := (second &&& 0x7f).toNat
  let size := extendedSize length
  let masked := second &&& 0x80 != 0
  let headerLength := webSocketHeaderLen + size
  { fin := first &&& 0x80 != 0
    opcode := (first &&& 0x0f).toNat
    masked := masked
    maskKey := if masked then (data.drop headerLength).take webSocketMaskLen else []
    headerLength := headerLength + if masked then webSocketMaskLen else 0
    payloadLength :=
      if size = 0 then length else netValue ((data.drop webSocketHeaderLen).take size) }

theorem extendedSize_of_lt {length : ℕ} (h : length < 126) : extendedSize length = 0 := by
  rw [extendedSize, if_neg (by omega), if_neg (by omega)]

theorem extendedSize_le (length : ℕ) : extendedSize length ≤ 8 := by
  unfold extendedSize
  split
  · omega
  split <;> omega

theorem headerLength_le (data : Bytes) : (decode data).headerLength ≤ 14 := by
  have hext := extendedSize_le (data.getD 1 0 &&& 0x7f).toNat
  simp only [decode, webSocketHeaderLen, webSocketMaskLen]
  split <;> omega

theorem decode_cons (first second : UInt8) {extended key : Bytes} (rest : Bytes)
    (hextended : extended.length = extendedSize (second &&& 0x7f).toNat)
    (hkey : key.length = if second &&& 0x80 != 0 then webSocketMaskLen else 0) :
    decode (first :: second :: (extended ++ (key ++ rest))) =
      { fin := first &&& 0x80 != 0
        opcode := (first &&& 0x0f).toNat
        masked := second &&& 0x80 != 0
        maskKey := key
        headerLength := webSocketHeaderLen + extended.length + key.length
        payloadLength :=
          if extended.length = 0 then (second &&& 0x7f).toNat else netValue extended } := by
  have hdrop : (first :: second :: (extended ++ (key ++ rest))).drop
      (webSocketHeaderLen + extended.length) = key ++ rest := by
    rw [← drop_drop]
    exact drop_left
  have htake : ((first :: second :: (extended ++ (key ++ rest))).drop webSocketHeaderLen).take
      extended.length = extended := take_left
  simp only [decode, getD_cons_zero, getD_cons_succ, ← hextended, hdrop, htake, hkey]
  congr 1
  split
  · next hmasked =>
    rw [if_pos hmasked] at hkey
    rw [← hkey, take_left]
  · next hmasked =>
    rw [if_neg hmasked] at hkey
    rw [eq_nil_of_length_eq_zero hkey]

theorem two_le_headerLength (data : Bytes) : 2 ≤ (decode data).headerLength := by
  simp only [decode, webSocketHeaderLen]
  omega

theorem decode_append (h : (decode data).headerLength ≤ data.length)
    (rest : Bytes) : decode (data ++ rest) = decode data := by
  have htwo := two_le_headerLength data
  have hfirst : (data ++ rest).getD 0 0 = data.getD 0 0 := getD_append _ _ _ _ (by omega)
  have hsecond : (data ++ rest).getD 1 0 = data.getD 1 0 := getD_append _ _ _ _ (by omega)
  have hfield : ∀ i n, i + n ≤ data.length →
      ((data ++ rest).drop i).take n = (data.drop i).take n := by
    intro i n hle
    rw [drop_append_of_le_length (by omega), take_append_of_le_length (by rw [length_drop]; omega)]
  simp only [decode] at h
  simp only [decode, hfirst, hsecond]
  rw [hfield webSocketHeaderLen _ (by omega)]
  split
  · next hmasked =>
    rw [if_pos hmasked] at h
    rw [hfield _ webSocketMaskLen (by omega)]
  · rfl

variable (f : WebSocketFrame)

/-- The unmasking loop of `swWebSocket_decode`. -/
def unmask (data : Bytes) : Bytes :=
  if f.masked then
    data.take f.headerLength ++ (data.drop f.headerLength).mapIdx fun i b =>
      if i < f.payloadLength then b ^^^ f.maskKey.getD (i % webSocketMaskLen) 0 else b
  else data

theorem length_unmask (data : Bytes) : (f.unmask data).length = data.length := by
  unfold unmask
  split
  · rw [length_append, length_mapIdx, length_take, length_drop]
    omega
  · rfl

/-- The bytes that `payload` and `payload_length` of a decoded frame stand for; `none` if
some of them are not part of the frame. -/
def payload (data : Bytes) : Option Bytes :=
  if f.headerLength + f.payloadLength ≤ data.length then
    some (((f.unmask data).drop f.headerLength).take f.payloadLength)
  else none

/-! ### Received frames -/

/-- The two bytes in front of the payload. -/
def tag : Bytes := [if f.fin then 1 else 0, f.opcode.toUInt8]

/-- What `swPort_websocket_onPackage` does: the contents of the block afterwards, what is
dispatched, what is sent back and what is returned. -/
structure PackageOutcome where
  data : Bytes
  packages : List Bytes
  replies : List Bytes
  ret : Ret
  deriving DecidableEq

/-- The `PONG` frame; `send_frame` has 128 bytes, room for any that is sent. -/
def pong (data : Bytes) : Bytes := header (fun _ => 0) data.length 0xa 1 0 ++ data

/-- `swPort_websocket_onPackage`; `none` is an access outside the frame, or an overflow of the
`int` that counts the bytes of a masked payload. -/
def onPackage (data : Bytes) : Option PackageOutcome :=
  let f := decode data
  let data' := f.unmask data
  if f.masked ∧ (data.length < f.headerLength + f.payloadLength ∨ 2 ^ 31 ≤ f.payloadLength) then
    none
  else if f.opcode = 0x0 ∨ f.opcode = 0x1 ∨ f.opcode = 0x2 then
    if f.payloadLength + 2 ≤ data.length then
      let offset := data.length - f.payloadLength - 2
      let package := f.tag ++ data'.drop (offset + 2)
      some ⟨data'.take offset ++ package, [package], [], .ok⟩
    else none
  else if f.opcode = 0x9 then
    if data.length = 2 ∨ 126 ≤ data.length then some ⟨data', [], [], .err⟩
    else some ⟨data', [], [pong (data'.drop 2)], .ok⟩
  else if f.opcode = 0xa then some ⟨data', [], [], .err⟩
  else if f.opcode = 0x8 then
    if 0x7d < data.length - 2 then some ⟨data', [], [], .err⟩
    else some ⟨data', [], [[0x88, 0x00]], .err⟩
  else some ⟨data', [], [], .ok⟩

theorem length_le_of_onPackage {outcome : PackageOutcome} (h : onPackage data = some outcome) :
    ∀ package ∈ outcome.packages, package.length ≤ data.length := by
  unfold onPackage at h
  simp only at h
  split at h
  · cases h
  split at h
  · split at h
    · next hle =>
      cases h
      intro package hmem
      obtain rfl := mem_singleton.mp hmem
      rw [length_append, length_drop, length_unmask, tag]
      simp only [length_cons, length_nil]
      omega
    · cases h
  split at h
  · split at h <;> cases h <;> simp
  split at h
  · cases h
    simp
  split at h
  · split at h <;> cases h <;> simp
  · cases h
    simp

/-- A frame whose length is that of its header and its payload is handled without an access
outside. -/
theorem onPackage_ne_none
    (h : data.length = (decode data).headerLength + (decode data).payloadLength)
    (hsmall : data.length < 2 ^ 31) : onPackage data ≠ none := by
  have htwo := two_le_headerLength data
  unfold onPackage
  rw [if_neg (by omega)]
  split
  · rw [if_pos (by omega)]
    simp
  split
  · split <;> simp
  split
  · simp
  split
  · split <;> simp
  · simp

/-! ### Reading an encoded frame -/

section RoundTrip

variable {rand : ℕ → ℕ} {opcode : ℕ} {fin masked : Bool}
variable {pagesize length : ℕ} {data : Bytes} {buffer : SwString}

theorem first_byte (fin : Bool) : ∀ opcode < 16,
    ((setBit fin.toInt ||| opcode.toUInt8 &&& 0x0f) &&& 0x80 != 0) = fin ∧
      ((setBit fin.toInt ||| opcode.toUInt8 &&& 0x0f) &&& 0x0f).toNat = opcode := by
  cases fin <;> decide

theorem second_byte (masked : Bool) : ∀ length < 128,
    ((setBit masked.toInt ||| length.toUInt8) &&& 0x80 != 0) = masked ∧
      ((setBit masked.toInt ||| length.toUInt8) &&& 0x7f).toNat = length := by
  cases masked <;> decide

/-- The seven-bit length of a payload. -/
def shortLength (length : ℕ) : ℕ :=
  if length < 126 then length else if length < 65536 then 126 else 127

theorem lengthBytes_eq (length : ℕ) (mask : ℤ) :
    lengthBytes length mask =
      (setBit mask ||| (shortLength length).toUInt8) ::
        netBytes (extendedSize (shortLength length)) length := by
  unfold lengthBytes shortLength
  split
  · next hlt =>
    rw [extendedSize_of_lt hlt]
    simp [setLength, netBytes]
  split <;> simp [setLength, netBytes, extendedSize]

theorem shortLength_lt (length : ℕ) : shortLength length < 128 := by
  unfold shortLength
  split
  · omega
  split <;> omega

@[simp] theorem length_masks (rand : ℕ → ℕ) : (masks rand).length = webSocketMaskLen := by
  simp [masks]

/-- The number of bytes of a header. -/
def headerSize (length : ℕ) (masked : Bool) : ℕ :=
  webSocketHeaderLen + extendedSize (shortLength length) + if masked then webSocketMaskLen else 0

theorem length_header (rand : ℕ → ℕ) (length : ℕ) (opcode : UInt8) (finish : ℤ) (masked : Bool) :
    (header rand length opcode finish masked.toInt).length = headerSize length masked := by
  rw [header, lengthBytes_eq]
  cases masked
  all_goals
    simp [headerSize, webSocketHeaderLen]
    omega

theorem headerSize_le (length : ℕ) (masked : Bool) : headerSize length masked ≤ 14 := by
  have hext := extendedSize_le (shortLength length)
  cases masked <;> simp [headerSize, webSocketHeaderLen, webSocketMaskLen] <;> omega

/-- The extended payload length is there exactly if the payload needs it. -/
theorem payloadLength_eq (h : length < 2 ^ 64) :
    (if extendedSize (shortLength length) = 0 then shortLength length
      else netValue (netBytes (extendedSize (shortLength length)) length)) = length := by
  unfold shortLength
  split
  · next hlt => rw [if_pos (extendedSize_of_lt hlt)]
  split
  · next hlt =>
    exact netValue_netBytes hlt
  · rw [if_neg (by decide)]
    exact netValue_netBytes h

/-- **Reading a header back.** -/
theorem decode_header (hlen : length < 2 ^ 64) (hop : opcode < 16)
    (rest : Bytes) :
    decode (header rand length opcode.toUInt8 fin.toInt masked.toInt ++ rest) =
      { fin := fin
        opcode := opcode
        masked := masked
        maskKey := if masked then masks rand else []
        headerLength := headerSize length masked
        payloadLength := length } := by
  obtain ⟨hfin, hopcode⟩ := first_byte fin opcode hop
  obtain ⟨hmasked, hshort⟩ := second_byte masked (shortLength length) (shortLength_lt length)
  have hkey : (if masked.toInt = 0 then [] else masks rand) =
      if masked then masks rand else [] := by
    cases masked <;> rfl
  have hheader := @decode_cons (setBit fin.toInt ||| opcode.toUInt8 &&& 0x0f)
    (setBit masked.toInt ||| (shortLength length).toUInt8)
    (netBytes (extendedSize (shortLength length)) length) (if masked then masks rand else []) rest
    (by rw [length_netBytes, hshort]) (by rw [hmasked]; cases masked <;> simp)
  rw [hfin, hopcode, hmasked, hshort, length_netBytes, payloadLength_eq hlen] at hheader
  rw [header, lengthBytes_eq, hkey]
  simp only [cons_append, nil_append, append_assoc]
  rw [hheader]
  cases masked <;> simp [headerSize]

theorem length_body (rand : ℕ → ℕ) (data : Bytes) (mask : ℤ) :
    (body rand data mask).length = data.length := by
  unfold body
  split
  · rfl
  · exact length_applyMask _ _

/-- **Reading a frame back.** -/
theorem payload_encoded (hlen : data.length < 2 ^ 64) (hop : opcode < 16) :
    (decode (header rand data.length opcode.toUInt8 fin.toInt masked.toInt ++
        body rand data masked.toInt)).payload
      (header rand data.length opcode.toUInt8 fin.toInt masked.toInt ++
        body rand data masked.toInt) = some data := by
  have hheader := length_header rand data.length opcode.toUInt8 fin.toInt masked
  have hbody := length_body rand data masked.toInt
  rw [decode_header hlen hop, payload, if_pos (by rw [length_append, hheader, hbody])]
  simp only [unmask, ← hheader]
  cases masked with
  | false =>
    rw [if_neg (by decide), drop_left, body, if_pos (by rfl), take_length]
  | true =>
    rw [if_pos rfl, take_left, drop_left, drop_left, if_pos rfl, mapIdx_mask hbody, body,
      if_neg (by decide), applyMask_applyMask, take_length]

/-- A header finds room in an empty buffer, possibly after the buffer has grown. -/
theorem appendPtr_header (hpage : pagesize ≤ 2 ^ 29) (hempty : buffer.data = []) {bytes : Bytes}
    (hsmall : bytes.length ≤ 14) :
    ∃ b, buffer.appendPtr pagesize bytes = some (b, .ok) ∧ b.data = bytes ∧
      (b.size = buffer.size ∨ buffer.size < 14 ∧ b.size < 2 ^ 30) := by
  have hzero : buffer.data.length = 0 := by rw [hempty]; rfl
  by_cases hroom : buffer.data.length + bytes.length ≤ buffer.size
  · refine ⟨_, SwString.appendPtr_of_le hroom (by omega), ?_, .inl rfl⟩
    rw [SwString.append_data, hempty, nil_append]
  · have halign := sizeAlign_le ((buffer.data.length + bytes.length) * 2) pagesize
    have hlimit : 2 ^ 30 ≤ ptrdiffMax := by decide
    obtain ⟨b, heq, hdata, hsize, -⟩ := @SwString.appendPtr_of_lt buffer pagesize bytes (by omega)
      (by omega) (by omega)
    exact ⟨b, heq, by rw [hdata, hempty, nil_append], .inr ⟨by omega, by omega⟩⟩

/-- A payload behind a header finds room if the block is large enough, or can still grow. -/
theorem appendPtr_body (hpage : pagesize ≤ 2 ^ 29) {bytes : Bytes}
    (hlt : buffer.data.length + bytes.length < 2 ^ 31) :
    ∃ b ret, buffer.appendPtr pagesize bytes = some (b, ret) ∧
      b.data = buffer.data ++
        if buffer.data.length + bytes.length ≤ buffer.size ∨
            buffer.data.length + bytes.length < 2 ^ 30
          then bytes else [] := by
  by_cases hroom : buffer.data.length + bytes.length ≤ buffer.size
  · rw [SwString.appendPtr_of_le hroom hlt, if_pos (.inl hroom)]
    exact ⟨_, _, rfl, rfl⟩
  by_cases hgrow : buffer.data.length + bytes.length < 2 ^ 30
  · have halign := sizeAlign_le ((buffer.data.length + bytes.length) * 2) pagesize
    have hlimit : 2 ^ 32 ≤ ptrdiffMax := by decide
    obtain ⟨b, heq, hdata, -⟩ := @SwString.appendPtr_of_lt buffer pagesize bytes (by omega) hgrow
      (by omega)
    rw [heq, if_pos (.inr hgrow)]
    exact ⟨b, _, rfl, hdata⟩
  · rw [SwString.appendPtr_of_overflow (by omega) (by omega) hlt, if_neg (by omega)]
    exact ⟨_, _, rfl, (append_nil _).symm⟩

theorem encode_of_appendPtr {b₁ b₂ : SwString} {opcode : UInt8} {finish mask : ℤ} {ret₁ ret₂ : Ret}
    (hfirst : buffer.appendPtr pagesize (header rand data.length opcode finish mask) =
      some (b₁, ret₁))
    (hsecond : b₁.appendPtr pagesize (body rand data mask) = some (b₂, ret₂)) :
    encode pagesize rand buffer data opcode finish mask = some b₂ :=
  Option.bind_eq_some_iff.mpr
    ⟨(b₁, ret₁), hfirst, Option.map_eq_some_iff.mpr ⟨(b₂, ret₂), hsecond, rfl⟩⟩

/-- Where the bytes of a frame go: all of them behind one another if the buffer has room, or
can still grow; otherwise only the header is appended. -/
theorem encode_spec (hpage : pagesize ≤ 2 ^ 29) (hempty : buffer.data = [])
    (hdata : data.length < 2 ^ 30) (opcode : UInt8) (finish : ℤ) :
    ∃ buffer', encode pagesize rand buffer data opcode finish masked.toInt = some buffer' ∧
      buffer'.data = header rand data.length opcode finish masked.toInt ++
        if headerSize data.length masked + data.length ≤ buffer.size ∨
            headerSize data.length masked + data.length < 2 ^ 30
          then body rand data masked.toInt else [] := by
  have hheader := length_header rand data.length opcode finish masked
  have hbody := length_body rand data masked.toInt
  have hsmall := headerSize_le data.length masked
  obtain ⟨b₁, hfirst, hdata₁, hsize₁⟩ := @appendPtr_header pagesize buffer hpage hempty
    (header rand data.length opcode finish masked.toInt) (by omega)
  obtain ⟨b₂, ret, hsecond, hdata₂⟩ := @appendPtr_body pagesize b₁ hpage
    (body rand data masked.toInt) (by rw [hdata₁]; omega)
  refine ⟨b₂, encode_of_appendPtr hfirst hsecond, ?_⟩
  · have hroom : b₁.data.length + (body rand data masked.toInt).length ≤ b₁.size ∨
        b₁.data.length + (body rand data masked.toInt).length < 2 ^ 30 ↔
          headerSize data.length masked + data.length ≤ buffer.size ∨
            headerSize data.length masked + data.length < 2 ^ 30 := by
      rw [hdata₁, hheader, hbody]
      omega
    rw [hdata₂, if_congr hroom rfl rfl, hdata₁]

/-- What is encoded into the buffer is decoded as what it was. -/
def RoundTrips (pagesize : ℕ) (rand : ℕ → ℕ) (buffer : SwString) (data : Bytes) (opcode : ℕ)
    (fin masked : Bool) : Prop :=
  ∃ buffer', encode pagesize rand buffer data opcode.toUInt8 fin.toInt masked.toInt =
      some buffer' ∧
    (decode buffer'.data).fin = fin ∧
    (decode buffer'.data).opcode = opcode ∧
    (decode buffer'.data).payload buffer'.data = some data ∧
    (decode buffer'.data).headerLength + (decode buffer'.data).payloadLength = buffer'.data.length

theorem not_roundTrips_of_not_fits (hpage : pagesize ≤ 2 ^ 29) (hempty : buffer.data = [])
    (hdata : data.length < 2 ^ 30) (hop : opcode < 16)
    (hfits : ¬ (headerSize data.length masked + data.length ≤ buffer.size ∨
      headerSize data.length masked + data.length < 2 ^ 30)) :
    ¬ RoundTrips pagesize rand buffer data opcode fin masked := by
  obtain ⟨buffer', hencode, hbuffer⟩ :=
    @encode_spec rand masked pagesize data buffer hpage hempty hdata opcode.toUInt8 fin.toInt
  have hheader := length_header rand data.length opcode.toUInt8 fin.toInt masked
  have hsmall := headerSize_le data.length masked
  rintro ⟨b, hb, -, -, -, hsum⟩
  obtain rfl : buffer' = b := Option.some.inj (hencode.symm.trans hb)
  rw [if_neg hfits] at hbuffer
  rw [hbuffer, decode_header (by omega) hop, append_nil, hheader] at hsum
  simp only at hsum
  omega

/-- **A frame can be read back** exactly if the buffer has room for it, or the frame has
less than `2 ^ 30` bytes. -/
theorem roundTrips_iff {pagesize : ℕ} (hpage : pagesize ≤ 2 ^ 29) (rand : ℕ → ℕ)
    {buffer : SwString} (hempty : buffer.data = []) {data : Bytes} (hdata : data.length < 2 ^ 30)
    {opcode : ℕ} (hop : opcode < 16) (fin masked : Bool) :
    RoundTrips pagesize rand buffer data opcode fin masked ↔
      headerSize data.length masked + data.length ≤ buffer.size ∨
        headerSize data.length masked + data.length < 2 ^ 30 := by
  constructor
  · intro h
    by_contra hfits
    exact not_roundTrips_of_not_fits hpage hempty hdata hop hfits h
  · intro hfits
    obtain ⟨buffer', hencode, hbuffer⟩ :=
      @encode_spec rand masked pagesize data buffer hpage hempty hdata opcode.toUInt8 fin.toInt
    rw [if_pos hfits] at hbuffer
    refine ⟨buffer', hencode, ?_⟩
    rw [hbuffer]
    refine ⟨?_, ?_, payload_encoded (by omega) hop, ?_⟩
    · rw [decode_header (by omega) hop]
    · rw [decode_header (by omega) hop]
    · rw [decode_header (by omega) hop, length_append, length_header, length_body]

/-- A masked text frame, in a buffer that has to grow. -/
theorem roundTrips_masked_text :
    RoundTrips 4096 (fun i => i) (.new (fun _ => 0) 8) [72, 101, 108, 108, 111] 1 true true :=
  (roundTrips_iff (by omega) _ rfl (by simp) (by omega) true true).mpr (.inr (by decide))

/-- **A frame of `2 ^ 30` bytes.**  The buffer of 64 KiB cannot grow any more, and the frame
is nothing but its header. -/
theorem not_roundTrips_large :
    ¬ RoundTrips 4096 (fun i => i) (.new (fun _ => 0) 65536) (replicate (2 ^ 30 - 10) 65) 1
      true false := by
  have hlen : (replicate (2 ^ 30 - 10) (65 : UInt8)).length = 2 ^ 30 - 10 :=
    length_replicate
  have hheader : headerSize (2 ^ 30 - 10) false = 10 := by decide
  refine not_roundTrips_of_not_fits (by omega) rfl (by omega) (by omega) ?_
  rw [hlen, hheader, SwString.new_size]
  omega

end RoundTrip

end WebSocketFrame

end Swoole
