import Swoole.Protocol.CheckLength
import Swoole.Protocol.WebSocketFrame

/-!
# WebSocket connections

Once a connection of an HTTP port is upgraded, `swPort_onRead_http` hands its read
events to the length reader, with `swWebSocket_get_package_length` and
`swPort_websocket_onPackage` in the place of the port's functions.

The length function is not a function of the bytes alone.  For an extended payload
length and for a masking key it calls `recv` itself, in the middle of the reader, takes
whatever number of bytes comes for the whole field, and stores them behind the first two
bytes of the block rather than behind the bytes in use.  `WebSocketStage` says which of
these calls the reader waits in, and `LengthCall` what the length function comes to.

The sum it returns is a `uint64_t` that its caller takes for an `int`.  `Agrees` says what
this makes of a frame, and `agrees_iff` for which lengths all is well.
-/

namespace Swoole

open WebSocketFrame

/-! ## The length function -/

/-- Which `recv` a connection waits in: that of the length reader, or one of those of
`swWebSocket_get_package_length`. -/
inductive WebSocketStage where
  | idle
  | extended (size : ℕ)
  | mask (headerLength payloadLength : ℕ)
  deriving DecidableEq

/-- What `swWebSocket_get_package_length` comes to: another `recv`, or its value. -/
inductive LengthCall where
  | ask (stage : WebSocketStage)
  | value (packageLength : ℤ)
  deriving DecidableEq

namespace WebSocketStage

/-- Where the bytes of the field go, as an index of the block. -/
def start : WebSocketStage → ℕ
  | .idle => 0
  | .extended _ => webSocketHeaderLen
  | .mask headerLength _ => headerLength

/-- The number of bytes of the field. -/
def size : WebSocketStage → ℕ
  | .idle => 0
  | .extended size => size
  | .mask _ _ => webSocketMaskLen

end WebSocketStage

namespace LengthCall

/-- The sum that `swWebSocket_get_package_length` returns: a `uint64_t`, as an `int`. -/
def packageLength (headerLength payloadLength : ℕ) : ℤ :=
  toInt32 ((headerLength + payloadLength) % 2 ^ 64 : ℕ)

/-- The end of the function: the masking key, or the sum. -/
def maskOrLength (buffer : SwString) (headerLength payloadLength : ℕ) : LengthCall :=
  if buffer.byteAt 1 &&& 0x80 != 0 then .ask (.mask headerLength payloadLength)
  else .value (packageLength headerLength payloadLength)

/-- The beginning of the function. -/
def enter (buffer : SwString) : LengthCall :=
  if buffer.data.length < webSocketHeaderLen then .value 0
  else
    let length := (buffer.byteAt 1 &&& 0x7f).toNat
    if extendedSize length = 0 then maskOrLength buffer webSocketHeaderLen length
    else .ask (.extended (extendedSize length))

/-- What follows the `recv` of a field, with its bytes in the block. -/
def resume (buffer : SwString) : WebSocketStage → LengthCall
  | .idle => enter buffer
  | .extended size =>
    maskOrLength buffer (webSocketHeaderLen + size)
      (netValue (buffer.cells webSocketHeaderLen size))
  | .mask headerLength payloadLength =>
    .value (packageLength (headerLength + webSocketMaskLen) payloadLength)

/-- The rest of the function, the calls of `recv` returning the `fields` one after the
other: its value and the buffer.  `none` is a call that is still waiting, or one for whose
field the block has no room. -/
def finish : SwString → LengthCall → List Bytes → Option (ℤ × SwString)
  | buffer, .value packageLength, _ => some (packageLength, buffer)
  | _, .ask _, [] => none
  | buffer, .ask stage, bytes :: fields =>
    if h : buffer.data.length + stage.size ≤ buffer.size then
      let buffer' := buffer.patch stage.start (bytes.take stage.size) stage.size h
      finish buffer' (resume buffer' stage) fields
    else none

/-- `swWebSocket_get_package_length`, as far as no `recv` fails. -/
def getPackageLength (buffer : SwString) (fields : List Bytes) : Option (ℤ × SwString) :=
  finish buffer (enter buffer) fields

/-! ### What the length function computes -/

section Sound

variable {buffer : SwString}

/-- The seven-bit length in a block. -/
def shortOf (buffer : SwString) : ℕ := (buffer.byteAt 1 &&& 0x7f).toNat

/-- The payload length in a block. -/
def payloadOf (buffer : SwString) : ℕ :=
  if extendedSize (shortOf buffer) = 0 then shortOf buffer
  else netValue (buffer.cells webSocketHeaderLen (extendedSize (shortOf buffer)))

/-- What the decoder reads in a block, if the bytes in use contain the two lengths. -/
theorem decode_data (h : webSocketHeaderLen + extendedSize (shortOf buffer) ≤ buffer.data.length) :
    (decode buffer.data).headerLength =
        webSocketHeaderLen + extendedSize (shortOf buffer) +
          (if buffer.byteAt 1 &&& 0x80 != 0 then webSocketMaskLen else 0) ∧
      (decode buffer.data).payloadLength = payloadOf buffer := by
  have hsecond : buffer.data.getD 1 0 = buffer.byteAt 1 := by
    have hlt : 1 < buffer.data.length := lt_of_lt_of_le (by decide) (Nat.le_of_add_right_le h)
    simp [SwString.byteAt, hlt]
  simp only [decode, hsecond, payloadOf, buffer.cells_of_le h]
  exact ⟨rfl, rfl⟩

/-- What is known where the length function stands. -/
def Sound (buffer : SwString) : LengthCall → Prop
  | .value v =>
    (decode buffer.data).headerLength ≤ buffer.data.length ∧
      v = packageLength (decode buffer.data).headerLength
        (decode buffer.data).payloadLength
  | .ask .idle => False
  | .ask (.extended size) =>
    webSocketHeaderLen ≤ buffer.data.length ∧
      size = extendedSize (shortOf buffer) ∧ size ≠ 0
  | .ask (.mask headerLength payloadLength) =>
    headerLength ≤ buffer.data.length ∧
      headerLength = webSocketHeaderLen + extendedSize (shortOf buffer) ∧
      payloadLength = payloadOf buffer ∧ (buffer.byteAt 1 &&& 0x80 != 0) = true

theorem sound_maskOrLength
    (h : webSocketHeaderLen + extendedSize (shortOf buffer) ≤ buffer.data.length) :
    Sound buffer (maskOrLength buffer
      (webSocketHeaderLen + extendedSize (shortOf buffer)) (payloadOf buffer)) := by
  unfold maskOrLength
  split
  · next hmasked => exact ⟨h, rfl, rfl, hmasked⟩
  · next hmasked =>
    obtain ⟨hheader, hpayload⟩ := decode_data h
    rw [if_neg hmasked, add_zero] at hheader
    refine ⟨hheader.symm ▸ h, ?_⟩
    rw [hheader, hpayload]

theorem sound_enter (h : webSocketHeaderLen ≤ buffer.data.length) :
    Sound buffer (enter buffer) := by
  unfold enter
  rw [if_neg (not_lt.mpr h)]
  simp only
  split
  · next hzero =>
    have hsound := @sound_maskOrLength buffer (by rw [shortOf, hzero]; exact h)
    rwa [payloadOf, shortOf, hzero, if_pos rfl] at hsound
  · next hne => exact ⟨h, rfl, hne⟩

theorem payloadOf_patch {i : ℕ} (bytes : Bytes) {n : ℕ} (h : buffer.data.length + n ≤ buffer.size)
    (hi : webSocketHeaderLen ≤ i) :
    shortOf (buffer.patch i bytes n h) = shortOf buffer ∧
      (webSocketHeaderLen + extendedSize (shortOf buffer) ≤ i →
        payloadOf (buffer.patch i bytes n h) = payloadOf buffer) := by
  have hshort : shortOf (buffer.patch i bytes n h) = shortOf buffer := by
    rw [shortOf, shortOf, buffer.byteAt_patch_of_lt bytes h (lt_of_lt_of_le (by decide) hi)]
  refine ⟨hshort, fun hle => ?_⟩
  unfold payloadOf
  rw [hshort]
  refine if_congr Iff.rfl rfl (congrArg netValue (List.map_congr_left fun j hj => ?_))
  rw [List.mem_range] at hj
  exact buffer.byteAt_patch_of_lt bytes h (by omega)

theorem sound_extended {size : ℕ} (htwo : webSocketHeaderLen ≤ buffer.data.length)
    (hsize : size = extendedSize (shortOf buffer)) (hne : size ≠ 0) (bytes : Bytes)
    (h : buffer.data.length + size ≤ buffer.size) :
    Sound (buffer.patch webSocketHeaderLen bytes size h)
      (resume (buffer.patch webSocketHeaderLen bytes size h) (.extended size)) := by
  have hshort := (payloadOf_patch bytes h (Nat.le_refl webSocketHeaderLen)).1
  have hlen := buffer.length_patch webSocketHeaderLen bytes size h
  generalize buffer.patch webSocketHeaderLen bytes size h = stored at hshort hlen
  have hnext := @sound_maskOrLength stored (by rw [hshort, ← hsize, hlen]; omega)
  rwa [payloadOf, hshort, ← hsize, if_neg hne] at hnext

theorem sound_mask {headerLength : ℕ} (hle : headerLength ≤ buffer.data.length)
    (hheader : headerLength = webSocketHeaderLen + extendedSize (shortOf buffer))
    (hmasked : (buffer.byteAt 1 &&& 0x80 != 0) = true) (bytes : Bytes)
    (h : buffer.data.length + webSocketMaskLen ≤ buffer.size) :
    Sound (buffer.patch headerLength bytes webSocketMaskLen h)
      (.value (packageLength (headerLength + webSocketMaskLen) (payloadOf buffer))) := by
  have hi : webSocketHeaderLen ≤ headerLength := by omega
  obtain ⟨hshort, hsame⟩ := payloadOf_patch bytes h hi
  have hlen := buffer.length_patch headerLength bytes webSocketMaskLen h
  have hsecond := buffer.byteAt_patch_of_lt bytes h (lt_of_lt_of_le (by decide : 1 < 2) hi)
  generalize buffer.patch headerLength bytes webSocketMaskLen h = stored
    at hshort hsame hlen hsecond
  obtain ⟨hheader', hpayload⟩ := @decode_data stored (by rw [hshort, ← hheader, hlen]; omega)
  rw [hshort, ← hheader, hsecond, if_pos hmasked] at hheader'
  rw [hsame (by omega)] at hpayload
  refine ⟨by rw [hheader', hlen]; omega, ?_⟩
  rw [hheader', hpayload]

/-- **A field is stored.** -/
theorem sound_resume {stage : WebSocketStage} (hsound : Sound buffer (.ask stage)) (bytes : Bytes)
    (h : buffer.data.length + stage.size ≤ buffer.size) :
    Sound (buffer.patch stage.start bytes stage.size h)
      (resume (buffer.patch stage.start bytes stage.size h) stage) := by
  cases stage with
  | idle => exact hsound.elim
  | extended size => exact sound_extended hsound.1 hsound.2.1 hsound.2.2 bytes h
  | mask headerLength payloadLength =>
    obtain ⟨hle, hheader, rfl, hmasked⟩ := hsound
    exact sound_mask hle hheader hmasked bytes h

theorem sound_finish : ∀ (fields : List Bytes) {buffer buffer' : SwString} {call : LengthCall}
    {v : ℤ}, Sound buffer call → finish buffer call fields = some (v, buffer') →
      Sound buffer' (.value v) := by
  intro fields
  induction fields with
  | nil =>
    intro buffer buffer' call v hsound h
    cases call with
    | ask stage => cases h
    | value v' =>
      cases h
      exact hsound
  | cons bytes fields ih =>
    intro buffer buffer' call v hsound h
    cases call with
    | ask stage =>
      unfold finish at h
      split at h
      · next hroom => exact ih (sound_resume hsound _ hroom) h
      · cases h
    | value v' =>
      cases h
      exact hsound

end Sound

/-- The value is negative, or the length of the frame that the decoder will find; and a frame
of this length is handled without an access outside. -/
def Agrees (buffer : SwString) (v : ℤ) : Prop :=
  (v < 0 ∨ v = (decode buffer.data).headerLength +
      (decode buffer.data).payloadLength) ∧
    ∀ rest : Bytes, ((buffer.data ++ rest).length : ℤ) = v →
      onPackage (buffer.data ++ rest) ≠ none

theorem packageLength_iff (headerLength payloadLength : ℕ) :
    packageLength headerLength payloadLength < 0 ∨
        packageLength headerLength payloadLength = headerLength + payloadLength ↔
      headerLength + payloadLength < 2 ^ 31 ∨
        2 ^ 31 ≤ (headerLength + payloadLength) % 2 ^ 32 := by
  unfold packageLength toInt32
  simp only [Int.bmod]
  split <;> omega

/-- **The length function and the decoder agree** about a header exactly if the frame has
less than `2 ^ 31` bytes, or its length is negative as an `int`. -/
theorem agrees_iff {buffer buffer' : SwString} {fields : List Bytes} {v : ℤ}
    (hheader : webSocketHeaderLen ≤ buffer.data.length)
    (h : getPackageLength buffer fields = some (v, buffer')) :
    Agrees buffer' v ↔
      (decode buffer'.data).headerLength +
          (decode buffer'.data).payloadLength < 2 ^ 31 ∨
        2 ^ 31 ≤ ((decode buffer'.data).headerLength +
          (decode buffer'.data).payloadLength) % 2 ^ 32 := by
  obtain ⟨hle, hv⟩ := sound_finish fields (sound_enter hheader) h
  rw [← packageLength_iff, ← hv]
  refine ⟨fun hagrees => hagrees.1, fun hvalue => ⟨hvalue, fun rest hlen => ?_⟩⟩
  rcases hvalue with hneg | hexact
  · omega
  · have hdecode := decode_append hle rest
    have hint : v < 2 ^ 31 := hv ▸ (toInt32_bounds _).2
    exact onPackage_ne_none (by rw [hdecode]; omega) (by omega)

/-- The first two bytes of a header, in a block of 32 bytes. -/
def headerStart (first second : UInt8) : SwString :=
  (SwString.new (fun _ => 0) 32).append [first, second] (by simp)

theorem exists_of_returns {buffer : SwString} {fields : List Bytes} {v : ℤ} {data : Bytes}
    (h : (getPackageLength buffer fields).map (fun r => (r.1, r.2.data)) = some (v, data)) :
    ∃ buffer', getPackageLength buffer fields = some (v, buffer') ∧ buffer'.data = data := by
  obtain ⟨⟨v', buffer'⟩, hcall, heq⟩ := Option.map_eq_some_iff.mp h
  cases heq
  exact ⟨buffer', hcall, rfl⟩

/-- A masked frame with a payload of 256 bytes. -/
theorem agrees_masked_extended : ∃ buffer,
    getPackageLength (headerStart 0x81 0xfe) [[1, 0], [1, 2, 3, 4]] = some (264, buffer) ∧
      Agrees buffer 264 := by
  obtain ⟨buffer, hcall, hdata⟩ :=
    @exists_of_returns (headerStart 0x81 0xfe) [[1, 0], [1, 2, 3, 4]] 264
      [0x81, 0xfe, 1, 0, 1, 2, 3, 4] (by decide +kernel)
  refine ⟨buffer, hcall, (agrees_iff (by decide) hcall).mpr (.inl ?_)⟩
  rw [hdata]
  decide +kernel

/-- **A payload length of `2 ^ 32 + 5`.**  The package length comes out as 15, and the frame
of 15 bytes that is handed over has its payload outside. -/
theorem not_agrees_truncated : ∃ buffer,
    getPackageLength (headerStart 0x82 0x7f) [[0, 0, 0, 1, 0, 0, 0, 5]] = some (15, buffer) ∧
      ¬ Agrees buffer 15 ∧
      onPackage (buffer.data ++ [72, 101, 108, 108, 111]) = none := by
  obtain ⟨buffer, hcall, hdata⟩ :=
    @exists_of_returns (headerStart 0x82 0x7f) [[0, 0, 0, 1, 0, 0, 0, 5]] 15
      [0x82, 0x7f, 0, 0, 0, 1, 0, 0, 0, 5] (by decide +kernel)
  refine ⟨buffer, hcall, fun h => absurd h.1 ?_, ?_⟩
  all_goals
    rw [hdata]
    decide +kernel

end LengthCall

/-! ## The reader -/

/-- A connection after its upgrade, with the frames handed to `swPort_websocket_onPackage`,
the packages dispatched and the frames sent back so far, oldest first. -/
structure WebSocketConn where
  buffer : SwString
  recvWait : Bool
  stage : WebSocketStage
  wire : Bytes
  frames : List Bytes
  packages : List Bytes
  replies : List Bytes
  status : Status

namespace WebSocketConn

def init (fresh : ℕ → UInt8) (stream : Bytes) : WebSocketConn where
  buffer := .new fresh bufferSize
  recvWait := false
  stage := .idle
  wire := stream
  frames := []
  packages := []
  replies := []
  status := .active

section Reader

variable (p : Protocol) (c : WebSocketConn)

/-- `do_package`. -/
def doPackage : WebSocketConn × Next Ret :=
  match onPackage c.buffer.data with
  | none => ({ c with status := .broken }, .ret .ok)
  | some outcome =>
    ({ c with
        buffer := (c.buffer.patch 0 outcome.data 0 c.buffer.length_le).clear
        recvWait := false
        frames := c.frames ++ [c.buffer.data]
        packages := c.packages ++ outcome.packages
        replies := c.replies ++ outcome.replies }, .ret outcome.ret)

/-- The package length is known: make room, remember it, and either hand the frame over
or go for the rest of it. -/
def learnLength (packageLength : ℕ) : WebSocketConn × Next Ret :=
  let c' : WebSocketConn :=
    { c with
      buffer := { c.buffer.reserve packageLength with offset := packageLength }
      recvWait := true }
  if c'.buffer.data.length = packageLength then c'.doPackage else (c', .again)

/-- What the length reader does with the value of the length function. -/
def gotLength (packageLength : ℤ) : WebSocketConn × Next Ret :=
  if packageLength < 0 then (c, .ret .err)
  else if packageLength = 0 then (c, .ret .ok)
  else if p.maxLength < packageLength.toNat then (c, .ret .err)
  else c.learnLength packageLength.toNat

/-- The length reader behind a part of the length function. -/
def afterLength : LengthCall → WebSocketConn × Next Ret
  | .ask stage => ({ c with stage := stage }, .again)
  | .value packageLength => { c with stage := .idle }.gotLength p packageLength

/-- What follows the `recv` of the length reader. -/
def received : WebSocketConn × Next Ret :=
  if c.recvWait then
    if c.buffer.data.length = c.buffer.offset then c.doPackage else (c, .ret .ok)
  else c.afterLength p (.enter c.buffer)

def recvFailed (e : Errno) : WebSocketConn × Next Ret :=
  match connectionError e with
  | .close => (c, .ret .err)
  | .error | .wait => (c, .ret .ok)
  | .abort => ({ c with status := .broken }, .ret .ok)

/-- The `recv` of the length reader. -/
def recvIdle (a : RecvAnswer) : WebSocketConn × Next Ret :=
  match recv (p.recvbufSize c.buffer) c.wire a with
  | (.error e, _) => c.recvFailed e
  | (.data [], _) => (c, .ret .err)
  | (.data (b :: bs), wire) =>
    if h : c.buffer.data.length + (b :: bs).length ≤ c.buffer.size then
      { c with buffer := c.buffer.append (b :: bs) h, wire := wire }.received p
    else ({ c with status := .broken, wire := wire }, .ret .ok)

/-- A `recv` of the length function.  It fails only if `recv` does, and the whole field is
counted in, however many bytes came. -/
def recvField (a : RecvAnswer) : WebSocketConn × Next Ret :=
  match recv c.stage.size c.wire a with
  | (.error _, _) => ({ c with stage := .idle }, .ret .err)
  | (.data bytes, wire) =>
    if h : c.buffer.data.length + c.stage.size ≤ c.buffer.size then
      let buffer := c.buffer.patch c.stage.start bytes c.stage.size h
      { c with buffer := buffer, wire := wire }.afterLength p (.resume buffer c.stage)
    else ({ c with status := .broken, wire := wire }, .ret .ok)

/-- `swProtocol_recv_check_length` with the functions of a WebSocket port, from one `recv`
to the next, or to its return. -/
def recvWebSocket (a : RecvAnswer) : WebSocketConn × Next Ret :=
  if c.stage = .idle then c.recvIdle p a else c.recvField p a

/-- The reader's caller: `SW_ERR` closes the connection. -/
def settle : Ret → WebSocketConn
  | .ok => c
  | .err => { c with status := .closed }

end Reader

/-- The reads of an upgraded connection. -/
def onRead (p : Protocol) : Resumable WebSocketConn RecvAnswer Ret where
  step c a := if c.status = .active then c.recvWebSocket p a else (c, .ret .ok)
  settle := settle

/-- What one answer of the kernel makes of a connection. -/
abbrev readTurn (p : Protocol) : WebSocketConn → RecvAnswer → WebSocketConn := (onRead p).turn

/-! ## The size of a package -/

section Size

variable {p : Protocol} {c : WebSocketConn}

/-- A known package length keeps within the limit of the port, and so does everything
dispatched. -/
structure Within (p : Protocol) (c : WebSocketConn) : Prop where
  offset : c.recvWait = true → c.buffer.offset ≤ p.maxLength
  packages : ∀ data ∈ c.packages, data.length ≤ p.maxLength

/-- A step keeps within the limit. -/
def StepWithin (p : Protocol) (result : WebSocketConn × Next Ret) : Prop := result.1.Within p

variable (h : c.Within p)
include h

theorem Within.doPackage (hle : c.buffer.data.length ≤ p.maxLength) : StepWithin p c.doPackage := by
  unfold WebSocketConn.doPackage
  split
  · exact ⟨h.offset, h.packages⟩
  · next outcome hpackage =>
    refine ⟨nofun, fun x hx => ?_⟩
    rcases List.mem_append.mp hx with hx | hx
    · exact h.packages x hx
    · exact le_trans (length_le_of_onPackage hpackage x hx) hle

theorem Within.learnLength {packageLength : ℕ} (hle : packageLength ≤ p.maxLength) :
    StepWithin p (c.learnLength packageLength) := by
  have hlearned : ({ c with
      buffer := { c.buffer.reserve packageLength with offset := packageLength }
      recvWait := true } : WebSocketConn).Within p :=
    ⟨fun _ => hle, h.packages⟩
  unfold WebSocketConn.learnLength
  simp only
  split
  · next hlen => exact hlearned.doPackage (le_trans (le_of_eq hlen) hle)
  · exact hlearned

theorem Within.gotLength (packageLength : ℤ) : StepWithin p (c.gotLength p packageLength) := by
  unfold WebSocketConn.gotLength
  split
  · exact h
  split
  · exact h
  split
  · exact h
  · next hmax => exact h.learnLength (Nat.le_of_not_lt hmax)

theorem Within.afterLength (call : LengthCall) : StepWithin p (c.afterLength p call) := by
  cases call with
  | ask stage => exact ⟨h.offset, h.packages⟩
  | value packageLength =>
    have hidle : ({ c with stage := .idle } : WebSocketConn).Within p := ⟨h.offset, h.packages⟩
    exact hidle.gotLength packageLength

theorem Within.received : StepWithin p (c.received p) := by
  unfold WebSocketConn.received
  split
  · next hwait =>
    split
    · next hlen => exact h.doPackage (hlen ▸ h.offset hwait)
    · exact h
  · exact h.afterLength _

theorem Within.recvField (a : RecvAnswer) : StepWithin p (c.recvField p a) := by
  unfold WebSocketConn.recvField
  split
  · exact ⟨h.offset, h.packages⟩
  · next bytes wire _ =>
    split
    · next hroom =>
      have hfield : ({ c with
          buffer := c.buffer.patch c.stage.start bytes c.stage.size hroom
          wire := wire } : WebSocketConn).Within p :=
        ⟨h.offset, h.packages⟩
      exact hfield.afterLength _
    · exact ⟨h.offset, h.packages⟩

theorem Within.recvIdle (a : RecvAnswer) : StepWithin p (c.recvIdle p a) := by
  unfold WebSocketConn.recvIdle
  split
  · unfold WebSocketConn.recvFailed
    split
    · exact h
    · exact h
    · exact h
    · exact ⟨h.offset, h.packages⟩
  · exact h
  · split
    · exact Within.received ⟨h.offset, h.packages⟩
    · exact ⟨h.offset, h.packages⟩

/-- **One read.** -/
theorem Within.readTurn (a : RecvAnswer) : (readTurn p c a).Within p := by
  refine (onRead p).turn_invariant ?_ fun c ret hc => ?_
  · simp only [onRead]
    split
    · unfold recvWebSocket
      split
      · exact h.recvIdle a
      · exact h.recvField a
    · exact h
  · cases ret with
    | ok => exact hc
    | err => exact ⟨hc.offset, hc.packages⟩

omit h

theorem within_init (fresh : ℕ → UInt8) (stream : Bytes) : (init fresh stream).Within p :=
  ⟨nofun, by simp [init]⟩

end Size

end WebSocketConn

end Swoole
