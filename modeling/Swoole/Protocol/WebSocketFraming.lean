import Swoole.Protocol.WebSocket

/-!
# WebSocket frames and segments

A peer sends frames, and the kernel delivers them in whatever pieces they arrive.  The
reader should hand over the frames of the stream, in order, and keep the connection open.

It does not always.  Two bytes are asked for at the start of a frame, and when only one of
them has come, two more are asked for the next time.  An extended payload length or a
masking key is read by a `recv` of its own: a part of it counts as the whole, and `EAGAIN`
closes the connection.  `WholeFields` is the condition on a read that excludes this: these
`recv` calls deliver what they ask for, except that nothing at all may come at the start of
a frame.  The payload may come in any pieces.

`Framed` says that all is well with a connection: it has handed over the frames that have
arrived completely and holds a part of the next one.  A frame that
`swPort_websocket_onPackage` answers with `SW_ERR` (such as a close frame) ends the
connection, as it should.
-/

open List

namespace Swoole

open StepRun SwString

namespace WebSocketFrame

/-- A frame as a whole: its header, and as many bytes as the header announces. -/
def Complete (data : Bytes) : Prop :=
  data.length = (decode data).headerLength + (decode data).payloadLength
  deriving Decidable

/-- `swPort_websocket_onPackage` returns `SW_ERR` for the frame. -/
def refused (data : Bytes) : Bool :=
  match onPackage data with
  | some outcome => outcome.ret = .err
  | none => false

theorem Complete.headerLength_le {data : Bytes} (h : Complete data) :
    (decode data).headerLength ≤ data.length := by
  unfold Complete at h
  omega

theorem Complete.length_pos {data : Bytes} (h : Complete data) : 0 < data.length := by
  have htwo := two_le_headerLength data
  have hle := h.headerLength_le
  omega

end WebSocketFrame

open WebSocketFrame (Complete refused decode)

namespace LengthCall

variable {buffer : SwString} {f : Bytes}

/-! ## The length function inside a frame -/

/-- The bytes in use are what the length function has read so far of the header of `f`. -/
def Reads (f : Bytes) (buffer : SwString) : LengthCall → Prop
  | .ask stage =>
    buffer.data <+: f ∧ buffer.data.length = stage.start ∧ 0 < stage.size ∧
      stage.start + stage.size ≤ (decode f).headerLength ∧ Sound buffer (.ask stage)
  | .value v =>
    buffer.data <+: f ∧ buffer.data.length = (decode f).headerLength ∧ v = f.length

theorem shortOf_eq (hpre : buffer.data <+: f) (htwo : 2 ≤ buffer.data.length) :
    buffer.byteAt 1 = f.getD 1 0 := by
  obtain ⟨rest, rfl⟩ := hpre
  rw [getD_append _ _ _ _ (by omega)]
  simp [byteAt, show 1 < buffer.data.length by omega]

theorem headerLength_eq (hpre : buffer.data <+: f) (htwo : 2 ≤ buffer.data.length) :
    (decode f).headerLength =
      webSocketHeaderLen + WebSocketFrame.extendedSize (shortOf buffer) +
        if buffer.byteAt 1 &&& 0x80 != 0 then webSocketMaskLen else 0 := by
  rw [shortOf, shortOf_eq hpre htwo]
  rfl

/-- Where the header has been read up to. -/
def reach (f : Bytes) : LengthCall → ℕ
  | .ask stage => stage.start
  | .value _ => (decode f).headerLength

variable {call : LengthCall}

theorem two_le_reach (hsound : Sound buffer call) : 2 ≤ reach f call := by
  cases call with
  | ask stage =>
    cases stage with
    | idle => exact hsound.elim
    | extended size => exact le_rfl
    | mask headerLength payloadLength =>
      obtain ⟨-, hstart, -⟩ := hsound
      rw [reach, WebSocketStage.start, hstart]
      exact Nat.le_add_right _ _
  | value v => exact WebSocketFrame.two_le_headerLength f

variable {stage : WebSocketStage}

theorem le_reach_resume (hsound : Sound buffer (.ask stage))
    (hle : stage.start + stage.size ≤ (decode f).headerLength) (stored : SwString) :
    stage.start + stage.size ≤ reach f (resume stored stage) := by
  cases stage with
  | idle => exact hsound.elim
  | extended size =>
    simp only [resume, maskOrLength]
    split
    · exact le_rfl
    · exact hle
  | mask headerLength payloadLength => exact hle

variable (hcomplete : Complete f) (hsmall : f.length < 2 ^ 31)
include hcomplete hsmall

theorem value_eq (hpre : buffer.data <+: f) {v : ℤ} (hsound : Sound buffer (.value v)) :
    v = f.length := by
  obtain ⟨hle, hv⟩ := hsound
  obtain ⟨rest, rfl⟩ := hpre
  have hdecode := WebSocketFrame.decode_append hle rest
  unfold Complete at hcomplete
  rw [hdecode] at hcomplete
  rw [hv, packageLength, Nat.mod_eq_of_lt (by omega), ← hcomplete, toInt32_natCast hsmall]

/-- The length function never stands in front of what it has read; if it does not stand
behind it either, it is in order. -/
theorem reads_of_sound (hpre : buffer.data <+: f) (htwo : 2 ≤ buffer.data.length)
    (hsound : Sound buffer call) (hreach : buffer.data.length ≤ reach f call) :
    Reads f buffer call := by
  have hheader := headerLength_eq hpre htwo
  cases call with
  | ask stage =>
    cases stage with
    | idle => exact hsound.elim
    | extended size =>
      obtain ⟨hle, hsize, hne⟩ := hsound
      refine ⟨hpre, Nat.le_antisymm hreach hle, Nat.pos_of_ne_zero hne, ?_, hle, hsize, hne⟩
      rw [hheader, ← hsize]
      exact Nat.le_add_right _ _
    | mask headerLength payloadLength =>
      obtain ⟨hle, hstart, hpayload, hmasked⟩ := hsound
      refine ⟨hpre, Nat.le_antisymm hreach hle, Nat.succ_pos _, ?_, hle, hstart, hpayload, hmasked⟩
      rw [hheader, if_pos hmasked, ← hstart]
      exact le_rfl
  | value v =>
    have hv := value_eq hcomplete hsmall hpre hsound
    obtain ⟨rest, hrest⟩ := hpre
    have hdecode := WebSocketFrame.decode_append hsound.1 rest
    rw [hrest] at hdecode
    exact ⟨⟨rest, hrest⟩, le_antisymm hreach (hdecode ▸ hsound.1), hv⟩

theorem reads_enter (hpre : buffer.data <+: f) (hlen : buffer.data.length = 2) :
    Reads f buffer (enter buffer) := by
  have hsound : Sound buffer (enter buffer) := sound_enter (by rw [hlen]; decide)
  exact reads_of_sound hcomplete hsmall hpre (by omega) hsound (hlen ▸ two_le_reach hsound)

theorem reads_resume (hreads : Reads f buffer (.ask stage))
    {bytes : Bytes} (hlen : bytes.length = stage.size) (hpre : buffer.data ++ bytes <+: f)
    (h : buffer.data.length + stage.size ≤ buffer.size) :
    Reads f (buffer.patch stage.start bytes stage.size h)
      (resume (buffer.patch stage.start bytes stage.size h) stage) := by
  obtain ⟨-, hstart, -, hle, hsound⟩ := hreads
  have htwo : 2 ≤ buffer.data.length := hstart ▸ two_le_reach (f := f) hsound
  have hdata := buffer.patch_data_of_eq h hstart hlen
  refine reads_of_sound hcomplete hsmall (hdata ▸ hpre) ?_ (sound_resume hsound bytes h) ?_
  · rw [length_patch]
    omega
  · rw [length_patch, hstart]
    exact le_reach_resume hsound hle _

end LengthCall

/-! ## The connection -/

namespace WebSocketConn

/-- The settings of a WebSocket port: `swPort_set_protocol` sets the size of the length
field, and its offset is zero. -/
def webSocketProtocol (maxLength : UInt32) : Protocol where
  splitByEof := false
  packageEof := []
  packageLengthType := .N
  packageLengthSize := 2
  packageLengthOffset := 0
  packageBodyOffset := 0
  packageMaxLength := maxLength

/-- **All is well with a connection**: the frames handed over are the first frames of the
stream; the connection is closed if one of them was refused, and otherwise it is open, and
what has been received behind them is a part of the next frame. -/
def Framed (fs : List Bytes) (c : WebSocketConn) : Prop :=
  c.frames <+: fs ∧
    if c.frames.any refused then c.status = .closed
    else c.status = .active ∧
      c.buffer.data ++ c.wire = (fs.drop c.frames.length).flatten ∧
      ∀ f ∈ (fs.drop c.frames.length).head?, c.buffer.data.length < f.length

instance (fs : List Bytes) (c : WebSocketConn) : Decidable (Framed fs c) :=
  inferInstanceAs (Decidable (_ ∧ _))

/-- **The condition on a read**: the bytes of a header that are asked for come all at once;
at the start of a frame there may be none. -/
def WholeFields (p : Protocol) (c : WebSocketConn) (a : RecvAnswer) : Prop :=
  if c.stage = .idle then
    match (recv (p.recvbufSize c.buffer) c.wire a).1 with
    | .data bytes => c.recvWait = false → bytes.length = webSocketHeaderLen
    | .error _ => True
  else
    match (recv c.stage.size c.wire a).1 with
    | .data bytes => bytes.length = c.stage.size
    | .error _ => False

instance (p : Protocol) (c : WebSocketConn) (a : RecvAnswer) : Decidable (WholeFields p c a) := by
  unfold WholeFields
  repeat' split
  all_goals infer_instance

/-! ### Inside a frame -/

section Frame

variable {maxLength : UInt32} {c : WebSocketConn} {f : Bytes} {tail : List Bytes} {a : RecvAnswer}

/-- The connection waits for the rest of the first frame of `rest`. -/
structure Serving (rest : List Bytes) (c : WebSocketConn) : Prop where
  active : c.status = .active
  stream : c.buffer.data ++ c.wire = rest.flatten
  size : bufferSize ≤ c.buffer.size
  stage : c.stage = .idle ∧ c.recvWait = false ∧ c.buffer.offset = 0 ∧ c.buffer.data = [] ∨
    (∃ f ∈ rest.head?, c.recvWait = false ∧ c.buffer.offset = 0 ∧
      LengthCall.Reads f c.buffer (.ask c.stage)) ∨
    ∃ f ∈ rest.head?, c.stage = .idle ∧ c.recvWait = true ∧ c.buffer.offset = f.length ∧
      f.length ≤ c.buffer.size ∧ c.buffer.data <+: f ∧ c.buffer.data.length < f.length

/-- What a read can lead to inside the frame `f`, with the frames `done` handed over. -/
inductive After (done : List Bytes) (f : Bytes) (tail : List Bytes) (c : WebSocketConn) : Prop
  | waits (frames : c.frames = done) (serving : Serving (f :: tail) c)
  | handed (frames : c.frames = done ++ [f]) (accepted : refused f = false)
      (serving : Serving tail c)
  | refused (frames : c.frames = done ++ [f]) (refused : refused f = true)
      (closed : c.status = .closed)

/-- The settled outcome of a step. -/
def settled : WebSocketConn × Next Ret → WebSocketConn
  | (c, .again) => c
  | (c, .ret v) => c.settle v

theorem readTurn_of_active (p : Protocol) (h : c.status = .active) (a : RecvAnswer) :
    readTurn p c a = settled (c.recvWebSocket p a) := by
  unfold readTurn Resumable.turn
  simp only [onRead, if_pos h]
  rcases c.recvWebSocket p a with ⟨c', _ | v⟩ <;> rfl

theorem readTurn_of_not_active (p : Protocol) (h : c.status ≠ .active) (a : RecvAnswer) :
    readTurn p c a = c := by
  simp [readTurn, Resumable.turn, onRead, h, settle]

theorem settled_recvFailed (e : Errno)
    (h : connectionError e = .wait ∨ connectionError e = .error) :
    settled (c.recvFailed e) = c := by
  rcases h with h | h <;> simp only [recvFailed, h] <;> rfl

theorem prefix_of_stream {data wire bytes wire' : Bytes}
    (hstream : data ++ wire = (f :: tail).flatten) (hsplit : bytes ++ wire' = wire)
    (hlen : (data ++ bytes).length ≤ f.length) :
    data ++ bytes <+: f ∧ data ++ bytes ++ wire' = (f :: tail).flatten := by
  have hstream' : data ++ bytes ++ wire' = (f :: tail).flatten := by
    rw [append_assoc, hsplit, hstream]
  refine ⟨?_, hstream'⟩
  exact prefix_of_prefix_length_le ⟨wire', hstream'⟩ (prefix_append f _) hlen

theorem serving_nil (h : Serving [] c) (hbenign : a.Benign) :
    readTurn (webSocketProtocol maxLength) c a = c := by
  rcases h.stage with ⟨hstage, -, hoffset, -⟩ | ⟨f, hf, -⟩ | ⟨f, hf, -⟩
  · have hwire : c.wire = [] := (append_eq_nil_iff.mp h.stream).2
    have hrequest : (webSocketProtocol maxLength).recvbufSize c.buffer = 2 :=
      Protocol.recvbufSize_of_offset_zero hoffset
    rw [readTurn_of_active _ h.active, recvWebSocket, if_pos hstage, recvIdle, hrequest]
    rcases @recv_benign 2 c.wire a (by omega) hbenign with
      ⟨bytes, wire, hrecv, hne⟩ | ⟨e, hrecv, htransient⟩
    · obtain ⟨hsplit, -, -⟩ := recv_data hrecv
      rw [hwire] at hsplit
      exact absurd (append_eq_nil_iff.mp hsplit).1 hne
    · rw [hrecv]
      exact settled_recvFailed e htransient
  all_goals cases hf

variable (hcomplete : Complete f) (hsmall : f.length < 2 ^ 31)
include hcomplete hsmall

theorem after_doPackage (hact : c.status = .active) (hstage : c.stage = .idle)
    (hsize : bufferSize ≤ c.buffer.size) (hdata : c.buffer.data = f)
    (hwire : c.wire = tail.flatten) : After c.frames f tail (settled c.doPackage) := by
  have hne := WebSocketFrame.onPackage_ne_none hcomplete hsmall
  obtain ⟨outcome, houtcome⟩ := Option.ne_none_iff_exists'.mp hne
  unfold doPackage
  rw [hdata, houtcome]
  simp only
  have hrefused : refused f = decide (outcome.ret = .err) := by
    simp only [WebSocketFrame.refused, houtcome]
  cases hret : outcome.ret with
  | ok =>
    refine .handed (by simp [settled, settle]) (by rw [hrefused, hret]; rfl) ⟨hact, ?_, hsize, ?_⟩
    · simp [settled, settle, hwire]
    · exact .inl ⟨hstage, rfl, rfl, rfl⟩
  | err =>
    exact .refused (by simp [settled, settle]) (by rw [hrefused, hret]; rfl) rfl

/-- **A read inside a payload.** -/
theorem after_payload (h : Serving (f :: tail) c) (hstage : c.stage = .idle)
    (hwait : c.recvWait = true) (hoffset : c.buffer.offset = f.length)
    (hroom : f.length ≤ c.buffer.size) (hlt : c.buffer.data.length < f.length)
    (hbenign : a.Benign) :
    After c.frames f tail (settled (c.recvIdle (webSocketProtocol maxLength) a)) := by
  have hrequest : (webSocketProtocol maxLength).recvbufSize c.buffer =
      f.length - c.buffer.data.length := by
    rw [Protocol.recvbufSize_of_lt (by omega) (by omega), hoffset]
  unfold recvIdle
  rw [hrequest]
  rcases @recv_benign (f.length - c.buffer.data.length) c.wire a (by omega) hbenign with
    ⟨bytes, wire, hrecv, hne⟩ | ⟨e, hrecv, htransient⟩
  · obtain ⟨b, bs, rfl⟩ := exists_cons_of_ne_nil hne
    obtain ⟨hsplit, hbytes, -⟩ := recv_data hrecv
    have hfits : c.buffer.data.length + (b :: bs).length ≤ c.buffer.size := by omega
    obtain ⟨hpre', hstream⟩ := prefix_of_stream h.stream hsplit
      (by rw [length_append]; omega)
    rw [hrecv]
    simp only [dif_pos hfits]
    unfold received
    rw [if_pos hwait]
    simp only [append_data, append_offset, hoffset]
    split
    · next hlen =>
      have hdata : c.buffer.data ++ b :: bs = f := hpre'.eq_of_length hlen
      have hwire : wire = tail.flatten := by
        rw [hdata, flatten_cons] at hstream
        exact append_cancel_left hstream
      exact @after_doPackage { c with buffer := c.buffer.append (b :: bs) hfits, wire := wire }
        f tail hcomplete hsmall h.active hstage h.size hdata hwire
    · next hlen =>
      refine .waits rfl ⟨h.active, hstream, h.size,
        .inr (.inr ⟨f, rfl, hstage, hwait, hoffset, hroom, hpre', ?_⟩)⟩
      exact lt_of_le_of_ne hpre'.length_le hlen
  · rw [hrecv]
    rw [settled_recvFailed e htransient]
    exact .waits rfl h

variable (hmax : f.length ≤ maxLength.toNat)
include hmax

theorem after_gotLength (hact : c.status = .active) (hstage : c.stage = .idle)
    (hsize : bufferSize ≤ c.buffer.size) (hpre : c.buffer.data <+: f)
    (hstream : c.buffer.data ++ c.wire = (f :: tail).flatten) :
    After c.frames f tail (settled (c.gotLength (webSocketProtocol maxLength) f.length)) := by
  have hpos := hcomplete.length_pos
  have hmax' : ¬ (webSocketProtocol maxLength).maxLength < ((f.length : ℤ)).toNat := by
    exact not_lt.mpr hmax
  unfold gotLength
  rw [if_neg (by omega), if_neg (by omega), if_neg hmax', Int.toNat_natCast]
  unfold learnLength
  simp only
  have hreserve := c.buffer.reserve_data f.length
  have hroom := c.buffer.reserve_size f.length
  split
  · next hlen =>
    rw [hreserve] at hlen
    have hdata : c.buffer.data = f := hpre.eq_of_length hlen
    have hwire : c.wire = tail.flatten := by
      rw [hdata, flatten_cons] at hstream
      exact append_cancel_left hstream
    exact @after_doPackage
      { c with
        buffer := { c.buffer.reserve f.length with offset := f.length }
        recvWait := true }
      f tail hcomplete hsmall hact hstage (by simp only; omega) (hreserve.trans hdata) hwire
  · next hlen =>
    rw [hreserve] at hlen
    have hlt : c.buffer.data.length < f.length := lt_of_le_of_ne hpre.length_le hlen
    refine .waits rfl ⟨hact, ?_, ?_, .inr (.inr ⟨f, rfl, hstage, rfl, rfl, ?_, ?_, ?_⟩)⟩
    · simp only [settled, hreserve]
      exact hstream
    · simp only [settled]
      omega
    · simp only [settled]
      omega
    · simp only [settled, hreserve]
      exact hpre
    · simp only [settled, hreserve]
      exact hlt

theorem after_afterLength (hact : c.status = .active) (hwait : c.recvWait = false)
    (hoffset : c.buffer.offset = 0) (hsize : bufferSize ≤ c.buffer.size)
    (hstream : c.buffer.data ++ c.wire = (f :: tail).flatten) {call : LengthCall}
    (hreads : LengthCall.Reads f c.buffer call) :
    After c.frames f tail (settled (c.afterLength (webSocketProtocol maxLength) call)) := by
  cases call with
  | ask stage =>
    exact .waits rfl ⟨hact, hstream, hsize, .inr (.inl ⟨f, rfl, hwait, hoffset, hreads⟩)⟩
  | value v =>
    obtain ⟨hpre, -, rfl⟩ := hreads
    exact @after_gotLength maxLength { c with stage := .idle } f tail hcomplete hsmall hmax
      hact rfl hsize hpre hstream

variable (h : Serving (f :: tail) c) (hwhole : WholeFields (webSocketProtocol maxLength) c a)
include h hwhole

/-- **A read at the start of a frame.** -/
theorem after_start (hstage : c.stage = .idle) (hwait : c.recvWait = false)
    (hoffset : c.buffer.offset = 0) (hdata : c.buffer.data = []) (hbenign : a.Benign) :
    After c.frames f tail (settled (c.recvIdle (webSocketProtocol maxLength) a)) := by
  have hrequest : (webSocketProtocol maxLength).recvbufSize c.buffer = 2 :=
    Protocol.recvbufSize_of_offset_zero hoffset
  unfold WholeFields at hwhole
  rw [if_pos hstage, hrequest] at hwhole
  unfold recvIdle
  rw [hrequest]
  rcases @recv_benign 2 c.wire a (by omega) hbenign with
    ⟨bytes, wire, hrecv, hne⟩ | ⟨e, hrecv, htransient⟩
  · obtain ⟨b, bs, rfl⟩ := exists_cons_of_ne_nil hne
    obtain ⟨hsplit, -, -⟩ := recv_data hrecv
    rw [hrecv] at hwhole ⊢
    have hlen : (b :: bs).length = 2 := hwhole hwait
    have htwo := WebSocketFrame.two_le_headerLength f
    have hle := hcomplete.headerLength_le
    have hbuffer : bufferSize = 8180 := rfl
    have hroom : c.buffer.data.length + (b :: bs).length ≤ c.buffer.size := by
      have hsize := h.size
      rw [hdata, hlen]
      simp only [length_nil]
      omega
    obtain ⟨hpre, hstream⟩ := prefix_of_stream h.stream hsplit
      (by rw [hdata, nil_append, hlen]; omega)
    simp only [dif_pos hroom]
    unfold received
    rw [if_neg (by simp [hwait])]
    exact @after_afterLength maxLength
      { c with buffer := c.buffer.append (b :: bs) hroom, wire := wire } f tail hcomplete
      hsmall hmax
      h.active hwait hoffset h.size hstream _
      (LengthCall.reads_enter hcomplete hsmall hpre
        (by rw [append_data, hdata, nil_append, hlen]))
  · rw [hrecv]
    rw [settled_recvFailed e htransient]
    exact .waits rfl h

/-- **A read inside a header.** -/
theorem after_field (hwait : c.recvWait = false) (hoffset : c.buffer.offset = 0)
    (hreads : LengthCall.Reads f c.buffer (.ask c.stage)) :
    After c.frames f tail (settled (c.recvField (webSocketProtocol maxLength) a)) := by
  obtain ⟨-, hstart, hpos, hle, hsound⟩ := id hreads
  have hidle : c.stage ≠ .idle := by
    intro heq
    rw [heq] at hsound
    exact hsound.elim
  unfold WholeFields at hwhole
  rw [if_neg hidle] at hwhole
  unfold recvField
  rcases hrecv : recv c.stage.size c.wire a with ⟨bytes | e, wire⟩
  · rw [hrecv] at hwhole
    have hlen : bytes.length = c.stage.size := hwhole
    obtain ⟨hsplit, -, -⟩ := recv_data hrecv
    have hheader := hcomplete.headerLength_le
    have hroom : c.buffer.data.length + c.stage.size ≤ c.buffer.size := by
      have hsize := h.size
      have hbuffer : bufferSize = 8180 := rfl
      have hshort := WebSocketFrame.headerLength_le f
      omega
    obtain ⟨hpre, hstream⟩ := prefix_of_stream h.stream hsplit
      (by rw [length_append, hlen]; omega)
    have hdata := c.buffer.patch_data_of_eq hroom hstart hlen
    simp only [dif_pos hroom]
    exact @after_afterLength maxLength
      { c with
        buffer := c.buffer.patch c.stage.start bytes c.stage.size hroom
        wire := wire }
      f tail hcomplete hsmall hmax h.active hwait hoffset h.size
      (by simp only [hdata]; exact hstream) _
      (LengthCall.reads_resume hcomplete hsmall hreads hlen hpre hroom)
  · rw [hrecv] at hwhole
    exact hwhole.elim

/-- **A read with a frame under way.** -/
theorem after_readTurn (hbenign : a.Benign) :
    After c.frames f tail (readTurn (webSocketProtocol maxLength) c a) := by
  rw [readTurn_of_active _ h.active]
  unfold recvWebSocket
  rcases h.stage with ⟨hstage, hwait, hoffset, hdata⟩ | ⟨f', hf, hwait, hoffset, hreads⟩ |
    ⟨f', hf, hstage, hwait, hoffset, hroom, -, hlt⟩
  · rw [if_pos hstage]
    exact after_start hcomplete hsmall hmax h hwhole hstage hwait hoffset hdata hbenign
  · obtain rfl : f = f' := Option.some.inj hf
    have hidle : c.stage ≠ .idle := by
      intro heq
      rw [heq] at hreads
      exact hreads.2.2.2.2.elim
    rw [if_neg hidle]
    exact after_field hcomplete hsmall hmax h hwhole hwait hoffset hreads
  · obtain rfl : f = f' := Option.some.inj hf
    rw [if_pos hstage]
    exact after_payload hcomplete hsmall h hstage hwait hoffset hroom hlt hbenign

end Frame

/-! ### Whole streams -/

section Stream

variable {maxLength : UInt32} {fs : List Bytes} {c : WebSocketConn}

/-- Some frames were handed over and accepted, and the next one is under way; or the last
one handed over was refused. -/
def Served (fs : List Bytes) (c : WebSocketConn) : Prop :=
  ∃ rest, fs = c.frames ++ rest ∧
    ((c.frames.any refused = false ∧ Serving rest c) ∨
      (c.frames.any refused = true ∧ c.status = .closed))

/-- **One read.** -/
theorem Served.readTurn (h : Served fs c) (hcomplete : ∀ f ∈ fs, Complete f)
    (hsmall : ∀ f ∈ fs, f.length < 2 ^ 31) (hmax : ∀ f ∈ fs, f.length ≤ maxLength.toNat)
    {a : RecvAnswer} (hbenign : a.Benign) (hwhole : WholeFields (webSocketProtocol maxLength) c a) :
    Served fs (readTurn (webSocketProtocol maxLength) c a) := by
  obtain ⟨rest, hfs, ⟨haccepted, hserving⟩ | ⟨hrefused, hclosed⟩⟩ := h
  · cases rest with
    | nil =>
      rw [serving_nil hserving hbenign]
      exact ⟨[], hfs, .inl ⟨haccepted, hserving⟩⟩
    | cons f tail =>
      have hmem : f ∈ fs := by simp [hfs]
      cases after_readTurn (hcomplete f hmem) (hsmall f hmem) (hmax f hmem) hserving hwhole
        hbenign with
      | waits hframes hserving' =>
        exact ⟨f :: tail, by rw [hframes, hfs], .inl ⟨by rw [hframes, haccepted], hserving'⟩⟩
      | handed hframes haccept hserving' =>
        refine ⟨tail, by simp [hframes, hfs], .inl ⟨?_, hserving'⟩⟩
        rw [hframes, any_append, haccepted]
        simp [haccept]
      | refused hframes hrefuse hclosed =>
        refine ⟨tail, by simp [hframes, hfs], .inr ⟨?_, hclosed⟩⟩
        rw [hframes, any_append]
        simp [hrefuse]
  · rw [readTurn_of_not_active _ (by rw [hclosed]; decide)]
    exact ⟨rest, hfs, .inr ⟨hrefused, hclosed⟩⟩

theorem served_init (fresh : ℕ → UInt8) (fs : List Bytes) : Served fs (init fresh fs.flatten) :=
  ⟨fs, rfl, .inl ⟨rfl, rfl, rfl, le_rfl, .inl ⟨rfl, rfl, rfl, rfl⟩⟩⟩

theorem Serving.length_lt {rest : List Bytes} (h : Serving rest c)
    (hcomplete : ∀ f ∈ rest, Complete f) : ∀ f ∈ rest.head?, c.buffer.data.length < f.length := by
  intro f hf
  have hmem : f ∈ rest := mem_of_mem_head? hf
  rcases h.stage with ⟨-, -, -, hdata⟩ | ⟨f', hf', -, -, -, hstart, hpos, hle, -⟩ |
    ⟨f', hf', -, -, -, -, -, hlt⟩
  · rw [hdata]
    exact (hcomplete f hmem).length_pos
  · obtain rfl : f = f' := Option.some.inj (hf.symm.trans hf')
    have hheader := (hcomplete f hmem).headerLength_le
    omega
  · obtain rfl : f = f' := Option.some.inj (hf.symm.trans hf')
    exact hlt

theorem Served.framed (h : Served fs c) (hcomplete : ∀ f ∈ fs, Complete f) : Framed fs c := by
  obtain ⟨rest, hfs, hstate⟩ := h
  have hdrop : fs.drop c.frames.length = rest := by rw [hfs, drop_left]
  refine ⟨⟨rest, hfs.symm⟩, ?_⟩
  rw [hdrop]
  rcases hstate with ⟨haccepted, hserving⟩ | ⟨hrefused, hclosed⟩
  · rw [if_neg (by simp [haccepted])]
    refine ⟨hserving.active, hserving.stream, hserving.length_lt fun f hf => ?_⟩
    exact hcomplete f (by rw [hfs]; exact mem_append_right _ hf)
  · rw [if_pos hrefused]
    exact hclosed

/-- When all of the stream has been received, all of its frames have been handed over. -/
theorem Framed.frames_eq (h : Framed fs c) (hwire : c.wire = [])
    (haccepted : c.frames.any refused = false) : c.frames = fs := by
  obtain ⟨hpre, hstate⟩ := h
  rw [if_neg (by simp [haccepted]), hwire, append_nil] at hstate
  obtain ⟨-, hdata, hlt⟩ := hstate
  obtain ⟨rest, rfl⟩ := hpre
  rw [drop_left] at hdata hlt
  cases rest with
  | nil => rw [append_nil]
  | cons f tail =>
    have hlen := hlt f rfl
    rw [hdata, flatten_cons, length_append] at hlen
    omega

/-- **The frames of a stream are handed over, in order**, as long as the fields of their
headers come whole. -/
theorem framed_run (fresh : ℕ → UInt8) (hcomplete : ∀ f ∈ fs, Complete f)
    (hmax : ∀ f ∈ fs, f.length ≤ maxLength.toNat) (hsmall : ∀ f ∈ fs, f.length < 2 ^ 31)
    {answers : List RecvAnswer} (hbenign : ∀ a ∈ answers, a.Benign)
    (hwhole : EachStep (readTurn (webSocketProtocol maxLength))
      (WholeFields (webSocketProtocol maxLength)) (init fresh fs.flatten) answers) :
    let c := run (readTurn (webSocketProtocol maxLength)) (init fresh fs.flatten) answers
    Framed fs c ∧ (c.wire = [] → c.frames.any refused = false → c.frames = fs) := by
  have hserved : Served fs
      (run (readTurn (webSocketProtocol maxLength)) (init fresh fs.flatten) answers) :=
    ((eachStep_of_forall hbenign _).and hwhole).run_invariant
      (fun _ _ h hstep => h.readTurn hcomplete hsmall hmax hstep.1 hstep.2) (served_init fresh fs)
  exact ⟨hserved.framed hcomplete, fun hwire haccepted =>
    (hserved.framed hcomplete).frames_eq hwire haccepted⟩

end Stream

/-- A text frame and a binary frame, both masked, the second with an extended length. -/
def twoFrames : List Bytes :=
  [[0x81, 0x81, 1, 2, 3, 4, 73], [0x82, 0xfe, 0, 2, 1, 2, 3, 4, 5, 6]]

/-- The payload in pieces, and `EAGAIN` between two frames and inside a payload. -/
theorem framed_two_frames :
    Framed twoFrames (run (readTurn (webSocketProtocol 1024)) (init (fun _ => 0) twoFrames.flatten)
      [.deliver 1, .deliver 3, .deliver 0, .fail .eagain, .deliver 1, .deliver 1, .deliver 3,
        .deliver 0, .fail .eagain, .deliver 0]) :=
  (framed_run (fun _ => 0) (by decide) (by decide) (by decide) (by decide) (by decide +kernel)).1

/-- **`EAGAIN` in front of a masking key.**  The first two bytes of a frame have come, and the
rest of it is on its way; the connection is closed. -/
theorem not_framed_eagain_mask :
    (∀ f ∈ twoFrames, Complete f ∧ f.length ≤ 1024) ∧
      ¬ Framed twoFrames (run (readTurn (webSocketProtocol 1024))
        (init (fun _ => 0) twoFrames.flatten) [.deliver 1, .fail .eagain]) := by
  decide +kernel

end WebSocketConn

end Swoole
