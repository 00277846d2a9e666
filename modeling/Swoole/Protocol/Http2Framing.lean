import Mathlib.Data.List.GetD
import Swoole.Protocol.Http2
import Swoole.Protocol.LengthReader

/-!
# HTTP/2 frames and segments

Behind the preface a peer sends frames, and the reader should hand over the frames of the stream,
however it is cut.

Two things get lost.  Everything that comes with the preface goes to `swHttp2_parse_frame`, which
has no memory: a part of a frame at the end is dropped, and a preface that comes in pieces is not
taken off as a whole.  The length reader asks for a whole header each time, so a header in pieces
may bring bytes of the next frame along.  `WholeReads` is the condition on a read that excludes
both: the first bytes are the preface and whole frames, and a header that comes in pieces brings
nothing but its own frame.
-/

namespace Swoole

open StepRun List

namespace Http2

/-! ## Frames -/

/-- A frame as a whole: its header, and as many bytes as the header announces. -/
def Complete (f : Bytes) : Prop :=
  frameHeaderSize ≤ f.length ∧ f.length = getLength f + frameHeaderSize
  deriving Decidable

variable {data : Bytes}

theorem getLength_append (rest : Bytes) (h : frameHeaderSize ≤ data.length) :
    getLength (data ++ rest) = getLength data := by
  unfold frameHeaderSize at h
  unfold getLength
  rw [getD_append _ _ _ _ (by omega), getD_append _ _ _ _ (by omega),
    getD_append _ _ _ _ (by omega)]

theorem getLength_lt (data : Bytes) : getLength data < 2 ^ 24 := by
  have h0 := (data.getD 0 0).toNat_lt
  have h1 := (data.getD 1 0).toNat_lt
  have h2 := (data.getD 2 0).toNat_lt
  unfold getLength
  omega

/-- The length of the frame at the head of a stream, once it is complete. -/
def nextFrame (data : Bytes) : Option ℕ :=
  if frameHeaderSize ≤ data.length ∧ getLength data + frameHeaderSize ≤ data.length then
    some (getLength data + frameHeaderSize)
  else none

variable {n : ℕ}

theorem nextFrame_eq_some : nextFrame data = some n ↔ (frameHeaderSize ≤ data.length ∧
      getLength data + frameHeaderSize ≤ data.length) ∧ getLength data + frameHeaderSize = n := by
  unfold nextFrame
  split_ifs with h
  · rw [Option.some_inj, and_iff_right h]
  · exact ⟨fun hn => (nomatch hn), fun hn => absurd hn.1 h⟩

theorem nextFrame_eq_none (h : data.length < getLength data + frameHeaderSize) :
    nextFrame data = none :=
  if_neg fun hcomplete => Nat.not_le_of_lt h hcomplete.2

/-- **HTTP/2 framing.** -/
def framing : Framing UInt8 where
  next := nextFrame
  pos {data n} h := by
    obtain ⟨-, rfl⟩ := nextFrame_eq_some.mp h
    exact Nat.succ_pos _
  le_length {data n} h := by
    obtain ⟨⟨-, hle⟩, rfl⟩ := nextFrame_eq_some.mp h
    exact hle
  stable {data n} rest h := by
    obtain ⟨⟨hheader, hle⟩, rfl⟩ := nextFrame_eq_some.mp h
    rw [nextFrame_eq_some, getLength_append rest hheader, List.length_append]
    exact ⟨⟨Nat.le_add_right_of_le hheader, Nat.le_add_right_of_le hle⟩, rfl⟩

theorem Complete.next_eq {f : Bytes} (h : Complete f) : framing.next f = some f.length :=
  nextFrame_eq_some.mpr ⟨⟨h.1, h.2.ge⟩, h.2.symm⟩

/-- `swHttp2_parse_frame` hands over the frames that have arrived completely. -/
theorem parseFrame_eq {fuel : ℕ} (h : data.length ≤ fuel) :
    parseFrame fuel data = (framing.frames data).1 := by
  induction fuel generalizing data with
  | zero =>
    obtain rfl := length_eq_zero_iff.mp (Nat.le_zero.mp h)
    rw [framing.frames_of_none framing.next_nil]
    rfl
  | succ fuel ih =>
    unfold parseFrame
    by_cases hheader : data.length < frameHeaderSize
    · rw [if_pos hheader, framing.frames_of_none (if_neg fun hc => Nat.not_le_of_lt hheader hc.1)]
    · rw [if_neg hheader]
      by_cases hle : getLength data + frameHeaderSize ≤ data.length
      · have hnext : framing.next data = some (getLength data + frameHeaderSize) :=
          if_pos ⟨not_lt.mp hheader, hle⟩
        have hlt := framing.length_drop_lt hnext
        rw [if_pos hle, framing.frames_of_some hnext, ih (by omega)]
      · rw [if_neg hle, framing.frames_of_none (if_neg fun hc => hle hc.2)]

/-! ## The length reader -/

section Reader

open Protocol

/-- The length reader of an HTTP/2 port. -/
abbrev reader (maxLength : UInt32) (onPackage : Bytes → Ret) : ReadConn → RecvAnswer → ReadConn :=
  Protocol.readTurn Http2Conn.frameLength onPackage (protocol maxLength)

/-- The bytes buffered once a `recv` in the header mode has stored its bytes: if they hold a
complete header, all of them belong to its frame, and `package_max_length` admits the frame. -/
def HeaderCovers (maxLength : UInt32) (data : Bytes) : Prop :=
  frameHeaderSize ≤ data.length →
    data.length ≤ getLength data + frameHeaderSize ∧
      getLength data + frameHeaderSize ≤ maxLength.toNat
  deriving Decidable

/-- The condition on a step: `HeaderCovers`, if it is a `recv` in the header mode that stores
bytes. -/
def StepCovers (maxLength : UInt32) (c : ReadConn) (a : RecvAnswer) : Prop :=
  match c.recvWait, recv ((protocol maxLength).recvbufSize c.buffer) c.wire a with
  | false, (.data bytes, _) => HeaderCovers maxLength (c.buffer.data ++ bytes)
  | _, _ => True

instance (maxLength : UInt32) (c : ReadConn) (a : RecvAnswer) :
    Decidable (StepCovers maxLength c a) := by
  unfold StepCovers
  split <;> infer_instance

variable {maxLength : UInt32} {onPackage : Bytes → Ret} {stream : Bytes} {c : ReadConn}

variable {wire : Bytes}

theorem announces (hheader : frameHeaderSize ≤ data.length) :
    Announces framing data (getLength data + frameHeaderSize) := by
  intro rest
  have hlen := getLength_append rest hheader
  have hheader' : frameHeaderSize ≤ (data ++ rest).length := by
    rw [length_append]
    omega
  refine ⟨fun hlt => nextFrame_eq_none (by omega), fun heq => ?_⟩
  exact nextFrame_eq_some.mpr ⟨⟨hheader', by omega⟩, by omega⟩

/-- Bytes stored in the header mode that the announced frame covers keep the connection in step. -/
theorem received_header (h : Pending framing stream c) (haccept : ∀ b, onPackage b = .ok)
    (hwait : c.recvWait = false) (hoffset : c.buffer.offset = 0)
    (hcovers : HeaderCovers maxLength c.buffer.data) :
    Synced framing (protocol maxLength) stream (ReadConn.settled
      (received Http2Conn.frameLength onPackage (protocol maxLength) c)) := by
  by_cases hshort : c.buffer.data.length < frameHeaderSize
  · -- the header is not complete: nothing is known yet
    refine h.received_short hwait hoffset hshort (if_neg fun hc => ?_) ?_
    · exact Nat.not_le_of_lt hshort hc.1
    · rw [Http2Conn.frameLength, getFrameLength, if_pos hshort]
  · have hheader := not_lt.mp hshort
    obtain ⟨hle, hmax⟩ := hcovers hheader
    refine h.received_header (Nat.succ_pos _) haccept hwait hheader ?_ (announces hheader) hle hmax
    rw [Http2Conn.frameLength, getFrameLength, if_neg hshort]

variable {a : RecvAnswer}

/-- **One step of the length reader.**  An answer that keeps to the condition keeps the connection
in step with the frames. -/
theorem synced_reader (h : Synced framing (protocol maxLength) stream c)
    (haccept : ∀ b, onPackage b = .ok) (ha : a.Benign) (hstep : StepCovers maxLength c a) :
    Synced framing (protocol maxLength) stream (reader maxLength onPackage c a) := by
  refine h.readTurn (by exact Nat.succ_pos _) haccept ha fun hwait bytes wire hwire hrecv => ?_
  obtain ⟨hoffset, hlt⟩ := h.header hwait
  have hroom : c.buffer.data.length + bytes.length ≤ c.buffer.size := by
    obtain ⟨-, hle, -⟩ := recv_data hrecv
    have hsize := h.size.1
    have hnine : (protocol maxLength).headerSize = 9 := rfl
    rw [recvbufSize_of_offset_zero hoffset] at hle
    unfold bufferSize ipcMaxSize dataHeadSize at hsize
    omega
  unfold StepCovers at hstep
  rw [hwait, hrecv] at hstep
  exact ⟨hroom, received_header (h.stored hwire hroom) haccept hwait hoffset hstep⟩

end Reader

end Http2

namespace Http2Conn

open Http2

/-! ## The preface -/

section Preface

variable {fresh : ℕ → ℕ → UInt8} {maxLength : UInt32} {stream : Bytes} {c : Http2Conn}

/-- The connection still waits for the preface; `stream` is what follows it. -/
structure Awaiting (fresh : ℕ → ℕ → UInt8) (stream : Bytes) (c : Http2Conn) : Prop where
  active : c.http.status = .active
  unread : c.http.wire = preface ++ stream
  packages : c.http.packages = []
  current : c.http.current fresh = .new (fresh 0)
  pri : c.pri = false
  http2Stream : c.http2Stream = false
  recvWait : c.recvWait = false
  buffer : c.buffer.data = [] ∧ c.buffer.offset = 0
  size : bufferSize ≤ c.buffer.size ∧ c.buffer.size < 2 ^ 32

theorem awaiting_init (block : ℕ → UInt8) (fresh : ℕ → ℕ → UInt8) (stream : Bytes) :
    Awaiting fresh stream (.init block (preface ++ stream)) where
  active := rfl
  unread := rfl
  packages := rfl
  current := rfl
  pri := rfl
  http2Stream := rfl
  recvWait := rfl
  buffer := ⟨rfl, rfl⟩
  size := ⟨le_rfl, by show bufferSize < 2 ^ 32; decide⟩

variable {rest : Bytes} {s : SwString}

theorem cells_of_preface (hdata : s.data = preface ++ rest)
    (hn : n ≤ preface.length) : s.cells 0 n = preface.take n := by
  have hle : 0 + n ≤ s.data.length := by
    rw [hdata, length_append]
    omega
  rw [s.cells_of_le hle, hdata, drop_zero, take_append_of_le_length hn]

theorem readMethod_preface (hdata : s.data = preface ++ rest) :
    HttpRequest.readMethod s = none := by
  have hmethods : ∀ m ∈ HttpRequest.methods,
      m.text.length ≤ preface.length ∧ preface.take m.text.length ≠ m.text := by
    decide
  refine find?_eq_none.mpr fun m hm => ?_
  obtain ⟨hlen, hne⟩ := hmethods m hm
  rw [cells_of_preface hdata hlen, decide_eq_true_iff]
  exact hne

variable {bytes : Bytes}

/-- A whole preface at the start of a new request hands the connection over. -/
theorem received_preface {r : HttpRequest} (hpri : c.pri = false)
    (hmethod : r.method = none) (hdata : r.buffer.data = preface ++ rest) :
    c.received maxLength r bytes = c.handOver bytes := by
  have hshort : r.buffer.cells 0 3 = preface.take 3 := cells_of_preface hdata (by decide)
  have hwhole : r.buffer.cells 0 preface.length = preface := by
    rw [cells_of_preface hdata (le_rfl), take_length]
  unfold received
  rw [if_neg (Bool.eq_false_iff.mp hpri), if_pos ⟨hmethod, readMethod_preface hdata, hshort⟩,
    if_pos hwhole]

/-- With the preface come the frames that are complete; nothing else of the rest is kept. -/
theorem handOver_preface (c : Http2Conn) (rest : Bytes) :
    c.handOver (preface ++ rest) =
      ({ c with
          http := { c.http with
            request := none
            packages := c.http.packages ++ (framing.frames rest).1 }
          pri := false
          http2Stream := true }, .ret .ok) := by
  have hlen : ¬ (preface ++ rest).length < preface.length := by
    rw [length_append]
    omega
  unfold handOver
  simp only [if_neg hlen, drop_left, parseFrame_eq (le_rfl)]

/-- The next `recv` asks for a whole block. -/
theorem Awaiting.bufLen_eq (h : Awaiting fresh stream c) :
    (c.http.current fresh).bufLen = httpHeaderMaxSize := by
  rw [h.current]
  exact HttpRequest.bufLen_of_lt (by show httpHeaderMaxSize < 0 + 2 ^ 31; decide)

/-- Bytes that fit are stored, and `received` decides what to do with them. -/
theorem recvHttp_of_data
    (hrecv : recv (c.http.current fresh).bufLen c.http.wire a = (.data bytes, wire))
    (hne : bytes ≠ []) (hroom : (c.http.current fresh).buffer.data.length + bytes.length ≤
      (c.http.current fresh).buffer.size) : c.recvHttp fresh maxLength a =
      { c with http := { c.http with wire := wire } }.received maxLength
        ((c.http.current fresh).stored bytes hroom) bytes := by
  obtain ⟨b, bs, rfl⟩ := exists_cons_of_ne_nil hne
  simp only [recvHttp, hrecv, dif_pos hroom]

/-- The preface with whole frames behind it is taken off as it should be. -/
theorem Awaiting.recvHttp_data (h : Awaiting fresh stream c) {gs : List Bytes}
    (hgs : ∀ g ∈ gs, Complete g) (hrecv : recv (c.http.current fresh).bufLen c.http.wire a =
      (.data (preface ++ gs.flatten), wire)) : (c.recvHttp fresh maxLength a).1.http2Stream = true ∧
      Protocol.Synced framing (protocol maxLength) stream
        (c.recvHttp fresh maxLength a).1.reading := by
  obtain ⟨hwire, hle, -⟩ := recv_data hrecv
  rw [h.bufLen_eq] at hle
  have hframes : framing.frames gs.flatten = (gs, []) :=
    framing.frames_flatten_of_next fun g hg => (hgs g hg).next_eq
  have hstream : gs.flatten ++ wire = stream := by
    rw [h.unread, append_assoc] at hwire
    exact append_cancel_left hwire
  have hroom : (c.http.current fresh).buffer.data.length + (preface ++ gs.flatten).length ≤
      (c.http.current fresh).buffer.size := by
    rw [h.current]
    exact (zero_add _).le.trans hle
  have hdata : ((c.http.current fresh).stored _ hroom).buffer.data = preface ++ gs.flatten := by
    show (c.http.current fresh).buffer.data ++ (preface ++ gs.flatten) = _
    rw [h.current]
    rfl
  have hmethod : ((c.http.current fresh).stored _ hroom).method = none := by
    show (c.http.current fresh).method = none
    rw [h.current]
    rfl
  rw [recvHttp_of_data hrecv (by simp [preface, ascii]) hroom,
    received_preface (c := { c with http := { c.http with wire := wire } }) h.pri hmethod hdata,
    handOver_preface, hframes]
  refine ⟨rfl, ?_⟩
  have harrived : ∀ d : ReadConn, d.wire = wire → d.arrived stream = gs.flatten := fun d hd =>
    ReadConn.arrived_eq (hd ▸ hstream)
  refine ⟨h.active, ?_, ?_, fun _ => ⟨h.buffer.2, ?_⟩,
    fun hwait => absurd (h.recvWait.symm.trans hwait) Bool.false_ne_true, h.size⟩
  · rw [harrived _ rfl]
    exact hstream
  · rw [harrived _ rfl, hframes]
    show (gs, []) = (c.http.packages ++ gs, c.buffer.data)
    rw [h.packages, h.buffer.1]
    rfl
  · show c.buffer.data.length < frameHeaderSize
    rw [h.buffer.1]
    exact Nat.succ_pos _

/-- A transient error leaves the connection waiting, with a request set up. -/
theorem Awaiting.recvHttp_error (h : Awaiting fresh stream c) {e : Errno}
    (hrecv : recv (c.http.current fresh).bufLen c.http.wire a = (.error e, wire))
    (htransient : connectionError e = .wait ∨ connectionError e = .error) :
    Awaiting fresh stream (c.recvHttp fresh maxLength a).1 := by
  have heq : (c.recvHttp fresh maxLength a).1 =
      { c with http := { c.http with request := some (c.http.current fresh) } } := by
    simp only [recvHttp, hrecv, lift, HttpConn.recvFailed]
    rcases htransient with haction | haction <;> rw [haction]
  rw [heq]
  exact ⟨h.active, h.unread, h.packages, h.current, h.pri, h.http2Stream, h.recvWait, h.buffer,
    h.size⟩

end Preface

/-! ## Whole streams -/

section Stream

variable {fresh : ℕ → ℕ → UInt8} {maxLength : UInt32} {onPackage : Bytes → Ret} {stream : Bytes}
variable {c : Http2Conn}

/-- The condition on a step.  The bytes that come first are the preface and whole frames; later a
header that comes in pieces brings nothing but its own frame, which `package_max_length` admits. -/
def WholeReads (fresh : ℕ → ℕ → UInt8) (maxLength : UInt32) (c : Http2Conn) (a : RecvAnswer) :
    Prop :=
  if c.http2Stream then StepCovers maxLength c.reading a
  else
    match recv (c.http.current fresh).bufLen c.http.wire a with
    | (.data bytes, _) => ∃ gs : List Bytes, (∀ g ∈ gs, Complete g) ∧ bytes = preface ++ gs.flatten
    | (.error _, _) => True

theorem wholeReads_of_stream (h : c.http2Stream = true) :
    WholeReads fresh maxLength c a ↔ StepCovers maxLength c.reading a := by
  unfold WholeReads
  rw [if_pos h]

/-- The connection waits for the preface, or is in step with the frames behind it. -/
def InStep (fresh : ℕ → ℕ → UInt8) (maxLength : UInt32) (stream : Bytes) (c : Http2Conn) : Prop :=
  Awaiting fresh stream c ∨
    c.http2Stream = true ∧ Protocol.Synced framing (protocol maxLength) stream c.reading

theorem Awaiting.readTurn (h : Awaiting fresh stream c) (ha : a.Benign)
    (hwhole : WholeReads fresh maxLength c a) :
    InStep fresh maxLength stream (c.readTurn fresh maxLength onPackage a) := by
  have hnot : ¬ c.http2Stream = true := Bool.eq_false_iff.mp h.http2Stream
  have hpos : 0 < (c.http.current fresh).bufLen := by
    rw [h.bufLen_eq]
    decide
  unfold Http2Conn.readTurn
  rw [if_neg hnot, if_pos h.active]
  rcases recv_benign hpos ha with ⟨bytes, wire, hrecv, -⟩ | ⟨e, hrecv, htransient⟩
  · unfold WholeReads at hwhole
    rw [if_neg hnot, hrecv] at hwhole
    obtain ⟨gs, hgs, rfl⟩ := hwhole
    exact .inr (h.recvHttp_data hgs hrecv)
  · exact .inl (h.recvHttp_error hrecv htransient)

/-- **One step.** -/
theorem InStep.readTurn (h : InStep fresh maxLength stream c) (haccept : ∀ b, onPackage b = .ok)
    (ha : a.Benign) (hwhole : WholeReads fresh maxLength c a) :
    InStep fresh maxLength stream (c.readTurn fresh maxLength onPackage a) := by
  rcases h with hawaiting | ⟨hstream, hsynced⟩
  · exact hawaiting.readTurn ha hwhole
  · unfold Http2Conn.readTurn
    rw [if_pos hstream]
    exact .inr ⟨hstream,
      synced_reader hsynced haccept ha ((wholeReads_of_stream hstream).mp hwhole)⟩

/-- In step, the frames handed over are those of what has arrived behind the preface. -/
theorem InStep.packages_eq (h : InStep fresh maxLength stream c) :
    c.http.status = .active ∧
      c.http.packages = (framing.frames (c.reading.arrived stream)).1 := by
  rcases h with h | ⟨-, h⟩
  · refine ⟨h.active, ?_⟩
    have hwire : stream.length - (preface ++ stream).length = 0 := by
      rw [length_append]
      omega
    have harrived : c.reading.arrived stream = [] := by
      show stream.take (stream.length - c.http.wire.length) = []
      rw [h.unread, hwire, take_zero]
    rw [h.packages, harrived, framing.frames_of_none framing.next_nil]
  · exact ⟨h.active, (congrArg Prod.fst h.framed).symm⟩

/-- **Frames do not depend on segmentation, as long as every read is whole.**  Take the preface
and any complete frames behind it, and any benign answers of the kernel, that is, any way to cut
the stream into pieces.  If the bytes that come first are the preface and whole frames, and no
later header that comes in pieces brings bytes of another frame along, then the connection stays
served, the frames handed over are at any time those that have arrived, and in the end they are
all frames of the stream. -/
theorem frames_delivered_run (fresh : ℕ → ℕ → UInt8) (block : ℕ → UInt8) (maxLength : UInt32)
    (onPackage : Bytes → Ret) (fs : List Bytes) (answers : List RecvAnswer)
    (haccept : ∀ package, onPackage package = .ok) (hcomplete : ∀ f ∈ fs, Complete f)
    (hbenign : ∀ a ∈ answers, a.Benign)
    (hwhole : EachStep (readTurn fresh maxLength onPackage) (WholeReads fresh maxLength)
      (.init block (preface ++ fs.flatten)) answers) :
    let c := run (readTurn fresh maxLength onPackage) (.init block (preface ++ fs.flatten)) answers
    c.http.status = .active ∧
      c.http.packages = (framing.frames (c.reading.arrived fs.flatten)).1 ∧
        (c.http.wire = [] → c.http.packages = fs) := by
  intro c
  have hinStep : InStep fresh maxLength fs.flatten c :=
    (hwhole.and (eachStep_of_forall hbenign _)).run_invariant
      (fun _ _ h hstep => h.readTurn haccept hstep.2 hstep.1)
      (.inl (awaiting_init block fresh fs.flatten))
  obtain ⟨hact, hpackages⟩ := hinStep.packages_eq
  refine ⟨hact, hpackages, fun hwire => ?_⟩
  have harrived : c.reading.arrived fs.flatten = fs.flatten := by
    refine ReadConn.arrived_eq ?_
    show fs.flatten ++ c.http.wire = fs.flatten
    rw [hwire, append_nil]
  rw [hpackages, harrived, framing.frames_flatten_of_next fun f hf => (hcomplete f hf).next_eq]

/-- An empty SETTINGS frame. -/
def settingsFrame : Bytes := [0, 0, 0, 4, 0, 0, 0, 0, 0]

/-- The preface comes with one frame, the header of the next one in two pieces. -/
theorem frames_delivered_settings :
    let step := readTurn (fun _ _ => 0) 2097152 fun _ => .ok
    let c := run step (.init (fun _ => 0) (preface ++ [settingsFrame, settingsFrame].flatten))
      [.deliver 32, .deliver 3, .fail .eagain, .deliver 100]
    c.http.wire = [] ∧ c.http.packages = [settingsFrame, settingsFrame] := by
  intro step c
  have hwire : c.http.wire = [] := by decide +kernel
  have hdelivered := frames_delivered_run (fun _ _ => 0) (fun _ => 0) 2097152 (fun _ => .ok)
    [settingsFrame, settingsFrame] [.deliver 32, .deliver 3, .fail .eagain, .deliver 100]
    (fun _ => rfl) (by decide) (by decide)
    ⟨⟨[settingsFrame], by decide, by decide⟩, by
      rw [wholeReads_of_stream (by decide +kernel)]; decide +kernel, by
      rw [wholeReads_of_stream (by decide +kernel)]; decide +kernel, by
      rw [wholeReads_of_stream (by decide +kernel)]; decide +kernel, trivial⟩
  exact ⟨hwire, hdelivered.2.2 hwire⟩

/-- The first `recv` brings the preface and four bytes of the frame behind it, the second one the
rest of the frame: everything has arrived, and the frame is not handed over. -/
theorem not_frames_delivered_cut :
    let step := readTurn (fun _ _ => 0) 2097152 fun _ => .ok
    let c := run step (.init (fun _ => 0) (preface ++ [settingsFrame].flatten))
      [.deliver 27, .deliver 4]
    Complete settingsFrame ∧ c.http.status = .active ∧ c.http.wire = [] ∧
      c.http.packages = [] := by
  decide +kernel

end Stream

end Http2Conn

end Swoole
