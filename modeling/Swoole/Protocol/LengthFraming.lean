import Mathlib.Data.List.GetD
import Swoole.Protocol.LengthReader

/-!
# Length framing and segmentation

A stream framed by a length field can be cut without knowing how it arrived:
read the length field, take body offset plus length bytes, repeat.
`LengthSettings.framing` is that reading.  The length reader sees the stream
through whatever pieces `recv` hands it, and the question is whether the packages
it passes on are those of the framing.

They are, as long as no `recv` in the header mode brings more than the package
whose header it completes.  The reader asks for a whole header each time, so this
happens only to headers that arrive in pieces; but once it has happened, `offset`
lies below `length` and no later byte brings them together again.
`inStep_iff_eachStep_covers` states both directions.
-/

namespace Swoole

/-! ## The length field and more input -/

section More

variable {data rest : Bytes}

theorem lengthField_append {t : LengthType} (h : typeSize t ≤ data.length) :
    lengthField t (data ++ rest) = lengthField t data := by
  have h16 : 2 ≤ data.length → load16 (data ++ rest) = load16 data := by
    intro h2
    unfold load16
    rw [List.getD_append _ _ _ _ (by omega), List.getD_append _ _ _ _ (by omega)]
  have h32 : 4 ≤ data.length → load32 (data ++ rest) = load32 data := by
    intro h4
    unfold load32
    rw [List.getD_append _ _ _ _ (by omega), List.getD_append _ _ _ _ (by omega),
      List.getD_append _ _ _ _ (by omega), List.getD_append _ _ _ _ (by omega)]
  cases t with
  | s | S | n | v => simp only [lengthField, h16 h]
  | l | L | N | V => simp only [lengthField, h32 h]

end More

namespace LengthSettings

variable (cfg : LengthSettings)

theorem headerSize_eq :
    cfg.protocol.headerSize = cfg.lengthOffset.toNat + typeSize cfg.lengthType := by
  unfold Protocol.headerSize protocol
  cases cfg.lengthType <;> rfl

theorem headerSize_pos : 0 < cfg.protocol.headerSize := by
  rw [cfg.headerSize_eq]
  cases cfg.lengthType <;> simp [typeSize]

variable {data : Bytes}

/-- More input does not change the length announced by a complete header. -/
theorem bodyLength_append (rest : Bytes) (h : cfg.protocol.headerSize ≤ data.length) :
    cfg.protocol.bodyLength (data ++ rest) = cfg.protocol.bodyLength data := by
  rw [cfg.headerSize_eq] at h
  show lengthField cfg.lengthType ((data ++ rest).drop cfg.lengthOffset.toNat) =
    lengthField cfg.lengthType (data.drop cfg.lengthOffset.toNat)
  rw [List.drop_append_of_le_length (by omega)]
  apply lengthField_append
  rw [List.length_drop]
  omega

theorem frameLength_append (rest : Bytes) (h : cfg.protocol.headerSize ≤ data.length) :
    cfg.protocol.frameLength (data ++ rest) = cfg.protocol.frameLength data := by
  unfold Protocol.frameLength
  rw [cfg.bodyLength_append rest h]

/-- A header announces a package that covers the header and is not too long. -/
def Admits (data : Bytes) : Prop :=
  (cfg.protocol.headerSize : ℤ) ≤ cfg.protocol.frameLength data ∧
    cfg.protocol.frameLength data ≤ cfg.protocol.maxLength
  deriving Decidable

/-- A package stands complete at the head of `data`. -/
def Complete (data : Bytes) : Prop :=
  cfg.protocol.headerSize ≤ data.length ∧ cfg.Admits data ∧
    cfg.protocol.frameLength data ≤ data.length
  deriving Decidable

/-- The length of the package at the head of a stream, once it is complete. -/
def nextFrame (data : Bytes) : Option ℕ :=
  if cfg.Complete data then some (cfg.protocol.frameLength data).toNat else none

theorem nextFrame_eq_some {n : ℕ} : cfg.nextFrame data = some n ↔
      cfg.Complete data ∧ (n : ℤ) = cfg.protocol.frameLength data := by
  unfold nextFrame
  split
  · next h =>
    have hadmits := h.2.1.1
    simp only [Option.some.injEq, h, true_and]
    omega
  · next h => simp [h]

theorem nextFrame_eq_none : cfg.nextFrame data = none ↔ ¬ cfg.Complete data := by
  simp [nextFrame]

/-- **Length framing**: read the length field, take body offset plus length bytes. -/
def framing : Framing UInt8 where
  next := cfg.nextFrame
  pos {data n} h := by
    obtain ⟨hcomplete, hn⟩ := cfg.nextFrame_eq_some.mp h
    have hadmits := hcomplete.2.1.1
    have hpos := cfg.headerSize_pos
    omega
  le_length {data n} h := by
    obtain ⟨hcomplete, hn⟩ := cfg.nextFrame_eq_some.mp h
    have hle := hcomplete.2.2
    omega
  stable {data n} rest h := by
    obtain ⟨⟨hheader, hadmits, hle⟩, hn⟩ := cfg.nextFrame_eq_some.mp h
    rw [cfg.nextFrame_eq_some]
    unfold Complete Admits
    rw [cfg.frameLength_append rest hheader]
    refine ⟨⟨?_, hadmits, ?_⟩, hn⟩ <;>
    · rw [List.length_append]
      omega

/-- Every header of the stream announces a length between the header size and
`package_max_length`. -/
def LengthsInRange (stream : Bytes) : Prop :=
  cfg.framing.AtBoundaries
    (fun data => cfg.protocol.headerSize ≤ data.length → cfg.Admits data) stream

/-! ## The reader against the framing -/

section Reader

open Protocol StepRun List ReadConn

/-- The reader of a length-checked port. -/
abbrev reader (onPackage : Bytes → Ret) : ReadConn → RecvAnswer → ReadConn :=
  readTurn (LengthFunction.lengthField.apply cfg.protocol) onPackage cfg.protocol

/-- A connection that is **in step** with the framing: it is still served, and the
packages passed on are the packages of what has arrived. -/
def InStep (stream : Bytes) (c : ReadConn) : Prop :=
  c.status = .active ∧ c.packages = (cfg.framing.frames (c.arrived stream)).1

/-- There is no way back: the connection is given up, or the bytes buffered have
passed the package length and a package is missing. -/
def Lost (stream : Bytes) (c : ReadConn) : Prop :=
  c.status ≠ .active ∨
    (c.recvWait = true ∧ 0 < c.buffer.offset ∧ c.buffer.offset < c.buffer.data.length ∧
      c.arrived stream ++ c.wire = stream ∧
      c.packages.length < (cfg.framing.frames (c.arrived stream)).1.length)

/-- The bytes buffered once a `recv` in the header mode has stored its bytes fit
the buffer; if they hold a complete header, its length is one `int` arithmetic gets
right and it covers them all. -/
def HeaderCovers (size : ℕ) (data : Bytes) : Prop :=
  data.length ≤ size ∧
    (cfg.protocol.headerSize ≤ data.length →
      cfg.protocol.Representable data ∧ (data.length : ℤ) ≤ cfg.protocol.frameLength data)
  deriving Decidable

/-- The condition on a step: `HeaderCovers`, if it is a `recv` in the header mode
that stores bytes. -/
def StepCovers (c : ReadConn) (a : RecvAnswer) : Prop :=
  match c.recvWait, recv (cfg.protocol.recvbufSize c.buffer) c.wire a with
  | false, (.data bytes, _) => cfg.HeaderCovers c.buffer.size (c.buffer.data ++ bytes)
  | _, _ => True

instance (c : ReadConn) (a : RecvAnswer) : Decidable (cfg.StepCovers c a) := by
  unfold StepCovers
  exact match c.recvWait, recv (cfg.protocol.recvbufSize c.buffer) c.wire a with
    | false, (.data _, _) => inferInstanceAs (Decidable (cfg.HeaderCovers _ _))
    | false, (.error _, _) | true, _ => .isTrue trivial

variable {cfg} {stream : Bytes} {c : ReadConn} {onPackage : Bytes → Ret} {a : RecvAnswer}

theorem stepCovers_of_data {bytes wire : Bytes} (hwait : c.recvWait = false)
    (hrecv : recv (cfg.protocol.recvbufSize c.buffer) c.wire a = (.data bytes, wire)) :
    cfg.StepCovers c a ↔ cfg.HeaderCovers c.buffer.size (c.buffer.data ++ bytes) := by
  unfold StepCovers
  rw [hwait, hrecv]

theorem announces (hheader : cfg.protocol.headerSize ≤ data.length) (hadmits : cfg.Admits data) :
    Announces cfg.framing data (cfg.protocol.frameLength data).toNat := by
  intro rest
  have hlen := cfg.frameLength_append rest hheader
  have hmin := hadmits.1
  have hheader' : cfg.protocol.headerSize ≤ (data ++ rest).length := by
    rw [length_append]
    omega
  refine ⟨fun hlt => cfg.nextFrame_eq_none.mpr fun hcomplete => ?_, fun heq =>
    cfg.nextFrame_eq_some.mpr ⟨⟨hheader', ?_, ?_⟩, ?_⟩⟩
  · have hle := hcomplete.2.2
    omega
  · unfold Admits
    rwa [hlen]
  · omega
  · omega

/-- Bytes stored in the header mode that the announced package covers keep the
connection in step. -/
theorem received_header (h : Pending cfg.framing stream c) (haccept : ∀ b, onPackage b = .ok)
    (hwait : c.recvWait = false) (hoffset : c.buffer.offset = 0)
    (hadmits : cfg.protocol.headerSize ≤ c.buffer.data.length → cfg.Admits c.buffer.data)
    (hcovers : cfg.HeaderCovers c.buffer.size c.buffer.data) :
    Synced cfg.framing cfg.protocol stream (settled
      (received (LengthFunction.lengthField.apply cfg.protocol) onPackage cfg.protocol c)) := by
  by_cases hshort : c.buffer.data.length < cfg.protocol.headerSize
  · -- the header is not complete: nothing is known yet
    refine h.received_short hwait hoffset hshort (cfg.nextFrame_eq_none.mpr fun hc => ?_) ?_
    · exact absurd hc.1 (Nat.not_le_of_lt hshort)
    · rw [LengthFunction.apply, cfg.protocol.getPackageLength_of_lt hshort]
  · have hheader := not_lt.mp hshort
    obtain ⟨hrep, hcover⟩ := hcovers.2 hheader
    obtain ⟨hmin, hmax⟩ := hadmits hheader
    refine h.received_header cfg.headerSize_pos haccept hwait hheader ?_
      (announces hheader (hadmits hheader)) (by omega) (by omega)
    rw [LengthFunction.apply, cfg.protocol.getPackageLength_of_representable hheader hrep,
      Int.toNat_of_nonneg (by omega)]

/-- Bytes stored in the header mode that the announced package does not cover lose
the connection: its length is refused, or the package is never passed on. -/
theorem received_lost (h : Pending cfg.framing stream c) (hwait : c.recvWait = false)
    (hadmits : cfg.protocol.headerSize ≤ c.buffer.data.length → cfg.Admits c.buffer.data)
    (hcovers : ¬ cfg.HeaderCovers c.buffer.size c.buffer.data) :
    cfg.Lost stream (settled (received (LengthFunction.lengthField.apply cfg.protocol)
      onPackage cfg.protocol c)) := by
  have hpos := cfg.headerSize_pos
  have hlen := c.buffer.length_le
  obtain ⟨hheader, hnot⟩ : cfg.protocol.headerSize ≤ c.buffer.data.length ∧
      ¬ (cfg.protocol.Representable c.buffer.data ∧
        (c.buffer.data.length : ℤ) ≤ cfg.protocol.frameLength c.buffer.data) := by
    unfold HeaderCovers at hcovers
    tauto
  have hrange := hadmits hheader
  obtain ⟨hmin, hmax⟩ := hrange
  unfold received
  rw [if_neg (by simp [hwait])]
  simp only [LengthFunction.apply]
  by_cases hrep : cfg.protocol.Representable c.buffer.data
  · have hshort : cfg.protocol.frameLength c.buffer.data < c.buffer.data.length := by
      by_contra hge
      exact hnot ⟨hrep, by omega⟩
    have hsome : cfg.framing.next c.buffer.data =
        some (cfg.protocol.frameLength c.buffer.data).toNat :=
      cfg.nextFrame_eq_some.mpr ⟨⟨hheader, ⟨hmin, hmax⟩, by omega⟩, by omega⟩
    rw [cfg.protocol.getPackageLength_of_representable hheader hrep, if_neg (by omega),
      if_neg (by omega), if_neg (by omega)]
    unfold learnLength
    rw [if_neg (by simp only [SwString.reserve_data]; omega)]
    refine .inr ⟨rfl, ?_, ?_, h.split, ?_⟩
    · simp only [settled]
      omega
    · simp only [settled, SwString.reserve_data]
      omega
    · show c.packages.length < (cfg.framing.frames (c.arrived stream)).1.length
      rw [h.framed, cfg.framing.frames_of_some hsome]
      simp
  · rw [if_pos (cfg.protocol.getPackageLength_of_not_representable hheader hrep)]
    exact .inl (by simp [settled, settle, close])

variable (h : Synced cfg.framing cfg.protocol stream c)
include h

/-- What a complete header behind the remainder announces is in range. -/
theorem admits (hrange : cfg.LengthsInRange stream)
    {bytes wire : Bytes} (hwire : bytes ++ wire = c.wire)
    (hheader : cfg.protocol.headerSize ≤ (c.buffer.data ++ bytes).length) :
    cfg.Admits (c.buffer.data ++ bytes) := by
  rw [← h.split] at hrange
  have hhead := hrange.remainder.head
  rw [h.framed, ← hwire, ← append_assoc] at hhead
  have hlen : cfg.protocol.headerSize ≤ (c.buffer.data ++ bytes ++ wire).length := by
    rw [length_append]
    omega
  have hadmits := hhead hlen
  unfold Admits at hadmits ⊢
  rwa [cfg.frameLength_append wire hheader] at hadmits

/-- **One step in step.**  An answer that keeps to the condition keeps a connection
in step with the framing. -/
theorem synced_reader (haccept : ∀ b, onPackage b = .ok) (hrange : cfg.LengthsInRange stream)
    (ha : a.Benign) (hstep : cfg.StepCovers c a) :
    Synced cfg.framing cfg.protocol stream (cfg.reader onPackage c a) := by
  refine h.readTurn cfg.headerSize_pos haccept ha fun hwait bytes wire hwire hrecv => ?_
  have hcovers := (stepCovers_of_data hwait hrecv).mp hstep
  have hroom : c.buffer.data.length + bytes.length ≤ c.buffer.size := by
    simpa using hcovers.1
  exact ⟨hroom, received_header (h.stored hwire hroom) haccept hwait (h.header hwait).1
    (admits h hrange hwire) hcovers⟩

theorem reader_lost (hrange : cfg.LengthsInRange stream) (ha : a.Benign)
    (hstep : ¬ cfg.StepCovers c a) : cfg.Lost stream (cfg.reader onPackage c a) := by
  rcases recv_benign (h.recvbufSize_pos cfg.headerSize_pos) ha with
    ⟨bytes, wire, hrecv, hne⟩ | ⟨e, hrecv, -⟩
  · cases hwait : c.recvWait with
    | true => simp [StepCovers, hwait] at hstep
    | false =>
      have hcovers := fun h => hstep ((stepCovers_of_data hwait hrecv).mpr h)
      obtain ⟨hwire, -, -⟩ := recv_data hrecv
      unfold LengthSettings.reader
      by_cases hroom : c.buffer.data.length + bytes.length ≤ c.buffer.size
      · rw [readTurn_eq, turn_of_data h.active hrecv hne hroom]
        exact received_lost (h.stored hwire hroom) hwait (admits h hrange hwire) hcovers
      · rw [readTurn_eq, turn_of_overflow h.active hrecv hne hroom]
        exact .inl (by simp)
  · simp [StepCovers, hrecv] at hstep

omit h

/-- There is no way back from `Lost`: the bytes buffered only grow, so they never
meet `offset` again, and what has arrived holds ever more packages. -/
theorem Lost.reader (h : cfg.Lost stream c) (a : RecvAnswer) :
    cfg.Lost stream (cfg.reader onPackage c a) := by
  unfold LengthSettings.reader
  rw [readTurn_eq]
  refine turn_rule (P := cfg.Lost stream) (fun _ => h) (fun e wire status hact _ => ?_)
    (fun wire status hstatus => .inl hstatus) fun bytes wire hroom hact hrecv hne => ?_
  · by_cases hstatus : status = .active
    · exact .inr (h.resolve_left (not_not_intro hact))
    · exact .inl hstatus
  · obtain ⟨hwait, hpos, hlt, hsplit, hmissing⟩ := h.resolve_left (not_not_intro hact)
    obtain ⟨hwire, -, -⟩ := recv_data hrecv
    have harrived : (c.stored bytes wire hroom).arrived stream = c.arrived stream ++ bytes :=
      arrived_of_split hsplit hwire
    have hlen : (c.stored bytes wire hroom).buffer.offset <
        (c.stored bytes wire hroom).buffer.data.length := by
      simp only [stored, SwString.append_data, SwString.append_offset, length_append]
      omega
    have hwait' : (c.stored bytes wire hroom).recvWait = true := hwait
    unfold received
    rw [if_pos hwait', if_neg (ne_of_gt hlen)]
    refine .inr ⟨hwait, hpos, hlen, ?_, ?_⟩
    · show (c.stored bytes wire hroom).arrived stream ++ wire = stream
      rw [harrived, append_assoc, hwire, hsplit]
    · show c.packages.length <
        (cfg.framing.frames ((c.stored bytes wire hroom).arrived stream)).1.length
      rw [harrived]
      exact lt_of_lt_of_le hmissing (cfg.framing.length_frames_le_append _ _)

theorem Lost.not_inStep (h : cfg.Lost stream c) : ¬ cfg.InStep stream c := by
  rintro ⟨hact, hpackages⟩
  rcases h with hnot | ⟨-, -, -, -, hmissing⟩
  · exact hnot hact
  · rw [hpackages] at hmissing
    exact lt_irrefl _ hmissing

/-- **Length framing does not depend on segmentation, exactly as long as every
header step is covered.**  Take any settings, any stream whose headers announce
lengths between the header size and `package_max_length`, and any benign answers of
the kernel, that is, any way to cut the stream into pieces.  The connection ends up
served, with exactly the packages of what has arrived passed on, if and only if
every `recv` in the header mode stored bytes that fit the buffer and that the
package they announce, once its header is complete, covers. -/
theorem inStep_iff_eachStep_covers (cfg : LengthSettings) (onPackage : Bytes → Ret)
    (fresh : ℕ → UInt8) (stream : Bytes) (answers : List RecvAnswer)
    (haccept : ∀ package, onPackage package = .ok)
    (hrange : cfg.LengthsInRange stream) (hbenign : ∀ a ∈ answers, a.Benign) :
    cfg.InStep stream (run (cfg.reader onPackage) (.init fresh stream) answers) ↔
      EachStep (cfg.reader onPackage) cfg.StepCovers (.init fresh stream) answers :=
  run_iff_eachStep (L := cfg.Lost stream) (B := RecvAnswer.Benign)
    (fun _ _ ha hP hC => synced_reader hP haccept hrange ha hC)
    (fun _ _ ha hP hC => reader_lost hP hrange ha hC)
    (fun _ a hL => hL.reader a)
    (fun _ hP => ⟨hP.active, by rw [hP.framed]⟩) (fun _ hL => hL.not_inStep)
    answers hbenign (synced_init fresh stream cfg.headerSize_pos)

/-- Two packages of five bytes, the first header cut after its third byte: all
headers are in range, everything arrives, and no package is ever passed on. -/
theorem not_inStep_split_header :
    let cfg : LengthSettings := ⟨.N, 0, 4, 2097152⟩
    let stream : Bytes := [0, 0, 0, 1, 65, 0, 0, 0, 1, 66]
    let reached := run (cfg.reader fun _ => .ok) (.init (fun _ => 0) stream)
      [.deliver 2, .deliver 3, .deliver 2]
    cfg.LengthsInRange stream ∧ reached.wire = [] ∧ reached.packages = [] ∧
      (cfg.framing.frames stream).1 = [[0, 0, 0, 1, 65], [0, 0, 0, 1, 66]] ∧
      ¬ cfg.InStep stream reached := by
  intro cfg stream reached
  have hfirst : cfg.framing.next stream = some 5 := by decide +kernel
  have hsecond : cfg.framing.next (stream.drop 5) = some 5 := by decide +kernel
  have hlast : cfg.framing.next ((stream.drop 5).drop 5) = none := by decide +kernel
  have hwire : reached.wire = [] := by decide +kernel
  have hpackages : reached.packages = [] := by decide +kernel
  have hframes : (cfg.framing.frames stream).1 = [[0, 0, 0, 1, 65], [0, 0, 0, 1, 66]] := by
    rw [cfg.framing.frames_of_some hfirst, cfg.framing.frames_of_some hsecond,
      cfg.framing.frames_of_none hlast]
    rfl
  refine ⟨?_, hwire, hpackages, hframes, ?_⟩
  · exact .more (by decide +kernel) hfirst
      (.more (by decide +kernel) hsecond (.last (by decide +kernel) hlast))
  · rintro ⟨-, h⟩
    rw [hpackages, arrived_eq (show stream ++ reached.wire = stream by rw [hwire]; rfl),
      hframes] at h
    cases h

/-- The first header arrives whole and the second is cut after two bytes, but what
comes with its second half still belongs to the package: both are passed on. -/
theorem inStep_covered_headers :
    let cfg : LengthSettings := ⟨.N, 0, 4, 2097152⟩
    let stream : Bytes := [0, 0, 0, 1, 65, 0, 0, 0, 2, 66, 67]
    cfg.InStep stream (run (cfg.reader fun _ => .ok) (.init (fun _ => 0) stream)
      [.deliver 3, .deliver 0, .deliver 1, .deliver 3]) := by
  intro cfg stream
  have hfirst : cfg.framing.next stream = some 5 := by decide +kernel
  have hsecond : cfg.framing.next (stream.drop 5) = some 6 := by decide +kernel
  have hlast : cfg.framing.next ((stream.drop 5).drop 6) = none := by decide +kernel
  refine (inStep_iff_eachStep_covers cfg (fun _ => .ok) (fun _ => 0) stream _ (fun _ => rfl)
    ?_ (by decide)).mpr (by decide +kernel)
  exact .more (by decide +kernel) hfirst
    (.more (by decide +kernel) hsecond (.last (by decide +kernel) hlast))

end Reader

end LengthSettings

end Swoole
