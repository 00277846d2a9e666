import Swoole.Protocol.CheckEof

/-!
# EOF framing and segmentation

A stream whose packages end with a marker is cut at the left-to-right,
non-overlapping occurrences of the marker; `EofSettings.framing` is that cutting.
The EOF reader, in its splitting mode, never sees the stream but in pieces of at
most `SW_BUFFER_SIZE` bytes, and remembers between two of them only the unfinished
tail and how far it has searched it.

`Synced` says that this is enough: the buffer holds exactly the unfinished tail, and
no marker can begin before `offset`.  The reader keeps it for as long as the size a
full buffer is grown to keeps its value as a `uint32_t`, that is, as long as buffers
stay below 2 GiB.  `inStep_iff_eachStep_fits` gives the exact condition;
`eachStep_fits_of_maxLength_le` says that a `package_max_length` of at most 1 GiB is
enough.  What is left behind a marker always fits the buffer on the stack
(`eachStep_stackFits`).
-/

open List Option

namespace Swoole

/-- The options of an EOF-checked port in the splitting mode, on a machine with
pages of `pagesize` bytes.  The marker is not empty, and `package_eof` has room for
`SW_DATA_EOF_MAXLEN` bytes. -/
structure EofSettings where
  eof : Bytes
  maxLength : UInt32
  pagesize : ℕ
  eof_ne : eof ≠ []
  eof_le : eof.length ≤ dataEofMaxlen
  pagesize_pos : 0 < pagesize

namespace EofSettings

open Protocol StepRun Search
open ReadConn (arrived arrived_eq init settle settled turn_of_data)

variable (cfg : EofSettings)

/-- The protocol record of an EOF-checked port; the length options keep their
defaults. -/
def protocol : Protocol where
  splitByEof := true
  packageEof := cfg.eof
  packageLengthType := .N
  packageLengthSize := 4
  packageLengthOffset := 0
  packageBodyOffset := 0
  packageMaxLength := cfg.maxLength

theorem protocol_splitByEof : cfg.protocol.splitByEof = true := rfl

theorem protocol_packageEof : cfg.protocol.packageEof = cfg.eof := rfl

/-- **EOF framing**: a package ends with the first occurrence of the marker. -/
def framing : Framing UInt8 := terminated cfg.eof cfg.eof_ne

/-- The reader of an EOF-checked port. -/
abbrev reader : ReadConn → RecvAnswer → ReadConn := cfg.protocol.readTurnEof cfg.pagesize

/-- Every package of the stream, and its unfinished tail, is shorter than
`package_max_length`. -/
def PackagesShort (stream : Bytes) : Prop :=
  (∀ package ∈ (cfg.framing.frames stream).1, package.length < cfg.protocol.maxLength) ∧
    (cfg.framing.frames stream).2.length < cfg.protocol.maxLength

/-- A connection **in step** with the framing: still served, every package of what
has arrived passed on, and the unfinished tail in the buffer. -/
def InStep (stream : Bytes) (c : ReadConn) : Prop :=
  c.status = .active ∧ c.packages = (cfg.framing.frames (c.arrived stream)).1 ∧
    c.buffer.data = (cfg.framing.frames (c.arrived stream)).2

/-! ## Splitting -/

section Split

variable {cfg}

theorem splitRemaining_eq_frames : ∀ (rounds : ℕ) (remaining : Bytes),
    remaining.length ≤ rounds →
      splitRemaining cfg.eof rounds remaining = cfg.framing.frames remaining := by
  intro rounds
  induction rounds with
  | zero =>
    intro remaining hlen
    obtain rfl := length_eq_zero_iff.mp (Nat.le_zero.mp hlen)
    rw [cfg.framing.frames_of_none cfg.framing.next_nil]
    rfl
  | succ rounds ih =>
    intro remaining hlen
    unfold splitRemaining
    cases hpos : strnpos remaining cfg.eof with
    | none =>
      have hnext : cfg.framing.next remaining = none := map_eq_none_iff.mpr hpos
      rw [cfg.framing.frames_of_none hnext]
    | some eofPos =>
      have hnext : cfg.framing.next remaining = some (eofPos + cfg.eof.length) :=
        map_eq_some_iff.mpr ⟨eofPos, hpos, rfl⟩
      have hlt := cfg.framing.length_drop_lt hnext
      rw [cfg.framing.frames_of_some hnext]
      simp only
      rw [ih _ (by omega)]

variable {buffer : SwString}

/-- No marker begins before the place where the search resumes. -/
def SearchedTo (cfg : EofSettings) (buffer : SwString) : Prop :=
  ∀ j < buffer.offset, ¬ OccursAt cfg.eof buffer.data j

variable (h : cfg.SearchedTo buffer)
include h

theorem next_eq_strnpos :
    cfg.framing.next buffer.data =
      (strnpos (buffer.data.drop buffer.offset) cfg.eof).map
        fun eofPos => buffer.offset + eofPos + cfg.eof.length := by
  show (firstOcc cfg.eof buffer.data).map (· + cfg.eof.length) = _
  rw [firstOcc_eq_drop cfg.eof_ne h, Option.map_map]
  rfl

theorem splitPackageByEof_of_none
    (hnext : cfg.framing.next buffer.data = none) :
    splitPackageByEof cfg.eof buffer =
      some ([], { buffer with offset := buffer.data.length - cfg.eof.length },
        buffer.data.length) := by
  rw [next_eq_strnpos h, map_eq_none_iff] at hnext
  simp only [splitPackageByEof, hnext]

variable {n : ℕ}

/-- A split that has room on the stack passes on the packages of the buffer and
leaves its tail. -/
theorem splitPackageByEof_of_some (hnext : cfg.framing.next buffer.data = some n)
    (hfits : (cfg.framing.frames buffer.data).2.length ≤ bufferSizeBig) :
    ∃ buffer', splitPackageByEof cfg.eof buffer =
        some ((cfg.framing.frames buffer.data).1, buffer',
          (cfg.framing.frames buffer.data).2.length) ∧
      buffer'.data = (cfg.framing.frames buffer.data).2 ∧ buffer'.size = buffer.size ∧
      buffer'.offset = 0 := by
  rw [cfg.framing.frames_of_some hnext] at hfits ⊢
  rw [next_eq_strnpos h, map_eq_some_iff] at hnext
  obtain ⟨eofPos, hpos, rfl⟩ := hnext
  unfold splitPackageByEof
  simp only [hpos]
  by_cases hmore : buffer.offset + eofPos + cfg.eof.length < buffer.data.length
  · rw [if_pos hmore]
    simp only [splitRemaining_eq_frames buffer.data.length _
      (show (buffer.data.drop (buffer.offset + eofPos + cfg.eof.length)).length ≤ _ by
        rw [length_drop]; omega), if_pos hfits]
    exact ⟨_, rfl, rfl, rfl, rfl⟩
  · rw [if_neg hmore, drop_of_length_le (by omega), cfg.framing.frames_of_none cfg.framing.next_nil]
    exact ⟨_, rfl, rfl, rfl, rfl⟩

theorem stackCopy_of_some (hnext : cfg.framing.next buffer.data = some n) :
    stackCopy cfg.eof buffer = (cfg.framing.frames buffer.data).2.length := by
  rw [cfg.framing.frames_of_some hnext]
  rw [next_eq_strnpos h, map_eq_some_iff] at hnext
  obtain ⟨eofPos, hpos, rfl⟩ := hnext
  unfold stackCopy
  simp only [hpos]
  split
  · rw [splitRemaining_eq_frames buffer.data.length _ (by rw [length_drop]; omega)]
  · rw [drop_of_length_le (by omega), cfg.framing.frames_of_none cfg.framing.next_nil]
    rfl

omit h

/-- A buffer **without a marker**, searched up to one marker length before its end. -/
structure Unfinished (cfg : EofSettings) (buffer : SwString) : Prop where
  next_eq : cfg.framing.next buffer.data = none
  searched : buffer.offset = 0 ∨ buffer.offset + cfg.eof.length ≤ buffer.data.length

variable {bytes : Bytes}

/-- A marker that begins before `offset` would lie inside the old bytes. -/
theorem Unfinished.searchedTo (h : cfg.Unfinished buffer)
    (hroom : buffer.data.length + bytes.length ≤ buffer.size) :
    cfg.SearchedTo (buffer.append bytes hroom) := by
  intro j hj hocc
  change j < buffer.offset at hj
  refine (terminated_next_eq_none cfg.eof_ne).mp h.next_eq j (hocc.of_append ?_)
  rcases h.searched with hzero | hle
  · omega
  · omega

/-- A package that ends, ends among the new bytes: what is left behind it is new. -/
theorem Unfinished.length_remainder_le (h : cfg.Unfinished buffer)
    (hnext : cfg.framing.next (buffer.data ++ bytes) = some n) :
    (cfg.framing.frames (buffer.data ++ bytes)).2.length ≤ bytes.length := by
  have hpast := lt_of_terminated_next cfg.eof_ne h.next_eq hnext
  have hle := cfg.framing.length_remainder_le ((buffer.data ++ bytes).drop n)
  rw [cfg.framing.frames_of_some hnext]
  rw [length_drop, length_append] at hle
  show (cfg.framing.frames ((buffer.data ++ bytes).drop n)).2.length ≤ _
  omega

end Split

/-! ## The reader against the framing -/

/-- The invariant behind `InStep`: the tail is in the buffer, the search resumes at
most one marker length before its end, and there is room for more. -/
structure Synced (stream : Bytes) (c : ReadConn) : Prop where
  active : c.status = .active
  split : c.arrived stream ++ c.wire = stream
  packages : c.packages = (cfg.framing.frames (c.arrived stream)).1
  remainder : c.buffer.data = (cfg.framing.frames (c.arrived stream)).2
  searched : c.buffer.offset = 0 ∨ c.buffer.offset + cfg.eof.length ≤ c.buffer.data.length
  room : c.buffer.data.length < c.buffer.size
  size_ge : bufferSize ≤ c.buffer.size
  size_lt : c.buffer.size < 2 ^ 32

/-- What the bytes buffered after a `recv` must be like: if they fill the buffer
without a marker, the grown size survives its conversion to `uint32_t`. -/
def Fits (size : ℕ) (data : Bytes) : Prop :=
  (cfg.framing.frames data).2.length = size → size < sizeAlign (size * 2) cfg.pagesize % 2 ^ 32

/-- The condition on a step: `Fits`, if it is a `recv` that stores bytes. -/
def StepFits (c : ReadConn) (a : RecvAnswer) : Prop :=
  match recv (eofRequest c.buffer) c.wire a with
  | (.data bytes, _) => cfg.Fits c.buffer.size (c.buffer.data ++ bytes)
  | _ => True

section Reader

variable {cfg} {stream bytes wire : Bytes} {c : ReadConn} {a : RecvAnswer}

theorem stepFits_of_data (hrecv : recv (eofRequest c.buffer) c.wire a = (.data bytes, wire)) :
    cfg.StepFits c a ↔ cfg.Fits c.buffer.size (c.buffer.data ++ bytes) := by
  unfold StepFits
  rw [hrecv]

variable {buffer : SwString}

theorem eofRequest_pos (hroom : buffer.data.length < buffer.size)
    (hlt : buffer.size < 2 ^ 32) : 0 < eofRequest buffer := by
  unfold eofRequest toSizeT toInt32 bufferSize ipcMaxSize dataHeadSize
  simp only [Int.bmod]
  split <;> split <;> omega

/-- What a `recv` brings has room in the buffer, and is no more than `SW_BUFFER_SIZE`. -/
theorem length_of_recv (hrecv : recv (eofRequest c.buffer) c.wire a = (.data bytes, wire)) :
    c.buffer.data.length + bytes.length ≤ c.buffer.size ∧ bytes.length ≤ bufferSize := by
  have hle := c.buffer.length_le
  obtain ⟨hroom, hlen⟩ := eofRequest_le c.buffer
  obtain ⟨-, hrequest, -⟩ := recv_data hrecv
  omega

/-- Between a `recv` and what follows it. -/
structure Pending (cfg : EofSettings) (stream : Bytes) (c : ReadConn) : Prop where
  active : c.status = .active
  split : c.arrived stream ++ c.wire = stream
  framed : cfg.framing.frames (c.arrived stream) =
    (c.packages ++ (cfg.framing.frames c.buffer.data).1, (cfg.framing.frames c.buffer.data).2)
  searched : c.buffer.offset = 0 ∨ c.buffer.offset + cfg.eof.length ≤ c.buffer.data.length
  searchedTo : cfg.SearchedTo c.buffer
  behind : ∀ n, cfg.framing.next c.buffer.data = some n →
    (cfg.framing.frames c.buffer.data).2.length ≤ bufferSizeBig
  short : (cfg.framing.frames c.buffer.data).2.length < cfg.protocol.maxLength
  size_ge : bufferSize ≤ c.buffer.size
  size_lt : c.buffer.size < 2 ^ 32

theorem Synced.unfinished (h : cfg.Synced stream c) : cfg.Unfinished c.buffer := by
  refine ⟨?_, h.searched⟩
  rw [h.remainder]
  exact cfg.framing.next_remainder _

theorem Synced.stored (h : cfg.Synced stream c) (hshort : cfg.PackagesShort stream)
    (hwire : bytes ++ wire = c.wire) (hlen : bytes.length ≤ bufferSize)
    (hroom : c.buffer.data.length + bytes.length ≤ c.buffer.size) :
    Pending cfg stream (c.stored bytes wire hroom) := by
  have harrived : (c.stored bytes wire hroom).arrived stream = c.arrived stream ++ bytes :=
    ReadConn.arrived_of_split h.split hwire
  have hsplit : (c.stored bytes wire hroom).arrived stream ++ wire = stream := by
    rw [harrived, append_assoc, hwire, h.split]
  have hframed : cfg.framing.frames ((c.stored bytes wire hroom).arrived stream) =
      (c.packages ++ (cfg.framing.frames (c.buffer.data ++ bytes)).1,
        (cfg.framing.frames (c.buffer.data ++ bytes)).2) := by
    rw [harrived, cfg.framing.frames_append, h.packages, h.remainder]
  have hbig : bufferSize ≤ bufferSizeBig := by decide
  refine ⟨h.active, hsplit, hframed, ?_, h.unfinished.searchedTo hroom,
    fun n hnext => (h.unfinished.length_remainder_le hnext).trans (hlen.trans hbig), ?_,
    h.size_ge, h.size_lt⟩
  · refine h.searched.imp_right fun hle => ?_
    show c.buffer.offset + cfg.eof.length ≤ (c.buffer.data ++ bytes).length
    rw [length_append]
    omega
  · rw [← hsplit] at hshort
    have hlt := length_remainder_lt cfg.eof_ne
      (fun package hmem => le_of_lt (hshort.1 package hmem)) hshort.2
    change (cfg.framing.frames _).2.length < _ at hlt
    rwa [hframed] at hlt

theorem Pending.synced (h : Pending cfg stream c) (buffer : SwString)
    (hdata : buffer.data = (cfg.framing.frames c.buffer.data).2)
    (hsearched : buffer.offset = 0 ∨ buffer.offset + cfg.eof.length ≤ buffer.data.length)
    (hroom : buffer.data.length < buffer.size) (hge : bufferSize ≤ buffer.size)
    (hlt : buffer.size < 2 ^ 32) :
    cfg.Synced stream
      { c with
        buffer := buffer
        packages := c.packages ++ (cfg.framing.frames c.buffer.data).1 } := by
  refine ⟨h.active, h.split, ?_, ?_, hsearched, hroom, hge, hlt⟩
  · show _ = (cfg.framing.frames (c.arrived stream)).1
    rw [h.framed]
  · show _ = (cfg.framing.frames (c.arrived stream)).2
    rw [h.framed]
    exact hdata

/-! ### Growing the buffer -/

variable (hmax : c.buffer.data.length < cfg.protocol.maxLength)
include hmax

theorem growOrReturn_of_lt (hroom : c.buffer.data.length < c.buffer.size) :
    cfg.protocol.growOrReturn cfg.pagesize true c = (c, .again) := by
  unfold growOrReturn
  rw [if_neg (ne_of_lt hmax), if_neg (ne_of_lt hroom), if_pos rfl]

omit hmax in
/-- The size a full buffer is to be given is larger than its size exactly when the
conversion to `uint32_t` leaves it larger. -/
theorem lt_extendSize_iff (hmax : c.buffer.size < cfg.protocol.maxLength) :
    c.buffer.size < cfg.protocol.extendSize cfg.pagesize c.buffer.size ↔
      c.buffer.size < sizeAlign (c.buffer.size * 2) cfg.pagesize % 2 ^ 32 := by
  unfold extendSize
  simp only
  split <;> omega

theorem growOrReturn_of_full
    (hfull : c.buffer.data.length = c.buffer.size)
    (hgrows : c.buffer.size < sizeAlign (c.buffer.size * 2) cfg.pagesize % 2 ^ 32) :
    ∃ buffer, cfg.protocol.growOrReturn cfg.pagesize true c =
        ({ c with buffer := buffer }, .again) ∧
      buffer.data = c.buffer.data ∧ buffer.offset = c.buffer.offset ∧
      c.buffer.size < buffer.size ∧ buffer.size < 2 ^ 32 := by
  have hsize : c.buffer.size < cfg.protocol.maxLength := hfull ▸ hmax
  have hlt := (lt_extendSize_iff hsize).mpr hgrows
  obtain ⟨buffer, hextend, hdata, -, hsize', hoffset⟩ := c.buffer.extend_of_lt hlt
  refine ⟨buffer, ?_, hdata, hoffset, hsize' ▸ hlt, ?_⟩
  · unfold growOrReturn
    rw [if_neg (ne_of_lt hmax), if_pos hfull, if_pos hsize, hextend]
  · rw [hsize']
    exact lt_of_le_of_lt (extendSize_le _) cfg.maxLength.toNat_lt

/-- A size that lost its top bits is refused by the assertion in `swString_extend`. -/
theorem growOrReturn_of_wrap
    (hfull : c.buffer.data.length = c.buffer.size)
    (hwrap : ¬ c.buffer.size < sizeAlign (c.buffer.size * 2) cfg.pagesize % 2 ^ 32) :
    cfg.protocol.growOrReturn cfg.pagesize true c = ({ c with status := .broken }, .ret .ok) := by
  have hsize : c.buffer.size < cfg.protocol.maxLength := hfull ▸ hmax
  have hnot := fun hlt => hwrap ((lt_extendSize_iff hsize).mp hlt)
  unfold growOrReturn
  rw [if_neg (ne_of_lt hmax), if_pos hfull, if_pos hsize, c.buffer.extend_of_not_lt hnot]

/-! ### What follows a `recv` -/

omit hmax

theorem frames_of_lt {data : Bytes} (h : data.length < cfg.eof.length) :
    cfg.framing.frames data = ([], data) := by
  refine cfg.framing.frames_of_none ((terminated_next_eq_none cfg.eof_ne).mpr fun j hj => ?_)
  have hle := hj.length_le cfg.eof_ne
  omega

theorem eof_length_lt_bufferSize : cfg.eof.length < bufferSize := by
  have hle := cfg.eof_le
  unfold dataEofMaxlen at hle
  unfold bufferSize ipcMaxSize dataHeadSize
  omega

theorem Pending.receivedEof (h : Pending cfg stream c)
    (hfits : cfg.Fits c.buffer.size c.buffer.data) :
    cfg.Synced stream (settled (cfg.protocol.receivedEof cfg.pagesize c)) := by
  have hle := c.buffer.length_le
  have hgrow : _ → _ := hfits
  have hge := h.size_ge
  have hshort := h.short
  have heof := cfg.eof_length_lt_bufferSize
  unfold Protocol.receivedEof
  rw [cfg.protocol_packageEof]
  by_cases hfew : c.buffer.data.length < cfg.eof.length
  · -- fewer bytes than the marker has: nothing is searched
    have hframes := frames_of_lt hfew
    have hsynced := h.synced c.buffer (by rw [hframes]) h.searched (by omega)
      hge h.size_lt
    rw [hframes, append_nil] at hsynced
    rw [if_pos hfew]
    exact hsynced
  rw [if_neg hfew, if_pos cfg.protocol_splitByEof]
  cases hnext : cfg.framing.next c.buffer.data with
  | none =>
    have hframes := cfg.framing.frames_of_none hnext
    have hsynced := h.synced
    simp only [hframes, append_nil] at hshort hgrow hsynced
    rw [splitPackageByEof_of_none h.searchedTo hnext]
    simp only [append_nil]
    rw [if_neg (by have := length_pos_iff.mpr cfg.eof_ne; omega)]
    -- the next search begins where a marker may still be cut
    have hsearched : c.buffer.data.length - cfg.eof.length + cfg.eof.length ≤
        c.buffer.data.length := by omega
    let resumed : SwString :=
      { c.buffer with offset := c.buffer.data.length - cfg.eof.length }
    by_cases hfull : c.buffer.data.length = c.buffer.size
    · obtain ⟨buffer, heq, hdata, hoffset, hlt, hlt'⟩ :=
        @growOrReturn_of_full cfg { c with buffer := resumed } hshort hfull (hgrow hfull)
      rw [heq]
      exact hsynced buffer hdata (.inr (by rw [hoffset, hdata]; exact hsearched))
        (by rw [hdata]; exact hfull ▸ hlt) (le_trans hge (le_of_lt hlt)) hlt'
    · rw [@growOrReturn_of_lt cfg { c with buffer := resumed } hshort
        (lt_of_le_of_ne hle hfull)]
      exact hsynced resumed rfl (.inr hsearched) (lt_of_le_of_ne hle hfull) hge h.size_lt
  | some n =>
    have hlt := cfg.framing.length_remainder_lt_of_some hnext
    obtain ⟨buffer, heq, hdata, hsize, hoffset⟩ :=
      splitPackageByEof_of_some h.searchedTo hnext (h.behind n hnext)
    -- the tail behind a marker leaves room, so that the buffer need not grow
    have hroom : buffer.data.length < buffer.size := by
      rw [hdata, hsize]
      omega
    have hsynced := h.synced buffer hdata (.inl hoffset) hroom (hsize ▸ hge) (hsize ▸ h.size_lt)
    rw [heq]
    simp only
    by_cases hzero : (cfg.framing.frames c.buffer.data).2.length = 0
    · rw [if_pos hzero]
      exact hsynced
    · rw [if_neg hzero, growOrReturn_of_lt (by rw [hdata]; exact hshort) hroom]
      exact hsynced

theorem Pending.receivedEof_broken (h : Pending cfg stream c)
    (hfits : ¬ cfg.Fits c.buffer.size c.buffer.data) :
    (settled (cfg.protocol.receivedEof cfg.pagesize c)).status ≠ .active := by
  have hle := c.buffer.length_le
  have hge := h.size_ge
  have hshort := h.short
  have heof := cfg.eof_length_lt_bufferSize
  obtain ⟨hfull, hwrap⟩ := Classical.not_imp.mp hfits
  cases hnext : cfg.framing.next c.buffer.data with
  | none =>
    rw [cfg.framing.frames_of_none hnext] at hshort hfull
    change c.buffer.data.length = _ at hfull
    unfold Protocol.receivedEof
    rw [cfg.protocol_packageEof, if_neg (by omega), if_pos cfg.protocol_splitByEof,
      splitPackageByEof_of_none h.searchedTo hnext]
    simp only [append_nil]
    rw [if_neg (by have := length_pos_iff.mpr cfg.eof_ne; omega),
      @growOrReturn_of_wrap cfg { c with buffer := { c.buffer with
        offset := c.buffer.data.length - cfg.eof.length } } hshort hfull hwrap]
    simp [settled, settle]
  | some n =>
    -- behind a marker the buffer is not full
    have hlt := cfg.framing.length_remainder_lt_of_some hnext
    omega

/-! ### Runs -/

/-- **One step in step.** -/
theorem Synced.reader (h : cfg.Synced stream c) (hshort : cfg.PackagesShort stream)
    (ha : a.Benign) (hstep : cfg.StepFits c a) : cfg.Synced stream (cfg.reader c a) := by
  unfold EofSettings.reader
  rcases recv_benign (eofRequest_pos h.room h.size_lt) ha with
    ⟨bytes, wire, hrecv, hne⟩ | ⟨e, hrecv, htransient⟩
  · obtain ⟨hroom, hlen⟩ := length_of_recv hrecv
    rw [readTurnEof_eq, turn_of_data h.active hrecv hne hroom]
    exact (h.stored hshort (recv_data hrecv).1 hlen hroom).receivedEof
      ((stepFits_of_data hrecv).mp hstep)
  · obtain ⟨status, heq, hstatus⟩ := @ReadConn.turn_of_error c _
      (cfg.protocol.receivedEof cfg.pagesize) a e c.wire h.active hrecv
    obtain rfl : status = .active := hstatus htransient
    rw [readTurnEof_eq, heq]
    exact ⟨rfl, h.split, h.packages, h.remainder, h.searched, h.room, h.size_ge, h.size_lt⟩

theorem Synced.reader_broken (h : cfg.Synced stream c) (hshort : cfg.PackagesShort stream)
    (ha : a.Benign) (hstep : ¬ cfg.StepFits c a) : (cfg.reader c a).status ≠ .active := by
  unfold EofSettings.reader
  rcases recv_benign (eofRequest_pos h.room h.size_lt) ha with
    ⟨bytes, wire, hrecv, hne⟩ | ⟨e, hrecv, -⟩
  · obtain ⟨hroom, hlen⟩ := length_of_recv hrecv
    rw [readTurnEof_eq, turn_of_data h.active hrecv hne hroom]
    exact (h.stored hshort (recv_data hrecv).1 hlen hroom).receivedEof_broken
      fun hfits => hstep ((stepFits_of_data hrecv).mpr hfits)
  · simp [StepFits, hrecv] at hstep

theorem synced_init (fresh : ℕ → UInt8) (stream : Bytes) :
    cfg.Synced stream (.init fresh stream) := by
  have harrived : (init fresh stream).arrived stream = [] := arrived_eq rfl
  have hframes := cfg.framing.frames_of_none cfg.framing.next_nil
  have hpos : 0 < bufferSize := by decide
  have hlt : bufferSize < 2 ^ 32 := by decide
  refine ⟨rfl, ?_, ?_, ?_, .inl rfl, hpos, le_rfl, hlt⟩
  · rw [harrived]
    rfl
  all_goals
    rw [harrived, hframes]
    rfl

/-- **EOF framing does not depend on segmentation, exactly as long as the sizes
fit.**  Take any marker, any stream whose packages are shorter than
`package_max_length`, and any benign answers of the kernel, that is, any way to cut
the stream into pieces.  The connection ends up served, with exactly the packages of
what has arrived passed on and the unfinished tail in its buffer, if and only if at
every `recv` the bytes buffered met `Fits`. -/
theorem inStep_iff_eachStep_fits (cfg : EofSettings) (fresh : ℕ → UInt8) (stream : Bytes)
    (answers : List RecvAnswer) (hshort : cfg.PackagesShort stream)
    (hbenign : ∀ a ∈ answers, a.Benign) :
    cfg.InStep stream (run cfg.reader (.init fresh stream) answers) ↔
      EachStep cfg.reader cfg.StepFits (.init fresh stream) answers :=
  run_iff_eachStep (L := fun c => c.status ≠ .active) (B := RecvAnswer.Benign)
    (fun _ _ ha hP hC => hP.reader hshort ha hC)
    (fun _ _ ha hP hC => hP.reader_broken hshort ha hC)
    (fun c a hL => by
      unfold EofSettings.reader
      rwa [readTurnEof_eq, ReadConn.turn_of_not_active hL])
    (fun _ hP => ⟨hP.active, hP.packages, hP.remainder⟩) (fun _ hL hQ => hL hQ.1)
    answers hbenign (synced_init fresh stream)

/-- A buffer below 1 GiB meets the condition at every `recv`: twice the size and a page
fit 32 bits. -/
theorem stepFits_of_le (hsize : c.buffer.size ≤ 2 ^ 30) (hpage : cfg.pagesize ≤ 2 ^ 30)
    (a : RecvAnswer) : cfg.StepFits c a := by
  unfold StepFits
  split
  · intro _
    have hlt := lt_sizeAlign (c.buffer.size * 2) cfg.pagesize_pos
    have hle := sizeAlign_le (c.buffer.size * 2) cfg.pagesize
    omega
  · trivial

/-- With a `package_max_length` of at most 1 GiB every run meets the condition. -/
theorem eachStep_fits_of_maxLength_le (hmax : cfg.protocol.maxLength ≤ 2 ^ 30)
    (hpage : cfg.pagesize ≤ 2 ^ 30) (hshort : cfg.PackagesShort stream)
    (fresh : ℕ → UInt8) {answers : List RecvAnswer} (hbenign : ∀ a ∈ answers, a.Benign) :
    EachStep cfg.reader cfg.StepFits (.init fresh stream) answers := by
  refine eachStep_of_invariant (P := fun c => cfg.Synced stream c ∧ c.buffer.size ≤ 2 ^ 30)
    (B := RecvAnswer.Benign) (fun c a _ hP => stepFits_of_le hP.2 hpage a) ?_ answers hbenign
    ⟨synced_init fresh stream, (by decide : bufferSize ≤ 2 ^ 30)⟩
  rintro c a ha ⟨hsynced, hsize⟩ hstep
  refine ⟨hsynced.reader hshort ha hstep, ?_⟩
  rcases @sizeStep_readTurnEof cfg.pagesize cfg.protocol c a with
    heq | ⟨-, heq⟩
  · exact heq ▸ hsize
  · exact heq ▸ le_trans (extendSize_le _) hmax

end Reader

/-! ## The stack buffer -/

/-- A step that stores bytes for which there is room, and whose split, if there is one,
copies no more into `stack_buf` than fits. -/
def StackFits (c : ReadConn) (a : RecvAnswer) : Prop :=
  match recv (eofRequest c.buffer) c.wire a with
  | (.data bytes, _) => c.status = .active →
    ∃ hroom : c.buffer.data.length + bytes.length ≤ c.buffer.size,
      stackCopy cfg.eof (c.buffer.append bytes hroom) ≤ bufferSizeBig
  | _ => True

section Stack

variable {cfg} {c : ReadConn}

theorem unfinished_of_split {buffer buffer' : SwString} {packages : List Bytes} {value : ℕ}
    (h : cfg.SearchedTo buffer) (hle : cfg.eof.length ≤ buffer.data.length)
    (hsplit : splitPackageByEof cfg.eof buffer = some (packages, buffer', value)) :
    cfg.Unfinished buffer' := by
  cases hnext : cfg.framing.next buffer.data with
  | none =>
    rw [splitPackageByEof_of_none h hnext] at hsplit
    cases hsplit
    exact ⟨hnext, .inr (le_of_eq (Nat.sub_add_cancel hle))⟩
  | some n =>
    by_cases hfits : (cfg.framing.frames buffer.data).2.length ≤ bufferSizeBig
    · obtain ⟨buffer'', heq, hdata, -, hoffset⟩ := splitPackageByEof_of_some h hnext hfits
      rw [heq] at hsplit
      cases hsplit
      exact ⟨hdata ▸ cfg.framing.next_remainder _, .inl hoffset⟩
    · rw [← stackCopy_of_some h hnext, not_le, ← splitPackageByEof_eq_none, hsplit] at hfits
      cases hfits

theorem Unfinished.receivedEof (h : cfg.Unfinished c.buffer) {bytes wire : Bytes}
    (hroom : c.buffer.data.length + bytes.length ≤ c.buffer.size) :
    let reached :=
      settled (cfg.protocol.receivedEof cfg.pagesize (c.stored bytes wire hroom))
    reached.status = .active → cfg.Unfinished reached.buffer := by
  have hto := h.searchedTo hroom
  unfold Protocol.receivedEof
  rw [cfg.protocol_packageEof]
  split
  · next hfew =>
    have hnext := cfg.framing.next_remainder (c.stored bytes wire hroom).buffer.data
    rw [frames_of_lt hfew] at hnext
    refine fun _ => ⟨hnext, h.searched.imp_right fun hle => le_trans hle ?_⟩
    show _ ≤ (c.buffer.data ++ bytes).length
    simp
  · next hmany =>
    rw [if_pos cfg.protocol_splitByEof]
    split
    · intro reached hact
      cases hact
    · next packages buffer value hsplit =>
      have hleft := unfinished_of_split hto (not_lt.mp hmany) hsplit
      simp only
      split
      · exact fun _ => hleft
      · obtain ⟨status, buffer', heq, -, hdata, hoffset⟩ :=
          @settled_growOrReturn cfg.pagesize cfg.protocol true
            { c.stored bytes wire hroom with buffer := buffer, packages := c.packages ++ packages }
        rw [show (c.stored bytes wire hroom).packages = c.packages from rfl, heq]
        exact fun _ => ⟨hdata ▸ hleft.next_eq, hdata ▸ hoffset ▸ hleft.searched⟩

/-- **One step leaves no marker in the buffer** of a connection that is still served. -/
theorem unfinished_reader (a : RecvAnswer) (h : c.status = .active → cfg.Unfinished c.buffer) :
    (cfg.reader c a).status = .active → cfg.Unfinished (cfg.reader c a).buffer := by
  exact @ReadConn.turn_rule c eofRequest _ a
    (fun c' => c'.status = .active → cfg.Unfinished c'.buffer) (fun _ => h)
    (fun _ _ _ hact _ _ => h hact) (fun _ _ hended hact => absurd hact hended)
    (fun _ _ hroom hact _ _ => (h hact).receivedEof hroom)

/-- One `recv` brings no more than the stack buffer holds. -/
theorem Unfinished.stackFits (h : c.status = .active → cfg.Unfinished c.buffer)
    (a : RecvAnswer) : cfg.StackFits c a := by
  unfold StackFits
  split
  · next bytes wire hrecv =>
    intro hact
    obtain ⟨hroom, hlen⟩ := length_of_recv hrecv
    have hto := (h hact).searchedTo hroom
    refine ⟨hroom, ?_⟩
    cases hnext : cfg.framing.next (c.buffer.data ++ bytes) with
    | none =>
      have hsplit := splitPackageByEof_of_none hto hnext
      exact not_lt.mp fun hbig => by simp [splitPackageByEof_eq_none.mpr hbig] at hsplit
    | some n =>
      rw [stackCopy_of_some hto hnext]
      have hbig : bufferSize ≤ bufferSizeBig := by decide
      exact ((h hact).length_remainder_le hnext).trans (hlen.trans hbig)
  · trivial

/-- **What a split copies fits the stack buffer** along every run, for any marker, any
`package_max_length`, any stream and any answers of the kernel: one `recv` brings at most
`SW_BUFFER_SIZE` bytes, and what stays behind the last marker is among them. -/
theorem eachStep_stackFits (cfg : EofSettings) (fresh : ℕ → UInt8) (stream : Bytes)
    (answers : List RecvAnswer) :
    EachStep cfg.reader cfg.StackFits (.init fresh stream) answers :=
  eachStep_of_invariant (P := fun c => c.status = .active → cfg.Unfinished c.buffer)
    (B := fun _ => True) (fun _ a _ h => Unfinished.stackFits h a)
    (fun _ a _ h _ => unfinished_reader a h) answers (fun _ _ => trivial)
    (fun _ => ⟨cfg.framing.next_nil, .inl rfl⟩)

end Stack

/-! ## A marker cut in two, and a package of 2.5 GiB -/

/-- A stream whose marker arrives in two pieces. -/
theorem inStep_split_marker :
    let cfg : EofSettings := ⟨[13, 10], 2097152, 4096, by decide, by decide, by decide⟩
    let stream : Bytes := [97, 98, 13, 10, 99]
    cfg.InStep stream
      (run cfg.reader (.init (fun _ => 0) stream) [.deliver 2, .fail .eintr, .deliver 5]) := by
  intro cfg stream
  have hfirst : cfg.framing.next stream = some 4 := by decide
  have hrest : cfg.framing.next (stream.drop 4) = none := by decide
  have hshort : cfg.PackagesShort stream := by
    unfold PackagesShort
    rw [cfg.framing.frames_of_some hfirst, cfg.framing.frames_of_none hrest]
    decide
  have hbenign : ∀ a ∈ [RecvAnswer.deliver 2, .fail .eintr, .deliver 5], a.Benign := by decide
  exact (inStep_iff_eachStep_fits cfg _ stream _ hshort hbenign).mpr
    (eachStep_fits_of_maxLength_le (by decide) (by decide) hshort _ hbenign)

section Grown

theorem lineFeed_ne : ([10] : Bytes) ≠ [] := by decide

theorem lineFeed_le : ([10] : Bytes).length ≤ dataEofMaxlen := by decide

/-- Packages of up to 3 GB, ended by a line feed. -/
def grownSettings : EofSettings :=
  ⟨[10], 3000000000, 4096, lineFeed_ne, lineFeed_le, by decide⟩

/-- The sizes a buffer of such a port goes through, up to the last that fits. -/
def grownSizes : List ℕ :=
  [8180, 16384, 36864, 77824, 159744, 323584, 651264, 1306624, 2617344, 5238784, 10481664,
    20967424, 41938944, 83881984, 167768064, 335540224, 671084544, 1342173184, 2684350464]

theorem extendSize_mem_grownSizes : ∀ size ∈ grownSizes,
    size < grownSettings.protocol.extendSize 4096 size →
      grownSettings.protocol.extendSize 4096 size ∈ grownSizes := by
  decide +kernel

theorem size_reader_mem (c : ReadConn) (a : RecvAnswer) (h : c.buffer.size ∈ grownSizes) :
    (grownSettings.reader c a).buffer.size ∈ grownSizes := by
  rcases @sizeStep_readTurnEof grownSettings.pagesize grownSettings.protocol c a with
    heq | ⟨hlt, heq⟩
  · exact heq ▸ h
  · exact heq ▸ extendSize_mem_grownSizes _ h hlt

theorem next_replicate (n : ℕ) : grownSettings.framing.next (replicate n 65) = none := by
  refine (terminated_next_eq_none grownSettings.eof_ne).mpr fun j hocc => ?_
  have hmem : (10 : UInt8) ∈ (replicate n 65).drop j :=
    List.IsPrefix.subset hocc (mem_singleton.mpr rfl)
  have heq := eq_of_mem_replicate (mem_of_mem_drop hmem)
  exact absurd heq (by decide)

theorem frames_replicate (n : ℕ) :
    grownSettings.framing.frames (replicate n 65) = ([], replicate n 65) :=
  Framing.frames_of_none _ (next_replicate n)

/-- A step after which the connection is served has taken a byte off the stream, if there was
one. -/
theorem length_wire_reader_le (c : ReadConn) (limit : ℕ) :
    (grownSettings.reader c (.deliver limit)).status = .active →
      (grownSettings.reader c (.deliver limit)).wire.length ≤ c.wire.length - 1 := by
  refine @ReadConn.turn_rule c eofRequest _ _ (fun c' => c'.status = .active → c'.wire.length ≤ _)
    (fun hc hact => absurd hact hc) (fun e wire _ _ hrecv _ => ?_)
    (fun _ _ hended hact => absurd hact hended) (fun bytes wire hroom _ hrecv hne _ => ?_)
  · -- nothing to deliver means that nothing is left
    have hwire : c.wire = [] := by
      cases hwire : c.wire with
      | nil => rfl
      | cons b bs =>
        rw [hwire] at hrecv
        unfold recv at hrecv
        split_ifs at hrecv <;> cases hrecv
    simp [hwire]
  · have hlen := congrArg length (recv_data hrecv).1
    have hpos := length_pos_iff.mpr hne
    rw [wire_receivedEof]
    show wire.length ≤ c.wire.length - 1
    rw [length_append] at hlen
    omega

/-- A connection that is served at the end of a run has got one byte a step. -/
theorem length_wire_run_le (limit : ℕ) : ∀ (steps : ℕ) (c : ReadConn),
    (run grownSettings.reader c (replicate steps (.deliver limit))).status = .active →
      (run grownSettings.reader c (replicate steps (.deliver limit))).wire.length ≤
        c.wire.length - steps := by
  intro steps
  induction steps with
  | zero => exact fun _ _ => le_rfl
  | succ steps ih =>
    intro c hact
    have hle := ih _ hact
    have hstep := length_wire_reader_le c limit
    by_cases hnext : (grownSettings.reader c (.deliver limit)).status = .active
    · have := hstep hnext
      refine le_trans hle ?_
      omega
    · -- a connection that is given up stays so
      refine absurd hact (run_invariant (P := fun c : ReadConn => c.status ≠ .active)
        (fun c a hc => ?_) (replicate steps (RecvAnswer.deliver limit)) hnext)
      unfold EofSettings.reader
      rwa [readTurnEof_eq, ReadConn.turn_of_not_active hc]

theorem not_inStep_of_grown (hlarge : 2684350464 < n) (hmax : n < 3000000000) :
    grownSettings.PackagesShort (replicate n 65) ∧
      ¬ grownSettings.InStep (replicate n 65)
        (run grownSettings.reader (.init (fun _ => 0) (replicate n 65))
          (replicate n (.deliver 8179))) := by
  have hmaxLength : grownSettings.protocol.maxLength = 3000000000 := by decide
  constructor
  · unfold PackagesShort
    rw [frames_replicate, hmaxLength]
    refine ⟨by simp, ?_⟩
    rw [length_replicate]
    exact hmax
  · rintro ⟨hact, -, hdata⟩
    -- everything has arrived, nothing was passed on, and the buffer is too small for it
    have hwire := length_wire_run_le 8179 n (.init (fun _ => 0) (replicate n 65)) hact
    have hmem := run_invariant (P := fun c : ReadConn => c.buffer.size ∈ grownSizes)
      size_reader_mem (replicate n (.deliver 8179))
      (s := .init (fun _ => 0) (replicate n 65)) (by decide : bufferSize ∈ grownSizes)
    have hlast : ∀ size ∈ grownSizes, size ≤ 2684350464 := by decide
    have hsize := hlast _ hmem
    generalize run grownSettings.reader (.init (fun _ => 0) (replicate n 65))
      (replicate n (.deliver 8179)) = c at *
    have hle := c.buffer.length_le
    change _ ≤ (replicate n (65 : UInt8)).length - n at hwire
    rw [hdata, arrived, take_replicate, frames_replicate] at hle
    simp only [length_replicate] at hle hwire
    omega

/-- One package of 2684350465 bytes under a limit of 3 GB: when the buffer of
2684350464 bytes is full, the size it should grow to is cut to 32 bits, comes out
smaller, and the assertion in `swString_extend` fails. -/
theorem not_inStep_grown_buffer :
    grownSettings.PackagesShort (replicate 2684350465 65) ∧
      ¬ grownSettings.InStep (replicate 2684350465 65)
        (run grownSettings.reader (.init (fun _ => 0) (replicate 2684350465 65))
          (replicate 2684350465 (.deliver 8179))) :=
  not_inStep_of_grown (by decide) (by decide)

end Grown

end EofSettings

end Swoole
