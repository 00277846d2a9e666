import Swoole.Protocol.ReadConn
import Swoole.Protocol.Settings

/-!
# The EOF reader

`swProtocol_recv_check_eof` reads one connection of a port whose packages end with
a marker.  It receives at most `SW_BUFFER_SIZE` bytes at a time behind what it has
and then looks for the marker: with `split_by_eof` anywhere in the bytes that may
hold a new one, otherwise only at their very end.

`splitPackageByEof` is `swProtocol_split_package_by_eof`.  It passes on the buffer
up to the first marker and then every further piece, and moves what is left to the
front through a buffer on the stack.  When no marker is found it remembers in
`offset` how far it has searched, less one marker length.

A full buffer is grown.  Its new size is computed as a `size_t` and stored in a
`uint32_t`.  The number of bytes to ask for is an `int` that is compared with a
`size_t`: a room of 2 GiB or more is negative as an `int`, but large again in the
comparison.  All these conversions are part of the model.
-/

namespace Swoole

open List

/-- `SW_DATA_EOF_MAXLEN`. -/
def dataEofMaxlen : ℕ := 8

namespace Protocol

/-! ## Splitting -/

/-- The loop over the bytes behind the first package: the pieces passed on and what
is left.  Every round takes at least one byte, so the length of the data bounds the
number of rounds. -/
def splitRemaining (eof : Bytes) : ℕ → Bytes → List Bytes × Bytes
  | 0, remaining => ([], remaining)
  | rounds + 1, remaining =>
    match strnpos remaining eof with
    | none => ([], remaining)
    | some eofPos =>
      let length := eofPos + eof.length
      let rest := splitRemaining eof rounds (remaining.drop length)
      (remaining.take length :: rest.1, rest.2)

theorem flatten_splitRemaining (eof : Bytes) : ∀ (rounds : ℕ) (remaining : Bytes),
    (splitRemaining eof rounds remaining).1.flatten ++ (splitRemaining eof rounds remaining).2 =
      remaining := by
  intro rounds
  induction rounds with
  | zero => exact fun _ => rfl
  | succ rounds ih =>
    intro remaining
    unfold splitRemaining
    cases strnpos remaining eof with
    | none => rfl
    | some eofPos => simp [ih]

theorem length_splitRemaining_le (eof : Bytes) (rounds : ℕ) (remaining : Bytes) :
    (splitRemaining eof rounds remaining).2.length ≤ remaining.length := by
  have hlen := congrArg length (flatten_splitRemaining eof rounds remaining)
  rw [length_append] at hlen
  omega

theorem length_le_of_mem_splitRemaining {eof : Bytes} {rounds : ℕ} {remaining data : Bytes}
    (h : data ∈ (splitRemaining eof rounds remaining).1) : data.length ≤ remaining.length := by
  have hlen := congrArg length (flatten_splitRemaining eof rounds remaining)
  have hle := (sublist_flatten_of_mem h).length_le
  rw [length_append] at hlen
  omega

/-- `swProtocol_split_package_by_eof`: the packages passed on, the buffer left and
the value returned; `none` when what is left overruns `stack_buf`. -/
def splitPackageByEof (eof : Bytes) (buffer : SwString) :
    Option (List Bytes × SwString × ℕ) :=
  match strnpos (buffer.data.drop buffer.offset) eof with
  | none =>
    some ([], { buffer with offset := buffer.data.length - eof.length }, buffer.data.length)
  | some eofPos =>
    let length := buffer.offset + eofPos + eof.length
    if length < buffer.data.length then
      let rest := splitRemaining eof buffer.data.length (buffer.data.drop length)
      if rest.2.length ≤ bufferSizeBig then
        some (buffer.data.take length :: rest.1,
          { buffer.setData rest.2 (le_trans (length_splitRemaining_le _ _ _)
              (le_trans (by rw [List.length_drop]; omega) buffer.length_le)) with
            offset := 0 },
          rest.2.length)
      else none
    else some ([buffer.data.take length], buffer.clear, 0)

/-- The number of bytes a split copies into `stack_buf`. -/
def stackCopy (eof : Bytes) (buffer : SwString) : ℕ :=
  match strnpos (buffer.data.drop buffer.offset) eof with
  | none => 0
  | some eofPos =>
    let length := buffer.offset + eofPos + eof.length
    if length < buffer.data.length then
      (splitRemaining eof buffer.data.length (buffer.data.drop length)).2.length
    else 0

theorem splitPackageByEof_eq_none {eof : Bytes} {buffer : SwString} :
    splitPackageByEof eof buffer = none ↔ bufferSizeBig < stackCopy eof buffer := by
  unfold splitPackageByEof stackCopy
  cases strnpos (buffer.data.drop buffer.offset) eof with
  | none => simp
  | some eofPos =>
    simp only
    split
    · split
      · simp [not_lt.mpr ‹_›]
      · simp [not_le.mp ‹_›]
    · simp

/-! ## Receiving -/

section Reader

variable (pagesize : ℕ) (p : Protocol)

/-- `buf_size`, as `recv` gets it; `SW_BUFFER_SIZE` is a `size_t`. -/
def eofRequest (buffer : SwString) : ℕ :=
  let bufSize := toInt32 (buffer.size - buffer.data.length)
  if bufferSize < toSizeT bufSize then bufferSize else toSizeT bufSize

/-- `extend_size`, for a buffer of `size` bytes. -/
def extendSize (size : ℕ) : ℕ :=
  let extendSize := sizeAlign (size * 2) pagesize % 2 ^ 32
  if p.maxLength < extendSize then p.maxLength else extendSize

/-- What follows when no package ended with the bytes just received: give up, grow
the buffer, or go on. -/
def growOrReturn (recvAgain : Bool) (c : ReadConn) : ReadConn × Next Ret :=
  if c.buffer.data.length = p.maxLength then (c, .ret .err)
  else if c.buffer.data.length = c.buffer.size then
    if c.buffer.size < p.maxLength then
      match c.buffer.extend (p.extendSize pagesize c.buffer.size) with
      | none => ({ c with status := .broken }, .ret .ok)
      | some buffer => ({ c with buffer := buffer }, .again)
    else (c, .again)
  else if recvAgain then (c, .again)
  else (c, .ret .ok)

/-- What follows a `recv` that stored some bytes.  What `onPackage` returns is not
looked at. -/
def receivedEof (c : ReadConn) : ReadConn × Next Ret :=
  if c.buffer.data.length < p.packageEof.length then (c, .ret .ok)
  else if p.splitByEof then
    match splitPackageByEof p.packageEof c.buffer with
    | none => ({ c with status := .broken }, .ret .ok)
    | some (packages, buffer, value) =>
      let c' := { c with buffer := buffer, packages := c.packages ++ packages }
      if value = 0 then (c', .ret .ok) else p.growOrReturn pagesize true c'
  else if c.buffer.data.drop (c.buffer.data.length - p.packageEof.length) = p.packageEof then
    ({ c with buffer := c.buffer.clear, packages := c.packages ++ [c.buffer.data] }, .ret .ok)
  else p.growOrReturn pagesize false c

/-- `swProtocol_recv_check_eof` from one `recv` to the next, or to its return. -/
def recvCheckEof : ReadConn → RecvAnswer → ReadConn × Next Ret :=
  ReadConn.recvThen eofRequest (p.receivedEof pagesize)

/-- `swPort_onRead_check_eof`: only an active connection has read events. -/
def onReadCheckEof : Resumable ReadConn RecvAnswer Ret where
  step c a :=
    if c.status = .active then p.recvCheckEof pagesize c a else (c, .ret .ok)
  settle := ReadConn.settle

/-- What one answer of the kernel makes of a connection. -/
abbrev readTurnEof : ReadConn → RecvAnswer → ReadConn := (p.onReadCheckEof pagesize).turn

end Reader

/-! ## What one answer can do -/

section Turn

variable {pagesize : ℕ} {p : Protocol} {c : ReadConn} {a : RecvAnswer}

/-- The reader asks for at most `SW_BUFFER_SIZE` bytes, and for no more than there is
room for. -/
theorem eofRequest_le (buffer : SwString) :
    eofRequest buffer ≤ buffer.size - buffer.data.length ∧ eofRequest buffer ≤ bufferSize := by
  have hle := buffer.length_le
  unfold eofRequest toSizeT toInt32 bufferSize ipcMaxSize dataHeadSize
  simp only [Int.bmod]
  split <;> split <;> omega

theorem extendSize_le (size : ℕ) : p.extendSize pagesize size ≤ p.maxLength := by
  unfold extendSize
  simp only
  split <;> omega

theorem readTurnEof_eq : p.readTurnEof pagesize c a =
    (ReadConn.onRead eofRequest (p.receivedEof pagesize)).turn c a := rfl

/-! ### What follows a `recv` -/

/-- A buffer of `size` bytes keeps its size or gets the next one. -/
def SizeStep (pagesize : ℕ) (p : Protocol) (size size' : ℕ) : Prop :=
  size' = size ∨ size < p.extendSize pagesize size ∧ size' = p.extendSize pagesize size

theorem settled_growOrReturn (recvAgain : Bool) (c : ReadConn) :
    ∃ status buffer,
      ReadConn.settled (p.growOrReturn pagesize recvAgain c) =
          { c with status := status, buffer := buffer } ∧
        SizeStep pagesize p c.buffer.size buffer.size ∧ buffer.data = c.buffer.data ∧
        buffer.offset = c.buffer.offset := by
  unfold growOrReturn
  split
  · exact ⟨_, _, rfl, .inl rfl, rfl, rfl⟩
  split
  · split
    · by_cases hlt : c.buffer.size < p.extendSize pagesize c.buffer.size
      · obtain ⟨buffer, hextend, hdata, -, hsize, hoffset⟩ := c.buffer.extend_of_lt hlt
        rw [hextend]
        exact ⟨_, buffer, rfl, .inr ⟨hlt, hsize⟩, hdata, hoffset⟩
      · rw [c.buffer.extend_of_not_lt hlt]
        exact ⟨_, _, rfl, .inl rfl, rfl, rfl⟩
    · exact ⟨_, _, rfl, .inl rfl, rfl, rfl⟩
  · split <;> exact ⟨_, _, rfl, .inl rfl, rfl, rfl⟩

/-- A split keeps the block, and a package that is split off lies inside. -/
theorem splitPackageByEof_size {eof : Bytes} {buffer buffer' : SwString} {packages : List Bytes}
    {value : ℕ} (h : splitPackageByEof eof buffer = some (packages, buffer', value)) :
    buffer'.size = buffer.size ∧ ∀ data ∈ packages, data.length ≤ buffer.size := by
  have hsize := buffer.length_le
  unfold splitPackageByEof at h
  split at h
  · cases h
    exact ⟨rfl, nofun⟩
  · simp only at h
    split at h
    · split at h
      · cases h
        refine ⟨rfl, forall_mem_cons.mpr ⟨?_, fun data hdata => ?_⟩⟩
        · rw [length_take]
          omega
        · have hle := length_le_of_mem_splitRemaining hdata
          rw [length_drop] at hle
          omega
      · cases h
    · cases h
      refine ⟨rfl, forall_mem_singleton.mpr ?_⟩
      rw [length_take]
      omega

/-- What follows a `recv` takes nothing more off the stream, and what it hands over lies in the
buffer. -/
theorem settled_receivedEof (c : ReadConn) :
    ∃ status buffer packages,
      ReadConn.settled (p.receivedEof pagesize c) =
          { c with status := status, buffer := buffer, packages := c.packages ++ packages } ∧
        SizeStep pagesize p c.buffer.size buffer.size ∧
        ∀ data ∈ packages, data.length ≤ c.buffer.size := by
  unfold receivedEof
  split
  · exact ⟨_, _, [], by rw [append_nil]; rfl, .inl rfl, nofun⟩
  split
  · split
    · exact ⟨.broken, _, [], by rw [append_nil]; rfl, .inl rfl, nofun⟩
    · next packages buffer value hsplit =>
      obtain ⟨hsize, hle⟩ := splitPackageByEof_size hsplit
      simp only
      split
      · exact ⟨_, buffer, packages, rfl, .inl hsize, hle⟩
      · obtain ⟨status, buffer', heq, hstep, -⟩ := @settled_growOrReturn pagesize p true
          { c with buffer := buffer, packages := c.packages ++ packages }
        exact ⟨status, buffer', packages, heq, hsize ▸ hstep, hle⟩
  split
  · exact ⟨_, _, [c.buffer.data], rfl, .inl rfl, forall_mem_singleton.mpr c.buffer.length_le⟩
  · obtain ⟨status, buffer, heq, hstep, -⟩ := @settled_growOrReturn pagesize p false c
    exact ⟨status, buffer, [], by rw [heq, append_nil], hstep, nofun⟩

theorem wire_receivedEof (c : ReadConn) :
    (ReadConn.settled (p.receivedEof pagesize c)).wire = c.wire := by
  obtain ⟨status, buffer, packages, heq, -⟩ := @settled_receivedEof pagesize p c
  rw [heq]

/-- One answer of the kernel makes the buffer grow by one step at most, and hands over parts
of it. -/
theorem packages_readTurnEof (c : ReadConn) (a : RecvAnswer) :
    SizeStep pagesize p c.buffer.size (p.readTurnEof pagesize c a).buffer.size ∧
      ∃ packages, (p.readTurnEof pagesize c a).packages = c.packages ++ packages ∧
        ∀ data ∈ packages, data.length ≤ c.buffer.size := by
  refine @ReadConn.turn_rule c eofRequest _ a
    (fun c' => SizeStep pagesize p c.buffer.size c'.buffer.size ∧
      ∃ packages, c'.packages = c.packages ++ packages ∧
        ∀ data ∈ packages, data.length ≤ c.buffer.size)
    (fun _ => ⟨.inl rfl, [], by simp⟩) (fun _ _ _ _ _ => ⟨.inl rfl, [], by simp⟩)
    (fun _ _ _ => ⟨.inl rfl, [], by simp⟩) (fun bytes wire hroom _ _ _ => ?_)
  obtain ⟨status, buffer, packages, heq, hstep, hle⟩ :=
    @settled_receivedEof pagesize p (c.stored bytes wire hroom)
  rw [heq]
  exact ⟨hstep, packages, rfl, hle⟩

theorem sizeStep_readTurnEof (c : ReadConn) (a : RecvAnswer) :
    SizeStep pagesize p c.buffer.size (p.readTurnEof pagesize c a).buffer.size :=
  (packages_readTurnEof c a).1

end Turn

end Protocol

end Swoole
