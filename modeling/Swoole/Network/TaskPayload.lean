import Swoole.Core.Int
import Swoole.Core.Socket
import Swoole.Library.ByteMemory

/-!
# The payload of a task

A task, its result and a message between workers are sent as a `swEventData`.  A payload that does
not fit is written to a temporary file, and only the name of the file and the length are sent.  The
receiver allocates a buffer of this length and reads the file into it.

The file is written and read piece by piece, and both loops stop at the first call of `write` or
`read` that moves nothing.  They return how much was moved, but nobody compares this with the
length: more than nothing counts as success.  Of a payload that was cut short the receiver gets the
beginning, and behind it whatever the new buffer happens to hold.

The answers of the kernel are parameters.  `got` is what a call moves if there is enough to move,
nothing if it fails.
-/

namespace Swoole

open List

/-- The room for data in a `swEventData`, `SW_IPC_MAX_SIZE - sizeof(swDataHead)`. -/
def ipcRoom : ℕ := 8192 - 12

/-- `SW_FILE_CHUNK_SIZE`. -/
def fileChunkSize : ℕ := 65536

/-- The answers of the kernel to one transfer: whether `swoole_tmpfile`, the dispatch of the
message and `open` succeed, and what each `write` and `read` returns, `none` being an error. -/
structure TransferAnswers where
  tmpfile : Bool
  writes : ℕ → Option ℕ
  sent : Bool
  opened : Bool
  reads : ℕ → Option ℕ

/-- A `swEventData`: the data itself, or a `swPackage_task`. -/
inductive TaskMessage where
  | inline (data : Bytes)
  | tmpfile (length : ℤ)
  deriving DecidableEq, Repr

/-- What becomes of a transfer. -/
inductive TransferOutcome where
  /-- The sender reports a failure. -/
  | refused
  /-- The receiver reports a failure. -/
  | failed
  | delivered (data : Bytes)
  /-- An `int` has overflowed. -/
  | undefined
  deriving DecidableEq, Repr

namespace TaskPayload

/-! ## The file -/

section

variable (answers : ℕ → Option ℕ)

/-- What call `k` moves, of at most `SW_FILE_CHUNK_SIZE` bytes; nothing if it fails. -/
def moved (k count : ℕ) (data : Bytes) : ℕ :=
  min ((answers k).getD 0) (min (min count fileChunkSize) data.length)

/-- The loop that `swoole_sync_writefile` and `swoole_sync_readfile` have in common, for the rounds
that are left, from call `k` on: `count` bytes are asked for, and `data` is there to be moved.  It
gives the bytes that are moved. -/
def chunkLoop : ℕ → ℕ → ℕ → Bytes → Bytes
  | 0, _, _, _ => []
  | rounds + 1, k, count, data =>
    if count = 0 then []
    else if moved answers k count data = 0 then []
    else
      data.take (moved answers k count data) ++
        chunkLoop rounds (k + 1) (count - moved answers k count data)
          (data.drop (moved answers k count data))

/-- `swoole_sync_writefile`: what it writes. -/
def syncWritefile (data : Bytes) (len : ℤ) : Bytes := chunkLoop answers len.toNat 0 len.toNat data

/-- `swoole_sync_readfile`: what it reads. -/
def syncReadfile (file : Bytes) (len : ℤ) : Bytes := chunkLoop answers len.toNat 0 len.toNat file

end

/-! ## The transfer -/

variable (a : TransferAnswers)

/-- `swTaskWorker_large_pack`: the message and the file. -/
def largePack (data : Bytes) (dataLen : ℤ) : Option (TaskMessage × Bytes) :=
  if a.tmpfile = false then none
  else
    let file := syncWritefile a.writes data dataLen
    if file.length = 0 then none else some (.tmpfile dataLen, file)

/-- The sender, as in `swTaskWorker_finish` or in the method `task`; the length is an `int` that is
compared with a `size_t`. -/
def pack (payload : Bytes) : Option (TaskMessage × Bytes) :=
  let dataLen := toInt32 payload.length
  if ipcRoom ≤ toSizeT dataLen then largePack a payload dataLen
  else some (.inline (payload.take dataLen.toNat), [])

/-- `swTaskWorker_large_unpack`, into a buffer that holds what is on the heap. -/
def largeUnpack (heap : ByteMemory) (length : ℤ) (file : Bytes) : TransferOutcome :=
  if 2 ^ 31 ≤ length + 1 then .undefined
  else if a.opened = false then .failed
  else
    let read := syncReadfile a.reads file length
    if 0 < read.length then .delivered ((heap.store 0 read).load 0 length.toNat) else .failed

/-- The receiver of a message. -/
def receive (heap : ByteMemory) (message : TaskMessage) (file : Bytes) : TransferOutcome :=
  match message with
  | .inline data => .delivered data
  | .tmpfile length => largeUnpack a heap length file

/-- What becomes of a message, if there is one. -/
def dispatch (heap : ByteMemory) (packed : Option (TaskMessage × Bytes)) : TransferOutcome :=
  match packed with
  | none => .refused
  | some (message, file) => if a.sent = false then .refused else receive a heap message file

/-- A payload goes from one process to the other. -/
def transfer (heap : ByteMemory) (payload : Bytes) : TransferOutcome :=
  dispatch a heap (pack a payload)

/-- **The contract**: a failure is reported, or the receiver gets the payload. -/
inductive Intact (payload : Bytes) : TransferOutcome → Prop
  | refused : Intact payload .refused
  | failed : Intact payload .failed
  | delivered : Intact payload (.delivered payload)

/-- It holds whatever the receiver's heap contains. -/
def AlwaysIntact (payload : Bytes) : Prop := ∀ heap, Intact payload (transfer a heap payload)

variable {data payload : Bytes}

theorem intact_delivered_iff : Intact payload (.delivered data) ↔ data = payload := by
  constructor
  · intro h
    cases h
    rfl
  · rintro rfl
    exact .delivered

theorem not_intact_undefined : ¬ Intact payload .undefined := nofun

/-! ## The condition -/

/-- What call `k` moves, if there is enough to be moved. -/
def got (answers : ℕ → Option ℕ) (k : ℕ) : ℕ := min ((answers k).getD 0) fileChunkSize

/-- From call `k` on, the calls move `n` bytes before one of them moves nothing. -/
inductive Takes (answers : ℕ → Option ℕ) : ℕ → ℕ → Prop
  | done (k : ℕ) : Takes answers k 0
  | more (k n : ℕ) : 0 < got answers k → Takes answers (k + 1) (n - got answers k) →
      Takes answers k n

/-- **The condition** for a payload of `n` bytes.  It fits the message; or it does not, and some
call fails in a way that is noticed, or the file is written and read as a whole. -/
def Handled (n : ℕ) : Prop :=
  a.sent = false ∨
    if ipcRoom ≤ toSizeT (toInt32 n) then
      a.tmpfile = false ∨ toInt32 n ≤ 0 ∨ got a.writes 0 = 0 ∨
        toInt32 n + 1 < 2 ^ 31 ∧ (a.opened = false ∨ got a.reads 0 = 0 ∨
          n < 2 ^ 31 ∧ Takes a.writes 0 n ∧ Takes a.reads 0 n)
    else n < 2 ^ 31

variable {k m : ℕ}

theorem Takes.piece {answers : ℕ → Option ℕ} {n g : ℕ} (hgot : got answers k = g) (hpos : 0 < g)
    (hrest : n - g = m) (h : Takes answers (k + 1) m) : Takes answers k n := by
  subst hgot hrest
  exact .more k n hpos h

/-! ## The loop -/

section loop

variable {answers : ℕ → Option ℕ}

theorem moved_eq {count : ℕ} (hdata : count ≤ data.length) :
    moved answers k count data = min (got answers k) count := by
  unfold moved got
  omega

theorem moved_eq_zero_iff {count : ℕ} (hcount : 0 < count) (hdata : 0 < data.length) :
    moved answers k count data = 0 ↔ got answers k = 0 := by
  unfold moved got
  omega

theorem isPrefix_chunkLoop (rounds k count : ℕ) (data : Bytes) :
    chunkLoop answers rounds k count data <+: data := by
  induction rounds generalizing k count data with
  | zero => exact nil_prefix
  | succ rounds ih =>
    rw [chunkLoop]
    split_ifs with hcount hn
    · exact nil_prefix
    · exact nil_prefix
    · obtain ⟨rest, hrest⟩ := ih (k + 1) (count - _) (data.drop _)
      exact ⟨rest, by rw [append_assoc, hrest, take_append_drop]⟩

theorem length_chunkLoop_le (rounds k count : ℕ) (data : Bytes) :
    (chunkLoop answers rounds k count data).length ≤ count := by
  induction rounds generalizing k count data with
  | zero => exact Nat.zero_le _
  | succ rounds ih =>
    rw [chunkLoop]
    split_ifs with hcount hn
    · exact Nat.zero_le _
    · exact Nat.zero_le _
    · have hrest := ih (k + 1) (count - moved answers k count data)
        (data.drop (moved answers k count data))
      have hle : moved answers k count data ≤ count := by
        unfold moved
        omega
      rw [length_append, length_take]
      omega

theorem chunkLoop_eq_nil_iff {rounds count : ℕ} (hrounds : 0 < rounds) (hcount : 0 < count)
    (hdata : 0 < data.length) :
    (chunkLoop answers rounds k count data).length = 0 ↔ got answers k = 0 := by
  obtain ⟨rounds, rfl⟩ : ∃ r, rounds = r + 1 := ⟨rounds - 1, by omega⟩
  rw [chunkLoop, if_neg (ne_of_gt hcount), ← moved_eq_zero_iff hcount hdata]
  split_ifs with hn
  · exact ⟨fun _ => hn, fun _ => rfl⟩
  · refine ⟨fun h => ?_, fun h => absurd h hn⟩
    rw [length_append, length_take] at h
    omega

theorem length_chunkLoop_eq_iff {rounds k count : ℕ} {data : Bytes} (hrounds : count ≤ rounds)
    (hdata : count ≤ data.length) :
    (chunkLoop answers rounds k count data).length = count ↔ Takes answers k count := by
  induction rounds generalizing k count data with
  | zero =>
    obtain rfl : count = 0 := by omega
    exact ⟨fun _ => .done k, fun _ => rfl⟩
  | succ rounds ih =>
    rw [chunkLoop]
    by_cases hcount : count = 0
    · rw [if_pos hcount, hcount]
      exact ⟨fun _ => .done k, fun _ => rfl⟩
    · rw [if_neg hcount, moved_eq hdata]
      by_cases hgot : got answers k = 0
      · -- the call fails, and that is the end of it
        rw [hgot, Nat.zero_min, if_pos rfl]
        refine ⟨fun h => absurd h.symm hcount, fun h => ?_⟩
        cases h with
        | done => exact absurd rfl hcount
        | more _ _ hpos => omega
      · rw [if_neg (by omega), length_append, length_take]
        have hrest := @ih (k + 1) (count - min (got answers k) count)
          (data.drop (min (got answers k) count)) (by omega)
          (by rw [length_drop]; omega)
        have hsub : count - min (got answers k) count = count - got answers k := by omega
        constructor
        · intro h
          refine .more k count (Nat.pos_of_ne_zero hgot) (hsub ▸ hrest.mp ?_)
          omega
        · intro h
          cases h with
          | done => exact absurd rfl hcount
          | more _ _ _ htakes =>
            have hfull := hrest.mpr (hsub.symm ▸ htakes)
            omega

end loop

/-! ## The transfer of a payload -/

theorem toNat_toInt32_le (n : ℕ) : (toInt32 n).toNat ≤ n := by
  by_cases hn : n < 2 ^ 31
  · rw [toInt32_natCast hn]
    exact Nat.le_refl n
  · have := (toInt32_bounds n).2
    omega

/-- A buffer into which the beginning of the payload was read is the payload, whatever it held
before, only if nothing is missing. -/
theorem forall_heap_iff {read : Bytes} (hread : read <+: payload) (n : ℕ) :
    (∀ heap : ByteMemory, (heap.store 0 read).load 0 n = payload) ↔
      n = payload.length ∧ read.length = payload.length := by
  constructor
  · intro h
    have hn : n = payload.length := by
      rw [← h fun _ => 0, ByteMemory.length_load]
    refine ⟨hn, le_antisymm hread.length_le (Nat.le_of_not_lt fun hlt => ?_)⟩
    -- the first byte that is missing is not the one of every buffer
    have : Nontrivial UInt8 := ⟨0, 1, by decide⟩
    obtain ⟨b, hb⟩ : ∃ b, b ≠ payload.get ⟨read.length, hlt⟩ := exists_ne _
    let heap : ByteMemory := fun _ => b
    have hold : heap.store 0 read read.length = b :=
      ByteMemory.store_of_outside (.inr (le_of_eq (zero_add _)))
    have hbyte := congrArg (fun bytes : Bytes => bytes[read.length]?) (h heap)
    rw [getElem?_eq_getElem hlt] at hbyte
    simp only [ByteMemory.load, getElem?_map, hn, getElem?_range hlt, Option.map_some,
      Option.some.injEq, zero_add, hold] at hbyte
    exact hb hbyte
  · rintro ⟨rfl, hlen⟩ heap
    obtain rfl : read = payload := hread.eq_of_length hlen
    exact ByteMemory.load_store_self

variable {a}

/-- What the receiver has read is the payload just when the file was written and read as a
whole. -/
theorem length_read_eq_iff : (chunkLoop a.reads payload.length 0 payload.length
        (chunkLoop a.writes payload.length 0 payload.length payload)).length = payload.length ↔
      Takes a.writes 0 payload.length ∧ Takes a.reads 0 payload.length := by
  have hwrite := @length_chunkLoop_eq_iff a.writes payload.length 0 payload.length payload
    (le_rfl) (le_rfl)
  have hle := @length_chunkLoop_le a.writes payload.length 0 payload.length payload
  have hfile := (@isPrefix_chunkLoop a.reads payload.length 0 payload.length
    (chunkLoop a.writes payload.length 0 payload.length payload)).length_le
  constructor
  · intro h
    have hfull : (chunkLoop a.writes payload.length 0 payload.length payload).length =
        payload.length := by omega
    exact ⟨hwrite.mp hfull, (length_chunkLoop_eq_iff (le_rfl) (le_of_eq hfull.symm)).mp h⟩
  · rintro ⟨htaken, hread⟩
    have hfull := hwrite.mpr htaken
    exact (length_chunkLoop_eq_iff (le_rfl) (le_of_eq hfull.symm)).mpr hread

theorem largeUnpack_intact_iff {file : Bytes} (hm : 0 < m) (hfile : 0 < file.length)
    (hpre : file <+: payload) : (∀ heap, Intact payload (largeUnpack a heap m file)) ↔
      (m : ℤ) + 1 < 2 ^ 31 ∧ (a.opened = false ∨ got a.reads 0 = 0 ∨
        m = payload.length ∧ (syncReadfile a.reads file m).length = payload.length) := by
  have hnil : (syncReadfile a.reads file m).length = 0 ↔ got a.reads 0 = 0 :=
    chunkLoop_eq_nil_iff hm hm hfile
  have hread : syncReadfile a.reads file m <+: payload := (isPrefix_chunkLoop ..).trans hpre
  unfold largeUnpack
  by_cases hover : (2 : ℤ) ^ 31 ≤ m + 1
  · simp only [if_pos hover]
    exact ⟨fun h => (not_intact_undefined (h fun _ => 0)).elim,
      fun h => absurd h.1 (Int.not_lt.mpr hover)⟩
  have hlt := Int.lt_of_not_ge hover
  by_cases hopened : a.opened = false
  · simp only [if_neg hover, if_pos hopened]
    exact ⟨fun _ => ⟨hlt, .inl hopened⟩, fun _ _ => .failed⟩
  by_cases hgot : got a.reads 0 = 0
  · have hnone : ¬ 0 < (syncReadfile a.reads file m).length :=
      Nat.not_lt_of_le (le_of_eq (hnil.mpr hgot))
    simp only [if_neg hover, if_neg hopened, if_neg hnone]
    exact ⟨fun _ => ⟨hlt, .inr (.inl hgot)⟩, fun _ _ => .failed⟩
  · have hsome : 0 < (syncReadfile a.reads file m).length :=
      Nat.pos_of_ne_zero fun h => hgot (hnil.mp h)
    simp only [if_neg hover, if_neg hopened, if_pos hsome, intact_delivered_iff]
    refine (forall_heap_iff hread m).trans ⟨fun h => ⟨hlt, .inr (.inr h)⟩, fun h => ?_⟩
    exact (h.2.resolve_left hopened).resolve_left hgot

theorem inline_intact_iff (payload : Bytes) :
    payload.take (toInt32 payload.length).toNat = payload ↔ payload.length < 2 ^ 31 := by
  constructor
  · intro h
    have hlen := congrArg length h
    rw [length_take] at hlen
    have := (toInt32_bounds payload.length).2
    omega
  · intro h
    rw [toInt32_natCast h, Int.toNat_natCast, take_length]

theorem dispatch_of_not_sent (hsent : a.sent = false) (heap : ByteMemory)
    (packed : Option (TaskMessage × Bytes)) : dispatch a heap packed = .refused := by
  cases packed with
  | none => rfl
  | some packed => exact if_pos hsent

theorem dispatch_of_sent (hsent : a.sent ≠ false) (heap : ByteMemory) (message : TaskMessage)
    (file : Bytes) : dispatch a heap (some (message, file)) = receive a heap message file :=
  if_neg hsent

/-- A payload that is sent in a file, when its length is positive as an `int`. -/
theorem large_intact_iff (hm : 0 < m) (hlen : toInt32 payload.length = m) (hsent : a.sent ≠ false)
    (htmp : a.tmpfile ≠ false) :
    (∀ heap, Intact payload (dispatch a heap (largePack a payload m))) ↔
      got a.writes 0 = 0 ∨ (m : ℤ) + 1 < 2 ^ 31 ∧ (a.opened = false ∨ got a.reads 0 = 0 ∨
        payload.length < 2 ^ 31 ∧ Takes a.writes 0 payload.length ∧
          Takes a.reads 0 payload.length) := by
  have hle : m ≤ payload.length := by
    have := toNat_toInt32_le payload.length
    rwa [hlen, Int.toNat_natCast] at this
  have hnil : (syncWritefile a.writes payload m).length = 0 ↔ got a.writes 0 = 0 :=
    chunkLoop_eq_nil_iff hm hm (lt_of_lt_of_le hm hle)
  -- the length that is sent is the payload's just when that is an `int`
  have hint : m = payload.length ↔ payload.length < 2 ^ 31 := by
    constructor
    · intro h
      have := (toInt32_bounds payload.length).2
      omega
    · intro h
      rw [toInt32_natCast h] at hlen
      omega
  unfold largePack
  simp only [if_neg htmp]
  by_cases hgot : got a.writes 0 = 0
  · simp only [if_pos (hnil.mpr hgot), hgot, true_or, iff_true]
    exact fun _ => .refused
  · have hsome : (syncWritefile a.writes payload m).length ≠ 0 := fun h => hgot (hnil.mp h)
    simp only [if_neg hsome, or_iff_right hgot, dispatch_of_sent hsent, receive]
    rw [largeUnpack_intact_iff hm (Nat.pos_of_ne_zero hsome) (isPrefix_chunkLoop ..)]
    refine and_congr_right fun _ => or_congr_right (or_congr_right ?_)
    rw [hint]
    refine and_congr_right fun hlt => ?_
    obtain rfl := hint.mpr hlt
    exact length_read_eq_iff

/-- A payload whose length is not positive as an `int` leaves nothing to write. -/
theorem largePack_of_nonpos {dataLen : ℤ} (h : dataLen ≤ 0) :
    largePack a payload dataLen = none := by
  have hnothing : (syncWritefile a.writes payload dataLen).length = 0 := by
    rw [syncWritefile, Int.toNat_of_nonpos h]
    rfl
  simp only [largePack, hnothing, if_true, ite_self]

theorem pack_of_large (h : ipcRoom ≤ toSizeT (toInt32 payload.length)) :
    pack a payload = largePack a payload (toInt32 payload.length) := by
  unfold pack
  exact if_pos h

theorem pack_of_small (h : ¬ ipcRoom ≤ toSizeT (toInt32 payload.length)) :
    pack a payload = some (.inline (payload.take (toInt32 payload.length).toNat), []) := by
  unfold pack
  exact if_neg h

/-- **The payload of a task is delivered as it was sent, or a failure is reported, exactly under
the condition** `Handled`. -/
theorem intact_iff_handled (a : TransferAnswers) (payload : Bytes) :
    AlwaysIntact a payload ↔ Handled a payload.length := by
  unfold AlwaysIntact transfer Handled
  by_cases hsent : a.sent = false
  · simp only [dispatch_of_not_sent hsent, hsent, true_or, iff_true]
    exact fun _ => .refused
  rw [or_iff_right hsent]
  by_cases hlarge : ipcRoom ≤ toSizeT (toInt32 payload.length)
  · rw [if_pos hlarge, pack_of_large hlarge]
    by_cases htmp : a.tmpfile = false
    · have hrefused : largePack a payload (toInt32 payload.length) = none := if_pos htmp
      rw [hrefused]
      exact ⟨fun _ => .inl htmp, fun _ _ => .refused⟩
    rw [or_iff_right htmp]
    by_cases hpos : toInt32 payload.length ≤ 0
    · rw [largePack_of_nonpos hpos]
      exact ⟨fun _ => .inl hpos, fun _ _ => .refused⟩
    rw [or_iff_right hpos]
    obtain ⟨m, hm⟩ := Int.eq_ofNat_of_zero_le (Int.le_of_lt (Int.not_le.mp hpos))
    rw [hm] at hpos ⊢
    exact large_intact_iff (Int.natCast_pos.mp (Int.not_le.mp hpos)) hm hsent htmp
  · rw [if_neg hlarge, pack_of_small hlarge, ← inline_intact_iff payload]
    simp only [dispatch_of_sent hsent, receive, intact_delivered_iff]
    exact ⟨fun h => h fun _ => 0, fun h _ => h⟩

/-- A payload that does not fit, when its file is written and read as a whole. -/
theorem handled_of_takes {n : ℕ} (hlarge : ipcRoom ≤ n) (hlt : n + 1 < 2 ^ 31)
    (hwrites : Takes a.writes 0 n) (hreads : Takes a.reads 0 n) : Handled a n := by
  have hint : toInt32 n = n := toInt32_natCast (by omega)
  have hsize : toSizeT (n : ℤ) = n := toSizeT_natCast (by omega)
  unfold Handled
  rw [hint, hsize, if_pos hlarge]
  refine .inr (.inr (.inr (.inr ⟨by omega, .inr (.inr ?_)⟩)))
  exact ⟨by omega, hwrites, hreads⟩

/-- A payload of 10000 bytes that is written in two pieces and read in three. -/
theorem intact_in_pieces :
    let a : TransferAnswers := ⟨true, fun _ => some 6000, true, true, fun _ => some 4096⟩
    Handled a 10000 ∧ AlwaysIntact a (replicate 10000 7) := by
  intro a
  have hwrite : ∀ k, got a.writes k = 6000 := fun _ => rfl
  have hread : ∀ k, got a.reads k = 4096 := fun _ => rfl
  have hwrites : Takes a.writes 0 10000 :=
    .piece (hwrite 0) (by decide) rfl (.piece (hwrite 1) (by decide) rfl (.done 2))
  have hreads : Takes a.reads 0 10000 :=
    .piece (hread 0) (by decide) rfl
      (.piece (hread 1) (by decide) rfl (.piece (hread 2) (by decide) rfl (.done 3)))
  have hhandled : Handled a 10000 := handled_of_takes (by decide) (by decide) hwrites hreads
  have hlen : (replicate 10000 (7 : UInt8)).length = 10000 := length_replicate
  refine ⟨hhandled, (intact_iff_handled a _).mpr ?_⟩
  rw [hlen]
  exact hhandled

/-- The first piece is written, and the second `write` fails. -/
theorem syncWritefile_first_piece {answers : ℕ → Option ℕ} (hm : 1 < m) (hdata : m ≤ data.length)
    (hfirst : 0 < got answers 0) (hlt : got answers 0 < m) (hsecond : got answers 1 = 0) :
    syncWritefile answers data m = data.take (got answers 0) := by
  obtain ⟨rounds, rfl⟩ : ∃ r, m = r + 2 := ⟨m - 2, by omega⟩
  have hmoved : moved answers 0 (rounds + 2) data = got answers 0 := by
    rw [moved_eq hdata]
    omega
  have hstop : (chunkLoop answers (rounds + 1) 1 (rounds + 2 - got answers 0)
      (data.drop (got answers 0))).length = 0 :=
    (chunkLoop_eq_nil_iff (by omega) (by omega) (by rw [length_drop]; omega)).mpr hsecond
  show chunkLoop answers (rounds + 2) 0 (rounds + 2) data = _
  rw [chunkLoop, if_neg (by omega), hmoved, if_neg (by omega), length_eq_zero_iff.mp hstop,
    append_nil]

/-- **A payload is cut short** when its first piece is written and the second `write` fails: the
receiver gets as many bytes as were to be sent, and not all of them are the payload's. -/
theorem cut_short {payload : Bytes} (hlarge : ipcRoom ≤ payload.length)
    (hlt : payload.length + 1 < 2 ^ 31) (htmp : a.tmpfile ≠ false) (hsent : a.sent ≠ false)
    (hopened : a.opened ≠ false) (hfirst : 0 < got a.writes 0)
    (hpart : got a.writes 0 < payload.length) (hsecond : got a.writes 1 = 0)
    (hreads : got a.reads 0 ≠ 0) :
    ∃ heap data, transfer a heap payload = .delivered data ∧ data.length = payload.length ∧
      data ≠ payload := by
  have hint : toInt32 payload.length = payload.length := toInt32_natCast (by omega)
  have hfile : syncWritefile a.writes payload payload.length = payload.take (got a.writes 0) :=
    syncWritefile_first_piece (by omega) (le_rfl) hfirst hpart hsecond
  have hlen : (payload.take (got a.writes 0)).length = got a.writes 0 := by
    rw [length_take]
    omega
  have hpack : pack a payload =
      some (.tmpfile payload.length, payload.take (got a.writes 0)) := by
    rw [pack_of_large (by rw [hint, toSizeT_natCast (by omega)]; exact hlarge), hint]
    simp only [largePack, if_neg htmp, hfile]
    rw [if_neg (by omega)]
  -- at least one byte is read, and no more than were written
  have hread : syncReadfile a.reads (payload.take (got a.writes 0)) payload.length <+:
      payload.take (got a.writes 0) := isPrefix_chunkLoop ..
  have hsome : 0 < (syncReadfile a.reads (payload.take (got a.writes 0)) payload.length).length :=
    Nat.pos_of_ne_zero fun h =>
      hreads ((chunkLoop_eq_nil_iff (by omega) (by omega) (by omega)).mp h)
  have hshort : ¬ ∀ heap : ByteMemory,
      (heap.store 0 (syncReadfile a.reads (payload.take (got a.writes 0)) payload.length)).load 0
        payload.length = payload := by
    rw [forall_heap_iff <| hread.trans <| take_prefix _ _]
    rintro ⟨-, hall⟩
    have := hread.length_le
    omega
  obtain ⟨heap, hheap⟩ := not_forall.mp hshort
  refine ⟨heap, _, ?_, ByteMemory.length_load, hheap⟩
  rw [transfer, hpack, dispatch_of_sent hsent]
  show largeUnpack a heap payload.length (payload.take (got a.writes 0)) = _
  unfold largeUnpack
  rw [if_neg (by omega), if_neg hopened]
  exact if_pos hsome

/-- 10000 bytes are to be sent, and after 4096 of them the disk is full. -/
theorem not_intact_disk_full :
    let a : TransferAnswers :=
      ⟨true, fun k => if k = 0 then some 4096 else none, true, true, fun _ => some 65536⟩
    ∃ heap data, transfer a heap (replicate 10000 7) = .delivered data ∧
      data.length = 10000 ∧ ¬ Intact (replicate 10000 7) (.delivered data) := by
  intro a
  have hlen : (replicate 10000 (7 : UInt8)).length = 10000 := length_replicate
  obtain ⟨heap, data, htransfer, hdata, hne⟩ :=
    @cut_short a (replicate 10000 7) (by rw [hlen]; decide) (by rw [hlen]; decide)
      (by decide) (by decide) (by decide) (by decide) (by rw [hlen]; decide) (by decide)
      (by decide)
  exact ⟨heap, data, htransfer, hdata.trans hlen, fun h => hne (intact_delivered_iff.mp h)⟩

end TaskPayload

end Swoole
