import Swoole.Protocol.CheckEof

/-!
# The EOF mode of the synchronous client

With `open_eof_check`, `recv()` of a `swoole_client` returns the next package of the stream, with
the marker at its end.  What was received behind the package stays in the buffer for the next call.

A call begins with a `recv` on the socket, whatever is in the buffer.  If that `recv` fails, or if
the peer has closed, the buffer is emptied: packages that had been received already are lost.  And
what is left behind a package is moved to the front of the buffer through `stack_buf`, which has
64 KB.  The buffer can be longer than that once it has grown for a long package; a call that finds
a package in such a buffer and receives another 64 KB behind it may then write past the end of
`stack_buf`.
-/

open List

namespace Swoole

open StepRun Search

/-- The options of a client with `open_eof_check`. -/
structure EofOptions where
  eof : Bytes
  maxLength : UInt32
  eof_ne : eof ≠ []
  eof_le : eof.length ≤ dataEofMaxlen

/-- Where the client is: between two calls of `recv()`, in a call that has received nothing yet, or
in a call that has received something. -/
inductive RecvStage where
  | idle
  | called
  | reading
  deriving DecidableEq, Repr

/-- What a call returns: a package, the empty string when the peer has closed, or `FALSE`, for one
of three reasons. -/
inductive RecvReturn where
  | package (bytes : Bytes)
  | empty
  | recvFailed
  | noEof
  | noMemory
  deriving DecidableEq, Repr

def RecvReturn.package? : RecvReturn → Option Bytes
  | .package bytes => some bytes
  | _ => none

/-- A call of `recv()`; and the answers of the kernel to a `recv` and to its repetition after
`EINTR`, with the success of the `realloc` that may follow. -/
inductive EofEvent where
  | call
  | answer (first second : RecvAnswer) (memory : Bool)
  deriving DecidableEq, Repr

/-- A client in EOF mode.  `wire` is what it has not received yet, `calls` counts the calls of
`recv()` and `results` is what they have returned.  `broken` says that it has written past the end
of `stack_buf`, or that an assertion has failed. -/
structure EofClient where
  wire : Bytes
  buffer : SwString
  stage : RecvStage
  calls : ℕ
  results : List RecvReturn
  broken : Bool

namespace EofClient

open RecvReturn (noEof noMemory package package?)

section Recv

variable (opts : EofOptions) (c : EofClient)

/-- `buf_len`. -/
def bufLen : ℕ := if bufferSizeBig < c.buffer.room then bufferSizeBig else c.buffer.room

/-- `swClient_tcp_recv_no_buffer`. -/
def tcpRecvNoBuffer (len : ℕ) (wire : Bytes) (first second : RecvAnswer) : RecvResult × Bytes :=
  match recv len wire first with
  | (.error .eintr, wire) => recv len wire second
  | answered => answered

/-- The buffer is emptied and the call returns. -/
def giveUp (result : RecvReturn) : EofClient :=
  { c with
    buffer := c.buffer.setData [] (Nat.zero_le _)
    stage := .idle
    results := c.results ++ [result] }

/-- The first `eof` bytes are returned, and the rest goes to the front of the buffer. -/
def returnPackage (eof : ℕ) : EofClient :=
  { c with
    buffer := c.buffer.setData (c.buffer.data.drop eof)
      (le_trans (by rw [length_drop]; exact Nat.sub_le _ _) c.buffer.length_le)
    stage := .idle
    results := c.results ++ [.package (c.buffer.data.take eof)]
    broken := c.broken || decide (bufferSizeBig < (c.buffer.data.drop eof).length) }

/-- `new_size`, for a buffer of `size` bytes; it is compared as an `uint32_t`. -/
def newSize (size : ℕ) : ℤ :=
  if opts.maxLength.toNat < toUInt32 (toInt32 (size * 2)) then toInt32 opts.maxLength.toNat
  else toInt32 (size * 2)

/-- `swString_extend`. -/
def extendBuffer (size : ℕ) (memory : Bool) : EofClient :=
  match c.buffer.extend size with
  | none => { c with broken := true }
  | some buffer =>
    if memory = true ∧ size ≤ ptrdiffMax then { c with buffer := buffer }
    else c.giveUp .noMemory

/-- The marker is not in the buffer. -/
def notFound (memory : Bool) : EofClient :=
  if c.buffer.data.length = opts.maxLength.toNat then c.giveUp .noEof
  else if c.buffer.data.length = c.buffer.size ∧ c.buffer.size < opts.maxLength.toNat then
    c.extendBuffer (toSizeT (newSize opts c.buffer.size)) memory
  else c

/-- The rest of the loop's body, after `buffer->length += ret`. -/
def received (memory : Bool) : EofClient :=
  if c.buffer.data.length < opts.eof.length then c
  else
    match strnpos c.buffer.data opts.eof with
    | some eof => c.returnPackage (eof + opts.eof.length)
    | none => c.notFound opts memory

/-- The body of the loop. -/
def loop (first second : RecvAnswer) (memory : Bool) : EofClient :=
  match tcpRecvNoBuffer c.bufLen c.wire first second with
  | (.error _, wire) => giveUp { c with wire := wire } .recvFailed
  | (.data [], wire) => giveUp { c with wire := wire } .empty
  | (.data (b :: bs), wire) =>
    if h : c.buffer.data.length + (b :: bs).length ≤ c.buffer.size then
      received opts
        { c with wire := wire, buffer := c.buffer.append (b :: bs) h, stage := .reading } memory
    else { c with wire := wire, broken := true }

def step (c : EofClient) : EofEvent → EofClient
  | .call =>
    if c.stage = .idle ∧ c.broken = false then
      { c with stage := .called, calls := c.calls + 1 }
    else c
  | .answer first second memory =>
    if c.stage ≠ .idle ∧ c.broken = false then c.loop opts first second memory else c

/-- A client that is connected to a peer that sends `stream`. -/
def init (fresh : ℕ → UInt8) (stream : Bytes) : EofClient where
  wire := stream
  buffer := SwString.new fresh bufferSizeBig
  stage := .idle
  calls := 0
  results := []
  broken := false

/-- The packages that have been returned. -/
def packages : List Bytes := c.results.filterMap package?

end Recv

/-! ## The contract -/

/-- A package ends with the first occurrence of the marker. -/
def framing (opts : EofOptions) : Framing UInt8 := terminated opts.eof opts.eof_ne

/-- The packages of the stream have at most `package_max_length` bytes, and what the peer has sent
of a further one has fewer. -/
structure PackagesFit (opts : EofOptions) (stream : Bytes) : Prop where
  packages : ∀ package ∈ ((framing opts).frames stream).1, package.length ≤ opts.maxLength.toNat
  tail : ((framing opts).frames stream).2.length < opts.maxLength.toNat

/-- **The contract.**  The packages returned so far are followed by those that the buffer and the
wire hold: these are all packages of the stream, in order.  A call returns once, and as soon as the
buffer holds a package; it does not fail unless `recv` does.  What is left behind a package has gone
through `stack_buf`. -/
structure Sound (opts : EofOptions) (stream : Bytes) (c : EofClient) : Prop where
  packages : c.packages ++ ((framing opts).frames (c.buffer.data ++ c.wire)).1 =
    ((framing opts).frames stream).1
  calls : c.calls = c.results.length + if c.stage = .idle then 0 else 1
  reading : c.stage = .reading → strnpos c.buffer.data opts.eof = none
  served : noEof ∉ c.results ∧ noMemory ∉ c.results
  intact : c.broken = false

/-- No package is in the buffer when the peer closes, and nothing at all when `recv` fails. -/
def Drained (opts : EofOptions) (data : Bytes) : RecvResult → Prop
  | .error _ => data = []
  | .data [] => strnpos data opts.eof = none
  | .data (_ :: _) => True

/-- The condition on a `recv`: it gets something, or the client has returned what it had received;
the buffer has its first size, or no package is left in it; and it grows below 2 GiB. -/
def Answerable (opts : EofOptions) (c : EofClient) : EofEvent → Prop
  | .call => True
  | .answer first second memory =>
    Drained opts c.buffer.data (tcpRecvNoBuffer c.bufLen c.wire first second).1 ∧
      (c.buffer.size ≤ bufferSizeBig ∨ strnpos c.buffer.data opts.eof = none) ∧
      memory = true ∧ (c.buffer.size < 2 ^ 30 ∨ opts.maxLength.toNat < 2 ^ 31)

instance (opts : EofOptions) (data : Bytes) : ∀ result, Decidable (Drained opts data result)
  | .error _ | .data [] => inferInstanceAs (Decidable (_ = _))
  | .data (_ :: _) => .isTrue trivial

instance (opts : EofOptions) (c : EofClient) (event : EofEvent) :
    Decidable (Answerable opts c event) := by
  unfold Answerable
  split <;> infer_instance

variable {opts : EofOptions} {c : EofClient} {stream : Bytes}

/-! ## Steps -/

variable {data : Bytes}

theorem next_eq_none :
    (framing opts).next data = none ↔ strnpos data opts.eof = none := Option.map_eq_none_iff

variable {eof : ℕ}

theorem next_of_strnpos (h : strnpos data opts.eof = some eof) :
    (framing opts).next data = some (eof + opts.eof.length) :=
  Option.map_eq_some_iff.mpr ⟨eof, h, rfl⟩

/-- A `recv` that failed has taken nothing, so the repeated one is as good as a first one. -/
theorem tcpRecvNoBuffer_eq_recv (len : ℕ) (wire : Bytes) (first second : RecvAnswer) :
    ∃ answer, tcpRecvNoBuffer len wire first second = recv len wire answer := by
  unfold tcpRecvNoBuffer
  split
  · next wire' herror =>
    rw [recv_error herror]
    exact ⟨second, rfl⟩
  · exact ⟨first, rfl⟩

theorem bufLen_le : c.bufLen ≤ c.buffer.room ∧ c.bufLen ≤ bufferSizeBig := by
  unfold bufLen
  split_ifs <;> omega

theorem bufLen_pos (h : c.buffer.data.length < c.buffer.size) : 0 < c.bufLen := by
  have hroom : 0 < c.buffer.room := Nat.sub_pos_of_lt h
  unfold bufLen
  split_ifs
  · decide
  · exact hroom

/-- What holds inside of a call, wherever it is. -/
structure Kept (opts : EofOptions) (stream : Bytes) (c : EofClient) : Prop where
  packages : c.packages ++ ((framing opts).frames (c.buffer.data ++ c.wire)).1 =
    ((framing opts).frames stream).1
  tail : ((framing opts).frames (c.buffer.data ++ c.wire)).2.length < opts.maxLength.toNat
  served : noEof ∉ c.results ∧ noMemory ∉ c.results
  intact : c.broken = false
  size : bufferSizeBig ≤ c.buffer.size

/-- What holds before each `recv`; in particular, there is something to ask for. -/
structure Inv (opts : EofOptions) (stream : Bytes) (c : EofClient) : Prop
    extends Kept opts stream c where
  calls : c.calls = c.results.length + if c.stage = .idle then 0 else 1
  reading : c.stage = .reading → strnpos c.buffer.data opts.eof = none
  room : c.buffer.data.length < c.buffer.size

theorem Inv.sound (h : Inv opts stream c) : Sound opts stream c :=
  ⟨h.packages, h.calls, h.reading, h.served, h.intact⟩

theorem init_inv (hfit : PackagesFit opts stream) (fresh : ℕ → UInt8) :
    Inv opts stream (init fresh stream) where
  packages := rfl
  tail := hfit.tail
  served := ⟨not_mem_nil, not_mem_nil⟩
  intact := rfl
  size := le_rfl
  calls := rfl
  reading := nofun
  room := Nat.zero_lt_succ _

theorem packages_concat (results : List RecvReturn) (result : RecvReturn) :
    (results ++ [result]).filterMap package? =
      results.filterMap package? ++ result.package?.toList := by
  rw [filterMap_append]
  cases result <;> rfl

variable {result : RecvReturn}

theorem served_concat {results : List RecvReturn}
    (h : noEof ∉ results ∧ noMemory ∉ results)
    (hresult : noEof ≠ result ∧ noMemory ≠ result) :
    noEof ∉ results ++ [result] ∧ noMemory ∉ results ++ [result] := by
  simp only [mem_append, mem_singleton, not_or]
  exact ⟨⟨h.1, hresult.1⟩, h.2, hresult.2⟩

theorem returnPackage_broken (eof : ℕ) : (c.returnPackage eof).broken =
    (c.broken || decide (bufferSizeBig < (c.buffer.data.drop eof).length)) := rfl

theorem received_of_found (h : strnpos c.buffer.data opts.eof = some eof) (memory : Bool) :
    c.received opts memory = c.returnPackage (eof + opts.eof.length) := by
  have hle := (framing opts).le_length (next_of_strnpos h)
  rw [EofClient.received, if_neg (by omega), h]

variable {size : ℕ}

theorem toSizeT_newSize (hpos : 0 < size) (hlt : size < opts.maxLength.toNat)
    (h : size < 2 ^ 30 ∨ opts.maxLength.toNat < 2 ^ 31) :
    size < toSizeT (newSize opts size) ∧ toSizeT (newSize opts size) < 2 ^ 31 := by
  have hdouble : (size : ℤ) * 2 = ((size * 2 : ℕ) : ℤ) := by omega
  -- the conversion to `int` and back does not change what is compared
  have hword : toUInt32 (toInt32 ((size * 2 : ℕ) : ℤ)) = size * 2 :=
    toUInt32_toInt32 (by omega)
  unfold newSize
  rw [hdouble, hword]
  split_ifs with hlarge
  all_goals
    rw [toInt32_natCast (by omega), toSizeT_natCast (by omega)]
    omega

theorem extendBuffer_of_lt (hlarger : c.buffer.size < size) (hsmall : size < 2 ^ 31) :
    ∃ buffer : SwString, c.extendBuffer size true = { c with buffer := buffer } ∧
      buffer.data = c.buffer.data ∧ buffer.size = size := by
  obtain ⟨buffer, hextend, hdata, -, hsize, -⟩ := c.buffer.extend_of_lt hlarger
  have hmemory : size ≤ ptrdiffMax := le_trans (le_of_lt hsmall) (by decide)
  refine ⟨buffer, ?_, hdata, hsize⟩
  unfold extendBuffer
  rw [hextend]
  exact if_pos ⟨rfl, hmemory⟩

variable (h : Kept opts stream c)
include h

/-- An unfinished package is shorter than `package_max_length`. -/
theorem Kept.length_lt (hfit : PackagesFit opts stream)
    (hnone : strnpos c.buffer.data opts.eof = none) :
    c.buffer.data.length < opts.maxLength.toNat := by
  have hremainder : ((framing opts).frames c.buffer.data).2 = c.buffer.data := by
    rw [(framing opts).frames_of_none (next_eq_none.mpr hnone)]
  rw [← hremainder]
  refine length_remainder_lt opts.eof_ne (fun package hmem => hfit.packages package ?_) h.tail
  rw [← h.packages]
  exact mem_append_right _ hmem

variable (hcalls : c.calls = c.results.length + 1)
include hcalls

theorem Kept.giveUp (hresult : result = .empty ∨ result = .recvFailed)
    (hsame : ((framing opts).frames c.wire).1 = ((framing opts).frames (c.buffer.data ++ c.wire)).1)
    (htail : ((framing opts).frames c.wire).2.length < opts.maxLength.toNat) :
    Inv opts stream (c.giveUp result) := by
  have hpackage : result.package? = none := by
    rcases hresult with rfl | rfl <;> rfl
  have hserved : noEof ≠ result ∧ noMemory ≠ result := by
    rcases hresult with rfl | rfl <;> exact ⟨nofun, nofun⟩
  refine ⟨⟨?_, htail, served_concat h.served hserved, h.intact, h.size⟩, ?_, nofun, ?_⟩
  · show (c.results ++ [result]).filterMap package? ++
      ((framing opts).frames ([] ++ c.wire)).1 = _
    rw [packages_concat, hpackage, Option.toList_none, append_nil, nil_append, hsame]
    exact h.packages
  · show c.calls = (c.results ++ [result]).length + 0
    rw [length_append, length_singleton]
    exact hcalls
  · show 0 < c.buffer.size
    exact lt_of_lt_of_le (by decide) h.size

/-- **A package** is returned, if what is left fits into `stack_buf`. -/
theorem Kept.returnPackage (hfound : (framing opts).next c.buffer.data = some eof)
    (hstack : (c.buffer.data.drop eof).length ≤ bufferSizeBig) :
    Inv opts stream (c.returnPackage eof) := by
  have hle := (framing opts).le_length hfound
  have hframes := (framing opts).frames_of_some ((framing opts).stable c.wire hfound)
  rw [take_append_of_le_length hle, drop_append_of_le_length hle] at hframes
  have hpackages := h.packages
  have htail := h.tail
  rw [hframes] at hpackages htail
  refine ⟨⟨?_, htail, served_concat h.served ⟨nofun, nofun⟩, ?_, h.size⟩, ?_, nofun, ?_⟩
  · show (c.results ++ [package (c.buffer.data.take eof)]).filterMap package? ++
      ((framing opts).frames (c.buffer.data.drop eof ++ c.wire)).1 = _
    rw [packages_concat, append_assoc]
    exact hpackages
  · rw [returnPackage_broken, h.intact, Bool.false_or, decide_eq_false_iff_not]
    exact not_lt.mpr hstack
  · show c.calls = (c.results ++ [package (c.buffer.data.take eof)]).length + 0
    rw [length_append, length_singleton]
    exact hcalls
  · exact lt_of_lt_of_le ((framing opts).length_drop_lt hfound) c.buffer.length_le

variable (hfit : PackagesFit opts stream) (hstage : c.stage = .reading)
  (hgrow : c.buffer.size < 2 ^ 30 ∨ opts.maxLength.toNat < 2 ^ 31)
include hfit hstage hgrow

/-- **Nothing is found** in the buffer, and the call goes on with room in it. -/
theorem Kept.notFound (hnone : strnpos c.buffer.data opts.eof = none) :
    Inv opts stream (c.notFound opts true) := by
  have hlt := h.length_lt hfit hnone
  have hrunning : c.calls = c.results.length + if c.stage = .idle then 0 else 1 := by
    rw [hstage]
    exact hcalls
  unfold EofClient.notFound
  rw [if_neg (ne_of_lt hlt)]
  by_cases hfull : c.buffer.data.length = c.buffer.size ∧ c.buffer.size < opts.maxLength.toNat
  · obtain ⟨hlarger, hsmall⟩ :=
      toSizeT_newSize (lt_of_lt_of_le (by decide) h.size) hfull.2 hgrow
    obtain ⟨buffer, hextend, hdata, hsize⟩ := extendBuffer_of_lt hlarger hsmall
    rw [if_pos hfull, hextend]
    refine ⟨⟨?_, ?_, h.served, h.intact, ?_⟩, hrunning, fun _ => ?_, ?_⟩
    · rw [hdata]
      exact h.packages
    · rw [hdata]
      exact h.tail
    · rw [hsize]
      exact le_trans h.size (le_of_lt hlarger)
    · rw [hdata]
      exact hnone
    · rw [hdata, hsize, hfull.1]
      exact hlarger
  · rw [if_neg hfull]
    have hle := c.buffer.length_le
    exact ⟨h, hrunning, fun _ => hnone, by omega⟩

/-- **The rest of the loop's body**, after some bytes have been received. -/
theorem Kept.received (hstack : ∀ eof, (framing opts).next c.buffer.data = some eof →
      (c.buffer.data.drop eof).length ≤ bufferSizeBig) :
    Inv opts stream (c.received opts true) := by
  cases hfound : strnpos c.buffer.data opts.eof with
  | some eof =>
    have hnext := next_of_strnpos hfound
    rw [received_of_found hfound]
    exact h.returnPackage hcalls hnext (hstack _ hnext)
  | none =>
    unfold EofClient.received
    split_ifs with hshort
    · refine ⟨h, ?_, fun _ => hfound, ?_⟩
      · rw [hstage]
        exact hcalls
      · calc c.buffer.data.length < opts.eof.length := hshort
          _ ≤ dataEofMaxlen := opts.eof_le
          _ ≤ bufferSizeBig := by decide
          _ ≤ c.buffer.size := h.size
    · rw [hfound]
      exact h.notFound hcalls hfit hstage hgrow hfound

omit h hcalls hfit hstage hgrow

/-- **What is left behind a package** fits into `stack_buf`: the buffer is not longer than that, or
all of the rest has come with the last `recv`. -/
theorem length_leftover_le {bytes : Bytes} (hnext : (framing opts).next (data ++ bytes) = some eof)
    (hsize : (data ++ bytes).length ≤ size) (hbytes : bytes.length ≤ bufferSizeBig)
    (h : size ≤ bufferSizeBig ∨ strnpos data opts.eof = none) :
    ((data ++ bytes).drop eof).length ≤ bufferSizeBig := by
  rw [length_drop]
  rcases h with hle | hnone
  · omega
  · -- the package ends in what was received last
    have hlt : data.length < eof :=
      lt_of_terminated_next opts.eof_ne (next_eq_none.mpr hnone) hnext
    rw [length_append]
    omega

/-- **One `recv`** and what follows it. -/
theorem Inv.loop (h : Inv opts stream c) (hfit : PackagesFit opts stream)
    (hstage : c.stage ≠ .idle) {first second : RecvAnswer} {memory : Bool}
    (hanswer : Answerable opts c (.answer first second memory)) :
    Inv opts stream (c.loop opts first second memory) := by
  obtain ⟨hdrained, hstack, rfl, hgrow⟩ := hanswer
  have hcalls : c.calls = c.results.length + 1 := by
    rw [h.calls, if_neg hstage]
  obtain ⟨answer, heq⟩ := tcpRecvNoBuffer_eq_recv c.bufLen c.wire first second
  unfold EofClient.loop
  rw [heq] at hdrained ⊢
  obtain ⟨hroom, hbig⟩ := @bufLen_le c
  match hrecv : recv c.bufLen c.wire answer with
  | (.error errno, wire) =>
    rw [hrecv] at hdrained
    -- the buffer is emptied, but there was nothing in it
    have hempty : c.buffer.data = [] := hdrained
    obtain rfl := recv_error hrecv
    have htail := h.tail
    rw [hempty, nil_append] at htail
    exact Kept.giveUp h.toKept hcalls (.inr rfl) (by rw [hempty]; rfl) htail
  | (.data [], wire) =>
    rw [hrecv] at hdrained
    -- nothing more comes, so what is dropped is no package
    have hnone : strnpos c.buffer.data opts.eof = none := hdrained
    have hend := recv_empty (bufLen_pos h.room) hrecv
    obtain rfl : wire = c.wire := (recv_data hrecv).1
    have hnil := (framing opts).frames_of_none (framing opts).next_nil
    have hmax := Nat.lt_of_le_of_lt (Nat.zero_le _) h.tail
    refine Kept.giveUp h.toKept hcalls (.inl rfl) ?_ ?_
    · rw [hend, append_nil, (framing opts).frames_of_none (next_eq_none.mpr hnone), hnil]
    · rw [hend, hnil]
      exact hmax
  | (.data (b :: bs), wire) =>
    obtain ⟨hsplit, hle, -⟩ := recv_data hrecv
    have hfits : c.buffer.data.length + (b :: bs).length ≤ c.buffer.size := by
      have hlen := h.room
      unfold SwString.room at hroom
      omega
    have hstream : c.buffer.data ++ (b :: bs) ++ wire = c.buffer.data ++ c.wire := by
      rw [append_assoc, hsplit]
    simp only [dif_pos hfits]
    refine Kept.received ⟨?_, ?_, h.served, h.intact, h.size⟩ hcalls hfit rfl hgrow ?_
    · show c.packages ++ ((framing opts).frames (c.buffer.data ++ (b :: bs) ++ wire)).1 = _
      rw [hstream]
      exact h.packages
    · show ((framing opts).frames (c.buffer.data ++ (b :: bs) ++ wire)).2.length < _
      rw [hstream]
      exact h.tail
    · intro eof hnext
      exact length_leftover_le hnext (c.buffer.append (b :: bs) hfits).length_le
        (le_trans hle hbig) hstack

/-- **One event.** -/
theorem Inv.step (h : Inv opts stream c) (hfit : PackagesFit opts stream) {event : EofEvent}
    (hevent : Answerable opts c event) : Inv opts stream (c.step opts event) := by
  cases event with
  | call =>
    unfold EofClient.step
    simp only
    split_ifs with hidle
    · refine ⟨⟨h.packages, h.tail, h.served, h.intact, h.size⟩, ?_, nofun, h.room⟩
      have hcalls := h.calls
      rw [if_pos hidle.1] at hcalls
      exact congrArg (· + 1) hcalls
    · exact h
  | answer first second memory =>
    unfold EofClient.step
    simp only
    split_ifs with hrunning
    · exact h.loop hfit hrunning.1 hevent
    · exact h

/-- **Successive calls return the successive packages**, as long as `recv` fails only when the
buffer is empty, and no package is left in a buffer that has grown. -/
theorem successive_packages_run (opts : EofOptions) (fresh : ℕ → UInt8) (stream : Bytes)
    (hfit : PackagesFit opts stream) (events : List EofEvent)
    (hanswers : EachStep (step opts) (Answerable opts) (init fresh stream) events)
    (used : List EofEvent) (hused : used <+: events) :
    Sound opts stream (run (step opts) (init fresh stream) used) := by
  have hinv : Inv opts stream (run (step opts) (init fresh stream) used) :=
    EachStep.run_invariant (P := Inv opts stream) (fun _ _ h hevent => h.step hfit hevent)
      (hanswers.restrict hused) (init_inv hfit fresh)
  exact hinv.sound

/-- Lines, of at most eight bytes. -/
def lineOptions : EofOptions := ⟨[10], 8, by decide, by decide⟩

theorem frames_two_lines :
    (framing lineOptions).frames [97, 10, 98, 10] = ([[97, 10], [98, 10]], []) := by
  have hfirst : (framing lineOptions).next [97, 10, 98, 10] = some 2 := by decide
  have hsecond : (framing lineOptions).next ([97, 10, 98, 10].drop 2) = some 2 := by decide
  rw [(framing lineOptions).frames_of_some hfirst, (framing lineOptions).frames_of_some hsecond]
  rw [show (([97, 10, 98, 10] : Bytes).drop 2).drop 2 = [] from rfl,
    (framing lineOptions).frames_of_none (framing lineOptions).next_nil]
  rfl

theorem packagesFit_two_lines : PackagesFit lineOptions [97, 10, 98, 10] := by
  refine ⟨?_, ?_⟩
  all_goals
    rw [frames_two_lines]
    decide

/-- Two lines that come in two pieces, and then the end of the stream. -/
theorem successive_two_lines :
    let stream : Bytes := [97, 10, 98, 10]
    let events : List EofEvent :=
      [.call, .answer (.deliver 2) .shutdown true, .call, .answer (.fail .eintr) (.deliver 0) true,
        .call, .answer .shutdown .shutdown true]
    (run (step lineOptions) (init (fun _ => 0) stream) events).results =
        [.package [97, 10], .package [98, 10], .empty] ∧
      Sound lineOptions stream (run (step lineOptions) (init (fun _ => 0) stream) events) := by
  intro stream events
  have hanswers : EachStep (step lineOptions) (Answerable lineOptions) (init (fun _ => 0) stream)
      events := by decide
  exact ⟨by decide, successive_packages_run lineOptions _ _ packagesFit_two_lines _ hanswers _
    (prefix_refl _)⟩

/-! ## Two runs that break the contract -/

/-- Two lines come together, and then the end of the stream: the second call finds that the peer
has closed. -/
def togetherEvents : List EofEvent :=
  [.call, .answer (.deliver 3) .shutdown true, .call, .answer .shutdown .shutdown true]

theorem second_line_lost : ¬ Sound lineOptions [97, 10, 98, 10]
    (run (step lineOptions) (init (fun _ => 0) [97, 10, 98, 10]) togetherEvents) := by
  intro h
  generalize hc : run _ _ togetherEvents = c at h
  have hreturned : c.packages = [[97, 10]] := by
    rw [← hc]
    decide
  have hrest : c.buffer.data ++ c.wire = [] := by
    rw [← hc]
    decide
  have hpackages := h.packages
  rw [hreturned, hrest, frames_two_lines,
    (framing lineOptions).frames_of_none (framing lineOptions).next_nil] at hpackages
  exact absurd hpackages (by decide)

section Overrun

/-- Lines, of at most 128 KB. -/
def longOptions : EofOptions := ⟨[10], 131072, by decide, by decide⟩

/-- A line that is one byte longer than `stack_buf`, and many empty ones. -/
def longStream : Bytes :=
  replicate bufferSizeBig 97 ++ replicate (bufferSizeBig + bufferSizeBig) 10

/-- A `recv` that gets as much as it asks for. -/
def fullAnswer : EofEvent := .answer (.deliver bufferSizeBig) .shutdown true

theorem strnpos_replicate (k : ℕ) (rest : Bytes) :
    strnpos (replicate k 97 ++ rest) [10] = (strnpos rest [10]).map (· + k) := by
  induction k with
  | zero => simp
  | succ k ih =>
    have hhead : ¬ [10] <+: (97 : UInt8) :: (replicate k 97 ++ rest) := by simp
    rw [replicate_succ, cons_append, strnpos, firstOcc, if_neg hhead, ← strnpos, ih, Option.map_map]
    rfl

theorem strnpos_cons (rest : Bytes) : strnpos (10 :: rest) [10] = some 0 := by
  rw [strnpos, firstOcc, if_pos (by simp)]

theorem frames_replicate (k : ℕ) :
    (framing longOptions).frames (replicate k 10) = (replicate k [10], []) := by
  induction k with
  | zero => exact (framing longOptions).frames_of_none (framing longOptions).next_nil
  | succ k ih =>
    have hnext : (framing longOptions).next (replicate (k + 1) 10) = some 1 :=
      next_of_strnpos (strnpos_cons _)
    rw [(framing longOptions).frames_of_some hnext]
    rw [show (replicate (k + 1) (10 : UInt8)).drop 1 = replicate k 10 from rfl, ih]
    rfl

theorem packagesFit_longStream : PackagesFit longOptions longStream := by
  have hnext : (framing longOptions).next longStream = some (bufferSizeBig + 1) := by
    refine @next_of_strnpos longOptions longStream bufferSizeBig ?_
    show strnpos (replicate bufferSizeBig 97 ++ 10 :: replicate 131071 10) [10] = _
    rw [strnpos_replicate, strnpos_cons]
    rfl
  have hdrop : longStream.drop (bufferSizeBig + 1) =
      replicate (bufferSizeBig + bufferSizeBig - 1) 10 := by
    unfold longStream
    rw [drop_append, drop_replicate, drop_replicate, length_replicate,
      Nat.sub_eq_zero_of_le (Nat.le_succ _), Nat.add_sub_cancel_left, replicate_zero,
      nil_append]
  have hframes := (framing longOptions).frames_of_some hnext
  rw [hdrop, frames_replicate] at hframes
  refine ⟨fun package hmem => ?_, ?_⟩
  · rw [hframes, mem_cons] at hmem
    rcases hmem with rfl | hmem
    · rw [length_take]
      exact le_trans (min_le_left _ _) (by decide)
    · rw [eq_of_mem_replicate hmem]
      decide
  · rw [hframes]
    decide

/-- Where an intact client stands: `data` is in a buffer of `size` bytes, and `wire` is to come. -/
structure Holds (c : EofClient) (data wire : Bytes) (size : ℕ) (stage : RecvStage) : Prop where
  data_eq : c.buffer.data = data
  wire_eq : c.wire = wire
  size_eq : c.buffer.size = size
  stage_eq : c.stage = stage
  intact : c.broken = false

variable {data bytes wire : Bytes} {size : ℕ} {stage : RecvStage}

theorem Holds.call (h : Holds c data wire size .idle) :
    Holds (c.step opts .call) data wire size .called := by
  rw [EofClient.step, if_pos ⟨h.stage_eq, h.intact⟩]
  exact { h with stage_eq := rfl }

/-- The buffer is filled as far as a `recv` goes. -/
theorem Holds.step_fullAnswer (h : Holds c data (bytes ++ wire) size stage) (hstage : stage ≠ .idle)
    (hlength : bytes.length = if bufferSizeBig < size - data.length then bufferSizeBig
      else size - data.length) (hne : bytes ≠ []) :
    ∃ filled : EofClient, c.step opts fullAnswer = filled.received opts true ∧
      Holds filled (data ++ bytes) wire size .reading := by
  obtain ⟨rfl, hwire, rfl, rfl, hintact⟩ := h
  obtain ⟨hroom, hbig⟩ := @bufLen_le c
  have hlen : bytes.length = c.bufLen := hlength
  obtain ⟨b, bs, rfl⟩ := exists_cons_of_ne_nil hne
  have hrecv : tcpRecvNoBuffer c.bufLen c.wire (.deliver bufferSizeBig) .shutdown =
      (.data (b :: bs), wire) := by
    have happend := @recv_append (b :: bs) wire bufferSizeBig hne (by omega)
      (le_trans (hlen ▸ hbig) (by decide))
    rw [tcpRecvNoBuffer, hwire, ← hlen, happend]
  have hfits : c.buffer.data.length + (b :: bs).length ≤ c.buffer.size := by
    have hle := c.buffer.length_le
    unfold SwString.room at hroom
    omega
  refine ⟨{ c with wire := wire, buffer := c.buffer.append (b :: bs) hfits, stage := .reading },
    ?_, rfl, rfl, rfl, rfl, hintact⟩
  simp only [EofClient.step, fullAnswer, EofClient.loop, hrecv, dif_pos hfits]
  exact if_pos ⟨hstage, hintact⟩

theorem holds_grown (fresh : ℕ → UInt8) :
    Holds (run (step longOptions) (init fresh longStream) [.call, fullAnswer])
      (replicate bufferSizeBig 97) (replicate (bufferSizeBig + bufferSizeBig) 10)
      (bufferSizeBig + bufferSizeBig) .reading := by
  have hinit : Holds (init fresh longStream) [] longStream bufferSizeBig .idle :=
    ⟨rfl, rfl, rfl, rfl, rfl⟩
  obtain ⟨filled, hstep, hfilled⟩ := @Holds.step_fullAnswer longOptions _ _ _ _ _ _ hinit.call nofun
    length_replicate nofun
  have hlen : filled.buffer.data.length = bufferSizeBig := by
    rw [hfilled.data_eq, nil_append, length_replicate]
  have hnone : strnpos filled.buffer.data longOptions.eof = none := by
    show strnpos filled.buffer.data [10] = none
    rw [hfilled.data_eq, nil_append, ← append_nil (replicate bufferSizeBig 97),
      strnpos_replicate]
    rfl
  have hfull : filled.buffer.data.length = filled.buffer.size ∧
      filled.buffer.size < longOptions.maxLength.toNat := by
    rw [hlen, hfilled.size_eq]
    exact ⟨rfl, by decide⟩
  have hnew : toSizeT (newSize longOptions filled.buffer.size) =
      bufferSizeBig + bufferSizeBig := by
    rw [hfilled.size_eq]
    decide
  obtain ⟨buffer, hextend, hkept, hgrown⟩ := @extendBuffer_of_lt filled
    (bufferSizeBig + bufferSizeBig) (by rw [hfilled.size_eq]; decide) (by decide)
  rw [run_cons, run_cons, run_nil, hstep, EofClient.received, if_neg (by rw [hlen]; decide), hnone]
  rw [EofClient.notFound, if_neg (by rw [hlen]; decide), if_pos hfull, hnew, hextend]
  exact ⟨hkept.trans hfilled.data_eq, hfilled.wire_eq, hgrown, hfilled.stage_eq, hfilled.intact⟩

/-- The long line is returned; the empty lines behind it nearly fill `stack_buf`. -/
theorem Holds.returned (h : Holds c (replicate bufferSizeBig 97)
      (replicate (bufferSizeBig + bufferSizeBig) 10) (bufferSizeBig + bufferSizeBig) .reading) :
    Holds (c.step longOptions fullAnswer) (replicate (bufferSizeBig - 1) 10)
      (replicate bufferSizeBig 10) (bufferSizeBig + bufferSizeBig) .idle := by
  rw [← replicate_append_replicate] at h
  obtain ⟨filled, hstep, hfilled⟩ := @Holds.step_fullAnswer longOptions _ _ _ _ _ _ h nofun
    (by simp) nofun
  have hfound : strnpos filled.buffer.data longOptions.eof = some bufferSizeBig := by
    show strnpos filled.buffer.data [10] = _
    rw [hfilled.data_eq, strnpos_replicate]
    show (strnpos (10 :: replicate 65535 10) [10]).map (· + bufferSizeBig) = _
    rfl
  have hleft : filled.buffer.data.drop (bufferSizeBig + longOptions.eof.length) =
      replicate (bufferSizeBig - 1) 10 := by
    rw [hfilled.data_eq, drop_append, drop_replicate, drop_replicate, length_replicate,
      Nat.sub_eq_zero_of_le (Nat.le_add_right _ _), Nat.add_sub_cancel_left, replicate_zero,
      nil_append]
    rfl
  rw [hstep, received_of_found hfound]
  refine ⟨hleft, hfilled.wire_eq, hfilled.size_eq, rfl, ?_⟩
  rw [returnPackage_broken, hfilled.intact, hleft, length_replicate]
  decide

/-- The next call fills the buffer again, and finds an empty line at its front. -/
theorem Holds.overrun (h : Holds c (replicate (bufferSizeBig - 1) 10)
      (replicate bufferSizeBig 10) (bufferSizeBig + bufferSizeBig) .called) :
    (c.step longOptions fullAnswer).broken = true := by
  rw [← append_nil (replicate bufferSizeBig (10 : UInt8))] at h
  obtain ⟨filled, hstep, hfilled⟩ := @Holds.step_fullAnswer longOptions _ _ _ _ _ _ h nofun
    (by rw [length_replicate, length_replicate]; decide) nofun
  have hall : filled.buffer.data = replicate (bufferSizeBig - 1 + bufferSizeBig) 10 := by
    rw [hfilled.data_eq, replicate_append_replicate]
  have hfound : strnpos filled.buffer.data longOptions.eof = some 0 := by
    rw [hall]
    exact strnpos_cons _
  rw [hstep, received_of_found hfound, returnPackage_broken, hall, length_drop,
    length_replicate, Bool.or_eq_true, decide_eq_true_iff]
  exact .inr (by decide)

/-- The long line makes the buffer grow, and the second call writes past the end of `stack_buf`. -/
def overrunEvents : List EofEvent := [.call, fullAnswer, fullAnswer, .call, fullAnswer]

theorem overrun_longStream (fresh : ℕ → UInt8) :
    (run (step longOptions) (init fresh longStream) overrunEvents).broken = true := by
  have hcalled := @Holds.call longOptions _ _ _ _ (holds_grown fresh).returned
  have hsplit : overrunEvents = [.call, fullAnswer] ++ [fullAnswer, .call, fullAnswer] := rfl
  rw [hsplit, run_append, run_cons, run_cons, run_cons, run_nil]
  exact hcalled.overrun

end Overrun

/-- A package is lost, and `stack_buf` is overrun, with packages that all fit. -/
theorem not_sound_second_call :
    (PackagesFit lineOptions [97, 10, 98, 10] ∧
      (run (step lineOptions) (init (fun _ => 0) [97, 10, 98, 10]) togetherEvents).results =
        [.package [97, 10], .empty] ∧
      ¬ Sound lineOptions [97, 10, 98, 10]
        (run (step lineOptions) (init (fun _ => 0) [97, 10, 98, 10]) togetherEvents)) ∧
    (PackagesFit longOptions longStream ∧
      (run (step longOptions) (init (fun _ => 0) longStream) overrunEvents).broken = true) :=
  ⟨⟨packagesFit_two_lines, by decide, second_line_lost⟩,
    packagesFit_longStream, overrun_longStream _⟩

end EofClient

end Swoole
