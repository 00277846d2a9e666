import Swoole.Protocol.CheckEof
import Swoole.Protocol.CheckLength
import Swoole.Protocol.HttpFraming

/-!
# How large a package can be

`package_max_length` is the limit of a port, and each reader holds it in its own way.

* The length reader compares it with the length it has computed, so no package is longer.
* The EOF reader never grows a buffer beyond it.  But a buffer begins with `SW_BUFFER_SIZE`
  bytes, and the reader gives up only at the very moment at which the limit is met; so a
  package may have `SW_BUFFER_SIZE` bytes whatever the limit is.
* The HTTP reader compares the limit with the announced length of the entity, and the header
  comes on top of that.  It makes the comparison only when it finds the line of the length
  and the end of the header at once.  `LengthChecked` says that no announced length gets past
  another limit, which may be smaller than that of the port.

The WebSocket reader is dealt with beside its definition, `WebSocketConn.Within`.
-/

namespace Swoole

open List HttpRequest Protocol

/-! ## The length reader -/

section Length

variable {getLength : SwString → Option ℤ} {onPackage : Bytes → Ret} {p : Protocol} {c : ReadConn}

namespace ReadConn

/-- A known package length keeps within the limit of the port, and so does everything
handed over. -/
structure Within (p : Protocol) (c : ReadConn) : Prop where
  offset : c.recvWait = true → c.buffer.offset ≤ p.maxLength
  packages : ∀ data ∈ c.packages, data.length ≤ p.maxLength

theorem within_init (fresh : ℕ → UInt8) (stream : Bytes) : (init fresh stream).Within p :=
  ⟨nofun, by simp [init]⟩

theorem Within.doPackage (h : c.Within p) (hle : c.buffer.data.length ≤ p.maxLength) :
    (doPackage onPackage c).1.Within p := by
  exact ⟨nofun, forall_mem_append.mpr ⟨h.packages, forall_mem_singleton.mpr hle⟩⟩

theorem Within.learnLength (h : c.Within p) {packageLength : ℕ}
    (hle : packageLength ≤ p.maxLength) : (learnLength onPackage c packageLength).1.Within p := by
  have hlearned : ({ c with
      buffer := { c.buffer.reserve packageLength with offset := packageLength }
      recvWait := true } : ReadConn).Within p :=
    ⟨fun _ => hle, h.packages⟩
  unfold Protocol.learnLength
  simp only
  split
  · next hlen => exact hlearned.doPackage (le_trans (le_of_eq hlen) hle)
  · exact hlearned

theorem Within.received (h : c.Within p) : (received getLength onPackage p c).1.Within p := by
  unfold Protocol.received
  split
  · next hwait =>
    split
    · next hlen => exact h.doPackage (hlen ▸ h.offset hwait)
    · exact h
  split
  · exact ⟨h.offset, h.packages⟩
  split
  · exact h
  split
  · exact h
  split
  · exact h
  · next hmax => exact h.learnLength (Nat.le_of_not_lt hmax)

theorem Within.settled {result : ReadConn × Next Ret} (h : result.1.Within p) :
    (settled result).Within p := by
  rcases result with ⟨c, _ | _ | _⟩
  · exact h
  · exact h
  · exact ⟨h.offset, h.packages⟩

/-- **One answer of the kernel**, whatever the length function is. -/
theorem Within.readTurn (h : c.Within p) (a : RecvAnswer) :
    (readTurn getLength onPackage p c a).Within p := by
  refine @turn_rule c p.recvbufSize _ a (Within p) (fun _ => h)
    (fun _ _ _ _ _ => ⟨h.offset, h.packages⟩) (fun _ _ _ => ⟨h.offset, h.packages⟩)
    fun bytes wire hroom _ _ _ => Within.settled ?_
  exact Within.received ⟨h.offset, h.packages⟩

end ReadConn

end Length

/-! ## The EOF reader -/

section Eof

namespace ReadConn

variable {pagesize : ℕ} {p : Protocol} {c : ReadConn}

/-- The most an EOF reader hands over at once. -/
def eofLimit (p : Protocol) : ℕ := max bufferSize p.maxLength

/-- The buffer keeps within the limit, and so does everything handed over. -/
structure WithinEof (p : Protocol) (c : ReadConn) : Prop where
  size : c.buffer.size ≤ eofLimit p
  packages : ∀ data ∈ c.packages, data.length ≤ eofLimit p

theorem withinEof_init (fresh : ℕ → UInt8) (stream : Bytes) : (init fresh stream).WithinEof p :=
  ⟨le_max_left _ _, by simp [init]⟩

/-- **One answer of the kernel.** -/
theorem WithinEof.readTurnEof (h : c.WithinEof p) (a : RecvAnswer) :
    (p.readTurnEof pagesize c a).WithinEof p := by
  obtain ⟨hstep, packages, hpackages, hle⟩ := @Protocol.packages_readTurnEof pagesize p c a
  constructor
  · rcases hstep with heq | ⟨-, heq⟩
    · rw [heq]
      exact h.size
    · rw [heq]
      exact le_trans (extendSize_le _) (le_max_right _ _)
  · rw [hpackages]
    exact forall_mem_append.mpr
      ⟨h.packages, fun data hdata => le_trans (hle data hdata) h.size⟩

end ReadConn

end Eof

/-! ## The HTTP reader -/

section Http

variable {maxLength limit : ℕ}

namespace HttpRequest

variable {r : HttpRequest}

/-- A `Content-Length` line has a value within `limit`; or it is found together with the end of
the header in the received bytes, and `limit` is no smaller than the limit of the port. -/
def LengthChecked (maxLength limit : ℕ) (r : HttpRequest) : Prop :=
  r.contentLength = 0 → ∀ p ∈ r.contentLengthPos,
    match r.headerEndPos p with
    | some q => q + 4 ≤ r.buffer.data.length ∧
      (maxLength ≤ limit ∨ r.contentLengthValue p ≤ limit)
    | none => r.contentLengthValue p ≤ limit

instance (r : HttpRequest) : Decidable (r.LengthChecked maxLength limit) := by
  refine @instDecidableForall _ _ _ (@Option.decidableForallMem _ _ (fun p => ?_) _)
  split <;> infer_instance

/-- The end of the header was not seen so far. -/
structure HeadWithin (limit : ℕ) (r : HttpRequest) : Prop where
  headerLength : r.headerLength = 0
  size : r.buffer.size = httpHeaderMaxSize
  contentLength : r.contentLength ≤ limit

/-- Both lengths are known. -/
structure BodyWithin (limit : ℕ) (r : HttpRequest) : Prop where
  headerLength_pos : 0 < r.headerLength
  headerLength : r.headerLength ≤ httpHeaderMaxSize
  size : r.buffer.size ≤ httpHeaderMaxSize + limit
  contentLength : r.contentLength ≤ limit

/-- What is known about a request between two reads; an entity of length zero is never
waited for. -/
def Within (limit : ℕ) (r : HttpRequest) : Prop :=
  r.HeadWithin limit ∨ r.BodyWithin limit ∧ r.contentLength ≠ 0

theorem Within.size_le (h : r.Within limit) :
    r.buffer.size ≤ httpHeaderMaxSize + limit := by
  rcases h with h | ⟨h, -⟩
  · rw [h.size]
    exact Nat.le_add_right _ _
  · exact h.size

theorem within_new (fresh : ℕ → UInt8) : (new fresh).Within limit :=
  Or.inl ⟨rfl, rfl, Nat.zero_le _⟩

theorem Within.stored (h : r.Within limit) (bytes : Bytes)
    (hroom : r.buffer.data.length + bytes.length ≤ r.buffer.size) :
    (r.stored bytes hroom).Within limit := by
  rcases h with h | ⟨h, hne⟩
  · exact .inl ⟨h.headerLength, h.size, h.contentLength⟩
  · exact .inr ⟨⟨h.headerLength_pos, h.headerLength, h.size, h.contentLength⟩, hne⟩

theorem Within.getProtocol (h : r.Within limit) : r.getProtocol.1.Within limit := by
  have keep : ∀ r' : HttpRequest, r'.headerLength = r.headerLength →
      r'.contentLength = r.contentLength → r'.buffer.size = r.buffer.size →
      r'.Within limit := by
    intro r' hheader hcontent hsize
    rcases h with h | ⟨h, hne⟩
    · exact .inl ⟨hheader ▸ h.headerLength, hsize ▸ h.size, hcontent ▸ h.contentLength⟩
    · exact .inr ⟨⟨hheader ▸ h.headerLength_pos, hheader ▸ h.headerLength, hsize ▸ h.size,
        hcontent ▸ h.contentLength⟩, hcontent ▸ hne⟩
  unfold HttpRequest.getProtocol
  split
  · exact h
  split <;> exact keep _ rfl rfl rfl

end HttpRequest

namespace HttpConn

open HttpRequest (LengthChecked)

variable {c : HttpConn} {r : HttpRequest} {fresh : ℕ → ℕ → UInt8}

/-- The request being received keeps within the limit of the port, header and entity
together, and so does everything dispatched. -/
structure Within (limit : ℕ) (c : HttpConn) : Prop where
  request : ∀ r ∈ c.request, r.Within limit
  packages : ∀ data ∈ c.packages, data.length ≤ httpHeaderMaxSize + limit

/-- A step keeps within the limit. -/
def StepWithin (limit : ℕ) (result : HttpConn × Next Ret) : Prop :=
  result.1.Within limit

/-- **The condition on a read**: what the header parsers find then is checked. -/
def ChecksLength (fresh : ℕ → ℕ → UInt8) (maxLength limit : ℕ) (c : HttpConn)
    (a : RecvAnswer) : Prop :=
  match recv (c.current fresh).bufLen c.wire a with
  | (.error _, _) => True
  | (.data bytes, _) =>
    ∀ h : (c.current fresh).buffer.data.length + bytes.length ≤ (c.current fresh).buffer.size,
      ∀ r ∈ ((c.current fresh).stored bytes h).parsed, r.LengthChecked maxLength limit

instance (c : HttpConn) (a : RecvAnswer) :
    Decidable (ChecksLength fresh maxLength limit c a) := by
  unfold ChecksLength
  generalize recv (c.current fresh).bufLen c.wire a = result
  obtain ⟨_ | _, _⟩ := result
  · exact inferInstanceAs (Decidable (∀ _ : _ ≤ _, ∀ _ ∈ _, _))
  · exact .isTrue trivial

variable (h : c.Within limit)
include h

theorem Within.closeFd : StepWithin limit c.closeFd :=
  ⟨by simp [HttpConn.closeFd], h.packages⟩

theorem Within.dispatch {data : Bytes} (hle : data.length ≤ httpHeaderMaxSize + limit) :
    StepWithin limit (c.dispatch data) := by
  exact ⟨by simp [HttpConn.dispatch],
    forall_mem_append.mpr ⟨h.packages, forall_mem_singleton.mpr hle⟩⟩

variable (hr : r.Within limit)
include hr

theorem Within.recvData : StepWithin limit (c.recvData r) := by
  refine ⟨fun r' hr' => ?_, h.packages⟩
  cases hr'
  exact hr

theorem Within.httpNoEntity : StepWithin limit (c.httpNoEntity r) := by
  unfold HttpConn.httpNoEntity
  split
  · exact h.dispatch (le_trans r.buffer.length_le hr.size_le)
  split
  · exact h.closeFd
  · exact h.recvData hr

omit hr in
/-- Both lengths are known.  An entity of length zero is there as soon as the header is. -/
theorem Within.httpBody (hr : r.BodyWithin limit)
    (hzero : r.contentLength = 0 → r.headerLength ≤ r.buffer.data.length) :
    StepWithin limit (c.httpBody r) := by
  have hheader := hr.headerLength
  have hcontent := hr.contentLength
  have hsize := hr.size
  unfold HttpConn.httpBody
  simp only
  split
  · refine h.dispatch ?_
    omega
  · next hlen =>
    refine h.recvData (.inr ⟨⟨hr.headerLength_pos, hheader, ?_, hcontent⟩, fun hz => ?_⟩)
    · rw [SwString.reserve_size]
      omega
    · have hz : r.contentLength = 0 := hz
      rw [length_take] at hlen
      omega

theorem Within.httpHeader (hne : r.contentLength ≠ 0) : StepWithin limit (c.httpHeader r) := by
  unfold HttpConn.httpHeader
  rcases hr with hr | ⟨hr, -⟩
  · rw [if_pos hr.headerLength]
    split
    · exact h.closeFd
    unfold getHeaderLength
    cases hpos : strnpos r.buffer.data blankLine with
    | none => exact h.recvData (.inl hr)
    | some n =>
      have hocc := ((Search.firstOcc_eq_some (by simp [blankLine])).mp hpos).1
      have hle : n + 4 ≤ r.buffer.data.length := hocc.length_le (by simp [blankLine])
      have hroom := r.buffer.length_le
      have hsize := hr.size
      refine h.httpBody ⟨Nat.succ_pos _, ?_, ?_, hr.contentLength⟩ fun _ => hle
      · simp only
        omega
      · simp only [hsize]
        omega
  · rw [if_neg (by have := hr.headerLength_pos; omega)]
    exact h.httpBody hr fun hz => absurd hz hne

theorem Within.httpEntity
    (hchecked : r.LengthChecked maxLength limit) : StepWithin limit (c.httpEntity maxLength r) := by
  unfold HttpConn.httpEntity
  by_cases hzero : r.contentLength = 0
  · rw [if_pos hzero]
    have hr : r.HeadWithin limit := by
      rcases hr with hr | ⟨-, hne⟩
      · exact hr
      · exact absurd hzero hne
    have hcheck := hchecked hzero
    unfold getContentLength
    cases hpos : r.contentLengthPos with
    | none =>
      simp only
      split
      · exact h.closeFd
      · exact h.recvData (.inl hr)
    | some p =>
      have hcheck := hcheck p (by simp [hpos])
      cases hend : r.headerEndPos p with
      | none =>
        simp only [hend] at hcheck ⊢
        split
        · exact h.closeFd
        · exact h.recvData (.inl ⟨hr.headerLength, hr.size, hcheck⟩)
      | some q =>
        simp only [hend] at hcheck ⊢
        split
        · exact h.closeFd
        · next hmax =>
          have hroom := r.buffer.length_le
          have hsize := hr.size
          unfold HttpConn.httpHeader
          refine h.httpBody ⟨Nat.succ_pos _, ?_, ?_, ?_⟩ fun _ => hcheck.1
          · simp only
            omega
          · simp only [hsize]
            omega
          · exact hcheck.2.elim (le_trans (Nat.le_of_not_lt hmax)) id
  · rw [if_neg hzero]
    exact h.httpHeader hr hzero

theorem Within.httpMethod
    (hchecked : r.LengthChecked maxLength limit) : StepWithin limit (c.httpMethod maxLength r) := by
  unfold HttpConn.httpMethod
  split
  · split
    · exact h.httpNoEntity hr
    · exact h.httpEntity hr hchecked
  · exact h.httpNoEntity hr
  · exact h.httpNoEntity hr
  · exact h.httpNoEntity hr
  · exact h.httpEntity hr hchecked
  · exact h.httpEntity hr hchecked
  · exact h.httpEntity hr hchecked
  · exact h.closeFd

theorem Within.received (hchecked : ∀ r' ∈ r.parsed, r'.LengthChecked maxLength limit) :
    StepWithin limit (c.received maxLength r) := by
  unfold HttpConn.received
  by_cases hnone : r.method = none
  · rw [if_pos hnone]
    have hprotocol := hr.getProtocol
    rcases heq : r.getProtocol with ⟨r', _ | _⟩
    · rw [heq] at hprotocol
      exact h.httpMethod hprotocol (hchecked r' (by simp [parsed, hnone, heq]))
    · rw [heq] at hprotocol
      simp only
      split
      · exact h.recvData hprotocol
      · exact h.closeFd
  · rw [if_neg hnone]
    exact h.httpMethod hr (hchecked r (by simp [parsed, hnone]))

omit hr

theorem Within.current : (c.current fresh).Within limit := by
  unfold HttpConn.current
  cases hreq : c.request with
  | none => exact within_new _
  | some r => exact h.request r (by simp [hreq])

variable {a : RecvAnswer}

theorem Within.recvHttp (hchecks : ChecksLength fresh maxLength limit c a) :
    StepWithin limit (c.recvHttp fresh maxLength a) := by
  unfold HttpConn.recvHttp
  unfold ChecksLength at hchecks
  simp only
  rcases hrecv : recv (c.current fresh).bufLen c.wire a with ⟨bytes | e, wire⟩
  · rw [hrecv] at hchecks
    cases bytes with
    | nil => exact h.closeFd
    | cons b bs =>
      simp only
      split
      · next hroom =>
        exact Within.received ⟨h.request, h.packages⟩ (h.current.stored _ hroom)
          (hchecks hroom)
      · exact ⟨h.request, h.packages⟩
  · unfold HttpConn.recvFailed
    simp only
    split
    · exact h.closeFd
    · exact h.recvData h.current
    · exact h.recvData h.current
    · exact ⟨h.request, h.packages⟩

/-- **One answer of the kernel.** -/
theorem Within.readTurn (hchecks : ChecksLength fresh maxLength limit c a) :
    (readTurn fresh maxLength c a).Within limit := by
  refine (onReadHttp fresh maxLength).turn_invariant ?_ fun c _ hc => hc
  simp only [onReadHttp]
  split
  · exact h.recvHttp hchecks
  · exact h

omit h

theorem within_init (stream : Bytes) : (init stream).Within limit :=
  ⟨nofun, by simp [init]⟩

end HttpConn

end Http

end Swoole
