import Swoole.Protocol.HttpMessage

/-!
# HTTP requests, however they are cut

A stream of well-formed requests should be dispatched request by request, wherever the
kernel happens to cut it.  The reader keeps what it has parsed of a request and does not
parse it again, and it reads on without looking for the end of the request, so a cut can
go wrong in two ways.

* A chunk that goes past the end of its request belongs to two requests.  The reader
  dispatches both as one, or drops the rest of the chunk.
* A chunk that ends inside the `Content-Length` line may leave a wrong length behind: the
  digits received so far, continued by whatever stands in memory.  A right length that
  comes too early skips the comparison with `package_max_length`, and a full buffer is
  then given up before the end of its header is looked for.

`OneRequest` and `Settled` exclude these.  A run with such clean cuts dispatches the
requests of the stream one by one, up to the first that the port does not accept, where
it closes the connection (`Serves`, `Serves.packages_of_finished`).  What it dispatches is
therefore a function of the stream alone: `packages_eq_of_cleanCuts`.
-/

open List

namespace Swoole

open StepRun

namespace HttpRequest

/-- The request as the header parsers find it, if they are reached. -/
def parsed (r : HttpRequest) : Option HttpRequest :=
  if r.method = none then
    match r.getProtocol with
    | (r', .ok) => some r'
    | (_, .err) => none
  else some r

/-- What is kept of the header is right.  A `Content-Length` line is found in the received
bytes only, with the end of the header behind it, or else with the end of the line behind
it and a value the port accepts, or with the value zero, which is not kept; and a buffer
whose length is known is not full when the end of the header arrives. -/
def Settled (maxLength : ℕ) (r : HttpRequest) : Prop :=
  (r.contentLength = 0 → ∀ p ∈ r.contentLengthPos, p + 16 ≤ r.buffer.data.length ∧
        ((∃ q ∈ r.headerEndPos p, q + 4 ≤ r.buffer.data.length) ∨ r.headerEndPos p = none ∧
            (r.contentLengthValue p = 0 ∨
              cr ∈ r.buffer.data.drop (p + 17) ∧ r.contentLengthValue p ≤ maxLength))) ∧
    (r.contentLength ≠ 0 → r.headerLength = 0 → r.buffer.size = r.buffer.data.length →
      strnpos r.buffer.data blankLine = none)
  deriving Decidable

/-- The reader may look for an entity of the request. -/
def MayHaveEntity (r : HttpRequest) : Prop := ∃ n ∈ r.method, n.kind ≠ .noEntity
  deriving Decidable

/-! ## A request on its way -/

variable {maxLength : ℕ} {m : HttpMessage} {r : HttpRequest}

theorem entity_of_field_ne (h : m.field ≠ none) :
    m.method.kind ≠ .noEntity ∧ m.body.length < 2 ^ 31 := by
  obtain ⟨x, hx⟩ := Option.ne_none_iff_exists'.mp h
  obtain ⟨hkind, -, hbound⟩ := m.body_of_some x (by simp [hx])
  exact ⟨hkind, hbound⟩

/-- The buffer holds a part of `m`, and the end of the header was not seen so far. -/
structure InHeader (maxLength : ℕ) (m : HttpMessage) (r : HttpRequest) : Prop where
  data : r.buffer.data <+: m.text
  method : ∀ n ∈ r.method, n.kind = m.method.kind
  offset : r.buffer.offset ≤ m.requestLine.length
  size : r.buffer.size = httpHeaderMaxSize
  headerLength : r.headerLength = 0
  contentLength : r.contentLength = 0 ∨
    r.contentLength = m.body.length ∧ m.body.length ≤ maxLength ∧ m.field ≠ none

/-- The buffer holds the header of `m` and a part of its body, and both lengths are
known. -/
structure InBody (maxLength : ℕ) (m : HttpMessage) (r : HttpRequest) : Prop where
  data : r.buffer.data <+: m.text
  method : ∀ n ∈ r.method, n.kind = m.method.kind
  method_ne : r.method ≠ none
  size : max r.buffer.size m.text.length = max httpHeaderMaxSize m.text.length
  head_le : m.head.length ≤ httpHeaderMaxSize
  arrived : m.head.length ≤ r.buffer.data.length
  headerLength : r.headerLength = m.head.length
  contentLength : r.contentLength = m.body.length
  body_le : m.body.length ≤ maxLength
  field : m.field ≠ none

/-- A request between two reads: part of `m` is there, and there is room for more. -/
inductive Holds (maxLength : ℕ) (m : HttpMessage) (r : HttpRequest) : Prop
  | header (inHeader : InHeader maxLength m r)
      (lt : r.buffer.data.length < m.head.length)
      (room : r.buffer.data.length < httpHeaderMaxSize)
  | body (inBody : InBody maxLength m r) (lt : r.buffer.data.length < m.text.length)
      (room : r.buffer.data.length < r.buffer.size)

theorem Holds.length_lt (h : Holds maxLength m r) : r.buffer.data.length < m.text.length := by
  cases h with
  | header _ lt _ =>
    rw [HttpMessage.length_text]
    omega
  | body _ lt _ => exact lt

theorem Holds.bufLen_eq (h : Holds maxLength m r) :
    r.bufLen = r.buffer.size - r.buffer.data.length ∧
      r.buffer.data.length < r.buffer.size := by
  have hroom : r.buffer.data.length < r.buffer.size ∧
      r.buffer.size < r.buffer.data.length + 2 ^ 31 := by
    cases h with
    | header h _ room =>
      rw [h.size]
      exact ⟨room, by unfold httpHeaderMaxSize; omega⟩
    | body h _ room =>
      refine ⟨room, ?_⟩
      have hsize := h.size
      have harrived := h.arrived
      have htext := HttpMessage.length_text (m := m)
      have hbody := (entity_of_field_ne h.field).2
      unfold httpHeaderMaxSize at hsize
      omega
  exact ⟨bufLen_of_lt hroom.2, hroom.1⟩

theorem holds_new (fresh : ℕ → UInt8) (m : HttpMessage) : Holds maxLength m (new fresh) := by
  have hlt := HttpMessage.requestLine_lt_head (m := m)
  refine .header ⟨?_, by simp [new], Nat.zero_le _, rfl, rfl, .inl rfl⟩ ?_ ?_
  · exact nil_prefix
  · show 0 < m.head.length
    omega
  · show 0 < httpHeaderMaxSize
    decide

variable {bytes : Bytes}

theorem InHeader.stored (h : InHeader maxLength m r)
    (hroom : r.buffer.data.length + bytes.length ≤ r.buffer.size)
    (hdata : r.buffer.data ++ bytes <+: m.text) : InHeader maxLength m (r.stored bytes hroom) :=
  ⟨hdata, h.method, h.offset, h.size, h.headerLength, h.contentLength⟩

theorem InBody.stored (h : InBody maxLength m r)
    (hroom : r.buffer.data.length + bytes.length ≤ r.buffer.size)
    (hdata : r.buffer.data ++ bytes <+: m.text) : InBody maxLength m (r.stored bytes hroom) := by
  refine ⟨hdata, h.method, h.method_ne, h.size, h.head_le, ?_, h.headerLength, h.contentLength,
    h.body_le, h.field⟩
  show m.head.length ≤ (r.buffer.data ++ bytes).length
  rw [length_append]
  exact Nat.le_trans h.arrived (Nat.le_add_right _ _)

end HttpRequest

/-! ## What the reader makes of a part of a request -/

namespace HttpConn

open HttpRequest HttpMessage

/-- How a read that leaves `data` of `m` in the buffer may end. -/
inductive Outcome (maxLength : ℕ) (m : HttpMessage) (c : HttpConn) (data : Bytes) :
    HttpConn × Next Ret → Prop
  | dispatched (whole : data = m.text) (deliverable : m.Deliverable maxLength) :
      Outcome maxLength m c data (c.dispatch m.text)
  | waiting {r : HttpRequest} {next : Next Ret} (holds : Holds maxLength m r)
      (kept : r.buffer.data = data) :
      Outcome maxLength m c data ({ c with request := some r }, next)
  | closed (not : ¬ m.Deliverable maxLength) :
      Outcome maxLength m c data c.closeFd

section Outcome

variable {maxLength : ℕ} {m : HttpMessage} {r : HttpRequest} (c : HttpConn)

theorem outcome_body (h : InBody maxLength m r) :
    Outcome maxLength m c r.buffer.data (c.httpBody r) := by
  have htext := length_text (m := m)
  have hbound := (entity_of_field_ne h.field).2
  have hhead := h.head_le
  have hle := h.data.length_le
  have hrequest : (r.contentLength + r.headerLength) % 2 ^ 32 = m.text.length := by
    rw [h.contentLength, h.headerLength]
    unfold httpHeaderMaxSize at hhead
    omega
  unfold httpBody
  simp only [hrequest, take_of_length_le hle]
  by_cases hwhole : r.buffer.data.length = m.text.length
  · rw [if_pos hwhole, h.data.eq_of_length hwhole]
    exact .dispatched rfl ⟨h.head_le, h.body_le⟩
  · rw [if_neg hwhole]
    have hsize := h.size
    refine .waiting (.body ⟨?_, h.method, h.method_ne, ?_, h.head_le, ?_, h.headerLength,
      h.contentLength, h.body_le, h.field⟩ ?_ ?_) ?_
    all_goals simp only [SwString.reserve_data, SwString.reserve_size]
    · exact h.data
    · omega
    · exact h.arrived
    all_goals omega

theorem outcome_method_of_inBody (h : InBody maxLength m r) (hbody : m.body.length ≠ 0) :
    Outcome maxLength m c r.buffer.data (c.httpMethod maxLength r) := by
  have hentity : Outcome maxLength m c r.buffer.data (c.httpEntity maxLength r) := by
    have hhead := requestLine_lt_head (m := m)
    rw [httpEntity, if_neg (by rw [h.contentLength]; exact hbody), httpHeader,
      if_neg (by rw [h.headerLength]; omega)]
    exact outcome_body c h
  obtain ⟨n, hn⟩ := Option.ne_none_iff_exists'.mp h.method_ne
  have hkind : n.kind ≠ .noEntity := by
    rw [h.method n (by simp [hn])]
    exact (entity_of_field_ne h.field).1
  unfold httpMethod
  rw [hn]
  cases n with
  | get | head | options => exact absurd rfl hkind
  | post | put | patch => exact hentity
  | delete =>
    rw [if_neg fun hno => hbody (h.contentLength ▸ hno.1)]
    exact hentity

variable (h : InHeader maxLength m r)
include h

/-- The header is not complete: a full buffer is given up, otherwise the reader goes on. -/
theorem outcome_unfinished (hlt : r.buffer.data.length < m.head.length) {n : ℕ}
    (hn : n = 0 ∨ n = m.body.length ∧ m.body.length ≤ maxLength ∧ m.field ≠ none) :
    Outcome maxLength m c r.buffer.data
      (if r.buffer.size = r.buffer.data.length then c.closeFd
      else c.recvData { r with contentLength := n }) := by
  have hsize := r.buffer.length_le
  rw [h.size] at hsize ⊢
  by_cases hfull : httpHeaderMaxSize = r.buffer.data.length
  · rw [if_pos hfull]
    exact .closed fun hdel => by
      have := hdel.1
      omega
  · rw [if_neg hfull]
    exact .waiting (.header ⟨h.data, h.method, h.offset, h.size, h.headerLength, hn⟩ hlt
      (lt_of_le_of_ne hsize (Ne.symm hfull))) rfl

theorem outcome_noEntity_of_lt (hlt : r.buffer.data.length < m.head.length) :
    Outcome maxLength m c r.buffer.data (c.httpNoEntity r) := by
  have hiff := ends_blank_iff h.data (by omega)
  unfold httpNoEntity
  rw [if_neg fun hend => by
    have := hiff.mp hend
    omega]
  exact outcome_unfinished c h hlt h.contentLength

theorem outcome_noEntity (hfield : m.field = none) :
    Outcome maxLength m c r.buffer.data (c.httpNoEntity r) := by
  have hbody : m.body = [] := (m.body_of_none hfield).2
  have htext : m.text.length = m.head.length := by
    rw [length_text, hbody, length_nil, add_zero]
  have hle := h.data.length_le
  rcases lt_or_ge r.buffer.data.length m.head.length with hlt | hge
  · exact outcome_noEntity_of_lt c h hlt
  · have hsize := r.buffer.length_le
    rw [h.size] at hsize
    have hend := (ends_blank_iff h.data (by omega)).mpr (by omega)
    rw [httpNoEntity, if_pos hend, h.data.eq_of_length (by omega)]
    exact .dispatched rfl ⟨by omega, by rw [hbody]; exact Nat.zero_le _⟩

variable {f : ContentLengthField} {after : List Bytes}

/-- The `Content-Length` line is there and the end of the header is not. -/
theorem outcome_length (hfield : m.field = some (f, after))
    (hend : r.headerEndPos m.fieldPos = none)
    (hvalue : r.contentLengthValue m.fieldPos = 0 ∨ cr ∈ r.buffer.data.drop (m.fieldPos + 17) ∧
        r.contentLengthValue m.fieldPos ≤ maxLength) :
    Outcome maxLength m c r.buffer.data
      (if r.buffer.size = r.buffer.data.length then c.closeFd
      else c.recvData { r with contentLength := r.contentLengthValue m.fieldPos }) := by
  refine outcome_unfinished c h (headerEndPos_none h.data hfield hend) ?_
  rcases hvalue with hzero | ⟨hcr, hmax⟩
  · exact .inl hzero
  · have heq := contentLengthValue_eq h.data hfield hcr
    exact .inr ⟨heq, heq ▸ hmax, by simp [hfield]⟩

/-- The end of the header is there, and with it the end of the `Content-Length` line. -/
theorem contentLengthValue_of_headerEnd (hfield : m.field = some (f, after)) {q : ℕ}
    (hend : r.headerEndPos m.fieldPos = some q) (hq : q + 4 ≤ r.buffer.data.length) :
    r.contentLengthValue m.fieldPos = m.body.length := by
  refine contentLengthValue_eq h.data hfield ?_
  obtain ⟨hblank, ⟨hlow, -⟩, -⟩ := Search.firstIn_eq_some.mp hend
  rw [r.buffer.cells_of_le hq] at hblank
  have hmem : cr ∈ (r.buffer.data.drop q).take 4 := by
    rw [hblank]
    decide
  have hdrop : r.buffer.data.drop q =
      (r.buffer.data.drop (m.fieldPos + 17)).drop (q - (m.fieldPos + 17)) := by
    rw [drop_drop]
    congr 1
    omega
  rw [hdrop] at hmem
  exact mem_of_mem_drop (mem_of_mem_take hmem)

variable (hmethod : r.method ≠ none)
include hmethod

theorem outcome_header (hlen : r.contentLength = m.body.length) (hle : m.body.length ≤ maxLength)
    (hfield : m.field ≠ none)
    (hfull : r.buffer.size = r.buffer.data.length → strnpos r.buffer.data blankLine = none) :
    Outcome maxLength m c r.buffer.data (c.httpHeader r) := by
  unfold httpHeader
  rw [if_pos h.headerLength]
  rcases lt_or_ge r.buffer.data.length m.head.length with hlt | hge
  · simp only [getHeaderLength, strnpos_of_lt h.data hlt]
    exact outcome_unfinished c h hlt h.contentLength
  · have hpos := strnpos_of_le h.data hge
    have hsize := r.buffer.length_le
    rw [h.size] at hsize
    rw [if_neg fun heq => by simp [hfull heq] at hpos]
    simp only [getHeaderLength, hpos]
    have hhead := requestLine_lt_head (m := m)
    have hbody : InBody maxLength m { r with headerLength := m.head.length - 4 + 4 } :=
      ⟨h.data, h.method, hmethod, by rw [h.size], by omega, hge, by
        show m.head.length - 4 + 4 = m.head.length
        omega, hlen, hle, hfield⟩
    exact outcome_body c hbody

/-- `http_entity` with the length of the entity still to be found. -/
theorem outcome_find (hzero : r.contentLength = 0) (hfield : m.field = some (f, after))
    (hsettled : r.Settled maxLength) :
    Outcome maxLength m c r.buffer.data (c.httpEntity maxLength r) := by
  unfold httpEntity
  rw [if_pos hzero]
  cases hpos : r.contentLengthPos with
  | none =>
    have hlt := contentLengthPos_none h.data h.offset hfield hpos
    simp only [getContentLength, hpos]
    exact outcome_unfinished c h hlt h.contentLength
  | some p =>
    obtain ⟨hinside, hcases⟩ := hsettled.1 hzero p (by simp [hpos])
    obtain rfl := contentLengthPos_eq_fieldPos h.data h.offset hfield hpos hinside
    rcases hcases with ⟨q, hend, hq⟩ | ⟨hend, hvalue⟩
    · have hend' : r.headerEndPos m.fieldPos = some q := hend
      have hhead := headerEndPos_some h.data hfield hend' hq
      have hvalue := contentLengthValue_of_headerEnd h hfield hend' hq
      simp only [getContentLength, hpos, hend', hvalue]
      by_cases hmax : maxLength < m.body.length
      · rw [if_pos hmax]
        exact .closed fun hdel => by
          have := hdel.2
          omega
      · rw [if_neg hmax, httpHeader, if_neg (show q + 4 ≠ 0 by omega)]
        have hsize := r.buffer.length_le
        rw [h.size] at hsize
        have hbody : InBody maxLength m
            { r with
              contentLength := m.body.length
              headerLength := q + 4
              buffer := { r.buffer with offset := q + 4 } } :=
          ⟨h.data, h.method, hmethod, by rw [← h.size], by omega, hhead ▸ hq, hhead, rfl,
            by omega, by simp [hfield]⟩
        exact outcome_body c hbody
    · simp only [getContentLength, hpos, hend]
      exact outcome_length c h hfield hend hvalue

/-- `http_entity`, in the header. -/
theorem outcome_entity (hfield : m.field ≠ none) (hsettled : r.Settled maxLength) :
    Outcome maxLength m c r.buffer.data (c.httpEntity maxLength r) := by
  by_cases hzero : r.contentLength = 0
  · obtain ⟨⟨f, after⟩, hx⟩ := Option.ne_none_iff_exists'.mp hfield
    exact outcome_find c h hmethod hzero hx hsettled
  · rcases h.contentLength with hc | ⟨hlen, hle, -⟩
    · exact absurd hc hzero
    · rw [httpEntity, if_neg hzero]
      exact outcome_header c h hmethod hlen hle hfield (hsettled.2 hzero h.headerLength)

theorem outcome_method (hsettled : r.MayHaveEntity → r.Settled maxLength) :
    Outcome maxLength m c r.buffer.data (c.httpMethod maxLength r) := by
  obtain ⟨n, hn⟩ := Option.ne_none_iff_exists'.mp hmethod
  have hkind : n.kind = m.method.kind := h.method n (by simp [hn])
  have hsettled' : n.kind ≠ .noEntity → r.Settled maxLength :=
    fun hne => hsettled ⟨n, by simp [hn], hne⟩
  have hbare : n.kind = .noEntity → m.field = none := by
    intro hno
    by_contra hne
    exact (entity_of_field_ne hne).1 (hkind ▸ hno)
  have hentity : n.kind = .entity → m.field ≠ none :=
    fun hyes hnone => (m.body_of_none hnone).1 (hkind ▸ hyes)
  unfold httpMethod
  rw [hn]
  cases n with
  | get | head | options => exact outcome_noEntity c h (hbare rfl)
  | post | put | patch =>
    exact outcome_entity c h hmethod (hentity rfl) (hsettled' (by decide))
  | delete =>
    have hset := hsettled' (by decide)
    by_cases hno : r.contentLength = 0 ∧ r.haveContentLength = false
    · rw [if_pos hno]
      by_cases hfield : m.field = none
      · exact outcome_noEntity c h hfield
      · -- the line that says so is still to come
        obtain ⟨⟨f, after⟩, hx⟩ := Option.ne_none_iff_exists'.mp hfield
        have hpos : r.contentLengthPos = none := by simpa [haveContentLength] using hno.2
        exact outcome_noEntity_of_lt c h (contentLengthPos_none h.data h.offset hx hpos)
    · rw [if_neg hno]
      refine outcome_entity c h hmethod (fun hnone => hno ?_) hset
      have hzero : r.contentLength = 0 := h.contentLength.resolve_right fun hk => hk.2.2 hnone
      refine ⟨hzero, ?_⟩
      have hpos := contentLengthPos_of_none h.data hnone (hkind ▸ by decide)
        fun p hp => (hset.1 hzero p hp).1
      simp [haveContentLength, hpos]

omit h hmethod in
/-- **One read.**  More of a request arrives: it is dispatched when it is complete, the
connection is closed if the port does not accept it, and otherwise the reader waits. -/
theorem outcome_received (h : Holds maxLength m r) (hne : bytes ≠ [])
    (hroom : r.buffer.data.length + bytes.length ≤ r.buffer.size)
    (hdata : r.buffer.data ++ bytes <+: m.text)
    (hsettled : ∀ r' ∈ (r.stored bytes hroom).parsed, r'.MayHaveEntity → r'.Settled maxLength) :
    Outcome maxLength m c (r.buffer.data ++ bytes)
      (c.received maxLength (r.stored bytes hroom)) := by
  unfold received
  cases h with
  | body h lt _ =>
    have htext := length_text (m := m)
    have harrived := h.arrived
    have hstored := h.stored hroom hdata
    rw [if_neg hstored.method_ne]
    exact outcome_method_of_inBody c hstored (by omega)
  | header h _ _ =>
    have hstored := h.stored hroom hdata
    by_cases hmethod : (r.stored bytes hroom).method = none
    · rw [if_pos hmethod]
      obtain ⟨method, offset, version, cursor, hr, hkind, hcursor, herr, hok⟩ :=
        getProtocol_spec hstored.data
          (by simp [HttpRequest.stored, hne]) hmethod hstored.offset
      have hparsed : InHeader maxLength m (r.stored bytes hroom).getProtocol.1 := by
        rw [hr]
        exact ⟨hdata, hkind, hcursor, h.size, h.headerLength, h.contentLength⟩
      have hsame : (r.stored bytes hroom).getProtocol.1.buffer.data = r.buffer.data ++ bytes := by
        rw [hr]
        rfl
      have hhead := requestLine_lt_head (m := m)
      replace hok : (r.stored bytes hroom).getProtocol.2 = .ok →
          (r.stored bytes hroom).getProtocol.1.method ≠ none := by
        rw [hr]
        exact hok
      rcases hprotocol : (r.stored bytes hroom).getProtocol with ⟨r', _ | _⟩
      · rw [hprotocol] at hparsed hsame hok
        have hset := hsettled r' (by simp [parsed, hmethod, hprotocol])
        exact hsame ▸ outcome_method c hparsed (hok rfl) hset
      · rw [hprotocol] at hparsed hsame herr
        have hsame' : r'.buffer.data = r.buffer.data ++ bytes := hsame
        have hlt : (r.buffer.data ++ bytes).length < m.requestLine.length := herr rfl
        simp only [hsame']
        split
        · next hshort =>
          exact .waiting (.header hparsed (by rw [hsame]; omega) (by rw [hsame]; exact hshort))
            hsame
        · next hlong =>
          exact .closed fun hdel => by
            have := hdel.1
            omega
    · rw [if_neg hmethod]
      exact outcome_method c hstored hmethod (hsettled _ (by simp [parsed, hmethod]))

end Outcome

/-! ## Runs -/

/-- The bytes of some requests. -/
def stream (ms : List HttpMessage) : Bytes := ms.flatMap text

/-- No request begins inside the chunk that shortens the rest of the stream to `wire`. -/
def OneRequest (ms : List HttpMessage) (c : HttpConn) (wire : Bytes) : Prop :=
  ∀ n < ms.length, wire.length < (stream (ms.drop n)).length →
    c.wire.length ≤ (stream (ms.drop n)).length

instance (ms : List HttpMessage) (c : HttpConn) (wire : Bytes) : Decidable (OneRequest ms c wire) :=
  inferInstanceAs (Decidable (∀ _ < _, _))

/-- **The condition on a read**: the chunk belongs to one request, and what is kept of its
header is right. -/
def CleanCut (fresh : ℕ → ℕ → UInt8) (maxLength : ℕ) (ms : List HttpMessage)
    (c : HttpConn) (a : RecvAnswer) : Prop :=
  match recv (c.current fresh).bufLen c.wire a with
  | (.error _, _) => True
  | (.data bytes, wire) =>
    OneRequest ms c wire ∧
      ∀ h : (c.current fresh).buffer.data.length + bytes.length ≤ (c.current fresh).buffer.size,
        ∀ r ∈ ((c.current fresh).stored bytes h).parsed,
          r.MayHaveEntity → r.Settled maxLength

instance (fresh : ℕ → ℕ → UInt8) (maxLength : ℕ) (ms : List HttpMessage) (c : HttpConn)
    (a : RecvAnswer) : Decidable (CleanCut fresh maxLength ms c a) := by
  unfold CleanCut
  split <;> infer_instance

section Run

variable {fresh : ℕ → ℕ → UInt8} {maxLength : ℕ} {ms : List HttpMessage} {c : HttpConn}

/-- The request being received is the first of those that are left. -/
def Waits (maxLength : ℕ) (r : HttpRequest) : List HttpMessage → Prop
  | [] => ∃ left, r = .new left
  | m :: _ => Holds maxLength m r

/-- Some requests are dispatched, and `rest` is left: either the reader waits for the
first of them, or it has closed the connection because of it. -/
structure Serves (fresh : ℕ → ℕ → UInt8) (maxLength : ℕ) (done rest : List HttpMessage)
    (c : HttpConn) : Prop where
  deliverable : ∀ m ∈ done, m.Deliverable maxLength
  packages : c.packages = done.map text
  status : c.status = .active ∧ (c.current fresh).buffer.data ++ c.wire = stream rest ∧
      Waits maxLength (c.current fresh) rest ∨
    c.status = .closed ∧ ∃ m ∈ rest.head?, ¬ m.Deliverable maxLength

theorem waits_new (left : ℕ → UInt8) (rest : List HttpMessage) :
    Waits maxLength (.new left) rest := by
  cases rest with
  | nil => exact ⟨left, rfl⟩
  | cons m rest => exact holds_new left m

variable {rest : List HttpMessage} {r : HttpRequest}

theorem Waits.bufLen_eq (h : Waits maxLength r rest) :
    r.bufLen = r.buffer.size - r.buffer.data.length ∧ r.buffer.data.length < r.buffer.size := by
  cases rest with
  | nil =>
    obtain ⟨left, rfl⟩ := h
    refine ⟨bufLen_of_lt ?_, ?_⟩
    · show httpHeaderMaxSize < 0 + 2 ^ 31
      decide
    · show 0 < httpHeaderMaxSize
      decide
  | cons m rest => exact Holds.bufLen_eq h

theorem readTurn_of_active (hact : c.status = .active) (a : RecvAnswer) :
    readTurn fresh maxLength c a = (c.recvHttp fresh maxLength a).1 := by
  unfold readTurn Resumable.turn
  simp only [onReadHttp, if_pos hact]
  rcases c.recvHttp fresh maxLength a with ⟨c', _ | v⟩ <;> rfl

theorem readTurn_of_not_active (h : c.status ≠ .active) (a : RecvAnswer) :
    readTurn fresh maxLength c a = c := by
  simp [readTurn, Resumable.turn, onReadHttp, h]

variable {done : List HttpMessage}

/-- The chunk that a clean cut makes belongs to the request that is being received. -/
theorem prefix_text_of_oneRequest {m : HttpMessage} {wire : Bytes}
    (hone : OneRequest (done ++ m :: rest) c wire) (hholds : Holds maxLength m r)
    (hsplit : bytes ++ wire = c.wire) (hstream : r.buffer.data ++ c.wire = stream (m :: rest)) :
    r.buffer.data ++ bytes <+: m.text ∧ r.buffer.data ++ bytes ++ wire = m.text ++ stream rest := by
  have hcons : stream (m :: rest) = m.text ++ stream rest := by simp [stream]
  have hwhole : r.buffer.data ++ bytes ++ wire = m.text ++ stream rest := by
    rw [append_assoc, hsplit, hstream, hcons]
  refine ⟨?_, hwhole⟩
  have hlt := hholds.length_lt
  have hlen := congrArg length hwhole
  have hlen' := congrArg length hsplit
  simp only [length_append] at hlen hlen'
  have hge : (stream rest).length ≤ wire.length := by
    by_contra hshort
    have hne : rest ≠ [] := by
      rintro rfl
      simp [stream] at hshort
    have hdrop : (done ++ m :: rest).drop (done.length + 1) = rest := by
      rw [← drop_drop, drop_left]
      rfl
    have hle := hone (done.length + 1) (by
      have := length_pos_iff.mpr hne
      rw [length_append, length_cons]
      omega)
    rw [hdrop] at hle
    omega
  refine prefix_of_prefix_length_le (prefix_append _ wire) ?_ (by
    rw [length_append]
    omega)
  rw [hwhole]
  exact prefix_append _ _

/-- **The step lemma.** -/
theorem Serves.step (h : Serves fresh maxLength done rest c) {a : RecvAnswer} (ha : a.Benign)
    (hcut : CleanCut fresh maxLength (done ++ rest) c a) :
    ∃ done' rest', done ++ rest = done' ++ rest' ∧
      Serves fresh maxLength done' rest' (readTurn fresh maxLength c a) := by
  rcases h.status with ⟨hact, hstream, hwaits⟩ | ⟨hclosed, -⟩
  · rw [readTurn_of_active hact]
    obtain ⟨hlen, hroom⟩ := hwaits.bufLen_eq
    unfold CleanCut at hcut
    unfold recvHttp
    rcases @recv_benign (c.current fresh).bufLen c.wire a (by omega) ha with
      ⟨bytes, wire, hrecv, hne⟩ | ⟨e, hrecv, htransient⟩
    · obtain ⟨hsplit, hbytes, -⟩ := recv_data hrecv
      rw [hrecv] at hcut
      cases rest with
      | nil =>
        -- nothing can arrive
        exfalso
        have hnil := (append_eq_nil_iff.mp (hstream.trans rfl)).2
        rw [← hsplit] at hnil
        exact hne (append_eq_nil_iff.mp hnil).1
      | cons m rest =>
        have hfits : (c.current fresh).buffer.data.length + bytes.length ≤
            (c.current fresh).buffer.size := by omega
        obtain ⟨hdata, hwhole⟩ := prefix_text_of_oneRequest hcut.1 hwaits hsplit hstream
        have hout := outcome_received { c with wire := wire } hwaits hne hfits hdata
          (hcut.2 hfits)
        obtain ⟨b, bs, rfl⟩ := exists_cons_of_ne_nil hne
        simp only [hrecv, dif_pos hfits]
        generalize ({ c with wire := wire } : HttpConn).received maxLength
          ((c.current fresh).stored (b :: bs) hfits) = result at hout ⊢
        cases hout with
        | dispatched whole deliverable =>
          refine ⟨done ++ [m], rest, by simp, ?_, ?_, .inl ⟨hact, ?_, waits_new _ _⟩⟩
          · intro x hx
            rcases mem_append.mp hx with hx | hx
            · exact h.deliverable x hx
            · obtain rfl : x = m := by simpa using hx
              exact deliverable
          · simp [dispatch, h.packages]
          · rw [whole] at hwhole
            exact append_cancel_left hwhole
        | waiting holds kept =>
          refine ⟨done, m :: rest, rfl, h.deliverable, h.packages, .inl ⟨hact, ?_, holds⟩⟩
          simp only [current, Option.getD_some]
          rw [kept, hwhole]
          simp [stream]
        | closed not =>
          exact ⟨done, m :: rest, rfl, h.deliverable, h.packages, .inr ⟨rfl, m, rfl, not⟩⟩
    · refine ⟨done, rest, rfl, ?_⟩
      have hkeep : (c.recvFailed (c.current fresh) e).1 =
          { c with request := some (c.current fresh) } := by
        unfold recvFailed
        rcases htransient with hw | hw <;> rw [hw]
      simp only [hrecv]
      rw [hkeep]
      exact ⟨h.deliverable, h.packages, .inl ⟨hact, hstream, hwaits⟩⟩
  · rw [readTurn_of_not_active (by simp [hclosed])]
    exact ⟨done, rest, rfl, h⟩

end Run

section Streams

variable (fresh : ℕ → ℕ → UInt8) (maxLength : ℕ) (ms : List HttpMessage)

/-- The requests of a stream that a port serves: those up to the first one that it does
not accept. -/
def served : List HttpMessage := ms.takeWhile fun m => m.Deliverable maxLength

/-- A run is over when the whole stream was received or the connection is closed. -/
def Finished (c : HttpConn) : Prop := c.wire = [] ∨ c.status ≠ .active
  deriving Decidable

variable {fresh maxLength ms} {c : HttpConn} {answers : List RecvAnswer}

theorem serves_init : Serves fresh maxLength [] ms (init (stream ms)) where
  deliverable := by simp
  packages := rfl
  status := .inl ⟨rfl, rfl, waits_new _ ms⟩

/-- In every state of a run with clean cuts the packages are the first requests of the
stream, each as a whole. -/
theorem serves_run (hbenign : ∀ a ∈ answers, a.Benign)
    (hcut : EachStep (readTurn fresh maxLength) (CleanCut fresh maxLength ms)
      (init (stream ms)) answers) :
    ∃ done rest, ms = done ++ rest ∧
      Serves fresh maxLength done rest
        (run (readTurn fresh maxLength) (init (stream ms)) answers) := by
  refine ((eachStep_of_forall hbenign _).and hcut).run_invariant
    (P := fun c => ∃ done rest, ms = done ++ rest ∧ Serves fresh maxLength done rest c)
    ?_ ⟨[], ms, rfl, serves_init⟩
  rintro c a ⟨done, rest, rfl, h⟩ ⟨ha, hc⟩
  exact h.step ha hc

/-- **What is dispatched.**  When a run is over, the packages are the requests that the
port serves, and the connection is closed exactly if one was not accepted. -/
theorem Serves.packages_of_finished (hms : ms = done ++ rest)
    (h : Serves fresh maxLength done rest c) (hfin : c.Finished) :
    c.packages = (served maxLength ms).map text ∧
      c.status = if ∀ m ∈ ms, m.Deliverable maxLength then .active else .closed := by
  have hdone : ∀ m ∈ done, decide (m.Deliverable maxLength) = true :=
    fun m hm => decide_eq_true (h.deliverable m hm)
  subst hms
  unfold served
  rw [takeWhile_append_of_pos hdone, h.packages]
  rcases h.status with ⟨hact, hstream, hwaits⟩ | ⟨hclosed, m, hm, hnot⟩
  · have hwire : c.wire = [] := hfin.resolve_right (by simp [hact])
    cases rest with
    | nil =>
      rw [append_nil, if_pos h.deliverable]
      exact ⟨by simp, hact⟩
    | cons m rest =>
      -- the first request that is left is not complete
      exfalso
      have hlt := Holds.length_lt hwaits
      have hlen := congrArg length hstream
      rw [hwire, append_nil] at hlen
      simp only [stream, flatMap_cons, length_append] at hlen
      omega
  · cases rest with
    | nil => simp at hm
    | cons x rest =>
      obtain rfl : x = m := by simpa using hm
      rw [takeWhile_cons_of_neg (by simpa using hnot), append_nil,
        if_neg fun hall => hnot (hall x (by simp))]
      exact ⟨rfl, hclosed⟩

end Streams

/-- **HTTP framing does not depend on segmentation.**  Two runs over the same well-formed
requests, both with clean cuts and both over, dispatch the same requests, and both keep
the connection or both close it; whatever the two runs find in their memory. -/
theorem packages_eq_of_cleanCuts (fresh fresh' : ℕ → ℕ → UInt8) (maxLength : ℕ)
    (ms : List HttpMessage) (answers answers' : List RecvAnswer)
    (hbenign : ∀ a ∈ answers, a.Benign) (hbenign' : ∀ a ∈ answers', a.Benign)
    (hcut : EachStep (readTurn fresh maxLength) (CleanCut fresh maxLength ms)
      (init (stream ms)) answers)
    (hcut' : EachStep (readTurn fresh' maxLength) (CleanCut fresh' maxLength ms)
      (init (stream ms)) answers')
    (hfin : (run (readTurn fresh maxLength) (init (stream ms)) answers).Finished)
    (hfin' : (run (readTurn fresh' maxLength) (init (stream ms)) answers').Finished) :
    (run (readTurn fresh maxLength) (init (stream ms)) answers).packages =
        (run (readTurn fresh' maxLength) (init (stream ms)) answers').packages ∧
      (run (readTurn fresh maxLength) (init (stream ms)) answers).status =
        (run (readTurn fresh' maxLength) (init (stream ms)) answers').status := by
  obtain ⟨done, rest, hms, hserves⟩ := serves_run hbenign hcut
  obtain ⟨done', rest', hms', hserves'⟩ := serves_run hbenign' hcut'
  obtain ⟨hpackages, hstatus⟩ := hserves.packages_of_finished hms hfin
  obtain ⟨hpackages', hstatus'⟩ := hserves'.packages_of_finished hms' hfin'
  exact ⟨hpackages.trans hpackages'.symm, hstatus.trans hstatus'.symm⟩

/-- `POST / HTTP/1.1` with a body of eleven bytes. -/
def postMessage : HttpMessage where
  method := .post
  target := [47]
  version := .v11
  before := []
  field := some (⟨contentLengthName, [32], [49, 49], [], rfl, by simp, by simp [isDigit],
    by simp, by simp⟩, [])
  body := replicate 11 120
  target_ne := by simp
  target_clean := by simp [space, cr]
  before_clean := by simp
  after_clean := by simp
  before_other := by simp
  body_of_none := by decide
  body_of_some := by decide

/-- `GET / HTTP/1.1` with one header line. -/
def getMessage : HttpMessage where
  method := .get
  target := [47]
  version := .v11
  before := [ascii ['H', 'o', 's', 't', ':', ' ', 'a']]
  field := none
  body := []
  target_ne := by simp
  target_clean := by simp [space, cr]
  before_clean := by
    simp only [mem_singleton, forall_eq]
    decide
  after_clean := by simp
  before_other := by simp [HttpMethod.kind]
  body_of_none := by decide
  body_of_some := by simp

/-- Both requests at one go each, and in six pieces: the method is cut in two and read
with the help of a cell behind it, the next cuts fall inside the version, behind the
`Content-Length` line and inside the body. -/
theorem packages_eq_two_requests :
    (run (readTurn (fun _ _ => 0) 1024) (init (stream [getMessage, postMessage]))
        [.deliver 26, .deliver 49]).packages =
      (run (readTurn (fun _ _ => 84) 1024) (init (stream [getMessage, postMessage]))
        [.deliver 1, .deliver 24, .deliver 9, .deliver 26, .deliver 5, .deliver 6]).packages :=
  (packages_eq_of_cleanCuts (fun _ _ => 0) (fun _ _ => 84) 1024 [getMessage, postMessage]
    [.deliver 26, .deliver 49]
    [.deliver 1, .deliver 24, .deliver 9, .deliver 26, .deliver 5, .deliver 6]
    (by decide) (by decide) (by decide +kernel) (by decide +kernel) (by decide +kernel)
    (by decide +kernel)).1

/-- **A cut between two digits.**  Received as a whole, the request is dispatched as a
whole; cut behind `Content-Length: 1`, it is dispatched with one byte of its body, and the
other ten are dropped. -/
theorem not_same_split_digits :
    let whole := run (readTurn (fun _ _ => 0) 1024) (init (stream [postMessage])) [.deliver 99]
    let cut := run (readTurn (fun _ _ => 0) 1024) (init (stream [postMessage]))
      [.deliver 33, .deliver 99]
    whole.Finished ∧ cut.Finished ∧ whole.packages ≠ cut.packages := by
  decide +kernel

end HttpConn

end Swoole
