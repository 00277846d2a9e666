import Swoole.Protocol.Http2Framing
import Swoole.Protocol.HttpMessage

/-!
# The head of a request, whatever has been received

`HttpMessage` says what the parsers find in the beginning of a well-formed request.  Here the buffer
may hold anything.

`swHttpRequest_get_protocol` keeps the method before it has seen the rest of the line, and it
succeeds without a version when the received bytes end before the version begins.  The version is
looked for behind the first blank, in whatever line that is (`lineRead_iff_ready`).

`swHttpRequest_get_content_length` compares the beginning of a line with the name, and it looks for
the blank line only behind the line it has taken (`fromHeader_iff_clean`).
-/

open List Search

namespace Swoole.HttpRequest

open Http2 (preface)

/-! ## The request line -/

/-- A request of which nothing is known yet. -/
def unread (s : SwString) : HttpRequest := ⟨none, 0, none, 0, 0, s⟩

/-- `swHttpRequest_get_protocol` with the preface of HTTP/2; the flag is set for `HTTP_PRI`. -/
def getProtocolHttp2 (r : HttpRequest) : HttpRequest × Bool × Ret :=
  if readMethod r.buffer = none ∧ r.buffer.cells 0 3 = preface.take 3 then
    if r.buffer.cells 0 preface.length = preface then
      ({ r with buffer := { r.buffer with offset := preface.length } }, true, .ok)
    else (r, true, .err)
  else (r.getProtocol.1, false, r.getProtocol.2)

/-- Success means that the offset lies within the received bytes, right behind a version in their
first line; failure means that the request is as it was. -/
def LineRead (s : SwString) : Prop :=
  match getProtocolHttp2 (unread s) with
  | (r, pri, .ok) =>
    r.buffer.offset ≤ s.data.length ∧ (pri = false → ∃ v : HttpVersion, r.version = some v ∧
      v.text <:+ s.data.take r.buffer.offset ∧ ¬ [cr, lf] <:+: s.data.take r.buffer.offset)
  | (r, pri, .err) => pri = false ∧ r.method = none ∧ r.version = none

/-- A method, any byte, a target without a blank, the blank at `q` and a version, in one line. -/
structure RequestLine (s : SwString) (m : HttpMethod) (q : ℕ) (v : HttpVersion) : Prop where
  method : s.cells 0 m.text.length = m.text
  target : m.text.length + 1 ≤ q
  target_clean : ∀ j, m.text.length + 1 ≤ j → j < q → s.byteAt j ≠ space
  blank : s.byteAt q = space
  version : v.text <+: s.data.drop (q + 1)
  line : ¬ [cr, lf] <:+: s.data.take (q + 9)

/-- The received bytes begin with a request line up to its version, or with the preface; or the
block begins with neither a method nor the beginning of the preface. -/
def LineReady (s : SwString) : Prop :=
  (∃ m q v, RequestLine s m q v) ∨ preface <+: s.data ∨
    (∀ m : HttpMethod, s.cells 0 m.text.length ≠ m.text) ∧
      s.cells 0 3 ≠ preface.take 3

variable {s : SwString} {m m' : HttpMethod} {q : ℕ} {v : HttpVersion}

theorem cells_isPrefix (s : SwString) {n n' : ℕ} (h : n ≤ n') : s.cells 0 n <+: s.cells 0 n' := by
  obtain ⟨k, rfl⟩ := Nat.exists_eq_add_of_le h
  rw [s.cells_append]
  exact prefix_append _ _

theorem method_unique (h : s.cells 0 m.text.length = m.text)
    (h' : s.cells 0 m'.text.length = m'.text) : m = m' := by
  rcases Nat.le_total m.text.length m'.text.length with hle | hle
  · exact HttpMessage.method_of_isPrefix m' m (h ▸ h' ▸ cells_isPrefix s hle)
  · exact (HttpMessage.method_of_isPrefix m m' (h ▸ h' ▸ cells_isPrefix s hle)).symm

theorem readMethod_eq_none :
    readMethod s = none ↔ ∀ m : HttpMethod, s.cells 0 m.text.length ≠ m.text := by
  have hall : ∀ m : HttpMethod, m ∈ methods := fun m => by cases m <;> decide
  simp [readMethod, find?_eq_none, hall]

theorem readMethod_text (h : readMethod s = some m) : s.cells 0 m.text.length = m.text := by
  simpa using find?_some h

theorem version_isPrefix {p : ℕ} (h : p + 8 ≤ s.data.length) :
    v.text <+: s.data.drop p ↔ s.cells p 8 = v.text := by
  rw [s.cells_of_le h, prefix_iff_eq_take, v.length_text, eq_comm]

/-- With a method, everything depends on what stands behind the first blank. -/
theorem lineRead_of_method (hm : readMethod s = some m) :
    LineRead s ↔ ∃ q v, RequestLine s m q v := by
  have hpri : ¬ (readMethod s = none ∧ s.cells 0 3 = preface.take 3) := by simp [hm]
  have hmethod := readMethod_text hm
  unfold LineRead getProtocolHttp2
  rw [show (unread s).buffer = s from rfl, if_neg hpri]
  simp only [getProtocol, show (unread s).buffer = s from rfl, hm]
  unfold readVersion
  cases hspace : findSpace s (m.text.length + 1) with
  | none =>
    refine iff_of_false (fun h => ?_) ?_
    · obtain ⟨v, hv, -⟩ := h.2 rfl
      cases hv
    · rintro ⟨q, v, h⟩
      have hle := h.version.length_le
      rw [length_drop, v.length_text] at hle
      exact firstIn_eq_none.mp hspace q h.target (by omega) h.blank
  | some q =>
    obtain ⟨hblank, ⟨hlow, hhigh⟩, hbefore⟩ := firstIn_eq_some.mp hspace
    have hq : ∀ q' v, RequestLine s m q' v → q' = q ∧ v.text <+: s.data.drop (q + 1) ∧
        q + 9 ≤ s.data.length := by
      intro q' v h
      obtain rfl : q' = q := by
        rcases Nat.lt_trichotomy q' q with hlt | heq | hlt
        · exact absurd h.blank (hbefore q' h.target hlt)
        · exact heq
        · exact absurd hblank (h.target_clean q hlow hlt)
      have hle := h.version.length_le
      rw [length_drop, v.length_text] at hle
      exact ⟨rfl, h.version, by omega⟩
    have hfound : ∀ v : HttpVersion, q + 9 ≤ s.data.length → s.cells (q + 1) 8 = v.text →
        ((q + 1 + 8 ≤ s.data.length ∧ (false = false → ∃ v' : HttpVersion, some v = some v' ∧
          v'.text <:+ s.data.take (q + 1 + 8) ∧ ¬ [cr, lf] <:+: s.data.take (q + 1 + 8))) ↔
            ∃ q v, RequestLine s m q v) := by
      intro v hle hcells
      have hversion := (version_isPrefix (p := q + 1) hle).mpr hcells
      constructor
      · rintro ⟨-, h⟩
        obtain ⟨v', -, -, hline⟩ := h rfl
        exact ⟨q, v, hmethod, hlow, hbefore, hblank, hversion, hline⟩
      · rintro ⟨q', v', h⟩
        obtain ⟨rfl, -, -⟩ := hq q' v' h
        refine ⟨hle, fun _ => ⟨v, rfl, ?_, h.line⟩⟩
        rw [take_add, ← s.cells_of_le (i := q' + 1) hle, hcells]
        exact suffix_append _ _
    simp only
    split_ifs with hlt hlong h11 h10
    · refine iff_of_false (by simp) ?_
      rintro ⟨q', v, h⟩
      have := (hq q' v h).2.2
      omega
    · exact hfound .v11 (by omega) h11
    · exact hfound .v10 (by omega) h10
    · refine iff_of_false (by simp) ?_
      rintro ⟨q', v, h⟩
      obtain ⟨-, hversion, hle⟩ := hq q' v h
      rw [version_isPrefix hle] at hversion
      cases v with
      | v10 => exact h10 hversion
      | v11 => exact h11 hversion
    · refine iff_of_false (fun h => ?_) ?_
      · obtain ⟨v, hv, -⟩ := h.2 rfl
        cases hv
      · rintro ⟨q', v, h⟩
        have := (hq q' v h).2.2
        omega

/-- **When the request line is read as it should be**: exactly when it has been received up to its
version, which stands behind the first blank of the first line; or when the block begins with no
method at all. -/
theorem lineRead_iff_ready (s : SwString) : LineRead s ↔ LineReady s := by
  cases hm : readMethod s with
  | some m =>
    have hmethod := readMethod_text hm
    rw [lineRead_of_method hm]
    constructor
    · rintro ⟨q, v, h⟩
      exact .inl ⟨m, q, v, h⟩
    · rintro (⟨m', q, v, h⟩ | ⟨rest, hrest⟩ | ⟨hnone, -⟩)
      · obtain rfl := method_unique h.method hmethod
        exact ⟨q, v, h⟩
      · rw [Http2Conn.readMethod_preface hrest.symm] at hm
        cases hm
      · exact absurd hmethod (hnone m)
  | none =>
    have hnone := readMethod_eq_none.mp hm
    have hline : ¬ ∃ m q v, RequestLine s m q v := by
      rintro ⟨m, q, v, h⟩
      exact hnone m h.method
    unfold LineRead LineReady getProtocolHttp2
    simp only [show (unread s).buffer = s from rfl, hm, true_and, hline, false_or]
    by_cases hpri : s.cells 0 3 = preface.take 3
    · simp only [hpri, if_true, ne_eq, not_true_eq_false, and_false, or_false]
      by_cases hwhole : s.cells 0 preface.length = preface
      · rw [if_pos hwhole]
        simp only [Bool.true_eq_false, false_imp_iff, and_true]
        constructor
        · intro hle
          rw [s.cells_of_le (by rwa [zero_add]), drop_zero] at hwhole
          exact hwhole ▸ take_prefix _ _
        · exact IsPrefix.length_le
      · rw [if_neg hwhole]
        refine iff_of_false (by simp) ?_
        rintro ⟨rest, hrest⟩
        exact hwhole (by rw [Http2Conn.cells_of_preface hrest.symm (le_rfl), take_length])
    · rw [if_neg hpri]
      refine iff_of_true ?_ (.inr ⟨hnone, hpri⟩)
      simp [getProtocol, hm, unread]

/-- `GET /` is taken for a request line, and the offset comes to lie eight bytes behind it. -/
theorem not_lineRead_get :
    (getProtocolHttp2 (unread ⟨ascii "GET /".toList, fun _ => 0, 8192, 0, by decide⟩)).2.2 = .ok ∧
      (getProtocolHttp2 (unread ⟨ascii "GET /".toList, fun _ => 0, 8192, 0, by decide⟩)).1.version =
        none ∧
      ¬ LineRead ⟨ascii "GET /".toList, fun _ => 0, 8192, 0, by decide⟩ := by
  refine ⟨by decide, by decide, fun h => ?_⟩
  exact absurd (show 13 ≤ 5 from h.1) (by decide)

/-! ## The `Content-Length` line -/

/-- A `Content-Length` line behind the line end at `p`, received as far as its own end. -/
def LineAt (data : Bytes) (p : ℕ) (f : ContentLengthField) : Prop :=
  [cr, lf] ++ f.line ++ [cr, lf] <+: data.drop p

variable (r : HttpRequest)

/-- Success means that the header ends with the first blank line received, and that the length is
the value of a `Content-Length` line in front of it, the one it was taken from. -/
def FromHeader : Prop :=
  r.getContentLength.2 = .ok → ∃ p q f, r.contentLengthPos = some p ∧
    firstOcc blankLine r.buffer.data = some q ∧ r.getContentLength.1.headerLength = q + 4 ∧
    LineAt r.buffer.data p f ∧ p + 2 + f.line.length ≤ q ∧
    r.getContentLength.1.contentLength = decimal f.digits

/-- If some line behind the offset begins with the name, and a blank line lies behind it, then there
is no blank line in front, the blank line has been received as a whole, and the line has a colon
behind the name and a number behind the colon. -/
def CleanHeader : Prop :=
  ∀ p q, firstIn (contentLengthAt r.buffer) r.buffer.offset r.buffer.data.length = some p →
    firstIn (fun i => r.buffer.cells i 4 = blankLine) (p + 18) r.buffer.data.length = some q →
    (∀ j < p + 18, ¬ OccursAt blankLine r.buffer.data j) ∧ q + 4 ≤ r.buffer.data.length ∧
      ∃ f, LineAt r.buffer.data p f ∧ decimal f.digits < 2 ^ 32

variable {r} {data : Bytes} {p : ℕ} {f : ContentLengthField}

theorem LineAt.value (h : LineAt data p f) : f.value ++ [cr] <+: data.drop (p + 17) := by
  obtain ⟨rest, hrest⟩ := h
  have hdrop : data.drop (p + 17) = f.value ++ ([cr, lf] ++ rest) := by
    rw [← drop_drop, ← hrest, ContentLengthField.line, append_assoc, append_assoc, append_assoc]
    show drop 15 (f.name ++ _) = _
    rw [drop_append, drop_eq_nil_of_le (by rw [f.length_name]; omega), f.length_name]
    simp
  exact ⟨lf :: rest, by rw [hdrop]; simp⟩

theorem LineAt.byte_ne (h : LineAt data p f) {i : ℕ} (hlow : p + 2 ≤ i)
    (hhigh : i < p + 2 + f.line.length) : data[i]? ≠ some cr := by
  obtain ⟨rest, hrest⟩ := h
  obtain ⟨j, rfl⟩ := Nat.exists_eq_add_of_le hlow
  have hbyte : data[p + 2 + j]? = f.line[j]? := by
    rw [add_assoc, ← getElem?_drop, ← hrest, append_assoc, append_assoc,
      getElem?_append_right (by simp), getElem?_append_left (by simp; omega)]
    simp
  rw [hbyte]
  exact fun hcr => f.cr_not_mem_line (mem_of_getElem? hcr)

theorem occursAt_iff {q : ℕ} (hq : q + 4 ≤ s.data.length) :
    OccursAt blankLine s.data q ↔ s.cells q 4 = blankLine := by
  rw [OccursAt, s.cells_of_le hq, prefix_iff_eq_take, eq_comm]
  rfl

/-- **When the length comes from the header**: exactly when the first line that begins with the name
is in the header and gives a number. -/
theorem fromHeader_iff_clean (r : HttpRequest) : FromHeader r ↔ CleanHeader r := by
  unfold FromHeader CleanHeader
  rw [← contentLengthPos_eq]
  unfold getContentLength
  cases hp : r.contentLengthPos with
  | none => simp
  | some p =>
    cases hq : r.headerEndPos p with
    | none =>
      refine iff_of_true (by simp [hq]) fun p' q' hp' hq' => ?_
      cases hp'
      exact absurd (hq.symm.trans hq') (by simp)
    | some q =>
      obtain ⟨hblank, ⟨hlow, hhigh⟩, hbefore⟩ := firstIn_eq_some.mp hq
      simp only [hq]
      constructor
      · intro h p' q' hp' hq'
        cases hp'
        cases hq.symm.trans hq'
        obtain ⟨_, q', f, hp', hfirst, hheader, hline, -, hvalue⟩ := h trivial
        cases hp'
        obtain rfl : q = q' := by omega
        obtain ⟨hocc, hnone⟩ := (firstOcc_eq_some (by decide)).mp hfirst
        refine ⟨fun j hj => hnone j (by omega), hocc.length_le (by decide), f, hline, ?_⟩
        rw [← hvalue, contentLengthValue, toUInt32]
        omega
      · intro h _
        obtain ⟨hfront, hlen, f, hline, hvalue⟩ := h p q rfl hq
        have hocc := (occursAt_iff hlen).mpr hblank
        refine ⟨p, q, f, rfl, (firstOcc_eq_some (by decide)).mpr ⟨hocc, fun j hj hj' => ?_⟩, rfl,
          hline, ?_, f.contentLengthValue_eq hline.value hvalue⟩
        · rcases lt_or_ge j (p + 18) with hlt | hge
          · exact hfront j hlt hj'
          · exact hbefore j hge hj ((occursAt_iff (by omega)).mp hj')
        · -- the blank line begins with a carriage return, and the line has none
          by_contra hlt
          refine hline.byte_ne (i := q) (by omega) (by omega) ?_
          obtain ⟨rest, hrest⟩ := hocc
          rw [← head?_drop, ← hrest]
          rfl

/-- A request with a header of its own and a body that looks like one. -/
def smuggled : HttpRequest :=
  unread ⟨ascii "POST / HTTP/1.1\r\n\r\nX\r\nContent-Length: 3\r\n\r\n".toList, fun _ => 0, 64, 15,
    by decide⟩

/-- The length is taken from the body, and the header is taken to reach to the end. -/
theorem not_fromHeader_smuggled :
    smuggled.getContentLength.2 = .ok ∧ smuggled.getContentLength.1.contentLength = 3 ∧
      smuggled.getContentLength.1.headerLength = 43 ∧ ¬ FromHeader smuggled := by
  have hok : smuggled.getContentLength.2 = .ok := by decide
  have hheader : smuggled.getContentLength.1.headerLength = 43 := by decide
  refine ⟨hok, by decide, hheader, fun h => ?_⟩
  obtain ⟨p, q, f, -, hfirst, hq, -⟩ := h hok
  obtain rfl : q = 39 := by omega
  exact absurd hfirst (by decide)

end Swoole.HttpRequest
