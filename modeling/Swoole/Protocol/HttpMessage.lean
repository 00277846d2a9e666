import Swoole.Library.Lines
import Swoole.Protocol.HttpRequest

/-!
# Well-formed requests

What a client means to send: a request line, header lines, a blank line and a body.
A `GET`, `HEAD` or `OPTIONS` request has no body; a `POST`, `PUT` or `PATCH` request
has a `Content-Length` line that says how long its body is; a `DELETE` request may be
of either sort.  `HttpMessage` carries these rules as fields, and `text` is what goes
over the wire.

The second half of the module says what the parsers of the reader find in a buffer that
holds the beginning of such a text, of whatever length, with arbitrary memory behind it:
the kind of the method from the first byte on, the one `Content-Length` line, its value
once the line is complete, and the blank line once the header is complete.
-/

open List

namespace Swoole

/-- What follows the header of a request: nothing, an entity, or one of the two. -/
inductive HttpKind where
  | noEntity
  | entity
  | optional
  deriving DecidableEq

theorem HttpVersion.length_text (v : HttpVersion) : v.text.length = 8 := by
  cases v <;> rfl

def HttpMethod.kind : HttpMethod → HttpKind
  | .get | .head | .options => .noEntity
  | .post | .put | .patch => .entity
  | .delete => .optional

/-- A `Content-Length` line: the name in any case, a colon, digits between blanks. -/
structure ContentLengthField where
  name : Bytes
  blanks : Bytes
  digits : Bytes
  trail : Bytes
  name_eq : name.map toLower = contentLengthName.map toLower
  blanks_eq : ∀ b ∈ blanks, b = 32 ∨ b = 9
  digits_eq : ∀ b ∈ digits, isDigit b = true
  digits_ne : digits ≠ []
  trail_eq : ∀ b ∈ trail, b = 32 ∨ b = 9

namespace ContentLengthField

variable (f : ContentLengthField)

/-- The text behind the colon. -/
def value : Bytes := f.blanks ++ f.digits ++ f.trail

def line : Bytes := f.name ++ 58 :: f.value

end ContentLengthField

/-- A line that the reader takes for a `Content-Length` line. -/
abbrev NamesContentLength (line : Bytes) : Prop :=
  Lines.Begins toLower (contentLengthName.map toLower) line

namespace ContentLengthField

variable (f : ContentLengthField)

theorem length_name : f.name.length = 14 := by
  have hlen := congrArg length f.name_eq
  rw [length_map, length_map] at hlen
  exact hlen

theorem length_line : f.line.length = 15 + f.value.length := by
  rw [line, length_append, length_cons, length_name]
  omega

theorem value_ne : f.value ≠ [] := by
  have hne := f.digits_ne
  simp [value, hne]

theorem cr_not_mem_value : cr ∉ f.value := by
  intro h
  rcases mem_append.mp h with h | h
  · rcases mem_append.mp h with h | h
    · exact absurd (f.blanks_eq _ h) (by decide)
    · exact absurd (f.digits_eq _ h) (by decide)
  · exact absurd (f.trail_eq _ h) (by decide)

theorem cr_not_mem_line : cr ∉ f.line := by
  intro h
  rcases mem_append.mp h with h | h
  · have hmem : toLower cr ∈ f.name.map toLower := mem_map_of_mem h
    rw [f.name_eq] at hmem
    exact absurd hmem (by decide)
  · rcases mem_cons.mp h with h | h
    · exact absurd h (by decide)
    · exact f.cr_not_mem_value h

theorem names_line (rest : Bytes) : NamesContentLength (f.line ++ rest) := by
  have hlen : (contentLengthName.map toLower).length = f.name.length := by
    rw [← f.name_eq, length_map]
  unfold NamesContentLength Lines.Begins line
  rw [hlen, append_assoc, take_append_of_le_length (le_rfl), take_length, f.name_eq]

/-- `atoi` reads the digits once the end of the line is there. -/
theorem atoi_value (rest : Bytes) (hvalue : decimal f.digits < 2 ^ 63) :
    atoi (f.value ++ cr :: rest) = toInt32 (decimal f.digits) := by
  rw [value, append_assoc (f.blanks ++ f.digits)]
  refine atoi_of_digits (fun b hb => ?_) f.digits_eq f.digits_ne (fun b hb => ?_) hvalue
  · rcases f.blanks_eq b hb with rfl | rfl <;> decide
  · cases htrail : f.trail with
    | nil =>
      rw [htrail] at hb
      obtain rfl : cr = b := by simpa using hb
      decide
    | cons t ts =>
      rw [htrail] at hb
      obtain rfl : t = b := by simpa using hb
      rcases f.trail_eq t (by simp [htrail]) with rfl | rfl <;> decide

theorem contentLengthValue_eq {r : HttpRequest} {p : ℕ}
    (h : f.value ++ [cr] <+: r.buffer.data.drop (p + 17)) (hvalue : decimal f.digits < 2 ^ 32) :
    r.contentLengthValue p = decimal f.digits := by
  have hlen := h.length_le
  rw [length_append, length_singleton, length_drop] at hlen
  have hcells : r.buffer.cells (p + 17) (f.value.length + 1) = f.value ++ [cr] := by
    have htake := prefix_iff_eq_take.mp h
    rw [length_append, length_singleton] at htake
    rw [r.buffer.cells_of_le (by omega), ← htake]
  have hsize := r.buffer.length_le
  unfold HttpRequest.contentLengthValue
  rw [show r.buffer.size - (p + 17) = f.value.length + 1 +
      (r.buffer.size - (p + 17) - (f.value.length + 1)) by omega,
    r.buffer.cells_append, hcells, append_assoc, singleton_append,
    f.atoi_value _ (by omega), toUInt32_toInt32 hvalue]

end ContentLengthField

/-- A well-formed request.  `field` is the first `Content-Length` line with the lines
behind it, if the request has an entity. -/
structure HttpMessage where
  method : HttpMethod
  target : Bytes
  version : HttpVersion
  before : List Bytes
  field : Option (ContentLengthField × List Bytes)
  body : Bytes
  target_ne : target ≠ []
  target_clean : ∀ b ∈ target, b ≠ space ∧ b ≠ cr
  before_clean : ∀ l ∈ before, l ≠ [] ∧ cr ∉ l
  after_clean : ∀ x ∈ field, ∀ l ∈ x.2, l ≠ [] ∧ cr ∉ l
  before_other : method.kind ≠ .noEntity → ∀ l ∈ before, ¬ NamesContentLength l
  body_of_none : field = none → method.kind ≠ .entity ∧ body = []
  body_of_some : ∀ x ∈ field,
    method.kind ≠ .noEntity ∧ decimal x.1.digits = body.length ∧ body.length < 2 ^ 31

namespace HttpMessage

variable (m : HttpMessage)

def requestLine : Bytes := m.method.text ++ space :: (m.target ++ space :: m.version.text)

/-- The header lines from the `Content-Length` line on. -/
def fieldLines : List Bytes :=
  match m.field with
  | none => []
  | some (f, after) => f.line :: after

def lines : List Bytes := m.requestLine :: m.before ++ m.fieldLines

def head : Bytes := Lines.text cr lf m.lines ++ [cr, lf]

def text : Bytes := m.head ++ m.body

/-- The reader can serve the request: the header fits the buffer and the entity keeps
within the port's `package_max_length`. -/
def Deliverable (packageMaxLength : ℕ) : Prop :=
  m.head.length ≤ httpHeaderMaxSize ∧ m.body.length ≤ packageMaxLength
  deriving Decidable

/-! ## Lengths -/

variable {m}

theorem length_text : m.text.length = m.head.length + m.body.length := by
  rw [text, length_append]

theorem length_head : m.head.length = (Lines.text cr lf m.lines).length + 2 := by
  rw [head, length_append]
  rfl

theorem length_requestLine :
    m.requestLine.length = m.method.text.length + 1 + m.target.length + 1 + 8 := by
  simp only [requestLine, length_append, length_cons, HttpVersion.length_text]
  omega

theorem requestLine_lt_head : m.requestLine.length + 4 ≤ m.head.length := by
  rw [length_head, lines, cons_append, Lines.text_cons, length_append, length_cons, length_cons]
  omega

theorem text_eq : m.text = Lines.text cr lf m.lines ++ cr :: lf :: m.body := by
  simp [text, head]

/-! ## Lines -/

theorem requestLine_clean : cr ∉ m.requestLine := by
  have hmethod : cr ∉ m.method.text := by cases m.method <;> decide
  have hversion : cr ∉ m.version.text := by cases m.version <;> decide
  have htarget : cr ∉ m.target := fun h => (m.target_clean cr h).2 rfl
  have hspace : cr ≠ space := by decide
  simp [requestLine, hmethod, hversion, htarget, hspace]

theorem mem_lines {l : Bytes} (h : l ∈ m.lines) : l ≠ [] ∧ cr ∉ l := by
  rcases mem_append.mp h with h | h
  · rcases mem_cons.mp h with rfl | h
    · exact ⟨by simp [requestLine], requestLine_clean⟩
    · exact m.before_clean l h
  · unfold fieldLines at h
    cases hfield : m.field with
    | none => simp [hfield] at h
    | some x =>
      obtain ⟨f, after⟩ := x
      rw [hfield] at h
      rcases mem_cons.mp h with rfl | h
      · exact ⟨by simp [ContentLengthField.line], f.cr_not_mem_line⟩
      · exact m.after_clean (f, after) (by simp [hfield]) l h

/-! ## The blank line in a received part -/

section Received

open Search Lines

variable {s : SwString}

theorem lines_ne : m.lines ≠ [] := by
  simp [lines]

theorem occursAt_blank : OccursAt blankLine m.text (m.head.length - 4) := by
  have hdrop := drop_text cr lf (lines_ne (m := m)) (cr :: lf :: m.body)
  refine ⟨m.body, ?_⟩
  rw [text_eq, length_head, show (Lines.text cr lf m.lines).length + 2 - 4 =
    (Lines.text cr lf m.lines).length - 2 by omega, hdrop]
  rfl

theorem blank_unique {q : ℕ} (h : OccursAt blankLine m.text q) (hq : q + 4 ≤ m.head.length) :
    q + 4 = m.head.length := by
  rw [text_eq] at h
  rw [length_head] at hq ⊢
  have hend := blank_of_occursAt (by decide) (fun l hl => (mem_lines hl).2)
    (fun l hl => (mem_lines hl).1) h (by omega)
  omega

variable (hdata : s.data <+: m.text)
include hdata

theorem cells_eq {i n : ℕ} (h : i + n ≤ s.data.length) : s.cells i n = (m.text.drop i).take n := by
  obtain ⟨rest, hrest⟩ := hdata
  rw [s.cells_of_le h, ← hrest, drop_append_of_le_length (by omega),
    take_append_of_le_length (by rw [length_drop]; omega)]

/-- The first blank line ends the header, as soon as the header is there. -/
theorem strnpos_of_le (h : m.head.length ≤ s.data.length) :
    strnpos s.data blankLine = some (m.head.length - 4) := by
  obtain ⟨rest, hrest⟩ : m.head <+: s.data :=
    prefix_of_prefix_length_le (prefix_append _ _) hdata h
  rw [← hrest, strnpos, length_head, head, append_assoc]
  exact firstOcc_blank (by decide) (fun l hl => (mem_lines hl).2) (fun l hl => (mem_lines hl).1)
    lines_ne

theorem strnpos_of_lt (h : s.data.length < m.head.length) : strnpos s.data blankLine = none := by
  obtain ⟨rest, hrest⟩ := hdata
  refine (firstOcc_eq_none (by decide)).mpr fun j hj => ?_
  have hle := hj.length_le (by decide)
  have hlen : blankLine.length = 4 := rfl
  have hend := blank_unique (hrest ▸ hj.append rest) (by omega)
  omega

/-- The received bytes of a header end with a blank line exactly if all of it is there. -/
theorem ends_blank_iff (h : s.data.length ≤ m.head.length) :
    s.data.drop (s.data.length - 4) = blankLine ↔ s.data.length = m.head.length := by
  have hhead := requestLine_lt_head (m := m)
  obtain ⟨rest, hrest⟩ := hdata
  constructor
  · intro hdrop
    have hlen : (s.data.drop (s.data.length - 4)).length = 4 := by rw [hdrop]; rfl
    rw [length_drop] at hlen
    have hocc : OccursAt blankLine s.data (s.data.length - 4) := ⟨[], by rw [hdrop]; rfl⟩
    have hend := blank_unique (hrest ▸ hocc.append rest) (by omega)
    omega
  · intro heq
    have hocc : OccursAt blankLine (s.data ++ rest) (s.data.length - 4) := by
      rw [hrest, heq]
      exact occursAt_blank
    have hlen : blankLine.length = 4 := rfl
    have hpre := hocc.of_append (by omega)
    refine (hpre.eq_of_length ?_).symm
    rw [length_drop]
    omega

/-! ## The `Content-Length` line in a received part -/

/-- Where the line in front of the `Content-Length` line ends. -/
def fieldPos (m : HttpMessage) : ℕ :=
  (Lines.text cr lf (m.requestLine :: m.before)).length - 2

variable {f : ContentLengthField} {after : List Bytes} {p : ℕ} {rest : Bytes}

/-- A hit in the received bytes is a line end of the request with a `Content-Length` line
behind it. -/
theorem hit_of_contentLengthAt (hp : p + 16 ≤ s.data.length) (h : HttpRequest.contentLengthAt s p) :
    ∃ rest, m.text.drop p = cr :: lf :: rest ∧ NamesContentLength rest := by
  obtain ⟨hmark, hname⟩ := h
  rw [cells_eq hdata (by omega)] at hmark hname
  refine ⟨m.text.drop (p + 2), ?_, hname⟩
  rw [← take_append_drop 2 (m.text.drop p), hmark, drop_drop]
  rfl

theorem contentLengthAt_of_hit (hp : p + 16 ≤ s.data.length)
    (hdrop : m.text.drop p = cr :: lf :: rest) (hname : NamesContentLength rest) :
    HttpRequest.contentLengthAt s p := by
  have hrest : m.text.drop (p + 2) = rest := by
    rw [← drop_drop, hdrop]
    rfl
  refine ⟨?_, ?_⟩
  · rw [cells_eq hdata (by omega), hdrop]
    rfl
  · rw [cells_eq hdata (by omega), hrest]
    exact hname

omit hdata

theorem requestLine_le_fieldPos : m.requestLine.length ≤ m.fieldPos := by
  rw [fieldPos, text_cons, length_append, length_cons, length_cons]
  omega

theorem length_front : (Lines.text cr lf (m.requestLine :: m.before)).length = m.fieldPos + 2 := by
  have hlen := two_le_length_text cr lf (show m.requestLine :: m.before ≠ [] by simp)
  rw [fieldPos]
  omega

/-- A request without an entity has no line the reader would take for one. -/
theorem not_hit_of_none (hfield : m.field = none) (hkind : m.method.kind ≠ .noEntity)
    (hp : p + 16 ≤ m.text.length) (hdrop : m.text.drop p = cr :: lf :: rest)
    (hname : NamesContentLength rest) : False := by
  have hbody := (m.body_of_none hfield).2
  have hlen : m.text.length = (Lines.text cr lf m.lines).length + 2 := by
    rw [length_text, length_head, hbody]
    rfl
  rw [text_eq] at hdrop
  obtain ⟨pre, l, l', post, hlines, -, hl'⟩ := line_of_hit (by decide)
    (fun l hl => (mem_lines hl).2) (by decide) (by decide) hdrop (by omega) hname
  have hmem : l' ∈ m.before := by
    simp only [lines, fieldLines, hfield, append_nil] at hlines
    cases pre with
    | nil =>
      simp only [nil_append, cons.injEq] at hlines
      simp [hlines.2]
    | cons x pre =>
      simp only [cons_append, cons.injEq] at hlines
      simp [hlines.2]
  exact m.before_other hkind l' hmem hl'

variable (hfield : m.field = some (f, after))
include hfield

theorem lines_of_field : m.lines = m.requestLine :: m.before ++ f.line :: after := by
  simp [lines, fieldLines, hfield]

theorem drop_fieldPos :
    m.text.drop m.fieldPos =
      cr :: lf :: (f.line ++ cr :: lf :: (Lines.text cr lf after ++ cr :: lf :: m.body)) := by
  have hdrop := drop_text cr lf (show m.requestLine :: m.before ≠ [] by simp)
    (Lines.text cr lf (f.line :: after) ++ cr :: lf :: m.body)
  rw [text_eq, lines_of_field hfield, text_append, append_assoc]
  rw [text_cons f.line, append_assoc] at hdrop ⊢
  exact hdrop

theorem fieldPos_le : m.fieldPos + 22 ≤ m.head.length := by
  have hvalue := length_pos_iff.mpr f.value_ne
  have hline := f.length_line
  rw [length_head, lines_of_field hfield, text_append, length_append, length_front,
    text_cons, length_append, length_cons, length_cons]
  omega

theorem fieldPos_le_of_hit (hdrop : m.text.drop p = cr :: lf :: rest)
    (hname : NamesContentLength rest) : m.fieldPos ≤ p := by
  have hkind := (m.body_of_some (f, after) (by simp [hfield])).1
  by_cases hp : p < (Lines.text cr lf m.lines).length
  · rw [text_eq] at hdrop
    have hle := le_of_hit (by decide) (fun l hl => (mem_lines hl).2) (by decide) (by decide)
      (lines_of_field hfield) (m.before_other hkind) hdrop hp hname
    rw [length_front] at hle
    omega
  · have hle := fieldPos_le hfield
    rw [length_head] at hle
    omega

end Received

/-! ## The parsers -/

section Parsers

open Search

variable {r : HttpRequest} {f : ContentLengthField} {after : List Bytes} {p q : ℕ}
variable (hdata : r.buffer.data <+: m.text) (hoffset : r.buffer.offset ≤ m.requestLine.length)
include hdata

theorem contentLengthPos_of_none (hfield : m.field = none) (hkind : m.method.kind ≠ .noEntity)
    (hp : ∀ p ∈ r.contentLengthPos, p + 16 ≤ r.buffer.data.length) : r.contentLengthPos = none := by
  cases h : r.contentLengthPos with
  | none => rfl
  | some p =>
    have hp' := hp p (by simp [h])
    rw [HttpRequest.contentLengthPos_eq, firstIn_eq_some] at h
    obtain ⟨rest, hdrop, hname⟩ := hit_of_contentLengthAt hdata hp' h.1
    have hlen := hdata.length_le
    exact (not_hit_of_none hfield hkind (by omega) hdrop hname).elim

theorem cells_of_occursAt (h : OccursAt blankLine m.text q) (hq : q + 4 ≤ r.buffer.data.length) :
    r.buffer.cells q 4 = blankLine := by
  obtain ⟨rest, hrest⟩ := h
  rw [cells_eq hdata hq, ← hrest]
  rfl

variable (hfield : m.field = some (f, after))
include hfield

include hoffset in
/-- A name found within the received bytes is that of the `Content-Length` line. -/
theorem contentLengthPos_eq_fieldPos (h : r.contentLengthPos = some p)
    (hp : p + 16 ≤ r.buffer.data.length) : p = m.fieldPos := by
  rw [HttpRequest.contentLengthPos_eq, firstIn_eq_some] at h
  obtain ⟨hat, -, hbefore⟩ := h
  obtain ⟨rest, hdrop, hname⟩ := hit_of_contentLengthAt hdata hp hat
  have hle := fieldPos_le_of_hit hfield hdrop hname
  by_contra hne
  have hoff := requestLine_le_fieldPos (m := m)
  exact hbefore m.fieldPos (by omega) (by omega)
    (contentLengthAt_of_hit hdata (by omega) (drop_fieldPos hfield) (f.names_line _))

include hoffset in
theorem contentLengthPos_none (h : r.contentLengthPos = none) :
    r.buffer.data.length < m.head.length := by
  by_contra hle
  have hpos := fieldPos_le hfield
  have hoff := requestLine_le_fieldPos (m := m)
  rw [HttpRequest.contentLengthPos_eq] at h
  exact firstIn_eq_none.mp h m.fieldPos (by omega) (by omega)
    (contentLengthAt_of_hit hdata (by omega) (drop_fieldPos hfield) (f.names_line _))

theorem headerEndPos_some (h : r.headerEndPos m.fieldPos = some q)
    (hq : q + 4 ≤ r.buffer.data.length) : q + 4 = m.head.length := by
  obtain ⟨hblank, -, hbefore⟩ := firstIn_eq_some.mp h
  have hpos := fieldPos_le hfield
  have hocc : OccursAt blankLine m.text q := by
    rw [cells_eq hdata hq] at hblank
    exact ⟨(m.text.drop q).drop 4, by rw [← hblank, take_append_drop]⟩
  by_cases hle : q + 4 ≤ m.head.length
  · exact blank_unique hocc hle
  · exact (hbefore (m.head.length - 4) (by omega) (by omega)
      (cells_of_occursAt hdata occursAt_blank (by omega))).elim

theorem headerEndPos_none (h : r.headerEndPos m.fieldPos = none) :
    r.buffer.data.length < m.head.length := by
  by_contra hle
  have hpos := fieldPos_le hfield
  exact firstIn_eq_none.mp h (m.head.length - 4) (by omega) (by omega)
    (cells_of_occursAt hdata occursAt_blank (by omega))

theorem contentLengthValue_eq (hcr : cr ∈ r.buffer.data.drop (m.fieldPos + 17)) :
    r.contentLengthValue m.fieldPos = m.body.length := by
  obtain ⟨-, hdigits, hbound⟩ := m.body_of_some (f, after) (by simp [hfield])
  have hvalue : decimal f.digits = m.body.length := hdigits
  obtain ⟨rest, hrest⟩ : ∃ rest, m.text.drop (m.fieldPos + 17) = f.value ++ cr :: rest := by
    refine ⟨lf :: (Lines.text cr lf after ++ cr :: lf :: m.body), ?_⟩
    rw [← drop_drop, drop_fieldPos hfield, ContentLengthField.line]
    show drop 15 ((f.name ++ 58 :: f.value) ++ _) = _
    rw [append_assoc, drop_append, drop_eq_nil_of_le (by rw [f.length_name]; omega), f.length_name]
    rfl
  -- the received part of the value goes past its end, because it holds the `cr`
  have hpart : r.buffer.data.drop (m.fieldPos + 17) <+: f.value ++ cr :: rest := by
    rw [← hrest]
    exact hdata.drop _
  have hlong : f.value.length < (r.buffer.data.drop (m.fieldPos + 17)).length := by
    by_contra hle
    have hpre := prefix_of_prefix_length_le hpart (prefix_append _ _) (by omega)
    exact f.cr_not_mem_value (hpre.subset hcr)
  rw [← hvalue]
  refine f.contentLengthValue_eq (prefix_of_prefix_length_le ?_ hpart ?_) (by omega)
  · exact (prefix_append_right_inj _).mpr ⟨rest, rfl⟩
  · rw [length_append, length_singleton]
    exact hlong

end Parsers

/-! ## The request line in a received part -/

section RequestLine

open Search HttpRequest

variable {s : SwString} {m' : HttpMethod}

theorem kind_of_take_one (n n' : HttpMethod) (h : n'.text.take 1 = n.text.take 1) :
    n'.kind = n.kind ∧ n'.text.length ≤ n.text.length + 2 := by
  revert h
  cases n <;> cases n' <;> decide

theorem method_of_isPrefix (n n' : HttpMethod) (h : n'.text <+: n.text) : n' = n := by
  revert h
  cases n <;> cases n' <;> decide

theorem space_not_mem_method (n : HttpMethod) : space ∉ n.text := by
  cases n <;> decide

theorem text_split : ∃ tail, m.text =
    m.method.text ++ space :: (m.target ++ space :: (m.version.text ++ tail)) := by
  refine ⟨cr :: lf :: (Lines.text cr lf (m.before ++ m.fieldLines) ++ cr :: lf :: m.body), ?_⟩
  rw [text_eq, lines, cons_append, Lines.text_cons, requestLine]
  simp

/-- Where the blank behind the target stands. -/
def targetEnd (m : HttpMessage) : ℕ := m.method.text.length + 1 + m.target.length

theorem length_requestLine_eq : m.requestLine.length = m.targetEnd + 9 := by
  rw [length_requestLine, targetEnd]

theorem drop_targetEnd : ∃ tail,
    m.text.drop m.targetEnd = space :: (m.version.text ++ tail) := by
  obtain ⟨tail, htext⟩ := m.text_split
  refine ⟨tail, ?_⟩
  rw [htext, targetEnd, add_assoc, ← drop_drop, drop_left, add_comm,
    drop_succ_cons, drop_left]

/-- The version loop behind a method that was completed by cells behind the received
bytes does not run at all. -/
theorem readVersion_of_lt {buf : ℕ} (h : s.data.length < buf) :
    readVersion s buf = some (none, buf + 8) := by
  have hspace : findSpace s buf = none := firstIn_of_le (by omega)
  simp only [readVersion, hspace]
  rw [max_eq_left (by omega)]

variable (hdata : s.data <+: m.text)
include hdata

/-- Whatever method the reader sees, even with the help of cells behind the received
bytes, it is of the right kind. -/
theorem readMethod_some (hne : s.data ≠ []) (h : readMethod s = some m') :
    m'.kind = m.method.kind ∧ m'.text.length ≤ m.method.text.length + 2 ∧
      (m' = m.method ∨ s.data.length < m'.text.length) := by
  have hcells : s.cells 0 m'.text.length = m'.text := by
    simpa using find?_some h
  obtain ⟨tail, htext⟩ := m.text_split
  have hpos := length_pos_iff.mpr hne
  have hfirst : m'.text.take 1 = m.method.text.take 1 := by
    obtain ⟨n, hn⟩ : ∃ n, m'.text.length = 1 + n := ⟨m'.text.length - 1, by cases m' <;> rfl⟩
    have hone : s.cells 0 1 = m.method.text.take 1 := by
      rw [cells_eq hdata (by omega), htext, drop_zero]
      cases m.method <;> rfl
    rw [hn, s.cells_append, hone] at hcells
    rw [← hcells, take_append_of_le_length (by cases m.method <;> decide), take_take]
    rfl
  obtain ⟨hkind, hlen⟩ := kind_of_take_one m.method m' hfirst
  refine ⟨hkind, hlen, ?_⟩
  by_cases hk : s.data.length < m'.text.length
  · exact .inr hk
  · left
    rw [cells_eq hdata (by omega), drop_zero] at hcells
    have hpre : m'.text <+: m.text := hcells ▸ take_prefix _ _
    rw [htext] at hpre
    apply method_of_isPrefix
    by_cases hle : m'.text.length ≤ m.method.text.length
    · exact prefix_of_prefix_length_le hpre (prefix_append _ _) hle
    · -- a longer one would hold the blank behind the method
      exfalso
      have hblank : m.method.text ++ [space] <+:
          m.method.text ++ space :: (m.target ++ space :: (m.version.text ++ tail)) :=
        (prefix_append_right_inj _).mpr ⟨_, rfl⟩
      have hlong := prefix_of_prefix_length_le hblank hpre (by
        rw [length_append, length_singleton]
        omega)
      exact space_not_mem_method m' (hlong.subset (by simp))

theorem readMethod_none (h : readMethod s = none) : s.data.length < m.method.text.length := by
  by_contra hle
  obtain ⟨tail, htext⟩ := m.text_split
  have hmem : m.method ∈ methods := by cases m.method <;> decide
  have hnot := find?_eq_none.mp h m.method hmem
  rw [cells_eq hdata (by omega), htext, drop_zero, take_left'] at hnot
  · simp at hnot
  · rfl

theorem byteAt_eq {i : ℕ} (hi : i < s.data.length) : m.text[i]? = some (s.byteAt i) := by
  obtain ⟨rest, hrest⟩ := hdata
  rw [← hrest, getElem?_append_left hi, getElem?_eq_getElem hi, s.byteAt_of_lt hi]
  rfl

theorem byteAt_target {i : ℕ} (hi : i < s.data.length)
    (hlow : m.method.text.length + 1 ≤ i) (hhigh : i < m.targetEnd) : s.byteAt i ≠ space := by
  obtain ⟨tail, htext⟩ := m.text_split
  have hbyte := byteAt_eq hdata hi
  obtain ⟨j, rfl⟩ := Nat.exists_eq_add_of_le hlow
  have hj : j < m.target.length := by
    unfold targetEnd at hhigh
    omega
  rw [htext, getElem?_append_right (by omega),
    show m.method.text.length + 1 + j - m.method.text.length = j + 1 by omega,
    getElem?_cons_succ, getElem?_append_left hj] at hbyte
  exact (m.target_clean _ (mem_of_getElem? hbyte)).1

theorem byteAt_targetEnd (h : m.targetEnd < s.data.length) : s.byteAt m.targetEnd = space := by
  obtain ⟨tail, hdrop⟩ := m.drop_targetEnd
  have hbyte := byteAt_eq hdata h
  rw [← head?_drop, hdrop] at hbyte
  exact (Option.some.inj hbyte).symm

theorem findSpace_some {q : ℕ}
    (h : findSpace s (m.method.text.length + 1) = some q) : q = m.targetEnd := by
  obtain ⟨hspace, ⟨hlow, hhigh⟩, hbefore⟩ := firstIn_eq_some.mp h
  have hle : m.targetEnd ≤ q := by
    by_contra hlt
    exact byteAt_target hdata hhigh hlow (by omega) hspace
  by_contra hne
  exact hbefore m.targetEnd (by unfold targetEnd; omega) (by omega)
    (byteAt_targetEnd hdata (by omega))

theorem findSpace_none (h : findSpace s (m.method.text.length + 1) = none) :
    s.data.length ≤ m.targetEnd := by
  by_contra hlt
  exact firstIn_eq_none.mp h m.targetEnd (by unfold targetEnd; omega) (by omega)
    (byteAt_targetEnd hdata (by omega))

/-- The version loop behind the right method: it fails only while the version is not
there, and it never moves the cursor past the request line. -/
theorem readVersion_spec :
    (readVersion s (m.method.text.length + 1) = none →
        s.data.length < m.requestLine.length) ∧
      ∀ x ∈ readVersion s (m.method.text.length + 1),
        x.2 ≤ m.requestLine.length := by
  have hline := length_requestLine_eq (m := m)
  unfold readVersion
  cases hspace : findSpace s (m.method.text.length + 1) with
  | none =>
    have hend := findSpace_none hdata hspace
    refine ⟨by simp, fun x hx => ?_⟩
    obtain rfl : (none, max (m.method.text.length + 1) s.data.length + 8) = x := by simpa using hx
    have hlow : m.method.text.length + 1 ≤ m.targetEnd := by unfold targetEnd; omega
    omega
  | some q =>
    obtain rfl := findSpace_some hdata hspace
    simp only
    split
    · split
      · exact ⟨fun _ => by omega, by simp⟩
      next hlong =>
      have hversion : s.cells (m.targetEnd + 1) 8 = m.version.text := by
        obtain ⟨tail, hdrop⟩ := m.drop_targetEnd
        rw [cells_eq hdata (by omega), ← drop_drop, hdrop, drop_succ_cons,
          drop_zero, take_left' m.version.length_text]
      rw [hversion]
      cases m.version with
      | v11 =>
        refine ⟨by simp, fun x hx => ?_⟩
        obtain rfl : (some HttpVersion.v11, m.targetEnd + 1 + 8) = x := by simpa using hx
        exact hline.ge
      | v10 =>
        rw [if_neg (by decide), if_pos rfl]
        refine ⟨by simp, fun x hx => ?_⟩
        obtain rfl : (some HttpVersion.v10, m.targetEnd + 1 + 8) = x := by simpa using hx
        exact hline.ge
    · refine ⟨by simp, fun x hx => ?_⟩
      obtain rfl : ((none : Option HttpVersion), m.targetEnd + 1 + 8) = x := by simpa using hx
      exact hline.ge

omit hdata in
/-- **The request line.**  `swHttpRequest_get_protocol` on the beginning of a request: the
method is of the right kind, the cursor does not pass the request line, and the call
fails only while the request line is incomplete. -/
theorem getProtocol_spec {r : HttpRequest} (hdata : r.buffer.data <+: m.text)
    (hne : r.buffer.data ≠ []) (hmethod : r.method = none)
    (hoffset : r.buffer.offset ≤ m.requestLine.length) :
    ∃ method offset version cursor,
      r.getProtocol.1 =
        { r with
          method := method
          offset := offset
          version := version
          buffer := { r.buffer with offset := cursor } } ∧
      (∀ n ∈ method, n.kind = m.method.kind) ∧ cursor ≤ m.requestLine.length ∧
      (r.getProtocol.2 = .err → r.buffer.data.length < m.requestLine.length) ∧
      (r.getProtocol.2 = .ok → method ≠ none) := by
  have hline := length_requestLine (m := m)
  have htarget := length_pos_iff.mpr m.target_ne
  unfold getProtocol
  cases hread : readMethod r.buffer with
  | none =>
    have hlt := readMethod_none hdata hread
    exact ⟨r.method, r.offset, r.version, r.buffer.offset, rfl, by simp [hmethod], hoffset,
      fun _ => by omega, by simp⟩
  | some n =>
    obtain ⟨hkind, hlen, hsame⟩ := readMethod_some hdata hne hread
    have hspec : (readVersion r.buffer (n.text.length + 1) = none →
        r.buffer.data.length < m.requestLine.length) ∧
        ∀ x ∈ readVersion r.buffer (n.text.length + 1),
          x.2 ≤ m.requestLine.length := by
      rcases hsame with rfl | hshort
      · exact readVersion_spec hdata
      · rw [readVersion_of_lt (by omega)]
        refine ⟨by simp, fun x hx => ?_⟩
        obtain rfl : ((none : Option HttpVersion), n.text.length + 1 + 8) = x := by simpa using hx
        omega
    simp only
    cases hversion : readVersion r.buffer (n.text.length + 1) with
    | none =>
      exact ⟨some n, n.text.length + 1, r.version, r.buffer.offset, rfl, by simpa using hkind,
        hoffset, fun _ => hspec.1 hversion, by simp⟩
    | some x =>
      obtain ⟨version, cursor⟩ := x
      exact ⟨some n, n.text.length + 1, version <|> r.version, cursor, rfl,
        by simpa using hkind, hspec.2 (version, cursor) (by simp [hversion]), by simp, by simp⟩

end RequestLine

end HttpMessage

end Swoole
