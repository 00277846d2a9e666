import Mathlib.Data.List.TakeWhile
import Swoole.Protocol.HttpResponse

/-!
# The body of a response

The bytes of a response are decoded by what its header announces.  With chunks the pieces are read
back one by one, whatever the application has put into the header, but `end` sends none of its data;
without them the announced length has to be right, and the application and the method `OPTIONS` have
a say in it.
-/

open List HttpCoding

namespace Swoole

open HttpCoding (coding name announced bodyOf decode)

/-! ## Lines -/

/-- A line that is read back. -/
def Readable (line : Bytes) : Prop := cr ∉ line ∧ line ≠ []
  deriving Decidable

variable {front : Bytes}

theorem Readable.append {rest : Bytes} (h : Readable front) (hrest : cr ∉ rest) :
    Readable (front ++ rest) :=
  ⟨fun hmem => (mem_append.mp hmem).elim h.1 hrest, append_ne_nil_of_left_ne_nil h.2 rest⟩

theorem HeaderText.cr_notMem (t : HeaderText) : cr ∉ t.1 := fun hmem => (t.2 cr hmem).2.1 rfl

theorem name_append (h : 58 ∈ front) (rest : Bytes) : name (front ++ rest) = name front := by
  unfold name
  rw [takeWhile_append, if_neg]
  intro hlen
  have hall : ∀ x ∈ front, decide (x ≠ 58) = true := by
    have hpre := takeWhile_prefix (l := front) fun x => decide (x ≠ 58)
    exact takeWhile_eq_self_iff.mp (hpre.eq_of_length hlen)
  exact of_decide_eq_true (hall 58 h) rfl

variable {line : Bytes}

theorem coding_eq_none (hlen : name line ≠ contentLength)
    (htransfer : name line ≠ transferEncoding) : coding line = none := by
  rw [coding, if_neg hlen, if_neg htransfer]

theorem coding_append_eq_none (hcolon : 58 ∈ front) (hlen : name front ≠ contentLength)
    (htransfer : name front ≠ transferEncoding) (rest : Bytes) : coding (front ++ rest) = none := by
  rw [← name_append hcolon rest] at hlen htransfer
  exact coding_eq_none hlen htransfer

theorem coding_contentLength_isSome (h : name line = contentLength) :
    ∃ c, coding line = some c := by
  rw [coding, if_pos h]
  cases numeral 10 (value line) with
  | none => exact ⟨_, rfl⟩
  | some n => exact ⟨_, rfl⟩

/-- A line of `http_build_header` that announces nothing. -/
structure Quiet (line : Bytes) : Prop where
  readable : Readable line
  coding_eq : coding line = none

namespace HttpContext

variable (ctx : HttpContext)

theorem quiet_serverLine : Quiet serverLine := ⟨by decide, by decide⟩

theorem quiet_contentTypeLine : Quiet contentTypeLine := ⟨by decide, by decide⟩

theorem quiet_connectionLine : Quiet ctx.connectionLine := by
  unfold connectionLine
  split_ifs <;> exact ⟨by decide, by decide⟩

theorem quiet_append {rest : Bytes} (hfront : Readable front) (hcolon : 58 ∈ front)
    (hlen : name front ≠ contentLength) (htransfer : name front ≠ transferEncoding)
    (hrest : cr ∉ rest) : Quiet (front ++ rest) :=
  ⟨hfront.append hrest, coding_append_eq_none hcolon hlen htransfer rest⟩

variable (date : ShortText)

theorem quiet_dateLine : Quiet (dateLine date) :=
  quiet_append (by decide) (by decide) (by decide) (by decide) date.text.cr_notMem

theorem quiet_cookieLine (cookie : HeaderText) : Quiet (cookieLine cookie) :=
  quiet_append (by decide) (by decide) (by decide) (by decide) cookie.cr_notMem

theorem coding_chunkedLine : coding chunkedLine = some .chunked := by decide

theorem value_contentLengthLine (n : ℕ) : value (contentLengthLine n) = writeDigits 10 10 n [] := by
  have hblank : ∀ c ∈ writeDigits 10 10 n [], ¬ blank c = true := by
    intro c hc hblank
    rw [blank, Bool.or_eq_true, beq_iff_eq, beq_iff_eq] at hblank
    rcases hblank with rfl | rfl
    all_goals exact notMem_writeDigits (by decide) (by decide) (by decide) not_mem_nil hc
  have hstrip : ∀ l : Bytes, (∀ c ∈ l, ¬ blank c = true) → l.dropWhile blank = l := fun l hl =>
    dropWhile_eq_self_iff.mpr fun hpos => hl _ (getElem_mem hpos)
  show (((writeDigits 10 10 n []).dropWhile blank).reverse.dropWhile blank).reverse = _
  rw [hstrip _ hblank, hstrip _ fun c hc => hblank c (mem_reverse.mp hc), reverse_reverse]

theorem readable_contentLengthLine (n : ℕ) : Readable (contentLengthLine n) :=
  Readable.append (by decide) (notMem_writeDigits (by decide) (by decide) (by decide)
    not_mem_nil)

theorem coding_contentLengthLine {n : ℕ} (hn : n < 10 ^ 10) :
    coding (contentLengthLine n) = some (.length n) := by
  have hname : name (contentLengthLine n) = contentLength :=
    (name_append (by decide) _).trans (by decide)
  have hvalue : numeral 10 (writeDigits 10 10 n []) = some n :=
    numeral_writeDigits (by decide) (by decide) (by decide) hn
  rw [coding, if_pos hname, value_contentLengthLine, hvalue]

/-! ## The lines of the application -/

theorem cr_notMem_namedEntries {entries : List HeaderEntry} {entry : Bytes × Bytes}
    (h : entry ∈ namedEntries entries) : cr ∉ entry.1 ∧ cr ∉ entry.2 := by
  induction entries with
  | nil => exact absurd h not_mem_nil
  | cons first entries ih =>
    obtain ⟨_ | key, value⟩ := first
    · exact absurd h not_mem_nil
    · rcases mem_cons.mp h with rfl | h
      · exact ⟨key.cr_notMem, value.cr_notMem⟩
      · exact ih h

theorem readable_userLines (h : line ∈ ctx.userLines) : Readable line := by
  obtain ⟨entry, hentry, rfl⟩ := mem_map.mp h
  obtain ⟨hkey, hvalue⟩ := cr_notMem_namedEntries hentry
  have hkey' : cr ∉ if entry.1 = [] then [space] else entry.1 := by
    split_ifs
    · decide
    · exact hkey
  refine Readable.append ⟨fun hmem => ?_, by simp [ascii]⟩ hvalue
  exact (mem_append.mp hmem).elim hkey' (by decide)

/-- An application that sets `Content-Length` announces something. -/
theorem userCodings_ne_nil (h : contentLengthName ∈ ctx.keys) :
    ctx.userLines.filterMap coding ≠ [] := by
  obtain ⟨⟨key, value⟩, hentry, rfl⟩ := mem_map.mp h
  have hname : name (entryLine (contentLengthName, value)) = contentLength :=
    (@name_append (contentLengthName ++ ascii [':', ' ']) (by decide) value).trans (by decide)
  obtain ⟨c, hc⟩ := coding_contentLength_isSome hname
  exact ne_nil_of_mem (mem_filterMap.mpr ⟨_, mem_map_of_mem hentry, hc⟩)

/-! ## The header -/

/-- What the header announces about the length on its own. -/
def lengthCodings (bodyLength : ℤ) : List HttpCoding.Coding :=
  if ctx.options then [.length 0]
  else if contentLengthName ∉ ctx.keys ∧ 0 ≤ bodyLength then [.length bodyLength.toNat]
  else []

variable {p : Prop}

theorem filterMap_unless [Decidable p] (h : Quiet line) :
    (if p then [] else [line]).filterMap coding = [] := by
  split_ifs
  · rfl
  · rw [filterMap_cons_none h.coding_eq, filterMap_nil]

variable {bodyLength : ℤ}

theorem filterMap_length [Decidable p] {allow : Bytes} (h : coding allow = none) {n : ℕ}
    (hn : n < 10 ^ 10) :
    (if ctx.options then [allow, contentLengthLine 0]
      else if p then [contentLengthLine n] else []).filterMap coding =
      if ctx.options then [.length 0] else if p then [.length n] else [] := by
  split_ifs
  · rw [filterMap_cons_none h, filterMap_cons_some (coding_contentLengthLine (by decide)),
      filterMap_nil]
  · rw [filterMap_cons_some (coding_contentLengthLine hn), filterMap_nil]
  · rfl

theorem filterMap_fields (h : bodyLength < 10 ^ 10) :
    (ctx.fields date bodyLength).filterMap coding =
      ctx.userLines.filterMap coding ++ ctx.lengthCodings bodyLength ++
        if ctx.chunk then [.chunked] else [] := by
  have hcookies : (ctx.cookies.map cookieLine).filterMap coding = [] := by
    refine filterMap_eq_nil_iff.mpr fun line hline => ?_
    obtain ⟨cookie, -, rfl⟩ := mem_map.mp hline
    exact (quiet_cookieLine cookie).coding_eq
  have hchunk : (if ctx.chunk then [chunkedLine] else []).filterMap coding =
      if ctx.chunk then [.chunked] else [] := by
    split_ifs
    · rw [filterMap_cons_some coding_chunkedLine, filterMap_nil]
    · rfl
  rw [fields, ownFields, filterMap_append, filterMap_append, filterMap_append, hcookies, hchunk,
    append_nil, ← append_assoc]
  congr 2
  cases hheader : ctx.zheader with
  | some entries =>
    simp only [fieldsWith, filterMap_append, filterMap_unless quiet_serverLine,
      filterMap_unless ctx.quiet_connectionLine, filterMap_unless (quiet_dateLine date),
      filterMap_unless quiet_contentTypeLine, append_nil, nil_append]
    exact ctx.filterMap_length (by decide) (by omega)
  | none =>
    have hkeys : contentLengthName ∉ ctx.keys := by rw [keys, hheader]; exact not_mem_nil
    rw [fieldsWithout, filterMap_append,
      filterMap_cons_none quiet_serverLine.coding_eq,
      filterMap_cons_none quiet_contentTypeLine.coding_eq,
      filterMap_cons_none ctx.quiet_connectionLine.coding_eq,
      filterMap_cons_none (quiet_dateLine date).coding_eq, filterMap_nil, nil_append]
    unfold lengthCodings
    simp only [hkeys, not_false_eq_true, true_and]
    exact ctx.filterMap_length (by decide) (by omega)

theorem readable_unless [Decidable p] (h : Readable line) :
    ∀ l ∈ if p then [] else [line], Readable l := by
  split_ifs
  · exact fun l hl => absurd hl not_mem_nil
  · exact fun l hl => mem_singleton.mp hl ▸ h

theorem readable_length [Decidable p] {allow : Bytes} (h : Readable allow) (n : ℕ) :
    ∀ l ∈ if ctx.options then [allow, contentLengthLine 0]
      else if p then [contentLengthLine n] else [], Readable l := by
  split_ifs
  · exact forall_mem_cons.mpr ⟨h, forall_mem_singleton.mpr (readable_contentLengthLine 0)⟩
  · exact forall_mem_singleton.mpr (readable_contentLengthLine n)
  · exact fun l hl => absurd hl not_mem_nil

/-- **Every line of the header is read back.** -/
theorem readable_fields (bodyLength : ℤ) :
    ∀ line ∈ ctx.statusLine :: ctx.fields date bodyLength, Readable line := by
  refine forall_mem_cons.mpr ⟨Readable.append (by decide) ctx.status.text.cr_notMem, ?_⟩
  refine forall_mem_append.mpr ⟨forall_mem_append.mpr ⟨fun l hl => ctx.readable_userLines hl,
    forall_mem_append.mpr ⟨?_, ?_⟩⟩, fun line hline => ?_⟩
  · cases ctx.zheader with
    | some entries =>
      simp only [fieldsWith, forall_mem_append]
      exact ⟨⟨⟨⟨readable_unless quiet_serverLine.readable,
        readable_unless ctx.quiet_connectionLine.readable⟩, ctx.readable_length (by decide) _⟩,
        readable_unless (quiet_dateLine date).readable⟩,
        readable_unless quiet_contentTypeLine.readable⟩
    | none =>
      refine forall_mem_append.mpr ⟨?_, ctx.readable_length (by decide) _⟩
      simp only [forall_mem_cons]
      exact ⟨quiet_serverLine.readable, quiet_contentTypeLine.readable,
        ctx.quiet_connectionLine.readable, (quiet_dateLine date).readable,
        fun l hl => absurd hl not_mem_nil⟩
  · split_ifs
    · exact forall_mem_singleton.mpr (by decide)
    · exact fun l hl => absurd hl not_mem_nil
  · obtain ⟨cookie, -, rfl⟩ := mem_map.mp hline
    exact (quiet_cookieLine cookie).readable

theorem flatten_texts (hfits : ctx.Fits) (bodyLength : ℤ) :
    (ctx.texts date bodyLength).flatten = ctx.header date bodyLength := by
  have hentries : ctx.userLines.map entryText = ctx.userLines.map lineText :=
    map_congr_left fun line hline => if_neg (hfits line hline).ne
  have hcookies : (ctx.cookies.flatMap fun cookie =>
      [ascii "Set-Cookie: ".toList, cookie.1, [cr, lf]]).flatten =
      ((ctx.cookies.map cookieLine).map lineText).flatten := by
    induction ctx.cookies with
    | nil => rfl
    | cons cookie cookies ih =>
      simp only [flatMap_cons, map_cons, flatten_append, flatten_cons, flatten_nil, append_nil, ih,
        cookieLine, lineText, append_assoc]
  have hlines : ∀ lines : List Bytes, Lines.text cr lf lines = (lines.map lineText).flatten :=
    fun lines => flatMap_def
  rw [texts, hentries, header, hlines, fields]
  simp only [flatten_append, flatten_cons, flatten_nil, map_append, map_cons, hcookies, append_nil,
    append_assoc, cons_append]

theorem buildHeader_of_fits (hheader : ctx.sendHeader = false) (hfits : ctx.Fits) (bodyLength : ℤ) :
    ctx.buildHeader date bodyLength = .ok (ctx.texts date bodyLength) := by
  rw [buildHeader, if_neg (Bool.eq_false_iff.mp hheader), if_neg]
  rintro ⟨line, hline, hlong⟩
  exact absurd (hfits line hline) (by omega)

/-- **A header is decoded** as it was built. -/
theorem decode_header (h : bodyLength < 10 ^ 10) (rest : Bytes) :
    decode (ctx.header date bodyLength ++ rest) =
      (announced (ctx.userLines.filterMap coding ++ ctx.lengthCodings bodyLength ++
        if ctx.chunk then [.chunked] else [])).bind (bodyOf rest) := by
  have hreadable := ctx.readable_fields date bodyLength
  rw [header, append_assoc, ← ctx.filterMap_fields date h]
  exact decode_eq (fun l hl => (hreadable l hl).1) fun l hl => (hreadable l hl).2

end HttpContext

/-! ## Sending data -/

theorem getSendData_of_nonneg {limit : ℕ} {data : Bytes} (h : 0 ≤ getSendData limit data)
    (hlt : data.length < 2 ^ 31) : getSendData limit data = data.length := by
  unfold getSendData at h ⊢
  split_ifs at h ⊢
  · omega
  · exact toInt32_natCast hlt

theorem fill_of_short {pagesize size : ℕ} {texts : List Bytes}
    (hshort : texts.flatten.length < 2 ^ 30) (hpage : pagesize < 2 ^ 31) :
    ∃ buffer, fill pagesize size texts = .ok buffer ∧ buffer.data = texts.flatten := by
  unfold fill
  have hstart : (SwString.new (fun _ => 0) size).data = [] := rfl
  generalize SwString.new (fun _ => 0) size = buffer at hstart
  suffices h : ∀ (texts : List Bytes) (buffer : SwString),
      (buffer.data ++ texts.flatten).length < 2 ^ 30 → ∃ buffer', texts.foldlM
        (fun buffer text => (buffer.appendPtr pagesize text).elim (.error .append) fun r => .ok r.1)
        buffer = (.ok buffer' : Except HeaderFault SwString) ∧
          buffer'.data = buffer.data ++ texts.flatten by
    simpa [hstart] using h texts buffer (by simpa [hstart] using hshort)
  intro texts
  induction texts with
  | nil => exact fun buffer _ => ⟨buffer, rfl, (append_nil _).symm⟩
  | cons text texts ih =>
    intro buffer hlt
    rw [flatten_cons, length_append, length_append] at hlt
    obtain ⟨buffer', happend, hdata, -⟩ := @SwString.appendPtr_of_short buffer pagesize text
      (by omega) hpage
    have hrest := ih buffer' (by rw [hdata, length_append, length_append]; omega)
    rw [hdata, append_assoc] at hrest
    rw [foldlM_cons, happend]
    exact hrest

namespace HttpExchange

variable {cfg : HttpSettings} {ctx : HttpContext} {e e' : HttpExchange} {a : HttpAnswers} {size : ℕ}

theorem send_cases {texts : List Bytes} (hshort : texts.flatten.length < 2 ^ 30) (answer : Bool)
    (taken refused : HttpContext) :
    (∃ e', e.send cfg texts answer taken refused = .ok (e', false)) ∨
      ∃ e', e.send cfg texts answer taken refused = .ok (e', true) ∧ e'.ctx = taken ∧
        e'.sent = e.sent ++ texts.flatten := by
  obtain ⟨buffer, hfill, hdata⟩ := @fill_of_short cfg.pagesize e.size texts hshort cfg.pagesize_lt
  rw [send, hfill, ← hdata]
  simp only [Except.map]
  split_ifs
  · exact .inr ⟨_, rfl, rfl, rfl⟩
  · exact .inl ⟨_, rfl⟩

/-! ## Without chunks -/

variable {data : Option Bytes}

theorem endLength_of_nonneg (h : 0 ≤ endLength cfg data) (hlt : (data.getD []).length < 2 ^ 31) :
    endLength cfg data = (data.getD []).length := by
  cases data with
  | none => rfl
  | some data => exact getSendData_of_nonneg h hlt

/-- The header of `end` announces something. -/
theorem announces_ne_nil (h : 0 ≤ bodyLength) :
    ctx.userLines.filterMap coding ++ ctx.lengthCodings bodyLength ≠ [] := by
  intro hnil
  obtain ⟨huser, hown⟩ := append_eq_nil_iff.mp hnil
  unfold HttpContext.lengthCodings at hown
  split_ifs at hown with hoptions hkeys
  rw [not_and_or, not_not] at hkeys
  exact hkeys.elim (fun hkey => ctx.userCodings_ne_nil hkey huser) fun hneg => hneg h

/-- What the header of `end` announces is right. -/
theorem announces_iff {data : Bytes} :
    (∀ c ∈ ctx.userLines.filterMap coding ++ ctx.lengthCodings data.length,
        c = .length data.length) ↔
      (ctx.options = true → data = []) ∧
        ∀ c ∈ ctx.userLines.filterMap coding, c = .length data.length := by
  rw [forall_mem_append, and_comm]
  refine and_congr_left fun _ => ?_
  unfold HttpContext.lengthCodings
  split_ifs with hoptions hkeys
  · rw [forall_mem_singleton, HttpCoding.Coding.length.injEq, eq_comm, length_eq_zero_iff]
    exact ⟨fun h _ => h, fun h => h hoptions⟩
  · rw [forall_mem_singleton, Int.toNat_natCast]
    exact ⟨fun _ h => absurd h hoptions, fun _ => rfl⟩
  · exact ⟨fun _ h => absurd h hoptions, fun _ c hc => absurd hc not_mem_nil⟩

/-- `end` without a `write` sends the header and the data, or fails. -/
theorem finishAlone_cases (hheader : e.ctx.sendHeader = false) (hfits : e.ctx.Fits) {data : Bytes}
    (hshort : (e.ctx.header a.date data.length).length + data.length < 2 ^ 30) :
    (∃ e', e.finishAlone cfg a data.length data = .ok (e', false)) ∨
      ∃ e', e.finishAlone cfg a data.length data = .ok (e', true) ∧
        e'.sent = e.sent ++ (e.ctx.header a.date data.length ++ data) := by
  have hbody : (if 0 < (data.length : ℤ) then [data.take (data.length : ℤ).toNat] else []).flatten =
      data := by
    split_ifs with hpos
    · rw [Int.toNat_natCast, take_length, flatten_singleton]
    · exact (length_eq_zero_iff.mp (by omega)).symm
  have htexts : (e.ctx.texts a.date data.length ++
      if 0 < (data.length : ℤ) then [data.take (data.length : ℤ).toNat] else []).flatten =
      e.ctx.header a.date data.length ++ data := by
    rw [flatten_append, hbody, e.ctx.flatten_texts a.date hfits]
  rw [finishAlone, e.ctx.buildHeader_of_fits a.date hheader hfits, Except.bind, ← htexts]
  refine (send_cases ?_ _ _ _).imp_right fun ⟨e', hrun, _, hsent⟩ => ⟨e', hrun, hsent⟩
  rwa [htexts, length_append]

/-- **`end` alone.** -/
theorem finish_start_iff (hbounded : ctx.Bounded a [] (data.getD []))
    (hok : ∀ e, (start ctx size).finish cfg a data ≠ .ok (e, false)) :
    (∃ e, (start ctx size).finish cfg a data = .ok (e, true) ∧
        decode e.sent = some (data.getD [])) ↔ ctx.Faithful [] (data.getD []) := by
  have hshort := hbounded.alone rfl
  have hnonneg : 0 ≤ endLength cfg data :=
    Int.not_lt.mp fun hneg => hok (start ctx size) (if_pos hneg)
  have hfinish : (start ctx size).finish cfg a data =
      (start ctx size).finishAlone cfg a (endLength cfg data) (data.getD []) :=
    if_neg (Int.not_lt.mpr hnonneg)
  rw [hfinish, endLength_of_nonneg hnonneg (by omega)] at hok ⊢
  generalize data.getD [] = body at hshort hok ⊢
  have hfaithful : ctx.Faithful [] body ↔ (ctx.options = true → body = []) ∧
      ∀ c ∈ ctx.userLines.filterMap coding, c = .length body.length :=
    ⟨fun h => h.alone rfl, fun h => ⟨fun hne => absurd rfl hne, fun _ => h⟩⟩
  rw [hfaithful, ← announces_iff]
  rcases @finishAlone_cases cfg (start ctx size) a rfl hbounded.fits body hshort with
    ⟨e, hrun⟩ | ⟨e, hrun, hsent⟩
  · exact absurd hrun (hok e)
  · have hdecode : decode e.sent = (announced (ctx.userLines.filterMap coding ++
        ctx.lengthCodings body.length)).bind (bodyOf body) := by
      rw [hsent]
      refine (ctx.plain.decode_header a.date (by omega) _).trans ?_
      exact congrArg (fun codings => (announced codings).bind _) (append_nil _)
    have hbody := bind_bodyOf_eq_some_iff (prefix_refl body)
      (@announces_ne_nil ctx body.length (Int.natCast_nonneg _))
    rw [and_iff_right rfl, ← hdecode] at hbody
    rw [← hbody, hrun]
    constructor
    · rintro ⟨e', heq, h⟩
      obtain ⟨rfl, -⟩ := Prod.mk.inj (Except.ok.inj heq)
      exact h
    · exact fun h => ⟨e, rfl, h⟩

/-! ## With chunks -/

/-- The header was sent, and some chunks. -/
structure Streaming (ctx : HttpContext) (e : HttpExchange) (pieces : List Bytes) : Prop where
  chunk : e.ctx.chunk = true
  header : e.ctx.sendHeader = true
  sent : ∃ date, e.sent = ctx.chunked.header date (-1) ++
    pieces.flatMap fun p => HttpCoding.chunk (dec2hex p.length 16) p
  pieces : ∀ p ∈ pieces, p ≠ [] ∧ p.length < 2 ^ 30

variable {pieces : List Bytes}

theorem Streaming.writeChunk_cases (hs : Streaming ctx e pieces) {data : Bytes}
    (hshort : (HttpCoding.chunk (dec2hex data.length 16) data).length < 2 ^ 30) :
    (∃ e', e.writeChunk cfg a data = .ok (e', false)) ∨
      ∃ e', e.writeChunk cfg a data = .ok (e', true) ∧ Streaming ctx e' (pieces ++ [data]) := by
  have hlen : data.length < 2 ^ 30 := by
    simp only [HttpCoding.chunk, length_append] at hshort
    omega
  simp only [writeChunk]
  split_ifs with hneg hzero
  -- data that is too long or empty is refused
  · exact .inl ⟨e, rfl⟩
  · exact .inl ⟨e, rfl⟩
  · have hlength := getSendData_of_nonneg (Int.not_lt.mp hneg) (by omega)
    rw [hlength] at hzero
    rw [hlength, Int.toNat_natCast, take_length]
    have htexts : [dec2hex data.length 16, [cr, lf], data, [cr, lf]].flatten =
        HttpCoding.chunk (dec2hex data.length 16) data := by
      simp [HttpCoding.chunk, cr, lf]
    rw [← htexts] at hshort
    refine (send_cases hshort a.body e.ctx e.ctx).imp_right ?_
    rintro ⟨e', hrun, hctx, hsent⟩
    obtain ⟨date, hbefore⟩ := hs.sent
    refine ⟨e', hrun, hctx ▸ hs.chunk, hctx ▸ hs.header, ⟨date, ?_⟩, ?_⟩
    · rw [hsent, htexts, hbefore, flatMap_append, flatMap_singleton, append_assoc]
    · refine forall_mem_append.mpr ⟨hs.pieces, forall_mem_singleton.mpr ⟨?_, hlen⟩⟩
      rintro rfl
      exact hzero rfl

/-- The first part of the first `write`. -/
theorem writeHeader_start_cases (hfits : ctx.Fits)
    (hshort : (ctx.chunked.header a.date (-1)).length < 2 ^ 30) :
    (∃ e', (start ctx size).writeHeader cfg a = .ok (e', false)) ∨
      ∃ e', (start ctx size).writeHeader cfg a = .ok (e', true) ∧ Streaming ctx e' [] := by
  have htexts := ctx.chunked.flatten_texts a.date hfits (-1)
  have hwrite : (start ctx size).writeHeader cfg a = (start ctx size).send cfg
      (ctx.chunked.texts a.date (-1)) a.header { ctx.chunked with sendHeader := true }
      ctx.plain := by
    have hchunked : (start ctx size).ctx.chunked = ctx.chunked := rfl
    have hplain : (start ctx size).ctx.plain = ctx.plain := rfl
    have hheader : (start ctx size).ctx.sendHeader = false := rfl
    rw [writeHeader, if_neg (Bool.eq_false_iff.mp hheader), hchunked, hplain,
      ctx.chunked.buildHeader_of_fits a.date rfl hfits, Except.bind]
  rw [hwrite]
  rw [← htexts] at hshort
  refine (send_cases hshort _ _ _).imp_right fun ⟨e', hrun, hctx, hsent⟩ => ?_
  refine ⟨e', hrun, by rw [hctx]; rfl, by rw [hctx], ⟨a.date, ?_⟩,
    fun p hp => absurd hp not_mem_nil⟩
  rw [hsent, htexts, flatMap_nil, append_nil]
  rfl

variable {writes : List (HttpAnswers × Bytes)}

theorem write_of_writeHeader (h : e.writeHeader cfg a = .ok (e', true)) (data : Bytes) :
    e.write cfg a data = e'.writeChunk cfg a data := by
  rw [write, h]
  rfl

theorem Streaming.writeAll
    (hchunk : ∀ w ∈ writes, (HttpCoding.chunk (dec2hex w.2.length 16) w.2).length < 2 ^ 30) :
    ∀ {e : HttpExchange} {pieces : List Bytes}, Streaming ctx e pieces →
      e.writeAll cfg writes ≠ .ok none →
      ∃ e', e.writeAll cfg writes = .ok (some e') ∧
        Streaming ctx e' (pieces ++ writes.map Prod.snd) := by
  induction writes with
  | nil =>
    intro e pieces hs _
    exact ⟨e, rfl, by rwa [map_nil, append_nil]⟩
  | cons w writes ih =>
    intro e pieces hs hok
    obtain ⟨a, data⟩ := w
    obtain ⟨hshort, hrest⟩ := forall_mem_cons.mp hchunk
    -- the header is out, so that only a chunk is written
    have hheader : e.writeHeader cfg a = .ok (e, true) := if_pos hs.header
    rw [HttpExchange.writeAll, write_of_writeHeader hheader] at hok ⊢
    rcases hs.writeChunk_cases hshort with ⟨e', hrun⟩ | ⟨e', hrun, hs'⟩
    · rw [hrun] at hok
      exact absurd rfl hok
    · rw [hrun] at hok ⊢
      obtain ⟨e'', hrun', hs''⟩ := ih hrest hs' hok
      refine ⟨e'', hrun', ?_⟩
      rwa [append_assoc, singleton_append] at hs''

/-- **The chunks are read back.** -/
theorem Streaming.decode_eq (hs : Streaming ctx e pieces) :
    decode (e.sent ++ lastChunk) = some pieces.flatten := by
  obtain ⟨date, hsent⟩ := hs.sent
  -- chunks are announced, whatever the application announces besides
  have hchunked : HttpCoding.Coding.chunked ∈
      ctx.userLines.filterMap coding ++ ctx.lengthCodings (-1) ++ [.chunked] :=
    mem_append_right _ (mem_singleton.mpr rfl)
  have hsize : ∀ p ∈ pieces, 13 ∉ dec2hex p.length 16 ∧
      numeral 16 (dec2hex p.length 16) = some p.length ∧ p ≠ [] := by
    intro p hp
    obtain ⟨hne, hlt⟩ := hs.pieces p hp
    refine ⟨notMem_writeDigits (by decide) (by decide) (by decide) not_mem_nil,
      numeral_writeDigits (by decide) (by decide) (by decide) ?_, hne⟩
    exact lt_of_lt_of_le hlt (by decide)
  have hfuel : pieces.length <
      ((pieces.flatMap fun p => HttpCoding.chunk (dec2hex p.length 16) p) ++
      lastChunk).length + 1 := by
    have hle := length_le_flatMap_chunk (fun p => dec2hex p.length 16) pieces
    rw [length_append]
    omega
  rw [hsent, append_assoc]
  refine (HttpContext.decode_header _ date (by decide) _).trans ?_
  exact (congrArg (Option.bind · (bodyOf _)) (announced_of_chunked hchunked)).trans
    (unchunk_chunks hsize hfuel)

/-- `end` behind some calls of `write`. -/
theorem Streaming.finish_cases (hs : Streaming ctx e pieces) (data : Option Bytes) :
    (∃ e', e.finish cfg a data = .ok (e', false)) ∨
      ∃ e', e.finish cfg a data = .ok (e', true) ∧ e'.sent = e.sent ++ lastChunk := by
  unfold finish finishChunks
  simp only [if_pos hs.chunk]
  split_ifs
  · exact .inl ⟨e, rfl⟩
  · -- the data of `end` is not looked at
    exact .inr ⟨_, rfl, rfl⟩
  · exact .inl ⟨e, rfl⟩

theorem respond_of_finish {e₁ e₂ : HttpExchange} {ok : Bool}
    (hwrites : e.writeAll cfg writes = .ok (some e₁))
    (hfinish : e₁.finish cfg a data = .ok (e₂, ok)) :
    e.respond cfg a writes data = .ok (if ok then some e₂ else none) := by
  rw [respond, hwrites]
  show (e₁.finish cfg a data).map _ = _
  rw [hfinish]
  cases ok <;> rfl

theorem Streaming.respond (hs : Streaming ctx e pieces)
    (hchunk : ∀ w ∈ writes, (HttpCoding.chunk (dec2hex w.2.length 16) w.2).length < 2 ^ 30)
    (hok : e.respond cfg a writes data ≠ .ok none) :
    ∃ e', e.respond cfg a writes data = .ok (some e') ∧
      decode e'.sent = some (pieces ++ writes.map Prod.snd).flatten := by
  have hwrites : e.writeAll cfg writes ≠ .ok none := fun h =>
    hok (by rw [HttpExchange.respond, h]; rfl)
  obtain ⟨e₁, hrun, hs₁⟩ := hs.writeAll hchunk hwrites
  rcases @Streaming.finish_cases cfg ctx e₁ a _ hs₁ data with ⟨e₂, hfinish⟩ | ⟨e₂, hfinish, hsent⟩
  · exact absurd (respond_of_finish hrun hfinish) hok
  · exact ⟨e₂, respond_of_finish hrun hfinish, hsent ▸ hs₁.decode_eq⟩

/-- **`write` and `end`**: what `write` was given is decoded, and nothing else. -/
theorem respond_start (hne : writes ≠ []) {body : Bytes} (hbounded : ctx.Bounded a writes body)
    (hok : (start ctx size).respond cfg a writes data ≠ .ok none) :
    ∃ e, (start ctx size).respond cfg a writes data = .ok (some e) ∧
      decode e.sent = some (writes.map Prod.snd).flatten := by
  obtain ⟨⟨a₁, first⟩, writes, rfl⟩ := exists_cons_of_ne_nil hne
  obtain ⟨hfirst, hchunk⟩ := forall_mem_cons.mp hbounded.chunk
  unfold respond at hok ⊢
  rw [writeAll] at hok ⊢
  rcases @writeHeader_start_cases cfg ctx a₁ size hbounded.fits
    (forall_mem_cons.mp hbounded.header).1 with ⟨e₁, hheader⟩ | ⟨e₁, hheader, hs₁⟩
  · rw [write, hheader] at hok
    exact absurd rfl hok
  · rw [write_of_writeHeader hheader] at hok ⊢
    rcases hs₁.writeChunk_cases hfirst with ⟨e₂, hrun⟩ | ⟨e₂, hrun, hs₂⟩
    · rw [hrun] at hok
      exact absurd rfl hok
    · rw [hrun] at hok ⊢
      exact hs₂.respond hchunk hok

/-- A `GET` request with no fields of the application. -/
def plainContext : HttpContext where
  options := false
  keepalive := true
  status := ⟨⟨ascii "200 OK".toList, by decide +kernel⟩, by decide +kernel⟩
  zheader := none
  zcookie := []
  chunk := false
  sendHeader := false

/-- All sends succeed. -/
def plainAnswers : HttpAnswers :=
  ⟨⟨⟨ascii "Thu, 01 Jan 1970 00:00:00 GMT".toList, by decide +kernel⟩, by decide +kernel⟩,
    true, true⟩

def plainSettings : HttpSettings := ⟨2097152, 16384, by decide⟩

theorem bounded_plain (data : Bytes) :
    plainContext.Bounded plainAnswers [(plainAnswers, [97])] data :=
  ⟨by decide, forall_mem_singleton.mpr (by decide +kernel),
    forall_mem_singleton.mpr (by decide +kernel), nofun⟩

end HttpExchange

end Swoole
