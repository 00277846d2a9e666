import Swoole.Core.String
import Swoole.Library.HttpCoding
import Swoole.Protocol.HttpRequest

/-!
# HTTP responses

The methods `write` and `end` of a response.  The first `write` sends the header, which then
announces chunks, and each `write` sends a chunk; `end` sends the last chunk, or, if there was no
`write`, the header and the body at once.  Two flags of the context, `chunk` and `send_header`,
carry that over from call to call.

The header has the fields that the application has set, and the others that are not among them.  A
line of the application is printed into a buffer of fixed size, and as many bytes are taken out of
it as the whole line has: behind a line that is too long, that is memory the buffer does not own.

What is sent at once is put together in `swoole_http_buffer`, text by text, and nobody looks at the
answers of `swString_append_ptr`: a text for which the buffer cannot grow is left out.

The answers of `finish`, which hands data to the reactor, and the date are inputs.  The request is
an HTTP/1.1 one, and there is no compression.
-/

open List

namespace Swoole

instance : LawfulBEq Bytes := inferInstance

/-- A part of a line: no NUL, no line end. -/
abbrev HeaderText := { b : Bytes // ∀ c ∈ b, c ≠ 0 ∧ c ≠ cr ∧ c ≠ lf }

/-- A status message or a date, which is short. -/
structure ShortText where
  text : HeaderText
  short : text.1.length ≤ 64
  deriving DecidableEq

/-- An entry of the array `header`; `none` is an integer as key. -/
structure HeaderEntry where
  key : Option HeaderText
  value : HeaderText
  deriving DecidableEq

/-- `http_context`; `options` says that the method is `PHP_HTTP_OPTIONS`, `status` is the
`http_status_message`, and cookies that are no strings are `none`. -/
structure HttpContext where
  options : Bool
  keepalive : Bool
  status : ShortText
  zheader : Option (List HeaderEntry)
  zcookie : List (Option HeaderText)
  chunk : Bool
  sendHeader : Bool
  deriving DecidableEq

inductive HeaderFault where
  /-- `assert(ctx->send_header == 0)`. -/
  | assertion
  /-- Bytes behind the end of `buf` are read. -/
  | overread
  /-- `swString_extend` asserts that the buffer grows, or the text is copied outside it. -/
  | append
  deriving DecidableEq, Repr

/-! ## The header -/

/-- The loop over the entries ends at the first one without a string as key. -/
def namedEntries : List HeaderEntry → List (Bytes × Bytes)
  | [] => []
  | ⟨none, _⟩ :: _ => []
  | ⟨some key, value⟩ :: entries => (key.1, value.1) :: namedEntries entries

/-- The format is `"%*s: %*s\r\n"`, and the first width is `keylen - 1`: a blank for an empty key.
-/
def entryLine (entry : Bytes × Bytes) : Bytes :=
  (if entry.1 = [] then [space] else entry.1) ++ ascii [':', ' '] ++ entry.2

def lineText (line : Bytes) : Bytes := line ++ [cr, lf]

/-- A line of the application, as it is taken out of `buf`: the NUL that `snprintf` ends it with
stands in the place of the line feed if there is no room for both. -/
def entryText (line : Bytes) : Bytes :=
  if line.length + 2 = httpHeaderMaxSize then line ++ [cr, 0] else lineText line

namespace HttpContext

variable (ctx : HttpContext)

/-- The keys of the application. -/
def keys : List Bytes := (namedEntries (ctx.zheader.getD [])).map Prod.fst

/-- The lines of the application. -/
def userLines : List Bytes := (namedEntries (ctx.zheader.getD [])).map entryLine

def statusLine : Bytes := ascii "HTTP/1.1 ".toList ++ ctx.status.text.1

def serverLine : Bytes := ascii "Server: swoole-http-server".toList

def connectionLine : Bytes :=
  if ctx.keepalive then ascii "Connection: keep-alive".toList else ascii "Connection: close".toList

def contentTypeLine : Bytes := ascii "Content-Type: text/html".toList

def dateLine (date : ShortText) : Bytes := ascii "Date: ".toList ++ date.text.1

/-- `"Content-Length: %d"`. -/
def contentLengthLine (n : ℕ) : Bytes :=
  ascii "Content-Length: ".toList ++ HttpCoding.writeDigits 10 10 n []

def chunkedLine : Bytes := ascii "Transfer-Encoding: chunked".toList

def cookieLine (cookie : HeaderText) : Bytes := ascii "Set-Cookie: ".toList ++ cookie.1

/-- The fields behind those of the application, when it has set some. -/
def fieldsWith (date : ShortText) (bodyLength : ℤ) : List Bytes :=
  (if ascii "Server".toList ∈ ctx.keys then [] else [serverLine]) ++
    (if ascii "Connection".toList ∈ ctx.keys then [] else [ctx.connectionLine]) ++
    (if ctx.options then
      [ascii "Allow: GET, POST, PUT, PATCH, DELETE, HEAD, OPTIONS".toList, contentLengthLine 0]
    else if contentLengthName ∉ ctx.keys ∧ 0 ≤ bodyLength then [contentLengthLine bodyLength.toNat]
    else []) ++
    (if ascii "Date".toList ∈ ctx.keys then [] else [dateLine date]) ++
    (if ascii "Content-Type".toList ∈ ctx.keys then [] else [contentTypeLine])

/-- The fields when it has not. -/
def fieldsWithout (date : ShortText) (bodyLength : ℤ) : List Bytes :=
  [serverLine, contentTypeLine, ctx.connectionLine, dateLine date] ++
    (if ctx.options then
      [ascii "Allow: GET, POST, PUT, DELETE, HEAD, OPTIONS".toList, contentLengthLine 0]
    else if 0 ≤ bodyLength then [contentLengthLine bodyLength.toNat]
    else [])

/-- The fields that do not come from the application. -/
def ownFields (date : ShortText) (bodyLength : ℤ) : List Bytes :=
  (match ctx.zheader with
    | some _ => ctx.fieldsWith date bodyLength
    | none => ctx.fieldsWithout date bodyLength) ++
    (if ctx.chunk then [chunkedLine] else [])

def cookies : List HeaderText := ctx.zcookie.reduceOption

def fields (date : ShortText) (bodyLength : ℤ) : List Bytes :=
  ctx.userLines ++ ctx.ownFields date bodyLength ++ ctx.cookies.map cookieLine

/-- The bytes of the header. -/
def header (date : ShortText) (bodyLength : ℤ) : Bytes :=
  Lines.text cr lf (ctx.statusLine :: ctx.fields date bodyLength) ++ [cr, lf]

/-- The lines of the application fit in `buf`, with the NUL behind them. -/
def Fits : Prop := ∀ line ∈ ctx.userLines, line.length + 2 < httpHeaderMaxSize
  deriving Decidable

/-- The texts that `http_build_header` appends.  Two fixed lines that are one text in the source
are two here. -/
def texts (date : ShortText) (bodyLength : ℤ) : List Bytes :=
  lineText ctx.statusLine :: ctx.userLines.map entryText ++
    (ctx.ownFields date bodyLength).map lineText ++
    (ctx.cookies.flatMap fun cookie => [ascii "Set-Cookie: ".toList, cookie.1, [cr, lf]]) ++
    [[cr, lf]]

/-- `http_build_header`. -/
def buildHeader (date : ShortText) (bodyLength : ℤ) : Except HeaderFault (List Bytes) :=
  if ctx.sendHeader then .error .assertion
  else if ∃ line ∈ ctx.userLines, httpHeaderMaxSize < line.length + 2 then .error .overread
  else .ok (ctx.texts date bodyLength)

/-- The context that `end` builds the header from, without a `write`. -/
def plain : HttpContext := { ctx with chunk := false, sendHeader := false }

/-- The context that the first `write` builds the header from. -/
def chunked : HttpContext := { ctx with chunk := true, sendHeader := false }

/-- `swoole_http_context_free`. -/
def free : HttpContext := { ctx with zheader := none, zcookie := [], sendHeader := false }

end HttpContext

/-! ## Sending -/

/-- `swoole_dec2hex`; `buf` has room for 64 digits. -/
def dec2hex (value base : ℕ) : Bytes := HttpCoding.writeDigits base 64 value []

/-- `php_swoole_get_send_data`: the length, as an `int`; `limit` is `buffer_output_size`. -/
def getSendData (limit : ℕ) (data : Bytes) : ℤ :=
  if limit ≤ toUInt32 (toInt32 data.length) then -1 else toInt32 data.length

/-- `swString_clear`, and calls of `swString_append_ptr` or `swString_append`. -/
def fill (pagesize size : ℕ) (texts : List Bytes) : Except HeaderFault SwString :=
  texts.foldlM
    (fun buffer text => ((buffer.appendPtr pagesize text).elim (.error .append) fun r => .ok r.1))
    (SwString.new (fun _ => 0) size)

/-- The settings that sending depends on; `limit` is `buffer_output_size`. -/
structure HttpSettings where
  limit : ℕ
  pagesize : ℕ
  pagesize_lt : pagesize < 2 ^ 31

/-- `swServer_tcp_send`. -/
def tcpSend (limit : ℕ) (data : Bytes) (finish : Bool) : Bool :=
  decide (data.length < limit) && finish

/-- What a call is told: the date, and the answers of `finish` to the header of the first `write`,
and to everything else. -/
structure HttpAnswers where
  date : ShortText
  header : Bool
  body : Bool

/-- The context, what was sent, and the size of `swoole_http_buffer`. -/
structure HttpExchange where
  ctx : HttpContext
  sent : Bytes
  size : ℕ
  deriving DecidableEq

namespace HttpExchange

/-- `swoole_http_context_new`, and what the application has set before it sends anything. -/
def start (ctx : HttpContext) (size : ℕ) : HttpExchange := ⟨ctx.plain, [], size⟩

variable (cfg : HttpSettings) (e : HttpExchange) (a : HttpAnswers)

/-- Put the texts together and send them; the context is then one or the other. -/
def send (texts : List Bytes) (finish : Bool) (taken refused : HttpContext) :
    Except HeaderFault (HttpExchange × Bool) :=
  (fill cfg.pagesize e.size texts).map fun buffer : SwString =>
    if tcpSend cfg.limit buffer.data finish then (⟨taken, e.sent ++ buffer.data, buffer.size⟩, true)
    else (⟨refused, e.sent, buffer.size⟩, false)

/-- The first part of `write`: the header, if it was not sent yet. -/
def writeHeader : Except HeaderFault (HttpExchange × Bool) :=
  if e.ctx.sendHeader then .ok (e, true)
  else
    (e.ctx.chunked.buildHeader a.date (-1)).bind fun texts =>
      e.send cfg texts a.header { e.ctx.chunked with sendHeader := true } e.ctx.plain

/-- The second part of `write`: a chunk. -/
def writeChunk (data : Bytes) : Except HeaderFault (HttpExchange × Bool) :=
  let length := getSendData cfg.limit data
  if length < 0 then .ok (e, false)
  else if length = 0 then .ok (e, false)
  else
    e.send cfg [dec2hex length.toNat 16, [cr, lf], data.take length.toNat, [cr, lf]] a.body
      e.ctx e.ctx

/-- `write`; `false` is `RETURN_FALSE`. -/
def write (data : Bytes) : Except HeaderFault (HttpExchange × Bool) :=
  (e.writeHeader cfg a).bind fun
    | (e, false) => .ok (e, false)
    | (e, true) => e.writeChunk cfg a data

/-- `"0\r\n\r\n"`. -/
def lastChunk : Bytes := [48, cr, lf, cr, lf]

/-- The length of the data for `end`, which may be missing. -/
def endLength : Option Bytes → ℤ
  | none => 0
  | some data => getSendData cfg.limit data

/-- `end` behind a `write`. -/
def finishChunks : HttpExchange × Bool :=
  if tcpSend cfg.limit lastChunk a.body then
    (⟨{ e.ctx with chunk := false }.free, e.sent ++ lastChunk, e.size⟩, true)
  else (e, false)

/-- `end` without a `write`: the header and the body at once. -/
def finishAlone (length : ℤ) (data : Bytes) : Except HeaderFault (HttpExchange × Bool) :=
  (e.ctx.buildHeader a.date length).bind fun texts =>
    e.send cfg (texts ++ if 0 < length then [data.take length.toNat] else []) a.body e.ctx.free
      { e.ctx with sendHeader := false }

/-- `end`. -/
def finish (data : Option Bytes) : Except HeaderFault (HttpExchange × Bool) :=
  let length := endLength cfg data
  if length < 0 then .ok (e, false)
  else if e.ctx.chunk then .ok (e.finishChunks cfg a)
  else e.finishAlone cfg a length (data.getD [])

/-- Some calls of `write`, up to the first one that fails. -/
def writeAll : HttpExchange → List (HttpAnswers × Bytes) → Except HeaderFault (Option HttpExchange)
  | e, [] => .ok (some e)
  | e, (a, data) :: writes =>
    (e.write cfg a data).bind fun
      | (_, false) => .ok none
      | (e, true) => writeAll e writes

/-- Some calls of `write` and one of `end`; `none` says that a call has failed. -/
def respond (writes : List (HttpAnswers × Bytes)) (data : Option Bytes) :
    Except HeaderFault (Option HttpExchange) :=
  (e.writeAll cfg writes).bind fun
    | none => .ok none
    | some e =>
      (e.finish cfg a data).map fun
        | (_, false) => none
        | (e, true) => some e

end HttpExchange

/-- **Within bounds**: the lines of the application fit in the buffer they are printed to, and
everything that is sent at once is shorter than `2 ^ 30` bytes. -/
structure HttpContext.Bounded (ctx : HttpContext) (a : HttpAnswers)
    (writes : List (HttpAnswers × Bytes)) (data : Bytes) : Prop where
  fits : ctx.Fits
  header : ∀ w ∈ writes, (ctx.chunked.header w.1.date (-1)).length < 2 ^ 30
  chunk : ∀ w ∈ writes, (HttpCoding.chunk (dec2hex w.2.length 16) w.2).length < 2 ^ 30
  alone : writes = [] → (ctx.plain.header a.date data.length).length + data.length < 2 ^ 30

/-- **The condition**.  There is no data for `end` behind a `write`.  Without a `write`, there is
none for the method `OPTIONS`, and what the application has announced itself is the length of the
data. -/
structure HttpContext.Faithful (ctx : HttpContext) (writes : List Bytes) (data : Bytes) : Prop where
  last : writes ≠ [] → data = []
  alone : writes = [] → (ctx.options = true → data = []) ∧
    ∀ c ∈ ctx.userLines.filterMap HttpCoding.coding, c = .length data.length

end Swoole
