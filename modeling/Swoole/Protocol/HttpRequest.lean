import Swoole.Core.Text
import Swoole.Protocol.ReadConn

/-!
# The HTTP reader

`swPort_onRead_http` collects one request at a time.  A `swHttpRequest` lives as long
as its request is being received and keeps what was parsed so far: the method, a
cursor behind the request line, and the two lengths.  Requests with an entity are
dispatched once `content_length + header_length` bytes have arrived, all others as
soon as the received bytes end with a blank line.

Each piece is parsed as soon as it can be found in the buffer, and never again: the
request line while `method` is `0`, the `Content-Length` line while `content_length`
is `0`, the end of the header while `header_length` is `0`.  The parsers compare whole
words at the cursor and read digits up to the first other byte, and so they see the
memory cells behind the received bytes as well.  Every buffer is a new block, hence
`fresh`: what the allocator left in the block of the `n`-th request.

A loop whose state variable only ever moves from `0` to `1` is written as two loops.
The reply to a bad request and the upgrade to WebSocket are not part of the model.
-/

namespace Swoole

open Search

/-- `SW_HTTP_HEADER_MAX_SIZE`. -/
def httpHeaderMaxSize : ℕ := 8192

/-- The methods the reader knows. -/
inductive HttpMethod where
  | delete
  | get
  | head
  | post
  | put
  | patch
  | options
  deriving DecidableEq, Repr

inductive HttpVersion where
  | v10
  | v11
  deriving DecidableEq, Repr

def HttpMethod.text : HttpMethod → Bytes
  | .delete => ascii ['D', 'E', 'L', 'E', 'T', 'E']
  | .get => ascii ['G', 'E', 'T']
  | .head => ascii ['H', 'E', 'A', 'D']
  | .post => ascii ['P', 'O', 'S', 'T']
  | .put => ascii ['P', 'U', 'T']
  | .patch => ascii ['P', 'A', 'T', 'C', 'H']
  | .options => ascii ['O', 'P', 'T', 'I', 'O', 'N', 'S']

def HttpVersion.text : HttpVersion → Bytes
  | .v10 => ascii ['H', 'T', 'T', 'P', '/', '1', '.', '0']
  | .v11 => ascii ['H', 'T', 'T', 'P', '/', '1', '.', '1']

/-- `SW_SPACE`. -/
def space : UInt8 := 32

def cr : UInt8 := 13

def lf : UInt8 := 10

/-- The two line ends in a row that end a header. -/
def blankLine : Bytes := [cr, lf, cr, lf]

def contentLengthName : Bytes :=
  ascii ['C', 'o', 'n', 't', 'e', 'n', 't', '-', 'L', 'e', 'n', 'g', 't', 'h']

/-- `swHttpRequest`; `none` is a method or version of `0`. -/
structure HttpRequest where
  method : Option HttpMethod
  offset : ℕ
  version : Option HttpVersion
  headerLength : ℕ
  contentLength : ℕ
  buffer : SwString

namespace HttpRequest

/-- A zeroed request with a new buffer. -/
def new (fresh : ℕ → UInt8) : HttpRequest where
  method := none
  offset := 0
  version := none
  headerLength := 0
  contentLength := 0
  buffer := .new fresh httpHeaderMaxSize

/-! ## The request line -/

/-- The methods in the order in which they are tried. -/
def methods : List HttpMethod := [.get, .post, .put, .patch, .delete, .head, .options]

/-- The method at the start of the block. -/
def readMethod (s : SwString) : Option HttpMethod :=
  methods.find? fun m => s.cells 0 m.text.length = m.text

/-- The version loop while `cmp` is `0`. -/
def findSpace (s : SwString) (buf : ℕ) : Option ℕ :=
  firstIn (fun p => s.byteAt p = space) buf s.data.length

/-- The version loop: the version, if there is one, and the offset behind it; `none` is
`SW_ERR`.  When the received bytes end before the version begins, the loop ends without
a version, and the offset lies where the version would end. -/
def readVersion (s : SwString) (buf : ℕ) : Option (Option HttpVersion × ℕ) :=
  match findSpace s buf with
  | none => some (none, max buf s.data.length + 8)
  | some q =>
    let p := q + 1
    if p < s.data.length then
      if s.data.length < p + 8 then none
      else if s.cells p 8 = HttpVersion.v11.text then some (some .v11, p + 8)
      else if s.cells p 8 = HttpVersion.v10.text then some (some .v10, p + 8)
      else none
    else some (none, p + 8)

variable (r : HttpRequest)

/-- `swHttpRequest_get_protocol`.  The method is kept even if the version is not found. -/
def getProtocol : HttpRequest × Ret :=
  match readMethod r.buffer with
  | none => (r, .err)
  | some m =>
    let r' := { r with method := some m, offset := m.text.length + 1 }
    match readVersion r.buffer (m.text.length + 1) with
    | none => (r', .err)
    | some (version, offset) =>
      ({ r' with
          version := version <|> r.version
          buffer := { r.buffer with offset := offset } }, .ok)

/-! ## The header -/

/-- At `p` a line ends, and the next one begins with the name of the field. -/
def contentLengthAt (s : SwString) (p : ℕ) : Prop :=
  s.cells p 2 = [cr, lf] ∧ (s.cells (p + 2) 14).map toLower = contentLengthName.map toLower
  deriving Decidable

/-- The search for the `Content-Length` line: the loop of `swHttpRequest_get_content_length`
while `state` is `0`, and that of `swHttpRequest_have_content_length`.  A line end that
misses is skipped whole. -/
def findContentLength (s : SwString) : ℕ → ℕ → Option ℕ
  | 0, _ => none
  | rounds + 1, p =>
    if p < s.data.length then
      if s.cells p 2 = [cr, lf] then
        if contentLengthAt s p then some p else findContentLength s rounds (p + 2)
      else findContentLength s rounds (p + 1)
    else none

/-- The loop of `swHttpRequest_get_content_length` while `state` is `1`. -/
def findHeaderEnd (s : SwString) (buf : ℕ) : Option ℕ :=
  firstIn (fun p => s.cells p 4 = blankLine) buf s.data.length

/-- Where the `Content-Length` line of a request is found. -/
def contentLengthPos : Option ℕ :=
  findContentLength r.buffer r.buffer.data.length r.buffer.offset

/-- Where the header ends behind the `Content-Length` line found at `p`. -/
def headerEndPos (p : ℕ) : Option ℕ :=
  findHeaderEnd r.buffer (p + 18)

/-- `atoi` of the text behind the colon of the line found at `p`, as `content_length`
stores it.  The text is taken to end with the block at the latest. -/
def contentLengthValue (p : ℕ) : ℕ :=
  toUInt32 (atoi (r.buffer.cells (p + 17) (r.buffer.size - (p + 17))))

/-- `swHttpRequest_get_content_length`.  The length is kept even if the header does not
end. -/
def getContentLength : HttpRequest × Ret :=
  match r.contentLengthPos with
  | none => (r, .err)
  | some p =>
    let r' := { r with contentLength := r.contentLengthValue p }
    match r.headerEndPos p with
    | none => (r', .err)
    | some q =>
      ({ r' with headerLength := q + 4, buffer := { r.buffer with offset := q + 4 } }, .ok)

/-- `swHttpRequest_have_content_length`. -/
def haveContentLength : Bool := r.contentLengthPos.isSome

/-- `swHttpRequest_get_header_length`. -/
def getHeaderLength : HttpRequest × Ret :=
  match strnpos r.buffer.data blankLine with
  | none => (r, .err)
  | some n => ({ r with headerLength := n + 4 }, .ok)

/-! ## What the searches find -/

/-- The search for the `Content-Length` line may skip a line end that misses, since its
second half is no line end: it finds the first hit. -/
theorem findContentLength_eq (s : SwString) : ∀ (rounds p : ℕ), s.data.length - p ≤ rounds →
    findContentLength s rounds p = firstIn (contentLengthAt s) p s.data.length := by
  intro rounds
  induction rounds with
  | zero =>
    intro p hrounds
    rw [firstIn_of_le (by omega)]
    rfl
  | succ rounds ih =>
    intro p hrounds
    unfold findContentLength
    by_cases hp : p < s.data.length
    · rw [if_pos hp]
      by_cases hat : contentLengthAt s p
      · rw [if_pos hat.1, if_pos hat, firstIn_of_pos hp hat]
      · rw [firstIn_of_neg hat]
        by_cases hmark : s.cells p 2 = [cr, lf]
        · have hsecond : ¬ contentLengthAt s (p + 1) := by
            rintro ⟨hmark', -⟩
            have hcr : s.byteAt (p + 1) = cr := (List.cons.inj hmark').1
            have hlf : s.byteAt (p + 1) = lf := (List.cons.inj (List.cons.inj hmark).2).1
            exact absurd (hcr.symm.trans hlf) (by decide)
          rw [if_pos hmark, if_neg hat, ih (p + 2) (by omega), firstIn_of_neg hsecond]
        · rw [if_neg hmark, ih (p + 1) (by omega)]
    · rw [if_neg hp, firstIn_of_le (by omega)]

theorem contentLengthPos_eq :
    r.contentLengthPos =
      firstIn (contentLengthAt r.buffer) r.buffer.offset r.buffer.data.length :=
  findContentLength_eq _ _ _ (by omega)

/-- The request after `bytes` were stored behind the bytes in use. -/
def stored (bytes : Bytes) (h : r.buffer.data.length + bytes.length ≤ r.buffer.size) :
    HttpRequest :=
  { r with buffer := r.buffer.append bytes h }

/-- `buf_len`, as `recv` gets it. -/
def bufLen : ℕ := toSizeT (toInt32 ((r.buffer.size : ℤ) - r.buffer.data.length))

theorem bufLen_of_lt {r : HttpRequest} (h : r.buffer.size < r.buffer.data.length + 2 ^ 31) :
    r.bufLen = r.buffer.size - r.buffer.data.length := by
  have hle := r.buffer.length_le
  unfold bufLen
  rw [toInt32_of_lt (by omega) (by omega)]
  unfold toSizeT
  omega

end HttpRequest

/-! ## The connection -/

/-- A connection of an HTTP port: its request, the part of the peer's stream still to
come, and the requests dispatched so far, oldest first. -/
structure HttpConn where
  request : Option HttpRequest
  wire : Bytes
  packages : List Bytes
  status : Status

namespace HttpConn

def init (stream : Bytes) : HttpConn where
  request := none
  wire := stream
  packages := []
  status := .active

variable (c : HttpConn)

/-- The request being received; `conn->object` is set up when it is needed. -/
def current (fresh : ℕ → ℕ → UInt8) : HttpRequest :=
  c.request.getD (.new (fresh c.packages.length))

/-- `close_fd`. -/
def closeFd : HttpConn × Next Ret := ({ c with request := none, status := .closed }, .ret .ok)

/-- `swReactorThread_dispatch` and `swHttpRequest_free`. -/
def dispatch (data : Bytes) : HttpConn × Next Ret :=
  ({ c with request := none, packages := c.packages ++ [data] }, .ret .ok)

/-- `goto recv_data`. -/
def recvData (r : HttpRequest) : HttpConn × Next Ret := ({ c with request := some r }, .again)

/-- `http_no_entity`.  With fewer than four bytes the comparison begins in front of the
block; it fails at the last byte, which is a letter of the method then. -/
def httpNoEntity (r : HttpRequest) : HttpConn × Next Ret :=
  if r.buffer.data.drop (r.buffer.data.length - 4) = blankLine then c.dispatch r.buffer.data
  else if r.buffer.size = r.buffer.data.length then c.closeFd
  else c.recvData r

/-- The end of `http_entity`: both lengths are known. -/
def httpBody (r : HttpRequest) : HttpConn × Next Ret :=
  let requestSize := (r.contentLength + r.headerLength) % 2 ^ 32
  -- discard the redundant data
  let data := r.buffer.data.take requestSize
  if data.length = requestSize then c.dispatch data
  else c.recvData { r with buffer := r.buffer.reserve requestSize }

/-- The middle of `http_entity`: the length of the entity is known. -/
def httpHeader (r : HttpRequest) : HttpConn × Next Ret :=
  if r.headerLength = 0 then
    if r.buffer.size = r.buffer.data.length then c.closeFd
    else
      match r.getHeaderLength with
      | (r', .err) => c.recvData r'
      | (r', .ok) => c.httpBody r'
  else c.httpBody r

/-- `http_entity`. -/
def httpEntity (packageMaxLength : ℕ) (r : HttpRequest) : HttpConn × Next Ret :=
  if r.contentLength = 0 then
    match r.getContentLength with
    | (r', .err) => if r.buffer.size = r.buffer.data.length then c.closeFd else c.recvData r'
    | (r', .ok) => if packageMaxLength < r'.contentLength then c.closeFd else c.httpHeader r'
  else c.httpHeader r

/-- What the reader does once the method is known. -/
def httpMethod (packageMaxLength : ℕ) (r : HttpRequest) : HttpConn × Next Ret :=
  match r.method with
  | some .delete =>
    if r.contentLength = 0 ∧ r.haveContentLength = false then c.httpNoEntity r
    else c.httpEntity packageMaxLength r
  | some .get | some .head | some .options => c.httpNoEntity r
  | some .post | some .put | some .patch => c.httpEntity packageMaxLength r
  | none => c.closeFd

/-- What follows a `recv` that stored some bytes. -/
def received (packageMaxLength : ℕ) (r : HttpRequest) : HttpConn × Next Ret :=
  if r.method = none then
    match r.getProtocol with
    | (r', .err) =>
      if r'.buffer.data.length < httpHeaderMaxSize then
        ({ c with request := some r' }, .ret .ok)
      else c.closeFd
    | (r', .ok) => c.httpMethod packageMaxLength r'
  else c.httpMethod packageMaxLength r

/-- What follows a `recv` that failed. -/
def recvFailed (r : HttpRequest) (e : Errno) : HttpConn × Next Ret :=
  match connectionError e with
  | .close => c.closeFd
  | .error | .wait => ({ c with request := some r }, .ret .ok)
  | .abort => ({ c with status := .broken }, .ret .ok)

/-- `swPort_onRead_http` from one `recv` to the next, or to its return. -/
def recvHttp (fresh : ℕ → ℕ → UInt8) (packageMaxLength : ℕ) (a : RecvAnswer) :
    HttpConn × Next Ret :=
  let r := c.current fresh
  match recv r.bufLen c.wire a with
  | (.error e, _) => c.recvFailed r e
  | (.data [], _) => c.closeFd
  | (.data (b :: bs), wire) =>
    if h : r.buffer.data.length + (b :: bs).length ≤ r.buffer.size then
      { c with wire := wire }.received packageMaxLength (r.stored (b :: bs) h)
    else ({ c with status := .broken, wire := wire }, .ret .ok)

/-- `swPort_onRead_http`, which closes the connection itself; only an active connection
has read events. -/
def onReadHttp (fresh : ℕ → ℕ → UInt8) (packageMaxLength : ℕ) :
    Resumable HttpConn RecvAnswer Ret where
  step c a := if c.status = .active then c.recvHttp fresh packageMaxLength a else (c, .ret .ok)
  settle c _ := c

/-- What one answer of the kernel makes of a connection. -/
abbrev readTurn (fresh : ℕ → ℕ → UInt8) (packageMaxLength : ℕ) :
    HttpConn → RecvAnswer → HttpConn :=
  (onReadHttp fresh packageMaxLength).turn

end HttpConn

end Swoole
