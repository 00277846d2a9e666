import Swoole.Core.String
import Swoole.Library.LittleEndian

/-!
# The asynchronous MySQL client

`swoole_mysql_onRead` collects the answer to a query in one buffer and calls `mysql_response`
after each `recv`, which goes on where it stopped: `state` says what is expected next and
`buffer->offset` where.  `mysql_decode_field` decodes a column definition *in place*: it
moves the strings together, each with a zero behind it, and the column keeps pointers into the
buffer.

Three things about it matter later.

* The counts of unread bytes are an `int` in `mysql_response` and `uint32_t`s in
  `mysql_read_columns` and `mysql_read_rows`, and `mysql_read_columns` subtracts four without
  looking.
* `mysql_response` returns `SW_OK` not only at the end of a response but whenever nothing is
  unread.
* A full buffer is extended with `realloc`.  If that moves the block, the pointers in the
  columns dangle.

The bytes behind `buffer->length` are whatever earlier responses left there.
-/

namespace Swoole

namespace SwString

/-- `memmove(str + dst, str + src, n)`; `none` is a write outside the block. -/
def memmove (s : SwString) (dst src n : ℕ) : Option SwString :=
  if dst + n ≤ s.size then some (s.patch dst (s.cells src n) 0 s.length_le) else none

/-- `str[i] = b`; `none` is a write outside the block. -/
def poke (s : SwString) (i : ℕ) (b : UInt8) : Option SwString :=
  if i < s.size then some (s.patch i [b] 0 s.length_le) else none

/-- The C string at `str + start`. -/
def cString (s : SwString) (start : ℕ) : Bytes :=
  (s.cells start (s.size - start)).takeWhile (· ≠ 0)

end SwString

namespace Mysql

/-- `mysql_uint2korr`, `mysql_uint3korr`, `mysql_uint4korr` and `mysql_uint8korr`. -/
def korr (s : SwString) (pos n : ℕ) : ℕ := LittleEndian.value (s.cells pos n)

/-- A length-encoded integer that was read: its size, its value, and whether it is `NULL`. -/
structure Lcb where
  size : ℕ
  value : ℕ
  nul : Bool
  deriving DecidableEq, Repr

/-- `mysql_lcb_ll` at `str + pos`; `none` is `-1`. -/
def lcb (s : SwString) (pos : ℕ) (len : ℤ) : Option Lcb :=
  if len < 1 then none
  else if s.byteAt pos = 251 then some ⟨1, 0, true⟩
  else if s.byteAt pos = 252 then
    if len < 3 then none else some ⟨3, korr s (pos + 1) 2, false⟩
  else if s.byteAt pos = 253 then
    if len < 5 then none else some ⟨4, korr s (pos + 1) 3, false⟩
  else if s.byteAt pos = 254 then
    if len < 9 then none else some ⟨9, korr s (pos + 1) 8, false⟩
  else some ⟨1, (s.byteAt pos).toNat, false⟩

/-! ## Columns -/

/-- A pointer into the buffer, and the length that is kept with it. -/
structure Slice where
  start : ℕ
  length : ℕ
  deriving DecidableEq, Repr

/-- `mysql_field`. -/
structure MysqlField where
  catalog : Slice
  db : Slice
  table : Slice
  orgTable : Slice
  name : Slice
  orgName : Slice
  charsetnr : ℕ
  length : ℕ
  type : UInt8
  flags : ℕ
  decimals : ℕ
  default : Option Slice
  deriving DecidableEq, Repr

/-- Why decoding a field stops; `broken` is a write outside of the buffer. -/
inductive FieldError where
  | badLcb
  | lenOverBuffer
  | broken
  deriving DecidableEq, Repr

/-- `mysql_decode_field` between two strings: `i` counts from the start of the payload, `wh`
from the start of the buffer. -/
structure FieldScan where
  buffer : SwString
  i : ℕ
  wh : ℕ

/-- One string of a column definition, moved to `wh`.  The sum is an `unsigned long`. -/
def fieldString (base len : ℕ) (x : FieldScan) :
    Except (FieldError × SwString) (Slice × FieldScan) :=
  match lcb x.buffer (base + x.i) (len - x.i) with
  | none => .error (.badLcb, x.buffer)
  | some r =>
    let i := x.i + r.size
    if len < (i + r.value) % 2 ^ 64 then .error (.lenOverBuffer, x.buffer)
    else
      match (x.buffer.memmove x.wh (base + i) r.value).bind (·.poke (x.wh + r.value) 0) with
      | none => .error (.broken, x.buffer)
      | some buffer => .ok (⟨x.wh, r.value⟩, ⟨buffer, i + r.value, x.wh + r.value + 1⟩)

/-- Conversion of a `char` to a `uint32_t`. -/
def charToUInt32 (b : UInt8) : ℕ := if b < 128 then b.toNat else 2 ^ 32 - 2 ^ 8 + b.toNat

/-- `mysql_decode_field` on the payload at `str + base`. -/
def decodeField (buffer : SwString) (base len : ℕ) :
    Except (FieldError × SwString) (MysqlField × SwString) := do
  let (catalog, x) ← fieldString base len ⟨buffer, 0, base⟩
  let (db, x) ← fieldString base len x
  let (table, x) ← fieldString base len x
  let (orgTable, x) ← fieldString base len x
  let (name, x) ← fieldString base len x
  let (orgName, x) ← fieldString base len x
  if len < x.i + 13 then
    throw (.lenOverBuffer, x.buffer)
  let pos := base + x.i + 1
  let field (default : Option Slice) : MysqlField :=
    { catalog, db, table, orgTable, name, orgName, default
      charsetnr := korr x.buffer pos 2
      length := korr x.buffer (pos + 2) 4
      type := x.buffer.byteAt (pos + 6)
      flags := korr x.buffer (pos + 7) 3
      decimals := charToUInt32 (x.buffer.byteAt (pos + 9)) }
  if x.i + 13 < len then
    let (default, y) ← fieldString base len { x with i := x.i + 13 }
    return (field (some default), y.buffer)
  else
    return (field none, x.buffer)

/-! ## Rows -/

/-- What a value that is not `NULL` becomes: `NULL` all the same, a string, or nothing. -/
inductive ColumnKind where
  | null
  | text
  | skipped
  deriving DecidableEq, Repr

/-- The `switch` of `mysql_decode_row`; `SW_MYSQL_STRICT_TYPE` is not defined. -/
def columnKind (type : UInt8) : ColumnKind :=
  if type = 6 then .null
  else if type ≤ 5 ∨ (7 ≤ type ∧ type ≤ 16) ∨ type = 246 ∨ (249 ≤ type ∧ type ≤ 254) then .text
  else .skipped

/-- The entries that are added to the array of a row, in order; `none` is `NULL`. -/
abbrev MysqlRow := List (Bytes × Option Bytes)

/-- What is added for a value that is not `NULL`. -/
def rowEntry (type : UInt8) (key value : Bytes) : MysqlRow :=
  match columnKind type with
  | .null => [(key, none)]
  | .text => [(key, some value)]
  | .skipped => []

/-- `mysql_decode_row` from `read_n` on; `none` is a negative result. -/
def decodeRow (buffer : SwString) (base packetLen : ℕ) : List MysqlField → ℕ → Option MysqlRow
  | [], _ => some []
  | field :: fields, readN =>
    match lcb buffer (base + readN) (packetLen - readN) with
    | none => none
    | some r =>
      let n := readN + r.size
      let key := buffer.cString field.name.start
      if packetLen < (n + r.value) % 2 ^ 64 then none
      else if r.nul then
        (decodeRow buffer base packetLen fields n).map ((key, none) :: ·)
      else
        (decodeRow buffer base packetLen fields (n + r.value)).map
          (rowEntry field.type key (buffer.cells (base + n) r.value) ++ ·)

/-! ## Responses -/

/-- `enum mysql_read_state`. -/
inductive ReadState where
  | query
  | readStart
  | readField
  | readRow
  | readEnd
  deriving DecidableEq, Repr

/-- Where `swoole_mysql_onRead` is: it has parsed what there is and waits for data, it has
found the buffer full and is about to call `recv` again, it has given up because `recv` failed
and waits for data, it has reported a result, it has reported that the connection is closed,
it has called `abort()`, or it has run into undefined behaviour. -/
inductive ClientStatus where
  | reading
  | again
  | failed
  | done
  | closed
  | aborted
  | broken
  deriving DecidableEq, Repr

/-- `mysql_client`, and the part of the server's stream that has not been received. -/
structure MysqlClient where
  buffer : SwString
  wire : Bytes
  state : ReadState
  status : ClientStatus
  numColumn : ℕ
  indexColumn : ℕ
  numRow : ℕ
  /-- The columns that have been decoded. -/
  columns : List MysqlField
  responseType : UInt8
  errorCode : ℕ
  warnings : ℕ
  statusCode : ℕ
  statusMsg : Bytes
  serverMsg : ℕ
  affectedRows : ℕ
  insertId : ℕ
  resultArray : Option (List MysqlRow)
  /-- The pointers in the columns point to a block that has been freed. -/
  dangling : Bool

/-- `SW_OK`, `SW_ERR`, or undefined behaviour. -/
inductive Parsed where
  | ok (c : MysqlClient)
  | err (c : MysqlClient)
  | broken

namespace MysqlClient

/-- A query has been sent; `fresh` is what the buffer holds behind its bytes in use. -/
def start (fresh : ℕ → UInt8) (size : ℕ) (wire : Bytes) : MysqlClient where
  buffer := .new fresh size
  wire := wire
  state := .readStart
  status := .reading
  numColumn := 0
  indexColumn := 0
  numRow := 0
  columns := []
  responseType := 0
  errorCode := 0
  warnings := 0
  statusCode := 0
  statusMsg := []
  serverMsg := 0
  affectedRows := 0
  insertId := 0
  resultArray := none
  dangling := false

variable (c : MysqlClient)

/-- The number of unread bytes. -/
def unread : ℕ := c.buffer.data.length - c.buffer.offset

def setOffset (offset : ℕ) : MysqlClient := { c with buffer := { c.buffer with offset := offset } }

/-- `mysql_read_eof` at `str + pos`; `none` is `SW_ERR`. -/
def readEof (pos : ℕ) (nBuf : ℤ) : Option MysqlClient :=
  if nBuf < 9 then none
  else if c.buffer.byteAt (pos + 4) ≠ 254 then none
  else
    some
      { c with
        warnings := korr c.buffer (pos + 5) 2
        statusCode := korr c.buffer (pos + 7) 2 }

/-- A column has been decoded from a packet. -/
def addColumn (field : MysqlField) (buffer : SwString) (packetLength : ℕ) : MysqlClient :=
  { c with
    buffer := { buffer with offset := c.buffer.offset + (packetLength + 4) }
    columns := c.columns ++ [field]
    indexColumn := c.indexColumn + 1 }

@[simp] theorem addColumn_offset (field : MysqlField) (buffer : SwString) (packetLength : ℕ) :
    (c.addColumn field buffer packetLength).buffer.offset =
      c.buffer.offset + (packetLength + 4) := rfl

/-- How the loop of `mysql_read_columns` ends. -/
inductive ColumnsLoop where
  | wait (c : MysqlClient)
  | finished (c : MysqlClient) (pos nBuf : ℕ)
  | broken

/-- The loop of `mysql_read_columns`, for so many more columns. -/
def columnsLoop : ℕ → MysqlClient → ℕ → ℕ → ColumnsLoop
  | 0, c, pos, nBuf => .finished c pos nBuf
  | left + 1, c, pos, nBuf =>
    let packetLength := korr c.buffer pos 3
    let n := (nBuf + 2 ^ 32 - 4) % 2 ^ 32
    if n < packetLength then .wait c
    else
      match decodeField c.buffer (pos + 4) packetLength with
      | .error (.broken, _) => .broken
      | .error (_, buffer) => .finished { c with buffer := buffer } (pos + 4) n
      | .ok (field, buffer) =>
        columnsLoop left (c.addColumn field buffer packetLength) (pos + 4 + packetLength)
          ((n + 2 ^ 32 - packetLength) % 2 ^ 32)

/-- `mysql_read_columns` behind its loop. -/
def finishColumns (pos : ℕ) (nBuf : ℤ) : Parsed :=
  match c.readEof pos nBuf with
  | none => .err c
  | some c' =>
    .ok { c'.setOffset (pos + 9) with resultArray := some (c'.resultArray.getD []) }

/-- `mysql_read_columns`. -/
def readColumns : Parsed :=
  match columnsLoop (c.numColumn - c.indexColumn) c c.buffer.offset (c.unread % 2 ^ 32) with
  | .wait c' => .err c'
  | .broken => .broken
  | .finished c' pos nBuf => c'.finishColumns pos (toInt32 nBuf)

/-- A row has been decoded from a packet. -/
def addRow (row : MysqlRow) (packetLength : ℕ) : MysqlClient :=
  { c.setOffset (c.buffer.offset + (packetLength + 4)) with
    numRow := c.numRow + 1
    resultArray := some (c.resultArray.getD [] ++ [row]) }

@[simp] theorem addRow_offset (row : MysqlRow) (packetLength : ℕ) :
    (c.addRow row packetLength).buffer.offset = c.buffer.offset + (packetLength + 4) := rfl

/-- The loop of `mysql_read_rows`; each round takes at least four bytes of `nBuf`. -/
def rowsLoop : ℕ → MysqlClient → ℕ → ℕ → Parsed
  | 0, c, _, _ => .err c
  | fuel + 1, c, pos, nBuf =>
    if nBuf = 0 then .err c
    else if nBuf < 4 then .err c
    else
      match if nBuf = 9 then c.readEof pos nBuf else none with
      | some c' => .ok c'
      | none =>
        let packetLength := korr c.buffer pos 3
        if nBuf - 4 < packetLength then .err c
        else if c.dangling = true ∨ c.columns.length < c.numColumn then .broken
        else
          match decodeRow c.buffer (pos + 4) packetLength (c.columns.take c.numColumn) 0 with
          | none => .err c
          | some row =>
            rowsLoop fuel (c.addRow row packetLength) (pos + 4 + packetLength)
              (nBuf - 4 - packetLength)

/-- `mysql_read_rows`. -/
def readRows : Parsed :=
  let nBuf := c.unread % 2 ^ 32
  rowsLoop (nBuf + 1) c c.buffer.offset nBuf

/-- `mysql_response` in state `SW_MYSQL_STATE_READ_ROW`. -/
def responseRow : Parsed :=
  match c.readRows with
  | .ok c' => .ok { c' with state := .readEnd }
  | .err c' => .err c'
  | .broken => .broken

/-- `mysql_response` in state `SW_MYSQL_STATE_READ_FIELD`. -/
def responseField : Parsed :=
  match c.readColumns with
  | .ok c' => { c' with state := .readRow }.responseRow
  | .err c' => .err c'
  | .broken => .broken

/-- An OK packet whose fields begin at `str + pos`, with `nBuf` bytes. -/
def readOk (pos : ℕ) (nBuf : ℤ) : MysqlClient :=
  -- a number that cannot be read counts as zero, and `-1` is added to the position
  let affected := (lcb c.buffer pos nBuf).map fun r => (r.value, (r.size : ℤ))
  let size := (affected.map Prod.snd).getD (-1)
  let pos' := (pos + size).toNat
  let insert := (lcb c.buffer pos' (nBuf - size)).map fun r => (r.value, (r.size : ℤ))
  let pos'' := (pos' + (insert.map Prod.snd).getD (-1)).toNat
  { c with
    affectedRows := (affected.map Prod.fst).getD 0
    insertId := (insert.map Prod.fst).getD 0
    statusCode := korr c.buffer pos'' 2
    warnings := korr c.buffer (pos'' + 2) 2
    state := .readEnd }

/-- A result set begins.  The number of columns is stored as an `unsigned long` over three
shorter fields. -/
def setColumns (r : Lcb) : MysqlClient :=
  { c.setOffset (c.buffer.offset + (4 + r.size)) with
    numColumn := r.value % 2 ^ 16
    indexColumn := r.value / 2 ^ 16 % 2 ^ 16
    numRow := r.value / 2 ^ 32 % 2 ^ 32
    columns := []
    state := .readField }

/-- `mysql_response` in state `SW_MYSQL_STATE_READ_START`; `nBuf` is the number of unread
bytes. -/
def responseStart (nBuf : ℤ) : Parsed :=
  let pos := c.buffer.offset
  if c.unread < 5 then .err c
  else if nBuf - 4 < korr c.buffer pos 3 then .err c
  else
    let type := c.buffer.byteAt (pos + 4)
    let c' := { c with responseType := type }
    if type = 255 then
      .ok
        { c' with
          errorCode := korr c.buffer (pos + 5) 2
          statusMsg := c.buffer.cells (pos + 8) 5
          serverMsg := pos + 13
          state := .readEnd }
    else if type = 254 then
      .ok
        { c' with
          warnings := korr c.buffer (pos + 5) 2
          statusCode := korr c.buffer (pos + 7) 2
          state := .readEnd }
    else if type = 0 then .ok (c'.readOk (pos + 5) (nBuf - 5))
    else
      match lcb c.buffer (pos + 4) (nBuf - 4) with
      | none => .err c'
      | some r =>
        if 0 < nBuf - 5 then (c'.setColumns r).responseField else .ok (c'.setColumns r)

/-- `mysql_response`. -/
def response : Parsed :=
  let nBuf := toInt32 c.unread
  if nBuf ≤ 0 then .ok c
  else
    match c.state with
    | .readStart => c.responseStart nBuf
    | .readField => c.responseField
    | .readRow => c.responseRow
    | .query | .readEnd => .err c

/-! ## `swoole_mysql_onRead` -/

/-- `swoole_mysql_onRead` behind a call of `mysql_response`: without an error the result is
reported. -/
def afterResponse : Parsed → MysqlClient
  | .ok c' => { c' with status := .done }
  | .err c' => { c' with status := .reading }
  | .broken => { c with status := .broken }

/-- `parse_response`. -/
def parseResponse : MysqlClient := c.afterResponse c.response

/-- `close_fd`. -/
def closeFd : MysqlClient :=
  if c.state = .readEnd then c.parseResponse else { c with status := .closed }

/-- Bytes have been received; a full buffer is extended, and `moved` is whether `realloc`
moves it. -/
def received (bytes wire : Bytes) (moved : Bool) : MysqlClient :=
  if h : c.buffer.data.length + bytes.length ≤ c.buffer.size then
    let c' := { c with buffer := c.buffer.append bytes h, wire := wire }
    if c'.buffer.data.length = c'.buffer.size then
      match c'.buffer.extend (c'.buffer.size * 2) with
      | none => { c' with status := .broken }
      | some buffer =>
        { c' with
          buffer := buffer
          status := .again
          dangling := c.dangling || (moved && decide (0 < c.columns.length)) }
    else c'.parseResponse
  else { c with status := .broken }

/-- An answer of the kernel to `recv`, and whether a `realloc` behind it moves the buffer. -/
structure Event where
  answer : RecvAnswer
  moved : Bool
  deriving DecidableEq, Repr

/-- The `recv` that `swoole_mysql_onRead` calls. -/
def nextRecv (answer : RecvAnswer) : RecvResult × Bytes :=
  recv (c.buffer.size - c.buffer.data.length) c.wire answer

/-- `swoole_mysql_onRead` calls `recv` next. -/
def Listening : Prop := c.status = .reading ∨ c.status = .again ∨ c.status = .failed
  deriving Decidable

def step (c : MysqlClient) (event : Event) : MysqlClient :=
  if c.Listening then
    match c.nextRecv event.answer with
    | (.error e, _) =>
      if e = .eintr then c
      else
        match connectionError e with
        | .error => { c with status := .failed }
        | .close => c.closeFd
        | .wait => c.parseResponse
        | .abort => { c with status := .aborted }
    | (.data [], _) => c.closeFd
    | (.data bytes, wire) => c.received bytes wire event.moved
  else c

end MysqlClient

end Mysql

end Swoole
