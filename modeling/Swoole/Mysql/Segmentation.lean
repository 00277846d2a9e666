import Swoole.Mysql.Decode
import Swoole.Library.StepRun

/-!
# How a response is cut does not matter

A response comes in as many pieces as `recv` likes, and after each of them `mysql_response`
goes on.  `Segmented` says that this cannot be told from the result: completion is reported
when the last byte has come and not before, and the columns and rows are those of a response
that comes in one piece.

The client does not keep this.

* `mysql_read_columns` computes `n_buf - 4` without a sign.  With fewer than four bytes of a
  column definition it reads a length that has not come and decodes what earlier responses left
  in the buffer.  When the number of columns has come and nothing else, `mysql_response` returns
  `SW_OK` at once.
* On `EAGAIN` with nothing unread, `mysql_response` returns `SW_OK` as well.
* The columns point into the buffer.  They dangle when a buffer that is full is moved.

`Whole` leaves these out, and `segmented_run` shows that nothing else depends on the pieces.
The argument goes through the stream: what is unread, together with what has not come, is
always a sequence of whole packets (`Pending`), whatever part of it has arrived.
-/

open List LittleEndian

namespace Swoole

namespace SwString

variable {s s' : SwString}

/-- The bytes in use from a cell on, when no cell from there on has changed. -/
theorem drop_congr {m : ℕ} (hlen : s'.data.length = s.data.length)
    (hsame : ∀ j, m ≤ j → s'.byteAt j = s.byteAt j) : s'.data.drop m = s.data.drop m := by
  refine ext_getElem (by simp [hlen]) fun j hj hj' => ?_
  rw [length_drop] at hj hj'
  have hcell := hsame (m + j) (Nat.le_add_right m j)
  rw [byteAt_of_lt s' (by omega), byteAt_of_lt s (by omega)] at hcell
  simpa using hcell

theorem cells_offset {a rest wire : Bytes} (h : s.data.drop s.offset ++ wire = a ++ rest)
    (hle : s.offset + a.length ≤ s.data.length) : s.cells s.offset a.length = a := by
  have htake := congrArg (take a.length) h
  rw [take_append_of_le_length (by rw [length_drop]; omega), take_left] at htake
  rw [cells_of_le s hle, htake]

end SwString

namespace Mysql

open SwString StepRun

/-! ## What is to be reported -/

/-- What `swoole_mysql_onRead` reports: the kind of response, the columns and the rows. -/
structure Reported where
  responseType : UInt8
  columns : List Column
  rows : Option (List MysqlRow)
  deriving DecidableEq, Repr

def MysqlClient.reported (c : MysqlClient) : Reported where
  responseType := c.responseType
  columns := c.columns.map (MysqlField.read c.buffer)
  rows := c.resultArray

/-- The byte that the client takes for the kind of response. -/
def ResultSet.type (t : ResultSet) : UInt8 := (lenenc t.columns.length).headD 0

namespace ServerResponse

def columns : ServerResponse → List ColumnDef
  | .ok _ => []
  | .error _ => []
  | .resultSet t => t.columns

/-- What is to be reported of a response. -/
def reported : ServerResponse → Reported
  | .ok _ => ⟨0, [], none⟩
  | .error _ => ⟨255, [], none⟩
  | .resultSet t =>
    ⟨t.type, t.columns.map ColumnDef.column, some (t.rows.map (rowOf t.columns))⟩

variable (r : ServerResponse)

/-- A response whose payloads are all sent in one packet each, with fewer columns than a
`uint16_t` counts and fewer bytes than an `int` does. -/
structure Fits : Prop where
  wire_lt : r.wire.length < 2 ^ 31
  columns_lt : r.columns.length < 2 ^ 16
  payload_lt : ∀ payload ∈ r.payloads, payload.length < maxPacket

instance : Decidable r.Fits :=
  decidable_of_iff (r.wire.length < 2 ^ 31 ∧ r.columns.length < 2 ^ 16 ∧
      ∀ payload ∈ r.payloads, payload.length < maxPacket)
    ⟨fun h => ⟨h.1, h.2.1, h.2.2⟩, fun h => ⟨h.wire_lt, h.columns_lt, h.payload_lt⟩⟩

/-- Where the packet of a column definition begins. -/
def columnStart (k : ℕ) : ℕ :=
  4 + (lenenc r.columns.length).length +
    ((r.columns.take k).map fun c => c.payload.length + 4).sum

/-- The first `n` bytes do not end inside the four bytes in front of a column definition, nor
right before them. -/
def CleanAt (n : ℕ) : Prop :=
  ∀ k < r.columns.length, n < r.columnStart k ∨ r.columnStart k + 4 ≤ n

instance (n : ℕ) : Decidable (r.CleanAt n) := by
  unfold CleanAt
  infer_instance

variable {r} {t : ResultSet}

theorem Fits.column_lt (h : (resultSet t).Fits) {c : ColumnDef}
    (hc : c ∈ t.columns) : c.payload.length < 2 ^ 24 - 1 :=
  h.payload_lt _ (mem_cons_of_mem _ (mem_append_left _ (mem_map_of_mem hc)))

theorem Fits.row_lt (h : (resultSet t).Fits) {values : RowValues}
    (hvalues : values ∈ t.rows) : (rowPayload values).length < 2 ^ 24 - 1 :=
  h.payload_lt _ (mem_cons_of_mem _ (mem_append_right _
    (mem_cons_of_mem _ (mem_append_left _ (mem_map_of_mem hvalues)))))

theorem Fits.wire_eq (h : r.Fits) : r.wire = packets 1 r.payloads := by
  have hsplit : r.payloads.flatMap split = r.payloads.flatMap fun payload => [payload] :=
    flatMap_congr fun payload hmem => split_of_lt (h.payload_lt payload hmem)
  rw [wire, hsplit, flatMap_singleton']

end ServerResponse

/-! ## Packets on the way -/

namespace MysqlClient

open ServerResponse (columnStart resultSet)

/-- What is unread and what has not come are whole packets with these payloads. -/
structure Pending (c : MysqlClient) (payloads : List Bytes) : Prop where
  offset_le : c.buffer.offset ≤ c.buffer.data.length
  stream : ∃ number,
    c.buffer.data.drop c.buffer.offset ++ c.wire = packets number payloads

namespace Pending

variable {c c' : MysqlClient} {payload : Bytes} {payloads : List Bytes}

theorem unread_add (h : c.Pending payloads) :
    ∃ number, c.unread + c.wire.length = (packets number payloads).length := by
  obtain ⟨number, hstream⟩ := h.stream
  refine ⟨number, ?_⟩
  rw [← hstream, length_append, length_drop]
  rfl

theorem korr_eq (h : c.Pending (payload :: payloads)) (hlt : payload.length < 2 ^ 24)
    (hle : 4 ≤ c.unread) : korr c.buffer c.buffer.offset 3 = payload.length := by
  obtain ⟨number, hstream⟩ := h.stream
  rw [packets, packet, append_assoc] at hstream
  unfold unread at hle
  have hcells := cells_offset hstream (by rw [length_bytes]; omega)
  rw [length_bytes] at hcells
  rw [korr, hcells, value_bytes (by omega)]

theorem cells_eq (h : c.Pending (payload :: payloads)) (hle : payload.length + 4 ≤ c.unread) :
    c.buffer.cells (c.buffer.offset + 4) payload.length = payload := by
  obtain ⟨number, hstream⟩ := h.stream
  unfold unread at hle
  have hcells := cells_offset hstream (by rw [length_packet]; omega)
  rw [packet, cells_eq_append, cells_eq_cons, length_bytes] at hcells
  exact hcells.2.2

theorem byteAt_eq {b : UInt8} (h : c.Pending ((b :: payload) :: payloads)) (hle : 5 ≤ c.unread) :
    c.buffer.byteAt (c.buffer.offset + 4) = b := by
  obtain ⟨number, hstream⟩ := h.stream
  have hsplit : packets number ((b :: payload) :: payloads) =
      (bytes 3 (b :: payload).length ++ [number, b]) ++
        (payload ++ packets (number + 1) payloads) := by
    simp [packets, packet]
  rw [hsplit] at hstream
  unfold unread at hle
  have hcells := cells_offset hstream
    (by simp only [length_append, length_bytes, length_cons, length_nil]; omega)
  rw [cells_eq_append, cells_eq_cons, cells_eq_cons, length_bytes] at hcells
  exact hcells.2.2.1

theorem wire_ne (h : c.Pending (payload :: payloads)) (hlt : c.unread < payload.length + 4) :
    c.wire ≠ [] := by
  obtain ⟨number, hsum⟩ := h.unread_add
  rw [packets, length_append, length_packet] at hsum
  intro hwire
  rw [hwire, length_nil] at hsum
  omega

theorem last (h : c.Pending [payload]) (hle : payload.length + 4 ≤ c.unread) :
    c.wire = [] ∧ c.unread = payload.length + 4 := by
  obtain ⟨number, hsum⟩ := h.unread_add
  rw [packets, packets, append_nil, length_packet] at hsum
  exact ⟨eq_nil_of_length_eq_zero (by omega), by omega⟩

/-- **The client goes on behind a packet**, whose cells it may have changed. -/
theorem next (h : c.Pending (payload :: payloads)) (hle : payload.length + 4 ≤ c.unread)
    (hlen : c'.buffer.data.length = c.buffer.data.length) (hwire : c'.wire = c.wire)
    (hoffset : c'.buffer.offset = c.buffer.offset + (payload.length + 4))
    (hsame : ∀ j, c'.buffer.offset ≤ j → c'.buffer.byteAt j = c.buffer.byteAt j) :
    c'.Pending payloads := by
  obtain ⟨number, hstream⟩ := h.stream
  have hle' := h.offset_le
  unfold unread at hle
  refine ⟨by omega, number + 1, ?_⟩
  have hdrop := congrArg (drop (payload.length + 4)) hstream
  rw [packets, drop_append_of_le_length (by rw [length_drop]; omega), drop_drop,
    drop_left' (length_packet ..)] at hdrop
  rw [drop_congr hlen hsame, hoffset, hwire, hdrop]

theorem receive {bytes : Bytes} (h : c.Pending payloads)
    (hdata : c'.buffer.data = c.buffer.data ++ bytes) (hoffset : c'.buffer.offset = c.buffer.offset)
    (hwire : bytes ++ c'.wire = c.wire) : c'.Pending payloads := by
  obtain ⟨number, hstream⟩ := h.stream
  have hle := h.offset_le
  refine ⟨by rw [hdata, length_append]; omega, number, ?_⟩
  rw [hdata, hoffset, drop_append_of_le_length hle, append_assoc, hwire, hstream]

end Pending

/-! ## Column definitions -/

/-- The client has read the number of columns and some column definitions. -/
structure Decoding (t : ResultSet) (columns : List ColumnDef) (c : MysqlClient) : Prop where
  num : c.numColumn = t.columns.length
  type : c.responseType = t.type
  dangling : c.dangling = false
  fields : List.Forall₂ (FieldAt c.buffer c.buffer.offset) c.columns columns

/-- The client waits for column definition `k`, or for the EOF packet behind the last one. -/
structure InField (t : ResultSet) (k : ℕ) (c : MysqlClient) : Prop
    extends Decoding t (t.columns.take k) c where
  le : k ≤ t.columns.length
  state : c.state = .readField
  index : c.indexColumn = k
  rows : c.resultArray = none
  offset : c.buffer.offset = (resultSet t).columnStart k
  pending : c.Pending (t.payloads.drop k)

/-- What parsing leaves alone. -/
structure Same (c c' : MysqlClient) : Prop where
  length : c'.buffer.data.length = c.buffer.data.length
  size : c'.buffer.size = c.buffer.size
  wire : c'.wire = c.wire

theorem Same.refl (c : MysqlClient) : Same c c := ⟨rfl, rfl, rfl⟩

theorem Same.trans {c c' c'' : MysqlClient} (h : Same c c') (h' : Same c' c'') : Same c c'' :=
  ⟨h'.length.trans h.length, h'.size.trans h.size, h'.wire.trans h.wire⟩

variable {t : ResultSet} {k : ℕ} {c c' : MysqlClient}

theorem payloads_drop_of_lt (hk : k < t.columns.length) :
    t.payloads.drop k = t.columns[k].payload :: t.payloads.drop (k + 1) := by
  have hlt : k < t.payloads.length := by
    simp [ResultSet.payloads]
    omega
  rw [drop_eq_getElem_cons hlt]
  congr 1
  simp [ResultSet.payloads, getElem_append_left, hk]

theorem columnStart_zero :
    (resultSet t).columnStart 0 = 4 + (lenenc t.columns.length).length := rfl

theorem columnStart_succ (hk : k < t.columns.length) :
    (resultSet t).columnStart (k + 1) =
      (resultSet t).columnStart k + (t.columns[k].payload.length + 4) := by
  have hcolumns : (resultSet t).columns = t.columns := rfl
  simp only [columnStart, hcolumns]
  rw [take_succ_eq_append_getElem hk, map_append, sum_append]
  simp
  omega

/-- **A column definition that has come is decoded.** -/
theorem InField.decode (h : InField t k c) (hk : k < t.columns.length)
    (hlt : t.columns[k].payload.length < 2 ^ 24)
    (hle : t.columns[k].payload.length + 4 ≤ c.unread) :
    ∃ field buffer,
      decodeField c.buffer (c.buffer.offset + 4) t.columns[k].payload.length =
        .ok (field, buffer) ∧
      InField t (k + 1) (c.addColumn field buffer t.columns[k].payload.length) ∧
      Same c (c.addColumn field buffer t.columns[k].payload.length) := by
  have hpending := h.pending
  rw [payloads_drop_of_lt hk] at hpending
  have hsize := c.buffer.length_le
  have hfit : c.buffer.offset + 4 + t.columns[k].payload.length ≤ c.buffer.size := by
    unfold unread at hle
    omega
  obtain ⟨field, buffer, hdecode, hkept, hfield, hsame⟩ :=
    decodeField_payload (hpending.cells_eq hle) hfit hlt
  refine ⟨field, buffer, hdecode, ?_, hkept.length, hkept.size, rfl⟩
  refine ⟨⟨h.num, h.type, h.dangling, ?_⟩, hk, h.state, congrArg (· + 1) h.index, h.rows, ?_, ?_⟩
  · rw [take_succ_eq_append_getElem hk]
    refine rel_append (h.fields.imp fun _ _ hold => ?_) (.cons ?_ .nil)
    · exact hold.mono (Nat.le_add_right _ _) fun j hj => hsame j (.inl (by omega))
    · exact hfield.mono (by rw [addColumn_offset]; omega) fun _ _ => rfl
  · rw [columnStart_succ hk, ← h.offset, addColumn_offset]
  · refine hpending.next hle hkept.length rfl rfl fun j hj => ?_
    exact hsame j (.inr (by rw [addColumn_offset] at hj; omega))

/-- The loop of `mysql_read_columns`: it stops in front of a column definition that has not
come in full, or behind the last one. -/
theorem InField.columnsLoop {left : ℕ} (h : InField t k c) (hfits : (resultSet t).Fits)
    (hclean : (resultSet t).CleanAt c.buffer.data.length) (hlt : c.buffer.data.length < 2 ^ 31)
    (hleft : k + left = t.columns.length) :
    (∃ c' k', columnsLoop left c c.buffer.offset c.unread = .wait c' ∧ InField t k' c' ∧
        Same c c' ∧ c'.wire ≠ []) ∨
      ∃ c', columnsLoop left c c.buffer.offset c.unread =
          .finished c' c'.buffer.offset c'.unread ∧
        InField t t.columns.length c' ∧ Same c c' := by
  induction left generalizing c k with
  | zero =>
    exact .inr ⟨c, rfl, hleft ▸ h, .refl c⟩
  | succ left ih =>
    have hk : k < t.columns.length := by omega
    have hpending := h.pending
    rw [payloads_drop_of_lt hk] at hpending
    have hpacket := hfits.column_lt (getElem_mem hk)
    have hfour : 4 ≤ c.unread := by
      have hoffset := hpending.offset_le
      have := hclean k hk
      rw [← h.offset] at this
      unfold unread
      omega
    have hunread : c.unread ≤ c.buffer.data.length := Nat.sub_le _ _
    rw [MysqlClient.columnsLoop, hpending.korr_eq (by omega) hfour]
    by_cases hle : t.columns[k].payload.length + 4 ≤ c.unread
    · obtain ⟨field, buffer, hdecode, hnext, hsame⟩ := h.decode hk (by omega) hle
      rw [if_neg (by omega), hdecode]
      have hpos : c.buffer.offset + 4 + t.columns[k].payload.length =
          (c.addColumn field buffer t.columns[k].payload.length).buffer.offset := by
        rw [addColumn_offset]
        omega
      have hrest : ((c.unread + 2 ^ 32 - 4) % 2 ^ 32 + 2 ^ 32 -
          t.columns[k].payload.length) % 2 ^ 32 =
          (c.addColumn field buffer t.columns[k].payload.length).unread := by
        have hlen := hsame.length
        unfold unread at hle hunread ⊢
        omega
      rw [hpos, hrest]
      rcases ih hnext (hsame.length ▸ hclean) (hsame.length ▸ hlt) (by omega) with
        ⟨c', k', hloop, hin, hsame', hwire⟩ | ⟨c', hloop, hin, hsame'⟩
      · exact .inl ⟨c', k', hloop, hin, hsame.trans hsame', hwire⟩
      · exact .inr ⟨c', hloop, hin, hsame.trans hsame'⟩
    · rw [if_pos (by omega)]
      exact .inl ⟨c, k, rfl, h, .refl c, hpending.wire_ne (by omega)⟩

/-! ## Rows -/

/-- The client waits for row `j`, or for the EOF packet behind the last one. -/
structure InRow (t : ResultSet) (j : ℕ) (c : MysqlClient) : Prop
    extends Decoding t t.columns c where
  state : c.state = .readRow
  rows : c.resultArray = some ((t.rows.take j).map (rowOf t.columns))
  pending : c.Pending ((t.rows.drop j).map rowPayload ++ [eofPayload t.lastWarnings t.lastStatus])

/-- Nothing has been read yet. -/
structure InStart (r : ServerResponse) (c : MysqlClient) : Prop where
  state : c.state = .readStart
  offset : c.buffer.offset = 0
  columns : c.columns = []
  rows : c.resultArray = none
  dangling : c.dangling = false
  pending : c.Pending r.payloads

/-- **The client waits for more of a response.** -/
inductive Waiting : ServerResponse → MysqlClient → Prop
  | start {r : ServerResponse} {c : MysqlClient} (h : InStart r c) : Waiting r c
  | field {t : ResultSet} {k : ℕ} {c : MysqlClient} (h : InField t k c) : Waiting (.resultSet t) c
  | row {t : ResultSet} {j : ℕ} {c : MysqlClient} (h : InRow t j c) : Waiting (.resultSet t) c

end MysqlClient

open MysqlClient in
/-- What a call of `mysql_response` may result in: the response is complete, or there is more
to come. -/
inductive Parsed.Sound (r : ServerResponse) (c : MysqlClient) : Parsed → Prop
  | complete {c' : MysqlClient} (hwire : c'.wire = []) (hreported : c'.reported = r.reported) :
      Sound r c (.ok c')
  | wait {c' : MysqlClient} (hwaiting : Waiting r c') (hmore : c'.wire ≠ []) (hsame : Same c c') :
      Sound r c (.err c')

theorem Parsed.Sound.of_same {r : ServerResponse} {c c' : MysqlClient} {p : Parsed}
    (h : p.Sound r c') (hsame : MysqlClient.Same c c') : p.Sound r c := by
  cases h with
  | complete hwire hreported => exact .complete hwire hreported
  | wait hwaiting hmore hsame' => exact .wait hwaiting hmore (hsame.trans hsame')

namespace MysqlClient

open ServerResponse (resultSet)

variable {t : ResultSet} {k j : ℕ} {c c' : MysqlClient}

theorem readEof_eq_none {pos : ℕ} {nBuf : ℤ} (h : c.buffer.byteAt (pos + 4) ≠ 254) :
    c.readEof pos nBuf = none := by
  rw [readEof]
  split_ifs <;> rfl

/-- What `mysql_read_eof` stores is not reported. -/
theorem readEof_eq_some {pos : ℕ} {nBuf : ℤ} (hle : 9 ≤ nBuf)
    (h : c.buffer.byteAt (pos + 4) = 254) :
    ∃ warnings statusCode,
      c.readEof pos nBuf = some { c with warnings := warnings, statusCode := statusCode } := by
  rw [readEof, if_neg (by omega), if_neg (by simpa using h)]
  exact ⟨_, _, rfl⟩

/-- **A row that has come is decoded.** -/
theorem InRow.decode (h : InRow t j c) (hj : j < t.rows.length)
    (hlt : (rowPayload t.rows[j]).length < 2 ^ 24)
    (hle : (rowPayload t.rows[j]).length + 4 ≤ c.unread) :
    decodeRow c.buffer (c.buffer.offset + 4) (rowPayload t.rows[j]).length
        (c.columns.take c.numColumn) 0 = some (rowOf t.columns t.rows[j]) ∧
      InRow t (j + 1) (c.addRow (rowOf t.columns t.rows[j]) (rowPayload t.rows[j]).length) := by
  have hpending := h.pending
  rw [drop_eq_getElem_cons hj, map_cons, cons_append] at hpending
  have hoffset := hpending.offset_le
  have hsize := c.buffer.length_le
  have hcolumns : c.columns.take c.numColumn = c.columns := by
    rw [h.num, ← h.fields.length_eq, take_length]
  constructor
  · rw [hcolumns]
    exact decodeRow_payload h.fields (by omega) (t.length_row _ (getElem_mem hj))
      (hpending.cells_eq hle) (zero_add _) hlt
  · refine ⟨⟨h.num, h.type, h.dangling, ?_⟩, h.state, ?_, ?_⟩
    · exact h.fields.imp fun _ _ hold => hold.mono (Nat.le_add_right _ _) fun _ _ => rfl
    · rw [take_succ_eq_append_getElem hj, map_append]
      show some (c.resultArray.getD [] ++ [rowOf t.columns t.rows[j]]) = _
      rw [h.rows]
      rfl
    · exact hpending.next hle rfl rfl rfl fun _ _ => rfl

theorem Decoding.columns_eq (h : Decoding t t.columns c) :
    c.columns.map (MysqlField.read c.buffer) = t.columns.map ColumnDef.column := by
  refine forall₂_eq_eq_eq ▸ ?_
  rw [forall₂_map_left_iff, forall₂_map_right_iff]
  exact h.fields.imp fun _ _ hfield => hfield.read_eq

variable {payload : Bytes} {fuel : ℕ}

/-- The loop of `mysql_read_rows` in front of a packet that has not come in full. -/
theorem rowsLoop_wait {payloads : List Bytes} (h : c.Pending (payload :: payloads))
    (hlt : payload.length < 2 ^ 24) (hless : c.unread < payload.length + 4)
    (heof : (if c.unread = 9 then c.readEof c.buffer.offset c.unread else none) = none) :
    rowsLoop (fuel + 1) c c.buffer.offset c.unread = .err c := by
  rw [rowsLoop]
  by_cases hfour : c.unread < 4
  · rw [if_pos hfour, ite_self]
  · rw [if_neg (by omega), if_neg hfour, heof, h.korr_eq hlt (by omega)]
    rw [if_pos (by omega)]

variable (hfits : (resultSet t).Fits)
include hfits

theorem InRow.readEof_eq_none (h : InRow t j c) (hj : j < t.rows.length) :
    (if c.unread = 9 then c.readEof c.buffer.offset c.unread else none) = none := by
  have hrow : t.rows[j] ≠ [] := by
    have hlen := t.length_row _ (getElem_mem hj)
    have hcolumns := length_pos_iff.mpr t.columns_ne
    exact length_pos_iff.mp (by omega)
  obtain ⟨b, rest, hfirst, hb⟩ := rowPayload_eq_cons hrow (hfits.row_lt (getElem_mem hj))
  have hpending := h.pending
  rw [drop_eq_getElem_cons hj, map_cons, cons_append, hfirst] at hpending
  split_ifs with hnine
  · exact MysqlClient.readEof_eq_none (by rw [hpending.byteAt_eq (by omega)]; exact hb)
  · rfl

/-- The loop of `mysql_read_rows`: it stops in front of a row that has not come in full, or
behind the EOF packet. -/
theorem InRow.rowsLoop (h : InRow t j c) (hfuel : c.unread < fuel) :
    (rowsLoop fuel c c.buffer.offset c.unread).Sound (.resultSet t) c := by
  induction fuel generalizing c j with
  | zero => omega
  | succ fuel ih =>
    have hpending := h.pending
    by_cases hj : j < t.rows.length
    · rw [drop_eq_getElem_cons hj, map_cons, cons_append] at hpending
      have hpacket := hfits.row_lt (getElem_mem hj)
      have heof := h.readEof_eq_none hfits hj
      by_cases hle : (rowPayload t.rows[j]).length + 4 ≤ c.unread
      · obtain ⟨hdecode, hnext⟩ := h.decode hj (by omega) hle
        have hfields := h.fields.length_eq
        have hnum := h.num
        rw [MysqlClient.rowsLoop, if_neg (by omega), if_neg (by omega), heof,
          hpending.korr_eq (by omega) (by omega)]
        rw [if_neg (by omega), if_neg (by rw [h.dangling]; simp; omega), hdecode]
        have hpos : c.buffer.offset + 4 + (rowPayload t.rows[j]).length =
            (c.addRow (rowOf t.columns t.rows[j])
              (rowPayload t.rows[j]).length).buffer.offset := by
          rw [addRow_offset]
          omega
        have hrest : c.unread - 4 - (rowPayload t.rows[j]).length =
            (c.addRow (rowOf t.columns t.rows[j]) (rowPayload t.rows[j]).length).unread := by
          unfold unread
          show _ = c.buffer.data.length - _
          omega
        dsimp only
        rw [hpos, hrest]
        exact (ih hnext (by omega)).of_same ⟨rfl, rfl, rfl⟩
      · rw [rowsLoop_wait hpending (by omega) (by omega) heof]
        exact .wait (.row h) (hpending.wire_ne (by omega)) (.refl c)
    · rw [drop_of_length_le (by omega), map_nil, nil_append] at hpending
      have hlen : (eofPayload t.lastWarnings t.lastStatus).length = 5 := by simp [eofPayload]
      by_cases hle : 9 ≤ c.unread
      · obtain ⟨hwire, hnine⟩ := hpending.last (by omega)
        obtain ⟨warnings, statusCode, heof⟩ := @readEof_eq_some c c.buffer.offset c.unread
          (by omega) (hpending.byteAt_eq (by omega))
        rw [MysqlClient.rowsLoop, if_neg (by omega), if_neg (by omega), if_pos (by omega), heof]
        refine .complete hwire ?_
        have hrows : t.rows.take j = t.rows := take_of_length_le (by omega)
        have hresult := h.rows
        rw [hrows] at hresult
        simp only [reported, ServerResponse.reported, h.type, hresult, h.columns_eq]
      · rw [rowsLoop_wait hpending (by omega) (by omega) (if_neg (by omega))]
        exact .wait (.row h) (hpending.wire_ne (by omega)) (.refl c)

/-! ## `mysql_response` -/

variable {r : ServerResponse} {bytes wire : Bytes} {size : ℕ}

theorem InRow.responseRow {j : ℕ} (h : InRow t j c) (hlt : c.buffer.data.length < 2 ^ 31) :
    c.responseRow.Sound (.resultSet t) c := by
  have hunread : c.unread % 2 ^ 32 = c.unread := by
    unfold unread
    omega
  have hloop := h.rowsLoop hfits (Nat.lt_succ_self c.unread)
  rw [MysqlClient.responseRow, readRows, hunread]
  generalize MysqlClient.rowsLoop (c.unread + 1) c c.buffer.offset c.unread = parsed at hloop ⊢
  cases hloop with
  | complete hwire hreported => exact .complete hwire hreported
  | wait hwaiting hmore hsame => exact .wait hwaiting hmore hsame

omit hfits in
theorem InField.pending_eof (h : InField t t.columns.length c) :
    c.Pending (eofPayload t.warnings t.status ::
      (t.rows.map rowPayload ++ [eofPayload t.lastWarnings t.lastStatus])) := by
  have hpending := h.pending
  rwa [ResultSet.payloads, drop_left' (length_map ..)] at hpending

omit hfits in
/-- `mysql_read_columns` behind its loop waits for the EOF packet, or goes on behind it. -/
theorem InField.finishColumns (h : InField t t.columns.length c) :
    c.finishColumns c.buffer.offset c.unread = .err c ∧ c.wire ≠ [] ∨
      ∃ c', c.finishColumns c.buffer.offset c.unread = .ok c' ∧
        InRow t 0 { c' with state := .readRow } ∧ Same c c' := by
  have hpending := h.pending_eof
  have hlen : (eofPayload t.warnings t.status).length = 5 := by simp [eofPayload]
  by_cases hle : 9 ≤ c.unread
  · obtain ⟨warnings, statusCode, heof⟩ := @readEof_eq_some c c.buffer.offset c.unread
      (by omega) (hpending.byteAt_eq (by omega))
    rw [MysqlClient.finishColumns, heof]
    refine .inr ⟨_, rfl, ⟨⟨h.num, h.type, h.dangling, ?_⟩, rfl, ?_, ?_⟩, rfl, rfl, rfl⟩
    · have hfields := h.fields
      rw [take_length] at hfields
      exact hfields.imp fun _ _ hold => hold.mono (Nat.le_add_right _ _) fun _ _ => rfl
    · rw [h.rows]
      rfl
    · exact hpending.next (by omega) rfl rfl (by rw [hlen]; rfl) fun _ _ => rfl
  · rw [MysqlClient.finishColumns, readEof, if_pos (by omega)]
    exact .inl ⟨rfl, hpending.wire_ne (by omega)⟩

/-- `mysql_read_columns` waits for a packet that has not come in full, or stops behind the EOF
packet. -/
theorem InField.readColumns (h : InField t k c)
    (hclean : (resultSet t).CleanAt c.buffer.data.length)
    (hlt : c.buffer.data.length < 2 ^ 31) :
    (∃ c' k', c.readColumns = .err c' ∧ InField t k' c' ∧ Same c c' ∧ c'.wire ≠ []) ∨
      ∃ c', c.readColumns = .ok c' ∧ InRow t 0 { c' with state := .readRow } ∧ Same c c' := by
  have hunread : c.unread % 2 ^ 32 = c.unread := by
    unfold unread
    omega
  rw [MysqlClient.readColumns, hunread, h.num, h.index]
  rcases h.columnsLoop hfits hclean hlt (Nat.add_sub_cancel' h.le) with
    ⟨c', k', hloop, hin, hsame, hwire⟩ | ⟨c', hloop, hin, hsame⟩
  · rw [hloop]
    exact .inl ⟨c', k', rfl, hin, hsame, hwire⟩
  · have hlt' : c'.unread < 2 ^ 31 := by
      have hlength' := hsame.length
      unfold unread
      omega
    rw [hloop]
    dsimp only
    rw [toInt32_natCast hlt']
    rcases hin.finishColumns with ⟨hwait, hwire⟩ | ⟨c'', hok, hrow, hsame'⟩
    · exact .inl ⟨c', _, hwait, hin, hsame, hwire⟩
    · exact .inr ⟨c'', hok, hrow, hsame.trans hsame'⟩

theorem InField.responseField (h : InField t k c)
    (hclean : (resultSet t).CleanAt c.buffer.data.length)
    (hlt : c.buffer.data.length < 2 ^ 31) : c.responseField.Sound (.resultSet t) c := by
  rcases h.readColumns hfits hclean hlt with
    ⟨c', k', hread, hin, hsame, hwire⟩ | ⟨c', hread, hrow, hsame⟩
  · rw [MysqlClient.responseField, hread]
    exact .wait (.field hin) hwire hsame
  · rw [MysqlClient.responseField, hread]
    exact (hrow.responseRow hfits (hsame.length ▸ hlt)).of_same (hsame.trans ⟨rfl, rfl, rfl⟩)

omit hfits in
theorem InStart.sound_of_single (h : InStart r c) (hr : r.payloads = [payload])
    (hle : payload.length + 4 ≤ c.unread) (hwire : c'.wire = c.wire)
    (hcolumns : c'.columns = c.columns) (hrows : c'.resultArray = c.resultArray)
    (hreported : r.reported = ⟨c'.responseType, [], none⟩) : (Parsed.ok c').Sound r c := by
  have hpending := h.pending
  rw [hr] at hpending
  refine .complete (hwire.trans (hpending.last hle).1) ?_
  rw [hreported, reported, hcolumns, h.columns, hrows, h.rows]
  rfl

theorem InStart.setColumns (h : InStart (.resultSet t) c)
    (hle : (lenenc t.columns.length).length + 4 ≤ c.unread) :
    InField t 0 ({ c with responseType := t.type }.setColumns
      ⟨(lenenc t.columns.length).length, t.columns.length, false⟩) := by
  have hcolumns : t.columns.length < 2 ^ 16 := hfits.columns_lt
  refine ⟨⟨Nat.mod_eq_of_lt hcolumns, rfl, h.dangling, .nil⟩, Nat.zero_le _, rfl, ?_, h.rows, ?_,
    ?_⟩
  · show t.columns.length / 2 ^ 16 % 2 ^ 16 = 0
    omega
  · rw [columnStart_zero]
    show c.buffer.offset + (4 + (lenenc t.columns.length).length) = _
    rw [h.offset, zero_add]
  · refine h.pending.next hle rfl rfl ?_ fun _ _ => rfl
    show c.buffer.offset + (4 + (lenenc t.columns.length).length) = _
    omega

omit hfits

theorem ServerResponse.payloads_eq_cons : ∃ b rest payloads,
    r.payloads = (b :: rest) :: payloads := by
  cases r with
  | ok rest => exact ⟨0, rest, [], rfl⟩
  | error rest => exact ⟨255, rest, [], rfl⟩
  | resultSet t =>
    obtain ⟨b, rest, heq⟩ := exists_cons_of_length_pos (length_lenenc_pos t.columns.length)
    exact ⟨b, rest, t.payloads, congrArg (· :: t.payloads) heq⟩

theorem InStart.responseStart (h : InStart r c) (hfits : r.Fits)
    (hclean : r.CleanAt c.buffer.data.length) (hlt : c.buffer.data.length < 2 ^ 31) :
    (c.responseStart c.unread).Sound r c := by
  obtain ⟨b, rest, payloads, heq⟩ := @ServerResponse.payloads_eq_cons r
  have hpacket : (b :: rest).length < maxPacket :=
    hfits.payload_lt _ (heq ▸ mem_cons_self)
  have hpending := h.pending
  rw [heq] at hpending
  rw [maxPacket] at hpacket
  unfold MysqlClient.responseStart
  by_cases hfive : c.unread < 5
  · rw [if_pos hfive]
    exact .wait (.start h) (hpending.wire_ne (by rw [length_cons]; omega)) (.refl c)
  rw [if_neg hfive, hpending.korr_eq (by omega) (by omega)]
  by_cases hle : (b :: rest).length + 4 ≤ c.unread
  · rw [if_neg (by omega), hpending.byteAt_eq (by omega)]
    cases r with
    | ok rest' =>
      obtain ⟨⟨rfl, rfl⟩, -⟩ : (0 = b ∧ rest' = rest) ∧ [] = payloads := by
        simpa [ServerResponse.payloads] using heq
      exact h.sound_of_single rfl hle rfl rfl rfl rfl
    | error rest' =>
      obtain ⟨⟨rfl, rfl⟩, -⟩ : (255 = b ∧ rest' = rest) ∧ [] = payloads := by
        simpa [ServerResponse.payloads] using heq
      exact h.sound_of_single rfl hle rfl rfl rfl rfl
    | resultSet t =>
      obtain ⟨hlenenc, -⟩ : lenenc t.columns.length = b :: rest ∧ t.payloads = payloads :=
        cons.inj heq
      have hcolumns : t.columns.length < 2 ^ 16 := hfits.columns_lt
      have hpos : 0 < t.columns.length := length_pos_iff.mpr t.columns_ne
      obtain ⟨b', rest', heq', h254, h255, h0⟩ := @lenenc_eq_cons t.columns.length (by omega)
      obtain ⟨rfl, rfl⟩ : b' = b ∧ rest' = rest := cons.inj (heq'.symm.trans hlenenc)
      have htype : t.type = b' := by rw [ResultSet.type, hlenenc, headD_cons]
      rw [← hlenenc] at hle
      have hlcb := @lcb_lenenc c.buffer (c.buffer.offset + 4) t.columns.length (c.unread - 4)
        (by omega) (h.pending.cells_eq hle) (by omega) (by omega)
      -- the number of columns has come, so the first column definition has begun
      have hmore : 9 ≤ c.unread := by
        have hstart := hclean 0 hpos
        have hoffset := h.offset
        have hlen := length_lenenc_pos t.columns.length
        rw [columnStart_zero] at hstart
        unfold unread at hle ⊢
        omega
      rw [if_neg h255, if_neg h254, if_neg (h0 (by omega)), hlcb]
      dsimp only
      rw [if_pos (by omega), ← htype]
      exact ((h.setColumns hfits hle).responseField hfits hclean hlt).of_same ⟨rfl, rfl, rfl⟩
  · rw [if_pos (by omega)]
    exact .wait (.start h) (hpending.wire_ne (by omega)) (.refl c)

/-- **A call of `mysql_response`** with something unread, at a clean place. -/
theorem Waiting.response (h : Waiting r c) (hfits : r.Fits)
    (hclean : r.CleanAt c.buffer.data.length) (hlt : c.buffer.data.length < 2 ^ 31)
    (hunread : 0 < c.unread) : c.response.Sound r c := by
  have hint : toInt32 c.unread = c.unread := by
    refine toInt32_natCast ?_
    unfold unread
    omega
  rw [MysqlClient.response, hint, if_neg (by omega)]
  cases h with
  | start h =>
    rw [h.state]
    exact h.responseStart hfits hclean hlt
  | field h =>
    rw [h.state]
    exact h.responseField hfits hclean hlt
  | row h =>
    rw [h.state]
    exact h.responseRow hfits hlt

/-! ## Receiving -/

variable {status : ClientStatus} {buffer : SwString}

theorem Decoding.receive {columns : List ColumnDef} (h : Decoding t columns c)
    (hoffset : c.buffer.offset ≤ c.buffer.data.length)
    (hdata : buffer.data = c.buffer.data ++ bytes)
    (hsame : buffer.offset = c.buffer.offset) :
    Decoding t columns { c with buffer := buffer, wire := wire, status := status } := by
  refine ⟨h.num, h.type, h.dangling, h.fields.imp fun _ _ hold => ?_⟩
  refine hold.mono (le_of_eq hsame.symm) fun j hj => ?_
  have hj' : j < c.buffer.data.length := by omega
  rw [byteAt_of_lt _ hj', byteAt_of_lt buffer (by rw [hdata, length_append]; omega)]
  simp [hdata, getElem_append_left hj']

variable (h : Waiting r c)
include h

theorem Waiting.receive (hdata : buffer.data = c.buffer.data ++ bytes)
    (hoffset : buffer.offset = c.buffer.offset) (hwire : bytes ++ wire = c.wire) :
    Waiting r { c with buffer := buffer, wire := wire, status := status } := by
  cases h with
  | start h =>
    exact .start ⟨h.state, hoffset.trans h.offset, h.columns, h.rows, h.dangling,
      h.pending.receive hdata hoffset hwire⟩
  | field h =>
    exact .field ⟨h.toDecoding.receive h.pending.offset_le hdata hoffset, h.le, h.state, h.index,
      h.rows, hoffset.trans h.offset, h.pending.receive hdata hoffset hwire⟩
  | row h =>
    exact .row ⟨h.toDecoding.receive h.pending.offset_le hdata hoffset, h.state, h.rows,
      h.pending.receive hdata hoffset hwire⟩

theorem Waiting.setStatus (status : ClientStatus) :
    Waiting r { c with status := status } :=
  h.receive (append_nil _).symm rfl (nil_append _)

theorem Waiting.offset_le : c.buffer.offset ≤ c.buffer.data.length := by
  cases h with
  | start h => exact h.pending.offset_le
  | field h => exact h.pending.offset_le
  | row h => exact h.pending.offset_le

theorem Waiting.state_ne : c.state ≠ .readEnd := by
  cases h with
  | start h => rw [h.state]; decide
  | field h => rw [h.state]; decide
  | row h => rw [h.state]; decide

omit h

/-- What has come and what has not are the response, and there is room for more. -/
structure Stored (r : ServerResponse) (c : MysqlClient) : Prop where
  sum : c.buffer.data.length + c.wire.length = r.wire.length
  room : c.buffer.data.length < c.buffer.size

/-- **The invariant.** -/
structure Inv (r : ServerResponse) (c : MysqlClient) : Prop where
  waiting : c.Listening → Waiting r c ∧ Stored r c
  more : c.status = .reading → c.wire ≠ []
  done : c.status = .done → c.wire = [] ∧ c.reported = r.reported
  sound : c.status ≠ .broken

variable {parsed : Parsed}

theorem Inv.of_sound (h : parsed.Sound r c) (hstored : Stored r c) :
    Inv r (c.afterResponse parsed) := by
  cases h with
  | complete hwire hreported =>
    exact ⟨by simp [Listening, afterResponse], nofun, fun _ => ⟨hwire, hreported⟩, nofun⟩
  | @wait c' hwaiting hmore hsame =>
    refine ⟨fun _ => ⟨hwaiting.setStatus .reading, ?_, ?_⟩, fun _ => hmore, nofun, nofun⟩
    · show c'.buffer.data.length + c'.wire.length = r.wire.length
      rw [hsame.length, hsame.wire, hstored.sum]
    · show c'.buffer.data.length < c'.buffer.size
      rw [hsame.length, hsame.size]
      exact hstored.room

theorem done_of_sound (h : parsed.Sound r c) (hwire : c.wire = []) :
    (c.afterResponse parsed).status = .done ∧ (c.afterResponse parsed).reported = r.reported := by
  cases h with
  | complete _ hreported => exact ⟨rfl, hreported⟩
  | wait _ hmore hsame => exact absurd (hsame.wire.trans hwire) hmore

/-- `parse_response`. -/
theorem Waiting.parseResponse (h : Waiting r c) (hstored : Stored r c) (hfits : r.Fits)
    (hclean : r.CleanAt c.buffer.data.length) (hunread : 0 < c.unread) : Inv r c.parseResponse := by
  refine Inv.of_sound (h.response hfits hclean ?_ hunread) hstored
  have hwire := hfits.wire_lt
  have hsum := hstored.sum
  omega

/-- The first `n` bytes of the response have come: a buffer that is full and moved has no
columns yet that point to it, and `mysql_response` is called at a clean place. -/
def WholeData (r : ServerResponse) (c : MysqlClient) (moved : Bool) (n : ℕ) : Prop :=
  (n = c.buffer.size → moved = true → c.columns = []) ∧ (n ≠ c.buffer.size → r.CleanAt n)
  deriving Decidable

/-- The condition on what `recv` returns; on `EAGAIN` something has to be unread. -/
def WholeAnswer (r : ServerResponse) (c : MysqlClient) (moved : Bool) : RecvResult → Prop
  | .data [] => True
  | .data (b :: bytes) => WholeData r c moved (c.buffer.data.length + (b :: bytes).length)
  | .error e => connectionError e = .wait → 0 < c.unread ∧ r.CleanAt c.buffer.data.length

instance (r : ServerResponse) (c : MysqlClient) (moved : Bool) (result : RecvResult) :
    Decidable (WholeAnswer r c moved result) := by
  unfold WholeAnswer
  split <;> infer_instance

/-- The condition on a step. -/
def Whole (r : ServerResponse) (c : MysqlClient) (event : Event) : Prop :=
  c.Listening → WholeAnswer r c event.moved (c.nextRecv event.answer).1
  deriving Decidable

theorem received_of_lt {moved : Bool}
    (hlt : c.buffer.data.length + bytes.length < c.buffer.size) :
    c.received bytes wire moved =
      parseResponse { c with buffer := c.buffer.append bytes (le_of_lt hlt), wire := wire } := by
  have hlen : (c.buffer.append bytes (le_of_lt hlt)).data.length =
      c.buffer.data.length + bytes.length := by
    rw [append_data, length_append]
  rw [MysqlClient.received, dif_pos (le_of_lt hlt)]
  rw [if_neg (by rw [hlen, append_size]; omega)]

theorem Waiting.received {moved : Bool} (h : Waiting r c) (hstored : Stored r c) (hfits : r.Fits)
    (hwire : bytes ++ wire = c.wire) (hle : c.buffer.data.length + bytes.length ≤ c.buffer.size)
    (hne : bytes ≠ []) (hwhole : WholeData r c moved (c.buffer.data.length + bytes.length)) :
    Inv r (c.received bytes wire moved) := by
  have hpos : 0 < bytes.length := length_pos_iff.mpr hne
  have hsum : c.buffer.data.length + bytes.length + wire.length = r.wire.length := by
    rw [← hstored.sum, ← hwire, length_append, add_assoc]
  have hlen : (c.buffer.append bytes hle).data.length =
      c.buffer.data.length + bytes.length := by
    rw [append_data, length_append]
  by_cases hfull : c.buffer.data.length + bytes.length = c.buffer.size
  · have hdangling : (c.dangling || (moved && decide (0 < c.columns.length))) = c.dangling := by
      cases moved with
      | false => simp
      | true => simp [hwhole.1 hfull rfl]
    obtain ⟨buffer, hextend, hdata, -, hsize, hoffset⟩ :=
      (c.buffer.append bytes hle).extend_of_lt
        (show (c.buffer.append bytes hle).size < c.buffer.size * 2 by rw [append_size]; omega)
    rw [MysqlClient.received, dif_pos hle]
    dsimp only
    rw [hlen, append_size, if_pos hfull, hextend, hdangling]
    refine ⟨fun _ => ⟨h.receive hdata hoffset hwire, ?_, ?_⟩, nofun, nofun, nofun⟩
    · show buffer.data.length + wire.length = _
      rw [hdata, hlen, hsum]
    · show buffer.data.length < buffer.size
      rw [hdata, hlen, hsize]
      omega
  · rw [received_of_lt (by omega)]
    have hreceived : Waiting r { c with buffer := c.buffer.append bytes hle, wire := wire } :=
      h.receive (append_data ..) rfl hwire
    have hstored' : Stored r { c with buffer := c.buffer.append bytes hle, wire := wire } := by
      refine ⟨?_, ?_⟩
      · show (c.buffer.append bytes hle).data.length + wire.length = _
        rw [hlen, hsum]
      · show (c.buffer.append bytes hle).data.length < c.buffer.size
        omega
    have hunread : 0 < unread { c with buffer := c.buffer.append bytes hle, wire := wire } := by
      have hoffset := h.offset_le
      show 0 < (c.buffer.append bytes hle).data.length - c.buffer.offset
      omega
    exact hreceived.parseResponse hstored' hfits (by rw [hlen]; exact hwhole.2 hfull) hunread

theorem Waiting.closeFd (h : Waiting r c) : c.closeFd = { c with status := .closed } := by
  rw [MysqlClient.closeFd, if_neg h.state_ne]

theorem Inv.closed : Inv r { c with status := .closed } :=
  ⟨by simp [Listening], nofun, nofun, nofun⟩

/-- **One step.** -/
theorem Inv.step (h : Inv r c) (hfits : r.Fits) {event : Event} (hwhole : Whole r c event) :
    Inv r (c.step event) := by
  by_cases hlistening : c.Listening
  · obtain ⟨hwaiting, hstored⟩ := h.waiting hlistening
    replace hwhole := hwhole hlistening
    rw [MysqlClient.step, if_pos hlistening]
    rcases hrecv : c.nextRecv event.answer with ⟨result, wire⟩
    rw [hrecv] at hwhole
    cases result with
    | error e =>
      dsimp only
      split_ifs
      · exact h
      · cases haction : connectionError e with
        | error =>
          exact ⟨fun _ => ⟨hwaiting.setStatus .failed, hstored.sum, hstored.room⟩, nofun,
            nofun, nofun⟩
        | close =>
          rw [hwaiting.closeFd]
          exact Inv.closed
        | wait =>
          obtain ⟨hunread, hclean⟩ := hwhole haction
          exact hwaiting.parseResponse hstored hfits hclean hunread
        | abort => exact ⟨by simp [Listening], nofun, nofun, nofun⟩
    | data bytes =>
      cases bytes with
      | nil =>
        rw [hwaiting.closeFd]
        exact Inv.closed
      | cons b bytes =>
        obtain ⟨hwire, hle, -⟩ := recv_data hrecv
        have hroom := hstored.room
        exact hwaiting.received hstored hfits hwire (by omega) (cons_ne_nil b bytes) hwhole
  · rwa [MysqlClient.step, if_neg hlistening]

/-! ## Whole runs -/

theorem ServerResponse.five_le_length_wire (hfits : r.Fits) : 5 ≤ r.wire.length := by
  obtain ⟨b, rest, payloads, heq⟩ := @ServerResponse.payloads_eq_cons r
  rw [hfits.wire_eq, heq, length_packets, map_cons, sum_cons, length_cons]
  omega

theorem ServerResponse.cleanAt_wire (hfits : r.Fits) : r.CleanAt r.wire.length := by
  cases r with
  | ok rest => nofun
  | error rest => nofun
  | resultSet t =>
    intro k (hk : k < t.columns.length)
    have hsucc := columnStart_succ hk
    have hwire : (resultSet t).columnStart (k + 1) ≤
        (resultSet t).wire.length := by
      have hsplit := congrArg (fun columns => (columns.map (·.payload.length + 4)).sum)
        (take_append_drop (k + 1) t.columns)
      simp only [map_append, sum_append] at hsplit
      rw [hfits.wire_eq, length_packets, ServerResponse.payloads, ResultSet.payloads,
        map_cons, sum_cons, map_append, sum_append, map_map]
      simp only [ServerResponse.columnStart, ServerResponse.columns, Function.comp_def]
      omega
    omega

theorem waiting_start (fresh : ℕ → UInt8) (size : ℕ) (hfits : r.Fits) :
    Waiting r (start fresh size r.wire) :=
  .start ⟨rfl, rfl, rfl, rfl, rfl, le_rfl, 1, hfits.wire_eq⟩

theorem inv_start (fresh : ℕ → UInt8) (hsize : 0 < size) (hfits : r.Fits) :
    Inv r (start fresh size r.wire) := by
  have hlen := ServerResponse.five_le_length_wire hfits
  refine ⟨fun _ => ⟨waiting_start fresh size hfits, zero_add _, hsize⟩, fun _ hwire => ?_,
    nofun, nofun⟩
  have hnil : r.wire = [] := hwire
  rw [hnil, length_nil] at hlen
  omega

/-- The response comes in one piece, into a buffer that is large enough. -/
def inOnePiece (fresh : ℕ → UInt8) (size : ℕ) (r : ServerResponse) : MysqlClient :=
  (start fresh size r.wire).received r.wire [] false

theorem inOnePiece_reported (fresh : ℕ → UInt8) (hsize : r.wire.length < size) (hfits : r.Fits) :
    (inOnePiece fresh size r).status = .done ∧ (inOnePiece fresh size r).reported = r.reported := by
  have hlen := ServerResponse.five_le_length_wire hfits
  have hlt : (start fresh size r.wire).buffer.data.length + r.wire.length <
      (start fresh size r.wire).buffer.size := by
    show 0 + r.wire.length < size
    omega
  rw [inOnePiece, received_of_lt hlt]
  have hwaiting : Waiting r
      { start fresh size r.wire with
        buffer := (start fresh size r.wire).buffer.append r.wire (le_of_lt hlt), wire := [] } :=
    (waiting_start fresh size hfits).receive (append_data ..) rfl (append_nil _)
  have hall : ((start fresh size r.wire).buffer.append r.wire (le_of_lt hlt)).data.length =
      r.wire.length := rfl
  refine done_of_sound (hwaiting.response hfits ?_ ?_ ?_) rfl
  · rw [hall]
    exact ServerResponse.cleanAt_wire hfits
  · rw [hall]
    exact hfits.wire_lt
  · show 0 < ((start fresh size r.wire).buffer.append r.wire (le_of_lt hlt)).data.length - 0
    omega

/-- **How a response is cut cannot be told from the result.** -/
structure Segmented (r : ServerResponse) (c : MysqlClient) : Prop where
  /-- Completion is reported behind the last byte, -/
  complete : c.status = .done → c.wire = []
  /-- with the columns and rows of a response in one piece, -/
  same : c.status = .done → ∀ fresh size, r.wire.length < size →
    (inOnePiece fresh size r).status = .done ∧ c.reported = (inOnePiece fresh size r).reported
  /-- it is reported when the last byte has come, -/
  arrived : c.status = .reading → c.wire ≠ []
  /-- and nothing undefined happens on the way. -/
  sound : c.status ≠ .broken

/-- **The pieces do not matter.**  Take any response that fits, any buffer, whatever earlier
responses left in it, and any answers of `recv`.  If `mysql_response` is only called at clean
places and with something unread, and no buffer is moved that columns point to, then completion
is reported when the last byte has come, with the columns and rows of a response that comes in
one piece. -/
theorem segmented_run (fresh : ℕ → UInt8) {size : ℕ} (hsize : 0 < size) {r : ServerResponse}
    (hfits : r.Fits) {events : List Event}
    (hwhole : EachStep step (Whole r) (start fresh size r.wire) events) :
    ∀ used, used <+: events → Segmented r (run step (start fresh size r.wire) used) := by
  intro used hpre
  have hinv := (hwhole.restrict hpre).run_invariant
    (fun _ _ h hstep => Inv.step h hfits hstep) (inv_start fresh hsize hfits)
  refine ⟨fun hdone => (hinv.done hdone).1, fun hdone fresh' size' hsize' => ?_, hinv.more,
    hinv.sound⟩
  obtain ⟨hstatus, hreported⟩ := inOnePiece_reported fresh' hsize' hfits
  exact ⟨hstatus, (hinv.done hdone).2.trans hreported.symm⟩

/-- One column of type `INT` with the name `a`, and the rows `1` and `NULL`. -/
def twoRows : ServerResponse :=
  .resultSet
    { columns := [⟨[100], [], [], [], [97], [97], 63, 11, 3, 0, 0, none⟩]
      rows := [[some [49]], [none]]
      warnings := 0
      status := 2
      lastWarnings := 0
      lastStatus := 2
      columns_ne := cons_ne_nil _ _
      length_row := by decide }

/-- The response in seven pieces.  The buffer is full twice, and `EAGAIN` comes behind that. -/
theorem segmented_two_rows :
    let events : List Event := [⟨.deliver 8, false⟩, ⟨.deliver 6, true⟩, ⟨.deliver 99, true⟩,
      ⟨.fail .eagain, false⟩, ⟨.deliver 7, false⟩, ⟨.deliver 3, false⟩, ⟨.deliver 99, false⟩]
    let c := run step (start (fun _ => 7) 16 twoRows.wire) events
    (c.status = .done ∧ c.resultArray = some [[([97], some [49])], [([97], none)]]) ∧
      Segmented twoRows c :=
  ⟨by decide +kernel, segmented_run (fun _ => 7) (by decide) (by decide +kernel)
    (by decide +kernel) _ prefix_rfl⟩

/-- **A cut behind the number of columns.**  Its packet has five bytes; when they have come and
nothing else, a result is reported. -/
theorem not_segmented_column_count :
    twoRows.Fits ∧
      ¬ Segmented twoRows
        (run step (start (fun _ => 7) 64 twoRows.wire) [⟨.deliver 4, false⟩]) := by
  refine ⟨by decide +kernel, fun h => ?_⟩
  exact absurd (h.complete (by decide +kernel)) (by decide +kernel)

end MysqlClient

end Mysql

end Swoole
