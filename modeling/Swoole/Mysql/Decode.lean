import Swoole.Mysql.Client
import Swoole.Mysql.Protocol
import Mathlib.Data.List.Forall2
import Mathlib.Data.List.GetD

/-!
# Decoding what the server encoded

The decoders read memory, not packets: they are given a position in the buffer and look at the
cells from there on.  Each lemma here says what a decoder makes of cells that hold what the
server sent.  A column definition is decoded in place, so its lemma also says which cells
change (`decodeField_payload`): only those of the definition itself.
-/

open List LittleEndian

namespace Swoole

open Mysql

namespace SwString

variable {s s' : SwString} {i : ℕ}

theorem cells_eq_append {a b : Bytes} :
    s.cells i (a ++ b).length = a ++ b ↔
      s.cells i a.length = a ∧ s.cells (i + a.length) b.length = b := by
  rw [length_append, cells_append]
  refine ⟨fun h => append_inj h (length_cells ..), fun h => by rw [h.1, h.2]⟩

theorem cells_eq_cons {b : UInt8} {bytes : Bytes} :
    s.cells i (b :: bytes).length = b :: bytes ↔
      s.byteAt i = b ∧ s.cells (i + 1) bytes.length = bytes := by
  rw [length_cons, cells_succ, cons.injEq]

/-- The block is the same but for the contents of its cells. -/
structure Kept (s s' : SwString) : Prop where
  length : s'.data.length = s.data.length
  size : s'.size = s.size
  offset : s'.offset = s.offset

theorem Kept.refl (s : SwString) : Kept s s := ⟨rfl, rfl, rfl⟩

theorem Kept.trans {s'' : SwString} (h : Kept s s') (h' : Kept s' s'') : Kept s s'' :=
  ⟨h'.length.trans h.length, h'.size.trans h.size, h'.offset.trans h.offset⟩

theorem kept_patch (s : SwString) (i : ℕ) (bytes : Bytes) :
    Kept s (s.patch i bytes 0 s.length_le) :=
  ⟨length_patch .., rfl, rfl⟩

/-- A string is moved to `dst` and a zero put behind it. -/
theorem moveString {dst src n : ℕ} (h : dst + n < s.size) :
    ∃ s', (s.memmove dst src n).bind (·.poke (dst + n) 0) = some s' ∧ Kept s s' ∧
      s'.cells dst (n + 1) = s.cells src n ++ [0] ∧
      ∀ j, j < dst ∨ dst + n < j → s'.byteAt j = s.byteAt j := by
  have hsize : (s.patch dst (s.cells src n) 0 s.length_le).size = s.size := rfl
  refine ⟨_, ?_, (kept_patch s dst (s.cells src n)).trans (kept_patch _ (dst + n) [0]), ?_, ?_⟩
  · rw [memmove, if_pos (by omega), Option.bind_some, poke, if_pos (by rw [hsize]; exact h)]
  · refine ext_getElem (by simp) fun j hj _ => ?_
    rw [length_cells] at hj
    simp only [cells, getElem_map, getElem_range]
    rw [byteAt_patch, byteAt_patch]
    by_cases hlast : j = n
    · subst hlast
      simp
    · rw [if_neg (by omega), if_pos (by omega), getElem_append_left (by simp; omega)]
      simp [show j < n by omega]
  · intro j hj
    rw [byteAt_patch, byteAt_patch]
    rcases hj with hj | hj
    · rw [if_neg (by omega), if_neg (by omega)]
    · rw [if_pos (by omega), if_pos (by omega), getD_eq_default _ _ (by simp; omega),
        getD_eq_default _ _ (by simp; omega)]

end SwString

namespace Mysql

open SwString

variable {s s' : SwString} {pos : ℕ}

/-- `mysql_lcb_ll` reads a length-encoded integer.  From `2 ^ 16` on it wants one byte more
than the integer has. -/
theorem lcb_lenenc {n : ℕ} {len : ℤ} (hn : n < 2 ^ 64)
    (hcells : s.cells pos (lenenc n).length = lenenc n) (hlen : ((lenenc n).length : ℤ) ≤ len)
    (hmore : 2 ^ 16 ≤ n → 5 ≤ len) : lcb s pos len = some ⟨(lenenc n).length, n, false⟩ := by
  unfold lenenc at hcells hlen ⊢
  split_ifs at hcells hlen ⊢ with h1 h2 h3
  · have hbyte : s.byteAt pos = n.toUInt8 := (cells_eq_cons.mp hcells).1
    have hnat : n.toUInt8.toNat = n := by
      simp
      omega
    have hne : ∀ b : UInt8, 251 ≤ b.toNat → n.toUInt8 ≠ b := by
      intro b hb heq
      rw [← heq, hnat] at hb
      omega
    simp only [length_singleton] at hlen
    rw [lcb, if_neg (by omega), hbyte, if_neg (hne 251 (by decide)), if_neg (hne 252 (by decide)),
      if_neg (hne 253 (by decide)), if_neg (hne 254 (by decide)), hnat]
    rfl
  -- the first byte says how many bytes of the integer follow
  all_goals
    obtain ⟨hbyte, hrest⟩ := cells_eq_cons.mp hcells
    rw [length_bytes] at hrest
    simp only [length_cons, length_bytes] at hlen ⊢
    rw [lcb, if_neg (by omega), hbyte, if_neg (by decide)]
  · rw [if_pos rfl, if_neg (by omega), korr, hrest, value_bytes (by omega)]
  · rw [if_neg (by decide), if_pos rfl, if_neg (by omega), korr, hrest, value_bytes (by omega)]
  · rw [if_neg (by decide), if_neg (by decide), if_pos rfl, if_neg (by omega), korr, hrest,
      value_bytes (by omega)]

/-- A buffer that ends inside of the integer is refused, and one of four bytes always. -/
theorem lcb_take {n len : ℕ} (hcells : s.cells pos len = (lenenc n).take len)
    (hlen : len < (lenenc n).length ∨ len < 5 ∧ 2 ^ 16 ≤ n ∧ n < 2 ^ 24) :
    lcb s pos len = none := by
  cases len with
  | zero => rfl
  | succ len =>
    rw [cells_succ] at hcells
    unfold lenenc at hcells hlen
    split_ifs at hcells hlen with h1 h2 h3
    · simp only [length_singleton] at hlen
      omega
    all_goals
      rw [take_succ_cons, cons.injEq] at hcells
      simp only [length_cons, length_bytes] at hlen
      rw [lcb, hcells.1]
      simp
      omega

/-- **The integer is read back** from a buffer that ends behind its bytes, and from none that
ends inside of them. -/
def ReadBack (n : ℕ) : Prop :=
  ∀ (s : SwString) (pos len : ℕ), len ≤ (lenenc n).length → s.cells pos len = (lenenc n).take len →
    lcb s pos len = if len = (lenenc n).length then some ⟨len, n, false⟩ else none

theorem not_readBack {n : ℕ} (hmin : 2 ^ 16 ≤ n) (hmax : n < 2 ^ 24) : ¬ ReadBack n := by
  intro h
  have hlen : (lenenc n).length = 4 := by
    rw [lenenc, if_neg (by omega), if_neg (by omega), if_pos hmax, length_cons, length_bytes]
  let s : SwString := ⟨lenenc n, fun _ => 0, 4, 0, hlen.le⟩
  have hcells : s.cells 0 4 = (lenenc n).take 4 := cells_of_le s hlen.ge
  have hread := h s 0 4 hlen.ge hcells
  rw [lcb_take hcells (.inr ⟨by decide, hmin, hmax⟩), if_pos hlen.symm] at hread
  cases hread

/-- **Which integers are read back**: all but those of three bytes. -/
theorem readBack_iff (n : UInt64) : ReadBack n.toNat ↔ n.toNat < 2 ^ 16 ∨ 2 ^ 24 ≤ n.toNat := by
  refine ⟨fun h => ?_, fun hn s pos len hle hcells => ?_⟩
  · by_contra hn
    exact not_readBack (by omega) (by omega) h
  · split_ifs with hlen
    · subst hlen
      rw [take_length] at hcells
      refine lcb_lenenc n.toNat_lt hcells le_rfl fun hmin => ?_
      rw [lenenc, if_neg (by omega), if_neg (by omega), if_neg (by omega), length_cons,
        length_bytes]
      decide
    · exact lcb_take hcells (.inl (by omega))

theorem not_readBack_three_bytes : ¬ ReadBack (65536 : UInt64).toNat :=
  not_readBack (by decide) (by decide)

/-! ## Column definitions -/

/-- A column as the client keeps it, with its strings: the catalog, the database, the table
and its original name, the name and the original name, and the default value if there is
one. -/
structure Column where
  strings : List Bytes
  charsetnr : ℕ
  length : ℕ
  type : UInt8
  flags : ℕ
  decimals : ℕ
  deriving DecidableEq, Repr

namespace MysqlField

/-- The strings of a column. -/
def strings (f : MysqlField) : List Slice :=
  [f.catalog, f.db, f.table, f.orgTable, f.name, f.orgName] ++ f.default.toList

/-- A column, with its strings read from the buffer. -/
def read (s : SwString) (f : MysqlField) : Column where
  strings := f.strings.map fun slice => s.cells slice.start slice.length
  charsetnr := f.charsetnr
  length := f.length
  type := f.type
  flags := f.flags
  decimals := f.decimals

end MysqlField

namespace ColumnDef

def strings (c : ColumnDef) : List Bytes :=
  [c.catalog, c.db, c.table, c.orgTable, c.name, c.orgName] ++ c.default.toList

/-- What the client makes of a column definition.  It reads three bytes for the flags, the
third of which is the number of decimals. -/
def column (c : ColumnDef) : Column where
  strings := c.strings
  charsetnr := c.charset.toNat
  length := c.length.toNat
  type := c.type
  flags := LittleEndian.value (LittleEndian.bytes 2 c.flags.toNat ++ [c.decimals])
  decimals := charToUInt32 c.decimals

end ColumnDef

/-- A string stands at a slice, with a zero behind it, and ends in front of `bound`. -/
structure Holds (s : SwString) (bound : ℕ) (slice : Slice) (bytes : Bytes) : Prop where
  length_eq : slice.length = bytes.length
  cells_eq : s.cells slice.start (bytes.length + 1) = bytes ++ [0]
  bound_le : slice.start + bytes.length + 1 ≤ bound

variable {bound bound' : ℕ} {slice : Slice}

theorem Holds.mono {bytes : Bytes} (h : Holds s bound slice bytes) (hbound : bound ≤ bound')
    (hsame : ∀ j, j < bound → s'.byteAt j = s.byteAt j) : Holds s' bound' slice bytes := by
  have hle := h.bound_le
  refine ⟨h.length_eq, ?_, by omega⟩
  rw [← h.cells_eq]
  exact cells_congr fun j _ hj => hsame j (by omega)

/-- `mysql_decode_field` between two strings.  `rest` is what it has not read yet of the
payload at `base`, `slices` are where it has moved the `strings`, and no other cells than those
of what it has read differ from those of `s`. -/
structure Scan (s : SwString) (base len : ℕ) (x : FieldScan) (rest : Bytes)
    (slices : List Slice) (strings : List Bytes) : Prop where
  kept : Kept s x.buffer
  rest_eq : x.buffer.cells (base + x.i) rest.length = rest
  sum : x.i + rest.length = len
  base_le : base ≤ x.wh
  wh_le : x.wh ≤ base + x.i
  same : ∀ j, j < base ∨ base + x.i ≤ j → x.buffer.byteAt j = s.byteAt j
  moved : List.Forall₂ (Holds x.buffer x.wh) slices strings

variable {base len : ℕ} {x : FieldScan} {rest bytes : Bytes} {slices : List Slice}
  {strings : List Bytes}

theorem scan_start (h : s.cells base rest.length = rest) :
    Scan s base rest.length ⟨s, 0, base⟩ rest [] [] :=
  ⟨Kept.refl s, h, zero_add _, le_rfl, le_rfl, fun _ _ => rfl, .nil⟩

/-- **One string is read.** -/
theorem Scan.string (h : Scan s base len x (lenencString bytes ++ rest) slices strings)
    (hsize : base + len ≤ s.size) (hlen : len < 2 ^ 24) :
    ∃ slice y, fieldString base len x = .ok (slice, y) ∧
      Scan s base len y rest (slices ++ [slice]) (strings ++ [bytes]) := by
  obtain ⟨hstring, hrest⟩ := cells_eq_append.mp h.rest_eq
  obtain ⟨hlead, hbytes⟩ := cells_eq_append.mp hstring
  have hsum := h.sum
  have hbase := h.base_le
  have hwh := h.wh_le
  have hpos := length_lenenc_pos bytes.length
  rw [length_append, length_lenencString] at hsum
  have hlcb : lcb x.buffer (base + x.i) (len - x.i) =
      some ⟨(lenenc bytes.length).length, bytes.length, false⟩ :=
    lcb_lenenc (by omega) hlead (by omega) (by omega)
  obtain ⟨b, hmove, hkept, hcells, hsame⟩ :=
    @moveString x.buffer x.wh (base + (x.i + (lenenc bytes.length).length)) bytes.length
      (by rw [h.kept.size]; omega)
  refine ⟨⟨x.wh, bytes.length⟩,
    ⟨b, x.i + (lenenc bytes.length).length + bytes.length, x.wh + bytes.length + 1⟩, ?_, ?_⟩
  · rw [fieldString, hlcb]
    dsimp only
    rw [if_neg (by omega), hmove]
  · have hcontent : x.buffer.cells (base + (x.i + (lenenc bytes.length).length)) bytes.length =
        bytes := by
      rw [← add_assoc]
      exact hbytes
    rw [hcontent] at hcells
    rw [length_lenencString] at hrest
    refine ⟨h.kept.trans hkept, ?_, by dsimp only; omega, by dsimp only; omega,
      by dsimp only; omega, ?_, ?_⟩
    · have hpos' : base + (x.i + (lenenc bytes.length).length + bytes.length) =
          base + x.i + ((lenenc bytes.length).length + bytes.length) := by omega
      rw [hpos']
      exact (cells_congr fun j hj _ => hsame j (.inr (by omega))).trans hrest
    · intro j hj
      rw [hsame j (by dsimp only at hj; omega)]
      exact h.same j (by dsimp only at hj; omega)
    · refine rel_append (h.moved.imp fun _ _ hold => ?_) (.cons ⟨rfl, hcells, le_rfl⟩ .nil)
      exact hold.mono (by dsimp only; omega) fun j hj => hsame j (.inl hj)

theorem Scan.skip {skipped : Bytes} (h : Scan s base len x (skipped ++ rest) slices strings) :
    Scan s base len { x with i := x.i + skipped.length } rest slices strings := by
  have hsum := h.sum
  have hwh := h.wh_le
  rw [length_append] at hsum
  refine ⟨h.kept, ?_, by dsimp only; omega, h.base_le, by dsimp only; omega, ?_, h.moved⟩
  · have hrest := (cells_eq_append.mp h.rest_eq).2
    rwa [add_assoc] at hrest
  · intro j hj
    exact h.same j (by dsimp only at hj; omega)

theorem Scan.moved_of_nil (h : Scan s base len x [] slices strings) :
    List.Forall₂ (Holds x.buffer (base + len)) slices strings := by
  have hsum : x.i + 0 = len := h.sum
  have hwh := h.wh_le
  exact h.moved.imp fun _ _ hheld => hheld.mono (by omega) fun _ _ => rfl

/-- A column definition that has been decoded. -/
structure FieldAt (s : SwString) (bound : ℕ) (f : MysqlField) (c : ColumnDef) : Prop where
  strings : List.Forall₂ (Holds s bound) f.strings c.strings
  charsetnr : f.charsetnr = c.column.charsetnr
  length : f.length = c.column.length
  type : f.type = c.type
  flags : f.flags = c.column.flags
  decimals : f.decimals = c.column.decimals

variable {c : ColumnDef} {f : MysqlField}

theorem FieldAt.mono (h : FieldAt s bound f c) (hbound : bound ≤ bound')
    (hsame : ∀ j, j < bound → s'.byteAt j = s.byteAt j) : FieldAt s' bound' f c :=
  ⟨h.strings.imp fun _ _ hs => hs.mono hbound hsame, h.charsetnr, h.length, h.type, h.flags,
    h.decimals⟩

theorem FieldAt.name_holds (h : FieldAt s bound f c) : Holds s bound f.name c.name := by
  have hstrings := h.strings
  simp only [MysqlField.strings, ColumnDef.strings, cons_append, forall₂_cons] at hstrings
  exact hstrings.2.2.2.2.1

theorem Holds.read_eq (h : Holds s bound slice bytes) :
    s.cells slice.start slice.length = bytes := by
  have hcells := h.cells_eq
  rw [cells_append] at hcells
  rw [h.length_eq]
  exact (append_inj hcells (length_cells ..)).1

theorem FieldAt.read_eq (h : FieldAt s bound f c) : f.read s = c.column := by
  have hstrings : f.strings.map (fun slice => s.cells slice.start slice.length) = c.strings := by
    refine forall₂_eq_eq_eq ▸ ?_
    exact forall₂_map_left_iff.mpr (h.strings.imp fun _ _ hs => hs.read_eq)
  rw [MysqlField.read, hstrings, h.charsetnr, h.length, h.type, h.flags, h.decimals]
  rfl

theorem Holds.cString_eq (h : Holds s bound slice bytes) (hbound : bound ≤ s.size) :
    s.cString slice.start = bytes.takeWhile (· ≠ 0) := by
  have hle := h.bound_le
  have hsplit : s.size - slice.start =
      bytes.length + 1 + (s.size - slice.start - (bytes.length + 1)) := by omega
  rw [cString, hsplit, cells_append, h.cells_eq, append_assoc, takeWhile_append]
  split_ifs with hall
  · have hpre : bytes.takeWhile (· ≠ 0) <+: bytes := takeWhile_prefix _
    rw [hpre.eq_of_length hall]
    simp
  · rfl

theorem numbers_of_cells (h : s.cells pos 13 = c.numbers) :
    korr s (pos + 1) 2 = c.column.charsetnr ∧ korr s (pos + 3) 4 = c.column.length ∧
      s.byteAt (pos + 7) = c.type ∧ korr s (pos + 8) 3 = c.column.flags ∧
      charToUInt32 (s.byteAt (pos + 10)) = c.column.decimals := by
  rw [← c.length_numbers, ColumnDef.numbers, cells_eq_cons, cells_eq_append, cells_eq_append,
    cells_eq_cons, cells_eq_append, cells_eq_cons] at h
  obtain ⟨-, ⟨hcharset, hlen⟩, htype, hflags, hdecimals, -⟩ := h
  simp only [length_bytes, length_append] at hcharset hlen htype
  simp only [length_bytes, length_append] at hflags hdecimals
  refine ⟨?_, ?_, htype, ?_, ?_⟩
  · rw [korr, hcharset, value_bytes (by simpa using c.charset.toNat_lt)]
    rfl
  · rw [korr, hlen, value_bytes (by simpa using c.length.toNat_lt)]
    rfl
  · have hthree : s.cells (pos + 8) (2 + 1) =
        bytes 2 c.flags.toNat ++ [c.decimals] := by
      exact congrArg₂ (· ++ [·]) hflags hdecimals
    exact congrArg value hthree
  · rw [hdecimals]
    rfl

/-- **A column definition is decoded**, and no cells but its own change. -/
theorem decodeField_payload (hcells : s.cells base c.payload.length = c.payload)
    (hsize : base + c.payload.length ≤ s.size) (hlen : c.payload.length < 2 ^ 24) :
    ∃ f s', decodeField s base c.payload.length = .ok (f, s') ∧ Kept s s' ∧
      FieldAt s' (base + c.payload.length) f c ∧
      ∀ j, j < base ∨ base + c.payload.length ≤ j → s'.byteAt j = s.byteAt j := by
  obtain ⟨catalog, x₁, h₁, hscan⟩ := (scan_start hcells).string hsize hlen
  obtain ⟨db, x₂, h₂, hscan⟩ := hscan.string hsize hlen
  obtain ⟨table, x₃, h₃, hscan⟩ := hscan.string hsize hlen
  obtain ⟨orgTable, x₄, h₄, hscan⟩ := hscan.string hsize hlen
  obtain ⟨name, x₅, h₅, hscan⟩ := hscan.string hsize hlen
  obtain ⟨orgName, x, h₆, hscan⟩ := hscan.string hsize hlen
  obtain ⟨hnumbers, -⟩ := cells_eq_append.mp hscan.rest_eq
  obtain ⟨hcharset, hlength, htype, hflags, hdecimals⟩ := numbers_of_cells hnumbers
  have hsum := hscan.sum
  rw [length_append, ColumnDef.length_numbers] at hsum
  replace hscan := hscan.skip
  rw [ColumnDef.length_numbers] at hscan
  simp only [decodeField, h₁, h₂, h₃, h₄, h₅, h₆, bind, Except.bind]
  rw [if_neg (by omega)]
  cases hdefault : c.default with
  | none =>
    rw [hdefault, Option.map_none, Option.getD_none] at hscan hsum
    rw [length_nil] at hsum
    rw [if_neg (by omega)]
    refine ⟨_, _, rfl, hscan.kept, ⟨?_, hcharset, hlength, htype, hflags, hdecimals⟩, ?_⟩
    · rw [ColumnDef.strings, hdefault]
      exact hscan.moved_of_nil
    · exact fun j hj => hscan.same j (by dsimp only; omega)
  | some default =>
    rw [hdefault, Option.map_some, Option.getD_some] at hscan hsum
    have hpos := length_lenenc_pos default.length
    rw [length_lenencString] at hsum
    rw [if_pos (by omega)]
    rw [← append_nil (lenencString default)] at hscan
    obtain ⟨slice, y, h₇, hend⟩ := hscan.string hsize hlen
    rw [h₇]
    have hsum' : y.i + 0 = c.payload.length := hend.sum
    refine ⟨_, _, rfl, hend.kept, ⟨?_, hcharset, hlength, htype, hflags, hdecimals⟩, ?_⟩
    · rw [ColumnDef.strings, hdefault]
      exact hend.moved_of_nil
    · exact fun j hj => hend.same j (by omega)

/-! ## What the server has sent -/

/-- The column as the server has sent it. -/
def ColumnDef.sent (c : ColumnDef) : Column where
  strings := c.strings
  charsetnr := c.charset.toNat
  length := c.length.toNat
  type := c.type
  flags := c.flags.toNat
  decimals := c.decimals.toNat

/-- A packet with a column definition that has been received. -/
structure ReceivedColumn where
  column : ColumnDef
  buffer : SwString
  base : ℕ
  packet : column.payload.length < 2 ^ 24
  inside : base + column.payload.length ≤ buffer.size
  received : buffer.cells base column.payload.length = column.payload

/-- The column is decoded, and reads as it was sent. -/
def ReceivedColumn.RoundTrips (p : ReceivedColumn) : Prop :=
  ∃ f s', decodeField p.buffer p.base p.column.payload.length = .ok (f, s') ∧
    f.read s' = p.column.sent

theorem ReceivedColumn.returned_iff (p : ReceivedColumn) :
    p.RoundTrips ↔ p.column.column = p.column.sent := by
  obtain ⟨f, s', hdecode, -, hfield, -⟩ := decodeField_payload p.received p.inside p.packet
  rw [← hfield.read_eq]
  refine ⟨fun ⟨f', s'', hdecode', hread⟩ => ?_, fun hread => ⟨f, s', hdecode, hread⟩⟩
  obtain ⟨rfl, rfl⟩ := Prod.mk.inj (Except.ok.inj (hdecode.symm.trans hdecode'))
  exact hread

theorem ColumnDef.column_flags (c : ColumnDef) :
    c.column.flags = c.flags.toNat + 2 ^ 16 * c.decimals.toNat := by
  have hlt := c.flags.toNat_lt
  simp only [column, bytes, cons_append, nil_append, value, Nat.toUInt8_eq, UInt8.toNat_ofNat']
  omega

/-- **A column definition comes through exactly when it has no decimals.**  Three bytes are read
for the flags, the last of which is the number of decimals; everything else is as it was sent. -/
theorem columns_round_trip_iff (p : ReceivedColumn) : p.RoundTrips ↔ p.column.decimals = 0 := by
  rw [p.returned_iff]
  constructor
  · intro heq
    have hflags := congrArg Column.flags heq
    rw [ColumnDef.column_flags] at hflags
    have hsum : p.column.flags.toNat + 2 ^ 16 * p.column.decimals.toNat = p.column.flags.toNat :=
      hflags
    exact UInt8.toNat_inj.mp (show _ = 0 by omega)
  · intro hzero
    have hflags := p.column.column_flags
    rw [hzero] at hflags
    rw [ColumnDef.sent, hzero, ← show p.column.column.flags = p.column.flags.toNat from hflags,
      ColumnDef.column, hzero]
    rfl

/-- **Decimals are taken for flags.**  A column `a` of type `NEWDECIMAL` without flags and with two
decimals. -/
theorem not_round_trip_decimals : ∃ p : ReceivedColumn,
    p.column.flags = 0 ∧ p.column.decimals = 2 ∧ ¬ p.RoundTrips := by
  let c : ColumnDef := ⟨[100], [], [], [], [97], [97], 63, 11, 246, 0, 2, none⟩
  refine ⟨⟨c, (SwString.new (fun _ => 0) 64).append c.payload (by decide), 0, by decide, by decide,
    by decide⟩, rfl, rfl, fun h => ?_⟩
  exact absurd ((ReceivedColumn.returned_iff _).mp h) (by decide)

/-! ## Rows -/

/-- What is added to the array of a row for a value. -/
def ColumnDef.entry (c : ColumnDef) : Option Bytes → MysqlRow
  | none => [(c.name.takeWhile (· ≠ 0), none)]
  | some bytes => rowEntry c.type (c.name.takeWhile (· ≠ 0)) bytes

/-- What the client makes of a row. -/
def rowOf : List ColumnDef → RowValues → MysqlRow
  | c :: columns, value :: values => c.entry value ++ rowOf columns values
  | _, _ => []

theorem lcb_null {len : ℤ} (hbyte : s.byteAt pos = 251) (hlen : 1 ≤ len) :
    lcb s pos len = some ⟨1, 0, true⟩ := by
  rw [lcb, if_neg (by omega), if_pos hbyte]

/-- **A row is decoded** from any of its columns on. -/
theorem decodeRow_payload {fields : List MysqlField} {columns : List ColumnDef} {values : RowValues}
    {readN : ℕ} (hfields : List.Forall₂ (FieldAt s bound) fields columns) (hbound : bound ≤ s.size)
    (hvalues : values.length = columns.length)
    (hcells : s.cells (base + readN) (rowPayload values).length = rowPayload values)
    (hsum : readN + (rowPayload values).length = len) (hlen : len < 2 ^ 24) :
    decodeRow s base len fields readN = some (rowOf columns values) := by
  induction hfields generalizing values readN with
  | nil =>
    rw [length_nil, length_eq_zero_iff] at hvalues
    rfl
  | @cons field c fields columns hfield hfields ih =>
    obtain ⟨value, values, rfl⟩ := exists_cons_of_length_eq_add_one hvalues
    rw [length_cons, length_cons, Nat.add_right_cancel_iff] at hvalues
    rw [rowPayload_cons] at hcells hsum
    obtain ⟨hvalue, hrest⟩ := cells_eq_append.mp hcells
    rw [length_append] at hsum
    rw [add_assoc] at hrest
    have htail := ih hvalues hrest (by omega)
    have hname : s.cString field.name.start = c.name.takeWhile (· ≠ 0) :=
      hfield.name_holds.cString_eq hbound
    cases value with
    | none =>
      have hone : (valueBytes none).length = 1 := rfl
      have hlcb := @lcb_null s (base + readN) (len - readN) (cells_eq_cons.mp hvalue).1
        (by omega)
      rw [decodeRow, hlcb]
      dsimp only
      rw [if_neg (by omega), if_pos rfl, hname]
      rw [hone] at htail
      rw [htail]
      rfl
    | some bytes =>
      obtain ⟨hlead, hbytes⟩ := cells_eq_append.mp hvalue
      have hlength : (valueBytes (some bytes)).length =
          (lenenc bytes.length).length + bytes.length := length_lenencString bytes
      have hlcb := @lcb_lenenc s (base + readN) bytes.length (len - readN) (by omega) hlead
        (by omega) (by omega)
      rw [add_assoc] at hbytes
      rw [decodeRow, hlcb]
      dsimp only
      rw [if_neg (by omega), if_neg (by decide), hname, hbytes, hfield.type]
      rw [hlength, ← add_assoc] at htail
      rw [htail]
      rfl

end Mysql

end Swoole
