import Mathlib.Data.List.Induction
import Mathlib.Data.List.Pairwise
import Swoole.Core.Int
import Swoole.Core.Socket
import Swoole.Library.ByteMemory

/-!
# The columns of a table row

The data area of a row is cut into columns.  `swTableRow_set_value` copies a value into its
column: the low bytes of a number, or the length of a text and the text, cut to the room there is.
`php_swoole_table_row2array` reads the columns again.

* `setValue_eq_store` — a value is written inside the span of its column;
* `RowColumns` — the columns of a row, which share no byte;
* `load_run`, `getValue_of_load` — what stands in a column after any values have been written.
-/

namespace Swoole

open LittleEndian (bytes length_bytes take_bytes value_bytes)

/-- The types of columns. -/
inductive ColumnType where
  | int8 | int16 | int32 | int64 | float | string
  deriving DecidableEq, Repr

/-- The bytes of a number. -/
def ColumnType.width : ColumnType → ℕ
  | .int8 => 1
  | .int16 => 2
  | .int32 => 4
  | .int64 => 8
  | .float => 8
  | .string => 0

theorem ColumnType.width_le (type : ColumnType) : type.width ≤ 8 := by
  cases type <;> decide

/-- `swTableColumn`, without its name. -/
structure TableColumn where
  type : ColumnType
  size : ℕ
  index : ℕ
  deriving DecidableEq, Repr

/-- The types that a table is created with. -/
inductive ColumnKind where
  | int | float | string
  deriving DecidableEq

/-- `swTableColumn_add`: the column, and the `item_size` behind it.  The size is an `int`, the
index a `uint16_t`. -/
def TableColumn.add (itemSize : ℕ) (kind : ColumnKind) (size : ℤ) : TableColumn × ℕ :=
  let (type, size) : ColumnType × ℕ :=
    match kind with
    | .int =>
      if size = 1 then (.int8, 1) else if size = 2 then (.int16, 2)
      else if size = 8 then (.int64, 8) else (.int32, 4)
    | .float => (.float, 8)
    | .string => (.string, toUInt32 (size + 4))
  (⟨type, size, itemSize % 2 ^ 16⟩, (itemSize + size) % 2 ^ 32)

/-- A value, as PHP has it; a `double` is given by its bits. -/
inductive Cell where
  | long (value : ℤ)
  | double (bits : UInt64)
  | text (bytes : Bytes)
  deriving DecidableEq, Repr

namespace Cell

/-- The memory behind the pointer to the value. -/
def memory : Cell → Bytes
  | .long value => bytes 8 (value % 2 ^ 64).toNat
  | .double bits => bytes 8 bits.toNat
  | .text bytes => bytes

/-- The value was converted to the type of its column.  The length of a text is an `int`. -/
def Fits : Cell → ColumnType → Prop
  | .long _, type => type ≠ .float ∧ type ≠ .string
  | .double _, type => type = .float
  | .text bytes, type => type = .string ∧ bytes.length < 2 ^ 31

theorem Fits.length_memory {v : Cell} {type : ColumnType} (h : v.Fits type)
    (hnumber : type ≠ .string) : v.memory.length = 8 := by
  cases v with
  | long value => exact length_bytes _ _
  | double bits => exact length_bytes _ _
  | text bytes => exact absurd h.1 hnumber

end Cell

namespace TableColumn

open ByteMemory (loadNat load_within)

/-- The range of the column in the data area. -/
def span (c : TableColumn) : Span := ⟨c.index, c.size⟩

/-- A number has the size of its type, and a text room for its length. -/
def Sized (c : TableColumn) : Prop :=
  if c.type = .string then 4 ≤ c.size else c.size = c.type.width

/-- `swTableRow_set_value`; for a string column `value` has `vlen` bytes. -/
def setValue (data : ByteMemory) (c : TableColumn) (value : Bytes) : ByteMemory :=
  match c.type with
  | .int8 => data.store c.index (value.take 1)
  | .int16 => data.store c.index (value.take 2)
  | .int32 => data.store c.index (value.take 4)
  | .int64 => data.store c.index (value.take 8)
  | .float => data.store c.index (value.take 8)
  | .string =>
    let vlen := if c.size - 4 < value.length then c.size - 4 else value.length
    (data.storeNat c.index 4 vlen).store (c.index + 4) (value.take vlen)

/-- What `php_swoole_table_row2array` makes of a column.  The casts keep what was copied from
the column only, not what a column before it has left in `lval`. -/
def getValue (data : ByteMemory) (c : TableColumn) : Cell :=
  match c.type with
  | .string => .text (data.load (c.index + 4) (data.loadNat c.index 4))
  | .float => .double (data.loadNat c.index 8).toUInt64
  | .int8 => .long (Int.bmod (data.loadNat c.index 1) (2 ^ 8))
  | .int16 => .long (Int.bmod (data.loadNat c.index 2) (2 ^ 16))
  | .int32 => .long (Int.bmod (data.loadNat c.index 4) (2 ^ 32))
  | .int64 => .long (Int.bmod (data.loadNat c.index 8) (2 ^ 64))

/-- What a column keeps of a value: a number reduced to the width of the column, with its sign,
and a text cut to its size. -/
def stored (c : TableColumn) : Cell → Cell
  | .long value => .long (Int.bmod value (2 ^ (8 * c.size)))
  | .double bits => .double bits
  | .text bytes => .text (bytes.take (c.size - 4))

variable {c : TableColumn} {v : Cell} {data data' : ByteMemory}

theorem setValue_of_number (h : c.type ≠ .string) (data : ByteMemory) (value : Bytes) :
    setValue data c value = data.store c.index (value.take c.type.width) := by
  unfold setValue
  cases htype : c.type <;> first | rfl | exact absurd htype h

theorem setValue_of_string (h : c.type = .string) (data : ByteMemory) (value : Bytes) :
    setValue data c value =
      (data.storeNat c.index 4 (min (c.size - 4) value.length)).store (c.index + 4)
        (value.take (min (c.size - 4) value.length)) := by
  have hmin : (if c.size - 4 < value.length then c.size - 4 else value.length) =
      min (c.size - 4) value.length := by split <;> omega
  simp only [setValue, h, hmin]

theorem getValue_of_int (hfloat : c.type ≠ .float) (hstring : c.type ≠ .string) :
    getValue data c =
      .long (Int.bmod (data.loadNat c.index c.type.width) (2 ^ (8 * c.type.width))) := by
  unfold getValue
  cases htype : c.type <;>
    first | rfl | exact absurd htype hfloat | exact absurd htype hstring

/-- `swTableColumn_add`, unless it is asked for a text of negative size. -/
theorem sized_add (itemSize : ℕ) (kind : ColumnKind) {size : ℤ} (hsize : 0 ≤ size)
    (hint : size < 2 ^ 31) : (add itemSize kind size).1.Sized := by
  cases kind with
  | int =>
    simp only [add]
    split_ifs <;> rfl
  | float => rfl
  | string =>
    show 4 ≤ toUInt32 (size + 4)
    unfold toUInt32
    omega

theorem Sized.size_eq (h : c.Sized) (hnumber : c.type ≠ .string) : c.size = c.type.width := by
  rwa [Sized, if_neg hnumber] at h

theorem Sized.le_size (h : c.Sized) (hstring : c.type = .string) : 4 ≤ c.size := by
  rwa [Sized, if_pos hstring] at h

theorem setValue_eq_store (h : c.Sized) (value : Bytes) :
    ∃ bytes : Bytes, bytes.length ≤ c.size ∧
      ∀ data, setValue data c value = data.store c.index bytes := by
  by_cases hstring : c.type = .string
  · have hle := h.le_size hstring
    refine ⟨bytes 4 (min (c.size - 4) value.length) ++
      value.take (min (c.size - 4) value.length), ?_, fun data => ?_⟩
    · simp only [List.length_append, length_bytes, List.length_take]
      omega
    · rw [setValue_of_string hstring, ← ByteMemory.store_store_append, length_bytes]
      rfl
  · refine ⟨value.take c.type.width, ?_, fun data => setValue_of_number hstring data value⟩
    rw [h.size_eq hstring, List.length_take]
    omega

theorem load_setValue_apart {c' : TableColumn} (h : c.Sized) (happart : c.span.Apart c'.span)
    (data : ByteMemory) (value : Bytes) :
    (setValue data c value).load c'.index c'.size = data.load c'.index c'.size := by
  obtain ⟨bytes, hlen, hstore⟩ := setValue_eq_store h value
  rw [hstore]
  refine ByteMemory.load_store_apart (happart.mono ⟨le_rfl, ?_⟩ ⟨le_rfl, le_rfl⟩)
  exact Nat.add_le_add_left hlen c.index

theorem bmod_value_take {n : ℕ} (h : n ≤ 8) (value : ℤ) :
    Int.bmod (LittleEndian.value ((Cell.long value).memory.take n)) (2 ^ (8 * n)) =
      Int.bmod value (2 ^ (8 * n)) := by
  have hdvd : ((2 ^ (8 * n) : ℕ) : ℤ) ∣ 2 ^ 64 := by
    exact_mod_cast Nat.pow_dvd_pow 2 (show 8 * n ≤ 64 by omega)
  have hnonneg : 0 ≤ value % 2 ^ 64 := Int.emod_nonneg value (by decide)
  rw [Cell.memory, LittleEndian.take_bytes h, LittleEndian.value_bytes_eq_mod, Int.natCast_emod,
    Int.toNat_of_nonneg hnonneg, Int.emod_bmod, ← Int.emod_bmod, Int.emod_emod_of_dvd _ hdvd,
    Int.emod_bmod]

/-- **A value is read back** from any memory that agrees on the column with one it has just been
written to. -/
theorem getValue_of_load (h : c.Sized) (hfits : v.Fits c.type)
    (hload : data.load c.index c.size = (setValue data' c v.memory).load c.index c.size) :
    getValue data c = c.stored v := by
  by_cases hstring : c.type = .string
  · obtain ⟨text, rfl, hsmall⟩ : ∃ text, v = .text text ∧ text.length < 2 ^ 31 := by
      cases v with
      | long value => exact absurd hstring hfits.2
      | double bits => exact absurd (hfits.symm.trans hstring) (by decide)
      | text text => exact ⟨text, rfl, hfits.2⟩
    have hle := h.le_size hstring
    rw [setValue_of_string hstring, Cell.memory] at hload
    set vlen := min (c.size - 4) text.length with hvlen
    have hlen : data.loadNat c.index 4 = vlen := by
      have hhead := load_within hload
        (b := c.index) (k := 4) ⟨Nat.le_refl _, Nat.add_le_add_left hle _⟩
      rw [loadNat, hhead, ← loadNat, ByteMemory.loadNat_store_apart,
        ByteMemory.loadNat_storeNat_self (by omega)]
      exact .inr (le_rfl)
    have htext : data.load (c.index + 4) vlen = text.take vlen := by
      have hself := @ByteMemory.load_store_self (data'.storeNat c.index 4 vlen) (c.index + 4)
        (text.take vlen)
      rw [List.length_take, min_eq_left (by omega)] at hself
      rw [← hself]
      refine load_within hload ⟨Nat.le_add_right _ _, ?_⟩
      simp only [Span.stop]
      omega
    simp only [getValue, hstring, hlen, htext, stored]
    rw [hvlen, ← List.take_take, List.take_length]
  · have hload : data.load c.index c.type.width = v.memory.take c.type.width := by
      have hself := @ByteMemory.load_store_self data' c.index (v.memory.take c.type.width)
      rw [List.length_take, hfits.length_memory hstring, min_eq_left c.type.width_le] at hself
      rw [← hself, ← h.size_eq hstring, hload, setValue_of_number hstring, h.size_eq hstring]
    cases v with
    | long value =>
      rw [getValue_of_int hfits.1 hstring, loadNat, hload,
        bmod_value_take c.type.width_le, stored, h.size_eq hstring]
    | double bits =>
      rw [show c.type = .float from hfits] at hload
      have hvalue : data.loadNat c.index 8 = bits.toNat := by
        rw [ColumnType.width, Cell.memory, take_bytes (Nat.le_refl 8)] at hload
        rw [loadNat, hload, value_bytes bits.toNat_lt]
      simp only [getValue, show c.type = .float from hfits, hvalue, stored]
      rw [Nat.toUInt64_eq, UInt64.ofNat_toNat]
    | text text => exact absurd hfits.1 hstring

end TableColumn

/-! ## Rows -/

/-- The columns of a row: they have their sizes and share no byte. -/
structure RowColumns where
  columns : List TableColumn
  sized : ∀ c ∈ columns, c.Sized
  apart : columns.Pairwise fun c c' => c.span.Apart c'.span

namespace RowColumns

open TableColumn List

/-- A call of `swTableRow_set_value` on one of the columns. -/
structure Write (r : RowColumns) where
  column : TableColumn
  mem : column ∈ r.columns
  value : Cell
  fits : value.Fits column.type

variable (r : RowColumns)

/-- The data area after some calls. -/
def run (data : ByteMemory) (writes : List r.Write) : ByteMemory :=
  writes.foldl (fun data w => setValue data w.column w.value.memory) data

theorem apart_of_ne {c c' : TableColumn} (hc : c ∈ r.columns) (hc' : c' ∈ r.columns)
    (hne : c ≠ c') : c.span.Apart c'.span := by
  have hsymm : Std.Symm fun c c' : TableColumn => c.span.Apart c'.span :=
    ⟨fun _ _ happart => happart.symm⟩
  exact r.apart.forall hc hc' hne

theorem load_run (data : ByteMemory) (writes : List r.Write) {c : TableColumn}
    (hc : c ∈ r.columns) :
    match writes.reverse.find? (·.column = c) with
    | some w => ∃ data', (r.run data writes).load c.index c.size =
        (setValue data' c w.value.memory).load c.index c.size
    | none => (r.run data writes).load c.index c.size = data.load c.index c.size := by
  induction writes using List.reverseRecOn with
  | nil => rfl
  | append_singleton writes w ih =>
    have hrun : r.run data (writes ++ [w]) =
        setValue (r.run data writes) w.column w.value.memory := by
      rw [run, foldl_append]
      rfl
    rw [hrun, reverse_append, reverse_singleton, singleton_append, find?_cons]
    by_cases hw : w.column = c
    · rw [decide_eq_true hw, hw]
      exact ⟨_, rfl⟩
    · rw [decide_eq_false hw, load_setValue_apart (r.sized _ w.mem) (r.apart_of_ne w.mem hc hw)]
      exact ih

/-- **Column values survive.**  After any calls of `swTableRow_set_value` on the columns of a row,
each column reads as the last value written to it, a number reduced to the width of the column and
a text cut to its size; and the bytes of a column that none of the calls wrote to are as they
were. -/
theorem getValue_run (data : ByteMemory) (writes : List r.Write) (c : {c // c ∈ r.columns}) :
    match writes.reverse.find? (·.column = c.1) with
    | some w => getValue (r.run data writes) c = c.1.stored w.value
    | none => (r.run data writes).load c.1.index c.1.size = data.load c.1.index c.1.size := by
  have hload := r.load_run data writes c.2
  split at hload
  next w hlast =>
    obtain ⟨data', hload⟩ := hload
    have hw : w.column = c := by simpa using find?_some hlast
    exact getValue_of_load (r.sized _ c.2) (hw ▸ w.fits) hload
  next hlast =>
    exact hload

theorem add_two : (add 0 .int 2).1 = ⟨.int16, 2, 0⟩ ∧ (add 2 .string 3).1 = ⟨.string, 7, 2⟩ := by
  decide +kernel

/-- A number of two bytes and a text of three. -/
def twoColumns : RowColumns where
  columns := [⟨.int16, 2, 0⟩, ⟨.string, 7, 2⟩]
  sized := by
    rw [forall_mem_cons, forall_mem_singleton, ← add_two.1, ← add_two.2]
    exact ⟨sized_add _ _ (by decide) (by decide), sized_add _ _ (by decide) (by decide)⟩
  apart := by decide

theorem getValue_run_two :
    let number : {c // c ∈ twoColumns.columns} := ⟨⟨.int16, 2, 0⟩, by decide⟩
    let text : {c // c ∈ twoColumns.columns} := ⟨⟨.string, 7, 2⟩, by decide⟩
    let writes : List twoColumns.Write :=
      [⟨number, number.2, .long 65535, nofun, nofun⟩,
        ⟨text, text.2, .text [97, 98, 99, 100], rfl, by decide⟩]
    getValue (twoColumns.run (fun _ => 0) writes) number = .long (-1) ∧
      getValue (twoColumns.run (fun _ => 0) writes) text = .text [97, 98, 99] := by
  intro number text writes
  have hnumber : getValue (twoColumns.run (fun _ => 0) writes) number =
      number.1.stored (.long 65535) := twoColumns.getValue_run _ writes number
  have htext : getValue (twoColumns.run (fun _ => 0) writes) text =
      text.1.stored (.text [97, 98, 99, 100]) := twoColumns.getValue_run _ writes text
  exact ⟨hnumber.trans (by decide), htext⟩

end RowColumns

end Swoole
