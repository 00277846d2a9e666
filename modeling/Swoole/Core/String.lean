import Swoole.Core.Int
import Swoole.Core.Socket
import Swoole.Library.Search

/-!
# `swString`, the growable byte buffer

A `swString` is a block of `size` bytes of which the first `length` are in use;
`offset` is a cursor whose meaning belongs to the reader that owns the buffer.

The bytes in use are the list `data`, so `length` is `data.length`.  What lies behind them is not
thrown away by the program: `swString_clear` only resets the two counters, `realloc` keeps the
block's contents, and several parsers read past `length`.  `beyond` therefore gives the contents
of every later memory cell, by its index from the start of the block, and `byteAt` reads a cell
wherever it lies.  Cells that were never written hold whatever the allocator left there, which is
why a new buffer takes its `beyond` from outside.

That the bytes in use lie inside the block is a field: a write past the end of
the block is not a state of the model but the failure of the operation.
-/

namespace Swoole

open List

structure SwString where
  /-- The `length` bytes in use, `str[0 .. length)`. -/
  data : Bytes
  /-- The memory cells behind them, by index from the start of the block. -/
  beyond : ℕ → UInt8
  size : ℕ
  offset : ℕ
  length_le : data.length ≤ size

namespace SwString

/-- `swString_new`: `fresh` is what the allocator left in the block. -/
@[simps data size offset]
def new (fresh : ℕ → UInt8) (size : ℕ) : SwString where
  data := []
  beyond := fresh
  size := size
  offset := 0
  length_le := Nat.zero_le _

/-- The memory cell `str[i]`. -/
def byteAt (s : SwString) (i : ℕ) : UInt8 := s.data.getD i (s.beyond i)

/-- The `n` memory cells from `str[i]` on. -/
def cells (s : SwString) (i n : ℕ) : Bytes := (range n).map fun j => s.byteAt (i + j)

/-- The room left behind the bytes in use. -/
def room (s : SwString) : ℕ := s.size - s.data.length

/-- Overwrite the start of the block with `bytes` and make them the bytes in
use; every other cell keeps its contents. -/
@[simps data size offset]
def setData (s : SwString) (bytes : Bytes) (h : bytes.length ≤ s.size) : SwString where
  data := bytes
  beyond := s.byteAt
  size := s.size
  offset := s.offset
  length_le := h

/-- `swString_clear`. -/
def clear (s : SwString) : SwString :=
  { s.setData [] (Nat.zero_le _) with offset := 0 }

/-- Store `bytes` behind the bytes in use and count them in, as a `recv` into
`str + length` followed by `length += n` does. -/
@[simps data size offset]
def append (s : SwString) (bytes : Bytes) (h : s.data.length + bytes.length ≤ s.size) :
    SwString :=
  { s with
    data := s.data ++ bytes
    length_le := by simpa using h }

/-- Write `bytes` to the cells from `str[i]` on and count `n` more cells in, whether or
not these are the cells that were written. -/
def patch (s : SwString) (i : ℕ) (bytes : Bytes) (n : ℕ) (h : s.data.length + n ≤ s.size) :
    SwString :=
  let cell := fun j => if i ≤ j then bytes.getD (j - i) (s.byteAt j) else s.byteAt j
  { s with
    data := (range (s.data.length + n)).map cell
    beyond := cell
    length_le := by simpa using h }

@[simp] theorem length_patch (s : SwString) (i : ℕ) (bytes : Bytes) (n : ℕ)
    (h : s.data.length + n ≤ s.size) : (s.patch i bytes n h).data.length = s.data.length + n := by
  simp [patch]

variable {i n : ℕ}

/-- Bytes that are written right behind the bytes in use, and all of them counted in. -/
theorem patch_data_of_eq (s : SwString) {bytes : Bytes} (h : s.data.length + n ≤ s.size)
    (hi : s.data.length = i) (hn : bytes.length = n) :
    (s.patch i bytes n h).data = s.data ++ bytes := by
  subst hi hn
  refine ext_getElem (by simp [patch]) fun j hj _ => ?_
  rw [length_patch] at hj
  simp only [patch, getElem_map, getElem_range]
  by_cases hlt : j < s.data.length
  · rw [if_neg (by omega), getElem_append_left hlt]
    simp [byteAt, hlt]
  · rw [if_pos (by omega), getElem_append_right (by omega)]
    simp [show j - s.data.length < bytes.length by omega]

/-- Every cell behind a write: the cells that are written hold the bytes. -/
theorem byteAt_patch (s : SwString) (i : ℕ) (bytes : Bytes) (h : s.data.length + n ≤ s.size)
    (j : ℕ) : (s.patch i bytes n h).byteAt j =
      if i ≤ j then bytes.getD (j - i) (s.byteAt j) else s.byteAt j := by
  conv_lhs => unfold byteAt
  by_cases hlt : j < s.data.length + n
  · simp only [patch, getD_eq_getElem?_getD, getElem?_map, getElem?_range hlt,
      Option.map_some, Option.getD_some]
  · rw [getD_eq_getElem?_getD, getElem?_eq_none (by rw [length_patch]; omega)]
    rfl

theorem byteAt_patch_of_lt (s : SwString) (bytes : Bytes) (h : s.data.length + n ≤ s.size) {j : ℕ}
    (hj : j < i) : (s.patch i bytes n h).byteAt j = s.byteAt j := by
  rw [byteAt_patch, if_neg (by omega)]

/-- `swString_extend`, with a `realloc` that succeeds.  The function asserts that
the block really grows; `none` is the failed assertion. -/
def extend (s : SwString) (newSize : ℕ) : Option SwString :=
  if h : s.size < newSize then
    some { s with size := newSize, length_le := le_trans s.length_le (le_of_lt h) }
  else none

variable (s : SwString)

@[simp] theorem clear_data : s.clear.data = [] := rfl

@[simp] theorem clear_size : s.clear.size = s.size := rfl

@[simp] theorem clear_offset : s.clear.offset = 0 := rfl

variable {newSize : ℕ}

/-- A growing `extend` changes nothing but the size of the block. -/
theorem extend_of_lt (h : s.size < newSize) :
    ∃ s', s.extend newSize = some s' ∧ s'.data = s.data ∧ s'.beyond = s.beyond ∧
      s'.size = newSize ∧ s'.offset = s.offset := by
  simp only [extend, h, dif_pos]
  exact ⟨_, rfl, rfl, rfl, rfl, rfl⟩

theorem extend_of_not_lt (h : ¬ s.size < newSize) : s.extend newSize = none := by
  simp [extend, h]

/-- Make sure that the block has `n` bytes, as the readers do with
`if (buffer->size < n) swString_extend(buffer, n)`: `extend` refuses exactly when
the block is large enough already. -/
def reserve (n : ℕ) : SwString := (s.extend n).getD s

@[simp] theorem reserve_data (n : ℕ) : (s.reserve n).data = s.data := by
  unfold reserve
  by_cases h : s.size < n
  · obtain ⟨b, hb, hdata, -⟩ := s.extend_of_lt h
    rw [hb, Option.getD_some, hdata]
  · rw [s.extend_of_not_lt h, Option.getD_none]

@[simp] theorem reserve_size (n : ℕ) : (s.reserve n).size = max s.size n := by
  unfold reserve
  by_cases h : s.size < n
  · obtain ⟨b, hb, -, -, hsize, -⟩ := s.extend_of_lt h
    rw [hb, Option.getD_some, hsize]
    omega
  · rw [s.extend_of_not_lt h, Option.getD_none]
    omega

theorem byteAt_of_lt (h : i < s.data.length) : s.byteAt i = s.data.get ⟨i, h⟩ := by
  simp [byteAt, h]

/-- Cells in front of `length` hold the bytes in use. -/
theorem cells_of_le (h : i + n ≤ s.data.length) : s.cells i n = (s.data.drop i).take n := by
  refine ext_getElem ?_ fun j hj _ => ?_
  · simp only [cells, length_map, length_range, length_take, length_drop]
    omega
  · simp only [cells, length_map, length_range] at hj
    simp [cells, byteAt, show i + j < s.data.length by omega]

@[simp] theorem length_cells (i n : ℕ) : (s.cells i n).length = n := by simp [cells]

theorem cells_succ (i n : ℕ) : s.cells i (n + 1) = s.byteAt i :: s.cells (i + 1) n := by
  simp [cells, range_succ_eq_map, add_assoc, add_comm 1]

theorem cells_congr {s s' : SwString} (h : ∀ j, i ≤ j → j < i + n → s'.byteAt j = s.byteAt j) :
    s'.cells i n = s.cells i n := by
  refine map_congr_left fun j hj => h (i + j) (Nat.le_add_right i j) ?_
  exact Nat.add_lt_add_left (mem_range.mp hj) i

theorem cells_append (i n n' : ℕ) : s.cells i (n + n') = s.cells i n ++ s.cells (i + n) n' := by
  simp [cells, range_add, add_assoc, Function.comp_def]

end SwString

/-- `SW_BUFFER_SIZE_BIG`, the size of `stack_buf`. -/
def bufferSizeBig : ℕ := 65536

/-- `swoole_size_align`. -/
def sizeAlign (size pagesize : ℕ) : ℕ := size + (pagesize - size % pagesize)

theorem lt_sizeAlign (size : ℕ) {pagesize : ℕ} (h : 0 < pagesize) :
    size < sizeAlign size pagesize := by
  have hmod := Nat.mod_lt size h
  unfold sizeAlign
  omega

theorem sizeAlign_le (size pagesize : ℕ) : sizeAlign size pagesize ≤ size + pagesize := by
  unfold sizeAlign
  omega

/-- The largest block that `realloc` hands out. -/
def ptrdiffMax : ℕ := 2 ^ 63 - 1

namespace SwString

variable (s : SwString)

/-- The `memcpy` and the count of `swString_append_ptr`; `none` is a write outside the
block. -/
def store (bytes : Bytes) : Option (SwString × Ret) :=
  if h : s.data.length + bytes.length ≤ s.size then some (s.append bytes h, .ok) else none

/-- `swString_append_ptr`.  The new length is an `int`, and so is twice the new length,
which the block grows to when it is too small; `none` is a failed assertion or a write
outside the block. -/
def appendPtr (pagesize : ℕ) (bytes : Bytes) : Option (SwString × Ret) :=
  let newSize := toInt32 (s.data.length + bytes.length : ℕ)
  if s.size < toSizeT newSize then
    let grown := sizeAlign (toSizeT (toInt32 (newSize * 2))) pagesize
    if ptrdiffMax < grown then some (s, .err)
    else (s.extend grown).bind fun s' => s'.store bytes
  else s.store bytes

section AppendPtr

variable {s} {pagesize : ℕ} {bytes : Bytes}

theorem appendPtr_of_le (h : s.data.length + bytes.length ≤ s.size)
    (hlt : s.data.length + bytes.length < 2 ^ 31) :
    s.appendPtr pagesize bytes = some (s.append bytes h, .ok) := by
  simp only [appendPtr, toInt32_natCast hlt]
  rw [toSizeT_natCast (by omega), if_neg (by omega), store, dif_pos h]

theorem appendPtr_of_lt (h : s.size < s.data.length + bytes.length)
    (hlt : s.data.length + bytes.length < 2 ^ 30)
    (hpage : sizeAlign ((s.data.length + bytes.length) * 2) pagesize ≤ ptrdiffMax) :
    ∃ s', s.appendPtr pagesize bytes = some (s', .ok) ∧ s'.data = s.data ++ bytes ∧
      s'.size = sizeAlign ((s.data.length + bytes.length) * 2) pagesize ∧
      s'.offset = s.offset := by
  have hnew : toInt32 (s.data.length + bytes.length : ℕ) = (s.data.length + bytes.length : ℕ) :=
    toInt32_natCast (by omega)
  have htwice : toSizeT (toInt32 (((s.data.length + bytes.length : ℕ) : ℤ) * 2)) =
      (s.data.length + bytes.length) * 2 := by
    rw [toInt32_of_lt (by omega) (by omega)]
    exact toSizeT_natCast (show (s.data.length + bytes.length) * 2 < 2 ^ 64 by omega)
  have hle : (s.data.length + bytes.length) * 2 ≤
      sizeAlign ((s.data.length + bytes.length) * 2) pagesize := Nat.le_add_right _ _
  have hgrows : s.size < sizeAlign ((s.data.length + bytes.length) * 2) pagesize := by omega
  simp only [appendPtr, hnew, htwice]
  rw [toSizeT_natCast (by omega), if_pos h, if_neg (not_lt.mpr hpage)]
  obtain ⟨s', hextend, hdata, -, hsize', hoffset⟩ := s.extend_of_lt hgrows
  rw [hextend, Option.bind_some, store, dif_pos (by rw [hdata, hsize']; omega)]
  exact ⟨_, rfl, by rw [append_data, hdata], hsize', hoffset⟩

theorem appendPtr_of_short (hlt : s.data.length + bytes.length < 2 ^ 30)
    (hpage : pagesize < 2 ^ 31) :
    ∃ s', s.appendPtr pagesize bytes = some (s', .ok) ∧ s'.data = s.data ++ bytes ∧
      s'.offset = s.offset := by
  by_cases hroom : s.data.length + bytes.length ≤ s.size
  · exact ⟨_, appendPtr_of_le hroom (by omega), rfl, rfl⟩
  · have halign := sizeAlign_le ((s.data.length + bytes.length) * 2) pagesize
    have hmax : sizeAlign ((s.data.length + bytes.length) * 2) pagesize ≤ ptrdiffMax := by
      unfold ptrdiffMax
      omega
    obtain ⟨s', heq, hdata, -, hoffset⟩ := appendPtr_of_lt (by omega) hlt hmax
    exact ⟨s', heq, hdata, hoffset⟩

/-- From `2 ^ 30` on twice the new length is negative as an `int` and enormous as a
`size_t`: the block cannot grow, and nothing is appended. -/
theorem appendPtr_of_overflow (h : s.size < s.data.length + bytes.length)
    (hle : 2 ^ 30 ≤ s.data.length + bytes.length) (hlt : s.data.length + bytes.length < 2 ^ 31) :
    s.appendPtr pagesize bytes = some (s, .err) := by
  have hgrown : ptrdiffMax <
      sizeAlign (toSizeT (toInt32 (((s.data.length + bytes.length : ℕ) : ℤ) * 2))) pagesize := by
    refine Nat.lt_of_lt_of_le ?_ (Nat.le_add_right _ _)
    rw [toInt32_of_le (by omega) (by omega)]
    unfold toSizeT ptrdiffMax
    omega
  simp only [appendPtr, toInt32_natCast hlt]
  rw [toSizeT_natCast (by omega), if_pos h, if_pos hgrown]

end AppendPtr

end SwString

/-- `swoole_strnpos`, on a haystack at most one byte shorter than the needle; `none`
is `-1`. -/
def strnpos (haystack needle : Bytes) : Option ℕ := Search.firstOcc needle haystack

section Strnpos

/-- The loop of `swoole_strnpos` on what is left of the haystack; `none` is a read behind its end.
`memcmp` may read as much as it is asked to compare. -/
def strnposLoop (needle : Bytes) : ℕ → ℕ → Bytes → Option ℤ
  | 0, _, _ => some (-1)
  | _ + 1, _, [] => none
  | left + 1, i, c :: rest =>
    if needle.head? = some c then
      if rest.length + 1 < needle.length then none
      else if needle <+: c :: rest then some (toInt32 i)
      else strnposLoop needle left (i + 1) rest
    else strnposLoop needle left (i + 1) rest

/-- `swoole_strnpos`.  The bound is made an `int`, and compared as a `uint32_t` again. -/
def swooleStrnpos (haystack needle : Bytes) : Option ℤ :=
  let bound := toUInt32 (haystack.length - needle.length + 1)
  strnposLoop needle (toUInt32 (toInt32 bound)) 0 haystack

variable {haystack needle : Bytes} {left : ℕ}

/-- With one round for each place of the needle the loop is the search. -/
theorem strnposLoop_eq (hne : needle ≠ []) (hbound : left + needle.length = haystack.length + 1)
    (i : ℕ) : strnposLoop needle left i haystack =
      some ((strnpos haystack needle).elim (-1) fun k => toInt32 (i + k : ℕ)) := by
  have hpos := length_pos_iff.mpr hne
  induction left generalizing i haystack with
  | zero =>
    have hnone : strnpos haystack needle = none :=
      (Search.firstOcc_eq_none hne).mpr fun j hj => by have := hj.length_le hne; omega
    rw [hnone, strnposLoop, Option.elim_none]
  | succ left ih =>
    cases haystack with
    | nil => exact absurd hbound (by rw [length_nil]; omega)
    | cons c rest =>
      rw [length_cons] at hbound
      have hroom : ¬ rest.length + 1 < needle.length := by omega
      rw [strnposLoop, if_neg hroom, ih (by omega), strnpos, strnpos, Search.firstOcc]
      by_cases hocc : needle <+: c :: rest
      · obtain ⟨tail, htail⟩ := hocc
        have hhead : needle.head? = some c := by
          rw [← head?_append_of_ne_nil needle hne, htail, head?_cons]
        rw [if_pos hhead, if_pos ⟨tail, htail⟩, if_pos ⟨tail, htail⟩, Option.elim_some,
          Nat.add_zero]
      · rw [if_neg hocc, if_neg hocc, ite_self]
        cases Search.firstOcc needle rest with
        | none => rw [Option.map_none, Option.elim_none, Option.elim_none]
        | some k =>
          rw [Option.map_some, Option.elim_some, Option.elim_some, Nat.add_right_comm,
            Nat.add_assoc]

/-- A needle that is longer than the haystack is compared with memory behind it. -/
theorem strnposLoop_outside (hlong : haystack.length < needle.length)
    (hleft : haystack.length < left) (i : ℕ) : strnposLoop needle left i haystack = none := by
  induction haystack generalizing left i with
  | nil =>
    obtain ⟨left, rfl⟩ := Nat.exists_eq_add_one.mpr hleft
    rfl
  | cons c rest ih =>
    obtain ⟨left, rfl⟩ := Nat.exists_eq_add_one.mpr (Nat.zero_lt_of_lt hleft)
    rw [length_cons] at hlong hleft
    rw [strnposLoop, if_pos hlong, ih (by omega) (by omega), ite_self]

/-- **When the search is right**: the haystack is at most one byte shorter than the needle, and
the position that is found is an `int`. -/
theorem swooleStrnpos_eq_iff (haystack needle : Bytes) (hne : needle ≠ [])
    (hhay : haystack.length < 2 ^ 32) (hneedle : needle.length < 2 ^ 32) :
    swooleStrnpos haystack needle =
        some ((strnpos haystack needle).elim (-1) fun i => (i : ℤ)) ↔
      needle.length ≤ haystack.length + 1 ∧ ∀ i ∈ strnpos haystack needle, i < 2 ^ 31 := by
  have hpos := length_pos_iff.mpr hne
  have hrounds := @toUInt32_toInt32 (toUInt32 (haystack.length - needle.length + 1))
    (by unfold toUInt32; omega)
  rw [swooleStrnpos, hrounds]
  by_cases hshort : needle.length ≤ haystack.length + 1
  · rw [strnposLoop_eq hne (by unfold toUInt32; omega), and_iff_right hshort]
    cases strnpos haystack needle with
    | none =>
      rw [Option.elim_none, Option.elim_none]
      exact iff_of_true rfl nofun
    | some i =>
      have hbounds := toInt32_bounds i
      rw [Option.elim_some, Option.elim_some, Nat.zero_add, Option.some.injEq]
      exact ⟨fun heq k hk => by cases hk; omega, fun hlt => toInt32_natCast (hlt i rfl)⟩
  · rw [strnposLoop_outside (by omega) (by unfold toUInt32; omega)]
    exact iff_of_false nofun fun h => hshort h.1

end Strnpos

/-- The end of a header. -/
theorem swooleStrnpos_header :
    swooleStrnpos [97, 98, 13, 10, 13, 10] [13, 10, 13, 10] = some 2 :=
  (swooleStrnpos_eq_iff [97, 98, 13, 10, 13, 10] [13, 10, 13, 10] nofun (by decide)
    (by decide)).mpr (by decide)

/-- Two bytes, where the loop has `2^32 - 1` rounds. -/
theorem not_swooleStrnpos_two_bytes :
    strnpos [71, 69] [13, 10, 13, 10] = none ∧ swooleStrnpos [71, 69] [13, 10, 13, 10] = none :=
  ⟨by decide, strnposLoop_outside (by decide) (by decide) 0⟩

/-- `sizeof(struct _swDataHead)`: an `int`, three 16-bit and two 8-bit fields. -/
def dataHeadSize : ℕ := 12

/-- `SW_IPC_MAX_SIZE`. -/
def ipcMaxSize : ℕ := 8192

/-- `SW_BUFFER_SIZE`, the payload of one inter-process message; it is also the
initial size of a connection's input buffer and the most one reader asks for. -/
def bufferSize : ℕ := ipcMaxSize - dataHeadSize

end Swoole
