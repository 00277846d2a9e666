import Swoole.Core.Hash
import Swoole.Library.Assoc

/-!
# `swTable`

The shared-memory table: an array of root rows indexed by the hash of the key, and
for every root a chain of collision rows from a pool.  `swTableRow_get`,
`swTableRow_set` and `swTableRow_del` walk root and chain and compare keys with
`strncmp`; they are modelled for sequential use, without the row locks.

The memory is modelled row by row.  A row is its header, its key field of
`SW_TABLE_KEY_SIZE` bytes and its data area; a chain is the list of its rows, so
`row->next` is the tail of the list, and a slice from the pool is new memory with
arbitrary old data.  `rowsList`, `listN` and `listIndex` are the list of active roots
for the iterator.

`owner` is the key a row was created or last reused for; the source has no such
field.  It moves with a row, as the data does.
-/

namespace Swoole

open Function List

/-- `SW_TABLE_KEY_SIZE`. -/
def tableKeySize : ℕ := 64

/-- `strncmp(a, b, n) == 0`: the comparison ends at a null byte. -/
def strncmpEq : ℕ → Bytes → Bytes → Bool
  | 0, _, _ => true
  | n + 1, a :: as, b :: bs => if a = b then (if a = 0 then true else strncmpEq n as bs) else false
  | _ + 1, _, _ => false

/-- `strlen`; `none` runs out of the memory given. -/
def strlen (memory : Bytes) : Option ℕ := memory.findIdx? (· = 0)

/-- `swTableRow`. -/
structure TableRow where
  active : Bool
  listIndex : ℕ
  key : Bytes
  data : Bytes
  owner : Bytes
  deriving DecidableEq, Repr

namespace TableRow

/-- `bzero(row, sizeof(swTableRow))`: the header and the key, not the data behind. -/
def zero (data : Bytes) : TableRow where
  active := false
  listIndex := 0
  key := replicate tableKeySize 0
  data := data
  owner := []

/-- `strncmp(row->key, key, keylen) == 0`. -/
def Matches (row : TableRow) (key : Bytes) : Bool := strncmpEq key.length row.key key

/-- `memcpy(row->key, key, keylen); row->active = 1;` -/
def occupy (row : TableRow) (key : Bytes) : TableRow :=
  { row with key := key ++ row.key.drop key.length, active := true, owner := key }

/-- `memcpy(row->key, tmp->key, n)` and `memcpy(row->data, tmp->data, item_size)`.
With `n` beyond the key field the first copy runs into the data area, which the
second one writes over. -/
def moveFrom (row tmp : TableRow) (n : ℕ) : TableRow :=
  { row with
    key := ((tmp.key ++ tmp.data).take n ++ (row.key ++ row.data).drop n).take tableKeySize
    data := tmp.data
    owner := tmp.owner }

end TableRow

/-- A root row and its chain. -/
structure Bucket where
  root : TableRow
  chain : List TableRow
  deriving DecidableEq, Repr

namespace Bucket

/-- Root and chain, in the order of the search. -/
def rows (b : Bucket) : List TableRow := b.root :: b.chain

/-- Change the row at an index. -/
def modify (b : Bucket) : ℕ → (TableRow → TableRow) → Bucket
  | 0, f => { b with root := f b.root }
  | i + 1, f => { b with chain := b.chain.modify i f }

@[simp] theorem rows_modify (b : Bucket) (i : ℕ) (f : TableRow → TableRow) :
    (b.modify i f).rows = b.rows.modify i f := by
  cases i with
  | zero => rfl
  | succ i => simp [modify, rows]

/-- `root->list_index = i`. -/
def setListIndex (b : Bucket) (i : ℕ) : Bucket := { b with root := { b.root with listIndex := i } }

end Bucket

/-- `swTable`.  `broken` records a copy that ran out of the memory of its row. -/
structure Table where
  size : ℕ
  rows : ℕ → Bucket
  rowsList : ℕ → Option ℕ
  listN : ℕ
  rowNum : ℕ
  skipCount : ℕ
  broken : Bool

/-- What the allocators answer to a `swTableRow_set`: the slice from the pool, with the
data its last user left, and whether `swTable_compress_list` gets its array. -/
structure TableMemory where
  slice : Option Bytes
  compress : Bool
  deriving DecidableEq, Repr

namespace Table

/-- The loop of `swTable_new` over the exponent. -/
def sizeExponent : ℕ → ℕ → ℕ → ℕ
  | 0, i, _ => i
  | fuel + 1, i, rowsSize => if 2 ^ i < rowsSize then sizeExponent fuel (i + 1) rowsSize else i

/-- The size `swTable_new` rounds up to. -/
def roundSize (rowsSize : ℕ) : ℕ :=
  if 0x80000000 ≤ rowsSize then 0x80000000 else 2 ^ sizeExponent 22 10 rowsSize

/-- `swTable_new` and `swTable_create`, for rows of `itemSize` bytes. -/
def new (rowsSize itemSize : ℕ) : Table where
  size := roundSize rowsSize
  rows := fun _ => ⟨.zero (replicate itemSize 0), []⟩
  rowsList := fun _ => none
  listN := 0
  rowNum := 0
  skipCount := 0
  broken := false

variable (t : Table)

/-- `swTable_hash`, as an index. -/
def index (key : Bytes) : ℕ := (hashAustin key).toNat &&& (t.size - 1)

/-- `compress_threshold`. -/
def compressThreshold : ℕ := t.size / 2

def setBucket (i : ℕ) (b : Bucket) : Table := { t with rows := update t.rows i b }

/-- `swTable_compress_list`: close the gaps in the list of active roots. -/
def compressList (malloc : Bool) : Table :=
  if malloc then
    let live := (range t.listN).filterMap t.rowsList
    { t with
      rows := live.zipIdx.foldl
        (fun rows e => update rows e.1 ((rows e.1).setListIndex e.2)) t.rows
      rowsList := fun i => if i < live.length then live[i]? else t.rowsList i
      listN := live.length }
  else t

/-- `swTableRow_get`. -/
def get (key : Bytes) : Option TableRow :=
  let key := key.take tableKeySize
  match (t.rows (t.index key)).rows.find? (·.Matches key) with
  | none => none
  | some row => if row.active then some row else none

/-- `swTableRow_set` on an active root: reuse the row that matches, or chain one. -/
def setActive (key : Bytes) (i : ℕ) (mem : TableMemory) : Table × Option ℕ :=
  let b := t.rows i
  match b.rows.findIdx? (·.Matches key) with
  | some j => (t.setBucket i (b.modify j (·.occupy key)), some j)
  | none =>
    match mem.slice with
    | none => (t, none)
    | some old =>
      ({ t.setBucket i { b with chain := b.chain ++ [(TableRow.zero old).occupy key] } with
          rowNum := t.rowNum + 1 }, some b.rows.length)

/-- `swTableRow_set` on an inactive root: enter it into the list of active ones. -/
def setInactive (key : Bytes) (i : ℕ) (mem : TableMemory) : Table × Option ℕ :=
  let t' := if t.size - 1 ≤ t.listN then t.compressList mem.compress else t
  let root := { (t'.rows i).root with listIndex := t'.listN }
  ({ t'.setBucket i { t'.rows i with root := root.occupy key } with
      rowsList := update t'.rowsList t'.listN (some i)
      listN := t'.listN + 1
      rowNum := t.rowNum + 1 }, some 0)

/-- `swTableRow_set`; the row it returns is given by its place in the bucket. -/
def set (key : Bytes) (mem : TableMemory) : Table × Option ℕ :=
  let key := key.take tableKeySize
  let i := t.index key
  if (t.rows i).root.active then t.setActive key i mem else t.setInactive key i mem

/-- What the caller of `swTableRow_set` writes into the columns of the row. -/
def write (key : Bytes) (j : ℕ) (data : Bytes) : Table :=
  let i := t.index (key.take tableKeySize)
  t.setBucket i ((t.rows i).modify j fun row => { row with data := data })

/-- `swTableRow_del` of a root without a chain. -/
def delRoot (i : ℕ) (malloc : Bool) : Table :=
  let t' := { t with rowsList := update t.rowsList (t.rows i).root.listIndex none }
  let t' := if t.compressThreshold < t.skipCount then t'.compressList malloc else t'
  { t'.setBucket i ⟨.zero (t.rows i).root.data, []⟩ with rowNum := t.rowNum - 1 }

/-- `swTableRow_del` of a root with the chain `tmp :: rest`: the first row of the chain
moves into the root.  If its key has no end in the row, the call does not come to its end. -/
def delMove (i : ℕ) (tmp : TableRow) (rest : List TableRow) (malloc : Bool) : Table × Ret :=
  match strlen (tmp.key ++ tmp.data) with
  | none => ({ t with broken := true }, .err)
  | some n =>
    let t' := if t.compressThreshold < t.skipCount then t.compressList malloc else t
    ({ t'.setBucket i ⟨(t'.rows i).root.moveFrom tmp n, rest⟩ with rowNum := t.rowNum - 1 }, .ok)

/-- `swTableRow_del` of a row inside the chain. -/
def delChain (i j : ℕ) : Table :=
  { t.setBucket i { t.rows i with chain := (t.rows i).chain.eraseIdx j } with
    rowNum := t.rowNum - 1 }

/-- `swTableRow_del`. -/
def del (key : Bytes) (malloc : Bool) : Table × Ret :=
  let key := key.take tableKeySize
  let i := t.index key
  let b := t.rows i
  if b.root.active then
    match b.chain with
    | [] => if b.root.Matches key then (t.delRoot i malloc, .ok) else (t, .err)
    | tmp :: rest =>
      match b.rows.findIdx? (·.Matches key) with
      | none => (t, .err)
      | some 0 => t.delMove i tmp rest malloc
      | some (j + 1) => (t.delChain i j, .ok)
  else (t, .err)

end Table

end Swoole
