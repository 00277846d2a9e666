import Swoole.Library.StepRun
import Swoole.Memory.Table
import Mathlib.Data.List.InsertIdx
import Mathlib.Data.List.TakeWhile

/-!
# The rows of a table

What the calls do to the buckets.  A bucket is looked at through its entries, one for each row in
use: the text of the key field, the data and the owner.  A set enters one, `enter`; a delete takes
one out, and may move another one into the root.

* `Deletes`, `del_cases` — what `swTableRow_del` does;
* `Bucket.Sound` — rows in use have a whole key field, and an inactive root is empty;
* `Table.Changes` — one bucket has other entries, everything else is as it was;
* `set_changes`, `delRoot_changes`, `delMove_changes`, `delChain_changes` — the calls.
-/

open Function List

namespace Swoole

/-! ## Calls -/

/-- A call, with what the allocators answer and, for a set, the data that the caller
writes into the row. -/
inductive TableOp where
  | get (key : Bytes)
  | set (key : Bytes) (mem : TableMemory) (data : Bytes)
  | del (key : Bytes) (malloc : Bool)
  deriving DecidableEq, Repr

namespace Table

/-- One call. -/
def step (t : Table) : TableOp → Table
  | .get _ => t
  | .set key mem data =>
    match t.set key mem with
    | (t', none) => t'
    | (t', some j) => t'.write key j data
  | .del key malloc => (t.del key malloc).1

/-- The place of the row that `swTableRow_get` returns: its bucket, and its index in
the chain. -/
def find (t : Table) (key : Bytes) : Option (ℕ × ℕ) :=
  if (t.rows (t.index key)).root.active then
    ((t.rows (t.index key)).rows.findIdx? (·.Matches key)).map fun j => (t.index key, j)
  else none

end Table

/-! ## Keys in rows -/

theorem strncmpEq_of_isPrefix {key memory : Bytes} (h : key <+: memory) :
    strncmpEq key.length memory key = true := by
  obtain ⟨rest, rfl⟩ := h
  induction key with
  | nil => rfl
  | cons a key ih =>
    simp only [length_cons, cons_append, strncmpEq, if_true]
    split
    · rfl
    · exact ih

/-- A key in a field of zeros. -/
def padKey (key : Bytes) : Bytes := key ++ replicate (tableKeySize - key.length) 0

theorem length_padKey {key : Bytes} (h : key.length ≤ tableKeySize) :
    (padKey key).length = tableKeySize := by
  simp only [padKey, length_append, length_replicate]
  omega

/-- A key field up to the first null byte. -/
def keyText (field : Bytes) : Bytes := field.takeWhile (· ≠ 0)

variable (field : Bytes)

theorem keyText_cons (a : UInt8) (field : Bytes) :
    keyText (a :: field) = if a = 0 then [] else a :: keyText field := by
  by_cases ha : a = 0 <;> simp [keyText, ha]

theorem keyText_keyText : keyText (keyText field) = keyText field := takeWhile_idem ..

theorem length_keyText_le : (keyText field).length ≤ field.length :=
  (takeWhile_sublist _).length_le

theorem keyText_padKey (key : Bytes) : keyText (padKey key) = keyText key := by
  unfold padKey
  generalize tableKeySize - key.length = n
  induction key with
  | nil => cases n <;> simp [keyText, replicate_succ]
  | cons a key ih => rw [cons_append, keyText_cons, keyText_cons, ih]

theorem keyText_append_of_forall {front : Bytes} (h : ∀ b ∈ front, b ≠ 0) (back : Bytes) :
    keyText (front ++ back) = front ++ keyText back := by
  exact takeWhile_append_of_pos (by simpa using h)

/-- `strncmp` does not look behind the first null byte of a field. -/
theorem strncmpEq_congr : ∀ (n : ℕ) {field field' : Bytes} (key : Bytes),
    field.length = field'.length → keyText field = keyText field' →
      strncmpEq n field key = strncmpEq n field' key := by
  intro n
  induction n with
  | zero => intros; rfl
  | succ n ih =>
    intro field field' key hlen htext
    cases field with
    | nil => rw [length_eq_zero_iff.mp hlen.symm]
    | cons a field =>
      cases field' with
      | nil => simp at hlen
      | cons a' field' =>
        cases key with
        | nil => rfl
        | cons b key =>
          rw [keyText_cons, keyText_cons] at htext
          by_cases ha : a = 0
          · have ha' : a' = 0 := by
              by_contra hne
              simp [ha, hne] at htext
            simp [strncmpEq, ha, ha']
          · have ha' : a' ≠ 0 := by
              intro heq
              simp [ha, heq] at htext
            rw [if_neg ha, if_neg ha'] at htext
            obtain ⟨hhead, hrest⟩ := cons.inj htext
            subst hhead
            simp only [strncmpEq, if_neg ha]
            rw [ih key (by simpa using hlen) hrest]

theorem keyText_occupy : ∀ (key field : Bytes), key.length ≤ field.length →
    strncmpEq key.length field key = true →
      keyText (key ++ field.drop key.length) = keyText field := by
  intro key
  induction key with
  | nil => simp
  | cons b key ih =>
    intro field hle hmatch
    cases field with
    | nil => simp at hle
    | cons a field =>
      simp only [length_cons, strncmpEq] at hmatch
      split at hmatch
      · next heq =>
        subst heq
        simp only [cons_append, length_cons, drop_succ_cons, keyText_cons]
        by_cases ha : a = 0
        · rw [if_pos ha, if_pos ha]
        · rw [if_neg ha, if_neg ha]
          rw [if_neg ha] at hmatch
          rw [ih field (by simpa using hle) hmatch]
      · cases hmatch

/-! ## Rows in use -/

namespace Bucket

/-- The rows in use. -/
def live (b : Bucket) : List TableRow := if b.root.active then b.rows else []

theorem live_of_active {b : Bucket} (h : b.root.active = true) : b.live = b.rows := if_pos h

theorem live_of_inactive {b : Bucket} (h : b.root.active = false) : b.live = [] := by
  simp [live, h]

end Bucket

namespace Table

variable {t : Table} {key : Bytes}

/-- What compressing the list of active roots leaves of a table: of the buckets it touches
nothing but the list indices of their roots. -/
structure Compressed (t t' : Table) : Prop where
  rows : ∀ i, ∃ n, t'.rows i = (t.rows i).setListIndex n
  size : t'.size = t.size
  rowNum : t'.rowNum = t.rowNum
  broken : t'.broken = t.broken
  listN_le : t'.listN ≤ t.listN

theorem Compressed.index {t' : Table} (h : t.Compressed t') : t'.index = t.index := by
  unfold Table.index
  rw [h.size]

/-- One round of `swTable_compress_list`. -/
def reindex (rows : ℕ → Bucket) (e : ℕ × ℕ) : ℕ → Bucket :=
  update rows e.1 ((rows e.1).setListIndex e.2)

theorem compressed (t : Table) (malloc : Bool) : t.Compressed (t.compressList malloc) := by
  have hfold : ∀ (l : List (ℕ × ℕ)) (rows : ℕ → Bucket) (i : ℕ),
      ∃ n, l.foldl reindex rows i = (rows i).setListIndex n := by
    intro l rows i
    induction l generalizing rows with
    | nil => exact ⟨(rows i).root.listIndex, rfl⟩
    | cons e l ih =>
      obtain ⟨n, hn⟩ := ih (reindex rows e)
      rw [foldl_cons, hn, reindex]
      by_cases hi : i = e.1
      · subst hi
        exact ⟨n, by rw [update_self]; rfl⟩
      · exact ⟨n, by rw [update_of_ne hi]⟩
  unfold compressList
  split
  · exact ⟨hfold _ t.rows, rfl, rfl, rfl, (length_filterMap_le _ _).trans length_range.le⟩
  · exact ⟨fun i => ⟨(t.rows i).root.listIndex, rfl⟩, rfl, rfl, rfl, le_rfl⟩

theorem compressed_if (t : Table) (c : Prop) [Decidable c] (malloc : Bool) :
    t.Compressed (if c then t.compressList malloc else t) := by
  split
  · exact t.compressed malloc
  · exact t.compressed false

/-- A fresh row, or a root that was not in use, holds a key and zeros. -/
theorem occupy_of_zero {row : TableRow} (hkey : row.key = padKey []) :
    (row.occupy key).key = padKey key := by
  show key ++ row.key.drop key.length = key ++ replicate (tableKeySize - key.length) 0
  rw [hkey]
  simp [padKey]

/-- What `swTableRow_set` does, for a key that fits the field: it takes the row that matches, or
a slice of the pool if there is one, or the root. -/
inductive Sets (t : Table) (key : Bytes) (mem : TableMemory) : Table × Option ℕ → Prop
  | reuse {j : ℕ} (hact : (t.rows (t.index key)).root.active = true)
      (hfind : (t.rows (t.index key)).rows.findIdx? (·.Matches key) = some j) :
      Sets t key mem
        (t.setBucket (t.index key) ((t.rows (t.index key)).modify j (·.occupy key)), some j)
  | full (hact : (t.rows (t.index key)).root.active = true)
      (hfind : (t.rows (t.index key)).rows.findIdx? (·.Matches key) = none)
      (hslice : mem.slice = none) : Sets t key mem (t, none)
  | extend {old : Bytes} (hact : (t.rows (t.index key)).root.active = true)
      (hfind : (t.rows (t.index key)).rows.findIdx? (·.Matches key) = none)
      (hslice : mem.slice = some old) :
      Sets t key mem
        ({ t.setBucket (t.index key) { t.rows (t.index key) with
            chain := (t.rows (t.index key)).chain ++ [(TableRow.zero old).occupy key] } with
          rowNum := t.rowNum + 1 }, some (t.rows (t.index key)).rows.length)
  | fill (hinactive : (t.rows (t.index key)).root.active = false) :
      Sets t key mem (t.setInactive key (t.index key) mem)

theorem set_cases (t : Table) (key : Bytes) (mem : TableMemory) :
    t.Sets (key.take tableKeySize) mem (t.set key mem) := by
  unfold Table.set
  simp only
  generalize key.take tableKeySize = key
  split
  next hact =>
    unfold setActive
    simp only
    split
    next j hfind => exact .reuse hact hfind
    next hfind =>
      split
      next hslice => exact .full hact hfind hslice
      next old hslice => exact .extend hact hfind hslice
  next hinactive => exact .fill (by simpa using hinactive)

/-- What `swTableRow_del` does, for a key that fits the field. -/
inductive Deletes (t : Table) (key : Bytes) (malloc : Bool) : Table × Ret → Prop
  | absent (h : ∀ row ∈ (t.rows (t.index key)).live, row.Matches key = false) :
      Deletes t key malloc (t, .err)
  | root (hact : (t.rows (t.index key)).root.active = true)
      (hchain : (t.rows (t.index key)).chain = [])
      (hroot : (t.rows (t.index key)).root.Matches key = true) :
      Deletes t key malloc (t.delRoot (t.index key) malloc, .ok)
  | move {tmp : TableRow} {rest : List TableRow}
      (hact : (t.rows (t.index key)).root.active = true)
      (hchain : (t.rows (t.index key)).chain = tmp :: rest)
      (hroot : (t.rows (t.index key)).root.Matches key = true) :
      Deletes t key malloc (t.delMove (t.index key) tmp rest malloc)
  | chain {j : ℕ} (hact : (t.rows (t.index key)).root.active = true)
      (hfind : (t.rows (t.index key)).rows.findIdx? (·.Matches key) = some (j + 1)) :
      Deletes t key malloc (t.delChain (t.index key) j, .ok)

theorem del_cases (t : Table) (key : Bytes) (malloc : Bool) :
    t.Deletes (key.take tableKeySize) malloc (t.del key malloc) := by
  unfold Table.del
  simp only
  generalize key.take tableKeySize = key
  split
  next hact =>
    have hlive := Bucket.live_of_active hact
    split
    next hchain =>
      split
      next hroot => exact .root hact hchain hroot
      next hroot =>
        refine .absent ?_
        rw [hlive, Bucket.rows, hchain]
        simpa using hroot
    next tmp rest hchain =>
      split
      next hfind => exact .absent (hlive ▸ findIdx?_eq_none_iff.mp hfind)
      next hfind => exact .move hact hchain (findIdx?_eq_some_iff_getElem.mp hfind).2.1
      next j hfind => exact .chain hact hfind
  next hinactive =>
    refine .absent ?_
    rw [Bucket.live_of_inactive (by simpa using hinactive)]
    exact forall_mem_nil _

end Table

/-! ## Entries -/

/-- What can be read of a row, and whose it is. -/
structure TableEntry where
  text : Bytes
  data : Bytes
  owner : Bytes
  deriving DecidableEq, Repr

namespace TableEntry

/-- `strncmp` with a key field of this text. -/
def answers (e : TableEntry) (key : Bytes) : Bool := strncmpEq key.length (padKey e.text) key

/-- The text of the key and the data. -/
def look (e : TableEntry) : Bytes × Bytes := (e.text, e.data)

variable {e : TableEntry}

theorem answers_congr {e' : TableEntry} (h : e.text = e'.text) : e.answers = e'.answers := by
  funext key
  rw [answers, answers, h]

/-- Set a key: the first entry that answers to it takes the data and changes hands, or
there is a new one. -/
def enter (key data : Bytes) : List TableEntry → List TableEntry
  | [] => [⟨keyText key, data, key⟩]
  | e :: l => if e.answers key then ⟨e.text, data, key⟩ :: l else e :: enter key data l

variable {key data : Bytes} {l : List TableEntry}

theorem enter_split {front : List TableEntry} (back : List TableEntry)
    (hfront : ∀ x ∈ front, x.answers key = false) (he : e.answers key = true) :
    enter key data (front ++ e :: back) = front ++ ⟨e.text, data, key⟩ :: back := by
  induction front with
  | nil => simp [enter, he]
  | cons x front ih =>
    have hx := hfront x mem_cons_self
    simp [enter, hx, ih fun y hy => hfront y (mem_cons_of_mem x hy)]

theorem enter_of_forall (h : ∀ e ∈ l, e.answers key = false) :
    enter key data l = l ++ [⟨keyText key, data, key⟩] := by
  induction l with
  | nil => rfl
  | cons x l ih =>
    have hx := h x mem_cons_self
    simp [enter, hx, ih fun y hy => h y (mem_cons_of_mem x hy)]

theorem mem_enter (h : e ∈ enter key data l) : e ∈ l ∨ e.owner = key := by
  induction l with
  | nil =>
    obtain rfl := mem_singleton.mp h
    exact .inr rfl
  | cons x l ih =>
    simp only [enter] at h
    split at h
    · rcases mem_cons.mp h with rfl | h
      · exact .inr rfl
      · exact .inl (mem_cons_of_mem x h)
    · rcases mem_cons.mp h with rfl | h
      · exact .inl mem_cons_self
      · exact (ih h).imp_left (mem_cons_of_mem x)

theorem answers_keyText (hlen : key.length ≤ tableKeySize) :
    TableEntry.answers ⟨keyText key, data, key⟩ key = true := by
  have hfield : (padKey (keyText key)).length = (padKey key).length := by
    rw [length_padKey hlen, length_padKey ((length_keyText_le key).trans hlen)]
  have htext : keyText (padKey (keyText key)) = keyText (padKey key) := by
    rw [keyText_padKey, keyText_padKey, keyText_keyText]
  rw [answers, strncmpEq_congr _ key hfield htext]
  exact strncmpEq_of_isPrefix (prefix_append _ _)

theorem finds_enter (h : Assoc.Finds answers owner l) (hlen : key.length ≤ tableKeySize) :
    Assoc.Finds answers owner (enter key data l) := by
  cases hidx : l.findIdx? (·.answers key) with
  | some j =>
    obtain ⟨front, e, back, rfl, -, he, hfront⟩ := Assoc.split_of_findIdx? hidx
    rw [enter_split back hfront he]
    exact h.replace (answers_congr rfl) he hfront
  | none =>
    have hnone : ∀ e ∈ l, e.answers key = false := findIdx?_eq_none_iff.mp hidx
    rw [enter_of_forall hnone]
    exact h.concat (answers_keyText hlen) hnone

end TableEntry

/-! ## Rows and buckets -/

namespace TableRow

def entry (row : TableRow) : TableEntry := ⟨keyText row.key, row.data, row.owner⟩

/-- The text of the key and the data. -/
def look (row : TableRow) : Bytes × Bytes := (keyText row.key, row.data)

theorem matches_eq {row : TableRow} (h : row.key.length = tableKeySize) (key : Bytes) :
    row.Matches key = row.entry.answers key := by
  refine strncmpEq_congr _ key ?_ ?_
  · rw [h]
    exact (length_padKey ((length_keyText_le row.key).trans h.le)).symm
  · show keyText row.key = keyText (padKey (keyText row.key))
    rw [keyText_padKey, keyText_keyText]

variable {tmp : TableRow} {n : ℕ}

theorem length_moveFrom {root : TableRow} (hroot : root.key.length = tableKeySize)
    (hn : strlen (tmp.key ++ tmp.data) = some n) :
    (root.moveFrom tmp n).key.length = tableKeySize := by
  obtain ⟨hlt, -, -⟩ := findIdx?_eq_some_iff_getElem.mp hn
  show (take tableKeySize _).length = tableKeySize
  simp only [length_take, length_append, length_drop] at hlt ⊢
  omega

end TableRow

namespace Bucket

open TableRow (entry matches_eq occupy zero)

def entries (b : Bucket) : List TableEntry := b.live.map entry

/-- Rows in use have a whole key field, and an inactive root is empty. -/
structure Sound (b : Bucket) : Prop where
  live : ∀ row ∈ b.live, row.active = true ∧ row.key.length = tableKeySize
  inactive : b.root.active = false → b.chain = [] ∧ b.root.key = padKey []

theorem entries_setListIndex (b : Bucket) (n : ℕ) : (b.setListIndex n).entries = b.entries := by
  cases hact : b.root.active <;>
    simp [entries, live, setListIndex, rows, hact, entry]

theorem Sound.setListIndex {b : Bucket} (h : b.Sound) (n : ℕ) : (b.setListIndex n).Sound where
  live := by
    intro row hrow
    have hlive := h.live
    cases hact : b.root.active with
    | false =>
      rw [live_of_inactive (show (b.setListIndex n).root.active = false from hact)] at hrow
      exact absurd hrow not_mem_nil
    | true =>
      rw [live_of_active hact] at hlive
      rw [live_of_active (show (b.setListIndex n).root.active = true from hact)] at hrow
      rcases mem_cons.mp hrow with rfl | hchain
      · exact hlive b.root mem_cons_self
      · exact hlive row (mem_cons_of_mem _ hchain)
  inactive := h.inactive

variable {b : Bucket} {key : Bytes}

/-- The searches through the rows in use are searches through the entries. -/
theorem Sound.findIdx?_entries (h : b.Sound) (key : Bytes) :
    b.entries.findIdx? (·.answers key) = b.live.findIdx? (·.Matches key) := by
  rw [entries, findIdx?_map]
  have hlive := h.live
  generalize b.live = l at hlive ⊢
  induction l with
  | nil => rfl
  | cons row l ih =>
    rw [findIdx?_cons, findIdx?_cons, ih fun r hr => hlive r (mem_cons_of_mem row hr),
      matches_eq (hlive row mem_cons_self).2]
    rfl

theorem Sound.find?_entries (h : b.Sound) (key : Bytes) :
    b.entries.find? (·.answers key) = (b.live.find? (·.Matches key)).map entry := by
  rw [entries, find?_map]
  congr 1
  exact find?_congr fun row hrow => (matches_eq (h.live row hrow).2 key).symm

theorem entries_of_active (hact : b.root.active = true) :
    b.entries = b.rows.map entry := by
  rw [entries, live_of_active hact]

theorem entries_of_inactive (hinactive : b.root.active = false) : b.entries = [] := by
  rw [entries, live_of_inactive hinactive, map_nil]

theorem sound_of_active (hact : b.root.active = true)
    (h : ∀ row ∈ b.rows, row.active = true ∧ row.key.length = tableKeySize) : b.Sound where
  live := by rwa [live_of_active hact]
  inactive := fun hinactive => absurd (hact.symm.trans hinactive) (by decide)

theorem entry_of_zero {row : TableRow} (hkey : row.key = padKey key) (howner : row.owner = key) :
    row.entry = ⟨keyText key, row.data, key⟩ := by
  rw [entry, hkey, howner, keyText_padKey]

variable (h : b.Sound) (hlen : key.length ≤ tableKeySize)
include h hlen

theorem Sound.reuse (hact : b.root.active = true) {j : ℕ}
    (hidx : b.rows.findIdx? (·.Matches key) = some j) (data : Bytes) :
    let b' := (b.modify j (·.occupy key)).modify j fun row => { row with data := data }
    b'.Sound ∧ b'.entries = TableEntry.enter key data b.entries := by
  intro b'
  have hlive := h.live
  rw [live_of_active hact] at hlive
  obtain ⟨front, r, back, hsplit, rfl, hr, hfront⟩ := Assoc.split_of_findIdx? hidx
  rw [hsplit] at hlive
  have hlength := (hlive r (by simp)).2
  have hrows : b'.rows = front ++ { r.occupy key with data := data } :: back := by
    simp only [b', rows_modify, hsplit]
    rw [Assoc.modify_split, Assoc.modify_split]
  have hactive' : b'.root.active = true := by
    cases front <;> first | rfl | exact hact
  have htext : keyText (r.occupy key).key = keyText r.key :=
    keyText_occupy key r.key (by omega) hr
  constructor
  · refine sound_of_active hactive' fun row hrow => ?_
    rw [hrows] at hrow
    rcases mem_append.mp hrow with hrow | hrow
    · exact hlive row (by simp [hrow])
    · rcases mem_cons.mp hrow with rfl | hrow
      · refine ⟨rfl, ?_⟩
        simp only [occupy, length_append, length_drop]
        omega
      · exact hlive row (by simp [hrow])
  · rw [entries_of_active hactive', entries_of_active hact, hrows, hsplit, map_append,
      map_append, map_cons, map_cons, TableEntry.enter_split]
    · have hentry : entry { r.occupy key with data := data } = ⟨r.entry.text, data, key⟩ :=
        congrArg (TableEntry.mk · data key) htext
      rw [hentry]
    · intro e he
      obtain ⟨row, hrow, rfl⟩ := mem_map.mp he
      rw [← matches_eq (hlive row (by simp [hrow])).2]
      exact hfront row hrow
    · rw [← matches_eq hlength]
      exact hr

theorem Sound.extend (hact : b.root.active = true)
    (hidx : b.rows.findIdx? (·.Matches key) = none) (old data : Bytes) :
    let b' := { b with chain := b.chain ++ [(zero old).occupy key] }.modify
      b.rows.length fun row => { row with data := data }
    b'.Sound ∧ b'.entries = TableEntry.enter key data b.entries := by
  intro b'
  have hlive := h.live
  rw [live_of_active hact] at hlive
  set new : TableRow := { (zero old).occupy key with data := data }
  have hkey : new.key = padKey key := Table.occupy_of_zero rfl
  have hrows : b'.rows = b.rows ++ [new] := by
    exact Assoc.modify_split b.rows _ [] _
  have hactive' : b'.root.active = true := hact
  constructor
  · refine sound_of_active hactive' fun row hrow => ?_
    rw [hrows] at hrow
    rcases mem_append.mp hrow with hrow | hrow
    · exact hlive row hrow
    · obtain rfl := mem_singleton.mp hrow
      exact ⟨rfl, by rw [hkey, length_padKey hlen]⟩
  · have hnone : ∀ e ∈ b.entries, e.answers key = false := by
      rw [← findIdx?_eq_none_iff, h.findIdx?_entries, live_of_active hact]
      exact hidx
    rw [TableEntry.enter_of_forall hnone, entries_of_active hactive', hrows, map_append,
      ← entries_of_active hact, map_singleton, entry_of_zero hkey rfl]

theorem Sound.fill (hinactive : b.root.active = false) (listIndex : ℕ) (data : Bytes) :
    let b' := { b with root := { b.root with listIndex := listIndex }.occupy key }.modify 0
      fun row => { row with data := data }
    b'.Sound ∧ b'.entries = TableEntry.enter key data b.entries := by
  intro b'
  obtain ⟨hchain, hzero⟩ := h.inactive hinactive
  have hkey : b'.root.key = padKey key := Table.occupy_of_zero hzero
  have hrows : b'.rows = [b'.root] := by
    show b'.root :: b.chain = _
    rw [hchain]
  constructor
  · refine sound_of_active rfl fun row hrow => ?_
    rw [hrows] at hrow
    obtain rfl := mem_singleton.mp hrow
    exact ⟨rfl, by rw [hkey, length_padKey hlen]⟩
  · rw [entries_of_active rfl, hrows, map_singleton, entry_of_zero hkey rfl,
      entries_of_inactive hinactive]
    rfl

end Bucket

/-! ## The operations on entries -/

namespace Table

variable {t t' : Table} {key data : Bytes} {i j : ℕ} {l : List TableEntry}

def entries (t : Table) (i : ℕ) : List TableEntry := (t.rows i).entries

def Sound (t : Table) : Prop := ∀ i, (t.rows i).Sound

/-- `t'` is `t` with the entries `l` in the bucket `i`. -/
structure Changes (t t' : Table) (i : ℕ) (l : List TableEntry) : Prop where
  index : t'.index = t.index
  sound : t'.Sound
  broken : t'.broken = t.broken
  entries : t'.entries = Function.update t.entries i l

theorem changes_self (h : t.Sound) (i : ℕ) : Changes t t i (t.entries i) :=
  ⟨rfl, h, rfl, (update_eq_self i t.entries).symm⟩

theorem changes_of_rows {rows : ℕ → Bucket} {b : Bucket} (h : t.Sound) (hindex : t'.index = t.index)
    (hbroken : t'.broken = t.broken) (hrows : t'.rows = update rows i b)
    (hsame : ∀ k, ∃ n, rows k = (t.rows k).setListIndex n) (hb : b.Sound) (hl : b.entries = l) :
    Changes t t' i l := by
  refine ⟨hindex, fun k => ?_, hbroken, funext fun k => ?_⟩
  · rw [hrows]
    by_cases hk : k = i
    · rwa [hk, update_self]
    · rw [update_of_ne hk]
      obtain ⟨n, hn⟩ := hsame k
      rw [hn]
      exact (h k).setListIndex n
  · rw [Table.entries, hrows]
    by_cases hk : k = i
    · rw [hk, update_self, update_self, hl]
    · rw [update_of_ne hk, update_of_ne hk]
      obtain ⟨n, hn⟩ := hsame k
      rw [hn, Bucket.entries_setListIndex]
      rfl

variable (h : t.Sound)
include h

theorem get_of_active (hact : (t.rows (t.index (key.take tableKeySize))).root.active = true) :
    t.get key = (t.rows (t.index (key.take tableKeySize))).rows.find?
      (·.Matches (key.take tableKeySize)) := by
  unfold get
  simp only
  cases hfound : (t.rows (t.index (key.take tableKeySize))).rows.find?
      (·.Matches (key.take tableKeySize)) with
  | none => rfl
  | some row =>
    have hrow := (h _).live row
      (by rw [Bucket.live_of_active hact]; exact mem_of_find?_eq_some hfound)
    exact if_pos hrow.1

theorem get_of_inactive
    (hinactive : (t.rows (t.index (key.take tableKeySize))).root.active = false) :
    t.get key = none := by
  unfold get
  simp only [Bucket.rows, ((h _).inactive hinactive).1]
  cases hroot : (t.rows (t.index (key.take tableKeySize))).root.Matches (key.take tableKeySize) <;>
    simp [hroot, hinactive]

theorem look_get (hlen : key.length ≤ tableKeySize) :
    (t.get key).map TableRow.look =
      ((t.entries (t.index key)).find? (·.answers key)).map TableEntry.look := by
  have hkey := take_of_length_le hlen
  rw [entries, (h _).find?_entries]
  cases hact : (t.rows (t.index key)).root.active with
  | true =>
    rw [get_of_active h (by rwa [hkey]), hkey, Bucket.live_of_active hact, Option.map_map]
    rfl
  | false =>
    rw [get_of_inactive h (by rwa [hkey]), Bucket.live_of_inactive hact]
    rfl

theorem find_eq (key : Bytes) :
    t.find key =
      ((t.entries (t.index key)).findIdx? (·.answers key)).map fun j => (t.index key, j) := by
  unfold find
  rw [entries, (h _).findIdx?_entries]
  cases hact : (t.rows (t.index key)).root.active with
  | true => rw [if_pos rfl, Bucket.live_of_active hact]
  | false => rw [if_neg (by simp), Bucket.live_of_inactive hact]; rfl

theorem set_changes (hlen : key.length ≤ tableKeySize) (mem : TableMemory) (data : Bytes) :
    (t.set key mem).2 = none ∧ t.step (.set key mem data) = t ∨
      (t.set key mem).2.isSome ∧ Changes t (t.step (.set key mem data)) (t.index key)
        (TableEntry.enter key data (t.entries (t.index key))) := by
  have hb := h (t.index key)
  have hwrite : ∀ {t₁ : Table} {rows : ℕ → Bucket} {b : Bucket} {j : ℕ}, t₁.index = t.index →
      t₁.broken = t.broken → t₁.rows = update rows (t.index key) b →
      (∀ k, ∃ n, rows k = (t.rows k).setListIndex n) →
      ((b.modify j fun row => { row with data := data }).Sound ∧
        (b.modify j fun row => { row with data := data }).entries =
          TableEntry.enter key data (t.entries (t.index key))) →
      Changes t (t₁.write key j data) (t.index key)
        (TableEntry.enter key data (t.entries (t.index key))) := by
    intro t₁ rows b j hindex hbroken hrows hsame hsound
    refine changes_of_rows h hindex hbroken ?_ hsame hsound.1 hsound.2
    show update t₁.rows _ _ = _
    rw [take_of_length_le hlen, hindex, hrows, update_self, update_idem]
  have hrefl : ∀ k, ∃ n, t.rows k = (t.rows k).setListIndex n :=
    fun k => ⟨(t.rows k).root.listIndex, rfl⟩
  have hcases := t.set_cases key mem
  rw [take_of_length_le hlen] at hcases
  simp only [step]
  generalize t.set key mem = r at hcases ⊢
  cases hcases with
  | reuse hact hfind =>
    exact .inr ⟨rfl, hwrite rfl rfl rfl hrefl (hb.reuse hlen hact hfind data)⟩
  | full => exact .inl ⟨rfl, rfl⟩
  | @extend old hact hfind =>
    exact .inr ⟨rfl, hwrite rfl rfl rfl hrefl (hb.extend hlen hact hfind old data)⟩
  | fill hinactive =>
    unfold setInactive
    have hcomp := t.compressed_if (t.size - 1 ≤ t.listN) mem.compress
    set t' := if t.size - 1 ≤ t.listN then t.compressList mem.compress else t
    obtain ⟨n, hn⟩ := hcomp.rows (t.index key)
    have hb' : (t'.rows (t.index key)).Sound := by
      rw [hn]
      exact hb.setListIndex n
    have hentries : (t'.rows (t.index key)).entries = t.entries (t.index key) := by
      rw [hn, Bucket.entries_setListIndex]
      rfl
    have hinactive' : (t'.rows (t.index key)).root.active = false := by
      rw [hn]
      exact hinactive
    have hfill := hb'.fill hlen hinactive' t'.listN data
    rw [hentries] at hfill
    exact .inr ⟨rfl, hwrite hcomp.index hcomp.broken rfl hcomp.rows hfill⟩

/-- The first row of the chain moves into the root, with the text that comes out of it. -/
theorem delMove_changes (hact : (t.rows i).root.active = true)
    {rest : List TableRow} (hchain : (t.rows i).chain = tmp :: rest)
    (hn : strlen (tmp.key ++ tmp.data) = some n) (malloc : Bool) :
    (t.delMove i tmp rest malloc).2 = .ok ∧ Changes t (t.delMove i tmp rest malloc).1 i
      (((t.rows i).root.moveFrom tmp n).entry :: rest.map TableRow.entry) := by
  have hlive := (h i).live
  rw [Bucket.live_of_active hact, Bucket.rows, hchain] at hlive
  unfold delMove
  simp only [hn, true_and]
  have hcomp := t.compressed_if (t.compressThreshold < t.skipCount) malloc
  set t' := if t.compressThreshold < t.skipCount then t.compressList malloc else t
  obtain ⟨m, hm⟩ := hcomp.rows i
  have hactive' : ((t'.rows i).root.moveFrom tmp n).active = true := by
    rw [hm]
    exact hact
  refine changes_of_rows h hcomp.index hcomp.broken rfl hcomp.rows
    (Bucket.sound_of_active hactive' fun row hrow => ?_) ?_
  · rcases mem_cons.mp hrow with rfl | hrow
    · refine ⟨hactive', TableRow.length_moveFrom ?_ hn⟩
      rw [hm]
      exact (hlive _ mem_cons_self).2
    · exact hlive row (by simp [hrow])
  · rw [show Bucket.entries ⟨(t'.rows i).root.moveFrom tmp n, rest⟩ = _ from
      Bucket.entries_of_active hactive', hm]
    rfl

theorem delChain_changes (hact : (t.rows i).root.active = true) (j : ℕ) :
    Changes t (t.delChain i j) i ((t.entries i).eraseIdx (j + 1)) := by
  have hlive := (h i).live
  rw [Bucket.live_of_active hact] at hlive
  refine changes_of_rows h rfl rfl rfl (fun k => ⟨(t.rows k).root.listIndex, rfl⟩)
    (Bucket.sound_of_active hact fun row hrow => ?_) ?_
  · exact hlive row ((eraseIdx_sublist (t.rows i).rows (j + 1)).subset hrow)
  · rw [entries, Bucket.entries_of_active hact, eraseIdx_map]
    exact Bucket.entries_of_active hact

theorem delRoot_changes (malloc : Bool) : Changes t (t.delRoot i malloc) i [] := by
  unfold delRoot
  set t₁ : Table := { t with rowsList := update t.rowsList (t.rows i).root.listIndex none }
  have hcomp := t₁.compressed_if (t.compressThreshold < t.skipCount) malloc
  refine changes_of_rows h hcomp.index hcomp.broken rfl hcomp.rows ⟨?_, fun _ => ⟨rfl, rfl⟩⟩ ?_
  · intro row hrow
    simp [Bucket.live, TableRow.zero] at hrow
  · exact Bucket.entries_of_inactive rfl

omit h

theorem del_take (t : Table) (key : Bytes) (malloc : Bool) :
    t.del key malloc = t.del (key.take tableKeySize) malloc := by
  simp only [del, take_take, Nat.min_self]

theorem set_take (t : Table) (key : Bytes) (mem : TableMemory) :
    t.set key mem = t.set (key.take tableKeySize) mem := by
  simp only [set, take_take, Nat.min_self]

theorem step_set_take (t : Table) (key : Bytes) (mem : TableMemory) (data : Bytes) :
    t.step (.set key mem data) = t.step (.set (key.take tableKeySize) mem data) := by
  simp only [step, write, take_take, Nat.min_self]
  rw [set_take]

end Table

end Swoole
