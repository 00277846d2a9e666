import Mathlib.Algebra.Order.BigOperators.Group.Finset
import Swoole.Library.JumpList
import Swoole.Memory.TableMap

/-!
# The books of the table

`row_num` counts the rows in use, and `rows_list` lists the active roots for the iterator.  A
root enters the list when it becomes active and leaves a gap when it becomes inactive; a row
that moves from the chain into its root changes neither.  `swTable_compress_list` closes the
gaps, from `swTableRow_set` when the list is full, and from `swTableRow_del` when the iterator
has passed over many gaps.

* `Books` — the active roots are listed, and `row_num` is the number of active rows;
* `Books.keep`, `Books.enter`, `Books.leave`, `Books.compressList` — the four things that an
  operation is made of keep the books;
* `books_run` — so do all runs, whatever the allocators answer;
* `accounted_run` — if the list can be compressed, it never outgrows its memory.
-/

open Function List

namespace Swoole

open TableRow (occupy zero)

/-! ## The rows of a bucket -/

namespace Bucket

/-- The number of active rows. -/
def count (b : Bucket) : ℕ := b.rows.countP (·.active)

/-- A chain hangs on an active root, and all its rows are active. -/
structure Linked (b : Bucket) : Prop where
  chain_eq : b.root.active = false → b.chain = []
  chain_active : ∀ row ∈ b.chain, row.active = true

variable {b : Bucket}

theorem Linked.rows_active (h : b.Linked) (hactive : b.root.active = true) :
    ∀ row ∈ b.rows, row.active = true := by
  intro row hrow
  rcases mem_cons.mp hrow with rfl | hrow
  · exact hactive
  · exact h.chain_active row hrow

theorem Linked.count_eq (h : b.Linked) : b.count = b.live.length := by
  cases hactive : b.root.active with
  | true =>
    rw [live_of_active hactive]
    exact countP_eq_length.mpr (h.rows_active hactive)
  | false =>
    rw [live_of_inactive hactive, count, rows, h.chain_eq hactive]
    simp [hactive]

@[simp] theorem count_setListIndex (b : Bucket) (n : ℕ) : (b.setListIndex n).count = b.count := by
  simp [count, rows, setListIndex, countP_cons]

theorem Linked.setListIndex (h : b.Linked) (n : ℕ) : (b.setListIndex n).Linked :=
  ⟨h.chain_eq, h.chain_active⟩

/-- Whether a bucket is linked, and how many rows are in use, are matters of the rows in use. -/
theorem Linked.congr {b' : Bucket} (h : b.Linked)
    (hsame : b'.rows.map (·.active) = b.rows.map (·.active)) : b'.Linked ∧ b'.count = b.count := by
  have hcount : b'.count = b.count := by
    have hcount := congrArg (countP id) hsame
    rwa [countP_map, countP_map] at hcount
  obtain ⟨hroot, hchain⟩ := cons.inj hsame
  refine ⟨⟨fun hinactive => ?_, fun row hrow => ?_⟩, hcount⟩
  · rw [h.chain_eq (hroot.symm.trans hinactive)] at hchain
    exact map_eq_nil_iff.mp hchain
  · have hmem : row.active ∈ b.chain.map (·.active) := hchain ▸ mem_map_of_mem hrow
    obtain ⟨row', hrow', heq⟩ := mem_map.mp hmem
    exact heq.symm.trans (h.chain_active row' hrow')

theorem map_active_modify {l : List TableRow} {f : TableRow → TableRow}
    (hf : ∀ row ∈ l, (f row).active = row.active) (j : ℕ) :
    (l.modify j f).map (·.active) = l.map (·.active) := by
  induction l generalizing j with
  | nil => simp
  | cons a l ih =>
    have hl := ih fun row hrow => hf row (mem_cons_of_mem a hrow)
    cases j with
    | zero => simp [hf a mem_cons_self]
    | succ j => simp [hl j]

theorem linked_of_rows (h : ∀ row ∈ b.rows, row.active = true) : b.Linked where
  chain_eq := fun hinactive =>
    absurd ((h b.root mem_cons_self).symm.trans hinactive) (by decide)
  chain_active := fun row hrow => h row (mem_cons_of_mem _ hrow)

end Bucket

namespace Table

variable {t : Table} {i : ℕ}

/-- The number of active rows that the root rows lead to. -/
def activeRows (t : Table) : ℕ := ∑ i ∈ Finset.range t.size, (t.rows i).count

/-- The active roots. -/
def activeRoots (t : Table) : Set ℕ := {i | (t.rows i).root.active = true}

/-- The first `list_n` entries of `rows_list` are the active roots, each one at its
`list_index`, and gaps. -/
def Listed (t : Table) : Prop :=
  JumpList.Lists t.rowsList t.listN (fun i => (t.rows i).root.listIndex) t.activeRoots

/-- **The books are in order.** -/
structure Books (t : Table) : Prop where
  size_pos : 0 < t.size
  listed : t.Listed
  linked : ∀ i, (t.rows i).Linked
  within : ∀ i ∈ t.activeRoots, i < t.size
  rowNum_eq : t.rowNum = t.activeRows

theorem books_new (rowsSize itemSize : ℕ) : (new rowsSize itemSize).Books where
  size_pos := by
    show 0 < roundSize rowsSize
    unfold roundSize
    split_ifs
    · decide
    · exact Nat.two_pow_pos _
  listed := by
    have hempty : (new rowsSize itemSize).activeRoots = ∅ := by
      ext i
      simp [activeRoots, new, zero]
    rw [Listed, hempty]
    exact JumpList.lists_empty _ _
  linked := fun _ => ⟨fun _ => rfl, nofun⟩
  within := fun i hi => absurd hi (by simp [activeRoots, new, zero])
  rowNum_eq := by
    refine (Finset.sum_eq_zero fun i _ => ?_).symm
    rfl

theorem index_lt (h : 0 < t.size) (key : Bytes) : t.index key < t.size :=
  lt_of_le_of_lt Nat.and_le_right (Nat.sub_lt h one_pos)

/-! ## The four things that happen to the books -/

theorem activeRows_setBucket (hi : i < t.size) (b : Bucket) :
    (t.setBucket i b).activeRows + (t.rows i).count = t.activeRows + b.count := by
  have hmem : i ∈ Finset.range t.size := Finset.mem_range.mpr hi
  have hnew := Finset.add_sum_erase _ (fun j => (update t.rows i b j).count) hmem
  have hold := Finset.add_sum_erase _ (fun j => (t.rows j).count) hmem
  have hrest : ∑ j ∈ (Finset.range t.size).erase i, (update t.rows i b j).count =
      ∑ j ∈ (Finset.range t.size).erase i, (t.rows j).count :=
    Finset.sum_congr rfl fun j hj => by rw [update_of_ne (Finset.ne_of_mem_erase hj)]
  rw [update_self] at hnew
  show ∑ j ∈ Finset.range t.size, (update t.rows i b j).count + (t.rows i).count = _
  rw [activeRows]
  omega

theorem linked_update (h : ∀ j, (t.rows j).Linked) (hb : b.Linked) (j : ℕ) :
    (update t.rows i b j).Linked :=
  (forall_update_iff t.rows fun _ b => b.Linked).mpr ⟨hb, fun j _ => h j⟩ j

/-- The rows of a bucket change; the root keeps its place in the list. -/
theorem Books.keep (h : t.Books) (hi : i < t.size) (hb : b.Linked)
    (hroot : b.root.active = (t.rows i).root.active)
    (hindex : b.root.listIndex = (t.rows i).root.listIndex) {rowNum : ℕ}
    (hnum : rowNum + (t.rows i).count = t.rowNum + b.count) :
    ({ t.setBucket i b with rowNum := rowNum } : Table).Books := by
  have hsame := (forall_update_iff t.rows fun j b => b.root.active = (t.rows j).root.active ∧
    b.root.listIndex = (t.rows j).root.listIndex).mpr ⟨⟨hroot, hindex⟩, fun _ _ => ⟨rfl, rfl⟩⟩
  have hroots : ({ t.setBucket i b with rowNum := rowNum } : Table).activeRoots =
      t.activeRoots := by
    ext j
    show (update t.rows i b j).root.active = true ↔ _
    rw [(hsame j).1]
    rfl
  refine ⟨h.size_pos, ?_, linked_update h.linked hb, ?_, ?_⟩
  · rw [Listed, hroots]
    exact h.listed.congr fun j _ => (hsame j).2
  · rw [hroots]
    exact h.within
  · have hsum := activeRows_setBucket hi b
    have hold := h.rowNum_eq
    show rowNum = (t.setBucket i b).activeRows
    omega

theorem Books.enter (h : t.Books) (hi : i < t.size) (hinactive : (t.rows i).root.active = false)
    (hchain : b.chain = []) (hroot : b.root.active = true) (hindex : b.root.listIndex = t.listN) :
    ({ t.setBucket i b with
        rowsList := update t.rowsList t.listN (some i)
        listN := t.listN + 1
        rowNum := t.rowNum + 1 } : Table).Books := by
  have hroots : {j | (update t.rows i b j).root.active = true} =
      insert i t.activeRoots := by
    ext j
    by_cases hj : j = i
    · simp [hj, hroot]
    · simp [hj, activeRoots]
  have hcount : b.count = 1 := by simp [Bucket.count, Bucket.rows, hchain, hroot]
  have hempty : (t.rows i).count = 0 := by
    rw [(h.linked i).count_eq, Bucket.live_of_inactive hinactive]
    rfl
  have hfresh : i ∉ t.activeRoots := by simp [activeRoots, hinactive]
  refine ⟨h.size_pos, ?_, linked_update h.linked ⟨fun _ => hchain, ?_⟩, ?_, ?_⟩
  · show JumpList.Lists _ _ _ {j | (update t.rows i b j).root.active = true}
    rw [hroots]
    refine h.listed.push hfresh ?_ fun j hj => ?_
    · show (update t.rows i b i).root.listIndex = t.listN
      rw [update_self, hindex]
    · show (update t.rows i b j).root.listIndex = (t.rows j).root.listIndex
      have hne : j ≠ i := fun heq => hfresh (heq ▸ hj)
      rw [update_of_ne hne]
  · rw [hchain]
    exact forall_mem_nil _
  · show ∀ j ∈ {j | (update t.rows i b j).root.active = true}, j < t.size
    rw [hroots]
    rintro j (rfl | hj)
    · exact hi
    · exact h.within j hj
  · have hsum := activeRows_setBucket hi b
    have hold := h.rowNum_eq
    show t.rowNum + 1 = (t.setBucket i b).activeRows
    omega

/-- A root becomes inactive and leaves a gap. -/
def vacate (t : Table) (i : ℕ) (data : Bytes) : Table :=
  { t.setBucket i ⟨.zero data, []⟩ with
    rowsList := update t.rowsList (t.rows i).root.listIndex none
    rowNum := t.rowNum - 1 }

theorem Books.leave (h : t.Books) (hactive : (t.rows i).root.active = true)
    (hchain : (t.rows i).chain = []) (data : Bytes) : (t.vacate i data).Books := by
  have hroots : {j | (update t.rows i ⟨.zero data, []⟩ j).root.active = true} =
      t.activeRoots \ {i} := by
    ext j
    by_cases hj : j = i
    · simp [hj, zero]
    · simp [hj, activeRoots]
  have hcount : (t.rows i).count = 1 := by
    rw [(h.linked i).count_eq, Bucket.live_of_active hactive, Bucket.rows, hchain]
    rfl
  refine ⟨h.size_pos, ?_, linked_update h.linked ⟨fun _ => rfl, forall_mem_nil _⟩, ?_, ?_⟩
  · show JumpList.Lists _ _ _ {j | (update t.rows i _ j).root.active = true}
    rw [hroots]
    refine (h.listed.erase hactive).congr fun j hj => ?_
    show (update t.rows i _ j).root.listIndex = (t.rows j).root.listIndex
    rw [update_of_ne hj.2]
  · show ∀ j ∈ {j | (update t.rows i _ j).root.active = true}, j < t.size
    rw [hroots]
    exact fun j hj => h.within j hj.1
  · have hsum := activeRows_setBucket (h.within i hactive) ⟨.zero data, []⟩
    have hzero : (⟨.zero data, []⟩ : Bucket).count = 0 := rfl
    have hold := h.rowNum_eq
    show t.rowNum - 1 = (t.setBucket i ⟨.zero data, []⟩).activeRows
    omega

/-! ## Compressing the list -/

/-- The loop of `swTable_compress_list` over the entries that are not gaps. -/
theorem foldl_setListIndex (l : List ℕ) (k : ℕ) (rows : ℕ → Bucket) (hl : l.Nodup) :
    (∀ j i, l[j]? = some i →
      (l.zipIdx k).foldl reindex rows i = (rows i).setListIndex (k + j)) ∧
      ∀ i ∉ l, (l.zipIdx k).foldl reindex rows i = rows i := by
  induction l generalizing k rows with
  | nil => exact ⟨fun j i h => absurd h (by simp), fun _ _ => rfl⟩
  | cons a l ih =>
    obtain ⟨ha, hl⟩ := nodup_cons.mp hl
    obtain ⟨hin, hout⟩ := ih (k + 1) (update rows a ((rows a).setListIndex k)) hl
    rw [zipIdx_cons, foldl_cons, reindex]
    constructor
    · intro j i hj
      cases j with
      | zero =>
        obtain rfl : a = i := by simpa using hj
        rw [hout a ha, update_self, add_zero]
      | succ j =>
        have hj' : l[j]? = some i := by simpa using hj
        have hne : i ≠ a := fun heq => ha (heq ▸ mem_of_getElem? hj')
        rw [hin j i hj', update_of_ne hne, Nat.add_right_comm, add_assoc]
    · intro i hi
      have hne : i ≠ a := fun heq => hi (heq ▸ mem_cons_self)
      rw [hout i fun hmem => hi (mem_cons_of_mem a hmem), update_of_ne hne]

theorem Compressed.activeRoots {t' : Table} (h : t.Compressed t') :
    t'.activeRoots = t.activeRoots := by
  ext i
  obtain ⟨n, hn⟩ := h.rows i
  show _ = true ↔ _ = true
  rw [hn]
  rfl

theorem compressList_listN (t : Table) :
    (t.compressList true).listN = (JumpList.live t.rowsList t.listN).length := rfl

theorem Listed.compressList (h : t.Listed) (malloc : Bool) : (t.compressList malloc).Listed := by
  cases malloc with
  | false => exact h
  | true =>
    rw [Listed, (t.compressed true).activeRoots]
    refine h.compress (fun i hi => if_pos hi) fun i a hi => ?_
    have hrows := (foldl_setListIndex (JumpList.live t.rowsList t.listN) 0 t.rows
      h.nodup_live).1 i a hi
    rw [show (t.compressList true).rows a = _ from hrows, zero_add]
    rfl

theorem Books.compressList (h : t.Books) (malloc : Bool) : (t.compressList malloc).Books := by
  have hcomp := t.compressed malloc
  refine ⟨hcomp.size ▸ h.size_pos, h.listed.compressList malloc, fun i => ?_, ?_, ?_⟩
  · obtain ⟨n, hn⟩ := hcomp.rows i
    rw [hn]
    exact (h.linked i).setListIndex n
  · rw [hcomp.activeRoots, hcomp.size]
    exact h.within
  · rw [hcomp.rowNum, h.rowNum_eq, activeRows, activeRows, hcomp.size]
    refine Finset.sum_congr rfl fun i _ => ?_
    obtain ⟨n, hn⟩ := hcomp.rows i
    rw [hn, Bucket.count_setListIndex]

theorem foldl_update_comm (l : List (ℕ × ℕ)) (rows : ℕ → Bucket) (b : Bucket)
    (hl : ∀ e ∈ l, e.1 ≠ i) :
    l.foldl reindex (update rows i b) = update (l.foldl reindex rows) i b := by
  induction l generalizing rows with
  | nil => rfl
  | cons e l ih =>
    have hne := hl e mem_cons_self
    rw [foldl_cons, foldl_cons, reindex, update_of_ne hne, update_comm hne.symm]
    exact ih _ fun e' he' => hl e' (mem_cons_of_mem e he')

/-- A root that is not listed may be changed before the list is compressed. -/
theorem compressList_setBucket (malloc : Bool) (b : Bucket)
    (hi : i ∉ JumpList.live t.rowsList t.listN) :
    (t.setBucket i b).compressList malloc = (t.compressList malloc).setBucket i b := by
  cases malloc with
  | false => rfl
  | true =>
    have hrows := foldl_update_comm (i := i) (JumpList.live t.rowsList t.listN).zipIdx t.rows b
      fun e he heq => hi (heq ▸ fst_mem_of_mem_zipIdx he)
    simp only [compressList, setBucket, if_true]
    congr 1

/-! ## The operations -/

variable (h : t.Books)
include h

theorem Books.compress_if (c : Prop) [Decidable c] (malloc : Bool) :
    (if c then t.compressList malloc else t).Books := by
  split
  · exact h.compressList malloc
  · exact h

theorem Books.modify (hi : i < t.size) (j : ℕ) {f : TableRow → TableRow}
    (hf : ∀ row ∈ (t.rows i).rows, (f row).active = row.active)
    (hindex : ∀ row, (f row).listIndex = row.listIndex) :
    (t.setBucket i ((t.rows i).modify j f)).Books := by
  have hroot : ((t.rows i).modify j f).root.active = (t.rows i).root.active ∧
      ((t.rows i).modify j f).root.listIndex = (t.rows i).root.listIndex := by
    cases j with
    | zero => exact ⟨hf _ mem_cons_self, hindex _⟩
    | succ j => exact ⟨rfl, rfl⟩
  have hsame : ((t.rows i).modify j f).rows.map (·.active) = (t.rows i).rows.map (·.active) := by
    rw [Bucket.rows_modify, Bucket.map_active_modify hf]
  obtain ⟨hlinked, hcount⟩ := (h.linked i).congr hsame
  exact h.keep hi hlinked hroot.1 hroot.2 (by rw [hcount])

theorem Books.set (key : Bytes) (mem : TableMemory) : (t.set key mem).1.Books := by
  have hi := index_lt h.size_pos (key.take tableKeySize)
  have hcases := t.set_cases key mem
  generalize key.take tableKeySize = key' at hi hcases
  generalize t.set key mem = r at hcases ⊢
  cases hcases with
  | reuse hactive hfind =>
    have hrows := (h.linked _).rows_active hactive
    exact h.modify hi _ (fun row hrow => (hrows row hrow).symm) fun _ => rfl
  | full => exact h
  | @extend old hactive hfind =>
    have hrows := (h.linked _).rows_active hactive
    have hnew : ∀ row ∈ (⟨(t.rows (t.index key')).root,
        (t.rows (t.index key')).chain ++ [(zero old).occupy key']⟩ : Bucket).rows,
        row.active = true := by
      intro row hrow
      rw [Bucket.rows, mem_cons, mem_append, mem_singleton, ← or_assoc, ← mem_cons] at hrow
      rcases hrow with hrow | rfl
      · exact hrows row hrow
      · rfl
    refine h.keep hi (Bucket.linked_of_rows hnew) rfl rfl ?_
    rw [(Bucket.linked_of_rows hnew).count_eq, (h.linked _).count_eq,
      Bucket.live_of_active hactive, Bucket.live_of_active (hnew _ mem_cons_self)]
    simp only [Bucket.rows, length_cons, length_append, length_nil]
    omega
  | fill hinactive =>
    unfold setInactive
    have hbooks := h.compress_if (t.size - 1 ≤ t.listN) mem.compress
    have hcomp := t.compressed_if (t.size - 1 ≤ t.listN) mem.compress
    generalize (if t.size - 1 ≤ t.listN then t.compressList mem.compress else t) = t' at *
    obtain ⟨n, hn⟩ := hcomp.rows (t.index key')
    have hinactive' : (t'.rows (t.index key')).root.active = false := by
      rw [hn]
      exact hinactive
    have hchain : (t'.rows (t.index key')).chain = [] := (hbooks.linked _).chain_eq hinactive'
    rw [← hcomp.rowNum]
    exact hbooks.enter (hcomp.size ▸ hi) hinactive' hchain rfl rfl

theorem Books.write (key : Bytes) (j : ℕ) (data : Bytes) : (t.write key j data).Books :=
  h.modify (index_lt h.size_pos _) j (fun _ _ => rfl) fun _ => rfl

variable (hactive : (t.rows i).root.active = true)
include hactive

/-- The list is compressed before the root is cleared; the other order gives the same table. -/
theorem delRoot_eq (malloc : Bool) :
    t.delRoot i malloc =
      if t.compressThreshold < t.skipCount then
        (t.vacate i (t.rows i).root.data).compressList malloc
      else t.vacate i (t.rows i).root.data := by
  unfold delRoot
  split_ifs
  · have hgone : i ∉ JumpList.live
        (update t.rowsList (t.rows i).root.listIndex none) t.listN := by
      intro hmem
      exact ((h.listed.erase hactive).mem_live_iff.mp hmem).2 rfl
    have hcomm := compressList_setBucket
      (t := { t with
        rowsList := update t.rowsList (t.rows i).root.listIndex none
        rowNum := t.rowNum - 1 }) malloc ⟨.zero (t.rows i).root.data, []⟩ hgone
    refine Eq.trans ?_ hcomm.symm
    cases malloc <;> rfl
  · rfl

theorem Books.delRoot
    (hchain : (t.rows i).chain = []) (malloc : Bool) : (t.delRoot i malloc).Books := by
  rw [delRoot_eq h hactive malloc]
  exact (h.leave hactive hchain _).compress_if _ malloc

theorem Books.shrink (hb : b.Linked)
    (hroot : b.root.active = true) (hindex : b.root.listIndex = (t.rows i).root.listIndex)
    (hlen : b.chain.length + 1 = (t.rows i).chain.length) :
    ({ t.setBucket i b with rowNum := t.rowNum - 1 } : Table).Books := by
  have hi := h.within i hactive
  have hle : (t.rows i).count ≤ t.rowNum := by
    rw [h.rowNum_eq]
    exact Finset.single_le_sum (f := fun j => (t.rows j).count) (fun _ _ => Nat.zero_le _)
      (Finset.mem_range.mpr hi)
  have hcount := (h.linked i).count_eq
  have hcount' := hb.count_eq
  rw [Bucket.live_of_active hactive, Bucket.rows, length_cons] at hcount
  rw [Bucket.live_of_active hroot, Bucket.rows, length_cons] at hcount'
  exact h.keep hi hb (hroot.trans hactive.symm) hindex (by omega)

theorem Books.delMove {tmp : TableRow}
    {rest : List TableRow} (hchain : (t.rows i).chain = tmp :: rest) (malloc : Bool) :
    (t.delMove i tmp rest malloc).1.Books := by
  unfold Table.delMove
  split
  · exact ⟨h.size_pos, h.listed, h.linked, h.within, h.rowNum_eq⟩
  next n hn =>
    have hbooks := h.compress_if (t.compressThreshold < t.skipCount) malloc
    have hcomp := t.compressed_if (t.compressThreshold < t.skipCount) malloc
    generalize (if t.compressThreshold < t.skipCount then t.compressList malloc else t) = t' at *
    obtain ⟨l, hl⟩ := hcomp.rows i
    have hactive' : (t'.rows i).root.active = true := by
      rw [hl]
      exact hactive
    have hchain' : (t'.rows i).chain = tmp :: rest := by
      rw [hl]
      exact hchain
    have hactive'' : (⟨(t'.rows i).root.moveFrom tmp n, rest⟩ : Bucket).root.active = true :=
      hactive'
    have hrest : ∀ row ∈ rest, row.active = true := fun row hrow =>
      (hbooks.linked i).chain_active row (hchain' ▸ mem_cons_of_mem tmp hrow)
    rw [← hcomp.rowNum]
    refine hbooks.shrink hactive' ⟨fun hinactive => ?_, hrest⟩ hactive'' rfl ?_
    · exact absurd (hactive''.symm.trans hinactive) (by decide)
    · rw [hchain', length_cons]

theorem Books.delChain {j : ℕ} (hj : j < (t.rows i).chain.length) : (t.delChain i j).Books := by
  refine h.shrink hactive ⟨fun hinactive => ?_, fun row hrow => ?_⟩ hactive rfl ?_
  · exact absurd (hactive.symm.trans hinactive) (by decide)
  · exact (h.linked i).chain_active row ((eraseIdx_sublist _ _).subset hrow)
  · exact length_eraseIdx_add_one hj

omit hactive

theorem Books.del (key : Bytes) (malloc : Bool) : (t.del key malloc).1.Books := by
  have hcases := t.del_cases key malloc
  generalize t.del key malloc = r at hcases ⊢
  cases hcases with
  | absent => exact h
  | root hactive hchain hroot => exact h.delRoot hactive hchain malloc
  | move hactive hchain hroot => exact h.delMove hactive hchain malloc
  | chain hactive hfind =>
    have hlt := (findIdx?_eq_some_iff_getElem.mp hfind).1
    exact h.delChain hactive (Nat.lt_of_succ_lt_succ hlt)

theorem Books.step (op : TableOp) : (t.step op).Books := by
  cases op with
  | get key => exact h
  | set key mem data =>
    have hset := h.set key mem
    simp only [Table.step]
    split
    next t' heq =>
      rw [heq] at hset
      exact hset
    next t' j heq =>
      rw [heq] at hset
      exact hset.write key j data
  | del key malloc => exact h.del key malloc

/-! ## The length of the list -/

omit h

theorem del_listN_le (t : Table) (key : Bytes) (malloc : Bool) :
    (t.del key malloc).1.size = t.size ∧ (t.del key malloc).1.listN ≤ t.listN := by
  have hcases := t.del_cases key malloc
  generalize t.del key malloc = r at hcases ⊢
  cases hcases with
  | absent => exact ⟨rfl, le_rfl⟩
  | root => exact ⟨(compressed_if _ _ malloc).size, (compressed_if _ _ malloc).listN_le⟩
  | chain => exact ⟨rfl, le_rfl⟩
  | move =>
    unfold delMove
    split
    · exact ⟨rfl, le_rfl⟩
    · exact ⟨(compressed_if _ _ malloc).size, (compressed_if _ _ malloc).listN_le⟩

/-- Without its gaps the list has no entry for an inactive root, so there is room for it. -/
theorem Books.listN_lt_of_compress (h : t.Books) (hi : i < t.size)
    (hinactive : (t.rows i).root.active = false) : (t.compressList true).listN < t.size := by
  have hsub : ∀ j ∈ t.activeRoots, j ∈ (Finset.range t.size).erase i := by
    intro j hj
    refine Finset.mem_erase.mpr ⟨?_, Finset.mem_range.mpr (h.within j hj)⟩
    rintro rfl
    exact absurd (hinactive.symm.trans hj) (by decide)
  have hle := h.listed.length_live_le hsub
  rw [Finset.card_erase_of_mem (Finset.mem_range.mpr hi), Finset.card_range] at hle
  rw [compressList_listN]
  omega

/-- The list keeps within its memory if it can be compressed when it is full. -/
theorem Books.set_listN_le (h : t.Books) (hle : t.listN ≤ t.size) (key : Bytes) {mem : TableMemory}
    (hmem : mem.compress = true) : (t.set key mem).1.listN ≤ (t.set key mem).1.size := by
  have hi := index_lt h.size_pos (key.take tableKeySize)
  have hcases := t.set_cases key mem
  generalize t.set key mem = r at hcases ⊢
  cases hcases with
  | reuse | full | extend => exact hle
  | fill hinactive =>
    show (if t.size - 1 ≤ t.listN then t.compressList mem.compress else t).listN + 1 ≤
      (if t.size - 1 ≤ t.listN then t.compressList mem.compress else t).size
    rw [(t.compressed_if _ _).size, hmem]
    split
    · exact h.listN_lt_of_compress hi hinactive
    · omega

end Table

/-! ## Runs -/

/-- What happens to a table: a call of its functions, or the iterator at work, which writes
nothing of the table but `skip_count`. -/
inductive TableEvent where
  | call (op : TableOp)
  | iterate (skipCount : ℕ)
  deriving DecidableEq, Repr

namespace TableEvent

/-- A set that has to compress the list gets the memory for it. -/
def Compresses : TableEvent → Prop
  | .call (.set _ mem _) => mem.compress = true
  | .call (.get _) | .call (.del _ _) | .iterate _ => True

instance (e : TableEvent) : Decidable e.Compresses := by
  unfold Compresses
  split <;> infer_instance

end TableEvent

namespace Table

variable {t : Table}

/-- One event. -/
def advance (t : Table) : TableEvent → Table
  | .call op => t.step op
  | .iterate skipCount => { t with skipCount := skipCount }

/-- **The step lemma.** -/
theorem Books.advance (h : t.Books) (e : TableEvent) : (t.advance e).Books := by
  cases e with
  | call op => exact h.step op
  | iterate n => exact ⟨h.size_pos, h.listed, h.linked, h.within, h.rowNum_eq⟩

open StepRun

theorem books_run (rowsSize itemSize : ℕ) (events : List TableEvent) :
    (run advance (new rowsSize itemSize) events).Books :=
  run_invariant (P := Books) (fun _ e h => h.advance e) events (books_new rowsSize itemSize)

theorem Books.advance_listN_le (h : t.Books) (hle : t.listN ≤ t.size) {e : TableEvent}
    (he : e.Compresses) : (t.advance e).listN ≤ (t.advance e).size := by
  match e with
  | .call (.get key) => exact hle
  | .call (.set key mem data) =>
    have hset := h.set_listN_le hle key he
    simp only [Table.advance, Table.step]
    split
    next t' heq =>
      rw [heq] at hset
      exact hset
    next t' j heq =>
      rw [heq] at hset
      exact hset
  | .call (.del key malloc) =>
    obtain ⟨hsize, hlist⟩ := t.del_listN_le key malloc
    exact (hlist.trans hle).trans hsize.ge
  | .iterate n => exact hle

/-! ## The account -/

/-- **The accounts of a table**: `row_num` is the number of active rows that the roots lead to,
every active root stands at its `list_index` and nowhere else among the first `list_n` entries
of `rows_list`, and `list_n` does not exceed the size. -/
structure Accounted (t : Table) : Prop where
  rowNum_eq : t.rowNum = ∑ i ∈ Finset.range t.size, (t.rows i).rows.countP (·.active)
  listed : ∀ i < t.size, (t.rows i).root.active = true →
    (t.rows i).root.listIndex < t.listN ∧
      ∀ n < t.listN, t.rowsList n = some i ↔ n = (t.rows i).root.listIndex
  listN_le : t.listN ≤ t.size

theorem Books.accounted (h : t.Books) (hle : t.listN ≤ t.size) : t.Accounted where
  rowNum_eq := h.rowNum_eq
  listed := fun i _ hactive =>
    ⟨h.listed.lt i hactive, fun _ hn => h.listed.entry_iff hactive hn⟩
  listN_le := hle

/-- The bucket of a key becomes active. -/
def enlist (t : Table) (key : Bytes) (rows : ℕ → Bucket) : Table :=
  { t with
    rows := rows
    rowsList := update t.rowsList t.listN (some (t.index key))
    listN := t.listN + 1
    rowNum := t.rowNum + 1 }

/-- A key is set and deleted. -/
def setDel (key : Bytes) : List TableEvent :=
  [.call (.set key ⟨none, true⟩ []), .call (.del key true)]

variable {key data : Bytes} (hlen : key.length ≤ tableKeySize)
include hlen

theorem del_of_alone {root : TableRow} (hrow : t.rows (t.index key) = ⟨root, []⟩)
    (hactive : root.active = true) (hmatch : root.Matches key = true) (malloc : Bool) :
    t.del key malloc = (t.delRoot (t.index key) malloc, .ok) := by
  unfold del
  simp only [take_of_length_le hlen, hrow]
  rw [if_pos hactive, if_pos hmatch]

variable (hrow : t.rows (t.index key) = ⟨.zero data, []⟩) (hroom : t.listN < t.size - 1)
include hrow hroom

/-- A key that is set in an empty bucket, with the data that is there already. -/
theorem step_set_empty (mem : TableMemory) :
    t.step (.set key mem data) = t.enlist key (update t.rows (t.index key)
      ⟨occupy { zero data with listIndex := t.listN } key, []⟩) := by
  have htake : key.take tableKeySize = key := take_of_length_le hlen
  have hinactive : (t.rows (t.index key)).root.active = false := by rw [hrow]; rfl
  have hset : t.set key mem = t.setInactive key (t.index key) mem := by
    simp only [Table.set, htake, hinactive, Bool.false_eq_true, if_false]
  simp only [Table.step, hset, setInactive, if_neg (not_le.mpr hroom), hrow, setBucket]
  unfold write setBucket
  rw [htake]
  refine congrArg (t.enlist key) ?_
  show update (update t.rows (t.index key) _) (t.index key)
    (Bucket.modify (update t.rows (t.index key) _ (t.index key)) 0 _) = _
  rw [update_idem, update_self]
  rfl

/-- A key that is set in an empty bucket and deleted again leaves a gap in the list. -/
theorem set_del_eq (mem : TableMemory) (malloc : Bool) (hskip : t.skipCount ≤ t.compressThreshold) :
    (t.step (.set key mem data)).step (.del key malloc) =
      { t with rowsList := update t.rowsList t.listN none, listN := t.listN + 1 } := by
  set root : TableRow := occupy { zero data with listIndex := t.listN } key
  have hmatch : root.Matches key = true := strncmpEq_of_isPrefix (prefix_append _ _)
  rw [step_set_empty hlen hrow hroom mem]
  set t' := t.enlist key (update t.rows (t.index key) ⟨root, []⟩)
  have hindex : t'.index key = t.index key := by
    unfold Table.index
    rw [show t'.size = t.size from rfl]
  have hrow' : t'.rows (t.index key) = ⟨root, []⟩ := update_self _ _ _
  have hdel : t'.step (.del key malloc) = t'.delRoot (t.index key) malloc := by
    rw [Table.step, del_of_alone hlen (hindex ▸ hrow') rfl hmatch, hindex]
  have hskip' : ¬ t'.compressThreshold < t'.skipCount := not_lt.mpr hskip
  have hzero : (⟨zero root.data, []⟩ : Bucket) = t.rows (t.index key) := hrow.symm
  have hrows : update t'.rows (t.index key) ⟨zero root.data, []⟩ = t.rows := by
    rw [hzero]
    exact (update_idem _ _ _).trans (update_eq_self _ _)
  have hlist : update t'.rowsList root.listIndex none =
      update t.rowsList t.listN none := update_idem _ _ _
  rw [hdel, delRoot, hrow']
  simp only [if_neg hskip', setBucket]
  rw [hrows, hlist]
  rfl

omit hrow hroom

theorem run_setDel_once (hrow : t.rows (t.index key) = ⟨.zero [], []⟩)
    (hroom : t.listN < t.size - 1) (hskip : t.skipCount ≤ t.compressThreshold) :
    run advance t (setDel key) =
      { t with rowsList := update t.rowsList t.listN none, listN := t.listN + 1 } :=
  set_del_eq hlen hrow hroom ⟨none, true⟩ true hskip

/-- The table after `n` times a set and a delete of one key: it is empty, but its list has
`n` entries. -/
theorem run_setDel (n k : ℕ) (hroom : k + n < 1024) :
    run advance { new 1024 0 with listN := k } (replicate n (setDel key)).flatten =
      { new 1024 0 with listN := k + n } := by
  induction n generalizing k with
  | zero => rfl
  | succ n ih =>
    have hround : run advance { new 1024 0 with listN := k } (setDel key) =
        { new 1024 0 with listN := k + 1 } := by
      refine (run_setDel_once hlen rfl ?_ (Nat.zero_le _)).trans ?_
      · show k < 1024 - 1
        omega
      · refine congrArg (fun list => { new 1024 0 with rowsList := list, listN := k + 1 }) ?_
        exact update_eq_self k _
    rw [replicate_succ, flatten_cons, run_append, hround, ih (k + 1) (by omega)]
    rw [Nat.add_right_comm, add_assoc]

theorem run_setDel_append {n : ℕ} (hn : n < 1024) (events : List TableEvent) :
    run advance (new 1024 0) ((replicate n (setDel key)).flatten ++ events) =
      run advance { new 1024 0 with listN := n } events := by
  have hrun := run_setDel hlen n 0 (by omega)
  rw [zero_add] at hrun
  rw [run_append]
  exact congrArg (fun t => run advance t events) hrun

omit hlen

end Table

end Swoole
