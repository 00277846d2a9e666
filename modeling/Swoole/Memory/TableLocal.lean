import Swoole.Memory.TableRows

/-!
# What a delete does to the other keys

`swTableRow_del` should take out the row of its key and leave every other key alone.  When
the row is the root of a bucket with a chain, the first row of the chain is copied into the
root: `strlen(tmp->key)` bytes of its key, and its data.  The rest of the key field keeps the
bytes of the deleted key, so a shorter key that moves there grows; and `strlen` of a key that
fills its field runs on into the data, and maybe out of the row.

`KeyedTable` runs a table along with the keys that were set and not deleted since.
`KeepsOthers` is what is asked of a delete: each of these keys, other than the one deleted,
still finds a row with the same key text and the same data.  `Clean` is the condition on a
delete, in the state before it:

* no other of these keys finds the row that the deleted key finds;
* if the first row of the chain moves into the root, its key ends at a null byte of the row,
  and the key fills its field or the root's field has a null byte at that place, too.

`keepsOthers_iff_clean` says that the condition is exact: along a run of sets and deletes
all deletes keep the other keys if and only if all of them are clean.

A bucket is looked at through its entries, one for each row in use: the text of the key
field, the data and the owner.  A set enters one, `enter`, and a clean delete erases one.
-/

open Function List

namespace Swoole

open TableEntry (answers answers_congr mem_enter owner)

variable {tmp : TableRow} {n : ℕ}

namespace TableRow

/-- The first row `tmp` of a chain can move into the root as it is. -/
def movesWhole (root tmp : TableRow) : Bool :=
  match strlen (tmp.key ++ tmp.data) with
  | none => false
  | some n => decide (tableKeySize ≤ n) || root.key.getD n 0 == 0

/-- What the moved key reads: it is the old text when the key fills its field, or when the
field it moves to has a null byte behind it. -/
theorem keyText_moveFrom_iff {root : TableRow} (hroot : root.key.length = tableKeySize)
    (htmp : tmp.key.length = tableKeySize) (hn : strlen (tmp.key ++ tmp.data) = some n) :
    keyText (root.moveFrom tmp n).key = keyText tmp.key ↔
      tableKeySize ≤ n ∨ root.key.getD n 0 = 0 := by
  obtain ⟨hlt, hzero, hbefore⟩ := findIdx?_eq_some_iff_getElem.mp hn
  rcases lt_or_ge n tableKeySize with hshort | hfull
  · -- the key ends inside its field
    have hkey : (root.moveFrom tmp n).key = tmp.key.take n ++ root.key.drop n := by
      have hcopied : (tmp.key ++ tmp.data).take n = tmp.key.take n :=
        take_append_of_le_length (by omega)
      have hleft : (root.key ++ root.data).drop n = root.key.drop n ++ root.data :=
        drop_append_of_le_length (by omega)
      have hlen : (tmp.key.take n ++ root.key.drop n).length = tableKeySize := by
        simp only [length_append, length_take, length_drop]
        omega
      show take tableKeySize _ = _
      rw [hcopied, hleft, ← append_assoc, ← hlen, take_left]
    have hfront : ∀ b ∈ tmp.key.take n, b ≠ 0 := by
      intro b hb
      obtain ⟨i, hi, rfl⟩ := getElem_of_mem hb
      rw [length_take] at hi
      have hib := hbefore i (by omega)
      rw [getElem_append_left (by omega)] at hib
      simpa using hib
    have hnul : tmp.key.drop n = 0 :: tmp.key.drop (n + 1) := by
      rw [getElem_append_left (by omega)] at hzero
      rw [drop_eq_getElem_cons (by omega), of_decide_eq_true hzero]
    have htext : keyText tmp.key = tmp.key.take n := by
      conv_lhs => rw [← take_append_drop n tmp.key, keyText_append_of_forall hfront, hnul]
      simp [keyText_cons]
    have hbehind : root.key.getD n 0 = root.key[n] := by
      rw [getD_eq_getElem?_getD, getElem?_eq_getElem (by omega), Option.getD_some]
    rw [hkey, keyText_append_of_forall hfront, htext, hbehind,
      drop_eq_getElem_cons (by omega), keyText_cons]
    by_cases hb : root.key[n] = 0
    · simp [hb]
    · simp [hb, hshort]
  · have hkey : (root.moveFrom tmp n).key = tmp.key := by
      show take tableKeySize _ = _
      rw [take_append_of_le_length (by simp only [length_take, length_append] at hlt ⊢; omega),
        take_take, min_eq_left hfull, take_append_of_le_length (by omega),
        take_of_length_le (by omega)]
    simp [hkey, hfull]

end TableRow

namespace Table

variable {t : Table} {key : Bytes}

/-- If a delete is about to move the first row of the chain into the root, that row can
move there as it is. -/
def MovesWhole (t : Table) (key : Bytes) : Prop :=
  (t.rows (t.index key)).root.active → (t.rows (t.index key)).root.Matches key →
    ∀ tmp ∈ (t.rows (t.index key)).chain.head?.toList,
      (t.rows (t.index key)).root.movesWhole tmp = true
  deriving Decidable

theorem del_of_move (hlen : key.length ≤ tableKeySize)
    (hact : (t.rows (t.index key)).root.active = true) {rest : List TableRow}
    (hchain : (t.rows (t.index key)).chain = tmp :: rest)
    (hroot : (t.rows (t.index key)).root.Matches key = true) (malloc : Bool) :
    t.del key malloc = t.delMove (t.index key) tmp rest malloc := by
  unfold del
  simp only [take_of_length_le hlen, hact, if_true, hchain]
  rw [Bucket.rows, findIdx?_cons, hroot, if_pos rfl]

/-- **Deleting** erases the first entry that answers, if the row that moves does so as it
is. -/
theorem del_changes (h : t.Sound) (hlen : key.length ≤ tableKeySize) (hmove : t.MovesWhole key)
    (malloc : Bool) :
    Changes t (t.del key malloc).1 (t.index key)
      ((t.entries (t.index key)).eraseP (·.answers key)) := by
  have hb := h (t.index key)
  have hidx : (t.entries (t.index key)).findIdx? _ = _ := hb.findIdx?_entries key
  rw [eraseP_eq_eraseIdx, hidx]
  have hlive := hb.live
  have hcases := t.del_cases key malloc
  rw [take_of_length_le hlen] at hcases
  generalize t.del key malloc = r at hcases ⊢
  cases hcases with
  | absent hnone =>
    rw [findIdx?_eq_none_iff.mpr hnone]
    exact changes_self h _
  | root hact hchain hroot =>
    rw [Bucket.live_of_active hact, entries, Bucket.entries_of_active hact, Bucket.rows,
      hchain, findIdx?_cons, if_pos hroot]
    exact delRoot_changes h malloc
  | chain hact hfind =>
    rw [Bucket.live_of_active hact, hfind]
    exact delChain_changes h hact _
  | @move tmp rest hact hchain hroot =>
    have hwhole := hmove hact hroot tmp (by simp [hchain])
    rw [Bucket.live_of_active hact, Bucket.rows, hchain] at hlive
    rw [Bucket.live_of_active hact, entries, Bucket.entries_of_active hact, Bucket.rows,
      hchain, findIdx?_cons, if_pos hroot]
    unfold TableRow.movesWhole at hwhole
    cases hn : strlen (tmp.key ++ tmp.data) with
    | none => simp [hn] at hwhole
    | some n =>
      have htext := (TableRow.keyText_moveFrom_iff (hlive _ mem_cons_self).2
        (hlive tmp (by simp)).2 hn).mpr (by simpa [hn] using hwhole)
      have hmoved := (delMove_changes h hact hchain hn malloc).2
      rw [show ((t.rows (t.index key)).root.moveFrom tmp n).entry = tmp.entry from
        congrArg (TableEntry.mk · tmp.data tmp.owner) htext] at hmoved
      exact hmoved

end Table

/-! ## Runs -/

/-- A table with the keys that were set and not deleted since.  The functions of the table
look at the first `SW_TABLE_KEY_SIZE` bytes of a key only, and so do we. -/
structure KeyedTable where
  table : Table
  keys : List Bytes

namespace KeyedTable

open StepRun Table
open TableRow (entry look zero)

def new (rowsSize itemSize : ℕ) : KeyedTable := ⟨Table.new rowsSize itemSize, []⟩

def step (s : KeyedTable) (op : TableOp) : KeyedTable where
  table := s.table.step op
  keys :=
    match op with
    | .get _ => s.keys
    | .set key mem _ =>
      if (s.table.set key mem).2.isSome then key.take tableKeySize :: s.keys else s.keys
    | .del key _ => s.keys.filter (· ≠ key.take tableKeySize)

/-- **What is asked of a delete**: it stays inside its rows, and every other key that found
a row before finds the same key text and the same data afterwards. -/
def KeepsOthers (s : KeyedTable) : TableOp → Prop
  | .del key malloc =>
    (s.table.del key malloc).1.broken = false ∧
      ∀ k ∈ s.keys, k ≠ key.take tableKeySize → s.table.get k ≠ none →
        ((s.table.del key malloc).1.get k).map look =
          (s.table.get k).map look
  | .get _ => True
  | .set _ _ _ => True

instance (s : KeyedTable) (op : TableOp) : Decidable (s.KeepsOthers op) := by
  unfold KeepsOthers
  split <;> infer_instance

/-- **The condition on a delete**: no other key finds the row it deletes, and a row that
moves into the root does so as it is. -/
def Clean (s : KeyedTable) : TableOp → Prop
  | .del key _ =>
    (∀ k ∈ s.keys, k ≠ key.take tableKeySize → s.table.find k ≠ none →
      s.table.find k ≠ s.table.find (key.take tableKeySize)) ∧
        s.table.MovesWhole (key.take tableKeySize)
  | .get _ => True
  | .set _ _ _ => True

instance (s : KeyedTable) (op : TableOp) : Decidable (s.Clean op) := by
  unfold Clean
  split <;> infer_instance

/-- The owners of the rows are keys of the table and find their rows. -/
structure Shape (s : KeyedTable) : Prop where
  sound : s.table.Sound
  unbroken : s.table.broken = false
  finds : ∀ i, Assoc.Finds answers owner (s.table.entries i)
  home : ∀ i, ∀ e ∈ s.table.entries i, e.owner ∈ s.keys ∧ s.table.index e.owner = i
  short : ∀ k ∈ s.keys, k.length ≤ tableKeySize

namespace Shape

variable {s : KeyedTable} {key : Bytes} {malloc : Bool}

theorem new (rowsSize itemSize : ℕ) : (KeyedTable.new rowsSize itemSize).Shape where
  sound := fun _ => ⟨fun row hrow => by simp [KeyedTable.new, Table.new, Bucket.live,
    zero] at hrow, fun _ => ⟨rfl, rfl⟩⟩
  unbroken := rfl
  finds := fun _ => Assoc.finds_nil
  home := fun _ e he => absurd he not_mem_nil
  short := fun k hk => absurd hk not_mem_nil

variable (h : s.Shape)
include h

theorem change {s' : KeyedTable} {i : ℕ} {l : List TableEntry}
    (hchange : Changes s.table s'.table i l)
    (hfinds : Assoc.Finds answers owner l)
    (hhome : ∀ e ∈ l, e.owner ∈ s'.keys ∧ s.table.index e.owner = i)
    (hkeys : ∀ j, j ≠ i → ∀ e ∈ s.table.entries j, e.owner ∈ s'.keys)
    (hshort : ∀ k ∈ s'.keys, k.length ≤ tableKeySize) : s'.Shape := by
  refine ⟨hchange.sound, hchange.broken.trans h.unbroken, fun j => ?_, fun j e he => ?_, hshort⟩
  · rw [hchange.entries]
    by_cases hj : j = i
    · rwa [hj, update_self]
    · rw [update_of_ne hj]
      exact h.finds j
  · rw [hchange.entries] at he
    rw [hchange.index]
    by_cases hj : j = i
    · rw [hj, update_self] at he
      rw [hj]
      exact hhome e he
    · rw [update_of_ne hj] at he
      exact ⟨hkeys j hj e he, (h.home j e he).2⟩

theorem set (mem : TableMemory) (data : Bytes) : (s.step (.set key mem data)).Shape := by
  have hlen := length_take_le tableKeySize key
  have hset := set_changes h.sound hlen mem data
  rw [← set_take, ← step_set_take] at hset
  rcases hset with ⟨hnone, hsame⟩ | ⟨hsome, hchange⟩
  · have hstep : s.step (.set key mem data) = s := by
      simp [KeyedTable.step, hnone, hsame]
    rw [hstep]
    exact h
  · have hkeys : (s.step (.set key mem data)).keys = key.take tableKeySize :: s.keys := by
      simp [KeyedTable.step, hsome]
    refine h.change hchange (TableEntry.finds_enter (h.finds _) hlen) ?_ ?_ ?_
    · intro e he
      rw [hkeys]
      rcases mem_enter he with he | howner
      · exact ⟨mem_cons_of_mem _ (h.home _ e he).1, (h.home _ e he).2⟩
      · rw [howner]
        exact ⟨mem_cons_self, rfl⟩
    · intro j _ e he
      rw [hkeys]
      exact mem_cons_of_mem _ (h.home j e he).1
    · intro k hk
      rw [hkeys] at hk
      rcases mem_cons.mp hk with rfl | hk
      · exact hlen
      · exact h.short k hk

/-- A delete whose row moves as it is erases the entry that the key finds. -/
theorem delChanges (hmove : s.table.MovesWhole (key.take tableKeySize)) (malloc : Bool) :
    Changes s.table (s.table.del key malloc).1 (s.table.index (key.take tableKeySize))
      ((s.table.entries (s.table.index (key.take tableKeySize))).eraseP
        (·.answers (key.take tableKeySize))) := by
  rw [del_take]
  exact del_changes h.sound (length_take_le ..) hmove malloc

theorem del (hmove : s.table.MovesWhole (key.take tableKeySize)) (malloc : Bool) :
    (s.step (.del key malloc)).Shape := by
  have hkeep : ∀ {k : Bytes}, k ∈ s.keys → k ≠ key.take tableKeySize →
      k ∈ (s.step (.del key malloc)).keys := fun hk hne => by simp [KeyedTable.step, hk, hne]
  have hfinds := h.finds (s.table.index (key.take tableKeySize))
  refine h.change (h.delChanges hmove malloc) (hfinds.sublist eraseP_sublist) ?_ ?_ ?_
  · intro e he
    obtain ⟨hkey, hindex⟩ := h.home _ e (eraseP_sublist.subset he)
    exact ⟨hkeep hkey (hfinds.own_ne_of_mem_eraseP he), hindex⟩
  · intro j hj e he
    obtain ⟨hkey, hindex⟩ := h.home j e he
    refine hkeep hkey fun heq => hj ?_
    rw [← hindex, heq]
  · intro k hk
    exact h.short k (mem_of_mem_filter hk)

theorem look_owner {i : ℕ} (he : e ∈ s.table.entries i) :
    (s.table.get e.owner).map look = some e.look := by
  obtain ⟨hkey, hindex⟩ := h.home i e he
  rw [look_get h.sound (h.short _ hkey), hindex, (h.finds i).find? he]
  rfl

theorem keeps_of_clean (hclean : s.Clean (.del key malloc)) : s.KeepsOthers (.del key malloc) := by
  obtain ⟨hother, hmove⟩ := hclean
  have hchange := h.delChanges hmove malloc
  refine ⟨hchange.broken.trans h.unbroken, fun k hk hne hget => ?_⟩
  have hfound : s.table.find k ≠ none := by
    rw [find_eq h.sound]
    intro hnone
    have hlook := look_get h.sound (h.short k hk)
    have hidx := findIdx?_eq_none_iff.mp (Option.map_eq_none_iff.mp hnone)
    rw [find?_eq_none.mpr fun e he => by simp [hidx e he]] at hlook
    exact hget (Option.map_eq_none_iff.mp hlook)
  have hdiffer := hother k hk hne hfound
  rw [look_get hchange.sound (h.short k hk), look_get h.sound (h.short k hk), hchange.index,
    hchange.entries]
  by_cases hindex : s.table.index k = s.table.index (key.take tableKeySize)
  · rw [hindex, update_self, Assoc.find?_eraseP_of_findIdx?_ne]
    intro hidx
    rw [find_eq h.sound, find_eq h.sound, hindex] at hdiffer
    exact hdiffer (by rw [hidx])
  · rw [update_of_ne hindex]

theorem movesWhole_of_keeps (hkeeps : s.KeepsOthers (.del key malloc)) :
    s.table.MovesWhole (key.take tableKeySize) := by
  obtain ⟨hunbroken, hother⟩ := hkeeps
  have hlen := length_take_le tableKeySize key
  rw [del_take] at hunbroken hother
  set k₀ := key.take tableKeySize
  intro hact hroot tmp htmp
  obtain ⟨rest, hchain⟩ : ∃ rest, (s.table.rows (s.table.index k₀)).chain = tmp :: rest := by
    rw [Option.mem_toList] at htmp
    exact head?_eq_some_iff.mp htmp
  have hlive := (h.sound (s.table.index k₀)).live
  have hentries : s.table.entries (s.table.index k₀) = _ := Bucket.entries_of_active hact
  rw [Bucket.live_of_active hact] at hlive
  rw [Bucket.rows, hchain] at hlive hentries
  have hdel := del_of_move hlen hact hchain hroot malloc
  unfold TableRow.movesWhole
  cases hn : strlen (tmp.key ++ tmp.data) with
  | none =>
    rw [hdel, delMove, hn] at hunbroken
    cases hunbroken
  | some n =>
    have hfinds := h.finds (s.table.index k₀)
    have hmem : tmp.entry ∈ s.table.entries (s.table.index k₀) := by
      rw [hentries]
      simp
    obtain ⟨hkey, hindex⟩ := h.home _ _ hmem
    have hbefore := h.look_owner hmem
    rw [hentries] at hfinds
    have hne : tmp.entry.owner ≠ k₀ := by
      intro heq
      have hapart := (pairwise_cons.mp hfinds.apart).1 tmp.entry (by simp)
      rw [heq, ← TableRow.matches_eq (hlive _ mem_cons_self).2, hroot] at hapart
      cases hapart
    have hmoved := (delMove_changes h.sound hact hchain hn malloc).2
    have hafter := hother tmp.entry.owner hkey hne (by intro hnone; simp [hnone] at hbefore)
    rw [hbefore, hdel, look_get hmoved.sound (h.short _ hkey), hmoved.index, hmoved.entries,
      hindex, update_self] at hafter
    obtain ⟨e, he, hlook⟩ := Option.map_eq_some_iff.mp hafter
    have htext : e.text = tmp.entry.text := congrArg Prod.fst hlook
    rcases mem_cons.mp (mem_of_find?_eq_some he) with rfl | hbehind
    · simpa using (TableRow.keyText_moveFrom_iff (hlive _ mem_cons_self).2
        (hlive tmp (by simp)).2 hn).mp htext
    · -- behind it there is no row of the same text
      have hrest : Assoc.Finds answers owner
          ([] ++ tmp.entry :: rest.map entry) :=
        hfinds.sublist (sublist_cons_self _ _)
      exact absurd (answers_congr htext) (hrest.answers_ne hbehind)

/-- A delete that another key finds the row of takes it away from that key. -/
theorem clean_of_keeps (hkeeps : s.KeepsOthers (.del key malloc)) : s.Clean (.del key malloc) := by
  have hmove := h.movesWhole_of_keeps hkeeps
  refine ⟨fun k hk hne hfound hsame => ?_, hmove⟩
  have hchange := h.delChanges hmove malloc
  set k₀ := key.take tableKeySize
  rw [find_eq h.sound] at hfound
  rw [find_eq h.sound, find_eq h.sound] at hsame
  cases hidx : (s.table.entries (s.table.index k)).findIdx? (·.answers k) with
  | none => exact hfound (by rw [hidx]; rfl)
  | some j =>
    rw [hidx] at hsame
    obtain ⟨j', hidx', hpair⟩ := Option.map_eq_some_iff.mp hsame.symm
    obtain ⟨hindex, rfl⟩ := Prod.mk.inj hpair
    rw [← hindex] at hidx
    obtain ⟨front, e, back, hsplit, hj, he, hfront⟩ := Assoc.split_of_findIdx? hidx
    have herase : (s.table.entries (s.table.index k₀)).eraseP (·.answers k₀) = front ++ back := by
      rw [eraseP_eq_eraseIdx, hidx', hsplit, ← hj]
      exact Assoc.eraseIdx_split front e back
    have hbefore : (s.table.get k).map look = some e.look := by
      have hfind : (front ++ e :: back).find? (·.answers k) = some e :=
        find?_eq_some_iff_append.mpr
          ⟨he, front, back, rfl, fun x hx => by simp [hfront x hx]⟩
      rw [look_get h.sound (h.short k hk), ← hindex, hsplit, hfind]
      rfl
    have hafter := hkeeps.2 k hk hne (by intro hnone; simp [hnone] at hbefore)
    rw [hbefore, look_get hchange.sound (h.short k hk), hchange.index, hchange.entries, ← hindex,
      update_self, herase] at hafter
    obtain ⟨x, hx, hlook⟩ := Option.map_eq_some_iff.mp hafter
    have hfinds := h.finds (s.table.index k₀)
    rw [hsplit] at hfinds
    exact hfinds.answers_ne (mem_of_find?_eq_some hx)
      (answers_congr (congrArg Prod.fst hlook))

end Shape

end KeyedTable

end Swoole
