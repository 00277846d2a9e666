import Swoole.Memory.TableIterator
import Swoole.Memory.TableLocal

/-!
# Emptying the table while iterating

A program that empties a table goes over it and deletes the key of every row it comes to:
`current`, `swTableRow_del`, `forward`, until `current` returns `NULL`.

The delete changes the table under the iterator.  A root without a chain leaves a gap, and
`forward` passes over the gap *and* over the entry behind it; in a chain the next row moves into
the root, and `forward` goes on to the one behind it.  Either way a row is left out.

`before` is the number of rows that the iterator has before it.  Every round makes it smaller,
whatever the delete has done (`Round.bounds`), so there are at most as many rounds as rows.
A delete that succeeds makes it smaller by one more.  So if there are two rows or more, either a
row is not visited or a row is not deleted: `drained_iff`.
-/

open List Function JumpList

namespace Swoole

/-- The key of a row as a string, as the delete takes it. -/
def TableRow.text (row : TableRow) : Bytes := (keyText row.key).take tableKeySize

/-- The active rows, bucket by bucket. -/
def Table.activeRowList (t : Table) : List TableRow :=
  (range t.size).flatMap fun i => (t.rows i).rows.filter (·.active)

namespace TableIterator

/-- The delete of a key between `current` and `forward`. -/
def del (it : TableIterator) (key : Bytes) (malloc : Bool) : TableIterator :=
  { it with table := (it.table.del key malloc).1 }

/-- The loop that empties the table: the rows it has visited, and the table it leaves.
`malloc n` is whether the `n`-th delete could compress the list.  `none` if a call follows
`NULL` or `fuel` runs out. -/
def drain : ℕ → (ℕ → Bool) → TableIterator → Option (List TableRow × TableIterator)
  | 0, _, _ => none
  | fuel + 1, malloc, it =>
    match it.current with
    | none => none
    | some (it', none) => some ([], it')
    | some (it', some (i, j)) =>
      match (it'.table.rows i).rows[j]? with
      | none => none
      | some row =>
        match (it'.del row.text (malloc 0)).forward with
        | none => none
        | some it'' =>
          (drain fuel (fun n => malloc (n + 1)) it'').map fun r => (row :: r.1, r.2)

/-- **The table is drained**: the loop ends, has visited the rows that were active at the start,
each of them once, and no row is left. -/
def Drained (it : TableIterator) (malloc : ℕ → Bool) : Prop :=
  ∃ fuel visited it', it.rewind.drain fuel malloc = some (visited, it') ∧
    (visited.map TableRow.owner).Perm (it.table.activeRowList.map TableRow.owner) ∧
    it'.table.activeRowList = []

end TableIterator

/-! ## What a delete leaves before an index -/

namespace Table

variable {t t' : Table} {i : ℕ}

theorem length_activeRowList (t : Table) : t.activeRowList.length = t.activeRows := by
  have hsum : ∀ n, ((range n).flatMap fun i => (t.rows i).rows.filter (·.active)).length =
      ∑ i ∈ Finset.range n, (t.rows i).count := by
    intro n
    induction n with
    | zero => rfl
    | succ n ih =>
      rw [range_succ, flatMap_append, length_append, ih, Finset.sum_range_succ,
        flatMap_singleton, Bucket.count, countP_eq_length_filter]
  exact hsum t.size

theorem length_placesFrom_le {k k' : ℕ}
    (hentries : (JumpList.entries t'.rowsList k' (t'.listN - k')).Sublist
      (JumpList.entries t.rowsList k (t.listN - k)))
    (hrows : ∀ i, (t'.rows i).rows.length ≤ (t.rows i).rows.length) :
    (t'.placesFrom k').length ≤ (t.placesFrom k).length := by
  simp only [placesFrom, length_flatMap, length_places]
  refine le_trans ?_ ((hentries.map _).sum_le_sum fun _ _ => Nat.zero_le _)
  exact sum_le_sum fun i _ => hrows i

theorem placesFrom_compressList_le (t : Table) (malloc : Bool) (k : ℕ) :
    ((t.compressList malloc).placesFrom k).length ≤ (t.placesFrom k).length := by
  refine length_placesFrom_le ?_ fun i => ?_
  · cases malloc with
    | false => exact List.Sublist.refl _
    | true =>
      have hlist : ∀ i < (live t.rowsList t.listN).length,
          (t.compressList true).rowsList i = (live t.rowsList t.listN)[i]? :=
        fun i hi => if_pos hi
      rw [compressList_listN, entries_compress hlist]
      exact drop_live_sublist _ _ _
  · obtain ⟨n, hn⟩ := (t.compressed malloc).rows i
    rw [hn]
    rfl

theorem placesFrom_compress_if_le (t : Table) (c : Prop) [Decidable c] (malloc : Bool) (k : ℕ) :
    ((if c then t.compressList malloc else t).placesFrom k).length ≤ (t.placesFrom k).length := by
  split
  · exact t.placesFrom_compressList_le malloc k
  · exact le_rfl

theorem length_rows_update_le {b : Bucket} (hb : b.chain.length ≤ (t.rows i).chain.length)
    (j : ℕ) : (update t.rows i b j).rows.length ≤ (t.rows j).rows.length := by
  by_cases hj : j = i
  · rw [hj, update_self]
    exact Nat.succ_le_succ hb
  · rw [update_of_ne hj]

theorem placesFrom_setBucket_le {b : Bucket} (hb : b.chain.length ≤ (t.rows i).chain.length)
    (rowNum k : ℕ) :
    (({ t.setBucket i b with rowNum := rowNum } : Table).placesFrom k).length ≤
      (t.placesFrom k).length :=
  length_placesFrom_le (List.Sublist.refl _) (length_rows_update_le hb)

/-- A delete adds nothing to what is listed behind an index, and takes away one row at most. -/
theorem del_placesFrom_le (h : t.Books) (key : Bytes) (malloc : Bool) (k : ℕ) :
    ((t.del key malloc).1.placesFrom k).length ≤ (t.placesFrom k).length ∧
      t.rowNum ≤ (t.del key malloc).1.rowNum + 1 := by
  have hsame : (t.placesFrom k).length ≤ (t.placesFrom k).length ∧ t.rowNum ≤ t.rowNum + 1 :=
    ⟨le_rfl, Nat.le_succ _⟩
  have hone : t.rowNum ≤ t.rowNum - 1 + 1 := by omega
  have hcases := t.del_cases key malloc
  generalize t.del key malloc = r at hcases ⊢
  cases hcases with
  | absent => exact hsame
  | root hact hchain hroot =>
    rw [delRoot_eq h hact]
    constructor
    · refine (placesFrom_compress_if_le _ _ malloc k).trans ?_
      refine length_placesFrom_le (entries_update_none_sublist _ _ _ _) ?_
      exact length_rows_update_le (Nat.zero_le _)
    · rw [(compressed_if _ _ malloc).rowNum]
      exact hone
  | chain hact hfind =>
    exact ⟨placesFrom_setBucket_le (length_eraseIdx_le _ _) _ k, hone⟩
  | @move tmp rest hact hchain hroot =>
    unfold delMove
    split
    · exact hsame
    · simp only
      refine ⟨(placesFrom_setBucket_le ?_ _ k).trans (placesFrom_compress_if_le t _ malloc k), hone⟩
      obtain ⟨l, hl⟩ := (t.compressed_if (t.compressThreshold < t.skipCount) malloc).rows
        (t.index (key.take tableKeySize))
      rw [hl]
      show rest.length ≤ (t.rows _).chain.length
      rw [hchain]
      exact Nat.le_succ _

theorem Books.length_placesFrom_le_rowNum (h : t.Books) (k : ℕ) :
    (t.placesFrom k).length ≤ t.rowNum := by
  rw [← h.length_placesFrom_zero]
  refine length_placesFrom_le ?_ fun _ => le_rfl
  rw [Nat.sub_zero, ← live_eq_entries]
  exact entries_sublist_live _ _ _

theorem Books.skip (h : t.Books) (n : ℕ) : (t.skip n).Books := h.advance (.iterate n)

end Table

/-! ## A round of the loop -/

namespace TableIterator

variable {it it' : TableIterator} {i : ℕ}

/-- The number of rows that the iterator has before it. -/
def before (it : TableIterator) : ℕ :=
  (it.table.placesFrom it.absoluteIndex).length - it.collisionIndex

/-- `current` changes nothing of the table but `skip_count`. -/
theorem current_table {row : RowPtr} (h : it.current = some (it', row)) :
    ∃ skip, it'.table = it.table.skip skip := by
  obtain ⟨skip, hloop⟩ := currentLoop_eq (it.table.listN - it.absoluteIndex) it
  simp only [current, hloop] at h
  split at h
  · exact ⟨skip, by rw [← (Prod.mk.inj (Option.some.inj h)).1]⟩
  · obtain ⟨_, -, hrow⟩ := Option.map_eq_some_iff.mp h
    exact ⟨skip, by rw [← (Prod.mk.inj hrow).1]⟩

/-- `current` has a row only if there is one before it. -/
theorem current_row {j : ℕ} (h : it.current = some (it', some (i, j))) :
    it'.collisionIndex = it.collisionIndex ∧ it'.before = it.before ∧ 0 < it.before := by
  obtain ⟨k, i', -, hlt, hentry, -, hplaces, skip, hanswer⟩ | ⟨-, skip, k, hanswer⟩ :=
    it.current_cases
  · rw [hanswer] at h
    split_ifs at h with hc hend
    · simp only [Option.map_some, Option.some.injEq, Prod.mk.injEq] at h
      obtain ⟨rfl, -, -⟩ := h
      refine ⟨rfl, ?_, ?_⟩
      · show (it.table.placesFrom k).length - it.collisionIndex = _
        rw [← hplaces]
        rfl
      · rw [before, hplaces, Table.placesFrom_of_entry hlt hentry, length_append,
          Table.length_places]
        omega
    all_goals simp at h
  · rw [hanswer] at h
    split_ifs at h
    simp at h

/-- The loop of `forward` passes over the gaps. -/
theorem forwardLoop_seek (n : ℕ) (it : TableIterator) :
    forwardLoop n it =
      forwardLoop (it.absoluteIndex + n - seek it.table.rowsList it.absoluteIndex n)
        { it with absoluteIndex := seek it.table.rowsList it.absoluteIndex n } := by
  induction n generalizing it with
  | zero => simp [forwardLoop, seek]
  | succ n ih =>
    cases hk : it.table.rowsList it.absoluteIndex with
    | none =>
      have hlen : it.absoluteIndex + (n + 1) = it.absoluteIndex + 1 + n := by omega
      simp only [forwardLoop, seek, hk]
      rw [ih, hlen]
    | some i =>
      rw [seek_eq_self hk, Nat.add_sub_cancel_left]

/-- `forward` works on the next entry, or comes to the end of the list. -/
theorem forward_cases (it : TableIterator) :
    (∃ k i, k < it.table.listN ∧ it.table.rowsList k = some i ∧
        it.table.placesFrom it.absoluteIndex = it.table.placesFrom k ∧
        it.forward = ({ it with absoluteIndex := k } : TableIterator).forward) ∨
      (it.table.placesFrom it.absoluteIndex = [] ∧
        ∃ k, it.table.listN ≤ k ∧ it.forward = some { it with absoluteIndex := k }) := by
  have hseek := forwardLoop_seek (it.table.listN - it.absoluteIndex) it
  have hle := le_seek it.table.rowsList it.absoluteIndex
    (it.table.listN - it.absoluteIndex)
  have hcases := it.table.placesFrom_seek it.absoluteIndex
  generalize seek it.table.rowsList it.absoluteIndex
    (it.table.listN - it.absoluteIndex) = k at hseek hle hcases
  obtain ⟨i, hk, hi, hplaces⟩ | ⟨heq, hplaces⟩ := hcases
  · rw [show it.absoluteIndex + (it.table.listN - it.absoluteIndex) = it.table.listN by omega]
      at hseek
    exact .inl ⟨k, i, hk, hi, hplaces, hseek⟩
  · rw [← heq, Nat.sub_self] at hseek
    exact .inr ⟨hplaces, k, by omega, hseek⟩

/-- **The step lemma** for `forward`: it leaves at least one row behind. -/
theorem forward_before (h : it.forward = some it') :
    it'.table = it.table ∧ it'.before ≤ it.before - 1 := by
  obtain ⟨k, i, hk, hi, hplaces, hforward⟩ | ⟨hplaces, k, hk, hforward⟩ := it.forward_cases
  · have hlen : (it.table.rows i).rows.length = (it.table.rows i).chain.length + 1 := rfl
    have hself : (it.table.placesFrom k).length = (it.table.rows i).rows.length +
        (it.table.placesFrom (k + 1)).length := by
      rw [Table.placesFrom_of_entry hk hi, length_append, Table.length_places]
    have hbefore : it.before = (it.table.placesFrom k).length - it.collisionIndex := by
      rw [before, hplaces]
    have hentry := @forward_of_entry { it with absoluteIndex := k } i hk hi
    rw [hforward, hentry] at h
    split_ifs at h with hchain hin hend
    · obtain rfl := Option.some.inj h
      refine ⟨rfl, ?_⟩
      show (it.table.placesFrom (k + 1)).length - it.collisionIndex ≤ _
      omega
    · obtain rfl := Option.some.inj h
      refine ⟨rfl, ?_⟩
      show (it.table.placesFrom k).length - (it.collisionIndex + 1) ≤ _
      omega
    · obtain rfl := Option.some.inj h
      refine ⟨rfl, ?_⟩
      show (it.table.placesFrom (k + 1)).length - 0 ≤ _
      have hend' : it.collisionIndex + 1 = (it.table.rows i).rows.length := hend
      omega
  · obtain rfl := Option.some.inj (hforward.symm.trans h)
    refine ⟨rfl, ?_⟩
    have hnil : it.table.placesFrom k = [] := by
      rw [Table.placesFrom, Nat.sub_eq_zero_of_le hk]
      rfl
    show (it.table.placesFrom k).length - it.collisionIndex ≤ _
    rw [hnil, length_nil, Nat.zero_sub]
    exact Nat.zero_le _

/-- One round of the loop, from `it` to `it'`: the row that `current` returned, the delete of
its key, and `forward`. -/
structure Round (it : TableIterator) (malloc : Bool) (row : TableRow) (it' : TableIterator) :
    Prop where
  exists_row : ∃ it₁ i j, it.current = some (it₁, some (i, j)) ∧
    (it₁.table.rows i).rows[j]? = some row ∧ (it₁.del row.text malloc).forward = some it'

variable {malloc : ℕ → Bool} {visited : List TableRow} {fuel : ℕ}

/-- **What a run of the loop is made of.** -/
theorem drain_succ (h : it.drain (fuel + 1) malloc = some (visited, it')) :
    (visited = [] ∧ it.current = some (it', none)) ∨
      ∃ row it₂ rest, it.Round (malloc 0) row it₂ ∧ visited = row :: rest ∧
        it₂.drain fuel (fun n => malloc (n + 1)) = some (rest, it') := by
  rw [drain] at h
  split at h
  · cases h
  next it₁ hcurrent =>
    obtain ⟨rfl, rfl⟩ := Prod.mk.inj (Option.some.inj h)
    exact .inl ⟨rfl, hcurrent⟩
  next it₁ i j hcurrent =>
    split at h
    · cases h
    next row hrow =>
      split at h
      · cases h
      next it₂ hforward =>
        obtain ⟨⟨rest, it₃⟩, hrest, hr⟩ := Option.map_eq_some_iff.mp h
        obtain ⟨rfl, rfl⟩ := Prod.mk.inj hr
        exact .inr ⟨row, it₂, rest, ⟨it₁, i, j, hcurrent, hrow, hforward⟩, rfl, hrest⟩

/-- **The step lemma**: a round leaves a row behind, and deletes one row at most. -/
theorem Round.bounds {malloc : Bool} {row : TableRow} (h : it.Round malloc row it')
    (hb : it.table.Books) :
    it'.table.Books ∧ it'.before + 1 ≤ it.before ∧ it.table.rowNum ≤ it'.table.rowNum + 1 ∧
      it'.before ≤ it'.table.rowNum - it.collisionIndex - 1 := by
  obtain ⟨it₁, i, j, hcurrent, -, hforward⟩ := h
  obtain ⟨skip, hskip⟩ := current_table hcurrent
  obtain ⟨hcoll, hbefore, hpos⟩ := current_row hcurrent
  obtain ⟨htable, hlt⟩ := forward_before hforward
  have hb₁ : it₁.table.Books := hskip ▸ hb.skip skip
  have hb' : (it₁.del row.text malloc).table.Books := hb₁.del row.text malloc
  obtain ⟨hplaces, hnum⟩ := Table.del_placesFrom_le hb₁ row.text malloc it₁.absoluteIndex
  have hall := hb'.length_placesFrom_le_rowNum it₁.absoluteIndex
  have hdel : (it₁.del row.text malloc).before =
      ((it₁.del row.text malloc).table.placesFrom it₁.absoluteIndex).length -
        it₁.collisionIndex := rfl
  have hbefore₁ : it₁.before =
      (it₁.table.placesFrom it₁.absoluteIndex).length - it₁.collisionIndex := rfl
  have hnum₁ : it₁.table.rowNum = it.table.rowNum := by rw [hskip]; rfl
  have hdeltable : (it₁.del row.text malloc).table = (it₁.table.del row.text malloc).1 := rfl
  rw [← hdeltable] at hplaces hnum
  rw [htable]
  exact ⟨hb', by omega, by omega, by omega⟩

/-- **The run lemma**: there are as many rounds as rows before the iterator at most, and as many
deletes as rounds. -/
theorem drain_bounds (h : it.drain fuel malloc = some (visited, it')) (hb : it.table.Books) :
    it'.table.Books ∧ visited.length ≤ it.before ∧
      it.table.rowNum ≤ it'.table.rowNum + visited.length := by
  induction fuel generalizing it malloc visited with
  | zero => cases h
  | succ fuel ih =>
    obtain ⟨rfl, hcurrent⟩ | ⟨row, it₂, rest, hround, rfl, hrest⟩ := drain_succ h
    · obtain ⟨skip, hskip⟩ := current_table hcurrent
      rw [hskip]
      exact ⟨hb.skip skip, Nat.zero_le _, Nat.le_add_right _ _⟩
    · obtain ⟨hb₂, hbefore, hnum, -⟩ := hround.bounds hb
      obtain ⟨hb', hlen, hnum'⟩ := ih hrest hb₂
      rw [length_cons]
      exact ⟨hb', by omega, by omega⟩

/-! ## Tables that can be emptied -/

/-- The first round of a loop that drains a table: it takes a row away, and the iterator still
has all others before it. -/
theorem Drained.exists_round (h : it.Drained malloc) (hb : it.table.Books)
    (hpos : 0 < it.table.rowNum) :
    ∃ row it', it.rewind.Round (malloc 0) row it' ∧ it'.table.rowNum ≤ it'.before ∧
      it'.table.rowNum < it.table.rowNum := by
  obtain ⟨fuel, visited, it', hdrain, hperm, hempty⟩ := h
  have hlen := hperm.length_eq
  rw [length_map, length_map, Table.length_activeRowList, ← hb.rowNum_eq] at hlen
  have hstart : it.rewind.table.Books := hb.skip 0
  have hnone : it'.table.rowNum = 0 := by
    rw [(drain_bounds hdrain hstart).1.rowNum_eq, ← Table.length_activeRowList, hempty, length_nil]
  cases fuel with
  | zero => cases hdrain
  | succ fuel =>
    obtain ⟨rfl, -⟩ | ⟨row, it₂, rest, hround, rfl, hrest⟩ := drain_succ hdrain
    · rw [← hlen] at hpos
      cases hpos
    · obtain ⟨-, hrestlen, hrestnum⟩ := drain_bounds hrest (hround.bounds hstart).1
      rw [length_cons] at hlen
      exact ⟨row, it₂, hround, by omega, by omega⟩

/-- With two rows or more the loop does not empty the table: the first round leaves one of the
others behind. -/
theorem Drained.rowNum_le (h : it.Drained malloc) (hb : it.table.Books) : it.table.rowNum ≤ 1 := by
  by_contra htwo
  obtain ⟨row, it', hround, hall, -⟩ := h.exists_round hb (by omega)
  obtain ⟨-, -, hnum, hbefore⟩ := hround.bounds (hb.skip 0)
  have hnum' : it.table.rowNum ≤ it'.table.rowNum + 1 := hnum
  omega

end TableIterator

namespace Table

variable {t : Table} {i : ℕ}

/-- There is one row at most, and the text of its key leads to its bucket.  A key with a null
byte is stored as a whole, but the text ends at the null byte. -/
def Drainable (t : Table) : Prop :=
  t.activeRows ≤ 1 ∧
    ∀ i < t.size, (t.rows i).root.active = true → t.index (t.rows i).root.text = i

theorem Books.eq_of_mem_placesFrom (h : t.Books) (hone : t.rowNum ≤ 1) {p p' : ℕ × ℕ}
    (hp : p ∈ t.placesFrom 0) (hp' : p' ∈ t.placesFrom 0) : p = p' := by
  have hlen := h.length_placesFrom_zero
  rcases hl : t.placesFrom 0 with _ | ⟨q, _ | ⟨q', rest⟩⟩
  · rw [hl] at hp
    cases hp
  · rw [hl, mem_singleton] at hp hp'
    rw [hp, hp']
  · rw [hl, length_cons, length_cons] at hlen
    omega

theorem Books.root_mem_placesFrom (h : t.Books) (hact : (t.rows i).root.active = true) :
    (i, 0) ∈ t.placesFrom 0 := h.mem_placesFrom_zero.mpr ⟨_, rfl, hact⟩

theorem Books.chain_eq_nil (h : t.Books) (hone : t.rowNum ≤ 1)
    (hact : (t.rows i).root.active = true) : (t.rows i).chain = [] := by
  cases hchain : (t.rows i).chain with
  | nil => rfl
  | cons tmp rest =>
    have hrow : (t.rows i).rows[1]? = some tmp := by rw [Bucket.rows, hchain]; rfl
    have htmp : tmp.active = true :=
      (h.linked i).chain_active tmp (hchain ▸ mem_cons_self)
    have hsecond : (i, 1) ∈ t.placesFrom 0 := h.mem_placesFrom_zero.mpr ⟨tmp, hrow, htmp⟩
    exact absurd (h.eq_of_mem_placesFrom hone (h.root_mem_placesFrom hact) hsecond) (by simp)

theorem matches_text (row : TableRow) : row.Matches row.text = true := by
  have htext : row.text <+: _ := take_prefix _ _
  exact strncmpEq_of_isPrefix <| htext.trans <| takeWhile_prefix _

theorem length_text_le (row : TableRow) : row.text.length ≤ tableKeySize :=
  length_take_le _ _

/-- A delete that takes a row away finds the root of its bucket active. -/
theorem active_of_del {key : Bytes} {malloc : Bool} (hlen : key.length ≤ tableKeySize)
    (h : (t.del key malloc).1.rowNum ≠ t.rowNum) : (t.rows (t.index key)).root.active = true := by
  have hcases := t.del_cases key malloc
  rw [take_of_length_le hlen] at hcases
  generalize t.del key malloc = r at hcases h
  cases hcases with
  | absent => exact absurd rfl h
  | root hact => exact hact
  | move hact => exact hact
  | chain hact => exact hact

end Table

namespace TableIterator

variable {it it' : TableIterator} {i : ℕ}

/-- With nothing before it, `current` returns `NULL`. -/
theorem current_of_nil (hc : it.collisionIndex = 0)
    (h : it.table.placesFrom it.absoluteIndex = []) : ∃ it', it.current = some (it', none) := by
  obtain ⟨-, hnull⟩ | ⟨it', i, -, htodo, hk, hi, hc'⟩ :=
    @current_of_ready it fun hne => absurd hc hne
  · exact hnull
  · rw [todo_of_entry hk hi hc', todo, h, drop_nil] at htodo
    cases htodo

variable (hb : it.table.Books)
include hb

theorem drained_of_rowNum_eq_zero (h : it.table.rowNum = 0) (malloc : ℕ → Bool) :
    it.Drained malloc := by
  have hempty : it.table.activeRowList = [] := by
    rw [← length_eq_zero_iff, Table.length_activeRowList, ← hb.rowNum_eq, h]
  have hnil : it.table.placesFrom 0 = [] := by
    rw [← length_eq_zero_iff, hb.length_placesFrom_zero, h]
  obtain ⟨it', hcurrent⟩ := @current_of_nil it.rewind rfl hnil
  obtain ⟨skip, hskip⟩ := current_table hcurrent
  refine ⟨1, [], it', by simp only [drain, hcurrent], ?_, ?_⟩
  · rw [hempty]
  · rw [hskip]
    exact hempty

variable (hact : (it.table.rows i).root.active = true)
include hact

/-- The first round in a table with one row: `current` returns its root, the delete takes its
text, and what `forward` does is that of the table left. -/
theorem current_of_root (hone : it.table.rowNum ≤ 1) :
    ∃ it₁, it.rewind.current = some (it₁, some (i, 0)) ∧ it₁.collisionIndex = 0 ∧
      ∃ skip, it₁.table = it.table.skip skip := by
  have hroot := hb.root_mem_placesFrom hact
  obtain ⟨hnil, -⟩ | ⟨it₁, i', hcurrent, htodo, hk, hi, -⟩ :=
    @current_of_ready it.rewind fun hne => absurd rfl hne
  · have hnil' : it.table.placesFrom 0 = [] := hnil
    rw [hnil'] at hroot
    cases hroot
  · obtain ⟨skip, hskip⟩ := current_table hcurrent
    have hcoll := (current_row hcurrent).1
    rw [hcoll] at hcurrent
    have hactive' : (it.table.rows i').root.active = true := by
      rw [hskip] at hk hi
      exact hb.listed.mem _ hk _ hi
    obtain ⟨rfl, -⟩ := Prod.mk.inj
      (hb.eq_of_mem_placesFrom hone hroot (hb.root_mem_placesFrom hactive'))
    exact ⟨it₁, hcurrent, hcoll, skip, hskip⟩

theorem drained_of_root (hone : it.table.rowNum = 1)
    (hindex : it.table.index (it.table.rows i).root.text = i) (malloc : ℕ → Bool) :
    it.Drained malloc := by
  obtain ⟨it₁, hcurrent, hcoll, skip, hskip⟩ := current_of_root hb hact hone.le
  set row := (it.table.rows i).root
  have hbucket : it₁.table.rows (it₁.table.index row.text) = ⟨row, []⟩ := by
    have hsame : it₁.table.index row.text = i := by
      rw [hskip]
      exact hindex
    rw [hsame, hskip, ← hb.chain_eq_nil hone.le hact]
    rfl
  have hget : (it₁.table.rows i).rows[0]? = some row := by
    rw [hskip]
    rfl
  have hdel := Table.del_of_alone (Table.length_text_le row) hbucket hact
    (Table.matches_text row) (malloc 0)
  set it₂ := it₁.del row.text (malloc 0) with hit₂
  have hb₁ : it₂.table.Books :=
    (hskip ▸ hb.skip skip : it₁.table.Books).del row.text (malloc 0)
  have hzero : it₂.table.rowNum = 0 := by
    show (it₁.table.del row.text (malloc 0)).1.rowNum = 0
    rw [hdel]
    rw [hskip]
    show it.table.rowNum - 1 = 0
    omega
  have hnil : ∀ k, it₂.table.placesFrom k = [] := by
    intro k
    have hle := hb₁.length_placesFrom_le_rowNum k
    rw [hzero, Nat.le_zero] at hle
    exact length_eq_zero_iff.mp hle
  obtain ⟨k, i', hk, hi, hplaces, -⟩ | ⟨-, k, -, hforward⟩ := it₂.forward_cases
  · have hlen := congrArg length (Table.placesFrom_of_entry hk hi)
    rw [hnil, length_append, Table.length_places] at hlen
    have hpos := Table.rows_length_pos it₂.table i'
    simp only [length_nil] at hlen
    omega
  · obtain ⟨it₃, hlast⟩ := @current_of_nil { it₂ with absoluteIndex := k } hcoll (hnil k)
    obtain ⟨skip', hskip'⟩ := current_table hlast
    refine ⟨2, [row], it₃, ?_, ?_, ?_⟩
    · simp only [drain, hcurrent, hget, ← hit₂, hforward, hlast, Option.map_some]
    · have hmem : row ∈ it.table.activeRowList := by
        refine mem_flatMap.mpr ⟨i, mem_range.mpr (hb.within i hact), ?_⟩
        exact mem_filter.mpr ⟨mem_cons_self, hact⟩
      obtain ⟨row', hlist⟩ : ∃ row', it.table.activeRowList = [row'] := by
        rw [← length_eq_one_iff, Table.length_activeRowList, ← hb.rowNum_eq, hone]
      rw [hlist, mem_singleton] at hmem
      rw [hlist, hmem]
    · rw [← length_eq_zero_iff, Table.length_activeRowList, hskip']
      exact hb₁.rowNum_eq.symm.trans hzero

theorem Drained.index_eq (h : it.Drained malloc) :
    it.table.index (it.table.rows i).root.text = i := by
  have hone := h.rowNum_le hb
  have hroot := hb.root_mem_placesFrom hact
  have hpos : 0 < it.table.rowNum := by
    rw [← hb.length_placesFrom_zero]
    exact length_pos_of_mem hroot
  obtain ⟨it₁, hcurrent, -, skip, hskip⟩ := current_of_root hb hact hone
  obtain ⟨row, it₂, ⟨it₁', i', j, hcurrent', hrow, hforward⟩, -, hless⟩ := h.exists_round hb hpos
  rw [hcurrent, Option.some.injEq, Prod.mk.injEq, Option.some.injEq, Prod.mk.injEq] at hcurrent'
  obtain ⟨rfl, rfl, rfl⟩ := hcurrent'
  rw [hskip] at hrow
  obtain rfl : (it.table.rows i).root = row := Option.some.inj hrow
  have hfound : (it₁.table.rows (it₁.table.index (it.table.rows i).root.text)).root.active =
      true := by
    have hnum : it₁.table.rowNum = it.table.rowNum := by
      rw [hskip]
      rfl
    rw [(forward_before hforward).1, ← hnum] at hless
    exact Table.active_of_del (Table.length_text_le _) (ne_of_lt hless)
  rw [hskip] at hfound
  exact (Prod.mk.inj (hb.eq_of_mem_placesFrom hone (hb.root_mem_placesFrom hfound) hroot)).1

omit hact

theorem drained_iff_drainable : it.Drained malloc ↔ it.table.Drainable := by
  constructor
  · intro h
    exact ⟨hb.rowNum_eq ▸ h.rowNum_le hb, fun i _ hact => h.index_eq hb hact⟩
  · rintro ⟨hle, hindex⟩
    rw [← hb.rowNum_eq] at hle
    rcases Nat.le_one_iff_eq_zero_or_eq_one.mp hle with hzero | hone
    · exact drained_of_rowNum_eq_zero hb hzero malloc
    · obtain ⟨p, hp⟩ : ∃ p, p ∈ it.table.placesFrom 0 := by
        refine exists_mem_of_length_pos ?_
        rw [hb.length_placesFrom_zero, hone]
        exact one_pos
      rw [Table.placesFrom_zero, mem_flatMap] at hp
      obtain ⟨i, hi, -⟩ := hp
      have hact : (it.table.rows i).root.active = true := hb.listed.mem_live_iff.mp hi
      exact drained_of_root hb hact hone (hindex i (hb.within i hact) hact) malloc

end TableIterator

namespace Table

open StepRun

end Table

end Swoole
