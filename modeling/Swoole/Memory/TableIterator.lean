import Swoole.Memory.TableAccount

/-!
# Iterating over the table

The iterator is a pair of indices: `absolute_index` into the list of active roots, and
`collision_index` into the chain of the root there.  `swTable_iterator_current` passes over the
gaps of the list and follows the chain; `swTable_iterator_forward` moves to the next row of the
chain, or behind its root.  Both follow `row->next` without looking whether there is a row, so
the model lets them fail: `none` is a dereference of `NULL`.

`todo` is the list of the places that the iterator has still before it.  In a table that does
not change, `current` is at the first of them and `forward` drops it, so a scan from the start
goes over the places of all roots in the list.
-/

open List JumpList

namespace Swoole

/-- A pointer to a row: `NULL`, or a bucket and a place among its root and chain. -/
abbrev RowPtr := Option (ℕ × ℕ)

namespace Table

/-- The table with another `skip_count`; the iterator changes nothing else of it. -/
def skip (t : Table) (skipCount : ℕ) : Table := { t with skipCount := skipCount }

/-- `row->next`. -/
def nextRow (t : Table) : RowPtr → Option RowPtr
  | none => none
  | some (i, j) => some (if j + 1 < (t.rows i).rows.length then some (i, j + 1) else none)

/-- `row = row->next`, `n` times. -/
def walk (t : Table) : ℕ → RowPtr → Option RowPtr
  | 0, row => some row
  | n + 1, row => (t.nextRow row).bind (t.walk n)

end Table

/-- A table with its iterator; `skip_count` is in the table. -/
structure TableIterator where
  table : Table
  absoluteIndex : ℕ
  collisionIndex : ℕ

namespace TableIterator

/-- `swTable_iterator_rewind`. -/
def rewind (it : TableIterator) : TableIterator where
  table := it.table.skip 0
  absoluteIndex := 0
  collisionIndex := 0

/-- The loop of `swTable_iterator_current` over `n` entries of the list. -/
def currentLoop : ℕ → TableIterator → TableIterator × Option ℕ
  | 0, it => (it, none)
  | n + 1, it =>
    match it.table.rowsList it.absoluteIndex with
    | none =>
      currentLoop n
        { it with
          table := it.table.skip ((it.table.skipCount + 1) % 2 ^ 32)
          absoluteIndex := it.absoluteIndex + 1 }
    | some i => (it, some i)

/-- `swTable_iterator_current`. -/
def current (it : TableIterator) : Option (TableIterator × RowPtr) :=
  let r := currentLoop (it.table.listN - it.absoluteIndex) it
  let row : RowPtr := r.2.map fun i => (i, 0)
  if r.1.collisionIndex = 0 then some (r.1, row)
  else (r.1.table.walk r.1.collisionIndex row).map fun row => (r.1, row)

/-- The loop of `swTable_iterator_forward` over `n` entries of the list. -/
def forwardLoop : ℕ → TableIterator → Option TableIterator
  | 0, it => some it
  | n + 1, it =>
    match it.table.rowsList it.absoluteIndex with
    | none => forwardLoop n { it with absoluteIndex := it.absoluteIndex + 1 }
    | some i =>
      match (it.table.rows i).chain with
      | [] => some { it with absoluteIndex := it.absoluteIndex + 1 }
      | _ :: _ =>
        -- the inner loop has followed the chain when its counter is `collision_index`
        (it.table.walk (it.collisionIndex + 1) (some (i, 0))).map fun row =>
          match row with
          | none =>
            { it with absoluteIndex := it.absoluteIndex + 1, collisionIndex := 0 }
          | some _ => { it with collisionIndex := it.collisionIndex + 1 }

/-- `swTable_iterator_forward`. -/
def forward (it : TableIterator) : Option TableIterator :=
  forwardLoop (it.table.listN - it.absoluteIndex) it

/-- `current` and `forward` in turn, until `current` returns `NULL`: the rows it has returned.
`none` if a call fails or `fuel` runs out. -/
def scan : ℕ → TableIterator → Option (List (ℕ × ℕ))
  | 0, _ => none
  | fuel + 1, it =>
    match it.current with
    | none => none
    | some (_, none) => some []
    | some (it', some row) =>
      match it'.forward with
      | none => none
      | some it'' => (scan fuel it'').map (row :: ·)

end TableIterator

/-! ## The calls -/

namespace Table

variable {t : Table} {i j : ℕ}

theorem walk_eq (hj : j < (t.rows i).rows.length) (n : ℕ) :
    t.walk n (some (i, j)) =
      if j + n < (t.rows i).rows.length then some (some (i, j + n))
      else if j + n = (t.rows i).rows.length then some none
      else none := by
  induction n generalizing j with
  | zero => rw [add_zero, if_pos hj, walk]
  | succ n ih =>
    rw [walk, nextRow, Option.bind_some]
    by_cases hnext : j + 1 < (t.rows i).rows.length
    · rw [if_pos hnext, ih hnext, Nat.add_right_comm, add_assoc]
    · rw [if_neg hnext, if_neg (by omega)]
      cases n with
      | zero => rw [walk, if_pos (by omega)]
      | succ n => rw [walk, nextRow, Option.bind_none, if_neg (by omega)]

/-- The places of the rows of a bucket. -/
def places (t : Table) (i : ℕ) : List (ℕ × ℕ) :=
  (range (t.rows i).rows.length).map fun j => (i, j)

/-- The places of the rows that are listed from index `k` on. -/
def placesFrom (t : Table) (k : ℕ) : List (ℕ × ℕ) :=
  (JumpList.entries t.rowsList k (t.listN - k)).flatMap t.places

theorem length_places (t : Table) (i : ℕ) : (t.places i).length = (t.rows i).rows.length := by
  rw [places, length_map, length_range]

theorem rows_length_pos (t : Table) (i : ℕ) : 0 < (t.rows i).rows.length := Nat.succ_pos _

theorem placesFrom_of_entry {k : ℕ} (hk : k < t.listN) (hi : t.rowsList k = some i) :
    t.placesFrom k = t.places i ++ t.placesFrom (k + 1) := by
  obtain ⟨n, hn⟩ : ∃ n, t.listN - k = n + 1 := ⟨t.listN - k - 1, by omega⟩
  have hn' : t.listN - (k + 1) = n := by omega
  rw [placesFrom, placesFrom, hn, hn', entries_succ_some hi, flatMap_cons]

/-- From an index on, the rows are those from the next entry on, if there is one. -/
theorem placesFrom_seek (t : Table) (k : ℕ) :
    (∃ i, seek t.rowsList k (t.listN - k) < t.listN ∧
        t.rowsList (seek t.rowsList k (t.listN - k)) = some i ∧
        t.placesFrom k = t.placesFrom (seek t.rowsList k (t.listN - k))) ∨
      seek t.rowsList k (t.listN - k) = k + (t.listN - k) ∧ t.placesFrom k = [] := by
  have hle := le_seek t.rowsList k (t.listN - k)
  have hcases := seek_cases t.rowsList k (t.listN - k)
  generalize seek t.rowsList k (t.listN - k) = k' at hle hcases ⊢
  obtain ⟨i, hlt, hi, hentries⟩ | ⟨heq, hentries⟩ := hcases
  · have hk' : k' < t.listN := by omega
    have hlen : k + (t.listN - k) = t.listN := by omega
    rw [hlen] at hentries
    refine .inl ⟨i, hk', hi, ?_⟩
    rw [placesFrom_of_entry hk' hi, placesFrom, hentries, flatMap_cons]
    rfl
  · exact .inr ⟨heq, by rw [placesFrom, hentries, flatMap_nil]⟩

end Table

namespace TableIterator

variable {it : TableIterator} {i : ℕ}

/-- The loop stops at the next entry; only `skip_count` counts the gaps. -/
theorem currentLoop_eq (n : ℕ) (it : TableIterator) :
    ∃ skip, currentLoop n it =
      (⟨it.table.skip skip, seek it.table.rowsList it.absoluteIndex n, it.collisionIndex⟩,
        if seek it.table.rowsList it.absoluteIndex n < it.absoluteIndex + n then
          it.table.rowsList (seek it.table.rowsList it.absoluteIndex n)
        else none) := by
  induction n generalizing it with
  | zero => exact ⟨it.table.skipCount, by simp [currentLoop, seek, Table.skip]⟩
  | succ n ih =>
    cases hk : it.table.rowsList it.absoluteIndex with
    | none =>
      obtain ⟨skip, hskip⟩ := ih ⟨it.table.skip ((it.table.skipCount + 1) % 2 ^ 32),
        it.absoluteIndex + 1, it.collisionIndex⟩
      have hlen : it.absoluteIndex + (n + 1) = it.absoluteIndex + 1 + n := by omega
      refine ⟨skip, ?_⟩
      simp only [currentLoop, seek, hk]
      rw [hskip, hlen]
      rfl
    | some i =>
      refine ⟨it.table.skipCount, ?_⟩
      simp only [currentLoop, seek, hk]
      rw [if_pos (by omega)]
      rfl

/-- `current` stands at the next entry and follows its chain. -/
structure AtEntry (it : TableIterator) (k i : ℕ) (answer : Option (TableIterator × RowPtr)) :
    Prop where
  lt : k < it.table.listN
  entry : it.table.rowsList k = some i
  first : ∀ i', it.table.rowsList it.absoluteIndex = some i' → k = it.absoluteIndex
  places : it.table.placesFrom it.absoluteIndex = it.table.placesFrom k
  answer_eq : ∃ skip, answer =
    (if it.collisionIndex < (it.table.rows i).rows.length then some (some (i, it.collisionIndex))
      else if it.collisionIndex = (it.table.rows i).rows.length then some none
      else none).map fun row => (⟨it.table.skip skip, k, it.collisionIndex⟩, row)

/-- `current` has come to the end of the list. -/
structure AtEnd (it : TableIterator) (answer : Option (TableIterator × RowPtr)) : Prop where
  places : it.table.placesFrom it.absoluteIndex = []
  answer_eq : ∃ skip k, answer =
    if it.collisionIndex = 0 then some (⟨it.table.skip skip, k, it.collisionIndex⟩, none)
    else none

/-- **What `current` does.** -/
theorem current_cases (it : TableIterator) :
    (∃ k i, it.absoluteIndex ≤ k ∧ it.AtEntry k i it.current) ∨ it.AtEnd it.current := by
  obtain ⟨skip, hloop⟩ := currentLoop_eq (it.table.listN - it.absoluteIndex) it
  have hle := le_seek it.table.rowsList it.absoluteIndex
    (it.table.listN - it.absoluteIndex)
  have hcases := it.table.placesFrom_seek it.absoluteIndex
  have hfirst : ∀ i', it.table.rowsList it.absoluteIndex = some i' →
      seek it.table.rowsList it.absoluteIndex (it.table.listN - it.absoluteIndex) =
        it.absoluteIndex := fun i' hi' => seek_eq_self hi' _
  generalize seek it.table.rowsList it.absoluteIndex
    (it.table.listN - it.absoluteIndex) = k at hloop hle hcases hfirst
  obtain ⟨i, hk, hi, hplaces⟩ | ⟨heq, hplaces⟩ := hcases
  · rw [if_pos (by omega), hi] at hloop
    refine .inl ⟨k, i, hle, hk, hi, hfirst, hplaces, skip, ?_⟩
    have hwalk := Table.walk_eq (t := it.table.skip skip) (i := i) (j := 0)
      (Nat.succ_pos _) it.collisionIndex
    rw [zero_add] at hwalk
    simp only [current, hloop, Option.map_some]
    split
    next hzero =>
      rw [hzero, if_pos (Table.rows_length_pos _ i)]
      rfl
    · rw [hwalk]
      rfl
  · rw [if_neg (by omega)] at hloop
    refine .inr ⟨hplaces, skip, k, ?_⟩
    simp only [current, hloop, Option.map_none]
    split
    · rfl
    next hpos =>
      obtain ⟨n, hn⟩ := Nat.exists_eq_succ_of_ne_zero hpos
      rw [hn]
      rfl

/-! ## The places before the iterator -/

/-- The places that the iterator has still before it. -/
def todo (it : TableIterator) : List (ℕ × ℕ) :=
  (it.table.placesFrom it.absoluteIndex).drop it.collisionIndex

/-- Inside a chain the iterator stands at the root of the chain, and there is a row for it. -/
def Ready (it : TableIterator) : Prop :=
  it.collisionIndex ≠ 0 → it.absoluteIndex < it.table.listN ∧
    ∃ i, it.table.rowsList it.absoluteIndex = some i ∧
      it.collisionIndex < (it.table.rows i).rows.length

/-- `current` is at the first place. -/
theorem current_of_ready (hr : it.Ready) :
    (it.todo = [] ∧ ∃ it', it.current = some (it', none)) ∨
      ∃ it' i, it.current = some (it', some (i, it'.collisionIndex)) ∧ it'.todo = it.todo ∧
        it'.absoluteIndex < it'.table.listN ∧ it'.table.rowsList it'.absoluteIndex = some i ∧
        it'.collisionIndex < (it'.table.rows i).rows.length := by
  obtain ⟨k, i, -, hlt, hentry, hfirst, hplaces, skip, hanswer⟩ | ⟨hplaces, skip, k, hanswer⟩ :=
    it.current_cases
  · have hc : it.collisionIndex < (it.table.rows i).rows.length := by
      by_cases hzero : it.collisionIndex = 0
      · rw [hzero]
        exact it.table.rows_length_pos i
      · obtain ⟨-, i', hi', hc⟩ := hr hzero
        rw [hfirst i' hi', hi', Option.some.injEq] at hentry
        exact hentry ▸ hc
    rw [if_pos hc, Option.map_some] at hanswer
    exact .inr ⟨_, i, hanswer, congrArg (drop it.collisionIndex) hplaces.symm, hlt, hentry, hc⟩
  · have hzero : it.collisionIndex = 0 := by
      by_contra hpos
      obtain ⟨hk, i, hi, -⟩ := hr hpos
      rw [Table.placesFrom_of_entry hk hi] at hplaces
      have hlen := congrArg length hplaces
      have hpos := it.table.rows_length_pos i
      rw [length_append, Table.length_places, length_nil] at hlen
      omega
    rw [if_pos hzero] at hanswer
    refine .inl ⟨?_, _, hanswer⟩
    rw [todo, hplaces, drop_nil]

variable (hk : it.absoluteIndex < it.table.listN)
  (hi : it.table.rowsList it.absoluteIndex = some i)
include hk hi

/-- **What `forward` does** at an entry of the list. -/
theorem forward_of_entry :
    it.forward =
      if (it.table.rows i).chain = [] then some { it with absoluteIndex := it.absoluteIndex + 1 }
      else if it.collisionIndex + 1 < (it.table.rows i).rows.length then
        some { it with collisionIndex := it.collisionIndex + 1 }
      else if it.collisionIndex + 1 = (it.table.rows i).rows.length then
        some { it with absoluteIndex := it.absoluteIndex + 1, collisionIndex := 0 }
      else none := by
  obtain ⟨n, hn⟩ : ∃ n, it.table.listN - it.absoluteIndex = n + 1 :=
    ⟨it.table.listN - it.absoluteIndex - 1, by omega⟩
  have hwalk := Table.walk_eq (t := it.table) (i := i) (j := 0) (Nat.succ_pos _)
    (it.collisionIndex + 1)
  rw [zero_add] at hwalk
  simp only [forward, hn, forwardLoop, hi]
  cases hchain : (it.table.rows i).chain with
  | nil => rw [if_pos rfl]
  | cons tmp rest =>
    rw [if_neg (cons_ne_nil _ _), hwalk]
    split_ifs <;> rfl

variable (hc : it.collisionIndex < (it.table.rows i).rows.length)
include hc

theorem todo_of_entry :
    it.todo = (i, it.collisionIndex) ::
      ((it.table.places i).drop (it.collisionIndex + 1) ++
        it.table.placesFrom (it.absoluteIndex + 1)) := by
  have hlen : it.collisionIndex < (it.table.places i).length := by
    rw [Table.length_places]
    exact hc
  have hget : (it.table.places i)[it.collisionIndex] = (i, it.collisionIndex) := by
    simp [Table.places]
  rw [todo, Table.placesFrom_of_entry hk hi, drop_append_of_le_length hlen.le,
    drop_eq_getElem_cons hlen, hget]
  rfl

/-- `forward` drops the first place. -/
theorem forward_of_ready :
    ∃ it', it.forward = some it' ∧ it'.Ready ∧ it.todo = (i, it.collisionIndex) :: it'.todo := by
  have hlen : (it.table.rows i).rows.length = (it.table.rows i).chain.length + 1 := rfl
  rw [forward_of_entry hk hi, todo_of_entry hk hi hc]
  split_ifs with hchain hin hend
  · -- a root without a chain
    have hzero : it.collisionIndex = 0 := by
      rw [hchain, length_nil] at hlen
      omega
    refine ⟨_, rfl, fun hne => absurd hzero hne, ?_⟩
    rw [todo, hzero, drop_zero, drop_eq_nil_of_le]
    · rfl
    · rw [Table.length_places, hlen, hchain]
      exact le_rfl
  · -- inside the chain
    refine ⟨_, rfl, fun _ => ⟨hk, i, hi, hin⟩, ?_⟩
    rw [todo, Table.placesFrom_of_entry hk hi, drop_append_of_le_length]
    rw [Table.length_places]
    exact hin.le
  · -- at the end of the chain
    refine ⟨_, rfl, fun hne => absurd rfl hne, ?_⟩
    rw [todo, drop_zero, drop_eq_nil_of_le]
    · rfl
    · rw [Table.length_places]
      exact hend.ge
  · omega

omit hk hi hc

/-- **The run lemma**: a scan returns the places before it, in their order. -/
theorem scan_eq_todo (fuel : ℕ) (hr : it.Ready) (hfuel : it.todo.length < fuel) :
    it.scan fuel = some it.todo := by
  induction fuel generalizing it with
  | zero => exact absurd hfuel (Nat.not_lt_zero _)
  | succ fuel ih =>
    obtain ⟨hnil, it', hcurrent⟩ | ⟨it', i, hcurrent, htodo, hk, hi, hc⟩ := current_of_ready hr
    · simp only [scan, hcurrent, hnil]
    · obtain ⟨it'', hforward, hr'', htodo''⟩ := forward_of_ready hk hi hc
      rw [← htodo, htodo'', length_cons] at hfuel
      simp only [scan, hcurrent, hforward]
      rw [ih hr'' (by omega), ← htodo, htodo'', Option.map_some]

end TableIterator

/-! ## All rows -/

namespace Table

variable {t : Table} {i j : ℕ} {p : ℕ × ℕ}

theorem mem_places : p ∈ t.places i ↔ p.1 = i ∧ p.2 < (t.rows i).rows.length := by
  obtain ⟨i', j⟩ := p
  simp only [places, mem_map, mem_range, Prod.mk.injEq]
  constructor
  · rintro ⟨j', hj', rfl, rfl⟩
    exact ⟨rfl, hj'⟩
  · rintro ⟨rfl, hj⟩
    exact ⟨j, hj, rfl, rfl⟩

theorem placesFrom_zero (t : Table) :
    t.placesFrom 0 = (live t.rowsList t.listN).flatMap t.places := by
  rw [placesFrom, Nat.sub_zero, live_eq_entries]

theorem Books.mem_placesFrom_zero (h : t.Books) :
    p ∈ t.placesFrom 0 ↔
      ∃ row, (t.rows p.1).rows[p.2]? = some row ∧ row.active = true := by
  rw [placesFrom_zero, mem_flatMap]
  constructor
  · rintro ⟨i, hi, hp⟩
    obtain ⟨rfl, hlt⟩ := mem_places.mp hp
    have hact : (t.rows p.1).root.active = true := h.listed.mem_live_iff.mp hi
    refine ⟨(t.rows p.1).rows[p.2], getElem?_eq_getElem hlt, ?_⟩
    exact (h.linked p.1).rows_active hact _ (getElem_mem hlt)
  · rintro ⟨row, hrow, hrowactive⟩
    obtain ⟨hlt, -⟩ := List.getElem?_eq_some_iff.mp hrow
    refine ⟨p.1, ?_, mem_places.mpr ⟨rfl, hlt⟩⟩
    rw [h.listed.mem_live_iff]
    -- behind an inactive root there is no row but the root itself
    by_contra hinactive
    have hroot : (t.rows p.1).root.active = false := by simpa [activeRoots] using hinactive
    rw [Bucket.rows, (h.linked p.1).chain_eq hroot] at hrow
    obtain rfl := mem_singleton.mp (mem_of_getElem? hrow)
    exact absurd (hroot.symm.trans hrowactive) (by decide)

theorem Books.nodup_placesFrom_zero (h : t.Books) : (t.placesFrom 0).Nodup := by
  rw [placesFrom_zero, nodup_flatMap]
  refine ⟨fun i _ => ?_, h.listed.nodup_live.imp ?_⟩
  · exact nodup_range.map fun _ _ heq => (Prod.mk.inj heq).2
  · intro i i' hne p hp hp'
    exact hne ((mem_places.mp hp).1.symm.trans (mem_places.mp hp').1)

/-- There are as many of them as `row_num` says. -/
theorem Books.length_placesFrom_zero (h : t.Books) : (t.placesFrom 0).length = t.rowNum := by
  let roots := (live t.rowsList t.listN).toFinset
  have hroots : ∀ {i}, i ∈ roots ↔ (t.rows i).root.active = true := by
    intro i
    rw [mem_toFinset]
    exact h.listed.mem_live_iff
  have hlive : ∀ i ∈ roots, (t.places i).length = (t.rows i).count := by
    intro i hi
    rw [length_places, (h.linked i).count_eq, Bucket.live_of_active (hroots.mp hi)]
  have hrest : ∀ i ∈ Finset.range t.size, i ∉ roots → (t.rows i).count = 0 := by
    intro i _ hi
    rw [hroots, Bool.not_eq_true] at hi
    rw [(h.linked i).count_eq, Bucket.live_of_inactive hi, length_nil]
  have hsub : roots ⊆ Finset.range t.size := fun i hi =>
    Finset.mem_range.mpr (h.within i (hroots.mp hi))
  calc (t.placesFrom 0).length
      = ((live t.rowsList t.listN).map fun i => (t.places i).length).sum := by
        rw [placesFrom_zero, length_flatMap]
    _ = ∑ i ∈ roots, (t.places i).length :=
        (sum_toFinset _ h.listed.nodup_live).symm
    _ = ∑ i ∈ roots, (t.rows i).count := Finset.sum_congr rfl hlive
    _ = t.activeRows := Finset.sum_subset hsub hrest
    _ = t.rowNum := h.rowNum_eq.symm

open StepRun

end Table

end Swoole
