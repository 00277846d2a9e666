import Mathlib.Data.Finset.Card

/-!
# Lists with gaps

A set is kept in an array so that it can be enumerated: an element that comes in is written
behind the last entry, an element that leaves becomes a gap, and every element knows its own
position.  From time to time the array is compressed, which closes the gaps and renumbers the
elements.

`Lists` says that the first `n` entries are such an enumeration of `S`; what stands behind them
does not matter.  The three operations keep it, and the entries without the gaps, `live`, are
the elements of `S` without repetition.

A reader goes through the array with an index and passes over the gaps.  `seek` is where it
stops, and `entries` is what it has still before it.
-/

open Function List

namespace JumpList

variable {α : Type*} {list : ℕ → Option α} {n : ℕ} {pos : α → ℕ} {S : Set α} {a : α}

/-- The first `n` entries of the list are gaps and the elements of `S`, each one at its own
position. -/
structure Lists (list : ℕ → Option α) (n : ℕ) (pos : α → ℕ) (S : Set α) : Prop where
  lt : ∀ a ∈ S, pos a < n
  entry : ∀ a ∈ S, list (pos a) = some a
  mem : ∀ i < n, ∀ a, list i = some a → a ∈ S
  pos_eq : ∀ i < n, ∀ a, list i = some a → pos a = i

/-- The entries without the gaps. -/
def live (list : ℕ → Option α) (n : ℕ) : List α := (range n).filterMap list

theorem lists_empty (list : ℕ → Option α) (pos : α → ℕ) : Lists list 0 pos ∅ :=
  ⟨nofun, nofun, nofun, nofun⟩

theorem Lists.entry_iff (h : Lists list n pos S) (ha : a ∈ S) {i : ℕ} (hi : i < n) :
    list i = some a ↔ i = pos a :=
  ⟨fun he => (h.pos_eq i hi a he).symm, fun he => he ▸ h.entry a ha⟩

theorem mem_live : a ∈ live list n ↔ ∃ i < n, list i = some a := by
  simp only [live, mem_filterMap, mem_range]

variable (h : Lists list n pos S)
include h

theorem Lists.mem_live_iff : a ∈ live list n ↔ a ∈ S := by
  rw [mem_live]
  constructor
  · rintro ⟨i, hi, he⟩
    exact h.mem i hi a he
  · intro ha
    exact ⟨pos a, h.lt a ha, h.entry a ha⟩

theorem Lists.nodup_live : (live list n).Nodup := by
  refine pairwise_filterMap.mpr (nodup_range.imp_of_mem ?_)
  rintro i j hi hj hne a hai b hbj rfl
  rw [mem_range] at hi hj
  exact hne ((h.pos_eq i hi a hai).symm.trans (h.pos_eq j hj a hbj))

omit h in
theorem Lists.length_live_le [DecidableEq α] (h : Lists list n pos S) {T : Finset α}
    (hT : ∀ a ∈ S, a ∈ T) : (live list n).length ≤ T.card := by
  rw [← toFinset_card_of_nodup h.nodup_live]
  refine Finset.card_le_card fun a ha => hT a ?_
  rwa [mem_toFinset, h.mem_live_iff] at ha

variable {pos' : α → ℕ}

theorem Lists.congr (hpos : ∀ a ∈ S, pos' a = pos a) :
    Lists list n pos' S where
  lt := fun a ha => hpos a ha ▸ h.lt a ha
  entry := fun a ha => by rw [hpos a ha, h.entry a ha]
  mem := h.mem
  pos_eq := fun i hi a he => (hpos a (h.mem i hi a he)).trans (h.pos_eq i hi a he)

theorem Lists.push (ha : a ∉ S) (hnew : pos' a = n) (hold : ∀ b ∈ S, pos' b = pos b) :
    Lists (update list n (some a)) (n + 1) pos' (insert a S) where
  lt := by
    rintro b (rfl | hb)
    · omega
    · have := h.lt b hb
      rw [hold b hb]
      omega
  entry := by
    rintro b (rfl | hb)
    · rw [hnew, update_self]
    · rw [hold b hb, update_of_ne (h.lt b hb).ne, h.entry b hb]
  mem := by
    intro i hi b he
    rcases Nat.lt_succ_iff_lt_or_eq.mp hi with hlt | rfl
    · rw [update_of_ne hlt.ne] at he
      exact .inr (h.mem i hlt b he)
    · rw [update_self, Option.some.injEq] at he
      exact .inl he.symm
  pos_eq := by
    intro i hi b he
    rcases Nat.lt_succ_iff_lt_or_eq.mp hi with hlt | rfl
    · rw [update_of_ne hlt.ne] at he
      rw [hold b (h.mem i hlt b he), h.pos_eq i hlt b he]
    · rw [update_self, Option.some.injEq] at he
      rw [← he, hnew]

theorem Lists.erase (ha : a ∈ S) :
    Lists (update list (pos a) none) n pos (S \ {a}) where
  lt := fun b hb => h.lt b hb.1
  entry := by
    rintro b ⟨hb, hne⟩
    have hpos : pos b ≠ pos a := by
      intro heq
      have := h.entry b hb
      rw [heq, h.entry a ha] at this
      exact hne (Option.some.inj this).symm
    rw [update_of_ne hpos, h.entry b hb]
  mem := by
    intro i hi b he
    by_cases hpos : i = pos a
    · rw [hpos, update_self] at he
      cases he
    · rw [update_of_ne hpos] at he
      refine ⟨h.mem i hi b he, ?_⟩
      rintro rfl
      exact hpos (h.pos_eq i hi b he).symm
  pos_eq := by
    intro i hi b he
    by_cases hpos : i = pos a
    · rw [hpos, update_self] at he
      cases he
    · rw [update_of_ne hpos] at he
      exact h.pos_eq i hi b he

variable {list' : ℕ → Option α}

theorem Lists.compress (hlist : ∀ i < (live list n).length, list' i = (live list n)[i]?)
    (hpos : ∀ i a, (live list n)[i]? = some a → pos' a = i) :
    Lists list' (live list n).length pos' S := by
  have hplace : ∀ a ∈ S, pos' a < (live list n).length ∧ (live list n)[pos' a]? = some a := by
    intro a ha
    obtain ⟨i, hi⟩ := mem_iff_getElem?.mp (h.mem_live_iff.mpr ha)
    rw [hpos i a hi]
    exact ⟨(List.getElem?_eq_some_iff.mp hi).1, hi⟩
  refine ⟨fun a ha => (hplace a ha).1, fun a ha => ?_, fun i hi a he => ?_, fun i hi a he => ?_⟩
  · obtain ⟨hlt, hget⟩ := hplace a ha
    rw [hlist _ hlt, hget]
  · rw [hlist i hi] at he
    exact h.mem_live_iff.mp (mem_of_getElem? he)
  · rw [hlist i hi] at he
    exact hpos i a he

/-! ## Reading the list -/

omit h

/-- The elements among the `n` entries from `k` on. -/
def entries (list : ℕ → Option α) (k n : ℕ) : List α := (range' k n).filterMap list

theorem live_eq_entries (list : ℕ → Option α) (n : ℕ) : live list n = entries list 0 n := by
  rw [live, entries, range_eq_range']

@[simp] theorem entries_zero (list : ℕ → Option α) (k : ℕ) : entries list k 0 = [] := rfl

variable {k : ℕ}

theorem entries_succ_none (hk : list k = none) :
    entries list k (n + 1) = entries list (k + 1) n := by
  rw [entries, range'_succ, filterMap_cons_none hk]
  rfl

theorem entries_succ_some (hk : list k = some a) :
    entries list k (n + 1) = a :: entries list (k + 1) n := by
  rw [entries, range'_succ, filterMap_cons_some hk]
  rfl

/-- The first of the `n` entries from `k` on that is no gap, or the index behind them. -/
def seek (list : ℕ → Option α) : ℕ → ℕ → ℕ
  | k, 0 => k
  | k, n + 1 =>
    match list k with
    | none => seek list (k + 1) n
    | some _ => k

/-- What is listed from index `k` on when the gaps are closed. -/
theorem entries_compress {l : List α} (hlist : ∀ i < l.length, list' i = l[i]?) (k : ℕ) :
    entries list' k (l.length - k) = l.drop k := by
  have hstep : ∀ n k, k + n = l.length → entries list' k n = l.drop k := by
    intro n
    induction n with
    | zero =>
      intro k hk
      rw [entries_zero, drop_eq_nil_of_le (by omega)]
    | succ n ih =>
      intro k hk
      have hlt : k < l.length := by omega
      have hentry : list' k = some l[k] := by
        rw [hlist k hlt, getElem?_eq_getElem hlt]
      rw [entries_succ_some hentry, ih (k + 1) (by omega), drop_eq_getElem_cons hlt]
  by_cases hk : k ≤ l.length
  · exact hstep (l.length - k) k (by omega)
  · rw [Nat.sub_eq_zero_of_le (by omega), entries_zero, drop_eq_nil_of_le (by omega)]

theorem seek_eq_self (hk : list k = some a) (n : ℕ) : seek list k n = k := by
  cases n with
  | zero => rfl
  | succ n => simp only [seek, hk]

variable (list)

theorem le_seek (k n : ℕ) : k ≤ seek list k n := by
  induction n generalizing k with
  | zero => exact le_rfl
  | succ n ih =>
    unfold seek
    split
    · exact (Nat.le_succ k).trans (ih (k + 1))
    · exact le_rfl

/-- A reader stops at the first element before it, or has nothing before it. -/
theorem seek_cases (k n : ℕ) :
    (∃ a, seek list k n < k + n ∧ list (seek list k n) = some a ∧
        entries list k n = a :: entries list (seek list k n + 1) (k + n - (seek list k n + 1))) ∨
      (seek list k n = k + n ∧ entries list k n = []) := by
  induction n generalizing k with
  | zero => exact .inr ⟨rfl, rfl⟩
  | succ n ih =>
    cases hk : list k with
    | none =>
      have hlen : k + (n + 1) = k + 1 + n := by omega
      simp only [seek, hk]
      rw [entries_succ_none hk, hlen]
      exact ih (k + 1)
    | some a =>
      have hlen : k + (n + 1) - (k + 1) = n := by omega
      rw [seek_eq_self hk, entries_succ_some hk, hlen]
      exact .inl ⟨a, by omega, hk, rfl⟩

theorem entries_update_none_sublist (p k n : ℕ) :
    (entries (update list p none) k n).Sublist (entries list k n) := by
  induction n generalizing k with
  | zero => exact List.Sublist.refl _
  | succ n ih =>
    cases hk : update list p none k with
    | none =>
      rw [entries_succ_none hk]
      refine (ih (k + 1)).trans ?_
      exact (sublist_cons_self _ _).filterMap _
    | some a =>
      have hne : k ≠ p := by
        rintro rfl
        rw [update_self] at hk
        cases hk
      have hold : list k = some a := by rwa [update_of_ne hne] at hk
      rw [entries_succ_some hk, entries_succ_some hold]
      exact (ih (k + 1)).cons_cons a

theorem live_eq_append {n : ℕ} (hk : k ≤ n) :
    live list n = entries list 0 k ++ entries list k (n - k) := by
  have hrange : range' 0 n = range' 0 k ++ range' k (n - k) := by
    rw [show n = k + (n - k) by omega, ← range'_append_1]
    simp
  rw [live_eq_entries, entries, hrange, filterMap_append]
  rfl

theorem entries_sublist_live (n k : ℕ) :
    (entries list k (n - k)).Sublist (live list n) := by
  by_cases hk : k ≤ n
  · rw [live_eq_append list hk]
    exact sublist_append_right _ _
  · rw [Nat.sub_eq_zero_of_le (by omega), entries_zero]
    exact nil_sublist _

/-- Closing the gaps moves the elements down: behind an index there are only elements that
were behind it before. -/
theorem drop_live_sublist (n k : ℕ) :
    ((live list n).drop k).Sublist (entries list k (n - k)) := by
  by_cases hk : k ≤ n
  · have hlen : (entries list 0 k).length ≤ k :=
      (length_filterMap_le _ _).trans length_range'.le
    rw [live_eq_append list hk, drop_append, drop_eq_nil_of_le hlen, nil_append]
    exact drop_sublist _ _
  · have hlen : (live list n).length ≤ k :=
      ((length_filterMap_le _ _).trans length_range.le).trans (by omega)
    rw [drop_eq_nil_of_le hlen]
    exact nil_sublist _

end JumpList
