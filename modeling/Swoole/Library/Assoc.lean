import Mathlib.Data.List.Find

/-!
# Rows with keys

A list of rows, each with a key, read as a finite map: the first row with a key is
the one that counts, and no key occurs twice.  A row may be taken out.  It is given by
its index, the way a program that has searched the list has it, and the lemmas say what
that does to `lookup`, for the key concerned and for every other one.

A program may compare keys by a test of its own, under which a row answers to more than
its key.  `Finds` says that the search by such a test still leads every key that owns a
row to that row: each row answers to its owner, and no row in front of it does.
-/

open List

namespace Assoc

universe u v

variable {ρ : Type u} {κ : Type v} [DecidableEq κ] (key : ρ → κ)

/-- The first row with the key `k`. -/
def lookup (k : κ) (l : List ρ) : Option ρ := l.find? fun r => key r = k

/-- Where it stands. -/
def position (k : κ) (l : List ρ) : Option ℕ := l.findIdx? fun r => key r = k

variable {key} {l : List ρ} {k k' : κ} {i : ℕ} {r : ρ} {f : ρ → ρ} {p : ρ → Bool}

theorem split_of_findIdx? (h : l.findIdx? p = some i) :
    ∃ front r back, l = front ++ r :: back ∧ front.length = i ∧ p r = true ∧
      ∀ x ∈ front, p x = false := by
  induction l generalizing i with
  | nil => simp at h
  | cons a l ih =>
    rw [findIdx?_cons] at h
    cases ha : p a with
    | true =>
      rw [ha, if_pos rfl] at h
      exact ⟨[], a, l, rfl, Option.some.inj h, ha, by simp⟩
    | false =>
      rw [ha, if_neg Bool.false_ne_true] at h
      obtain ⟨j, hj, rfl⟩ := Option.map_eq_some_iff.mp h
      obtain ⟨front, r, back, rfl, rfl, hr, hfront⟩ := ih hj
      exact ⟨a :: front, r, back, rfl, rfl, hr, by simpa [ha] using hfront⟩

theorem split_of_position (h : position key k l = some i) :
    ∃ front r back, l = front ++ r :: back ∧ front.length = i ∧ key r = k ∧
      ∀ x ∈ front, key x ≠ k := by
  obtain ⟨front, r, back, hl, hi, hr, hfront⟩ := split_of_findIdx? h
  exact ⟨front, r, back, hl, hi, of_decide_eq_true hr, fun x hx => of_decide_eq_false (hfront x hx)⟩

theorem split_of_getElem? (h : l[i]? = some r) :
    ∃ front back, l = front ++ r :: back ∧ i = front.length := by
  obtain ⟨hi, rfl⟩ := List.getElem?_eq_some_iff.mp h
  refine ⟨l.take i, l.drop (i + 1), ?_, by rw [length_take]; omega⟩
  rw [← drop_eq_getElem_cons hi, take_append_drop]

theorem key_of_position (h : position key k l = some i) : l[i]?.map key = some k := by
  obtain ⟨front, r, back, rfl, rfl, hr, -⟩ := split_of_position h
  simp [hr]

theorem lookup_eq_none_iff : lookup key k l = none ↔ k ∉ l.map key := by
  simp [lookup]

theorem position_eq_none_iff : position key k l = none ↔ k ∉ l.map key := by
  simp [position, findIdx?_eq_none_iff]

theorem lookup_append (front back : List ρ) :
    lookup key k (front ++ back) = (lookup key k front).or (lookup key k back) :=
  find?_append

theorem lookup_cons_self (hr : key r = k) (back : List ρ) : lookup key k (r :: back) = some r := by
  simp [lookup, hr]

theorem lookup_cons_of_ne (hr : key r ≠ k) (back : List ρ) :
    lookup key k (r :: back) = lookup key k back := by
  simp [lookup, hr]

theorem lookup_front {front : List ρ} (hfront : ∀ x ∈ front, key x ≠ k) (back : List ρ) :
    lookup key k (front ++ back) = lookup key k back := by
  have hnone : lookup key k front = none := by simpa [lookup] using hfront
  rw [lookup_append, hnone, Option.none_or]

/-- A search by another test that agrees on the rows of the list finds the same. -/
theorem find?_eq_lookup (h : ∀ r ∈ l, p r = true ↔ key r = k) : l.find? p = lookup key k l :=
  find?_congr fun r hr => by rw [Bool.eq_iff_iff, h r hr, decide_eq_true_iff]

theorem findIdx?_eq_position (h : ∀ r ∈ l, p r = true ↔ key r = k) :
    l.findIdx? p = position key k l := by
  induction l with
  | nil => rfl
  | cons a l ih =>
    have ha : p a = decide (key a = k) := by
      rw [Bool.eq_iff_iff, h a mem_cons_self, decide_eq_true_iff]
    rw [position, findIdx?_cons, findIdx?_cons, ha, ih fun r hr => h r (mem_cons_of_mem a hr)]
    rfl

/-- Lists that agree in the keys and in what is read off the rows are one map. -/
theorem lookup_map_congr {ν : Type*} {val : ρ → ν} :
    ∀ {l l' : List ρ}, (l'.map fun r => (key r, val r)) = l.map (fun r => (key r, val r)) →
      (lookup key k l').map val = (lookup key k l).map val
  | [], l', h => by
      obtain rfl : l' = [] := by simpa using h
      rfl
  | a :: l, [], h => by simp at h
  | a :: l, b :: l', h => by
      simp only [map_cons, cons.injEq, Prod.mk.injEq] at h
      obtain ⟨⟨hkey, hval⟩, hrest⟩ := h
      by_cases ha : key a = k
      · rw [lookup_cons_self ha, lookup_cons_self (hkey.trans ha)]
        exact congrArg some hval
      · rw [lookup_cons_of_ne ha, lookup_cons_of_ne (by rw [hkey]; exact ha)]
        exact lookup_map_congr hrest

theorem modify_split (front : List ρ) (r : ρ) (back : List ρ) (f : ρ → ρ) :
    (front ++ r :: back).modify front.length f = front ++ f r :: back := by
  induction front with
  | nil => rfl
  | cons a front ih => simp [ih]

/-! ## Taking a row out -/

theorem eraseIdx_split (front : List ρ) (r : ρ) (back : List ρ) :
    (front ++ r :: back).eraseIdx front.length = front ++ back := by
  induction front with
  | nil => rfl
  | cons a front ih => simp [ih]

theorem lookup_eraseIdx_self (hl : (l.map key).Nodup) (h : position key k l = some i) :
    lookup key k (l.eraseIdx i) = none := by
  obtain ⟨front, r, back, rfl, rfl, hr, hfront⟩ := split_of_position h
  rw [eraseIdx_split, lookup_front hfront, lookup_eq_none_iff]
  rw [map_append, map_cons, nodup_append, nodup_cons, hr] at hl
  exact hl.2.1.1

theorem lookup_eraseIdx_of_ne (h : position key k l = some i) (hne : k' ≠ k) :
    lookup key k' (l.eraseIdx i) = lookup key k' l := by
  obtain ⟨front, r, back, rfl, rfl, hr, -⟩ := split_of_position h
  rw [eraseIdx_split, lookup_append, lookup_append, lookup_cons_of_ne (by rw [hr]; exact hne.symm)]

omit [DecidableEq κ] in
theorem nodup_eraseIdx (hl : (l.map key).Nodup) (i : ℕ) : ((l.eraseIdx i).map key).Nodup :=
  hl.sublist ((eraseIdx_sublist l i).map key)

/-! ## Rows that are found -/

section Finds

variable {ρ : Type u} {κ : Type v} {answers : ρ → κ → Bool} {own : ρ → κ} {l l' : List ρ} {r : ρ}

/-- The search for the owner of a row ends at that row. -/
structure Finds (answers : ρ → κ → Bool) (own : ρ → κ) (l : List ρ) : Prop where
  owned : ∀ r ∈ l, answers r (own r) = true
  apart : l.Pairwise fun r s => answers r (own s) = false

theorem finds_nil : Finds answers own ([] : List ρ) := ⟨by simp, List.Pairwise.nil⟩

theorem Finds.find? (h : Finds answers own l) (hr : r ∈ l) :
    l.find? (answers · (own r)) = some r := by
  obtain ⟨front, back, rfl⟩ := append_of_mem hr
  rw [find?_eq_some_iff_append]
  refine ⟨h.owned r hr, front, back, rfl, fun s hs => ?_⟩
  have hapart := (pairwise_append.mp h.apart).2.2 s hs r mem_cons_self
  simp [hapart]

theorem Finds.sublist (h : Finds answers own l) (hsub : l'.Sublist l) : Finds answers own l' :=
  ⟨fun r hr => h.owned r (hsub.subset hr), h.apart.sublist hsub⟩

theorem Finds.concat (h : Finds answers own l) (hr : answers r (own r) = true)
    (hnew : ∀ s ∈ l, answers s (own r) = false) : Finds answers own (l ++ [r]) := by
  constructor
  · exact forall_mem_append.mpr ⟨h.owned, forall_mem_singleton.mpr hr⟩
  · rw [pairwise_append]
    refine ⟨h.apart, pairwise_singleton _ _, fun s hs x hx => ?_⟩
    rw [mem_singleton.mp hx]
    exact hnew s hs

/-- A row changes hands: the new owner is one it answers to, and no row in front does. -/
theorem Finds.replace {front back : List ρ} {r' : ρ} (h : Finds answers own (front ++ r :: back))
    (hsame : answers r' = answers r) (hr : answers r (own r') = true)
    (hfront : ∀ s ∈ front, answers s (own r') = false) :
    Finds answers own (front ++ r' :: back) := by
  have hpairs := pairwise_append.mp h.apart
  have htail := pairwise_cons.mp hpairs.2.1
  constructor
  · intro s hs
    rcases mem_append.mp hs with hs | hs
    · exact h.owned s (mem_append_left _ hs)
    · rcases mem_cons.mp hs with rfl | hs
      · rw [hsame]
        exact hr
      · exact h.owned s (mem_append_right _ (mem_cons_of_mem r hs))
  · rw [pairwise_append, pairwise_cons]
    refine ⟨hpairs.1, ⟨fun s hs => ?_, htail.2⟩, fun s hs x hx => ?_⟩
    · rw [hsame]
      exact htail.1 s hs
    · rcases mem_cons.mp hx with rfl | hx
      · exact hfront s hs
      · exact hpairs.2.2 s hs x (mem_cons_of_mem r hx)

theorem Finds.answers_ne {front back : List ρ} {s : ρ} (h : Finds answers own (front ++ r :: back))
    (hs : s ∈ front ++ back) : answers s ≠ answers r := by
  have hpairs := pairwise_append.mp h.apart
  intro heq
  rcases mem_append.mp hs with hs | hs
  · have hfalse := hpairs.2.2 s hs r mem_cons_self
    rw [heq, h.owned r (by simp)] at hfalse
    cases hfalse
  · have hfalse := (pairwise_cons.mp hpairs.2.1).1 s hs
    rw [← heq, h.owned s (by simp [hs])] at hfalse
    cases hfalse

/-- Once the row that a key finds is gone, no row is left for that key. -/
theorem Finds.own_ne_of_mem_eraseP {k : κ} {s : ρ} (h : Finds answers own l)
    (hs : s ∈ l.eraseP (answers · k)) : own s ≠ k := by
  induction l with
  | nil => simp at hs
  | cons a l ih =>
    have hapart := pairwise_cons.mp h.apart
    rintro rfl
    rw [eraseP_cons] at hs
    cases ha : answers a (own s) with
    | true =>
      rw [ha, cond_true] at hs
      exact absurd ha (by simp [hapart.1 s hs])
    | false =>
      rw [ha, cond_false] at hs
      rcases mem_cons.mp hs with rfl | hs
      · exact absurd (h.owned s mem_cons_self) (by simp [ha])
      · exact ih (h.sublist (sublist_cons_self a l)) hs rfl

/-- A search that stops elsewhere does not miss the row that is erased. -/
theorem find?_eraseP_of_findIdx?_ne {p q : ρ → Bool} (h : l.findIdx? q ≠ l.findIdx? p) :
    (l.eraseP p).find? q = l.find? q := by
  induction l with
  | nil => rfl
  | cons a l ih =>
    rw [findIdx?_cons, findIdx?_cons] at h
    cases hp : p a with
    | true =>
      have hq : q a = false := by
        by_contra hq
        simp [hp, hq] at h
      rw [eraseP_cons_of_pos hp, find?_cons_of_neg (by simp [hq])]
    | false =>
      rw [eraseP_cons_of_neg (by simp [hp])]
      cases hq : q a with
      | true => rw [find?_cons_of_pos hq, find?_cons_of_pos hq]
      | false =>
        rw [find?_cons_of_neg (by simp [hq]), find?_cons_of_neg (by simp [hq])]
        refine ih fun heq => h ?_
        rw [hp, hq, heq]

end Finds

end Assoc
