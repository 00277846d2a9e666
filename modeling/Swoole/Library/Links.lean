import Mathlib.Data.List.Nodup

/-!
# Doubly linked lists

Cells that point to each other: every cell has a `next` and a `pre`, and two pointers go to the
ends.  `Linked` says that these pointers spell a list of cells.  It is put together from
segments: a segment knows the cell in front of it and the cell behind it, so that a list may be
cut and joined (`segment_append`).

Four programs on the pointers, each a few assignments long, do to the list what their name
says: `dropHead`, `pushBack`, `unlink`, `pushFront`.  `none` is an access through a null pointer.
-/

universe u

/-- The pointers of a doubly linked list. -/
structure Links (α : Type u) where
  head : Option α
  tail : Option α
  next : α → Option α
  pre : α → Option α

open Function List

namespace Links

variable {α : Type u}

/-- The cells `xs` are linked to each other, the first one back to `p` and the last one on
to `q`. -/
def Segment (l : Links α) : Option α → List α → Option α → Prop
  | _, [], _ => True
  | p, x :: xs, q => l.pre x = p ∧ l.next x = xs.head?.or q ∧ Segment l (some x) xs q

/-- **The pointers spell the list** `xs`. -/
structure Linked (l : Links α) (xs : List α) : Prop where
  nodup : xs.Nodup
  head_eq : l.head = xs.head?
  tail_eq : l.tail = xs.getLast?
  segment : l.Segment none xs none

variable {l l' : Links α} {p q p' q' : Option α} {x y : α} {xs ys : List α}

theorem segment_append :
    l.Segment p (xs ++ ys) q ↔
      l.Segment p xs (ys.head?.or q) ∧ l.Segment (xs.getLast?.or p) ys q := by
  induction xs generalizing p with
  | nil => simp [Segment]
  | cons x xs ih =>
    have hhead : (xs ++ ys).head?.or q = xs.head?.or (ys.head?.or q) := by
      cases xs <;> simp
    have hlast : (x :: xs).getLast?.or p = xs.getLast?.or (some x) := by
      rw [getLast?_cons]
      cases xs.getLast? <;> rfl
    simp only [cons_append, Segment, ih, hhead, hlast, and_assoc]

theorem Segment.congr (h : l.Segment p xs q)
    (hsame : ∀ x ∈ xs, l'.next x = l.next x ∧ l'.pre x = l.pre x) : l'.Segment p xs q := by
  induction xs generalizing p with
  | nil => trivial
  | cons x xs ih =>
    obtain ⟨hnext, hpre⟩ := hsame x mem_cons_self
    refine ⟨hpre.trans h.1, hnext.trans h.2.1, ih h.2.2 fun y hy => ?_⟩
    exact hsame y (mem_cons_of_mem x hy)

variable [DecidableEq α]

theorem Segment.setPre (h : l.Segment p (x :: xs) q) (hx : x ∉ xs) :
    ({ l with pre := update l.pre x p' } : Links α).Segment p' (x :: xs) q := by
  refine ⟨update_self .., h.2.1, h.2.2.congr fun y hy => ⟨rfl, ?_⟩⟩
  exact update_of_ne (ne_of_mem_of_not_mem hy hx) _ _

theorem Segment.setNext (h : l.Segment p (xs ++ [x]) q) (hx : x ∉ xs) :
    ({ l with next := update l.next x q' } : Links α).Segment p (xs ++ [x]) q' := by
  obtain ⟨hxs, hpre, -⟩ := segment_append.mp h
  refine segment_append.mpr ⟨?_, hpre, update_self .., trivial⟩
  exact hxs.congr fun y hy => ⟨update_of_ne (ne_of_mem_of_not_mem hy hx) _ _, rfl⟩

/-! ## Programs -/

/-- `head = x->next; x->next->pre = NULL;` -/
def dropHead (l : Links α) (x : α) : Option (Links α) :=
  (l.next x).map fun y => { l with head := some y, pre := update l.pre y none }

/-- `tail->next = x; x->next = NULL; x->pre = tail; tail = x;` -/
def pushBack (l : Links α) (x : α) : Option (Links α) :=
  l.tail.map fun t =>
    { l with
      next := update (update l.next t (some x)) x none
      pre := update l.pre x (some t)
      tail := some x }

/-- Take `x` out from between its neighbours; the tail moves if `x` is the last cell. -/
def unlink (l : Links α) (x : α) : Option (Links α) :=
  (l.pre x).map fun p =>
    match l.next x with
    | none => { l with next := update l.next p none, tail := some p }
    | some n =>
      { l with
        next := update l.next p (some n)
        pre := update l.pre n (some p) }

/-- `x->pre = NULL; x->next = head; head->pre = x; head = x;` -/
def pushFront (l : Links α) (x : α) : Option (Links α) :=
  l.head.map fun h =>
    { l with
      next := update l.next x (some h)
      pre := update (update l.pre x none) h (some x)
      head := some x }

theorem Linked.dropHead (h : l.Linked (x :: y :: ys)) :
    ∃ l', l.dropHead x = some l' ∧ l'.Linked (y :: ys) := by
  obtain ⟨-, hnext, hrest⟩ := h.segment
  obtain ⟨-, hnodup⟩ := nodup_cons.mp h.nodup
  refine ⟨_, by rw [Links.dropHead, hnext]; rfl, hnodup, rfl, ?_, ?_⟩
  · rw [h.tail_eq, getLast?_cons_cons]
  · exact (hrest.setPre (nodup_cons.mp hnodup).1).congr fun _ _ => ⟨rfl, rfl⟩

theorem Linked.pushBack (h : l.Linked xs) (hne : xs ≠ []) (hx : x ∉ xs) :
    ∃ l', l.pushBack x = some l' ∧ l'.Linked (xs ++ [x]) := by
  obtain ⟨front, last, rfl⟩ := eq_nil_or_concat' xs |>.resolve_left hne
  have htail : l.tail = some last := by rw [h.tail_eq, getLast?_concat]
  have hnodup : (front ++ [last] ++ [x]).Nodup := by
    rw [nodup_append]
    refine ⟨h.nodup, nodup_singleton x, fun a ha b hb => ?_⟩
    rw [mem_singleton.mp hb]
    exact fun heq => hx (heq ▸ ha)
  have hfront : last ∉ front := fun hin =>
    (nodup_append.mp h.nodup).2.2 last hin last (mem_singleton_self last) rfl
  refine ⟨_, by rw [Links.pushBack, htail]; rfl, hnodup, ?_, ?_, ?_⟩
  · show l.head = _
    rw [h.head_eq]
    cases front <;> rfl
  · rw [getLast?_concat]
  · refine segment_append.mpr ⟨?_, ?_, ?_, trivial⟩
    · refine Segment.congr (l := { l with next := update l.next last (some x) })
        (h.segment.setNext hfront) fun y hy => ?_
      have hne' := ne_of_mem_of_not_mem hy hx
      exact ⟨update_of_ne hne' _ _, update_of_ne hne' _ _⟩
    all_goals simp

theorem Linked.unlink (h : l.Linked (xs ++ x :: ys)) (hne : xs ≠ []) :
    ∃ l', l.unlink x = some l' ∧ l'.Linked (xs ++ ys) := by
  obtain ⟨front, p, rfl⟩ := eq_nil_or_concat' xs |>.resolve_left hne
  obtain ⟨hxs, hpre, hnext, hys⟩ := segment_append.mp h.segment
  obtain ⟨hnodup, hnodup', hdisjoint⟩ := nodup_append.mp h.nodup
  have hfront : p ∉ front := fun hin =>
    (nodup_append.mp hnodup).2.2 p hin p (mem_singleton_self p) rfl
  have hp : l.pre x = some p := by simpa using hpre
  have hout : ∀ y ∈ ys, y ∉ front ++ [p] := fun y hy hin =>
    hdisjoint y hin y (mem_cons_of_mem x hy) rfl
  have hjoin : (front ++ [p] ++ ys).Nodup := nodup_append.mpr
    ⟨hnodup, (nodup_cons.mp hnodup').2, fun a ha b hb heq => hout b hb (heq ▸ ha)⟩
  have hhead : (front ++ [p] ++ x :: ys).head? = (front ++ [p] ++ ys).head? := by
    cases front <;> simp
  rw [Links.unlink, hp, hnext]
  cases ys with
  | nil =>
    refine ⟨_, rfl, hjoin, h.head_eq.trans hhead, ?_, ?_⟩
    · simp
    · rw [append_nil]
      exact (hxs.setNext hfront).congr fun _ _ => ⟨rfl, rfl⟩
  | cons n ys =>
    have hn : n ∉ front ++ [p] := hout n mem_cons_self
    have hp' : p ∉ n :: ys := fun hin => hout p hin (by simp)
    refine ⟨_, rfl, hjoin, h.head_eq.trans hhead, ?_, segment_append.mpr ⟨?_, ?_⟩⟩
    · rw [show l.tail = _ from h.tail_eq]
      simp
    · exact (hxs.setNext hfront).congr fun y hy =>
        ⟨rfl, update_of_ne (ne_of_mem_of_not_mem hy hn) _ _⟩
    · have hlast : (front ++ [p]).getLast?.or none = some p := by simp
      rw [hlast]
      exact (hys.setPre (nodup_cons.mp (nodup_cons.mp hnodup').2).1).congr fun y hy =>
        ⟨update_of_ne (ne_of_mem_of_not_mem hy hp') _ _, rfl⟩

theorem Linked.pushFront (h : l.Linked xs) (hne : xs ≠ []) (hx : x ∉ xs) :
    ∃ l', l.pushFront x = some l' ∧ l'.Linked (x :: xs) := by
  obtain ⟨first, rest, rfl⟩ := exists_cons_of_ne_nil hne
  have hhead : l.head = some first := h.head_eq
  have hfirst : first ≠ x := fun heq => hx (heq ▸ mem_cons_self)
  refine ⟨_, by rw [Links.pushFront, hhead]; rfl, nodup_cons.mpr ⟨hx, h.nodup⟩, rfl, ?_, ?_⟩
  · show l.tail = _
    rw [h.tail_eq, getLast?_cons_cons]
  · refine ⟨?_, by simp, ?_⟩
    · show update (update l.pre x none) first (some x) x = none
      rw [update_of_ne hfirst.symm, update_self]
    · refine Segment.congr (l := { l with pre := update l.pre first (some x) })
        (h.segment.setPre (nodup_cons.mp h.nodup).1) fun y hy => ?_
      have hne' := ne_of_mem_of_not_mem hy hx
      refine ⟨update_of_ne hne' _ _, ?_⟩
      show update (update l.pre x none) first (some x) y = _
      rw [update_comm hfirst.symm, update_of_ne hne']

end Links
