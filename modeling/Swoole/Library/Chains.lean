import Swoole.Library.Links

/-!
# Hash chains

The chains of a hash table: one doubly linked list for each bucket, with a pointer to its first cell
and none to its last.  All chains share the pointers of the cells, and no cell is in two chains.

`push` and `remove` are the assignments by which a cell enters and leaves a chain; `Files` says
which cells are in the chains, each of them in the chain of its bucket.  `Runs` is what a loop
that only follows `next` needs to know of a chain; it outlasts the chain itself, as long as nobody
assigns to the `next` of its cells.
-/

universe u v

/-- The first cells of the chains, and the pointers of the cells. -/
structure Chains (β : Type u) (α : Type v) where
  head : β → Option α
  next : α → Option α
  pre : α → Option α

open Function List

namespace Chains

variable {β : Type u} {α : Type v}

/-- The pointers of the cells. -/
def links (c : Chains β α) : Links α := ⟨none, none, c.next, c.pre⟩

/-- **The pointers spell the chains.** -/
structure Spells (c : Chains β α) (lists : β → List α) : Prop where
  head : ∀ b, c.head b = (lists b).head?
  segment : ∀ b, c.links.Segment none (lists b) none
  nodup : ∀ b, (lists b).Nodup
  disjoint : ∀ {b b' x}, x ∈ lists b → x ∈ lists b' → b = b'

/-- Following `next` from the pointer visits the cells. -/
def Runs (next : α → Option α) : Option α → List α → Prop
  | p, [] => p = none
  | p, x :: xs => p = some x ∧ Runs next (next x) xs

/-- The cells `xs` are in the chains, each of them in the chain of its bucket, and no others. -/
def Files (c : Chains β α) (bucket : α → β) (xs : List α) : Prop :=
  ∃ lists, c.Spells lists ∧ ∀ b x, x ∈ lists b ↔ x ∈ xs ∧ bucket x = b

variable {xs ys : List α} {bucket : α → β}

theorem Files.congr {c : Chains β α} {bucket' : α → β} (h : c.Files bucket xs)
    (hcells : ∀ x, x ∈ ys ↔ x ∈ xs) (hbucket : ∀ x ∈ xs, bucket' x = bucket x) :
    c.Files bucket' ys := by
  obtain ⟨lists, hspells, hmem⟩ := h
  refine ⟨lists, hspells, fun b x => (hmem b x).trans ?_⟩
  rw [hcells]
  exact and_congr_right fun hx => by rw [hbucket x hx]

theorem files_nil (next pre : α → Option α) (bucket : α → β) :
    Files ⟨fun _ => none, next, pre⟩ bucket [] :=
  ⟨fun _ => [], ⟨fun _ => rfl, fun _ => trivial, fun _ => nodup_nil,
    fun hx => absurd hx not_mem_nil⟩, fun _ _ => by simp⟩

theorem Runs.congr {next next' : α → Option α} {p : Option α} (h : Runs next p xs)
    (hsame : ∀ x ∈ xs, next' x = next x) : Runs next' p xs := by
  induction xs generalizing p with
  | nil => exact h
  | cons x xs ih =>
    refine ⟨h.1, ?_⟩
    rw [hsame x mem_cons_self]
    exact ih h.2 fun y hy => hsame y (mem_cons_of_mem x hy)

variable {c : Chains β α} {lists : β → List α} {b : β} {x : α}

theorem Spells.runs (h : c.Spells lists) (b : β) : Runs c.next (c.head b) (lists b) := by
  have hsegment : ∀ (xs : List α) (p : Option α), c.links.Segment p xs none →
      Runs c.next xs.head? xs := by
    intro xs
    induction xs with
    | nil => exact fun _ _ => rfl
    | cons x xs ih =>
      intro p hseg
      have hnext : c.next x = xs.head? := hseg.2.1.trans (by cases xs <;> rfl)
      refine ⟨rfl, ?_⟩
      rw [hnext]
      exact ih _ hseg.2.2
  rw [h.head b]
  exact hsegment _ _ (h.segment b)

theorem Spells.pre_next (h : c.Spells lists) (hlist : lists b = xs ++ x :: ys) :
    c.pre x = xs.getLast? ∧ c.next x = ys.head? := by
  obtain ⟨-, hpre, hnext, -⟩ := Links.segment_append.mp (hlist ▸ h.segment b)
  exact ⟨hpre.trans (by cases xs.getLast? <;> rfl), hnext.trans (by cases ys.head? <;> rfl)⟩

variable [DecidableEq β]

/-- **One chain is exchanged for another.**  The cells of the other chains keep their pointers,
and the new cells of the chain are in none of them. -/
theorem Spells.exchange (h : c.Spells lists) {c' : Chains β α} (hhead : c'.head b = xs.head?)
    (hsegment : c'.links.Segment none xs none) (hnodup : xs.Nodup)
    (hothers : ∀ b' ≠ b, c'.head b' = c.head b')
    (hkept : ∀ b' ≠ b, ∀ y ∈ lists b', c'.next y = c.next y ∧ c'.pre y = c.pre y)
    (hnew : ∀ y ∈ xs, y ∈ lists b ∨ ∀ b', y ∉ lists b') : c'.Spells (update lists b xs) := by
  have hapart : ∀ {b' y}, b' ≠ b → y ∈ lists b' → y ∉ xs := by
    intro b' y hb hy hin
    rcases hnew y hin with hold | hnone
    · exact hb (h.disjoint hy hold)
    · exact hnone b' hy
  refine ⟨?_, ?_, ?_, @fun b₁ b₂ y h₁ h₂ => ?_⟩
  · refine (forall_update_iff lists fun b' l => c'.head b' = l.head?).mpr ⟨hhead, fun b' hb => ?_⟩
    rw [hothers b' hb]
    exact h.head b'
  · exact (forall_update_iff lists fun _ l => c'.links.Segment none l none).mpr
      ⟨hsegment, fun b' hb => (h.segment b').congr fun y hy => hkept b' hb y hy⟩
  · exact (forall_update_iff lists fun _ l => l.Nodup).mpr ⟨hnodup, fun b' _ => h.nodup b'⟩
  · by_cases hb₁ : b₁ = b <;> by_cases hb₂ : b₂ = b
    · rw [hb₁, hb₂]
    · rw [hb₁, update_self] at h₁
      rw [update_of_ne hb₂] at h₂
      exact absurd h₁ (hapart hb₂ h₂)
    · rw [hb₂, update_self] at h₂
      rw [update_of_ne hb₁] at h₁
      exact absurd h₂ (hapart hb₁ h₁)
    · rw [update_of_ne hb₁] at h₁
      rw [update_of_ne hb₂] at h₂
      exact h.disjoint h₁ h₂

variable [DecidableEq α]

/-- `x->next = head; x->pre = NULL; if (head) head->pre = x; head = x;` -/
def push (c : Chains β α) (b : β) (x : α) : Chains β α where
  head := update c.head b (some x)
  next := update c.next x (c.head b)
  pre := match c.head b with
    | none => update c.pre x none
    | some first => update (update c.pre x none) first (some x)

/-- `if (head == x) head = x->next; if (x->pre) x->pre->next = x->next;
if (x->next) x->next->pre = x->pre;` -/
def remove (c : Chains β α) (b : β) (x : α) : Chains β α where
  head := if c.head b = some x then update c.head b (c.next x) else c.head
  next := match c.pre x with
    | none => c.next
    | some p => update c.next p (c.next x)
  pre := match c.next x with
    | none => c.pre
    | some n => update c.pre n (c.pre x)

/-! ### A cell in front of a chain -/

variable {y : α}

/-- The first cell of the chain points back to the new one; no other cell does. -/
theorem push_pre (hy : y ≠ x) :
    (c.push b x).pre y = if c.head b = some y then some x else c.pre y := by
  unfold push
  cases hhead : c.head b with
  | none => exact update_of_ne hy ..
  | some first =>
    by_cases hfirst : y = first
    · subst hfirst
      rw [if_pos rfl]
      exact update_self ..
    · rw [if_neg fun heq => hfirst (Option.some.inj heq).symm]
      exact (update_of_ne hfirst ..).trans (update_of_ne hy ..)

theorem push_pre_self (hfirst : c.head b ≠ some x) : (c.push b x).pre x = none := by
  unfold push
  cases hhead : c.head b with
  | none => exact update_self ..
  | some first =>
    have hne : x ≠ first := fun heq => hfirst (hhead.trans (congrArg some heq.symm))
    exact (update_of_ne hne ..).trans (update_self ..)

theorem Spells.segment_push (h : c.Spells lists) (hx : x ∉ lists b) :
    (c.push b x).links.Segment none (x :: lists b) none := by
  have hhead := h.head b
  refine ⟨push_pre_self fun heq => hx (mem_of_mem_head? (hhead.symm.trans heq)), ?_, ?_⟩
  · refine (update_self ..).trans (hhead.trans ?_)
    cases lists b <;> rfl
  · cases hlist : lists b with
    | nil => trivial
    | cons first rest =>
      rw [hlist] at hhead hx
      have hset : ({ c.links with pre := update c.pre first (some x) } :
          Links α).Segment (some x) (first :: rest) none :=
        (hlist ▸ h.segment b).setPre (nodup_cons.mp (hlist ▸ h.nodup b)).1
      refine hset.congr fun y hy => ?_
      have hne : y ≠ x := fun heq => hx (heq ▸ hy)
      refine ⟨update_of_ne hne .., (push_pre hne).trans ?_⟩
      simp only [update_apply, hhead, head?_cons, Option.some_inj, @eq_comm α first y]

theorem Spells.push (h : c.Spells lists) (hx : ∀ b, x ∉ lists b) (b : β) :
    (c.push b x).Spells (update lists b (x :: lists b)) := by
  refine h.exchange (update_self ..) (h.segment_push (hx b))
    (nodup_cons.mpr ⟨hx b, h.nodup b⟩) (fun b' hb => update_of_ne hb ..)
    (fun b' hb y hy => ?_) fun y hy => ?_
  · have hne : y ≠ x := fun heq => hx b' (heq ▸ hy)
    have hfirst : c.head b ≠ some y := by
      intro heq
      rw [h.head b] at heq
      exact hb (h.disjoint hy (mem_of_mem_head? heq))
    exact ⟨update_of_ne hne .., (push_pre hne).trans (if_neg hfirst)⟩
  · rcases mem_cons.mp hy with rfl | hold
    · exact .inr hx
    · exact .inl hold

theorem Files.push (h : c.Files bucket xs) (hx : x ∉ xs) :
    (c.push (bucket x) x).Files bucket (x :: xs) := by
  obtain ⟨lists, hspells, hmem⟩ := h
  have hfresh : ∀ b, x ∉ lists b := fun b hin => hx ((hmem b x).mp hin).1
  refine ⟨_, hspells.push hfresh (bucket x), fun b y => ?_⟩
  rw [mem_cons, or_and_right]
  by_cases hb : b = bucket x
  · subst hb
    rw [update_self, mem_cons, hmem]
    exact or_congr_left ⟨fun heq => ⟨heq, congrArg bucket heq⟩, And.left⟩
  · rw [update_of_ne hb, hmem]
    refine ⟨.inr, fun hy => hy.resolve_left ?_⟩
    rintro ⟨rfl, hbucket⟩
    exact hb hbucket.symm

/-! ### A cell taken out of a chain -/

theorem remove_next (hy : c.pre x ≠ some y) : (c.remove b x).next y = c.next y := by
  unfold remove
  cases hpre : c.pre x with
  | none => rfl
  | some p => exact update_of_ne (fun heq => hy (hpre.trans (congrArg some heq.symm))) ..

theorem remove_pre (hy : c.next x ≠ some y) : (c.remove b x).pre y = c.pre y := by
  unfold remove
  cases hnext : c.next x with
  | none => rfl
  | some n => exact update_of_ne (fun heq => hy (hnext.trans (congrArg some heq.symm))) ..

variable (h : c.Spells lists) (hlist : lists b = xs ++ x :: ys)
include h hlist

theorem Spells.head_remove : (c.remove b x).head b = (xs ++ ys).head? := by
  have hhead := h.head b
  rw [hlist] at hhead
  cases xs with
  | nil =>
    have hx : c.head b = some x := hhead
    simp only [Chains.remove, if_pos hx, update_self, (h.pre_next hlist).2, nil_append]
  | cons first xs =>
    have hne : ¬ c.head b = some x := by
      intro heq
      obtain rfl : first = x := Option.some.inj (hhead.symm.trans heq)
      have hnodup := hlist ▸ h.nodup b
      exact (nodup_cons.mp hnodup).1 (mem_append_right _ mem_cons_self)
    simp only [Chains.remove, if_neg hne]
    exact hhead

theorem Spells.segment_remove : (c.remove b x).links.Segment none (xs ++ ys) none := by
  obtain ⟨hxs, -, -, hys⟩ := Links.segment_append.mp (hlist ▸ h.segment b)
  obtain ⟨hnxs, hnxys, hapart⟩ := nodup_append.mp (hlist ▸ h.nodup b)
  obtain ⟨hpre, hnext⟩ := h.pre_next hlist
  refine Links.segment_append.mpr ⟨?_, ?_⟩
  · -- the last cell in front of `x` gets a new `next`, if there is one
    rcases eq_nil_or_concat' xs with rfl | ⟨front, p, rfl⟩
    · trivial
    · have hp : p ∉ front := fun hin =>
        (nodup_append.mp hnxs).2.2 p hin p (mem_singleton_self p) rfl
      have hset : ({ c.links with next := update c.next p (ys.head?.or none) } :
          Links α).Segment none (front ++ [p]) (ys.head?.or none) := hxs.setNext hp
      refine hset.congr fun y hy => ⟨?_, remove_pre (b := b) fun hfirst => ?_⟩
      · show (c.remove b x).next y = update c.next p (ys.head?.or none) y
        simp only [Chains.remove, hpre, getLast?_concat, hnext, Option.or_none]
      · have hin := mem_of_mem_head? (hnext.symm.trans hfirst)
        exact hapart y hy y (mem_cons_of_mem x hin) rfl
  · -- the first cell behind `x` gets a new `pre`, if there is one
    cases ys with
    | nil => trivial
    | cons n ys =>
      have hset : ({ c.links with pre := update c.pre n (xs.getLast?.or none) } :
          Links α).Segment (xs.getLast?.or none) (n :: ys) none :=
        hys.setPre (nodup_cons.mp (nodup_cons.mp hnxys).2).1
      refine hset.congr fun y hy => ⟨remove_next (b := b) fun hlast => ?_, ?_⟩
      · have hin := mem_of_getLast? (hpre.symm.trans hlast)
        exact hapart y hin y (mem_cons_of_mem x hy) rfl
      · show (c.remove b x).pre y = update c.pre n (xs.getLast?.or none) y
        simp only [Chains.remove, hnext, head?_cons, hpre, Option.or_none]

theorem Spells.remove : (c.remove b x).Spells (update lists b (xs ++ ys)) := by
  obtain ⟨hpre, hnext⟩ := h.pre_next hlist
  have hsub : (xs ++ ys).Sublist (lists b) :=
    hlist ▸ List.Sublist.append_left (sublist_cons_self x ys) xs
  refine h.exchange (h.head_remove hlist) (h.segment_remove hlist) ((h.nodup b).sublist hsub)
    (fun b' hb => ?_) (fun b' hb y hy => ⟨remove_next fun hlast => ?_, remove_pre fun hfirst => ?_⟩)
    fun y hy => .inl (hsub.mem hy)
  · simp only [Chains.remove]
    split_ifs
    · exact update_of_ne hb ..
    · rfl
  · have hin := mem_of_getLast? (hpre.symm.trans hlast)
    exact hb (h.disjoint hy (hsub.mem (mem_append_left _ hin)))
  · have hin := mem_of_mem_head? (hnext.symm.trans hfirst)
    exact hb (h.disjoint hy (hsub.mem (mem_append_right _ hin)))

omit h hlist

omit [DecidableEq α] in
theorem mem_append_iff_of_nodup (h : (xs ++ x :: ys).Nodup) :
    y ∈ xs ++ ys ↔ y ∈ xs ++ x :: ys ∧ y ≠ x := by
  have hperm : (xs ++ x :: ys).Perm (x :: (xs ++ ys)) := perm_middle
  have hx : x ∉ xs ++ ys := (nodup_cons.mp (hperm.nodup_iff.mp h)).1
  rw [hperm.mem_iff, mem_cons]
  constructor
  · exact fun hy => ⟨.inr hy, fun heq => hx (heq ▸ hy)⟩
  · rintro ⟨hy, hne⟩
    exact hy.resolve_left hne

theorem Files.remove {front back : List α} (h : c.Files bucket (front ++ x :: back))
    (hnodup : (front ++ x :: back).Nodup) :
    (c.remove (bucket x) x).Files bucket (front ++ back) := by
  obtain ⟨lists, hspells, hmem⟩ := h
  have hin : x ∈ lists (bucket x) :=
    (hmem _ _).mpr ⟨mem_append_right _ mem_cons_self, rfl⟩
  obtain ⟨xs, ys, hsplit⟩ := append_of_mem hin
  refine ⟨_, hspells.remove hsplit, fun b y => ?_⟩
  rw [mem_append_iff_of_nodup hnodup, and_right_comm, ← hmem]
  by_cases hb : b = bucket x
  · subst hb
    rw [update_self, mem_append_iff_of_nodup (hsplit ▸ hspells.nodup _), hsplit]
  · rw [update_of_ne hb]
    refine ⟨fun hy => ⟨hy, fun heq => hb ?_⟩, And.left⟩
    rw [← ((hmem b y).mp hy).2, heq]

end Chains
