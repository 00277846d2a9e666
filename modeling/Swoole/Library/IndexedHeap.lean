import Mathlib.Data.Set.Insert

/-!
# Indexed binary heaps

A binary heap in the slots `1, …, num - 1` of an array, slot `i` having slot `i / 2`
for its parent, in which every element also knows its slot.  The elements are
compared by a key in a linear order; the smallest key belongs at the root.

Both repair loops work with a *hole*: the moving element `x` is held aside, and the
loop pulls an element into the hole until `x` may be dropped there.

* `siftUp` pulls parents down, `siftDown` pulls the better child up;
* `Hole` — what the array holds besides the hole, for a set `S` of elements;
* `HoleOrder` — every parent and child that do not touch the hole are in order, and
  the hole's children are in order with the hole's parent; `UpOrder` and `DownOrder`
  add where `x` stands, for the two directions;
* `siftUp_heaped` and `siftDown_heaped` — the loops end in a heap of exactly `S`.

An element that enters at the end, leaves from the middle or changes its key opens
such a hole: `Heaped.hole_insert`, `Heaped.hole_erase`, `Heaped.hole_self`, and the
orders `upOrder_insert`, `upOrder_of_ordered`, `downOrder_of_ordered`.
-/

namespace IndexedHeap

open Function List

universe u v

/-- The array, and the slot each element believes to be in. -/
structure Store (α : Type u) where
  slot : ℕ → α
  pos : α → ℕ

variable {α : Type u} {κ : Type v} [LinearOrder κ]

namespace Store

/-- Write a slot and leave the element's own idea of its slot alone. -/
def write (h : Store α) (i : ℕ) (x : α) : Store α :=
  { h with slot := update h.slot i x }

variable {j i : ℕ}

theorem write_slot_of_ne (h : Store α) (x : α) (hj : j ≠ i) : (h.write i x).slot j = h.slot j := by
  simp [write, hj]

variable [DecidableEq α]

/-- Put `x` into slot `i`, and let it know. -/
def place (h : Store α) (i : ℕ) (x : α) : Store α :=
  { slot := update h.slot i x, pos := update h.pos x i }

@[simp] theorem place_slot_self (h : Store α) (i : ℕ) (x : α) : (h.place i x).slot i = x := by
  simp [place]

theorem place_slot_of_ne (h : Store α) (x : α) (hj : j ≠ i) : (h.place i x).slot j = h.slot j := by
  simp [place, hj]

@[simp] theorem place_pos_self (h : Store α) (i : ℕ) (x : α) : (h.place i x).pos x = i := by
  simp [place]

theorem place_pos_of_ne (h : Store α) (i : ℕ) {x y : α} (hy : y ≠ x) :
    (h.place i x).pos y = h.pos y := by
  simp [place, hy]

end Store

/-! ## The loops -/

section Loops

variable [DecidableEq α] (key : α → κ)

/-- Pull parents down into the hole `i` until `x` may stand there.  The hole moves
to half its index, so `fuel = i` is enough. -/
def siftUp : ℕ → Store α → ℕ → α → Store α
  | 0, h, i, x => h.place i x
  | fuel + 1, h, i, x =>
    if 1 < i ∧ key x < key (h.slot (i / 2)) then
      siftUp fuel (h.place i (h.slot (i / 2))) (i / 2) x
    else h.place i x

/-- The child of `i` with the smaller key, the left one on a tie; `0` if there is none. -/
def bestChild (num : ℕ) (h : Store α) (i : ℕ) : ℕ :=
  if num ≤ 2 * i then 0
  else if 2 * i + 1 < num ∧ key (h.slot (2 * i + 1)) < key (h.slot (2 * i)) then 2 * i + 1
  else 2 * i

/-- Pull the better child up into the hole `i` until `x` may stand there. -/
def siftDown (num : ℕ) : ℕ → Store α → ℕ → α → Store α
  | 0, h, i, x => h.place i x
  | fuel + 1, h, i, x =>
    if bestChild key num h i ≠ 0 ∧ key (h.slot (bestChild key num h i)) < key x then
      siftDown num fuel (h.place i (h.slot (bestChild key num h i))) (bestChild key num h i) x
    else h.place i x

end Loops

/-! ## The invariant -/

/-- The elements, slot by slot. -/
def elems (num : ℕ) (h : Store α) : List α :=
  (range (num - 1)).map fun i => h.slot (i + 1)

variable {h : Store α} {num : ℕ}

theorem mem_elems {x : α} : x ∈ elems num h ↔ ∃ i, 0 < i ∧ i < num ∧ h.slot i = x := by
  simp only [elems, mem_map, mem_range]
  constructor
  · rintro ⟨i, hi, rfl⟩
    exact ⟨i + 1, by omega, by omega, rfl⟩
  · rintro ⟨i, hi, hlt, rfl⟩
    exact ⟨i - 1, by omega, by rw [Nat.sub_add_cancel hi]⟩

/-- No child is better than its parent. -/
def Ordered (key : α → κ) (num : ℕ) (h : Store α) : Prop :=
  ∀ i, 1 < i → i < num → key (h.slot (i / 2)) ≤ key (h.slot i)

/-- Every element knows its slot; so no element stands in two of them. -/
def Indexed (num : ℕ) (h : Store α) : Prop :=
  ∀ i, 0 < i → i < num → h.pos (h.slot i) = i

theorem Indexed.slot_ne {i j : ℕ} (h' : Indexed num h) (hj : 0 < j) (hjn : j < num) (hi : 0 < i)
    (hin : i < num) (hji : j ≠ i) : h.slot j ≠ h.slot i := by
  intro heq
  have hpos := h' j hj hjn
  rw [heq, h' i hi hin] at hpos
  exact hji hpos.symm

/-- A heap of exactly the elements of `S`. -/
structure Heaped (key : α → κ) (num : ℕ) (h : Store α) (S : Set α) : Prop where
  ordered : Ordered key num h
  indexed : Indexed num h
  mem : ∀ y, y ∈ S ↔ ∃ i, 0 < i ∧ i < num ∧ h.slot i = y

theorem Heaped.congr_key {key key' : α → κ} {S : Set α}
    (hh : Heaped key num h S) (hsame : ∀ x ∈ S, key' x = key x) : Heaped key' num h S where
  ordered := by
    intro i hi hin
    have hmem : ∀ j, 0 < j → j < num → h.slot j ∈ S :=
      fun j hj hjn => (hh.mem _).mpr ⟨j, hj, hjn, rfl⟩
    rw [hsame _ (hmem i (by omega) hin), hsame _ (hmem (i / 2) (by omega) (by omega))]
    exact hh.ordered i hi hin
  indexed := hh.indexed
  mem := hh.mem

theorem Ordered.root_le {key : α → κ} (ho : Ordered key num h) :
    ∀ i, 0 < i → i < num → key (h.slot 1) ≤ key (h.slot i) := by
  intro i
  induction i using Nat.strongRecOn with
  | ind i ih =>
    intro hi hlt
    by_cases h1 : i = 1
    · rw [h1]
    · exact (ih (i / 2) (by omega) (by omega) (by omega)).trans (ho i (by omega) hlt)

section Hole

variable {key : α → κ} {num : ℕ} {h : Store α} {i : ℕ} {x : α} {S : Set α}

/-- The array without its slot `i` holds, with `x` held aside, exactly `S`. -/
structure Hole (num : ℕ) (h : Store α) (i : ℕ) (x : α) (S : Set α) : Prop where
  pos : 0 < i
  lt : i < num
  indexed : ∀ j, 0 < j → j < num → j ≠ i → h.pos (h.slot j) = j
  fresh : ∀ j, 0 < j → j < num → j ≠ i → h.slot j ≠ x
  mem : ∀ y, y ∈ S ↔ y = x ∨ ∃ j, 0 < j ∧ j < num ∧ j ≠ i ∧ h.slot j = y

variable [DecidableEq α]

/-- Pulling the element of slot `j` into the hole moves the hole to `j`. -/
theorem Hole.move (hole : Hole num h i x S) (hj : 0 < j) (hjn : j < num) (hji : j ≠ i) :
    Hole num (h.place i (h.slot j)) j x S where
  pos := hj
  lt := hjn
  indexed := by
    intro k hk hkn hkj
    by_cases hki : k = i
    · rw [hki, Store.place_slot_self, Store.place_pos_self]
    · have hne : h.slot k ≠ h.slot j := by
        intro heq
        have hposk := hole.indexed k hk hkn hki
        rw [heq, hole.indexed j hj hjn hji] at hposk
        exact hkj hposk.symm
      rw [Store.place_slot_of_ne _ _ hki, Store.place_pos_of_ne _ _ hne]
      exact hole.indexed k hk hkn hki
  fresh := by
    intro k hk hkn hkj
    by_cases hki : k = i
    · rw [hki, Store.place_slot_self]
      exact hole.fresh j hj hjn hji
    · rw [Store.place_slot_of_ne _ _ hki]
      exact hole.fresh k hk hkn hki
  mem := by
    intro y
    rw [hole.mem y]
    refine or_congr_right ⟨?_, ?_⟩
    · rintro ⟨k, hk, hkn, hki, rfl⟩
      by_cases hkj : k = j
      · exact ⟨i, hole.pos, hole.lt, hji.symm, by rw [hkj, Store.place_slot_self]⟩
      · exact ⟨k, hk, hkn, hkj, Store.place_slot_of_ne _ _ hki⟩
    · rintro ⟨k, hk, hkn, hkj, rfl⟩
      by_cases hki : k = i
      · exact ⟨j, hj, hjn, hji, by rw [hki, Store.place_slot_self]⟩
      · exact ⟨k, hk, hkn, hki, (Store.place_slot_of_ne _ _ hki).symm⟩

/-- Dropping `x` into the hole closes it. -/
theorem Hole.fill (hole : Hole num h i x S) (ho : Ordered key num (h.place i x)) :
    Heaped key num (h.place i x) S where
  ordered := ho
  indexed := by
    intro k hk hkn
    by_cases hki : k = i
    · rw [hki, Store.place_slot_self, Store.place_pos_self]
    · rw [Store.place_slot_of_ne _ _ hki, Store.place_pos_of_ne _ _ (hole.fresh k hk hkn hki)]
      exact hole.indexed k hk hkn hki
  mem := by
    intro y
    rw [hole.mem y]
    constructor
    · rintro (rfl | ⟨k, hk, hkn, hki, rfl⟩)
      · exact ⟨i, hole.pos, hole.lt, Store.place_slot_self h i y⟩
      · exact ⟨k, hk, hkn, Store.place_slot_of_ne _ _ hki⟩
    · rintro ⟨k, hk, hkn, rfl⟩
      by_cases hki : k = i
      · exact .inl (by rw [hki, Store.place_slot_self])
      · exact .inr ⟨k, hk, hkn, hki, (Store.place_slot_of_ne _ _ hki).symm⟩

/-- The order around the hole `i`: what does not touch it is in order, and so are its
children with its parent. -/
structure HoleOrder (key : α → κ) (num : ℕ) (h : Store α) (i : ℕ) : Prop where
  rest : ∀ j, 1 < j → j < num → j ≠ i → j / 2 ≠ i → key (h.slot (j / 2)) ≤ key (h.slot j)
  grand : 1 < i → ∀ j, 1 < j → j < num → j / 2 = i → key (h.slot (i / 2)) ≤ key (h.slot j)

/-- What `siftUp` starts from: `x` may stand above the children of the hole. -/
structure UpOrder (key : α → κ) (num : ℕ) (h : Store α) (i : ℕ) (x : α) : Prop
    extends HoleOrder key num h i where
  below : ∀ j, 1 < j → j < num → j / 2 = i → key x ≤ key (h.slot j)

/-- What `siftDown` starts from: `x` may stand below the parent of the hole. -/
structure DownOrder (key : α → κ) (num : ℕ) (h : Store α) (i : ℕ) (x : α) : Prop
    extends HoleOrder key num h i where
  above : 1 < i → key (h.slot (i / 2)) ≤ key x

/-- If `x` fits between the hole's parent and its children, dropping it there leaves
every pair in order. -/
theorem HoleOrder.fill (o : HoleOrder key num h i) (above : 1 < i → key (h.slot (i / 2)) ≤ key x)
    (below : ∀ j, 1 < j → j < num → j / 2 = i → key x ≤ key (h.slot j)) :
    Ordered key num (h.place i x) := by
  intro j hj hjn
  by_cases hji : j = i
  · rw [hji, Store.place_slot_self, Store.place_slot_of_ne _ _ (by omega)]
    exact above (by omega)
  · rw [Store.place_slot_of_ne _ x hji]
    by_cases hp : j / 2 = i
    · rw [hp, Store.place_slot_self]
      exact below j hj hjn hp
    · rw [Store.place_slot_of_ne _ _ hp]
      exact o.rest j hj hjn hji hp

end Hole

/-! ## The loops repair the heap -/

section Sift

open Store (place_slot_of_ne place_slot_self)

variable {key : α → κ} {num : ℕ} {x : α} {S : Set α} {h : Store α} {i : ℕ}

/-- What `bestChild` finds: a child, no worse than the other one. -/
theorem bestChild_spec (hc : bestChild key num h i ≠ 0) :
    bestChild key num h i / 2 = i ∧ bestChild key num h i < num ∧
      ∀ j, 1 < j → j < num → j / 2 = i →
        key (h.slot (bestChild key num h i)) ≤ key (h.slot j) := by
  unfold bestChild at hc ⊢
  split_ifs at hc ⊢ with hnone hright
  · exact absurd rfl hc
  · refine ⟨by omega, hright.1, fun j _ hjn hji => ?_⟩
    obtain rfl | rfl : j = 2 * i ∨ j = 2 * i + 1 := by omega
    · exact hright.2.le
    · exact le_rfl
  · refine ⟨by omega, by omega, fun j _ hjn hji => ?_⟩
    obtain rfl | rfl : j = 2 * i ∨ j = 2 * i + 1 := by omega
    · exact le_rfl
    · exact not_lt.mp fun hlt => hright ⟨hjn, hlt⟩

theorem no_child_of_bestChild_eq_zero (hi : 0 < i) (hc : bestChild key num h i = 0) :
    ∀ j, j < num → j / 2 ≠ i := by
  unfold bestChild at hc
  split_ifs at hc with hnone hright
  all_goals
    intro j hjn
    omega

variable [DecidableEq α]

/-- The hole moves to its parent when `x` is better than the parent. -/
theorem UpOrder.move (o : UpOrder key num h i x) (hi : 1 < i) (hin : i < num)
    (hlt : key x < key (h.slot (i / 2))) :
    UpOrder key num (h.place i (h.slot (i / 2))) (i / 2) x where
  rest := by
    intro j hj hjn hjp hjpp
    have hji : j ≠ i := fun heq => hjpp (by rw [heq])
    rw [place_slot_of_ne _ _ hji]
    by_cases hp : j / 2 = i
    · rw [hp, place_slot_self]
      exact o.grand hi j hj hjn hp
    · rw [place_slot_of_ne _ _ hp]
      exact o.rest j hj hjn hji hp
  grand := by
    intro hp j hj hjn hjp
    have hup := o.rest (i / 2) hp (by omega) (by omega) (by omega)
    rw [place_slot_of_ne _ _ (show i / 2 / 2 ≠ i by omega)]
    by_cases hji : j = i
    · rw [hji, place_slot_self]
      exact hup
    · rw [place_slot_of_ne _ _ hji]
      have hside := o.rest j hj hjn hji (by omega)
      rw [hjp] at hside
      exact hup.trans hside
  below := by
    intro j hj hjn hjp
    by_cases hji : j = i
    · rw [hji, place_slot_self]
      exact hlt.le
    · rw [place_slot_of_ne _ _ hji]
      have hside := o.rest j hj hjn hji (by omega)
      rw [hjp] at hside
      exact hlt.le.trans hside

variable {fuel : ℕ}

/-- **`siftUp` ends in a heap of the same elements.** -/
theorem siftUp_heaped (hfuel : i ≤ fuel) (hole : Hole num h i x S) (o : UpOrder key num h i x) :
    Heaped key num (siftUp key fuel h i x) S := by
  induction fuel generalizing h i with
  | zero => exact absurd hole.pos (by omega)
  | succ fuel ih =>
    have hlt := hole.lt
    unfold siftUp
    by_cases hup : 1 < i ∧ key x < key (h.slot (i / 2))
    · rw [if_pos hup]
      exact ih (by omega) (hole.move (by omega) (by omega) (by omega))
        (o.move hup.1 hlt hup.2)
    · rw [if_neg hup]
      exact hole.fill (o.fill (fun hi => not_lt.mp fun hx => hup ⟨hi, hx⟩) o.below)

/-- The hole moves to its best child when that is better than `x`. -/
theorem DownOrder.move {c : ℕ} (o : DownOrder key num h i x) (hcp : c / 2 = i) (hcn : c < num)
    (hmin : ∀ j, 1 < j → j < num → j / 2 = i → key (h.slot c) ≤ key (h.slot j))
    (hlt : key (h.slot c) < key x) :
    DownOrder key num (h.place i (h.slot c)) c x where
  rest := by
    intro j hj hjn hjc hjpc
    by_cases hji : j = i
    · rw [hji, place_slot_self, place_slot_of_ne _ _ (by omega)]
      exact o.grand (by omega) c (by omega) hcn hcp
    · rw [place_slot_of_ne _ _ hji]
      by_cases hp : j / 2 = i
      · rw [hp, place_slot_self]
        exact hmin j hj hjn hp
      · rw [place_slot_of_ne _ _ hp]
        exact o.rest j hj hjn hji hp
  grand := by
    intro _ j hj hjn hjc
    rw [hcp, place_slot_self, place_slot_of_ne _ _ (by omega)]
    have hdown := o.rest j hj hjn (by omega) (by omega)
    rwa [hjc] at hdown
  above := by
    intro _
    rw [hcp, place_slot_self]
    exact hlt.le

/-- **`siftDown` ends in a heap of the same elements.** -/
theorem siftDown_heaped (hfuel : num ≤ fuel + i) (hole : Hole num h i x S)
    (o : DownOrder key num h i x) : Heaped key num (siftDown key num fuel h i x) S := by
  induction fuel generalizing h i with
  | zero => exact absurd hole.lt (by omega)
  | succ fuel ih =>
    have hpos := hole.pos
    unfold siftDown
    by_cases hdown : bestChild key num h i ≠ 0 ∧ key (h.slot (bestChild key num h i)) < key x
    · rw [if_pos hdown]
      obtain ⟨hcp, hcn, hmin⟩ := bestChild_spec hdown.1
      exact ih (by omega) (hole.move (by omega) hcn (by omega))
        (o.move hcp hcn hmin hdown.2)
    · rw [if_neg hdown]
      refine hole.fill (o.fill o.above fun j hj hjn hji => ?_)
      by_cases hc : bestChild key num h i = 0
      · exact absurd hji (no_child_of_bestChild_eq_zero hpos hc j hjn)
      · have hx : key x ≤ key (h.slot (bestChild key num h i)) :=
          not_lt.mp fun hx => hdown ⟨hc, hx⟩
        exact hx.trans ((bestChild_spec hc).2.2 j hj hjn hji)

/-- `siftUp` leaves the root where it is unless `x` is strictly better. -/
theorem siftUp_root (hi : 1 < i) (hx : key (h.slot 1) ≤ key x) :
    (siftUp key fuel h i x).slot 1 = h.slot 1 := by
  induction fuel generalizing h i with
  | zero => exact place_slot_of_ne _ _ (by omega)
  | succ fuel ih =>
    unfold siftUp
    by_cases hup : 1 < i ∧ key x < key (h.slot (i / 2))
    · have hhalf : i / 2 ≠ 1 := fun heq => absurd hup.2 (by rw [heq]; exact not_lt.mpr hx)
      have hroot : (h.place i (h.slot (i / 2))).slot 1 = h.slot 1 :=
        place_slot_of_ne _ _ (by omega)
      rw [if_pos hup, ih (by omega) (by rw [hroot]; exact hx), hroot]
    · rw [if_neg hup]
      exact place_slot_of_ne _ _ (by omega)

/-- `siftDown` leaves everything above the hole alone. -/
theorem siftDown_slot_of_lt (hj : j < i) : (siftDown key num fuel h i x).slot j = h.slot j := by
  induction fuel generalizing h i with
  | zero => exact place_slot_of_ne _ _ (by omega)
  | succ fuel ih =>
    unfold siftDown
    by_cases hdown : bestChild key num h i ≠ 0 ∧ key (h.slot (bestChild key num h i)) < key x
    · have hcp := (bestChild_spec hdown.1).1
      rw [if_pos hdown, ih (by omega), place_slot_of_ne _ _ (by omega)]
    · rw [if_neg hdown]
      exact place_slot_of_ne _ _ (by omega)

end Sift

/-! ## Opening a hole -/

section Open

variable {key key' : α → κ} {num num' : ℕ} {h h' : Store α} {i : ℕ} {x : α} {S : Set α}

theorem Heaped.hole_insert (hh : Heaped key num h S) (hnum : 0 < num) (hx : x ∉ S) :
    Hole (num + 1) (h.write num x) num x (insert x S) where
  pos := hnum
  lt := Nat.lt_succ_self num
  indexed := by
    intro j hj hjn hji
    rw [Store.write_slot_of_ne _ _ hji]
    exact hh.indexed j hj (by omega)
  fresh := by
    intro j hj hjn hji heq
    rw [Store.write_slot_of_ne _ _ hji] at heq
    exact hx ((hh.mem x).mpr ⟨j, hj, by omega, heq⟩)
  mem := by
    intro y
    rw [Set.mem_insert_iff, hh.mem y]
    refine or_congr_right ⟨?_, ?_⟩
    · rintro ⟨j, hj, hjn, rfl⟩
      exact ⟨j, hj, by omega, by omega, Store.write_slot_of_ne _ _ (by omega)⟩
    · rintro ⟨j, hj, hjn, hji, rfl⟩
      exact ⟨j, hj, by omega, (Store.write_slot_of_ne _ _ hji).symm⟩

theorem upOrder_insert (ho : Ordered key num h) :
    UpOrder key (num + 1) (h.write num x) num x where
  rest := by
    intro j hj hjn hji hjp
    rw [Store.write_slot_of_ne _ _ hji, Store.write_slot_of_ne _ _ hjp]
    exact ho j hj (by omega)
  grand := by
    intro _ j _ hjn hji
    omega
  below := by
    intro j _ hjn hji
    omega

/-- The last element takes the place of the one in slot `i`, which leaves. -/
theorem Heaped.hole_erase (hh : Heaped key (num + 1) h S) (hi : 0 < i) (hin : i < num) :
    Hole num (h.write i (h.slot num)) i (h.slot num) (S \ {h.slot i}) where
  pos := hi
  lt := hin
  indexed := by
    intro j hj hjn hji
    rw [Store.write_slot_of_ne _ _ hji]
    exact hh.indexed j hj (by omega)
  fresh := by
    intro j hj hjn hji heq
    rw [Store.write_slot_of_ne _ _ hji] at heq
    exact hh.indexed.slot_ne hj (by omega) (by omega) (by omega) (by omega) heq
  mem := by
    intro y
    rw [Set.mem_sdiff, hh.mem y, Set.mem_singleton_iff]
    constructor
    · rintro ⟨⟨j, hj, hjn, rfl⟩, hne⟩
      have hji : j ≠ i := fun heq => hne (by rw [heq])
      by_cases hjl : j = num
      · exact .inl (by rw [hjl])
      · exact .inr ⟨j, hj, by omega, hji, Store.write_slot_of_ne _ _ hji⟩
    · have hne : ∀ j, 0 < j → j < num + 1 → j ≠ i → h.slot j ≠ h.slot i := fun j hj hjn hji =>
        hh.indexed.slot_ne hj hjn hi (by omega) hji
      rintro (rfl | ⟨j, hj, hjn, hji, rfl⟩)
      · exact ⟨⟨num, by omega, by omega, rfl⟩, hne num (by omega) (by omega) (by omega)⟩
      · rw [Store.write_slot_of_ne _ _ hji]
        exact ⟨⟨j, hj, by omega, rfl⟩, hne j hj (by omega) hji⟩

/-- The last element leaves: the others do not move, wherever it is put now. -/
theorem Heaped.erase_last [DecidableEq α] (hh : Heaped key (num + 1) h S) (hnum : 0 < num) :
    Heaped key num (h.place num (h.slot num)) (S \ {h.slot num}) := by
  have hne : ∀ j, 0 < j → j < num → h.slot j ≠ h.slot num := fun j hj hjn =>
    hh.indexed.slot_ne hj (by omega) hnum (by omega) (by omega)
  have hslot : ∀ j, j < num → (h.place num (h.slot num)).slot j = h.slot j :=
    fun j hj => Store.place_slot_of_ne _ _ (by omega)
  refine ⟨fun j hj hjn => ?_, fun j hj hjn => ?_, fun y => ?_⟩
  · rw [hslot j hjn, hslot (j / 2) (by omega)]
    exact hh.ordered j hj (by omega)
  · rw [hslot j hjn, Store.place_pos_of_ne _ _ (hne j hj hjn)]
    exact hh.indexed j hj (by omega)
  · rw [Set.mem_sdiff, hh.mem y, Set.mem_singleton_iff]
    constructor
    · rintro ⟨⟨j, hj, hjn, rfl⟩, hy⟩
      have hjl : j < num := lt_of_le_of_ne (by omega) fun heq => hy (by rw [heq])
      exact ⟨j, hj, hjl, hslot j hjl⟩
    · rintro ⟨j, hj, hjn, rfl⟩
      rw [hslot j hjn]
      exact ⟨⟨j, hj, by omega, rfl⟩, hne j hj hjn⟩

theorem Heaped.hole_self (hh : Heaped key num h S) (hi : 0 < i) (hin : i < num) :
    Hole num h i (h.slot i) S where
  pos := hi
  lt := hin
  indexed := fun j hj hjn _ => hh.indexed j hj hjn
  fresh := fun j hj hjn hji => hh.indexed.slot_ne hj hjn hi hin hji
  mem := by
    intro y
    rw [hh.mem y]
    constructor
    · rintro ⟨j, hj, hjn, rfl⟩
      by_cases hji : j = i
      · exact .inl (by rw [hji])
      · exact .inr ⟨j, hj, hjn, hji, rfl⟩
    · rintro (rfl | ⟨j, hj, hjn, _, rfl⟩)
      · exact ⟨i, hi, hin, rfl⟩
      · exact ⟨j, hj, hjn, rfl⟩

variable (ho : Ordered key num h) (hnum : num' ≤ num)
  (hsame : ∀ j, 0 < j → j < num' → j ≠ i → key' (h'.slot j) = key (h.slot j))
include ho hnum hsame

/-- A hole in a heap: the slots besides `i` are as they were, up to a shorter array. -/
theorem holeOrder_of_ordered : HoleOrder key' num' h' i where
  rest := by
    intro j hj hjn hji hjp
    rw [hsame j (by omega) hjn hji, hsame (j / 2) (by omega) (by omega) hjp]
    exact ho j hj (by omega)
  grand := by
    intro hi j hj hjn hji
    rw [hsame j (by omega) hjn (by omega), hsame (i / 2) (by omega) (by omega) (by omega)]
    have hlow := ho j hj (by omega)
    rw [hji] at hlow
    exact (ho i hi (by omega)).trans hlow

/-- An element no worse than the one it stands in for can only have to move up. -/
theorem upOrder_of_ordered (hx : key' x ≤ key (h.slot i)) : UpOrder key' num' h' i x where
  toHoleOrder := holeOrder_of_ordered ho hnum hsame
  below := by
    intro j hj hjn hji
    have hlow := ho j hj (by omega)
    rw [hji] at hlow
    rw [hsame j (by omega) hjn (by omega)]
    exact hx.trans hlow

/-- An element no better than the one it stands in for can only have to move down. -/
theorem downOrder_of_ordered (hin : i < num') (hx : key (h.slot i) ≤ key' x) :
    DownOrder key' num' h' i x where
  toHoleOrder := holeOrder_of_ordered ho hnum hsame
  above := by
    intro hi
    rw [hsame (i / 2) (by omega) (by omega) (by omega)]
    exact (ho i hi (by omega)).trans hx

end Open

end IndexedHeap
