import Mathlib.Data.List.Nodup
import Swoole.Library.IndexedHeap

/-!
# `swHeap`

The priority queue of the timer: an array of pointers to `swHeap_node`s, slot 0
unused, every node carrying its priority, the index it stands at and a data pointer.
The memory of the nodes is one function per field (`priority`, `position`, `data`),
so that moving a pointer through the array changes `nodes` and `position` only.

The array and the positions are an `IndexedHeap.Store`; `rank` turns the two modes
into one order.  `bubbleUp_eq` and `percolateDown_eq` identify the two repair loops
with the ones of the library, and each operation then has one lemma about what it
keeps (`Valid`) and what it stores: `push_valid`, `changePriority_valid`,
`remove_valid`, `pop_valid`.

Allocation is outside the program: `push` takes the answers of `realloc` and
`malloc`.  Freed nodes are not tracked; a node outside the array is never read.
-/

namespace Swoole

open Function IndexedHeap

/-- An address. -/
abbrev Ptr := ℕ

/-- `SW_MIN_HEAP` and `SW_MAX_HEAP`. -/
inductive HeapType where
  | min
  | max
  deriving DecidableEq, Repr

/-- `swHeap`, with the nodes it points to. -/
structure Heap (δ : Type) where
  num : ℕ
  size : ℕ
  type : HeapType
  nodes : ℕ → Ptr
  priority : Ptr → ℕ
  position : Ptr → ℕ
  data : Ptr → δ

namespace Heap

variable {δ : Type}

/-- `swHeap_new`; the fresh memory is whatever it is. -/
def new [Inhabited δ] (n : ℕ) (type : HeapType) : Heap δ where
  num := 1
  size := n + 1
  type := type
  nodes := fun _ => 0
  priority := fun _ => 0
  position := fun _ => 0
  data := fun _ => default

/-- `swHeap_compare`. -/
def compare : HeapType → ℕ → ℕ → Bool
  | .min, a, b => decide (b < a)
  | .max, a, b => decide (a < b)

/-- `heap->nodes[i] = node; node->position = i;` -/
def setNode (h : Heap δ) (i : ℕ) (node : Ptr) : Heap δ :=
  { h with
    nodes := update h.nodes i node
    position := update h.position node i }

/-- `swHeap_maxchild`. -/
def maxchild (h : Heap δ) (i : ℕ) : ℕ :=
  let child := 2 * i
  if h.num ≤ child then 0
  else if child + 1 < h.num ∧
      compare h.type (h.priority (h.nodes child)) (h.priority (h.nodes (child + 1))) then
    child + 1
  else child

/-- The loop of `swHeap_bubble_up`, at most `fuel` rounds of it. -/
def bubbleUpLoop : ℕ → Heap δ → ℕ → Ptr → Heap δ
  | 0, h, i, moving => h.setNode i moving
  | fuel + 1, h, i, moving =>
    if 1 < i ∧ compare h.type (h.priority (h.nodes (i / 2))) (h.priority moving) then
      bubbleUpLoop fuel (h.setNode i (h.nodes (i / 2))) (i / 2) moving
    else h.setNode i moving

/-- `swHeap_bubble_up`.  The index is halved in every round. -/
def bubbleUp (h : Heap δ) (i : ℕ) : Heap δ := bubbleUpLoop i h i (h.nodes i)

/-- The loop of `swHeap_percolate_down`, at most `fuel` rounds of it. -/
def percolateDownLoop : ℕ → Heap δ → ℕ → Ptr → Heap δ
  | 0, h, i, moving => h.setNode i moving
  | fuel + 1, h, i, moving =>
    if h.maxchild i ≠ 0 ∧
        compare h.type (h.priority moving) (h.priority (h.nodes (h.maxchild i))) then
      percolateDownLoop fuel (h.setNode i (h.nodes (h.maxchild i))) (h.maxchild i) moving
    else h.setNode i moving

/-- `swHeap_percolate_down`.  The index grows in every round and stays below `num`. -/
def percolateDown (h : Heap δ) (i : ℕ) : Heap δ := percolateDownLoop h.num h i (h.nodes i)

/-- What the allocator answers to a `swHeap_push`. -/
structure PushMemory where
  realloc : Bool
  node : Option Ptr
  deriving DecidableEq, Repr

/-- The array is full: double it, if `realloc` finds the memory. -/
def grow (h : Heap δ) (realloc : Bool) : Option (Heap δ) :=
  if h.size ≤ h.num then
    if realloc then some { h with size := h.size * 2 } else none
  else some h

/-- The part of `swHeap_push` that follows the allocations. -/
def pushNode (h : Heap δ) (priority : ℕ) (data : δ) (node : Ptr) : Heap δ :=
  bubbleUp
    { h with
      num := h.num + 1
      nodes := update h.nodes h.num node
      priority := update h.priority node priority
      data := update h.data node data } h.num

/-- `swHeap_push`. -/
def push (h : Heap δ) (priority : ℕ) (data : δ) (mem : PushMemory) : Heap δ × Option Ptr :=
  match h.grow mem.realloc with
  | none => (h, none)
  | some h' =>
    match mem.node with
    | none => (h', none)
    | some node => (h'.pushNode priority data node, some node)

/-- `swHeap_change_priority`. -/
def changePriority (h : Heap δ) (newPriority : ℕ) (node : Ptr) : Heap δ :=
  let h' := { h with priority := update h.priority node newPriority }
  if compare h.type (h.priority node) newPriority then h'.bubbleUp (h.position node)
  else h'.percolateDown (h.position node)

/-- `heap->nodes[pos] = heap->nodes[--heap->num];` -/
def moveLast (h : Heap δ) (pos : ℕ) : Heap δ :=
  { h with
    num := h.num - 1
    nodes := update h.nodes pos (h.nodes (h.num - 1)) }

/-- `swHeap_remove`. -/
def remove (h : Heap δ) (node : Ptr) : Heap δ :=
  let pos := h.position node
  let h' := h.moveLast pos
  if compare h.type (h.priority node) (h.priority (h'.nodes pos)) then h'.bubbleUp pos
  else h'.percolateDown pos

/-- `swHeap_pop`; the popped node is freed. -/
def pop (h : Heap δ) : Heap δ × Option δ :=
  if h.num = 1 then (h, none)
  else ((h.moveLast 1).percolateDown 1, some (h.data (h.nodes 1)))

/-- `swHeap_top`. -/
def top (h : Heap δ) : Option Ptr := if h.num = 1 then none else some (h.nodes 1)

/-! ## The heap as an indexed heap -/

/-- The array and the positions. -/
def store (h : Heap δ) : IndexedHeap.Store Ptr := ⟨h.nodes, h.position⟩

def withStore (h : Heap δ) (s : IndexedHeap.Store Ptr) : Heap δ :=
  { h with nodes := s.slot, position := s.pos }

/-- A priority as the library's order has it: the smallest rank belongs on top. -/
def rankOf : HeapType → ℕ → ℤ
  | .min, a => a
  | .max, a => -a

/-- The rank of a node. -/
def rank (h : Heap δ) (node : Ptr) : ℤ := rankOf h.type (h.priority node)

/-- The pointers in the array. -/
def stored (h : Heap δ) : List Ptr := elems h.num h.store

theorem compare_iff (type : HeapType) (a b : ℕ) :
    compare type a b = true ↔ rankOf type b < rankOf type a := by
  cases type <;> simp [compare, rankOf]

variable {q : Ptr}

theorem mem_stored {h : Heap δ} : q ∈ h.stored ↔ ∃ i, 0 < i ∧ i < h.num ∧ h.nodes i = q :=
  mem_elems

theorem setNode_eq (h : Heap δ) (i : ℕ) (node : Ptr) :
    h.setNode i node = h.withStore (h.store.place i node) := rfl

theorem maxchild_eq (h : Heap δ) (i : ℕ) : h.maxchild i = bestChild h.rank h.num h.store i := by
  simp only [maxchild, bestChild, compare_iff]
  rfl

theorem bubbleUpLoop_eq (fuel : ℕ) (h : Heap δ) (i : ℕ) (moving : Ptr) :
    bubbleUpLoop fuel h i moving =
      h.withStore (siftUp h.rank fuel h.store i moving) := by
  induction fuel generalizing h i with
  | zero => rfl
  | succ fuel ih =>
    simp only [bubbleUpLoop, siftUp, compare_iff]
    split
    · next hup =>
      rw [ih, if_pos (show 1 < i ∧ h.rank moving < h.rank (h.store.slot (i / 2)) from hup)]
      rfl
    · next hup =>
      rw [if_neg (show ¬ (1 < i ∧ h.rank moving < h.rank (h.store.slot (i / 2))) from hup)]
      rfl

theorem percolateDownLoop_eq (fuel : ℕ) (h : Heap δ) (i : ℕ) (moving : Ptr) :
    percolateDownLoop fuel h i moving =
      h.withStore (siftDown h.rank h.num fuel h.store i moving) := by
  induction fuel generalizing h i with
  | zero => rfl
  | succ fuel ih =>
    simp only [percolateDownLoop, siftDown, compare_iff, maxchild_eq]
    split
    · next hdown =>
      rw [ih, if_pos (show _ ∧ h.rank (h.store.slot _) < h.rank moving from hdown)]
      rfl
    · next hdown =>
      rw [if_neg (show ¬ (_ ∧ h.rank (h.store.slot _) < h.rank moving) from hdown)]
      rfl

theorem bubbleUp_eq (h : Heap δ) (i : ℕ) :
    h.bubbleUp i = h.withStore (siftUp h.rank i h.store i (h.nodes i)) :=
  bubbleUpLoop_eq i h i (h.nodes i)

theorem percolateDown_eq (h : Heap δ) (i : ℕ) :
    h.percolateDown i =
      h.withStore (siftDown h.rank h.num h.num h.store i (h.nodes i)) :=
  percolateDownLoop_eq h.num h i (h.nodes i)

section Frame

variable (h : Heap δ) (i : ℕ)

@[simp] theorem bubbleUp_frame : (h.bubbleUp i).num = h.num ∧ (h.bubbleUp i).type = h.type ∧
    (h.bubbleUp i).priority = h.priority ∧ (h.bubbleUp i).data = h.data := by
  rw [bubbleUp_eq]
  exact ⟨rfl, rfl, rfl, rfl⟩

@[simp] theorem percolateDown_frame : (h.percolateDown i).num = h.num ∧
    (h.percolateDown i).type = h.type ∧ (h.percolateDown i).priority = h.priority ∧
    (h.percolateDown i).data = h.data := by
  rw [percolateDown_eq]
  exact ⟨rfl, rfl, rfl, rfl⟩

end Frame

/-! No operation but `push` writes the data of a node, and none changes the mode. -/

section Fields

variable (h : Heap δ) (p : ℕ) (d : δ) (node : Ptr)

@[simp] theorem pushNode_frame : (h.pushNode p d node).data = update h.data node d ∧
    (h.pushNode p d node).type = h.type ∧ (h.pushNode p d node).num = h.num + 1 ∧
    (h.pushNode p d node).priority = update h.priority node p := by
  simp [pushNode]

@[simp] theorem changePriority_frame : (h.changePriority p node).data = h.data ∧
    (h.changePriority p node).type = h.type ∧ (h.changePriority p node).num = h.num ∧
    (h.changePriority p node).priority = update h.priority node p := by
  unfold changePriority
  split <;> simp

@[simp] theorem remove_frame : (h.remove node).data = h.data ∧
    (h.remove node).type = h.type ∧ (h.remove node).num = h.num - 1 ∧
    (h.remove node).priority = h.priority := by
  unfold remove
  dsimp only
  split <;> simp [moveLast]

@[simp] theorem pop_num : h.pop.1.num = if h.num = 1 then 1 else h.num - 1 := by
  unfold pop
  split_ifs with hone
  · exact hone
  · simp [moveLast]

@[simp] theorem pop_frame : h.pop.1.data = h.data ∧ h.pop.1.type = h.type ∧
    h.pop.1.priority = h.priority := by
  unfold pop
  split <;> simp [moveLast]

end Fields

/-! ## What the operations keep -/

/-- The array is a heap in the order of its mode, and every node knows its index. -/
structure Valid (h : Heap δ) : Prop where
  num_pos : 0 < h.num
  heaped : IndexedHeap.Heaped h.rank h.num h.store {q | q ∈ h.stored}

/-- A heap of the library on the array is a valid heap that stores its set. -/
theorem withStore_valid {h : Heap δ} {s : IndexedHeap.Store Ptr} {S : Set Ptr}
    (hnum : 0 < h.num) (hh : IndexedHeap.Heaped h.rank h.num s S) :
    (h.withStore s).Valid ∧ ∀ q, q ∈ (h.withStore s).stored ↔ q ∈ S := by
  refine ⟨⟨hnum, hh.ordered, hh.indexed, fun q => mem_stored⟩, fun q => ?_⟩
  exact mem_stored.trans (hh.mem q).symm

theorem new_valid [Inhabited δ] (n : ℕ) (type : HeapType) : (new n type : Heap δ).Valid where
  num_pos := Nat.one_pos
  heaped := by
    refine ⟨?_, ?_, fun q => mem_stored⟩
    all_goals
      intro i hi hin
      exact absurd hin (by simp only [new]; omega)

@[simp] theorem stored_new [Inhabited δ] (n : ℕ) (type : HeapType) :
    (new n type : Heap δ).stored = [] := rfl

variable {h : Heap δ}

theorem Valid.nodes_position (hv : h.Valid) (hq : q ∈ h.stored) :
    0 < h.position q ∧ h.position q < h.num ∧ h.nodes (h.position q) = q := by
  obtain ⟨i, hi, hin, rfl⟩ := mem_stored.mp hq
  have hpos : h.position (h.nodes i) = i := hv.heaped.indexed i hi hin
  rw [hpos]
  exact ⟨hi, hin, rfl⟩

theorem Valid.top_spec (hv : h.Valid) (htop : h.top = some q) :
    q ∈ h.stored ∧ h.nodes 1 = q ∧ 1 < h.num ∧ ∀ r ∈ h.stored, h.rank q ≤ h.rank r := by
  have hnum := hv.num_pos
  unfold top at htop
  split_ifs at htop with hone
  obtain rfl : h.nodes 1 = q := Option.some.inj htop
  refine ⟨mem_stored.mpr ⟨1, Nat.one_pos, by omega, rfl⟩, rfl, by omega, fun r hr => ?_⟩
  obtain ⟨i, hi, hin, rfl⟩ := mem_stored.mp hr
  exact hv.heaped.ordered.root_le i hi hin

theorem stored_eq_nil_of_top_eq_none (htop : h.top = none) : h.stored = [] := by
  unfold top at htop
  split_ifs at htop with hone
  simp [stored, elems, hone]

variable {node : Ptr}

/-- **Pushing** stores one more node. -/
theorem pushNode_valid (hv : h.Valid) (p : ℕ) (d : δ) (hnode : node ∉ h.stored) :
    (h.pushNode p d node).Valid ∧
      ∀ q, q ∈ (h.pushNode p d node).stored ↔ q = node ∨ q ∈ h.stored := by
  set h' : Heap δ :=
    { h with
      num := h.num + 1
      nodes := update h.nodes h.num node
      priority := update h.priority node p
      data := update h.data node d } with hh'
  have hsame : ∀ q ∈ {q | q ∈ h.stored}, h'.rank q = h.rank q := by
    intro q hq
    have hne : q ≠ node := fun heq => hnode (heq ▸ hq)
    simp [rank, hh', hne]
  have hheaped := hv.heaped.congr_key hsame
  have hsift := siftUp_heaped (le_refl h.num)
    (hheaped.hole_insert hv.num_pos hnode) (upOrder_insert hheaped.ordered)
  have hpush : h.pushNode p d node =
      h'.withStore (siftUp h'.rank h.num (h.store.write h.num node) h.num node) := by
    have hnodes : h'.nodes h.num = node := by simp [hh']
    unfold pushNode
    rw [bubbleUp_eq, hnodes]
    rfl
  obtain ⟨hvalid, hmem⟩ := withStore_valid (h := h') (Nat.succ_pos h.num) hsift
  rw [hpush]
  exact ⟨hvalid, fun q => (hmem q).trans Set.mem_insert_iff⟩

theorem pushNode_root (hnum : 1 < h.num) (p : ℕ) (d : δ) (hne : h.nodes 1 ≠ node)
    (hrank : h.rank (h.nodes 1) ≤ rankOf h.type p) : (h.pushNode p d node).nodes 1 = h.nodes 1 := by
  have hone : update h.nodes h.num node 1 = h.nodes 1 :=
    update_of_ne (by omega) _ _
  unfold pushNode
  rw [bubbleUp_eq]
  refine (siftUp_root hnum ?_).trans hone
  simpa [store, rank, hone, hne] using hrank

/-- **Changing a priority** moves nodes but stores the same ones. -/
theorem changePriority_valid (hv : h.Valid) (p : ℕ) (hnode : node ∈ h.stored) :
    (h.changePriority p node).Valid ∧
      ∀ q, q ∈ (h.changePriority p node).stored ↔ q ∈ h.stored := by
  obtain ⟨hpos, hlt, hat⟩ := hv.nodes_position hnode
  set h' : Heap δ := { h with priority := update h.priority node p } with hh'
  have hhole := hv.heaped.hole_self hpos hlt
  have hslot : h.store.slot (h.position node) = node := hat
  rw [hslot] at hhole
  have hsame : ∀ j, 0 < j → j < h.num → j ≠ h.position node →
      h'.rank (h'.store.slot j) = h.rank (h.store.slot j) := by
    intro j hj hjn hjp
    have hne : h.nodes j ≠ node := hhole.fresh j hj hjn hjp
    simp [rank, store, hh', hne]
  have hnew : h'.rank node = rankOf h.type p := by simp [rank, hh']
  have hmoving : h'.nodes (h.position node) = node := hat
  by_cases hup : compare h.type (h.priority node) p = true
  · have hlt' : rankOf h.type p < h.rank node := (compare_iff _ _ _).mp hup
    have hsift := siftUp_heaped (le_refl (h.position node)) hhole
      (upOrder_of_ordered hv.heaped.ordered le_rfl hsame
        (by rw [hnew, hslot]; exact hlt'.le))
    have heq : h.changePriority p node = h'.bubbleUp (h.position node) := by
      unfold changePriority
      rw [if_pos hup]
    rw [heq, bubbleUp_eq, hmoving]
    exact withStore_valid (h := h') hv.num_pos hsift
  · have hle : h.rank node ≤ rankOf h.type p :=
      not_lt.mp fun hlt' => hup ((compare_iff _ _ _).mpr hlt')
    have hsift := siftDown_heaped (Nat.le_add_right h.num (h.position node)) hhole
      (downOrder_of_ordered hv.heaped.ordered le_rfl hsame hlt
        (by rw [hnew, hslot]; exact hle))
    have heq : h.changePriority p node = h'.percolateDown (h.position node) := by
      unfold changePriority
      rw [if_neg hup]
    rw [heq, percolateDown_eq, hmoving]
    exact withStore_valid (h := h') hv.num_pos hsift

@[simp] theorem moveLast_nodes_self (h : Heap δ) (pos : ℕ) :
    (h.moveLast pos).nodes pos = h.nodes (h.num - 1) := by
  simp [moveLast]

variable {i : ℕ}

theorem percolateDown_of_num_le (hnum : 0 < h.num) (hi : h.num ≤ 2 * i) :
    h.percolateDown i = h.setNode i (h.nodes i) := by
  obtain ⟨n, hn⟩ := Nat.exists_eq_add_one.mpr hnum
  have hchild : h.maxchild i = 0 := by simp [maxchild, hi]
  unfold percolateDown
  rw [hn, percolateDownLoop, if_neg (fun hc => hc.1 hchild)]

/-- The heap `h'` stores what `h` does, without `node`. -/
def Without (h : Heap δ) (node : Ptr) (h' : Heap δ) : Prop :=
  h'.Valid ∧ ∀ q, q ∈ h'.stored ↔ q ∈ h.stored ∧ q ≠ node

variable {n : ℕ} (hv : h.Valid) (hn : h.num = n + 1)
include hn

theorem moveLast_num (i : ℕ) : (h.moveLast i).num = n := by simp [moveLast, hn]

theorem moveLast_nodes (i : ℕ) : (h.moveLast i).nodes i = h.nodes n := by simp [moveLast, hn]

theorem moveLast_store (pos : ℕ) :
    (h.moveLast pos).store = h.store.write pos (h.store.slot n) := by
  simp [store, moveLast, IndexedHeap.Store.write, hn]

theorem without_moveLast {s : IndexedHeap.Store Ptr} (hpos : 0 < n)
    (hs : IndexedHeap.Heaped h.rank n s ({q | q ∈ h.stored} \ {h.nodes i})) :
    h.Without (h.nodes i) ((h.moveLast i).withStore s) := by
  rw [← moveLast_num hn i] at hpos hs
  exact withStore_valid hpos hs

include hv

/-- The last node of the array leaves: it is put back to where no one looks. -/
theorem moveLast_last_valid (hpos : 0 < n) :
    h.Without (h.nodes n) ((h.moveLast n).percolateDown n) := by
  have hnum := moveLast_num hn n
  have hstore : (h.moveLast n).store = h.store := by
    rw [moveLast_store hn]
    simp [IndexedHeap.Store.write]
  have hheaped := hv.heaped
  rw [hn] at hheaped
  rw [percolateDown_of_num_le (by omega) (by omega), moveLast_nodes hn, setNode_eq, hstore]
  exact without_moveLast hn hpos (hheaped.erase_last hpos)

/-- The last node takes over an index inside the array, and moves down from there if
it does not rank before the node that leaves. -/
theorem moveLast_down_valid (hi : 0 < i) (hin : i < n)
    (hle : h.rank (h.nodes i) ≤ h.rank (h.nodes n)) :
    h.Without (h.nodes i) ((h.moveLast i).percolateDown i) := by
  have hheaped := hv.heaped
  rw [hn] at hheaped
  have hsift := siftDown_heaped (Nat.le_add_right n i) (hheaped.hole_erase hi hin)
    (downOrder_of_ordered hheaped.ordered (Nat.le_succ n)
      (fun j _ _ hj => by rw [IndexedHeap.Store.write_slot_of_ne _ _ hj]) hin hle)
  rw [percolateDown_eq, moveLast_nodes hn, moveLast_num hn, moveLast_store hn]
  exact without_moveLast hn (by omega) hsift

/-- The same for a node that does rank before the one that leaves: it moves up. -/
theorem moveLast_up_valid (hi : 0 < i) (hin : i < n)
    (hle : h.rank (h.nodes n) ≤ h.rank (h.nodes i)) :
    h.Without (h.nodes i) ((h.moveLast i).bubbleUp i) := by
  have hheaped := hv.heaped
  rw [hn] at hheaped
  have hsift := siftUp_heaped (le_refl i) (hheaped.hole_erase hi hin)
    (upOrder_of_ordered hheaped.ordered (Nat.le_succ n)
      (fun j _ _ hj => by rw [IndexedHeap.Store.write_slot_of_ne _ _ hj]) hle)
  rw [bubbleUp_eq, moveLast_nodes hn, moveLast_store hn]
  exact without_moveLast hn (by omega) hsift

omit hn

/-- **Removing** a stored node takes away that node only, wherever it stands. -/
theorem remove_valid (hnode : node ∈ h.stored) : h.Without node (h.remove node) := by
  obtain ⟨i, hi, hin, rfl⟩ := mem_stored.mp hnode
  have hpos : h.position (h.nodes i) = i := hv.heaped.indexed i hi hin
  obtain ⟨n, hn⟩ : ∃ n, h.num = n + 1 := ⟨h.num - 1, by omega⟩
  unfold remove
  simp only [hpos, moveLast_nodes hn, compare_iff]
  by_cases hend : i = n
  · subst hend
    rw [if_neg (lt_irrefl _)]
    exact moveLast_last_valid hv hn hi
  · split_ifs with hup
    · exact moveLast_up_valid hv hn hi (by omega) hup.le
    · exact moveLast_down_valid hv hn hi (by omega) (not_lt.mp hup)

theorem remove_root (hnode : node ∈ h.stored)
    (hne : node ≠ h.nodes 1) : (h.remove node).nodes 1 = h.nodes 1 := by
  obtain ⟨hpos, hlt, hat⟩ := hv.nodes_position hnode
  have hroot : h.position node ≠ 1 := fun heq => hne (by rw [← hat, heq])
  have hone : (h.moveLast (h.position node)).nodes 1 = h.nodes 1 :=
    update_of_ne hroot.symm _ _
  have hmin : h.rank (h.nodes 1) ≤ h.rank (h.nodes (h.num - 1)) :=
    hv.heaped.ordered.root_le (h.num - 1) (by omega) (by omega)
  unfold remove
  dsimp only
  split
  · rw [bubbleUp_eq, moveLast_nodes_self]
    refine (siftUp_root (by omega) ?_).trans hone
    show h.rank ((h.moveLast (h.position node)).nodes 1) ≤ _
    rw [hone]
    exact hmin
  · rw [percolateDown_eq]
    exact (siftDown_slot_of_lt (by omega)).trans hone

/-- **Popping** takes away the top. -/
theorem pop_valid (htop : h.top = some node) : h.Without node h.pop.1 := by
  obtain ⟨-, rfl, hnum, -⟩ := hv.top_spec htop
  obtain ⟨n, hn⟩ : ∃ n, h.num = n + 1 := ⟨h.num - 1, by omega⟩
  have hpop : h.pop.1 = (h.moveLast 1).percolateDown 1 := by
    unfold pop
    rw [if_neg (by omega)]
  rw [hpop]
  by_cases hend : n = 1
  · rw [hend] at hn
    exact moveLast_last_valid hv hn Nat.one_pos
  · exact moveLast_down_valid hv hn Nat.one_pos (by omega)
      (hv.heaped.ordered.root_le n (by omega) (by omega))

omit hv

theorem push_cases (h : Heap δ) (p : ℕ) (d : δ) (mem : PushMemory) :
    (∃ size, h.push p d mem = ({ h with size := size }, none)) ∨
      ∃ size node, mem.node = some node ∧
        h.push p d mem = (({ h with size := size } : Heap δ).pushNode p d node, some node) := by
  have hgrow : h.grow mem.realloc = none ∨
      ∃ size, h.grow mem.realloc = some { h with size := size } := by
    unfold grow
    split_ifs
    · exact .inr ⟨_, rfl⟩
    · exact .inl rfl
    · exact .inr ⟨h.size, rfl⟩
  unfold push
  rcases hgrow with hnone | ⟨size, hsome⟩
  · exact .inl ⟨h.size, by rw [hnone]⟩
  · rw [hsome]
    cases hmem : mem.node with
    | none => exact .inl ⟨size, rfl⟩
    | some node => exact .inr ⟨size, node, rfl, rfl⟩

/-- A push fails if the array is full and cannot grow, or if there is no memory for the node. -/
theorem push_eq_none_iff (h : Heap δ) (p : ℕ) (d : δ) (mem : PushMemory) :
    (h.push p d mem).2 = none ↔
      (h.size ≤ h.num ∧ mem.realloc = false) ∨ mem.node = none := by
  unfold push grow
  cases hnode : mem.node <;> cases hrealloc : mem.realloc <;> by_cases hfull : h.size ≤ h.num <;>
    simp [hfull]

theorem push_num (h : Heap δ) (p : ℕ) (d : δ) (mem : PushMemory) :
    (h.push p d mem).1.num = h.num + if (h.push p d mem).2 = none then 0 else 1 := by
  rcases h.push_cases p d mem with ⟨size, heq⟩ | ⟨size, node, -, heq⟩
  all_goals
    rw [heq]
    simp

theorem Valid.of_size (hv : h.Valid) (size : ℕ) : ({ h with size := size } : Heap δ).Valid :=
  ⟨hv.num_pos, hv.heaped⟩

end Heap

end Swoole
