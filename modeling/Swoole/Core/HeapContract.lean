import Swoole.Core.Heap
import Swoole.Library.StepRun

/-!
# The contract of `swHeap`

`swHeap` has four operations that change it.  What its users rely on has two halves.

* `Sound` is about a state: the array is in the order of its mode, every node in it knows its
  index, and no node has a better priority than the one on top.
* `Changes` is about an operation: as a multiset, the entries change by the one that is pushed,
  popped or removed, or by the priority of one of them.

`contract_run` has both for every sequence of operations.  An allocator does not hand out the
memory of a node that is in the heap, and `swHeap_remove` and `swHeap_change_priority` are only
called with nodes that are; `Admissible` says so.
-/

namespace Swoole.Heap

open StepRun List

variable {δ : Type}

/-- A call of one of the operations. -/
inductive Op (δ : Type) where
  | push (priority : ℕ) (data : δ) (mem : PushMemory)
  | pop
  | remove (node : Ptr)
  | changePriority (priority : ℕ) (node : Ptr)

def step (h : Heap δ) : Op δ → Heap δ
  | .push priority data mem => (h.push priority data mem).1
  | .pop => h.pop.1
  | .remove node => h.remove node
  | .changePriority priority node => h.changePriority priority node

/-- A new node is none of those in the heap, and any other node is one of them. -/
def Admissible (h : Heap δ) : Op δ → Prop
  | .push _ _ mem => ∀ node ∈ mem.node, node ∉ h.stored
  | .pop => True
  | .remove node => node ∈ h.stored
  | .changePriority _ node => node ∈ h.stored

instance (h : Heap δ) (op : Op δ) : Decidable (h.Admissible op) := by
  unfold Admissible
  split <;> infer_instance

/-! ## The contract -/

/-- **The contract of a state.** -/
structure Sound (h : Heap δ) : Prop where
  ordered : ∀ i, 1 < i → i < h.num →
    compare h.type (h.priority (h.nodes (i / 2))) (h.priority (h.nodes i)) = false
  indexed : ∀ i, 0 < i → i < h.num → h.position (h.nodes i) = i
  extremal : ∀ node ∈ h.top, ∀ other ∈ h.stored,
    compare h.type (h.priority node) (h.priority other) = false
  top_eq_none : h.top = none ↔ h.stored = []

/-- An entry: a node with its priority and its data. -/
def entry (h : Heap δ) (node : Ptr) : Ptr × ℕ × δ := (node, h.priority node, h.data node)

/-- The entries, in the order of the array. -/
def entries (h : Heap δ) : List (Ptr × ℕ × δ) := h.stored.map h.entry

/-- An entry after `swHeap_change_priority`. -/
def withPriority (priority : ℕ) (node : Ptr) (e : Ptr × ℕ × δ) : Ptr × ℕ × δ :=
  if e.1 = node then (e.1, priority, e.2.2) else e

/-- **The contract of an operation**, with what it returns. -/
def Changes (h : Heap δ) : Op δ → Prop
  | .push priority data mem =>
    match (h.push priority data mem).2 with
    | none => (h.push priority data mem).1.entries = h.entries
    | some node => (h.push priority data mem).1.entries.Perm ((node, priority, data) :: h.entries)
  | .pop =>
    match h.top with
    | none => h.pop.1.entries = h.entries ∧ h.pop.2 = none
    | some node =>
      h.entries.Perm (h.entry node :: h.pop.1.entries) ∧ h.pop.2 = some (h.data node)
  | .remove node => h.entries.Perm (h.entry node :: (h.remove node).entries)
  | .changePriority priority node =>
    (h.changePriority priority node).entries.Perm (h.entries.map (withPriority priority node))

/-! ## The state -/

theorem compare_eq_false_iff (type : HeapType) (a b : ℕ) :
    compare type a b = false ↔ rankOf type a ≤ rankOf type b := by
  rw [← Bool.not_eq_true, compare_iff, not_lt]

variable {h : Heap δ} (hv : h.Valid)
include hv

theorem Valid.sound : h.Sound where
  ordered := fun i hi hin => (compare_eq_false_iff _ _ _).mpr (hv.heaped.ordered i hi hin)
  indexed := hv.heaped.indexed
  extremal := fun _ htop other hother =>
    (compare_eq_false_iff _ _ _).mpr ((hv.top_spec htop).2.2.2 other hother)
  top_eq_none := by
    refine ⟨stored_eq_nil_of_top_eq_none, fun hnil => ?_⟩
    cases htop : h.top with
    | none => rfl
    | some node =>
      have hmem := (hv.top_spec htop).1
      rw [hnil] at hmem
      exact absurd hmem not_mem_nil

theorem Valid.nodup_stored : h.stored.Nodup := by
  refine List.Nodup.map_on (fun i hi j hj heq => ?_) nodup_range
  rw [mem_range] at hi hj
  have hpos := hv.heaped.indexed (i + 1) (by omega) (by omega)
  rw [heq, hv.heaped.indexed (j + 1) (by omega) (by omega)] at hpos
  omega

/-! ## The operations -/

variable {node : Ptr} {h' : Heap δ}

theorem Valid.entries_insert (hv' : h'.Valid) (hnode : node ∉ h.stored)
    (hmem : ∀ q, q ∈ h'.stored ↔ q = node ∨ q ∈ h.stored)
    (hsame : ∀ q ∈ h.stored, h'.entry q = h.entry q) :
    h'.entries.Perm (h'.entry node :: h.entries) := by
  have hperm : h'.stored.Perm (node :: h.stored) := by
    refine (perm_ext_iff_of_nodup hv'.nodup_stored
      (nodup_cons.mpr ⟨hnode, hv.nodup_stored⟩)).mpr fun q => ?_
    rw [hmem, mem_cons]
  have hmap : h.stored.map h'.entry = h.entries := map_congr_left hsame
  have hentries := hperm.map h'.entry
  rwa [map_cons, hmap] at hentries

theorem Valid.entries_erase (hv' : h'.Valid) (hnode : node ∈ h.stored)
    (hmem : ∀ q, q ∈ h'.stored ↔ q ∈ h.stored ∧ q ≠ node) (hsame : ∀ q, h'.entry q = h.entry q) :
    h.entries.Perm (h.entry node :: h'.entries) := by
  -- seen from the heap that is left, the node comes in
  have hout : node ∉ h'.stored := fun hin => ((hmem node).mp hin).2 rfl
  have hperm := hv'.entries_insert hv hout (fun q => ?_) (fun q _ => (hsame q).symm)
  · exact hperm
  · rw [hmem q]
    by_cases hq : q = node
    · simp [hq, hnode]
    · simp [hq]

variable {priority : ℕ}

theorem Valid.push {data : δ} {mem : PushMemory} (hadm : h.Admissible (.push priority data mem)) :
    (h.push priority data mem).1.Valid ∧ h.Changes (.push priority data mem) := by
  rcases h.push_cases priority data mem with ⟨size, hpush⟩ | ⟨size, node, hnode, hpush⟩
  · simp only [Changes, hpush]
    exact ⟨hv.of_size size, rfl⟩
  · have hfresh : node ∉ h.stored := hadm node hnode
    obtain ⟨hvalid, hmem⟩ := pushNode_valid (hv.of_size size) priority data hfresh
    have hperm := (hv.of_size size).entries_insert hvalid hfresh hmem fun q hq => ?_
    · simp only [Changes, hpush]
      refine ⟨hvalid, ?_⟩
      have hentry : (({ h with size := size } : Heap δ).pushNode priority data node).entry node =
          (node, priority, data) := by
        simp [entry]
      rw [hentry] at hperm
      exact hperm
    · have hne : q ≠ node := fun heq => hfresh (heq ▸ hq)
      simp [entry, hne]

theorem Valid.pop : h.pop.1.Valid ∧ h.Changes .pop := by
  cases htop : h.top with
  | none =>
    have hnum : h.num = 1 := by
      unfold top at htop
      split_ifs at htop with hone
      exact hone
    have hpop : h.pop = (h, none) := by
      rw [Heap.pop, if_pos hnum]
    simp only [Changes, htop, hpop]
    exact ⟨hv, trivial, trivial⟩
  | some node =>
    obtain ⟨hnode, hone, hnum, -⟩ := hv.top_spec htop
    obtain ⟨hvalid, hmem⟩ := pop_valid hv htop
    have hdata : h.pop.2 = some (h.data node) := by
      rw [Heap.pop, if_neg (by omega), hone]
    simp only [Changes, htop]
    exact ⟨hvalid, hv.entries_erase hvalid hnode hmem fun q => by simp [entry], hdata⟩

theorem Valid.remove (hnode : node ∈ h.stored) :
    (h.remove node).Valid ∧ h.Changes (.remove node) := by
  obtain ⟨hvalid, hmem⟩ := remove_valid hv hnode
  exact ⟨hvalid, hv.entries_erase hvalid hnode hmem fun q => by simp [entry]⟩

theorem Valid.changePriority (hnode : node ∈ h.stored) :
    (h.changePriority priority node).Valid ∧ h.Changes (.changePriority priority node) := by
  obtain ⟨hvalid, hmem⟩ := changePriority_valid hv priority hnode
  refine ⟨hvalid, ?_⟩
  have hperm : (h.changePriority priority node).stored.Perm h.stored :=
    (perm_ext_iff_of_nodup hvalid.nodup_stored hv.nodup_stored).mpr hmem
  have hentry : (h.changePriority priority node).entry = withPriority priority node ∘ h.entry := by
    funext q
    by_cases hq : q = node
    all_goals simp [entry, withPriority, hq]
  show ((h.changePriority priority node).stored.map _).Perm ((h.stored.map h.entry).map _)
  rw [map_map, ← hentry]
  exact hperm.map _

/-- **One operation.** -/
theorem Valid.step {op : Op δ} (hadm : h.Admissible op) : (h.step op).Valid ∧ h.Changes op := by
  cases op with
  | push priority data mem => exact hv.push hadm
  | pop => exact hv.pop
  | remove node => exact hv.remove hadm
  | changePriority priority node => exact hv.changePriority hadm

omit hv

end Swoole.Heap
