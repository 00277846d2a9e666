import Mathlib.Data.List.Perm.Subperm
import Mathlib.Data.List.TakeWhile
import Mathlib.Data.Nat.Bitwise
import Swoole.Core.HashMap

/-!
# Hash maps are finite maps

The invariant connects the nodes in memory with the entries of the finite map: the list from the
root on has their nodes in the order of insertion, and the chain of a bucket has exactly the nodes
whose hash value belongs there.  A deletion takes a node out of both lists, wherever it stands; an
expansion leaves the list alone and spells new chains.
-/

open Function List

namespace Swoole.HashMap

open StepRun
open Row (node)
open Joint (init step)

/-- **The invariant.** -/
structure Represents (s : HashMap) (root : ℕ) (rows : List Row) : Prop where
  list : s.list.Linked (root :: rows.map node)
  chains : ∃ lists, s.chains.Spells lists ∧ ∀ b x,
    x ∈ lists b ↔ x ∈ rows.map node ∧ bucketOf (s.hashv x) s.numBuckets = b
  cell : ∀ r ∈ rows, s.keyStr r.node = r.key ∧ s.keyInt r.node = r.key.length ∧
    s.data r.node = r.data ∧ s.hashv r.node = hashOf r.key
  keys : (rows.map Row.key).Nodup
  clean : ∀ r ∈ rows, 0 ∉ r.key
  items : s.numItems = rows.length % 2 ^ 32
  buckets : s.numBuckets = 2 ^ s.log2NumBuckets

theorem bucketOf_lt (hashv : ℕ) {numBuckets : ℕ} (h : 0 < numBuckets) :
    bucketOf hashv numBuckets < numBuckets := by
  have hle : hashv &&& (numBuckets - 1) ≤ numBuckets - 1 := Nat.and_le_right
  unfold bucketOf
  omega

variable {s : HashMap} {root fuel : ℕ} {rows : List Row} {key : Bytes} {r : Row} {xs : List ℕ}

/-! ## Finding -/

/-- The test that the loop makes. -/
def Matches (s : HashMap) (key : Bytes) (out : ℕ) : Prop :=
  s.keyInt out = key.length ∧ (s.keyStr out).take key.length = key
  deriving Decidable

theorem findInBucket_eq {p : Option ℕ} (h : Chains.Runs s.chains.next p xs)
    (hfuel : xs.length ≤ fuel) (key : Bytes) :
    s.findInBucket key fuel p = .ok (xs.find? fun out => decide (s.Matches key out)) := by
  induction xs generalizing p fuel with
  | nil =>
    obtain rfl : p = none := h
    cases fuel <;> rfl
  | cons x xs ih =>
    obtain ⟨rfl, hrest⟩ := h
    obtain ⟨fuel, rfl⟩ : ∃ n, fuel = n + 1 := ⟨fuel - 1, by simp at hfuel; omega⟩
    by_cases hx : s.Matches key x
    · rw [find?_cons_of_pos (by simpa using hx)]
      exact if_pos hx
    · rw [find?_cons_of_neg (by simpa using hx)]
      exact (if_neg hx).trans (ih hrest (Nat.le_of_succ_le_succ hfuel))

theorem Represents.length_chain_le {lists : ℕ → List ℕ} (hspells : s.chains.Spells lists)
    (hmem : ∀ b x, x ∈ lists b ↔ x ∈ rows.map node ∧ bucketOf (s.hashv x) s.numBuckets = b)
    (b : ℕ) : (lists b).length ≤ rows.length := by
  have hsub : lists b ⊆ rows.map node := fun x hx => ((hmem b x).mp hx).1
  simpa using (subperm_of_subset (hspells.nodup b) hsub).length_le

theorem filter_of_absent (hrow : (rows.find? fun r => r.key = key) = none) :
    (rows.filter fun r => r.key ≠ key) = rows := by
  refine filter_eq_self.mpr fun r hr => ?_
  simpa using find?_eq_none.mp hrow r hr

theorem split_at_key (hkeys : (rows.map Row.key).Nodup)
    (hrow : (rows.find? fun r => r.key = key) = some r) :
    r.key = key ∧ ∃ front back, rows = front ++ r :: back ∧
      (rows.filter fun r => r.key ≠ key) = front ++ back := by
  obtain ⟨hkey, front, back, rfl, -⟩ := find?_eq_some_iff_append.mp hrow
  have hkey : r.key = key := by simpa using hkey
  rw [map_append, map_cons] at hkeys
  obtain ⟨-, hback, hfront⟩ := nodup_append.mp hkeys
  refine ⟨hkey, front, back, rfl, ?_⟩
  rw [filter_append, filter_cons_of_neg (by simpa using hkey)]
  congr 1
  · refine filter_eq_self.mpr fun r' hr' => ?_
    have hne := hfront _ (mem_map_of_mem hr') _ mem_cons_self
    simpa [← hkey] using hne
  · refine filter_eq_self.mpr fun r' hr' => ?_
    have hne : r'.key ≠ r.key := fun heq =>
      (nodup_cons.mp hback).1 (heq ▸ mem_map_of_mem hr')
    simpa [← hkey] using hne

variable (h : s.Represents root rows)
include h

theorem Represents.nodes_nodup : (rows.map node).Nodup :=
  (nodup_cons.mp h.list.nodup).2

theorem Represents.numBuckets_pos : 0 < s.numBuckets := by
  rw [h.buckets]
  exact Nat.two_pow_pos _

theorem Represents.row_ext {r' : Row} (hr : r ∈ rows) (hr' : r' ∈ rows)
    (hnode : r.node = r'.node) : r = r' :=
  inj_on_of_nodup_map h.nodes_nodup hr hr' hnode

theorem Represents.matches_iff (hr : r ∈ rows) (key : Bytes) :
    s.Matches key r.node ↔ r.key = key := by
  obtain ⟨hstr, hint, -, -⟩ := h.cell r hr
  unfold Matches
  rw [hstr, hint]
  constructor
  · rintro ⟨hlen, htake⟩
    rwa [take_of_length_le (le_of_eq hlen)] at htake
  · rintro rfl
    exact ⟨rfl, take_length⟩

/-- **`swHashMap_node_find`** finds the node of the row. -/
theorem Represents.nodeFind_eq (hfuel : rows.length ≤ fuel)
    (key : Bytes) : s.nodeFind fuel key = .ok ((rows.find? fun r => r.key = key).map node) := by
  obtain ⟨lists, hspells, hmem⟩ := h.chains
  rw [nodeFind, findInBucket_eq (hspells.runs _)
    ((Represents.length_chain_le hspells hmem _).trans hfuel)]
  congr 1
  cases hrow : rows.find? fun r => r.key = key with
  | none =>
    rw [Option.map_none, find?_eq_none]
    intro x hx hmatch
    obtain ⟨hnode, -⟩ := (hmem _ x).mp hx
    obtain ⟨r, hr, rfl⟩ := mem_map.mp hnode
    have hkey := (h.matches_iff hr key).mp (of_decide_eq_true hmatch)
    exact find?_eq_none.mp hrow r hr (decide_eq_true hkey)
  | some r =>
    have hr := mem_of_find?_eq_some hrow
    have hkey : r.key = key := by simpa using find?_some hrow
    have hin : r.node ∈ lists (bucketOf (hashOf key) s.numBuckets) := by
      refine (hmem _ _).mpr ⟨mem_map_of_mem hr, ?_⟩
      rw [(h.cell r hr).2.2.2, hkey]
    cases hfound : (lists (bucketOf (hashOf key) s.numBuckets)).find? fun out =>
        decide (s.Matches key out) with
    | none =>
      refine absurd ((h.matches_iff hr key).mpr hkey) fun hmatch => ?_
      exact find?_eq_none.mp hfound _ hin (decide_eq_true hmatch)
    | some x =>
      obtain ⟨hnode, -⟩ := (hmem _ x).mp (mem_of_find?_eq_some hfound)
      obtain ⟨r', hr', rfl⟩ := mem_map.mp hnode
      have hmatch : s.Matches key r'.node := by simpa using find?_some hfound
      have hkey' := (h.matches_iff hr' key).mp hmatch
      rw [inj_on_of_nodup_map h.keys hr' hr (hkey'.trans hkey.symm)]
      rfl

theorem Represents.find_eq (hfuel : rows.length ≤ fuel) (key : Bytes) :
    s.find fuel key = .ok (((rows.find? fun r => r.key = key).map Row.data).getD 0) := by
  rw [find, h.nodeFind_eq hfuel]
  cases hrow : rows.find? fun r => r.key = key with
  | none => rfl
  | some r =>
    have hdata := (h.cell r (mem_of_find?_eq_some hrow)).2.2.1
    exact congrArg Except.ok hdata

/-! ## Deleting -/

omit h

variable {x : ℕ}

theorem unlink_eq {ys : List ℕ} (h : s.list.Linked (xs ++ x :: ys)) (hxs : xs ≠ []) :
    s.list.unlink x = some (s.unlink x) := by
  obtain ⟨front, p, rfl⟩ := (eq_nil_or_concat' xs).resolve_left hxs
  obtain ⟨-, hpre, hnext, -⟩ := Links.segment_append.mp h.segment
  have hp : s.list.pre x = some p := by simpa using hpre
  have hapart := (nodup_append.mp h.nodup).2.1
  unfold Links.unlink unlink
  cases ys with
  | nil =>
    have hn : s.list.next x = none := hnext
    have htail : s.list.tail = some x := by rw [h.tail_eq, getLast?_concat]
    simp only [hp, hn, htail, if_true, Option.map_some]
  | cons n ys =>
    have hn : s.list.next x = some n := hnext
    have htail : ¬ s.list.tail = some x := by
      rw [h.tail_eq, getLast?_append_cons, getLast?_cons_cons]
      exact fun hlast => (nodup_cons.mp hapart).1 (mem_of_getLast? hlast)
    simp only [hp, hn, if_neg htail, Option.map_some]

/-- **`swHashMap_node_delete`** takes the node out of both lists. -/
theorem Represents.nodeDelete {front back : List Row} (h : s.Represents root (front ++ r :: back)) :
    ∃ s', s.nodeDelete r.node = .ok s' ∧ s'.Represents root (front ++ back) ∧
      s'.numBuckets = s.numBuckets ∧ s'.data = s.data := by
  have hlist : s.list.Linked ((root :: front.map node) ++ r.node :: back.map node) := by
    have hlinked := h.list
    rwa [map_append, map_cons, ← cons_append] at hlinked
  obtain ⟨l', hunlink, hlinked⟩ := hlist.unlink (cons_ne_nil _ _)
  rw [unlink_eq hlist (cons_ne_nil _ _)] at hunlink
  obtain rfl := Option.some.inj hunlink
  -- the list has a root, so the node is not taken for a free one
  have hpre : s.list.pre r.node ≠ none := by
    obtain ⟨-, hpre, -⟩ := Links.segment_append.mp hlist.segment
    simp [hpre]
  have hchains : s.chains.Files (fun x => bucketOf (s.hashv x) s.numBuckets)
      (front.map node ++ r.node :: back.map node) := by
    rw [← map_cons, ← map_append]
    exact h.chains
  have hnodes := h.nodes_nodup
  rw [map_append, map_cons] at hnodes
  have hsub : (front ++ back).Sublist (front ++ r :: back) :=
    List.Sublist.append_left (sublist_cons_self r back) front
  refine ⟨_, if_neg fun hboth => hpre hboth.1, ⟨?_, ?_, fun r' hr' => h.cell r' (hsub.mem hr'),
    h.keys.sublist (hsub.map _), fun r' hr' => h.clean r' (hsub.mem hr'), ?_, h.buckets⟩, rfl, rfl⟩
  · rw [map_append, ← cons_append]
    exact hlinked
  · rw [map_append]
    exact hchains.remove hnodes
  · show (s.numItems + (2 ^ 32 - 1)) % 2 ^ 32 = _
    rw [h.items]
    simp only [length_append, length_cons]
    omega

/-! ## Expanding -/

theorem Growing.moveNode_chains {g g' : Growing} {ideal b : ℕ} (h : g.moveNode ideal b x = .ok g') :
    g'.chains = g.chains.push b x := by
  simp only [Growing.moveNode] at h
  split_ifs at h <;> exact congrArg Growing.chains (Except.ok.inj h).symm

theorem Growing.exists_moveNode (g : Growing) {ideal : ℕ} (hideal : ideal ≠ 0) (b x : ℕ) :
    ∃ g', g.moveNode ideal b x = .ok g' := by
  by_cases hlt : ideal < (g.count b + 1) % 2 ^ 32
  · exact ⟨_, (if_pos hlt).trans (if_neg hideal)⟩
  · exact ⟨_, if_neg hlt⟩

section loops

variable {target : ℕ → ℕ} {ideal : ℕ} {I : Growing → List ℕ → Prop}
  (hstep : ∀ {g done x}, I g done → x ∉ done →
    ∃ g', g.moveNode ideal (target x) x = .ok g' ∧ I g' (x :: done))

include hstep

/-- **The rule of the inner loop**: what one move keeps holds when a chain has moved.  The loop
reads `hh_next` of a node before it moves, and the moves assign to no node that is still to come.
-/
theorem moveChain_rule : ∀ {fuel : ℕ} {p : Option ℕ} {g : Growing} {done : List ℕ},
    Chains.Runs g.chains.next p xs → (xs ++ done).Nodup → I g done → xs.length ≤ fuel →
      ∃ g', moveChain target ideal fuel p g = .ok g' ∧ I g' (xs.reverse ++ done) ∧
        ∀ y, y ∉ xs → g'.chains.next y = g.chains.next y := by
  induction xs with
  | nil =>
    intro fuel p g done hruns _ hI _
    obtain rfl : p = none := hruns
    exact ⟨g, by cases fuel <;> rfl, hI, fun _ _ => rfl⟩
  | cons x xs ih =>
    intro fuel p g done hruns hnodup hI hfuel
    obtain ⟨rfl, hrest⟩ := hruns
    have hmiddle : (x :: xs ++ done).Perm (xs ++ x :: done) := perm_middle.symm
    have hnodup' := hmiddle.nodup_iff.mp hnodup
    rw [cons_append, nodup_cons, mem_append, not_or] at hnodup
    obtain ⟨⟨hx, hdone⟩, -⟩ := hnodup
    obtain ⟨fuel, rfl⟩ : ∃ n, fuel = n + 1 := ⟨fuel - 1, by simp at hfuel; omega⟩
    obtain ⟨g₁, hmove, hI₁⟩ := hstep hI hdone
    have hnext : ∀ y, y ≠ x → g₁.chains.next y = g.chains.next y := by
      intro y hy
      rw [Growing.moveNode_chains hmove]
      exact update_of_ne hy ..
    obtain ⟨g', hrun, hI', hsame⟩ := ih (hrest.congr fun y hy => hnext y fun heq => hx (heq ▸ hy))
      hnodup' hI₁ (Nat.le_of_succ_le_succ hfuel)
    refine ⟨g', ?_, ?_, fun y hy => ?_⟩
    · rw [moveChain, hmove]
      exact hrun
    · rwa [reverse_cons, append_assoc]
    · obtain ⟨hne, hy⟩ := not_or.mp (fun h => hy (mem_cons.mpr h))
      exact (hsame y hy).trans (hnext y hne)

/-- **The rule of the outer loop.** -/
theorem moveChains_rule {head : ℕ → Option ℕ} {lists : ℕ → List ℕ}
    (hlists : ∀ b, (lists b).Nodup) (hdisjoint : ∀ {b b' x}, x ∈ lists b → x ∈ lists b' → b = b')
    (hfuel : ∀ b, (lists b).length ≤ fuel) {bs : List ℕ} : ∀ {g : Growing} {done : List ℕ},
      bs.Nodup → (∀ b ∈ bs, Chains.Runs g.chains.next (head b) (lists b)) → done.Nodup →
      (∀ b ∈ bs, ∀ x ∈ lists b, x ∉ done) → I g done →
      ∃ g' done', moveChains target ideal fuel head bs g = .ok g' ∧ I g' done' ∧
        ∀ x, x ∈ done' ↔ (∃ b ∈ bs, x ∈ lists b) ∨ x ∈ done := by
  induction bs with
  | nil => exact fun _ _ _ _ hI => ⟨_, _, rfl, hI, by simp⟩
  | cons b bs ih =>
    intro g done hbs hruns hdone hnot hI
    obtain ⟨hb, hbs⟩ := nodup_cons.mp hbs
    have hnodup : (lists b ++ done).Nodup := by
      refine nodup_append.mpr ⟨hlists b, hdone, fun x hx y hy heq => ?_⟩
      exact hnot b mem_cons_self x hx (heq ▸ hy)
    obtain ⟨g₁, hrun, hI₁, hsame⟩ := moveChain_rule hstep (hruns b mem_cons_self) hnodup
      hI (hfuel b)
    have hapart : ∀ b' ∈ bs, ∀ x ∈ lists b', x ∉ lists b := fun b' hb' x hx hin =>
      hb (hdisjoint hin hx ▸ hb')
    have hnodup₁ : ((lists b).reverse ++ done).Nodup :=
      (((lists b).reverse_perm.append_right done).nodup_iff).mpr hnodup
    have hnot₁ : ∀ b' ∈ bs, ∀ x ∈ lists b', x ∉ (lists b).reverse ++ done := by
      intro b' hb' x hx hin
      rcases mem_append.mp hin with hin | hin
      · exact hapart b' hb' x hx (mem_reverse.mp hin)
      · exact hnot b' (mem_cons_of_mem b hb') x hx hin
    obtain ⟨g', done', hrun', hI', hmem⟩ := ih hbs
      (fun b' hb' => (hruns b' (mem_cons_of_mem b hb')).congr fun x hx =>
        hsame x (hapart b' hb' x hx)) hnodup₁ hnot₁ hI₁
    refine ⟨g', done', ?_, hI', fun x => ?_⟩
    · rw [moveChains, hrun]
      exact hrun'
    · rw [hmem, mem_append, mem_reverse]
      simp only [mem_cons, exists_eq_or_imp]
      rw [or_left_comm, or_assoc]

end loops

/-- The nodes that have moved are in their new chains. -/
def Moved (target : ℕ → ℕ) (g : Growing) (done : List ℕ) : Prop :=
  ∃ lists, g.chains.Spells lists ∧ ∀ b x, x ∈ lists b ↔ x ∈ done ∧ target x = b

theorem Moved.moveNode {target : ℕ → ℕ} {ideal : ℕ} (hideal : ideal ≠ 0) {g : Growing}
    {done : List ℕ} (h : Moved target g done) (hx : x ∉ done) :
    ∃ g', g.moveNode ideal (target x) x = .ok g' ∧ Moved target g' (x :: done) := by
  obtain ⟨g', hmove⟩ := g.exists_moveNode hideal (target x) x
  refine ⟨g', hmove, ?_⟩
  unfold Moved
  rw [Growing.moveNode_chains hmove]
  exact Chains.Files.push h hx

include h

theorem Represents.idealChainMaxlen_ne_zero (hitems : s.numItems ≠ 0) :
    s.idealChainMaxlen ≠ 0 := by
  unfold idealChainMaxlen
  rw [h.buckets, ← pow_succ, Nat.and_two_pow_sub_one_eq_mod, Nat.shiftRight_eq_div_pow]
  split_ifs with hmod
  · exact Nat.succ_ne_zero _
  · intro hzero
    have hdiv := Nat.div_add_mod s.numItems (2 ^ (s.log2NumBuckets + 1))
    rw [not_not.mp hmod, show s.numItems / 2 ^ (s.log2NumBuckets + 1) = 0 by omega] at hdiv
    exact hitems (by omega)

/-- **`HASH_EXPAND_BUCKETS`** keeps the map. -/
theorem Represents.expand (hfuel : rows.length ≤ fuel)
    (hbuckets : s.numBuckets < 2 ^ 31) (hitems : s.numItems ≠ 0) :
    ∃ s', s.expand fuel = .ok s' ∧ s'.Represents root rows := by
  obtain ⟨lists, hspells, hmem⟩ := h.chains
  obtain ⟨g, done, hrun, hmoved, hall⟩ := @moveChains_rule fuel
    (fun x => bucketOf (s.hashv x) (s.numBuckets * 2)) s.idealChainMaxlen _
    (fun hI hx => Moved.moveNode (h.idealChainMaxlen_ne_zero hitems) hI hx) s.chains.head lists
    hspells.nodup hspells.disjoint
    (fun b => (Represents.length_chain_le hspells hmem b).trans hfuel) (range s.numBuckets)
    ⟨⟨fun _ => none, s.chains.next, s.chains.pre⟩, fun _ => 0, fun _ => 0, 0⟩ [] nodup_range
    (fun b _ => hspells.runs b) nodup_nil (fun _ _ _ _ => not_mem_nil) (Chains.files_nil ..)
  have hdone : ∀ x, x ∈ done ↔ x ∈ rows.map node := by
    intro x
    rw [hall]
    constructor
    · rintro (⟨b, -, hx⟩ | hx)
      · exact ((hmem b x).mp hx).1
      · exact absurd hx not_mem_nil
    · intro hx
      exact .inl ⟨_, mem_range.mpr (bucketOf_lt _ h.numBuckets_pos), (hmem _ x).mpr ⟨hx, rfl⟩⟩
  refine ⟨s.grown g, ?_, ⟨h.list, ?_, h.cell, h.keys, h.clean, h.items, ?_⟩⟩
  · rw [HashMap.expand, if_neg (by omega), hrun]
    rfl
  · exact Chains.Files.congr hmoved (fun x => (hdone x).symm) fun _ _ => rfl
  · show s.numBuckets * 2 = 2 ^ (s.log2NumBuckets + 1)
    rw [h.buckets, pow_succ]

/-! ## Adding -/

omit h

theorem strndup_eq (h : 0 ∉ key) : strndup key = key :=
  takeWhile_eq_self_iff.mpr fun _ hb => decide_eq_true fun heq => h (heq ▸ hb)

theorem pushBack_eq {tail : ℕ} (htail : s.list.tail = some tail) (hne : x ≠ tail) :
    s.list.pushBack x = some (s.append tail x).list := by
  have hnext : Function.update (Function.update s.list.next tail (some x)) x none =
      Function.update (Function.update s.list.next x none) tail (some x) :=
    update_comm hne.symm ..
  rw [Links.pushBack, htail]
  exact congrArg (fun next : ℕ → Option ℕ => some ({ s.list with
    next := next, pre := Function.update s.list.pre x (some tail), tail := some x } : Links ℕ))
      hnext

theorem nodeAdd_eq {tail : ℕ} (htail : s.list.tail = some tail) (fuel x : ℕ) :
    s.nodeAdd fuel x = (s.append tail x).addToBucket fuel
      (bucketOf ((s.append tail x).hashv x) s.numBuckets) x := by
  simp only [HashMap.nodeAdd, htail]
  rfl

include h

theorem Represents.write (hx : x ∉ rows.map node) (key : Bytes)
    (data : ℕ) :
    (s.setKey x key).Represents root rows ∧ (s.setData x data).Represents root rows := by
  have hne (r : Row) (hr : r ∈ rows) : r.node ≠ x := fun heq => hx (heq ▸ mem_map_of_mem hr)
  constructor <;> refine ⟨h.list, h.chains, fun r hr => ?_, h.keys, h.clean, h.items, h.buckets⟩
  all_goals obtain ⟨hstr, hint, hdata, hhash⟩ := h.cell r hr
  · exact ⟨(update_of_ne (hne r hr) ..).trans hstr, (update_of_ne (hne r hr) ..).trans hint,
      hdata, hhash⟩
  · exact ⟨hstr, hint, (update_of_ne (hne r hr) ..).trans hdata, hhash⟩

/-- A free node with a new key. -/
structure Ready (s : HashMap) (root : ℕ) (rows : List Row) (x : ℕ) (key : Bytes) : Prop where
  ne_root : x ≠ root
  free : x ∉ rows.map node
  clean : 0 ∉ key
  absent : key ∉ rows.map Row.key
  keyStr : s.keyStr x = key
  keyInt : s.keyInt x = key.length

/-- The assignments of `swHashMap_add`. -/
theorem Represents.prepare (data : ℕ) (hclean : 0 ∉ key)
    (habsent : key ∉ rows.map Row.key) (hroot : x ≠ root) (hx : x ∉ rows.map Row.node) :
    ((s.setKey x key).setData x data).Represents root rows ∧
      ((s.setKey x key).setData x data).Ready root rows x key :=
  ⟨((h.write hx key data).1.write hx key data).2, hroot, hx, hclean, habsent,
    (update_self ..).trans (strndup_eq hclean), update_self ..⟩

theorem Represents.append (hready : s.Ready root rows x key) :
    ∃ tail, s.list.tail = some tail ∧ (s.append tail x).hashv x = hashOf key ∧
      ((s.append tail x).enterBucket
        (bucketOf ((s.append tail x).hashv x) s.numBuckets) x).Represents root
          (rows ++ [⟨x, key, s.data x⟩]) := by
  have hnot : x ∉ root :: rows.map node := by
    rw [mem_cons, not_or]
    exact ⟨hready.ne_root, hready.free⟩
  obtain ⟨tail, htail⟩ : ∃ tail, s.list.tail = some tail := by
    rw [h.list.tail_eq]
    exact ⟨_, getLast?_eq_some_getLast (cons_ne_nil _ _)⟩
  have hne : x ≠ tail := fun heq =>
    hnot (heq ▸ mem_of_getLast? (h.list.tail_eq.symm.trans htail))
  obtain ⟨l', hpush, hlinked⟩ := h.list.pushBack (cons_ne_nil _ _) hnot
  rw [pushBack_eq htail hne] at hpush
  obtain rfl := Option.some.inj hpush
  have hold : ∀ y ∈ rows.map node, (s.append tail x).hashv y = s.hashv y := by
    intro y hy
    have hyx : y ≠ x := fun heq => hready.free (heq ▸ hy)
    exact update_of_ne hyx ..
  have hnew : (s.append tail x).hashv x = hashOf key := by
    refine (update_self ..).trans ?_
    rw [hready.keyStr, hready.keyInt, take_length]
  have hchains : s.chains.Files (fun y => bucketOf ((s.append tail x).hashv y) s.numBuckets)
      (rows.map node) :=
    Chains.Files.congr h.chains (fun _ => Iff.rfl) fun y hy => by rw [hold y hy]
  refine ⟨tail, htail, hnew, ?_, ?_, fun r hr => ?_, ?_, fun r hr => ?_, ?_, h.buckets⟩
  · rw [map_append, ← cons_append]
    exact hlinked
  · refine (hchains.push hready.free).congr (fun y => ?_) fun _ _ => rfl
    rw [map_append, map_singleton, mem_append, mem_singleton, mem_cons]
    exact or_comm
  · rcases mem_append.mp hr with hr | hr
    · obtain ⟨hstr, hint, hdata, hhash⟩ := h.cell r hr
      exact ⟨hstr, hint, hdata, (hold r.node (mem_map_of_mem hr)).trans hhash⟩
    · rw [mem_singleton.mp hr]
      exact ⟨hready.keyStr, hready.keyInt, rfl, hnew⟩
  · rw [map_append, map_singleton]
    exact nodup_append_comm.mp (nodup_cons.mpr ⟨hready.absent, h.keys⟩)
  · rcases mem_append.mp hr with hr | hr
    · exact h.clean r hr
    · rw [mem_singleton.mp hr]
      exact hready.clean
  · show (s.numItems + 1) % 2 ^ 32 = _
    rw [h.items, length_append, length_singleton]
    omega

/-- **`swHashMap_node_add`.** -/
theorem Represents.nodeAdd (hready : s.Ready root rows x key)
    (hfuel : rows.length < fuel) (hbuckets : s.numBuckets < 2 ^ 31)
    (hitems : s.numItems < 2 ^ 32 - 1) :
    ∃ s', s.nodeAdd fuel x = .ok s' ∧ s'.Represents root (rows ++ [⟨x, key, s.data x⟩]) := by
  obtain ⟨tail, htail, -, hrep⟩ := h.append hready
  rw [nodeAdd_eq htail]
  simp only [addToBucket]
  split_ifs
  · refine hrep.expand ?_ hbuckets ?_
    · rw [length_append]
      exact hfuel
    · show (s.numItems + 1) % 2 ^ 32 ≠ 0
      omega
  · exact ⟨_, rfl, hrep⟩

/-! ## Calls -/

theorem Represents.update (hfuel : rows.length ≤ fuel) (key : Bytes) (data : ℕ) :
    ∃ s' ok, s.update fuel key data = .ok (s', ok) ∧
      s'.Represents root (rowsAfter rows (.update key data)) := by
  unfold HashMap.update
  rw [h.nodeFind_eq hfuel]
  cases hrow : rows.find? fun r => r.key = key with
  | none =>
    have hsame : rowsAfter rows (.update key data) = rows := by
      refine (map_congr_left fun r hr => ?_).trans (map_id rows)
      exact if_neg (by simpa using find?_eq_none.mp hrow r hr)
    exact ⟨s, false, rfl, hsame.symm ▸ h⟩
  | some r =>
    have hr := mem_of_find?_eq_some hrow
    have hkey : r.key = key := by simpa using find?_some hrow
    obtain ⟨hnodes, hkeys⟩ : (rowsAfter rows (.update key data)).map node = rows.map node ∧
        (rowsAfter rows (.update key data)).map Row.key = rows.map Row.key := by
      rw [rowsAfter, map_map, map_map]
      constructor <;> refine map_congr_left fun r' _ => ?_
      all_goals by_cases hr' : r'.key = key <;> simp [hr']
    refine ⟨s.setData r.node data, true, rfl, ⟨?_, ?_, fun r' hr' => ?_, ?_, fun r' hr' => ?_, ?_,
      h.buckets⟩⟩
    · rw [hnodes]
      exact h.list
    · rw [hnodes]
      exact h.chains
    · obtain ⟨old, hold, rfl⟩ := mem_map.mp hr'
      obtain ⟨hstr, hint, hdata, hhash⟩ := h.cell old hold
      by_cases hold' : old.key = key
      · obtain rfl := inj_on_of_nodup_map h.keys hold hr (hold'.trans hkey.symm)
        rw [if_pos hold']
        exact ⟨hstr, hint, update_self .., hhash⟩
      · rw [if_neg hold']
        have hne : old.node ≠ r.node := fun heq => hold' (h.row_ext hold hr heq ▸ hkey)
        exact ⟨hstr, hint, (update_of_ne hne ..).trans hdata, hhash⟩
    · rw [hkeys]
      exact h.keys
    · obtain ⟨old, hold, rfl⟩ := mem_map.mp hr'
      by_cases hold' : old.key = key
      · rw [if_pos hold']
        exact h.clean old hold
      · rw [if_neg hold']
        exact h.clean old hold
    · rw [rowsAfter, length_map]
      exact h.items

theorem Represents.del (hfuel : rows.length ≤ fuel) (key : Bytes) :
    ∃ s' ok, s.del fuel key = .ok (s', ok) ∧ s'.Represents root (rowsAfter rows (.del key)) := by
  unfold HashMap.del
  rw [h.nodeFind_eq hfuel]
  cases hrow : rows.find? fun r => r.key = key with
  | none =>
    refine ⟨s, false, rfl, ?_⟩
    rwa [rowsAfter, filter_of_absent hrow]
  | some r =>
    obtain ⟨-, front, back, rfl, hfilter⟩ := split_at_key h.keys hrow
    obtain ⟨s', hdelete, hrep, -⟩ := h.nodeDelete
    refine ⟨s', true, ?_, ?_⟩
    · simp only [Option.map_some, Except.bind, hdelete]
      rfl
    · rwa [rowsAfter, hfilter]

theorem Represents.move {oldKey newKey : Bytes}
    (hclean : 0 ∉ newKey) (habsent : newKey ∉ rows.map Row.key) (hfuel : rows.length < fuel)
    (hbuckets : s.numBuckets < 2 ^ 31) (hlen : rows.length < 2 ^ 32) :
    ∃ s' ok, s.move fuel oldKey newKey = .ok (s', ok) ∧
      s'.Represents root (rowsAfter rows (.move oldKey newKey)) := by
  unfold HashMap.move
  rw [h.nodeFind_eq (le_of_lt hfuel)]
  cases hrow : rows.find? fun r => r.key = oldKey with
  | none =>
    refine ⟨s, false, rfl, ?_⟩
    simp only [rowsAfter, hrow]
    exact h
  | some r =>
    obtain ⟨-, front, back, rfl, hfilter⟩ := split_at_key h.keys hrow
    obtain ⟨s', hdelete, hrep, hsame, hdata⟩ := h.nodeDelete
    have hnodes := h.list.nodup
    simp only [map_append, map_cons, nodup_cons, nodup_append, mem_append,
      mem_cons, not_or] at hnodes
    obtain ⟨⟨-, hroot, -⟩, -, ⟨hback, -⟩, hfront⟩ := hnodes
    have hfree : r.node ∉ (front ++ back).map node := by
      rw [map_append, mem_append, not_or]
      exact ⟨fun hin => hfront _ hin _ (.inl rfl) rfl, hback⟩
    have hready : (s'.setKey r.node newKey).Ready root (front ++ back) r.node newKey := by
      refine ⟨Ne.symm hroot, hfree, hclean, fun hin => habsent ?_,
        (update_self ..).trans (strndup_eq hclean), update_self ..⟩
      rw [map_append, mem_append] at hin
      rw [map_append, mem_append, map_cons]
      exact hin.imp id (mem_cons_of_mem _)
    have hitems : s'.numItems < 2 ^ 32 - 1 := by
      rw [hrep.items]
      simp only [length_append, length_cons] at hlen ⊢
      omega
    have hfuel' : (front ++ back).length < fuel := by
      simp only [length_append, length_cons] at hfuel ⊢
      omega
    have hbuckets' : s'.numBuckets < 2 ^ 31 := hsame ▸ hbuckets
    obtain ⟨s'', hadd, hrep'⟩ :=
      (hrep.write hfree newKey 0).1.nodeAdd hready hfuel' hbuckets' hitems
    refine ⟨s'', true, ?_, ?_⟩
    · simp only [Option.map_some, Except.bind, hdelete, hadd]
      rfl
    · have hrow' : (s'.setKey r.node newKey).data r.node = r.data := by
        show s'.data r.node = r.data
        rw [hdata]
        exact (h.cell r (by simp)).2.2.1
      rw [hrow'] at hrep'
      simp only [rowsAfter, hrow, hfilter]
      exact hrep'

/-- **One call** keeps the invariant. -/
theorem Represents.call {op : Op} (hadm : Admissible root ⟨.ok s, rows⟩ op)
    (hfuel : rows.length < fuel) (hlen : rows.length < 2 ^ 32) (hbuckets : s.numBuckets < 2 ^ 31)
    (hitems : s.numItems < 2 ^ 32 - 1) :
    ∃ s' ok, s.call fuel op = .ok (s', ok) ∧ s'.Represents root (rowsAfter rows op) := by
  cases op with
  | add node key data =>
    cases node with
    | none => exact ⟨s, false, rfl, h⟩
    | some x =>
      obtain ⟨hset, hready⟩ := h.prepare data hadm.1.1 hadm.1.2 hadm.2.1 hadm.2.2
      obtain ⟨s', hadd, hrep⟩ := hset.nodeAdd hready hfuel hbuckets hitems
      refine ⟨s', true, ?_, ?_⟩
      · simp only [HashMap.call, HashMap.add, hadd]
        rfl
      · rwa [show ((s.setKey x key).setData x data).data x = data from
          update_self ..] at hrep
  | update key data => exact h.update (le_of_lt hfuel) key data
  | del key => exact h.del (le_of_lt hfuel) key
  | move oldKey newKey => exact h.move hadm.2.1 hadm.2.2 hfuel hbuckets hlen

/-! ## Runs -/

omit h

theorem length_rowsAfter_le (rows : List Row) (op : Op) :
    (rowsAfter rows op).length ≤ rows.length + 1 := by
  cases op with
  | add node key data =>
    cases node with
    | none => exact Nat.le_succ _
    | some x => simp [rowsAfter]
  | update key data => simp [rowsAfter]
  | del key => exact (length_filter_le ..).trans (Nat.le_succ _)
  | move oldKey newKey =>
    cases hrow : rows.find? fun r => r.key = oldKey with
    | none =>
      simp only [rowsAfter, hrow]
      exact Nat.le_succ _
    | some r =>
      simp only [rowsAfter, hrow, length_append, length_singleton]
      exact Nat.succ_le_succ (length_filter_le ..)

theorem new_represents (root : ℕ) : (new root).Represents root [] :=
  ⟨⟨nodup_cons.mpr ⟨not_mem_nil, nodup_nil⟩, rfl, rfl, rfl, rfl, trivial⟩,
    Chains.files_nil .., fun _ hr => absurd hr not_mem_nil, nodup_nil,
    fun _ hr => absurd hr not_mem_nil,
    rfl, rfl⟩

/-- The invariant of a run; the fuel is enough for the calls that are left. -/
def Joint.Inv (root fuel : ℕ) (j : Joint) : Prop :=
  ∃ s, j.map = .ok s ∧ s.Represents root j.rows ∧ j.rows.length < 2 ^ 32 ∧ j.rows.length < fuel

theorem Joint.Inv.correct {j : Joint} (h : j.Inv root fuel) : j.Correct fuel := by
  obtain ⟨s, hmap, hrep, hlen, hfuel⟩ := h
  refine ⟨s, hmap, ?_, fun key _ => hrep.find_eq (le_of_lt hfuel) key⟩
  rw [hrep.items, Nat.mod_eq_of_lt hlen]

/-- **One step** keeps the invariant. -/
theorem Joint.Inv.step {j : Joint} (h : j.Inv root fuel) {op : Op} (hadm : Admissible root j op)
    (hroomy : Roomy j op) (hfuel : j.rows.length + 1 < fuel) : (j.step fuel op).Inv root fuel := by
  obtain ⟨map, rows⟩ := j
  obtain ⟨s, rfl, hrep, hlen, hlt⟩ := h
  obtain ⟨hbuckets, hitems⟩ := hroomy
  obtain ⟨s', ok, hcall, hrep'⟩ := hrep.call hadm hlt hlen hbuckets hitems
  have hafter := length_rowsAfter_le rows op
  have hrows : rows.length < 2 ^ 32 - 1 := by
    rwa [hrep.items, Nat.mod_eq_of_lt hlen] at hitems
  refine ⟨s', ?_, hrep', ?_, lt_of_le_of_lt hafter hfuel⟩
  · show (s.call fuel op).map Prod.fst = .ok s'
    rw [hcall]
    rfl
  · show (rowsAfter rows op).length < 2 ^ 32
    omega

theorem Joint.Inv.run {ops : List Op} : ∀ {j : Joint}, j.Inv root fuel →
    j.rows.length + ops.length < fuel →
      EachStep (Joint.step fuel) (fun j op => Admissible root j op ∧ Roomy j op) j ops →
      (StepRun.run (Joint.step fuel) j ops).Inv root fuel := by
  induction ops with
  | nil => exact fun h _ _ => h
  | cons op ops ih =>
    intro j h hfuel heach
    obtain ⟨⟨hadm, hroomy⟩, heach⟩ := heach
    rw [length_cons] at hfuel
    have hafter := length_rowsAfter_le j.rows op
    refine ih (h.step hadm hroomy (by omega)) ?_ heach
    show (rowsAfter j.rows op).length + ops.length < fuel
    omega

/-- **String-keyed hash maps are finite maps**: after every sequence of calls in which the table
stays below `2 ^ 31` buckets and `2 ^ 32 - 1` entries, expansions included, lookups answer what
was stored last, or `NULL` for absent keys, and the entries are counted. -/
theorem correct_run (root : ℕ) (ops : List Op) {fuel : ℕ} (hfuel : ops.length < fuel)
    (hadm : EachStep (step fuel) (Admissible root) (.init root) ops)
    (hroomy : EachStep (step fuel) Roomy (.init root) ops) :
    (StepRun.run (step fuel) (.init root) ops).Correct fuel := by
  have hinit : (init root).Inv root fuel :=
    ⟨new root, rfl, new_represents root, Nat.two_pow_pos 32,
      Nat.lt_of_le_of_lt (Nat.zero_le _) hfuel⟩
  refine (hinit.run ?_ (hadm.and hroomy)).correct
  show 0 + ops.length < fuel
  omega

/-- Two entries, of which the first one gets a new value and the second one a new key, before the
first one goes. -/
def shortRun : List Op :=
  [.add (some 1) [97] 10, .add (some 2) [98] 20, .update [97] 11, .move [98] [99], .del [97]]

theorem correct_short_run :
    EachStep (step 6) (Admissible 0) (.init 0) shortRun ∧
      EachStep (step 6) Roomy (.init 0) shortRun ∧
      (StepRun.run (step 6) (.init 0) shortRun).Correct 6 := by
  have hadm : EachStep (step 6) (Admissible 0) (.init 0) shortRun := by decide
  have hroomy : EachStep (step 6) Roomy (.init 0) shortRun := by decide +kernel
  exact ⟨hadm, hroomy, correct_run 0 shortRun (by decide) hadm hroomy⟩

end Swoole.HashMap
