import Mathlib.Data.Fintype.BigOperators
import Swoole.Core.HashMapRefine

/-!
# Hash maps with too many entries

The counters of a table are `unsigned`.  Here is a run that adds `2 ^ 32` entries: whatever becomes
of the table on the way, its `num_items` is smaller than that.
-/

namespace Swoole.HashMap

open StepRun List Finset
open Joint (init step)

/-! ## Keys -/

/-- A key of twelve bytes, none of which is NUL. -/
def twelveBytes (f : Fin 12 → Fin 255) : Bytes := ofFn fun i => UInt8.ofNat (f i + 1)

theorem twelveBytes_injective : Function.Injective twelveBytes := by
  intro f g heq
  funext i
  have hbyte := congrArg UInt8.toNat (congrFun (ofFn_injective heq) i)
  rw [UInt8.toNat_ofNat', UInt8.toNat_ofNat'] at hbyte
  refine Fin.ext ?_
  omega

theorem zero_notMem_twelveBytes (f : Fin 12 → Fin 255) : 0 ∉ twelveBytes f := by
  intro hmem
  obtain ⟨i, hi⟩ := mem_ofFn.mp hmem
  have hbyte := congrArg UInt8.toNat hi
  rw [UInt8.toNat_ofNat', UInt8.toNat_zero] at hbyte
  omega

/-- There are `n` keys. -/
theorem exists_keys {n : ℕ} (hn : n ≤ 255 ^ 12) :
    ∃ keys : List Bytes, keys.length = n ∧ keys.Nodup ∧ ∀ key ∈ keys, 0 ∉ key := by
  have hcard : (Finset.univ : Finset (Fin 12 → Fin 255)).card = 255 ^ 12 := by
    rw [card_univ, Fintype.card_fun, Fintype.card_fin, Fintype.card_fin]
  refine ⟨(Finset.univ.toList.map twelveBytes).take n, ?_, ?_, fun key hkey => ?_⟩
  · rw [length_take, length_map, length_toList, hcard]
    exact min_eq_left hn
  · exact (Finset.univ.nodup_toList.map twelveBytes_injective).sublist (take_sublist ..)
  · obtain ⟨f, -, rfl⟩ := mem_map.mp (mem_of_mem_take hkey)
    exact zero_notMem_twelveBytes f

/-! ## The run -/

variable {s s' : HashMap} {fuel : ℕ}

theorem numItems_expand (h : s.expand fuel = .ok s') : s'.numItems = s.numItems := by
  unfold expand at h
  split_ifs at h
  generalize moveChains .. = moved at h
  cases moved with
  | error e => cases h
  | ok g =>
    cases h
    rfl

theorem numItems_nodeAdd_lt {x : ℕ} (h : s.nodeAdd fuel x = .ok s') : s'.numItems < 2 ^ 32 := by
  unfold nodeAdd at h
  split at h
  · cases h
  · next tail _ =>
    have hlt : (s.append tail x).numItems < 2 ^ 32 := Nat.mod_lt _ (Nat.two_pow_pos 32)
    simp only [addToBucket] at h
    split_ifs at h
    · exact (numItems_expand h).trans_lt hlt
    · exact Except.ok.inj h ▸ hlt

/-- The count of the table, if there is one, fits 32 bits. -/
def Joint.Counted (j : Joint) : Prop := ∀ s, j.map = .ok s → s.numItems < 2 ^ 32

theorem Joint.counted_add (j : Joint) (x : ℕ) (key : Bytes) (data : ℕ) :
    (j.step fuel (.add (some x) key data)).Counted := by
  intro s' hmap
  cases hj : j.map with
  | error e => simp [step, hj, Except.bind] at hmap
  | ok s =>
    simp only [step, hj, Except.bind, call, add] at hmap
    cases hadd : ((s.setKey x key).setData x data).nodeAdd fuel x with
    | error e => simp [hadd, Except.map] at hmap
    | ok s'' =>
      simp only [hadd, Except.map, Except.ok.injEq] at hmap
      exact hmap ▸ numItems_nodeAdd_lt hadd

/-- The calls that add the keys, to nodes behind the first `n` ones. -/
def addAll : ℕ → List Bytes → List Op
  | _, [] => []
  | n, key :: keys => .add (some (n + 1)) key 1 :: addAll (n + 1) keys

/-- **The run**: all calls are admissible, and the finite map has an entry for each. -/
theorem run_addAll {keys : List Bytes} : ∀ {j : Joint}, j.Counted →
    j.rows.map Row.node = range' 1 j.rows.length → (j.rows.map Row.key ++ keys).Nodup →
    (∀ key ∈ keys, 0 ∉ key) →
      EachStep (step fuel) (Admissible 0) j (addAll j.rows.length keys) ∧
        (run (step fuel) j (addAll j.rows.length keys)).Counted ∧
        (run (step fuel) j (addAll j.rows.length keys)).rows.length =
          j.rows.length + keys.length := by
  induction keys with
  | nil => exact fun hcounted _ _ _ => ⟨trivial, hcounted, rfl⟩
  | cons key keys ih =>
    intro j _ hnodes hnodup hclean
    have habsent : key ∉ j.rows.map Row.key := fun hin =>
      (nodup_append.mp hnodup).2.2 key hin key mem_cons_self rfl
    have hfree : j.rows.length + 1 ∉ j.rows.map Row.node := by
      rw [hnodes, mem_range'_1]
      omega
    have hrows : (j.step fuel (.add (some (j.rows.length + 1)) key 1)).rows =
        j.rows ++ [⟨j.rows.length + 1, key, 1⟩] := rfl
    have hnodes' : (j.rows ++ [(⟨j.rows.length + 1, key, 1⟩ : Row)]).map Row.node =
        range' 1 (j.rows.length + 1) := by
      rw [map_append, hnodes, range'_1_concat, add_comm 1]
      rfl
    have hnodup' :
        ((j.rows ++ [(⟨j.rows.length + 1, key, 1⟩ : Row)]).map Row.key ++ keys).Nodup := by
      rwa [map_append, append_assoc]
    obtain ⟨heach, hcounted, hlen⟩ := ih (@j.counted_add fuel (j.rows.length + 1) key 1)
      (by rw [hrows, length_append, length_singleton]; exact hnodes') hnodup'
      (fun key' hkey' => hclean key' (mem_cons_of_mem key hkey'))
    rw [hrows, length_append, length_singleton] at heach hcounted hlen
    refine ⟨⟨⟨⟨hclean key mem_cons_self, habsent⟩, Nat.succ_ne_zero _, hfree⟩, heach⟩, hcounted, ?_⟩
    refine hlen.trans ?_
    rw [length_cons]
    omega

/-- No table counts `2 ^ 32` entries. -/
theorem not_correct_crowded : ∃ ops : List Op, ∀ fuel, ops.length < fuel →
    EachStep (step fuel) (Admissible 0) (.init 0) ops ∧
      ¬ (StepRun.run (step fuel) (.init 0) ops).Correct fuel := by
  obtain ⟨keys, hlen, hnodup, hclean⟩ := exists_keys (n := 2 ^ 32) (by decide)
  refine ⟨addAll 0 keys, fun fuel _ => ?_⟩
  have hinit : (init 0).Counted := by
    rintro s ⟨⟩
    exact Nat.two_pow_pos 32
  obtain ⟨heach, hcounted, hrows⟩ := @run_addAll fuel keys _ hinit rfl hnodup hclean
  refine ⟨heach, ?_⟩
  rintro ⟨s, hmap, hitems, -⟩
  have hlt := hcounted s hmap
  rw [hitems] at hlt
  change (run (step fuel) (.init 0) (addAll 0 keys)).rows.length = 0 + keys.length at hrows
  omega

end Swoole.HashMap
