import Swoole.Library.LittleEndian
import Swoole.Library.Span

/-!
# A memory of bytes

A memory gives every address its byte.  `store` overwrites a span, `load` reads one, and
`loadNat` and `storeNat` do so with little-endian numbers.  A load does not see a store to a span
that is apart from its own.
-/

/-- The bytes, by address. -/
def ByteMemory := ℕ → UInt8

namespace ByteMemory

open List LittleEndian

/-- The `n` bytes from address `a` on. -/
def load (m : ByteMemory) (a n : ℕ) : List UInt8 := (range n).map fun i => m (a + i)

/-- The memory with `bytes` from address `a` on. -/
def store (m : ByteMemory) (a : ℕ) (bytes : List UInt8) : ByteMemory := fun x =>
  if a ≤ x then bytes[x - a]?.getD (m x) else m x

/-- The number in the `n` bytes from address `a` on. -/
def loadNat (m : ByteMemory) (a n : ℕ) : ℕ := LittleEndian.value (m.load a n)

/-- The memory with the `n` low bytes of `x` from address `a` on. -/
def storeNat (m : ByteMemory) (a n x : ℕ) : ByteMemory := m.store a (LittleEndian.bytes n x)

variable {m m' : ByteMemory} {a b n k x : ℕ} {bytes : List UInt8}

@[simp] theorem length_load : (m.load a n).length = n := by
  simp [load]

theorem load_eq_iff : m.load a n = m'.load a n ↔ ∀ x, a ≤ x → x < a + n → m x = m' x := by
  simp only [load, map_inj_left, mem_range]
  refine ⟨fun h x hle hlt => ?_, fun h i hi => h _ (by omega) (by omega)⟩
  obtain ⟨i, rfl⟩ := Nat.exists_eq_add_of_le hle
  exact h i (by omega)

theorem load_within (h : m.load a n = m'.load a n) (hspan : Span.Within ⟨b, k⟩ ⟨a, n⟩) :
    m.load b k = m'.load b k := by
  simp only [Span.Within, Span.stop] at hspan
  exact load_eq_iff.mpr fun x hle hlt => load_eq_iff.mp h x (by omega) (by omega)

theorem store_of_outside (h : x < a ∨ a + bytes.length ≤ x) : m.store a bytes x = m x := by
  unfold store
  split_ifs with hle
  · rw [getElem?_eq_none (by omega), Option.getD_none]
  · rfl

theorem load_store_self : (m.store a bytes).load a bytes.length = bytes := by
  refine ext_getElem (by simp) fun i hi hi' => ?_
  simp [load, store, hi']

theorem load_succ : m.load a (n + 1) = m a :: m.load (a + 1) n := by
  simp [load, range_succ_eq_map, add_assoc, add_comm 1]

theorem store_store_append {more : List UInt8} :
    (m.store a bytes).store (a + bytes.length) more = m.store a (bytes ++ more) := by
  funext x
  unfold store
  by_cases hle : a + bytes.length ≤ x
  · rw [if_pos hle, if_pos (by omega), if_pos (by omega), getElem?_append_right (by omega),
      getElem?_eq_none (l := bytes) (by omega), Option.getD_none, Nat.sub_add_eq]
  · rw [if_neg hle]
    split_ifs with hx
    · rw [getElem?_append_left (by omega)]
    · rfl

theorem store_concat_apply {u : UInt8} : m.store a (bytes ++ [u]) (a + bytes.length) = u := by
  simp [store]

theorem store_concat_store {u v : UInt8} :
    (m.store a (bytes ++ [u])).store (a + bytes.length) [v] = m.store a (bytes ++ [v]) := by
  funext x
  unfold store
  split_ifs <;> grind

theorem load_store_apart (h : Span.Apart ⟨a, bytes.length⟩ ⟨b, n⟩) :
    (m.store a bytes).load b n = m.load b n := by
  refine map_congr_left fun i hi => store_of_outside ?_
  have hlt := mem_range.mp hi
  simp only [Span.Apart, Span.stop] at h
  omega

theorem loadNat_storeNat_self (h : x < 2 ^ (8 * n)) : (m.storeNat a n x).loadNat a n = x := by
  have hload := @load_store_self m a (bytes n x)
  rw [length_bytes] at hload
  rw [loadNat, storeNat, hload, value_bytes h]

theorem loadNat_store_apart (h : Span.Apart ⟨a, bytes.length⟩ ⟨b, n⟩) :
    (m.store a bytes).loadNat b n = m.loadNat b n := by
  rw [loadNat, load_store_apart h, loadNat]

theorem loadNat_storeNat_apart (h : Span.Apart ⟨a, k⟩ ⟨b, n⟩) :
    (m.storeNat a k x).loadNat b n = m.loadNat b n :=
  loadNat_store_apart (by rwa [length_bytes])

end ByteMemory
