import Swoole.Core.Int
import Swoole.Library.ByteMemory
import Swoole.Library.StepRun

/-!
# `swRingBuffer`

A pool of memory in which blocks are cut one behind the other, each with a header that holds a
lock and a length.  `alloc_offset` is where the next block goes.  A free only resets the lock and
counts; the space comes back when `swRingBuffer_collect` walks over the headers from
`collect_offset` on, as far as they are unlocked and at most as many as were counted.

When a block does not fit behind the others, the rest of the pool becomes an unlocked filler
block, and the next blocks go to the start; `status` is set until the collector has passed the
filler.

The pool is a memory of bytes, by the offset from `object->memory`.  The program writes into the
blocks it holds, and `live` records which those are, with their headers.
-/

open List LittleEndian

namespace Swoole

open StepRun
open Span (stop)

/-- `sizeof(swRingBuffer_item)`. -/
def itemHeader : ℕ := 8

/-- `sizeof(swRingBuffer) + sizeof(swMemoryPool)`. -/
def ringBufferOverhead : ℕ := 64

/-- `swRingBuffer`. -/
structure RingBuffer where
  size : ℕ
  status : Bool
  allocOffset : ℕ
  collectOffset : ℕ
  allocCount : ℕ
  freeCount : ℕ
  memory : ByteMemory
  live : List Span
  aborted : Bool

namespace RingBuffer

/-- `swRingBuffer_new`, on a block of memory of `size` bytes. -/
def new (size : ℕ) (memory : ByteMemory) : RingBuffer where
  size := toUInt32 (size - ringBufferOverhead)
  status := false
  allocOffset := 0
  collectOffset := 0
  allocCount := 0
  freeCount := 0
  memory := memory
  live := []
  aborted := false

variable (r : RingBuffer)

/-- `item->lock`. -/
def lock (item : ℕ) : ℕ := r.memory.loadNat item 2

/-- `item->length`. -/
def length (item : ℕ) : ℕ := r.memory.loadNat (item + 4) 4

/-- What `swRingBuffer_collect` does with an unlocked block. -/
def collectItem : RingBuffer :=
  let nSize := toUInt32 (r.length r.collectOffset + itemHeader)
  let offset := toUInt32 (r.collectOffset + nSize)
  let freeCount := toUInt32 (r.freeCount - 1)
  if r.size < offset + itemHeader ∨ r.size ≤ offset then
    { r with collectOffset := 0, status := false, freeCount := freeCount }
  else { r with collectOffset := offset, freeCount := freeCount }

/-- The loop of `swRingBuffer_collect`. -/
def collectLoop : ℕ → RingBuffer → RingBuffer
  | 0, r => r
  | n + 1, r => if r.lock r.collectOffset = 0 then collectLoop n r.collectItem else r

/-- `swRingBuffer_collect`; its counter is an `int`. -/
def collect : RingBuffer := collectLoop (toInt32 r.freeCount).toNat r

/-- The rest of the pool is skipped. -/
def skip : RingBuffer :=
  let skipN := toUInt32 (r.size - r.allocOffset)
  let r' :=
    if itemHeader ≤ skipN then
      { r with
        memory := (r.memory.storeNat r.allocOffset 2 0).storeNat (r.allocOffset + 4) 4
          (skipN - itemHeader)
        freeCount := toUInt32 (r.freeCount + 1) }
    else r
  { r' with allocOffset := 0, status := true }

/-- The space from `alloc_offset` on. -/
def capacity : ℕ :=
  if r.status then toUInt32 (r.collectOffset - r.allocOffset)
  else toUInt32 (r.size - r.allocOffset)

/-- A block is cut at `alloc_offset`. -/
def place (size : ℕ) : RingBuffer :=
  { r with
    memory := ((r.memory.storeNat r.allocOffset 2 1).storeNat (r.allocOffset + 4) 4 size).storeNat
      (r.allocOffset + 2) 2 r.allocCount
    allocOffset := toUInt32 (r.allocOffset + toUInt32 (size + itemHeader))
    allocCount := toUInt32 (r.allocCount + 1)
    live := ⟨r.allocOffset, itemHeader + size⟩ :: r.live }

/-- The block does not fit behind the others; `object->size - sizeof(swRingBuffer_item)` is a
`size_t`. -/
def Skips (size : ℕ) : Prop :=
  r.status = false ∧
    toSizeT (r.size - itemHeader) ≤ toUInt32 (r.allocOffset + toUInt32 (size + itemHeader))
  deriving Decidable

/-- The end of `swRingBuffer_alloc`, where the block is cut. -/
def finishAlloc (size : ℕ) : RingBuffer × Option ℕ :=
  if r.capacity < toUInt32 (size + itemHeader) then (r, none)
  else (r.place size, some (r.allocOffset + itemHeader))

/-- `swRingBuffer_alloc` behind the collector. -/
def findSpace (size : ℕ) : RingBuffer × Option ℕ :=
  (if r.Skips size then r.skip else r).finishAlloc size

/-- `swRingBuffer_alloc`. -/
def alloc (size : ℕ) : RingBuffer × Option ℕ :=
  if size = 0 then ({ r with aborted := true }, none)
  else (if 0 < r.freeCount then r.collect else r).findSpace size

/-- `swRingBuffer_free`. -/
def free (ptr : ℕ) : RingBuffer :=
  let item := ptr - itemHeader
  if r.size < ptr ∨ r.lock item ≠ 1 then { r with aborted := true }
  else
    { r with
      memory := r.memory.storeNat item 2 0
      freeCount := toUInt32 (r.freeCount + 1)
      live := r.live.filter fun block => block.start ≠ item }

/-- A call of the pool, or a write of the program. -/
inductive Op where
  | alloc (size : ℕ)
  | free (ptr : ℕ)
  | write (ptr : ℕ) (bytes : List UInt8)
  deriving DecidableEq, Repr

def step (r : RingBuffer) (op : Op) : RingBuffer :=
  if r.aborted then r
  else
    match op with
    | .alloc size => (r.alloc size).1
    | .free ptr => r.free ptr
    | .write ptr bytes => { r with memory := r.memory.store ptr bytes }

/-- What the holder of a block may write to. -/
def payload (block : Span) : Span := ⟨block.start + itemHeader, block.length - itemHeader⟩

/-- Requests are for at most the size of the pool, and only blocks that are held are given back
or written to. -/
def Admissible (r : RingBuffer) : Op → Prop
  | .alloc size => size ≤ r.size
  | .free ptr => ∃ block ∈ r.live, ptr = block.start + itemHeader
  | .write ptr bytes => ∃ block ∈ r.live, (⟨ptr, bytes.length⟩ : Span).Within (payload block)

instance (r : RingBuffer) (op : Op) : Decidable (r.Admissible op) := by
  unfold Admissible
  split <;> infer_instance

/-! ## The contract -/

/-- **The contract of a state.** -/
structure Sound : Prop where
  within : ∀ block ∈ r.live, block.Within ⟨0, r.size⟩
  apart : r.live.Pairwise Span.Apart
  /-- The collector has not passed a live block: each lies between `collect_offset` and
  `alloc_offset`, where the way leads over the end of the pool if `status` is set. -/
  ahead : ∀ block ∈ r.live,
    if r.status then r.collectOffset ≤ block.start ∨
      block.stop ≤ r.allocOffset ∧ r.allocOffset ≤ r.collectOffset
    else r.collectOffset ≤ block.start ∧ block.stop ≤ r.allocOffset

/-- The pointer that a request returns points behind the header of the one block that became
live; a request that returns none leaves the live blocks as they are. -/
def Returns (live : List Span) (size : ℕ) (answer : RingBuffer × Option ℕ) : Prop :=
  match answer.2 with
  | none => answer.1.live = live
  | some ptr =>
    itemHeader ≤ ptr ∧ answer.1.live = ⟨ptr - itemHeader, size + itemHeader⟩ :: live

/-- **The contract of a call**: no assertion fails but the one on a request of size zero, and a
request returns the block it cuts. -/
def Passes (r : RingBuffer) (op : Op) : Prop :=
  (op ≠ .alloc 0 → (r.step op).aborted = r.aborted) ∧
    ∀ size, op = .alloc size → Returns r.live size (r.alloc size)

end RingBuffer

/-! ## The queue of blocks -/

/-- A block between the two offsets, with its header; the filler is an unlocked one. -/
structure RingItem where
  start : ℕ
  length : ℕ
  locked : Bool

namespace RingItem

variable {x : RingItem} {m : ByteMemory} {a n k : ℕ} {bytes : List UInt8}

def span (x : RingItem) : Span := ⟨x.start, itemHeader + x.length⟩

/-- The header of the block is in the memory. -/
structure Held (x : RingItem) (m : ByteMemory) : Prop where
  lock : m.loadNat x.start 2 = x.locked.toNat
  length : m.loadNat (x.start + 4) 4 = x.length

theorem Held.store (h : x.Held m) (hlock : Span.Apart ⟨a, bytes.length⟩ ⟨x.start, 2⟩)
    (hlen : Span.Apart ⟨a, bytes.length⟩ ⟨x.start + 4, 4⟩) : x.Held (m.store a bytes) :=
  ⟨(ByteMemory.loadNat_store_apart hlock).trans h.lock,
    (ByteMemory.loadNat_store_apart hlen).trans h.length⟩

theorem Held.store_apart (h : x.Held m)
    (hapart : Span.Apart ⟨a, bytes.length⟩ ⟨x.start, itemHeader⟩) : x.Held (m.store a bytes) := by
  simp only [Span.Apart, stop, itemHeader] at hapart
  refine h.store ?_ ?_
  all_goals
    simp only [Span.Apart, stop]
    omega

theorem Held.storeNat_apart (h : x.Held m) (hapart : Span.Apart ⟨a, k⟩ ⟨x.start, itemHeader⟩) :
    x.Held (m.storeNat a k n) :=
  h.store_apart (by rwa [length_bytes])

theorem held_storeNat (a : ℕ) {n : ℕ} (hn : n < 2 ^ 32) (locked : Bool) :
    (⟨a, n, locked⟩ : RingItem).Held ((m.storeNat a 2 locked.toNat).storeNat (a + 4) 4 n) := by
  refine ⟨?_, ByteMemory.loadNat_storeNat_self hn⟩
  rw [ByteMemory.loadNat_storeNat_apart (.inr (by simp only [stop]; omega))]
  exact ByteMemory.loadNat_storeNat_self (by cases locked <;> decide)

end RingItem

namespace RingBuffer

variable {r : RingBuffer} {spans : List Span} {items : List RingItem} {x : RingItem} {size : ℕ}

/-- Where the blocks of the queue lie. -/
inductive Layout (r : RingBuffer) (spans : List Span) : Prop
  | straight (hstatus : r.status = false)
      (htiles : Span.Tiles r.collectOffset spans r.allocOffset)
      (hroom : r.allocOffset = 0 ∨ r.allocOffset + itemHeader ≤ r.size)
  | wrapped (old new : List Span) (hspans : spans = old ++ new) (hstatus : r.status = true)
      (hne : old ≠ []) (hold : Span.Tiles r.collectOffset old r.size)
      (hnew : Span.Tiles 0 new r.allocOffset) (hle : r.allocOffset ≤ r.collectOffset)

/-- **The blocks of the queue**, from `collect_offset` on: what is counted as free are those that
are not locked, and the live blocks are the others. -/
structure Queue (r : RingBuffer) (items : List RingItem) : Prop where
  bound : r.size + ringBufferOverhead < 2 ^ 32
  layout : r.Layout (items.map RingItem.span)
  held : ∀ x ∈ items, x.Held r.memory
  freeCount : r.freeCount = items.countP fun x => !x.locked
  live : ∀ block, block ∈ r.live ↔ ∃ x ∈ items, x.locked = true ∧ x.span = block
  apart : r.live.Pairwise Span.Apart

theorem Layout.congr {r' : RingBuffer} (h : r.Layout spans) (hsize : r'.size = r.size)
    (hstatus : r'.status = r.status) (halloc : r'.allocOffset = r.allocOffset)
    (hcollect : r'.collectOffset = r.collectOffset) : r'.Layout spans := by
  cases h with
  | straight hstatus' htiles hroom =>
    refine .straight (hstatus.trans hstatus') ?_ ?_
    · rwa [halloc, hcollect]
    · rwa [halloc, hsize]
  | wrapped old new hspans hstatus' hne hold hnew hle =>
    refine .wrapped old new hspans (hstatus.trans hstatus') hne ?_ ?_ ?_
    · rwa [hcollect, hsize]
    · rwa [halloc]
    · rwa [halloc, hcollect]

theorem Layout.within (h : r.Layout spans) {a : Span} (ha : a ∈ spans) : a.stop ≤ r.size := by
  cases h with
  | straight _ htiles hroom =>
    have := (htiles.bounds ha).2
    omega
  | wrapped old new hspans _ _ hold hnew hle =>
    subst hspans
    rcases mem_append.mp ha with ha | ha
    · exact (hold.bounds ha).2
    · have := (hnew.bounds ha).2
      have := hold.le
      omega

theorem Layout.pairwise (h : r.Layout spans) : spans.Pairwise Span.Apart := by
  cases h with
  | straight _ htiles _ => exact htiles.pairwise
  | wrapped old new hspans _ _ hold hnew hle =>
    rw [hspans]
    exact hold.pairwise_append hnew hle

theorem Layout.mul_length_le (h : r.Layout (items.map RingItem.span)) :
    itemHeader * items.length ≤ r.size := by
  have hmin : ∀ a ∈ items.map RingItem.span, itemHeader ≤ a.length := by
    intro a ha
    obtain ⟨x, -, rfl⟩ := mem_map.mp ha
    exact Nat.le_add_right ..
  rw [← length_map RingItem.span]
  cases h with
  | straight _ htiles hroom =>
    have := htiles.mul_length_le hmin
    omega
  | wrapped old new hspans _ _ hold hnew hle =>
    rw [hspans] at hmin ⊢
    have := hold.mul_length_le fun a ha => hmin a (mem_append_left new ha)
    have := hnew.mul_length_le fun a ha => hmin a (mem_append_right old ha)
    rw [length_append, Nat.mul_add]
    omega

/-- In a pool that is not wrapped every block lies in front of `alloc_offset`. -/
theorem Layout.of_not_status (h : r.Layout spans) (hstatus : r.status = false) :
    Span.Tiles r.collectOffset spans r.allocOffset ∧
      (r.allocOffset = 0 ∨ r.allocOffset + itemHeader ≤ r.size) := by
  cases h with
  | straight _ htiles hroom => exact ⟨htiles, hroom⟩
  | wrapped _ _ _ hstatus' => exact absurd (hstatus.symm.trans hstatus') Bool.false_ne_true

theorem new_queue (hmin : ringBufferOverhead ≤ size) (hmax : size < 2 ^ 32) (memory : ByteMemory) :
    (new size memory).Queue [] := by
  have hsize : (new size memory).size = size - ringBufferOverhead := by
    simp only [new, toUInt32]
    omega
  refine ⟨?_, .straight rfl rfl (.inl rfl), nofun, rfl, ?_, .nil⟩
  · rw [hsize]
    omega
  · exact fun block => ⟨nofun, nofun⟩

theorem Queue.freeCount_lt (h : r.Queue items) : r.freeCount < 2 ^ 29 := by
  have hcount : items.countP (fun x => !x.locked) ≤ items.length := countP_le_length
  have hlen := h.layout.mul_length_le
  have hbound := h.bound
  rw [h.freeCount]
  unfold itemHeader at hlen
  omega

/-- **The contract follows** from the queue. -/
theorem Queue.sound (h : r.Queue items) : r.Sound := by
  have hmem : ∀ block ∈ r.live, block ∈ items.map RingItem.span := by
    intro block hblock
    obtain ⟨x, hx, -, rfl⟩ := (h.live block).mp hblock
    exact mem_map_of_mem hx
  refine ⟨fun block hblock => ⟨Nat.zero_le _, ?_⟩, h.apart, fun block hblock => ?_⟩
  · exact (h.layout.within (hmem block hblock)).trans (Nat.le_add_left ..)
  · cases h.layout with
    | straight hstatus htiles _ =>
      rw [hstatus]
      exact htiles.bounds (hmem block hblock)
    | wrapped old new hspans hstatus _ hold hnew hle =>
      rw [hstatus]
      rcases mem_append.mp (hspans ▸ hmem block hblock) with hin | hin
      · exact .inl (hold.bounds hin).1
      · exact .inr ⟨(hnew.bounds hin).2, hle⟩

theorem Queue.apart_of_mem {before after : List RingItem} (h : r.Queue (before ++ x :: after))
    {y : RingItem} (hy : y ∈ before ++ after) : x.span.Apart y.span := by
  have hpairwise := h.layout.pairwise
  rw [map_append, map_cons, pairwise_middle fun {_ _} => Span.Apart.symm] at hpairwise
  refine (pairwise_cons.mp hpairwise).1 y.span ?_
  rw [← map_append]
  exact mem_map_of_mem hy

/-! ## The collector -/

theorem Queue.front (h : r.Queue (x :: items)) : x.start = r.collectOffset := by
  cases h.layout with
  | straight _ htiles _ => exact htiles.1
  | wrapped old new hspans _ hne hold _ _ =>
    obtain ⟨a, old, rfl⟩ := exists_cons_of_ne_nil hne
    obtain ⟨rfl, -⟩ := cons.inj hspans
    exact hold.1

theorem Queue.collectItem_eq (h : r.Queue (x :: items)) :
    r.collectItem =
      if r.size < x.span.stop + itemHeader then
        { r with collectOffset := 0, status := false, freeCount := toUInt32 (r.freeCount - 1) }
      else
        { r with collectOffset := x.span.stop, freeCount := toUInt32 (r.freeCount - 1) } := by
  have hstop := h.layout.within (mem_cons_self ..)
  have hbound := h.bound
  have hlen : r.length r.collectOffset = x.length := by
    rw [← h.front]
    exact (h.held x mem_cons_self).length
  have hoffset : toUInt32 (r.collectOffset + toUInt32 (r.length r.collectOffset + itemHeader)) =
      x.span.stop := by
    rw [hlen, ← h.front]
    simp only [stop, RingItem.span, itemHeader, toUInt32] at hstop ⊢
    omega
  have hcond : (r.size < x.span.stop + itemHeader ∨ r.size ≤ x.span.stop) ↔
      r.size < x.span.stop + itemHeader := by
    unfold itemHeader
    omega
  simp only [RingBuffer.collectItem, hoffset, hcond]

/-- What is left lies behind the first block, or from the start of the pool on if that was the
last block in front of its end. -/
theorem Queue.layout_collectItem (h : r.Queue (x :: items)) :
    r.collectItem.Layout (items.map RingItem.span) := by
  have hspan : itemHeader ≤ x.span.length := Nat.le_add_right ..
  rw [h.collectItem_eq]
  cases h.layout with
  | straight hstatus htiles hroom =>
    have hle := htiles.2.le
    have hnot : ¬ r.size < x.span.stop + itemHeader := by
      unfold itemHeader stop at *
      omega
    rw [if_neg hnot]
    exact .straight hstatus htiles.2 hroom
  | wrapped old new hspans hstatus hne hold hnew hle =>
    obtain ⟨a, old, rfl⟩ := exists_cons_of_ne_nil hne
    obtain ⟨rfl, hrest⟩ : x.span = a ∧ items.map RingItem.span = old ++ new :=
      cons.inj hspans
    have hstart := hold.1
    cases old with
    | nil =>
      -- no block is left in front of the end, and the collector goes back to the start
      have hend : x.span.stop = r.size := hold.2
      rw [if_pos (by unfold itemHeader; omega)]
      refine .straight rfl (hrest ▸ hnew) (.inr ?_)
      simp only [stop] at hend ⊢
      omega
    | cons b old =>
      have hb : itemHeader ≤ b.length := by
        have hin : b ∈ items.map RingItem.span := by
          rw [hrest]
          exact mem_cons_self
        obtain ⟨y, -, rfl⟩ := mem_map.mp hin
        exact Nat.le_add_right ..
      have hle' := hold.2.2.le
      have hb' := hold.2.1
      -- the next block has a header of its own, so the collector does not take this for the end
      have hnot : ¬ r.size < x.span.stop + itemHeader := by
        simp only [stop] at *
        omega
      rw [if_neg hnot]
      refine .wrapped (b :: old) new hrest hstatus (cons_ne_nil b old) hold.2 hnew ?_
      simp only [stop]
      omega

/-- **An unlocked block is collected.** -/
theorem Queue.collectItem (h : r.Queue (x :: items)) (hx : x.locked = false) :
    r.collectItem.Queue items ∧ r.freeCount = r.collectItem.freeCount + 1 := by
  have hlayout := h.layout_collectItem
  have hcount : r.freeCount = items.countP (fun x => !x.locked) + 1 := by
    rw [h.freeCount, countP_cons_of_pos (by rw [hx]; rfl)]
  have hlt := h.freeCount_lt
  have hfree : toUInt32 (r.freeCount - 1) = items.countP fun x => !x.locked := by
    unfold toUInt32
    omega
  have hone : r.freeCount = toUInt32 (r.freeCount - 1) + 1 := by
    rw [hfree]
    exact hcount
  have hlive : ∀ block, block ∈ r.live ↔ ∃ y ∈ items, y.locked = true ∧ y.span = block := by
    intro block
    rw [h.live block]
    simp [hx]
  have hheld : ∀ y ∈ items, y.Held r.memory := fun y hy => h.held y (mem_cons_of_mem x hy)
  rw [h.collectItem_eq] at hlayout ⊢
  split_ifs at hlayout ⊢ <;> exact ⟨⟨h.bound, hlayout, hheld, hfree, hlive, h.apart⟩, hone⟩

theorem collectLoop_frame (n : ℕ) (r : RingBuffer) :
    (collectLoop n r).size = r.size ∧ (collectLoop n r).aborted = r.aborted ∧
      (collectLoop n r).live = r.live := by
  induction n generalizing r with
  | zero => exact ⟨rfl, rfl, rfl⟩
  | succ n ih =>
    have hitem : r.collectItem.size = r.size ∧ r.collectItem.aborted = r.aborted ∧
        r.collectItem.live = r.live := by
      simp only [RingBuffer.collectItem]
      split_ifs <;> exact ⟨rfl, rfl, rfl⟩
    obtain ⟨hsize, haborted, hlive⟩ := ih r.collectItem
    rw [RingBuffer.collectLoop]
    split_ifs
    · exact ⟨hsize.trans hitem.1, haborted.trans hitem.2.1, hlive.trans hitem.2.2⟩
    · exact ⟨rfl, rfl, rfl⟩

theorem skip_frame : r.skip.status = true ∧ r.skip.size = r.size ∧
    r.skip.aborted = r.aborted ∧ r.skip.live = r.live := by
  refine ⟨rfl, ?_⟩
  simp only [RingBuffer.skip]
  split_ifs <;> exact ⟨rfl, rfl, rfl⟩

theorem finishAlloc_returns (size : ℕ) : Returns r.live size (r.finishAlloc size) := by
  unfold RingBuffer.finishAlloc
  split_ifs
  · rfl
  · refine ⟨Nat.le_add_left .., ?_⟩
    rw [Nat.add_sub_cancel, add_comm size]
    rfl

/-- **What a request returns is the block it cuts.** -/
theorem alloc_returns (size : ℕ) : Returns r.live size (r.alloc size) := by
  have hspace : ∀ r : RingBuffer, Returns r.live size (r.findSpace size) := by
    intro r
    unfold RingBuffer.findSpace
    split_ifs
    · exact (@skip_frame r).2.2.2 ▸ finishAlloc_returns size
    · exact finishAlloc_returns size
  unfold RingBuffer.alloc
  split_ifs
  · rfl
  · have hlive : r.collect.live = r.live := (collectLoop_frame _ r).2.2
    exact hlive ▸ hspace r.collect
  · exact hspace r

theorem finishAlloc_aborted (size : ℕ) : (r.finishAlloc size).1.aborted = r.aborted := by
  unfold RingBuffer.finishAlloc
  split_ifs <;> rfl

/-- A block is only skipped to in a pool that has room for the header of the filler. -/
theorem Skips.itemHeader_le (h : r.Skips size) : itemHeader ≤ r.size := by
  have hle := h.2
  generalize toUInt32 (size + itemHeader) = request at hle
  unfold toSizeT toUInt32 at hle
  unfold itemHeader at *
  omega

variable (h : r.Queue items)
include h

/-- **The collector** takes blocks away from the front of the queue. -/
theorem Queue.collectLoop {n : ℕ} (hn : n ≤ r.freeCount) :
    ∃ items', (collectLoop n r).Queue items' := by
  induction n generalizing r items with
  | zero => exact ⟨items, h⟩
  | succ n ih =>
    rw [RingBuffer.collectLoop]
    cases items with
    | nil =>
      -- `free_count` counts blocks of the queue, so an empty one ends the loop
      have := h.freeCount
      rw [countP_nil] at this
      omega
    | cons x items =>
      split_ifs with hlock
      · have hx : x.locked = false := by
          rw [← h.front, lock, (h.held x mem_cons_self).lock] at hlock
          exact Bool.toNat_eq_zero.mp hlock
        obtain ⟨hqueue, hcount⟩ := h.collectItem hx
        exact ih hqueue (by omega)
      · exact ⟨x :: items, h⟩

theorem Queue.collect : ∃ items', r.collect.Queue items' := by
  refine h.collectLoop ?_
  have hlt := h.freeCount_lt
  rw [toInt32_natCast (by omega), Int.toNat_natCast]

/-! ## Allocation -/

/-- **The rest of the pool becomes a block** that is not locked. -/
theorem Queue.skip (hstatus : r.status = false) (hroom : itemHeader ≤ r.size) :
    ∃ items', r.skip.Queue items' := by
  obtain ⟨htiles, halloc⟩ := h.layout.of_not_status hstatus
  have hbound := h.bound
  have hlt := h.freeCount_lt
  have hskip : toUInt32 (r.size - r.allocOffset) = r.size - r.allocOffset := by
    unfold toUInt32
    omega
  have hcond : itemHeader ≤ r.size - r.allocOffset := by omega
  -- the filler is a block like the others, from `alloc_offset` to the end of the pool
  let filler : RingItem := ⟨r.allocOffset, r.size - r.allocOffset - itemHeader, false⟩
  have hspan : filler.span = ⟨r.allocOffset, r.size - r.allocOffset⟩ := by
    simp only [filler, RingItem.span, Nat.add_sub_cancel' hcond]
  have hend : r.allocOffset + (r.size - r.allocOffset) = r.size := by omega
  simp only [RingBuffer.skip, hskip, hcond, if_true]
  refine ⟨items ++ [filler], hbound, ?_, fun x hx => ?_, ?_, fun block => ?_, h.apart⟩
  · have hold := htiles.concat (k := r.size - r.allocOffset)
    rw [hend, ← hspan] at hold
    refine .wrapped (items.map RingItem.span ++ [filler.span]) [] ?_ rfl (by simp) hold rfl
      (Nat.zero_le _)
    simp
  · rcases mem_append.mp hx with hx | hx
    · have hstop := (htiles.bounds (mem_map_of_mem hx)).2
      refine ((h.held x hx).storeNat_apart (.inr ?_)).storeNat_apart (.inr ?_)
      all_goals
        simp only [stop, RingItem.span] at hstop ⊢
        omega
    · rw [mem_singleton.mp hx]
      exact RingItem.held_storeNat r.allocOffset (by omega) false
  · rw [countP_append, ← h.freeCount]
    simp only [filler, countP_singleton, Bool.not_false, if_true]
    unfold toUInt32
    omega
  · rw [h.live block]
    simp [filler]

variable (hfits : r.allocOffset + (size + itemHeader) ≤
  if r.status then r.collectOffset else r.size - itemHeader)
include hfits

theorem Queue.place_end_le : r.allocOffset + (size + itemHeader) ≤ r.size := by
  refine hfits.trans ?_
  split_ifs with hstatus
  · cases h.layout with
    | straight hstatus' => exact absurd (hstatus'.symm.trans hstatus) Bool.false_ne_true
    | wrapped _ _ _ _ _ hold => exact hold.le
  · exact Nat.sub_le ..

theorem Queue.layout_place : (r.place size).Layout (items.map RingItem.span ++
    [(⟨r.allocOffset, size, true⟩ : RingItem).span]) := by
  have hbound := h.bound
  have hend := h.place_end_le hfits
  have hoffset : toUInt32 (r.allocOffset + toUInt32 (size + itemHeader)) =
      r.allocOffset + (itemHeader + size) := by
    unfold toUInt32 itemHeader at *
    omega
  simp only [RingBuffer.place, hoffset]
  cases h.layout with
  | straight hstatus htiles _ =>
    rw [hstatus] at hfits
    refine .straight hstatus htiles.concat (.inr ?_)
    simp only [Bool.false_eq_true, if_false, itemHeader] at hfits ⊢
    omega
  | wrapped old new hspans hstatus hne hold hnew hle =>
    rw [if_pos hstatus] at hfits
    refine .wrapped old (new ++ [RingItem.span ⟨r.allocOffset, size, true⟩]) ?_ hstatus hne hold
      hnew.concat ?_
    · rw [hspans, append_assoc]
    · simp only
      omega

/-- **A block is cut** where there is room for it. -/
theorem Queue.place : ∃ items', (r.place size).Queue items' := by
  have hbound := h.bound
  have hend := h.place_end_le hfits
  let item : RingItem := ⟨r.allocOffset, size, true⟩
  have hlayout : (r.place size).Layout (items.map RingItem.span ++ [item.span]) :=
    h.layout_place hfits
  have hapart : ∀ x ∈ items, x.span.Apart item.span := fun x hx =>
    (pairwise_append.mp hlayout.pairwise).2.2 x.span (mem_map_of_mem hx) item.span
      (mem_singleton_self _)
  refine ⟨items ++ [item], hbound, ?_, fun x hx => ?_, ?_, fun block => ?_, ?_⟩
  · rw [map_append]
    exact hlayout
  · rcases mem_append.mp hx with hx | hx
    · -- the three stores of the new header miss the headers of the other blocks
      have hother := hapart x hx
      simp only [Span.Apart, stop, RingItem.span, item, itemHeader] at hother
      refine (((h.held x hx).storeNat_apart ?_).storeNat_apart ?_).storeNat_apart ?_
      all_goals
        simp only [Span.Apart, stop, itemHeader]
        omega
    · rw [mem_singleton.mp hx]
      refine (RingItem.held_storeNat r.allocOffset (by omega) true).store ?_ ?_
      all_goals
        rw [length_bytes]
        simp only [Span.Apart, stop]
        omega
  · rw [countP_append, ← h.freeCount]
    rfl
  · rw [RingBuffer.place, mem_cons, h.live block]
    simp only [mem_append, mem_singleton]
    constructor
    · rintro (rfl | ⟨x, hx, hlocked, hspan⟩)
      · exact ⟨item, .inr rfl, rfl, rfl⟩
      · exact ⟨x, .inl hx, hlocked, hspan⟩
    · rintro ⟨x, hx | rfl, hlocked, hspan⟩
      · exact .inr ⟨x, hx, hlocked, hspan⟩
      · exact .inl hspan.symm
  · refine .cons (fun block hblock => ?_) h.apart
    obtain ⟨x, hx, -, rfl⟩ := (h.live block).mp hblock
    exact (hapart x hx).symm

omit hfits

variable (hsize : size ≤ r.size)
include hsize

/-- If `capacity` says that there is room, there is. -/
theorem Queue.finishAlloc (hnot : ¬ r.Skips size) :
    ∃ items', (r.finishAlloc size).1.Queue items' := by
  have hbound := h.bound
  have hrequest : toUInt32 (size + itemHeader) = size + itemHeader := by
    unfold toUInt32 itemHeader ringBufferOverhead at *
    omega
  unfold RingBuffer.finishAlloc
  split_ifs with hcapacity
  · exact ⟨items, h⟩
  · refine h.place ?_
    rw [hrequest, not_lt, capacity] at hcapacity
    cases h.layout with
    | straight hstatus htiles hroom =>
      -- the room for one more header comes from the test for the wrap, not from `capacity`
      rw [Skips, hstatus, hrequest, eq_self, true_and, not_le] at hnot
      rw [hstatus] at hcapacity ⊢
      simp only [Bool.false_eq_true, if_false, toUInt32, toSizeT, itemHeader,
        ringBufferOverhead] at *
      omega
    | wrapped _ _ _ hstatus _ hold _ hle =>
      rw [if_pos hstatus] at hcapacity ⊢
      unfold toUInt32 at hcapacity
      omega

theorem Queue.findSpace :
    (∃ items', (r.findSpace size).1.Queue items') ∧
      (r.findSpace size).1.aborted = r.aborted := by
  rw [RingBuffer.findSpace, finishAlloc_aborted]
  split_ifs with hskips
  · obtain ⟨hstatus, hsize', haborted, -⟩ := @skip_frame r
    obtain ⟨items', h'⟩ := h.skip hskips.1 hskips.itemHeader_le
    refine ⟨h'.finishAlloc (hsize.trans_eq hsize'.symm) fun hagain => ?_, haborted⟩
    exact absurd (hagain.1.symm.trans hstatus) Bool.false_ne_true
  · exact ⟨h.finishAlloc hsize hskips, rfl⟩

/-- **`swRingBuffer_alloc`.** -/
theorem Queue.alloc :
    (∃ items', (r.alloc size).1.Queue items') ∧
      (0 < size → (r.alloc size).1.aborted = r.aborted) := by
  rw [RingBuffer.alloc]
  by_cases hzero : size = 0
  · rw [if_pos hzero]
    exact ⟨⟨items, h.bound, h.layout.congr rfl rfl rfl rfl, h.held, h.freeCount, h.live, h.apart⟩,
      fun hpos => by omega⟩
  · rw [if_neg hzero]
    by_cases hfree : 0 < r.freeCount
    · rw [if_pos hfree]
      obtain ⟨hsize', haborted, -⟩ := collectLoop_frame (toInt32 r.freeCount).toNat r
      obtain ⟨items', h'⟩ := h.collect
      obtain ⟨hqueue, haborted'⟩ := h'.findSpace (hsize.trans_eq hsize'.symm)
      exact ⟨hqueue, fun _ => haborted'.trans haborted⟩
    · rw [if_neg hfree]
      obtain ⟨hqueue, haborted⟩ := h.findSpace hsize
      exact ⟨hqueue, fun _ => haborted⟩

/-! ## Frees and writes -/

omit hsize

/-- **`swRingBuffer_free`** of a live block: the assertions hold, and the block is unlocked. -/
theorem Queue.free {block : Span} (hblock : block ∈ r.live) :
    (∃ items', (r.free (block.start + itemHeader)).Queue items') ∧
      (r.free (block.start + itemHeader)).aborted = r.aborted := by
  obtain ⟨x, hx, hlocked, rfl⟩ := (h.live block).mp hblock
  obtain ⟨before, after, rfl⟩ := append_of_mem hx
  have hlt := h.freeCount_lt
  have hstop := h.layout.within (mem_map_of_mem hx)
  have hlock : r.lock x.start = 1 := by
    rw [lock, (h.held x hx).lock, hlocked]
    rfl
  have hpass : ¬ (r.size < x.start + itemHeader ∨ r.lock x.start ≠ 1) := by
    simp only [hlock, ne_eq, not_true, or_false, stop, RingItem.span] at hstop ⊢
    omega
  have hfree : r.free (x.start + itemHeader) =
      { r with
        memory := r.memory.storeNat x.start 2 0
        freeCount := toUInt32 (r.freeCount + 1)
        live := r.live.filter fun block => block.start ≠ x.start } := by
    simp only [RingBuffer.free, Nat.add_sub_cancel, if_neg hpass]
  have hne : ∀ y ∈ before ++ after, y.start ≠ x.start := fun y hy =>
    ((h.apart_of_mem hy).start_ne (Nat.add_pos_left (by decide) _)
      (Nat.add_pos_left (by decide) _)).symm
  have hmem : ∀ z y : RingItem, y ∈ before ++ z :: after ↔ y = z ∨ y ∈ before ++ after :=
    fun z y => by rw [perm_middle.mem_iff, mem_cons]
  change (∃ items', (r.free (x.start + itemHeader)).Queue items') ∧
    (r.free (x.start + itemHeader)).aborted = r.aborted
  rw [hfree]
  refine ⟨⟨before ++ { x with locked := false } :: after, h.bound, ?_, fun y hy => ?_, ?_,
    fun block => ?_, h.apart.sublist filter_sublist⟩, rfl⟩
  · have hspans : (before ++ { x with locked := false } :: after).map RingItem.span =
        (before ++ x :: after).map RingItem.span := by
      simp [RingItem.span]
    rw [hspans]
    exact h.layout.congr rfl rfl rfl rfl
  · rcases (hmem _ y).mp hy with rfl | hy
    · refine ⟨ByteMemory.loadNat_storeNat_self (by decide), ?_⟩
      rw [ByteMemory.loadNat_storeNat_apart (.inl (by simp only [stop]; omega))]
      exact (h.held x hx).length
    · have hapart := h.apart_of_mem hy
      refine (h.held y ((hmem x y).mpr (.inr hy))).storeNat_apart ?_
      simp only [Span.Apart, stop, RingItem.span, itemHeader] at hapart ⊢
      omega
  · have hcount := h.freeCount
    rw [countP_append, countP_cons_of_neg (by rw [hlocked]; decide)] at hcount
    rw [countP_append, countP_cons_of_pos rfl]
    show toUInt32 (r.freeCount + 1) = _
    unfold toUInt32
    omega
  · rw [mem_filter, h.live block, decide_eq_true_iff]
    constructor
    · rintro ⟨⟨y, hy, hylocked, rfl⟩, hstart⟩
      refine ⟨y, (hmem _ y).mpr (.inr ?_), hylocked, rfl⟩
      exact ((hmem x y).mp hy).resolve_left fun heq => hstart (heq ▸ rfl)
    · rintro ⟨y, hy, hylocked, rfl⟩
      rcases (hmem _ y).mp hy with rfl | hy
      · exact absurd hylocked Bool.false_ne_true
      · exact ⟨⟨y, (hmem x y).mpr (.inr hy), hylocked, rfl⟩, hne y hy⟩

/-- **A write** into a live block leaves all headers as they are. -/
theorem Queue.write {block : Span} (hblock : block ∈ r.live) {ptr : ℕ}
    {bytes : List UInt8} (hwithin : (⟨ptr, bytes.length⟩ : Span).Within (payload block)) :
    { r with memory := r.memory.store ptr bytes }.Queue items := by
  obtain ⟨x, hx, -, rfl⟩ := (h.live block).mp hblock
  obtain ⟨before, after, rfl⟩ := append_of_mem hx
  refine ⟨h.bound, h.layout.congr rfl rfl rfl rfl, fun y hy => (h.held y hy).store_apart ?_,
    h.freeCount, h.live, h.apart⟩
  by_cases hsame : y = x
  · rw [hsame]
    simp only [Span.Within, Span.Apart, stop, payload, RingItem.span, itemHeader] at *
    omega
  · have hother : y ∈ before ++ after := by
      simp only [mem_append, mem_cons, hsame, false_or] at hy ⊢
      exact hy
    have hapart := h.apart_of_mem hother
    simp only [Span.Within, Span.Apart, stop, payload, RingItem.span, itemHeader] at *
    omega

/-! ## Runs -/

/-- **One call or write.** -/
theorem Queue.step {op : Op} (hadm : r.Admissible op) :
    (∃ items', (r.step op).Queue items') ∧ r.Passes op := by
  unfold Passes
  rw [← and_assoc]
  refine ⟨?_, fun size _ => alloc_returns size⟩
  unfold RingBuffer.step
  by_cases haborted : r.aborted = true
  · rw [if_pos haborted]
    exact ⟨⟨items, h⟩, fun _ => rfl⟩
  · rw [if_neg haborted]
    cases op with
    | alloc size =>
      obtain ⟨hqueue, hrunning⟩ := h.alloc hadm
      refine ⟨hqueue, fun hne => hrunning (Nat.pos_of_ne_zero ?_)⟩
      rintro rfl
      exact hne rfl
    | free ptr =>
      obtain ⟨block, hblock, rfl⟩ := hadm
      obtain ⟨hqueue, hrunning⟩ := h.free hblock
      exact ⟨hqueue, fun _ => hrunning⟩
    | write ptr bytes =>
      obtain ⟨block, hblock, hwithin⟩ := hadm
      exact ⟨⟨items, h.write hblock hwithin⟩, fun _ => rfl⟩

omit h

/-- **The pool keeps its contract** along every sequence of requests, frees and writes: what the
requests have returned and no free has given back are blocks inside of the pool, apart from each
other. -/
theorem sound_run (size : ℕ) (memory : ByteMemory) (ops : List Op)
    (hmin : ringBufferOverhead ≤ size) (hmax : size < 2 ^ 32)
    (hadm : EachStep step Admissible (new size memory) ops) :
    (∀ used, used <+: ops → (run step (new size memory) used).Sound) ∧
      EachStep step Passes (new size memory) ops := by
  have hkeeps : ∀ (r : RingBuffer) (op : Op), (∃ items, r.Queue items) → r.Admissible op →
      ∃ items, (r.step op).Queue items := fun _ _ ⟨_, h⟩ hop => (h.step hop).1
  have hinit : ∃ items, (new size memory).Queue items := ⟨[], new_queue hmin hmax memory⟩
  refine ⟨fun used hpre => ?_, ?_⟩
  · obtain ⟨items, h⟩ := (hadm.restrict hpre).run_invariant hkeeps hinit
    exact h.sound
  · exact hadm.imp hkeeps (fun _ _ ⟨_, h⟩ hop => (h.step hop).2) hinit

/-- A pool of 64 bytes.  The first two blocks leave no room for a third; when the first one is
freed, the rest of the pool is skipped and the third block goes to its place. -/
theorem sound_skip :
    let r := new 128 fun _ => 255
    let ops : List Op := [.alloc 16, .write 8 [1, 2, 3], .alloc 16, .alloc 12, .free 8, .alloc 12]
    EachStep step Admissible r ops ∧
      (run step r (ops.take 4)).live = [⟨24, 24⟩, ⟨0, 24⟩] ∧
      (run step r ops).live = [⟨0, 20⟩, ⟨24, 24⟩] ∧ (run step r ops).status = true ∧
      (run step r ops).Sound :=
  ⟨by decide, by decide, by decide, by decide,
    (sound_run 128 _ _ (by decide) (by decide) (by decide)).1 _ (prefix_refl _)⟩

end RingBuffer

end Swoole
