import Swoole.Core.Socket

/-!
# `swBuffer`, the queue of chunks

Data that the kernel did not take at once waits in a `swBuffer`, a list of chunks.
A data chunk keeps its bytes and the offset up to which they have been sent; a close
chunk asks for the connection to be closed once everything before it is out.

`length` is the sum of the chunks' lengths as a `uint32_t`, and popping the last
chunk resets it to zero.  An empty queue therefore always has length zero, and since
a writer may refuse data by looking at `length`, this is a field of the structure.
-/

namespace Swoole

open List

/-- `swBuffer_trunk`.  Chunks that send a file are not part of this model. -/
inductive Chunk where
  | data (bytes : Bytes) (offset : ℕ)
  | close
  deriving DecidableEq

namespace Chunk

/-- The chunk's `length`. -/
def length : Chunk → ℕ
  | .data bytes _ => bytes.length
  | .close => 0

/-- What is still to be sent. -/
def pending : Chunk → Bytes
  | .data bytes offset => bytes.drop offset
  | .close => []

/-- A chunk that carries data. -/
def IsData : Chunk → Prop
  | .data _ _ => True
  | .close => False

end Chunk

/-- `swBuffer`. -/
structure Buffer where
  chunks : List Chunk
  length : ℕ
  length_of_empty : chunks = [] → length = 0
  deriving DecidableEq

namespace Buffer

/-- `swBuffer_new`. -/
def new : Buffer := ⟨[], 0, fun _ => rfl⟩

variable (b : Buffer)

/-- `swBuffer_append`, with an allocation that succeeds. -/
def append (data : Bytes) : Buffer where
  chunks := b.chunks ++ [.data data 0]
  length := (b.length + data.length) % 2 ^ 32
  length_of_empty h := by simp at h

/-- `swBuffer_new_trunk` with `SW_CHUNK_CLOSE`. -/
def appendClose : Buffer where
  chunks := b.chunks ++ [.close]
  length := b.length
  length_of_empty h := by simp at h

/-- `swBuffer_pop_trunk`. -/
def popTrunk : Buffer :=
  match b.chunks with
  | [] => b
  | [_] => new
  | chunk :: next :: rest =>
    { chunks := next :: rest
      length := (b.length + 2 ^ 32 - chunk.length) % 2 ^ 32
      length_of_empty := fun h => by cases h }

/-- Move the head chunk's offset on. -/
def advance (count : ℕ) : Buffer :=
  match h : b.chunks with
  | .data bytes offset :: rest =>
    { chunks := .data bytes (offset + count) :: rest
      length := b.length
      length_of_empty := fun h => by cases h }
  | _ => b

/-- The bytes still to be sent, in order. -/
def queued : Bytes := b.chunks.flatMap Chunk.pending

/-- Every chunk carries data. -/
def AllData : Prop := ∀ chunk ∈ b.chunks, chunk.IsData

@[simp] theorem append_queued (data : Bytes) : (b.append data).queued = b.queued ++ data := by
  simp [queued, append, Chunk.pending]

theorem append_allData {b : Buffer} (h : b.AllData) (data : Bytes) : (b.append data).AllData := by
  exact forall_mem_append.mpr ⟨h, forall_mem_singleton.mpr trivial⟩

variable {b} {chunk : Chunk} {rest : List Chunk}

theorem popTrunk_chunks (h : b.chunks = chunk :: rest) : b.popTrunk.chunks = rest := by
  unfold popTrunk
  rw [h]
  cases rest <;> rfl

theorem queued_of_cons (h : b.chunks = chunk :: rest) :
    b.queued = chunk.pending ++ b.popTrunk.queued := by
  unfold queued
  rw [popTrunk_chunks h, h, flatMap_cons]

theorem popTrunk_allData (hall : b.AllData) (h : b.chunks = chunk :: rest) :
    b.popTrunk.AllData := by
  intro chunk' hchunk'
  rw [popTrunk_chunks h] at hchunk'
  exact hall chunk' (by rw [h]; exact mem_cons_of_mem _ hchunk')

variable {bytes : Bytes} {offset : ℕ}

theorem advance_chunks (h : b.chunks = .data bytes offset :: rest) (count : ℕ) :
    (b.advance count).chunks = .data bytes (offset + count) :: rest := by
  unfold advance
  split
  · next bytes' offset' rest' h' =>
    rw [h] at h'
    cases h'
    rfl
  · next hno => exact absurd h (hno _ _ _)

theorem advance_queued (h : b.chunks = .data bytes offset :: rest) (count : ℕ) :
    (bytes.drop offset).take count ++ (b.advance count).queued = b.queued := by
  unfold queued
  rw [advance_chunks h, h, flatMap_cons, flatMap_cons, ← append_assoc]
  congr 1
  show (bytes.drop offset).take count ++ bytes.drop (offset + count) = bytes.drop offset
  rw [← drop_drop, take_append_drop]

theorem advance_allData (hall : b.AllData) (h : b.chunks = .data bytes offset :: rest) (count : ℕ) :
    (b.advance count).AllData := by
  intro chunk' hchunk'
  rw [advance_chunks h] at hchunk'
  rcases mem_cons.mp hchunk' with rfl | hrest
  · trivial
  · exact hall chunk' (by rw [h]; exact mem_cons_of_mem _ hrest)

end Buffer

end Swoole
