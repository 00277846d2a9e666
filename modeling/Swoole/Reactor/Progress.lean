import Swoole.Core.Socket
import Swoole.Library.StepRun

/-!
# Progress at a write event

The loops of `swReactor_onWrite` and `swReactorThread_onWrite` send the first chunk until there is
none, or until the function that sends it fails.  But that function also succeeds without having
sent anything: for data, at an error that neither closes the connection nor asks to wait, and for
a file, at `EAGAIN`.  Then the loop spins on the chunk.  What is in the chunks is the matter of
`OutConn`.
-/

namespace Swoole.WriteLoop

open StepRun List

/-- `SW_CHUNK_DATA`, `SW_CHUNK_SENDFILE` and `SW_CHUNK_CLOSE`. -/
inductive ChunkType where
  | data
  | sendfile
  | close
  deriving DecidableEq, Repr

/-- A chunk, and the number of bytes of it that are still to be sent. -/
structure Chunk where
  type : ChunkType
  left : ℕ
  deriving DecidableEq, Repr

/-- What a turn comes to: the loop is left, the chunk is popped, or so many bytes of it stay. -/
inductive Turn where
  | leaves
  | pops
  | keeps (left : ℕ)
  deriving DecidableEq, Repr

/-- `SW_SENDFILE_TRUNK`. -/
def sendfileTrunk : ℕ := 65536

/-- `swConnection_buffer_send`. -/
def bufferSend (left : ℕ) (a : SendAnswer) : Turn :=
  if left = 0 then .pops
  else
    match send left a with
    | .error e => if connectionError e = .error then .keeps left else .leaves
    | .sent count _ => if count = left then .pops else .keeps (left - count)

/-- `swConnection_onSendfile`; a count of zero is treated as an error, with the `errno` there is. -/
def onSendfile (left : ℕ) (a : SendAnswer) : Turn :=
  let failed (e : Errno) : Turn :=
    match connectionError e with
    | .error => .pops
    | .close | .abort => .leaves
    | .wait => if left = 0 then .pops else .keeps left
  match send (min left sendfileTrunk) a with
  | .error e => failed e
  | .sent count e =>
    if count = 0 then failed e else if count = left then .pops else .keeps (left - count)

def turn (chunk : Chunk) (a : SendAnswer) : Turn :=
  match chunk.type with
  | .data => bufferSend chunk.left a
  | .sendfile => onSendfile chunk.left a
  | .close => .leaves

/-- The loop at one answer of the kernel; it is left with the last chunk. -/
def step : List Chunk → SendAnswer → List Chunk
  | [], _ => []
  | chunk :: chunks, a =>
    match turn chunk a with
    | .leaves => []
    | .pops => chunks
    | .keeps left => { chunk with left := left } :: chunks

/-- **Progress**: the loop is left, or a chunk is popped or advanced. -/
def Progress (chunks : List Chunk) (a : SendAnswer) : Prop :=
  ∀ chunk ∈ chunks.head?, ∀ left, turn chunk a = .keeps left → left < chunk.left

/-- The first chunk is a close, is sent already, or something of it is sent; or data fails with
another error than one of class `SW_ERROR`, and a file with another than `SW_WAIT`. -/
def Moves (chunks : List Chunk) (a : SendAnswer) : Prop :=
  ∀ chunk ∈ chunks.head?, chunk.left ≠ 0 →
    match chunk.type, a with
    | .data, .accept limit _ => limit ≠ 0
    | .data, .fail e => connectionError e ≠ .error
    | .sendfile, .accept limit e => limit = 0 → connectionError e ≠ .wait
    | .sendfile, .fail e => connectionError e ≠ .wait
    | .close, _ => True

variable {chunks : List Chunk} {a : SendAnswer}

theorem progress_iff_moves : Progress chunks a ↔ Moves chunks a := by
  refine forall₂_congr fun chunk _ => ?_
  obtain ⟨type, left⟩ := chunk
  cases type with
  | close => simp [turn]
  | data =>
    by_cases hzero : left = 0
    · simp [turn, bufferSend, hzero]
    cases a with
    | fail e =>
      by_cases he : connectionError e = .error <;> simp [turn, bufferSend, hzero, send, he]
    | accept limit e =>
      simp only [turn, bufferSend, hzero, send, if_false]
      split_ifs <;> simp <;> omega
  | sendfile =>
    cases a with
    | fail e =>
      by_cases hzero : left = 0 <;> cases he : connectionError e <;>
        simp [turn, onSendfile, send, hzero, he]
    | accept limit e =>
      simp only [turn, onSendfile, send]
      by_cases hsent : min limit (min left sendfileTrunk) = 0
      · have hnone : left ≠ 0 → limit = 0 := by
          have htrunk : 0 < sendfileTrunk := by decide
          omega
        rw [if_pos hsent]
        by_cases hzero : left = 0 <;> cases he : connectionError e <;> simp_all
      · rw [if_neg hsent]
        split_ifs <;> simp <;> omega

/-- The turns the chunks can take. -/
def weight (chunks : List Chunk) : ℕ := (chunks.map (·.left + 1)).sum

theorem weight_step {chunk : Chunk} (h : Progress (chunk :: chunks) a) :
    weight (step (chunk :: chunks) a) < weight (chunk :: chunks) := by
  unfold step
  simp only [weight, map_cons, sum_cons]
  split
  · rw [map_nil, sum_nil]
    omega
  · omega
  · next left hturn =>
    have hlt := h chunk rfl left hturn
    simp only [map_cons, sum_cons]
    omega

/-- **Every turn makes progress** exactly if its first chunk moves; and then the loop ends. -/
theorem eachStep_progress_iff (chunks : List Chunk) (answers : List SendAnswer) :
    (EachStep step Progress chunks answers ↔ EachStep step Moves chunks answers) ∧
      (EachStep step Moves chunks answers → weight chunks ≤ answers.length →
        run step chunks answers = []) := by
  refine ⟨eachStep_congr (I := fun _ => True) (fun _ _ _ => progress_iff_moves)
    (fun _ _ _ _ => trivial) answers trivial, fun h hlen => ?_⟩
  induction answers generalizing chunks with
  | nil =>
    cases chunks with
    | nil => rfl
    | cons chunk chunks => simp [weight] at hlen
  | cons a answers ih =>
    refine ih _ h.2 ?_
    cases chunks with
    | nil => exact Nat.zero_le _
    | cons chunk chunks =>
      have hlt := weight_step (progress_iff_moves.mpr h.1)
      rw [length_cons] at hlen
      omega

/-- `sendfile` finds the socket full, and `send` fails for want of memory. -/
theorem not_progress_unsendable :
    ¬ EachStep step Progress [⟨.sendfile, 1⟩] [.fail .eagain] ∧
      ¬ EachStep step Progress [⟨.data, 1⟩] [.fail .other] :=
  ⟨fun h => absurd (h.1 _ rfl 1 rfl) (by decide), fun h => absurd (h.1 _ rfl 1 rfl) (by decide)⟩

end Swoole.WriteLoop
