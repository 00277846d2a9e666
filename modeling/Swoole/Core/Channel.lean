import Swoole.Library.ByteMemory
import Swoole.Library.StepRun

/-!
# `swChannel`

A queue of messages in a block of memory.  A message is stored behind the one before it, as its
length and its bytes; `tail` is where the next one goes and `head` where the oldest one is.  An
offset that has reached `size` goes back to the start, and a tag is flipped.

A message begins in front of `size`, but it may end behind it.  For this `swChannel_new` keeps
`maxlen` bytes: `object->size` is that much smaller than the block.  But the records of the
channel are in the same block, and so are the four bytes of the length; the bytes that are kept
are too few by the size of both.

The memory is one of bytes, by the offset from `object->mem`.  `overrun` says that a message was
written past the end of the block.  `accepted` and `returned` are what `swChannel_in` has taken
and what `swChannel_out` has given back.
-/

namespace Swoole

open StepRun List

/-- `sizeof(swChannel)`. -/
def channelHeader : ℕ := 216

/-- `SW_CHANNEL_MIN_MEM`. -/
def channelMinMem : ℕ := 1024 * 64

/-- Two `int`s that pass the assertion of `swChannel_new`. -/
structure ChannelConfig where
  size : ℕ
  maxlen : ℕ
  min_lt : channelMinMem + maxlen < size
  lt : size < 2 ^ 31

/-- `swChannel`. -/
structure Channel where
  config : ChannelConfig
  head : ℕ
  tail : ℕ
  headTag : Bool
  tailTag : Bool
  num : ℕ
  memory : ByteMemory
  overrun : Bool
  aborted : Bool
  accepted : List (List UInt8)
  returned : List (List UInt8)

namespace Channel

/-- `swChannel_new`. -/
def new (config : ChannelConfig) (memory : ByteMemory) : Channel where
  config := config
  head := 0
  tail := 0
  headTag := false
  tailTag := false
  num := 0
  memory := memory
  overrun := false
  aborted := false
  accepted := []
  returned := []

variable (c : Channel)

/-- `object->size`. -/
def size : ℕ := c.config.size - c.config.maxlen

/-- The bytes of the block behind the records of the channel. -/
def room : ℕ := c.config.size - channelHeader

/-- `swChannel_full`. -/
def Full : Prop := c.head = c.tail ∧ c.tailTag ≠ c.headTag
  deriving Decidable

/-- The size of a message with its length. -/
def msize (data : List UInt8) : ℕ := 4 + data.length

/-- `swChannel_in` has no room for the message. -/
def Refuses (data : List UInt8) : Prop :=
  c.Full ∨ c.tail < c.head ∧ c.head - c.tail < msize data
  deriving Decidable

/-- The message is written at `tail`. -/
def put (data : List UInt8) : Channel :=
  { c with
    num := c.num + 1
    memory := (c.memory.storeNat c.tail 4 data.length).store (c.tail + 4) data
    overrun := c.overrun || decide (c.room < c.tail + msize data)
    accepted := c.accepted ++ [data] }

/-- `swChannel_in`. -/
def channelIn (data : List UInt8) : Channel :=
  if c.config.maxlen ≤ data.length then { c with aborted := true }
  else if c.Refuses data then c
  else if c.head ≤ c.tail ∧ c.size ≤ c.tail + msize data then
    { c.put data with tail := 0, tailTag := !c.tailTag }
  else { c.put data with tail := c.tail + msize data }

/-- `item->length` at the head. -/
def frontLength : ℕ := c.memory.loadNat c.head 4

/-- `swChannel_out`, into a buffer of `bufferLength` bytes. -/
def channelOut (bufferLength : ℕ) : Channel :=
  if c.num = 0 then c
  else if bufferLength < c.frontLength then { c with aborted := true }
  else
    let c' :=
      { c with
        num := c.num - 1
        returned := c.returned ++ [c.memory.load (c.head + 4) c.frontLength] }
    if c.size ≤ c.head + (c.frontLength + 4) then { c' with head := 0, headTag := !c.headTag }
    else { c' with head := c.head + (c.frontLength + 4) }

/-- A call of one of the two functions. -/
inductive Op where
  | put (data : List UInt8)
  | take (bufferLength : ℕ)
  deriving DecidableEq, Repr

/-- Nothing is said of a channel that has written past its block. -/
def step (c : Channel) (op : Op) : Channel :=
  if c.overrun ∨ c.aborted then c
  else
    match op with
    | .put data => c.channelIn data
    | .take bufferLength => c.channelOut bufferLength

/-! ## The contract -/

/-- The messages that have been accepted and not been returned. -/
def queued : List (List UInt8) := c.accepted.drop c.returned.length

/-- **The contract of a state**: the messages that were returned are the first ones of those that
were accepted, and the others are counted. -/
structure Sound : Prop where
  order : c.returned <+: c.accepted
  num : c.num = c.queued.length
  inside : c.overrun = false
  running : c.aborted = false

/-- Messages are shorter than `maxlen`, and the buffer has room for the oldest message. -/
def Admissible (c : Channel) : Op → Prop
  | .put data => data.length < c.config.maxlen
  | .take bufferLength => ∀ data ∈ c.queued.head?, data.length ≤ bufferLength

instance (c : Channel) (op : Op) : Decidable (c.Admissible op) := by
  unfold Admissible
  split <;> infer_instance

/-- A message that is not refused ends inside of the block. -/
def Fits (c : Channel) : Op → Prop
  | .put data => c.Refuses data ∨ c.tail + msize data ≤ c.room
  | .take _ => True

instance (c : Channel) (op : Op) : Decidable (c.Fits op) := by
  unfold Fits
  split <;> infer_instance

end Channel

/-! ## The queue of messages -/

/-- A message and where it is. -/
structure ChannelItem where
  start : ℕ
  data : List UInt8

namespace ChannelItem

variable {x : ChannelItem} {m : ByteMemory} {a : ℕ} {bytes : List UInt8}

def span (x : ChannelItem) : Span := ⟨x.start, Channel.msize x.data⟩

/-- The message is in the memory. -/
structure Held (x : ChannelItem) (m : ByteMemory) : Prop where
  length : m.loadNat x.start 4 = x.data.length
  data : m.load (x.start + 4) x.data.length = x.data

theorem Held.store (h : x.Held m) (hapart : Span.Apart ⟨a, bytes.length⟩ x.span) :
    x.Held (m.store a bytes) := by
  simp only [Span.Apart, Span.stop, span, Channel.msize] at hapart
  refine ⟨(ByteMemory.loadNat_store_apart ?_).trans h.length,
    (ByteMemory.load_store_apart ?_).trans h.data⟩
  all_goals
    simp only [Span.Apart, Span.stop]
    omega

variable {data : List UInt8}

theorem held_store (a : ℕ) (hlt : data.length < 2 ^ 32) :
    (⟨a, data⟩ : ChannelItem).Held ((m.storeNat a 4 data.length).store (a + 4) data) := by
  refine ⟨?_, ByteMemory.load_store_self⟩
  rw [ByteMemory.loadNat_store_apart (.inr (by simp only [Span.stop]; omega))]
  exact ByteMemory.loadNat_storeNat_self hlt

end ChannelItem

namespace Channel

variable {c : Channel} {spans : List Span} {items : List ChannelItem} {x : ChannelItem}

/-- Where the messages lie.  Behind the last one before the wrap, the memory has ended. -/
inductive Layout (c : Channel) (spans : List Span) : Prop
  | straight (htag : c.tailTag = c.headTag) (htiles : Span.Tiles c.head spans c.tail)
      (hlt : c.tail < c.size)
  | wrapped (old new : List Span) (stop : ℕ) (hspans : spans = old ++ new)
      (htag : c.tailTag ≠ c.headTag) (hne : old ≠ []) (hold : Span.Tiles c.head old stop)
      (hstop : c.size ≤ stop) (hstart : ∀ a ∈ old, a.start < c.size)
      (hnew : Span.Tiles 0 new c.tail) (hle : c.tail ≤ c.head)

/-- **The messages of the queue**, from `head` on. -/
structure Queue (c : Channel) (items : List ChannelItem) : Prop where
  layout : c.Layout (items.map ChannelItem.span)
  held : ∀ x ∈ items, x.Held c.memory
  accepted : c.accepted = c.returned ++ items.map ChannelItem.data
  num : c.num = items.length

theorem Queue.queued (h : c.Queue items) : c.queued = items.map ChannelItem.data := by
  rw [Channel.queued, h.accepted, drop_left]

theorem Queue.sound_iff (h : c.Queue items) : c.Sound ↔ c.overrun = false ∧ c.aborted = false := by
  refine ⟨fun hsound => ⟨hsound.inside, hsound.running⟩, fun ⟨hinside, hrunning⟩ => ?_⟩
  refine ⟨?_, ?_, hinside, hrunning⟩
  · rw [h.accepted]
    exact prefix_append ..
  · rw [h.num, h.queued, length_map]

theorem new_queue (config : ChannelConfig) (memory : ByteMemory) :
    (new config memory).Queue [] := by
  refine ⟨.straight rfl rfl ?_, nofun, rfl, rfl⟩
  have := config.min_lt
  simp only [new, size]
  omega

theorem Layout.pairwise (h : c.Layout spans) : spans.Pairwise Span.Apart := by
  cases h with
  | straight _ htiles _ => exact htiles.pairwise
  | wrapped old new _ hspans _ _ hold _ _ hnew hle =>
    rw [hspans]
    exact hold.pairwise_append hnew hle

/-! ## `swChannel_in` -/

variable (hlt : data.length < c.config.maxlen) (hroom : ¬ c.Refuses data)
include hlt hroom

/-- Where `swChannel_in` leaves the tail. -/
theorem Layout.channelIn (h : c.Layout spans) :
    (c.channelIn data).Layout (spans ++ [⟨c.tail, msize data⟩]) := by
  simp only [Refuses, Full, not_or, not_and] at hroom
  rw [Channel.channelIn, if_neg (by omega), if_neg (by simpa only [Refuses, Full, not_or, not_and])]
  cases h with
  | straight htag htiles htail =>
    have hle := htiles.le
    have hold : Span.Tiles c.head (spans ++ [⟨c.tail, msize data⟩]) (c.tail + msize data) :=
      htiles.concat
    split_ifs with hwrap
    · -- the message has reached the end: all messages now lie in front of the wrap
      refine .wrapped _ [] _ (append_nil _).symm ?_ (by simp) hold hwrap.2 (fun a ha => ?_)
        rfl (Nat.zero_le _)
      · simp [htag, put]
      · rcases mem_append.mp ha with ha | ha
        · have hbounds := htiles.bounds ha
          have hstart : a.start ≤ a.stop := Nat.le_add_right ..
          exact lt_of_le_of_lt (hstart.trans hbounds.2) htail
        · rw [mem_singleton.mp ha]
          exact htail
    · refine .straight htag hold ?_
      simp only [not_and, not_le] at hwrap
      exact hwrap hle
  | wrapped old new stop hspans htag hne hold hstop hstart hnew hle =>
    -- a full channel has been refused, so the tail is strictly in front of the head
    have htail : c.tail < c.head := lt_of_le_of_ne hle fun heq => hroom.1 heq.symm htag
    rw [if_neg (by omega)]
    refine .wrapped old (new ++ [⟨c.tail, msize data⟩]) stop ?_ htag hne hold hstop hstart
      hnew.concat ?_
    · rw [hspans, append_assoc]
    · have := hroom.2 htail
      show c.tail + msize data ≤ c.head
      omega

/-- What else `swChannel_in` changes. -/
theorem channelIn_put :
    ∃ tail tailTag, c.channelIn data = { c.put data with tail := tail, tailTag := tailTag } := by
  rw [Channel.channelIn, if_neg (by omega), if_neg hroom]
  split_ifs <;> exact ⟨_, _, rfl⟩

theorem channelIn_flags :
    (c.channelIn data).overrun = (c.overrun || decide (c.room < c.tail + msize data)) ∧
      (c.channelIn data).aborted = c.aborted := by
  obtain ⟨tail, tailTag, hput⟩ := channelIn_put hlt hroom
  rw [hput]
  exact ⟨rfl, rfl⟩

/-- **A message is put into the queue.** -/
theorem Queue.channelIn (h : c.Queue items) :
    (c.channelIn data).Queue (items ++ [⟨c.tail, data⟩]) := by
  have hlayout := h.layout.channelIn hlt hroom
  have hshort : data.length < 2 ^ 32 := by
    have := c.config.min_lt
    have := c.config.lt
    omega
  have hapart : ∀ x ∈ items, x.span.Apart ⟨c.tail, msize data⟩ := fun x hx =>
    (pairwise_append.mp hlayout.pairwise).2.2 x.span (mem_map_of_mem hx) _
      (mem_singleton_self _)
  obtain ⟨tail, tailTag, hput⟩ := channelIn_put hlt hroom
  rw [hput] at hlayout ⊢
  refine ⟨?_, fun x hx => ?_, ?_, ?_⟩
  · rw [map_append]
    exact hlayout
  · rcases mem_append.mp hx with hx | hx
    · have hother := hapart x hx
      simp only [Span.Apart, Span.stop, ChannelItem.span, msize] at hother
      refine ((h.held x hx).store ?_).store ?_
      · simp only [Span.Apart, Span.stop, ChannelItem.span, msize, LittleEndian.length_bytes]
        omega
      · simp only [Span.Apart, Span.stop, ChannelItem.span, msize]
        omega
    · rw [mem_singleton.mp hx]
      exact ChannelItem.held_store c.tail hshort
  · simp [put, h.accepted]
  · simp [put, h.num]

/-! ## `swChannel_out` -/

omit hlt hroom

theorem Layout.front (h : c.Layout (x.span :: spans)) : x.start = c.head := by
  cases h with
  | straight _ htiles _ => exact htiles.1
  | wrapped old new _ hspans _ hne hold =>
    obtain ⟨a, old, rfl⟩ := exists_cons_of_ne_nil hne
    obtain ⟨rfl, -⟩ := cons.inj hspans
    exact hold.1

/-- **The oldest message is taken out of the queue.** -/
theorem Queue.channelOut (h : c.Queue (x :: items)) {bufferLength : ℕ}
    (hbuffer : x.data.length ≤ bufferLength) :
    (c.channelOut bufferLength).Queue items ∧
      (c.channelOut bufferLength).returned = c.returned ++ [x.data] ∧
      (c.channelOut bufferLength).overrun = c.overrun ∧
      (c.channelOut bufferLength).aborted = c.aborted := by
  have hfront := h.layout.front
  obtain ⟨hlen, hdata⟩ := h.held x mem_cons_self
  have hnum : c.num ≠ 0 := by
    rw [h.num]
    exact Nat.succ_ne_zero _
  have hfrontLength : c.frontLength = x.data.length := by
    rw [frontLength, ← hfront, hlen]
  have hstop : c.head + (x.data.length + 4) = x.span.stop := by
    simp only [Span.stop, ChannelItem.span, msize, hfront]
    omega
  have hheld : ∀ y ∈ items, y.Held c.memory := fun y hy => h.held y (mem_cons_of_mem x hy)
  have haccepted : c.accepted = (c.returned ++ [x.data]) ++ items.map ChannelItem.data := by
    rw [h.accepted, map_cons, append_assoc, singleton_append]
  have hcount : c.num - 1 = items.length := by
    rw [h.num, length_cons, Nat.add_sub_cancel]
  rw [Channel.channelOut, if_neg hnum, hfrontLength, if_neg (by omega), hstop, ← hfront, hdata]
  cases h.layout with
  | straight htag htiles htail =>
    have hle := htiles.2.le
    rw [if_neg (by omega)]
    exact ⟨⟨.straight htag htiles.2 htail, hheld, haccepted, hcount⟩, rfl, rfl, rfl⟩
  | wrapped old new stop hspans htag hne hold hend hstart hnew hle =>
    obtain ⟨a, old, rfl⟩ := exists_cons_of_ne_nil hne
    obtain ⟨rfl, hrest⟩ : x.span = a ∧ items.map ChannelItem.span = old ++ new :=
      cons.inj hspans
    have hhead : c.head < c.size := by
      rw [← hfront]
      exact hstart x.span mem_cons_self
    cases old with
    | nil =>
      -- the last message in front of the wrap: the head follows the tail to the start
      have hlast : x.span.stop = stop := hold.2
      rw [if_pos (by omega)]
      refine ⟨⟨.straight ?_ (hrest ▸ hnew) ?_, hheld, haccepted, hcount⟩, rfl, rfl, rfl⟩
      · exact Bool.eq_not_of_ne htag
      · exact lt_of_le_of_lt hle hhead
    | cons b old =>
      have hb : x.span.stop < c.size := by
        rw [← hold.2.1]
        exact hstart b (by simp)
      rw [if_neg (by omega)]
      refine ⟨⟨.wrapped (b :: old) new stop hrest htag (cons_ne_nil b old) hold.2 hend
        (fun a ha => hstart a (mem_cons_of_mem _ ha)) hnew ?_, hheld, haccepted, hcount⟩,
        rfl, rfl, rfl⟩
      have hgrow : x.span.start ≤ x.span.stop := Nat.le_add_right ..
      exact (hle.trans_eq hfront.symm).trans hgrow

/-! ## Runs -/

/-- **One call**: the queue is kept, and the contract is as well if the message fits. -/
theorem Queue.step (h : c.Queue items) (hsound : c.Sound) {op : Op} (hadm : c.Admissible op) :
    (∃ items', (c.step op).Queue items') ∧ ((c.step op).Sound ↔ c.Fits op) := by
  have hrunning : ¬ (c.overrun ∨ c.aborted) := by
    rw [hsound.inside, hsound.running]
    decide
  simp only [Channel.step, if_neg hrunning]
  cases op with
  | put data =>
    by_cases hroom : c.Refuses data
    · have hsame : c.channelIn data = c := by
        rw [Channel.channelIn, if_neg (not_le.mpr hadm), if_pos hroom]
      simp only [hsame]
      exact ⟨⟨items, h⟩, fun _ => .inl hroom, fun _ => hsound⟩
    · have hqueue := h.channelIn hadm hroom
      refine ⟨⟨_, hqueue⟩, ?_⟩
      obtain ⟨hoverrun, haborted⟩ := channelIn_flags hadm hroom
      rw [hqueue.sound_iff, hoverrun, haborted, hsound.inside, hsound.running]
      simp [Fits, hroom]
  | take bufferLength =>
    cases items with
    | nil =>
      have hnum : c.num = 0 := h.num
      have hsame : c.channelOut bufferLength = c := by rw [Channel.channelOut, if_pos hnum]
      simp only [hsame]
      exact ⟨⟨[], h⟩, fun _ => trivial, fun _ => hsound⟩
    | cons x items =>
      have hbuffer : x.data.length ≤ bufferLength := hadm x.data (by rw [h.queued]; rfl)
      obtain ⟨hqueue, -, hinside, haborted⟩ := h.channelOut hbuffer
      refine ⟨⟨items, hqueue⟩, fun _ => trivial, fun _ => hqueue.sound_iff.mpr ?_⟩
      exact ⟨hinside.trans hsound.inside, haborted.trans hsound.running⟩

/-- **The channel is a queue exactly as long as every message fits** into the block. -/
theorem fifo_iff_eachStep_fits (config : ChannelConfig) (memory : ByteMemory) (ops : List Op)
    (hadm : EachStep step Admissible (new config memory) ops) :
    (∀ used, used <+: ops → (run step (new config memory) used).Sound) ↔
      EachStep step Fits (new config memory) ops := by
  have hqueue := new_queue config memory
  exact EachStep.forall_prefix_iff (f := step) (A := Admissible) (C := Fits)
    (I := fun c => ∃ items, c.Queue items) (Q := Sound)
    (fun _ _ ⟨_, h⟩ hsound hop _ => (h.step hsound hop).1)
    (fun _ _ ⟨_, h⟩ hsound hop => (h.step hsound hop).2)
    hadm ⟨[], hqueue⟩ (hqueue.sound_iff.mpr ⟨rfl, rfl⟩)

/-- Three messages, the second of which has no byte. -/
theorem fifo_three_messages :
    let c := new ⟨66000, 100, by decide, by decide⟩ fun _ => 255
    let ops : List Op := [.put [1, 2, 3], .put [], .take 8, .put [4], .take 0, .take 1, .take 1]
    EachStep step Admissible c ops ∧ EachStep step Fits c ops ∧
      (run step c (ops.take 4)).num = 2 ∧ (run step c ops).returned = [[1, 2, 3], [], [4]] ∧
      (run step c ops).Sound :=
  ⟨by decide, by decide, by decide, by decide,
    (fifo_iff_eachStep_fits _ _ _ (by decide)).mpr (by decide) _ (prefix_refl _)⟩

theorem step_config (op : Op) : (c.step op).config = c.config := by
  unfold step
  split_ifs
  · rfl
  · cases op with
    | put data =>
      simp only [channelIn]
      split_ifs <;> rfl
    | take bufferLength =>
      simp only [channelOut]
      split_ifs <;> rfl

/-- A message that is put twice into a new channel, where there is room for one only. -/
theorem overrun_put_twice (config : ChannelConfig) (memory : ByteMemory)
    (hlt : data.length < config.maxlen) (hsize : msize data < config.size - config.maxlen)
    (hroom : msize data ≤ config.size - channelHeader)
    (hlong : config.size - channelHeader < msize data + msize data) :
    (run step (new config memory) [.put data, .put data]).overrun = true := by
  let c := new config memory
  let c' : Channel := { c.put data with tail := c.tail + msize data }
  have hfirst : c.step (.put data) = c' := by
    have hrefuses : ¬ c.Refuses data := by simp [c, new, Refuses, Full]
    have hwrap : ¬ (c.head ≤ c.tail ∧ c.size ≤ c.tail + msize data) := by
      simp only [c, new, size]
      omega
    rw [show c.step (.put data) = c.channelIn data from rfl, channelIn,
      if_neg (show ¬ c.config.maxlen ≤ data.length from not_le.mpr hlt), if_neg hrefuses,
      if_neg hwrap]
  have hsecond : c'.step (.put data) = c'.channelIn data := by
    refine if_neg ?_
    simp only [c', c, put, new, room]
    simpa using hroom
  have hrefuses : ¬ c'.Refuses data := by simp [c', c, put, new, Refuses, Full]
  have hlt' : data.length < c'.config.maxlen := hlt
  rw [run_cons, run_cons, run_nil, hfirst, hsecond, (channelIn_flags hlt' hrefuses).1]
  rw [Bool.or_eq_true, decide_eq_true_iff]
  refine .inr ?_
  simp only [c', c, put, new, room]
  omega

/-- Two messages of 65529 bytes.  The first one ends in front of `size`, and the second one behind
the block. -/
theorem not_sound_two_messages :
    let c := new ⟨131067, 65530, by decide, by decide⟩ fun _ => 0
    let data := List.replicate 65529 0
    EachStep step Admissible c [.put data, .put data] ∧
      ¬ (run step c [.put data, .put data]).Sound := by
  intro c data
  have hlen : data.length = 65529 := length_replicate
  have hlt : data.length < 65530 := by omega
  refine ⟨⟨hlt, ?_, trivial⟩, fun hsound => ?_⟩
  · show data.length < (c.step (.put data)).config.maxlen
    rw [step_config]
    exact hlt
  · have hover : (run step c [.put data, .put data]).overrun = true := by
      refine overrun_put_twice _ _ hlt ?_ ?_ ?_
      all_goals
        simp only [msize, hlen, channelHeader]
        decide
    exact absurd (hsound.inside.symm.trans hover) Bool.false_ne_true

/-! ## The end of the block -/

/-- A message that leaves room for the records of the channel and for its own length. -/
def Short (maxlen : ℕ) : Op → Prop
  | .put data => data.length + 3 + channelHeader ≤ maxlen
  | .take _ => True

instance (maxlen : ℕ) (op : Op) : Decidable (Short maxlen op) := by
  unfold Short
  split <;> infer_instance

/-- Both offsets are in front of `size`, and the memory behind the block is what it was. -/
structure InBlock (config : ChannelConfig) (memory : ByteMemory) (c : Channel) : Prop where
  config_eq : c.config = config
  head_lt : c.head < c.size
  tail_lt : c.tail < c.size
  inside : c.overrun = false
  outside : ∀ a, c.room ≤ a → c.memory a = memory a

section InBlock

variable {config : ChannelConfig} {memory : ByteMemory} (h : InBlock config memory c)
include h

/-- The room that is kept behind `size` is enough for a short message that begins in front. -/
theorem InBlock.put_le (hshort : data.length + 3 + channelHeader ≤ config.maxlen) :
    c.tail + msize data ≤ c.room := by
  have htail := h.tail_lt
  have hmin := config.min_lt
  simp only [size, room, msize, h.config_eq] at *
  omega

theorem InBlock.put (hle : c.tail + msize data ≤ c.room) {tail : ℕ} {tailTag : Bool}
    (htail : tail < c.size) :
    InBlock config memory { c.put data with tail := tail, tailTag := tailTag } := by
  refine ⟨h.config_eq, h.head_lt, htail, ?_, fun a ha => ?_⟩
  · simp [Channel.put, h.inside, hle]
  · have hend : c.tail + 4 + data.length ≤ a := by
      rw [add_assoc]
      exact hle.trans ha
    show ((c.memory.storeNat c.tail 4 data.length).store (c.tail + 4) data) a = memory a
    rw [ByteMemory.store_of_outside (.inr hend), ByteMemory.storeNat,
      ByteMemory.store_of_outside (.inr (by rw [LittleEndian.length_bytes]; omega))]
    exact h.outside a ha

/-- **One call with a short message.** -/
theorem InBlock.step {op : Op} (hshort : Short config.maxlen op) :
    InBlock config memory (c.step op) := by
  unfold Channel.step
  split_ifs
  · exact h
  cases op with
  | put data =>
    have hle := h.put_le hshort
    have hhead := h.head_lt
    have hpos := h.tail_lt
    simp only [channelIn]
    split_ifs with hlong hrefuses hwrap
    -- a failed assertion, a full channel, and a tail that wraps
    · exact ⟨h.config_eq, h.head_lt, h.tail_lt, h.inside, h.outside⟩
    · exact h
    · exact h.put hle (by omega)
    · -- in front of the head the tail stays in front of it, and otherwise it has not wrapped
      refine h.put hle ?_
      simp only [Refuses, not_or, not_and, not_lt, not_le] at hrefuses hwrap
      by_cases hbehind : c.tail < c.head
      · have := hrefuses.2 hbehind
        omega
      · exact hwrap (not_lt.mp hbehind)
  | take bufferLength =>
    have hhead := h.head_lt
    simp only [channelOut]
    split_ifs with hempty hlong hwrap
    · exact h
    · exact ⟨h.config_eq, h.head_lt, h.tail_lt, h.inside, h.outside⟩
    · exact ⟨h.config_eq, (Nat.zero_le _).trans_lt hhead, h.tail_lt, h.inside, h.outside⟩
    · exact ⟨h.config_eq, not_le.mp hwrap, h.tail_lt, h.inside, h.outside⟩

end InBlock

/-- **The items stay inside of the block** if every message is at least 219 bytes shorter than
`maxlen`: no write leaves the block, and no byte behind it changes. -/
theorem inside_of_short (config : ChannelConfig) (memory : ByteMemory) (ops : List Op)
    (hshort : ∀ op ∈ ops, Short config.maxlen op) (used : List Op) (hused : used <+: ops) :
    (run step (new config memory) used).overrun = false ∧
      ∀ a, config.size - channelHeader ≤ a →
        (run step (new config memory) used).memory a = memory a := by
  have hnew : InBlock config memory (new config memory) := by
    have hmin := config.min_lt
    refine ⟨rfl, ?_, ?_, rfl, fun _ _ => rfl⟩
    all_goals
      simp only [new, size]
      omega
  have hrun := run_invariant_of_inputs (P := InBlock config memory)
    (B := Short config.maxlen) (fun _ _ hop h => h.step hop) used
    (fun op hop => hshort op (hused.subset hop)) hnew
  refine ⟨hrun.inside, fun a ha => hrun.outside a ?_⟩
  rw [room, hrun.config_eq]
  exact ha

/-- Three messages for a `maxlen` of 300. -/
theorem inside_three_messages :
    let config : ChannelConfig := ⟨66000, 300, by decide, by decide⟩
    let ops : List Op := [.put [1, 2, 3], .put [], .take 8, .put [4]]
    (run step (new config fun _ => 0) ops).overrun = false ∧
      ∀ a, config.size - channelHeader ≤ a → (run step (new config fun _ => 0) ops).memory a = 0 :=
  inside_of_short _ _ _ (by decide) _ prefix_rfl

/-- Two messages of 69990 bytes for a `maxlen` of 70000. -/
theorem not_inside_two_messages :
    let c := new ⟨140000, 70000, by decide, by decide⟩ fun _ => 0
    let data := replicate 69990 0
    data.length < c.config.maxlen ∧ (run step c [.put data, .put data]).overrun = true := by
  intro c data
  have hlen : data.length = 69990 := length_replicate
  have hlt : data.length < 70000 := by omega
  refine ⟨hlt, overrun_put_twice _ _ hlt ?_ ?_ ?_⟩
  all_goals
    simp only [msize, hlen, channelHeader]
    decide

end Channel

end Swoole
