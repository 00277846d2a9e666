import Swoole.Library.Pieces
import Swoole.Network.Datagram

/-!
# Datagrams are delivered

A datagram of a UDP port goes to its worker as `wire`, a header that says how many bytes
follow and the payload, cut into pieces.  `Lane` is what holds between a thread and a worker:
the tasks on the way are pieces that follow one another, the merge buffer holds what came
before them of their datagram, and the datagrams given to the worker are those whose packet
was delivered, those that end in a task on the way, and the one the thread is at.

A datagram of a unix port is different.  Its `pkt.length` counts the path, and `send_n` adds
`header_size`, which counts the path as well.  So `swReactorThread_onPackage` sends as many
bytes too many as the path is long, which the worker takes for the beginning of the next
datagram.
-/

open Function List LittleEndian

namespace Swoole

open Pieces

/-! ## The datagram -/

namespace Datagram

/-- A datagram from a UDP port that is passed on, and not cut off. -/
structure Plain (d : Datagram) : Prop where
  type : d.type ≠ .unixDgram
  pos : 0 < d.payload.length
  le : d.payload.length ≤ bufferSizeUdp

/-- What the worker is to receive. -/
def wire (d : Datagram) : Bytes := d.header ++ d.received

variable {d : Datagram}

theorem length_addr (d : Datagram) : d.addr.length = 16 := by
  unfold addr
  cases d.source <;> simp

theorem length_header (d : Datagram) : d.header.length = dgramPacketSize := by
  simp [header, length_addr, dgramPacketSize]

variable (h : d.Plain)
include h

theorem Plain.path_eq : d.path = [] := by
  have htype := h.type
  unfold Datagram.type at htype
  unfold path
  cases hsource : d.source with
  | v4 address port => rfl
  | v6 address port => rfl
  | un path short =>
    rw [hsource] at htype
    exact absurd rfl htype

theorem Plain.received_eq : d.received = d.payload :=
  take_of_length_le h.le

theorem Plain.length_eq : d.length = d.payload.length := by
  rw [Datagram.length, h.path_eq, h.received_eq, length_nil, add_zero]

theorem Plain.headerSize_eq : d.headerSize = dgramPacketSize := by
  rw [headerSize, h.path_eq, length_nil, add_zero]

theorem Plain.length_wire : d.wire.length = d.length + dgramPacketSize := by
  rw [wire, length_append, length_header, h.received_eq, h.length_eq, add_comm]

theorem Plain.length_lt : d.length < 2 ^ 30 - dgramPacketSize := by
  rw [h.length_eq]
  exact lt_of_le_of_lt h.le (by decide)

omit h

theorem le_firstLen (d : Datagram) : dgramPacketSize ≤ d.firstLen := by
  unfold firstLen
  split
  · decide
  · exact Nat.le_add_left _ _

/-- A read inside the part of `packet` that was received. -/
theorem cells_of_le {start count : ℕ} (h : start + count ≤ d.received.length) :
    d.cells start count = (d.received.drop start).take count := by
  refine ext_getElem ?_ fun i hi _ => ?_
  · simp only [cells, length_map, length_range, length_take, length_drop]
    omega
  · simp only [cells, length_map, length_range] at hi
    simp [cells, show start + i < d.received.length by omega]

theorem length_bytes_of_take {stop : ℕ} (hstop : dgramPacketSize ≤ stop) :
    ((d.wire.take stop).drop 20).take 4 = bytes 4 d.length := by
  unfold dgramPacketSize at hstop
  have hfront : (d.addr ++ bytes 2 d.port ++ [d.unset 18, d.unset 19]).length = 20 := by
    simp [length_addr]
  rw [drop_take, take_take, min_eq_left (by omega), wire, header,
    append_assoc _ (bytes 4 d.length), ← hfront, drop_left,
    take_left' (length_bytes 4 d.length)]

end Datagram

/-! ## The chunks -/

namespace DgramSend

variable {x y : DgramSend}

/-- How much of `wire` has been sent. -/
def position (x : DgramSend) : ℕ := if x.started then dgramPacketSize + x.offset else 0

/-- The counters of `swReactorThread_onPackage` agree. -/
structure Sound (x : DgramSend) : Prop where
  plain : x.datagram.Plain
  pos : 0 < x.sendN
  sum : x.position + x.sendN = x.datagram.wire.length

theorem sound_new {d : Datagram} (h : d.Plain) : Sound ⟨d, false, d.sendN, 0⟩ where
  plain := h
  pos := by
    have hpos := h.pos
    show 0 < d.length + d.headerSize
    rw [h.length_eq]
    omega
  sum := by
    show 0 + (d.length + d.headerSize) = d.wire.length
    rw [h.length_wire, h.headerSize_eq, zero_add]

theorem header_le (x : DgramSend) : dgramPacketSize ≤ x.position + x.len := by
  unfold position
  cases hstarted : x.started with
  | true =>
    simp only [if_true]
    omega
  | false =>
    have hlen : x.len = x.datagram.firstLen := by
      rw [len, hstarted]
      rfl
    have hle := x.datagram.le_firstLen
    omega

variable (h : x.Sound)

include h

theorem Sound.len_eq : x.len = min bufferSize x.sendN := by
  unfold len
  cases hstarted : x.started with
  | true =>
    simp only [if_true]
    split <;> omega
  | false =>
    have hsum := h.sum
    rw [position, hstarted, h.plain.length_wire] at hsum
    have hsize : dgramPacketSize ≤ bufferSize := by decide
    simp only [Bool.false_eq_true, if_false, Datagram.firstLen] at hsum ⊢
    split <;> omega

theorem Sound.len_pos : 0 < x.len := by
  have hpos := h.pos
  have hsize : 0 < bufferSize := by decide
  rw [h.len_eq]
  omega

theorem Sound.len_le : x.position + x.len ≤ x.datagram.wire.length := by
  have hsum := h.sum
  rw [h.len_eq]
  omega

/-- A chunk is the next part of `wire`. -/
theorem Sound.data_eq : x.data = (x.datagram.wire.drop x.position).take x.len := by
  have hle := h.len_le
  unfold data
  cases hstarted : x.started with
  | true =>
    rw [position, hstarted] at hle
    rw [position, hstarted]
    simp only [if_true] at hle ⊢
    rw [h.plain.length_wire, h.plain.length_eq, ← h.plain.received_eq] at hle
    rw [Datagram.cells_of_le (by omega), Datagram.wire, ← drop_drop,
      ← x.datagram.length_header, drop_left]
  | false =>
    have hlen : x.len = x.datagram.firstLen := by
      rw [len, hstarted]
      rfl
    rw [position, hstarted, h.plain.length_wire, h.plain.length_eq, ← h.plain.received_eq] at hle
    rw [position, hstarted]
    simp only [Bool.false_eq_true, if_false] at hle ⊢
    rw [drop_zero, Datagram.first, h.plain.path_eq, append_nil,
      h.plain.headerSize_eq, Datagram.cells_of_le (by omega), drop_zero, hlen,
      Datagram.wire, take_append, Datagram.length_header,
      @List.take_of_length_le _ _ x.datagram.header
        (by rw [Datagram.length_header]; exact x.datagram.le_firstLen)]

/-- The chunk as a piece of `wire`. -/
def Sound.piece : Piece Datagram UInt8 where
  tag := x.datagram
  message := x.datagram.wire
  start := x.position
  stop := x.position + x.len
  start_lt := Nat.lt_add_of_pos_right h.len_pos
  stop_le := h.len_le

theorem Sound.advance (hy : x.advance = some y) :
    y.Sound ∧ y.datagram = x.datagram ∧ y.started = true ∧ y.position = x.position + x.len := by
  have hsum := h.sum
  have hlen := h.len_eq
  have hposition : dgramPacketSize +
      (if x.started then x.offset + x.len else bufferSize - x.datagram.headerSize) =
        x.position + x.len ∨ x.sendN - x.len = 0 := by
    unfold position
    cases hstarted : x.started with
    | true =>
      left
      simp only [if_true]
      omega
    | false =>
      have hsize : dgramPacketSize ≤ bufferSize := by decide
      simp only [Bool.false_eq_true, if_false]
      rw [h.plain.headerSize_eq]
      omega
  unfold DgramSend.advance at hy
  by_cases hleft : x.sendN - x.len = 0
  · rw [if_pos hleft] at hy
    cases hy
  · rw [if_neg hleft] at hy
    obtain rfl := Option.some.inj hy
    have heq := hposition.resolve_right hleft
    refine ⟨⟨h.plain, by show 0 < x.sendN - x.len; omega, ?_⟩, rfl, rfl, heq⟩
    show dgramPacketSize +
      (if x.started then x.offset + x.len else bufferSize - x.datagram.headerSize) +
        (x.sendN - x.len) = x.datagram.wire.length
    omega

theorem Sound.advance_none : x.advance = none ↔ x.position + x.len = x.datagram.wire.length := by
  have hsum := h.sum
  have hlen := h.len_eq
  unfold DgramSend.advance
  split_ifs with hleft
  · exact ⟨fun _ => by omega, fun _ => rfl⟩
  · exact ⟨nofun, fun heq => by omega⟩

end DgramSend

/-! ## One thread and one worker -/

namespace DgramServer

open StepRun
open Datagram (header packet port type wire)

/-- A piece of a datagram, its header with it or gone before it. -/
structure Of (p : Piece Datagram UInt8) : Prop where
  plain : p.tag.Plain
  message_eq : p.message = p.tag.wire
  header_le : dgramPacketSize ≤ p.stop

/-- The task that carries a piece. -/
def taskOf (thread : ℕ) (p : Piece Datagram UInt8) : DgramTask :=
  ⟨p.tag.type, p.tag.fromFd % 2 ^ 8, thread, p.content⟩

/-- What the merge buffer holds at a cursor. -/
def Merged (package : SwString) : Cursor Datagram UInt8 → Prop
  | none => package.data = [] ∧ package.offset = 0
  | some p => package.data = p.message.take p.stop ∧ package.offset = p.tag.length

/-- The datagram that a thread is sending to a worker and has begun with. -/
def underway (th : DgramThread) (worker : ℕ) : Option DgramSend :=
  th.sending.filter fun x => x.started && decide (th.targetWorker = some worker)

/-- Where a thread has led its chunks to. -/
def Reaches (c : Cursor Datagram UInt8) : Option DgramSend → Prop
  | none => c = none
  | some x => ∃ p, c = some p ∧ p.tag = x.datagram ∧ p.message = x.datagram.wire ∧
      p.stop = x.position

/-- What holds between a thread and a worker.  The worker has merged everything up to the
cursor `c`, the tasks `tasks` of the thread carry the pieces `ps`, which lead to the cursor
`c'` of the thread, and `done` are the datagrams whose packet was delivered. -/
structure Lane (thread : ℕ) (tasks : List DgramTask) (package : SwString) (packets : List Packet)
    (sending : Option DgramSend) (assigned : List Datagram) (c : Cursor Datagram UInt8)
    (ps : List (Piece Datagram UInt8)) (c' : Cursor Datagram UInt8) (done : List Datagram) :
    Prop where
  tasks_eq : tasks = ps.map (taskOf thread)
  pieces : ∀ p ∈ ps, Of p
  linked : Linked c ps c'
  merged : Merged package c
  reaches : Reaches c' sending
  assigned_eq : assigned = done ++ finished ps ++ c'.toList.map Piece.tag
  packets_eq : packets = done.map packet

variable {thread worker : ℕ} {tasks : List DgramTask} {package : SwString}
  {packets : List Packet} {sending : Option DgramSend} {assigned : List Datagram}
  {c c' : Cursor Datagram UInt8} {ps : List (Piece Datagram UInt8)} {done : List Datagram}

theorem Lane.send {x : DgramSend} (hx : x.Sound)
    (h : Lane thread tasks package packets (if x.started then some x else none) assigned c ps c'
      done) :
    Lane thread (tasks ++ [x.task thread]) package packets x.advance
      (if x.started then assigned else assigned ++ [x.datagram]) c (ps ++ [hx.piece])
      hx.piece.next done := by
  have htask : x.task thread = taskOf thread hx.piece := by
    have hcontent : hx.piece.content = x.data := by
      rw [hx.data_eq]
      show (x.datagram.wire.drop x.position).take (x.position + x.len - x.position) = _
      rw [Nat.add_sub_cancel_left]
    rw [taskOf, hcontent]
    rfl
  obtain ⟨hfollows, hassigned⟩ : Follows c' hx.piece ∧
      (if x.started then assigned else assigned ++ [x.datagram]) =
        done ++ (finished ps ++ [x.datagram]) := by
    have hreaches := h.reaches
    rw [h.assigned_eq]
    cases hstarted : x.started with
    | true =>
      rw [hstarted] at hreaches
      obtain ⟨p, rfl, htag, hmessage, hstop⟩ := hreaches
      exact ⟨⟨htag.symm, hmessage.symm, hstop.symm⟩, by simp [htag]⟩
    | false =>
      rw [hstarted] at hreaches
      obtain rfl : c' = none := hreaches
      refine ⟨?_, by simp⟩
      show x.position = 0
      rw [DgramSend.position, hstarted]
      rfl
  refine ⟨?_, ?_, h.linked.concat hfollows, h.merged, ?_, ?_, h.packets_eq⟩
  · rw [h.tasks_eq, htask, map_append]
    rfl
  · exact forall_mem_append.mpr
      ⟨h.pieces, forall_mem_singleton.mpr ⟨hx.plain, rfl, x.header_le⟩⟩
  · cases hadvance : x.advance with
    | none =>
      have hlast : hx.piece.stop = hx.piece.message.length := hx.advance_none.mp hadvance
      rw [Piece.next, if_pos hlast]
      rfl
    | some y =>
      obtain ⟨-, hdatagram, -, hposition⟩ := hx.advance hadvance
      have hmore : hx.piece.stop ≠ hx.piece.message.length := by
        intro hlast
        rw [hx.advance_none.mpr hlast] at hadvance
        cases hadvance
      rw [Piece.next, if_neg hmore]
      exact ⟨hx.piece, rfl, hdatagram.symm, by rw [hdatagram]; rfl, hposition.symm⟩
  · rw [hassigned, append_assoc, finished_concat_next]
    rfl

variable {d : Datagram}

theorem headerLength_of_take (hd : d.Plain) {stop : ℕ} (hdata : package.data = d.wire.take stop)
    (hheader : dgramPacketSize ≤ stop) (hstop : stop ≤ d.wire.length) :
    headerLength package = d.length := by
  have hle : 20 + 4 ≤ package.data.length := by
    rw [hdata, length_take, min_eq_left hstop]
    exact hheader
  have hlt := hd.length_lt
  rw [headerLength, package.cells_of_le hle, hdata, Datagram.length_bytes_of_take hheader,
    value_bytes (by omega)]

variable {q : Piece Datagram UInt8}

theorem merge_of_follows (cfg : DgramSettings) (hq : Of q)
    (hmerged : Merged package c) (hfollows : Follows c q) :
    ∃ package', merge cfg package q.content = some package' ∧
      package'.data = q.message.take q.stop ∧ package'.offset = q.tag.length := by
  have hbefore : package.data = q.message.take q.start ∧
      (package.offset = 0 ∨ package.offset = q.tag.length) := by
    cases c with
    | none =>
      have hstart : q.start = 0 := hfollows
      rw [hstart, take_zero]
      exact ⟨hmerged.1, .inl hmerged.2⟩
    | some p =>
      obtain ⟨htag, hmessage, hstart⟩ := hfollows
      rw [htag, hmessage, hstart]
      exact ⟨hmerged.1, .inr hmerged.2⟩
  obtain ⟨hdata, hoffset⟩ := hbefore
  have happend : package.data ++ q.content = q.message.take q.stop := by
    rw [hdata, prefix_append_content]
  have hlen := congrArg length happend
  rw [length_append, length_take, min_eq_left q.stop_le] at hlen
  have hsmall : q.stop < 2 ^ 30 := by
    have hle := q.stop_le
    have hlt := hq.plain.length_lt
    rw [hq.message_eq, hq.plain.length_wire] at hle
    omega
  obtain ⟨b, heq, hb, hboffset⟩ := @SwString.appendPtr_of_short package cfg.pagesize q.content
    (by rw [hlen]; exact hsmall) cfg.pagesize_lt
  rw [happend] at hb
  have hheader : headerLength b = q.tag.length :=
    headerLength_of_take hq.plain (by rw [hb, hq.message_eq]) hq.header_le
      (by rw [← hq.message_eq]; exact q.stop_le)
  simp only [merge, heq, Option.map_some]
  refine ⟨_, rfl, ?_⟩
  split_ifs with hzero
  · exact ⟨hb, hheader⟩
  · refine ⟨hb, ?_⟩
    rw [hboffset] at hzero ⊢
    exact hoffset.resolve_left hzero

theorem complete_iff (hq : Of q) (hdata : package.data = q.message.take q.stop)
    (hoffset : package.offset = q.tag.length) : Complete package ↔ q.stop = q.message.length := by
  have hle := q.stop_le
  have hheader := hq.header_le
  have hlt := hq.plain.length_lt
  have hlen := hq.plain.length_wire
  rw [← hq.message_eq] at hlen
  have hsize : toSizeT (package.data.length - dgramPacketSize : ℤ) = q.stop - dgramPacketSize := by
    rw [hdata, length_take, min_eq_left hle]
    unfold toSizeT
    omega
  rw [Complete, hoffset, hsize]
  omega

/-- `onPacket` finds the datagram in the merge buffer. -/
theorem onPacket_of_wire (hd : d.Plain) (hdata : package.data = d.wire) {task : DgramTask}
    (htype : task.type = d.type) (hfd : task.fromFd = d.fromFd % 2 ^ 8) :
    onPacket package task = d.packet := by
  have hwire : d.wire = d.addr ++ (bytes 2 d.port ++
      ([d.unset 18, d.unset 19] ++ (bytes 4 d.length ++ d.received))) := by
    simp [wire, header]
  have hsize := hd.length_wire
  have hlen : headerLength package = d.length :=
    headerLength_of_take hd (hdata.trans take_length.symm) (by omega) le_rfl
  have hcells : ∀ i n, i + n ≤ d.length + dgramPacketSize →
      package.cells i n = (d.wire.drop i).take n := by
    intro i n hle
    rw [package.cells_of_le (by rw [hdata, hsize]; exact hle), hdata]
  have hpayload : package.cells dgramPacketSize d.length = d.payload := by
    rw [hcells _ _ (by omega), wire, drop_left' d.length_header, hd.received_eq,
      hd.length_eq, take_length]
  have hport : value (package.cells 16 2) = d.port := by
    have hlt : d.port < 2 ^ (8 * 2) := by
      unfold port
      split
      · exact UInt16.toNat_lt _
      · exact UInt16.toNat_lt _
      · decide
    rw [hcells _ _ (by unfold dgramPacketSize; omega), hwire, drop_left' d.length_addr,
      take_left' (length_bytes 2 d.port), value_bytes hlt]
  have haddr : ∀ n, n ≤ 16 → package.cells 0 n = d.addr.take n := by
    intro n hn
    rw [hcells _ _ (by unfold dgramPacketSize; omega), hwire, drop_zero,
      take_append_of_le_length (by rw [d.length_addr]; exact hn)]
  simp only [onPacket, hlen, hpayload, hport, htype, hfd, packet]
  cases hsource : d.source with
  | v4 address port =>
    have htype : d.type = .udp := by rw [type, hsource]
    have haddress : d.address = package.cells 0 4 := by
      rw [haddr 4 (by omega), Datagram.address, Datagram.addr, hsource]
      simp
    rw [htype, haddress]
  | v6 address port =>
    have htype : d.type = .udp6 := by rw [type, hsource]
    have haddress : d.address = package.cells 0 16 := by
      rw [haddr 16 le_rfl, Datagram.address, Datagram.addr, hsource]
      simp
    rw [htype, haddress]
  | un path short =>
    exact absurd (by rw [type, hsource]) hd.type

theorem Lane.task (cfg : DgramSettings) {task : DgramTask}
    (h : Lane thread (task :: tasks) package packets sending assigned c ps c' done) :
    ∃ package', merge cfg package task.data = some package' ∧
      ((Complete package' ∧ ∃ ps' done',
          Lane thread tasks package'.clear (packets ++ [onPacket package' task]) sending assigned
            none ps' c' done') ∨
        (¬ Complete package' ∧ ∃ c₁ ps',
          Lane thread tasks package' packets sending assigned c₁ ps' c' done)) := by
  cases ps with
  | nil => cases h.tasks_eq
  | cons q ps' =>
    obtain ⟨htask, htasks⟩ := cons.inj h.tasks_eq
    have hq := h.pieces q mem_cons_self
    have hpieces : ∀ p ∈ ps', Of p := fun p hp => h.pieces p (mem_cons_of_mem q hp)
    obtain ⟨hfollows, hlinked⟩ := h.linked
    obtain ⟨package', hmerge, hdata, hoffset⟩ := merge_of_follows cfg hq h.merged hfollows
    have hcomplete := complete_iff hq hdata hoffset
    have hassigned := h.assigned_eq
    rw [finished_cons] at hassigned
    rw [Piece.next] at hlinked
    refine ⟨package', by rw [htask]; exact hmerge, ?_⟩
    by_cases hlast : q.stop = q.message.length
    · rw [if_pos hlast] at hassigned hlinked
      have hwire : package'.data = q.tag.wire := by
        rw [hdata, hlast, take_length, hq.message_eq]
      have hpacket : onPacket package' task = q.tag.packet :=
        onPacket_of_wire hq.plain hwire (by rw [htask]; rfl) (by rw [htask]; rfl)
      refine .inl ⟨hcomplete.mpr hlast, ps', done ++ [q.tag], htasks, hpieces, hlinked,
        ⟨rfl, rfl⟩, h.reaches, ?_, ?_⟩
      · rw [hassigned]
        simp
      · rw [hpacket, h.packets_eq, map_append]
        rfl
    · rw [if_neg hlast] at hassigned hlinked
      exact .inr ⟨fun hc => hlast (hcomplete.mp hc), some q, ps', htasks, hpieces, hlinked,
        ⟨hdata, hoffset⟩, h.reaches, hassigned, h.packets_eq⟩

/-! ## The server -/

/-- What holds for a thread. -/
structure ThreadInv (th : DgramThread) : Prop where
  sound : ∀ x ∈ th.sending, x.Sound
  target : ∀ x ∈ th.sending, x.started = true → th.targetWorker.isSome = true
  arrived : th.arrived = th.assigned.map Prod.snd ++
    (th.sending.toList.filter (!·.started)).map (·.datagram)

structure Inv (s : DgramServer) : Prop where
  running : ∀ worker, s.aborted worker = false
  threads : ∀ thread, ThreadInv (s.threads thread)
  lanes : ∀ worker thread, ∃ c ps c' done,
    Lane thread ((s.queues worker).filter (·.fromId = thread)) (s.buffers worker thread)
      (s.packets worker thread) (underway (s.threads thread) worker) (s.assignedTo worker thread)
      c ps c' done

variable {s : DgramServer} {cfg : DgramSettings}

theorem inv_initial (cfg : DgramSettings) (fresh : ℕ → UInt8) : Inv (initial cfg fresh) where
  running := fun _ => rfl
  threads := fun _ => ⟨nofun, nofun, rfl⟩
  lanes := fun _ _ => ⟨none, [], none, [], rfl, nofun, rfl, ⟨rfl, rfl⟩, rfl, rfl, rfl⟩

theorem Inv.delivered (h : s.Inv) : s.Delivered where
  assigned := fun thread => (h.threads thread).arrived
  packets := fun worker thread => by
    obtain ⟨c, ps, c', done, hlane⟩ := h.lanes worker thread
    rw [hlane.packets_eq, hlane.assigned_eq, append_assoc, map_append]
    exact prefix_append _ _
  settled := fun worker thread hsettled => by
    obtain ⟨c, ps, c', done, hlane⟩ := h.lanes worker thread
    have htasks : (s.queues worker).filter (·.fromId = thread) = [] :=
      filter_eq_nil_iff.mpr fun task htask => by simpa using hsettled.1 task htask
    have hunderway : underway (s.threads thread) worker = none := by
      rw [underway, Option.filter_eq_none_iff]
      intro x hx
      simpa using hsettled.2 x hx
    have hps : ps = [] := by
      have htasks' := hlane.tasks_eq
      rw [htasks] at htasks'
      exact map_eq_nil_iff.mp htasks'.symm
    have hreaches := hlane.reaches
    have hlinked := hlane.linked
    have hassigned := hlane.assigned_eq
    rw [hunderway] at hreaches
    obtain rfl : c' = none := hreaches
    subst hps
    obtain rfl : c = none := hlinked
    refine ⟨?_, hlane.merged.1⟩
    rw [hlane.packets_eq, hassigned]
    simp

theorem Inv.threads_setThread (h : s.Inv) {th : DgramThread} (hth : ThreadInv th) (thread t : ℕ) :
    ThreadInv ((s.setThread thread th).threads t) :=
  (forall_update_iff s.threads fun _ th => ThreadInv th).mpr ⟨hth, fun t _ => h.threads t⟩ t

theorem Inv.receive (h : s.Inv) (hd : d.Plain) (thread : ℕ) : (s.receive thread d).Inv := by
  unfold DgramServer.receive
  dsimp only
  split
  case h_1 => exact h
  case h_2 hidle =>
    have hpos : 0 < d.received.length := by
      rw [hd.received_eq]
      exact hd.pos
    rw [if_pos hpos]
    have hold := h.threads thread
    refine ⟨h.running, h.threads_setThread ⟨?_, ?_, ?_⟩ thread, fun worker t => ?_⟩
    · rintro x ⟨⟩
      exact DgramSend.sound_new hd
    · rintro x ⟨⟩ hstarted
      cases hstarted
    · rw [hold.arrived, hidle]
      simp
    · obtain ⟨c, ps, c', done, hlane⟩ := h.lanes worker t
      refine ⟨c, ps, c', done, ?_⟩
      by_cases ht : t = thread
      · subst ht
        have hunderway : underway (s.threads t) worker = none := by
          rw [underway, hidle]
          rfl
        rw [hunderway] at hlane
        simpa [setThread, assignedTo, underway, Option.filter] using hlane
      · simpa [setThread, assignedTo, update_of_ne ht] using hlane

/-- The thread behind a chunk that was sent to `target`. -/
def sentThread (th : DgramThread) (x : DgramSend) (target : ℕ) : DgramThread :=
  { th with
    sending := x.advance
    targetWorker := if x.advance.isSome then some target else none
    assigned := if x.started then th.assigned else th.assigned ++ [(target, x.datagram)] }

section Sending

variable {th : DgramThread} {x : DgramSend} {target : ℕ}

theorem ThreadInv.sent (h : ThreadInv th) (hx : th.sending = some x) :
    ThreadInv (sentThread th x target) := by
  have hsound := h.sound x hx
  refine ⟨fun y hy => (hsound.advance hy).1, fun y hy _ => ?_, ?_⟩
  · have hsome : x.advance.isSome = true := Option.isSome_iff_exists.mpr ⟨y, hy⟩
    simp only [sentThread, hsome, if_true, Option.isSome_some]
  · have harrived := h.arrived
    have hnext : x.advance.toList.filter (!·.started) = [] := by
      cases hadvance : x.advance with
      | none => rfl
      | some y => simp [(hsound.advance hadvance).2.2.1]
    simp only [sentThread, hnext]
    rw [harrived, hx]
    cases hstarted : x.started <;> simp [hstarted]

theorem ThreadInv.underway_eq (h : ThreadInv th) (hx : th.sending = some x)
    (scheduled worker : ℕ) : underway th worker =
      if x.started ∧ worker = th.targetWorker.getD scheduled then some x else none := by
  rw [underway, hx]
  cases hstarted : x.started with
  | false => simp [Option.filter, hstarted]
  | true =>
    obtain ⟨target, htarget⟩ := Option.isSome_iff_exists.mp (h.target x hx hstarted)
    simp [Option.filter, hstarted, htarget, eq_comm]

theorem underway_sent (hx : x.Sound) (worker : ℕ) :
    underway (sentThread th x target) worker = if target = worker then x.advance else none := by
  cases hadvance : x.advance with
  | none => simp [underway, sentThread, hadvance]
  | some y =>
    have hstarted := (hx.advance hadvance).2.2.1
    simp [underway, sentThread, hadvance, Option.filter, hstarted]

end Sending

theorem Inv.dispatch (h : s.Inv) (thread scheduled : ℕ) :
    (s.dispatch thread scheduled true).Inv := by
  unfold DgramServer.dispatch
  dsimp only
  split
  case h_1 => exact h
  case h_2 x hx =>
    have hthread := h.threads thread
    have hsound := hthread.sound x hx
    rw [if_pos rfl]
    generalize htarget : (s.threads thread).targetWorker.getD scheduled = target
    refine ⟨h.running, h.threads_setThread (hthread.sent hx) thread, fun worker t => ?_⟩
    obtain ⟨c, ps, c', done, hlane⟩ := h.lanes worker t
    by_cases ht : t = thread
    · subst ht
      have hsent := @underway_sent (s.threads t) x target hsound worker
      by_cases hworker : worker = target
      · subst hworker
        have hunderway : underway (s.threads t) worker = if x.started then some x else none := by
          simp [hthread.underway_eq hx scheduled worker, htarget]
        rw [hunderway] at hlane
        have hsend := hlane.send hsound
        rw [if_pos rfl] at hsent
        rw [← hsent] at hsend
        refine ⟨c, ps ++ [hsound.piece], hsound.piece.next, done, ?_⟩
        have hassigned : ((if x.started = true then (s.threads t).assigned
            else (s.threads t).assigned ++ [(worker, x.datagram)]).filter (·.1 = worker)).map
              Prod.snd =
            if x.started then s.assignedTo worker t else s.assignedTo worker t ++ [x.datagram] := by
          cases x.started <;> simp [assignedTo]
        have hown : [x.task t].filter (·.fromId = t) = [x.task t] := by simp [DgramSend.task]
        simp only [setThread, assignedTo, update_self, filter_append, hassigned, hown]
        exact hsend
      · have hunderway : underway (s.threads t) worker = none := by
          simp [hthread.underway_eq hx scheduled worker, htarget, hworker]
        have hassigned : ((if x.started = true then (s.threads t).assigned
            else (s.threads t).assigned ++ [(target, x.datagram)]).filter (·.1 = worker)).map
              Prod.snd = s.assignedTo worker t := by
          cases x.started <;> simp [assignedTo, Ne.symm hworker]
        rw [if_neg (Ne.symm hworker)] at hsent
        rw [hunderway, ← hsent] at hlane
        refine ⟨c, ps, c', done, ?_⟩
        simp only [setThread, assignedTo, update_self, update_of_ne hworker, hassigned]
        exact hlane
    · have hqueue : ((update s.queues target (s.queues target ++ [x.task thread]))
          worker).filter (·.fromId = t) = (s.queues worker).filter (·.fromId = t) := by
        by_cases hworker : worker = target
        · subst hworker
          simp [DgramSend.task, Ne.symm ht]
        · rw [update_of_ne hworker]
      refine ⟨c, ps, c', done, ?_⟩
      simp only [setThread, assignedTo, update_of_ne ht, hqueue]
      exact hlane

variable {rest : List DgramTask}

/-- A task is off the queue, and the lane of its thread is in order again. -/
theorem Inv.taken (h : s.Inv) {task : DgramTask}
    (hqueue : s.queues worker = task :: rest)
    (hlane : ∃ c ps c' done, Lane task.fromId (rest.filter (·.fromId = task.fromId)) package packets
        (underway (s.threads task.fromId) worker) (s.assignedTo worker task.fromId) c ps c' done) :
    Inv
      { s with
        queues := update s.queues worker rest
        buffers := update s.buffers worker
          (update (s.buffers worker) task.fromId package)
        packets := update s.packets worker
          (update (s.packets worker) task.fromId packets) } := by
  refine ⟨h.running, h.threads, fun w t => ?_⟩
  obtain ⟨c, ps, c', done, hold⟩ := h.lanes w t
  by_cases hw : w = worker
  · subst hw
    by_cases ht : t = task.fromId
    · subst ht
      simp only [update_self]
      exact hlane
    · rw [hqueue, filter_cons_of_neg (by simpa using Ne.symm ht)] at hold
      simp only [update_self, update_of_ne ht]
      exact ⟨c, ps, c', done, hold⟩
  · simp only [update_of_ne hw]
    exact ⟨c, ps, c', done, hold⟩

theorem Inv.task (h : s.Inv) {task : DgramTask}
    (hqueue : s.queues worker = task :: rest) :
    ({ s with queues := update s.queues worker rest }.onTask cfg worker task).Inv := by
  obtain ⟨c, ps, c', done, hlane⟩ := h.lanes worker task.fromId
  rw [hqueue, filter_cons_of_pos (by simp)] at hlane
  obtain ⟨package, hmerge, ⟨hcomplete, ps', done', hlane'⟩ | ⟨hmore, c₁, ps', hlane'⟩⟩ :=
    hlane.task cfg
  · have htaken := h.taken hqueue ⟨none, ps', c', done', hlane'⟩
    rw [onTask, hmerge, onMerged, if_pos hcomplete]
    exact htaken
  · have htaken := h.taken hqueue ⟨c₁, ps', c', done, hlane'⟩
    rw [update_eq_self, update_eq_self] at htaken
    rw [onTask, hmerge, onMerged, if_neg hmore]
    exact htaken

/-- **The step lemma.** -/
theorem Inv.step (h : s.Inv) {event : Event} (hevent : Deliverable event) :
    (step cfg s event).Inv := by
  cases event with
  | receive thread d => exact h.receive ⟨hevent.1, hevent.2.1, hevent.2.2⟩ thread
  | chunk thread scheduled written =>
    obtain rfl : written = true := hevent
    exact h.dispatch thread scheduled
  | task worker =>
    simp only [DgramServer.step, h.running worker, Bool.false_eq_true, if_false]
    split
    case h_1 => exact h
    case h_2 task rest hqueue => exact h.task hqueue

/-- **Datagrams are delivered.**  Take any interleaving of datagrams, dispatches and tasks of
any number of threads and workers.  If all datagrams come from UDP ports and have a payload
that is not cut off, and the pipes take every message, then in every state of the run the
datagrams are delivered. -/
theorem delivered_run (cfg : DgramSettings) (fresh : ℕ → UInt8) (events : List Event)
    (h : ∀ event ∈ events, Deliverable event) :
    ∀ used, used <+: events → (run (step cfg) (initial cfg fresh) used).Delivered := by
  intro used hpre
  have hinv := run_invariant_of_inputs (f := step cfg) (P := Inv) (B := Deliverable)
    (fun _ _ hevent hs => hs.step hevent) used
    (fun event hevent => h event (hpre.subset hevent)) (inv_initial cfg fresh)
  exact hinv.delivered

/-- Pages of 4096 bytes, and merge buffers of `SW_BUFFER_SIZE_BIG`. -/
def usualSettings : DgramSettings := ⟨4096, bufferSizeBig, by decide⟩

/-- A datagram of two bytes from the unix socket `/a`. -/
def fromPath : Datagram :=
  ⟨4, .un ['/'.toUInt8, 'a'.toUInt8] (by decide), [104, 105], fun _ => 0, fun _ => 0⟩

/-- **A unix datagram leaves bytes behind.**  Nothing is on its way any more, but the merge
buffer holds the three bytes that were sent too many. -/
theorem not_delivered_unix :
    ¬ (run (step usualSettings) (initial usualSettings fun _ => 0)
      [.receive 0 fromPath, .chunk 0 0 true, .chunk 0 0 true, .task 0, .task 0]).Delivered := by
  intro h
  have hempty := (h.settled 0 0 ⟨by decide +kernel, by decide +kernel⟩).2
  exact absurd hempty (by decide +kernel)

def fromV4 : Datagram :=
  ⟨4, .v4 #v[127, 0, 0, 1] 9501, [104, 101, 121], fun _ => 0, fun _ => 0⟩

def fromV6 : Datagram :=
  ⟨5, .v6 (Vector.replicate 16 1) 9502, [104, 105], fun _ => 0, fun _ => 0⟩

/-- Two threads send to one worker at the same time. -/
def mixed : List Event :=
  [.receive 0 fromV4, .receive 1 fromV6, .chunk 1 0 true, .chunk 0 0 true, .task 0, .task 0]

theorem delivered_mixed :
    (run (step usualSettings) (initial usualSettings fun _ => 0) mixed).packets 0 0 =
        [fromV4.packet] ∧
      (run (step usualSettings) (initial usualSettings fun _ => 0) mixed).packets 0 1 =
        [fromV6.packet] ∧
      (run (step usualSettings) (initial usualSettings fun _ => 0) mixed).Delivered :=
  ⟨by decide +kernel, by decide +kernel,
    delivered_run usualSettings (fun _ => 0) mixed (by decide +kernel) mixed (prefix_refl _)⟩

end DgramServer

end Swoole
