import Mathlib.Data.Finset.Image
import Swoole.Network.TimerArming

/-!
# The agenda of a timer

For the program a timer is an id with a deadline, and the heap is a set of them.  `agenda` is
this set, and every operation of the timer is an operation on it: an add inserts a timer with
the next id, a delete and a pop erase one, and the callback of a timer replaces its own entry,
when it marks it for removal or when `swTimer_select` gives it the next deadline.  The array of
the heap, the heap nodes and the memory they are in do not show.

`Steady` is what every run keeps: besides the heap of `Base`, the ids of the pending timers are
distinct and below the next one, only the running timer can be marked, and the running timer is
on top of the heap.  For the last one it matters that no callback adds a timer that is due at
once.
-/

namespace Swoole

/-- The ids of the timers are distinct and have been given out. -/
structure Numbered (agenda : Finset TimerNode) (nextId : ℤ) : Prop where
  unique : ∀ m ∈ agenda, ∀ n ∈ agenda, m.id = n.id → m = n
  lt : ∀ n ∈ agenda, n.id < nextId

namespace Numbered

variable {agenda : Finset TimerNode} {nextId : ℤ} {m n : TimerNode} (h : Numbered agenda nextId)
include h

theorem insert_of_ne {bound : ℤ} (hne : ∀ x ∈ agenda, x.id ≠ n.id) (hn : n.id < bound)
    (hle : nextId ≤ bound) : Numbered (insert n agenda) bound where
  unique := by
    intro x hx y hy hid
    rcases Finset.mem_insert.mp hx with rfl | hx' <;>
      rcases Finset.mem_insert.mp hy with rfl | hy'
    · rfl
    · exact absurd hid.symm (hne y hy')
    · exact absurd hid (hne x hx')
    · exact h.unique x hx' y hy' hid
  lt := by
    intro x hx
    rcases Finset.mem_insert.mp hx with rfl | hx
    · exact hn
    · exact (h.lt x hx).trans_le hle

theorem insert (hn : n.id = nextId) : Numbered (insert n agenda) (nextId + 1) :=
  h.insert_of_ne (fun x hx => hn ▸ (h.lt x hx).ne) (by omega) (by omega)

theorem erase (m : TimerNode) : Numbered (agenda.erase m) nextId where
  unique := fun x hx y hy =>
    h.unique x (Finset.mem_of_mem_erase hx) y (Finset.mem_of_mem_erase hy)
  lt := fun x hx => h.lt x (Finset.mem_of_mem_erase hx)

theorem id_ne (hm : m ∈ agenda) (hn : n ∈ agenda.erase m) : n.id ≠ m.id := by
  intro hid
  exact Finset.ne_of_mem_erase hn (h.unique n (Finset.mem_of_mem_erase hn) m hm hid)

theorem replace (hm : m ∈ agenda) (hn : n.id = m.id) :
    Numbered (Insert.insert n (agenda.erase m)) nextId :=
  (h.erase m).insert_of_ne (fun _ hx => hn ▸ h.id_ne hm hx) (hn.trans_lt (h.lt m hm)) le_rfl

end Numbered

namespace Timer

variable {t t' : Timer} {q tmp : Ptr} {n : TimerNode}

/-- The pending timers. -/
def agenda (t : Timer) : Finset TimerNode := (t.heap.stored.map t.timerOf).toFinset

theorem mem_agenda : n ∈ t.agenda ↔ ∃ q ∈ t.heap.stored, t.timerOf q = n := by
  rw [agenda, List.mem_toFinset, List.mem_map]

theorem timerOf_mem (hq : q ∈ t.heap.stored) : t.timerOf q ∈ t.agenda :=
  mem_agenda.mpr ⟨q, hq, rfl⟩

theorem timerOf_inj (hb : t.Base) {r : Ptr} (hq : q ∈ t.heap.stored) (hr : r ∈ t.heap.stored)
    (h : t.timerOf q = t.timerOf r) : q = r := by
  rw [← (hb.entry q hq).linked, ← (hb.entry r hr).linked]
  exact congrArg TimerNode.heapNode h

/-! ## What the operations do to the agenda -/

variable (hb : t.Base)
include hb

theorem agenda_remove (hmem : tmp ∈ t.heap.stored)
    (hstored : ∀ q, q ∈ t'.heap.stored ↔ q ∈ t.heap.stored ∧ q ≠ tmp)
    (hdata : t'.heap.data = t.heap.data) (hnode : t'.node = t.node) :
    t'.agenda = t.agenda.erase (t.timerOf tmp) := by
  have hsame : ∀ q, t'.timerOf q = t.timerOf q := fun q => by
    unfold timerOf
    rw [hdata, hnode]
  ext n
  rw [Finset.mem_erase, mem_agenda, mem_agenda]
  constructor
  · rintro ⟨q, hq, rfl⟩
    obtain ⟨hold, hne⟩ := (hstored q).mp hq
    rw [hsame]
    exact ⟨fun heq => hne (timerOf_inj hb hold hmem heq), q, hold, rfl⟩
  · rintro ⟨hne, q, hq, rfl⟩
    exact ⟨q, (hstored q).mpr ⟨hq, fun heq => hne (by rw [heq])⟩, hsame q⟩

theorem agenda_replace (hmem : tmp ∈ t.heap.stored)
    (hstored : ∀ q, q ∈ t'.heap.stored ↔ q ∈ t.heap.stored)
    (htimer : ∀ q ∈ t.heap.stored, t'.timerOf q = if q = tmp then n else t.timerOf q) :
    t'.agenda = insert n (t.agenda.erase (t.timerOf tmp)) := by
  ext m
  rw [Finset.mem_insert, Finset.mem_erase, mem_agenda, mem_agenda]
  constructor
  · rintro ⟨q, hq, rfl⟩
    have hold := (hstored q).mp hq
    rw [htimer q hold]
    split_ifs with heq
    · exact .inl rfl
    · exact .inr ⟨fun h => heq (timerOf_inj hb hold hmem h), q, hold, rfl⟩
  · rintro (rfl | ⟨hne, q, hq, rfl⟩)
    · exact ⟨tmp, (hstored tmp).mpr hmem, by rw [htimer tmp hmem, if_pos rfl]⟩
    · refine ⟨q, (hstored q).mpr hq, ?_⟩
      rw [htimer q hq, if_neg fun heq => hne (by rw [heq])]

theorem agenda_pop (htop : t.heap.top = some tmp) :
    t.popTop.agenda = t.agenda.erase (t.timerOf tmp) :=
  agenda_remove hb (hb.valid.top_spec htop).1 (Heap.pop_valid hb.valid htop).2
    (Heap.pop_frame t.heap).1 rfl

theorem agenda_del (hq : q ∈ t.heap.stored) :
    (t.del (t.heap.data q)).agenda = t.agenda.erase (t.timerOf q) :=
  agenda_remove hb hq (hb.del hq).2 (del_data _ _) rfl

variable (hmem : tmp ∈ t.heap.stored)
include hmem

theorem agenda_reschedule (now again : ℤ) :
    (t.reschedule now again tmp (t.heap.data tmp)).agenda =
      insert { t.timerOf tmp with execMsec := nextExecMsec (t.timerOf tmp) now again }
        (t.agenda.erase (t.timerOf tmp)) :=
  agenda_replace hb hmem (Heap.changePriority_valid hb.valid _ hmem).2 fun _ hq =>
    timerOf_reschedule hb hmem now again hq

theorem timerOf_mark (hq : q ∈ t.heap.stored) :
    (t.mark (t.heap.data tmp)).timerOf q =
      if q = tmp then { t.timerOf tmp with remove := true } else t.timerOf q := by
  split_ifs with hne
  · rw [hne]
    exact Function.update_self _ _ _
  · exact Function.update_of_ne (hb.data_ne hq hmem hne) _ _

theorem agenda_mark :
    (t.mark (t.heap.data tmp)).agenda =
      insert { t.timerOf tmp with remove := true } (t.agenda.erase (t.timerOf tmp)) :=
  agenda_replace hb hmem (fun _ => Iff.rfl) fun _ hq => timerOf_mark hb hmem hq

omit hmem

/-- An add whose push fails stores nothing; otherwise it stores the new timer. -/
theorem agenda_addAt (msec : ℤ) (interval : Bool) (now : ℤ) {tnode : Ptr} {push : Heap.PushMemory}
    (hfree : t.Unused tnode push) :
    let t' := t.addAt msec interval now tnode push
    (t'.heap.num = t.heap.num ∧ t'.agenda = t.agenda) ∨ (t'.heap.num = t.heap.num + 1 ∧
      ∃ q, t'.agenda = insert (t.newTimer msec interval now q) t.agenda) := by
  intro t'
  rcases t.addAt_cases msec interval now tnode push with ⟨size, heq⟩ | ⟨size, q, hq, heq⟩ <;>
    rw [show t' = _ from heq]
  · exact .inl ⟨rfl, rfl⟩
  · obtain ⟨-, hstored⟩ := Heap.pushNode_valid (hb.valid.of_size size)
      (toUInt64 (now + msec)) tnode (hfree.node q hq)
    refine .inr ⟨(Heap.pushNode_frame _ _ _ _).2.2.1, q, ?_⟩
    have hother : ∀ r ∈ t.heap.stored, r ≠ q ∧ t.heap.data r ≠ tnode := fun r hr =>
      ⟨fun heq => hfree.node q hq (heq ▸ hr),
        fun heq => hfree.tnode (mem_pending.mpr ⟨r, hr, heq⟩)⟩
    ext m
    rw [Finset.mem_insert, mem_agenda, mem_agenda]
    constructor
    · rintro ⟨r, hr, rfl⟩
      rcases (hstored r).mp hr with rfl | hr
      · exact .inl (by simp [timerOf])
      · exact .inr ⟨r, hr, by simp [timerOf, hother r hr]⟩
    · rintro (rfl | ⟨r, hr, rfl⟩)
      · exact ⟨q, (hstored q).mpr (.inl rfl), by simp [timerOf]⟩
      · exact ⟨r, (hstored r).mpr (.inr hr), by simp [timerOf, hother r hr]⟩

/-! ## The invariant -/

omit hb

/-- **What every run keeps.** -/
structure Steady (t : Timer) : Prop where
  base : t.Base
  numbered : Numbered t.agenda t.nextId
  marked : ∀ q ∈ t.heap.stored, (t.timerOf q).remove = true →
    ∃ now tnode, t.call = .callback now q tnode
  running : ∀ now tmp tnode, t.call = .callback now tmp tnode → t.OnTop now tmp tnode

/-- How the timer is used: as in `Lawful`, and a timer is at least a millisecond away when it
is added. -/
def Admissible (t : Timer) (e : Event) : Prop :=
  t.Lawful e ∧ ∀ msec interval now mem, e = .add msec interval now mem → 1 ≤ msec

variable {now : Option Timeval}

theorem admissible_add {msec : ℤ} {interval : Bool} {mem : AddMemory} :
    t.Admissible (.add msec interval now mem) ↔
      t.Lawful (.add msec interval now mem) ∧ 1 ≤ msec := by
  refine and_congr_right fun _ => ⟨fun h => h msec interval now mem rfl, ?_⟩
  rintro hmsec _ _ _ _ ⟨⟩
  exact hmsec

instance (t : Timer) : ∀ e, Decidable (t.Admissible e)
  | .add _ _ _ _ => decidable_of_iff _ admissible_add.symm
  | .init _ _ | .del _ | .select _ | .clear | .ret _ =>
    decidable_of_iff (t.Lawful _) ⟨fun h => ⟨h, nofun⟩, And.left⟩

theorem steady_fresh (hheap : t.heap = .new 1024 .min) (hcall : t.call = .idle)
    (hclock : t.clock = t.basetime) : t.Steady where
  base := (inv_fresh hheap hcall hclock).base
  numbered := by
    have hnil : t.agenda = ∅ := by
      unfold agenda
      rw [hheap, Heap.stored_new]
      rfl
    rw [hnil]
    exact ⟨nofun, nofun⟩
  marked := by
    intro q hq
    rw [hheap, Heap.stored_new] at hq
    exact absurd hq List.not_mem_nil
  running := by
    intro now tmp tnode hrun
    exact absurd (hcall.symm.trans hrun) nofun

theorem Steady.observe (h : t.Steady) (hon : t.OnTime now) :
    (t.observe now).Steady where
  base := h.base.observe hon
  numbered := h.numbered
  marked := h.marked
  running := fun start tmp tnode hcall => (h.running start tmp tnode hcall).observe hon

theorem agenda_selectLoop (t : Timer) (now : ℤ) (tnode : Option Ptr) :
    (t.selectLoop now tnode).agenda = t.agenda := by
  rcases t.selectLoop_cases now tnode with ⟨_, -, -, heq⟩ | ⟨_, heq, -⟩ <;>
  · rw [heq]
    rfl

theorem Base.lt_of_top (hb : t.Base) {now : ℤ}
    (hlate : ∀ tmp, t.heap.top = some tmp → now < t.deadline tmp) (hn : n ∈ t.agenda) :
    now < n.execMsec := by
  obtain ⟨q, hq, rfl⟩ := mem_agenda.mp hn
  cases htop : t.heap.top with
  | none =>
    rw [Heap.stored_eq_nil_of_top_eq_none htop] at hq
    cases hq
  | some tmp => exact (hlate tmp htop).trans_le ((hb.top_le htop).2 q hq)

theorem Steady.selectLoop (hb : t.Base) (hn : Numbered t.agenda t.nextId)
    (hmarked : ∀ q ∈ t.heap.stored, (t.timerOf q).remove = false) {now : ℤ} (hnonneg : 0 ≤ now)
    (hpast : now ≤ t.reading) (tnode : Option Ptr) : (t.selectLoop now tnode).Steady := by
  rcases t.selectLoop_cases now tnode with ⟨tmp, htop, hdue, heq⟩ | ⟨timeout, heq, -⟩ <;> rw [heq]
  · refine ⟨hb.congr rfl rfl rfl rfl, hn, fun q hq hremove => ?_, ?_⟩
    · exact absurd ((hmarked q hq).symm.trans hremove) nofun
    · rintro _ _ _ ⟨⟩
      exact ⟨hnonneg, hpast, htop, rfl, hdue⟩
  · exact ⟨hb.congr rfl rfl rfl rfl, hn,
      fun q hq hremove => absurd ((hmarked q hq).symm.trans hremove) nofun, nofun⟩

theorem Steady.unmarked (h : t.Steady) (hq : q ∈ t.heap.stored)
    (hne : ∀ now tnode, t.call ≠ .callback now q tnode) : (t.timerOf q).remove = false := by
  rw [← Bool.not_eq_true]
  intro hremove
  obtain ⟨now, tnode, hcall⟩ := h.marked q hq hremove
  exact hne now tnode hcall

theorem Steady.select (h : t.Steady) (hidle : t.call = .idle)
    (hon : t.OnTime now) : ((t.observe now).select now).Steady := by
  have hobs := h.observe hon
  unfold Timer.select
  split_ifs with hread
  · exact hobs
  · have heq := getRelativeMsec_observe (t := t) (not_lt.mp hread)
    have hcall : (t.observe now).call = .idle := hidle
    exact Steady.selectLoop hobs.base hobs.numbered
      (fun q hq => hobs.unmarked hq (by simp [hcall])) (not_lt.mp hread) heq.le none

/-! ## Behind a callback -/

section Returned

variable {now again : ℤ} {tnode : Ptr} {n : TimerNode}

/-- The next deadline of a tick timer is not before the start of the select, and behind it if
the old one was not before it. -/
theorem le_nextExecMsec (hinterval : 0 < n.interval) (hagain : 0 < again → now ≤ again) :
    now ≤ nextExecMsec n now again ∧ (n.execMsec = now → now < nextExecMsec n now again) := by
  unfold nextExecMsec
  split_ifs <;> omega

theorem nextExecMsec_lt (hinterval : n.interval < 2 ^ 31)
    (hdue : n.execMsec ≤ now) {reading : ℤ} (hnow : now ≤ reading) (hagain : again ≤ reading) :
    nextExecMsec n now again < reading + 2 ^ 31 := by
  unfold nextExecMsec
  split_ifs <;> omega

variable {v : Option Timeval}

/-- The clock, when a callback has returned: a reading that succeeds is the latest one, and the
select started before it. -/
theorem OnTop.again_bounds (hb : t.Base) (hrun : t.OnTop now tmp tnode) (hon : t.OnTime v) :
    (t.observe v).getRelativeMsec v ≤ (t.observe v).reading ∧
      (0 < (t.observe v).getRelativeMsec v → now ≤ (t.observe v).getRelativeMsec v) := by
  have hpast := hrun.past.trans (reading_le_observe hon)
  by_cases hread : 0 ≤ (t.observe v).getRelativeMsec v
  · have heq := getRelativeMsec_observe (t := t) hread
    exact ⟨heq.le, fun _ => heq ▸ hpast⟩
  · have hnonneg := (hb.observe hon).reading_nonneg
    exact ⟨by omega, fun hpos => absurd hpos.le hread⟩

variable (h : t.Steady) (hrun : t.OnTop now tmp tnode) (hcall : t.call = .callback now tmp tnode)
include h hrun hcall

theorem Steady.reschedule (hcont : t.Continues tnode) (hle : again ≤ t.reading)
    (hagain : 0 < again → now ≤ again) :
    ((t.reschedule now again tmp tnode).selectLoop now (some tnode)).Steady := by
  obtain rfl := hrun.data
  have hmem := hrun.mem h.base
  have hentry := h.base.entry tmp hmem
  obtain ⟨hnext, -⟩ := le_nextExecMsec hcont.1 hagain
  have hnonneg := hrun.nonneg
  refine Steady.selectLoop (h.base.reschedule hmem (hnonneg.trans hnext)
    (nextExecMsec_lt hentry.interval hrun.due hrun.past hle)) ?_ (fun q hq => ?_) hnonneg
    hrun.past _
  · rw [agenda_reschedule h.base hmem]
    exact h.numbered.replace (timerOf_mem hmem) rfl
  · have hq' := ((Heap.changePriority_valid h.base.valid _ hmem).2 q).mp hq
    rw [timerOf_reschedule h.base hmem now again hq']
    split_ifs with heq
    · exact hcont.2
    · refine h.unmarked hq' fun now' tnode' hcall' => heq ?_
      cases hcall.symm.trans hcall'
      rfl

theorem Steady.pop : (t.popTop.selectLoop now (some tnode)).Steady := by
  refine Steady.selectLoop (h.base.pop hrun.top) ?_ (fun q hq => ?_) hrun.nonneg hrun.past _
  · rw [agenda_pop h.base hrun.top]
    exact h.numbered.erase _
  · obtain ⟨hold, hne⟩ := ((Heap.pop_valid h.base.valid hrun.top).2 q).mp hq
    rw [timerOf, popTop, (Heap.pop_frame _).1]
    refine h.unmarked hold fun now' tnode' hcall' => hne ?_
    cases hcall.symm.trans hcall'
    rfl

omit hrun

theorem Steady.ret (hon : t.OnTime v) : (t.step (.ret v)).Steady := by
  have hobs := h.observe hon
  have hrun := hobs.running now tmp tnode hcall
  obtain ⟨hle, hagain⟩ := (h.running now tmp tnode hcall).again_bounds h.base hon
  simp only [Timer.step, hcall, callbackReturned]
  split_ifs with hcont
  · exact hobs.reschedule hrun hcall hcont hle hagain
  · exact hobs.pop hrun hcall

end Returned

/-! ## Adding, deleting and marking -/

section Actions

variable {msec now : ℤ} {interval : Bool} {tnode : Ptr} {push : Heap.PushMemory} (h : t.Steady)
include h

theorem Steady.addAt (hfree : t.Unused tnode push) (hpos : 1 ≤ msec) (hlt : msec < 2 ^ 31) :
    (t.addAt msec interval t.reading tnode push).Steady := by
  obtain ⟨-, -, hcall, hnext, -⟩ := t.addAt_frame msec interval t.reading tnode push
  refine ⟨h.base.addAt hfree (by omega) hlt, ?_, fun q hq hremove => ?_, ?_⟩
  · rw [hnext]
    rcases agenda_addAt h.base msec interval t.reading hfree with ⟨-, hsame⟩ | ⟨-, q, hnew⟩
    · rw [hsame]
      exact ⟨h.numbered.unique, fun n hn => (h.numbered.lt n hn).trans (by omega)⟩
    · rw [hnew]
      exact h.numbered.insert rfl
  · rw [hcall]
    rcases (addAt_stored h.base.valid msec interval t.reading hfree).2 q hq with
      ⟨hold, hsame, -⟩ | ⟨-, hnew⟩
    · exact h.marked q hold (hsame ▸ hremove)
    · rw [hnew] at hremove
      cases hremove
  · intro start tmp running hrun
    rw [hcall] at hrun
    exact (h.running start tmp running hrun).addAt h.base hfree (by omega) hlt

theorem Steady.add {mem : AddMemory} (hlaw : t.Lawful (.add msec interval v mem))
    (hpos : 1 ≤ msec) : ((t.observe v).add msec interval v mem).Steady := by
  have hobs := h.observe hlaw.1
  rcases add_cases hlaw with heq | ⟨tnode, -, -, hfree, heq⟩ <;> rw [heq]
  · exact hobs
  · exact hobs.addAt hfree hpos hlaw.2.2.1

theorem Steady.del (hlaw : t.Lawful (.del tnode)) : (t.del tnode).Steady := by
  obtain ⟨hpending, hother⟩ := hlaw
  obtain ⟨q, hq, rfl⟩ := mem_pending.mp hpending
  obtain ⟨hb, hstored⟩ := h.base.del hq
  refine ⟨hb, ?_, fun r hr hremove => ?_, fun now tmp running hcall => ?_⟩
  · rw [agenda_del h.base hq]
    exact h.numbered.erase _
  · rw [timerOf, del_data] at hremove
    exact h.marked r ((hstored r).mp hr).1 hremove
  · rw [show t.call = _ from hcall] at hother
    exact (h.running now tmp running hcall).del h.base hq hother

theorem Steady.mark {running : Ptr} (hcall : t.call = .callback now tmp running) :
    (t.mark running).Steady := by
  have hrun := h.running now tmp running hcall
  obtain rfl := hrun.data
  have hmem := hrun.mem h.base
  refine ⟨h.base.mark _, ?_, fun q hq hremove => ?_, ?_⟩
  · rw [agenda_mark h.base hmem]
    exact h.numbered.replace (timerOf_mem hmem) rfl
  · by_cases heq : q = tmp
    · exact ⟨now, t.heap.data tmp, heq ▸ hcall⟩
    · rw [timerOf_mark h.base hmem hq, if_neg heq] at hremove
      exact h.marked q hq hremove
  · intro now' tmp' running' hcall'
    exact (h.running now' tmp' running' hcall').mark _

end Actions

/-! ## Runs -/

/-- **The step lemma.** -/
theorem Steady.step (h : t.Steady) {e : Event} (hadm : t.Admissible e) : (t.step e).Steady := by
  obtain ⟨hlaw, hmsec⟩ := hadm
  cases e with
  | init msec now =>
    cases now with
    | none => exact h.observe hlaw.2
    | some v => exact steady_fresh rfl hlaw.1 rfl
  | add msec interval now mem => exact h.add hlaw (hmsec msec interval now mem rfl)
  | del tnode => exact h.del hlaw
  | select now => exact h.select hlaw.1 hlaw.2
  | clear =>
    cases hcall : t.call with
    | idle => simpa [Timer.step, Timer.clear, hcall] using h
    | callback now tmp running =>
      show t.clear.Steady
      rw [clear_eq_mark hcall]
      exact h.mark hcall
  | ret now =>
    cases hcall : t.call with
    | idle => simpa [Timer.step, hcall] using h
    | callback start tmp tnode => exact h.ret hcall hlaw

open StepRun

theorem steady_run (msec : ℤ) (now : Timeval) {events : List Event}
    (hadm : EachStep step Admissible (start msec now) events) :
    (run step (start msec now) events).Steady :=
  hadm.run_invariant (P := Steady) (fun _ _ h he => h.step he) (steady_fresh rfl rfl rfl)

/-- **Callbacks run by deadline.**  Whatever callbacks add, delete or clear, the pending timers have
distinct ids, and the timer whose callback runs is due and none of them comes before it. -/
theorem callback_earliest_run (msec : ℤ) (now : Timeval) (events : List Event)
    (hadm : EachStep step Admissible (start msec now) events) :
    let t := run step (start msec now) events
    (∀ m ∈ t.agenda, ∀ n ∈ t.agenda, m.id = n.id → m = n) ∧
      ∀ begun tmp tnode, t.call = .callback begun tmp tnode →
        t.node tnode ∈ t.agenda ∧ (t.node tnode).execMsec ≤ begun ∧
          ∀ n ∈ t.agenda, (t.node tnode).execMsec ≤ n.execMsec := by
  have h := steady_run msec now hadm
  refine ⟨h.numbered.unique, fun begun tmp tnode hcall => ?_⟩
  obtain ⟨-, -, htop, rfl, hdue⟩ := h.running begun tmp tnode hcall
  obtain ⟨hmem, hle⟩ := h.base.top_le htop
  refine ⟨timerOf_mem hmem, hdue, fun n hn => ?_⟩
  obtain ⟨q, hq, rfl⟩ := mem_agenda.mp hn
  exact hle q hq

/-- A timer is added in the callback of another one, while a third is due as well. -/
theorem callback_earliest_three :
    let t := run step (start 10 (atMsec 0)) [addOf 10 true 0 1 2, addOf 5 false 0 3 4,
      .select (some (atMsec 10)), addOf 1 false 10 5 6]
    ∀ n ∈ t.agenda, (t.node 3).execMsec ≤ n.execMsec :=
  ((callback_earliest_run 10 (atMsec 0) _ (by decide +kernel)).2 10 4 3 (by decide +kernel)).2.2

end Timer

end Swoole
