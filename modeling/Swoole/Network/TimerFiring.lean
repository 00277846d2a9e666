import Swoole.Network.TimerAccount

/-!
# What one select fires

A callback changes the heap while `swTimer_select` holds a pointer to its top.  `SelectRun`
follows one call of the function with its history: the loop comes to a callback, the callback
acts on the timer and returns, and the loop goes on with the heap as it is then.

* `Progress` — the timer is steady, and the account of the history is in order;
* `Inside.act`, `Inside.ret` — what a callback does keeps it, and its return lowers the load;
* `exists_idle` — so the loop comes to its end;
* `select_fires` — what it has done then.
-/

namespace Swoole

/-! ## A select with its history -/

/-- The timer whose callback is running. -/
def Timer.current (t : Timer) : Option TimerNode :=
  match t.call with
  | .idle => none
  | .callback _ _ tnode => some (t.node tnode)

/-- A call of `swTimer_select`, with what has happened in it so far. -/
structure SelectRun where
  timer : Timer
  history : History

/-- What a callback does: its calls of the timer, and what the clock shows when it returns. -/
structure Callback where
  actions : List Timer.Event
  again : Option Timeval

namespace SelectRun

open Timer StepRun

/-- Something that a callback does.  An add has stored its timer if the heap has grown. -/
def act (r : SelectRun) (e : Event) : SelectRun where
  timer := r.timer.step e
  history :=
    match e with
    | .add _ _ _ _ =>
      if r.timer.heap.num < (r.timer.step e).heap.num then
        { r.history with added := r.history.added ++ [r.timer.nextId] }
      else r.history
    | .del tnode =>
      { r.history with cleared := r.history.cleared ++ [(r.timer.node tnode).id] }
    | .clear =>
      { r.history with
        marked := r.history.marked ++ (r.timer.current.map TimerNode.id).toList }
    | .init _ _ | .select _ | .ret _ => r.history

/-- The loop has come to a callback, or to its end. -/
def enter (r : SelectRun) : SelectRun :=
  { r with
    history :=
      { r.history with
        fired := r.history.fired ++ (r.timer.current.map TimerNode.firing).toList } }

/-- The callback returns: its timer leaves the heap unless it continues. -/
def ret (r : SelectRun) (again : Option Timeval) : SelectRun :=
  enter
    { timer := r.timer.step (.ret again)
      history :=
        match r.timer.call with
        | .idle => r.history
        | .callback _ _ tnode =>
          if r.timer.Continues tnode then r.history
          else { r.history with removed := r.history.removed ++ [(r.timer.node tnode).id] } }

/-- The call of `swTimer_select`, up to its first callback. -/
def start (t : Timer) (now : Timeval) : SelectRun :=
  enter { timer := t.step (.select (some now)), history := .nil }

/-- A whole callback. -/
def callback (r : SelectRun) (c : Callback) : SelectRun := (run act r c.actions).ret c.again

/-- The select after `n` callbacks, if the `k`-th one does what `script k` says. -/
def after (t : Timer) (now : Timeval) (script : ℕ → Callback) : ℕ → SelectRun
  | 0 => start t now
  | n + 1 => (after t now script n).callback (script n)

/-- What a callback may do: add a timer of at least a millisecond, delete a pending timer, and
clear its own one. -/
def MayAct (r : SelectRun) (e : Event) : Prop :=
  r.timer.Admissible e ∧
    match e with
    | .add _ _ _ _ | .del _ | .clear => True
    | .init _ _ | .select _ | .ret _ => False

instance (r : SelectRun) : ∀ e, Decidable (r.MayAct e)
  | .add _ _ _ _ | .del _ | .clear => inferInstanceAs (Decidable (_ ∧ True))
  | .init _ _ | .select _ | .ret _ => inferInstanceAs (Decidable (_ ∧ False))

/-- A callback that does nothing else, while the clock does not run backwards. -/
def Permits (r : SelectRun) (c : Callback) : Prop :=
  EachStep act MayAct r c.actions ∧ (run act r c.actions).timer.OnTime c.again

/-! ## The invariant -/

/-- **A select in progress** that found the timer `t₀` and started at `now`. -/
structure Progress (t₀ : Timer) (now : ℤ) (r : SelectRun) : Prop where
  steady : r.timer.Steady
  started : ∀ start tmp tnode, r.timer.call = .callback start tmp tnode → start = now
  account : Account t₀.agenda t₀.nextId now r.timer.agenda r.timer.current r.timer.nextId r.history
  later : r.timer.call = .idle → ∀ n ∈ r.timer.agenda, now < n.execMsec

section Progress

open SelectRun (act ret start)

variable {t₀ t : Timer} {now : ℤ} {r : SelectRun} {h : History}

theorem current_eq_none (hidle : t.call = .idle) : t.current = none := by
  rw [Timer.current, hidle]

theorem current_eq_some {start : ℤ} {tmp tnode : Ptr}
    (hcall : t.call = .callback start tmp tnode) : t.current = some (t.node tnode) := by
  rw [Timer.current, hcall]

theorem progress_loop {tnode : Option Ptr} (hs : (t.selectLoop now tnode).Steady)
    (ha : Account t₀.agenda t₀.nextId now t.agenda none t.nextId h) :
    Progress t₀ now (enter ⟨t.selectLoop now tnode, h⟩) := by
  rcases t.selectLoop_cases now tnode with ⟨tmp, htop, hdue, heq⟩ | ⟨timeout, heq, hlate⟩ <;>
    rw [heq] at hs ⊢
  · have hb : t.Base := hs.base.congr rfl rfl rfl rfl
    refine ⟨hs, ?_, ha.enter (timerOf_mem (hb.valid.top_spec htop).1) hdue, nofun⟩
    rintro _ _ _ ⟨⟩
    rfl
  · have hb : t.Base := hs.base.congr rfl rfl rfl rfl
    refine ⟨hs, nofun, ?_, fun _ n hn => hb.lt_of_top (fun tmp htop => (hlate tmp htop).1) hn⟩
    simp only [enter, Timer.current, Option.map_none, Option.toList_none, List.append_nil]
    exact ha

variable {v : Option Timeval} {interval : Bool} {mem : AddMemory} {msec : ℤ}

theorem step_add_cases (hs : t.Steady) {start : ℤ} {tmp tnode : Ptr}
    (hcall : t.call = .callback start tmp tnode)
    (hadm : t.Admissible (.add msec interval v mem)) :
    let t' := t.step (.add msec interval v mem)
    t'.call = t.call ∧ t'.current = t.current ∧
      ((t'.heap.num = t.heap.num ∧ t'.agenda = t.agenda ∧
          (t'.nextId = t.nextId ∨ t'.nextId = t.nextId + 1)) ∨
        (t'.heap.num = t.heap.num + 1 ∧ t'.nextId = t.nextId + 1 ∧
          ∃ reading q, t.reading ≤ reading ∧
            t'.agenda = insert (t.newTimer msec interval reading q) t.agenda)) := by
  have hreading := reading_le_observe hadm.1.1
  have hobs := hs.observe hadm.1.1
  have hrun := hobs.running start tmp tnode hcall
  simp only [Timer.step]
  rcases add_cases hadm.1 with heq | ⟨p, -, -, hfree, heq⟩ <;> rw [heq]
  · exact ⟨rfl, rfl, .inl ⟨rfl, rfl, .inl rfl⟩⟩
  obtain ⟨-, -, hcall', hnext, -⟩ :=
    (t.observe v).addAt_frame msec interval (t.observe v).reading p mem.push
  refine ⟨hcall', ?_, ?_⟩
  · -- the running timer is not the one that was allocated
    have hne : tnode ≠ p :=
      fun heq => hfree.tnode (heq ▸ mem_pending.mpr ⟨tmp, hrun.mem hobs.base, hrun.data⟩)
    rw [current_eq_some (hcall'.trans hcall), current_eq_some hcall]
    rcases (t.observe v).addAt_cases msec interval (t.observe v).reading p mem.push with
      ⟨_, heq⟩ | ⟨_, q, -, heq⟩ <;> rw [heq]
    · rfl
    · exact congrArg some (Function.update_of_ne hne _ _)
  · rcases agenda_addAt hobs.base msec interval (t.observe v).reading hfree with
      ⟨hnum, hagenda⟩ | ⟨hnum, q, hagenda⟩
    · exact .inl ⟨hnum, hagenda, .inr hnext⟩
    · exact .inr ⟨hnum, hnext, (t.observe v).reading, q, hreading, hagenda⟩

/-- Between two callbacks nothing more is asked for: the select is inside the callback `c`, and
at most `bound` callbacks can follow. -/
structure Inside (t₀ : Timer) (now : ℤ) (c : SelectCall) (bound : ℕ) (r : SelectRun) : Prop
    extends Progress t₀ now r where
  call_eq : r.timer.call = c
  load_le : load now r.timer.agenda ≤ bound

variable {start : ℤ} {tmp tnode : Ptr} {bound : ℕ}

variable (hr : Inside t₀ now (.callback start tmp tnode) bound r)
include hr

theorem Inside.add (hadm : r.timer.Admissible (.add msec interval v mem)) :
    Inside t₀ now (.callback start tmp tnode) bound (r.act (.add msec interval v mem)) := by
  obtain ⟨hcall, hcurrent, hcases⟩ := step_add_cases hr.steady hr.call_eq hadm
  have hcall' := hcall.trans hr.call_eq
  have hpos := hadm.2 msec interval v mem rfl
  have hstart : start = now := hr.started start tmp tnode hr.call_eq
  have hpast := (hr.steady.running start tmp tnode hr.call_eq).past
  refine ⟨⟨hr.steady.step hadm, fun start' tmp' tnode' h => ?_, ?_, fun hidle => ?_⟩, hcall', ?_⟩
  · exact hr.started start' tmp' tnode' (hcall.symm.trans h)
  · rcases hcases with ⟨hnum, hagenda, hnext⟩ | ⟨hnum, hnext, reading, q, hle, hagenda⟩
    · simp only [act, hagenda, hcurrent, hnum, lt_irrefl, if_false]
      rcases hnext with hnext | hnext <;> rw [hnext]
      · exact hr.account
      · exact hr.account.skip
    · simp only [act, hagenda, hcurrent, hnum, lt_add_iff_pos_right, zero_lt_one,
        if_true, hnext]
      have hlate : now < reading + msec := by omega
      exact hr.account.insert rfl hlate rfl
  · exact absurd (hidle.symm.trans hcall') nofun
  · rcases hcases with ⟨-, hagenda, -⟩ | ⟨-, -, reading, q, hle, hagenda⟩
    · simpa only [act, hagenda] using hr.load_le
    · have hlate : now < (r.timer.newTimer msec interval reading q).execMsec := by
        show now < reading + msec
        omega
      simpa only [act, hagenda, load_insert hlate] using hr.load_le

theorem Inside.del {p : Ptr} (hadm : r.timer.Admissible (.del p)) :
    Inside t₀ now (.callback start tmp tnode) bound (r.act (.del p)) := by
  obtain ⟨hpending, hother⟩ := hadm.1
  obtain ⟨q, hq, rfl⟩ := mem_pending.mp hpending
  have hrun := hr.steady.running start tmp tnode hr.call_eq
  have hagenda : (r.timer.step (.del (r.timer.heap.data q))).agenda =
      r.timer.agenda.erase (r.timer.timerOf q) := agenda_del hr.steady.base hq
  have hmem := timerOf_mem (t := r.timer) hq
  refine ⟨⟨hr.steady.step hadm, hr.started, ?_, fun hidle => ?_⟩, hr.call_eq, ?_⟩
  · simp only [act, hagenda]
    refine hr.account.erase hmem fun c hc hid => ?_
    -- an id belongs to one heap node, and the running timer is at another one
    have hcmem := hr.account.current_mem c hc
    have heq := hr.steady.numbered.unique c hcmem _ hmem hid
    rw [current_eq_some hr.call_eq, Option.mem_some_iff, ← hrun.timerOf_eq] at hc
    have hsame := timerOf_inj hr.steady.base (hrun.mem hr.steady.base) hq (hc.trans heq)
    rw [show r.timer.call = _ from hr.call_eq] at hother
    exact hother (by rw [← hsame, hrun.data])
  · exact absurd (hidle.symm.trans hr.call_eq) nofun
  · have hsum := load_erase_add now hmem
    have hle := hr.load_le
    simp only [act, hagenda]
    omega

theorem Inside.clear : Inside t₀ now (.callback start tmp tnode) bound (r.act .clear) := by
  have hrun := hr.steady.running start tmp tnode hr.call_eq
  have hmem := hrun.mem hr.steady.base
  obtain rfl := hrun.data
  have hstep : r.timer.step .clear = r.timer.mark (r.timer.heap.data tmp) :=
    clear_eq_mark hr.call_eq
  have hcall : (r.timer.mark (r.timer.heap.data tmp)).call = _ := hr.call_eq
  have hold : r.timer.current = some (r.timer.timerOf tmp) := current_eq_some hr.call_eq
  have hcurrent : (r.timer.mark (r.timer.heap.data tmp)).current =
      some { r.timer.timerOf tmp with remove := true } := by
    rw [current_eq_some hcall]
    exact congrArg some (Function.update_self _ _ _)
  have haccount := hr.account
  rw [hold] at haccount
  refine ⟨⟨?_, ?_, ?_, fun hidle => ?_⟩, ?_, ?_⟩
  · simp only [act, hstep]
    exact hr.steady.mark hr.call_eq
  · simp only [act, hstep]
    exact hr.started
  · simp only [act, hstep, hcurrent, hold, agenda_mark hr.steady.base hmem]
    exact haccount.mark
  · simp only [act, hstep] at hidle
    exact absurd (hidle.symm.trans hcall) nofun
  · simp only [act, hstep]
    exact hcall
  · have hsum : load now (insert { r.timer.timerOf tmp with remove := true }
          (r.timer.agenda.erase (r.timer.timerOf tmp))) + (r.timer.timerOf tmp).load now =
        load now r.timer.agenda + (r.timer.timerOf tmp).load now :=
      load_replace _ hr.steady.numbered (timerOf_mem hmem) rfl
    simp only [act, hstep, agenda_mark hr.steady.base hmem]
    rw [Nat.add_right_cancel hsum]
    exact hr.load_le

/-- **The step lemma** for what a callback does. -/
theorem Inside.act {e : Event}
    (hmay : r.MayAct e) : Inside t₀ now (.callback start tmp tnode) bound (r.act e) := by
  cases e with
  | add msec interval v mem => exact hr.add hmay.1
  | del p => exact hr.del hmay.1
  | clear => exact hr.clear
  | init msec v => exact hmay.2.elim
  | select v => exact hmay.2.elim
  | ret v => exact hmay.2.elim

omit hr

section

variable (hs : t.Steady) (hcall : t.call = .callback now tmp tnode)
  (ha : Account t₀.agenda t₀.nextId now t.agenda t.current t.nextId h)
include hs hcall ha

theorem progress_reschedule (hcont : t.Continues tnode) {again : ℤ} (hle : again ≤ t.reading)
    (hagain : 0 < again → now ≤ again) :
    Progress t₀ now
        (enter ⟨(t.reschedule now again tmp tnode).selectLoop now (some tnode), h⟩) ∧
      load now ((t.reschedule now again tmp tnode).selectLoop now (some tnode)).agenda <
        load now t.agenda := by
  have hrun := hs.running now tmp tnode hcall
  have hmem := hrun.mem hs.base
  rw [current_eq_some hcall] at ha
  obtain rfl := hrun.data
  have hagenda := agenda_reschedule hs.base hmem now again
  constructor
  · refine progress_loop (hs.reschedule hrun hcall hcont hle hagain) ?_
    rw [hagenda]
    exact ha.reschedule hcont.1 hcont.2 rfl rfl rfl
  · rw [agenda_selectLoop, hagenda]
    have hsum := load_replace now hs.numbered (timerOf_mem hmem)
      (n := { t.timerOf tmp with execMsec := nextExecMsec (t.timerOf tmp) now again }) rfl
    have hlt : TimerNode.load now
        { t.timerOf tmp with execMsec := nextExecMsec (t.timerOf tmp) now again } <
          (t.timerOf tmp).load now := load_reschedule_lt hcont.1 hrun.due hagain rfl
    refine Nat.lt_of_add_lt_add_right (n := (t.timerOf tmp).load now) ?_
    rw [hsum]
    exact Nat.add_lt_add_left hlt _

theorem progress_pop (hcont : ¬ t.Continues tnode) :
    Progress t₀ now (enter ⟨t.popTop.selectLoop now (some tnode),
        { h with removed := h.removed ++ [(t.node tnode).id] }⟩) ∧
      load now (t.popTop.selectLoop now (some tnode)).agenda < load now t.agenda := by
  have hrun := hs.running now tmp tnode hcall
  have hmem := hrun.mem hs.base
  rw [current_eq_some hcall] at ha
  obtain rfl := hrun.data
  have hagenda := agenda_pop hs.base hrun.top
  constructor
  · refine progress_loop (hs.pop hrun hcall) ?_
    rw [hagenda]
    exact ha.pop hcont
  · rw [agenda_selectLoop, hagenda]
    have hsum := load_erase_add now (timerOf_mem hmem)
    have hone : 1 ≤ (t.timerOf tmp).load now := one_le_load hrun.due
    omega

end

/-- **The step lemma** for the return of a callback: the loop has less to do. -/
theorem Inside.ret (hr : Inside t₀ now (.callback start tmp tnode) bound r)
    (hon : r.timer.OnTime v) :
    Progress t₀ now (r.ret v) ∧ load now (r.ret v).timer.agenda < bound := by
  obtain rfl : start = now := hr.started start tmp tnode hr.call_eq
  have hobs := hr.steady.observe hon
  have hcall : (r.timer.observe v).call = .callback start tmp tnode := hr.call_eq
  obtain ⟨hle, hagain⟩ :=
    (hr.steady.running start tmp tnode hr.call_eq).again_bounds hr.steady.base hon
  have haccount : Account t₀.agenda t₀.nextId start (r.timer.observe v).agenda
      (r.timer.observe v).current (r.timer.observe v).nextId r.history := hr.account
  simp only [ret, Timer.step, hr.call_eq, callbackReturned]
  by_cases hcont : r.timer.Continues tnode
  · have hcont' : (r.timer.observe v).Continues tnode := hcont
    obtain ⟨hprogress, hlt⟩ := progress_reschedule hobs hcall haccount hcont' hle hagain
    rw [if_pos hcont, if_pos hcont']
    exact ⟨hprogress, hlt.trans_le hr.load_le⟩
  · have hcont' : ¬ (r.timer.observe v).Continues tnode := hcont
    obtain ⟨hprogress, hlt⟩ := progress_pop hobs hcall haccount hcont'
    rw [if_neg hcont, if_neg hcont']
    exact ⟨hprogress, hlt.trans_le hr.load_le⟩

theorem Progress.callback (hr : Progress t₀ now r)
    (hcall : r.timer.call = .callback start tmp tnode) {c : Callback} (hc : r.Permits c) :
    Progress t₀ now (r.callback c) ∧
      load now (r.callback c).timer.agenda < load now r.timer.agenda := by
  have hinside : Inside t₀ now (.callback start tmp tnode) (load now r.timer.agenda)
      (run act r c.actions) :=
    hc.1.run_invariant (fun _ _ hr' hmay => hr'.act hmay) ⟨hr, hcall, le_rfl⟩
  exact hinside.ret hc.2

theorem progress_start (hs : t.Steady) (hidle : t.call = .idle) {v : Timeval}
    (hon : t.OnTime (some v)) :
    Progress t (t.getRelativeMsec (some v)) (SelectRun.start t v) ∧
      (SelectRun.start t v).timer.agenda = t.agenda := by
  have hnonneg : 0 ≤ t.getRelativeMsec (some v) := (hs.base.observe hon).reading_nonneg
  have hstep : t.step (.select (some v)) =
      (t.observe (some v)).selectLoop (t.getRelativeMsec (some v)) none :=
    if_neg (not_lt.mpr hnonneg)
  have hmarked : ∀ n ∈ t.agenda, n.remove = false := by
    intro n hn
    obtain ⟨q, hq, rfl⟩ := mem_agenda.mp hn
    exact hs.unmarked hq (by simp [hidle])
  have hsteady := hs.step (e := .select (some v)) ⟨⟨hidle, hon⟩, nofun⟩
  simp only [start]
  rw [hstep] at hsteady ⊢
  exact ⟨progress_loop hsteady (.begin hs.numbered hmarked), agenda_selectLoop _ _ _⟩

end Progress

/-! ## The select ends -/

section Termination

variable {t : Timer} {v : Timeval} {script : ℕ → Callback}
  (hs : t.Steady) (hidle : t.call = .idle) (hon : t.OnTime (some v))
  (hscript : ∀ n, (after t v script n).timer.call ≠ .idle →
    (after t v script n).Permits (script n))
include hs hidle hon hscript

/-- **The run lemma**: as long as the select has not ended, it is in progress, and each callback
has taken something from its load. -/
theorem progress_after :
    ∀ n, (∀ k < n, (after t v script k).timer.call ≠ .idle) →
      Progress t (t.getRelativeMsec (some v)) (after t v script n) ∧
        load (t.getRelativeMsec (some v)) (after t v script n).timer.agenda + n ≤
          load (t.getRelativeMsec (some v)) t.agenda := by
  intro n
  induction n with
  | zero =>
    intro _
    obtain ⟨hprogress, hagenda⟩ := progress_start hs hidle hon
    exact ⟨hprogress, by rw [SelectRun.after, hagenda, add_zero]⟩
  | succ n ih =>
    intro hbusy
    obtain ⟨hprogress, hload⟩ := ih fun k hk => hbusy k (hk.trans n.lt_succ_self)
    have hcallback := hbusy n n.lt_succ_self
    cases hcall : (after t v script n).timer.call with
    | idle => exact absurd hcall hcallback
    | callback start tmp tnode =>
      obtain ⟨hnext, hlt⟩ := hprogress.callback hcall (hscript n hcallback)
      refine ⟨hnext, ?_⟩
      rw [SelectRun.after]
      omega

/-- A select makes at most two callbacks for every timer that is due at its start. -/
theorem exists_idle :
    ∃ n ≤ 2 * (t.agenda.filter fun m => m.execMsec ≤ t.getRelativeMsec (some v)).card,
      (after t v script n).timer.call = .idle ∧
        Progress t (t.getRelativeMsec (some v)) (after t v script n) := by
  have hend : ∃ n, (after t v script n).timer.call = .idle := by
    by_contra hnever
    rw [not_exists] at hnever
    obtain ⟨-, hload⟩ := progress_after hs hidle hon hscript
      (load (t.getRelativeMsec (some v)) t.agenda + 1) fun k _ => hnever k
    omega
  -- the first time that the loop is at its end
  obtain ⟨hprogress, hload⟩ := progress_after hs hidle hon hscript (Nat.find hend)
    fun k hk => Nat.find_min hend hk
  have hbound := load_le (t.getRelativeMsec (some v)) t.agenda
  exact ⟨Nat.find hend, by omega, Nat.find_spec hend, hprogress⟩

end Termination

/-! ## What the select has done -/

/-- **A select that has ended**, of the timer `t₀`, with its start at `now`. -/
structure Selected (t₀ : Timer) (now : ℤ) (r : SelectRun) : Prop where
  idle : r.timer.call = .idle
  /-- An after timer that was due is called once, or not at all if it was cleared before. -/
  once : ∀ n ∈ t₀.agenda, n.interval = 0 → n.execMsec ≤ now →
    r.history.times n.id = if n.id ∈ r.history.cleared then 0 else 1
  /-- A timer is called when it is due. -/
  due : ∀ f ∈ r.history.fired, f.execMsec ≤ now
  /-- The select removes the after timers it has called, and the timers that their own callback
  has cleared. -/
  removed : ∀ i, i ∈ r.history.removed ↔ r.history.FiredAfter i ∨ i ∈ r.history.marked
  /-- In the heap is what was there or was added, and was neither cleared nor removed. -/
  pending : ∀ i, (∃ n ∈ r.timer.agenda, n.id = i) ↔
    ((∃ n ∈ t₀.agenda, n.id = i) ∨ i ∈ r.history.added) ∧
      i ∉ r.history.cleared ∧ i ∉ r.history.removed
  later : ∀ n ∈ r.timer.agenda, now < n.execMsec

variable {r : SelectRun} {t₀ : Timer} {now : ℤ}

theorem Progress.removed_of_due (hr : Progress t₀ now r)
    (hidle : r.timer.call = .idle) {n : TimerNode} (hn : n ∈ t₀.agenda) (hafter : n.interval = 0)
    (hdue : n.execMsec ≤ now) (hcleared : n.id ∉ r.history.cleared) : n.id ∈ r.history.removed := by
  by_contra hremoved
  obtain ⟨m, hm, hid⟩ := (hr.account.ids n.id).mpr ⟨.inl ⟨n, hn, rfl⟩, hcleared, hremoved⟩
  have hlate := hr.later hidle m hm
  rcases hr.account.origin m hm with ⟨hadded, -⟩ | ⟨n₀, hn₀, hsame⟩
  · -- an id that was given out during the select is none of those at its start
    have hge := hr.account.added_ge m.id hadded
    have hlt := hr.account.numbered₀.lt n hn
    omega
  · obtain rfl : n₀ = n := hr.account.numbered₀.unique n₀ hn₀ n hn (hsame.id_eq.trans hid)
    have hexec := hsame.exec_eq (hsame.interval_eq.symm.trans hafter)
    omega

theorem Progress.selected (hr : Progress t₀ now r)
    (hidle : r.timer.call = .idle) : Selected t₀ now r where
  idle := hidle
  once := by
    intro n hn hafter hdue
    have htimes := hr.account.times_eq n hn hafter
    rw [current_eq_none hidle] at htimes
    simp only [Option.mem_def, reduceCtorEq, false_and, exists_false, or_false] at htimes
    rw [htimes]
    by_cases hcleared : n.id ∈ r.history.cleared
    · rw [if_pos hcleared, if_neg (hr.account.disjoint n.id hcleared)]
    · rw [if_neg hcleared, if_pos (hr.removed_of_due hidle hn hafter hdue hcleared)]
  due := hr.account.due
  removed := by
    intro i
    have hremoved := hr.account.removed_iff i
    rw [current_eq_none hidle] at hremoved
    simpa using hremoved
  pending := hr.account.ids
  later := hr.later hidle

/-- **Timer firing.**  A select of any pending timers, at any later time, ends after at most two
callbacks for each timer that is due, whatever the callbacks do: it has called every due after
timer once unless that was cleared before, and nothing that was not due, has removed what it had
to, and leaves timers that are due later than its start. -/
theorem select_fires (t : Timer) (v : Timeval) (script : ℕ → Callback) (hs : t.Steady)
    (hidle : t.call = .idle) (hon : t.OnTime (some v))
    (hscript : ∀ n, (after t v script n).timer.call ≠ .idle →
      (after t v script n).Permits (script n)) :
    ∃ n ≤ 2 * (t.agenda.filter fun m => m.execMsec ≤ t.getRelativeMsec (some v)).card,
      Selected t (t.getRelativeMsec (some v)) (after t v script n) := by
  obtain ⟨n, hn, hend, hprogress⟩ := exists_idle hs hidle hon hscript
  exact ⟨n, hn, hprogress.selected hend⟩

/-- Four timers are due at 10 ms: a tick timer of 3 ms and after timers of 4, 4 and 5 ms.  The
callback of the first one deletes the second, adds a timer of 1 ms and clears itself. -/
theorem select_fires_four :
    let events := [addOf 3 true 0 1 11, addOf 4 false 0 2 12, addOf 4 false 0 3 13,
      addOf 5 false 0 4 14]
    let t := run step (Timer.start 3 (atMsec 0)) events
    let script : ℕ → Callback := fun n =>
      if n = 0 then ⟨[.del 2, addOf 1 false 11 5 15, .clear], some (atMsec 12)⟩ else ⟨[], none⟩
    (EachStep step Admissible (Timer.start 3 (atMsec 0)) events ∧ t.call = .idle ∧
        t.OnTime (some (atMsec 10)) ∧
        ∀ n, (after t (atMsec 10) script n).timer.call ≠ .idle →
          (after t (atMsec 10) script n).Permits (script n)) ∧
      ∃ n ≤ 2 * (t.agenda.filter fun m => m.execMsec ≤ t.getRelativeMsec (some (atMsec 10))).card,
        Selected t (t.getRelativeMsec (some (atMsec 10))) (after t (atMsec 10) script n) := by
  intro events t script
  have hadm : EachStep step Admissible (Timer.start 3 (atMsec 0)) events := by decide +kernel
  have hidle : t.call = .idle := by decide +kernel
  have hon : t.OnTime (some (atMsec 10)) := by decide +kernel
  have hscript : ∀ n, (after t (atMsec 10) script n).timer.call ≠ .idle →
      (after t (atMsec 10) script n).Permits (script n) := by
    intro n _
    cases n with
    | zero => exact ⟨by decide +kernel, by decide +kernel⟩
    | succ n => exact ⟨trivial, nofun⟩
  exact ⟨⟨hadm, hidle, hon, hscript⟩,
    select_fires t (atMsec 10) script (steady_run 3 (atMsec 0) hadm) hidle hon hscript⟩

end SelectRun

end Swoole
