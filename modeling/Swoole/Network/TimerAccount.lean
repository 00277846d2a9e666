import Mathlib.Algebra.Group.Action.Defs
import Mathlib.Algebra.Order.BigOperators.Group.Finset
import Swoole.Network.TimerAgenda

/-!
# The books of a select

`swTimer_select` reads the clock once and then calls back every timer whose deadline is not
later than that, the earliest first.  A callback may add timers, delete others and mark its own
timer for removal.  `History` lists the callbacks that were made and what became of the timers,
and `Account` relates the lists to the agenda.  It has one lemma for each thing that can happen,
and none of them mentions the heap.

The loop ends because a callback cannot make new work for it.  A timer that is added is due
after the start of the select.  A tick timer that has fired gets a deadline that is not before
the start, and behind it if the old one was at the start, so a tick timer fires at most twice:
`load` counts the callbacks that the pending timers can still ask for.
-/

namespace Swoole

open List Finset

/-- A call of a timer's callback. -/
structure Firing where
  id : ℤ
  tick : Bool
  execMsec : ℤ
  deriving DecidableEq, Repr

def TimerNode.firing (n : TimerNode) : Firing := ⟨n.id, decide (0 < n.interval), n.execMsec⟩

/-- The history of a select: the callbacks it made, the ids of the timers that were added,
deleted by `swTimer_del` and marked by their own callback, and of those that the select itself
took out of the heap. -/
structure History where
  fired : List Firing
  added : List ℤ
  cleared : List ℤ
  marked : List ℤ
  removed : List ℤ

namespace History

def nil : History := ⟨[], [], [], [], []⟩

/-- The callback of an after timer with this id was called. -/
def FiredAfter (h : History) (i : ℤ) : Prop := ∃ f ∈ h.fired, f.id = i ∧ f.tick = false

/-- How often the callback of the timer was called. -/
def times (h : History) (i : ℤ) : ℕ := (h.fired.map Firing.id).count i

end History

/-- The same timer, later on: an after timer keeps its deadline. -/
structure SameTimer (n₀ n : TimerNode) : Prop where
  id_eq : n₀.id = n.id
  interval_eq : n₀.interval = n.interval
  exec_eq : n.interval = 0 → n.execMsec = n₀.execMsec

theorem SameTimer.refl (n : TimerNode) : SameTimer n n := ⟨rfl, rfl, fun _ => rfl⟩

/-! ## The account of the timers -/

/-- **The account** of a select that found the timers `A₀` and the next id `first` and read
`now` from the clock: what the history says about the pending timers `A`, while the callback of
`current` is running. -/
structure Account (A₀ : Finset TimerNode) (first now : ℤ) (A : Finset TimerNode)
    (current : Option TimerNode) (nextId : ℤ) (h : History) : Prop where
  numbered₀ : Numbered A₀ first
  numbered : Numbered A nextId
  first_le : first ≤ nextId
  current_mem : ∀ n ∈ current, n ∈ A
  current_due : ∀ n ∈ current, n.execMsec ≤ now
  current_fired : ∀ n ∈ current, ∃ f ∈ h.fired, f.id = n.id ∧ f.tick = decide (0 < n.interval)
  ids : ∀ i, (∃ n ∈ A, n.id = i) ↔
    ((∃ n ∈ A₀, n.id = i) ∨ i ∈ h.added) ∧ i ∉ h.cleared ∧ i ∉ h.removed
  added_ge : ∀ i ∈ h.added, first ≤ i
  seen_lt : ∀ i, i ∈ h.cleared ∨ i ∈ h.removed ∨ i ∈ h.marked → i < nextId
  origin : ∀ n ∈ A, (n.id ∈ h.added ∧ now < n.execMsec) ∨ ∃ n₀ ∈ A₀, SameTimer n₀ n
  disjoint : ∀ i ∈ h.cleared, i ∉ h.removed
  due : ∀ f ∈ h.fired, f.execMsec ≤ now
  fired_origin : ∀ f ∈ h.fired, ∃ n₀ ∈ A₀, n₀.id = f.id ∧ f.tick = decide (0 < n₀.interval)
  flag : ∀ n ∈ A, n.remove = true ↔ n.id ∈ h.marked
  removed_iff : ∀ i, i ∈ h.removed ↔
    (h.FiredAfter i ∨ i ∈ h.marked) ∧ ∀ n ∈ current, n.id ≠ i
  times_eq : ∀ n₀ ∈ A₀, n₀.interval = 0 →
    h.times n₀.id = if n₀.id ∈ h.removed ∨ ∃ n ∈ current, n.id = n₀.id then 1 else 0

namespace Account

variable {A₀ A : Finset TimerNode} {first now nextId : ℤ} {current : Option TimerNode}
  {h : History} {m n : TimerNode}

theorem begin (hA : Numbered A₀ first) (hmarked : ∀ n ∈ A₀, n.remove = false) :
    Account A₀ first now A₀ none first .nil where
  numbered₀ := hA
  numbered := hA
  first_le := le_rfl
  current_mem := nofun
  current_due := nofun
  current_fired := nofun
  ids := fun i => by simp [History.nil]
  added_ge := nofun
  seen_lt := by simp [History.nil]
  origin := fun n hn => .inr ⟨n, hn, .refl n⟩
  disjoint := nofun
  due := nofun
  fired_origin := nofun
  flag := fun n hn => by simp [History.nil, hmarked n hn]
  removed_iff := by simp [History.nil, History.FiredAfter]
  times_eq := fun n₀ _ _ => by simp [History.nil, History.times]

theorem exists_id_erase (hA : Numbered A nextId) (hn : n ∈ A) (i : ℤ) :
    (∃ x ∈ A.erase n, x.id = i) ↔ (∃ x ∈ A, x.id = i) ∧ i ≠ n.id := by
  constructor
  · rintro ⟨x, hx, rfl⟩
    exact ⟨⟨x, mem_of_mem_erase hx, rfl⟩, hA.id_ne hn hx⟩
  · rintro ⟨⟨x, hx, rfl⟩, hne⟩
    exact ⟨x, mem_erase.mpr ⟨fun heq => hne (by rw [heq]), hx⟩, rfl⟩

section

variable (ha : Account A₀ first now A current nextId h)
include ha

theorem not_gone (hn : n ∈ A) :
    n.id ∉ h.cleared ∧ n.id ∉ h.removed := ((ha.ids n.id).mp ⟨n, hn, rfl⟩).2

theorem origin_of_due (hn : n ∈ A) (hdue : n.execMsec ≤ now) :
    ∃ n₀ ∈ A₀, SameTimer n₀ n := by
  rcases ha.origin n hn with ⟨-, hlate⟩ | horigin
  · exact absurd hdue (not_le.mpr hlate)
  · exact horigin

theorem skip : Account A₀ first now A current (nextId + 1) h :=
  { ha with
    numbered := ⟨ha.numbered.unique, fun n hn => (ha.numbered.lt n hn).trans (by omega)⟩
    first_le := ha.first_le.trans (by omega)
    seen_lt := fun i hi => (ha.seen_lt i hi).trans (by omega) }

theorem insert (hid : n.id = nextId) (hlate : now < n.execMsec) (hremove : n.remove = false) :
    Account A₀ first now (insert n A) current (nextId + 1)
      { h with added := h.added ++ [nextId] } :=
  { ha with
    numbered := ha.numbered.insert hid
    first_le := ha.first_le.trans (by omega)
    current_mem := fun m hm => mem_insert_of_mem (ha.current_mem m hm)
    ids := by
      intro i
      have hnew : nextId ∉ h.cleared ∧ nextId ∉ h.removed :=
        ⟨fun hi => absurd (ha.seen_lt nextId (.inl hi)) (lt_irrefl _),
          fun hi => absurd (ha.seen_lt nextId (.inr (.inl hi))) (lt_irrefl _)⟩
      simp only [mem_insert, List.mem_append, List.mem_singleton, ← or_assoc]
      constructor
      · rintro ⟨m, rfl | hm, rfl⟩
        · exact ⟨.inr hid, hid ▸ hnew⟩
        · obtain ⟨hfrom, hgone⟩ := (ha.ids m.id).mp ⟨m, hm, rfl⟩
          exact ⟨.inl hfrom, hgone⟩
      · rintro ⟨hfrom | rfl, hgone⟩
        · obtain ⟨m, hm, rfl⟩ := (ha.ids i).mpr ⟨hfrom, hgone⟩
          exact ⟨m, .inr hm, rfl⟩
        · exact ⟨n, .inl rfl, hid⟩
    added_ge := forall_mem_append.mpr
      ⟨ha.added_ge, forall_mem_singleton.mpr ha.first_le⟩
    seen_lt := fun i hi => (ha.seen_lt i hi).trans (by omega)
    origin := by
      intro m hm
      rcases mem_insert.mp hm with rfl | hm
      · exact .inl ⟨by simp [hid], hlate⟩
      · exact (ha.origin m hm).imp_left fun hadded => ⟨mem_append_left _ hadded.1, hadded.2⟩
    flag := by
      intro m hm
      rcases mem_insert.mp hm with rfl | hm
      · have hmarked : nextId ∉ h.marked := fun hi =>
          absurd (ha.seen_lt nextId (.inr (.inr hi))) (lt_irrefl _)
        rw [hremove, hid]
        simp [hmarked]
      · exact ha.flag m hm }

theorem erase (hn : n ∈ A) (hother : ∀ c ∈ current, c.id ≠ n.id) :
    Account A₀ first now (A.erase n) current nextId { h with cleared := h.cleared ++ [n.id] } :=
  { ha with
    numbered := ha.numbered.erase n
    current_mem := fun c hc =>
      mem_erase.mpr ⟨fun heq => hother c hc (by rw [heq]), ha.current_mem c hc⟩
    ids := by
      intro i
      rw [exists_id_erase ha.numbered hn, ha.ids i]
      simp only [List.mem_append, List.mem_singleton, not_or]
      exact ⟨fun ⟨⟨hfrom, hcleared, hremoved⟩, hne⟩ => ⟨hfrom, ⟨hcleared, hne⟩, hremoved⟩,
        fun ⟨hfrom, ⟨hcleared, hne⟩, hremoved⟩ => ⟨⟨hfrom, hcleared, hremoved⟩, hne⟩⟩
    seen_lt := by
      intro i hi
      simp only [List.mem_append, List.mem_singleton, or_assoc] at hi
      rcases hi with hi | rfl | hi
      · exact ha.seen_lt i (.inl hi)
      · exact ha.numbered.lt n hn
      · exact ha.seen_lt i (.inr hi)
    origin := fun m hm => ha.origin m (mem_of_mem_erase hm)
    disjoint := forall_mem_append.mpr
      ⟨ha.disjoint, forall_mem_singleton.mpr (ha.not_gone hn).2⟩
    flag := fun m hm => ha.flag m (mem_of_mem_erase hm) }

end

theorem mem (ha : Account A₀ first now A (some m) nextId h) : m ∈ A := ha.current_mem m rfl

theorem current_origin (ha : Account A₀ first now A (some m) nextId h) :
    ∃ n₀ ∈ A₀, SameTimer n₀ m := ha.origin_of_due ha.mem (ha.current_due m rfl)

/-- The ids do not change when an entry is replaced by one with its id. -/
theorem exists_id_replace (hm : m ∈ A) (hid : n.id = m.id) (i : ℤ) :
    (∃ x ∈ Insert.insert n (A.erase m), x.id = i) ↔ ∃ x ∈ A, x.id = i := by
  constructor
  · rintro ⟨x, hx, rfl⟩
    rcases mem_insert.mp hx with rfl | hx
    · exact ⟨m, hm, hid.symm⟩
    · exact ⟨x, mem_of_mem_erase hx, rfl⟩
  · rintro ⟨x, hx, rfl⟩
    by_cases heq : x = m
    · exact ⟨n, mem_insert_self _ _, by rw [hid, heq]⟩
    · exact ⟨x, mem_insert_of_mem (mem_erase.mpr ⟨heq, hx⟩), rfl⟩

variable (ha : Account A₀ first now A (some m) nextId h)
include ha

theorem mark :
    Account A₀ first now (Insert.insert { m with remove := true } (A.erase m))
      (some { m with remove := true }) nextId { h with marked := h.marked ++ [m.id] } :=
  { ha with
    numbered := ha.numbered.replace ha.mem rfl
    current_mem := by
      rintro c ⟨⟩
      exact mem_insert_self _ _
    current_due := by
      rintro c ⟨⟩
      exact ha.current_due m rfl
    current_fired := by
      rintro c ⟨⟩
      exact ha.current_fired m rfl
    ids := by
      intro i
      rw [exists_id_replace ha.mem (n := { m with remove := true }) rfl i]
      exact ha.ids i
    seen_lt := by
      intro i hi
      simp only [List.mem_append, List.mem_singleton, ← or_assoc] at hi
      rcases hi with hi | rfl
      · exact ha.seen_lt i (or_assoc.mp hi)
      · exact ha.numbered.lt m ha.mem
    origin := by
      intro x hx
      rcases mem_insert.mp hx with rfl | hx
      · exact (ha.origin m ha.mem).imp_right fun ⟨n₀, hn₀, hsame⟩ =>
          ⟨n₀, hn₀, ⟨hsame.id_eq, hsame.interval_eq, hsame.exec_eq⟩⟩
      · exact ha.origin x (mem_of_mem_erase hx)
    flag := by
      intro x hx
      rcases mem_insert.mp hx with rfl | hx
      · simp
      · have hne := ha.numbered.id_ne ha.mem hx
        rw [ha.flag x (mem_of_mem_erase hx)]
        simp [hne]
    removed_iff := by
      intro i
      have hgone := (ha.not_gone ha.mem).2
      have hold := ha.removed_iff i
      by_cases hi : m.id = i
      · subst hi
        simp [hgone]
      · rw [hold]
        simp [hi, Ne.symm hi, History.FiredAfter]
    times_eq := by
      intro n₀ hn₀ hinterval
      have hold := ha.times_eq n₀ hn₀ hinterval
      simpa [History.times] using hold }

theorem pop
    (hend : ¬ (0 < m.interval ∧ m.remove = false)) :
    Account A₀ first now (A.erase m) none nextId { h with removed := h.removed ++ [m.id] } :=
  { ha with
    numbered := ha.numbered.erase m
    current_mem := nofun
    current_due := nofun
    current_fired := nofun
    ids := by
      intro i
      rw [exists_id_erase ha.numbered ha.mem, ha.ids i]
      simp only [List.mem_append, List.mem_singleton, not_or, and_assoc]
    seen_lt := by
      intro i hi
      simp only [List.mem_append, List.mem_singleton, or_assoc] at hi
      rcases hi with hi | hi | rfl | hi
      · exact ha.seen_lt i (.inl hi)
      · exact ha.seen_lt i (.inr (.inl hi))
      · exact ha.numbered.lt m ha.mem
      · exact ha.seen_lt i (.inr (.inr hi))
    origin := fun x hx => ha.origin x (mem_of_mem_erase hx)
    disjoint := by
      intro i hi hmem
      rcases mem_append.mp hmem with hold | hnew
      · exact ha.disjoint i hi hold
      · rw [List.mem_singleton.mp hnew] at hi
        exact (ha.not_gone ha.mem).1 hi
    flag := fun x hx => ha.flag x (mem_of_mem_erase hx)
    removed_iff := by
      intro i
      have hold := ha.removed_iff i
      simp only [Option.mem_def, Option.some.injEq, forall_eq', reduceCtorEq, IsEmpty.forall_iff,
        implies_true, and_true, List.mem_append, List.mem_singleton] at hold ⊢
      by_cases hi : i = m.id
      · -- the timer's callback was called, and it is an after timer or its mark is set
        subst hi
        refine iff_of_true (.inr rfl) ?_
        by_cases hafter : 0 < m.interval
        · right
          refine (ha.flag m ha.mem).mp ?_
          simpa using fun hremove => hend ⟨hafter, hremove⟩
        · left
          obtain ⟨f, hf, hid, htick⟩ := ha.current_fired m rfl
          exact ⟨f, hf, hid, by rw [htick]; simp [hafter]⟩
      · rw [hold]
        simp [hi, Ne.symm hi, History.FiredAfter]
    times_eq := by
      intro n₀ hn₀ hafter
      have hold := ha.times_eq n₀ hn₀ hafter
      simpa [History.times, eq_comm] using hold }

theorem sameTimer (hn : n ∈ A₀) (hid : n.id = m.id) : SameTimer n m := by
  obtain ⟨n₀, hn₀, hsame⟩ := ha.current_origin
  rwa [ha.numbered₀.unique n hn n₀ hn₀ (hid.trans hsame.id_eq.symm)]

/-- Behind the callback of a tick timer that is kept: it gets its next deadline. -/
theorem reschedule (htick : 0 < m.interval) (hkeep : m.remove = false) (hid : n.id = m.id)
    (hinterval : n.interval = m.interval) (hremove : n.remove = m.remove) :
    Account A₀ first now (Insert.insert n (A.erase m)) none nextId h :=
  { ha with
    numbered := ha.numbered.replace ha.mem hid
    current_mem := nofun
    current_due := nofun
    current_fired := nofun
    ids := fun i => (exists_id_replace ha.mem hid i).trans (ha.ids i)
    origin := by
      intro x hx
      rcases mem_insert.mp hx with rfl | hx
      · obtain ⟨n₀, hn₀, hsame⟩ := ha.current_origin
        refine .inr ⟨n₀, hn₀, ?_, ?_, ?_⟩
        · rw [hsame.id_eq, hid]
        · rw [hsame.interval_eq, hinterval]
        · omega
      · exact ha.origin x (mem_of_mem_erase hx)
    flag := by
      intro x hx
      rcases mem_insert.mp hx with rfl | hx
      · rw [hremove, hid]
        exact ha.flag m ha.mem
      · exact ha.flag x (mem_of_mem_erase hx)
    removed_iff := by
      intro i
      have hold := ha.removed_iff i
      by_cases hi : m.id = i
      · -- a tick timer that is not marked: nothing in the history removes it
        subst hi
        refine iff_of_false (ha.not_gone ha.mem).2 ?_
        rintro (⟨f, hf, hfid, hfafter⟩ | hmarked)
        · obtain ⟨n₀, hn₀, hid₀, htick₀⟩ := ha.fired_origin f hf
          rw [hfafter, (ha.sameTimer hn₀ (hid₀.trans hfid)).interval_eq] at htick₀
          simp [htick] at htick₀
        · rw [(ha.flag m ha.mem).mpr hmarked] at hkeep
          exact absurd hkeep (by decide)
      · rw [hold]
        simp [hi]
    times_eq := by
      intro n₀ hn₀ hafter
      have hother : m.id ≠ n₀.id := by
        intro heq
        have hsame := (ha.sameTimer hn₀ heq.symm).interval_eq
        omega
      have hold := ha.times_eq n₀ hn₀ hafter
      simpa [hother] using hold }

omit ha

theorem enter (ha : Account A₀ first now A none nextId h) (hm : m ∈ A)
    (hdue : m.execMsec ≤ now) :
    Account A₀ first now A (some m) nextId { h with fired := h.fired ++ [m.firing] } :=
  { ha with
    current_mem := by
      rintro c ⟨⟩
      exact hm
    current_due := by
      rintro c ⟨⟩
      exact hdue
    current_fired := by
      rintro c ⟨⟩
      exact ⟨m.firing, by simp, rfl, rfl⟩
    due := forall_mem_append.mpr ⟨ha.due, forall_mem_singleton.mpr hdue⟩
    fired_origin := by
      obtain ⟨n₀, hn₀, hsame⟩ := ha.origin_of_due hm hdue
      exact forall_mem_append.mpr ⟨ha.fired_origin, forall_mem_singleton.mpr
        ⟨n₀, hn₀, hsame.id_eq, by rw [hsame.interval_eq]; rfl⟩⟩
    removed_iff := by
      intro i
      have hold := ha.removed_iff i
      simp only [Option.mem_def, Option.some.injEq, forall_eq', reduceCtorEq, IsEmpty.forall_iff,
        implies_true, and_true] at hold ⊢
      by_cases hi : m.id = i
      · subst hi
        exact iff_of_false (ha.not_gone hm).2 fun hand => hand.2 rfl
      · rw [hold]
        simp [hi, History.FiredAfter, TimerNode.firing, or_and_right, exists_or]
    times_eq := by
      intro n₀ hn₀ hafter
      have hold := ha.times_eq n₀ hn₀ hafter
      have hcount : ({ h with fired := h.fired ++ [m.firing] } : History).times n₀.id =
          h.times n₀.id + if m.id = n₀.id then 1 else 0 := by
        simp [History.times, TimerNode.firing, count_singleton]
      rw [hcount, hold]
      by_cases hi : m.id = n₀.id
      · have hgone := (ha.not_gone hm).2
        rw [hi] at hgone
        simp [hi, hgone]
      · simp [hi] }

end Account

/-! ## What the timers can still ask for -/

/-- The callbacks that a timer can still get in a select that started at `now`. -/
def TimerNode.load (now : ℤ) (n : TimerNode) : ℕ :=
  if now < n.execMsec then 0 else if 0 < n.interval ∧ n.execMsec < now then 2 else 1

/-- The callbacks that a select can still make. -/
def load (now : ℤ) (A : Finset TimerNode) : ℕ := ∑ n ∈ A, n.load now

section Load

variable {A : Finset TimerNode} {now nextId : ℤ} {m n : TimerNode}

theorem load_insert (hlate : now < n.execMsec) : load now (insert n A) = load now A :=
  sum_insert_of_eq_zero_if_notMem fun _ => if_pos hlate

theorem load_erase_add (now : ℤ) (hm : m ∈ A) : load now (A.erase m) + m.load now = load now A :=
  sum_erase_add A _ hm

theorem load_replace (now : ℤ) (hA : Numbered A nextId) (hm : m ∈ A) (hid : n.id = m.id) :
    load now (insert n (A.erase m)) + m.load now = load now A + n.load now := by
  have hnew : n ∉ A.erase m := fun hn => hA.id_ne hm hn hid
  have hsum : load now (insert n (A.erase m)) = n.load now + load now (A.erase m) :=
    sum_insert hnew
  have hold := load_erase_add now hm
  omega

theorem one_le_load (hdue : n.execMsec ≤ now) : 1 ≤ n.load now := by
  unfold TimerNode.load
  rw [if_neg (not_lt.mpr hdue)]
  split_ifs <;> decide

theorem load_le_two (now : ℤ) (n : TimerNode) : n.load now ≤ 2 := by
  unfold TimerNode.load
  split_ifs <;> decide

theorem load_reschedule_lt {again : ℤ} (htick : 0 < m.interval) (hdue : m.execMsec ≤ now)
    (hagain : 0 < again → now ≤ again) (hexec : n.execMsec = Timer.nextExecMsec m now again) :
    n.load now < m.load now := by
  obtain ⟨hle, hlt⟩ := Timer.le_nextExecMsec htick hagain
  rcases hdue.lt_or_eq with hbefore | heq
  · unfold TimerNode.load
    split_ifs <;> omega
  · have hnone : n.load now = 0 := if_pos (hexec ▸ hlt heq)
    rw [hnone]
    exact one_le_load hdue

theorem load_le (now : ℤ) (A : Finset TimerNode) :
    load now A ≤ 2 * (A.filter fun n => n.execMsec ≤ now).card := by
  have hdue : load now A = ∑ n ∈ A.filter fun n => n.execMsec ≤ now, n.load now := by
    refine (sum_filter_of_ne fun n _ hload => ?_).symm
    by_contra hlate
    exact hload (if_pos (not_le.mp hlate))
  calc load now A
      = ∑ n ∈ A.filter fun n => n.execMsec ≤ now, n.load now := hdue
    _ ≤ ∑ _n ∈ A.filter fun n => n.execMsec ≤ now, 2 :=
        sum_le_sum fun n _ => load_le_two now n
    _ = 2 * (A.filter fun n => n.execMsec ≤ now).card := by
        rw [sum_const, smul_eq_mul, mul_comm]

end Load

end Swoole
