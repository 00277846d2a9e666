import Swoole.Network.SharedResponse

/-!
# The lock of the shared memory

The lock that guards `send_shm` changes hands.  A worker takes it in `swFactoryProcess_finish`,
passes it on to the message that announces the response, and the reactor thread that reads the
message releases it.  So a call of `swFactoryProcess_finish` that fails may have to do one of
two things: before it has taken the lock there is nothing to release, and afterwards there is
nobody but itself to release it.

`Balanced e` counts the holders: the worker, a task worker or a message, and `e` for a holder
that no longer exists.  Every step keeps the account, except a write of the message that fails;
this one moves the worker's share to `e`, where it stays.  The checks in front of the lock
(the session, the overflow flag, a process without shared memory) come too early to do any
harm, and from an account without `e` the parties can always go on until the lock is free.
-/

open Function List

namespace Swoole

open StepRun
open Flight (largeOf pick pick_spec)

namespace ShmServer

/-- The steps of the server, and two ways for `swFactoryProcess_finish` to fail that need no
place of their own there. -/
inductive FinishEvent where
  | server (event : Event)
  /-- `swServer_tcp_send` in a process whose `send_shm` is `NULL`, such as a task worker. -/
  | sendBare (worker fd : ℕ) (data : Bytes) (conn : Option FinishConn)
  /-- `swReactor_write` fails at the out buffer: there is no memory, or it is too long and
  `socket_dontwait` is set. -/
  | refuse (worker : ℕ)
  deriving DecidableEq

/-- The call ends, and the message is lost. -/
def abandon (s : ShmServer) (id : ℕ) : ShmServer :=
  match (s.workers id).stage with
  | .sending _ _ => s.modifyWorker id fun k => { k with stage := .idle }
  | _ => s

/-- Without shared memory a large response is refused. -/
def bare (resp : SendData) : Option SendData := if 0 < resp.length then none else some resp

def finishStep (cfg : PipeSettings) (s : ShmServer) : FinishEvent → ShmServer
  | .server event => step cfg s event
  | .sendBare id fd data conn => s.beginFinish cfg id ((tcpSend cfg fd data).bind bare) conn
  | .refuse id => s.abandon id

/-- The worker is about to write the message of a large response. -/
def Announces (s : ShmServer) (id pipe : ℕ) : Prop :=
  ∃ message, (s.workers id).stage = .sending pipe message ∧ message.isBig = true

/-- The write of the message of a large response fails: at the pipe, which is asked only while
the out buffer is empty, or at the out buffer. -/
def Loses (s : ShmServer) (id : ℕ) : FinishEvent → Prop
  | .server (.write worker .error) =>
    worker = id ∧ ∃ pipe, s.Announces id pipe ∧ s.hasBacklog id pipe = false
  | .refuse worker => worker = id ∧ ∃ pipe, s.Announces id pipe
  | _ => False

/-- The step ends a call of `swFactoryProcess_finish` for a large response of the worker, and
the call returns an error. -/
def ReturnsError (cfg : PipeSettings) (s : ShmServer) (id : ℕ) (event : FinishEvent) : Prop :=
  match event with
  | .server (.send worker fd data conn) =>
    worker = id ∧ (s.workers id).stage = .idle ∧
      ∃ resp ∈ tcpSend cfg fd data, 0 < resp.length ∧ finish cfg resp conn = .idle
  | .sendBare worker fd data _ =>
    worker = id ∧ (s.workers id).stage = .idle ∧ ∃ resp ∈ tcpSend cfg fd data, 0 < resp.length
  | event => s.Loses id event

/-- If the lock is held, then by a task worker or for an earlier response that is on its way
to a reactor thread. -/
def Released (s : ShmServer) (id : ℕ) : Prop :=
  (s.workers id).lock = true → (s.workers id).taskHolds = true ∨ s.large id ≠ []

/-- The parties can go on in such a way that the lock becomes free. -/
def CanFree (cfg : PipeSettings) (s : ShmServer) (id : ℕ) : Prop :=
  ∃ more, ((run (finishStep cfg) s more).workers id).lock = false

/-- Messages of large responses are taken, by the pipe or by the out buffer. -/
def PipeTakes (s : ShmServer) (event : FinishEvent) : Prop := ∀ id, ¬s.Loses id event

end ShmServer

/-! ## Large messages are data -/

/-- A large response is data for a connection. -/
def FinishStage.Plain : FinishStage → Prop
  | .idle => True
  | .locking resp _ => resp.type = .tcp
  | .storing resp _ _ => resp.type = .tcp
  | .sending _ message => message.isBig = true → message.type = .tcp

/-- A message of a large response is one of data, and only such messages stay with a
reactor thread. -/
structure Flight.Plain (f : Flight) : Prop where
  type_eq : f.message.isBig = true → f.message.type = .tcp
  isBig : f.atReactor = true → f.message.isBig = true

variable {f : Flight}

theorem Flight.isBig_of_largeOf {id : ℕ} (h : f.largeOf id = true) : f.message.isBig = true := by
  unfold largeOf at h
  unfold PipeMessage.isBig
  split at h
  · cases h
  · rfl

namespace ShmServer

open FinishStage (holds)

structure Plain (s : ShmServer) : Prop where
  staged : ∀ id, (s.workers id).stage.Plain
  flying : ∀ f ∈ s.flights, f.Plain

variable {cfg : PipeSettings} {s : ShmServer} {id : ℕ}

theorem plain_initial (cfg : PipeSettings) : Plain (initial cfg) :=
  ⟨fun _ => trivial, forall_mem_nil _⟩

theorem Plain.modifyWorker {f : ShmWorker → ShmWorker} (h : Plain s)
    (hf : (f (s.workers id)).stage.Plain) : Plain (s.modifyWorker id f) where
  staged :=
    (forall_update_iff s.workers fun _ w => w.stage.Plain).mpr ⟨hf, fun id' _ => h.staged id'⟩
  flying := h.flying

theorem mem_bind_bare {resp : Option SendData} {r : SendData} (h : r ∈ resp.bind bare) :
    r.length = 0 := by
  obtain ⟨r', -, hr'⟩ := Option.bind_eq_some_iff.mp h
  simp only [bare] at hr'
  split_ifs at hr' with hlen
  cases hr'
  exact Nat.eq_zero_of_not_pos hlen

variable {p : Flight → Bool} {rest : List Flight} {pipe : ℕ} {Lost : ℕ → Prop} {s' : ShmServer}

section

variable (h : Plain s)
include h

theorem Plain.acquire : Plain (s.modifyWorker id acquire) := by
  refine h.modifyWorker ?_
  have hstaged := h.staged id
  unfold ShmServer.acquire
  split
  case h_2 => exact hstaged
  case h_1 resp fromId hstage =>
    split_ifs
    · exact hstaged
    · rw [hstage] at hstaged
      exact hstaged

theorem Plain.copyStep (count : ℕ) : Plain (s.modifyWorker id (copyStep cfg id count)) := by
  refine h.modifyWorker ?_
  have hstaged := h.staged id
  unfold ShmServer.copyStep
  split
  case h_2 => exact hstaged
  case h_1 resp fromId copied hstage =>
    rw [hstage] at hstaged
    dsimp only
    split_ifs
    · exact hstaged
    · exact fun _ => hstaged

theorem Plain.flights {flights : List Flight} (hf : ∀ f ∈ flights, f.Plain) :
    Plain { s with flights := flights } := ⟨h.staged, hf⟩

theorem Plain.pick (hpick : pick p s.flights = some (f, rest)) : f.Plain ∧ ∀ g ∈ rest, g.Plain := by
  obtain ⟨front, back, hflights, rfl, -⟩ := pick_spec hpick
  have hall := h.flying
  rw [hflights, forall_mem_append, forall_mem_cons] at hall
  exact ⟨hall.2.1, forall_mem_append.mpr ⟨hall.1, hall.2.2⟩⟩

theorem Plain.move {f f' : Flight}
    (hpick : Flight.pick p s.flights = some (f, rest)) (hmessage : f'.message = f.message)
    (hbig : f'.atReactor = true → f.message.isBig = true) :
    Plain { s with flights := rest ++ [f'] } := by
  obtain ⟨hf, hrest⟩ := h.pick hpick
  refine h.flights (forall_mem_append.mpr ⟨hrest, forall_mem_singleton.mpr ⟨?_, ?_⟩⟩)
  · rw [hmessage]
    exact hf.type_eq
  · rw [hmessage]
    exact hbig

theorem Plain.depart (hstage : (s.workers id).stage = .sending pipe f.message)
    (hf : f.atReactor = false) : Plain { s.modifyWorker id (fun k => { k with stage := .idle }) with
      flights := s.flights ++ [f] } := by
  have hstaged := h.staged id
  rw [hstage] at hstaged
  have hidle : Plain (s.modifyWorker id fun k => { k with stage := .idle }) :=
    h.modifyWorker trivial
  refine ⟨hidle.staged, forall_mem_append.mpr ⟨h.flying, forall_mem_singleton.mpr ⟨hstaged, ?_⟩⟩⟩
  intro hreactor
  exact absurd (hf.symm.trans hreactor) (by decide)

/-- **The step lemma.** -/
theorem Plain.change (hchange : Change cfg Lost s s') : Plain s' := by
  cases hchange with
  | stay => exact h
  | begin hidle hstage =>
    refine h.modifyWorker ?_
    cases hstage with
    | idle => trivial
    | locking hfits htype => exact htype
    | sending hsmall => exact fun hbig => absurd (hsmall.symm.trans hbig) (by decide)
  | acquire id => exact h.acquire
  | copy id count => exact h.copyStep count
  | taskLock id =>
    refine h.modifyWorker ?_
    unfold ShmServer.taskLock
    split_ifs <;> exact h.staged id
  | taskUnlock id =>
    refine h.modifyWorker ?_
    unfold ShmServer.taskUnlock
    split_ifs <;> exact h.staged id
  | depart hstage hf => exact h.depart hstage hf
  | leave hstage hlost => exact h.modifyWorker trivial
  | move hpick => exact h.move hpick rfl fun hreactor => by cases hreactor
  | pass hpick hcontent hcall =>
    refine h.move hpick rfl fun _ => ?_
    rw [PipeMessage.isBig, hcontent]
  | discard hpick hsmall => exact h.flights (h.pick hpick).2
  | release hpick hcontent hcall hdone =>
    have hrest := h.flights (h.pick hpick).2
    exact hrest.modifyWorker (hrest.staged _)

end

/-! ## What a step of the server or a failure can do -/

theorem change_finishStep {event : FinishEvent}
    (hlost : ∀ id, s.Loses id event → Lost id) : Change cfg Lost s (finishStep cfg s event) := by
  cases event with
  | server event =>
    refine change_step fun id pipe message hevent hstage hbacklog hbig => hlost id ?_
    rw [hevent]
    exact ⟨rfl, pipe, ⟨message, hstage, hbig⟩, hbacklog⟩
  | sendBare id fd data conn =>
    refine change_beginFinish fun r hr hlen => ?_
    exact absurd (mem_bind_bare hr) (ne_of_gt hlen)
  | refuse id =>
    show Change cfg Lost s (s.abandon id)
    unfold ShmServer.abandon
    split
    next pipe message hstage =>
      exact .leave hstage fun hbig => hlost id ⟨rfl, pipe, message, hstage, hbig⟩
    · exact .stay

/-! ## Both invariants, in every run -/

/-- The two invariants that the account of the lock rests on. -/
structure Orderly (cfg : PipeSettings) (s : ShmServer) : Prop where
  inv : Inv cfg s
  plain : Plain s

theorem orderly_initial (cfg : PipeSettings) : Orderly cfg (initial cfg) :=
  ⟨inv_initial cfg, plain_initial cfg⟩

theorem Orderly.finishStep (h : Orderly cfg s) (event : FinishEvent) :
    Orderly cfg (finishStep cfg s event) := by
  have hchange := @change_finishStep cfg s (fun _ => True) event fun _ _ => trivial
  exact ⟨h.inv.change hchange, h.plain.change hchange⟩

/-! ## The account of the lock -/

/-- The lock and its holders: the worker, a task worker, the messages on their way, and `e`
holders that do not exist any more. -/
def Balanced (e : ℕ) (s : ShmServer) (id : ℕ) : Prop :=
  (s.workers id).lock.toNat = (s.workers id).stage.holds.toNat +
    (s.workers id).taskHolds.toNat + (s.large id).length + e

theorem balanced_initial (cfg : PipeSettings) (id : ℕ) : Balanced 0 (initial cfg) id := rfl

theorem Orderly.taskHolds_le (h : Orderly cfg s) (id : ℕ) :
    (s.workers id).taskHolds.toNat ≤ (s.workers id).lock.toNat := by
  have halone := (h.inv id).alone
  omega

variable {e id' : ℕ} (h : Balanced e s id')
include h

theorem Balanced.modifyWorker {f : ShmWorker → ShmWorker}
    (hf : (f (s.workers id)).lock.toNat + (s.workers id).stage.holds.toNat +
        (s.workers id).taskHolds.toNat =
      (s.workers id).lock.toNat + (f (s.workers id)).stage.holds.toNat +
        (f (s.workers id)).taskHolds.toNat) : Balanced e (s.modifyWorker id f) id' := by
  by_cases hid : id' = id
  · subst hid
    simp only [Balanced, large, ShmServer.modifyWorker, update_self] at h ⊢
    omega
  · simpa only [Balanced, large, ShmServer.modifyWorker, update_of_ne hid] using h

theorem Balanced.acquire : Balanced e (s.modifyWorker id acquire) id' := by
  refine h.modifyWorker ?_
  unfold ShmServer.acquire
  split
  case h_2 => rfl
  case h_1 resp fromId hstage =>
    split_ifs with hlock
    · rfl
    · rw [hstage]
      simp [hlock, holds]

theorem Balanced.copyStep (count : ℕ) :
    Balanced e (s.modifyWorker id (copyStep cfg id count)) id' := by
  refine h.modifyWorker ?_
  unfold ShmServer.copyStep
  split
  case h_2 => rfl
  case h_1 resp fromId copied hstage =>
    dsimp only
    split_ifs <;> rw [hstage] <;> rfl

/-- The end of a call whose message did not announce a large response. -/
theorem Balanced.leave {message : PipeMessage}
    (hstage : (s.workers id).stage = .sending pipe message) (hsmall : message.isBig = false) :
    Balanced e (s.modifyWorker id fun k => { k with stage := .idle }) id' := by
  refine h.modifyWorker ?_
  rw [hstage]
  simp only [holds, hsmall]

variable (horderly : Orderly cfg s)
include horderly

theorem Balanced.taskLock : Balanced e (s.modifyWorker id taskLock) id' := by
  refine h.modifyWorker ?_
  have hle := horderly.taskHolds_le id
  unfold ShmServer.taskLock
  split_ifs with hlock
  · rfl
  · simp only [hlock, Bool.toNat_true, Bool.toNat_false] at hle ⊢
    omega

theorem Balanced.taskUnlock : Balanced e (s.modifyWorker id taskUnlock) id' := by
  refine h.modifyWorker ?_
  have hle := horderly.taskHolds_le id
  have hlock := Bool.toNat_le (s.workers id).lock
  unfold ShmServer.taskUnlock
  split_ifs with htask
  · simp only [htask, Bool.toNat_true, Bool.toNat_false] at hle ⊢
    omega
  · rfl

theorem Balanced.move {f f' : Flight}
    (hpick : pick p s.flights = some (f, rest)) (hmessage : f'.message = f.message) :
    Balanced e { s with flights := rest ++ [f'] } id' := by
  have hsame : f'.largeOf id' = f.largeOf id' := by rw [largeOf, largeOf, hmessage]
  have hlen : ((rest ++ [f']).filter (largeOf id')).length = (s.large id').length := by
    rw [filter_append]
    obtain ⟨hother, hrest⟩ | ⟨hown, hlarge, hrest⟩ := horderly.inv.pick hpick id'
    · rw [hrest, filter_cons_of_neg (by simp [hsame, hother]), filter_nil,
        append_nil]
    · rw [hrest, hlarge, filter_cons_of_pos (by simp [hsame, hown])]
      rfl
  rw [Balanced, large, hlen]
  exact h

theorem Balanced.discard {f : Flight}
    (hpick : pick p s.flights = some (f, rest)) (hsmall : f.message.isBig = false) :
    Balanced e { s with flights := rest } id' := by
  obtain ⟨-, hrest⟩ | ⟨hown, -⟩ := horderly.inv.pick hpick id'
  · rw [Balanced, large, hrest]
    exact h
  · exact absurd (hsmall.symm.trans (Flight.isBig_of_largeOf hown)) (by decide)

/-- The release of the lock ends the flight of the message that held it. -/
theorem Balanced.release {length : ℤ} {worker : ℕ} {passed : List Passage}
    (hpick : pick p s.flights = some (f, rest))
    (hcontent : f.message.content = .big length worker) :
    Balanced e ({ s with flights := rest }.modifyWorker worker fun k =>
      { k with lock := false, passed := passed }) id' := by
  obtain ⟨hother, hrest⟩ | ⟨hown, hlarge, hrest⟩ := horderly.inv.pick hpick id'
  · have hid : id' ≠ worker := by
      rintro rfl
      simp [largeOf, hcontent] at hother
    simp only [Balanced, large, ShmServer.modifyWorker, update_of_ne hid, hrest]
    exact h
  · have hid : id' = worker := by
      simpa [largeOf, hcontent, eq_comm] using hown
    subst hid
    have hle := Bool.toNat_le (s.workers id').lock
    simp only [Balanced, hlarge, length_singleton] at h
    simp only [Balanced, large, ShmServer.modifyWorker, update_self, hrest,
      length_nil, Bool.toNat_false]
    omega

/-- The message of a worker sets out, and takes the worker's share along. -/
theorem Balanced.depart (hstage : (s.workers id).stage = .sending pipe f.message) :
    Balanced e { s.modifyWorker id (fun k => { k with stage := .idle }) with
      flights := s.flights ++ [f] } id' := by
  have hshare : ((s.flights ++ [f]).filter (largeOf id')).length =
      (s.large id').length + (f.largeOf id').toNat := by
    cases hown : f.largeOf id' <;> simp [large, filter_append, hown]
  by_cases hid : id' = id
  · subst hid
    have hbig : f.largeOf id' = f.message.isBig := by
      refine Bool.eq_iff_iff.mpr ⟨Flight.isBig_of_largeOf, fun hbig => ?_⟩
      have hstaged := (horderly.inv id').staged
      rw [hstage] at hstaged
      obtain ⟨resp, hc⟩ := hstaged hbig
      simp [largeOf, hc.content_eq]
    simp only [Balanced, large, hstage, holds] at h
    simp only [Balanced, large, ShmServer.modifyWorker, update_self, holds,
      Bool.toNat_false, hshare, hbig]
    omega
  · have hother : f.largeOf id' = false := Bool.eq_false_iff.mpr fun hown =>
      hid (horderly.inv.largeOf_sending hstage hown).1
    simp only [Balanced, large, ShmServer.modifyWorker, update_of_ne hid, hshare, hother]
    exact h

/-- Every step keeps the account of a worker, unless it loses a message of this worker. -/
theorem Balanced.change (hchange : Change cfg Lost s s') (hkeeps : ¬Lost id') :
    Balanced e s' id' := by
  cases hchange with
  | stay => exact h
  | begin hidle hstage =>
    refine h.modifyWorker ?_
    rw [hidle]
    cases hstage with
    | idle => rfl
    | locking hfits => rfl
    | sending hsmall => simp only [holds, hsmall]
  | acquire worker => exact h.acquire
  | copy worker count => exact h.copyStep count
  | taskLock worker => exact h.taskLock horderly
  | taskUnlock worker => exact h.taskUnlock horderly
  | depart hstage hf => exact h.depart horderly hstage
  | @leave worker pipe message hstage hlost =>
    by_cases hid : id' = worker
    · subst hid
      exact h.leave hstage (Bool.eq_false_iff.mpr fun hbig => hkeeps (hlost hbig))
    · simpa only [Balanced, large, ShmServer.modifyWorker, update_of_ne hid] using h
  | move hpick => exact h.move horderly hpick rfl
  | pass hpick hcontent hcall => exact h.move horderly hpick rfl
  | @discard p f rest hpick hsmall =>
    refine h.discard horderly hpick (Bool.eq_false_iff.mpr fun hbig => ?_)
    have hdeny := hsmall hbig
    rw [(horderly.plain.pick hpick).1.type_eq hbig] at hdeny
    rcases hdeny with hdeny | hdeny <;> cases hdeny
  | release hpick hcontent hcall hdone => exact h.release horderly hpick hcontent

variable {event : FinishEvent}

theorem Balanced.finishStep (hkeeps : ¬s.Loses id' event) :
    Balanced e (finishStep cfg s event) id' :=
  h.change horderly (change_finishStep fun _ hloses => hloses) hkeeps

/-! ## A write that fails -/

omit h horderly

theorem Announces.of_loses (h : s.Loses id event) : ∃ pipe, s.Announces id pipe := by
  unfold Loses at h
  split at h
  · obtain ⟨-, pipe, hannounces, -⟩ := h
    exact ⟨pipe, hannounces⟩
  · exact h.2
  · exact h.elim

theorem Balanced.lose (h : Balanced e s id) (hloses : s.Loses id event) :
    Balanced (e + 1) (ShmServer.finishStep cfg s event) id := by
  obtain ⟨pipe, message, hstage, hbig⟩ := Announces.of_loses hloses
  have hleft : ShmServer.finishStep cfg s event =
      s.modifyWorker id fun k => { k with stage := .idle } := by
    unfold Loses at hloses
    split at hloses
    · obtain ⟨rfl, pipe', ⟨message', hstage', -⟩, hbacklog⟩ := hloses
      simp only [ShmServer.finishStep, ShmServer.step, ShmServer.write, hstage', hbacklog,
        Bool.false_eq_true, if_false]
    · obtain ⟨rfl, -⟩ := hloses
      simp only [ShmServer.finishStep, ShmServer.abandon, hstage]
    · exact hloses.elim
  rw [hleft]
  simp only [Balanced, large, hstage, holds, hbig, Bool.toNat_true] at h
  simp only [Balanced, large, ShmServer.modifyWorker, update_self, holds,
    Bool.toNat_false]
  omega

theorem Balanced.lost (h : Balanced (e + 1) s id) :
    (s.workers id).lock = true ∧ (s.workers id).stage.holds = false ∧
      (s.workers id).taskHolds = false ∧ s.large id = [] := by
  have hle := Bool.toNat_le (s.workers id).lock
  rw [Balanced] at h
  refine ⟨?_, ?_, ?_, length_eq_zero_iff.mp (by omega)⟩
  · cases hlock : (s.workers id).lock with
    | true => rfl
    | false =>
      rw [hlock, Bool.toNat_false] at h
      omega
  all_goals exact Bool.toNat_eq_zero.mp (by omega)

theorem Balanced.not_loses (h : Balanced (e + 1) s id) : ¬s.Loses id event := by
  intro hloses
  obtain ⟨pipe, message, hstage, hbig⟩ := Announces.of_loses hloses
  have hholds := h.lost.2.1
  rw [hstage] at hholds
  exact absurd (hholds.symm.trans hbig) (by decide)

theorem Balanced.locked_forever (h : Balanced (e + 1) s id) (horderly : Orderly cfg s)
    (more : List FinishEvent) :
    ((run (ShmServer.finishStep cfg) s more).workers id).lock = true := by
  have hrun := run_invariant (f := ShmServer.finishStep cfg)
    (P := fun s => Orderly cfg s ∧ Balanced (e + 1) s id)
    (fun s event hs => ⟨hs.1.finishStep event, hs.2.finishStep hs.1 hs.2.not_loses⟩) more
    ⟨horderly, h⟩
  exact hrun.2.lost.1

/-! ## From a level account the lock becomes free -/

end ShmServer

/-- The steps that a message has before it. -/
def Place.weight : Place → ℕ
  | .backlog _ => 3
  | .kernel => 2
  | .reactor _ => 1

/-- The steps that a call has before it, those of its message included. -/
def FinishStage.weight : FinishStage → ℕ
  | .storing .. => 5
  | .sending .. => 4
  | _ => 0

namespace ShmServer

variable {cfg : PipeSettings} {s : ShmServer} {id : ℕ}

/-- The steps that all messages together have before them. -/
def flightWeight (flights : List Flight) : ℕ := (flights.map fun f => f.place.weight).sum

/-- The steps until nobody holds the lock of the worker. -/
def weight (s : ShmServer) (id : ℕ) : ℕ :=
  (s.workers id).stage.weight + (s.workers id).taskHolds.toNat + flightWeight s.flights

theorem flightWeight_append (l l' : List Flight) :
    flightWeight (l ++ l') = flightWeight l + flightWeight l' := by
  simp [flightWeight]

theorem flightWeight_singleton (f : Flight) : flightWeight [f] = f.place.weight := by
  simp [flightWeight]

variable {flights : List Flight}

theorem flightWeight_pick (h : pick p flights = some (f, rest)) :
    flightWeight flights = flightWeight rest + f.place.weight := by
  obtain ⟨front, back, rfl, rfl, -⟩ := pick_spec h
  simp only [flightWeight, map_append, map_cons, sum_append, sum_cons]
  omega

theorem exists_pick (hf : f ∈ flights) (hp : p f = true) :
    ∃ f' rest, pick p flights = some (f', rest) ∧ p f' = true := by
  obtain ⟨f', hfind⟩ := Option.isSome_iff_exists.mp (find?_isSome.mpr ⟨f, hf, hp⟩)
  exact ⟨f', flights.eraseP p, by rw [pick, hfind]; rfl, find?_some hfind⟩

theorem weight_copy {resp : SendData} {fromId copied : ℕ} (h : Orderly cfg s)
    (hstage : (s.workers id).stage = .storing resp fromId copied) :
    weight (s.modifyWorker id (copyStep cfg id resp.length)) id < weight s id := by
  have hstaged := (h.inv id).staged
  rw [hstage] at hstaged
  obtain ⟨⟨hlen, -⟩, hcopied, -⟩ := hstaged
  have hall : ¬copied + (((resp.data.take resp.length).drop copied).take resp.length).length <
      resp.length := by
    rw [hlen, take_length, length_take, length_drop]
    omega
  simp only [weight, modifyWorker, update_self, copyStep, hstage, if_neg hall, FinishStage.weight]
  omega

theorem weight_write {message : PipeMessage}
    (hstage : (s.workers id).stage = .sending pipe message) :
    weight (s.write id .taken) id < weight s id := by
  simp only [write, hstage]
  split_ifs
  all_goals
    simp only [weight, modifyWorker, update_self, flightWeight_append,
      flightWeight_singleton, Place.weight, FinishStage.weight, hstage]
    omega

theorem weight_taskUnlock (htask : (s.workers id).taskHolds = true) :
    weight (s.modifyWorker id taskUnlock) id < weight s id := by
  simp only [weight, modifyWorker, update_self, taskUnlock, htask, if_true,
    Bool.toNat_true, Bool.toNat_false]
  omega

theorem Place.weight_pos (place : Place) : 0 < place.weight := by
  cases place <;> simp [Place.weight]

/-- A reactor thread is done with a response: the kernel takes nothing of it now. -/
theorem weight_sent (h : Plain s) (hf : f ∈ s.flights) (hreactor : f.atReactor = true) :
    weight (s.sent cfg f.pipe (.fail .eagain)) id < weight s id := by
  obtain ⟨f', rest, hpick, hp⟩ := exists_pick (p := fun g => g.pipe = f.pipe ∧ g.atReactor) hf
    (by simp [hreactor])
  have hbig := (h.pick hpick).1.isBig (by simpa using (of_decide_eq_true hp).2)
  have hsum := flightWeight_pick hpick
  have hpos := Place.weight_pos f'.place
  unfold PipeMessage.isBig at hbig
  split at hbig
  case h_1 => cases hbig
  case h_2 length workerId hcontent =>
    have hdone : (f'.call.map (SendCall.answer cfg (s.announced length workerId) ·
        (.fail .eagain))).any SendCall.waits = false := by
      cases f'.call with
      | none => rfl
      | some call => exact SendCall.waits_eagain
    simp only [sent, hpick, hcontent, hdone, Bool.false_eq_true, if_false]
    by_cases hid : id = workerId
    · subst hid
      simp only [weight, modifyWorker, update_self]
      omega
    · simp only [weight, modifyWorker, update_of_ne hid]
      omega

theorem weight_receive (hfree : ∀ g ∈ s.flights, g.atReactor = false) (hf : f ∈ s.flights)
    (hkernel : f.place = .kernel) :
    weight (s.receive cfg f.pipe none false) id < weight s id := by
  obtain ⟨f', rest, hpick, hp⟩ := exists_pick (p := fun g => g.pipe = f.pipe ∧ g.place = .kernel)
    hf (by simp [hkernel])
  have hplace : f'.place = .kernel := (of_decide_eq_true hp).2
  have hsum := flightWeight_pick hpick
  rw [hplace, Place.weight] at hsum
  have hbusy : s.busy cfg f.pipe = false := by
    rw [busy, any_eq_false]
    intro g hg
    simp [hfree g hg]
  simp only [receive, hbusy, hpick, Bool.false_eq_true, if_false]
  split_ifs
  · simp only [weight]
    omega
  · split
    · simp only [weight]
      omega
    · simp only [weight, flightWeight_append, flightWeight_singleton, Place.weight]
      omega

theorem weight_flush {worker : ℕ} (hf : f ∈ s.flights) (hbacklog : f.place = .backlog worker) :
    weight (s.flush worker f.pipe) id < weight s id := by
  obtain ⟨f', rest, hpick, hp⟩ :=
    exists_pick (p := fun g => g.pipe = f.pipe ∧ g.place = .backlog worker) hf
      (by simp [hbacklog])
  have hplace : f'.place = .backlog worker := (of_decide_eq_true hp).2
  have hsum := flightWeight_pick hpick
  rw [hplace, Place.weight] at hsum
  simp only [flush, hpick, weight, flightWeight_append, flightWeight_singleton, Place.weight]
  omega

theorem exists_flight_step (h : Plain s) (hsome : s.flights ≠ []) :
    ∃ event : Event, (∀ w answer, event ≠ .write w answer) ∧
      weight (step cfg s event) id < weight s id := by
  by_cases hreactor : ∃ f ∈ s.flights, f.atReactor = true
  · obtain ⟨f, hf, hat⟩ := hreactor
    exact ⟨.sent f.pipe (.fail .eagain), nofun, weight_sent h hf hat⟩
  · have hfree : ∀ g ∈ s.flights, g.atReactor = false := fun g hg =>
      Bool.eq_false_iff.mpr fun hat => hreactor ⟨g, hg, hat⟩
    obtain ⟨f, hf⟩ := exists_mem_of_ne_nil _ hsome
    cases hplace : f.place with
    | backlog worker => exact ⟨.flush worker f.pipe, nofun, weight_flush hf hplace⟩
    | kernel => exact ⟨.receive f.pipe none false, nofun, weight_receive hfree hf hplace⟩
    | reactor call =>
      have hat := hfree f hf
      rw [Flight.atReactor, hplace] at hat
      cases hat

/-- As long as the lock is held, a step brings its release nearer, and loses nothing. -/
theorem Balanced.exists_step (h : Balanced 0 s id) (horderly : Orderly cfg s)
    (hlock : (s.workers id).lock = true) :
    ∃ event, ¬s.Loses id event ∧ weight (ShmServer.finishStep cfg s event) id < weight s id := by
  by_cases hholds : (s.workers id).stage.holds = true
  · cases hstage : (s.workers id).stage with
    | storing resp fromId copied =>
      exact ⟨.server (.copy id resp.length), nofun, weight_copy horderly hstage⟩
    | sending pipe message => exact ⟨.server (.write id .taken), nofun, weight_write hstage⟩
    | idle =>
      rw [hstage] at hholds
      cases hholds
    | locking resp fromId =>
      rw [hstage] at hholds
      cases hholds
  · by_cases htask : (s.workers id).taskHolds = true
    · exact ⟨.server (.taskUnlock id), nofun, weight_taskUnlock htask⟩
    · have hsome : s.flights ≠ [] := by
        intro hnone
        rw [Balanced, large, hnone, hlock, Bool.eq_false_iff.mpr hholds,
          Bool.eq_false_iff.mpr htask] at h
        cases h
      obtain ⟨event, hwrite, hlt⟩ := exists_flight_step horderly.plain hsome
      refine ⟨.server event, fun hloses => ?_, hlt⟩
      cases event with
      | write w answer => exact hwrite w answer rfl
      | _ => exact hloses

theorem Balanced.canFree (h : Balanced 0 s id) (horderly : Orderly cfg s) : s.CanFree cfg id := by
  obtain ⟨more, -, hfree⟩ := exists_run_of_measure (f := ShmServer.finishStep cfg)
    (I := fun s => Orderly cfg s ∧ Balanced 0 s id)
    (Q := fun s => (s.workers id).lock = false) (B := fun _ => True) Nat.lt_wfRel.wf
    (fun s => weight s id)
    (fun s hs hlock => by
      obtain ⟨event, hkeeps, hlt⟩ := hs.2.exists_step hs.1 (Bool.not_eq_false _ ▸ hlock)
      exact ⟨event, trivial, .inr ⟨⟨hs.1.finishStep event, hs.2.finishStep hs.1 hkeeps⟩, hlt⟩⟩)
    ⟨horderly, h⟩
  exact ⟨more, hfree⟩

/-- **The lock has one holder at most**, in every state that the parties can reach and also if
writes fail: the worker, a task worker or a message on its way, and then the lock is taken.  The
lock can become free unless it is taken and none of them holds it. -/
theorem lock_exclusive_run (cfg : PipeSettings) (events : List FinishEvent) (id : ℕ) :
    let s := run (finishStep cfg) (initial cfg) events
    let holders := (s.workers id).stage.holds.toNat + (s.workers id).taskHolds.toNat +
      (s.large id).length
    holders ≤ (s.workers id).lock.toNat ∧
      (s.CanFree cfg id ↔ holders = (s.workers id).lock.toNat) := by
  have hstep : ∀ (s : ShmServer) (event : FinishEvent), Orderly cfg s ∧ (∃ e, Balanced e s id) →
      Orderly cfg (finishStep cfg s event) ∧ ∃ e, Balanced e (finishStep cfg s event) id := by
    rintro s event ⟨horderly, e, h⟩
    refine ⟨horderly.finishStep event, ?_⟩
    by_cases hloses : s.Loses id event
    · exact ⟨e + 1, h.lose hloses⟩
    · exact ⟨e, h.finishStep horderly hloses⟩
  obtain ⟨horderly, e, h⟩ := run_invariant hstep events
    ⟨orderly_initial cfg, 0, balanced_initial cfg id⟩
  have hlock := h
  unfold Balanced at hlock
  refine ⟨by omega, ?_⟩
  cases e with
  | zero => exact iff_of_true (h.canFree horderly) (by omega)
  | succ e =>
    refine iff_of_false ?_ (by omega)
    rintro ⟨more, hfree⟩
    exact absurd (h.locked_forever horderly more) (by simp [hfree])

/-! ## The lock does not leak -/

theorem ReturnsError.holds_eq_false (h : ReturnsError cfg s id event) (hkeeps : ¬s.Loses id event) :
    ((ShmServer.finishStep cfg s event).workers id).stage.holds = false := by
  unfold ReturnsError at h
  split at h
  case h_1 worker fd data conn =>
    obtain ⟨rfl, hidle, resp, hresp, -, hfinish⟩ := h
    simp [ShmServer.finishStep, ShmServer.step, Option.mem_def.mp hresp, ShmServer.beginFinish,
      hfinish, ShmServer.begin, hidle, ShmServer.modifyWorker, FinishStage.holds]
  case h_2 worker fd data conn =>
    obtain ⟨rfl, hidle, resp, hresp, hlen⟩ := h
    simp [ShmServer.finishStep, Option.mem_def.mp hresp, bare, hlen, ShmServer.beginFinish,
      hidle, FinishStage.holds]
  case h_3 => exact absurd h hkeeps

theorem Balanced.released (h : Balanced 0 s id) (hholds : (s.workers id).stage.holds = false) :
    s.Released id := by
  intro hlock
  by_cases htask : (s.workers id).taskHolds = true
  · exact .inl htask
  · refine .inr fun hnone => ?_
    rw [Balanced, hnone, hlock, hholds, Bool.eq_false_iff.mpr htask] at h
    cases h

theorem ReturnsError.of_loses (h : s.Loses id event) : ReturnsError cfg s id event := by
  unfold ReturnsError
  split
  · exact h.elim
  · exact h.elim
  · exact h

theorem Balanced.not_released (h : Balanced 0 s id) (hloses : s.Loses id event) :
    ¬(ShmServer.finishStep cfg s event).Released id := by
  intro hreleased
  have hlose : Balanced 1 (ShmServer.finishStep cfg s event) id := h.lose hloses
  obtain ⟨hlock, -, htask, hlarge⟩ := hlose.lost
  rcases hreleased hlock with hholds | hsome
  · exact absurd (htask.symm.trans hholds) (by decide)
  · exact hsome hlarge

/-- **The lock does not leak, exactly when no write of a large message fails**: in a run whose
large messages are all taken by a pipe or an out buffer, every call of
`swFactoryProcess_finish` for a large response that returns an error leaves the lock to a task
worker or to an earlier response, if it is held at all, and the lock can become free; a run in
which the write of such a message fails has a call for which this is not so. -/
theorem lock_released_iff (cfg : PipeSettings) (events : List FinishEvent) :
    EachStep (finishStep cfg)
        (fun s event => ∀ id, ReturnsError cfg s id event →
          (finishStep cfg s event).Released id ∧ (finishStep cfg s event).CanFree cfg id)
        (initial cfg) events ↔
      EachStep (finishStep cfg) PipeTakes (initial cfg) events := by
  refine eachStep_congr (I := fun s => Orderly cfg s ∧ ∀ id, Balanced 0 s id) ?_ ?_ events
    ⟨orderly_initial cfg, balanced_initial cfg⟩
  · rintro s event ⟨horderly, hbalanced⟩
    constructor
    · intro h id hloses
      exact (hbalanced id).not_released hloses (h id (ReturnsError.of_loses hloses)).1
    · intro htakes id herror
      have hnext := (hbalanced id).finishStep horderly (htakes id)
      exact ⟨hnext.released (herror.holds_eq_false (htakes id)),
        hnext.canFree (horderly.finishStep event)⟩
  · rintro s event ⟨horderly, hbalanced⟩ htakes
    exact ⟨horderly.finishStep event, fun id => (hbalanced id).finishStep horderly (htakes id)⟩

/-- The steps of a call for a large response, up to the write of its message. -/
def storeSteps (fd : ℕ) (data : Bytes) : List FinishEvent :=
  [.server (.send 0 fd data (some ⟨false, false, false, 0⟩)), .server (.lock 0),
    .server (.copy 0 data.length)]

/-- The call is ready to write its message, and nothing waits for the pipe. -/
theorem loses_of_storeSteps {fd : ℕ} {data : Bytes} (hbig : bufferSize ≤ data.length)
    (hmax : data.length < cfg.bufferOutputSize) :
    (run (finishStep cfg) (initial cfg) (storeSteps fd data)).Loses 0
      (.server (.write 0 .error)) := by
  obtain ⟨hsend, hfinish⟩ := @finish_of_big cfg fd data hbig hmax 0
  refine ⟨rfl, pipeWorkerId cfg 0 fd, ⟨⟨fd, .tcp, .big (toInt32 data.length) 0⟩, ?_, rfl⟩, ?_⟩
  · simp [storeSteps, finishStep, step, hsend, hfinish, beginFinish, begin, initial, modifyWorker,
      acquire, copyStep]
  · simp [storeSteps, finishStep, step, hsend, hfinish, beginFinish, begin, initial, modifyWorker,
      acquire, copyStep, hasBacklog]

theorem balanced_storeSteps (cfg : PipeSettings) (fd : ℕ) (data : Bytes) :
    Orderly cfg (run (finishStep cfg) (initial cfg) (storeSteps fd data)) ∧
      Balanced 0 (run (finishStep cfg) (initial cfg) (storeSteps fd data)) 0 := by
  refine run_invariant_of_inputs (P := fun s => Orderly cfg s ∧ Balanced 0 s 0)
    (B := fun event => ∀ s : ShmServer, ¬s.Loses 0 event) ?_ (storeSteps fd data) ?_
    ⟨orderly_initial cfg, balanced_initial cfg 0⟩
  · rintro s event hkeeps ⟨horderly, hbalanced⟩
    exact ⟨horderly.finishStep event, hbalanced.finishStep horderly (hkeeps s)⟩
  · intro event hevent s hloses
    simp only [storeSteps, mem_cons, not_mem_nil, or_false] at hevent
    rcases hevent with rfl | rfl | rfl <;> exact hloses

/-- One worker with room for a response that is just too long for a pipe message. -/
def tightSettings : PipeSettings where
  bufferOutputSize := bufferSize + 1
  socketBufferSize := bufferSize
  disableNotify := false
  reactorNum := 1
  reactorPipeNum := 1
  bufferOutputSize_lt := by decide

/-- The pipe refuses the message of a large response: the call returns an error with the lock
held by nobody, and whatever happens afterwards, it is never free again. -/
theorem not_lock_released_refused :
    ¬EachStep (finishStep tightSettings)
        (fun s event => ∀ id, ReturnsError tightSettings s id event →
          (finishStep tightSettings s event).Released id ∧
            (finishStep tightSettings s event).CanFree tightSettings id)
        (initial tightSettings)
        (storeSteps 1 (replicate bufferSize 0) ++ [.server (.write 0 .error)]) ∧
      ∀ more, ((run (finishStep tightSettings) (initial tightSettings)
        (storeSteps 1 (replicate bufferSize 0) ++
          .server (.write 0 .error) :: more)).workers 0).lock = true := by
  have hloses : (run (finishStep tightSettings) (initial tightSettings)
      (storeSteps 1 (replicate bufferSize 0))).Loses 0 (.server (.write 0 .error)) := by
    apply loses_of_storeSteps
    · rw [length_replicate]
    · rw [length_replicate]
      exact Nat.lt_succ_self bufferSize
  obtain ⟨horderly, hbalanced⟩ :=
    balanced_storeSteps tightSettings 1 (replicate bufferSize 0)
  constructor
  · intro h
    have hlast := ((eachStep_append _ _).mp h).2.1
    exact hbalanced.not_released hloses (hlast 0 (ReturnsError.of_loses hloses)).1
  · intro more
    rw [run_append, run_cons]
    exact (hbalanced.lose hloses).locked_forever (horderly.finishStep _) more

end ShmServer

end Swoole
