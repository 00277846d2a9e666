import Swoole.Network.Session

/-!
# Accepting connections

`swServer_master_onAccept` accepts up to `SW_ACCEPT_MAX_COUNT` connections at once.  Each one that
is not beyond `max_connection` is entered by `swServer_connection_new`: it is counted, gets a
session and becomes active.  Then an SSL object may have to be made for it, and it is added to its
reactor.  If one of these fails, the connection is zeroed and its socket closed by hand.

`swReactorThread_close` takes everything back, the count and the session as well.  The exits of the
accept loop do not: the count stays too high by one, and the session keeps the descriptor.

A round of the loop is one step here, and connections may be closed between two rounds, as the
reactor threads do.
-/

namespace Swoole

open StepRun List Function Finset

/-- The settings that accepting depends on: `factory_mode == SW_MODE_SINGLE`, the number of reactor
threads, `SwooleWG.id` and whether the listening port uses SSL. -/
structure AcceptSettings where
  single : Bool
  reactorNum : ℕ
  workerId : ℕ
  ssl : Bool

/-- The server; `eventNum` is the `event_num` of each reactor. -/
structure AcceptServer where
  sessions : SessionServer
  acceptCount : ℕ
  closeCount : ℕ
  connectionNum : ℕ
  eventNum : ℕ → ℕ
  disableAccept : Bool

/-- What `accept` answers, and for a new socket whether `swSSL_create` and `reactor->add` then
succeed. -/
inductive AcceptAnswer where
  | again
  | interrupted
  /-- `EMFILE` or `ENFILE`. -/
  | exhausted
  | failed
  | accepted (fd : ℕ) (sslCreated added : Bool)
  deriving DecidableEq, Repr

namespace AcceptServer

def init (maxConnection : ℕ) : AcceptServer where
  sessions := .init maxConnection
  acceptCount := 0
  closeCount := 0
  connectionNum := 0
  eventNum := fun _ => 0
  disableAccept := false

variable (cfg : AcceptSettings) (s : AcceptServer)

/-- The reactor of a descriptor. -/
def reactorOf (fd : ℕ) : ℕ := if cfg.single then 0 else fd % cfg.reactorNum

/-- `swServer_connection_new`; `connection_num` has 32 bits. -/
def connectionNew (fd : ℕ) : AcceptServer :=
  { s with
    acceptCount := s.acceptCount + 1
    connectionNum := (s.connectionNum + 1) % 2 ^ 32
    sessions := s.sessions.connectionNew fd
      (if cfg.single then cfg.workerId else reactorOf cfg fd) }

/-- The connection is zeroed. -/
def bzero (fd : ℕ) : AcceptServer :=
  { s with
    sessions :=
      { s.sessions with
        connectionList := update s.sessions.connectionList fd .zero } }

/-- The socket is added to its reactor. -/
def add (fd : ℕ) : AcceptServer :=
  { s with
    eventNum :=
      update s.eventNum (reactorOf cfg fd) (s.eventNum (reactorOf cfg fd) + 1) }

/-- `swServer_master_onAccept`: one round of its loop, and whether there may be another one. -/
def acceptRound : AcceptAnswer → AcceptServer × Bool
  | .again => (s, false)
  | .interrupted => (s, true)
  | .exhausted => ({ s with disableAccept := true }, false)
  | .failed => (s, false)
  | .accepted fd sslCreated added =>
    if s.sessions.maxConnection ≤ fd then (s, false)
    else if cfg.ssl = true ∧ sslCreated = false then ((s.connectionNew cfg fd).bzero fd, false)
    else if added = false then ((s.connectionNew cfg fd).bzero fd, false)
    else ((s.connectionNew cfg fd).add cfg fd, true)

/-- `swReactorThread_close`; `deleted` is whether `reactor->del` succeeds, if it is called. -/
def close (fd : ℕ) (deleted : Bool) : AcceptServer :=
  match s.sessions.connectionGet fd with
  | none => s
  | some conn =>
    if conn.removed = false ∧ deleted = false then s
    else
      { s with
        closeCount := s.closeCount + 1
        connectionNum := (s.connectionNum + (2 ^ 32 - 1)) % 2 ^ 32
        sessions := s.sessions.close fd deleted
        eventNum :=
          if conn.removed then s.eventNum
          else
            update s.eventNum (reactorOf cfg fd)
              (s.eventNum (reactorOf cfg fd) - 1) }

/-- A round of the accept loop, or a close. -/
inductive Event where
  | accept (answer : AcceptAnswer)
  | close (fd : ℕ) (deleted : Bool)
  deriving DecidableEq, Repr

def step (s : AcceptServer) : Event → AcceptServer
  | .accept answer => (s.acceptRound cfg answer).1
  | .close fd deleted => s.close cfg fd deleted

/-- The kernel gives out a descriptor that is free, and whoever closes a connection has found it
active. -/
def Admissible (s : AcceptServer) : Event → Prop
  | .accept (.accepted fd _ _) => 3 ≤ fd ∧ (s.sessions.connectionList fd).active = false
  | .accept _ => True
  | .close fd _ => (s.sessions.connectionList fd).active = true

instance (s : AcceptServer) (event : Event) : Decidable (s.Admissible event) := by
  unfold Admissible
  split <;> infer_instance

/-! ## The contract -/

/-- The descriptors of the active connections. -/
def activeFds : Finset ℕ :=
  (Finset.range s.sessions.maxConnection).filter fun fd =>
    (s.sessions.connectionList fd).active = true

/-- **The contract of a state**: the active connections are counted. -/
def Counted (s : AcceptServer) : Prop := s.connectionNum = s.activeFds.card

/-- The accept of `fd` fails behind `swServer_connection_new`. -/
def FailsFor (fd : ℕ) : Event → Prop
  | .accept (.accepted fd' sslCreated added) =>
    fd' = fd ∧ fd < s.sessions.maxConnection ∧
      (cfg.ssl = true ∧ sslCreated = false ∨ added = false)
  | .accept _ | .close _ _ => False

/-- **The contract of a step**: a failed accept leaves no session behind, and the count and the
reactors as they were. -/
def Traceless (s : AcceptServer) (event : Event) : Prop :=
  ∀ fd, s.FailsFor cfg fd event →
    (∀ i, ((s.step cfg event).sessions.sessionList i).fd ≠ fd) ∧
      (s.step cfg event).connectionNum = s.connectionNum ∧ (s.step cfg event).eventNum = s.eventNum

/-- **The condition**: the accept does not fail there. -/
def NoFailure (s : AcceptServer) (event : Event) : Prop := ∀ fd, ¬ s.FailsFor cfg fd event

/-- The active connections lie in the table, whose size is a `uint32_t`. -/
structure InTable (s : AcceptServer) : Prop where
  max_lt : s.sessions.maxConnection < 2 ^ 32
  range : ∀ fd, (s.sessions.connectionList fd).active = true →
    3 ≤ fd ∧ fd < s.sessions.maxConnection

/-! ## Counting -/

variable {cfg s} {fd : ℕ}

theorem mem_activeFds (h : s.InTable) :
    fd ∈ s.activeFds ↔ (s.sessions.connectionList fd).active = true := by
  simp only [activeFds, Finset.mem_filter, Finset.mem_range, and_iff_right_iff_imp]
  exact fun hact => (h.range fd hact).2

/-- The count does not wrap around: the standard descriptors are no connections. -/
theorem card_activeFds_lt (h : s.InTable) : s.activeFds.card + 1 < 2 ^ 32 := by
  have hsub : s.activeFds ⊆ Finset.Ico 3 s.sessions.maxConnection := fun fd hfd =>
    mem_Ico.mpr (h.range fd ((mem_activeFds h).mp hfd))
  have hcard := card_le_card hsub
  rw [Nat.card_Ico] at hcard
  have hmax := h.max_lt
  omega

section update

variable {s' : AcceptServer} {conn : Connection}
  (hmax : s'.sessions.maxConnection = s.sessions.maxConnection)
  (hlist : s'.sessions.connectionList = update s.sessions.connectionList fd conn)

include hmax hlist

theorem activeFds_of_active (hconn : conn.active = true) (hfd : fd < s.sessions.maxConnection) :
    s'.activeFds = insert fd s.activeFds := by
  ext other
  by_cases hother : other = fd
  · subst hother
    simp [activeFds, hmax, hlist, hfd, hconn]
  · simp [activeFds, hmax, hlist, hother]

theorem activeFds_of_inactive (hconn : conn.active = false) :
    s'.activeFds = s.activeFds.erase fd := by
  ext other
  by_cases hother : other = fd
  · subst hother
    simp [activeFds, hlist, hconn]
  · simp [activeFds, hmax, hlist, hother]

theorem InTable.update (h : s.InTable)
    (hconn : conn.active = true → 3 ≤ fd ∧ fd < s.sessions.maxConnection) : s'.InTable := by
  refine ⟨hmax ▸ h.max_lt, ?_⟩
  rw [hmax, hlist]
  exact (forall_update_iff s.sessions.connectionList fun other c =>
    c.active = true → 3 ≤ other ∧ _).mpr ⟨hconn, fun other _ => h.range other⟩

end update

/-! ## Steps -/

/-- **A connection is accepted.** -/
theorem counted_accepted (htable : s.InTable) (h : s.Counted) (hlow : 3 ≤ fd)
    (hfd : fd < s.sessions.maxConnection) (hfree : (s.sessions.connectionList fd).active = false) :
    ((s.connectionNew cfg fd).add cfg fd).InTable ∧
      ((s.connectionNew cfg fd).add cfg fd).Counted := by
  refine ⟨@InTable.update s fd ((s.connectionNew cfg fd).add cfg fd) _ rfl rfl htable
    fun _ => ⟨hlow, hfd⟩, ?_⟩
  have hact : ((s.connectionNew cfg fd).add cfg fd).activeFds = insert fd s.activeFds :=
    @activeFds_of_active s fd ((s.connectionNew cfg fd).add cfg fd) _ rfl rfl rfl hfd
  have hnew : fd ∉ s.activeFds := by
    rw [mem_activeFds htable, hfree]
    exact Bool.false_ne_true
  have hlt := card_activeFds_lt htable
  unfold Counted at h ⊢
  rw [hact, card_insert_of_notMem hnew]
  show (s.connectionNum + 1) % 2 ^ 32 = _
  omega

/-- **An accept fails**: the connection is counted although it is not active. -/
theorem not_counted_failed (htable : s.InTable) (h : s.Counted)
    (hfree : (s.sessions.connectionList fd).active = false) :
    ¬ ((s.connectionNew cfg fd).bzero fd).Counted := by
  intro hcounted
  have hact : ((s.connectionNew cfg fd).bzero fd).activeFds = s.activeFds.erase fd :=
    @activeFds_of_inactive s fd ((s.connectionNew cfg fd).bzero fd) .zero rfl
      (update_idem ..) rfl
  have hnot : fd ∉ s.activeFds := by
    rw [mem_activeFds htable, hfree]
    exact Bool.false_ne_true
  have hcount : (s.connectionNum + 1) % 2 ^ 32 = s.activeFds.card := by
    unfold Counted at hcounted
    rwa [hact, erase_eq_of_notMem hnot] at hcounted
  rw [h] at hcount
  omega

/-- **A connection is closed.** -/
theorem counted_close (htable : s.InTable) (h : s.Counted)
    (hopen : (s.sessions.connectionList fd).active = true) (deleted : Bool) :
    (s.close cfg fd deleted).InTable ∧ (s.close cfg fd deleted).Counted := by
  obtain ⟨hlow, hhigh⟩ := htable.range fd hopen
  have hget : s.sessions.connectionGet fd = some (s.sessions.connectionList fd) :=
    if_neg (by omega)
  by_cases hkept : (s.sessions.connectionList fd).removed = false ∧ deleted = false
  · have hclose : s.close cfg fd deleted = s := by
      simp only [close, hget, if_pos hkept]
    rw [hclose]
    exact ⟨htable, h⟩
  have hnum : (s.close cfg fd deleted).connectionNum =
      (s.connectionNum + (2 ^ 32 - 1)) % 2 ^ 32 := by
    simp only [close, hget, if_neg hkept]
  have hmax : (s.close cfg fd deleted).sessions.maxConnection = s.sessions.maxConnection := by
    simp only [close, SessionServer.close, hget, if_neg hkept]
  have hlist : (s.close cfg fd deleted).sessions.connectionList =
      update s.sessions.connectionList fd { Connection.zero with removed := true } := by
    simp only [close, SessionServer.close, hget, if_neg hkept]
  refine ⟨htable.update hmax hlist fun hact => absurd hact Bool.false_ne_true, ?_⟩
  have hact := activeFds_of_inactive hmax hlist rfl
  have hmem : fd ∈ s.activeFds := (mem_activeFds htable).mpr hopen
  have hpos := card_pos.mpr ⟨fd, hmem⟩
  have hlt := card_activeFds_lt htable
  unfold Counted at h ⊢
  rw [hact, card_erase_of_mem hmem, hnum, h]
  omega

/-- **One step** keeps the contract exactly when no accept fails in it. -/
theorem counted_step_iff (htable : s.InTable) (h : s.Counted) {event : Event}
    (hadm : s.Admissible event) :
    ((s.step cfg event).Counted ↔ s.NoFailure cfg event) ∧
      (s.NoFailure cfg event → (s.step cfg event).InTable) := by
  cases event with
  | close fd deleted =>
    obtain ⟨htable', hcounted⟩ := @counted_close cfg s fd htable h hadm deleted
    exact ⟨⟨fun _ _ => id, fun _ => hcounted⟩, fun _ => htable'⟩
  | accept answer =>
    cases answer with
    | again | interrupted | failed => exact ⟨⟨fun _ _ => id, fun _ => h⟩, fun _ => htable⟩
    | exhausted => exact ⟨⟨fun _ _ => id, fun _ => h⟩, fun _ => ⟨htable.max_lt, htable.range⟩⟩
    | accepted fd sslCreated added =>
      obtain ⟨hlow, hfree⟩ := hadm
      by_cases hmax : s.sessions.maxConnection ≤ fd
      · -- too many connections
        have hstep : s.step cfg (.accept (.accepted fd sslCreated added)) = s := by
          simp only [step, acceptRound, if_pos hmax]
        rw [hstep]
        refine ⟨⟨fun _ fd' hfails => ?_, fun _ => h⟩, fun _ => htable⟩
        obtain ⟨rfl, hlt, -⟩ := hfails
        exact Nat.not_lt_of_le hmax hlt
      · have hfd := Nat.lt_of_not_le hmax
        by_cases hfails : cfg.ssl = true ∧ sslCreated = false ∨ added = false
        · have hstep : s.step cfg (.accept (.accepted fd sslCreated added)) =
              (s.connectionNew cfg fd).bzero fd := by
            simp only [step, acceptRound, if_neg hmax]
            rcases hfails with hssl | hadded
            · rw [if_pos hssl]
            · simp only [hadded, if_true, ite_self]
          have hnot : ¬ s.NoFailure cfg (.accept (.accepted fd sslCreated added)) :=
            fun hno => hno fd ⟨rfl, hfd, hfails⟩
          rw [hstep]
          exact ⟨⟨fun hcounted => absurd hcounted (not_counted_failed htable h hfree),
            fun hno => absurd hno hnot⟩, fun hno => absurd hno hnot⟩
        · have hstep : s.step cfg (.accept (.accepted fd sslCreated added)) =
              (s.connectionNew cfg fd).add cfg fd := by
            obtain ⟨hssl, hadded⟩ := not_or.mp hfails
            simp only [step, acceptRound, if_neg hmax, if_neg hssl, if_neg hadded]
          obtain ⟨htable', hcounted⟩ := @counted_accepted cfg s fd htable h hlow hfd hfree
          rw [hstep]
          exact ⟨⟨fun _ fd' hfails' => hfails hfails'.2.2, fun _ => hcounted⟩, fun _ => htable'⟩

theorem init_counted (maxConnection : ℕ) : (init maxConnection).Counted := by
  simp [Counted, init, activeFds, SessionServer.init, Connection.zero]

/-- **Failed accepts leave their traces.**  In a run of accepts, failed accepts and closes, every
state counts its active connections, and each failed accept leaves no session behind and the count
and the reactors as they were, if and only if no accept fails behind `swServer_connection_new`. -/
theorem traceless_iff_no_failure (cfg : AcceptSettings) (maxConnection : ℕ)
    (hmax : maxConnection < 2 ^ 32) (events : List Event)
    (hadm : EachStep (step cfg) Admissible (init maxConnection) events) :
    ((∀ used, used <+: events → (run (step cfg) (init maxConnection) used).Counted) ∧
        EachStep (step cfg) (Traceless cfg) (init maxConnection) events) ↔
      EachStep (step cfg) (NoFailure cfg) (init maxConnection) events := by
  have hiff : (∀ used, used <+: events → (run (step cfg) (init maxConnection) used).Counted) ↔
      EachStep (step cfg) (NoFailure cfg) (init maxConnection) events :=
    EachStep.forall_prefix_iff (I := InTable)
      (fun _ _ htable hcounted hadm hno => (counted_step_iff htable hcounted hadm).2 hno)
      (fun _ _ htable hcounted hadm => (counted_step_iff htable hcounted hadm).1)
      hadm ⟨hmax, fun _ hact => absurd hact Bool.false_ne_true⟩ (init_counted maxConnection)
  refine ⟨fun h => hiff.mp h.1, fun h => ⟨hiff.mpr h, ?_⟩⟩
  exact EachStep.imp (P := fun _ => True) (fun _ _ _ _ => trivial)
    (fun _ _ _ hno fd hfails => absurd hfails (hno fd)) h trivial

/-- A connection is accepted, closed, and its descriptor used again. -/
theorem counted_accept_and_close :
    (∀ used, used <+: [Event.accept (.accepted 7 true true), .close 7 true,
        .accept (.accepted 7 true true)] →
      (run (step ⟨false, 2, 0, true⟩) (init 1024) used).Counted) ∧
    EachStep (step ⟨false, 2, 0, true⟩) (Traceless ⟨false, 2, 0, true⟩) (init 1024)
      [.accept (.accepted 7 true true), .close 7 true, .accept (.accepted 7 true true)] := by
  refine (traceless_iff_no_failure ⟨false, 2, 0, true⟩ 1024 (by decide) _ (by decide)).mpr ?_
  refine ⟨?_, ?_, ?_, trivial⟩
  all_goals
    intro fd hfails
    simp [FailsFor] at hfails

/-- The socket cannot be added to its reactor: no connection is active, one is counted, and its
session stays in the table. -/
theorem not_counted_add_fails :
    EachStep (step ⟨false, 2, 0, false⟩) Admissible (init 1024)
      [.accept (.accepted 7 true false)] ∧
    ((init 1024).step ⟨false, 2, 0, false⟩ (.accept (.accepted 7 true false))).connectionNum = 1 ∧
    (∀ fd, (((init 1024).step ⟨false, 2, 0, false⟩
      (.accept (.accepted 7 true false))).sessions.connectionList fd).active = false) ∧
    (((init 1024).step ⟨false, 2, 0, false⟩
      (.accept (.accepted 7 true false))).sessions.sessionList 1).fd = 7 := by
  refine ⟨by decide, by decide, fun fd => ?_, by decide⟩
  by_cases hfd : fd = 7
  · subst hfd
    rfl
  · simp [step, acceptRound, bzero, connectionNew, init, SessionServer.init,
      SessionServer.connectionNew, Connection.zero]

end AcceptServer

end Swoole
