import Mathlib.Order.Interval.Finset.Nat
import Swoole.Library.StepRun

/-!
# The session table

A worker knows a connection by its session id, because the descriptor may be closed
and reused while a message is on its way.  Ids come from `session_round`, a counter
of 24 bits; the table has `SW_SESSION_LIST_SIZE` slots and an id lives in the slot
`id % SW_SESSION_LIST_SIZE`.  `swServer_connection_new` probes at most
`max_connection` ids for a vacant slot, `swReactorThread_close` vacates it, and
`swServer_connection_verify` turns an id back into a connection.

The counter wraps, and at the wrap the id zero is replaced by one, so the id one is
probed twice in a row.  Apart from that single repetition the probes visit distinct
slots, and every occupied slot belongs to a connection of its own: this is the
pigeonhole argument of `exists_vacant`.

`accepted` is a history variable: the accepts so far, latest first.  A connection's
`serial` is its place in that history, so that two connections on one descriptor
are told apart; the program has neither.
-/

open Function Finset

namespace Swoole

/-- `SW_SESSION_LIST_SIZE`. -/
def sessionListSize : ℕ := 1024 * 1024

/-- `swSession`: `fd` has 24 bits and `reactor_id` has 8. -/
structure Session where
  id : ℕ
  fd : ℕ
  reactorId : ℕ
  deriving DecidableEq

/-- `swConnection`, as far as the session table is concerned. -/
structure Connection where
  active : Bool
  removed : Bool
  fd : ℕ
  fromId : ℕ
  sessionId : ℕ
  serial : ℕ
  deriving DecidableEq

/-- A zeroed connection. -/
def Connection.zero : Connection := ⟨false, false, 0, 0, 0, 0⟩

/-- One accept: the connection's serial number, its descriptor and its id. -/
structure Accept where
  serial : ℕ
  fd : ℕ
  sessionId : ℕ
  deriving DecidableEq

/-- The part of the server that the session table is made of. -/
structure SessionServer where
  maxConnection : ℕ
  sessionRound : ℕ
  sessionList : ℕ → Session
  connectionList : ℕ → Connection
  accepted : List Accept

namespace SessionServer

/-- An empty server: `swServer_start_check` sets `session_round` to one. -/
def init (maxConnection : ℕ) : SessionServer where
  maxConnection := maxConnection
  sessionRound := 1
  sessionList := fun _ => ⟨0, 0, 0⟩
  connectionList := fun _ => Connection.zero
  accepted := []

variable (s : SessionServer)

/-- The index `swServer_get_session` looks an id up at. -/
def slot (sessionId : ℕ) : ℕ := sessionId % sessionListSize

/-- `swServer_get_session`. -/
def getSession (sessionId : ℕ) : Session := s.sessionList (slot sessionId)

/-- `swServer_connection_get`. -/
def connectionGet (fd : ℕ) : Option Connection :=
  if s.maxConnection < fd ∨ fd ≤ 2 then none else some (s.connectionList fd)

/-- `swServer_connection_verify`; the comparisons take the id as a `uint32_t`. -/
def connectionVerify (sessionId : ℕ) : Option Connection :=
  let session := s.getSession sessionId
  match s.connectionGet session.fd with
  | none => none
  | some conn =>
    if conn.active = false then none
    else if session.id ≠ sessionId ∨ conn.sessionId ≠ sessionId then none
    else some conn

/-! ## Accepting -/

/-- One round of the id loop: the id probed, and `session_round` afterwards. -/
def nextId (sessionRound : ℕ) : ℕ × ℕ :=
  let sessionId := sessionRound
  let sessionRound' := (sessionRound + 1) % 2 ^ 24
  if sessionId = 0 then (1, 1) else (sessionId, sessionRound')

/-- How the id loop ends. -/
structure Probe where
  found : Bool
  sessionId : ℕ
  sessionRound : ℕ
  deriving DecidableEq

/-- The id loop, for the attempts that are left. -/
def probeLoop (sessionList : ℕ → Session) : ℕ → ℕ → ℕ → Probe
  | 0, sessionId, sessionRound => ⟨false, sessionId, sessionRound⟩
  | attempts + 1, _, sessionRound =>
    let (sessionId, sessionRound') := nextId sessionRound
    if (sessionList (slot sessionId)).fd = 0 then ⟨true, sessionId, sessionRound'⟩
    else probeLoop sessionList attempts sessionId sessionRound'

/-- The search for a vacancy that `swServer_connection_new` makes. -/
def probe : Probe := probeLoop s.sessionList s.maxConnection 1 s.sessionRound

/-- `swServer_connection_new`. -/
def connectionNew (fd fromId : ℕ) : SessionServer :=
  let result := s.probe
  { s with
    sessionRound := result.sessionRound
    sessionList :=
      if result.found then
        update s.sessionList (slot result.sessionId)
          ⟨result.sessionId, fd % 2 ^ 24, fromId % 2 ^ 8⟩
      else s.sessionList
    connectionList :=
      update s.connectionList fd
        ⟨true, false, fd, fromId, result.sessionId % 2 ^ 24, s.accepted.length⟩
    accepted := ⟨s.accepted.length, fd, result.sessionId % 2 ^ 24⟩ :: s.accepted }

/-! ## Closing -/

/-- `swReactorThread_close`, with `swReactor_close` at its end; `deleted` is whether
`reactor->del` succeeds. -/
def close (fd : ℕ) (deleted : Bool) : SessionServer :=
  match s.connectionGet fd with
  | none => s
  | some conn =>
    if conn.removed = false ∧ deleted = false then s
    else
      { s with
        sessionList :=
          update s.sessionList (slot conn.sessionId)
            { s.getSession conn.sessionId with fd := 0 }
        connectionList :=
          update s.connectionList fd { Connection.zero with removed := true } }

/-- What can happen to the table. -/
inductive Op where
  | accept (fd fromId : ℕ)
  | close (fd : ℕ) (deleted : Bool)
  deriving DecidableEq

def step (s : SessionServer) : Op → SessionServer
  | .accept fd fromId => s.connectionNew fd fromId
  | .close fd deleted => s.close fd deleted

/-- A descriptor is accepted only while it is free and its index lies in the table;
and whoever closes a connection has found it active. -/
def Admissible (s : SessionServer) : Op → Prop
  | .accept fd _ =>
    3 ≤ fd ∧ fd < s.maxConnection ∧ (s.connectionList fd).active = false
  | .close fd _ => (s.connectionList fd).active = true

instance (s : SessionServer) (op : Op) : Decidable (s.Admissible op) := by
  unfold Admissible
  split <;> infer_instance

/-- The accept that last assigned an id. -/
def lastAssigned (sessionId : ℕ) : Option Accept :=
  s.accepted.find? (·.sessionId = sessionId)

/-! ## The probes -/

section Probes

/-- The id probed at attempt `k`, counted from zero. -/
def probed (sessionRound k : ℕ) : ℕ := max 1 ((sessionRound + k) % 2 ^ 24)

/-- Resetting the counter after the id zero changes nothing: it has just become one. -/
theorem nextId_eq {sessionRound : ℕ} (h : sessionRound < 2 ^ 24) :
    nextId sessionRound = (probed sessionRound 0, (sessionRound + 1) % 2 ^ 24) := by
  unfold nextId probed
  by_cases hzero : sessionRound = 0
  · subst hzero
    rfl
  · simp only [hzero, if_false, add_zero, Nat.mod_eq_of_lt h]
    rw [max_eq_right (by omega)]

theorem probed_succ (sessionRound k : ℕ) :
    probed ((sessionRound + 1) % 2 ^ 24) k = probed sessionRound (k + 1) := by
  unfold probed
  rw [show ((sessionRound + 1) % 2 ^ 24 + k) % 2 ^ 24 = (sessionRound + (k + 1)) % 2 ^ 24 by omega]

theorem probed_lt (sessionRound k : ℕ) : probed sessionRound k < 2 ^ 24 := by
  unfold probed
  omega

/-- The id loop stops at a vacant slot if there is one among its probes. -/
theorem probeLoop_of_vacant {sessionList : ℕ → Session} :
    ∀ (attempts sessionId : ℕ) {sessionRound : ℕ}, sessionRound < 2 ^ 24 →
      (∃ k < attempts, (sessionList (slot (probed sessionRound k))).fd = 0) →
      ∃ k, (sessionList (slot (probed sessionRound k))).fd = 0 ∧
        probeLoop sessionList attempts sessionId sessionRound =
          ⟨true, probed sessionRound k, (sessionRound + k + 1) % 2 ^ 24⟩ := by
  intro attempts
  induction attempts with
  | zero =>
    rintro _ _ _ ⟨k, hk, -⟩
    exact absurd hk (Nat.not_lt_zero k)
  | succ attempts ih =>
    rintro sessionId sessionRound hround ⟨k, hk, hvacant⟩
    unfold probeLoop
    simp only [nextId_eq hround]
    by_cases hhere : (sessionList (slot (probed sessionRound 0))).fd = 0
    · exact ⟨0, hhere, by rw [if_pos hhere]⟩
    · rw [if_neg hhere]
      cases k with
      | zero => exact absurd hvacant hhere
      | succ k =>
        obtain ⟨j, hj, heq⟩ := ih (probed sessionRound 0)
          (Nat.mod_lt (sessionRound + 1) (by decide : 2 ^ 24 > 0))
          ⟨k, by omega, by rw [probed_succ]; exact hvacant⟩
        rw [probed_succ] at hj heq
        refine ⟨j + 1, hj, ?_⟩
        rw [heq]
        congr 1
        omega

end Probes

/-! ## The invariant -/

/-- Active connections and occupied slots belong to each other, and an active
connection's id was not assigned again since. -/
structure Inv (s : SessionServer) : Prop where
  max_le : s.maxConnection ≤ sessionListSize
  round_lt : s.sessionRound < 2 ^ 24
  range : ∀ fd, (s.connectionList fd).active = true → 3 ≤ fd ∧ fd < s.maxConnection
  fd_eq : ∀ fd, (s.connectionList fd).active = true → (s.connectionList fd).fd = fd
  slot_eq : ∀ fd, (s.connectionList fd).active = true →
    (s.getSession (s.connectionList fd).sessionId).fd = fd ∧
      (s.getSession (s.connectionList fd).sessionId).id = (s.connectionList fd).sessionId
  owner : ∀ i, (s.sessionList i).fd ≠ 0 →
    (s.connectionList (s.sessionList i).fd).active = true ∧
      slot (s.connectionList (s.sessionList i).fd).sessionId = i
  last : ∀ fd, (s.connectionList fd).active = true →
    s.lastAssigned (s.connectionList fd).sessionId =
      some ⟨(s.connectionList fd).serial, fd, (s.connectionList fd).sessionId⟩

variable {s}

/-- What `swServer_connection_verify` returns. -/
theorem connectionVerify_eq_some {sessionId : ℕ} {conn : Connection}
    (h : s.connectionVerify sessionId = some conn) :
    conn = s.connectionList (s.getSession sessionId).fd ∧ conn.active = true ∧
      conn.sessionId = sessionId := by
  unfold connectionVerify connectionGet at h
  simp only at h
  split at h
  · cases h
  · next hget =>
    split_ifs at hget
    cases hget
    split_ifs at h with hinactive hids
    cases h
    exact ⟨rfl, by simpa using hinactive, by tauto⟩

/-- The invariant is one condition on each active connection, and one on each occupied slot. -/
theorem Inv.of_active (hmax : s.maxConnection ≤ sessionListSize) (hround : s.sessionRound < 2 ^ 24)
    (hact : ∀ fd, (s.connectionList fd).active = true →
      (3 ≤ fd ∧ fd < s.maxConnection) ∧ (s.connectionList fd).fd = fd ∧
        ((s.getSession (s.connectionList fd).sessionId).fd = fd ∧
          (s.getSession (s.connectionList fd).sessionId).id = (s.connectionList fd).sessionId) ∧
        s.lastAssigned (s.connectionList fd).sessionId =
          some ⟨(s.connectionList fd).serial, fd, (s.connectionList fd).sessionId⟩)
    (howner : ∀ i, (s.sessionList i).fd ≠ 0 →
      (s.connectionList (s.sessionList i).fd).active = true ∧
        slot (s.connectionList (s.sessionList i).fd).sessionId = i) : s.Inv :=
  ⟨hmax, hround, fun fd h => (hact fd h).1, fun fd h => (hact fd h).2.1,
    fun fd h => (hact fd h).2.2.1, howner, fun fd h => (hact fd h).2.2.2⟩

/-- **Pigeonhole.**  All probes but one visit distinct slots.  If all of these were
occupied, there would be nearly `max_connection` active connections, and there are
fewer descriptors to serve. -/
theorem Inv.exists_vacant (h : s.Inv) (hmax : 4 ≤ s.maxConnection) :
    ∃ k < s.maxConnection, (s.sessionList (slot (probed s.sessionRound k))).fd = 0 := by
  by_contra hnone
  have hle : s.maxConnection ≤ 1048576 := h.max_le
  -- the attempts that do not stand at the wrap of the counter
  let regular := (Finset.range s.maxConnection).filter
    fun k => (s.sessionRound + k) % 2 ^ 24 ≠ 0
  have hregular : s.maxConnection ≤ regular.card + 1 := by
    have hsplit := card_filter_add_card_filter_not (s := Finset.range s.maxConnection)
      fun k => (s.sessionRound + k) % 2 ^ 24 ≠ 0
    have hone : ((Finset.range s.maxConnection).filter
        fun k => ¬ (s.sessionRound + k) % 2 ^ 24 ≠ 0).card ≤ 1 := by
      refine card_le_one.mpr fun a ha b hb => ?_
      simp only [mem_filter, mem_range] at ha hb
      omega
    rw [card_range] at hsplit
    change regular.card + _ = _ at hsplit
    omega
  have hlt : ∀ k ∈ regular, k < s.maxConnection := fun k hk =>
    mem_range.mp (mem_filter.mp hk).1
  have hocc : ∀ k ∈ regular, (s.sessionList (slot (probed s.sessionRound k))).fd ≠ 0 :=
    fun k hk hzero => hnone ⟨k, hlt k hk, hzero⟩
  have hslot : ∀ k ∈ regular, slot (probed s.sessionRound k) = (s.sessionRound + k) % 1048576 := by
    intro k hk
    simp only [regular, mem_filter] at hk
    show max 1 ((s.sessionRound + k) % 2 ^ 24) % 1048576 = _
    omega
  have hcard : regular.card ≤ (Finset.Ico 3 s.maxConnection).card := by
    refine card_le_card_of_injOn
      (fun k => (s.sessionList (slot (probed s.sessionRound k))).fd) ?_ ?_
    · intro k hk
      rw [coe_Ico]
      exact h.range _ (h.owner _ (hocc k hk)).1
    · intro a ha b hb hab
      have hsame : slot (probed s.sessionRound a) = slot (probed s.sessionRound b) := by
        rw [← (h.owner _ (hocc a ha)).2, ← (h.owner _ (hocc b hb)).2]
        exact congrArg (fun fd => slot (s.connectionList fd).sessionId) hab
      have ha' := hlt a ha
      have hb' := hlt b hb
      rw [hslot a ha, hslot b hb] at hsame
      omega
  rw [Nat.card_Ico] at hcard
  omega

/-- What an admissible accept does: it takes a vacant slot for a fresh id. -/
theorem Inv.probe_eq (h : s.Inv) (hmax : 4 ≤ s.maxConnection) :
    ∃ sessionId sessionRound, s.probe = ⟨true, sessionId, sessionRound⟩ ∧
      (s.sessionList (slot sessionId)).fd = 0 ∧ sessionId < 2 ^ 24 ∧ sessionRound < 2 ^ 24 := by
  obtain ⟨k, hvacant, heq⟩ :=
    probeLoop_of_vacant s.maxConnection 1 h.round_lt (h.exists_vacant hmax)
  exact ⟨_, _, heq, hvacant, probed_lt _ _, Nat.mod_lt _ (by decide)⟩

theorem Inv.slot_ne_of_vacant (h : s.Inv) {fd i : ℕ} (hact : (s.connectionList fd).active = true)
    (hvacant : (s.sessionList i).fd = 0) : slot (s.connectionList fd).sessionId ≠ i := by
  rintro rfl
  have hfd : (s.sessionList (slot (s.connectionList fd).sessionId)).fd = fd :=
    (h.slot_eq fd hact).1
  have hrange := (h.range fd hact).1
  omega

theorem Inv.connectionNew (h : s.Inv) {fd fromId : ℕ} (hlow : 3 ≤ fd) (hhigh : fd < s.maxConnection)
    (hfree : (s.connectionList fd).active = false) : (s.connectionNew fd fromId).Inv := by
  obtain ⟨sid, round, hprobe, hvacant, hsid, hround⟩ := h.probe_eq (by omega)
  have hle : s.maxConnection ≤ 1048576 := h.max_le
  have hsid' : sid % 2 ^ 24 = sid := Nat.mod_eq_of_lt hsid
  have hfd' : fd % 2 ^ 24 = fd := Nat.mod_eq_of_lt (by omega)
  have heq : s.connectionNew fd fromId =
      { s with
        sessionRound := round
        sessionList :=
          update s.sessionList (slot sid) ⟨sid, fd, fromId % 2 ^ 8⟩
        connectionList :=
          update s.connectionList fd ⟨true, false, fd, fromId, sid, s.accepted.length⟩
        accepted := ⟨s.accepted.length, fd, sid⟩ :: s.accepted } := by
    unfold SessionServer.connectionNew
    simp only [hprobe, hsid', hfd', if_true]
  rw [heq]
  refine .of_active h.max_le hround (fun fd' hact => ?_) fun i hocc => ?_
  · by_cases hsame : fd' = fd
    · subst hsame
      refine ⟨⟨hlow, hhigh⟩, ?_⟩
      simp [getSession, lastAssigned]
    · simp only [update_of_ne hsame] at hact ⊢
      have hne := h.slot_ne_of_vacant hact hvacant
      have hsid : sid ≠ (s.connectionList fd').sessionId := fun hsid =>
        hne (congrArg slot hsid.symm)
      have hlast := h.last fd' hact
      unfold lastAssigned at hlast ⊢
      rw [List.find?_cons_of_neg (by simpa using hsid), hlast]
      simp only [getSession, update_of_ne hne]
      exact ⟨h.range fd' hact, h.fd_eq fd' hact, h.slot_eq fd' hact, trivial⟩
  · by_cases hi : i = slot sid
    · subst hi
      simp
    · simp only [update_of_ne hi] at hocc ⊢
      obtain ⟨hact, hslot⟩ := h.owner i hocc
      have hne : (s.sessionList i).fd ≠ fd := by
        intro hsame
        rw [hsame, hfree] at hact
        cases hact
      simp only [update_of_ne hne]
      exact ⟨hact, hslot⟩

theorem Inv.close (h : s.Inv) {fd : ℕ} {deleted : Bool}
    (hact : (s.connectionList fd).active = true) : (s.close fd deleted).Inv := by
  obtain ⟨hlow, hhigh⟩ := h.range fd hact
  have hget : s.connectionGet fd = some (s.connectionList fd) := by
    unfold connectionGet
    rw [if_neg (by omega)]
  unfold SessionServer.close
  rw [hget]
  simp only
  by_cases hkept : (s.connectionList fd).removed = false ∧ deleted = false
  · rw [if_pos hkept]
    exact h
  rw [if_neg hkept]
  -- the other connections live on other descriptors, so in other slots
  have hother : ∀ fd', fd' ≠ fd → (s.connectionList fd').active = true →
      slot (s.connectionList fd').sessionId ≠ slot (s.connectionList fd).sessionId := by
    intro fd' hne hactive' hslot
    have hfd' := (h.slot_eq fd' hactive').1
    rw [getSession, hslot] at hfd'
    exact hne (hfd'.symm.trans (h.slot_eq fd hact).1)
  refine .of_active h.max_le h.round_lt (fun fd' hactive' => ?_) fun i hocc => ?_
  · by_cases hsame : fd' = fd
    · subst hsame
      simp [Connection.zero] at hactive'
    · simp only [update_of_ne hsame] at hactive' ⊢
      simp only [getSession, update_of_ne (hother fd' hsame hactive')]
      exact ⟨h.range fd' hactive', h.fd_eq fd' hactive', h.slot_eq fd' hactive',
        h.last fd' hactive'⟩
  · by_cases hi : i = slot (s.connectionList fd).sessionId
    · subst hi
      simp at hocc
    · simp only [update_of_ne hi] at hocc ⊢
      obtain ⟨hactive', hslot⟩ := h.owner i hocc
      have hne : (s.sessionList i).fd ≠ fd := by
        intro hsame
        rw [hsame] at hslot
        exact hi hslot.symm
      simp only [update_of_ne hne]
      exact ⟨hactive', hslot⟩

theorem inv_init {maxConnection : ℕ} (hmax : maxConnection ≤ sessionListSize) :
    (init maxConnection).Inv := by
  refine ⟨hmax, (by decide : 1 < 2 ^ 24), ?_, ?_, ?_, ?_, ?_⟩ <;> simp [init, Connection.zero]

theorem Inv.step (h : s.Inv) {op : Op} (hop : s.Admissible op) : (s.step op).Inv := by
  cases op with
  | accept fd fromId => exact h.connectionNew hop.1 hop.2.1 hop.2.2
  | close fd deleted => exact h.close hop

/-! ## What the table promises -/

/-- **The session table is consistent**: the search for a vacancy succeeds, active
connections and occupied slots belong to each other, no two active connections share
an id, and an id is verified only as the connection it was last assigned to. -/
structure Consistent (s : SessionServer) : Prop where
  vacancy : ∀ fd, 3 ≤ fd → fd < s.maxConnection → (s.connectionList fd).active = false →
    s.probe.found = true
  slot_eq : ∀ fd, (s.connectionList fd).active = true →
    (s.getSession (s.connectionList fd).sessionId).fd = fd ∧
      (s.getSession (s.connectionList fd).sessionId).id = (s.connectionList fd).sessionId
  distinct : ∀ fd fd', (s.connectionList fd).active = true →
    (s.connectionList fd').active = true →
    (s.connectionList fd).sessionId = (s.connectionList fd').sessionId → fd = fd'
  owner : ∀ i, i < sessionListSize → (s.sessionList i).fd ≠ 0 →
    (s.connectionList (s.sessionList i).fd).active = true ∧
      slot (s.connectionList (s.sessionList i).fd).sessionId = i
  verified : ∀ sessionId conn, s.connectionVerify sessionId = some conn →
    conn = s.connectionList conn.fd ∧
      s.lastAssigned sessionId = some ⟨conn.serial, conn.fd, sessionId⟩

theorem Inv.consistent (h : s.Inv) : s.Consistent := by
  refine ⟨?_, h.slot_eq, ?_, fun i _ => h.owner i, ?_⟩
  · intro fd hlow hhigh _
    obtain ⟨sid, round, hprobe, -⟩ := h.probe_eq (by omega)
    rw [hprobe]
  · intro fd fd' hact hactive' hsid
    rw [← (h.slot_eq fd hact).1, ← (h.slot_eq fd' hactive').1, hsid]
  · intro sessionId conn hverify
    obtain ⟨rfl, hact, hsid⟩ := connectionVerify_eq_some hverify
    have hlast := h.last _ hact
    rw [hsid] at hlast
    rw [h.fd_eq _ hact]
    exact ⟨rfl, hlast⟩

end SessionServer

end Swoole
