import Swoole.Network.Close
import Swoole.Library.Assoc

/-!
# `onClose` at most once

A session should see `onClose` at most once, whoever closes it and however the steps of the
parties are interleaved.  `AtMostOnce` says so: no two calls of `onClose` are for the same
id under the same accept.

`closing` and `closed` are there to ensure this, but `close_force`, which the heartbeat
thread sets, skips both, and they are read and written in separate steps.  `EndsAlone` is
what is asked of a call of `swFactoryProcess_end` when it begins, if it is not going to
return at once:

* the connection it finds has the id it was called with;
* the close is not a forced one on a connection that is closing or closed already;
* no other call on the connection has read the flags and not set `closing` yet, or has
  cleared `closing` and not set `closed` yet.

`atMostOnce_run` is the result: these conditions suffice along every run.  The invariant
says that a session which has seen `onClose`, and whose connection is still there, carries
the mark of it: `closing` or `closed`, or a call in between (`Marked`).  Apart from accepts
and the steps of calls, no step of the server touches what this depends on (`Quiet`).
-/

open Function List

namespace Swoole

/-- Taking a connection off the reactor does not concern the session table. -/
theorem SessionServer.Inv.remove {s : SessionServer} (h : s.Inv) (fd : ℕ) : (s.remove fd).Inv := by
  have hsame : ∀ fd', ((s.remove fd).connectionList fd').active = (s.connectionList fd').active ∧
      ((s.remove fd).connectionList fd').fd = (s.connectionList fd').fd ∧
      ((s.remove fd).connectionList fd').sessionId = (s.connectionList fd').sessionId ∧
      ((s.remove fd).connectionList fd').serial = (s.connectionList fd').serial := by
    intro fd'
    by_cases hfd : fd' = fd
    · subst hfd
      simp [SessionServer.remove]
    · simp [SessionServer.remove, update_of_ne hfd]
  refine .of_active h.max_le h.round_lt (fun fd' hact => ?_) fun i hocc => ?_
  · obtain ⟨hactive', hfd, hsid, hserial⟩ := hsame fd'
    rw [hactive'] at hact
    rw [hfd, hsid, hserial]
    exact ⟨h.range fd' hact, h.fd_eq fd' hact, h.slot_eq fd' hact, h.last fd' hact⟩
  · obtain ⟨hact, hslot⟩ := h.owner i hocc
    have hfd := hsame (s.sessionList i).fd
    exact ⟨hfd.1.trans hact, (congrArg slot hfd.2.2.1).trans hslot⟩

namespace CloseServer

open StepRun SessionServer

variable (cfg : CloseSettings) (s : CloseServer)

/-- **At most once**: no session has seen two calls of `onClose`. -/
def AtMostOnce : Prop := (s.closes.map fun c => (c.sessionId, c.session)).Nodup
  deriving Decidable

/-- The kernel hands out descriptors that are free. -/
def Admissible (s : CloseServer) : Event → Prop
  | .accept fd fromId _ => s.sessions.Admissible (.accept fd fromId)
  | _ => True

instance (event : Event) : Decidable (s.Admissible event) := by
  unfold Admissible
  split <;> infer_instance

/-- **The condition on a call** of `swFactoryProcess_end`, when it begins. -/
def EndsAlone (sessionId : ℕ) : Prop :=
  s.MayEnd sessionId →
    (s.sessions.connectionList (s.workerGetConnection sessionId)).sessionId = sessionId ∧
      ¬ ((s.conns (s.workerGetConnection sessionId)).closeForce = true ∧
        ((s.conns (s.workerGetConnection sessionId)).closing = true ∨
          (s.conns (s.workerGetConnection sessionId)).closed = true)) ∧
      ∀ call ∈ s.calls, call.fd = s.workerGetConnection sessionId →
        call.stage = .called ∨ call.stage = .marked
  deriving Decidable

def Orderly (s : CloseServer) : Event → Prop
  | .close sessionId => s.EndsAlone sessionId
  | .onTask k => ∀ sessionId ∈ s.tasks[k]?.toList, s.EndsAlone sessionId
  | _ => True

instance (event : Event) : Decidable (s.Orderly event) := by
  unfold Orderly
  split <;> infer_instance

/-! ## The invariant -/

/-- The connection of an accept is still there. -/
def Live (a : Accept) : Prop :=
  (s.sessions.connectionList a.fd).active = true ∧
    (s.sessions.connectionList a.fd).serial = a.serial

/-- A connection bears the mark of a close. -/
def Marked (fd : ℕ) : Prop :=
  (s.conns fd).closing = true ∨ (s.conns fd).closed = true ∨
    ∃ call ∈ s.calls, call.fd = fd ∧ call.stage = .cleared

/-- The connections that calls are about to set `closing` on. -/
def testedFds : List ℕ := (s.calls.filter (·.stage = .tested)).map EndCall.fd

structure Inv (s : CloseServer) : Prop where
  sessions : s.sessions.Inv
  serials : ∀ a ∈ s.sessions.accepted, a.serial < s.sessions.accepted.length
  tested : ∀ call ∈ s.calls, call.stage = .tested →
    (∃ a, call.session = some a ∧ a.fd = call.fd ∧ a.serial < s.sessions.accepted.length) ∧
      ∀ c ∈ s.closes, c.session ≠ call.session
  apart : s.testedFds.Nodup
  marked : ∀ c ∈ s.closes, ∃ a, c.session = some a ∧
    a.serial < s.sessions.accepted.length ∧ (s.Live a → s.Marked a.fd)
  once : s.AtMostOnce

variable {cfg s} {s' s'' : CloseServer} {sessionId fd : ℕ} {conn : Connection} {event : Event}

theorem connection_of_get (h : s.sessions.connectionGet fd = some conn) :
    conn = s.sessions.connectionList fd := by
  unfold connectionGet at h
  split_ifs at h
  exact (Option.some.inj h).symm

theorem active_of_verify (h : s.sessions.Inv)
    (hverify : s.sessions.connectionVerify sessionId = some conn) :
    (s.sessions.connectionList conn.fd).active = true := by
  rw [← (h.consistent.verified sessionId conn hverify).1]
  exact (connectionVerify_eq_some hverify).2.1

/-! ## Quiet steps -/

/-- Between `s` and `s'` no connection was accepted, no call has moved, and the connections
that are still there kept `closing` and `closed`. -/
structure Quiet (s s' : CloseServer) : Prop where
  calls : s'.calls = s.calls
  closes : s'.closes = s.closes
  accepted : s'.sessions.accepted = s.sessions.accepted
  sessions : s.sessions.Inv → s'.sessions.Inv
  kept : ∀ fd, (s'.sessions.connectionList fd).active = true →
    (s.sessions.connectionList fd).active = true ∧
      (s'.sessions.connectionList fd).serial = (s.sessions.connectionList fd).serial ∧
      (s'.conns fd).closing = (s.conns fd).closing ∧ (s'.conns fd).closed = (s.conns fd).closed

namespace Quiet

theorem refl (s : CloseServer) : Quiet s s :=
  ⟨rfl, rfl, rfl, id, fun _ h => ⟨h, rfl, rfl, rfl⟩⟩

theorem trans (h : Quiet s s') (h' : Quiet s' s'') : Quiet s s'' where
  calls := h'.calls.trans h.calls
  closes := h'.closes.trans h.closes
  accepted := h'.accepted.trans h.accepted
  sessions := h'.sessions ∘ h.sessions
  kept := fun fd hact => by
    obtain ⟨hactive', hserial', hclosing', hclosed'⟩ := h'.kept fd hact
    obtain ⟨hact, hserial, hclosing, hclosed⟩ := h.kept fd hactive'
    exact ⟨hact, hserial'.trans hserial, hclosing'.trans hclosing, hclosed'.trans hclosed⟩

/-- Flags other than `closing` and `closed` change. -/
theorem modifyConn (fd : ℕ) (f : CloseConn → CloseConn)
    (hclosing : ∀ c, (f c).closing = c.closing) (hclosed : ∀ c, (f c).closed = c.closed) :
    Quiet s (s.modifyConn fd f) where
  calls := rfl
  closes := rfl
  accepted := rfl
  sessions := id
  kept := fun fd' hact => by
    refine ⟨hact, rfl, ?_⟩
    by_cases hfd : fd' = fd
    · rw [hfd, modifyConn_self]
      exact ⟨hclosing _, hclosed _⟩
    · rw [modifyConn_of_ne hfd]
      exact ⟨rfl, rfl⟩

theorem remove (fd : ℕ) : Quiet s { s with sessions := s.sessions.remove fd } where
  calls := rfl
  closes := rfl
  accepted := rfl
  sessions := fun h => h.remove fd
  kept := fun fd' hact => by
    by_cases hfd : fd' = fd
    · subst hfd
      simp only [SessionServer.remove, update_self] at hact
      exact ⟨hact, by simp [SessionServer.remove], rfl, rfl⟩
    · simp only [SessionServer.remove, update_of_ne hfd] at hact
      exact ⟨hact, by simp [SessionServer.remove, update_of_ne hfd], rfl, rfl⟩

section

variable (hact : (s.sessions.connectionList fd).active = true)
include hact

theorem reactorClose (deleted : Bool) : Quiet s (s.reactorClose fd deleted) := by
  unfold CloseServer.reactorClose
  cases hget : s.sessions.connectionGet fd with
  | none => exact refl s
  | some conn =>
    simp only
    split
    · exact refl s
    · next hkept =>
      refine ⟨rfl, rfl, ?_, fun h => h.close hact, fun fd' hactive' => ?_⟩
      · simp only [close, hget, if_neg hkept]
      · simp only [close, hget, if_neg hkept] at hactive' ⊢
        by_cases hfd : fd' = fd
        · subst hfd
          simp [Connection.zero] at hactive'
        · rw [update_of_ne hfd] at hactive'
          rw [update_of_ne hfd, update_of_ne hfd]
          exact ⟨hactive', rfl, rfl, rfl⟩

theorem listen (registered deleted : Bool) : Quiet s (s.listen fd registered deleted) := by
  unfold CloseServer.listen
  split_ifs
  · exact refl s
  · exact reactorClose hact deleted

theorem modifyListen (f : CloseConn → CloseConn) (hclosing : ∀ c, (f c).closing = c.closing)
    (hclosed : ∀ c, (f c).closed = c.closed) (registered deleted : Bool) :
    Quiet s ((s.modifyConn fd f).listen fd registered deleted) :=
  (modifyConn fd f hclosing hclosed).trans
    (@listen (s.modifyConn fd f) fd hact registered deleted)

theorem modifyClose (f : CloseConn → CloseConn) (hclosing : ∀ c, (f c).closing = c.closing)
    (hclosed : ∀ c, (f c).closed = c.closed) (deleted : Bool) :
    Quiet s ((s.modifyConn fd f).reactorClose fd deleted) :=
  (modifyConn fd f hclosing hclosed).trans (@reactorClose (s.modifyConn fd f) fd hact deleted)

theorem onWriteLoop (taken : ℕ) (error deleted : Bool) :
    Quiet s (s.onWriteLoop fd taken error deleted) := by
  unfold CloseServer.onWriteLoop
  split
  · exact modifyConn fd _ (fun _ => rfl) (fun _ => rfl)
  · refine modifyClose hact _ ?_ ?_ deleted <;> exact fun _ => rfl
  · split_ifs
    · refine modifyClose hact _ ?_ ?_ deleted <;> exact fun _ => rfl
    · exact modifyConn fd _ (fun _ => rfl) (fun _ => rfl)

end

theorem notify (fd : ℕ) (delivery : Delivery) : Quiet s (s.notify fd delivery) := by
  unfold CloseServer.notify
  split
  · exact refl s
  · split_ifs
    · exact refl s
    · exact refl s
    · cases delivery <;> exact ⟨rfl, rfl, rfl, id, fun _ h => ⟨h, rfl, rfl, rfl⟩⟩

theorem onClose (fd : ℕ) (deleted : Bool) (delivery : Delivery) :
    Quiet s (s.onClose cfg fd deleted delivery) := by
  unfold CloseServer.onClose
  cases hget : s.sessions.connectionGet fd with
  | none => exact refl s
  | some conn =>
    have hconn := connection_of_get hget
    simp only
    split_ifs with hinactive
    · exact refl s
    · exact reactorClose (by simpa [hconn] using hinactive) deleted
    · exact (remove fd).trans (notify fd delivery)
    · exact refl s

theorem heartbeat (fd : ℕ) : Quiet s (s.heartbeat fd) := by
  unfold CloseServer.heartbeat
  split
  · exact refl s
  · split_ifs
    · exact modifyConn fd _ (fun _ => rfl) (fun _ => rfl)
    · exact refl s

theorem onWrite (fd : ℕ) (delivery : Delivery) (taken : ℕ) (error deleted : Bool) :
    Quiet s (s.onWrite cfg fd delivery taken error deleted) := by
  unfold CloseServer.onWrite
  cases hget : s.sessions.connectionGet fd with
  | none => exact refl s
  | some conn =>
    have hconn := connection_of_get hget
    simp only
    split_ifs with hinactive
    · exact refl s
    · exact modifyConn fd _ (fun _ => rfl) (fun _ => rfl)
    · exact (notify fd delivery).trans (modifyConn fd _ (fun _ => rfl) (fun _ => rfl))
    · exact reactorClose (by simpa [hconn] using hinactive) deleted
    · exact onWriteLoop (by simpa [hconn] using hinactive) taken error deleted

theorem of_eq (hsessions : s'.sessions = s.sessions) (hconns : s'.conns = s.conns)
    (hcalls : s'.calls = s.calls) (hcloses : s'.closes = s.closes) : Quiet s s' where
  calls := hcalls
  closes := hcloses
  accepted := by rw [hsessions]
  sessions := by rw [hsessions]; exact id
  kept := fun fd hact => by
    rw [hsessions] at hact
    rw [hsessions, hconns]
    exact ⟨hact, rfl, rfl, rfl⟩

theorem onPipeWrite (k : ℕ) : Quiet s (s.onPipeWrite k) := by
  unfold CloseServer.onPipeWrite
  split
  · exact refl s
  · simp only
    split
    · exact of_eq rfl rfl rfl rfl
    · split_ifs <;> exact of_eq rfl rfl rfl rfl

theorem reactorSend (h : s.sessions.Inv) (response : Response)
    (direct full registered deleted : Bool) :
    Quiet s (s.reactorSend response direct full registered deleted) := by
  unfold CloseServer.reactorSend
  cases response with
  | close sessionId =>
    cases hverify : s.sessions.connectionVerify sessionId with
    | none => simp only [hverify]; exact refl s
    | some conn =>
      have hact := active_of_verify h hverify
      simp only [hverify]
      split_ifs
      · exact reactorClose hact deleted
      · exact modifyListen hact _ (by intro; rfl) (by intro; rfl) registered deleted
  | data sessionId chunks =>
    cases hverify : s.sessions.connectionVerify sessionId with
    | none => simp only [hverify]; exact refl s
    | some conn =>
      have hact := active_of_verify h hverify
      simp only [hverify]
      split_ifs
      · exact refl s
      · exact refl s
      · exact modifyListen hact _ (by intro; rfl) (by intro; rfl) registered deleted

theorem onPipeReceive (h : s.sessions.Inv) (k : ℕ) (direct full registered deleted : Bool) :
    Quiet s (s.onPipeReceive k direct full registered deleted) := by
  unfold CloseServer.onPipeReceive
  split
  · exact refl s
  · next response _ =>
    have hpop : Quiet s { s with responses := s.responses.eraseIdx k } := of_eq rfl rfl rfl rfl
    exact hpop.trans (@reactorSend { s with responses := s.responses.eraseIdx k } h response
      direct full registered deleted)

theorem finishData (sessionId chunks : ℕ) (sent : Bool) :
    Quiet s (s.finishData sessionId chunks sent) := by
  unfold CloseServer.finishData
  split
  · exact refl s
  · split_ifs <;> first | exact refl s | exact of_eq rfl rfl rfl rfl

theorem markReset (sessionId : ℕ) : Quiet s (s.markReset sessionId) := by
  unfold CloseServer.markReset
  split
  · exact refl s
  · next conn _ => exact modifyConn conn.fd _ (fun _ => rfl) (fun _ => rfl)

end Quiet

/-! ## Every step keeps the invariant -/

namespace Inv

theorem init {maxConnection : ℕ} (hmax : maxConnection ≤ sessionListSize) :
    (CloseServer.init maxConnection).Inv where
  sessions := inv_init hmax
  serials := fun _ ha => absurd ha not_mem_nil
  tested := fun _ hcall => absurd hcall not_mem_nil
  apart := nodup_nil
  marked := fun _ hc => absurd hc not_mem_nil
  once := nodup_nil

theorem quiet (h : s.Inv) (hquiet : Quiet s s') : s'.Inv := by
  refine ⟨hquiet.sessions h.sessions, ?_, ?_, ?_, ?_, ?_⟩
  · rw [hquiet.accepted]
    exact h.serials
  · rw [hquiet.calls, hquiet.closes, hquiet.accepted]
    exact h.tested
  · rw [testedFds, hquiet.calls]
    exact h.apart
  · rw [hquiet.closes, hquiet.accepted]
    intro c hc
    obtain ⟨a, ha, hserial, hmarked⟩ := h.marked c hc
    refine ⟨a, ha, hserial, fun hlive => ?_⟩
    obtain ⟨hact, hserial', hclosing, hclosed⟩ := hquiet.kept a.fd hlive.1
    have hmark := hmarked ⟨hact, hserial'.symm.trans hlive.2⟩
    unfold Marked at hmark ⊢
    rwa [hclosing, hclosed, hquiet.calls]
  · unfold AtMostOnce
    rw [hquiet.closes]
    exact h.once

theorem accept (h : s.Inv) {fromId : ℕ} (connectNotify : Bool)
    (hadm : s.sessions.Admissible (.accept fd fromId)) :
    (s.accept fd fromId connectNotify).Inv := by
  obtain ⟨a₀, haccepted, hfd₀, hserial₀⟩ : ∃ a₀, (s.sessions.connectionNew fd fromId).accepted =
      a₀ :: s.sessions.accepted ∧ a₀.fd = fd ∧ a₀.serial = s.sessions.accepted.length :=
    ⟨_, rfl, rfl, rfl⟩
  refine ⟨h.sessions.connectionNew hadm.1 hadm.2.1 hadm.2.2, ?_, ?_, h.apart, ?_, h.once⟩
  · intro a ha
    have ha' : a ∈ (s.sessions.connectionNew fd fromId).accepted := ha
    show a.serial < (s.sessions.connectionNew fd fromId).accepted.length
    rw [haccepted] at ha' ⊢
    rw [length_cons]
    rcases mem_cons.mp ha' with rfl | ha'
    · omega
    · exact (h.serials a ha').trans (Nat.lt_succ_self _)
  · intro call hcall htested
    obtain ⟨⟨a, ha, hfd, hserial⟩, hnew⟩ := h.tested call hcall htested
    exact ⟨⟨a, ha, hfd, hserial.trans (Nat.lt_succ_self _)⟩, hnew⟩
  · intro c hc
    obtain ⟨a, ha, hserial, hmarked⟩ := h.marked c hc
    refine ⟨a, ha, hserial.trans (Nat.lt_succ_self _), fun hlive => ?_⟩
    obtain ⟨hact, hserial'⟩ := hlive
    simp only [CloseServer.accept, connectionNew] at hact hserial'
    by_cases hfd : a.fd = fd
    · rw [hfd, update_self] at hserial'
      exact absurd hserial' (by simp only; omega)
    · rw [update_of_ne hfd] at hact hserial'
      have hmark := hmarked ⟨hact, hserial'⟩
      unfold Marked at hmark ⊢
      simp only [CloseServer.accept, update_of_ne hfd]
      exact hmark

/-- A call that is on its own begins for a session that has not seen `onClose`. -/
theorem beginEnd (h : s.Inv) (halone : s.EndsAlone sessionId) : (s.beginEnd sessionId).Inv := by
  unfold CloseServer.beginEnd
  cases hcall : s.endTest sessionId with
  | none => exact h
  | some call =>
    obtain ⟨hmay, rfl⟩ := endTest_eq_some_iff.mp hcall
    obtain ⟨hown, hforced, hothers⟩ := halone hmay
    obtain ⟨-, -, hact, hflags⟩ := hmay
    set fd := s.workerGetConnection sessionId
    have hlast := h.sessions.last fd hact
    rw [hown] at hlast
    have hmem : (⟨(s.sessions.connectionList fd).serial, fd, sessionId⟩ : Accept) ∈
        s.sessions.accepted := mem_of_find?_eq_some hlast
    have hopen : (s.conns fd).closing = false ∧ (s.conns fd).closed = false := by
      rcases hflags with hforce | hopen
      · simpa [hforce] using hforced
      · exact hopen
    -- the connection is there and bears no mark, so there was no call for its accept
    have hunseen : ∀ c ∈ s.closes, c.session ≠ s.sessions.lastAssigned sessionId := by
      intro c hc heq
      obtain ⟨a, ha, -, hmarked⟩ := h.marked c hc
      obtain rfl := Option.some.inj (ha.symm.trans (heq.trans hlast))
      rcases hmarked ⟨hact, rfl⟩ with hclosing | hclosed | ⟨other, hother, hfd, hstage⟩
      · exact absurd (hclosing.symm.trans hopen.1) (by decide)
      · exact absurd (hclosed.symm.trans hopen.2) (by decide)
      · rcases hothers other hother hfd with hstage' | hstage' <;>
          exact absurd (hstage.symm.trans hstage') (by decide)
    refine ⟨h.sessions, h.serials, ?_, ?_, ?_, h.once⟩
    · exact forall_mem_append.mpr ⟨h.tested, forall_mem_singleton.mpr fun _ =>
        ⟨⟨_, hlast, rfl, h.serials _ hmem⟩, hunseen⟩⟩
    · have hnew : fd ∉ s.testedFds := by
        intro hfd
        obtain ⟨other, hother, hfd⟩ := mem_map.mp hfd
        obtain ⟨hmem, hstage⟩ := mem_filter.mp hother
        rcases hothers other hmem hfd with hstage' | hstage' <;> simp [hstage'] at hstage
      simp only [testedFds, filter_append, map_append]
      refine nodup_append.mpr ⟨h.apart, by simp, fun a ha b hb heq => ?_⟩
      obtain rfl : b = fd := by simpa using hb
      exact hnew (heq ▸ ha)
    · intro c hc
      obtain ⟨a, ha, hserial, hmarked⟩ := h.marked c hc
      refine ⟨a, ha, hserial, fun hlive => ?_⟩
      rcases hmarked hlive with hclosing | hclosed | ⟨other, hother, hstage⟩
      · exact .inl hclosing
      · exact .inr (.inl hclosed)
      · exact .inr (.inr ⟨other, mem_append_left _ hother, hstage⟩)

variable {call : EndCall}

section

variable {front back : List EndCall} {next : Option EndCall}
  (hcalls : s.calls = front ++ call :: back) (hcalls' : s'.calls = front ++ (next.toList ++ back))
include hcalls hcalls'

/-- A call moves on to a place behind the test; if it comes from there, it has called
`onClose`. -/
theorem moved (h : s.Inv) (new : Option CloseCall)
    (hnext : ∀ c ∈ next, c.stage ≠ .tested) (hsessions : s'.sessions = s.sessions)
    (hcloses : s'.closes = s.closes ++ new.toList) (hmark : ∀ fd, s.Marked fd → s'.Marked fd)
    (hnew : ∀ c ∈ new, call.stage = .tested ∧ c = ⟨call.sessionId, call.session, call.fd⟩ ∧
      s'.Marked call.fd) : s'.Inv := by
  have hcall : call ∈ s.calls := by simp [hcalls]
  have hsub : (front ++ back).Sublist s.calls := by
    rw [hcalls]
    exact (List.Sublist.refl front).append (sublist_cons_self call back)
  have hstay : ∀ c ∈ s'.calls, c.stage = .tested → c ∈ front ++ back := by
    intro c hc htested
    simp only [hcalls', mem_append, Option.mem_toList] at hc ⊢
    rcases hc with hc | hc | hc
    · exact .inl hc
    · exact absurd htested (hnext c hc)
    · exact .inr hc
  have hfilter : (s'.calls.filter (·.stage = .tested)) =
      (front ++ back).filter (·.stage = .tested) := by
    have hnone : next.toList.filter (·.stage = .tested) = [] :=
      filter_eq_nil_iff.mpr fun c hc => by simpa using hnext c (Option.mem_toList.mp hc)
    simp only [hcalls', filter_append, hnone, nil_append]
  refine ⟨hsessions ▸ h.sessions, ?_, ?_, ?_, ?_, ?_⟩
  · rw [hsessions]
    exact h.serials
  · intro c hc htested
    have hc' := hstay c hc htested
    obtain ⟨⟨a, ha, hfd, hserial⟩, hold⟩ := h.tested c (hsub.subset hc') htested
    rw [hsessions, hcloses]
    refine ⟨⟨a, ha, hfd, hserial⟩, fun x hx => ?_⟩
    rcases mem_append.mp hx with hx | hx
    · exact hold x hx
    · -- the call that has moved was on another connection
      obtain ⟨hfrom, rfl, -⟩ := hnew x (Option.mem_toList.mp hx)
      obtain ⟨⟨a', ha', hfd', -⟩, -⟩ := h.tested call hcall hfrom
      intro heq
      obtain rfl := Option.some.inj (ha'.symm.trans (heq.trans ha))
      have hapart := h.apart
      simp only [testedFds, hcalls, filter_append, filter_cons, hfrom, decide_true, if_true,
        map_append, map_cons] at hapart
      have hnot := (nodup_middle.mp hapart).notMem
      refine hnot ?_
      rw [← hfd', hfd, ← map_append, ← filter_append]
      exact mem_map.mpr ⟨c, mem_filter.mpr ⟨hc', by simpa using htested⟩, rfl⟩
  · unfold testedFds
    rw [hfilter]
    exact h.apart.sublist ((hsub.filter _).map EndCall.fd)
  · intro c hc
    rw [hcloses] at hc
    have hlive : ∀ a, s'.Live a → s.Live a := fun a hlive => by
      unfold Live at hlive ⊢
      rwa [hsessions] at hlive
    rw [hsessions]
    rcases mem_append.mp hc with hc | hc
    · obtain ⟨a, ha, hserial, hmarked⟩ := h.marked c hc
      exact ⟨a, ha, hserial, fun hl => hmark _ (hmarked (hlive a hl))⟩
    · obtain ⟨hfrom, rfl, hmarked⟩ := hnew c (Option.mem_toList.mp hc)
      obtain ⟨⟨a, ha, hfd, hserial⟩, -⟩ := h.tested call hcall hfrom
      exact ⟨a, ha, hserial, fun _ => hfd ▸ hmarked⟩
  · unfold AtMostOnce
    rw [hcloses]
    cases new with
    | none => simpa [AtMostOnce] using h.once
    | some c =>
      obtain ⟨hfrom, rfl, -⟩ := hnew c rfl
      have hunseen := (h.tested call hcall hfrom).2
      rw [Option.toList_some, map_append, nodup_append]
      refine ⟨h.once, by simp, fun x hx y hy heq => ?_⟩
      obtain ⟨c, hc, rfl⟩ := mem_map.mp hx
      obtain rfl : y = (call.sessionId, call.session) := by simpa using hy
      exact hunseen c hc (congrArg Prod.snd heq)

/-- Marks are not lost when a call moves on that leaves a mark on its own connection and does not
touch the others. -/
theorem marked_mono
    (hothers : ∀ fd, fd ≠ call.fd → s'.conns fd = s.conns fd)
    (hconn : (s.conns call.fd).closing = true ∨ (s.conns call.fd).closed = true → s'.Marked call.fd)
    (hcall : call.stage = .cleared → s'.Marked call.fd) : ∀ fd, s.Marked fd → s'.Marked fd := by
  intro fd hmarked
  have hconns : ∀ fd, (s.conns fd).closing = true ∨ (s.conns fd).closed = true →
      s'.Marked fd := by
    intro fd hflags
    by_cases hfd : fd = call.fd
    · subst hfd
      exact hconn hflags
    · rw [← hothers fd hfd] at hflags
      exact hflags.imp_right .inl
  rcases hmarked with hclosing | hclosed | ⟨other, hother, rfl, hstage⟩
  · exact hconns fd (.inl hclosing)
  · exact hconns fd (.inr hclosed)
  · rw [hcalls] at hother
    rcases mem_append.mp hother with hother | hother
    · exact .inr (.inr ⟨other, by rw [hcalls']; exact mem_append_left _ hother, rfl, hstage⟩)
    · rcases mem_cons.mp hother with rfl | hother
      · exact hcall hstage
      · refine .inr (.inr ⟨other, ?_, rfl, hstage⟩)
        rw [hcalls']
        exact mem_append_right _ (mem_append_right _ hother)

end

theorem advance (h : s.Inv) (k : ℕ) (sent : Bool) : (s.advance cfg k sent).Inv := by
  unfold CloseServer.advance
  cases hk : s.calls[k]? with
  | none => exact h
  | some call =>
    obtain ⟨front, back, hcalls, rfl⟩ := Assoc.split_of_getElem? hk
    have hset : ∀ call', s.calls.set front.length call' =
        front ++ ((some call').toList ++ back) := by
      intro call'
      rw [hcalls, set_append_right _ _ le_rfl, Nat.sub_self]
      rfl
    cases hstage : call.stage with
    | tested =>
      simp only [endStep, hstage]
      refine moved hcalls (hset _) h
        (if cfg.onClose then some ⟨call.sessionId, call.session, call.fd⟩ else none)
        (by rintro c ⟨⟩; exact EndStage.noConfusion) rfl ?_ ?_ ?_
      · cases cfg.onClose <;> simp
      · exact marked_mono hcalls (hset _) (fun fd hfd => update_of_ne hfd _ _)
          (fun _ => .inl (by simp [modifyConn])) (by simp [hstage])
      · intro c hc
        cases hset : cfg.onClose with
        | false => simp [hset] at hc
        | true =>
          rw [hset, if_pos rfl] at hc
          exact ⟨hstage, (Option.some.inj hc).symm, .inl (by simp [modifyConn])⟩
    | called =>
      simp only [endStep, hstage]
      refine moved hcalls (hset _) h none
        (by rintro c ⟨⟩; exact EndStage.noConfusion) rfl (by simp [modifyConn]) ?_ (by simp)
      refine marked_mono hcalls (hset _) (fun fd hfd => update_of_ne hfd _ _)
        (fun _ => ?_) (by simp [hstage])
      -- `closing` is gone, but the call stands where it shows
      exact .inr (.inr ⟨{ call with stage := .cleared }, by rw [hset]; simp, rfl, rfl⟩)
    | cleared =>
      simp only [endStep, hstage]
      refine moved hcalls (hset _) h none
        (by rintro c ⟨⟩; exact EndStage.noConfusion) rfl (by simp [modifyConn]) ?_ (by simp)
      exact marked_mono hcalls (hset _) (fun fd hfd => update_of_ne hfd _ _)
        (fun _ => .inr (.inl (by simp [modifyConn])))
        fun _ => .inr (.inl (by simp [modifyConn]))
    | marked =>
      simp only [endStep, hstage]
      obtain ⟨responses, hfinish⟩ : ∃ responses,
          s.finishClose call.sessionId sent = { s with responses := responses } := by
        rcases @finishClose_cases s call.sessionId sent with ⟨-, heq⟩ | heq <;> exact ⟨_, heq⟩
      rw [hfinish]
      have herase : s.calls.eraseIdx front.length = front ++ (Option.toList none ++ back) := by
        rw [hcalls]
        exact Assoc.eraseIdx_split front call back
      refine moved hcalls herase h none (by simp) rfl (by simp) ?_ (by simp)
      exact marked_mono hcalls herase (fun _ _ => rfl) (fun hflags => hflags.imp_right .inl)
        (by simp [hstage])

theorem onTask (h : s.Inv) {k : ℕ} (halone : s.Orderly (.onTask k)) : (s.onTask k).Inv := by
  unfold CloseServer.onTask
  cases hk : s.tasks[k]? with
  | none => exact h
  | some sessionId =>
    have hpop : Quiet s { s with tasks := s.tasks.eraseIdx k } := Quiet.of_eq rfl rfl rfl rfl
    exact (h.quiet hpop).beginEnd (halone sessionId (by simp [hk]))

/-- **The step lemma.** -/
theorem step (h : s.Inv) (hadm : s.Admissible event) (horderly : s.Orderly event) :
    (s.step cfg event).Inv := by
  cases event with
  | accept fd fromId connectNotify => exact h.accept connectNotify hadm
  | onClose fd deleted delivery => exact h.quiet (.onClose fd deleted delivery)
  | heartbeat fd => exact h.quiet (.heartbeat fd)
  | onWrite fd delivery taken error deleted =>
    exact h.quiet (.onWrite fd delivery taken error deleted)
  | onPipeWrite k => exact h.quiet (.onPipeWrite k)
  | onPipeReceive k direct full registered deleted =>
    exact h.quiet (.onPipeReceive h.sessions k direct full registered deleted)
  | send sessionId chunks sent => exact h.quiet (.finishData sessionId chunks sent)
  | reset sessionId => exact h.quiet (.markReset sessionId)
  | close sessionId => exact h.beginEnd horderly
  | onTask k => exact h.onTask horderly
  | advance k sent => exact h.advance k sent

end Inv

/-- **`onClose` runs at most once per session.**  Take any interleaving of accepts, clients
that go, writes, messages, the heartbeat thread and calls of `swFactoryProcess_end` in the
workers, with any answers of the kernel, on a server with no more connections than session
slots.  If each call that goes ahead does so alone, no session sees `onClose` twice, in any
state of the run. -/
theorem atMostOnce_run (cfg : CloseSettings) (maxConnection : ℕ)
    (hmax : maxConnection ≤ sessionListSize) (events : List Event)
    (hadm : EachStep (step cfg) Admissible (init maxConnection) events)
    (horderly : EachStep (step cfg) Orderly (init maxConnection) events) :
    ∀ used, used <+: events → (run (step cfg) (init maxConnection) used).AtMostOnce := by
  intro used hpre
  have hrun := ((hadm.and horderly).restrict hpre).run_invariant
    (fun s event (h : s.Inv) hC => h.step hC.1 hC.2) (Inv.init hmax)
  exact hrun.once

/-- A worker closes a session, and while `onClose` runs there the reactor sees the client
go; the worker that gets the message finds the connection closing. -/
theorem atMostOnce_client_gone :
    let cfg : CloseSettings := ⟨false, true⟩
    let events : List Event := [.accept 3 0 false, .close 1, .advance 0 true,
      .onClose 3 true .written, .onTask 0, .advance 0 true, .advance 0 true, .advance 0 true,
      .onPipeReceive 0 false false true true]
    (EachStep (step cfg) Admissible (init 1024) events ∧
        EachStep (step cfg) Orderly (init 1024) events) ∧
      (run (step cfg) (init 1024) events).closes.length = 1 ∧
      (run (step cfg) (init 1024) events).AtMostOnce :=
  ⟨by decide, by decide, atMostOnce_run _ 1024 (by decide) _ (by decide) (by decide) _
    prefix_rfl⟩

/-- **A forced close overtakes a close in flight.**  A worker closes a session and sends the
response; before the reactor gets it, the heartbeat thread finds the connection idle.  The
reactor tells a worker, and `onClose` runs again. -/
theorem not_atMostOnce_heartbeat :
    let cfg : CloseSettings := ⟨false, true⟩
    let events : List Event := [.accept 3 0 false, .close 1, .advance 0 true, .advance 0 true,
      .advance 0 true, .advance 0 true, .heartbeat 3, .onWrite 3 .written 0 false true, .onTask 0,
      .advance 0 true]
    EachStep (step cfg) Admissible (init 1024) events ∧
      (run (step cfg) (init 1024) events).closes =
        [⟨1, some ⟨0, 3, 1⟩, 3⟩, ⟨1, some ⟨0, 3, 1⟩, 3⟩] ∧
      ¬ (run (step cfg) (init 1024) events).AtMostOnce := by
  decide

end CloseServer

end Swoole
