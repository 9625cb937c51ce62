import ServerSimple.Network.SessionPackets
import ServerSimple.Network.SessionLifecycle

/-! # The broadcast server

A persistent server whose `update` takes every packet out of the incoming queue and broadcasts its
payload. The update loop is one thread among others: between its test of `empty`, the pop and the
broadcast the context thread accepts sessions, pushes packets and runs posted handlers, other threads
call `test_broadcast`, and the server may be stopped.
-/

namespace ServerSimple.Network

open Library ThreadSafe

/-- Where the update loop of `launch` is. -/
inductive UpdatePhase (κ : Type*) where
  /-- At the test of `is_running`. -/
  | frame
  /-- In `update`, at the test of `empty`. -/
  | draining
  /-- Before `pop_front`. -/
  | popping
  /-- Before `broadcast`, with the packet in hand. -/
  | relaying (packet : IncomingPacket κ)
  /-- An exception has left the thread. -/
  | thrown (what : String)
  | exited

/-- What the update loop has taken out of the queue and not passed on yet. -/
def UpdatePhase.inHand {κ : Type*} : UpdatePhase κ → List (IncomingPacket κ)
  | .relaying packet => [packet]
  | _ => []

/-- The last three fields record history: the messages of all broadcasts, the packets that `update`
has passed on, and how many broadcasts each session came too late for. -/
structure BroadcastServer (κ : Type*) where
  server : PersistentServer κ
  phase : UpdatePhase κ
  processedPacketsCount : BitVec 32
  lastReceivedPayload : Message
  broadcasts : List Message
  relayed : List (IncomingPacket κ)
  missed : κ → ℕ

inductive BroadcastEvent (κ : Type*) where
  /-- The context thread, or the thread that stops the server. -/
  | other (a : PersistentAction κ)
  | testBroadcast (message : Message)
  /-- The update loop takes its next step. -/
  | update

/-- The actions that are not the update loop's. -/
def PersistentAction.ofOthers {κ : Type*} : PersistentAction κ → Bool
  | .broadcast _ | .send _ _ | .popFront | .waitAndPop => false
  | _ => true

namespace BroadcastServer

variable {κ : Type*}

/-- A launched server without clients. -/
def initial : BroadcastServer κ := ⟨.initial, .frame, 0, [], [], [], fun _ => 0⟩

variable [DecidableEq κ]

def broadcast (s : BroadcastServer κ) (message : Message) : BroadcastServer κ :=
  { s with
    server := s.server.broadcast message
    broadcasts := s.broadcasts ++ [message] }

variable (lim : Limits)

/-- The next step of the update loop. -/
def updateStep (s : BroadcastServer κ) : Option (BroadcastServer κ) :=
  match s.phase with
  | .frame => some { s with phase := if s.server.running then .draining else .exited }
  | .draining =>
    some { s with
      phase := if s.server.incomingPacketsQueue.dequeue.isEmpty then .frame else .popping }
  | .popping =>
    match (s.server.incomingPacketsQueue.exec lim .popFront).result with
    | .item packet =>
      some { s with
        server := s.server.consume (s.server.incomingPacketsQueue.exec lim .popFront)
        phase := .relaying packet
        processedPacketsCount := s.processedPacketsCount + 1
        lastReceivedPayload := packet.payload }
    | .thrown what => some { s with phase := .thrown what }
    | _ => none
  | .relaying packet =>
    some { s.broadcast packet.payload with
      phase := .draining
      relayed := s.relayed ++ [packet] }
  | .thrown _ | .exited => none

/-- A session that is accepted has come too late for the broadcasts so far. -/
def join (s : BroadcastServer κ) : PersistentAction κ → κ → ℕ
  | .acceptDone (some c) => Function.update s.missed c s.broadcasts.length
  | _ => s.missed

def step (s : BroadcastServer κ) : BroadcastEvent κ → Option (BroadcastServer κ)
  | .other a =>
    if a.ofOthers then
      (s.server.step lim a).map fun server => { s with server := server, missed := s.join a }
    else none
  | .testBroadcast message => some (s.broadcast message)
  | .update => s.updateStep lim

/-! ## What a session is sent -/

variable {lim} {s u : BroadcastServer κ}

omit [DecidableEq κ] in
/-- Only `send` adds to what has been sent. -/
theorem sent_of_move {e : WebsocketSession.SessionEvent} {session session' : WebsocketSession}
    (he : ∀ message, e ≠ .send message) (hmove : WebsocketSession.Move e session session') :
    session'.sent = session.sent := by
  cases hmove with
  | start _ | readError _ | readData _ _ _ => rfl
  | handshake ok _ => cases ok <;> rfl
  | send message => exact absurd rfl (he message)
  | posted _ hrun =>
    rw [WebsocketSession.sendHandler_eq, Option.some.injEq] at hrun
    rw [← hrun]
  | write ok _ hrun =>
    rcases WebsocketSession.writeHandler_cases hrun with ⟨_, rfl⟩ | ⟨_, _, _, _, rfl⟩ <;> rfl

omit [DecidableEq κ] in
/-- A session that was started stays so. -/
theorem started_of_move {e : WebsocketSession.SessionEvent} {session session' : WebsocketSession}
    (h : session.handshake ≠ .unstarted) (hmove : WebsocketSession.Move e session session') :
    session'.handshake ≠ .unstarted := by
  cases hmove with
  | start h' => exact absurd h' h
  | send _ | readError _ | readData _ _ _ => exact h
  | handshake ok _ => cases ok <;> simp [WebsocketSession.acceptHandler,
      WebsocketSession.readMessageAsync]
  | posted _ hrun =>
    rw [WebsocketSession.sendHandler_eq, Option.some.injEq] at hrun
    rw [← hrun]
    exact h
  | write ok _ hrun =>
    rcases WebsocketSession.writeHandler_cases hrun with ⟨_, rfl⟩ | ⟨_, _, _, _, rfl⟩ <;> exact h

theorem sent_of_others {a : PersistentAction κ} {t : PersistentServer κ} (ha : a.ofOthers = true)
    (h : s.server.step lim a = some t) (c : κ) :
    (t.sessions c).sent = (s.server.sessions c).sent := by
  rcases PersistentServer.step_move lim h c with hsame | ⟨e, he, hmove⟩
  · rw [hsame]
  · apply sent_of_move _ hmove
    rintro message rfl
    cases he with
    | broadcast message _ => cases ha
    | send c message _ => cases ha

/-- Every active session has been sent the broadcasts since it was accepted, and nobody else
anything. -/
structure Relays (s : BroadcastServer κ) : Prop where
  enrolled : s.server.Enrolled
  started : ∀ c ∈ s.server.activeSessions, (s.server.sessions c).handshake ≠ .unstarted
  active : ∀ c ∈ s.server.activeSessions,
    (s.server.sessions c).sent = s.broadcasts.drop (s.missed c) ∧
      s.missed c ≤ s.broadcasts.length
  consumed : s.server.consumed = s.relayed ++ s.phase.inHand
  sublist : (s.relayed.map (·.payload)).Sublist s.broadcasts
  count : s.processedPacketsCount = BitVec.ofNat 32 s.server.consumed.length
  last : s.lastReceivedPayload = (s.server.consumed.getLast?.map (·.payload)).getD []
  filled : s.phase = .popping → s.server.incomingPacketsQueue.dequeue ≠ []
  fine : ∀ what, s.phase ≠ .thrown what

omit [DecidableEq κ] in
theorem relays_initial : Relays (initial : BroadcastServer κ) where
  enrolled := PersistentServer.enrolled_initial
  started _ h := absurd h List.not_mem_nil
  active _ h := absurd h List.not_mem_nil
  consumed := rfl
  sublist := .slnil
  count := rfl
  last := rfl
  filled h := by cases h
  fine _ h := by cases h

/-- A broadcast reaches every active session. -/
theorem broadcast_sent (s : BroadcastServer κ) (message : Message) {c : κ}
    (hc : c ∈ s.server.activeSessions) :
    ((s.broadcast message).server.sessions c).sent = (s.server.sessions c).sent ++ [message] := by
  simp [broadcast, PersistentServer.broadcast, hc, WebsocketSession.send]

theorem broadcast_outside (s : BroadcastServer κ) (message : Message) {c : κ}
    (hc : c ∉ s.server.activeSessions) :
    (s.broadcast message).server.sessions c = s.server.sessions c := by
  simp [broadcast, PersistentServer.broadcast, hc]

theorem enrolled_broadcast (hs : Relays s) (message : Message) :
    (s.broadcast message).server.Enrolled :=
  ⟨fun c hc => (broadcast_outside s message hc).trans (hs.enrolled.outside c hc),
    hs.enrolled.neverGone⟩

theorem started_broadcast (hs : Relays s) (message : Message) :
    ∀ c ∈ s.server.activeSessions,
      ((s.broadcast message).server.sessions c).handshake ≠ .unstarted := by
  intro c hc
  simpa [broadcast, PersistentServer.broadcast, hc, WebsocketSession.send] using hs.started c hc

theorem active_broadcast (hs : Relays s) (message : Message) :
    ∀ c ∈ s.server.activeSessions,
      ((s.broadcast message).server.sessions c).sent =
          (s.broadcasts ++ [message]).drop (s.missed c) ∧
        s.missed c ≤ (s.broadcasts ++ [message]).length := by
  intro c hc
  obtain ⟨hsent, hmissed⟩ := hs.active c hc
  rw [broadcast_sent s message hc, hsent, List.drop_append_of_le_length hmissed,
    List.length_append]
  exact ⟨rfl, Nat.le_add_right_of_le hmissed⟩

theorem relays_testBroadcast (hs : Relays s) (message : Message) : Relays (s.broadcast message) :=
  { enrolled := enrolled_broadcast hs message
    started := started_broadcast hs message
    active := active_broadcast hs message
    consumed := hs.consumed
    sublist := hs.sublist.trans (List.sublist_append_left ..)
    count := hs.count
    last := hs.last
    filled := hs.filled
    fine := hs.fine }

/-- The queue only grows behind the back of the update loop. -/
theorem dequeue_of_others {a : PersistentAction κ} {t : PersistentServer κ} (ha : a.ofOthers = true)
    (h : s.server.step lim a = some t) :
    t.consumed = s.server.consumed ∧
      (s.server.incomingPacketsQueue.dequeue ≠ [] → t.incomingPacketsQueue.dequeue ≠ []) := by
  have hout := PersistentServer.step_outside h
  have hconsumed : t.consumed = (s.server.outside lim a).consumed := by
    rw [← hout]
  have hqueue : t.incomingPacketsQueue = (s.server.outside lim a).incomingPacketsQueue := by
    rw [← hout]
  rw [hconsumed, hqueue]
  cases a with
  | broadcast message | send c message | popFront | waitAndPop => cases ha
  | readDone c result =>
    cases result with
    | none => exact ⟨rfl, id⟩
    | some data =>
      refine ⟨rfl, fun hne => ?_⟩
      simp only [PersistentServer.outside, ThreadSafeQueue.tryPushBack]
      rcases ThreadSafeQueue.tryPush_cases lim s.server.incomingPacketsQueue
        ThreadSafeQueue.atBack ⟨c, data⟩ with hpush | ⟨-, hpush⟩
      · rwa [hpush]
      · rw [hpush]
        simp [ThreadSafeQueue.atBack]
  | acceptDone client => cases client <;> exact ⟨rfl, id⟩
  | handshakeDone c ok => exact ⟨rfl, id⟩
  | runPosted c i => exact ⟨rfl, id⟩
  | writeDone c i ok => exact ⟨rfl, id⟩
  | stopContext => exact ⟨rfl, id⟩
  | stopQueue =>
    refine ⟨rfl, fun hne => ?_⟩
    simpa [PersistentServer.outside, ThreadSafeQueue.stop_eq] using hne

/-- The acceptor hands over sessions that were not started before, and starts them. -/
theorem started_of_accept {c : κ} {t : PersistentServer κ}
    (h : s.server.step lim (.acceptDone (some c)) = some t) :
    (s.server.sessions c).handshake = .unstarted ∧ (t.sessions c).handshake = .pending := by
  simp only [PersistentServer.step, Option.ite_none_right_eq_some, Option.some.injEq] at h
  rw [← h.2.2]
  exact ⟨h.2.1, by simp [PersistentServer.setupClientConnection, PersistentServer.setSession,
    WebsocketSession.start]⟩

theorem relays_other {a : PersistentAction κ} {t : PersistentServer κ} (hs : Relays s)
    (ha : a.ofOthers = true) (h : s.server.step lim a = some t) :
    Relays { s with server := t, missed := s.join a } := by
  obtain ⟨hconsumed, hfilled⟩ := dequeue_of_others ha h
  have hstays : ∀ c ∈ s.server.activeSessions, (t.sessions c).handshake ≠ .unstarted := by
    intro c hc
    rcases PersistentServer.step_move lim h c with hsame | ⟨e, -, hmove⟩
    · rw [hsame]
      exact hs.started c hc
    · exact started_of_move (hs.started c hc) hmove
  exact {
    enrolled := PersistentServer.enrolled_step hs.enrolled h
    started := by
      intro c hc
      dsimp only at hc ⊢
      rcases PersistentServer.step_roster h with ⟨-, hactive, -⟩ | ⟨d, rfl, hactive, -⟩
      · rw [hactive] at hc
        exact hstays c hc
      · rw [hactive, List.mem_cons] at hc
        rcases hc with rfl | hc
        · simp [(started_of_accept h).2]
        · exact hstays c hc
    active := by
      intro c hc
      dsimp only at hc ⊢
      rw [sent_of_others ha h c]
      rcases PersistentServer.step_roster h with ⟨hother, hactive, -⟩ | ⟨d, rfl, hactive, -⟩
      · rw [hactive] at hc
        have hmissed : s.join a = s.missed := by
          unfold join
          split
          · exact absurd rfl (hother _)
          · rfl
        rw [hmissed]
        exact hs.active c hc
      · by_cases hcd : c = d
        · -- a new session starts with nothing, after all broadcasts so far
          subst hcd
          have hout : c ∉ s.server.activeSessions := fun hin =>
            hs.started c hin (started_of_accept h).1
          simp [join, hs.enrolled.outside c hout, WebsocketSession.initial]
        · rw [hactive, List.mem_cons] at hc
          simp only [join, Function.update_of_ne hcd]
          exact hs.active c (hc.resolve_left hcd)
    consumed := hconsumed.trans hs.consumed
    sublist := hs.sublist
    count := by
      dsimp only
      rw [hconsumed]
      exact hs.count
    last := by
      dsimp only
      rw [hconsumed]
      exact hs.last
    filled := fun hphase => hfilled (hs.filled hphase)
    fine := hs.fine }

omit [DecidableEq κ] in
/-- A pop beside a filled queue returns its first packet. -/
theorem popFront_filled (lim : Limits) {packet : IncomingPacket κ} {rest : List (IncomingPacket κ)}
    (hd : s.server.incomingPacketsQueue.dequeue = packet :: rest) :
    (s.server.incomingPacketsQueue.exec lim .popFront).result = .item packet ∧
      (s.server.consume (s.server.incomingPacketsQueue.exec lim .popFront)).consumed =
        s.server.consumed ++ [packet] := by
  have hpop := ThreadSafeQueue.popFront_cons lim s.server.incomingPacketsQueue hd
  constructor
  · simp [ThreadSafeQueue.exec, hpop, ThreadSafeQueue.popOutcome]
  · simp [PersistentServer.consume, ThreadSafeQueue.exec, hpop, ThreadSafeQueue.popOutcome]

theorem relays_update (hs : Relays s) (h : s.updateStep lim = some u) : Relays u := by
  unfold updateStep at h
  have hconsumed := hs.consumed
  cases hphase : s.phase with
  | frame =>
    simp only [hphase, Option.some.injEq] at h
    subst h
    rw [hphase] at hconsumed
    cases hrun : s.server.running <;>
      exact { hs with
        consumed := by simpa [hrun, UpdatePhase.inHand] using hconsumed
        filled := by simp
        fine := by simp }
  | draining =>
    simp only [hphase, Option.some.injEq] at h
    subst h
    rw [hphase] at hconsumed
    by_cases hempty : s.server.incomingPacketsQueue.dequeue = []
    · exact { hs with
        consumed := by simpa [hempty, UpdatePhase.inHand] using hconsumed
        filled := by simp [hempty]
        fine := by simp [hempty] }
    · exact { hs with
        consumed := by simpa [hempty, UpdatePhase.inHand] using hconsumed
        filled := fun _ => hempty
        fine := by simp [hempty] }
  | popping =>
    obtain ⟨packet, rest, hd⟩ := List.exists_cons_of_ne_nil (hs.filled hphase)
    obtain ⟨hitem, hnew⟩ := popFront_filled lim hd
    simp only [hphase, hitem, Option.some.injEq] at h
    subst h
    have hall : s.server.consumed = s.relayed := by
      simpa [hphase, UpdatePhase.inHand] using hconsumed
    exact {
      enrolled := ⟨by simpa using hs.enrolled.outside, by simpa using hs.enrolled.neverGone⟩
      started := by simpa using hs.started
      active := by simpa using hs.active
      consumed := by
        dsimp only
        rw [hnew, hall]
        rfl
      sublist := hs.sublist
      count := by
        dsimp only
        rw [hnew, hs.count, List.length_append, List.length_singleton, BitVec.ofNat_add]
        rfl
      last := by
        dsimp only
        rw [hnew]
        simp
      filled := by simp
      fine := by simp }
  | relaying packet =>
    simp only [hphase, Option.some.injEq] at h
    subst h
    rw [hphase] at hconsumed
    exact {
      enrolled := enrolled_broadcast hs packet.payload
      started := started_broadcast hs packet.payload
      active := active_broadcast hs packet.payload
      consumed := by
        change s.server.consumed = _
        simpa [UpdatePhase.inHand] using hconsumed
      sublist := by
        rw [List.map_append]
        exact hs.sublist.append (.refl _)
      count := hs.count
      last := hs.last
      filled := by simp
      fine := by simp }
  | thrown what => simp [hphase] at h
  | exited => simp [hphase] at h

theorem step_relays {e : BroadcastEvent κ} (hs : Relays s) (h : s.step lim e = some u) :
    Relays u := by
  cases e with
  | other a =>
    simp only [step, Option.ite_none_right_eq_some, Option.map_eq_some_iff] at h
    obtain ⟨ha, t, ht, rfl⟩ := h
    exact relays_other hs ha ht
  | testBroadcast message =>
    simp only [step, Option.some.injEq] at h
    rw [← h]
    exact relays_testBroadcast hs message
  | update => exact relays_update hs h

/-- The steps of a broadcast server are steps of a persistent server, whose update loop makes the
calls that `update` makes. -/
theorem step_server {e : BroadcastEvent κ} (h : s.step lim e = some u) :
    u.server = s.server ∨ ∃ a, s.server.step lim a = some u.server := by
  cases e with
  | other a =>
    simp only [step, Option.ite_none_right_eq_some, Option.map_eq_some_iff] at h
    obtain ⟨-, t, ht, rfl⟩ := h
    exact .inr ⟨a, ht⟩
  | testBroadcast message =>
    simp only [step, Option.some.injEq] at h
    rw [← h]
    exact .inr ⟨.broadcast message, rfl⟩
  | update =>
    simp only [step, updateStep] at h
    cases hphase : s.phase with
    | frame | draining =>
      simp only [hphase, Option.some.injEq] at h
      rw [← h]
      exact .inl rfl
    | popping =>
      simp only [hphase] at h
      split at h
      · cases h
        exact .inr ⟨.popFront, rfl⟩
      · cases h
        exact .inl rfl
      · cases h
    | relaying packet =>
      simp only [hphase, Option.some.injEq] at h
      rw [← h]
      exact .inr ⟨.broadcast packet.payload, rfl⟩
    | thrown what | exited => simp [hphase] at h

theorem exists_run_server {events : List (BroadcastEvent κ)}
    (hrun : run (step lim) initial events = some u) :
    ∃ actions, run (PersistentServer.step lim) .initial actions = some u.server := by
  have hstep : ∀ (s : BroadcastServer κ) e t,
      (∃ actions, run (PersistentServer.step lim) .initial actions = some s.server) →
      s.step lim e = some t →
      ∃ actions, run (PersistentServer.step lim) .initial actions = some t.server := by
    rintro s e t ⟨actions, hactions⟩ h
    rcases step_server h with hsame | ⟨a, ha⟩
    · exact ⟨actions, by rw [hsame, hactions]⟩
    · refine ⟨actions ++ [a], ?_⟩
      rw [run_append, hactions, Option.bind_some]
      exact run_cons_eq_some.mpr ⟨_, ha, rfl⟩
  exact run_invariant hstep ⟨[], rfl⟩ hrun

/-- Two clients: the second connects while a packet of the first is being relayed. -/
def lateClient : List (BroadcastEvent Bool) :=
  [.other (.acceptDone (some true)), .other (.handshakeDone true true),
    .other (.readDone true (some [1])), .update, .update, .update,
    .other (.readDone true (some [2])), .update, .other (.acceptDone (some false)), .update, .update,
    .update]

/-- What is written to a client: no broadcast twice, none from before it was accepted, and nothing
else. Where no write has failed, no handler is posted and no write is outstanding, every broadcast
since then has been written. -/
theorem frames_of_broadcasts {events : List (BroadcastEvent κ)}
    (hrun : run (step lim) initial events = some u) {c : κ} (hc : c ∈ u.server.activeSessions) :
    ((u.server.sessions c).written.map Prod.snd).Subperm (u.broadcasts.drop (u.missed c)) ∧
    ((u.server.sessions c).writeFailed = false → (u.server.sessions c).posted = [] →
      (u.server.sessions c).writes = [] →
      ((u.server.sessions c).written.map Prod.snd).Perm (u.broadcasts.drop (u.missed c))) := by
  obtain ⟨actions, hactions⟩ := exists_run_server hrun
  have hpumped := PersistentServer.pumped_run hactions c
  have hrelays : Relays u := run_invariant (fun s e t hs h => step_relays hs h) relays_initial hrun
  have hsent := (hrelays.active c hc).1
  rw [← hsent]
  constructor
  · have hhandled : ((u.server.sessions c).written.map Prod.snd).Subperm
        (u.server.sessions c).handled := hpumped.written_prefix.sublist.subperm
    apply hhandled.trans
    apply (List.sublist_append_left _ (u.server.sessions c).posted).subperm.trans
    exact hpumped.accounted.symm.subperm
  · intro hfailed hposted hwrites
    obtain ⟨hwritten, hperm⟩ := hpumped.written_of_quiescent hfailed hposted hwrites
    rw [hwritten]
    exact hperm.symm

theorem frames_of_broadcasts_late :
    ∃ u, run (step ⟨true, true, 8, 64⟩) initial (lateClient ++
        [.other (.runPosted true 0), .other (.writeDone true 0 true)]) = some u ∧
      ((u.server.sessions true).written.map Prod.snd).Subperm (u.broadcasts.drop (u.missed true)) := by
  obtain ⟨u, hu, hactive⟩ : ∃ u, run (step ⟨true, true, 8, 64⟩) initial (lateClient ++
      [.other (.runPosted true 0), .other (.writeDone true 0 true)]) = some u ∧
      u.server.activeSessions = [false, true] := ⟨_, rfl, rfl⟩
  exact ⟨u, hu, (frames_of_broadcasts hu (by simp [hactive])).1⟩

end BroadcastServer
end ServerSimple.Network
