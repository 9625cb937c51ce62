import ServerSimple.Network.SessionWrites

/-! # The incoming packets of a session

All sessions push into one bounded queue. A packet that the queue refuses closes the session, and the
read loop goes on as if nothing had happened: that no later packet slips in behind the refused one
rests on the stream, which delivers no message after `close`.
-/

namespace ServerSimple.Network

open Library ThreadSafe

namespace WebsocketSession

variable {session session' : WebsocketSession} {e : SessionEvent}

/-- Only a completed read receives a message or closes the session. -/
theorem Move.received_eq (he : ∀ data accepted, e ≠ .readData data accepted)
    (hmove : Move e session session') :
    session'.received = session.received ∧ session'.closed = session.closed := by
  cases hmove with
  | start _ => exact ⟨rfl, rfl⟩
  | handshake ok _ => cases ok <;> exact ⟨rfl, rfl⟩
  | send _ => exact ⟨rfl, rfl⟩
  | posted _ hrun =>
    rw [sendHandler_eq, Option.some.injEq] at hrun
    rw [← hrun]
    exact ⟨rfl, rfl⟩
  | readError _ => exact ⟨rfl, rfl⟩
  | readData data accepted _ => exact absurd rfl (he data accepted)
  | write ok _ hrun =>
    rcases writeHandler_cases hrun with ⟨_, rfl⟩ | ⟨_, _, _, _, rfl⟩
    · exact ⟨rfl, rfl⟩
    · exact ⟨rfl, rfl⟩

end WebsocketSession

namespace PersistentServer

variable {κ : Type*}

/-- The packets that the queue has accepted so far, in order. -/
def accepted (s : PersistentServer κ) : List (IncomingPacket κ) :=
  s.consumed ++ s.incomingPacketsQueue.dequeue

variable [DecidableEq κ]

/-- The payloads of one session: those consumed, and then those still queued. -/
def payloads (s : PersistentServer κ) (c : κ) : List Message :=
  (s.accepted.filter (·.session = c)).map (·.payload)

variable {lim : Limits} {s t : PersistentServer κ} {a : PersistentAction κ}

omit [DecidableEq κ] in
/-- A pop moves a packet from the front of the queue to the end of the consumed ones. -/
theorem accepted_consume_popFront (s : PersistentServer κ) :
    (s.consume (s.incomingPacketsQueue.exec lim .popFront)).accepted = s.accepted := by
  cases hd : s.incomingPacketsQueue.dequeue with
  | nil => simp [accepted, consume, ThreadSafeQueue.exec, ThreadSafeQueue.popFront,
      ThreadSafeQueue.popOutcome, hd]
  | cons packet rest =>
    simp [accepted, consume, ThreadSafeQueue.exec, ThreadSafeQueue.popFront_cons lim _ hd,
      ThreadSafeQueue.popOutcome, hd]

omit [DecidableEq κ] in
theorem accepted_consume_waitAndPop (s : PersistentServer κ) :
    (s.consume (s.incomingPacketsQueue.exec lim .waitAndPop)).accepted = s.accepted := by
  rcases ThreadSafeQueue.waitAndPop_cases lim s.incomingPacketsQueue with
    ⟨_, _, hw⟩ | ⟨_, _, hw⟩ | ⟨packet, rest, hd, hw⟩
  · simp [accepted, consume, ThreadSafeQueue.exec, hw]
  · simp [accepted, consume, ThreadSafeQueue.exec, hw]
  · simp [accepted, consume, ThreadSafeQueue.exec, hw, hd]

/-- A read that completes with a message: the queue takes it, or the session is closed. -/
structure Arrives (s t : PersistentServer κ) (c : κ) (data : Message) : Prop where
  others : ∀ d, d ≠ c → t.sessions d = s.sessions d
  received : (t.sessions c).received = (s.sessions c).received ++ [data]
  outcome : (t.accepted = s.accepted ++ [⟨c, data⟩] ∧
      (t.sessions c).closed = (s.sessions c).closed) ∨
    (t.accepted = s.accepted ∧ (t.sessions c).closed = true)

theorem arrives_of_readDone {c : κ} {data : Message}
    (h : s.step lim (.readDone c (some data)) = some t) : Arrives s t c data := by
  simp only [step, Option.ite_none_right_eq_some, Option.some.injEq,
    WebsocketSession.readHandler_some] at h
  rcases ThreadSafeQueue.tryPush_cases lim s.incomingPacketsQueue ThreadSafeQueue.atBack ⟨c, data⟩
    with hpush | ⟨_, hpush⟩
  · rw [ThreadSafeQueue.tryPushBack, hpush] at h
    rw [← h.2]
    refine ⟨fun d hd => setSession_of_ne s _ hd, ?_, .inr ⟨rfl, ?_⟩⟩
    · simp [setSession, WebsocketSession.readData]
    · simp [setSession, WebsocketSession.readData]
  · rw [ThreadSafeQueue.tryPushBack, hpush] at h
    rw [← h.2]
    refine ⟨fun d hd => setSession_of_ne s _ hd, ?_, .inl ⟨?_, ?_⟩⟩
    · simp [setSession, WebsocketSession.readData]
    · simp [accepted, setSession, ThreadSafeQueue.atBack]
    · simp [setSession, WebsocketSession.readData]

/-- No other step adds a packet, or loses one. -/
theorem step_accepted (hread : ∀ c data, a ≠ .readDone c (some data))
    (h : s.step lim a = some t) : t.accepted = s.accepted := by
  have haccepted : t.accepted = (s.outside lim a).accepted := by
    rw [← step_outside h]
    rfl
  rw [haccepted]
  unfold outside
  split
  · rfl
  · exact absurd rfl (hread _ _)
  · exact accepted_consume_popFront s
  · exact accepted_consume_waitAndPop s
  · rfl
  · simp [accepted, ThreadSafeQueue.stop_eq]
  · rfl

theorem step_received (hread : ∀ c data, a ≠ .readDone c (some data))
    (h : s.step lim a = some t) (c : κ) :
    (t.sessions c).received = (s.sessions c).received ∧
      (t.sessions c).closed = (s.sessions c).closed := by
  rcases step_move lim h c with hsame | ⟨e, he, hmove⟩
  · rw [hsame]
    exact ⟨rfl, rfl⟩
  · apply hmove.received_eq
    rintro data accepted rfl
    cases he with
    | readData _ _ _ _ => exact hread c data rfl

/-- What the stream promises: no message is delivered after `close`. -/
def DeliversWhileOpen (s : PersistentServer κ) : PersistentAction κ → Prop
  | .readDone c (some _) => (s.sessions c).closed = false
  | _ => True

instance (s : PersistentServer κ) : ∀ a, Decidable (s.DeliversWhileOpen a)
  | .readDone c (some _) => inferInstanceAs (Decidable ((s.sessions c).closed = false))
  | .readDone _ none | .acceptDone _ | .handshakeDone _ _ | .runPosted _ _ | .writeDone _ _ _
  | .broadcast _ | .send _ _ | .popFront | .waitAndPop | .stopContext | .stopQueue => .isTrue trivial

/-- Everything received is accepted, up to the message that closes the session. -/
def Delivered (s : PersistentServer κ) (c : κ) : Prop :=
  ((s.sessions c).closed = false ∧ (s.sessions c).received = s.payloads c) ∨
    ((s.sessions c).closed = true ∧ ∃ refused, (s.sessions c).received = s.payloads c ++ [refused])

theorem payloads_congr (h : t.accepted = s.accepted) (c : κ) : t.payloads c = s.payloads c := by
  rw [payloads, payloads, h]

theorem payloads_append_self {c : κ} {data : Message} (h : t.accepted = s.accepted ++ [⟨c, data⟩]) :
    t.payloads c = s.payloads c ++ [data] := by
  simp [payloads, h]

theorem payloads_append_of_ne {c d : κ} {data : Message}
    (h : t.accepted = s.accepted ++ [⟨c, data⟩]) (hd : d ≠ c) : t.payloads d = s.payloads d := by
  simp [payloads, h, hd.symm]

theorem Arrives.payloads_of_ne {c d : κ} {data : Message} (h : Arrives s t c data) (hd : d ≠ c) :
    t.payloads d = s.payloads d := by
  rcases h.outcome with ⟨happend, _⟩ | ⟨hsame, _⟩
  · exact payloads_append_of_ne happend hd
  · exact payloads_congr hsame d

theorem delivered_initial (c : κ) : Delivered initial c := .inl ⟨rfl, rfl⟩

theorem delivered_step {c : κ} (hs : Delivered s c) (hgood : s.DeliversWhileOpen a)
    (hstep : s.step lim a = some t) : Delivered t c := by
  by_cases hread : ∃ d data, a = .readDone d (some data)
  · obtain ⟨d, data, rfl⟩ := hread
    have harrives := arrives_of_readDone hstep
    by_cases hc : c = d
    · subst hc
      have hopen : (s.sessions c).closed = false := hgood
      have hreceived : (s.sessions c).received = s.payloads c := by
        rcases hs with ⟨_, h⟩ | ⟨hclosed, _⟩
        · exact h
        · rw [hopen] at hclosed
          cases hclosed
      rcases harrives.outcome with ⟨happend, hclosed⟩ | ⟨hsame, hclosed⟩
      · refine .inl ⟨hclosed.trans hopen, ?_⟩
        rw [harrives.received, payloads_append_self happend, hreceived]
      · refine .inr ⟨hclosed, data, ?_⟩
        rw [harrives.received, payloads_congr hsame, hreceived]
    · rw [Delivered, harrives.others c hc, harrives.payloads_of_ne hc]
      exact hs
  · have hquiet : ∀ d data, a ≠ .readDone d (some data) :=
      fun d data ha => hread ⟨d, data, ha⟩
    rw [Delivered, (step_received hquiet hstep c).1, (step_received hquiet hstep c).2,
      payloads_congr (step_accepted hquiet hstep)]
    exact hs

/-- Behind the message that closed the session nothing is accepted. -/
theorem payloads_of_closed_step {c : κ} (hclosed : (s.sessions c).closed = true)
    (hgood : s.DeliversWhileOpen a) (hstep : s.step lim a = some t) :
    (t.sessions c).closed = true ∧ t.payloads c = s.payloads c := by
  by_cases hread : ∃ d data, a = .readDone d (some data)
  · obtain ⟨d, data, rfl⟩ := hread
    have harrives := arrives_of_readDone hstep
    have hc : c ≠ d := by
      rintro rfl
      have hopen : (s.sessions c).closed = false := hgood
      rw [hopen] at hclosed
      cases hclosed
    rw [harrives.others c hc]
    exact ⟨hclosed, harrives.payloads_of_ne hc⟩
  · have hquiet : ∀ d data, a ≠ .readDone d (some data) :=
      fun d data ha => hread ⟨d, data, ha⟩
    rw [(step_received hquiet hstep c).2]
    exact ⟨hclosed, payloads_congr (step_accepted hquiet hstep) c⟩

variable {actions : List (PersistentAction κ)}

/-- The payloads of a session are consumed in the order in which they were received, and the first one
that the queue refuses closes the session and ends its stream. -/
theorem incoming_in_order (hgood : Guarded (step lim) DeliversWhileOpen initial actions)
    (hrun : run (step lim) initial actions = some s) (c : κ) :
    s.payloads c <+: (s.sessions c).received ∧
    (s.payloads c ≠ (s.sessions c).received → (s.sessions c).closed = true ∧
      ∀ later t, Guarded (step lim) DeliversWhileOpen s later →
        run (step lim) s later = some t → t.payloads c = s.payloads c) := by
  have hdelivered : Delivered s c :=
    guarded_run_invariant (fun _ _ _ hs hg hstep => delivered_step hs hg hstep)
      (delivered_initial c) hgood hrun
  rcases hdelivered with ⟨_, hreceived⟩ | ⟨hclosed, refused, hreceived⟩
  · rw [hreceived]
    exact ⟨List.prefix_rfl, fun hne => absurd rfl hne⟩
  · rw [hreceived]
    refine ⟨List.prefix_append _ _, fun _ => ⟨hclosed, ?_⟩⟩
    intro later t hlater hcont
    have hstep : ∀ u a v, ((u.sessions c).closed = true ∧ u.payloads c = s.payloads c) →
        DeliversWhileOpen u a → u.step lim a = some v →
        (v.sessions c).closed = true ∧ v.payloads c = s.payloads c := by
      intro u a v hu hg hv
      obtain ⟨hclosed', hsame⟩ := payloads_of_closed_step hu.1 hg hv
      exact ⟨hclosed', hsame.trans hu.2⟩
    exact (guarded_run_invariant hstep ⟨hclosed, rfl⟩ hlater hcont).2

/-- In a queue of one packet the second message is refused, although the update loop has time to pop
the first one before the read loop ends. -/
theorem incoming_in_order_refused :
    ∃ s : PersistentServer ℕ,
      run (step ⟨true, true, 1, 64⟩) initial [.acceptDone (some 7), .handshakeDone 7 true,
        .readDone 7 (some [1]), .readDone 7 (some [2]), .popFront, .readDone 7 none] = some s ∧
      s.payloads 7 = [[1]] ∧ (s.sessions 7).received = [[1], [2]] ∧
      (s.sessions 7).closed = true := by
  have hrun : run (step ⟨true, true, 1, 64⟩) initial [.acceptDone (some 7), .handshakeDone 7 true,
      .readDone 7 (some [1]), .readDone 7 (some [2]), .popFront, .readDone 7 none] = some _ := rfl
  have hgood : Guarded (step ⟨true, true, 1, 64⟩) DeliversWhileOpen initial [.acceptDone (some 7),
      .handshakeDone 7 true, .readDone 7 (some [1]), .readDone 7 (some [2]), .popFront,
      .readDone 7 none] := by
    decide
  refine ⟨_, rfl, rfl, rfl, ?_⟩
  exact ((incoming_in_order hgood hrun 7).2 (by decide)).1

end PersistentServer
end ServerSimple.Network
