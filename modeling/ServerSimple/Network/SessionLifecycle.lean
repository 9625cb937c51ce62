import ServerSimple.Network.SessionWrites

/-! # The end of a session

A session ends with an error code in one of its completion handlers. These handlers only return: the
class has no way back to the set of active sessions, `remove_session` is never called and neither is
`on_client_disconnected`. So a session that has failed stays active for the life of the server.
-/

namespace ServerSimple.Network

open Library

/-- The action runs the accept, read or write handler of the session with an error code. -/
def PersistentAction.Fails {κ : Type*} (c : κ) : PersistentAction κ → Prop
  | .handshakeDone d ok => d = c ∧ ok = false
  | .readDone d result => d = c ∧ result = none
  | .writeDone d _ ok => d = c ∧ ok = false
  | _ => False

namespace WebsocketSession

/-- The events in which a completion handler gets an error code. -/
def SessionEvent.IsError : SessionEvent → Prop
  | .handshake ok => ok = false
  | .readError => True
  | .write ok => ok = false
  | _ => False

variable {session session' : WebsocketSession} {e : SessionEvent}

/-- A session has failed if one of its handlers got an error code, now or before. -/
theorem Move.failed_iff (hmove : Move e session session') :
    session'.failed = true ↔ session.failed = true ∨ e.IsError := by
  cases hmove with
  | start _ => simp [SessionEvent.IsError, WebsocketSession.start]
  | handshake ok _ => cases ok <;> simp [SessionEvent.IsError, acceptHandler, readMessageAsync]
  | send _ => simp [SessionEvent.IsError, WebsocketSession.send]
  | posted _ hrun =>
    rw [sendHandler_eq, Option.some.injEq] at hrun
    simp [SessionEvent.IsError, ← hrun]
  | readError _ => simp [SessionEvent.IsError]
  | readData _ _ _ => simp [SessionEvent.IsError, WebsocketSession.readData]
  | write ok _ hrun =>
    rcases writeHandler_cases hrun with ⟨rfl, rfl⟩ | ⟨rfl, _, _, _, rfl⟩
    · simp [SessionEvent.IsError]
    · simp [SessionEvent.IsError]

end WebsocketSession

namespace PersistentServer

variable {κ : Type*} [DecidableEq κ] {lim : ThreadSafe.Limits} {s t : PersistentServer κ}
  {a : PersistentAction κ}

omit [DecidableEq κ] in
theorem fails_iff_isError {c : κ} {e : WebsocketSession.SessionEvent} (h : s.Touches a c e) :
    a.Fails c ↔ e.IsError := by
  cases h <;> simp [PersistentAction.Fails, WebsocketSession.SessionEvent.IsError]

/-- A handler that gets an error code leaves its mark. -/
theorem step_fails {c : κ} (h : s.step lim a = some t) (ha : a.Fails c) :
    (t.sessions c).failed = true := by
  cases a with
  | handshakeDone d ok =>
    obtain ⟨rfl, rfl⟩ := ha
    simp only [step, Option.ite_none_right_eq_some, Option.some.injEq] at h
    rw [← h.2, setSession_self]
    rfl
  | readDone d result =>
    obtain ⟨rfl, rfl⟩ := ha
    simp only [step, Option.ite_none_right_eq_some, Option.some.injEq] at h
    rw [← h.2]
    exact congrArg WebsocketSession.failed (setSession_self s d _)
  | writeDone d i ok =>
    obtain ⟨rfl, rfl⟩ := ha
    simp only [step] at h
    split at h
    · cases h
      rw [setSession_self]
    · cases h
  | _ => cases ha

theorem step_failed_iff {c : κ} (h : s.step lim a = some t) :
    (t.sessions c).failed = true ↔ (s.sessions c).failed = true ∨ a.Fails c := by
  rcases step_move lim h c with hsame | ⟨e, he, hmove⟩
  · rw [hsame]
    constructor
    · exact .inl
    · rintro (hfailed | ha)
      · exact hfailed
      · rw [← hsame]
        exact step_fails h ha
  · rw [hmove.failed_iff, fails_iff_isError he]

/-- Sessions are only ever added, each with a call of `on_client_connected`. -/
theorem step_roster (h : s.step lim a = some t) :
    ((∀ c, a ≠ .acceptDone (some c)) ∧ t.activeSessions = s.activeSessions ∧ t.hooks = s.hooks) ∨
    ∃ c, a = .acceptDone (some c) ∧ t.activeSessions = c :: s.activeSessions ∧
      t.hooks = s.hooks ++ [.clientConnected c] := by
  have hactive : t.activeSessions = (s.outside lim a).activeSessions := by
    rw [← step_outside h]
  have hhooks : t.hooks = (s.outside lim a).hooks := by
    rw [← step_outside h]
  rw [hactive, hhooks]
  by_cases haccept : ∃ c, a = .acceptDone (some c)
  · obtain ⟨c, rfl⟩ := haccept
    exact .inr ⟨c, rfl, rfl, rfl⟩
  · rw [not_exists] at haccept
    refine .inl ⟨haccept, ?_⟩
    unfold outside
    split
    · exact absurd rfl (haccept _)
    all_goals simp

/-- Whoever is not active has never been touched, and no client is ever reported as gone. -/
structure Enrolled (s : PersistentServer κ) : Prop where
  outside : ∀ c, c ∉ s.activeSessions → s.sessions c = .initial
  neverGone : ∀ c, Hook.clientDisconnected c ∉ s.hooks

omit [DecidableEq κ] in
theorem enrolled_initial : Enrolled (initial : PersistentServer κ) :=
  ⟨fun _ _ => rfl, nofun⟩

omit [DecidableEq κ] in
/-- The only event for a session that is not active yet is its start. -/
theorem start_of_outside {c : κ} {e : WebsocketSession.SessionEvent}
    {session : WebsocketSession} (hactive : c ∉ s.activeSessions)
    (hinitial : s.sessions c = .initial) (he : s.Touches a c e)
    (hmove : WebsocketSession.Move e (s.sessions c) session) : a = .acceptDone (some c) := by
  rw [hinitial] at hmove
  cases he with
  | accept _ _ => rfl
  | handshake _ _ _ => nomatch hmove
  | readError _ _ => nomatch hmove
  | readData _ _ _ _ => nomatch hmove
  | posted _ _ _ => nomatch hmove
  | write _ _ _ _ => nomatch hmove
  | broadcast _ h => exact absurd h hactive
  | send _ _ h => exact absurd (by rw [hinitial]; rfl) h

theorem enrolled_step (hs : Enrolled s) (hstep : s.step lim a = some t) : Enrolled t := by
  have houtside (c : κ) (hc : c ∉ s.activeSessions) (ha : a ≠ .acceptDone (some c)) :
      t.sessions c = .initial := by
    rcases step_move lim hstep c with hsame | ⟨e, he, hmove⟩
    · rw [hsame]
      exact hs.outside c hc
    · exact absurd (start_of_outside hc (hs.outside c hc) he hmove) ha
  rcases step_roster hstep with ⟨hother, hactive, hhooks⟩ | ⟨d, rfl, hactive, hhooks⟩
  · constructor
    · intro c hc
      rw [hactive] at hc
      exact houtside c hc (hother c)
    · rw [hhooks]
      exact hs.neverGone
  · constructor
    · intro c hc
      rw [hactive, List.mem_cons, not_or] at hc
      refine houtside c hc.2 ?_
      intro ha
      cases ha
      exact hc.1 rfl
    · intro c hc
      rw [hhooks, List.mem_append, List.mem_singleton] at hc
      rcases hc with hc | hc
      · exact hs.neverGone c hc
      · cases hc

/-- What is to hold of a session that has ended. -/
def Retired (s : PersistentServer κ) (c : κ) : Prop :=
  c ∉ s.activeSessions ∧ s.hooks.count (.clientDisconnected c) = 1 ∧
    ∀ message, (s.broadcast message).sessions c = s.sessions c

/-- A session that has failed stays active, is never reported as gone, and every broadcast posts one
more message to it. -/
theorem Enrolled.of_failed (h : Enrolled s) {c : κ} (hfailed : (s.sessions c).failed = true) :
    c ∈ s.activeSessions ∧ s.hooks.count (.clientDisconnected c) = 0 ∧
      ∀ message, ((s.broadcast message).sessions c).posted =
        (s.sessions c).posted ++ [message] := by
  have hactive : c ∈ s.activeSessions := by
    by_contra hc
    rw [h.outside c hc] at hfailed
    cases hfailed
  refine ⟨hactive, List.count_eq_zero.mpr (h.neverGone c), ?_⟩
  intro message
  simp only [broadcast, if_pos hactive, WebsocketSession.send]

variable {actions : List (PersistentAction κ)}

/-- The sessions that have ended are retired in exactly those runs in which none ends: a session that
has failed is never retired. -/
theorem retired_iff_not_fails (hrun : run (step lim) initial actions = some s) (c : κ) :
    (((s.sessions c).failed = true → s.Retired c) ↔ ∀ a ∈ actions, ¬ a.Fails c) ∧
    ((s.sessions c).failed = true → c ∈ s.activeSessions ∧
      s.hooks.count (.clientDisconnected c) = 0 ∧
      ∀ message, ((s.broadcast message).sessions c).posted =
        (s.sessions c).posted ++ [message]) := by
  have henrolled : Enrolled s :=
    run_invariant (fun _ _ _ hs hstep => enrolled_step hs hstep) enrolled_initial hrun
  have hfailed : (s.sessions c).failed = true ↔ ∃ a ∈ actions, a.Fails c := by
    rw [run_brought_about (fun _ _ _ hstep => step_failed_iff hstep) hrun]
    simp [initial, WebsocketSession.initial]
  refine ⟨?_, henrolled.of_failed⟩
  constructor
  · intro hretired a ha hfails
    have hf := hfailed.mpr ⟨a, ha, hfails⟩
    exact (hretired hf).1 (henrolled.of_failed hf).1
  · intro hnone hf
    obtain ⟨a, ha, hfails⟩ := hfailed.mp hf
    exact absurd hfails (hnone a ha)

/-- A client that disconnects while the server waits for its next message. -/
theorem disconnected_session_not_retired :
    ¬ ∀ (actions : List (PersistentAction ℕ)) (s : PersistentServer ℕ),
      run (step ⟨true, true, 4, 64⟩) initial actions = some s →
        ∀ c, (s.sessions c).failed = true → s.Retired c := by
  intro h
  have hretired := h [.acceptDone (some 7), .handshakeDone 7 true, .readDone 7 none] _ rfl 7 rfl
  exact hretired.1 (by decide)

/-- The client of the first session disconnects, and the second session is not affected. -/
theorem retired_iff_not_fails_two :
    ∃ s : PersistentServer ℕ,
      run (step ⟨true, true, 4, 64⟩) initial [.acceptDone (some 7), .acceptDone (some 8),
        .handshakeDone 7 true, .readDone 7 none] = some s ∧
      ¬ ((s.sessions 7).failed = true → s.Retired 7) ∧
      ((s.sessions 8).failed = true → s.Retired 8) := by
  have hrun : run (step ⟨true, true, 4, 64⟩) initial [.acceptDone (some 7), .acceptDone (some 8),
      .handshakeDone 7 true, .readDone 7 none] = some _ := rfl
  refine ⟨_, rfl, ?_, ?_⟩
  · rw [(retired_iff_not_fails hrun 7).1]
    intro h
    exact h (.readDone 7 none) (by simp) ⟨rfl, rfl⟩
  · rw [(retired_iff_not_fails hrun 8).1]
    simp [PersistentAction.Fails]

end PersistentServer
end ServerSimple.Network
