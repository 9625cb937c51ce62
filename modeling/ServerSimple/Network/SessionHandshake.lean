import ServerSimple.Network.SessionWrites

/-! # Frames and the handshake

`setup_client_connection` makes a session visible to `broadcast` before its handshake has finished,
and neither `send` nor the handler it posts looks at the handshake. So frames stay behind the handshake
exactly as long as the update loop does not send too early.
-/

namespace ServerSimple.Network

open Library

namespace WebsocketSession

/-- Every write was started after a handshake that succeeded. -/
def FramesAfterHandshake (session : WebsocketSession) : Prop :=
  ∀ w ∈ session.written, w.1 = .succeeded

/-- Without a finished handshake nothing is on its way to the client. -/
def Silent (session : WebsocketSession) : Prop :=
  session.handshake ≠ .succeeded →
    session.posted = [] ∧ session.writeQueue = [] ∧ session.writes = []

variable {session session' : WebsocketSession} {e : SessionEvent}

theorem silent_initial : Silent initial := fun _ => ⟨rfl, rfl, rfl⟩

theorem Silent.succeeded_of_posted (h : Silent session) {i : ℕ} {message : Message}
    (hi : session.posted[i]? = some message) : session.handshake = .succeeded := by
  by_contra hne
  rw [(h hne).1] at hi
  cases hi

theorem Silent.succeeded_of_writes (h : Silent session) {i : ℕ} {message : Message}
    (hi : session.writes[i]? = some message) : session.handshake = .succeeded := by
  by_contra hne
  rw [(h hne).2.2] at hi
  cases hi

/-- What a handler of the writing side does to the handshake and to the writes started. -/
theorem sendHandler_started {i : ℕ} {message : Message}
    (h : (session.takePosted i).sendHandler message = some session') :
    session'.handshake = session.handshake ∧
      ∃ started : List Message,
        session'.written = session.written ++ started.map (session.handshake, ·) := by
  rw [sendHandler_eq, Option.some.injEq] at h
  rw [← h]
  exact ⟨rfl, session.startedBy message, rfl⟩

theorem writeHandler_started {i : ℕ} {ok : Bool}
    (h : (session.takeWrite i).writeHandler ok = some session') :
    session'.handshake = session.handshake ∧
      ∃ started : List Message,
        session'.written = session.written ++ started.map (session.handshake, ·) := by
  rcases writeHandler_cases h with ⟨_, rfl⟩ | ⟨_, front, rest, _, rfl⟩
  · exact ⟨rfl, [], (List.append_nil _).symm⟩
  · exact ⟨rfl, rest.take 1, rfl⟩

theorem Silent.move (h : Silent session)
    (hsend : ∀ message, e = .send message → session.handshake = .succeeded)
    (hmove : Move e session session') : Silent session' := by
  cases hmove with
  | start hstart => exact fun _ => h (by simp [hstart])
  | handshake ok hpending =>
    cases ok with
    | true => exact fun hne => absurd rfl hne
    | false => exact fun _ => h (by simp [hpending])
  | send message => exact fun hne => absurd (hsend message rfl) hne
  | posted hi hrun =>
    intro hne
    rw [(sendHandler_started hrun).1] at hne
    exact absurd (h.succeeded_of_posted hi) hne
  | readError _ => exact h
  | readData _ _ _ => exact h
  | write ok hi hrun =>
    intro hne
    rw [(writeHandler_started hrun).1] at hne
    exact absurd (h.succeeded_of_writes hi) hne

theorem FramesAfterHandshake.append (h : FramesAfterHandshake session)
    (hsucceeded : session.handshake = .succeeded)
    (hwritten : ∃ started : List Message,
      session'.written = session.written ++ started.map (session.handshake, ·)) :
    FramesAfterHandshake session' := by
  obtain ⟨started, hwritten⟩ := hwritten
  intro w hw
  rw [hwritten, List.mem_append, List.mem_map] at hw
  rcases hw with hw | ⟨message, _, rfl⟩
  · exact h w hw
  · exact hsucceeded

theorem FramesAfterHandshake.send {message : Message} (h : FramesAfterHandshake session)
    (hmove : Move (.send message) session session') : FramesAfterHandshake session' := by
  cases hmove
  exact h

/-- Only the handlers of the writing side start a write. -/
theorem Silent.framesAfterHandshake (h : Silent session) (hframes : FramesAfterHandshake session)
    (hmove : Move e session session') : FramesAfterHandshake session' := by
  cases hmove with
  | start _ => exact hframes
  | handshake ok _ => cases ok <;> exact hframes
  | send _ => exact hframes
  | posted hi hrun => exact hframes.append (h.succeeded_of_posted hi) (sendHandler_started hrun).2
  | readError _ => exact hframes
  | readData _ _ _ => exact hframes
  | write ok hi hrun => exact hframes.append (h.succeeded_of_writes hi) (writeHandler_started hrun).2

end WebsocketSession

namespace PersistentServer

variable {κ : Type*} [DecidableEq κ] {lim : ThreadSafe.Limits} {s t : PersistentServer κ}
  {a : PersistentAction κ}

/-- The update loop sends to a session only after its handshake has succeeded. Once the context has
stopped it may send what it likes: no handler runs any more. -/
def SendsAfterHandshake (s : PersistentServer κ) : PersistentAction κ → Prop
  | .broadcast _ =>
    s.running = true → ∀ c ∈ s.activeSessions, (s.sessions c).handshake = .succeeded
  | .send c _ => s.running = true → (s.sessions c).handshake = .succeeded
  | _ => True

/-- Frames are behind the handshakes, and nothing else is on its way as long as the context runs. -/
def HandshakesRespected (s : PersistentServer κ) : Prop :=
  ∀ c, (s.sessions c).FramesAfterHandshake ∧ (s.running = true → (s.sessions c).Silent)

omit [DecidableEq κ] in
theorem handshakesRespected_initial : HandshakesRespected (initial : PersistentServer κ) :=
  fun _ => ⟨nofun, fun _ => WebsocketSession.silent_initial⟩

theorem handshakesRespected_step (hs : HandshakesRespected s) (hgood : s.SendsAfterHandshake a)
    (hstep : s.step lim a = some t) : HandshakesRespected t := by
  intro c
  obtain ⟨hframes, hsilent⟩ := hs c
  rcases step_move lim hstep c with hsame | ⟨e, he, hmove⟩
  · rw [hsame]
    exact ⟨hframes, fun ht => hsilent (step_running hstep ht)⟩
  constructor
  · by_cases hrunning : s.running = true
    · exact (hsilent hrunning).framesAfterHandshake hframes hmove
    · -- only a call of the update loop is possible, and it starts no write
      cases he with
      | broadcast _ _ => exact hframes.send hmove
      | send _ _ _ => exact hframes.send hmove
      | _ => contradiction
  · intro ht
    have hrunning := step_running hstep ht
    refine (hsilent hrunning).move ?_ hmove
    rintro message rfl
    cases he with
    | broadcast _ hactive => exact hgood hrunning c hactive
    | send _ _ _ => exact hgood hrunning

variable (lim)

/-- The handler of a message that was sent too early starts a write. -/
theorem early_frame {c : κ} {session : WebsocketSession} {message : Message}
    (hrunning : t.running = true) (hsent : t.sessions c = session.send message)
    (hsilent : session.Silent) (hearly : session.handshake ≠ .succeeded) :
    ∃ more u, run (step lim) t more = some u ∧ ∃ c, ¬ (u.sessions c).FramesAfterHandshake := by
  obtain ⟨hposted, hqueue, _⟩ := hsilent hearly
  have hfirst : (t.sessions c).posted[0]? = some message := by
    simp [hsent, WebsocketSession.send, hposted]
  have hstep : ∃ u, t.step lim (.runPosted c 0) = some u ∧
      (session.handshake, message) ∈ (u.sessions c).written := by
    simp only [step, hrunning, hfirst]
    rw [hsent, WebsocketSession.sendHandler_eq, Option.map_some]
    refine ⟨_, rfl, ?_⟩
    rw [setSession_self]
    exact List.mem_append_right _ (by simp [WebsocketSession.send, WebsocketSession.startedBy, hqueue])
  obtain ⟨u, hu, hwritten⟩ := hstep
  refine ⟨[.runPosted c 0], u, run_cons_eq_some.mpr ⟨u, hu, rfl⟩, c, ?_⟩
  intro hframes
  exact hearly (hframes _ hwritten)

/-- Frames are written after the handshake as long as the update loop never sends to a session without
a finished handshake; and the first call that does can be continued to a frame that is too early. -/
theorem framesAfterHandshake_of_sendsAfterHandshake :
    (∀ (actions : List (PersistentAction κ)) (s : PersistentServer κ),
      Guarded (step lim) SendsAfterHandshake initial actions →
      run (step lim) initial actions = some s → ∀ c, (s.sessions c).FramesAfterHandshake) ∧
    ∀ (actions : List (PersistentAction κ)) (s t : PersistentServer κ) (a : PersistentAction κ),
      Guarded (step lim) SendsAfterHandshake initial actions →
      run (step lim) initial actions = some s →
      s.step lim a = some t → ¬ s.SendsAfterHandshake a →
      ∃ more u, run (step lim) t more = some u ∧ ∃ c, ¬ (u.sessions c).FramesAfterHandshake := by
  have hinv (actions : List (PersistentAction κ)) (s : PersistentServer κ)
      (hgood : Guarded (step lim) SendsAfterHandshake initial actions)
      (hrun : run (step lim) initial actions = some s) : HandshakesRespected s :=
    guarded_run_invariant (fun _ _ _ hs hg hstep => handshakesRespected_step hs hg hstep)
      handshakesRespected_initial hgood hrun
  constructor
  · exact fun actions s hgood hrun c => (hinv actions s hgood hrun c).1
  · intro actions s t a hgood hrun hstep hbad
    have hsilent := fun c => (hinv actions s hgood hrun c).2
    cases a with
    | broadcast message =>
      simp only [SendsAfterHandshake, not_forall] at hbad
      obtain ⟨hrunning, c, hactive, hearly⟩ := hbad
      cases hstep
      have hsent : (s.broadcast message).sessions c = (s.sessions c).send message :=
        if_pos hactive
      exact early_frame lim hrunning hsent (hsilent c hrunning) hearly
    | send c message =>
      simp only [SendsAfterHandshake, not_forall] at hbad
      obtain ⟨hrunning, hearly⟩ := hbad
      simp only [step, Option.ite_none_right_eq_some, Option.some.injEq] at hstep
      rw [← hstep.2]
      exact early_frame lim hrunning (setSession_self s c _) (hsilent c hrunning) hearly
    | _ => exact absurd trivial hbad

/-- A client that delays its upgrade request, and one broadcast. -/
theorem broadcast_before_handshake :
    ¬ ∀ (actions : List (PersistentAction ℕ)) (s : PersistentServer ℕ),
      run (step ⟨true, true, 4, 64⟩) initial actions = some s →
        ∀ c, (s.sessions c).FramesAfterHandshake := by
  intro h
  have hframes := h [.acceptDone (some 7), .broadcast [1], .runPosted 7 0] _ rfl 7
  have hearly := hframes (.pending, [1]) (by decide)
  cases hearly

end PersistentServer
end ServerSimple.Network
