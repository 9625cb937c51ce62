import ServerSimple.Network.ContextThread

/-! # Exceptions that leave the context thread

With responses that `prepare_payload` takes, the two calls of `remote_endpoint` are the only ones that
can throw: in the accept handler when the client is already gone, and in the read handler when it is
gone or the write handler has closed the socket in the meantime. Both siblings, the shutdown and the
close of a socket, use the overloads with an error code.
-/

namespace ServerSimple.Network

open Library ThreadSafe

/-- `prepare_payload` takes the response. -/
def HttpResponse.Preparable (response : HttpResponse) : Prop :=
  thrown response.preparePayload = none

theorem overloadedResponse_preparable (version : ℕ) : (overloadedResponse version).Preparable := rfl

namespace HttpConnection

/-- Everything that is still to be written can be. -/
structure Prepared (conn : HttpConnection) : Prop where
  posted : ∀ p ∈ conn.posted, p.response.Preparable
  buffered : ∀ k r, conn.responses.lookup k = some r → r.Preparable

variable {conn conn' : HttpConnection}

theorem prepared_initial : Prepared initial := ⟨nofun, nofun⟩

theorem Prepared.congr (h : Prepared conn) (hposted : conn'.posted = conn.posted)
    (hresponses : conn'.responses = conn.responses) : Prepared conn' := by
  constructor
  · rw [hposted]
    exact h.posted
  · rw [hresponses]
    exact h.buffered

theorem Prepared.post (h : Prepared conn) {p : Posted} (hp : p.response.Preparable)
    (hposted : conn'.posted = conn.posted ++ [p])
    (hresponses : conn'.responses = conn.responses) : Prepared conn' := by
  constructor
  · intro q hq
    rw [hposted, List.mem_append, List.mem_singleton] at hq
    rcases hq with hq | rfl
    · exact h.posted q hq
    · exact hp
  · rw [hresponses]
    exact h.buffered

theorem Prepared.writeThrows (h : Prepared conn) : conn.writeThrows = none := by
  unfold HttpConnection.writeThrows
  split
  · rfl
  · rename_i r hr
    exact h.buffered _ r hr

theorem Prepared.write (h : Prepared conn) : Prepared conn.write := by
  unfold HttpConnection.write
  split
  · exact h.congr rfl rfl
  · exact h.congr rfl rfl

/-- A posted handler moves its response to the buffer. -/
theorem Prepared.emplace (h : Prepared conn) {i : ℕ} {p : Posted}
    (hi : conn.posted[i]? = some p) :
    Prepared { conn.takePosted i with
      responses := Library.emplace conn.responses p.sequenceId p.response } := by
  constructor
  · intro q hq
    exact h.posted q (List.mem_of_mem_eraseIdx hq)
  · intro k r hr
    rcases lookup_emplace_eq_some hr with hold | rfl
    · exact h.buffered k r hold
    · exact h.posted p (List.mem_of_getElem? hi)

theorem Prepared.deliver (h : Prepared conn) {i : ℕ} {p : Posted}
    (hi : conn.posted[i]? = some p) :
    Prepared ((conn.takePosted i).deliver p) ∧ (conn.takePosted i).deliverThrows p = none := by
  have hbuffered := h.emplace hi
  unfold HttpConnection.deliver deliverThrows
  dsimp only
  split_ifs
  · exact ⟨hbuffered, rfl⟩
  · exact ⟨hbuffered.write, hbuffered.writeThrows⟩

/-- A written response leaves the buffer. -/
theorem Prepared.erase (h : Prepared conn) (i : ℕ) :
    Prepared { conn.takeWrite i with
      responses := conn.responses.erase conn.nextResponseSequenceId
      nextResponseSequenceId := conn.nextResponseSequenceId + 1 } := by
  refine ⟨h.posted, ?_⟩
  intro k r hr
  by_cases hk : k = conn.nextResponseSequenceId
  · rw [hk] at hr
    simp at hr
  · rw [AList.lookup_erase_ne hk] at hr
    exact h.buffered k r hr

theorem Prepared.writeHandler (h : Prepared conn) (i : ℕ) (response : HttpResponse) (ok : Bool) :
    Prepared ((conn.takeWrite i).writeHandler response ok) ∧
      (conn.takeWrite i).writeHandlerThrows response ok = none := by
  have hrest := h.erase i
  unfold HttpConnection.writeHandler writeHandlerThrows
  cases ok with
  | false => exact ⟨h.congr rfl rfl, rfl⟩
  | true =>
    cases response.keepAlive with
    | false => exact ⟨hrest.congr rfl rfl, rfl⟩
    | true => exact ⟨hrest.write, hrest.writeThrows⟩

theorem Prepared.readHandler (h : Prepared conn) {κ : Type*} {lim : Limits} {c : κ}
    {queue queue' : ThreadSafeQueue (RequestTask κ)} {result : Option HttpRequest}
    {endpoint : Option String}
    (hrun : conn.takeRead.readHandler lim c queue result endpoint = .ok (conn', queue')) :
    Prepared conn' := by
  rcases readHandler_cases lim hrun with
    ⟨_, rfl, _⟩ | ⟨request, _, ⟨rfl, _⟩ | ⟨_, rfl, _⟩⟩
  · exact h.congr rfl rfl
  · exact h.post (p := .rejectOverloaded conn.nextSequenceId request.version)
      (overloadedResponse_preparable _) rfl rfl
  · exact h.congr rfl rfl

end HttpConnection

/-- `process_client_request` returns only responses that can be written. -/
def ServerAction.Preparable {κ ω : Type*} : ServerAction κ ω → Prop
  | .finish _ response => response.Preparable
  | _ => True

/-- The application returns only responses that can be written. -/
def ContextEvent.Preparable {κ ω : Type*} : ContextEvent κ ω → Prop
  | .server action => action.Preparable
  | _ => True

namespace RequestServer

variable {κ ω : Type*} [DecidableEq κ] [DecidableEq ω] {lim : Limits} {s t : RequestServer κ ω}
  {a : ServerAction κ ω}

/-- Every connection can write what it has. -/
def Prepared (s : RequestServer κ ω) : Prop := ∀ c, (s.connections c).Prepared

omit [DecidableEq ω] in
theorem Prepared.setConnection (h : Prepared s) {c : κ} {conn : HttpConnection}
    (hconn : conn.Prepared) : Prepared (s.setConnection c conn) := by
  intro d
  by_cases hd : d = c
  · subst hd
    rw [setConnection_self]
    exact hconn
  · rw [setConnection_of_ne s conn hd]
    exact h d

/-- A server that can write what it has stays so, as long as the application keeps to it. -/
theorem Prepared.step (h : Prepared s) (ha : a.Preparable) (hstep : s.step lim a = some t) :
    Prepared t := by
  cases a with
  | accept c =>
    simp only [RequestServer.step, Option.ite_none_right_eq_some, Option.some.injEq] at hstep
    rw [← hstep.2]
    exact h.setConnection ((h c).congr rfl rfl)
  | readDone c result endpoint =>
    simp only [RequestServer.step, Option.ite_none_right_eq_some] at hstep
    obtain ⟨_, hstep⟩ := hstep
    split at hstep
    · cases hstep
    · rename_i conn queue hread
      cases hstep
      exact h.setConnection ((h c).readHandler hread)
  | pop w =>
    simp only [RequestServer.step] at hstep
    split at hstep
    · cases hstep
      exact h
    · cases hstep
  | finish w response =>
    simp only [RequestServer.step] at hstep
    split at hstep
    · cases hstep
    · rename_i task _
      cases hstep
      exact h.setConnection ((h task.connection).post
        (p := .sendResponse response task.sequenceId) ha rfl rfl)
  | runPosted c i =>
    simp only [RequestServer.step] at hstep
    split at hstep
    · rename_i handler _ hi
      cases hstep
      exact h.setConnection ((h c).deliver hi).1
    · cases hstep
  | writeDone c i ok =>
    simp only [RequestServer.step] at hstep
    split at hstep
    · rename_i response _ _
      cases hstep
      exact h.setConnection ((h c).writeHandler i response ok).1
    · cases hstep
  | stopContext =>
    cases hstep
    exact h
  | stopQueue =>
    simp only [RequestServer.step, Option.ite_none_right_eq_some, Option.some.injEq] at hstep
    rw [← hstep.2]
    exact h

/-- The peer of a connection is there when the handler of a successful read asks for its address. -/
def PeerPresent (s : RequestServer κ ω) : ServerAction κ ω → Prop
  | .readDone c (some _) endpoint => (s.connections c).closed = false ∧ endpoint ≠ none
  | _ => True

omit [DecidableEq κ] [DecidableEq ω] in
/-- Nothing else can throw. -/
theorem Prepared.throws (h : Prepared s) (ha : s.PeerPresent a) : s.throws a = none := by
  cases a with
  | readDone c result endpoint =>
    cases result with
    | none => rfl
    | some request =>
      obtain ⟨hopen, hpeer⟩ := ha
      obtain ⟨ip, rfl⟩ := Option.ne_none_iff_exists'.mp hpeer
      simp only [RequestServer.throws]
      split_ifs
      · simp [HttpConnection.getClientIp, HttpConnection.takeRead, hopen, thrown]
      · rfl
  | runPosted c i =>
    simp only [RequestServer.throws]
    split
    · rename_i handler _ hi
      exact ((h c).deliver hi).2
    · rfl
  | writeDone c i ok =>
    simp only [RequestServer.throws]
    split
    · rename_i response _ _
      exact ((h c).writeHandler i response ok).2
    · rfl
  | _ => rfl

/-- A read handler that gets through has found its peer. -/
theorem peerPresent_of_step (hstep : s.step lim a = some t) : s.PeerPresent a := by
  match a with
  | .readDone c (some request) endpoint =>
    simp only [RequestServer.step, Option.ite_none_right_eq_some] at hstep
    obtain ⟨_, hstep⟩ := hstep
    cases hclosed : (s.connections c).closed with
    | true =>
      simp [HttpConnection.readHandler, HttpConnection.getClientIp, HttpConnection.takeRead,
        hclosed] at hstep
    | false =>
      cases endpoint with
      | none =>
        simp [HttpConnection.readHandler, HttpConnection.getClientIp, HttpConnection.takeRead,
          hclosed] at hstep
      | some ip => exact ⟨hclosed, Option.some_ne_none ip⟩
  | .readDone _ none _ => trivial
  | .accept _ | .pop _ | .finish _ _ | .runPosted _ _ | .writeDone _ _ _ | .stopContext
  | .stopQueue => trivial

end RequestServer

namespace ContextThread

variable {κ ω : Type*} [DecidableEq κ] [DecidableEq ω] {limits : RateLimits} {lim : Limits}
  {s t : ContextThread κ ω} {e : ContextEvent κ ω}

/-- The peer is there whenever a handler asks for its address. -/
def PeersPresent (s : ContextThread κ ω) : ContextEvent κ ω → Prop
  | .acceptDone _ (some (_, endpoint)) => endpoint ≠ none
  | .server action => s.server.PeerPresent action
  | _ => True

/-- Nothing has escaped, one `async_accept` is pending, and every connection can write. -/
structure Sound (s : ContextThread κ ω) : Prop where
  kept : s.escaped = none
  accepting : s.accepts = 1
  prepared : s.server.Prepared

omit [DecidableEq κ] [DecidableEq ω] in
theorem sound_initial : Sound (initial : ContextThread κ ω) :=
  ⟨rfl, rfl, fun _ => HttpConnection.prepared_initial⟩

omit [DecidableEq ω] in
/-- An accept handler that finds the address starts the next `async_accept`. -/
theorem Sound.acceptHandler (hs : Sound s) {now : ℚ} {result : Option (κ × Option String)}
    (hpeer : s.PeersPresent (.acceptDone now result)) :
    Sound (s.takeAccept.acceptHandler limits now result) := by
  have haccepts : s.accepts - 1 + 1 = 1 := by rw [hs.accepting]
  match result with
  | none => exact ⟨hs.kept, haccepts, hs.prepared⟩
  | some (c, none) => exact absurd rfl hpeer
  | some (c, some clientIp) =>
    simp only [ContextThread.acceptHandler, remoteEndpoint]
    split
    · exact ⟨hs.kept, haccepts, hs.prepared⟩
    · exact ⟨hs.kept, haccepts, hs.prepared.setConnection ((hs.prepared c).congr rfl rfl)⟩

theorem Sound.step (hs : Sound s) (hpeer : s.PeersPresent e) (he : e.Preparable)
    (hstep : s.step limits lim e = some t) : Sound t := by
  cases e with
  | acceptDone now result =>
    simp only [ContextThread.step, Option.ite_none_right_eq_some, Option.some.injEq] at hstep
    rw [← hstep.2]
    exact hs.acceptHandler hpeer
  | limiterCleanup now =>
    simp only [ContextThread.step, Option.ite_none_right_eq_some, Option.some.injEq] at hstep
    rw [← hstep.2]
    exact ⟨hs.kept, hs.accepting, hs.prepared⟩
  | server action =>
    obtain ⟨_, ⟨what, hthrows, _⟩ | ⟨_, server, hserver, rfl⟩⟩ := step_server hstep
    · rw [hs.prepared.throws hpeer] at hthrows
      cases hthrows
    · exact ⟨hs.kept, hs.accepting, hs.prepared.step he hserver⟩

/-- A handler that asks for the address of a peer that is gone ends the process. -/
theorem escaped_of_peer_gone (hpeer : ¬ s.PeersPresent e)
    (hstep : s.step limits lim e = some t) : t.escaped ≠ none := by
  cases e with
  | acceptDone now result =>
    simp only [ContextThread.step, Option.ite_none_right_eq_some, Option.some.injEq] at hstep
    rw [← hstep.2]
    rcases result with _ | ⟨c, _ | clientIp⟩
    · exact absurd trivial hpeer
    · exact Option.some_ne_none _
    · exact absurd (Option.some_ne_none clientIp) hpeer
  | limiterCleanup now => exact absurd trivial hpeer
  | server action =>
    obtain ⟨_, ⟨what, _, rfl⟩ | ⟨_, server, hserver, _⟩⟩ := step_server hstep
    · exact Option.some_ne_none what
    · exact absurd (RequestServer.peerPresent_of_step hserver) hpeer

/-- After that, nothing happens. -/
theorem step_of_escaped (h : s.escaped ≠ none) : s.step limits lim e = none := by
  cases hstep : s.step limits lim e with
  | none => rfl
  | some t =>
    refine absurd ?_ h
    cases e with
    | acceptDone now result =>
      simp only [ContextThread.step, Option.ite_none_right_eq_some] at hstep
      exact hstep.1.1
    | limiterCleanup now =>
      simp only [ContextThread.step, Option.ite_none_right_eq_some] at hstep
      exact hstep.1
    | server action => exact (step_server hstep).1

theorem escaped_run (h : s.escaped ≠ none) {events : List (ContextEvent κ ω)}
    (hrun : run (ContextThread.step limits lim) s events = some t) : t.escaped ≠ none := by
  have hstep : ∀ (u : ContextThread κ ω) e v, u.escaped ≠ none →
      u.step limits lim e = some v → v.escaped ≠ none := by
    intro u e v hu hstep
    rw [step_of_escaped hu] at hstep
    cases hstep
  exact run_invariant hstep h hrun

/-- Whoever gets through a run has found every peer. -/
theorem guarded_of_not_escaped {events : List (ContextEvent κ ω)}
    (hrun : run (ContextThread.step limits lim) s events = some t) (h : t.escaped = none) :
    Guarded (ContextThread.step limits lim) PeersPresent s events := by
  induction events generalizing s with
  | nil => trivial
  | cons e events ih =>
    obtain ⟨u, hu, hrest⟩ := run_cons_eq_some.mp hrun
    have hkept : u.escaped = none := by
      by_contra hescaped
      exact escaped_run hescaped hrest h
    constructor
    · by_contra hgone
      exact escaped_of_peer_gone hgone hu hkept
    · intro v hv
      rw [hu, Option.some.injEq] at hv
      rw [← hv]
      exact ih hrest

variable {events : List (ContextEvent κ ω)}

/-- No exception escapes, and one `async_accept` stays pending, exactly if the peer is there whenever
an accept or a read handler that has succeeded asks for its address. -/
theorem no_escape_iff_peersPresent (hresponses : ∀ e ∈ events, e.Preparable)
    (hrun : run (ContextThread.step limits lim) initial events = some s) :
    (s.escaped = none ∧ (s.server.running = true → s.accepts = 1)) ↔
      Guarded (ContextThread.step limits lim) PeersPresent initial events := by
  constructor
  · intro h
    exact guarded_of_not_escaped hrun h.1
  · intro hpeers
    have hgood := hpeers.and (guarded_of_forall_mem initial hresponses)
    have hsound : Sound s :=
      guarded_run_invariant (fun _ _ _ hs hg hstep => hs.step hg.1 hg.2 hstep) sound_initial
        hgood hrun
    exact ⟨hsound.kept, fun _ => hsound.accepting⟩

/-- The default parameters of `request_server_base`. -/
def defaultLimits : RateLimits := ⟨50, 1 / 2, 120, by norm_num, by norm_num⟩

/-- A client sends two requests in one go and asks to close the connection after the first. The second
read is complete before the first response is written, and its handler runs after the close. -/
def pipelinedClose : List (ContextEvent ℕ Unit) :=
  [.acceptDone 0 (some (7, some "10.0.0.1")),
    .server (.readDone 7 (some ⟨11, "/first", ""⟩) (some "10.0.0.1")),
    .server (.pop ()), .server (.finish () ⟨11, 200, "text/plain", "done", false⟩),
    .server (.runPosted 7 0), .server (.writeDone 7 0 true),
    .server (.readDone 7 (some ⟨11, "/second", ""⟩) (some "10.0.0.1"))]

theorem pipelinedClose_preparable : ∀ e ∈ pipelinedClose, e.Preparable := by
  have hdone : (⟨11, 200, "text/plain", "done", false⟩ : HttpResponse).Preparable := rfl
  simp [pipelinedClose, ContextEvent.Preparable, ServerAction.Preparable, hdone]

theorem pipelined_close_escapes :
    ¬ ∀ (events : List (ContextEvent ℕ Unit)) (s : ContextThread ℕ Unit),
      (∀ e ∈ events, e.Preparable) →
      run (ContextThread.step defaultLimits ⟨true, true, 65536, 67108864⟩) initial events = some s →
        s.escaped = none ∧ (s.server.running = true → s.accepts = 1) := by
  intro h
  have hkept := (h pipelinedClose _ pipelinedClose_preparable rfl).1
  cases hkept

/-- Up to the close every peer is there. -/
theorem no_escape_iff_peersPresent_pipelined :
    Guarded (ContextThread.step defaultLimits ⟨true, true, 65536, 67108864⟩) PeersPresent initial
      (pipelinedClose.take 6) := by
  have hrun : run (ContextThread.step defaultLimits ⟨true, true, 65536, 67108864⟩) initial
      (pipelinedClose.take 6) = some _ := rfl
  have hresponses : ∀ e ∈ pipelinedClose.take 6, e.Preparable :=
    fun e he => pipelinedClose_preparable e (List.mem_of_mem_take he)
  exact (no_escape_iff_peersPresent hresponses hrun).mp ⟨rfl, fun _ => rfl⟩

end ContextThread
end ServerSimple.Network
