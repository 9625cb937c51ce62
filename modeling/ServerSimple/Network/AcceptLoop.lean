import ServerSimple.Library.Traces
import ServerSimple.Network.CleanupThread
import ServerSimple.Network.ConnectionClosing
import ServerSimple.Network.ContextEscapes

/-! # The accept loop and its limiter

Exactly one `async_accept` is outstanding as long as no exception has left the accept handler. Each
connection takes one token from the bucket of its address, so that the connections which one address
gets started in any time window are bounded by the parameters of the constructor.
-/

namespace ServerSimple.Network

open Library ThreadSafe HttpConnection

namespace ContextThread

variable {κ ω : Type*}

/-- The call of the limiter that an event makes. -/
def limiterCall : ContextEvent κ ω → Option LimiterCall
  | .acceptDone now (some (_, some clientIp)) => some (.consume ⟨now, clientIp, 1⟩)
  | .limiterCleanup now => some (.cleanup now)
  | _ => none

/-- What an accepted connection gets: its name and address, the time, and whether it is started in
the state that the handler leaves. -/
def admission (t : ContextThread κ ω) : ContextEvent κ ω → List (κ × Consume × Bool)
  | .acceptDone now (some (c, some clientIp)) =>
    [(c, ⟨now, clientIp, 1⟩, (t.server.connections c).started)]
  | _ => []

variable [DecidableEq κ] [DecidableEq ω] (limits : RateLimits) (lim : Limits)

/-- A step, with the connection that it decides about. -/
def stepAdmitting (s : ContextThread κ ω) (e : ContextEvent κ ω) :
    Option (ContextThread κ ω × List (κ × Consume × Bool)) :=
  (s.step limits lim e).map fun t => (t, t.admission e)

variable {limits lim} {s t : ContextThread κ ω} {e : ContextEvent κ ω}

/-! ## One outstanding accept -/

/-- The accept loop goes on, unless its handler has thrown. -/
def Accepting (s : ContextThread κ ω) : Prop :=
  s.accepts = 1 ∨ s.accepts = 0 ∧ s.escaped ≠ none

theorem Accepting.step (h : Accepting s) (hstep : s.step limits lim e = some t) : Accepting t := by
  cases e with
  | acceptDone now result =>
    simp only [ContextThread.step, Option.ite_none_right_eq_some, Option.some.injEq] at hstep
    obtain ⟨⟨hkept, -, hpos, -⟩, rfl⟩ := hstep
    have hone : s.accepts = 1 := by
      rcases h with hone | ⟨-, hthrown⟩
      · exact hone
      · exact absurd hkept hthrown
    cases result with
    | none =>
      refine .inl ?_
      simp [acceptHandler, startAcceptAsync, takeAccept, hone]
    | some client =>
      obtain ⟨c, endpoint⟩ := client
      cases endpoint with
      | none =>
        refine .inr ?_
        simp [acceptHandler, remoteEndpoint, takeAccept, hone]
      | some clientIp =>
        refine .inl ?_
        simp only [acceptHandler, remoteEndpoint]
        split <;> simp [startAcceptAsync, takeAccept, hone]
  | limiterCleanup now =>
    simp only [ContextThread.step, Option.ite_none_right_eq_some, Option.some.injEq] at hstep
    obtain ⟨-, rfl⟩ := hstep
    exact h
  | server action =>
    obtain ⟨hkept, ⟨what, -, rfl⟩ | ⟨-, server, -, rfl⟩⟩ := step_server hstep
    · rcases h with hone | ⟨-, hthrown⟩
      · exact .inl hone
      · exact absurd hkept hthrown
    · exact h

/-! ## Who is started -/

omit [DecidableEq ω] in
theorem started_setConnection (server : RequestServer κ ω) {c d : κ} {conn : HttpConnection}
    (h : conn.started = (server.connections c).started) :
    ((server.setConnection c conn).connections d).started = (server.connections d).started := by
  by_cases hd : d = c
  · rw [hd, RequestServer.setConnection_self, h]
  · rw [RequestServer.setConnection_of_ne server conn hd]

omit [DecidableEq κ] [DecidableEq ω] in
theorem started_of_readHandler {queue queue' : ThreadSafeQueue (RequestTask κ)} {c : κ}
    {conn conn' : HttpConnection} {result : Option HttpRequest} {endpoint : Option String}
    (h : conn.readHandler lim c queue result endpoint = .ok (conn', queue')) :
    conn'.started = conn.started := by
  rcases readHandler_cases lim h with ⟨-, rfl, -⟩ | ⟨request, -, ⟨rfl, -⟩ | ⟨clientIp, rfl, -⟩⟩ <;> rfl

/-- Only an accepted connection is started. -/
theorem started_of_step {server server' : RequestServer κ ω} {action : ServerAction κ ω}
    (haction : ∀ c, action ≠ .accept c) (hstep : server.step lim action = some server') (d : κ) :
    (server'.connections d).started = (server.connections d).started := by
  cases action with
  | accept c => exact absurd rfl (haction c)
  | readDone c result endpoint =>
    simp only [RequestServer.step, Option.ite_none_right_eq_some] at hstep
    obtain ⟨-, hstep⟩ := hstep
    split at hstep
    · cases hstep
    · rename_i conn queue hread
      cases hstep
      have hstarted := started_of_readHandler hread
      exact started_setConnection server hstarted
  | pop w =>
    simp only [RequestServer.step] at hstep
    split at hstep
    · cases hstep
      rfl
    · cases hstep
  | finish w response =>
    simp only [RequestServer.step] at hstep
    split at hstep
    · cases hstep
    · cases hstep
      exact started_setConnection server rfl
  | runPosted c i =>
    simp only [RequestServer.step] at hstep
    split at hstep
    · rename_i handler hrun hi
      cases hstep
      have hside := readSide_deliver ((server.connections c).takePosted i) handler
      exact started_setConnection server (congrArg Prod.fst hside)
    · cases hstep
  | writeDone c i ok =>
    simp only [RequestServer.step] at hstep
    split at hstep
    · rename_i response hrun hi
      cases hstep
      have hside := readSide_writeHandler ((server.connections c).takeWrite i) response ok
      exact started_setConnection server (congrArg Prod.fst hside)
    · cases hstep
  | stopContext =>
    cases hstep
    rfl
  | stopQueue =>
    simp only [RequestServer.step, Option.ite_none_right_eq_some, Option.some.injEq] at hstep
    rw [← hstep.2]

/-- What one event does to the limiter and to the started connections. -/
structure Admits (limits : RateLimits) (s t : ContextThread κ ω) (e : ContextEvent κ ω) : Prop where
  served : s.ipRateLimiter.serve limits (limiterCall e).toList =
    (t.ipRateLimiter, (t.admission e).map Prod.snd)
  started : ∀ c, (t.server.connections c).started = true ↔
    (s.server.connections c).started = true ∨ ∃ entry ∈ t.admission e, entry.1 = c ∧ entry.2.2 = true

omit [DecidableEq ω] in
/-- The handler consumes one token for the address, and starts the connection if it gets it. -/
theorem admits_of_accept {now : ℚ} {c : κ} {clientIp : String}
    (hnew : (s.server.connections c).started = false) :
    Admits limits s (s.takeAccept.acceptHandler limits now (some (c, some clientIp)))
      (.acceptDone now (some (c, some clientIp))) := by
  simp only [acceptHandler, remoteEndpoint]
  split
  · rename_i limiter hconsume
    have hanswer : s.ipRateLimiter.consume limits ⟨now, clientIp, 1⟩ = (false, limiter) := hconsume
    refine ⟨?_, fun d => ?_⟩
    · simp [limiterCall, RateLimiter.serve, hanswer, admission, startAcceptAsync, takeAccept, hnew]
    · simp [admission, startAcceptAsync, takeAccept, hnew]
  · rename_i limiter hconsume
    have hanswer : s.ipRateLimiter.consume limits ⟨now, clientIp, 1⟩ = (true, limiter) := hconsume
    have hstart : (s.server.connections c).start.started = true := rfl
    refine ⟨?_, fun d => ?_⟩
    · simp [limiterCall, RateLimiter.serve, hanswer, admission, startAcceptAsync, takeAccept, hstart]
    · by_cases hd : d = c
      · subst hd
        simp [admission, startAcceptAsync, takeAccept, hstart]
      · simp [admission, startAcceptAsync, takeAccept, hstart, hd, Ne.symm hd,
          RequestServer.setConnection_of_ne]

theorem admits_of_step (hstep : s.step limits lim e = some t) : Admits limits s t e := by
  cases e with
  | acceptDone now result =>
    simp only [step, Option.ite_none_right_eq_some, Option.some.injEq] at hstep
    obtain ⟨⟨-, -, -, hfresh⟩, rfl⟩ := hstep
    cases result with
    | none =>
      refine ⟨rfl, fun c => ?_⟩
      simp [admission, acceptHandler, startAcceptAsync, takeAccept]
    | some client =>
      obtain ⟨c, endpoint⟩ := client
      cases endpoint with
      | none =>
        refine ⟨rfl, fun d => ?_⟩
        simp [admission, acceptHandler, remoteEndpoint, takeAccept]
      | some clientIp => exact admits_of_accept (hfresh (c, some clientIp) rfl)
  | limiterCleanup now =>
    simp only [step, Option.ite_none_right_eq_some, Option.some.injEq] at hstep
    obtain ⟨-, rfl⟩ := hstep
    refine ⟨rfl, fun c => ?_⟩
    simp [admission]
  | server action =>
    have haction : ∀ c, action ≠ .accept c := by
      rintro c rfl
      cases hstep
    obtain ⟨-, ⟨what, -, rfl⟩ | ⟨-, server, hserver, rfl⟩⟩ := step_server hstep
    · refine ⟨rfl, fun c => ?_⟩
      simp [admission]
    · refine ⟨rfl, fun c => ?_⟩
      simp [admission, started_of_step haction hserver c]

/-- What a run does to the limiter and to the started connections, event by event. -/
theorem admits_of_trace {events : List (ContextEvent κ ω)} {log : List (κ × Consume × Bool)}
    (hrun : trace (stepAdmitting limits lim) s events = some (t, log)) :
    s.ipRateLimiter.serve limits (events.filterMap limiterCall) =
      (t.ipRateLimiter, log.map Prod.snd) ∧
    (∀ c, (t.server.connections c).started = true ↔
      (s.server.connections c).started = true ∨ ∃ entry ∈ log, entry.1 = c ∧ entry.2.2 = true) ∧
    (Accepting s → Accepting t) := by
  induction events generalizing s log with
  | nil =>
    rw [trace, Option.some.injEq, Prod.mk.injEq] at hrun
    obtain ⟨rfl, rfl⟩ := hrun
    exact ⟨rfl, fun c => by simp, id⟩
  | cons e events ih =>
    cases hstep : s.step limits lim e with
    | none => simp [trace, stepAdmitting, hstep] at hrun
    | some u =>
      have hadmitting : stepAdmitting limits lim s e = some (u, u.admission e) := by
        rw [stepAdmitting, hstep, Option.map_some]
      rw [trace_cons events hadmitting, Option.map_eq_some_iff] at hrun
      obtain ⟨⟨t', later⟩, hlater, heq⟩ := hrun
      cases heq
      obtain ⟨hserved, hstarted, haccepting⟩ := ih hlater
      have hadmits := admits_of_step hstep
      refine ⟨?_, ?_, fun hs => haccepting (hs.step hstep)⟩
      · rw [filterMap_cons_toList, CleanupThread.serve_append, hadmits.served, hserved,
          List.map_append]
      · intro c
        rw [hstarted c, hadmits.started c, or_assoc]
        simp only [List.mem_append, or_and_right, exists_or]

omit [DecidableEq κ] [DecidableEq ω] in
/-- Every connection costs one token. -/
theorem cost_of_mem {events : List (ContextEvent κ ω)} {call : Consume}
    (h : call ∈ CleanupThread.consumesOf (events.filterMap limiterCall)) : call.cost = 1 := by
  rw [CleanupThread.consumesOf, List.mem_filterMap] at h
  obtain ⟨made, hmem, hcall⟩ := h
  obtain ⟨e, -, he⟩ := List.mem_filterMap.mp hmem
  unfold limiterCall at he
  split at he
  · cases he
    cases hcall
    rfl
  · cases he
    cases hcall
  · cases he

/-- With the default idle duration or a longer one for these parameters, and a clock that does not
go backwards: the connections that are started are those that the bucket of their address has a
token for, each in its turn, whatever else happens to the server and whenever the limiter is cleaned
up. In no time window does one address get more connections than a full bucket and the refill of
that window. As long as the accept handler has not thrown, exactly one accept is outstanding. -/
theorem admitted_connections
    (hlong : limits.maxTokens ≤ limits.refillRate * limits.cleanupAfterIdleDuration)
    {events : List (ContextEvent κ ω)} {log : List (κ × Consume × Bool)}
    (hclock : (events.filterMap limiterCall).Pairwise fun a b => a.now ≤ b.now)
    (hrun : trace (stepAdmitting limits lim) initial events = some (t, log)) :
    (∀ c, (t.server.connections c).started = true ↔
      ∃ entry ∈ log, entry.1 = c ∧ entry.2.2 = true) ∧
    (∀ clientIp, RateLimiter.resultsOf (log.map Prod.snd) clientIp =
        draws limits.maxTokens limits.refillRate none
          (RateLimiter.drawsOf (log.map fun entry => entry.2.1) clientIp) ∧
      ∀ u v, u ≤ v →
        ((log.filter fun entry => entry.2.1.identifier = clientIp ∧ entry.2.2 = true ∧
          u ≤ entry.2.1.now ∧ entry.2.1.now ≤ v).length : ℚ) ≤
            limits.maxTokens + (v - u) * limits.refillRate) ∧
    Accepting t := by
  obtain ⟨hserved, hstarted, haccepting⟩ := admits_of_trace hrun
  have hlog : log.map Prod.snd =
      (RateLimiter.initial.serve limits (events.filterMap limiterCall)).2 :=
    (congrArg Prod.snd hserved).symm
  have hcalls : log.map (fun entry => entry.2.1) =
      CleanupThread.consumesOf (events.filterMap limiterCall) := by
    have hfst : (RateLimiter.initial.serve limits (events.filterMap limiterCall)).2.map Prod.fst =
        CleanupThread.consumesOf (events.filterMap limiterCall) :=
      CleanupThread.map_fst_serve RateLimiter.initial _
    rw [← hfst, ← hlog, List.map_map]
    rfl
  refine ⟨?_, ?_, haccepting (.inl rfl)⟩
  · intro c
    rw [hstarted c]
    exact or_iff_right Bool.false_ne_true
  · intro clientIp
    obtain ⟨hdraws, hwindow⟩ := CleanupThread.serve_buckets hlong hclock clientIp
    rw [hlog, hcalls]
    refine ⟨hdraws, fun u v huv => ?_⟩
    have hbound := hwindow u v huv
    rw [← hlog, RateLimiter.drawnWithin_resultsOf, List.filter_map, List.map_map] at hbound
    have hones : ∀ entry ∈ log.filter fun entry => entry.2.1.identifier = clientIp ∧
        entry.2.2 = true ∧ u ≤ entry.2.1.now ∧ entry.2.1.now ≤ v, entry.2.1.cost = 1 := by
      intro entry hentry
      apply cost_of_mem
      rw [← hcalls]
      exact List.mem_map_of_mem (List.mem_of_mem_filter hentry)
    have hsum : ((log.filter fun entry => entry.2.1.identifier = clientIp ∧ entry.2.2 = true ∧
        u ≤ entry.2.1.now ∧ entry.2.1.now ≤ v).map fun entry => entry.2.1.cost).sum =
          ((log.filter fun entry => entry.2.1.identifier = clientIp ∧ entry.2.2 = true ∧
            u ≤ entry.2.1.now ∧ entry.2.1.now ≤ v).length : ℚ) := by
      rw [List.map_congr_left hones, List.map_const', List.sum_replicate, nsmul_one]
    rw [← hsum]
    exact hbound

/-- A burst of two connections, and a refill of three quarters a second. -/
def quarterTokens : RateLimits := ⟨9 / 4, 3 / 4, 4, by norm_num, by norm_num⟩

/-- The third connection of a burst is refused, one second later another one is let in. -/
def burst : List (ContextEvent ℕ Unit) :=
  [.acceptDone 0 (some (1, some "10.0.0.9")), .acceptDone 0 none,
    .acceptDone 0 (some (2, some "10.0.0.9")), .acceptDone 0 (some (3, some "10.0.0.9")),
    .limiterCleanup (1 / 2), .acceptDone 1 (some (4, some "10.0.0.9"))]

theorem admitted_connections_burst : ∃ t log,
    trace (stepAdmitting quarterTokens ⟨true, true, 65536, 67108864⟩) initial burst =
      some (t, log) ∧
    log.map (fun entry => (entry.1, entry.2.2)) = [(1, true), (2, true), (3, false), (4, true)] ∧
    (∀ c, (t.server.connections c).started = true ↔
      ∃ entry ∈ log, entry.1 = c ∧ entry.2.2 = true) ∧
    Accepting t := by
  have hlong : quarterTokens.maxTokens ≤
      quarterTokens.refillRate * quarterTokens.cleanupAfterIdleDuration := by
    norm_num [quarterTokens]
  have hclock : (burst.filterMap limiterCall).Pairwise fun a b => a.now ≤ b.now := by
    simp only [burst, limiterCall, List.filterMap_cons, List.filterMap_nil, LimiterCall.now]
    norm_num
  have hanswers : (trace (stepAdmitting quarterTokens ⟨true, true, 65536, 67108864⟩) initial
      burst).map (fun r => r.2.map fun entry => (entry.1, entry.2.2)) =
        some [(1, true), (2, true), (3, false), (4, true)] := by
    decide +kernel
  obtain ⟨⟨t, log⟩, hrun, hlog⟩ := Option.map_eq_some_iff.mp hanswers
  obtain ⟨hstarted, -, haccepting⟩ := admitted_connections hlong hclock hrun
  exact ⟨t, log, hrun, hlog, hstarted, haccepting⟩

end ContextThread
end ServerSimple.Network
