import ServerSimple.Network.ConnectionEvents

/-! # How a connection ends

The write handler closes the socket after a response without keep-alive and after an error, and leaves
the flag `writing` set: handlers that come later only buffer their responses. A refused request ends
the reading, so that it is the last one; the connection is closed once its response is written.
-/

namespace ServerSimple.Network

open Library ThreadSafe HttpConnection

namespace HttpConnection

variable {κ ω : Type*} {c : κ} {a : ServerAction κ ω} {conn conn' : HttpConnection}

/-! ## The write side -/

/-- The flag is set although nothing is being written. -/
structure Stopped (conn : HttpConnection) (responses : List HttpResponse) : Prop where
  writing : conn.writing = true
  writes : conn.writes = []
  written : conn.written = responses

theorem Stopped.event {responses : List HttpResponse} (h : conn.Stopped responses)
    (hevent : Event c a conn conn') : conn'.Stopped responses := by
  cases hevent with
  | none => exact h
  | started _ _ => exact ⟨h.writing, h.writes, h.written⟩
  | ended _ _ _ => exact ⟨h.writing, h.writes, h.written⟩
  | refused _ _ _ _ => exact ⟨h.writing, h.writes, h.written⟩
  | queued _ _ _ _ => exact ⟨h.writing, h.writes, h.written⟩
  | finished _ _ _ _ _ _ => exact ⟨h.writing, h.writes, h.written⟩
  | delivered i handler _ _ =>
    rw [deliver_of_writing h.writing]
    exact ⟨h.writing, h.writes, h.written⟩
  | wrote i response ok _ hi => simp [h.writes] at hi

/-- An error, or a response without keep-alive, stops the pump. -/
theorem Pump.stopped_writeHandler (h : Pump conn) {i : ℕ} {response : HttpResponse} {ok : Bool}
    (hi : conn.writes[i]? = some response) (hlast : ok = false ∨ response.keepAlive = false) :
    ((conn.takeWrite i).writeHandler response ok).Stopped conn.written := by
  cases h with
  | rest _ hwrites => simp [hwrites] at hi
  | finished _ hwrites => simp [hwrites] at hi
  | busy r hwriting hwrites _ _ =>
    have hnone : conn.writes.eraseIdx i = [] := by
      have hlt := (List.getElem?_eq_some_iff.mp hi).1
      rw [hwrites, List.length_singleton] at hlt
      rw [hwrites, Nat.lt_one_iff.mp hlt]
      rfl
    unfold writeHandler
    cases hlast with
    | inl hok =>
      rw [hok, if_neg Bool.false_ne_true]
      exact ⟨hwriting, hnone, rfl⟩
    | inr hkeep =>
      simp only [hkeep, Bool.false_eq_true, if_false]
      split_ifs
      · exact ⟨hwriting, hnone, rfl⟩
      · exact ⟨hwriting, hnone, rfl⟩

/-! ## The read side -/

/-- The fields that belong to reading. -/
def readSide (conn : HttpConnection) : Bool × ℕ × ℕ := (conn.started, conn.reads, conn.nextSequenceId)

theorem readSide_deliver (conn : HttpConnection) (handler : Posted) :
    (conn.deliver handler).readSide = conn.readSide := by
  obtain ⟨_, _, _, hdeliver⟩ := deliver_frame conn handler
  rw [hdeliver]
  rfl

theorem readSide_writeHandler (conn : HttpConnection) (response : HttpResponse) (ok : Bool) :
    (conn.writeHandler response ok).readSide = conn.readSide := by
  obtain ⟨_, _, _, _, _, _, _, hhandler⟩ := writeHandler_frame conn response ok
  rw [hhandler]
  rfl

/-- At most one read is outstanding, and none before the start. -/
def Reading (conn : HttpConnection) : Prop :=
  conn.reads ≤ 1 ∧ (conn.started = false → conn.reads = 0)

theorem Reading.congr (h : Reading conn) (hside : conn'.readSide = conn.readSide) :
    Reading conn' := by
  simp only [readSide, Prod.mk.injEq] at hside
  unfold Reading
  rwa [hside.1, hside.2.1]

theorem Reading.event (h : Reading conn) (hevent : Event c a conn conn') : Reading conn' := by
  cases hevent with
  | none => exact h
  | started _ hstarted =>
    refine ⟨?_, nofun⟩
    simp [start, read, h.2 hstarted]
  | ended _ _ hreads => exact ⟨(Nat.sub_le _ _).trans h.1, fun hs => by simp [h.2 hs] at hreads⟩
  | refused _ _ _ hreads => exact ⟨(Nat.sub_le _ _).trans h.1, fun hs => by simp [h.2 hs] at hreads⟩
  | queued _ _ _ hreads =>
    refine ⟨?_, fun hs => by simp [h.2 hs] at hreads⟩
    have hone := h.1
    simp only [read, arrive, takeRead]
    omega
  | finished _ _ _ _ _ _ => exact h
  | delivered i handler _ _ => exact h.congr (readSide_deliver _ _)
  | wrote i response ok _ _ => exact h.congr (readSide_writeHandler _ _ _)

/-- An outstanding read is the only one, on a connection that was started. -/
theorem Reading.of_reads_pos (h : Reading conn) (hreads : 0 < conn.reads) :
    conn.started = true ∧ conn.reads - 1 = 0 := by
  constructor
  · by_contra hnot
    rw [Bool.not_eq_true] at hnot
    have hzero := h.2 hnot
    omega
  · have hone := h.1
    omega

/-- The reading has ended after this many requests. -/
def ReadEnded (conn : HttpConnection) (count : ℕ) : Prop := conn.readSide = (true, 0, count)

theorem ReadEnded.reads {count : ℕ} (h : conn.ReadEnded count) : conn.reads = 0 :=
  (Prod.mk.inj (Prod.mk.inj h).2).1

theorem ReadEnded.event {count : ℕ} (h : conn.ReadEnded count) (hevent : Event c a conn conn') :
    conn'.ReadEnded count := by
  have hreads := h.reads
  have hstarted : conn.started = true := (Prod.mk.inj h).1
  cases hevent with
  | none => exact h
  | started _ hnot => simp [hstarted] at hnot
  | ended _ _ hpos => omega
  | refused _ _ _ hpos => omega
  | queued _ _ _ hpos => omega
  | finished _ _ _ _ _ _ => exact h
  | delivered i handler _ _ => exact (readSide_deliver _ _).trans h
  | wrote i response ok _ _ => exact (readSide_writeHandler _ _ _).trans h

/-- The request with this id was refused, and is the last one. -/
structure RefusedLast (conn : HttpConnection) (sequenceId version : ℕ) : Prop where
  /-- No larger id was ever issued. -/
  largest : conn.nextSequenceId = sequenceId + 1
  noRead : conn.reads = 0
  /-- If its response was written, it is the last one, after those of all requests before it. -/
  last : sequenceId < conn.written.length → conn.written.length = sequenceId + 1 ∧
    conn.written[sequenceId]? = some (overloadedResponse version) ∧
    conn.written.map some = conn.arrivals.map Arrival.answer

theorem Ordered.refusedLast {pending : ℕ → ℕ} (h : Ordered conn pending) {sequenceId version : ℕ}
    (hended : conn.ReadEnded (sequenceId + 1))
    (hanswer : conn.answer sequenceId = some (overloadedResponse version)) :
    conn.RefusedLast sequenceId version := by
  have hlargest : conn.nextSequenceId = sequenceId + 1 := (Prod.mk.inj (Prod.mk.inj hended).2).2
  refine ⟨hlargest, hended.reads, ?_⟩
  intro hlt
  have hwritten := h.written_eq
  have hlength := congrArg List.length hwritten
  have hcounted := h.counted
  simp only [List.length_map, List.length_take] at hlength
  have hall : conn.written.length = conn.arrivals.length := by omega
  refine ⟨by omega, ?_, ?_⟩
  · have hget := List.getElem?_eq_getElem hlt
    rw [hget, ← hanswer, h.writtenAnswer sequenceId _ hget]
  · rw [hwritten, hall, List.take_length]

end HttpConnection

namespace RequestServer

variable {κ ω : Type*} [DecidableEq κ] [Fintype ω] [DecidableEq ω] {s s' : RequestServer κ ω}
  {lim : Limits}

/-- The queue refuses the request that a read on the connection has delivered. -/
def Refuses (s : RequestServer κ ω) (lim : Limits) (c : κ) (request : HttpRequest)
    (endpoint : Option String) : Prop :=
  ∃ clientIp, (s.connections c).takeRead.getClientIp endpoint = .ok clientIp ∧
    (s.requestQueue.tryPushBack lim ⟨c, request, clientIp, (s.connections c).nextSequenceId,
      (s.connections c).arrivals.length⟩).1 = false

omit [Fintype ω] in
theorem Refuses.connections_eq {c : κ} {request : HttpRequest} {endpoint : Option String}
    (h : s.Refuses lim c request endpoint)
    (hstep : s.step lim (.readDone c (some request) endpoint) = some s') :
    0 < (s.connections c).reads ∧ s'.connections c =
      rejectOverloaded
        ((s.connections c).takeRead.arrive request (some (overloadedResponse request.version)))
        (s.connections c).nextSequenceId request.version := by
  obtain ⟨clientIp, hip, hpush⟩ := h
  simp only [step] at hstep
  split_ifs at hstep with hread
  refine ⟨hread.2, ?_⟩
  simp only [HttpConnection.readHandler, hip] at hstep
  cases hresult : s.requestQueue.tryPushBack lim ⟨c, request, clientIp,
      (s.connections c).nextSequenceId, (s.connections c).arrivals.length⟩ with
  | mk pushed queue =>
    rw [hresult] at hpush
    cases hpush
    have hresult' : s.requestQueue.tryPushBack lim ⟨c, request, clientIp,
      (s.connections c).takeRead.nextSequenceId, (s.connections c).takeRead.arrivals.length⟩ =
        (false, queue) := hresult
    rw [hresult'] at hstep
    cases hstep
    exact setConnection_self ..

/-- After the reading has ended, no read completes any more. -/
theorem Inv.run_readEnded (h : Inv s) {c : κ} {count : ℕ}
    (hended : (s.connections c).ReadEnded count) {later : List (ServerAction κ ω)}
    (hrun : Library.run (step lim) s later = some s') :
    (s'.connections c).ReadEnded count ∧ ∀ a ∈ later, ∀ result endpoint, a ≠ .readDone c result endpoint := by
  induction later generalizing s with
  | nil =>
    rw [run_nil, Option.some.injEq] at hrun
    exact ⟨hrun ▸ hended, nofun⟩
  | cons a later ih =>
    obtain ⟨t, hstep, hrest⟩ := run_cons_eq_some.mp hrun
    obtain ⟨hlast, hlater⟩ := ih (inv_step h lim hstep) (hended.event (h.event hstep c)) hrest
    refine ⟨hlast, ?_⟩
    intro b hb result endpoint heq
    rcases List.mem_cons.mp hb with rfl | hb
    · subst heq
      simp [step, hended.reads] at hstep
    · exact hlater b hb result endpoint heq

/-- Once a response without keep-alive has been written or a write has failed, no write is started on
that connection any more. A request that the queue refuses is the last one: no read is started or
completes after it, and its response is written after all others and before none. -/
theorem closing_discipline (lim : Limits) (actions : List (ServerAction κ ω))
    (hrun : Library.run (step lim) initial actions = some s) (c : κ) :
    (∀ i response ok s₁ later s₂, (s.connections c).writes[i]? = some response →
      (ok = false ∨ response.keepAlive = false) → s.step lim (.writeDone c i ok) = some s₁ →
      Library.run (step lim) s₁ later = some s₂ →
      (s₂.connections c).written = (s.connections c).written) ∧
    (∀ request endpoint s₁ later s₂, s.Refuses lim c request endpoint →
      s.step lim (.readDone c (some request) endpoint) = some s₁ →
      Library.run (step lim) s₁ later = some s₂ →
      (s₂.connections c).RefusedLast (s.connections c).nextSequenceId request.version ∧
        ∀ a ∈ later, ∀ result endpoint, a ≠ .readDone c result endpoint) := by
  have hinv := inv_run lim hrun
  constructor
  · intro i response ok s₁ later s₂ hi hlast hstep hlater
    have hinv₁ := inv_step hinv lim hstep
    have hstopped : (s₁.connections c).Stopped (s.connections c).written := by
      simp only [step, hi] at hstep
      split at hstep
      case _ hresponse =>
        cases hstep
        cases hresponse
        rw [setConnection_self]
        exact (hinv.pump c).stopped_writeHandler hi hlast
      case _ => cases hstep
    exact (hinv₁.run_event (fun _ _ _ => Stopped.event) hstopped hlater).written
  · intro request endpoint s₁ later s₂ hrefuses hstep hlater
    have hinv₁ := inv_step hinv lim hstep
    have hreading : (s.connections c).Reading :=
      inv_initial.run_event (fun _ _ _ => Reading.event) ⟨Nat.zero_le 1, fun _ => rfl⟩ hrun
    obtain ⟨hreads, hconn⟩ := hrefuses.connections_eq hstep
    have hended : (s₁.connections c).ReadEnded ((s.connections c).nextSequenceId + 1) := by
      obtain ⟨hstarted, hnone⟩ := hreading.of_reads_pos hreads
      rw [hconn]
      exact Prod.ext hstarted (Prod.ext hnone rfl)
    have hanswer : (s₁.connections c).answer (s.connections c).nextSequenceId =
        some (overloadedResponse request.version) := by
      rw [hconn, (hinv.ordered c).counted]
      exact answer_arrive_self ..
    obtain ⟨hended₂, hreads₂⟩ := hinv₁.run_readEnded hended hlater
    have hanswer₂ := hinv₁.run_event (fun _ _ _ hanswer hevent => hevent.answer hanswer) hanswer hlater
    exact ⟨((hinv₁.run hlater).ordered c).refusedLast hended₂ hanswer₂, hreads₂⟩

/-- A request is queued, and fills a queue of length one. -/
def oneQueued : List (ServerAction Unit Unit) :=
  [.accept (), .readDone () (some ⟨11, "/a", ""⟩) (some "::1")]

/-- The refusal runs first, but its response is written after that of the queued request. -/
def refusedThenWritten : List (ServerAction Unit Unit) :=
  [.runPosted () 0, .pop (), .finish () ⟨11, 200, "", "a", true⟩, .runPosted () 0,
    .writeDone () 0 true]

/-- All of it, up to the completion of the last write. -/
def lastWriteStarted : List (ServerAction Unit Unit) :=
  oneQueued ++ [.readDone () (some ⟨11, "/b", ""⟩) (some "::1")] ++ refusedThenWritten

theorem closing_discipline_refused :
    (∃ s s₁ s₂ : RequestServer Unit Unit,
      Library.run (step ⟨true, false, 1, 0⟩) initial oneQueued = some s ∧
      s.step ⟨true, false, 1, 0⟩ (.readDone () (some ⟨11, "/b", ""⟩) (some "::1")) = some s₁ ∧
      Library.run (step ⟨true, false, 1, 0⟩) s₁ refusedThenWritten = some s₂ ∧
      (s₂.connections ()).written.map HttpResponse.result = [200, 503] ∧
      (s₂.connections ()).RefusedLast 1 11) ∧
    ∃ s s₁ : RequestServer Unit Unit,
      Library.run (step ⟨true, false, 1, 0⟩) initial lastWriteStarted = some s ∧
      s.step ⟨true, false, 1, 0⟩ (.writeDone () 0 true) = some s₁ ∧
      (s₁.connections ()).written = (s.connections ()).written := by
  constructor
  · refine ⟨_, _, _, rfl, rfl, rfl, rfl, ?_⟩
    exact ((closing_discipline ⟨true, false, 1, 0⟩ oneQueued rfl ()).2 ⟨11, "/b", ""⟩ (some "::1") _
      refusedThenWritten _ ⟨"::1", rfl, rfl⟩ rfl rfl).1
  · refine ⟨_, _, rfl, rfl, ?_⟩
    exact (closing_discipline ⟨true, false, 1, 0⟩ lastWriteStarted rfl ()).1 0 (overloadedResponse 11)
      true _ [] _ rfl (.inr rfl) rfl rfl

end RequestServer
end ServerSimple.Network
