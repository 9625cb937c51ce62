import ServerSimple.Library.Traces
import ServerSimple.Network.ConnectionClosing
import ServerSimple.Network.ResponseProgress

/-! # The server that one client sees

Where `process_client_request` is a function of the client's address and the request, the pool of
workers cannot be seen from outside: a client gets the answers of a server that takes its requests
one after another. Other clients and the timing show only in how far the answers have come and in
whether the last request was refused.
-/

namespace ServerSimple.Network

open Library ThreadSafe HttpConnection

/-- A request as it was read, and whether the queue took it. -/
structure ReadRequest where
  clientIp : String
  request : HttpRequest
  accepted : Bool
  deriving DecidableEq

/-- The response due to the request, with this function as `process_client_request`. -/
def ReadRequest.response (process : String → HttpRequest → HttpResponse) (entry : ReadRequest) :
    HttpResponse :=
  if entry.accepted then process entry.clientIp entry.request
  else overloadedResponse entry.request.version

namespace HttpConnection

variable {κ ω : Type*} {c : κ} {a : ServerAction κ ω} {conn conn' : HttpConnection}

/-! ## Only the last response can end the connection -/

/-- Every response but the last has kept the connection alive, and the last one too unless the flag
is still set. -/
structure KeptAlive (conn : HttpConnection) : Prop where
  before : ∀ r ∈ conn.written.dropLast, r.keepAlive = true
  resting : conn.writing = false → ∀ r ∈ conn.written, r.keepAlive = true
  current : ∀ r ∈ conn.writes, conn.written.getLast? = some r

theorem keptAlive_initial : KeptAlive initial := ⟨nofun, fun _ => nofun, nofun⟩

theorem KeptAlive.congr (h : conn.KeptAlive) (hwriting : conn'.writing = conn.writing)
    (hwrites : conn'.writes = conn.writes) (hwritten : conn'.written = conn.written) :
    conn'.KeptAlive := by
  refine ⟨?_, ?_, ?_⟩
  · rw [hwritten]
    exact h.before
  · rw [hwriting, hwritten]
    exact h.resting
  · rw [hwrites, hwritten]
    exact h.current

/-- A write that follows on responses which all kept the connection alive. -/
theorem keptAlive_write (hwrites : conn.writes = [])
    (hkept : ∀ r ∈ conn.written, r.keepAlive = true) : conn.write.KeptAlive := by
  rcases write_cases conn with ⟨-, hw⟩ | ⟨r, -, hw⟩
  · rw [hw]
    refine ⟨fun r hr => hkept r (List.mem_of_mem_dropLast hr), fun _ => hkept, ?_⟩
    simp [hwrites]
  · rw [hw]
    refine ⟨?_, fun h => absurd h.symm Bool.false_ne_true, ?_⟩
    · simpa using hkept
    · simp [hwrites]

theorem KeptAlive.event (h : conn.KeptAlive) (hpump : Pump conn) (hevent : Event c a conn conn') :
    conn'.KeptAlive := by
  cases hevent with
  | none => exact h
  | started _ _ => exact h.congr rfl rfl rfl
  | ended _ _ _ => exact h.congr rfl rfl rfl
  | refused _ _ _ _ => exact h.congr rfl rfl rfl
  | queued _ _ _ _ => exact h.congr rfl rfl rfl
  | finished _ _ _ _ _ _ => exact h.congr rfl rfl rfl
  | delivered i handler _ _ =>
    cases hpump with
    | rest hwriting hwrites _ _ =>
      rw [deliver_of_not_writing hwriting]
      exact keptAlive_write hwrites (h.resting hwriting)
    | busy r hwriting _ _ _ =>
      rw [deliver_of_writing hwriting]
      exact h.congr rfl rfl rfl
    | finished hwriting _ _ =>
      rw [deliver_of_writing hwriting]
      exact h.congr rfl rfl rfl
  | wrote i response ok _ hi =>
    cases hpump with
    | rest _ hwrites => simp [hwrites] at hi
    | finished _ hwrites => simp [hwrites] at hi
    | busy r hwriting hwrites _ _ =>
      obtain ⟨rfl, rfl⟩ : i = 0 ∧ r = response := by
        rw [hwrites, List.getElem?_singleton] at hi
        split_ifs at hi with hzero
        exact ⟨hzero, Option.some.inj hi⟩
      have hlast : conn.written.getLast? = some r := h.current r (by simp [hwrites])
      have hclosed : ∀ conn' : HttpConnection, conn'.writing = true → conn'.writes = [] →
          conn'.written = conn.written → conn'.KeptAlive := by
        intro conn' hwriting' hwrites' hwritten'
        refine ⟨hwritten' ▸ h.before, fun hnot => ?_, by simp [hwrites']⟩
        rw [hwriting'] at hnot
        cases hnot
      unfold writeHandler
      split_ifs with hok hkeep
      · apply keptAlive_write
        · simp [takeWrite, hwrites]
        · intro r' hr'
          obtain ⟨front, hsplit⟩ := List.getLast?_eq_some_iff.mp hlast
          have hfront := h.before
          change r' ∈ conn.written at hr'
          rw [hsplit, List.dropLast_concat] at hfront
          rw [hsplit, List.mem_append, List.mem_singleton] at hr'
          rcases hr' with hold | rfl
          · exact hfront r' hold
          · exact hkeep
      · exact hclosed _ hwriting (by simp [takeWrite, close, hwrites]) rfl
      · exact hclosed _ hwriting (by simp [takeWrite, close, hwrites]) rfl

theorem map_request_answered (conn : HttpConnection) (k : ℕ) (r : HttpResponse) :
    (conn.answered k r).arrivals.map Arrival.request = conn.arrivals.map Arrival.request := by
  apply List.ext_getElem?
  intro i
  simp only [answered, List.getElem?_map, List.getElem?_modify]
  cases conn.arrivals[i]? with
  | none => rfl
  | some a => split_ifs <;> rfl

/-- Only the requests that are read on the connection, and their answers, are recorded. -/
theorem Event.arrivals_eq (hevent : Event c a conn conn')
    (hread : ∀ request endpoint, a ≠ .readDone c (some request) endpoint)
    (hfinish : ∀ w response, a ≠ .finish w response) : conn'.arrivals = conn.arrivals := by
  cases hevent with
  | none => rfl
  | started _ _ => rfl
  | ended _ _ _ => rfl
  | refused request endpoint ha _ => exact absurd ha (hread request endpoint)
  | queued request endpoint ha _ => exact absurd ha (hread request endpoint)
  | finished w _ response _ ha _ => exact absurd ha (hfinish w response)
  | delivered i handler _ _ => exact deliver_arrivals _ _
  | wrote i response ok _ _ => exact writeHandler_arrivals _ _ _

end HttpConnection

namespace RequestServer

variable {κ ω : Type*} [DecidableEq κ] (lim : Limits) (c : κ)

/-- What a read on the connection delivers. -/
def readOn (s : RequestServer κ ω) : ServerAction κ ω → List ReadRequest
  | .readDone d (some request) (some clientIp) =>
    if d = c then [⟨clientIp, request, (s.requestQueue.tryPushBack lim ⟨c, request, clientIp,
      (s.connections c).nextSequenceId, (s.connections c).arrivals.length⟩).1⟩]
    else []
  | _ => []

/-- A worker answers as `process_client_request` tells it to. -/
def AnswersWith (process : String → HttpRequest → HttpResponse) (s : RequestServer κ ω) :
    ServerAction κ ω → Prop
  | .finish w response => ∀ task ∈ s.workers w, response = process task.clientIp task.request
  | _ => True

instance (process : String → HttpRequest → HttpResponse) (s : RequestServer κ ω) :
    (a : ServerAction κ ω) → Decidable (AnswersWith process s a)
  | .finish _ _ => inferInstanceAs (Decidable (∀ _ ∈ _, _))
  | .accept _ | .readDone _ _ _ | .pop _ | .runPosted _ _ | .writeDone _ _ _ | .stopContext
  | .stopQueue => inferInstanceAs (Decidable True)

variable {lim c} [DecidableEq ω] {s s' : RequestServer κ ω}

/-! ## What a read does -/

/-- A request that is read is queued or refused, as the queue says. -/
theorem readDone_cases {d : κ} {request : HttpRequest} {endpoint : Option String}
    (hstep : s.step lim (.readDone d (some request) endpoint) = some s') :
    ∃ clientIp task, endpoint = some clientIp ∧
      task = (⟨d, request, clientIp, (s.connections d).nextSequenceId,
        (s.connections d).arrivals.length⟩ : RequestTask κ) ∧
      0 < (s.connections d).reads ∧ s'.workers = s.workers ∧
      (((s.requestQueue.tryPushBack lim task).1 = false ∧
        s'.requestQueue.dequeue = s.requestQueue.dequeue ∧
        s'.connections = Function.update s.connections d (rejectOverloaded
          ((s.connections d).takeRead.arrive request (some (overloadedResponse request.version)))
          (s.connections d).nextSequenceId request.version)) ∨
      ((s.requestQueue.tryPushBack lim task).1 = true ∧
        s'.requestQueue.dequeue = s.requestQueue.dequeue ++ [task] ∧
        s'.connections = Function.update s.connections d
          ((s.connections d).takeRead.arrive request none).read)) := by
  simp only [step, Option.ite_none_right_eq_some] at hstep
  obtain ⟨⟨-, hreads⟩, hstep⟩ := hstep
  cases hip : (s.connections d).takeRead.getClientIp endpoint with
  | error what => simp [readHandler, hip] at hstep
  | ok clientIp =>
    have hendpoint : endpoint = some clientIp := by
      simp only [getClientIp] at hip
      split_ifs at hip
      cases endpoint with
      | none => cases hip
      | some ip =>
        cases hip
        rfl
    simp only [readHandler, hip] at hstep
    rcases ThreadSafeQueue.tryPush_cases lim s.requestQueue ThreadSafeQueue.atBack
      (⟨d, request, clientIp, (s.connections d).nextSequenceId,
        (s.connections d).arrivals.length⟩ : RequestTask κ) with hpush | ⟨-, hpush⟩
    · simp only [ThreadSafeQueue.tryPushBack, takeRead, hpush, Option.some.injEq] at hstep
      rw [← hstep]
      exact ⟨clientIp, _, hendpoint, rfl, hreads, rfl, .inl ⟨congrArg Prod.fst hpush, rfl, rfl⟩⟩
    · simp only [ThreadSafeQueue.tryPushBack, takeRead, hpush, Option.some.injEq] at hstep
      rw [← hstep]
      exact ⟨clientIp, _, hendpoint, rfl, hreads, rfl, .inr ⟨congrArg Prod.fst hpush, rfl, rfl⟩⟩

/-- Only a read on its own connection brings a task into flight. -/
theorem inFlight_of_step {a : ServerAction κ ω} (hstep : s.step lim a = some s')
    {task : RequestTask κ} (h : s'.InFlight task) :
    s.InFlight task ∨ ∃ request endpoint, a = .readDone task.connection (some request) endpoint := by
  cases a with
  | accept d =>
    simp only [step, Option.ite_none_right_eq_some, Option.some.injEq] at hstep
    obtain ⟨-, rfl⟩ := hstep
    exact .inl h
  | readDone d result endpoint =>
    cases result with
    | none =>
      simp only [step, Option.ite_none_right_eq_some] at hstep
      cases hstep.2
      exact .inl h
    | some request =>
      obtain ⟨clientIp, read, -, rfl, -, hworkers, ⟨-, hqueue, -⟩ | ⟨-, hqueue, -⟩⟩ :=
        readDone_cases hstep
      · rw [InFlight, hqueue, hworkers] at h
        exact .inl h
      · rw [InFlight, hqueue, hworkers, List.mem_append, List.mem_singleton] at h
        rcases h with (hold | rfl) | hheld
        · exact .inl (.inl hold)
        · exact .inr ⟨request, endpoint, rfl⟩
        · exact .inl (.inr hheld)
  | pop w =>
    simp only [step] at hstep
    split at hstep
    · rename_i item hw hpop
      cases hstep
      refine .inl ?_
      rcases s.requestQueue.waitAndPop_cases lim with ⟨_, _, hq⟩ | ⟨_, _, hq⟩ | ⟨first, rest, hd, hq⟩
      · simp [hq] at hpop
      · simp [hq] at hpop
      · simp only [hq, Result.item.injEq] at hpop
        subst hpop
        rcases h with hqueue | ⟨v, hv⟩
        · simp only [hq] at hqueue
          exact .inl (hd ▸ List.mem_cons_of_mem first hqueue)
        · rcases eq_or_eq_of_update hv with hnew | hold
          · cases hnew
            exact .inl (hd ▸ List.mem_cons_self)
          · exact .inr ⟨v, hold⟩
    · cases hstep
  | finish w response =>
    simp only [step] at hstep
    split at hstep
    · cases hstep
    · cases hstep
      rcases h with hqueue | ⟨v, hv⟩
      · exact .inl (.inl hqueue)
      · rcases eq_or_eq_of_update hv with hnew | hold
        · cases hnew
        · exact .inl (.inr ⟨v, hold⟩)
  | runPosted d i =>
    simp only [step] at hstep
    split at hstep
    · cases hstep
      exact .inl h
    · cases hstep
  | writeDone d i ok =>
    simp only [step] at hstep
    split at hstep
    · cases hstep
      exact .inl h
    · cases hstep
  | stopContext =>
    cases hstep
    exact .inl h
  | stopQueue =>
    simp only [step, ThreadSafeQueue.stop_eq, Option.ite_none_right_eq_some,
      Option.some.injEq] at hstep
    obtain ⟨-, rfl⟩ := hstep
    exact .inl h

/-! ## One client -/

variable [Fintype ω] {process : String → HttpRequest → HttpResponse} {log : List ReadRequest}

/-- What holds between the requests that were read on a connection and the server. -/
structure InTurn (process : String → HttpRequest → HttpResponse) (c : κ) (log : List ReadRequest)
    (s : RequestServer κ ω) : Prop where
  inv : Inv s
  reading : (s.connections c).Reading
  keptAlive : (s.connections c).KeptAlive
  requests : (s.connections c).arrivals.map Arrival.request = log.map ReadRequest.request
  tasks : ∀ task, s.InFlight task → task.connection = c →
    log[task.arrival]? = some ⟨task.clientIp, task.request, true⟩
  answers : ∀ k r, (s.connections c).answer k = some r → ∀ entry, log[k]? = some entry →
    r = entry.response process
  /-- A refusal ends the reading. -/
  last : (∀ entry ∈ log, entry.accepted = true) ∨
    (∀ entry ∈ log.dropLast, entry.accepted = true) ∧ ∃ count, (s.connections c).ReadEnded count

omit [DecidableEq ω] in
theorem inTurn_initial : InTurn process c [] (initial : RequestServer κ ω) where
  inv := inv_initial
  reading := ⟨Nat.zero_le 1, fun _ => rfl⟩
  keptAlive := keptAlive_initial
  requests := rfl
  tasks task h := by simp [InFlight, initial, ThreadSafeQueue.empty] at h
  answers k r h := by simp [initial, HttpConnection.initial, HttpConnection.answer] at h
  last := .inl nofun

omit [DecidableEq ω] in
theorem InTurn.length_eq (h : InTurn process c log s) :
    (s.connections c).arrivals.length = log.length := by
  simpa using congrArg List.length h.requests

/-- A step that neither delivers a request on the connection nor answers one. -/
theorem InTurn.quiet (h : InTurn process c log s) {a : ServerAction κ ω}
    (hread : ∀ request endpoint, a ≠ .readDone c (some request) endpoint)
    (hfinish : ∀ w response, a ≠ .finish w response) (hstep : s.step lim a = some s') :
    InTurn process c log s' := by
  have hevent := h.inv.event hstep c
  have hsame := hevent.arrivals_eq hread hfinish
  refine ⟨inv_step h.inv lim hstep, h.reading.event hevent,
    h.keptAlive.event (h.inv.pump c) hevent, ?_, ?_, ?_, ?_⟩
  · rw [hsame]
    exact h.requests
  · rintro task htask rfl
    rcases inFlight_of_step hstep htask with hold | ⟨request, endpoint, ha⟩
    · exact h.tasks task hold rfl
    · exact absurd ha (hread request endpoint)
  · intro k r hr
    rw [HttpConnection.answer, hsame] at hr
    exact h.answers k r hr
  · rcases h.last with hall | ⟨hbefore, count, hended⟩
    · exact .inl hall
    · exact .inr ⟨hbefore, count, hended.event hevent⟩

omit [Fintype ω] in
/-- A worker that answers changes the connection of its task only. -/
theorem finish_cases {w : ω} {response : HttpResponse}
    (hstep : s.step lim (.finish w response) = some s') :
    ∃ task, s.workers w = some task ∧
      s'.connections = Function.update s.connections task.connection
        (((s.connections task.connection).answered task.arrival response).sendResponse response
          task.sequenceId) := by
  cases hw : s.workers w with
  | none => simp [step, hw] at hstep
  | some task =>
    simp only [step, hw, Option.some.injEq] at hstep
    rw [← hstep]
    exact ⟨task, rfl, rfl⟩

/-- The request that a worker answers was read with the address that its task carries. -/
theorem InTurn.finish (h : InTurn process c log s) {w : ω} {response : HttpResponse}
    (hanswers : AnswersWith process s (.finish w response))
    (hstep : s.step lim (.finish w response) = some s') : InTurn process c log s' := by
  have hevent := h.inv.event hstep c
  obtain ⟨task, hw, hconn⟩ := finish_cases hstep
  have hflight : s.InFlight task := .inr ⟨w, hw⟩
  refine ⟨inv_step h.inv lim hstep, h.reading.event hevent,
    h.keptAlive.event (h.inv.pump c) hevent, ?_, ?_, ?_, ?_⟩
  · rw [hconn, ← h.requests]
    by_cases hc : c = task.connection
    · rw [hc, Function.update_self]
      exact map_request_answered _ _ _
    · rw [Function.update_of_ne hc]
  · intro other hother hc
    rcases inFlight_of_step hstep hother with hold | ⟨request, endpoint, ha⟩
    · exact h.tasks other hold hc
    · cases ha
  · intro k r hr entry hentry
    by_cases hc : task.connection = c
    · subst hc
      rw [hconn, Function.update_self] at hr
      change HttpConnection.answer (answered _ _ _) k = some r at hr
      by_cases hk : k = task.arrival
      · subst hk
        have hlt : task.arrival < (s.connections task.connection).arrivals.length := by
          simpa [answered] using answer_lt hr
        rw [answer_answered_self response hlt, Option.some.injEq] at hr
        rw [h.tasks task hflight rfl, Option.some.injEq] at hentry
        rw [← hr, ← hentry]
        exact hanswers task hw
      · rw [answer_answered_of_ne response hk] at hr
        exact h.answers k r hr entry hentry
    · rw [hconn, Function.update_of_ne (Ne.symm hc)] at hr
      exact h.answers k r hr entry hentry
  · rcases h.last with hall | ⟨hbefore, count, hended⟩
    · exact .inl hall
    · exact .inr ⟨hbefore, count, hended.event hevent⟩

omit [Fintype ω] in
/-- The request is the last one of its connection then; it is in flight if it was queued, and answered
if it was refused, which ends the reading. -/
theorem recorded_of_read {request : HttpRequest} {endpoint : Option String}
    (hreading : (s.connections c).Reading)
    (hstep : s.step lim (.readDone c (some request) endpoint) = some s') :
    ∃ entry : ReadRequest, entry.request = request ∧
      s.readOn lim c (.readDone c (some request) endpoint : ServerAction κ ω) = [entry] ∧
      0 < (s.connections c).reads ∧
      (s'.connections c).arrivals = (s.connections c).arrivals ++
        [⟨request, if entry.accepted then none else some (overloadedResponse request.version)⟩] ∧
      (∀ task, s'.InFlight task → s.InFlight task ∨ entry = ⟨task.clientIp, task.request, true⟩ ∧
        task.arrival = (s.connections c).arrivals.length) ∧
      (entry.accepted = false → ∃ count, (s'.connections c).ReadEnded count) := by
  obtain ⟨clientIp, read, rfl, hread, hreads, hworkers, hqueued⟩ := readDone_cases hstep
  have hshown : s.readOn lim c (.readDone c (some request) (some clientIp) : ServerAction κ ω) =
      [⟨clientIp, request, (s.requestQueue.tryPushBack lim read).1⟩] := by
    rw [hread]
    exact if_pos rfl
  refine ⟨_, rfl, hshown, hreads, ?_⟩
  rcases hqueued with ⟨hpush, hqueue, hconn⟩ | ⟨hpush, hqueue, hconn⟩
  · rw [hpush, hconn, Function.update_self]
    refine ⟨rfl, fun task htask => .inl ?_, fun _ => ?_⟩
    · rwa [InFlight, hqueue, hworkers] at htask
    · obtain ⟨hstarted, hnone⟩ := hreading.of_reads_pos hreads
      exact ⟨_, Prod.ext hstarted (Prod.ext hnone rfl)⟩
  · rw [hpush, hconn, Function.update_self]
    refine ⟨rfl, fun task htask => ?_, fun hnot => absurd hnot.symm Bool.false_ne_true⟩
    rw [InFlight, hqueue, hworkers, List.mem_append, List.mem_singleton] at htask
    rcases htask with (hold | rfl) | hheld
    · exact .inl (.inl hold)
    · exact .inr ⟨by rw [hread], by rw [hread]⟩
    · exact .inl (.inr hheld)

/-- A request that is read comes last, and none was refused before it. -/
theorem InTurn.read (h : InTurn process c log s) {request : HttpRequest}
    {endpoint : Option String}
    (hstep : s.step lim (.readDone c (some request) endpoint) = some s') :
    InTurn process c (log ++ s.readOn lim c (.readDone c (some request) endpoint : ServerAction κ ω))
      s' := by
  have hevent := h.inv.event hstep c
  obtain ⟨entry, hrequest, hshown, hreads, harrivals, hflight, hended⟩ :=
    recorded_of_read h.reading hstep
  have hall : ∀ entry ∈ log, entry.accepted = true := by
    rcases h.last with hall | ⟨-, count, hended⟩
    · exact hall
    · have hnone := hended.reads
      omega
  rw [hshown]
  refine ⟨inv_step h.inv lim hstep, h.reading.event hevent,
    h.keptAlive.event (h.inv.pump c) hevent, ?_, ?_, ?_, ?_⟩
  · rw [harrivals, List.map_append, List.map_append, h.requests, List.map_singleton,
      List.map_singleton, hrequest]
  · intro task htask hc
    rcases hflight task htask with hold | ⟨hentry, harrival⟩
    · have hbefore := h.tasks task hold hc
      rw [List.getElem?_append_left (List.getElem?_eq_some_iff.mp hbefore).1, hbefore]
    · rw [harrival, h.length_eq, List.getElem?_concat_length, hentry]
  · intro k r hr e he
    rw [HttpConnection.answer, harrivals] at hr
    by_cases hk : k < log.length
    · rw [List.getElem?_append_left (h.length_eq ▸ hk)] at hr
      rw [List.getElem?_append_left hk] at he
      exact h.answers k r hr e he
    · have hk' : k = log.length := by
        have hlt := (List.getElem?_eq_some_iff.mp he).1
        rw [List.length_append, List.length_singleton] at hlt
        omega
      rw [hk', ← h.length_eq, List.getElem?_concat_length, Option.bind_some] at hr
      rw [hk', List.getElem?_concat_length, Option.some.injEq] at he
      rw [← he]
      cases haccepted : entry.accepted with
      | true => simp [haccepted] at hr
      | false =>
        simp only [haccepted, Bool.false_eq_true, if_false, Option.some.injEq] at hr
        rw [ReadRequest.response, haccepted, if_neg Bool.false_ne_true, ← hr, hrequest]
  · cases haccepted : entry.accepted with
    | true =>
      refine .inl fun e he => ?_
      rcases List.mem_append.mp he with hold | hnew
      · exact hall e hold
      · rw [List.mem_singleton.mp hnew, haccepted]
    | false =>
      rw [List.dropLast_concat]
      exact .inr ⟨hall, hended haccepted⟩

theorem InTurn.step (h : InTurn process c log s) {a : ServerAction κ ω}
    (hanswers : AnswersWith process s a) (hstep : s.step lim a = some s') :
    InTurn process c (log ++ s.readOn lim c a) s' := by
  by_cases hread : ∃ request endpoint, a = .readDone c (some request) endpoint
  · obtain ⟨request, endpoint, rfl⟩ := hread
    exact h.read hstep
  · have hnone : s.readOn lim c a = [] := by
      unfold readOn
      split
      · rename_i d request clientIp
        rw [if_neg]
        rintro rfl
        exact hread ⟨request, some clientIp, rfl⟩
      · rfl
    rw [hnone, List.append_nil]
    cases a with
    | finish w response => exact h.finish hanswers hstep
    | accept d | pop w | runPosted d i | writeDone d i ok | stopContext | stopQueue =>
      exact h.quiet (by simp) (by simp) hstep
    | readDone d result endpoint =>
      exact h.quiet (fun request endpoint' ha => hread ⟨request, endpoint', ha⟩) (by simp) hstep

end RequestServer

namespace EchoServer

/-- `process_client_request` of the echo server. Without a `Connection` field a response keeps the
connection alive from HTTP/1.1 on. -/
def processClientRequest (_clientIp : String) (request : HttpRequest) : HttpResponse :=
  { HttpResponse.fresh with
    version := request.version
    keepAlive := 11 ≤ request.version
    result := 200
    contentType := "text/plain"
    body := String.ofList (request.body.toList.map Char.toUpper) }

end EchoServer

namespace RequestServer

variable {κ ω : Type*} [DecidableEq κ] [Fintype ω] [DecidableEq ω] {lim : Limits} {c : κ}
  {s : RequestServer κ ω} {process : String → HttpRequest → HttpResponse} {log : List ReadRequest}

/-- In every interleaving, and whatever other clients do: what is written on a connection are the
answers to the requests read on it, in turn, as far as they have come. Only the last request can have
been refused, and only the last response can end the connection. When the workers and the context
thread have nothing left to do, an open connection has all its answers. -/
theorem served_in_turn [Nonempty ω] {actions : List (ServerAction κ ω)}
    (hanswers : Guarded (step lim) (AnswersWith process) initial actions)
    (hrun : trace (observing (step lim) (readOn lim c)) initial actions = some (s, log)) :
    (s.connections c).written <+: log.map (ReadRequest.response process) ∧
    (∀ entry ∈ log.dropLast, entry.accepted = true) ∧
    (∀ r ∈ (s.connections c).written.dropLast, r.keepAlive = true) ∧
    (s.running = true → s.Standstill lim → (s.connections c).closed = false →
      (s.connections c).written = log.map (ReadRequest.response process)) := by
  have hstep : ∀ log (s : RequestServer κ ω) a t, InTurn process c log s → AnswersWith process s a →
      s.step lim a = some t → InTurn process c (log ++ s.readOn lim c a) t :=
    fun log s a t hs ha h => hs.step ha h
  have h : InTurn process c log s := observing_invariant hstep inTurn_initial hanswers hrun
  have hinitial : (s.connections c).written <+: log.map (ReadRequest.response process) := by
    rw [List.prefix_iff_getElem?]
    intro i hi
    have hget := List.getElem?_eq_getElem hi
    have hanswer := (h.inv.ordered c).writtenAnswer i _ hget
    have hlt : i < log.length := h.length_eq ▸ answer_lt hanswer
    rw [List.getElem?_map, List.getElem?_eq_getElem hlt, Option.map_some]
    rw [h.answers i _ hanswer _ (List.getElem?_eq_getElem hlt)]
  refine ⟨hinitial, ?_, h.keptAlive.before, fun hrunning hstill hopen => ?_⟩
  · rcases h.last with hall | ⟨hbefore, -⟩
    · exact fun entry hentry => hall entry (List.mem_of_mem_dropLast hentry)
    · exact hbefore
  · obtain ⟨-, hall⟩ := h.inv.allWritten_of_standstill hstill hrunning hopen
    apply hinitial.eq_of_length
    have hlength := congrArg List.length hall
    rw [List.length_map, List.length_map, h.length_eq] at hlength
    rw [hlength, List.length_map]

/-- Three requests to the echo server, of which the queue refuses the last; the workers answer the
other two in the wrong order. -/
def echoed : List (ServerAction Unit Bool) :=
  [.accept (), .readDone () (some ⟨11, "/", "ab"⟩) (some "::1"), .pop true,
    .readDone () (some ⟨11, "/", "c"⟩) (some "::1"), .readDone () (some ⟨11, "/", "d"⟩) (some "::1"),
    .pop false, .finish false ⟨11, 200, "text/plain", "C", true⟩, .runPosted () 0, .runPosted () 0,
    .finish true ⟨11, 200, "text/plain", "AB", true⟩, .runPosted () 0, .writeDone () 0 true]

theorem served_in_turn_echo : ∃ s : RequestServer Unit Bool, ∃ log,
    Guarded (step ⟨true, true, 1, 64⟩) (AnswersWith EchoServer.processClientRequest) initial echoed ∧
    trace (observing (step ⟨true, true, 1, 64⟩) (readOn ⟨true, true, 1, 64⟩ ())) initial echoed =
      some (s, log) ∧
    (s.connections ()).written.map HttpResponse.body = ["AB", "C"] ∧
    log.map ReadRequest.accepted = [true, true, false] ∧
    (s.connections ()).written <+: log.map (ReadRequest.response EchoServer.processClientRequest) := by
  have hanswers : Guarded (step ⟨true, true, 1, 64⟩)
      (AnswersWith EchoServer.processClientRequest) initial echoed := by decide
  refine ⟨_, _, hanswers, rfl, rfl, rfl, ?_⟩
  exact (served_in_turn hanswers rfl).1

end RequestServer
end ServerSimple.Network
