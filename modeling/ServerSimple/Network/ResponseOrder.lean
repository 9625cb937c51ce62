import ServerSimple.Network.RequestServer
import ServerSimple.Network.WritePump

/-! # Responses leave a connection in the order of its requests

The write pump of every connection is kept by every step of the server, whatever the order in which
workers finish and handlers run. From it follow the order of the responses, that at most one write
is outstanding, and that no response is left behind.
-/

namespace ServerSimple.Network

open Library ThreadSafe HttpConnection

/-- A task carries the id under which its request was read, and that request. -/
def RequestTask.Matches {κ : Type*} (task : RequestTask κ) (conn : HttpConnection) : Prop :=
  task.sequenceId = task.arrival ∧
    (conn.arrivals.map Arrival.request)[task.arrival]? = some task.request

theorem RequestTask.Matches.arrive {κ : Type*} {task : RequestTask κ} {conn : HttpConnection}
    (h : task.Matches conn) (request : HttpRequest) (a : Option HttpResponse) :
    task.Matches (conn.arrive request a) := by
  refine ⟨h.1, ?_⟩
  have hlt := (List.getElem?_eq_some_iff.mp h.2).1
  rw [HttpConnection.arrive, List.map_append, List.getElem?_append_left hlt, h.2]

theorem RequestTask.Matches.answered {κ : Type*} {task : RequestTask κ} {conn : HttpConnection}
    (h : task.Matches conn) (k : ℕ) (r : HttpResponse) : task.Matches (conn.answered k r) := by
  refine ⟨h.1, ?_⟩
  rw [← h.2]
  congr 1
  apply List.ext_getElem?
  intro i
  simp only [HttpConnection.answered, List.getElem?_map, List.getElem?_modify]
  cases conn.arrivals[i]? with
  | none => rfl
  | some a => split_ifs <;> rfl

namespace RequestServer

variable {κ ω : Type*} [DecidableEq κ] [Fintype ω]

/-- What every step of the server keeps, for every connection. -/
structure Inv (s : RequestServer κ ω) : Prop where
  ordered : ∀ c, (s.connections c).Ordered (s.pending c)
  pump : ∀ c, (s.connections c).Pump
  tasks : ∀ task, s.InFlight task → task.Matches (s.connections task.connection)

theorem inv_initial : Inv (initial : RequestServer κ ω) where
  ordered c := by
    have hpending : (initial : RequestServer κ ω).pending c = fun _ => 0 := by
      funext k
      simp [pending, initial, ThreadSafeQueue.empty, occurrences_eq_zero]
    rw [hpending]
    exact HttpConnection.ordered_initial
  pump _ := HttpConnection.pump_initial
  tasks task h := by simp [InFlight, initial, ThreadSafeQueue.empty] at h

variable {s s' : RequestServer κ ω}

theorem pending_pos {task : RequestTask κ} (h : s.InFlight task) :
    0 < s.pending task.connection task.sequenceId := by
  rcases h with hq | ⟨w, hw⟩
  · apply Nat.add_pos_left
    exact List.countP_pos_iff.mpr ⟨task, hq, by simp⟩
  · apply Nat.add_pos_right
    exact occurrences_pos.mpr ⟨w, task, hw, rfl, rfl⟩

/-- A step that changes one connection and the tasks of no other. -/
theorem Inv.update (h : Inv s) (s' : RequestServer κ ω) (c : κ) {conn : HttpConnection}
    (hconn : s'.connections = Function.update s.connections c conn)
    (hother : ∀ d, d ≠ c → s'.pending d = s.pending d) (hord : conn.Ordered (s'.pending c))
    (hpump : conn.Pump)
    (hkeep : ∀ task : RequestTask κ, task.Matches (s.connections c) → task.Matches conn)
    (htasks : ∀ task, s'.InFlight task →
      s.InFlight task ∨ task.connection = c ∧ task.Matches conn) : Inv s' where
  ordered d := by
    by_cases hd : d = c
    · subst hd
      rw [hconn, Function.update_self]
      exact hord
    · rw [hconn, Function.update_of_ne hd, hother d hd]
      exact h.ordered d
  pump d := by
    by_cases hd : d = c
    · subst hd
      rw [hconn, Function.update_self]
      exact hpump
    · rw [hconn, Function.update_of_ne hd]
      exact h.pump d
  tasks task ht := by
    rcases htasks task ht with hold | ⟨hc, hm⟩
    · by_cases hd : task.connection = c
      · rw [hconn, hd, Function.update_self]
        exact hkeep task (hd ▸ h.tasks task hold)
      · rw [hconn, Function.update_of_ne hd]
        exact h.tasks task hold
    · rw [hconn, hc, Function.update_self]
      exact hm

/-- A step that only touches a connection, and none of the answers recorded there. -/
theorem Inv.setConnection (h : Inv s) (c : κ) {conn : HttpConnection}
    (harrivals : conn.arrivals = (s.connections c).arrivals)
    (hord : conn.Ordered (s.pending c)) (hpump : conn.Pump) : Inv (s.setConnection c conn) := by
  refine h.update _ c rfl (fun _ _ => rfl) hord hpump ?_ fun task ht => .inl ht
  · intro task hm
    rw [RequestTask.Matches, harrivals]
    exact hm

/-- A step that leaves every connection and every count of tasks alone. -/
theorem Inv.frame (h : Inv s) (hconn : s'.connections = s.connections)
    (hpending : s'.pending = s.pending) (htasks : ∀ task, s'.InFlight task → s.InFlight task) :
    Inv s' where
  ordered c := by
    rw [hconn, hpending]
    exact h.ordered c
  pump c := by
    rw [hconn]
    exact h.pump c
  tasks task ht := by
    rw [hconn]
    exact h.tasks task (htasks task ht)

/-! ## How the tasks move -/

theorem pending_push (s : RequestServer κ ω) {queue : ThreadSafeQueue (RequestTask κ)}
    {task : RequestTask κ} (hq : queue.dequeue = s.requestQueue.dequeue ++ [task]) (c : κ) (k : ℕ) :
    { s with requestQueue := queue }.pending c k =
      s.pending c k + if task.connection = c ∧ task.sequenceId = k then 1 else 0 := by
  unfold pending
  rw [hq, List.countP_append, List.countP_singleton]
  simp only [decide_eq_true_eq]
  omega

variable [DecidableEq ω]

theorem pending_pop (s : RequestServer κ ω) {queue : ThreadSafeQueue (RequestTask κ)}
    {task : RequestTask κ} {w : ω} (hq : s.requestQueue.dequeue = task :: queue.dequeue)
    (hw : s.workers w = none) :
    { s with requestQueue := queue, workers := Function.update s.workers w (some task) }.pending =
      s.pending := by
  funext c k
  have hcount := occurrences_update
    (p := fun o => ∃ t ∈ o, t.connection = c ∧ t.sequenceId = k) s.workers w (some task)
  unfold pending
  rw [hq, List.countP_cons]
  simp [hw] at hcount ⊢
  omega

theorem pending_finish (s : RequestServer κ ω) {task : RequestTask κ} {w : ω}
    (hw : s.workers w = some task) (c : κ) (k : ℕ) :
    { s with workers := Function.update s.workers w none }.pending c k +
      (if task.connection = c ∧ task.sequenceId = k then 1 else 0) = s.pending c k := by
  have hcount := occurrences_update
    (p := fun o => ∃ t ∈ o, t.connection = c ∧ t.sequenceId = k) s.workers w none
  unfold pending
  simp [hw] at hcount ⊢
  omega

/-! ## One step -/

theorem inv_readDone (h : Inv s) (lim : Limits) {c : κ} {result : Option HttpRequest}
    {endpoint : Option String} (hstep : s.step lim (.readDone c result endpoint) = some s') :
    Inv s' := by
  have hord : Ordered (s.connections c).takeRead (s.pending c) :=
    (h.ordered c).congr rfl rfl rfl rfl rfl rfl
  have hpump : Pump (s.connections c).takeRead := (h.pump c).congr rfl rfl rfl rfl rfl id
  simp only [step] at hstep
  split_ifs at hstep with hrun
  cases hread : (s.connections c).takeRead.readHandler lim c s.requestQueue result endpoint with
  | error what => simp [hread] at hstep
  | ok r =>
    rw [hread] at hstep
    cases hstep
    rcases readHandler_cases lim hread with ⟨_, hr, hq⟩ | ⟨request, _, ⟨hr, hq⟩ | ⟨ip, hr, hq⟩⟩
    · rw [hr, hq]
      exact h.setConnection c rfl hord.close (hpump.congr rfl rfl rfl rfl rfl fun _ => rfl)
    · rw [hr, hq]
      exact h.update _ c rfl (fun _ _ => rfl) (hord.arrive_refused request)
        (hpump.congr rfl rfl rfl rfl rfl id) (fun task hm => RequestTask.Matches.arrive hm _ _)
        fun task ht => .inl ht
    · rw [hr]
      have hpending := pending_push s hq
      refine h.update _ c rfl ?_ ?_ (hpump.congr rfl rfl rfl rfl rfl id)
        (fun task hm => RequestTask.Matches.arrive hm _ _) ?_
      · intro d hd
        funext k
        have hk := hpending d k
        rw [if_neg fun hc => hd hc.1.symm] at hk
        exact hk
      · refine (hord.arrive_accepted request ?_).congr rfl rfl rfl rfl rfl rfl
        intro k
        apply (hpending c k).trans
        congr 1
        simp [eq_comm]
      · rintro task (ht | hw)
        · rw [hq] at ht
          rcases List.mem_append.mp ht with hold | hnew
          · exact .inl (.inl hold)
          · rw [List.mem_singleton.mp hnew]
            refine .inr ⟨rfl, hord.counted, ?_⟩
            simp [arrive, HttpConnection.read]
        · exact .inl (.inr hw)

theorem inv_pop (h : Inv s) (lim : Limits) {w : ω} (hstep : s.step lim (.pop w) = some s') :
    Inv s' := by
  rcases s.requestQueue.waitAndPop_cases lim with ⟨_, _, hq⟩ | ⟨_, _, hq⟩ | ⟨task, rest, hd, hq⟩
  · simp [step, hq] at hstep
  · simp [step, hq] at hstep
  · cases hw : s.workers w with
    | some t => simp [step, hw] at hstep
    | none =>
      simp only [step, hw, hq, Option.some.injEq] at hstep
      rw [← hstep]
      refine h.frame rfl (pending_pop s hd hw) ?_
      rintro t (ht | ⟨v, hv⟩)
      · exact .inl (hd ▸ List.mem_cons_of_mem task ht)
      · rcases eq_or_eq_of_update hv with hnew | hold
        · cases hnew
          exact .inl (hd ▸ List.mem_cons_self)
        · exact .inr ⟨v, hold⟩

theorem inv_finish (h : Inv s) (lim : Limits) {w : ω} {response : HttpResponse}
    (hstep : s.step lim (.finish w response) = some s') : Inv s' := by
  cases hw : s.workers w with
  | none => simp [step, hw] at hstep
  | some task =>
    have hflight : s.InFlight task := .inr ⟨w, hw⟩
    have hid := (h.tasks task hflight).1
    have hpending := pending_finish s hw
    simp only [step, hw, Option.some.injEq] at hstep
    rw [← hstep]
    refine h.update _ task.connection rfl ?_ ?_ ((h.pump _).congr rfl rfl rfl rfl rfl id)
      (fun t hm => RequestTask.Matches.answered hm _ _) ?_
    · intro d hd
      funext k
      have hk := hpending d k
      rw [if_neg fun hc => hd hc.1.symm] at hk
      exact hk
    · rw [← hid]
      apply (h.ordered task.connection).finish (pending_pos hflight)
      intro k
      apply Eq.trans _ (hpending task.connection k)
      congr 1
      simp [eq_comm]
    · rintro t (ht | ⟨v, hv⟩)
      · exact .inl (.inl ht)
      · rcases eq_or_eq_of_update hv with hnew | hold
        · cases hnew
        · exact .inl (.inr ⟨v, hold⟩)

/-- Every step of the server keeps the invariant. -/
theorem inv_step (h : Inv s) (lim : Limits) {a : ServerAction κ ω}
    (hstep : s.step lim a = some s') : Inv s' := by
  cases a with
  | accept c =>
    simp only [step] at hstep
    split_ifs at hstep
    cases hstep
    exact h.setConnection c rfl ((h.ordered c).congr rfl rfl rfl rfl rfl rfl)
      ((h.pump c).congr rfl rfl rfl rfl rfl id)
  | readDone c result endpoint => exact inv_readDone h lim hstep
  | pop w => exact inv_pop h lim hstep
  | finish w response => exact inv_finish h lim hstep
  | runPosted c i =>
    simp only [step] at hstep
    split at hstep
    case _ handler hrun hi =>
      cases hstep
      have hdeliver := (h.ordered c).deliver (h.pump c) hi
      exact h.setConnection c (deliver_arrivals _ _) hdeliver.1 hdeliver.2
    case _ => cases hstep
  | writeDone c i ok =>
    simp only [step] at hstep
    split at hstep
    case _ response hrun hi =>
      cases hstep
      have hdone := (h.ordered c).writeHandler (h.pump c) hi ok
      exact h.setConnection c (writeHandler_arrivals _ _ _) hdone.1 hdone.2
    case _ => cases hstep
  | stopContext =>
    cases hstep
    exact h.frame rfl rfl fun task ht => ht
  | stopQueue =>
    simp only [step, ThreadSafeQueue.stop_eq] at hstep
    split_ifs at hstep
    cases hstep
    exact h.frame rfl rfl fun task ht => ht

theorem inv_run (lim : Limits) {actions : List (ServerAction κ ω)}
    (hrun : run (step lim) initial actions = some s) : Inv s :=
  run_invariant (fun _ _ _ h => inv_step h lim) inv_initial hrun

/-! ## Order and progress -/

/-- The responses handed to `async_write` on a connection are those produced for its requests, in
the order in which the requests were read and without a gap, and at most one write is outstanding.
The request whose response is still to come is the one that the task in flight carries. -/
theorem responses_in_order (lim : Limits) (actions : List (ServerAction κ ω))
    (hrun : run (step lim) initial actions = some s) (c : κ) :
    (s.connections c).writes.length ≤ 1 ∧
      (s.connections c).written.map some =
        ((s.connections c).arrivals.take (s.connections c).written.length).map Arrival.answer ∧
      ∀ task, s.InFlight task → task.connection = c →
        (s.connections c).arrivals[task.arrival]? = some ⟨task.request, none⟩ := by
  have hinv := inv_run lim hrun
  refine ⟨(hinv.pump c).writes_length_le, (hinv.ordered c).written_eq, ?_⟩
  rintro task ht rfl
  obtain ⟨hid, hrequest⟩ := hinv.tasks task ht
  have hanswer := (hinv.ordered task.connection).unanswered _ (pending_pos ht)
  rw [hid, HttpConnection.answer] at hanswer
  rw [List.getElem?_map] at hrequest
  cases ha : (s.connections task.connection).arrivals[task.arrival]? with
  | none => simp [ha] at hrequest
  | some a =>
    rw [ha, Option.map_some, Option.some.injEq] at hrequest
    rw [ha, Option.bind_some] at hanswer
    rw [← hrequest, ← hanswer]

/-- Two requests answered in the other order. -/
def swappedAnswers : List (ServerAction Unit Bool) :=
  [.accept (), .readDone () (some ⟨11, "/a", ""⟩) (some "::1"),
    .readDone () (some ⟨11, "/b", ""⟩) (some "::1"), .pop false, .pop true,
    .finish true ⟨11, 200, "", "b", true⟩, .finish false ⟨11, 200, "", "a", true⟩,
    .runPosted () 0, .runPosted () 0, .writeDone () 0 true, .writeDone () 0 true]

theorem responses_in_order_swapped : ∃ s : RequestServer Unit Bool,
    run (step ⟨true, true, 8, 64⟩) initial swappedAnswers = some s ∧
      (s.connections ()).written.map HttpResponse.body = ["a", "b"] ∧
      (s.connections ()).written.map some =
        ((s.connections ()).arrivals.take 2).map Arrival.answer := by
  refine ⟨_, rfl, rfl, ?_⟩
  exact (responses_in_order ⟨true, true, 8, 64⟩ swappedAnswers rfl ()).2.1

/-- Whether or not the server still runs, a pump at rest has nothing due. So once the server has
come to a standstill, every request read on an open connection has had its one response written. -/
theorem no_stalled_response (lim : Limits) (actions : List (ServerAction κ ω))
    (hrun : run (step lim) initial actions = some s) (c : κ) :
    ((s.connections c).writing = false →
      (s.connections c).responses.lookup (s.connections c).nextResponseSequenceId = none) ∧
    (s.requestQueue.dequeue = [] → (∀ w, s.workers w = none) → (s.connections c).posted = [] →
      (s.connections c).writes = [] → (s.connections c).closed = false →
        (s.connections c).responses = ∅ ∧
        (s.connections c).nextResponseSequenceId = (s.connections c).nextSequenceId ∧
        (s.connections c).written.map some = (s.connections c).arrivals.map Arrival.answer) := by
  have hinv := inv_run lim hrun
  constructor
  · intro hwriting
    cases hinv.pump c with
    | rest _ _ _ hnone => exact hnone
    | busy r hw => simp [hw] at hwriting
    | finished hw => simp [hw] at hwriting
  · intro hqueue hworkers hposted hwrites hclosed
    apply (hinv.ordered c).drained (hinv.pump c) _ hposted hwrites hclosed
    intro k
    simp [pending, hqueue, hworkers, occurrences_eq_zero]

theorem no_stalled_response_swapped : ∃ s : RequestServer Unit Bool,
    run (step ⟨true, true, 8, 64⟩) initial swappedAnswers = some s ∧
      (s.connections ()).responses = ∅ ∧
      (s.connections ()).nextResponseSequenceId = (s.connections ()).nextSequenceId ∧
      (s.connections ()).written.map some = (s.connections ()).arrivals.map Arrival.answer := by
  refine ⟨_, rfl, ?_⟩
  apply (no_stalled_response ⟨true, true, 8, 64⟩ swappedAnswers rfl ()).2
  · rfl
  · intro w
    cases w <;> rfl
  · rfl
  · rfl
  · rfl

end RequestServer
end ServerSimple.Network
