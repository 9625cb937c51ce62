import ServerSimple.Network.ConnectionClosing

/-! # The end of the input

A client that has sent its requests may close its sending side and go on reading. The read handler
then closes the whole socket at once. The requests that were read before have had their responses
written exactly if nothing of them was left anywhere at that moment.
-/

namespace ServerSimple.Network

open Library ThreadSafe HttpConnection

/-- Every request that was read has had its response written, and no write is under way. -/
def HttpConnection.AllWritten (conn : HttpConnection) : Prop :=
  conn.writes = [] ∧ conn.written.map some = conn.arrivals.map Arrival.answer

namespace RequestServer

variable {κ ω : Type*} [DecidableEq κ]

/-- Nothing of the connection is in the queue, with a worker, on the strand or in the map. -/
def Drained (s : RequestServer κ ω) (c : κ) : Prop :=
  (∀ task, s.InFlight task → task.connection ≠ c) ∧ (s.connections c).posted = [] ∧
    (s.connections c).responses = ∅

/-- The next read on the connection completes with the end of the stream. -/
def EndOfInput (c : κ) : ServerAction κ ω → Prop
  | .readDone d none _ => d = c
  | _ => False

/-- No write on the connection fails, and every response that is written keeps it alive. -/
def KeepsAlive (c : κ) (s : RequestServer κ ω) : ServerAction κ ω → Prop
  | .writeDone d i ok => d = c → ok = true ∧
    ∀ response ∈ (s.connections c).writes[i]?, response.keepAlive = true
  | _ => True

instance (c : κ) (s : RequestServer κ ω) : (a : ServerAction κ ω) → Decidable (KeepsAlive c s a)
  | .writeDone _ _ _ => inferInstanceAs (Decidable (_ → _))
  | .accept _ | .readDone _ _ _ | .pop _ | .finish _ _ | .runPosted _ _ | .stopContext | .stopQueue =>
    inferInstanceAs (Decidable True)

variable [Fintype ω] {s s' : RequestServer κ ω} {lim : Limits} {c : κ}

/-- On an open connection everything is written exactly if nothing is left. -/
theorem Inv.allWritten_iff_drained (h : Inv s) (hopen : (s.connections c).closed = false) :
    (s.connections c).AllWritten ↔ s.Drained c := by
  have hord := h.ordered c
  constructor
  · rintro ⟨hwrites, hwritten⟩
    have hlength : (s.connections c).written.length = (s.connections c).nextSequenceId := by
      rw [hord.counted]
      simpa using congrArg List.length hwritten
    have hnext : (s.connections c).nextResponseSequenceId = (s.connections c).nextSequenceId := by
      cases h.pump c with
      | rest _ _ hlen _ => omega
      | busy r _ hbusy => simp [hbusy] at hwrites
      | finished _ _ hclosed => simp [hclosed] at hopen
    have hnowhere : ∀ k, s.pending c k + (s.connections c).buffered k = 0 := by
      intro k
      rw [hord.places k, if_neg (by omega)]
    refine ⟨?_, ?_, ?_⟩
    · rintro task htask rfl
      have hpos := pending_pos htask
      have hzero := hnowhere task.sequenceId
      omega
    · rw [List.eq_nil_iff_forall_not_mem]
      intro handler hmem
      have hpos : 0 < (s.connections c).posted.countP fun h => h.sequenceId = handler.sequenceId :=
        List.countP_pos_iff.mpr ⟨handler, hmem, by simp⟩
      have hzero := hnowhere handler.sequenceId
      rw [buffered] at hzero
      omega
    · apply eq_empty_of_lookup
      intro k
      have hzero := hnowhere k
      rw [buffered] at hzero
      cases hlookup : (s.connections c).responses.lookup k with
      | none => rfl
      | some r => simp [hlookup] at hzero
  · rintro ⟨hflight, hposted, hmap⟩
    have hwrites : (s.connections c).writes = [] := by
      cases h.pump c with
      | rest _ hwrites => exact hwrites
      | busy r _ _ _ hlookup => simp [hmap] at hlookup
      | finished _ hwrites => exact hwrites
    have hpending : ∀ k, s.pending c k = 0 := by
      intro k
      rw [pending, Nat.add_eq_zero_iff, List.countP_eq_zero, occurrences_eq_zero]
      constructor
      · intro task htask hk
        exact hflight task (.inl htask) (of_decide_eq_true hk).1
      · rintro w ⟨task, htask, hc, -⟩
        exact hflight task (.inr ⟨w, htask⟩) hc
    exact ⟨hwrites, (hord.drained (h.pump c) hpending hposted hwrites hopen).2.2⟩

/-! ## Only the end of the input closes the socket -/

omit [DecidableEq κ] [Fintype ω] in
/-- As long as no write fails and every response keeps the connection alive. -/
theorem KeepsAlive.closed_event {a : ServerAction κ ω} {conn : HttpConnection}
    (hkeeps : KeepsAlive c s a) (hevent : Event c a (s.connections c) conn) :
    conn.closed = (s.connections c).closed ∨
      0 < (s.connections c).reads ∧ conn = (s.connections c).takeRead.close := by
  cases hevent with
  | none => exact .inl rfl
  | started _ _ => exact .inl rfl
  | ended _ _ hreads => exact .inr ⟨hreads, rfl⟩
  | refused _ _ _ _ => exact .inl rfl
  | queued _ _ _ _ => exact .inl rfl
  | finished _ _ _ _ _ _ => exact .inl rfl
  | delivered i handler _ _ => exact .inl (deliver_closed _ _)
  | wrote i response ok ha hi =>
    subst ha
    obtain ⟨rfl, hresponse⟩ := hkeeps rfl
    simp only [writeHandler, hresponse response hi, if_true]
    exact .inl (write_closed _)

/-- A socket that is closed reads no more. -/
structure ReadsWhileOpen (c : κ) (s : RequestServer κ ω) : Prop where
  inv : Inv s
  reading : (s.connections c).Reading
  ended : (s.connections c).closed = true → ∃ count, (s.connections c).ReadEnded count

theorem readsWhileOpen_initial (c : κ) : ReadsWhileOpen c (initial : RequestServer κ ω) :=
  ⟨inv_initial, ⟨Nat.zero_le 1, fun _ => rfl⟩, nofun⟩

variable [DecidableEq ω]

theorem ReadsWhileOpen.step {a : ServerAction κ ω} (h : ReadsWhileOpen c s)
    (hkeeps : KeepsAlive c s a) (hstep : s.step lim a = some s') : ReadsWhileOpen c s' := by
  have hevent := h.inv.event hstep c
  refine ⟨inv_step h.inv lim hstep, h.reading.event hevent, ?_⟩
  intro hclosed
  rcases hkeeps.closed_event hevent with hsame | ⟨hreads, hconn⟩
  · obtain ⟨count, hended⟩ := h.ended (hsame ▸ hclosed)
    exact ⟨count, hended.event hevent⟩
  · obtain ⟨hstarted, hnone⟩ := h.reading.of_reads_pos hreads
    rw [hconn]
    exact ⟨_, Prod.ext hstarted (Prod.ext hnone rfl)⟩

/-- So the end of the input finds the socket open. -/
theorem ReadsWhileOpen.closed_eq_false {a : ServerAction κ ω} (h : ReadsWhileOpen c s)
    (hstep : s.step lim a = some s') (hend : EndOfInput c a) : (s.connections c).closed = false := by
  by_contra hclosed
  rw [Bool.not_eq_false] at hclosed
  obtain ⟨count, hended⟩ := h.ended hclosed
  cases a with
  | readDone d result endpoint =>
    cases result with
    | none =>
      cases hend
      simp [RequestServer.step, hended.reads] at hstep
    | some request => exact hend
  | _ => exact hend

/-- In a run without failed writes in which every response keeps the connection alive, the end of the
input, which closes the socket, leaves no request without its response exactly if nothing of the
connection is queued, being worked on, posted or buffered when it comes. -/
theorem end_of_input_iff (lim : Limits) (c : κ) (actions : List (ServerAction κ ω))
    (hrun : run (RequestServer.step lim) initial actions = some s)
    (hkeeps : Guarded (RequestServer.step lim) (KeepsAlive c) initial actions) :
    Guarded (RequestServer.step lim) (fun s a => EndOfInput c a → (s.connections c).AllWritten)
        initial actions ↔
      Guarded (RequestServer.step lim) (fun s a => EndOfInput c a → s.Drained c) initial actions := by
  refine guarded_congr (fun _ _ _ => ReadsWhileOpen.step) ?_ (readsWhileOpen_initial c) hkeeps hrun
  intro s a t h hstep
  apply imp_congr_right
  intro hend
  exact h.inv.allWritten_iff_drained (h.closed_eq_false hstep hend)

/-- A request is answered before the client is done. -/
def answeredThenEnded : List (ServerAction Unit Unit) :=
  [.accept (), .readDone () (some ⟨11, "/", ""⟩) (some "::1"), .pop (),
    .finish () ⟨11, 200, "", "a", true⟩, .runPosted () 0, .writeDone () 0 true,
    .readDone () none none]

theorem end_of_input_iff_answered : ∃ s : RequestServer Unit Unit,
    run (RequestServer.step ⟨true, true, 8, 64⟩) initial answeredThenEnded = some s ∧
      (s.connections ()).closed = true ∧
      (Guarded (RequestServer.step ⟨true, true, 8, 64⟩)
          (fun s a => EndOfInput () a → (s.connections ()).AllWritten) initial answeredThenEnded ↔
        Guarded (RequestServer.step ⟨true, true, 8, 64⟩)
          (fun s a => EndOfInput () a → s.Drained ()) initial answeredThenEnded) :=
  ⟨_, rfl, rfl, end_of_input_iff ⟨true, true, 8, 64⟩ () answeredThenEnded rfl (by decide)⟩

/-- The client is done before its request is answered. -/
def endedUnanswered : List (ServerAction Unit Unit) :=
  [.accept (), .readDone () (some ⟨11, "/", ""⟩) (some "::1"), .readDone () none none]

theorem end_of_input_unanswered : ∃ s : RequestServer Unit Unit,
    run (RequestServer.step ⟨true, true, 8, 64⟩) initial endedUnanswered = some s ∧
      Guarded (RequestServer.step ⟨true, true, 8, 64⟩) (KeepsAlive ()) initial endedUnanswered ∧
      (s.connections ()).closed = true ∧ (s.connections ()).arrivals.length = 1 ∧
      (s.connections ()).written = [] ∧
      ¬ Guarded (RequestServer.step ⟨true, true, 8, 64⟩)
        (fun s a => EndOfInput () a → (s.connections ()).AllWritten) initial endedUnanswered := by
  refine ⟨_, rfl, by decide, rfl, rfl, rfl, ?_⟩
  intro h
  have hwritten := ((h.2 _ rfl).2 _ rfl).1 rfl
  cases hwritten.2

end RequestServer
end ServerSimple.Network
