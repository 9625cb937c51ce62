import ServerSimple.Library.Potential
import ServerSimple.Network.EndOfInput

/-! # Every request is answered

What is left to do for a request are at most four steps: a worker takes it, the worker answers, the
strand buffers the response, and the write of the response completes. As long as something is left,
one of these steps is possible, so that the server comes to a standstill only when every open
connection has had all its responses written.
-/

namespace ServerSimple.Network

open Library ThreadSafe HttpConnection

namespace HttpConnection

variable {conn : HttpConnection} {pending : ℕ → ℕ}

/-- Nothing is written any more: the flag is set and no write is outstanding. -/
def writesNoMore (conn : HttpConnection) : Bool := conn.writing && conn.writes.isEmpty

/-- The steps that are left for the responses of one connection. -/
def stepsLeft (conn : HttpConnection) : ℕ :=
  2 * conn.posted.length + if conn.writesNoMore then 0 else conn.responses.entries.length

theorem stepsLeft_post (conn : HttpConnection) (p : Posted) :
    { conn with posted := conn.posted ++ [p] }.stepsLeft = conn.stepsLeft + 2 := by
  change 2 * (conn.posted ++ [p]).length +
      (if conn.writesNoMore then 0 else conn.responses.entries.length) =
    2 * conn.posted.length + (if conn.writesNoMore then 0 else conn.responses.entries.length) + 2
  rw [List.length_append, List.length_singleton]
  omega

theorem stepsLeft_of_writesNoMore {conn : HttpConnection} (h : conn.writesNoMore = true) :
    conn.stepsLeft = 2 * conn.posted.length := by
  rw [stepsLeft, h, if_pos rfl, Nat.add_zero]

/-- A write that is started counts nothing of its own. -/
theorem stepsLeft_write_le (conn : HttpConnection) :
    conn.write.stepsLeft ≤ 2 * conn.posted.length + conn.responses.entries.length := by
  obtain ⟨writing, writes, written, hw⟩ := write_frame conn
  rw [hw]
  apply Nat.add_le_add_left
  split_ifs
  · exact Nat.zero_le _
  · exact le_rfl

theorem Pump.stepsLeft_deliver (h : Pump conn) {i : ℕ} {p : Posted}
    (hi : conn.posted[i]? = some p) :
    ((conn.takePosted i).deliver p).stepsLeft + 1 ≤ conn.stepsLeft := by
  have hposted : (conn.posted.eraseIdx i).length + 1 = conn.posted.length := by
    have hlt := (List.getElem?_eq_some_iff.mp hi).1
    rw [List.length_eraseIdx_of_lt hlt]
    omega
  have hmap := length_emplace_le conn.responses p.sequenceId p.response
  cases h with
  | rest hw _ _ _ =>
    rw [deliver_of_not_writing hw]
    have hwrite := stepsLeft_write_le { conn with
      posted := conn.posted.eraseIdx i
      responses := emplace conn.responses p.sequenceId p.response }
    have hbefore : conn.stepsLeft = 2 * conn.posted.length + conn.responses.entries.length := by
      simp [stepsLeft, writesNoMore, hw]
    dsimp only at hwrite
    omega
  | busy r hw hwrites _ _ =>
    rw [deliver_of_writing hw]
    simp only [stepsLeft, writesNoMore, hw, hwrites, List.isEmpty_cons, Bool.and_false,
      Bool.false_eq_true, if_false]
    omega
  | finished hw hwrites _ =>
    rw [deliver_of_writing hw]
    simp only [stepsLeft, writesNoMore, hw, hwrites, List.isEmpty_nil, Bool.and_true, if_true]
    omega

theorem Pump.stepsLeft_writeHandler (h : Pump conn) {i : ℕ} {r : HttpResponse}
    (hi : conn.writes[i]? = some r) (ok : Bool) :
    ((conn.takeWrite i).writeHandler r ok).stepsLeft + 1 ≤ conn.stepsLeft := by
  cases h with
  | rest _ hwrites => simp [hwrites] at hi
  | finished _ hwrites => simp [hwrites] at hi
  | busy r' hw hwrites _ hr =>
    have hi0 : i = 0 := by
      have hlt := (List.getElem?_eq_some_iff.mp hi).1
      rw [hwrites, List.length_singleton] at hlt
      omega
    have hmem : conn.nextResponseSequenceId ∈ conn.responses := by
      rw [← AList.lookup_isSome, hr, Option.isSome_some]
    have herase : (conn.responses.erase conn.nextResponseSequenceId).entries.length + 1 =
        conn.responses.entries.length := length_erase_add_one hmem
    have hbefore : conn.stepsLeft = 2 * conn.posted.length + conn.responses.entries.length := by
      simp [stepsLeft, writesNoMore, hwrites]
    have hnone : conn.writes.eraseIdx i = [] := by simp [hwrites, hi0]
    unfold writeHandler takeWrite
    rw [hnone]
    cases ok with
    | false =>
      have hafter := stepsLeft_of_writesNoMore (show (close { conn with writes := [] }).writesNoMore = true by
        simp [writesNoMore, close, hw])
      change (close { conn with writes := [] }).stepsLeft + 1 ≤ _
      rw [hafter]
      change 2 * conn.posted.length + 1 ≤ _
      omega
    | true =>
      simp only [if_true]
      cases r.keepAlive with
      | true =>
        have hwrite := stepsLeft_write_le { conn with
          writes := []
          responses := conn.responses.erase conn.nextResponseSequenceId
          nextResponseSequenceId := conn.nextResponseSequenceId + 1 }
        simp only [if_true]
        dsimp only at hwrite
        omega
      | false =>
        simp only [Bool.false_eq_true, if_false]
        rw [stepsLeft_of_writesNoMore (by simp [writesNoMore, close, hw])]
        change 2 * conn.posted.length + 1 ≤ _
        omega

end HttpConnection

namespace RequestServer

variable {κ ω : Type*}

/-- The steps that the workers and the context thread take by themselves. -/
def ownStep : ServerAction κ ω → Bool
  | .pop _ | .finish _ _ | .runPosted _ _ | .writeDone _ _ _ => true
  | .accept _ | .readDone _ _ _ | .stopContext | .stopQueue => false

/-- A read that delivers a request. -/
def readsRequest : ServerAction κ ω → Bool
  | .readDone _ (some _) _ => true
  | _ => false

/-- The connection that the action names. -/
def names : ServerAction κ ω → Option κ
  | .accept c | .readDone c _ _ | .runPosted c _ | .writeDone c _ _ => some c
  | .pop _ | .finish _ _ | .stopContext | .stopQueue => none

/-- No step of the server's own is possible. -/
def Standstill [DecidableEq κ] [DecidableEq ω] (lim : Limits) (s : RequestServer κ ω) : Prop :=
  ∀ a, ownStep a = true → s.step lim a = none

/-- The steps that a worker still owes to its task. -/
def taskWeight : Option (RequestTask κ) → ℕ
  | some _ => 3
  | none => 0

variable [Fintype ω]

/-- The steps that are left, for the connections in a finite set. -/
def potential (S : Finset κ) (s : RequestServer κ ω) : ℕ :=
  4 * s.requestQueue.dequeue.length + total taskWeight s.workers +
    totalOn stepsLeft S s.connections

variable [DecidableEq κ] {lim : Limits} {s t : RequestServer κ ω} {S : Finset κ}

theorem potential_setConnection {c : κ} (hc : c ∈ S) (conn : HttpConnection) :
    potential S (s.setConnection c conn) + (s.connections c).stepsLeft =
      potential S s + conn.stepsLeft := by
  have htotal := totalOn_update stepsLeft s.connections hc conn
  unfold potential
  rw [setConnection_requestQueue, setConnection_workers]
  change 4 * _ + _ + totalOn stepsLeft S (Function.update s.connections c conn) + _ = _
  omega

omit [DecidableEq κ] in
theorem potential_push (s : RequestServer κ ω) {queue : ThreadSafeQueue (RequestTask κ)}
    {task : RequestTask κ} (hq : queue.dequeue = s.requestQueue.dequeue ++ [task]) :
    potential S { s with requestQueue := queue } = potential S s + 4 := by
  unfold potential
  rw [hq, List.length_append, List.length_singleton]
  change _ + total taskWeight s.workers + totalOn stepsLeft S s.connections = _
  omega

/-- The measure is complete: the tasks belong to connections of the set. -/
structure Within (S : Finset κ) (s : RequestServer κ ω) : Prop where
  inv : Inv s
  tasks : ∀ task, s.InFlight task → task.connection ∈ S

variable [DecidableEq ω]

/-- New tasks come from reads, and the others are only handed on. -/
theorem Within.step (h : Within S s) {a : ServerAction κ ω} (ha : ∀ c ∈ names a, c ∈ S)
    (hstep : s.step lim a = some t) : Within S t := by
  refine ⟨inv_step h.inv lim hstep, ?_⟩
  cases a with
  | accept c =>
    simp only [RequestServer.step] at hstep
    split_ifs at hstep
    cases hstep
    exact h.tasks
  | readDone c result endpoint =>
    simp only [RequestServer.step] at hstep
    split_ifs at hstep
    cases hread : (s.connections c).takeRead.readHandler lim c s.requestQueue result endpoint with
    | error what => simp [hread] at hstep
    | ok r =>
      rw [hread] at hstep
      cases hstep
      rcases readHandler_cases lim hread with ⟨-, -, hq⟩ | ⟨request, -, ⟨-, hq⟩ | ⟨ip, -, hq⟩⟩
      · rintro task (hmem | hw)
        · exact h.tasks task (.inl (by rwa [hq] at hmem))
        · exact h.tasks task (.inr hw)
      · rintro task (hmem | hw)
        · exact h.tasks task (.inl (by rwa [hq] at hmem))
        · exact h.tasks task (.inr hw)
      · rintro task (hmem | hw)
        · rw [hq] at hmem
          rcases List.mem_append.mp hmem with hold | hnew
          · exact h.tasks task (.inl hold)
          · rw [List.mem_singleton.mp hnew]
            exact ha c rfl
        · exact h.tasks task (.inr hw)
  | pop w =>
    rcases s.requestQueue.waitAndPop_cases lim with ⟨_, _, hq⟩ | ⟨_, _, hq⟩ | ⟨item, rest, hd, hq⟩
    · simp [RequestServer.step, hq] at hstep
    · simp [RequestServer.step, hq] at hstep
    · cases hw : s.workers w with
      | some task => simp [RequestServer.step, hw] at hstep
      | none =>
        simp only [RequestServer.step, hw, hq, Option.some.injEq] at hstep
        subst hstep
        rintro task (hmem | ⟨v, hv⟩)
        · exact h.tasks task (.inl (hd ▸ List.mem_cons_of_mem item hmem))
        · rcases eq_or_eq_of_update hv with hnew | hold
          · cases hnew
            exact h.tasks item (.inl (hd ▸ List.mem_cons_self))
          · exact h.tasks task (.inr ⟨v, hold⟩)
  | finish w response =>
    cases hw : s.workers w with
    | none => simp [RequestServer.step, hw] at hstep
    | some held =>
      simp only [RequestServer.step, hw, Option.some.injEq] at hstep
      subst hstep
      rintro task (hmem | ⟨v, hv⟩)
      · exact h.tasks task (.inl hmem)
      · rcases eq_or_eq_of_update hv with hnew | hold
        · cases hnew
        · exact h.tasks task (.inr ⟨v, hold⟩)
  | runPosted c i =>
    simp only [RequestServer.step] at hstep
    split at hstep
    · cases hstep
      exact h.tasks
    · cases hstep
  | writeDone c i ok =>
    simp only [RequestServer.step] at hstep
    split at hstep
    · cases hstep
      exact h.tasks
    · cases hstep
  | stopContext =>
    cases hstep
    exact h.tasks
  | stopQueue =>
    simp only [RequestServer.step, ThreadSafeQueue.stop_eq] at hstep
    split_ifs at hstep
    cases hstep
    exact h.tasks

/-- A step of the server's own uses up one of the steps that are left; a request that is read brings
at most four. -/
theorem Within.potential_step (h : Within S s) {a : ServerAction κ ω} (ha : ∀ c ∈ names a, c ∈ S)
    (hstep : s.step lim a = some t) :
    potential S t + (if ownStep a then 1 else 0) ≤
      potential S s + 4 * (if readsRequest a then 1 else 0) := by
  cases a with
  | accept c =>
    simp only [RequestServer.step] at hstep
    split_ifs at hstep
    cases hstep
    have hset := potential_setConnection (ha c rfl) (s.connections c).start (s := s)
    have hsame : (s.connections c).start.stepsLeft = (s.connections c).stepsLeft := rfl
    simp only [ownStep, readsRequest, Bool.false_eq_true, if_false]
    omega
  | readDone c result endpoint =>
    simp only [RequestServer.step] at hstep
    split_ifs at hstep
    cases hread : (s.connections c).takeRead.readHandler lim c s.requestQueue result endpoint with
    | error what => simp [hread] at hstep
    | ok r =>
      rw [hread] at hstep
      cases hstep
      have hset := potential_setConnection (ha c rfl) r.1 (s := s)
      rcases readHandler_cases lim hread with ⟨rfl, hr, hq⟩ | ⟨request, rfl, ⟨hr, hq⟩ | ⟨ip, hr, hq⟩⟩
      · have hsame : r.1.stepsLeft = (s.connections c).stepsLeft := by
          rw [hr]
          rfl
        rw [hq]
        simp only [ownStep, readsRequest, Bool.false_eq_true, if_false]
        change potential S (s.setConnection c r.1) + 0 ≤ _
        omega
      · have hpost : r.1.stepsLeft = (s.connections c).stepsLeft + 2 := by
          rw [hr]
          exact stepsLeft_post ((s.connections c).takeRead.arrive request
            (some (overloadedResponse request.version))) _
        rw [hq]
        simp only [ownStep, readsRequest, Bool.false_eq_true, if_false, if_true]
        change potential S (s.setConnection c r.1) + 0 ≤ _
        omega
      · have hsame : r.1.stepsLeft = (s.connections c).stepsLeft := by
          rw [hr]
          rfl
        have hqueue := potential_push (S := S) (s.setConnection c r.1) hq
        simp only [ownStep, readsRequest, Bool.false_eq_true, if_false, if_true]
        omega
  | pop w =>
    rcases s.requestQueue.waitAndPop_cases lim with ⟨_, _, hq⟩ | ⟨_, _, hq⟩ | ⟨item, rest, hd, hq⟩
    · simp [RequestServer.step, hq] at hstep
    · simp [RequestServer.step, hq] at hstep
    · cases hw : s.workers w with
      | some task => simp [RequestServer.step, hw] at hstep
      | none =>
        simp only [RequestServer.step, hw, hq, Option.some.injEq] at hstep
        subst hstep
        have htotal := total_update taskWeight s.workers w (some item)
        rw [hw] at htotal
        simp only [taskWeight] at htotal
        simp only [potential, hd, List.length_cons, ownStep, readsRequest, if_true,
          Bool.false_eq_true, if_false]
        omega
  | finish w response =>
    cases hw : s.workers w with
    | none => simp [RequestServer.step, hw] at hstep
    | some held =>
      simp only [RequestServer.step, hw, Option.some.injEq] at hstep
      subst hstep
      have htotal := total_update taskWeight s.workers w none
      rw [hw] at htotal
      simp only [taskWeight] at htotal
      have hset := potential_setConnection (h.tasks held (.inr ⟨w, hw⟩))
        (((s.connections held.connection).answered held.arrival response).sendResponse response
          held.sequenceId) (s := s)
      have hpost := stepsLeft_post ((s.connections held.connection).answered held.arrival response)
        (.sendResponse response held.sequenceId)
      change (((s.connections held.connection).answered held.arrival response).sendResponse response
          held.sequenceId).stepsLeft = (s.connections held.connection).stepsLeft + 2 at hpost
      simp only [potential, setConnection_requestQueue, setConnection_workers, ownStep,
        readsRequest, if_true, Bool.false_eq_true, if_false] at hset ⊢
      omega
  | runPosted c i =>
    simp only [RequestServer.step] at hstep
    split at hstep
    · rename_i handler hrun hi
      cases hstep
      have hset := potential_setConnection (ha c rfl)
        (((s.connections c).takePosted i).deliver handler) (s := s)
      have hless := (h.inv.pump c).stepsLeft_deliver hi
      simp only [ownStep, readsRequest, if_true, Bool.false_eq_true, if_false]
      omega
    · cases hstep
  | writeDone c i ok =>
    simp only [RequestServer.step] at hstep
    split at hstep
    · rename_i response hrun hi
      cases hstep
      have hset := potential_setConnection (ha c rfl)
        (((s.connections c).takeWrite i).writeHandler response ok) (s := s)
      have hless := (h.inv.pump c).stepsLeft_writeHandler hi ok
      simp only [ownStep, readsRequest, if_true, Bool.false_eq_true, if_false]
      omega
    · cases hstep
  | stopContext =>
    cases hstep
    exact Nat.le_refl _
  | stopQueue =>
    simp only [RequestServer.step, ThreadSafeQueue.stop_eq] at hstep
    split_ifs at hstep
    cases hstep
    exact Nat.le_refl _

/-! ## Progress -/

omit [Fintype ω] in
/-- If no step of its own is left to a running server, there is nothing left to be done. -/
theorem Standstill.nothing_left [Nonempty ω] (h : s.Standstill lim) (hrunning : s.running = true) :
    s.requestQueue.dequeue = [] ∧ (∀ w, s.workers w = none) ∧
      ∀ c, (s.connections c).posted = [] ∧ (s.connections c).writes = [] := by
  have hworkers : ∀ w, s.workers w = none := by
    intro w
    cases hw : s.workers w with
    | none => rfl
    | some task =>
      have hstep := h (.finish w .fresh) rfl
      simp [step, hw] at hstep
  refine ⟨?_, hworkers, ?_⟩
  · obtain ⟨w⟩ := ‹Nonempty ω›
    rcases s.requestQueue.waitAndPop_cases lim with ⟨hd, -⟩ | ⟨hd, -⟩ | ⟨item, rest, -, hq⟩
    · exact hd
    · exact hd
    · have hstep := h (.pop w) rfl
      simp [step, hworkers w, hq] at hstep
  · intro c
    constructor
    · cases hposted : (s.connections c).posted with
      | nil => rfl
      | cons handler rest =>
        have hstep := h (.runPosted c 0) rfl
        simp [step, hrunning, hposted] at hstep
    · cases hwrites : (s.connections c).writes with
      | nil => rfl
      | cons response rest =>
        have hstep := h (.writeDone c 0 true) rfl
        simp [step, hrunning, hwrites] at hstep

theorem Inv.allWritten_of_standstill [Nonempty ω] (h : Inv s) (hstill : s.Standstill lim)
    (hrunning : s.running = true) {c : κ} (hopen : (s.connections c).closed = false) :
    (s.connections c).AllWritten := by
  obtain ⟨hqueue, hworkers, hconn⟩ := hstill.nothing_left hrunning
  obtain ⟨hposted, hwrites⟩ := hconn c
  have hpending : ∀ k, s.pending c k = 0 := by
    intro k
    simp [pending, hqueue, hworkers, occurrences_eq_zero]
  exact ⟨hwrites, ((h.ordered c).drained (h.pump c) hpending hposted hwrites hopen).2.2⟩

end RequestServer

end ServerSimple.Network
