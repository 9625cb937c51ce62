import ServerSimple.Library.Lists
import ServerSimple.ThreadSafe.QueueThreads

/-! # Producers, consumers and shutdown

Producers push at the back, consumers pop through `wait_and_pop`, and somebody may stop the queue.
The history of a run lists its critical sections in the order in which they hold the mutex, each
with the queue it found. Every accepted item is handed out exactly once and in order, and the first
`nullopt` marks the point after which nothing goes in or out.
-/

set_option linter.unusedSectionVars false

namespace ServerSimple.ThreadSafe

open Library

/-- One critical section as an observer with the mutex sees it. -/
structure Event (θ T : Type*) where
  thread : θ
  op : Op T
  queue : ThreadSafeQueue T
  result : Result T

namespace Event

variable {θ T : Type*}

/-- The item that this critical section puts at the back of the queue. -/
def accepted (e : Event θ T) : Option T :=
  match e.op, e.result with
  | .tryPushBack item, .flag true => some item
  | .pushBack item, _ => some item
  | _, _ => none

/-- The item that this critical section hands to a consumer. -/
def returned (e : Event θ T) : Option T :=
  match e.op, e.result with
  | .waitAndPop, .item x => some x
  | _, _ => none

end Event

namespace ThreadSafeQueue

variable {θ T : Type*} [QueueSizeTraits T] (lim : Limits)

/-- The events of a sequence of calls. -/
def history : ThreadSafeQueue T → List (θ × Op T) → List (Event θ T)
  | _, [] => []
  | q, (t, op) :: calls =>
    ⟨t, op, q, (exec lim q op).result⟩ :: history (exec lim q op).queue calls

/-- The calls that producers, consumers and the thread that shuts down make. -/
def WorkOp : Op T → Prop
  | .tryPushBack _ | .pushBack _ | .waitAndPop | .stop => True
  | _ => False

/-- No unchecked push comes after a `stop`. -/
def NoLatePush (calls : List (θ × Op T)) : Prop :=
  ∀ before t item after, calls = before ++ (t, .pushBack item) :: after →
    ∀ c ∈ before, c.2 ≠ .stop

variable (q : ThreadSafeQueue T)

/-- One critical section moves at most one item, from the back push to the front pop. -/
theorem exec_conserves {op : Op T} (hop : WorkOp op) (t : θ) :
    (Event.returned ⟨t, op, q, (exec lim q op).result⟩).toList ++ (exec lim q op).queue.dequeue =
      q.dequeue ++ (Event.accepted ⟨t, op, q, (exec lim q op).result⟩).toList := by
  cases op with
  | tryPushBack item =>
    obtain hp | ⟨-, hp⟩ := tryPush_cases lim q atBack item
    · simp [exec, tryPushBack, hp, tryPushOutcome, Event.returned, Event.accepted]
    · simp [exec, tryPushBack, hp, tryPushOutcome, Event.returned, Event.accepted, atBack]
  | pushBack item => simp [exec, pushBack, push_eq, Event.returned, Event.accepted, atBack]
  | waitAndPop =>
    obtain ⟨hd, -, hw⟩ | ⟨hd, -, hw⟩ | ⟨item, rest, hd, hw⟩ := waitAndPop_cases lim q
    · simp [exec, hw, hd, Event.returned, Event.accepted]
    · simp [exec, hw, hd, Event.returned, Event.accepted]
    · simp [exec, hw, hd, Event.returned, Event.accepted]
  | stop => simp [exec, stop_eq, Event.returned, Event.accepted]
  | _ => exact hop.elim

theorem history_conserves {calls : List (θ × Op T)} (hops : ∀ c ∈ calls, WorkOp c.2) :
    (history lim q calls).filterMap Event.returned ++
        (execAll lim q (calls.map Prod.snd)).dequeue =
      q.dequeue ++ (history lim q calls).filterMap Event.accepted := by
  induction calls generalizing q with
  | nil => simp [history, execAll]
  | cons c calls ih =>
    obtain ⟨t, op⟩ := c
    have hstep := exec_conserves lim q (hops (t, op) List.mem_cons_self) t
    have hrest := ih (exec lim q op).queue fun c hc => hops c (List.mem_cons_of_mem _ hc)
    simp only [history, filterMap_cons_toList]
    change _ ++ _ ++ (execAll lim (exec lim q op).queue (calls.map Prod.snd)).dequeue = _
    rw [List.append_assoc, hrest, ← List.append_assoc, hstep, List.append_assoc]

/-- Cutting a history at an event cuts the calls at the call it belongs to. -/
theorem history_split {calls : List (θ × Op T)} {first rest : List (Event θ T)} {e : Event θ T}
    (h : history lim q calls = first ++ e :: rest) :
    ∃ before after, calls = before ++ (e.thread, e.op) :: after ∧
      first = history lim q before ∧ e.queue = execAll lim q (before.map Prod.snd) ∧
      e.result = (exec lim e.queue e.op).result ∧
      rest = history lim (exec lim e.queue e.op).queue after := by
  induction calls generalizing q first with
  | nil => simp [history] at h
  | cons c calls ih =>
    obtain ⟨t, op⟩ := c
    cases first with
    | nil =>
      simp only [history, List.nil_append, List.cons.injEq] at h
      obtain ⟨rfl, rfl⟩ := h
      exact ⟨[], calls, rfl, rfl, rfl, rfl, rfl⟩
    | cons e₀ first =>
      simp only [history, List.cons_append, List.cons.injEq] at h
      obtain ⟨rfl, h⟩ := h
      obtain ⟨before, after, hcalls, hfirst, hqueue, hresult, hrest⟩ := ih _ h
      refine ⟨(t, op) :: before, after, ?_, ?_, hqueue, hresult, hrest⟩
      · rw [hcalls, List.cons_append]
      · rw [hfirst, history]

/-- Only `wait_and_pop` gives up, and only beside a queue that is stopped and empty. -/
theorem exec_nullopt {op : Op T} (h : (exec lim q op).result = .nullopt) :
    q.stopped = true ∧ q.dequeue = [] := by
  have hpop (r : Except String (T × ThreadSafeQueue T)) : (popOutcome q r).result ≠ .nullopt := by
    cases r <;> simp [popOutcome]
  cases op with
  | waitAndPop =>
    obtain ⟨hd, hs, hw⟩ | ⟨hd, hs, hw⟩ | ⟨item, rest, hd, hw⟩ := waitAndPop_cases lim q
    · simp [exec, hw] at h
    · exact ⟨hs, hd⟩
    · simp [exec, hw] at h
  | popFront | popBack | front | back => exact absurd h (hpop _)
  | _ => cases h

/-- A queue that is stopped and empty stays so while nobody pushes unchecked, and neither accepts
nor returns an item. -/
theorem exec_drained {op : Op T} (hop : WorkOp op) (hpush : ∀ item, op ≠ .pushBack item)
    (hs : q.stopped = true) (hd : q.dequeue = []) (t : θ) :
    (exec lim q op).queue = q ∧
    Event.accepted ⟨t, op, q, (exec lim q op).result⟩ = none ∧
    Event.returned ⟨t, op, q, (exec lim q op).result⟩ = none := by
  cases op with
  | tryPushBack item =>
    obtain hp | ⟨hrun, -⟩ := tryPush_cases lim q atBack item
    · simp [exec, tryPushBack, hp, tryPushOutcome, Event.returned, Event.accepted]
    · simp [hs] at hrun
  | pushBack item => exact absurd rfl (hpush item)
  | waitAndPop =>
    simp [exec, waitAndPop, hs, hd, Event.returned, Event.accepted]
  | stop =>
    obtain ⟨dequeue, stopped, currentBytes⟩ := q
    subst hs
    simp [exec, stop_eq, Event.returned, Event.accepted]
  | _ => exact hop.elim

theorem history_drained {calls : List (θ × Op T)} (hops : ∀ c ∈ calls, WorkOp c.2)
    (hpush : ∀ c ∈ calls, ∀ item, c.2 ≠ .pushBack item)
    (hs : q.stopped = true) (hd : q.dequeue = []) :
    ∀ e ∈ history lim q calls, e.accepted = none ∧ e.returned = none := by
  induction calls with
  | nil => simp [history]
  | cons c calls ih =>
    obtain ⟨t, op⟩ := c
    obtain ⟨hq, ha, hr⟩ := exec_drained lim q (hops (t, op) List.mem_cons_self)
      (hpush (t, op) List.mem_cons_self) hs hd t
    intro e he
    rw [history, hq, List.mem_cons] at he
    rcases he with rfl | he
    · exact ⟨ha, hr⟩
    · exact ih (fun c hc => hops c (List.mem_cons_of_mem _ hc))
        (fun c hc => hpush c (List.mem_cons_of_mem _ hc)) e he

/-- Among these calls only `stop` stops the queue. -/
theorem stop_of_stopped {calls : List (θ × Op T)} (hops : ∀ c ∈ calls, WorkOp c.2)
    (hs : (execAll lim q (calls.map Prod.snd)).stopped = true) :
    q.stopped = true ∨ ∃ c ∈ calls, c.2 = .stop := by
  induction calls generalizing q with
  | nil => exact .inl hs
  | cons c calls ih =>
    obtain ⟨t, op⟩ := c
    rcases ih _ (fun c hc => hops c (List.mem_cons_of_mem _ hc)) hs with hq | ⟨c, hc, hstop⟩
    · cases op with
      | tryPushBack item =>
        obtain hp | ⟨-, hp⟩ := tryPush_cases lim q atBack item <;>
          simp only [exec, tryPushBack, hp, tryPushOutcome] at hq <;> exact .inl hq
      | pushBack item =>
        simp only [exec, pushBack, push_eq] at hq
        exact .inl hq
      | waitAndPop =>
        obtain ⟨-, -, hw⟩ | ⟨-, -, hw⟩ | ⟨item, rest, -, hw⟩ := waitAndPop_cases lim q <;>
          simp only [exec, hw] at hq <;> exact .inl hq
      | stop => exact .inr ⟨_, List.mem_cons_self, rfl⟩
      | _ => exact (hops (t, _) List.mem_cons_self).elim
    · exact .inr ⟨c, List.mem_cons_of_mem _ hc, hstop⟩

end ThreadSafeQueue

open ThreadSafeQueue in
/-- No work is lost or duplicated, and shutdown drains the queue. Whatever the interleaving, the
items returned and then the items still queued are the accepted items in order; `nullopt` is only
returned by a stopped and empty queue; and before the first `nullopt` every accepted item has been
returned, while after it nothing is accepted or returned. -/
theorem Threads.work_conserved {θ T : Type*} [Fintype θ] [DecidableEq θ] [QueueSizeTraits T]
    (lim : Limits) (actions : List (Action θ T)) (s : Threads θ T)
    (hrun : run (step lim) .initial actions = some s)
    (hops : ∀ c ∈ criticals actions, WorkOp c.2) (hlate : NoLatePush (criticals actions)) :
    (history lim empty (criticals actions)).filterMap Event.returned ++ s.queue.dequeue =
      (history lim empty (criticals actions)).filterMap Event.accepted ∧
    (∀ e ∈ history lim empty (criticals actions), e.result = .nullopt →
      e.queue.stopped = true ∧ e.queue.dequeue = []) ∧
    ∀ first e rest, history lim empty (criticals actions) = first ++ e :: rest →
      e.result = .nullopt →
      first.filterMap Event.returned = first.filterMap Event.accepted ∧
      ∀ later ∈ rest, later.accepted = none ∧ later.returned = none := by
  have hdrained (first : List (Event θ T)) (e : Event θ T) (rest : List (Event θ T))
      (hcut : history lim empty (criticals actions) = first ++ e :: rest)
      (hnull : e.result = .nullopt) :
      (e.queue.stopped = true ∧ e.queue.dequeue = []) ∧
      first.filterMap Event.returned = first.filterMap Event.accepted ∧
      ∀ later ∈ rest, later.accepted = none ∧ later.returned = none := by
    obtain ⟨before, after, hcalls, hfirst, hqueue, hresult, hrest⟩ := history_split lim _ hcut
    rw [hresult] at hnull
    have hstate := exec_nullopt lim e.queue hnull
    have hbefore : ∀ c ∈ before, WorkOp c.2 := fun c hc => hops c (by simp [hcalls, hc])
    have hpair : ∀ c ∈ (e.thread, e.op) :: after, WorkOp c.2 := fun c hc =>
      hops c (by rw [hcalls]; exact List.mem_append_right before hc)
    refine ⟨hstate, ?_, ?_⟩
    · have h := history_conserves lim empty hbefore
      rw [← hfirst, ← hqueue, hstate.2, List.append_nil] at h
      exact h
    · -- the queue was stopped by a call before this event, so no unchecked push can follow it
      have hstopped := hstate.1
      rw [hqueue] at hstopped
      obtain hinit | ⟨c, hc, hstop⟩ := stop_of_stopped lim empty hbefore hstopped
      · cases hinit
      have hpush : ∀ d ∈ (e.thread, e.op) :: after, ∀ item, d.2 ≠ .pushBack item := by
        rintro ⟨t, op⟩ hd item rfl
        obtain ⟨left, right, hsplit⟩ := List.append_of_mem hd
        refine hlate (before ++ left) t item right ?_ c (List.mem_append_left left hc) hstop
        rw [hcalls, hsplit, List.append_assoc]
      rw [hrest]
      have hnext := (exec_drained lim e.queue (hpair _ List.mem_cons_self)
        (hpush _ List.mem_cons_self) hstate.1 hstate.2 e.thread).1
      rw [hnext]
      exact history_drained lim e.queue (fun d hd => hpair d (List.mem_cons_of_mem _ hd))
        (fun d hd => hpush d (List.mem_cons_of_mem _ hd)) hstate.1 hstate.2
  refine ⟨?_, ?_, fun first e rest hcut hnull => (hdrained first e rest hcut hnull).2⟩
  · rw [run_queue lim hrun]
    exact history_conserves lim empty hops
  · intro e he hnull
    obtain ⟨first, rest, hcut⟩ := List.append_of_mem he
    exact (hdrained first e rest hcut hnull).1

/-- One producer and one consumer, with the shutdown after the only item. -/
def shutdownRun : List (Action Bool Int) :=
  [.call true (.tryPushBack 7), .notifyOne true none, .call false .waitAndPop, .call true .stop,
    .notifyAll true, .call false .waitAndPop]

theorem Threads.work_conserved_shutdown :
    ∃ s : Threads Bool Int,
      run (@step Bool Int _ sizeofInt ⟨true, true, 2, 8⟩ _) .initial shutdownRun = some s ∧
      (@ThreadSafeQueue.history Bool Int sizeofInt ⟨true, true, 2, 8⟩ .empty
        (criticals shutdownRun)).filterMap Event.returned ++ s.queue.dequeue = [7] := by
  have hcriticals : criticals shutdownRun = [(true, .tryPushBack 7), (false, .waitAndPop),
    (true, .stop), (false, .waitAndPop)] := rfl
  refine ⟨_, rfl, ?_⟩
  refine (@Threads.work_conserved Bool Int _ _ sizeofInt ⟨true, true, 2, 8⟩ shutdownRun _ rfl
    ?_ ?_).1.trans (by decide)
  · intro c hc
    simp only [hcriticals, List.mem_cons, List.not_mem_nil, or_false] at hc
    rcases hc with rfl | rfl | rfl | rfl <;> trivial
  · intro before t item after hcalls
    have hmem : (t, Op.pushBack item) ∈ criticals shutdownRun := by
      rw [hcalls]
      simp
    simp [hcriticals] at hmem

end ServerSimple.ThreadSafe
