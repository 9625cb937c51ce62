import ServerSimple.Library.Potential
import ServerSimple.ThreadSafe.QueueWakeUps
import ServerSimple.ThreadSafe.QueueDelivery
import Mathlib.Data.Fintype.Sum
import Mathlib.Tactic.DeriveFintype

/-! # Starting and stopping a request server

The constructor starts the workers, `launch` starts the context thread, and any number of threads
may call `try_stop`: the owner, its destructor, a signal handler. Whoever finds `stopping` unset
goes through `request_server_base::stop`: it stops the context, joins the context thread, stops the
queue, and joins the workers in turn. All of that interleaves with handlers that push tasks and with
workers that sleep in `wait_and_pop`, wake up, and run `process_client_request`. The work guard keeps
`io_context::run` from returning before the context is stopped. The callers of `try_stop` are threads
outside the server: a thread that joins itself gets an exception.
-/

namespace ServerSimple.Network

open Library ThreadSafe

/-- The workers are numbered as in the vector `workers`; `κ` names the outside threads that may call
`try_stop`. -/
inductive ServerThread (n : ℕ) (κ : Type*) where
  | worker (w : Fin n)
  | context
  | caller (k : κ)
  deriving DecidableEq, Fintype

/-- Where a worker is in `worker_loop`. -/
inductive WorkerPhase (T : Type*) where
  /-- At the head of the loop, or inside `wait_and_pop`. -/
  | looping
  /-- In `process_client_request` and `send_response` for a task. -/
  | processing (task : T)
  /-- `worker_loop` has returned. -/
  | exited
  | joined

inductive ContextPhase where
  /-- `launch` has not been called: `context_thread` is not joinable. -/
  | notLaunched
  /-- In `io_context::run`, between two handlers. -/
  | polling
  /-- In a completion handler. -/
  | handling
  /-- `io_context::run` has returned. -/
  | exited
  | joined
  deriving DecidableEq

/-- Where a thread is in `try_stop`. -/
inductive StopPhase where
  | outside
  /-- Before `asio_context.stop()`. -/
  | stoppingContext
  | joiningContext
  /-- Before `request_queue.stop()`. -/
  | stoppingQueue
  /-- In the loop over `workers`, with the number of those joined so far. -/
  | joiningWorkers (i : ℕ)
  | returned
  deriving DecidableEq

/-- The threads of a request server and the shutdown protocol between them. The last two fields
record history: the tasks that the queue accepted and those that were processed. -/
structure ServerLife (n : ℕ) (κ T : Type*) where
  pool : Threads (ServerThread n κ) T
  workers : Fin n → WorkerPhase T
  contextThread : ContextPhase
  contextStopped : Bool
  stopping : Bool
  callers : κ → StopPhase
  accepted : List T
  processed : List T

inductive LifeAction (n : ℕ) (κ T : Type*) where
  | launch
  /-- A handler of the context thread reads a request and offers its task to the queue. -/
  | handle (task : T)
  | handlerDone
  | contextExit
  /-- A worker calls `wait_and_pop`. -/
  | take (w : Fin n)
  /-- A woken worker is back at the wait predicate. -/
  | recheck (w : Fin n)
  /-- `process_client_request` returns and the response is posted. -/
  | finish (w : Fin n)
  | notifyOne (t : ServerThread n κ) (sleeper : Option (ServerThread n κ))
  | notifyAll (t : ServerThread n κ)
  | spurious (t : ServerThread n κ)
  | tryStop (k : κ)
  | stopContext (k : κ)
  | joinContext (k : κ)
  | stopQueue (k : κ)
  /-- One turn of the loop over `workers`, or its end. -/
  | joinWorker (k : κ)

namespace ServerLife

variable {n : ℕ} {κ T : Type*}

/-- The server as its constructor leaves it: the workers run, nothing is launched. -/
def constructed : ServerLife n κ T :=
  ⟨.initial, fun _ => .looping, .notLaunched, false, false, fun _ => .outside, [], []⟩

/-- What the loop of a worker does with the result of `wait_and_pop`. -/
def afterWait : Result T → WorkerPhase T
  | .item task => .processing task
  | .nullopt => .exited
  | _ => .looping

variable [DecidableEq κ] [Fintype κ] [QueueSizeTraits T] (lim : Limits)

/-- A step of the queue and of the threads inside it, and of nothing else. -/
def poolStep (s : ServerLife n κ T) (a : Action (ServerThread n κ) T) :
    Option (ServerLife n κ T) :=
  (s.pool.step lim a).map fun pool => { s with pool := pool }

/-- A worker goes through the critical section of `wait_and_pop`, on entry or after a wake-up. -/
def waitStep (s : ServerLife n κ T) (w : Fin n) (a : Action (ServerThread n κ) T) :
    Option (ServerLife n κ T) :=
  match s.workers w with
  | .looping =>
    (s.pool.step lim a).map fun pool =>
      { s with
        pool := pool
        workers := Function.update s.workers w (afterWait (s.pool.queue.waitAndPop lim).result) }
  | _ => none

def setCaller (s : ServerLife n κ T) (k : κ) (p : StopPhase) : ServerLife n κ T :=
  { s with callers := Function.update s.callers k p }

/-- Whether `joinContext` finds the context thread finished, or finds none. -/
def joinContext (s : ServerLife n κ T) : Option ContextPhase :=
  match s.contextThread with
  | .notLaunched => some .notLaunched
  | .exited | .joined => some .joined
  | .polling | .handling => none

/-- One turn of the loop over `workers` with the index `i`. -/
def joinWorker (s : ServerLife n κ T) (k : κ) (i : ℕ) : Option (ServerLife n κ T) :=
  if h : i < n then
    match s.workers ⟨i, h⟩ with
    | .looping | .processing _ => none
    | .exited | .joined =>
      some { s.setCaller k (.joiningWorkers (i + 1)) with
        workers := Function.update s.workers ⟨i, h⟩ .joined }
  else some (s.setCaller k .returned)

def step (s : ServerLife n κ T) : LifeAction n κ T → Option (ServerLife n κ T)
  | .launch =>
    if s.contextThread = .notLaunched then some { s with contextThread := .polling } else none
  | .handle task =>
    if s.contextThread = .polling ∧ s.contextStopped = false then
      (s.pool.step lim (.call .context (.tryPushBack task))).map fun pool =>
        { s with
          pool := pool
          contextThread := .handling
          accepted :=
            if (s.pool.queue.tryPushBack lim task).1 then s.accepted ++ [task] else s.accepted }
    else none
  | .handlerDone =>
    if s.contextThread = .handling ∧ s.pool.phase .context = .idle then
      some { s with contextThread := .polling }
    else none
  | .contextExit =>
    if s.contextThread = .polling ∧ s.contextStopped = true then
      some { s with contextThread := .exited }
    else none
  | .take w => s.waitStep lim w (.call (.worker w) .waitAndPop)
  | .recheck w => s.waitStep lim w (.recheck (.worker w))
  | .finish w =>
    match s.workers w with
    | .processing task =>
      some { s with
        workers := Function.update s.workers w .looping
        processed := s.processed ++ [task] }
    | _ => none
  | .notifyOne t sleeper => s.poolStep lim (.notifyOne t sleeper)
  | .notifyAll t => s.poolStep lim (.notifyAll t)
  | .spurious t => s.poolStep lim (.spurious t)
  | .tryStop k =>
    if s.callers k = .outside then
      -- `stopping.exchange(true)`: everybody but the first returns at once
      if s.stopping then some s else some { s.setCaller k .stoppingContext with stopping := true }
    else none
  | .stopContext k =>
    if s.callers k = .stoppingContext then
      some { s.setCaller k .joiningContext with contextStopped := true }
    else none
  | .joinContext k =>
    if s.callers k = .joiningContext then
      s.joinContext.map fun phase =>
        { s.setCaller k .stoppingQueue with contextThread := phase }
    else none
  | .stopQueue k =>
    if s.callers k = .stoppingQueue then
      (s.setCaller k (.joiningWorkers 0)).poolStep lim (.call (.caller k) .stop)
    else none
  | .joinWorker k =>
    match s.callers k with
    | .joiningWorkers i => if s.pool.phase (.caller k) = .idle then s.joinWorker k i else none
    | _ => none

/-! ## What one step can do -/

variable {lim} {s u : ServerLife n κ T}

/-- A worker falls asleep beside an empty queue, leaves its loop beside an empty stopped one, or
takes the first task. -/
theorem waitStep_cases {w : Fin n} {a : Action (ServerThread n κ) T}
    (ha : a = .call (.worker w) .waitAndPop ∨ a = .recheck (.worker w))
    (h : s.waitStep lim w a = some u) :
    s.workers w = .looping ∧
    (s.pool.phase (.worker w) = .idle ∨ s.pool.phase (.worker w) = .woken) ∧
    ((s.pool.queue.stopped = false ∧ s.pool.queue.dequeue = [] ∧
        u = { s with
          pool := ⟨s.pool.queue, Function.update s.pool.phase (.worker w) .blocked⟩ }) ∨
      (s.pool.queue.stopped = true ∧ s.pool.queue.dequeue = [] ∧
        u = { s with
          pool := ⟨s.pool.queue, Function.update s.pool.phase (.worker w) .idle⟩
          workers := Function.update s.workers w .exited }) ∨
      ∃ task rest bytes, s.pool.queue.dequeue = task :: rest ∧
        u = { s with
          pool := ⟨⟨rest, s.pool.queue.stopped, bytes⟩,
            Function.update s.pool.phase (.worker w) .idle⟩
          workers := Function.update s.workers w (.processing task) }) := by
  have hphase : s.workers w = .looping ∧
      (s.pool.phase (.worker w) = .idle ∨ s.pool.phase (.worker w) = .woken) ∧
      u = { s with
        pool := s.pool.enter lim (.worker w) .waitAndPop
        workers := Function.update s.workers w
          (afterWait (s.pool.queue.waitAndPop lim).result) } := by
    unfold waitStep at h
    cases hw : s.workers w with
    | looping =>
      simp only [hw, Option.map_eq_some_iff] at h
      obtain ⟨pool, hpool, rfl⟩ := h
      rcases ha with rfl | rfl <;>
        simp only [Threads.step, Option.ite_none_right_eq_some, Option.some.injEq] at hpool
      · exact ⟨rfl, .inl hpool.1, by rw [hpool.2]⟩
      · exact ⟨rfl, .inr hpool.1, by rw [hpool.2]⟩
    | processing task | exited | joined => simp [hw] at h
  obtain ⟨hw, hidle, rfl⟩ := hphase
  refine ⟨hw, hidle, ?_⟩
  unfold Threads.enter
  simp only [ThreadSafeQueue.exec]
  obtain ⟨hd, hs, hq⟩ | ⟨hd, hs, hq⟩ | ⟨task, rest, hd, hq⟩ :=
    ThreadSafeQueue.waitAndPop_cases lim s.pool.queue
  · refine .inl ⟨hs, hd, ?_⟩
    rw [hq]
    simp only [afterWait, Outcome.phase]
    rw [← hw, Function.update_eq_self]
  · refine .inr (.inl ⟨hs, hd, ?_⟩)
    rw [hq]
    rfl
  · refine .inr (.inr ⟨task, rest,
      s.pool.queue.currentBytes - ThreadSafeQueue.countedBytes lim task, hd, ?_⟩)
    rw [hq]
    rfl

/-- A handler starts only while the context runs. The queue takes its task and owes a notification,
or refuses it. -/
theorem handle_cases {task : T} (h : s.step lim (.handle task) = some u) :
    s.contextThread = .polling ∧ s.contextStopped = false ∧ s.pool.phase .context = .idle ∧
    (u = { s with contextThread := .handling } ∨
      s.pool.queue.stopped = false ∧ ∃ bytes,
        u = { s with
          pool := ⟨⟨s.pool.queue.dequeue ++ [task], false, bytes⟩,
            Function.update s.pool.phase .context .notifyingOne⟩
          contextThread := .handling
          accepted := s.accepted ++ [task] }) := by
  simp only [step, Option.ite_none_right_eq_some, Option.map_eq_some_iff] at h
  obtain ⟨⟨hctx, hrunning⟩, pool, hpool, rfl⟩ := h
  simp only [Threads.step, Option.ite_none_right_eq_some, Option.some.injEq] at hpool
  obtain ⟨hidle, rfl⟩ := hpool
  refine ⟨hctx, hrunning, hidle, ?_⟩
  simp only [Threads.enter, ThreadSafeQueue.exec, ThreadSafeQueue.tryPushOutcome,
    ThreadSafeQueue.tryPushBack]
  rcases ThreadSafeQueue.tryPush_cases lim s.pool.queue ThreadSafeQueue.atBack task with
    hpush | ⟨hrun, hpush⟩
  · left
    simp only [hpush, Outcome.phase, Bool.false_eq_true, if_false]
    rw [← hidle, Function.update_eq_self]
  · right
    refine ⟨hrun, s.pool.queue.currentBytes + ThreadSafeQueue.countedBytes lim task, ?_⟩
    simp only [hpush, Outcome.phase, if_true]
    rw [hrun]
    rfl

/-- A notification or a wake-up without one moves threads between phases and leaves the queue. -/
theorem poolStep_cases {a : Action (ServerThread n κ) T} (h : s.poolStep lim a = some u) :
    ∃ pool, s.pool.step lim a = some pool ∧ u = { s with pool := pool } := by
  unfold poolStep at h
  rw [Option.map_eq_some_iff] at h
  obtain ⟨pool, hpool, rfl⟩ := h
  exact ⟨pool, hpool, rfl⟩

theorem tryStop_cases {k : κ} (h : s.step lim (.tryStop k) = some u) :
    s.callers k = .outside ∧ (s.stopping = true ∧ u = s ∨
      s.stopping = false ∧ u = { s.setCaller k .stoppingContext with stopping := true }) := by
  simp only [step] at h
  split_ifs at h with hk hstop
  · exact ⟨hk, .inl ⟨hstop, (Option.some.inj h).symm⟩⟩
  · exact ⟨hk, .inr ⟨by simpa using hstop, (Option.some.inj h).symm⟩⟩

theorem joinContext_cases {k : κ} (h : s.step lim (.joinContext k) = some u) :
    s.callers k = .joiningContext ∧ ∃ phase,
      (phase = .notLaunched ∧ s.contextThread = .notLaunched ∨
        phase = .joined ∧ (s.contextThread = .exited ∨ s.contextThread = .joined)) ∧
      u = { s.setCaller k .stoppingQueue with contextThread := phase } := by
  simp only [step, Option.ite_none_right_eq_some, Option.map_eq_some_iff] at h
  obtain ⟨hk, phase, hphase, rfl⟩ := h
  refine ⟨hk, phase, ?_, rfl⟩
  unfold joinContext at hphase
  cases hc : s.contextThread <;> simp [hc] at hphase <;> simp [← hphase]

theorem stopQueue_cases {k : κ} (h : s.step lim (.stopQueue k) = some u) :
    s.callers k = .stoppingQueue ∧ s.pool.phase (.caller k) = .idle ∧
      u = { s.setCaller k (.joiningWorkers 0) with
        pool := ⟨{ s.pool.queue with stopped := true },
          Function.update s.pool.phase (.caller k)
            (if s.pool.queue.stopped then .idle else .notifyingAll)⟩ } := by
  simp only [step, Option.ite_none_right_eq_some] at h
  obtain ⟨hk, hpool⟩ := h
  obtain ⟨pool, hstep, rfl⟩ := poolStep_cases hpool
  simp only [Threads.step, Option.ite_none_right_eq_some, Option.some.injEq] at hstep
  obtain ⟨hidle, rfl⟩ := hstep
  refine ⟨hk, hidle, ?_⟩
  simp only [setCaller, Threads.enter, ThreadSafeQueue.exec, ThreadSafeQueue.stop_eq]
  cases s.pool.queue.stopped <;> rfl

theorem joinWorker_cases {k : κ} (h : s.step lim (.joinWorker k) = some u) :
    ∃ i, s.callers k = .joiningWorkers i ∧ s.pool.phase (.caller k) = .idle ∧
      ((n ≤ i ∧ u = s.setCaller k .returned) ∨
        ∃ hi : i < n, (s.workers ⟨i, hi⟩ = .exited ∨ s.workers ⟨i, hi⟩ = .joined) ∧
          u = { s.setCaller k (.joiningWorkers (i + 1)) with
            workers := Function.update s.workers ⟨i, hi⟩ .joined }) := by
  simp only [step] at h
  cases hk : s.callers k with
  | joiningWorkers i =>
    simp only [hk, Option.ite_none_right_eq_some] at h
    obtain ⟨hidle, hjoin⟩ := h
    refine ⟨i, rfl, hidle, ?_⟩
    unfold joinWorker at hjoin
    split_ifs at hjoin with hi
    · right
      refine ⟨hi, ?_⟩
      cases hw : s.workers ⟨i, hi⟩ with
      | looping | processing task => simp [hw] at hjoin
      | exited =>
        simp only [hw, Option.some.injEq] at hjoin
        exact ⟨.inl rfl, hjoin.symm⟩
      | joined =>
        simp only [hw, Option.some.injEq] at hjoin
        exact ⟨.inr rfl, hjoin.symm⟩
    · exact .inl ⟨by omega, (Option.some.inj hjoin).symm⟩
  | outside | stoppingContext | joiningContext | stoppingQueue | returned => simp [hk] at h

theorem finish_cases {w : Fin n} (h : s.step lim (.finish w) = some u) :
    ∃ task, s.workers w = .processing task ∧
      u = { s with
        workers := Function.update s.workers w .looping
        processed := s.processed ++ [task] } := by
  simp only [step] at h
  cases hw : s.workers w with
  | processing task =>
    simp only [hw, Option.some.injEq] at h
    exact ⟨task, rfl, h.symm⟩
  | looping | exited | joined => simp [hw] at h

end ServerLife
end ServerSimple.Network
