import ServerSimple.Network.HttpConnection
import ServerSimple.Network.ServerShutdown

/-! # What holds once the server has stopped

The invariant says what each thread in `try_stop` has brought about: nothing is pushed once the
context thread is joined, workers leave their loop only beside an empty stopped queue, and the
threads that are joined stay so. When `stop` has returned, every accepted task has been processed.
-/

namespace ServerSimple.Network.ServerLife

open Library ThreadSafe

variable {n : ℕ} {κ T : Type*}

/-- What a thread in `try_stop` has brought about. -/
def Reached (s : ServerLife n κ T) : StopPhase → Prop
  | .outside => True
  | .stoppingContext => s.stopping = true
  | .joiningContext => s.stopping = true ∧ s.contextStopped = true
  | .stoppingQueue => s.stopping = true ∧ s.contextStopped = true ∧ s.contextThread ≠ .handling
  | .joiningWorkers i =>
    s.stopping = true ∧ s.contextStopped = true ∧ s.contextThread ≠ .handling ∧
      s.pool.queue.stopped = true ∧ ∀ w : Fin n, w.val < i → s.workers w = .joined
  | .returned =>
    s.stopping = true ∧ s.contextStopped = true ∧ s.contextThread ≠ .handling ∧
      s.pool.queue.stopped = true ∧ ∀ w, s.workers w = .joined

/-- Where the threads of the server can be. -/
structure Orderly (s : ServerLife n κ T) : Prop where
  oneStopper : ∀ k k', s.callers k ≠ .outside → s.callers k' ≠ .outside → k = k'
  reached : ∀ k, s.Reached (s.callers k)
  drained : ∀ w, s.workers w = .exited ∨ s.workers w = .joined →
    s.pool.queue.stopped = true ∧ s.pool.queue.dequeue = []
  workerPhase : ∀ w, s.pool.phase (.worker w) = .idle ∨
    s.workers w = .looping ∧
      (s.pool.phase (.worker w) = .blocked ∨ s.pool.phase (.worker w) = .woken)
  contextPhase : s.pool.phase .context = .idle ∨
    s.pool.phase .context = .notifyingOne ∧ s.contextThread = .handling
  callerPhase : ∀ k, s.pool.phase (.caller k) = .idle ∨
    s.pool.phase (.caller k) = .notifyingAll ∧ ∃ i, s.callers k = .joiningWorkers i

theorem orderly_constructed : Orderly (constructed : ServerLife n κ T) where
  oneStopper _ _ h := absurd rfl h
  reached _ := trivial
  drained _ h := by simp [constructed] at h
  workerPhase _ := .inl rfl
  contextPhase := .inl rfl
  callerPhase _ := .inl rfl

variable {s u : ServerLife n κ T}

/-- What a thread has brought about stays, unless the context thread takes up a handler or a joined
worker comes back. -/
theorem Reached.mono {p : StopPhase} (h : s.Reached p) (hstop : s.stopping = true → u.stopping = true)
    (hctx : s.contextStopped = true → u.contextStopped = true)
    (hhandler : s.contextStopped = true → s.contextThread ≠ .handling →
      u.contextThread ≠ .handling)
    (hqueue : s.pool.queue.stopped = true → u.pool.queue.stopped = true)
    (hworkers : ∀ w, s.workers w = .joined → u.workers w = .joined) : u.Reached p := by
  cases p with
  | outside => trivial
  | stoppingContext => exact hstop h
  | joiningContext => exact ⟨hstop h.1, hctx h.2⟩
  | stoppingQueue => exact ⟨hstop h.1, hctx h.2.1, hhandler h.2.1 h.2.2⟩
  | joiningWorkers i =>
    obtain ⟨h₁, h₂, h₃, h₄, h₅⟩ := h
    exact ⟨hstop h₁, hctx h₂, hhandler h₂ h₃, hqueue h₄, fun w hw => hworkers w (h₅ w hw)⟩
  | returned =>
    obtain ⟨h₁, h₂, h₃, h₄, h₅⟩ := h
    exact ⟨hstop h₁, hctx h₂, hhandler h₂ h₃, hqueue h₄, fun w => hworkers w (h₅ w)⟩

theorem Reached.stopping {p : StopPhase} (h : s.Reached p) (hp : p ≠ .outside) :
    s.stopping = true := by
  cases p with
  | outside => exact absurd rfl hp
  | stoppingContext => exact h
  | joiningContext | stoppingQueue | joiningWorkers i | returned => exact h.1

variable [DecidableEq κ] [Fintype κ] [QueueSizeTraits T] {lim : Limits}

/-- Every step is one of the threads inside the queue, or leaves them alone. -/
theorem step_pool {a : LifeAction n κ T} (h : s.step lim a = some u) :
    u.pool = s.pool ∨ ∃ b, s.pool.step lim b = some u.pool ∧ s.pool.WakesReplaced lim b := by
  cases a with
  | launch | handlerDone | contextExit | stopContext k =>
    simp only [step, Option.ite_none_right_eq_some, Option.some.injEq] at h
    rw [← h.2]
    exact .inl rfl
  | handle task =>
    simp only [step, Option.ite_none_right_eq_some, Option.map_eq_some_iff] at h
    obtain ⟨-, pool, hpool, rfl⟩ := h
    exact .inr ⟨_, hpool, trivial⟩
  | take w | recheck w =>
    simp only [step, waitStep] at h
    cases hw : s.workers w with
    | looping =>
      simp only [hw, Option.map_eq_some_iff] at h
      obtain ⟨pool, hpool, rfl⟩ := h
      exact .inr ⟨_, hpool, trivial⟩
    | processing task | exited | joined => simp [hw] at h
  | finish w =>
    obtain ⟨task, -, rfl⟩ := finish_cases h
    exact .inl rfl
  | notifyOne t sleeper | notifyAll t | spurious t =>
    obtain ⟨pool, hpool, rfl⟩ := poolStep_cases h
    exact .inr ⟨_, hpool, trivial⟩
  | tryStop k =>
    obtain ⟨-, ⟨-, rfl⟩ | ⟨-, rfl⟩⟩ := tryStop_cases h <;> exact .inl rfl
  | joinContext k =>
    obtain ⟨-, phase, -, rfl⟩ := joinContext_cases h
    exact .inl rfl
  | stopQueue k =>
    simp only [step, Option.ite_none_right_eq_some] at h
    obtain ⟨pool, hpool, rfl⟩ := poolStep_cases h.2
    exact .inr ⟨_, hpool, trivial⟩
  | joinWorker k =>
    obtain ⟨i, -, -, ⟨-, rfl⟩ | ⟨hi, -, rfl⟩⟩ := joinWorker_cases h <;> exact .inl rfl

theorem step_covered {a : LifeAction n κ T} (hs : s.pool.Covered) (h : s.step lim a = some u) :
    u.pool.Covered := by
  obtain hpool | ⟨b, hstep, hgood⟩ := step_pool h
  · rw [hpool]
    exact hs
  · exact Threads.step_covered hs hgood hstep

omit [Fintype κ] [QueueSizeTraits T] in
/-- A thread that waits in `try_stop` stays the only one when it moves on. -/
theorem Orderly.setCaller (h : Orderly s) {k : κ} {p : StopPhase} (hk : s.callers k ≠ .outside)
    {u : ServerLife n κ T} (hcallers : u.callers = Function.update s.callers k p) :
    (∀ j j', u.callers j ≠ .outside → u.callers j' ≠ .outside → j = j') ∧
      ∀ j, j ≠ k → u.callers j = .outside := by
  have hother : ∀ j, j ≠ k → s.callers j = .outside := fun j hj => by
    by_contra hout
    exact hj (h.oneStopper j k hout hk)
  have hafter : ∀ j, j ≠ k → u.callers j = .outside := fun j hj => by
    rw [hcallers, Function.update_of_ne hj, hother j hj]
  refine ⟨fun j j' hj hj' => ?_, hafter⟩
  rw [not_imp_comm.mp (hafter j) hj, not_imp_comm.mp (hafter j') hj']

theorem orderly_wait {w : Fin n} {a : Action (ServerThread n κ) T} (hs : Orderly s)
    (ha : a = .call (.worker w) .waitAndPop ∨ a = .recheck (.worker w))
    (h : s.waitStep lim w a = some u) : Orderly u := by
  obtain ⟨hw, hphase, ⟨hrun, hempty, rfl⟩ | ⟨hstop, hempty, rfl⟩ | ⟨task, rest, bytes, hd, rfl⟩⟩ :=
    waitStep_cases ha h
  · have hne : ∀ w', ServerThread.worker w' ≠ (ServerThread.worker w : ServerThread n κ) ↔ w' ≠ w :=
      fun w' => by simp
    exact {
      oneStopper := hs.oneStopper
      reached := hs.reached
      drained := hs.drained
      workerPhase := by
        intro w'
        have := hs.workerPhase w'
        grind
      contextPhase := by simpa using hs.contextPhase
      callerPhase := by simpa using hs.callerPhase }
  · exact {
      oneStopper := hs.oneStopper
      reached := fun k => (hs.reached k).mono id id (fun _ => id) id fun w' hw' => by grind
      drained := fun _ _ => ⟨hstop, hempty⟩
      workerPhase := by
        intro w'
        have := hs.workerPhase w'
        grind
      contextPhase := by simpa using hs.contextPhase
      callerPhase := by simpa using hs.callerPhase }
  · exact {
      oneStopper := hs.oneStopper
      reached := fun k => (hs.reached k).mono id id (fun _ => id) id fun w' hw' => by grind
      drained := by
        intro w' hw'
        have := hs.drained w'
        grind
      workerPhase := by
        intro w'
        have := hs.workerPhase w'
        grind
      contextPhase := by simpa using hs.contextPhase
      callerPhase := by simpa using hs.callerPhase }

theorem orderly_handle {task : T} (hs : Orderly s) (h : s.step lim (.handle task) = some u) :
    Orderly u := by
  obtain ⟨hctx, hrunning, hidle, rfl | ⟨hrun, bytes, rfl⟩⟩ := handle_cases h
  · exact {
      oneStopper := hs.oneStopper
      reached := fun k => (hs.reached k).mono id id (fun hstop => by simp [hrunning] at hstop) id
        fun _ => id
      drained := hs.drained
      workerPhase := hs.workerPhase
      contextPhase := .inl hidle
      callerPhase := hs.callerPhase }
  · exact {
      oneStopper := hs.oneStopper
      reached := fun k => (hs.reached k).mono id id (fun hstop => by simp [hrunning] at hstop)
        (fun hstop => by simp [hrun] at hstop) fun _ => id
      drained := fun w hw => by simp [(hs.drained w hw).1] at hrun
      workerPhase := by simpa using hs.workerPhase
      contextPhase := .inr (by simp)
      callerPhase := by simpa using hs.callerPhase }

/-- Notifications and wake-ups leave the queue; a thread that notified is done with it, and a
sleeper that changes its phase is woken. -/
theorem notify_phases {θ : Type*} [Fintype θ] [DecidableEq θ] {s u : Threads θ T}
    {a : Action θ T} (ha : Threads.Action.critical a = none) (h : s.step lim a = some u) :
    u.queue = s.queue ∧ ∀ v, u.phase v = s.phase v ∨
      (u.phase v = .idle ∧ (s.phase v = .notifyingOne ∨ s.phase v = .notifyingAll)) ∨
      (u.phase v = .woken ∧ s.phase v = .blocked) := by
  cases a with
  | call t op | recheck t => simp [Threads.Action.critical] at ha
  | notifyOne t sleeper =>
    cases sleeper with
    | none =>
      simp only [Threads.step, Option.ite_none_right_eq_some, Option.some.injEq] at h
      obtain ⟨⟨ht, -⟩, rfl⟩ := h
      refine ⟨rfl, fun v => ?_⟩
      by_cases hv : v = t
      · subst hv
        exact .inr (.inl ⟨Function.update_self .., .inl ht⟩)
      · exact .inl (Function.update_of_ne hv ..)
    | some w =>
      simp only [Threads.step, Option.ite_none_right_eq_some, Option.some.injEq] at h
      obtain ⟨⟨ht, hw⟩, rfl⟩ := h
      refine ⟨rfl, fun v => ?_⟩
      by_cases hv : v = t
      · subst hv
        exact .inr (.inl ⟨Function.update_self .., .inl ht⟩)
      · by_cases hvw : v = w
        · subst hvw
          exact .inr (.inr ⟨by simp [hv], hw⟩)
        · exact .inl (by simp [hv, hvw])
  | notifyAll t =>
    simp only [Threads.step, Option.ite_none_right_eq_some, Option.some.injEq] at h
    obtain ⟨ht, rfl⟩ := h
    refine ⟨rfl, fun v => ?_⟩
    by_cases hv : v = t
    · subst hv
      exact .inr (.inl ⟨if_pos rfl, .inr ht⟩)
    · by_cases hsleep : s.phase v = .blocked
      · exact .inr (.inr ⟨by simp [hv, hsleep], hsleep⟩)
      · exact .inl (by simp [hv, hsleep])
  | spurious t =>
    simp only [Threads.step, Option.ite_none_right_eq_some, Option.some.injEq] at h
    obtain ⟨ht, rfl⟩ := h
    refine ⟨rfl, fun v => ?_⟩
    by_cases hv : v = t
    · subst hv
      exact .inr (.inr ⟨Function.update_self .., ht⟩)
    · exact .inl (Function.update_of_ne hv ..)

theorem orderly_notify {a : Action (ServerThread n κ) T} (hs : Orderly s)
    (ha : Threads.Action.critical a = none) (h : s.poolStep lim a = some u) : Orderly u := by
  obtain ⟨pool, hpool, rfl⟩ := poolStep_cases h
  obtain ⟨hqueue, hphases⟩ := notify_phases ha hpool
  exact {
    oneStopper := hs.oneStopper
    reached := fun k => (hs.reached k).mono id id (fun _ => id)
      (fun hstop => by rw [← hstop, ← hqueue]) fun _ => id
    drained := by
      rw [hqueue]
      exact hs.drained
    workerPhase := by
      intro w
      have := hphases (.worker w)
      have := hs.workerPhase w
      grind
    contextPhase := by
      have := hphases .context
      have := hs.contextPhase
      grind
    callerPhase := by
      intro k
      have := hphases (.caller k)
      have := hs.callerPhase k
      grind }

omit [Fintype κ] [QueueSizeTraits T] in
/-- A step of the thread in `try_stop` keeps the order of things if it reaches its next phase. -/
theorem orderly_caller (hs : Orderly s) {k : κ} {p : StopPhase} (hk : s.callers k ≠ .outside)
    (hcallers : u.callers = Function.update s.callers k p) (hreached : u.Reached p)
    (hdrained : ∀ w, u.workers w = .exited ∨ u.workers w = .joined →
      u.pool.queue.stopped = true ∧ u.pool.queue.dequeue = [])
    (hworkers : ∀ w, u.workers w = s.workers w ∨ s.workers w ≠ .looping)
    (hphase : ∀ w, u.pool.phase (.worker w) = s.pool.phase (.worker w))
    (hctx : u.pool.phase .context = s.pool.phase .context)
    (hthread : s.contextThread = .handling → u.contextThread = .handling)
    (hcaller : ∀ j, u.pool.phase (.caller j) = .idle ∨
      u.pool.phase (.caller j) = .notifyingAll ∧ ∃ i, u.callers j = .joiningWorkers i) :
    Orderly u := by
  obtain ⟨hone, hother⟩ := hs.setCaller hk hcallers
  exact {
    oneStopper := hone
    reached := by
      intro j
      by_cases hj : j = k
      · rw [hj, hcallers, Function.update_self]
        exact hreached
      · rw [hother j hj]
        trivial
    drained := hdrained
    workerPhase := by
      intro w
      have := hs.workerPhase w
      have := hphase w
      have := hworkers w
      grind
    contextPhase := by
      rw [hctx]
      exact hs.contextPhase.imp_right fun h => ⟨h.1, hthread h.2⟩
    callerPhase := hcaller }

theorem orderly_tryStop {k : κ} (hs : Orderly s) (h : s.step lim (.tryStop k) = some u) :
    Orderly u := by
  obtain ⟨hk, ⟨-, rfl⟩ | ⟨hfirst, rfl⟩⟩ := tryStop_cases h
  · exact hs
  -- nobody has found `stopping` unset before
  have hout : ∀ j, s.callers j = .outside := fun j => by
    by_contra hj
    simp [(hs.reached j).stopping hj] at hfirst
  exact {
    oneStopper := by
      have : ∀ j, Function.update s.callers k .stoppingContext j ≠ .outside → j = k :=
        fun j hj => by
          by_contra hne
          exact hj (by rw [Function.update_of_ne hne, hout j])
      exact fun j j' hj hj' => (this j hj).trans (this j' hj').symm
    reached := by
      intro j
      by_cases hj : j = k
      · simp [setCaller, hj, Reached]
      · simp [setCaller, hj, hout j, Reached]
    drained := hs.drained
    workerPhase := hs.workerPhase
    contextPhase := hs.contextPhase
    callerPhase := by
      intro j
      rcases hs.callerPhase j with hidle | ⟨-, i, hi⟩
      · exact .inl hidle
      · rw [hout j] at hi
        cases hi }

theorem orderly_stopQueue {k : κ} (hs : Orderly s) (h : s.step lim (.stopQueue k) = some u) :
    Orderly u := by
  obtain ⟨hk, hidle, rfl⟩ := stopQueue_cases h
  have hreached := hs.reached k
  rw [hk] at hreached
  obtain ⟨hstopping, hstopped, hhandler⟩ := hreached
  have hcall : s.callers k ≠ .outside := by simp [hk]
  refine orderly_caller hs hcall rfl ?_ ?_ (fun _ => .inl rfl) ?_ ?_ (fun h => h) ?_
  · exact ⟨hstopping, hstopped, hhandler, rfl, fun w hw => absurd hw (Nat.not_lt_zero _)⟩
  · exact fun w hw => ⟨rfl, (hs.drained w hw).2⟩
  · intro w
    simp
  · simp
  · intro j
    by_cases hj : j = k
    · subst hj
      by_cases hqueue : s.pool.queue.stopped = true
      · simp [hqueue]
      · simp [hqueue, setCaller]
    · have := hs.callerPhase j
      simp only [setCaller]
      grind

theorem orderly_joinWorker {k : κ} (hs : Orderly s) (h : s.step lim (.joinWorker k) = some u) :
    Orderly u := by
  obtain ⟨i, hk, hidle, hjoin⟩ := joinWorker_cases h
  have hreached := hs.reached k
  rw [hk] at hreached
  obtain ⟨hstopping, hstopped, hhandler, hqueue, hjoined⟩ := hreached
  have hcall : s.callers k ≠ .outside := by simp [hk]
  obtain ⟨hlast, rfl⟩ | ⟨hi, hw, rfl⟩ := hjoin
  · refine orderly_caller hs hcall rfl ?_ hs.drained (fun _ => .inl rfl) (fun _ => rfl) rfl
      (fun h => h) ?_
    · exact ⟨hstopping, hstopped, hhandler, hqueue, fun w => hjoined w (w.isLt.trans_le hlast)⟩
    · intro j
      have := hs.callerPhase j
      simp only [setCaller]
      grind
  · refine orderly_caller hs hcall rfl ?_ ?_ ?_ (fun _ => rfl) rfl (fun h => h) ?_
    · refine ⟨hstopping, hstopped, hhandler, hqueue, fun w hlt => ?_⟩
      have := hjoined w
      grind
    · intro w _
      exact hs.drained ⟨i, hi⟩ hw
    · intro w
      by_cases hwi : w = ⟨i, hi⟩
      · right
        rw [hwi]
        rcases hw with hw | hw <;> simp [hw]
      · left
        exact Function.update_of_ne hwi ..
    · intro j
      have := hs.callerPhase j
      simp only [setCaller]
      grind

theorem step_orderly {a : LifeAction n κ T} (hs : Orderly s) (h : s.step lim a = some u) :
    Orderly u := by
  cases a with
  | launch =>
    simp only [step, Option.ite_none_right_eq_some, Option.some.injEq] at h
    obtain ⟨hctx, rfl⟩ := h
    exact { hs with
      reached := fun k => (hs.reached k).mono id id (fun _ _ => by simp) id fun _ => id
      contextPhase := hs.contextPhase.imp_right fun h => by simp [hctx] at h }
  | handle task => exact orderly_handle hs h
  | handlerDone =>
    simp only [step, Option.ite_none_right_eq_some, Option.some.injEq] at h
    obtain ⟨⟨hctx, hidle⟩, rfl⟩ := h
    exact { hs with
      reached := fun k => (hs.reached k).mono id id (fun _ _ => by simp) id fun _ => id
      contextPhase := .inl hidle }
  | contextExit =>
    simp only [step, Option.ite_none_right_eq_some, Option.some.injEq] at h
    obtain ⟨⟨hctx, -⟩, rfl⟩ := h
    exact { hs with
      reached := fun k => (hs.reached k).mono id id (fun _ _ => by simp) id fun _ => id
      contextPhase := hs.contextPhase.imp_right fun h => by simp [hctx] at h }
  | take w => exact orderly_wait hs (.inl rfl) h
  | recheck w => exact orderly_wait hs (.inr rfl) h
  | finish w =>
    obtain ⟨task, hw, rfl⟩ := finish_cases h
    exact { hs with
      reached := fun k => (hs.reached k).mono id id (fun _ => id) id fun w' hw' => by grind
      drained := by
        intro w' hw'
        have := hs.drained w'
        grind
      workerPhase := by
        intro w'
        have := hs.workerPhase w'
        grind }
  | notifyOne t sleeper | notifyAll t | spurious t => exact orderly_notify hs rfl h
  | tryStop k => exact orderly_tryStop hs h
  | stopContext k =>
    simp only [step, Option.ite_none_right_eq_some, Option.some.injEq] at h
    obtain ⟨hk, rfl⟩ := h
    have hreached := hs.reached k
    rw [hk] at hreached
    refine orderly_caller hs (by simp [hk]) rfl ⟨hreached, rfl⟩ hs.drained (fun _ => .inl rfl)
      (fun _ => rfl) rfl (fun h => h) fun j => ?_
    have := hs.callerPhase j
    simp only [setCaller]
    grind
  | joinContext k =>
    obtain ⟨hk, phase, hphase, rfl⟩ := joinContext_cases h
    have hreached := hs.reached k
    rw [hk] at hreached
    refine orderly_caller hs (by simp [hk]) rfl ⟨hreached.1, hreached.2, ?_⟩ hs.drained
      (fun _ => .inl rfl) (fun _ => rfl) rfl ?_ fun j => ?_
    · rcases hphase with ⟨rfl, -⟩ | ⟨rfl, -⟩ <;> simp
    · intro hhandling
      simp [hhandling] at hphase
    · have := hs.callerPhase j
      simp only [setCaller]
      grind
  | stopQueue k => exact orderly_stopQueue hs h
  | joinWorker k => exact orderly_joinWorker hs h

/-! ## No accepted task is lost -/

/-- One for a worker that processes a task with the given property. -/
def held (p : T → Prop) [DecidablePred p] : WorkerPhase T → ℕ
  | .processing task => if p task then 1 else 0
  | .looping | .exited | .joined => 0

/-- The accepted tasks are those processed, those being processed and those in the queue. -/
def Balanced (s : ServerLife n κ T) (p : T → Prop) [DecidablePred p] : Prop :=
  s.accepted.countP p =
    s.processed.countP p + total (held p) s.workers + s.pool.queue.dequeue.countP p

theorem balanced_wait {p : T → Prop} [DecidablePred p] {w : Fin n}
    {a : Action (ServerThread n κ) T} (hs : s.Balanced p)
    (ha : a = .call (.worker w) .waitAndPop ∨ a = .recheck (.worker w))
    (h : s.waitStep lim w a = some u) : u.Balanced p := by
  obtain ⟨hw, -, ⟨-, -, rfl⟩ | ⟨-, -, rfl⟩ | ⟨task, rest, bytes, hd, rfl⟩⟩ := waitStep_cases ha h
  · exact hs
  · have hcount := total_update (held p) s.workers w .exited
    unfold Balanced at *
    simp only [hw, held, add_zero] at hcount
    simpa only [hcount] using hs
  · have hcount := total_update (held p) s.workers w (.processing task)
    unfold Balanced at *
    rw [hd, List.countP_cons] at hs
    simp only [hw, held, add_zero] at hcount
    simp only [hcount, decide_eq_true_eq] at hs ⊢
    omega

theorem step_balanced {p : T → Prop} [DecidablePred p] {a : LifeAction n κ T}
    (hs : s.Balanced p) (h : s.step lim a = some u) : u.Balanced p := by
  cases a with
  | launch | handlerDone | contextExit | stopContext k =>
    simp only [step, Option.ite_none_right_eq_some, Option.some.injEq] at h
    rw [← h.2]
    exact hs
  | handle task =>
    obtain ⟨-, -, -, rfl | ⟨-, bytes, rfl⟩⟩ := handle_cases h
    · exact hs
    · unfold Balanced at *
      simp only [List.countP_append, hs, add_assoc]
  | take w => exact balanced_wait hs (.inl rfl) h
  | recheck w => exact balanced_wait hs (.inr rfl) h
  | finish w =>
    obtain ⟨task, hw, rfl⟩ := finish_cases h
    have hcount := total_update (held p) s.workers w .looping
    unfold Balanced at *
    simp only [hw, held, add_zero] at hcount
    simp only [List.countP_append, List.countP_singleton, decide_eq_true_eq]
    omega
  | notifyOne t sleeper | notifyAll t | spurious t =>
    obtain ⟨pool, hpool, rfl⟩ := poolStep_cases h
    unfold Balanced at *
    rw [(notify_phases rfl hpool).1]
    exact hs
  | tryStop k =>
    obtain ⟨-, ⟨-, rfl⟩ | ⟨-, rfl⟩⟩ := tryStop_cases h <;> exact hs
  | joinContext k =>
    obtain ⟨-, phase, -, rfl⟩ := joinContext_cases h
    exact hs
  | stopQueue k =>
    obtain ⟨-, -, rfl⟩ := stopQueue_cases h
    exact hs
  | joinWorker k =>
    obtain ⟨i, -, -, ⟨-, rfl⟩ | ⟨hi, hw, rfl⟩⟩ := joinWorker_cases h
    · exact hs
    · have hcount := total_update (held p) s.workers ⟨i, hi⟩ .joined
      have hnone : held p (s.workers ⟨i, hi⟩) = 0 := by
        rcases hw with hw | hw <;> simp [hw, held]
      unfold Balanced at *
      rw [hnone] at hcount
      simp only [held, add_zero] at hcount
      simpa only [setCaller, hcount] using hs

/-- `launch` comes before anybody stops the server. -/
def LaunchedInTime (s : ServerLife n κ T) (a : LifeAction n κ T) : Prop :=
  a = .launch → s.stopping = false

/-- Past the join of the context thread there is none, if the server was launched in time. -/
def ContextJoined (s : ServerLife n κ T) : Prop :=
  ∀ k, s.callers k = .stoppingQueue ∨ s.callers k = .returned ∨
      (∃ i, s.callers k = .joiningWorkers i) →
    s.contextThread = .notLaunched ∨ s.contextThread = .joined

theorem step_contextJoined {a : LifeAction n κ T} (horder : Orderly s) (hs : s.ContextJoined)
    (hgood : s.LaunchedInTime a) (h : s.step lim a = some u) : u.ContextJoined := by
  cases a with
  | launch =>
    simp only [step, Option.ite_none_right_eq_some, Option.some.injEq] at h
    obtain ⟨-, rfl⟩ := h
    intro k hk
    have hout : s.callers k ≠ .outside := by
      rintro hout
      simp [hout] at hk
    have := (horder.reached k).stopping hout
    rw [hgood rfl] at this
    cases this
  | handle task =>
    obtain ⟨hctx, -, -, hu⟩ := handle_cases h
    intro k hk
    have hbefore : u.callers = s.callers := by
      rcases hu with rfl | ⟨-, bytes, rfl⟩ <;> rfl
    rw [hbefore] at hk
    have := hs k hk
    simp [hctx] at this
  | handlerDone | contextExit =>
    simp only [step, Option.ite_none_right_eq_some, Option.some.injEq] at h
    obtain ⟨hctx, rfl⟩ := h
    intro k hk
    have := hs k hk
    simp [hctx.1] at this
  | take w =>
    obtain ⟨-, -, ⟨-, -, rfl⟩ | ⟨-, -, rfl⟩ | ⟨task, rest, bytes, -, rfl⟩⟩ :=
      waitStep_cases (.inl rfl) h <;> exact hs
  | recheck w =>
    obtain ⟨-, -, ⟨-, -, rfl⟩ | ⟨-, -, rfl⟩ | ⟨task, rest, bytes, -, rfl⟩⟩ :=
      waitStep_cases (.inr rfl) h <;> exact hs
  | finish w =>
    obtain ⟨task, -, rfl⟩ := finish_cases h
    exact hs
  | notifyOne t sleeper | notifyAll t | spurious t =>
    obtain ⟨pool, -, rfl⟩ := poolStep_cases h
    exact hs
  | tryStop k =>
    obtain ⟨hk, ⟨-, rfl⟩ | ⟨-, rfl⟩⟩ := tryStop_cases h
    · exact hs
    · intro j
      have := hs j
      simp only [setCaller]
      grind
  | stopContext k =>
    simp only [step, Option.ite_none_right_eq_some, Option.some.injEq] at h
    obtain ⟨hk, rfl⟩ := h
    intro j
    have := hs j
    simp only [setCaller]
    grind
  | joinContext k =>
    obtain ⟨-, phase, hphase, rfl⟩ := joinContext_cases h
    intro j _
    exact hphase.imp And.left And.left
  | stopQueue k =>
    obtain ⟨hk, -, rfl⟩ := stopQueue_cases h
    intro j _
    exact hs k (.inl hk)
  | joinWorker k =>
    obtain ⟨i, hk, -, ⟨-, rfl⟩ | ⟨hi, -, rfl⟩⟩ := joinWorker_cases h <;>
      exact fun _ _ => hs k (.inr (.inr ⟨i, hk⟩))

/-- When `stop` has returned, in whatever interleaving: no other thread has gone through it, every
worker is joined, the queue is stopped and the context thread is in no handler. With at least one
worker, every task that the queue ever accepted has been processed, once. If `launch` was not called
after the server was told to stop, the context thread is joined too, or was never started. -/
theorem stop_returned {labels : List (LifeAction n κ T)} {k : κ}
    (hrun : run (step lim) constructed labels = some u) (hk : u.callers k = .returned) :
    (∀ j, j ≠ k → u.callers j = .outside) ∧ (∀ w, u.workers w = .joined) ∧
    u.pool.queue.stopped = true ∧ u.contextThread ≠ .handling ∧
    (0 < n → u.pool.queue.dequeue = [] ∧ u.accepted.Perm u.processed) ∧
    (Guarded (step lim) LaunchedInTime constructed labels →
      u.contextThread = .notLaunched ∨ u.contextThread = .joined) := by
  have horder : Orderly u := run_invariant (fun s a t hs h => step_orderly hs h)
    orderly_constructed hrun
  have hreached := horder.reached k
  rw [hk] at hreached
  obtain ⟨-, -, hhandler, hstopped, hjoined⟩ := hreached
  refine ⟨fun j hj => ?_, hjoined, hstopped, hhandler, fun hn => ?_, fun htime => ?_⟩
  · by_contra hout
    exact hj (horder.oneStopper j k hout (by simp [hk]))
  · have hempty := (horder.drained ⟨0, hn⟩ (.inr (hjoined _))).2
    refine ⟨hempty, ?_⟩
    classical
    rw [List.perm_iff_count]
    intro task
    have hstart : (constructed : ServerLife n κ T).Balanced (· = task) := by
      simp [Balanced, constructed, Threads.initial, ThreadSafeQueue.empty, total, held]
    have hbalance : u.Balanced (· = task) :=
      run_invariant (fun s a t hs h => step_balanced hs h) hstart hrun
    have hidle : total (held (· = task)) u.workers = 0 := by
      simp [total, hjoined, held]
    unfold Balanced at hbalance
    rw [hempty, hidle, List.countP_nil, add_zero, add_zero] at hbalance
    simpa only [List.count, List.countP_eq_length_filter, beq_eq_decide] using hbalance
  · have hstep : ∀ (s : ServerLife n κ T) a t, Orderly s ∧ ContextJoined s → LaunchedInTime s a →
        s.step lim a = some t → Orderly t ∧ ContextJoined t := fun s a t hs hgood h =>
      ⟨step_orderly hs.1 h, step_contextJoined hs.1 hs.2 hgood h⟩
    have hstart : Orderly (constructed : ServerLife n κ T) ∧
        ContextJoined (constructed : ServerLife n κ T) :=
      ⟨orderly_constructed, fun j hj => by simp [constructed] at hj⟩
    exact (guarded_run_invariant hstep hstart htime hrun).2 k (.inr (.inl hk))

/-- A server with one worker: a task is accepted, two threads stop the server, the task is
processed. -/
def stoppingRun (task : T) : List (LifeAction 1 Bool T) :=
  [.take 0, .launch, .handle task, .notifyOne .context (some (.worker 0)), .tryStop true,
    .tryStop false, .stopContext true, .handlerDone, .contextExit, .recheck 0, .joinContext true,
    .stopQueue true, .notifyAll (.caller true), .finish 0, .take 0, .joinWorker true,
    .joinWorker true]

theorem stop_returned_one :
    let task : RequestTask Unit := ⟨(), ⟨11, "/", ""⟩, "127.0.0.1", 0, 0⟩
    ∃ u, run (step ⟨true, true, 4, 64⟩) (constructed : ServerLife 1 Bool _) (stoppingRun task) =
      some u ∧ u.accepted = [task] ∧ u.accepted.Perm u.processed := by
  intro task
  obtain ⟨u, hu, haccepted, hk⟩ : ∃ u, run (step ⟨true, true, 4, 64⟩)
      (constructed : ServerLife 1 Bool _) (stoppingRun task) = some u ∧
      u.accepted = [task] ∧ u.callers true = .returned := ⟨_, rfl, rfl, rfl⟩
  exact ⟨u, hu, haccepted, ((stop_returned hu hk).2.2.2.2.1 Nat.one_pos).2⟩

end ServerSimple.Network.ServerLife
