import ServerSimple.Network.ShutdownSafety

/-! # Stopping always comes to an end

Two facts together: while a thread is in `stop`, some thread of the server can take a step of its
own, and every such step lowers a potential. What comes from outside raises it by a bounded amount:
a handler that starts, a call of `launch` or `try_stop`, a wake-up without a notification.
-/

namespace ServerSimple.Network

open Library ThreadSafe

/-- The steps that the threads of the server and the one in `stop` take on their own. -/
def LifeAction.Own {n : ℕ} {κ T : Type*} : LifeAction n κ T → Prop
  | .launch | .handle _ | .spurious _ | .tryStop _ => False
  | _ => True

namespace ServerLife

variable {n : ℕ} {κ T : Type*} [DecidableEq κ] [Fintype κ] [QueueSizeTraits T] {lim : Limits}
  {s u : ServerLife n κ T}

/-! ## Some thread can go on -/

/-- A sleeper can be woken, or there is none and the notification goes nowhere. -/
theorem exists_notifyOne (lim : Limits) {t : ServerThread n κ} (ht : s.pool.phase t = .notifyingOne) :
    ∃ sleeper, (s.step lim (.notifyOne t sleeper)).isSome := by
  by_cases hsleep : ∃ v, s.pool.phase v = .blocked
  · obtain ⟨v, hv⟩ := hsleep
    refine ⟨some v, ?_⟩
    simp [step, poolStep, Threads.step, ht, hv]
  · rw [not_exists] at hsleep
    refine ⟨none, ?_⟩
    simp [step, poolStep, Threads.step, ht, hsleep]

theorem isSome_notifyAll {t : ServerThread n κ} (ht : s.pool.phase t = .notifyingAll) :
    (s.step lim (.notifyAll t)).isSome := by
  simp [step, poolStep, Threads.step, ht]

/-- The context thread finishes its handler and leaves the stopped context. -/
theorem progress_context (hs : Orderly s) (hstop : s.contextStopped = true) {k : κ}
    (hk : s.callers k = .joiningContext) : ∃ a, a.Own ∧ (s.step lim a).isSome := by
  cases hctx : s.contextThread with
  | notLaunched | exited | joined =>
    exact ⟨.joinContext k, trivial, by simp [step, hk, joinContext, hctx]⟩
  | polling => exact ⟨.contextExit, trivial, by simp [step, hctx, hstop]⟩
  | handling =>
    rcases hs.contextPhase with hphase | ⟨hphase, -⟩
    · exact ⟨.handlerDone, trivial, by simp [step, hctx, hphase]⟩
    · obtain ⟨sleeper, hstep⟩ := exists_notifyOne lim hphase
      exact ⟨.notifyOne .context sleeper, trivial, hstep⟩

/-- The worker that is to be joined next comes closer to the end of its loop. -/
theorem progress_worker (hs : Orderly s) (hcovered : s.pool.Covered)
    (hstop : s.pool.queue.stopped = true) (w : Fin n)
    (hw : s.workers w ≠ .exited ∧ s.workers w ≠ .joined) :
    ∃ a, a.Own ∧ (s.step lim a).isSome := by
  cases hphase : s.workers w with
  | exited => exact absurd hphase hw.1
  | joined => exact absurd hphase hw.2
  | processing task => exact ⟨.finish w, trivial, by simp [step, hphase]⟩
  | looping =>
    rcases hs.workerPhase w with hidle | ⟨-, hblocked | hwoken⟩
    · exact ⟨.take w, trivial, by simp [step, waitStep, hphase, Threads.step, hidle]⟩
    · -- it sleeps beside a stopped queue: the notification of `stop` is still to come
      have hsleep : 0 < s.pool.inPhase .blocked := occurrences_pos.mpr ⟨_, hblocked⟩
      obtain ⟨t, ht⟩ := occurrences_pos.mp (hcovered.stopPending hstop hsleep)
      exact ⟨.notifyAll t, trivial, isSome_notifyAll ht⟩
    · exact ⟨.recheck w, trivial, by simp [step, waitStep, hphase, Threads.step, hwoken]⟩

/-- While a thread is in `stop`, some step is possible that needs nothing from outside. -/
theorem progress (hs : Orderly s) (hcovered : s.pool.Covered) {k : κ}
    (hk : s.callers k ≠ .outside) (hk' : s.callers k ≠ .returned) :
    ∃ a, a.Own ∧ (s.step lim a).isSome := by
  have hreached := hs.reached k
  have hphase := hs.callerPhase k
  cases hcall : s.callers k with
  | outside => exact absurd hcall hk
  | returned => exact absurd hcall hk'
  | stoppingContext => exact ⟨.stopContext k, trivial, by simp [step, hcall]⟩
  | joiningContext =>
    rw [hcall] at hreached
    exact progress_context hs hreached.2 hcall
  | stoppingQueue =>
    have hidle : s.pool.phase (.caller k) = .idle := by
      simpa [hcall] using hphase
    exact ⟨.stopQueue k, trivial, by simp [step, hcall, poolStep, Threads.step, setCaller, hidle]⟩
  | joiningWorkers i =>
    rw [hcall] at hreached
    rcases hphase with hidle | ⟨hall, -⟩
    · by_cases hi : i < n
      · by_cases hw : s.workers ⟨i, hi⟩ ≠ .exited ∧ s.workers ⟨i, hi⟩ ≠ .joined
        · exact progress_worker hs hcovered hreached.2.2.2.1 ⟨i, hi⟩ hw
        · refine ⟨.joinWorker k, trivial, ?_⟩
          rw [not_and_or, not_not, not_not] at hw
          rcases hw with hw | hw <;> simp [step, hcall, hidle, joinWorker, hi, hw]
      · exact ⟨.joinWorker k, trivial, by simp [step, hcall, hidle, joinWorker, hi]⟩
    · exact ⟨.notifyAll (.caller k), trivial, isSome_notifyAll hall⟩

/-- A thread that has found `stopping` unset does not call `try_stop` again. -/
theorem step_callers {a : LifeAction n κ T} {k : κ} (hk : s.callers k ≠ .outside)
    (h : s.step lim a = some u) : u.callers k ≠ .outside := by
  have hset : ∀ j p, p ≠ .outside → (s.setCaller j p).callers k ≠ .outside := by
    intro j p hp
    by_cases hj : k = j
    · simp [setCaller, hj, hp]
    · simpa [setCaller, hj] using hk
  cases a with
  | launch | handlerDone | contextExit =>
    simp only [step, Option.ite_none_right_eq_some, Option.some.injEq] at h
    rw [← h.2]
    exact hk
  | handle task =>
    obtain ⟨-, -, -, rfl | ⟨-, bytes, rfl⟩⟩ := handle_cases h <;> exact hk
  | take w =>
    obtain ⟨-, -, ⟨-, -, rfl⟩ | ⟨-, -, rfl⟩ | ⟨task, rest, bytes, -, rfl⟩⟩ :=
      waitStep_cases (.inl rfl) h <;> exact hk
  | recheck w =>
    obtain ⟨-, -, ⟨-, -, rfl⟩ | ⟨-, -, rfl⟩ | ⟨task, rest, bytes, -, rfl⟩⟩ :=
      waitStep_cases (.inr rfl) h <;> exact hk
  | finish w =>
    obtain ⟨task, -, rfl⟩ := finish_cases h
    exact hk
  | notifyOne t sleeper | notifyAll t | spurious t =>
    obtain ⟨pool, -, rfl⟩ := poolStep_cases h
    exact hk
  | tryStop j =>
    obtain ⟨-, ⟨-, rfl⟩ | ⟨-, rfl⟩⟩ := tryStop_cases h
    · exact hk
    · exact hset j _ (by simp)
  | stopContext j =>
    simp only [step, Option.ite_none_right_eq_some, Option.some.injEq] at h
    obtain ⟨-, rfl⟩ := h
    exact hset j _ (by simp)
  | joinContext j =>
    obtain ⟨-, phase, -, rfl⟩ := joinContext_cases h
    exact hset j _ (by simp)
  | stopQueue j =>
    obtain ⟨-, -, rfl⟩ := stopQueue_cases h
    exact hset j _ (by simp)
  | joinWorker j =>
    obtain ⟨i, -, -, ⟨-, rfl⟩ | ⟨hi, -, rfl⟩⟩ := joinWorker_cases h <;> exact hset j _ (by simp)

/-! ## The potential -/

/-- What the steps that are left to a thread inside the queue can pay for: a notification wakes one
sleeper, or at most all the others. -/
def phaseWeight (threads : ℕ) : Phase → ℕ
  | .idle => 1
  | .blocked => 0
  | .woken => 1
  | .notifyingOne => 3
  | .notifyingAll => threads + 2

def workerWeight : WorkerPhase T → ℕ
  | .looping => 1
  | .processing _ => 2
  | .exited | .joined => 0

def contextWeight : ContextPhase → ℕ
  | .notLaunched | .exited | .joined => 0
  | .polling => 1
  | .handling => 2

/-- With `n` workers to join and a notification to all threads on the way. -/
def stopWeight (n threads : ℕ) : StopPhase → ℕ
  | .outside | .returned => 0
  | .stoppingContext => n + threads + 5
  | .joiningContext => n + threads + 4
  | .stoppingQueue => n + threads + 3
  | .joiningWorkers i => n - i + 1

variable (n κ) in
/-- The number of threads of the server and around it. -/
def threadCount : ℕ := Fintype.card (ServerThread n κ)

def potential (s : ServerLife n κ T) : ℕ :=
  total (phaseWeight (threadCount n κ)) s.pool.phase + 2 * s.pool.queue.dequeue.length +
    total workerWeight s.workers + contextWeight s.contextThread +
    total (stopWeight n (threadCount n κ)) s.callers

/-- What a step from outside adds to the potential, and one for the step itself. -/
def price : LifeAction n κ T → ℕ
  | .launch | .spurious _ => 2
  | .handle _ => 6
  | .tryStop _ => n + threadCount n κ + 6
  | _ => 0

theorem potential_wait {w : Fin n} {a : Action (ServerThread n κ) T}
    (ha : a = .call (.worker w) .waitAndPop ∨ a = .recheck (.worker w))
    (h : s.waitStep lim w a = some u) : u.potential + 1 ≤ s.potential := by
  obtain ⟨hw, hphase, ⟨-, -, rfl⟩ | ⟨-, -, rfl⟩ | ⟨task, rest, bytes, hd, rfl⟩⟩ :=
    waitStep_cases ha h
  all_goals
    have hweight : phaseWeight (threadCount n κ) (s.pool.phase (.worker w)) = 1 := by
      rcases hphase with hphase | hphase <;> simp [hphase, phaseWeight]
  · have hpool := total_update (phaseWeight (threadCount n κ)) s.pool.phase (.worker w) .blocked
    rw [hweight] at hpool
    simp only [phaseWeight] at hpool
    unfold potential
    dsimp only
    omega
  · have hpool := total_update (phaseWeight (threadCount n κ)) s.pool.phase (.worker w) .idle
    have hworkers := total_update workerWeight s.workers w .exited
    rw [hweight] at hpool
    simp only [phaseWeight, hw, workerWeight] at hpool hworkers
    unfold potential
    dsimp only
    omega
  · have hpool := total_update (phaseWeight (threadCount n κ)) s.pool.phase (.worker w) .idle
    have hworkers := total_update workerWeight s.workers w (.processing task)
    rw [hweight] at hpool
    simp only [phaseWeight, hw, workerWeight] at hpool hworkers
    unfold potential
    rw [hd, List.length_cons]
    dsimp only
    omega

theorem potential_handle {task : T} (h : s.step lim (.handle task) = some u) :
    u.potential + 1 ≤ s.potential + 6 := by
  obtain ⟨hctx, -, hidle, rfl | ⟨-, bytes, rfl⟩⟩ := handle_cases h
  · unfold potential
    simp only [hctx, contextWeight]
    omega
  · have hpool := total_update (phaseWeight (threadCount n κ)) s.pool.phase .context .notifyingOne
    simp only [hidle, phaseWeight] at hpool
    unfold potential
    simp only [hctx, contextWeight, List.length_append, List.length_singleton]
    omega

theorem potential_notifyOne {t : ServerThread n κ} {sleeper : Option (ServerThread n κ)}
    (h : s.step lim (.notifyOne t sleeper) = some u) : u.potential + 1 ≤ s.potential := by
  obtain ⟨pool, hpool, rfl⟩ := poolStep_cases h
  cases sleeper with
  | none =>
    simp only [Threads.step, Option.ite_none_right_eq_some, Option.some.injEq] at hpool
    obtain ⟨⟨ht, -⟩, rfl⟩ := hpool
    have hone := total_update (phaseWeight (threadCount n κ)) s.pool.phase t .idle
    simp only [ht, phaseWeight] at hone
    unfold potential
    dsimp only
    omega
  | some v =>
    simp only [Threads.step, Option.ite_none_right_eq_some, Option.some.injEq] at hpool
    obtain ⟨⟨ht, hv⟩, rfl⟩ := hpool
    have hne : t ≠ v := by
      rintro rfl
      simp [ht] at hv
    have hwake := total_update (phaseWeight (threadCount n κ)) s.pool.phase v .woken
    have hone := total_update (phaseWeight (threadCount n κ))
      (Function.update s.pool.phase v .woken) t .idle
    rw [Function.update_of_ne hne] at hone
    simp only [ht, hv, phaseWeight] at hwake hone
    unfold potential
    dsimp only
    omega

theorem potential_notifyAll {t : ServerThread n κ} (h : s.step lim (.notifyAll t) = some u) :
    u.potential + 1 ≤ s.potential := by
  obtain ⟨pool, hpool, rfl⟩ := poolStep_cases h
  simp only [Threads.step, Option.ite_none_right_eq_some, Option.some.injEq] at hpool
  obtain ⟨ht, rfl⟩ := hpool
  have hown := total_update (phaseWeight (threadCount n κ)) s.pool.phase t .idle
  -- the sleepers wake up in a second move, one unit each
  have hwake : total (phaseWeight (threadCount n κ)) (fun v =>
      if v = t then .idle else if s.pool.phase v = .blocked then .woken else s.pool.phase v) ≤
      total (phaseWeight (threadCount n κ)) (Function.update s.pool.phase t .idle) +
        threadCount n κ := by
    apply total_le_add_card
    intro v
    by_cases hv : v = t
    · simp [hv]
    · by_cases hsleep : s.pool.phase v = .blocked <;> simp [hv, hsleep, phaseWeight]
  simp only [ht, phaseWeight] at hown
  unfold potential
  dsimp only
  omega

theorem potential_spurious {t : ServerThread n κ} (h : s.step lim (.spurious t) = some u) :
    u.potential = s.potential + 1 := by
  obtain ⟨pool, hpool, rfl⟩ := poolStep_cases h
  simp only [Threads.step, Option.ite_none_right_eq_some, Option.some.injEq] at hpool
  obtain ⟨ht, rfl⟩ := hpool
  have hwake := total_update (phaseWeight (threadCount n κ)) s.pool.phase t .woken
  simp only [ht, phaseWeight] at hwake
  unfold potential
  dsimp only
  omega

theorem potential_tryStop {k : κ} (h : s.step lim (.tryStop k) = some u) :
    u.potential ≤ s.potential + (n + threadCount n κ + 5) := by
  obtain ⟨hk, ⟨-, rfl⟩ | ⟨-, rfl⟩⟩ := tryStop_cases h
  · exact Nat.le_add_right ..
  · have hcallers := total_update (stopWeight n (threadCount n κ)) s.callers k .stoppingContext
    simp only [hk, stopWeight] at hcallers
    unfold potential
    simp only [setCaller]
    omega

theorem potential_joinContext {k : κ} (h : s.step lim (.joinContext k) = some u) :
    u.potential + 1 ≤ s.potential := by
  obtain ⟨hk, phase, hphase, rfl⟩ := joinContext_cases h
  have hcallers := total_update (stopWeight n (threadCount n κ)) s.callers k .stoppingQueue
  simp only [hk, stopWeight] at hcallers
  have hctx : contextWeight phase = contextWeight s.contextThread := by
    rcases hphase with ⟨rfl, hctx⟩ | ⟨rfl, hctx | hctx⟩ <;> simp [hctx, contextWeight]
  unfold potential
  simp only [setCaller, hctx]
  omega

theorem potential_stopQueue {k : κ} (h : s.step lim (.stopQueue k) = some u) :
    u.potential + 1 ≤ s.potential := by
  obtain ⟨hk, hidle, rfl⟩ := stopQueue_cases h
  have hcallers := total_update (stopWeight n (threadCount n κ)) s.callers k (.joiningWorkers 0)
  have hpool := total_update (phaseWeight (threadCount n κ)) s.pool.phase (.caller k)
    (if s.pool.queue.stopped then .idle else .notifyingAll)
  have hnotify : phaseWeight (threadCount n κ)
      (if s.pool.queue.stopped then .idle else .notifyingAll) ≤ threadCount n κ + 2 := by
    split_ifs <;> simp [phaseWeight]
  simp only [hk, stopWeight] at hcallers
  rw [hidle] at hpool
  have hone : phaseWeight (threadCount n κ) .idle = 1 := rfl
  unfold potential
  simp only [setCaller]
  omega

theorem potential_joinWorker {k : κ} (h : s.step lim (.joinWorker k) = some u) :
    u.potential + 1 ≤ s.potential := by
  obtain ⟨i, hk, -, ⟨hlast, rfl⟩ | ⟨hi, hw, rfl⟩⟩ := joinWorker_cases h
  · have hcallers := total_update (stopWeight n (threadCount n κ)) s.callers k .returned
    simp only [hk, stopWeight] at hcallers
    unfold potential
    simp only [setCaller]
    omega
  · have hcallers := total_update (stopWeight n (threadCount n κ)) s.callers k
      (.joiningWorkers (i + 1))
    have hworkers := total_update workerWeight s.workers ⟨i, hi⟩ .joined
    have hgone : workerWeight (s.workers ⟨i, hi⟩) = 0 := by
      rcases hw with hw | hw <;> rw [hw] <;> rfl
    simp only [hk, stopWeight] at hcallers
    rw [hgone] at hworkers
    simp only [workerWeight] at hworkers
    unfold potential
    simp only [setCaller]
    omega

/-- Every step pays one unit out of the potential and the price it brings along. -/
theorem potential_step {a : LifeAction n κ T} (h : s.step lim a = some u) :
    u.potential + 1 ≤ s.potential + price a := by
  cases a with
  | launch =>
    simp only [step, Option.ite_none_right_eq_some, Option.some.injEq] at h
    obtain ⟨hctx, rfl⟩ := h
    simp only [potential, hctx, contextWeight, price]
    omega
  | handle task => exact potential_handle h
  | handlerDone | contextExit =>
    simp only [step, Option.ite_none_right_eq_some, Option.some.injEq] at h
    obtain ⟨⟨hctx, -⟩, rfl⟩ := h
    simp only [potential, hctx, contextWeight, price]
    omega
  | take w => exact potential_wait (.inl rfl) h
  | recheck w => exact potential_wait (.inr rfl) h
  | finish w =>
    obtain ⟨task, hw, rfl⟩ := finish_cases h
    have hworkers := total_update workerWeight s.workers w .looping
    simp only [hw, workerWeight] at hworkers
    simp only [potential, price]
    omega
  | notifyOne t sleeper => exact potential_notifyOne h
  | notifyAll t => exact potential_notifyAll h
  | spurious t =>
    rw [potential_spurious h]
    rfl
  | tryStop k =>
    have := potential_tryStop h
    simp only [price]
    omega
  | stopContext k =>
    simp only [step, Option.ite_none_right_eq_some, Option.some.injEq] at h
    obtain ⟨hk, rfl⟩ := h
    have hcallers := total_update (stopWeight n (threadCount n κ)) s.callers k .joiningContext
    simp only [hk, stopWeight] at hcallers
    simp only [potential, setCaller, price]
    omega
  | joinContext k => exact potential_joinContext h
  | stopQueue k => exact potential_stopQueue h
  | joinWorker k => exact potential_joinWorker h

/-- Once a thread is in `stop`, the server takes boundedly many steps of its own: as many as the
potential of that moment allows, and boundedly many more for each handler that still starts, each
call of `launch` or `try_stop`, and each wake-up without a notification. It comes to rest only when
`stop` has returned: before, some thread can go on without anything from outside. -/
theorem stop_completes {before after : List (LifeAction n κ T)} {k : κ}
    (hbefore : run (step lim) constructed before = some s) (hk : s.callers k ≠ .outside)
    (hafter : run (step lim) s after = some u) :
    after.length ≤ s.potential + revenue price after ∧
      (u.callers k = .returned ∨ ∃ a, a.Own ∧ (u.step lim a).isSome) := by
  have hstep : ∀ (s : ServerLife n κ T) a t, Orderly s ∧ s.pool.Covered → s.step lim a = some t →
      Orderly t ∧ t.pool.Covered := fun s a t hs h => ⟨step_orderly hs.1 h, step_covered hs.2 h⟩
  have hstart : Orderly (constructed : ServerLife n κ T) ∧
      (constructed : ServerLife n κ T).pool.Covered :=
    ⟨orderly_constructed, Threads.covered_initial⟩
  have hs := run_invariant hstep hstart hbefore
  constructor
  · have hbound := length_add_potential_le hstep (fun s a t _ h => potential_step h) hs hafter
    omega
  · have hu := run_invariant hstep hs hafter
    have hout : u.callers k ≠ .outside := by
      have hstays : ∀ (s : ServerLife n κ T) a t, s.callers k ≠ .outside → s.step lim a = some t →
          t.callers k ≠ .outside := fun s a t hs h => step_callers hs h
      exact run_invariant hstays hk hafter
    by_cases hret : u.callers k = .returned
    · exact .inl hret
    · exact .inr (progress hu.1 hu.2 hout hret)

theorem stop_completes_one :
    let task : RequestTask Unit := ⟨(), ⟨11, "/", ""⟩, "127.0.0.1", 0, 0⟩
    ∃ s u, run (step ⟨true, true, 4, 64⟩) (constructed : ServerLife 1 Bool _)
        ((stoppingRun task).take 5) = some s ∧
      run (step ⟨true, true, 4, 64⟩) s ((stoppingRun task).drop 5) = some u ∧
      ((stoppingRun task).drop 5).length ≤
        s.potential + revenue price ((stoppingRun task).drop 5) := by
  intro task
  obtain ⟨s, u, hs, hk, hu⟩ : ∃ s u, run (step ⟨true, true, 4, 64⟩)
      (constructed : ServerLife 1 Bool _) ((stoppingRun task).take 5) = some s ∧
      s.callers true = .stoppingContext ∧
      run (step ⟨true, true, 4, 64⟩) s ((stoppingRun task).drop 5) = some u :=
    ⟨_, _, rfl, rfl, rfl⟩
  have hout : s.callers true ≠ .outside := by simp [hk]
  exact ⟨s, u, hs, hu, (stop_completes hs hout hu).1⟩

end ServerLife
end ServerSimple.Network
