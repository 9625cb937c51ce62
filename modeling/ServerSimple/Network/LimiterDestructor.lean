import ServerSimple.Network.CleanupThread

/-! # The destructor of the rate limiter

The destructor does not hold `cleanup_mutex` when it sets `stop` and notifies. If the cleanup thread
has just found the predicate false and is about to sleep, the notification is lost and only the
timeout of the wait ends the sleep. In every other case the thread leaves its loop at once.
-/

namespace ServerSimple.Network

open Library

/-- The steps of the cleanup thread and of the destructor that joins it. -/
def CleanupEvent.own : CleanupEvent → Bool
  | .thread | .join => true
  | _ => false

namespace CleanupThread

variable {limits : RateLimits} {s u : CleanupThread} {start : ℚ}

/-- What the threads can rely on once `stop` is set. -/
structure Stopping (s : CleanupThread) : Prop where
  stop : s.destructor ≠ .outside → s.stop = true
  joined : s.destructor = .joined → s.phase = .exited

theorem stopping_constructed : Stopping (constructed start) where
  stop h := absurd rfl h
  joined h := by cases h

theorem step_stopping {e : CleanupEvent} (hs : Stopping s) (h : s.step limits e = some u) :
    Stopping u := by
  cases e with
  | elapse later =>
    simp only [step, Option.ite_none_right_eq_some, Option.some.injEq] at h
    rw [← h.2]
    exact ⟨hs.stop, hs.joined⟩
  | consume identifier cost =>
    simp only [step, Option.some.injEq] at h
    rw [← h]
    exact ⟨hs.stop, hs.joined⟩
  | thread =>
    simp only [step, threadStep] at h
    cases hphase : s.phase with
    | exited => simp [hphase] at h
    | asleep d =>
      simp only [hphase, Option.ite_none_right_eq_some, Option.some.injEq] at h
      rw [← h.2]
      exact ⟨hs.stop, fun hjoined => by simp [hs.joined hjoined] at hphase⟩
    | starting | atLoop | testing d | fallingAsleep d | timedOut | cleaning =>
      simp only [hphase, Option.some.injEq] at h
      rw [← h]
      exact ⟨hs.stop, fun hjoined => by simp [hs.joined hjoined] at hphase⟩
  | spurious =>
    simp only [step, Option.some.injEq] at h
    obtain ⟨-, -, -, -, hstop, hdestructor⟩ := wake_fields s
    rw [← h]
    refine ⟨fun hd => ?_, fun hjoined => ?_⟩
    · rw [hstop]
      exact hs.stop (hdestructor ▸ hd)
    · simp [wake, hs.joined (hdestructor ▸ hjoined)]
  | setStop =>
    simp only [step, Option.ite_none_right_eq_some, Option.some.injEq] at h
    rw [← h.2]
    exact ⟨fun _ => rfl, fun hjoined => by cases hjoined⟩
  | notifyOne =>
    simp only [step, Option.ite_none_right_eq_some, Option.some.injEq] at h
    obtain ⟨hd, rfl⟩ := h
    refine ⟨fun _ => ?_, fun hjoined => by cases hjoined⟩
    exact (wake_fields s).2.2.2.2.1.trans (hs.stop (by simp [hd]))
  | join =>
    simp only [step, Option.ite_none_right_eq_some, Option.some.injEq] at h
    obtain ⟨⟨hd, hphase⟩, rfl⟩ := h
    exact ⟨fun _ => hs.stop (by simp [hd]), fun _ => hphase⟩

/-- With `stop` set: how many steps of its own the thread is away from the end of its loop. -/
def distance : CleanupPhase → ℕ
  | .exited => 0
  | .atLoop | .testing _ | .timedOut => 1
  | .starting | .cleaning | .asleep _ => 2
  | .fallingAsleep _ => 3

theorem distance_le (p : CleanupPhase) : distance p ≤ 3 := by
  cases p <;> simp [distance]

/-- The steps that are left to the thread and to the destructor. -/
def remaining (s : CleanupThread) : ℕ :=
  distance s.phase + if s.destructor = .joined then 0 else 1

theorem distance_wake_le (s : CleanupThread) : distance s.wake.phase ≤ distance s.phase := by
  unfold wake
  cases hphase : s.phase <;> simp [hphase, distance]

/-- Once `stop` is set, every own step brings the end closer, and no other takes it further away. -/
theorem remaining_step {e : CleanupEvent} (hstop : s.stop = true)
    (h : s.step limits e = some u) :
    u.stop = true ∧ u.remaining + (if e.own then 1 else 0) ≤ s.remaining := by
  cases e with
  | elapse later =>
    simp only [step, Option.ite_none_right_eq_some, Option.some.injEq] at h
    rw [← h.2]
    exact ⟨hstop, le_rfl⟩
  | consume identifier cost =>
    simp only [step, Option.some.injEq] at h
    rw [← h]
    exact ⟨hstop, le_rfl⟩
  | thread =>
    simp only [step, threadStep] at h
    cases hphase : s.phase with
    | exited => simp [hphase] at h
    | asleep d =>
      simp only [hphase, Option.ite_none_right_eq_some, Option.some.injEq] at h
      rw [← h.2]
      refine ⟨hstop, ?_⟩
      simp only [remaining, hphase, distance, CleanupEvent.own, if_true]
      omega
    | starting | atLoop | testing d | fallingAsleep d | timedOut | cleaning =>
      simp only [hphase, Option.some.injEq] at h
      rw [← h]
      refine ⟨hstop, ?_⟩
      simp only [remaining, hphase, hstop, distance, CleanupEvent.own, if_true]
      omega
  | spurious =>
    simp only [step, Option.some.injEq] at h
    obtain ⟨-, -, -, -, hsame, hdestructor⟩ := wake_fields s
    have hle := distance_wake_le s
    rw [← h]
    refine ⟨hsame.trans hstop, ?_⟩
    simp only [remaining, hdestructor, CleanupEvent.own, Bool.false_eq_true, if_false]
    omega
  | setStop =>
    simp only [step, Option.ite_none_right_eq_some, Option.some.injEq] at h
    obtain ⟨hd, rfl⟩ := h
    refine ⟨rfl, ?_⟩
    simp [remaining, hd, CleanupEvent.own]
  | notifyOne =>
    simp only [step, Option.ite_none_right_eq_some, Option.some.injEq] at h
    obtain ⟨hd, rfl⟩ := h
    have hle := distance_wake_le s
    refine ⟨(wake_fields s).2.2.2.2.1.trans hstop, ?_⟩
    simpa [remaining, hd, CleanupEvent.own] using hle
  | join =>
    simp only [step, Option.ite_none_right_eq_some, Option.some.injEq] at h
    obtain ⟨⟨hd, hphase⟩, rfl⟩ := h
    exact ⟨hstop, by simp [remaining, hd, hphase, CleanupEvent.own]⟩

/-- One step of the thread towards the end of its loop, if it is not asleep. -/
theorem exists_thread (limits : RateLimits) (hstop : s.stop = true) (hexited : s.phase ≠ .exited)
    (hasleep : ∀ d, s.phase ≠ .asleep d) :
    ∃ t, s.step limits .thread = some t ∧ t.stop = true ∧ t.now = s.now ∧
      t.destructor = s.destructor ∧ distance t.phase < distance s.phase ∧
      ((∃ d, t.phase = .asleep d) → ∃ d, s.phase = .fallingAsleep d) := by
  simp only [step, threadStep]
  cases hphase : s.phase with
  | exited => exact absurd hphase hexited
  | asleep d => exact absurd hphase (hasleep d)
  | starting | atLoop | testing d | timedOut | cleaning =>
    refine ⟨_, rfl, hstop, rfl, rfl, ?_, ?_⟩ <;> simp [hstop, distance]
  | fallingAsleep d => exact ⟨_, rfl, hstop, rfl, rfl, by simp [distance], fun _ => ⟨d, rfl⟩⟩

/-- Joining what has left its loop. -/
theorem run_join (hd : s.destructor = .joining) (hphase : s.phase = .exited) :
    run (step limits) s [.join] = some { s with destructor := .joined } := by
  have hstep : s.step limits .join = some { s with destructor := .joined } := by
    simp only [step, if_pos (And.intro hd hphase)]
  exact run_cons_eq_some.mpr ⟨_, hstep, rfl⟩

/-- A thread that is neither asleep nor about to sleep leaves its loop by steps of its own. -/
theorem exists_prompt (limits : RateLimits) (hstop : s.stop = true) (hd : s.destructor = .joining)
    (hasleep : ∀ d, s.phase ≠ .asleep d ∧ s.phase ≠ .fallingAsleep d) :
    ∃ events u, (∀ e ∈ events, e.own = true) ∧ run (step limits) s events = some u ∧
      u.destructor = .joined ∧ u.now = s.now := by
  induction hn : distance s.phase using Nat.strong_induction_on generalizing s with
  | _ n ih =>
    by_cases hexited : s.phase = .exited
    · exact ⟨[.join], _, by simp [CleanupEvent.own], run_join hd hexited, rfl, rfl⟩
    obtain ⟨t, ht, hstop', hnow, hd', hlt, hback⟩ :=
      exists_thread limits hstop hexited fun d => (hasleep d).1
    have hawake : ∀ d, t.phase ≠ .asleep d ∧ t.phase ≠ .fallingAsleep d := by
      intro d
      constructor
      · intro hsleep
        obtain ⟨d', hfalling⟩ := hback ⟨d, hsleep⟩
        exact (hasleep d').2 hfalling
      · intro hfalling
        rw [hfalling] at hlt
        exact absurd (distance_le s.phase) (Nat.not_le.mpr hlt)
    obtain ⟨events, u, hown, hu, hjoined, hnow'⟩ := ih (distance t.phase) (hn ▸ hlt) hstop'
      (hd'.trans hd) hawake rfl
    refine ⟨.thread :: events, u, ?_, run_cons_eq_some.mpr ⟨t, ht, hu⟩, hjoined, hnow'.trans hnow⟩
    simpa [CleanupEvent.own] using hown

/-- A thread that is asleep, or about to sleep, before its deadline stays so by itself. -/
theorem step_stuck {e : CleanupEvent} {d : ℚ} (he : e.own = true)
    (hs : (s.phase = .asleep d ∨ s.phase = .fallingAsleep d) ∧ s.now < d ∧
      s.destructor = .joining) (h : s.step limits e = some u) :
    (u.phase = .asleep d ∨ u.phase = .fallingAsleep d) ∧ u.now < d ∧
      u.destructor = .joining := by
  obtain ⟨hphase, hnow, hd⟩ := hs
  cases e with
  | elapse later | consume identifier cost | spurious | setStop | notifyOne => cases he
  | thread =>
    simp only [step, threadStep] at h
    rcases hphase with hphase | hphase
    · simp [hphase, not_le.mpr hnow] at h
    · simp only [hphase, Option.some.injEq] at h
      rw [← h]
      exact ⟨.inl rfl, hnow, hd⟩
  | join =>
    simp only [step, Option.ite_none_right_eq_some] at h
    rcases hphase with hphase | hphase <;> simp [hphase] at h

/-- The cleanup thread has found the predicate false and is about to sleep until a later moment: a
notification now is lost. -/
def LosesWakeUp (s : CleanupThread) : Prop := ∃ d, s.phase = .fallingAsleep d ∧ s.now < d

/-- With the deadline past, a lost notification costs nothing. -/
theorem exists_passed (limits : RateLimits) {d : ℚ} (hstop : s.stop = true) (hd : s.destructor = .joining)
    (hphase : s.phase = .fallingAsleep d) (hpast : d ≤ s.now) :
    ∃ events u, (∀ e ∈ events, e.own = true) ∧ run (step limits) s events = some u ∧
      u.destructor = .joined := by
  have hfall : s.step limits .thread = some { s with phase := .asleep d } := by
    simp only [step, threadStep, hphase]
  have htimeout : step limits { s with phase := .asleep d } .thread =
      some { s with phase := .timedOut } := by
    simp only [step, threadStep, if_pos hpast]
  obtain ⟨events, u, hown, hu, hjoined, -⟩ := exists_prompt limits
    (s := { s with phase := .timedOut }) hstop hd fun _ => by simp
  refine ⟨.thread :: .thread :: events, u, ?_, ?_, hjoined⟩
  · simpa [CleanupEvent.own] using hown
  · exact run_cons_eq_some.mpr ⟨_, hfall, run_cons_eq_some.mpr ⟨_, htimeout, hu⟩⟩

theorem wake_phase (s : CleanupThread) :
    (∀ d, s.wake.phase ≠ .asleep d) ∧
      ∀ d, s.wake.phase = .fallingAsleep d ↔ s.phase = .fallingAsleep d := by
  unfold wake
  cases hphase : s.phase <;> simp [hphase]

/-- Once `stop` is set, no new wait begins. -/
theorem step_deadline {e : CleanupEvent} {latest : ℚ}
    (hs : s.stop = true ∧ ∀ d ∈ s.deadline, d ≤ latest) (h : s.step limits e = some u) :
    u.stop = true ∧ ∀ d ∈ u.deadline, d ≤ latest := by
  obtain ⟨hstop, hdeadline⟩ := hs
  refine ⟨(remaining_step hstop h).1, ?_⟩
  cases e with
  | elapse later | setStop | join =>
    simp only [step, Option.ite_none_right_eq_some, Option.some.injEq] at h
    rw [← h.2]
    exact hdeadline
  | consume identifier cost =>
    simp only [step, Option.some.injEq] at h
    rw [← h]
    exact hdeadline
  | spurious =>
    simp only [step, Option.some.injEq] at h
    rw [← h, wake_deadline]
    exact hdeadline
  | notifyOne =>
    simp only [step, Option.ite_none_right_eq_some, Option.some.injEq] at h
    rw [← h.2]
    intro d hd
    exact hdeadline d (by rwa [← wake_deadline])
  | thread =>
    simp only [step, threadStep] at h
    cases hphase : s.phase with
    | exited => simp [hphase] at h
    | asleep d =>
      simp only [hphase, Option.ite_none_right_eq_some, Option.some.injEq] at h
      rw [← h.2]
      simp [deadline]
    | fallingAsleep d =>
      simp only [hphase, Option.some.injEq] at h
      rw [← h]
      simpa [deadline, hphase] using hdeadline
    | starting | atLoop | testing d | timedOut | cleaning =>
      simp only [hphase, Option.some.injEq] at h
      rw [← h]
      simp [deadline, hstop]

/-- With the destructor at its join, some own step is possible unless the thread sleeps. -/
theorem own_step_or_asleep (hd : s.destructor = .joining) :
    (∃ e, e.own = true ∧ (s.step limits e).isSome) ∨ ∃ d, s.phase = .asleep d ∧ s.now < d := by
  by_cases hasleep : ∃ d, s.phase = .asleep d ∧ s.now < d
  · exact .inr hasleep
  · left
    cases hphase : s.phase with
    | exited => exact ⟨.join, rfl, by simp [step, hd, hphase]⟩
    | asleep d =>
      have hpast : d ≤ s.now := by
        by_contra hearly
        exact hasleep ⟨d, hphase, not_le.mp hearly⟩
      exact ⟨.thread, rfl, by simp [step, threadStep, hphase, hpast]⟩
    | starting | atLoop | testing d | fallingAsleep d | timedOut | cleaning =>
      exact ⟨.thread, rfl, by simp [step, threadStep, hphase]⟩

/-- The destructor stays at its join until the thread is joined. -/
theorem step_joining {e : CleanupEvent} (hs : s.destructor = .joining ∨ s.destructor = .joined)
    (h : s.step limits e = some u) : u.destructor = .joining ∨ u.destructor = .joined := by
  cases e with
  | elapse later =>
    simp only [step, Option.ite_none_right_eq_some, Option.some.injEq] at h
    rw [← h.2]
    exact hs
  | setStop | notifyOne =>
    simp only [step, Option.ite_none_right_eq_some, Option.some.injEq] at h
    simp [h.1] at hs
  | join =>
    simp only [step, Option.ite_none_right_eq_some, Option.some.injEq] at h
    rw [← h.2]
    exact .inr rfl
  | consume identifier cost =>
    simp only [step, Option.some.injEq] at h
    rw [← h]
    exact hs
  | spurious =>
    simp only [step, Option.some.injEq] at h
    rw [← h, (wake_fields s).2.2.2.2.2]
    exact hs
  | thread =>
    simp only [step, threadStep] at h
    cases hphase : s.phase with
    | exited => simp [hphase] at h
    | asleep d =>
      simp only [hphase, Option.ite_none_right_eq_some, Option.some.injEq] at h
      rw [← h.2]
      exact hs
    | starting | atLoop | testing d | fallingAsleep d | timedOut | cleaning =>
      simp only [hphase, Option.some.injEq] at h
      rw [← h]
      exact hs

/-- The destructor, at the moment of its notification, in any interleaving. Whatever follows, the
threads take at most four steps of their own; until the thread is joined one of them is possible,
unless the thread sleeps, which ends within a minute. And the destructor can be over with no time
passing and no wake-up out of nowhere exactly if the notification is not lost. -/
theorem destructor_returns {before : List CleanupEvent}
    (hbefore : run (step limits) (constructed start) before = some s)
    (hs : s.destructor = .notifying) :
    (∀ events u, run (step limits) s events = some u →
      (events.filter CleanupEvent.own).length ≤ 4) ∧
    (∀ events u, run (step limits) s (.notifyOne :: events) = some u →
      u.destructor = .joined ∨ (∃ e, e.own = true ∧ (u.step limits e).isSome) ∨
        ∃ d, u.phase = .asleep d ∧ u.now < d ∧ d ≤ s.now + waitFor) ∧
    ((∃ events u, (∀ e ∈ events, e.own = true) ∧
        run (step limits) s (.notifyOne :: events) = some u ∧ u.destructor = .joined) ↔
      ¬ s.LosesWakeUp) := by
  have hclocked : Clocked limits start s :=
    run_invariant (fun s e t hs h => step_clocked hs h) (clocked_constructed start) hbefore
  have hfirst : Stopping (constructed start) := stopping_constructed
  have hstopping : Stopping s :=
    run_invariant (fun s e t hs h => step_stopping hs h) hfirst hbefore
  have hstop : s.stop = true := hstopping.stop (by simp [hs])
  -- the state right after the notification
  obtain ⟨t, ht, htstop, htd, hnow, hasleep, hfalling⟩ : ∃ t, s.step limits .notifyOne = some t ∧
      t.stop = true ∧ t.destructor = .joining ∧ t.now = s.now ∧ (∀ d, t.phase ≠ .asleep d) ∧
      ∀ d, t.phase = .fallingAsleep d ↔ s.phase = .fallingAsleep d := by
    obtain ⟨-, -, -, hnow, hsame, -⟩ := wake_fields s
    refine ⟨{ s.wake with destructor := .joining }, ?_, hsame.trans hstop, rfl, hnow,
      (wake_phase s).1, (wake_phase s).2⟩
    simp only [step, if_pos hs]
  refine ⟨fun events u hu => ?_, ?_, ?_, ?_⟩
  · have hstep : ∀ (s : CleanupThread) e t, s.stop = true → s.step limits e = some t →
        t.stop = true := fun s e t hs h => (remaining_step hs h).1
    have hpay : ∀ (s : CleanupThread) e t, s.stop = true → s.step limits e = some t →
        t.remaining + (if e.own then 1 else 0) ≤ s.remaining :=
      fun s e t hs h => (remaining_step hs h).2
    have hbound := own_add_potential_le hstep hpay hstop hu
    have hstart : s.remaining ≤ 4 := by
      have hle := distance_le s.phase
      unfold remaining
      split_ifs <;> omega
    omega
  · intro events u hu
    have hdeadline := run_invariant (fun s e t hs h => step_deadline hs h)
      ⟨hstop, hclocked.waiting⟩ hu
    obtain ⟨t', ht', hu⟩ := run_cons_eq_some.mp hu
    rw [ht, Option.some.injEq] at ht'
    subst ht'
    rcases run_invariant (fun s e t hs h => step_joining hs h) (.inl htd) hu with hjoining | hjoined
    · right
      apply (own_step_or_asleep hjoining).imp_right
      rintro ⟨d, hd, hearly⟩
      exact ⟨d, hd, hearly, hdeadline.2 d (by simp [deadline, hd])⟩
    · exact .inl hjoined
  · rintro ⟨events, u, hown, hrun, hjoined⟩ ⟨d, hd, hearly⟩
    obtain ⟨t', ht', hu⟩ := run_cons_eq_some.mp hrun
    rw [ht, Option.some.injEq] at ht'
    subst ht'
    let Stuck (v : CleanupThread) : Prop :=
      (v.phase = .asleep d ∨ v.phase = .fallingAsleep d) ∧ v.now < d ∧ v.destructor = .joining
    have hstep : ∀ (s : CleanupThread) e t, Stuck s → e.own = true → s.step limits e = some t →
        Stuck t := fun s e t hs he h => step_stuck he hs h
    have hstart : Stuck t := ⟨.inr ((hfalling d).mpr hd), hnow ▸ hearly, htd⟩
    have hstuck := guarded_run_invariant hstep hstart (guarded_of_forall_mem t hown) hu
    rw [hstuck.2.2] at hjoined
    cases hjoined
  · intro hkept
    by_cases hlost : ∃ d, t.phase = .fallingAsleep d
    · obtain ⟨d, hd⟩ := hlost
      have hpast : d ≤ t.now := by
        by_contra hearly
        exact hkept ⟨d, (hfalling d).mp hd, hnow ▸ not_le.mp hearly⟩
      obtain ⟨events, u, hown, hu, hjoined⟩ := exists_passed limits htstop htd hd hpast
      exact ⟨events, u, hown, run_cons_eq_some.mpr ⟨t, ht, hu⟩, hjoined⟩
    · obtain ⟨events, u, hown, hu, hjoined, -⟩ := exists_prompt limits htstop htd
        fun d => ⟨hasleep d, fun hd => hlost ⟨d, hd⟩⟩
      exact ⟨events, u, hown, run_cons_eq_some.mpr ⟨t, ht, hu⟩, hjoined⟩

/-- A limiter that is destroyed just when its thread is about to sleep for the first time. -/
theorem destructor_returns_lost :
    ∃ s, run (step fortyTokens) (constructed 0) [.thread, .thread, .thread, .setStop] = some s ∧
      ¬ ∃ events u, (∀ e ∈ events, e.own = true) ∧
        run (step fortyTokens) s (.notifyOne :: events) = some u ∧ u.destructor = .joined := by
  have hrun : run (step fortyTokens) (constructed 0) [.thread, .thread, .thread, .setStop] =
      some { constructed 0 with
        phase := .fallingAsleep (0 + waitFor), stop := true, destructor := .notifying } := rfl
  refine ⟨_, hrun, fun hprompt => ?_⟩
  apply (destructor_returns hrun rfl).2.2.mp hprompt
  exact ⟨0 + waitFor, rfl, by norm_num [constructed, waitFor]⟩

end CleanupThread
end ServerSimple.Network
