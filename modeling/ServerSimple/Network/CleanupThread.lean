import ServerSimple.Library.Potential
import ServerSimple.Network.RateLimiterCleanup

/-! # The cleanup thread of the rate limiter

`cleanup_loop` with its timed wait, the destructor that ends it, and the callers of `consume` beside
them. `cleanup_mutex` is taken by the cleanup thread alone. The destructor sets `stop` and notifies
without holding it, so both can fall between a test of the predicate and the sleep that follows. The
clock is steady and moves when nobody looks.
-/

namespace ServerSimple.Network

open Library

/-- Where the cleanup thread is in `cleanup_loop`. -/
inductive CleanupPhase where
  /-- Before it holds `cleanup_mutex`. -/
  | starting
  /-- At the test of the loop. -/
  | atLoop
  /-- In `wait_for`, before a test of the predicate. -/
  | testing (deadline : ℚ)
  /-- The predicate was false; the thread still holds the mutex. -/
  | fallingAsleep (deadline : ℚ)
  | asleep (deadline : ℚ)
  /-- The wait has timed out; the predicate is tested once more. -/
  | timedOut
  /-- Before `cleanup`. -/
  | cleaning
  | exited
  deriving DecidableEq

/-- Where a thread is in the destructor. -/
inductive DestructorPhase where
  | outside
  /-- After `stop = true`, before `notify_one`. -/
  | notifying
  | joining
  | joined
  deriving DecidableEq

/-- The last two fields record history: the calls in the order in which they hold `mutex`, and the
results of `consume`. -/
structure CleanupThread where
  limiter : RateLimiter
  phase : CleanupPhase
  stop : Bool
  destructor : DestructorPhase
  now : ℚ
  calls : List LimiterCall
  results : List (Consume × Bool)

inductive CleanupEvent where
  /-- The clock moves on to the given reading. -/
  | elapse (later : ℚ)
  | consume (identifier : String) (cost : ℚ)
  /-- The cleanup thread takes its next step. -/
  | thread
  /-- A wake-up without a notification. -/
  | spurious
  | setStop
  | notifyOne
  | join

namespace CleanupThread

/-- The limiter as its constructor leaves it. -/
def constructed (now : ℚ) : CleanupThread := ⟨.initial, .starting, false, .outside, now, [], []⟩

/-- `std::chrono::minutes(1)`, in seconds. -/
def waitFor : ℚ := 60

variable (limits : RateLimits)

/-- The next step of `cleanup_loop`. Asleep, it needs the deadline to have passed. -/
def threadStep (s : CleanupThread) : Option CleanupThread :=
  match s.phase with
  | .starting => some { s with phase := .atLoop }
  | .atLoop =>
    some { s with phase := if s.stop then .exited else .testing (s.now + waitFor) }
  | .testing deadline =>
    some { s with phase := if s.stop then .exited else .fallingAsleep deadline }
  | .fallingAsleep deadline => some { s with phase := .asleep deadline }
  | .asleep deadline => if deadline ≤ s.now then some { s with phase := .timedOut } else none
  | .timedOut => some { s with phase := if s.stop then .exited else .cleaning }
  | .cleaning =>
    some { s with
      phase := .atLoop
      limiter := s.limiter.cleanup limits s.now
      calls := s.calls ++ [.cleanup s.now] }
  | .exited => none

/-- A sleeper is back in `wait_for`; anybody else notices nothing. -/
def wake (s : CleanupThread) : CleanupThread :=
  match s.phase with
  | .asleep deadline => { s with phase := .testing deadline }
  | _ => s

def step (s : CleanupThread) : CleanupEvent → Option CleanupThread
  | .elapse later => if s.now ≤ later then some { s with now := later } else none
  | .consume identifier cost =>
    let call : Consume := ⟨s.now, identifier, cost⟩
    some { s with
      limiter := (s.limiter.consume limits call).2
      calls := s.calls ++ [.consume call]
      results := s.results ++ [(call, (s.limiter.consume limits call).1)] }
  | .thread => s.threadStep limits
  | .spurious => some s.wake
  | .setStop =>
    if s.destructor = .outside then some { s with stop := true, destructor := .notifying } else none
  | .notifyOne =>
    if s.destructor = .notifying then some { s.wake with destructor := .joining } else none
  | .join =>
    if s.destructor = .joining ∧ s.phase = .exited then some { s with destructor := .joined }
    else none

/-- The readings of the clock in the calls of `cleanup`. -/
def cleanupTimes (calls : List LimiterCall) : List ℚ :=
  calls.filterMap fun call =>
    match call with
    | .cleanup now => some now
    | .consume _ => none

/-- When the next cleanup can come at the earliest, seen from where the thread is. -/
def nextCleanup (s : CleanupThread) : ℚ :=
  match s.phase with
  | .starting | .atLoop | .exited => s.now + waitFor
  | .testing deadline | .fallingAsleep deadline | .asleep deadline => deadline
  | .timedOut | .cleaning => s.now

/-- The deadline of a wait that is under way. -/
def deadline (s : CleanupThread) : Option ℚ :=
  match s.phase with
  | .testing deadline | .fallingAsleep deadline | .asleep deadline => some deadline
  | _ => none

/-! ## The calls of a run -/

variable {limits}

theorem serve_append (limiter : RateLimiter) (first rest : List LimiterCall) :
    limiter.serve limits (first ++ rest) =
      (((limiter.serve limits first).1.serve limits rest).1,
        (limiter.serve limits first).2 ++ ((limiter.serve limits first).1.serve limits rest).2) := by
  induction first generalizing limiter with
  | nil => rfl
  | cons call first ih =>
    cases call with
    | consume call => simp only [List.cons_append, RateLimiter.serve, ih]
    | cleanup now => simp only [List.cons_append, RateLimiter.serve, ih]

/-- What the clock and the calls of a run satisfy: the limiter is in the state that the calls lead
to, their readings go up, and the cleanups keep their distance. -/
structure Clocked (limits : RateLimits) (start : ℚ) (s : CleanupThread) : Prop where
  served : RateLimiter.initial.serve limits s.calls = (s.limiter, s.results)
  past : ∀ call ∈ s.calls, call.now ≤ s.now
  ordered : s.calls.Pairwise fun c d => c.now ≤ d.now
  spaced : (cleanupTimes s.calls).Pairwise fun a b => a + waitFor ≤ b
  first : ∀ a ∈ cleanupTimes s.calls, start + waitFor ≤ a
  due : start ≤ s.now ∧ (∀ a ∈ cleanupTimes s.calls, a + waitFor ≤ s.nextCleanup) ∧
    start + waitFor ≤ s.nextCleanup
  waiting : ∀ d ∈ s.deadline, d ≤ s.now + waitFor

theorem clocked_constructed (start : ℚ) : Clocked limits start (constructed start) where
  served := rfl
  past _ h := absurd h List.not_mem_nil
  ordered := .nil
  spaced := .nil
  first _ h := absurd h List.not_mem_nil
  due := ⟨le_rfl, fun _ h => absurd h List.not_mem_nil, le_rfl⟩
  waiting _ h := by simp [deadline, constructed] at h

theorem mem_cleanupTimes {calls : List LimiterCall} {a : ℚ} :
    a ∈ cleanupTimes calls ↔ .cleanup a ∈ calls := by
  simp only [cleanupTimes, List.mem_filterMap]
  constructor
  · rintro ⟨call, hcall, h⟩
    cases call with
    | consume call => cases h
    | cleanup now =>
      cases h
      exact hcall
  · exact fun h => ⟨_, h, rfl⟩

variable {s u : CleanupThread} {start : ℚ}

/-- A step that makes no call only has to keep the next cleanup in place. -/
theorem Clocked.quiet (hs : Clocked limits start s) (hlimiter : u.limiter = s.limiter)
    (hcalls : u.calls = s.calls) (hresults : u.results = s.results) (hnow : s.now ≤ u.now)
    (hnext : s.nextCleanup ≤ u.nextCleanup)
    (hwaiting : ∀ d ∈ u.deadline, d ≤ u.now + waitFor) : Clocked limits start u where
  served := by
    rw [hcalls, hlimiter, hresults]
    exact hs.served
  past call hcall := by
    rw [hcalls] at hcall
    exact (hs.past call hcall).trans hnow
  ordered := by
    rw [hcalls]
    exact hs.ordered
  spaced := by
    rw [hcalls]
    exact hs.spaced
  first := by
    rw [hcalls]
    exact hs.first
  due := by
    rw [hcalls]
    exact ⟨hs.due.1.trans hnow, fun a ha => (hs.due.2.1 a ha).trans hnext, hs.due.2.2.trans hnext⟩
  waiting := hwaiting

theorem waitFor_pos : 0 < waitFor := by norm_num [waitFor]

/-- A sleeper that is woken goes on with the same deadline. -/
theorem wake_nextCleanup (s : CleanupThread) : s.wake.nextCleanup = s.nextCleanup := by
  unfold wake nextCleanup
  cases hphase : s.phase <;> simp [hphase]

theorem wake_deadline (s : CleanupThread) : s.wake.deadline = s.deadline := by
  unfold wake deadline
  cases hphase : s.phase <;> simp [hphase]

theorem wake_fields (s : CleanupThread) : s.wake.limiter = s.limiter ∧ s.wake.calls = s.calls ∧
    s.wake.results = s.results ∧ s.wake.now = s.now ∧ s.wake.stop = s.stop ∧
    s.wake.destructor = s.destructor := by
  unfold wake
  cases s.phase <;> simp

theorem clocked_wake (hs : Clocked limits start s) : Clocked limits start s.wake := by
  obtain ⟨hlimiter, hcalls, hresults, hnow, -, -⟩ := wake_fields s
  refine hs.quiet hlimiter hcalls hresults hnow.ge (wake_nextCleanup s).ge ?_
  rw [wake_deadline, hnow]
  exact hs.waiting

/-- The cleanup is made at a moment at which it is due, and the next one is a minute away. -/
theorem clocked_cleaning (hs : Clocked limits start s) (hphase : s.phase = .cleaning) :
    Clocked limits start { s with
      phase := .atLoop
      limiter := s.limiter.cleanup limits s.now
      calls := s.calls ++ [.cleanup s.now] } := by
  have hnext : s.nextCleanup = s.now := by
    simp [nextCleanup, hphase]
  have hdue := hs.due
  rw [hnext] at hdue
  have htimes : cleanupTimes (s.calls ++ [.cleanup s.now]) = cleanupTimes s.calls ++ [s.now] := by
    simp [cleanupTimes]
  exact {
    served := by
      rw [serve_append, hs.served]
      simp [RateLimiter.serve]
    past := by
      intro call hcall
      rcases List.mem_append.mp hcall with hcall | hcall
      · exact hs.past call hcall
      · rw [List.mem_singleton.mp hcall]
        exact le_rfl
    ordered := by
      refine List.pairwise_append.mpr ⟨hs.ordered, List.pairwise_singleton .., ?_⟩
      intro call hcall last hlast
      rw [List.mem_singleton.mp hlast]
      exact hs.past call hcall
    spaced := by
      rw [htimes]
      refine List.pairwise_append.mpr ⟨hs.spaced, List.pairwise_singleton .., ?_⟩
      intro a ha b hb
      rw [List.mem_singleton.mp hb]
      exact hdue.2.1 a ha
    first := by
      intro a ha
      rw [htimes] at ha
      rcases List.mem_append.mp ha with ha | ha
      · exact hs.first a ha
      · rw [List.mem_singleton.mp ha]
        exact hdue.2.2
    due := by
      refine ⟨hs.due.1, fun a ha => ?_, ?_⟩
      · rw [htimes] at ha
        rcases List.mem_append.mp ha with ha | ha
        · exact (hdue.2.1 a ha).trans (le_add_of_nonneg_right waitFor_pos.le)
        · rw [List.mem_singleton.mp ha]
          exact le_rfl
      · exact hdue.2.2.trans (le_add_of_nonneg_right waitFor_pos.le)
    waiting := by
      intro d hd
      simp [deadline] at hd }

theorem clocked_thread (hs : Clocked limits start s) (h : s.threadStep limits = some u) :
    Clocked limits start u := by
  unfold threadStep at h
  have hminute := waitFor_pos
  have hwaiting := hs.waiting
  cases hphase : s.phase with
  | starting =>
    simp only [hphase, Option.some.injEq] at h
    subst h
    exact hs.quiet rfl rfl rfl le_rfl (by simp [nextCleanup, hphase]) (by simp [deadline])
  | atLoop =>
    simp only [hphase, Option.some.injEq] at h
    subst h
    refine hs.quiet rfl rfl rfl le_rfl ?_ ?_ <;> cases s.stop <;>
      simp [nextCleanup, deadline, hphase]
  | testing d =>
    simp only [hphase, Option.some.injEq] at h
    subst h
    simp only [deadline, hphase, Option.mem_def, Option.some.injEq, forall_eq'] at hwaiting
    refine hs.quiet rfl rfl rfl le_rfl ?_ ?_ <;> cases s.stop <;>
      simp [nextCleanup, deadline, hphase, hwaiting]
  | fallingAsleep d =>
    simp only [hphase, Option.some.injEq] at h
    subst h
    simp only [deadline, hphase, Option.mem_def, Option.some.injEq, forall_eq'] at hwaiting
    exact hs.quiet rfl rfl rfl le_rfl (by simp [nextCleanup, hphase]) (by simp [deadline, hwaiting])
  | asleep d =>
    simp only [hphase, Option.ite_none_right_eq_some, Option.some.injEq] at h
    obtain ⟨hpast, rfl⟩ := h
    exact hs.quiet rfl rfl rfl le_rfl (by simp [nextCleanup, hphase, hpast]) (by simp [deadline])
  | timedOut =>
    simp only [hphase, Option.some.injEq] at h
    subst h
    refine hs.quiet rfl rfl rfl le_rfl ?_ ?_ <;> cases s.stop <;>
      simp [nextCleanup, deadline, hphase, hminute.le]
  | cleaning =>
    simp only [hphase, Option.some.injEq] at h
    subst h
    exact clocked_cleaning hs hphase
  | exited => simp [hphase] at h

theorem step_clocked {e : CleanupEvent} (hs : Clocked limits start s)
    (h : s.step limits e = some u) : Clocked limits start u := by
  cases e with
  | elapse later =>
    simp only [step, Option.ite_none_right_eq_some, Option.some.injEq] at h
    obtain ⟨hlater, rfl⟩ := h
    refine hs.quiet rfl rfl rfl hlater ?_ fun d hd => ?_
    · unfold nextCleanup
      cases s.phase <;> simp [hlater]
    · exact (hs.waiting d hd).trans (add_le_add_left hlater _)
  | consume identifier cost =>
    simp only [step, Option.some.injEq] at h
    subst h
    have htimes : cleanupTimes (s.calls ++ [.consume ⟨s.now, identifier, cost⟩]) =
        cleanupTimes s.calls := by
      simp [cleanupTimes]
    exact {
      served := by
        rw [serve_append, hs.served]
        simp [RateLimiter.serve]
      past := by
        intro call hcall
        rcases List.mem_append.mp hcall with hcall | hcall
        · exact hs.past call hcall
        · rw [List.mem_singleton.mp hcall]
          exact le_rfl
      ordered := by
        refine List.pairwise_append.mpr ⟨hs.ordered, List.pairwise_singleton .., ?_⟩
        intro call hcall last hlast
        rw [List.mem_singleton.mp hlast]
        exact hs.past call hcall
      spaced := by
        rw [htimes]
        exact hs.spaced
      first := by
        rw [htimes]
        exact hs.first
      due := by
        rw [htimes]
        exact hs.due
      waiting := hs.waiting }
  | thread => exact clocked_thread hs h
  | spurious =>
    simp only [step, Option.some.injEq] at h
    subst h
    exact clocked_wake hs
  | setStop =>
    simp only [step, Option.ite_none_right_eq_some, Option.some.injEq] at h
    obtain ⟨-, rfl⟩ := h
    exact hs.quiet rfl rfl rfl le_rfl le_rfl hs.waiting
  | notifyOne =>
    simp only [step, Option.ite_none_right_eq_some, Option.some.injEq] at h
    obtain ⟨-, rfl⟩ := h
    have hwoken := clocked_wake hs
    exact hwoken.quiet rfl rfl rfl le_rfl le_rfl hwoken.waiting
  | join =>
    simp only [step, Option.ite_none_right_eq_some, Option.some.injEq] at h
    obtain ⟨-, rfl⟩ := h
    exact hs.quiet rfl rfl rfl le_rfl le_rfl hs.waiting

/-! ## What the table remembers -/

/-- An entry after `consume` was there before, or the call has just refilled it. -/
theorem consume_requests {limiter : RateLimiter} {call : Consume} {identifier : String}
    {entry : RateEntry}
    (h : (limiter.consume limits call).2.requests identifier = some entry) :
    (identifier = call.identifier ∧ entry.lastRefill = call.now) ∨
      limiter.requests identifier = some entry := by
  by_cases hid : identifier = call.identifier
  · subst hid
    by_cases hcost : call.cost ≤ 0 ∨ limits.maxTokens < call.cost
    · rw [RateLimiter.consume_of_invalid hcost] at h
      exact .inr h
    · refine .inl ⟨rfl, ?_⟩
      cases hentry : limiter.requests call.identifier with
      | none =>
        rw [RateLimiter.consume_of_new hcost hentry] at h
        simp only [RateLimiter.set_self, Option.some.injEq] at h
        rw [← h]
      | some old =>
        rw [RateLimiter.consume_of_entry hcost hentry] at h
        dsimp only at h
        split_ifs at h <;> simp only [RateLimiter.set_self, Option.some.injEq] at h <;> rw [← h]
  · rw [RateLimiter.consume_of_ne limits limiter hid] at h
    exact .inr h

/-- Every entry belongs to a call that refilled it, and no cleanup has found it idle too long. -/
def Remembers (limits : RateLimits) (s : CleanupThread) : Prop :=
  ∀ identifier entry, s.limiter.requests identifier = some entry →
    (∃ call, .consume call ∈ s.calls ∧ call.identifier = identifier ∧
      call.now = entry.lastRefill) ∧
    ∀ a ∈ cleanupTimes s.calls, a - entry.lastRefill ≤ max limits.cleanupAfterIdleDuration 0

theorem step_remembers {e : CleanupEvent} (hclocked : Clocked limits start s)
    (hs : s.Remembers limits) (h : s.step limits e = some u) : u.Remembers limits := by
  have hsame : ∀ v : CleanupThread, v.limiter = s.limiter → v.calls = s.calls →
      v.Remembers limits := fun v hlimiter hcalls => by
    unfold Remembers
    rw [hlimiter, hcalls]
    exact hs
  cases e with
  | elapse later | setStop | join =>
    simp only [step, Option.ite_none_right_eq_some, Option.some.injEq] at h
    rw [← h.2]
    exact hs
  | notifyOne =>
    simp only [step, Option.ite_none_right_eq_some, Option.some.injEq] at h
    rw [← h.2]
    exact hsame _ (wake_fields s).1 (wake_fields s).2.1
  | spurious =>
    simp only [step, Option.some.injEq] at h
    rw [← h]
    exact hsame _ (wake_fields s).1 (wake_fields s).2.1
  | consume identifier cost =>
    simp only [step, Option.some.injEq] at h
    subst h
    intro other entry hentry
    rcases consume_requests hentry with ⟨rfl, hrefill⟩ | hold
    · refine ⟨⟨_, List.mem_append_right _ (List.mem_singleton_self _), rfl, hrefill.symm⟩, ?_⟩
      intro a ha
      have hpast : a ≤ s.now := by
        rcases List.mem_append.mp (mem_cleanupTimes.mp ha) with hmem | hmem
        · exact hclocked.past _ hmem
        · simp at hmem
      rw [hrefill]
      exact (sub_nonpos.mpr hpast).trans (le_max_right ..)
    · obtain ⟨⟨call, hcall, hid, hnow⟩, hidle⟩ := hs other entry hold
      refine ⟨⟨call, List.mem_append_left _ hcall, hid, hnow⟩, fun a ha => hidle a ?_⟩
      rcases List.mem_append.mp (mem_cleanupTimes.mp ha) with hmem | hmem
      · exact mem_cleanupTimes.mpr hmem
      · simp at hmem
  | thread =>
    simp only [step, threadStep] at h
    cases hphase : s.phase with
    | cleaning =>
      simp only [hphase, Option.some.injEq] at h
      subst h
      intro identifier entry hentry
      simp only [RateLimiter.cleanup, Option.filter_eq_some_iff, decide_eq_true_eq] at hentry
      obtain ⟨⟨call, hcall, hid, hnow⟩, hidle⟩ := hs identifier entry hentry.1
      refine ⟨⟨call, List.mem_append_left _ hcall, hid, hnow⟩, fun a ha => ?_⟩
      rcases List.mem_append.mp (mem_cleanupTimes.mp ha) with hmem | hmem
      · exact hidle a (mem_cleanupTimes.mpr hmem)
      · simp only [List.mem_singleton, LimiterCall.cleanup.injEq] at hmem
        rw [hmem]
        exact hentry.2.trans (le_max_left ..)
    | asleep d =>
      simp only [hphase, Option.ite_none_right_eq_some, Option.some.injEq] at h
      rw [← h.2]
      exact hs
    | exited => simp [hphase] at h
    | starting | atLoop | testing d | fallingAsleep d | timedOut =>
      simp only [hphase, Option.some.injEq] at h
      rw [← h]
      exact hs

/-- In every interleaving the limiter is in the state that its calls lead to, one after another; the
cleanups come at least a minute after the construction and a minute apart; and the table holds only
identifiers that were refilled by a call of theirs, none of them idle for longer than allowed when a
cleanup came. -/
theorem run_cleanups {events : List CleanupEvent}
    (hrun : run (step limits) (constructed start) events = some u) :
    RateLimiter.initial.serve limits u.calls = (u.limiter, u.results) ∧
    (∀ a ∈ cleanupTimes u.calls, start + waitFor ≤ a) ∧
    (cleanupTimes u.calls).Pairwise (fun a b => a + waitFor ≤ b) ∧ u.Remembers limits := by
  have hstep : ∀ (s : CleanupThread) e t, Clocked limits start s ∧ s.Remembers limits →
      s.step limits e = some t → Clocked limits start t ∧ t.Remembers limits :=
    fun s e t hs h => ⟨step_clocked hs.1 h, step_remembers hs.1 hs.2 h⟩
  have hnone : (constructed start).Remembers limits := fun identifier entry h => by
    simp [constructed, RateLimiter.initial] at h
  have hu := run_invariant hstep ⟨clocked_constructed start, hnone⟩ hrun
  exact ⟨hu.1.served, hu.1.first, hu.1.spaced, hu.2⟩

/-- A bucket of forty tokens that is full again after twenty seconds. -/
def fortyTokens : RateLimits := ⟨40, 2, 120, by norm_num, by norm_num⟩

/-- A client takes all it can get, is forgotten while idle, and takes all again. -/
def idleClient : List CleanupEvent :=
  [.consume "client" 40, .thread, .thread, .thread, .thread, .elapse 121, .thread, .thread, .thread,
    .consume "client" 40, .consume "client" 1]

theorem run_cleanups_idle :
    ∃ u, run (step fortyTokens) (constructed 0) idleClient = some u ∧
      cleanupTimes u.calls = [121] ∧ u.Remembers fortyTokens := by
  have hcleaned : (run (step fortyTokens) (constructed 0) idleClient).map
      (fun u => cleanupTimes u.calls) = some [121] := by
    decide +kernel
  obtain ⟨u, hu, htimes⟩ := Option.map_eq_some_iff.mp hcleaned
  exact ⟨u, hu, htimes, (run_cleanups hu).2.2.2⟩

/-! ## What the callers of `consume` see -/

/-- The calls of `consume` among all calls. -/
def consumesOf (calls : List LimiterCall) : List Consume :=
  calls.filterMap fun call =>
    match call with
    | .consume call => some call
    | .cleanup _ => none

theorem filter_isConsume (calls : List LimiterCall) :
    calls.filter LimiterCall.isConsume = (consumesOf calls).map .consume := by
  induction calls with
  | nil => rfl
  | cons call calls ih =>
    cases call with
    | consume call =>
      rw [List.filter_cons_of_pos rfl, ih]
      rfl
    | cleanup now =>
      rw [List.filter_cons_of_neg Bool.false_ne_true, ih]
      rfl

theorem map_fst_serve (limiter : RateLimiter) (calls : List LimiterCall) :
    (limiter.serve limits calls).2.map Prod.fst = consumesOf calls := by
  induction calls generalizing limiter with
  | nil => rfl
  | cons call calls ih =>
    cases call with
    | consume call => exact congrArg (call :: ·) (ih _)
    | cleanup now => exact ih _

theorem inOrder_consumesOf {calls : List LimiterCall}
    (h : calls.Pairwise fun c d => c.now ≤ d.now) : RateLimiter.InOrder (consumesOf calls) := by
  have hfiltered := h.filter LimiterCall.isConsume
  rw [filter_isConsume, List.pairwise_map] at hfiltered
  exact hfiltered

/-- Where the idle duration refills any bucket, the cleanups leave no trace in the results. -/
theorem serve_initial_cleanup
    (hlong : limits.maxTokens ≤ limits.refillRate * limits.cleanupAfterIdleDuration)
    {calls : List LimiterCall} (h : calls.Pairwise fun c d => c.now ≤ d.now) :
    (RateLimiter.initial.serve limits calls).2 =
      (RateLimiter.initial.serve limits ((consumesOf calls).map .consume)).2 := by
  rw [← filter_isConsume]
  cases calls with
  | nil => rfl
  | cons call calls =>
    apply RateLimiter.serve_cleanup hlong
      (fun identifier => RateLimiter.agrees_initial identifier call.now) h
    intro later hlater
    rcases List.mem_cons.mp hlater with rfl | hlater
    · exact le_rfl
    · exact (List.pairwise_cons.mp h).1 later hlater

/-- Calls in the order of time, with cleanups between them, are answered as by token buckets. -/
theorem serve_buckets
    (hlong : limits.maxTokens ≤ limits.refillRate * limits.cleanupAfterIdleDuration)
    {calls : List LimiterCall} (h : calls.Pairwise fun c d => c.now ≤ d.now) (identifier : String) :
    RateLimiter.resultsOf (RateLimiter.initial.serve limits calls).2 identifier =
      draws limits.maxTokens limits.refillRate none
        (RateLimiter.drawsOf (consumesOf calls) identifier) ∧
    ∀ s t, s ≤ t →
      drawnWithin s t
          (RateLimiter.resultsOf (RateLimiter.initial.serve limits calls).2 identifier) ≤
        limits.maxTokens + (t - s) * limits.refillRate := by
  have hcalls := inOrder_consumesOf h
  have hunused : RateLimiter.Represents limits (RateLimiter.initial.requests identifier) none :=
    .unused
  have hdraws := (hunused.serve hcalls fun _ _ _ h => by cases h).1
  rw [← serve_initial_cleanup hlong h] at hdraws
  refine ⟨hdraws, fun s t hst => ?_⟩
  have hsorted : (RateLimiter.drawsOf (consumesOf calls) identifier).Pairwise
      fun d e => d.now ≤ e.now := List.pairwise_map.mpr (hcalls.filter _)
  have hfull : Holds limits.maxTokens (none : Option (TokenBucket ℚ)) s := trivial
  rw [hdraws]
  exact drawnWithin_le limits.maxTokens_pos.le limits.refillRate_pos.le hst hfull hsorted
    fun _ _ => trivial

/-- With the cleanup thread running beside the callers, in every interleaving: if the idle duration
is long enough to refill an empty bucket, each identifier is answered as the token bucket answers
that sees its calls only, and in no time window is it given more than a full bucket and what is
refilled in the window. -/
theorem run_token_buckets
    (hlong : limits.maxTokens ≤ limits.refillRate * limits.cleanupAfterIdleDuration)
    {events : List CleanupEvent} (hrun : run (step limits) (constructed start) events = some u)
    (identifier : String) :
    RateLimiter.resultsOf u.results identifier = draws limits.maxTokens limits.refillRate none
      (RateLimiter.drawsOf (u.results.map Prod.fst) identifier) ∧
    ∀ s t, s ≤ t → drawnWithin s t (RateLimiter.resultsOf u.results identifier) ≤
      limits.maxTokens + (t - s) * limits.refillRate := by
  have hclocked : Clocked limits start u :=
    run_invariant (fun s e t hs h => step_clocked hs h) (clocked_constructed start) hrun
  have hresults : u.results = (RateLimiter.initial.serve limits u.calls).2 := by
    rw [hclocked.served]
  rw [hresults, map_fst_serve]
  exact serve_buckets hlong hclocked.ordered identifier

theorem run_token_buckets_idle :
    fortyTokens.maxTokens ≤ fortyTokens.refillRate * fortyTokens.cleanupAfterIdleDuration ∧
    ∃ u, run (step fortyTokens) (constructed 0) idleClient = some u ∧
      cleanupTimes u.calls = [121] ∧
      RateLimiter.resultsOf u.results "client" =
        draws 40 2 none (RateLimiter.drawsOf (u.results.map Prod.fst) "client") := by
  have hlong : fortyTokens.maxTokens ≤
      fortyTokens.refillRate * fortyTokens.cleanupAfterIdleDuration := by
    norm_num [fortyTokens]
  have hcleaned : (run (step fortyTokens) (constructed 0) idleClient).map
      (fun u => cleanupTimes u.calls) = some [121] := by
    decide +kernel
  obtain ⟨u, hu, htimes⟩ := Option.map_eq_some_iff.mp hcleaned
  exact ⟨hlong, u, hu, htimes, (run_token_buckets hlong hu "client").1⟩

end CleanupThread
end ServerSimple.Network
