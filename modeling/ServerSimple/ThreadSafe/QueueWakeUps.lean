import ServerSimple.Library.Counting
import ServerSimple.ThreadSafe.QueueThreads

/-! # Wake-ups of blocked consumers

A counting argument: while the queue is not stopped, either every sleeper has an undelivered
notification of its own, or the elements do not outnumber the undelivered notifications together
with the consumers already on their way. `replace` installs elements and notifies nobody, so it
keeps the argument only when the notifications on their way happen to suffice.
-/

set_option linter.unusedSectionVars false

namespace ServerSimple.ThreadSafe

open Library

namespace ThreadSafeQueue

variable {T : Type*} [QueueSizeTraits T] (lim : Limits)

/-- How many of the items `replace` keeps. -/
def installed (items : List T) : ℕ :=
  if lim.enableMaxSize ∧ lim.maximumSize > 0 then min items.length lim.maximumSize.toNat
  else items.length

theorem replace_length (q : ThreadSafeQueue T) (items : List T) :
    (replace lim q items).dequeue.length = installed lim items := by
  rw [replace_dequeue, fitting, installed]
  by_cases hmax : maxSize lim = 0
  · rw [if_pos hmax, if_neg fun htest => sizeTest_iff.mp htest hmax]
  · rw [if_neg hmax, if_pos (sizeTest_iff.mpr hmax), maxSize_eq hmax, List.length_take, Nat.sub_zero,
      Nat.min_comm]

theorem replaceLoop_stopped (items : List T) (n : ℕ) (q : ThreadSafeQueue T) :
    (replaceLoop lim items n q).stopped = q.stopped := by
  induction items generalizing n q with
  | nil => rfl
  | cons item items ih =>
    simp only [replaceLoop]
    split_ifs <;> simp only [ih]

variable (q : ThreadSafeQueue T)

/-- What a critical section other than `replace` and `wait_and_pop` means for the sleepers: it adds
one element and owes one notification, or adds none and owes none, or it stops the queue. -/
theorem exec_supply {op : Op T} (hwait : op ≠ .waitAndPop) (hreplace : ∀ items, op ≠ .replace items) :
    ((exec lim q op).phase = .notifyingOne ∧ (exec lim q op).queue.stopped = q.stopped ∧
      (exec lim q op).queue.dequeue.length = q.dequeue.length + 1) ∨
    ((exec lim q op).phase = .idle ∧ (exec lim q op).queue.stopped = q.stopped ∧
      (exec lim q op).queue.dequeue.length ≤ q.dequeue.length) ∨
    ((exec lim q op).phase = .notifyingAll ∧ q.stopped = false ∧
      (exec lim q op).queue.stopped = true) := by
  cases op with
  | tryPushBack item =>
    obtain hp | ⟨-, hp⟩ := tryPush_cases lim q atBack item
    · simp [exec, tryPushBack, hp, tryPushOutcome, Outcome.phase]
    · simp [exec, tryPushBack, hp, tryPushOutcome, Outcome.phase, atBack]
  | tryPushFront item =>
    obtain hp | ⟨-, hp⟩ := tryPush_cases lim q atFront item
    · simp [exec, tryPushFront, hp, tryPushOutcome, Outcome.phase]
    · simp [exec, tryPushFront, hp, tryPushOutcome, Outcome.phase, atFront]
  | pushBack item => simp [exec, pushBack, push_eq, Outcome.phase, atBack]
  | pushFront item => simp [exec, pushFront, push_eq, Outcome.phase, atFront]
  | popFront =>
    cases hd : q.dequeue with
    | nil => simp [exec, popFront, hd, popOutcome, Outcome.phase]
    | cons item rest => simp [exec, popFront_cons lim q hd, popOutcome, Outcome.phase]
  | popBack =>
    rcases List.eq_nil_or_concat' q.dequeue with hd | ⟨rest, item, hd⟩
    · simp [exec, popBack, hd, popOutcome, Outcome.phase]
    · simp [exec, popBack_append lim q hd, hd, popOutcome, Outcome.phase]
  | waitAndPop => exact absurd rfl hwait
  | replace items => exact absurd rfl (hreplace items)
  | clear => simp [exec, clear, Outcome.phase]
  | stop => cases hstop : q.stopped <;> simp [exec, stop_eq, hstop, Outcome.phase]
  | front => cases hr : q.front <;> simp [exec, hr, Except.map, popOutcome, Outcome.phase]
  | back => cases hr : q.back <;> simp [exec, hr, Except.map, popOutcome, Outcome.phase]
  | empty | size | maxSize | maxBytes | toVector => simp [exec, Outcome.phase]

/-- A consumer sleeps beside an empty running queue, gives up beside an empty stopped one, or takes
an element. -/
theorem waitAndPop_supply :
    ((exec lim q .waitAndPop).phase = .blocked ∧ (exec lim q .waitAndPop).queue = q ∧
      q.stopped = false ∧ q.dequeue.length = 0) ∨
    ((exec lim q .waitAndPop).phase = .idle ∧ (exec lim q .waitAndPop).queue = q ∧
      q.stopped = true) ∨
    ((exec lim q .waitAndPop).phase = .idle ∧
      (exec lim q .waitAndPop).queue.stopped = q.stopped ∧
      (exec lim q .waitAndPop).queue.dequeue.length + 1 = q.dequeue.length) := by
  obtain ⟨hd, hs, hw⟩ | ⟨hd, hs, hw⟩ | ⟨item, rest, hd, hw⟩ := waitAndPop_cases lim q
  · simp [exec, hw, hd, hs, Outcome.phase]
  · simp [exec, hw, hs, Outcome.phase]
  · simp [exec, hw, hd, Outcome.phase]

theorem replace_supply (items : List T) :
    (exec lim q (.replace items)).phase = .idle ∧
    (exec lim q (.replace items)).queue.stopped = q.stopped ∧
    (exec lim q (.replace items)).queue.dequeue.length = installed lim items :=
  ⟨rfl, replaceLoop_stopped lim items 0 _, replace_length lim q items⟩

end ThreadSafeQueue

namespace Threads

open ThreadSafeQueue

variable {θ T : Type*} [Fintype θ] [DecidableEq θ] [QueueSizeTraits T] (lim : Limits)

/-- No consumer sleeps beside a non-empty or stopped queue with nobody on the way to wake it. -/
def NoLostWakeUp (s : Threads θ T) : Prop :=
  (∃ t, s.phase t = .blocked) → (s.queue.dequeue ≠ [] ∨ s.queue.stopped = true) →
    (∃ t, s.phase t = .notifyingOne ∨ s.phase t = .notifyingAll) ∨ ∃ t, s.phase t = .woken

/-- The number of threads in a phase. -/
def inPhase (s : Threads θ T) (p : Phase) : ℕ := occurrences (· = p) s.phase

/-- The counting invariant. -/
structure Covered (s : Threads θ T) : Prop where
  /-- `notify_all` is only ever sent by `stop`. -/
  allStopped : 0 < s.inPhase .notifyingAll → s.queue.stopped = true
  stopPending : s.queue.stopped = true → 0 < s.inPhase .blocked → 0 < s.inPhase .notifyingAll
  supplied : s.queue.stopped = false →
    s.inPhase .blocked ≤ s.inPhase .notifyingOne ∨
      s.queue.dequeue.length ≤ s.inPhase .notifyingOne + s.inPhase .woken

theorem covered_initial : Covered (initial : Threads θ T) where
  allStopped h := by simp [inPhase, initial, occurrences] at h
  stopPending h := by simp [initial, ThreadSafeQueue.empty] at h
  supplied _ := by simp [initial, ThreadSafeQueue.empty]

theorem Covered.noLostWakeUp {s : Threads θ T} (h : Covered s) : NoLostWakeUp s := by
  intro hsleep hready
  have hb : 0 < s.inPhase .blocked := occurrences_pos.mpr hsleep
  by_cases hstop : s.queue.stopped = true
  · obtain ⟨t, ht⟩ := occurrences_pos.mp (h.stopPending hstop hb)
    exact .inl ⟨t, .inr ht⟩
  · have hitems : 0 < s.queue.dequeue.length :=
      List.length_pos_iff.mpr (hready.resolve_right hstop)
    have hsupply := h.supplied (by simpa using hstop)
    by_cases hone : 0 < s.inPhase .notifyingOne
    · obtain ⟨t, ht⟩ := occurrences_pos.mp hone
      exact .inl ⟨t, .inl ht⟩
    · exact .inr (occurrences_pos.mp (show 0 < s.inPhase .woken by omega))

/-- A thread that changes phase is counted under its new phase instead of its old one. -/
theorem inPhase_update (s : Threads θ T) (q : ThreadSafeQueue T) {t : θ} {old : Phase}
    (ht : s.phase t = old) (new p : Phase) :
    inPhase (⟨q, Function.update s.phase t new⟩ : Threads θ T) p + (if old = p then 1 else 0) =
      s.inPhase p + if new = p then 1 else 0 := by
  rw [← ht]
  exact occurrences_update s.phase t new

/-- When `replace` may be called: the queue is stopped, or every sleeper has an undelivered
notification, or the installed items do not outnumber the consumers already being woken. -/
def ReplaceCovered (s : Threads θ T) (items : List T) : Prop :=
  s.queue.stopped = true ∨ s.inPhase .blocked ≤ s.inPhase .notifyingOne ∨
    installed lim items ≤ s.inPhase .notifyingOne + s.inPhase .woken

/-- Every action is fine except a `replace` that is not covered. -/
def WakesReplaced (s : Threads θ T) : Action θ T → Prop
  | .call _ (.replace items) => s.ReplaceCovered lim items
  | _ => True

variable {lim} {s : Threads θ T}

/-- A thread that owes no notification changes phase, and the queue changes with it. What enters the
queue must be matched by what the thread now owes. -/
theorem covered_update (h : Covered s) {t : θ} {old new : Phase} {q : ThreadSafeQueue T}
    (ht : s.phase t = old) (hold : old ≠ .notifyingAll ∧ old ≠ .notifyingOne)
    (hall : new = .notifyingAll → q.stopped = true)
    (hblock : new = .blocked → q.stopped = false ∧ q.dequeue.length = 0)
    (hstop : q.stopped = true → s.queue.stopped = true ∨ new = .notifyingAll)
    (hstay : s.queue.stopped = true → q.stopped = true)
    (hsupply : q.stopped = false → q.dequeue.length = 0 ∨
      q.dequeue.length + (if old = .woken then 1 else 0) ≤
        s.queue.dequeue.length + if new = .notifyingOne ∨ new = .woken then 1 else 0) :
    Covered (⟨q, Function.update s.phase t new⟩ : Threads θ T) := by
  have hcount := inPhase_update s q ht new
  have hb := hcount .blocked
  have ho := hcount .notifyingOne
  have ha := hcount .notifyingAll
  have hw := hcount .woken
  obtain ⟨h₁, h₂, h₃⟩ := h
  constructor <;> grind

theorem covered_enter_wait (h : Covered s) {t : θ} (ht : s.phase t = .idle ∨ s.phase t = .woken) :
    Covered (s.enter lim t .waitAndPop) := by
  have hold : s.phase t ≠ .notifyingAll ∧ s.phase t ≠ .notifyingOne := by
    rcases ht with ht | ht <;> simp [ht]
  obtain ⟨hp, hq, hs, hd⟩ | ⟨hp, hq, hs⟩ | ⟨hp, hs, hd⟩ := waitAndPop_supply lim s.queue
  · apply covered_update h rfl hold <;> simp [hp, hq, hs, hd]
  · apply covered_update h rfl hold <;> simp [hp, hq, hs]
  · apply covered_update h rfl hold
    · simp [hp]
    · simp [hp]
    · rw [hs]
      exact .inl
    · simp [hs]
    · intro _
      right
      split_ifs <;> omega

theorem covered_enter_call (h : Covered s) {t : θ} {op : Op T} (ht : s.phase t = .idle)
    (hgood : s.WakesReplaced lim (.call t op)) : Covered (s.enter lim t op) := by
  have hold : s.phase t ≠ .notifyingAll ∧ s.phase t ≠ .notifyingOne := by simp [ht]
  by_cases hwait : op = .waitAndPop
  · subst hwait
    exact covered_enter_wait h (.inl ht)
  by_cases hreplace : ∃ items, op = .replace items
  · obtain ⟨items, rfl⟩ := hreplace
    -- the one call that adds elements without owing a notification
    obtain ⟨hp, hs, hd⟩ := replace_supply lim s.queue items
    have hcount := inPhase_update s (s.queue.exec lim (.replace items)).queue ht .idle
    have hb := hcount .blocked
    have ho := hcount .notifyingOne
    have ha := hcount .notifyingAll
    have hw := hcount .woken
    obtain ⟨h₁, h₂, h₃⟩ := h
    unfold enter
    rw [hp]
    unfold WakesReplaced ReplaceCovered at hgood
    constructor <;> grind
  · rw [not_exists] at hreplace
    obtain ⟨hp, hs, hd⟩ | ⟨hp, hs, hd⟩ | ⟨hp, hs, hs'⟩ := exec_supply lim s.queue hwait hreplace
    · apply covered_update h rfl hold <;> simp [hp, hs, hd, ht]
    · apply covered_update h rfl hold <;> simp [hp, hs, hd, ht]
    · apply covered_update h rfl hold <;> simp [hp, hs, hs']

/-- A delivered notification moves one sleeper to the woken consumers. -/
theorem inPhase_notifyOne {t u : θ} (ht : s.phase t = .notifyingOne) (hu : s.phase u = .blocked) :
    let d : Threads θ T :=
      { s with phase := Function.update (Function.update s.phase u .woken) t .idle }
    d.inPhase .blocked + 1 = s.inPhase .blocked ∧
    d.inPhase .notifyingOne + 1 = s.inPhase .notifyingOne ∧
    d.inPhase .notifyingAll = s.inPhase .notifyingAll ∧
    d.inPhase .woken = s.inPhase .woken + 1 := by
  have htu : t ≠ u := by
    rintro rfl
    rw [ht] at hu
    cases hu
  have ht' : Function.update s.phase u .woken t = .notifyingOne := by
    rw [Function.update_of_ne htu, ht]
  have hcount := inPhase_update s s.queue hu .woken
  have hcount' := inPhase_update (⟨s.queue, Function.update s.phase u .woken⟩ : Threads θ T)
    s.queue ht' .idle
  have hb := hcount .blocked
  have ho := hcount .notifyingOne
  have ha := hcount .notifyingAll
  have hw := hcount .woken
  have hb' := hcount' .blocked
  have ho' := hcount' .notifyingOne
  have ha' := hcount' .notifyingAll
  have hw' := hcount' .woken
  simp only [reduceCtorEq, if_true, if_false] at hb ho ha hw hb' ho' ha' hw'
  dsimp only
  omega

theorem covered_notifyOne_some (h : Covered s) {t u : θ} (ht : s.phase t = .notifyingOne)
    (hu : s.phase u = .blocked) :
    Covered { s with phase := Function.update (Function.update s.phase u .woken) t .idle } := by
  obtain ⟨hb, ho, ha, hw⟩ := inPhase_notifyOne ht hu
  obtain ⟨h₁, h₂, h₃⟩ := h
  constructor <;> grind

theorem covered_notifyOne_none (h : Covered s) {t : θ} (ht : s.phase t = .notifyingOne)
    (hnone : ∀ u, s.phase u ≠ .blocked) :
    Covered { s with phase := Function.update s.phase t .idle } := by
  have hzero : s.inPhase .blocked = 0 := occurrences_eq_zero.mpr hnone
  have hcount := inPhase_update s s.queue ht .idle
  have hb := hcount .blocked
  have ho := hcount .notifyingOne
  have ha := hcount .notifyingAll
  obtain ⟨h₁, h₂, h₃⟩ := h
  constructor <;> grind

theorem covered_notifyAll (h : Covered s) {t : θ} (ht : s.phase t = .notifyingAll) :
    Covered { s with
      phase := fun u =>
        if u = t then .idle else if s.phase u = .blocked then .woken else s.phase u } := by
  have hstop := h.allStopped (occurrences_pos.mpr ⟨t, ht⟩)
  have hzero : inPhase { s with
      phase := fun u =>
        if u = t then .idle else if s.phase u = .blocked then .woken else s.phase u } .blocked = 0 := by
    apply occurrences_eq_zero.mpr
    intro u
    dsimp only
    split_ifs with _ hu
    · simp
    · simp
    · exact hu
  constructor
  · exact fun _ => hstop
  · intro _ hpos
    omega
  · intro hrun
    simp [hstop] at hrun

theorem step_covered {u : Threads θ T} {a : Action θ T} (h : Covered s)
    (hgood : s.WakesReplaced lim a) (hstep : s.step lim a = some u) : Covered u := by
  cases a with
  | call t op =>
    simp only [step, Option.ite_none_right_eq_some, Option.some.injEq] at hstep
    obtain ⟨ht, rfl⟩ := hstep
    exact covered_enter_call h ht hgood
  | recheck t =>
    simp only [step, Option.ite_none_right_eq_some, Option.some.injEq] at hstep
    obtain ⟨ht, rfl⟩ := hstep
    exact covered_enter_wait h (.inr ht)
  | notifyOne t sleeper =>
    cases sleeper with
    | none =>
      simp only [step, Option.ite_none_right_eq_some, Option.some.injEq] at hstep
      obtain ⟨⟨ht, hnone⟩, rfl⟩ := hstep
      exact covered_notifyOne_none h ht hnone
    | some v =>
      simp only [step, Option.ite_none_right_eq_some, Option.some.injEq] at hstep
      obtain ⟨⟨ht, hv⟩, rfl⟩ := hstep
      exact covered_notifyOne_some h ht hv
  | notifyAll t =>
    simp only [step, Option.ite_none_right_eq_some, Option.some.injEq] at hstep
    obtain ⟨ht, rfl⟩ := hstep
    exact covered_notifyAll h ht
  | spurious t =>
    simp only [step, Option.ite_none_right_eq_some, Option.some.injEq] at hstep
    obtain ⟨ht, rfl⟩ := hstep
    apply covered_update h rfl <;> simp [ht]

/-- Once both halves of the balance are broken, delivering every notification and letting every
woken consumer take its element ends beside a sleeper that nobody will wake. -/
theorem lost_of_unbalanced (hrun : s.queue.stopped = false) (hall : s.inPhase .notifyingAll = 0)
    (hsleep : s.inPhase .notifyingOne < s.inPhase .blocked)
    (hitems : s.inPhase .notifyingOne + s.inPhase .woken < s.queue.dequeue.length) :
    ∃ actions u, run (step lim) s actions = some u ∧ ¬ NoLostWakeUp u := by
  -- each step lowers this measure and keeps both inequalities
  induction hn : 2 * s.inPhase .notifyingOne + s.inPhase .woken using Nat.strong_induction_on
    generalizing s with
  | _ n ih =>
  by_cases hwoken : 0 < s.inPhase .woken
  · obtain ⟨t, ht⟩ := occurrences_pos.mp hwoken
    have hcount := inPhase_update s (s.queue.exec lim .waitAndPop).queue ht .idle
    have hb := hcount .blocked
    have ho := hcount .notifyingOne
    have ha := hcount .notifyingAll
    have hw := hcount .woken
    obtain ⟨-, -, -, hd⟩ | ⟨-, -, hs⟩ | ⟨hp, hs, hd⟩ := waitAndPop_supply lim s.queue
    · omega
    · simp [hrun] at hs
    have hstep : s.step lim (.recheck t) = some (s.enter lim t .waitAndPop) := if_pos ht
    unfold enter at hstep
    rw [hp] at hstep
    simp only [reduceCtorEq, if_true, if_false] at hb ho ha hw
    obtain ⟨actions, u, hu, hlost⟩ := ih _ (by omega)
      (s := ⟨(s.queue.exec lim .waitAndPop).queue, Function.update s.phase t .idle⟩)
      (by rw [← hrun, ← hs]) (by omega) (by omega) (by dsimp only; omega) rfl
    exact ⟨.recheck t :: actions, u, run_cons_eq_some.mpr ⟨_, hstep, hu⟩, hlost⟩
  by_cases hone : 0 < s.inPhase .notifyingOne
  · obtain ⟨t, ht⟩ := occurrences_pos.mp hone
    obtain ⟨v, hv⟩ := occurrences_pos.mp (show 0 < s.inPhase .blocked by omega)
    obtain ⟨hb, ho, ha, hw⟩ := inPhase_notifyOne ht hv
    have hstep : s.step lim (.notifyOne t (some v)) = some { s with
        phase := Function.update (Function.update s.phase v .woken) t .idle } := if_pos ⟨ht, hv⟩
    obtain ⟨actions, u, hu, hlost⟩ := ih _ (by omega)
      (s := { s with phase := Function.update (Function.update s.phase v .woken) t .idle })
      hrun (by omega) (by omega) (by dsimp only; omega) rfl
    exact ⟨.notifyOne t (some v) :: actions, u, run_cons_eq_some.mpr ⟨_, hstep, hu⟩, hlost⟩
  · refine ⟨[], s, rfl, fun hno => ?_⟩
    have hsleeper := occurrences_pos.mp (show 0 < s.inPhase .blocked by omega)
    have hready : s.queue.dequeue ≠ [] := List.length_pos_iff.mp (by omega)
    obtain ⟨t, ht | ht⟩ | ⟨t, ht⟩ := hno hsleeper (.inl hready)
    · exact hone (occurrences_pos.mpr ⟨t, ht⟩)
    · exact occurrences_eq_zero.mp hall t ht
    · exact hwoken (occurrences_pos.mpr ⟨t, ht⟩)

variable (lim)

/-- No wake-up is lost as long as every `replace` is covered by the notifications on their way; and
the first `replace` that is not can be continued to a lost wake-up without any further call. -/
theorem noLostWakeUp_of_replaceCovered :
    (∀ (actions : List (Action θ T)) (s : Threads θ T),
      Guarded (step lim) (WakesReplaced lim) .initial actions →
      run (step lim) .initial actions = some s → NoLostWakeUp s) ∧
    ∀ (actions : List (Action θ T)) (s u : Threads θ T) (t : θ) (items : List T),
      Guarded (step lim) (WakesReplaced lim) .initial actions →
      run (step lim) .initial actions = some s →
      s.step lim (.call t (.replace items)) = some u → ¬ s.ReplaceCovered lim items →
      ∃ more v, run (step lim) u more = some v ∧ ¬ NoLostWakeUp v := by
  have hinv (actions : List (Action θ T)) (s : Threads θ T)
      (hgood : Guarded (step lim) (WakesReplaced lim) .initial actions)
      (hrun : run (step lim) .initial actions = some s) : Covered s :=
    guarded_run_invariant (fun _ _ _ hs hg hstep => step_covered hs hg hstep) covered_initial
      hgood hrun
  constructor
  · exact fun actions s hgood hrun => (hinv actions s hgood hrun).noLostWakeUp
  · intro actions s u t items hgood hrun hstep hbad
    have hcov := hinv actions s hgood hrun
    simp only [step, Option.ite_none_right_eq_some, Option.some.injEq] at hstep
    obtain ⟨ht, rfl⟩ := hstep
    obtain ⟨hp, hs, hd⟩ := replace_supply lim s.queue items
    have hcount := inPhase_update s (s.queue.exec lim (.replace items)).queue ht .idle
    have hb := hcount .blocked
    have ho := hcount .notifyingOne
    have ha := hcount .notifyingAll
    have hw := hcount .woken
    simp only [reduceCtorEq, if_false, Nat.add_zero] at hb ho ha hw
    rw [ReplaceCovered, not_or, not_or, Bool.not_eq_true, Nat.not_le, Nat.not_le] at hbad
    have hnone : s.inPhase .notifyingAll = 0 := by
      by_contra hc
      have := hcov.allStopped (by omega)
      simp [hbad.1] at this
    unfold enter
    rw [hp]
    apply lost_of_unbalanced
    · rw [hs, hbad.1]
    · rw [ha, hnone]
    · rw [hb, ho]
      exact hbad.2.1
    · rw [ho, hw, hd]
      exact hbad.2.2

/-- A consumer asleep on an empty queue, and a `replace` that installs one element. -/
theorem replace_loses_wakeUp :
    ¬ ∀ (actions : List (Action Bool Int)) (s : Threads Bool Int),
      run (@step Bool Int _ sizeofInt ⟨true, true, 0, 0⟩ _) .initial actions = some s →
        NoLostWakeUp s := by
  intro h
  have hlost := h [.call true .waitAndPop, .call false (.replace [1])] _ rfl
  revert hlost
  unfold NoLostWakeUp
  decide

end Threads
end ServerSimple.ThreadSafe
