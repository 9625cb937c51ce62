import ServerSimple.Library.Runs
import ServerSimple.ThreadSafe.Queue
import Mathlib.Data.Fintype.Basic

/-! # Threads that share one queue

The mutex makes every critical section one atomic step. What interleaves is the rest: a consumer
sleeps inside `wait_and_pop` after a failed test of its predicate, a producer delivers its
notification only after it has released the mutex, and a woken consumer tests the predicate again
when it gets the mutex back. A notification goes to a consumer that sleeps at that moment, and is
lost if there is none. Wake-ups without a notification are allowed at any time.
-/

namespace ServerSimple.ThreadSafe

open Library

/-- Where a thread is. -/
inductive Phase where
  /-- Outside the queue. -/
  | idle
  /-- Past its critical section, before `waiting.notify_one()`. -/
  | notifyingOne
  /-- Past its critical section, before `waiting.notify_all()`. -/
  | notifyingAll
  /-- Asleep in `waiting.wait`. -/
  | blocked
  /-- Woken, but not yet back at the wait predicate. -/
  | woken
  deriving DecidableEq

/-- The phase in which a critical section leaves its thread. -/
def Outcome.phase {T : Type*} (o : Outcome T) : Phase :=
  match o.result, o.wake with
  | .blocked, _ => .blocked
  | _, .nobody => .idle
  | _, .one => .notifyingOne
  | _, .all => .notifyingAll

structure Threads (θ T : Type*) where
  queue : ThreadSafeQueue T
  phase : θ → Phase

/-- One step of one thread. `notifyOne` names the sleeper that the condition variable picks. -/
inductive Action (θ T : Type*) where
  | call (t : θ) (op : Op T)
  | recheck (t : θ)
  | notifyOne (t : θ) (sleeper : Option θ)
  | notifyAll (t : θ)
  | spurious (t : θ)

namespace Threads

variable {θ T : Type*}

/-- All threads are outside a queue that was just constructed. -/
def initial : Threads θ T := ⟨.empty, fun _ => .idle⟩

variable [DecidableEq θ] [QueueSizeTraits T] (lim : Limits)

/-- Thread `t` goes through the critical section of `op`. -/
def enter (s : Threads θ T) (t : θ) (op : Op T) : Threads θ T :=
  ⟨(s.queue.exec lim op).queue, Function.update s.phase t (s.queue.exec lim op).phase⟩

variable [Fintype θ]

def step (s : Threads θ T) : Action θ T → Option (Threads θ T)
  | .call t op => if s.phase t = .idle then some (s.enter lim t op) else none
  | .recheck t => if s.phase t = .woken then some (s.enter lim t .waitAndPop) else none
  | .notifyOne t (some u) =>
    if s.phase t = .notifyingOne ∧ s.phase u = .blocked then
      some { s with phase := Function.update (Function.update s.phase u .woken) t .idle }
    else none
  | .notifyOne t none =>
    if s.phase t = .notifyingOne ∧ ∀ u, s.phase u ≠ .blocked then
      some { s with phase := Function.update s.phase t .idle }
    else none
  | .notifyAll t =>
    if s.phase t = .notifyingAll then
      some { s with
        phase := fun u =>
          if u = t then .idle else if s.phase u = .blocked then .woken else s.phase u }
    else none
  | .spurious t =>
    if s.phase t = .blocked then some { s with phase := Function.update s.phase t .woken } else none

/-- A step either runs one critical section or leaves the queue alone. -/
def Action.critical : Action θ T → Option (θ × Op T)
  | .call t op => some (t, op)
  | .recheck t => some (t, .waitAndPop)
  | _ => none

/-- The critical sections of a run, in the order in which they hold the mutex. -/
def criticals (actions : List (Action θ T)) : List (θ × Op T) := actions.filterMap Action.critical

theorem step_queue {s u : Threads θ T} {a : Action θ T} (h : s.step lim a = some u) :
    u.queue = s.queue.execAll lim ((Action.critical a).toList.map Prod.snd) := by
  cases a with
  | call t op | recheck t =>
    simp only [step, Option.ite_none_right_eq_some, Option.some.injEq] at h
    rw [← h.2]
    rfl
  | notifyOne t sleeper =>
    cases sleeper <;>
      simp only [step, Option.ite_none_right_eq_some, Option.some.injEq] at h <;>
      rw [← h.2] <;> rfl
  | notifyAll t | spurious t =>
    simp only [step, Option.ite_none_right_eq_some, Option.some.injEq] at h
    rw [← h.2]
    rfl

/-- The queue of any interleaving is the queue after its critical sections, one after another. -/
theorem run_queue {s u : Threads θ T} {actions : List (Action θ T)}
    (h : run (step lim) s actions = some u) :
    u.queue = s.queue.execAll lim ((criticals actions).map Prod.snd) := by
  induction actions generalizing s with
  | nil =>
    rw [run_nil, Option.some.injEq] at h
    rw [← h]
    rfl
  | cons a actions ih =>
    obtain ⟨t, ha, hu⟩ := run_cons_eq_some.mp h
    rw [ih hu, step_queue lim ha]
    unfold criticals
    cases hc : Action.critical a <;>
      simp [hc, ThreadSafeQueue.execAll]

end Threads
end ServerSimple.ThreadSafe
