import ServerSimple.ThreadSafe.QueueThreads
import Mathlib.Algebra.Order.BigOperators.Group.List
import Mathlib.Algebra.Order.Group.Nat
import Mathlib.Algebra.GroupWithZero.Nat

/-! # Byte accounting

The counter `current_bytes` is compared with the sum of the element sizes in unbounded integers.
Eight member functions write it, through three helpers and one loop, and every critical section
keeps the two equal modulo `2 ^ 64`.
-/

namespace ServerSimple.ThreadSafe
namespace ThreadSafeQueue

open Library

variable {T : Type*} [QueueSizeTraits T]

/-- Total size of a list of elements, without wrap-around. -/
def totalBytes (items : List T) : ℕ := (items.map fun x => (QueueSizeTraits.get x).toNat).sum

@[simp] theorem totalBytes_nil : totalBytes ([] : List T) = 0 := rfl

@[simp] theorem totalBytes_cons (x : T) (items : List T) :
    totalBytes (x :: items) = (QueueSizeTraits.get x).toNat + totalBytes items := by
  simp [totalBytes]

@[simp] theorem totalBytes_append (items more : List T) :
    totalBytes (items ++ more) = totalBytes items + totalBytes more := by
  simp [totalBytes]

theorem le_totalBytes {x : T} {items : List T} (h : x ∈ items) :
    (QueueSizeTraits.get x).toNat ≤ totalBytes items :=
  List.le_sum_of_mem (List.mem_map_of_mem h)

@[simp] theorem totalBytes_atBack (x : T) (items : List T) :
    totalBytes (atBack x items) = totalBytes items + (QueueSizeTraits.get x).toNat := by
  simp [atBack]

@[simp] theorem totalBytes_atFront (x : T) (items : List T) :
    totalBytes (atFront x items) = totalBytes items + (QueueSizeTraits.get x).toNat := by
  simp [atFront, Nat.add_comm]

/-- The counter is the total size modulo `2 ^ 64`. -/
def Accounted (q : ThreadSafeQueue T) : Prop :=
  q.currentBytes.toNat = totalBytes q.dequeue % 2 ^ 64

theorem Accounted.eq_of_lt {q : ThreadSafeQueue T} (h : q.Accounted)
    (hlt : totalBytes q.dequeue < 2 ^ 64) : q.currentBytes.toNat = totalBytes q.dequeue := by
  rw [h, Nat.mod_eq_of_lt hlt]

theorem accounted_empty : (empty : ThreadSafeQueue T).Accounted := rfl

/-- The limits under which bytes are counted at all. -/
def CountsBytes (lim : Limits) : Prop := lim.enableMaxBytes = true ∧ lim.maximumBytes ≠ 0

variable {lim : Limits} {q : ThreadSafeQueue T}

theorem countedBytes_eq (hlim : CountsBytes lim) (x : T) :
    countedBytes lim x = QueueSizeTraits.get x := if_pos hlim

/-- From one state to the other, the counter moves by what the total size moves, modulo
`2 ^ 64`. -/
def InStep (q r : ThreadSafeQueue T) : Prop :=
  (r.currentBytes.toNat + totalBytes q.dequeue) % 2 ^ 64 =
    (q.currentBytes.toNat + totalBytes r.dequeue) % 2 ^ 64

theorem InStep.accounted {r : ThreadSafeQueue T} (h : InStep q r) (hq : q.Accounted) :
    r.Accounted := by
  unfold InStep Accounted at *
  have hr := r.currentBytes.toNat_lt
  omega

theorem inStep_same {r : ThreadSafeQueue T} (hitems : r.dequeue = q.dequeue)
    (hbytes : r.currentBytes = q.currentBytes) : InStep q r := by
  rw [InStep, hitems, hbytes]

theorem inStep_add (hlim : CountsBytes lim) (x : T) {items : List T}
    (hitems : totalBytes items = totalBytes q.dequeue + (QueueSizeTraits.get x).toNat) :
    InStep q ⟨items, q.stopped, q.currentBytes + countedBytes lim x⟩ := by
  unfold InStep
  simp only [countedBytes_eq hlim, UInt64.toNat_add, hitems]
  omega

/-- Removing an element subtracts its size; the counter may wrap, the congruence does not care. -/
theorem inStep_remove (hlim : CountsBytes lim) (x : T) {items : List T}
    (hitems : totalBytes q.dequeue = totalBytes items + (QueueSizeTraits.get x).toNat) :
    InStep q ⟨items, q.stopped, q.currentBytes - countedBytes lim x⟩ := by
  unfold InStep
  have hx := (QueueSizeTraits.get x).toNat_lt
  simp only [countedBytes_eq hlim, UInt64.toNat_sub, hitems]
  omega

theorem tryPush_inStep (hlim : CountsBytes lim) (item : T) {place : T → List T → List T}
    (hplace : ∀ x items,
      totalBytes (place x items) = totalBytes items + (QueueSizeTraits.get x).toNat) :
    InStep q (tryPush lim place q item).2 := by
  obtain hp | ⟨-, hp⟩ := tryPush_cases lim q place item
  · rw [hp]
    exact inStep_same rfl rfl
  · rw [hp]
    exact inStep_add hlim item (hplace item q.dequeue)

theorem push_inStep (hlim : CountsBytes lim) (item : T) {place : T → List T → List T}
    (hplace : ∀ x items,
      totalBytes (place x items) = totalBytes items + (QueueSizeTraits.get x).toNat) :
    InStep q (push lim place q item) := by
  rw [push_eq]
  exact inStep_add hlim item (hplace item q.dequeue)

theorem popFront_inStep (hlim : CountsBytes lim) :
    InStep q (popOutcome q (popFront lim q)).queue := by
  cases hd : q.dequeue with
  | nil =>
    simp only [popFront, hd, popOutcome]
    exact inStep_same rfl rfl
  | cons item rest =>
    rw [popFront_cons lim q hd]
    exact inStep_remove hlim item (by rw [hd, totalBytes_cons, Nat.add_comm])

theorem popBack_inStep (hlim : CountsBytes lim) :
    InStep q (popOutcome q (popBack lim q)).queue := by
  rcases List.eq_nil_or_concat' q.dequeue with hd | ⟨rest, item, hd⟩
  · simp only [popBack, hd, popOutcome, List.getLast?_nil]
    exact inStep_same rfl rfl
  · rw [popBack_append lim q hd]
    exact inStep_remove hlim item (by simp [hd])

theorem waitAndPop_inStep (hlim : CountsBytes lim) : InStep q (waitAndPop lim q).queue := by
  obtain ⟨-, -, hw⟩ | ⟨-, -, hw⟩ | ⟨item, rest, hd, hw⟩ := waitAndPop_cases lim q
  · rw [hw]
    exact inStep_same rfl rfl
  · rw [hw]
    exact inStep_same rfl rfl
  · rw [hw]
    exact inStep_remove hlim item (by rw [hd, totalBytes_cons, Nat.add_comm])

/-- The loop of `replace` counts every element it installs, whatever the limits are. -/
theorem replaceLoop_accounted (hlim : CountsBytes lim) (items : List T) (n : ℕ)
    (h : q.Accounted) : (replaceLoop lim items n q).Accounted := by
  induction items generalizing n q with
  | nil => exact h
  | cons item items ih =>
    have hnext := (inStep_add hlim item (totalBytes_atBack item q.dequeue)).accounted h
    rw [countedBytes_eq hlim] at hnext
    simp only [replaceLoop, if_pos hlim.1]
    split_ifs
    · exact hnext
    · exact ih _ hnext
    · exact ih _ hnext

/-- The calls that set the counter to a new value, whatever it was. -/
def resets : Op T → Bool
  | .clear | .replace _ => true
  | _ => false

/-- Every other critical section moves the counter and the elements in step. -/
theorem exec_inStep (hlim : CountsBytes lim) {op : Op T} (hop : resets op = false) :
    InStep q (exec lim q op).queue := by
  cases op with
  | tryPushBack item => exact tryPush_inStep hlim item totalBytes_atBack
  | tryPushFront item => exact tryPush_inStep hlim item totalBytes_atFront
  | pushBack item => exact push_inStep hlim item totalBytes_atBack
  | pushFront item => exact push_inStep hlim item totalBytes_atFront
  | popFront => exact popFront_inStep hlim
  | popBack => exact popBack_inStep hlim
  | waitAndPop => exact waitAndPop_inStep hlim
  | clear | replace items => cases hop
  | stop =>
    simp only [exec, stop_eq]
    exact inStep_same rfl rfl
  | front | back =>
    simp only [exec, popOutcome_read]
    exact inStep_same rfl rfl
  | empty | size | maxSize | maxBytes | toVector => exact inStep_same rfl rfl

theorem exec_accounted_of_resets (hlim : CountsBytes lim) {op : Op T} (hop : resets op = true) :
    (exec lim q op).queue.Accounted := by
  cases op with
  | clear => rfl
  | replace items => exact replaceLoop_accounted hlim items 0 accounted_empty
  | _ => cases hop

theorem exec_accounted (hlim : CountsBytes lim) (h : q.Accounted) (op : Op T) :
    (exec lim q op).queue.Accounted := by
  cases hop : resets op with
  | true => exact exec_accounted_of_resets hlim hop
  | false => exact (exec_inStep hlim hop).accounted h

theorem execAll_accounted (hlim : CountsBytes lim) (h : q.Accounted) (ops : List (Op T)) :
    (execAll lim q ops).Accounted := by
  induction ops generalizing q with
  | nil => exact h
  | cons op ops ih => exact ih (exec_accounted hlim h op)

theorem threads_accounted {θ : Type*} [Fintype θ] [DecidableEq θ] (hlim : CountsBytes lim)
    {actions : List (Action θ T)} {s : Threads θ T}
    (hrun : run (Threads.step lim) .initial actions = some s) : s.queue.Accounted := by
  rw [Threads.run_queue lim hrun]
  exact execAll_accounted hlim accounted_empty _

/-- Taking out a stored element subtracts its size without a wrap-around. -/
theorem removalProtocol_exact (hlim : CountsBytes lim) (h : q.Accounted)
    (hlt : totalBytes q.dequeue < 2 ^ 64) {x : T} (hx : x ∈ q.dequeue) :
    (removalProtocol lim q x).currentBytes.toNat + (QueueSizeTraits.get x).toNat =
      q.currentBytes.toNat := by
  have hle : QueueSizeTraits.get x ≤ q.currentBytes := by
    rw [UInt64.le_iff_toNat_le, h.eq_of_lt hlt]
    exact le_totalBytes hx
  rw [removalProtocol_eq, countedBytes_eq hlim, UInt64.toNat_sub_of_le _ _ hle]
  exact Nat.sub_add_cancel (UInt64.le_iff_toNat_le.mp hle)

/-- With a byte limit, `current_bytes` is the total element size modulo `2 ^ 64` after every
sequence of calls and in every interleaving of any threads, and no removal wraps while the total
fits in 64 bits. -/
theorem currentBytes_eq_totalBytes (hlim : CountsBytes lim) :
    (∀ ops : List (Op T), ∀ q, q = execAll lim empty ops →
      q.currentBytes.toNat = totalBytes q.dequeue % 2 ^ 64 ∧
      (totalBytes q.dequeue < 2 ^ 64 → ∀ x ∈ q.dequeue,
        (removalProtocol lim q x).currentBytes.toNat + (QueueSizeTraits.get x).toNat =
          q.currentBytes.toNat)) ∧
    ∀ (θ : Type) [Fintype θ] [DecidableEq θ] (actions : List (Action θ T)) (s : Threads θ T),
      run (Threads.step lim) .initial actions = some s →
      s.queue.currentBytes.toNat = totalBytes s.queue.dequeue % 2 ^ 64 ∧
      (totalBytes s.queue.dequeue < 2 ^ 64 → ∀ x ∈ s.queue.dequeue,
        (removalProtocol lim s.queue x).currentBytes.toNat + (QueueSizeTraits.get x).toNat =
          s.queue.currentBytes.toNat) := by
  constructor
  · rintro ops q rfl
    have h := execAll_accounted hlim (accounted_empty : (empty : ThreadSafeQueue T).Accounted) ops
    exact ⟨h, fun hlt x hx => removalProtocol_exact hlim h hlt hx⟩
  · intro θ _ _ actions s hrun
    have h := threads_accounted hlim hrun
    exact ⟨h, fun hlt x hx => removalProtocol_exact hlim h hlt hx⟩

theorem currentBytes_eq_totalBytes_int :
    CountsBytes ⟨true, true, 2, 8⟩ ∧
    (@execAll Int sizeofInt ⟨true, true, 2, 8⟩ empty
      [.pushBack 1, .pushBack 2, .pushBack 3, .popFront]).currentBytes.toNat = 8 := by
  have hlim : CountsBytes ⟨true, true, 2, 8⟩ := ⟨rfl, by decide⟩
  refine ⟨hlim, ?_⟩
  rw [((@currentBytes_eq_totalBytes Int sizeofInt _ hlim).1 _ _ rfl).1]
  decide

end ThreadSafeQueue
end ServerSimple.ThreadSafe
