import Mathlib.Data.List.Basic
import Mathlib.Tactic.SplitIfs

/-! # The bounded thread-safe queue

One definition per member function of `thread_safe_queue`, as the code between the acquisition and
the release of `mutex_queue` computes it. Notifications are sent after the mutex is released, so a
critical section only reports which one is still due. Sizes are `size_t`, hence `UInt64`: additions
and subtractions on the byte counter wrap.
-/

namespace ServerSimple.ThreadSafe

/-- `queue_size_traits<T>`: the byte size the queue accounts for an element. -/
class QueueSizeTraits (T : Type*) where
  get : T → UInt64

/-- The primary template, `sizeof(T)`, for a queue of `int`. -/
abbrev sizeofInt : QueueSizeTraits Int := ⟨fun _ => 4⟩

/-- The template flags and the constructor arguments; a maximum of `0` means unlimited. -/
structure Limits where
  enableMaxSize : Bool
  enableMaxBytes : Bool
  maximumSize : UInt64
  maximumBytes : UInt64

/-- The data protected by `mutex_queue`. -/
structure ThreadSafeQueue (T : Type*) where
  dequeue : List T
  stopped : Bool
  currentBytes : UInt64
  deriving DecidableEq

namespace ThreadSafeQueue

variable {T : Type*}

/-- A queue as its constructor leaves it. -/
def empty : ThreadSafeQueue T := ⟨[], false, 0⟩

/-- The size limit in force, `0` if there is none. -/
def maxSize (lim : Limits) : UInt64 := if lim.enableMaxSize then lim.maximumSize else 0

/-- The byte limit in force, `0` if there is none. -/
def maxBytes (lim : Limits) : UInt64 := if lim.enableMaxBytes then lim.maximumBytes else 0

def queueIsEmpty : String := "Queue is empty"

def front (q : ThreadSafeQueue T) : Except String T :=
  match q.dequeue with
  | [] => .error queueIsEmpty
  | item :: _ => .ok item

def back (q : ThreadSafeQueue T) : Except String T :=
  match q.dequeue.getLast? with
  | none => .error queueIsEmpty
  | some item => .ok item

def clear (q : ThreadSafeQueue T) : ThreadSafeQueue T :=
  { q with dequeue := [], currentBytes := 0 }

/-- `stop`, with whether this call is the one that stopped the queue. -/
def stop (q : ThreadSafeQueue T) : Bool × ThreadSafeQueue T :=
  if q.stopped then (false, q) else (true, { q with stopped := true })

variable [QueueSizeTraits T] (lim : Limits)

/-- Decide whether `item` may be added, and if so count its bytes. The byte test is a guarded
subtraction, so it never computes a sum that could wrap. -/
def preAdditionCheckProtocol (q : ThreadSafeQueue T) (item : T) : Bool × ThreadSafeQueue T :=
  if q.stopped then (false, q)
  else if lim.enableMaxSize ∧ lim.maximumSize ≠ 0 ∧ lim.maximumSize.toNat ≤ q.dequeue.length then
    (false, q)
  else if lim.enableMaxBytes ∧ lim.maximumBytes ≠ 0 then
    let bytes := QueueSizeTraits.get item
    if q.currentBytes > lim.maximumBytes ∨ bytes > lim.maximumBytes - q.currentBytes then (false, q)
    else (true, { q with currentBytes := q.currentBytes + bytes })
  else (true, q)

def uncheckedAdditionProtocol (q : ThreadSafeQueue T) (item : T) : ThreadSafeQueue T :=
  if lim.enableMaxBytes ∧ lim.maximumBytes ≠ 0 then
    { q with currentBytes := q.currentBytes + QueueSizeTraits.get item }
  else q

def removalProtocol (q : ThreadSafeQueue T) (item : T) : ThreadSafeQueue T :=
  if lim.enableMaxBytes ∧ lim.maximumBytes ≠ 0 then
    { q with currentBytes := q.currentBytes - QueueSizeTraits.get item }
  else q

/-- The body shared by the checked pushes; `place` is the end at which the item goes in. -/
def tryPush (place : T → List T → List T) (q : ThreadSafeQueue T) (item : T) :
    Bool × ThreadSafeQueue T :=
  match preAdditionCheckProtocol lim q item with
  | (false, q) => (false, q)
  | (true, q) => (true, { q with dequeue := place item q.dequeue })

/-- The body shared by the unchecked pushes. -/
def push (place : T → List T → List T) (q : ThreadSafeQueue T) (item : T) : ThreadSafeQueue T :=
  let q := uncheckedAdditionProtocol lim q item
  { q with dequeue := place item q.dequeue }

/-- `emplace_back`. -/
def atBack (item : T) (items : List T) : List T := items ++ [item]

/-- `emplace_front`. -/
def atFront (item : T) (items : List T) : List T := item :: items

def tryPushBack : ThreadSafeQueue T → T → Bool × ThreadSafeQueue T := tryPush lim atBack
def tryPushFront : ThreadSafeQueue T → T → Bool × ThreadSafeQueue T := tryPush lim atFront
def pushBack : ThreadSafeQueue T → T → ThreadSafeQueue T := push lim atBack
def pushFront : ThreadSafeQueue T → T → ThreadSafeQueue T := push lim atFront

def popFront (q : ThreadSafeQueue T) : Except String (T × ThreadSafeQueue T) :=
  match q.dequeue with
  | [] => .error queueIsEmpty
  | item :: rest => .ok (item, { removalProtocol lim q item with dequeue := rest })

def popBack (q : ThreadSafeQueue T) : Except String (T × ThreadSafeQueue T) :=
  match q.dequeue.getLast? with
  | none => .error queueIsEmpty
  | some item => .ok (item, { removalProtocol lim q item with dequeue := q.dequeue.dropLast })

/-- The loop of `replace`, with the loop counter `current_size`. -/
def replaceLoop : List T → ℕ → ThreadSafeQueue T → ThreadSafeQueue T
  | [], _, q => q
  | item :: items, currentSize, q =>
    let q := { q with
      dequeue := q.dequeue ++ [item]
      currentBytes :=
        if lim.enableMaxBytes then q.currentBytes + QueueSizeTraits.get item else q.currentBytes }
    if lim.enableMaxSize ∧ lim.maximumSize > 0 then
      if lim.maximumSize.toNat ≤ currentSize + 1 then q else replaceLoop items (currentSize + 1) q
    else replaceLoop items currentSize q

def replace (q : ThreadSafeQueue T) (items : List T) : ThreadSafeQueue T :=
  replaceLoop lim items 0 { q with dequeue := [], currentBytes := 0 }

end ThreadSafeQueue

/-- What a call hands back to its caller. `blocked` is not a return value: the wait predicate of
`wait_and_pop` was false, so the caller has released the mutex and sleeps. -/
inductive Result (T : Type*) where
  | done
  | flag (b : Bool)
  | count (n : ℕ)
  | elements (items : List T)
  | item (x : T)
  | nullopt
  | thrown (what : String)
  | blocked
  deriving DecidableEq

/-- The notification a call still owes when it leaves its critical section. -/
inductive Wake where
  | nobody
  | one
  | all
  deriving DecidableEq

/-- One critical section: the queue it leaves, its result and the notification it owes. -/
structure Outcome (T : Type*) where
  queue : ThreadSafeQueue T
  result : Result T
  wake : Wake

/-- The member functions of the queue. -/
inductive Op (T : Type*) where
  | tryPushBack (item : T)
  | tryPushFront (item : T)
  | pushBack (item : T)
  | pushFront (item : T)
  | popFront
  | popBack
  | waitAndPop
  | clear
  | replace (items : List T)
  | stop
  | front
  | back
  | empty
  | size
  | maxSize
  | maxBytes
  | toVector
  deriving DecidableEq

namespace ThreadSafeQueue

variable {T : Type*} [QueueSizeTraits T] (lim : Limits)

/-- `wait_and_pop` from the moment it holds the mutex, on entry or after a wake-up. -/
def waitAndPop (q : ThreadSafeQueue T) : Outcome T :=
  if q.stopped = false ∧ q.dequeue = [] then ⟨q, .blocked, .nobody⟩
  else
    match q.dequeue with
    | [] => ⟨q, .nullopt, .nobody⟩
    | item :: rest => ⟨{ removalProtocol lim q item with dequeue := rest }, .item item, .nobody⟩

/-- A call that returns an element or throws. -/
def popOutcome (q : ThreadSafeQueue T) : Except String (T × ThreadSafeQueue T) → Outcome T
  | .ok (item, q') => ⟨q', .item item, .nobody⟩
  | .error what => ⟨q, .thrown what, .nobody⟩

/-- A checked push: only an accepted one notifies. -/
def tryPushOutcome (r : Bool × ThreadSafeQueue T) : Outcome T :=
  ⟨r.2, .flag r.1, if r.1 then .one else .nobody⟩

/-- The critical section of each member function. -/
def exec (q : ThreadSafeQueue T) : Op T → Outcome T
  | .tryPushBack item => tryPushOutcome (tryPushBack lim q item)
  | .tryPushFront item => tryPushOutcome (tryPushFront lim q item)
  | .pushBack item => ⟨pushBack lim q item, .done, .one⟩
  | .pushFront item => ⟨pushFront lim q item, .done, .one⟩
  | .popFront => popOutcome q (popFront lim q)
  | .popBack => popOutcome q (popBack lim q)
  | .waitAndPop => waitAndPop lim q
  | .clear => ⟨q.clear, .done, .nobody⟩
  | .replace items => ⟨replace lim q items, .done, .nobody⟩
  | .stop => ⟨q.stop.2, .done, if q.stop.1 then .all else .nobody⟩
  | .front => popOutcome q (q.front.map (·, q))
  | .back => popOutcome q (q.back.map (·, q))
  | .empty => ⟨q, .flag q.dequeue.isEmpty, .nobody⟩
  | .size => ⟨q, .count q.dequeue.length, .nobody⟩
  | .maxSize => ⟨q, .count (maxSize lim).toNat, .nobody⟩
  | .maxBytes => ⟨q, .count (maxBytes lim).toNat, .nobody⟩
  | .toVector => ⟨q, .elements q.dequeue, .nobody⟩

/-- The queue after a sequence of critical sections. -/
def execAll (q : ThreadSafeQueue T) (ops : List (Op T)) : ThreadSafeQueue T :=
  ops.foldl (fun q op => (exec lim q op).queue) q

/-! ## What each critical section does to the queue -/

/-- What the counter gains or loses for an element: nothing unless bytes are counted. -/
def countedBytes (item : T) : UInt64 :=
  if lim.enableMaxBytes ∧ lim.maximumBytes ≠ 0 then QueueSizeTraits.get item else 0

variable (q : ThreadSafeQueue T)

theorem uncheckedAdditionProtocol_eq (item : T) :
    uncheckedAdditionProtocol lim q item =
      { q with currentBytes := q.currentBytes + countedBytes lim item } := by
  unfold uncheckedAdditionProtocol countedBytes
  split <;> simp

theorem removalProtocol_eq (item : T) :
    removalProtocol lim q item =
      { q with currentBytes := q.currentBytes - countedBytes lim item } := by
  unfold removalProtocol countedBytes
  split <;> simp

theorem push_eq (place : T → List T → List T) (item : T) :
    push lim place q item =
      ⟨place item q.dequeue, q.stopped, q.currentBytes + countedBytes lim item⟩ := by
  simp only [push, uncheckedAdditionProtocol_eq]

/-- The check either refuses and changes nothing, or accepts and counts the item. -/
theorem preAdditionCheckProtocol_cases (item : T) :
    preAdditionCheckProtocol lim q item = (false, q) ∨
      q.stopped = false ∧ preAdditionCheckProtocol lim q item =
        (true, { q with currentBytes := q.currentBytes + countedBytes lim item }) := by
  unfold preAdditionCheckProtocol countedBytes
  cases q with
  | mk dequeue stopped currentBytes =>
    cases stopped with
    | true => exact .inl rfl
    | false =>
      dsimp only
      split_ifs <;> simp

theorem tryPush_cases (place : T → List T → List T) (item : T) :
    tryPush lim place q item = (false, q) ∨
      q.stopped = false ∧ tryPush lim place q item =
        (true, ⟨place item q.dequeue, q.stopped, q.currentBytes + countedBytes lim item⟩) := by
  unfold tryPush
  rcases preAdditionCheckProtocol_cases lim q item with h | ⟨hstop, h⟩
  · exact .inl (by rw [h])
  · exact .inr ⟨hstop, by rw [h]⟩

theorem popFront_cons {item : T} {rest : List T} (h : q.dequeue = item :: rest) :
    popFront lim q = .ok (item, ⟨rest, q.stopped, q.currentBytes - countedBytes lim item⟩) := by
  simp only [popFront, h, removalProtocol_eq]

theorem popBack_append {item : T} {rest : List T} (h : q.dequeue = rest ++ [item]) :
    popBack lim q = .ok (item, ⟨rest, q.stopped, q.currentBytes - countedBytes lim item⟩) := by
  simp [popBack, h, removalProtocol_eq]

/-- The three ways in which `wait_and_pop` leaves the mutex. -/
theorem waitAndPop_cases :
    (q.dequeue = [] ∧ q.stopped = false ∧ waitAndPop lim q = ⟨q, .blocked, .nobody⟩) ∨
    (q.dequeue = [] ∧ q.stopped = true ∧ waitAndPop lim q = ⟨q, .nullopt, .nobody⟩) ∨
    ∃ item rest, q.dequeue = item :: rest ∧ waitAndPop lim q =
      ⟨⟨rest, q.stopped, q.currentBytes - countedBytes lim item⟩, .item item, .nobody⟩ := by
  cases hd : q.dequeue with
  | nil => cases hstop : q.stopped <;> simp [waitAndPop, hd, hstop]
  | cons item rest =>
    refine .inr (.inr ⟨item, rest, rfl, ?_⟩)
    simp only [waitAndPop, hd, removalProtocol_eq, reduceCtorEq, and_false, if_false]

omit [QueueSizeTraits T] in
theorem stop_eq : q.stop = (!q.stopped, { q with stopped := true }) := by
  cases q with
  | mk dequeue stopped currentBytes => cases stopped <;> rfl

omit [QueueSizeTraits T] in
theorem popOutcome_read (r : Except String T) : (popOutcome q (r.map (·, q))).queue = q := by
  cases r <;> rfl

/-- An item without bytes is let into the empty queue, whatever the limits. -/
theorem tryPushBack_empty {item : T} (h : QueueSizeTraits.get item = 0) :
    tryPushBack lim empty item = (true, ⟨[item], false, 0⟩) := by
  have hsize : ¬ (lim.enableMaxSize ∧ lim.maximumSize ≠ 0 ∧ lim.maximumSize.toNat ≤ 0) := by
    rintro ⟨-, hne, hle⟩
    exact hne (UInt64.toNat_inj.mp (Nat.le_zero.mp hle))
  have hcheck : preAdditionCheckProtocol lim (empty : ThreadSafeQueue T) item = (true, empty) := by
    simp only [preAdditionCheckProtocol, empty, List.length_nil, if_neg hsize, h]
    split_ifs <;> simp_all
  simp only [tryPushBack, tryPush, hcheck]
  rfl

theorem waitAndPop_singleton {item : T} (h : QueueSizeTraits.get item = 0) :
    waitAndPop lim ⟨[item], false, 0⟩ = ⟨empty, .item item, .nobody⟩ := by
  have hcounted : countedBytes lim item = 0 := by
    simp [countedBytes, h]
  simp [waitAndPop, removalProtocol_eq, hcounted, empty]

/-! ## The loop of `replace` -/

section

variable {lim}

/-- The items that the size limit leaves room for, behind `n` elements. -/
def fitting (lim : Limits) (n : ℕ) (items : List T) : List T :=
  if maxSize lim = 0 then items else items.take ((maxSize lim).toNat - n)

theorem sizeTest_iff : (lim.enableMaxSize = true ∧ lim.maximumSize > 0) ↔ maxSize lim ≠ 0 := by
  unfold maxSize
  cases lim.enableMaxSize <;> simp [UInt64.pos_iff_ne_zero]

theorem maxSize_eq (h : maxSize lim ≠ 0) : maxSize lim = lim.maximumSize :=
  if_pos (sizeTest_iff.mpr h).1

omit [QueueSizeTraits T] in
theorem fitting_nil (n : ℕ) : fitting lim n ([] : List T) = [] := by
  unfold fitting
  split_ifs <;> simp

omit [QueueSizeTraits T] in
/-- No item fits when the limit is reached. -/
theorem fitting_of_full {n : ℕ} (hmax : maxSize lim ≠ 0) (hfull : (maxSize lim).toNat ≤ n)
    (items : List T) : fitting lim n items = [] := by
  rw [fitting, if_neg hmax, Nat.sub_eq_zero_of_le hfull, List.take_zero]

omit [QueueSizeTraits T] in
/-- Otherwise the first one does. -/
theorem fitting_cons {n : ℕ} (hroom : maxSize lim ≠ 0 → n < (maxSize lim).toNat) (item : T)
    (items : List T) : fitting lim n (item :: items) = item :: fitting lim (n + 1) items := by
  unfold fitting
  split_ifs with hmax
  · rfl
  · have hlt := hroom hmax
    have hsucc : (maxSize lim).toNat - n = (maxSize lim).toNat - (n + 1) + 1 := by omega
    rw [hsucc, List.take_succ_cons]

theorem replaceLoop_dequeue (items : List T) {n : ℕ} (q : ThreadSafeQueue T)
    (hroom : maxSize lim ≠ 0 → n < (maxSize lim).toNat) :
    (replaceLoop lim items n q).dequeue = q.dequeue ++ fitting lim n items := by
  induction items generalizing n q with
  | nil => rw [replaceLoop, fitting_nil, List.append_nil]
  | cons item items ih =>
    rw [fitting_cons hroom, replaceLoop]
    by_cases hmax : maxSize lim = 0
    · have hnext : ∀ m, fitting lim m items = items := fun m => if_pos hmax
      rw [if_neg fun htest => sizeTest_iff.mp htest hmax, ih _ fun hne => absurd hmax hne]
      rw [hnext, hnext, List.append_assoc, List.singleton_append]
    · rw [if_pos (sizeTest_iff.mpr hmax), ← maxSize_eq hmax]
      by_cases hfull : (maxSize lim).toNat ≤ n + 1
      · rw [if_pos hfull, fitting_of_full hmax hfull]
      · rw [if_neg hfull, ih _ fun _ => Nat.not_le.mp hfull, List.append_assoc,
          List.singleton_append]

theorem replace_dequeue (q : ThreadSafeQueue T) (items : List T) :
    (replace lim q items).dequeue = fitting lim 0 items := by
  rw [replace, replaceLoop_dequeue, List.nil_append]
  intro hmax
  exact UInt64.lt_iff_toNat_lt.mp (UInt64.pos_iff_ne_zero.mpr hmax)

end

end ThreadSafeQueue
end ServerSimple.ThreadSafe
