import ServerSimple.ThreadSafe.QueueAdmission

/-! # Pushes that throw

`emplace_back` and `emplace_front` construct an element from the item, and the constructor or the
allocation can throw. The deque is then as before, but the bytes of the item are already counted: the
pushes count first and construct afterwards, while the loop of `replace` goes the other way round.
-/

namespace ServerSimple.ThreadSafe

/-- A call, with how the construction of its element ends if the call gets that far. -/
structure Call (T : Type*) where
  op : Op T
  construction : Except String Unit

namespace ThreadSafeQueue

variable {T : Type*} [QueueSizeTraits T] (lim : Limits)

/-- The body shared by the checked pushes. An exception leaves the queue as the check left it. -/
def tryPushOrThrow (place : T → List T → List T) (construction : Except String Unit)
    (q : ThreadSafeQueue T) (item : T) : Outcome T :=
  match preAdditionCheckProtocol lim q item with
  | (false, q) => ⟨q, .flag false, .nobody⟩
  | (true, q) =>
    match construction with
    | .ok () => ⟨{ q with dequeue := place item q.dequeue }, .flag true, .one⟩
    | .error what => ⟨q, .thrown what, .nobody⟩

/-- The body shared by the unchecked pushes. -/
def pushOrThrow (place : T → List T → List T) (construction : Except String Unit)
    (q : ThreadSafeQueue T) (item : T) : Outcome T :=
  let q := uncheckedAdditionProtocol lim q item
  match construction with
  | .ok () => ⟨{ q with dequeue := place item q.dequeue }, .done, .one⟩
  | .error what => ⟨q, .thrown what, .nobody⟩

/-- The critical section of a call whose construction may throw. -/
def execCall (q : ThreadSafeQueue T) (call : Call T) : Outcome T :=
  match call.op with
  | .tryPushBack item => tryPushOrThrow lim atBack call.construction q item
  | .tryPushFront item => tryPushOrThrow lim atFront call.construction q item
  | .pushBack item => pushOrThrow lim atBack call.construction q item
  | .pushFront item => pushOrThrow lim atFront call.construction q item
  | op => exec lim q op

/-- The queue after a sequence of calls, some of which may have thrown. -/
def execCalls (q : ThreadSafeQueue T) (calls : List (Call T)) : ThreadSafeQueue T :=
  calls.foldl (fun q call => (execCall lim q call).queue) q

/-- What the calls of a sequence hand back. -/
def results (q : ThreadSafeQueue T) : List (Call T) → List (Result T)
  | [] => []
  | call :: calls => (execCall lim q call).result :: results (execCall lim q call).queue calls

/-- A checked push passes the three tests. -/
def HasRoom (q : ThreadSafeQueue T) (item : T) : Prop :=
  q.stopped = false ∧
  (maxSize lim ≠ 0 → q.dequeue.length < (maxSize lim).toNat) ∧
  (maxBytes lim ≠ 0 → q.currentBytes ≤ maxBytes lim ∧
    QueueSizeTraits.get item ≤ maxBytes lim - q.currentBytes)

instance (q : ThreadSafeQueue T) (item : T) : Decidable (HasRoom lim q item) :=
  inferInstanceAs (Decidable (_ ∧ _ ∧ _))

/-- The item from which a call constructs an element, if it gets that far. -/
def emplaced (q : ThreadSafeQueue T) : Op T → Option T
  | .tryPushBack item | .tryPushFront item => if HasRoom lim q item then some item else none
  | .pushBack item | .pushFront item => some item
  | _ => none

/-- The item whose construction throws in this call, with the exception. -/
def throwing (q : ThreadSafeQueue T) (call : Call T) : Option (T × String) :=
  match emplaced lim q call.op, call.construction with
  | some item, .error what => some (item, what)
  | _, _ => none

/-- The construction throws for an item of which bytes are counted. -/
def Leaks (q : ThreadSafeQueue T) (call : Call T) : Prop :=
  ∃ item what, throwing lim q call = some (item, what) ∧ countedBytes lim item ≠ 0

/-- If the call ends with an exception, the elements and the counter are as before, and no later
call of any run can tell the difference. -/
def UnchangedIfThrown (q : ThreadSafeQueue T) (call : Call T) : Prop :=
  ∀ what, (execCall lim q call).result = .thrown what →
    (execCall lim q call).queue.dequeue = q.dequeue ∧
    (execCall lim q call).queue.currentBytes = q.currentBytes ∧
    ∀ rest, results lim (execCall lim q call).queue rest = results lim q rest

variable {lim} {q : ThreadSafeQueue T} {call : Call T}

/-! ## One call -/

theorem hasRoom_iff (item : T) :
    HasRoom lim q item ↔ (preAdditionCheckProtocol lim q item).1 = true := by
  rw [preAdditionCheckProtocol_fst, HasRoom]
  apply and_congr_right
  intro _
  apply and_congr
  · unfold maxSize
    cases lim.enableMaxSize <;> simp
  · unfold maxBytes
    cases lim.enableMaxBytes <;> simp

theorem tryPushOrThrow_refused {item : T} (h : ¬ HasRoom lim q item) (place : T → List T → List T)
    (construction : Except String Unit) :
    tryPushOrThrow lim place construction q item = tryPushOutcome (tryPush lim place q item) := by
  rw [hasRoom_iff, Bool.not_eq_true] at h
  rcases preAdditionCheckProtocol_cases lim q item with hrefused | ⟨-, haccepted⟩
  · rw [tryPushOrThrow, tryPush, hrefused]
    rfl
  · rw [haccepted] at h
    cases h

theorem tryPushOrThrow_ok (place : T → List T → List T) (item : T) :
    tryPushOrThrow lim place (.ok ()) q item = tryPushOutcome (tryPush lim place q item) := by
  unfold tryPushOrThrow tryPush
  rcases preAdditionCheckProtocol_cases lim q item with hrefused | ⟨-, haccepted⟩
  · rw [hrefused]
    rfl
  · rw [haccepted]
    rfl

theorem tryPushOrThrow_error {item : T} (h : HasRoom lim q item) (place : T → List T → List T)
    (what : String) :
    tryPushOrThrow lim place (.error what) q item =
      ⟨{ q with currentBytes := q.currentBytes + countedBytes lim item }, .thrown what, .nobody⟩ := by
  rw [hasRoom_iff] at h
  rcases preAdditionCheckProtocol_cases lim q item with hrefused | ⟨-, haccepted⟩
  · rw [hrefused] at h
    cases h
  · rw [tryPushOrThrow, haccepted]

theorem pushOrThrow_ok (place : T → List T → List T) (item : T) :
    pushOrThrow lim place (.ok ()) q item = ⟨push lim place q item, .done, .one⟩ := rfl

theorem pushOrThrow_error (place : T → List T → List T) (item : T) (what : String) :
    pushOrThrow lim place (.error what) q item =
      ⟨{ q with currentBytes := q.currentBytes + countedBytes lim item }, .thrown what, .nobody⟩ := by
  rw [pushOrThrow, uncheckedAdditionProtocol_eq]

/-- Where every construction succeeds, the calls are those of the queue without exceptions. -/
theorem execCall_ok (h : call.construction = .ok ()) : execCall lim q call = exec lim q call.op := by
  obtain ⟨op, construction⟩ := call
  subst h
  cases op with
  | tryPushBack item | tryPushFront item => exact tryPushOrThrow_ok _ item
  | pushBack item | pushFront item => exact pushOrThrow_ok _ item
  | _ => rfl

theorem execCall_of_emplaced_none (h : emplaced lim q call.op = none) :
    execCall lim q call = exec lim q call.op := by
  obtain ⟨op, construction⟩ := call
  cases op with
  | tryPushBack item | tryPushFront item =>
    have hroom : ¬ HasRoom lim q item := by
      intro hroom
      simp [emplaced, hroom] at h
    exact tryPushOrThrow_refused hroom _ construction
  | pushBack item | pushFront item => cases h
  | _ => rfl

/-- A construction that throws leaves its bytes counted and the deque without the item. -/
theorem execCall_error {item : T} {what : String} (h : emplaced lim q call.op = some item)
    (hthrow : call.construction = .error what) :
    execCall lim q call =
      ⟨{ q with currentBytes := q.currentBytes + countedBytes lim item }, .thrown what, .nobody⟩ := by
  obtain ⟨op, construction⟩ := call
  subst hthrow
  cases op with
  | tryPushBack x | tryPushFront x =>
    have hroom : HasRoom lim q x ∧ x = item := by simpa [emplaced] using h
    obtain ⟨hroom, rfl⟩ := hroom
    simp only [execCall, tryPushOrThrow_error hroom]
  | pushBack x | pushFront x =>
    cases h
    simp only [execCall, pushOrThrow_error]
  | _ => cases h

/-- Either the call is one of the queue without exceptions, or its construction throws. -/
theorem execCall_cases (lim : Limits) (q : ThreadSafeQueue T) (call : Call T) :
    (throwing lim q call = none ∧ execCall lim q call = exec lim q call.op) ∨
    ∃ item what, throwing lim q call = some (item, what) ∧ execCall lim q call =
      ⟨{ q with currentBytes := q.currentBytes + countedBytes lim item }, .thrown what, .nobody⟩ := by
  unfold throwing
  cases hitem : emplaced lim q call.op with
  | none => exact .inl ⟨rfl, execCall_of_emplaced_none hitem⟩
  | some item =>
    cases hconstruction : call.construction with
    | ok u => exact .inl ⟨rfl, execCall_ok hconstruction⟩
    | error what => exact .inr ⟨item, what, rfl, execCall_error hitem hconstruction⟩

omit [QueueSizeTraits T] in
theorem popOutcome_thrown {r : Except String (T × ThreadSafeQueue T)} {what : String}
    (h : (popOutcome q r).result = .thrown what) : (popOutcome q r).queue = q := by
  cases r with
  | error e => rfl
  | ok p => cases h

/-- The exceptions of the queue itself, on an empty deque, come before any change. -/
theorem exec_thrown {op : Op T} {what : String} (h : (exec lim q op).result = .thrown what) :
    (exec lim q op).queue = q := by
  cases op with
  | popFront | popBack | front | back => exact popOutcome_thrown h
  | waitAndPop =>
    obtain ⟨-, -, hw⟩ | ⟨-, -, hw⟩ | ⟨item, rest, -, hw⟩ := waitAndPop_cases lim q <;>
      simp [exec, hw] at h
  | _ => simp [exec, tryPushOutcome] at h

/-- An exception changes the queue exactly if it leaves bytes counted. -/
theorem unchangedIfThrown_iff_not_leaks (lim : Limits) (q : ThreadSafeQueue T) (call : Call T) :
    UnchangedIfThrown lim q call ↔ ¬ Leaks lim q call := by
  rcases execCall_cases lim q call with ⟨hnone, hexec⟩ | ⟨item, what, hthrow, hexec⟩
  · apply iff_of_true
    · intro what hresult
      rw [hexec] at hresult ⊢
      rw [exec_thrown hresult]
      exact ⟨rfl, rfl, fun rest => rfl⟩
    · rintro ⟨item, what, hsome, -⟩
      rw [hnone] at hsome
      cases hsome
  · constructor
    · rintro h ⟨item', what', hthrow', hcounted⟩
      rw [hthrow] at hthrow'
      cases hthrow'
      have hbytes := (h what (by rw [hexec])).2.1
      rw [hexec] at hbytes
      exact hcounted (UInt64.add_eq_left.mp hbytes)
    · intro hleaks what' hresult
      have hcounted : countedBytes lim item = 0 := by
        by_contra hne
        exact hleaks ⟨item, what, hthrow, hne⟩
      have hqueue : (execCall lim q call).queue = q := by
        rw [hexec, hcounted, UInt64.add_zero]
      rw [hqueue]
      exact ⟨rfl, rfl, fun rest => rfl⟩

/-! ## A whole run -/

/-- The bytes that stay counted without an element, of which there were `n` before the call: an
exception adds those of its item, and the calls that reset the counter start over. -/
def leakedAfter (lim : Limits) (q : ThreadSafeQueue T) (n : ℕ) (call : Call T) : ℕ :=
  match throwing lim q call with
  | some (item, _) => n + (countedBytes lim item).toNat
  | none => if resets call.op then 0 else n

def leaked (lim : Limits) : ThreadSafeQueue T → ℕ → List (Call T) → ℕ
  | _, n, [] => n
  | q, n, call :: calls => leaked lim (execCall lim q call).queue (leakedAfter lim q n call) calls

/-- The counter is the total size together with the leaked bytes, modulo `2 ^ 64`. -/
def AccountedUpTo (q : ThreadSafeQueue T) (n : ℕ) : Prop :=
  q.currentBytes.toNat = (totalBytes q.dequeue + n) % 2 ^ 64

theorem accountedUpTo_empty : (empty : ThreadSafeQueue T).AccountedUpTo 0 := rfl

theorem InStep.accountedUpTo {r : ThreadSafeQueue T} {n : ℕ} (h : InStep q r)
    (hq : q.AccountedUpTo n) : r.AccountedUpTo n := by
  unfold InStep AccountedUpTo at *
  have hr := r.currentBytes.toNat_lt
  omega

theorem execCall_accountedUpTo (hlim : CountsBytes lim) {n : ℕ} (h : q.AccountedUpTo n)
    (call : Call T) : (execCall lim q call).queue.AccountedUpTo (leakedAfter lim q n call) := by
  unfold leakedAfter
  rcases execCall_cases lim q call with ⟨hnone, hexec⟩ | ⟨item, what, hthrow, hexec⟩
  · rw [hexec, hnone]
    cases hop : resets call.op with
    | true => exact exec_accounted_of_resets hlim hop
    | false => exact (exec_inStep hlim hop).accountedUpTo h
  · rw [hexec, hthrow]
    unfold AccountedUpTo at *
    simp only [UInt64.toNat_add]
    omega

theorem execCalls_accountedUpTo (hlim : CountsBytes lim) {n : ℕ} (h : q.AccountedUpTo n)
    (calls : List (Call T)) : (execCalls lim q calls).AccountedUpTo (leaked lim q n calls) := by
  induction calls generalizing q n with
  | nil => exact h
  | cons call calls ih => exact ih (execCall_accountedUpTo hlim h call)

/-- In every state that any calls can produce, exceptions included, a call that ends with an
exception leaves the queue as it was exactly if it does not leak; and what leaks adds up, until the
next `clear` or `replace`. -/
theorem unchangedIfThrown_iff (lim : Limits) (calls : List (Call T)) :
    (∀ call, UnchangedIfThrown lim (execCalls lim empty calls) call ↔
      ¬ Leaks lim (execCalls lim empty calls) call) ∧
    (CountsBytes lim → (execCalls lim empty calls).currentBytes.toNat =
      (totalBytes (execCalls lim empty calls).dequeue + leaked lim empty 0 calls) % 2 ^ 64) := by
  constructor
  · intro call
    exact unchangedIfThrown_iff_not_leaks lim _ call
  · intro hlim
    exact execCalls_accountedUpTo hlim accountedUpTo_empty calls

/-- A limit of two elements and two pushes that throw: the queue is empty and refuses everything. -/
theorem throwing_pushes_fill_queue :
    let lim : Limits := ⟨true, true, 0, 8⟩
    let pushes : List (Call Int) :=
      [⟨.tryPushBack 1, .error "bad_alloc"⟩, ⟨.pushFront 2, .error "bad_alloc"⟩]
    (@execCalls Int sizeofInt lim empty pushes).dequeue = [] ∧
    (∀ item, (@execCall Int sizeofInt lim (@execCalls Int sizeofInt lim empty pushes)
      ⟨.tryPushBack item, .ok ()⟩).result = .flag false) ∧
    ¬ @UnchangedIfThrown Int sizeofInt lim empty ⟨.tryPushBack 1, .error "bad_alloc"⟩ := by
  refine ⟨rfl, fun item => rfl, ?_⟩
  intro h
  exact absurd (h "bad_alloc" rfl).2.1 (by decide)

end ThreadSafeQueue
end ServerSimple.ThreadSafe
