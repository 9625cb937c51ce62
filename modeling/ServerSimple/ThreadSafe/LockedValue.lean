import ServerSimple.Library.Runs
import ServerSimple.ThreadSafe.UnorderedMap

/-! # Values that come with the lock

`get_locked` and `try_emplace_locked` return a handle: the lock of the map and a raw pointer to a
value in it. Moving a handle empties the lock of the source, but a moved pointer keeps its value, so
the source still tests true.
-/

namespace ServerSimple.ThreadSafe

open Library UnorderedMap

/-- `std::unique_lock<std::mutex>`, with the mutexes named by their maps. -/
structure UniqueLock (μ : Type*) where
  mutex : Option μ
  owns : Bool
  deriving DecidableEq

/-- A handle: the lock, and the pointer as the map and the key of the value it points to. -/
structure LockedValue (μ K : Type*) where
  lock : UniqueLock μ
  value : Option (μ × K)
  deriving DecidableEq

namespace LockedValue

variable {μ K : Type*}

/-- `operator bool`. -/
def toBool (v : LockedValue μ K) : Bool := v.value.isSome

/-- What a move leaves in its source: the lock is emptied, the pointer is copied. -/
def movedFrom (v : LockedValue μ K) : LockedValue μ K := { v with lock := ⟨none, false⟩ }

/-- A handle as the two functions construct it. -/
def acquired (m : μ) (key : K) : LockedValue μ K := ⟨⟨some m, true⟩, some (m, key)⟩

end LockedValue

/-- The maps with their mutexes, and the handles that are alive. -/
structure Guards (η μ K V : Type*) where
  contents : μ → Contents K V
  locked : μ → Bool
  handles : η → Option (LockedValue μ K)

/-- What is done to the maps and the handles. -/
inductive GuardAction (η μ K V : Type*) where
  | call (m : μ) (op : MapOp K V)
  | getLocked (handle : η) (m : μ) (key : K)
  | tryEmplaceLocked (handle : η) (m : μ) (key : K) (value : V)
  | moveConstruct (target source : η)
  | moveAssign (target source : η)
  | destroy (handle : η)
  /-- An assignment through a handle, `*handle = value`. -/
  | write (handle : η) (value : V)

namespace Guards

variable {η μ K V : Type*} [DecidableEq η] [DecidableEq μ] [DecidableEq K]

/-- Nothing is locked and there are no handles. -/
def initial (contents : μ → Contents K V) : Guards η μ K V := ⟨contents, fun _ => false, fun _ => none⟩

/-- The mutexes after a lock lets go of its own. -/
def release (lock : UniqueLock μ) (locked : μ → Bool) : μ → Bool :=
  match lock.mutex with
  | some m => if lock.owns then Function.update locked m false else locked
  | none => locked

/-- Hand out the lock of `m` and a pointer to the value of the key. -/
def acquire (s : Guards η μ K V) (handle : η) (m : μ) (key : K) : Guards η μ K V :=
  { s with
    locked := Function.update s.locked m true
    handles := Function.update s.handles handle (some (.acquired m key)) }

/-- Let go of the lock of the handle `v`, and leave `o` in its place. -/
def letGo (s : Guards η μ K V) (handle : η) (v : LockedValue μ K) (o : Option (LockedValue μ K)) :
    Guards η μ K V :=
  { s with
    locked := release v.lock s.locked
    handles := Function.update s.handles handle o }

/-- Move the handle `v` of `source` to `target`. -/
def move (s : Guards η μ K V) (target source : η) (v : LockedValue μ K) : Guards η μ K V :=
  { s with
    handles := Function.update (Function.update s.handles target (some v)) source (some v.movedFrom) }

/-- One action; undefined where the caller has to wait, or where a handle is not there. A move
assignment first releases what the target owns, and a self-move ends with an empty lock. -/
def step (s : Guards η μ K V) : GuardAction η μ K V → Option (Guards η μ K V)
  | .call m op =>
    if s.locked m then none
    else some { s with contents := Function.update s.contents m (exec (s.contents m) op).2 }
  | .getLocked handle m key =>
    if s.locked m ∨ (s.handles handle).isSome then none
    else
      match (s.contents m).lookup key with
      | none => some s
      | some _ => some (s.acquire handle m key)
  | .tryEmplaceLocked handle m key value =>
    if s.locked m ∨ (s.handles handle).isSome then none
    else
      let s := { s with
        contents := Function.update s.contents m (emplaceNew (s.contents m) key value).2 }
      -- the returned pair takes its handle over from a temporary, whose empty lock releases nothing
      some (s.acquire handle m key)
  | .moveConstruct target source =>
    match s.handles target, s.handles source with
    | none, some v => some (s.move target source v)
    | _, _ => none
  | .moveAssign target source =>
    match s.handles target, s.handles source with
    | some w, some v => some ({ s with locked := release w.lock s.locked }.move target source v)
    | _, _ => none
  | .destroy handle =>
    match s.handles handle with
    | some v => some (s.letGo handle v none)
    | none => none
  | .write handle value =>
    match s.handles handle with
    | none => none
    | some v =>
      match v.value with
      | none => none
      | some (m, key) =>
        if key ∈ s.contents m then
          some { s with contents := Function.update s.contents m ((s.contents m).insert key value) }
        else none

/-- The handles without a lock: those that were moved from, and those that were constructed or
assigned from such a handle. -/
def staleAfter (stale : η → Bool) : GuardAction η μ K V → η → Bool
  | .getLocked handle _ _ | .tryEmplaceLocked handle _ _ _ => Function.update stale handle false
  | .moveConstruct target source | .moveAssign target source =>
    Function.update (Function.update stale target (stale source)) source true
  | _ => stale

def stale (actions : List (GuardAction η μ K V)) : η → Bool :=
  actions.foldl staleAfter fun _ => false

/-! ## The invariant -/

/-- The handle owns the mutex of the map its value belongs to. -/
def Owns (s : Guards η μ K V) (h : η) (m : μ) : Prop :=
  ∃ key, s.handles h = some (.acquired m key)

/-- Every handle points to a value; the stale ones have an empty lock, and each of the others owns
the mutex of its map, which is then locked and owned by no one else. -/
structure Held (s : Guards η μ K V) (stale : η → Bool) : Prop where
  live : ∀ h v, s.handles h = some v → ∃ m key,
    v = if stale h then (LockedValue.acquired m key).movedFrom else .acquired m key
  locked : ∀ h m, s.Owns h m → s.locked m = true
  unique : ∀ h h' m, s.Owns h m → s.Owns h' m → h = h'

variable {s t : Guards η μ K V} {st : η → Bool} {h target source : η} {m : μ} {key : K}
  {v w : LockedValue μ K}

section

omit [DecidableEq K]

omit [DecidableEq η] [DecidableEq μ] in
theorem movedFrom_ne_acquired (v : LockedValue μ K) : v.movedFrom ≠ .acquired m key := by
  intro heq
  cases congrArg (fun u => u.lock.owns) heq

omit [DecidableEq η] [DecidableEq μ] in
theorem acquired_inj {m' : μ} {key' : K}
    (heq : LockedValue.acquired m key = .acquired m' key') : m = m' := by
  cases heq
  rfl

theorem letGo_handles_self (o : Option (LockedValue μ K)) : (s.letGo h v o).handles h = o :=
  Function.update_self ..

theorem letGo_handles_of_ne {h' : η} (hne : h' ≠ h) (o : Option (LockedValue μ K)) :
    (s.letGo h v o).handles h' = s.handles h' :=
  Function.update_of_ne hne ..

theorem acquire_handles_self : (s.acquire h m key).handles h = some (.acquired m key) :=
  Function.update_self ..

theorem acquire_handles_of_ne {h' : η} (hne : h' ≠ h) :
    (s.acquire h m key).handles h' = s.handles h' :=
  Function.update_of_ne hne ..

omit [DecidableEq μ] in
theorem move_handles_source : (s.move target source v).handles source = some v.movedFrom :=
  Function.update_self ..

omit [DecidableEq μ] in
theorem move_handles_target (hne : target ≠ source) :
    (s.move target source v).handles target = some v :=
  (Function.update_of_ne hne ..).trans (Function.update_self ..)

omit [DecidableEq μ] in
theorem move_handles_of_ne (htarget : h ≠ target) (hsource : h ≠ source) :
    (s.move target source v).handles h = s.handles h :=
  (Function.update_of_ne hsource ..).trans (Function.update_of_ne htarget ..)

omit [DecidableEq η] [DecidableEq μ] in
theorem held_initial (contents : μ → Contents K V) :
    Held (initial contents : Guards η μ K V) fun _ => false where
  live _ _ hv := by cases hv
  locked _ _ hown := by
    obtain ⟨key, hv⟩ := hown
    cases hv
  unique _ _ _ hown := by
    obtain ⟨key, hv⟩ := hown
    cases hv

omit [DecidableEq η] [DecidableEq μ] in
/-- Only the handles that are alive count, and the contents do not. -/
theorem Held.congr (hheld : Held s st) {st' : η → Bool} (hhandles : t.handles = s.handles)
    (hlocked : t.locked = s.locked)
    (hstale : ∀ h v, s.handles h = some v → st' h = st h) : Held t st' where
  live h v hv := by
    rw [hhandles] at hv
    rw [hstale h v hv]
    exact hheld.live h v hv
  locked h m hown := by
    rw [hlocked]
    exact hheld.locked h m (by rwa [Owns, ← hhandles])
  unique h h' m hown hown' := by
    rw [Owns, hhandles] at hown hown'
    exact hheld.unique h h' m hown hown'

omit [DecidableEq η] in
/-- A lock that lets go does not unlock what another handle owns. -/
theorem Held.locked_release (hheld : Held s st) (hv : s.handles h = some v) {h' : η}
    (hne : h' ≠ h) (hown : s.Owns h' m) : release v.lock s.locked m = true := by
  have hlocked := hheld.locked h' m hown
  obtain ⟨m', key', hlive⟩ := hheld.live h v hv
  cases hstale : st h with
  | true =>
    rw [hstale, if_pos rfl] at hlive
    rw [hlive]
    exact hlocked
  | false =>
    rw [hstale, if_neg Bool.false_ne_true] at hlive
    have hm : m ≠ m' := by
      rintro rfl
      exact hne (hheld.unique h' h m hown ⟨key', hlive ▸ hv⟩)
    have hrelease : release v.lock s.locked = Function.update s.locked m' false := by
      rw [hlive]
      rfl
    rw [hrelease, Function.update_of_ne hm, hlocked]

/-- A handle that is destroyed or emptied lets go of its lock. -/
theorem Held.letGo (hheld : Held s st) (hv : s.handles h = some v) {o : Option (LockedValue μ K)}
    (ho : ∀ u, o = some u → u = v.movedFrom) :
    Held (s.letGo h v o) (Function.update st h true) := by
  have howns : ∀ h' m, (s.letGo h v o).Owns h' m → h' ≠ h ∧ s.Owns h' m := by
    rintro h' m ⟨key, hown⟩
    have hne : h' ≠ h := by
      rintro rfl
      rw [letGo_handles_self] at hown
      exact movedFrom_ne_acquired v (ho _ hown).symm
    rw [letGo_handles_of_ne hne] at hown
    exact ⟨hne, key, hown⟩
  refine ⟨?_, ?_, ?_⟩
  · intro h' u hu
    by_cases heq : h' = h
    · subst heq
      rw [letGo_handles_self] at hu
      rw [Function.update_self]
      obtain ⟨m, key, hlive⟩ := hheld.live h' v hv
      refine ⟨m, key, ?_⟩
      rw [ho u hu, hlive, if_pos rfl]
      split_ifs <;> rfl
    · rw [letGo_handles_of_ne heq] at hu
      rw [Function.update_of_ne heq]
      exact hheld.live h' u hu
  · intro h' m hown
    obtain ⟨hne, hown⟩ := howns h' m hown
    exact hheld.locked_release hv hne hown
  · intro h' h'' m hown hown'
    exact hheld.unique h' h'' m (howns h' m hown).2 (howns h'' m hown').2

theorem Held.acquire (hheld : Held s st) (hfree : s.locked m = false) (key : K) :
    Held (s.acquire h m key) (Function.update st h false) := by
  have howns : ∀ h' m', (s.acquire h m key).Owns h' m' → (h' = h ∧ m' = m) ∨ s.Owns h' m' := by
    rintro h' m' ⟨key', hown⟩
    by_cases heq : h' = h
    · subst heq
      rw [acquire_handles_self, Option.some.injEq] at hown
      exact .inl ⟨rfl, (acquired_inj hown).symm⟩
    · rw [acquire_handles_of_ne heq] at hown
      exact .inr ⟨key', hown⟩
  refine ⟨?_, ?_, ?_⟩
  · intro h' u hu
    by_cases heq : h' = h
    · subst heq
      rw [acquire_handles_self] at hu
      rw [Function.update_self]
      cases hu
      exact ⟨m, key, rfl⟩
    · rw [acquire_handles_of_ne heq] at hu
      rw [Function.update_of_ne heq]
      exact hheld.live h' u hu
  · intro h' m' hown
    change Function.update s.locked m true m' = true
    by_cases heq : m' = m
    · rw [heq, Function.update_self]
    · rw [Function.update_of_ne heq]
      rcases howns h' m' hown with ⟨-, hm⟩ | hown
      · exact absurd hm heq
      · exact hheld.locked h' m' hown
  · -- the mutex was free, so no one else owns it
    have hnone : ∀ h', ¬ s.Owns h' m := by
      intro h' hown
      rw [hheld.locked h' m hown] at hfree
      cases hfree
    intro h' h'' m' hown hown'
    rcases howns h' m' hown with ⟨rfl, rfl⟩ | hold
    · rcases howns h'' m' hown' with ⟨rfl, -⟩ | hold'
      · rfl
      · exact absurd hold' (hnone h'')
    · rcases howns h'' m' hown' with ⟨-, rfl⟩ | hold'
      · exact absurd hold (hnone h')
      · exact hheld.unique h' h'' m' hold hold'

omit [DecidableEq μ] in
/-- The target of a move takes the place of its source. -/
theorem Held.move (hheld : Held s st) (htarget : s.handles target = none)
    (hsource : s.handles source = some v) :
    Held (s.move target source v)
      (Function.update (Function.update st target (st source)) source true) := by
  have hne : target ≠ source := by
    rintro rfl
    rw [htarget] at hsource
    cases hsource
  have howns : ∀ h m, (s.move target source v).Owns h m →
      h ≠ source ∧ s.Owns (if h = target then source else h) m := by
    rintro h m ⟨key, hown⟩
    have hsrc : h ≠ source := by
      rintro rfl
      rw [move_handles_source, Option.some.injEq] at hown
      exact movedFrom_ne_acquired v hown
    refine ⟨hsrc, key, ?_⟩
    split_ifs with heq
    · rwa [heq, move_handles_target hne, ← hsource] at hown
    · rwa [move_handles_of_ne heq hsrc] at hown
  refine ⟨?_, ?_, ?_⟩
  · intro h u hu
    obtain ⟨m, key, hlive⟩ := hheld.live source v hsource
    by_cases hsrc : h = source
    · rw [hsrc, move_handles_source] at hu
      rw [hsrc, Function.update_self]
      refine ⟨m, key, ?_⟩
      rw [← Option.some.inj hu, hlive, if_pos rfl]
      split_ifs <;> rfl
    · rw [Function.update_of_ne hsrc]
      by_cases htgt : h = target
      · rw [htgt, move_handles_target hne] at hu
        rw [htgt, Function.update_self]
        cases hu
        exact ⟨m, key, hlive⟩
      · rw [move_handles_of_ne htgt hsrc] at hu
        rw [Function.update_of_ne htgt]
        exact hheld.live h u hu
  · intro h m hown
    exact hheld.locked _ m (howns h m hown).2
  · intro h h' m hown hown'
    obtain ⟨hsrc, hown⟩ := howns h m hown
    obtain ⟨hsrc', hown'⟩ := howns h' m hown'
    have hsame := hheld.unique _ _ m hown hown'
    split_ifs at hsame with heq heq' heq'
    · rw [heq, heq']
    · exact absurd hsame.symm hsrc'
    · exact absurd hsame hsrc
    · exact hsame

end

/-! ## Runs -/

omit [DecidableEq K] in
/-- A move assignment destroys what the target holds and moves into its place; a self-move only lets
go of the lock. -/
theorem moveAssign_eq (hw : s.handles target = some w) (hv : s.handles source = some v) :
    { s with locked := release w.lock s.locked }.move target source v =
      if target = source then s.letGo source v (some v.movedFrom)
      else (s.letGo target w none).move target source v := by
  split_ifs with heq
  · subst heq
    cases hw.symm.trans hv
    simp only [move, letGo, Function.update_idem]
  · simp only [move, letGo, Function.update_idem]

omit [DecidableEq K] in
theorem Held.moveAssign (hheld : Held s st) (hw : s.handles target = some w)
    (hv : s.handles source = some v) :
    Held ({ s with locked := release w.lock s.locked }.move target source v)
      (Function.update (Function.update st target (st source)) source true) := by
  rw [moveAssign_eq hw hv]
  split_ifs with heq
  · have hgone := hheld.letGo hv (o := some v.movedFrom) fun u hu => (Option.some.inj hu).symm
    rwa [heq, Function.update_idem]
  · have hgone := hheld.letGo hw (o := none) fun u hu => by cases hu
    have hsource : (s.letGo target w none).handles source = some v := by
      rw [letGo_handles_of_ne (Ne.symm heq), hv]
    have hmoved := hgone.move (letGo_handles_self none) hsource
    rwa [Function.update_of_ne (Ne.symm heq), Function.update_idem] at hmoved

omit [DecidableEq K] in
theorem Held.destroy (hheld : Held s st) (hv : s.handles h = some v) :
    Held (s.letGo h v none) st := by
  have hgone := hheld.letGo hv (o := none) fun u hu => by cases hu
  apply hgone.congr rfl rfl
  intro h' u hu
  refine (Function.update_of_ne ?_ ..).symm
  rintro rfl
  rw [letGo_handles_self] at hu
  cases hu

omit [DecidableEq μ] [DecidableEq K] in
/-- The name of a handle that is not alive may count as stale or not. -/
theorem Held.rename (hheld : Held s st) (hnew : (s.handles h).isSome = false) (b : Bool) :
    Held s (Function.update st h b) := by
  apply hheld.congr rfl rfl
  intro h' v hv
  refine Function.update_of_ne ?_ ..
  rintro rfl
  rw [hv] at hnew
  cases hnew

theorem Held.step (hheld : Held s st) {action : GuardAction η μ K V}
    (hstep : s.step action = some t) : Held t (staleAfter st action) := by
  cases action with
  | call m op =>
    simp only [Guards.step, Option.ite_none_left_eq_some, Option.some.injEq] at hstep
    obtain ⟨-, rfl⟩ := hstep
    exact hheld.congr rfl rfl fun _ _ _ => rfl
  | getLocked handle m key =>
    simp only [Guards.step, Option.ite_none_left_eq_some, not_or, Bool.not_eq_true] at hstep
    obtain ⟨⟨hfree, hnew⟩, hstep⟩ := hstep
    cases hlook : (s.contents m).lookup key with
    | none =>
      -- the call throws, and its handle is not constructed
      rw [hlook] at hstep
      cases hstep
      exact hheld.rename hnew false
    | some value =>
      rw [hlook] at hstep
      cases hstep
      exact hheld.acquire hfree key
  | tryEmplaceLocked handle m key value =>
    simp only [Guards.step, Option.ite_none_left_eq_some, not_or, Bool.not_eq_true,
      Option.some.injEq] at hstep
    obtain ⟨⟨hfree, -⟩, rfl⟩ := hstep
    have hheld' : Held { s with
        contents := Function.update s.contents m (emplaceNew (s.contents m) key value).2 } st :=
      hheld.congr rfl rfl fun _ _ _ => rfl
    exact hheld'.acquire hfree key
  | moveConstruct target source =>
    rw [Guards.step] at hstep
    split at hstep
    · rename_i v htarget hsource
      cases hstep
      exact hheld.move htarget hsource
    · cases hstep
  | moveAssign target source =>
    rw [Guards.step] at hstep
    split at hstep
    · rename_i w v hw hv
      cases hstep
      exact hheld.moveAssign hw hv
    · cases hstep
  | destroy handle =>
    rw [Guards.step] at hstep
    split at hstep
    · rename_i v hv
      cases hstep
      exact hheld.destroy hv
    · cases hstep
  | write handle value =>
    rw [Guards.step] at hstep
    split at hstep
    · cases hstep
    · split at hstep
      · cases hstep
      · split_ifs at hstep
        cases hstep
        exact hheld.congr rfl rfl fun _ _ _ => rfl

theorem Held.run (hheld : Held s st) {actions : List (GuardAction η μ K V)}
    (hrun : Library.run Guards.step s actions = some t) :
    Held t (actions.foldl staleAfter st) := by
  induction actions generalizing s st with
  | nil =>
    rw [run_nil, Option.some.injEq] at hrun
    exact hrun ▸ hheld
  | cons action actions ih =>
    obtain ⟨u, hstep, hrest⟩ := run_cons_eq_some.mp hrun
    exact ih (hheld.step hstep) hrest

/-! ## Handles that test true -/

/-- The calls of functions of the map `m`. -/
def CallsOn (m : μ) : GuardAction η μ K V → Prop
  | .call m' _ | .getLocked _ m' _ | .tryEmplaceLocked _ m' _ _ => m' = m
  | _ => False

/-- A handle that tests true owns the mutex of the map its value belongs to; there is at most one for
each map, and while it is there every call on the map has to wait. -/
structure TrueHandlesHoldLock (s : Guards η μ K V) : Prop where
  owns : ∀ h v, s.handles h = some v → v.toBool = true → ∃ m key,
    v.value = some (m, key) ∧ v.lock = ⟨some m, true⟩ ∧ s.locked m = true
  atMostOne : ∀ h h' v v' m key key', s.handles h = some v → s.handles h' = some v' →
    v.value = some (m, key) → v'.value = some (m, key') → h = h'
  blocks : ∀ h v m key, s.handles h = some v → v.value = some (m, key) →
    ∀ action, CallsOn m action → s.step action = none

theorem step_of_locked (hlocked : s.locked m = true) {action : GuardAction η μ K V}
    (haction : CallsOn m action) : s.step action = none := by
  cases action with
  | call m' op | getLocked handle m' key | tryEmplaceLocked handle m' key value =>
    cases haction
    simp [step, hlocked]
  | _ => cases haction

omit [DecidableEq η] [DecidableEq μ] [DecidableEq K] in
/-- A handle that is not stale owns the mutex of its map. -/
theorem Held.owns (hheld : Held s st) (hfresh : ∀ h v, s.handles h = some v → st h = false)
    (hv : s.handles h = some v) (hvalue : v.value = some (m, key)) : s.Owns h m := by
  obtain ⟨m', key', hlive⟩ := hheld.live h v hv
  rw [hfresh h v hv, if_neg Bool.false_ne_true] at hlive
  rw [hlive] at hv hvalue
  cases hvalue
  exact ⟨key, hv⟩

theorem Held.trueHandlesHoldLock (hheld : Held s st)
    (hfresh : ∀ h v, s.handles h = some v → st h = false) : TrueHandlesHoldLock s := by
  refine ⟨?_, ?_, ?_⟩
  · intro h v hv _
    obtain ⟨m, key, hlive⟩ := hheld.live h v hv
    rw [hfresh h v hv, if_neg Bool.false_ne_true] at hlive
    refine ⟨m, key, ?_, ?_, hheld.locked h m ⟨key, hlive ▸ hv⟩⟩
    · rw [hlive]
      rfl
    · rw [hlive]
      rfl
  · intro h h' v v' m key key' hv hv' hvalue hvalue'
    exact hheld.unique h h' m (hheld.owns hfresh hv hvalue) (hheld.owns hfresh hv' hvalue')
  · intro h v m key hv hvalue action haction
    exact step_of_locked (hheld.locked h m (hheld.owns hfresh hv hvalue)) haction

/-- A stale handle tests true without a lock. -/
theorem Held.not_stale (hheld : Held s st) (htrue : TrueHandlesHoldLock s)
    (hv : s.handles h = some v) : st h = false := by
  obtain ⟨m, key, hlive⟩ := hheld.live h v hv
  have htest : v.toBool = true := by
    rw [hlive]
    split_ifs <;> rfl
  obtain ⟨m', key', -, hlock, -⟩ := htrue.owns h v hv htest
  rw [← Bool.not_eq_true]
  intro hstale
  rw [hlive, if_pos hstale] at hlock
  cases hlock

/-- In every state that any sequence of these actions leads to, the handles that test true hold the
locks of their maps exactly if no handle that is still alive is stale. -/
theorem trueHandlesHoldLock_iff (contents : μ → Contents K V)
    (actions : List (GuardAction η μ K V)) (s : Guards η μ K V)
    (hrun : Library.run step (initial contents) actions = some s) :
    TrueHandlesHoldLock s ↔ ∀ h, (s.handles h).isSome = true → stale actions h = false := by
  have hheld : Held s (stale actions) := (held_initial contents).run hrun
  constructor
  · intro htrue h hsome
    obtain ⟨v, hv⟩ := Option.isSome_iff_exists.mp hsome
    exact hheld.not_stale htrue hv
  · intro hfresh
    apply hheld.trueHandlesHoldLock
    intro h v hv
    exact hfresh h (by rw [hv, Option.isSome_some])

/-- A handle that is moved to another one and then destroyed. -/
theorem trueHandlesHoldLock_iff_moved : ∃ s : Guards Bool Unit ℕ ℤ,
    Library.run step (initial fun _ => AList.singleton 0 5)
      [.getLocked true () 0, .moveConstruct false true, .destroy true, .write false 6] = some s ∧
    TrueHandlesHoldLock s := by
  refine ⟨_, rfl, (trueHandlesHoldLock_iff (fun _ => AList.singleton 0 5)
    [.getLocked true () 0, .moveConstruct false true, .destroy true, .write false 6] _ rfl).mpr ?_⟩
  intro h
  cases h <;> decide

/-- The source of a move still tests true: the map has two such handles, and once the target is
destroyed, a call on the map goes through while the source tests true. -/
theorem moved_source_tests_true : ∃ s t u : Guards Bool Unit ℕ ℤ,
    Library.run step (initial fun _ => AList.singleton 0 5)
      [.getLocked true () 0, .moveConstruct false true] = some s ∧
    ((s.handles true).map LockedValue.toBool, (s.handles false).map LockedValue.toBool) =
      (some true, some true) ∧
    ¬ TrueHandlesHoldLock s ∧
    s.step (.destroy false) = some t ∧ (t.handles true).map LockedValue.toBool = some true ∧
    t.step (.call () (.insert 0 7)) = some u := by
  refine ⟨_, _, _, rfl, rfl, ?_, rfl, rfl, rfl⟩
  intro htrue
  obtain ⟨m, key, -, hlock, -⟩ := htrue.owns true _ rfl rfl
  cases hlock

end Guards
end ServerSimple.ThreadSafe
