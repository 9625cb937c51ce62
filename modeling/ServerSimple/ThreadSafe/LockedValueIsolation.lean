import ServerSimple.Library.Traces
import ServerSimple.ThreadSafe.LockedValue

/-! # What a handle protects

A locked mutex has a handle that is alive and owns it, so no lock is leaked, and the value of such a
handle is still in its map. While a mutex stays locked, its map changes at one key only, as the
handle that owns the mutex assigns to its value.
-/

namespace ServerSimple.ThreadSafe

open Library UnorderedMap

namespace Guards

variable {η μ K V : Type*} [DecidableEq η] [DecidableEq μ] [DecidableEq K]
  {s t : Guards η μ K V} {st : η → Bool} {h target source : η} {m : μ} {key : K}
  {v w : LockedValue μ K}

/-! ## Locks have owners, and owners have values -/

/-- Every locked mutex is owned by a handle, and what the owners point to is in the maps. -/
structure Covered (s : Guards η μ K V) : Prop where
  owned : ∀ m, s.locked m = true → ∃ h, s.Owns h m
  present : ∀ h m key, s.handles h = some (.acquired m key) → key ∈ s.contents m

section

omit [DecidableEq K]

omit [DecidableEq η] [DecidableEq μ] in
theorem covered_initial (contents : μ → Contents K V) :
    Covered (initial contents : Guards η μ K V) where
  owned _ hlocked := by cases hlocked
  present _ _ _ hv := by cases hv

/-- What is locked after a lock let go was locked before, and is not what the lock owned. -/
theorem locked_of_release {lock : UniqueLock μ} {locked : μ → Bool}
    (h : release lock locked m = true) : locked m = true ∧ lock ≠ ⟨some m, true⟩ := by
  obtain ⟨mutex, owns⟩ := lock
  cases mutex with
  | none => exact ⟨h, by simp⟩
  | some m' =>
    cases owns with
    | false => exact ⟨h, by simp⟩
    | true =>
      change Function.update locked m' false m = true at h
      have hne : m ≠ m' := by
        rintro rfl
        rw [Function.update_self] at h
        cases h
      rw [Function.update_of_ne hne] at h
      exact ⟨h, by simpa using hne.symm⟩

/-- A handle that lets go is not an owner any more, and the others keep what they had. -/
theorem acquired_of_letGo {o : Option (LockedValue μ K)} (ho : ∀ u, o = some u → u = v.movedFrom)
    {h' : η} (hown : (s.letGo h v o).handles h' = some (.acquired m key)) :
    s.handles h' = some (.acquired m key) := by
  have hne : h' ≠ h := by
    rintro rfl
    rw [letGo_handles_self] at hown
    exact movedFrom_ne_acquired v (ho _ hown).symm
  rwa [letGo_handles_of_ne hne] at hown

omit [DecidableEq μ] in
/-- The owners after a move were owners before, the target in the place of the source. -/
theorem acquired_of_move (hsource : s.handles source = some v) {h' : η}
    (hown : (s.move target source v).handles h' = some (.acquired m key)) :
    s.handles (if h' = target then source else h') = some (.acquired m key) := by
  have hsrc : h' ≠ source := by
    rintro rfl
    rw [move_handles_source, Option.some.injEq] at hown
    exact movedFrom_ne_acquired v hown
  split_ifs with heq
  · subst heq
    rwa [move_handles_target hsrc, ← hsource] at hown
  · rwa [move_handles_of_ne heq hsrc] at hown

/-- The owners after an acquisition are the new handle and those from before. -/
theorem acquired_of_acquire {h' : η} {m' : μ} {key' : K}
    (hown : (s.acquire h m key).handles h' = some (.acquired m' key')) :
    (m' = m ∧ key' = key) ∨ s.handles h' = some (.acquired m' key') := by
  by_cases heq : h' = h
  · rw [heq, acquire_handles_self] at hown
    cases hown
    exact .inl ⟨rfl, rfl⟩
  · rw [acquire_handles_of_ne heq] at hown
    exact .inr hown

omit [DecidableEq η] [DecidableEq μ] in
/-- Keys may come in, and keys of a map that is not locked may go. -/
theorem Covered.congr (hcov : Covered s) (hheld : Held s st) (hhandles : t.handles = s.handles)
    (hlocked : t.locked = s.locked)
    (hkeys : ∀ m key, s.locked m = true → key ∈ s.contents m → key ∈ t.contents m) : Covered t where
  owned m hm := by
    rw [hlocked] at hm
    obtain ⟨h, key, hown⟩ := hcov.owned m hm
    exact ⟨h, key, by rwa [hhandles]⟩
  present h m key hown := by
    rw [hhandles] at hown
    exact hkeys m key (hheld.locked h m ⟨key, hown⟩) (hcov.present h m key hown)

theorem Covered.letGo (hcov : Covered s) (hv : s.handles h = some v)
    {o : Option (LockedValue μ K)} (ho : ∀ u, o = some u → u = v.movedFrom) :
    Covered (s.letGo h v o) where
  owned m hlocked := by
    obtain ⟨hlocked, hlock⟩ := locked_of_release hlocked
    obtain ⟨h', key, hown⟩ := hcov.owned m hlocked
    have hne : h' ≠ h := by
      rintro rfl
      cases hv.symm.trans hown
      exact hlock rfl
    exact ⟨h', key, by rwa [letGo_handles_of_ne hne]⟩
  present h' m key hown := hcov.present h' m key (acquired_of_letGo ho hown)

theorem Covered.acquire (hcov : Covered s) (hnew : s.handles h = none)
    (hkey : key ∈ s.contents m) : Covered (s.acquire h m key) where
  owned m' hlocked := by
    by_cases heq : m' = m
    · subst heq
      exact ⟨h, key, acquire_handles_self⟩
    · change Function.update s.locked m true m' = true at hlocked
      rw [Function.update_of_ne heq] at hlocked
      obtain ⟨h', key', hown⟩ := hcov.owned m' hlocked
      have hne : h' ≠ h := by
        rintro rfl
        cases hnew.symm.trans hown
      exact ⟨h', key', by rwa [acquire_handles_of_ne hne]⟩
  present h' m' key' hown := by
    rcases acquired_of_acquire hown with ⟨rfl, rfl⟩ | hown
    · exact hkey
    · exact hcov.present h' m' key' hown

omit [DecidableEq μ] in
theorem Covered.move (hcov : Covered s) (htarget : s.handles target = none)
    (hsource : s.handles source = some v) : Covered (s.move target source v) where
  owned m hlocked := by
    obtain ⟨h', key, hown⟩ := hcov.owned m hlocked
    have htgt : h' ≠ target := by
      rintro rfl
      cases htarget.symm.trans hown
    by_cases hsrc : h' = source
    · subst hsrc
      refine ⟨target, key, ?_⟩
      rw [move_handles_target htgt.symm, ← hsource, hown]
    · exact ⟨h', key, by rwa [move_handles_of_ne htgt hsrc]⟩
  present h' m key hown := hcov.present _ m key (acquired_of_move hsource hown)

theorem Covered.moveAssign (hcov : Covered s) (hw : s.handles target = some w)
    (hv : s.handles source = some v) :
    Covered ({ s with locked := release w.lock s.locked }.move target source v) := by
  rw [moveAssign_eq hw hv]
  split_ifs with heq
  · exact hcov.letGo hv fun u hu => (Option.some.inj hu).symm
  · have hgone := hcov.letGo hw (o := none) fun u hu => by cases hu
    refine hgone.move (letGo_handles_self none) ?_
    rw [letGo_handles_of_ne (Ne.symm heq), hv]

end

omit [DecidableEq η] [DecidableEq K] in
/-- A key stays in a map unless the map is replaced by one without it. -/
theorem mem_update {m' : μ} {c : Contents K V} (hmem : key ∈ s.contents m)
    (hc : m = m' → key ∈ c) : key ∈ Function.update s.contents m' c m := by
  by_cases heq : m = m'
  · subst heq
    rw [Function.update_self]
    exact hc rfl
  · rwa [Function.update_of_ne heq]

theorem Covered.step (hcov : Covered s) (hheld : Held s st) {action : GuardAction η μ K V}
    (hstep : s.step action = some t) : Covered t := by
  cases action with
  | call m op =>
    simp only [Guards.step, Option.ite_none_left_eq_some, Option.some.injEq,
      Bool.not_eq_true] at hstep
    obtain ⟨hfree, rfl⟩ := hstep
    refine hcov.congr hheld rfl rfl fun m' key hlocked hmem => mem_update hmem ?_
    rintro rfl
    cases hfree.symm.trans hlocked
  | getLocked handle m key =>
    simp only [Guards.step, Option.ite_none_left_eq_some, not_or, Bool.not_eq_true,
      Option.isSome_eq_false_iff, Option.isNone_iff_eq_none] at hstep
    obtain ⟨⟨hfree, hnew⟩, hstep⟩ := hstep
    cases hlook : (s.contents m).lookup key with
    | none =>
      rw [hlook] at hstep
      exact Option.some.inj hstep ▸ hcov
    | some value =>
      rw [hlook] at hstep
      have hmem : key ∈ s.contents m := AList.lookup_isSome.mp (by rw [hlook, Option.isSome_some])
      exact Option.some.inj hstep ▸ hcov.acquire hnew hmem
  | tryEmplaceLocked handle m key value =>
    simp only [Guards.step, Option.ite_none_left_eq_some, not_or, Bool.not_eq_true,
      Option.isSome_eq_false_iff, Option.isNone_iff_eq_none, Option.some.injEq] at hstep
    obtain ⟨⟨hfree, hnew⟩, rfl⟩ := hstep
    have hemplaced : Covered { s with
        contents := Function.update s.contents m (emplaceNew (s.contents m) key value).2 } := by
      refine hcov.congr hheld rfl rfl fun m' key' hlocked hmem => mem_update hmem ?_
      rintro rfl
      cases hfree.symm.trans hlocked
    apply hemplaced.acquire hnew
    change key ∈ Function.update s.contents m (emplace (s.contents m) key value) m
    rw [Function.update_self, ← AList.lookup_isSome]
    exact isSome_lookup_emplace value (.inl rfl)
  | moveConstruct target source =>
    rw [Guards.step] at hstep
    split at hstep
    · rename_i v htarget hsource
      exact Option.some.inj hstep ▸ hcov.move htarget hsource
    · cases hstep
  | moveAssign target source =>
    rw [Guards.step] at hstep
    split at hstep
    · rename_i w v hw hv
      exact Option.some.inj hstep ▸ hcov.moveAssign hw hv
    · cases hstep
  | destroy handle =>
    rw [Guards.step] at hstep
    split at hstep
    · rename_i v hv
      exact Option.some.inj hstep ▸ hcov.letGo hv fun u hu => by cases hu
    · cases hstep
  | write handle value =>
    rw [Guards.step] at hstep
    split at hstep
    · cases hstep
    · split at hstep
      · cases hstep
      · rename_i m' key' hvalue
        split_ifs at hstep with hmem'
        cases hstep
        refine hcov.congr hheld rfl rfl fun m key hlocked hmem => mem_update hmem ?_
        rintro rfl
        exact (AList.mem_insert _).mpr (.inr hmem)

theorem Covered.run (hcov : Covered s) (hheld : Held s st) {actions : List (GuardAction η μ K V)}
    (hrun : Library.run Guards.step s actions = some t) : Covered t := by
  induction actions generalizing s st with
  | nil =>
    rw [run_nil, Option.some.injEq] at hrun
    exact hrun ▸ hcov
  | cons action actions ih =>
    obtain ⟨u, hstep, hrest⟩ := run_cons_eq_some.mp hrun
    exact ih (hcov.step hheld hstep) (hheld.step hstep) hrest

/-- In every state that is reached, a mutex is locked exactly if a handle that is alive owns it, and
an assignment through an owner finds its value in the map and replaces it. -/
theorem locked_iff_owned (contents : μ → Contents K V) (actions : List (GuardAction η μ K V))
    (s : Guards η μ K V) (hrun : Library.run step (initial contents) actions = some s) :
    (∀ m, s.locked m = true ↔ ∃ h key, s.handles h = some (.acquired m key)) ∧
    ∀ h m key value, s.handles h = some (.acquired m key) →
      s.step (.write h value) = some { s with
        contents := Function.update s.contents m ((s.contents m).insert key value) } := by
  have hheld : Held s (stale actions) := (held_initial contents).run hrun
  have hcov : Covered s := (covered_initial contents).run (held_initial contents) hrun
  constructor
  · intro m
    constructor
    · exact hcov.owned m
    · rintro ⟨h, hown⟩
      exact hheld.locked h m hown
  · intro h m key value hown
    simp [step, hown, LockedValue.acquired, hcov.present h m key hown]

/-- There is a single handle with the value 5 of the map, and the map is locked. -/
theorem locked_iff_owned_emplaced : ∃ s : Guards Bool Unit ℕ ℤ,
    Library.run step (initial fun _ => ∅)
      [.tryEmplaceLocked true () 0 5, .moveConstruct false true, .destroy true] = some s ∧
    (∀ m, s.locked m = true ↔ ∃ h key, s.handles h = some (.acquired m key)) ∧
    ∀ h m key value, s.handles h = some (.acquired m key) →
      s.step (.write h value) = some { s with
        contents := Function.update s.contents m ((s.contents m).insert key value) } :=
  ⟨_, rfl, locked_iff_owned (fun _ => ∅)
    [.tryEmplaceLocked true () 0 5, .moveConstruct false true, .destroy true] _ rfl⟩

/-! ## While a mutex is locked -/

/-- What the action assigns to a value of the map `m`. -/
def writtenTo (m : μ) (s : Guards η μ K V) : GuardAction η μ K V → List V
  | .write h value =>
    match s.handles h with
    | some v => if v.value.map Prod.fst = some m then [value] else []
    | none => []
  | _ => []

/-- A step, with what it assigns to values of `m`. -/
def stepWriting (m : μ) (s : Guards η μ K V) (action : GuardAction η μ K V) :
    Option (Guards η μ K V × List V) :=
  (s.step action).map fun t => (t, s.writtenTo m action)

/-- Not an assignment through a handle that was moved from. -/
def writesFresh (s : Guards η μ K V) : GuardAction η μ K V → Bool
  | .write h _ => (s.handles h).all fun v => v.lock.owns
  | _ => true

/-- As long as the mutex is locked, its owner is one from before. -/
theorem acquired_of_step (hlocked : s.locked m = true) {action : GuardAction η μ K V}
    (hstep : s.step action = some t) (hown : t.handles h = some (.acquired m key)) :
    ∃ h', s.handles h' = some (.acquired m key) := by
  cases action with
  | call m' op =>
    simp only [Guards.step, Option.ite_none_left_eq_some, Option.some.injEq] at hstep
    obtain ⟨-, rfl⟩ := hstep
    exact ⟨h, hown⟩
  | getLocked handle m' key' =>
    simp only [Guards.step, Option.ite_none_left_eq_some, not_or, Bool.not_eq_true] at hstep
    obtain ⟨⟨hfree, -⟩, hstep⟩ := hstep
    split at hstep
    · cases hstep
      exact ⟨h, hown⟩
    · cases hstep
      rcases acquired_of_acquire hown with ⟨rfl, -⟩ | hown
      · cases hfree.symm.trans hlocked
      · exact ⟨h, hown⟩
  | tryEmplaceLocked handle m' key' value =>
    simp only [Guards.step, Option.ite_none_left_eq_some, not_or, Bool.not_eq_true,
      Option.some.injEq] at hstep
    obtain ⟨⟨hfree, -⟩, rfl⟩ := hstep
    rcases acquired_of_acquire hown with ⟨rfl, -⟩ | hown
    · cases hfree.symm.trans hlocked
    · exact ⟨h, hown⟩
  | moveConstruct target source =>
    rw [Guards.step] at hstep
    split at hstep
    · rename_i v htarget hsource
      cases hstep
      exact ⟨_, acquired_of_move hsource hown⟩
    · cases hstep
  | moveAssign target source =>
    rw [Guards.step] at hstep
    split at hstep
    · rename_i w v hw hv
      cases hstep
      exact ⟨_, acquired_of_move hv hown⟩
    · cases hstep
  | destroy handle =>
    rw [Guards.step] at hstep
    split at hstep
    · rename_i v hv
      cases hstep
      exact ⟨h, acquired_of_letGo (fun u hu => by cases hu) hown⟩
    · cases hstep
  | write handle value =>
    rw [Guards.step] at hstep
    split at hstep
    · cases hstep
    · split at hstep
      · cases hstep
      · split_ifs at hstep
        cases hstep
        exact ⟨h, hown⟩

omit [DecidableEq η] [DecidableEq μ] [DecidableEq K] in
/-- A handle that owns its lock points to a value of the map whose mutex that is. -/
theorem Held.acquired (hheld : Held s st) (hv : s.handles h = some v) (howns : v.lock.owns = true) :
    ∃ m key, v = .acquired m key := by
  obtain ⟨m, key, hlive⟩ := hheld.live h v hv
  split_ifs at hlive
  · rw [hlive] at howns
    cases howns
  · exact ⟨m, key, hlive⟩

/-- One step while the mutex is owned by a handle of the key. -/
theorem contents_of_step (hheld : Held s st) (hown : s.handles h = some (.acquired m key))
    {action : GuardAction η μ K V} (hfresh : s.writesFresh action = true)
    (hstep : s.step action = some t) :
    t.contents m = assignAll (s.contents m) ((s.writtenTo m action).map (Prod.mk key)) := by
  have hlocked : s.locked m = true := hheld.locked h m ⟨key, hown⟩
  have hnot : ¬ CallsOn m action := by
    intro hcalls
    cases (step_of_locked hlocked hcalls).symm.trans hstep
  cases action with
  | call m' op =>
    simp only [Guards.step, Option.ite_none_left_eq_some, Option.some.injEq] at hstep
    obtain ⟨-, rfl⟩ := hstep
    exact Function.update_of_ne (Ne.symm hnot) ..
  | getLocked handle m' key' =>
    simp only [Guards.step, Option.ite_none_left_eq_some] at hstep
    obtain ⟨-, hstep⟩ := hstep
    split at hstep <;> cases hstep <;> rfl
  | tryEmplaceLocked handle m' key' value =>
    simp only [Guards.step, Option.ite_none_left_eq_some, Option.some.injEq] at hstep
    obtain ⟨-, rfl⟩ := hstep
    exact Function.update_of_ne (Ne.symm hnot) ..
  | moveConstruct target source | moveAssign target source | destroy handle =>
    rw [Guards.step] at hstep
    split at hstep
    · cases hstep
      rfl
    · cases hstep
  | write handle value =>
    rw [Guards.step] at hstep
    split at hstep
    · cases hstep
    · rename_i v hv
      rw [writesFresh, hv, Option.all_some] at hfresh
      obtain ⟨m', key', rfl⟩ := hheld.acquired hv hfresh
      simp only [LockedValue.acquired] at hstep
      split_ifs at hstep
      cases hstep
      by_cases heq : m' = m
      · subst heq
        -- the mutex has one owner, so the assignment is through it
        cases hheld.unique handle h m' ⟨key', hv⟩ ⟨key, hown⟩
        cases hv.symm.trans hown
        simp [writtenTo, hv, LockedValue.acquired, assignAll]
      · simp [writtenTo, hv, LockedValue.acquired, assignAll, heq,
          Function.update_of_ne (Ne.symm heq)]

/-- The actions that can be taken while the mutex is locked, and what they leave in its map. -/
theorem contents_of_trace (hheld : Held s st) (hcov : Covered s)
    (hkey : ∀ h key', s.handles h = some (.acquired m key') → key' = key)
    {actions : List (GuardAction η μ K V)} {values : List V}
    (hrun : trace (stepWriting m) s actions = some (t, values))
    (hgood : Guarded step (fun s a => s.locked m = true ∧ s.writesFresh a = true) s actions) :
    (∀ a ∈ actions, ¬ CallsOn m a) ∧
    t.contents m = assignAll (s.contents m) (values.map (Prod.mk key)) := by
  induction actions generalizing s st values with
  | nil =>
    rw [trace, Option.some.injEq, Prod.mk.injEq] at hrun
    obtain ⟨rfl, rfl⟩ := hrun
    exact ⟨fun a ha => absurd ha List.not_mem_nil, rfl⟩
  | cons action actions ih =>
    obtain ⟨⟨hlocked, hfresh⟩, hrest⟩ := hgood
    cases hstep : s.step action with
    | none => simp [trace, stepWriting, hstep] at hrun
    | some u =>
      have hwriting : stepWriting m s action = some (u, s.writtenTo m action) := by
        rw [stepWriting, hstep, Option.map_some]
      rw [trace_cons actions hwriting, Option.map_eq_some_iff] at hrun
      obtain ⟨⟨t', later⟩, hlater, heq⟩ := hrun
      cases heq
      obtain ⟨h, key', hown⟩ := hcov.owned m hlocked
      obtain rfl := hkey h key' hown
      have hkeys : ∀ h' key'', u.handles h' = some (.acquired m key'') → key'' = key' := by
        intro h' key'' hown'
        obtain ⟨h'', hbefore⟩ := acquired_of_step hlocked hstep hown'
        exact hkey h'' key'' hbefore
      obtain ⟨hcalls, hcontents⟩ :=
        ih (hheld.step hstep) (hcov.step hheld hstep) hkeys hlater (hrest u hstep)
      constructor
      · intro a ha
        rcases List.mem_cons.mp ha with rfl | ha
        · intro hon
          cases (step_of_locked hlocked hon).symm.trans hstep
        · exact hcalls a ha
      · rw [hcontents, contents_of_step hheld hown hfresh hstep, List.map_append,
          assignAll_append]

/-- From a state that is reached, in which a handle owns the mutex of `m` and points to the value of
`key`, take any actions during which the mutex stays locked and no assignment is made through a
handle that was moved from. None of them is a call on the map, and all that happens to the map is
that the key gets the last value that was assigned to it, if there is one. -/
theorem locked_isolates (contents : μ → Contents K V) (before : List (GuardAction η μ K V))
    (s : Guards η μ K V) (hreach : Library.run step (initial contents) before = some s) (h : η)
    (m : μ) (key : K) (hown : s.handles h = some (.acquired m key))
    (actions : List (GuardAction η μ K V)) (t : Guards η μ K V) (values : List V)
    (hrun : trace (stepWriting m) s actions = some (t, values))
    (hgood : Guarded step (fun s a => s.locked m = true ∧ s.writesFresh a = true) s actions) :
    (∀ a ∈ actions, ¬ CallsOn m a) ∧
    (values = [] → t.contents m = s.contents m) ∧
    ∀ value, values.getLast? = some value → t.contents m = (s.contents m).insert key value := by
  have hheld : Held s (stale before) := (held_initial contents).run hreach
  have hcov : Covered s := (covered_initial contents).run (held_initial contents) hreach
  have hkey : ∀ h' key', s.handles h' = some (.acquired m key') → key' = key := by
    intro h' key' hown'
    cases hheld.unique h' h m ⟨key', hown'⟩ ⟨key, hown⟩
    cases hown.symm.trans hown'
    rfl
  obtain ⟨hcalls, hcontents⟩ := contents_of_trace hheld hcov hkey hrun hgood
  refine ⟨hcalls, ?_, ?_⟩
  · rintro rfl
    exact hcontents
  · intro value hlast
    rw [hcontents, assignAll_key _ key hlast]

/-- The handle assigns, is moved, and the new handle assigns again. -/
theorem locked_isolates_moved : ∃ s t : Guards Bool Unit ℕ ℤ,
    Library.run step (initial fun _ => AList.singleton 0 5) [.getLocked true () 0] = some s ∧
    trace (stepWriting ()) s
      [.write true 6, .moveConstruct false true, .write false 7, .destroy false] =
        some (t, [6, 7]) ∧
    t.contents () = (s.contents ()).insert 0 7 := by
  refine ⟨_, _, rfl, rfl, ?_⟩
  exact (locked_isolates (fun _ => AList.singleton 0 5) [.getLocked true () 0] _ rfl true () 0 rfl
    [.write true 6, .moveConstruct false true, .write false 7, .destroy false] _ [6, 7] rfl
    (by decide)).2.2 7 rfl

end Guards
end ServerSimple.ThreadSafe
