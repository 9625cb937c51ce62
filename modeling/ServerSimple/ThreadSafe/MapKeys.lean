import ServerSimple.Library.Traces
import ServerSimple.ThreadSafe.LockedValue

/-! # The keys of a map

Callers of a map that use different keys do not notice one another: under each key there is a
register of its own, and the map is all of them together. Callers that use the same key to hand
values over find that it holds one at a time.
-/

namespace ServerSimple.ThreadSafe

open Library UnorderedMap

variable {K V : Type*} [DecidableEq K]

namespace MapOp

omit [DecidableEq K] in
/-- The key that a call is about, if it is about one. -/
def about : MapOp K V → Option K
  | .insert key _ | .emplace key _ | .get key | .tryGet key | .erase key | .contains key
  | .extract key | .tryEmplace key _ => some key
  | .size | .empty | .clear | .snapshot | .forEach _ => none

/-- Whether a call can read or change what is under the key, other than with everything else. -/
def touches (key : K) : MapOp K V → Bool
  | .clear | .forEach _ => true
  | op => op.about = some key

/-- What a call leaves under the key where it finds `old`. -/
def leaves (key : K) (old : Option V) : MapOp K V → Option V
  | .insert k v => if k = key then some v else old
  | .emplace k v | .tryEmplace k v => if k = key then some (old.getD v) else old
  | .erase k | .extract k => if k = key then none else old
  | .clear => none
  | .forEach function => old.map (function key)
  | .get _ | .tryGet _ | .contains _ | .size | .empty | .snapshot => old

/-- What a call about the key hands back where it finds `old`. -/
def answers (old : Option V) : MapOp K V → MapResult K V
  | .emplace _ _ | .tryEmplace _ _ => .flag old.isNone
  | .erase _ | .contains _ => .flag old.isSome
  | .tryGet _ => .found old
  | .get _ => old.elim (.thrown keyNotFoundInMap) .value
  | .extract _ => old.elim (.thrown keyNotFound) .value
  | _ => .done

end MapOp

namespace UnorderedMap

variable (m : Contents K V) (key : K)

/-- Each call acts on the keys one by one. -/
theorem lookup_exec (op : MapOp K V) :
    (exec m op).2.lookup key = op.leaves key (m.lookup key) := by
  cases op with
  | insert k v =>
    simp only [exec, MapOp.leaves]
    split_ifs with h
    · rw [h, AList.lookup_insert]
    · rw [AList.lookup_insert_ne (Ne.symm h)]
  | emplace k v => exact lookup_emplace m key k v
  | tryEmplace k v => exact lookup_emplace m key k v
  | erase k =>
    simp only [exec, MapOp.leaves]
    split_ifs with h
    · rw [h, AList.lookup_erase]
    · rw [AList.lookup_erase_ne (Ne.symm h)]
  | extract k =>
    simp only [exec, MapOp.leaves]
    split_ifs with h
    · subst h
      cases hlook : m.lookup k with
      | none => exact hlook
      | some v => exact AList.lookup_erase k m
    · cases m.lookup k with
      | none => rfl
      | some v => exact AList.lookup_erase_ne (Ne.symm h)
  | get k =>
    simp only [exec, MapOp.leaves]
    cases m.lookup k <;> rfl
  | clear => exact AList.lookup_empty key
  | forEach function => exact lookup_mapValues function m key
  | tryGet k | contains k | size | empty | snapshot => rfl

/-- And answers from what is under its key. -/
theorem exec_about {op : MapOp K V} (h : op.about = some key) :
    (exec m op).1 = op.answers (m.lookup key) := by
  cases op with
  | insert k v | emplace k v | tryEmplace k v | erase k | contains k | tryGet k =>
    cases h
    rfl
  | get k | extract k =>
    cases h
    simp only [exec, MapOp.answers]
    cases m.lookup key <;> rfl
  | size | empty | clear | snapshot | forEach function => cases h

/-- A call that is silent for a key leaves it alone, and is not about it. -/
theorem silent_of_touches {op : MapOp K V} (h : op.touches key = false) (old : Option V) :
    op.leaves key old = old ∧ op.about ≠ some key := by
  cases op with
  | clear | forEach function => cases h
  | size | empty | snapshot => exact ⟨rfl, by simp [MapOp.about]⟩
  | get k | tryGet k | contains k => exact ⟨rfl, by simpa [MapOp.touches] using h⟩
  | insert k v | emplace k v | tryEmplace k v | erase k | extract k =>
    have hne : k ≠ key := by simpa [MapOp.touches, MapOp.about] using h
    exact ⟨if_neg hne, by simpa [MapOp.about] using hne⟩

/-- The calls of a map one after the other, with the results of those about the key. -/
def callStep (m : Contents K V) (op : MapOp K V) : Option (Contents K V × List (MapResult K V)) :=
  some ((exec m op).2, if op.about = some key then [(exec m op).1] else [])

/-- The same calls on one register. -/
def registerStep (old : Option V) (op : MapOp K V) : Option (Option V × List (MapResult K V)) :=
  some (op.leaves key old, if op.about = some key then [op.answers old] else [])

/-- In every interleaving of calls: those about a key return what a register under this key alone
would answer, on which the calls about other keys were never made. -/
theorem keys_independent (calls : List (MapOp K V)) : ∃ m' results,
    trace (callStep key) m calls = some (m', results) ∧
    trace (registerStep key) (m.lookup key) (calls.filter (MapOp.touches key)) =
      some (m'.lookup key, results) := by
  induction calls generalizing m with
  | nil => exact ⟨m, [], rfl, rfl⟩
  | cons op calls ih =>
    obtain ⟨m', results, hmap, hregister⟩ := ih (exec m op).2
    rw [lookup_exec] at hregister
    refine ⟨m', (if op.about = some key then [(exec m op).1] else []) ++ results, ?_, ?_⟩
    · rw [trace_cons calls rfl, hmap, Option.map_some]
    · cases htouches : op.touches key with
      | false =>
        obtain ⟨hleaves, habout⟩ := silent_of_touches key htouches (m.lookup key)
        rw [hleaves] at hregister
        rw [List.filter_cons_of_neg (by simp [htouches]), hregister, if_neg habout,
          List.nil_append]
      | true =>
        rw [List.filter_cons_of_pos htouches, trace_cons _ rfl, hregister, Option.map_some]
        split_ifs with habout
        · rw [exec_about m key habout]
        · rfl

end UnorderedMap

/-! ## Handing values over -/

/-- A value comes to be under a key, or is taken from it. -/
inductive Transfer (V : Type*) where
  | put (value : V)
  | taken (value : V)

namespace Transfer

def putValue : Transfer V → Option V
  | .put v => some v
  | .taken _ => none

def takenValue : Transfer V → Option V
  | .put _ => none
  | .taken v => some v

end Transfer

/-- The values that were put under the key, in order. -/
def puts (log : List (Transfer V)) : List V := log.filterMap Transfer.putValue

/-- The values that were taken from under the key, in order. -/
def takens (log : List (Transfer V)) : List V := log.filterMap Transfer.takenValue

namespace MapOp

variable (key : K) (old : Option V)

/-- What a call does to the key, as its result tells: whether `emplace` inserted, what `extract`
returned, whether `erase` found something to destroy. -/
def transfers : MapOp K V → List (Transfer V)
  | .emplace k v | .tryEmplace k v => if k = key ∧ old = none then [.put v] else []
  | .erase k | .extract k => if k = key then (old.map Transfer.taken).toList else []
  | _ => []

/-- The calls that assign to what is there, or destroy it without a word. -/
def overwrites : MapOp K V → Bool
  | .insert k _ => k = key
  | .clear | .forEach _ => true
  | _ => false

variable {op : MapOp K V}

/-- What was there and what is put come out again, or are there afterwards. -/
theorem transfers_balance (h : op.overwrites key = false) :
    old.toList ++ puts (op.transfers key old) =
      takens (op.transfers key old) ++ (op.leaves key old).toList := by
  cases op with
  | insert k v =>
    have hleaves : (MapOp.insert k v).leaves key old = old := if_neg (of_decide_eq_false h)
    rw [hleaves]
    exact List.append_nil _
  | clear | forEach function => cases h
  | emplace k v | tryEmplace k v =>
    simp only [transfers, leaves]
    by_cases hk : k = key
    · cases old <;> simp [hk, puts, takens, Transfer.putValue, Transfer.takenValue]
    · simp [hk, puts, takens]
  | erase k | extract k =>
    simp only [transfers, leaves]
    by_cases hk : k = key
    · cases old <;> simp [hk, puts, takens, Transfer.putValue, Transfer.takenValue]
    · simp [hk, puts, takens]
  | get k | tryGet k | contains k | size | empty | snapshot => exact List.append_nil _

end MapOp

namespace Guards

variable {η μ : Type*} [DecidableEq η] [DecidableEq μ] (m : μ) (key : K)

/-- What an action hands over under a key of a map. -/
def transfers (s : Guards η μ K V) : GuardAction η μ K V → List (Transfer V)
  | .call m' op => if m' = m then op.transfers key ((s.contents m).lookup key) else []
  | .tryEmplaceLocked _ m' k v =>
    if m' = m then (MapOp.tryEmplace k v).transfers key ((s.contents m).lookup key) else []
  | _ => []

/-- The actions that change what is under the key, and hand nothing over. -/
def overwrites (s : Guards η μ K V) : GuardAction η μ K V → Bool
  | .call m' op => m' = m && op.overwrites key
  | .write h _ => (s.handles h).any fun v => v.value = some (m, key)
  | _ => false

variable {m key} {s t : Guards η μ K V}

omit [DecidableEq η] in
theorem contents_of_call {m' : μ} (op : MapOp K V) :
    Function.update s.contents m' (exec (s.contents m') op).2 m =
      if m' = m then (exec (s.contents m) op).2 else s.contents m := by
  by_cases hm : m' = m
  · rw [if_pos hm, hm, Function.update_self]
  · rw [if_neg hm, Function.update_of_ne (Ne.symm hm)]

omit [DecidableEq η] in
theorem call_balance {m' : μ} {op : MapOp K V} (h : (m' = m && op.overwrites key) = false) :
    ((s.contents m).lookup key).toList ++
        puts (if m' = m then op.transfers key ((s.contents m).lookup key) else []) =
      takens (if m' = m then op.transfers key ((s.contents m).lookup key) else []) ++
        ((Function.update s.contents m' (exec (s.contents m') op).2 m).lookup key).toList := by
  rw [contents_of_call]
  split_ifs with hm
  · rw [lookup_exec]
    apply MapOp.transfers_balance
    simpa [hm] using h
  · exact List.append_nil _

/-- One action keeps the balance of the key. -/
theorem step_balance {action : GuardAction η μ K V} (h : s.overwrites m key action = false)
    (hstep : s.step action = some t) :
    ((s.contents m).lookup key).toList ++ puts (s.transfers m key action) =
      takens (s.transfers m key action) ++ ((t.contents m).lookup key).toList := by
  cases action with
  | call m' op =>
    simp only [Guards.step, Option.ite_none_left_eq_some, Option.some.injEq] at hstep
    obtain ⟨-, rfl⟩ := hstep
    exact call_balance h
  | tryEmplaceLocked handle m' k v =>
    simp only [Guards.step, Option.ite_none_left_eq_some, Option.some.injEq] at hstep
    obtain ⟨-, rfl⟩ := hstep
    have hnever : (m' = m && (MapOp.tryEmplace k v).overwrites key) = false := Bool.and_false _
    exact call_balance hnever
  | getLocked handle m' k =>
    simp only [Guards.step, Option.ite_none_left_eq_some] at hstep
    obtain ⟨-, hstep⟩ := hstep
    split at hstep <;> cases hstep <;> exact List.append_nil _
  | moveConstruct target source | moveAssign target source | destroy handle =>
    rw [Guards.step] at hstep
    split at hstep
    · cases hstep
      exact List.append_nil _
    · cases hstep
  | write handle value =>
    rw [Guards.step] at hstep
    split at hstep
    · cases hstep
    · rename_i v hv
      split at hstep
      · cases hstep
      · rename_i m' k hvalue
        split_ifs at hstep
        cases hstep
        refine (List.append_nil _).trans (congrArg Option.toList ?_)
        dsimp only
        -- the assignment is to another key, or in another map
        by_cases hm : m' = m
        · subst hm
          have hk : key ≠ k := by
            rintro rfl
            simp [overwrites, hv, hvalue] at h
          rw [Function.update_self, AList.lookup_insert_ne hk]
        · rw [Function.update_of_ne (Ne.symm hm)]

/-- Over every run of actions on any number of maps and handles, as long as a key of a map is not
overwritten: what was under it and what was put there is what was taken from it, in the same order,
and what is there now. So no value is lost or handed over twice, and each is taken before the next
one is put. -/
theorem handed_over (contents : μ → Contents K V) (actions : List (GuardAction η μ K V))
    (log : List (Transfer V))
    (hkeeps : Guarded step (fun s action => overwrites m key s action = false) (initial contents) actions)
    (hrun : trace (observing step (transfers m key)) (initial contents) actions = some (s, log)) :
    ((contents m).lookup key).toList ++ puts log =
      takens log ++ ((s.contents m).lookup key).toList := by
  let inv (log : List (Transfer V)) (s : Guards η μ K V) : Prop :=
    ((contents m).lookup key).toList ++ puts log =
      takens log ++ ((s.contents m).lookup key).toList
  have hstep : ∀ log (s : Guards η μ K V) action t, inv log s → overwrites m key s action = false →
      s.step action = some t → inv (log ++ s.transfers m key action) t := by
    intro log s action t hinv hkeeps hstep
    have hbalance := step_balance hkeeps hstep
    simp only [inv, puts, takens, List.filterMap_append] at hinv hbalance ⊢
    rw [← List.append_assoc, hinv, List.append_assoc, hbalance, List.append_assoc]
  have hstart : inv [] (initial contents) := List.append_nil _
  exact observing_invariant hstep hstart hkeeps hrun

/-- A value is put under a key, another key is assigned to through a handle, and the value is taken. -/
def exchange : List (GuardAction Bool Unit ℕ ℤ) :=
  [.call () (.emplace 1 5), .call () (.emplace 1 6), .tryEmplaceLocked true () 2 9, .write true 3,
    .destroy true, .call () (.extract 1), .call () (.tryEmplace 1 7)]

theorem handed_over_exchange : ∃ (s : Guards Bool Unit ℕ ℤ) (log : List (Transfer ℤ)),
    trace (observing step (transfers () 1)) (initial fun _ => ∅) exchange = some (s, log) ∧
    puts log = [5, 7] ∧ puts log = takens log ++ ((s.contents ()).lookup 1).toList := by
  obtain ⟨s, log, hrun, hputs⟩ : ∃ (s : Guards Bool Unit ℕ ℤ) (log : List (Transfer ℤ)),
      trace (observing step (transfers () 1)) (initial fun _ => ∅) exchange = some (s, log) ∧
      puts log = [5, 7] := ⟨_, _, rfl, rfl⟩
  have hkeeps : Guarded step (fun s action => overwrites () 1 s action = false)
      (initial fun _ => ∅ : Guards Bool Unit ℕ ℤ) exchange := by decide
  exact ⟨s, log, hrun, hputs, handed_over (fun _ => ∅) exchange log hkeeps hrun⟩

end Guards

end ServerSimple.ThreadSafe
