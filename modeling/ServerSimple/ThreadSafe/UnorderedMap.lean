import ServerSimple.Library.Maps

/-! # The thread-safe map

The critical sections of `thread_safe_unordered_map`, as functions of the contents. The two functions
that hand out the lock together with a pointer to a value are modelled with the handles.
-/

namespace ServerSimple.ThreadSafe

open Library

/-- The contents of a map. -/
abbrev Contents (K V : Type*) := AList fun _ : K => V

/-- The member functions that hold `mutex_map` for the length of the call. -/
inductive MapOp (K V : Type*) where
  | insert (key : K) (value : V)
  | emplace (key : K) (value : V)
  | get (key : K)
  | tryGet (key : K)
  | erase (key : K)
  | contains (key : K)
  | size
  | empty
  | clear
  | snapshot
  | extract (key : K)
  | forEach (function : K → V → V)
  | tryEmplace (key : K) (value : V)

/-- What a call hands back. `found` is the flag of `try_get` with the value that it writes. -/
inductive MapResult (K V : Type*) where
  | done
  | flag (b : Bool)
  | value (v : V)
  | found (v : Option V)
  | count (n : ℕ)
  | contents (m : Contents K V)
  | thrown (what : String)

namespace UnorderedMap

variable {K V : Type*} [DecidableEq K]

def keyNotFoundInMap : String := "Key not found - thread_safe_map"
def keyNotFound : String := "Key not found"

/-- `emplace` and `try_emplace`: whether the key was new, and the contents. -/
def emplaceNew (m : Contents K V) (key : K) (value : V) : Bool × Contents K V :=
  ((m.lookup key).isNone, emplace m key value)

/-- The critical section of each member function. -/
def exec (m : Contents K V) : MapOp K V → MapResult K V × Contents K V
  | .insert key value => (.done, m.insert key value)
  | .emplace key value => (.flag (emplaceNew m key value).1, (emplaceNew m key value).2)
  | .get key =>
    match m.lookup key with
    | none => (.thrown keyNotFoundInMap, m)
    | some value => (.value value, m)
  | .tryGet key => (.found (m.lookup key), m)
  | .erase key => (.flag (m.lookup key).isSome, m.erase key)
  | .contains key => (.flag (m.lookup key).isSome, m)
  | .size => (.count m.entries.length, m)
  | .empty => (.flag m.entries.isEmpty, m)
  | .clear => (.done, ∅)
  | .snapshot => (.contents m, m)
  | .extract key =>
    match m.lookup key with
    | none => (.thrown keyNotFound, m)
    | some value => (.value value, m.erase key)
  | .forEach function => (.done, mapValues function m)
  | .tryEmplace key value => (.flag (emplaceNew m key value).1, (emplaceNew m key value).2)

end UnorderedMap
end ServerSimple.ThreadSafe
