import ServerSimple.Library.Lists

/-! # Iterators over a sequence

An iterator is the position of an element, or the position behind the last one. What leaves the
sequence is undefined and gives nothing: a step from the end, a read at the end, a range whose ends
are the wrong way round, a difference below zero. A reverse iterator is one over the reversed
sequence.
-/

namespace ServerSimple.Library

namespace Iterator

variable {α β : Type} (xs : List α)

/-- `++it`. -/
def step (it : ℕ) : Option ℕ := if it < xs.length then some (it + 1) else none

/-- `std::advance` and `std::next`, which take one step at a time. -/
def advance (it : ℕ) : ℕ → Option ℕ
  | 0 => some it
  | n + 1 => do
    let it ← step xs it
    advance it n

/-- `std::distance`: the number of steps after which the first iterator equals the last. -/
def distance (first last : ℕ) : Option ℕ :=
  if first = last then some 0
  else if first < xs.length then (distance (first + 1) last).map (· + 1)
  else none
termination_by xs.length - first

/-- `it + n`, in one go. -/
def plus (it n : ℕ) : Option ℕ := if it + n ≤ xs.length then some (it + n) else none

/-- `for (i = start; i < stop; ++i, ++it)`, with a read that may fail. -/
def countingLoop (read : α → Option β) (stop i it : ℕ) (result : List β) : Option (List β) :=
  if i < stop then do
    let x ← xs[it]?
    let y ← read x
    let it ← step xs it
    countingLoop read stop (i + 1) it (result ++ [y])
  else some result
termination_by stop - i

/-- `for (it = first; it != last; ++it)`. -/
def inequalityLoop (read : α → Option β) (last it : ℕ) (result : List β) : Option (List β) :=
  if it = last then some result
  else if h : it < xs.length then do
    let y ← read xs[it]
    inequalityLoop read last (it + 1) (result ++ [y])
  else none
termination_by xs.length - it

/-- The elements between two iterators. -/
def copyRange (first last : ℕ) : Option (List α) :=
  if first ≤ last ∧ last ≤ xs.length then some (xs.extract first last) else none

/-- A difference of unsigned numbers that does not wrap. -/
def minus (m n : ℕ) : Option ℕ := if n ≤ m then some (m - n) else none

variable {xs} {read : α → Option β}

theorem advance_eq {it n : ℕ} (h : it + n ≤ xs.length) : advance xs it n = some (it + n) := by
  induction n generalizing it with
  | zero => rfl
  | succ n ih =>
    have hstep : step xs it = some (it + 1) := if_pos (by omega)
    rw [advance, hstep, Option.bind_eq_bind, Option.bind_some, ih (by omega)]
    congr 1
    omega

theorem distance_eq {first last : ℕ} (h : first ≤ last) (hlast : last ≤ xs.length) :
    distance xs first last = some (last - first) := by
  induction hn : last - first generalizing first with
  | zero => rw [distance, if_pos (by omega)]
  | succ n ih =>
    rw [distance, if_neg (by omega), if_pos (by omega), ih (by omega) (by omega), Option.map_some]

theorem plus_eq {it n : ℕ} (h : it + n ≤ xs.length) : plus xs it n = some (it + n) := if_pos h

theorem minus_eq {m n : ℕ} (h : n ≤ m) : minus m n = some (m - n) := if_pos h

/-- One element more on the result, one less to read. -/
theorem map_append_mapM_cons {x : α} {y : β} (h : read x = some y) (l : List α) (result : List β) :
    ((x :: l).mapM read).map (result ++ ·) = (l.mapM read).map (result ++ [y] ++ ·) := by
  rw [List.mapM_cons, h]
  cases l.mapM read with
  | none => rfl
  | some ys => simp

theorem mapM_cons_none {x : α} (h : read x = none) (l : List α) :
    (x :: l).mapM read = none := by
  rw [List.mapM_cons, h]
  rfl

/-- As long as the steps stay inside, the loop reads that many elements. -/
theorem countingLoop_eq {stop i it : ℕ} (result : List β) (h : it + (stop - i) ≤ xs.length) :
    countingLoop xs read stop i it result =
      (((xs.drop it).take (stop - i)).mapM read).map (result ++ ·) := by
  induction hn : stop - i generalizing i it result with
  | zero =>
    rw [countingLoop, if_neg (by omega), List.take_zero, List.mapM_nil]
    simp
  | succ n ih =>
    have hit : it < xs.length := by omega
    have hstep : step xs it = some (it + 1) := if_pos hit
    rw [countingLoop, if_pos (by omega), List.getElem?_eq_getElem hit, hstep,
      List.drop_eq_getElem_cons hit, List.take_succ_cons]
    simp only [Option.bind_eq_bind, Option.bind_some]
    cases hread : read xs[it] with
    | none =>
      rw [mapM_cons_none hread]
      rfl
    | some y =>
      rw [Option.bind_some, ih _ (by omega) (by omega), map_append_mapM_cons hread]

/-- The loop reads what is between the iterators if the first is not behind the last. -/
theorem inequalityLoop_eq {last it : ℕ} (result : List β) (h : it ≤ last)
    (hlast : last ≤ xs.length) :
    inequalityLoop xs read last it result =
      (((xs.drop it).take (last - it)).mapM read).map (result ++ ·) := by
  induction hn : last - it generalizing it result with
  | zero =>
    rw [inequalityLoop, if_pos (by omega), List.take_zero, List.mapM_nil]
    simp
  | succ n ih =>
    have hit : it < xs.length := by omega
    rw [inequalityLoop, if_neg (by omega), dif_pos hit, List.drop_eq_getElem_cons hit,
      List.take_succ_cons]
    cases hread : read xs[it] with
    | none =>
      rw [mapM_cons_none hread]
      rfl
    | some y =>
      rw [map_append_mapM_cons hread, ← ih _ (by omega) (by omega)]
      rfl

theorem copyRange_eq {first last : ℕ} (h : first ≤ last) (hlast : last ≤ xs.length) :
    copyRange xs first last = some (xs.extract first last) :=
  if_pos ⟨h, hlast⟩

end Iterator

/-! ## Slices -/

variable {α : Type*}

theorem extract_min_length (l : List α) (i j : ℕ) : l.extract i (min j l.length) = l.extract i j := by
  rw [List.extract_eq_take_drop, List.extract_eq_take_drop, List.take_eq_take_iff, List.length_drop]
  omega

/-- A slice of the reversed list is the reversed slice from the other end. -/
theorem reverse_extract (l : List α) (i j : ℕ) :
    l.reverse.extract i j = (l.extract (l.length - min j l.length) (l.length - i)).reverse := by
  rw [← extract_min_length, List.length_reverse]
  generalize hm : min j l.length = m
  have hlength : (l.take (l.length - i)).length - (m - i) = min (l.length - m) (l.length - i) := by
    rw [List.length_take]
    omega
  rw [List.extract_eq_take_drop, List.extract_eq_take_drop, List.drop_reverse, List.take_reverse,
    hlength, List.drop_take]
  rcases Nat.le_total (l.length - m) (l.length - i) with hle | hle
  · rw [Nat.min_eq_left hle]
  · rw [Nat.min_eq_right hle, Nat.sub_self, Nat.sub_eq_zero_of_le hle, List.take_zero,
      List.take_zero]

/-- The first `K` pages are the first `K * p` elements. -/
theorem flatten_pages (l : List α) (p K : ℕ) :
    ((List.range K).map fun k => l.extract (k * p) ((k + 1) * p)).flatten = l.take (K * p) := by
  induction K with
  | zero => simp
  | succ K ih =>
    have hpage : (K + 1) * p - K * p = p := by
      rw [Nat.succ_mul, Nat.add_sub_cancel_left]
    rw [List.range_succ, List.map_append, List.flatten_append, ih, List.map_singleton,
      List.flatten_singleton, List.extract_eq_take_drop, hpage, Nat.succ_mul, List.take_add]

end ServerSimple.Library
