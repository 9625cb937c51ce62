import ServerSimple.GlobalBoards.LeaderboardQueries
import ServerSimple.GlobalBoards.NameboardQueue
import ServerSimple.GlobalBoards.NameboardRank

/-! # What a nameboard does to its rows

The ids decide between equal timestamps. A new entry has the largest id, so it goes behind every entry
that is not younger, and neither its place nor the answers of the queries depend on the ids.
-/

namespace ServerSimple.GlobalBoards

open Library

namespace Nameboard

/-- The rows after a call, and what the call returns: a new row goes before the first younger one,
and a full board then loses its first row. -/
def addedRow (maxSize : ℕ) (rows : List (String × ℤ)) (call : NameCall) :
    List (String × ℤ) × Option ℕ :=
  if call.name ∈ rows.map Prod.fst then (rows, none)
  else
    let inserted := rows.orderedInsert (fun row row' => row.2 < row'.2) call.row
    if maxSize < rows.length + 1 then
      (inserted.tail, if ∀ row ∈ rows, call.now < row.2 then none
        else some (rows.findIdx fun row => call.now < row.2))
    else (inserted, some (rows.findIdx fun row => call.now < row.2))

variable {b : Nameboard} {maxSize : ℕ} {es : List Entry}

theorem Shows.map_row_orderedInsert (h : b.Shows maxSize es) (call : NameCall) :
    (es.orderedInsert Entry.Before (b.newEntry call)).map Entry.row =
      (es.map Entry.row).orderedInsert (fun row row' => row.2 < row'.2) call.row :=
  map_orderedInsert_right Entry.row fun _ he => h.newEntry_before_iff call he

theorem Shows.findIdx_row (h : b.Shows maxSize es) (call : NameCall) :
    (es.findIdx fun e => (b.newEntry call).Before e) =
      (es.map Entry.row).findIdx fun row => call.now < row.2 := by
  rw [List.findIdx_map]
  apply findIdx_congr
  intro e he
  exact decide_eq_decide.mpr (h.newEntry_before_iff call he)

/-- A call does to the rows what it does to the entries. -/
theorem Shows.added_eq (h : b.Shows maxSize es) (call : NameCall) :
    ((b.added maxSize es call).1.map Entry.row, (b.added maxSize es call).2) =
      addedRow maxSize (es.map Entry.row) call := by
  have hnames : (es.map Entry.row).map Prod.fst = es.map Entry.name := by
    rw [List.map_map]
    rfl
  have holdest : (∀ row ∈ es.map Entry.row, call.now < row.2) ↔ ∀ e ∈ es, call.now < e.timestamp := by
    rw [List.forall_mem_map]
    rfl
  unfold added addedRow Entry.insertBounded
  simp only [hnames, List.length_map, h.head?_orderedInsert_iff, holdest, ← h.findIdx_row,
    ← h.map_row_orderedInsert]
  by_cases hname : call.name ∈ es.map Entry.name
  · rw [if_pos hname, if_pos hname]
  · rw [if_neg hname, if_neg hname]
    by_cases hfull : maxSize < es.length + 1
    · simp only [hfull, if_true, true_and, List.map_tail]
    · simp only [hfull, if_false, false_and]

/-! ## Queries -/

/-- The queries of a board. -/
inductive Query where
  | all
  | fromFirst (amount : ℕ)
  | fromLast (amount : ℕ)
  | rangeFromTop (start stop : ℕ)
  | rangeFromBottom (start stop : ℕ)

def answer (b : Nameboard) : Query → Option (List Entry)
  | .all => b.getAll
  | .fromFirst amount => b.getFromFirst amount
  | .fromLast amount => b.getFromLast amount
  | .rangeFromTop start stop => b.getInRangeFromTop start stop
  | .rangeFromBottom start stop => b.getInRangeFromBottom start stop

/-- The part of a ranking that a query asks for. -/
def Query.select {α : Type*} (l : List α) : Query → List α
  | .all => l
  | .fromFirst amount => l.take amount
  | .fromLast amount => l.reverse.take amount
  | .rangeFromTop start stop => Leaderboard.rangeOf start stop l
  | .rangeFromBottom start stop => Leaderboard.rangeOf start stop l.reverse

theorem Query.map_select {α β : Type*} (f : α → β) (query : Query) (l : List α) :
    (query.select l).map f = query.select (l.map f) := by
  cases query with
  | all => rfl
  | fromFirst amount => exact List.map_take
  | fromLast amount => simp only [select, List.map_take, List.map_reverse]
  | rangeFromTop start stop => exact Leaderboard.map_rangeOf f start stop l
  | rangeFromBottom start stop => simp only [select, Leaderboard.map_rangeOf, List.map_reverse]

/-- Reading nodes of the ranking in any order and selection. -/
theorem Represents.readNodes {cells selected : List (Node × Entry)} (h : b.Represents cells)
    (hselected : ∀ c ∈ selected, c ∈ cells) :
    Library.readNodes b.heap (selected.map Prod.fst) = some (selected.map Prod.snd) :=
  readNodes_eq fun c hc => h.backed c (hselected c hc)

theorem Represents.getInRange {cells selected : List (Node × Entry)} (h : b.Represents cells)
    (hselected : ∀ c ∈ selected, c ∈ cells) (start stop : ℕ) :
    b.getInRange (selected.map Prod.fst) start stop =
      some (Leaderboard.rangeOf start stop (selected.map Prod.snd)) :=
  Leaderboard.readNodes_rangeOf (h.readNodes hselected) start stop

/-- A query selects from the entries that are shown. -/
theorem Shows.answer (h : b.Shows maxSize es) (query : Query) :
    b.answer query = some (query.select es) := by
  have hall := h.getAll
  obtain ⟨cells, hrep, -, -, rfl⟩ := h
  cases query with
  | all => exact hall
  | fromFirst amount =>
    rw [Nameboard.answer, getFromFirst, ← List.take_eq_take_min, hrep.ranking, ← List.map_take,
      hrep.readNodes fun c hc => List.mem_of_mem_take hc, List.map_take]
    rfl
  | fromLast amount =>
    rw [Nameboard.answer, getFromLast, ← List.length_reverse, ← List.take_eq_take_min, hrep.ranking,
      ← List.map_reverse, ← List.map_take,
      hrep.readNodes fun c hc => List.mem_reverse.mp (List.mem_of_mem_take hc), List.map_take,
      List.map_reverse]
    rfl
  | rangeFromTop start stop =>
    rw [Nameboard.answer, getInRangeFromTop, hrep.ranking]
    exact hrep.getInRange (fun _ hc => hc) start stop
  | rangeFromBottom start stop =>
    rw [Nameboard.answer, getInRangeFromBottom, hrep.ranking, ← List.map_reverse,
      hrep.getInRange (fun _ hc => List.mem_reverse.mp hc), List.map_reverse]
    rfl

end Nameboard
end ServerSimple.GlobalBoards
