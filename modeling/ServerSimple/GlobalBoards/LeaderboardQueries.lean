import ServerSimple.GlobalBoards.LeaderboardInvariant

/-! # What a leaderboard shows can be read

The stored score of a player and the queries, in terms of the standings that the board shows.
-/

namespace ServerSimple.GlobalBoards

open Library Cell

namespace Standing

variable {T : Type} [LinearOrder T] {highestFirst : Bool} {rows : List (Standing T)}
  {row row' : Standing T}

/-- Nobody is ahead of someone who comes earlier, and nobody occurs twice. -/
structure Ranked (highestFirst : Bool) (rows : List (Standing T)) : Prop where
  sorted : rows.Pairwise fun a b => ¬ b.Ahead highestFirst a
  names : (rows.map Standing.name).Nodup

theorem Ranked.eq_of_name (h : Ranked highestFirst rows) (hrow : row ∈ rows) (hrow' : row' ∈ rows)
    (hname : row.name = row'.name) : row = row' :=
  List.inj_on_of_nodup_map h.names hrow hrow' hname

end Standing

namespace Leaderboard

variable {T : Type} [LinearOrder T] {b : Leaderboard T} {highestFirst : Bool} {maxSize : ℕ}
  {rows : List (Standing T)}

theorem Shows.ranked (h : b.Shows highestFirst maxSize rows) : Standing.Ranked highestFirst rows := by
  obtain ⟨cells, hrep, rfl, -, -, rfl⟩ := h
  refine ⟨?_, map_name_nodup hrep.linked⟩
  rw [List.pairwise_map]
  exact hrep.linked.sorted.imp fun hbefore => not_ahead_of_leaderboardEntryComparator hbefore

/-- The score under which a player is stored. -/
def scoreOf (b : Leaderboard T) (player : String) : Option T :=
  (b.entries.lookup player).bind fun p => (b.heap p).map fun e => e.score

/-- The stored scores are those of the rows. -/
theorem Shows.scoreOf_eq_some (h : b.Shows highestFirst maxSize rows) {player : String} {x : T} :
    b.scoreOf player = some x ↔ ∃ row ∈ rows, row.name = player ∧ row.score = x := by
  obtain ⟨cells, hrep, -, -, -, rfl⟩ := h
  simp only [scoreOf, Option.bind_eq_some_iff, Option.map_eq_some_iff, List.mem_map]
  constructor
  · rintro ⟨p, hp, e, he, rfl⟩
    obtain ⟨c, hc, hname, rfl⟩ := (hrep.owned _ _).mp hp
    rw [hrep.linked.backed c hc, Option.some.injEq] at he
    exact ⟨c.standing, ⟨c, hc, rfl⟩, hname, he ▸ rfl⟩
  · rintro ⟨_, ⟨c, hc, rfl⟩, hname, rfl⟩
    exact ⟨c.1.pointer, (hrep.owned _ _).mpr ⟨c, hc, hname, rfl⟩, c.2, hrep.linked.backed c hc, rfl⟩

theorem Shows.scoreOf_eq_none (h : b.Shows highestFirst maxSize rows) {player : String} :
    b.scoreOf player = none ↔ ∀ row ∈ rows, row.name ≠ player := by
  rw [Option.eq_none_iff_forall_ne_some]
  constructor
  · intro hnone row hrow hname
    exact hnone row.score (h.scoreOf_eq_some.mpr ⟨row, hrow, hname, rfl⟩)
  · intro hall x hx
    obtain ⟨row, hrow, hname, _⟩ := h.scoreOf_eq_some.mp hx
    exact hall row hrow hname

/-- The call does not repeat the score that is stored for its player. -/
def NoRepeat (b : Leaderboard T) (call : Submission T) : Prop :=
  b.scoreOf call.player ≠ some call.score

instance {call : Submission T} : Decidable (b.NoRepeat call) := inferInstanceAs (Decidable (_ ≠ _))

theorem Shows.noRepeat_iff (h : b.Shows highestFirst maxSize rows) {call : Submission T} :
    b.NoRepeat call ↔ ∀ row ∈ rows, row.name = call.player → row.score ≠ call.score := by
  rw [NoRepeat, Ne, h.scoreOf_eq_some]
  push Not
  rfl

/-! ## Queries -/

/-- Reading nodes of the ranking in any order and selection. -/
theorem Represents.readNodes {cells selected : List (Cell T)} (h : b.Represents cells)
    (hselected : ∀ c ∈ selected, c ∈ cells) :
    Library.readNodes b.heap (selected.map Prod.fst) = some (selected.map Prod.snd) :=
  readNodes_eq fun c hc => h.linked.backed c (hselected c hc)

/-- A query returns entries that read as these rows. -/
def Returns (result : Option (List (LeaderboardEntry T))) (rows : List (Standing T)) : Prop :=
  ∃ es, result = some es ∧ es.map LeaderboardEntry.standing = rows

theorem Represents.returns {cells selected : List (Cell T)} (h : b.Represents cells)
    (hselected : ∀ c ∈ selected, c ∈ cells) :
    Returns (Library.readNodes b.heap (selected.map Prod.fst)) (selected.map standing) :=
  ⟨_, h.readNodes hselected, by rw [List.map_map]; rfl⟩

theorem Shows.ranked_returns (h : b.Shows highestFirst maxSize rows) : Returns b.ranked rows := by
  obtain ⟨cells, hrep, -, -, -, rfl⟩ := h
  rw [Leaderboard.ranked, hrep.ranking]
  exact hrep.returns fun _ hc => hc

theorem Shows.getTopScores (h : b.Shows highestFirst maxSize rows) (count : ℕ) :
    Returns (b.getTopScores count) (rows.take count) := by
  obtain ⟨cells, hrep, -, -, -, rfl⟩ := h
  rw [Leaderboard.getTopScores, List.take_eq_take_min.symm, hrep.ranking, ← List.map_take,
    ← List.map_take]
  exact hrep.returns fun c hc => List.mem_of_mem_take hc

theorem Shows.getBottomScores (h : b.Shows highestFirst maxSize rows) (count : ℕ) :
    Returns (b.getBottomScores count) (rows.reverse.take count) := by
  obtain ⟨cells, hrep, -, -, -, rfl⟩ := h
  rw [Leaderboard.getBottomScores, ← List.length_reverse, ← List.take_eq_take_min, hrep.ranking,
    ← List.map_reverse, ← List.map_reverse, ← List.map_take, ← List.map_take]
  exact hrep.returns fun c hc => List.mem_reverse.mp (List.mem_of_mem_take hc)

/-- The part of a list that a range query selects. -/
def rangeOf {α : Type*} (start stop : ℕ) (l : List α) : List α :=
  if l.length ≤ start ∨ stop < start then [] else (l.drop start).take (min stop l.length - start)

theorem map_rangeOf {α β : Type*} (f : α → β) (start stop : ℕ) (l : List α) :
    (rangeOf start stop l).map f = rangeOf start stop (l.map f) := by
  unfold rangeOf
  rw [List.length_map]
  split_ifs
  · rfl
  · rw [List.map_take, List.map_drop]

/-- A guarded slice of nodes reads as the range of what the nodes read as. -/
theorem readNodes_rangeOf {E : Type} {heap : ℕ → Option E} {nodes : List Node} {es : List E}
    (h : Library.readNodes heap nodes = some es) (start stop : ℕ) :
    (if nodes.length ≤ start ∨ stop < start then some []
      else Library.readNodes heap ((nodes.drop start).take (min stop nodes.length - start))) =
      some (rangeOf start stop es) := by
  rw [rangeOf, length_of_mapM_eq_some h]
  split_ifs
  · rfl
  · rw [Library.readNodes, mapM_eq_some_iff] at h ⊢
    rw [List.map_take, List.map_drop, h, List.map_take, List.map_drop]

theorem getRange_returns {cells selected : List (Cell T)} (h : b.Represents cells)
    (hselected : ∀ c ∈ selected, c ∈ cells) (start stop : ℕ) :
    Returns (getRange b.heap (selected.map Prod.fst) start stop)
      (rangeOf start stop (selected.map standing)) := by
  refine ⟨_, readNodes_rangeOf (h.readNodes hselected) start stop, ?_⟩
  rw [map_rangeOf, List.map_map]
  rfl

theorem Shows.getRangeFromTop (h : b.Shows highestFirst maxSize rows) (start stop : ℕ) :
    Returns (b.getRangeFromTop start stop) (rangeOf start stop rows) := by
  obtain ⟨cells, hrep, -, -, -, rfl⟩ := h
  rw [Leaderboard.getRangeFromTop, hrep.ranking]
  exact getRange_returns hrep (fun _ hc => hc) start stop

theorem Shows.getRangeFromBottom (h : b.Shows highestFirst maxSize rows) (start stop : ℕ) :
    Returns (b.getRangeFromBottom start stop) (rangeOf start stop rows.reverse) := by
  obtain ⟨cells, hrep, -, -, -, rfl⟩ := h
  rw [Leaderboard.getRangeFromBottom, hrep.ranking, ← List.map_reverse, ← List.map_reverse]
  exact getRange_returns hrep (fun _ hc => List.mem_reverse.mp hc) start stop

/-- The queries of a board. -/
inductive Query where
  | topScores (count : ℕ)
  | bottomScores (count : ℕ)
  | rangeFromTop (start stop : ℕ)
  | rangeFromBottom (start stop : ℕ)

def answer (b : Leaderboard T) : Query → Option (List (LeaderboardEntry T))
  | .topScores count => b.getTopScores count
  | .bottomScores count => b.getBottomScores count
  | .rangeFromTop start stop => b.getRangeFromTop start stop
  | .rangeFromBottom start stop => b.getRangeFromBottom start stop

/-- The part of a ranking that a query asks for. -/
def Query.select {α : Type*} (l : List α) : Query → List α
  | .topScores count => l.take count
  | .bottomScores count => l.reverse.take count
  | .rangeFromTop start stop => rangeOf start stop l
  | .rangeFromBottom start stop => rangeOf start stop l.reverse

theorem Shows.answer (h : b.Shows highestFirst maxSize rows) (query : Query) :
    Returns (b.answer query) (query.select rows) := by
  cases query with
  | topScores count => exact h.getTopScores count
  | bottomScores count => exact h.getBottomScores count
  | rangeFromTop start stop => exact h.getRangeFromTop start stop
  | rangeFromBottom start stop => exact h.getRangeFromBottom start stop

end Leaderboard
end ServerSimple.GlobalBoards
