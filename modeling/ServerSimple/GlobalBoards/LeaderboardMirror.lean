import Mathlib.Data.List.InsertIdx
import ServerSimple.GlobalBoards.LeaderboardCapacity
import ServerSimple.GlobalBoards.LeaderboardQueries

/-! # A mirror of the leaderboard

`submit_score` returns a position, counted after the insertion and before an eviction, and the past
index, counted before the removal. A client that applies them in this order to a list of names has
the names of the ranking after every call.
-/

namespace ServerSimple.GlobalBoards

open Library Cell

/-- What a client does to its list for a returned tuple: nothing without a position; otherwise erase
at the past index, if there is one, insert the player at the position, and truncate. -/
def mirror (maxSize : ℕ) (client : List String) (player : String) : Placement → List String
  | (none, _) => client
  | (some position, none) => (client.insertIdx position player).take maxSize
  | (some position, some past) => ((client.eraseIdx past).insertIdx position player).take maxSize

namespace Standing

variable {T : Type} [LinearOrder T] {highestFirst : Bool} {maxSize : ℕ} {rows : List (Standing T)}

/-- Leaving out a player who is present is erasing at the past index. -/
theorem Ranked.filter_eq_eraseIdx (h : Ranked highestFirst rows) {player : String} {old : Standing T}
    (hmem : old ∈ rows) (hname : old.name = player) :
    ∃ i, (rows.findIdx? fun row => row.name = player) = some i ∧ i < rows.length ∧
      (rows.filter fun row => row.name ≠ player) = rows.eraseIdx i := by
  obtain ⟨i, hi⟩ : ∃ i, (rows.findIdx? fun row => row.name = player) = some i := by
    rw [← Option.isSome_iff_exists, List.findIdx?_isSome, List.any_eq_true]
    exact ⟨old, hmem, by simpa using hname⟩
  have hlt := (List.findIdx?_eq_some_iff_findIdx_eq.mp hi).1
  exact ⟨i, hi, hlt, filter_ne_eq_eraseIdx h.names hi⟩

theorem map_name_orderedInsert (rows : List (Standing T)) (call : Submission T) :
    (rows.orderedInsert (Ahead highestFirst) (ofSubmission call)).map name =
      (rows.map name).insertIdx
        (rows.findIdx fun row => Ahead highestFirst (ofSubmission call) row) call.player := by
  rw [orderedInsert_eq_insertIdx, List.map_insertIdx]
  rfl

/-- The mirror follows a submission. -/
theorem mirror_submit (h : Ranked highestFirst rows) (hlen : rows.length ≤ maxSize)
    (call : Submission T) (tie : Bool) :
    mirror maxSize (rows.map name) call.player (submit highestFirst maxSize rows call tie).2 =
      (submit highestFirst maxSize rows call tie).1.map name := by
  have hlen' := length_submit_le highestFirst hlen call tie
  rcases submit_cases highestFirst maxSize rows call tie with
    ⟨old, hmem, hname, -, hsubmit⟩ | ⟨-, -, hsubmit⟩ | ⟨-, hsubmit⟩
  · obtain ⟨i, hi, -, hothers⟩ := h.filter_eq_eraseIdx hmem hname
    -- a move keeps the number of players, so nothing is truncated
    rw [hsubmit] at hlen' ⊢
    rw [map_name_orderedInsert, hi, mirror, hothers, List.eraseIdx_map, List.take_of_length_le]
    rwa [hothers, ← List.length_map name, map_name_orderedInsert] at hlen'
  · rw [hsubmit, List.map_take, map_name_orderedInsert, mirror]
  · rw [hsubmit, mirror]

/-- The position is one of the standings after the submission. -/
theorem position_lt_length (rows : List (Standing T)) (call : Submission T) (tie : Bool) {i : ℕ}
    (hi : (submit highestFirst maxSize rows call tie).2.1 = some i) :
    i < (submit highestFirst maxSize rows call tie).1.length := by
  rcases submit_cases highestFirst maxSize rows call tie with
    ⟨old, -, -, -, hsubmit⟩ | ⟨-, hplace, hsubmit⟩ | ⟨-, hsubmit⟩
  · rw [hsubmit, Option.some.injEq] at hi
    rw [hsubmit, List.orderedInsert_length, ← hi]
    exact Nat.lt_succ_of_le List.findIdx_le_length
  · rw [hsubmit, Option.some.injEq] at hi
    rw [hsubmit, List.length_take, List.orderedInsert_length, ← hi]
    exact lt_min hplace (Nat.lt_succ_of_le List.findIdx_le_length)
  · rw [hsubmit] at hi
    cases hi

end Standing

namespace Leaderboard

variable {T : Type} [LinearOrder T] {b b' : Leaderboard T} {highestFirst : Bool} {maxSize : ℕ}
  {rows : List (Standing T)}

/-- The names in the order of the ranking. -/
def names (b : Leaderboard T) : Option (List String) :=
  b.ranked.map fun es => es.map fun e => e.name

theorem Shows.names_eq (h : b.Shows highestFirst maxSize rows) :
    b.names = some (rows.map Standing.name) := by
  obtain ⟨es, hes, rfl⟩ := h.ranked_returns
  rw [names, hes, List.map_map]
  rfl

/-- A board after a rejected call: at most an id was used up. -/
structure Unchanged (b b' : Leaderboard T) : Prop where
  entries : b'.entries = b.entries
  ranking : b'.ranking = b.ranking
  heap : b'.heap = b.heap

theorem unchanged_of_updateScore {existing : ℕ} {call : Submission T} {out : Placement}
    (h : b.updateScore existing call = some (b', out)) (hout : out.1 = none) : b.Unchanged b' := by
  simp only [updateScore, Option.bind_eq_bind, Option.bind_eq_some_iff] at h
  obtain ⟨entry, -, h⟩ := h
  split_ifs at h with hcandidate
  · obtain ⟨rfl, rfl⟩ := Prod.mk.inj (Option.some.inj h)
    exact ⟨rfl, rfl, rfl⟩
  · simp only [Option.bind_eq_some_iff] at h
    obtain ⟨_, _, _, _, _, _, index, _, h⟩ := h
    obtain ⟨-, rfl⟩ := Prod.mk.inj (Option.some.inj h)
    cases hout

theorem unchanged_of_addScore {call : Submission T} {out : Placement}
    (h : b.addScore call = some (b', out)) (hout : out.1 = none) : b.Unchanged b' := by
  simp only [addScore, Option.bind_eq_bind, Option.bind_eq_some_iff] at h
  obtain ⟨rejected, -, h⟩ := h
  split_ifs at h with hrejected
  · obtain ⟨rfl, rfl⟩ := Prod.mk.inj (Option.some.inj h)
    exact ⟨rfl, rfl, rfl⟩
  · simp only [Option.bind_eq_some_iff] at h
    obtain ⟨_, _, placement, _, _, _, h⟩ := h
    obtain ⟨-, rfl⟩ := Prod.mk.inj (Option.some.inj h)
    cases hout

/-- A rejected call leaves both containers and all entries as they were. -/
theorem unchanged_of_submitScore {call : Submission T} {out : Placement}
    (h : b.submitScore call = some (b', out)) (hout : out.1 = none) : b.Unchanged b' := by
  rw [submitScore] at h
  cases hlookup : b.entries.lookup call.player with
  | none =>
    rw [hlookup] at h
    exact unchanged_of_addScore h hout
  | some existing =>
    rw [hlookup] at h
    exact unchanged_of_updateScore h hout

/-- A call, with the list of a client beside the board. -/
def mirrorStep (s : Leaderboard T × List String) (call : Submission T) :
    Option (Leaderboard T × List String) :=
  (s.1.submitScore call).map fun r => (r.1, mirror s.1.maxSize s.2 call.player r.2)

theorem Shows.mirrorStep (h : b.Shows highestFirst maxSize rows) (hpos : 0 < maxSize)
    (call : Submission T) :
    ∃ b' rows', mirrorStep (b, rows.map Standing.name) call =
        some (b', rows'.map Standing.name) ∧ b'.Shows highestFirst maxSize rows' := by
  obtain ⟨b', tie, hsubmit, hshows⟩ := h.submitScore hpos call
  refine ⟨b', _, ?_, hshows⟩
  rw [Leaderboard.mirrorStep, hsubmit, Option.map_some, h.maxSize_eq,
    Standing.mirror_submit h.ranked h.length_le]

theorem Shows.run_mirrorStep (h : b.Shows highestFirst maxSize rows) (hpos : 0 < maxSize)
    (calls : List (Submission T)) :
    ∃ b' rows', Library.run Leaderboard.mirrorStep (b, rows.map Standing.name) calls =
        some (b', rows'.map Standing.name) ∧ b'.Shows highestFirst maxSize rows' := by
  induction calls generalizing b rows with
  | nil => exact ⟨b, rows, rfl, h⟩
  | cons call calls ih =>
    obtain ⟨b', rows', hstep, hshows⟩ := h.mirrorStep hpos call
    obtain ⟨b'', rows'', hrun, hshows'⟩ := ih hshows
    exact ⟨b'', rows'', run_cons_eq_some.mpr ⟨_, hstep, hrun⟩, hshows'⟩

variable {Text J : Type} (lib : JsonLibrary Text J T)

/-- From any board that can be reached, a client that starts with its names and only looks at the
returned tuples has the names of the ranking after every run; a rejected call changes nothing there,
and a returned position is one of the board after the call. -/
theorem mirror_run (file : Option Text) (maxSize : ℕ) (hpos : 0 < maxSize) (highestFirst : Bool)
    (before calls : List (Submission T)) :
    ∃ b₀ b client s, construct lib file maxSize highestFirst = some b₀ ∧
      Library.run step b₀ before = some b ∧ b.names = some client ∧
      Library.run mirrorStep (b, client) calls = some s ∧ s.1.names = some s.2 ∧
      ∀ call, ∃ b' out, s.1.submitScore call = some (b', out) ∧
        (out.1 = none → s.1.Unchanged b') ∧ ∀ i, out.1 = some i → i < b'.ranking.length := by
  obtain ⟨b₀, hb₀, hshows₀⟩ := construct_shows lib file maxSize highestFirst
  obtain ⟨b, rows, hbefore, hshows⟩ := hshows₀.run hpos before
  obtain ⟨c, rows', hrun, hshows'⟩ := hshows.run_mirrorStep hpos calls
  refine ⟨b₀, b, _, _, hb₀, hbefore, hshows.names_eq, hrun, hshows'.names_eq, ?_⟩
  intro call
  obtain ⟨b', tie, hsubmit, hshows''⟩ := hshows'.submitScore hpos call
  refine ⟨b', _, hsubmit, unchanged_of_submitScore hsubmit, ?_⟩
  intro i hi
  rw [hshows''.length_ranking]
  exact Standing.position_lt_length rows' call tie hi

/-- An update that moves a player up two places, and an insertion that evicts. -/
theorem mirror_run_evicting : ∃ b₀ b : Leaderboard ℤ, ∃ client s,
    construct Json.library none 3 true = some b₀ ∧
      Library.run step b₀ [⟨"a", 3, 10, 0, 0⟩, ⟨"b", 2, 11, 0, 0⟩, ⟨"c", 1, 12, 0, 0⟩] = some b ∧
      b.names = some client ∧
      Library.run mirrorStep (b, client) [⟨"c", 4, 13, 0, 0⟩, ⟨"d", 3, 14, 0, 0⟩] = some s ∧
      s.1.names = some s.2 ∧
      ∀ call, ∃ b' out, s.1.submitScore call = some (b', out) ∧
        (out.1 = none → s.1.Unchanged b') ∧ ∀ i, out.1 = some i → i < b'.ranking.length :=
  mirror_run Json.library none 3 (by decide) true _ _

end Leaderboard
end ServerSimple.GlobalBoards
