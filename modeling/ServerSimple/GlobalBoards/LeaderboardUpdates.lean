import ServerSimple.GlobalBoards.LeaderboardMirror

/-! # Updates of a player on the leaderboard

A player is meant to be updated only when the score improves. The test asks the comparator of the
ranking about a local candidate of which only the score is set, so on an equal score the comparator
falls through to the timestamp and the id that the candidate happens to hold.
-/

namespace ServerSimple.GlobalBoards

open Library Cell

namespace Standing

variable {T : Type} [LinearOrder T] {highestFirst : Bool} {maxSize : ℕ} {rows : List (Standing T)}

/-- A score that is better than that of someone is better than those behind. -/
theorem Ranked.ahead_of_behind (h : Ranked highestFirst rows) {i j : ℕ} (hij : i < j)
    {old row new : Standing T} (hold : rows[i]? = some old) (hrow : rows[j]? = some row)
    (hbetter : better highestFirst new.score old.score) : new.Ahead highestFirst row := by
  obtain ⟨hi, rfl⟩ := List.getElem?_eq_some_iff.mp hold
  obtain ⟨hj, rfl⟩ := List.getElem?_eq_some_iff.mp hrow
  have hnot := not_better_of_not_ahead (List.pairwise_iff_getElem.mp h.sorted i j hi hj hij)
  apply Or.inl
  by_contra hworse
  rw [Bool.not_eq_true] at hworse
  rw [not_better_trans hworse hnot] at hbetter
  cases hbetter

/-- So the first one behind which a better score does not come is not after the old place. -/
theorem Ranked.findIdx_eraseIdx_le (h : Ranked highestFirst rows) {i : ℕ} {old new : Standing T}
    (hold : rows[i]? = some old) (hbetter : better highestFirst new.score old.score) :
    ((rows.eraseIdx i).findIdx fun row => new.Ahead highestFirst row) ≤ i := by
  by_contra hlt
  rw [not_le] at hlt
  have hlen : i < (rows.eraseIdx i).length := lt_of_lt_of_le hlt List.findIdx_le_length
  have hnot := List.not_of_lt_findIdx hlt
  have hnext : rows[i + 1]? = some (rows.eraseIdx i)[i] := by
    rw [← List.getElem?_eq_getElem hlen, List.getElem?_eraseIdx_of_ge le_rfl]
  have hahead := h.ahead_of_behind (Nat.lt_succ_self i) hold hnext hbetter
  simp [hahead] at hnot

/-- A better score moves its player up, and nobody else relative to the others. -/
theorem Ranked.submit_of_better (h : Ranked highestFirst rows) {call : Submission T}
    {old : Standing T} (hmem : old ∈ rows) (hname : old.name = call.player)
    (hbetter : better highestFirst call.score old.score) (tie : Bool) :
    ∃ position past,
      (submit highestFirst maxSize rows call tie).2 = (some position, some past) ∧
      position ≤ past ∧
      ((submit highestFirst maxSize rows call tie).1.map name).filter (· ≠ call.player) =
        (rows.map name).filter (· ≠ call.player) := by
  rcases submit_cases highestFirst maxSize rows call tie with
    ⟨old', hmem', hname', -, hsubmit⟩ | ⟨hnone, -, -⟩ | ⟨⟨old', hmem', hname', hworse⟩ | ⟨hnone, -⟩, -⟩
  · obtain ⟨i, hi, hlt, hothers⟩ := h.filter_eq_eraseIdx hmem hname
    have hfound : rows[i]? = some old := by
      obtain ⟨_, hplayer, -⟩ := List.findIdx?_eq_some_iff_getElem.mp hi
      rw [List.getElem?_eq_getElem hlt, Option.some.injEq]
      apply h.eq_of_name (List.getElem_mem hlt) hmem
      rw [hname]
      exact of_decide_eq_true hplayer
    refine ⟨_, i, by rw [hsubmit, hi], ?_, ?_⟩
    · rw [hothers]
      exact h.findIdx_eraseIdx_le hfound hbetter
    · rw [hsubmit, List.filter_map, List.filter_map, filter_orderedInsert_of_neg (by simp [ofSubmission]),
        List.filter_filter]
      simp [Function.comp_def]
  · exact absurd hname (hnone old hmem)
  · rw [h.eq_of_name hmem' hmem (hname'.trans hname.symm)] at hworse
    exact absurd (Or.inl hbetter) hworse
  · exact absurd hname (hnone old hmem)

end Standing

namespace Leaderboard

variable {T : Type} [LinearOrder T] {b b' : Leaderboard T} {highestFirst : Bool} {maxSize : ℕ}

/-- The local entry that `submit_score` compares with the stored one. -/
def candidate (call : Submission T) : LeaderboardEntry T :=
  ⟨⟨"", call.candidateTimestamp, call.candidateId⟩, call.score, 0⟩

/-- The entry under which a player is stored. -/
def stored (b : Leaderboard T) (player : String) : Option (LeaderboardEntry T) :=
  (b.entries.lookup player).bind b.heap

/-- The comparator decides. -/
theorem isSome_submitScore {call : Submission T} {out : Placement} {entry : LeaderboardEntry T}
    (hstored : b.stored call.player = some entry) (h : b.submitScore call = some (b', out)) :
    out.1.isSome = leaderboardEntryComparator b.highestFirst (candidate call) entry := by
  obtain ⟨existing, hlookup, hentry⟩ := Option.bind_eq_some_iff.mp hstored
  simp only [submitScore, hlookup, updateScore, hentry, Option.bind_eq_bind, Option.bind_some] at h
  rw [candidate]
  split_ifs at h with hcandidate
  · obtain ⟨-, rfl⟩ := Prod.mk.inj (Option.some.inj h)
    exact hcandidate.symm
  · simp only [Option.bind_eq_some_iff] at h
    obtain ⟨_, _, _, _, _, _, index, _, h⟩ := h
    obtain ⟨-, rfl⟩ := Prod.mk.inj (Option.some.inj h)
    rw [Bool.not_eq_false] at hcandidate
    exact hcandidate.symm

/-- A call for a player with this stored score was accepted exactly if it improves the score. Then
the player moved up and the others keep their order; otherwise nothing changed. -/
structure ImprovesOnly (b : Leaderboard T) (call : Submission T) (stored : T) (b' : Leaderboard T)
    (out : Placement) : Prop where
  accepts : out.1.isSome ↔ better b.highestFirst call.score stored
  accepted : out.1.isSome → ∃ position past names names', out = (some position, some past) ∧
    position ≤ past ∧ b.names = some names ∧ b'.names = some names' ∧
    names'.filter (· ≠ call.player) = names.filter (· ≠ call.player)
  rejected : out.1 = none → b.Unchanged b'

variable {Text J : Type} (lib : JsonLibrary Text J T)

/-- For every player on a board that can be reached, a call is accepted only for a better score,
unless it repeats the stored score with a candidate that happens to be older than the entry. -/
theorem improvesOnly_iff (file : Option Text) (maxSize : ℕ) (highestFirst : Bool)
    (calls : List (Submission T)) (hafter : after lib file maxSize highestFirst calls = some b)
    (call : Submission T) {entry : LeaderboardEntry T} (hstored : b.stored call.player = some entry) :
    (∃ b' out, b.submitScore call = some (b', out) ∧ ImprovesOnly b call entry.score b' out) ↔
      ¬ (call.score = entry.score ∧ entryComparator (candidate call).toEntry entry.toEntry) := by
  obtain ⟨rows, hshows⟩ := after_shows lib hafter
  have hscore : b.scoreOf call.player = some entry.score := by
    obtain ⟨existing, hlookup, hentry⟩ := Option.bind_eq_some_iff.mp hstored
    rw [scoreOf, hlookup, Option.bind_some, hentry, Option.map_some]
  obtain ⟨old, hmem, hname, hold⟩ := hshows.scoreOf_eq_some.mp hscore
  have hpos : 0 < maxSize := lt_of_lt_of_le (List.length_pos_of_mem hmem) hshows.length_le
  obtain ⟨b', tie, hsubmit, hshows'⟩ := hshows.submitScore hpos call
  have hdecides := isSome_submitScore hstored hsubmit
  constructor
  · rintro ⟨b'', out, hsubmit', himproves⟩ ⟨hequal, holder⟩
    rw [hsubmit, Option.some.injEq, Prod.mk.injEq] at hsubmit'
    have haccepts := himproves.accepts
    rw [← hsubmit'.2, hdecides, leaderboardEntryComparator_iff, hequal, better_irrefl] at haccepts
    simpa using haccepts.mp (.inr ⟨hequal, holder⟩)
  · intro hnot
    have haccepts : (Standing.submit (loadedDirection lib file maxSize highestFirst) maxSize rows call
        tie).2.1.isSome ↔ better b.highestFirst call.score entry.score := by
      rw [hdecides, leaderboardEntryComparator_iff]
      exact or_iff_left hnot
    refine ⟨b', _, hsubmit, haccepts, ?_, unchanged_of_submitScore hsubmit⟩
    intro haccepted
    have hbetter := haccepts.mp haccepted
    rw [hshows.direction_eq, ← hold] at hbetter
    obtain ⟨position, past, hout, hle, hothers⟩ :=
      hshows.ranked.submit_of_better hmem hname hbetter tie
    exact ⟨position, past, _, _, hout, hle, hshows.names_eq, hshows'.names_eq, hothers⟩

/-- Two players with the same score. -/
def tiedScores : List (Submission ℤ) := [⟨"a", 5, 10, 0, 0⟩, ⟨"b", 5, 11, 0, 0⟩]

/-- A better score from behind. -/
theorem improvesOnly_iff_better_score : ∃ b entry,
    after Json.library none 2 true tiedScores = some b ∧ b.stored "b" = some entry ∧
      ((∃ b' out, b.submitScore ⟨"b", 6, 12, 0, 0⟩ = some (b', out) ∧
        ImprovesOnly b ⟨"b", 6, 12, 0, 0⟩ entry.score b' out) ↔
        ¬ ((6 : ℤ) = entry.score ∧
          entryComparator (candidate ⟨"b", (6 : ℤ), 12, 0, 0⟩).toEntry entry.toEntry)) := by
  have hstored : ((after Json.library none 2 true tiedScores).bind fun b => b.stored "b") =
      some ⟨⟨"b", 11, 1⟩, 5, 3⟩ := rfl
  obtain ⟨b, hb, hentry⟩ := Option.bind_eq_some_iff.mp hstored
  exact ⟨b, _, hb, hentry,
    improvesOnly_iff Json.library none 2 true tiedScores hb ⟨"b", 6, 12, 0, 0⟩ hentry⟩

/-- The stored score is submitted again while the candidate holds zeros: the player moves down. -/
theorem improvesOnly_repeated_score : ∃ b entry b',
    after Json.library none 2 true tiedScores = some b ∧ b.stored "a" = some entry ∧
      b.submitScore ⟨"a", entry.score, 12, 0, 0⟩ = some (b', some 1, some 0) ∧
      ¬ ImprovesOnly b ⟨"a", entry.score, 12, 0, 0⟩ entry.score b' (some 1, some 0) := by
  have hstored : ((after Json.library none 2 true tiedScores).bind fun b => b.stored "a") =
      some ⟨⟨"a", 10, 0⟩, 5, 1⟩ := rfl
  have hplaced : ((after Json.library none 2 true tiedScores).bind fun b =>
      (b.submitScore ⟨"a", 5, 12, 0, 0⟩).map Prod.snd) = some (some 1, some 0) := rfl
  obtain ⟨b, hb, hentry⟩ := Option.bind_eq_some_iff.mp hstored
  rw [hb, Option.bind_some, Option.map_eq_some_iff] at hplaced
  obtain ⟨⟨b', out⟩, hsubmit, rfl⟩ := hplaced
  refine ⟨b, _, b', hb, hentry, hsubmit, ?_⟩
  intro h
  have hbetter := h.accepts.mp rfl
  rw [better_irrefl] at hbetter
  cases hbetter

end Leaderboard
end ServerSimple.GlobalBoards
