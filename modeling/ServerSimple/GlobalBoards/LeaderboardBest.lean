import ServerSimple.GlobalBoards.BestScores
import ServerSimple.GlobalBoards.LeaderboardQueries

/-! # The leaderboard shows the best scores of all players

As long as nobody repeats a stored score, a submission improves the rows of the board and cuts them
off at the capacity. With a clock that does not run backwards the rows are then the first ones of the
ranking of everyone's best scores, players included whom the board has rejected or forgotten.
-/

namespace ServerSimple.GlobalBoards

open Library

variable {T : Type} [LinearOrder T] {highestFirst : Bool} {maxSize : ℕ} {rows : List (Standing T)}
  {call : Submission T} {tie : Bool}

namespace Standing

/-- The name and the score of a row. -/
def result (row : Standing T) : String × T := (row.name, row.score)

/-- Whether a new row goes in or is cut off at once, the rows are those that remain of all. -/
theorem submit_eq_take_of_new (hlen : rows.length ≤ maxSize)
    (hnew : ∀ row ∈ rows, row.name ≠ call.player) :
    (submit highestFirst maxSize rows call tie).1 =
      (rows.orderedInsert (Ahead highestFirst) (ofSubmission call)).take maxSize := by
  rcases submit_cases highestFirst maxSize rows call tie with
    ⟨old, hold, hname, _⟩ | ⟨_, _, hsubmit⟩ | ⟨⟨old, hold, hname, _⟩ | ⟨_, hplace⟩, hsubmit⟩
  · exact absurd hname (hnew old hold)
  · rw [hsubmit]
  · exact absurd hname (hnew old hold)
  · have hlast : rows.findIdx (fun row => Ahead highestFirst (ofSubmission call) row) = rows.length :=
      le_antisymm List.findIdx_le_length (hlen.trans hplace)
    have hbehind : ∀ row ∈ rows, ¬ Ahead highestFirst (ofSubmission call) row := by
      intro row hrow
      simpa using List.findIdx_eq_length.mp hlast row hrow
    rw [hsubmit, orderedInsert_eq_append hbehind, List.take_left' (le_antisymm hlen (hlast ▸ hplace))]

/-- Unless a stored score is repeated, a submission improves the rows. -/
theorem submit_eq_improve (hranked : Ranked highestFirst rows) (hlen : rows.length ≤ maxSize)
    (hrepeat : ∀ row ∈ rows, row.name = call.player → row.score ≠ call.score) :
    (submit highestFirst maxSize rows call tie).1 =
      (improve (Ahead highestFirst) Standing.name (ofSubmission call) rows).take maxSize := by
  by_cases hnew : ∀ row ∈ rows, row.name ≠ call.player
  · rw [submit_eq_take_of_new hlen hnew, improve_of_new hnew]
  · push Not at hnew
    obtain ⟨row, hrow, hname⟩ := hnew
    have hahead : ∀ old ∈ rows, old.name = call.player →
        (Ahead highestFirst (ofSubmission call) old ↔
          (better highestFirst call.score old.score ∨ call.score = old.score ∧ tie)) := by
      intro old hold holdName
      have hne := (hrepeat old hold holdName).symm
      simp [Ahead, ofSubmission, hne]
    rcases submit_cases highestFirst maxSize rows call tie with
      ⟨old, hold, holdName, hbetter, hsubmit⟩ | ⟨hnone, _⟩ |
        ⟨⟨old, hold, holdName, hnot⟩ | ⟨hnone, _⟩, hsubmit⟩
    · have hbeaten : ∀ other ∈ rows, other.name = call.player →
          Ahead highestFirst (ofSubmission call) other := by
        intro other hother hotherName
        rw [hranked.eq_of_name hother hold (hotherName.trans holdName.symm), hahead old hold holdName]
        exact hbetter
      have hle := length_submit_le highestFirst hlen call tie
      rw [hsubmit] at hle ⊢
      rw [improve_of_beaten hbeaten]
      exact (List.take_of_length_le hle).symm
    · exact absurd hname (hnone row hrow)
    · rw [hsubmit, improve_of_kept hold holdName (mt (hahead old hold holdName).mp hnot),
        List.take_of_length_le hlen]
    · exact absurd hname (hnone row hrow)

/-- If no row is from later, the new row is ahead of those that it beats. -/
theorem ahead_ofSubmission_iff {row : Standing T} (h : row.timestamp ≤ call.now) :
    Ahead highestFirst (ofSubmission call) row ↔ Beats highestFirst call.result row.result := by
  constructor
  · rintro (hbetter | ⟨_, hlt⟩)
    · exact hbetter
    · exact absurd h (not_le.mpr hlt)
  · exact .inl

/-- The rows are the first ones of a longer ranking, and stay so when both are improved. -/
theorem map_result_submit {l : List (String × T)} (hranked : Ranked highestFirst rows)
    (hlen : rows.length ≤ maxSize)
    (hrepeat : ∀ row ∈ rows, row.name = call.player → row.score ≠ call.score)
    (hclock : ∀ row ∈ rows, row.timestamp ≤ call.now) (hrows : rows.map result = l.take maxSize)
    (hsorted : l.Pairwise fun a b => ¬ Beats highestFirst b a) (hnames : (l.map Prod.fst).Nodup) :
    (submit highestFirst maxSize rows call tie).1.map result =
      (improve (Beats highestFirst) Prod.fst call.result l).take maxSize := by
  have hmap : (improve (Ahead highestFirst) Standing.name (ofSubmission call) rows).map result =
      improve (Beats highestFirst) Prod.fst call.result (rows.map result) :=
    map_improve result (fun _ => rfl) fun row hrow => ahead_ofSubmission_iff (hclock row hrow)
  have hneg : ∀ a b c : String × T, ¬ Beats highestFirst a b → ¬ Beats highestFirst b c →
      ¬ Beats highestFirst a c := by
    intro a b c hab hbc
    rw [Beats, Bool.not_eq_true] at *
    exact not_better_trans hab hbc
  rw [submit_eq_improve hranked hlen hrepeat, List.map_take, hmap, hrows,
    ← take_improve hneg hsorted hnames]

end Standing

namespace Leaderboard

variable {b : Leaderboard T} {done : List (Submission T)}

/-- The board shows the best results of these calls. -/
def ShowsBest (b : Leaderboard T) (highestFirst : Bool) (maxSize : ℕ) (done : List (Submission T)) :
    Prop :=
  ∃ rows l, b.Shows highestFirst maxSize rows ∧ IsBest highestFirst done l ∧
    rows.map Standing.result = l.take maxSize ∧
    ∀ row ∈ rows, ∃ call ∈ done, row.timestamp = call.now

theorem ShowsBest.submitScore (h : b.ShowsBest highestFirst maxSize done) (hpos : 0 < maxSize)
    (hclock : ∀ earlier ∈ done, earlier.now ≤ call.now) (hrepeat : b.NoRepeat call) :
    ∃ b', b.step call = some b' ∧ b'.ShowsBest highestFirst maxSize (done ++ [call]) := by
  obtain ⟨rows, l, hshows, hbest, hrows, htimes⟩ := h
  obtain ⟨b', tie, hsubmit, hshows'⟩ := hshows.submitScore hpos call
  have hrepeat' := hshows.noRepeat_iff.mp hrepeat
  refine ⟨b', by rw [step, hsubmit]; rfl, _, _, hshows', hbest.append call, ?_, ?_⟩
  · refine Standing.map_result_submit hshows.ranked hshows.length_le hrepeat' ?_ hrows ?_ hbest.names
    · intro row hrow
      obtain ⟨earlier, hearlier, htime⟩ := htimes row hrow
      exact htime ▸ hclock earlier hearlier
    · apply hbest.sorted.imp
      intro a c hlead hbeats
      exact hlead.asymm (.inl hbeats)
  · intro row hrow
    rw [Standing.submit_eq_improve hshows.ranked hshows.length_le hrepeat'] at hrow
    rcases mem_improve (List.mem_of_mem_take hrow) with rfl | hrow
    · exact ⟨call, by simp, rfl⟩
    · obtain ⟨earlier, hearlier, htime⟩ := htimes row hrow
      exact ⟨earlier, List.mem_append_left _ hearlier, htime⟩

theorem ShowsBest.run (h : b.ShowsBest highestFirst maxSize done) (hpos : 0 < maxSize)
    (calls : List (Submission T)) (hclock : (done ++ calls).Pairwise fun c c' => c.now ≤ c'.now)
    (hrepeat : Guarded step NoRepeat b calls) :
    ∃ b', Library.run step b calls = some b' ∧
      b'.ShowsBest highestFirst maxSize (done ++ calls) := by
  induction calls generalizing b done with
  | nil => exact ⟨b, rfl, by simpa using h⟩
  | cons call calls ih =>
    have hnow : ∀ earlier ∈ done, earlier.now ≤ call.now := fun earlier hearlier =>
      (List.pairwise_append.mp hclock).2.2 earlier hearlier call List.mem_cons_self
    obtain ⟨b', hstep, h'⟩ := h.submitScore hpos hnow hrepeat.1
    rw [List.append_cons] at hclock ⊢
    obtain ⟨b'', hrun, h''⟩ := ih h' hclock (hrepeat.2 b' hstep)
    exact ⟨b'', run_cons_eq_some.mpr ⟨b', hstep, hrun⟩, h''⟩

variable {Text J : Type} (lib : JsonLibrary Text J T)

/-- After any calls with a clock that does not run backwards, none of which repeats the score stored
for its player, a board that started empty ranks the first `maxSize` of all players who ever
submitted, by their best scores and by who reached them first. -/
theorem ranked_eq_take_bestRanking (maxSize : ℕ) (hpos : 0 < maxSize) (highestFirst : Bool)
    (calls : List (Submission T)) (hclock : calls.Pairwise fun c c' => c.now ≤ c'.now)
    (hrepeat : ∀ b₀, construct lib none maxSize highestFirst = some b₀ →
      Guarded step NoRepeat b₀ calls) :
    ∃ b₀ b es, construct lib none maxSize highestFirst = some b₀ ∧
      Library.run step b₀ calls = some b ∧ b.ranked = some es ∧
      es.map (fun e => (e.name, e.score)) = (bestRanking highestFirst calls).take maxSize := by
  obtain ⟨b₀, hb₀, hshows⟩ := construct_shows lib none maxSize highestFirst
  have hempty : b₀.ShowsBest highestFirst maxSize [] :=
    ⟨[], [], hshows, .nil highestFirst, by simp, by simp⟩
  obtain ⟨b, hrun, rows, l, hshows', hbest, hrows, -⟩ :=
    hempty.run hpos calls hclock (hrepeat b₀ hb₀)
  obtain ⟨es, hes, hstandings⟩ := hshows'.ranked_returns
  refine ⟨b₀, b, es, hb₀, hrun, hes, ?_⟩
  rw [List.nil_append] at hbest
  rw [← hbest.eq_bestRanking, ← hrows, ← hstandings, List.map_map]
  rfl

/-- The player `b` is evicted by `c` and comes back with a score that ties with the best one. -/
theorem ranked_eq_take_bestRanking_reentry : ∃ (b₀ b : Leaderboard ℤ) (es : _),
    construct Json.library none 2 true = some b₀ ∧
      Library.run step b₀ [⟨"a", 5, 1, 0, 0⟩, ⟨"b", 3, 2, 0, 0⟩, ⟨"c", 4, 2, 0, 0⟩,
        ⟨"b", 5, 3, 0, 0⟩] = some b ∧ b.ranked = some es ∧
      es.map (fun e => (e.name, e.score)) = [("a", 5), ("b", 5)] :=
  ranked_eq_take_bestRanking Json.library 2 (by decide) true
    [⟨"a", 5, 1, 0, 0⟩, ⟨"b", 3, 2, 0, 0⟩, ⟨"c", 4, 2, 0, 0⟩, ⟨"b", 5, 3, 0, 0⟩] (by decide)
    (by
      intro b₀ hb₀
      cases hb₀
      decide)

end Leaderboard
end ServerSimple.GlobalBoards
