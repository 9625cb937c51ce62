import ServerSimple.Library.Domination
import ServerSimple.GlobalBoards.LeaderboardMirror

/-! # The ranks of a leaderboard only improve

Whatever is submitted, the score at each rank of the board is never worse than it was before, and the
board never gets shorter. So the score that it takes to reach a rank only goes up.
-/

namespace ServerSimple.GlobalBoards

open Library

namespace Standing

variable {T : Type} [LinearOrder T] {highestFirst : Bool} {maxSize : ℕ} {rows : List (Standing T)}

/-- The first has a score that is at least as good. -/
def NotWorse (highestFirst : Bool) (a b : Standing T) : Prop :=
  better highestFirst b.score a.score = false

theorem notWorse_refl (a : Standing T) : NotWorse highestFirst a a := better_irrefl a.score

theorem notWorse_trans (a b c : Standing T) (hab : NotWorse highestFirst a b)
    (hbc : NotWorse highestFirst b c) : NotWorse highestFirst a c :=
  not_better_trans hbc hab

theorem notWorse_of_ahead (a b : Standing T) (h : a.Ahead highestFirst b) :
    NotWorse highestFirst a b := by
  rcases h with hbetter | ⟨hequal, -⟩
  · exact better_asymm hbetter
  · rw [NotWorse, hequal]
    exact better_irrefl b.score

theorem notWorse_of_not_ahead (a b : Standing T) (h : ¬ a.Ahead highestFirst b) :
    NotWorse highestFirst b a :=
  not_better_of_not_ahead h

theorem Ranked.pairwise_notWorse (h : Ranked highestFirst rows) :
    rows.Pairwise (NotWorse highestFirst) :=
  h.sorted.imp fun hnot => notWorse_of_not_ahead _ _ hnot

/-- A submission makes no rank worse. -/
theorem Ranked.dominates_submit (h : Ranked highestFirst rows) (hlen : rows.length ≤ maxSize)
    (call : Submission T) (tie : Bool) :
    Dominates (NotWorse highestFirst) (submit highestFirst maxSize rows call tie).1 rows := by
  rcases submit_cases highestFirst maxSize rows call tie with
    ⟨old, hmem, hname, hscore, hsubmit⟩ | ⟨-, -, hsubmit⟩ | ⟨-, hsubmit⟩
  · obtain ⟨i, hi, hlt, hothers⟩ := h.filter_eq_eraseIdx hmem hname
    have hold : rows[i]? = some old := by
      obtain ⟨_, hplayer, -⟩ := List.findIdx?_eq_some_iff_getElem.mp hi
      rw [List.getElem?_eq_getElem hlt, Option.some.injEq]
      apply h.eq_of_name (List.getElem_mem hlt) hmem
      rw [hname]
      exact of_decide_eq_true hplayer
    have hbetter : NotWorse highestFirst (ofSubmission call) old := by
      rcases hscore with hbetter | ⟨hequal, -⟩
      · exact better_asymm hbetter
      · rw [NotWorse, ← hequal]
        exact better_irrefl call.score
    rw [hsubmit, hothers]
    exact dominates_orderedInsert_eraseIdx notWorse_refl notWorse_trans notWorse_of_ahead
      notWorse_of_not_ahead hold hbetter h.pairwise_notWorse
  · rw [hsubmit]
    have hinserted : Dominates (NotWorse highestFirst)
        (rows.orderedInsert (Ahead highestFirst) (ofSubmission call)) rows :=
      dominates_orderedInsert notWorse_refl notWorse_of_ahead h.pairwise_notWorse
    exact hinserted.take hlen
  · rw [hsubmit]
    exact dominates_refl notWorse_refl rows

/-- The position that a submission returns is the place of what was submitted. -/
theorem getElem?_submit (rows : List (Standing T)) (call : Submission T) (tie : Bool) {i : ℕ}
    (hi : (submit highestFirst maxSize rows call tie).2.1 = some i) :
    (submit highestFirst maxSize rows call tie).1[i]? = some (ofSubmission call) := by
  rcases submit_cases highestFirst maxSize rows call tie with
    ⟨old, -, -, -, hsubmit⟩ | ⟨-, hplace, hsubmit⟩ | ⟨-, hsubmit⟩
  · rw [hsubmit, Option.some.injEq] at hi
    rw [hsubmit, orderedInsert_eq_insertIdx, hi, List.getElem?_insertIdx_self, if_pos]
    exact hi ▸ List.findIdx_le_length
  · rw [hsubmit, Option.some.injEq] at hi
    rw [hsubmit, List.getElem?_take_of_lt (hi ▸ hplace), orderedInsert_eq_insertIdx, hi,
      List.getElem?_insertIdx_self, if_pos]
    exact hi ▸ List.findIdx_le_length
  · rw [hsubmit] at hi
    cases hi

end Standing

namespace Leaderboard

variable {T : Type} [LinearOrder T] {b b' : Leaderboard T} {highestFirst : Bool} {maxSize : ℕ}
  {rows : List (Standing T)}

/-- The whole run, whatever the capacity. -/
theorem Shows.dominates_run (h : b.Shows highestFirst maxSize rows) {calls : List (Submission T)}
    (hrun : Library.run step b calls = some b') :
    ∃ rows', b'.Shows highestFirst maxSize rows' ∧
      Dominates (Standing.NotWorse highestFirst) rows' rows := by
  induction calls generalizing b rows with
  | nil =>
    rw [run_nil, Option.some.injEq] at hrun
    exact ⟨rows, hrun ▸ h, dominates_refl Standing.notWorse_refl rows⟩
  | cons call calls ih =>
    obtain ⟨t, hstep, hrest⟩ := run_cons_eq_some.mp hrun
    rcases Nat.eq_zero_or_pos maxSize with hzero | hpos
    · rw [step, submitScore_of_prevOfEmpty ((h.prevOfEmpty_iff call).mpr hzero)] at hstep
      cases hstep
    · obtain ⟨tie, ht⟩ := h.of_step hpos hstep
      obtain ⟨rows', hshows, hdominates⟩ := ih ht hrest
      exact ⟨rows', hshows, hdominates.trans Standing.notWorse_trans
        (h.ranked.dominates_submit h.length_le call tie)⟩

variable {Text J : Type} (lib : JsonLibrary Text J T)

/-- From any board that can be reached, in either direction and whatever the clock: after any run
each rank is still taken, by a score that is at least as good, and a score that gets a rank is at
least as good as the one that had this rank before. -/
theorem ranks_improve (file : Option Text) (maxSize : ℕ) (highestFirst : Bool)
    (before calls : List (Submission T)) (hafter : after lib file maxSize highestFirst before = some b)
    (hrun : Library.run step b calls = some b') :
    ∃ es es' : List (LeaderboardEntry T), b.ranked = some es ∧ b'.ranked = some es' ∧
      (∀ (i : ℕ) (e : LeaderboardEntry T), es[i]? = some e →
        ∃ e', es'[i]? = some e' ∧ better b.highestFirst e.score e'.score = false) ∧
      ∀ call b'' i past (e : LeaderboardEntry T), b'.submitScore call = some (b'', some i, past) → es[i]? = some e →
        better b.highestFirst e.score call.score = false := by
  obtain ⟨rows, hshows⟩ := after_shows lib hafter
  obtain ⟨rows', hshows', hdominates⟩ := hshows.dominates_run hrun
  obtain ⟨es, hes, hrows⟩ := hshows.ranked_returns
  obtain ⟨es', hes', hrows'⟩ := hshows'.ranked_returns
  have hplace : ∀ (i : ℕ) (e : LeaderboardEntry T), es[i]? = some e →
      rows[i]? = some e.standing := by
    intro i e he
    rw [← hrows, List.getElem?_map, he, Option.map_some]
  rw [hshows.direction_eq]
  refine ⟨es, es', hes, hes', ?_, ?_⟩
  · intro i e he
    obtain ⟨row', hrow', hnotWorse⟩ := hdominates i e.standing (hplace i e he)
    rw [← hrows', List.getElem?_map, Option.map_eq_some_iff] at hrow'
    obtain ⟨e', he', rfl⟩ := hrow'
    exact ⟨e', he', hnotWorse⟩
  · intro call b'' i past e hsubmit he
    have hpos : 0 < maxSize := by
      have hlt := (List.getElem?_eq_some_iff.mp (hplace i e he)).1
      have hlen := hshows.length_le
      omega
    obtain ⟨tie, hout, -⟩ := hshows'.of_submitScore hpos hsubmit
    have hsubmitted := (hshows'.ranked.dominates_submit hshows'.length_le call tie).trans
      Standing.notWorse_trans hdominates
    obtain ⟨row, hrow, hnotWorse⟩ := hsubmitted i e.standing (hplace i e he)
    rw [Standing.getElem?_submit rows' call tie (congrArg Prod.fst hout).symm,
      Option.some.injEq] at hrow
    subst hrow
    exact hnotWorse

/-- An update and an eviction on a board of two. -/
def fasterTimes : List (Submission ℤ) := [⟨"a", 6, 12, 0, 0⟩, ⟨"c", 5, 13, 0, 0⟩]

theorem ranks_improve_faster : ∃ b b' : Leaderboard ℤ, ∃ es es' : List (LeaderboardEntry ℤ),
    after Json.library none 2 false [⟨"a", 9, 10, 0, 0⟩, ⟨"b", 7, 11, 0, 0⟩] = some b ∧
    Library.run step b fasterTimes = some b' ∧ b.ranked = some es ∧ b'.ranked = some es' ∧
    ∀ (i : ℕ) (e : LeaderboardEntry ℤ), es[i]? = some e →
      ∃ e', es'[i]? = some e' ∧ better b.highestFirst e.score e'.score = false := by
  obtain ⟨b, b', hb, hb'⟩ : ∃ b b' : Leaderboard ℤ,
      after Json.library none 2 false [⟨"a", 9, 10, 0, 0⟩, ⟨"b", 7, 11, 0, 0⟩] = some b ∧
      Library.run step b fasterTimes = some b' := ⟨_, _, rfl, rfl⟩
  obtain ⟨es, es', hes, hes', himprove, -⟩ := ranks_improve Json.library none 2 false
    [⟨"a", 9, 10, 0, 0⟩, ⟨"b", 7, 11, 0, 0⟩] fasterTimes hb hb'
  exact ⟨b, b', es, es', hb, hb', hes, hes', himprove⟩

end Leaderboard
end ServerSimple.GlobalBoards
