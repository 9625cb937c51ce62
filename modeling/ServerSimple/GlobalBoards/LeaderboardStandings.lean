import ServerSimple.Library.OrderedInsert
import ServerSimple.GlobalBoards.Leaderboard

/-! # What a leaderboard shows

The board as its users see it: a list of names, scores and timestamps, best first. Ids do not occur.
A new entry goes before the first one that it is ahead of, so the order in which entries came is
kept among those that tie.
-/

namespace ServerSimple.GlobalBoards

open Library

structure Standing (T : Type) where
  name : String
  score : T
  timestamp : ℤ
  deriving DecidableEq

/-- What is left of an entry without its id and its place in the ranking. -/
def LeaderboardEntry.standing {T : Type} (e : LeaderboardEntry T) : Standing T :=
  ⟨e.name, e.score, e.timestamp⟩

namespace Standing

variable {T : Type} [LinearOrder T] (highestFirst : Bool)

/-- A better score, or the same one at an earlier time. -/
def Ahead (a b : Standing T) : Prop :=
  better highestFirst a.score b.score ∨ a.score = b.score ∧ a.timestamp < b.timestamp

instance : DecidableRel (Ahead highestFirst : Standing T → Standing T → Prop) :=
  fun _ _ => inferInstanceAs (Decidable (_ ∨ _))

section Order

variable {highestFirst} {a b c : Standing T}

theorem Ahead.trans (hab : a.Ahead highestFirst b) (hbc : b.Ahead highestFirst c) :
    a.Ahead highestFirst c :=
  better_or_trans lt_trans hab hbc

theorem Ahead.asymm (hab : a.Ahead highestFirst b) : ¬ b.Ahead highestFirst a := by
  intro hba
  exact lt_irrefl _ (of_better_or_self (hab.trans hba))

/-- Someone who is not ahead has no better score. -/
theorem not_better_of_not_ahead (h : ¬ a.Ahead highestFirst b) :
    better highestFirst a.score b.score = false := by
  rw [Ahead, not_or] at h
  exact Bool.eq_false_iff.mpr h.1

end Order

/-- The entry that a submission asks for. -/
def ofSubmission (call : Submission T) : Standing T := ⟨call.player, call.score, call.now⟩

/-- A submission. A player who is present moves up with a better score; whether an equal score counts
is up to `tie`. A new player comes in if the place is among the first `maxSize`. -/
def submit (maxSize : ℕ) (rows : List (Standing T)) (call : Submission T) (tie : Bool) :
    List (Standing T) × Placement :=
  match rows.find? fun row => row.name = call.player with
  | some old =>
    if better highestFirst call.score old.score ∨ call.score = old.score ∧ tie then
      let others := rows.filter fun row => row.name ≠ call.player
      (others.orderedInsert (Ahead highestFirst) (ofSubmission call),
        some (others.findIdx fun row => Ahead highestFirst (ofSubmission call) row),
        rows.findIdx? fun row => row.name = call.player)
    else (rows, none, none)
  | none =>
    let place := rows.findIdx fun row => Ahead highestFirst (ofSubmission call) row
    if place < maxSize then
      ((rows.orderedInsert (Ahead highestFirst) (ofSubmission call)).take maxSize, some place, none)
    else (rows, none, none)

/-- What a submission can do: move a player up, let a new one in, or nothing. -/
theorem submit_cases (maxSize : ℕ) (rows : List (Standing T)) (call : Submission T) (tie : Bool) :
    (∃ old ∈ rows, old.name = call.player ∧
      (better highestFirst call.score old.score ∨ call.score = old.score ∧ tie) ∧
      submit highestFirst maxSize rows call tie =
        ((rows.filter fun row => row.name ≠ call.player).orderedInsert (Ahead highestFirst)
            (ofSubmission call),
          some ((rows.filter fun row => row.name ≠ call.player).findIdx fun row =>
            Ahead highestFirst (ofSubmission call) row),
          rows.findIdx? fun row => row.name = call.player)) ∨
    ((∀ row ∈ rows, row.name ≠ call.player) ∧
      (rows.findIdx fun row => Ahead highestFirst (ofSubmission call) row) < maxSize ∧
      submit highestFirst maxSize rows call tie =
        ((rows.orderedInsert (Ahead highestFirst) (ofSubmission call)).take maxSize,
          some (rows.findIdx fun row => Ahead highestFirst (ofSubmission call) row), none)) ∨
    (((∃ old ∈ rows, old.name = call.player ∧
        ¬ (better highestFirst call.score old.score ∨ call.score = old.score ∧ tie)) ∨
      (∀ row ∈ rows, row.name ≠ call.player) ∧
        maxSize ≤ rows.findIdx fun row => Ahead highestFirst (ofSubmission call) row) ∧
      submit highestFirst maxSize rows call tie = (rows, none, none)) := by
  cases hfind : rows.find? fun row => row.name = call.player with
  | some old =>
    have hmem := List.mem_of_find?_eq_some hfind
    have hname : old.name = call.player := by simpa using List.find?_some hfind
    by_cases hbetter : better highestFirst call.score old.score ∨ call.score = old.score ∧ tie
    · exact .inl ⟨old, hmem, hname, hbetter, by simp only [submit, hfind, if_pos hbetter]⟩
    · exact .inr (.inr ⟨.inl ⟨old, hmem, hname, hbetter⟩,
        by simp only [submit, hfind, if_neg hbetter]⟩)
  | none =>
    have hnone : ∀ row ∈ rows, row.name ≠ call.player := by
      intro row hrow
      simpa using List.find?_eq_none.mp hfind row hrow
    by_cases hplace : (rows.findIdx fun row => Ahead highestFirst (ofSubmission call) row) < maxSize
    · exact .inr (.inl ⟨hnone, hplace, by simp only [submit, hfind, if_pos hplace]⟩)
    · exact .inr (.inr ⟨.inr ⟨hnone, Nat.le_of_not_lt hplace⟩,
        by simp only [submit, hfind, if_neg hplace]⟩)

end Standing

/-- An entry compares with older ones as its standing does. -/
theorem leaderboardEntryComparator_standing {T : Type} [LinearOrder T] {highestFirst : Bool}
    {a b : LeaderboardEntry T} (hid : b.id < a.id) :
    leaderboardEntryComparator highestFirst a b ↔ a.standing.Ahead highestFirst b.standing := by
  rw [leaderboardEntryComparator_iff, entryComparator_iff]
  simp only [Standing.Ahead, LeaderboardEntry.standing]
  have hirrefl : ¬ a.id < b.id := by omega
  simp [hirrefl]

/-- In the order of the ranking nobody is ahead of those before. -/
theorem not_ahead_of_leaderboardEntryComparator {T : Type} [LinearOrder T] {highestFirst : Bool}
    {a b : LeaderboardEntry T} (h : leaderboardEntryComparator highestFirst a b) :
    ¬ b.standing.Ahead highestFirst a.standing := by
  rw [leaderboardEntryComparator_iff, entryComparator_iff] at h
  simp only [Standing.Ahead, LeaderboardEntry.standing]
  rintro (hba | ⟨hba, htime⟩)
  · rcases h with hab | ⟨hab, _⟩
    · rw [better_asymm hab] at hba
      cases hba
    · rw [hab, better_irrefl] at hba
      cases hba
  · rcases h with hab | ⟨_, hentry⟩
    · rw [hba, better_irrefl] at hab
      cases hab
    · omega

end ServerSimple.GlobalBoards
