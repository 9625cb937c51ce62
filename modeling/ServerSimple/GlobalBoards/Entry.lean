import Mathlib.Data.Int.Notation
import Mathlib.Order.Lattice
import Mathlib.Tactic.Common

/-! # Entries of the boards and their order -/

namespace ServerSimple.GlobalBoards

structure Entry where
  name : String
  timestamp : ℤ
  id : ℕ
  deriving DecidableEq

def entryComparator (a b : Entry) : Bool :=
  if a.timestamp ≠ b.timestamp then a.timestamp < b.timestamp else a.id < b.id

/-- `leaderboard_entry`: the position is an iterator into the ranking. -/
structure LeaderboardEntry (T : Type) extends Entry where
  score : T
  rankingPosition : ℕ
  deriving DecidableEq

variable {T : Type} [LinearOrder T]

/-- Strictly better in the given direction. -/
def better (highestFirst : Bool) (a b : T) : Bool := if highestFirst then a > b else a < b

def leaderboardEntryComparator (highestFirst : Bool) (a b : LeaderboardEntry T) : Bool :=
  if a.score ≠ b.score then better highestFirst a.score b.score
  else entryComparator a.toEntry b.toEntry

/-! ## The comparators are strict orders -/

section Comparators

variable {highestFirst : Bool} {x y z : T}

theorem better_irrefl (x : T) : better highestFirst x x = false := by
  cases highestFirst <;> simp [better]

theorem better_trans (hxy : better highestFirst x y) (hyz : better highestFirst y z) :
    better highestFirst x z := by
  cases highestFirst with
  | true =>
    simp only [better, if_true, decide_eq_true_eq] at *
    exact lt_trans hyz hxy
  | false =>
    simp only [better, Bool.false_eq_true, if_false, decide_eq_true_eq] at *
    exact lt_trans hxy hyz

theorem better_or_eq_or_better (highestFirst : Bool) (x y : T) :
    better highestFirst x y ∨ x = y ∨ better highestFirst y x := by
  simp only [better]
  rcases lt_trichotomy x y with h | h | h
  · cases highestFirst <;> simp [h]
  · exact .inr (.inl h)
  · cases highestFirst <;> simp [h]

theorem better_asymm (hxy : better highestFirst x y) : better highestFirst y x = false := by
  by_contra h
  rw [Bool.not_eq_false] at h
  have hxx := better_trans hxy h
  rw [better_irrefl] at hxx
  cases hxx

theorem not_better_trans (hxy : better highestFirst x y = false)
    (hyz : better highestFirst y z = false) : better highestFirst x z = false := by
  by_contra hxz
  rw [Bool.not_eq_false] at hxz
  rcases better_or_eq_or_better highestFirst y z with h | rfl | h
  · rw [h] at hyz
    cases hyz
  · rw [hxz] at hxy
    cases hxy
  · rw [better_trans hxz h] at hxy
    cases hxy

theorem eq_of_not_better (hxy : better highestFirst x y = false)
    (hyx : better highestFirst y x = false) : x = y := by
  rcases better_or_eq_or_better highestFirst x y with h | h | h
  · rw [h] at hxy
    cases hxy
  · exact h
  · rw [h] at hyx
    cases hyx

/-- The better score first, then something else: the two compose. -/
theorem better_or_trans {p q r : Prop} (hpq : p → q → r) (hxy : better highestFirst x y ∨ x = y ∧ p)
    (hyz : better highestFirst y z ∨ y = z ∧ q) : better highestFirst x z ∨ x = z ∧ r := by
  rcases hxy with hxy | ⟨rfl, hp⟩
  · rcases hyz with hyz | ⟨rfl, _⟩
    · exact .inl (better_trans hxy hyz)
    · exact .inl hxy
  · rcases hyz with hyz | ⟨rfl, hq⟩
    · exact .inl hyz
    · exact .inr ⟨rfl, hpq hp hq⟩

/-- On the same score only the rest decides. -/
theorem of_better_or_self {p : Prop} (h : better highestFirst x x ∨ x = x ∧ p) : p := by
  rcases h with h | ⟨_, hp⟩
  · rw [better_irrefl] at h
    cases h
  · exact hp

end Comparators

theorem entryComparator_iff {a b : Entry} : entryComparator a b ↔
    a.timestamp < b.timestamp ∨ a.timestamp = b.timestamp ∧ a.id < b.id := by
  unfold entryComparator
  split_ifs with h
  · simp [h]
  · rw [not_not] at h
    simp [h]

variable {highestFirst : Bool} {a b c : LeaderboardEntry T}

theorem leaderboardEntryComparator_iff : leaderboardEntryComparator highestFirst a b ↔
    better highestFirst a.score b.score ∨
      a.score = b.score ∧ entryComparator a.toEntry b.toEntry := by
  unfold leaderboardEntryComparator
  split_ifs with h
  · simp [h]
  · rw [not_not] at h
    simp [h, better_irrefl]

theorem leaderboardEntryComparator_trans (hab : leaderboardEntryComparator highestFirst a b)
    (hbc : leaderboardEntryComparator highestFirst b c) :
    leaderboardEntryComparator highestFirst a c := by
  rw [leaderboardEntryComparator_iff] at *
  refine better_or_trans ?_ hab hbc
  intro hab hbc
  rw [entryComparator_iff] at *
  omega

/-- Entries with different ids are never equivalent. -/
theorem leaderboardEntryComparator_total (hid : a.id ≠ b.id)
    (h : ¬ leaderboardEntryComparator highestFirst a b) :
    leaderboardEntryComparator highestFirst b a := by
  rw [leaderboardEntryComparator_iff, not_or, not_and] at h
  rw [leaderboardEntryComparator_iff]
  rcases better_or_eq_or_better highestFirst a.score b.score with hab | hab | hab
  · exact absurd hab h.1
  · have hentry := h.2 hab
    rw [entryComparator_iff] at *
    exact .inr ⟨hab.symm, by omega⟩
  · exact .inl hab

end ServerSimple.GlobalBoards
