import ServerSimple.GlobalBoards.LeaderboardInvariant

/-! # The capacity of a leaderboard

A board that is full looks at its worst entry before it takes a new one. With the capacity zero the
board is full and has no entry, so the first call already looks at the predecessor of the end of an
empty ranking; with every other capacity this never happens.
-/

namespace ServerSimple.GlobalBoards

open Library Cell

namespace Leaderboard

variable {T : Type} [LinearOrder T] {b : Leaderboard T} {highestFirst : Bool} {maxSize : ℕ}
  {rows : List (Standing T)}

/-- The call takes `std::prev` of the end of an empty ranking, and dereferences it. -/
def PrevOfEmpty (b : Leaderboard T) (call : Submission T) : Prop :=
  b.entries.lookup call.player = none ∧ b.maxSize ≤ b.ranking.length ∧ b.ranking = []

instance {call : Submission T} : Decidable (b.PrevOfEmpty call) :=
  inferInstanceAs (Decidable (_ ∧ _))

/-- Such a call is undefined. -/
theorem submitScore_of_prevOfEmpty {call : Submission T} (h : b.PrevOfEmpty call) :
    b.submitScore call = none := by
  obtain ⟨hlookup, hfull, hempty⟩ := h
  have hrejected (entry : LeaderboardEntry T) :
      isRejected { b with nextId := b.nextId + 1 } entry = none := by
    rw [isRejected, if_pos hfull, hempty]
    rfl
  rw [submitScore, hlookup]
  simp only [addScore]
  rw [hrejected]
  rfl

theorem Shows.length_ranking (h : b.Shows highestFirst maxSize rows) :
    b.ranking.length = rows.length := by
  obtain ⟨cells, hrep, -, -, -, rfl⟩ := h
  rw [hrep.ranking, List.length_map, List.length_map]

/-- On a board with the capacity zero every call does that. -/
theorem Shows.prevOfEmpty_iff (h : b.Shows highestFirst maxSize rows) (call : Submission T) :
    b.PrevOfEmpty call ↔ maxSize = 0 := by
  have hlen := h.length_ranking
  have hle := h.length_le
  obtain ⟨cells, hrep, -, rfl, -, rfl⟩ := h
  constructor
  · rintro ⟨-, hfull, hempty⟩
    rw [hempty, List.length_nil] at hfull
    exact Nat.le_zero.mp hfull
  · intro hzero
    have hempty : b.ranking = [] := List.eq_nil_of_length_eq_zero (by omega)
    refine ⟨?_, by omega, hempty⟩
    have hcells : cells = [] := by simpa [hrep.ranking] using hempty
    rw [hrep.lookup_eq_none, hcells]
    simp

/-- A board shows rows as long as the calls to it are defined, whatever its capacity. -/
theorem Shows.of_run_defined (h : b.Shows highestFirst maxSize rows) {calls : List (Submission T)}
    {b' : Leaderboard T} (hrun : Library.run step b calls = some b') :
    ∃ rows', b'.Shows highestFirst maxSize rows' := by
  rcases Nat.eq_zero_or_pos maxSize with hzero | hpos
  · cases calls with
    | nil =>
      rw [run_nil, Option.some.injEq] at hrun
      exact ⟨rows, hrun ▸ h⟩
    | cons call calls =>
      obtain ⟨t, hstep, -⟩ := run_cons_eq_some.mp hrun
      rw [step, submitScore_of_prevOfEmpty ((h.prevOfEmpty_iff call).mpr hzero)] at hstep
      cases hstep
  · exact h.of_run hpos hrun

variable {Text J : Type} (lib : JsonLibrary Text J T)

/-- The board after these calls, constructed from a file. -/
def after (file : Option Text) (maxSize : ℕ) (highestFirst : Bool) (calls : List (Submission T)) :
    Option (Leaderboard T) :=
  (construct lib file maxSize highestFirst).bind fun b₀ => Library.run step b₀ calls

/-- So does every board that can be reached from any file. -/
theorem after_shows {file : Option Text} {calls : List (Submission T)}
    (hafter : after lib file maxSize highestFirst calls = some b) :
    ∃ rows, b.Shows (loadedDirection lib file maxSize highestFirst) maxSize rows := by
  obtain ⟨b₀, hb₀, hshows⟩ := construct_shows lib file maxSize highestFirst
  rw [after, hb₀, Option.bind_some] at hafter
  exact hshows.of_run_defined hafter

/-- No call of a run looks at an entry of an empty ranking. -/
theorem Shows.guarded_run (h : b.Shows highestFirst maxSize rows) (hpos : 0 < maxSize)
    (calls : List (Submission T)) :
    Guarded step (fun b call => ¬ b.PrevOfEmpty call) b calls := by
  induction calls generalizing b rows with
  | nil => trivial
  | cons call calls ih =>
    constructor
    · exact mt (h.prevOfEmpty_iff call).mp (Nat.pos_iff_ne_zero.mp hpos)
    · intro b' hstep
      obtain ⟨tie, hshows⟩ := h.of_step hpos hstep
      exact ih hshows

/-- Every run of `submit_score` calls stays within the ranking and within the capacity exactly when
the capacity is not zero or there is no call. -/
theorem submitScore_defined_iff (file : Option Text) (maxSize : ℕ) (highestFirst : Bool)
    (calls : List (Submission T)) :
    (∃ b₀, construct lib file maxSize highestFirst = some b₀ ∧
      Guarded step (fun b call => ¬ b.PrevOfEmpty call) b₀ calls ∧
      ∃ b, Library.run step b₀ calls = some b ∧ b.ranking.length ≤ maxSize) ↔
    0 < maxSize ∨ calls = [] := by
  obtain ⟨b₀, hb₀, hshows⟩ := construct_shows lib file maxSize highestFirst
  constructor
  · rintro ⟨b₁, hb₁, hguarded, -⟩
    rw [hb₀, Option.some.injEq] at hb₁
    subst hb₁
    cases calls with
    | nil => exact .inr rfl
    | cons call calls =>
      have hcapacity : maxSize ≠ 0 := mt (hshows.prevOfEmpty_iff call).mpr hguarded.1
      exact .inl (Nat.pos_of_ne_zero hcapacity)
  · rintro (hpos | rfl)
    · obtain ⟨b, rows, hrun, hshows'⟩ := hshows.run hpos calls
      refine ⟨b₀, hb₀, hshows.guarded_run hpos calls, b, hrun, ?_⟩
      rw [hshows'.length_ranking]
      exact hshows'.length_le
    · refine ⟨b₀, hb₀, trivial, b₀, rfl, ?_⟩
      rw [hshows.length_ranking]
      exact hshows.length_le

/-- The first submission to a board that was asked to hold nobody. -/
theorem submitScore_capacity_zero : ∃ b₀ : Leaderboard ℤ,
    construct Json.library none 0 true = some b₀ ∧ b₀.PrevOfEmpty ⟨"a", 1, 10, 0, 0⟩ ∧
      Library.run step b₀ [⟨"a", 1, 10, 0, 0⟩] = none :=
  ⟨_, rfl, by decide, rfl⟩

end Leaderboard
end ServerSimple.GlobalBoards
