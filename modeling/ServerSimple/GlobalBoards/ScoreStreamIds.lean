import ServerSimple.GlobalBoards.ScoreStreamReload

/-! # The ids of a score stream

Loading a file gives every entry the next id and moves the counter on. A submission takes the counter
as it is, so from the first submission on there is an entry with an id that was not given out yet,
and the next one has the same id.
-/

namespace ServerSimple.GlobalBoards

open Library

namespace ScoreStream

variable {T : Type}

/-- The ids decrease from the newest entry to the oldest, and all of them have been given out. -/
structure Identified (s : ScoreStream T) : Prop where
  decreasing : s.entries.Pairwise fun newer older => older.id < newer.id
  issued : ∀ e ∈ s.entries, e.id < s.nextId

theorem Identified.pushRow {s : ScoreStream T} (h : s.Identified) (row : Standing T) :
    (s.pushRow row).Identified := by
  constructor
  · exact List.pairwise_cons.mpr ⟨h.issued, h.decreasing⟩
  · intro e he
    rcases List.mem_cons.mp he with rfl | he
    · exact Nat.lt_succ_self s.nextId
    · exact (h.issued e he).trans (Nat.lt_succ_self s.nextId)

theorem Identified.pushRows {s : ScoreStream T} (h : s.Identified) (rows : List (Standing T)) :
    (rows.foldl ScoreStream.pushRow s).Identified := by
  induction rows generalizing s with
  | nil => exact h
  | cons row rows ih => exact ih (h.pushRow row)

theorem identified_empty (maxSize nextId : ℕ) : (⟨maxSize, nextId, []⟩ : ScoreStream T).Identified :=
  ⟨.nil, nofun⟩

variable {Text J : Type} (lib : JsonLibrary Text J T)

/-- A new stream holds the rows that it took over from its file, if any. -/
theorem exists_construct_eq (file : Option Text) (maxSize : ℕ) :
    ∃ rows : List (Standing T), construct lib file maxSize = rows.foldl pushRow ⟨maxSize, 0, []⟩ := by
  unfold construct load
  cases file.bind lib.parse with
  | none => exact ⟨[], rfl⟩
  | some j =>
    dsimp only
    rw [loadLoop_eq]
    split_ifs
    · exact ⟨[], rfl⟩
    · cases ((lib.elements j).take (maxSize - 0)).mapM (Leaderboard.readRow lib) with
      | none => exact ⟨[], rfl⟩
      | some rows => exact ⟨rows, rfl⟩

theorem maxSize_pushRows (s : ScoreStream T) (rows : List (Standing T)) :
    (rows.foldl pushRow s).maxSize = s.maxSize := by
  induction rows generalizing s with
  | nil => rfl
  | cons row rows ih => exact ih (s.pushRow row)

theorem maxSize_construct (file : Option Text) (maxSize : ℕ) :
    (construct lib file maxSize).maxSize = maxSize := by
  obtain ⟨rows, hrows⟩ := exists_construct_eq lib file maxSize
  rw [hrows, maxSize_pushRows]

/-- Whatever the file, a new stream has its own ids. -/
theorem identified_construct (file : Option Text) (maxSize : ℕ) :
    (construct lib file maxSize).Identified := by
  obtain ⟨rows, hrows⟩ := exists_construct_eq lib file maxSize
  rw [hrows]
  exact (identified_empty maxSize 0).pushRows rows

/-- The submitted entry has the id that the next one will have, unless nothing is kept. -/
theorem identified_submitScore_iff (s : ScoreStream T) (call : ScoreCall T) :
    (s.submitScore call).Identified ↔ s.maxSize = 0 := by
  rw [submitScore, popExcess_eq_take]
  cases hmax : s.maxSize with
  | zero =>
    rw [List.take_zero]
    exact iff_of_true (identified_empty 0 s.nextId) rfl
  | succ m =>
    refine iff_of_false ?_ (Nat.succ_ne_zero m)
    intro hids
    exact lt_irrefl _ (hids.issued _ List.mem_cons_self)

theorem maxSize_submissions (s : ScoreStream T) (calls : List (ScoreCall T)) :
    (calls.foldl submitScore s).maxSize = s.maxSize := by
  induction calls generalizing s with
  | nil => rfl
  | cons call calls ih => exact ih (s.submitScore call)

/-- Whatever the file and the capacity, the entries are told apart by their ids exactly as long as
nothing was submitted to a stream that keeps anything. -/
theorem identified_iff (file : Option Text) (maxSize : ℕ) (calls : List (ScoreCall T)) :
    (calls.foldl submitScore (construct lib file maxSize)).Identified ↔
      calls = [] ∨ maxSize = 0 := by
  rcases List.eq_nil_or_concat calls with rfl | ⟨before, last, rfl⟩
  · exact iff_of_true (identified_construct lib file maxSize) (.inl rfl)
  · rw [List.concat_eq_append, List.foldl_append, List.foldl_cons, List.foldl_nil,
      identified_submitScore_iff, maxSize_submissions, maxSize_construct]
    simp

/-- A stream with two submissions. -/
def twoSubmissions : ScoreStream ℤ :=
  [⟨"a", 1, 10⟩, ⟨"b", 2, 11⟩].foldl submitScore (construct Json.library none 2)

/-- Both have the same id, which is still the next one. -/
theorem identified_two_submissions :
    twoSubmissions = ⟨2, 0, [⟨⟨"b", 11, 0⟩, 2⟩, ⟨⟨"a", 10, 0⟩, 1⟩]⟩ ∧ ¬ twoSubmissions.Identified := by
  have hboard : twoSubmissions = ⟨2, 0, [⟨⟨"b", 11, 0⟩, 2⟩, ⟨⟨"a", 10, 0⟩, 1⟩]⟩ := by
    simp only [twoSubmissions, List.foldl_cons, List.foldl_nil, submitScore, popExcess_eq_take]
    rfl
  refine ⟨hboard, ?_⟩
  rw [hboard]
  intro h
  exact absurd (h.issued _ List.mem_cons_self) (by decide)

end ScoreStream
end ServerSimple.GlobalBoards
