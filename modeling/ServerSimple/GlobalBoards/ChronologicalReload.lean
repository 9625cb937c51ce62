import ServerSimple.GlobalBoards.NameboardRows
import ServerSimple.GlobalBoards.ScoreStreamIds
import ServerSimple.GlobalBoards.Sessions

/-! # Reloading a chronological board with the same capacity

The score stream is saved oldest first and loaded by pushing to the front; the nameboard is saved in
the order of its ranking and gets new ids. Both show the same rows afterwards, and what the calls
return and the queries list depends on the rows alone.
-/

namespace ServerSimple.GlobalBoards

open Library

namespace Nameboard

/-- Both boards show the same rows. -/
def SameRows (maxSize : ℕ) (b b' : Nameboard) : Prop :=
  ∃ es es', b.Shows maxSize es ∧ b'.Shows maxSize es' ∧ es.map Entry.row = es'.map Entry.row

/-- The rows that a query lists. -/
def listed (b : Nameboard) (query : Query) : Option (List (String × ℤ)) :=
  (b.answer query).map fun es => es.map Entry.row

theorem Shows.listed {b : Nameboard} {maxSize : ℕ} {es : List Entry} (h : b.Shows maxSize es)
    (query : Query) : b.listed query = some (query.select (es.map Entry.row)) := by
  rw [Nameboard.listed, h.answer, Option.map_some, query.map_select]

variable {Text J T : Type} {lib : JsonLibrary Text J T}

theorem unobservable_sameRows (laws : lib.Lawful) (maxSize : ℕ) :
    (board lib).Unobservable listed maxSize (SameRows maxSize) where
  call b b' call := by
    rintro ⟨es, es', h, h', hrows⟩
    obtain ⟨d, hadd, hd, -⟩ := h.addName call
    obtain ⟨d', hadd', hd', -⟩ := h'.addName call
    have hadded := h.added_eq call
    rw [hrows, ← h'.added_eq call, Prod.mk.injEq] at hadded
    refine ⟨d, d', _, hadd, ?_, _, _, hd, hd', hadded.1⟩
    rw [hadded.2]
    exact hadd'
  query b b' query := by
    rintro ⟨es, es', h, h', hrows⟩
    exact ⟨_, h.listed query, hrows ▸ h'.listed query⟩
  reload b b' := by
    rintro ⟨es, es', h, h', hrows⟩
    refine ⟨_, congrArg (Option.map lib.dump) h.toJson, ?_⟩
    intro text hdump
    obtain ⟨d, ds, hconstruct, hd, hds⟩ := h.construct_dump laws hdump maxSize
    refine ⟨d, hconstruct, ds, es', hd, h', ?_⟩
    rw [hds, List.take_of_length_le (by rw [List.length_map]; exact h.length_le), hrows]

end Nameboard

namespace ScoreStream

variable {T : Type}

/-- The queries of a stream. -/
inductive Query where
  | all
  | fromFirst (amount : ℕ)
  | rangeFromTop (start stop : ℕ)
  | rangeFromBottom (start stop : ℕ)

def answer (s : ScoreStream T) : Query → List (ScoreStreamEntry T)
  | .all => s.getAll
  | .fromFirst amount => s.getFromFirst amount
  | .rangeFromTop start stop => s.getInRangeFromTop start stop
  | .rangeFromBottom start stop => s.getInRangeFromBottom start stop

/-- The rows that a query lists. -/
def listed (s : ScoreStream T) (query : Query) : Option (List (Standing T)) :=
  some ((s.answer query).map ScoreStreamEntry.standing)

/-- Both streams show the same rows, within the same capacity. -/
structure SameRows (maxSize : ℕ) (s s' : ScoreStream T) : Prop where
  rows : s.rows = s'.rows
  capacity : s.maxSize = maxSize ∧ s'.maxSize = maxSize
  length_le : s.rows.length ≤ maxSize

/-- A query lists a part of the rows that depends on their number alone. -/
theorem SameRows.listed {maxSize : ℕ} {s s' : ScoreStream T} (h : SameRows maxSize s s')
    (query : Query) : s.listed query = s'.listed query := by
  have hrows : s.getAll.map ScoreStreamEntry.standing = s'.getAll.map ScoreStreamEntry.standing :=
    h.rows
  have hlength : s.getAll.length = s'.getAll.length := by
    simpa using congrArg List.length hrows
  unfold ScoreStream.listed answer
  cases query with
  | all => rw [hrows]
  | fromFirst amount =>
    simp only [getFromFirst, hlength]
    split_ifs
    · rw [List.map_take, List.map_take, hrows]
    · rw [hrows]
  | rangeFromTop start stop =>
    simp only [getInRangeFromTop, hlength]
    split_ifs
    · rfl
    · rw [List.map_take, List.map_take, List.map_drop, List.map_drop, hrows]
  | rangeFromBottom start stop =>
    simp only [getInRangeFromBottom, hlength]
    split_ifs
    · rfl
    · rw [List.map_take, List.map_take, List.map_drop, List.map_drop, hrows]

theorem SameRows.submitScore {maxSize : ℕ} {s s' : ScoreStream T} (h : SameRows maxSize s s')
    (call : ScoreCall T) : SameRows maxSize (s.submitScore call) (s'.submitScore call) := by
  have hrows := rows_submitScore s call
  have hrows' := rows_submitScore s' call
  refine ⟨?_, h.capacity, ?_⟩
  · rw [← List.reverse_inj, hrows, hrows', h.rows, h.capacity.1, h.capacity.2]
  · rw [← List.length_reverse, hrows, length_rtake, h.capacity.1]
    exact min_le_left _ _

variable {Text J : Type} {lib : JsonLibrary Text J T}

theorem unobservable_sameRows (laws : lib.Lawful) (maxSize : ℕ) :
    (board lib).Unobservable listed maxSize (SameRows maxSize) where
  call s s' call h := ⟨_, _, (), rfl, rfl, h.submitScore call⟩
  query s s' query h := ⟨_, rfl, (h.listed query).symm⟩
  reload s s' h := by
    refine ⟨_, rfl, ?_⟩
    intro text hdump
    rw [toJson_eq] at hdump
    have hrows : (construct lib (some text) maxSize).rows = s.rows := by
      rw [rows_construct laws hdump, List.take_of_length_le, List.reverse_reverse]
      rw [List.length_reverse]
      exact h.length_le
    exact ⟨_, rfl, hrows.trans h.rows, ⟨maxSize_construct lib _ maxSize, h.capacity.2⟩,
      hrows ▸ h.length_le⟩

theorem run_board_step (s : ScoreStream T) (calls : List (ScoreCall T)) :
    run (board lib).step s calls = some (calls.foldl submitScore s) := by
  induction calls generalizing s with
  | nil => rfl
  | cons call calls ih => exact ih (s.submitScore call)

end ScoreStream

variable {Text J T : Type} {lib : JsonLibrary Text J T}

/-- In a session with a board that starts without a file, leaving out all reloads changes nothing of
what the calls return and the queries list; and a stream shows the newest submissions at all times,
the newest first. -/
theorem chronological_reload_unobservable (laws : lib.Lawful) (maxSize : ℕ) (temp : Option Text) :
    (∀ commands : List (Board.Command (ScoreCall T) ScoreStream.Query Text),
      ∃ s s' seen,
        trace ((ScoreStream.board lib).perform ScoreStream.listed maxSize)
          (ScoreStream.construct lib none maxSize, ⟨none, temp⟩) commands = some (s, seen) ∧
        trace ((ScoreStream.board lib).perform ScoreStream.listed maxSize)
          (ScoreStream.construct lib none maxSize, ⟨none, temp⟩)
          (commands.filter fun command => !command.isReload) = some (s', seen) ∧
        s.1.rows = (((Board.calls commands).map ScoreCall.standing).rtake maxSize).reverse) ∧
    ∀ commands : List (Board.Command NameCall Nameboard.Query Text),
      ∃ b₀ s s' seen, Nameboard.construct lib none maxSize = some b₀ ∧
        trace ((Nameboard.board lib).perform Nameboard.listed maxSize) (b₀, ⟨none, temp⟩) commands =
          some (s, seen) ∧
        trace ((Nameboard.board lib).perform Nameboard.listed maxSize) (b₀, ⟨none, temp⟩)
          (commands.filter fun command => !command.isReload) = some (s', seen) := by
  constructor
  · intro commands
    have hstart : ScoreStream.SameRows maxSize (ScoreStream.construct lib none maxSize)
        (ScoreStream.construct lib none maxSize) := ⟨rfl, ⟨rfl, rfl⟩, Nat.zero_le _⟩
    obtain ⟨s, s', seen, hs, hs', hsame⟩ :=
      (ScoreStream.unobservable_sameRows laws maxSize).trace hstart ⟨none, temp⟩ commands
    refine ⟨s, s', seen, hs, hs', ?_⟩
    have hrun := Board.run_of_trace (by simp) hs'
    rw [Board.calls_filter, ScoreStream.run_board_step, Option.some.injEq] at hrun
    rw [hsame.rows, ← hrun, ScoreStream.rows_from_start]
  · intro commands
    obtain ⟨b₀, hb₀, hshows⟩ := Nameboard.construct_shows lib none maxSize
    have hstart : Nameboard.SameRows maxSize b₀ b₀ := ⟨_, _, hshows, hshows, rfl⟩
    obtain ⟨s, s', seen, hs, hs', -⟩ :=
      (Nameboard.unobservable_sameRows laws maxSize).trace hstart ⟨none, temp⟩ commands
    exact ⟨b₀, s, s', seen, hb₀, hs, hs'⟩

/-- A stream is reloaded when it is full, and goes on. -/
def streamSession : List (Board.Command (ScoreCall ℤ) ScoreStream.Query Json) :=
  [.call ⟨"a", 1, 10⟩, .call ⟨"b", 2, 10⟩, .reload ⟨true, true, true, .array []⟩, .call ⟨"a", 3, 9⟩,
    .query .all]

/-- Two names of the same second are reloaded, and a third one of that second evicts the first. -/
def nameSession : List (Board.Command NameCall Nameboard.Query Json) :=
  [.call ⟨"a", 10⟩, .call ⟨"b", 10⟩, .reload ⟨true, true, true, .array []⟩, .call ⟨"c", 10⟩,
    .query (.rangeFromBottom 0 2)]

theorem chronological_reload_unobservable_tied :
    (∃ s s' seen,
      trace ((ScoreStream.board Json.library).perform ScoreStream.listed 2)
        (ScoreStream.construct Json.library none 2, ⟨none, none⟩) streamSession = some (s, seen) ∧
      trace ((ScoreStream.board Json.library).perform ScoreStream.listed 2)
        (ScoreStream.construct Json.library none 2, ⟨none, none⟩)
        (streamSession.filter fun command => !command.isReload) = some (s', seen) ∧
      s.1.rows = (((Board.calls streamSession).map ScoreCall.standing).rtake 2).reverse) ∧
    ∃ b₀ s s' seen, Nameboard.construct Json.library none 2 = some b₀ ∧
      trace ((Nameboard.board Json.library).perform Nameboard.listed 2) (b₀, ⟨none, none⟩)
        nameSession = some (s, seen) ∧
      trace ((Nameboard.board Json.library).perform Nameboard.listed 2) (b₀, ⟨none, none⟩)
        (nameSession.filter fun command => !command.isReload) = some (s', seen) :=
  ⟨(chronological_reload_unobservable Json.library_lawful 2 none).1 streamSession,
    (chronological_reload_unobservable Json.library_lawful 2 none).2 nameSession⟩

end ServerSimple.GlobalBoards
