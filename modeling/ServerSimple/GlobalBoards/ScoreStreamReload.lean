import ServerSimple.Library.Recent
import ServerSimple.GlobalBoards.LeaderboardReload
import ServerSimple.GlobalBoards.ScoreStream

/-! # What a score stream shows, before and after a reload

A stream shows the newest submissions. Its file lists them oldest first, and a stream that is
constructed from the file takes the first items of it.
-/

namespace ServerSimple.GlobalBoards

open Library

/-- What is left of an entry without its id. -/
def ScoreStreamEntry.standing {T : Type} (e : ScoreStreamEntry T) : Standing T :=
  ⟨e.name, e.score, e.timestamp⟩

/-- The row that a submission asks for. -/
def ScoreCall.standing {T : Type} (call : ScoreCall T) : Standing T := ⟨call.name, call.score, call.now⟩

namespace ScoreStream

variable {T : Type}

/-- The rows of a stream, the newest first. -/
def rows (s : ScoreStream T) : List (Standing T) := s.getAll.map ScoreStreamEntry.standing

theorem popExcess_eq_take (maxSize : ℕ) (entries : List (ScoreStreamEntry T)) :
    popExcess maxSize entries = entries.take maxSize := by
  fun_induction popExcess maxSize entries with
  | case1 entries hmore ih => rw [ih, List.dropLast_eq_take, List.take_take, min_eq_left (by omega)]
  | case2 entries hfits => rw [List.take_of_length_le (by omega)]

theorem rows_submitScore (s : ScoreStream T) (call : ScoreCall T) :
    (s.submitScore call).rows.reverse = (s.rows.reverse ++ [call.standing]).rtake s.maxSize := by
  have hrows : (s.submitScore call).rows = (call.standing :: s.rows).take s.maxSize := by
    simp only [rows, getAll, submitScore, popExcess_eq_take, List.map_take, List.map_cons]
    rfl
  rw [hrows, List.rtake_eq_reverse_take_reverse, List.reverse_append, List.reverse_reverse]
  rfl

/-- After any submissions, the newest of those that were there and of the new ones. -/
theorem rows_submissions (s : ScoreStream T) (hs : s.rows.length ≤ s.maxSize)
    (calls : List (ScoreCall T)) :
    (calls.foldl submitScore s).rows.reverse =
      (s.rows.reverse ++ calls.map ScoreCall.standing).rtake s.maxSize := by
  induction calls generalizing s with
  | nil =>
    rw [List.map_nil, List.append_nil, rtake_of_length_le (by rwa [List.length_reverse])]
    rfl
  | cons call calls ih =>
    have hstep := rows_submitScore s call
    have hfits : (s.submitScore call).rows.length ≤ (s.submitScore call).maxSize := by
      rw [← List.length_reverse, hstep, length_rtake]
      exact min_le_left _ _
    have hrest := ih (s.submitScore call) hfits
    rw [hstep] at hrest
    rw [List.foldl_cons, hrest, List.map_cons]
    have hmaxSize : (s.submitScore call).maxSize = s.maxSize := rfl
    rw [hmaxSize, rtake_rtake_append, List.append_assoc]
    rfl

variable {Text J : Type} (lib : JsonLibrary Text J T)

/-- A new stream without a file shows the newest of its submissions. -/
theorem rows_from_start (maxSize : ℕ) (calls : List (ScoreCall T)) :
    (calls.foldl submitScore (construct lib none maxSize)).rows =
      ((calls.map ScoreCall.standing).rtake maxSize).reverse := by
  have hrows := rows_submissions (construct lib none maxSize) (Nat.zero_le _) calls
  exact List.reverse_eq_iff.mp hrows

/-! ## Loading -/

/-- Put a row to the front, as `load` does. -/
def pushRow (s : ScoreStream T) (row : Standing T) : ScoreStream T :=
  { s with nextId := s.nextId + 1, entries := ⟨⟨row.name, row.timestamp, s.nextId⟩, row.score⟩ :: s.entries }

theorem rows_pushRows (s : ScoreStream T) (new : List (Standing T)) :
    (new.foldl pushRow s).rows = new.reverse ++ s.rows := by
  induction new generalizing s with
  | nil => rfl
  | cons row new ih =>
    rw [List.foldl_cons, ih, List.reverse_cons, List.append_assoc]
    rfl

/-- The loop pushes the rows of the items that still fit, if they all are rows. -/
theorem loadLoop_eq (items : List J) (itemCount : ℕ) (new : ScoreStream T) :
    loadLoop lib items itemCount new =
      ((items.take (new.maxSize - itemCount)).mapM (Leaderboard.readRow lib)).map
        (List.foldl pushRow new) := by
  induction items generalizing itemCount new with
  | nil => simp [loadLoop]
  | cons item items ih =>
    by_cases hfull : itemCount + 1 > new.maxSize
    · have hzero : new.maxSize - itemCount = 0 := by omega
      rw [loadLoop, if_pos hfull, hzero]
      rfl
    · have hcount : new.maxSize - itemCount = new.maxSize - (itemCount + 1) + 1 := by omega
      have hread : readItem lib item = Leaderboard.readItem lib item := rfl
      rw [loadLoop, if_neg hfull, hcount, List.take_succ_cons, List.mapM_cons, hread,
        Leaderboard.readRow]
      cases Leaderboard.readItem lib item with
      | none => rfl
      | some row =>
        dsimp only
        rw [ih, Option.map_some, Option.bind_eq_bind, Option.bind_some]
        cases (items.take (new.maxSize - (itemCount + 1))).mapM (Leaderboard.readRow lib) <;> rfl

variable {lib}

/-- A stream that is constructed from the dump of some rows shows as many of the first ones as fit. -/
theorem rows_construct (laws : lib.Lawful) {saved : List (Standing T)} {text : Text}
    (hdump : lib.dump (lib.array (saved.map (Leaderboard.itemOf lib))) = some text) (maxSize : ℕ) :
    (construct lib (some text) maxSize).rows = (saved.take maxSize).reverse := by
  have hload : loadLoop lib (saved.map (Leaderboard.itemOf lib)) 0 ⟨maxSize, 0, []⟩ =
      some ((saved.take maxSize).foldl pushRow ⟨maxSize, 0, []⟩) := by
    rw [loadLoop_eq, Nat.sub_zero, ← List.map_take, Leaderboard.mapM_readRow_itemOf laws]
    rfl
  simp only [construct, load, Leaderboard.parse_rows laws hdump, laws.isArray_array,
    laws.elements_array, hload]
  rw [if_neg (by decide), rows_pushRows]
  exact List.append_nil _

theorem toJson_eq (s : ScoreStream T) :
    s.toJson lib = lib.array (s.rows.reverse.map (Leaderboard.itemOf lib)) := by
  rw [toJson, rows, ← List.map_reverse, List.map_map]
  rfl

/-- After a successful save, a stream constructed from the file shows the oldest rows. -/
theorem rows_reload (laws : lib.Lawful) {s : ScoreStream T} {disk disk' : Leaderboard.Disk Text}
    {io : Leaderboard.SaveOutcome Text} (hsave : s.save lib disk io = (true, disk')) (maxSize : ℕ) :
    (construct lib disk'.file maxSize).rows = (s.rows.reverse.take maxSize).reverse := by
  obtain ⟨text, hdump, hfile⟩ := file_of_saveFile hsave
  rw [toJson_eq] at hdump
  rw [hfile, rows_construct laws hdump]

end ScoreStream
end ServerSimple.GlobalBoards
