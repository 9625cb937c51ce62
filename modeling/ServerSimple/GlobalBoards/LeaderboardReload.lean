import ServerSimple.Library.Traces
import ServerSimple.GlobalBoards.LeaderboardQueries
import ServerSimple.GlobalBoards.Storage

/-! # Saving and reloading a leaderboard

A board that ranks highest first writes its rows in the order of the ranking. Loading them in that
order appends each one to those before, so the new board shows the same rows although its ids are
other ones. As ids decide only between a score and the same score again, nobody who does not repeat
a stored score can tell the two boards apart.
-/

namespace ServerSimple.GlobalBoards

open Library

/-! ## What is written is read -/

namespace Leaderboard

variable {T Text J : Type} (lib : JsonLibrary Text J T)

/-- The object that `save` writes for a row. -/
def itemOf (row : Standing T) : J :=
  lib.object [(leaderboardNameKey, lib.ofString row.name),
    (leaderboardScoreKey, lib.ofScore row.score),
    (leaderboardTimestampKey, lib.ofInt64 row.timestamp)]

variable {lib}

theorem readRow_itemOf (laws : lib.Lawful) (row : Standing T) :
    readRow lib (itemOf lib row) = some row := by
  have hkeys : [leaderboardNameKey, leaderboardScoreKey, leaderboardTimestampKey].Nodup := by decide
  have hfield := laws.field_object [(leaderboardNameKey, lib.ofString row.name),
    (leaderboardScoreKey, lib.ofScore row.score), (leaderboardTimestampKey, lib.ofInt64 row.timestamp)]
    hkeys
  have hname : lib.field (itemOf lib row) leaderboardNameKey = some (lib.ofString row.name) :=
    hfield leaderboardNameKey
  have hscore : lib.field (itemOf lib row) leaderboardScoreKey = some (lib.ofScore row.score) :=
    hfield leaderboardScoreKey
  have htimestamp :
      lib.field (itemOf lib row) leaderboardTimestampKey = some (lib.ofInt64 row.timestamp) :=
    hfield leaderboardTimestampKey
  have hobject : lib.isObject (itemOf lib row) = true := laws.isObject_object _
  simp [readRow, readItem, hobject, hname, hscore, htimestamp, laws.getString_ofString,
    laws.getScore_ofScore, laws.getInt64_ofInt64]

theorem written_itemOf (row : Standing T) : lib.Written (itemOf lib row) := by
  apply JsonLibrary.Written.object
  intro f hf
  simp only [List.mem_cons, List.not_mem_nil, or_false] at hf
  rcases hf with rfl | rfl | rfl
  · exact .string row.name
  · exact .score row.score
  · exact .int64 row.timestamp

theorem mapM_readRow_itemOf (laws : lib.Lawful) (rows : List (Standing T)) :
    (rows.map (itemOf lib)).mapM (readRow lib) = some rows :=
  mapM_map_of_forall (readRow_itemOf laws) rows

theorem parse_rows (laws : lib.Lawful) {rows : List (Standing T)} {text : Text}
    (hdump : lib.dump (lib.array (rows.map (itemOf lib))) = some text) :
    (some text).bind lib.parse = some (lib.array (rows.map (itemOf lib))) := by
  apply laws.parse_file _ hdump
  intro item hitem
  obtain ⟨row, _, rfl⟩ := List.mem_map.mp hitem
  exact written_itemOf row

/-- A file that holds the dump of these rows loads as many of them as fit. -/
theorem loadedRows_dump (laws : lib.Lawful) {rows : List (Standing T)}
    (hnames : (rows.map Standing.name).Nodup) {text : Text}
    (hdump : lib.dump (lib.array (rows.map (itemOf lib))) = some text) (m : ℕ) :
    loadedRows lib (some text) m = some (rows.take m) := by
  have hparse := parse_rows laws hdump
  have hnodup : ((rows.take m).map Standing.name).Nodup :=
    hnames.sublist ((List.take_sublist m rows).map _)
  rw [loadedRows, hparse]
  simp only [laws.isArray_array, laws.elements_array, addedRows, ← List.map_take,
    mapM_readRow_itemOf laws, List.nil_append, hnodup]
  simp

end Leaderboard

/-! ## The new board shows the same -/

variable {T : Type} [LinearOrder T] {highestFirst : Bool} {maxSize : ℕ} {rows : List (Standing T)}

/-- What an equal score counts for does not matter if there is none. -/
theorem Standing.submit_tie {call : Submission T}
    (hrepeat : ∀ row ∈ rows, row.name = call.player → row.score ≠ call.score) (tie tie' : Bool) :
    submit highestFirst maxSize rows call tie = submit highestFirst maxSize rows call tie' := by
  unfold submit
  cases hfind : rows.find? fun row => row.name = call.player with
  | none => rfl
  | some old =>
    have hname : old.name = call.player := by simpa using List.find?_some hfind
    have hne := (hrepeat old (List.mem_of_find?_eq_some hfind) hname).symm
    simp [hne]

namespace Leaderboard

/-- Rows that come in order are appended. -/
theorem insertRows_eq_append {standings : List (Standing T)}
    (h : (standings ++ rows).Pairwise fun a b => ¬ b.Ahead highestFirst a) :
    insertRows highestFirst rows standings = standings ++ rows := by
  induction rows generalizing standings with
  | nil => rw [List.append_nil]; rfl
  | cons row rows ih =>
    have hbehind : ∀ other ∈ standings, ¬ row.Ahead highestFirst other := fun other hother =>
      (List.pairwise_append.mp h).2.2 other hother row List.mem_cons_self
    rw [List.append_cons] at h ⊢
    rw [← ih h, ← orderedInsert_eq_append hbehind]
    rfl

variable {Text J : Type} {lib : JsonLibrary Text J T} {b : Leaderboard T}

theorem Shows.toJson (h : b.Shows highestFirst maxSize rows) :
    b.toJson lib = some (lib.array (rows.map (itemOf lib))) := by
  obtain ⟨es, hes, rfl⟩ := h.ranked_returns
  rw [Leaderboard.toJson, hes, List.map_map]
  rfl

variable (lib) in
/-- A save either fails and leaves the file as it was, or puts the dump of the rows in its place. -/
theorem Shows.save (h : b.Shows highestFirst maxSize rows) (disk : Disk Text)
    (io : SaveOutcome Text) :
    ∃ saved disk', b.save lib disk io = some (saved, disk') ∧
      (saved = false ∧ disk'.file = disk.file ∨
        saved = true ∧ ∃ text, lib.dump (lib.array (rows.map (itemOf lib))) = some text ∧
          disk'.file = some text) := by
  rw [save_eq, h.toJson, Option.map_some]
  refine ⟨_, _, rfl, ?_⟩
  rcases saveFile_file (lib.dump (lib.array (rows.map (itemOf lib)))) disk io with
    hfailed | ⟨hsaved, hsome, hfile⟩
  · exact .inl hfailed
  · obtain ⟨text, htext⟩ := Option.isSome_iff_exists.mp hsome
    exact .inr ⟨hsaved, text, htext, hfile.trans htext⟩

/-- A board that is constructed from the file of a highest-first board shows the rows that fit. -/
theorem Shows.reload (laws : lib.Lawful) (h : b.Shows true maxSize rows) {text : Text}
    (hdump : lib.dump (lib.array (rows.map (itemOf lib))) = some text) (m : ℕ) :
    ∃ b', construct lib (some text) m true = some b' ∧ b'.Shows true m (rows.take m) := by
  obtain ⟨b', hb', h'⟩ := construct_shows lib (some text) m true
  have hsorted := h.ranked.sorted.sublist (List.take_sublist m rows)
  have hstandings : loadedStandings lib (some text) m = rows.take m := by
    rw [loadedStandings, loadedRows_dump laws h.ranked.names hdump]
    exact insertRows_eq_append hsorted
  rw [loadedDirection_true, hstandings] at h'
  exact ⟨b', hb', h'⟩

/-! ## Sessions -/

/-- What is done to a board and its file. -/
inductive Command (T Text : Type) where
  | submit (call : Submission T)
  | query (query : Query)
  | reload (io : SaveOutcome Text)

/-- What is seen of a board. -/
inductive Observation (T : Type) where
  | placed (placement : Placement)
  | listed (rows : List (Standing T))
  deriving DecidableEq

variable (lib) in
/-- A command on a board of the direction highest first. Reloading saves the board and, if that
succeeds, constructs a new one of the same capacity from the file. -/
def perform : Leaderboard T × Disk Text → Command T Text →
    Option ((Leaderboard T × Disk Text) × List (Observation T))
  | (b, disk), .submit call =>
    (b.submitScore call).map fun r => ((r.1, disk), [.placed r.2])
  | (b, disk), .query query =>
    (b.answer query).map fun es => ((b, disk), [.listed (es.map LeaderboardEntry.standing)])
  | (b, disk), .reload io =>
    (b.save lib disk io).bind fun r =>
      if r.1 then (construct lib r.2.file b.maxSize true).map fun b' => ((b', r.2), [])
      else some ((b, r.2), [])

def Command.isReload : Command T Text → Bool
  | .reload _ => true
  | _ => false

/-- A submission does not repeat the stored score of its player. -/
def Command.NoRepeat (s : Leaderboard T × Disk Text) : Command T Text → Prop
  | .submit call => s.1.NoRepeat call
  | _ => True

instance (s : Leaderboard T × Disk Text) : (c : Command T Text) → Decidable (c.NoRepeat s)
  | .submit call => inferInstanceAs (Decidable (s.1.NoRepeat call))
  | .query _ => inferInstanceAs (Decidable True)
  | .reload _ => inferInstanceAs (Decidable True)

/-- Both boards show the same rows. -/
def SameRows (maxSize : ℕ) (s s' : Leaderboard T × Disk Text) : Prop :=
  ∃ rows, s.1.Shows true maxSize rows ∧ s'.1.Shows true maxSize rows

/-- The same is seen of both. -/
theorem sameRows_perform (hpos : 0 < maxSize) (s s' : Leaderboard T × Disk Text)
    (command : Command T Text) (h : SameRows maxSize s s') (hcommand : command.isReload = false)
    (hrepeat : command.NoRepeat s') :
    ∃ t t' out, perform lib s command = some (t, out) ∧ perform lib s' command = some (t', out) ∧
      SameRows maxSize t t' := by
  obtain ⟨b, disk⟩ := s
  obtain ⟨b', disk'⟩ := s'
  obtain ⟨rows, hs, hs'⟩ := h
  cases command with
  | submit call =>
    obtain ⟨c, tie, hsubmit, hc⟩ := hs.submitScore hpos call
    obtain ⟨c', tie', hsubmit', hc'⟩ := hs'.submitScore hpos call
    rw [Standing.submit_tie (hs'.noRepeat_iff.mp hrepeat) tie' tie] at hsubmit' hc'
    exact ⟨(c, disk), (c', disk'), _, congrArg (Option.map _) hsubmit,
      congrArg (Option.map _) hsubmit', _, hc, hc'⟩
  | query query =>
    obtain ⟨es, hes, hrows⟩ := hs.answer query
    obtain ⟨es', hes', hrows'⟩ := hs'.answer query
    refine ⟨(b, disk), (b', disk'), [.listed (query.select rows)], ?_, ?_, rows, hs, hs'⟩
    · rw [← hrows]
      exact congrArg (Option.map _) hes
    · rw [← hrows']
      exact congrArg (Option.map _) hes'
  | reload io => cases hcommand

/-- A reload of one of them keeps them the same. -/
theorem sameRows_reload (laws : lib.Lawful) (s s' : Leaderboard T × Disk Text)
    (command : Command T Text) (h : SameRows maxSize s s') (hcommand : command.isReload = true) :
    ∃ t, perform lib s command = some (t, []) ∧ SameRows maxSize t s' := by
  obtain ⟨b, disk⟩ := s
  obtain ⟨rows, hs, hs'⟩ := h
  cases command with
  | submit call => cases hcommand
  | query query => cases hcommand
  | reload io =>
    obtain ⟨saved, disk', hsave, ⟨rfl, _⟩ | ⟨rfl, text, hdump, hfile⟩⟩ := hs.save lib disk io
    · exact ⟨(b, disk'), by rw [perform, hsave]; rfl, rows, hs, hs'⟩
    · obtain ⟨b', hb', hshows⟩ := hs.reload laws hdump maxSize
      rw [List.take_of_length_le hs.length_le] at hshows
      have hmaxSize : b.maxSize = maxSize := hs.maxSize_eq
      refine ⟨(b', disk'), ?_, rows, hshows, hs'⟩
      rw [perform, hsave, Option.bind_some, if_pos rfl, hfile, hmaxSize, hb']
      rfl

/-- Leaving out all reloads changes nothing that is seen of a highest-first board, as long as nobody
repeats a stored score; and a reload with another capacity shows the first entries of the saved
ranking. -/
theorem reload_unobservable (laws : lib.Lawful) (maxSize : ℕ) (hpos : 0 < maxSize)
    (disk : Disk Text) (commands : List (Command T Text))
    (hrepeat : ∀ b₀, construct lib disk.file maxSize true = some b₀ →
      Guarded (fun s command => (perform lib s command).map Prod.fst)
        (fun s command => command.NoRepeat s) (b₀, disk)
        (commands.filter fun command => !command.isReload)) :
    ∃ b₀ s s' seen, construct lib disk.file maxSize true = some b₀ ∧
      trace (perform lib) (b₀, disk) commands = some (s, seen) ∧
      trace (perform lib) (b₀, disk) (commands.filter fun command => !command.isReload) =
        some (s', seen) ∧
      ∀ io disk' m, s.1.save lib s.2 io = some (true, disk') →
        ∃ b es es', construct lib disk'.file m true = some b ∧ s.1.ranked = some es ∧
          b.ranked = some es' ∧
          es'.map LeaderboardEntry.standing = (es.map LeaderboardEntry.standing).take m := by
  obtain ⟨b₀, hb₀, hshows⟩ := construct_shows lib disk.file maxSize true
  rw [loadedDirection_true] at hshows
  have hsame : SameRows maxSize (b₀, disk) (b₀, disk) := ⟨_, hshows, hshows⟩
  obtain ⟨s, s', seen, hs, hs', rows, hrows, -⟩ :=
    trace_erase_silent (SameRows maxSize) (sameRows_perform hpos) (sameRows_reload laws) hsame
      (hrepeat b₀ hb₀)
  refine ⟨b₀, s, s', seen, hb₀, hs, hs', ?_⟩
  intro io disk' m hsave
  obtain ⟨saved, disk'', hsave', hcases⟩ := hrows.save lib s.2 io
  obtain ⟨rfl, rfl⟩ := Prod.mk.inj (Option.some.inj (hsave.symm.trans hsave'))
  obtain ⟨hfalse, _⟩ | ⟨_, text, hdump, hfile⟩ := hcases
  · cases hfalse
  · obtain ⟨b, hb, hb'⟩ := hrows.reload laws hdump m
    obtain ⟨es, hes, hstandings⟩ := hrows.ranked_returns
    obtain ⟨es', hes', hstandings'⟩ := hb'.ranked_returns
    exact ⟨b, es, es', hfile ▸ hb, hes, hes', by rw [hstandings', hstandings]⟩

/-- Two entries that tie on score and timestamp are saved and reloaded, and then one is evicted. -/
def tiedSession : List (Command ℤ Json) :=
  [.submit ⟨"a", 5, 1, 0, 0⟩, .submit ⟨"b", 5, 1, 0, 0⟩, .reload ⟨true, true, true, .array []⟩,
    .submit ⟨"c", 6, 1, 0, 0⟩, .query (.topScores 2), .submit ⟨"b", 5, 2, 0, 0⟩,
    .query (.rangeFromBottom 0 1)]

theorem reload_unobservable_tied : ∃ b₀ s s' seen,
    construct Json.library none 2 true = some b₀ ∧
      trace (perform Json.library) (b₀, ⟨none, none⟩) tiedSession = some (s, seen) ∧
      trace (perform Json.library) (b₀, ⟨none, none⟩)
        (tiedSession.filter fun command => !command.isReload) = some (s', seen) ∧
      ∀ io disk' m, s.1.save Json.library s.2 io = some (true, disk') →
        ∃ b es es', construct Json.library disk'.file m true = some b ∧ s.1.ranked = some es ∧
          b.ranked = some es' ∧
          es'.map LeaderboardEntry.standing = (es.map LeaderboardEntry.standing).take m :=
  reload_unobservable Json.library_lawful 2 (by decide) ⟨none, none⟩ tiedSession
    (by
      intro b₀ hb₀
      cases hb₀
      decide)

end Leaderboard
end ServerSimple.GlobalBoards
