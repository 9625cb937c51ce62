import ServerSimple.GlobalBoards.Leaderboard

/-! # The file operations of the boards

Every board is saved in the same way: its dump goes to a temporary file, which is then renamed.
-/

namespace ServerSimple.GlobalBoards

/-- The file operations of `save`, which `nameboard` and `score_stream` share: write the dump to the
temporary file, and rename it. -/
def saveFile {Text : Type} (dump : Option Text) (disk : Leaderboard.Disk Text)
    (io : Leaderboard.SaveOutcome Text) : Bool × Leaderboard.Disk Text :=
  if io.opened = false then (false, disk)
  else
    match dump with
    | none => (false, { disk with temp := none })
    | some text =>
      if io.written = false then (false, { disk with temp := some io.torn })
      else if io.renamed = false then (false, { disk with temp := none })
      else (true, ⟨some text, none⟩)

/-- Only the last operation changes the file, and it puts the whole dump in its place. -/
theorem saveFile_file {Text : Type} (dump : Option Text) (disk : Leaderboard.Disk Text)
    (io : Leaderboard.SaveOutcome Text) :
    (saveFile dump disk io).1 = false ∧ (saveFile dump disk io).2.file = disk.file ∨
      (saveFile dump disk io).1 = true ∧ dump.isSome = true ∧
        (saveFile dump disk io).2.file = dump := by
  unfold saveFile
  by_cases hopened : io.opened = false
  · rw [if_pos hopened]
    exact .inl ⟨rfl, rfl⟩
  · rw [if_neg hopened]
    cases dump with
    | none => exact .inl ⟨rfl, rfl⟩
    | some text =>
      dsimp only
      split_ifs
      · exact .inl ⟨rfl, rfl⟩
      · exact .inl ⟨rfl, rfl⟩
      · exact .inr ⟨rfl, rfl, rfl⟩

variable {Text : Type} {dump : Option Text} {disk disk' : Leaderboard.Disk Text}
  {io : Leaderboard.SaveOutcome Text}

theorem file_of_saveFile (h : saveFile dump disk io = (true, disk')) :
    ∃ text, dump = some text ∧ disk'.file = some text := by
  have hfile := saveFile_file dump disk io
  rw [h] at hfile
  rcases hfile with ⟨hfalse, _⟩ | ⟨_, hsome, hdump⟩
  · cases hfalse
  · obtain ⟨text, htext⟩ := Option.isSome_iff_exists.mp hsome
    exact ⟨text, htext, hdump.trans htext⟩

/-- The leaderboard does the same, written out. -/
theorem Leaderboard.save_eq {J T : Type} [LinearOrder T] (lib : JsonLibrary Text J T)
    (b : Leaderboard T) (disk : Disk Text) (io : SaveOutcome Text) :
    b.save lib disk io = (b.toJson lib).map fun j => saveFile (lib.dump j) disk io := by
  unfold Leaderboard.save saveFile
  cases b.toJson lib with
  | none => rfl
  | some j =>
    cases hdump : lib.dump j with
    | none => split_ifs <;> simp [*]
    | some text => split_ifs <;> simp [*]

end ServerSimple.GlobalBoards
