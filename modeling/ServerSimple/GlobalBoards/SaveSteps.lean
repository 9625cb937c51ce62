import ServerSimple.Library.Runs
import ServerSimple.GlobalBoards.Boards

/-! # The steps of a save

`save` builds the array, opens the temporary file, dumps the array, writes and flushes the text, and
renames the temporary file. Each step can fail, by an exception or by the state of the stream, and the
process can stop between any two of them and be started again. The file is only ever touched by the
rename, which puts there what the temporary file holds.
-/

namespace ServerSimple.GlobalBoards

open Library

namespace Board

/-- The next step of a `save`. -/
inductive Phase (Text : Type) where
  | build
  | openTemp
  | dump
  | write (text : Text)
  /-- `good` is the state of the stream after the write. -/
  | flush (text : Text) (good : Bool)
  | renameTemp
  /-- The handler of the exceptions. -/
  | removeTemp
  | finish (value : Bool)

/-- How a step goes. `torn` is what the temporary file holds after it where that is not determined:
it is truncated, or partly written. -/
structure Outcome (Text : Type) where
  ok : Bool
  torn : Text

/-- A `save` that is under way. The fields after the first one are history. -/
structure Saving (B Text : Type) where
  phase : Phase Text
  boardBefore : B
  fileBefore : Option Text
  /-- Whether its rename took effect. -/
  renamed : Bool

/-- A `save` that returned. -/
structure SaveRecord (B Text : Type) where
  value : Bool
  renamed : Bool
  boardBefore : B
  boardAfter : B
  fileBefore : Option Text
  fileAfter : Option Text

/-- The process that owns the board. -/
inductive Process (B Text : Type) where
  | down
  | idle (b : B)
  | saving (b : B) (save : Saving B Text)

/-- The files and the process; and, as history, the board of the last save whose rename took effect,
and the saves that returned. -/
structure System (B Text : Type) where
  disk : Leaderboard.Disk Text
  process : Process B Text
  lastRenamed : Option B
  returned : List (SaveRecord B Text)

inductive Label (Params Call Text : Type) where
  | call (call : Call)
  | save
  | saveStep (outcome : Outcome Text)
  | crash
  | construct (params : Params)

variable {B Params Call Out Text : Type}

/-- Before the board is constructed. -/
def System.start (disk : Leaderboard.Disk Text) : System B Text := ⟨disk, .down, none, []⟩

/-- Go on with a `save`, with this content of the temporary file. -/
def System.advance (s : System B Text) (b : B) (save : Saving B Text) (phase : Phase Text)
    (temp : Option Text) : System B Text :=
  { s with disk := { s.disk with temp }, process := .saving b { save with phase } }

variable (board : Board B Params Call Out Text)

/-- A step of a `save`. An open that fails and a bad stream return at once; what throws goes to the
handler. -/
def saveStep (s : System B Text) (b : B) (save : Saving B Text) (outcome : Outcome Text) :
    Option (System B Text) :=
  let next := s.advance b save
  match save.phase with
  | .build => (board.dump b).map fun _ =>
    if outcome.ok then next .openTemp s.disk.temp else next .removeTemp s.disk.temp
  | .openTemp =>
    some (if outcome.ok then next .dump (some outcome.torn) else next (.finish false) s.disk.temp)
  | .dump => (board.dump b).map fun
    | some text => if outcome.ok then next (.write text) s.disk.temp else next .removeTemp s.disk.temp
    | none => next .removeTemp s.disk.temp
  | .write text => some (next (.flush text outcome.ok) (some outcome.torn))
  | .flush text good =>
    some (if good && outcome.ok then next .renameTemp (some text)
      else next (.finish false) (some outcome.torn))
  | .renameTemp =>
    match outcome.ok, s.disk.temp with
    | true, some text => some { s with
        disk := ⟨some text, none⟩
        process := .saving b { save with phase := .finish true, renamed := true }
        lastRenamed := some b }
    | _, _ => some (next .removeTemp s.disk.temp)
  | .removeTemp => some (next (.finish false) (if outcome.ok then none else s.disk.temp))
  | .finish value => some { s with
      process := .idle b
      returned := ⟨value, save.renamed, save.boardBefore, b, save.fileBefore, s.disk.file⟩ :: s.returned }

/-- Whatever happens to the files and the process. -/
def systemStep (s : System B Text) : Label Params Call Text → Option (System B Text)
  | .call c =>
    match s.process with
    | .idle b => (board.call b c).map fun r => { s with process := .idle r.1 }
    | _ => none
  | .save =>
    match s.process with
    | .idle b => some { s with process := .saving b ⟨.build, b, s.disk.file, false⟩ }
    | _ => none
  | .saveStep outcome =>
    match s.process with
    | .saving b save => board.saveStep s b save outcome
    | _ => none
  | .crash => some { s with process := .down }
  | .construct params =>
    match s.process with
    | .down => (board.construct params s.disk.file).map fun b => { s with process := .idle b }
    | _ => none

/-! ## What holds of the files -/

/-- The file holds the whole dump of this board. -/
def Holds (file : Option Text) (b : B) : Prop :=
  ∃ text, board.dump b = some (some text) ∧ file = some text

/-- The file is as it was at the beginning, or holds the whole dump of the board at the last save
whose rename took effect. -/
def Untorn (initial : Option Text) (s : System B Text) : Prop :=
  match s.lastRenamed with
  | none => s.disk.file = initial
  | some b => board.Holds s.disk.file b

/-- A save that returned true was renamed, and the file then holds its dump; one that returned false
left the file and the board as they were. -/
def Faithful (r : SaveRecord B Text) : Prop :=
  (r.value = true → r.renamed = true ∧ board.Holds r.fileAfter r.boardBefore) ∧
    (r.value = false → r.fileAfter = r.fileBefore ∧ r.boardAfter = r.boardBefore)

/-- What is known of a save in each phase. -/
def PhaseInv (b : B) (disk : Leaderboard.Disk Text) (renamed : Bool) : Phase Text → Prop
  | .write text => renamed = false ∧ board.dump b = some (some text)
  | .flush text _ => renamed = false ∧ board.dump b = some (some text)
  | .renameTemp => renamed = false ∧ board.Holds disk.temp b
  | .finish value => value = renamed ∧ (renamed = true → board.Holds disk.file b)
  | _ => renamed = false

/-- What is known of the process. -/
def ProcessInv (disk : Leaderboard.Disk Text) : Process B Text → Prop
  | .saving b save => save.boardBefore = b ∧ (save.renamed = false → disk.file = save.fileBefore) ∧
    board.PhaseInv b disk save.renamed save.phase
  | _ => True

structure Inv (initial : Option Text) (s : System B Text) : Prop where
  untorn : board.Untorn initial s
  faithful : ∀ r ∈ s.returned, board.Faithful r
  process : board.ProcessInv s.disk s.process

variable {board} {initial : Option Text} {s t : System B Text} {b : B} {save : Saving B Text}

/-- Only the temporary file and the phase change. -/
theorem Inv.advance (h : board.Inv initial s) (hprocess : s.process = .saving b save)
    (hrenamed : save.renamed = false) {phase : Phase Text} {temp : Option Text}
    (hphase : board.PhaseInv b ⟨s.disk.file, temp⟩ false phase) :
    board.Inv initial (s.advance b save phase temp) := by
  obtain ⟨hboard, hfile, -⟩ : board.ProcessInv s.disk (.saving b save) := hprocess ▸ h.process
  exact ⟨h.untorn, h.faithful, hboard, hfile, hrenamed ▸ hphase⟩

/-- Every phase before the return knows that nothing was renamed yet. -/
theorem PhaseInv.renamed_eq_false {disk : Leaderboard.Disk Text} {renamed : Bool} {phase : Phase Text}
    (h : board.PhaseInv b disk renamed phase) (hphase : ∀ value, phase ≠ .finish value) :
    renamed = false := by
  cases phase with
  | finish value => exact absurd rfl (hphase value)
  | write text => exact h.1
  | flush text good => exact h.1
  | renameTemp => exact h.1
  | build => exact h
  | openTemp => exact h
  | dump => exact h
  | removeTemp => exact h

theorem inv_saveStep (h : board.Inv initial s) (hprocess : s.process = .saving b save)
    {outcome : Outcome Text} (hstep : board.saveStep s b save outcome = some t) :
    board.Inv initial t := by
  obtain ⟨hboard, hfile, hphase⟩ : board.ProcessInv s.disk (.saving b save) := hprocess ▸ h.process
  have hrenamed := hphase.renamed_eq_false
  have hadvance : ∀ {phase temp}, save.renamed = false →
      board.PhaseInv b ⟨s.disk.file, temp⟩ false phase → board.Inv initial (s.advance b save phase temp) :=
    fun hfalse hnext => h.advance hprocess hfalse hnext
  unfold saveStep at hstep
  cases hnow : save.phase with
  | build =>
    rw [hnow] at hstep hrenamed
    obtain ⟨-, -, rfl⟩ := Option.map_eq_some_iff.mp hstep
    split_ifs
    · exact hadvance (hrenamed nofun) rfl
    · exact hadvance (hrenamed nofun) rfl
  | openTemp =>
    rw [hnow] at hstep hrenamed
    cases hstep
    split_ifs
    · exact hadvance (hrenamed nofun) rfl
    · exact hadvance (hrenamed nofun) ⟨rfl, nofun⟩
  | dump =>
    rw [hnow] at hstep hrenamed
    obtain ⟨dumped, hdump, rfl⟩ := Option.map_eq_some_iff.mp hstep
    cases dumped with
    | none => exact hadvance (hrenamed nofun) rfl
    | some text =>
      dsimp only
      split_ifs
      · exact hadvance (hrenamed nofun) ⟨rfl, hdump⟩
      · exact hadvance (hrenamed nofun) rfl
  | write text =>
    rw [hnow] at hstep hphase
    cases hstep
    exact hadvance hphase.1 ⟨rfl, hphase.2⟩
  | flush text good =>
    rw [hnow] at hstep hphase
    cases hstep
    split_ifs
    · exact hadvance hphase.1 ⟨rfl, text, hphase.2, rfl⟩
    · exact hadvance hphase.1 ⟨rfl, nofun⟩
  | renameTemp =>
    rw [hnow] at hstep hphase
    obtain ⟨hfalse, text, hdump, htemp⟩ := hphase
    rw [htemp] at hstep
    cases hok : outcome.ok with
    | true =>
      rw [hok] at hstep
      cases hstep
      have hholds : board.Holds (some text) b := ⟨text, hdump, rfl⟩
      exact ⟨hholds, h.faithful, hboard, nofun, rfl, fun _ => hholds⟩
    | false =>
      rw [hok] at hstep
      cases hstep
      exact hadvance hfalse rfl
  | removeTemp =>
    rw [hnow] at hstep hrenamed
    cases hstep
    exact hadvance (hrenamed nofun) ⟨rfl, nofun⟩
  | finish value =>
    rw [hnow] at hstep hphase
    cases hstep
    refine ⟨h.untorn, ?_, trivial⟩
    intro r hr
    rcases List.mem_cons.mp hr with rfl | hr
    · obtain ⟨rfl, hholds⟩ := hphase
      exact ⟨fun htrue => ⟨htrue, hboard ▸ hholds htrue⟩, fun hfalse => ⟨hfile hfalse, hboard.symm⟩⟩
    · exact h.faithful r hr

theorem inv_systemStep {label : Label Params Call Text} (h : board.Inv initial s)
    (hstep : board.systemStep s label = some t) : board.Inv initial t := by
  unfold systemStep at hstep
  cases label with
  | call c =>
    cases hprocess : s.process with
    | idle b =>
      rw [hprocess] at hstep
      obtain ⟨r, -, rfl⟩ := Option.map_eq_some_iff.mp hstep
      exact ⟨h.untorn, h.faithful, trivial⟩
    | down => simp [hprocess] at hstep
    | saving b save => simp [hprocess] at hstep
  | save =>
    cases hprocess : s.process with
    | idle b =>
      rw [hprocess] at hstep
      cases hstep
      exact ⟨h.untorn, h.faithful, rfl, fun _ => rfl, rfl⟩
    | down => simp [hprocess] at hstep
    | saving b save => simp [hprocess] at hstep
  | saveStep outcome =>
    cases hprocess : s.process with
    | saving b save =>
      rw [hprocess] at hstep
      exact inv_saveStep h hprocess hstep
    | down => simp [hprocess] at hstep
    | idle b => simp [hprocess] at hstep
  | crash =>
    cases hstep
    exact ⟨h.untorn, h.faithful, trivial⟩
  | construct params =>
    cases hprocess : s.process with
    | down =>
      rw [hprocess] at hstep
      obtain ⟨b, -, rfl⟩ := Option.map_eq_some_iff.mp hstep
      exact ⟨h.untorn, h.faithful, trivial⟩
    | idle b => simp [hprocess] at hstep
    | saving b save => simp [hprocess] at hstep

theorem inv_start (disk : Leaderboard.Disk Text) :
    board.Inv disk.file (System.start disk : System B Text) :=
  ⟨rfl, nofun, trivial⟩

theorem untorn_and_faithful_run {disk : Leaderboard.Disk Text} {labels : List (Label Params Call Text)}
    (hrun : run board.systemStep (.start disk) labels = some s) :
    board.Untorn disk.file s ∧ ∀ r ∈ s.returned, board.Faithful r := by
  have hinv : board.Inv disk.file s :=
    run_invariant (fun _ _ _ => inv_systemStep) (inv_start disk) hrun
  exact ⟨hinv.untorn, hinv.faithful⟩

/-! ## The steps make up a save -/

/-- From here, steps of the save return this value and leave these files. -/
def Completes (board : Board B Params Call Out Text) (s : System B Text) (b : B) (value : Bool)
    (disk : Leaderboard.Disk Text) : Prop :=
  ∃ (outcomes : List (Outcome Text)) (t : System B Text) (r : SaveRecord B Text),
    run board.systemStep s (outcomes.map Label.saveStep) = some t ∧ t.disk = disk ∧
      t.process = .idle b ∧ t.returned = r :: s.returned ∧ r.value = value

theorem Completes.of_saveStep (outcome : Outcome Text) {value : Bool} {disk : Leaderboard.Disk Text}
    (hprocess : s.process = .saving b save) (hstep : board.saveStep s b save outcome = some t)
    (hreturned : t.returned = s.returned) (h : board.Completes t b value disk) :
    board.Completes s b value disk := by
  obtain ⟨outcomes, u, r, hrun, hdisk, hidle, hreturns, hvalue⟩ := h
  refine ⟨outcome :: outcomes, u, r, ?_, hdisk, hidle, hreturned ▸ hreturns, hvalue⟩
  refine run_cons_eq_some.mpr ⟨t, ?_, hrun⟩
  rw [systemStep, hprocess]
  exact hstep

/-- Whatever `save` can do as one operation, its steps can do. -/
theorem completes_of_save (hprocess : s.process = .idle b) {io : Leaderboard.SaveOutcome Text}
    {value : Bool} {disk : Leaderboard.Disk Text}
    (hsave : board.save b s.disk io = some (value, disk)) :
    ∃ t, board.systemStep s .save = some t ∧ board.Completes t b value disk := by
  obtain ⟨dumped, hdump, hfile⟩ := Option.map_eq_some_iff.mp hsave
  refine ⟨_, by rw [systemStep, hprocess], ?_⟩
  -- the array is built
  refine Completes.of_saveStep ⟨true, io.torn⟩ rfl (congrArg (Option.map _) hdump) rfl ?_
  unfold saveFile at hfile
  by_cases hopened : io.opened = false
  · rw [if_pos hopened] at hfile
    cases hfile
    exact ⟨[⟨false, io.torn⟩, ⟨true, io.torn⟩], _, _, rfl, rfl, rfl, rfl, rfl⟩
  · rw [if_neg hopened] at hfile
    refine Completes.of_saveStep ⟨true, io.torn⟩ rfl rfl rfl ?_
    cases dumped with
    | none =>
      cases hfile
      refine Completes.of_saveStep ⟨true, io.torn⟩ rfl (congrArg (Option.map _) hdump) rfl ?_
      exact ⟨[⟨true, io.torn⟩, ⟨true, io.torn⟩], _, _, rfl, rfl, rfl, rfl, rfl⟩
    | some text =>
      refine Completes.of_saveStep ⟨true, io.torn⟩ rfl (congrArg (Option.map _) hdump) rfl ?_
      dsimp only at hfile
      split_ifs at hfile
      · cases hfile
        exact ⟨[⟨false, io.torn⟩, ⟨true, io.torn⟩, ⟨true, io.torn⟩], _, _, rfl, rfl, rfl, rfl, rfl⟩
      · cases hfile
        exact ⟨[⟨true, io.torn⟩, ⟨true, io.torn⟩, ⟨false, io.torn⟩, ⟨true, io.torn⟩, ⟨true, io.torn⟩],
          _, _, rfl, rfl, rfl, rfl, rfl⟩
      · cases hfile
        exact ⟨[⟨true, io.torn⟩, ⟨true, io.torn⟩, ⟨true, io.torn⟩, ⟨true, io.torn⟩],
          _, _, rfl, rfl, rfl, rfl, rfl⟩

end Board

/-! ## The boards -/

variable {Text J T : Type} [LinearOrder T] (lib : JsonLibrary Text J T)

/-- Whatever fails and wherever the process stops, the file of each board is as it was at the
beginning or holds the whole dump of the last save whose rename took effect; a save returns true only
if it was renamed, and one that returns false changes neither the file nor the board. -/
theorem storage_never_torn (disk : Leaderboard.Disk Text) :
    (∀ labels s, run (Leaderboard.board lib).systemStep (.start disk) labels = some s →
      (Leaderboard.board lib).Untorn disk.file s ∧
        ∀ r ∈ s.returned, (Leaderboard.board lib).Faithful r) ∧
    (∀ labels s, run (Nameboard.board lib).systemStep (.start disk) labels = some s →
      (Nameboard.board lib).Untorn disk.file s ∧
        ∀ r ∈ s.returned, (Nameboard.board lib).Faithful r) ∧
    ∀ labels s, run (ScoreStream.board lib).systemStep (.start disk) labels = some s →
      (ScoreStream.board lib).Untorn disk.file s ∧
        ∀ r ∈ s.returned, (ScoreStream.board lib).Faithful r := by
  refine ⟨?_, ?_, ?_⟩
  all_goals
    intro labels s hrun
    exact Board.untorn_and_faithful_run hrun

/-- A step of a save that goes well or fails. -/
def plainStep {Params Call : Type} (ok : Bool) : Board.Label Params Call Json :=
  .saveStep ⟨ok, .array []⟩

/-- A save, another one whose write fails, and a crash in a third one after its rename. -/
def tornSession {Params Call : Type} (params : Params) (first second : Call) :
    List (Board.Label Params Call Json) :=
  .construct params :: .call first :: .save :: List.replicate 7 (plainStep true) ++
    .call second :: .save :: [true, true, true, false, true, true].map plainStep ++
    .save :: List.replicate 6 (plainStep true) ++ [.crash, .construct params]

theorem storage_never_torn_session :
    (∃ s, run (Leaderboard.board Json.library).systemStep (.start ⟨none, none⟩)
        (tornSession (2, true) ⟨"a", 1, 10, 0, 0⟩ ⟨"b", 2, 11, 0, 0⟩) = some s ∧
      (Leaderboard.board Json.library).Untorn none s ∧
        ∀ r ∈ s.returned, (Leaderboard.board Json.library).Faithful r) ∧
    (∃ s, run (Nameboard.board Json.library).systemStep (.start ⟨none, none⟩)
        (tornSession 2 ⟨"a", 10⟩ ⟨"b", 11⟩) = some s ∧
      (Nameboard.board Json.library).Untorn none s ∧
        ∀ r ∈ s.returned, (Nameboard.board Json.library).Faithful r) ∧
    ∃ s, run (ScoreStream.board Json.library).systemStep (.start ⟨none, none⟩)
        (tornSession 2 ⟨"a", 1, 10⟩ ⟨"b", 2, 11⟩) = some s ∧
      (ScoreStream.board Json.library).Untorn none s ∧
        ∀ r ∈ s.returned, (ScoreStream.board Json.library).Faithful r := by
  refine ⟨?_, ?_, ?_⟩
  · obtain ⟨s, hs⟩ := Option.isSome_iff_exists.mp (show (run
      (Leaderboard.board Json.library).systemStep (.start ⟨none, none⟩)
        (tornSession (2, true) ⟨"a", 1, 10, 0, 0⟩ ⟨"b", 2, 11, 0, 0⟩)).isSome = true by decide +kernel)
    exact ⟨s, hs, (storage_never_torn Json.library ⟨none, none⟩).1 _ s hs⟩
  · obtain ⟨s, hs⟩ := Option.isSome_iff_exists.mp (show (run
      (Nameboard.board Json.library).systemStep (.start ⟨none, none⟩)
        (tornSession 2 ⟨"a", 10⟩ ⟨"b", 11⟩)).isSome = true by decide +kernel)
    exact ⟨s, hs, (storage_never_torn Json.library ⟨none, none⟩).2.1 _ s hs⟩
  · obtain ⟨s, hs⟩ := Option.isSome_iff_exists.mp (show (run
      (ScoreStream.board Json.library).systemStep (.start ⟨none, none⟩)
        (tornSession 2 ⟨"a", 1, 10⟩ ⟨"b", 2, 11⟩)).isSome = true by decide +kernel)
    exact ⟨s, hs, (storage_never_torn Json.library ⟨none, none⟩).2.2 _ s hs⟩

end ServerSimple.GlobalBoards
