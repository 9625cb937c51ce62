import ServerSimple.GlobalBoards.Nameboard
import ServerSimple.GlobalBoards.ScoreStream

/-! # What the boards have in common

A board is constructed from its file, changed by calls, and saved by writing one text. Here an outer
`none` is undefined behaviour, and an inner one a dump that throws.
-/

namespace ServerSimple.GlobalBoards

/-- The operations of a board class. -/
structure Board (B Params Call Out Text : Type) where
  construct : Params → Option Text → Option B
  call : B → Call → Option (B × Out)
  /-- The text that `save` writes. -/
  dump : B → Option (Option Text)

/-- `save`, as one operation. -/
def Board.save {B Params Call Out Text : Type} (board : Board B Params Call Out Text) (b : B)
    (disk : Leaderboard.Disk Text) (io : Leaderboard.SaveOutcome Text) :
    Option (Bool × Leaderboard.Disk Text) :=
  (board.dump b).map fun text => saveFile text disk io

variable {Text J T : Type} (lib : JsonLibrary Text J T)

/-- The leaderboard: constructed with a capacity and a direction. -/
def Leaderboard.board [LinearOrder T] : Board (Leaderboard T) (ℕ × Bool) (Submission T) Placement Text where
  construct params file := construct lib file params.1 params.2
  call := submitScore
  dump b := (b.toJson lib).map lib.dump

def Nameboard.board : Board Nameboard ℕ NameCall (Option ℕ) Text where
  construct maxSize file := construct lib file maxSize
  call := addName
  dump b := (b.toJson lib).map lib.dump

def ScoreStream.board : Board (ScoreStream T) ℕ (ScoreCall T) Unit Text where
  construct maxSize file := some (construct lib file maxSize)
  call s call := some (s.submitScore call, ())
  dump s := some (lib.dump (s.toJson lib))

theorem Leaderboard.board_save [LinearOrder T] (b : Leaderboard T) (disk : Disk Text)
    (io : SaveOutcome Text) : (board lib).save b disk io = b.save lib disk io := by
  rw [save_eq, Board.save, board, Option.map_map]
  rfl

theorem Nameboard.board_save (b : Nameboard) (disk : Leaderboard.Disk Text)
    (io : Leaderboard.SaveOutcome Text) : (board lib).save b disk io = b.save lib disk io := by
  rw [Board.save, board, Option.map_map, Nameboard.save]
  cases b.toJson lib <;> rfl

theorem ScoreStream.board_save (s : ScoreStream T) (disk : Leaderboard.Disk Text)
    (io : Leaderboard.SaveOutcome Text) :
    (board lib).save s disk io = some (s.save lib disk io) :=
  rfl

end ServerSimple.GlobalBoards
