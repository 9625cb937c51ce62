import ServerSimple.GlobalBoards.Storage

/-! # The score stream

Scores in the order in which they came, the newest at the front of a deque. The counter of ids moves
when a file is loaded and at no other time: a submission stores it and does not advance it. Ids are
`uint64_t` in the code and unbounded here.
-/

namespace ServerSimple.GlobalBoards

structure ScoreStreamEntry (T : Type) extends Entry where
  score : T
  deriving DecidableEq

structure ScoreStream (T : Type) where
  maxSize : ℕ
  nextId : ℕ
  entries : List (ScoreStreamEntry T)
  deriving DecidableEq

/-- A call of `submit_score`, with the reading of the clock. -/
structure ScoreCall (T : Type) where
  name : String
  score : T
  now : ℤ

namespace ScoreStream

variable {T : Type}

/-- The loop of `submit_score`: `pop_back` as long as there are too many entries. -/
def popExcess (maxSize : ℕ) (entries : List (ScoreStreamEntry T)) : List (ScoreStreamEntry T) :=
  if entries.length > maxSize then popExcess maxSize entries.dropLast else entries
termination_by entries.length
decreasing_by
  rw [List.length_dropLast]
  omega

def submitScore (s : ScoreStream T) (call : ScoreCall T) : ScoreStream T :=
  { s with entries := popExcess s.maxSize (⟨⟨call.name, call.now, s.nextId⟩, call.score⟩ :: s.entries) }

/-! ## Queries -/

def getAll (s : ScoreStream T) : List (ScoreStreamEntry T) := s.entries

def getFromFirst (s : ScoreStream T) (amount : ℕ) : List (ScoreStreamEntry T) :=
  if amount < s.getAll.length then s.getAll.take amount else s.getAll

def getInRangeFromTop (s : ScoreStream T) (start stop : ℕ) : List (ScoreStreamEntry T) :=
  if s.getAll.length ≤ start ∨ stop ≤ start then []
  else (s.getAll.drop start).take (min stop s.getAll.length - start)

/-- The range is counted from the oldest entry and returned in stream order. -/
def getInRangeFromBottom (s : ScoreStream T) (start stop : ℕ) : List (ScoreStreamEntry T) :=
  if s.getAll.length ≤ start ∨ stop ≤ start then []
  else
    let bottomStart := s.getAll.length - min stop s.getAll.length
    let bottomEnd := s.getAll.length - start
    (s.getAll.drop bottomStart).take (bottomEnd - bottomStart)

/-! ## Storage -/

def scoreStreamNameKey : String := "name"
def scoreStreamScoreKey : String := "score"
def scoreStreamTimestampKey : String := "timestamp"

variable {Text J : Type} (lib : JsonLibrary Text J T)

/-- The name, score and timestamp of an item; `none` where the code returns false or throws. -/
def readItem (item : J) : Option (String × T × ℤ) :=
  if lib.isObject item = false then none
  else do
    let name ← (← lib.field item scoreStreamNameKey) |> lib.getString
    let score ← (← lib.field item scoreStreamScoreKey) |> lib.getScore
    let timestamp ← (← lib.field item scoreStreamTimestampKey) |> lib.getInt64
    some (name, score, timestamp)

/-- The loop of `load` over the items of the array. Each one goes to the front of the new deque; the
items behind the first `max_size` are not looked at. -/
def loadLoop : List J → ℕ → ScoreStream T → Option (ScoreStream T)
  | [], _, new => some new
  | item :: items, itemCount, new =>
    if itemCount + 1 > new.maxSize then some new
    else
      match readItem lib item with
      | none => none
      | some (name, score, timestamp) =>
        loadLoop items (itemCount + 1) { new with
          nextId := new.nextId + 1
          entries := ⟨⟨name, timestamp, new.nextId⟩, score⟩ :: new.entries }

/-- `load`: the content of the file, if it can be opened. The deque is replaced only when every item
was read. -/
def load (s : ScoreStream T) (file : Option Text) : Bool × ScoreStream T :=
  match file.bind lib.parse with
  | none => (false, s)
  | some j =>
    if lib.isArray j = false then (false, s)
    else
      match loadLoop lib (lib.elements j) 0 { s with nextId := 0, entries := [] } with
      | none => (false, s)
      | some new => (true, new)

/-- The constructor. -/
def construct (file : Option Text) (maxSize : ℕ) : ScoreStream T := (load lib ⟨maxSize, 0, []⟩ file).2

/-- The array that `save` dumps: the oldest entry first. -/
def toJson (s : ScoreStream T) : J :=
  lib.array (s.getAll.reverse.map fun entry => lib.object
    [(scoreStreamNameKey, lib.ofString entry.name), (scoreStreamScoreKey, lib.ofScore entry.score),
      (scoreStreamTimestampKey, lib.ofInt64 entry.timestamp)])

def save (s : ScoreStream T) (disk : Leaderboard.Disk Text) (io : Leaderboard.SaveOutcome Text) :
    Bool × Leaderboard.Disk Text :=
  saveFile (lib.dump (s.toJson lib)) disk io

end ScoreStream
end ServerSimple.GlobalBoards
