import ServerSimple.Library.Maps
import ServerSimple.Library.PointerSet
import ServerSimple.GlobalBoards.Entry
import ServerSimple.GlobalBoards.Json

/-! # The leaderboard

Entries are owned by a map from names and ranked by a multiset of raw pointers; the comparator, and
with it the direction, is a value inside the multiset. Entries and nodes of the multiset live at
addresses given out in increasing order. A result `none` is undefined behaviour: a dangling pointer,
an iterator without an element, the predecessor of the end of an empty range. Ids are `uint64_t` in
the code and unbounded here.
-/

namespace ServerSimple.GlobalBoards

open Library

structure Leaderboard (T : Type) where
  /-- The objects behind the owning pointers. -/
  heap : ℕ → Option (LeaderboardEntry T)
  entries : AList fun _ : String => ℕ
  ranking : List Node
  /-- The comparator that `ranking` carries. -/
  highestFirst : Bool
  nextId : ℕ
  maxSize : ℕ
  nextAddress : ℕ

/-- A call of `submit_score`, with what it does not control: the clock, and the fields of the local
`candidate` that are never initialised. -/
structure Submission (T : Type) where
  player : String
  score : T
  now : ℤ
  candidateTimestamp : ℤ
  candidateId : ℕ

/-- The tuple that `submit_score` returns: the position, and the past index. -/
abbrev Placement := Option ℕ × Option ℕ

namespace Leaderboard

variable {T : Type} [LinearOrder T]

/-- `remove_last`; erasing the owner destroys the entry. -/
def removeLast (b : Leaderboard T) : Option (Leaderboard T) :=
  match b.ranking.getLast? with
  | none => some b
  | some last => do
    let entry ← b.heap last.pointer
    some { b with
      ranking := b.ranking.dropLast
      entries := b.entries.erase entry.name
      heap := match b.entries.lookup entry.name with
        | none => b.heap
        | some owned => Function.update b.heap owned none }

/-- The check after an insertion. -/
def trim (b : Leaderboard T) : Option (Leaderboard T) :=
  if b.ranking.length > b.maxSize then b.removeLast else some b

/-- `submit_score` for a player on the board, whose entry is at the given address. -/
def updateScore (b : Leaderboard T) (existing : ℕ) (call : Submission T) :
    Option (Leaderboard T × Placement) := do
  let entry ← b.heap existing
  let candidate : LeaderboardEntry T :=
    ⟨⟨"", call.candidateTimestamp, call.candidateId⟩, call.score, 0⟩
  if leaderboardEntryComparator b.highestFirst candidate entry = false then
    some (b, none, none)
  else
    let previousPosition := entry.rankingPosition
    let previousIndex ← getIndex previousPosition b.ranking
    let ranking ← eraseNode previousPosition b.ranking
    let entry := { entry with score := call.score, timestamp := call.now, id := b.nextId }
    let heap := Function.update b.heap existing (some entry)
    let rankingIt := b.nextAddress
    let ranking ← insertNode heap (leaderboardEntryComparator b.highestFirst)
      ⟨rankingIt, existing⟩ ranking
    let index ← getIndex rankingIt ranking
    some ({ b with
      heap := Function.update heap existing (some { entry with rankingPosition := rankingIt })
      ranking := ranking
      nextId := b.nextId + 1
      nextAddress := b.nextAddress + 1 }, some index, some previousIndex)

/-- Insert a new entry at the next address, and its node behind it. -/
def insertEntry (b : Leaderboard T) (entry : LeaderboardEntry T) : Option (Leaderboard T) := do
  let raw := b.nextAddress
  let rankingIt := b.nextAddress + 1
  let heap := Function.update b.heap raw (some entry)
  let ranking ← insertNode heap (leaderboardEntryComparator b.highestFirst) ⟨rankingIt, raw⟩ b.ranking
  some { b with
    heap := Function.update heap raw (some { entry with rankingPosition := rankingIt })
    entries := emplace b.entries entry.name raw
    ranking := ranking
    nextAddress := b.nextAddress + 2 }

/-- Whether the board is full and the entry is not before the worst one. -/
def isRejected (b : Leaderboard T) (entry : LeaderboardEntry T) : Option Bool :=
  if b.maxSize ≤ b.ranking.length then do
    let worst ← b.ranking.getLast?
    let worst ← b.heap worst.pointer
    some (!leaderboardEntryComparator b.highestFirst entry worst)
  else some false

/-- `submit_score` for a player who is not on the board. The id is used up even if the score is
rejected. -/
def addScore (b : Leaderboard T) (call : Submission T) : Option (Leaderboard T × Placement) := do
  let entry : LeaderboardEntry T := ⟨⟨call.player, call.now, b.nextId⟩, call.score, 0⟩
  let b := { b with nextId := b.nextId + 1 }
  let rejected ← b.isRejected entry
  if rejected then some (b, none, none)
  else
    let rankingIt := b.nextAddress + 1
    let b ← b.insertEntry entry
    let placement ← getIndex rankingIt b.ranking
    let b ← b.trim
    some (b, some placement, none)

def submitScore (b : Leaderboard T) (call : Submission T) : Option (Leaderboard T × Placement) :=
  match b.entries.lookup call.player with
  | some existing => b.updateScore existing call
  | none => b.addScore call

/-- The board after a call. -/
def step (b : Leaderboard T) (call : Submission T) : Option (Leaderboard T) :=
  (b.submitScore call).map Prod.fst

/-! ## Queries -/

/-- The entries in the order of the ranking. -/
def ranked (b : Leaderboard T) : Option (List (LeaderboardEntry T)) := readNodes b.heap b.ranking

def getTopScores (b : Leaderboard T) (count : ℕ) : Option (List (LeaderboardEntry T)) :=
  readNodes b.heap (b.ranking.take (min count b.ranking.length))

def getBottomScores (b : Leaderboard T) (count : ℕ) : Option (List (LeaderboardEntry T)) :=
  readNodes b.heap (b.ranking.reverse.take (min count b.ranking.length))

/-- The body shared by the range queries, over the ranking read in either direction. -/
def getRange (heap : ℕ → Option (LeaderboardEntry T)) (nodes : List Node) (start stop : ℕ) :
    Option (List (LeaderboardEntry T)) :=
  if nodes.length ≤ start ∨ stop < start then some []
  else readNodes heap ((nodes.drop start).take (min stop nodes.length - start))

def getRangeFromTop (b : Leaderboard T) (start stop : ℕ) : Option (List (LeaderboardEntry T)) :=
  getRange b.heap b.ranking start stop

def getRangeFromBottom (b : Leaderboard T) (start stop : ℕ) : Option (List (LeaderboardEntry T)) :=
  getRange b.heap b.ranking.reverse start stop

/-! ## Storage -/

def leaderboardNameKey : String := "name"
def leaderboardScoreKey : String := "score"
def leaderboardTimestampKey : String := "timestamp"

variable {Text J : Type} (lib : JsonLibrary Text J T)

/-- The name, score and timestamp of an item; `none` where the code returns false or throws. -/
def readItem (item : J) : Option (String × T × ℤ) :=
  if lib.isObject item = false then none
  else do
    let name ← (← lib.field item leaderboardNameKey) |> lib.getString
    let score ← (← lib.field item leaderboardScoreKey) |> lib.getScore
    let timestamp ← (← lib.field item leaderboardTimestampKey) |> lib.getInt64
    some (name, score, timestamp)

/-- The loop of `load` over the items of the array, filling the new containers. The inner `none` is
a load that fails. -/
def loadLoop : List J → ℕ → Leaderboard T → Option (Option (Leaderboard T))
  | [], _, new => some (some new)
  | item :: items, itemCount, new =>
    if itemCount + 1 > new.maxSize then some (some new)
    else
      match readItem lib item with
      | none => some none
      | some (name, score, timestamp) => do
        let inserted := (new.entries.lookup name).isNone
        let new ← insertEntry { new with nextId := new.nextId + 1 }
          ⟨⟨name, timestamp, new.nextId⟩, score, 0⟩
        if inserted then loadLoop items (itemCount + 1) new else some none

/-- `load`: the content of the file, if it can be opened. The containers are replaced only when
every item was read; the new ranking is built with the default comparator and takes its place with
it. -/
def load (b : Leaderboard T) (file : Option Text) : Option (Bool × Leaderboard T) :=
  match file.bind lib.parse with
  | none => some (false, b)
  | some j =>
    if lib.isArray j = false then some (false, b)
    else do
      let new ← loadLoop lib (lib.elements j) 0
        { b with entries := ∅, ranking := [], highestFirst := true }
      match new with
      | none => some (false, b)
      | some new => some (true, new)

/-- The constructor. -/
def construct (file : Option Text) (maxSize : ℕ) (highestFirst : Bool) : Option (Leaderboard T) :=
  (load lib ⟨fun _ => none, ∅, [], highestFirst, 0, maxSize, 0⟩ file).map Prod.snd

/-- The files of a board. -/
structure Disk (Text : Type) where
  file : Option Text
  temp : Option Text

/-- How far the file operations of a `save` get. `torn` is what a failed write leaves behind. -/
structure SaveOutcome (Text : Type) where
  opened : Bool
  written : Bool
  renamed : Bool
  torn : Text

/-- The array that `save` dumps. -/
def toJson (b : Leaderboard T) : Option J := do
  let entries ← b.ranked
  some (lib.array (entries.map fun entry => lib.object
    [(leaderboardNameKey, lib.ofString entry.name), (leaderboardScoreKey, lib.ofScore entry.score),
      (leaderboardTimestampKey, lib.ofInt64 entry.timestamp)]))

def save (b : Leaderboard T) (disk : Disk Text) (io : SaveOutcome Text) :
    Option (Bool × Disk Text) := do
  let j ← b.toJson lib
  if io.opened = false then some (false, disk)
  else
    match lib.dump j with
    | none => some (false, { disk with temp := none })
    | some text =>
      if io.written = false then some (false, { disk with temp := some io.torn })
      else if io.renamed = false then some (false, { disk with temp := none })
      else some (true, ⟨some text, none⟩)

end Leaderboard
end ServerSimple.GlobalBoards
