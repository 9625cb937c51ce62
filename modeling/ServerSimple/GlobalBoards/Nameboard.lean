import ServerSimple.GlobalBoards.Storage

/-! # The nameboard

Entries live in a list, at addresses given out in increasing order, and are ranked by a multiset of
raw pointers, the oldest first. A result `none` is undefined behaviour: a dangling pointer, or the
first element of an empty ranking. The iterator that an entry keeps is written and never read, and is
left out. Ids are `uint64_t` in the code and unbounded here.
-/

namespace ServerSimple.GlobalBoards

open Library

structure Nameboard where
  nextId : ℕ
  /-- The nodes of the list, each with its address. -/
  entries : List (ℕ × Entry)
  ranking : List Node
  maxSize : ℕ
  nextAddress : ℕ

/-- A call of `add_name`, with the reading of the clock. -/
structure NameCall where
  name : String
  now : ℤ

namespace Nameboard

def contains (b : Nameboard) (name : String) : Bool := b.entries.any fun node => node.2.name = name

/-- What a pointer to an entry leads to. -/
def heap (b : Nameboard) (pointer : ℕ) : Option Entry := b.entries.lookup pointer

/-- Append an entry to the list and insert a pointer to it into the ranking. The entry gets the next
address, and its element of the ranking the one behind it. -/
def emplaceBack (b : Nameboard) (entry : Entry) : Option Nameboard := do
  let raw := b.nextAddress
  let entries := b.entries ++ [(raw, entry)]
  let ranking ← insertNode (fun pointer => entries.lookup pointer) entryComparator ⟨raw + 1, raw⟩
    b.ranking
  some { b with
    entries := entries
    ranking := ranking
    nextId := b.nextId + 1
    nextAddress := b.nextAddress + 2 }

/-- Erase an element of the ranking, and the entry it points to from the list. -/
def eraseOldest (b : Nameboard) (oldest : Node) : Option Nameboard := do
  let ranking ← eraseNode oldest.iterator b.ranking
  some { b with ranking, entries := b.entries.eraseP fun node => node.1 = oldest.pointer }

def addName (b : Nameboard) (call : NameCall) : Option (Nameboard × Option ℕ) :=
  if b.contains call.name then some (b, none)
  else do
    let rankIt := b.nextAddress + 1
    let b ← b.emplaceBack ⟨call.name, call.now, b.nextId⟩
    let index ← getIndex rankIt b.ranking
    if b.ranking.length > b.maxSize then
      let oldest ← b.ranking.head?
      if oldest.iterator = rankIt then
        let b ← b.eraseOldest oldest
        some (b, none)
      else
        let b ← b.eraseOldest oldest
        some (b, some index)
    else some (b, some index)

/-- The board after a call. -/
def step (b : Nameboard) (call : NameCall) : Option Nameboard := (b.addName call).map Prod.fst

/-! ## Queries -/

def getAll (b : Nameboard) : Option (List Entry) := readNodes b.heap b.ranking

def getFromFirst (b : Nameboard) (amount : ℕ) : Option (List Entry) :=
  readNodes b.heap (b.ranking.take (min amount b.ranking.length))

def getFromLast (b : Nameboard) (amount : ℕ) : Option (List Entry) :=
  readNodes b.heap (b.ranking.reverse.take (min amount b.ranking.length))

/-- The body shared by the range queries, over the ranking read in either direction. -/
def getInRange (b : Nameboard) (nodes : List Node) (start stop : ℕ) : Option (List Entry) :=
  if nodes.length ≤ start ∨ stop < start then some []
  else readNodes b.heap ((nodes.drop start).take (min stop nodes.length - start))

def getInRangeFromTop (b : Nameboard) (start stop : ℕ) : Option (List Entry) :=
  b.getInRange b.ranking start stop

def getInRangeFromBottom (b : Nameboard) (start stop : ℕ) : Option (List Entry) :=
  b.getInRange b.ranking.reverse start stop

/-! ## Storage -/

def nameboardNameKey : String := "name"
def nameboardTimestampKey : String := "timestamp"

variable {Text J T : Type} (lib : JsonLibrary Text J T)

/-- The name and timestamp of an item; `none` where the code returns false or throws. -/
def readItem (item : J) : Option (String × ℤ) :=
  if lib.isObject item = false then none
  else do
    let name ← (← lib.field item nameboardNameKey) |> lib.getString
    let timestamp ← (← lib.field item nameboardTimestampKey) |> lib.getInt64
    some (name, timestamp)

/-- The loop of `load` over the items of the array, filling the new containers. The inner `none` is
a load that fails. A name that is there already is taken again. -/
def loadLoop : List J → ℕ → Nameboard → Option (Option Nameboard)
  | [], _, new => some (some new)
  | item :: items, itemCount, new =>
    if itemCount + 1 > new.maxSize then some (some new)
    else
      match readItem lib item with
      | none => some none
      | some (name, timestamp) => do
        let new ← new.emplaceBack ⟨name, timestamp, new.nextId⟩
        loadLoop items (itemCount + 1) new

/-- `load`: the content of the file, if it can be opened. The containers are replaced only when
every item was read. -/
def load (b : Nameboard) (file : Option Text) : Option (Bool × Nameboard) :=
  match file.bind lib.parse with
  | none => some (false, b)
  | some j =>
    if lib.isArray j = false then some (false, b)
    else do
      let new ← loadLoop lib (lib.elements j) 0 { b with entries := [], ranking := [], nextId := 0 }
      match new with
      | none => some (false, b)
      | some new => some (true, new)

/-- The constructor. -/
def construct (file : Option Text) (maxSize : ℕ) : Option Nameboard :=
  (load lib ⟨0, [], [], maxSize, 0⟩ file).map Prod.snd

/-- The array that `save` dumps. -/
def toJson (b : Nameboard) : Option J := do
  let entries ← b.getAll
  some (lib.array (entries.map fun entry => lib.object
    [(nameboardNameKey, lib.ofString entry.name),
      (nameboardTimestampKey, lib.ofInt64 entry.timestamp)]))

def save (b : Nameboard) (disk : Leaderboard.Disk Text) (io : Leaderboard.SaveOutcome Text) :
    Option (Bool × Leaderboard.Disk Text) := do
  let j ← b.toJson lib
  some (saveFile (lib.dump j) disk io)

end Nameboard
end ServerSimple.GlobalBoards
