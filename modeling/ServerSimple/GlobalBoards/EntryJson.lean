import ServerSimple.GlobalBoards.LeaderboardCapacity
import ServerSimple.GlobalBoards.NameboardReload
import ServerSimple.GlobalBoards.ScoreStreamReload

/-! # The JSON form of an entry

`entry.hpp` converts entries to JSON and back, for clients that exchange them. The boards do not call
these conversions: they write and read their files with keys of their own. A conversion into an
existing object assigns field by field, so one that throws leaves an object that is partly new.
-/

namespace ServerSimple.GlobalBoards

open Library

/-- The conversions of ids, beside what the boards use of the JSON library. -/
structure EntryLibrary (Text J T : Type) extends JsonLibrary Text J T where
  getUInt64 : J → Option ℕ
  ofUInt64 : ℕ → J

structure EntryLibrary.Lawful {Text J T : Type} (lib : EntryLibrary Text J T) : Prop where
  boards : lib.toJsonLibrary.Lawful
  /-- `at` throws on a value that is not an object. -/
  field_of_not_object : ∀ j key, lib.isObject j = false → lib.field j key = none
  getUInt64_ofUInt64 : ∀ n, n < 2 ^ 64 → lib.getUInt64 (lib.ofUInt64 n) = some n

/-- The library of `Json.library` with ids: a negative number is converted modulo `2 ^ 64`. -/
def Json.entryLibrary : EntryLibrary Json Json ℤ where
  toJsonLibrary := Json.library
  getUInt64
    | .integer n => some (n % 2 ^ 64).toNat
    | _ => none
  ofUInt64 n := .integer n

theorem Json.entryLibrary_lawful : Json.entryLibrary.Lawful where
  boards := Json.library_lawful
  field_of_not_object j key h := by
    cases j with
    | object fields => cases h
    | string s | integer n | array items => rfl
  getUInt64_ofUInt64 n hn := by
    have hmod : ((n : ℤ) % 2 ^ 64).toNat = n := by omega
    exact congrArg some hmod

/-- The calls of `get_to` in turn. Where one throws, the object stays as those before it left it. -/
def assignFields {E : Type} : List (E → Option E) → E → Bool × E
  | [], e => (true, e)
  | assign :: rest, e =>
    match assign e with
    | none => (false, e)
    | some e => assignFields rest e

/-- `j.at(key).get_to(field)`. -/
def getTo {Text J T V E : Type} (lib : JsonLibrary Text J T) (j : J) (key : String)
    (get : J → Option V) (set : V → E → E) (e : E) : Option E :=
  ((lib.field j key).bind get).map fun v => set v e

section Conversions

variable {Text J T : Type} (lib : EntryLibrary Text J T)

def Entry.toJson (e : Entry) : J :=
  lib.object [("name", lib.ofString e.name), ("timestamp", lib.ofInt64 e.timestamp),
    ("id", lib.ofUInt64 e.id)]

def Entry.fromJson (j : J) : Entry → Bool × Entry :=
  assignFields [
    getTo lib.toJsonLibrary j "name" lib.getString fun name e => { e with name := name },
    getTo lib.toJsonLibrary j "timestamp" lib.getInt64 fun timestamp e =>
      { e with timestamp := timestamp },
    getTo lib.toJsonLibrary j "id" lib.getUInt64 fun id e => { e with id := id }]

def LeaderboardEntry.toJson (e : LeaderboardEntry T) : J :=
  lib.object [("name", lib.ofString e.name), ("timestamp", lib.ofInt64 e.timestamp),
    ("score", lib.ofScore e.score)]

def LeaderboardEntry.fromJson (j : J) : LeaderboardEntry T → Bool × LeaderboardEntry T :=
  assignFields [
    getTo lib.toJsonLibrary j "name" lib.getString fun name e => { e with name := name },
    getTo lib.toJsonLibrary j "timestamp" lib.getInt64 fun timestamp e =>
      { e with timestamp := timestamp },
    getTo lib.toJsonLibrary j "score" lib.getScore fun score e => { e with score := score }]

def ScoreStreamEntry.toJson (e : ScoreStreamEntry T) : J :=
  lib.object [("name", lib.ofString e.name), ("timestamp", lib.ofInt64 e.timestamp),
    ("score", lib.ofScore e.score)]

def ScoreStreamEntry.fromJson (j : J) : ScoreStreamEntry T → Bool × ScoreStreamEntry T :=
  assignFields [
    getTo lib.toJsonLibrary j "name" lib.getString fun name e => { e with name := name },
    getTo lib.toJsonLibrary j "timestamp" lib.getInt64 fun timestamp e =>
      { e with timestamp := timestamp },
    getTo lib.toJsonLibrary j "score" lib.getScore fun score e => { e with score := score }]

end Conversions

/-! ## What a conversion leaves behind -/

/-- What no step changes, stays, whether or not one of them throws. -/
theorem assignFields_frame {E A : Type} {steps : List (E → Option E)} (view : E → A)
    (h : ∀ assign ∈ steps, ∀ e e', assign e = some e' → view e' = view e) (e : E) :
    view (assignFields steps e).2 = view e := by
  induction steps generalizing e with
  | nil => rfl
  | cons assign rest ih =>
    rw [assignFields]
    cases hassign : assign e with
    | none => rfl
    | some e' =>
      have hlater := ih (fun a ha => h a (List.mem_cons_of_mem assign ha)) e'
      exact hlater.trans (h assign List.mem_cons_self e e' hassign)

section Decoding

variable {Text J T E : Type} {lib : EntryLibrary Text J T}

/-- The object after a conversion that did not throw. -/
def decode (convert : E → Bool × E) (into : E) : Option E :=
  if (convert into).1 then some (convert into).2 else none

/-- The first items of an array in a file, each converted into a copy of one object. -/
def decodedEntries (lib : JsonLibrary Text J T) (convert : J → E → Bool × E) (into : E)
    (file : Option Text) (count : ℕ) : Option (List E) :=
  match file.bind lib.parse with
  | none => none
  | some j =>
    if lib.isArray j = false then none
    else ((lib.elements j).take count).mapM fun item => decode (convert item) into

theorem decode_nil (into : E) : decode (assignFields []) into = some into := rfl

theorem decode_cons (assign : E → Option E) (rest : List (E → Option E)) (into : E) :
    decode (assignFields (assign :: rest)) into =
      (assign into).bind (decode (assignFields rest)) := by
  unfold decode
  rw [assignFields]
  cases assign into <;> rfl

theorem decode_three (first second third : E → Option E) (into : E) :
    decode (assignFields [first, second, third]) into =
      ((first into).bind second).bind third := by
  rw [decode_cons, Option.bind_assoc]
  congr 1
  funext e
  rw [decode_cons]
  congr 1
  funext e
  rw [decode_cons]
  exact Option.bind_fun_some (third e)

/-- A row is read member by member. -/
theorem readRow_of_object {item : J} (hobject : lib.isObject item = true) :
    Leaderboard.readRow lib.toJsonLibrary item =
      ((lib.field item "name").bind lib.getString).bind fun name =>
        ((lib.field item "score").bind lib.getScore).bind fun score =>
          ((lib.field item "timestamp").bind lib.getInt64).map fun timestamp =>
            ⟨name, score, timestamp⟩ := by
  simp [Leaderboard.readRow, Leaderboard.readItem, hobject, Option.bind_assoc,
    Option.map_eq_bind, Leaderboard.leaderboardNameKey, Leaderboard.leaderboardScoreKey,
    Leaderboard.leaderboardTimestampKey]

/-- The entries of leaderboards and score streams are converted when `load` would take the item,
although `load` asks for the members in another order. -/
theorem decode_scored (laws : lib.Lawful) (setName : String → E → E) (setTimestamp : ℤ → E → E)
    (setScore : T → E → E) (item : J) (into : E) :
    decode (assignFields [getTo lib.toJsonLibrary item "name" lib.getString setName,
      getTo lib.toJsonLibrary item "timestamp" lib.getInt64 setTimestamp,
      getTo lib.toJsonLibrary item "score" lib.getScore setScore]) into =
    (Leaderboard.readRow lib.toJsonLibrary item).map fun row =>
      setScore row.score (setTimestamp row.timestamp (setName row.name into)) := by
  rw [decode_three]
  cases hobject : lib.isObject item with
  | false =>
    simp [Leaderboard.readRow, Leaderboard.readItem, getTo, hobject,
      laws.field_of_not_object item _ hobject]
  | true =>
    rw [readRow_of_object hobject]
    unfold getTo
    cases (lib.field item "name").bind lib.getString with
    | none => rfl
    | some name =>
      cases (lib.field item "timestamp").bind lib.getInt64 with
      | none => cases (lib.field item "score").bind lib.getScore <;> rfl
      | some timestamp => cases (lib.field item "score").bind lib.getScore <;> rfl

/-- What the conversions of leaderboard and score stream entries write for a row. -/
def scoredItem (lib : JsonLibrary Text J T) (row : Standing T) : J :=
  lib.object [("name", lib.ofString row.name), ("timestamp", lib.ofInt64 row.timestamp),
    ("score", lib.ofScore row.score)]

/-- These are the members that `load` reads, in another order. -/
theorem readRow_scoredItem (laws : lib.Lawful) (row : Standing T) :
    Leaderboard.readRow lib.toJsonLibrary (scoredItem lib.toJsonLibrary row) = some row := by
  let item := scoredItem lib.toJsonLibrary row
  have hkeys : ["name", "timestamp", "score"].Nodup := by decide
  have hfield := laws.boards.field_object [("name", lib.ofString row.name),
    ("timestamp", lib.ofInt64 row.timestamp), ("score", lib.ofScore row.score)] hkeys
  have hobject : lib.isObject item = true := laws.boards.isObject_object _
  have hname : lib.field item "name" = some (lib.ofString row.name) := hfield "name"
  have htimestamp : lib.field item "timestamp" = some (lib.ofInt64 row.timestamp) :=
    hfield "timestamp"
  have hscore : lib.field item "score" = some (lib.ofScore row.score) := hfield "score"
  have hread := readRow_of_object hobject
  rw [hname, htimestamp, hscore] at hread
  simpa [laws.boards.getString_ofString, laws.boards.getInt64_ofInt64,
    laws.boards.getScore_ofScore] using hread

/-- The rows among the first items of a file, if all of them are rows. -/
def readRows (lib : JsonLibrary Text J T) (file : Option Text) (count : ℕ) :
    Option (List (Standing T)) :=
  (file.bind lib.parse).bind fun j =>
    if lib.isArray j = false then none
    else ((lib.elements j).take count).mapM (Leaderboard.readRow lib)

/-- A client gets the rows of the file, if it gets anything. -/
theorem decodedEntries_scored {convert : J → E → Bool × E} {into : E} {overwrite : Standing T → E}
    (hconvert : ∀ item, decode (convert item) into =
      (Leaderboard.readRow lib.toJsonLibrary item).map overwrite) (file : Option Text) (count : ℕ) :
    decodedEntries lib.toJsonLibrary convert into file count =
      (readRows lib.toJsonLibrary file count).map (List.map overwrite) := by
  unfold decodedEntries readRows
  cases file.bind lib.parse with
  | none => rfl
  | some j =>
    simp only [Option.bind_some, hconvert, mapM_option_map]
    split_ifs <;> rfl

end Decoding

/-! ## Leaderboards -/

/-- The object with the members of a row in place of its own. -/
def LeaderboardEntry.overwrite {T : Type} (into : LeaderboardEntry T) (row : Standing T) :
    LeaderboardEntry T :=
  { into with name := row.name, timestamp := row.timestamp, score := row.score }

namespace Leaderboard

variable {Text J T : Type} (lib : EntryLibrary Text J T)

/-- What a client gets from a file of a leaderboard. -/
def decodedFile (into : LeaderboardEntry T) (file : Option Text) (count : ℕ) :
    Option (List (LeaderboardEntry T)) :=
  decodedEntries lib.toJsonLibrary (LeaderboardEntry.fromJson lib) into file count

variable {lib}

theorem decodedFile_eq (laws : lib.Lawful) (into : LeaderboardEntry T) (file : Option Text)
    (count : ℕ) : decodedFile lib into file count =
      (readRows lib.toJsonLibrary file count).map (List.map into.overwrite) :=
  decodedEntries_scored (fun item => decode_scored laws _ _ _ item into) file count

/-- The board takes the rows of the file unless a name occurs twice. -/
theorem loadedRows_eq (lib : JsonLibrary Text J T) (file : Option Text) (maxSize : ℕ) :
    loadedRows lib file maxSize =
      (readRows lib file maxSize).filter fun rows => (rows.map Standing.name).Nodup := by
  unfold loadedRows readRows addedRows
  cases file.bind lib.parse with
  | none => rfl
  | some j =>
    rw [Option.bind_some]
    dsimp only
    split_ifs with harray
    · rfl
    · cases ((lib.elements j).take maxSize).mapM (readRow lib) with
      | none => rfl
      | some rows => simp [Option.filter]

variable [LinearOrder T]

omit [LinearOrder T] in
theorem map_name_overwrite (into : LeaderboardEntry T) (rows : List (Standing T)) :
    (rows.map into.overwrite).map (fun e => e.name) = rows.map Standing.name := by
  rw [List.map_map]
  rfl

omit [LinearOrder T] in
theorem map_standing_overwrite (into : LeaderboardEntry T) (rows : List (Standing T)) :
    (rows.map into.overwrite).map LeaderboardEntry.standing = rows := by
  rw [List.map_map]
  exact List.map_id rows

/-- For every file, a new board takes over entries exactly if a client can convert each of the first
items into an entry, whatever was in the object before, and no name comes twice. It then ranks what
the client gets, highest first; otherwise it is empty, with the direction it was constructed with. -/
theorem load_accepts_decoded (laws : lib.Lawful) (into : LeaderboardEntry T) (file : Option Text)
    (maxSize : ℕ) (highestFirst : Bool) :
    ∃ b es, construct lib.toJsonLibrary file maxSize highestFirst = some b ∧ b.ranked = some es ∧
      ((∃ decoded, decodedFile lib into file maxSize = some decoded ∧
          (decoded.map fun e => e.name).Nodup ∧ b.highestFirst = true ∧
          es.map LeaderboardEntry.standing =
            insertRows true (decoded.map LeaderboardEntry.standing) []) ∨
        ((∀ decoded, decodedFile lib into file maxSize = some decoded →
            ¬ (decoded.map fun e => e.name).Nodup) ∧
          b.highestFirst = highestFirst ∧ es = [])) := by
  obtain ⟨b, hb, hshows⟩ := construct_shows lib.toJsonLibrary file maxSize highestFirst
  obtain ⟨es, hes, hrows⟩ := hshows.ranked_returns
  refine ⟨b, es, hb, hes, ?_⟩
  rw [hshows.direction_eq, decodedFile_eq laws]
  have hloaded := loadedRows_eq lib.toJsonLibrary file maxSize
  have hrefused : loadedRows lib.toJsonLibrary file maxSize = none →
      loadedDirection lib.toJsonLibrary file maxSize highestFirst = highestFirst ∧ es = [] := by
    intro hnone
    rw [loadedStandings, hnone, List.map_eq_nil_iff] at hrows
    exact ⟨by rw [loadedDirection, hnone], hrows⟩
  cases hread : readRows lib.toJsonLibrary file maxSize with
  | none =>
    rw [hread, Option.filter_none] at hloaded
    refine .inr ⟨?_, hrefused hloaded⟩
    intro decoded hdecoded
    cases hdecoded
  | some rows =>
    rw [hread, Option.filter_some] at hloaded
    by_cases hnodup : (rows.map Standing.name).Nodup
    · rw [if_pos (decide_eq_true hnodup)] at hloaded
      refine .inl ⟨rows.map into.overwrite, rfl, ?_, ?_, ?_⟩
      · rwa [map_name_overwrite]
      · rw [loadedDirection, hloaded]
      · rw [map_standing_overwrite, hrows, loadedStandings, hloaded]
    · rw [if_neg (by simpa using hnodup)] at hloaded
      refine .inr ⟨?_, hrefused hloaded⟩
      intro decoded hdecoded
      cases hdecoded
      rwa [map_name_overwrite]

/-- A file with a member that no entry has, and with the members in any order. -/
theorem load_accepts_decoded_members :
    let file : Json := .array [.object [("score", .integer 3), ("name", .string "a"),
      ("team", .string "red"), ("timestamp", .integer 7)]]
    ∃ b es, construct Json.library (some file) 4 false = some b ∧ b.ranked = some es ∧
      es.map LeaderboardEntry.standing = [⟨"a", 3, 7⟩] := by
  intro file
  obtain ⟨b, es, hb, hes, hload⟩ := load_accepts_decoded Json.entryLibrary_lawful
    (⟨⟨"old", 1, 2⟩, 0, 0⟩ : LeaderboardEntry ℤ) (some file) 4 false
  have hdecoded : decodedFile Json.entryLibrary (⟨⟨"old", 1, 2⟩, 0, 0⟩ : LeaderboardEntry ℤ)
      (some file) 4 = some [⟨⟨"a", 7, 2⟩, 3, 0⟩] := by decide
  refine ⟨b, es, hb, hes, ?_⟩
  rcases hload with ⟨decoded, hsome, -, -, hrows⟩ | ⟨hrefused, -⟩
  · rw [hdecoded, Option.some.injEq] at hsome
    rw [hrows, ← hsome]
    rfl
  · exact absurd (by decide) (hrefused _ hdecoded)

/-! ### Files of entries -/

/-- `load` depends on the rows of the items only. -/
theorem loadLoop_congr (lib : JsonLibrary Text J T) {items items' : List J}
    (h : items.map (readRow lib) = items'.map (readRow lib)) (itemCount : ℕ) (new : Leaderboard T) :
    loadLoop lib items itemCount new = loadLoop lib items' itemCount new := by
  induction items generalizing items' itemCount new with
  | nil =>
    rw [List.map_nil, eq_comm, List.map_eq_nil_iff] at h
    rw [h]
  | cons item items ih =>
    obtain ⟨item', rest, rfl, hitem, hrest⟩ := List.map_eq_cons_iff.mp h.symm
    have hread : readItem lib item' = readItem lib item := by
      refine Option.map_injective ?_ hitem
      rintro ⟨name, score, timestamp⟩ ⟨name', score', timestamp'⟩ hrow
      simpa using hrow
    simp only [loadLoop, hread]
    split_ifs
    · rfl
    · cases readItem lib item with
      | none => rfl
      | some row =>
        dsimp only
        congr 1
        funext new
        split_ifs
        · exact ih hrest.symm _ _
        · rfl

theorem construct_congr {lib : JsonLibrary Text J T} (laws : lib.Lawful) {file file' : Option Text}
    {items items' : List J} (hfile : file.bind lib.parse = some (lib.array items))
    (hfile' : file'.bind lib.parse = some (lib.array items'))
    (h : items.map (readRow lib) = items'.map (readRow lib)) (maxSize : ℕ) (highestFirst : Bool) :
    construct lib file maxSize highestFirst = construct lib file' maxSize highestFirst := by
  simp only [construct, load, hfile, hfile', laws.isArray_array, laws.elements_array,
    loadLoop_congr lib h]

/-- From any leaderboard that can be reached, after a successful save: a client that converts the
items of the file into objects of its own gets the ranked entries in order, and the ids and places of
its objects are kept. A file in which the client wrote these entries itself is loaded like the saved
one, although its members come in another order. -/
theorem saved_entries_decode (laws : lib.Lawful) {file : Option Text} {maxSize : ℕ}
    {highestFirst : Bool} {calls : List (Submission T)} {b : Leaderboard T}
    (hafter : after lib.toJsonLibrary file maxSize highestFirst calls = some b)
    {disk disk' : Disk Text} {io : SaveOutcome Text}
    (hsave : b.save lib.toJsonLibrary disk io = some (true, disk')) :
    ∃ es, b.ranked = some es ∧
      (∀ into count, decodedFile lib into disk'.file count =
        some ((es.take count).map fun e => into.overwrite e.standing)) ∧
      ∀ text, lib.parse text = some (lib.array (es.map (LeaderboardEntry.toJson lib))) →
        ∀ maxSize' direction, construct lib.toJsonLibrary (some text) maxSize' direction =
          construct lib.toJsonLibrary disk'.file maxSize' direction := by
  obtain ⟨rows, hshows⟩ := after_shows lib.toJsonLibrary hafter
  obtain ⟨es, hes, hrows⟩ := hshows.ranked_returns
  obtain ⟨saved, disk'', hsave', hcases⟩ := hshows.save lib.toJsonLibrary disk io
  rw [hsave, Option.some.injEq, Prod.mk.injEq] at hsave'
  obtain ⟨rfl, rfl⟩ := hsave'
  obtain ⟨hfalse, -⟩ | ⟨-, text, hdump, hfile⟩ := hcases
  · cases hfalse
  refine ⟨es, hes, ?_, ?_⟩
  · intro into count
    have hload := loadedRows_dump laws.boards hshows.ranked.names hdump count
    rw [loadedRows_eq, Option.filter_eq_some_iff] at hload
    rw [hfile, decodedFile_eq laws, hload.1, Option.map_some, ← hrows, ← List.map_take, List.map_map]
    rfl
  · intro text' htext' maxSize' direction
    have hparse : (some text').bind lib.parse =
        some (lib.array (es.map (LeaderboardEntry.toJson lib))) := htext'
    rw [hfile]
    refine construct_congr laws.boards hparse (parse_rows laws.boards hdump) ?_ maxSize' direction
    rw [← hrows, List.map_map, List.map_map, List.map_map]
    apply List.map_congr_left
    intro e _
    exact (readRow_scoredItem laws e.standing).trans (readRow_itemOf laws.boards e.standing).symm

/-- A board after an update, ranked lowest first. -/
theorem saved_entries_decode_update : ∃ (b : Leaderboard ℤ) (disk' : Disk Json) (es : _),
    after Json.library none 4 false [⟨"a", 9, 1, 0, 0⟩, ⟨"b", 7, 2, 0, 0⟩, ⟨"a", 5, 3, 0, 0⟩] = some b ∧
    b.save Json.library ⟨none, none⟩ ⟨true, true, true, .integer 0⟩ = some (true, disk') ∧
    b.ranked = some es ∧
    ∀ into count, decodedFile Json.entryLibrary into disk'.file count =
      some ((es.take count).map fun e => into.overwrite e.standing) := by
  obtain ⟨b, disk', hb, hsave⟩ : ∃ (b : Leaderboard ℤ) (disk' : Disk Json),
      after Json.library none 4 false
        [⟨"a", 9, 1, 0, 0⟩, ⟨"b", 7, 2, 0, 0⟩, ⟨"a", 5, 3, 0, 0⟩] = some b ∧
      b.save Json.library ⟨none, none⟩ ⟨true, true, true, .integer 0⟩ = some (true, disk') :=
    ⟨_, _, rfl, rfl⟩
  obtain ⟨es, hes, hdecode, -⟩ := saved_entries_decode Json.entryLibrary_lawful hb hsave
  exact ⟨b, disk', es, hb, hsave, hes, hdecode⟩

end Leaderboard

/-! ## Score streams -/

/-- The object with the members of a row in place of its own. -/
def ScoreStreamEntry.overwrite {T : Type} (into : ScoreStreamEntry T) (row : Standing T) :
    ScoreStreamEntry T :=
  { into with name := row.name, timestamp := row.timestamp, score := row.score }

namespace ScoreStream

variable {Text J T : Type} {lib : EntryLibrary Text J T}

theorem construct_congr {lib : JsonLibrary Text J T} (laws : lib.Lawful) {file file' : Option Text}
    {items items' : List J} (hfile : file.bind lib.parse = some (lib.array items))
    (hfile' : file'.bind lib.parse = some (lib.array items'))
    (h : items.map (Leaderboard.readRow lib) = items'.map (Leaderboard.readRow lib)) (maxSize : ℕ) :
    construct lib file maxSize = construct lib file' maxSize := by
  have htake : (items.take maxSize).mapM (Leaderboard.readRow lib) =
      (items'.take maxSize).mapM (Leaderboard.readRow lib) := by
    apply Option.ext
    intro rows
    rw [mapM_eq_some_iff, mapM_eq_some_iff, List.map_take, List.map_take, h]
  simp only [construct, load, hfile, hfile', laws.isArray_array, laws.elements_array, loadLoop_eq,
    Nat.sub_zero, htake]

/-- A client that converts the items of a saved stream gets its entries, the oldest first, and a file
that it writes itself is loaded like the saved one. -/
theorem saved_scores_decode (laws : lib.Lawful) {s : ScoreStream T}
    {disk disk' : Leaderboard.Disk Text} {io : Leaderboard.SaveOutcome Text}
    (hsave : s.save lib.toJsonLibrary disk io = (true, disk')) :
    (∀ into count, decodedEntries lib.toJsonLibrary (ScoreStreamEntry.fromJson lib) into disk'.file
        count = some ((s.getAll.reverse.take count).map fun e => into.overwrite e.standing)) ∧
      ∀ text, lib.parse text =
          some (lib.array (s.getAll.reverse.map (ScoreStreamEntry.toJson lib))) →
        ∀ maxSize, construct lib.toJsonLibrary (some text) maxSize =
          construct lib.toJsonLibrary disk'.file maxSize := by
  obtain ⟨text, hdump, hfile⟩ := file_of_saveFile hsave
  rw [toJson_eq] at hdump
  have hparse := Leaderboard.parse_rows laws.boards hdump
  have hrows : s.rows.reverse = s.getAll.reverse.map ScoreStreamEntry.standing := by
    rw [rows, List.map_reverse]
  constructor
  · intro into count
    have hdecode : ∀ item, decode (ScoreStreamEntry.fromJson lib item) into =
        (Leaderboard.readRow lib.toJsonLibrary item).map into.overwrite :=
      fun item => decode_scored laws _ _ _ item into
    rw [hfile, decodedEntries_scored hdecode, readRows, hparse, Option.bind_some,
      laws.boards.isArray_array, laws.boards.elements_array, if_neg (by decide), ← List.map_take,
      Leaderboard.mapM_readRow_itemOf laws.boards, Option.map_some, hrows, ← List.map_take,
      List.map_map]
    rfl
  · intro text' htext' maxSize
    have hparse' : (some text').bind lib.parse =
        some (lib.array (s.getAll.reverse.map (ScoreStreamEntry.toJson lib))) := htext'
    rw [hfile]
    refine construct_congr laws.boards hparse' hparse ?_ maxSize
    rw [hrows, List.map_map, List.map_map, List.map_map]
    apply List.map_congr_left
    intro e _
    exact (readRow_scoredItem laws e.standing).trans
      (Leaderboard.readRow_itemOf laws.boards e.standing).symm

end ScoreStream

/-! ## Nameboards -/

namespace Nameboard

variable {Text J T : Type} {lib : EntryLibrary Text J T}

theorem loadLoop_congr (lib : JsonLibrary Text J T) {items items' : List J}
    (h : items.map (readItem lib) = items'.map (readItem lib)) (itemCount : ℕ) (new : Nameboard) :
    loadLoop lib items itemCount new = loadLoop lib items' itemCount new := by
  induction items generalizing items' itemCount new with
  | nil =>
    rw [List.map_nil, eq_comm, List.map_eq_nil_iff] at h
    rw [h]
  | cons item items ih =>
    obtain ⟨item', rest, rfl, hread, hrest⟩ := List.map_eq_cons_iff.mp h.symm
    simp only [loadLoop, hread]
    split_ifs
    · rfl
    · cases readItem lib item with
      | none => rfl
      | some row =>
        dsimp only
        congr 1
        funext new
        exact ih hrest.symm _ _

theorem construct_congr {lib : JsonLibrary Text J T} (laws : lib.Lawful) {file file' : Option Text}
    {items items' : List J} (hfile : file.bind lib.parse = some (lib.array items))
    (hfile' : file'.bind lib.parse = some (lib.array items'))
    (h : items.map (readItem lib) = items'.map (readItem lib)) (maxSize : ℕ) :
    construct lib file maxSize = construct lib file' maxSize := by
  simp only [construct, load, hfile, hfile', laws.isArray_array, laws.elements_array,
    loadLoop_congr lib h]

section Fields

variable (laws : lib.Lawful) (e into : Entry)
include laws

/-- A saved row has no id: the conversion throws when the name and the timestamp are assigned. -/
theorem fromJson_itemOf : Entry.fromJson lib (itemOf lib.toJsonLibrary e.row) into =
    (false, { into with name := e.name, timestamp := e.timestamp }) := by
  let item := itemOf lib.toJsonLibrary e.row
  have hkeys : [nameboardNameKey, nameboardTimestampKey].Nodup := by decide
  have hfield := laws.boards.field_object [(nameboardNameKey, lib.ofString e.name),
    (nameboardTimestampKey, lib.ofInt64 e.timestamp)] hkeys
  have hname : lib.field item "name" = some (lib.ofString e.name) := hfield "name"
  have htimestamp : lib.field item "timestamp" = some (lib.ofInt64 e.timestamp) :=
    hfield "timestamp"
  have hid : lib.field item "id" = none := hfield "id"
  simp [Entry.fromJson, assignFields, getTo, item, hname, htimestamp, hid,
    laws.boards.getString_ofString, laws.boards.getInt64_ofInt64]

/-- The members of a converted entry. -/
theorem field_toJson : lib.field (e.toJson lib) "name" = some (lib.ofString e.name) ∧
    lib.field (e.toJson lib) "timestamp" = some (lib.ofInt64 e.timestamp) ∧
    lib.field (e.toJson lib) "id" = some (lib.ofUInt64 e.id) := by
  have hkeys : ["name", "timestamp", "id"].Nodup := by decide
  have hfield := laws.boards.field_object [("name", lib.ofString e.name),
    ("timestamp", lib.ofInt64 e.timestamp), ("id", lib.ofUInt64 e.id)] hkeys
  exact ⟨hfield "name", hfield "timestamp", hfield "id"⟩

theorem readItem_toJson : readItem lib.toJsonLibrary (e.toJson lib) = some e.row := by
  obtain ⟨hname, htimestamp, -⟩ := field_toJson laws e
  have hobject : lib.isObject (e.toJson lib) = true := laws.boards.isObject_object _
  simp [readItem, nameboardNameKey, nameboardTimestampKey, hobject, hname, htimestamp,
    laws.boards.getString_ofString, laws.boards.getInt64_ofInt64, Entry.row]

theorem decode_toJson (hid : e.id < 2 ^ 64) :
    decode (Entry.fromJson lib (e.toJson lib)) into = some e := by
  obtain ⟨hname, htimestamp, hfield⟩ := field_toJson laws e
  rw [Entry.fromJson, decode_three]
  simp [getTo, hname, htimestamp, hfield, laws.boards.getString_ofString,
    laws.boards.getInt64_ofInt64, laws.getUInt64_ofUInt64 e.id hid]

end Fields

/-- A saved nameboard is not what `from_json` reads: on every item it throws for want of the id, and
the name and timestamp of the object are overwritten by then. A client can write the entries itself:
its file is loaded like the saved one, and it reads back the entries with their ids. -/
theorem saved_names_lack_ids (laws : lib.Lawful) {file : Option Text} {maxSize : ℕ}
    {calls : List NameCall} {b₀ b : Nameboard}
    (hb₀ : construct lib.toJsonLibrary file maxSize = some b₀)
    (hrun : Library.run step b₀ calls = some b)
    {disk disk' : Leaderboard.Disk Text} {io : Leaderboard.SaveOutcome Text}
    (hsave : b.save lib.toJsonLibrary disk io = some (true, disk')) :
    ∃ es items, b.getAll = some es ∧ disk'.file.bind lib.parse = some (lib.array items) ∧
      (∀ into, items.map (fun item => Entry.fromJson lib item into) =
        es.map fun e => (false, { into with name := e.name, timestamp := e.timestamp })) ∧
      ∀ text, lib.parse text = some (lib.array (es.map (Entry.toJson lib))) →
        (∀ maxSize', construct lib.toJsonLibrary (some text) maxSize' =
          construct lib.toJsonLibrary disk'.file maxSize') ∧
        ((∀ e ∈ es, e.id < 2 ^ 64) → ∀ into count,
          decodedEntries lib.toJsonLibrary (Entry.fromJson lib) into (some text) count =
            some (es.take count)) := by
  obtain ⟨c₀, hc₀, hshows₀⟩ := construct_shows lib.toJsonLibrary file maxSize
  rw [hb₀, Option.some.injEq] at hc₀
  obtain ⟨c, es, hrun', hshows⟩ := (hc₀ ▸ hshows₀).run calls
  rw [hrun, Option.some.injEq] at hrun'
  subst hrun'
  rw [save, hshows.toJson, Option.bind_eq_bind, Option.bind_some, Option.some.injEq] at hsave
  obtain ⟨text, hdump, hfile⟩ := file_of_saveFile hsave
  have hwritten : ∀ item ∈ (es.map Entry.row).map (itemOf lib.toJsonLibrary),
      lib.Written item := by
    intro item hitem
    obtain ⟨row, _, rfl⟩ := List.mem_map.mp hitem
    exact written_itemOf row
  have hparse := laws.boards.parse_file hwritten hdump
  refine ⟨es, (es.map Entry.row).map (itemOf lib.toJsonLibrary), hshows.getAll, ?_, ?_, ?_⟩
  · rw [hfile, hparse]
  · intro into
    rw [List.map_map, List.map_map]
    apply List.map_congr_left
    intro e _
    exact fromJson_itemOf laws e into
  · intro text' htext'
    have hparse' : (some text').bind lib.parse =
        some (lib.array (es.map (Entry.toJson lib))) := htext'
    constructor
    · intro maxSize'
      rw [hfile]
      refine construct_congr laws.boards hparse' hparse ?_ maxSize'
      rw [List.map_map, List.map_map, List.map_map]
      apply List.map_congr_left
      intro e _
      exact (readItem_toJson laws e).trans (readItem_itemOf laws.boards e.row).symm
    · intro hids into count
      rw [decodedEntries, hparse']
      simp only [laws.boards.isArray_array, laws.boards.elements_array]
      rw [if_neg (by decide), ← List.map_take, mapM_eq_some_iff, List.map_map]
      apply List.map_congr_left
      intro e he
      exact decode_toJson laws e into (hids e (List.mem_of_mem_take he))

/-- A board of two names. -/
theorem saved_names_lack_ids_two : ∃ (b₀ b : Nameboard) (disk' : Leaderboard.Disk Json)
    (es : List Entry) (items : List Json), construct Json.library none 4 = some b₀ ∧
    Library.run step b₀ [⟨"a", 1⟩, ⟨"b", 2⟩] = some b ∧
    b.save Json.library ⟨none, none⟩ ⟨true, true, true, .integer 0⟩ = some (true, disk') ∧
    b.getAll = some es ∧ disk'.file = some (.array items) ∧
    items.map (fun item => Entry.fromJson Json.entryLibrary item ⟨"old", 5, 8⟩) =
      es.map fun e => (false, ⟨e.name, e.timestamp, 8⟩) := by
  obtain ⟨b₀, b, disk', hb₀, hb, hsave⟩ : ∃ (b₀ b : Nameboard) (disk' : Leaderboard.Disk Json),
      construct Json.library none 4 = some b₀ ∧
      Library.run step b₀ [⟨"a", 1⟩, ⟨"b", 2⟩] = some b ∧
      b.save Json.library ⟨none, none⟩ ⟨true, true, true, .integer 0⟩ = some (true, disk') :=
    ⟨_, _, _, rfl, rfl, rfl⟩
  obtain ⟨es, items, hes, hfile, hconvert, -⟩ :=
    saved_names_lack_ids Json.entryLibrary_lawful hb₀ hb hsave
  refine ⟨b₀, b, disk', es, items, hb₀, hb, hsave, hes, ?_, hconvert _⟩
  exact (Option.bind_fun_some disk'.file).symm.trans hfile

end Nameboard

end ServerSimple.GlobalBoards
