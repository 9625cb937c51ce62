import ServerSimple.Library.Runs
import ServerSimple.GlobalBoards.LeaderboardRefinement

/-! # What a leaderboard loads

The rows of a file that a board takes over, as a function of the file alone, and the standings it
builds from them: each row goes in where the default comparator puts it, which is highest first.
-/

namespace ServerSimple.GlobalBoards

open Library Cell

namespace Leaderboard

variable {T : Type} {Text J : Type} (lib : JsonLibrary Text J T)

/-- The row that an item of the array stands for. -/
def readRow (item : J) : Option (Standing T) :=
  (readItem lib item).map fun row => ⟨row.1, row.2.1, row.2.2⟩

/-- The rows that the first items add to standings that are there: all items must be rows, and no
name may occur twice. -/
def addedRows (items : List J) (count : ℕ) (standings : List (Standing T)) :
    Option (List (Standing T)) :=
  match (items.take count).mapM (readRow lib) with
  | none => none
  | some rows => if ((standings ++ rows).map Standing.name).Nodup then some rows else none

/-- The rows that a board of the given capacity takes over from a file, if it can. -/
def loadedRows (file : Option Text) (maxSize : ℕ) : Option (List (Standing T)) :=
  match file.bind lib.parse with
  | none => none
  | some j => if lib.isArray j = false then none else addedRows lib (lib.elements j) maxSize []

theorem addedRows_cons (item : J) (items : List J) (count : ℕ) (standings : List (Standing T)) :
    addedRows lib (item :: items) (count + 1) standings =
      (readRow lib item).bind fun row =>
        if row.name ∈ standings.map Standing.name then none
        else (addedRows lib items count (standings ++ [row])).map (row :: ·) := by
  unfold addedRows
  rw [List.take_succ_cons, List.mapM_cons]
  cases readRow lib item with
  | none => rfl
  | some row =>
    simp only [Option.bind_eq_bind, Option.bind_some]
    cases (items.take count).mapM (readRow lib) with
    | none => simp
    | some rows =>
      simp only [Option.bind_some, Option.pure_def, List.append_assoc, List.singleton_append]
      by_cases hmem : row.name ∈ standings.map Standing.name
      · rw [if_pos hmem, if_neg]
        rw [List.map_append, List.map_cons, List.nodup_middle, List.nodup_cons]
        rintro ⟨hnot, _⟩
        exact hnot (List.mem_append_left _ hmem)
      · rw [if_neg hmem]
        split_ifs <;> rfl

/-- Only the names of the standings matter, in any order. -/
theorem addedRows_perm {standings standings' : List (Standing T)} (h : standings.Perm standings')
    (items : List J) (count : ℕ) :
    addedRows lib items count standings = addedRows lib items count standings' := by
  unfold addedRows
  cases (items.take count).mapM (readRow lib) with
  | none => rfl
  | some rows => simp only [((h.append_right rows).map Standing.name).nodup_iff]

theorem addedRows_nil {standings : List (Standing T)} {items : List J} {count : ℕ}
    (hitems : items.take count = []) (h : (standings.map Standing.name).Nodup) :
    addedRows lib items count standings = some [] := by
  simp [addedRows, hitems, h]

variable [LinearOrder T]

/-- The standings after the rows went in one after the other. -/
def insertRows (highestFirst : Bool) (rows standings : List (Standing T)) : List (Standing T) :=
  rows.foldl (fun standings row => standings.orderedInsert (Standing.Ahead highestFirst) row) standings

theorem map_name_nodup {heap : ℕ → Option (LeaderboardEntry T)} {highestFirst : Bool}
    {nextId nextAddress : ℕ} {cells : List (Cell T)}
    (h : Linked heap highestFirst nextId nextAddress cells) :
    ((cells.map standing).map Standing.name).Nodup := by
  rw [List.map_map, List.Nodup, List.pairwise_map]
  exact h.apart.imp fun hapart => hapart.2.2.1

theorem Represents.lookup_eq_none_iff {b : Leaderboard T} {cells : List (Cell T)}
    (h : b.Represents cells) {name : String} :
    b.entries.lookup name = none ↔ name ∉ (cells.map standing).map Standing.name := by
  rw [h.lookup_eq_none, List.map_map, List.mem_map]
  push Not
  rfl

/-- The entry that `load` makes of a row. -/
def loadedEntry (new : Leaderboard T) (row : Standing T) : LeaderboardEntry T :=
  ⟨⟨row.name, row.timestamp, new.nextId⟩, row.score, 0⟩

section Loop

variable {new : Leaderboard T} {cells : List (Cell T)} {item : J}

theorem loadLoop_cons_of_none {count : ℕ} (hroom : count + 1 ≤ new.maxSize) (items : List J)
    (hread : readRow lib item = none) : loadLoop lib (item :: items) count new = some none := by
  rw [readRow, Option.map_eq_none_iff] at hread
  rw [loadLoop, if_neg (Nat.not_lt_of_le hroom), hread]

/-- A row goes into both containers, and the load fails if the name was there before. -/
theorem loadLoop_cons_of_some (h : new.Represents cells) (hroom : cells.length + 1 ≤ new.maxSize)
    (items : List J) {row : Standing T} (hread : readRow lib item = some row) :
    loadLoop lib (item :: items) cells.length new =
      if row.name ∈ (cells.map standing).map Standing.name then some none
      else loadLoop lib items (cells.length + 1) (new.insertedBoard cells (loadedEntry new row)) := by
  obtain ⟨⟨name, score, timestamp⟩, hitem, rfl⟩ := Option.map_eq_some_iff.mp hread
  have hinsert := insertEntry_eq h (loadedEntry new ⟨name, score, timestamp⟩)
  rw [loadLoop, if_neg (Nat.not_lt_of_le hroom), hitem]
  simp only [Option.bind_eq_bind]
  rw [loadedEntry] at hinsert
  rw [hinsert, Option.bind_some]
  by_cases hmem : name ∈ (cells.map standing).map Standing.name
  · obtain ⟨p, hp⟩ := Option.ne_none_iff_exists'.mp (mt h.lookup_eq_none_iff.mp (not_not.mpr hmem))
    rw [if_pos hmem, hp]
    rfl
  · rw [if_neg hmem, h.lookup_eq_none_iff.mpr hmem]
    rfl

/-- The loop on the items that are left, from containers that hold some cells already. -/
theorem loadLoop_refines (items : List J) (h : new.Represents cells)
    (hlen : cells.length ≤ new.maxSize) :
    (addedRows lib items (new.maxSize - cells.length) (cells.map standing) = none ∧
      loadLoop lib items cells.length new = some none) ∨
    ∃ rows new' cells',
      addedRows lib items (new.maxSize - cells.length) (cells.map standing) = some rows ∧
      loadLoop lib items cells.length new = some (some new') ∧ new'.Represents cells' ∧
      new'.highestFirst = new.highestFirst ∧ new'.maxSize = new.maxSize ∧
      cells'.map standing = insertRows new.highestFirst rows (cells.map standing) := by
  induction items generalizing new cells with
  | nil =>
    refine .inr ⟨[], new, cells, ?_, rfl, h, rfl, rfl, rfl⟩
    exact addedRows_nil lib List.take_nil (map_name_nodup h.linked)
  | cons item items ih =>
    by_cases hfull : cells.length + 1 > new.maxSize
    · refine .inr ⟨[], new, cells, ?_, by rw [loadLoop, if_pos hfull], h, rfl, rfl, rfl⟩
      have hzero : new.maxSize - cells.length = 0 := by omega
      rw [hzero]
      exact addedRows_nil lib List.take_zero (map_name_nodup h.linked)
    · have hroom := Nat.le_of_not_lt hfull
      have hcount : new.maxSize - cells.length = new.maxSize - (cells.length + 1) + 1 := by omega
      rw [hcount, addedRows_cons]
      cases hread : readRow lib item with
      | none => exact .inl ⟨rfl, loadLoop_cons_of_none lib hroom items hread⟩
      | some row =>
        rw [loadLoop_cons_of_some lib h hroom items hread, Option.bind_some]
        by_cases hmem : row.name ∈ (cells.map standing).map Standing.name
        · exact .inl ⟨if_pos hmem, if_pos hmem⟩
        · -- the row is new: go on with the containers that hold it
          let entry := loadedEntry new row
          have hlength : (cells.orderedInsert (Before new.highestFirst) (new.newCell entry)).length =
              cells.length + 1 := List.orderedInsert_length ..
          have hstandings := h.linked.map_standing_orderedInsert (c := new.newCell entry) rfl
          have hperm : (cells.map standing ++ [row]).Perm
              ((cells.map standing).orderedInsert (Standing.Ahead new.highestFirst) row) :=
            (List.perm_append_singleton _ _).trans (List.perm_orderedInsert ..).symm
          have hrest := ih (h.insertedBoard entry rfl (h.lookup_eq_none_iff.mpr hmem))
            (hlength.le.trans hroom)
          rw [if_neg hmem, if_neg hmem, addedRows_perm lib hperm]
          rw [hlength, hstandings] at hrest
          rcases hrest with ⟨hrows, hloop⟩ | ⟨rows, new', cells', hrows, hloop, hrep, hhf, hms, hcells⟩
          · exact .inl ⟨congrArg (Option.map (row :: ·)) hrows, hloop⟩
          · exact .inr ⟨row :: rows, new', cells', congrArg (Option.map (row :: ·)) hrows, hloop,
              hrep, hhf, hms, hcells⟩

end Loop

theorem insertRows_perm (direction : Bool) (rows standings : List (Standing T)) :
    (insertRows direction rows standings).Perm (rows ++ standings) := by
  induction rows generalizing standings with
  | nil => exact .refl _
  | cons row rows ih =>
    refine (ih (standings.orderedInsert _ row)).trans ?_
    refine ((List.perm_orderedInsert _ row standings).append_left rows).trans ?_
    exact List.perm_middle

omit [LinearOrder T] in
theorem length_addedRows {items : List J} {count : ℕ} {standings rows : List (Standing T)}
    (h : addedRows lib items count standings = some rows) : rows.length ≤ count := by
  unfold addedRows at h
  cases hmap : (items.take count).mapM (readRow lib) with
  | none => simp [hmap] at h
  | some listed =>
    have hlength := length_of_mapM_eq_some hmap
    simp only [hmap, Option.ite_none_right_eq_some, Option.some.injEq] at h
    rw [← h.2, hlength]
    exact List.length_take_le ..

theorem represents_empty (maxSize : ℕ) (highestFirst : Bool) :
    (⟨fun _ => none, ∅, [], highestFirst, 0, maxSize, 0⟩ : Leaderboard T).Represents [] where
  ranking := rfl
  linked := .nil
  owned name p := by simp

/-- A new board is empty and keeps its direction if the file cannot be loaded, and else shows the
rows of the file, ranked highest first. -/
theorem construct_refines (file : Option Text) (maxSize : ℕ) (highestFirst : Bool) :
    ∃ b cells, construct lib file maxSize highestFirst = some b ∧ b.Represents cells ∧
      b.maxSize = maxSize ∧ cells.length ≤ maxSize ∧
      ((loadedRows lib file maxSize = none ∧ b.highestFirst = highestFirst ∧ cells = []) ∨
        ∃ rows, loadedRows lib file maxSize = some rows ∧ b.highestFirst = true ∧
          cells.map standing = insertRows true rows []) := by
  have hempty := represents_empty (T := T) maxSize highestFirst
  unfold construct load loadedRows
  cases hparse : file.bind lib.parse with
  | none => exact ⟨_, [], rfl, hempty, rfl, Nat.zero_le _, .inl ⟨rfl, rfl, rfl⟩⟩
  | some j =>
    dsimp only
    by_cases harray : lib.isArray j = false
    · rw [if_pos harray, if_pos harray]
      exact ⟨_, [], rfl, hempty, rfl, Nat.zero_le _, .inl ⟨rfl, rfl, rfl⟩⟩
    · rw [if_neg harray, if_neg harray, Option.bind_eq_bind]
      rcases loadLoop_refines lib (lib.elements j) (represents_empty (T := T) maxSize true)
        (Nat.zero_le _) with ⟨hrows, hfail⟩ | ⟨rows, new, cells, hrows, hload, hrep, hhf, hms, hcells⟩
      · refine ⟨_, [], ?_, hempty, rfl, Nat.zero_le _, .inl ⟨hrows, rfl, rfl⟩⟩
        rw [List.length_nil] at hfail
        rw [hfail]
        rfl
      · refine ⟨new, cells, ?_, hrep, hms, ?_, .inr ⟨rows, hrows, hhf, hcells⟩⟩
        · rw [List.length_nil] at hload
          rw [hload]
          rfl
        · have hlength := congrArg List.length hcells
          rw [List.length_map, (insertRows_perm ..).length_eq] at hlength
          have hle := length_addedRows lib hrows
          simp at hlength hle
          omega

end Leaderboard
end ServerSimple.GlobalBoards
