import ServerSimple.GlobalBoards.NameboardChronology

/-! # Saving and reloading a nameboard

The file lists the entries in the order of the ranking. Loading them in that order appends each one
to those before, so the new board shows the same rows although its ids are other ones.
-/

namespace ServerSimple.GlobalBoards

open Library

/-- What is left of an entry without its id. -/
def Entry.row (e : Entry) : String × ℤ := (e.name, e.timestamp)

namespace Nameboard

/-! ## What is written is read -/

section Items

variable {Text J T : Type} (lib : JsonLibrary Text J T)

/-- The object that `save` writes for a row. -/
def itemOf (row : String × ℤ) : J :=
  lib.object [(nameboardNameKey, lib.ofString row.1), (nameboardTimestampKey, lib.ofInt64 row.2)]

variable {lib}

theorem readItem_itemOf (laws : lib.Lawful) (row : String × ℤ) :
    readItem lib (itemOf lib row) = some row := by
  have hkeys : [nameboardNameKey, nameboardTimestampKey].Nodup := by decide
  have hfield := laws.field_object [(nameboardNameKey, lib.ofString row.1),
    (nameboardTimestampKey, lib.ofInt64 row.2)] hkeys
  have hname : lib.field (itemOf lib row) nameboardNameKey = some (lib.ofString row.1) :=
    hfield nameboardNameKey
  have htimestamp : lib.field (itemOf lib row) nameboardTimestampKey = some (lib.ofInt64 row.2) :=
    hfield nameboardTimestampKey
  have hobject : lib.isObject (itemOf lib row) = true := laws.isObject_object _
  simp [readItem, hobject, hname, htimestamp, laws.getString_ofString, laws.getInt64_ofInt64]

theorem written_itemOf (row : String × ℤ) : lib.Written (itemOf lib row) := by
  apply JsonLibrary.Written.object
  intro f hf
  simp only [List.mem_cons, List.not_mem_nil, or_false] at hf
  rcases hf with rfl | rfl
  · exact .string row.1
  · exact .int64 row.2

/-- A file that holds the dump of these rows loads as many of them as fit. -/
theorem loadedRows_dump (laws : lib.Lawful) {rows : List (String × ℤ)} {text : Text}
    (hdump : lib.dump (lib.array (rows.map (itemOf lib))) = some text) (m : ℕ) :
    loadedRows lib (some text) m = some (rows.take m) := by
  have hwritten : ∀ item ∈ rows.map (itemOf lib), lib.Written item := by
    intro item hitem
    obtain ⟨row, _, rfl⟩ := List.mem_map.mp hitem
    exact written_itemOf row
  have hread := mapM_map_of_forall (readItem_itemOf laws) (rows.take m)
  simp only [loadedRows, laws.parse_file hwritten hdump, laws.isArray_array, laws.elements_array,
    ← List.map_take, hread]
  rfl

end Items

/-! ## The new board shows the same -/

/-- Rows that come in order are appended. -/
theorem map_row_insertRows {rows : List (String × ℤ)} {id : ℕ} {es : List Entry}
    (hid : ∀ e ∈ es, e.id < id)
    (hsorted : (es.map Entry.row ++ rows).Pairwise fun row row' => row.2 ≤ row'.2) :
    (insertRows rows id es).map Entry.row = es.map Entry.row ++ rows := by
  induction rows generalizing id es with
  | nil =>
    rw [List.append_nil]
    rfl
  | cons row rows ih =>
    let new : Entry := ⟨row.1, row.2, id⟩
    have hend : es.orderedInsert Entry.Before new = es ++ [new] := by
      apply orderedInsert_eq_append
      intro e he hbefore
      have hissued := hid e he
      have htimestamp : e.timestamp ≤ row.2 :=
        (List.pairwise_append.mp hsorted).2.2 e.row (List.mem_map_of_mem he) row List.mem_cons_self
      rw [Entry.before_iff] at hbefore
      simp only [new] at hbefore
      omega
    have hrows : (es ++ [new]).map Entry.row = es.map Entry.row ++ [row] := by
      rw [List.map_append]
      rfl
    rw [insertRows, hend, ih, hrows, List.append_assoc]
    · rfl
    · intro e he
      rcases List.mem_append.mp he with he | he
      · exact (hid e he).trans (Nat.lt_succ_self id)
      · rw [List.mem_singleton.mp he]
        exact Nat.lt_succ_self id
    · rwa [hrows, List.append_assoc]

variable {b : Nameboard} {maxSize : ℕ} {es : List Entry}

theorem Shows.timestamps (h : b.Shows maxSize es) :
    (es.map Entry.row).Pairwise fun row row' => row.2 ≤ row'.2 := by
  rw [List.pairwise_map]
  apply h.sorted.imp
  intro e e' hbefore
  rw [Entry.before_iff] at hbefore
  simp only [Entry.row]
  omega

variable {Text J T : Type} {lib : JsonLibrary Text J T}

theorem Shows.toJson (h : b.Shows maxSize es) :
    b.toJson lib = some (lib.array ((es.map Entry.row).map (itemOf lib))) := by
  rw [Nameboard.toJson, h.getAll, List.map_map]
  rfl

/-- A board constructed from the dump of the rows shows the oldest of them. -/
theorem Shows.construct_dump (laws : lib.Lawful) (h : b.Shows maxSize es) {text : Text}
    (hdump : lib.dump (lib.array ((es.map Entry.row).map (itemOf lib))) = some text) (m : ℕ) :
    ∃ b' es', construct lib (some text) m = some b' ∧ b'.Shows m es' ∧
      es'.map Entry.row = (es.map Entry.row).take m := by
  obtain ⟨b', hb', hshows⟩ := construct_shows lib (some text) m
  refine ⟨b', _, hb', hshows, ?_⟩
  rw [loadedEntries, loadedRows_dump laws hdump]
  exact map_row_insertRows nofun (h.timestamps.sublist (List.take_sublist m _))

/-- After a successful save, a board constructed from the file shows the oldest rows. -/
theorem Shows.reload (laws : lib.Lawful) (h : b.Shows maxSize es) {disk disk' : Leaderboard.Disk Text}
    {io : Leaderboard.SaveOutcome Text} (hsave : b.save lib disk io = some (true, disk')) (m : ℕ) :
    ∃ b' es', construct lib disk'.file m = some b' ∧ b'.Shows m es' ∧
      es'.map Entry.row = (es.map Entry.row).take m := by
  rw [save, h.toJson, Option.bind_eq_bind, Option.bind_some, Option.some.injEq] at hsave
  obtain ⟨text, hdump, hfile⟩ := file_of_saveFile hsave
  rw [hfile]
  exact h.construct_dump laws hdump m

end Nameboard
end ServerSimple.GlobalBoards
