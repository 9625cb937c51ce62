import ServerSimple.GlobalBoards.NameboardChronology

/-! # Names on a nameboard

A call of `add_name` never brings in a name that is there. Loading does not look, so a file that
lists a name twice puts it on the board twice.
-/

namespace ServerSimple.GlobalBoards

open Library

namespace Nameboard

/-- No two entries have the same name. -/
def UniqueNames (b : Nameboard) : Prop := (b.entries.map fun node => node.2.name).Nodup

instance (b : Nameboard) : Decidable b.UniqueNames :=
  inferInstanceAs (Decidable (b.entries.map fun node => node.2.name).Nodup)

variable {b : Nameboard} {maxSize : ℕ} {es : List Entry}

theorem Shows.uniqueNames_iff (h : b.Shows maxSize es) :
    b.UniqueNames ↔ (es.map Entry.name).Nodup := by
  have hperm := h.linked.owned.map Entry.name
  rw [List.map_map] at hperm
  exact hperm.nodup_iff

/-- A new name keeps names unique. -/
theorem nodup_insertBounded (maxSize : ℕ) {new : Entry} (hnames : (es.map Entry.name).Nodup)
    (hnew : new.name ∉ es.map Entry.name) :
    ((Entry.insertBounded maxSize es new).map Entry.name).Nodup := by
  have hperm := (List.perm_orderedInsert Entry.Before new es).map Entry.name
  have hinsert : ((es.orderedInsert Entry.Before new).map Entry.name).Nodup := by
    rw [hperm.nodup_iff, List.map_cons, List.nodup_cons]
    exact ⟨hnew, hnames⟩
  rw [Entry.insertBounded]
  split_ifs
  · exact hinsert.sublist ((List.tail_sublist _).map Entry.name)
  · exact hinsert

theorem nodup_added (b : Nameboard) (maxSize : ℕ) (call : NameCall)
    (hnames : (es.map Entry.name).Nodup) :
    ((b.added maxSize es call).1.map Entry.name).Nodup := by
  unfold added
  by_cases hname : call.name ∈ es.map Entry.name
  · rw [if_pos hname]
    exact hnames
  · rw [if_neg hname]
    exact nodup_insertBounded maxSize hnames hname

/-- Every run keeps names unique. -/
theorem Shows.run_uniqueNames (h : b.Shows maxSize es) (hnames : b.UniqueNames)
    (calls : List NameCall) : ∃ b', Library.run step b calls = some b' ∧ b'.UniqueNames := by
  rw [h.uniqueNames_iff] at hnames
  obtain ⟨b', es', hrun, hshows, hnames'⟩ :=
    h.run_invariant (P := fun es => (es.map Entry.name).Nodup)
      (fun b _ call => nodup_added b maxSize call) hnames calls
  exact ⟨b', hrun, hshows.uniqueNames_iff.mpr hnames'⟩

theorem map_name_insertRows (rows : List (String × ℤ)) (id : ℕ) (es : List Entry) :
    ((insertRows rows id es).map Entry.name).Perm (es.map Entry.name ++ rows.map Prod.fst) := by
  induction rows generalizing id es with
  | nil =>
    rw [List.map_nil, List.append_nil]
    exact .refl _
  | cons row rows ih =>
    have hinsert := (List.perm_orderedInsert Entry.Before ⟨row.1, row.2, id⟩ es).map Entry.name
    refine (ih (id + 1) _).trans ((hinsert.append_right _).trans ?_)
    rw [List.map_cons, List.map_cons]
    exact List.perm_middle.symm

variable {Text J T : Type} (lib : JsonLibrary Text J T)

/-- If the file is an array whose first `maxSize` items all are rows, these rows have different
names. -/
def DistinctNames (file : Option Text) (maxSize : ℕ) : Prop :=
  ∀ j, file.bind lib.parse = some j → lib.isArray j = true →
    ∀ rows, ((lib.elements j).take maxSize).mapM (readItem lib) = some rows →
      (rows.map Prod.fst).Nodup

theorem loadedRows_eq_some {file : Option Text} {rows : List (String × ℤ)} :
    loadedRows lib file maxSize = some rows ↔ ∃ j, file.bind lib.parse = some j ∧
      lib.isArray j = true ∧ ((lib.elements j).take maxSize).mapM (readItem lib) = some rows := by
  unfold loadedRows
  cases file.bind lib.parse with
  | none => simp
  | some j => cases harray : lib.isArray j <;> simp [harray]

theorem nodup_loadedEntries_iff (file : Option Text) (maxSize : ℕ) :
    ((loadedEntries lib file maxSize).map Entry.name).Nodup ↔ DistinctNames lib file maxSize := by
  have hcondition : DistinctNames lib file maxSize ↔
      ∀ rows, loadedRows lib file maxSize = some rows → (rows.map Prod.fst).Nodup := by
    simp only [loadedRows_eq_some, DistinctNames]
    grind
  rw [hcondition, loadedEntries]
  cases loadedRows lib file maxSize with
  | none => simp
  | some rows =>
    rw [(map_name_insertRows rows 0 []).nodup_iff]
    simp

/-- Names stay unique in every run of a board exactly if its file does not repeat a name among the
items that the board takes over. -/
theorem uniqueNames_iff_distinctNames (file : Option Text) (maxSize : ℕ) :
    (∀ calls : List NameCall, ∃ b₀ b, construct lib file maxSize = some b₀ ∧
      Library.run step b₀ calls = some b ∧ b.UniqueNames) ↔ DistinctNames lib file maxSize := by
  obtain ⟨b₀, hb₀, hshows⟩ := construct_shows lib file maxSize
  rw [← nodup_loadedEntries_iff, ← hshows.uniqueNames_iff]
  constructor
  · intro h
    obtain ⟨b, b', hb, hrun, hnames⟩ := h []
    rw [hb₀, Option.some.injEq] at hb
    rw [run_nil, Option.some.injEq] at hrun
    rwa [hb, hrun]
  · intro hnames calls
    obtain ⟨b, hrun, hb⟩ := hshows.run_uniqueNames hnames calls
    exact ⟨b₀, b, hb₀, hrun, hb⟩

/-- A file that lists one name at two times. -/
def repeatedNames : Json :=
  .array [.object [("name", .string "a"), ("timestamp", .integer 1)],
    .object [("name", .string "a"), ("timestamp", .integer 2)]]

theorem repeated_names_loaded : ∃ b₀ b, construct Json.library (some repeatedNames) 2 = some b₀ ∧
    Library.run step b₀ [⟨"b", 0⟩] = some b ∧ ¬ b.UniqueNames :=
  ⟨_, _, rfl, rfl, by decide⟩

end Nameboard
end ServerSimple.GlobalBoards
