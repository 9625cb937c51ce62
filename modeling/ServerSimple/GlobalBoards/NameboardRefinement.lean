import ServerSimple.Library.Lists
import ServerSimple.Library.Runs
import ServerSimple.GlobalBoards.Nameboard

/-! # The nameboard as a bounded chronological list

The cells of a nameboard, its ranked nodes each with the entry behind the pointer, are the one list of
which the two containers are views. Every operation is an insertion into that list, with the removal
of its first element where the capacity asks for it.
-/

namespace ServerSimple.GlobalBoards

open Library

/-- The entry is older: by its timestamp, and by its id where the timestamps are equal. -/
def Entry.Before (a b : Entry) : Prop := entryComparator a b = true

instance : DecidableRel Entry.Before := fun a b => inferInstanceAs (Decidable (entryComparator a b = true))

namespace Entry

theorem before_iff {a b : Entry} :
    a.Before b ↔ a.timestamp < b.timestamp ∨ a.timestamp = b.timestamp ∧ a.id < b.id :=
  entryComparator_iff

theorem Before.trans {a b c : Entry} (hab : a.Before b) (hbc : b.Before c) : a.Before c := by
  rw [before_iff] at *
  omega

/-- Entries with different ids are never equivalent. -/
theorem before_of_not_before {a b : Entry} (hid : a.id ≠ b.id) (h : ¬ a.Before b) : b.Before a := by
  rw [before_iff] at *
  omega

end Entry

namespace Nameboard

/-- The cells that the two containers are views of. -/
structure Represents (b : Nameboard) (cells : List (Node × Entry)) : Prop where
  ranking : b.ranking = cells.map Prod.fst
  entries : b.entries.Perm (cells.map fun c => (c.1.pointer, c.2))
  iterators : (cells.map fun c => c.1.iterator).Nodup
  pointers : (cells.map fun c => c.1.pointer).Nodup
  allocated : ∀ c ∈ cells, c.1.iterator < b.nextAddress ∧ c.1.pointer < b.nextAddress
  issued : ∀ c ∈ cells, c.2.id < b.nextId
  sorted : cells.Pairwise fun c d => c.2.Before d.2

namespace Represents

variable {b : Nameboard} {cells : List (Node × Entry)}

theorem nodup_entries (h : b.Represents cells) : (b.entries.map Prod.fst).Nodup := by
  rw [(h.entries.map Prod.fst).nodup_iff, List.map_map]
  exact h.pointers

theorem backed (h : b.Represents cells) : Backed b.heap cells := by
  intro c hc
  refine lookup_of_mem_of_nodup h.nodup_entries ?_
  rw [h.entries.mem_iff]
  exact List.mem_map_of_mem hc

theorem getAll (h : b.Represents cells) : b.getAll = some (cells.map Prod.snd) := by
  rw [Nameboard.getAll, h.ranking, readNodes_eq h.backed]

theorem contains_iff (h : b.Represents cells) (name : String) :
    b.contains name = true ↔ name ∈ (cells.map Prod.snd).map Entry.name := by
  have hmem : ∀ e, (∃ p, (p, e) ∈ b.entries) ↔ e ∈ cells.map Prod.snd := by
    intro e
    simp only [h.entries.mem_iff, List.mem_map, Prod.mk.injEq]
    constructor
    · rintro ⟨_, c, hc, _, he⟩
      exact ⟨c, hc, he⟩
    · rintro ⟨c, hc, he⟩
      exact ⟨c.1.pointer, c, hc, rfl, he⟩
  rw [contains, List.any_eq_true, List.mem_map]
  constructor
  · rintro ⟨⟨p, e⟩, hp, hname⟩
    exact ⟨e, (hmem e).mp ⟨p, hp⟩, by simpa using hname⟩
  · rintro ⟨e, he, hname⟩
    obtain ⟨p, hp⟩ := (hmem e).mpr he
    exact ⟨(p, e), hp, by simpa using hname⟩

end Represents

/-- The cell of the next entry. -/
def newCell (b : Nameboard) (entry : Entry) : Node × Entry :=
  (⟨b.nextAddress + 1, b.nextAddress⟩, entry)

/-- The cells with the next entry at its place. -/
def insertCell (b : Nameboard) (cells : List (Node × Entry)) (entry : Entry) : List (Node × Entry) :=
  cells.orderedInsert (fun c d => c.2.Before d.2) (b.newCell entry)

variable {b : Nameboard} {cells : List (Node × Entry)} {entry : Entry}

theorem insertCell_perm (b : Nameboard) (cells : List (Node × Entry)) (entry : Entry) :
    (b.insertCell cells entry).Perm (b.newCell entry :: cells) :=
  List.perm_orderedInsert ..

theorem map_snd_insertCell (b : Nameboard) (cells : List (Node × Entry)) (entry : Entry) :
    (b.insertCell cells entry).map Prod.snd =
      (cells.map Prod.snd).orderedInsert Entry.Before entry :=
  map_orderedInsert_right Prod.snd fun _ _ => Iff.rfl

/-- The list with the next entry at its end, and the cells with it in front. -/
theorem Represents.append_perm (h : b.Represents cells) (entry : Entry) :
    (b.entries ++ [(b.nextAddress, entry)]).Perm
      ((b.newCell entry :: cells).map fun c => (c.1.pointer, c.2)) :=
  (List.perm_append_singleton _ _).trans (h.entries.cons _)

theorem Represents.nodup_pointers (h : b.Represents cells) (entry : Entry) :
    ((b.newCell entry :: cells).map fun c => c.1.pointer).Nodup := by
  rw [List.map_cons, List.nodup_cons]
  refine ⟨?_, h.pointers⟩
  intro hmem
  obtain ⟨c, hc, hpointer⟩ := List.mem_map.mp hmem
  exact absurd hpointer (h.allocated c hc).2.ne

theorem Represents.nodup_iterators (h : b.Represents cells) (entry : Entry) :
    ((b.newCell entry :: cells).map fun c => c.1.iterator).Nodup := by
  rw [List.map_cons, List.nodup_cons]
  refine ⟨?_, h.iterators⟩
  intro hmem
  obtain ⟨c, hc, hiterator⟩ := List.mem_map.mp hmem
  have hnew : c.1.iterator = b.nextAddress + 1 := hiterator
  have hold := (h.allocated c hc).1
  omega

theorem Represents.backed_append (h : b.Represents cells) (entry : Entry) :
    Backed (fun pointer => (b.entries ++ [(b.nextAddress, entry)]).lookup pointer)
      (b.newCell entry :: cells) := by
  intro c hc
  have hperm := h.append_perm entry
  refine lookup_of_mem_of_nodup ?_ ?_
  · rw [(hperm.map Prod.fst).nodup_iff, List.map_map]
    exact h.nodup_pointers entry
  · rw [hperm.mem_iff]
    exact List.mem_map.mpr ⟨c, hc, rfl⟩

/-- `emplaceBack` inserts a cell, and never looks through a pointer that dangles. -/
theorem Represents.emplaceBack (h : b.Represents cells) (hid : entry.id = b.nextId) :
    ∃ b', b.emplaceBack entry = some b' ∧ b'.Represents (b.insertCell cells entry) ∧
      b'.maxSize = b.maxSize ∧ b'.nextId = b.nextId + 1 := by
  have hbacked := h.backed_append entry
  have hperm := b.insertCell_perm cells entry
  have hranking : insertNode
      (fun pointer => (b.entries ++ [(b.nextAddress, entry)]).lookup pointer) entryComparator
      ⟨b.nextAddress + 1, b.nextAddress⟩ (cells.map Prod.fst) =
        some ((b.insertCell cells entry).map Prod.fst) :=
    insertNode_eq _ entry (hbacked _ List.mem_cons_self) (fun _ => rfl)
      fun c hc => hbacked c (List.mem_cons_of_mem _ hc)
  refine ⟨{ b with
    entries := b.entries ++ [(b.nextAddress, entry)]
    ranking := (b.insertCell cells entry).map Prod.fst
    nextId := b.nextId + 1
    nextAddress := b.nextAddress + 2 }, ?_, ⟨rfl, ?_, ?_, ?_, ?_, ?_, ?_⟩, rfl, rfl⟩
  · simp only [Nameboard.emplaceBack, h.ranking]
    rw [hranking]
    rfl
  · exact (h.append_perm entry).trans (hperm.map _).symm
  · rw [(hperm.map _).nodup_iff]
    exact h.nodup_iterators entry
  · rw [(hperm.map _).nodup_iff]
    exact h.nodup_pointers entry
  · intro c hc
    rcases List.mem_cons.mp (hperm.mem_iff.mp hc) with rfl | hc
    · exact ⟨Nat.lt_succ_self _, Nat.lt_add_of_pos_right (by decide)⟩
    · have hold := h.allocated c hc
      exact ⟨hold.1.trans (by simp), hold.2.trans (by simp)⟩
  · intro c hc
    rcases List.mem_cons.mp (hperm.mem_iff.mp hc) with rfl | hc
    · simp [newCell, hid]
    · exact (h.issued c hc).trans (Nat.lt_succ_self _)
  · refine pairwise_orderedInsert (fun _ _ _ => Entry.Before.trans) ?_ h.sorted
    intro c hc hnot
    refine Entry.before_of_not_before ?_ hnot
    rw [newCell, hid]
    exact (h.issued c hc).ne'

/-- Erasing the first cell takes it out of both containers. -/
theorem Represents.eraseOldest {c : Node × Entry} (h : b.Represents (c :: cells)) :
    ∃ b', b.eraseOldest c.1 = some b' ∧ b'.Represents cells ∧ b'.maxSize = b.maxSize ∧
      b'.nextId = b.nextId := by
  have hrest : (c :: cells).filter (fun d => d.1.iterator ≠ c.1.iterator) = cells := by
    have hnotin := (List.nodup_cons.mp h.iterators).1
    rw [List.filter_cons_of_neg (by simp), List.filter_eq_self]
    intro d hd
    rw [decide_eq_true_eq]
    intro heq
    exact hnotin (List.mem_map.mpr ⟨d, hd, heq⟩)
  have herase : eraseNode c.1.iterator b.ranking = some (cells.map Prod.fst) := by
    rw [h.ranking, eraseNode_eq List.mem_cons_self, hrest]
  refine ⟨{ b with
    ranking := cells.map Prod.fst
    entries := b.entries.eraseP fun node => node.1 = c.1.pointer }, ?_,
    ⟨rfl, ?_, ?_, ?_, ?_, ?_, ?_⟩, rfl, rfl⟩
  · rw [Nameboard.eraseOldest, herase]
    rfl
  · exact eraseP_perm_of_nodup h.nodup_entries h.entries
  · exact (List.nodup_cons.mp h.iterators).2
  · exact (List.nodup_cons.mp h.pointers).2
  · exact fun d hd => h.allocated d (List.mem_cons_of_mem c hd)
  · exact fun d hd => h.issued d (List.mem_cons_of_mem c hd)
  · exact (List.pairwise_cons.mp h.sorted).2

/-! ## Adding a name -/

/-- The entry that `add_name` makes. -/
def newEntry (b : Nameboard) (call : NameCall) : Entry := ⟨call.name, call.now, b.nextId⟩

theorem Represents.addName_of_present (h : b.Represents cells) {call : NameCall}
    (hname : call.name ∈ (cells.map Prod.snd).map Entry.name) :
    b.addName call = some (b, none) :=
  if_pos ((h.contains_iff call.name).mpr hname)

/-- The new element of the ranking is found where the new entry goes in. -/
theorem Represents.getIndex_new (h : b.Represents cells) (entry : Entry) :
    getIndex (b.nextAddress + 1) ((b.insertCell cells entry).map Prod.fst) =
      some ((cells.map Prod.snd).findIdx fun e => entry.Before e) := by
  have hold : ∀ c ∈ cells, decide (c.1.iterator = b.nextAddress + 1) = false := by
    intro c hc
    have hlt := (h.allocated c hc).1
    simp only [decide_eq_false_iff_not]
    omega
  rw [getIndex_eq, insertCell, findIdx?_orderedInsert (by simp [newCell]) hold, List.findIdx_map]
  rfl

/-- The new cell is told from the others by its iterator, and by its entry. -/
theorem Represents.iterator_iff (h : b.Represents cells) {call : NameCall} {c : Node × Entry}
    (hc : c ∈ b.insertCell cells (b.newEntry call)) :
    c.1.iterator = b.nextAddress + 1 ↔ c.2 = b.newEntry call := by
  rcases List.mem_cons.mp ((b.insertCell_perm cells _).mem_iff.mp hc) with rfl | hc
  · exact ⟨fun _ => rfl, fun _ => rfl⟩
  · have hiterator := (h.allocated c hc).1
    have hid := (h.issued c hc).ne
    constructor
    · intro heq
      omega
    · intro heq
      exact absurd (congrArg Entry.id heq) hid

/-- A new name goes in at its place, and the oldest entry leaves if the board is then too large: the
call returns nothing if that is the new one. -/
theorem Represents.addName_of_new (h : b.Represents cells) {call : NameCall}
    (hname : call.name ∉ (cells.map Prod.snd).map Entry.name) :
    ∃ b' out cells', b.addName call = some (b', out) ∧ b'.Represents cells' ∧
      b'.maxSize = b.maxSize ∧ b'.nextId = b.nextId + 1 ∧
      (cells.length + 1 ≤ b.maxSize → cells' = b.insertCell cells (b.newEntry call) ∧
        out = some ((cells.map Prod.snd).findIdx fun e => (b.newEntry call).Before e)) ∧
      (b.maxSize < cells.length + 1 → cells' = (b.insertCell cells (b.newEntry call)).tail ∧
        out = if (b.insertCell cells (b.newEntry call)).head?.map Prod.snd = some (b.newEntry call)
          then none
          else some ((cells.map Prod.snd).findIdx fun e => (b.newEntry call).Before e)) := by
  have hcontains : ¬ b.contains call.name = true := mt (h.contains_iff call.name).mp hname
  have hnext : (b.newEntry call).id = b.nextId := rfl
  obtain ⟨b₁, hemplace, hrep, hmax, hid⟩ := h.emplaceBack hnext
  have hindex := h.getIndex_new (b.newEntry call)
  have hlength : (b.insertCell cells (b.newEntry call)).length = cells.length + 1 :=
    List.orderedInsert_length ..
  rw [addName, if_neg hcontains]
  change ∃ b' out cells', (b.emplaceBack (b.newEntry call)).bind _ = some (b', out) ∧ _
  rw [hemplace, Option.bind_some, hrep.ranking, hindex]
  simp only [Option.bind_eq_bind, Option.bind_some, List.length_map, hlength, hmax]
  by_cases hfull : cells.length + 1 > b.maxSize
  · obtain ⟨c, rest, hcells⟩ : ∃ c rest, b.insertCell cells (b.newEntry call) = c :: rest :=
      List.exists_cons_of_length_pos (by omega)
    have hc : c ∈ b.insertCell cells (b.newEntry call) := by
      rw [hcells]
      exact List.mem_cons_self
    have hiterator := h.iterator_iff hc
    rw [hcells] at hrep ⊢
    obtain ⟨b₂, herase, hrep₂, hmax₂, hid₂⟩ := hrep.eraseOldest
    refine ⟨b₂, _, rest, ?_, hrep₂, hmax₂.trans hmax, hid₂.trans hid,
      fun hle => absurd hfull (Nat.not_lt.mpr hle), fun _ => ⟨rfl, rfl⟩⟩
    rw [if_pos hfull, List.map_cons, List.head?_cons, Option.bind_some, herase, List.head?_cons,
      Option.map_some]
    by_cases hnew : c.2 = b.newEntry call
    · rw [if_pos (hiterator.mpr hnew), if_pos (congrArg some hnew)]
      rfl
    · rw [if_neg (mt hiterator.mp hnew), if_neg (mt Option.some.inj hnew)]
      rfl
  · simp only [if_neg hfull]
    exact ⟨b₁, _, _, rfl, hrep, hmax, hid, fun _ => ⟨rfl, rfl⟩, fun hlt => absurd hlt hfull⟩

end Nameboard
end ServerSimple.GlobalBoards
