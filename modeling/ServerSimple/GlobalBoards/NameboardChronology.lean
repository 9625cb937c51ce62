import ServerSimple.GlobalBoards.NameboardRefinement

/-! # Every nameboard is a bounded chronological list

A board shows entries when it is represented by cells within its capacity that read as them. A new
board shows the entries of its file, and every call of `add_name` then inserts into what is shown.
-/

namespace ServerSimple.GlobalBoards

open Library

/-- The entries of a board of the given capacity after a new one has come in. -/
def Entry.insertBounded (maxSize : ℕ) (es : List Entry) (new : Entry) : List Entry :=
  if maxSize < es.length + 1 then (es.orderedInsert Entry.Before new).tail
  else es.orderedInsert Entry.Before new

namespace Nameboard

/-- The board ranks these entries, within its capacity. -/
def Shows (b : Nameboard) (maxSize : ℕ) (es : List Entry) : Prop :=
  ∃ cells, b.Represents cells ∧ b.maxSize = maxSize ∧ cells.length ≤ maxSize ∧
    cells.map Prod.snd = es

/-- The entries that the board shows after a call, and what the call returns. -/
def added (b : Nameboard) (maxSize : ℕ) (es : List Entry) (call : NameCall) :
    List Entry × Option ℕ :=
  if call.name ∈ es.map Entry.name then (es, none)
  else
    (Entry.insertBounded maxSize es (b.newEntry call),
      if maxSize < es.length + 1 ∧
          (es.orderedInsert Entry.Before (b.newEntry call)).head? = some (b.newEntry call) then none
      else some (es.findIdx fun e => (b.newEntry call).Before e))

variable {b : Nameboard} {maxSize : ℕ} {es : List Entry}

theorem Shows.getAll (h : b.Shows maxSize es) : b.getAll = some es := by
  obtain ⟨cells, hrep, _, _, rfl⟩ := h
  exact hrep.getAll

theorem Shows.length_le (h : b.Shows maxSize es) : es.length ≤ maxSize := by
  obtain ⟨cells, _, _, hlen, rfl⟩ := h
  rwa [List.length_map]

theorem Shows.issued (h : b.Shows maxSize es) : ∀ e ∈ es, e.id < b.nextId := by
  obtain ⟨cells, hrep, _, _, rfl⟩ := h
  intro e he
  obtain ⟨c, hc, rfl⟩ := List.mem_map.mp he
  exact hrep.issued c hc

theorem Shows.sorted (h : b.Shows maxSize es) : es.Pairwise Entry.Before := by
  obtain ⟨cells, hrep, _, _, rfl⟩ := h
  exact List.pairwise_map.mpr hrep.sorted

/-- Every call is defined, and does what it does to the chronological list. -/
theorem Shows.addName (h : b.Shows maxSize es) (call : NameCall) :
    ∃ b', b.addName call = some (b', (b.added maxSize es call).2) ∧
      b'.Shows maxSize (b.added maxSize es call).1 ∧
      b'.nextId = if call.name ∈ es.map Entry.name then b.nextId else b.nextId + 1 := by
  have hshows := h
  obtain ⟨cells, hrep, hmax, hlen, rfl⟩ := h
  unfold added
  by_cases hname : call.name ∈ (cells.map Prod.snd).map Entry.name
  · rw [if_pos hname, if_pos hname]
    exact ⟨b, hrep.addName_of_present hname, hshows, rfl⟩
  · rw [if_neg hname, if_neg hname]
    obtain ⟨b', out, cells', hadd, hrep', hmax', hid', hroom, hfull⟩ := hrep.addName_of_new hname
    rw [hmax] at hroom hfull
    have hinsert := b.map_snd_insertCell cells (b.newEntry call)
    have hlength : (b.insertCell cells (b.newEntry call)).length = cells.length + 1 :=
      List.orderedInsert_length ..
    refine ⟨b', ?_, ⟨cells', hrep', hmax'.trans hmax, ?_, ?_⟩, hid'⟩
    · rw [hadd]
      by_cases hlt : maxSize < cells.length + 1
      · simp only [(hfull hlt).2, List.length_map, hlt, true_and, ← hinsert, List.head?_map]
      · simp only [(hroom (Nat.le_of_not_lt hlt)).2, List.length_map, hlt, false_and, if_false]
    · by_cases hlt : maxSize < cells.length + 1
      · rw [(hfull hlt).1, List.length_tail, hlength]
        omega
      · rw [(hroom (Nat.le_of_not_lt hlt)).1, hlength]
        exact Nat.le_of_not_lt hlt
    · rw [Entry.insertBounded, List.length_map, ← hinsert]
      by_cases hlt : maxSize < cells.length + 1
      · rw [if_pos hlt, (hfull hlt).1, List.map_tail]
      · rw [if_neg hlt, (hroom (Nat.le_of_not_lt hlt)).1]

theorem Shows.step_eq_some (h : b.Shows maxSize es) (call : NameCall) :
    ∃ b', step b call = some b' ∧ b'.Shows maxSize (b.added maxSize es call).1 := by
  obtain ⟨b', hadd, hshows, _⟩ := h.addName call
  refine ⟨b', ?_, hshows⟩
  rw [step, hadd]
  rfl

/-- Every run from such a board is defined, and keeps what every call keeps. -/
theorem Shows.run_invariant {P : List Entry → Prop}
    (hadded : ∀ (b : Nameboard) (es : List Entry) (call : NameCall), P es →
      P (b.added maxSize es call).1)
    (h : b.Shows maxSize es) (hes : P es) (calls : List NameCall) :
    ∃ b' es', Library.run step b calls = some b' ∧ b'.Shows maxSize es' ∧ P es' := by
  induction calls generalizing b es with
  | nil => exact ⟨b, es, rfl, h, hes⟩
  | cons call calls ih =>
    obtain ⟨b₁, hstep, hshows⟩ := h.step_eq_some call
    obtain ⟨b', es', hrun, hshows', hes'⟩ := ih hshows (hadded b es call hes)
    exact ⟨b', es', run_cons_eq_some.mpr ⟨b₁, hstep, hrun⟩, hshows', hes'⟩

theorem Shows.run (h : b.Shows maxSize es) (calls : List NameCall) :
    ∃ b' es', Library.run step b calls = some b' ∧ b'.Shows maxSize es' := by
  obtain ⟨b', es', hrun, hshows, _⟩ :=
    h.run_invariant (P := fun _ => True) (fun _ _ _ _ => trivial) trivial calls
  exact ⟨b', es', hrun, hshows⟩

/-! ## Loading -/

variable {Text J T : Type} (lib : JsonLibrary Text J T)

/-- The rows that a board of the given capacity takes over from a file, if it can. -/
def loadedRows (file : Option Text) (maxSize : ℕ) : Option (List (String × ℤ)) :=
  match file.bind lib.parse with
  | none => none
  | some j =>
    if lib.isArray j = false then none else ((lib.elements j).take maxSize).mapM (readItem lib)

/-- The entries after the rows went in one after the other, with ids from `id` on. -/
def insertRows : List (String × ℤ) → ℕ → List Entry → List Entry
  | [], _, es => es
  | row :: rows, id, es =>
    insertRows rows (id + 1) (es.orderedInsert Entry.Before ⟨row.1, row.2, id⟩)

/-- The entries of a new board. -/
def loadedEntries (file : Option Text) (maxSize : ℕ) : List Entry :=
  match loadedRows lib file maxSize with
  | none => []
  | some rows => insertRows rows 0 []

variable {new : Nameboard} {cells : List (Node × Entry)}

/-- The loop on the items that are left, from containers that hold some cells already. -/
theorem loadLoop_refines (items : List J) (h : new.Represents cells)
    (hlen : cells.length ≤ new.maxSize) :
    ((items.take (new.maxSize - cells.length)).mapM (readItem lib) = none ∧
      loadLoop lib items cells.length new = some none) ∨
    ∃ rows new' cells', (items.take (new.maxSize - cells.length)).mapM (readItem lib) = some rows ∧
      loadLoop lib items cells.length new = some (some new') ∧ new'.Represents cells' ∧
      new'.maxSize = new.maxSize ∧ cells'.length ≤ new.maxSize ∧
      cells'.map Prod.snd = insertRows rows new.nextId (cells.map Prod.snd) := by
  induction items generalizing new cells with
  | nil => exact .inr ⟨[], new, cells, by simp, rfl, h, rfl, hlen, rfl⟩
  | cons item items ih =>
    by_cases hfull : cells.length + 1 > new.maxSize
    · refine .inr ⟨[], new, cells, ?_, by rw [loadLoop, if_pos hfull], h, rfl, hlen, rfl⟩
      have hzero : new.maxSize - cells.length = 0 := by omega
      rw [hzero]
      rfl
    · have hcount : new.maxSize - cells.length = new.maxSize - (cells.length + 1) + 1 := by omega
      rw [hcount, List.take_succ_cons, List.mapM_cons, loadLoop, if_neg hfull]
      cases hread : readItem lib item with
      | none => exact .inl ⟨rfl, rfl⟩
      | some row =>
        have hid : (⟨row.1, row.2, new.nextId⟩ : Entry).id = new.nextId := rfl
        obtain ⟨new₁, hemplace, hrep, hmax, hnext⟩ := h.emplaceBack hid
        have hlength : (new.insertCell cells ⟨row.1, row.2, new.nextId⟩).length =
            cells.length + 1 := List.orderedInsert_length ..
        have hrest := ih hrep (by omega)
        rw [hlength, hmax, hnext, map_snd_insertCell] at hrest
        simp only [hemplace, Option.bind_eq_bind, Option.bind_some]
        rcases hrest with ⟨hrows, hloop⟩ | ⟨rows, new', cells', hrows, hloop, hrep', hmax', hlen', hcells⟩
        · exact .inl ⟨by rw [hrows]; rfl, hloop⟩
        · exact .inr ⟨row :: rows, new', cells', by rw [hrows]; rfl, hloop, hrep', hmax', hlen', hcells⟩

theorem represents_empty (maxSize : ℕ) : (⟨0, [], [], maxSize, 0⟩ : Nameboard).Represents [] where
  ranking := rfl
  entries := .refl _
  iterators := List.nodup_nil
  pointers := List.nodup_nil
  allocated := nofun
  issued := nofun
  sorted := List.Pairwise.nil

/-- A new board shows the entries of its file. -/
theorem construct_shows (file : Option Text) (maxSize : ℕ) :
    ∃ b, construct lib file maxSize = some b ∧ b.Shows maxSize (loadedEntries lib file maxSize) := by
  have hempty := represents_empty maxSize
  have hnone : (⟨0, [], [], maxSize, 0⟩ : Nameboard).Shows maxSize [] :=
    ⟨[], hempty, rfl, Nat.zero_le _, rfl⟩
  unfold construct load loadedEntries loadedRows
  cases hparse : file.bind lib.parse with
  | none => exact ⟨_, rfl, hnone⟩
  | some j =>
    dsimp only
    by_cases harray : lib.isArray j = false
    · rw [if_pos harray, if_pos harray]
      exact ⟨_, rfl, hnone⟩
    · rw [if_neg harray, if_neg harray, Option.bind_eq_bind]
      rcases loadLoop_refines lib (lib.elements j) hempty (Nat.zero_le _) with
        ⟨hrows, hfail⟩ | ⟨rows, new, cells, hrows, hload, hrep, hmax, hlen, hcells⟩
      · rw [List.length_nil, Nat.sub_zero] at hrows
        rw [List.length_nil] at hfail
        rw [hrows, hfail]
        exact ⟨_, rfl, hnone⟩
      · rw [List.length_nil, Nat.sub_zero] at hrows
        rw [List.length_nil] at hload
        rw [hrows, hload]
        exact ⟨new, rfl, cells, hrep, hmax, hlen, hcells⟩

/-! ## The board as a whole -/

/-- What the list, the ranking and the entries shown are to each other. -/
structure Linked (b : Nameboard) (maxSize : ℕ) (es : List Entry) : Prop where
  /-- Each node of the list is pointed to by one element of the ranking, and each element of the
  ranking points to a node. -/
  pointers : (b.ranking.map Node.pointer).Perm (b.entries.map Prod.fst)
  distinct : (b.ranking.map Node.pointer).Nodup
  owned : (b.entries.map Prod.snd).Perm es
  shown : b.getAll = some es
  sorted : es.Pairwise Entry.Before
  bounded : es.length ≤ maxSize

theorem Shows.linked (h : b.Shows maxSize es) : b.Linked maxSize es := by
  have hshows := h
  obtain ⟨cells, hrep, _, _, rfl⟩ := h
  have hpointers : b.ranking.map Node.pointer = cells.map fun c => c.1.pointer := by
    rw [hrep.ranking, List.map_map]
    rfl
  refine ⟨?_, ?_, ?_, hshows.getAll, hshows.sorted, hshows.length_le⟩
  · have hperm := (hrep.entries.map Prod.fst).symm
    rw [List.map_map] at hperm
    rw [hpointers]
    exact hperm
  · rw [hpointers]
    exact hrep.pointers
  · have hperm := hrep.entries.map Prod.snd
    rw [List.map_map] at hperm
    exact hperm

/-- An entry that is not older than those shown goes to the end. -/
theorem Shows.orderedInsert_of_latest (h : b.Shows maxSize es) {call : NameCall}
    (hnow : ∀ e ∈ es, e.timestamp ≤ call.now) :
    es.orderedInsert Entry.Before (b.newEntry call) = es ++ [b.newEntry call] := by
  apply orderedInsert_eq_append
  intro e he hbefore
  have htimestamp := hnow e he
  have hid := h.issued e he
  rw [Entry.before_iff] at hbefore
  simp only [newEntry] at hbefore
  omega

/-- Whatever the file, the capacity and the clock, a nameboard is a bounded chronological list: the
two containers hold the same entries, in the order of their timestamps and ids; a name that is there
changes nothing, and a new one goes to its place and drives out the oldest entry if the board is then
too large. As long as the clock does not go back behind a stored timestamp, that is a queue. -/
theorem refines_chronological_list (file : Option Text) (maxSize : ℕ) (calls : List NameCall) :
    ∃ b₀ b es, construct lib file maxSize = some b₀ ∧ Library.run step b₀ calls = some b ∧
      b.Linked maxSize es ∧ ∀ call : NameCall,
        (call.name ∈ es.map Entry.name → b.addName call = some (b, none)) ∧
        (call.name ∉ es.map Entry.name → ∃ b' out, b.addName call = some (b', out) ∧
          b'.Linked maxSize (Entry.insertBounded maxSize es (b.newEntry call)) ∧
          (es.length + 1 ≤ maxSize → out ≠ none) ∧
          (maxSize < es.length + 1 → (out = none ↔
            (es.orderedInsert Entry.Before (b.newEntry call)).head? = some (b.newEntry call))) ∧
          ((∀ e ∈ es, e.timestamp ≤ call.now) →
            (Entry.insertBounded maxSize es (b.newEntry call)).map Entry.name =
              if maxSize < es.length + 1 then (es.map Entry.name ++ [call.name]).tail
              else es.map Entry.name ++ [call.name])) := by
  obtain ⟨b₀, hb₀, hshows₀⟩ := construct_shows lib file maxSize
  obtain ⟨b, es, hrun, hshows⟩ := hshows₀.run calls
  refine ⟨b₀, b, es, hb₀, hrun, hshows.linked, fun call => ?_⟩
  obtain ⟨b', hadd, hshows', _⟩ := hshows.addName call
  unfold added at hadd hshows'
  constructor
  · intro hname
    obtain ⟨cells, hrep, _, _, rfl⟩ := hshows
    exact hrep.addName_of_present hname
  · intro hname
    rw [if_neg hname] at hadd hshows'
    refine ⟨b', _, hadd, hshows'.linked, ?_, ?_, ?_⟩
    · intro hroom
      simp [Nat.not_lt.mpr hroom]
    · intro hfull
      simp [hfull]
    · intro hnow
      rw [Entry.insertBounded, hshows.orderedInsert_of_latest hnow]
      split_ifs
      · rw [List.map_tail, List.map_append]
        rfl
      · rw [List.map_append]
        rfl

end Nameboard
end ServerSimple.GlobalBoards
