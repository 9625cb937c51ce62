import ServerSimple.GlobalBoards.LeaderboardStandings

/-! # The cells behind a leaderboard

A cell is a node of the ranking together with the entry behind its pointer. The cells of a board, in
the order of the ranking, tie the map, the heap and the ranking together; what the users see is read
off them.
-/

namespace ServerSimple.GlobalBoards

open Library

abbrev Cell (T : Type) := Node × LeaderboardEntry T

namespace Cell

variable {T : Type}

/-- Different cells share no address, no name and no id. -/
def Apart (c d : Cell T) : Prop :=
  c.1.iterator ≠ d.1.iterator ∧ c.1.pointer ≠ d.1.pointer ∧ c.2.name ≠ d.2.name ∧ c.2.id ≠ d.2.id

theorem Apart.symm {c d : Cell T} (h : Apart c d) : Apart d c :=
  ⟨h.1.symm, h.2.1.symm, h.2.2.1.symm, h.2.2.2.symm⟩

instance : Std.Symm (Apart : Cell T → Cell T → Prop) := ⟨fun _ _ => Apart.symm⟩

def standing (c : Cell T) : Standing T := c.2.standing

@[simp] theorem standing_name (c : Cell T) : c.standing.name = c.2.name := rfl

@[simp] theorem standing_score (c : Cell T) : c.standing.score = c.2.score := rfl

variable [LinearOrder T]

def Before (highestFirst : Bool) (c d : Cell T) : Prop :=
  leaderboardEntryComparator highestFirst c.2 d.2

instance (highestFirst : Bool) : DecidableRel (Before highestFirst : Cell T → Cell T → Prop) :=
  fun _ _ => inferInstanceAs (Decidable (_ = true))

end Cell

open Cell

variable {T : Type} [LinearOrder T]

/-- What holds of the cells of a ranking, whatever the map of owners. -/
structure Linked (heap : ℕ → Option (LeaderboardEntry T)) (highestFirst : Bool)
    (nextId nextAddress : ℕ) (cells : List (Cell T)) : Prop where
  backed : Backed heap cells
  position : ∀ c ∈ cells, c.2.rankingPosition = c.1.iterator
  sorted : cells.Pairwise (Before highestFirst)
  apart : cells.Pairwise Apart
  address : ∀ c ∈ cells, c.1.iterator < nextAddress ∧ c.1.pointer < nextAddress
  id : ∀ c ∈ cells, c.2.id < nextId

namespace Linked

variable {heap : ℕ → Option (LeaderboardEntry T)} {highestFirst : Bool} {nextId nextAddress : ℕ}
  {cells : List (Cell T)}

theorem nil : Linked heap highestFirst nextId nextAddress [] :=
  ⟨by simp [Backed], by simp, .nil, .nil, by simp, by simp⟩

theorem sublist (h : Linked heap highestFirst nextId nextAddress cells) {cells' : List (Cell T)}
    (hsub : cells'.Sublist cells) : Linked heap highestFirst nextId nextAddress cells' where
  backed c hc := h.backed c (hsub.subset hc)
  position c hc := h.position c (hsub.subset hc)
  sorted := h.sorted.sublist hsub
  apart := h.apart.sublist hsub
  address c hc := h.address c (hsub.subset hc)
  id c hc := h.id c (hsub.subset hc)

/-- The counters may move on. -/
theorem mono (h : Linked heap highestFirst nextId nextAddress cells) {nextId' nextAddress' : ℕ}
    (hid : nextId ≤ nextId') (haddress : nextAddress ≤ nextAddress') :
    Linked heap highestFirst nextId' nextAddress' cells where
  backed := h.backed
  position := h.position
  sorted := h.sorted
  apart := h.apart
  address c hc := by
    have hlt := h.address c hc
    omega
  id c hc := (h.id c hc).trans_le hid

/-- The heap may change where no cell points. -/
theorem update_heap (h : Linked heap highestFirst nextId nextAddress cells) {p : ℕ}
    (hp : ∀ c ∈ cells, c.1.pointer ≠ p) (o : Option (LeaderboardEntry T)) :
    Linked (Function.update heap p o) highestFirst nextId nextAddress cells where
  backed c hc := by
    rw [Function.update_of_ne (hp c hc)]
    exact h.backed c hc
  position := h.position
  sorted := h.sorted
  apart := h.apart
  address := h.address
  id := h.id

/-- An entry with the next id goes in at its place, behind a pointer and under a name that no other
cell uses. -/
theorem insert (h : Linked heap highestFirst nextId nextAddress cells) (node : Node)
    (entry : LeaderboardEntry T) {nextAddress' : ℕ} (hid : entry.id = nextId)
    (hposition : entry.rankingPosition = node.iterator) (hiterator : nextAddress ≤ node.iterator)
    (hpointer : ∀ c ∈ cells, c.1.pointer ≠ node.pointer)
    (hname : ∀ c ∈ cells, c.2.name ≠ entry.name)
    (haddress : node.iterator < nextAddress' ∧ node.pointer < nextAddress') :
    Linked (Function.update heap node.pointer (some entry)) highestFirst (nextId + 1) nextAddress'
      (cells.orderedInsert (Before highestFirst) (node, entry)) := by
  have hmem : ∀ c, c ∈ cells.orderedInsert (Before highestFirst) (node, entry) ↔
      c = (node, entry) ∨ c ∈ cells := fun c => List.mem_orderedInsert _
  have hnew : ∀ c ∈ cells, Apart (node, entry) c := by
    intro c hc
    have hlt := h.address c hc
    have hlt' := h.id c hc
    refine ⟨?_, (hpointer c hc).symm, (hname c hc).symm, ?_⟩
    · change node.iterator ≠ c.1.iterator
      omega
    · change entry.id ≠ c.2.id
      omega
  constructor
  · intro c hc
    rcases (hmem c).mp hc with rfl | hc
    · simp
    · rw [Function.update_of_ne (hpointer c hc)]
      exact h.backed c hc
  · intro c hc
    rcases (hmem c).mp hc with rfl | hc
    · exact hposition
    · exact h.position c hc
  · apply pairwise_orderedInsert _ _ h.sorted
    · intro x y z hxy hyz
      exact leaderboardEntryComparator_trans hxy hyz
    · intro c hc hnot
      exact leaderboardEntryComparator_total (hnew c hc).2.2.2 hnot
  · rw [(List.perm_orderedInsert _ _ _).pairwise_iff Apart.symm, List.pairwise_cons]
    exact ⟨hnew, h.apart⟩
  · intro c hc
    rcases (hmem c).mp hc with rfl | hc
    · exact haddress
    · have hlt := h.address c hc
      omega
  · intro c hc
    rcases (hmem c).mp hc with rfl | hc
    · change entry.id < nextId + 1
      omega
    · have hlt := h.id c hc
      omega

/-- A new entry is before a cell exactly when its standing is ahead. -/
theorem before_iff (h : Linked heap highestFirst nextId nextAddress cells) {c d : Cell T}
    (hid : c.2.id = nextId) (hd : d ∈ cells) :
    Before highestFirst c d ↔ c.standing.Ahead highestFirst d.standing :=
  leaderboardEntryComparator_standing (by rw [hid]; exact h.id d hd)

/-- So it goes to the same place among the standings. -/
theorem map_standing_orderedInsert (h : Linked heap highestFirst nextId nextAddress cells)
    {c : Cell T} (hid : c.2.id = nextId) :
    (cells.orderedInsert (Before highestFirst) c).map standing =
      (cells.map standing).orderedInsert (Standing.Ahead highestFirst) c.standing :=
  map_orderedInsert_right standing fun _ hd => h.before_iff hid hd

/-- A cell is known by its name, its pointer or its iterator. -/
theorem eq_of_name (h : Linked heap highestFirst nextId nextAddress cells) {c d : Cell T}
    (hc : c ∈ cells) (hd : d ∈ cells) (hname : c.2.name = d.2.name) : c = d := by
  by_contra hne
  exact (h.apart.forall hc hd hne).2.2.1 hname

theorem eq_of_pointer (h : Linked heap highestFirst nextId nextAddress cells) {c d : Cell T}
    (hc : c ∈ cells) (hd : d ∈ cells) (hpointer : c.1.pointer = d.1.pointer) : c = d := by
  by_contra hne
  exact (h.apart.forall hc hd hne).2.1 hpointer

theorem eq_of_iterator (h : Linked heap highestFirst nextId nextAddress cells) {c d : Cell T}
    (hc : c ∈ cells) (hd : d ∈ cells) (hiterator : c.1.iterator = d.1.iterator) : c = d := by
  by_contra hne
  exact (h.apart.forall hc hd hne).1 hiterator

end Linked

end ServerSimple.GlobalBoards
