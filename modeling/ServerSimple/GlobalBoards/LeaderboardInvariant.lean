import ServerSimple.GlobalBoards.LeaderboardLoading

/-! # The invariant of the leaderboard

A board shows standings when it is represented by cells within its capacity that read as them. Every
board shows the standings of its file when it is constructed, and every call of `submit_score` then
submits to the standings; so in every run the two containers agree with each other.
-/

namespace ServerSimple.GlobalBoards

open Library Cell

namespace Standing

variable {T : Type} [LinearOrder T]

theorem length_submit_le (highestFirst : Bool) {maxSize : ℕ} {rows : List (Standing T)}
    (hlen : rows.length ≤ maxSize) (call : Submission T) (tie : Bool) :
    (submit highestFirst maxSize rows call tie).1.length ≤ maxSize := by
  rcases submit_cases highestFirst maxSize rows call tie with
    ⟨old, hmem, hname, _, hsubmit⟩ | ⟨_, _, hsubmit⟩ | ⟨_, hsubmit⟩
  · have hlt : (rows.filter fun row => row.name ≠ call.player).length < rows.length :=
      List.length_filter_lt_length_iff_exists.mpr ⟨old, hmem, by simpa using hname⟩
    rw [hsubmit, List.orderedInsert_length]
    omega
  · rw [hsubmit]
    exact List.length_take_le ..
  · rw [hsubmit]
    exact hlen

end Standing

namespace Leaderboard

variable {T : Type} [LinearOrder T]

/-- The board ranks these rows, with the given comparator and capacity. -/
def Shows (b : Leaderboard T) (highestFirst : Bool) (maxSize : ℕ) (rows : List (Standing T)) : Prop :=
  ∃ cells, b.Represents cells ∧ b.highestFirst = highestFirst ∧ b.maxSize = maxSize ∧
    cells.length ≤ maxSize ∧ cells.map standing = rows

variable {b : Leaderboard T} {highestFirst : Bool} {maxSize : ℕ} {rows : List (Standing T)}

theorem Shows.length_le (h : b.Shows highestFirst maxSize rows) : rows.length ≤ maxSize := by
  obtain ⟨cells, -, -, -, hlen, rfl⟩ := h
  rwa [List.length_map]

theorem Shows.maxSize_eq (h : b.Shows highestFirst maxSize rows) : b.maxSize = maxSize := by
  obtain ⟨cells, -, -, hmaxSize, -, -⟩ := h
  exact hmaxSize

theorem Shows.direction_eq (h : b.Shows highestFirst maxSize rows) : b.highestFirst = highestFirst := by
  obtain ⟨cells, -, hdirection, -, -, -⟩ := h
  exact hdirection

theorem Shows.submitScore (h : b.Shows highestFirst maxSize rows) (hpos : 0 < maxSize)
    (call : Submission T) :
    ∃ b' tie, b.submitScore call =
        some (b', (Standing.submit highestFirst maxSize rows call tie).2) ∧
      b'.Shows highestFirst maxSize (Standing.submit highestFirst maxSize rows call tie).1 := by
  obtain ⟨cells, hrep, rfl, rfl, hlen, rfl⟩ := h
  obtain ⟨b', out, cells', tie, hsubmit, hrep', hhf, hms, hresult⟩ :=
    submitScore_refines hrep hlen hpos call
  refine ⟨b', tie, by rw [hsubmit, ← hresult], cells', hrep', hhf, hms, ?_, by rw [← hresult]⟩
  have hrows : (cells.map standing).length ≤ b.maxSize := by rwa [List.length_map]
  have hle := Standing.length_submit_le b.highestFirst hrows call tie
  rw [← hresult, List.length_map] at hle
  exact hle

/-- The same for a call whose outcome is known. -/
theorem Shows.of_submitScore (h : b.Shows highestFirst maxSize rows) (hpos : 0 < maxSize)
    {call : Submission T} {b' : Leaderboard T} {out : Placement}
    (hsubmit : b.submitScore call = some (b', out)) :
    ∃ tie, out = (Standing.submit highestFirst maxSize rows call tie).2 ∧
      b'.Shows highestFirst maxSize (Standing.submit highestFirst maxSize rows call tie).1 := by
  obtain ⟨b'', tie, hsubmit', hshows⟩ := h.submitScore hpos call
  rw [hsubmit, Option.some.injEq, Prod.mk.injEq] at hsubmit'
  exact ⟨tie, hsubmit'.2, hsubmit'.1 ▸ hshows⟩

theorem Shows.of_step (h : b.Shows highestFirst maxSize rows) (hpos : 0 < maxSize)
    {call : Submission T} {b' : Leaderboard T} (hstep : b.step call = some b') :
    ∃ tie, b'.Shows highestFirst maxSize
      (Standing.submit highestFirst maxSize rows call tie).1 := by
  obtain ⟨⟨_, out⟩, hsubmit, rfl⟩ := Option.map_eq_some_iff.mp hstep
  obtain ⟨tie, _, hshows⟩ := h.of_submitScore hpos hsubmit
  exact ⟨tie, hshows⟩

/-- Every run from such a board is defined and keeps to the same comparator and capacity. -/
theorem Shows.run (h : b.Shows highestFirst maxSize rows) (hpos : 0 < maxSize)
    (calls : List (Submission T)) :
    ∃ b' rows', Library.run step b calls = some b' ∧ b'.Shows highestFirst maxSize rows' := by
  induction calls generalizing b rows with
  | nil => exact ⟨b, rows, rfl, h⟩
  | cons call calls ih =>
    obtain ⟨b', tie, hsubmit, hshows⟩ := h.submitScore hpos call
    obtain ⟨b'', rows'', hrun, hshows'⟩ := ih hshows
    exact ⟨b'', rows'', run_cons_eq_some.mpr ⟨b', by rw [step, hsubmit]; rfl, hrun⟩, hshows'⟩

theorem Shows.of_run (h : b.Shows highestFirst maxSize rows) (hpos : 0 < maxSize)
    {calls : List (Submission T)} {b' : Leaderboard T} (hrun : Library.run step b calls = some b') :
    ∃ rows', b'.Shows highestFirst maxSize rows' := by
  obtain ⟨b'', rows', hrun', hshows⟩ := h.run hpos calls
  rw [hrun, Option.some.injEq] at hrun'
  exact ⟨rows', hrun' ▸ hshows⟩

variable {Text J : Type} (lib : JsonLibrary Text J T)

/-- The comparator that a new board ends up with. -/
def loadedDirection (file : Option Text) (maxSize : ℕ) (highestFirst : Bool) : Bool :=
  match loadedRows lib file maxSize with
  | none => highestFirst
  | some _ => true

omit [LinearOrder T] in
theorem loadedDirection_true (file : Option Text) (maxSize : ℕ) :
    loadedDirection lib file maxSize true = true := by
  unfold loadedDirection
  split <;> rfl

/-- The standings of a new board. -/
def loadedStandings (file : Option Text) (maxSize : ℕ) : List (Standing T) :=
  match loadedRows lib file maxSize with
  | none => []
  | some rows => insertRows true rows []

theorem construct_shows (file : Option Text) (maxSize : ℕ) (highestFirst : Bool) :
    ∃ b, construct lib file maxSize highestFirst = some b ∧
      b.Shows (loadedDirection lib file maxSize highestFirst) maxSize
        (loadedStandings lib file maxSize) := by
  obtain ⟨b, cells, hb, hrep, hms, hlen, hload⟩ := construct_refines lib file maxSize highestFirst
  refine ⟨b, hb, cells, hrep, ?_, hms, hlen, ?_⟩
  · rcases hload with ⟨hnone, hhf, _⟩ | ⟨rows, hrows, hhf, _⟩
    · rw [loadedDirection, hnone, hhf]
    · rw [loadedDirection, hrows, hhf]
  · rcases hload with ⟨hnone, _, hcells⟩ | ⟨rows, hrows, _, hcells⟩
    · rw [loadedStandings, hnone, hcells]
      rfl
    · rw [loadedStandings, hrows, hcells]

/-! ## The two containers agree -/

/-- The map and the ranking describe the same entries. -/
structure RepInvariant (b : Leaderboard T) : Prop where
  /-- Each value of `entries` is pointed to by exactly one element of `ranking`. -/
  once : ∀ name p, b.entries.lookup name = some p → (b.ranking.map Node.pointer).count p = 1
  /-- And `ranking` has no other element. -/
  noOther : ∀ n ∈ b.ranking, ∃ name, b.entries.lookup name = some n.pointer
  /-- Each entry is found under its name, and its iterator designates its own element. -/
  keyed : ∀ name p, b.entries.lookup name = some p → ∃ e, b.heap p = some e ∧ e.name = name ∧
    ⟨e.rankingPosition, p⟩ ∈ b.ranking
  iterators : (b.ranking.map Node.iterator).Nodup
  sorted : ∃ es, b.ranked = some es ∧ es.Pairwise (leaderboardEntryComparator b.highestFirst · ·) ∧
    (es.map fun e => e.id).Nodup ∧ ∀ e ∈ es, e.id < b.nextId
  bounded : b.ranking.length ≤ b.maxSize

theorem Shows.repInvariant (h : b.Shows highestFirst maxSize rows) : b.RepInvariant := by
  obtain ⟨cells, hrep, -, rfl, hlen, -⟩ := h
  have hlinked := hrep.linked
  constructor
  · intro name p hp
    obtain ⟨c, hc, _, rfl⟩ := (hrep.owned name p).mp hp
    rw [hrep.ranking, List.map_map]
    apply List.count_eq_one_of_mem
    · rw [List.Nodup, List.pairwise_map]
      exact hlinked.apart.imp fun hapart => hapart.2.1
    · exact List.mem_map.mpr ⟨c, hc, rfl⟩
  · intro n hn
    rw [hrep.ranking] at hn
    obtain ⟨c, hc, rfl⟩ := List.mem_map.mp hn
    exact ⟨c.2.name, (hrep.owned _ _).mpr ⟨c, hc, rfl, rfl⟩⟩
  · intro name p hp
    obtain ⟨c, hc, hname, rfl⟩ := (hrep.owned name p).mp hp
    refine ⟨c.2, hlinked.backed c hc, hname, ?_⟩
    rw [hrep.ranking, hlinked.position c hc]
    exact List.mem_map.mpr ⟨c, hc, rfl⟩
  · rw [hrep.ranking, List.map_map, List.Nodup, List.pairwise_map]
    exact hlinked.apart.imp fun hapart => hapart.1
  · refine ⟨cells.map Prod.snd, hrep.ranked, ?_, ?_, ?_⟩
    · rw [List.pairwise_map]
      exact hlinked.sorted
    · rw [List.map_map, List.Nodup, List.pairwise_map]
      exact hlinked.apart.imp fun hapart => hapart.2.2.2
    · intro e he
      obtain ⟨c, hc, rfl⟩ := List.mem_map.mp he
      exact hlinked.id c hc
  · rw [hrep.ranking, List.length_map]
    exact hlen

/-- Whatever the file, the direction, the clock and the uninitialised fields, every run of
`submit_score` calls is defined and leaves a board whose containers agree. -/
theorem repInvariant_run (file : Option Text) (maxSize : ℕ) (hpos : 0 < maxSize)
    (highestFirst : Bool) (calls : List (Submission T)) :
    ∃ b₀ b, construct lib file maxSize highestFirst = some b₀ ∧
      Library.run step b₀ calls = some b ∧ b.RepInvariant := by
  obtain ⟨b₀, hb₀, hshows⟩ := construct_shows lib file maxSize highestFirst
  obtain ⟨b, rows, hrun, hshows'⟩ := hshows.run hpos calls
  exact ⟨b₀, b, hb₀, hrun, hshows'.repInvariant⟩

/-- A full board, an update that moves an entry and an eviction. -/
theorem repInvariant_run_evicting : ∃ b₀ b : Leaderboard ℤ,
    construct Json.library none 2 false = some b₀ ∧
      Library.run step b₀ [⟨"a", 3, 10, 0, 0⟩, ⟨"b", 2, 9, 7, 7⟩, ⟨"a", 1, 8, 5, 5⟩,
        ⟨"c", 0, 7, 0, 0⟩] = some b ∧ b.RepInvariant :=
  repInvariant_run Json.library none 2 (by decide) false _

end Leaderboard
end ServerSimple.GlobalBoards
