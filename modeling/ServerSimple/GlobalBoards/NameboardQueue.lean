import ServerSimple.Library.BoundedQueue
import ServerSimple.GlobalBoards.NameboardReload

/-! # A nameboard under a clock that does not go back

Every new entry is then the latest one, so the board is a bounded queue of names without repetition.
-/

namespace ServerSimple.GlobalBoards

open Library

/-- The row that a call asks for. -/
def NameCall.row (call : NameCall) : String × ℤ := (call.name, call.now)

namespace Nameboard

variable {b : Nameboard} {maxSize : ℕ} {es : List Entry}

/-- An entry that comes last drives out the first one if the board is full. -/
theorem insertBounded_eq_rtake (hlength : es.length ≤ maxSize) {new : Entry}
    (hend : es.orderedInsert Entry.Before new = es ++ [new]) :
    Entry.insertBounded maxSize es new = (es ++ [new]).rtake maxSize := by
  rw [Entry.insertBounded, hend]
  split_ifs with hfull
  · have hone : (es ++ [new]).length - maxSize = 1 := by
      rw [List.length_append, List.length_singleton]
      omega
    rw [List.rtake, hone, List.drop_one]
  · rw [rtake_of_length_le]
    rw [List.length_append, List.length_singleton]
    omega

theorem Shows.map_row_added (h : b.Shows maxSize es) {call : NameCall}
    (hnow : ∀ e ∈ es, e.timestamp ≤ call.now) :
    (b.added maxSize es call).1.map Entry.row =
      enqueue Prod.fst maxSize (es.map Entry.row) call.row := by
  have hnames : (es.map Entry.row).map Prod.fst = es.map Entry.name := by
    rw [List.map_map]
    rfl
  unfold added
  by_cases hname : call.row.1 ∈ (es.map Entry.row).map Prod.fst
  · rw [enqueue_of_mem hname, if_pos (hnames ▸ hname)]
  · rw [enqueue_of_notMem hname, if_neg (hnames ▸ hname)]
    have hinsert := insertBounded_eq_rtake h.length_le (h.orderedInsert_of_latest hnow)
    rw [hinsert, map_rtake, List.map_append]
    rfl

/-- As long as the clock does not go back, the rows of the board are such a queue. -/
theorem Shows.run_queue (h : b.Shows maxSize es) {calls : List NameCall}
    (hclock : calls.Pairwise fun call later => call.now ≤ later.now)
    (hnow : ∀ row ∈ es.map Entry.row, ∀ call ∈ calls, row.2 ≤ call.now) :
    ∃ b' es', Library.run step b calls = some b' ∧ b'.Shows maxSize es' ∧
      es'.map Entry.row =
        (calls.map NameCall.row).foldl (enqueue Prod.fst maxSize) (es.map Entry.row) := by
  induction calls generalizing b es with
  | nil => exact ⟨b, es, rfl, h, rfl⟩
  | cons call calls ih =>
    rw [List.pairwise_cons] at hclock
    obtain ⟨b₁, hstep, hshows⟩ := h.step_eq_some call
    have hrows : (b.added maxSize es call).1.map Entry.row =
        enqueue Prod.fst maxSize (es.map Entry.row) call.row :=
      h.map_row_added fun e he => hnow e.row (List.mem_map_of_mem he) call List.mem_cons_self
    -- Whatever is on the board now was there before the call or comes from it.
    have hnow₁ : ∀ row ∈ (b.added maxSize es call).1.map Entry.row, ∀ later ∈ calls,
        row.2 ≤ later.now := by
      intro row hrow later hlater
      rw [hrows] at hrow
      rcases mem_enqueue hrow with hold | rfl
      · exact hnow row hold later (List.mem_cons_of_mem call hlater)
      · exact hclock.1 later hlater
    obtain ⟨b', es', hrun, hshows', hqueue⟩ := ih hshows hclock.2 hnow₁
    refine ⟨b', es', run_cons_eq_some.mpr ⟨b₁, hstep, hrun⟩, hshows', ?_⟩
    rw [hqueue, hrows]
    rfl

variable {Text J T : Type} (lib : JsonLibrary Text J T)

/-- A new board without a file shows the queue of its calls. -/
theorem queue_from_start (maxSize : ℕ) {calls : List NameCall}
    (hclock : calls.Pairwise fun call later => call.now ≤ later.now) :
    ∃ b₀ b es, construct lib none maxSize = some b₀ ∧ Library.run step b₀ calls = some b ∧
      b.Shows maxSize es ∧
      es.map Entry.row = (calls.map NameCall.row).foldl (enqueue Prod.fst maxSize) [] := by
  obtain ⟨b₀, hb₀, hshows₀⟩ := construct_shows lib none maxSize
  obtain ⟨b, es, hrun, hshows, hqueue⟩ := hshows₀.run_queue hclock nofun
  exact ⟨b₀, b, es, hb₀, hrun, hshows, hqueue⟩

end Nameboard
end ServerSimple.GlobalBoards
