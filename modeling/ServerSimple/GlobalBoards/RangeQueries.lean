import ServerSimple.Library.Iterators
import ServerSimple.GlobalBoards.LeaderboardCapacity
import ServerSimple.GlobalBoards.LeaderboardQueries
import ServerSimple.GlobalBoards.NameboardRows
import ServerSimple.GlobalBoards.Shrinking

/-! # Range queries

The six range functions as the code iterates: the leaderboard counts, the nameboard compares
iterators, and the score stream computes with indices. All of them stay inside the ranking, and the
ranges from the bottom are those from the top, counted from the other end.
-/

namespace ServerSimple.GlobalBoards

open Library Iterator

/-- Range queries over the ranking `l`, where `order` is how a range from the bottom is listed. -/
structure Tiles {E : Type} (l : List E) (order : List E → List E)
    (fromTop fromBottom : ℕ → ℕ → Option (List E)) : Prop where
  top : ∀ start stop, fromTop start stop = some (l.extract start (min stop l.length))
  top_empty : ∀ start stop, l.length ≤ start ∨ stop < start → fromTop start stop = some []
  bottom : ∀ start stop, fromBottom start stop =
    (fromTop (l.length - min stop l.length) (l.length - start)).map order
  /-- The pages from the top are the ranking. -/
  topPages : ∀ p, 0 < p → ∀ K, l.length ≤ K * p → ∃ pages,
    (List.range K).mapM (fun k => fromTop (k * p) ((k + 1) * p)) = some pages ∧ pages.flatten = l
  /-- The pages from the bottom contain every entry once. -/
  bottomPages : ∀ p, 0 < p → ∀ K, l.length ≤ K * p → ∃ pages,
    (List.range K).mapM (fun k => fromBottom (k * p) ((k + 1) * p)) = some pages ∧
      pages.flatten.Perm l

/-- It is enough to know the slices. -/
theorem tiles_of_slices {E : Type} {l : List E} {order : List E → List E}
    {fromTop fromBottom : ℕ → ℕ → Option (List E)} (horder : ∀ page, (order page).Perm page)
    (htop : ∀ start stop, fromTop start stop = some (l.extract start (min stop l.length)))
    (hbottom : ∀ start stop, fromBottom start stop =
      some (order (l.extract (l.length - min stop l.length) (l.length - start)))) :
    Tiles l order fromTop fromBottom where
  top := htop
  top_empty start stop hempty := by
    have hnone : min stop l.length - start = 0 := by omega
    rw [htop, List.extract_eq_take_drop, hnone, List.take_zero]
  bottom start stop := by
    rw [hbottom, htop, Option.map_some, extract_min_length]
  topPages p _ K hK := by
    refine ⟨(List.range K).map fun k => l.extract (k * p) ((k + 1) * p), ?_, ?_⟩
    · rw [mapM_eq_some_iff, List.map_map]
      apply List.map_congr_left
      intro k _
      rw [htop, extract_min_length]
      rfl
    · rw [flatten_pages, List.take_of_length_le hK]
  bottomPages p _ K hK := by
    let page k := order (l.extract (l.length - min ((k + 1) * p) l.length) (l.length - k * p))
    refine ⟨(List.range K).map page, ?_, ?_⟩
    · rw [mapM_eq_some_iff, List.map_map]
      apply List.map_congr_left
      intro k _
      exact hbottom _ _
    · -- up to the order inside the pages, these are the pages of the reversed ranking
      have hpages : ((List.range K).map page).flatten.Perm
          ((List.range K).map fun k => l.reverse.extract (k * p) ((k + 1) * p)).flatten := by
        rw [← List.flatMap_def, ← List.flatMap_def]
        apply List.Perm.flatMap_left
        intro k _
        rw [reverse_extract]
        exact (horder _).trans (List.reverse_perm _).symm
      rw [flatten_pages, List.take_of_length_le (by rwa [List.length_reverse])] at hpages
      exact hpages.trans l.reverse_perm

/-! ## The functions as the code iterates -/

namespace Leaderboard

variable {T : Type}

/-- The body shared by the two directions: a counter beside the iterator. -/
def iterateRange (heap : ℕ → Option (LeaderboardEntry T)) (nodes : List Node) (start stop : ℕ) :
    Option (List (LeaderboardEntry T)) :=
  if start ≥ nodes.length ∨ start > stop then some []
  else do
    let stop := min stop nodes.length
    let it ← advance nodes 0 start
    countingLoop nodes (fun node => heap node.pointer) stop start it []

/-- `get_range_from_top`, from `begin()`. -/
def iterateRangeFromTop (b : Leaderboard T) : ℕ → ℕ → Option (List (LeaderboardEntry T)) :=
  iterateRange b.heap b.ranking

/-- `get_range_from_bottom`, from `rbegin()`. -/
def iterateRangeFromBottom (b : Leaderboard T) : ℕ → ℕ → Option (List (LeaderboardEntry T)) :=
  iterateRange b.heap b.ranking.reverse

/-- The iterator stays inside and reads the slice. -/
theorem iterateRange_eq (heap : ℕ → Option (LeaderboardEntry T)) (nodes : List Node)
    (start stop : ℕ) : iterateRange heap nodes start stop = getRange heap nodes start stop := by
  unfold iterateRange getRange
  by_cases hguard : nodes.length ≤ start ∨ stop < start
  · rw [if_pos hguard, if_pos hguard]
  · have hadvance : advance nodes 0 start = some start := by
      rw [advance_eq (by omega), Nat.zero_add]
    rw [if_neg hguard, if_neg hguard, hadvance, Option.bind_eq_bind, Option.bind_some,
      countingLoop_eq _ (by omega)]
    simp [Library.readNodes]

end Leaderboard

namespace Nameboard

/-- The body shared by the two directions: a first and a last iterator. Their distance is the
capacity that is reserved. -/
def iterateInRange (b : Nameboard) (nodes : List Node) (start stop : ℕ) : Option (List Entry) :=
  if start ≥ nodes.length ∨ start > stop then some []
  else do
    let first ← advance nodes 0 start
    let last ← advance nodes 0 (min stop nodes.length)
    let _ ← distance nodes first last
    inequalityLoop nodes (fun node => b.heap node.pointer) last first []

/-- `get_in_range_from_top`, from `begin()`. -/
def iterateInRangeFromTop (b : Nameboard) : ℕ → ℕ → Option (List Entry) :=
  b.iterateInRange b.ranking

/-- `get_in_range_from_bottom`, from `rbegin()`. -/
def iterateInRangeFromBottom (b : Nameboard) : ℕ → ℕ → Option (List Entry) :=
  b.iterateInRange b.ranking.reverse

/-- The guards imply that the first iterator is not behind the last, so the loop ends. -/
theorem iterateInRange_eq (b : Nameboard) (nodes : List Node) (start stop : ℕ) :
    b.iterateInRange nodes start stop = b.getInRange nodes start stop := by
  unfold iterateInRange getInRange
  by_cases hguard : nodes.length ≤ start ∨ stop < start
  · rw [if_pos hguard, if_pos hguard]
  · have hfirst : advance nodes 0 start = some start := by
      rw [advance_eq (by omega), Nat.zero_add]
    have hlast : advance nodes 0 (min stop nodes.length) = some (min stop nodes.length) := by
      rw [advance_eq (by omega), Nat.zero_add]
    have hle : start ≤ min stop nodes.length := by omega
    have hend : min stop nodes.length ≤ nodes.length := by omega
    rw [if_neg hguard, if_neg hguard]
    simp only [hfirst, hlast, distance_eq hle hend, Option.bind_eq_bind, Option.bind_some]
    rw [inequalityLoop_eq _ hle hend]
    simp [Library.readNodes]

end Nameboard

namespace ScoreStream

variable {T : Type}

def iterateInRangeFromTop (s : ScoreStream T) (start stop : ℕ) : Option (List (ScoreStreamEntry T)) :=
  if start ≥ s.getAll.length ∨ start ≥ stop then some []
  else do
    let stop := min stop s.getAll.length
    let first ← plus s.getAll 0 start
    let last ← plus s.getAll 0 stop
    copyRange s.getAll first last

/-- The first difference is the capacity that is reserved. -/
def iterateInRangeFromBottom (s : ScoreStream T) (start stop : ℕ) :
    Option (List (ScoreStreamEntry T)) :=
  if start ≥ s.getAll.length ∨ start ≥ stop then some []
  else do
    let stop := min stop s.getAll.length
    let _ ← minus stop start
    let bottomStart ← minus s.getAll.length stop
    let bottomEnd ← minus s.getAll.length start
    let first ← plus s.getAll 0 bottomStart
    let last ← plus s.getAll 0 bottomEnd
    copyRange s.getAll first last

/-- Both ends of the copied range are inside, in the right order. -/
theorem iterateInRangeFromTop_eq (s : ScoreStream T) (start stop : ℕ) :
    s.iterateInRangeFromTop start stop = some (s.getInRangeFromTop start stop) := by
  unfold iterateInRangeFromTop getInRangeFromTop
  by_cases hguard : s.getAll.length ≤ start ∨ stop ≤ start
  · rw [if_pos hguard, if_pos hguard]
  · have hstop : 0 + min stop s.getAll.length ≤ s.getAll.length := by omega
    rw [if_neg hguard, if_neg hguard]
    simp only [plus_eq (show 0 + start ≤ s.getAll.length by omega), plus_eq hstop, Nat.zero_add,
      Option.bind_eq_bind, Option.bind_some]
    rw [copyRange_eq (by omega) (by omega), List.extract_eq_take_drop]

/-- No difference goes below zero. -/
theorem iterateInRangeFromBottom_eq (s : ScoreStream T) (start stop : ℕ) :
    s.iterateInRangeFromBottom start stop = some (s.getInRangeFromBottom start stop) := by
  unfold iterateInRangeFromBottom getInRangeFromBottom
  by_cases hguard : s.getAll.length ≤ start ∨ stop ≤ start
  · rw [if_pos hguard, if_pos hguard]
  · have hreserved : start ≤ min stop s.getAll.length := by omega
    have hstop : min stop s.getAll.length ≤ s.getAll.length := by omega
    have hstart : start ≤ s.getAll.length := by omega
    have hfirst : 0 + (s.getAll.length - min stop s.getAll.length) ≤ s.getAll.length := by omega
    have hlast : 0 + (s.getAll.length - start) ≤ s.getAll.length := by omega
    rw [if_neg hguard, if_neg hguard]
    simp only [minus_eq hreserved, minus_eq hstop, minus_eq hstart, plus_eq hfirst, plus_eq hlast,
      Nat.zero_add, Option.bind_eq_bind, Option.bind_some]
    rw [copyRange_eq (by omega) (by omega), List.extract_eq_take_drop]

end ScoreStream

/-! ## What the ranges contain -/

section

variable {E : Type} {heap : ℕ → Option E} {nodes : List Node} {es : List E}

theorem readNodes_reverse (h : readNodes heap nodes = some es) :
    readNodes heap nodes.reverse = some es.reverse := by
  rw [readNodes, mapM_eq_some_iff] at h ⊢
  rw [List.map_reverse, List.map_reverse, h]

theorem rangeOf_eq_extract (start stop : ℕ) (l : List E) :
    Leaderboard.rangeOf start stop l = l.extract start (min stop l.length) := by
  rw [Leaderboard.rangeOf, List.extract_eq_take_drop]
  split_ifs with hguard
  · have hnone : min stop l.length - start = 0 := by omega
    rw [hnone, List.take_zero]
  · rfl

/-- A guarded slice of the ranking reads as the slice of the entries. -/
theorem readNodes_slice (h : readNodes heap nodes = some es) (start stop : ℕ) :
    (if nodes.length ≤ start ∨ stop < start then some []
      else readNodes heap ((nodes.drop start).take (min stop nodes.length - start))) =
      some (es.extract start (min stop es.length)) := by
  rw [Leaderboard.readNodes_rangeOf h, rangeOf_eq_extract]

/-- The same from the other end. -/
theorem readNodes_slice_reverse (h : readNodes heap nodes = some es) (start stop : ℕ) :
    (if nodes.reverse.length ≤ start ∨ stop < start then some []
      else readNodes heap
        ((nodes.reverse.drop start).take (min stop nodes.reverse.length - start))) =
      some (es.extract (es.length - min stop es.length) (es.length - start)).reverse := by
  rw [readNodes_slice (readNodes_reverse h), extract_min_length, reverse_extract]

end

theorem Leaderboard.tiles {T : Type} {b : Leaderboard T} {es : List (LeaderboardEntry T)}
    (h : b.ranked = some es) :
    Tiles es List.reverse b.iterateRangeFromTop b.iterateRangeFromBottom := by
  apply tiles_of_slices List.reverse_perm
  · intro start stop
    rw [iterateRangeFromTop, iterateRange_eq]
    exact readNodes_slice h start stop
  · intro start stop
    rw [iterateRangeFromBottom, iterateRange_eq]
    exact readNodes_slice_reverse h start stop

theorem Nameboard.tiles {b : Nameboard} {es : List Entry} (h : b.getAll = some es) :
    Tiles es List.reverse b.iterateInRangeFromTop b.iterateInRangeFromBottom := by
  apply tiles_of_slices List.reverse_perm
  · intro start stop
    rw [iterateInRangeFromTop, iterateInRange_eq]
    exact readNodes_slice h start stop
  · intro start stop
    rw [iterateInRangeFromBottom, iterateInRange_eq]
    exact readNodes_slice_reverse h start stop

theorem ScoreStream.tiles {T : Type} (s : ScoreStream T) :
    Tiles s.getAll id s.iterateInRangeFromTop s.iterateInRangeFromBottom := by
  apply tiles_of_slices List.Perm.refl
  · intro start stop
    rw [iterateInRangeFromTop_eq, getInRangeFromTop, List.extract_eq_take_drop]
    split_ifs with hguard
    · have hnone : min stop s.getAll.length - start = 0 := by omega
      rw [hnone, List.take_zero]
    · rfl
  · intro start stop
    rw [iterateInRangeFromBottom_eq, getInRangeFromBottom, List.extract_eq_take_drop]
    split_ifs with hguard
    · have hnone : s.getAll.length - start - (s.getAll.length - min stop s.getAll.length) = 0 := by
        omega
      rw [hnone, List.take_zero]
    · rfl

/-- Whatever files the boards were constructed from and whatever calls they have had, their range
queries tile the ranking from both ends. -/
theorem rangeQueries_tile {Text J T : Type} [LinearOrder T] (lib : JsonLibrary Text J T)
    (file : Option Text) (maxSize : ℕ) :
    (∀ highestFirst calls (b : Leaderboard T),
      Leaderboard.after lib file maxSize highestFirst calls = some b →
      ∃ es, b.ranked = some es ∧
        Tiles es List.reverse b.iterateRangeFromTop b.iterateRangeFromBottom) ∧
    (∀ calls b, Nameboard.after lib file maxSize calls = some b →
      ∃ es, b.getAll = some es ∧
        Tiles es List.reverse b.iterateInRangeFromTop b.iterateInRangeFromBottom) ∧
    ∀ (calls : List (ScoreCall T)) (s : ScoreStream T),
      s = calls.foldl ScoreStream.submitScore (ScoreStream.construct lib file maxSize) →
      Tiles s.getAll id s.iterateInRangeFromTop s.iterateInRangeFromBottom := by
  refine ⟨?_, ?_, ?_⟩
  · intro highestFirst calls b hafter
    obtain ⟨rows, hshows⟩ := Leaderboard.after_shows lib hafter
    obtain ⟨es, hranked, -⟩ := hshows.ranked_returns
    exact ⟨es, hranked, Leaderboard.tiles hranked⟩
  · intro calls b hafter
    obtain ⟨b₀, hb₀, hshows⟩ := Nameboard.construct_shows lib file maxSize
    rw [Nameboard.after, hb₀, Option.bind_some] at hafter
    obtain ⟨b', es, hrun, hshows'⟩ := hshows.run calls
    cases hrun.symm.trans hafter
    exact ⟨es, hshows'.getAll, Nameboard.tiles hshows'.getAll⟩
  · intro calls s _
    exact s.tiles

end ServerSimple.GlobalBoards
