import ServerSimple.GlobalBoards.ScoreStreamReload
import ServerSimple.GlobalBoards.NameboardQueue

/-! # Reloading a chronological board with a smaller capacity

While they run, the score stream and the nameboard drop their oldest entries. Their files list the
oldest entries first and loading takes the first items that fit, so a board of smaller capacity comes
up with the oldest entries instead of the newest.
-/

namespace ServerSimple.GlobalBoards

open Library

variable {Text J T : Type} (lib : JsonLibrary Text J T)

namespace ScoreStream

/-- A stream of capacity `m` that is constructed from the file shows what the submissions would have
led to at this capacity, and that is the newest rows of the stream of capacity `M`. -/
def KeepsNewest (m M : ℕ) (calls : List (ScoreCall T)) (file : Option Text) : Prop :=
  (construct lib file m).rows = (calls.foldl submitScore (construct lib none m)).rows ∧
    (construct lib file m).rows = (calls.foldl submitScore (construct lib none M)).rows.take m

variable {lib}

theorem keepsNewest_iff (laws : lib.Lawful) {m M : ℕ} (hm : m ≤ M) (calls : List (ScoreCall T))
    {disk disk' : Leaderboard.Disk Text} {io : Leaderboard.SaveOutcome Text}
    (hsave : (calls.foldl submitScore (construct lib none M)).save lib disk io = (true, disk')) :
    KeepsNewest lib m M calls disk'.file ↔
      ((calls.map ScoreCall.standing).rtake M).HasPeriod (min M calls.length - m) := by
  have hlength : ((calls.map ScoreCall.standing).rtake M).length = min M calls.length := by
    rw [length_rtake, List.length_map]
  have hreload := rows_reload laws hsave m
  have hnewest : ((calls.map ScoreCall.standing).rtake M).reverse.take m =
      (((calls.map ScoreCall.standing).rtake M).rtake m).reverse := by
    rw [List.rtake_eq_reverse_take_reverse _ m, List.reverse_reverse]
  rw [rows_from_start, List.reverse_reverse] at hreload
  rw [KeepsNewest, hreload, rows_from_start, rows_from_start, hnewest, rtake_rtake hm, and_self,
    List.reverse_inj, ← rtake_rtake hm, take_eq_rtake_iff, hlength]

end ScoreStream

namespace Nameboard

/-- The board after a run that starts from a file. -/
def after (file : Option Text) (maxSize : ℕ) (calls : List NameCall) : Option Nameboard :=
  (construct lib file maxSize).bind fun b => Library.run step b calls

/-- The rows of that board. -/
def rowsAfter (file : Option Text) (maxSize : ℕ) (calls : List NameCall) :
    Option (List (String × ℤ)) :=
  ((after lib file maxSize calls).bind getAll).map fun es => es.map Entry.row

/-- A board of capacity `m` that is constructed from the file shows what the calls would have led to
at this capacity, and that is the newest rows of the board of capacity `M`. -/
def KeepsNewest (m M : ℕ) (calls : List NameCall) (file : Option Text) : Prop :=
  ∃ saved reloaded, rowsAfter lib none M calls = some saved ∧ rowsAfter lib file m [] = some reloaded ∧
    rowsAfter lib none m calls = some reloaded ∧ reloaded = saved.rtake m

/-- The queue of the rows of the calls. -/
def queueOf (maxSize : ℕ) (calls : List NameCall) : List (String × ℤ) :=
  (calls.map NameCall.row).foldl (enqueue Prod.fst maxSize) []

theorem nodup_names_nil : (([] : List (String × ℤ)).map Prod.fst).Nodup := List.nodup_nil

theorem nodup_queueOf (maxSize : ℕ) (calls : List NameCall) : (queueOf maxSize calls).Nodup :=
  (nodup_foldl_enqueue nodup_names_nil _).of_map

theorem keys_queueOf (calls : List NameCall) :
    (([] ++ calls.map NameCall.row).map Prod.fst).toFinset = (calls.map NameCall.name).toFinset := by
  rw [List.nil_append, List.map_map]
  rfl

theorem length_queueOf (maxSize : ℕ) (calls : List NameCall) :
    (queueOf maxSize calls).length = min maxSize (calls.map NameCall.name).toFinset.card := by
  rw [queueOf, length_foldl_enqueue (Nat.zero_le _) nodup_names_nil, keys_queueOf]

/-- A smaller queue that never has a row too many holds the same rows, and one without capacity
none. -/
theorem queueOf_eq_take {m M : ℕ} (hm : m ≤ M) {calls : List NameCall}
    (h : m = 0 ∨ m = M ∨ (calls.map NameCall.name).toFinset.card ≤ m) :
    queueOf m calls = (queueOf M calls).take m := by
  have hlength := length_queueOf M calls
  rcases h with rfl | rfl | hcard
  · have hempty := length_queueOf 0 calls
    rw [List.take_zero, ← List.length_eq_zero_iff, hempty, Nat.zero_min]
  · rw [List.take_of_length_le (by omega)]
  · rw [List.take_of_length_le (by omega)]
    apply foldl_enqueue_of_card_le hm nodup_names_nil
    rwa [keys_queueOf]

variable {lib}

theorem rowsAfter_eq_some {file : Option Text} {maxSize : ℕ} {calls : List NameCall} {b₀ b : Nameboard}
    {es : List Entry} (hb₀ : construct lib file maxSize = some b₀)
    (hrun : Library.run step b₀ calls = some b) (hshows : b.Shows maxSize es) :
    rowsAfter lib file maxSize calls = some (es.map Entry.row) := by
  rw [rowsAfter, after, hb₀, Option.bind_some, hrun, Option.bind_some, hshows.getAll]
  rfl

variable (lib) in
theorem rowsAfter_eq_queueOf (maxSize : ℕ) {calls : List NameCall}
    (hclock : calls.Pairwise fun call later => call.now ≤ later.now) :
    rowsAfter lib none maxSize calls = some (queueOf maxSize calls) := by
  obtain ⟨b₀, b, es, hb₀, hrun, hshows, hqueue⟩ := queue_from_start lib maxSize hclock
  rw [rowsAfter_eq_some hb₀ hrun hshows, hqueue]
  rfl

theorem keepsNewest_iff (laws : lib.Lawful) {m M : ℕ} (hm : m ≤ M) {calls : List NameCall}
    (hclock : calls.Pairwise fun call later => call.now ≤ later.now) :
    ∃ b, after lib none M calls = some b ∧ ∀ disk io disk', b.save lib disk io = some (true, disk') →
      (KeepsNewest lib m M calls disk'.file ↔
        m = 0 ∨ m = M ∨ (calls.map NameCall.name).toFinset.card ≤ m) := by
  obtain ⟨b₀, b, es, hb₀, hrun, hshows, hqueue⟩ := queue_from_start lib M hclock
  refine ⟨b, by rw [after, hb₀, Option.bind_some, hrun], fun disk io disk' hsave => ?_⟩
  obtain ⟨b', es', hb', hshows', hrows⟩ := hshows.reload laws hsave m
  have hreloaded : rowsAfter lib disk'.file m [] = some ((queueOf M calls).take m) := by
    rw [rowsAfter_eq_some hb' rfl hshows', hrows, hqueue]
    rfl
  have hlength := length_queueOf M calls
  rw [KeepsNewest, rowsAfter_eq_queueOf lib M hclock, rowsAfter_eq_queueOf lib m hclock, hreloaded]
  constructor
  · rintro ⟨saved, reloaded, hsaved, htake, -, hnewest⟩
    cases hsaved
    cases htake
    rw [take_eq_rtake_iff_of_nodup (nodup_queueOf M calls)] at hnewest
    omega
  · intro hcondition
    have hkept : m = 0 ∨ (queueOf M calls).length ≤ m := by omega
    exact ⟨_, _, rfl, rfl, congrArg some (queueOf_eq_take hm hcondition),
      (take_eq_rtake_iff_of_nodup (nodup_queueOf M calls) m).mpr hkept⟩

end Nameboard

/-- Shrinking a board keeps its newest entries only where the oldest ones are the same. For a score
stream the rows that were saved must repeat themselves, with the number of rows too many as the
period; for a nameboard, where rows do not repeat, there must be no row too many or no room at all. -/
theorem shrinking_keepsNewest_iff {lib : JsonLibrary Text J T} (laws : lib.Lawful) {m M : ℕ}
    (hm : m ≤ M) :
    (∀ (calls : List (ScoreCall T)) disk io disk',
      (calls.foldl ScoreStream.submitScore (ScoreStream.construct lib none M)).save lib disk io =
          (true, disk') →
        (ScoreStream.KeepsNewest lib m M calls disk'.file ↔
          ((calls.map ScoreCall.standing).rtake M).HasPeriod (min M calls.length - m))) ∧
    ∀ calls : List NameCall, (calls.Pairwise fun call later => call.now ≤ later.now) →
      ∃ b, Nameboard.after lib none M calls = some b ∧
        ∀ disk io disk', b.save lib disk io = some (true, disk') →
          (Nameboard.KeepsNewest lib m M calls disk'.file ↔
            m = 0 ∨ m = M ∨ (calls.map NameCall.name).toFinset.card ≤ m) :=
  ⟨fun calls _ _ _ hsave => ScoreStream.keepsNewest_iff laws hm calls hsave,
    fun _ hclock => Nameboard.keepsNewest_iff laws hm hclock⟩

/-- Two scores and two names, on boards for which one of them is later too many. -/
def twoScores : List (ScoreCall ℤ) := [⟨"a", 1, 0⟩, ⟨"b", 2, 1⟩]

def twoNames : List NameCall := [⟨"a", 0⟩, ⟨"b", 1⟩]

/-- Every file operation succeeds. -/
def wholeSave : Leaderboard.SaveOutcome Json := ⟨true, true, true, .array []⟩

theorem shrinking_keeps_oldest :
    (∃ disk', (twoScores.foldl ScoreStream.submitScore
        (ScoreStream.construct Json.library none 2)).save Json.library ⟨none, none⟩ wholeSave =
          (true, disk') ∧
      ¬ ScoreStream.KeepsNewest Json.library 1 2 twoScores disk'.file) ∧
    ∃ b disk', Nameboard.after Json.library none 2 twoNames = some b ∧
      b.save Json.library ⟨none, none⟩ wholeSave = some (true, disk') ∧
      ¬ Nameboard.KeepsNewest Json.library 1 2 twoNames disk'.file := by
  constructor
  · obtain ⟨disk', hsave⟩ : ∃ disk', (twoScores.foldl ScoreStream.submitScore
        (ScoreStream.construct Json.library none 2)).save Json.library ⟨none, none⟩ wholeSave =
          (true, disk') := ⟨_, rfl⟩
    refine ⟨disk', hsave, ?_⟩
    rw [ScoreStream.keepsNewest_iff Json.library_lawful (by decide) twoScores hsave,
      List.hasPeriod_iff_getElem?]
    decide
  · refine ⟨_, _, rfl, rfl, ?_⟩
    rintro ⟨saved, reloaded, hsaved, hreloaded, -, hnewest⟩
    cases hsaved
    cases hreloaded
    exact absurd hnewest (by decide)

theorem shrinking_keepsNewest_iff_two :
    (∃ disk', (twoScores.foldl ScoreStream.submitScore
        (ScoreStream.construct Json.library none 2)).save Json.library ⟨none, none⟩ wholeSave =
          (true, disk') ∧
      (ScoreStream.KeepsNewest Json.library 1 2 twoScores disk'.file ↔
        ((twoScores.map ScoreCall.standing).rtake 2).HasPeriod 1)) ∧
    ∃ b, Nameboard.after Json.library none 2 twoNames = some b ∧
      ∀ disk io disk', b.save Json.library disk io = some (true, disk') →
        (Nameboard.KeepsNewest Json.library 1 2 twoNames disk'.file ↔
          1 = 0 ∨ 1 = 2 ∨ (twoNames.map NameCall.name).toFinset.card ≤ 1) :=
  have h := shrinking_keepsNewest_iff Json.library_lawful (show 1 ≤ 2 by decide)
  ⟨⟨_, rfl, h.1 twoScores ⟨none, none⟩ wholeSave _ rfl⟩, h.2 twoNames (by decide)⟩

end ServerSimple.GlobalBoards
