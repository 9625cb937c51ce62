import ServerSimple.Library.Lists
import ServerSimple.GlobalBoards.LeaderboardCells

/-! # The leaderboard keeps its standings

Every operation of the board is defined on a board that is represented by cells, leaves a board that
is, and does to the standings what a submission is for.
-/

namespace ServerSimple.GlobalBoards

open Library Cell

namespace Leaderboard

variable {T : Type} [LinearOrder T]

/-- The board stores exactly these cells. -/
structure Represents (b : Leaderboard T) (cells : List (Cell T)) : Prop where
  ranking : b.ranking = cells.map Prod.fst
  linked : Linked b.heap b.highestFirst b.nextId b.nextAddress cells
  owned : ∀ name p, b.entries.lookup name = some p ↔
    ∃ c ∈ cells, c.2.name = name ∧ c.1.pointer = p

namespace Represents

variable {b : Leaderboard T} {cells : List (Cell T)}

theorem ranked (h : b.Represents cells) : b.ranked = some (cells.map Prod.snd) := by
  rw [Leaderboard.ranked, h.ranking, readNodes_eq h.linked.backed]

theorem lookup_eq_none (h : b.Represents cells) {name : String} :
    b.entries.lookup name = none ↔ ∀ c ∈ cells, c.2.name ≠ name := by
  rw [Option.eq_none_iff_forall_ne_some]
  constructor
  · intro hnone c hc hname
    exact hnone c.1.pointer ((h.owned name c.1.pointer).mpr ⟨c, hc, hname, rfl⟩)
  · intro hall p hp
    obtain ⟨c, hc, hname, _⟩ := (h.owned name p).mp hp
    exact hall c hc hname

/-! ## The names find the cells -/

variable {player : String} {c : Cell T}

theorem find?_standing (h : b.Represents cells) (hc : c ∈ cells) (hname : c.2.name = player) :
    (cells.map standing).find? (fun row => row.name = player) = some c.standing := by
  rw [List.find?_map]
  cases hfind : cells.find? ((fun row : Standing T => decide (row.name = player)) ∘ standing) with
  | none =>
    have hnot := List.find?_eq_none.mp hfind c hc
    exact absurd (decide_eq_true hname) hnot
  | some d =>
    have hfound := List.find?_some hfind
    have hd : d.2.name = player := of_decide_eq_true hfound
    have heq := h.linked.eq_of_name (List.mem_of_find?_eq_some hfind) hc (hd.trans hname.symm)
    rw [heq, Option.map_some]

theorem find?_standing_eq_none (h : b.Represents cells) (hnone : b.entries.lookup player = none) :
    (cells.map standing).find? (fun row => row.name = player) = none := by
  rw [List.find?_eq_none]
  intro row hrow
  obtain ⟨c, hc, rfl⟩ := List.mem_map.mp hrow
  rw [decide_eq_true_eq]
  exact h.lookup_eq_none.mp hnone c hc

/-- The iterator of a cell and the name of its entry select the same cell. -/
theorem iterator_iff_name (h : b.Represents cells) (hc : c ∈ cells) (hname : c.2.name = player)
    {d : Cell T} (hd : d ∈ cells) : d.1.iterator = c.1.iterator ↔ d.standing.name = player := by
  constructor
  · intro hit
    rw [h.linked.eq_of_iterator hd hc hit]
    exact hname
  · intro hd'
    rw [h.linked.eq_of_name hd hc (Eq.trans hd' hname.symm)]

theorem map_standing_filter (h : b.Represents cells) (hc : c ∈ cells)
    (hname : c.2.name = player) :
    (cells.filter fun d => d.1.iterator ≠ c.1.iterator).map standing =
      (cells.map standing).filter fun row => row.name ≠ player := by
  rw [List.filter_map]
  congr 1
  apply List.filter_congr
  intro d hd
  exact decide_eq_decide.mpr (not_congr (h.iterator_iff_name hc hname hd))

theorem findIdx?_iterator (h : b.Represents cells) (hc : c ∈ cells) (hname : c.2.name = player) :
    (cells.findIdx? fun d => d.1.iterator = c.1.iterator) =
      (cells.map standing).findIdx? fun row => row.name = player := by
  rw [List.findIdx?_map]
  apply findIdx?_congr
  intro d hd
  exact decide_eq_decide.mpr (h.iterator_iff_name hc hname hd)

end Represents

/-! ## The operations -/

variable {b : Leaderboard T} {cells : List (Cell T)}

/-- Where the entry of a submission goes, seen in the ranking and in the standings. -/
theorem getIndex_insert {heap : ℕ → Option (LeaderboardEntry T)} {highestFirst : Bool}
    {nextId nextAddress : ℕ} (h : Linked heap highestFirst nextId nextAddress cells) (c : Cell T)
    (hid : c.2.id = nextId) (hiterator : nextAddress ≤ c.1.iterator) :
    getIndex c.1.iterator ((cells.orderedInsert (Before highestFirst) c).map Prod.fst) =
      some ((cells.map standing).findIdx fun row => c.standing.Ahead highestFirst row) := by
  rw [getIndex_eq, findIdx?_orderedInsert]
  · rw [List.findIdx_map]
    congr 1
    apply findIdx_congr
    intro d hd
    exact decide_eq_decide.mpr (h.before_iff hid hd)
  · simp
  · intro d hd
    have hlt := (h.address d hd).1
    rw [decide_eq_false_iff_not]
    omega

/-- The other cells when one is taken out. -/
theorem Represents.linked_filter (h : b.Represents cells) {c : Cell T} (hc : c ∈ cells) :
    Linked b.heap b.highestFirst b.nextId b.nextAddress
      (cells.filter fun d => d.1.iterator ≠ c.1.iterator) ∧
    ∀ d ∈ cells.filter (fun d => d.1.iterator ≠ c.1.iterator),
      d.1.pointer ≠ c.1.pointer ∧ d.2.name ≠ c.2.name := by
  refine ⟨h.linked.sublist List.filter_sublist, ?_⟩
  intro d hd
  rw [List.mem_filter, decide_eq_true_eq] at hd
  constructor
  · intro hp
    exact hd.2 (by rw [h.linked.eq_of_pointer hd.1 hc hp])
  · intro hn
    exact hd.2 (by rw [h.linked.eq_of_name hd.1 hc hn])

/-- The cell of a player who is present, with a new score and in a new node. -/
def movedCell (b : Leaderboard T) (c : Cell T) (call : Submission T) : Cell T :=
  (⟨b.nextAddress, c.1.pointer⟩, ⟨⟨c.2.name, call.now, b.nextId⟩, call.score, b.nextAddress⟩)

/-- The cells after the move. -/
def movedCells (b : Leaderboard T) (cells : List (Cell T)) (c : Cell T) (call : Submission T) :
    List (Cell T) :=
  (cells.filter fun d => d.1.iterator ≠ c.1.iterator).orderedInsert (Before b.highestFirst)
    (b.movedCell c call)

/-- The board after the move. -/
def movedBoard (b : Leaderboard T) (cells : List (Cell T)) (c : Cell T) (call : Submission T) :
    Leaderboard T :=
  { b with
    heap := Function.update b.heap c.1.pointer (some (b.movedCell c call).2)
    ranking := (b.movedCells cells c call).map Prod.fst
    nextId := b.nextId + 1
    nextAddress := b.nextAddress + 1 }

theorem Represents.movedBoard (h : b.Represents cells) {c : Cell T} (hc : c ∈ cells)
    (call : Submission T) : (b.movedBoard cells c call).Represents (b.movedCells cells c call) := by
  obtain ⟨hlinked, hothers⟩ := h.linked_filter hc
  have haddress := h.linked.address c hc
  refine ⟨rfl, ?_, ?_⟩
  · refine hlinked.insert (b.movedCell c call).1 (b.movedCell c call).2 rfl rfl le_rfl
      (fun d hd => (hothers d hd).1) (fun d hd => (hothers d hd).2) ?_
    simp only [movedCell, Leaderboard.movedBoard]
    omega
  · intro name p
    change b.entries.lookup name = some p ↔ _
    rw [h.owned name p]
    constructor
    · rintro ⟨d, hd, rfl, rfl⟩
      by_cases hdc : d.1.iterator = c.1.iterator
      · rw [h.linked.eq_of_iterator hd hc hdc]
        exact ⟨b.movedCell c call, (List.mem_orderedInsert _).mpr (.inl rfl), rfl, rfl⟩
      · exact ⟨d, (List.mem_orderedInsert _).mpr (.inr (List.mem_filter.mpr ⟨hd, by simpa using hdc⟩)),
          rfl, rfl⟩
    · rintro ⟨d, hd, rfl, rfl⟩
      rcases (List.mem_orderedInsert _).mp hd with rfl | hd
      · exact ⟨c, hc, rfl, rfl⟩
      · exact ⟨d, (List.mem_filter.mp hd).1, rfl, rfl⟩

theorem updateScore_eq_moved (h : b.Represents cells) {c : Cell T} (hc : c ∈ cells)
    {call : Submission T} (hcandidate : leaderboardEntryComparator b.highestFirst
      ⟨⟨"", call.candidateTimestamp, call.candidateId⟩, call.score, 0⟩ c.2 = true) :
    b.updateScore c.1.pointer call = some (b.movedBoard cells c call,
      some (((cells.filter fun d => d.1.iterator ≠ c.1.iterator).map standing).findIdx fun row =>
        (b.movedCell c call).standing.Ahead b.highestFirst row),
      cells.findIdx? fun d => d.1.iterator = c.1.iterator) := by
  obtain ⟨hlinked, hothers⟩ := h.linked_filter hc
  obtain ⟨i, hi⟩ : ∃ i, (cells.findIdx? fun d => d.1.iterator = c.1.iterator) = some i := by
    rw [← Option.isSome_iff_exists, List.findIdx?_isSome, List.any_eq_true]
    exact ⟨c, hc, by simp⟩
  have hread := h.linked.backed c hc
  have hpos := h.linked.position c hc
  have hindex : getIndex b.nextAddress ((b.movedCells cells c call).map Prod.fst) = _ :=
    getIndex_insert hlinked (b.movedCell c call) rfl le_rfl
  -- while it is inserted, the entry still has its old position
  let entry : LeaderboardEntry T := ⟨⟨c.2.name, call.now, b.nextId⟩, call.score, c.1.iterator⟩
  have hinsert : insertNode (Function.update b.heap c.1.pointer (some entry))
      (leaderboardEntryComparator b.highestFirst) ⟨b.nextAddress, c.1.pointer⟩
      ((cells.filter fun d => d.1.iterator ≠ c.1.iterator).map Prod.fst) =
        some ((b.movedCells cells c call).map Prod.fst) :=
    insertNode_eq _ (b.movedCell c call).2 (Function.update_self ..) (fun _ => rfl)
      (hlinked.update_heap (fun d hd => (hothers d hd).1) (some entry)).backed
  rw [updateScore, hread]
  simp only [Option.bind_eq_bind, Option.bind_some, hcandidate, Bool.true_eq_false, if_false, hpos,
    h.ranking, getIndex_eq, hi, eraseNode_eq hc]
  rw [hinsert, Option.bind_some, hindex, Option.bind_some, Function.update_idem]
  rfl

theorem updateScore_refines (h : b.Represents cells) {c : Cell T} (hc : c ∈ cells)
    {call : Submission T} (hname : c.2.name = call.player) :
    ∃ b' out cells' tie, b.updateScore c.1.pointer call = some (b', out) ∧ b'.Represents cells' ∧
      b'.highestFirst = b.highestFirst ∧ b'.maxSize = b.maxSize ∧
      (cells'.map standing, out) =
        Standing.submit b.highestFirst b.maxSize (cells.map standing) call tie := by
  have hfind := h.find?_standing hc hname
  have hread := h.linked.backed c hc
  cases hcandidate : leaderboardEntryComparator b.highestFirst
      ⟨⟨"", call.candidateTimestamp, call.candidateId⟩, call.score, 0⟩ c.2 with
  | false =>
    refine ⟨b, (none, none), cells, false, ?_, h, rfl, rfl, ?_⟩
    · simp [updateScore, hread, hcandidate]
    · have hnot := Bool.eq_false_iff.mp hcandidate
      rw [Ne, leaderboardEntryComparator_iff, not_or] at hnot
      simp only [Standing.submit, hfind]
      rw [if_neg]
      simpa using hnot.1
  | true =>
    refine ⟨_, _, _, true, updateScore_eq_moved h hc hcandidate, h.movedBoard hc call, rfl, rfl, ?_⟩
    obtain ⟨hlinked, _⟩ := h.linked_filter hc
    have hstanding : (b.movedCell c call).standing = Standing.ofSubmission call := by
      rw [Standing.ofSubmission, ← hname]
      rfl
    have hyes := leaderboardEntryComparator_iff.mp hcandidate
    simp only [Standing.submit, hfind]
    rw [if_pos (by simpa using hyes.imp id And.left), movedCells,
      hlinked.map_standing_orderedInsert rfl, hstanding, h.map_standing_filter hc hname,
      h.findIdx?_iterator hc hname]

/-- The cell of a new entry. -/
def newCell (b : Leaderboard T) (entry : LeaderboardEntry T) : Cell T :=
  (⟨b.nextAddress + 1, b.nextAddress⟩, { entry with rankingPosition := b.nextAddress + 1 })

/-- The board with a new entry. -/
def insertedBoard (b : Leaderboard T) (cells : List (Cell T)) (entry : LeaderboardEntry T) :
    Leaderboard T :=
  { b with
    heap := Function.update b.heap b.nextAddress (some (b.newCell entry).2)
    entries := emplace b.entries entry.name b.nextAddress
    ranking := (cells.orderedInsert (Before b.highestFirst) (b.newCell entry)).map Prod.fst
    nextId := b.nextId + 1
    nextAddress := b.nextAddress + 2 }

theorem insertEntry_eq (h : b.Represents cells) (entry : LeaderboardEntry T) :
    insertEntry { b with nextId := b.nextId + 1 } entry = some (b.insertedBoard cells entry) := by
  have hfresh : ∀ d ∈ cells, d.1.pointer ≠ b.nextAddress := fun d hd =>
    Nat.ne_of_lt (h.linked.address d hd).2
  have hinsert : insertNode (Function.update b.heap b.nextAddress (some entry))
      (leaderboardEntryComparator b.highestFirst) ⟨b.nextAddress + 1, b.nextAddress⟩
      (cells.map Prod.fst) =
        some ((cells.orderedInsert (Before b.highestFirst) (b.newCell entry)).map Prod.fst) :=
    insertNode_eq _ (b.newCell entry).2 (Function.update_self ..) (fun _ => rfl)
      (h.linked.update_heap hfresh (some entry)).backed
  rw [insertEntry]
  simp only [h.ranking, Option.bind_eq_bind]
  rw [hinsert, Option.bind_some, Function.update_idem]
  rfl

theorem Represents.insertedBoard (h : b.Represents cells) (entry : LeaderboardEntry T)
    (hid : entry.id = b.nextId) (hnone : b.entries.lookup entry.name = none) :
    (b.insertedBoard cells entry).Represents
      (cells.orderedInsert (Before b.highestFirst) (b.newCell entry)) := by
  have hnames := h.lookup_eq_none.mp hnone
  refine ⟨rfl, ?_, ?_⟩
  · refine h.linked.insert (b.newCell entry).1 (b.newCell entry).2 hid rfl (Nat.le_succ _) ?_ hnames ?_
    · intro d hd
      exact Nat.ne_of_lt (h.linked.address d hd).2
    · simp [newCell, Leaderboard.insertedBoard]
  · intro name p
    change (emplace b.entries entry.name b.nextAddress).lookup name = some p ↔ _
    simp only [List.mem_orderedInsert]
    by_cases hname : name = entry.name
    · subst hname
      rw [lookup_emplace_self _ hnone]
      constructor
      · rintro ⟨rfl⟩
        exact ⟨_, .inl rfl, rfl, rfl⟩
      · rintro ⟨d, rfl | hd, hd', rfl⟩
        · rfl
        · exact absurd hd' (hnames d hd)
    · rw [lookup_emplace_of_ne _ hname, h.owned name p]
      constructor
      · rintro ⟨d, hd, hd'⟩
        exact ⟨d, .inr hd, hd'⟩
      · rintro ⟨d, rfl | hd, hd', hp⟩
        · exact absurd hd'.symm hname
        · exact ⟨d, hd, hd', hp⟩

theorem removeLast_refines {c : Cell T} (h : b.Represents (cells ++ [c])) :
    ∃ b', b.removeLast = some b' ∧ b'.Represents cells ∧ b'.highestFirst = b.highestFirst ∧
      b'.maxSize = b.maxSize := by
  have hc : c ∈ cells ++ [c] := by simp
  have hsub : cells.Sublist (cells ++ [c]) := List.sublist_append_left ..
  have hlast : b.ranking.getLast? = some c.1 := by simp [h.ranking]
  have hread := h.linked.backed c hc
  have howned : b.entries.lookup c.2.name = some c.1.pointer := (h.owned _ _).mpr ⟨c, hc, rfl, rfl⟩
  have happart : ∀ d ∈ cells, Apart d c := by
    have hpair := h.linked.apart
    rw [List.pairwise_append] at hpair
    exact fun d hd => hpair.2.2 d hd c (by simp)
  have hremove : b.removeLast = some { b with
      ranking := b.ranking.dropLast
      entries := b.entries.erase c.2.name
      heap := Function.update b.heap c.1.pointer none } := by
    simp only [removeLast, hlast, hread, howned, Option.bind_eq_bind, Option.bind_some]
  refine ⟨_, hremove, ⟨by simp [h.ranking], ?_, ?_⟩, rfl, rfl⟩
  · exact (h.linked.sublist hsub).update_heap (fun d hd => (happart d hd).2.1) none
  · intro name p
    dsimp only
    by_cases hname : name = c.2.name
    · subst hname
      rw [AList.lookup_erase]
      simp only [reduceCtorEq, false_iff]
      rintro ⟨d, hd, hd', _⟩
      exact (happart d hd).2.2.1 hd'
    · rw [AList.lookup_erase_ne hname, h.owned name p]
      constructor
      · rintro ⟨d, hd, hd', hp⟩
        rcases List.mem_append.mp hd with hd | hd
        · exact ⟨d, hd, hd', hp⟩
        · rw [List.mem_singleton.mp hd] at hd'
          exact absurd hd'.symm hname
      · rintro ⟨d, hd, hd'⟩
        exact ⟨d, hsub.subset hd, hd'⟩

/-- A full board compares with its last entry; for the standings this asks whether the place is
among the first `maxSize`. -/
theorem Represents.place_lt_iff (h : b.Represents cells) (hlen : cells.length ≤ b.maxSize) (c : Cell T)
    (hid : c.2.id = b.nextId) :
    ((cells.map standing).findIdx fun row => c.standing.Ahead b.highestFirst row) < b.maxSize ↔
      cells.length < b.maxSize ∨ ∃ last ∈ cells.getLast?, Before b.highestFirst c last := by
  have hplace : ((cells.map standing).findIdx fun row => c.standing.Ahead b.highestFirst row) =
      cells.findIdx fun d => Before b.highestFirst c d := by
    rw [List.findIdx_map]
    apply findIdx_congr
    intro d hd
    exact decide_eq_decide.mpr (h.linked.before_iff hid hd).symm
  rw [hplace]
  by_cases hroom : cells.length < b.maxSize
  · simp only [hroom, true_or, iff_true]
    exact lt_of_le_of_lt List.findIdx_le_length hroom
  · have hfull : cells.length = b.maxSize := by omega
    simp only [hroom, false_or]
    rw [← hfull, List.findIdx_lt_length]
    constructor
    · rintro ⟨d, hd, hbefore⟩
      obtain ⟨init, last, rfl⟩ := List.eq_nil_or_concat cells |>.resolve_left (List.ne_nil_of_mem hd)
      refine ⟨last, by simp, ?_⟩
      rw [decide_eq_true_eq] at hbefore
      rcases List.mem_append.mp (List.concat_eq_append ▸ hd) with hd | hd
      · have hsorted := h.linked.sorted
        rw [List.concat_eq_append, List.pairwise_append] at hsorted
        exact leaderboardEntryComparator_trans hbefore (hsorted.2.2 d hd last (by simp))
      · rw [List.mem_singleton.mp hd] at hbefore
        exact hbefore
    · rintro ⟨last, hlast, hbefore⟩
      exact ⟨last, List.mem_of_getLast? hlast, by simpa using hbefore⟩

/-- The test of a full board is defined, and says whether the place is beyond the board. -/
theorem isRejected_eq (h : b.Represents cells) (hlen : cells.length ≤ b.maxSize)
    (hpos : 0 < b.maxSize) (entry : LeaderboardEntry T) (hid : entry.id = b.nextId) :
    b.isRejected entry = some (!decide (((cells.map standing).findIdx fun row =>
      entry.standing.Ahead b.highestFirst row) < b.maxSize)) := by
  have hplace : ((cells.map standing).findIdx fun row =>
      entry.standing.Ahead b.highestFirst row) < b.maxSize ↔ _ :=
    h.place_lt_iff hlen (b.newCell entry) hid
  rw [isRejected, h.ranking, List.length_map]
  by_cases hroom : cells.length < b.maxSize
  · rw [if_neg (by omega), decide_eq_true (hplace.mpr (.inl hroom))]
    rfl
  · obtain ⟨init, last, rfl⟩ := List.eq_nil_or_concat cells |>.resolve_left (by
      rintro rfl
      exact hroom hpos)
    have hread : b.heap last.1.pointer = some last.2 := h.linked.backed last (by simp)
    have hlast : (init.concat last).getLast? = some last := by simp
    rw [if_pos (by omega), List.getLast?_map, hlast]
    simp only [Option.map_some, Option.bind_eq_bind, Option.bind_some, hread, Option.some.injEq]
    rw [Bool.not_inj_iff, Bool.eq_iff_iff, decide_eq_true_eq, hplace, hlast]
    simp only [hroom, false_or, Option.mem_some_iff, exists_eq_left']
    rfl

/-- Over capacity the last cell goes. -/
theorem trim_refines (h : b.Represents cells) (hlen : cells.length ≤ b.maxSize + 1) :
    ∃ b', b.trim = some b' ∧ b'.Represents (cells.take b.maxSize) ∧
      b'.highestFirst = b.highestFirst ∧ b'.maxSize = b.maxSize := by
  have hsize : b.ranking.length = cells.length := by rw [h.ranking, List.length_map]
  rw [trim, hsize]
  by_cases hover : cells.length > b.maxSize
  · obtain ⟨init, last, rfl⟩ := List.eq_nil_or_concat cells |>.resolve_left (by
      rintro rfl
      simp at hover)
    rw [List.concat_eq_append, List.length_append, List.length_singleton] at *
    have hinit : init.length = b.maxSize := by omega
    have htake : (init ++ [last]).take b.maxSize = init := by rw [← hinit, List.take_left]
    rw [if_pos hover, htake]
    exact removeLast_refines h
  · rw [if_neg hover, List.take_of_length_le (by omega)]
    exact ⟨b, rfl, h, rfl, rfl⟩

theorem addScore_refines (h : b.Represents cells) (hlen : cells.length ≤ b.maxSize)
    (hpos : 0 < b.maxSize) {call : Submission T} (hnone : b.entries.lookup call.player = none) :
    ∃ b' out cells', b.addScore call = some (b', out) ∧ b'.Represents cells' ∧
      b'.highestFirst = b.highestFirst ∧ b'.maxSize = b.maxSize ∧
      (cells'.map standing, out) =
        Standing.submit b.highestFirst b.maxSize (cells.map standing) call false := by
  let entry : LeaderboardEntry T := ⟨⟨call.player, call.now, b.nextId⟩, call.score, 0⟩
  let place : ℕ := (cells.map standing).findIdx fun row =>
    (Standing.ofSubmission call).Ahead b.highestFirst row
  have hrejected : isRejected { b with nextId := b.nextId + 1 } entry =
      some (!decide (place < b.maxSize)) :=
    isRejected_eq h hlen hpos entry rfl
  simp only [Standing.submit, h.find?_standing_eq_none hnone]
  split_ifs with hplace
  · have hinsert := insertEntry_eq h entry
    have hindex : getIndex (b.nextAddress + 1) (b.insertedBoard cells entry).ranking = some place :=
      getIndex_insert h.linked (b.newCell entry) rfl (Nat.le_succ _)
    obtain ⟨b', htrim, hrep, hhighest, hmax⟩ := trim_refines (h.insertedBoard entry rfl hnone) (by
      rw [List.orderedInsert_length]
      exact Nat.succ_le_succ hlen)
    rw [decide_eq_true hplace] at hrejected
    refine ⟨b', (some place, none), _, ?_, hrep, hhighest, hmax, ?_⟩
    · simp only [addScore, Option.bind_eq_bind]
      rw [hrejected, Option.bind_some, if_neg (by simp), hinsert, Option.bind_some, hindex,
        Option.bind_some, htrim, Option.bind_some]
    · rw [List.map_take, h.linked.map_standing_orderedInsert rfl]
      rfl
  · rw [decide_eq_false hplace] at hrejected
    refine ⟨{ b with nextId := b.nextId + 1 }, (none, none), cells, ?_, ?_, rfl, rfl, rfl⟩
    · simp only [addScore, Option.bind_eq_bind]
      rw [hrejected, Option.bind_some, if_pos (by simp)]
    · exact ⟨h.ranking, h.linked.mono (Nat.le_succ _) le_rfl, h.owned⟩

/-- A call of `submit_score` on a board within its capacity is defined and is a submission to the
standings. -/
theorem submitScore_refines (h : b.Represents cells) (hlen : cells.length ≤ b.maxSize)
    (hpos : 0 < b.maxSize) (call : Submission T) :
    ∃ b' out cells' tie, b.submitScore call = some (b', out) ∧ b'.Represents cells' ∧
      b'.highestFirst = b.highestFirst ∧ b'.maxSize = b.maxSize ∧
      (cells'.map standing, out) =
        Standing.submit b.highestFirst b.maxSize (cells.map standing) call tie := by
  cases hlookup : b.entries.lookup call.player with
  | none =>
    obtain ⟨b', out, cells', hadd, hrest⟩ := addScore_refines h hlen hpos hlookup
    exact ⟨b', out, cells', false, by simpa only [submitScore, hlookup] using hadd, hrest⟩
  | some p =>
    obtain ⟨c, hc, hname, rfl⟩ := (h.owned _ _).mp hlookup
    obtain ⟨b', out, cells', tie, hupdate, hrest⟩ := updateScore_refines h hc hname
    exact ⟨b', out, cells', tie, by simpa only [submitScore, hlookup] using hupdate, hrest⟩

end Leaderboard
end ServerSimple.GlobalBoards
