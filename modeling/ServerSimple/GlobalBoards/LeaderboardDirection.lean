import ServerSimple.GlobalBoards.LeaderboardQueries
import Mathlib.Data.Fintype.EquivFin
import Mathlib.Logic.Nontrivial.Basic

/-! # The direction of a leaderboard

A submission respects the direction of the ranking. The direction of the ranking is the configured
one unless a file was loaded: `load` builds the new ranking with the default comparator, and a board
configured as lowest first then ranks highest first.
-/

namespace ServerSimple.GlobalBoards

open Library Cell

namespace Standing

variable {T : Type} [LinearOrder T] {highestFirst : Bool} {maxSize : ℕ} {rows : List (Standing T)}
  {call : Submission T} {tie : Bool} {row row' : Standing T}

/-- A submission leaves a player with the old score or a score that is no worse. -/
theorem submit_kept (h : Ranked highestFirst rows) (hrow : row ∈ rows)
    (hrow' : row' ∈ (submit highestFirst maxSize rows call tie).1) (hname : row.name = row'.name) :
    better highestFirst row.score row'.score = false := by
  have hsame : row' ∈ rows → better highestFirst row.score row'.score = false := by
    intro hmem
    rw [h.eq_of_name hrow hmem hname, better_irrefl]
  rcases submit_cases highestFirst maxSize rows call tie with
    ⟨old, hold, holdName, hbetter, hsubmit⟩ | ⟨hnew, _, hsubmit⟩ | ⟨_, hsubmit⟩
  · rw [hsubmit, List.mem_orderedInsert] at hrow'
    rcases hrow' with rfl | hrow'
    · have hrowOld : row = old := h.eq_of_name hrow hold (hname.trans holdName.symm)
      rw [hrowOld]
      rcases hbetter with hbetter | ⟨heq, _⟩
      · exact better_asymm hbetter
      · rw [← heq]
        exact better_irrefl call.score
    · exact hsame (List.mem_filter.mp hrow').1
  · rw [hsubmit] at hrow'
    rcases (List.mem_orderedInsert _).mp (List.mem_of_mem_take hrow') with rfl | hrow'
    · exact absurd hname (hnew row hrow)
    · exact hsame hrow'
  · rw [hsubmit] at hrow'
    exact hsame hrow'

/-- Whoever a submission removes is no better than anyone who stays. -/
theorem submit_evicted (h : Ranked highestFirst rows) (hrow : row ∈ rows)
    (hgone : ∀ other ∈ (submit highestFirst maxSize rows call tie).1, other.name ≠ row.name)
    (hrow' : row' ∈ (submit highestFirst maxSize rows call tie).1) :
    better highestFirst row.score row'.score = false := by
  rcases submit_cases highestFirst maxSize rows call tie with
    ⟨old, hold, holdName, _, hsubmit⟩ | ⟨_, _, hsubmit⟩ | ⟨_, hsubmit⟩
  · -- a player who moves up removes nobody
    exfalso
    rw [hsubmit] at hgone
    by_cases hplayer : row.name = call.player
    · exact hgone _ ((List.mem_orderedInsert _).mpr (.inl rfl)) hplayer.symm
    · exact hgone row ((List.mem_orderedInsert _).mpr (.inr (List.mem_filter.mpr
        ⟨hrow, by simpa using hplayer⟩))) rfl
  · rw [hsubmit] at hgone hrow'
    have hsorted : (rows.orderedInsert (Ahead highestFirst) (ofSubmission call)).Pairwise fun a b =>
        ¬ b.Ahead highestFirst a :=
      pairwise_not_orderedInsert (fun _ _ _ => Ahead.trans) (fun _ _ => Ahead.asymm) h.sorted
    rw [← List.take_append_drop maxSize (rows.orderedInsert _ _), List.pairwise_append] at hsorted
    apply not_better_of_not_ahead
    apply hsorted.2.2 row' hrow' row
    have hin : row ∈ rows.orderedInsert (Ahead highestFirst) (ofSubmission call) :=
      (List.mem_orderedInsert _).mpr (.inr hrow)
    rw [← List.take_append_drop maxSize (rows.orderedInsert _ _), List.mem_append] at hin
    exact hin.resolve_left fun htake => hgone row htake rfl
  · rw [hsubmit] at hgone
    exact absurd rfl (hgone row hrow)

/-- While there is room, a new player comes in. -/
theorem mem_submit_of_room (hnew : ∀ row ∈ rows, row.name ≠ call.player)
    (hroom : rows.length < maxSize) :
    ofSubmission call ∈ (submit highestFirst maxSize rows call tie).1 := by
  rcases submit_cases highestFirst maxSize rows call tie with
    ⟨old, hold, hname, _⟩ | ⟨_, _, hsubmit⟩ | ⟨⟨old, hold, hname, _⟩ | ⟨_, hplace⟩, _⟩
  · exact absurd hname (hnew old hold)
  · rw [hsubmit, List.take_of_length_le (by rw [List.orderedInsert_length]; omega)]
    exact (List.mem_orderedInsert _).mpr (.inl rfl)
  · exact absurd hname (hnew old hold)
  · exact absurd (lt_of_le_of_lt List.findIdx_le_length hroom) (Nat.not_lt_of_le hplace)

/-- Only a best possible score can move among best possible scores, in the direction highest first. -/
theorem isTop_of_better_or (htop : ∀ row ∈ rows, IsTop row.score) {old : Standing T} (hold : old ∈ rows)
    {p : Prop} (h : better true call.score old.score ∨ call.score = old.score ∧ p) :
    ∀ row, row = ofSubmission call ∨ row ∈ rows → IsTop row.score := by
  have hcall : IsTop call.score := by
    rcases h with hbetter | ⟨heq, _⟩
    · have hlt : old.score < call.score := by simpa [better] using hbetter
      exact absurd (htop old hold call.score) (not_le.mpr hlt)
    · rw [heq]
      exact htop old hold
  rintro row (rfl | hrow)
  · exact hcall
  · exact htop row hrow

/-- A full list of best possible scores stays one. -/
theorem submit_top (h : Ranked true rows) (hlen : rows.length = maxSize)
    (htop : ∀ row ∈ rows, IsTop row.score) :
    (submit true maxSize rows call tie).1.length = maxSize ∧
      ∀ row ∈ (submit true maxSize rows call tie).1, IsTop row.score := by
  rcases submit_cases true maxSize rows call tie with
    ⟨old, hold, holdName, hbetter, hsubmit⟩ | ⟨_, hplace, hsubmit⟩ | ⟨_, hsubmit⟩
  · rw [hsubmit]
    constructor
    · rw [List.orderedInsert_length, ← hlen,
        (perm_cons_filter_of_nodup_map h.names hold).length_eq, holdName, List.length_cons]
    · intro row hrow
      apply isTop_of_better_or htop hold hbetter
      exact ((List.mem_orderedInsert _).mp hrow).imp_right fun hrow => (List.mem_filter.mp hrow).1
  · rw [← hlen, List.findIdx_lt_length] at hplace
    obtain ⟨old, hold, hahead⟩ := hplace
    rw [hsubmit]
    constructor
    · rw [List.length_take, List.orderedInsert_length]
      omega
    · intro row hrow
      apply isTop_of_better_or htop hold (of_decide_eq_true hahead)
      exact (List.mem_orderedInsert _).mp (List.mem_of_mem_take hrow)
  · rw [hsubmit]
    exact ⟨hlen, htop⟩

end Standing

namespace Leaderboard

variable {T : Type} [LinearOrder T]

/-- The board lists its entries from best to worst in the given direction, and the next call evicts
nobody but the worst and replaces no score by a worse one. -/
structure Directed (highestFirst : Bool) (b : Leaderboard T) : Prop where
  listed : ∀ count, ∃ es, b.getTopScores count = some es ∧
    es.Pairwise fun e f => better highestFirst f.score e.score = false
  evicted : ∀ call b' out, b.submitScore call = some (b', out) → ∀ player x,
    b.scoreOf player = some x → b'.scoreOf player = none →
      ∀ other y, b'.scoreOf other = some y → better highestFirst x y = false
  kept : ∀ call b' out, b.submitScore call = some (b', out) → ∀ player x y,
    b.scoreOf player = some x → b'.scoreOf player = some y → better highestFirst x y = false

variable {b : Leaderboard T} {highestFirst : Bool} {maxSize : ℕ} {rows : List (Standing T)}

/-- A direction is respected if the rows are sorted in it and the next call replaces or evicts no row
that is better than what stays. -/
theorem Shows.directed_of_rows (h : b.Shows highestFirst maxSize rows) (hpos : 0 < maxSize)
    (direction : Bool)
    (hsorted : rows.Pairwise fun row other => better direction other.score row.score = false)
    (hkept : ∀ call tie, ∀ row ∈ rows,
      ∀ row' ∈ (Standing.submit highestFirst maxSize rows call tie).1, row.name = row'.name →
        better direction row.score row'.score = false)
    (hevicted : ∀ call tie, ∀ row ∈ rows,
      (∀ other ∈ (Standing.submit highestFirst maxSize rows call tie).1, other.name ≠ row.name) →
        ∀ row' ∈ (Standing.submit highestFirst maxSize rows call tie).1,
          better direction row.score row'.score = false) :
    Directed direction b := by
  constructor
  · intro count
    obtain ⟨es, hes, hrows⟩ := h.getTopScores count
    refine ⟨es, hes, ?_⟩
    have htop := hsorted.sublist (List.take_sublist count rows)
    rwa [← hrows, List.pairwise_map] at htop
  · intro call b' out hsubmit player x hx hnone other y hy
    obtain ⟨tie, -, h'⟩ := h.of_submitScore hpos hsubmit
    obtain ⟨row, hrow, rfl, rfl⟩ := h.scoreOf_eq_some.mp hx
    obtain ⟨row', hrow', -, rfl⟩ := h'.scoreOf_eq_some.mp hy
    exact hevicted call tie row hrow (h'.scoreOf_eq_none.mp hnone) row' hrow'
  · intro call b' out hsubmit player x y hx hy
    obtain ⟨tie, -, h'⟩ := h.of_submitScore hpos hsubmit
    obtain ⟨row, hrow, rfl, rfl⟩ := h.scoreOf_eq_some.mp hx
    obtain ⟨row', hrow', hname, rfl⟩ := h'.scoreOf_eq_some.mp hy
    exact hkept call tie row hrow row' hrow' hname.symm

/-- A board respects the direction of its comparator. -/
theorem Shows.directed (h : b.Shows highestFirst maxSize rows) (hpos : 0 < maxSize) :
    Directed highestFirst b := by
  apply h.directed_of_rows hpos
  · apply h.ranked.sorted.imp
    intro row other hahead
    exact Standing.not_better_of_not_ahead hahead
  · intro call tie row hrow row' hrow' hname
    exact Standing.submit_kept h.ranked hrow hrow' hname
  · intro call tie row hrow hgone row' hrow'
    exact Standing.submit_evicted h.ranked hrow hgone hrow'

/-- Where all scores tie, every direction is respected. -/
theorem Shows.directed_of_tied (h : b.Shows highestFirst maxSize rows) (hpos : 0 < maxSize)
    (P : T → Prop) (htied : ∀ x y, P x → P y → x = y) (hrows : ∀ row ∈ rows, P row.score)
    (hnext : ∀ call tie, ∀ row ∈ (Standing.submit highestFirst maxSize rows call tie).1, P row.score)
    (direction : Bool) : Directed direction b := by
  have hnot : ∀ x y, P x → P y → better direction x y = false := by
    intro x y hx hy
    rw [htied x y hx hy, better_irrefl]
  apply h.directed_of_rows hpos
  · apply List.pairwise_of_forall_mem_list
    intro row hrow other hother
    exact hnot _ _ (hrows other hother) (hrows row hrow)
  · intro call tie row hrow row' hrow' _
    exact hnot _ _ (hrows row hrow) (hnext call tie row' hrow')
  · intro call tie row hrow _ row' hrow'
    exact hnot _ _ (hrows row hrow) (hnext call tie row' hrow')

/-- A board that ranks highest first lets a player replace a score by a higher one, which is worse
in the other direction. -/
theorem Shows.not_directed (h : b.Shows true maxSize rows) (hpos : 0 < maxSize) {row : Standing T}
    (hrow : row ∈ rows) {x : T} (hx : row.score < x) : ¬ Directed false b := by
  intro hdirected
  let call : Submission T := ⟨row.name, x, 0, 0, 0⟩
  obtain ⟨b', tie, hsubmit, h'⟩ := h.submitScore hpos call
  have hnew : Standing.ofSubmission call ∈ (Standing.submit true maxSize rows call tie).1 := by
    rcases Standing.submit_cases true maxSize rows call tie with
      ⟨_, _, _, _, hs⟩ | ⟨hnone, _⟩ | ⟨⟨old, hold, hname, hworse⟩ | ⟨hnone, _⟩, _⟩
    · rw [hs]
      exact (List.mem_orderedInsert _).mpr (.inl rfl)
    · exact absurd rfl (hnone row hrow)
    · rw [h.ranked.eq_of_name hold hrow hname] at hworse
      exact absurd (.inl (by simpa [better] using hx)) hworse
    · exact absurd rfl (hnone row hrow)
  have hkept := hdirected.kept call b' _ hsubmit row.name row.score x
    (h.scoreOf_eq_some.mpr ⟨row, hrow, rfl, rfl⟩) (h'.scoreOf_eq_some.mpr ⟨_, hnew, rfl, rfl⟩)
  simp [better, hx] at hkept

/-- A full board of best possible scores. -/
def FullOfTop (maxSize : ℕ) (b : Leaderboard T) : Prop :=
  ∃ rows, b.Shows true maxSize rows ∧ rows.length = maxSize ∧ ∀ row ∈ rows, IsTop row.score

theorem FullOfTop.step (hpos : 0 < maxSize) {call : Submission T} {b' : Leaderboard T}
    (h : FullOfTop maxSize b) (hstep : b.step call = some b') : FullOfTop maxSize b' := by
  obtain ⟨rows, hshows, hlen, hrows⟩ := h
  obtain ⟨tie, hshows'⟩ := hshows.of_step hpos hstep
  exact ⟨_, hshows', Standing.submit_top hshows.ranked hlen hrows⟩

variable {Text J : Type} (lib : JsonLibrary Text J T)

/-- The comparator is the configured one, or the scores of every board that is reached tie. -/
theorem directed_of_condition {file : Option Text} (hpos : 0 < maxSize)
    (hcondition : highestFirst = true ∨ loadedRows lib file maxSize = none ∨ Subsingleton T ∨
      ∃ rows, loadedRows lib file maxSize = some rows ∧ rows.length = maxSize ∧
        ∀ row ∈ rows, IsTop row.score)
    {b₀ : Leaderboard T} {calls : List (Submission T)}
    (hconstruct : construct lib file maxSize highestFirst = some b₀)
    (hrun : Library.run step b₀ calls = some b) : Directed highestFirst b := by
  obtain ⟨b₁, hb₁, hshows⟩ := construct_shows lib file maxSize highestFirst
  obtain rfl : b₁ = b₀ := Option.some.inj (hb₁.symm.trans hconstruct)
  rcases hcondition with rfl | hnone | hone | ⟨loaded, hloaded, hfull, htop⟩
  · obtain ⟨rows, h⟩ := hshows.of_run hpos hrun
    exact (loadedDirection_true lib file maxSize ▸ h).directed hpos
  · have hdirection : loadedDirection lib file maxSize highestFirst = highestFirst := by
      rw [loadedDirection, hnone]
    obtain ⟨rows, h⟩ := hshows.of_run hpos hrun
    exact (hdirection ▸ h).directed hpos
  · obtain ⟨rows, h⟩ := hshows.of_run hpos hrun
    exact h.directed_of_tied hpos (fun _ => True) (fun x y _ _ => Subsingleton.elim x y)
      (fun _ _ => trivial) (fun _ _ _ _ => trivial) highestFirst
  · have hdirection : loadedDirection lib file maxSize highestFirst = true := by
      rw [loadedDirection, hloaded]
    have hstandings : loadedStandings lib file maxSize = insertRows true loaded [] := by
      rw [loadedStandings, hloaded]
    have hperm := insertRows_perm true loaded []
    rw [List.append_nil] at hperm
    obtain ⟨rows, h, hlen, hrows⟩ : FullOfTop maxSize b := by
      refine run_invariant (fun c call c' => FullOfTop.step hpos) ?_ hrun
      · refine ⟨_, hstandings ▸ hdirection ▸ hshows, by rw [hperm.length_eq, hfull], ?_⟩
        intro row hrow
        exact htop row (hperm.mem_iff.mp hrow)
    exact h.directed_of_tied hpos IsTop (fun x y hx hy => le_antisymm (hy x) (hx y)) hrows
      (fun _ _ => (Standing.submit_top h.ranked hlen hrows).2) highestFirst

/-- Every run of every board configured with this direction respects it exactly when the direction is
highest first, or the file is not loaded, or all scores that can occur tie: there is only one score,
or the board is filled with the highest score there is. -/
theorem directed_iff (file : Option Text) (maxSize : ℕ) (hpos : 0 < maxSize) (highestFirst : Bool) :
    (∀ b₀ calls b, construct lib file maxSize highestFirst = some b₀ →
      Library.run step b₀ calls = some b → Directed highestFirst b) ↔
    highestFirst = true ∨ loadedRows lib file maxSize = none ∨ Subsingleton T ∨
      ∃ rows, loadedRows lib file maxSize = some rows ∧ rows.length = maxSize ∧
        ∀ row ∈ rows, IsTop row.score := by
  constructor
  · intro hall
    by_contra hcondition
    rw [not_or, not_or, not_or, not_subsingleton_iff_nontrivial] at hcondition
    obtain ⟨hdirection, hfile, hscores, hrows⟩ := hcondition
    obtain rfl : highestFirst = false := by simpa using hdirection
    obtain ⟨loaded, hloaded⟩ := Option.ne_none_iff_exists'.mp hfile
    obtain ⟨b₀, hb₀, h⟩ := construct_shows lib file maxSize false
    have hperm := insertRows_perm true loaded []
    rw [List.append_nil] at hperm
    rw [loadedDirection, loadedStandings, hloaded] at h
    by_cases htop : ∀ row ∈ loaded, IsTop row.score
    · -- there is room for a new player, with a score that can then be raised
      have hroom : loaded.length < maxSize :=
        lt_of_le_of_ne (hperm.length_eq ▸ h.length_le) fun hfull => hrows ⟨loaded, hloaded, hfull, htop⟩
      obtain ⟨x, y, hxy⟩ := exists_pair_lt T
      obtain ⟨player, hplayer⟩ := Infinite.exists_notMem_finset
        ((insertRows true loaded []).map Standing.name).toFinset
      let call : Submission T := ⟨player, x, 0, 0, 0⟩
      obtain ⟨b₁, tie, hsubmit, h₁⟩ := h.submitScore hpos call
      have hmem : Standing.ofSubmission call ∈
          (Standing.submit true maxSize (insertRows true loaded []) call tie).1 := by
        refine Standing.mem_submit_of_room ?_ (hperm.length_eq ▸ hroom)
        rintro row hrow rfl
        exact hplayer (List.mem_toFinset.mpr (List.mem_map_of_mem hrow))
      have hrun : Library.run step b₀ [call] = some b₁ :=
        run_cons_eq_some.mpr ⟨b₁, by rw [step, hsubmit]; rfl, rfl⟩
      exact h₁.not_directed hpos hmem hxy (hall b₀ [call] b₁ hb₀ hrun)
    · obtain ⟨row, hrow, hnot⟩ : ∃ row ∈ loaded, ¬ IsTop row.score := by simpa using htop
      obtain ⟨x, hx⟩ : ∃ x, row.score < x := by simpa [IsTop] using hnot
      exact h.not_directed hpos (hperm.mem_iff.mpr hrow) hx (hall b₀ [] b₀ hb₀ rfl)
  · intro hcondition b₀ calls b hconstruct hrun
    exact directed_of_condition lib hpos hcondition hconstruct hrun

theorem directed_iff_lowestFirst : loadedRows Json.library none 3 = none ∧
    ∀ (b₀ : Leaderboard ℤ) calls b, construct Json.library none 3 false = some b₀ →
      Library.run step b₀ calls = some b → Directed false b :=
  ⟨rfl, (directed_iff Json.library none 3 (by decide) false).mpr (.inr (.inl rfl))⟩

/-- A saved board with the scores 1 and 2. -/
def savedScores : Json :=
  .array [.object [("name", .string "a"), ("score", .integer 1), ("timestamp", .integer 0)],
    .object [("name", .string "b"), ("score", .integer 2), ("timestamp", .integer 0)]]

/-- Configured as lowest first, the board that loads this file lists 2 before 1. -/
theorem loaded_lowestFirst_not_directed :
    ¬ ∀ (b₀ : Leaderboard ℤ) calls b, construct Json.library (some savedScores) 3 false = some b₀ →
      Library.run step b₀ calls = some b → Directed false b := by
  intro h
  obtain ⟨es, hes, hlisted⟩ := (h _ [] _ rfl rfl).listed 2
  cases hes
  revert hlisted
  decide

end Leaderboard
end ServerSimple.GlobalBoards
