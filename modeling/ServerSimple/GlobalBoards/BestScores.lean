import Mathlib.Data.List.Dedup
import ServerSimple.Library.Improvement
import ServerSimple.GlobalBoards.Leaderboard

/-! # The best scores of all players

What a leaderboard would show if it forgot nobody: every player who ever submitted, sorted by the
best score that the player submitted, and by who reached that score first. The list is defined from
all calls at once; below, one more call improves it.
-/

namespace ServerSimple.GlobalBoards

open Library

variable {T : Type} [LinearOrder T] (highestFirst : Bool) (calls : List (Submission T))

/-- The player and the score of a call. -/
def Submission.result (call : Submission T) : String × T := (call.player, call.score)

/-- The score of a player that no other score of that player beats. -/
def bestScore (player : String) : Option T :=
  ((calls.filter fun call => call.player = player).map Submission.score).find? fun x =>
    ∀ call ∈ calls, call.player = player → better highestFirst call.score x = false

/-- All players who ever submitted, with their best scores. -/
def bestScores : List (String × T) :=
  (calls.map Submission.player).dedup.filterMap fun player =>
    (bestScore highestFirst calls player).map fun x => (player, x)

/-- The first call in which this player submitted this score. -/
def firstReached (a : String × T) : ℕ := calls.findIdx fun call => call.result = a

/-- A better score, or the same one reached before. -/
def Leads (a b : String × T) : Prop :=
  better highestFirst a.2 b.2 ∨ a.2 = b.2 ∧ firstReached calls a < firstReached calls b

instance : DecidableRel (Leads highestFirst calls) :=
  fun _ _ => inferInstanceAs (Decidable (_ ∨ _))

/-- All players, ranked by their best scores. -/
def bestRanking : List (String × T) :=
  (bestScores highestFirst calls).insertionSort fun a b => ¬ Leads highestFirst calls b a

variable {highestFirst calls} {a b c : String × T} {call : Submission T}

/-! ## The ranking is determined by its order -/

theorem bestScore_spec {player : String} {x : T} (h : bestScore highestFirst calls player = some x) :
    (∃ call ∈ calls, call.result = (player, x)) ∧
      ∀ call ∈ calls, call.player = player → better highestFirst call.score x = false := by
  have hmem := List.mem_of_find?_eq_some h
  have hbest := List.find?_some h
  simp only [List.mem_map, List.mem_filter, decide_eq_true_eq] at hmem hbest
  obtain ⟨call, ⟨hcall, rfl⟩, rfl⟩ := hmem
  exact ⟨⟨call, hcall, rfl⟩, hbest⟩

theorem mem_bestScores : a ∈ bestScores highestFirst calls ↔ (∃ call ∈ calls, call.result = a) ∧
    ∀ call ∈ calls, call.player = a.1 → better highestFirst call.score a.2 = false := by
  simp only [bestScores, List.mem_filterMap, List.mem_dedup, Option.map_eq_some_iff]
  constructor
  · rintro ⟨player, _, x, hx, rfl⟩
    exact bestScore_spec hx
  · rintro ⟨⟨call, hcall, rfl⟩, hbest⟩
    refine ⟨call.player, List.mem_map_of_mem hcall, call.score, ?_, rfl⟩
    cases hfound : bestScore highestFirst calls call.player with
    | none =>
      have hmem : call.score ∈
          (calls.filter fun other => other.player = call.player).map Submission.score :=
        List.mem_map_of_mem (List.mem_filter.mpr ⟨hcall, by simp⟩)
      exact absurd (decide_eq_true hbest) (List.find?_eq_none.mp hfound _ hmem)
    | some x =>
      obtain ⟨⟨other, hother, heq⟩, hxbest⟩ := bestScore_spec hfound
      obtain ⟨hname, rfl⟩ := Prod.mk.inj heq
      rw [eq_of_not_better (hxbest call hcall rfl) (hbest other hother hname)]

theorem nodup_bestScores : (bestScores highestFirst calls).Nodup := by
  apply (List.nodup_dedup _).filterMap
  intro p q a hp hq
  simp only [Option.mem_def, Option.map_eq_some_iff] at hp hq
  obtain ⟨x, _, rfl⟩ := hp
  obtain ⟨y, _, hy⟩ := hq
  exact (congrArg Prod.fst hy).symm

theorem Leads.trans (hab : Leads highestFirst calls a b) (hbc : Leads highestFirst calls b c) :
    Leads highestFirst calls a c :=
  better_or_trans lt_trans hab hbc

theorem Leads.asymm (hab : Leads highestFirst calls a b) : ¬ Leads highestFirst calls b a := by
  intro hba
  exact lt_irrefl _ (of_better_or_self (hab.trans hba))

/-- Without a lead in either direction, both reached the same score at the same time. -/
theorem tied_of_not_leads (hab : ¬ Leads highestFirst calls a b)
    (hba : ¬ Leads highestFirst calls b a) :
    a.2 = b.2 ∧ firstReached calls a = firstReached calls b := by
  simp only [Leads, not_or, not_and, Bool.not_eq_true] at hab hba
  have heq := eq_of_not_better hab.1 hba.1
  exact ⟨heq, le_antisymm (not_lt.mp (hba.2 heq.symm)) (not_lt.mp (hab.2 heq))⟩

theorem not_leads_trans (hab : ¬ Leads highestFirst calls a b) (hbc : ¬ Leads highestFirst calls b c) :
    ¬ Leads highestFirst calls a c := by
  intro hac
  by_cases hba : Leads highestFirst calls b a
  · exact hbc (hba.trans hac)
  · by_cases hcb : Leads highestFirst calls c b
    · exact hab (hac.trans hcb)
    · have hab' := tied_of_not_leads hab hba
      have hbc' := tied_of_not_leads hbc hcb
      rcases hac with hac | ⟨_, hac⟩
      · rw [hab'.1, hbc'.1, better_irrefl] at hac
        cases hac
      · omega

theorem pairwise_bestRanking :
    (bestRanking highestFirst calls).Pairwise fun a b => ¬ Leads highestFirst calls b a := by
  have : Std.Total fun a b => ¬ Leads highestFirst calls b a :=
    ⟨fun a b => or_iff_not_imp_left.mpr fun hba => (not_not.mp hba).asymm⟩
  have : IsTrans (String × T) fun a b => ¬ Leads highestFirst calls b a :=
    ⟨fun a b c hab hbc => not_leads_trans hbc hab⟩
  exact List.pairwise_insertionSort ..

theorem firstReached_lt_length (ha : ∃ call ∈ calls, call.result = a) :
    firstReached calls a < calls.length := by
  rw [firstReached, List.findIdx_lt_length]
  simpa using ha

theorem getElem?_firstReached (ha : ∃ call ∈ calls, call.result = a) :
    (calls[firstReached calls a]?).map Submission.result = some a := by
  have hlt := firstReached_lt_length ha
  rw [List.getElem?_eq_getElem hlt, Option.map_some]
  have hfound : decide (calls[firstReached calls a].result = a) = true :=
    List.findIdx_getElem (w := hlt)
  exact congrArg some (of_decide_eq_true hfound)

/-- Two results that were reached in the same call are one. -/
theorem eq_of_firstReached (ha : ∃ call ∈ calls, call.result = a)
    (hb : ∃ call ∈ calls, call.result = b) (h : firstReached calls a = firstReached calls b) :
    a = b := by
  have ha' := getElem?_firstReached ha
  rw [h, getElem?_firstReached hb] at ha'
  exact (Option.some.inj ha').symm

variable (highestFirst calls) in
/-- The list holds everyone once with the best score, in the order of the ranking. -/
structure IsBest (l : List (String × T)) : Prop where
  names : (l.map Prod.fst).Nodup
  submitted : ∀ a ∈ l, ∃ call ∈ calls, call.result = a
  best : ∀ call ∈ calls, ∃ a ∈ l, a.1 = call.player ∧ better highestFirst call.score a.2 = false
  sorted : l.Pairwise (Leads highestFirst calls)

namespace IsBest

variable {l : List (String × T)}

theorem eq_of_name (h : IsBest highestFirst calls l) (ha : a ∈ l) (hb : b ∈ l) (hname : a.1 = b.1) :
    a = b :=
  List.inj_on_of_nodup_map h.names ha hb hname

theorem mem_iff (h : IsBest highestFirst calls l) : a ∈ l ↔ a ∈ bestScores highestFirst calls := by
  rw [mem_bestScores]
  constructor
  · intro ha
    refine ⟨h.submitted a ha, ?_⟩
    intro call hcall hname
    obtain ⟨b, hb, hbname, hbest⟩ := h.best call hcall
    rwa [h.eq_of_name ha hb (hname.symm.trans hbname.symm)]
  · rintro ⟨⟨call, hcall, rfl⟩, hbest⟩
    obtain ⟨b, hb, hbname, hbetter⟩ := h.best call hcall
    obtain ⟨other, hother, rfl⟩ := h.submitted b hb
    have hscore : other.score = call.score := eq_of_not_better (hbest other hother hbname) hbetter
    have heq : other.result = call.result := Prod.ext hbname hscore
    exact heq ▸ hb

/-- There is only one such list. -/
theorem eq_bestRanking (h : IsBest highestFirst calls l) : l = bestRanking highestFirst calls := by
  have hperm : l.Perm (bestRanking highestFirst calls) := by
    refine List.Perm.trans ?_ (List.perm_insertionSort ..).symm
    rw [List.perm_ext_iff_of_nodup h.names.of_map nodup_bestScores]
    exact fun a => h.mem_iff
  refine hperm.eq_of_pairwise ?_ (h.sorted.imp Leads.asymm) pairwise_bestRanking
  intro a b ha hb hba hab
  exact eq_of_firstReached (h.submitted a ha) (h.submitted b (hperm.mem_iff.mpr hb))
    (tied_of_not_leads hab hba).2

theorem nil (highestFirst : Bool) : IsBest highestFirst [] ([] : List (String × T)) where
  names := List.nodup_nil
  submitted a ha := by simp at ha
  best call hcall := by simp at hcall
  sorted := .nil

end IsBest

/-! ## One more call -/

theorem firstReached_append (ha : ∃ call ∈ calls, call.result = a) (call : Submission T) :
    firstReached (calls ++ [call]) a = firstReached calls a := by
  rw [firstReached, List.findIdx_append]
  exact if_pos (firstReached_lt_length ha)

theorem firstReached_append_self (hnew : ∀ other ∈ calls, other.result ≠ call.result) :
    firstReached (calls ++ [call]) call.result = calls.length := by
  rw [firstReached, List.findIdx_append, if_neg]
  · simp
  · rw [List.findIdx_lt_length]
    simpa using hnew

/-- What leads among earlier results leads after any more calls. -/
theorem leads_append_iff (ha : ∃ call ∈ calls, call.result = a)
    (hb : ∃ call ∈ calls, call.result = b) :
    Leads highestFirst (calls ++ [call]) a b ↔ Leads highestFirst calls a b := by
  rw [Leads, Leads, firstReached_append ha, firstReached_append hb]

/-- A result that is new leads those that it beats. -/
theorem leads_append_self_iff (hnew : ∀ other ∈ calls, other.result ≠ call.result)
    (ha : ∃ call ∈ calls, call.result = a) :
    Leads highestFirst (calls ++ [call]) call.result a ↔ better highestFirst call.score a.2 := by
  rw [Leads, firstReached_append_self hnew, firstReached_append ha]
  have hlt := firstReached_lt_length ha
  constructor
  · rintro (h | ⟨_, h⟩)
    · exact h
    · omega
  · exact .inl

/-- A result that is new is led by those that it does not beat. -/
theorem leads_append_of_not (hnew : ∀ other ∈ calls, other.result ≠ call.result)
    (ha : ∃ call ∈ calls, call.result = a) (h : better highestFirst call.score a.2 = false) :
    Leads highestFirst (calls ++ [call]) a call.result := by
  rw [Leads, firstReached_append_self hnew, firstReached_append ha]
  rcases better_or_eq_or_better highestFirst a.2 call.score with hab | hab | hab
  · exact .inl hab
  · exact .inr ⟨hab, firstReached_lt_length ha⟩
  · rw [h] at hab
    cases hab

/-- Beating another result by the score alone. -/
def Beats (highestFirst : Bool) (a b : String × T) : Prop := better highestFirst a.2 b.2

instance : DecidableRel (Beats highestFirst : String × T → String × T → Prop) :=
  fun _ _ => inferInstanceAs (Decidable (_ = _))

namespace IsBest

variable {l : List (String × T)}

/-- A call that does not beat the player's best score so far changes nothing. -/
theorem append_of_kept (h : IsBest highestFirst calls l) (ha : a ∈ l) (hname : a.1 = call.player)
    (hbetter : better highestFirst call.score a.2 = false) :
    IsBest highestFirst (calls ++ [call]) l where
  names := h.names
  submitted b hb := by
    obtain ⟨other, hother, heq⟩ := h.submitted b hb
    exact ⟨other, List.mem_append_left _ hother, heq⟩
  best other hother := by
    rcases List.mem_append.mp hother with hother | hother
    · exact h.best other hother
    · rw [List.mem_singleton.mp hother]
      exact ⟨a, ha, hname, hbetter⟩
  sorted := h.sorted.imp_of_mem fun hb hc hlead =>
    (leads_append_iff (h.submitted _ hb) (h.submitted _ hc)).mpr hlead

/-- A call that does moves the player to the place of the new score. -/
theorem append_of_beaten (h : IsBest highestFirst calls l)
    (hbeaten : ∀ a ∈ l, a.1 = call.player → better highestFirst call.score a.2) :
    IsBest highestFirst (calls ++ [call])
      ((l.filter fun b => b.1 ≠ call.player).orderedInsert (Beats highestFirst) call.result) := by
  have hnew : ∀ other ∈ calls, other.result ≠ call.result := by
    intro other hother heq
    obtain ⟨hname, hscore⟩ := Prod.mk.inj heq
    obtain ⟨a, ha, haname, hnot⟩ := h.best other hother
    have hbetter := hbeaten a ha (haname.trans hname)
    rw [← hscore, hnot] at hbetter
    cases hbetter
  have hsubmitted : ∀ b ∈ l.filter (fun b => b.1 ≠ call.player), ∃ c ∈ calls, c.result = b :=
    fun b hb => h.submitted b (List.mem_filter.mp hb).1
  have hself : call.result ∈
      (l.filter fun b => b.1 ≠ call.player).orderedInsert (Beats highestFirst) call.result :=
    (List.mem_orderedInsert _).mpr (.inl rfl)
  constructor
  · have himprove := nodup_map_improve (r := Beats highestFirst) (a := call.result) h.names
    rwa [improve_of_beaten hbeaten] at himprove
  · intro b hb
    rcases (List.mem_orderedInsert _).mp hb with rfl | hb
    · exact ⟨call, by simp, rfl⟩
    · obtain ⟨other, hother, heq⟩ := hsubmitted b hb
      exact ⟨other, List.mem_append_left _ hother, heq⟩
  · intro other hother
    rcases List.mem_append.mp hother with hother | hother
    · obtain ⟨a, ha, hname, hbest⟩ := h.best other hother
      by_cases hplayer : a.1 = call.player
      · exact ⟨call.result, hself, hplayer.symm.trans hname,
          not_better_trans hbest (better_asymm (hbeaten a ha hplayer))⟩
      · exact ⟨a, (List.mem_orderedInsert _).mpr (.inr (List.mem_filter.mpr
          ⟨ha, by simpa using hplayer⟩)), hname, hbest⟩
    · rw [List.mem_singleton.mp hother]
      exact ⟨call.result, hself, rfl, better_irrefl _⟩
  · -- the new result comes last among those that tie with it
    rw [orderedInsert_congr fun b hb => (leads_append_self_iff hnew (hsubmitted b hb)).symm]
    refine pairwise_orderedInsert (fun a b c => Leads.trans) ?_ ?_
    · intro b hb hnot
      rw [leads_append_self_iff hnew (hsubmitted b hb), Bool.not_eq_true] at hnot
      exact leads_append_of_not hnew (hsubmitted b hb) hnot
    · apply (h.sorted.sublist List.filter_sublist).imp_of_mem
      intro b c hb hc hlead
      exact (leads_append_iff (hsubmitted b hb) (hsubmitted c hc)).mpr hlead

/-- One more call improves the ranking. -/
theorem append (h : IsBest highestFirst calls l) (call : Submission T) :
    IsBest highestFirst (calls ++ [call]) (improve (Beats highestFirst) Prod.fst call.result l) := by
  by_cases hkept : ∃ a ∈ l, a.1 = call.player ∧ ¬ Beats highestFirst call.result a
  · obtain ⟨a, ha, hname, hnot⟩ := hkept
    rw [improve_of_kept ha hname hnot]
    exact h.append_of_kept ha hname (Bool.eq_false_iff.mpr hnot)
  · push Not at hkept
    rw [improve_of_beaten hkept]
    exact h.append_of_beaten hkept

end IsBest
end ServerSimple.GlobalBoards
