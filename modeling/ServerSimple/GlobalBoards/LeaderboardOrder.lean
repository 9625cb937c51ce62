import ServerSimple.GlobalBoards.LeaderboardBest

/-! # The order of the submissions

A board keeps what was best, so it does not matter in which order the same results come in: every rank
gets the same score. Who holds a rank depends on the order only where two players are level.
-/

namespace ServerSimple.GlobalBoards

open Library

variable {T : Type} [LinearOrder T] {highestFirst : Bool} {maxSize : ℕ}
  {calls calls' done : List (Submission T)} {l l' : List (String × T)}

/-! ## The best scores of the same results -/

theorem mem_bestScores_congr
    (h : ∀ a, a ∈ calls.map Submission.result ↔ a ∈ calls'.map Submission.result)
    {a : String × T} : a ∈ bestScores highestFirst calls ↔ a ∈ bestScores highestFirst calls' := by
  have hresults : ∀ {calls calls' : List (Submission T)},
      (∀ a, a ∈ calls.map Submission.result ↔ a ∈ calls'.map Submission.result) →
      a ∈ bestScores highestFirst calls → a ∈ bestScores highestFirst calls' := by
    intro calls calls' h ha
    rw [mem_bestScores] at ha ⊢
    obtain ⟨hreached, hbest⟩ := ha
    refine ⟨List.mem_map.mp ((h a).mp (List.mem_map.mpr hreached)), ?_⟩
    intro call hcall hname
    obtain ⟨other, hother, heq⟩ :=
      List.mem_map.mp ((h call.result).mpr (List.mem_map_of_mem hcall))
    obtain ⟨hplayer, hscore⟩ := Prod.mk.inj heq
    rw [← hscore]
    exact hbest other hother (hplayer.trans hname)
  exact ⟨hresults h, hresults fun a => (h a).symm⟩

namespace IsBest

theorem perm (h : IsBest highestFirst calls l) (h' : IsBest highestFirst calls' l')
    (hsame : ∀ a, a ∈ calls.map Submission.result ↔ a ∈ calls'.map Submission.result) :
    l.Perm l' := by
  rw [List.perm_ext_iff_of_nodup h.names.of_map h'.names.of_map]
  intro a
  rw [h.mem_iff, h'.mem_iff, mem_bestScores_congr hsame]

/-- The scores stand in one order only. -/
theorem map_snd_eq (h : IsBest highestFirst calls l) (h' : IsBest highestFirst calls' l')
    (hperm : l.Perm l') : l.map Prod.snd = l'.map Prod.snd := by
  have hsorted : ∀ {calls : List (Submission T)} {l}, IsBest highestFirst calls l →
      (l.map Prod.snd).Pairwise fun x y => better highestFirst y x = false := by
    intro calls l h
    rw [List.pairwise_map]
    apply h.sorted.imp
    intro a b hlead
    rcases hlead with hbetter | ⟨heq, -⟩
    · exact better_asymm hbetter
    · rw [heq, better_irrefl]
  apply (hperm.map Prod.snd).eq_of_pairwise _ (hsorted h) (hsorted h')
  intro x y _ _ hxy hyx
  exact eq_of_not_better hyx hxy

/-- Without ties the players do too. -/
theorem eq_of_no_ties (h : IsBest highestFirst calls l) (h' : IsBest highestFirst calls' l')
    (hperm : l.Perm l') (hties : ∀ a ∈ l, ∀ b ∈ l, a.2 = b.2 → a = b) : l = l' := by
  have hsorted : ∀ {calls : List (Submission T)} {l}, IsBest highestFirst calls l →
      (∀ a ∈ l, ∀ b ∈ l, a.2 = b.2 → a = b) → l.Pairwise (Beats highestFirst) := by
    intro calls l h hties
    apply h.sorted.imp_of_mem
    intro a b ha hb hlead
    rcases hlead with hbetter | ⟨heq, hearlier⟩
    · exact hbetter
    · rw [hties a ha b hb heq] at hearlier
      exact absurd hearlier (lt_irrefl _)
  have hties' : ∀ a ∈ l', ∀ b ∈ l', a.2 = b.2 → a = b := fun a ha b hb =>
    hties a (hperm.mem_iff.mpr ha) b (hperm.mem_iff.mpr hb)
  apply hperm.eq_of_pairwise _ (hsorted h hties) (hsorted h' hties')
  intro a b _ _ hab hba
  have hirrefl := better_trans hab hba
  rw [better_irrefl] at hirrefl
  cases hirrefl

end IsBest

namespace Leaderboard

variable {b : Leaderboard T}

/-- A result that nobody has submitted before is not stored. -/
theorem ShowsBest.noRepeat (h : b.ShowsBest highestFirst maxSize done) {call : Submission T}
    (hnew : call.result ∉ done.map Submission.result) : b.NoRepeat call := by
  obtain ⟨rows, l, hshows, hbest, hrows, -⟩ := h
  rw [hshows.noRepeat_iff]
  intro row hrow hname hscore
  apply hnew
  have hresult : row.result ∈ l.take maxSize := hrows ▸ List.mem_map_of_mem hrow
  obtain ⟨earlier, hearlier, heq⟩ := hbest.submitted _ (List.mem_of_mem_take hresult)
  have hcall : row.result = call.result := Prod.ext hname hscore
  exact List.mem_map.mpr ⟨earlier, hearlier, heq.trans hcall⟩

/-- So no guard is needed where no result is submitted twice. -/
theorem ShowsBest.run_of_nodup (h : b.ShowsBest highestFirst maxSize done) (hpos : 0 < maxSize)
    (hclock : (done ++ calls).Pairwise fun c c' => c.now ≤ c'.now)
    (honce : ((done ++ calls).map Submission.result).Nodup) :
    ∃ b', Library.run step b calls = some b' ∧
      b'.ShowsBest highestFirst maxSize (done ++ calls) := by
  induction calls generalizing b done with
  | nil => exact ⟨b, rfl, by simpa using h⟩
  | cons call calls ih =>
    have hnow : ∀ earlier ∈ done, earlier.now ≤ call.now := fun earlier hearlier =>
      (List.pairwise_append.mp hclock).2.2 earlier hearlier call List.mem_cons_self
    have hnew : call.result ∉ done.map Submission.result := by
      rw [List.map_append, List.map_cons] at honce
      intro hmem
      exact (List.nodup_append.mp honce).2.2 _ hmem _ List.mem_cons_self rfl
    obtain ⟨b', hstep, h'⟩ := h.submitScore hpos hnow (h.noRepeat hnew)
    rw [List.append_cons] at hclock honce ⊢
    obtain ⟨b'', hrun, h''⟩ := ih h' hclock honce
    exact ⟨b'', run_cons_eq_some.mpr ⟨b', hstep, hrun⟩, h''⟩

/-- What the ranking shows of the best scores. -/
theorem ShowsBest.ranked_eq (h : b.ShowsBest highestFirst maxSize done) :
    ∃ es l, b.ranked = some es ∧ IsBest highestFirst done l ∧
      es.map (fun e => (e.name, e.score)) = l.take maxSize := by
  obtain ⟨rows, l, hshows, hbest, hrows, -⟩ := h
  obtain ⟨es, hes, hstandings⟩ := hshows.ranked_returns
  refine ⟨es, l, hes, hbest, ?_⟩
  rw [← hrows, ← hstandings, List.map_map]
  rfl

variable {Text J : Type} (lib : JsonLibrary Text J T)

/-- The same results, each submitted once but in any two orders and at any times, leave two empty
boards with the same score at every rank; and with the same players too, unless two players have the
same best score. -/
theorem order_independent (maxSize : ℕ) (hpos : 0 < maxSize) (highestFirst : Bool)
    (hclock : calls.Pairwise fun c c' => c.now ≤ c'.now)
    (hclock' : calls'.Pairwise fun c c' => c.now ≤ c'.now)
    (hperm : (calls.map Submission.result).Perm (calls'.map Submission.result))
    (honce : (calls.map Submission.result).Nodup) :
    ∃ b₀ b b' es es', construct lib none maxSize highestFirst = some b₀ ∧
      Library.run step b₀ calls = some b ∧ Library.run step b₀ calls' = some b' ∧
      b.ranked = some es ∧ b'.ranked = some es' ∧ es.map (·.score) = es'.map (·.score) ∧
      ((∀ p ∈ bestScores highestFirst calls, ∀ q ∈ bestScores highestFirst calls,
          p.2 = q.2 → p = q) → es.map (·.name) = es'.map (·.name)) := by
  obtain ⟨b₀, hb₀, hshows⟩ := construct_shows lib none maxSize highestFirst
  have hempty : b₀.ShowsBest highestFirst maxSize [] :=
    ⟨[], [], hshows, .nil highestFirst, by simp, by simp⟩
  have hrun : ∀ {calls : List (Submission T)}, (calls.Pairwise fun c c' => c.now ≤ c'.now) →
      (calls.map Submission.result).Nodup → ∃ b es l, Library.run step b₀ calls = some b ∧
        b.ranked = some es ∧ IsBest highestFirst calls l ∧
        es.map (fun e => (e.name, e.score)) = l.take maxSize := by
    intro calls hclock honce
    have hclock₀ : ([] ++ calls : List (Submission T)).Pairwise fun c c' => c.now ≤ c'.now :=
      hclock
    obtain ⟨b, hrun, hbest⟩ := hempty.run_of_nodup hpos hclock₀ honce
    obtain ⟨es, l, hes, hl, heq⟩ := hbest.ranked_eq
    exact ⟨b, es, l, hrun, hes, hl, heq⟩
  obtain ⟨b, es, l, hb, hes, hl, heq⟩ := hrun hclock honce
  obtain ⟨b', es', l', hb', hes', hl', heq'⟩ := hrun hclock' (hperm.nodup_iff.mp honce)
  have hpermBest : l.Perm l' := hl.perm hl' fun a => hperm.mem_iff
  refine ⟨b₀, b, b', es, es', hb₀, hb, hb', hes, hes', ?_, fun hties => ?_⟩
  · have hscores := congrArg (List.map Prod.snd) heq
    have hscores' := congrArg (List.map Prod.snd) heq'
    rw [List.map_map, List.map_take] at hscores hscores'
    calc es.map (·.score) = (l.map Prod.snd).take maxSize := hscores
      _ = (l'.map Prod.snd).take maxSize := by rw [hl.map_snd_eq hl' hpermBest]
      _ = es'.map (·.score) := hscores'.symm
  · have hsame : l = l' := hl.eq_of_no_ties hl' hpermBest fun a ha b hb =>
      hties a (hl.mem_iff.mp ha) b (hl.mem_iff.mp hb)
    have hnames := congrArg (List.map Prod.fst) (heq.trans (hsame ▸ heq'.symm))
    rwa [List.map_map, List.map_map] at hnames

/-- The second player comes first in the other order, and the best scores are apart. -/
theorem order_independent_swapped : ∃ (b₀ b b' : Leaderboard ℤ) (es es' : _),
    construct Json.library none 2 true = some b₀ ∧
      Library.run step b₀ [⟨"a", 5, 1, 0, 0⟩, ⟨"b", 3, 2, 0, 0⟩, ⟨"c", 4, 2, 0, 0⟩] = some b ∧
      Library.run step b₀ [⟨"c", 4, 0, 0, 0⟩, ⟨"b", 3, 7, 0, 0⟩, ⟨"a", 5, 7, 0, 0⟩] = some b' ∧
      b.ranked = some es ∧ b'.ranked = some es' ∧ es.map (·.score) = es'.map (·.score) ∧
      es.map (·.name) = es'.map (·.name) := by
  have hclock : ([⟨"a", 5, 1, 0, 0⟩, ⟨"b", 3, 2, 0, 0⟩, ⟨"c", 4, 2, 0, 0⟩] :
      List (Submission ℤ)).Pairwise fun c c' => c.now ≤ c'.now := by decide
  have hclock' : ([⟨"c", 4, 0, 0, 0⟩, ⟨"b", 3, 7, 0, 0⟩, ⟨"a", 5, 7, 0, 0⟩] :
      List (Submission ℤ)).Pairwise fun c c' => c.now ≤ c'.now := by decide
  obtain ⟨b₀, b, b', es, es', hb₀, hb, hb', hes, hes', hscores, hnames⟩ :=
    order_independent Json.library 2 (by decide) true hclock hclock' (by decide) (by decide)
  exact ⟨b₀, b, b', es, es', hb₀, hb, hb', hes, hes', hscores, hnames (by decide)⟩

end Leaderboard
end ServerSimple.GlobalBoards
