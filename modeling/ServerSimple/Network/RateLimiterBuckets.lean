import ServerSimple.Network.RateLimiter

/-! # The rate limiter and its token buckets

The limiter stores the refilled tokens with every valid call, also with a refused one, while a token
bucket only remembers its last successful draw. Both find the same tokens, because refilling in two
steps is refilling once.
-/

namespace ServerSimple.Network

open Library

/-- What a call asks of the bucket of its identifier. -/
def Consume.draw (call : Consume) : Draw ℚ := ⟨call.now, call.cost⟩

namespace RateLimiter

variable (limits : RateLimits)

/-- The entry of an identifier shows its bucket as it was at the last refill. -/
inductive Represents : Option RateEntry → Option (TokenBucket ℚ) → Prop
  | unused : Represents none none
  | used {entry : RateEntry} {bucket : TokenBucket ℚ}
    (hholds : Holds limits.maxTokens (some bucket) entry.lastRefill)
    (htokens : entry.tokens =
      available limits.maxTokens limits.refillRate (some bucket) entry.lastRefill) :
    Represents (some entry) (some bucket)

variable {limits} {limiter : RateLimiter} {call : Consume} {bucket : Option (TokenBucket ℚ)}

/-- No entry was refilled after `now`. -/
def RefilledBy (entry : Option RateEntry) (now : ℚ) : Prop :=
  ∀ e, entry = some e → e.lastRefill ≤ now

theorem RefilledBy.mono {entry : Option RateEntry} {s t : ℚ} (h : RefilledBy entry s)
    (hst : s ≤ t) : RefilledBy entry t :=
  fun e he => (h e he).trans hst

theorem refilledBy_some {e : RateEntry} {now : ℚ} (h : e.lastRefill ≤ now) :
    RefilledBy (some e) now := by
  rintro _ ⟨⟩
  exact h

/-- A fresh entry shows the bucket that a draw has just left. -/
theorem represents_drawn {level now : ℚ} (hnonneg : 0 ≤ level) (hle : level ≤ limits.maxTokens) :
    Represents limits (some ⟨level, now⟩) (some ⟨level, now⟩) :=
  .used ⟨hnonneg, hle, le_refl _⟩ (available_self hle now).symm

theorem Represents.tokens_mem {entry : RateEntry} (h : Represents limits (some entry) bucket) :
    0 ≤ entry.tokens ∧ entry.tokens ≤ limits.maxTokens := by
  cases h with
  | used hholds htokens =>
    rw [htokens]
    exact ⟨hholds.available_nonneg limits.maxTokens_pos.le limits.refillRate_pos.le,
      available_le _ _ _ _⟩

/-- A call answers like the bucket of its identifier, and goes on showing it. -/
theorem Represents.consume (h : Represents limits (limiter.requests call.identifier) bucket)
    (hclock : RefilledBy (limiter.requests call.identifier) call.now) :
    (limiter.consume limits call).1 =
        (draw limits.maxTokens limits.refillRate bucket call.draw).1 ∧
      Represents limits ((limiter.consume limits call).2.requests call.identifier)
        (draw limits.maxTokens limits.refillRate bucket call.draw).2 ∧
      RefilledBy ((limiter.consume limits call).2.requests call.identifier) call.now := by
  by_cases hcost : call.cost ≤ 0 ∨ limits.maxTokens < call.cost
  · have hrefused : ¬ (0 < call.draw.cost ∧
        call.draw.cost ≤ available limits.maxTokens limits.refillRate bucket call.draw.now) := by
      rintro ⟨hpos, hle⟩
      rcases hcost with hcost | hcost
      · exact absurd hpos (not_lt.mpr hcost)
      · exact absurd (hle.trans (available_le _ _ _ _)) (not_le.mpr hcost)
    rw [consume_of_invalid hcost, draw_of_not_covered hrefused]
    exact ⟨rfl, h, hclock⟩
  · have hpos : 0 < call.cost := not_le.mp fun hle => hcost (.inl hle)
    have hmax : call.cost ≤ limits.maxTokens := not_lt.mp fun hlt => hcost (.inr hlt)
    generalize hentry : limiter.requests call.identifier = entry at h hclock
    cases h with
    | unused =>
      have hcovered : 0 < call.draw.cost ∧
          call.draw.cost ≤ available limits.maxTokens limits.refillRate none call.draw.now :=
        ⟨hpos, hmax⟩
      rw [consume_of_new hcost hentry, draw_of_covered hcovered, set_self]
      refine ⟨rfl, ?_, refilledBy_some (le_refl _)⟩
      exact represents_drawn (sub_nonneg.mpr hmax) (sub_le_self _ hpos.le)
    | @used entry bucket hholds htokens =>
      have hlater : entry.lastRefill ≤ call.now := hclock entry rfl
      have htokens' : refill limits.maxTokens limits.refillRate entry.tokens
          (call.now - entry.lastRefill) =
            available limits.maxTokens limits.refillRate (some bucket) call.now := by
        rw [htokens, hholds.available_eq_refill limits.refillRate_pos.le hlater]
      rw [consume_of_entry hcost hentry, htokens']
      dsimp only
      split_ifs with hshort
      · have hrefused : ¬ (0 < call.draw.cost ∧ call.draw.cost ≤
            available limits.maxTokens limits.refillRate (some bucket) call.draw.now) :=
          fun hcovered => absurd hcovered.2 (not_le.mpr hshort)
        rw [draw_of_not_covered hrefused, set_self]
        exact ⟨rfl, .used (hholds.mono hlater) rfl, refilledBy_some (le_refl _)⟩
      · have hcovered : 0 < call.draw.cost ∧ call.draw.cost ≤
            available limits.maxTokens limits.refillRate (some bucket) call.draw.now :=
          ⟨hpos, not_lt.mp hshort⟩
        rw [draw_of_covered hcovered, set_self]
        have hle := available_le limits.maxTokens limits.refillRate (some bucket) call.now
        refine ⟨rfl, ?_, refilledBy_some (le_refl _)⟩
        exact represents_drawn (sub_nonneg.mpr hcovered.2) ((sub_le_self _ hpos.le).trans hle)

/-- The results that one identifier gets. -/
def resultsOf (log : List (Consume × Bool)) (identifier : String) : List (Draw ℚ × Bool) :=
  (log.filter fun entry => entry.1.identifier = identifier).map fun entry => (entry.1.draw, entry.2)

/-- The draws of one identifier. -/
def drawsOf (calls : List Consume) (identifier : String) : List (Draw ℚ) :=
  (calls.filter fun call => call.identifier = identifier).map Consume.draw

/-- The calls are made in the order of their clock readings. -/
def InOrder (calls : List Consume) : Prop := calls.Pairwise fun c d => c.now ≤ d.now

/-- Every identifier is served by a bucket of its own. -/
theorem Represents.serve {identifier : String} {calls : List Consume} (hsorted : InOrder calls)
    (h : Represents limits (limiter.requests identifier) bucket)
    (hclock : ∀ call ∈ calls, RefilledBy (limiter.requests identifier) call.now) :
    resultsOf (serve limits limiter (calls.map .consume)).2 identifier =
        draws limits.maxTokens limits.refillRate bucket (drawsOf calls identifier) ∧
      ∃ bucket', Represents limits
        ((serve limits limiter (calls.map .consume)).1.requests identifier) bucket' := by
  induction calls generalizing limiter bucket with
  | nil => exact ⟨rfl, bucket, h⟩
  | cons call calls ih =>
    obtain ⟨hfirst, hsorted'⟩ := List.pairwise_cons.mp hsorted
    simp only [List.map_cons, RateLimiter.serve]
    by_cases hid : call.identifier = identifier
    · subst hid
      obtain ⟨hanswer, hrepresents, hrefilled⟩ :=
        h.consume (hclock call List.mem_cons_self)
      obtain ⟨hresults, hfinal⟩ :=
        ih hsorted' hrepresents fun later hlater => hrefilled.mono (hfirst later hlater)
      refine ⟨?_, hfinal⟩
      rw [resultsOf, drawsOf, List.filter_cons_of_pos (by simp), List.filter_cons_of_pos (by simp),
        List.map_cons, List.map_cons, draws, hanswer]
      exact congrArg _ hresults
    · have hsame := limiter.consume_of_ne limits (Ne.symm hid)
      rw [← hsame] at h
      obtain ⟨hresults, hfinal⟩ := ih hsorted' h fun later hlater => by
        rw [hsame]
        exact hclock later (List.mem_cons_of_mem _ hlater)
      refine ⟨?_, hfinal⟩
      rw [resultsOf, drawsOf, List.filter_cons_of_neg (by simpa using hid),
        List.filter_cons_of_neg (by simpa using hid)]
      exact hresults

/-- What an identifier was given in a time window, read off the results of all identifiers. -/
theorem drawnWithin_resultsOf (s t : ℚ) (log : List (Consume × Bool)) (identifier : String) :
    drawnWithin s t (resultsOf log identifier) =
      ((log.filter fun entry =>
        entry.1.identifier = identifier ∧ entry.2 ∧ s ≤ entry.1.now ∧ entry.1.now ≤ t).map
          fun entry => entry.1.cost).sum := by
  have hfilter : (log.filter fun entry => entry.1.identifier = identifier).filter
      (fun entry => entry.2 ∧ s ≤ entry.1.now ∧ entry.1.now ≤ t) =
      log.filter fun entry =>
        entry.1.identifier = identifier ∧ entry.2 ∧ s ≤ entry.1.now ∧ entry.1.now ≤ t := by
    rw [List.filter_filter]
    apply List.filter_congr
    intro entry _
    rw [Bool.and_comm, ← Bool.decide_and]
  rw [drawnWithin, resultsOf, List.filter_map, List.map_map, ← hfilter]
  rfl

variable (limits)

/-- The limiter is a family of token buckets, one for each identifier: it answers every call as the
bucket does that sees the calls of that identifier only, its stored tokens stay in range, and in any
time window it accepts no more than a full bucket and what is refilled in the window. -/
theorem serve_token_buckets (calls : List Consume) (hclock : InOrder calls) (identifier : String) :
    resultsOf (serve limits initial (calls.map .consume)).2 identifier =
      draws limits.maxTokens limits.refillRate none (drawsOf calls identifier) ∧
    (∀ entry, (serve limits initial (calls.map .consume)).1.requests identifier = some entry →
      0 ≤ entry.tokens ∧ entry.tokens ≤ limits.maxTokens) ∧
    ∀ s t, s ≤ t →
      (((serve limits initial (calls.map .consume)).2.filter fun entry =>
        entry.1.identifier = identifier ∧ entry.2 ∧ s ≤ entry.1.now ∧ entry.1.now ≤ t).map
          fun entry => entry.1.cost).sum ≤ limits.maxTokens + limits.refillRate * (t - s) := by
  have hunused : Represents limits (initial.requests identifier) none := .unused
  obtain ⟨hresults, bucket, hrepresents⟩ := hunused.serve hclock fun _ _ _ => nofun
  refine ⟨hresults, ?_, ?_⟩
  · intro entry hentry
    rw [hentry] at hrepresents
    exact hrepresents.tokens_mem
  · intro s t hst
    have hsorted : (drawsOf calls identifier).Pairwise fun d e => d.now ≤ e.now :=
      List.pairwise_map.mpr (hclock.filter _)
    have hfull : Holds limits.maxTokens (none : Option (TokenBucket ℚ)) s := trivial
    have hbound := drawnWithin_le limits.maxTokens_pos.le limits.refillRate_pos.le hst hfull hsorted
      fun _ _ => trivial
    rw [← hresults, drawnWithin_resultsOf, mul_comm] at hbound
    exact hbound

/-- A burst, a refused call that stores a refill, another identifier and an invalid cost. -/
def mixedCalls : List Consume :=
  [⟨0, "alice", 2⟩, ⟨1, "alice", 2⟩, ⟨1, "bob", 3⟩, ⟨2, "alice", -1⟩, ⟨3, "alice", 2⟩]

theorem serve_token_buckets_mixed :
    InOrder mixedCalls ∧
      resultsOf (serve ⟨3, 1 / 2, 120, by decide +kernel, by decide +kernel⟩ initial
          (mixedCalls.map .consume)).2 "alice" =
        draws 3 (1 / 2) none (drawsOf mixedCalls "alice") := by
  have hclock : InOrder mixedCalls := by
    simp only [InOrder, mixedCalls]
    norm_num
  exact ⟨hclock, (serve_token_buckets _ mixedCalls hclock "alice").1⟩

end RateLimiter
end ServerSimple.Network
