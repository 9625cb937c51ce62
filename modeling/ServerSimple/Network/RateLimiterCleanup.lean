import Mathlib.Algebra.Order.Field.Basic
import ServerSimple.Network.RateLimiterBuckets

/-! # Forgetting idle entries

`cleanup` erases the entry of an identifier, and the next call of that identifier finds a full bucket.
That is what it would have found anyway if the idle duration is long enough for a full refill.
-/

namespace ServerSimple.Network
namespace RateLimiter

open Library

variable {limits : RateLimits} {limiter cleaned : RateLimiter} {call : Consume}

variable (limits) in
/-- The entry holds a full bucket by now. -/
def FullAgain (entry : RateEntry) (now : ℚ) : Prop :=
  limits.maxTokens ≤ entry.tokens + (now - entry.lastRefill) * limits.refillRate

theorem FullAgain.mono {entry : RateEntry} {s t : ℚ} (h : FullAgain limits entry s) (hst : s ≤ t) :
    FullAgain limits entry t := by
  have hgain : (s - entry.lastRefill) * limits.refillRate ≤
      (t - entry.lastRefill) * limits.refillRate :=
    mul_le_mul_of_nonneg_right (sub_le_sub_right hst _) limits.refillRate_pos.le
  unfold FullAgain at h ⊢
  linarith

variable (limits) in
/-- Two entries of one identifier that no later call can tell apart, the first of which may have been
forgotten. -/
structure Agrees (forgotten kept : Option RateEntry) (now : ℚ) : Prop where
  same : forgotten = kept ∨ forgotten = none ∧ ∃ entry, kept = some entry ∧
    FullAgain limits entry now
  represents : ∃ bucket, Represents limits kept bucket
  refilledBy : RefilledBy kept now

theorem Agrees.mono {forgotten kept : Option RateEntry} {s t : ℚ}
    (h : Agrees limits forgotten kept s) (hst : s ≤ t) : Agrees limits forgotten kept t := by
  refine ⟨?_, h.represents, h.refilledBy.mono hst⟩
  rcases h.same with hsame | ⟨hnone, entry, hentry, hfull⟩
  · exact .inl hsame
  · exact .inr ⟨hnone, entry, hentry, hfull.mono hst⟩

theorem agrees_initial (identifier : String) (now : ℚ) :
    Agrees limits (initial.requests identifier) (initial.requests identifier) now :=
  ⟨.inl rfl, ⟨none, .unused⟩, nofun⟩

variable (limits) in
/-- A call looks at nothing but the entry of its identifier. -/
theorem consume_congr (h : cleaned.requests call.identifier = limiter.requests call.identifier) :
    (cleaned.consume limits call).1 = (limiter.consume limits call).1 ∧
      (cleaned.consume limits call).2.requests call.identifier =
        (limiter.consume limits call).2.requests call.identifier := by
  by_cases hcost : call.cost ≤ 0 ∨ limits.maxTokens < call.cost
  · rw [consume_of_invalid hcost, consume_of_invalid hcost]
    exact ⟨rfl, h⟩
  · cases hentry : limiter.requests call.identifier with
    | none =>
      rw [consume_of_new hcost hentry, consume_of_new hcost (h.trans hentry)]
      simp
    | some entry =>
      rw [consume_of_entry hcost hentry, consume_of_entry hcost (h.trans hentry)]
      dsimp only
      split_ifs
      · simp
      · simp

/-- A call finds the same in a full entry as in none. -/
theorem consume_of_fullAgain {entry : RateEntry}
    (hcost : ¬ (call.cost ≤ 0 ∨ limits.maxTokens < call.cost))
    (hentry : limiter.requests call.identifier = some entry)
    (hfull : FullAgain limits entry call.now) :
    limiter.consume limits call =
      (true, limiter.set call.identifier ⟨limits.maxTokens - call.cost, call.now⟩) := by
  have htokens : refill limits.maxTokens limits.refillRate entry.tokens
      (call.now - entry.lastRefill) = limits.maxTokens := min_eq_left hfull
  have hcovered : ¬ limits.maxTokens < call.cost := fun hlt => hcost (.inr hlt)
  rw [consume_of_entry hcost hentry, htokens]
  exact if_neg hcovered

/-- A call of the identifier answers the same, and the entries agree again. -/
theorem Agrees.consume {now : ℚ}
    (h : Agrees limits (cleaned.requests call.identifier) (limiter.requests call.identifier) now)
    (hnow : now ≤ call.now) :
    (cleaned.consume limits call).1 = (limiter.consume limits call).1 ∧
      Agrees limits ((cleaned.consume limits call).2.requests call.identifier)
        ((limiter.consume limits call).2.requests call.identifier) call.now := by
  obtain ⟨bucket, hrepresents⟩ := h.represents
  obtain ⟨_, hrepresents', hrefilled⟩ := hrepresents.consume (h.refilledBy.mono hnow)
  rcases h.same with hsame | ⟨hnone, entry, hentry, hfull⟩
  · obtain ⟨hanswer, hentries⟩ := consume_congr limits hsame
    exact ⟨hanswer, .inl hentries, ⟨_, hrepresents'⟩, hrefilled⟩
  · by_cases hcost : call.cost ≤ 0 ∨ limits.maxTokens < call.cost
    · rw [consume_of_invalid hcost, consume_of_invalid hcost]
      exact ⟨rfl, h.mono hnow⟩
    · have hkept := consume_of_fullAgain hcost hentry (hfull.mono hnow)
      rw [hkept] at hrepresents' hrefilled ⊢
      rw [consume_of_new hcost hnone]
      refine ⟨rfl, .inl ?_, ⟨_, hrepresents'⟩, hrefilled⟩
      rw [set_self, set_self]

variable (hlong : limits.maxTokens ≤ limits.refillRate * limits.cleanupAfterIdleDuration)
include hlong

/-- An entry that is forgotten holds a full bucket. -/
theorem fullAgain_of_idle {entry : RateEntry} {now : ℚ} (hnonneg : 0 ≤ entry.tokens)
    (hidle : limits.cleanupAfterIdleDuration < now - entry.lastRefill) :
    FullAgain limits entry now := by
  have hgain : limits.cleanupAfterIdleDuration * limits.refillRate ≤
      (now - entry.lastRefill) * limits.refillRate :=
    mul_le_mul_of_nonneg_right hidle.le limits.refillRate_pos.le
  unfold FullAgain
  linarith

theorem Agrees.cleanup {identifier : String} {now later : ℚ}
    (h : Agrees limits (cleaned.requests identifier) (limiter.requests identifier) now)
    (hnow : now ≤ later) :
    Agrees limits ((cleaned.cleanup limits later).requests identifier)
      (limiter.requests identifier) later := by
  have hlater := h.mono hnow
  refine ⟨?_, hlater.represents, hlater.refilledBy⟩
  simp only [RateLimiter.cleanup]
  rcases hlater.same with hsame | ⟨hnone, hfull⟩
  · rw [hsame]
    cases hentry : limiter.requests identifier with
    | none => exact .inl rfl
    | some entry =>
      by_cases hidle : later - entry.lastRefill ≤ limits.cleanupAfterIdleDuration
      · exact .inl (by simp [Option.filter, hidle])
      · obtain ⟨bucket, hrepresents⟩ := h.represents
        rw [hentry] at hrepresents
        refine .inr ⟨by simp [Option.filter, hidle], entry, rfl, ?_⟩
        exact fullAgain_of_idle hlong hrepresents.tokens_mem.1 (not_le.mp hidle)
  · rw [hnone]
    exact .inr ⟨rfl, hfull⟩

theorem serve_cleanup {calls : List LimiterCall} {now : ℚ}
    (h : ∀ identifier, Agrees limits (cleaned.requests identifier)
      (limiter.requests identifier) now)
    (hsorted : calls.Pairwise fun a b => a.now ≤ b.now) (hlater : ∀ a ∈ calls, now ≤ a.now) :
    (serve limits cleaned calls).2 =
      (serve limits limiter (calls.filter LimiterCall.isConsume)).2 := by
  induction calls generalizing cleaned limiter now with
  | nil => rfl
  | cons a calls ih =>
    obtain ⟨hfirst, hsorted'⟩ := List.pairwise_cons.mp hsorted
    have hnow := hlater a List.mem_cons_self
    cases a with
    | cleanup later =>
      rw [List.filter_cons_of_neg (by simp [LimiterCall.isConsume]), serve]
      exact ih (fun identifier => (h identifier).cleanup hlong hnow) hsorted' hfirst
    | consume call =>
      rw [List.filter_cons_of_pos (by simp [LimiterCall.isConsume]), serve, serve]
      obtain ⟨hanswer, hagrees⟩ := (h call.identifier).consume hnow
      have hrest : ∀ identifier, Agrees limits
          ((cleaned.consume limits call).2.requests identifier)
          ((limiter.consume limits call).2.requests identifier) call.now := by
        intro identifier
        by_cases hid : identifier = call.identifier
        · rw [hid]
          exact hagrees
        · rw [consume_of_ne limits cleaned hid, consume_of_ne limits limiter hid]
          exact (h identifier).mono hnow
      dsimp only
      rw [hanswer, ih hrest hsorted' hfirst]

omit hlong

/-- A call that takes a full bucket. -/
def takeAll (limits : RateLimits) (now : ℚ) : Consume := ⟨now, "client", limits.maxTokens⟩

/-- An identifier empties its bucket, stays idle for a while and then asks for a full bucket. -/
def emptyTwice (limits : RateLimits) (idle : ℚ) : List LimiterCall :=
  [.consume (takeAll limits 0), .cleanup idle, .consume (takeAll limits idle)]

theorem emptyTwice_inOrder {idle : ℚ} (h : 0 ≤ idle) :
    (emptyTwice limits idle).Pairwise fun a b => a.now ≤ b.now := by
  simp [emptyTwice, takeAll, LimiterCall.now, h]

theorem takeAll_valid (now : ℚ) :
    ¬ ((takeAll limits now).cost ≤ 0 ∨ limits.maxTokens < (takeAll limits now).cost) := by
  simpa [takeAll] using limits.maxTokens_pos

/-- The second request is refused unless the entry was forgotten in between. -/
theorem emptyTwice_differs {idle : ℚ} (hforgotten : limits.cleanupAfterIdleDuration < idle)
    (hshort : idle * limits.refillRate < limits.maxTokens) :
    (serve limits initial (emptyTwice limits idle)).2 ≠
      (serve limits initial ((emptyTwice limits idle).filter LimiterCall.isConsume)).2 := by
  have hfirst : initial.consume limits (takeAll limits 0) =
      (true, initial.set "client" ⟨limits.maxTokens - limits.maxTokens, 0⟩) :=
    consume_of_new (takeAll_valid 0) rfl
  generalize hemptied : initial.set "client" ⟨limits.maxTokens - limits.maxTokens, 0⟩ = emptied
    at hfirst
  have hentry : emptied.requests (takeAll limits idle).identifier =
      some ⟨limits.maxTokens - limits.maxTokens, 0⟩ := by
    rw [← hemptied]
    exact set_self _ _ _
  have hgone : (emptied.cleanup limits idle).requests (takeAll limits idle).identifier = none := by
    simp [cleanup, hentry, Option.filter, hforgotten]
  have hagain : ((emptied.cleanup limits idle).consume limits (takeAll limits idle)).1 = true := by
    rw [consume_of_new (takeAll_valid idle) hgone]
  have hrefused : (emptied.consume limits (takeAll limits idle)).1 = false := by
    have htokens : refill limits.maxTokens limits.refillRate
        (limits.maxTokens - limits.maxTokens) (idle - 0) < (takeAll limits idle).cost := by
      simpa [refill, takeAll] using hshort
    rw [consume_of_entry (takeAll_valid idle) hentry]
    exact congrArg Prod.fst (if_pos htokens)
  have hkept : (emptyTwice limits idle).filter LimiterCall.isConsume =
      [.consume (takeAll limits 0), .consume (takeAll limits idle)] := rfl
  rw [hkept]
  simp [emptyTwice, serve, hfirst, hagain, hrefused]

variable (limits)

/-- Cleaning up changes no decision exactly if the idle duration is long enough to refill an empty
bucket. -/
theorem cleanup_unobservable_iff :
    (∀ calls : List LimiterCall, (calls.Pairwise fun a b => a.now ≤ b.now) →
      (serve limits initial calls).2 =
        (serve limits initial (calls.filter LimiterCall.isConsume)).2) ↔
    limits.maxTokens ≤ limits.refillRate * limits.cleanupAfterIdleDuration := by
  constructor
  · intro h
    by_contra hshort
    have hrate := limits.refillRate_pos
    -- idle long enough to be forgotten, and too short to be full again
    have hD : limits.cleanupAfterIdleDuration < limits.maxTokens / limits.refillRate := by
      rw [lt_div_iff₀ hrate, mul_comm]
      exact not_le.mp hshort
    have hbound : max limits.cleanupAfterIdleDuration 0 < limits.maxTokens / limits.refillRate :=
      max_lt hD (div_pos limits.maxTokens_pos hrate)
    obtain ⟨idle, hlower, hupper⟩ := exists_between hbound
    have hidle : 0 ≤ idle := (le_max_right _ _).trans hlower.le
    refine emptyTwice_differs ((le_max_left _ _).trans_lt hlower) ?_
      (h (emptyTwice limits idle) (emptyTwice_inOrder hidle))
    exact (lt_div_iff₀ hrate).mp hupper
  · intro hlong calls hsorted
    cases calls with
    | nil => rfl
    | cons a calls =>
      refine serve_cleanup hlong (fun identifier => agrees_initial identifier a.now) hsorted ?_
      intro b hb
      rcases List.mem_cons.mp hb with rfl | hb
      · exact le_refl _
      · exact (List.pairwise_cons.mp hsorted).1 b hb

/-- A server that allows 100 connections, refilled one every two seconds, with the default cleanup. -/
theorem cleanup_refills_bucket :
    ¬ ∀ limits : RateLimits, RateLimits.makeIp 100 (1 / 2) = .ok limits →
      ∀ calls : List LimiterCall, (calls.Pairwise fun a b => a.now ≤ b.now) →
        (serve limits initial calls).2 =
          (serve limits initial (calls.filter LimiterCall.isConsume)).2 := by
  intro h
  have hlimits : RateLimits.makeIp 100 (1 / 2) =
      .ok ⟨100, 1 / 2, 120, by norm_num, by norm_num⟩ := by
    norm_num [RateLimits.makeIp, RateLimits.make, RateLimits.defaultCleanupAfterIdleDuration]
  refine emptyTwice_differs ?_ ?_ (h _ hlimits (emptyTwice _ 121) (emptyTwice_inOrder ?_))
  · norm_num
  · norm_num
  · norm_num

end RateLimiter
end ServerSimple.Network
