import Mathlib.Algebra.Order.Field.Rat
import ServerSimple.Library.TokenBucket

/-! # The rate limiter

`consume` and `cleanup` of `rate_limiter`, each as one step because both hold the mutex. Numbers and
times in seconds are exact rationals; every call carries the reading of the clock. The map of the
buckets is a function, since nothing depends on the order in which `cleanup` goes through it.
-/

namespace ServerSimple.Network

open Library

/-- The parameters that the constructor lets through. -/
structure RateLimits where
  maxTokens : ℚ
  refillRate : ℚ
  cleanupAfterIdleDuration : ℚ
  maxTokens_pos : 0 < maxTokens
  refillRate_pos : 0 < refillRate

namespace RateLimits

/-- `DEFAULT_RATE_LIMITER_CLEANUP_AFTER_IDLE_DURATION`, in seconds. -/
def defaultCleanupAfterIdleDuration : ℚ := 120

/-- The checks of the constructor of `rate_limiter`. -/
def make (maxTokens refillRate cleanupAfterIdleDuration : ℚ) : Except String RateLimits :=
  if hmax : maxTokens ≤ 0 then .error "max_tokens of rate_limiter must be positive"
  else if hrate : refillRate ≤ 0 then .error "refill_rate of rate_limiter must be positive"
  else .ok ⟨maxTokens, refillRate, cleanupAfterIdleDuration, not_le.mp hmax, not_le.mp hrate⟩

/-- The limiter of a `request_server_base`, which leaves the idle duration to its default. -/
def makeIp (maxIpRateTokens ipTokenRefillRate : ℚ) : Except String RateLimits :=
  make maxIpRateTokens ipTokenRefillRate defaultCleanupAfterIdleDuration

end RateLimits

/-- `rate_limiter::entry`. -/
structure RateEntry where
  tokens : ℚ
  lastRefill : ℚ

structure RateLimiter where
  requests : String → Option RateEntry

/-- The arguments of `consume`, and the clock. -/
structure Consume where
  now : ℚ
  identifier : String
  cost : ℚ

inductive LimiterCall where
  | consume (call : Consume)
  | cleanup (now : ℚ)

namespace LimiterCall

def now : LimiterCall → ℚ
  | .consume call => call.now
  | .cleanup now => now

def isConsume : LimiterCall → Bool
  | .consume _ => true
  | .cleanup _ => false

end LimiterCall

namespace RateLimiter

def initial : RateLimiter := ⟨fun _ => none⟩

def set (limiter : RateLimiter) (identifier : String) (entry : RateEntry) : RateLimiter :=
  ⟨Function.update limiter.requests identifier (some entry)⟩

@[simp] theorem set_self (limiter : RateLimiter) (identifier : String) (entry : RateEntry) :
    (limiter.set identifier entry).requests identifier = some entry := by
  simp [set]

theorem set_of_ne (limiter : RateLimiter) {identifier other : String} (entry : RateEntry)
    (h : other ≠ identifier) :
    (limiter.set identifier entry).requests other = limiter.requests other := by
  simp [set, h]

variable (limits : RateLimits)

def consume (limiter : RateLimiter) (call : Consume) : Bool × RateLimiter :=
  if call.cost ≤ 0 ∨ limits.maxTokens < call.cost then (false, limiter)
  else
    match limiter.requests call.identifier with
    | none => (true, limiter.set call.identifier ⟨limits.maxTokens - call.cost, call.now⟩)
    | some bucket =>
      let elapsed := call.now - bucket.lastRefill
      let tokens := min limits.maxTokens (bucket.tokens + elapsed * limits.refillRate)
      -- the refilled amount is stored even when the call is refused
      if tokens < call.cost then (false, limiter.set call.identifier ⟨tokens, call.now⟩)
      else (true, limiter.set call.identifier ⟨tokens - call.cost, call.now⟩)

/-- Forget the entries that have been idle for too long. -/
def cleanup (limiter : RateLimiter) (now : ℚ) : RateLimiter :=
  ⟨fun identifier => (limiter.requests identifier).filter fun bucket =>
    now - bucket.lastRefill ≤ limits.cleanupAfterIdleDuration⟩

/-- The limiter after the calls, and every `consume` with its result. -/
def serve (limiter : RateLimiter) : List LimiterCall → RateLimiter × List (Consume × Bool)
  | [] => (limiter, [])
  | .consume call :: calls =>
    let rest := serve (limiter.consume limits call).2 calls
    (rest.1, (call, (limiter.consume limits call).1) :: rest.2)
  | .cleanup now :: calls => serve (limiter.cleanup limits now) calls

variable {limits}

/-! ## What a call does to the entries -/

theorem consume_of_invalid {limiter : RateLimiter} {call : Consume}
    (h : call.cost ≤ 0 ∨ limits.maxTokens < call.cost) :
    limiter.consume limits call = (false, limiter) :=
  if_pos h

theorem consume_of_new {limiter : RateLimiter} {call : Consume}
    (h : ¬ (call.cost ≤ 0 ∨ limits.maxTokens < call.cost))
    (hnew : limiter.requests call.identifier = none) :
    limiter.consume limits call =
      (true, limiter.set call.identifier ⟨limits.maxTokens - call.cost, call.now⟩) := by
  simp only [consume, if_neg h, hnew]

theorem consume_of_entry {limiter : RateLimiter} {call : Consume} {entry : RateEntry}
    (h : ¬ (call.cost ≤ 0 ∨ limits.maxTokens < call.cost))
    (hentry : limiter.requests call.identifier = some entry) :
    limiter.consume limits call =
      let tokens := refill limits.maxTokens limits.refillRate entry.tokens
        (call.now - entry.lastRefill)
      if tokens < call.cost then (false, limiter.set call.identifier ⟨tokens, call.now⟩)
      else (true, limiter.set call.identifier ⟨tokens - call.cost, call.now⟩) := by
  simp only [consume, if_neg h, hentry]
  rfl

variable (limits) in
/-- The calls of other identifiers leave an entry alone. -/
theorem consume_of_ne (limiter : RateLimiter) {call : Consume} {identifier : String}
    (h : identifier ≠ call.identifier) :
    (limiter.consume limits call).2.requests identifier = limiter.requests identifier := by
  by_cases hcost : call.cost ≤ 0 ∨ limits.maxTokens < call.cost
  · rw [consume_of_invalid hcost]
  · cases hentry : limiter.requests call.identifier with
    | none =>
      rw [consume_of_new hcost hentry]
      exact set_of_ne _ _ h
    | some entry =>
      rw [consume_of_entry hcost hentry]
      dsimp only
      split_ifs
      · exact set_of_ne _ _ h
      · exact set_of_ne _ _ h

end RateLimiter
end ServerSimple.Network
