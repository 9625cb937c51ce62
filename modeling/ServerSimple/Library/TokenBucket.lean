import Mathlib.Algebra.BigOperators.Group.List.Basic
import Mathlib.Algebra.Order.Ring.Defs
import Mathlib.Tactic.Linarith
import Mathlib.Tactic.Ring

/-! # Token buckets

A bucket starts full, gains `rate` tokens per unit of time up to its capacity, and gives tokens out on
draws that it can cover. Nothing else changes it: it remembers the level that its last successful draw
left, and when that was.
-/

namespace ServerSimple.Library

/-- A request for tokens. -/
structure Draw (K : Type*) where
  now : K
  cost : K

/-- The level that a draw has left, and the time of the draw. -/
structure TokenBucket (K : Type*) where
  level : K
  since : K

variable {K : Type*} [CommRing K] [LinearOrder K] (capacity rate : K)

/-- The tokens after some time without a draw. -/
def refill (level elapsed : K) : K := min capacity (level + elapsed * rate)

/-- The tokens that a draw finds; a bucket that nothing was drawn from is full. -/
def available : Option (TokenBucket K) → K → K
  | none, _ => capacity
  | some bucket, now => refill capacity rate bucket.level (now - bucket.since)

/-- A draw that the bucket cannot cover, or of nothing, is refused and leaves the bucket alone. -/
def draw (bucket : Option (TokenBucket K)) (d : Draw K) : Bool × Option (TokenBucket K) :=
  if 0 < d.cost ∧ d.cost ≤ available capacity rate bucket d.now then
    (true, some ⟨available capacity rate bucket d.now - d.cost, d.now⟩)
  else (false, bucket)

/-- Every draw with the answer it gets. -/
def draws (bucket : Option (TokenBucket K)) : List (Draw K) → List (Draw K × Bool)
  | [] => []
  | d :: ds => (d, (draw capacity rate bucket d).1) :: draws (draw capacity rate bucket d).2 ds

/-- The tokens given out in the time window from `s` to `t`. -/
def drawnWithin (s t : K) (log : List (Draw K × Bool)) : K :=
  ((log.filter fun e => e.2 ∧ s ≤ e.1.now ∧ e.1.now ≤ t).map fun e => e.1.cost).sum

/-- The level is possible, and was left no later than `now`. -/
def Holds : Option (TokenBucket K) → K → Prop
  | none, _ => True
  | some bucket, now => 0 ≤ bucket.level ∧ bucket.level ≤ capacity ∧ bucket.since ≤ now

variable {capacity rate}

theorem draw_of_covered {bucket : Option (TokenBucket K)} {d : Draw K}
    (h : 0 < d.cost ∧ d.cost ≤ available capacity rate bucket d.now) :
    draw capacity rate bucket d =
      (true, some ⟨available capacity rate bucket d.now - d.cost, d.now⟩) :=
  if_pos h

theorem draw_of_not_covered {bucket : Option (TokenBucket K)} {d : Draw K}
    (h : ¬ (0 < d.cost ∧ d.cost ≤ available capacity rate bucket d.now)) :
    draw capacity rate bucket d = (false, bucket) :=
  if_neg h

theorem cost_pos_of_draw {bucket : Option (TokenBucket K)} {d : Draw K}
    (h : (draw capacity rate bucket d).1 = true) : 0 < d.cost := by
  by_contra hcost
  rw [draw_of_not_covered fun hcovered => hcost hcovered.1] at h
  cases h

theorem Holds.mono {bucket : Option (TokenBucket K)} {s t : K} (h : Holds capacity bucket s)
    (hst : s ≤ t) : Holds capacity bucket t := by
  cases bucket with
  | none => trivial
  | some bucket => exact ⟨h.1, h.2.1, h.2.2.trans hst⟩

variable (capacity rate) in
theorem available_le (bucket : Option (TokenBucket K)) (now : K) :
    available capacity rate bucket now ≤ capacity := by
  cases bucket with
  | none => exact le_refl _
  | some bucket => exact min_le_left _ _

theorem drawnWithin_cons (s t : K) (d : Draw K) (answer : Bool) (log : List (Draw K × Bool)) :
    drawnWithin s t ((d, answer) :: log) =
      (if answer ∧ s ≤ d.now ∧ d.now ≤ t then d.cost else 0) + drawnWithin s t log := by
  unfold drawnWithin
  rw [List.filter_cons]
  by_cases h : answer ∧ s ≤ d.now ∧ d.now ≤ t
  · rw [if_pos h, if_pos (by simpa using h), List.map_cons, List.sum_cons]
  · rw [if_neg h, if_neg (by simpa using h), zero_add]

section Ordered

variable [IsStrictOrderedRing K]

/-- Refilling in two steps is refilling once: the cap does not depend on when one looks. -/
theorem refill_refill (hrate : 0 ≤ rate) (level elapsed : K) {later : K} (hlater : 0 ≤ later) :
    refill capacity rate (refill capacity rate level elapsed) later =
      refill capacity rate level (elapsed + later) := by
  have hgain : 0 ≤ later * rate := mul_nonneg hlater hrate
  unfold refill
  rw [min_add, ← min_assoc, min_eq_left (le_add_of_nonneg_right hgain)]
  congr 1
  ring

theorem Holds.available_nonneg (hcap : 0 ≤ capacity) (hrate : 0 ≤ rate)
    {bucket : Option (TokenBucket K)} {now : K} (h : Holds capacity bucket now) :
    0 ≤ available capacity rate bucket now := by
  cases bucket with
  | none => exact hcap
  | some bucket =>
    have hgain : 0 ≤ (now - bucket.since) * rate := mul_nonneg (sub_nonneg.mpr h.2.2) hrate
    exact le_min hcap (add_nonneg h.1 hgain)

/-- Looking later finds what was there before, refilled. -/
theorem Holds.available_eq_refill (hrate : 0 ≤ rate) {bucket : Option (TokenBucket K)} {s t : K}
    (h : Holds capacity bucket s) (hst : s ≤ t) :
    available capacity rate bucket t =
      refill capacity rate (available capacity rate bucket s) (t - s) := by
  have hlater : 0 ≤ t - s := sub_nonneg.mpr hst
  cases bucket with
  | none => exact (min_eq_left (le_add_of_nonneg_right (mul_nonneg hlater hrate))).symm
  | some bucket =>
    simp only [available]
    rw [refill_refill hrate _ _ hlater]
    congr 1
    ring

theorem Holds.available_le_add (hrate : 0 ≤ rate) {bucket : Option (TokenBucket K)} {s t : K}
    (h : Holds capacity bucket s) (hst : s ≤ t) :
    available capacity rate bucket t ≤ available capacity rate bucket s + (t - s) * rate := by
  rw [h.available_eq_refill hrate hst]
  exact min_le_right _ _

variable (rate) in
theorem Holds.draw {bucket : Option (TokenBucket K)} {d : Draw K}
    (h : Holds capacity bucket d.now) :
    Holds capacity (Library.draw capacity rate bucket d).2 d.now := by
  by_cases hcovered : 0 < d.cost ∧ d.cost ≤ available capacity rate bucket d.now
  · rw [draw_of_covered hcovered]
    have hle := available_le capacity rate bucket d.now
    have hlevel : available capacity rate bucket d.now - d.cost ≤ capacity := by
      linarith [hcovered.1]
    exact ⟨sub_nonneg.mpr hcovered.2, hlevel, le_refl _⟩
  · rw [draw_of_not_covered hcovered]
    exact h

omit [IsStrictOrderedRing K] in
theorem available_self {level : K} (h : level ≤ capacity) (now : K) :
    available capacity rate (some ⟨level, now⟩) now = level := by
  simp only [available, refill, sub_self, zero_mul, add_zero]
  exact min_eq_right h

variable (capacity rate) in
/-- A draw gives out what it takes from the bucket. -/
theorem available_draw (bucket : Option (TokenBucket K)) (d : Draw K) :
    available capacity rate (Library.draw capacity rate bucket d).2 d.now +
        (if (Library.draw capacity rate bucket d).1 then d.cost else 0) =
      available capacity rate bucket d.now := by
  by_cases hcovered : 0 < d.cost ∧ d.cost ≤ available capacity rate bucket d.now
  · have hle := available_le capacity rate bucket d.now
    have hlevel : available capacity rate bucket d.now - d.cost ≤ capacity := by
      linarith [hcovered.1]
    rw [draw_of_covered hcovered, available_self hlevel, if_pos rfl, sub_add_cancel]
  · rw [draw_of_not_covered hcovered]
    simp

omit [IsStrictOrderedRing K] in
theorem map_fst_draws (bucket : Option (TokenBucket K)) (ds : List (Draw K)) :
    (draws capacity rate bucket ds).map Prod.fst = ds := by
  induction ds generalizing bucket with
  | nil => rfl
  | cons d ds ih => rw [draws, List.map_cons, ih]

omit [IsStrictOrderedRing K] in
theorem drawnWithin_eq_zero {u t : K} {log : List (Draw K × Bool)}
    (h : ∀ d ∈ log.map Prod.fst, t < d.now) : drawnWithin u t log = 0 := by
  unfold drawnWithin
  have hempty : log.filter (fun e => e.2 ∧ u ≤ e.1.now ∧ e.1.now ≤ t) = [] := by
    rw [List.filter_eq_nil_iff]
    intro e he hin
    have hlate := h e.1 (List.mem_map_of_mem he)
    simp only [decide_eq_true_eq] at hin
    exact absurd hin.2.2 (not_le.mpr hlate)
  rw [hempty, List.map_nil, List.sum_nil]

variable (hcap : 0 ≤ capacity) (hrate : 0 ≤ rate)
include hcap hrate

/-- From a time that no draw precedes, a bucket gives out at most what it holds and what it gains. -/
theorem drawnWithin_le_available {bucket : Option (TokenBucket K)} {s t : K} (hst : s ≤ t)
    (hbucket : Holds capacity bucket s) {ds : List (Draw K)}
    (hsorted : ds.Pairwise fun d e => d.now ≤ e.now) (hlater : ∀ d ∈ ds, s ≤ d.now) (u : K) :
    drawnWithin u t (draws capacity rate bucket ds) ≤
      available capacity rate bucket s + (t - s) * rate := by
  have hheld : 0 ≤ available capacity rate bucket s + (t - s) * rate :=
    add_nonneg (hbucket.available_nonneg hcap hrate) (mul_nonneg (sub_nonneg.mpr hst) hrate)
  induction ds generalizing bucket s with
  | nil => simpa [draws, drawnWithin] using hheld
  | cons d ds ih =>
    obtain ⟨hfirst, hsorted'⟩ := List.pairwise_cons.mp hsorted
    have hsd : s ≤ d.now := hlater d List.mem_cons_self
    rcases le_or_gt d.now t with hdt | htd
    · have hholds := (hbucket.mono hsd).draw rate
      have hrest := ih hdt hholds hsorted' hfirst (add_nonneg
        (hholds.available_nonneg hcap hrate) (mul_nonneg (sub_nonneg.mpr hdt) hrate))
      have hdraw := available_draw capacity rate bucket d
      have hgain := hbucket.available_le_add hrate hsd
      have hcost : (if (Library.draw capacity rate bucket d).1 ∧ u ≤ d.now ∧ d.now ≤ t
          then d.cost else 0) ≤ if (Library.draw capacity rate bucket d).1 then d.cost else 0 := by
        split_ifs with hin hdrawn hdrawn
        · exact le_refl _
        · exact absurd hin.1 hdrawn
        · exact (cost_pos_of_draw hdrawn).le
        · exact le_refl _
      rw [draws, drawnWithin_cons]
      linarith
    · rw [drawnWithin_eq_zero]
      · exact hheld
      · intro e he
        rw [map_fst_draws] at he
        rcases List.mem_cons.mp he with rfl | he
        · exact htd
        · exact htd.trans_le (hfirst e he)

/-- In every time window a bucket gives out at most its capacity and what it gains in the window. -/
theorem drawnWithin_le {bucket : Option (TokenBucket K)} {s t : K} (hst : s ≤ t)
    (hbucket : Holds capacity bucket s) {ds : List (Draw K)}
    (hsorted : ds.Pairwise fun d e => d.now ≤ e.now) (hholds : ∀ d ∈ ds, Holds capacity bucket d.now) :
    drawnWithin s t (draws capacity rate bucket ds) ≤ capacity + (t - s) * rate := by
  induction ds generalizing bucket with
  | nil =>
    simpa [draws, drawnWithin] using
      add_nonneg hcap (mul_nonneg (sub_nonneg.mpr hst) hrate)
  | cons d ds ih =>
    obtain ⟨hfirst, hsorted'⟩ := List.pairwise_cons.mp hsorted
    rcases le_or_gt s d.now with hsd | hds
    · -- nothing is drawn between `s` and the first draw of the list
      have hlater : ∀ e ∈ d :: ds, s ≤ e.now := by
        intro e he
        rcases List.mem_cons.mp he with rfl | he
        · exact hsd
        · exact hsd.trans (hfirst e he)
      have hbound := drawnWithin_le_available hcap hrate hst hbucket hsorted hlater s
      have hle := available_le capacity rate bucket s
      linarith
    · have hdraw := (hholds d List.mem_cons_self).draw rate
      rw [draws, drawnWithin_cons, if_neg (fun h => absurd h.2.1 (not_le.mpr hds)), zero_add]
      exact ih (hdraw.mono hds.le) hsorted' fun e he => hdraw.mono (hfirst e he)

end Ordered

end ServerSimple.Library
