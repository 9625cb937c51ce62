import Mathlib.Algebra.BigOperators.Group.Finset.Piecewise
import Mathlib.Data.Fintype.Basic

/-! # Counting the members of a finite family that satisfy a predicate

The threads of a system are a function from a finite type to their local states. One equation says
how a count over the family changes when one member is updated.
-/

namespace ServerSimple.Library

variable {θ α : Type*} [Fintype θ] (p : α → Prop) [DecidablePred p]

/-- How many members of the family satisfy `p`. -/
def occurrences (f : θ → α) : ℕ := ∑ t, if p (f t) then 1 else 0

variable {p}

theorem occurrences_eq_zero {f : θ → α} : occurrences p f = 0 ↔ ∀ t, ¬ p (f t) := by
  simp [occurrences]

theorem occurrences_pos {f : θ → α} : 0 < occurrences p f ↔ ∃ t, p (f t) := by
  rw [Nat.pos_iff_ne_zero, Ne, occurrences_eq_zero]
  simp

/-- The old value of the updated member leaves the count, its new value enters it. -/
theorem occurrences_update [DecidableEq θ] (f : θ → α) (t : θ) (b : α) :
    occurrences p (Function.update f t b) + (if p (f t) then 1 else 0) =
      occurrences p f + if p b then 1 else 0 := by
  let hit : α → ℕ := fun v => if p v then 1 else 0
  have hnew : occurrences p (Function.update f t b) =
      hit b + ∑ u ∈ Finset.univ \ {t}, hit (f u) := by
    rw [← Finset.sum_update_of_mem (Finset.mem_univ t) (fun u => hit (f u)) (hit b)]
    apply Finset.sum_congr rfl
    intro u _
    by_cases hu : u = t
    · subst hu
      simp [hit]
    · simp [hit, hu]
  have hold : ∑ u ∈ Finset.univ \ {t}, hit (f u) + hit (f t) = occurrences p f := by
    rw [← Finset.sum_singleton (fun u => hit (f u)) t]
    exact Finset.sum_sdiff (Finset.subset_univ _)
  change _ + hit (f t) = _ + hit b
  omega

omit [Fintype θ] in
/-- A value found after one member was updated is the new one or was there before. -/
theorem eq_or_eq_of_update [DecidableEq θ] {f : θ → α} {t u : θ} {a b : α}
    (h : Function.update f t b u = a) : b = a ∨ f u = a := by
  by_cases hu : u = t
  · rw [hu, Function.update_self] at h
    exact .inl h
  · rw [Function.update_of_ne hu] at h
    exact .inr h

end ServerSimple.Library
