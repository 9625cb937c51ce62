import ServerSimple.Library.Runs

/-! # Components in one state

Each component sees its own part of a common state and puts back what it has changed, without any
effect on what the others see. Whatever the order in which their steps are taken, every component goes
through a run of its own, and what lies outside of all parts stays as it was.
-/

namespace ServerSimple.Library

variable {ι γ : Type*} {σ ℓ : ι → Type*}

/-- How the components see the common state. -/
structure Parts (γ : Type*) (σ : ι → Type*) where
  view : (i : ι) → γ → σ i
  put : (i : ι) → γ → σ i → γ
  view_put : ∀ i g s, view i (put i g s) = s
  view_put_of_ne : ∀ {i j}, j ≠ i → ∀ g s, view j (put i g s) = view j g

/-- One component takes a step. -/
def Parts.step (parts : Parts γ σ) (step : (i : ι) → σ i → ℓ i → Option (σ i)) (g : γ)
    (label : Σ i, ℓ i) : Option γ :=
  (step label.1 (parts.view label.1 g) label.2).map (parts.put label.1 g)

/-- The labels of one component, in their order. -/
def labelsOf [DecidableEq ι] (i : ι) (labels : List (Σ i, ℓ i)) : List (ℓ i) :=
  labels.filterMap fun label => if h : label.1 = i then some (h ▸ label.2) else none

variable [DecidableEq ι]

theorem labelsOf_cons_self (i : ι) (a : ℓ i) (labels : List (Σ i, ℓ i)) :
    labelsOf i (⟨i, a⟩ :: labels) = a :: labelsOf i labels := by
  simp [labelsOf]

theorem labelsOf_cons_of_ne {i j : ι} (h : i ≠ j) (a : ℓ i) (labels : List (Σ i, ℓ i)) :
    labelsOf j (⟨i, a⟩ :: labels) = labelsOf j labels := by
  simp [labelsOf, h]

variable {parts : Parts γ σ} {step : (i : ι) → σ i → ℓ i → Option (σ i)} {g u : γ}
  {labels : List (Σ i, ℓ i)}

/-- Every component has gone through a run of its own. -/
theorem Parts.run_view (hrun : run (parts.step step) g labels = some u) (i : ι) :
    run (step i) (parts.view i g) (labelsOf i labels) = some (parts.view i u) := by
  induction labels generalizing g with
  | nil =>
    rw [run_nil, Option.some.injEq] at hrun
    rw [hrun]
    rfl
  | cons label labels ih =>
    obtain ⟨t, ht, hu⟩ := run_cons_eq_some.mp hrun
    obtain ⟨j, a⟩ := label
    obtain ⟨s, hs, rfl⟩ := Option.map_eq_some_iff.mp ht
    have hrest := ih hu
    by_cases hj : j = i
    · subst hj
      rw [parts.view_put] at hrest
      rw [labelsOf_cons_self]
      exact run_cons_eq_some.mpr ⟨s, hs, hrest⟩
    · rw [parts.view_put_of_ne (Ne.symm hj)] at hrest
      rwa [labelsOf_cons_of_ne hj]

/-- Runs of the components can be taken in any order. -/
theorem Parts.run_isSome (h : ∀ i, (run (step i) (parts.view i g) (labelsOf i labels)).isSome) :
    (run (parts.step step) g labels).isSome := by
  induction labels generalizing g with
  | nil => rfl
  | cons label labels ih =>
    obtain ⟨j, a⟩ := label
    obtain ⟨v, hv⟩ := Option.isSome_iff_exists.mp (h j)
    rw [labelsOf_cons_self] at hv
    obtain ⟨s, hs, hrest⟩ := run_cons_eq_some.mp hv
    have hstep : parts.step step g ⟨j, a⟩ = some (parts.put j g s) := by
      rw [Parts.step, hs, Option.map_some]
    obtain ⟨u, hu⟩ : ∃ u, run (parts.step step) (parts.put j g s) labels = some u := by
      apply Option.isSome_iff_exists.mp
      apply ih
      intro i
      by_cases hj : j = i
      · subst hj
        rw [parts.view_put, hrest]
        rfl
      · have hi := h i
        rw [labelsOf_cons_of_ne hj] at hi
        rwa [parts.view_put_of_ne (Ne.symm hj)]
    rw [run_cons_eq_some.mpr ⟨_, hstep, hu⟩]
    rfl

omit [DecidableEq ι] in
/-- What no component changes, no run changes. -/
theorem Parts.run_frame {α : Type*} (outside : γ → α)
    (hput : ∀ i g s, outside (parts.put i g s) = outside g)
    (hrun : run (parts.step step) g labels = some u) : outside u = outside g := by
  have hkeep : ∀ (s : γ) a t, outside s = outside g → parts.step step s a = some t →
      outside t = outside g := by
    intro s a t hs ht
    obtain ⟨v, -, rfl⟩ := Option.map_eq_some_iff.mp ht
    rw [hput, hs]
  exact run_invariant hkeep rfl hrun

end ServerSimple.Library
