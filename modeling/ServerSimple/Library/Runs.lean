import Mathlib.Data.Option.Basic
import Mathlib.Data.List.Basic

/-! # Finite runs of a partial step function

A component is a state type, a label type and a step function that is undefined where the label
cannot happen. A label carries every choice of the environment, so a run is just a list of labels.
Invariants are proved for one step and carried along whole runs by the rules below.
-/

namespace ServerSimple.Library

variable {σ ℓ : Type*}

/-- Take the labels in order; undefined as soon as one of them cannot happen. -/
def run (step : σ → ℓ → Option σ) (s : σ) (labels : List ℓ) : Option σ :=
  labels.foldlM step s

variable {step : σ → ℓ → Option σ}

@[simp] theorem run_nil (s : σ) : run step s [] = some s := rfl

theorem run_cons_eq_some {s u : σ} {a : ℓ} {labels : List ℓ} :
    run step s (a :: labels) = some u ↔ ∃ t, step s a = some t ∧ run step t labels = some u := by
  simp only [run, List.foldlM_cons, Option.bind_eq_bind, Option.bind_eq_some_iff]

/-- Every label of the run is taken in a state in which it is `good`. -/
def Guarded (step : σ → ℓ → Option σ) (good : σ → ℓ → Prop) : σ → List ℓ → Prop
  | _, [] => True
  | s, a :: labels => good s a ∧ ∀ t, step s a = some t → Guarded step good t labels

instance Guarded.decidable (step : σ → ℓ → Option σ) (good : σ → ℓ → Prop)
    [∀ s a, Decidable (good s a)] : ∀ s labels, Decidable (Guarded step good s labels)
  | _, [] => .isTrue trivial
  | s, a :: labels =>
    haveI : Decidable (∀ t, step s a = some t → Guarded step good t labels) :=
      match step s a with
      | none => .isTrue fun _ h => absurd h (Option.some_ne_none _).symm
      | some t =>
        haveI := Guarded.decidable step good t labels
        decidable_of_iff (Guarded step good t labels)
          ⟨fun h _ ht => Option.some.inj ht ▸ h, fun h => h t rfl⟩
    inferInstanceAs (Decidable (_ ∧ _))

/-- What one good step preserves, a guarded run preserves. -/
theorem guarded_run_invariant {good : σ → ℓ → Prop} {inv : σ → Prop}
    (hstep : ∀ s a t, inv s → good s a → step s a = some t → inv t)
    {s u : σ} {labels : List ℓ} (hs : inv s) (hgood : Guarded step good s labels)
    (hrun : run step s labels = some u) : inv u := by
  induction labels generalizing s with
  | nil =>
    rw [run_nil, Option.some.injEq] at hrun
    exact hrun ▸ hs
  | cons a labels ih =>
    obtain ⟨t, ht, hu⟩ := run_cons_eq_some.mp hrun
    exact ih (hstep s a t hs hgood.1 ht) (hgood.2 t ht) hu

theorem guarded_true (s : σ) (labels : List ℓ) : Guarded step (fun _ _ => True) s labels := by
  induction labels generalizing s with
  | nil => trivial
  | cons a labels ih => exact ⟨trivial, fun t _ => ih t⟩

theorem guarded_of_forall_mem {E : ℓ → Prop} (s : σ) {labels : List ℓ} (h : ∀ a ∈ labels, E a) :
    Guarded step (fun _ a => E a) s labels := by
  induction labels generalizing s with
  | nil => trivial
  | cons a labels ih =>
    exact ⟨h a List.mem_cons_self, fun t _ => ih t fun b hb => h b (List.mem_cons_of_mem a hb)⟩

theorem Guarded.and {good good' : σ → ℓ → Prop} {s : σ} {labels : List ℓ}
    (h : Guarded step good s labels) (h' : Guarded step good' s labels) :
    Guarded step (fun s a => good s a ∧ good' s a) s labels := by
  induction labels generalizing s with
  | nil => trivial
  | cons a labels ih => exact ⟨⟨h.1, h'.1⟩, fun t ht => ih (h.2 t ht) (h'.2 t ht)⟩

/-- Conditions on the labels that agree in the states of a run agree on the run. -/
theorem guarded_congr {good A B : σ → ℓ → Prop} {inv : σ → Prop}
    (hstep : ∀ s a t, inv s → good s a → step s a = some t → inv t)
    (hiff : ∀ s a t, inv s → step s a = some t → (A s a ↔ B s a)) {s u : σ} {labels : List ℓ}
    (hs : inv s) (hgood : Guarded step good s labels) (hrun : run step s labels = some u) :
    Guarded step A s labels ↔ Guarded step B s labels := by
  induction labels generalizing s with
  | nil => rfl
  | cons a labels ih =>
    obtain ⟨t, ht, hu⟩ := run_cons_eq_some.mp hrun
    have hrest := ih (hstep s a t hs hgood.1 ht) (hgood.2 t ht) hu
    simp only [Guarded, ht, Option.some.injEq, forall_eq', hiff s a t hs ht, hrest]

/-- What every step preserves, every run preserves. -/
theorem run_invariant {inv : σ → Prop} (hstep : ∀ s a t, inv s → step s a = some t → inv t)
    {s u : σ} {labels : List ℓ} (hs : inv s) (hrun : run step s labels = some u) : inv u :=
  guarded_run_invariant (fun s a t hs _ h => hstep s a t hs h) hs (guarded_true s labels) hrun

/-- A property that only labels of one kind bring about, for good, tells whether the run has one. -/
theorem run_brought_about {P : σ → Prop} {E : ℓ → Prop}
    (hstep : ∀ s a t, step s a = some t → (P t ↔ P s ∨ E a)) {s u : σ} {labels : List ℓ}
    (hrun : run step s labels = some u) : P u ↔ P s ∨ ∃ a ∈ labels, E a := by
  induction labels generalizing s with
  | nil =>
    rw [run_nil, Option.some.injEq] at hrun
    simp [hrun]
  | cons a labels ih =>
    obtain ⟨t, ht, hu⟩ := run_cons_eq_some.mp hrun
    rw [ih hu, hstep s a t ht, or_assoc]
    simp

/-- A run can be taken in parts. -/
theorem run_append (s : σ) (first rest : List ℓ) :
    run step s (first ++ rest) = (run step s first).bind fun t => run step t rest := by
  simp only [run, List.foldlM_append, Option.bind_eq_bind]

/-- Rounds that lead from each stage to the next one lead to every stage. -/
theorem exists_run_rounds {stage : ℕ → σ → Prop} {s : σ}
    (hzero : ∃ labels t, run step s labels = some t ∧ stage 0 t)
    (hround : ∀ n t, stage n t → ∃ labels u, run step t labels = some u ∧ stage (n + 1) u) (n : ℕ) :
    ∃ labels t, run step s labels = some t ∧ stage n t := by
  induction n with
  | zero => exact hzero
  | succ n ih =>
    obtain ⟨labels, t, ht, hstage⟩ := ih
    obtain ⟨round, u, hu, hnext⟩ := hround n t hstage
    refine ⟨labels ++ round, u, ?_, hnext⟩
    rw [run_append, ht, Option.bind_some, hu]

end ServerSimple.Library
