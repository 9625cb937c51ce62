import ServerSimple.Library.Runs

/-! # Runs with observations

Each step also says what can be observed of it. Two runs that differ only in steps of which nothing
is observed are related step by step; the states between need not be equal.
-/

namespace ServerSimple.Library

variable {σ ℓ ο : Type*}

/-- Take the labels in order and collect what is observed. -/
def trace (step : σ → ℓ → Option (σ × List ο)) (s : σ) : List ℓ → Option (σ × List ο)
  | [] => some (s, [])
  | a :: labels => (step s a).bind fun first =>
    (trace step first.1 labels).map fun rest => (rest.1, first.2 ++ rest.2)

variable {step : σ → ℓ → Option (σ × List ο)}

theorem trace_cons {s t : σ} {a : ℓ} {out : List ο} (labels : List ℓ)
    (h : step s a = some (t, out)) :
    trace step s (a :: labels) =
      (trace step t labels).map fun rest => (rest.1, out ++ rest.2) := by
  rw [trace, h, Option.bind_some]

/-- Silent labels can be left out: they keep the states related and show nothing, while the others
show the same in related states. -/
theorem trace_erase_silent (related : σ → σ → Prop) {silent : ℓ → Bool} {good : σ → ℓ → Prop}
    (hvisible : ∀ s s' a, related s s' → silent a = false → good s' a →
      ∃ t t' out, step s a = some (t, out) ∧ step s' a = some (t', out) ∧ related t t')
    (hsilent : ∀ s s' a, related s s' → silent a = true →
      ∃ t, step s a = some (t, []) ∧ related t s')
    {s s' : σ} {labels : List ℓ} (h : related s s')
    (hgood : Guarded (fun s a => (step s a).map Prod.fst) good s'
      (labels.filter fun a => !silent a)) :
    ∃ u u' out, trace step s labels = some (u, out) ∧
      trace step s' (labels.filter fun a => !silent a) = some (u', out) ∧ related u u' := by
  induction labels generalizing s s' with
  | nil => exact ⟨s, s', [], rfl, rfl, h⟩
  | cons a labels ih =>
    cases ha : silent a with
    | true =>
      rw [List.filter_cons_of_neg (by simp [ha])] at hgood ⊢
      obtain ⟨t, hstep, ht⟩ := hsilent s s' a h ha
      obtain ⟨u, u', out, hu, hu', hrelated⟩ := ih ht hgood
      refine ⟨u, u', out, ?_, hu', hrelated⟩
      rw [trace_cons labels hstep, hu]
      rfl
    | false =>
      rw [List.filter_cons_of_pos (by simp [ha])] at hgood ⊢
      obtain ⟨t, t', shown, hstep, hstep', ht⟩ := hvisible s s' a h ha hgood.1
      obtain ⟨u, u', out, hu, hu', hrelated⟩ :=
        ih ht (hgood.2 t' (congrArg (Option.map Prod.fst) hstep'))
      refine ⟨u, u', shown ++ out, ?_, ?_, hrelated⟩
      · rw [trace_cons labels hstep, hu]
        rfl
      · rw [trace_cons _ hstep', hu']
        rfl

section Observing

variable {plain : σ → ℓ → Option σ} {shows : σ → ℓ → List ο}

/-- A step function with what its labels show in the states in which they are taken. -/
def observing (plain : σ → ℓ → Option σ) (shows : σ → ℓ → List ο) (s : σ) (a : ℓ) :
    Option (σ × List ο) :=
  (plain s a).map fun t => (t, shows s a)

/-- What one good step preserves between the state and all that was shown, a guarded run preserves. -/
theorem observing_invariant {good : σ → ℓ → Prop} {inv : List ο → σ → Prop}
    (hstep : ∀ log s a t, inv log s → good s a → plain s a = some t → inv (log ++ shows s a) t)
    {s u : σ} {log out : List ο} {labels : List ℓ} (hs : inv log s)
    (hgood : Guarded plain good s labels)
    (hrun : trace (observing plain shows) s labels = some (u, out)) : inv (log ++ out) u := by
  induction labels generalizing s log out with
  | nil =>
    rw [trace, Option.some.injEq, Prod.mk.injEq] at hrun
    obtain ⟨rfl, rfl⟩ := hrun
    rwa [List.append_nil]
  | cons a labels ih =>
    cases ht : plain s a with
    | none => simp [trace, observing, ht] at hrun
    | some t =>
      have hfirst : observing plain shows s a = some (t, shows s a) := by
        rw [observing, ht, Option.map_some]
      rw [trace_cons labels hfirst, Option.map_eq_some_iff] at hrun
      obtain ⟨⟨u', later⟩, hlater, heq⟩ := hrun
      cases heq
      rw [← List.append_assoc]
      exact ih (hstep log s a t hs hgood.1 ht) (hgood.2 t ht) hlater

end Observing

end ServerSimple.Library
