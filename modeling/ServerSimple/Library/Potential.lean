import ServerSimple.Library.Runs
import Mathlib.Algebra.BigOperators.Group.Finset.Piecewise
import Mathlib.Algebra.Order.BigOperators.Group.Finset
import Mathlib.Data.Fintype.Basic

/-! # Potentials of runs

A natural number attached to every state bounds the runs of a system: each step pays one unit, and
the labels that stand for the environment bring a price of their own with them. The local states of
a finite family of threads contribute to such a number by a sum of weights.
-/

namespace ServerSimple.Library

section Runs

variable {σ ℓ : Type*} {step : σ → ℓ → Option σ}

/-- What the labels of a run come to, each at its own price. -/
def revenue (price : ℓ → ℕ) (labels : List ℓ) : ℕ :=
  labels.foldr (fun a sum => price a + sum) 0

theorem revenue_cons (price : ℓ → ℕ) (a : ℓ) (labels : List ℓ) :
    revenue price (a :: labels) = price a + revenue price labels := rfl

theorem revenue_one (labels : List ℓ) : revenue (fun _ => 1) labels = labels.length := by
  induction labels with
  | nil => rfl
  | cons a labels ih => rw [revenue_cons, ih, List.length_cons, Nat.add_comm]

/-- A run whose labels are good where they are taken costs no more than the potential it started with
and the prices brought along. -/
theorem guarded_cost_add_potential_le {good : σ → ℓ → Prop} {inv : σ → Prop} {potential : σ → ℕ}
    {cost price : ℓ → ℕ} (hinv : ∀ s a t, inv s → good s a → step s a = some t → inv t)
    (hpay : ∀ s a t, inv s → good s a → step s a = some t →
      potential t + cost a ≤ potential s + price a)
    {s u : σ} {labels : List ℓ} (hs : inv s) (hgood : Guarded step good s labels)
    (hrun : run step s labels = some u) :
    revenue cost labels + potential u ≤ potential s + revenue price labels := by
  induction labels generalizing s with
  | nil =>
    rw [run_nil, Option.some.injEq] at hrun
    simp [hrun, revenue]
  | cons a labels ih =>
    obtain ⟨t, ht, hu⟩ := run_cons_eq_some.mp hrun
    have hrest := ih (hinv s a t hs hgood.1 ht) (hgood.2 t ht) hu
    have hfirst := hpay s a t hs hgood.1 ht
    rw [revenue_cons, revenue_cons]
    omega

theorem cost_add_potential_le {inv : σ → Prop} {potential : σ → ℕ} {cost price : ℓ → ℕ}
    (hinv : ∀ s a t, inv s → step s a = some t → inv t)
    (hpay : ∀ s a t, inv s → step s a = some t → potential t + cost a ≤ potential s + price a)
    {s u : σ} {labels : List ℓ} (hs : inv s) (hrun : run step s labels = some u) :
    revenue cost labels + potential u ≤ potential s + revenue price labels :=
  guarded_cost_add_potential_le (fun s a t hs _ h => hinv s a t hs h)
    (fun s a t hs _ h => hpay s a t hs h) hs (guarded_true s labels) hrun

/-- Where every step costs one unit, this bounds the length of the run. -/
theorem length_add_potential_le {inv : σ → Prop} {potential : σ → ℕ} {price : ℓ → ℕ}
    (hinv : ∀ s a t, inv s → step s a = some t → inv t)
    (hpay : ∀ s a t, inv s → step s a = some t → potential t + 1 ≤ potential s + price a)
    {s u : σ} {labels : List ℓ} (hs : inv s) (hrun : run step s labels = some u) :
    labels.length + potential u ≤ potential s + revenue price labels := by
  rw [← revenue_one labels]
  exact cost_add_potential_le hinv hpay hs hrun

theorem revenue_ite (own : ℓ → Bool) (labels : List ℓ) :
    revenue (fun a => if own a then 1 else 0) labels = (labels.filter own).length := by
  induction labels with
  | nil => rfl
  | cons a labels ih =>
    rw [revenue_cons, ih]
    cases ha : own a with
    | true => rw [List.filter_cons_of_pos ha, List.length_cons, if_pos rfl, Nat.add_comm]
    | false => rw [List.filter_cons_of_neg (by simp [ha]), if_neg Bool.false_ne_true, Nat.zero_add]

theorem revenue_zero (labels : List ℓ) : revenue (fun _ => 0) labels = 0 := by
  induction labels with
  | nil => rfl
  | cons a labels ih => rw [revenue_cons, ih]

/-- Where the labels of one kind cost one unit and the others are free, this bounds how many of that
kind a run has. -/
theorem own_add_potential_le {inv : σ → Prop} {potential : σ → ℕ} {own : ℓ → Bool}
    (hinv : ∀ s a t, inv s → step s a = some t → inv t)
    (hpay : ∀ s a t, inv s → step s a = some t →
      potential t + (if own a then 1 else 0) ≤ potential s)
    {s u : σ} {labels : List ℓ} (hs : inv s) (hrun : run step s labels = some u) :
    (labels.filter own).length + potential u ≤ potential s := by
  have hbound := cost_add_potential_le hinv (fun s a t hs h => (hpay s a t hs h).trans (Nat.add_zero _).ge) hs
    hrun
  rwa [revenue_ite, revenue_zero, Nat.add_zero] at hbound

end Runs

section Weights

variable {θ α : Type*} (weight : α → ℕ)

/-- The weights of the members in a finite set together. -/
def totalOn (S : Finset θ) (f : θ → α) : ℕ := ∑ t ∈ S, weight (f t)

/-- The weight of the updated member is exchanged, all others stay. -/
theorem totalOn_update [DecidableEq θ] {S : Finset θ} (f : θ → α) {t : θ} (ht : t ∈ S) (b : α) :
    totalOn weight S (Function.update f t b) + weight (f t) = totalOn weight S f + weight b := by
  have hrest : ∑ u ∈ S.erase t, weight (Function.update f t b u) =
      ∑ u ∈ S.erase t, weight (f u) := by
    apply Finset.sum_congr rfl
    intro u hu
    rw [Function.update_of_ne (Finset.ne_of_mem_erase hu)]
  have hold := Finset.sum_erase_add S (fun u => weight (f u)) ht
  have hnew := Finset.sum_erase_add S (fun u => weight (Function.update f t b u)) ht
  rw [hrest, Function.update_self] at hnew
  unfold totalOn
  omega

variable [Fintype θ]

/-- The weights of all members of a family together. -/
def total (f : θ → α) : ℕ := ∑ t, weight (f t)

theorem total_update [DecidableEq θ] (f : θ → α) (t : θ) (b : α) :
    total weight (Function.update f t b) + weight (f t) = total weight f + weight b :=
  totalOn_update weight f (Finset.mem_univ t) b

/-- A change that raises no weight by more than one raises the total by at most the size of the
family. -/
theorem total_le_add_card {f g : θ → α} (h : ∀ t, weight (g t) ≤ weight (f t) + 1) :
    total weight g ≤ total weight f + Fintype.card θ := by
  calc total weight g ≤ ∑ t, (weight (f t) + 1) := Finset.sum_le_sum fun t _ => h t
    _ = total weight f + Fintype.card θ := by
      rw [Finset.sum_add_distrib, Finset.sum_const, Finset.card_univ]
      simp [total]

end Weights

end ServerSimple.Library
