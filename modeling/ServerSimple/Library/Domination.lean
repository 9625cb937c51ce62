import Mathlib.Data.List.Sort

/-! # Lists that are at least as good, place by place

One list dominates another when every place of the other one is taken by something at least as good.
Inserting into a sorted list dominates the list, also when something that is no better is taken out
at the same time.
-/

namespace ServerSimple.Library

variable {α : Type*} (w : α → α → Prop)

/-- Every place of `l` is taken in `m`, by something that is at least as good. -/
def Dominates (m l : List α) : Prop :=
  ∀ (i : ℕ) (b : α), l[i]? = some b → ∃ a, m[i]? = some a ∧ w a b

variable {w} {l m n : List α} {a b : α}

theorem dominates_nil (m : List α) : Dominates w m [] := by
  intro i b hb
  cases hb

theorem dominates_cons_iff : Dominates w (a :: m) (b :: l) ↔ w a b ∧ Dominates w m l := by
  constructor
  · intro h
    constructor
    · obtain ⟨c, hc, hw⟩ := h 0 b rfl
      cases hc
      exact hw
    · intro i c hc
      exact h (i + 1) c hc
  · rintro ⟨hw, h⟩ i c hc
    cases i with
    | zero =>
      cases hc
      exact ⟨a, rfl, hw⟩
    | succ i => exact h i c hc

/-- What is cut off behind the end of the other list is not needed. -/
theorem Dominates.take (h : Dominates w m l) {k : ℕ} (hk : l.length ≤ k) :
    Dominates w (m.take k) l := by
  intro i b hb
  obtain ⟨a, ha, hw⟩ := h i b hb
  have hlt : i < l.length := (List.getElem?_eq_some_iff.mp hb).1
  refine ⟨a, ?_, hw⟩
  rw [List.getElem?_take_of_lt (by omega), ha]

theorem dominates_refl (hrefl : ∀ a, w a a) (l : List α) : Dominates w l l :=
  fun _ b hb => ⟨b, hb, hrefl b⟩

theorem Dominates.trans (htrans : ∀ a b c, w a b → w b c → w a c) (h : Dominates w n m)
    (h' : Dominates w m l) : Dominates w n l := by
  intro i b hb
  obtain ⟨a, ha, hab⟩ := h' i b hb
  obtain ⟨c, hc, hca⟩ := h i a ha
  exact ⟨c, hc, htrans c a b hca hab⟩

section Insertion

variable {r : α → α → Prop} [DecidableRel r] (hrefl : ∀ a, w a a)
  (htrans : ∀ a b c, w a b → w b c → w a c) (hof : ∀ a b, r a b → w a b)
  (hof_not : ∀ a b, ¬ r a b → w b a)

include hrefl in
/-- In a sorted list everyone may move back by one place, up to one who is taken out. -/
theorem dominates_cons_eraseIdx (i : ℕ) (h : (b :: l).Pairwise w) :
    Dominates w (b :: l.eraseIdx i) l := by
  induction l generalizing b i with
  | nil => exact dominates_nil _
  | cons c l ih =>
    rw [List.pairwise_cons] at h
    have hbc := h.1 c List.mem_cons_self
    cases i with
    | zero => exact dominates_cons_iff.mpr ⟨hbc, dominates_refl hrefl l⟩
    | succ i => exact dominates_cons_iff.mpr ⟨hbc, ih i h.2⟩

include hrefl in
theorem dominates_cons_self (h : (b :: l).Pairwise w) : Dominates w (b :: l) l := by
  have hnone := dominates_cons_eraseIdx hrefl l.length h
  rwa [List.eraseIdx_of_length_le le_rfl] at hnone

include hrefl hof in
/-- Nobody gets worse by an insertion. -/
theorem dominates_orderedInsert (h : l.Pairwise w) : Dominates w (l.orderedInsert r a) l := by
  induction l with
  | nil => exact dominates_nil _
  | cons b l ih =>
    rw [List.orderedInsert_cons]
    split_ifs with hab
    · exact dominates_cons_iff.mpr ⟨hof a b hab, dominates_cons_self hrefl h⟩
    · exact dominates_cons_iff.mpr ⟨hrefl b, ih (List.pairwise_cons.mp h).2⟩

include hrefl htrans hof_not in
/-- Taking out the first and putting in someone who is at least as good. -/
theorem dominates_orderedInsert_tail (hab : w a b) (h : (b :: l).Pairwise w) :
    Dominates w (l.orderedInsert r a) (b :: l) := by
  induction l generalizing b with
  | nil => exact dominates_cons_iff.mpr ⟨hab, dominates_nil _⟩
  | cons c l ih =>
    rw [List.pairwise_cons] at h
    have hbc := h.1 c List.mem_cons_self
    rw [List.orderedInsert_cons]
    split_ifs with hac
    · exact dominates_cons_iff.mpr ⟨hab, dominates_refl hrefl (c :: l)⟩
    · refine dominates_cons_iff.mpr ⟨htrans c a b (hof_not a c hac) hab, ?_⟩
      exact ih (htrans a b c hab hbc) h.2

include hrefl htrans hof hof_not in
/-- The same anywhere in the list: someone moves up, and nobody's place gets worse. -/
theorem dominates_orderedInsert_eraseIdx {i : ℕ} (hb : l[i]? = some b) (hab : w a b)
    (h : l.Pairwise w) : Dominates w ((l.eraseIdx i).orderedInsert r a) l := by
  induction l generalizing i with
  | nil => cases hb
  | cons c l ih =>
    cases i with
    | zero =>
      cases hb
      exact dominates_orderedInsert_tail hrefl htrans hof_not hab h
    | succ i =>
      rw [List.eraseIdx_cons_succ, List.orderedInsert_cons]
      split_ifs with hac
      · exact dominates_cons_iff.mpr ⟨hof a c hac, dominates_cons_eraseIdx hrefl i h⟩
      · exact dominates_cons_iff.mpr ⟨hrefl c, ih hb (List.pairwise_cons.mp h).2⟩

end Insertion

end ServerSimple.Library
