import Mathlib.Data.List.Sort
import Mathlib.Data.List.Infix

/-! # Insertion before the first element that comes later

`List.orderedInsert r a` puts `a` before the first element `b` with `r a b`. For a strict order this
is where the ordered containers of the standard library put a new element: after all that are not
behind it. The facts below ask only that the new element compares with those in the list.
-/

namespace ServerSimple.Library

variable {α : Type*} {r : α → α → Prop} [DecidableRel r]

theorem pairwise_orderedInsert {a : α} {l : List α} (htrans : ∀ x y z, r x y → r y z → r x z)
    (htotal : ∀ b ∈ l, ¬ r a b → r b a) (h : l.Pairwise r) : (l.orderedInsert r a).Pairwise r := by
  induction l with
  | nil => simp
  | cons b l ih =>
    rw [List.pairwise_cons] at h
    rw [List.orderedInsert_cons]
    split_ifs with hab
    · rw [List.pairwise_cons, List.pairwise_cons]
      refine ⟨?_, h⟩
      intro c hc
      rcases List.mem_cons.mp hc with rfl | hc
      · exact hab
      · exact htrans a b c hab (h.1 c hc)
    · rw [List.pairwise_cons]
      refine ⟨?_, ih (fun c hc => htotal c (List.mem_cons_of_mem b hc)) h.2⟩
      intro c hc
      rcases (List.mem_orderedInsert r).mp hc with rfl | hc
      · exact htotal b List.mem_cons_self hab
      · exact h.1 c hc

/-- The same for lists with ties, in which only nobody is put before an earlier one. -/
theorem pairwise_not_orderedInsert {a : α} {l : List α} (htrans : ∀ x y z, r x y → r y z → r x z)
    (hasymm : ∀ x y, r x y → ¬ r y x) (h : l.Pairwise fun x y => ¬ r y x) :
    (l.orderedInsert r a).Pairwise fun x y => ¬ r y x := by
  induction l with
  | nil => simp
  | cons b l ih =>
    rw [List.pairwise_cons] at h
    rw [List.orderedInsert_cons]
    split_ifs with hab
    · rw [List.pairwise_cons, List.pairwise_cons]
      refine ⟨?_, h⟩
      intro c hc
      rcases List.mem_cons.mp hc with rfl | hc
      · exact hasymm a c hab
      · exact fun hca => h.1 c hc (htrans c a b hca hab)
    · rw [List.pairwise_cons]
      refine ⟨?_, ih h.2⟩
      intro c hc
      rcases (List.mem_orderedInsert r).mp hc with rfl | hc
      · exact hab
      · exact h.1 c hc

/-- A map that keeps what the new element is before; `List.map_orderedInsert` also asks for what is
before the new element. -/
theorem map_orderedInsert_right {β : Type*} {t : β → β → Prop} [DecidableRel t] (f : α → β) {a : α}
    {l : List α} (h : ∀ b ∈ l, r a b ↔ t (f a) (f b)) :
    (l.orderedInsert r a).map f = (l.map f).orderedInsert t (f a) := by
  induction l with
  | nil => rfl
  | cons b l ih =>
    have hb := h b List.mem_cons_self
    rw [List.map_cons, List.orderedInsert_cons, List.orderedInsert_cons]
    by_cases hab : r a b
    · rw [if_pos hab, if_pos (hb.mp hab), List.map_cons, List.map_cons]
    · rw [if_neg hab, if_neg (mt hb.mpr hab), List.map_cons,
        ih fun c hc => h c (List.mem_cons_of_mem b hc)]

theorem orderedInsert_congr {t : α → α → Prop} [DecidableRel t] {a : α} {l : List α}
    (h : ∀ b ∈ l, r a b ↔ t a b) : l.orderedInsert r a = l.orderedInsert t a := by
  simpa using map_orderedInsert_right (t := t) id h

/-- Nothing is behind the new element: it goes to the end. -/
theorem orderedInsert_eq_append {a : α} {l : List α} (h : ∀ b ∈ l, ¬ r a b) :
    l.orderedInsert r a = l ++ [a] := by
  induction l with
  | nil => rfl
  | cons b l ih =>
    rw [List.orderedInsert_of_not_le _ l (h b List.mem_cons_self),
      ih fun c hc => h c (List.mem_cons_of_mem b hc), List.cons_append]

/-- The new element goes in at the index of the first one that it is before. -/
theorem orderedInsert_eq_insertIdx (a : α) (l : List α) :
    l.orderedInsert r a = l.insertIdx (l.findIdx fun b => r a b) a := by
  induction l with
  | nil => rfl
  | cons b l ih =>
    rw [List.orderedInsert_cons, List.findIdx_cons]
    by_cases hab : r a b
    · simp [hab]
    · simp [hab, ih]

/-- The others are as before. -/
theorem filter_orderedInsert_of_neg {a : α} {l : List α} {p : α → Bool} (ha : p a = false) :
    (l.orderedInsert r a).filter p = l.filter p := by
  induction l with
  | nil => simp [ha]
  | cons b l ih =>
    rw [List.orderedInsert_cons]
    split_ifs
    · rw [List.filter_cons_of_neg (by simp [ha])]
    · rw [List.filter_cons, List.filter_cons, ih]

/-- The position at which the new element is found again. -/
theorem findIdx?_orderedInsert {a : α} {l : List α} {p : α → Bool} (ha : p a = true)
    (hl : ∀ b ∈ l, p b = false) :
    (l.orderedInsert r a).findIdx? p = some (l.findIdx fun b => r a b) := by
  induction l with
  | nil => simp [ha]
  | cons b l ih =>
    have hb := hl b List.mem_cons_self
    rw [List.orderedInsert_cons, List.findIdx_cons]
    by_cases hab : r a b
    · simp [hab, ha, List.findIdx?_cons]
    · simp [hab, hb, List.findIdx?_cons, ih fun c hc => hl c (List.mem_cons_of_mem b hc)]

/-- What is cut off at the end has no influence on what is kept. -/
theorem take_orderedInsert (a : α) (l : List α) (k : ℕ) :
    ((l.take k).orderedInsert r a).take k = (l.orderedInsert r a).take k := by
  induction l generalizing k with
  | nil => simp
  | cons b l ih =>
    cases k with
    | zero => simp
    | succ k =>
      rw [List.take_succ_cons, List.orderedInsert_cons, List.orderedInsert_cons]
      split_ifs with hab
      · cases k with
        | zero => simp
        | succ k => simp [List.take_take]
      · rw [List.take_succ_cons, List.take_succ_cons, ih]

/-- An element that goes in among the first `k` pushes the others back by one. -/
theorem take_succ_orderedInsert {a : α} {l : List α} {k : ℕ}
    (h : k < l.length → ∃ b ∈ l.take (k + 1), r a b) :
    (l.orderedInsert r a).take (k + 1) = (l.take k).orderedInsert r a := by
  induction l generalizing k with
  | nil => simp
  | cons b l ih =>
    by_cases hab : r a b
    · rw [List.orderedInsert_cons_of_le _ l hab, List.take_succ_cons]
      cases k with
      | zero => simp
      | succ k => rw [List.take_succ_cons, List.orderedInsert_cons_of_le _ _ hab]
    · cases k with
      | zero =>
        obtain ⟨c, hc, hac⟩ := h (by simp)
        rw [List.take_succ_cons, List.take_zero, List.mem_singleton] at hc
        exact absurd (hc ▸ hac) hab
      | succ k =>
        rw [List.orderedInsert_of_not_le _ l hab, List.take_succ_cons, List.take_succ_cons,
          List.orderedInsert_of_not_le _ _ hab, ih]
        intro hk
        obtain ⟨c, hc, hac⟩ := h (by simpa using hk)
        rw [List.take_succ_cons, List.mem_cons] at hc
        rcases hc with rfl | hc
        · exact absurd hac hab
        · exact ⟨c, hc, hac⟩

end ServerSimple.Library
