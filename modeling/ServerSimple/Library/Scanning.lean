import Mathlib.Data.List.Basic

/-! # Scanning a string by indices

`findFrom` and `substr` are the searching and the cutting of the standard strings, with absolute
indices. A search splits what is left of the string at the first occurrence, and the substring up to
the index it returns is the piece that it skipped.
-/

namespace ServerSimple.Library

variable {α : Type*} {s u v : List α} {start : ℕ}

/-- At most `count` elements from `pos` on; nothing if `pos` is past the end. -/
def substr (s : List α) (pos count : ℕ) : Option (List α) :=
  if pos ≤ s.length then some ((s.drop pos).take count) else none

/-- All elements from `pos` on. -/
def substrFrom (s : List α) (pos : ℕ) : Option (List α) :=
  if pos ≤ s.length then some (s.drop pos) else none

theorem substr_eq (hstart : start ≤ s.length) (h : s.drop start = u ++ v) :
    substr s start u.length = some u := by
  rw [substr, if_pos hstart, h, List.take_left]

/-- An index is inside the string when something is left behind it. -/
theorem lt_length_of_drop {a : α} (h : s.drop start = u ++ a :: v) :
    start + u.length < s.length := by
  have hlength := congrArg List.length h
  simp only [List.length_drop, List.length_append, List.length_cons] at hlength
  omega

theorem drop_next {a : α} (h : s.drop start = u ++ a :: v) : s.drop (start + u.length + 1) = v := by
  rw [Nat.add_assoc, ← List.drop_drop, h, ← List.drop_drop, List.drop_left, List.drop_one,
    List.tail_cons]

theorem substrFrom_next {a : α} (h : s.drop start = u ++ a :: v) :
    substrFrom s (start + u.length + 1) = some v := by
  rw [substrFrom, if_pos (Nat.succ_le_of_lt (lt_length_of_drop h)), drop_next h]

variable [DecidableEq α] {a : α}

/-- The index of the first `a` at or behind `start`. -/
def findFrom (a : α) (s : List α) (start : ℕ) : Option ℕ :=
  ((s.drop start).idxOf? a).map (start + ·)

theorem findFrom_eq_none : findFrom a s start = none ↔ a ∉ s.drop start := by
  rw [findFrom, Option.map_eq_none_iff, List.idxOf?_eq_none_iff]

theorem idxOf?_append_cons (ha : a ∉ u) : (u ++ a :: v).idxOf? a = some u.length := by
  induction u with
  | nil => rw [List.nil_append, List.idxOf?_cons, if_pos (beq_self_eq_true a), List.length_nil]
  | cons b u ih =>
    rw [List.mem_cons, not_or] at ha
    have hne : (b == a) ≠ true := by simpa using Ne.symm ha.1
    rw [List.cons_append, List.idxOf?_cons, if_neg hne, ih ha.2, Option.map_some, List.length_cons]

theorem findFrom_eq_some (h : s.drop start = u ++ a :: v) (ha : a ∉ u) :
    findFrom a s start = some (start + u.length) := by
  rw [findFrom, h, idxOf?_append_cons ha, Option.map_some]

/-- A search never goes back. -/
theorem le_of_findFrom {i : ℕ} (h : findFrom a s start = some i) : start ≤ i := by
  obtain ⟨j, -, rfl⟩ := Option.map_eq_some_iff.mp h
  exact Nat.le_add_right start j

/-- The pieces before and behind the first `a`. -/
def cut (a : α) : List α → Option (List α × List α)
  | [] => none
  | b :: s => if b = a then some ([], s) else (cut a s).map fun p => (b :: p.1, p.2)

theorem cut_append_cons (ha : a ∉ u) : cut a (u ++ a :: v) = some (u, v) := by
  induction u with
  | nil => exact if_pos rfl
  | cons b u ih =>
    rw [List.mem_cons, not_or] at ha
    rw [List.cons_append, cut, if_neg (Ne.symm ha.1), ih ha.2, Option.map_some]

theorem cut_eq_none (ha : a ∉ s) : cut a s = none := by
  induction s with
  | nil => rfl
  | cons b s ih =>
    rw [List.mem_cons, not_or] at ha
    rw [cut, if_neg (Ne.symm ha.1), ih ha.2, Option.map_none]

/-- A string contains no `a`, or the first one cuts it. -/
theorem cut_cases (a : α) (s : List α) :
    (a ∉ s ∧ cut a s = none) ∨ ∃ u v, s = u ++ a :: v ∧ a ∉ u ∧ cut a s = some (u, v) := by
  by_cases ha : a ∈ s
  · obtain ⟨u, v, rfl, hu⟩ := List.eq_append_cons_of_mem ha
    exact .inr ⟨u, v, rfl, hu, cut_append_cons hu⟩
  · exact .inl ⟨ha, cut_eq_none ha⟩

theorem cut_eq_some : cut a s = some (u, v) ↔ s = u ++ a :: v ∧ a ∉ u := by
  constructor
  · intro h
    rcases cut_cases a s with ⟨-, hnone⟩ | ⟨u', v', hs, hu, hsome⟩
    · rw [hnone] at h
      cases h
    · rw [hsome] at h
      cases h
      exact ⟨hs, hu⟩
  · rintro ⟨rfl, hu⟩
    exact cut_append_cons hu

/-- The pieces before and behind the last `a`. -/
def cutLast (a : α) (s : List α) : Option (List α × List α) :=
  (cut a s.reverse).map fun p => (p.2.reverse, p.1.reverse)

theorem cutLast_append_cons (ha : a ∉ v) : cutLast a (u ++ a :: v) = some (u, v) := by
  have hrev : (u ++ a :: v).reverse = v.reverse ++ a :: u.reverse := by simp
  rw [cutLast, hrev, cut_append_cons (by rwa [List.mem_reverse]), Option.map_some,
    List.reverse_reverse, List.reverse_reverse]

theorem cutLast_cases (a : α) (s : List α) :
    (a ∉ s ∧ cutLast a s = none) ∨
      ∃ u v, s = u ++ a :: v ∧ a ∉ v ∧ cutLast a s = some (u, v) := by
  rcases cut_cases a s.reverse with ⟨hs, hnone⟩ | ⟨v, u, hs, hv, -⟩
  · rw [List.mem_reverse] at hs
    exact .inl ⟨hs, by rw [cutLast, hnone, Option.map_none]⟩
  · have hs' : s = u.reverse ++ a :: v.reverse := by
      rw [← List.reverse_reverse s, hs]
      simp
    have hv' : a ∉ v.reverse := by rwa [List.mem_reverse]
    subst hs'
    exact .inr ⟨u.reverse, v.reverse, rfl, hv', cutLast_append_cons hv'⟩

end ServerSimple.Library
