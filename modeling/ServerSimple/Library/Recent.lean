import Mathlib.Data.List.DropRight
import Mathlib.Data.List.PeriodicityLemma

/-! # The last elements of a list

A bounded history keeps the last elements of everything that came. When the first elements of it are
kept instead, that goes unnoticed exactly if the history repeats itself.
-/

namespace ServerSimple.Library

variable {α β : Type*}

theorem rtake_of_length_le {l : List α} {n : ℕ} (h : l.length ≤ n) : l.rtake n = l := by
  rw [List.rtake, Nat.sub_eq_zero_of_le h, List.drop_zero]

theorem length_rtake (l : List α) (n : ℕ) : (l.rtake n).length = min n l.length := by
  rw [List.rtake, List.length_drop]
  omega

theorem map_rtake (f : α → β) (l : List α) (n : ℕ) : (l.rtake n).map f = (l.map f).rtake n := by
  rw [List.rtake, List.rtake, List.map_drop, List.length_map]

/-- What falls out of a longer history is not in a shorter one either. -/
theorem rtake_rtake {l : List α} {m n : ℕ} (h : m ≤ n) : (l.rtake n).rtake m = l.rtake m := by
  have hlength := length_rtake l n
  rw [List.rtake, hlength, List.rtake, List.drop_drop, List.rtake]
  congr 1
  omega

theorem rtake_append_of_le {l l' : List α} {n : ℕ} (h : n ≤ l'.length) :
    (l ++ l').rtake n = l'.rtake n := by
  have hskip : l.length ≤ (l ++ l').length - n := by
    rw [List.length_append]
    omega
  have hrest : (l ++ l').length - n - l.length = l'.length - n := by
    rw [List.length_append]
    omega
  rw [List.rtake, List.drop_append, List.drop_eq_nil_of_le hskip, hrest, List.nil_append, List.rtake]

/-- What has fallen out of a history makes no difference later. -/
theorem rtake_rtake_append (l l' : List α) (n : ℕ) :
    (l.rtake n ++ l').rtake n = (l ++ l').rtake n := by
  by_cases hle : l.length ≤ n
  · rw [rtake_of_length_le hle]
  · have hsplit : l ++ l' = l.take (l.length - n) ++ (l.rtake n ++ l') := by
      rw [← List.append_assoc, List.rtake, List.take_append_drop]
    have hlength : n ≤ (l.rtake n ++ l').length := by
      rw [List.length_append, length_rtake]
      omega
    rw [hsplit, rtake_append_of_le hlength]

/-- The first elements are the last ones exactly if the list repeats itself after as many steps as it
has elements too many. -/
theorem take_eq_rtake_iff (l : List α) (n : ℕ) :
    l.take n = l.rtake n ↔ l.HasPeriod (l.length - n) := by
  rw [List.hasPeriod_iff_getElem?, List.rtake, List.ext_getElem?_iff]
  simp only [List.getElem?_take, List.getElem?_drop]
  constructor
  · intro h i hi
    have hget := h i
    rw [if_pos (by omega)] at hget
    rw [hget, Nat.add_comm]
  · intro h i
    by_cases hi : i < n
    · rw [if_pos hi]
      by_cases hin : i < l.length - (l.length - n)
      · rw [h i hin, Nat.add_comm]
      · rw [List.getElem?_eq_none (by omega), List.getElem?_eq_none (by omega)]
    · rw [if_neg hi, List.getElem?_eq_none (by omega)]

/-- A list without repetitions does not repeat itself. -/
theorem take_eq_rtake_iff_of_nodup {l : List α} (h : l.Nodup) (n : ℕ) :
    l.take n = l.rtake n ↔ n = 0 ∨ l.length ≤ n := by
  constructor
  · intro heq
    by_contra! hne
    obtain ⟨hpos, hlt⟩ := hne
    rw [take_eq_rtake_iff, List.hasPeriod_iff_getElem?] at heq
    have hget := heq 0 (by omega)
    have hindex := (List.getElem?_inj (by omega) h).mp hget
    omega
  · rintro (rfl | hle)
    · rw [List.take_zero, List.rtake_zero]
    · rw [List.take_of_length_le hle, rtake_of_length_le hle]

end ServerSimple.Library
