import ServerSimple.Library.Recent
import Mathlib.Data.Finset.Card

/-! # Bounded queues without repetition

Elements with a key that is in the queue are ignored; others go to the end, and the first element
leaves when there are too many. A key that has left can come again, so two queues of different
capacities do not in general agree on their last elements.
-/

namespace ServerSimple.Library

variable {α κ : Type*} [DecidableEq κ] (key : α → κ)

def enqueue (capacity : ℕ) (queue : List α) (a : α) : List α :=
  if key a ∈ queue.map key then queue else (queue ++ [a]).rtake capacity

variable {key} {capacity : ℕ} {queue : List α} {a : α}

theorem enqueue_of_mem (h : key a ∈ queue.map key) : enqueue key capacity queue a = queue := if_pos h

theorem enqueue_of_notMem (h : key a ∉ queue.map key) :
    enqueue key capacity queue a = (queue ++ [a]).rtake capacity := if_neg h

theorem mem_enqueue {b : α} (h : b ∈ enqueue key capacity queue a) : b ∈ queue ∨ b = a := by
  by_cases hmem : key a ∈ queue.map key
  · rw [enqueue_of_mem hmem] at h
    exact .inl h
  · rw [enqueue_of_notMem hmem] at h
    have hb := List.mem_of_mem_drop h
    rwa [List.mem_append, List.mem_singleton] at hb

theorem length_enqueue_le (h : queue.length ≤ capacity) :
    (enqueue key capacity queue a).length ≤ capacity := by
  by_cases hmem : key a ∈ queue.map key
  · rwa [enqueue_of_mem hmem]
  · rw [enqueue_of_notMem hmem, length_rtake]
    exact min_le_left _ _

omit [DecidableEq κ] in
theorem nodup_append_singleton (h : (queue.map key).Nodup) (hmem : key a ∉ queue.map key) :
    ((queue ++ [a]).map key).Nodup := by
  rw [List.map_append, List.map_singleton, (List.perm_append_singleton _ _).nodup_iff,
    List.nodup_cons]
  exact ⟨hmem, h⟩

theorem nodup_enqueue (h : (queue.map key).Nodup) :
    ((enqueue key capacity queue a).map key).Nodup := by
  by_cases hmem : key a ∈ queue.map key
  · rwa [enqueue_of_mem hmem]
  · rw [enqueue_of_notMem hmem]
    exact (nodup_append_singleton h hmem).sublist ((List.drop_sublist _ _).map key)

theorem nodup_foldl_enqueue (h : (queue.map key).Nodup) (as : List α) :
    ((as.foldl (enqueue key capacity) queue).map key).Nodup := by
  induction as generalizing queue with
  | nil => exact h
  | cons a as ih => exact ih (nodup_enqueue h)

theorem length_le_card (h : (queue.map key).Nodup) (as : List α) :
    queue.length ≤ ((queue ++ as).map key).toFinset.card := by
  have hcard := List.toFinset_card_of_nodup h
  rw [List.length_map] at hcard
  rw [← hcard]
  apply Finset.card_le_card
  intro k hk
  rw [List.mem_toFinset] at *
  rw [List.map_append]
  exact List.mem_append_left _ hk

theorem toFinset_of_mem (h : key a ∈ queue.map key) (as : List α) :
    ((queue ++ a :: as).map key).toFinset = ((queue ++ as).map key).toFinset := by
  ext k
  rw [List.mem_toFinset, List.mem_toFinset, List.map_append, List.map_append, List.map_cons]
  simp only [List.mem_append, List.mem_cons]
  constructor
  · rintro (hk | rfl | hk)
    · exact .inl hk
    · exact .inl h
    · exact .inr hk
  · rintro (hk | hk)
    · exact .inl hk
    · exact .inr (.inr hk)

/-- A queue fills up with different keys, and then stays full. -/
theorem length_foldl_enqueue (hqueue : queue.length ≤ capacity) (hnodup : (queue.map key).Nodup)
    (as : List α) : (as.foldl (enqueue key capacity) queue).length =
      min capacity ((queue ++ as).map key).toFinset.card := by
  induction as generalizing queue with
  | nil =>
    have hcard := List.toFinset_card_of_nodup hnodup
    rw [List.append_nil, hcard, List.length_map, min_eq_right hqueue]
    rfl
  | cons a as ih =>
    have hnodup' : ((enqueue key capacity queue a).map key).Nodup := nodup_enqueue hnodup
    rw [List.foldl_cons, ih (length_enqueue_le hqueue) hnodup']
    by_cases hmem : key a ∈ queue.map key
    · rw [enqueue_of_mem hmem, toFinset_of_mem hmem]
    · by_cases hroom : queue.length + 1 ≤ capacity
      · rw [enqueue_of_notMem hmem, rtake_of_length_le (by simpa using hroom), List.append_assoc]
        rfl
      · have hfull : (enqueue key capacity queue a).length = capacity := by
          rw [enqueue_of_notMem hmem, length_rtake, List.length_append, List.length_singleton]
          omega
        have hcard := length_le_card hnodup (a :: as)
        have hcard' := length_le_card hnodup' as
        omega

/-- As long as there are no more keys than fit, the capacity does not matter. -/
theorem foldl_enqueue_of_card_le {m M : ℕ} (hm : m ≤ M) (hnodup : (queue.map key).Nodup)
    (as : List α) (hcard : ((queue ++ as).map key).toFinset.card ≤ m) :
    as.foldl (enqueue key m) queue = as.foldl (enqueue key M) queue := by
  induction as generalizing queue with
  | nil => rfl
  | cons a as ih =>
    rw [List.foldl_cons, List.foldl_cons]
    by_cases hmem : key a ∈ queue.map key
    · rw [enqueue_of_mem hmem, enqueue_of_mem hmem]
      rw [toFinset_of_mem hmem] at hcard
      exact ih hnodup hcard
    · have hnodup' := nodup_append_singleton hnodup hmem
      rw [List.append_cons] at hcard
      have hfits := (length_le_card hnodup' as).trans hcard
      rw [enqueue_of_notMem hmem, enqueue_of_notMem hmem, rtake_of_length_le hfits,
        rtake_of_length_le (hfits.trans hm)]
      exact ih hnodup' hcard

end ServerSimple.Library
