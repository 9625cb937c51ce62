import ServerSimple.Library.OrderedInsert

/-! # Keeping the best element of each key

A ranked list holds at most one element for each key. An improvement puts a new element in the place
of the one with its key if it comes before that one. The order may have ties, and the first elements
of the list can be kept up to date without the rest: who is cut off comes back only by beating
someone who is still there.
-/

namespace ServerSimple.Library

variable {α κ : Type*} [DecidableEq κ] (r : α → α → Prop) [DecidableRel r] (key : α → κ)

/-- Rank `a` in the place of the element with its key, unless `a` does not come before that one. -/
def improve (a : α) (l : List α) : List α :=
  if ∃ old ∈ l, key old = key a ∧ ¬ r a old then l
  else (l.filter fun b => key b ≠ key a).orderedInsert r a

variable {r key} {a : α} {l : List α}

theorem improve_of_kept {old : α} (hold : old ∈ l) (hkey : key old = key a) (hr : ¬ r a old) :
    improve r key a l = l :=
  if_pos ⟨old, hold, hkey, hr⟩

theorem improve_of_beaten (h : ∀ old ∈ l, key old = key a → r a old) :
    improve r key a l = (l.filter fun b => key b ≠ key a).orderedInsert r a := by
  apply if_neg
  rintro ⟨old, hold, hkey, hr⟩
  exact hr (h old hold hkey)

theorem improve_of_new (h : ∀ b ∈ l, key b ≠ key a) : improve r key a l = l.orderedInsert r a := by
  rw [improve_of_beaten fun old hold hkey => absurd hkey (h old hold), List.filter_eq_self.mpr]
  intro b hb
  simpa using h b hb

/-- A map that keeps the keys and what the new element comes before. -/
theorem map_improve {β : Type*} {t : β → β → Prop} [DecidableRel t] {g : β → κ} (f : α → β)
    (hkey : ∀ b, g (f b) = key b) (h : ∀ b ∈ l, r a b ↔ t (f a) (f b)) :
    (improve r key a l).map f = improve t g (f a) (l.map f) := by
  by_cases hkept : ∃ old ∈ l, key old = key a ∧ ¬ r a old
  · obtain ⟨old, hold, holdKey, hr⟩ := hkept
    rw [improve_of_kept hold holdKey hr, improve_of_kept (List.mem_map_of_mem hold)]
    · rw [hkey, hkey, holdKey]
    · rwa [← h old hold]
  · push Not at hkept
    rw [improve_of_beaten hkept, improve_of_beaten, List.filter_map,
      map_orderedInsert_right (t := t) f fun b hb => h b (List.mem_filter.mp hb).1]
    · congr 2
      apply List.filter_congr
      intro b _
      simp [hkey]
    · intro old hold holdKey
      obtain ⟨b, hb, rfl⟩ := List.mem_map.mp hold
      rw [hkey, hkey] at holdKey
      exact (h b hb).mp (hkept b hb holdKey)

theorem mem_improve {b : α} (h : b ∈ improve r key a l) : b = a ∨ b ∈ l := by
  unfold improve at h
  split_ifs at h
  · exact .inr h
  · exact ((List.mem_orderedInsert r).mp h).imp_right fun hb => (List.mem_filter.mp hb).1

theorem nodup_map_improve (h : (l.map key).Nodup) : ((improve r key a l).map key).Nodup := by
  unfold improve
  split_ifs
  · exact h
  · rw [((List.perm_orderedInsert r a _).map key).nodup_iff, List.map_cons, List.nodup_cons]
    constructor
    · intro hmem
      obtain ⟨b, hb, hkey⟩ := List.mem_map.mp hmem
      simpa [hkey] using (List.mem_filter.mp hb).2
    · exact h.sublist (List.filter_sublist.map key)

theorem take_filter_of_forall_take {p : α → Bool} {k : ℕ} (h : ∀ b ∈ l.take k, p b) :
    (l.filter p).take k = l.take k := by
  have hself : (l.take k).filter p = l.take k := List.filter_eq_self.mpr h
  rcases Nat.le_total k l.length with hk | hk
  · conv_lhs => rw [← List.take_append_drop k l, List.filter_append, hself]
    rw [List.take_append_of_le_length (by rw [List.length_take]; omega), List.take_take, min_self]
  · rw [List.take_of_length_le hk] at hself ⊢
    rw [hself, List.take_of_length_le hk]

/-- An element that is among the first `k + 1` leaves `k` of them behind. -/
theorem filter_take_succ_of_mem {old : α} {k : ℕ} (h : (l.map key).Nodup)
    (hold : old ∈ l.take (k + 1)) :
    (l.take (k + 1)).filter (fun b => key b ≠ key old) =
      (l.filter fun b => key b ≠ key old).take k := by
  induction l generalizing k with
  | nil => simp
  | cons b l ih =>
    rw [List.map_cons, List.nodup_cons] at h
    rw [List.take_succ_cons] at hold ⊢
    by_cases hb : key b = key old
    · have hrest : ∀ c ∈ l, (decide (key c ≠ key old)) = true := by
        intro c hc
        rw [decide_eq_true_eq, ← hb]
        intro hcb
        exact h.1 (hcb ▸ List.mem_map_of_mem hc)
      rw [List.filter_cons_of_neg (by simpa using hb), List.filter_cons_of_neg (by simpa using hb),
        List.filter_eq_self.mpr hrest,
        List.filter_eq_self.mpr fun c hc => hrest c (List.mem_of_mem_take hc)]
    · have hmem := (List.mem_cons.mp hold).resolve_left fun heq => hb (heq ▸ rfl)
      cases k with
      | zero => simp at hmem
      | succ k =>
        rw [List.filter_cons_of_pos (by simpa using hb), List.filter_cons_of_pos (by simpa using hb),
          ih h.2 hmem, List.take_succ_cons]

theorem drop_filter_of_mem {old : α} {k : ℕ} (h : (l.map key).Nodup) (hold : old ∈ l.take (k + 1)) :
    (l.filter fun b => key b ≠ key old).drop k =
      (l.drop (k + 1)).filter fun b => key b ≠ key old := by
  have hparts := List.take_append_drop k (l.filter fun b => key b ≠ key old)
  conv_rhs at hparts => rw [← List.take_append_drop (k + 1) l, List.filter_append]
  rw [filter_take_succ_of_mem h hold] at hparts
  exact List.append_cancel_left hparts

section Cut

variable (hneg : ∀ x y z, ¬ r x y → ¬ r y z → ¬ r x z) (hsorted : l.Pairwise fun x y => ¬ r y x)
  (hkeys : (l.map key).Nodup) (k : ℕ)
include hneg hsorted hkeys

/-- The new element takes the place of one that is not cut off. -/
theorem take_improve_of_mem {old : α} (hold : old ∈ l.take k) (hkey : key old = key a) :
    (improve r key a l).take k = (improve r key a (l.take k)).take k := by
  have holdl := List.mem_of_mem_take hold
  by_cases hr : r a old
  · have heq : ∀ b ∈ l, key b = key a → b = old := fun b hb hb' =>
      List.inj_on_of_nodup_map hkeys hb holdl (hb'.trans hkey.symm)
    rw [improve_of_beaten fun b hb hb' => heq b hb hb' ▸ hr,
      improve_of_beaten fun b hb hb' => heq b (List.mem_of_mem_take hb) hb' ▸ hr, ← hkey]
    obtain ⟨k, rfl⟩ : ∃ n, k = n + 1 := by
      cases k with
      | zero => simp at hold
      | succ n => exact ⟨n, rfl⟩
    rw [filter_take_succ_of_mem hkeys hold, take_succ_orderedInsert,
      List.take_of_length_le (l := List.orderedInsert r a _)]
    · rw [List.orderedInsert_length, List.length_take]
      omega
    · -- the element that moves into the window is not before the one that made place
      intro hk
      refine ⟨_, List.mem_take_iff_getElem.mpr ⟨k, by omega, rfl⟩, ?_⟩
      have hdrop : (l.filter fun b => key b ≠ key old)[k] ∈ l.drop (k + 1) := by
        apply List.mem_of_mem_filter (p := fun b => key b ≠ key old)
        rw [← drop_filter_of_mem hkeys hold]
        exact List.mem_drop_iff_getElem.mpr ⟨0, by omega, rfl⟩
      rw [← List.take_append_drop (k + 1) l, List.pairwise_append] at hsorted
      by_contra hnot
      exact hneg _ _ _ hnot (hsorted.2.2 old hold _ hdrop) hr
  · rw [improve_of_kept holdl hkey hr, improve_of_kept hold hkey hr, List.take_take, min_self]

/-- The first elements of an improved list depend on the first elements only. -/
theorem take_improve : (improve r key a l).take k = (improve r key a (l.take k)).take k := by
  by_cases hmem : ∃ old ∈ l.take k, key old = key a
  · obtain ⟨old, hold, hkey⟩ := hmem
    exact take_improve_of_mem hneg hsorted hkeys k hold hkey
  · push Not at hmem
    rw [improve_of_new hmem]
    by_cases hkept : ∃ old ∈ l, key old = key a ∧ ¬ r a old
    · -- whoever has this key is cut off, and so the new element would be
      obtain ⟨old, hold, hkey, hr⟩ := hkept
      rw [improve_of_kept hold hkey hr]
      have hdrop : old ∈ l.drop k := by
        rw [← List.take_append_drop k l, List.mem_append] at hold
        exact hold.resolve_left fun htake => hmem old htake hkey
      rw [← List.take_append_drop k l, List.pairwise_append] at hsorted
      have hlength : (l.take k).length = k := by
        have hpos := List.length_pos_of_mem hdrop
        rw [List.length_drop] at hpos
        rw [List.length_take]
        omega
      rw [orderedInsert_eq_append fun b hb => hneg a old b hr (hsorted.2.2 b hb old hdrop),
        List.take_left' hlength]
    · push Not at hkept
      rw [improve_of_beaten hkept, ← take_orderedInsert, take_filter_of_forall_take]
      intro b hb
      simpa using hmem b hb

end Cut

end ServerSimple.Library
