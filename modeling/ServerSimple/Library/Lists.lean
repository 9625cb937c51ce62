import Mathlib.Data.List.Perm.Basic

/-! # Lists -/

namespace ServerSimple.Library

variable {α β : Type*}

theorem filterMap_cons_toList (f : α → Option β) (a : α) (l : List α) :
    (a :: l).filterMap f = (f a).toList ++ l.filterMap f := by
  cases h : f a <;> simp [h]

theorem length_of_mapM_eq_some {f : α → Option β} {l : List α} {l' : List β}
    (h : l.mapM f = some l') : l'.length = l.length := by
  induction l generalizing l' with
  | nil =>
    rw [List.mapM_nil] at h
    cases h
    rfl
  | cons a l ih =>
    rw [List.mapM_cons, Option.bind_eq_bind, Option.bind_eq_some_iff] at h
    obtain ⟨b, _, h⟩ := h
    rw [Option.bind_eq_bind, Option.bind_eq_some_iff] at h
    obtain ⟨bs, hbs, h⟩ := h
    cases h
    rw [List.length_cons, List.length_cons, ih hbs]

/-- All reads succeed, with these results. -/
theorem mapM_eq_some_iff {f : α → Option β} {l : List α} {l' : List β} :
    l.mapM f = some l' ↔ l.map f = l'.map some := by
  induction l generalizing l' with
  | nil => cases l' <;> simp
  | cons a l ih =>
    rw [List.mapM_cons, List.map_cons]
    cases ha : f a with
    | none => cases l' <;> simp
    | some b =>
      cases l' with
      | nil => cases l.mapM f <;> simp
      | cons b' l' =>
        rw [List.map_cons, List.cons.injEq, Option.some.injEq, ← ih]
        cases l.mapM f with
        | none => simp
        | some bs => simp

theorem mapM_map_of_forall {f : β → Option α} {g : α → β} (h : ∀ a, f (g a) = some a) (l : List α) :
    (l.map g).mapM f = some l := by
  induction l with
  | nil => rfl
  | cons a l ih => simp [List.mapM_cons, h, ih]

/-- Changing the results of the reads is changing what was read. -/
theorem mapM_option_map (f : α → Option β) (g : β → γ) (l : List α) :
    (l.mapM fun a => (f a).map g) = (l.mapM f).map (List.map g) := by
  induction l with
  | nil => rfl
  | cons a l ih =>
    rw [List.mapM_cons, List.mapM_cons, ih]
    cases f a with
    | none => rfl
    | some b => cases l.mapM f <;> rfl

theorem findIdx?_congr {p q : α → Bool} {l : List α} (h : ∀ a ∈ l, p a = q a) :
    l.findIdx? p = l.findIdx? q := by
  induction l with
  | nil => rfl
  | cons a l ih =>
    rw [List.findIdx?_cons, List.findIdx?_cons, h a List.mem_cons_self,
      ih fun b hb => h b (List.mem_cons_of_mem a hb)]

theorem findIdx_congr {p q : α → Bool} {l : List α} (h : ∀ a ∈ l, p a = q a) :
    l.findIdx p = l.findIdx q := by
  induction l with
  | nil => rfl
  | cons a l ih =>
    rw [List.findIdx_cons, List.findIdx_cons, h a List.mem_cons_self,
      ih fun b hb => h b (List.mem_cons_of_mem a hb)]

/-- Taking out one element lowers the count by that element. -/
theorem countP_eraseIdx {l : List α} {i : ℕ} {a : α} (p : α → Bool) (h : l[i]? = some a) :
    (l.eraseIdx i).countP p + (if p a then 1 else 0) = l.countP p := by
  obtain ⟨hi, rfl⟩ := List.getElem?_eq_some_iff.mp h
  rw [← (List.getElem_cons_eraseIdx_perm hi).countP_eq, List.countP_cons]

/-- Where keys do not repeat, taking out a key takes out one element. -/
theorem perm_cons_filter_of_nodup_map [DecidableEq β] {f : α → β} {l : List α} {a : α}
    (h : (l.map f).Nodup) (ha : a ∈ l) : l.Perm (a :: l.filter fun b => f b ≠ f a) := by
  induction l with
  | nil => simp at ha
  | cons b l ih =>
    rw [List.map_cons, List.nodup_cons] at h
    by_cases hb : f b = f a
    · have hrest : l.filter (fun c => f c ≠ f a) = l := by
        rw [List.filter_eq_self]
        intro c hc
        rw [decide_eq_true_eq, ← hb]
        intro hcb
        exact h.1 (hcb ▸ List.mem_map_of_mem hc)
      have hba : a = b := by
        rcases List.mem_cons.mp ha with hab | hmem
        · exact hab
        · exact absurd (hb ▸ List.mem_map_of_mem hmem) h.1
      rw [List.filter_cons_of_neg (by simpa using hb), hrest, hba]
    · have hmem := (List.mem_cons.mp ha).resolve_left fun hab => hb (hab ▸ rfl)
      rw [List.filter_cons_of_pos (by simpa using hb)]
      exact ((ih h.2 hmem).cons b).trans (List.Perm.swap ..)

theorem lookup_of_mem_of_nodup [DecidableEq α] {l : List (α × β)} {a : α} {b : β}
    (h : (l.map Prod.fst).Nodup) (hab : (a, b) ∈ l) : l.lookup a = some b := by
  induction l with
  | nil => cases hab
  | cons c l ih =>
    rw [List.map_cons, List.nodup_cons] at h
    rcases List.mem_cons.mp hab with rfl | hab
    · simp
    · have hne : a ≠ c.1 := by
        rintro rfl
        exact h.1 (List.mem_map.mpr ⟨(c.1, b), hab, rfl⟩)
      rw [List.lookup_cons, beq_false_of_ne hne]
      exact ih h.2 hab

/-- Where keys do not repeat, erasing the first element with a key erases that element. -/
theorem eraseP_perm_of_nodup [DecidableEq α] {l rest : List (α × β)} {a : α} {b : β}
    (h : (l.map Prod.fst).Nodup) (hl : l.Perm ((a, b) :: rest)) :
    (l.eraseP fun c => c.1 = a).Perm rest := by
  have hpair : l.Pairwise fun c d => (decide (c.1 = a)) = true → (decide (d.1 = a)) = true → False := by
    refine (List.pairwise_map.mp h).imp ?_
    intro c d hcd hc hd
    rw [decide_eq_true_eq] at hc hd
    exact hcd (hc.trans hd.symm)
  have hperm := hl.eraseP (fun c => decide (c.1 = a)) hpair
  rwa [List.eraseP_cons_of_pos (by simp)] at hperm

/-- Where keys are different, leaving out a key is erasing at the index where it is found. -/
theorem filter_ne_eq_eraseIdx [DecidableEq β] {f : α → β} {key : β} {l : List α} {i : ℕ}
    (hnodup : (l.map f).Nodup) (hi : (l.findIdx? fun a => f a = key) = some i) :
    (l.filter fun a => f a ≠ key) = l.eraseIdx i := by
  induction l generalizing i with
  | nil => simp
  | cons a l ih =>
    rw [List.map_cons, List.nodup_cons] at hnodup
    rw [List.findIdx?_cons] at hi
    by_cases ha : f a = key
    · have hothers : ∀ b ∈ l, f b ≠ key := fun b hb hkey =>
        hnodup.1 (ha ▸ hkey ▸ List.mem_map_of_mem hb)
      rw [if_pos (by simpa using ha), Option.some.injEq] at hi
      rw [List.filter_cons_of_neg (by simpa using ha), ← hi, List.eraseIdx_cons_zero,
        List.filter_eq_self.mpr (by simpa using hothers)]
    · rw [if_neg (by simpa using ha), Option.map_eq_some_iff] at hi
      obtain ⟨j, hj, rfl⟩ := hi
      rw [List.filter_cons_of_pos (by simpa using ha), List.eraseIdx_cons_succ, ih hnodup.2 hj]

end ServerSimple.Library
