import Mathlib.Data.List.AList
import Mathlib.Data.List.Perm.Subperm

/-! # Finite maps with the insertion of the standard containers

`emplace` does nothing when the key is present, unlike Mathlib's `AList.insert`.
-/

namespace ServerSimple.Library

variable {α β : Type*} [DecidableEq α]

/-- Insert unless the key is already there. -/
def emplace (m : AList fun _ : α => β) (k : α) (v : β) : AList fun _ : α => β :=
  match m.lookup k with
  | some _ => m
  | none => m.insert k v

theorem lookup_emplace_self {m : AList fun _ : α => β} {k : α} (v : β) (h : m.lookup k = none) :
    (emplace m k v).lookup k = some v := by
  simp [emplace, h]

theorem lookup_emplace_of_ne {m : AList fun _ : α => β} {j k : α} (v : β) (h : j ≠ k) :
    (emplace m k v).lookup j = m.lookup j := by
  unfold emplace
  split
  · rfl
  · rw [AList.lookup_insert_ne h]

theorem lookup_emplace_of_eq_some {m : AList fun _ : α => β} {j : α} {w : β} (k : α) (v : β)
    (h : m.lookup j = some w) : (emplace m k v).lookup j = some w := by
  by_cases hj : j = k
  · subst hj
    simp [emplace, h]
  · rw [lookup_emplace_of_ne v hj, h]

/-- What is found after an insertion was there before, or is what was inserted. -/
theorem lookup_emplace_eq_some {m : AList fun _ : α => β} {j k : α} {v w : β}
    (h : (emplace m k v).lookup j = some w) : m.lookup j = some w ∨ w = v := by
  by_cases hj : j = k
  · subst hj
    cases hlook : m.lookup j with
    | none =>
      rw [lookup_emplace_self v hlook, Option.some.injEq] at h
      exact .inr h.symm
    | some u =>
      rw [lookup_emplace_of_eq_some j v hlook] at h
      exact .inl h
  · rw [lookup_emplace_of_ne v hj] at h
    exact .inl h

/-- The key that was inserted is found, and every key that was there before. -/
theorem isSome_lookup_emplace {m : AList fun _ : α => β} {j k : α} (v : β)
    (h : j = k ∨ (m.lookup j).isSome) : ((emplace m k v).lookup j).isSome := by
  cases hlook : m.lookup j with
  | some w => rw [lookup_emplace_of_eq_some k v hlook, Option.isSome_some]
  | none =>
    rcases h with rfl | hsome
    · rw [lookup_emplace_self v hlook, Option.isSome_some]
    · simp [hlook] at hsome

theorem eq_empty_of_lookup {m : AList fun _ : α => β} (h : ∀ k, m.lookup k = none) : m = ∅ := by
  apply AList.ext
  rw [AList.empty_entries, List.eq_nil_iff_forall_not_mem]
  rintro ⟨k, v⟩ hmem
  have hk : k ∈ m := AList.mem_keys.mpr (List.mem_keys_of_mem hmem)
  exact AList.lookup_eq_none.mp (h k) hk

/-- Change every value in place. -/
def mapValues (f : α → β → β) (m : AList fun _ : α => β) : AList fun _ : α => β where
  entries := m.entries.map fun e => ⟨e.1, f e.1 e.2⟩
  nodupKeys := by
    have hkeys : (m.entries.map fun e => (⟨e.1, f e.1 e.2⟩ : Sigma fun _ : α => β)).keys =
        m.entries.keys := by
      rw [List.keys, List.map_map]
      rfl
    rw [List.NodupKeys, hkeys]
    exact m.nodupKeys

theorem lookup_mapValues (f : α → β → β) (m : AList fun _ : α => β) (k : α) :
    (mapValues f m).lookup k = (m.lookup k).map (f k) :=
  List.dlookup_map₂ k

/-- Insertion leaves what is there, and puts the value where nothing is. -/
theorem lookup_emplace (m : AList fun _ : α => β) (j k : α) (v : β) :
    (emplace m k v).lookup j = if k = j then some ((m.lookup j).getD v) else m.lookup j := by
  split_ifs with h
  · subst h
    cases hlook : m.lookup k with
    | none => exact lookup_emplace_self v hlook
    | some w => exact lookup_emplace_of_eq_some k v hlook
  · exact lookup_emplace_of_ne v (Ne.symm h)

/-! ## The number of entries -/

theorem length_emplace_le (m : AList fun _ : α => β) (k : α) (v : β) :
    (emplace m k v).entries.length ≤ m.entries.length + 1 := by
  unfold emplace
  split
  · exact Nat.le_succ _
  · rename_i hnone
    rw [AList.entries_insert_of_notMem (AList.lookup_eq_none.mp hnone), List.length_cons]

theorem length_erase_le (m : AList fun _ : α => β) (k : α) :
    (m.erase k).entries.length ≤ m.entries.length :=
  (List.kerase_sublist k m.entries).length_le

theorem length_erase_add_one {m : AList fun _ : α => β} {k : α} (h : k ∈ m) :
    (m.erase k).entries.length + 1 = m.entries.length := by
  obtain ⟨v, before, after, -, hentries, herased⟩ := List.exists_of_kerase (AList.mem_keys.mp h)
  change (m.entries.kerase k).length + 1 = _
  rw [herased, hentries]
  simp only [List.length_append, List.length_cons]
  omega

/-- Different keys that are all found need as many entries. -/
theorem length_le_of_lookup {m : AList fun _ : α => β} {keys : List α} (hnodup : keys.Nodup)
    (h : ∀ k ∈ keys, (m.lookup k).isSome) : keys.length ≤ m.entries.length := by
  have hsub : keys ⊆ m.keys := fun k hk => AList.mem_keys.mp (AList.lookup_isSome.mp (h k hk))
  calc keys.length ≤ m.keys.length := (List.Nodup.subperm hnodup hsub).length_le
    _ = m.entries.length := List.length_map _

/-! ## Assigning one by one -/

/-- `m[k] = v` for each binding in order; a later one replaces an earlier one. -/
def assignAll (m : AList fun _ : α => β) (bindings : List (α × β)) : AList fun _ : α => β :=
  bindings.foldl (fun m b => m.insert b.1 b.2) m

theorem assignAll_append (m : AList fun _ : α => β) (bindings more : List (α × β)) :
    assignAll m (bindings ++ more) = assignAll (assignAll m bindings) more :=
  List.foldl_append

theorem mem_assignAll {m : AList fun _ : α => β} {bindings : List (α × β)} {k : α} :
    k ∈ assignAll m bindings ↔ k ∈ m ∨ ∃ v, (k, v) ∈ bindings := by
  induction bindings generalizing m with
  | nil => simp [assignAll]
  | cons b bindings ih =>
    rw [assignAll, List.foldl_cons]
    refine ih.trans ?_
    rw [AList.mem_insert]
    constructor
    · rintro ((rfl | hm) | ⟨v, hv⟩)
      · exact .inr ⟨b.2, List.mem_cons_self⟩
      · exact .inl hm
      · exact .inr ⟨v, List.mem_cons_of_mem b hv⟩
    · rintro (hm | ⟨v, hv⟩)
      · exact .inl (.inr hm)
      · rcases List.mem_cons.mp hv with rfl | hv
        · exact .inl (.inl rfl)
        · exact .inr ⟨v, hv⟩

theorem lookup_assignAll_of_notMem {m : AList fun _ : α => β} {bindings : List (α × β)} {k : α}
    (h : ∀ v, (k, v) ∉ bindings) : (assignAll m bindings).lookup k = m.lookup k := by
  induction bindings generalizing m with
  | nil => rfl
  | cons b bindings ih =>
    have hk : k ≠ b.1 := by
      rintro rfl
      exact h b.2 List.mem_cons_self
    rw [assignAll, List.foldl_cons]
    refine (ih fun v hv => h v (List.mem_cons_of_mem b hv)).trans ?_
    rw [AList.lookup_insert_ne hk]

/-- The last binding of a key decides. -/
theorem lookup_assignAll (m : AList fun _ : α => β) {before after : List (α × β)} {k : α} {v : β}
    (h : ∀ w, (k, w) ∉ after) :
    (assignAll m (before ++ (k, v) :: after)).lookup k = some v := by
  rw [assignAll_append, assignAll, List.foldl_cons]
  refine (lookup_assignAll_of_notMem h).trans ?_
  rw [AList.lookup_insert]

theorem insert_assignAll_key (m : AList fun _ : α => β) (k : α) (values : List β) (v : β) :
    (assignAll m (values.map (Prod.mk k))).insert k v = m.insert k v := by
  induction values generalizing m with
  | nil => rfl
  | cons w values ih =>
    rw [List.map_cons, assignAll, List.foldl_cons]
    exact (ih (m.insert k w)).trans (AList.insert_insert ..)

/-- Assigning to one key again and again is assigning the last value. -/
theorem assignAll_key (m : AList fun _ : α => β) (k : α) {values : List β} {v : β}
    (h : values.getLast? = some v) : assignAll m (values.map (Prod.mk k)) = m.insert k v := by
  obtain ⟨earlier, rfl⟩ := List.getLast?_eq_some_iff.mp h
  rw [List.map_append, assignAll_append]
  exact insert_assignAll_key m k earlier v

end ServerSimple.Library
