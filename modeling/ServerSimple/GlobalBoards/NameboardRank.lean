import ServerSimple.GlobalBoards.NameboardChronology

/-! # The rank that adding a name returns

The index of a new name is taken after the insertion and before the eviction. An eviction takes the
first element, so every name behind it is one place further to the front than the index says.
-/

namespace ServerSimple.GlobalBoards

open Library

namespace Nameboard

variable {b : Nameboard} {maxSize : ℕ} {es : List Entry} {call : NameCall}

/-- An index that a call returned is below the size of the board, and the name is there. -/
def ReturnsRank (b : Nameboard) (name : String) (out : Option ℕ) : Prop :=
  ∀ i, out = some i → i < b.ranking.length ∧
    ∃ es, b.getAll = some es ∧ (es[i]?).map Entry.name = some name

theorem Shows.length_ranking (h : b.Shows maxSize es) : b.ranking.length = es.length := by
  obtain ⟨cells, hrep, -, -, rfl⟩ := h
  rw [hrep.ranking, List.length_map, List.length_map]

theorem Shows.returnsRank_iff (h : b.Shows maxSize es) {name : String} {i : ℕ} :
    b.ReturnsRank name (some i) ↔ (es[i]?).map Entry.name = some name := by
  constructor
  · intro hrank
    obtain ⟨-, es', hes', hname⟩ := hrank i rfl
    rw [h.getAll, Option.some.injEq] at hes'
    rwa [hes']
  · intro hname j hj
    cases hj
    refine ⟨?_, es, h.getAll, hname⟩
    obtain ⟨e, he, -⟩ := Option.map_eq_some_iff.mp hname
    rw [h.length_ranking]
    exact (List.getElem?_eq_some_iff.mp he).1

/-- The new entry compares with those shown by its timestamp alone. -/
theorem Shows.newEntry_before_iff (h : b.Shows maxSize es) (call : NameCall) {e : Entry}
    (he : e ∈ es) :
    (b.newEntry call).Before e ↔ call.now < e.timestamp := by
  have hid := h.issued e he
  rw [Entry.before_iff]
  simp only [newEntry]
  omega

/-- It comes first exactly when it is the oldest. -/
theorem Shows.head?_orderedInsert_iff (h : b.Shows maxSize es) :
    (es.orderedInsert Entry.Before (b.newEntry call)).head? = some (b.newEntry call) ↔
      ∀ e ∈ es, call.now < e.timestamp := by
  have hbefore : ∀ e ∈ es, (b.newEntry call).Before e ↔ call.now < e.timestamp := fun _ he =>
    h.newEntry_before_iff call he
  have hissued := h.issued
  have hsorted := h.sorted
  cases es with
  | nil => simp
  | cons first es =>
    rw [List.pairwise_cons] at hsorted
    rw [List.orderedInsert_cons]
    split_ifs with hfirst
    · simp only [List.head?_cons, true_iff]
      intro e he
      rw [← hbefore e he]
      rcases List.mem_cons.mp he with rfl | he
      · exact hfirst
      · exact hfirst.trans (hsorted.1 e he)
    · rw [List.head?_cons, Option.some.injEq]
      constructor
      · intro hnew
        have hid := hissued first List.mem_cons_self
        rw [hnew] at hid
        exact absurd hid (lt_irrefl _)
      · intro hall
        exact absurd ((hbefore first List.mem_cons_self).mpr (hall first List.mem_cons_self)) hfirst

/-- The entry that took its place at the index is found there, and one further to the front after
the first entry is gone. -/
theorem getElem?_orderedInsert (es : List Entry) (new : Entry) :
    (es.orderedInsert Entry.Before new)[es.findIdx fun e => new.Before e]? = some new ∧
      (es.orderedInsert Entry.Before new).tail[es.findIdx fun e => new.Before e]? =
        es[es.findIdx fun e => new.Before e]? := by
  constructor
  · rw [orderedInsert_eq_insertIdx, List.getElem?_insertIdx_self, if_pos List.findIdx_le_length]
  · rw [orderedInsert_eq_insertIdx, List.getElem?_tail,
      List.getElem?_insertIdx_of_gt (Nat.lt_add_one _), Nat.add_sub_cancel]

theorem Shows.addName_returnsRank_iff (h : b.Shows maxSize es) (call : NameCall) :
    (∃ b' out, b.addName call = some (b', out) ∧ b'.ReturnsRank call.name out) ↔
      call.name ∈ es.map Entry.name ∨ es.length < maxSize ∨ ∀ e ∈ es, call.now < e.timestamp := by
  obtain ⟨b', hadd, hshows, -⟩ := h.addName call
  have hplaces := getElem?_orderedInsert es (b.newEntry call)
  have hunique : (∃ b' out, b.addName call = some (b', out) ∧ b'.ReturnsRank call.name out) ↔
      b'.ReturnsRank call.name (b.added maxSize es call).2 := by
    rw [hadd]
    simp
  rw [hunique]
  unfold added at *
  by_cases hname : call.name ∈ es.map Entry.name
  · simp [hname, ReturnsRank]
  rw [if_neg hname] at hshows ⊢
  simp only [hname, false_or]
  by_cases hroom : es.length < maxSize
  · -- without an eviction the index is right
    have hnot : ¬ maxSize < es.length + 1 := by omega
    rw [Entry.insertBounded, if_neg hnot] at hshows
    rw [if_neg (by simp [hnot]), hshows.returnsRank_iff, hplaces.1]
    simp [hroom, newEntry]
  · have hfull : maxSize < es.length + 1 := by omega
    rw [Entry.insertBounded, if_pos hfull] at hshows
    simp only [hfull, true_and, h.head?_orderedInsert_iff, hroom, false_or]
    split_ifs with holdest
    · have hnone : b'.ReturnsRank call.name none := by simp [ReturnsRank]
      exact ⟨fun _ => holdest, fun _ => hnone⟩
    · -- behind the evicted entry the index belongs to a name that was there before
      simp only [holdest, iff_false]
      rw [hshows.returnsRank_iff, hplaces.2, Option.map_eq_some_iff]
      rintro ⟨e, he, hother⟩
      exact hname (hother ▸ List.mem_map_of_mem (List.mem_of_getElem? he))

variable {Text J T : Type} (lib : JsonLibrary Text J T)

/-- On every board that can be reached, the index that a call returns is the rank of the name exactly
when the name is there already, or there is room for it, or it is the oldest and is not taken. -/
theorem addName_rank_iff (file : Option Text) (maxSize : ℕ) (calls : List NameCall) :
    ∃ b₀ b es, construct lib file maxSize = some b₀ ∧ Library.run step b₀ calls = some b ∧
      b.getAll = some es ∧ ∀ call : NameCall,
        ((∃ b' out, b.addName call = some (b', out) ∧ b'.ReturnsRank call.name out) ↔
          call.name ∈ es.map Entry.name ∨ es.length < maxSize ∨
            ∀ e ∈ es, call.now < e.timestamp) := by
  obtain ⟨b₀, hb₀, hshows₀⟩ := construct_shows lib file maxSize
  obtain ⟨b, es, hrun, hshows⟩ := hshows₀.run calls
  exact ⟨b₀, b, es, hb₀, hrun, hshows.getAll, hshows.addName_returnsRank_iff⟩

/-- A full board of one name: the index of the second name is the size of the board. -/
theorem addName_rank_evicting : ∃ b₀ b b', construct Json.library none 1 = some b₀ ∧
    Library.run step b₀ [⟨"a", 10⟩] = some b ∧ b.addName ⟨"b", 11⟩ = some (b', some 1) ∧
      b'.ranking.length = 1 ∧ ¬ b'.ReturnsRank "b" (some 1) :=
  ⟨_, _, _, rfl, rfl, rfl, rfl, fun h => absurd (h 1 rfl).1 (by decide)⟩

end Nameboard
end ServerSimple.GlobalBoards
