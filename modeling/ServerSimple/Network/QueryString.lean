import ServerSimple.Network.HttpParser

/-! # The segments of a query string

The loop of `parse_query` walks over the query with absolute indices. What it computes is the
assignment, in order, of the bindings of the `&`-separated segments.
-/

namespace ServerSimple.Network.HttpParser

open Library

variable {Double : Type} (stod : List Char → Option (Double × ℕ))

/-- A segment binds the text before its first `=` to the text behind it. -/
def Binds (segment key text : List Char) : Prop := segment = key ++ '=' :: text ∧ '=' ∉ key

/-- The parameters that the segments assign. -/
def bindings (segments : List (List Char)) : List (List Char × Value Double) :=
  segments.filterMap fun segment =>
    (cut '=' segment).map fun p => (p.1, parseValue stod p.2)

variable {stod}

theorem mem_bindings {segments : List (List Char)} {key : List Char} {value : Value Double} :
    (key, value) ∈ bindings stod segments ↔
      ∃ segment ∈ segments, ∃ text, Binds segment key text ∧ value = parseValue stod text := by
  unfold bindings Binds
  rw [List.mem_filterMap]
  apply exists_congr
  intro segment
  apply and_congr_right
  intro _
  rw [Option.map_eq_some_iff]
  constructor
  · rintro ⟨⟨key', text⟩, hcut, heq⟩
    cases heq
    exact ⟨text, cut_eq_some.mp hcut, rfl⟩
  · rintro ⟨text, hbinds, rfl⟩
    exact ⟨(key, text), cut_eq_some.mpr hbinds, rfl⟩

theorem bindings_cons_of_binds {segment key text : List Char} (h : Binds segment key text)
    (segments : List (List Char)) :
    bindings stod (segment :: segments) = (key, parseValue stod text) :: bindings stod segments := by
  unfold bindings
  rw [List.filterMap_cons_some]
  rw [cut_eq_some.mpr h, Option.map_some]

theorem bindings_append (segments more : List (List Char)) :
    bindings stod (segments ++ more) = bindings stod segments ++ bindings stod more :=
  List.filterMap_append

theorem parsePair_eq (params : Params Double) (segment : List Char) :
    parsePair stod params segment = some (assignAll params (bindings stod [segment])) := by
  rcases cut_cases '=' segment with ⟨hnone, hcut⟩ | ⟨key, text, rfl, hkey, hcut⟩
  · have hbindings : bindings stod [segment] = [] := by simp [bindings, hcut]
    rw [parsePair, findFrom_eq_none.mpr (by rwa [List.drop_zero]), hbindings]
    rfl
  · have hdrop : (key ++ '=' :: text).drop 0 = key ++ '=' :: text := List.drop_zero
    have hfind := findFrom_eq_some hdrop hkey
    have htext := substrFrom_next hdrop
    rw [Nat.zero_add] at hfind htext
    rw [parsePair, hfind, bindings_cons_of_binds ⟨rfl, hkey⟩]
    simp only [substr_eq (Nat.zero_le _) hdrop, htext, Option.bind_eq_bind, Option.bind_some]
    rfl

/-- From `start` on, the loop assigns the segments of what is left of the query. -/
theorem parseLoop_eq (query : List Char) (start : ℕ) (params : Params Double) :
    parseLoop stod query start params =
      some (assignAll params (bindings stod ((query.drop start).splitOn '&'))) := by
  induction hmeasure : query.length - start using Nat.strong_induction_on
    generalizing start params with
  | h n ih =>
    rw [parseLoop]
    by_cases hstart : start < query.length
    · rw [dif_pos hstart]
      rcases cut_cases '&' (query.drop start) with ⟨hamp, -⟩ | ⟨segment, rest, hdrop, hamp, -⟩
      · -- the last segment ends with the query
        have hend : endOfPair query start = query.length := by
          rw [endOfPair, findFrom_eq_none.mpr hamp]
        have hsubstr : substr query start (query.length - start) = some (query.drop start) := by
          rw [← List.length_drop]
          exact substr_eq hstart.le (List.append_nil _).symm
        simp only [hend, hsubstr, parsePair_eq, Option.bind_eq_bind, Option.bind_some]
        rw [parseLoop, dif_neg (by omega), List.splitOn_eq_singleton hamp]
      · have hend : endOfPair query start = start + segment.length := by
          rw [endOfPair, findFrom_eq_some hdrop hamp]
        have hsubstr := substr_eq hstart.le hdrop
        simp only [hend, Nat.add_sub_cancel_left, hsubstr, parsePair_eq, Option.bind_eq_bind,
          Option.bind_some]
        rw [ih _ (by omega) _ _ rfl, drop_next hdrop, hdrop,
          List.splitOn_append_cons_self_of_not_mem hamp, ← assignAll_append, ← bindings_append,
          List.singleton_append]
    · rw [dif_neg hstart, List.drop_eq_nil_of_le (by omega)]
      rfl

theorem parseQuery_of_no_mark {target : List Char} (h : '?' ∉ target) :
    parseQuery stod target = some ∅ := by
  rw [parseQuery, findFrom_eq_none.mpr (by rwa [List.drop_zero])]

theorem parseQuery_of_mark {path query : List Char} (h : '?' ∉ path) :
    parseQuery stod (path ++ '?' :: query) =
      some (assignAll ∅ (bindings stod (query.splitOn '&'))) := by
  have hdrop : (path ++ '?' :: query).drop 0 = path ++ '?' :: query := List.drop_zero
  have hfind := findFrom_eq_some hdrop h
  have hquery := substrFrom_next hdrop
  rw [Nat.zero_add] at hfind hquery
  rw [parseQuery, hfind]
  simp only [hquery, Option.bind_eq_bind, Option.bind_some]
  rw [parseLoop_eq, List.drop_zero]

/-- The last segment that binds a key decides its value. -/
theorem lookup_assignAll_bindings {segments before after : List (List Char)}
    {segment key text : List Char} (hsegments : segments = before ++ segment :: after)
    (h : Binds segment key text) (hlast : ∀ later ∈ after, ∀ text', ¬ Binds later key text') :
    (assignAll ∅ (bindings stod segments)).lookup key = some (parseValue stod text) := by
  rw [hsegments, bindings_append, bindings_cons_of_binds h]
  apply lookup_assignAll
  intro value hmem
  obtain ⟨later, hlater, text', hbinds, -⟩ := mem_bindings.mp hmem
  exact hlast later hlater text' hbinds

variable (stod) in
/-- Every target is parsed. Without a question mark there are no parameters; otherwise the keys are
those that some segment behind the first question mark binds, and the last segment that binds a key
decides its value. -/
theorem parseQuery_spec (target : List Char) :
    ∃ params, parseQuery stod target = some params ∧
      ('?' ∉ target → params = ∅) ∧
      ∀ path query, target = path ++ '?' :: query → '?' ∉ path →
        (∀ key, key ∈ params ↔ ∃ segment ∈ query.splitOn '&', ∃ text, Binds segment key text) ∧
        ∀ before segment after key text, query.splitOn '&' = before ++ segment :: after →
          Binds segment key text → (∀ later ∈ after, ∀ text', ¬ Binds later key text') →
          ∃ value, params.lookup key = some value ∧ IsValueOf stod text value := by
  rcases cut_cases '?' target with ⟨hmark, -⟩ | ⟨path, query, rfl, hpath, hcut⟩
  · refine ⟨∅, parseQuery_of_no_mark hmark, fun _ => rfl, ?_⟩
    rintro path query rfl -
    exact absurd (List.mem_append_right path List.mem_cons_self) hmark
  · refine ⟨_, parseQuery_of_mark hpath, ?_, ?_⟩
    · intro hmark
      exact absurd (List.mem_append_right path List.mem_cons_self) hmark
    · intro path' query' heq hpath'
      -- the first question mark determines the query
      have hsame := hcut.symm.trans (cut_eq_some.mpr ⟨heq, hpath'⟩)
      cases hsame
      constructor
      · intro key
        rw [mem_assignAll]
        constructor
        · rintro (hempty | ⟨value, hmem⟩)
          · exact absurd hempty (AList.notMem_empty key)
          · obtain ⟨segment, hsegment, text, hbinds, -⟩ := mem_bindings.mp hmem
            exact ⟨segment, hsegment, text, hbinds⟩
        · rintro ⟨segment, hsegment, text, hbinds⟩
          exact .inr ⟨_, mem_bindings.mpr ⟨segment, hsegment, text, hbinds, rfl⟩⟩
      · intro before segment after key text hsegments hbinds hlast
        exact ⟨_, lookup_assignAll_bindings hsegments hbinds hlast, parseValue_isValueOf stod text⟩

end ServerSimple.Network.HttpParser
