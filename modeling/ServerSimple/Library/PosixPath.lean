import ServerSimple.Library.Scanning

/-! # Path names

Paths as `std::filesystem` sees them on a POSIX system, where the slash is the only separator and
there are no root names. A path is its native string.
-/

namespace ServerSimple.Library

/-- The native string of a path. -/
abbrev Path := List Char

namespace Path

def isAbsolute (p : Path) : Bool := p.head? = some '/'

/-- The names between the slashes. -/
def components (p : Path) : List Path := (p.splitOn '/').filter (· ≠ [])

/-- The elements that an iteration over the path visits: the root directory, the names, and an empty
one for a slash behind the last name. -/
def parts (p : Path) : List Path :=
  (if p.isAbsolute then [['/']] else []) ++ p.components ++
    (if p.getLast? = some '/' ∧ p.components ≠ [] then [[]] else [])

/-- `filename`, the text behind the last slash. -/
def filename (p : Path) : Path :=
  match cutLast '/' p with
  | some (_, name) => name
  | none => p

/-- `extension`: none for a dot, two dots, and a file whose only dot is its first character. -/
def extension (p : Path) : Path :=
  if p.filename = ['.'] ∨ p.filename = ['.', '.'] then []
  else
    match cutLast '.' p.filename with
    | some (stem, suffix) => if stem = [] then [] else '.' :: suffix
    | none => []

/-- `operator/`. -/
def join (p q : Path) : Path :=
  if q.isAbsolute then q else if p.filename ≠ [] then p ++ '/' :: q else p ++ q

variable {p q : Path}

theorem not_isAbsolute (h : '/' ∉ q) : q.isAbsolute = false := by
  cases q with
  | nil => rfl
  | cons c q =>
    have hne : c ≠ '/' := by
      rintro rfl
      exact h List.mem_cons_self
    simp [isAbsolute, hne]

theorem components_name (hne : q ≠ []) (h : '/' ∉ q) : q.components = [q] := by
  rw [components, List.splitOn_eq_singleton h, List.filter_singleton]
  simp [hne]

theorem components_append_cons (p q : Path) :
    components (p ++ '/' :: q) = p.components ++ q.components := by
  rw [components, List.splitOn_append_cons_self, List.filter_append]
  rfl

/-- A name without slashes is its only part. -/
theorem parts_name (hne : q ≠ []) (h : '/' ∉ q) : q.parts = [q] := by
  have hlast : q.getLast? ≠ some '/' := fun hlast => h (List.mem_of_getLast? hlast)
  simp [parts, not_isAbsolute h, components_name hne h, hlast]

theorem filename_name (h : '/' ∉ q) : q.filename = q := by
  rcases cutLast_cases '/' q with ⟨-, hnone⟩ | ⟨u, v, rfl, -, -⟩
  · rw [filename, hnone]
  · exact absurd (List.mem_append_right u List.mem_cons_self) h

/-- A directory without a file name is empty or ends with a slash. -/
theorem eq_of_filename_nil (h : p.filename = []) : p = [] ∨ ∃ d, p = d ++ ['/'] := by
  rcases cutLast_cases '/' p with ⟨-, hnone⟩ | ⟨d, name, rfl, -, hsome⟩
  · rw [filename, hnone] at h
    exact .inl h
  · rw [filename, hsome] at h
    exact .inr ⟨d, congrArg (fun name => d ++ '/' :: name) h⟩

/-- Joining a name adds one component at the end and leaves the directory as it is. -/
theorem components_join (p : Path) (hne : q ≠ []) (h : '/' ∉ q) :
    components (p.join q) = p.components ++ [q] := by
  have hnil : components ([] : Path) = [] := rfl
  rw [join, not_isAbsolute h, if_neg Bool.false_ne_true]
  split_ifs with hfile
  · rw [components_append_cons, components_name hne h]
  · rcases eq_of_filename_nil (not_not.mp hfile) with rfl | ⟨d, rfl⟩
    · rw [List.nil_append, components_name hne h, hnil, List.nil_append]
    · rw [List.append_assoc, List.singleton_append, components_append_cons, components_append_cons,
        hnil, List.append_nil, components_name hne h]

/-! ## Extensions -/

/-- A suffix behind a last dot is the extension of every longer name. -/
theorem extension_append {suffix : Path} (hq : q ≠ []) (hslash : '/' ∉ q)
    (hsuffix : suffix ≠ []) (hdot : '.' ∉ suffix) (hslash' : '/' ∉ suffix) :
    extension (q ++ '.' :: suffix) = '.' :: suffix := by
  have hname : filename (q ++ '.' :: suffix) = q ++ '.' :: suffix := by
    apply filename_name
    simp [hslash, hslash']
  have hlength : 2 < (q ++ '.' :: suffix).length := by
    have hq' := List.length_pos_iff.mpr hq
    have hsuffix' := List.length_pos_iff.mpr hsuffix
    simp only [List.length_append, List.length_cons]
    omega
  have hdots : ¬ (q ++ '.' :: suffix = ['.'] ∨ q ++ '.' :: suffix = ['.', '.']) := by
    rintro (heq | heq) <;> rw [heq] at hlength <;> simp at hlength
  rw [extension, hname, if_neg hdots, cutLast_append_cons hdot]
  exact if_neg hq

/-- An extension stands behind a non-empty name. -/
theorem eq_of_extension {suffix : Path} (h : '/' ∉ q) (hext : extension q = '.' :: suffix) :
    ∃ stem, stem ≠ [] ∧ q = stem ++ '.' :: suffix := by
  rw [extension, filename_name h] at hext
  split_ifs at hext with hdots
  rcases cutLast_cases '.' q with ⟨-, hnone⟩ | ⟨stem, suffix', hq, -, hsome⟩
  · rw [hnone] at hext
    cases hext
  · rw [hsome] at hext
    dsimp only at hext
    split_ifs at hext with hstem
    cases hext
    exact ⟨stem, hstem, hq⟩

end Path
end ServerSimple.Library
