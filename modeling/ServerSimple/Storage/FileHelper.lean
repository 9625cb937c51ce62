import ServerSimple.Library.PosixPath

/-! # File names of the storage

The check of a file name and the two functions that build the path of a JSON file. Creating the
directories is up to the file system: it succeeds, or it throws with a description.
-/

namespace ServerSimple.Storage.FileHelper

open Library

/-- The exceptions that a caller of `get_file_path` sees. -/
inductive FileError where
  | invalidArgument (what : List Char)
  | runtimeError (what : List Char)
  deriving DecidableEq

def isValidFilename (name : List Char) : Bool :=
  if name = [] then false
  else if Path.isAbsolute name then false
  else if ∃ part ∈ Path.parts name, part = ['.', '.'] then false
  else findFrom '/' name 0 = none && findFrom '\\' name 0 = none

def json : Path := ".json".toList

/-- The extension rule: the file itself, or with `.json` appended to its whole name. -/
def withJson (file : Path) : Path := if file.extension ≠ json then file ++ json else file

section

variable (createDirectories : Path → Except (List Char) Unit)

/-- The body shared by the two overloads. Only an exception of the file system is turned into a
`runtime_error`. -/
def filePath (directory : Path) (failure : List Char → List Char) (filename : List Char) :
    Except FileError Path :=
  if isValidFilename filename = false then
    .error (.invalidArgument "Invalid filename - file_helper".toList)
  else
    match createDirectories directory with
    | .error what => .error (.runtimeError (failure what))
    | .ok () => .ok (directory.join (withJson filename))

/-- `get_file_path` with a subdirectory. -/
def getFilePathIn (parentDirectory : Path) (subdirectoryName filename : List Char) :
    Except FileError Path :=
  filePath createDirectories (parentDirectory.join subdirectoryName)
    (fun what => "Unable to create ".toList ++ subdirectoryName ++ " directory for filename: ".toList ++
      filename ++ "under ".toList ++ parentDirectory ++ "/".toList ++ subdirectoryName ++
      " - ".toList ++ what) filename

def getFilePath (parentDirectory : Path) (filename : List Char) : Except FileError Path :=
  filePath createDirectories parentDirectory
    (fun what => "Unable to create directory for filename: ".toList ++ filename ++
      "under ".toList ++ parentDirectory ++ " - ".toList ++ what) filename

end

/-! ## Accepted names -/

theorem isValidFilename_iff (name : List Char) :
    isValidFilename name = true ↔
      name ≠ [] ∧ '/' ∉ name ∧ '\\' ∉ name ∧ name ≠ ['.', '.'] := by
  by_cases hne : name = []
  · simp [isValidFilename, hne]
  by_cases hslash : '/' ∈ name
  · -- whatever the first tests say, the last one rejects a slash
    have hfind : findFrom '/' name 0 ≠ none := by
      rw [ne_eq, findFrom_eq_none, List.drop_zero, not_not]
      exact hslash
    simp [isValidFilename, hslash, hfind]
  · have hfind : findFrom '/' name 0 = none := findFrom_eq_none.mpr (by rwa [List.drop_zero])
    have hback : findFrom '\\' name 0 = none ↔ '\\' ∉ name := by
      rw [findFrom_eq_none, List.drop_zero]
    simp only [isValidFilename, if_neg hne, Path.not_isAbsolute hslash, Path.parts_name hne hslash,
      hfind]
    by_cases hdots : name = ['.', '.']
    · simp [hdots]
    · have hdots' : ['.', '.'] ≠ name := Ne.symm hdots
      simp [hdots, hdots', hne, hslash, hback]

theorem withJson_of_eq {file : Path} (h : file.extension = json) : withJson file = file :=
  if_neg (not_not.mpr h)

theorem withJson_of_ne {file : Path} (h : file.extension ≠ json) : withJson file = file ++ json :=
  if_pos h

/-- What the component of an accepted name is. -/
structure IsComponentOf (name c : Path) : Prop where
  slash : '/' ∉ c
  backslash : '\\' ∉ c
  dot : c ≠ ['.']
  dots : c ≠ ['.', '.']
  json : json <:+ c
  itself : name.extension = FileHelper.json → c = name
  appended : name.extension ≠ FileHelper.json → c = name ++ FileHelper.json
  again : withJson c = c

/-- A non-empty name is followed by the extension, which the rule leaves alone. -/
theorem withJson_eq {name : Path} (hne : name ≠ []) (hslash : '/' ∉ name) :
    ∃ stem, stem ≠ [] ∧ withJson name = stem ++ json ∧ '/' ∉ stem := by
  by_cases hext : name.extension = json
  · obtain ⟨stem, hstem, heq⟩ := Path.eq_of_extension hslash hext
    refine ⟨stem, hstem, (withJson_of_eq hext).trans heq, ?_⟩
    intro hmem
    rw [heq] at hslash
    exact hslash (List.mem_append_left _ hmem)
  · exact ⟨name, hne, withJson_of_ne hext, hslash⟩

theorem withJson_isComponentOf {name : Path} (h : isValidFilename name = true) :
    IsComponentOf name (withJson name) := by
  obtain ⟨hne, hslash, hback, -⟩ := (isValidFilename_iff name).mp h
  obtain ⟨stem, hstem, heq, hstem'⟩ := withJson_eq hne hslash
  have hext : (withJson name).extension = json := by
    rw [heq]
    exact Path.extension_append hstem hstem' (by decide) (by decide) (by decide)
  have hlength : 2 < (withJson name).length := by
    have hpos := List.length_pos_iff.mpr hstem
    have hjson : json.length = 5 := rfl
    rw [heq, List.length_append, hjson]
    omega
  have hchars : ∀ c, c ∉ name → c ∉ json → c ∉ withJson name := by
    intro c hname hjson hmem
    unfold withJson at hmem
    split_ifs at hmem
    · exact (List.mem_append.mp hmem).elim hname hjson
    · exact hname hmem
  refine ⟨hchars '/' hslash (by decide), hchars '\\' hback (by decide), ?_, ?_, ?_,
    withJson_of_eq, withJson_of_ne, withJson_of_eq hext⟩
  · intro hdot
    rw [hdot] at hlength
    simp at hlength
  · intro hdots
    rw [hdots] at hlength
    simp at hlength
  · rw [heq]
    exact List.suffix_append stem json

/-! ## Paths -/

section

variable (createDirectories : Path → Except (List Char) Unit)

/-- A path is returned exactly for an accepted name whose directory can be created. -/
theorem filePath_eq_ok {name directory path : Path} {failure : List Char → List Char} :
    filePath createDirectories directory failure name = .ok path ↔
      isValidFilename name = true ∧ createDirectories directory = .ok () ∧
        path = directory.join (withJson name) := by
  unfold filePath
  cases isValidFilename name with
  | false => simp
  | true =>
    cases createDirectories directory with
    | error what => simp
    | ok u => simp [eq_comm]

/-- The accepted names are those without separators that are neither empty nor two dots. Each becomes
a single component, and what both functions return is the storage directory joined with it. -/
theorem getFilePath_inside (parent : Path) (subdirectory name : List Char) :
    (isValidFilename name = true ↔
      name ≠ [] ∧ '/' ∉ name ∧ '\\' ∉ name ∧ name ≠ ['.', '.']) ∧
    (isValidFilename name = true → ∃ c, IsComponentOf name c ∧
      (∀ path, getFilePathIn createDirectories parent subdirectory name = .ok path ↔
        createDirectories (parent.join subdirectory) = .ok () ∧
          path = (parent.join subdirectory).join c) ∧
      (∀ path, getFilePath createDirectories parent name = .ok path ↔
        createDirectories parent = .ok () ∧ path = parent.join c) ∧
      ∀ directory : Path, (directory.join c).components = directory.components ++ [c]) := by
  refine ⟨isValidFilename_iff name, ?_⟩
  intro hvalid
  have hc := withJson_isComponentOf hvalid
  have hne : withJson name ≠ [] := by
    intro hnil
    have hjson := hc.json
    rw [hnil, List.suffix_nil] at hjson
    cases hjson
  refine ⟨withJson name, hc, ?_, ?_, fun directory => Path.components_join directory hne hc.slash⟩
  · intro path
    rw [getFilePathIn, filePath_eq_ok, hvalid]
    exact and_iff_right rfl
  · intro path
    rw [getFilePath, filePath_eq_ok, hvalid]
    exact and_iff_right rfl

end

/-! ## Names that share a file -/

/-- The names are the same, or one of them is the other with the extension that it does not have. -/
def SameFile (a b : List Char) : Prop :=
  a = b ∨ Path.extension b ≠ json ∧ a = b ++ json ∨ Path.extension a ≠ json ∧ b = a ++ json

instance (a b : List Char) : Decidable (SameFile a b) := inferInstanceAs (Decidable (_ ∨ _))

/-- The path that `save` of a board writes first: the file path with `.tmp` appended. -/
def tempPath (filePath : Path) : Path := filePath ++ ".tmp".toList

theorem withJson_eq_iff {a b : Path} (ha : isValidFilename a = true) (hb : isValidFilename b = true) :
    withJson a = withJson b ↔ SameFile a b := by
  unfold SameFile
  have hextension : ∀ {name : Path}, isValidFilename name = true →
      (name ++ json).extension = json := by
    intro name hname
    obtain ⟨hne, hslash, -, -⟩ := (isValidFilename_iff name).mp hname
    exact Path.extension_append hne hslash (by decide) (by decide) (by decide)
  by_cases hexta : a.extension = json
  · rw [withJson_of_eq hexta]
    by_cases hextb : b.extension = json
    · rw [withJson_of_eq hextb]
      simp [hexta, hextb]
    · rw [withJson_of_ne hextb]
      constructor
      · exact fun h => .inr (.inl ⟨hextb, h⟩)
      · rintro (rfl | ⟨-, h⟩ | ⟨hne, -⟩)
        · exact absurd hexta hextb
        · exact h
        · exact absurd hexta hne
  · rw [withJson_of_ne hexta]
    by_cases hextb : b.extension = json
    · rw [withJson_of_eq hextb]
      constructor
      · exact fun h => .inr (.inr ⟨hexta, h.symm⟩)
      · rintro (rfl | ⟨hne, -⟩ | ⟨-, h⟩)
        · exact absurd hextb hexta
        · exact absurd hextb hne
        · exact h.symm
    · rw [withJson_of_ne hextb, List.append_left_inj]
      constructor
      · exact .inl
      · rintro (rfl | ⟨-, rfl⟩ | ⟨-, rfl⟩)
        · rfl
        · exact absurd (hextension hb) hexta
        · exact absurd (hextension ha) hextb

theorem ne_tempPath {p q stem : Path} (h : p = stem ++ json) : p ≠ tempPath q := by
  rintro rfl
  have hlast := congrArg List.getLast? h
  simp [tempPath, json] at hlast

/-- A component that ends in the extension is not the temporary file of another one. -/
theorem join_withJson_ne_tempPath {name : Path} (h : isValidFilename name = true)
    (directory q : Path) : directory.join (withJson name) ≠ tempPath q := by
  obtain ⟨hne, hslash, -, -⟩ := (isValidFilename_iff name).mp h
  obtain ⟨stem, -, heq, hstem⟩ := withJson_eq hne hslash
  obtain ⟨front, hfront⟩ : ∃ front, directory.join (withJson name) = front ++ json := by
    have hrelative : Path.isAbsolute (withJson name) = false :=
      Path.not_isAbsolute (withJson_isComponentOf h).slash
    rw [Path.join, if_neg (by simp [hrelative]), heq]
    split_ifs
    · exact ⟨directory ++ '/' :: stem, by simp⟩
    · exact ⟨directory ++ stem, by simp⟩
  exact ne_tempPath hfront

section

variable (createDirectories : Path → Except (List Char) Unit)

/-- What is stored under two accepted names shares a file exactly if the names are the same up to the
extension and the subdirectories are the same too, and the file of the one is never the temporary file
of the other. -/
theorem getFilePath_eq_iff (parent : Path) {subdirectory subdirectory' a b : List Char}
    (hsub : subdirectory ≠ [] ∧ '/' ∉ subdirectory)
    (hsub' : subdirectory' ≠ [] ∧ '/' ∉ subdirectory') :
    (∀ p q, getFilePathIn createDirectories parent subdirectory a = .ok p →
      getFilePathIn createDirectories parent subdirectory' b = .ok q →
        (p = q ↔ subdirectory = subdirectory' ∧ SameFile a b) ∧ p ≠ tempPath q) ∧
    ∀ p q, getFilePath createDirectories parent a = .ok p →
      getFilePath createDirectories parent b = .ok q → (p = q ↔ SameFile a b) ∧ p ≠ tempPath q := by
  have hcomponents : ∀ {name : Path}, isValidFilename name = true → ∀ directory : Path,
      (directory.join (withJson name)).components = directory.components ++ [withJson name] := by
    intro name hname directory
    obtain ⟨hne, hslash, -, -⟩ := (isValidFilename_iff name).mp hname
    obtain ⟨stem, hstem, heq, -⟩ := withJson_eq hne hslash
    apply Path.components_join directory _ (withJson_isComponentOf hname).slash
    rw [heq]
    simp [hstem]
  constructor
  · intro p q hp hq
    obtain ⟨ha, -, rfl⟩ := (filePath_eq_ok createDirectories).mp hp
    obtain ⟨hb, -, rfl⟩ := (filePath_eq_ok createDirectories).mp hq
    refine ⟨?_, join_withJson_ne_tempPath ha _ _⟩
    rw [← withJson_eq_iff ha hb]
    constructor
    · intro heq
      have h := congrArg Path.components heq
      rw [hcomponents ha, hcomponents hb, Path.components_join parent hsub.1 hsub.2,
        Path.components_join parent hsub'.1 hsub'.2, List.append_assoc, List.append_assoc,
        List.append_right_inj] at h
      simpa using h
    · rintro ⟨rfl, h⟩
      rw [h]
  · intro p q hp hq
    obtain ⟨ha, -, rfl⟩ := (filePath_eq_ok createDirectories).mp hp
    obtain ⟨hb, -, rfl⟩ := (filePath_eq_ok createDirectories).mp hq
    refine ⟨?_, join_withJson_ne_tempPath ha _ _⟩
    rw [← withJson_eq_iff ha hb]
    constructor
    · intro heq
      have h := congrArg Path.components heq
      rw [hcomponents ha, hcomponents hb, List.append_right_inj] at h
      simpa using h
    · intro h
      rw [h]

end

/-- A name with and without its extension, in a directory that can be created. -/
theorem getFilePath_eq_iff_global :
    ∃ p q, getFilePathIn (fun _ => .ok ()) "data".toList "leaderboards".toList "global".toList = .ok p ∧
      getFilePathIn (fun _ => .ok ()) "data".toList "leaderboards".toList "global.json".toList = .ok q ∧
      p = q ∧ p ≠ tempPath q := by
  have hsub : "leaderboards".toList ≠ [] ∧ '/' ∉ "leaderboards".toList := by decide
  obtain ⟨p, hp⟩ : ∃ p, getFilePathIn (fun _ => .ok ()) "data".toList "leaderboards".toList
      "global".toList = .ok p := ⟨_, rfl⟩
  obtain ⟨q, hq⟩ : ∃ q, getFilePathIn (fun _ => .ok ()) "data".toList "leaderboards".toList
      "global.json".toList = .ok q := ⟨_, rfl⟩
  obtain ⟨heq, hne⟩ :=
    (getFilePath_eq_iff (fun _ => .ok ()) "data".toList hsub hsub).1 p q hp hq
  exact ⟨p, q, hp, hq, heq.mpr ⟨rfl, by decide⟩, hne⟩

end ServerSimple.Storage.FileHelper
