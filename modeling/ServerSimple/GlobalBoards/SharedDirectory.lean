import ServerSimple.Library.Sharing
import ServerSimple.GlobalBoards.SaveSteps
import ServerSimple.Storage.FileHelper

/-! # Boards that are stored together

Any number of boards keep their files below one directory, in one process or in several. As long as no
two of them have been given the same file, no board ever sees another one: not in its own file, not in
its temporary file, and wherever a save is interrupted.
-/

namespace ServerSimple.GlobalBoards

open Library Storage.FileHelper Board

/-- The files of all boards, and what each of them is doing. -/
structure SharedFiles {ι : Type*} (B : ι → Type) (Text : Type) where
  files : Path → Option Text
  process : (i : ι) → Process (B i) Text
  lastRenamed : (i : ι) → Option (B i)
  returned : (i : ι) → List (SaveRecord (B i) Text)

/-- No file belongs to two boards, and none is the temporary file of a board. -/
structure Apart {ι : Type*} (path : ι → Path) : Prop where
  distinct : ∀ {i j}, i ≠ j → path i ≠ path j
  notTemp : ∀ i j, path i ≠ tempPath (path j)

namespace SharedFiles

variable {ι : Type*} {B Params Call Out : ι → Type} {Text : Type}

/-- Before any board is constructed. -/
def start (files : Path → Option Text) : SharedFiles B Text :=
  ⟨files, fun _ => .down, fun _ => none, fun _ => []⟩

/-- What one board sees. -/
def view (path : ι → Path) (i : ι) (d : SharedFiles B Text) : System (B i) Text :=
  ⟨⟨d.files (path i), d.files (tempPath (path i))⟩, d.process i, d.lastRenamed i, d.returned i⟩

variable [DecidableEq ι]

/-- A board leaves behind its two files. -/
def put (path : ι → Path) (i : ι) (d : SharedFiles B Text) (s : System (B i) Text) :
    SharedFiles B Text where
  files := Function.update (Function.update d.files (path i) s.disk.file) (tempPath (path i)) s.disk.temp
  process := Function.update d.process i s.process
  lastRenamed := Function.update d.lastRenamed i s.lastRenamed
  returned := Function.update d.returned i s.returned

/-- The temporary files of different files are different. -/
theorem tempPath_injective : Function.Injective tempPath := fun _ _ h => List.append_cancel_right h

theorem view_put {path : ι → Path} (h : Apart path) (i : ι) (d : SharedFiles B Text)
    (s : System (B i) Text) : (put path i d s).view path i = s := by
  simp [view, put, Function.update_of_ne (h.notTemp i i)]

theorem view_put_of_ne {path : ι → Path} (h : Apart path) {i j : ι} (hne : j ≠ i)
    (d : SharedFiles B Text) (s : System (B i) Text) :
    (put path i d s).view path j = d.view path j := by
  have htemp : tempPath (path j) ≠ tempPath (path i) := fun heq =>
    h.distinct hne (tempPath_injective heq)
  simp [view, put, hne, htemp, h.distinct hne, h.notTemp j i, (h.notTemp i j).symm]

/-- The boards as components of the file system. -/
def parts {path : ι → Path} (h : Apart path) :
    Parts (SharedFiles B Text) (fun i => System (B i) Text) where
  view := view path
  put := put path
  view_put := view_put h
  view_put_of_ne hne := view_put_of_ne h hne

/-- The boards take their steps in any order. -/
def step (boards : (i : ι) → Board (B i) (Params i) (Call i) (Out i) Text) {path : ι → Path}
    (h : Apart path) : SharedFiles B Text → (Σ i, Label (Params i) (Call i) Text) →
      Option (SharedFiles B Text) :=
  (parts h).step fun i => (boards i).systemStep

/-! ## Isolation -/

omit [DecidableEq ι] in
/-- Names that do not share a file keep the boards apart. -/
theorem apart_of_getFilePath {createDirectories : Path → Except (List Char) Unit} {parent : Path}
    {subdirectory name : ι → List Char} {path : ι → Path}
    (hsub : ∀ i, subdirectory i ≠ [] ∧ '/' ∉ subdirectory i)
    (hpath : ∀ i, getFilePathIn createDirectories parent (subdirectory i) (name i) = .ok (path i))
    (hnames : ∀ i j, i ≠ j → subdirectory i = subdirectory j → ¬ SameFile (name i) (name j)) :
    Apart path where
  distinct {i j} hne heq := by
    obtain ⟨hsame, hname⟩ := ((getFilePath_eq_iff createDirectories parent (hsub i) (hsub j)).1 _ _
      (hpath i) (hpath j)).1.mp heq
    exact hnames i j hne hsame hname
  notTemp i j := ((getFilePath_eq_iff createDirectories parent (hsub i) (hsub j)).1 _ _
    (hpath i) (hpath j)).2

omit [DecidableEq ι] in
/-- Everything else on the disk. -/
def others (path : ι → Path) (d : SharedFiles B Text) :
    {p : Path // ∀ i, p ≠ path i ∧ p ≠ tempPath (path i)} → Option Text :=
  fun p => d.files p

theorem others_put (path : ι → Path) (i : ι) (d : SharedFiles B Text) (s : System (B i) Text) :
    (put path i d s).others path = d.others path := by
  funext p
  obtain ⟨hfile, htemp⟩ := p.2 i
  simp [others, put, hfile, htemp]

/-- However the steps of the boards are interleaved, and wherever their saves fail or stop: each board
and its files are as they would be without the others; so each file is untorn and each save tells the
truth. Nothing else is written, and the boards never keep one another from going on. -/
theorem boards_isolated (boards : (i : ι) → Board (B i) (Params i) (Call i) (Out i) Text)
    {createDirectories : Path → Except (List Char) Unit} {parent : Path}
    {subdirectory name : ι → List Char} {path : ι → Path}
    (hsub : ∀ i, subdirectory i ≠ [] ∧ '/' ∉ subdirectory i)
    (hpath : ∀ i, getFilePathIn createDirectories parent (subdirectory i) (name i) = .ok (path i))
    (hnames : ∀ i j, i ≠ j → subdirectory i = subdirectory j → ¬ SameFile (name i) (name j))
    (files : Path → Option Text) (labels : List (Σ i, Label (Params i) (Call i) Text)) :
    (∀ u, run (step boards (apart_of_getFilePath hsub hpath hnames)) (start files) labels = some u →
      (∀ i, run (boards i).systemStep (.start ⟨files (path i), files (tempPath (path i))⟩)
          (labelsOf i labels) = some (u.view path i) ∧
        (boards i).Untorn (files (path i)) (u.view path i) ∧
        ∀ r ∈ u.returned i, (boards i).Faithful r) ∧
      ∀ p, (∀ i, p ≠ path i ∧ p ≠ tempPath (path i)) → u.files p = files p) ∧
    ((∀ i, (run (boards i).systemStep (.start ⟨files (path i), files (tempPath (path i))⟩)
        (labelsOf i labels)).isSome) →
      (run (step boards (apart_of_getFilePath hsub hpath hnames)) (start files) labels).isSome) := by
  constructor
  · intro u hrun
    refine ⟨fun i => ?_, fun p hp => ?_⟩
    · have hview := Parts.run_view hrun i
      exact ⟨hview, untorn_and_faithful_run hview⟩
    · have hframe := Parts.run_frame (others path) (others_put path) hrun
      exact congrFun hframe ⟨p, hp⟩
  · exact fun h => Parts.run_isSome h

/-- The names of two leaderboards. -/
def boardName (i : Bool) : List Char := if i then "weekly".toList else "global.json".toList

def boardPath (i : Bool) : Path :=
  Path.join (Path.join "data".toList "leaderboards".toList) (withJson (boardName i))

theorem boardPath_eq : ∀ i, getFilePathIn (fun _ => .ok ()) "data".toList "leaderboards".toList
    (boardName i) = .ok (boardPath i) := by decide

theorem apart_boardPath : Apart boardPath :=
  apart_of_getFilePath (fun _ => by decide) boardPath_eq (by decide)

/-- Both boards are saved, their steps in turn; one save is interrupted by a crash. -/
def sharedSession : List (Σ _ : Bool, Label (ℕ × Bool) (Submission ℤ) Json) :=
  [⟨true, .construct (2, true)⟩, ⟨false, .construct (2, true)⟩, ⟨true, .call ⟨"a", 1, 10, 0, 0⟩⟩,
    ⟨true, .save⟩, ⟨false, .save⟩] ++
    (List.replicate 5 [⟨true, plainStep true⟩, ⟨false, plainStep true⟩]).flatten ++
    [⟨false, .crash⟩, ⟨true, plainStep true⟩, ⟨true, plainStep true⟩]

theorem boards_isolated_interrupted : ∃ u,
    run (step (fun _ => Leaderboard.board Json.library) apart_boardPath) (start fun _ => none)
      sharedSession = some u ∧
    (u.files (boardPath true)).isSome = true ∧ u.files (boardPath false) = none ∧
    ∀ i, (Leaderboard.board Json.library).Untorn none (u.view boardPath i) := by
  have hends : ((run (step (fun _ => Leaderboard.board Json.library) apart_boardPath)
      (start fun _ => none) sharedSession).map fun u =>
        ((u.files (boardPath true)).isSome, (u.files (boardPath false)).isSome)) =
          some (true, false) := by decide +kernel
  obtain ⟨u, hu, hfiles⟩ := Option.map_eq_some_iff.mp hends
  obtain ⟨hsaved, hcrashed⟩ := Prod.mk.inj hfiles
  have hisolated := (boards_isolated (fun _ => Leaderboard.board Json.library)
    (fun _ => by decide) boardPath_eq (by decide) (fun _ => none) sharedSession).1 u hu
  refine ⟨u, hu, hsaved, ?_, fun i => (hisolated.1 i).2.1⟩
  rwa [Option.isSome_eq_false_iff, Option.isNone_iff_eq_none] at hcrashed

end SharedFiles
end ServerSimple.GlobalBoards
