import ServerSimple.Library.Traces
import ServerSimple.GlobalBoards.Boards

/-! # Sessions with a board

Calls and queries, and at any point a save followed by the construction of a new board from the file.
If two boards are related in a way that calls and queries do not see and that a reload keeps, the
reloads of a session cannot be observed.
-/

namespace ServerSimple.GlobalBoards

open Library

namespace Board

/-- What is done to a board and its file. -/
inductive Command (Call Query Text : Type) where
  | call (call : Call)
  | query (query : Query)
  | reload (io : Leaderboard.SaveOutcome Text)

/-- What is seen of a board: what a call returns, and the rows that a query lists. -/
inductive Observation (Out Row : Type) where
  | returned (out : Out)
  | listed (rows : List Row)
  deriving DecidableEq

variable {B Params Call Out Query Row Text : Type}

def Command.isReload : Command Call Query Text → Bool
  | .reload _ => true
  | _ => false

/-- The calls among the commands. -/
def calls (commands : List (Command Call Query Text)) : List Call :=
  commands.filterMap fun
    | .call call => some call
    | _ => none

variable (board : Board B Params Call Out Text) (answer : B → Query → Option (List Row))
  (params : Params)

/-- A command. Reloading saves the board and, if that succeeds, constructs a new one from the file
with the same parameters. -/
def perform : B × Leaderboard.Disk Text → Command Call Query Text →
    Option ((B × Leaderboard.Disk Text) × List (Observation Out Row))
  | (b, disk), .call call => (board.call b call).map fun r => ((r.1, disk), [.returned r.2])
  | (b, disk), .query query => (answer b query).map fun rows => ((b, disk), [.listed rows])
  | (b, disk), .reload io => (board.save b disk io).bind fun r =>
    if r.1 then (board.construct params r.2.file).map fun b' => ((b', r.2), []) else some ((b, r.2), [])

/-- The board after a call. -/
def step (b : B) (call : Call) : Option B := (board.call b call).map Prod.fst

/-- A relation of boards that calls and queries do not see and that a reload keeps. -/
structure Unobservable (related : B → B → Prop) : Prop where
  call : ∀ b b' c, related b b' → ∃ d d' out,
    board.call b c = some (d, out) ∧ board.call b' c = some (d', out) ∧ related d d'
  query : ∀ b b' q, related b b' → ∃ rows, answer b q = some rows ∧ answer b' q = some rows
  reload : ∀ b b', related b b' → ∃ text, board.dump b = some text ∧
    ∀ t, text = some t → ∃ d, board.construct params (some t) = some d ∧ related d b'

variable {board answer params} {related : B → B → Prop}

/-- The same is seen of both boards. -/
theorem Unobservable.perform (h : board.Unobservable answer params related)
    (s s' : B × Leaderboard.Disk Text) (command : Command Call Query Text)
    (hrelated : related s.1 s'.1) (hcommand : command.isReload = false) :
    ∃ t t' out, board.perform answer params s command = some (t, out) ∧
      board.perform answer params s' command = some (t', out) ∧ related t.1 t'.1 := by
  obtain ⟨b, disk⟩ := s
  obtain ⟨b', disk'⟩ := s'
  cases command with
  | call c =>
    obtain ⟨d, d', out, hcall, hcall', hd⟩ := h.call b b' c hrelated
    exact ⟨(d, disk), (d', disk'), _, congrArg (Option.map _) hcall,
      congrArg (Option.map _) hcall', hd⟩
  | query q =>
    obtain ⟨rows, hrows, hrows'⟩ := h.query b b' q hrelated
    exact ⟨(b, disk), (b', disk'), _, congrArg (Option.map _) hrows,
      congrArg (Option.map _) hrows', hrelated⟩
  | reload io => cases hcommand

/-- A reload of one of them keeps them related. -/
theorem Unobservable.perform_reload (h : board.Unobservable answer params related)
    (s s' : B × Leaderboard.Disk Text) (command : Command Call Query Text)
    (hrelated : related s.1 s'.1) (hcommand : command.isReload = true) :
    ∃ t, board.perform answer params s command = some (t, []) ∧ related t.1 s'.1 := by
  obtain ⟨b, disk⟩ := s
  cases command with
  | call c => cases hcommand
  | query q => cases hcommand
  | reload io =>
    obtain ⟨text, hdump, hreload⟩ := h.reload b s'.1 hrelated
    rw [Board.perform, Board.save, hdump, Option.map_some, Option.bind_some]
    rcases saveFile_file text disk io with ⟨hfailed, -⟩ | ⟨hsaved, hsome, hfile⟩
    · rw [hfailed, if_neg Bool.false_ne_true]
      exact ⟨_, rfl, hrelated⟩
    · obtain ⟨t, ht⟩ := Option.isSome_iff_exists.mp hsome
      obtain ⟨d, hconstruct, hd⟩ := hreload t ht
      rw [hsaved, if_pos rfl, hfile, ht, hconstruct]
      exact ⟨_, rfl, hd⟩

/-- Leaving out all reloads changes nothing that is seen. -/
theorem Unobservable.trace (h : board.Unobservable answer params related) {b b' : B}
    (hrelated : related b b') (disk : Leaderboard.Disk Text)
    (commands : List (Command Call Query Text)) :
    ∃ t t' seen, Library.trace (board.perform answer params) (b, disk) commands = some (t, seen) ∧
      Library.trace (board.perform answer params) (b', disk)
        (commands.filter fun command => !command.isReload) = some (t', seen) ∧
      related t.1 t'.1 := by
  have hstart : (fun s s' : B × Leaderboard.Disk Text => related s.1 s'.1) (b, disk) (b', disk) :=
    hrelated
  exact trace_erase_silent _
    (fun s s' command hrelated hcommand _ => h.perform s s' command hrelated hcommand)
    h.perform_reload hstart (guarded_true (b', disk) _)

/-- A reload is no call. -/
theorem calls_filter (commands : List (Command Call Query Text)) :
    calls (commands.filter fun command => !command.isReload) = calls commands := by
  unfold calls
  induction commands with
  | nil => rfl
  | cons command commands ih =>
    cases command with
    | call c => simpa [Command.isReload] using ih
    | query q => simpa [Command.isReload] using ih
    | reload io => simpa [Command.isReload] using ih

/-- Without reloads only the calls change the board. -/
theorem run_of_trace {commands : List (Command Call Query Text)}
    (hcommands : ∀ command ∈ commands, command.isReload = false) {b : B}
    {disk : Leaderboard.Disk Text} {t : B × Leaderboard.Disk Text}
    {seen : List (Observation Out Row)}
    (h : Library.trace (board.perform answer params) (b, disk) commands = some (t, seen)) :
    run board.step b (calls commands) = some t.1 := by
  induction commands generalizing b disk seen with
  | nil =>
    cases h
    rfl
  | cons command commands ih =>
    have hrest := fun c hc => hcommands c (List.mem_cons_of_mem command hc)
    rw [Library.trace, Option.bind_eq_some_iff] at h
    obtain ⟨⟨⟨b', disk'⟩, out⟩, hperform, h⟩ := h
    obtain ⟨⟨u, seen'⟩, htrace, hu⟩ := Option.map_eq_some_iff.mp h
    cases hu
    cases command with
    | call c =>
      obtain ⟨r, hcall, hr⟩ := Option.map_eq_some_iff.mp hperform
      cases hr
      exact run_cons_eq_some.mpr ⟨r.1, congrArg (Option.map Prod.fst) hcall, ih hrest htrace⟩
    | query q =>
      obtain ⟨rows, hanswer, hrows⟩ := Option.map_eq_some_iff.mp hperform
      cases hrows
      exact ih hrest htrace
    | reload io => cases hcommands _ List.mem_cons_self

end Board
end ServerSimple.GlobalBoards
