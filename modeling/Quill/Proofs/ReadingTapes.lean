-- Watched readings. A watched reading does what the reading does, and notes
-- on a tape every statement that is tried, with the error that it failed
-- with if it did, and every block that is read to its closing brace.
import Mathlib
import Quill.Syntax.StmtReader

namespace Quill.Reader

/-! ## Events -/

/-- The state in which the remains of a statement are skipped that began at
`start` and failed at `t`: at least one lexeme further on. -/
def State.beyond (t start : State) : State :=
  if t.ahead.length = start.ahead.length then t.advance else t

/-- What is skipped from a state on to where a statement may begin. -/
def State.skipped (s : State) : List Lexeme :=
  s.ahead.take (s.ahead.length - (skipStatement 0 s.last s.ahead).2.length)

/-- How a statement failed: its error, the state in which that came up, and
what was skipped as its remains. -/
structure Failure where
  error : Diagnostic
  raised : State
  skipped : List Lexeme

/-- What happens in a reading. -/
inductive Event where
  /-- A statement has been tried. -/
  | tried (start : State) (failure : Option Failure) (finish : State)
  /-- A block has been read from its opening brace to its closing one. -/
  | block (start finish : State)

/-- The state in which an event begins. -/
def Event.start : Event → State
  | .tried s _ _ | .block s _ => s

/-- The state in which an event ends. -/
def Event.finish : Event → State
  | .tried _ _ t | .block _ t => t

/-- The error of a statement that failed. -/
def Event.error? : Event → Option Diagnostic
  | .tried _ failure _ => failure.map Failure.error
  | .block _ _ => none

/-- The state of a watched reading: the state of the reading, and all that
has happened so far. -/
structure Tape where
  state : State
  past : List Event

/-- The tape after an event that has led to the state `t`. -/
def Tape.note (r : Tape) (event : Event) (t : State) : Tape := ⟨t, r.past ++ [event]⟩

/-- A step of a watched reading. -/
abbrev Watched := EStateM Diagnostic Tape

/-! ## Watched readings -/

namespace Watched

variable {α : Type}

/-- Does steps in which no statement is tried. -/
def look (m : Reader α) : Watched α := fun r =>
  match m r.state with
  | .ok x t => .ok x { r with state := t }
  | .error d t => .error d { r with state := t }

/-- Tries `item` and notes how that went. -/
def recovering (item : Watched α) : Watched (Option α) := fun r =>
  match item r with
  | .ok x u => .ok (some x) (u.note (.tried r.state none u.state) u.state)
  | .error d u =>
    let from_ := u.state.beyond r.state
    let next := from_.resume d
    .ok none (u.note (.tried r.state (some ⟨d, u.state, from_.skipped⟩) next) next)

/-- Reads a block and notes where it began and ended. -/
def enclosed (block : Watched α) : Watched α := fun r =>
  match block r with
  | .ok x u => .ok x (u.note (.block r.state u.state) u.state)
  | .error d u => .error d u

end Watched

/-- Reads and notes what happens. -/
def watching : Mode Watched := ⟨Watched.look, Watched.recovering, Watched.enclosed⟩

section Watching

variable {α : Type} (w : Watched α)

@[simp] theorem watching_look (m : Reader α) : watching.look m = Watched.look m := rfl

@[simp] theorem watching_recovering : watching.recovering w = w.recovering := rfl

@[simp] theorem watching_enclosed : watching.enclosed w = w.enclosed := rfl

end Watching

/-- All that happens while lexemes are read into a program, in order. What
happens inside a statement or a block comes before it. -/
def events (atEnd : Span) (lexemes : List Lexeme) : List Event :=
  match watching.program ⟨.initial atEnd lexemes, []⟩ with
  | .ok _ r | .error _ r => r.past

end Quill.Reader
