-- Working line by line: what one line declares and computes is there for
-- the next.
import Quill.Compile
import Quill.Run.Eval

namespace Quill

/-- What is kept between lines: the names that the checker knows, and the
state of the run. -/
structure Session where
  scopes : ScopeTree Function
  state : Run.State

/-- Why a line has no result. -/
inductive LineError where
  | rejected (error : CompileError)
  | halted (reason : Run.Halt)

/-- The error as it is shown. Several errors stand on a line each. -/
def LineError.text : LineError → String
  | .rejected (.unreadable reason) => s!"Error: {reason}"
  | .rejected error => "\n".intercalate (error.diagnostics.map Diagnostic.text)
  | .halted (.fatal error) => error.text
  | .halted (.crash cause) => s!"Error: {cause.message}"
  | .halted (.awaits _) => "Error: no answer from outside"
  | .halted .outOfFuel => "Error: out of fuel"

namespace Session

/-- A session before its first line. -/
def initial (outside : Outside) : Session := ⟨Analysis.initialScopes, .initial outside⟩

/-- What a program gives back to the prompt: the value of its only
statement if that is an expression, unless it is nothing. -/
def resultIn {m : Type → Type} [Monad m] [MonadExcept Run.Halt m] (M : Run.Mode m) (p : Program)
    (limit fuel : Nat) : m (Option Value) :=
  match p.statements with
  | [⟨.expr e, _⟩] => do
    match ← M.eval limit fuel ScopeTree.globalId e with
    | .void => return none
    | v => return some v
  | statements => do
    M.topLevel limit fuel statements
    return none

/-- The result of a program in a plain run. -/
def result (p : Program) (limit fuel : Nat) : Run (Option Value) := resultIn .plain p limit fuel

/-- Checks and runs one line. -/
def evalLine (s : Session) (limit fuel : Nat) (line : String) :
    Session × Except LineError (Option Value) :=
  match compile line s.scopes with
  | (scopes, .error e) => ({ s with scopes }, .error (.rejected e))
  | (scopes, .ok p) =>
    match result p limit fuel s.state with
    | .ok v state => (⟨scopes, state⟩, .ok v)
    | .error h state => (⟨scopes, state⟩, .error (.halted h))

end Session

end Quill
