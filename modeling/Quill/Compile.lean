-- From source text to a program that is ready to run, or to the errors
-- that keep it from running.
import Quill.Analysis
import Quill.Syntax.StmtReader
import Quill.Token.Lexer

namespace Quill

/-! ## Errors -/

/-- Why a source text gives no program. -/
inductive CompileError where
  | lexical (failure : Lexer.Failure)
  | syntactic (errors : List Diagnostic)
  | semantic (errors : List Diagnostic)
  | unreadable (reason : String)

namespace CompileError

/-- Every single error, with its place. -/
def diagnostics : CompileError → List Diagnostic
  | lexical failure => [⟨failure.error.message, failure.span⟩]
  | syntactic errors | semantic errors => errors
  | unreadable _ => []

/-- The place of the first error. -/
def span? (e : CompileError) : Option Span := e.diagnostics.head?.map (·.span)

/-- The wording of the first error. -/
def message (e : CompileError) : String :=
  match e with
  | unreadable reason => reason
  | _ => e.diagnostics.head?.elim "invalid program" (·.message)

/-- The error as a whole, on one line. -/
def summary : CompileError → String
  | lexical failure => s!"Lexer error at {failure.span.describe}: {failure.error.message}"
  | syntactic errors => s!"Syntax error: {errors.length} diagnostic(s)"
  | semantic errors => s!"Semantic error: {errors.length} diagnostic(s)"
  | unreadable reason => s!"IO error: {reason}"

end CompileError

/-! ## Stages -/

/-- Reads a source text without analyzing it. -/
def parseSource (source : String) : Except CompileError Program := do
  let lexemes ← (tokenize source).mapError .lexical
  (parse source lexemes).mapError .syntactic

/-- Reads a source text and analyzes it in known scopes. Gives the scopes
after it, and the program if there is no error at all. -/
def compile (source : String) (scopes : ScopeTree Function) :
    ScopeTree Function × Except CompileError Program :=
  match parseSource source with
  | .error e => (scopes, .error e)
  | .ok p =>
    match p.analyze scopes with
    | (after, []) => (after, .ok p)
    | (after, errors) => (after, .error (.semantic errors))

end Quill
