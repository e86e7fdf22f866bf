-- The command line: what its arguments ask for, and what each command
-- prints.
import Quill.Compile
import Quill.Diagnostic.Frame
import Quill.Run.Eval
import Quill.Syntax.Document

namespace Quill

/-! ## Arguments -/

/-- How programs are checked and run. -/
structure Options where
  plain : Bool
  limit : Nat
deriving DecidableEq, Repr

/-- What the arguments ask for. -/
inductive Command where
  | run (file : String) (options : Options)
  | check (file : String) (options : Options)
  | parse (file : String)
  | tokens (file : String)
  | repl (options : Options)
  | version
deriving DecidableEq, Repr

namespace Command

/-- The arguments of a command as far as they have been read. Each may be
given once. -/
structure Given where
  file : Option String
  plain : Bool
  limit : Option Nat
deriving DecidableEq, Repr

/-- Takes a file name, unless there is one already. -/
def Given.withFile (g : Given) (name : String) : Option Given :=
  if g.file.isSome || name.isEmpty then none else some { g with file := some name }

/-- Takes the request for plain messages. -/
def Given.withPlain (g : Given) : Option Given :=
  if g.plain then none else some { g with plain := true }

/-- Takes a depth limit: digits, perhaps with a plus before them, for a
number of 64 bits. -/
def Given.withLimit (g : Given) (text : String) : Option Given :=
  let digits := match text.toList with
    | '+' :: cs => cs
    | cs => cs
  match g.limit, Decimal.readNat? UInt64.size digits with
  | none, some n => if n < UInt64.size then some { g with limit := some n } else none
  | _, _ => none

/-- Reads arguments in any order. After two dashes all are file names. -/
def read (options : Bool) (g : Given) : List String → Option Given
  | [] => some g
  | "--" :: rest => rest.foldlM Given.withFile g
  | "--plain" :: rest =>
    if options then do read options (← g.withPlain) rest else none
  | "--max-call-depth" :: value :: rest =>
    if options then do read options (← g.withLimit value) rest else none
  | arg :: rest =>
    if options && arg.startsWith "--max-call-depth=" then do
      read options (← g.withLimit (String.ofList (arg.toList.drop "--max-call-depth=".length))) rest
    else if arg.startsWith "-" && arg ≠ "-" then none
    else do read options (← g.withFile arg) rest

/-- The options that were given, and what holds without them. -/
def Given.options (g : Given) : Options := ⟨g.plain, g.limit.getD Run.defaultLimit⟩

/-- The command of a row of arguments. There is none for a row that
nobody can mean. -/
def ofArgs? : List String → Option Command
  | "run" :: rest => do
    let g ← read true ⟨none, false, none⟩ rest
    return run (← g.file) g.options
  | "check" :: rest => do
    let g ← read true ⟨none, false, none⟩ rest
    return check (← g.file) g.options
  | "parse" :: rest => do
    let g ← read false ⟨none, false, none⟩ rest
    return parse (← g.file)
  | "tokens" :: rest => do
    let g ← read false ⟨none, false, none⟩ rest
    return tokens (← g.file)
  | "repl" :: rest => do
    let g ← read true ⟨none, false, none⟩ rest
    if g.file.isSome then none else return repl g.options
  | arg :: _ => if arg = "--version" || arg.startsWith "-V" then some version else none
  | [] => none

end Command

/-! ## Effects -/

/-- How far a command has come: to its end, with what it printed, to a
crash, or to a request that the outside has not answered yet. -/
inductive Progress where
  | done (success : Bool) (out err : String) (outside : Outside)
  | crashed (cause : Crash) (out : String)
  | waiting (request : Request) (out : String)

namespace Progress

/-- Reads a source file and goes on with its text. -/
def withSource (path : String) (outside : Outside) (next : String → Outside → Progress) :
    Progress :=
  match outside.ask (.read path) with
  | none => waiting (.read path) ""
  | some (answer, after) =>
    match answer.bind Run.decode with
    | .ok source => next source after
    | .error e => done false "" s!"Error: cannot read {path}: {e.message}\n" after

/-- The end of a command whose source has errors. -/
def rejected (path source : String) (plain : Bool) (error : CompileError) (outside : Outside) :
    Progress :=
  let shown :=
    if error.diagnostics.isEmpty then s!"Error: {error.summary}\n"
    else if plain then Diagnostic.plain error.diagnostics
    else Diagnostic.framed path source error.diagnostics
  done false "" shown outside

/-- The end of a run. -/
def ofRun : EStateM.Result Run.Halt Run.State Unit → Progress
  | .ok _ s => done true s.output "" s.outside
  | .error (.fatal f) s => done false s.output (f.text ++ "\n") s.outside
  | .error (.crash cause) s => crashed cause s.output
  | .error (.awaits r) s => waiting r s.output
  | .error .outOfFuel s => done false s.output "Error: out of fuel\n" s.outside

end Progress

/-- A lexeme as a listing shows it. -/
def Lexeme.listing (x : Lexeme) : String :=
  s!"{x.token.label} @ {x.span.line}:{x.span.column} ({x.span.start}..{x.span.stop})"

namespace Command

/-- What `--version` prints. -/
def versionText : String := "quill 0.1.0\n"

/-- Carries out a command. The prompt is not carried out here. -/
def execute (c : Command) (fuel : Nat) (outside : Outside) : Progress :=
  match c with
  | run path options => Progress.withSource path outside fun source after =>
    match (compile source Analysis.initialScopes).2 with
    | .error e => .rejected path source options.plain e after
    | .ok p => .ofRun (p.run options.limit fuel (.initial after))
  | check path options => Progress.withSource path outside fun source after =>
    match (compile source Analysis.initialScopes).2 with
    | .error e => .rejected path source options.plain e after
    | .ok _ => .done true s!"✓ {path} checks successfully\n" "" after
  | parse path => Progress.withSource path outside fun source after =>
    match parseSource source with
    | .error e => .rejected path source false e after
    | .ok p => .done true (p.toJson.pretty 0 ++ "\n") "" after
  | tokens path => Progress.withSource path outside fun source after =>
    match tokenize source with
    | .error e => .rejected path source false (.lexical e) after
    | .ok lexemes => .done true (String.join (lexemes.map (·.listing ++ "\n"))) "" after
  | repl _ => .done true "" "" outside
  | version => .done true versionText "" outside

end Command

end Quill
