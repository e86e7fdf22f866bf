-- Checking a program before it runs: every name is declared before it is
-- used, functions and variables are not taken for each other, calls have
-- the right number of arguments, and `stop`, `next`, `return` and
-- declarations stand only where they may.
import Quill.Diagnostic
import Quill.Function

namespace Quill

/-! ## State -/

/-- What an analysis knows: the names in scope, where a variable has no
value and a function is its own, and what has been reported. -/
structure Analysis where
  scopes : ScopeTree Function
  reporter : Reporter

/-- A step of analysis. -/
abbrev Analyze := StateM Analysis

namespace Analysis

/-- The names that are known before the first line: the built-in
functions. -/
def initialScopes : ScopeTree Function :=
  Builtin.all.foldl (fun t b => t.insert ScopeTree.globalId b.name (some b.toFunction)) .empty

/-- Reports an error. Errors of an analysis do not hide each other. -/
def report (message : String) (span : Span) : Analyze Unit :=
  modify fun a => { a with reporter := a.reporter.report ⟨message, span⟩ true }

/-- Declares a name in a scope: a variable, or a function. -/
def declare (scope : ScopeId) (name : String) (function : Option Function) : Analyze Unit :=
  modify fun a => { a with scopes := a.scopes.insert scope name function }

/-- Declares the parameters of a function as variables. -/
def declareParams (scope : ScopeId) (params : List Name) : Analyze Unit :=
  modify fun a =>
    { a with scopes := params.foldl (fun t p => t.insert scope p.text none) a.scopes }

/-- Analyzes something in a new scope, which is gone afterwards. -/
def within (enter : ScopeTree Function → ScopeTree Function) (body : ScopeId → Analyze Unit) :
    Analyze Unit := do
  let inner := (← get).scopes.size
  modify fun a => { a with scopes := enter a.scopes }
  body inner
  modify fun a => { a with scopes := a.scopes.keep inner }

/-! ## Names -/

/-- A name that is used as a variable must be declared and no
function. -/
def useVariable (scope : ScopeId) (name : String) (span : Span) : Analyze Unit := do
  match (← get).scopes.find? scope name with
  | none => report s!"Undeclared identifier '{name}'" span
  | some ⟨_, some _⟩ => report s!"Identifier '{name}' is a function" span
  | some ⟨_, none⟩ => return

/-- A name that is called must be a function of so many arguments. -/
def useFunction (scope : ScopeId) (callee : Name) (arguments : Nat) : Analyze Unit := do
  match (← get).scopes.find? scope callee.text with
  | none => report s!"Undeclared identifier '{callee.text}'" callee.span
  | some ⟨_, some f⟩ =>
    if f.arity ≠ arguments then
      report s!"Incorrect number of arguments to function '{callee.text}'" callee.span
  | some ⟨_, none⟩ => report s!"Identifier '{callee.text}' is not a function" callee.span

/-- A name that is assigned to becomes a variable of the scope if it is
not seen from there. -/
def assignVariable (scope : ScopeId) (name : String) : Analyze Unit := do
  if !(← get).scopes.binds scope name then declare scope name none

/-- A declaration of a function belongs to the global scope, where its
name must be new. -/
def declareFunction (scope : ScopeId) (d : FunctionDecl) : Analyze Unit := do
  let isGlobal := (← get).scopes.isGlobal scope
  if !isGlobal then report "Function declaration outside of global scope" d.span
  if isGlobal && (← get).scopes.bindsIn scope d.name.text then
    report s!"Identifier '{d.name.text}' already declared" d.name.span
  else
    declare scope d.name.text (some (.ofDecl d))

/-! ## Expressions -/

mutual

/-- Analyzes an expression from left to right. -/
def expr (scope : ScopeId) : Expr → Analyze Unit
  | ⟨.int _, _⟩ | ⟨.float _, _⟩ | ⟨.bool _, _⟩ | ⟨.string _, _⟩ => return
  | ⟨.array elements, _⟩ => exprs scope elements
  | ⟨.var name, span⟩ => useVariable scope name span
  | ⟨.binary left _ right, _⟩ => do
    expr scope left
    expr scope right
  | ⟨.unary _ operand, _⟩ => expr scope operand
  | ⟨.range first last, _⟩ => do
    expr scope first
    expr scope last
  | ⟨.index base index, _⟩ => do
    expr scope base
    expr scope index
  | ⟨.call callee args, _⟩ => do
    useFunction scope callee args.length
    exprs scope args
  | ⟨.cast _ operand, _⟩ => expr scope operand

/-- Analyzes expressions in order. -/
def exprs (scope : ScopeId) : List Expr → Analyze Unit
  | [] => return
  | e :: es => do
    expr scope e
    exprs scope es

end

/-! ## Statements -/

/-- Analyzes what an assignment writes to. Only a bare name declares
anything; the root of a chain of subscripts is looked at first. -/
def target (scope : ScopeId) (t : Target) : Analyze Unit :=
  match t.node with
  | .name name => assignVariable scope name
  | .element base index => do
    if let some root := t.root? then useVariable scope root.text root.span
    expr scope base
    expr scope index

/-- A statement that only makes sense in a loop. -/
def needsLoop (scope : ScopeId) (word : String) (span : Span) : Analyze Unit := do
  if !(← get).scopes.inLoop scope then report s!"'{word}' statement outside of loop" span

/-- A statement that only makes sense in a function. -/
def needsFunction (scope : ScopeId) (word : String) (span : Span) : Analyze Unit := do
  if !(← get).scopes.inFunction scope then report s!"'{word}' statement outside of function" span

section Statements

variable (look : ScopeId → Target → Analyze Unit)

mutual

/-- Analyzes a statement, where `look` analyzes what is assigned to. The
value of an assignment comes before its target, and every block has a scope
of its own. -/
def stmt (scope : ScopeId) : Stmt → Analyze Unit
  | ⟨.expr value, _⟩ => expr scope value
  | ⟨.assign place value, _⟩ => do
    expr scope value
    look scope place
  | ⟨.cond test yes none, _⟩ => do
    expr scope test
    within (·.addBlock scope) fun inner => block inner yes
  | ⟨.cond test yes (some no), _⟩ => do
    expr scope test
    within (·.addBlock scope) fun inner => block inner yes
    within (·.addBlock scope) fun inner => block inner no
  | ⟨.loop test body, _⟩ => do
    expr scope test
    within (·.addLoop scope) fun inner => block inner body
  | ⟨.each item items body, _⟩ => do
    expr scope items
    within (·.addLoop scope) fun outer => do
      declare outer item.text none
      within (·.addBlock outer) fun inner => block inner body
  | ⟨.times count body, _⟩ => do
    expr scope count
    within (·.addLoop scope) fun inner => block inner body
  | ⟨.function ⟨name, params, body, declSpan⟩, _⟩ => do
    declareFunction scope ⟨name, params, body, declSpan⟩
    within (·.addChild scope false true) fun frame => do
      declareParams frame params
      block frame body
  | ⟨.return none, span⟩ => needsFunction scope "return" span
  | ⟨.return (some value), span⟩ => do
    needsFunction scope "return" span
    expr scope value
  | ⟨.stop, span⟩ => needsLoop scope "stop" span
  | ⟨.next, span⟩ => needsLoop scope "next" span

/-- Analyzes the statements of a block. -/
def block (scope : ScopeId) : Block → Analyze Unit
  | ⟨statements, _⟩ => stmts scope statements

/-- Analyzes statements in order. -/
def stmts (scope : ScopeId) : List Stmt → Analyze Unit
  | [] => return
  | s :: ss => do
    stmt scope s
    stmts scope ss

end

end Statements

end Analysis

/-- Analyzes a program in known scopes, where `look` analyzes what is
assigned to. Gives the scopes after it, which keep what it declared even if
it has errors, and the errors. -/
def Program.analyzeWith (look : ScopeId → Target → Analyze Unit) (p : Program)
    (scopes : ScopeTree Function) : ScopeTree Function × List Diagnostic :=
  let ((), a) := (Analysis.stmts look ScopeTree.globalId p.statements).run ⟨scopes, .empty⟩
  (a.scopes, a.reporter.kept)

/-- Analyzes a program in known scopes. -/
def Program.analyze (p : Program) (scopes : ScopeTree Function) :
    ScopeTree Function × List Diagnostic := p.analyzeWith Analysis.target scopes

end Quill
