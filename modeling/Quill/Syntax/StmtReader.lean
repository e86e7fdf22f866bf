-- Reading statements, blocks and whole programs.
import Quill.Source.LineIndex
import Quill.Syntax.ExprReader

namespace Quill.Reader

/-! ## Parts of statements -/

/-- A name. -/
def name (what : String) : Reader Name := do
  match ← peek? with
  | some (.ident text) =>
    let span ← nextSpan
    advance
    return ⟨text, span⟩
  | _ => expected what

/-- The span from `start` to the token read last. -/
def spanFrom (start : Span) : Reader Span := return start.merge (← lastSpan)

/-- What an expression before an arrow means: a name, or an element of an
array that a name leads to. -/
def target (e : Expr) : Reader Target :=
  match e.node, e.root? with
  | .var name, _ => return ⟨.name name, e.span⟩
  | .index base index, some _ => return ⟨.element base index, e.span⟩
  | _, _ => throw ⟨"Invalid assignment target", e.span⟩

/-- An expression, or an assignment to it. -/
def simple (expr : Reader Expr) : Reader StmtNode := do
  let e ← expr
  match ← take? (.symbol .arrow) with
  | none => return .expr e
  | some _ =>
    let place ← target e
    let value ← expr
    return .assign place value

/-- The parameters of a function, up to the closing parenthesis. -/
def parameters (turns : Nat) : Reader (List Name) := do
  if ← nextIs (.symbol .rparen) then return []
  else separated (name "parameter name") turns

/-! ## Statements -/

namespace Mode

variable {m : Type → Type} [Monad m] (M : Mode m)

/-- Statements between braces. -/
def block (turns : Nat) (stmt : m Stmt) : m Block := M.enclosed do
  let opening ← M.look (expect (.symbol .lbrace))
  let statements ← M.itemsUntil (· = .symbol .rbrace) stmt turns
  let close ← M.look (expect (.symbol .rbrace))
  return ⟨statements, opening.merge close⟩

/-- A statement from its form: its span, and a semicolon that may follow
it. -/
def stmtOf (node : m StmtNode) : m Stmt := do
  let start ← M.look nextSpan
  let n ← node
  let span ← M.look (spanFrom start)
  let _ ← M.look (take? (.symbol .semi))
  return ⟨n, span⟩

/-- The declaration of a function, from its keyword on. -/
def function (turns : Nat) (block : m Block) : m FunctionDecl := do
  let start ← M.look nextSpan
  M.look advance
  let fnName ← M.look (name "function name")
  let _ ← M.look (expect (.symbol .lparen))
  let params ← M.look (parameters turns)
  let _ ← M.look (expect (.symbol .rparen))
  let body ← block
  return ⟨fnName, params, body, ← M.look (spanFrom start)⟩

/-- What follows an `if` and its first block. -/
def otherwise (node : m StmtNode) (block : m Block) : m (Option Block) := do
  match ← M.look (take? (.keyword .elseKw)) with
  | none => return none
  | some _ =>
    if ← M.look (nextIs (.keyword .ifKw)) then
      let start ← M.look nextSpan
      let n ← node
      let span ← M.look (spanFrom start)
      return some ⟨[⟨n, span⟩], span⟩
    else
      return some (← block)

/-- The form of a statement, where `expr` reads its expressions and `node`
the statements inside it. -/
def nodeFrom (turns : Nat) (expr : Reader Expr) (node : m StmtNode) : m StmtNode := do
  let block := M.block turns (M.stmtOf node)
  match ← M.look peek? with
  | some (.keyword .functionKw) => return .function (← M.function turns block)
  | some (.keyword .ifKw) =>
    M.look advance
    let test ← M.look expr
    let yes ← block
    return .cond test yes (← M.otherwise node block)
  | some (.keyword .whileKw) =>
    M.look advance
    let test ← M.look expr
    return .loop test (← block)
  | some (.keyword .forKw) =>
    M.look advance
    let item ← M.look (name "loop variable")
    let _ ← M.look (expect (.keyword .inKw))
    let items ← M.look expr
    return .each item items (← block)
  | some (.keyword .repeatKw) =>
    M.look advance
    let count ← M.look expr
    return .times count (← block)
  | some (.keyword .returnKw) =>
    M.look advance
    if (← M.look peek?).any Token.startsExpression then return .return (some (← M.look expr))
    else return .return none
  | some (.keyword .stopKw) =>
    M.look advance
    return .stop
  | some (.keyword .nextKw) =>
    M.look advance
    return .next
  | _ => M.look (simple expr)

/-- The form of a statement where fewer than `bound` tokens are ahead. -/
def nodeWithin : Nat → m StmtNode
  | 0 => M.look (expected "expression")
  | bound + 1 => M.nodeFrom bound (exprWithin (bound + 1)) (nodeWithin bound)

/-- All statements up to the end of the text. -/
def program : m Program := do
  let turns ← M.look remaining
  return ⟨← M.itemsUntil (fun _ => false) (M.stmtOf (M.nodeWithin (turns + 1))) turns⟩

end Mode

/-- Reads all statements up to the end of the text. -/
def program : Reader Program := plain.program

/-- The state before the first of `lexemes`. -/
def State.initial (atEnd : Span) (lexemes : List Lexeme) : State := ⟨lexemes, none, atEnd, .empty⟩

end Quill.Reader

namespace Quill

/-- Reads lexemes into a program, or gives all syntax errors. `atEnd` is
the span of the end of the text. -/
def parseLexemes (atEnd : Span) (lexemes : List Lexeme) : Except (List Diagnostic) Program :=
  match Reader.program (.initial atEnd lexemes) with
  | .ok p s => if s.reporter.hasErrors then .error s.reporter.kept else .ok p
  | .error d s => .error (s.reporter.kept ++ [d])

/-- Reads the lexemes of a source text into a program. -/
def parse (source : String) (lexemes : List Lexeme) : Except (List Diagnostic) Program :=
  parseLexemes (.atEnd source) lexemes

end Quill
