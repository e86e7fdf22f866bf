-- The trees that programs are read into. Every expression, statement,
-- block and name knows the span of the source it was read from.
import Quill.Token

namespace Quill

/-- A name where it stands in the source. -/
structure Name where
  text : String
  span : Span
deriving DecidableEq, Repr

/-- Operators between two operands. -/
inductive BinaryOp where
  | add | sub | mul | div | mod
  | bitAnd | bitOr | bitXor
  | eq | ne | lt | gt | le | ge
  | and | or
deriving DecidableEq, Repr

/-- Operators before one operand. -/
inductive UnaryOp where
  | pos | neg | bitNot | not
deriving DecidableEq, Repr

/-! ## Expressions -/

mutual

/-- An expression and its span. -/
structure Expr where
  node : ExprNode
  span : Span

/-- The forms of expressions. -/
inductive ExprNode where
  | int (value : Int64)
  | float (value : Float)
  | bool (value : Bool)
  | string (value : String)
  | array (elements : List Expr)
  | var (name : String)
  | binary (left : Expr) (op : BinaryOp) (right : Expr)
  | unary (op : UnaryOp) (operand : Expr)
  | range (first last : Expr)
  | index (base index : Expr)
  | call (callee : Name) (args : List Expr)
  | cast (target : TypeName) (operand : Expr)

end

instance : Inhabited ExprNode := ⟨.bool false⟩

instance : Inhabited Expr := ⟨⟨default, default⟩⟩

/-- The name that a chain of subscripts starts from. -/
def Expr.root? : Expr → Option Name
  | ⟨.var name, span⟩ => some ⟨name, span⟩
  | ⟨.index base _, _⟩ => base.root?
  | _ => none

/-! ## Statements -/

/-- The forms of what can stand before an arrow. -/
inductive TargetNode where
  | name (name : String)
  | element (base index : Expr)

/-- What an assignment writes to. -/
structure Target where
  node : TargetNode
  span : Span

/-- The name whose binding, or whose array, an assignment changes. -/
def Target.root? : Target → Option Name
  | ⟨.name name, span⟩ => some ⟨name, span⟩
  | ⟨.element base _, _⟩ => base.root?

mutual

/-- A statement and its span. -/
structure Stmt where
  node : StmtNode
  span : Span

/-- The forms of statements. An `else if` is a block of one statement. -/
inductive StmtNode where
  | expr (value : Expr)
  | assign (target : Target) (value : Expr)
  | cond (test : Expr) (yes : Block) (no : Option Block)
  | loop (test : Expr) (body : Block)
  | each (item : Name) (items : Expr) (body : Block)
  | times (count : Expr) (body : Block)
  | function (decl : FunctionDecl)
  | return (value : Option Expr)
  | stop
  | next

/-- Statements between braces. -/
structure Block where
  statements : List Stmt
  span : Span

/-- The declaration of a function. -/
structure FunctionDecl where
  name : Name
  params : List Name
  body : Block
  span : Span

end

instance : Inhabited StmtNode := ⟨.stop⟩

instance : Inhabited Stmt := ⟨⟨default, default⟩⟩

/-- The number of arguments that a function takes. -/
def FunctionDecl.arity (d : FunctionDecl) : Nat := d.params.length

/-- A program: the statements at the top level. -/
structure Program where
  statements : List Stmt

end Quill
