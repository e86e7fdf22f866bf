-- Programs as documents: every node is a record of its form and its span.
import Quill.Json
import Quill.Syntax

namespace Quill

/-! ## Parts -/

/-- A span as a record. -/
def Span.toJson (s : Span) : Json :=
  .object [("start", .int s.start), ("end", .int s.stop), ("line", .int s.line.toNat),
    ("column", .int s.column.toNat)]

/-- A form together with its span. -/
def Json.placed (node : Json) (span : Span) : Json :=
  .object [("node", node), ("span", span.toJson)]

/-- A form that is known by a label. -/
def Json.labelled (label : String) (content : Json) : Json := .object [(label, content)]

/-- A name as a record. -/
def Name.toJson (n : Name) : Json := .placed (.string n.text) n.span

/-- The label of an operator between two operands. -/
def BinaryOp.label : BinaryOp → String
  | .add => "Add"
  | .sub => "Sub"
  | .mul => "Mul"
  | .div => "Div"
  | .mod => "Mod"
  | .bitAnd => "BitAnd"
  | .bitOr => "BitOr"
  | .bitXor => "BitXor"
  | .eq => "Eq"
  | .ne => "Ne"
  | .lt => "Lt"
  | .gt => "Gt"
  | .le => "Le"
  | .ge => "Ge"
  | .and => "And"
  | .or => "Or"

/-- The label of an operator before one operand. -/
def UnaryOp.label : UnaryOp → String
  | .pos => "Pos"
  | .neg => "Neg"
  | .bitNot => "BitNot"
  | .not => "Not"

/-- The label of a type to convert to. -/
def TypeName.label : TypeName → String
  | .int => "Int"
  | .float => "Float"
  | .bool => "Bool"
  | .string => "String"
  | .array => "Array"

/-! ## Expressions -/

mutual

/-- An expression as a record. -/
def Expr.toJson : Expr → Json
  | ⟨.int value, span⟩ => .placed (.labelled "IntLit" (.int value.toInt)) span
  | ⟨.float value, span⟩ => .placed (.labelled "FloatLit" (.float value)) span
  | ⟨.bool value, span⟩ => .placed (.labelled "BoolLit" (.bool value)) span
  | ⟨.string value, span⟩ => .placed (.labelled "StringLit" (.string value)) span
  | ⟨.array elements, span⟩ =>
    .placed (.labelled "ArrayLit" (.array (Expr.listToJson elements))) span
  | ⟨.var name, span⟩ => .placed (.labelled "Var" (.string name)) span
  | ⟨.binary left op right, span⟩ =>
    .placed (.labelled "Binary"
      (.object [("left", left.toJson), ("op", .string op.label), ("right", right.toJson)])) span
  | ⟨.unary op operand, span⟩ =>
    .placed (.labelled "Unary" (.object [("op", .string op.label), ("expr", operand.toJson)])) span
  | ⟨.range first last, span⟩ =>
    .placed (.labelled "Range" (.object [("start", first.toJson), ("end", last.toJson)])) span
  | ⟨.index base index, span⟩ =>
    .placed (.labelled "Index" (.object [("base", base.toJson), ("index", index.toJson)])) span
  | ⟨.call callee args, span⟩ =>
    .placed (.labelled "Call"
      (.object [("func", callee.toJson), ("args", .array (Expr.listToJson args))])) span
  | ⟨.cast target operand, span⟩ =>
    .placed (.labelled "Cast"
      (.object [("target", .string target.label), ("expr", operand.toJson)])) span

/-- Expressions as records. -/
def Expr.listToJson : List Expr → List Json
  | [] => []
  | e :: es => e.toJson :: Expr.listToJson es

end

/-! ## Statements -/

/-- What an assignment writes to, as a record. -/
def Target.toJson : Target → Json
  | ⟨.name name, span⟩ => .placed (.labelled "Identifier" (.string name)) span
  | ⟨.element base index, span⟩ =>
    .placed (.labelled "Subscript" (.object [("base", base.toJson), ("index", index.toJson)])) span

mutual

/-- A statement as a record. -/
def Stmt.toJson : Stmt → Json
  | ⟨.expr value, span⟩ => .placed (.labelled "Expr" value.toJson) span
  | ⟨.assign target value, span⟩ =>
    .placed (.labelled "Assign" (.object [("target", target.toJson), ("value", value.toJson)])) span
  | ⟨.cond test yes none, span⟩ =>
    .placed (.labelled "If"
      (.object [("cond", test.toJson), ("then_block", yes.toJson), ("else_block", .null)])) span
  | ⟨.cond test yes (some no), span⟩ =>
    .placed (.labelled "If"
      (.object [("cond", test.toJson), ("then_block", yes.toJson), ("else_block", no.toJson)])) span
  | ⟨.loop test body, span⟩ =>
    .placed (.labelled "While" (.object [("cond", test.toJson), ("body", body.toJson)])) span
  | ⟨.each item items body, span⟩ =>
    .placed (.labelled "For"
      (.object [("var", item.toJson), ("iterable", items.toJson), ("body", body.toJson)])) span
  | ⟨.times count body, span⟩ =>
    .placed (.labelled "Repeat" (.object [("count", count.toJson), ("body", body.toJson)])) span
  | ⟨.function ⟨name, params, body, declSpan⟩, span⟩ =>
    .placed (.labelled "Function"
      (.object [("name", name.toJson), ("params", .array (params.map Name.toJson)),
        ("body", body.toJson), ("span", declSpan.toJson)])) span
  | ⟨.return none, span⟩ => .placed (.labelled "Return" .null) span
  | ⟨.return (some value), span⟩ => .placed (.labelled "Return" value.toJson) span
  | ⟨.stop, span⟩ => .placed (.string "Stop") span
  | ⟨.next, span⟩ => .placed (.string "Next") span

/-- A block as a record. -/
def Block.toJson : Block → Json
  | ⟨statements, span⟩ =>
    .object [("statements", .array (Stmt.listToJson statements)), ("span", span.toJson)]

/-- Statements as records. -/
def Stmt.listToJson : List Stmt → List Json
  | [] => []
  | s :: ss => s.toJson :: Stmt.listToJson ss

end

/-- A program as a record. -/
def Program.toJson (p : Program) : Json :=
  .object [("statements", .array (Stmt.listToJson p.statements))]

end Quill
