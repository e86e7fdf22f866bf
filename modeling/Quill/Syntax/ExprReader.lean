-- Reading expressions. Each level of the grammar is a reader built from
-- the next tighter one; `inner` reads what stands between brackets, and
-- no loop takes more turns than `turns`.
-- From the loosest level to the tightest: or, and, not, equality, order,
-- range, bitwise or, exclusive or, bitwise and, sums, products, signs,
-- subscripts and calls.
import Quill.Syntax
import Quill.Syntax.Reader

namespace Quill.Reader

/-! ## Shapes of levels -/

/-- Further operands of a level whose operators group to the left, at
most `turns`. -/
def operands (next : Reader Expr) (op? : Token → Option BinaryOp) : Nat → Expr → Reader Expr
  | 0, left => return left
  | turns + 1, left => do
    match (← peek?).bind op? with
    | none => return left
    | some op =>
      advance
      let right ← next
      operands next op? turns ⟨.binary left op right, left.span.merge right.span⟩

/-- A level whose operators group to the left. -/
def leftLevel (turns : Nat) (next : Reader Expr) (op? : Token → Option BinaryOp) : Reader Expr := do
  let first ← next
  operands next op? turns first

/-- Operators that stand before an operand, at most `turns`, with their
spans. -/
def operatorRun (op? : Token → Option UnaryOp) : Nat → Reader (List (UnaryOp × Span))
  | 0 => return []
  | turns + 1 => do
    match (← peek?).bind op? with
    | none => return []
    | some op =>
      let span ← nextSpan
      advance
      return (op, span) :: (← operatorRun op? turns)

/-- A level whose operators stand before the operand. The last of them
is applied first. -/
def unaryLevel (turns : Nat) (next : Reader Expr) (op? : Token → Option UnaryOp) : Reader Expr := do
  let ops ← operatorRun op? turns
  let operand ← next
  return ops.foldr (fun (op, span) e => ⟨.unary op e, span.merge e.span⟩) operand

/-! ## Operators of the levels -/

def orOp? : Token → Option BinaryOp
  | .keyword .orKw => some .or
  | _ => none

def andOp? : Token → Option BinaryOp
  | .keyword .andKw => some .and
  | _ => none

def notOp? : Token → Option UnaryOp
  | .keyword .notKw => some .not
  | _ => none

def equalityOp? : Token → Option BinaryOp
  | .symbol .eq => some .eq
  | .symbol .notEq => some .ne
  | _ => none

def orderOp? : Token → Option BinaryOp
  | .symbol .lt => some .lt
  | .symbol .ltEq => some .le
  | .symbol .gt => some .gt
  | .symbol .gtEq => some .ge
  | _ => none

def bitOrOp? : Token → Option BinaryOp
  | .symbol .pipe => some .bitOr
  | _ => none

def bitXorOp? : Token → Option BinaryOp
  | .symbol .caret => some .bitXor
  | _ => none

def bitAndOp? : Token → Option BinaryOp
  | .symbol .amp => some .bitAnd
  | _ => none

def sumOp? : Token → Option BinaryOp
  | .symbol .plus => some .add
  | .symbol .minus => some .sub
  | _ => none

def productOp? : Token → Option BinaryOp
  | .symbol .star => some .mul
  | .symbol .slash => some .div
  | .symbol .percent => some .mod
  | _ => none

def signOp? : Token → Option UnaryOp
  | .symbol .plus => some .pos
  | .symbol .minus => some .neg
  | .symbol .tilde => some .bitNot
  | _ => none

/-! ## The tightest levels -/

/-- Expressions with commas between them, up to a closing bracket. -/
def arguments (turns : Nat) (inner : Reader Expr) : Reader (List Expr) := do
  match ← peek? with
  | some (.symbol .rparen) | some (.symbol .rbracket) => return []
  | _ => separated inner turns

/-- A literal of one token. -/
def literal (node : ExprNode) : Reader Expr := do
  let span ← nextSpan
  advance
  return ⟨node, span⟩

/-- A literal, a name, an array, a conversion, or an expression in
parentheses, which keeps the span it has without them. -/
def primary (turns : Nat) (inner : Reader Expr) : Reader Expr := do
  match ← peek? with
  | some (.int value) => literal (.int value)
  | some (.float value) => literal (.float value)
  | some (.string text) => literal (.string text)
  | some (.keyword .trueKw) => literal (.bool true)
  | some (.keyword .falseKw) => literal (.bool false)
  | some (.ident name) => literal (.var name)
  | some (.symbol .lbracket) =>
    let start ← nextSpan
    advance
    let elements ← arguments turns inner
    let close ← expect (.symbol .rbracket)
    return ⟨.array elements, start.merge close⟩
  | some (.symbol .lparen) =>
    advance
    let e ← inner
    let _ ← expect (.symbol .rparen)
    return e
  | some (.keyword (.type target)) =>
    let start ← nextSpan
    advance
    let _ ← expect (.symbol .lparen)
    let operand ← inner
    let close ← expect (.symbol .rparen)
    return ⟨.cast target operand, start.merge close⟩
  | _ => expected "expression"

/-- Subscripts and calls after an expression, at most `turns`. Only a
name can be called. -/
def suffixes (inner : Reader Expr) : Nat → Expr → Reader Expr
  | 0, e => return e
  | turns + 1, e => do
    match ← peek?, e.node with
    | some (.symbol .lbracket), _ =>
      advance
      let index ← inner
      let close ← expect (.symbol .rbracket)
      suffixes inner turns ⟨.index e index, e.span.merge close⟩
    | some (.symbol .lparen), .var name =>
      advance
      let args ← arguments turns inner
      let close ← expect (.symbol .rparen)
      suffixes inner turns ⟨.call ⟨name, e.span⟩ args, e.span.merge close⟩
    | _, _ => return e

/-! ## The levels -/

section Levels

variable (turns : Nat) (inner : Reader Expr)

def suffixLevel : Reader Expr := do
  let e ← primary turns inner
  suffixes inner turns e

def signLevel : Reader Expr := unaryLevel turns (suffixLevel turns inner) signOp?

def productLevel : Reader Expr := leftLevel turns (signLevel turns inner) productOp?

def sumLevel : Reader Expr := leftLevel turns (productLevel turns inner) sumOp?

def bitAndLevel : Reader Expr := leftLevel turns (sumLevel turns inner) bitAndOp?

def bitXorLevel : Reader Expr := leftLevel turns (bitAndLevel turns inner) bitXorOp?

def bitOrLevel : Reader Expr := leftLevel turns (bitXorLevel turns inner) bitOrOp?

/-- A range has at most one pair of dots. -/
def rangeLevel : Reader Expr := do
  let first ← bitOrLevel turns inner
  match ← take? (.symbol .dotDot) with
  | none => return first
  | some _ =>
    let last ← bitOrLevel turns inner
    return ⟨.range first last, first.span.merge last.span⟩

def orderLevel : Reader Expr := leftLevel turns (rangeLevel turns inner) orderOp?

def equalityLevel : Reader Expr := leftLevel turns (orderLevel turns inner) equalityOp?

def notLevel : Reader Expr := unaryLevel turns (equalityLevel turns inner) notOp?

def andLevel : Reader Expr := leftLevel turns (notLevel turns inner) andOp?

def orLevel : Reader Expr := leftLevel turns (andLevel turns inner) orOp?

end Levels

/-- An expression where fewer than `bound` tokens are ahead. Each level of
nesting takes a token, and so does each turn of a loop. -/
def exprWithin : Nat → Reader Expr
  | 0 => expected "expression"
  | bound + 1 => orLevel bound (exprWithin bound)

end Quill.Reader
