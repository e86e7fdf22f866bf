-- The errors that end a run, each with its cause and its place.
import Quill.Run.Disk
import Quill.Value.Operator

namespace Quill

/-! ## Causes -/

/-- A place in the language where only values of certain kinds will
do. -/
inductive Need where
  | condition | repeatCount | iterable | rangeBound
deriving DecidableEq, Repr

/-- What a place is called and which kinds it takes. -/
def Need.text : Need → String
  | .condition => "Condition must be bool"
  | .repeatCount => "Repeat count must be int"
  | .iterable => "For loop iterable must be array or string"
  | .rangeBound => "Range bound must be int"

/-- Why a built-in function failed. -/
inductive BuiltinError where
  | unwritableOutput (error : FileError)
  | unreadableInput (error : FileError)
  | unreadableFile (path : String) (error : FileError)
  | unwritableFile (path : String) (error : FileError)
  | notPath (function : Builtin) (found : Kind)
  | noLength (found : Kind)
  | longLength
deriving DecidableEq, Repr

/-- The wording of such a failure. -/
def BuiltinError.message : BuiltinError → String
  | .unwritableOutput error => s!"Cannot write output: {error.message}"
  | .unreadableInput error => s!"Cannot read input: {error.message}"
  | .unreadableFile path error => s!"Cannot read file '{path}': {error.message}"
  | .unwritableFile path error => s!"Cannot write file '{path}': {error.message}"
  | .notPath function found =>
    s!"Argument to '{function.name}' must be a string path, found '{found.text}'"
  | .noLength found => s!"Cannot take the length of '{found.text}'"
  | .longLength => "Length does not fit in an int"

/-- Why a run ended early. -/
inductive Fault where
  | binary (op : BinaryOp) (left right : Kind) (error : OpError)
  | unary (op : UnaryOp) (operand : Kind) (error : OpError)
  | cast (value : Kind) (target : TypeName) (error : OpError)
  | subscript (base index : Kind) (error : OpError)
  | voidAssignment
  | mismatch (need : Need) (found : Kind)
  | undeclared (name : String)
  | isFunction (name : String)
  | notFunction (name : String)
  | arity (name : String)
  | callDepth (limit : Nat)
  | builtin (error : BuiltinError)
deriving DecidableEq, Repr

/-- The classes of causes. -/
inductive FaultKind where
  | operator | divisionByZero | overflow | cast | subscript | voidAssignment | typeMismatch
  | undeclared | notCallable | arity | callDepth | builtin
deriving DecidableEq, Repr

namespace Fault

/-- The class of a failed operator. -/
def operatorKind : OpError → FaultKind
  | .divisionByZero => .divisionByZero
  | .overflow => .overflow
  | _ => .operator

/-- The class of a cause. -/
def kind : Fault → FaultKind
  | binary _ _ _ error => operatorKind error
  | unary _ _ error => operatorKind error
  | cast _ _ _ => .cast
  | subscript _ _ _ => .subscript
  | voidAssignment => .voidAssignment
  | mismatch _ _ => .typeMismatch
  | undeclared _ => .undeclared
  | isFunction _ | notFunction _ => .notCallable
  | arity _ => .arity
  | callDepth _ => .callDepth
  | builtin _ => .builtin

/-- The wording of a failed operator, whatever its operands are. -/
def operatorMessage (op : String) : OpError → String
  | .divisionByZero => "Division by zero"
  | .overflow => s!"Overflow in '{op}'"
  | error => s!"Invalid operands for '{op}': {error.message}"

/-- The wording of a cause. -/
def message : Fault → String
  | binary op left right .unsupported =>
    s!"Unsupported operator '{op.text}' for types '{left.text}' and '{right.text}'"
  | binary op _ _ error => operatorMessage op.text error
  | unary op operand .unsupported => s!"Unsupported operator '{op.text}' for type '{operand.text}'"
  | unary op _ error => operatorMessage op.text error
  | cast value target .unsupported => s!"Cannot cast '{value.text}' to '{target.text}'"
  | cast _ _ error => s!"Invalid cast: {error.message}"
  | subscript base index .unsupported => s!"Cannot subscript '{base.text}' with '{index.text}'"
  | subscript _ _ error => s!"Invalid subscript: {error.message}"
  | voidAssignment => "cannot assign void"
  | mismatch need found => s!"{need.text}, found '{found.text}'"
  | undeclared name => s!"Undeclared identifier '{name}'"
  | isFunction name => s!"Identifier '{name}' is a function"
  | notFunction name => s!"Identifier '{name}' is not a function"
  | arity name => s!"Incorrect number of arguments to function '{name}'"
  | callDepth limit => s!"Maximum call depth of {limit} exceeded"
  | builtin error => error.message

end Fault

/-! ## Errors with their place -/

/-- A cause and where in the program it arose. -/
structure Fatal where
  fault : Fault
  span : Span
deriving DecidableEq, Repr

/-- The error on one line. -/
def Fatal.text (f : Fatal) : String := s!"Error: {f.fault.message} ({f.span.describe})"

end Quill
