-- What can be called: the functions that a program declares and those
-- that are built in.
import Quill.Scope
import Quill.Syntax

namespace Quill

/-- A function. One without a declaration is built in. -/
structure Function where
  name : String
  arity : Nat
  decl : Option FunctionDecl

namespace Function

/-- The function that a declaration makes. -/
def ofDecl (d : FunctionDecl) : Function := ⟨d.name.text, d.arity, some d⟩

/-- Whether a function is built in. -/
def isBuiltin (f : Function) : Bool := f.decl.isNone

end Function

/-- The built-in functions of every program. -/
inductive Builtin where
  | output | input | read | write | length
deriving DecidableEq, Repr

namespace Builtin

/-- All of them, in the order in which they are bound. -/
def all : List Builtin := [.output, .input, .read, .write, .length]

/-- The name by which a program calls it. -/
def name : Builtin → String
  | .output => "output"
  | .input => "input"
  | .read => "read"
  | .write => "write"
  | .length => "length"

/-- How many arguments it takes. -/
def arity : Builtin → Nat
  | .output => 1
  | .input => 0
  | .read => 1
  | .write => 2
  | .length => 1

/-- The built-in function of a name. -/
def ofName? (s : String) : Option Builtin := all.find? (·.name == s)

/-- The built-in as a function. -/
def toFunction (b : Builtin) : Function := ⟨b.name, b.arity, none⟩

end Builtin

end Quill
