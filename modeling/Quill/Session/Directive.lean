-- Lines that start with a colon: they speak to the prompt and not to the
-- language.

namespace Quill

/-- What such a line asks for. -/
inductive Directive where
  | quit
  | help
  | clear
  | unknown (text : String)
deriving DecidableEq, Repr

namespace Directive

/-- The directive that a line spells. -/
def ofText (line : String) : Directive :=
  match line with
  | ":quit" | ":q" | ":exit" => quit
  | ":help" | ":h" | ":?" => help
  | ":clear" => clear
  | other => unknown other

/-- What the prompt says when it starts. -/
def greeting : String := "Quill REPL v0.1.0\nType :help for help, :quit to exit.\n\n"

/-- What it says when it ends. -/
def farewell : String := "Goodbye!\n"

/-- The help that it gives. -/
def helpText : String :=
  "Quill REPL Commands:\n" ++
  "  :help, :h, :?   Show this help\n" ++
  "  :quit, :q       Exit the REPL\n" ++
  "  :clear          Clear the screen\n" ++
  "\n" ++
  "You can enter:\n" ++
  "  - Expressions: 1 + 2 * 3, [1, 2] + [3]\n" ++
  "  - Assignments: x <- 10\n" ++
  "  - Statements: for i in 1..3 \x7b output(i) \x7d\n" ++
  "  - Function definitions: function add(a, b) \x7b return a + b \x7d\n" ++
  "\n" ++
  "Built-in functions:\n" ++
  "  output(x)       Print value with newline\n" ++
  "  input()         Read a line\n" ++
  "  read(path)      Read a file into a string\n" ++
  "  write(path, x)  Write a value to a file\n" ++
  "  length(x)       Length of an array or string\n"

/-- What a directive prints. -/
def reply : Directive → String
  | quit => farewell
  | help => helpText
  | clear => "\x1b[2J\x1b[1;1H"
  | unknown text => s!"Unknown command: {text}\nType :help for help.\n"

end Directive

end Quill
