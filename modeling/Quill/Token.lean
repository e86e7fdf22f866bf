-- The words of the language: keywords, symbols, literals and names, with
-- the texts by which they are known.
import Quill.Decimal.Style
import Quill.Source.Span
import Quill.Text.Quoted

namespace Quill

/-! ## Kinds of token -/

/-- The types that a value can be converted to. -/
inductive TypeName where
  | int | float | bool | string | array
deriving DecidableEq, Repr

/-- The reserved words. -/
inductive Keyword where
  | ifKw | elseKw | whileKw | forKw | inKw | repeatKw | functionKw | returnKw | stopKw | nextKw
  | andKw | orKw | notKw | trueKw | falseKw
  | type (name : TypeName)
deriving DecidableEq, Repr

/-- Operators and punctuation. -/
inductive Symbol where
  | arrow | plus | minus | star | slash | percent | amp | pipe | caret | tilde
  | eq | notEq | lt | ltEq | gt | gtEq | dotDot
  | lparen | rparen | lbracket | rbracket | lbrace | rbrace | comma | semi
deriving DecidableEq, Repr

/-- A token. The number of an integer literal is never negative: a sign
is a token of its own. -/
inductive Token where
  | keyword (word : Keyword)
  | symbol (mark : Symbol)
  | int (value : Int64)
  | float (value : Float)
  | string (text : String)
  | ident (name : String)
deriving DecidableEq

/-- A token and its place in the source. -/
structure Lexeme where
  token : Token
  span : Span

/-! ## How they are written -/

/-- The name of a type as a program writes it. -/
def TypeName.text : TypeName → String
  | .int => "int"
  | .float => "float"
  | .bool => "bool"
  | .string => "string"
  | .array => "array"

/-- The word itself. -/
def Keyword.text : Keyword → String
  | .ifKw => "if"
  | .elseKw => "else"
  | .whileKw => "while"
  | .forKw => "for"
  | .inKw => "in"
  | .repeatKw => "repeat"
  | .functionKw => "function"
  | .returnKw => "return"
  | .stopKw => "stop"
  | .nextKw => "next"
  | .andKw => "and"
  | .orKw => "or"
  | .notKw => "not"
  | .trueKw => "true"
  | .falseKw => "false"
  | .type name => name.text

/-- Every reserved word once. -/
def Keyword.all : List Keyword :=
  [.ifKw, .elseKw, .whileKw, .forKw, .inKw, .repeatKw, .functionKw, .returnKw, .stopKw, .nextKw,
   .andKw, .orKw, .notKw, .trueKw, .falseKw,
   .type .int, .type .float, .type .bool, .type .string, .type .array]

/-- The reserved word that is spelled so, if there is one. -/
def Keyword.ofText? (s : String) : Option Keyword := Keyword.all.find? (·.text = s)

/-- The characters of a symbol. -/
def Symbol.text : Symbol → String
  | .arrow => "<-"
  | .plus => "+"
  | .minus => "-"
  | .star => "*"
  | .slash => "/"
  | .percent => "%"
  | .amp => "&"
  | .pipe => "|"
  | .caret => "^"
  | .tilde => "~"
  | .eq => "="
  | .notEq => "!="
  | .lt => "<"
  | .ltEq => "<="
  | .gt => ">"
  | .gtEq => ">="
  | .dotDot => ".."
  | .lparen => "("
  | .rparen => ")"
  | .lbracket => "["
  | .rbracket => "]"
  | .lbrace => "\x7b"
  | .rbrace => "\x7d"
  | .comma => ","
  | .semi => ";"

/-! ## How they are named in messages and listings -/

namespace Token

/-- Floats in messages are written out in full, and a whole number has no
fraction. -/
def floatStyle : Decimal.Style := ⟨fun _ => true, "", "", .up⟩

/-- The token as an error message names it. -/
def describe : Token → String
  | keyword word => s!"'{word.text}'"
  | symbol mark => s!"'{mark.text}'"
  | int value => s!"integer literal {value.toInt}"
  | float value => s!"float literal {floatStyle.write value}"
  | string text => s!"string literal {Text.quoted text}"
  | ident name => s!"identifier '{name}'"

/-- The label of a type in token listings. -/
def typeLabel : TypeName → String
  | .int => "TyInt"
  | .float => "TyFloat"
  | .bool => "TyBool"
  | .string => "TyString"
  | .array => "TyArray"

/-- The label of a reserved word in token listings. -/
def keywordLabel : Keyword → String
  | .ifKw => "If"
  | .elseKw => "Else"
  | .whileKw => "While"
  | .forKw => "For"
  | .inKw => "In"
  | .repeatKw => "Repeat"
  | .functionKw => "Function"
  | .returnKw => "Return"
  | .stopKw => "Stop"
  | .nextKw => "Next"
  | .andKw => "And"
  | .orKw => "Or"
  | .notKw => "Not"
  | .trueKw => "True"
  | .falseKw => "False"
  | .type name => typeLabel name

/-- The label of a symbol in token listings. -/
def symbolLabel : Symbol → String
  | .arrow => "LArrow"
  | .plus => "Plus"
  | .minus => "Minus"
  | .star => "Star"
  | .slash => "Slash"
  | .percent => "Percent"
  | .amp => "Amp"
  | .pipe => "Pipe"
  | .caret => "Caret"
  | .tilde => "Tilde"
  | .eq => "Eq"
  | .notEq => "NotEq"
  | .lt => "Lt"
  | .ltEq => "LtEq"
  | .gt => "Gt"
  | .gtEq => "GtEq"
  | .dotDot => "DotDot"
  | .lparen => "LParen"
  | .rparen => "RParen"
  | .lbracket => "LBracket"
  | .rbracket => "RBracket"
  | .lbrace => "LBrace"
  | .rbrace => "RBrace"
  | .comma => "Comma"
  | .semi => "Semi"

/-- The token as a listing shows it: its label, and what it holds in
parentheses. -/
def label : Token → String
  | keyword word => keywordLabel word
  | symbol mark => symbolLabel mark
  | int value => s!"IntLit({value.toInt})"
  | float value => s!"FloatLit({Decimal.Style.usual.write value})"
  | string text => s!"StringLit({Text.quoted text})"
  | ident name => s!"Ident({Text.quoted name})"

/-- Whether the token can only stand at the start of a statement, so that
reading can take up there again after an error. -/
def startsStatement : Token → Bool
  | keyword .ifKw | keyword .whileKw | keyword .forKw | keyword .repeatKw | keyword .functionKw
  | keyword .returnKw | keyword .stopKw | keyword .nextKw => true
  | _ => false

/-- Whether an expression can start with the token. -/
def startsExpression : Token → Bool
  | int _ | float _ | string _ | ident _ | keyword .trueKw | keyword .falseKw | keyword .notKw
  | keyword (.type _) | symbol .lbracket | symbol .lparen | symbol .plus | symbol .minus
  | symbol .tilde => true
  | _ => false

end Token

end Quill
