-- From text to tokens. Every piece of the text is blank, a token or an
-- error, and a token is always the longest that the text allows. Reading
-- stops at the first error.
import Quill.Decimal.Read
import Quill.Token

namespace Quill

/-! ## Errors -/

/-- Why a piece of text is no token. -/
inductive LexError where
  | unexpected (text : String)
  | outOfRange (digits : String)
deriving DecidableEq, Repr

/-- The wording of a lexical error. -/
def LexError.message : LexError → String
  | .unexpected text => s!"Unexpected character {Text.quoted text}"
  | .outOfRange digits => s!"Integer literal {digits} out of range"

namespace Lexer

/-! ## Classes of characters -/

/-- The characters that only separate tokens. -/
def isSpace (c : Char) : Bool := c = ' ' || c = '\t' || c = '\n' || c = '\r'

/-- Letters and the underscore. -/
def isNameStart (c : Char) : Bool := c.isAlpha || c = '_'

/-- Letters, digits and the underscore. -/
def isNameChar (c : Char) : Bool := c.isAlphanum || c = '_'

/-! ## One piece of text -/

/-- What a piece of text is. -/
inductive Reading where
  | blank
  | token (t : Token)
  | error (e : LexError)

/-- A piece of text, what it is, and the text after it. -/
structure Piece where
  reading : Reading
  text : List Char
  rest : List Char

/-- The token of a name: a reserved word if it is spelled like one. -/
def nameToken (text : List Char) : Token :=
  let s := String.ofList text
  match Keyword.ofText? s with
  | some word => .keyword word
  | none => .ident s

/-- The token of a row of digits, unless its number is too large. -/
def intReading (digits : List Char) : Reading :=
  let n := Decimal.natOfDigits digits
  if n < Nat.pow 2 63 then .token (.int (Int64.ofNat n))
  else .error (.outOfRange (String.ofList digits))

/-- A number that starts with a digit: with a point and at least one more
digit it is a float. -/
def number (cs : List Char) : Piece :=
  let whole := cs.takeWhile Char.isDigit
  match cs.dropWhile Char.isDigit with
  | '.' :: d :: rest =>
    if d.isDigit then
      let fraction := d :: rest.takeWhile Char.isDigit
      ⟨.token (.float (Decimal.floatOfDigits whole fraction 0)), whole ++ '.' :: fraction,
        rest.dropWhile Char.isDigit⟩
    else ⟨intReading whole, whole, '.' :: d :: rest⟩
  | rest => ⟨intReading whole, whole, rest⟩

/-- The inside of a string literal up to its closing quote, and the text
after that quote. There is none if the literal does not close; the inside
then ends before a backslash that nothing, or a line feed, follows. -/
def stringBody : List Char → List Char × Option (List Char)
  | [] => ([], none)
  | '"' :: rest => ([], some rest)
  | '\\' :: [] => ([], none)
  | '\\' :: c :: rest =>
    if c = '\n' then ([], none)
    else
      let (body, after) := stringBody rest
      ('\\' :: c :: body, after)
  | c :: rest =>
    let (body, after) := stringBody rest
    (c :: body, after)

/-- The character that a letter after a backslash stands for. -/
def escape? : Char → Option Char
  | 'n' => some '\n'
  | 't' => some '\t'
  | 'r' => some '\r'
  | '\\' => some '\\'
  | '"' => some '"'
  | '0' => some '\x00'
  | _ => none

/-- The characters that the inside of a string literal stands for. A
backslash before any other character stands for itself. -/
def unescape : List Char → List Char
  | [] => []
  | '\\' :: c :: rest =>
    match escape? c with
    | some e => e :: unescape rest
    | none => '\\' :: c :: unescape rest
  | c :: rest => c :: unescape rest

/-- A string literal whose opening quote has been read. -/
def stringLiteral (cs : List Char) : Piece :=
  match stringBody cs with
  | (body, some rest) =>
    ⟨.token (.string (String.ofList (unescape body))), '"' :: (body ++ ['"']), rest⟩
  | (body, none) =>
    let text := '"' :: body
    ⟨.error (.unexpected (String.ofList text)), text, cs.drop body.length⟩

/-- The symbol that starts with `c`, and how many more characters it
has. -/
def symbol? (c : Char) (next : Option Char) : Option (Symbol × Nat) :=
  match c, next with
  | '<', some '-' => some (.arrow, 1)
  | '<', some '=' => some (.ltEq, 1)
  | '<', _ => some (.lt, 0)
  | '>', some '=' => some (.gtEq, 1)
  | '>', _ => some (.gt, 0)
  | '!', some '=' => some (.notEq, 1)
  | '.', some '.' => some (.dotDot, 1)
  | '+', _ => some (.plus, 0)
  | '-', _ => some (.minus, 0)
  | '*', _ => some (.star, 0)
  | '/', _ => some (.slash, 0)
  | '%', _ => some (.percent, 0)
  | '&', _ => some (.amp, 0)
  | '|', _ => some (.pipe, 0)
  | '^', _ => some (.caret, 0)
  | '~', _ => some (.tilde, 0)
  | '=', _ => some (.eq, 0)
  | '(', _ => some (.lparen, 0)
  | ')', _ => some (.rparen, 0)
  | '[', _ => some (.lbracket, 0)
  | ']', _ => some (.rbracket, 0)
  | '\x7b', _ => some (.lbrace, 0)
  | '\x7d', _ => some (.rbrace, 0)
  | ',', _ => some (.comma, 0)
  | ';', _ => some (.semi, 0)
  | _, _ => none

/-- The piece at the head of the text `c :: cs`. -/
def piece (c : Char) (cs : List Char) : Piece :=
  if isSpace c then ⟨.blank, c :: cs.takeWhile isSpace, cs.dropWhile isSpace⟩
  else if c = '#' then ⟨.blank, c :: cs.takeWhile (· ≠ '\n'), cs.dropWhile (· ≠ '\n')⟩
  else if c.isDigit then number (c :: cs)
  else if isNameStart c then
    let text := c :: cs.takeWhile isNameChar
    ⟨.token (nameToken text), text, cs.dropWhile isNameChar⟩
  else if c = '"' then stringLiteral cs
  else
    match symbol? c cs.head? with
    | some (mark, more) => ⟨.token (.symbol mark), c :: cs.take more, cs.drop more⟩
    | none => ⟨.error (.unexpected (String.ofList [c])), [c], cs⟩

/-! ## The whole text -/

/-- A lexical error and where it is. -/
structure Failure where
  error : LexError
  span : Span

/-- The lexemes of a text that begins at a cursor. Each piece has at
least one character, so as many steps as there are characters suffice. -/
def lexemesFrom : Nat → Cursor → List Char → Except Failure (List Lexeme)
  | 0, _, _ => .ok []
  | _, _, [] => .ok []
  | steps + 1, here, c :: cs =>
    let p := piece c cs
    let next := here.skip p.text
    match p.reading with
    | .blank => lexemesFrom steps next p.rest
    | .token t => (lexemesFrom steps next p.rest).map (⟨t, .between here next⟩ :: ·)
    | .error e => .error ⟨e, .between here next⟩

end Lexer

/-- The lexemes of a source text, or its first lexical error. -/
def tokenize (source : String) : Except Lexer.Failure (List Lexeme) :=
  let cs := source.toList
  Lexer.lexemesFrom cs.length .start cs

end Quill
