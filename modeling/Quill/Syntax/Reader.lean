-- Reading a list of lexemes from the front: the state of a reader, its
-- first steps, and how it takes up again after an error.
import Quill.Diagnostic
import Quill.Token

namespace Quill

/-- What a reader knows: the lexemes ahead, the span of the token read
last, the span that stands for the end of the text, and what it has
reported. -/
structure Reader.State where
  ahead : List Lexeme
  last : Option Span
  atEnd : Span
  reporter : Reporter

/-- A step of reading. It fails with the one error that made it give
up. -/
abbrev Reader := EStateM Diagnostic Reader.State

namespace Reader

/-! ## Looking -/

/-- The next token. -/
def peek? : Reader (Option Token) := fun s => .ok (s.ahead.head?.map (·.token)) s

/-- Whether `t` comes next. -/
def nextIs (t : Token) : Reader Bool := return (← peek?) = some t

/-- The span of the next token, or the end of the text. -/
def nextSpan : Reader Span := fun s => .ok (s.ahead.head?.elim s.atEnd (·.span)) s

/-- The span of the token read last, or the end of the text if none was
read. -/
def lastSpan : Reader Span := fun s => .ok (s.last.getD s.atEnd) s

/-- How many tokens are ahead. A loop that reads at least one of them in
each turn ends within so many turns, and so does one inside it. -/
def remaining : Reader Nat := fun s => .ok s.ahead.length s

/-! ## Taking -/

/-- The state after the next token, if there is one. -/
def State.advance (s : State) : State :=
  match s.ahead with
  | [] => s
  | x :: xs => { s with ahead := xs, last := some x.span }

/-- Reads the next token, if there is one. -/
def advance : Reader Unit := fun s => .ok () s.advance

/-- Reads `t` if it comes next and gives its span. -/
def take? (t : Token) : Reader (Option Span) := do
  if ← nextIs t then
    let span ← nextSpan
    advance
    return some span
  else
    return none

/-- Gives up because something else was expected here. -/
def expected {α : Type} (what : String) : Reader α := do
  let found := match ← peek? with
    | some t => t.describe
    | none => "end of input"
  throw ⟨s!"Expected {what}, found {found}", ← nextSpan⟩

/-- Reads `t`, which must come next, and gives its span. -/
def expect (t : Token) : Reader Span := do
  match ← take? t with
  | some span => return span
  | none => expected t.describe

/-! ## Lists -/

/-- One or more items with commas between them, at most `turns + 1`. -/
def separated {α : Type} (item : Reader α) : Nat → Reader (List α)
  | 0 => return [← item]
  | turns + 1 => do
    let x ← item
    match ← take? (.symbol .comma) with
    | some _ => return x :: (← separated item turns)
    | none => return [x]

/-! ## Recovery -/

/-- How a token changes the depth of nesting. Brackets of all kinds
count alike, and the depth never falls below zero. -/
def nesting (depth : Nat) : Token → Nat
  | .symbol .lbrace | .symbol .lparen | .symbol .lbracket => depth + 1
  | .symbol .rbrace | .symbol .rparen | .symbol .rbracket => depth - 1
  | _ => depth

/-- Skips to where a statement may begin, and gives the span of the token
skipped last and what is ahead. Such a place lies outside all brackets
opened on the way: before a token that starts a statement, before a
closing brace, before the first token of a later line, or after a
semicolon. -/
def skipStatement : Nat → Option Span → List Lexeme → Option Span × List Lexeme
  | _, last, [] => (last, [])
  | depth, last, x :: xs =>
    if depth = 0 ∧ (x.token.startsStatement ∨ x.token = .symbol .rbrace) then (last, x :: xs)
    else if depth = 0 ∧ x.token = .symbol .semi then (some x.span, xs)
    else if depth = 0 ∧ last.any (·.line < x.span.line) then (last, x :: xs)
    else skipStatement (nesting depth x.token) (some x.span) xs

/-- The state in which reading takes up again after a failed statement:
its error is reported and its remains are skipped. -/
def State.resume (s : State) (d : Diagnostic) : State :=
  let (last, ahead) := skipStatement 0 s.last s.ahead
  { s with ahead, last, reporter := (s.reporter.report d false).handled }

/-- Tries `item`. After an error it skips to where the next statement may
begin, at least one token on. -/
def recovering {α : Type} (item : Reader α) : Reader (Option α) := fun s =>
  match item s with
  | .ok x t => .ok (some x) t
  | .error d t =>
    let t := if t.ahead.length = s.ahead.length then t.advance else t
    .ok none (t.resume d)

/-- Skips the semicolons at the front, and gives the span of the one
skipped last and what is ahead. -/
def dropSemicolons : Option Span → List Lexeme → Option Span × List Lexeme
  | last, [] => (last, [])
  | last, x :: xs =>
    if x.token = .symbol .semi then dropSemicolons (some x.span) xs else (last, x :: xs)

/-- Reads semicolons as long as there are any. -/
def skipSemicolons : Reader Unit := fun s =>
  let (last, ahead) := dropSemicolons s.last s.ahead
  .ok () { s with ahead, last }

/-! ## Modes -/

/-- How statements are read by steps of `m`: plainly, or with a note of what
happens on the way. -/
structure Mode (m : Type → Type) where
  /-- Does steps in which no statement is tried. -/
  look {α : Type} : Reader α → m α
  /-- Tries to read an item, and takes up again after an error. -/
  recovering {α : Type} : m α → m (Option α)
  /-- Reads a block from brace to brace. -/
  enclosed {α : Type} : m α → m α

/-- Reads without a note. -/
def plain : Mode Reader where
  look step := step
  recovering := Reader.recovering
  enclosed step := step

/-- The items up to a token that stops them or the end of the text, with
semicolons between them, in at most `turns` turns. Items that cannot be
read are left out. -/
def Mode.itemsUntil {m : Type → Type} [Monad m] (M : Mode m) {α : Type} (stops : Token → Bool)
    (item : m α) : Nat → m (List α)
  | 0 => return []
  | turns + 1 => do
    M.look skipSemicolons
    match ← M.look peek? with
    | none => return []
    | some t =>
      if stops t then return []
      else
        match ← M.recovering item with
        | some x => return x :: (← M.itemsUntil stops item turns)
        | none => M.itemsUntil stops item turns

end Reader

end Quill
