-- The grammar of the language, as relations between lexemes and trees.
-- Each relation says which lexemes a phrase uses, which tree they stand
-- for, and which lexemes come after it. What comes after matters only
-- where a phrase could also go on: such a place is an edge, and the
-- relations have a parameter that says where a phrase may end at one.
-- With an edge that holds anywhere they are the plain grammar, and with
-- `Stops` no phrase ends before it must.
import Quill.Syntax

namespace Quill

/-! ## Levels -/

/-- The levels of expressions, from the loosest to the tightest. -/
inductive Level where
  | or | and | not | equality | order | range | bitOr | bitXor | bitAnd | sum | product | sign
  | suffix
deriving DecidableEq, Repr

/-- The next tighter level. -/
def Level.next? : Level → Option Level
  | .or => some .and
  | .and => some .not
  | .not => some .equality
  | .equality => some .order
  | .order => some .range
  | .range => some .bitOr
  | .bitOr => some .bitXor
  | .bitXor => some .bitAnd
  | .bitAnd => some .sum
  | .sum => some .product
  | .product => some .sign
  | .sign => some .suffix
  | .suffix => none

/-- How tight a level is. -/
def Level.rank : Level → Nat
  | .or => 0
  | .and => 1
  | .not => 2
  | .equality => 3
  | .order => 4
  | .range => 5
  | .bitOr => 6
  | .bitXor => 7
  | .bitAnd => 8
  | .sum => 9
  | .product => 10
  | .sign => 11
  | .suffix => 12

theorem Level.rank_next {level next : Level} (h : level.next? = some next) :
    next.rank = level.rank + 1 := by
  cases level <;> cases h <;> rfl

/-- The level of an operator between two operands. -/
def BinaryOp.level : BinaryOp → Level
  | .or => .or
  | .and => .and
  | .eq | .ne => .equality
  | .lt | .gt | .le | .ge => .order
  | .bitOr => .bitOr
  | .bitXor => .bitXor
  | .bitAnd => .bitAnd
  | .add | .sub => .sum
  | .mul | .div | .mod => .product

/-- The token of an operator between two operands. -/
def BinaryOp.token : BinaryOp → Token
  | .add => .symbol .plus
  | .sub => .symbol .minus
  | .mul => .symbol .star
  | .div => .symbol .slash
  | .mod => .symbol .percent
  | .bitAnd => .symbol .amp
  | .bitOr => .symbol .pipe
  | .bitXor => .symbol .caret
  | .eq => .symbol .eq
  | .ne => .symbol .notEq
  | .lt => .symbol .lt
  | .gt => .symbol .gt
  | .le => .symbol .ltEq
  | .ge => .symbol .gtEq
  | .and => .keyword .andKw
  | .or => .keyword .orKw

/-- The level of an operator before its operand. -/
def UnaryOp.level : UnaryOp → Level
  | .pos | .neg | .bitNot => .sign
  | .not => .not

/-- The token of an operator before its operand. -/
def UnaryOp.token : UnaryOp → Token
  | .pos => .symbol .plus
  | .neg => .symbol .minus
  | .bitNot => .symbol .tilde
  | .not => .keyword .notKw

/-- Whether the expression is a name and nothing else. -/
def Expr.isName : Expr → Bool
  | ⟨.var _, _⟩ => true
  | _ => false

namespace Grammar

/-! ## Edges -/

/-- The places where a phrase could end or go on. -/
inductive Edge where
  /-- After an operand of a level; `named` tells that it is a name. -/
  | operand (level : Level) (named : Bool)
  /-- After what may be the first bound of a range. -/
  | bound
  /-- After `return`. -/
  | value
  /-- After the expression that may be written to. -/
  | place
  /-- After the first block of an `if`. -/
  | branch
  /-- After a statement. -/
  | statement
deriving DecidableEq

/-- The tokens with which the phrase goes on. -/
def Edge.GoesOn : Edge → Token → Prop
  | .operand .suffix named, t => t = .symbol .lbracket ∨ t = .symbol .lparen ∧ named = true
  | .operand level _, t => ∃ op : BinaryOp, op.level = level ∧ t = op.token
  | .bound, t => t = .symbol .dotDot
  | .value, t => t.startsExpression = true
  | .place, t => t = .symbol .arrow
  | .branch, t => t = .keyword .elseKw
  | .statement, t => t = .symbol .semi

/-- The phrase cannot go on with what comes next. -/
def Stops (edge : Edge) (rest : List Lexeme) : Prop :=
  ∀ x xs, rest = x :: xs → ¬ edge.GoesOn x.token

/-- A phrase may end anywhere. -/
def Anywhere (_ : Edge) (_ : List Lexeme) : Prop := True

/-- The span from the first lexeme to the last of those after it. -/
def spanOver (first : Lexeme) (others : List Lexeme) : Span :=
  first.span.merge ((others.getLast?).getD first).span

/-! ## Expressions -/

/-- The tokens that are a whole expression. -/
inductive Atom : Token → ExprNode → Prop
  | int (value : Int64) : Atom (.int value) (.int value)
  | float (value : Float) : Atom (.float value) (.float value)
  | string (text : String) : Atom (.string text) (.string text)
  | true : Atom (.keyword .trueKw) (.bool true)
  | false : Atom (.keyword .falseKw) (.bool false)
  | name (text : String) : Atom (.ident text) (.var text)

variable {ends : Edge → List Lexeme → Prop}

mutual

/-- A phrase of a level that may still go on at this level: `used` stands
for the expression, and `rest` follows. -/
inductive Phrase (ends : Edge → List Lexeme → Prop) :
    Level → List Lexeme → Expr → List Lexeme → Prop
  | tighter {level next used e rest} :
    level.next? = some next → Whole ends next used e rest →
    (level = .range → ends .bound rest) → Phrase ends level used e rest
  | binary {level next op first x second a b rest} :
    op.level = level → level.next? = some next → x.token = op.token →
    Phrase ends level first a (x :: (second ++ rest)) → Whole ends next second b rest →
    Phrase ends level (first ++ x :: second) ⟨.binary a op b, a.span.merge b.span⟩ rest
  | unary {level op x used e rest} :
    op.level = level → x.token = op.token → Phrase ends level used e rest →
    Phrase ends level (x :: used) ⟨.unary op e, x.span.merge e.span⟩ rest
  | range {first x second a b rest} :
    Whole ends .bitOr first a (x :: (second ++ rest)) → x.token = .symbol .dotDot →
    Whole ends .bitOr second b rest →
    Phrase ends .range (first ++ x :: second) ⟨.range a b, a.span.merge b.span⟩ rest
  | atom {x node rest} : Atom x.token node → Phrase ends .suffix [x] ⟨node, x.span⟩ rest
  | array {x used es y rest} :
    x.token = .symbol .lbracket → Listed ends used es (y :: rest) → y.token = .symbol .rbracket →
    Phrase ends .suffix (x :: (used ++ [y])) ⟨.array es, x.span.merge y.span⟩ rest
  | paren {x used e y rest} :
    x.token = .symbol .lparen → Whole ends .or used e (y :: rest) → y.token = .symbol .rparen →
    Phrase ends .suffix (x :: (used ++ [y])) e rest
  | cast {x target p used e y rest} :
    x.token = .keyword (.type target) → p.token = .symbol .lparen →
    Whole ends .or used e (y :: rest) → y.token = .symbol .rparen →
    Phrase ends .suffix (x :: p :: (used ++ [y])) ⟨.cast target e, x.span.merge y.span⟩ rest
  | index {base e x used i y rest} :
    Phrase ends .suffix base e (x :: (used ++ y :: rest)) → x.token = .symbol .lbracket →
    Whole ends .or used i (y :: rest) → y.token = .symbol .rbracket →
    Phrase ends .suffix (base ++ x :: (used ++ [y])) ⟨.index e i, e.span.merge y.span⟩ rest
  | call {base name span x used es y rest} :
    Phrase ends .suffix base ⟨.var name, span⟩ (x :: (used ++ y :: rest)) →
    x.token = .symbol .lparen → Listed ends used es (y :: rest) → y.token = .symbol .rparen →
    Phrase ends .suffix (base ++ x :: (used ++ [y])) ⟨.call ⟨name, span⟩ es, span.merge y.span⟩ rest

/-- A phrase of a level that ends here. -/
inductive Whole (ends : Edge → List Lexeme → Prop) :
    Level → List Lexeme → Expr → List Lexeme → Prop
  | intro {level used e rest} :
    Phrase ends level used e rest → ends (.operand level e.isName) rest →
    Whole ends level used e rest

/-- Expressions with commas between them. -/
inductive Listed (ends : Edge → List Lexeme → Prop) :
    List Lexeme → List Expr → List Lexeme → Prop
  | none {rest} : Listed ends [] [] rest
  | one {used e rest} : Whole ends .or used e rest → Listed ends used [e] rest
  | more {used e x others e' es rest} :
    Whole ends .or used e (x :: (others ++ rest)) → x.token = .symbol .comma →
    Listed ends others (e' :: es) rest → Listed ends (used ++ x :: others) (e :: e' :: es) rest

end

/-! ## Statements -/

/-- A chain of subscripts that starts from a name. -/
inductive Rooted : Expr → Prop
  | name (text : String) (span : Span) : Rooted ⟨.var text, span⟩
  | element {base : Expr} (index : Expr) (span : Span) :
    Rooted base → Rooted ⟨.index base index, span⟩

/-- What an expression before an arrow means. -/
inductive Place : Expr → Target → Prop
  | name (text : String) (span : Span) : Place ⟨.var text, span⟩ ⟨.name text, span⟩
  | element {base : Expr} (index : Expr) (span : Span) :
    Rooted base → Place ⟨.index base index, span⟩ ⟨.element base index, span⟩

/-- Names with commas between them. -/
inductive Names : List Lexeme → List Name → Prop
  | none : Names [] []
  | one {x text} : x.token = .ident text → Names [x] [⟨text, x.span⟩]
  | more {x text c used p ps} :
    x.token = .ident text → c.token = .symbol .comma → Names used (p :: ps) →
    Names (x :: c :: used) (⟨text, x.span⟩ :: p :: ps)

mutual

/-- A statement without the semicolon after it. -/
inductive Node (ends : Edge → List Lexeme → Prop) :
    List Lexeme → StmtNode → List Lexeme → Prop
  | function {x n text o names params c used body rest} :
    x.token = .keyword .functionKw → n.token = .ident text → o.token = .symbol .lparen →
    Names names params → c.token = .symbol .rparen → Braced ends used body rest →
    Node ends (x :: n :: o :: (names ++ c :: used))
      (.function ⟨⟨text, n.span⟩, params, body, spanOver x (n :: o :: (names ++ c :: used))⟩) rest
  | cond {x used test block yes others no rest} :
    x.token = .keyword .ifKw → Whole ends .or used test (block ++ others ++ rest) →
    Braced ends block yes (others ++ rest) → Otherwise ends others no rest →
    Node ends (x :: (used ++ block ++ others)) (.cond test yes no) rest
  | loop {x used test block body rest} :
    x.token = .keyword .whileKw → Whole ends .or used test (block ++ rest) →
    Braced ends block body rest → Node ends (x :: (used ++ block)) (.loop test body) rest
  | each {x n text i used items block body rest} :
    x.token = .keyword .forKw → n.token = .ident text → i.token = .keyword .inKw →
    Whole ends .or used items (block ++ rest) → Braced ends block body rest →
    Node ends (x :: n :: i :: (used ++ block)) (.each ⟨text, n.span⟩ items body) rest
  | times {x used count block body rest} :
    x.token = .keyword .repeatKw → Whole ends .or used count (block ++ rest) →
    Braced ends block body rest → Node ends (x :: (used ++ block)) (.times count body) rest
  | leave {x rest} :
    x.token = .keyword .returnKw → ends .value rest → Node ends [x] (.return none) rest
  | return {x used e rest} :
    x.token = .keyword .returnKw → Whole ends .or used e rest →
    Node ends (x :: used) (.return (some e)) rest
  | stop {x rest} : x.token = .keyword .stopKw → Node ends [x] .stop rest
  | next {x rest} : x.token = .keyword .nextKw → Node ends [x] .next rest
  | expr {used e rest} :
    Whole ends .or used e rest → ends .place rest → Node ends used (.expr e) rest
  | assign {used e x place others value rest} :
    Whole ends .or used e (x :: (others ++ rest)) → x.token = .symbol .arrow → Place e place →
    Whole ends .or others value rest → Node ends (used ++ x :: others) (.assign place value) rest

/-- What follows the first block of an `if`. -/
inductive Otherwise (ends : Edge → List Lexeme → Prop) :
    List Lexeme → Option Block → List Lexeme → Prop
  | none {rest} : ends .branch rest → Otherwise ends [] none rest
  | cond {x y used node rest} :
    x.token = .keyword .elseKw → y.token = .keyword .ifKw → Node ends (y :: used) node rest →
    Otherwise ends (x :: y :: used) (some ⟨[⟨node, spanOver y used⟩], spanOver y used⟩) rest
  | block {x used block rest} :
    x.token = .keyword .elseKw → Braced ends used block rest →
    Otherwise ends (x :: used) (some block) rest

/-- A statement with the semicolon that may follow it. -/
inductive Sentence (ends : Edge → List Lexeme → Prop) :
    List Lexeme → Stmt → List Lexeme → Prop
  | bare {x used node rest} :
    Node ends (x :: used) node rest → ends .statement rest →
    Sentence ends (x :: used) ⟨node, spanOver x used⟩ rest
  | closed {x used node y rest} :
    Node ends (x :: used) node (y :: rest) → y.token = .symbol .semi →
    Sentence ends (x :: (used ++ [y])) ⟨node, spanOver x used⟩ rest

/-- Statements in a row, with further semicolons between them. -/
inductive Items (ends : Edge → List Lexeme → Prop) :
    List Lexeme → List Stmt → List Lexeme → Prop
  | nil {rest} : Items ends [] [] rest
  | semi {x used stmts rest} :
    x.token = .symbol .semi → Items ends used stmts rest → Items ends (x :: used) stmts rest
  | cons {used stmt others stmts rest} :
    Sentence ends used stmt (others ++ rest) → Items ends others stmts rest →
    Items ends (used ++ others) (stmt :: stmts) rest

/-- Statements between braces. -/
inductive Braced (ends : Edge → List Lexeme → Prop) :
    List Lexeme → Block → List Lexeme → Prop
  | intro {x used stmts y rest} :
    x.token = .symbol .lbrace → Items ends used stmts (y :: rest) → y.token = .symbol .rbrace →
    Braced ends (x :: (used ++ [y])) ⟨stmts, x.span.merge y.span⟩ rest

end

/-- The lexemes of a program: its statements and nothing else. -/
def Derives (lexemes : List Lexeme) (p : Program) : Prop :=
  Items Anywhere lexemes p.statements []

/-! ## How phrases begin -/

/-- The tokens with which a phrase of a level begins. A sign before an
operand is no tighter than the level of its operator. -/
structure Starts (level : Level) (t : Token) : Prop where
  expression : t.startsExpression = true
  tight : ∀ op : UnaryOp, t = op.token → level.rank ≤ op.level.rank

theorem Starts.looser {level next : Level} {t : Token} (hn : level.next? = some next)
    (h : Starts next t) : Starts level t := by
  refine ⟨h.expression, fun op ht => ?_⟩
  have := h.tight op ht
  have := Level.rank_next hn
  omega

theorem Starts.ofUnary (op : UnaryOp) : Starts op.level op.token := by
  refine ⟨by cases op <;> rfl, fun op' h => ?_⟩
  cases op <;> cases op' <;> first | exact Nat.le_refl _ | cases h

theorem Starts.ofAtom {t : Token} {node : ExprNode} (h : Atom t node) : Starts .suffix t := by
  refine ⟨by cases h <;> rfl, fun op ht => ?_⟩
  cases h <;> cases op <;> cases ht

mutual

theorem Phrase.head {level used e rest} :
    Phrase ends level used e rest → ∃ x xs, used = x :: xs ∧ Starts level x.token
  | .tighter hn h _ => by
    obtain ⟨x, xs, rfl, hx⟩ := h.head
    exact ⟨x, xs, rfl, hx.looser hn⟩
  | .binary _ _ _ h _ => by
    obtain ⟨x, xs, rfl, hx⟩ := h.head
    exact ⟨x, _, rfl, hx⟩
  | .unary ho hx _ => ⟨_, _, rfl, by subst ho; rw [hx]; exact .ofUnary _⟩
  | .range h _ _ => by
    obtain ⟨x, xs, rfl, hx⟩ := h.head
    exact ⟨x, _, rfl, hx.looser rfl⟩
  | .atom h => ⟨_, _, rfl, .ofAtom h⟩
  | .array hx _ _ => ⟨_, _, rfl, by rw [hx]; exact ⟨rfl, fun op h => by cases op <;> cases h⟩⟩
  | .paren hx _ _ => ⟨_, _, rfl, by rw [hx]; exact ⟨rfl, fun op h => by cases op <;> cases h⟩⟩
  | .cast hx _ _ _ => ⟨_, _, rfl, by rw [hx]; exact ⟨rfl, fun op h => by cases op <;> cases h⟩⟩
  | .index h _ _ _ => by
    obtain ⟨x, xs, rfl, hx⟩ := h.head
    exact ⟨x, _, rfl, hx⟩
  | .call h _ _ _ => by
    obtain ⟨x, xs, rfl, hx⟩ := h.head
    exact ⟨x, _, rfl, hx⟩

theorem Whole.head {level used e rest} :
    Whole ends level used e rest → ∃ x xs, used = x :: xs ∧ Starts level x.token
  | .intro h _ => h.head

end

theorem Node.head {used node rest} (h : Node ends used node rest) :
    ∃ x xs, used = x :: xs ∧
      (x.token.startsStatement = true ∨ x.token.startsExpression = true) := by
  cases h with
  | function hx => exact ⟨_, _, rfl, .inl (by rw [hx]; rfl)⟩
  | cond hx => exact ⟨_, _, rfl, .inl (by rw [hx]; rfl)⟩
  | loop hx => exact ⟨_, _, rfl, .inl (by rw [hx]; rfl)⟩
  | each hx => exact ⟨_, _, rfl, .inl (by rw [hx]; rfl)⟩
  | times hx => exact ⟨_, _, rfl, .inl (by rw [hx]; rfl)⟩
  | leave hx => exact ⟨_, _, rfl, .inl (by rw [hx]; rfl)⟩
  | «return» hx => exact ⟨_, _, rfl, .inl (by rw [hx]; rfl)⟩
  | stop hx => exact ⟨_, _, rfl, .inl (by rw [hx]; rfl)⟩
  | next hx => exact ⟨_, _, rfl, .inl (by rw [hx]; rfl)⟩
  | expr he =>
    obtain ⟨x, xs, rfl, hx⟩ := he.head
    exact ⟨x, xs, rfl, .inr hx.expression⟩
  | assign he =>
    obtain ⟨x, xs, rfl, hx⟩ := he.head
    exact ⟨x, _, rfl, .inr hx.expression⟩

theorem Sentence.head {used stmt rest} (h : Sentence ends used stmt rest) :
    ∃ x xs, used = x :: xs ∧
      (x.token.startsStatement = true ∨ x.token.startsExpression = true) := by
  cases h with
  | bare hn _ =>
    obtain ⟨x, xs, hx, ht⟩ := hn.head
    cases hx
    exact ⟨_, _, rfl, ht⟩
  | closed hn _ =>
    obtain ⟨x, xs, hx, ht⟩ := hn.head
    cases hx
    exact ⟨_, _, rfl, ht⟩

end Grammar

end Quill
