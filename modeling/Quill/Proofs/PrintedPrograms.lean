-- Programs as tokens. A program is printed with parentheses only where the
-- level of an expression is looser than its place asks for, with braces
-- around every `else`, and with a semicolon after every statement. What is
-- printed is read back, up to spans.
import Quill.Proofs.GrammarTransfer
import Quill.Proofs.ProgramCompleteness

namespace Quill

/-! ## Printing -/

/-- The level of the outermost operator. -/
def Expr.level : Expr → Level
  | ⟨.binary _ op _, _⟩ => op.level
  | ⟨.unary op _, _⟩ => op.level
  | ⟨.range _ _, _⟩ => .range
  | _ => .suffix

/-- The next tighter level, if there is one. -/
def Level.tighter (level : Level) : Level := level.next?.getD level

/-- The tokens of an expression of level `own` where the level `place` is
asked for. -/
def wrap (own place : Level) (tokens : List Token) : List Token :=
  if own.rank < place.rank then .symbol .lparen :: (tokens ++ [.symbol .rparen]) else tokens

mutual

/-- The tokens of an expression, without parentheses around it. -/
def Expr.print : Expr → List Token
  | ⟨node, _⟩ => node.print

def ExprNode.print : ExprNode → List Token
  | .int value => [.int value]
  | .float value => [.float value]
  | .bool true => [.keyword .trueKw]
  | .bool false => [.keyword .falseKw]
  | .string value => [.string value]
  | .array elements => .symbol .lbracket :: (Expr.printAll elements ++ [.symbol .rbracket])
  | .var name => [.ident name]
  | .binary left op right =>
    wrap left.level op.level left.print ++
      op.token :: wrap right.level op.level.tighter right.print
  | .unary op operand => op.token :: wrap operand.level op.level operand.print
  | .range first last =>
    wrap first.level .bitOr first.print ++ .symbol .dotDot :: wrap last.level .bitOr last.print
  | .index base index =>
    wrap base.level .suffix base.print ++
      .symbol .lbracket :: (index.print ++ [.symbol .rbracket])
  | .call callee args =>
    .ident callee.text :: .symbol .lparen :: (Expr.printAll args ++ [.symbol .rparen])
  | .cast target operand =>
    .keyword (.type target) :: .symbol .lparen :: (operand.print ++ [.symbol .rparen])

/-- Expressions with commas between them. -/
def Expr.printAll : List Expr → List Token
  | [] => []
  | [e] => e.print
  | e :: e' :: es => e.print ++ .symbol .comma :: Expr.printAll (e' :: es)

end

/-- Names with commas between them. -/
def Name.printAll : List Name → List Token
  | [] => []
  | [n] => [.ident n.text]
  | n :: n' :: ns => .ident n.text :: .symbol .comma :: Name.printAll (n' :: ns)

def Target.print : Target → List Token
  | ⟨.name text, _⟩ => [.ident text]
  | ⟨.element base index, span⟩ => Expr.print ⟨.index base index, span⟩

mutual

/-- The tokens of a statement and the semicolon after it. -/
def Stmt.print : Stmt → List Token
  | ⟨node, _⟩ => node.print ++ [.symbol .semi]

def StmtNode.print : StmtNode → List Token
  | .expr value => value.print
  | .assign target value => target.print ++ .symbol .arrow :: value.print
  | .cond test yes no => .keyword .ifKw :: (test.print ++ yes.print ++ Block.printElse no)
  | .loop test body => .keyword .whileKw :: (test.print ++ body.print)
  | .each item items body =>
    .keyword .forKw :: .ident item.text :: .keyword .inKw :: (items.print ++ body.print)
  | .times count body => .keyword .repeatKw :: (count.print ++ body.print)
  | .function decl => decl.print
  | .return none => [.keyword .returnKw]
  | .return (some value) => .keyword .returnKw :: value.print
  | .stop => [.keyword .stopKw]
  | .next => [.keyword .nextKw]

def Block.print : Block → List Token
  | ⟨statements, _⟩ => .symbol .lbrace :: (Stmt.printAll statements ++ [.symbol .rbrace])

def Block.printElse : Option Block → List Token
  | none => []
  | some b => .keyword .elseKw :: b.print

def FunctionDecl.print : FunctionDecl → List Token
  | ⟨name, params, body, _⟩ =>
    .keyword .functionKw :: .ident name.text :: .symbol .lparen ::
      (Name.printAll params ++ .symbol .rparen :: body.print)

def Stmt.printAll : List Stmt → List Token
  | [] => []
  | s :: ss => s.print ++ Stmt.printAll ss

end

def Program.print (p : Program) : List Token := Stmt.printAll p.statements

mutual

/-- Every assignment in the statement to an element starts from a name. -/
def Stmt.TargetsRooted : Stmt → Prop
  | ⟨node, _⟩ => node.TargetsRooted

def StmtNode.TargetsRooted : StmtNode → Prop
  | .assign ⟨.element base _, _⟩ _ => Grammar.Rooted base
  | .cond _ yes no => yes.TargetsRooted ∧ Block.OptionTargetsRooted no
  | .loop _ body | .each _ _ body | .times _ body => body.TargetsRooted
  | .function decl => decl.TargetsRooted
  | _ => True

def Block.TargetsRooted : Block → Prop
  | ⟨statements, _⟩ => Stmt.AllTargetsRooted statements

def Block.OptionTargetsRooted : Option Block → Prop
  | none => True
  | some b => b.TargetsRooted

def FunctionDecl.TargetsRooted : FunctionDecl → Prop
  | ⟨_, _, body, _⟩ => body.TargetsRooted

def Stmt.AllTargetsRooted : List Stmt → Prop
  | [] => True
  | s :: ss => s.TargetsRooted ∧ Stmt.AllTargetsRooted ss

end

namespace Grammar

/-! ## What may follow -/

/-- No phrase that is tighter than `place` goes on with `rest`. -/
structure ClosedAbove (place : Level) (rest : List Lexeme) : Prop where
  operand : ∀ level : Level, place.rank < level.rank → Stops (.operand level true) rest
  bound : place.rank ≤ Level.range.rank → Stops .bound rest

theorem ClosedAbove.mono {place level : Level} {rest : List Lexeme} (h : ClosedAbove place rest)
    (hl : place.rank ≤ level.rank) : ClosedAbove level rest :=
  ⟨fun other ho => h.operand other (by omega), fun hb => h.bound (by omega)⟩

/-- What stops after a name stops after any expression. -/
theorem stops_of_named {level : Level} {named : Bool} {rest : List Lexeme}
    (h : Stops (.operand level true) rest) : Stops (.operand level named) rest := by
  intro x xs hr hx
  refine h x xs hr ?_
  by_cases hl : level = .suffix
  · subst hl
    exact hx.imp id fun hp => ⟨hp.1, rfl⟩
  · rw [Edge.goesOn_operand hl] at hx ⊢
    exact hx

theorem closedAbove_suffix (rest : List Lexeme) : ClosedAbove .suffix rest :=
  ⟨fun level h => by cases level <;> exact absurd h (by decide), fun h => absurd h (by decide)⟩

/-- The tokens after which no expression goes on. -/
def closes : Token → Bool
  | .symbol .rparen | .symbol .rbracket | .symbol .comma | .symbol .semi | .symbol .lbrace
  | .symbol .arrow => true
  | _ => false

theorem stops_of_closes {x : Lexeme} (h : closes x.token = true) (level : Level) (named : Bool)
    (rest : List Lexeme) : Stops (.operand level named) (x :: rest) := by
  rw [stops_cons]
  by_cases hl : level = .suffix
  · subst hl
    rintro (hx | ⟨hx, -⟩) <;> rw [hx] at h <;> cases h
  · rw [Edge.goesOn_operand hl]
    rintro ⟨op, -, hx⟩
    rw [hx] at h
    cases op <;> cases h

theorem closedAbove_of_closes {x : Lexeme} (h : closes x.token = true) (place : Level)
    (rest : List Lexeme) : ClosedAbove place (x :: rest) := by
  refine ⟨fun level _ => stops_of_closes h level true rest, fun _ => ?_⟩
  rw [stops_cons]
  intro hx
  rw [show x.token = _ from hx] at h
  cases h

theorem BinaryOp.token_inj {a b : BinaryOp} (h : a.token = b.token) : a = b := by
  cases a <;> cases b <;> first | rfl | cases h

theorem closedAbove_op {op : BinaryOp} {x : Lexeme} (hx : x.token = op.token)
    (rest : List Lexeme) : ClosedAbove op.level (x :: rest) := by
  refine ⟨fun level hl => ?_, fun _ => ?_⟩
  · rw [stops_cons, hx]
    by_cases hs : level = .suffix
    · subst hs
      rintro (h | ⟨h, -⟩) <;> cases op <;> cases h
    · rw [Edge.goesOn_operand hs]
      rintro ⟨other, rfl, ht⟩
      rw [BinaryOp.token_inj ht] at hl
      exact Nat.lt_irrefl _ hl
  · rw [stops_cons, hx]
    intro h
    cases op <;> cases h

theorem stops_dots {x : Lexeme} (hx : x.token = .symbol .dotDot) (level : Level) (named : Bool)
    (rest : List Lexeme) : Stops (.operand level named) (x :: rest) := by
  rw [stops_cons, hx]
  by_cases hs : level = .suffix
  · subst hs
    rintro (h | ⟨h, -⟩) <;> cases h
  · rw [Edge.goesOn_operand hs]
    rintro ⟨op, -, h⟩
    cases op <;> cases h

theorem closedAbove_dots {x : Lexeme} (hx : x.token = .symbol .dotDot) (rest : List Lexeme) :
    ClosedAbove .bitOr (x :: rest) :=
  ⟨fun level _ => stops_dots hx level true rest, fun h => absurd h (by decide)⟩

/-! ## Expressions -/

theorem Level.rank_inj {a b : Level} (h : a.rank = b.rank) : a = b := by
  cases a <;> cases b <;> first | rfl | cases h

theorem Level.exists_prev {level : Level} (h : 0 < level.rank) :
    ∃ prev : Level, prev.next? = some level := by
  cases level
  case or => cases h
  all_goals first
    | exact ⟨.or, rfl⟩ | exact ⟨.and, rfl⟩ | exact ⟨.not, rfl⟩ | exact ⟨.equality, rfl⟩
    | exact ⟨.order, rfl⟩ | exact ⟨.range, rfl⟩ | exact ⟨.bitOr, rfl⟩ | exact ⟨.bitXor, rfl⟩
    | exact ⟨.bitAnd, rfl⟩ | exact ⟨.sum, rfl⟩ | exact ⟨.product, rfl⟩ | exact ⟨.sign, rfl⟩

/-- A phrase is also one of every looser level, where the levels between
do not go on. -/
theorem Phrase.raise {place level : Level} {used rest : List Lexeme} {e : Expr}
    (h : Phrase Stops level used e rest) (hl : place.rank ≤ level.rank)
    (hr : ClosedAbove place rest) : Phrase Stops place used e rest := by
  obtain ⟨k, hk⟩ := Nat.exists_eq_add_of_le hl
  induction k generalizing level with
  | zero =>
    obtain rfl := Level.rank_inj hk
    exact h
  | succ k ih =>
    have hpos : 0 < level.rank := by omega
    obtain ⟨prev, hp⟩ := Level.exists_prev hpos
    have hrank := Level.rank_next hp
    have hprev : Phrase Stops prev used e rest := by
      refine .tighter hp (.intro h (stops_of_named (hr.operand level (by omega)))) ?_
      rintro rfl
      exact hr.bound (by omega)
    exact ih hprev (by omega) (by omega)

/-- The lexemes of printed tokens, which have no places. -/
def marks (tokens : List Token) : List Lexeme := tokens.map fun t => ⟨t, .origin⟩

@[simp] theorem marks_nil : marks [] = [] := rfl

@[simp] theorem marks_cons (t : Token) (ts : List Token) :
    marks (t :: ts) = ⟨t, .origin⟩ :: marks ts := rfl

@[simp] theorem marks_append (ts us : List Token) : marks (ts ++ us) = marks ts ++ marks us :=
  List.map_append

/-- The printed expression is read back where nothing goes on with it. -/
def Printed (e : Expr) : Prop :=
  ∀ rest, ClosedAbove e.level rest →
    ∃ e', Phrase Stops e.level (marks e.print) e' rest ∧ e'.respan .forget = e.respan .forget

theorem read_back {e e' : Expr} {used rest : List Lexeme} (h : Phrase Stops e.level used e' rest)
    (hu : marks e.print = used) (heq : e'.respan .forget = e.respan .forget) :
    ∃ e', Phrase Stops e.level (marks e.print) e' rest ∧ e'.respan .forget = e.respan .forget :=
  ⟨e', hu ▸ h, heq⟩

/-- The same where it has got the parentheses that its place asks for. -/
theorem Printed.placed {e : Expr} (h : Printed e) {place : Level} {rest : List Lexeme}
    (hr : ClosedAbove place rest) :
    ∃ e', Phrase Stops place (marks (wrap e.level place e.print)) e' rest ∧
      e'.respan .forget = e.respan .forget := by
  unfold wrap
  split
  · have hclose : closes (Lexeme.mk (.symbol .rparen) .origin).token = true := rfl
    obtain ⟨e', he, heq⟩ := h _ (closedAbove_of_closes hclose _ rest)
    have hor : Whole Stops .or (marks e.print) e' (⟨.symbol .rparen, .origin⟩ :: rest) :=
      .intro (he.raise (Nat.zero_le _) (closedAbove_of_closes hclose _ _))
        (stops_of_closes hclose _ _ _)
    have hparen := Phrase.paren (x := ⟨.symbol .lparen, .origin⟩) rfl hor rfl
    have hplace : place.rank ≤ Level.suffix.rank := by cases place <;> decide
    exact ⟨e', by simpa using hparen.raise hplace hr, heq⟩
  · rename_i hl
    obtain ⟨e', he, heq⟩ := h rest (hr.mono (by omega))
    exact ⟨e', he.raise (by omega) hr, heq⟩

theorem Printed.whole {e : Expr} (h : Printed e) {place : Level} {rest : List Lexeme}
    (hr : ClosedAbove place rest) (hs : Stops (.operand place true) rest) :
    ∃ e', Whole Stops place (marks (wrap e.level place e.print)) e' rest ∧
      e'.respan .forget = e.respan .forget := by
  obtain ⟨e', he, heq⟩ := h.placed hr
  exact ⟨e', .intro he (stops_of_named hs), heq⟩

/-- Between brackets, and before a block, no parentheses are needed. -/
theorem Printed.inner {e : Expr} (h : Printed e) {x : Lexeme} (hx : closes x.token = true)
    (rest : List Lexeme) :
    ∃ e', Whole Stops .or (marks e.print) e' (x :: rest) ∧
      e'.respan .forget = e.respan .forget := by
  have := h.whole (closedAbove_of_closes hx .or rest) (stops_of_closes hx .or true rest)
  simpa [wrap, Level.rank] using this

theorem printed_atom {node : ExprNode} {span : Span} {t : Token} (h : Atom t node)
    (hp : node.print = [t]) (hl : (Expr.mk node span).level = .suffix) :
    Printed ⟨node, span⟩ := by
  intro rest _
  refine ⟨⟨node, .origin⟩, ?_, ?_⟩
  · rw [hl]
    simp only [Expr.print, hp]
    exact .atom (x := ⟨t, .origin⟩) h
  · simp only [Expr.respan, Span.forget]

theorem BinaryOp.next_level (op : BinaryOp) : op.level.next? = some op.level.tighter := by
  cases op <;> rfl

mutual

theorem Expr.printed : ∀ e : Expr, Printed e
  | ⟨.int _, _⟩ => printed_atom (.int _) rfl rfl
  | ⟨.float _, _⟩ => printed_atom (.float _) rfl rfl
  | ⟨.string _, _⟩ => printed_atom (.string _) rfl rfl
  | ⟨.bool true, _⟩ => printed_atom .true rfl rfl
  | ⟨.bool false, _⟩ => printed_atom .false rfl rfl
  | ⟨.var _, _⟩ => printed_atom (.name _) rfl rfl
  | ⟨.binary a op b, span⟩ => by
    intro rest hr
    have hr : ClosedAbove op.level rest := hr
    have hnext := BinaryOp.next_level op
    have hrank := Level.rank_next hnext
    obtain ⟨b', hb, hbeq⟩ := (Expr.printed b).whole (hr.mono (by omega))
      (hr.operand op.level.tighter (by omega))
    obtain ⟨a', ha, haeq⟩ := (Expr.printed a).placed (closedAbove_op (x := ⟨op.token, .origin⟩) rfl
      (marks (wrap b.level op.level.tighter b.print) ++ rest))
    exact read_back (Phrase.binary rfl hnext rfl ha hb)
      (by simp [Expr.print, ExprNode.print])
      (by simp only [Expr.respan, ExprNode.respan, haeq, hbeq, Span.forget])
  | ⟨.unary op a, span⟩ => by
    intro rest hr
    have hr : ClosedAbove op.level rest := hr
    obtain ⟨a', ha, haeq⟩ := (Expr.printed a).placed hr
    exact read_back (Phrase.unary (x := ⟨op.token, .origin⟩) rfl rfl ha)
      (by simp [Expr.print, ExprNode.print])
      (by simp only [Expr.respan, ExprNode.respan, haeq, Span.forget])
  | ⟨.range a b, span⟩ => by
    intro rest hr
    have hr : ClosedAbove .range rest := hr
    obtain ⟨b', hb, hbeq⟩ := (Expr.printed b).whole (hr.mono (by decide))
      (hr.operand .bitOr (by decide))
    have hx : (Lexeme.mk (.symbol .dotDot) .origin).token = .symbol .dotDot := rfl
    obtain ⟨a', ha, haeq⟩ := (Expr.printed a).whole
      (closedAbove_dots hx (marks (wrap b.level .bitOr b.print) ++ rest)) (stops_dots hx _ _ _)
    exact read_back (Phrase.range ha hx hb)
      (by simp [Expr.print, ExprNode.print])
      (by simp only [Expr.respan, ExprNode.respan, haeq, hbeq, Span.forget])
  | ⟨.array es, span⟩ => by
    intro rest _
    obtain ⟨es', hes, heq⟩ := Expr.printedAll es (x := ⟨.symbol .rbracket, .origin⟩) rfl rest
    exact read_back (Phrase.array (x := ⟨.symbol .lbracket, .origin⟩) rfl hes rfl)
      (by simp [Expr.print, ExprNode.print])
      (by simp only [Expr.respan, ExprNode.respan, heq, Span.forget])
  | ⟨.index a i, span⟩ => by
    intro rest _
    obtain ⟨i', hi, hieq⟩ := (Expr.printed i).inner (x := ⟨.symbol .rbracket, .origin⟩) rfl rest
    obtain ⟨a', ha, haeq⟩ := (Expr.printed a).placed (closedAbove_suffix
      (⟨.symbol .lbracket, .origin⟩ :: (marks i.print ++ ⟨.symbol .rbracket, .origin⟩ :: rest)))
    exact read_back (Phrase.index ha rfl hi rfl)
      (by simp [Expr.print, ExprNode.print])
      (by simp only [Expr.respan, ExprNode.respan, haeq, hieq, Span.forget])
  | ⟨.call f es, span⟩ => by
    intro rest _
    obtain ⟨es', hes, heq⟩ := Expr.printedAll es (x := ⟨.symbol .rparen, .origin⟩) rfl rest
    exact read_back (Phrase.call (.atom (x := ⟨.ident f.text, .origin⟩) (.name f.text))
        (x := ⟨.symbol .lparen, .origin⟩) rfl hes rfl)
      (by simp [Expr.print, ExprNode.print])
      (by simp only [Expr.respan, ExprNode.respan, Name.respan, heq, Span.forget])
  | ⟨.cast t a, span⟩ => by
    intro rest _
    obtain ⟨a', ha, haeq⟩ := (Expr.printed a).inner (x := ⟨.symbol .rparen, .origin⟩) rfl rest
    exact read_back (Phrase.cast (x := ⟨.keyword (.type t), .origin⟩)
        (p := ⟨.symbol .lparen, .origin⟩) rfl rfl ha rfl)
      (by simp [Expr.print, ExprNode.print])
      (by simp only [Expr.respan, ExprNode.respan, haeq, Span.forget])

theorem Expr.printedAll : ∀ (es : List Expr) {x : Lexeme}, closes x.token = true →
    ∀ rest, ∃ es', Listed Stops (marks (Expr.printAll es)) es' (x :: rest) ∧
      Expr.respanAll .forget es' = Expr.respanAll .forget es
  | [], _, _, _ => ⟨[], .none, rfl⟩
  | [e], x, hx, rest => by
    obtain ⟨e', he, heq⟩ := (Expr.printed e).inner hx rest
    exact ⟨[e'], .one he, by simp only [Expr.respanAll, heq]⟩
  | e :: e₁ :: es, x, hx, rest => by
    obtain ⟨es', hes, hes'⟩ := Expr.printedAll (e₁ :: es) hx rest
    obtain ⟨e', he, heq⟩ := (Expr.printed e).inner (x := ⟨.symbol .comma, .origin⟩) rfl
      (marks (Expr.printAll (e₁ :: es)) ++ x :: rest)
    rcases es' with _ | ⟨e₁', es'⟩
    · simp [Expr.respanAll] at hes'
    · refine ⟨e' :: e₁' :: es', ?_, ?_⟩
      · simpa [Expr.printAll] using Listed.more he rfl hes
      · rw [Expr.respanAll, hes', heq]
        rfl

end

/-! ## Statements -/

theorem names_printed : ∀ params : List Name, ∃ params',
    Names (marks (Name.printAll params)) params' ∧
      params'.map (·.respan .forget) = params.map (·.respan .forget)
  | [] => ⟨[], .none, rfl⟩
  | [n] => ⟨[⟨n.text, .origin⟩], .one (x := ⟨.ident n.text, .origin⟩) rfl, rfl⟩
  | n :: n₁ :: ns => by
    obtain ⟨params', hnames, heq⟩ := names_printed (n₁ :: ns)
    rcases params' with _ | ⟨p, ps⟩
    · simp at heq
    · refine ⟨⟨n.text, .origin⟩ :: p :: ps, ?_, ?_⟩
      · exact .more (x := ⟨.ident n.text, .origin⟩) (c := ⟨.symbol .comma, .origin⟩) rfl rfl hnames
      · rw [List.map_cons, heq]
        rfl

/-- A target is printed as the expression that it stands for. -/
theorem target_printed {target : Target} {value : Expr}
    (h : (StmtNode.assign target value).TargetsRooted) (rest : List Lexeme) :
    ∃ e place, Whole Stops .or (marks target.print) e (⟨.symbol .arrow, .origin⟩ :: rest) ∧
      Place e place ∧ place.respan .forget = target.respan .forget := by
  obtain ⟨_ | ⟨base, index⟩, span⟩ := target
  · rename_i text
    obtain ⟨e, he, heq⟩ := (Expr.printed ⟨.var text, span⟩).inner
      (x := ⟨.symbol .arrow, .origin⟩) rfl rest
    obtain ⟨place, hp, hpeq⟩ := (Place.name text span).respan heq
    exact ⟨e, place, he, hp, hpeq⟩
  · obtain ⟨e, he, heq⟩ := (Expr.printed ⟨.index base index, span⟩).inner
      (x := ⟨.symbol .arrow, .origin⟩) rfl rest
    obtain ⟨place, hp, hpeq⟩ := (Place.element index span h).respan heq
    exact ⟨e, place, he, hp, hpeq⟩

/-- The block begins with a brace, before which an expression ends. -/
theorem Block.print_cons (b : Block) :
    ∃ ts, b.print = .symbol .lbrace :: ts := by
  obtain ⟨ss, span⟩ := b
  exact ⟨_, by rw [Block.print]⟩

theorem Printed.beforeBlock {e : Expr} (h : Printed e) (b : Block) (rest : List Lexeme) :
    ∃ e', Whole Stops .or (marks e.print) e' (marks b.print ++ rest) ∧
      e'.respan .forget = e.respan .forget := by
  obtain ⟨ts, hts⟩ := Block.print_cons b
  rw [hts]
  exact h.inner (x := ⟨.symbol .lbrace, .origin⟩) rfl (marks ts ++ rest)

/-- The semicolon after a statement. -/
def stop : Lexeme := ⟨.symbol .semi, .origin⟩

mutual

theorem Stmt.printed : ∀ (s : Stmt), s.TargetsRooted → ∀ rest,
    ∃ s', Sentence Stops (marks s.print) s' rest ∧ s'.respan .forget = s.respan .forget
  | ⟨node, span⟩, h, rest => by
    obtain ⟨n', hn, heq⟩ := StmtNode.printed node h rest
    obtain ⟨x, xs, hx, -⟩ := hn.head
    rw [hx] at hn
    refine ⟨⟨n', spanOver x xs⟩, ?_, ?_⟩
    · have hs := Sentence.closed hn rfl
      simpa [Stmt.print, hx, stop] using hs
    · simp only [Stmt.respan, heq, Span.forget]

theorem StmtNode.printed : ∀ (node : StmtNode), node.TargetsRooted → ∀ rest,
    ∃ node', Node Stops (marks node.print) node' (stop :: rest) ∧
      node'.respan .forget = node.respan .forget
  | .expr e, _, rest => by
    obtain ⟨e', he, heq⟩ := (Expr.printed e).inner (x := stop) rfl rest
    refine ⟨.expr e', .expr he ?_, by simp only [StmtNode.respan, heq]⟩
    exact stops_cons.mpr fun h => by cases h
  | .assign target e, h, rest => by
    obtain ⟨e', he, heq⟩ := (Expr.printed e).inner (x := stop) rfl rest
    obtain ⟨t', place, ht, hp, hpeq⟩ := target_printed h (marks e.print ++ stop :: rest)
    refine ⟨.assign place e', ?_, by simp only [StmtNode.respan, hpeq, heq]⟩
    simpa [StmtNode.print] using Node.assign ht rfl hp he
  | .cond test yes no, h, rest => by
    obtain ⟨yes', hyes, hyeq⟩ := Block.printed yes h.1 (marks (Block.printElse no) ++ stop :: rest)
    obtain ⟨no', hno, hneq⟩ := Block.printedElse no h.2 rest
    obtain ⟨test', htest, hteq⟩ := (Expr.printed test).beforeBlock yes
      (marks (Block.printElse no) ++ stop :: rest)
    refine ⟨.cond test' yes' no', ?_, by simp only [StmtNode.respan, hteq, hyeq, hneq]⟩
    rw [← List.append_assoc] at htest
    simpa [StmtNode.print] using Node.cond (x := ⟨.keyword .ifKw, .origin⟩) rfl htest hyes hno
  | .loop test body, h, rest => by
    obtain ⟨body', hbody, hbeq⟩ := Block.printed body h (stop :: rest)
    obtain ⟨test', htest, hteq⟩ := (Expr.printed test).beforeBlock body (stop :: rest)
    refine ⟨.loop test' body', ?_, by simp only [StmtNode.respan, hteq, hbeq]⟩
    simpa [StmtNode.print] using Node.loop (x := ⟨.keyword .whileKw, .origin⟩) rfl htest hbody
  | .each item items body, h, rest => by
    obtain ⟨body', hbody, hbeq⟩ := Block.printed body h (stop :: rest)
    obtain ⟨items', hitems, hieq⟩ := (Expr.printed items).beforeBlock body (stop :: rest)
    refine ⟨.each ⟨item.text, .origin⟩ items' body', ?_,
      by simp only [StmtNode.respan, Name.respan, hieq, hbeq, Span.forget]⟩
    simpa [StmtNode.print] using Node.each (x := ⟨.keyword .forKw, .origin⟩)
      (n := ⟨.ident item.text, .origin⟩) (i := ⟨.keyword .inKw, .origin⟩) rfl rfl rfl hitems hbody
  | .times count body, h, rest => by
    obtain ⟨body', hbody, hbeq⟩ := Block.printed body h (stop :: rest)
    obtain ⟨count', hcount, hceq⟩ := (Expr.printed count).beforeBlock body (stop :: rest)
    refine ⟨.times count' body', ?_, by simp only [StmtNode.respan, hceq, hbeq]⟩
    simpa [StmtNode.print] using Node.times (x := ⟨.keyword .repeatKw, .origin⟩) rfl hcount hbody
  | .function ⟨name, params, body, span⟩, h, rest => by
    obtain ⟨body', hbody, hbeq⟩ := Block.printed body h (stop :: rest)
    obtain ⟨params', hnames, hpeq⟩ := names_printed params
    have hnode := Node.function (x := ⟨.keyword .functionKw, .origin⟩)
      (n := ⟨.ident name.text, .origin⟩) (o := ⟨.symbol .lparen, .origin⟩)
      (c := ⟨.symbol .rparen, .origin⟩) rfl rfl rfl hnames rfl hbody
    simp only [StmtNode.print, FunctionDecl.print, marks_cons, marks_append]
    refine ⟨_, hnode, ?_⟩
    simp only [StmtNode.respan, FunctionDecl.respan, hpeq, hbeq]
    simp only [Name.respan, Span.forget]
  | .return none, _, rest =>
    ⟨.return none, .leave (x := ⟨.keyword .returnKw, .origin⟩) rfl
      (stops_cons.mpr fun h => by cases h), rfl⟩
  | .return (some e), _, rest => by
    obtain ⟨e', he, heq⟩ := (Expr.printed e).inner (x := stop) rfl rest
    exact ⟨.return (some e'), .return (x := ⟨.keyword .returnKw, .origin⟩) rfl he,
      by simp only [StmtNode.respan, Option.map_some, heq]⟩
  | .stop, _, rest => ⟨.stop, .stop (x := ⟨.keyword .stopKw, .origin⟩) rfl, rfl⟩
  | .next, _, rest => ⟨.next, .next (x := ⟨.keyword .nextKw, .origin⟩) rfl, rfl⟩

theorem Block.printed : ∀ (b : Block), b.TargetsRooted → ∀ rest,
    ∃ b', Braced Stops (marks b.print) b' rest ∧ b'.respan .forget = b.respan .forget
  | ⟨ss, span⟩, h, rest => by
    obtain ⟨ss', hss, heq⟩ := Stmt.printedAll ss h (⟨.symbol .rbrace, .origin⟩ :: rest)
    refine ⟨⟨ss', Span.merge .origin .origin⟩, ?_, by simp only [Block.respan, heq, Span.forget]⟩
    simpa [Block.print] using Braced.intro (x := ⟨.symbol .lbrace, .origin⟩) rfl hss rfl

theorem Block.printedElse : ∀ (no : Option Block), Block.OptionTargetsRooted no → ∀ rest,
    ∃ no', Otherwise Stops (marks (Block.printElse no)) no' (stop :: rest) ∧
      Block.respanOption .forget no' = Block.respanOption .forget no
  | none, _, rest => ⟨none, .none (stops_cons.mpr fun h => by cases h), rfl⟩
  | some b, h, rest => by
    obtain ⟨b', hb, heq⟩ := Block.printed b h (stop :: rest)
    exact ⟨some b', .block (x := ⟨.keyword .elseKw, .origin⟩) rfl hb,
      by simp only [Block.respanOption, heq]⟩

theorem Stmt.printedAll : ∀ (ss : List Stmt), Stmt.AllTargetsRooted ss → ∀ rest,
    ∃ ss', Items Stops (marks (Stmt.printAll ss)) ss' rest ∧
      Stmt.respanAll .forget ss' = Stmt.respanAll .forget ss
  | [], _, _ => ⟨[], .nil, rfl⟩
  | s :: ss, h, rest => by
    obtain ⟨ss', hss, hsseq⟩ := Stmt.printedAll ss h.2 rest
    obtain ⟨s', hs, hseq⟩ := Stmt.printed s h.1 (marks (Stmt.printAll ss) ++ rest)
    refine ⟨s' :: ss', ?_, by simp only [Stmt.respanAll, hseq, hsseq]⟩
    simpa [Stmt.printAll] using Items.cons hs hss

end

end Grammar

open Grammar

/-- The tokens of a program are read back as the program, up to spans,
wherever they stand in a text. -/
theorem parse_print (p : Program) (h : Stmt.AllTargetsRooted p.statements) (source : String)
    (lexemes : List Lexeme) (hl : lexemes.map (·.token) = p.print) :
    ∃ q, parse source lexemes = .ok q ∧ q.bare = p.bare := by
  obtain ⟨ss, hss, heq⟩ := Stmt.printedAll p.statements h []
  have halike : Alike .forget .forget (marks p.print) lexemes := by
    unfold Alike
    rw [← hl, marks, List.map_map, List.map_map]
    rfl
  obtain ⟨ss', hss', heq'⟩ := hss.transfer merges_forget merges_forget halike fun _ => id
  refine ⟨⟨ss'⟩, parseLexemes_of_items hss', ?_⟩
  simp only [Program.bare, heq', heq]

theorem parse_print_nested :
    ∃ p : Program, Stmt.AllTargetsRooted p.statements ∧
      p.print = [.ident "a", .symbol .lbracket, .int 0, .symbol .rbracket, .symbol .arrow, .int 1,
        .symbol .minus, .symbol .lparen, .int 2, .symbol .minus, .int 3, .symbol .rparen,
        .symbol .semi] ∧
      ∃ q, parse "" (marks p.print) = .ok q ∧ q.bare = p.bare := by
  let difference (x y : Expr) : Expr := ⟨.binary x .sub y, .origin⟩
  let number (n : Int64) : Expr := ⟨.int n, .origin⟩
  refine ⟨⟨[⟨.assign ⟨.element ⟨.var "a", .origin⟩ (number 0), .origin⟩
    (difference (number 1) (difference (number 2) (number 3))), .origin⟩]⟩, ?_, rfl, ?_⟩
  · exact ⟨.name "a" .origin, trivial⟩
  · exact parse_print _ (by exact ⟨.name "a" .origin, trivial⟩) "" _ rfl

end Quill
