-- Trees with other spans. A map of spans is carried over a tree without a
-- change to anything else; the map that forgets all spans leaves what two
-- texts of the same program have in common.
import Quill.Proofs.Grammar

namespace Quill

/-! ## Mapping spans -/

def Lexeme.respan (f : Span → Span) (x : Lexeme) : Lexeme := ⟨x.token, f x.span⟩

def Name.respan (f : Span → Span) (n : Name) : Name := ⟨n.text, f n.span⟩

mutual

/-- The expression with `f` applied to every span in it. -/
def Expr.respan (f : Span → Span) : Expr → Expr
  | ⟨node, span⟩ => ⟨node.respan f, f span⟩

def ExprNode.respan (f : Span → Span) : ExprNode → ExprNode
  | .int value => .int value
  | .float value => .float value
  | .bool value => .bool value
  | .string value => .string value
  | .array elements => .array (Expr.respanAll f elements)
  | .var name => .var name
  | .binary left op right => .binary (left.respan f) op (right.respan f)
  | .unary op operand => .unary op (operand.respan f)
  | .range first last => .range (first.respan f) (last.respan f)
  | .index base index => .index (base.respan f) (index.respan f)
  | .call callee args => .call (callee.respan f) (Expr.respanAll f args)
  | .cast target operand => .cast target (operand.respan f)

def Expr.respanAll (f : Span → Span) : List Expr → List Expr
  | [] => []
  | e :: es => e.respan f :: Expr.respanAll f es

end

def TargetNode.respan (f : Span → Span) : TargetNode → TargetNode
  | .name text => .name text
  | .element base index => .element (base.respan f) (index.respan f)

def Target.respan (f : Span → Span) (t : Target) : Target := ⟨t.node.respan f, f t.span⟩

mutual

/-- The statement with `f` applied to every span in it. -/
def Stmt.respan (f : Span → Span) : Stmt → Stmt
  | ⟨node, span⟩ => ⟨node.respan f, f span⟩

def StmtNode.respan (f : Span → Span) : StmtNode → StmtNode
  | .expr value => .expr (value.respan f)
  | .assign target value => .assign (target.respan f) (value.respan f)
  | .cond test yes no => .cond (test.respan f) (yes.respan f) (Block.respanOption f no)
  | .loop test body => .loop (test.respan f) (body.respan f)
  | .each item items body => .each (item.respan f) (items.respan f) (body.respan f)
  | .times count body => .times (count.respan f) (body.respan f)
  | .function decl => .function (decl.respan f)
  | .return value => .return (value.map (·.respan f))
  | .stop => .stop
  | .next => .next

def Block.respan (f : Span → Span) : Block → Block
  | ⟨statements, span⟩ => ⟨Stmt.respanAll f statements, f span⟩

def Block.respanOption (f : Span → Span) : Option Block → Option Block
  | none => none
  | some b => some (b.respan f)

def FunctionDecl.respan (f : Span → Span) : FunctionDecl → FunctionDecl
  | ⟨name, params, body, span⟩ => ⟨name.respan f, params.map (·.respan f), body.respan f, f span⟩

def Stmt.respanAll (f : Span → Span) : List Stmt → List Stmt
  | [] => []
  | s :: ss => s.respan f :: Stmt.respanAll f ss

end

/-- The map that forgets all places. -/
def Span.forget (_ : Span) : Span := .origin

/-- A program without places: every span is the origin. -/
def Program.bare (p : Program) : Program := ⟨Stmt.respanAll .forget p.statements⟩

theorem Stmt.respanAll_eq_map (f : Span → Span) (ss : List Stmt) :
    Stmt.respanAll f ss = ss.map (·.respan f) := by
  induction ss with
  | nil => rfl
  | cons s ss ih => rw [Stmt.respanAll, ih, List.map_cons]

/-! ## The map that changes nothing, and maps one after the other -/

mutual

theorem Expr.respan_id : (e : Expr) → e.respan id = e
  | ⟨node, span⟩ => by rw [Expr.respan, node.respan_id, id]

theorem ExprNode.respan_id : (n : ExprNode) → n.respan id = n
  | .int _ | .float _ | .bool _ | .string _ | .var _ => rfl
  | .array elements => by rw [ExprNode.respan, Expr.respanAll_id elements]
  | .binary left _ right => by rw [ExprNode.respan, left.respan_id, right.respan_id]
  | .unary _ operand => by rw [ExprNode.respan, operand.respan_id]
  | .range first last => by rw [ExprNode.respan, first.respan_id, last.respan_id]
  | .index base index => by rw [ExprNode.respan, base.respan_id, index.respan_id]
  | .call callee args => by rw [ExprNode.respan, Expr.respanAll_id args]; rfl
  | .cast _ operand => by rw [ExprNode.respan, operand.respan_id]

theorem Expr.respanAll_id : (es : List Expr) → Expr.respanAll id es = es
  | [] => rfl
  | e :: es => by rw [Expr.respanAll, e.respan_id, Expr.respanAll_id es]

end

theorem Target.respan_id (t : Target) : t.respan id = t := by
  obtain ⟨node, span⟩ := t
  cases node with
  | name text => rfl
  | element base index => rw [Target.respan, TargetNode.respan, base.respan_id, index.respan_id, id]

mutual

theorem Stmt.respan_id : (s : Stmt) → s.respan id = s
  | ⟨node, span⟩ => by rw [Stmt.respan, node.respan_id, id]

theorem StmtNode.respan_id : (n : StmtNode) → n.respan id = n
  | .expr value => by rw [StmtNode.respan, value.respan_id]
  | .assign target value => by rw [StmtNode.respan, target.respan_id, value.respan_id]
  | .cond test yes none => by
    rw [StmtNode.respan, test.respan_id, yes.respan_id, Block.respanOption]
  | .cond test yes (some no) => by
    rw [StmtNode.respan, test.respan_id, yes.respan_id, Block.respanOption, no.respan_id]
  | .loop test body => by rw [StmtNode.respan, test.respan_id, body.respan_id]
  | .each item items body => by rw [StmtNode.respan, items.respan_id, body.respan_id]; rfl
  | .times count body => by rw [StmtNode.respan, count.respan_id, body.respan_id]
  | .function ⟨name, params, body, span⟩ => by
    rw [StmtNode.respan, FunctionDecl.respan, body.respan_id]
    simp [Name.respan]
  | .return none => rfl
  | .return (some value) => by rw [StmtNode.respan, Option.map_some, value.respan_id]
  | .stop | .next => rfl

theorem Block.respan_id : (b : Block) → b.respan id = b
  | ⟨statements, span⟩ => by rw [Block.respan, Stmt.respanAll_id statements, id]

theorem Stmt.respanAll_id : (ss : List Stmt) → Stmt.respanAll id ss = ss
  | [] => rfl
  | s :: ss => by rw [Stmt.respanAll, s.respan_id, Stmt.respanAll_id ss]

end

section Composition

variable (f g : Span → Span)

mutual

theorem Expr.respan_respan : (e : Expr) → (e.respan f).respan g = e.respan (g ∘ f)
  | ⟨node, span⟩ => by simp only [Expr.respan, node.respan_respan, Function.comp_apply]

theorem ExprNode.respan_respan : (n : ExprNode) → (n.respan f).respan g = n.respan (g ∘ f)
  | .int _ | .float _ | .bool _ | .string _ | .var _ => rfl
  | .array elements => by simp only [ExprNode.respan, Expr.respanAll_respanAll elements]
  | .binary left _ right => by
    simp only [ExprNode.respan, left.respan_respan, right.respan_respan]
  | .unary _ operand => by simp only [ExprNode.respan, operand.respan_respan]
  | .range first last => by simp only [ExprNode.respan, first.respan_respan, last.respan_respan]
  | .index base index => by simp only [ExprNode.respan, base.respan_respan, index.respan_respan]
  | .call callee args => by
    simp only [ExprNode.respan, Name.respan, Expr.respanAll_respanAll args, Function.comp_apply]
  | .cast _ operand => by simp only [ExprNode.respan, operand.respan_respan]

theorem Expr.respanAll_respanAll : (es : List Expr) →
    Expr.respanAll g (Expr.respanAll f es) = Expr.respanAll (g ∘ f) es
  | [] => rfl
  | e :: es => by simp only [Expr.respanAll, e.respan_respan, Expr.respanAll_respanAll es]

end

theorem Target.respan_respan (t : Target) : (t.respan f).respan g = t.respan (g ∘ f) := by
  obtain ⟨node, span⟩ := t
  cases node with
  | name text => rfl
  | element base index =>
    simp only [Target.respan, TargetNode.respan, Expr.respan_respan, Function.comp_apply]

mutual

theorem Stmt.respan_respan : (s : Stmt) → (s.respan f).respan g = s.respan (g ∘ f)
  | ⟨node, span⟩ => by simp only [Stmt.respan, node.respan_respan, Function.comp_apply]

theorem StmtNode.respan_respan : (n : StmtNode) → (n.respan f).respan g = n.respan (g ∘ f)
  | .expr value => by simp only [StmtNode.respan, Expr.respan_respan]
  | .assign target value => by
    simp only [StmtNode.respan, Target.respan_respan, Expr.respan_respan]
  | .cond test yes none => by
    simp only [StmtNode.respan, Block.respanOption, Expr.respan_respan, yes.respan_respan]
  | .cond test yes (some no) => by
    simp only [StmtNode.respan, Block.respanOption, Expr.respan_respan, yes.respan_respan,
      no.respan_respan]
  | .loop test body => by simp only [StmtNode.respan, Expr.respan_respan, body.respan_respan]
  | .each item items body => by
    simp only [StmtNode.respan, Name.respan, Expr.respan_respan, body.respan_respan,
      Function.comp_apply]
  | .times count body => by simp only [StmtNode.respan, Expr.respan_respan, body.respan_respan]
  | .function ⟨name, params, body, span⟩ => by
    simp [StmtNode.respan, FunctionDecl.respan, body.respan_respan, Name.respan]
  | .return none => rfl
  | .return (some value) => by simp only [StmtNode.respan, Option.map_some, Expr.respan_respan]
  | .stop | .next => rfl

theorem Block.respan_respan : (b : Block) → (b.respan f).respan g = b.respan (g ∘ f)
  | ⟨statements, span⟩ => by
    simp only [Block.respan, Stmt.respanAll_respanAll statements, Function.comp_apply]

theorem Stmt.respanAll_respanAll : (ss : List Stmt) →
    Stmt.respanAll g (Stmt.respanAll f ss) = Stmt.respanAll (g ∘ f) ss
  | [] => rfl
  | s :: ss => by simp only [Stmt.respanAll, s.respan_respan, Stmt.respanAll_respanAll ss]

end

end Composition

/-! ## What does not change -/

theorem Expr.respan_span (f : Span → Span) (e : Expr) : (e.respan f).span = f e.span := by
  obtain ⟨node, span⟩ := e
  rfl

theorem Expr.isName_respan (f : Span → Span) (e : Expr) : (e.respan f).isName = e.isName := by
  obtain ⟨node, span⟩ := e
  cases node <;> rfl

/-- The expression is a name exactly if it is one with other spans. -/
theorem Expr.respan_eq_var {f g : Span → Span} {e : Expr} {text : String} {span : Span}
    (h : e.respan f = Expr.respan g ⟨.var text, span⟩) :
    e = ⟨.var text, e.span⟩ ∧ f e.span = g span := by
  obtain ⟨node, s⟩ := e
  cases node <;> simp_all [Expr.respan, ExprNode.respan]

theorem Expr.respan_eq_index {f g : Span → Span} {e base index : Expr} {span : Span}
    (h : e.respan f = Expr.respan g ⟨.index base index, span⟩) :
    ∃ base' index', e = ⟨.index base' index', e.span⟩ ∧ base'.respan f = base.respan g ∧
      index'.respan f = index.respan g ∧ f e.span = g span := by
  obtain ⟨node, s⟩ := e
  cases node with
  | index base' index' =>
    obtain ⟨hnode, hspan⟩ := Expr.mk.inj h
    obtain ⟨hbase, hindex⟩ := ExprNode.index.inj hnode
    exact ⟨base', index', rfl, hbase, hindex, hspan⟩
  | _ => simp [Expr.respan, ExprNode.respan] at h

namespace Grammar

/-- A chain of subscripts is one whatever its spans are. -/
theorem Rooted.respan {f g : Span → Span} {e : Expr} (h : Rooted e) :
    ∀ {e' : Expr}, e'.respan g = e.respan f → Rooted e' := by
  induction h with
  | name text span =>
    intro e' he
    rw [(Expr.respan_eq_var he).1]
    exact .name text _
  | element index span _ ih =>
    intro e' he
    obtain ⟨base', index', heq, hbase, -⟩ := Expr.respan_eq_index he
    rw [heq]
    exact .element index' _ (ih hbase)

theorem Place.respan {f g : Span → Span} {e e' : Expr} {place : Target} (h : Place e place)
    (he : e'.respan g = e.respan f) :
    ∃ place', Place e' place' ∧ place'.respan g = place.respan f := by
  cases h with
  | name text span =>
    obtain ⟨heq, hspan⟩ := Expr.respan_eq_var he
    rw [heq]
    exact ⟨_, .name text _, by simp [Target.respan, TargetNode.respan, hspan]⟩
  | element index span hr =>
    obtain ⟨base', index', heq, hbase, hindex, hspan⟩ := Expr.respan_eq_index he
    rw [heq]
    exact ⟨_, .element index' _ (hr.respan hbase),
      by simp [Target.respan, TargetNode.respan, hbase, hindex, hspan]⟩

end Grammar

end Quill
