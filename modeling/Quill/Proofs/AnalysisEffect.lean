-- What an analysis does to the scopes it works in. It never takes a name
-- away and never changes a binding: a statement adds at most the name it
-- declares to its own scope, whether or not it has errors, and all that is
-- declared in blocks and bodies is gone with them.
import Mathlib
import Quill.Compile
import Quill.Proofs.ScopeLookup

namespace Quill

/-! ## What a statement declares -/

/-- The scopes with the name declared that a statement in scope `i`
declares there. An assignment declares a name that is not seen, and a
declaration of a function leaves a global name as it is. -/
def Stmt.declare (i : ScopeId) (s : Stmt) (t : ScopeTree Function) : ScopeTree Function :=
  match s.node with
  | .assign ⟨.name name, _⟩ _ => if t.binds i name then t else t.insert i name none
  | .function d =>
    if t.isGlobal i && t.bindsIn i d.name.text then t
    else t.insert i d.name.text (some (.ofDecl d))
  | _ => t

/-- The scopes after the declarations of statements in order. -/
def declareAll (i : ScopeId) (ss : List Stmt) (t : ScopeTree Function) : ScopeTree Function :=
  ss.foldl (fun t s => s.declare i t) t

theorem Stmt.declare_eq_or (i : ScopeId) (s : Stmt) (t : ScopeTree Function) :
    s.declare i t = t ∨ ∃ n v, s.declare i t = t.insert i n v := by
  unfold Stmt.declare
  split
  · split
    · exact Or.inl rfl
    · exact Or.inr ⟨_, _, rfl⟩
  · split
    · exact Or.inl rfl
    · exact Or.inr ⟨_, _, rfl⟩
  · exact Or.inl rfl

theorem Stmt.size_declare (i : ScopeId) (s : Stmt) (t : ScopeTree Function) :
    (s.declare i t).size = t.size := by
  rcases s.declare_eq_or i t with h | ⟨n, v, h⟩
  · rw [h]
  · rw [h, ScopeTree.size_insert]

theorem Stmt.keep_declare {k i : Nat} (s : Stmt) (t : ScopeTree Function) (h : k ≤ i) :
    (s.declare i t).keep k = t.keep k := by
  rcases s.declare_eq_or i t with hd | ⟨n, v, hd⟩
  · rw [hd]
  · rw [hd, ScopeTree.keep_insert_of_le t n v h]

theorem Stmt.wellFormed_declare {t : ScopeTree Function} (i : ScopeId) (s : Stmt)
    (h : t.WellFormed) : (s.declare i t).WellFormed := by
  rcases s.declare_eq_or i t with hd | ⟨n, v, hd⟩
  · rw [hd]
    exact h
  · rw [hd]
    exact h.insert i n v

/-- What statements declare in a scope is gone when the scope is. -/
theorem keep_declareAll {k i : Nat} (ss : List Stmt) (t : ScopeTree Function) (h : k ≤ i) :
    (declareAll i ss t).keep k = t.keep k := by
  unfold declareAll
  induction ss generalizing t with
  | nil => rfl
  | cons s ss ih => rw [List.foldl_cons, ih, s.keep_declare t h]

namespace Analysis

theorem initialScopes_wellFormed : initialScopes.WellFormed :=
  List.foldlRecOn Builtin.all _ ScopeTree.WellFormed.empty fun _ h b _ => h.insert _ b.name _

/-! ## Steps of an analysis -/

/-- What is known after a step. -/
def after (m : Analyze Unit) (a : Analysis) : Analysis := (m.run a).2

variable {a : Analysis} {i : Nat}

@[simp] theorem after_pure (a : Analysis) : after (pure ()) a = a := rfl

@[simp] theorem after_bind (m : Analyze Unit) (f : Unit → Analyze Unit) (a : Analysis) :
    after (m >>= f) a = after (f ()) (after m a) := rfl

@[simp] theorem after_get_bind (f : Analysis → Analyze Unit) (a : Analysis) :
    after (get >>= f) a = after (f a) a := rfl

@[simp] theorem after_report (message : String) (span : Span) (a : Analysis) :
    after (report message span) a =
      { a with reporter := a.reporter.report ⟨message, span⟩ true } := rfl

@[simp] theorem after_declare (i : ScopeId) (n : String) (f : Option Function) (a : Analysis) :
    after (declare i n f) a = { a with scopes := a.scopes.insert i n f } := rfl

@[simp] theorem after_declareParams (i : ScopeId) (params : List Name) (a : Analysis) :
    after (declareParams i params) a =
      { a with scopes := params.foldl (fun t p => t.insert i p.text none) a.scopes } := rfl

@[simp] theorem after_within (enter : ScopeTree Function → ScopeTree Function)
    (body : ScopeId → Analyze Unit) (a : Analysis) :
    after (within enter body) a =
      let b := after (body a.scopes.size) { a with scopes := enter a.scopes }
      { b with scopes := b.scopes.keep a.scopes.size } := rfl

/-! ## Expressions declare nothing -/

@[simp] theorem useVariable_scopes (i : ScopeId) (n : String) (span : Span) (a : Analysis) :
    (after (useVariable i n span) a).scopes = a.scopes := by
  simp only [useVariable, after_get_bind]
  split <;> rfl

@[simp] theorem useFunction_scopes (i : ScopeId) (callee : Name) (arguments : Nat)
    (a : Analysis) : (after (useFunction i callee arguments) a).scopes = a.scopes := by
  simp only [useFunction, after_get_bind]
  split
  · rfl
  · split <;> rfl
  · rfl

mutual

@[simp] theorem expr_scopes (i : ScopeId) : (e : Expr) → (a : Analysis) →
    (after (expr i e) a).scopes = a.scopes
  | ⟨.int _, _⟩, _ => rfl
  | ⟨.float _, _⟩, _ => rfl
  | ⟨.bool _, _⟩, _ => rfl
  | ⟨.string _, _⟩, _ => rfl
  | ⟨.array elements, _⟩, a => by rw [expr, exprs_scopes i elements]
  | ⟨.var name, span⟩, a => by rw [expr, useVariable_scopes]
  | ⟨.binary left _ right, _⟩, a => by
    rw [expr, after_bind, expr_scopes i right, expr_scopes i left]
  | ⟨.unary _ operand, _⟩, a => by rw [expr, expr_scopes i operand]
  | ⟨.range first last, _⟩, a => by
    rw [expr, after_bind, expr_scopes i last, expr_scopes i first]
  | ⟨.index base index, _⟩, a => by
    rw [expr, after_bind, expr_scopes i index, expr_scopes i base]
  | ⟨.call callee args, _⟩, a => by
    rw [expr, after_bind, exprs_scopes i args, useFunction_scopes]
  | ⟨.cast _ operand, _⟩, a => by rw [expr, expr_scopes i operand]

@[simp] theorem exprs_scopes (i : ScopeId) : (es : List Expr) → (a : Analysis) →
    (after (exprs i es) a).scopes = a.scopes
  | [], _ => rfl
  | e :: es, a => by rw [exprs, after_bind, exprs_scopes i es, expr_scopes i e]

end

/-! ## Statements declare one name at most -/

@[simp] theorem needsLoop_scopes (i : ScopeId) (word : String) (span : Span) (a : Analysis) :
    (after (needsLoop i word span) a).scopes = a.scopes := by
  simp only [needsLoop, after_get_bind]
  split <;> rfl

@[simp] theorem needsFunction_scopes (i : ScopeId) (word : String) (span : Span)
    (a : Analysis) : (after (needsFunction i word span) a).scopes = a.scopes := by
  simp only [needsFunction, after_get_bind]
  split <;> rfl

theorem assign_scopes (i : ScopeId) (place : Target) (value : Expr) (span : Span)
    (a : Analysis) :
    (after (target i place) a).scopes = Stmt.declare i ⟨.assign place value, span⟩ a.scopes := by
  obtain ⟨node, targetSpan⟩ := place
  cases node with
  | name name =>
    simp only [target, assignVariable, after_get_bind, Stmt.declare]
    rcases a.scopes.binds i name with _ | _ <;> rfl
  | element base index =>
    simp only [target, Stmt.declare]
    split <;> simp

theorem declareFunction_scopes (i : ScopeId) (d : FunctionDecl) (span : Span) (a : Analysis) :
    (after (declareFunction i d) a).scopes = Stmt.declare i ⟨.function d, span⟩ a.scopes := by
  simp only [declareFunction, after_get_bind, Stmt.declare]
  rcases hg : a.scopes.isGlobal i with _ | _
  · simp
  · rcases hb : a.scopes.bindsIn i d.name.text with _ | _
    · simp [hb]
    · simp [hb]

/-- What happened in a new scope is undone when the scope is left. -/
theorem within_scopes {enter : ScopeTree Function → ScopeTree Function}
    {body : ScopeId → Analyze Unit} {p : Nat} {l f : Bool}
    (henter : enter a.scopes = a.scopes.addChild p l f)
    (hbody : ∀ b, (after (body a.scopes.size) b).scopes.keep a.scopes.size =
      b.scopes.keep a.scopes.size) :
    (after (within enter body) a).scopes = a.scopes := by
  simp only [after_within, hbody, henter, ScopeTree.keep_addChild]

theorem keep_declareParams {k i : Nat} (params : List Name) (t : ScopeTree Function)
    (h : k ≤ i) : (params.foldl (fun t p => t.insert i p.text none) t).keep k = t.keep k := by
  induction params generalizing t with
  | nil => rfl
  | cons p params ih => rw [List.foldl_cons, ih, ScopeTree.keep_insert_of_le t _ _ h]

mutual

/-- A statement adds what it declares to its own scope, and nothing
else. -/
theorem stmt_scopes : (i : Nat) → (s : Stmt) → (a : Analysis) →
    (after (stmt target i s) a).scopes = s.declare i a.scopes
  | i, ⟨.expr value, _⟩, a => by rw [stmt, expr_scopes]; rfl
  | i, ⟨.assign place value, span⟩, a => by
    rw [stmt, after_bind, assign_scopes i place value span, expr_scopes]
  | i, ⟨.cond test yes none, _⟩, a => by
    rw [stmt, after_bind, within_scopes rfl (fun b => keep_block _ yes b (Nat.le_refl _)),
      expr_scopes]
    rfl
  | i, ⟨.cond test yes (some no), _⟩, a => by
    rw [stmt, after_bind, after_bind,
      within_scopes rfl (fun b => keep_block _ no b (Nat.le_refl _)),
      within_scopes rfl (fun b => keep_block _ yes b (Nat.le_refl _)), expr_scopes]
    rfl
  | i, ⟨.loop test body, _⟩, a => by
    rw [stmt, after_bind, within_scopes rfl (fun b => keep_block _ body b (Nat.le_refl _)),
      expr_scopes]
    rfl
  | i, ⟨.each item items body, _⟩, a => by
    rw [stmt, after_bind, within_scopes rfl, expr_scopes]
    · rfl
    · intro b
      rw [after_bind, within_scopes rfl (fun c => keep_block _ body c (Nat.le_refl _)),
        after_declare, ScopeTree.keep_insert_of_le _ _ _ (Nat.le_refl _)]
  | i, ⟨.times count body, _⟩, a => by
    rw [stmt, after_bind, within_scopes rfl (fun b => keep_block _ body b (Nat.le_refl _)),
      expr_scopes]
    rfl
  | i, ⟨.function ⟨name, params, body, declSpan⟩, span⟩, a => by
    rw [stmt, after_bind, within_scopes rfl, declareFunction_scopes i _ span]
    intro b
    rw [after_bind, keep_block _ body _ (Nat.le_refl _), after_declareParams,
      keep_declareParams _ _ (Nat.le_refl _)]
  | i, ⟨.return none, _⟩, a => by rw [stmt, needsFunction_scopes]; rfl
  | i, ⟨.return (some value), _⟩, a => by
    rw [stmt, after_bind, expr_scopes, needsFunction_scopes]
    rfl
  | i, ⟨.stop, _⟩, a => by rw [stmt, needsLoop_scopes]; rfl
  | i, ⟨.next, _⟩, a => by rw [stmt, needsLoop_scopes]; rfl

theorem keep_block {k : Nat} : (i : Nat) → (b : Block) → (a : Analysis) → k ≤ i →
    (after (block target i b) a).scopes.keep k = a.scopes.keep k
  | i, ⟨statements, _⟩, a, h => by
    rw [block, stmts_scopes i statements a, keep_declareAll statements a.scopes h]

theorem stmts_scopes : (i : Nat) → (ss : List Stmt) → (a : Analysis) →
    (after (stmts target i ss) a).scopes = declareAll i ss a.scopes
  | _, [], _ => rfl
  | i, s :: ss, a => by
    rw [stmts, after_bind, stmts_scopes i ss, stmt_scopes i s]
    rfl

end

end Analysis

/-- What an analysis of a program adds to the known scopes, whether or not
it has errors. -/
theorem Program.analyze_scopes (p : Program) (t : ScopeTree Function) :
    (p.analyze t).1 = declareAll ScopeTree.globalId p.statements t :=
  Analysis.stmts_scopes ScopeTree.globalId p.statements ⟨t, .empty⟩

theorem Program.wellFormed_analyze {t : ScopeTree Function} (p : Program) (h : t.WellFormed) :
    (p.analyze t).1.WellFormed := by
  rw [p.analyze_scopes, declareAll]
  exact List.foldlRecOn p.statements _ h fun _ ht s _ => s.wellFormed_declare _ ht

/-- What becomes of a program that could be read. -/
theorem compile_of_parse {source : String} {p : Program} (hp : parseSource source = .ok p)
    (t : ScopeTree Function) :
    compile source t = ((p.analyze t).1,
      match (p.analyze t).2 with
      | [] => .ok p
      | errors => .error (.semantic errors)) := by
  simp only [compile, hp]
  rcases p.analyze t with ⟨u, _ | ⟨d, ds⟩⟩ <;> rfl

theorem compile_of_parse_error {source : String} {e : CompileError}
    (hp : parseSource source = .error e) (t : ScopeTree Function) :
    compile source t = (t, .error e) := by simp only [compile, hp]

end Quill
