-- Which programs an analysis accepts, said without scopes and reports: by
-- what each name stands for at each place. The main result is that an
-- analysis keeps no report exactly if the program fits its site.
import Mathlib
import Quill.Proofs.AnalysisEffect

namespace Quill

/-! ## Sites -/

/-- What is known at a place of a program: what each name stands for
there, which is nothing, a variable or a function, and where the place
lies. -/
structure Site where
  names : String → Option (Option Function)
  isGlobal : Bool
  inLoop : Bool
  inFunction : Bool

namespace Site

/-- The site with a name that stands for a variable or a function. -/
def bind (Γ : Site) (n : String) (what : Option Function) : Site :=
  { Γ with names := Function.update Γ.names n (some what) }

theorem names_bind_of_ne (Γ : Site) {m n : String} (what : Option Function) (h : m ≠ n) :
    (Γ.bind n what).names m = Γ.names m := Function.update_of_ne h _ _

/-- What is known after a binding is the binding, or was known before. -/
theorem names_bind_cases {Γ : Site} {m n : String} {what what' : Option Function}
    (h : (Γ.bind n what).names m = some what') :
    (m = n ∧ what = what') ∨ (m ≠ n ∧ Γ.names m = some what') := by
  by_cases hmn : m = n
  · subst hmn
    exact Or.inl ⟨rfl, by simpa [bind] using h⟩
  · rw [names_bind_of_ne Γ what hmn] at h
    exact Or.inr ⟨hmn, h⟩

/-- The site with parameters as variables. -/
def bindAll (Γ : Site) (params : List Name) : Site :=
  params.foldl (fun Γ p => Γ.bind p.text none) Γ

/-- The site inside a block. -/
def block (Γ : Site) : Site := { Γ with isGlobal := false }

/-- The site inside a loop. -/
def loop (Γ : Site) : Site := { Γ with isGlobal := false, inLoop := true }

/-- The site inside a function. -/
def frame (Γ : Site) : Site := { Γ with isGlobal := false, inLoop := false, inFunction := true }

/-- The site after a statement. -/
def after (Γ : Site) (s : Stmt) : Site :=
  match s.node with
  | .assign ⟨.name name, _⟩ _ => if (Γ.names name).isSome then Γ else Γ.bind name none
  | .function d => Γ.bind d.name.text (some (.ofDecl d))
  | _ => Γ

end Site

/-! ## Programs that fit -/

mutual

/-- Every name in the expression stands for what it is used as, and every
call has the right number of arguments. -/
def Expr.Fit (Γ : Site) : Expr → Prop
  | ⟨.int _, _⟩ | ⟨.float _, _⟩ | ⟨.bool _, _⟩ | ⟨.string _, _⟩ => True
  | ⟨.array elements, _⟩ => Expr.AllFit Γ elements
  | ⟨.var name, _⟩ => Γ.names name = some none
  | ⟨.binary left _ right, _⟩ => left.Fit Γ ∧ right.Fit Γ
  | ⟨.unary _ operand, _⟩ => operand.Fit Γ
  | ⟨.range first last, _⟩ => first.Fit Γ ∧ last.Fit Γ
  | ⟨.index base index, _⟩ => base.Fit Γ ∧ index.Fit Γ
  | ⟨.call callee args, _⟩ =>
    (∃ f, Γ.names callee.text = some (some f) ∧ f.arity = args.length) ∧ Expr.AllFit Γ args
  | ⟨.cast _ operand, _⟩ => operand.Fit Γ

/-- Every expression fits. -/
def Expr.AllFit (Γ : Site) : List Expr → Prop
  | [] => True
  | e :: es => e.Fit Γ ∧ Expr.AllFit Γ es

end

theorem Expr.allFit_iff {Γ : Site} {es : List Expr} : AllFit Γ es ↔ ∀ e ∈ es, e.Fit Γ := by
  induction es with
  | nil => simp [AllFit]
  | cons e es ih => simp [AllFit, ih]

/-- The root of a chain of subscripts is a variable in every expression
that fits. -/
theorem Expr.Fit.root {Γ : Site} : {e : Expr} → {n : Name} → e.Fit Γ →
    e.root? = some n → Γ.names n.text = some none
  | ⟨.var name, _⟩, n, h, hr => by
    cases hr
    rwa [Expr.Fit] at h
  | ⟨.index base _, _⟩, n, h, hr => by
    rw [Expr.Fit] at h
    exact Expr.Fit.root h.1 hr

/-- What an assignment writes to is an element of an array, or a name that
passes the test `T`. -/
def Target.Fit (T : String → Prop) (Γ : Site) (t : Target) : Prop :=
  match t.node with
  | .name name => T name
  | .element base index => base.Fit Γ ∧ index.Fit Γ

mutual

/-- The statement fits its site, and assigns only to names that pass the
test `T`. -/
def Stmt.Fit (T : String → Prop) : Site → Stmt → Prop
  | Γ, ⟨.expr value, _⟩ => value.Fit Γ
  | Γ, ⟨.assign target value, _⟩ => value.Fit Γ ∧ target.Fit T Γ
  | Γ, ⟨.cond test yes none, _⟩ => test.Fit Γ ∧ yes.Fit T Γ.block
  | Γ, ⟨.cond test yes (some no), _⟩ => test.Fit Γ ∧ yes.Fit T Γ.block ∧ no.Fit T Γ.block
  | Γ, ⟨.loop test body, _⟩ => test.Fit Γ ∧ body.Fit T Γ.loop
  | Γ, ⟨.each item items body, _⟩ => items.Fit Γ ∧ body.Fit T (Γ.loop.bind item.text none).block
  | Γ, ⟨.times count body, _⟩ => count.Fit Γ ∧ body.Fit T Γ.loop
  | Γ, ⟨.function ⟨name, params, body, span⟩, _⟩ =>
    (Γ.isGlobal = true ∧ Γ.names name.text = none) ∧
      body.Fit T
        ((Γ.bind name.text (some (.ofDecl ⟨name, params, body, span⟩))).frame.bindAll params)
  | Γ, ⟨.return none, _⟩ => Γ.inFunction = true
  | Γ, ⟨.return (some value), _⟩ => Γ.inFunction = true ∧ value.Fit Γ
  | Γ, ⟨.stop, _⟩ | Γ, ⟨.next, _⟩ => Γ.inLoop = true

/-- The statements of the block fit. -/
def Block.Fit (T : String → Prop) : Site → Block → Prop
  | Γ, ⟨statements, _⟩ => Stmt.AllFit T Γ statements

/-- Every statement fits the site after those before it. -/
def Stmt.AllFit (T : String → Prop) : Site → List Stmt → Prop
  | _, [] => True
  | Γ, s :: ss => s.Fit T Γ ∧ Stmt.AllFit T (Γ.after s) ss

end

/-! ## Names that are assigned to -/

/-- The bare name before an arrow, if it is one. -/
def Target.assigned (t : Target) : List String :=
  match t.node with
  | .name name => [name]
  | .element _ _ => []

mutual

/-- The bare names that a statement assigns to, also inside blocks and
functions. -/
def Stmt.assigned : Stmt → List String
  | ⟨.assign target _, _⟩ => target.assigned
  | ⟨.cond _ yes none, _⟩ => yes.assigned
  | ⟨.cond _ yes (some no), _⟩ => yes.assigned ++ no.assigned
  | ⟨.loop _ body, _⟩ => body.assigned
  | ⟨.each _ _ body, _⟩ => body.assigned
  | ⟨.times _ body, _⟩ => body.assigned
  | ⟨.function ⟨_, _, body, _⟩, _⟩ => body.assigned
  | ⟨.expr _, _⟩ | ⟨.return _, _⟩ | ⟨.stop, _⟩ | ⟨.next, _⟩ => []

/-- Those of a block. -/
def Block.assigned : Block → List String
  | ⟨statements, _⟩ => Stmt.allAssigned statements

/-- Those of a list of statements. -/
def Stmt.allAssigned : List Stmt → List String
  | [] => []
  | s :: ss => s.assigned ++ Stmt.allAssigned ss

end

/-- The bare names that a program assigns to. -/
def Program.assigned (p : Program) : List String := Stmt.allAssigned p.statements

/-- The program fits a site. -/
def Program.Fit (T : String → Prop) (Γ : Site) (p : Program) : Prop := Stmt.AllFit T Γ p.statements

mutual

/-- The test on assigned names can be made on its own. -/
theorem Stmt.fit_iff_assigned (T : String → Prop) : (s : Stmt) → (Γ : Site) →
    (s.Fit T Γ ↔ s.Fit (fun _ => True) Γ ∧ ∀ n ∈ s.assigned, T n)
  | ⟨.assign ⟨node, _⟩ value, _⟩, Γ => by
    cases node <;> simp [Stmt.Fit, Stmt.assigned, Target.Fit, Target.assigned]
  | ⟨.cond test yes none, _⟩, Γ => by
    simp only [Stmt.Fit, Stmt.assigned, Block.fit_iff_assigned T yes, and_assoc]
  | ⟨.cond test yes (some no), _⟩, Γ => by
    simp only [Stmt.Fit, Stmt.assigned, Block.fit_iff_assigned T yes, Block.fit_iff_assigned T no,
      List.forall_mem_append]
    constructor
    · rintro ⟨ht, ⟨hy, hyT⟩, hn, hnT⟩
      exact ⟨⟨ht, hy, hn⟩, hyT, hnT⟩
    · rintro ⟨⟨ht, hy, hn⟩, hyT, hnT⟩
      exact ⟨ht, ⟨hy, hyT⟩, hn, hnT⟩
  | ⟨.loop test body, _⟩, Γ => by
    simp only [Stmt.Fit, Stmt.assigned, Block.fit_iff_assigned T body, and_assoc]
  | ⟨.each item items body, _⟩, Γ => by
    simp only [Stmt.Fit, Stmt.assigned, Block.fit_iff_assigned T body, and_assoc]
  | ⟨.times count body, _⟩, Γ => by
    simp only [Stmt.Fit, Stmt.assigned, Block.fit_iff_assigned T body, and_assoc]
  | ⟨.function ⟨name, params, body, span⟩, _⟩, Γ => by
    simp only [Stmt.Fit, Stmt.assigned, Block.fit_iff_assigned T body, and_assoc]
  | ⟨.expr value, _⟩, Γ => by simp [Stmt.Fit, Stmt.assigned]
  | ⟨.return none, _⟩, Γ => by simp [Stmt.Fit, Stmt.assigned]
  | ⟨.return (some value), _⟩, Γ => by simp [Stmt.Fit, Stmt.assigned]
  | ⟨.stop, _⟩, Γ => by simp [Stmt.Fit, Stmt.assigned]
  | ⟨.next, _⟩, Γ => by simp [Stmt.Fit, Stmt.assigned]

theorem Block.fit_iff_assigned (T : String → Prop) : (b : Block) → (Γ : Site) →
    (b.Fit T Γ ↔ b.Fit (fun _ => True) Γ ∧ ∀ n ∈ b.assigned, T n)
  | ⟨statements, _⟩, Γ => by
    simp only [Block.Fit, Block.assigned]
    exact Stmt.allFit_iff_assigned T statements Γ

theorem Stmt.allFit_iff_assigned (T : String → Prop) : (ss : List Stmt) → (Γ : Site) →
    (Stmt.AllFit T Γ ss ↔ Stmt.AllFit (fun _ => True) Γ ss ∧ ∀ n ∈ Stmt.allAssigned ss, T n)
  | [], Γ => by simp [Stmt.AllFit, Stmt.allAssigned]
  | s :: ss, Γ => by
    simp only [Stmt.AllFit, Stmt.allAssigned, List.forall_mem_append,
      Stmt.fit_iff_assigned T s, Stmt.allFit_iff_assigned T ss (Γ.after s)]
    constructor
    · rintro ⟨⟨hs, hsT⟩, hss, hssT⟩
      exact ⟨⟨hs, hss⟩, hsT, hssT⟩
    · rintro ⟨⟨hs, hss⟩, hsT, hssT⟩
      exact ⟨⟨hs, hsT⟩, hss, hssT⟩

end

/-! ## The site of a scope -/

namespace ScopeTree

variable {t : ScopeTree Function} {i : Nat}

/-- What an analysis knows in a scope. -/
def site (t : ScopeTree Function) (i : ScopeId) : Site :=
  ⟨fun n => (t.find? i n).map (·.value), t.isGlobal i, t.inLoop i, t.inFunction i⟩

theorem site_insert_self (h : t.WellFormed) (hi : i < t.size) (n : String)
    (what : Option Function) : (t.insert i n what).site i = (t.site i).bind n what := by
  obtain ⟨s, hs⟩ := get?_of_lt hi
  have hget : (t.insert i n what).get? i = some (s.insert ⟨n, what⟩) := by
    rw [get?_insert_self, hs]
    rfl
  simp only [site, Site.bind, isGlobal, inLoop, inFunction, hget, hs, Site.mk.injEq]
  refine ⟨?_, rfl, rfl, rfl⟩
  funext m
  by_cases hm : m = n
  · subst hm
    simp [find?_insert_self h hi]
  · simp [find?_insert_of_ne h i what hm, Function.update_of_ne hm]

theorem site_addChild (h : t.WellFormed) (hi : i < t.size) (l f : Bool) :
    (t.addChild i l f).site t.size = ⟨(t.site i).names, false, l, f⟩ := by
  simp only [site, isGlobal, inLoop, inFunction, get?_addChild_self]
  simp only [find?_addChild_self h hi]
  rfl

theorem site_addBlock (h : t.WellFormed) (hi : i < t.size) :
    (t.addBlock i).site t.size = (t.site i).block := site_addChild h hi _ _

theorem site_addLoop (h : t.WellFormed) (hi : i < t.size) :
    (t.addLoop i).site t.size = (t.site i).loop := site_addChild h hi _ _

theorem site_bindParams (h : t.WellFormed) (hi : i < t.size) (params : List Name) :
    (params.foldl (fun t p => t.insert i p.text none) t).site i = (t.site i).bindAll params := by
  unfold Site.bindAll
  induction params generalizing t with
  | nil => rfl
  | cons p params ih =>
    rw [List.foldl_cons, List.foldl_cons, ← site_insert_self h hi p.text none]
    exact ih (h.insert i p.text none) (by rw [size_insert]; exact hi)

theorem wellFormed_bindParams (h : t.WellFormed) (params : List Name) :
    (params.foldl (fun t p => t.insert i p.text none) t).WellFormed ∧
      (params.foldl (fun t p => t.insert i p.text none) t).size = t.size := by
  induction params generalizing t with
  | nil => exact ⟨h, rfl⟩
  | cons p params ih =>
    rw [List.foldl_cons]
    have := ih (h.insert i p.text none)
    rwa [size_insert] at this

end ScopeTree

/-- A new global name of a function is declared. -/
theorem Stmt.site_declare_function {t : ScopeTree Function} {i : Nat} (h : t.WellFormed)
    (hi : i < t.size) {d : FunctionDecl} (span : Span)
    (hnew : (t.site i).isGlobal = true ∧ (t.site i).names d.name.text = none) :
    (Stmt.declare i ⟨.function d, span⟩ t).site i =
      (t.site i).bind d.name.text (some (.ofDecl d)) := by
  have hfree : t.bindsIn i d.name.text = false := by
    rw [ScopeTree.bindsIn_of_isGlobal h hnew.1]
    simpa [ScopeTree.site] using hnew.2
  simp only [Stmt.declare, hfree, Bool.and_false, Bool.false_eq_true, ↓reduceIte]
  exact ScopeTree.site_insert_self h hi d.name.text _

/-- After a statement that fits, a scope has the site after it. -/
theorem Stmt.site_declare {T : String → Prop} {t : ScopeTree Function} {i : Nat} {s : Stmt}
    (h : t.WellFormed) (hi : i < t.size) (hfit : s.Fit T (t.site i)) :
    (s.declare i t).site i = (t.site i).after s := by
  obtain ⟨node, span⟩ := s
  cases node with
  | assign target value =>
    obtain ⟨node, targetSpan⟩ := target
    cases node with
    | element base index => rfl
    | name name =>
      simp only [Stmt.declare, Site.after, ScopeTree.binds_eq_isSome_find?]
      have hnames : ((t.site i).names name).isSome = (t.find? i name).isSome := by
        simp [ScopeTree.site]
      rw [hnames]
      split
      · rfl
      · exact ScopeTree.site_insert_self h hi name none
  | function d =>
    obtain ⟨name, params, body, declSpan⟩ := d
    rw [Stmt.Fit] at hfit
    exact Stmt.site_declare_function h hi span hfit.1
  | _ => rfl

/-! ## Clean analyses -/

namespace Analysis

variable {a : Analysis}

/-- Nothing has been reported. -/
def Clean (a : Analysis) : Prop := a.reporter.kept = []

/-- A report of an analysis is kept, or was kept before. -/
@[simp] theorem not_clean_report (scopes : ScopeTree Function) (r : Reporter) (d : Diagnostic) :
    ¬ Clean ⟨scopes, r.report d true⟩ := by
  simp only [Clean, Reporter.report, Bool.not_true, Bool.and_false, Bool.false_eq_true, ↓reduceIte]
  split
  · rename_i hmem
    exact List.ne_nil_of_mem hmem
  · simp

theorem useVariable_clean (i : ScopeId) (n : String) (span : Span) (a : Analysis) :
    Clean (after (useVariable i n span) a) ↔ Clean a ∧ (a.scopes.site i).names n = some none := by
  simp only [useVariable, after_get_bind, ScopeTree.site]
  rcases a.scopes.find? i n with _ | ⟨name, _ | f⟩
  · simp
  · simp
  · simp

theorem useFunction_clean (i : ScopeId) (callee : Name) (k : Nat) (a : Analysis) :
    Clean (after (useFunction i callee k) a) ↔
      Clean a ∧ ∃ f, (a.scopes.site i).names callee.text = some (some f) ∧ f.arity = k := by
  simp only [useFunction, after_get_bind, ScopeTree.site]
  rcases a.scopes.find? i callee.text with _ | ⟨name, _ | f⟩
  · simp
  · simp
  · by_cases hk : f.arity = k
    · simp [hk]
    · simp [hk]

mutual

/-- The analysis of an expression reports nothing exactly if the
expression fits. -/
theorem expr_clean (i : ScopeId) : (e : Expr) → (a : Analysis) →
    (Clean (after (expr i e) a) ↔ Clean a ∧ e.Fit (a.scopes.site i))
  | ⟨.int _, _⟩, a => by simp [expr, Expr.Fit]
  | ⟨.float _, _⟩, a => by simp [expr, Expr.Fit]
  | ⟨.bool _, _⟩, a => by simp [expr, Expr.Fit]
  | ⟨.string _, _⟩, a => by simp [expr, Expr.Fit]
  | ⟨.array elements, _⟩, a => by rw [expr, Expr.Fit, exprs_clean i elements]
  | ⟨.var name, span⟩, a => by rw [expr, Expr.Fit, useVariable_clean]
  | ⟨.binary left _ right, _⟩, a => by
    rw [expr, Expr.Fit, after_bind, expr_clean i right, expr_clean i left, expr_scopes, and_assoc]
  | ⟨.unary _ operand, _⟩, a => by rw [expr, Expr.Fit, expr_clean i operand]
  | ⟨.range first last, _⟩, a => by
    rw [expr, Expr.Fit, after_bind, expr_clean i last, expr_clean i first, expr_scopes, and_assoc]
  | ⟨.index base index, _⟩, a => by
    rw [expr, Expr.Fit, after_bind, expr_clean i index, expr_clean i base, expr_scopes, and_assoc]
  | ⟨.call callee args, _⟩, a => by
    rw [expr, Expr.Fit, after_bind, exprs_clean i args, useFunction_clean, useFunction_scopes,
      and_assoc]
  | ⟨.cast _ operand, _⟩, a => by rw [expr, Expr.Fit, expr_clean i operand]

theorem exprs_clean (i : ScopeId) : (es : List Expr) → (a : Analysis) →
    (Clean (after (exprs i es) a) ↔ Clean a ∧ Expr.AllFit (a.scopes.site i) es)
  | [], a => by simp [exprs, Expr.AllFit]
  | e :: es, a => by
    rw [exprs, Expr.AllFit, after_bind, exprs_clean i es, expr_clean i e, expr_scopes, and_assoc]

end

/-! ## Statements -/

theorem target_clean (i : ScopeId) (t : Target) (a : Analysis) :
    Clean (after (target i t) a) ↔ Clean a ∧ t.Fit (fun _ => True) (a.scopes.site i) := by
  obtain ⟨node, span⟩ := t
  cases node with
  | name name =>
    simp only [target, assignVariable, after_get_bind, Target.Fit, and_true]
    split <;> exact Iff.rfl
  | element base index =>
    simp only [target, Target.Fit, Target.root?]
    rcases hr : base.root? with _ | root
    · simp [expr_clean, and_assoc]
    · -- the root is looked at twice, and the second look is enough
      simp only [after_bind, expr_clean, useVariable_clean, expr_scopes, useVariable_scopes]
      constructor
      · rintro ⟨⟨⟨ha, _⟩, hb⟩, hi⟩
        exact ⟨ha, hb, hi⟩
      · rintro ⟨ha, hb, hi⟩
        exact ⟨⟨⟨ha, hb.root hr⟩, hb⟩, hi⟩

theorem declareFunction_clean {i : Nat} (h : a.scopes.WellFormed) (d : FunctionDecl) :
    Clean (after (declareFunction i d) a) ↔ Clean a ∧
      (a.scopes.site i).isGlobal = true ∧ (a.scopes.site i).names d.name.text = none := by
  simp only [declareFunction, after_get_bind, ScopeTree.site]
  rcases hg : a.scopes.isGlobal i with _ | _
  · -- the report has been made when the name is declared
    simp
  · have hbinds := ScopeTree.bindsIn_of_isGlobal h hg d.name.text
    rcases hf : a.scopes.find? i d.name.text with _ | b
    · rw [hf] at hbinds
      simp [hbinds, Clean]
    · rw [hf] at hbinds
      simp [hbinds]

theorem needsLoop_clean (i : ScopeId) (word : String) (span : Span) (a : Analysis) :
    Clean (after (needsLoop i word span) a) ↔ Clean a ∧ (a.scopes.site i).inLoop = true := by
  simp only [needsLoop, after_get_bind, ScopeTree.site]
  rcases a.scopes.inLoop i with _ | _
  · simp
  · simp

theorem needsFunction_clean (i : ScopeId) (word : String) (span : Span) (a : Analysis) :
    Clean (after (needsFunction i word span) a) ↔
      Clean a ∧ (a.scopes.site i).inFunction = true := by
  simp only [needsFunction, after_get_bind, ScopeTree.site]
  rcases a.scopes.inFunction i with _ | _
  · simp
  · simp

/-- In scope `i` a block is clean exactly if it fits. -/
def BlockClean (i : Nat) (b : Block) : Prop :=
  ∀ a : Analysis, a.scopes.WellFormed → i < a.scopes.size →
    (Clean (after (block target i b) a) ↔ Clean a ∧ b.Fit (fun _ => True) (a.scopes.site i))

section Blocks

variable {t : ScopeTree Function} {i : Nat} {b : Block} (h : t.WellFormed) (hi : i < t.size)
  (hb : BlockClean t.size b) (ha : a.scopes = t)
include h hi hb ha

theorem addBlock_clean : Clean (after (within (·.addBlock i) fun inner => block target inner b) a) ↔
    Clean a ∧ b.Fit (fun _ => True) (t.site i).block := by
  subst ha
  rw [← ScopeTree.site_addBlock h hi]
  exact hb ⟨a.scopes.addBlock i, a.reporter⟩ (h.addChild hi _ _) (by simp [ScopeTree.addBlock])

theorem addLoop_clean : Clean (after (within (·.addLoop i) fun inner => block target inner b) a) ↔
    Clean a ∧ b.Fit (fun _ => True) (t.site i).loop := by
  subst ha
  rw [← ScopeTree.site_addLoop h hi]
  exact hb ⟨a.scopes.addLoop i, a.reporter⟩ (h.addChild hi _ _) (by simp [ScopeTree.addLoop])

end Blocks

mutual

/-- The analysis of a statement reports nothing exactly if the statement
fits. -/
theorem stmt_clean : (i : Nat) → (s : Stmt) → (a : Analysis) → a.scopes.WellFormed →
    i < a.scopes.size →
    (Clean (after (stmt target i s) a) ↔ Clean a ∧ s.Fit (fun _ => True) (a.scopes.site i))
  | i, ⟨.expr value, _⟩, a, h, hi => by rw [stmt, Stmt.Fit, expr_clean]
  | i, ⟨.assign place value, _⟩, a, h, hi => by
    rw [stmt, Stmt.Fit, after_bind, target_clean, expr_clean, expr_scopes, and_assoc]
  | i, ⟨.cond test yes none, _⟩, a, h, hi => by
    have hyes := addBlock_clean h hi (block_clean _ yes) (expr_scopes i test a)
    rw [stmt, Stmt.Fit, after_bind, hyes, expr_clean, and_assoc]
  | i, ⟨.cond test yes (some no), _⟩, a, h, hi => by
    have hs : (after (within (·.addBlock i) fun inner => block target inner yes)
        (after (expr i test) a)).scopes = a.scopes := by
      rw [within_scopes rfl (fun b => keep_block _ yes b (Nat.le_refl _)), expr_scopes]
    have hyes := addBlock_clean h hi (block_clean _ yes) (expr_scopes i test a)
    have hno := addBlock_clean h hi (block_clean _ no) hs
    rw [stmt, Stmt.Fit, after_bind, after_bind, hno, hyes, expr_clean, and_assoc, and_assoc]
  | i, ⟨.loop test body, _⟩, a, h, hi => by
    have hbody := addLoop_clean h hi (block_clean _ body) (expr_scopes i test a)
    rw [stmt, Stmt.Fit, after_bind, hbody, expr_clean, and_assoc]
  | i, ⟨.each item items body, _⟩, a, h, hi => by
    let t := (a.scopes.addLoop i).insert a.scopes.size item.text none
    have hloop : (a.scopes.addLoop i).WellFormed := h.addChild hi _ _
    have hsize : a.scopes.size < (a.scopes.addLoop i).size := by simp [ScopeTree.addLoop]
    have hsite : t.site a.scopes.size = (a.scopes.site i).loop.bind item.text none := by
      rw [ScopeTree.site_insert_self hloop hsize, ScopeTree.site_addLoop h hi]
    have hbody := addBlock_clean (a := ⟨t, (after (expr i items) a).reporter⟩)
      (hloop.insert _ _ _) (by simpa [t] using hsize) (block_clean _ body) rfl
    rw [hsite] at hbody
    rw [stmt, Stmt.Fit, ← and_assoc, ← expr_clean, after_bind, after_within, expr_scopes]
    exact hbody
  | i, ⟨.times count body, _⟩, a, h, hi => by
    have hbody := addLoop_clean h hi (block_clean _ body) (expr_scopes i count a)
    rw [stmt, Stmt.Fit, after_bind, hbody, expr_clean, and_assoc]
  | i, ⟨.function ⟨name, params, body, declSpan⟩, span⟩, a, h, hi => by
    let d : FunctionDecl := ⟨name, params, body, declSpan⟩
    let b := after (declareFunction i d) a
    have hs : b.scopes = Stmt.declare i ⟨.function d, span⟩ a.scopes :=
      declareFunction_scopes i d span a
    have hwell : b.scopes.WellFormed := hs ▸ Stmt.wellFormed_declare i _ h
    have hsize : i < b.scopes.size := by rw [hs, Stmt.size_declare]; exact hi
    have hframe := hwell.addChild hsize false true
    have hparams := ScopeTree.wellFormed_bindParams (i := b.scopes.size) hframe params
    have hbody := block_clean b.scopes.size body
      ⟨params.foldl (fun t p => t.insert b.scopes.size p.text none)
        (b.scopes.addChild i false true), b.reporter⟩ hparams.1 (by rw [hparams.2]; simp)
    rw [ScopeTree.site_bindParams hframe (by simp), ScopeTree.site_addChild hwell hsize] at hbody
    rw [stmt, Stmt.Fit, after_bind, ← and_assoc, ← declareFunction_clean h d]
    refine Iff.trans hbody (and_congr_right fun hclean => ?_)
    rw [← Stmt.site_declare_function h hi span ((declareFunction_clean h d).mp hclean).2, ← hs]
    rfl
  | i, ⟨.return none, _⟩, a, h, hi => by rw [stmt, Stmt.Fit, needsFunction_clean]
  | i, ⟨.return (some value), _⟩, a, h, hi => by
    rw [stmt, Stmt.Fit, after_bind, expr_clean, needsFunction_clean, needsFunction_scopes,
      and_assoc]
  | i, ⟨.stop, _⟩, a, h, hi => by rw [stmt, Stmt.Fit, needsLoop_clean]
  | i, ⟨.next, _⟩, a, h, hi => by rw [stmt, Stmt.Fit, needsLoop_clean]

theorem block_clean : (i : Nat) → (b : Block) → BlockClean i b
  | i, ⟨statements, _⟩, a, h, hi => by
    rw [block, Block.Fit, stmts_clean i statements a h hi]

theorem stmts_clean : (i : Nat) → (ss : List Stmt) → (a : Analysis) → a.scopes.WellFormed →
    i < a.scopes.size →
    (Clean (after (stmts target i ss) a) ↔
      Clean a ∧ Stmt.AllFit (fun _ => True) (a.scopes.site i) ss)
  | i, [], a, h, hi => by simp [stmts, Stmt.AllFit]
  | i, s :: ss, a, h, hi => by
    have hs := stmt_scopes i s a
    have hwell : (after (stmt target i s) a).scopes.WellFormed := by
      rw [hs]
      exact s.wellFormed_declare i h
    have hsize : i < (after (stmt target i s) a).scopes.size := by
      rw [hs, s.size_declare]
      exact hi
    rw [stmts, Stmt.AllFit, after_bind, stmts_clean i ss _ hwell hsize, stmt_clean i s a h hi, hs,
      and_assoc]
    refine and_congr_right fun _ => and_congr_right fun hfit => ?_
    rw [s.site_declare h hi hfit]

end

end Analysis

/-! ## Accepted programs -/

/-- An analysis has no errors exactly if the program fits. -/
theorem Program.analyze_eq_nil_iff {t : ScopeTree Function} (h : t.WellFormed) (p : Program) :
    (p.analyze t).2 = [] ↔ p.Fit (fun _ => True) (t.site ScopeTree.globalId) := by
  have hclean := Analysis.stmts_clean ScopeTree.globalId p.statements ⟨t, .empty⟩ h h.global_lt
  have hempty : Analysis.Clean ⟨t, .empty⟩ := rfl
  simp only [hempty, true_and] at hclean
  exact hclean

theorem compile_ok_iff {source : String} {t : ScopeTree Function} {p : Program} :
    (compile source t).2 = .ok p ↔ parseSource source = .ok p ∧ (p.analyze t).2 = [] := by
  rcases hq : parseSource source with e | q
  · simp [compile_of_parse_error hq]
  · rw [compile_of_parse hq]
    rcases ha : (q.analyze t).2 with _ | ⟨d, ds⟩
    · simp only [Except.ok.injEq]
      constructor
      · rintro rfl
        exact ⟨rfl, ha⟩
      · exact fun h => h.1
    · simp only [reduceCtorEq, Except.ok.injEq, false_iff]
      rintro ⟨rfl, hnil⟩
      rw [ha] at hnil
      cases hnil

/-- A source that is accepted in known scopes gives a program that fits
their global site. -/
theorem Program.fit_of_compile {source : String} {t : ScopeTree Function} {p : Program}
    (h : t.WellFormed) (hp : (compile source t).2 = .ok p) :
    p.Fit (fun _ => True) (t.site ScopeTree.globalId) :=
  (p.analyze_eq_nil_iff h).mp (compile_ok_iff.mp hp).2

end Quill
