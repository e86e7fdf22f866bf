-- What an analysis reports, as a list: the errors of each statement in the
-- scopes in which it is analyzed, one statement after the other. What a step
-- reports depends on the scopes alone, and not on what was reported before. In
-- a program that was read no two errors are about the same place, so all that
-- is reported is kept.
import Mathlib
import Quill.Proofs.ErrorPlaces

namespace Quill

/-! ## Reports in a row -/

namespace Reporter

/-- Takes forced reports one after the other. -/
def reportAll (r : Reporter) (ds : List Diagnostic) : Reporter := ds.foldl (·.report · true) r

theorem reportAll_append (r : Reporter) (ds es : List Diagnostic) :
    r.reportAll (ds ++ es) = (r.reportAll ds).reportAll es := List.foldl_append

/-- Reports that differ from all others are kept. -/
theorem kept_reportAll {r : Reporter} {ds : List Diagnostic} (h : (r.kept ++ ds).Nodup) :
    (r.reportAll ds).kept = r.kept ++ ds := by
  induction ds generalizing r with
  | nil => exact (List.append_nil _).symm
  | cons d ds ih =>
    have hnew : d ∉ r.kept := fun hmem =>
      (List.nodup_append.mp h).2.2 d hmem d List.mem_cons_self rfl
    have hkept : (r.report d true).kept = r.kept ++ [d] := by
      rw [kept_report, if_pos ⟨.inl rfl, hnew⟩]
    have hrest := ih (r := r.report d true) (by rw [hkept]; simpa using h)
    rw [hkept, List.append_assoc, List.singleton_append] at hrest
    exact hrest

/-- A report that comes again at once changes nothing. -/
theorem report_report (r : Reporter) (d : Diagnostic) :
    (r.report d true).report d true = r.report d true := by
  by_cases hknown : d ∈ r.kept
  · simp [report, hknown]
  · simp [report, hknown]

theorem reportAll_twice (r : Reporter) (d : Option Diagnostic) (ds : List Diagnostic) :
    r.reportAll (d.toList ++ (d.toList ++ ds)) = r.reportAll (d.toList ++ ds) := by
  cases d with
  | none => rfl
  | some d =>
    simp only [Option.toList_some, List.singleton_append, reportAll, List.foldl_cons,
      report_report]

end Reporter

namespace Analysis

variable {m : Analyze Unit} {t u : ScopeTree Function} {ds es : List Diagnostic}
  {spans : List Span}

/-- What a step keeps when nothing has been reported before it. -/
def reported (m : Analyze Unit) (t : ScopeTree Function) : List Diagnostic :=
  (after m ⟨t, .empty⟩).reporter.kept

/-- A step in scopes `t` makes these reports, whatever was reported before. -/
def Reports (m : Analyze Unit) (t : ScopeTree Function) (ds : List Diagnostic) : Prop :=
  ∀ r, (after m ⟨t, r⟩).reporter = r.reportAll ds

theorem Reports.nothing (t : ScopeTree Function) : Reports (pure ()) t [] := fun _ => rfl

theorem Reports.after_eq (h : Reports m t ds) {r : Reporter}
    (hscopes : (after m ⟨t, r⟩).scopes = u) : after m ⟨t, r⟩ = ⟨u, r.reportAll ds⟩ := by
  rw [← hscopes, ← h r]

theorem Reports.bind {f : Unit → Analyze Unit} (h : Reports m t ds)
    (hscopes : ∀ r, (after m ⟨t, r⟩).scopes = u) (h' : Reports (f ()) u es) :
    Reports (m >>= f) t (ds ++ es) := by
  intro r
  rw [after_bind, h.after_eq (hscopes r), h', Reporter.reportAll_append]

/-- A step before it that only declares does not matter. -/
theorem Reports.quietly {f : Unit → Analyze Unit} (h : ∀ r, after m ⟨t, r⟩ = ⟨u, r⟩)
    (h' : Reports (f ()) u es) : Reports (m >>= f) t es := by
  intro r
  rw [after_bind, h, h']

/-- An expression declares nothing, so what follows it is in the same
scopes. -/
theorem Reports.expr_bind {i : ScopeId} {e : Expr} {f : Unit → Analyze Unit}
    (h : Reports (expr i e) t ds) (h' : Reports (f ()) t es) :
    Reports (expr i e >>= f) t (ds ++ es) := h.bind (fun r => expr_scopes i e ⟨t, r⟩) h'

theorem Reports.within {enter : ScopeTree Function → ScopeTree Function}
    {body : ScopeId → Analyze Unit} (h : Reports (body t.size) (enter t) ds) :
    Reports (within enter body) t ds := h

theorem Reports.reported_eq (h : Reports m t ds) (hnodup : ds.Nodup) : reported m t = ds := by
  rw [reported, h]
  exact Reporter.kept_reportAll hnodup

/-- The step makes one report at most, which is about one of these places. -/
def ReportsOne (m : Analyze Unit) (t : ScopeTree Function) (spans : List Span) : Prop :=
  ∃ d : Option Diagnostic, Reports m t d.toList ∧ ∀ e ∈ d, e.span ∈ spans

theorem ReportsOne.nothing (h : ∀ r, (after m ⟨t, r⟩).reporter = r) : ReportsOne m t spans :=
  ⟨none, h, by simp⟩

theorem ReportsOne.report (d : Diagnostic) (hspan : d.span ∈ spans)
    (h : ∀ r, (after m ⟨t, r⟩).reporter = r.report d true) : ReportsOne m t spans :=
  ⟨some d, h, by simpa using hspan⟩

theorem ReportsOne.reports (h : ReportsOne m t spans) : Reports m t (reported m t) := by
  obtain ⟨d, hd, -⟩ := h
  have hnodup : d.toList.Nodup := by cases d <;> simp
  rw [hd.reported_eq hnodup]
  exact hd

theorem ReportsOne.subperm (h : ReportsOne m t spans) :
    ((reported m t).map (·.span)).Subperm spans := by
  obtain ⟨d, hd, hspan⟩ := h
  cases d with
  | none =>
    rw [hd.reported_eq List.nodup_nil]
    exact List.nil_subperm
  | some d =>
    rw [hd.reported_eq (List.nodup_singleton d)]
    exact List.singleton_subperm_iff.mpr (hspan d rfl)

end Analysis

/-! ## Errors of expressions -/

/-- The error of a name that is used as a variable and is not declared, or a
function. -/
def ScopeTree.variableError? (t : ScopeTree Function) (i : ScopeId) (n : Name) :
    Option Diagnostic :=
  match t.find? i n.text with
  | none => some ⟨s!"Undeclared identifier '{n.text}'", n.span⟩
  | some ⟨_, some _⟩ => some ⟨s!"Identifier '{n.text}' is a function", n.span⟩
  | some ⟨_, none⟩ => none

theorem ScopeTree.span_of_variableError {t : ScopeTree Function} {i : ScopeId} {n : Name}
    {d : Diagnostic} (h : t.variableError? i n = some d) : d.span = n.span := by
  unfold variableError? at h
  split at h <;> cases h <;> rfl

section Errors

variable (i : ScopeId) (t : ScopeTree Function)

mutual

/-- The errors of an expression in scope `i`, in the order in which they come
up. -/
def Expr.errors : Expr → List Diagnostic
  | ⟨.int _, _⟩ | ⟨.float _, _⟩ | ⟨.bool _, _⟩ | ⟨.string _, _⟩ => []
  | ⟨.array elements, _⟩ => Expr.allErrors elements
  | ⟨.var name, span⟩ => (t.variableError? i ⟨name, span⟩).toList
  | ⟨.binary left _ right, _⟩ => left.errors ++ right.errors
  | ⟨.unary _ operand, _⟩ => operand.errors
  | ⟨.range first last, _⟩ => first.errors ++ last.errors
  | ⟨.index base index, _⟩ => base.errors ++ index.errors
  | ⟨.call callee args, _⟩ =>
    Analysis.reported (Analysis.useFunction i callee args.length) t ++ Expr.allErrors args
  | ⟨.cast _ operand, _⟩ => operand.errors

def Expr.allErrors : List Expr → List Diagnostic
  | [] => []
  | e :: es => e.errors ++ Expr.allErrors es

end

/-- The errors of a target. A bare name has none. -/
def Target.errors (place : Target) : List Diagnostic :=
  match place.node with
  | .name _ => []
  | .element base index => base.errors i t ++ index.errors i t

end Errors

namespace Analysis

variable (i : ScopeId) (t : ScopeTree Function)

theorem useVariable_reports (n : Name) :
    Reports (useVariable i n.text n.span) t (t.variableError? i n).toList := by
  intro r
  simp only [useVariable, after_get_bind, ScopeTree.variableError?]
  rcases t.find? i n.text with _ | ⟨_, _ | _⟩ <;> rfl

theorem useFunction_one (callee : Name) (arguments : Nat) :
    ReportsOne (useFunction i callee arguments) t [callee.span] := by
  rcases hfind : t.find? i callee.text with _ | ⟨_, _ | f⟩
  · refine .report ⟨s!"Undeclared identifier '{callee.text}'", callee.span⟩ (by simp) fun r => ?_
    simp [useFunction, hfind]
  · refine .report ⟨s!"Identifier '{callee.text}' is not a function", callee.span⟩ (by simp)
      fun r => ?_
    simp [useFunction, hfind]
  · by_cases harity : f.arity = arguments
    · refine .nothing fun r => ?_
      simp [useFunction, hfind, harity]
    · refine .report ⟨s!"Incorrect number of arguments to function '{callee.text}'", callee.span⟩
        (by simp) fun r => ?_
      simp [useFunction, hfind, harity]

mutual

theorem expr_reports : (e : Expr) → Reports (expr i e) t (e.errors i t)
  | ⟨.int _, _⟩ => .nothing t
  | ⟨.float _, _⟩ => .nothing t
  | ⟨.bool _, _⟩ => .nothing t
  | ⟨.string _, _⟩ => .nothing t
  | ⟨.array elements, _⟩ => by
    rw [expr, Expr.errors]
    exact exprs_reports elements
  | ⟨.var name, span⟩ => by
    rw [expr, Expr.errors]
    exact useVariable_reports i t ⟨name, span⟩
  | ⟨.binary left _ right, _⟩ => by
    rw [expr, Expr.errors]
    exact (expr_reports left).expr_bind (expr_reports right)
  | ⟨.unary _ operand, _⟩ => by
    rw [expr, Expr.errors]
    exact expr_reports operand
  | ⟨.range first last, _⟩ => by
    rw [expr, Expr.errors]
    exact (expr_reports first).expr_bind (expr_reports last)
  | ⟨.index base index, _⟩ => by
    rw [expr, Expr.errors]
    exact (expr_reports base).expr_bind (expr_reports index)
  | ⟨.call callee args, _⟩ => by
    rw [expr, Expr.errors]
    exact (useFunction_one i t callee args.length).reports.bind
      (fun r => useFunction_scopes i callee args.length ⟨t, r⟩) (exprs_reports args)
  | ⟨.cast _ operand, _⟩ => by
    rw [expr, Expr.errors]
    exact expr_reports operand

theorem exprs_reports : (es : List Expr) → Reports (exprs i es) t (Expr.allErrors i t es)
  | [] => .nothing t
  | e :: es => by
    rw [exprs, Expr.allErrors]
    exact (expr_reports e).expr_bind (exprs_reports es)

end

end Analysis

mutual

/-- Each error of an expression is about a place of its own. -/
theorem Expr.errors_subperm (i : ScopeId) (t : ScopeTree Function) : (e : Expr) →
    ((e.errors i t).map (·.span)).Subperm e.anchors
  | ⟨.int _, _⟩ | ⟨.float _, _⟩ | ⟨.bool _, _⟩ | ⟨.string _, _⟩ => List.nil_subperm
  | ⟨.array elements, _⟩ => by
    rw [Expr.errors, Expr.anchors]
    exact Expr.allErrors_subperm i t elements
  | ⟨.var name, span⟩ => by
    rw [Expr.errors, Expr.anchors]
    rcases h : t.variableError? i ⟨name, span⟩ with _ | d
    · exact List.nil_subperm
    · simp [ScopeTree.span_of_variableError h]
  | ⟨.binary a _ b, _⟩ | ⟨.range a b, _⟩ | ⟨.index a b, _⟩ => by
    rw [Expr.errors, Expr.anchors, List.map_append]
    exact (Expr.errors_subperm i t a).append (Expr.errors_subperm i t b)
  | ⟨.unary _ operand, _⟩ | ⟨.cast _ operand, _⟩ => by
    rw [Expr.errors, Expr.anchors]
    exact Expr.errors_subperm i t operand
  | ⟨.call callee args, _⟩ => by
    rw [Expr.errors, Expr.anchors, List.map_append]
    exact (Analysis.useFunction_one i t callee args.length).subperm.append
      (Expr.allErrors_subperm i t args)

theorem Expr.allErrors_subperm (i : ScopeId) (t : ScopeTree Function) : (es : List Expr) →
    ((Expr.allErrors i t es).map (·.span)).Subperm (Expr.allAnchors es)
  | [] => List.nil_subperm
  | e :: es => by
    rw [Expr.allErrors, Expr.allAnchors, List.map_append]
    exact (Expr.errors_subperm i t e).append (Expr.allErrors_subperm i t es)

end

/-! ## Chains of subscripts -/

/-- The subscripts of a chain, from its root outwards. -/
def Expr.subscripts : Expr → List Expr
  | ⟨.index base index, _⟩ => base.subscripts ++ [index]
  | _ => []

theorem Expr.allErrors_append (i : ScopeId) (t : ScopeTree Function) (es fs : List Expr) :
    Expr.allErrors i t (es ++ fs) = Expr.allErrors i t es ++ Expr.allErrors i t fs := by
  induction es with
  | nil => rfl
  | cons e es ih => rw [List.cons_append, Expr.allErrors, ih, Expr.allErrors, List.append_assoc]

theorem Expr.allErrors_singleton (i : ScopeId) (t : ScopeTree Function) (e : Expr) :
    Expr.allErrors i t [e] = e.errors i t := by
  rw [Expr.allErrors, Expr.allErrors, List.append_nil]

/-- However long a chain is, the error of its root comes before those of the
subscripts. -/
theorem Expr.errors_of_root (i : ScopeId) (t : ScopeTree Function) {root : Name} : {e : Expr} →
    e.root? = some root →
    e.errors i t = (t.variableError? i root).toList ++ Expr.allErrors i t e.subscripts
  | ⟨.var name, span⟩, h => by
    cases h
    rw [Expr.errors, Expr.subscripts, Expr.allErrors, List.append_nil]
    simp
  | ⟨.index base index, _⟩, h => by
    rw [Expr.errors, Expr.errors_of_root i t (e := base) h, Expr.subscripts, Expr.allErrors_append,
      Expr.allErrors_singleton, List.append_assoc]

namespace Analysis

theorem element_reports (i : ScopeId) (t : ScopeTree Function) (base index : Expr) :
    Reports (do expr i base; expr i index) t (base.errors i t ++ index.errors i t) :=
  (expr_reports i t base).expr_bind (expr_reports i t index)

/-- That the root of a chain is looked at on its own makes no difference: it is
what the chain starts with, and its error is reported twice in a row. -/
theorem target_reports (i : ScopeId) (t : ScopeTree Function) (place : Target) :
    Reports (target i place) t (place.errors i t) := by
  obtain ⟨node, span⟩ := place
  cases node with
  | name name =>
    intro r
    simp only [target, assignVariable, after_get_bind]
    rcases t.binds i name with _ | _ <;> rfl
  | element base index =>
    simp only [target, Target.root?, Target.errors]
    rcases hroot : base.root? with _ | root
    · exact element_reports i t base index
    · have htwice := (useVariable_reports i t root).bind
        (f := fun _ => do expr i base; expr i index)
        (fun r => useVariable_scopes i root.text root.span ⟨t, r⟩) (element_reports i t base index)
      intro r
      refine (htwice r).trans ?_
      rw [base.errors_of_root i t hroot, List.append_assoc, Reporter.reportAll_twice]

end Analysis

/-! ## Visits -/

/-- A statement, and the scopes in which it is analyzed. -/
structure Visit where
  stmt : Stmt
  scope : ScopeId
  scopes : ScopeTree Function

mutual

/-- A statement and all that stand in its blocks, in the order in which they
are analyzed, each with the scopes that those before it leave. -/
def Stmt.visits (i : ScopeId) (t : ScopeTree Function) : Stmt → List Visit
  | ⟨node, span⟩ => ⟨⟨node, span⟩, i, t⟩ :: node.visits i t

/-- Those in the blocks of a statement. -/
def StmtNode.visits (i : ScopeId) (t : ScopeTree Function) : StmtNode → List Visit
  | .cond _ yes none => yes.visits t.size (t.addBlock i)
  | .cond _ yes (some no) =>
    yes.visits t.size (t.addBlock i) ++ no.visits t.size (t.addBlock i)
  | .loop _ body | .times _ body => body.visits t.size (t.addLoop i)
  | .each item _ body =>
    let outer := (t.addLoop i).insert t.size item.text none
    body.visits outer.size (outer.addBlock t.size)
  | .function ⟨name, params, body, span⟩ =>
    let u := Stmt.declare i ⟨.function ⟨name, params, body, span⟩, span⟩ t
    body.visits u.size
      (params.foldl (fun t p => t.insert u.size p.text none) (u.addChild i false true))
  | _ => []

/-- Those in a block. -/
def Block.visits (i : ScopeId) (t : ScopeTree Function) : Block → List Visit
  | ⟨statements, _⟩ => Stmt.allVisits i t statements

/-- Those in a list of statements. -/
def Stmt.allVisits (i : ScopeId) (t : ScopeTree Function) : List Stmt → List Visit
  | [] => []
  | s :: ss => s.visits i t ++ Stmt.allVisits i (s.declare i t) ss

end

/-- All statements of a program. -/
def Program.visits (p : Program) (t : ScopeTree Function) : List Visit :=
  Stmt.allVisits ScopeTree.globalId t p.statements

mutual

/-- Every statement that is written is visited, in that order. -/
theorem Stmt.visits_stmt : (s : Stmt) → (i : ScopeId) → (t : ScopeTree Function) →
    (around : List Enclosure) →
    (s.visits i t).map (·.stmt) = (s.placed around).map (·.stmt)
  | ⟨.expr _, _⟩, _, _, _ | ⟨.assign _ _, _⟩, _, _, _ | ⟨.return _, _⟩, _, _, _
  | ⟨.stop, _⟩, _, _, _ | ⟨.next, _⟩, _, _, _ => rfl
  | ⟨.cond _ yes none, _⟩, i, t, around => by
    simp only [Stmt.visits, Stmt.placed, StmtNode.visits, StmtNode.placed, List.map_cons]
    rw [yes.visits_stmt _ _ (.branch :: around)]
  | ⟨.cond _ yes (some no), _⟩, i, t, around => by
    simp only [Stmt.visits, Stmt.placed, StmtNode.visits, StmtNode.placed, List.map_cons,
      List.map_append]
    rw [yes.visits_stmt _ _ (.branch :: around), no.visits_stmt _ _ (.branch :: around)]
  | ⟨.loop _ body, _⟩, i, t, around | ⟨.each _ _ body, _⟩, i, t, around
  | ⟨.times _ body, _⟩, i, t, around => by
    simp only [Stmt.visits, Stmt.placed, StmtNode.visits, StmtNode.placed, List.map_cons]
    rw [body.visits_stmt _ _ (.loop :: around)]
  | ⟨.function ⟨_, _, body, _⟩, _⟩, i, t, around => by
    simp only [Stmt.visits, Stmt.placed, StmtNode.visits, StmtNode.placed, List.map_cons]
    rw [body.visits_stmt _ _ (.function :: around)]

theorem Block.visits_stmt : (b : Block) → (i : ScopeId) → (t : ScopeTree Function) →
    (around : List Enclosure) →
    (b.visits i t).map (·.stmt) = (b.placed around).map (·.stmt)
  | ⟨statements, _⟩, i, t, around => by
    rw [Block.visits, Block.placed]
    exact Stmt.allVisits_stmt statements i t around

theorem Stmt.allVisits_stmt : (ss : List Stmt) → (i : ScopeId) → (t : ScopeTree Function) →
    (around : List Enclosure) →
    (Stmt.allVisits i t ss).map (·.stmt) = (Stmt.allPlaced around ss).map (·.stmt)
  | [], _, _, _ => rfl
  | s :: ss, i, t, around => by
    rw [Stmt.allVisits, Stmt.allPlaced, List.map_append, List.map_append,
      s.visits_stmt i t around, Stmt.allVisits_stmt ss _ _ around]

end

theorem Program.visits_stmt (p : Program) (t : ScopeTree Function) :
    (p.visits t).map (·.stmt) = p.placed.map (·.stmt) := Stmt.allVisits_stmt p.statements _ t []

/-! ## Errors of statements -/

/-- The errors of a statement, leaving out its blocks. The value of an
assignment comes before its target. -/
def Visit.errors (v : Visit) : List Diagnostic :=
  match v.stmt.node with
  | .expr e | .cond e _ _ | .loop e _ | .each _ e _ | .times e _ => e.errors v.scope v.scopes
  | .assign place value => value.errors v.scope v.scopes ++ place.errors v.scope v.scopes
  | .function d => Analysis.reported (Analysis.declareFunction v.scope d) v.scopes
  | .return value =>
    Analysis.reported (Analysis.needsFunction v.scope "return" v.stmt.span) v.scopes ++
      (value.map (·.errors v.scope v.scopes)).getD []
  | .stop => Analysis.reported (Analysis.needsLoop v.scope "stop" v.stmt.span) v.scopes
  | .next => Analysis.reported (Analysis.needsLoop v.scope "next" v.stmt.span) v.scopes

namespace Analysis

theorem needsLoop_one (i : ScopeId) (t : ScopeTree Function) (word : String) (span : Span) :
    ReportsOne (needsLoop i word span) t [span] := by
  rcases hloop : t.inLoop i with _ | _
  · refine .report ⟨s!"'{word}' statement outside of loop", span⟩ (by simp) fun r => ?_
    simp [needsLoop, hloop]
  · refine .nothing fun r => ?_
    simp [needsLoop, hloop]

theorem needsFunction_one (i : ScopeId) (t : ScopeTree Function) (word : String) (span : Span) :
    ReportsOne (needsFunction i word span) t [span] := by
  rcases hfunction : t.inFunction i with _ | _
  · refine .report ⟨s!"'{word}' statement outside of function", span⟩ (by simp) fun r => ?_
    simp [needsFunction, hfunction]
  · refine .nothing fun r => ?_
    simp [needsFunction, hfunction]

/-- A declaration is no global one, or its name is declared already, but never
both. -/
theorem declareFunction_one (i : ScopeId) (t : ScopeTree Function) (d : FunctionDecl) :
    ReportsOne (declareFunction i d) t [d.span, d.name.span] := by
  rcases hglobal : t.isGlobal i with _ | _
  · refine .report ⟨"Function declaration outside of global scope", d.span⟩ (by simp) fun r => ?_
    simp [declareFunction, hglobal]
  · rcases hbinds : t.bindsIn i d.name.text with _ | _
    · refine .nothing fun r => ?_
      simp [declareFunction, hglobal, hbinds]
    · refine .report ⟨s!"Identifier '{d.name.text}' already declared", d.name.span⟩ (by simp)
        fun r => ?_
      simp [declareFunction, hglobal, hbinds]

/-- The block reports the errors of all that stand in it. -/
def BlockReports (b : Block) : Prop :=
  ∀ i t, Reports (block target i b) t ((b.visits i t).flatMap Visit.errors)

section Blocks

variable {b : Block} (hb : BlockReports b) (i : ScopeId) (t : ScopeTree Function)
include hb

theorem branch_reports : Reports (within (·.addBlock i) fun inner => block target inner b) t
    ((b.visits t.size (t.addBlock i)).flatMap Visit.errors) := .within (hb t.size (t.addBlock i))

theorem loop_reports : Reports (within (·.addLoop i) fun inner => block target inner b) t
    ((b.visits t.size (t.addLoop i)).flatMap Visit.errors) := .within (hb t.size (t.addLoop i))

end Blocks

mutual

/-- A statement reports its own errors, and then those of all that stand in its
blocks. -/
theorem stmt_reports : (s : Stmt) → (i : ScopeId) → (t : ScopeTree Function) →
    Reports (stmt target i s) t ((s.visits i t).flatMap Visit.errors)
  | ⟨.expr value, _⟩, i, t => by
    simp only [stmt, Stmt.visits, StmtNode.visits, List.flatMap_singleton]
    exact expr_reports i t value
  | ⟨.assign place value, _⟩, i, t => by
    simp only [stmt, Stmt.visits, StmtNode.visits, List.flatMap_singleton]
    exact (expr_reports i t value).expr_bind (target_reports i t place)
  | ⟨.cond test yes none, _⟩, i, t => by
    simp only [stmt, Stmt.visits, StmtNode.visits, List.flatMap_cons]
    exact (expr_reports i t test).expr_bind (branch_reports (block_reports yes) i t)
  | ⟨.cond test yes (some no), _⟩, i, t => by
    simp only [stmt, Stmt.visits, StmtNode.visits, List.flatMap_cons, List.flatMap_append]
    -- the scope of the first block is gone when the second is entered
    have hyes : ∀ r,
        (after (within (·.addBlock i) fun inner => block target inner yes) ⟨t, r⟩).scopes = t :=
      fun r => within_scopes rfl fun b => keep_block _ yes b (Nat.le_refl _)
    exact (expr_reports i t test).expr_bind
      ((branch_reports (block_reports yes) i t).bind hyes (branch_reports (block_reports no) i t))
  | ⟨.loop e body, _⟩, i, t | ⟨.times e body, _⟩, i, t => by
    simp only [stmt, Stmt.visits, StmtNode.visits, List.flatMap_cons]
    exact (expr_reports i t e).expr_bind (loop_reports (block_reports body) i t)
  | ⟨.each item items body, _⟩, i, t => by
    simp only [stmt, Stmt.visits, StmtNode.visits, List.flatMap_cons]
    refine (expr_reports i t items).expr_bind (.within ?_)
    exact .quietly (fun _ => rfl) (branch_reports (block_reports body) t.size _)
  | ⟨.function ⟨name, params, body, declSpan⟩, span⟩, i, t => by
    simp only [stmt, Stmt.visits, StmtNode.visits, List.flatMap_cons]
    have hscopes : ∀ r, (after (declareFunction i ⟨name, params, body, declSpan⟩) ⟨t, r⟩).scopes =
        Stmt.declare i ⟨.function ⟨name, params, body, declSpan⟩, declSpan⟩ t :=
      fun r => declareFunction_scopes i _ declSpan ⟨t, r⟩
    refine (declareFunction_one i t _).reports.bind hscopes (.within ?_)
    exact .quietly (fun _ => rfl) (block_reports body _ _)
  | ⟨.return none, span⟩, i, t => by
    simp only [stmt, Stmt.visits, StmtNode.visits, List.flatMap_singleton]
    simpa [Visit.errors] using (needsFunction_one i t "return" span).reports
  | ⟨.return (some value), span⟩, i, t => by
    simp only [stmt, Stmt.visits, StmtNode.visits, List.flatMap_singleton]
    exact (needsFunction_one i t "return" span).reports.bind
      (fun r => needsFunction_scopes i "return" span ⟨t, r⟩) (expr_reports i t value)
  | ⟨.stop, span⟩, i, t => by
    simp only [stmt, Stmt.visits, StmtNode.visits, List.flatMap_singleton]
    exact (needsLoop_one i t "stop" span).reports
  | ⟨.next, span⟩, i, t => by
    simp only [stmt, Stmt.visits, StmtNode.visits, List.flatMap_singleton]
    exact (needsLoop_one i t "next" span).reports

theorem block_reports : (b : Block) → BlockReports b
  | ⟨statements, _⟩, i, t => by
    rw [block, Block.visits]
    exact stmts_reports statements i t

theorem stmts_reports : (ss : List Stmt) → (i : ScopeId) → (t : ScopeTree Function) →
    Reports (stmts target i ss) t ((Stmt.allVisits i t ss).flatMap Visit.errors)
  | [], i, t => .nothing t
  | s :: ss, i, t => by
    rw [stmts, Stmt.allVisits, List.flatMap_append]
    exact (stmt_reports s i t).bind (fun r => stmt_scopes i s ⟨t, r⟩) (stmts_reports ss i _)

end

end Analysis

theorem Target.errors_subperm (i : ScopeId) (t : ScopeTree Function) (place : Target) :
    ((place.errors i t).map (·.span)).Subperm place.anchors := by
  obtain ⟨node, span⟩ := place
  cases node with
  | name name => exact List.nil_subperm
  | element base index =>
    rw [Target.errors, Target.anchors, List.map_append]
    exact (base.errors_subperm i t).append (index.errors_subperm i t)

theorem Visit.errors_subperm (v : Visit) : (v.errors.map (·.span)).Subperm v.stmt.anchors := by
  obtain ⟨⟨node, span⟩, i, t⟩ := v
  cases node with
  | expr e | cond e _ _ | loop e _ | each _ e _ | times e _ => exact e.errors_subperm i t
  | assign place value =>
    -- the target is written before the value and analyzed after it
    have hswapped := (value.errors_subperm i t).append (place.errors_subperm i t)
    simp only [Visit.errors, Stmt.anchors, List.map_append]
    exact hswapped.trans List.perm_append_comm.subperm
  | function d => exact (Analysis.declareFunction_one i t d).subperm
  | «return» value =>
    have hown := (Analysis.needsFunction_one i t "return" span).subperm
    simp only [Visit.errors, Stmt.anchors, List.map_append]
    rcases value with _ | value
    · exact hown.append List.nil_subperm
    · exact hown.append (value.errors_subperm i t)
  | stop | next => exact (Analysis.needsLoop_one i t _ span).subperm

/-- Each error of some statements is about a place of its own. -/
theorem Visit.allErrors_subperm (vs : List Visit) :
    ((vs.flatMap Visit.errors).map (·.span)).Subperm (vs.flatMap (·.stmt.anchors)) := by
  induction vs with
  | nil => exact List.nil_subperm
  | cons v vs ih =>
    rw [List.flatMap_cons, List.flatMap_cons, List.map_append]
    exact v.errors_subperm.append ih

/-! ## Programs -/

section Read

variable {source : String} {p : Program} (hp : parseSource source = .ok p) (t : ScopeTree Function)
include hp

/-- No two errors of a program that was read are about the same place. -/
theorem Program.nodup_errors :
    (((p.visits t).flatMap Visit.errors).map (·.span.start)).Nodup := by
  have hanchors : (p.visits t).flatMap (·.stmt.anchors) = p.placed.flatMap (·.stmt.anchors) := by
    have hstmts := congrArg (List.flatMap Stmt.anchors) (p.visits_stmt t)
    simpa only [List.flatMap_map] using hstmts
  obtain ⟨spans, hperm, hsub⟩ := Visit.allErrors_subperm (p.visits t)
  rw [hanchors] at hsub
  have hnodup : (spans.map (·.start)).Nodup := (p.nodup_anchors hp).sublist (hsub.map _)
  have herrors := (hperm.map (·.start)).nodup_iff.mp hnodup
  rw [List.map_map] at herrors
  exact herrors

/-- So an analysis gives all that it reports. -/
theorem Program.analyze_eq_errors : (p.analyze t).2 = (p.visits t).flatMap Visit.errors := by
  have hreports := Analysis.stmts_reports p.statements ScopeTree.globalId t
  exact hreports.reported_eq (List.Nodup.of_map _ (p.nodup_errors hp t))

end Read

end Quill
