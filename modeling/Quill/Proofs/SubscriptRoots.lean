-- Errors about the roots of subscript chains that are assigned to. An
-- analysis looks at such a root on its own, and again when it walks the
-- chain, where it is what comes first. So the second look finds nothing new:
-- there is one error about a root, after those of the value and before those
-- of the subscripts, and an analysis without the first look gives the same.
import Mathlib
import Quill.Proofs.AnalysisReports

namespace Quill

namespace Analysis

/-! ## An analysis that looks at roots only once -/

/-- Analyzes what an assignment writes to without a look at the root of a
chain of subscripts before the chain itself. -/
def walk (scope : ScopeId) (t : Target) : Analyze Unit :=
  match t.node with
  | .name name => assignVariable scope name
  | .element base index => do
    expr scope base
    expr scope index

/-- Steps that leave the same behind are the same. -/
theorem eq_of_after {m n : Analyze Unit} (h : ∀ a, after m a = after n a) : m = n :=
  funext fun a => Prod.ext rfl (h a)

theorem target_eq_walk : target = walk := by
  funext i place
  obtain ⟨node, span⟩ := place
  cases node with
  | name name => rfl
  | element base index =>
    refine eq_of_after fun a => ?_
    obtain ⟨t, r⟩ := a
    have htarget : (after (target i ⟨.element base index, span⟩) ⟨t, r⟩).scopes = t := by
      simp only [target]
      split <;> simp
    have hwalk : (after (walk i ⟨.element base index, span⟩) ⟨t, r⟩).scopes = t := by simp [walk]
    rw [(target_reports i t _).after_eq htarget]
    exact ((element_reports i t base index).after_eq hwalk).symm

end Analysis

theorem Program.analyze_eq_walk (p : Program) (t : ScopeTree Function) :
    p.analyze t = p.analyzeWith Analysis.walk t := by
  rw [Program.analyze, Analysis.target_eq_walk]

/-! ## Programs -/

/-- The root of the chain of subscripts that a statement assigns to. -/
def Visit.root? (v : Visit) : Option Name :=
  match v.stmt.node with
  | .assign ⟨.element base _, _⟩ _ => base.root?
  | _ => none

theorem Visit.element_of_root {v : Visit} {root : Name} (h : v.root? = some root) :
    ∃ base index value placeSpan span,
      v.stmt = ⟨.assign ⟨.element base index, placeSpan⟩ value, span⟩ ∧ base.root? = some root := by
  obtain ⟨⟨node, span⟩, i, t⟩ := v
  cases node with
  | assign place value =>
    obtain ⟨placeNode, placeSpan⟩ := place
    cases placeNode with
    | name name => cases h
    | element base index => exact ⟨base, index, value, placeSpan, span, rfl, h⟩
  | _ => cases h

theorem Visit.errors_among {v : Visit} {vs : List Visit} (h : v ∈ vs) :
    v.errors <:+: vs.flatMap Visit.errors := by
  obtain ⟨before, later, rfl⟩ := List.append_of_mem h
  refine ⟨before.flatMap Visit.errors, later.flatMap Visit.errors, ?_⟩
  rw [List.flatMap_append, List.flatMap_cons, List.append_assoc]

/-- The errors of an assignment to an element: those of the value, that of the
root, and those of the subscripts. -/
theorem Visit.errors_of_root {v : Visit} {base index value : Expr} {placeSpan span : Span}
    {root : Name} (hv : v.stmt = ⟨.assign ⟨.element base index, placeSpan⟩ value, span⟩)
    (hroot : base.root? = some root) :
    v.errors = value.errors v.scope v.scopes ++ ((v.scopes.variableError? v.scope root).toList ++
      Expr.allErrors v.scope v.scopes (base.subscripts ++ [index])) := by
  simp only [Visit.errors, hv, Target.errors]
  rw [base.errors_of_root v.scope v.scopes hroot, Expr.allErrors_append, Expr.allErrors_singleton,
    List.append_assoc]

/-- Where no two errors are about the same place, one of them is the only one
about its own. -/
theorem Diagnostic.filter_span {ds : List Diagnostic} {d : Diagnostic}
    (hnodup : (ds.map (·.span.start)).Nodup) (h : d ∈ ds) :
    ds.filter (·.span = d.span) = [d] := by
  obtain ⟨before, later, rfl⟩ := List.append_of_mem h
  rw [List.map_append, List.map_cons, List.nodup_middle, List.nodup_cons,
    ← List.map_append] at hnodup
  have hother : ∀ e ∈ before ++ later, e.span ≠ d.span := fun e he heq =>
    hnodup.1 (heq ▸ List.mem_map_of_mem he)
  have hbefore : before.filter (·.span = d.span) = [] :=
    List.filter_eq_nil_iff.mpr fun e he => by simpa using hother e (List.mem_append_left _ he)
  have hlater : later.filter (·.span = d.span) = [] :=
    List.filter_eq_nil_iff.mpr fun e he => by simpa using hother e (List.mem_append_right _ he)
  rw [List.filter_append, hbefore, List.filter_cons_of_pos (by simp), hlater, List.nil_append]

theorem Program.root_of_visit {source : String} {p : Program} (hp : parseSource source = .ok p)
    (t : ScopeTree Function) {v : Visit} (hv : v ∈ p.visits t) {place : Target}
    (hplace : v.stmt.target? = some place) : ∃ root, place.root? = some root := by
  have hmem : v.stmt ∈ p.placed.map (·.stmt) := by
    rw [← p.visits_stmt t]
    exact List.mem_map_of_mem hv
  obtain ⟨q, hq, hstmt⟩ := List.mem_map.mp hmem
  rw [← hstmt] at hplace
  exact Option.isSome_iff_exists.mp (p.root_isSome hp hq hplace)

/-- In a program that was read, every chain of subscripts that is assigned to
has a root. If the root is not declared or a function, there is exactly one
error about it, between those of the value and those of the subscripts. An
analysis that does not look at the root on its own gives the same scopes and
errors. -/
theorem subscript_roots_reported {source : String} {p : Program}
    (hp : parseSource source = .ok p) (t : ScopeTree Function) :
    p.analyze t = p.analyzeWith Analysis.walk t ∧
    (p.visits t).map (·.stmt) = p.placed.map (·.stmt) ∧
    ∀ v ∈ p.visits t, ∀ base index value placeSpan span,
      v.stmt = ⟨.assign ⟨.element base index, placeSpan⟩ value, span⟩ →
      ∃ root, Target.root? ⟨.element base index, placeSpan⟩ = some root ∧
        ∀ d, v.scopes.variableError? v.scope root = some d →
          (p.analyze t).2.filter (·.span = root.span) = [d] ∧
          Analysis.reported (Analysis.expr v.scope value) v.scopes ++ d ::
            Analysis.reported (Analysis.exprs v.scope (base.subscripts ++ [index])) v.scopes <:+:
              (p.analyze t).2 := by
  refine ⟨p.analyze_eq_walk t, p.visits_stmt t, ?_⟩
  intro v hv base index value placeSpan span hstmt
  have hplace : v.stmt.target? = some ⟨.element base index, placeSpan⟩ := by
    rw [hstmt]
    rfl
  obtain ⟨root, hroot⟩ := p.root_of_visit hp t hv hplace
  refine ⟨root, hroot, fun d hd => ?_⟩
  have hnodup := p.nodup_errors hp t
  have herrors := Visit.errors_of_root hstmt hroot
  rw [hd, Option.toList_some, List.singleton_append] at herrors
  have hpart := Visit.errors_among hv
  rw [herrors] at hpart
  obtain ⟨hvalue, hrest, -⟩ := List.nodup_append.mp ((hnodup.of_map _).sublist hpart.sublist)
  rw [(Analysis.expr_reports _ _ value).reported_eq hvalue,
    (Analysis.exprs_reports _ _ _).reported_eq (List.nodup_cons.mp hrest).2,
    p.analyze_eq_errors hp t, ← ScopeTree.span_of_variableError hd]
  exact ⟨Diagnostic.filter_span hnodup (hpart.subset (by simp)), hpart⟩

/-- A chain with parentheses in a loop, whose root and subscripts are not
declared and whose value uses the name of the root, and then a function with a
subscript. -/
theorem subscript_roots_reported_chain :
    let source := "a <- 0\nwhile a \x7b ((k[i])[a[j]])[a] <- k + m \x7d\noutput[n] <- x"
    let root : Name := ⟨"k", ⟨19, 20, 2, 13⟩⟩
    let error : Diagnostic := ⟨"Undeclared identifier 'k'", root.span⟩
    let errors : List Diagnostic :=
      [⟨"Undeclared identifier 'k'", ⟨38, 39, 2, 32⟩⟩,
        ⟨"Undeclared identifier 'm'", ⟨42, 43, 2, 36⟩⟩, error,
        ⟨"Undeclared identifier 'i'", ⟨21, 22, 2, 15⟩⟩,
        ⟨"Undeclared identifier 'j'", ⟨27, 28, 2, 21⟩⟩,
        ⟨"Undeclared identifier 'x'", ⟨59, 60, 3, 14⟩⟩,
        ⟨"Identifier 'output' is a function", ⟨46, 52, 3, 1⟩⟩,
        ⟨"Undeclared identifier 'n'", ⟨53, 54, 3, 8⟩⟩]
    ∃ p, parseSource source = .ok p ∧
      (p.analyzeWith Analysis.walk Analysis.initialScopes).2 = errors ∧
      ∃ v ∈ p.visits Analysis.initialScopes, ∃ base index value placeSpan span,
        v.stmt = ⟨.assign ⟨.element base index, placeSpan⟩ value, span⟩ ∧
        base.root? = some root ∧ v.scopes.variableError? v.scope root = some error ∧
        errors.filter (·.span = root.span) = [error] ∧
        Analysis.reported (Analysis.expr v.scope value) v.scopes ++ error ::
          Analysis.reported (Analysis.exprs v.scope (base.subscripts ++ [index])) v.scopes <:+:
            errors := by
  intro source root error errors
  obtain ⟨p, hp, htest⟩ := exists_of_toOption_any (r := parseSource source)
    (P := fun p => (p.analyze Analysis.initialScopes).2 = errors ∧
      (p.visits Analysis.initialScopes).any fun v =>
        v.root? = some root ∧ v.scopes.variableError? v.scope root = some error) (by decide +kernel)
  simp only [decide_eq_true_eq, List.any_eq_true] at htest
  obtain ⟨hanalyze, v, hv, hroot, herror⟩ := htest
  obtain ⟨base, index, value, placeSpan, span, hstmt, hbase⟩ := Visit.element_of_root hroot
  obtain ⟨hwalk, -, hreported⟩ := subscript_roots_reported hp Analysis.initialScopes
  obtain ⟨root', hroot', hlast⟩ := hreported v hv base index value placeSpan span hstmt
  obtain rfl : root = root' := Option.some.inj (hbase.symm.trans hroot')
  have hwalked : (p.analyzeWith Analysis.walk Analysis.initialScopes).2 = errors := by
    rw [← hwalk, hanalyze]
  rw [hanalyze] at hlast
  exact ⟨p, hp, hwalked, v, hv, base, index, value, placeSpan, span, hstmt, hbase, herror,
    hlast error herror⟩

end Quill
