-- Whether a program fits does not depend on spans, and a program fits that
-- is made of two exactly if the second fits where the first one leaves off.
import Mathlib
import Quill.Proofs.FitPrograms
import Quill.Proofs.RespannedRuns

namespace Quill

variable {T : String → Prop} (f : Span → Span)

/-! ## Sites with other spans -/

namespace Site

/-- The site with all spans of the known functions mapped. -/
def respan (Γ : Site) : Site :=
  { Γ with names := fun n => (Γ.names n).map (Option.map (Function.respan f)) }

variable (Γ : Site)

theorem respan_bind (n : String) (what : Option Function) :
    (Γ.bind n what).respan f = (Γ.respan f).bind n (what.map (Function.respan f)) := by
  simp only [respan, bind, Site.mk.injEq, and_true]
  funext m
  by_cases hm : m = n
  · subst hm
    simp
  · simp [Function.update_of_ne hm]

theorem respan_bindAll (params : List Name) :
    (Γ.bindAll params).respan f = (Γ.respan f).bindAll (params.map (·.respan f)) := by
  unfold bindAll
  induction params generalizing Γ with
  | nil => rfl
  | cons p params ih =>
    rw [List.foldl_cons, ih, respan_bind]
    rfl

theorem respan_names_eq_none {n : String} : (Γ.respan f).names n = none ↔ Γ.names n = none := by
  simp [respan]

theorem respan_names_isSome (n : String) :
    ((Γ.respan f).names n).isSome = (Γ.names n).isSome := by simp [respan]

theorem respan_names_variable {n : String} :
    (Γ.respan f).names n = some none ↔ Γ.names n = some none := by
  simp [respan]

/-- A function of so many arguments is known by a name. -/
theorem respan_names_function {n : String} {k : Nat} :
    (∃ h, (Γ.respan f).names n = some (some h) ∧ h.arity = k) ↔
      ∃ h, Γ.names n = some (some h) ∧ h.arity = k := by
  simp only [respan, Option.map_eq_some_iff]
  constructor
  · rintro ⟨_, ⟨_, hn, h, rfl, rfl⟩, hk⟩
    exact ⟨h, hn, hk⟩
  · rintro ⟨h, hn, hk⟩
    exact ⟨h.respan f, ⟨some h, hn, h, rfl, rfl⟩, hk⟩

theorem respan_after (s : Stmt) : (Γ.after s).respan f = (Γ.respan f).after (s.respan f) := by
  obtain ⟨node, span⟩ := s
  cases node with
  | assign target value =>
    obtain ⟨node, targetSpan⟩ := target
    cases node with
    | element base index => rfl
    | name name =>
      simp only [Stmt.respan, StmtNode.respan, Target.respan, TargetNode.respan, after,
        respan_names_isSome]
      split
      · rfl
      · exact respan_bind f Γ name none
  | function d =>
    have hname : (d.respan f).name.text = d.name.text := by
      rw [FunctionDecl.respan_name]
      rfl
    simp only [Stmt.respan, StmtNode.respan, after, hname, Function.ofDecl_respan]
    exact respan_bind f Γ d.name.text (some (.ofDecl d))
  | «return» value => cases value <;> rfl
  | _ => rfl

end Site

/-! ## Programs with other spans -/

mutual

theorem Expr.fit_respan : (e : Expr) → (Γ : Site) → ((e.respan f).Fit (Γ.respan f) ↔ e.Fit Γ)
  | ⟨.int _, _⟩, _ | ⟨.float _, _⟩, _ | ⟨.bool _, _⟩, _ | ⟨.string _, _⟩, _ => by
    simp only [Expr.respan, ExprNode.respan, Expr.Fit]
  | ⟨.array elements, _⟩, Γ => by
    simp only [Expr.respan, ExprNode.respan, Expr.Fit, Expr.allFit_respan elements Γ]
  | ⟨.var name, _⟩, Γ => by
    simp only [Expr.respan, ExprNode.respan, Expr.Fit, Γ.respan_names_variable f]
  | ⟨.binary left _ right, _⟩, Γ => by
    simp only [Expr.respan, ExprNode.respan, Expr.Fit, left.fit_respan Γ, right.fit_respan Γ]
  | ⟨.unary _ operand, _⟩, Γ => by
    simp only [Expr.respan, ExprNode.respan, Expr.Fit, operand.fit_respan Γ]
  | ⟨.range first last, _⟩, Γ => by
    simp only [Expr.respan, ExprNode.respan, Expr.Fit, first.fit_respan Γ, last.fit_respan Γ]
  | ⟨.index base index, _⟩, Γ => by
    simp only [Expr.respan, ExprNode.respan, Expr.Fit, base.fit_respan Γ, index.fit_respan Γ]
  | ⟨.call callee args, _⟩, Γ => by
    have hlen : (Expr.respanAll f args).length = args.length := by simp [Expr.respanAll_eq_map]
    simp only [Expr.respan, ExprNode.respan, Expr.Fit, Expr.allFit_respan args Γ, hlen]
    exact and_congr_left fun _ => Γ.respan_names_function f
  | ⟨.cast _ operand, _⟩, Γ => by
    simp only [Expr.respan, ExprNode.respan, Expr.Fit, operand.fit_respan Γ]

theorem Expr.allFit_respan : (es : List Expr) → (Γ : Site) →
    (Expr.AllFit (Γ.respan f) (Expr.respanAll f es) ↔ Expr.AllFit Γ es)
  | [], _ => by simp only [Expr.respanAll, Expr.AllFit]
  | e :: es, Γ => by
    simp only [Expr.respanAll, Expr.AllFit, e.fit_respan Γ, Expr.allFit_respan es Γ]

end

theorem Target.fit_respan (t : Target) (Γ : Site) :
    (t.respan f).Fit T (Γ.respan f) ↔ t.Fit T Γ := by
  obtain ⟨node, span⟩ := t
  cases node with
  | name name => exact Iff.rfl
  | element base index =>
    simp only [Target.respan, TargetNode.respan, Target.Fit, base.fit_respan, index.fit_respan]

mutual

theorem Stmt.fit_respan : (s : Stmt) → (Γ : Site) → ((s.respan f).Fit T (Γ.respan f) ↔ s.Fit T Γ)
  | ⟨.expr value, _⟩, Γ => by
    simp only [Stmt.respan, StmtNode.respan, Stmt.Fit, value.fit_respan]
  | ⟨.assign target value, _⟩, Γ => by
    simp only [Stmt.respan, StmtNode.respan, Stmt.Fit, value.fit_respan, target.fit_respan]
  | ⟨.cond test yes none, _⟩, Γ => by
    simp only [Stmt.respan, StmtNode.respan, Block.respanOption, Stmt.Fit, test.fit_respan]
    exact and_congr_right fun _ => yes.fit_respan Γ.block
  | ⟨.cond test yes (some no), _⟩, Γ => by
    simp only [Stmt.respan, StmtNode.respan, Block.respanOption, Stmt.Fit, test.fit_respan]
    exact and_congr_right fun _ => and_congr (yes.fit_respan Γ.block) (no.fit_respan Γ.block)
  | ⟨.loop test body, _⟩, Γ => by
    simp only [Stmt.respan, StmtNode.respan, Stmt.Fit, test.fit_respan]
    exact and_congr_right fun _ => body.fit_respan Γ.loop
  | ⟨.each item items body, _⟩, Γ => by
    simp only [Stmt.respan, StmtNode.respan, Stmt.Fit, items.fit_respan]
    have hsite := Site.respan_bind f Γ.loop item.text none
    have hbody := body.fit_respan (Γ.loop.bind item.text none).block
    exact and_congr_right fun _ => by
      rw [← hbody]
      exact iff_of_eq (congrArg (fun Δ : Site => (body.respan f).Fit T Δ.block) hsite.symm)
  | ⟨.times count body, _⟩, Γ => by
    simp only [Stmt.respan, StmtNode.respan, Stmt.Fit, count.fit_respan]
    exact and_congr_right fun _ => body.fit_respan Γ.loop
  | ⟨.function ⟨name, params, body, span⟩, _⟩, Γ => by
    simp only [Stmt.respan, StmtNode.respan, FunctionDecl.respan, Stmt.Fit]
    have hsite := Site.respan_bind f Γ name.text (some (.ofDecl ⟨name, params, body, span⟩))
    rw [Option.map_some, ← Function.ofDecl_respan, FunctionDecl.respan] at hsite
    refine and_congr (and_congr Iff.rfl (Γ.respan_names_eq_none f)) ?_
    rw [← body.fit_respan, Site.respan_bindAll]
    exact iff_of_eq (congrArg (fun Δ : Site => (body.respan f).Fit T
      (Δ.frame.bindAll (params.map (Name.respan f)))) hsite.symm)
  | ⟨.return none, _⟩, Γ => by
    simp only [Stmt.respan, StmtNode.respan, Option.map_none, Stmt.Fit]
    exact Iff.rfl
  | ⟨.return (some value), _⟩, Γ => by
    simp only [Stmt.respan, StmtNode.respan, Option.map_some, Stmt.Fit, value.fit_respan]
    exact Iff.rfl
  | ⟨.stop, _⟩, Γ | ⟨.next, _⟩, Γ => by
    simp only [Stmt.respan, StmtNode.respan, Stmt.Fit]
    exact Iff.rfl

theorem Block.fit_respan : (b : Block) → (Γ : Site) → ((b.respan f).Fit T (Γ.respan f) ↔ b.Fit T Γ)
  | ⟨statements, _⟩, Γ => by
    simp only [Block.respan, Block.Fit]
    exact Stmt.allFit_respan statements Γ

theorem Stmt.allFit_respan : (ss : List Stmt) → (Γ : Site) →
    (Stmt.AllFit T (Γ.respan f) (Stmt.respanAll f ss) ↔ Stmt.AllFit T Γ ss)
  | [], _ => by simp only [Stmt.respanAll, Stmt.AllFit]
  | s :: ss, Γ => by
    simp only [Stmt.respanAll, Stmt.AllFit, s.fit_respan Γ, ← Site.respan_after]
    exact and_congr_right fun _ => Stmt.allFit_respan ss (Γ.after s)

end

/-! ## Programs one after the other -/

/-- The site after statements in order. -/
def Site.afterAll (Γ : Site) (ss : List Stmt) : Site := ss.foldl Site.after Γ

theorem Stmt.allFit_append {Γ : Site} {ss ss' : List Stmt} :
    Stmt.AllFit T Γ (ss ++ ss') ↔ Stmt.AllFit T Γ ss ∧ Stmt.AllFit T (Γ.afterAll ss) ss' := by
  induction ss generalizing Γ with
  | nil => simp [Stmt.AllFit, Site.afterAll]
  | cons s ss ih =>
    simp only [List.cons_append, Stmt.AllFit, ih, and_assoc]
    exact Iff.rfl

/-- The declarations of statements that fit lead to the site after
them. -/
theorem site_declareAll {t : ScopeTree Function} (h : t.WellFormed) {ss : List Stmt}
    (hfit : Stmt.AllFit T (t.site ScopeTree.globalId) ss) :
    (declareAll ScopeTree.globalId ss t).site ScopeTree.globalId =
      (t.site ScopeTree.globalId).afterAll ss := by
  induction ss generalizing t with
  | nil => rfl
  | cons s ss ih =>
    rw [Stmt.AllFit] at hfit
    have hsite := s.site_declare (i := ScopeTree.globalId) h h.global_lt hfit.1
    rw [declareAll, List.foldl_cons, ← declareAll,
      ih (s.wellFormed_declare _ h) (hsite ▸ hfit.2), hsite]
    rfl

end Quill
