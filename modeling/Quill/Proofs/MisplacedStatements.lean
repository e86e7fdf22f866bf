-- Statements and declarations that stand where they may not. Where they stand
-- is read off the tree alone: by the branches, loops and functions around
-- them. An analysis reports exactly those, in the order in which they are
-- written and each of them once, whatever else it has to report.
import Mathlib
import Quill.Proofs.AnalysisEffect
import Quill.Proofs.KeptReports
import Quill.Proofs.SourceSpans

namespace Quill

/-! ## Places of statements -/

/-- What has blocks, and so can stand around a statement. -/
inductive Enclosure where
  | branch
  | loop
  | function
deriving DecidableEq

/-- The nearest loop or function of what stands around a statement, which is
given from the innermost outwards. -/
def Enclosure.nearest? (around : List Enclosure) : Option Enclosure := around.find? (· ≠ branch)

/-- A statement, and what stands around it. -/
structure Placed where
  stmt : Stmt
  around : List Enclosure

mutual

/-- A statement and all that stand in its blocks, in the order in which they
are written. -/
def Stmt.placed (around : List Enclosure) : Stmt → List Placed
  | ⟨node, span⟩ => ⟨⟨node, span⟩, around⟩ :: node.placed around

/-- Those in the blocks of a statement. -/
def StmtNode.placed (around : List Enclosure) : StmtNode → List Placed
  | .cond _ yes none => yes.placed (.branch :: around)
  | .cond _ yes (some no) => yes.placed (.branch :: around) ++ no.placed (.branch :: around)
  | .loop _ body | .each _ _ body | .times _ body => body.placed (.loop :: around)
  | .function ⟨_, _, body, _⟩ => body.placed (.function :: around)
  | _ => []

/-- Those in a block. -/
def Block.placed (around : List Enclosure) : Block → List Placed
  | ⟨statements, _⟩ => Stmt.allPlaced around statements

/-- Those in a list of statements. -/
def Stmt.allPlaced (around : List Enclosure) : List Stmt → List Placed
  | [] => []
  | s :: ss => s.placed around ++ Stmt.allPlaced around ss

end

/-- All statements of a program. -/
def Program.placed (p : Program) : List Placed := Stmt.allPlaced [] p.statements

/-! ## Statements that are misplaced -/

/-- The error of a statement that may not stand where it does. A `stop` or
`next` belongs to a loop that is nearer than any function, a `return` to a
function, and a declaration to no block. -/
def Placed.error? (p : Placed) : Option Diagnostic :=
  match p.stmt.node with
  | .stop =>
    if Enclosure.nearest? p.around = some .loop then none
    else some ⟨"'stop' statement outside of loop", p.stmt.span⟩
  | .next =>
    if Enclosure.nearest? p.around = some .loop then none
    else some ⟨"'next' statement outside of loop", p.stmt.span⟩
  | .return _ =>
    if .function ∈ p.around then none
    else some ⟨"'return' statement outside of function", p.stmt.span⟩
  | .function d =>
    if p.around = [] then none else some ⟨"Function declaration outside of global scope", d.span⟩
  | _ => none

/-- The errors of statements. -/
def Placed.errors (ps : List Placed) : List Diagnostic := ps.filterMap Placed.error?

/-- The error is about where a statement stands. -/
def Diagnostic.isPlacement (d : Diagnostic) : Bool :=
  d.message ∈ ["'stop' statement outside of loop", "'next' statement outside of loop",
    "'return' statement outside of function", "Function declaration outside of global scope"]

/-- Errors that begin with other letters are not. -/
theorem Diagnostic.isPlacement_eq_false {first name last : String}
    (h : first.toList.head? = some 'U' ∨ first.toList.head? = some 'I') (span : Span) :
    isPlacement ⟨first ++ name ++ last, span⟩ = false := by
  have hhead : (first ++ name ++ last).toList.head? = first.toList.head? := by
    rcases h with h | h <;> simp [List.head?_append, h]
  rw [← hhead] at h
  generalize first ++ name ++ last = message at h
  simp only [isPlacement, decide_eq_false_iff_not, List.mem_cons, List.not_mem_nil, or_false]
  rintro (rfl | rfl | rfl | rfl) <;> revert h <;> decide

/-! ## Scopes and places -/

namespace ScopeTree

variable {α : Type} {t u : ScopeTree α} {i : Nat} {around : List Enclosure}

/-- The flags of a scope say what stands around its statements. -/
structure Lies (t : ScopeTree α) (i : ScopeId) (around : List Enclosure) : Prop where
  isGlobal : t.isGlobal i = decide (around = [])
  inLoop : t.inLoop i = decide (Enclosure.nearest? around = some .loop)
  inFunction : t.inFunction i = decide (.function ∈ around)

theorem Lies.of_shape (h : t.Lies i around) (hs : u.shape = t.shape) : u.Lies i around := by
  have hflags : u.isGlobal i = t.isGlobal i ∧ u.inLoop i = t.inLoop i ∧
      u.inFunction i = t.inFunction i := by
    have hget := shape_getElem? u i
    rw [hs, shape_getElem?] at hget
    unfold ScopeTree.isGlobal ScopeTree.inLoop ScopeTree.inFunction Scope.isGlobal
    rcases ht : t.get? i with _ | s <;> rcases hu : u.get? i with _ | s'
    all_goals simp_all
  exact ⟨hflags.1.trans h.isGlobal, hflags.2.1.trans h.inLoop, hflags.2.2.trans h.inFunction⟩

theorem Lies.insert (h : t.Lies i around) (j : Nat) (n : String) (v : Option α) :
    (t.insert j n v).Lies i around := h.of_shape (shape_insert t j n v)

theorem Lies.addChild {l f : Bool} (hne : around ≠ [])
    (hl : l = decide (Enclosure.nearest? around = some .loop))
    (hf : f = decide (.function ∈ around)) (p : Nat) : (t.addChild p l f).Lies t.size around := by
  refine ⟨?_, ?_, ?_⟩
  · simp [ScopeTree.isGlobal, get?_addChild_self, Scope.isGlobal, hne]
  · simpa [ScopeTree.inLoop, get?_addChild_self] using hl
  · simpa [ScopeTree.inFunction, get?_addChild_self] using hf

theorem Lies.branch (h : t.Lies i around) : (t.addBlock i).Lies t.size (.branch :: around) :=
  .addChild (List.cons_ne_nil _ _) (by simp [h.inLoop, Enclosure.nearest?])
    (by simp [h.inFunction]) i

theorem Lies.loop (h : t.Lies i around) : (t.addLoop i).Lies t.size (.loop :: around) :=
  .addChild (List.cons_ne_nil _ _) (by simp [Enclosure.nearest?]) (by simp [h.inFunction]) i

theorem Lies.function (t : ScopeTree α) (i : Nat) (around : List Enclosure) :
    (t.addChild i false true).Lies t.size (.function :: around) :=
  .addChild (List.cons_ne_nil _ _) (by simp [Enclosure.nearest?]) (by simp) i

/-- The block of a loop with a variable lies where the variable does. -/
theorem Lies.block (h : t.Lies i around) (hne : around ≠ []) :
    (t.addBlock i).Lies t.size around := .addChild hne h.inLoop h.inFunction i

end ScopeTree

/-! ## What steps report -/

namespace Analysis

variable {a : Analysis} {m : Analyze Unit} {ds ds' : List Diagnostic}

/-- What has been reported about where statements stand. -/
def placement (a : Analysis) : List Diagnostic := a.reporter.kept.filter Diagnostic.isPlacement

theorem placement_report_other (t : ScopeTree Function) (r : Reporter) {d : Diagnostic}
    (hd : d.isPlacement = false) : placement ⟨t, r.report d true⟩ = placement ⟨t, r⟩ := by
  simp only [placement, Reporter.kept_report]
  split
  · rw [List.filter_append, List.filter_singleton, hd, cond_false, List.append_nil]
  · rfl

/-- An error that is new is reported last. -/
theorem placement_report (t : ScopeTree Function) (r : Reporter) {d : Diagnostic}
    (hd : d.isPlacement = true) (hnew : d ∉ placement ⟨t, r⟩) :
    placement ⟨t, r.report d true⟩ = placement ⟨t, r⟩ ++ [d] := by
  have hkept : d ∉ r.kept := fun hmem => hnew (List.mem_filter.mpr ⟨hmem, hd⟩)
  simp only [placement, Reporter.kept_report]
  rw [if_pos ⟨.inl trivial, hkept⟩, List.filter_append, List.filter_singleton, hd, cond_true]

/-- The step reports these errors about where statements stand, one after the
other, if they are new. -/
def Adds (m : Analyze Unit) (ds : List Diagnostic) (a : Analysis) : Prop :=
  (placement a ++ ds).Nodup → placement (after m a) = placement a ++ ds

theorem Adds.nothing (h : placement (after m a) = placement a) : Adds m [] a :=
  fun _ => h.trans (List.append_nil _).symm

theorem Adds.bind {f : Unit → Analyze Unit} (h : Adds m ds a) (h' : Adds (f ()) ds' (after m a)) :
    Adds (m >>= f) (ds ++ ds') a := by
  intro hnodup
  rw [← List.append_assoc] at hnodup ⊢
  have hfirst := h (List.nodup_append.mp hnodup).1
  rw [after_bind, h' (by rwa [hfirst]), hfirst]

/-- A step that reports no such error does not matter. -/
theorem Adds.quietly {f : Unit → Analyze Unit} (h : placement (after m a) = placement a)
    (h' : Adds (f ()) ds (after m a)) : Adds (m >>= f) ds a := (nothing h).bind h'

theorem Adds.within {enter : ScopeTree Function → ScopeTree Function}
    {body : ScopeId → Analyze Unit}
    (h : Adds (body a.scopes.size) ds { a with scopes := enter a.scopes }) :
    Adds (within enter body) ds a := h

/-- A step that reports an error unless a test succeeds. -/
theorem Adds.unless {P : Prop} [Decidable P] {d : Diagnostic} (hd : d.isPlacement = true)
    (hm : placement (after m a) =
      placement (if P then a else { a with reporter := a.reporter.report d true })) :
    Adds m (if P then none else some d).toList a := by
  intro hnodup
  rw [hm]
  split at hnodup
  · rename_i hP
    rw [if_pos hP, if_pos hP]
    exact (List.append_nil _).symm
  · rename_i hP
    rw [if_neg hP, if_neg hP]
    have hnew : d ∉ placement a := fun hmem =>
      (List.nodup_append.mp hnodup).2.2 d hmem d (List.mem_singleton_self d) rfl
    exact placement_report a.scopes a.reporter hd hnew

variable {i : Nat} {around : List Enclosure} {word message : String} {span : Span}

theorem needsLoop_adds (h : a.scopes.Lies i around)
    (hmessage : s!"'{word}' statement outside of loop" = message)
    (hd : Diagnostic.isPlacement ⟨message, span⟩ = true) :
    Adds (needsLoop i word span)
      (if Enclosure.nearest? around = some .loop then none else some ⟨message, span⟩).toList a := by
  refine Adds.unless hd ?_
  simp only [needsLoop, after_get_bind, h.inLoop, hmessage]
  by_cases hloop : Enclosure.nearest? around = some .loop <;> simp [hloop]

theorem needsFunction_adds (h : a.scopes.Lies i around)
    (hmessage : s!"'{word}' statement outside of function" = message)
    (hd : Diagnostic.isPlacement ⟨message, span⟩ = true) :
    Adds (needsFunction i word span)
      (if .function ∈ around then none else some ⟨message, span⟩).toList a := by
  refine Adds.unless hd ?_
  simp only [needsFunction, after_get_bind, h.inFunction, hmessage]
  by_cases hfunction : .function ∈ around <;> simp [hfunction]

/-! ## Names and expressions -/

theorem useVariable_placement (i : ScopeId) (n : String) (span : Span) (a : Analysis) :
    placement (after (useVariable i n span) a) = placement a := by
  simp only [useVariable, after_get_bind]
  split
  · exact placement_report_other _ _ (Diagnostic.isPlacement_eq_false (.inl (by decide)) span)
  · exact placement_report_other _ _ (Diagnostic.isPlacement_eq_false (.inr (by decide)) span)
  · rfl

theorem useFunction_placement (i : ScopeId) (callee : Name) (k : Nat) (a : Analysis) :
    placement (after (useFunction i callee k) a) = placement a := by
  simp only [useFunction, after_get_bind]
  split
  · exact placement_report_other _ _ (Diagnostic.isPlacement_eq_false (.inl (by decide)) _)
  · split
    · exact placement_report_other _ _ (Diagnostic.isPlacement_eq_false (.inr (by decide)) _)
    · rfl
  · exact placement_report_other _ _ (Diagnostic.isPlacement_eq_false (.inr (by decide)) _)

mutual

/-- Expressions have nothing to do with where statements stand. -/
theorem expr_placement (i : ScopeId) : (e : Expr) → (a : Analysis) →
    placement (after (expr i e) a) = placement a
  | ⟨.int _, _⟩, _ => rfl
  | ⟨.float _, _⟩, _ => rfl
  | ⟨.bool _, _⟩, _ => rfl
  | ⟨.string _, _⟩, _ => rfl
  | ⟨.array elements, _⟩, a => by rw [expr, exprs_placement i elements]
  | ⟨.var name, span⟩, a => by rw [expr, useVariable_placement]
  | ⟨.binary left _ right, _⟩, a => by
    rw [expr, after_bind, expr_placement i right, expr_placement i left]
  | ⟨.unary _ operand, _⟩, a => by rw [expr, expr_placement i operand]
  | ⟨.range first last, _⟩, a => by
    rw [expr, after_bind, expr_placement i last, expr_placement i first]
  | ⟨.index base index, _⟩, a => by
    rw [expr, after_bind, expr_placement i index, expr_placement i base]
  | ⟨.call callee args, _⟩, a => by
    rw [expr, after_bind, exprs_placement i args, useFunction_placement]
  | ⟨.cast _ operand, _⟩, a => by rw [expr, expr_placement i operand]

theorem exprs_placement (i : ScopeId) : (es : List Expr) → (a : Analysis) →
    placement (after (exprs i es) a) = placement a
  | [], _ => rfl
  | e :: es, a => by rw [exprs, after_bind, exprs_placement i es, expr_placement i e]

end

theorem target_placement (i : ScopeId) (t : Target) (a : Analysis) :
    placement (after (target i t) a) = placement a := by
  obtain ⟨node, span⟩ := t
  cases node with
  | name name =>
    simp only [target, assignVariable, after_get_bind]
    split <;> rfl
  | element base index =>
    simp only [target]
    split
    · rw [after_bind, after_bind, expr_placement, expr_placement, useVariable_placement]
    · rw [after_bind, expr_placement, expr_placement]

/-- A declaration is reported if it is not a global one. That its name is
declared already is another error. -/
theorem declareFunction_adds (h : a.scopes.Lies i around) (d : FunctionDecl) :
    Adds (declareFunction i d) (if around = [] then none
      else some ⟨"Function declaration outside of global scope", d.span⟩).toList a := by
  refine Adds.unless (by simp [Diagnostic.isPlacement]) ?_
  simp only [declareFunction, after_get_bind, h.isGlobal]
  by_cases hglobal : around = []
  · simp only [hglobal, decide_true, Bool.not_true, Bool.false_eq_true, ↓reduceIte, Bool.true_and,
      after_get_bind]
    split
    · exact placement_report_other _ _ (Diagnostic.isPlacement_eq_false (.inr (by decide)) _)
    · rfl
  · simp only [hglobal, decide_false, Bool.not_false, ↓reduceIte, Bool.false_and]
    rfl

end Analysis

/-! ## What statements report -/

theorem Placed.errors_cons (p : Placed) (ps : List Placed) :
    errors (p :: ps) = p.error?.toList ++ errors ps := by
  cases h : p.error? <;> simp [errors, h]

theorem Placed.errors_append (ps qs : List Placed) : errors (ps ++ qs) = errors ps ++ errors qs :=
  List.filterMap_append

theorem ScopeTree.Lies.declare {t : ScopeTree Function} {i : Nat} {around : List Enclosure}
    (h : t.Lies i around) (s : Stmt) : (s.declare i t).Lies i around := by
  rcases s.declare_eq_or i t with hd | ⟨n, v, hd⟩
  · rwa [hd]
  · rw [hd]
    exact h.insert i n v

theorem ScopeTree.Lies.bindParams {t : ScopeTree Function} {i : Nat} {around : List Enclosure}
    (h : t.Lies i around) (params : List Name) :
    (params.foldl (fun t p => t.insert i p.text none) t).Lies i around := by
  induction params generalizing t with
  | nil => exact h
  | cons p params ih => exact ih (h.insert i p.text none)

namespace Analysis

/-- A block reports the errors of all that stand in it. -/
def BlockAdds (b : Block) : Prop :=
  ∀ i (a : Analysis) around, a.scopes.Lies i around →
    Adds (block target i b) (Placed.errors (b.placed around)) a

section Blocks

variable {a : Analysis} {i : Nat} {around : List Enclosure} {b : Block} (hb : BlockAdds b)
include hb

theorem branch_adds (h : a.scopes.Lies i around) :
    Adds (within (·.addBlock i) fun inner => block target inner b)
      (Placed.errors (b.placed (.branch :: around))) a :=
  .within (hb a.scopes.size { a with scopes := a.scopes.addBlock i } _ h.branch)

theorem loop_adds (h : a.scopes.Lies i around) :
    Adds (within (·.addLoop i) fun inner => block target inner b)
      (Placed.errors (b.placed (.loop :: around))) a :=
  .within (hb a.scopes.size { a with scopes := a.scopes.addLoop i } _ h.loop)

theorem each_adds (h : a.scopes.Lies i around) (name : String) :
    Adds (within (·.addLoop i) fun outer => do
      declare outer name none
      within (·.addBlock outer) fun inner => block target inner b)
      (Placed.errors (b.placed (.loop :: around))) a := by
  refine .within (.quietly rfl (.within (hb _ _ _ ?_)))
  exact (h.loop.insert _ name none).block (List.cons_ne_nil _ _)

theorem frame_adds (params : List Name) :
    Adds (within (·.addChild i false true) fun frame => do
      declareParams frame params
      block target frame b)
      (Placed.errors (b.placed (.function :: around))) a := by
  refine .within (.quietly rfl (hb _ _ _ ?_))
  exact (ScopeTree.Lies.function a.scopes i around).bindParams params

end Blocks

mutual

/-- A statement reports the errors of all that stand in it. -/
theorem stmt_adds : (i : Nat) → (s : Stmt) → (a : Analysis) → (around : List Enclosure) →
    a.scopes.Lies i around → Adds (stmt target i s) (Placed.errors (s.placed around)) a
  | i, ⟨.expr value, _⟩, a, around, h => by
    simp only [stmt, Stmt.placed, StmtNode.placed, Placed.errors_cons]
    exact .nothing (expr_placement i value a)
  | i, ⟨.assign place value, _⟩, a, around, h => by
    simp only [stmt, Stmt.placed, StmtNode.placed, Placed.errors_cons]
    exact .nothing ((target_placement i place _).trans (expr_placement i value a))
  | i, ⟨.cond test yes none, _⟩, a, around, h => by
    simp only [stmt, Stmt.placed, StmtNode.placed, Placed.errors_cons]
    rw [← expr_scopes i test a] at h
    exact .quietly (expr_placement i test a) (branch_adds (block_adds yes) h)
  | i, ⟨.cond test yes (some no), _⟩, a, around, h => by
    simp only [stmt, Stmt.placed, StmtNode.placed, Placed.errors_cons, Placed.errors_append]
    rw [← expr_scopes i test a] at h
    refine .bind (.nothing (expr_placement i test a)) (.bind (branch_adds (block_adds yes) h) ?_)
    refine branch_adds (block_adds no) ?_
    rwa [within_scopes rfl (fun b => keep_block _ yes b (Nat.le_refl _))]
  | i, ⟨.loop e body, _⟩, a, around, h
  | i, ⟨.times e body, _⟩, a, around, h => by
    simp only [stmt, Stmt.placed, StmtNode.placed, Placed.errors_cons]
    rw [← expr_scopes i e a] at h
    exact .quietly (expr_placement i e a) (loop_adds (block_adds body) h)
  | i, ⟨.each item items body, _⟩, a, around, h => by
    simp only [stmt, Stmt.placed, StmtNode.placed, Placed.errors_cons]
    rw [← expr_scopes i items a] at h
    exact .quietly (expr_placement i items a) (each_adds (block_adds body) h item.text)
  | i, ⟨.function ⟨name, params, body, declSpan⟩, span⟩, a, around, h => by
    simp only [stmt, Stmt.placed, StmtNode.placed, Placed.errors_cons]
    exact .bind (declareFunction_adds h _) (frame_adds (block_adds body) params)
  | i, ⟨.return none, span⟩, a, around, h => by
    simp only [stmt, Stmt.placed, StmtNode.placed, Placed.errors_cons]
    rw [Placed.errors, List.filterMap_nil, List.append_nil]
    exact needsFunction_adds h (by decide) (by simp [Diagnostic.isPlacement])
  | i, ⟨.return (some value), span⟩, a, around, h => by
    simp only [stmt, Stmt.placed, StmtNode.placed, Placed.errors_cons]
    exact .bind (needsFunction_adds h (by decide) (by simp [Diagnostic.isPlacement]))
      (.nothing (expr_placement i value _))
  | i, ⟨.stop, span⟩, a, around, h
  | i, ⟨.next, span⟩, a, around, h => by
    simp only [stmt, Stmt.placed, StmtNode.placed, Placed.errors_cons]
    rw [Placed.errors, List.filterMap_nil, List.append_nil]
    exact needsLoop_adds h (by decide) (by simp [Diagnostic.isPlacement])

theorem block_adds : (b : Block) → BlockAdds b
  | ⟨statements, _⟩, i, a, around, h => by
    rw [block, Block.placed]
    exact stmts_adds i statements a around h

theorem stmts_adds : (i : Nat) → (ss : List Stmt) → (a : Analysis) →
    (around : List Enclosure) → a.scopes.Lies i around →
    Adds (stmts target i ss) (Placed.errors (Stmt.allPlaced around ss)) a
  | i, [], a, around, h => .nothing rfl
  | i, s :: ss, a, around, h => by
    rw [stmts, Stmt.allPlaced, Placed.errors_append]
    refine (stmt_adds i s a around h).bind (stmts_adds i ss _ around ?_)
    rw [stmt_scopes]
    exact h.declare s

end

end Analysis

/-! ## Errors one after the other -/

/-- Errors that lie inside the outlines, each one starting before the next. -/
structure Outline.Carries (ts : List Outline) (ds : List Diagnostic) : Prop where
  inside : ∀ d ∈ ds, d.span.start < d.span.stop ∧ ∃ t ∈ ts, t.span.Contains d.span
  increasing : ds.Pairwise fun d e => d.span.start < e.span.start

namespace Outline.Carries

variable {ts us : List Outline} {ds ds' : List Diagnostic}

theorem nil (ts : List Outline) : Carries ts [] := ⟨nofun, .nil⟩

theorem mono (h : Carries ts ds) (hsub : ts ⊆ us) : Carries us ds := by
  refine ⟨fun d hd => ?_, h.increasing⟩
  obtain ⟨hpos, t, ht, hcontains⟩ := h.inside d hd
  exact ⟨hpos, t, hsub ht, hcontains⟩

theorem node (h : Carries ts ds) {span : Span} {parts : List Outline}
    (hcontains : ∀ t ∈ ts, span.Contains t.span) : Carries [.node span parts] ds := by
  refine ⟨fun d hd => ?_, h.increasing⟩
  obtain ⟨hpos, t, ht, hin⟩ := h.inside d hd
  exact ⟨hpos, _, List.mem_singleton_self _, (hcontains t ht).trans hin⟩

theorem append (h : Carries ts ds) (h' : Carries us ds')
    (hbefore : ∀ t ∈ ts, ∀ u ∈ us, t.Before u) : Carries (ts ++ us) (ds ++ ds') := by
  refine ⟨fun d hd => ?_, List.pairwise_append.mpr ⟨h.increasing, h'.increasing, ?_⟩⟩
  · rcases List.mem_append.mp hd with hd | hd
    · exact (h.mono (List.subset_append_left ts us)).inside d hd
    · exact (h'.mono (List.subset_append_right ts us)).inside d hd
  · intro d hd e he
    obtain ⟨hpos, t, ht, hin⟩ := h.inside d hd
    obtain ⟨-, u, hu, hin'⟩ := h'.inside e he
    calc d.span.start < d.span.stop := hpos
      _ ≤ t.span.stop := hin.2
      _ ≤ u.span.start := hbefore t ht u hu
      _ ≤ e.span.start := hin'.1

/-- An error of its own, if there is one, comes before those of the parts. -/
theorem own {span : Span} {parts : List Outline} {error? : Option Diagnostic}
    (h : Carries ts ds) (herror : ∀ d, error? = some d → d.span = span)
    (hpos : span.start < span.stop) (hcontains : ∀ t ∈ ts, span.Contains t.span)
    (hstart : ∀ t ∈ ts, span.start < t.span.start) :
    Carries [.node span parts] (error?.toList ++ ds) := by
  have hparts : Carries [.node span parts] ds := h.node hcontains
  rcases error? with _ | d
  · exact hparts
  · have hd : d.span = span := herror d rfl
    refine ⟨List.forall_mem_cons.mpr ⟨?_, hparts.inside⟩, .cons (fun e he => ?_) h.increasing⟩
    · rw [hd]
      exact ⟨hpos, _, List.mem_singleton_self _, le_rfl, le_rfl⟩
    · obtain ⟨-, t, ht, hin⟩ := h.inside e he
      rw [hd]
      exact (hstart t ht).trans_le hin.1

theorem nodup (h : Carries ts ds) : ds.Nodup :=
  h.increasing.imp fun hlt heq => absurd (heq ▸ hlt) (Nat.lt_irrefl _)

end Outline.Carries

theorem Outline.Laid.inv {P : Span → Prop} {span : Span} {parts : List Outline}
    (h : (Outline.node span parts).Laid P) :
    P span ∧ (∀ t ∈ parts, span.Contains t.span) ∧ parts.Pairwise Outline.Before ∧
      ∀ t ∈ parts, t.Laid P := by
  cases h with
  | node hspan hcontains hordered hlaid => exact ⟨hspan, hcontains, hordered, hlaid⟩

/-- The place of an error is that of the declaration or the statement. -/
theorem Placed.span_of_error {node : StmtNode} {span : Span} {around : List Enclosure}
    {d : Diagnostic} (h : Placed.error? ⟨⟨node, span⟩, around⟩ = some d) :
    d.span = match node with
      | .function decl => decl.span
      | _ => span := by
  cases node with
  | stop | next | «return» | function =>
    simp only [Placed.error?] at h
    split at h <;> cases h
    rfl
  | _ => cases h

variable {P : Span → Prop}

mutual

/-- The errors of a statement that is laid out lie inside it. -/
theorem Stmt.carries (hP : Grammar.Merging P) : (s : Stmt) → (around : List Enclosure) →
    s.outline.Laid P → Outline.Carries [s.outline] (Placed.errors (s.placed around))
  | ⟨.expr value, span⟩, around, h => .nil _
  | ⟨.assign place value, span⟩, around, h => .nil _
  | ⟨.cond test yes none, span⟩, around, h => by
    simp only [Stmt.outline, StmtNode.outlines, Block.outlineOption] at h ⊢
    obtain ⟨-, hcontains, -, hlaid⟩ := h.inv
    have hyes := Block.carries hP yes (.branch :: around) (hlaid _ (by simp))
    simp only [Stmt.placed, StmtNode.placed, Placed.errors_cons]
    exact (hyes.mono (by simp)).node hcontains
  | ⟨.cond test yes (some no), span⟩, around, h => by
    simp only [Stmt.outline, StmtNode.outlines, Block.outlineOption] at h ⊢
    obtain ⟨-, hcontains, hordered, hlaid⟩ := h.inv
    have hyes := Block.carries hP yes (.branch :: around) (hlaid _ (by simp))
    have hno := Block.carries hP no (.branch :: around) (hlaid _ (by simp))
    have hboth := hyes.append hno (by simpa using (List.pairwise_cons.mp hordered).2)
    simp only [Stmt.placed, StmtNode.placed, Placed.errors_cons, Placed.errors_append]
    exact (hboth.mono (by simp)).node hcontains
  | ⟨.loop _ body, span⟩, around, h
  | ⟨.each _ _ body, span⟩, around, h
  | ⟨.times _ body, span⟩, around, h => by
    simp only [Stmt.outline, StmtNode.outlines] at h ⊢
    obtain ⟨-, hcontains, -, hlaid⟩ := h.inv
    have hbody := Block.carries hP body (.loop :: around) (hlaid _ (by simp))
    simp only [Stmt.placed, StmtNode.placed, Placed.errors_cons]
    exact (hbody.mono (by simp)).node hcontains
  | ⟨.function ⟨name, params, body, declSpan⟩, span⟩, around, h => by
    simp only [Stmt.outline, StmtNode.outlines, FunctionDecl.outline] at h ⊢
    obtain ⟨-, hdecl, -, hlaid⟩ := h.inv
    obtain ⟨hspan, hcontains, hordered, hparts⟩ := (hlaid _ (List.mem_singleton_self _)).inv
    have hbody := Block.carries hP body (.function :: around) (hparts _ (by simp))
    -- the name of the function stands before its body
    have hname := hP.pos (hparts name.outline List.mem_cons_self).holds
    have hbefore : name.outline.span.stop ≤ body.outline.span.start :=
      (List.pairwise_cons.mp hordered).1 body.outline (by simp)
    have hstart := (hcontains name.outline List.mem_cons_self).1
    simp only [Stmt.placed, StmtNode.placed, Placed.errors_cons]
    refine Outline.Carries.node (hbody.own ?_ (hP.pos hspan) ?_ ?_) hdecl
    · exact fun d hd => Placed.span_of_error hd
    · simpa using hcontains body.outline (by simp)
    · simpa using by omega
  | ⟨.return _, span⟩, around, h
  | ⟨.stop, span⟩, around, h
  | ⟨.next, span⟩, around, h => by
    simp only [Stmt.placed, StmtNode.placed, Placed.errors_cons]
    exact (Outline.Carries.nil []).own (fun d hd => Placed.span_of_error hd) (hP.pos h.holds)
      nofun nofun

theorem Block.carries (hP : Grammar.Merging P) : (b : Block) → (around : List Enclosure) →
    b.outline.Laid P → Outline.Carries [b.outline] (Placed.errors (b.placed around))
  | ⟨statements, span⟩, around, h => by
    simp only [Block.outline, Block.placed] at h ⊢
    obtain ⟨-, hcontains, hordered, hlaid⟩ := h.inv
    exact (Stmt.allCarry hP statements around hlaid hordered).node hcontains

theorem Stmt.allCarry (hP : Grammar.Merging P) : (ss : List Stmt) → (around : List Enclosure) →
    (∀ t ∈ Stmt.outlineAll ss, t.Laid P) → (Stmt.outlineAll ss).Pairwise Outline.Before →
    Outline.Carries (Stmt.outlineAll ss) (Placed.errors (Stmt.allPlaced around ss))
  | [], around, _, _ => .nil _
  | s :: ss, around, hlaid, hordered => by
    simp only [Stmt.outlineAll, Stmt.allPlaced, Placed.errors_append] at hlaid hordered ⊢
    obtain ⟨hhead, htail⟩ := List.forall_mem_cons.mp hlaid
    obtain ⟨hbefore, hordered⟩ := List.pairwise_cons.mp hordered
    exact (Stmt.carries hP s around hhead).append (Stmt.allCarry hP ss around htail hordered)
      (by simpa using hbefore)

end

/-! ## Programs -/

/-- The scopes that an analysis can start in: those of the built-in functions,
and then those that another one has left, with or without errors. -/
inductive Analysis.Known : ScopeTree Function → Prop
  | initial : Known initialScopes
  | analyzed {t : ScopeTree Function} (p : Program) : Known t → Known (p.analyze t).1

theorem Analysis.Known.lies {t : ScopeTree Function} (h : Known t) :
    t.Lies ScopeTree.globalId [] := by
  induction h with
  | initial =>
    have hempty : (ScopeTree.empty (α := Function)).Lies ScopeTree.globalId [] := ⟨rfl, rfl, rfl⟩
    exact List.foldlRecOn (motive := fun t => ScopeTree.Lies t ScopeTree.globalId [])
      Builtin.all _ hempty fun _ ht b _ => ht.insert _ b.name _
  | analyzed p _ ih =>
    rw [p.analyze_scopes, declareAll]
    exact List.foldlRecOn (motive := fun t => ScopeTree.Lies t ScopeTree.globalId [])
      p.statements _ ih fun _ ht s _ => ht.declare s

/-- Of a program that could be read, an analysis reports exactly the
statements and declarations that stand where they may not, one after the
other, and each of them once. -/
theorem analyze_reports_misplaced {source : String} {p : Program} {t : ScopeTree Function}
    (hp : parseSource source = .ok p) (ht : Analysis.Known t) :
    (p.analyze t).2.filter Diagnostic.isPlacement = p.placed.filterMap Placed.error? ∧
      (p.placed.filterMap Placed.error?).Nodup := by
  obtain ⟨lexemes, hlexed, hitems⟩ := parseSource_eq_ok_iff.mp hp
  have hmerging := merging_over source.toList
  have hfits := hitems.fits hmerging hlexed.tiled.row
  have hnodup := (Stmt.allCarry hmerging p.statements [] hfits.laid hfits.ordered).nodup
  exact ⟨Analysis.stmts_adds ScopeTree.globalId p.statements ⟨t, .empty⟩ [] ht.lies hnodup, hnodup⟩

/-- A function with a `stop` in a loop, a `return` in a branch, a function with
a `next` after a loop in another branch, and a name that is not declared. -/
theorem analyze_reports_misplaced_nested :
    let source := "while true \x7b function f() \x7b stop; return \x7d; stop \x7d\n" ++
      "if x \x7b return \x7d else \x7b function g() \x7b repeat 2 \x7b next \x7d; next \x7d \x7d"
    let errors : List Diagnostic :=
      [⟨"Function declaration outside of global scope", ⟨13, 42, 1, 14⟩⟩,
        ⟨"'stop' statement outside of loop", ⟨28, 32, 1, 29⟩⟩,
        ⟨"'return' statement outside of function", ⟨58, 64, 2, 8⟩⟩,
        ⟨"Function declaration outside of global scope", ⟨74, 114, 2, 24⟩⟩,
        ⟨"'next' statement outside of loop", ⟨108, 112, 2, 58⟩⟩]
    ∃ p, parseSource source = .ok p ∧ Analysis.Known Analysis.initialScopes ∧
      (p.analyze Analysis.initialScopes).2.filter Diagnostic.isPlacement = errors := by
  intro source errors
  obtain ⟨p, hp, herrors⟩ := exists_of_toOption_any (r := parseSource source)
    (P := (·.placed.filterMap Placed.error? = errors)) (by decide +kernel)
  refine ⟨p, hp, .initial, ?_⟩
  rw [(analyze_reports_misplaced hp .initial).1]
  exact of_decide_eq_true herrors

end Quill
