-- Names that do not stand in a program are nothing to its analysis. Scopes
-- that differ in such names only lead to the same reports, and still differ
-- in them only afterwards.
import Mathlib
import Quill.Proofs.AnalysisEffect

namespace Quill

/-! ## Scopes that agree -/

namespace ScopeTree

variable {α : Type} {N : String → Prop} {t u : ScopeTree α} {i : Nat} {n : String}

/-- The two trees have the same scopes, and bind every name outside `N`
in the same way. -/
structure Agree (N : String → Prop) (t u : ScopeTree α) : Prop where
  shape : u.shape = t.shape
  findIn? : ∀ (i : Nat) n, ¬ N n → u.findIn? i n = t.findIn? i n

theorem Agree.size (h : Agree N t u) : u.size = t.size := size_eq_of_shape h.shape

/-- A scope is in both trees or in neither, and has the same place and
the same bindings outside `N`. -/
theorem Agree.get?_cases (h : Agree N t u) (i : Nat) :
    (t.get? i = none ∧ u.get? i = none) ∨ ∃ s s', t.get? i = some s ∧ u.get? i = some s' ∧
      s'.parent = s.parent ∧ s'.inLoop = s.inLoop ∧ s'.inFunction = s.inFunction ∧
      ∀ n, ¬ N n → s'.find? n = s.find? n := by
  rcases hs : t.get? i with _ | s
  · have hsize := get?_eq_none_iff.mp hs
    exact Or.inl ⟨rfl, get?_eq_none_iff.mpr (by rw [h.size]; exact hsize)⟩
  · obtain ⟨s', hs', hplace⟩ := get?_of_shape h.shape hs
    refine Or.inr ⟨s, s', rfl, hs', hplace.1, hplace.2.2.1, hplace.2.2.2, ?_⟩
    intro n hn
    simpa [ScopeTree.findIn?, hs, hs'] using h.findIn? i n hn

theorem Agree.isGlobal (h : Agree N t u) (i : Nat) : u.isGlobal i = t.isGlobal i := by
  rcases h.get?_cases i with ⟨ht, hu⟩ | ⟨s, s', ht, hu, hp, _⟩
  · simp [ScopeTree.isGlobal, ht, hu]
  · simp [ScopeTree.isGlobal, ht, hu, Scope.isGlobal, hp]

theorem Agree.inLoop (h : Agree N t u) (i : Nat) : u.inLoop i = t.inLoop i := by
  rcases h.get?_cases i with ⟨ht, hu⟩ | ⟨s, s', ht, hu, _, hl, _⟩
  · simp [ScopeTree.inLoop, ht, hu]
  · simp [ScopeTree.inLoop, ht, hu, hl]

theorem Agree.inFunction (h : Agree N t u) (i : Nat) : u.inFunction i = t.inFunction i := by
  rcases h.get?_cases i with ⟨ht, hu⟩ | ⟨s, s', ht, hu, _, _, hf, _⟩
  · simp [ScopeTree.inFunction, ht, hu]
  · simp [ScopeTree.inFunction, ht, hu, hf]

theorem Agree.bindsIn (h : Agree N t u) (i : Nat) (hn : ¬ N n) : u.bindsIn i n = t.bindsIn i n := by
  rcases h.get?_cases i with ⟨ht, hu⟩ | ⟨s, s', ht, hu, _, _, _, hfind⟩
  · simp [ScopeTree.bindsIn, ht, hu]
  · simp [ScopeTree.bindsIn, ht, hu, Scope.binds_eq_isSome, hfind n hn]

theorem Agree.ownerWithin (h : Agree N t u) (k i : Nat) (hn : ¬ N n) :
    u.ownerWithin n k i = t.ownerWithin n k i := by
  induction k generalizing i with
  | zero => rfl
  | succ k ih =>
    unfold ScopeTree.ownerWithin
    rcases h.get?_cases i with ⟨ht, hu⟩ | ⟨s, s', ht, hu, hp, _, _, hfind⟩
    · simp [ht, hu]
    · simp only [ht, hu, Scope.binds_eq_isSome, hfind n hn, hp, ih]

theorem Agree.binds (h : Agree N t u) (i : Nat) (hn : ¬ N n) : u.binds i n = t.binds i n := by
  simp only [binds_eq, owner?, h.ownerWithin _ _ hn]

theorem Agree.find? (h : Agree N t u) (i : Nat) (hn : ¬ N n) : u.find? i n = t.find? i n := by
  simp only [find?_eq, owner?, h.ownerWithin _ _ hn]
  rcases t.ownerWithin n (i + 1) i with _ | j
  · rfl
  · exact h.findIn? j n hn

/-! ## Steps on scopes that agree -/

theorem Agree.insert (h : Agree N t u) (i : Nat) (n : String) (v : Option α) :
    Agree N (t.insert i n v) (u.insert i n v) := by
  refine ⟨by simp [h.shape], ?_⟩
  intro j m hm
  by_cases hj : j = i
  · subst hj
    rcases h.get?_cases j with ⟨ht, hu⟩ | ⟨s, s', ht, hu, _, _, _, hfind⟩
    · simp [ScopeTree.findIn?, get?_insert_self, ht, hu]
    · by_cases hmn : m = n
      · subst hmn
        simp [ScopeTree.findIn?, get?_insert_self, ht, hu, Scope.find?_insert_self]
      · simp [ScopeTree.findIn?, get?_insert_self, ht, hu, Scope.find?_insert_of_ne _ _ hmn,
          hfind m hm]
  · simpa [ScopeTree.findIn?, get?_insert_of_ne n v hj] using h.findIn? j m hm

theorem Agree.addChild (h : Agree N t u) (p : Nat) (l f : Bool) :
    Agree N (t.addChild p l f) (u.addChild p l f) := by
  refine ⟨by rw [shape_addChild, shape_addChild, h.shape, globalOf_eq_of_shape h.shape], ?_⟩
  intro j m hm
  rcases Nat.lt_trichotomy j t.size with hj | rfl | hj
  · have hj' : j < u.size := by rw [h.size]; exact hj
    simpa [ScopeTree.findIn?, get?_addChild_of_lt p l f hj, get?_addChild_of_lt p l f hj'] using
      h.findIn? j m hm
  · have hu := get?_addChild_self u p l f
    rw [h.size] at hu
    simp [ScopeTree.findIn?, get?_addChild_self, hu, globalOf_eq_of_shape h.shape]
  · have ht : (t.addChild p l f).get? j = none :=
      get?_eq_none_iff.mpr (by rw [size_addChild]; exact hj)
    have hu : (u.addChild p l f).get? j = none :=
      get?_eq_none_iff.mpr (by rw [size_addChild, h.size]; exact hj)
    simp [ScopeTree.findIn?, ht, hu]

theorem Agree.keep (h : Agree N t u) (k : Nat) : Agree N (t.keep k) (u.keep k) := by
  refine ⟨by rw [shape_keep, shape_keep, h.shape], ?_⟩
  intro j m hm
  by_cases hj : j < k
  · simpa [ScopeTree.findIn?, get?_keep, hj] using h.findIn? j m hm
  · simp [ScopeTree.findIn?, get?_keep, hj]

end ScopeTree

/-! ## The names in a program -/

mutual

/-- Every name that stands in an expression. -/
def Expr.names : Expr → List String
  | ⟨.int _, _⟩ | ⟨.float _, _⟩ | ⟨.bool _, _⟩ | ⟨.string _, _⟩ => []
  | ⟨.array elements, _⟩ => Expr.allNames elements
  | ⟨.var name, _⟩ => [name]
  | ⟨.binary left _ right, _⟩ => left.names ++ right.names
  | ⟨.unary _ operand, _⟩ => operand.names
  | ⟨.range first last, _⟩ => first.names ++ last.names
  | ⟨.index base index, _⟩ => base.names ++ index.names
  | ⟨.call callee args, _⟩ => callee.text :: Expr.allNames args
  | ⟨.cast _ operand, _⟩ => operand.names

/-- Every name that stands in one of the expressions. -/
def Expr.allNames : List Expr → List String
  | [] => []
  | e :: es => e.names ++ Expr.allNames es

end

theorem Expr.root_mem_names : {e : Expr} → {n : Name} → e.root? = some n → n.text ∈ e.names
  | ⟨.var name, _⟩, n, h => by
    cases h
    simp [Expr.names]
  | ⟨.index base _, _⟩, n, h => by
    rw [Expr.names]
    exact List.mem_append_left _ (Expr.root_mem_names (e := base) h)

/-- Every name that stands before an arrow. -/
def Target.names (t : Target) : List String :=
  match t.node with
  | .name name => [name]
  | .element base index => base.names ++ index.names

mutual

/-- Every name that stands in a statement. -/
def Stmt.names : Stmt → List String
  | ⟨.expr value, _⟩ => value.names
  | ⟨.assign target value, _⟩ => value.names ++ target.names
  | ⟨.cond test yes none, _⟩ => test.names ++ yes.names
  | ⟨.cond test yes (some no), _⟩ => test.names ++ (yes.names ++ no.names)
  | ⟨.loop test body, _⟩ => test.names ++ body.names
  | ⟨.each item items body, _⟩ => item.text :: (items.names ++ body.names)
  | ⟨.times count body, _⟩ => count.names ++ body.names
  | ⟨.function ⟨name, params, body, _⟩, _⟩ => name.text :: (params.map (·.text) ++ body.names)
  | ⟨.return (some value), _⟩ => value.names
  | ⟨.return none, _⟩ | ⟨.stop, _⟩ | ⟨.next, _⟩ => []

/-- Every name that stands in a block. -/
def Block.names : Block → List String
  | ⟨statements, _⟩ => Stmt.allNames statements

/-- Every name that stands in one of the statements. -/
def Stmt.allNames : List Stmt → List String
  | [] => []
  | s :: ss => s.names ++ Stmt.allNames ss

end

/-- Every name that stands in a program. -/
def Program.names (p : Program) : List String := Stmt.allNames p.statements

/-! ## Analyses that agree -/

namespace Analysis

variable {N : String → Prop} {a b : Analysis}

/-- The same reports have been made, in scopes that agree. -/
structure Agree (N : String → Prop) (a b : Analysis) : Prop where
  scopes : a.scopes.Agree N b.scopes
  reporter : b.reporter = a.reporter

/-- From where analyses agree, the step leads to where they agree. -/
def Ignores (N : String → Prop) (m : Analyze Unit) : Prop :=
  ∀ a b, Agree N a b → Agree N (after m a) (after m b)

theorem Ignores.bind {m : Analyze Unit} {f : Unit → Analyze Unit} (hm : Ignores N m)
    (hf : Ignores N (f ())) : Ignores N (m >>= f) := fun a b h => hf _ _ (hm a b h)

theorem ignores_pure : Ignores N (pure ()) := fun _ _ h => h

theorem ignores_report (message : String) (span : Span) : Ignores N (report message span) :=
  fun _ _ h => ⟨h.scopes, by simp [h.reporter]⟩

theorem ignores_declare (i : Nat) (n : String) (f : Option Function) :
    Ignores N (declare i n f) := fun _ _ h => ⟨h.scopes.insert i n f, h.reporter⟩

theorem ignores_declareParams (i : Nat) (params : List Name) :
    Ignores N (declareParams i params) := by
  have hfold : ∀ t u : ScopeTree Function, t.Agree N u →
      (params.foldl (fun t p => t.insert i p.text none) t).Agree N
        (params.foldl (fun t p => t.insert i p.text none) u) := by
    induction params with
    | nil => exact fun _ _ h => h
    | cons p params ih => exact fun t u h => ih _ _ (h.insert i p.text none)
  exact fun a b h => ⟨hfold _ _ h.scopes, h.reporter⟩

/-- A new scope has the same number in both analyses. -/
theorem Ignores.within {enter : ScopeTree Function → ScopeTree Function}
    {body : ScopeId → Analyze Unit} (henter : ∀ t u, t.Agree N u → (enter t).Agree N (enter u))
    (hbody : ∀ i, Ignores N (body i)) : Ignores N (within enter body) := by
  intro a b h
  have hinner := hbody a.scopes.size _ _ (⟨henter _ _ h.scopes, h.reporter⟩ :
    Agree N { a with scopes := enter a.scopes } { b with scopes := enter b.scopes })
  rw [after_within, after_within, h.scopes.size]
  exact ⟨hinner.scopes.keep _, hinner.reporter⟩

theorem ignores_useVariable (i : Nat) {n : String} (span : Span) (hn : ¬ N n) :
    Ignores N (useVariable i n span) := by
  intro a b h
  simp only [useVariable, after_get_bind, h.scopes.find? i hn]
  split
  · exact ignores_report _ _ a b h
  · exact ignores_report _ _ a b h
  · exact h

theorem ignores_useFunction (i : Nat) (callee : Name) (k : Nat) (hn : ¬ N callee.text) :
    Ignores N (useFunction i callee k) := by
  intro a b h
  simp only [useFunction, after_get_bind, h.scopes.find? i hn]
  split
  · exact ignores_report _ _ a b h
  · split
    · exact ignores_report _ _ a b h
    · exact h
  · exact ignores_report _ _ a b h

theorem ignores_assignVariable (i : Nat) {n : String} (hn : ¬ N n) :
    Ignores N (assignVariable i n) := by
  intro a b h
  simp only [assignVariable, after_get_bind, h.scopes.binds i hn]
  split
  · exact ignores_declare i n none a b h
  · exact h

theorem ignores_needsLoop (i : Nat) (word : String) (span : Span) :
    Ignores N (needsLoop i word span) := by
  intro a b h
  simp only [needsLoop, after_get_bind, h.scopes.inLoop i]
  split
  · exact ignores_report _ _ a b h
  · exact h

theorem ignores_needsFunction (i : Nat) (word : String) (span : Span) :
    Ignores N (needsFunction i word span) := by
  intro a b h
  simp only [needsFunction, after_get_bind, h.scopes.inFunction i]
  split
  · exact ignores_report _ _ a b h
  · exact h

theorem ignores_declareFunction (i : Nat) (d : FunctionDecl) (hn : ¬ N d.name.text) :
    Ignores N (declareFunction i d) := by
  have hname : ∀ isGlobal, Ignores N (do
      if isGlobal && (← get).scopes.bindsIn i d.name.text then
        report s!"Identifier '{d.name.text}' already declared" d.name.span
      else
        declare i d.name.text (some (.ofDecl d))) := by
    intro isGlobal a b h
    simp only [after_get_bind, h.scopes.bindsIn i hn]
    split
    · exact ignores_report _ _ a b h
    · exact ignores_declare i _ _ a b h
  intro a b h
  simp only [declareFunction, after_get_bind, h.scopes.isGlobal i]
  split
  · exact (ignores_report _ _).bind (hname _) a b h
  · exact hname _ a b h

/-! ## Expressions and statements -/

mutual

theorem ignores_expr (i : Nat) : (e : Expr) → (∀ n ∈ e.names, ¬ N n) → Ignores N (expr i e)
  | ⟨.int _, _⟩, _ => ignores_pure
  | ⟨.float _, _⟩, _ => ignores_pure
  | ⟨.bool _, _⟩, _ => ignores_pure
  | ⟨.string _, _⟩, _ => ignores_pure
  | ⟨.array elements, _⟩, h => by
    rw [Expr.names] at h
    rw [expr]
    exact ignores_exprs i elements h
  | ⟨.var name, span⟩, h => by
    rw [expr]
    exact ignores_useVariable i span (h name (by simp [Expr.names]))
  | ⟨.binary left _ right, _⟩, h => by
    rw [Expr.names, List.forall_mem_append] at h
    rw [expr]
    exact (ignores_expr i left h.1).bind (ignores_expr i right h.2)
  | ⟨.unary _ operand, _⟩, h => by
    rw [Expr.names] at h
    rw [expr]
    exact ignores_expr i operand h
  | ⟨.range first last, _⟩, h => by
    rw [Expr.names, List.forall_mem_append] at h
    rw [expr]
    exact (ignores_expr i first h.1).bind (ignores_expr i last h.2)
  | ⟨.index base index, _⟩, h => by
    rw [Expr.names, List.forall_mem_append] at h
    rw [expr]
    exact (ignores_expr i base h.1).bind (ignores_expr i index h.2)
  | ⟨.call callee args, _⟩, h => by
    rw [Expr.names, List.forall_mem_cons] at h
    rw [expr]
    exact (ignores_useFunction i callee _ h.1).bind (ignores_exprs i args h.2)
  | ⟨.cast _ operand, _⟩, h => by
    rw [Expr.names] at h
    rw [expr]
    exact ignores_expr i operand h

theorem ignores_exprs (i : Nat) : (es : List Expr) → (∀ n ∈ Expr.allNames es, ¬ N n) →
    Ignores N (exprs i es)
  | [], _ => ignores_pure
  | e :: es, h => by
    rw [Expr.allNames, List.forall_mem_append] at h
    rw [exprs]
    exact (ignores_expr i e h.1).bind (ignores_exprs i es h.2)

end

theorem ignores_target (i : Nat) {t : Target} (h : ∀ n ∈ t.names, ¬ N n) :
    Ignores N (target i t) := by
  obtain ⟨node, span⟩ := t
  cases node with
  | name name => exact ignores_assignVariable i (h name (by simp [Target.names]))
  | element base index =>
    rw [Target.names, List.forall_mem_append] at h
    have hparts := (ignores_expr i base h.1).bind (f := fun _ => expr i index)
      (ignores_expr i index h.2)
    simp only [target, Target.root?]
    rcases hr : base.root? with _ | root
    · exact hparts
    · exact (ignores_useVariable i root.span (h.1 _ (Expr.root_mem_names hr))).bind hparts

theorem agree_addBlock (i : Nat) (t u : ScopeTree Function) (h : t.Agree N u) :
    (t.addBlock i).Agree N (u.addBlock i) := by
  simp only [ScopeTree.addBlock, h.inLoop i, h.inFunction i]
  exact h.addChild i _ _

theorem agree_addLoop (i : Nat) (t u : ScopeTree Function) (h : t.Agree N u) :
    (t.addLoop i).Agree N (u.addLoop i) := by
  simp only [ScopeTree.addLoop, h.inFunction i]
  exact h.addChild i _ _

mutual

/-- An analysis does not look at names that do not stand in the
statement. -/
theorem ignores_stmt : (i : Nat) → (s : Stmt) → (∀ n ∈ s.names, ¬ N n) → Ignores N (stmt target i s)
  | i, ⟨.expr value, _⟩, h => by
    rw [Stmt.names] at h
    rw [stmt]
    exact ignores_expr i value h
  | i, ⟨.assign place value, _⟩, h => by
    rw [Stmt.names, List.forall_mem_append] at h
    rw [stmt]
    exact (ignores_expr i value h.1).bind (ignores_target i h.2)
  | i, ⟨.cond test yes none, _⟩, h => by
    rw [Stmt.names, List.forall_mem_append] at h
    rw [stmt]
    exact (ignores_expr i test h.1).bind
      (Ignores.within (agree_addBlock i) fun j => ignores_block j yes h.2)
  | i, ⟨.cond test yes (some no), _⟩, h => by
    rw [Stmt.names, List.forall_mem_append, List.forall_mem_append] at h
    rw [stmt]
    exact (ignores_expr i test h.1).bind
      ((Ignores.within (agree_addBlock i) fun j => ignores_block j yes h.2.1).bind
        (Ignores.within (agree_addBlock i) fun j => ignores_block j no h.2.2))
  | i, ⟨.loop test body, _⟩, h => by
    rw [Stmt.names, List.forall_mem_append] at h
    rw [stmt]
    exact (ignores_expr i test h.1).bind
      (Ignores.within (agree_addLoop i) fun j => ignores_block j body h.2)
  | i, ⟨.each item items body, _⟩, h => by
    rw [Stmt.names, List.forall_mem_cons, List.forall_mem_append] at h
    rw [stmt]
    exact (ignores_expr i items h.2.1).bind
      (Ignores.within (agree_addLoop i) fun j => (ignores_declare j item.text none).bind
        (Ignores.within (agree_addBlock j) fun k => ignores_block k body h.2.2))
  | i, ⟨.times count body, _⟩, h => by
    rw [Stmt.names, List.forall_mem_append] at h
    rw [stmt]
    exact (ignores_expr i count h.1).bind
      (Ignores.within (agree_addLoop i) fun j => ignores_block j body h.2)
  | i, ⟨.function ⟨name, params, body, declSpan⟩, _⟩, h => by
    rw [Stmt.names, List.forall_mem_cons, List.forall_mem_append] at h
    rw [stmt]
    exact (ignores_declareFunction i ⟨name, params, body, declSpan⟩ h.1).bind
      (Ignores.within (fun _ _ ht => ht.addChild i false true) fun j =>
        (ignores_declareParams j params).bind (ignores_block j body h.2.2))
  | i, ⟨.return none, span⟩, _ => by
    rw [stmt]
    exact ignores_needsFunction i _ span
  | i, ⟨.return (some value), span⟩, h => by
    rw [Stmt.names] at h
    rw [stmt]
    exact (ignores_needsFunction i _ span).bind (ignores_expr i value h)
  | i, ⟨.stop, span⟩, _ => by
    rw [stmt]
    exact ignores_needsLoop i _ span
  | i, ⟨.next, span⟩, _ => by
    rw [stmt]
    exact ignores_needsLoop i _ span

theorem ignores_block : (i : Nat) → (b : Block) → (∀ n ∈ b.names, ¬ N n) →
    Ignores N (block target i b)
  | i, ⟨statements, _⟩, h => by
    rw [Block.names] at h
    rw [block]
    exact ignores_stmts i statements h

theorem ignores_stmts : (i : Nat) → (ss : List Stmt) → (∀ n ∈ Stmt.allNames ss, ¬ N n) →
    Ignores N (stmts target i ss)
  | _, [], _ => ignores_pure
  | i, s :: ss, h => by
    rw [Stmt.allNames, List.forall_mem_append] at h
    rw [stmts]
    exact (ignores_stmt i s h.1).bind (ignores_stmts i ss h.2)

end

end Analysis

/-- A program has the same errors in scopes that differ only in names
that do not stand in it. -/
theorem Program.analyze_agree {N : String → Prop} {p : Program} {t u : ScopeTree Function}
    (h : t.Agree N u) (hp : ∀ n ∈ p.names, ¬ N n) :
    (p.analyze t).1.Agree N (p.analyze u).1 ∧ (p.analyze u).2 = (p.analyze t).2 := by
  have hagree := Analysis.ignores_stmts ScopeTree.globalId p.statements hp ⟨t, .empty⟩ ⟨u, .empty⟩
    ⟨h, rfl⟩
  exact ⟨hagree.scopes, congrArg Reporter.kept hagree.reporter⟩

end Quill
