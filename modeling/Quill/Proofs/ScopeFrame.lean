-- The frame law of evaluation. An expression changes no local scope and
-- adds no global name, a block adds no name to a scope around it, and an
-- assignment or a declaration adds at most its own name to its own scope.
-- All of this holds for every tree that can be read, checked or not, and
-- however the evaluation ends.
import Mathlib
import Quill.Proofs.RunLogic
import Quill.Proofs.ScopeLookup

namespace Quill

namespace ScopeTree

variable {α : Type} {t u w : ScopeTree α} {i j p : Nat} {s : Scope α} {n : String}

/-! ## The way outwards -/

theorem reaches_of_shape (h : u.shape = t.shape) (hr : t.Reaches i j) : u.Reaches i j := by
  induction hr with
  | here i => exact .here i
  | out hs hp _ ih =>
    obtain ⟨s', hs', hp', _⟩ := get?_of_shape h hs
    exact .out hs' (by rw [hp', hp]) ih

theorem reaches_addChild_of_lt (h : t.WellFormed) {l f : Bool}
    (hr : (t.addChild p l f).Reaches i j) (hi : i < t.size) : t.Reaches i j := by
  induction hr with
  | here i => exact .here i
  | out hs hp _ ih =>
    rw [get?_addChild_of_lt _ _ _ hi] at hs
    have := h.parent_lt hs hp
    exact .out hs hp (ih (by omega))

/-- From a new scope the way leads over its parent. -/
theorem reaches_addChild_self (h : t.WellFormed) (hp : p < t.size) {l f : Bool}
    (hr : (t.addChild p l f).Reaches t.size j) : j = t.size ∨ t.Reaches p j := by
  cases hr with
  | here => exact Or.inl rfl
  | out hs hq hr =>
    rw [get?_addChild_self] at hs
    cases hs
    cases hq
    exact Or.inr (reaches_addChild_of_lt h hr hp)

theorem reaches_global (h : t.WellFormed) (hr : t.Reaches globalId j) : j = globalId := by
  cases hr with
  | here => rfl
  | out hs hp _ =>
    rw [h.global_parent hs] at hp
    cases hp

/-! ## Framed changes -/

/-- The names bound in a scope. -/
def namesIn (t : ScopeTree α) (i : ScopeId) : List String := ((t.get? i).map Scope.names).getD []

/-- The same scopes are there, only those of `grows` have new names, and
only those of `writes` have changed at all. -/
structure Framed (grows writes : Nat → Prop) (t u : ScopeTree α) : Prop where
  shape : u.shape = t.shape
  names : ∀ i, ¬ grows i → u.namesIn i = t.namesIn i
  rest : ∀ i, ¬ writes i → u.get? i = t.get? i

namespace Framed

variable {grows grows' writes writes' : Nat → Prop}

theorem refl (t : ScopeTree α) : Framed grows writes t t := ⟨rfl, fun _ _ => rfl, fun _ _ => rfl⟩

theorem trans (h : Framed grows writes t u) (h' : Framed grows writes u w) :
    Framed grows writes t w := by
  refine ⟨h'.shape.trans h.shape, ?_, ?_⟩
  · intro i hi
    rw [h'.names i hi, h.names i hi]
  · intro i hi
    rw [h'.rest i hi, h.rest i hi]

theorem mono (h : Framed grows writes t u) (hg : ∀ i, grows i → grows' i)
    (hw : ∀ i, writes i → writes' i) : Framed grows' writes' t u :=
  ⟨h.shape, fun i hi => h.names i (fun hi' => hi (hg i hi')),
    fun i hi => h.rest i (fun hi' => hi (hw i hi'))⟩

/-- A scope that is not written to has no new name either. -/
theorem of_rest (hs : u.shape = t.shape) (hr : ∀ i, ¬ writes i → u.get? i = t.get? i)
    (hn : ∀ i, writes i → ¬ grows i → u.namesIn i = t.namesIn i) : Framed grows writes t u := by
  refine ⟨hs, ?_, hr⟩
  intro i hi
  by_cases hw : writes i
  · exact hn i hw hi
  · simp only [namesIn, hr i hw]

theorem insert (t : ScopeTree α) (i : Nat) (n : String) (v : Option α) :
    Framed (· = i) (· = i) t (t.insert i n v) :=
  of_rest (shape_insert t i n v) (fun _ hj => get?_insert_of_ne n v hj)
    (fun _ hj hj' => absurd hj hj')

/-- A name that a scope binds already is not new to it. -/
theorem insert_of_binds (hs : t.get? i = some s) (hb : s.binds n = true) (v : Option α) :
    Framed (fun _ => False) (· = i) t (t.insert i n v) := by
  refine of_rest (shape_insert t i n v) (fun _ hj => get?_insert_of_ne n v hj) ?_
  rintro j rfl _
  simp [namesIn, get?_insert_self, hs, Scope.names_insert, hb]

/-- What happened in a new scope is framed by what it did to the others,
once the scope has been left. -/
theorem leave {l f : Bool} (h : Framed (· = t.size) writes' (t.addChild p l f) u)
    (hw : ∀ i < t.size, writes' i → writes i) :
    Framed (fun _ => False) writes t (u.keep t.size) := by
  have hsize : u.size = t.size + 1 := by rw [size_eq_of_shape h.shape, size_addChild]
  have hout : ∀ i, ¬ i < t.size → (u.keep t.size).get? i = none ∧ t.get? i = none := by
    intro i hi
    exact ⟨by simp [get?_keep, hi], get?_eq_none_iff.mpr (by omega)⟩
  refine ⟨shape_keep_of_addChild h.shape, ?_, ?_⟩
  · intro i _
    by_cases hi : i < t.size
    · have hn := h.names i (by omega)
      simpa only [namesIn, get?_keep_of_lt hi, get?_addChild_of_lt p l f hi] using hn
    · simp only [namesIn, hout i hi]
  · intro i hi
    by_cases hlt : i < t.size
    · rw [get?_keep_of_lt hlt, h.rest i (fun hi' => hi (hw i hlt hi')),
        get?_addChild_of_lt p l f hlt]
    · rw [(hout i hlt).1, (hout i hlt).2]

end Framed

/-- At most one name is added, and to this scope. -/
structure AddsName (i : Nat) (n : String) (t u : ScopeTree α) : Prop where
  shape : u.shape = t.shape
  others : ∀ j, j ≠ i → u.namesIn j = t.namesIn j
  own : u.namesIn i = t.namesIn i ∨ u.namesIn i = t.namesIn i ++ [n]

namespace AddsName

variable {writes : Nat → Prop}

theorem of_framed (h : Framed (fun _ => False) writes t u) : AddsName i n t u :=
  ⟨h.shape, fun j _ => h.names j id, Or.inl (h.names i id)⟩

theorem of_framed_trans (h : Framed (fun _ => False) writes t u) (h' : AddsName i n u w) :
    AddsName i n t w := by
  refine ⟨h'.shape.trans h.shape, ?_, ?_⟩
  · intro j hj
    rw [h'.others j hj, h.names j id]
  · rw [← h.names i id]
    exact h'.own

theorem insert (t : ScopeTree α) (i : Nat) (n : String) (v : Option α) :
    AddsName i n t (t.insert i n v) := by
  have hf := Framed.insert t i n v
  refine ⟨hf.shape, hf.names, ?_⟩
  simp only [namesIn, get?_insert_self]
  rcases t.get? i with _ | s
  · exact Or.inl rfl
  · simp only [Option.map_some, Option.getD_some, Scope.names_insert]
    split
    · exact Or.inl rfl
    · exact Or.inr rfl

/-- An assignment adds a name only where nothing outwards binds it. -/
theorem assign (t : ScopeTree α) (i : Nat) (n : String) (v : Option α) :
    AddsName i n t (t.insert ((t.owner? i n).getD i) n v) := by
  rcases ho : t.owner? i n with _ | o
  · exact insert t i n v
  · obtain ⟨_, s, hs, hb⟩ := ownerWithin_some ho
    exact of_framed (Framed.insert_of_binds hs hb v)

end AddsName

end ScopeTree

namespace Run

/-! ## The three frames -/

/-- The scope is there, and the tree is well formed. -/
structure State.Has (s : State) (scope : Nat) : Prop where
  wellFormed : s.scopes.WellFormed
  lt : scope < s.scopes.size

/-- The scopes that a statement can write to: the global one, and those
on its way outwards. -/
def Touched (s : State) (scope i : Nat) : Prop :=
  i = ScopeTree.globalId ∨ s.scopes.Reaches scope i

/-- What an expression may do to scopes: give global names new values. -/
def ExprFrame (s t : State) : Prop :=
  ScopeTree.Framed (fun _ => False) (· = ScopeTree.globalId) s.scopes t.scopes

/-- What a block or a loop in a scope may do: give names that are seen
from there new values. -/
def BlockFrame (scope : Nat) (s t : State) : Prop :=
  ScopeTree.Framed (fun _ => False) (Touched s scope) s.scopes t.scopes

/-- What a statement in a scope may do: the same, and bind new names in
the scope itself. -/
def StmtFrame (scope : Nat) (s t : State) : Prop :=
  ScopeTree.Framed (· = scope) (Touched s scope) s.scopes t.scopes

variable {s t : State} {scope : Nat}

theorem touched_of_shape (h : t.scopes.shape = s.scopes.shape) :
    Touched t scope = Touched s scope := by
  funext i
  simp only [Touched, eq_iff_iff]
  constructor
  · rintro (hi | hi)
    · exact Or.inl hi
    · exact Or.inr (ScopeTree.reaches_of_shape h.symm hi)
  · rintro (hi | hi)
    · exact Or.inl hi
    · exact Or.inr (ScopeTree.reaches_of_shape h hi)

theorem State.Has.of_shape (h : s.Has scope) (hs : t.scopes.shape = s.scopes.shape) :
    t.Has scope :=
  ⟨h.wellFormed.of_shape hs, by rw [ScopeTree.size_eq_of_shape hs]; exact h.lt⟩

theorem ExprFrame.refl (s : State) : ExprFrame s s := ScopeTree.Framed.refl _

theorem ExprFrame.trans ⦃a b c : State⦄ (h : ExprFrame a b) (h' : ExprFrame b c) :
    ExprFrame a c := ScopeTree.Framed.trans h h'

theorem StmtFrame.refl (s : State) : StmtFrame scope s s := ScopeTree.Framed.refl _

theorem StmtFrame.trans ⦃a b c : State⦄ (h : StmtFrame scope a b) (h' : StmtFrame scope b c) :
    StmtFrame scope a c := by
  unfold StmtFrame at *
  rw [touched_of_shape h.shape] at h'
  exact h.trans h'

theorem BlockFrame.refl (s : State) : BlockFrame scope s s := ScopeTree.Framed.refl _

theorem BlockFrame.trans ⦃a b c : State⦄ (h : BlockFrame scope a b) (h' : BlockFrame scope b c) :
    BlockFrame scope a c := by
  unfold BlockFrame at *
  rw [touched_of_shape h.shape] at h'
  exact h.trans h'

theorem ExprFrame.toBlock (h : ExprFrame s t) : BlockFrame scope s t :=
  h.mono (fun _ hi => hi) (fun _ hi => Or.inl hi)

theorem BlockFrame.toStmt (h : BlockFrame scope s t) : StmtFrame scope s t :=
  h.mono (fun _ hi => hi.elim) (fun _ hi => hi)

theorem Moves.toBlock {α : Type} {m : Run α} (h : Moves ExprFrame m s) :
    Moves (BlockFrame scope) m s := h.imp fun _ ht => ht.toBlock

theorem Moves.toStmt {α : Type} {m : Run α} (h : Moves (BlockFrame scope) m s) :
    Moves (StmtFrame scope) m s := h.imp fun _ ht => ht.toStmt

theorem ExprFrame.of_eq (h : t.scopes = s.scopes) : ExprFrame s t := by
  unfold ExprFrame
  rw [h]
  exact ScopeTree.Framed.refl _

theorem Quiet.expr {α : Type} {m : Run α} (h : Quiet m) (s : State) : Moves ExprFrame m s :=
  ExprFrame.of_eq (h s)

theorem State.Has.expr (h : s.Has scope) (ht : ExprFrame s t) : t.Has scope :=
  h.of_shape (ScopeTree.Framed.shape ht)

theorem State.Has.block {inner : Nat} (h : s.Has scope) (ht : BlockFrame inner s t) :
    t.Has scope := h.of_shape (ScopeTree.Framed.shape ht)

theorem State.Has.stmt {inner : Nat} (h : s.Has scope) (ht : StmtFrame inner s t) :
    t.Has scope := h.of_shape (ScopeTree.Framed.shape ht)

/-- From the global scope nothing but itself is reached. -/
theorem BlockFrame.global_toExpr (h : BlockFrame ScopeTree.globalId s t)
    (hs : s.scopes.WellFormed) : ExprFrame s t := by
  refine ScopeTree.Framed.mono h (fun _ hi => hi) ?_
  rintro i (hi | hi)
  · exact hi
  · exact ScopeTree.reaches_global hs hi

/-! ## Steps that write to scopes -/

/-- A name bound in the scope itself. -/
theorem insert_frame (scope : Nat) (name : String) (v : Value) (s : State) :
    StmtFrame scope s { s with scopes := s.scopes.insert scope name (some v) } :=
  (ScopeTree.Framed.insert s.scopes scope name (some v)).mono (fun _ hi => hi)
    (fun _ hi => Or.inr (hi ▸ .here _))

theorem bindName_frame (scope : Nat) (name : String) (v : Value) (s : State) :
    Moves (StmtFrame scope) (bindName scope name v) s := insert_frame scope name v s

theorem bindParams_frame (scope : Nat) (params : List Name) (args : List Value) (s : State) :
    Moves (StmtFrame scope) (Mode.plain.bindParams scope params args) s := by
  induction params generalizing args s with
  | nil => exact StmtFrame.refl s
  | cons p params ih =>
    cases args with
    | nil => exact StmtFrame.refl s
    | cons v args =>
      apply (bindName_frame scope p.text v s).bind StmtFrame.trans
      intro _ t _
      exact ih args t

theorem assign_frame (scope : Nat) (name : String) (v : Value) (s : State) :
    Moves (StmtFrame scope) (assign scope name v) s := by
  rw [moves_iff_ends, ends_assign]
  rcases ho : s.scopes.owner? scope name with _ | o
  · exact insert_frame scope name v s
  · obtain ⟨hr, sc, hsc, hb⟩ := ScopeTree.ownerWithin_some ho
    exact (ScopeTree.Framed.insert_of_binds hsc hb (some v)).mono (fun _ hi => hi.elim)
      (fun _ hi => Or.inr (hi ▸ hr))

/-- A new scope inside `scope` keeps to itself what is bound in it. -/
theorem within_frame {α : Type} {enter : ScopeTree Value → ScopeTree Value}
    {body : ScopeId → Run α} {l f : Bool} (hs : s.Has scope)
    (henter : enter s.scopes = s.scopes.addChild scope l f)
    (hbody : ∀ t : State, t.Has s.scopes.size →
      Moves (StmtFrame s.scopes.size) (body s.scopes.size) t) :
    Moves (BlockFrame scope) (Mode.plain.within enter body) s := by
  refine moves_iff_ends.mpr (ends_within.mpr ?_)
  rw [henter]
  have hin : State.Has { s with scopes := s.scopes.addChild scope l f } s.scopes.size :=
    ⟨hs.wellFormed.addChild hs.lt l f, by simp⟩
  have hleave : ∀ t, StmtFrame s.scopes.size { s with scopes := s.scopes.addChild scope l f } t →
      BlockFrame scope s (t.leave s.scopes.size) := by
    intro t ht
    refine ScopeTree.Framed.leave ht ?_
    rintro i hi (hg | hr)
    · exact Or.inl hg
    · rcases ScopeTree.reaches_addChild_self hs.wellFormed hs.lt hr with h | h
      · omega
      · exact Or.inr h
  exact (hbody _ hin).ends.mono (fun _ t ht => hleave t ht) (fun _ t ht => hleave t ht)

theorem deeper_frame {α : Type} {m : Run α} {limit : Nat} {span : Span}
    (h : Moves ExprFrame m { s with depth := s.depth + 1 }) :
    Moves ExprFrame (deeper limit span m) s := by
  rw [moves_iff_ends]
  exact Ends.deeper (ExprFrame.refl s) (h.ends.mono (fun _ _ ht => ht) (fun _ _ ht => ht))

/-! ## One level of evaluation

Each form of expression and statement keeps its frame, if everything that
is evaluated one level below it does. -/

section Level

variable {limit fuel : Nat}
  (evals : ∀ scope e s, s.Has scope → Moves ExprFrame (eval limit fuel scope e) s)
  (execs : ∀ scope st s, s.Has scope → Moves (StmtFrame scope) (exec limit fuel scope st) s)

include evals in
theorem mapM_eval_frame (es : List Expr) (hs : s.Has scope) :
    Moves ExprFrame (es.mapM (eval limit fuel scope)) s :=
  Moves.mapM ExprFrame.refl ExprFrame.trans fun e _ t ht => evals scope e t (hs.expr ht)

include execs in
theorem inOrder_exec_frame (ss : List Stmt) (hs : s.Has scope) :
    Moves (StmtFrame scope) (inOrder (exec limit fuel scope) ss) s :=
  Moves.inOrder StmtFrame.refl StmtFrame.trans fun st _ t ht => execs scope st t (hs.stmt ht)

include execs in
theorem within_exec_frame {enter : ScopeTree Value → ScopeTree Value} {l f : Bool}
    (ss : List Stmt) (hs : s.Has scope)
    (henter : enter s.scopes = s.scopes.addChild scope l f) :
    Moves (BlockFrame scope)
      (Mode.plain.within enter fun inner => inOrder (exec limit fuel inner) ss) s :=
  within_frame hs henter fun _ ht => inOrder_exec_frame execs ss ht

include evals execs in
theorem call_frame (name : Name) (args : List Expr) (span : Span) (hs : s.Has scope) :
    Moves ExprFrame (eval limit (fuel + 1) scope ⟨.call name args, span⟩) s := by
  apply ((quiet_callee scope name).expr s).bind ExprFrame.trans
  intro f t ht
  apply (mapM_eval_frame evals args (hs.expr ht)).bind ExprFrame.trans
  intro values u hu
  have hsu := (hs.expr ht).expr hu
  split
  · exact (quiet_halt _).expr u
  · rcases f.decl with _ | d
    · exact (quiet_invoke _ _ _).expr u
    · apply deeper_frame
      have hglobal : State.Has { u with depth := u.depth + 1 } ScopeTree.globalId :=
        ⟨hsu.wellFormed, hsu.wellFormed.global_lt⟩
      refine (within_frame hglobal rfl ?_).imp fun v hv => hv.global_toExpr hsu.wellFormed
      intro v hv
      apply (bindParams_frame _ d.params values v).bind StmtFrame.trans
      intro _ w hw
      apply (inOrder_exec_frame execs d.body.statements (hv.stmt hw)).bind StmtFrame.trans
      intro _ x _
      exact StmtFrame.refl x

include evals execs in
theorem eval_succ_frame (e : Expr) (hs : s.Has scope) :
    Moves ExprFrame (eval limit (fuel + 1) scope e) s := by
  obtain ⟨node, span⟩ := e
  cases node with
  | int n => exact ExprFrame.refl s
  | float x => exact ExprFrame.refl s
  | bool b => exact ExprFrame.refl s
  | string x => exact ExprFrame.refl s
  | array elements =>
    apply (mapM_eval_frame evals elements hs).bind ExprFrame.trans
    intro values t _
    exact (quiet_newArray _).expr t
  | var name => exact (quiet_variableValue scope name span).expr s
  | binary left op right =>
    apply (evals scope left s hs).bind ExprFrame.trans
    intro a t ht
    apply (evals scope right t (hs.expr ht)).bind ExprFrame.trans
    intro b u _
    exact (quiet_operation _ _ _).expr u
  | unary op operand =>
    apply (evals scope operand s hs).bind ExprFrame.trans
    intro v t _
    exact (quiet_orFail _ _ _).expr t
  | range first last =>
    apply (evals scope first s hs).bind ExprFrame.trans
    intro a t ht
    apply (evals scope last t (hs.expr ht)).bind ExprFrame.trans
    intro b u _
    exact (quiet_range a b span).expr u
  | index base index =>
    apply (evals scope base s hs).bind ExprFrame.trans
    intro v t ht
    apply (evals scope index t (hs.expr ht)).bind ExprFrame.trans
    intro i u _
    exact (quiet_subscript v i span).expr u
  | call name args => exact call_frame evals execs name args span hs
  | cast target operand =>
    apply (evals scope operand s hs).bind ExprFrame.trans
    intro v t _
    exact (quiet_operation _ _ _).expr t

include evals in
theorem assignment_frame (target : Target) (e : Expr) (span : Span) (hs : s.Has scope) :
    Moves (StmtFrame scope) (exec limit (fuel + 1) scope ⟨.assign target e, span⟩) s := by
  obtain ⟨node, targetSpan⟩ := target
  have evals' : ∀ e t, t.Has scope → Moves (StmtFrame scope) (eval limit fuel scope e) t :=
    fun e t ht => (evals scope e t ht).toBlock.toStmt
  cases node with
  | name name =>
    apply (evals' e s hs).bind StmtFrame.trans
    intro v t _
    split
    · exact StmtFrame.refl t
    · exact (assign_frame scope name v t).bind StmtFrame.trans fun _ u _ => StmtFrame.refl u
  | element base index =>
    apply (evals' e s hs).bind StmtFrame.trans
    intro v t ht
    split
    · exact StmtFrame.refl t
    · apply (evals' base t (hs.stmt ht)).bind StmtFrame.trans
      intro a u hu
      apply (evals' index u ((hs.stmt ht).stmt hu)).bind StmtFrame.trans
      intro i w _
      refine ((quiet_store a i v targetSpan).expr w).toBlock.toStmt.bind StmtFrame.trans ?_
      exact fun _ x _ => StmtFrame.refl x

/-! ## Branches and loops -/

include evals in
theorem test_frame (test : Expr) (hs : s.Has scope) :
    Moves ExprFrame (do truth (← eval limit fuel scope test) test.span) s := by
  apply (evals scope test s hs).bind ExprFrame.trans
  intro v t _
  exact (quiet_truth v test.span).expr t

include evals execs in
theorem cond_frame (test : Expr) (yes : Block) (no : Option Block) (span : Span)
    (hs : s.Has scope) :
    Moves (BlockFrame scope) (exec limit (fuel + 1) scope ⟨.cond test yes no, span⟩) s := by
  apply (evals scope test s hs).toBlock.bind BlockFrame.trans
  intro v t ht
  apply ((quiet_truth v test.span).expr t).toBlock.bind BlockFrame.trans
  intro b u hu
  have hsu := (hs.block ht).block hu
  cases b with
  | true =>
    simp only [↓reduceIte]
    exact within_exec_frame execs yes.statements hsu rfl
  | false =>
    simp only [Bool.false_eq_true, ↓reduceIte]
    cases no with
    | none => exact BlockFrame.refl u
    | some no => exact within_exec_frame execs no.statements hsu rfl

include evals execs in
theorem loop_frame (test : Expr) (body : Block) (span : Span) (hs : s.Has scope) :
    Moves (BlockFrame scope) (exec limit (fuel + 1) scope ⟨.loop test body, span⟩) s := by
  apply Moves.whileTrue BlockFrame.refl BlockFrame.trans
  · intro _ t ht
    exact (test_frame evals test (hs.block ht)).toBlock
  · intro _ t ht
    exact within_exec_frame execs body.statements (hs.block ht) rfl

include evals execs in
theorem each_frame (item : Name) (items : Expr) (body : Block) (span : Span) (hs : s.Has scope) :
    Moves (BlockFrame scope) (exec limit (fuel + 1) scope ⟨.each item items body, span⟩) s := by
  apply (evals scope items s hs).toBlock.bind BlockFrame.trans
  intro v t ht
  apply ((quiet_iterable v items.span).expr t).toBlock.bind BlockFrame.trans
  intro _ u hu
  refine within_frame ((hs.block ht).block hu) rfl ?_
  intro w hw
  apply Moves.whileTrue StmtFrame.refl StmtFrame.trans
  · intro k x _
    exact ((quiet_hasItem v k).expr x).toBlock.toStmt
  · intro k x hx
    refine ((quiet_itemOf v k items.span).expr x).toBlock.toStmt.bind StmtFrame.trans ?_
    intro value y hy
    apply (bindName_frame _ item.text value y).bind StmtFrame.trans
    intro _ z hz
    have hsz := ((hw.stmt hx).stmt hy).stmt hz
    exact (within_exec_frame execs body.statements hsz rfl).toStmt

include evals execs in
theorem times_frame (count : Expr) (body : Block) (span : Span) (hs : s.Has scope) :
    Moves (BlockFrame scope) (exec limit (fuel + 1) scope ⟨.times count body, span⟩) s := by
  apply (evals scope count s hs).toBlock.bind BlockFrame.trans
  intro v t ht
  apply ((quiet_turnCount v count.span).expr t).toBlock.bind BlockFrame.trans
  intro n u hu
  apply Moves.times BlockFrame.refl BlockFrame.trans
  intro w hw
  exact within_exec_frame execs body.statements (((hs.block ht).block hu).block hw) rfl

include evals execs in
theorem exec_succ_frame (st : Stmt) (hs : s.Has scope) :
    Moves (StmtFrame scope) (exec limit (fuel + 1) scope st) s := by
  obtain ⟨node, span⟩ := st
  cases node with
  | expr e =>
    apply (evals scope e s hs).toBlock.toStmt.bind StmtFrame.trans
    intro v t _
    exact StmtFrame.refl t
  | assign target e => exact assignment_frame evals target e span hs
  | cond test yes no => exact (cond_frame evals execs test yes no span hs).toStmt
  | loop test body => exact (loop_frame evals execs test body span hs).toStmt
  | each item items body => exact (each_frame evals execs item items body span hs).toStmt
  | times count body => exact (times_frame evals execs count body span hs).toStmt
  | function d => exact insert_frame scope d.name.text _ _
  | «return» value =>
    cases value with
    | none => exact StmtFrame.refl s
    | some e =>
      apply (evals scope e s hs).toBlock.toStmt.bind StmtFrame.trans
      intro v t _
      exact StmtFrame.refl t
  | stop => exact StmtFrame.refl s
  | next => exact StmtFrame.refl s

end Level

/-! ## Every evaluation -/

/-- Whatever is evaluated keeps its frame. The induction is on the fuel,
for expressions and statements together: a call runs statements, and they
hold expressions. -/
theorem eval_exec_frame (limit fuel : Nat) :
    (∀ scope e s, State.Has s scope → Moves ExprFrame (eval limit fuel scope e) s) ∧
      ∀ scope st s, State.Has s scope → Moves (StmtFrame scope) (exec limit fuel scope st) s := by
  induction fuel with
  | zero => exact ⟨fun _ _ s _ => ExprFrame.refl s, fun _ _ s _ => StmtFrame.refl s⟩
  | succ fuel ih =>
    exact ⟨fun _ e _ hs => eval_succ_frame ih.1 ih.2 e hs,
      fun _ st _ hs => exec_succ_frame ih.1 ih.2 st hs⟩

theorem eval_frame (limit fuel : Nat) (e : Expr) (hs : s.Has scope) :
    Moves ExprFrame (eval limit fuel scope e) s := (eval_exec_frame limit fuel).1 scope e s hs

/-- A branch or a loop. -/
def isBlock (st : Stmt) : Bool :=
  match st.node with
  | .cond _ _ _ | .loop _ _ | .each _ _ _ | .times _ _ => true
  | _ => false

theorem exec_block_frame (limit fuel : Nat) (st : Stmt) (hb : isBlock st = true)
    (hs : s.Has scope) : Moves (BlockFrame scope) (exec limit fuel scope st) s := by
  cases fuel with
  | zero => exact BlockFrame.refl s
  | succ fuel =>
    have ⟨evals, execs⟩ := eval_exec_frame limit fuel
    obtain ⟨node, span⟩ := st
    cases node with
    | cond test yes no => exact cond_frame evals execs test yes no span hs
    | loop test body => exact loop_frame evals execs test body span hs
    | each item items body => exact each_frame evals execs item items body span hs
    | times count body => exact times_frame evals execs count body span hs
    | _ => cases hb

/-! ## The state before a program -/

theorem bindBuiltins_shape (scope : ScopeId) (bs : List Builtin) (s : State) :
    Moves (fun s t => t.scopes.shape = s.scopes.shape) (bindBuiltins scope bs) s := by
  induction bs generalizing s with
  | nil => rfl
  | cons b bs ih =>
    refine Moves.bind (fun _ _ _ h h' => h'.trans h) (?_ : Moves _ (newFunction _) s) ?_
    · rfl
    · intro v t _
      refine Moves.bind (fun _ _ _ h h' => h'.trans h) (?_ : Moves _ (bindName _ _ _) t) ?_
      · exact ScopeTree.shape_insert t.scopes scope b.name (some v)
      · exact fun _ u _ => ih u

theorem initial_has (outside : Outside) : (State.initial outside).Has ScopeTree.globalId := by
  have hblank : State.Has ⟨.empty, .empty, 0, "", outside⟩ ScopeTree.globalId :=
    ⟨ScopeTree.WellFormed.empty, ScopeTree.WellFormed.empty.global_lt⟩
  exact hblank.of_shape (bindBuiltins_shape ScopeTree.globalId Builtin.all _)

/-! ## The frame law -/

/-- The name that a statement may bind in its own scope: that of an
assignment to a bare name, or of a declaration. -/
def boundName? (st : Stmt) : Option String :=
  match st.node with
  | .assign ⟨.name name, _⟩ _ => some name
  | .function d => some d.name.text
  | _ => none

/-- An assignment to a name or a declaration adds at most its own name,
and to its own scope. -/
theorem exec_addsName (limit fuel : Nat) (st : Stmt) {n : String} (hn : boundName? st = some n)
    (hs : s.Has scope) :
    Moves (fun s t => s.scopes.AddsName scope n t.scopes) (exec limit fuel scope st) s := by
  have hstay : ∀ t u : State, ExprFrame t u → t.scopes.AddsName scope n u.scopes :=
    fun _ _ hu => .of_framed hu
  cases fuel with
  | zero => exact hstay s s (ExprFrame.refl s)
  | succ fuel =>
    obtain ⟨node, span⟩ := st
    cases node with
    | assign target e =>
      obtain ⟨node, targetSpan⟩ := target
      cases node with
      | element base index => cases hn
      | name name =>
        cases hn
        rw [moves_iff_ends]
        refine ends_bind.mpr ?_
        -- the value comes first, and evaluating it adds no name at all
        apply (eval_frame limit fuel e hs).ends.mono
        · intro v t ht
          split
          · exact hstay s t ht
          · refine ends_bind.mpr (ends_assign.mpr ?_)
            exact ScopeTree.AddsName.of_framed_trans ht (.assign t.scopes scope n (some v))
        · intro _ t ht
          exact hstay s t ht
    | function d =>
      cases hn
      exact .insert s.scopes scope d.name.text _
    | _ => cases hn

/-- Evaluation keeps to its frame, however it ends. An expression changes
no local scope and adds no global name, a branch or a loop adds no name to
any scope, and an assignment to a name or a declaration adds at most that
name, and to its own scope. -/
theorem evaluation_frame (limit fuel scope : Nat) (s : State) (hs : s.Has scope) :
    (∀ e, let t := after (eval limit fuel scope e) s
      t.scopes.shape = s.scopes.shape ∧
        (∀ i, i ≠ ScopeTree.globalId → t.scopes.get? i = s.scopes.get? i) ∧
        t.scopes.namesIn ScopeTree.globalId = s.scopes.namesIn ScopeTree.globalId) ∧
    (∀ st, isBlock st = true → let t := after (exec limit fuel scope st) s
      t.scopes.shape = s.scopes.shape ∧ ∀ i, t.scopes.namesIn i = s.scopes.namesIn i) ∧
    (∀ st n, boundName? st = some n → let t := after (exec limit fuel scope st) s
      t.scopes.shape = s.scopes.shape ∧
        (∀ i, i ≠ scope → t.scopes.namesIn i = s.scopes.namesIn i) ∧
        (t.scopes.namesIn scope = s.scopes.namesIn scope ∨
          t.scopes.namesIn scope = s.scopes.namesIn scope ++ [n])) := by
  refine ⟨?_, ?_, ?_⟩
  · intro e
    have h : ExprFrame s (after (eval limit fuel scope e) s) := eval_frame limit fuel e hs
    exact ⟨h.shape, h.rest, h.names ScopeTree.globalId id⟩
  · intro st hb
    have h : BlockFrame scope s (after (exec limit fuel scope st) s) :=
      exec_block_frame limit fuel st hb hs
    exact ⟨h.shape, fun i => h.names i id⟩
  · intro st n hn
    have h := exec_addsName limit fuel st hn hs
    exact ⟨h.shape, h.others, h.own⟩

/-- In a call with a parameter `x`, an assignment to `y` adds `y` to the
scope of the call or nothing at all. -/
theorem evaluation_frame_in_call :
    ∃ s : State, s.Has 1 ∧ s.scopes.namesIn 1 = ["x"] ∧
      let t := after (exec 1 2 1 ⟨.assign ⟨.name "y", default⟩ ⟨.int 2, default⟩, default⟩) s
      t.scopes.namesIn 0 = s.scopes.namesIn 0 ∧
        (t.scopes.namesIn 1 = ["x"] ∨ t.scopes.namesIn 1 = ["x", "y"]) := by
  let start := State.initial (.replay [])
  let s : State := { start with
    scopes := (start.scopes.addChild 0 false true).insert 1 "x" (some (.int 1)) }
  have hstart := initial_has (.replay [])
  have hs : s.Has 1 :=
    ⟨(hstart.wellFormed.addChild hstart.lt false true).insert 1 "x" (some (.int 1)), by decide⟩
  have hx : s.scopes.namesIn 1 = ["x"] := by decide
  obtain ⟨_, others, own⟩ := (evaluation_frame 1 2 1 s hs).2.2
    ⟨.assign ⟨.name "y", default⟩ ⟨.int 2, default⟩, default⟩ "y" rfl
  rw [hx] at own
  exact ⟨s, hs, hx, others 0 (by decide), own⟩

end Run

end Quill
