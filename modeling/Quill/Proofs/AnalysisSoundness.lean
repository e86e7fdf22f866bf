-- Accepted programs run safely. Where a run stands, every name that the
-- analysis knew there is seen with a value that suits it, and every
-- function that can be called has a body that fits. Each form of
-- expression and statement keeps this, and so does a whole run.
import Mathlib
import Quill.Proofs.LexedTexts
import Quill.Proofs.SafeRuns
import Quill.Proofs.ScopeFrame

namespace Quill

/-- What one site knows, the other knows as well. -/
def Site.Le (Γ Δ : Site) : Prop := ∀ n what, Γ.names n = some what → Δ.names n = some what

theorem Site.after_isGlobal (Γ : Site) (st : Stmt) : (Γ.after st).isGlobal = Γ.isGlobal := by
  unfold Site.after
  split
  · split <;> rfl
  · rfl
  · rfl

/-- A statement that fits takes nothing away from what is known. -/
theorem Site.le_after {T : String → Prop} {Γ : Site} {st : Stmt} (h : st.Fit T Γ) :
    Γ.Le (Γ.after st) := by
  obtain ⟨node, span⟩ := st
  have hbind : ∀ n what, Γ.names n = none → Γ.Le (Γ.bind n what) := by
    intro n what hn m what' hm
    by_cases hmn : m = n
    · subst hmn
      rw [hn] at hm
      cases hm
    · rw [names_bind_of_ne Γ what hmn, hm]
  cases node with
  | assign target e =>
    obtain ⟨node, targetSpan⟩ := target
    cases node with
    | element base index => exact fun _ _ hm => hm
    | name name =>
      simp only [Site.after]
      split
      · exact fun _ _ hm => hm
      · rename_i hnone
        exact hbind name none (by simpa using hnone)
  | function d =>
    obtain ⟨name, params, body, declSpan⟩ := d
    rw [Stmt.Fit] at h
    exact hbind name.text _ h.1.2
  | _ => exact fun _ _ hm => hm

theorem Site.bindAll_isGlobal (Γ : Site) (params : List Name) :
    (Γ.bindAll params).isGlobal = Γ.isGlobal := by
  unfold Site.bindAll
  induction params generalizing Γ with
  | nil => rfl
  | cons p params ih => exact ih (Γ.bind p.text none)

/-- The site without a name. -/
def Site.forget (Γ : Site) (n : String) : Site :=
  { Γ with names := Function.update Γ.names n none }

theorem Site.forget_le (Γ : Site) (n : String) : (Γ.forget n).Le Γ := by
  intro m what hm
  by_cases hmn : m = n
  · subst hmn
    simp [Site.forget] at hm
  · simpa [Site.forget, Function.update_of_ne hmn] using hm

theorem Site.forget_bind (Γ : Site) (n : String) (what : Option Function) :
    (Γ.forget n).bind n what = Γ.bind n what := by simp [Site.forget, Site.bind]

theorem Site.forget_le_bind (Γ : Site) (n : String) (what : Option Function) :
    (Γ.forget n).Le (Γ.bind n what) := by
  rw [← Γ.forget_bind n what]
  intro m what' hm
  by_cases hmn : m = n
  · subst hmn
    simp [Site.forget] at hm
  · rw [names_bind_of_ne _ what hmn, hm]

namespace Run

variable {T : String → Prop} {G Γ Δ : Site} {s t : State} {k d : Nat}

/-! ## Where a run stands -/

/-- The function is built in, or it was declared at a site that knows
no more than `G` and has a body that fits there. -/
inductive Callable (T : String → Prop) (G : Site) : Function → Prop
  | builtin (b : Builtin) : Callable T G b.toFunction
  | declared (d : FunctionDecl) (Γ : Site) :
      Γ.Le G → d.body.Fit T (Γ.frame.bindAll d.params) → Callable T G (.ofDecl d)

theorem Callable.mono {f : Function} (h : Callable T G f) (hle : G.Le Δ) : Callable T Δ f := by
  cases h with
  | builtin b => exact .builtin b
  | declared d Γ hΓ hbody => exact .declared d Γ (fun n what hn => hle n what (hΓ n what hn)) hbody

/-- Every function that the site knows can be called. -/
def Calls (T : String → Prop) (G Γ : Site) : Prop :=
  ∀ n f, Γ.names n = some (some f) → Callable T G f

theorem Calls.bind (h : Calls T G Γ) (n : String) : Calls T G (Γ.bind n none) := by
  intro m f hm
  rcases Site.names_bind_cases hm with ⟨_, hnone⟩ | ⟨_, hm⟩
  · cases hnone
  · exact h m f hm

/-- A run stands in scope `d` at the site `Γ`, with the global site `G`,
and goes on there if the first `k` scopes are kept. -/
structure Stands (T : String → Prop) (G Γ : Site) (k d : Nat) (s : State) : Prop where
  wellFormed : s.scopes.WellFormed
  le : k ≤ s.scopes.size
  lt : d < k
  heap : s.heap.Data
  globals : Models T G s.scopes ScopeTree.globalId
  here : Models T Γ s.scopes d
  calls : Calls T G Γ

theorem Stands.keep (h : Stands T G Γ k d s) (ht : Keeps T k s t) : Stands T G Γ k d t := by
  refine ⟨h.wellFormed.of_shape ht.shape, ?_, h.lt, ht.heap h.heap, ?_, h.here.keep ht h.lt,
    h.calls⟩
  · rw [ScopeTree.size_eq_of_shape ht.shape]
    exact h.le
  · exact h.globals.keep ht (Nat.lt_of_le_of_lt (Nat.zero_le d) h.lt)

theorem Stands.weaken (h : Stands T G Γ k d s) (hle : Δ.Le Γ) : Stands T G Δ k d s :=
  { h with here := h.here.weaken hle, calls := fun n f hn => h.calls n f (hle n (some f) hn) }

theorem Stands.global (h : Stands T G Γ k d s) (hG : Calls T G G) :
    Stands T G G k ScopeTree.globalId s :=
  { h with lt := Nat.lt_of_le_of_lt (Nat.zero_le d) h.lt, here := h.globals, calls := hG }

theorem Stands.deeper (h : Stands T G Γ k d s) (depth : Nat) :
    Stands T G Γ k d { s with depth := depth } :=
  ⟨h.wellFormed, h.le, h.lt, h.heap, h.globals, h.here, h.calls⟩

/-- The new scope inside `d` sees what `d` sees. -/
theorem Stands.enter (h : Stands T G Γ k d s) (l f : Bool) (hΔ : Δ.names = Γ.names) :
    Stands T G Δ (s.scopes.size + 1) s.scopes.size
      { s with scopes := s.scopes.addChild d l f } := by
  have hd : d < s.scopes.size := Nat.lt_of_lt_of_le h.lt h.le
  have hglobal := h.wellFormed.global_lt
  refine ⟨h.wellFormed.addChild hd l f, by simp, Nat.lt_succ_self _, h.heap, ?_, ?_, ?_⟩
  · intro n what hn
    obtain ⟨v, hv, hsuits⟩ := h.globals n what hn
    exact ⟨v, (ScopeTree.seen_addChild_of_lt h.wellFormed hd l f hglobal n).trans hv, hsuits⟩
  · intro n what hn
    rw [hΔ] at hn
    obtain ⟨v, hv, hsuits⟩ := h.here n what hn
    exact ⟨v, (ScopeTree.seen_addChild_self h.wellFormed hd l f n).trans hv, hsuits⟩
  · intro n g hn
    rw [hΔ] at hn
    exact h.calls n g hn

/-- A variable bound in the scope itself, which is not the global one. -/
theorem Stands.bindName (h : Stands T G Γ k d s) (hd : 0 < d) (n : String) {v : Value}
    (hv : v.IsData) :
    Stands T G (Γ.bind n none) k d { s with scopes := s.scopes.insert d n (some v) } := by
  have hlt : d < s.scopes.size := Nat.lt_of_lt_of_le h.lt h.le
  refine ⟨h.wellFormed.insert d n (some v), by simpa using h.le, h.lt, h.heap,
    h.globals.keep (Keeps.insert_above h.wellFormed (Nat.le_refl d) n v) hd,
    h.here.insert h.wellFormed hlt hv, h.calls.bind n⟩

theorem Safe.stands {α : Type} {m : Run α} {P : α → State → Prop} (hm : Safe T k m s P)
    (h : Stands T G Γ k d s) : Safe T k m s fun x t => P x t ∧ Stands T G Γ k d t :=
  Ends.imp hm fun _ _ ⟨ht, hx⟩ => ⟨ht, hx, h.keep ht⟩

theorem bindParams_safe {params : List Name} {args : List Value} (h : Stands T G Γ k d s)
    (hd : 0 < d) (hlen : args.length = params.length) (hargs : ∀ v ∈ args, v.IsData) :
    Safe T d (Mode.plain.bindParams d params args) s
      fun _ t => Stands T G (Γ.bindAll params) k d t := by
  induction params generalizing Γ s args with
  | nil => exact Safe.pure h
  | cons p params ih =>
    cases args with
    | nil => cases hlen
    | cons v args =>
      have hv := hargs v List.mem_cons_self
      refine Safe.bind (P := fun _ t => Stands T G (Γ.bind p.text none) k d t)
        ⟨Keeps.insert_above h.wellFormed (Nat.le_refl d) p.text v, h.bindName hd p.text hv⟩ ?_
      intro _ t _ ht
      exact ih ht (by simpa using hlen) fun w hw => hargs w (List.mem_cons_of_mem v hw)

/-! ## One level of evaluation

Each form of expression and statement is safe, if everything that is
evaluated one level below it is. -/

/-- No statement is a declaration of a function where none fits. -/
theorem not_function_of_fit {st : Stmt} (h : st.Fit T Γ) (hΓ : Γ.isGlobal = false) :
    ∀ decl, st.node ≠ .function decl := by
  obtain ⟨node, span⟩ := st
  rintro ⟨name, params, body, declSpan⟩ rfl
  rw [Stmt.Fit, hΓ] at h
  cases h.1.1

/-- A statement that declares no function leaves only functions that were
known before it. -/
theorem Calls.after {st : Stmt} (h : Calls T G Γ) (hst : ∀ decl, st.node ≠ .function decl) :
    Calls T G (Γ.after st) := by
  unfold Site.after
  split
  · split
    · exact h
    · exact h.bind _
  · rename_i decl hnode
    exact absurd hnode (hst decl)
  · exact h

section Level

variable {limit fuel : Nat} (hG : Calls T G G)
  (evals : ∀ {Γ k d s} e, Stands T G Γ k d s → e.Fit Γ →
    Safe T k (eval limit fuel d e) s fun v _ => v.IsData)
  (execs : ∀ {Γ k d s} st, Stands T G Γ k d s → st.Fit T Γ → (∀ decl, st.node ≠ .function decl) →
    Safe T k (exec limit fuel d st) s fun x t => x.IsData ∧ Models T (Γ.after st) t.scopes d)

include execs in
theorem inOrder_safe {ss : List Stmt} (h : Stands T G Γ k d s) (hΓ : Γ.isGlobal = false)
    (hfit : Stmt.AllFit T Γ ss) :
    Safe T k (inOrder (exec limit fuel d) ss) s fun x _ => x.IsData := by
  induction ss generalizing Γ s with
  | nil => exact Safe.pure trivial
  | cons st ss ih =>
    rw [Stmt.AllFit] at hfit
    have hst := not_function_of_fit hfit.1 hΓ
    refine Safe.bind (execs st h hfit.1 hst) ?_
    rintro x t ht ⟨hx, hmodels⟩
    cases x with
    | normal =>
      refine ih ?_ (by rw [Site.after_isGlobal, hΓ]) hfit.2
      exact { h.keep ht with here := hmodels, calls := h.calls.after hst }
    | _ => exact Safe.pure hx

include execs in
theorem block_safe {b : Block} {enter : ScopeTree Value → ScopeTree Value} {l f : Bool}
    (h : Stands T G Γ k d s) (hfit : b.Fit T Δ) (hΔ : Δ.names = Γ.names)
    (hglobal : Δ.isGlobal = false) (henter : enter s.scopes = s.scopes.addChild d l f) :
    Safe T k (Mode.plain.within enter fun inner => inOrder (exec limit fuel inner) b.statements) s
      fun x _ => x.IsData := by
  have hfit' : Stmt.AllFit T Δ b.statements := by
    obtain ⟨statements, span⟩ := b
    rwa [Block.Fit] at hfit
  have hd : d < s.scopes.size := Nat.lt_of_lt_of_le h.lt h.le
  refine Safe.within h.wellFormed h.le hd henter ?_
  have hbody := inOrder_safe execs (h.enter l f hΔ) hglobal hfit'
  exact (hbody.mono (Nat.le_succ_of_le h.le)).imp fun x t hx => hx.1

include evals in
theorem mapM_eval_safe {es : List Expr} (h : Stands T G Γ k d s) (hfit : Expr.AllFit Γ es) :
    Safe T k (es.mapM (eval limit fuel d)) s
      fun vs _ => vs.length = es.length ∧ ∀ v ∈ vs, v.IsData :=
  Safe.mapM fun e he _ ht => evals e (h.keep ht) (Expr.allFit_iff.mp hfit e he)

include hG execs in
/-- The body of a declared function, in a scope of its own with the
parameters. -/
theorem callBody_safe {decl : FunctionDecl} {values : List Value} (h : Stands T G Γ k d s)
    (hle : Δ.Le G) (hbody : decl.body.Fit T (Δ.frame.bindAll decl.params))
    (hlen : values.length = decl.params.length) (hvalues : ∀ v ∈ values, v.IsData) :
    Safe T k (Mode.plain.within (·.addChild ScopeTree.globalId false true) fun frame => do
      Mode.plain.bindParams frame decl.params values
      return returned (← inOrder (exec limit fuel frame) decl.body.statements)) s
      fun v _ => v.IsData := by
  have hfit : Stmt.AllFit T (Δ.frame.bindAll decl.params) decl.body.statements := by
    rcases hb : decl.body with ⟨statements, span⟩
    rwa [hb, Block.Fit] at hbody
  have hglobal : (Δ.frame.bindAll decl.params).isGlobal = false := Site.bindAll_isGlobal _ _
  have hpos := h.wellFormed.global_lt
  refine Safe.within h.wellFormed h.le hpos rfl ?_
  -- the scope of the call sees what the global scope sees, and that is all
  -- the site of the declaration knows
  have hframe := ((h.global hG).weaken hle).enter (Δ := Δ.frame) false true rfl
  refine Safe.bind ((bindParams_safe hframe hpos hlen hvalues).mono h.le) ?_
  rintro _ t _ ⟨ht, _⟩
  refine Safe.bind ((inOrder_safe execs ht hglobal hfit).mono (Nat.le_succ_of_le h.le)) ?_
  rintro x u _ ⟨hx, _⟩
  refine Safe.pure ?_
  cases x with
  | «return» v => exact hx
  | _ => exact Value.isData_void

include hG evals execs in
/-- A call runs the function that the analysis knew, with as many
arguments as it takes. -/
theorem call_safe {name : Name} {args : List Expr} {span : Span} (h : Stands T G Γ k d s)
    (hfit : Expr.Fit Γ ⟨.call name args, span⟩) :
    Safe T k (eval limit (fuel + 1) d ⟨.call name args, span⟩) s fun v _ => v.IsData := by
  rw [Expr.Fit] at hfit
  obtain ⟨⟨f, hname, harity⟩, hargs⟩ := hfit
  refine Safe.bind (Safe.callee h.here hname) ?_
  rintro _ t ht rfl
  refine Safe.bind (mapM_eval_safe evals (h.keep ht) hargs) ?_
  rintro values u hu ⟨hlen, hvalues⟩
  have hstands := (h.keep ht).keep hu
  simp only [hlen, harity, ne_eq, not_true_eq_false, ↓reduceIte]
  rcases h.calls name.text _ hname with b | ⟨decl, Δ, hle, hbody⟩
  · exact Safe.invoke b (hlen.trans harity.symm) name.span
  · apply Safe.deeper
    exact callBody_safe hG execs (hstands.deeper _) hle hbody (hlen.trans harity.symm) hvalues

include hG evals execs in
theorem eval_succ_safe (e : Expr) (h : Stands T G Γ k d s) (hfit : e.Fit Γ) :
    Safe T k (eval limit (fuel + 1) d e) s fun v _ => v.IsData := by
  obtain ⟨node, span⟩ := e
  cases node with
  | int n => exact Safe.pure (Value.isData_int n)
  | float x => exact Safe.pure (Value.isData_float x)
  | bool b => exact Safe.pure (Value.isData_bool b)
  | string x => exact Safe.pure (Value.isData_string x)
  | array elements =>
    rw [Expr.Fit] at hfit
    refine Safe.bind (mapM_eval_safe evals h hfit) ?_
    rintro values t _ ⟨_, hvalues⟩
    exact Safe.newArray fun v hv => hvalues v (by simpa using hv)
  | var name =>
    rw [Expr.Fit] at hfit
    exact Safe.variableValue h.here span hfit
  | binary left op right =>
    rw [Expr.Fit] at hfit
    refine Safe.bind (evals left h hfit.1) ?_
    intro a t ht _
    refine Safe.bind (evals right (h.keep ht) hfit.2) ?_
    intro b u hu _
    exact Safe.operation (Value.binary_data ((h.keep ht).keep hu).heap op a b) fun _ => trivial
  | unary op operand =>
    rw [Expr.Fit] at hfit
    refine Safe.bind (evals operand h hfit) ?_
    intro v t _ _
    exact Safe.orFail (fun x hx => Value.unary_data hx) fun _ => trivial
  | range first last =>
    rw [Expr.Fit] at hfit
    refine Safe.bind (evals first h hfit.1) ?_
    intro a t ht _
    refine Safe.bind (evals last (h.keep ht) hfit.2) ?_
    intro b u _ _
    exact Safe.range a b span
  | index base index =>
    rw [Expr.Fit] at hfit
    refine Safe.bind (evals base h hfit.1) ?_
    intro v t ht _
    refine Safe.bind (evals index (h.keep ht) hfit.2) ?_
    intro i u hu _
    exact Safe.subscript ((h.keep ht).keep hu).heap v i span
  | call name args => exact call_safe hG evals execs h hfit
  | cast target operand =>
    rw [Expr.Fit] at hfit
    refine Safe.bind (evals operand h hfit) ?_
    intro v t ht _
    exact Safe.operation (Value.cast_data (h.keep ht).heap v target) fun _ => trivial

/-! ## Assignments -/

/-- After an assignment the name is known. -/
theorem assign_safe {n : String} {v : Value} (h : Stands T G Γ k d s) (hT : T n)
    (hv : v.IsData) :
    Safe T k (assign d n v) s
      fun _ t => Models T (if (Γ.names n).isSome then Γ else Γ.bind n none) t.scopes d := by
  have hkeeps := Keeps.insert_data (k := k) h.wellFormed ((s.scopes.owner? d n).getD d) hT hv
  refine ends_assign.mpr ⟨hkeeps, ?_⟩
  split
  · exact h.here.keep hkeeps h.lt
  · exact h.here.bind
      (ScopeTree.seen_assign_self h.wellFormed (Nat.lt_of_lt_of_le h.lt h.le) n v)
      (fun m hm => ScopeTree.seen_insert_of_ne h.wellFormed _ v hm d) hv

include evals in
theorem assignment_safe {target : Target} {e : Expr} {span : Span} (h : Stands T G Γ k d s)
    (hfit : Stmt.Fit T Γ ⟨.assign target e, span⟩) :
    Safe T k (exec limit (fuel + 1) d ⟨.assign target e, span⟩) s
      fun x t => x.IsData ∧ Models T (Γ.after ⟨.assign target e, span⟩) t.scopes d := by
  rw [Stmt.Fit] at hfit
  obtain ⟨node, targetSpan⟩ := target
  cases node with
  | name name =>
    refine Safe.bind (evals e h hfit.1) ?_
    intro v t ht hv
    split
    · exact Safe.fail trivial
    · refine Safe.bind (assign_safe (h.keep ht) hfit.2 hv) ?_
      intro _ u _ hmodels
      exact Safe.pure ⟨trivial, hmodels⟩
  | element base index =>
    refine Safe.bind (evals e h hfit.1) ?_
    intro v t ht hv
    split
    · exact Safe.fail trivial
    · refine Safe.bind (evals base (h.keep ht) hfit.2.1) ?_
      intro a u hu _
      have hsu := (h.keep ht).keep hu
      refine Safe.bind (evals index hsu hfit.2.2) ?_
      intro i w hw _
      refine Safe.bind (Safe.store a i hv targetSpan) ?_
      intro _ x hx _
      exact Safe.pure ⟨trivial, ((hsu.keep hw).keep hx).here⟩

/-! ## Branches and loops -/

include evals in
theorem test_safe {test : Expr} (h : Stands T G Γ k d s) (hfit : test.Fit Γ) :
    Safe T k (do truth (← eval limit fuel d test) test.span) s fun _ _ => True := by
  refine Safe.bind (evals test h hfit) ?_
  intro v t _ _
  exact Safe.truth v test.span

include evals execs in
theorem cond_safe {test : Expr} {yes : Block} {no : Option Block} {span : Span}
    (h : Stands T G Γ k d s) (hfit : Stmt.Fit T Γ ⟨.cond test yes no, span⟩) :
    Safe T k (exec limit (fuel + 1) d ⟨.cond test yes no, span⟩) s fun x _ => x.IsData := by
  have htest : test.Fit Γ := by
    cases no <;> (rw [Stmt.Fit] at hfit; exact hfit.1)
  refine Safe.bind (evals test h htest) ?_
  intro v t ht _
  refine Safe.bind (Safe.truth v test.span) ?_
  intro b u hu _
  have hsu := (h.keep ht).keep hu
  cases no with
  | none =>
    rw [Stmt.Fit] at hfit
    cases b with
    | true =>
      simp only [↓reduceIte]
      exact block_safe execs hsu hfit.2 rfl rfl rfl
    | false => exact Safe.pure trivial
  | some no =>
    rw [Stmt.Fit] at hfit
    cases b with
    | true =>
      simp only [↓reduceIte]
      exact block_safe execs hsu hfit.2.1 rfl rfl rfl
    | false =>
      simp only [Bool.false_eq_true, ↓reduceIte]
      exact block_safe execs hsu hfit.2.2 rfl rfl rfl

include evals execs in
theorem loop_safe {test : Expr} {body : Block} {span : Span} (h : Stands T G Γ k d s)
    (hfit : Stmt.Fit T Γ ⟨.loop test body, span⟩) :
    Safe T k (exec limit (fuel + 1) d ⟨.loop test body, span⟩) s fun x _ => x.IsData := by
  rw [Stmt.Fit] at hfit
  refine Safe.whileTrue (I := Stands T G Γ k d) ?_ ?_ 0 fuel h
  · intro _ t ht
    exact ((test_safe evals ht hfit.1).stands ht).imp fun _ _ hx => hx.2
  · intro _ t ht
    exact (block_safe execs ht hfit.2 rfl rfl rfl).stands ht

include evals execs in
theorem times_safe {count : Expr} {body : Block} {span : Span} (h : Stands T G Γ k d s)
    (hfit : Stmt.Fit T Γ ⟨.times count body, span⟩) :
    Safe T k (exec limit (fuel + 1) d ⟨.times count body, span⟩) s fun x _ => x.IsData := by
  rw [Stmt.Fit] at hfit
  refine Safe.bind (evals count h hfit.1) ?_
  intro v t ht _
  refine Safe.bind (Safe.turnCount v count.span) ?_
  intro n u hu _
  refine Safe.times (I := Stands T G Γ k d) ?_ n ((h.keep ht).keep hu)
  intro w hw
  exact (block_safe execs hw hfit.2 rfl rfl rfl).stands hw

include evals execs in
theorem each_safe {item : Name} {items : Expr} {body : Block} {span : Span}
    (h : Stands T G Γ k d s) (hfit : Stmt.Fit T Γ ⟨.each item items body, span⟩) :
    Safe T k (exec limit (fuel + 1) d ⟨.each item items body, span⟩) s fun x _ => x.IsData := by
  rw [Stmt.Fit] at hfit
  refine Safe.bind (evals items h hfit.1) ?_
  intro v t ht _
  refine Safe.bind (Safe.iterable v items.span) ?_
  intro _ u hu _
  have hsu := (h.keep ht).keep hu
  have hle : k ≤ u.scopes.size + 1 := Nat.le_succ_of_le hsu.le
  refine Safe.within hsu.wellFormed hsu.le (Nat.lt_of_lt_of_le hsu.lt hsu.le) rfl ?_
  -- before a turn the variable of the loop may or may not be bound, so the
  -- invariant forgets about it
  have houter := hsu.enter (Δ := Γ.loop) true (u.scopes.inFunction d) rfl
  refine Safe.whileTrue
    (I := Stands T G (Γ.loop.forget item.text) (u.scopes.size + 1) u.scopes.size)
    ?_ ?_ 0 fuel (houter.weaken (Γ.loop.forget_le item.text))
  · exact fun _ w hw => ⟨Keeps.refl w, hw⟩
  intro j w hw
  refine Safe.bind (Safe.mono (Safe.subscript hw.heap v _ items.span) hle) ?_
  rintro value x _ ⟨hvalue, hx⟩
  have hbind := (hw.keep hx).bindName hsu.wellFormed.global_lt item.text hvalue
  rw [Site.forget_bind] at hbind
  refine Safe.bind (P := fun _ y => Stands T G (Γ.loop.bind item.text none) (u.scopes.size + 1)
    u.scopes.size y) ⟨Keeps.insert_above (hw.keep hx).wellFormed hsu.le _ _, hbind⟩ ?_
  intro _ y _ hy
  refine (Safe.mono (block_safe execs hy hfit.2 rfl rfl rfl) hle).imp ?_
  rintro signal z ⟨hsignal, hz⟩
  exact ⟨hsignal, (hy.keep hz).weaken (Γ.loop.forget_le_bind item.text none)⟩

include evals execs in
theorem exec_succ_safe (st : Stmt) (h : Stands T G Γ k d s) (hfit : st.Fit T Γ)
    (hst : ∀ decl, st.node ≠ .function decl) :
    Safe T k (exec limit (fuel + 1) d st) s
      fun x t => x.IsData ∧ Models T (Γ.after st) t.scopes d := by
  -- all but assignments leave the site as it is
  have hstay : ∀ {m : Run Signal}, Safe T k m s (fun x _ => x.IsData) →
      Safe T k m s fun x t => x.IsData ∧ Models T Γ t.scopes d :=
    fun hm => (hm.stands h).imp fun _ _ hx => ⟨hx.1, hx.2.here⟩
  obtain ⟨node, span⟩ := st
  cases node with
  | expr e =>
    rw [Stmt.Fit] at hfit
    exact hstay (Safe.bind (evals e h hfit) fun v t _ _ => Safe.pure trivial)
  | assign target e => exact assignment_safe evals h hfit
  | cond test yes no => exact hstay (cond_safe evals execs h hfit)
  | loop test body => exact hstay (loop_safe evals execs h hfit)
  | each item items body => exact hstay (each_safe evals execs h hfit)
  | times count body => exact hstay (times_safe evals execs h hfit)
  | function decl => exact absurd rfl (hst decl)
  | «return» value =>
    cases value with
    | none => exact hstay (Safe.pure Value.isData_void)
    | some e =>
      rw [Stmt.Fit] at hfit
      exact hstay (Safe.bind (evals e h hfit.2) fun v t _ hv => Safe.pure hv)
  | stop => exact hstay (Safe.pure trivial)
  | next => exact hstay (Safe.pure trivial)

end Level

/-! ## Every evaluation -/

/-- What fits is safe. The induction is on the fuel, for expressions and
statements together. -/
theorem eval_exec_safe (hG : Calls T G G) (limit fuel : Nat) :
    (∀ {Γ k d s} e, Stands T G Γ k d s → e.Fit Γ →
      Safe T k (eval limit fuel d e) s fun v _ => v.IsData) ∧
    ∀ {Γ k d s} st, Stands T G Γ k d s → st.Fit T Γ → (∀ decl, st.node ≠ .function decl) →
      Safe T k (exec limit fuel d st) s
        fun x t => x.IsData ∧ Models T (Γ.after st) t.scopes d := by
  induction fuel with
  | zero => exact ⟨fun _ _ _ => trivial, fun _ _ _ _ => trivial⟩
  | succ fuel ih =>
    exact ⟨fun e h hfit => eval_succ_safe hG ih.1 ih.2 e h hfit,
      fun st h hfit hst => exec_succ_safe ih.1 ih.2 st h hfit hst⟩

/-! ## Whole runs -/

/-- A declaration at the top level makes a function that can be called. -/
theorem function_stands {decl : FunctionDecl} {span : Span} (id : Nat)
    (h : Stands T G G s.scopes.size ScopeTree.globalId s)
    (hfit : Stmt.Fit T G ⟨.function decl, span⟩) :
    let G' := G.after ⟨.function decl, span⟩
    Stands T G' G' s.scopes.size ScopeTree.globalId { s with
      heap := s.heap.countFunction
      scopes := s.scopes.insert ScopeTree.globalId decl.name.text
        (some (.function (.ofDecl decl) id)) } := by
  have hle := Site.le_after hfit
  have hsuits : Suits T decl.name.text (some (.ofDecl decl)) (.function (.ofDecl decl) id) :=
    Or.inl ⟨id, rfl⟩
  have hmodels := h.here.insert h.wellFormed h.lt hsuits
  refine ⟨h.wellFormed.insert _ _ _, by simp, h.lt, h.heap, hmodels, hmodels, ?_⟩
  intro n f hn
  rcases Site.names_bind_cases hn with ⟨_, hf⟩ | ⟨_, hn⟩
  · cases hf
    obtain ⟨name, params, body, declSpan⟩ := decl
    rw [Stmt.Fit] at hfit
    exact .declared _ _ (fun _ _ hm => hm) hfit.2
  · exact (h.calls n f hn).mono hle

/-- A statement at the top level that fits halts as it may, or leads to
where the next one stands. -/
theorem exec_stands (limit fuel : Nat) {st : Stmt}
    (h : Stands T G G s.scopes.size ScopeTree.globalId s) (hfit : st.Fit T G) :
    Ends (exec limit fuel ScopeTree.globalId st) s
      (fun _ t => Stands T (G.after st) (G.after st) t.scopes.size ScopeTree.globalId t)
      (fun e _ => e.Allowed T) := by
  by_cases hst : ∀ decl, st.node ≠ .function decl
  · refine Ends.imp ((eval_exec_safe h.calls limit fuel).2 st h hfit hst) ?_
    rintro x t ⟨ht, _, hmodels⟩
    have hstands := h.keep ht
    refine ⟨hstands.wellFormed, Nat.le_refl _, hstands.wellFormed.global_lt, hstands.heap,
      hmodels, hmodels, ?_⟩
    intro n f hn
    exact (h.calls.after hst n f hn).mono (Site.le_after hfit)
  · push Not at hst
    obtain ⟨decl, hdecl⟩ := hst
    obtain ⟨node, span⟩ := st
    obtain rfl : node = .function decl := hdecl
    cases fuel with
    | zero => trivial
    | succ fuel =>
      have hstands := function_stands s.heap.functions h hfit
      rw [← ScopeTree.size_insert s.scopes ScopeTree.globalId decl.name.text
        (some (.function (.ofDecl decl) s.heap.functions))] at hstands
      exact hstands

/-- Statements at the top level that fit halt as they may. -/
theorem topLevel_allowed (limit fuel : Nat) {ss : List Stmt}
    (h : Stands T G G s.scopes.size ScopeTree.globalId s) (hfit : Stmt.AllFit T G ss) :
    Ends (topLevel limit fuel ss) s (fun _ _ => True) (fun e _ => e.Allowed T) := by
  induction ss generalizing G s with
  | nil => trivial
  | cons st ss ih =>
    rw [Stmt.AllFit] at hfit
    exact (exec_stands limit fuel h hfit.1).bind fun _ t ht => ih ht hfit.2

/-! ## The state before a program -/

/-- Known scopes with built-in functions in the global one. -/
def withBuiltins (bs : List Builtin) (t : ScopeTree Function) : ScopeTree Function :=
  bs.foldl (fun t b => t.insert ScopeTree.globalId b.name (some b.toFunction)) t

theorem withBuiltins_calls {bs : List Builtin} {t : ScopeTree Function} (ht : t.WellFormed)
    (h : ∀ n f, (t.site ScopeTree.globalId).names n = some (some f) →
      ∃ b : Builtin, f = b.toFunction) {n : String} {f : Function}
    (hn : ((withBuiltins bs t).site ScopeTree.globalId).names n = some (some f)) :
    ∃ b : Builtin, f = b.toFunction := by
  induction bs generalizing t with
  | nil => exact h n f hn
  | cons b bs ih =>
    let u := t.insert ScopeTree.globalId b.name (some b.toFunction)
    refine ih (t := u) (ht.insert _ _ _) ?_ hn
    intro m g hm
    have hsite : u.site ScopeTree.globalId =
        (t.site ScopeTree.globalId).bind b.name (some b.toFunction) :=
      ScopeTree.site_insert_self ht ht.global_lt _ _
    rw [hsite] at hm
    rcases Site.names_bind_cases hm with ⟨_, hg⟩ | ⟨_, hm⟩
    · cases hg
      exact ⟨b, rfl⟩
    · exact h m g hm

/-- The built-in functions are bound where the analysis knows them. -/
theorem bindBuiltins_models (bs : List Builtin) {tree : ScopeTree Function}
    (htree : tree.WellFormed) (hs : s.scopes.WellFormed) (hh : s.heap.Data)
    (hm : Models T (tree.site ScopeTree.globalId) s.scopes ScopeTree.globalId) :
    let u := after (bindBuiltins ScopeTree.globalId bs) s
    u.heap.Data ∧
      Models T ((withBuiltins bs tree).site ScopeTree.globalId) u.scopes ScopeTree.globalId := by
  induction bs generalizing s tree with
  | nil => exact ⟨hh, hm⟩
  | cons b bs ih =>
    let v : Value := .function b.toFunction s.heap.functions
    have hsite : (tree.insert ScopeTree.globalId b.name (some b.toFunction)).site
        ScopeTree.globalId = _ := ScopeTree.site_insert_self htree htree.global_lt _ _
    refine ih (s := { s with
      heap := s.heap.countFunction
      scopes := s.scopes.insert ScopeTree.globalId b.name (some v) })
      (htree.insert ScopeTree.globalId b.name (some b.toFunction)) (hs.insert _ _ _) hh ?_
    rw [hsite]
    exact hm.insert hs hs.global_lt (Or.inl ⟨_, rfl⟩)

/-- In the beginning nothing is known. -/
theorem empty_site_names (n : String) :
    ((ScopeTree.empty : ScopeTree Function).site ScopeTree.globalId).names n = none := rfl

theorem initial_stands (T : String → Prop) (outside : Outside) :
    let G := Analysis.initialScopes.site ScopeTree.globalId
    let s := State.initial outside
    Stands T G G s.scopes.size ScopeTree.globalId s := by
  have hs := initial_has outside
  have hbound := bindBuiltins_models (T := T) (s := ⟨.empty, .empty, 0, "", outside⟩) Builtin.all
    ScopeTree.WellFormed.empty ScopeTree.WellFormed.empty AllData.empty (by
      intro n what hn
      rw [empty_site_names] at hn
      cases hn)
  refine ⟨hs.wellFormed, Nat.le_refl _, hs.lt, hbound.1, hbound.2, hbound.2, ?_⟩
  intro n f hn
  obtain ⟨b, rfl⟩ := withBuiltins_calls ScopeTree.WellFormed.empty (by
    intro m g hm
    rw [empty_site_names] at hm
    cases hm) hn
  exact .builtin b

end Run

/-- The run of an accepted program halts only as it may, whatever names
pass the test, as long as those do that the program assigns to. -/
theorem Program.run_allowed {T : String → Prop} {source : String} {p : Program}
    (hp : (compile source Analysis.initialScopes).2 = .ok p) (hT : ∀ n ∈ p.assigned, T n)
    (limit fuel : Nat) (outside : Outside) :
    Run.Ends (p.run limit fuel) (.initial outside) (fun _ _ => True)
      (fun e _ => e.Allowed T) := by
  have hfit := Program.fit_of_compile Analysis.initialScopes_wellFormed hp
  have hfit' := (Stmt.allFit_iff_assigned T p.statements _).mpr ⟨hfit, hT⟩
  exact Run.topLevel_allowed limit fuel (Run.initial_stands T outside) hfit'

/-- A source that is accepted gives a program, and what holds of it can be
computed. -/
theorem exists_of_compile (source : String) (t : ScopeTree Function) (P : Program → Bool)
    (h : (compile source t).2.toOption.any P = true) :
    ∃ p, (compile source t).2 = .ok p ∧ P p = true :=
  exists_of_toOption_any h

/-! ## Errors about names -/

/-- The kinds of errors that a run may end with, and the one error about
functions among them. -/
theorem Run.Halt.Allowed.kind {T : String → Prop} {f : Fatal}
    (h : Run.Halt.Allowed T (.fatal f)) :
    f.fault.kind ≠ .undeclared ∧ f.fault.kind ≠ .arity ∧
      (f.fault.kind = .notCallable → ∃ n, T n ∧ f.fault = .notFunction n) := by
  obtain ⟨fault, span⟩ := f
  cases fault with
  | undeclared n => exact h.elim
  | isFunction n => exact h.elim
  | arity n => exact h.elim
  | notFunction n => exact ⟨nofun, nofun, fun _ => ⟨n, h, rfl⟩⟩
  | binary op left right error => cases error <;> exact ⟨nofun, nofun, nofun⟩
  | unary op operand error => cases error <;> exact ⟨nofun, nofun, nofun⟩
  | _ => exact ⟨nofun, nofun, nofun⟩

theorem Fault.notFunction_message (n : String) :
    (Fault.notFunction n).message.toList =
      "Identifier '".toList ++ (n.toList ++ "' is not a function".toList) := by
  rw [← List.append_assoc, ← String.toList_append, ← String.toList_append]
  rfl

/-- The two messages about functions differ, whatever the names are. -/
theorem Fault.notFunction_message_ne (m n : String) :
    (Fault.notFunction m).message ≠ s!"Identifier '{n}' is a function" := by
  intro h
  have hn : s!"Identifier '{n}' is a function".toList =
      "Identifier '".toList ++ (n.toList ++ "' is a function".toList) := by
    rw [← List.append_assoc, ← String.toList_append, ← String.toList_append]
    rfl
  have hchars := congrArg String.toList h
  rw [notFunction_message, hn] at hchars
  rcases List.append_eq_append_iff.mp (List.append_cancel_left hchars) with ⟨c, _, hc⟩ | ⟨c, _, hc⟩
  · exact absurd (hc ▸ List.suffix_append c _) (by decide +kernel)
  · exact absurd (hc ▸ List.suffix_append c _) (by decide +kernel)

theorem Fault.notFunction_message_inj {m n : String}
    (h : (Fault.notFunction m).message = (Fault.notFunction n).message) : m = n := by
  have hchars := congrArg String.toList h
  rw [notFunction_message, notFunction_message] at hchars
  exact String.toList_inj.mp (List.append_cancel_right (List.append_cancel_left hchars))

/-- The run of an accepted program never meets an unknown name, a call
with the wrong number of arguments, or a function in the place of a
variable. -/
theorem accepted_run_knows_its_names {source : String} {p : Program}
    (hp : (compile source Analysis.initialScopes).2 = .ok p) (limit fuel : Nat)
    (outside : Outside) {f : Fatal}
    (hf : Run.fatal? (p.run limit fuel) (.initial outside) = some f) :
    f.fault.kind ≠ .undeclared ∧ f.fault.kind ≠ .arity ∧
      ∀ n : String, ¬ (f.fault.kind = .notCallable ∧
        f.fault.message = s!"Identifier '{n}' is a function") := by
  obtain ⟨_, hallowed⟩ :=
    (p.run_allowed (T := fun _ => True) hp (fun _ _ => trivial) limit fuel outside).fatal hf
  obtain ⟨hundeclared, harity, hcall⟩ := hallowed.kind
  refine ⟨hundeclared, harity, ?_⟩
  rintro n ⟨hkind, hmessage⟩
  obtain ⟨m, _, hm⟩ := hcall hkind
  rw [hm] at hmessage
  exact Fault.notFunction_message_ne m n hmessage

/-- A division by zero in a call inside other calls. -/
theorem accepted_run_knows_its_names_divided :
    let source := "function half(n) \x7b return 10 / n \x7d\n" ++
      "function down(n) \x7b if n = 0 \x7b return half(n) \x7d return down(n - 1) \x7d\n" ++
      "output(down(2))"
    ∃ p f, (compile source Analysis.initialScopes).2 = .ok p ∧
      Run.fatal? (p.run 10 20) (.initial (.replay [])) = some f ∧
      f.fault.kind ≠ .undeclared ∧ f.fault.kind ≠ .arity ∧
      ∀ n : String, ¬ (f.fault.kind = .notCallable ∧
        f.fault.message = s!"Identifier '{n}' is a function") := by
  intro source
  obtain ⟨p, hp, hrun⟩ := exists_of_compile source Analysis.initialScopes
    (fun p => (Run.fatal? (p.run 10 20) (.initial (.replay []))).isSome) (by decide +kernel)
  obtain ⟨f, hf⟩ := Option.isSome_iff_exists.mp hrun
  exact ⟨p, f, hp, hf, accepted_run_knows_its_names hp 10 20 _ hf⟩

/-- A function that the program assigns to is no function afterwards, and
calling it ends the run. -/
theorem overwritten_function_is_not_callable :
    let source := "function f() \x7b return 1 \x7d\nf <- 2\nf()"
    ∃ p f, (compile source Analysis.initialScopes).2 = .ok p ∧
      Run.fatal? (p.run 10 20) (.initial (.replay [])) = some f ∧
      f.fault.kind = .notCallable ∧ f.fault.message = "Identifier 'f' is not a function" := by
  intro source
  obtain ⟨p, hp, hrun⟩ := exists_of_compile source Analysis.initialScopes
    (fun p => (Run.fatal? (p.run 10 20) (.initial (.replay []))).any fun f =>
      f.fault.kind = .notCallable ∧ f.fault.message = "Identifier 'f' is not a function")
    (by decide +kernel)
  obtain ⟨f, hf, hfault⟩ := (Option.any_eq_true _ _).mp hrun
  exact ⟨p, f, hp, hf, of_decide_eq_true hfault⟩

/-- The run of an accepted program never calls a variable by a name that
no assignment in the program is to. -/
theorem unassigned_name_stays_callable {source : String} {p : Program}
    (hp : (compile source Analysis.initialScopes).2 = .ok p) {n : String} (hn : n ∉ p.assigned)
    (limit fuel : Nat) (outside : Outside) {f : Fatal}
    (hf : Run.fatal? (p.run limit fuel) (.initial outside) = some f) :
    ¬ (f.fault.kind = .notCallable ∧
      f.fault.message = s!"Identifier '{n}' is not a function") := by
  obtain ⟨_, hallowed⟩ :=
    (p.run_allowed (T := (· ∈ p.assigned)) hp (fun _ hm => hm) limit fuel outside).fatal hf
  rintro ⟨hkind, hmessage⟩
  obtain ⟨m, hassigned, hm⟩ := hallowed.kind.2.2 hkind
  rw [hm] at hmessage
  obtain rfl := Fault.notFunction_message_inj hmessage
  exact hn hassigned

/-- The parameter and the results have names of their own, and only those
are assigned to. -/
theorem unassigned_name_stays_callable_divided :
    let source := "function f(x) \x7b y <- x return y / 0 \x7d\nz <- f(1)"
    let n := "f"
    ∃ p f, (compile source Analysis.initialScopes).2 = .ok p ∧ n ∉ p.assigned ∧
      Run.fatal? (p.run 10 20) (.initial (.replay [])) = some f ∧
      ¬ (f.fault.kind = .notCallable ∧
        f.fault.message = s!"Identifier '{n}' is not a function") := by
  intro source n
  obtain ⟨p, hp, hrun⟩ := exists_of_compile source Analysis.initialScopes
    (fun p => n ∉ p.assigned && (Run.fatal? (p.run 10 20) (.initial (.replay []))).isSome)
    (by decide +kernel)
  obtain ⟨hn, hsome⟩ := (Bool.and_eq_true _ _).mp hrun
  obtain ⟨f, hf⟩ := Option.isSome_iff_exists.mp hsome
  have hn : n ∉ p.assigned := of_decide_eq_true hn
  exact ⟨p, f, hp, hn, hf, unassigned_name_stays_callable hp hn 10 20 _ hf⟩

end Quill
