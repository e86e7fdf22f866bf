-- Runs with open endings. What a call makes of the signal that its body
-- gives, and what a program makes of the signals of its statements, is left
-- open here. An accepted program runs in the same way whatever is made of a
-- signal that has no loop or no function to leave, so no run gives one.
import Mathlib
import Quill.Proofs.LexedTexts
import Quill.Proofs.RecordedRuns
import Quill.Proofs.Signals

namespace Quill

namespace Run

/-! ## Open endings -/

/-- What is made of the signal of a body, and of that of a statement at the
top level. -/
structure Endings where
  body : FunctionDecl → Signal → Run Value
  top : Stmt → Signal → Run Unit

namespace Endings

/-- A call has the value that was returned, or none, and a program drops
the signals of its statements. -/
def plain : Endings := ⟨Mode.plain.body, Mode.plain.top⟩

/-- A run with open endings. -/
def mode (w : Endings) : Mode Run := { Mode.plain with body := w.body, top := w.top }

/-- A body that ends or returns and a statement that ends are treated as
they should be. Of other signals anything may be made. -/
structure Regular (w : Endings) : Prop where
  ends : ∀ d, w.body d .normal = pure .void
  returns : ∀ d v, w.body d (.return v) = pure v
  top : ∀ st, w.top st .normal = pure ()

/-- Where a signal has nothing to leave, the run ends. -/
def strict : Endings where
  body _
    | .normal => pure .void
    | .return v => pure v
    | _ => throw .outOfFuel
  top _
    | .normal => pure ()
    | _ => throw .outOfFuel

theorem strict_regular : strict.Regular := ⟨fun _ => rfl, fun _ _ => rfl, fun _ => rfl⟩

end Endings

/-! ## Steady states -/

/-- The body lies in no loop, so no signal of one leaves it. -/
def Tame (d : FunctionDecl) : Prop :=
  ∃ Γ : Site, Γ.inLoop = false ∧ d.body.Fit (fun _ => True) Γ

/-- A function that fits where it is declared is tame: its body starts
outside all loops. -/
theorem tame_of_fit {Γ : Site} {d : FunctionDecl} {span : Span}
    (hfit : Stmt.Fit (fun _ => True) Γ ⟨.function d, span⟩) : Tame d := by
  obtain ⟨name, params, body, declSpan⟩ := d
  rw [Stmt.Fit] at hfit
  exact ⟨_, Site.bindAll_inLoop _ params, hfit.2⟩

/-- The body of a tame function ends normally or returns. -/
theorem Tame.yields {d : FunctionDecl} (hd : Tame d) (limit fuel : Nat) (frame : ScopeId) :
    Yields (inOrder (exec limit fuel frame) d.body.statements)
      fun x => x = .normal ∨ ∃ v, x = .return v := by
  obtain ⟨Γ, hloop, hfit⟩ := hd
  have hallowed := inOrder_allowed (fun st hst => exec_allowed limit fuel _ hst)
    hfit.statements frame
  rw [hloop] at hallowed
  refine fun s => (hallowed s).imp fun x _ hx => ?_
  cases x with
  | normal => exact .inl rfl
  | «return» v => exact .inr ⟨v, rfl⟩
  | stop => cases hx
  | next => cases hx

/-- Every function that is bound anywhere and was declared is tame. -/
structure Steady (s : State) : Prop extends s.Grounded where
  tame : ∀ i n f d, s.scopes.functionIn? i n = some f → f.decl = some d → Tame d

/-- Events keep states steady, if only tame functions are declared. -/
theorem Law.steady {limit : Nat} {s t : State} {event : Event} (h : Law limit s event t)
    (hevent : ∀ scope d, event = .declared scope d → Tame d) (hs : Steady s) : Steady t := by
  refine ⟨h.grounded hs.toGrounded, fun i n f d hf hd => ?_⟩
  cases h with
  | assigned hv _ | parameter hv _ | item hv _ =>
    rcases ScopeTree.functionIn?_insert_cases hf with ⟨-, id, rfl⟩ | hf
    · exact absurd rfl hv
    · exact hs.tame i n f d hf hd
  | declared =>
    rcases ScopeTree.functionIn?_insert_cases hf with ⟨-, id, hid⟩ | hf
    · cases hid
      cases hd
      exact hevent _ _ rfl
    · exact hs.tame i n f d hf hd
  | entered => exact hs.tame i n f d (ScopeTree.functionIn?_of_addChild hf) hd
  | left => exact hs.tame i n f d (ScopeTree.functionIn?_of_keep hf) hd
  | _ => exact hs.tame i n f d hf hd

/-- In the beginning only built-in functions are bound. -/
theorem initial_steady (outside : Outside) : Steady (State.initial outside) := by
  refine ⟨initial_grounded outside, ?_⟩
  have hbound : ∀ bs s, (∀ i n f d, s.scopes.functionIn? i n = some f → f.decl = some d → Tame d) →
      ∀ i n f d, (after (bindBuiltins ScopeTree.globalId bs) s).scopes.functionIn? i n = some f →
        f.decl = some d → Tame d := by
    intro bs
    induction bs with
    | nil => exact fun _ hs => hs
    | cons b bs ih =>
      intro s hs
      refine ih { s with
        heap := s.heap.countFunction
        scopes := s.scopes.insert ScopeTree.globalId b.name
          (some (.function b.toFunction s.heap.functions)) } ?_
      intro i n f d hf hd
      rcases ScopeTree.functionIn?_insert_cases hf with ⟨-, id, hid⟩ | hf
      · cases hid
        cases hd
      · exact hs i n f d hf hd
  refine hbound Builtin.all ⟨.empty, .empty, 0, "", outside⟩ ?_
  intro i n f d hf
  rcases i with _ | i
  · cases hf
  · simp [ScopeTree.functionIn?, ScopeTree.findIn?, ScopeTree.get?, ScopeTree.empty] at hf

/-! ## Steps that agree -/

/-- From a steady state both steps do the same, and what they lead to is
steady and has the property. -/
def Agree {α : Type} (m' m : Run α) (P : α → Prop) : Prop :=
  ∀ s, Steady s → m' s = m s ∧ Ends m s (fun x t => P x ∧ Steady t) (fun _ _ => True)

namespace Agree

variable {α β : Type} {w : Endings} {m m' : Run α} {P : α → Prop} {Q : β → Prop}

theorem pure {x : α} (h : P x) : Agree (pure x) (pure x) P := fun _ hs => ⟨rfl, h, hs⟩

theorem halt (e : Halt) : Agree (throw e : Run α) (throw e) P := fun _ _ => ⟨rfl, trivial⟩

theorem bind {f f' : α → Run β} (h : Agree m' m P) (hf : ∀ x, P x → Agree (f' x) (f x) Q) :
    Agree (m' >>= f') (m >>= f) Q := by
  intro s hs
  obtain ⟨hsame, hends⟩ := h s hs
  unfold Ends at hends
  simp only [Ends, Bind.bind, EStateM.bind, hsame]
  rcases hm : m s with ⟨x, t⟩ | ⟨e, t⟩
  · rw [hm] at hends
    exact hf x hends.1 t hends.2
  · exact ⟨rfl, trivial⟩

/-- More is known of the results by other means. -/
theorem and {P' : α → Prop} (h : Agree m' m P)
    (h' : ∀ s, Steady s → Ends m s (fun x _ => P' x) (fun _ _ => True)) :
    Agree m' m fun x => P x ∧ P' x := by
  intro s hs
  obtain ⟨hsame, hends⟩ := h s hs
  exact ⟨hsame, (hends.and (h' s hs)).mono (fun _ _ hx => ⟨⟨hx.1.1, hx.2⟩, hx.1.2⟩)
    (fun _ _ _ => trivial)⟩

/-- A step that only looks agrees with itself. -/
theorem of_looks (h : Looks m P) : Agree m m P := by
  intro s hs
  refine ⟨rfl, (h s hs.data).mono ?_ fun _ _ _ => trivial⟩
  rintro x t ⟨hx, rfl⟩
  exact ⟨hx, hs⟩

/-- So does a step with an event, if it declares tame functions only. -/
theorem of_acts {event : Event} (h : Acts event m P)
    (hevent : ∀ scope d, event = .declared scope d → Tame d) : Agree m m P := fun s hs =>
  ⟨rfl, (h 0 s hs.data).mono (fun _ _ hx => ⟨hx.1, hx.2.steady hevent hs⟩) fun _ _ _ => trivial⟩

theorem within {enter : ScopeTree Value → ScopeTree Value} {body body' : ScopeId → Run α}
    {p : ScopeId} (henter : ∀ t, ∃ l f, enter t = t.addChild p l f)
    (h : ∀ inner, 0 < inner → Agree (body' inner) (body inner) P) :
    Agree (w.mode.within enter body') (Mode.plain.within enter body) P := by
  intro s hs
  obtain ⟨l, f, hentered⟩ := henter s.scopes
  have hinner := (Law.entered p l f : Law 0 s .entered _).steady (by simp) hs
  obtain ⟨hsame, hends⟩ := h s.scopes.size hs.global _ hinner
  refine ⟨?_, ends_within.mpr ?_⟩
  · simp only [Endings.mode, Mode.plain, Run.within, hentered, hsame]
  · rw [hentered]
    refine hends.mono (fun x t hx => ⟨hx.1, ?_⟩) fun _ _ _ => trivial
    exact (Law.left hs.global : Law 0 t _ _).steady (by simp) hx.2

theorem deeper {limit : Nat} {span : Span} (h : Agree m' m P) :
    Agree (w.mode.deeper limit span m') (Mode.plain.deeper limit span m) P := by
  intro s hs
  obtain ⟨hsame, hends⟩ := h _ ((Law.called s.depth.lt_succ_self).steady (by simp) hs)
  refine ⟨?_, ?_⟩
  · simp only [Endings.mode, Mode.plain, Run.deeper, hsame]
  · refine Ends.deeper trivial (hends.mono (fun x t hx => ⟨hx.1, ?_⟩) (fun _ _ _ => trivial))
    exact (Law.ended : Law 0 t _ _).steady (by simp) hx.2

theorem mapM {g g' : α → Run β} {xs : List α} (h : ∀ x ∈ xs, Agree (g' x) (g x) Q) :
    Agree (xs.mapM g') (xs.mapM g) fun ys => ∀ y ∈ ys, Q y := by
  induction xs with
  | nil => exact pure (by simp)
  | cons x xs ih =>
    rw [List.mapM_cons, List.mapM_cons]
    refine (h x List.mem_cons_self).bind ?_
    intro y hy
    refine (ih fun z hz => h z (List.mem_cons_of_mem x hz)).bind ?_
    intro ys hys
    exact pure (by simpa using ⟨hy, hys⟩)

theorem inOrder {step step' : α → Run Signal} {xs : List α}
    (h : ∀ x ∈ xs, Agree (step' x) (step x) Signal.IsData) :
    Agree (inOrder step' xs) (inOrder step xs) Signal.IsData := by
  induction xs with
  | nil => exact pure trivial
  | cons x xs ih =>
    refine (h x List.mem_cons_self).bind ?_
    intro signal hsignal
    cases signal with
    | normal => exact ih fun z hz => h z (List.mem_cons_of_mem x hz)
    | _ => exact pure hsignal

theorem times {body body' : Run Signal} (h : Agree body' body Signal.IsData) (count : Nat) :
    Agree (times body' count) (times body count) Signal.IsData := by
  induction count with
  | zero => exact pure trivial
  | succ count ih =>
    refine h.bind ?_
    intro signal hsignal
    rcases hl : leaves signal with _ | out
    · exact ih
    · exact pure (leaves_isData hsignal hl)

theorem whileTrue {test test' : Nat → Run Bool} {body body' : Nat → Run Signal}
    (htest : ∀ k, Agree (test' k) (test k) fun _ => True)
    (hbody : ∀ k, Agree (body' k) (body k) Signal.IsData) (first fuel : Nat) :
    Agree (whileTrue test' body' first fuel) (whileTrue test body first fuel) Signal.IsData := by
  induction fuel generalizing first with
  | zero => exact halt _
  | succ fuel ih =>
    refine (htest first).bind ?_
    intro b _
    cases b with
    | false => exact pure trivial
    | true =>
      refine (hbody first).bind ?_
      intro signal hsignal
      rcases hl : leaves signal with _ | out
      · exact ih (first + 1)
      · exact pure (leaves_isData hsignal hl)

/-! ### Names -/

theorem bindParams {scope : ScopeId} (hscope : 0 < scope) (params : List Name)
    {args : List Value} (hargs : ∀ v ∈ args, v.IsData) :
    Agree (w.mode.bindParams scope params args) (Mode.plain.bindParams scope params args)
      fun _ => True := by
  induction params generalizing args with
  | nil => exact pure trivial
  | cons p params ih =>
    cases args with
    | nil => exact pure trivial
    | cons v args =>
      refine (of_acts (.parameter hscope p.text (hargs v List.mem_cons_self)) nofun).bind ?_
      exact fun _ _ => ih fun w hw => hargs w (List.mem_cons_of_mem v hw)

theorem valueOf? (scope : ScopeId) (name : String) :
    Agree (valueOf? scope name) (valueOf? scope name)
      fun v => ∀ f id d, v = some (.function f id) → f.decl = some d → Tame d := by
  intro s hs
  refine ⟨rfl, ?_, hs⟩
  intro f id d hv hd
  obtain ⟨i, hi⟩ := ScopeTree.exists_functionIn? hv
  exact hs.tame i name f d hi hd

/-- A function that can be called is tame. -/
theorem callee (scope : ScopeId) (name : Name) :
    Agree (callee scope name) (callee scope name) fun f => ∀ d, f.decl = some d → Tame d := by
  refine (valueOf? scope name.text).bind ?_
  intro v hv
  rcases v with _ | v
  · exact halt _
  · cases v with
    | function f id => exact pure fun d hd => hv f id d rfl hd
    | _ => exact halt _

end Agree

/-! ## One level of evaluation -/

section Level

variable {w : Endings} {limit fuel : Nat} (hw : w.Regular)
  (evals : ∀ scope e, Agree (w.mode.eval limit fuel scope e) (eval limit fuel scope e)
    Value.IsData)
  (execs : ∀ {Γ scope} st, st.Fit (fun _ => True) Γ →
    Agree (w.mode.exec limit fuel scope st) (exec limit fuel scope st) Signal.IsData)

include execs in
theorem inOrder_agree {Γ : Site} {ss : List Stmt} (hfit : Stmt.AllFit (fun _ => True) Γ ss)
    (scope : ScopeId) : Agree (inOrder (w.mode.exec limit fuel scope) ss)
      (inOrder (exec limit fuel scope) ss) Signal.IsData := by
  refine Agree.inOrder fun st hst => ?_
  obtain ⟨Δ, hst, -⟩ := hfit.exists_site hst
  exact execs st hst

include hw execs in
/-- The body of a tame function ends in a way that the endings treat as
they should. -/
theorem callBody_agree {d : FunctionDecl} (hd : Tame d) {values : List Value}
    (hvalues : ∀ v ∈ values, v.IsData) :
    Agree
      (w.mode.within (·.addChild ScopeTree.globalId false true) fun frame => do
        w.mode.bindParams frame d.params values
        w.body d (← inOrder (w.mode.exec limit fuel frame) d.body.statements))
      (Mode.plain.within (·.addChild ScopeTree.globalId false true) fun frame => do
        Mode.plain.bindParams frame d.params values
        return returned (← inOrder (exec limit fuel frame) d.body.statements)) Value.IsData := by
  have hyields := hd.yields limit fuel
  obtain ⟨Γ, -, hfit⟩ := hd
  refine Agree.within (fun _ => ⟨_, _, rfl⟩) fun frame hframe => ?_
  refine (Agree.bindParams hframe d.params hvalues).bind fun _ _ => ?_
  refine ((inOrder_agree execs hfit.statements frame).and fun s _ => hyields frame s).bind ?_
  rintro signal ⟨hsignal, rfl | ⟨v, rfl⟩⟩
  · rw [hw.ends]
    exact Agree.pure Value.isData_void
  · rw [hw.returns]
    exact Agree.pure hsignal

include hw evals execs in
theorem call_agree (scope : ScopeId) (name : Name) (args : List Expr) (span : Span) :
    Agree (w.mode.eval limit (fuel + 1) scope ⟨.call name args, span⟩)
      (eval limit (fuel + 1) scope ⟨.call name args, span⟩) Value.IsData := by
  refine (Agree.callee scope name).bind fun f hf => ?_
  refine (Agree.mapM fun e _ => evals scope e).bind fun values hvalues => ?_
  by_cases harity : values.length = f.arity
  · simp only [harity, ne_eq, not_true_eq_false, ↓reduceIte]
    rcases hd : f.decl with _ | d
    · exact .of_acts (.invoke f.name hvalues name.span) nofun
    · exact Agree.deeper (callBody_agree hw execs (hf d hd) hvalues)
  · simp only [harity, ne_eq, not_false_eq_true, ↓reduceIte]
    exact Agree.halt _

include hw evals execs in
theorem eval_succ_agree (scope : ScopeId) (e : Expr) :
    Agree (w.mode.eval limit (fuel + 1) scope e) (eval limit (fuel + 1) scope e)
      Value.IsData := by
  obtain ⟨node, span⟩ := e
  cases node with
  | call name args => exact call_agree hw evals execs scope name args span
  | int n => exact Agree.pure (Value.isData_int n)
  | float x => exact Agree.pure (Value.isData_float x)
  | bool b => exact Agree.pure (Value.isData_bool b)
  | string x => exact Agree.pure (Value.isData_string x)
  | array elements =>
    refine (Agree.mapM fun e _ => evals scope e).bind fun values hvalues => ?_
    exact .of_acts (.newArray fun v hv => hvalues v (by simpa using hv)) nofun
  | var name => exact .of_looks (.variableValue scope name span)
  | binary left op right =>
    refine (evals scope left).bind fun a _ => (evals scope right).bind fun b _ => ?_
    exact .of_acts (.binary op a b span) nofun
  | unary op operand =>
    refine (evals scope operand).bind fun v _ => ?_
    exact .of_looks (.orFail fun _ hx => Value.unary_data hx)
  | range first last =>
    refine (evals scope first).bind fun a _ => (evals scope last).bind fun b _ => ?_
    exact .of_acts (.range a b span) nofun
  | index base index =>
    refine (evals scope base).bind fun v _ => (evals scope index).bind fun i _ => ?_
    exact .of_looks (.subscript v i span)
  | cast target operand =>
    refine (evals scope operand).bind fun v _ => ?_
    exact .of_acts (.cast v target span) nofun

include execs in
theorem block_agree {Γ : Site} {b : Block} (hfit : b.Fit (fun _ => True) Γ) {p : ScopeId}
    {enter : ScopeTree Value → ScopeTree Value} (henter : ∀ t, ∃ l f, enter t = t.addChild p l f) :
    Agree
      (w.mode.within enter fun inner => inOrder (w.mode.exec limit fuel inner) b.statements)
      (Mode.plain.within enter fun inner => inOrder (exec limit fuel inner) b.statements)
      Signal.IsData :=
  Agree.within henter fun inner _ => inOrder_agree execs hfit.statements inner

include evals in
theorem assignment_agree (scope : ScopeId) (target : Target) (e : Expr) (span : Span) :
    Agree (w.mode.exec limit (fuel + 1) scope ⟨.assign target e, span⟩)
      (exec limit (fuel + 1) scope ⟨.assign target e, span⟩) Signal.IsData := by
  obtain ⟨node, targetSpan⟩ := target
  refine (evals scope e).bind fun v hv => ?_
  by_cases hvoid : v.kind = .void
  · simp only [hvoid, ↓reduceIte]
    exact Agree.halt _
  · simp only [hvoid, ↓reduceIte]
    cases node with
    | name name =>
      exact (Agree.of_acts (.assign scope name hv hvoid) nofun).bind fun _ _ => Agree.pure trivial
    | element base index =>
      refine (evals scope base).bind fun a _ => (evals scope index).bind fun i _ => ?_
      exact (Agree.of_acts (.store a i hv targetSpan) nofun).bind fun _ _ => Agree.pure trivial

include evals execs in
theorem exec_succ_agree {Γ : Site} (scope : ScopeId) (st : Stmt)
    (hfit : st.Fit (fun _ => True) Γ) :
    Agree (w.mode.exec limit (fuel + 1) scope st) (exec limit (fuel + 1) scope st)
      Signal.IsData := by
  have hblock : ∀ p, ∀ t : ScopeTree Value, ∃ l f, t.addBlock p = t.addChild p l f :=
    fun p t => ⟨_, _, rfl⟩
  have hloop : ∀ t : ScopeTree Value, ∃ l f, t.addLoop scope = t.addChild scope l f :=
    fun t => ⟨_, _, rfl⟩
  obtain ⟨node, span⟩ := st
  cases node with
  | expr e => exact (evals scope e).bind fun _ _ => Agree.pure trivial
  | assign target e => exact assignment_agree evals scope target e span
  | cond test yes no =>
    refine (evals scope test).bind fun v _ => ?_
    refine (Agree.of_looks (.truth v test.span)).bind fun b _ => ?_
    cases no with
    | none =>
      rw [Stmt.Fit] at hfit
      cases b with
      | true => exact block_agree execs hfit.2 (hblock scope)
      | false => exact Agree.pure trivial
    | some no =>
      rw [Stmt.Fit] at hfit
      cases b with
      | true => exact block_agree execs hfit.2.1 (hblock scope)
      | false => exact block_agree execs hfit.2.2 (hblock scope)
  | loop test body =>
    rw [Stmt.Fit] at hfit
    refine Agree.whileTrue (fun _ => ?_) (fun _ => block_agree execs hfit.2 hloop) 0 fuel
    exact (evals scope test).bind fun v _ => .of_looks (.truth v test.span)
  | each item items body =>
    rw [Stmt.Fit] at hfit
    refine (evals scope items).bind fun v _ => ?_
    refine (Agree.of_looks (.iterable v items.span)).bind fun _ _ => ?_
    refine Agree.within hloop fun outer houter => ?_
    refine Agree.whileTrue (fun k => .of_looks (.hasItem v k)) (fun k => ?_) 0 fuel
    refine (Agree.of_looks (.itemOf v k items.span)).bind fun x hx => ?_
    exact (Agree.of_acts (.item houter item.text hx) nofun).bind fun _ _ =>
      block_agree execs hfit.2 (hblock outer)
  | times count body =>
    rw [Stmt.Fit] at hfit
    refine (evals scope count).bind fun v _ => ?_
    refine (Agree.of_looks (.turnCount v count.span)).bind fun n _ => ?_
    exact Agree.times (block_agree execs hfit.2 hloop) n
  | function d =>
    refine (Agree.of_acts (.declare scope d) ?_).bind fun _ _ => Agree.pure trivial
    rintro _ _ ⟨⟩
    exact tame_of_fit hfit
  | «return» value =>
    cases value with
    | none => exact Agree.pure Value.isData_void
    | some e => exact (evals scope e).bind fun _ hv => Agree.pure hv
  | stop => exact Agree.pure trivial
  | next => exact Agree.pure trivial

end Level

/-! ## Every run -/

/-- Evaluation does the same under all regular endings. The induction is on
the fuel, for expressions and statements together. -/
theorem eval_exec_agree {w : Endings} (hw : w.Regular) (limit fuel : Nat) :
    (∀ scope e, Agree (w.mode.eval limit fuel scope e) (eval limit fuel scope e) Value.IsData) ∧
    ∀ {Γ : Site} {scope} st, st.Fit (fun _ => True) Γ →
      Agree (w.mode.exec limit fuel scope st) (exec limit fuel scope st) Signal.IsData := by
  induction fuel with
  | zero => exact ⟨fun _ _ => Agree.halt _, fun _ _ => Agree.halt _⟩
  | succ fuel ih =>
    exact ⟨eval_succ_agree hw ih.1 ih.2, fun st hfit => exec_succ_agree ih.1 ih.2 _ st hfit⟩

/-- Outside loops and functions every statement that ends, ends normally. -/
theorem exec_normal {T : String → Prop} {Γ : Site} (hloop : Γ.inLoop = false)
    (hfunction : Γ.inFunction = false) {st : Stmt} (hfit : st.Fit T Γ) (limit fuel : Nat)
    (scope : ScopeId) : Yields (exec limit fuel scope st) (· = .normal) := by
  have hallowed := exec_allowed limit fuel scope hfit
  rw [hloop, hfunction] at hallowed
  refine fun s => (hallowed s).imp fun x _ hx => ?_
  cases x with
  | normal => rfl
  | _ => cases hx

theorem topLevel_agree {w : Endings} (hw : w.Regular) (limit fuel : Nat) {Γ : Site}
    (hloop : Γ.inLoop = false) (hfunction : Γ.inFunction = false) {ss : List Stmt}
    (hfit : Stmt.AllFit (fun _ => True) Γ ss) :
    Agree (w.mode.topLevel limit fuel ss) (topLevel limit fuel ss) fun _ => True := by
  induction ss generalizing Γ with
  | nil => exact Agree.pure trivial
  | cons st ss ih =>
    rw [Stmt.AllFit] at hfit
    have hnormal := exec_normal hloop hfunction hfit.1 limit fuel ScopeTree.globalId
    refine (((eval_exec_agree hw limit fuel).2 st hfit.1).and fun s _ => hnormal s).bind ?_
    rintro signal ⟨-, rfl⟩
    have hrest := ih (by rw [Site.after_inLoop, hloop]) (by rw [Site.after_inFunction, hfunction])
      hfit.2
    rw [show w.mode.top st .normal = pure () from hw.top st]
    exact hrest

end Run

/-! ## Accepted programs -/

/-- The run of a program with open endings. -/
def Program.runUnder (w : Run.Endings) (p : Program) (limit fuel : Nat) : Run Unit :=
  w.mode.topLevel limit fuel p.statements

/-- With the plain endings this is the run of the program. -/
theorem Program.runUnder_plain (p : Program) (limit fuel : Nat) :
    p.runUnder .plain limit fuel = p.run limit fuel := rfl

/-- Signals never leak from an accepted program. Its statements end
normally, its functions end normally or return, and no run comes to make
anything of another signal: it is the same with all regular endings. -/
theorem signals_never_leak {source : String} {p : Program}
    (hp : (compile source Analysis.initialScopes).2 = .ok p) (limit fuel : Nat) :
    (∀ st ∈ p.statements, ∀ s t x,
      Run.exec limit fuel ScopeTree.globalId st s = .ok x t → x = .normal) ∧
    (∀ st ∈ p.statements, ∀ d, st.node = .function d → ∀ frame s t x,
      Run.inOrder (Run.exec limit fuel frame) d.body.statements s = .ok x t →
        x = .normal ∨ ∃ v, x = .return v) ∧
    p.runUnder .plain limit fuel = p.run limit fuel ∧
    ∀ w : Run.Endings, w.Regular → ∀ outside : Outside,
      p.runUnder w limit fuel (.initial outside) = p.run limit fuel (.initial outside) := by
  have hfit := Program.fit_of_compile Analysis.initialScopes_wellFormed hp
  have hloop : (Analysis.initialScopes.site ScopeTree.globalId).inLoop = false := by decide +kernel
  have hfunction : (Analysis.initialScopes.site ScopeTree.globalId).inFunction = false := by
    decide +kernel
  refine ⟨?_, ?_, p.runUnder_plain limit fuel, ?_⟩
  · intro st hst s t x hx
    obtain ⟨Δ, hst, hl, hf⟩ := hfit.exists_site hst
    exact (Run.exec_normal (hl.trans hloop) (hf.trans hfunction) hst limit fuel _).of_ok hx
  · intro st hst d hd frame s t x hx
    obtain ⟨Δ, hst, -⟩ := hfit.exists_site hst
    obtain ⟨node, span⟩ := st
    obtain rfl : node = .function d := hd
    exact ((Run.tame_of_fit hst).yields limit fuel frame).of_ok hx
  · intro w hw outside
    exact (Run.topLevel_agree hw limit fuel hloop hfunction hfit _ (Run.initial_steady outside)).1

/-- A search that leaves two loops by returning, called in a loop that goes
on early and is left early. -/
theorem signals_never_leak_search :
    let source := "function find(x) \x7b for a in 1..3 \x7b while true \x7b " ++
      "if a = x \x7b return a \x7d stop \x7d \x7d \x7d\n" ++
      "for n in 1..4 \x7b if n = 2 \x7b next \x7d if n = 4 \x7b stop \x7d output(find(n)) \x7d"
    let s := Run.State.initial (.replay [])
    ∃ p, (compile source Analysis.initialScopes).2 = .ok p ∧
      EStateM.run' (p.run 10 40) s = some () ∧ (Run.after (p.run 10 40) s).output = "1\n3\n" ∧
      p.runUnder .strict 10 40 s = p.run 10 40 s := by
  intro source s
  obtain ⟨p, hp, hrun⟩ := exists_of_toOption_any (r := (compile source Analysis.initialScopes).2)
    (P := fun p => EStateM.run' (p.run 10 40) s = some () ∧
      (Run.after (p.run 10 40) s).output = "1\n3\n") (by decide +kernel)
  obtain ⟨hends, houtput⟩ := of_decide_eq_true hrun
  have hleak := signals_never_leak hp 10 40
  exact ⟨p, hp, hends, houtput, hleak.2.2.2 .strict Run.Endings.strict_regular (.replay [])⟩

/-- Endings do matter to programs that are not accepted: a signal that
leaves no loop ends their strict runs only. -/
example : ["stop", "function f() \x7b next \x7d f()"].all (fun source =>
    (parseSource source).toOption.any fun p =>
      EStateM.run' (p.run 10 40) (.initial (.replay [])) = some () ∧
        EStateM.run' (p.runUnder .strict 10 40) (.initial (.replay [])) = none) = true := by
  decide +kernel

end Quill
