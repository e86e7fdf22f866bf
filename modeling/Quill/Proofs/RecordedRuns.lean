-- Recorded runs follow the plain ones. A recorded run ends as the run does,
-- and its history leads from the first state to the last. What every event
-- keeps is kept by every run, whatever tree it evaluates and however it ends.
import Mathlib
import Quill.Proofs.ScopeFrame
import Quill.Proofs.StepLaws
import Quill.Session

namespace Quill

namespace Run

variable {α β : Type} {limit : Nat} {declares : ScopeId → Prop} {P : α → Prop} {Q : β → Prop}

/-! ## Results with a history -/

/-- The second result is the first one with a history from the tape `r` to
its state. A value has the property `P`. -/
inductive Kept (limit : Nat) (declares : ScopeId → Prop) (P : α → Prop) (r : Tape) :
    EStateM.Result Halt State α → EStateM.Result Halt Tape α → Prop
  | ok {x : α} {t : State} {more : List Moment} : P x → Nested limit declares r.state more t →
      Kept limit declares P r (.ok x t) (.ok x ⟨t, r.past ++ more⟩)
  | error {e : Halt} {t : State} {more : List Moment} : Nested limit declares r.state more t →
      Kept limit declares P r (.error e t) (.error e ⟨t, r.past ++ more⟩)

namespace Kept

variable {r : Tape} {result : EStateM.Result Halt State α} {x : α} {e : Halt} {t : State}

theorem same (hx : P x) : Kept limit declares P r (.ok x r.state) (.ok x r) := by
  have h : Kept limit declares P r (.ok x r.state) (.ok x ⟨r.state, r.past ++ []⟩) :=
    .ok hx (.start r.state)
  simpa using h

theorem same_error : Kept limit declares P r (.error e r.state) (.error e r) := by
  have h : Kept limit declares P r (.error e r.state) (.error e ⟨r.state, r.past ++ []⟩) :=
    .error (.start r.state)
  simpa using h

/-- A history goes on where another one has led. -/
theorem after {more : List Moment} {kept : EStateM.Result Halt Tape α}
    (hpast : Nested limit declares r.state more t)
    (h : Kept limit declares P ⟨t, r.past ++ more⟩ result kept) :
    Kept limit declares P r result kept := by
  cases h with
  | ok hx hmore =>
    rw [List.append_assoc]
    exact .ok hx (hpast.trans hmore)
  | error hmore =>
    rw [List.append_assoc]
    exact .error (hpast.trans hmore)

/-- A block is left, however it has ended. -/
theorem block {kept : EStateM.Result Halt Tape α} {p : ScopeId} {inLoop : Bool}
    (hglobal : 0 < r.state.scopes.size)
    (h : Kept limit (· = r.state.scopes.size) P (r.note .entered (r.state.inBlock p inLoop))
      result kept) :
    Kept limit declares P r (endIn (·.leave r.state.scopes.size) result)
      (endIn (fun last => last.note (.left r.state.scopes.size)
        (last.state.leave r.state.scopes.size)) kept) := by
  cases h with
  | ok hx hpast =>
    simp only [endIn, Tape.note, List.append_assoc]
    exact .ok hx (.block p inLoop hglobal hpast)
  | error hpast =>
    simp only [endIn, Tape.note, List.append_assoc]
    exact .error (.block p inLoop hglobal hpast)

/-- The scope of a call is left and the call is over, however it has ended. -/
theorem call {kept : EStateM.Result Halt Tape α} (hdepth : r.state.depth < limit)
    (hglobal : 0 < r.state.scopes.size)
    (h : Kept limit (· = r.state.scopes.size) P
      ((r.note .called r.state.deep).note .entered r.state.deep.inCall) result kept) :
    Kept limit declares P r (endIn State.shallow (endIn (·.leave r.state.scopes.size) result))
      (endIn (fun last => last.note .ended last.state.shallow)
        (endIn (fun last => last.note (.left r.state.scopes.size)
          (last.state.leave r.state.scopes.size)) kept)) := by
  cases h with
  | ok hx hpast =>
    simp only [endIn, Tape.note, List.append_assoc]
    exact .ok hx (.call hdepth hglobal hpast)
  | error hpast =>
    simp only [endIn, Tape.note, List.append_assoc]
    exact .error (.call hdepth hglobal hpast)

end Kept

/-! ## Recorded steps follow the plain ones -/

/-- From every grounded state, the recorded step ends as the plain one
does, and adds a history that leads there. -/
def Records (limit : Nat) (declares : ScopeId → Prop) (rec : Recorded α) (m : Run α)
    (P : α → Prop) : Prop :=
  ∀ r : Tape, r.state.Grounded → Kept limit declares P r (m r.state) (rec r)

theorem deeper_apply (limit : Nat) (span : Span) (m : Run α) (s : State) :
    deeper limit span m s =
      if limit ≤ s.depth then .error (.fatal ⟨.callDepth limit, span⟩) s
      else
        endIn (fun t => { t with depth := t.depth - 1 }) (m { s with depth := s.depth + 1 }) := by
  unfold deeper
  split
  · rfl
  · rcases m _ with ⟨x, t⟩ | ⟨e, t⟩ <;> rfl

theorem within_apply (enter : ScopeTree Value → ScopeTree Value) (body : ScopeId → Run α)
    (s : State) :
    within enter body s = endIn (·.leave s.scopes.size)
      (body s.scopes.size { s with scopes := enter s.scopes }) := by
  simp only [within]
  rcases body _ _ with ⟨x, t⟩ | ⟨e, t⟩ <;> rfl

namespace Records

theorem pure {x : α} (h : P x) : Records limit declares (pure x) (pure x) P :=
  fun _ _ => .same h

theorem halt (e : Halt) : Records limit declares (throw e) (throw e : Run α) P :=
  fun _ _ => .same_error

theorem mono {rec : Recorded α} {m : Run α} {declares' : ScopeId → Prop}
    (h : Records limit declares rec m P) (hd : ∀ scope, declares scope → declares' scope) :
    Records limit declares' rec m P := by
  intro r hr
  have hkept := h r hr
  generalize m r.state = result at hkept ⊢
  generalize rec r = kept at hkept ⊢
  cases hkept with
  | ok hx hpast => exact .ok hx (hpast.mono hd)
  | error hpast => exact .error (hpast.mono hd)

theorem bind {rec : Recorded α} {m : Run α} {frec : α → Recorded β} {f : α → Run β}
    (h : Records limit declares rec m P)
    (hf : ∀ x, P x → Records limit declares (frec x) (f x) Q) :
    Records limit declares (rec >>= frec) (m >>= f) Q := by
  intro r hr
  have hkept := h r hr
  simp only [Bind.bind, EStateM.bind]
  generalize m r.state = result at hkept
  generalize rec r = kept at hkept
  cases hkept with
  | ok hx hpast => exact (hf _ hx _ (hpast.grounded hr)).after hpast
  | error hpast => exact .error hpast

/-- A step that changes nothing. -/
theorem look {m : Run α} (h : Looks m P) : Records limit declares (recording.look m) m P := by
  intro r hr
  have hends := h r.state hr.data
  unfold Ends at hends
  show Kept limit declares P r (m r.state) (Recorded.look m r)
  unfold Recorded.look
  rcases hm : m r.state with ⟨x, t⟩ | ⟨e, t⟩
  · rw [hm] at hends
    obtain ⟨hx, rfl⟩ := hends
    exact .same hx
  · rw [hm] at hends
    obtain rfl := hends
    exact .same_error

/-- A step that does what its event says, or fails. -/
theorem act {m : Run α} {event : Event} (h : Acts event m P) (hplain : event.isPlain = true)
    (hevent : event.DeclaresIn declares) :
    Records limit declares (recording.act event m) m P := by
  intro r hr
  have hends := h limit r.state hr.data
  unfold Ends at hends
  show Kept limit declares P r (m r.state) (Recorded.act event m r)
  unfold Recorded.act
  rcases hm : m r.state with ⟨x, t⟩ | ⟨e, t⟩
  · rw [hm] at hends
    exact .ok hends.1 (.one hplain hevent hends.2)
  · rw [hm] at hends
    exact .error (.one rfl nofun hends)

/-- A result that is told of as an event. -/
theorem noting {rec : Recorded α} {m : Run α} {event : α → Event}
    (h : Records limit declares rec m P) (hplain : ∀ x, (event x).isPlain = true)
    (hevent : ∀ x, (event x).DeclaresIn declares)
    (hlaw : ∀ limit s x, P x → Law limit s (event x) s) :
    Records limit declares (recording.noting event rec) m P := by
  rw [← bind_pure m]
  exact h.bind fun x hx =>
    act (fun limit s _ => ⟨hx, hlaw limit s x hx⟩) (hplain x) (hevent x)

theorem block {enter : ScopeTree Value → ScopeTree Value} {body : ScopeId → Run α}
    {brec : ScopeId → Recorded α} {p : ScopeId}
    (henter : ∀ t, ∃ l, enter t = t.addChild p l (t.inFunction p))
    (h : ∀ inner, 0 < inner → Records limit (· = inner) (brec inner) (body inner) P) :
    Records limit declares (recording.within enter brec) (Mode.plain.within enter body) P := by
  intro r hr
  obtain ⟨l, hentered⟩ := henter r.state.scopes
  have hbody := h r.state.scopes.size hr.global (r.note .entered _) (hr.inBlock p l)
  simp only [Mode.plain, recording, within_apply, Recorded.within, hentered]
  exact hbody.block hr.global

theorem call {body : ScopeId → Run α} {brec : ScopeId → Recorded α} {span : Span}
    (h : ∀ frame, 0 < frame → Records limit (· = frame) (brec frame) (body frame) P) :
    Records limit declares
      (recording.deeper limit span
        (recording.within (·.addChild ScopeTree.globalId false true) brec))
      (Mode.plain.deeper limit span
        (Mode.plain.within (·.addChild ScopeTree.globalId false true) body)) P := by
  intro r hr
  simp only [Mode.plain, recording, deeper_apply, Recorded.deeper]
  split
  · exact .same_error
  · rename_i hdepth
    have hdepth : r.state.depth < limit := Nat.lt_of_not_le hdepth
    have hbody := h r.state.scopes.size hr.global
      ((r.note .called r.state.deep).note .entered r.state.deep.inCall) hr.inCall
    rw [within_apply]
    exact hbody.call hdepth hr.global

theorem mapM {grec : α → Recorded β} {g : α → Run β} {xs : List α}
    (h : ∀ x ∈ xs, Records limit declares (grec x) (g x) Q) :
    Records limit declares (xs.mapM grec) (xs.mapM g) fun ys => ∀ y ∈ ys, Q y := by
  induction xs with
  | nil => exact pure (by simp)
  | cons x xs ih =>
    rw [List.mapM_cons, List.mapM_cons]
    refine (h x List.mem_cons_self).bind fun y hy => ?_
    refine (ih fun z hz => h z (List.mem_cons_of_mem x hz)).bind fun ys hys => ?_
    exact pure (by simpa using ⟨hy, hys⟩)

/-! ### Sequences and loops -/

theorem inOrder {srec : α → Recorded Signal} {step : α → Run Signal} {xs : List α}
    (h : ∀ x ∈ xs, Records limit declares (srec x) (step x) Signal.IsData) :
    Records limit declares (inOrder srec xs) (inOrder step xs) Signal.IsData := by
  induction xs with
  | nil => exact pure trivial
  | cons x xs ih =>
    refine (h x List.mem_cons_self).bind fun signal hsignal => ?_
    cases signal with
    | normal => exact ih fun z hz => h z (List.mem_cons_of_mem x hz)
    | _ => exact pure hsignal

theorem times {brec : Recorded Signal} {body : Run Signal}
    (h : Records limit declares brec body Signal.IsData) (count : Nat) :
    Records limit declares (times brec count) (times body count) Signal.IsData := by
  induction count with
  | zero => exact pure trivial
  | succ count ih =>
    refine h.bind fun signal hsignal => ?_
    rcases hl : leaves signal with _ | out
    · exact ih
    · exact pure (leaves_isData hsignal hl)

theorem whileTrue {trec : Nat → Recorded Bool} {test : Nat → Run Bool}
    {brec : Nat → Recorded Signal} {body : Nat → Run Signal}
    (htest : ∀ k, Records limit declares (trec k) (test k) fun _ => True)
    (hbody : ∀ k, Records limit declares (brec k) (body k) Signal.IsData) (first fuel : Nat) :
    Records limit declares (whileTrue trec brec first fuel) (whileTrue test body first fuel)
      Signal.IsData := by
  induction fuel generalizing first with
  | zero => exact halt _
  | succ fuel ih =>
    refine (htest first).bind fun b _ => ?_
    cases b with
    | false => exact pure trivial
    | true =>
      refine (hbody first).bind fun signal hsignal => ?_
      rcases hl : leaves signal with _ | out
      · exact ih (first + 1)
      · exact pure (leaves_isData hsignal hl)

/-- Parameters are bound in the scope of a call, never in the global
one. -/
theorem bindParams {scope : ScopeId} (hscope : 0 < scope) (params : List Name)
    {args : List Value} (hargs : ∀ v ∈ args, v.IsData) :
    Records limit declares (recording.bindParams scope params args)
      (Mode.plain.bindParams scope params args) fun _ => True := by
  induction params generalizing args with
  | nil => exact pure trivial
  | cons p params ih =>
    cases args with
    | nil => exact pure trivial
    | cons v args =>
      have hv := hargs v List.mem_cons_self
      refine Records.bind (act (.parameter hscope p.text hv) rfl nofun) fun _ _ => ?_
      exact ih fun w hw => hargs w (List.mem_cons_of_mem v hw)

end Records

/-! ## One level of evaluation -/

section Level

variable {fuel : Nat}
  (evals : ∀ scope e, Records limit (fun _ => False) (recording.eval limit fuel scope e)
    (eval limit fuel scope e) Value.IsData)
  (execs : ∀ scope st, Records limit (· = scope) (recording.exec limit fuel scope st)
    (exec limit fuel scope st) Signal.IsData)

include evals in
theorem mapM_eval_records (scope : ScopeId) (es : List Expr) :
    Records limit (fun _ => False) (es.mapM (recording.eval limit fuel scope))
      (es.mapM (eval limit fuel scope)) fun vs => ∀ v ∈ vs, v.IsData :=
  .mapM fun e _ => evals scope e

include execs in
theorem block_records {enter : ScopeTree Value → ScopeTree Value} {p : ScopeId}
    (henter : ∀ t, ∃ l, enter t = t.addChild p l (t.inFunction p)) (b : Block) :
    Records limit declares
      (recording.within enter fun inner => inOrder (recording.exec limit fuel inner) b.statements)
      (Mode.plain.within enter fun inner => inOrder (exec limit fuel inner) b.statements)
      Signal.IsData :=
  .block henter fun inner _ => .inOrder fun st _ => execs inner st

include execs in
theorem callBody_records (d : FunctionDecl) {values : List Value} (hv : ∀ v ∈ values, v.IsData)
    (span : Span) :
    Records limit declares
      (recording.deeper limit span <|
        recording.within (·.addChild ScopeTree.globalId false true) fun frame => do
          recording.bindParams frame d.params values
          recording.noting .returned do
            recording.body d (← inOrder (recording.exec limit fuel frame) d.body.statements))
      (Mode.plain.deeper limit span <|
        Mode.plain.within (·.addChild ScopeTree.globalId false true) fun frame => do
          Mode.plain.bindParams frame d.params values
          return returned (← inOrder (exec limit fuel frame) d.body.statements)) Value.IsData := by
  refine .call fun frame hframe => ?_
  refine (Records.bindParams hframe d.params hv).bind fun _ _ => ?_
  refine .noting ?_ (fun _ => rfl) (fun _ => nofun) fun _ _ _ hx => .returned hx
  refine (Records.inOrder fun st _ => execs frame st).bind fun signal hsignal => ?_
  cases signal with
  | «return» v => exact .pure hsignal
  | _ => exact .pure Value.isData_void

include evals execs in
theorem eval_succ_records (scope : ScopeId) (e : Expr) :
    Records limit (fun _ => False) (recording.eval limit (fuel + 1) scope e)
      (eval limit (fuel + 1) scope e) Value.IsData := by
  rw [Mode.eval]
  refine .noting ?_ (fun _ => rfl) (fun _ => nofun) fun _ _ _ hv => .value hv
  obtain ⟨node, span⟩ := e
  cases node with
  | int n => exact .pure (Value.isData_int n)
  | float x => exact .pure (Value.isData_float x)
  | bool b => exact .pure (Value.isData_bool b)
  | string x => exact .pure (Value.isData_string x)
  | array elements =>
    refine (mapM_eval_records evals scope elements).bind fun values hvalues => ?_
    exact .act (.newArray fun v hv => hvalues v (by simpa using hv)) rfl nofun
  | var name => exact .look (.variableValue scope name span)
  | binary left op right =>
    refine (evals scope left).bind fun a _ => (evals scope right).bind fun b _ => ?_
    exact .act (.binary op a b span) rfl nofun
  | unary op operand =>
    refine (evals scope operand).bind fun v _ => ?_
    exact .look (.orFail fun _ hx => Value.unary_data hx)
  | range first last =>
    refine (evals scope first).bind fun a _ => (evals scope last).bind fun b _ => ?_
    exact .act (.range a b span) rfl nofun
  | index base index =>
    refine (evals scope base).bind fun v _ => (evals scope index).bind fun i _ => ?_
    exact .look (.subscript v i span)
  | call name args =>
    refine (Records.look (.callee scope name)).bind fun f _ => ?_
    refine (mapM_eval_records evals scope args).bind fun values hvalues => ?_
    by_cases harity : values.length = f.arity
    · simp only [harity, ne_eq, not_true_eq_false, ↓reduceIte]
      cases f.decl with
      | none => exact .act (.invoke f.name hvalues name.span) rfl nofun
      | some d => exact callBody_records execs d hvalues name.span
    · simp only [harity, ne_eq, not_false_eq_true, ↓reduceIte]
      exact .look (.halt _)
  | cast target operand =>
    refine (evals scope operand).bind fun v _ => ?_
    exact .act (.cast v target span) rfl nofun

include evals in
theorem assignment_records (scope : ScopeId) (target : Target) (e : Expr) (span : Span) :
    Records limit (fun _ => False)
      (recording.exec limit (fuel + 1) scope ⟨.assign target e, span⟩)
      (exec limit (fuel + 1) scope ⟨.assign target e, span⟩) Signal.IsData := by
  obtain ⟨node, targetSpan⟩ := target
  refine (evals scope e).bind fun v hv => ?_
  by_cases hvoid : v.kind = .void
  · simp only [hvoid, ↓reduceIte]
    exact .look (.halt _)
  · simp only [hvoid, ↓reduceIte]
    cases node with
    | name name =>
      exact Records.bind (.act (.assign scope name hv hvoid) rfl nofun) fun _ _ => .pure trivial
    | element base index =>
      refine (evals scope base).bind fun a _ => (evals scope index).bind fun i _ => ?_
      exact Records.bind (.act (.store a i hv targetSpan) rfl nofun) fun _ _ => .pure trivial

include evals execs in
theorem each_records (scope : ScopeId) (item : Name) (items : Expr) (body : Block) (span : Span) :
    Records limit (fun _ => False)
      (recording.exec limit (fuel + 1) scope ⟨.each item items body, span⟩)
      (exec limit (fuel + 1) scope ⟨.each item items body, span⟩) Signal.IsData := by
  refine (evals scope items).bind fun v _ => ?_
  refine (Records.look (.iterable v items.span)).bind fun _ _ => ?_
  refine .block (fun t => ⟨_, rfl⟩) fun outer houter => ?_
  refine .whileTrue (fun k => .look (.hasItem v k)) (fun k => ?_) 0 fuel
  refine (Records.look (.itemOf v k items.span)).bind fun w hw => ?_
  refine Records.bind (.act (.item houter item.text hw) rfl nofun) fun _ _ => ?_
  exact block_records execs (fun t => ⟨_, rfl⟩) body

include evals execs in
/-- A statement that is no declaration declares nothing. -/
theorem exec_succ_records (scope : ScopeId) (st : Stmt) (hst : ∀ d, st.node ≠ .function d) :
    Records limit (fun _ => False) (recording.exec limit (fuel + 1) scope st)
      (exec limit (fuel + 1) scope st) Signal.IsData := by
  have hblock : ∀ t : ScopeTree Value,
      ∃ l, t.addBlock scope = t.addChild scope l (t.inFunction scope) := fun t => ⟨_, rfl⟩
  have hloop : ∀ t : ScopeTree Value,
      ∃ l, t.addLoop scope = t.addChild scope l (t.inFunction scope) := fun t => ⟨_, rfl⟩
  obtain ⟨node, span⟩ := st
  cases node with
  | expr e => exact (evals scope e).bind fun _ _ => .pure trivial
  | assign target e => exact assignment_records evals scope target e span
  | cond test yes no =>
    refine (evals scope test).bind fun v _ => ?_
    refine (Records.look (.truth v test.span)).bind fun b _ => ?_
    cases b with
    | true => exact block_records execs hblock yes
    | false =>
      cases no with
      | some no => exact block_records execs hblock no
      | none => exact .pure trivial
  | loop test body =>
    refine .whileTrue (fun _ => ?_) (fun _ => block_records execs hloop body) 0 fuel
    exact (evals scope test).bind fun v _ => .look (.truth v test.span)
  | each item items body => exact each_records evals execs scope item items body span
  | times count body =>
    refine (evals scope count).bind fun v _ => ?_
    refine (Records.look (.turnCount v count.span)).bind fun n _ => ?_
    exact .times (block_records execs hloop body) n
  | function d => exact absurd rfl (hst d)
  | «return» value =>
    cases value with
    | none => exact .pure Value.isData_void
    | some e => exact (evals scope e).bind fun v hv => .pure hv
  | stop => exact .pure trivial
  | next => exact .pure trivial

end Level

/-- A declaration declares in the scope where it stands, and every other
statement declares nothing. -/
theorem exec_records_here {fuel : Nat} (execs : ∀ scope st, (∀ d, st.node ≠ .function d) →
    Records limit (fun _ => False) (recording.exec limit fuel scope st)
      (exec limit fuel scope st) Signal.IsData) (scope : ScopeId) (st : Stmt) :
    Records limit (· = scope) (recording.exec limit fuel scope st) (exec limit fuel scope st)
      Signal.IsData := by
  by_cases hst : ∀ d, st.node ≠ .function d
  · exact (execs scope st hst).mono fun _ hi => hi.elim
  · push Not at hst
    obtain ⟨d, hd⟩ := hst
    obtain ⟨node, span⟩ := st
    obtain rfl : node = .function d := hd
    cases fuel with
    | zero => exact .halt _
    | succ fuel =>
      refine Records.bind (.act (.declare scope d) rfl ?_) fun _ _ => .pure trivial
      rintro _ _ ⟨⟩
      rfl

/-! ## Every evaluation -/

/-- Recorded evaluation follows evaluation. The induction is on the fuel,
for expressions and statements together. -/
theorem eval_exec_records (limit fuel : Nat) :
    (∀ scope e, Records limit (fun _ => False) (recording.eval limit fuel scope e)
      (eval limit fuel scope e) Value.IsData) ∧
    ∀ scope st, (∀ d, st.node ≠ .function d) →
      Records limit (fun _ => False) (recording.exec limit fuel scope st)
        (exec limit fuel scope st) Signal.IsData := by
  induction fuel with
  | zero => exact ⟨fun _ _ => .halt _, fun _ _ _ => .halt _⟩
  | succ fuel ih =>
    have execs := exec_records_here ih.2
    exact ⟨eval_succ_records ih.1 execs, exec_succ_records ih.1 execs⟩

theorem eval_records (limit fuel : Nat) (scope : ScopeId) (e : Expr) :
    Records limit (fun _ => False) (recording.eval limit fuel scope e) (eval limit fuel scope e)
      Value.IsData := (eval_exec_records limit fuel).1 scope e

theorem exec_records (limit fuel : Nat) (scope : ScopeId) (st : Stmt) :
    Records limit (· = scope) (recording.exec limit fuel scope st) (exec limit fuel scope st)
      Signal.IsData := exec_records_here (eval_exec_records limit fuel).2 scope st

theorem topLevel_records (limit fuel : Nat) (ss : List Stmt) :
    Records limit (· = ScopeTree.globalId) (recording.topLevel limit fuel ss)
      (topLevel limit fuel ss) fun _ => True := by
  induction ss with
  | nil => exact .pure trivial
  | cons st ss ih => exact (exec_records limit fuel ScopeTree.globalId st).bind fun _ _ => ih

namespace Records

variable {rec : Recorded α} {m : Run α} {s : State}

/-- Without its tape, the recorded step is the step. -/
theorem endIn_eq (h : Records limit declares rec m P) (hs : s.Grounded) :
    endIn Tape.state (rec ⟨s, []⟩) = m s := by
  have hkept := h ⟨s, []⟩ hs
  dsimp only at hkept
  generalize m s = result at hkept
  generalize rec ⟨s, []⟩ = kept at hkept
  cases hkept <;> rfl

/-- The history of a step leads from its first state to its last. -/
theorem nested (h : Records limit declares rec m P) (hs : s.Grounded) :
    Nested limit declares s (rec.history s) (Run.after m s) := by
  have hkept := h ⟨s, []⟩ hs
  unfold Recorded.history Run.after
  dsimp only at hkept
  generalize m s = result at hkept
  generalize rec ⟨s, []⟩ = kept at hkept
  cases hkept with
  | ok _ hpast => exact hpast
  | error hpast => exact hpast

/-- However the step ends, a history leads there, and a result has the
property. -/
theorem ends (h : Records limit declares rec m P) (hs : s.Grounded) :
    Ends m s (fun x t => P x ∧ ∃ past, Nested limit declares s past t)
      (fun _ t => ∃ past, Nested limit declares s past t) := by
  have hkept := h ⟨s, []⟩ hs
  unfold Ends
  dsimp only at hkept
  generalize m s = result at hkept ⊢
  generalize rec ⟨s, []⟩ = kept at hkept
  cases hkept with
  | ok hx hpast => exact ⟨hx, _, hpast⟩
  | error hpast => exact ⟨_, hpast⟩

end Records

end Run

/-! ## Programs and lines -/

/-- The recorded run of a program. -/
def Program.recorded (p : Program) (limit fuel : Nat) : Run.Recorded Unit :=
  Run.recording.topLevel limit fuel p.statements

/-- All that happens when a program runs from a state. -/
def Program.history (p : Program) (limit fuel : Nat) (s : Run.State) : List Run.Moment :=
  (p.recorded limit fuel).history s

section Programs

variable {s : Run.State} (p : Program) (limit fuel : Nat)

/-- Without its tape, the recorded run is the run. -/
theorem Program.endIn_recorded (hs : s.Grounded) :
    Run.endIn Run.Tape.state (p.recorded limit fuel ⟨s, []⟩) = p.run limit fuel s :=
  (Run.topLevel_records limit fuel p.statements).endIn_eq hs

theorem Program.history_nested (hs : s.Grounded) :
    Run.Nested limit (· = ScopeTree.globalId) s (p.history limit fuel s)
      (Run.after (p.run limit fuel) s) :=
  (Run.topLevel_records limit fuel p.statements).nested hs

/-- The history of a run leads from its first state to its last. -/
theorem Program.history_leads (hs : s.Grounded) :
    Run.History limit s (p.history limit fuel s) (Run.after (p.run limit fuel) s) :=
  (p.history_nested limit fuel hs).history

/-- What a line does, recorded. -/
def Session.recorded : Run.Recorded (Option Value) := resultIn Run.recording p limit fuel

theorem Session.result_records :
    Run.Records limit (· = ScopeTree.globalId) (recorded p limit fuel) (result p limit fuel)
      fun _ => True := by
  have hrun : Run.Records limit (· = ScopeTree.globalId) (do p.recorded limit fuel; return none)
      (do p.run limit fuel; return none) fun _ : Option Value => True :=
    (Run.topLevel_records limit fuel p.statements).bind fun _ _ => .pure trivial
  obtain ⟨statements⟩ := p
  rcases statements with _ | ⟨⟨node, span⟩, _ | ⟨st, rest⟩⟩
  · exact hrun
  · cases node with
    | expr e =>
      have hvalue : Run.Records limit (· = ScopeTree.globalId) _ _ _ :=
        (Run.eval_records limit fuel ScopeTree.globalId e).mono fun _ hi => hi.elim
      refine hvalue.bind fun v _ => ?_
      cases v <;> exact .pure trivial
    | _ => exact hrun
  · cases node <;> exact hrun

end Programs

/-! ## One run after another -/

namespace Run

/-- The states from which runs start: the initial one, and those in which
earlier runs have ended, however they did. -/
inductive Reached (outside : Outside) : State → Prop
  | initial : Reached outside (.initial outside)
  | run {s : State} (p : Program) (limit fuel : Nat) : Reached outside s →
      Reached outside (after (p.run limit fuel) s)

theorem initial_grounded (outside : Outside) : (State.initial outside).Grounded :=
  ⟨AllData.empty, (initial_has outside).lt⟩

/-- What holds at first and is kept by every event holds in every state that
is reached. -/
theorem Reached.invariant {outside : Outside} {I : State → Prop} (hfirst : I (.initial outside))
    (hlaw : ∀ {limit s event t}, Law limit s event t → I s → I t) {s : State}
    (h : Reached outside s) : s.Grounded ∧ I s := by
  induction h with
  | initial => exact ⟨initial_grounded outside, hfirst⟩
  | run p limit fuel _ ih =>
    have hpast := p.history_leads limit fuel ih.1
    exact ⟨hpast.invariant Law.grounded ih.1, hpast.invariant hlaw ih.2⟩

end Run

end Quill
