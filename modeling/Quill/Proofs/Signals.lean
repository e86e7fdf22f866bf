-- The signals of statements. How control can leave a statement is seen from
-- its site alone: `stop` and `next` leave only what lies in a loop, and
-- `return` only what lies in a function. This holds in every state, for the
-- values that a run meets never make a signal.
import Mathlib
import Quill.Proofs.FitPrograms
import Quill.Proofs.RunLogic

namespace Quill

/-! ## Signals of a site -/

/-- The signal has a loop or a function that it can leave. -/
def Signal.Allowed (inLoop inFunction : Bool) : Signal → Prop
  | .normal => True
  | .stop | .next => inLoop = true
  | .return _ => inFunction = true

/-- A loop takes the signals that are meant for it and passes the others
on. -/
theorem Signal.Allowed.leaves {inLoop inFunction : Bool} {x y : Signal}
    (hx : x.Allowed true inFunction) (hl : Run.leaves x = some y) :
    y.Allowed inLoop inFunction := by
  cases x with
  | normal => cases hl
  | next => cases hl
  | stop =>
    cases hl
    trivial
  | «return» v =>
    cases hl
    exact hx

namespace Site

theorem after_inLoop (Γ : Site) (st : Stmt) : (Γ.after st).inLoop = Γ.inLoop := by
  unfold after
  split
  · split <;> rfl
  · rfl
  · rfl

theorem after_inFunction (Γ : Site) (st : Stmt) : (Γ.after st).inFunction = Γ.inFunction := by
  unfold after
  split
  · split <;> rfl
  · rfl
  · rfl

theorem bindAll_inLoop (Γ : Site) (params : List Name) :
    (Γ.bindAll params).inLoop = Γ.inLoop := by
  unfold bindAll
  induction params generalizing Γ with
  | nil => rfl
  | cons p params ih => exact ih (Γ.bind p.text none)

end Site

/-- Each statement of a list fits a site that lies where the list does. -/
theorem Stmt.AllFit.exists_site {T : String → Prop} {Γ : Site} {ss : List Stmt}
    (h : Stmt.AllFit T Γ ss) {st : Stmt} (hst : st ∈ ss) :
    ∃ Δ : Site, st.Fit T Δ ∧ Δ.inLoop = Γ.inLoop ∧ Δ.inFunction = Γ.inFunction := by
  induction ss generalizing Γ with
  | nil => cases hst
  | cons first ss ih =>
    rw [Stmt.AllFit] at h
    rcases List.mem_cons.mp hst with rfl | hst
    · exact ⟨Γ, h.1, rfl, rfl⟩
    · obtain ⟨Δ, hfit, hloop, hfunction⟩ := ih h.2 hst
      rw [Site.after_inLoop] at hloop
      rw [Site.after_inFunction] at hfunction
      exact ⟨Δ, hfit, hloop, hfunction⟩

theorem Block.Fit.statements {T : String → Prop} {Γ : Site} {b : Block} (h : b.Fit T Γ) :
    Stmt.AllFit T Γ b.statements := by
  obtain ⟨statements, span⟩ := b
  rwa [Block.Fit] at h

namespace Run

/-! ## What a step can have for its result -/

/-- Whenever the step has a result, it has the property. -/
def Yields {α : Type} (m : Run α) (P : α → Prop) : Prop :=
  ∀ s, Ends m s (fun x _ => P x) (fun _ _ => True)

namespace Yields

variable {α β : Type} {P : α → Prop} {Q : β → Prop} {inLoop inFunction : Bool}

theorem pure {x : α} (h : P x) : Yields (pure x) P := fun _ => h

theorem halt (e : Halt) : Yields (throw e : Run α) P := fun _ => trivial

theorem any (m : Run α) : Yields m fun _ => True := by
  intro s
  unfold Ends
  split <;> trivial

theorem bind {m : Run α} {f : α → Run β} (h : Yields m P) (hf : ∀ x, P x → Yields (f x) Q) :
    Yields (m >>= f) Q := fun s => (h s).bind fun x t hx => hf x hx t

/-- Only the last step decides. -/
theorem last (m : Run α) {f : α → Run β} (hf : ∀ x, Yields (f x) Q) : Yields (m >>= f) Q :=
  (any m).bind fun x _ => hf x

theorem within (enter : ScopeTree Value → ScopeTree Value) {body : ScopeId → Run α}
    (h : ∀ inner, Yields (body inner) P) : Yields (Mode.plain.within enter body) P :=
  fun _ => ends_within.mpr (h _ _)

theorem of_ok {m : Run α} (h : Yields m P) {s t : State} {x : α} (hm : m s = .ok x t) : P x := by
  have hs := h s
  unfold Ends at hs
  rwa [hm] at hs

theorem inOrder {step : α → Run Signal} {xs : List α}
    (h : ∀ x ∈ xs, Yields (step x) (Signal.Allowed inLoop inFunction)) :
    Yields (inOrder step xs) (Signal.Allowed inLoop inFunction) := by
  induction xs with
  | nil => exact pure trivial
  | cons x xs ih =>
    refine (h x List.mem_cons_self).bind ?_
    intro signal hsignal
    cases signal with
    | normal => exact ih fun y hy => h y (List.mem_cons_of_mem x hy)
    | _ => exact pure hsignal

theorem times {body : Run Signal} (h : Yields body (Signal.Allowed true inFunction))
    (count : Nat) : Yields (times body count) (Signal.Allowed inLoop inFunction) := by
  induction count with
  | zero => exact pure trivial
  | succ count ih =>
    refine h.bind ?_
    intro signal hsignal
    rcases hl : leaves signal with _ | out
    · exact ih
    · exact pure (hsignal.leaves hl)

theorem whileTrue {test : Nat → Run Bool} {body : Nat → Run Signal}
    (h : ∀ k, Yields (body k) (Signal.Allowed true inFunction)) (first fuel : Nat) :
    Yields (whileTrue test body first fuel) (Signal.Allowed inLoop inFunction) := by
  induction fuel generalizing first with
  | zero => exact halt _
  | succ fuel ih =>
    refine last (test first) fun b => ?_
    cases b with
    | false => exact pure trivial
    | true =>
      refine (h first).bind ?_
      intro signal hsignal
      rcases hl : leaves signal with _ | out
      · exact ih (first + 1)
      · exact pure (hsignal.leaves hl)

end Yields

/-! ## Signals of statements -/

variable {T : String → Prop} {Γ : Site} {limit fuel : Nat}

section Level

variable (execs : ∀ {Γ scope} st, st.Fit T Γ →
  Yields (exec limit fuel scope st) (Signal.Allowed Γ.inLoop Γ.inFunction))
include execs

theorem inOrder_allowed {ss : List Stmt} (hfit : Stmt.AllFit T Γ ss) (scope : ScopeId) :
    Yields (inOrder (exec limit fuel scope) ss) (Signal.Allowed Γ.inLoop Γ.inFunction) := by
  refine Yields.inOrder fun st hst => ?_
  obtain ⟨Δ, hst, hloop, hfunction⟩ := hfit.exists_site hst
  rw [← hloop, ← hfunction]
  exact execs st hst

theorem block_allowed {b : Block} (hfit : b.Fit T Γ) (enter : ScopeTree Value → ScopeTree Value) :
    Yields (Mode.plain.within enter fun inner => inOrder (exec limit fuel inner) b.statements)
      (Signal.Allowed Γ.inLoop Γ.inFunction) :=
  Yields.within enter fun inner => inOrder_allowed execs hfit.statements inner

theorem cond_allowed {test : Expr} {yes : Block} {no : Option Block} {span : Span}
    (hfit : Stmt.Fit T Γ ⟨.cond test yes no, span⟩) (scope : ScopeId) :
    Yields (exec limit (fuel + 1) scope ⟨.cond test yes no, span⟩)
      (Signal.Allowed Γ.inLoop Γ.inFunction) := by
  refine Yields.last _ fun v => Yields.last _ fun b => ?_
  cases no with
  | none =>
    rw [Stmt.Fit] at hfit
    split
    · exact block_allowed execs hfit.2 _
    · exact Yields.pure trivial
  | some no =>
    rw [Stmt.Fit] at hfit
    split
    · exact block_allowed execs hfit.2.1 _
    · exact block_allowed execs hfit.2.2 _

theorem exec_succ_allowed (scope : ScopeId) (st : Stmt) (hfit : st.Fit T Γ) :
    Yields (exec limit (fuel + 1) scope st) (Signal.Allowed Γ.inLoop Γ.inFunction) := by
  obtain ⟨node, span⟩ := st
  cases node with
  | expr e =>
    exact Yields.last _ fun _ => Yields.pure trivial
  | assign target e =>
    obtain ⟨node, targetSpan⟩ := target
    cases node with
    | name name =>
      refine Yields.last _ fun v => ?_
      split
      · exact Yields.halt _
      · exact Yields.last _ fun _ => Yields.pure trivial
    | element base index =>
      refine Yields.last _ fun v => ?_
      split
      · exact Yields.halt _
      · refine Yields.last _ fun _ => Yields.last _ fun _ => ?_
        exact Yields.last _ fun _ => Yields.pure trivial
  | cond test yes no => exact cond_allowed execs hfit scope
  | loop test body =>
    rw [Stmt.Fit] at hfit
    exact Yields.whileTrue (fun _ => block_allowed execs hfit.2 _) 0 fuel
  | each item items body =>
    rw [Stmt.Fit] at hfit
    refine Yields.last _ fun v => Yields.last _ fun _ => Yields.within _ fun outer => ?_
    refine Yields.whileTrue (fun k => ?_) 0 fuel
    exact Yields.last _ fun _ => Yields.last _ fun _ => block_allowed execs hfit.2 _
  | times count body =>
    rw [Stmt.Fit] at hfit
    refine Yields.last _ fun v => Yields.last _ fun n => ?_
    exact Yields.times (block_allowed execs hfit.2 _) n
  | function d =>
    exact Yields.last _ fun _ => Yields.pure trivial
  | «return» value =>
    cases value with
    | none =>
      rw [Stmt.Fit] at hfit
      exact Yields.pure hfit
    | some e =>
      rw [Stmt.Fit] at hfit
      exact Yields.last _ fun v => Yields.pure hfit.1
  | stop =>
    rw [Stmt.Fit] at hfit
    exact Yields.pure hfit
  | next =>
    rw [Stmt.Fit] at hfit
    exact Yields.pure hfit

end Level

/-- Control leaves a statement that fits only as its site allows, from
every state. The induction is on the fuel. -/
theorem exec_allowed (limit fuel : Nat) (scope : ScopeId) {st : Stmt} (hfit : st.Fit T Γ) :
    Yields (exec limit fuel scope st) (Signal.Allowed Γ.inLoop Γ.inFunction) := by
  induction fuel generalizing Γ scope st with
  | zero => exact Yields.halt _
  | succ fuel ih => exact exec_succ_allowed (fun st hst => ih _ hst) scope st hfit

end Run

end Quill
