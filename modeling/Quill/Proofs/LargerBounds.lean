-- Larger bounds change no answer. A run that neither its fuel nor the limit
-- of calls cuts off ends in the same way, with the same output, globals and
-- outside, whenever more fuel or a larger limit is given.
import Mathlib
import Quill.Compile
import Quill.Proofs.LexedTexts
import Quill.Proofs.RunLogic

namespace Quill

namespace Run

/-- Why a run with smaller bounds may end before one with larger bounds: its
fuel is used up, or fewer calls may be under way. -/
def Cut (limit limit' : Nat) (h : Halt) : Prop :=
  h = .outOfFuel ∨ limit < limit' ∧ ∃ span, h = .fatal ⟨.callDepth limit, span⟩

/-- The first step does what the second one does, unless the second one is
cut off. -/
def Prolongs {α : Type} (limit limit' : Nat) (m' m : Run α) : Prop :=
  ∀ s, m' s = m s ∨ ∃ h t, Cut limit limit' h ∧ m s = .error h t

variable {α β : Type} {m m' : Run α} {limit limit' fuel fuel' : Nat}

namespace Prolongs

theorem refl (m : Run α) : Prolongs limit limit' m m := fun _ => Or.inl rfl

theorem of_outOfFuel : Prolongs limit limit' m' (throw .outOfFuel) :=
  fun s => Or.inr ⟨.outOfFuel, s, Or.inl rfl, rfl⟩

theorem bind {k k' : α → Run β} (h : Prolongs limit limit' m' m)
    (hk : ∀ x, Prolongs limit limit' (k' x) (k x)) :
    Prolongs limit limit' (m' >>= k') (m >>= k) := by
  intro s
  simp only [Bind.bind, EStateM.bind]
  rcases h s with heq | ⟨halt, t, hcut, ht⟩
  · rw [heq]
    rcases m s with ⟨x, t⟩ | ⟨e, t⟩
    · exact hk x t
    · exact Or.inl rfl
  · rw [ht]
    exact Or.inr ⟨halt, t, hcut, rfl⟩

theorem within {enter : ScopeTree Value → ScopeTree Value} {body body' : ScopeId → Run α}
    (h : ∀ inner, Prolongs limit limit' (body' inner) (body inner)) :
    Prolongs limit limit' (Mode.plain.within enter body') (Mode.plain.within enter body) := by
  intro s
  simp only [Mode.plain, Run.within]
  rcases h s.scopes.size { s with scopes := enter s.scopes } with heq | ⟨halt, t, hcut, ht⟩
  · exact Or.inl (by rw [heq])
  · rw [ht]
    exact Or.inr ⟨halt, _, hcut, rfl⟩

/-- A call that the larger limit allows and the smaller one does not is where
the run with the smaller limit is cut off. -/
theorem deeper (hlimit : limit ≤ limit') {span : Span} (h : Prolongs limit limit' m' m) :
    Prolongs limit limit' (deeper limit' span m') (deeper limit span m) := by
  intro s
  simp only [Run.deeper]
  by_cases hdepth : limit ≤ s.depth
  · simp only [hdepth, ↓reduceIte]
    by_cases hlt : limit < limit'
    · exact Or.inr ⟨_, s, Or.inr ⟨hlt, span, rfl⟩, rfl⟩
    · obtain rfl : limit = limit' := by omega
      exact Or.inl (by simp [hdepth])
  · have hdepth' : ¬limit' ≤ s.depth := by omega
    simp only [hdepth, hdepth', ↓reduceIte]
    rcases h { s with depth := s.depth + 1 } with heq | ⟨halt, t, hcut, ht⟩
    · exact Or.inl (by rw [heq])
    · rw [ht]
      exact Or.inr ⟨halt, _, hcut, rfl⟩

theorem mapM {step step' : α → Run β} {xs : List α}
    (h : ∀ x, Prolongs limit limit' (step' x) (step x)) :
    Prolongs limit limit' (xs.mapM step') (xs.mapM step) := by
  induction xs with
  | nil => exact refl _
  | cons x xs ih =>
    rw [List.mapM_cons, List.mapM_cons]
    exact (h x).bind fun _ => ih.bind fun _ => refl _

theorem inOrder {step step' : α → Run Signal} (h : ∀ x, Prolongs limit limit' (step' x) (step x))
    (xs : List α) : Prolongs limit limit' (inOrder step' xs) (inOrder step xs) := by
  induction xs with
  | nil => exact refl _
  | cons x xs ih =>
    refine (h x).bind fun signal => ?_
    cases signal with
    | normal => exact ih
    | _ => exact refl _

theorem times {body body' : Run Signal} (h : Prolongs limit limit' body' body) (count : Nat) :
    Prolongs limit limit' (times body' count) (times body count) := by
  induction count with
  | zero => exact refl _
  | succ count ih =>
    refine h.bind fun signal => ?_
    rcases leaves signal with _ | out
    · exact ih
    · exact refl _

theorem whileTrue {test test' : Nat → Run Bool} {body body' : Nat → Run Signal}
    (htest : ∀ k, Prolongs limit limit' (test' k) (test k))
    (hbody : ∀ k, Prolongs limit limit' (body' k) (body k)) (first : Nat) (hle : fuel ≤ fuel') :
    Prolongs limit limit' (whileTrue test' body' first fuel') (whileTrue test body first fuel) := by
  induction fuel generalizing first fuel' with
  | zero => exact of_outOfFuel
  | succ fuel ih =>
    obtain ⟨fuel', rfl⟩ : ∃ k, fuel' = k + 1 := ⟨fuel' - 1, by omega⟩
    refine (htest first).bind fun b => ?_
    cases b with
    | false => exact refl _
    | true =>
      refine (hbody first).bind fun signal => ?_
      rcases leaves signal with _ | out
      · exact ih (first + 1) (by omega)
      · exact refl _

end Prolongs

/-! ## One level of evaluation -/

section Level

variable (hlimit : limit ≤ limit')
  (evals : ∀ scope e, Prolongs limit limit' (eval limit' fuel' scope e) (eval limit fuel scope e))
  (execs : ∀ scope st,
    Prolongs limit limit' (exec limit' fuel' scope st) (exec limit fuel scope st))

include execs in
theorem block_prolongs (enter : ScopeTree Value → ScopeTree Value) (b : Block) :
    Prolongs limit limit'
      (Mode.plain.within enter fun inner => inOrder (exec limit' fuel' inner) b.statements)
      (Mode.plain.within enter fun inner => inOrder (exec limit fuel inner) b.statements) :=
  Prolongs.within fun inner => Prolongs.inOrder (execs inner) b.statements

include hlimit evals execs in
theorem eval_succ_prolongs (scope : ScopeId) (e : Expr) :
    Prolongs limit limit' (eval limit' (fuel' + 1) scope e) (eval limit (fuel + 1) scope e) := by
  obtain ⟨node, span⟩ := e
  cases node with
  | array elements => exact (Prolongs.mapM (evals scope)).bind fun _ => .refl _
  | binary left op right =>
    exact (evals scope left).bind fun _ => (evals scope right).bind fun _ => .refl _
  | unary op operand => exact (evals scope operand).bind fun _ => .refl _
  | range first last =>
    exact (evals scope first).bind fun _ => (evals scope last).bind fun _ => .refl _
  | index base index =>
    exact (evals scope base).bind fun _ => (evals scope index).bind fun _ => .refl _
  | call name args =>
    refine (Prolongs.refl (callee scope name)).bind fun f => ?_
    refine (Prolongs.mapM (evals scope)).bind fun values => ?_
    by_cases hlen : values.length = f.arity
    · simp only [hlen, ne_eq, not_true_eq_false, ↓reduceIte]
      rcases f.decl with _ | d
      · exact .refl _
      · refine Prolongs.deeper hlimit (Prolongs.within fun frame => ?_)
        refine (Prolongs.refl (Mode.plain.bindParams frame d.params values)).bind fun _ => ?_
        exact (Prolongs.inOrder (execs frame) d.body.statements).bind fun _ => .refl _
    · simp only [hlen, ne_eq, not_false_eq_true, ↓reduceIte]
      exact .refl _
  | cast target operand => exact (evals scope operand).bind fun _ => .refl _
  | _ => exact .refl _

include evals execs in
theorem exec_succ_prolongs (hle : fuel ≤ fuel') (scope : ScopeId) (st : Stmt) :
    Prolongs limit limit' (exec limit' (fuel' + 1) scope st) (exec limit (fuel + 1) scope st) := by
  obtain ⟨node, span⟩ := st
  cases node with
  | expr e => exact (evals scope e).bind fun _ => .refl _
  | assign target e =>
    obtain ⟨node, targetSpan⟩ := target
    cases node with
    | name name =>
      exact (evals scope e).bind fun _ => .refl _
    | element base index =>
      refine (evals scope e).bind fun v => ?_
      split
      · exact .refl _
      · exact (evals scope base).bind fun _ => (evals scope index).bind fun _ => .refl _
  | cond test yes no =>
    refine (evals scope test).bind fun v => (Prolongs.refl (truth v test.span)).bind fun b => ?_
    cases b with
    | true =>
      simp only [↓reduceIte]
      exact block_prolongs execs _ yes
    | false =>
      simp only [Bool.false_eq_true, ↓reduceIte]
      cases no with
      | some no => exact block_prolongs execs _ no
      | none => exact .refl _
  | loop test body =>
    exact Prolongs.whileTrue (fun _ => (evals scope test).bind fun _ => .refl _)
      (fun _ => block_prolongs execs _ body) 0 hle
  | each item items body =>
    refine (evals scope items).bind fun v => ?_
    refine (Prolongs.refl (iterable v items.span)).bind fun _ => ?_
    refine Prolongs.within fun outer => ?_
    refine Prolongs.whileTrue (fun k => .refl (hasItem v k)) (fun k => ?_) 0 hle
    refine (Prolongs.refl (itemOf v k items.span)).bind fun w => ?_
    exact (Prolongs.refl (bindName outer item.text w)).bind fun _ => block_prolongs execs _ body
  | times count body =>
    refine (evals scope count).bind fun v => ?_
    refine (Prolongs.refl (turnCount v count.span)).bind fun n => ?_
    exact Prolongs.times (block_prolongs execs _ body) n
  | «return» value =>
    cases value with
    | none => exact .refl _
    | some e => exact (evals scope e).bind fun _ => .refl _
  | _ => exact .refl _

end Level

/-! ## Every evaluation -/

/-- Larger bounds prolong. The induction is on the smaller amount of fuel, for
expressions and statements together. -/
theorem eval_exec_prolongs (hlimit : limit ≤ limit') (hle : fuel ≤ fuel') :
    (∀ scope e, Prolongs limit limit' (eval limit' fuel' scope e) (eval limit fuel scope e)) ∧
      ∀ scope st,
        Prolongs limit limit' (exec limit' fuel' scope st) (exec limit fuel scope st) := by
  induction fuel generalizing fuel' with
  | zero => exact ⟨fun _ _ => .of_outOfFuel, fun _ _ => .of_outOfFuel⟩
  | succ fuel ih =>
    obtain ⟨fuel', rfl⟩ : ∃ k, fuel' = k + 1 := ⟨fuel' - 1, by omega⟩
    have hle : fuel ≤ fuel' := by omega
    obtain ⟨evals, execs⟩ := ih hle
    exact ⟨eval_succ_prolongs hlimit evals execs, exec_succ_prolongs evals execs hle⟩

theorem topLevel_prolongs (hlimit : limit ≤ limit') (hle : fuel ≤ fuel') (ss : List Stmt) :
    Prolongs limit limit' (topLevel limit' fuel' ss) (topLevel limit fuel ss) := by
  induction ss with
  | nil => exact .refl _
  | cons st ss ih =>
    exact ((eval_exec_prolongs hlimit hle).2 ScopeTree.globalId st).bind fun _ => ih

/-! ## More fuel -/

/-- The first step does what the second one does, unless the second one
runs out of fuel. -/
def Outlasts {α : Type} (m' m : Run α) : Prop := ∀ s, m' s = m s ∨ ∃ t, m s = .error .outOfFuel t

/-- With one limit only the fuel makes a difference. -/
theorem Prolongs.outlasts (h : Prolongs limit limit m' m) : Outlasts m' m := by
  intro s
  rcases h s with heq | ⟨halt, t, rfl | ⟨hlt, _⟩, ht⟩
  · exact Or.inl heq
  · exact Or.inr ⟨t, ht⟩
  · omega

theorem eval_exec_outlasts (limit : Nat) {fuel fuel' : Nat} (hle : fuel ≤ fuel') :
    (∀ scope e, Outlasts (eval limit fuel' scope e) (eval limit fuel scope e)) ∧
      ∀ scope st, Outlasts (exec limit fuel' scope st) (exec limit fuel scope st) := by
  obtain ⟨evals, execs⟩ := eval_exec_prolongs (Nat.le_refl limit) hle
  exact ⟨fun scope e => (evals scope e).outlasts, fun scope st => (execs scope st).outlasts⟩

theorem topLevel_outlasts (limit : Nat) {fuel fuel' : Nat} (hle : fuel ≤ fuel')
    (ss : List Stmt) : Outlasts (topLevel limit fuel' ss) (topLevel limit fuel ss) :=
  (topLevel_prolongs (Nat.le_refl limit) hle ss).outlasts

end Run

/-! ## A larger limit -/

/-- The limit of calls only cuts runs off: one that ends before its fuel is
used up, and with anything but the error that too many calls are under way,
ends with the same result and in the same state with a larger limit. -/
theorem Program.run_of_larger_limit (p : Program) {limit limit' fuel fuel' : Nat}
    (hlimit : limit ≤ limit') (hfuel : fuel ≤ fuel') (s : Run.State)
    (hends : ∀ t, p.run limit fuel s ≠ .error .outOfFuel t)
    (huncut : ∀ span t, p.run limit fuel s ≠ .error (.fatal ⟨.callDepth limit, span⟩) t) :
    p.run limit' fuel' s = p.run limit fuel s := by
  rcases Run.topLevel_prolongs hlimit hfuel p.statements s with
    heq | ⟨halt, t, rfl | ⟨_, span, rfl⟩, ht⟩
  · exact heq
  · exact absurd ht (hends t)
  · exact absurd ht (huncut span t)

/-- Two calls are under way at most, so a limit of two gives what any larger
one gives. -/
theorem Program.run_of_larger_limit_two :
    let source := "function f(n) \x7b if n = 0 \x7b return 1 \x7d return f(n - 1) \x7d output(f(1))"
    let s := Run.State.initial (.replay [])
    ∃ p, parseSource source = .ok p ∧
      (Run.fatal? (p.run 1 40) s).map (·.fault) = some (.callDepth 1) ∧
      ∀ limit, 2 ≤ limit → p.run limit 40 s = p.run 2 40 s := by
  intro source s
  obtain ⟨p, hp, hrun⟩ := exists_of_toOption_any (r := parseSource source)
    (P := fun p => (Run.fatal? (p.run 1 40) s).map (·.fault) = some (.callDepth 1) ∧
      EStateM.run' (p.run 2 40) s = some ()) (by decide +kernel)
  obtain ⟨hone, htwo⟩ := of_decide_eq_true hrun
  have hok : ∀ e t, p.run 2 40 s ≠ .error e t := by
    intro e t he
    simp [EStateM.run', EStateM.run, he] at htwo
  exact ⟨p, hp, hone, fun limit hlimit => p.run_of_larger_limit hlimit (Nat.le_refl 40) s
    (fun t => hok _ t) (fun _ t => hok _ t)⟩

end Quill
