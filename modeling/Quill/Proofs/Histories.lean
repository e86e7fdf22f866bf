-- Histories of runs. A recorded run does what the run does, and notes on a
-- tape every event on the way together with the state after it. What each
-- event does to the state is said once for all of them, and a history
-- consists of such events, each from the state that the one before has led
-- to. Scopes and calls are left again in it, the last one first.
import Mathlib
import Quill.Proofs.SafeRuns

namespace Quill.Run

/-! ## Recorded steps -/

/-- An event and the state after it. -/
structure Moment where
  event : Event
  state : State

/-- The state of a recorded run: the state of the run, and all that has
happened so far. -/
structure Tape where
  state : State
  past : List Moment

/-- The tape after an event that has led to the state `t`. -/
def Tape.note (r : Tape) (event : Event) (t : State) : Tape := ⟨t, r.past ++ [⟨event, t⟩]⟩

/-- A step of a recorded run. -/
abbrev Recorded := EStateM Halt Tape

/-- The same result with another state. -/
def endIn {σ τ α : Type} (f : σ → τ) : EStateM.Result Halt σ α → EStateM.Result Halt τ α
  | .ok x s => .ok x (f s)
  | .error e s => .error e (f s)

namespace Recorded

variable {α : Type}

/-- Does a step that changes nothing. -/
def look (m : Run α) : Recorded α := fun r => endIn (fun t => { r with state := t }) (m r.state)

/-- Does a step and notes it. -/
def act (event : Event) (m : Run α) : Recorded α := fun r =>
  match m r.state with
  | .ok x t => .ok x (r.note event t)
  | .error e t => .error e (r.note .failed t)

/-- Notes the result of a step as an event. -/
def noting (event : α → Event) (m : Recorded α) : Recorded α := do
  let x ← m
  act (event x) (pure x)

def within (enter : ScopeTree Value → ScopeTree Value) (body : ScopeId → Recorded α) :
    Recorded α := fun r =>
  let inner := r.state.scopes.size
  endIn (fun last => last.note (.left inner) (last.state.leave inner))
    (body inner (r.note .entered { r.state with scopes := enter r.state.scopes }))

def deeper (limit : Nat) (span : Span) (body : Recorded α) : Recorded α := fun r =>
  if limit ≤ r.state.depth then .error (.fatal ⟨.callDepth limit, span⟩) r
  else
    endIn (fun last => last.note .ended { last.state with depth := last.state.depth - 1 })
      (body (r.note .called { r.state with depth := r.state.depth + 1 }))

end Recorded

/-- A run that is recorded. -/
def recording : Mode Recorded where
  look := Recorded.look
  act := Recorded.act
  noting := Recorded.noting
  within := Recorded.within
  deeper := Recorded.deeper
  body _ signal := pure (returned signal)
  top _ _ := pure ()

/-- All that happens in a recorded step from a state. -/
def Recorded.history {α : Type} (rec : Recorded α) (s : State) : List Moment :=
  match rec ⟨s, []⟩ with
  | .ok _ r | .error _ r => r.past

/-! ## The law of events -/

/-- What an event does to the state `s`, with at most `limit` calls under
way. -/
inductive Law (limit : Nat) (s : State) : Event → State → Prop
  | value {scope : ScopeId} {e : Expr} {v : Value} : v.IsData → Law limit s (.value scope e v) s
  | made (fresh : Array (Array Value)) : AllData fresh →
      Law limit s .made { s with heap := s.heap.extend fresh }
  | builtin {name : String} {args : List Value} (more : String) (outside : Outside) :
      (∀ v ∈ args, v.IsData) →
      Law limit s (.builtin name args) { s with output := s.output ++ more, outside }
  | stored {a i v : Value} {slot : Slot} : v.IsData → Value.slot s.heap a i = .ok slot →
      Law limit s (.stored a i v) { s with heap := s.heap.write slot v }
  | assigned {scope : ScopeId} {name : String} {v : Value} : v.IsData → v.kind ≠ .void →
      Law limit s (.assigned scope name v) { s with
        scopes := s.scopes.insert ((s.scopes.owner? scope name).getD scope) name (some v) }
  | parameter {scope : ScopeId} {name : String} {v : Value} : v.IsData → 0 < scope →
      Law limit s (.parameter scope name v) { s with
        scopes := s.scopes.insert scope name (some v) }
  | item {scope : ScopeId} {name : String} {v : Value} : v.IsData → 0 < scope →
      Law limit s (.item scope name v) { s with scopes := s.scopes.insert scope name (some v) }
  | declared {scope : ScopeId} {d : FunctionDecl} :
      Law limit s (.declared scope d) { s with
        heap := s.heap.countFunction
        scopes := s.scopes.insert scope d.name.text
          (some (.function (.ofDecl d) s.heap.functions)) }
  | entered (parent : ScopeId) (inLoop inFunction : Bool) :
      Law limit s .entered { s with scopes := s.scopes.addChild parent inLoop inFunction }
  | left {scope : ScopeId} : 0 < scope → Law limit s (.left scope) (s.leave scope)
  | called : s.depth < limit → Law limit s .called { s with depth := s.depth + 1 }
  | returned {v : Value} : v.IsData → Law limit s (.returned v) s
  | ended : Law limit s .ended { s with depth := s.depth - 1 }
  | failed (more : String) (outside : Outside) :
      Law limit s .failed { s with output := s.output ++ more, outside }

/-- The history of a run from one state to another: events that follow the
law, each from the state after the one before. -/
inductive History (limit : Nat) : State → List Moment → State → Prop
  | start (s : State) : History limit s [] s
  | step {s t : State} {m : Moment} {later : List Moment} : Law limit s m.event m.state →
      History limit m.state later t → History limit s (m :: later) t

/-- The state that a history has led to. -/
def stateAfter (s : State) : List Moment → State
  | [] => s
  | m :: later => stateAfter m.state later

namespace History

variable {limit : Nat} {s t u : State} {past more : List Moment}

theorem one {event : Event} (h : Law limit s event t) : History limit s [⟨event, t⟩] t :=
  .step h (.start t)

theorem trans (h : History limit s past t) (h' : History limit t more u) :
    History limit s (past ++ more) u := by
  induction h with
  | start => exact h'
  | step hlaw _ ih => exact .step hlaw (ih h')

theorem stateAfter_eq (h : History limit s past t) : stateAfter s past = t := by
  induction h with
  | start => rfl
  | step _ _ ih => exact ih

/-- A history can be cut anywhere. -/
theorem split {before after : List Moment} (h : History limit s (before ++ after) t) :
    History limit s before (stateAfter s before) ∧
      History limit (stateAfter s before) after t := by
  induction before generalizing s with
  | nil => exact ⟨.start s, h⟩
  | cons m before ih =>
    obtain _ | ⟨hlaw, hlater⟩ := h
    exact ⟨.step hlaw (ih hlater).1, (ih hlater).2⟩

/-- Every event of a history follows the law. -/
theorem law {before after : List Moment} {m : Moment}
    (h : History limit s (before ++ m :: after) t) :
    Law limit (stateAfter s before) m.event m.state := by
  obtain _ | ⟨hlaw, -⟩ := h.split.2
  exact hlaw

/-- What every event keeps, the whole history keeps. -/
theorem invariant {I : State → Prop} (hlaw : ∀ {s event t}, Law limit s event t → I s → I t)
    (h : History limit s past t) (hs : I s) : I t := by
  induction h with
  | start => exact hs
  | step hstep _ ih => exact ih (hlaw hstep hs)

/-- What every event keeps holds at every moment. -/
theorem invariant_mem {I : State → Prop} (hlaw : ∀ {s event t}, Law limit s event t → I s → I t)
    (h : History limit s past t) (hs : I s) {m : Moment} (hm : m ∈ past) : I m.state := by
  obtain ⟨before, after, rfl⟩ := List.append_of_mem hm
  exact hlaw h.law (h.split.1.invariant hlaw hs)

end History

/-! ## Nested histories -/

/-- The event is neither about scopes nor about calls that begin or end. -/
def Event.isPlain : Event → Bool
  | .entered | .left _ | .called | .ended => false
  | _ => true

/-- The state in a new block or turn of a loop, which lies in a function if
the scope `p` around it does. -/
def State.inBlock (s : State) (p : ScopeId) (inLoop : Bool) : State :=
  { s with scopes := s.scopes.addChild p inLoop (s.scopes.inFunction p) }

/-- The state when a call has begun. -/
def State.deep (s : State) : State := { s with depth := s.depth + 1 }

/-- The state in the scope of a call that has begun. -/
def State.inCall (s : State) : State :=
  { s with scopes := s.scopes.addChild ScopeTree.globalId false true }

/-- The state when a call is over. -/
def State.shallow (s : State) : State := { s with depth := s.depth - 1 }

/-- A declaration that the event is stands in a scope with the property. -/
def Event.DeclaresIn (declares : ScopeId → Prop) (event : Event) : Prop :=
  ∀ scope d, event = .declared scope d → declares scope

/-- Histories in which every scope that is entered is left and every call
that has begun is over, the last one first. Each call has one scope.
Functions are declared in scopes with the property `declares`, or in scopes
that are new and left again. -/
inductive Nested (limit : Nat) : (ScopeId → Prop) → State → List Moment → State → Prop
  | start {declares} (s : State) : Nested limit declares s [] s
  | one {declares} {s t : State} {event : Event} : event.isPlain = true →
      event.DeclaresIn declares → Law limit s event t → Nested limit declares s [⟨event, t⟩] t
  | trans {declares} {s t u : State} {past more : List Moment} : Nested limit declares s past t →
      Nested limit declares t more u → Nested limit declares s (past ++ more) u
  | block {declares} {s t : State} {past : List Moment} (p : ScopeId) (inLoop : Bool) :
      0 < s.scopes.size → Nested limit (· = s.scopes.size) (s.inBlock p inLoop) past t →
      Nested limit declares s (⟨.entered, s.inBlock p inLoop⟩ :: past ++
        [⟨.left s.scopes.size, t.leave s.scopes.size⟩]) (t.leave s.scopes.size)
  | call {declares} {s t : State} {past : List Moment} : s.depth < limit → 0 < s.scopes.size →
      Nested limit (· = s.scopes.size) s.deep.inCall past t →
      Nested limit declares s (⟨.called, s.deep⟩ :: ⟨.entered, s.deep.inCall⟩ :: past ++
        [⟨.left s.scopes.size, t.leave s.scopes.size⟩,
          ⟨.ended, (t.leave s.scopes.size).shallow⟩]) (t.leave s.scopes.size).shallow

theorem Nested.mono {limit : Nat} {declares declares' : ScopeId → Prop} {s t : State}
    {past : List Moment} (h : Nested limit declares s past t)
    (hd : ∀ scope, declares scope → declares' scope) : Nested limit declares' s past t := by
  induction h generalizing declares' with
  | start s => exact .start s
  | one hplain hevent hlaw => exact .one hplain (fun i d hi => hd i (hevent i d hi)) hlaw
  | trans _ _ ih ih' => exact .trans (ih hd) (ih' hd)
  | block p inLoop hglobal hin _ => exact .block p inLoop hglobal hin
  | call hdepth hglobal hin _ => exact .call hdepth hglobal hin

theorem Nested.history {limit : Nat} {declares : ScopeId → Prop} {s t : State}
    {past : List Moment} (h : Nested limit declares s past t) : History limit s past t := by
  induction h with
  | start s => exact .start s
  | one _ _ hlaw => exact .one hlaw
  | trans _ _ ih ih' => exact ih.trans ih'
  | block p inLoop hglobal _ ih =>
    exact .step (.entered p inLoop _) (ih.trans (.one (.left hglobal)))
  | call hdepth hglobal _ ih =>
    refine .step (.called hdepth) (.step (.entered _ false true) (ih.trans ?_))
    exact .step (.left hglobal) (.one .ended)

/-! ## States that runs start from -/

/-- Arrays hold data only, and there is a global scope. -/
structure State.Grounded (s : State) : Prop where
  data : s.heap.Data
  global : 0 < s.scopes.size

theorem Law.data {limit : Nat} {s t : State} {event : Event} (h : Law limit s event t)
    (hs : s.heap.Data) : t.heap.Data := by
  cases h with
  | made fresh hfresh => exact hs.extend hfresh
  | stored hv _ => exact hs.write _ hv
  | _ => exact hs

theorem Law.grounded {limit : Nat} {s t : State} {event : Event} (h : Law limit s event t)
    (hs : s.Grounded) : t.Grounded := by
  refine ⟨h.data hs.data, ?_⟩
  have hglobal := hs.global
  have hinsert : ∀ i n v, 0 < (s.scopes.insert i n v).size := by
    intro i n v
    simpa [ScopeTree.insert, ScopeTree.size] using hglobal
  cases h with
  | assigned | parameter | item | declared => exact hinsert _ _ _
  | entered p l f => simp [ScopeTree.addChild, ScopeTree.size]
  | left hn =>
    simp only [State.leave, ScopeTree.keep, ScopeTree.size, Array.size_shrink]
    exact Nat.lt_min.mpr ⟨hn, hglobal⟩
  | _ => exact hglobal

theorem Nested.grounded {limit : Nat} {declares : ScopeId → Prop} {s t : State}
    {past : List Moment} (h : Nested limit declares s past t) (hs : s.Grounded) : t.Grounded :=
  h.history.invariant Law.grounded hs

theorem State.Grounded.inBlock {s : State} (h : s.Grounded) (p : ScopeId) (inLoop : Bool) :
    (s.inBlock p inLoop).Grounded :=
  Law.grounded (.entered p inLoop _ : Law 0 s .entered _) h

theorem State.Grounded.inCall {s : State} (h : s.Grounded) : s.deep.inCall.Grounded :=
  Law.grounded (.entered _ false true : Law 0 s.deep .entered _) ⟨h.data, h.global⟩

end Quill.Run
