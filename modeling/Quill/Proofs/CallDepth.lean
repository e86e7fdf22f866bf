-- How many calls are under way. The depth of a state counts the calls of
-- declared functions that have begun and are not over, and each of them has
-- a scope of its own. It never passes the limit, evaluation leaves it as it
-- was however it ends, and a call is refused before its body exactly when as
-- many calls are under way as the limit allows.
import Mathlib
import Quill.Proofs.LexedTexts
import Quill.Proofs.RecordedRuns
import Quill.Proofs.RejectedLines

namespace Quill

/-! ## The scopes of calls -/

namespace ScopeTree

variable {α : Type} {t u : ScopeTree α}

/-- How many scopes of calls there are. The scope of a call lies in a function
and right inside the global scope; a block there lies in no function. -/
def frames (t : ScopeTree α) : Nat := t.shape.countP fun s => s.1 == some globalId && s.2.2.2

theorem frames_of_shape (h : u.shape = t.shape) : u.frames = t.frames := by
  unfold frames
  rw [h]

theorem inFunction_of_shape (h : u.shape = t.shape) (i : ScopeId) :
    u.inFunction i = t.inFunction i := by
  have hflag : ∀ t : ScopeTree α, t.inFunction i = (t.shape[i]?).any (·.2.2.2) := by
    intro t
    rw [inFunction, shape_getElem?, Option.any_map]
  rw [hflag, hflag, h]

theorem frames_block (h : t.inFunction globalId = false) (p : ScopeId) (inLoop : Bool) :
    (t.addChild p inLoop (t.inFunction p)).frames = t.frames := by
  unfold frames
  rw [shape_addChild, List.countP_append]
  by_cases hp : p = globalId
  · simp [hp, h]
  · simp [hp]

theorem frames_call (t : ScopeTree α) :
    (t.addChild globalId false true).frames = t.frames + 1 := by
  unfold frames
  rw [shape_addChild, List.countP_append]
  rfl

theorem inFunction_addChild (h : 0 < t.size) (p : ScopeId) (l f : Bool) :
    (t.addChild p l f).inFunction globalId = t.inFunction globalId := by
  have hget : (t.addChild p l f).get? globalId = t.get? globalId := get?_addChild_of_lt p l f h
  rw [inFunction, inFunction, hget]

end ScopeTree

namespace Run

variable {limit limit' : Nat} {declares : ScopeId → Prop} {s t : State} {past more : List Moment}

/-! ## What nested histories keep -/

theorem Law.plain {event : Event} (h : Law limit s event t) (hplain : event.isPlain = true) :
    t.depth = s.depth ∧ t.scopes.shape = s.scopes.shape := by
  cases h with
  | entered | left | called | ended => simp [Event.isPlain] at hplain
  | assigned | parameter | item | declared => exact ⟨rfl, ScopeTree.shape_insert _ _ _ _⟩
  | _ => exact ⟨rfl, rfl⟩

/-- At the end of a nested history there are the scopes of its beginning, and
as many calls are under way. -/
theorem Nested.restores (h : Nested limit declares s past t) :
    t.depth = s.depth ∧ t.scopes.shape = s.scopes.shape := by
  induction h with
  | start => exact ⟨rfl, rfl⟩
  | one hplain hevent hlaw => exact hlaw.plain hplain
  | trans _ _ ih ih' => exact ⟨ih'.1.trans ih.1, ih'.2.trans ih.2⟩
  | block p inLoop _ _ ih => exact ⟨ih.1, ScopeTree.shape_keep_of_addChild ih.2⟩
  | call _ _ _ ih => exact ⟨Nat.sub_eq_of_eq_add ih.1, ScopeTree.shape_keep_of_addChild ih.2⟩

/-! ## States with a scope for every call -/

/-- As many calls are under way as there are scopes of calls, and not more
than the limit allows. -/
structure State.Tallied (limit : Nat) (s : State) : Prop extends s.Grounded where
  outer : s.scopes.inFunction ScopeTree.globalId = false
  frames : s.scopes.frames = s.depth
  le : s.depth ≤ limit

namespace State.Tallied

theorem mono (h : s.Tallied limit) (hle : limit ≤ limit') : s.Tallied limit' :=
  { h with le := h.le.trans hle }

theorem nested (h : s.Tallied limit) (hpast : Nested limit' declares s past t) :
    t.Tallied limit := by
  obtain ⟨hdepth, hshape⟩ := hpast.restores
  refine ⟨hpast.grounded h.toGrounded, ?_, ?_, ?_⟩
  · rw [ScopeTree.inFunction_of_shape hshape, h.outer]
  · rw [ScopeTree.frames_of_shape hshape, hdepth, h.frames]
  · rw [hdepth]
    exact h.le

theorem inBlock (h : s.Tallied limit) (p : ScopeId) (inLoop : Bool) :
    (s.inBlock p inLoop).Tallied limit := by
  refine ⟨h.toGrounded.inBlock p inLoop, ?_, ?_, h.le⟩
  · exact (ScopeTree.inFunction_addChild h.global p _ _).trans h.outer
  · exact (ScopeTree.frames_block h.outer p inLoop).trans h.frames

theorem inCall (h : s.Tallied limit) (hdepth : s.depth < limit) :
    s.deep.inCall.Tallied limit := by
  refine ⟨h.toGrounded.inCall, ?_, ?_, hdepth⟩
  · exact (ScopeTree.inFunction_addChild h.global _ _ _).trans h.outer
  · exact (ScopeTree.frames_call s.scopes).trans (congrArg (· + 1) h.frames)

end State.Tallied

/-! ## Every moment of a history -/

/-- The event can leave a call without a scope: it has begun and its scope is
not there yet, or its scope has been left and it is not over yet. -/
def Event.isEdge : Event → Bool
  | .called | .left _ => true
  | _ => false

/-- As many calls are under way as there are scopes of calls, but for one at
its very beginning or end, and not more than the limit allows. -/
structure Moment.Accounted (limit : Nat) (m : Moment) : Prop where
  grounded : m.state.Grounded
  le : m.state.depth ≤ limit
  frames : m.state.Tallied limit ∨
    m.event.isEdge = true ∧ m.state.scopes.frames + 1 = m.state.depth

namespace State.Tallied

theorem accounted {event : Event} (h : s.Tallied limit) : Moment.Accounted limit ⟨event, s⟩ :=
  ⟨h.toGrounded, h.le, Or.inl h⟩

theorem accounted_called (h : s.Tallied limit) (hdepth : s.depth < limit) :
    Moment.Accounted limit ⟨.called, s.deep⟩ :=
  ⟨⟨h.data, h.global⟩, hdepth, Or.inr ⟨rfl, congrArg (· + 1) h.frames⟩⟩

/-- The scope of a call is gone when it has been left, but the call still
counts. -/
theorem accounted_left (h : s.Tallied limit) (hdepth : s.depth < limit)
    (hin : Nested limit declares s.deep.inCall past t) :
    Moment.Accounted limit ⟨.left s.scopes.size, t.leave s.scopes.size⟩ := by
  obtain ⟨hdeep, hshape⟩ := hin.restores
  have hlaw : Law limit t (.left s.scopes.size) (t.leave s.scopes.size) := .left h.global
  have hframes : (t.leave s.scopes.size).scopes.frames = s.scopes.frames :=
    ScopeTree.frames_of_shape (ScopeTree.shape_keep_of_addChild hshape)
  refine ⟨hlaw.grounded (hin.grounded h.toGrounded.inCall), hdeep.trans_le hdepth, Or.inr ?_⟩
  refine ⟨rfl, ?_⟩
  rw [hframes, h.frames]
  exact hdeep.symm

end State.Tallied

theorem Nested.accounted (h : Nested limit declares s past t) (hs : s.Tallied limit) :
    ∀ m ∈ past, m.Accounted limit := by
  induction h with
  | start => simp
  | one hplain hevent hlaw =>
    intro m hm
    obtain rfl := List.mem_singleton.mp hm
    exact (hs.nested (.one hplain hevent hlaw)).accounted
  | trans hpast _ ih ih' =>
    intro m hm
    rcases List.mem_append.mp hm with hm | hm
    · exact ih hs m hm
    · exact ih' (hs.nested hpast) m hm
  | @block around _ _ _ p inLoop hglobal hin ih =>
    have hinner := hs.inBlock p inLoop
    have hpast : Nested limit around _ _ _ := .block p inLoop hglobal hin
    have hafter := hs.nested hpast
    simp only [List.cons_append, List.forall_mem_cons, List.forall_mem_append, List.not_mem_nil,
      IsEmpty.forall_iff, implies_true, and_true]
    exact ⟨hinner.accounted, ih hinner, hafter.accounted⟩
  | @call around _ _ _ hdepth hglobal hin ih =>
    have hinner := hs.inCall hdepth
    have hpast : Nested limit around _ _ _ := .call hdepth hglobal hin
    have hafter := hs.nested hpast
    simp only [List.cons_append, List.forall_mem_cons, List.forall_mem_append, List.not_mem_nil,
      IsEmpty.forall_iff, implies_true, and_true]
    exact ⟨hs.accounted_called hdepth, hinner.accounted, ih hinner, hs.accounted_left hdepth hin,
      hafter.accounted⟩

/-! ## Calls that have begun and are not over -/

/-- How an event changes how many calls are under way. -/
def Event.calls : Event → Int
  | .called => 1
  | .ended => -1
  | _ => 0

/-- How many calls more have begun in a history than are over. -/
def underWay (past : List Moment) : Int := (past.map (·.event.calls)).sum

/-- Every event changes the depth as it changes how many calls are under
way. -/
def Counts (s : State) : List Moment → Prop
  | [] => True
  | m :: later => (m.state.depth : Int) = s.depth + m.event.calls ∧ Counts m.state later

theorem Counts.append (h : Counts s past) (hpast : History limit s past t) (h' : Counts t more) :
    Counts s (past ++ more) := by
  induction hpast with
  | start => exact h'
  | step _ _ ih => exact ⟨h.1, ih h.2 h'⟩

theorem Law.calls_of_plain {event : Event} (hlaw : Law limit s event t)
    (hplain : event.isPlain = true) : (t.depth : Int) = s.depth + event.calls := by
  rw [(hlaw.plain hplain).1]
  cases event with
  | entered | left | called | ended => simp [Event.isPlain] at hplain
  | _ => simp [Event.calls]

theorem Nested.counts (h : Nested limit declares s past t) : Counts s past := by
  induction h with
  | start => trivial
  | one hplain hevent hlaw => exact ⟨hlaw.calls_of_plain hplain, trivial⟩
  | trans hpast _ ih ih' => exact ih.append hpast.history ih'
  | block _ _ _ hin ih =>
    exact ⟨(add_zero _).symm, ih.append hin.history ⟨(add_zero _).symm, trivial⟩⟩
  | @call _ s t past _ _ hin ih =>
    have hdeep : t.depth = s.depth + 1 := hin.restores.1
    refine ⟨rfl, (add_zero _).symm, ih.append hin.history ⟨(add_zero _).symm, ?_, trivial⟩⟩
    have hshallow : (t.leave s.scopes.size).shallow.depth = s.depth := Nat.sub_eq_of_eq_add hdeep
    have hleave : (t.leave s.scopes.size).depth = s.depth + 1 := hdeep
    simp only [hshallow, hleave, Event.calls]
    omega

/-- At every moment the depth is what it was at first, and one more for every
call that has begun since and is not over. -/
theorem Counts.depth_eq {before later : List Moment} {m : Moment}
    (h : Counts s (before ++ m :: later)) :
    (m.state.depth : Int) = s.depth + underWay (before ++ [m]) := by
  induction before generalizing s with
  | nil => simpa [underWay] using h.1
  | cons first before ih =>
    have hlater := ih h.2
    rw [hlater, h.1]
    simp [underWay]
    omega

/-- At every moment of a history from a state without calls, the depth is the
number of calls that have begun and are not over. -/
structure Accounted (limit : Nat) (past : List Moment) : Prop where
  moments : ∀ m ∈ past, m.Accounted limit
  calls : ∀ before m later, past = before ++ m :: later →
    (m.state.depth : Int) = underWay (before ++ [m])

theorem Nested.accounts (h : Nested limit declares s past t) (hs : s.Tallied 0) :
    Accounted limit past := by
  refine ⟨h.accounted (hs.mono (Nat.zero_le limit)), ?_⟩
  rintro before m later rfl
  have hdepth : s.depth = 0 := Nat.le_zero.mp hs.le
  simpa [hdepth] using h.counts.depth_eq

/-! ## Evaluation -/

/-- The step leaves as many calls under way as it finds, however it ends. -/
def Restores {α : Type} (m : Run α) : Prop := ∀ s : State, s.Grounded → (after m s).depth = s.depth

theorem Records.restores {α : Type} {rec : Recorded α} {m : Run α} {P : α → Prop}
    (h : Records limit declares rec m P) : Restores m := fun _ hs => (h.nested hs).restores.1

/-- The body of a call in the scope of the call. -/
def callBody (limit fuel : Nat) (d : FunctionDecl) (values : List Value) : Run Value :=
  within (·.addChild ScopeTree.globalId false true) fun frame => do
    Mode.plain.bindParams frame d.params values
    return returned (← inOrder (exec limit fuel frame) d.body.statements)

/-- A call of a declared function with as many arguments as it has parameters
is refused when its arguments have been evaluated, without another change, or
its body is run. It is refused if there is a scope for as many calls as the
limit allows. -/
theorem eval_call {fuel : Nat} {scope : ScopeId} {name : Name} {args : List Expr} {span : Span}
    {f : Function} {d : FunctionDecl} {values : List Value} (hs : s.Tallied limit)
    (hcallee : callee scope name s = .ok f s)
    (hargs : args.mapM (eval limit fuel scope) s = .ok values t)
    (harity : values.length = f.arity) (hdecl : f.decl = some d) :
    eval limit (fuel + 1) scope ⟨.call name args, span⟩ s =
      if t.scopes.frames = limit then .error (.fatal ⟨.callDepth limit, name.span⟩) t
      else endIn State.shallow (callBody limit fuel d values t.deep) := by
  have hcall : eval limit (fuel + 1) scope ⟨.call name args, span⟩ s =
      deeper limit name.span (callBody limit fuel d values) t := by
    rw [eval] at hargs ⊢
    simp only [Mode.eval, plain_noting, plain_look, bind, EStateM.bind, hcallee, hargs, harity,
      hdecl, ne_eq, not_true_eq_false, ↓reduceIte]
    rfl
  have ht : t.Tallied limit := by
    have hrecords := mapM_eval_records (eval_records limit fuel) scope args
    have hnested := hs.nested (hrecords.nested hs.toGrounded)
    simpa only [after, hargs] using hnested
  have hfull : limit ≤ t.depth ↔ t.scopes.frames = limit := by
    rw [ht.frames]
    have := ht.le
    omega
  rw [hcall, deeper_apply]
  simp only [hfull]
  rfl

end Run

/-! ## Sessions -/

namespace Session

theorem initial_tallied (outside : Outside) : (initial outside).state.Tallied 0 :=
  ⟨Run.initial_grounded outside, rfl, rfl, Nat.le_refl 0⟩

/-- Before every line no call is under way, whatever has become of the lines
before. -/
theorem Reachable.tallied {q : Session} (h : q.Reachable) : q.state.Tallied 0 := by
  induction h with
  | initial outside => exact initial_tallied outside
  | @line q limit fuel line _ ih =>
    unfold evalLine
    rcases compile line q.scopes with ⟨scopes, e | p⟩
    · exact ih
    · have hafter := ih.nested ((result_records p limit fuel).nested ih.toGrounded)
      unfold Run.after at hafter
      simp only
      rcases hr : result p limit fuel q.state with ⟨v, state⟩ | ⟨e, state⟩
      · rwa [hr] at hafter
      · rwa [hr] at hafter

end Session

/-! ## The account of calls -/

namespace Run

/-- Every line of a session starts with no call under way. At every moment of
its run, or of the run of a whole program, the depth is the number of calls
that have begun and are not over, which is the number of their scopes and not
more than the limit. All evaluation leaves the depth as it was, and a call is
refused in place of running its body exactly when the limit is reached. -/
theorem call_depth_accounting {q : Session} (hq : q.Reachable) (limit fuel : Nat) :
    (q.state.depth = 0 ∧ q.state.Tallied limit) ∧
    (∀ p : Program,
      (endIn Tape.state (Session.recorded p limit fuel ⟨q.state, []⟩) =
          Session.result p limit fuel q.state ∧
        Accounted limit ((Session.recorded p limit fuel).history q.state)) ∧
      endIn Tape.state (p.recorded limit fuel ⟨q.state, []⟩) = p.run limit fuel q.state ∧
        Accounted limit (p.history limit fuel q.state)) ∧
    ((∀ scope e, Restores (eval limit fuel scope e)) ∧
      (∀ scope st, Restores (exec limit fuel scope st)) ∧
      (∀ scope ss, Restores (inOrder (exec limit fuel scope) ss)) ∧
      ∀ span d values, (∀ v ∈ values, v.IsData) →
        Restores (deeper limit span (callBody limit fuel d values))) ∧
    ∀ (s t : State) scope name args span f d values, s.Tallied limit →
      callee scope name s = .ok f s → args.mapM (eval limit fuel scope) s = .ok values t →
      values.length = f.arity → f.decl = some d →
        eval limit (fuel + 1) scope ⟨.call name args, span⟩ s =
          if t.scopes.frames = limit then .error (.fatal ⟨.callDepth limit, name.span⟩) t
          else endIn State.shallow (callBody limit fuel d values t.deep) := by
  have hstart := hq.tallied
  have hdepth : q.state.depth = 0 := Nat.le_zero.mp hstart.le
  have execs := exec_records limit fuel
  refine ⟨⟨hdepth, hstart.mono (Nat.zero_le limit)⟩, fun p => ⟨⟨?_, ?_⟩, ?_, ?_⟩,
    ⟨?_, ?_, ?_, ?_⟩, ?_⟩
  · exact (Session.result_records p limit fuel).endIn_eq hstart.toGrounded
  · exact ((Session.result_records p limit fuel).nested hstart.toGrounded).accounts hstart
  · exact p.endIn_recorded limit fuel hstart.toGrounded
  · exact (p.history_nested limit fuel hstart.toGrounded).accounts hstart
  · exact fun scope e => (eval_records limit fuel scope e).restores
  · exact fun scope st => (execs scope st).restores
  · exact fun scope ss => (Records.inOrder fun st _ => execs scope st).restores
  · intro span d values hvalues
    have hbody : Records limit (fun _ => False) _ _ _ := callBody_records execs d hvalues span
    exact hbody.restores
  · intro s t scope name args span f d values hs hcallee hargs harity hdecl
    exact eval_call hs hcallee hargs harity hdecl

/-- The first line is aborted by its third call. The second one starts afresh
and reaches the limit as well. -/
theorem call_depth_accounting_recursion :
    let q := ((Session.initial (.replay [])).evalLine 2 40 "function f() \x7b f() \x7d f()").1
    q.Reachable ∧ q.state.depth = 0 ∧ ∃ p, parseSource "f()" = .ok p ∧
      (fatal? (Session.result p 2 40) q.state).map (·.fault) = some (.callDepth 2) ∧
      (∃ m ∈ (Session.recorded p 2 40).history q.state, m.state.depth = 2) ∧
      Accounted 2 ((Session.recorded p 2 40).history q.state) := by
  intro q
  have hq : q.Reachable := .line 2 40 _ (.initial (.replay []))
  obtain ⟨p, hp, hrun⟩ := exists_of_toOption_any (r := parseSource "f()")
    (P := fun p => (fatal? (Session.result p 2 40) q.state).map (·.fault) = some (.callDepth 2) ∧
      ∃ m ∈ (Session.recorded p 2 40).history q.state, m.state.depth = 2) (by decide +kernel)
  obtain ⟨hends, hdeep⟩ := of_decide_eq_true hrun
  obtain ⟨⟨hdepth, _⟩, hruns, _⟩ := call_depth_accounting hq 2 40
  exact ⟨hq, hdepth, p, hp, hends, hdeep, (hruns p).1.2⟩

end Run

end Quill
