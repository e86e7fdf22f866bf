-- Line by line or all at once. If every line of a session has a result, the
-- lines joined by lines with a semicolon are one program that is accepted,
-- and its run prints what the lines print and leaves the same globals.
import Mathlib
import Quill.Proofs.JoinedSources
import Quill.Proofs.LargerBounds
import Quill.Proofs.RespannedFit
import Quill.Proofs.SessionGlobals

namespace Quill

/-! ## What lines print -/

namespace Run

variable {limit : Nat} {s t : State}

/-- An event takes back nothing that has been printed. -/
theorem Law.output {event : Event} (h : Law limit s event t) :
    ∃ more, t.output = s.output ++ more := by
  cases h with
  | builtin more outside _ => exact ⟨more, rfl⟩
  | failed more outside => exact ⟨more, rfl⟩
  | _ => exact ⟨"", String.append_empty.symm⟩

theorem History.output {past : List Moment} (h : History limit s past t) :
    ∃ more, t.output = s.output ++ more := by
  induction h with
  | start s => exact ⟨"", String.append_empty.symm⟩
  | step hlaw _ ih =>
    obtain ⟨first, hfirst⟩ := hlaw.output
    obtain ⟨rest, hrest⟩ := ih
    exact ⟨first ++ rest, by rw [hrest, hfirst, String.append_assoc]⟩

end Run

namespace Session

variable {s : Session} {limit fuel : Nat}

/-- What a line prints: its addition to the output. -/
def printed (s : Session) (limit fuel : Nat) (line : String) : String :=
  String.ofList
    ((s.evalLine limit fuel line).1.state.output.toList.drop s.state.output.toList.length)

/-- What each of the lines prints. -/
def outputs (s : Session) (limit fuel : Nat) : List String → List String
  | [] => []
  | line :: lines =>
    s.printed limit fuel line :: (s.evalLine limit fuel line).1.outputs limit fuel lines

/-- A line adds to the output what it prints, however it ends. -/
theorem evalLine_output (hs : s.state.Grounded) (limit fuel : Nat) (line : String) :
    (s.evalLine limit fuel line).1.state.output = s.state.output ++ s.printed limit fuel line := by
  have hgrows : ∃ more, (s.evalLine limit fuel line).1.state.output = s.state.output ++ more := by
    unfold evalLine
    rcases compile line s.scopes with ⟨scopes, e | p⟩
    · exact ⟨"", String.append_empty.symm⟩
    · have hpast := ((result_records p limit fuel).nested hs).history.output
      unfold Run.after at hpast
      simp only
      rcases hr : result p limit fuel s.state with ⟨v, state⟩ | ⟨e, state⟩ <;> rwa [hr] at hpast
  obtain ⟨more, hmore⟩ := hgrows
  rw [printed, hmore]
  simp

/-- All lines together print what each of them prints. -/
theorem evalLines_output (h : s.Matched) (limit fuel : Nat) (lines : List String) :
    (s.evalLines limit fuel lines).1.state.output =
      s.state.output ++ String.join (s.outputs limit fuel lines) := by
  induction lines generalizing s with
  | nil => simp [evalLines, outputs]
  | cons line lines ih =>
    rw [evalLines, outputs, String.join_cons, ← String.append_assoc,
      ← evalLine_output ⟨h.heap, h.has.lt⟩ limit fuel line]
    exact ih (h.evalLine limit fuel line)

end Session

/-! ## What can be seen of the globals -/

/-- The global names in the order in which they were bound, each with the
kind and the text of its value. -/
def Run.State.shownGlobals (s : Run.State) : List (String × Option (Kind × String)) :=
  match s.scopes.get? ScopeTree.globalId with
  | some scope => scope.bindings.map fun b =>
    (b.name, b.value.map fun v => (v.kind, v.text s.heap))
  | none => []

theorem Value.kind_respan (f : Span → Span) (v : Value) : (v.respan f).kind = v.kind := by
  cases v <;> rfl

theorem Value.text_respan (f : Span → Span) (h : Heap) (v : Value) :
    (v.respan f).text h = v.text h := by
  cases v with
  | function g id => simp [Value.respan, Value.text, Value.showWithin, Function.respan]
  | _ => rfl

theorem Run.State.shownGlobals_respan (f : Span → Span) (s : Run.State) :
    (s.respan f).shownGlobals = s.shownGlobals := by
  unfold Run.State.shownGlobals Run.State.respan
  rw [ScopeTree.get?_map]
  cases s.scopes.get? ScopeTree.globalId with
  | none => rfl
  | some scope =>
    simp only [Option.map_some, Scope.map, List.map_map, Function.comp_def, Binding.map,
      Option.map_map, Value.kind_respan, Value.text_respan]

namespace Run

/-! ## Runs one after the other -/

theorem topLevel_append (limit fuel : Nat) (ss ss' : List Stmt) :
    topLevel limit fuel (ss ++ ss') = (do
      topLevel limit fuel ss
      topLevel limit fuel ss') := by
  induction ss with
  | nil => rfl
  | cons st ss ih =>
    rw [topLevel] at ih ⊢
    simp only [List.cons_append, Mode.topLevel, ih, bind_assoc]

/-- A run with a result has it with more fuel, too. -/
theorem Outlasts.ok {α : Type} {m m' : Run α} {s t : State} {x : α} (h : Outlasts m' m)
    (hm : m s = .ok x t) : m' s = .ok x t := by
  rcases h s with heq | ⟨u, hu⟩
  · rw [heq, hm]
  · rw [hm] at hu
    cases hu

/-- A program that differs in its spans has a result as well, in a state
that differs in its spans. -/
theorem topLevel_of_bare {limit fuel : Nat} {ss ss' : List Stmt} {s t : State}
    (hs : s.heap.Data) (hbare : bareAll ss' = bareAll ss)
    (h : topLevel limit fuel ss s = .ok () t) :
    ∃ t', topLevel limit fuel ss' s = .ok () t' ∧ t'.respan .forget = t.respan .forget := by
  have hrun := (topLevel_mirrors .forget limit fuel ss s hs).1
  have hrun' := (topLevel_mirrors .forget limit fuel ss' s hs).1
  rw [show Stmt.respanAll .forget ss' = Stmt.respanAll .forget ss from hbare, hrun, h] at hrun'
  rcases hr : topLevel limit fuel ss' s with ⟨x, t'⟩ | ⟨e, t'⟩
  · rw [hr] at hrun'
    injection hrun' with _ hstate
    exact ⟨t', rfl, hstate.symm⟩
  · rw [hr] at hrun'
    cases hrun'

end Run

/-! ## The programs of lines -/

namespace Session

/-- What a line with a result has run: a program that fits what is known,
and leads to the next state with any more fuel. -/
structure Done (limit fuel : Nat) (s t : Session) (line : String) (p : Program) : Prop where
  parsed : parseSource line = .ok p
  fit : Stmt.AllFit (fun _ => True) (s.scopes.site ScopeTree.globalId) p.statements
  site : t.scopes.site ScopeTree.globalId =
    (s.scopes.site ScopeTree.globalId).afterAll p.statements
  run : ∀ fuel', fuel < fuel' → Run.topLevel limit fuel' p.statements s.state = .ok () t.state

/-- What gives a line its result does the same as a part of a program. The
value of a single expression takes one step less than the statement. -/
theorem result_runs (p : Program) (limit : Nat) {fuel fuel' : Nat} (hf : fuel < fuel')
    (state : Run.State) :
    Run.Ends (result p limit fuel) state
      (fun _ t => Run.topLevel limit fuel' p.statements state = .ok () t) (fun _ _ => True) := by
  unfold result resultIn
  split
  · rename_i e span hp
    obtain ⟨fuel', rfl⟩ : ∃ k, fuel' = k + 1 := ⟨fuel' - 1, by omega⟩
    have hmore := (Run.eval_exec_outlasts limit (Nat.le_of_lt_succ hf)).1 ScopeTree.globalId e
    refine Run.ends_bind.mpr ?_
    change Run.Ends (Run.eval limit fuel ScopeTree.globalId e) state _ _
    unfold Run.Ends
    rcases he : Run.eval limit fuel ScopeTree.globalId e state with ⟨v, t⟩ | ⟨h, t⟩
    · have hvalue := hmore.ok he
      have hrun : Run.topLevel limit (fuel' + 1) p.statements state = .ok () t := by
        rw [Run.eval] at hvalue
        rw [hp, Run.topLevel]
        simp only [Run.Mode.topLevel, Run.Mode.exec, bind, EStateM.bind, hvalue]
        rfl
      cases v <;> exact hrun
    · trivial
  · refine Run.ends_bind.mpr ?_
    change Run.Ends (p.run limit fuel) state _ _
    unfold Run.Ends
    rcases hr : p.run limit fuel state with ⟨u, t⟩ | ⟨h, t⟩
    · exact (Run.topLevel_outlasts limit hf.le p.statements).ok hr
    · trivial

theorem evalLine_done {s : Session} {limit fuel : Nat} {line : String} (hs : s.scopes.WellFormed)
    (hok : (s.evalLine limit fuel line).2.isOk = true) :
    ∃ p, Done limit fuel s (s.evalLine limit fuel line).1 line p := by
  have hscopes := s.evalLine_scopes limit fuel line
  unfold evalLine at hok
  rcases hc : compile line s.scopes with ⟨scopes, e | p⟩
  · rw [hc] at hok
    cases hok
  · have hp : (compile line s.scopes).2 = .ok p := by rw [hc]
    have hparsed := (compile_ok_iff.mp hp).1
    have hfit := p.fit_of_compile hs hp
    refine ⟨p, hparsed, hfit, ?_, ?_⟩
    · rw [hscopes, compile_of_parse hparsed, p.analyze_scopes]
      exact site_declareAll hs hfit
    · intro fuel' hf
      rw [hc] at hok
      simp only at hok
      rcases hr : result p limit fuel s.state with ⟨v, state⟩ | ⟨e, state⟩
      · have hstate : (s.evalLine limit fuel line).1.state = state := by
          simp only [evalLine, hc, hr]
        have hrun := result_runs p limit hf s.state
        rw [hstate]
        rwa [Run.Ends, hr] at hrun
      · rw [hr] at hok
        cases hok

/-- What lines with results have run together. -/
theorem evalLines_done {s : Session} {limit fuel : Nat} {lines : List String}
    (hs : s.scopes.WellFormed)
    (hok : ∀ answer ∈ (s.evalLines limit fuel lines).2, answer.isOk = true) :
    ∃ programs : List Program,
      List.Forall₂ (fun line p => parseSource line = .ok p) lines programs ∧
      Stmt.AllFit (fun _ => True) (s.scopes.site ScopeTree.globalId)
        (programs.flatMap (·.statements)) ∧
      ∀ fuel', fuel < fuel' → Run.topLevel limit fuel' (programs.flatMap (·.statements)) s.state =
        .ok () (s.evalLines limit fuel lines).1.state := by
  induction lines generalizing s with
  | nil => exact ⟨[], .nil, by simp [Stmt.AllFit], fun _ _ => rfl⟩
  | cons line lines ih =>
    obtain ⟨p, hdone⟩ := evalLine_done hs (hok _ List.mem_cons_self)
    have hwell : (s.evalLine limit fuel line).1.scopes.WellFormed := by
      rw [evalLine_scopes]
      exact compile_wellFormed hs line
    obtain ⟨programs, hparsed, hfit, hrun⟩ :=
      ih hwell fun answer hmem => hok answer (List.mem_cons_of_mem _ hmem)
    refine ⟨p :: programs, .cons hdone.parsed hparsed, ?_, ?_⟩
    · rw [List.flatMap_cons, Stmt.allFit_append, ← hdone.site]
      exact ⟨hdone.fit, hfit⟩
    · intro fuel' hf
      rw [List.flatMap_cons, Run.topLevel_append]
      simp only [bind, EStateM.bind, hdone.run fuel' hf, hrun fuel' hf]
      rfl

end Session

/-- If every line of a new session has a result, the lines joined by
`"\n;\n"` are accepted, and their run ends without an error. It prints
what the lines print one after the other, and leaves the same global names
with the same values shown, and the outside in the same state. -/
theorem session_equals_batch (outside : Outside) (limit fuel : Nat) (lines : List String)
    (hok : ∀ answer ∈ ((Session.initial outside).evalLines limit fuel lines).2,
      answer.isOk = true) :
    let s := Session.initial outside
    let last := (s.evalLines limit fuel lines).1.state
    ∃ p, (compile ("\n;\n".intercalate lines) Analysis.initialScopes).2 = .ok p ∧
      ∀ fuel', fuel < fuel' → ∃ t, p.run limit fuel' (.initial outside) = .ok () t ∧
        t.output = String.join (s.outputs limit fuel lines) ∧
        t.shownGlobals = last.shownGlobals ∧ t.outside = last.outside := by
  intro s last
  obtain ⟨hmatched, _⟩ := Session.initial_matched outside
  obtain ⟨programs, hparsed, hfit, hrun⟩ := Session.evalLines_done hmatched.scopes hok
  obtain ⟨p, hp, hbare⟩ := parseSource_intercalate hparsed
  refine ⟨p, compile_ok_iff.mpr ⟨hp, ?_⟩, ?_⟩
  · rw [Program.analyze_eq_nil_iff Analysis.initialScopes_wellFormed, Program.Fit,
      ← Stmt.allFit_respan .forget, show Stmt.respanAll .forget p.statements = _ from hbare]
    exact (Stmt.allFit_respan .forget _ _).mpr hfit
  · intro fuel' hf
    obtain ⟨t, ht, hsame⟩ := Run.topLevel_of_bare hmatched.heap hbare (hrun fuel' hf)
    have houtput : (t.respan .forget).output = (last.respan .forget).output := by rw [hsame]
    have houtside : (t.respan .forget).outside = (last.respan .forget).outside := by rw [hsame]
    have hglobals : (t.respan .forget).shownGlobals = (last.respan .forget).shownGlobals := by
      rw [hsame]
    refine ⟨t, ht, ?_, ?_, houtside⟩
    · refine Eq.trans houtput ((Session.evalLines_output hmatched limit fuel lines).trans ?_)
      exact String.empty_append
    · rwa [Run.State.shownGlobals_respan, Run.State.shownGlobals_respan] at hglobals

/-- A line that binds, one that prints, and one with a value and a
comment. -/
theorem session_equals_batch_greeting :
    let lines := ["x <- \"hi\"", "output(x)", "x # a greeting"]
    (∀ answer ∈ ((Session.initial (.replay [])).evalLines 10 20 lines).2, answer.isOk = true) ∧
      ∃ p,
        (compile "x <- \"hi\"\n;\noutput(x)\n;\nx # a greeting" Analysis.initialScopes).2 =
          .ok p ∧
        ∀ fuel, 20 < fuel → ∃ t, p.run 10 fuel (.initial (.replay [])) = .ok () t ∧
          t.output = "hi\n" := by
  intro lines
  have hok : ∀ answer ∈ ((Session.initial (.replay [])).evalLines 10 20 lines).2,
      answer.isOk = true := by decide +kernel
  have houtput : String.join ((Session.initial (.replay [])).outputs 10 20 lines) = "hi\n" := by
    decide +kernel
  have hjoined : "\n;\n".intercalate lines = "x <- \"hi\"\n;\noutput(x)\n;\nx # a greeting" := by
    decide +kernel
  obtain ⟨p, hp, hrun⟩ := session_equals_batch (.replay []) 10 20 lines hok
  rw [hjoined] at hp
  refine ⟨hok, p, hp, fun fuel hf => ?_⟩
  obtain ⟨t, ht, hprinted, _⟩ := hrun fuel hf
  exact ⟨t, ht, hprinted.trans houtput⟩

end Quill
