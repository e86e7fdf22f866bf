-- Layout does not matter. Two texts with the same tokens, wherever these
-- stand, are both programs or both none; the programs differ in their spans
-- only, are both accepted or both rejected, and run in the same way.
import Mathlib
import Quill.Proofs.SessionBatch

namespace Quill

/-! ## The same tokens -/

section Tokens

variable {xs ys : List Lexeme}

theorem alike_of_tokens (h : xs.map (·.token) = ys.map (·.token)) :
    Grammar.Alike .forget .forget xs ys := by
  have hbare : ∀ l : List Lexeme, l.map (·.respan .forget) =
      (l.map (·.token)).map fun t => ⟨t, .origin⟩ := by
    intro l
    rw [List.map_map]
    rfl
  rw [Grammar.Alike, hbare xs, hbare ys, h]

/-- What one text is read as, the other one is read as up to spans. -/
theorem parse_of_tokens {source source' : String} {p : Program}
    (h : xs.map (·.token) = ys.map (·.token)) (hp : parse source xs = .ok p) :
    ∃ q, parse source' ys = .ok q ∧ q.bare = p.bare := by
  have hitems := (parseLexemes_eq_ok_iff (.atEnd source)).mp hp
  obtain ⟨stmts, hstmts, hsame⟩ := hitems.transfer Grammar.merges_forget Grammar.merges_forget
    (alike_of_tokens h) fun _ => id
  exact ⟨⟨stmts⟩, parseLexemes_of_items hstmts, congrArg Program.mk hsame⟩

theorem parseSource_iff_parse {source : String} {p : Program} (h : tokenize source = .ok xs) :
    parseSource source = .ok p ↔ parse source xs = .ok p := by
  have hsource : parseSource source = (parse source xs).mapError .syntactic := by
    rw [parseSource, h]
    rfl
  rw [hsource]
  rcases parse source xs with e | q
  · simp [Except.mapError]
  · simp [Except.mapError]

end Tokens

/-! ## The same program up to spans -/

section Bare

variable {p q : Program}

theorem Program.analyze_eq_nil_of_bare (h : q.bare = p.bare) :
    (p.analyze Analysis.initialScopes).2 = [] ↔ (q.analyze Analysis.initialScopes).2 = [] := by
  have hstmts : Stmt.respanAll .forget q.statements = Stmt.respanAll .forget p.statements :=
    congrArg Program.statements h
  rw [Program.analyze_eq_nil_iff Analysis.initialScopes_wellFormed,
    Program.analyze_eq_nil_iff Analysis.initialScopes_wellFormed, Program.Fit, Program.Fit,
    ← Stmt.allFit_respan .forget p.statements, ← hstmts, Stmt.allFit_respan]

/-- The runs go through the same states up to spans. -/
theorem Program.run_of_bare (h : q.bare = p.bare) (limit fuel : Nat) {s : Run.State}
    (hs : s.heap.Data) :
    Run.respanResult .forget id (q.run limit fuel s) =
      Run.respanResult .forget id (p.run limit fuel s) := by
  have hstmts : Stmt.respanAll .forget q.statements = Stmt.respanAll .forget p.statements :=
    congrArg Program.statements h
  have hp := (Run.topLevel_mirrors .forget limit fuel p.statements s hs).1
  have hq := (Run.topLevel_mirrors .forget limit fuel q.statements s hs).1
  rw [hstmts] at hq
  exact hq.symm.trans hp

end Bare

/-- What one text is accepted as, the other one is accepted as up to
spans. -/
theorem compile_of_tokens {source source' : String} {xs ys : List Lexeme} {p : Program}
    (hx : tokenize source = .ok xs) (hy : tokenize source' = .ok ys)
    (h : xs.map (·.token) = ys.map (·.token))
    (hp : (compile source Analysis.initialScopes).2 = .ok p) :
    ∃ q, (compile source' Analysis.initialScopes).2 = .ok q ∧ q.bare = p.bare := by
  obtain ⟨hsource, hclean⟩ := compile_ok_iff.mp hp
  have hp := (parseSource_iff_parse hx).mp hsource
  obtain ⟨q, hq, hbare⟩ : ∃ q, parse source' ys = .ok q ∧ q.bare = p.bare := parse_of_tokens h hp
  refine ⟨q, compile_ok_iff.mpr ⟨(parseSource_iff_parse hy).mpr hq, ?_⟩, hbare⟩
  exact (Program.analyze_eq_nil_of_bare hbare).mp hclean

/-! ## What can be seen of a run -/

namespace Run

/-- How a run has ended. -/
inductive Outcome where
  | finished
  | fatal (kind : FaultKind) (message : String)
  | crashed (cause : Crash)
  | awaits (request : Request)
  | outOfFuel

/-- What can be seen of a run that has ended: how, what was printed, the
global names with their values, and the outside. -/
structure Seen where
  outcome : Outcome
  output : String
  globals : List (String × Option (Kind × String))
  outside : Outside

def Halt.outcome : Halt → Outcome
  | .fatal f => .fatal f.fault.kind f.fault.message
  | .crash cause => .crashed cause
  | .awaits request => .awaits request
  | .outOfFuel => .outOfFuel

def State.seen (s : State) (outcome : Outcome) : Seen :=
  ⟨outcome, s.output, s.shownGlobals, s.outside⟩

def seen {α : Type} : EStateM.Result Halt State α → Seen
  | .ok _ s => s.seen .finished
  | .error e s => s.seen e.outcome

/-- Nothing of a span can be seen. -/
theorem seen_respanResult {α : Type} (f : Span → Span) (r : EStateM.Result Halt State α) :
    seen (respanResult f id r) = seen r := by
  have hstate : ∀ (s : State) (o : Outcome), (s.respan f).seen o = s.seen o := by
    intro s o
    rw [State.seen, State.shownGlobals_respan]
    rfl
  rcases r with ⟨x, s⟩ | ⟨e, s⟩
  · exact hstate s .finished
  · cases e <;> exact hstate s _

end Run

/-! ## Layout -/

/-- Two texts with the same tokens up to spans are both read or both
refused. If they are read, the trees are the same up to spans; both are
accepted or both rejected; and runs on the same outside with the same
limit end in the same way, with the same output and the same globals, and
in states that differ in the spans of declared functions only. -/
theorem layout_does_not_matter {source source' : String} {xs ys : List Lexeme}
    (hx : tokenize source = .ok xs) (hy : tokenize source' = .ok ys)
    (h : xs.map (·.token) = ys.map (·.token)) :
    ((∃ p, parse source xs = .ok p) ↔ ∃ q, parse source' ys = .ok q) ∧
    ((∃ p, (compile source Analysis.initialScopes).2 = .ok p) ↔
      ∃ q, (compile source' Analysis.initialScopes).2 = .ok q) ∧
    ∀ p q, parse source xs = .ok p → parse source' ys = .ok q →
      p.bare = q.bare ∧
      ∀ outside limit fuel,
        Run.seen (p.run limit fuel (.initial outside)) =
          Run.seen (q.run limit fuel (.initial outside)) ∧
        Run.respanResult .forget id (p.run limit fuel (.initial outside)) =
          Run.respanResult .forget id (q.run limit fuel (.initial outside)) := by
  refine ⟨⟨?_, ?_⟩, ⟨?_, ?_⟩, ?_⟩
  · rintro ⟨p, hp⟩
    obtain ⟨q, hq, -⟩ := parse_of_tokens h hp
    exact ⟨q, hq⟩
  · rintro ⟨q, hq⟩
    obtain ⟨p, hp, -⟩ := parse_of_tokens h.symm hq
    exact ⟨p, hp⟩
  · rintro ⟨p, hcompiled⟩
    obtain ⟨q, hq, hbare⟩ := compile_of_tokens hx hy h hcompiled
    exact ⟨q, hq⟩
  · rintro ⟨q, hcompiled⟩
    obtain ⟨p, hp, hbare⟩ := compile_of_tokens hy hx h.symm hcompiled
    exact ⟨p, hp⟩
  · intro p q hp hq
    obtain ⟨q', hq', hbare⟩ : ∃ q', parse source' ys = .ok q' ∧ q'.bare = p.bare :=
      parse_of_tokens h hp
    obtain rfl : q' = q := Except.ok.inj (hq'.symm.trans hq)
    refine ⟨hbare.symm, fun outside limit fuel => ?_⟩
    have hdata : (Run.State.initial outside).heap.Data := (Session.initial_matched outside).1.heap
    have hsame := (Program.run_of_bare hbare limit fuel hdata).symm
    refine ⟨?_, hsame⟩
    rw [← Run.seen_respanResult .forget (p.run limit fuel _), hsame, Run.seen_respanResult]

/-- A loop on one line and on four lines with a comment. Both programs
are accepted, and both print a line before they divide by zero. -/
theorem layout_does_not_matter_loop :
    let source := "for n in 1..0 \x7b output(10 / n) \x7d"
    let source' := "for n in\n  1 .. 0 # downwards\n\x7b\n\toutput( 10/n )\x7d"
    ∃ xs ys p q, tokenize source = .ok xs ∧ tokenize source' = .ok ys ∧
      xs.map (·.token) = ys.map (·.token) ∧
      (compile source Analysis.initialScopes).2 = .ok p ∧
      (compile source' Analysis.initialScopes).2 = .ok q ∧ p.bare = q.bare ∧
      (Run.seen (p.run 10 20 (.initial (.replay [])))).output = "10\n" ∧
      Run.seen (q.run 10 20 (.initial (.replay []))) =
        Run.seen (p.run 10 20 (.initial (.replay []))) := by
  intro source source'
  obtain ⟨xs, hx, -⟩ := exists_of_toOption_any (r := tokenize source)
    (P := fun _ => true) (by decide +kernel)
  obtain ⟨ys, hy, hsame⟩ := exists_of_toOption_any (r := tokenize source')
    (P := fun ys => (tokenize source).toOption.any fun xs => xs.map (·.token) = ys.map (·.token))
    (by decide +kernel)
  obtain ⟨p, hp, houtput⟩ := exists_of_toOption_any
    (r := (compile source Analysis.initialScopes).2)
    (P := fun p => (Run.seen (p.run 10 20 (.initial (.replay [])))).output = "10\n")
    (by decide +kernel)
  rw [hx] at hsame
  have htokens : xs.map (·.token) = ys.map (·.token) := of_decide_eq_true hsame
  obtain ⟨-, hcompile, halike⟩ := layout_does_not_matter hx hy htokens
  obtain ⟨q, hq⟩ := hcompile.mp ⟨p, hp⟩
  have hpParsed := (parseSource_iff_parse hx).mp (compile_ok_iff.mp hp).1
  have hqParsed := (parseSource_iff_parse hy).mp (compile_ok_iff.mp hq).1
  obtain ⟨hbare, hseen⟩ := halike p q hpParsed hqParsed
  exact ⟨xs, ys, p, q, hx, hy, htokens, hp, hq, hbare, of_decide_eq_true houtput,
    (hseen (.replay []) 10 20).1.symm⟩

end Quill
