-- The syntax errors of a text. Each statement that fails has one error, and
-- the errors come up in the order of the places that they are about: an
-- error is about what comes next, or about a target that has just been read.
-- What the reader gives is these errors, each of them once. If it gives a
-- program, no statement has failed, and the grammar derives the program from
-- all that was read.
import Quill.Proofs.LexedTexts
import Quill.Proofs.SourceSpans
import Quill.Proofs.StmtPaths

namespace Quill

/-! ## Errors of failed statements -/

namespace Reporter

/-- Errors that are reported and dealt with one after the other. -/
def reports (ds : List Diagnostic) : List Step := ds.flatMap fun d => [.report d false, .handled]

theorem reports_append (ds es : List Diagnostic) :
    reports (ds ++ es) = reports ds ++ reports es := List.flatMap_append

theorem reports_concat (ds : List Diagnostic) (d : Diagnostic) :
    reports (ds ++ [d]) = reports ds ++ [.report d false] ++ [.handled] := by
  simp [reports]

theorem unhandled_reports (ds : List Diagnostic) : unhandled (reports ds) = [] := by
  rcases List.eq_nil_or_concat ds with rfl | ⟨ds, d, rfl⟩
  · rfl
  · rw [List.concat_eq_append, reports_concat, unhandled_handled]

/-- All of them count. -/
theorem counted_reports (ds : List Diagnostic) : counted (reports ds) = ds := by
  induction ds using List.reverseRecOn with
  | nil => rfl
  | append_singleton ds d ih =>
    rw [reports_concat, counted_concat, counted_concat, ih]
    simp [Step.counted?, unhandled_reports]

theorem eraseDups_sublist (ds : List Diagnostic) : ds.eraseDups.Sublist ds := by
  induction ds using List.reverseRecOn with
  | nil => exact .slnil
  | append_singleton ds d ih =>
    rw [eraseDups_concat]
    split
    · exact ih.trans (List.sublist_append_left ds [d])
    · exact ih.append (List.Sublist.refl [d])

theorem nodup_eraseDups (ds : List Diagnostic) : ds.eraseDups.Nodup := by
  have hnodup := nodup_after (reports ds)
  rwa [kept_after, counted_reports] at hnodup

end Reporter

namespace Reader

/-- The errors of the statements that failed, in the order in which they
did. -/
def failures (past : List Event) : List Diagnostic := past.filterMap Event.error?

section Failures

variable {past more : List Event} {s t u : State}

@[simp] theorem failures_nil : failures [] = [] := rfl

@[simp] theorem failures_append : failures (past ++ more) = failures past ++ failures more :=
  List.filterMap_append

@[simp] theorem failures_block : failures (.block s t :: past) = failures past := rfl

@[simp] theorem failures_kept : failures (.tried s none t :: past) = failures past := rfl

@[simp] theorem failures_dropped {f : Failure} :
    failures (.tried s (some f) t :: past) = f.error :: failures past := rfl

theorem State.beyond_reporter (t start : State) : (t.beyond start).reporter = t.reporter := by
  unfold State.beyond
  split
  · exact State.advance_reporter t
  · rfl

/-- Each failed statement is reported and dealt with, and nothing else is. -/
theorem Course.reporter {stage : Stage} (h : Course stage s past t) :
    t.reporter = (Reporter.reports (failures past)).foldl Reporter.step s.reporter := by
  induction h with
  | rest s => rfl
  | token _ _ => rfl
  | trans _ _ ih ih' =>
    rw [ih', ih, failures_append, Reporter.reports_append, List.foldl_append]
  | block _ _ _ _ _ ih =>
    rw [State.passed_reporter, ih, failures_append, failures_block, failures_nil, List.append_nil,
      State.passed_reporter]
  | done stops s => rfl
  | semicolon _ _ _ ih => rw [ih, State.passed_reporter]
  | kept _ _ _ _ _ ih ih' =>
    rw [ih', ih, failures_append, failures_kept, Reporter.reports_append, List.foldl_append]
  | dropped _ _ _ _ ih ih' =>
    rw [ih', State.resume_reporter, State.beyond_reporter, ih, failures_append, failures_dropped,
      Reporter.reports_append, List.foldl_append]
    rfl
  | expected _ => rfl
  | target _ _ ih => exact ih
  | unclosed _ _ _ _ _ ih => rw [ih, State.passed_reporter]
  | later _ _ ih ih' =>
    rw [ih', ih, failures_append, Reporter.reports_append, List.foldl_append]

end Failures

/-! ## The order of errors -/

/-- The offsets where the lexemes ahead start, and that of the end of the
text. -/
def State.starts (s : State) : List Nat := s.ahead.map (·.span.start) ++ [s.atEnd.start]

/-- What is ahead starts one after the other. -/
def State.Sorted (s : State) : Prop := s.starts.Pairwise (· ≤ ·)

/-- These errors come up between `s` and `t`, in the order of their places. -/
structure Sweeps (s t : State) (ds : List Diagnostic) : Prop where
  sorted : ds.Pairwise fun d e => d.span.start ≤ e.span.start
  within : ∀ d ∈ ds, s.next.start ≤ d.span.start ∧ d.span.start ≤ t.next.start

section Order

variable {s t u : State} {ds es : List Diagnostic} {a : Nat}

theorem State.starts_eq (s : State) : ∃ rest, s.starts = s.next.start :: rest := by
  unfold State.starts State.next
  rcases s.ahead with _ | ⟨x, xs⟩
  · exact ⟨[], rfl⟩
  · exact ⟨_, rfl⟩

theorem State.Sorted.next_le (hs : s.Sorted) (ha : a ∈ s.starts) : s.next.start ≤ a := by
  obtain ⟨rest, hrest⟩ := s.starts_eq
  unfold State.Sorted at hs
  rw [hrest] at hs ha
  rcases List.mem_cons.mp ha with rfl | ha
  · exact le_rfl
  · exact List.rel_of_pairwise_cons hs ha

theorem Moved.starts (h : Moved s t) : t.starts <:+ s.starts := by
  obtain ⟨used, hahead, -, hend⟩ := h
  refine ⟨used.map (·.span.start), ?_⟩
  unfold State.starts
  rw [hahead, hend, List.map_append, List.append_assoc]

theorem Moved.sorted (h : Moved s t) (hs : s.Sorted) : t.Sorted := hs.sublist h.starts.sublist

theorem Moved.next_le (h : Moved s t) (hs : s.Sorted) : s.next.start ≤ t.next.start := by
  obtain ⟨rest, hrest⟩ := t.starts_eq
  refine hs.next_le (h.starts.subset ?_)
  rw [hrest]
  exact List.mem_cons_self

/-- A lexeme that has been read starts before what is ahead then. -/
theorem Starts.within (h : Starts s t a) (hmoved : Moved s t) (hs : s.Sorted) :
    s.next.start ≤ a ∧ a ≤ t.next.start := by
  obtain ⟨x, rest, ⟨before, hx⟩, ⟨between, ht⟩, rfl⟩ := h
  obtain ⟨-, -, -, hend⟩ := hmoved
  have hsuffix : x.span.start :: (rest.map (·.span.start) ++ [s.atEnd.start]) <:+ s.starts := by
    refine ⟨before.map (·.span.start), ?_⟩
    simp [State.starts, ← hx]
  have htstarts : t.starts <:+ rest.map (·.span.start) ++ [s.atEnd.start] := by
    refine ⟨between.map (·.span.start), ?_⟩
    simp [State.starts, ← ht, hend]
  constructor
  · exact hs.next_le (hsuffix.subset List.mem_cons_self)
  · obtain ⟨later, hlater⟩ := t.starts_eq
    refine List.rel_of_pairwise_cons (hs.sublist hsuffix.sublist) (htstarts.subset ?_)
    rw [hlater]
    exact List.mem_cons_self

theorem Sweeps.nil (s t : State) : Sweeps s t [] := ⟨.nil, nofun⟩

theorem Sweeps.single {d : Diagnostic} (h : s.next.start ≤ d.span.start)
    (h' : d.span.start ≤ t.next.start) : Sweeps s t [d] :=
  ⟨List.pairwise_singleton _ d, List.forall_mem_singleton.mpr ⟨h, h'⟩⟩

theorem Sweeps.append (h : Sweeps s t ds) (h' : Sweeps t u es) (hs : s.Sorted)
    (hst : Moved s t) (htu : Moved t u) : Sweeps s u (ds ++ es) := by
  have hnext := hst.next_le hs
  have hnext' := htu.next_le (hst.sorted hs)
  constructor
  · refine List.pairwise_append.mpr ⟨h.sorted, h'.sorted, fun d hd e he => ?_⟩
    exact (h.within d hd).2.trans (h'.within e he).1
  · refine List.forall_mem_append.mpr ⟨fun d hd => ?_, fun e he => ?_⟩
    · exact ⟨(h.within d hd).1, (h.within d hd).2.trans hnext'⟩
    · exact ⟨hnext.trans (h'.within e he).1, (h'.within e he).2⟩

/-- A longer way sweeps over the same errors. -/
theorem Sweeps.widen {s' t' : State} (h : Sweeps s t ds) (hs : Moved s' s) (ht : Moved t t')
    (hsorted : s'.Sorted) (hmoved : Moved s t) : Sweeps s' t' ds := by
  have hnext := hs.next_le hsorted
  have hnext' := ht.next_le (hmoved.sorted (hs.sorted hsorted))
  refine ⟨h.sorted, fun d hd => ⟨hnext.trans (h.within d hd).1, (h.within d hd).2.trans hnext'⟩⟩

/-- The error that a course ends with. -/
def Stage.pending : Stage → List Diagnostic
  | .failed d => [d]
  | _ => []

theorem Course.sweeps {stage : Stage} {past : List Event} (h : Course stage s past t)
    (hs : s.Sorted) : Sweeps s t (failures past ++ stage.pending) := by
  induction h with
  | rest s => exact .nil s s
  | token _ _ => exact .nil _ _
  | trans h h' ih ih' =>
    have hfirst := ih hs
    have hsecond := ih' (h.moved.sorted hs)
    simp only [Stage.pending, List.append_nil, failures_append] at hfirst hsecond ⊢
    exact hfirst.append hsecond hs h.moved h'.moved
  | block hx _ h hy _ ih =>
    have hinside := ih ((Moved.head hx).sorted hs)
    simp only [Stage.pending, List.append_nil, failures_append, failures_block,
      failures_nil] at hinside ⊢
    exact hinside.widen (.head hx) (.head hy) hs h.moved
  | done stops s => exact .nil s s
  | semicolon hx _ h ih =>
    exact (ih ((Moved.head hx).sorted hs)).widen (.head hx) (.refl _) hs h.moved
  | kept _ _ h _ h' ih ih' =>
    have hfirst := ih hs
    have hsecond := ih' (h.moved.sorted hs)
    simp only [Stage.pending, List.append_nil, failures_append, failures_kept] at hfirst hsecond ⊢
    exact hfirst.append hsecond hs h.moved h'.moved
  | @dropped _ s t u d past more _ _ _ _ h h' ih ih' =>
    -- The error comes after those on the way to it and before those of later items.
    have hrecover := Moved.recover t s d
    have hfailed : Sweeps s ((t.beyond s).resume d) (failures past ++ [d]) :=
      (ih hs).widen (.refl s) hrecover hs h.moved
    have hmoved := h.moved.trans hrecover
    have hsecond := ih' (hmoved.sorted hs)
    simp only [Stage.pending, List.append_nil] at hsecond
    have hboth := hfailed.append hsecond hs hmoved h'.moved
    simpa [Stage.pending] using hboth
  | expected hd => exact .single (by rw [hd]) (by rw [hd])
  | target h hstarts _ =>
    obtain ⟨hle, hle'⟩ := hstarts.within h.moved hs
    exact .single hle hle'
  | @unclosed s t d past _ _ hx _ h _ hd ih =>
    have hinside := (ih ((Moved.head hx).sorted hs)).widen (.head hx) (.refl _) hs h.moved
    have hmoved := (Moved.head hx).trans h.moved
    have hlast : Sweeps t t [d] := .single (by rw [hd]) (by rw [hd])
    simp only [Stage.pending, List.append_nil] at hinside ⊢
    exact hinside.append hlast hs hmoved (.refl t)
  | later h h' ih ih' =>
    have hfirst := ih hs
    have hsecond := ih' (h.moved.sorted hs)
    simp only [Stage.pending, List.append_nil] at hfirst
    rw [failures_append, List.append_assoc]
    exact hfirst.append hsecond hs h.moved h'.moved

end Order

/-! ## Texts -/

/-- The lexemes of a text start one after the other, and before its end. -/
theorem initial_sorted {source : String} {lexemes : List Lexeme}
    (h : tokenize source = .ok lexemes) : (State.initial (.atEnd source) lexemes).Sorted := by
  have htiled := (tokenize_eq_ok_iff.mp h).tiled
  have hplace : ∀ x ∈ lexemes, x.span.start ≤ x.span.stop ∧
      x.span.stop ≤ (Span.atEnd source).start := by
    intro x hx
    obtain ⟨before, text, after, hsource, hspan, -⟩ := htiled.stretch hx
    have hlength := congrArg String.utf8Len hsource
    rw [utf8Len_toList, String.utf8Len_append, String.utf8Len_append] at hlength
    have hstart : x.span.start = String.utf8Len before := by
      rw [hspan, Span.between_start]
    have hstop : x.span.stop = String.utf8Len before + String.utf8Len text := by
      rw [hspan, Span.between_stop, String.utf8Len_append]
    have hend : (Span.atEnd source).start = source.utf8ByteSize := rfl
    omega
  unfold State.Sorted State.starts State.initial
  refine List.pairwise_append.mpr ⟨List.pairwise_map.mpr ?_, List.pairwise_singleton _ _, ?_⟩
  · refine htiled.ordered.imp_of_mem fun hx _ hle => ?_
    exact (hplace _ hx).1.trans hle
  · intro a ha b hb
    obtain ⟨x, hx, rfl⟩ := List.mem_map.mp ha
    obtain rfl := List.mem_singleton.mp hb
    exact (hplace x hx).1.trans (hplace x hx).2

/-- Where statements have failed, reading gives their errors, each of them
once. -/
theorem parseLexemes_eq (atEnd : Span) (lexemes : List Lexeme) : ∃ p,
    parseLexemes atEnd lexemes = if failures (events atEnd lexemes) = [] then .ok p
      else .error (failures (events atEnd lexemes)).eraseDups := by
  obtain ⟨p, t, hprogram, -, hcourse⟩ := program_course atEnd lexemes
  have hreporter : t.reporter =
      Reporter.after (Reporter.reports (failures (events atEnd lexemes))) := hcourse.reporter
  refine ⟨p, ?_⟩
  unfold parseLexemes
  rw [hprogram]
  simp only [Reporter.hasErrors, hreporter, Reporter.kept_after, Reporter.counted_reports]
  rcases failures (events atEnd lexemes) with _ | ⟨d, ds⟩
  · rfl
  · simp [List.eraseDups_cons]

/-- The errors that reading gives are those of the failed statements, each of
them once. They are in the order of the text, and there are some if and only
if a statement has failed. -/
theorem syntax_errors_in_order (source : String) (lexemes : List Lexeme)
    (h : tokenize source = .ok lexemes) :
    (∀ ds, parse source lexemes = .error ds →
      ds = (failures (events (.atEnd source) lexemes)).eraseDups ∧ ds ≠ [] ∧ ds.Nodup ∧
      (ds.Pairwise fun d e => d.span.start ≤ e.span.start) ∧
      ds.length ≤ (failures (events (.atEnd source) lexemes)).length) ∧
    (failures (events (.atEnd source) lexemes) ≠ [] ↔ ∃ ds, parse source lexemes = .error ds) := by
  obtain ⟨p, hparse⟩ := parseLexemes_eq (.atEnd source) lexemes
  obtain ⟨-, t, -, -, hcourse⟩ := program_course (.atEnd source) lexemes
  have hsorted := (hcourse.sweeps (initial_sorted h)).sorted
  simp only [Stage.pending, List.append_nil] at hsorted
  unfold parse
  rw [hparse]
  generalize failures (events (.atEnd source) lexemes) = failed at hsorted
  by_cases hfailed : failed = []
  · rw [if_pos hfailed]
    exact ⟨nofun, fun hne => absurd hfailed hne, nofun⟩
  · rw [if_neg hfailed]
    refine ⟨?_, fun _ => ⟨_, rfl⟩, fun _ => hfailed⟩
    rintro _ ⟨⟩
    have hsublist := Reporter.eraseDups_sublist failed
    refine ⟨rfl, ?_, Reporter.nodup_eraseDups failed, hsorted.sublist hsublist,
      hsublist.length_le⟩
    obtain ⟨d, hd⟩ := List.exists_mem_of_ne_nil failed hfailed
    exact List.ne_nil_of_mem (List.mem_eraseDups.mpr hd)

/-- Four statements fail: one at its target, one at the end of the text, and the
two around them because nothing closes them, with the same error. -/
theorem syntax_errors_in_order_unclosed :
    let source := "if true \x7b if x \x7b 1 <- 2; ( "
    ∃ lexemes ds, tokenize source = .ok lexemes ∧
      (failures (events (.atEnd source) lexemes)).length = 4 ∧
      parse source lexemes = .error ds ∧ ds.length = 3 ∧ ds.Nodup ∧
      ds.Pairwise fun d e => d.span.start ≤ e.span.start := by
  intro source
  have htest : (tokenize source).toOption.any (fun lexemes =>
      (failures (events (.atEnd source) lexemes)).length == 4 &&
      (failures (events (.atEnd source) lexemes)).eraseDups.length == 3) = true := by
    decide +kernel
  obtain ⟨lexemes, hlexemes, hlengths⟩ := exists_of_toOption_any htest
  rw [Bool.and_eq_true, beq_iff_eq, beq_iff_eq] at hlengths
  obtain ⟨hfour, hthree⟩ := hlengths
  obtain ⟨herrors, hsome⟩ := syntax_errors_in_order source lexemes hlexemes
  obtain ⟨ds, hparse⟩ := hsome.mp (List.ne_nil_of_length_pos (by omega))
  obtain ⟨hds, -, hnodup, hsorted, -⟩ := herrors ds hparse
  exact ⟨lexemes, ds, hlexemes, hfour, hparse, by rw [hds, hthree], hnodup, hsorted⟩

end Reader

/-! ## Accepted programs -/

open Grammar Reader

/-- What is accepted is derived from the grammar, all of it. What is not
accepted comes with errors, and a statement that fails in the reading and is
dropped, at the top level or in a block, is never lost: its error is among
them. -/
theorem parse_follows_grammar (source : String) (lexemes : List Lexeme) :
    (∀ p, parse source lexemes = .ok p → Derives lexemes p) ∧
    (∀ ds, parse source lexemes = .error ds → ds ≠ []) ∧
    ∀ start failure finish, .tried start (some failure) finish ∈ events (.atEnd source) lexemes →
      ∃ ds, parse source lexemes = .error ds ∧ failure.error ∈ ds := by
  have hends : ∀ {edge rest}, Stops edge rest → Anywhere edge rest := fun _ => trivial
  obtain ⟨p, hparse⟩ := parseLexemes_eq (.atEnd source) lexemes
  refine ⟨fun p => parseLexemes_items hends, ?_, ?_⟩
  · intro ds hds
    unfold parse at hds
    rw [hparse] at hds
    split at hds
    · cases hds
    · rename_i hfailed
      cases hds
      obtain ⟨d, hd⟩ := List.exists_mem_of_ne_nil _ hfailed
      exact List.ne_nil_of_mem (List.mem_eraseDups.mpr hd)
  · intro start failure finish hevent
    have hmem : failure.error ∈ failures (events (.atEnd source) lexemes) :=
      List.mem_filterMap.mpr ⟨_, hevent, rfl⟩
    unfold parse
    rw [hparse, if_neg (List.ne_nil_of_mem hmem)]
    exact ⟨_, rfl, List.mem_eraseDups.mpr hmem⟩

/-- Blocks in blocks, parentheses around everything that may have them, and
semicolons where nothing asks for them are derived. In the second text a
statement of the block is dropped, and its error is given. -/
theorem parse_follows_grammar_strays :
    (let source := ";; while (true) \x7b ; ((x)) <- (f)((1), [2]);; if (a) \x7b\x7d; \x7d ;"
    ∃ lexemes p, tokenize source = .ok lexemes ∧ parse source lexemes = .ok p ∧
      p.statements.length = 1 ∧ Derives lexemes p) ∧
    let source := "while (true) \x7b (x <- 1; y \x7d"
    ∃ lexemes ds d, tokenize source = .ok lexemes ∧ parse source lexemes = .error ds ∧
      d.message = "Expected ')', found '<-'" ∧ d ∈ ds := by
  constructor
  · intro source
    have htest : (tokenize source).toOption.any (fun lexemes =>
        (parse source lexemes).toOption.any (·.statements.length == 1)) = true := by
      decide +kernel
    obtain ⟨lexemes, hlexemes, htest⟩ := exists_of_toOption_any htest
    obtain ⟨p, hp, hlength⟩ := exists_of_toOption_any htest
    exact ⟨lexemes, p, hlexemes, hp, beq_iff_eq.mp hlength,
      (parse_follows_grammar source lexemes).1 p hp⟩
  · intro source
    have htest : (tokenize source).toOption.any (fun lexemes =>
        (events (.atEnd source) lexemes).any fun e =>
          e.error?.any (·.message == "Expected ')', found '<-'")) = true := by
      decide +kernel
    obtain ⟨lexemes, hlexemes, hevents⟩ := exists_of_toOption_any htest
    obtain ⟨event, hevent, hmessage⟩ := List.any_eq_true.mp hevents
    rcases event with ⟨start, _ | failure, finish⟩ | _
    · cases hmessage
    · obtain ⟨ds, hds, hmem⟩ :=
        (parse_follows_grammar source lexemes).2.2 start failure finish hevent
      exact ⟨lexemes, ds, failure.error, hlexemes, hds, beq_iff_eq.mp hmessage, hmem⟩
    · cases hmessage

end Quill
