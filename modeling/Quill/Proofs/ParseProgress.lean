-- Reading always comes to an end. Every reader moves on over the lexemes,
-- what is nested is read where fewer of them are ahead, and every statement
-- that is tried takes at least one of them, also if it fails. So no bound on
-- nesting or turns is ever reached, and a program is read to its end.
import Quill.Proofs.StmtPaths

namespace Quill.Reader

variable {α : Type} {s : State}

/-! ## Results -/

/-- The state after a reading, whether it has a result or not. -/
def after {α : Type} (m : Reader α) (s : State) : State :=
  match m s with
  | .ok _ t | .error _ t => t

theorem Scans.eq {m m' : Reader α} {P : α → State → Prop} (h : Scans s m m' P) :
    m s = m' s := by
  unfold Scans at h
  generalize m s = result, m' s = result' at h
  cases h with
  | ok _ _ => rfl
  | error _ _ => rfl

theorem Scans.moved {m m' : Reader α} {P : α → State → Prop} (h : Scans s m m' P) :
    Moved s (after m s) := by
  unfold Scans at h
  unfold after
  generalize m s = result, m' s = result' at h
  cases h with
  | ok hcourse _ => exact hcourse.moved
  | error hcourse _ => exact hcourse.moved

/-- Readers that are watched alike do the same. -/
theorem Traces.eq {m m' : Reader α} {w : Watched α} {P P' : α → State → Prop}
    (h : Traces s m w P) (h' : Traces s m' w P') : m s = m' s := by
  have hresult := h []
  have hresult' := h' []
  generalize m s = result, m' s = result', w ⟨s, []⟩ = watched at hresult hresult'
  cases hresult with
  | ok _ _ =>
    cases hresult'
    rfl
  | error _ =>
    cases hresult'
    rfl

theorem Traces.moved {m : Reader α} {w : Watched α} {P : α → State → Prop}
    (h : Traces s m w P) : Moved s (after m s) := by
  have hresult := h []
  unfold after
  generalize m s = result, w ⟨s, []⟩ = watched at hresult
  cases hresult with
  | ok hcourse _ => exact hcourse.moved
  | error hcourse => exact hcourse.moved

/-! ## Progress -/

/-- A statement that is tried takes at least one lexeme. -/
theorem recovering_lt {item : Reader α} {item' : Watched α} (hs : s.ahead ≠ [])
    (h : Traces s item item' fun _ t => t.ahead.length < s.ahead.length) :
    ∃ o t, recovering item s = .ok o t ∧ Moved s t ∧ t.ahead.length < s.ahead.length := by
  rcases recovering_traces h [] with
    ⟨x, t, more, hplain, -, hcourse, hlt⟩ | ⟨d, t, more, hplain, -, hcourse⟩
  · exact ⟨some x, t, hplain, hcourse.moved, hlt⟩
  · refine ⟨none, _, hplain, ?_, State.resume_beyond_lt d hcourse.moved hs⟩
    exact hcourse.moved.trans (.recover t s d)

/-- Every event takes at least one lexeme. -/
theorem Course.event_lt {stage : Stage} {t : State} {past : List Event}
    (h : Course stage s past t) :
    ∀ e ∈ past, e.start.ahead ≠ [] ∧ e.finish.ahead.length < e.start.ahead.length := by
  refine h.forall_mem (List.Subset.refl past) ?_ ?_ ?_
  · intro s t past x y xs ys hs _ hcourse ht _ _
    have hle := ((Moved.head hs).trans hcourse.moved).length_le
    refine ⟨by simp [Event.start, hs], ?_⟩
    rw [ht, List.length_cons] at hle
    exact hle
  · exact fun hs _ hlt _ => ⟨hs, hlt⟩
  · exact fun hs hcourse _ => ⟨hs, State.resume_beyond_lt _ hcourse.moved hs⟩

/-- Events end one after the other. -/
theorem Course.ordered {stage : Stage} {t : State} {past : List Event}
    (h : Course stage s past t) : past.Pairwise fun e e' => Moved e.finish e'.finish := by
  -- An event that ends before a state ends before all that happens from there on.
  have hjoin : ∀ {u : State} {e e' : Event} {a b : State}, e.Between a u → e'.Between u b →
      Moved e.finish e'.finish := fun he he' =>
    he.after.trans (he'.before.trans he'.during)
  induction h with
  | rest s => exact .nil
  | token _ _ => exact .nil
  | trans h h' ih ih' =>
    refine List.pairwise_append.mpr ⟨ih, ih', fun e he e' he' => ?_⟩
    exact hjoin (h.between he) (h'.between he')
  | block hs hx h ht hy ih =>
    refine List.pairwise_append.mpr ⟨ih, List.pairwise_singleton _ _, fun e he e' he' => ?_⟩
    obtain rfl := List.mem_singleton.mp he'
    exact (h.between he).after.trans (.head ht)
  | done stops s => exact .nil
  | semicolon _ _ _ ih => exact ih
  | kept _ _ h _ h' ih ih' =>
    refine List.pairwise_append.mpr ⟨ih, List.pairwise_cons.mpr ⟨fun e he => ?_, ih'⟩, ?_⟩
    · exact (h'.between he).before.trans (h'.between he).during
    · rintro e he e' he'
      rcases List.mem_cons.mp he' with rfl | he'
      · exact (h.between he).after
      · exact hjoin (h.between he) (h'.between he')
  | @dropped _ s t _ d _ _ _ _ _ _ h h' ih ih' =>
    refine List.pairwise_append.mpr ⟨ih, List.pairwise_cons.mpr ⟨fun e he => ?_, ih'⟩, ?_⟩
    · exact (h'.between he).before.trans (h'.between he).during
    · rintro e he e' he'
      have hthrough := (h.between he).widen (.refl s) (.recover t s d)
      rcases List.mem_cons.mp he' with rfl | he'
      · exact hthrough.after
      · exact hjoin hthrough (h'.between he')
  | expected _ => exact .nil
  | target _ _ _ => exact .nil
  | unclosed _ _ _ _ _ ih => exact ih
  | later h h' ih ih' =>
    refine List.pairwise_append.mpr ⟨ih, ih', fun e he e' he' => ?_⟩
    exact hjoin (h.between he) (h'.between he')

/-! ## Termination -/

section Bounds

variable {bound turns : Nat} {stops : Token → Bool} (deepExpr : Reader Expr)
  (deep : Reader StmtNode)

theorem exprOver_eq (hbound : s.ahead.length < bound) :
    exprOver deepExpr bound s = exprWithin (s.ahead.length + 1) s ∧
      Moved s (after (exprWithin bound) s) := by
  have hscans : ∀ deepExpr : Reader Expr, Scans s (exprOver deepExpr bound)
      (exprOver (expected "expression") (s.ahead.length + 1)) fun e t => Starts s t e.span.start :=
    fun _ => exprOver_scans hbound (Nat.lt_succ_self _) s (Nat.lt_succ_self _)
  rw [exprWithin_eq, exprWithin_eq]
  exact ⟨(hscans deepExpr).eq, (hscans _).moved⟩

theorem nodeOver_eq (hbound : s.ahead.length < bound) :
    nodeOver deepExpr deep bound s = plain.nodeWithin (s.ahead.length + 1) s ∧
      Moved s (after (plain.nodeWithin bound) s) := by
  have htraces : ∀ (deepExpr : Reader Expr) (deep : Reader StmtNode) {bound : Nat},
      s.ahead.length < bound → Traces s (nodeOver deepExpr deep bound)
        (watching.nodeWithin (s.ahead.length + 1)) fun _ t => t.ahead.length < s.ahead.length :=
    fun _ _ _ h => nodeOver_traces h (Nat.lt_succ_self _)
  rw [nodeWithin_eq, nodeWithin_eq]
  exact ⟨(htraces _ _ hbound).eq (htraces _ _ (Nat.lt_succ_self _)), (htraces _ _ hbound).moved⟩

theorem statements_eq (hbound : s.ahead.length < bound) (hturns : s.ahead.length ≤ turns) :
    ∃ stmts t,
      plain.itemsUntil stops (plain.stmtOf (nodeOver deepExpr deep bound)) turns s = .ok stmts t ∧
      plain.itemsUntil stops (plain.stmtOf (plain.nodeWithin (s.ahead.length + 1)))
        s.ahead.length s = .ok stmts t ∧
      Moved s t ∧ ∀ x ∈ t.ahead.head?, stops x.token = true := by
  have htraces : ∀ (deepExpr : Reader Expr) (deep : Reader StmtNode) {bound turns : Nat},
      s.ahead.length < bound → s.ahead.length ≤ turns →
      TracesItems stops s
        (plain.itemsUntil stops (plain.stmtOf (nodeOver deepExpr deep bound)) turns)
        (watching.itemsUntil stops
          (watching.stmtOf (watching.nodeWithin (s.ahead.length + 1))) s.ahead.length) :=
    fun _ _ _ _ h h' => statements_traces h (Nat.lt_succ_self _) h' le_rfl
  obtain ⟨stmts, t, more, hplain, hwatched, hcourse, hend⟩ := htraces deepExpr deep hbound hturns []
  rw [nodeWithin_eq]
  obtain ⟨stmts', t', more', hplain', hwatched', -⟩ :=
    htraces (expected "expression") (expected "expression") (Nat.lt_succ_self _) le_rfl []
  rw [hwatched] at hwatched'
  cases hwatched'
  exact ⟨stmts, t, hplain, hplain', hcourse.moved, hend⟩

end Bounds

/-- Reading ends, with every lexeme passed. On the way the cursor only moves
on, and every statement that is tried takes a lexeme. Readers do not depend on
a bound above the number of lexemes ahead, nor on what would be read where it
is reached, and items end only where they are meant to. -/
theorem parsing_advances (atEnd : Span) (lexemes : List Lexeme) :
    (∃ p t, program (.initial atEnd lexemes) = .ok p t ∧ t.ahead = [] ∧
      Moved (.initial atEnd lexemes) t ∧
      (events atEnd lexemes).Pairwise (fun e e' => Moved e.finish e'.finish) ∧
      (∀ e ∈ events atEnd lexemes, e.Between (.initial atEnd lexemes) t) ∧
      ∀ start failure finish, .tried start failure finish ∈ events atEnd lexemes →
        start.ahead ≠ [] ∧ finish.ahead.length < start.ahead.length) ∧
    ∀ (s : State) (bound turns : Nat) (stops : Token → Bool) (deepExpr : Reader Expr)
      (deep : Reader StmtNode), s.ahead.length < bound → s.ahead.length ≤ turns →
      (exprOver deepExpr bound s = exprWithin (s.ahead.length + 1) s ∧
        Moved s (after (exprWithin bound) s)) ∧
      (nodeOver deepExpr deep bound s = plain.nodeWithin (s.ahead.length + 1) s ∧
        Moved s (after (plain.nodeWithin bound) s)) ∧
      (∃ stmts t,
        plain.itemsUntil stops (plain.stmtOf (nodeOver deepExpr deep bound)) turns s = .ok stmts t ∧
        plain.itemsUntil stops (plain.stmtOf (plain.nodeWithin (s.ahead.length + 1)))
          s.ahead.length s = .ok stmts t ∧
        Moved s t ∧ ∀ x ∈ t.ahead.head?, stops x.token = true) ∧
      (s.ahead ≠ [] → ∃ o t, recovering (plain.stmtOf (plain.nodeWithin bound)) s = .ok o t ∧
        Moved s t ∧ t.ahead.length < s.ahead.length) := by
  constructor
  · obtain ⟨p, t, hprogram, hend, hcourse⟩ := program_course atEnd lexemes
    exact ⟨p, t, hprogram, hend, hcourse.moved, hcourse.ordered, fun e he => hcourse.between he,
      fun start failure finish he => hcourse.event_lt _ he⟩
  · intro s bound turns stops deepExpr deep hbound hturns
    refine ⟨exprOver_eq deepExpr hbound, nodeOver_eq deepExpr deep hbound,
      statements_eq deepExpr deep hbound hturns, ?_⟩
    intro hs
    rw [nodeWithin_eq]
    exact recovering_lt hs (stmtOf_traces (nodeOver_traces hbound hbound))

/-- A closing parenthesis that nothing has opened, in a block that nothing
closes: both statements fail, and take all there is. -/
theorem parsing_advances_stray :
    let stray : List Lexeme := [⟨.keyword .whileKw, ⟨0, 5, 1, 1⟩⟩,
      ⟨.keyword .trueKw, ⟨6, 10, 1, 7⟩⟩,
      ⟨.symbol .lbrace, ⟨11, 12, 1, 12⟩⟩, ⟨.symbol .rparen, ⟨13, 14, 1, 14⟩⟩]
    (∃ start failure finish, .tried start (some failure) finish ∈ events ⟨14, 14, 1, 15⟩ stray ∧
      finish.ahead.length < start.ahead.length) ∧
    ∃ o t,
      recovering (plain.stmtOf (plain.nodeWithin 5)) (.initial ⟨14, 14, 1, 15⟩ stray) = .ok o t ∧
      Moved (.initial ⟨14, 14, 1, 15⟩ stray) t ∧ t.ahead.length < 4 := by
  intro stray
  obtain ⟨⟨p, t, -, -, -, -, -, htried⟩, hreaders⟩ := parsing_advances ⟨14, 14, 1, 15⟩ stray
  have hfailed : (events ⟨14, 14, 1, 15⟩ stray).any (fun e => e.error?.isSome) = true := by
    decide +kernel
  obtain ⟨e, he, hfailure⟩ := List.any_eq_true.mp hfailed
  constructor
  · cases e with
    | tried start failure finish =>
      rw [Event.error?, Option.isSome_map] at hfailure
      obtain ⟨f, rfl⟩ := Option.isSome_iff_exists.mp hfailure
      exact ⟨start, f, finish, he, (htried start _ finish he).2⟩
    | block _ _ => cases hfailure
  · exact (hreaders (.initial ⟨14, 14, 1, 15⟩ stray) 5 4 (fun _ => false) (expected "")
      (expected "") (by decide) (by decide)).2.2.2 (by simp [State.initial, stray])

end Quill.Reader
