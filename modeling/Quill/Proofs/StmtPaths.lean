-- How statements, blocks and programs are read, well or badly. A watched
-- reading has the result that the reading has, under every bound above the
-- number of lexemes ahead, and it follows a course. Each turn of a loop
-- passes a lexeme, so that the turns never run out before the loop ends.
import Quill.Proofs.ExprPaths
import Quill.Proofs.ProgramSoundness

namespace Quill.Reader

variable {α β : Type}

/-! ## Readings and watched readings -/

/-- Both results are the same, and what the watched reading from `r` has noted
is what happens on a course. -/
inductive Traced (P : α → State → Prop) (r : Tape) :
    EStateM.Result Diagnostic State α → EStateM.Result Diagnostic Tape α → Prop
  | ok {x : α} {t : State} {more : List Event} : Course .part r.state more t → P x t →
      Traced P r (.ok x t) (.ok x ⟨t, r.past ++ more⟩)
  | error {d : Diagnostic} {t : State} {more : List Event} : Course (.failed d) r.state more t →
      Traced P r (.error d t) (.error d ⟨t, r.past ++ more⟩)

/-- From the state `s` the watched reader does what the reader does, and a
result has the property `P`. -/
def Traces (s : State) (m : Reader α) (w : Watched α) (P : α → State → Prop) : Prop :=
  ∀ past, Traced P ⟨s, past⟩ (m s) (w ⟨s, past⟩)

section Traces

variable {s t : State} {m m' : Reader α} {w : Watched α} {f : α → Reader β} {g : α → Watched β}
  {P P' : α → State → Prop} {Q : β → State → Prop} {x : Lexeme} {xs : List Lexeme}

/-- What follows a part of a course makes the course longer. -/
theorem Traced.before {past more : List Event} {result : EStateM.Result Diagnostic State α}
    {result' : EStateM.Result Diagnostic Tape α} (hcourse : Course .part s more t)
    (h : Traced P ⟨t, past ++ more⟩ result result') : Traced P ⟨s, past⟩ result result' := by
  cases h with
  | ok hcourse' hx =>
    rw [List.append_assoc]
    exact .ok (.trans hcourse hcourse') hx
  | error hcourse' =>
    rw [List.append_assoc]
    exact .error (.later hcourse hcourse')

theorem Traced.ok_nil {past : List Event} {x : α} (hcourse : Course .part s [] t) (hx : P x t) :
    Traced P ⟨s, past⟩ (.ok x t) (.ok x ⟨t, past⟩) := by
  have h : Traced P ⟨s, past⟩ (.ok x t) (.ok x ⟨t, past ++ []⟩) := .ok hcourse hx
  rwa [List.append_nil] at h

theorem Traced.error_nil {past : List Event} {d : Diagnostic}
    (hcourse : Course (.failed d) s [] t) :
    Traced P ⟨s, past⟩ (.error d t) (.error d ⟨t, past⟩) := by
  have h : Traced P ⟨s, past⟩ (.error d t) (.error d ⟨t, past ++ []⟩) := .error hcourse
  rwa [List.append_nil] at h

theorem Traces.imp (h : Traces s m w P) (hP : ∀ x t, Moved s t → P x t → P' x t) :
    Traces s m w P' := by
  intro past
  have hpast := h past
  generalize m s = result, w ⟨s, past⟩ = result' at hpast
  cases hpast with
  | ok hcourse hx => exact .ok hcourse (hP _ _ hcourse.moved hx)
  | error hcourse => exact .error hcourse

theorem Traces.pure {x : α} (h : P x s) : Traces s (pure x) (pure x) P :=
  fun _ => .ok_nil (.rest s) h

theorem Traces.bind (h : Traces s m w P)
    (hf : ∀ x t, Moved s t → P x t → Traces t (f x) (g x) Q) :
    Traces s (m >>= f) (w >>= g) Q := by
  intro past
  have hpast := h past
  simp only [Bind.bind, EStateM.bind]
  generalize m s = result, w ⟨s, past⟩ = result' at hpast
  cases hpast with
  | @ok x t more hcourse hx => exact .before hcourse (hf x t hcourse.moved hx (past ++ more))
  | error hcourse => exact .error hcourse

/-- Where no statement is tried, nothing is noted. -/
theorem Scans.traces (h : Scans s m m' P) : Traces s m (watching.look m') P := by
  intro past
  unfold Scans at h
  simp only [watching_look, Watched.look]
  generalize m s = result, m' s = result' at h
  cases h with
  | ok hcourse hx => exact .ok_nil hcourse hx
  | error hcourse hd => exact .error_nil (.later hcourse (.expected hd))

theorem traces_peek {f : Option Token → Reader β} {g : Option Token → Watched β}
    (h : ∀ o, o = s.ahead.head?.map (·.token) → Traces s (f o) (g o) Q) :
    Traces s (peek? >>= f) (watching.look peek? >>= g) Q := h _ rfl

theorem traces_nextSpan {f : Span → Reader β} {g : Span → Watched β}
    (h : Traces s (f s.next) (g s.next) Q) :
    Traces s (nextSpan >>= f) (watching.look nextSpan >>= g) Q := h

theorem traces_spanFrom {f : Span → Reader β} {g : Span → Watched β} (start : Span)
    (h : ∀ span, Traces s (f span) (g span) Q) :
    Traces s (spanFrom start >>= f) (watching.look (spanFrom start) >>= g) Q := h _

theorem traces_nextIs {f : Bool → Reader β} {g : Bool → Watched β} (t : Token)
    (h : ∀ b, Traces s (f b) (g b) Q) :
    Traces s (nextIs t >>= f) (watching.look (nextIs t) >>= g) Q := h _

/-- What begins with a token that is no brace passes at least that one. -/
theorem traces_advance {f : Unit → Reader β} {g : Unit → Watched β} {t : Token}
    (ho : some t = s.ahead.head?.map (·.token)) (ht : t.isBrace = false)
    (h : ∀ u, u.ahead.length < s.ahead.length → Traces u (f ()) (g ()) fun _ _ => True) :
    Traces s (advance >>= f) (watching.look advance >>= g)
      fun _ u => u.ahead.length < s.ahead.length := by
  obtain ⟨x, xs, hs, rfl, -⟩ := State.exists_head ho
  apply (advance_scans hs ht).traces.bind
  rintro _ _ - rfl
  have hlt : (s.passed [x] xs).ahead.length < s.ahead.length := by
    rw [State.passed_ahead, hs]
    exact Nat.lt_succ_self _
  exact (h _ hlt).imp fun _ _ hmoved _ => hmoved.length_le.trans_lt hlt

end Traces

/-! ## Items -/

section Items

variable {s : State} {item : Reader α} {item' : Watched α} {stops : Token → Bool}
  {n turns turns' : Nat}

/-- An item is kept, or its error is reported and what remains of it is
skipped. -/
theorem recovering_traces {P : α → State → Prop} (h : Traces s item item' P)
    (past : List Event) :
    (∃ x t more, recovering item s = .ok (some x) t ∧ watching.recovering item' ⟨s, past⟩ =
        .ok (some x) ⟨t, past ++ more ++ [.tried s none t]⟩ ∧ Course .part s more t ∧ P x t) ∨
    (∃ d t more, recovering item s = .ok none ((t.beyond s).resume d) ∧
      watching.recovering item' ⟨s, past⟩ = .ok none ⟨(t.beyond s).resume d, past ++ more ++
        [.tried s (some ⟨d, t, (t.beyond s).skipped⟩) ((t.beyond s).resume d)]⟩ ∧
      Course (.failed d) s more t) := by
  have hpast := h past
  rw [watching_recovering]
  unfold recovering Watched.recovering
  generalize item s = result, item' ⟨s, past⟩ = result' at hpast
  cases hpast with
  | @ok x t more hcourse hx => exact .inl ⟨x, t, more, rfl, rfl, hcourse, hx⟩
  | @error d t more hcourse => exact .inr ⟨d, t, more, rfl, rfl, hcourse⟩

theorem skipSemicolons_eq (s : State) :
    ∃ semis rest, s.ahead = semis ++ rest ∧ (∀ x ∈ semis, x.token = .symbol .semi) ∧
      skipSemicolons s = .ok () (s.passed semis rest) := by
  obtain ⟨semis, rest, hsplit, hsemis, heq⟩ := dropSemicolons_eq s.last s.ahead
  refine ⟨semis, rest, hsplit, hsemis, ?_⟩
  unfold skipSemicolons
  rw [heq]
  rfl

/-- Both readers read the same items, up to the end of the text or a token
that stops them. -/
def TracesItems (stops : Token → Bool) (s : State) (m : Reader (List α))
    (w : Watched (List α)) : Prop :=
  ∀ past, ∃ xs t more, m s = .ok xs t ∧ w ⟨s, past⟩ = .ok xs ⟨t, past ++ more⟩ ∧
    Course (.items stops) s more t ∧ ∀ x ∈ t.ahead.head?, stops x.token = true

/-- Where nothing is ahead no turn is needed. -/
theorem itemsUntil_traces_nil (hs : s.ahead = []) (turns turns' : Nat) :
    TracesItems stops s (plain.itemsUntil stops item turns)
      (watching.itemsUntil stops item' turns') := by
  intro past
  have hskip : skipSemicolons s = .ok () s := by
    unfold skipSemicolons
    rw [hs]
    simp only [dropSemicolons, ← hs]
  refine ⟨[], s, [], ?_, ?_, .done stops s, by simp [hs]⟩
  · cases turns with
    | zero => rfl
    | succ turns =>
      simp [Mode.itemsUntil, Bind.bind, EStateM.bind, hskip, peek?, hs, Pure.pure, EStateM.pure]
  · cases turns' with
    | zero => simp [Mode.itemsUntil, Pure.pure, EStateM.pure]
    | succ turns =>
      simp [Mode.itemsUntil, Watched.look, Bind.bind, EStateM.bind, hskip, peek?, hs,
        Pure.pure, EStateM.pure]

/-- One turn: the other items are read from where the item, or what is skipped
of it, ends. -/
theorem turn_traces {x : Lexeme} {xs : List Lexeme} {rest : Reader (List α)}
    {rest' : Watched (List α)} (hs : s.ahead = x :: xs) (hstop : stops x.token = false)
    (hitem : Traces s item item' fun _ t => t.ahead.length < s.ahead.length)
    (hrest : ∀ u : State, u.ahead.length < s.ahead.length → TracesItems stops u rest rest') :
    TracesItems stops s
      (do match ← recovering item with
        | some x => return x :: (← rest)
        | none => rest)
      (do match ← watching.recovering item' with
        | some x => return x :: (← rest')
        | none => rest') := by
  intro past
  simp only [Bind.bind, EStateM.bind]
  rcases recovering_traces hitem past with
    ⟨y, t, more, hplain, hwatched, hcourse, hlt⟩ | ⟨d, t, more, hplain, hwatched, hcourse⟩
  · obtain ⟨ys, u, later, hys, hys', hlater, hend⟩ :=
      hrest t hlt (past ++ more ++ [.tried s none t])
    refine ⟨y :: ys, u, more ++ .tried s none t :: later, ?_, ?_, ?_, hend⟩
    · simp only [hplain, EStateM.bind, hys, Pure.pure, EStateM.pure]
    · simp only [hwatched, EStateM.bind, hys', Pure.pure, EStateM.pure]
      simp
    · exact .kept hs hstop hcourse hlt hlater
  · have hlt := State.resume_beyond_lt d hcourse.moved (by rw [hs]; exact List.cons_ne_nil x xs)
    obtain ⟨ys, u, later, hys, hys', hlater, hend⟩ := hrest _ hlt (past ++ more ++ [.tried s
      (some ⟨d, t, (t.beyond s).skipped⟩) ((t.beyond s).resume d)])
    refine ⟨ys, u, more ++ .tried s (some ⟨d, t, (t.beyond s).skipped⟩)
      ((t.beyond s).resume d) :: later, ?_, ?_, ?_, hend⟩
    · simp only [hplain, hys]
    · simp only [hwatched, hys']
      simp
    · exact .dropped hs hstop hcourse hlater

theorem tracesItems_done (h : ∀ x ∈ s.ahead.head?, stops x.token = true) :
    TracesItems stops s (pure ([] : List α)) (pure []) := by
  intro past
  refine ⟨[], s, [], rfl, ?_, .done stops s, h⟩
  rw [List.append_nil]
  rfl

theorem tracesItems_semicolons {f : Unit → Reader (List α)} {g : Unit → Watched (List α)}
    (h : ∀ t : State, Moved s t → TracesItems stops t (f ()) (g ())) :
    TracesItems stops s (skipSemicolons >>= f) (watching.look skipSemicolons >>= g) := by
  intro past
  obtain ⟨semis, rest, hsplit, hsemis, hskip⟩ := skipSemicolons_eq s
  obtain ⟨xs, t, more, hplain, hwatched, hcourse, hend⟩ :=
    h (s.passed semis rest) ⟨semis, hsplit, rfl, rfl⟩ past
  refine ⟨xs, t, more, ?_, ?_, .semicolons hsplit hsemis hcourse, hend⟩
  · simp only [Bind.bind, EStateM.bind, hskip, hplain]
  · simp only [Bind.bind, EStateM.bind, watching_look, Watched.look, hskip, hwatched]

theorem tracesItems_peek {f : Option Token → Reader (List α)} {g : Option Token → Watched (List α)}
    (h : ∀ o, o = s.ahead.head?.map (·.token) → TracesItems stops s (f o) (g o)) :
    TracesItems stops s (peek? >>= f) (watching.look peek? >>= g) := h _ rfl

/-- Each turn passes an item or what remains of it, so there are turns enough
for all lexemes. -/
theorem itemsUntil_traces (hitem : ∀ u : State, u.ahead.length < n →
      Traces u item item' fun _ t => t.ahead.length < u.ahead.length)
    (hn : s.ahead.length < n) (hturns : s.ahead.length ≤ turns)
    (hturns' : s.ahead.length ≤ turns') :
    TracesItems stops s (plain.itemsUntil stops item turns)
      (watching.itemsUntil stops item' turns') := by
  induction turns generalizing turns' s with
  | zero =>
    have hnil := List.length_eq_zero_iff.mp (Nat.le_zero.mp hturns)
    exact itemsUntil_traces_nil hnil 0 turns'
  | succ turns ih =>
    by_cases hnil : s.ahead = []
    · exact itemsUntil_traces_nil hnil _ _
    obtain ⟨turns', rfl⟩ : ∃ k, turns' = k + 1 := by
      have := List.length_pos_iff.mpr hnil
      exact ⟨turns' - 1, by omega⟩
    apply tracesItems_semicolons
    intro t ht
    have hle := ht.length_le
    apply tracesItems_peek
    rintro (_ | token) ho
    · have hempty : t.ahead.head? = none := by simpa using ho.symm
      exact tracesItems_done (by simp [hempty])
    obtain ⟨x, xs, hx, rfl, -⟩ := State.exists_head ho
    by_cases hstop : stops x.token = true
    · simp only [hstop, ↓reduceIte]
      exact tracesItems_done (by simpa [hx] using hstop)
    · simp only [hstop, Bool.false_eq_true, ↓reduceIte]
      refine turn_traces hx (by simpa using hstop) (hitem t (hle.trans_lt hn)) ?_
      intro u hu
      exact ih (by omega) (by omega) (by omega)

end Items

/-! ## Parts of statements -/

section Parts

variable {s : State} {stmt : Reader Stmt} {stmt' : Watched Stmt} {node : Reader StmtNode}
  {node' : Watched StmtNode} {body : Reader Block} {body' : Watched Block}
  {expr expr' : Reader Expr} {n turns turns' : Nat}

/-- The items of a block end before a closing brace or at the end of the text,
and only in the first case is it a block. -/
theorem block_traces (hstmt : ∀ u : State, u.ahead.length < n →
      Traces u stmt stmt' fun _ t => t.ahead.length < u.ahead.length)
    (hn : s.ahead.length ≤ n) (hturns : s.ahead.length ≤ turns)
    (hturns' : s.ahead.length ≤ turns') :
    Traces s (plain.block turns stmt) (watching.block turns' stmt') fun _ _ => True := by
  intro past
  simp only [Mode.block, plain_enclosed, watching_enclosed, plain_look, watching_look]
  rcases @expect_eq s (.symbol .lbrace) with ⟨x, xs, hs, hx, hopen⟩ | ⟨-, d, hd, hopen⟩
  · rw [hs, List.length_cons] at hn hturns hturns'
    have hitems : TracesItems (· = .symbol .rbrace) (s.passed [x] xs)
        (plain.itemsUntil (· = .symbol .rbrace) stmt turns)
        (watching.itemsUntil (· = .symbol .rbrace) stmt' turns') := by
      apply itemsUntil_traces hstmt <;> rw [State.passed_ahead] <;> omega
    obtain ⟨stmts, t, more, hplain, hwatched, hcourse, hend⟩ := hitems past
    rcases @expect_eq t (.symbol .rbrace) with ⟨y, ys, ht, hy, hclose⟩ | ⟨hne, d, hd, hclose⟩
    · simp only [Watched.enclosed, Bind.bind, EStateM.bind, Watched.look, hopen, hplain, hwatched,
        hclose, Tape.note, Pure.pure, EStateM.pure, List.append_assoc]
      exact .ok (.block hs hx hcourse ht hy) trivial
    · simp only [Watched.enclosed, Bind.bind, EStateM.bind, Watched.look, hopen, hplain, hwatched,
        hclose]
      refine .error (.unclosed hs hx hcourse ?_ hd)
      rcases ht : t.ahead with _ | ⟨y, ys⟩
      · rfl
      · rw [ht] at hend hne
        exact absurd (of_decide_eq_true (hend y rfl)) fun hy => hne (by simp [hy])
  · simp only [Watched.enclosed, Bind.bind, EStateM.bind, Watched.look, hopen]
    exact .error_nil (.expected hd)

theorem stmtOf_traces
    (hnode : Traces s node node' fun _ t => t.ahead.length < s.ahead.length) :
    Traces s (plain.stmtOf node) (watching.stmtOf node')
      fun _ t => t.ahead.length < s.ahead.length := by
  apply traces_nextSpan
  apply hnode.bind
  intro n t _ hlt
  apply traces_spanFrom
  intro span
  apply (take?_scans rfl).traces.bind
  intro _ u hu _
  exact .pure (hu.length_le.trans_lt hlt)

theorem function_traces (ho : some (.keyword .functionKw) = s.ahead.head?.map (·.token))
    (hbody : ∀ u : State, u.ahead.length < s.ahead.length → Traces u body body' fun _ _ => True)
    (hturns : s.ahead.length ≤ turns) (hturns' : s.ahead.length ≤ turns') :
    Traces s (plain.function turns body) (watching.function turns' body')
      fun _ t => t.ahead.length < s.ahead.length := by
  apply traces_nextSpan
  apply traces_advance ho rfl
  intro u hu
  apply (name_scans _).traces.bind
  intro fnName v hv _
  apply (expect_scans rfl).traces.bind
  intro _ w hw _
  have hvw := (hv.trans hw).length_le
  apply (parameters_scans (by omega) (by omega)).traces.bind
  intro params x hx _
  apply (expect_scans rfl).traces.bind
  intro _ y hy _
  have hxy := (hx.trans hy).length_le
  apply (hbody y (by omega)).bind
  intro block z _ _
  apply traces_spanFrom
  exact fun span => .pure trivial

theorem otherwise_traces
    (hnode : ∀ u : State, u.ahead.length ≤ n → Traces u node node' fun _ _ => True)
    (hbody : ∀ u : State, u.ahead.length ≤ n → Traces u body body' fun _ _ => True)
    (hs : s.ahead.length ≤ n) :
    Traces s (plain.otherwise node body) (watching.otherwise node' body') fun _ _ => True := by
  apply (take?_scans rfl).traces.bind
  rintro (_ | _) t ht -
  · exact .pure trivial
  · have htn := ht.length_le.trans hs
    apply traces_nextIs
    rintro (_ | _)
    · apply (hbody t htn).bind
      exact fun _ _ _ _ => .pure trivial
    · apply traces_nextSpan
      apply (hnode t htn).bind
      intro _ _ _ _
      apply traces_spanFrom
      exact fun span => .pure trivial

theorem target_eq (e : Expr) : (∃ place, target e = pure place) ∨
    target e = throw ⟨"Invalid assignment target", e.span⟩ := by
  unfold target
  split
  · exact .inl ⟨_, rfl⟩
  · exact .inl ⟨_, rfl⟩
  · exact .inr rfl

/-- The error about a bad target is about an expression that has been passed,
with the arrow behind it. -/
theorem simple_traces (hexpr : ScansExpr n expr expr') (hs : s.ahead.length < n) :
    Traces s (simple expr) (watching.look (simple expr'))
      fun _ t => t.ahead.length < s.ahead.length := by
  intro past
  have hfirst := hexpr s hs
  unfold Scans at hfirst
  simp only [simple, watching_look, Watched.look, Bind.bind, EStateM.bind]
  generalize expr s = result, expr' s = result' at hfirst
  cases hfirst with
  | error hcourse hd => exact .error_nil (.later hcourse (.expected hd))
  | @ok e t hcourse he =>
    have hlt := he.length_lt
    dsimp only
    rcases ht : t.ahead with _ | ⟨x, xs⟩
    · rw [take?_nil ht]
      exact .ok_nil hcourse hlt
    rw [take?_cons ht]
    by_cases hx : x.token = .symbol .arrow
    · rw [if_pos hx]
      have hcourse' : Course .part s [] (t.passed [x] xs) :=
        .trans hcourse (.token ht (by rw [hx]; rfl))
      have hmoved := Moved.head ht
      have hle := hmoved.length_le
      rcases target_eq e with ⟨place, hplace⟩ | hbad
      · have hvalue : Scans (t.passed [x] xs)
            (expr >>= fun value => pure (StmtNode.assign place value))
            (expr' >>= fun value => pure (StmtNode.assign place value))
            fun _ u => u.ahead.length < s.ahead.length := by
          apply (hexpr _ (by omega)).bind
          intro value u hu _
          exact .pure (by have := hu.length_le; omega)
        refine .before hcourse' ?_
        rw [List.append_nil]
        simp only [hplace]
        exact hvalue.traces past
      · simp only [hbad]
        exact .error_nil (.target hcourse' (he.after hmoved))
    · rw [if_neg hx]
      exact .ok_nil hcourse hlt

end Parts

/-! ## Statements and programs -/

/-- What is inside a statement is read where fewer lexemes are ahead. -/
theorem nodeFrom_traces {s : State} {expr expr' : Reader Expr} {node : Reader StmtNode}
    {node' : Watched StmtNode} {turns turns' : Nat}
    (hexpr : ScansExpr (s.ahead.length + 1) expr expr')
    (hnode : ∀ u : State, u.ahead.length < s.ahead.length →
      Traces u node node' fun _ t => t.ahead.length < u.ahead.length)
    (hturns : s.ahead.length ≤ turns) (hturns' : s.ahead.length ≤ turns') :
    Traces s (plain.nodeFrom turns expr node) (watching.nodeFrom turns' expr' node')
      fun _ t => t.ahead.length < s.ahead.length := by
  have hsimple := simple_traces hexpr (Nat.lt_succ_self _)
  have hblock : ∀ u : State, u.ahead.length < s.ahead.length →
      Traces u (plain.block turns (plain.stmtOf node))
        (watching.block turns' (watching.stmtOf node')) fun _ _ => True := by
    intro u hu
    exact block_traces (fun v hv => stmtOf_traces (hnode v hv)) hu.le (by omega) (by omega)
  -- Behind a keyword there is an expression and a block.
  have hheaded : ∀ {make : Expr → Block → StmtNode} (u : State),
      u.ahead.length < s.ahead.length →
      Traces u
        (do
          let e ← expr
          return make e (← plain.block turns (plain.stmtOf node)))
        (do
          let e ← watching.look expr'
          return make e (← watching.block turns' (watching.stmtOf node')))
        fun _ _ => True := by
    intro make u hu
    apply (hexpr u (by omega)).traces.bind
    intro e v hv _
    apply (hblock v (hv.length_le.trans_lt hu)).bind
    exact fun _ _ _ _ => .pure trivial
  apply traces_peek
  rintro (_ | t) ho
  · exact hsimple
  cases t with
  | keyword word =>
    cases word with
    | functionKw =>
      apply (function_traces ho hblock hturns hturns').bind
      exact fun _ _ _ hlt => .pure hlt
    | ifKw =>
      apply traces_advance ho rfl
      intro u hu
      apply (hexpr u (by omega)).traces.bind
      intro test v hv _
      have hvs := hv.length_le.trans_lt hu
      apply (hblock v hvs).bind
      intro yes w hw _
      have hws := hw.length_le.trans_lt hvs
      have hno : Traces w (plain.otherwise node (plain.block turns (plain.stmtOf node)))
          (watching.otherwise node' (watching.block turns' (watching.stmtOf node')))
          fun _ _ => True :=
        otherwise_traces (fun x hx => (hnode x (hx.trans_lt hws)).imp fun _ _ _ _ => trivial)
          (fun x hx => hblock x (hx.trans_lt hws)) le_rfl
      apply hno.bind
      exact fun _ _ _ _ => .pure trivial
    | whileKw => exact traces_advance ho rfl hheaded
    | forKw =>
      apply traces_advance ho rfl
      intro u hu
      apply (name_scans _).traces.bind
      intro item v hv _
      apply (expect_scans rfl).traces.bind
      intro _ w hw _
      exact hheaded w ((hv.trans hw).length_le.trans_lt hu)
    | repeatKw => exact traces_advance ho rfl hheaded
    | returnKw =>
      apply traces_advance ho rfl
      intro u hu
      apply traces_peek
      intro o _
      split
      · apply (hexpr u (by omega)).traces.bind
        exact fun _ _ _ _ => .pure trivial
      · exact .pure trivial
    | stopKw => exact traces_advance ho rfl fun _ _ => .pure trivial
    | nextKw => exact traces_advance ho rfl fun _ _ => .pure trivial
    | _ => exact hsimple
  | _ => exact hsimple

/-- The form of a statement, with `deepExpr` and `deep` in the place of what is
read where the bound is reached. -/
def nodeOver (deepExpr : Reader Expr) (deep : Reader StmtNode) : Nat → Reader StmtNode
  | 0 => deep
  | bound + 1 => plain.nodeFrom bound (exprOver deepExpr (bound + 1)) (nodeOver deepExpr deep bound)

theorem nodeWithin_eq (bound : Nat) :
    plain.nodeWithin bound = nodeOver (expected "expression") (expected "expression") bound := by
  induction bound with
  | zero => rfl
  | succ bound ih => rw [Mode.nodeWithin, nodeOver, ih, exprWithin_eq]

section Bounds

variable {s : State} {deepExpr : Reader Expr} {deep : Reader StmtNode} {bound bound' : Nat}

/-- A bound above the number of lexemes ahead is never reached. -/
theorem nodeOver_traces (hbound : s.ahead.length < bound) (hbound' : s.ahead.length < bound') :
    Traces s (nodeOver deepExpr deep bound) (watching.nodeWithin bound')
      fun _ t => t.ahead.length < s.ahead.length := by
  induction bound generalizing bound' s with
  | zero => exact absurd hbound (Nat.not_lt_zero _)
  | succ bound ih =>
    obtain ⟨bound', rfl⟩ : ∃ k, bound' = k + 1 := ⟨bound' - 1, by omega⟩
    rw [nodeOver, Mode.nodeWithin, exprWithin_eq]
    refine nodeFrom_traces (exprOver_scans hbound hbound') ?_ (by omega) (by omega)
    intro u hu
    exact ih (by omega) (by omega)

theorem statements_traces {stops : Token → Bool} {turns turns' : Nat}
    (hbound : s.ahead.length < bound) (hbound' : s.ahead.length < bound')
    (hturns : s.ahead.length ≤ turns) (hturns' : s.ahead.length ≤ turns') :
    TracesItems stops s (plain.itemsUntil stops (plain.stmtOf (nodeOver deepExpr deep bound)) turns)
      (watching.itemsUntil stops (watching.stmtOf (watching.nodeWithin bound')) turns') := by
  refine itemsUntil_traces ?_ (Nat.lt_succ_self _) hturns hturns'
  intro u hu
  exact stmtOf_traces (nodeOver_traces (by omega) (by omega))

end Bounds

/-- A program is read to the end of the text, whatever stands in it. -/
theorem program_traces (s : State) (past : List Event) :
    ∃ p t more, program s = .ok p t ∧ watching.program ⟨s, past⟩ = .ok p ⟨t, past ++ more⟩ ∧
      Course (.items fun _ => false) s more t ∧ t.ahead = [] := by
  have hstatements : TracesItems (fun _ => false) s
      (plain.itemsUntil (fun _ => false)
        (plain.stmtOf (plain.nodeWithin (s.ahead.length + 1))) s.ahead.length)
      (watching.itemsUntil (fun _ => false)
        (watching.stmtOf (watching.nodeWithin (s.ahead.length + 1))) s.ahead.length) := by
    rw [nodeWithin_eq]
    exact statements_traces (Nat.lt_succ_self _) (Nat.lt_succ_self _) le_rfl le_rfl
  obtain ⟨stmts, t, more, hplain, hwatched, hcourse, hend⟩ := hstatements past
  refine ⟨⟨stmts⟩, t, more, ?_, ?_, hcourse, ?_⟩
  · unfold program Mode.program
    simp only [plain_look, Bind.bind, EStateM.bind, remaining, hplain, Pure.pure, EStateM.pure]
  · unfold Mode.program
    simp only [watching_look, Bind.bind, EStateM.bind, Watched.look, remaining, hwatched,
      Pure.pure, EStateM.pure]
  · rcases ht : t.ahead with _ | ⟨x, xs⟩
    · rfl
    · rw [ht] at hend
      cases hend x rfl

/-- The events of a reading are those of the course that it takes. -/
theorem program_course (atEnd : Span) (lexemes : List Lexeme) :
    ∃ p t, program (.initial atEnd lexemes) = .ok p t ∧ t.ahead = [] ∧
      Course (.items fun _ => false) (.initial atEnd lexemes) (events atEnd lexemes) t := by
  obtain ⟨p, t, more, hplain, hwatched, hcourse, hend⟩ :=
    program_traces (.initial atEnd lexemes) []
  refine ⟨p, t, hplain, hend, ?_⟩
  unfold events
  rw [hwatched]
  exact hcourse

end Quill.Reader
