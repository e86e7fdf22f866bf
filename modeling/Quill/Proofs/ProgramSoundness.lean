-- Statements and programs follow the grammar, too. Reading goes on after
-- an error, but then something is reported, so that a program without
-- reports has used every lexeme.
import Quill.Proofs.ExprSoundness
import Quill.Proofs.KeptReports

namespace Quill.Grammar

theorem Items.semis {ends : Edge → List Lexeme → Prop} {semis used rest : List Lexeme}
    {stmts : List Stmt} (hs : ∀ x ∈ semis, x.token = .symbol .semi)
    (h : Items ends used stmts rest) : Items ends (semis ++ used) stmts rest := by
  induction semis with
  | nil => exact h
  | cons x semis ih =>
    exact .semi (hs x List.mem_cons_self) (ih fun y hy => hs y (List.mem_cons_of_mem x hy))

/-- The span of a phrase reaches from its first lexeme to the last that
was read. -/
theorem eq_spanOver {x : Lexeme} (before : List Lexeme) {xs used : List Lexeme} {span : Span}
    (hu : used = before ++ x :: xs)
    (h : ∀ y, used.getLast? = some y → span = x.span.merge y.span) : span = spanOver x xs := by
  subst hu
  exact h _ (by simp [List.getLast?_append, List.getLast?_cons])

end Quill.Grammar

namespace Quill.Reader

open Grammar

/-! ## Recovery -/

/-- A report counts when no error is pending. -/
theorem kept_report_ne_nil {r : Reporter} {d : Diagnostic} (h : r.pending = false) :
    (r.report d false).handled.kept ≠ [] := by
  unfold Reporter.handled
  rw [Reporter.kept_report]
  by_cases hd : d ∈ r.kept
  · simpa [hd] using List.ne_nil_of_mem hd
  · simp [hd, h]

theorem State.resume_reporter (s : State) (d : Diagnostic) :
    (s.resume d).reporter = (s.reporter.report d false).handled := rfl

/-- The state that follows a dropped item, and the error that is reported
then. -/
theorem recovering_error {α : Type} {item : Reader α} {s t : State} {d : Diagnostic}
    (h : item s = .error d t) :
    ∃ u, recovering item s = .ok none u ∧ u.reporter = (t.reporter.report d false).handled := by
  unfold recovering
  rw [h]
  refine ⟨_, rfl, ?_⟩
  rw [State.resume_reporter]
  split
  · rw [State.advance_reporter]
  · rfl

theorem recovering_parses {α : Type} {item : Reader α} {bound : Nat}
    {P : List Lexeme → α → List Lexeme → Prop} (h : Parses bound item P) :
    Parses bound (recovering item) fun used o rest => ∃ x, o = some x ∧ P used x rest := by
  intro start s hs hpre
  rcases hi : item s with ⟨x, t⟩ | ⟨d, t⟩
  · obtain ⟨hl, hat⟩ := (h start).ok hs hpre hi
    have hr : recovering item s = .ok (some x) t := by
      unfold recovering
      rw [hi]
    rw [hr]
    refine ⟨hl, fun hc => ?_⟩
    obtain ⟨used, hu⟩ := hat hc
    exact ⟨used, hu.imp fun r hP => ⟨x, rfl, hP⟩⟩
  · have hl := (h start).error hs hpre hi
    obtain ⟨u, hr, hu⟩ := recovering_error hi
    rw [hr]
    refine ⟨⟨by rw [hu]; rfl, ?_⟩, fun hc => ?_⟩
    · rw [hu]
      exact hl.kept.trans (Reporter.prefix_step _ (.report d false))
    · unfold State.Clean at hc
      rw [hu] at hc
      exact absurd hc (kept_report_ne_nil hl.calm)

/-! ## Lists of items -/

theorem dropSemicolons_eq (last : Option Span) (ahead : List Lexeme) :
    ∃ semis rest, ahead = semis ++ rest ∧ (∀ x ∈ semis, x.token = .symbol .semi) ∧
      dropSemicolons last ahead = ((semis.getLast?.map (·.span)).or last, rest) := by
  induction ahead generalizing last with
  | nil => exact ⟨[], [], rfl, by simp, rfl⟩
  | cons x xs ih =>
    unfold dropSemicolons
    split
    · rename_i hx
      obtain ⟨semis, rest, rfl, hsemis, heq⟩ := ih (some x.span)
      refine ⟨x :: semis, rest, rfl, ?_, ?_⟩
      · rintro y (_ | ⟨_, hy⟩)
        · exact hx
        · exact hsemis y hy
      · rw [heq, List.getLast?_cons]
        cases semis.getLast? <;> rfl
    · exact ⟨[], x :: xs, rfl, by simp, rfl⟩

theorem skipSemicolons_parses {bound : Nat} :
    Parses bound skipSemicolons fun used _ _ => ∀ x ∈ used, x.token = .symbol .semi := by
  intro start s hs hpre
  obtain ⟨semis, rest, hsplit, hsemis, heq⟩ := dropSemicolons_eq s.last s.ahead
  have hr : skipSemicolons s = .ok () (s.passed semis rest) := by
    unfold skipSemicolons
    rw [heq]
    rfl
  rw [hr]
  refine ⟨⟨hs, List.prefix_refl _⟩, fun hc => ⟨semis, ?_, ?_, hsemis⟩⟩
  · rw [(hpre hc).split, hsplit]
    rfl
  · conv_lhs => rw [(hpre hc).state]
    simp

variable {ends : Edge → List Lexeme → Prop} {bound turns : Nat}

/-- Items are read up to where they stop: each turn reads at least one
lexeme, so the turns never run out before. -/
theorem itemsUntil_parses {stops : Token → Bool} {item : Reader Stmt} {b : Nat}
    (hitem : Parses bound item (Sentence ends)) (ht : b ≤ turns) (hb : b ≤ bound) :
    Parses b (plain.itemsUntil stops item turns) fun used stmts rest =>
      Items ends used stmts rest ∧ ∀ x xs, rest = x :: xs → stops x.token = true := by
  induction turns generalizing b with
  | zero =>
    intro start
    apply reads_pure
    intro r hr
    obtain rfl := List.length_eq_zero_iff.mp (Nat.le_zero.mp (hr.trans ht))
    exact ⟨.nil, fun _ _ h => by cases h⟩
  | succ turns ih =>
    intro start
    apply skipSemicolons_parses.then (fun r hr => hr)
    intro _ semis
    apply peek_then
    rintro (_ | t)
    · apply reads_pure
      rintro r ⟨⟨-, hsemis⟩, hr⟩
      have hnil : r = [] := by simpa using hr.symm
      subst hnil
      exact ⟨by simpa using Items.semis hsemis Items.nil, fun _ _ h => by cases h⟩
    · dsimp only
      split
      · rename_i hstop
        apply reads_pure
        rintro r ⟨⟨-, hsemis⟩, hr⟩
        refine ⟨by simpa using Items.semis hsemis Items.nil, ?_⟩
        rintro x xs rfl
        rw [token_of_head hr]
        exact hstop
      · apply (recovering_parses hitem).then
        · rintro r ⟨⟨hr, -⟩, -⟩
          rw [List.length_append] at hr
          omega
        rintro (_ | stmt) v
        · refine (ih (Nat.zero_le turns) (Nat.zero_le bound) start).weaken fun s hs => ?_
          obtain ⟨x, hx, -⟩ := hs.holds.2
          cases hx
        · apply (ih (b := b - 1) (by omega) (by omega)).then
          · rintro r ⟨⟨⟨hr, -⟩, -⟩, x, -, hx⟩
            obtain ⟨y, ys, rfl, -⟩ := hx.head
            simp only [List.length_append, List.length_cons] at hr
            omega
          intro stmts w
          apply reads_pure
          rintro r ⟨⟨⟨⟨-, hsemis⟩, -⟩, stmt', heq, hstmt⟩, hitems, hstop⟩
          cases heq
          exact ⟨by simpa using Items.semis hsemis (.cons hstmt hitems), hstop⟩

/-! ## Parts of statements -/

theorem name_parses {what : String} (bound : Nat) :
    Parses bound (name what) fun used n _ =>
      ∃ x text, used = [x] ∧ x.token = .ident text ∧ n = ⟨text, x.span⟩ := by
  intro start
  apply peek_then
  intro o
  split
  · rename_i text
    apply nextSpan_then
    intro span
    apply advance_then fun r hr => ne_nil_of_head hr.1.2
    intro x
    apply reads_pure
    rintro r ⟨⟨-, hx⟩, hspan⟩
    obtain rfl := hspan x r rfl
    exact ⟨x, text, rfl, token_of_head hx, rfl⟩
  · exact .expected

theorem names_parses {what : String} (bound : Nat) :
    Parses bound (separated (name what) turns) fun used ps _ => ps ≠ [] ∧ Names used ps := by
  induction turns with
  | zero =>
    intro start
    apply (name_parses bound).then (fun r hr => hr)
    intro n v
    apply reads_pure
    rintro r ⟨-, x, text, rfl, hx, rfl⟩
    exact ⟨by simp, .one hx⟩
  | succ turns ih =>
    intro start
    apply (name_parses bound).then (fun r hr => hr)
    intro n v
    apply take_then
    · intro span c
      apply ih.then (by grind)
      intro ps w
      apply reads_pure
      rintro r ⟨⟨⟨-, x, text, rfl, hx, rfl⟩, hc, -⟩, hne, hnames⟩
      obtain ⟨p, ps, rfl⟩ := List.exists_cons_of_ne_nil hne
      exact ⟨by simp, .more hx hc hnames⟩
    · apply reads_pure
      rintro r ⟨⟨-, x, text, rfl, hx, rfl⟩, -⟩
      exact ⟨by simp, .one hx⟩

theorem parameters_parses (bound : Nat) :
    Parses bound (parameters turns) fun used ps _ => Names used ps := by
  intro start
  apply nextIs_then
  rintro (_ | _)
  · refine ((names_parses bound).reads fun r hr => hr.1).mono (fun _ h => h) ?_
    rintro ps s ⟨v, hv⟩
    exact ⟨v, hv.imp fun r h => h.2.2⟩
  · exact reads_pure fun r _ => .none

theorem block_parses {stmt : Reader Stmt} (h : Parses (bound - 1) stmt (Sentence ends)) :
    Parses bound (plain.block bound stmt) (Braced ends) := by
  intro start
  apply expect_then
  intro opening x
  apply (itemsUntil_parses h (Nat.sub_le bound 1) le_rfl).then (by grind)
  intro stmts v
  apply expect_then
  intro close y
  apply reads_pure
  rintro r ⟨⟨⟨-, hx, rfl⟩, hitems, -⟩, hy, rfl⟩
  exact .intro hx hitems hy

section Spans

variable {β : Type} {start : State} {used : List Lexeme} {K : List Lexeme → Prop}
  {post : β → State → Prop}

theorem spanFrom_then {first : Span} {f : Span → Reader β}
    (hf : ∀ span, Reads (At start used fun r => K r ∧
      ∀ x, used.getLast? = some x → span = first.merge x.span) (f span) post) :
    Reads (At start used K) (spanFrom first >>= f) post := by
  unfold spanFrom
  rw [bind_assoc]
  apply lastSpan_then
  intro last
  rw [pure_bind]
  refine (hf (first.merge last)).weaken fun s hs => hs.imp ?_
  rintro r ⟨hr, hlast⟩
  exact ⟨hr, fun x hx => by rw [hlast x hx]⟩

end Spans

theorem stmtOf_parses {node : Reader StmtNode}
    (hends : ∀ {edge rest}, Stops edge rest → ends edge rest)
    (h : Parses bound node (Node ends)) : Parses bound (plain.stmtOf node) (Sentence ends) := by
  intro start
  apply nextSpan_then
  intro first
  apply h.then (fun r hr => hr.1)
  intro n v
  apply spanFrom_then
  intro span
  have hspan : ∀ {r}, (∀ x xs, v ++ r = x :: xs → first = x.span) →
      (∀ x, ([] ++ v).getLast? = some x → span = first.merge x.span) → Node ends v n r →
      ∃ x xs, v = x :: xs ∧ span = spanOver x xs := by
    intro r hfirst hlast hn
    obtain ⟨x, xs, rfl, -⟩ := hn.head
    refine ⟨x, xs, rfl, ?_⟩
    obtain rfl := hfirst x _ rfl
    exact eq_spanOver [] rfl hlast
  apply take_then
  · intro _ y
    apply reads_pure
    rintro r ⟨⟨⟨⟨-, hfirst⟩, hn⟩, hlast⟩, hy, -⟩
    obtain ⟨x, xs, rfl, rfl⟩ := hspan hfirst hlast hn
    exact .closed hn hy
  · apply reads_pure
    rintro r ⟨⟨⟨⟨-, hfirst⟩, hn⟩, hlast⟩, hr⟩
    obtain ⟨x, xs, rfl, rfl⟩ := hspan hfirst hlast hn
    refine .bare hn (hends ?_)
    rintro y ys rfl hy
    exact hr (congrArg some hy)

theorem rooted_of_root? {e : Expr} {n : Name} : e.root? = some n → Rooted e := by
  fun_induction Expr.root? e with
  | case1 text span => exact fun _ => .name text span
  | case2 base index span ih => exact fun h => .element index span (ih h)
  | case3 => exact fun h => by cases h

theorem target_reads {e : Expr} {start : State} {used : List Lexeme} {K : List Lexeme → Prop} :
    Reads (At start used K) (target e) fun place => At start used fun r => K r ∧ Place e place := by
  obtain ⟨node, span⟩ := e
  unfold target
  split
  · rename_i name hnode
    cases hnode
    exact .pure fun s hs => hs.imp fun r hr => ⟨hr, .name name span⟩
  · rename_i base index n hnode hroot
    cases hnode
    exact .pure fun s hs => hs.imp fun r hr => ⟨hr, .element index span (rooted_of_root? hroot)⟩
  · exact .throw

theorem simple_parses {expr : Reader Expr}
    (hends : ∀ {edge rest}, Stops edge rest → ends edge rest)
    (h : Parses bound expr (Whole ends .or)) : Parses bound (simple expr) (Node ends) := by
  intro start
  apply h.then (fun r hr => hr)
  intro e v
  apply take_then
  · intro _ x
    apply target_reads.bind
    intro place
    apply h.then (by grind)
    intro value w
    apply reads_pure
    rintro r ⟨⟨⟨⟨-, hw⟩, hx, -⟩, hplace⟩, hw'⟩
    simpa using Node.assign hw hx hplace hw'
  · apply reads_pure
    rintro r ⟨⟨-, hw⟩, hr⟩
    refine .expr hw (hends ?_)
    rintro y ys rfl hy
    exact hr (congrArg some hy)

theorem function_reads {block : Reader Block} (h : Parses bound block (Braced ends))
    (start : State) :
    Reads (At start [] fun r => r.length ≤ bound ∧
        some (.keyword .functionKw) = r.head?.map (·.token))
      (plain.function turns block)
      fun decl s => ∃ used, At start used (Node ends used (.function decl)) s := by
  apply nextSpan_then
  intro first
  apply advance_then fun r hr => ne_nil_of_head hr.1.2
  intro x
  apply (name_parses bound).then (by grind)
  intro n v
  apply expect_then
  intro _ o
  apply (parameters_parses bound).then (by grind)
  intro params names
  apply expect_then
  intro _ c
  apply h.then (by grind)
  intro body used
  apply spanFrom_then
  intro span
  apply reads_pure
  rintro r ⟨⟨⟨⟨⟨⟨⟨⟨-, hx⟩, hfirst⟩, n, text, rfl, hn, rfl⟩, ho, -⟩, hnames⟩, hc, -⟩, hbody⟩, hspan⟩
  obtain rfl := hfirst x _ rfl
  obtain rfl : span = spanOver x (n :: o :: (names ++ c :: used)) :=
    eq_spanOver [] (by simp) hspan
  simpa using Node.function (token_of_head hx) hn ho hnames hc hbody

theorem otherwise_parses {node : Reader StmtNode} {block : Reader Block}
    (hends : ∀ {edge rest}, Stops edge rest → ends edge rest)
    (hn : Parses (bound - 1) node (Node ends)) (hb : Parses bound block (Braced ends)) :
    Parses bound (plain.otherwise node block) (Otherwise ends) := by
  intro start
  apply take_then
  · intro _ x
    apply nextIs_then
    rintro (_ | _)
    · apply hb.then
      · rintro r ⟨⟨hr, -⟩, -⟩
        simp only [List.length_cons] at hr
        omega
      intro body v
      apply reads_pure
      rintro r ⟨⟨⟨-, hx, -⟩, -⟩, hbody⟩
      exact .block hx hbody
    · apply nextSpan_then
      intro first
      apply hn.then (by grind)
      intro n v
      apply spanFrom_then
      intro span
      apply reads_pure
      rintro r ⟨⟨⟨⟨⟨-, hx, -⟩, hif⟩, hfirst⟩, hnode⟩, hspan⟩
      obtain ⟨y, ys, rfl, -⟩ := hnode.head
      obtain rfl := hfirst y _ rfl
      obtain rfl : span = spanOver y ys := eq_spanOver [x] rfl hspan
      exact .cond hx (by simpa using hif) hnode
  · apply reads_pure
    rintro r ⟨-, hr⟩
    refine .none (hends ?_)
    rintro y ys rfl hy
    exact hr (congrArg some hy)

/-- Loops start with a word and an expression before the block. -/
theorem headed_reads {expr : Reader Expr} {block : Reader Block} {t : Token}
    {make : Expr → Block → StmtNode} (he : Parses bound expr (Whole ends .or))
    (hb : Parses bound block (Braced ends))
    (hmake : ∀ {x used e others body rest}, x.token = t → Whole ends .or used e (others ++ rest) →
      Braced ends others body rest → Node ends (x :: (used ++ others)) (make e body) rest)
    (start : State) :
    Reads (At start [] fun r => r.length ≤ bound ∧ some t = r.head?.map (·.token))
      (do
        advance
        let e ← expr
        return make e (← block))
      fun n s => ∃ used, At start used (Node ends used n) s := by
  apply advance_then fun r hr => ne_nil_of_head hr.2
  intro x
  apply he.then (by grind)
  intro e v
  apply hb.then (by grind)
  intro body w
  apply reads_pure
  rintro r ⟨⟨⟨-, hx⟩, he⟩, hbody⟩
  simpa using hmake (token_of_head hx) he hbody

/-! ## Statements -/

theorem nodeWithin_parses (hends : ∀ {edge rest}, Stops edge rest → ends edge rest) (bound : Nat) :
    Parses (bound - 1) (plain.nodeWithin bound) (Node ends) := by
  induction bound with
  | zero => exact fun _ => .expected
  | succ bound ih =>
    have hexpr : Parses bound (exprWithin (bound + 1)) (Whole ends .or) :=
      exprWithin_parses hends (bound + 1)
    have hblock : Parses bound (plain.block bound (plain.stmtOf (plain.nodeWithin bound)))
        (Braced ends) :=
      block_parses (stmtOf_parses hends ih)
    have hsimple := simple_parses hends hexpr
    have hrest : ∀ {start : State} {t : Option Token}, Reads (At start [] fun r =>
        r.length ≤ bound ∧ t = r.head?.map (·.token)) (simple (exprWithin (bound + 1)))
        fun n s => ∃ u, At start u (Node ends u n) s := fun {start _} =>
      (hsimple start).weaken fun s hs => hs.imp fun r hr => hr.1
    intro start
    simp only [Mode.nodeWithin, Mode.nodeFrom, plain_look]
    apply peek_then
    rintro (_ | t)
    · exact hrest
    cases t with
    | keyword word =>
      cases word with
      | functionKw =>
        refine (function_reads hblock start).bind fun decl => ?_
        exact .pure fun s hs => hs
      | ifKw =>
        apply advance_then fun r hr => ne_nil_of_head hr.2
        intro x
        apply hexpr.then (by grind)
        intro test v
        apply hblock.then (by grind)
        intro yes w
        apply (otherwise_parses hends ih hblock).then (by grind)
        intro no o
        apply reads_pure
        rintro r ⟨⟨⟨⟨-, hx⟩, htest⟩, hyes⟩, hno⟩
        simpa using Node.cond (token_of_head hx) (by simpa using htest) hyes hno
      | whileKw => exact headed_reads hexpr hblock .loop start
      | forKw =>
        apply advance_then fun r hr => ne_nil_of_head hr.2
        intro x
        apply (name_parses bound).then (by grind)
        intro item u
        apply expect_then
        intro _ i
        apply hexpr.then (by grind)
        intro items v
        apply hblock.then (by grind)
        intro body w
        apply reads_pure
        rintro r ⟨⟨⟨⟨⟨-, hx⟩, n, text, rfl, hn, rfl⟩, hi, -⟩, hitems⟩, hbody⟩
        simpa using Node.each (token_of_head hx) hn hi hitems hbody
      | repeatKw => exact headed_reads hexpr hblock .times start
      | returnKw =>
        apply advance_then fun r hr => ne_nil_of_head hr.2
        intro x
        apply peek_then
        intro o
        split
        · apply hexpr.then (by grind)
          intro value v
          apply reads_pure
          rintro r ⟨⟨⟨-, hx⟩, -⟩, hvalue⟩
          exact .return (token_of_head hx) hvalue
        · rename_i ho
          apply reads_pure
          rintro r ⟨⟨-, hx⟩, rfl⟩
          refine .leave (token_of_head hx) (hends ?_)
          rintro y ys rfl hy
          exact ho hy
      | stopKw =>
        apply advance_then fun r hr => ne_nil_of_head hr.2
        intro x
        apply reads_pure
        rintro r ⟨-, hx⟩
        exact .stop (token_of_head hx)
      | nextKw =>
        apply advance_then fun r hr => ne_nil_of_head hr.2
        intro x
        apply reads_pure
        rintro r ⟨-, hx⟩
        exact .next (token_of_head hx)
      | _ => exact hrest
    | _ => exact hrest

/-! ## Programs -/

theorem program_items (hends : ∀ {edge rest}, Stops edge rest → ends edge rest) {atEnd : Span}
    {lexemes : List Lexeme} {p : Program} {t : State}
    (h : program (.initial atEnd lexemes) = .ok p t) (ht : t.Clean) :
    Items ends lexemes p.statements [] := by
  have hstmt : Parses lexemes.length (plain.stmtOf (plain.nodeWithin (lexemes.length + 1)))
      (Sentence ends) :=
    stmtOf_parses hends (nodeWithin_parses hends (lexemes.length + 1))
  have hp : Reads (At (.initial atEnd lexemes) [] fun r => r.length ≤ lexemes.length)
      (plain.itemsUntil (fun _ => false) (plain.stmtOf (plain.nodeWithin (lexemes.length + 1)))
        lexemes.length >>= fun stmts => pure (⟨stmts⟩ : Program))
      fun p s => ∃ used, At (.initial atEnd lexemes) used
        (fun r => Items ends used p.statements r ∧ r = []) s := by
    apply (itemsUntil_parses hstmt le_rfl le_rfl).then (fun r hr => hr)
    intro stmts v
    apply reads_pure
    rintro r ⟨-, hitems, hstop⟩
    refine ⟨hitems, ?_⟩
    rcases r with _ | ⟨x, xs⟩
    · rfl
    · exact absurd (hstop x xs rfl) (by simp)
  obtain ⟨-, hat⟩ := hp.ok rfl (fun _ => ⟨rfl, rfl, le_rfl⟩) h
  obtain ⟨used, hused⟩ := hat ht
  obtain ⟨hitems, hnil⟩ := hused.holds
  have hsplit : lexemes = used ++ t.ahead := hused.split
  rw [hnil, List.append_nil] at hsplit
  rw [hsplit, ← hnil]
  exact hitems

end Quill.Reader

namespace Quill

open Grammar Reader

theorem parseLexemes_items {ends : Edge → List Lexeme → Prop}
    (hends : ∀ {edge rest}, Stops edge rest → ends edge rest) {atEnd : Span}
    {lexemes : List Lexeme} {p : Program} (h : parseLexemes atEnd lexemes = .ok p) :
    Items ends lexemes p.statements [] := by
  unfold parseLexemes at h
  split at h
  · rename_i p' t hp
    split at h
    · cases h
    · rename_i hc
      cases h
      exact program_items hends hp (by simpa [Reporter.hasErrors, State.Clean] using hc)
  · cases h

end Quill
