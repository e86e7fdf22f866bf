-- Statements are read as the grammar derives them, as their expressions
-- are. So reading and derivation are the same.
import Quill.Proofs.ExprCompleteness
import Quill.Proofs.ProgramSoundness

namespace Quill.Reader

open Grammar

/-! ## Parts of statements -/

section Statements

variable {bound turns : Nat} {used rest : List Lexeme} {x : Lexeme}

theorem name_takes {what text : String} (hx : x.token = .ident text) :
    Takes (name what) [x] ⟨text, x.span⟩ rest := by
  apply takes_peek
  rw [head_token hx]
  exact takes_nextSpan (takes_advance takes_pure)

theorem names_takes {what : String} {ps : List Name} (h : Names used ps) (hp : ps ≠ [])
    (ht : used.length ≤ turns) (hr : rest.head?.map (·.token) ≠ some (.symbol .comma)) :
    Takes (separated (name what) turns) used ps rest := by
  induction h generalizing turns with
  | none => exact absurd rfl hp
  | one hx => exact separated_one (name_takes hx) hr
  | more hx hc _ ih =>
    obtain ⟨turns, rfl⟩ : ∃ k, turns = k + 1 := ⟨turns - 1, by
      simp only [List.length_cons] at ht
      omega⟩
    simp only [List.length_cons] at ht
    exact separated_more (name_takes hx) hc (ih (by simp) (by omega))

theorem parameters_takes {ps : List Name} (h : Names used ps) (ht : used.length ≤ turns)
    (hx : x.token = .symbol .rparen) : Takes (parameters turns) used ps (x :: rest) := by
  apply takes_nextIs
  cases h with
  | none =>
    simp only [List.nil_append, List.head?_cons, Option.map_some, hx, decide_true, if_true]
    exact takes_pure
  | one hn =>
    rw [head_token hn]
    exact names_takes (.one hn) (by simp) ht (by simp [hx])
  | more hn hc hs =>
    rw [head_token hn]
    exact names_takes (.more hn hc hs) (by simp) ht (by simp [hx])

theorem root?_of_rooted {e : Expr} (h : Rooted e) : e.root?.isSome = true := by
  induction h with
  | name => rfl
  | element _ _ _ ih => simpa [Expr.root?] using ih

theorem target_takes {e : Expr} {place : Target} (h : Place e place) :
    Takes (target e) [] place rest := by
  cases h with
  | name => exact takes_pure
  | element index span hr =>
    obtain ⟨n, hn⟩ := Option.isSome_iff_exists.mp (root?_of_rooted hr)
    simp only [target, Expr.root?, hn]
    exact takes_pure

theorem recovering_takes {α : Type} {item : Reader α} {a : α} (h : Takes item used a rest) :
    Takes (recovering item) used (some a) rest := by
  intro s hs
  unfold recovering
  rw [h s hs]

theorem skipSemicolons_takes (h : rest.head?.map (·.token) ≠ some (.symbol .semi)) :
    Takes skipSemicolons [] () rest := by
  intro s hs
  rw [List.nil_append] at hs
  unfold skipSemicolons
  rw [hs]
  rcases rest with _ | ⟨x, xs⟩
  · rfl
  · unfold dropSemicolons
    rw [if_neg fun hx => h (congrArg some hx)]
    rfl

/-- A stray semicolon is skipped. -/
theorem itemsUntil_semi {stops : Token → Bool} {item : Reader Stmt} {stmts : List Stmt}
    (hx : x.token = .symbol .semi)
    (h : Takes (plain.itemsUntil stops item (turns + 1)) used stmts rest) :
    Takes (plain.itemsUntil stops item (turns + 1)) (x :: used) stmts rest := by
  intro s hs
  have hskip : skipSemicolons s = skipSemicolons (s.passed [x] (used ++ rest)) := by
    have hdrop : dropSemicolons s.last (x :: (used ++ rest)) =
        dropSemicolons (some x.span) (used ++ rest) := by
      rw [dropSemicolons, if_pos hx]
    unfold skipSemicolons
    rw [hs, List.cons_append, hdrop]
    rfl
  have hstep : plain.itemsUntil stops item (turns + 1) s =
      plain.itemsUntil stops item (turns + 1) (s.passed [x] (used ++ rest)) := by
    simp only [Mode.itemsUntil, plain_look]
    show EStateM.bind _ _ _ = EStateM.bind _ _ _
    unfold EStateM.bind
    rw [hskip]
  rw [hstep, h _ rfl, State.passed_passed]
  rfl

/-- The items end before the end of the text and before what stops them. -/
theorem itemsUntil_nil {stops : Token → Bool} {item : Reader Stmt}
    (hr : ∀ y ys, rest = y :: ys → stops y.token = true ∧ y.token ≠ .symbol .semi) :
    Takes (plain.itemsUntil stops item turns) [] [] rest := by
  cases turns with
  | zero => exact takes_pure
  | succ turns =>
    rcases rest with _ | ⟨y, ys⟩
    · exact Takes.bind (skipSemicolons_takes (by simp)) (takes_peek takes_pure)
    · obtain ⟨hstop, hsemi⟩ := hr y ys rfl
      apply Takes.bind (skipSemicolons_takes (by simpa using hsemi))
      apply takes_peek
      simp only [List.nil_append, List.head?_cons, Option.map_some, hstop, if_true]
      exact takes_pure

theorem itemsUntil_cons {stops : Token → Bool} {item : Reader Stmt} {stmt : Stmt}
    {stmts : List Stmt} {others : List Lexeme} (hu : ∃ x xs, used = x :: xs ∧
      x.token ≠ .symbol .semi ∧ stops x.token = false)
    (hitem : Takes item used stmt (others ++ rest))
    (h : Takes (plain.itemsUntil stops item turns) others stmts rest) :
    Takes (plain.itemsUntil stops item (turns + 1)) (used ++ others) (stmt :: stmts) rest := by
  obtain ⟨x, xs, rfl, hsemi, hstop⟩ := hu
  rw [← List.nil_append (x :: xs ++ others)]
  apply Takes.bind (skipSemicolons_takes (by simpa using hsemi))
  apply takes_peek
  simp only [List.cons_append, List.head?_cons, Option.map_some, hstop, Bool.false_eq_true,
    if_false]
  exact Takes.bind (recovering_takes hitem) (h.bindLast takes_pure)

end Statements

end Quill.Reader

namespace Quill.Grammar

open Reader

theorem spanOver_append (x y : Lexeme) (before ys : List Lexeme) :
    spanOver x (before ++ y :: ys) = x.span.merge ((ys.getLast?).getD y).span := by
  simp [spanOver, List.getLast?_append, List.getLast?_cons]

/-- No statement begins with a token that closes a block or with a
semicolon. -/
theorem Sentence.head_ne {ends : Edge → List Lexeme → Prop} {used stmt rest}
    (h : Sentence ends used stmt rest) :
    ∃ x xs, used = x :: xs ∧ x.token ≠ .symbol .semi ∧ x.token ≠ .symbol .rbrace := by
  obtain ⟨x, xs, rfl, hx⟩ := h.head
  refine ⟨x, xs, rfl, ?_, ?_⟩
  all_goals
    intro ht
    rw [ht] at hx
    rcases hx with hx | hx <;> cases hx

theorem Braced.head {ends : Edge → List Lexeme → Prop} {used block rest}
    (h : Braced ends used block rest) :
    ∃ x xs, used = x :: xs ∧ x.token = .symbol .lbrace := by
  cases h with
  | intro hx _ _ => exact ⟨_, _, rfl, hx⟩

end Quill.Grammar

namespace Quill.Reader

open Grammar

/-! ## Statements -/

section Statements

variable {bound turns : Nat} {used others rest : List Lexeme} {x y : Lexeme}

theorem block_takes {stmt : Reader Stmt} {stmts : List Stmt} (hx : x.token = .symbol .lbrace)
    (h : Takes (plain.itemsUntil (· = .symbol .rbrace) stmt turns) used stmts (y :: rest))
    (hy : y.token = .symbol .rbrace) :
    Takes (plain.block turns stmt) (x :: (used ++ [y])) ⟨stmts, x.span.merge y.span⟩ rest :=
  takes_expect hx (Takes.bind h (takes_expect hy takes_pure))

theorem head_ne_of_stops {edge : Edge} {t : Token} (hs : Stops edge rest) (ht : edge.GoesOn t) :
    rest.head?.map (·.token) ≠ some t := by
  rcases rest with _ | ⟨x, xs⟩
  · simp
  · rintro hx
    cases hx
    exact stops_cons.mp hs ht

theorem stmtOf_bare {node : Reader StmtNode} {n : StmtNode} (h : Takes node (x :: used) n rest)
    (hs : Stops .statement rest) :
    Takes (plain.stmtOf node) (x :: used) ⟨n, spanOver x used⟩ rest := by
  apply takes_nextSpan
  rw [← List.append_nil (x :: used)]
  apply takes_spanFrom h
  apply takes_take_none
  · exact head_ne_of_stops hs rfl
  · exact takes_pure

theorem stmtOf_closed {node : Reader StmtNode} {n : StmtNode}
    (h : Takes node (x :: used) n (y :: rest)) (hy : y.token = .symbol .semi) :
    Takes (plain.stmtOf node) (x :: (used ++ [y])) ⟨n, spanOver x used⟩ rest := by
  apply takes_nextSpan
  exact takes_spanFrom h (takes_take hy takes_pure)

theorem simple_expr {expr : Reader Expr} {e : Expr} (h : Takes expr used e rest)
    (hs : Stops .place rest) : Takes (simple expr) used (.expr e) rest := by
  apply h.bindLast
  apply takes_take_none
  · exact head_ne_of_stops hs rfl
  · exact takes_pure

theorem simple_assign {expr : Reader Expr} {e value : Expr} {place : Target}
    (h : Takes expr used e (x :: (others ++ rest))) (hx : x.token = .symbol .arrow)
    (hp : Place e place) (hv : Takes expr others value rest) :
    Takes (simple expr) (used ++ x :: others) (.assign place value) rest := by
  apply Takes.bind h
  apply takes_take hx
  exact Takes.bind (target_takes hp) (hv.bindLast takes_pure)

/-- What begins like an expression is an expression or an assignment. -/
theorem nodeWithin_simple {n : StmtNode} (hu : ∃ x xs, used = x :: xs ∧ Starts .or x.token)
    (h : Takes (simple (exprWithin (bound + 1))) used n rest) :
    Takes (plain.nodeWithin (bound + 1)) used n rest := by
  obtain ⟨x, xs, rfl, hx⟩ := hu
  have ht := hx.expression
  simp only [Mode.nodeWithin, Mode.nodeFrom, plain_look]
  apply takes_peek
  rw [head_token rfl]
  generalize x.token = t at ht
  cases t with
  | keyword word => cases word <;> first | exact h | cases ht
  | _ => exact h

theorem otherwise_none {node : Reader StmtNode} {block : Reader Block} (hs : Stops .branch rest) :
    Takes (plain.otherwise node block) [] none rest := by
  apply takes_take_none
  · exact head_ne_of_stops hs rfl
  · exact takes_pure

theorem otherwise_cond {node : Reader StmtNode} {block : Reader Block} {n : StmtNode}
    (hx : x.token = .keyword .elseKw) (hy : y.token = .keyword .ifKw)
    (h : Takes node (y :: used) n rest) :
    Takes (plain.otherwise node block) (x :: y :: used)
      (some ⟨[⟨n, spanOver y used⟩], spanOver y used⟩) rest := by
  apply takes_take hx
  apply takes_nextIs
  rw [head_token hy]
  simp only [decide_true, if_true]
  apply takes_nextSpan
  rw [← List.append_nil (y :: used)]
  exact takes_spanFrom h takes_pure

theorem otherwise_block {node : Reader StmtNode} {block : Reader Block} {b : Block}
    (hx : x.token = .keyword .elseKw) (hu : ∃ x xs, used = x :: xs ∧ x.token = .symbol .lbrace)
    (h : Takes block used b rest) :
    Takes (plain.otherwise node block) (x :: used) (some b) rest := by
  apply takes_take hx
  apply takes_nextIs
  obtain ⟨y, ys, rfl, hy⟩ := hu
  rw [head_token hy]
  exact h.bindLast takes_pure

theorem function_takes {block : Reader Block} {n o c : Lexeme} {text : String}
    {names : List Lexeme} {params : List Name} {body : Block} (hn : n.token = .ident text)
    (ho : o.token = .symbol .lparen) (hnames : Names names params) (ht : names.length ≤ turns)
    (hc : c.token = .symbol .rparen) (hu : ∃ x xs, used = x :: xs ∧ x.token = .symbol .lbrace)
    (hbody : Takes block used body rest) :
    Takes (plain.function turns block) (x :: n :: o :: (names ++ c :: used))
      ⟨⟨text, n.span⟩, params, body, spanOver x (n :: o :: (names ++ c :: used))⟩ rest := by
  obtain ⟨y, ys, rfl, -⟩ := hu
  have hspan : spanOver x (n :: o :: (names ++ c :: (y :: ys))) =
      x.span.merge ((ys.getLast?).getD y).span := by
    rw [← spanOver_append x y (n :: o :: (names ++ [c])) ys]
    simp
  rw [hspan]
  apply takes_nextSpan
  apply takes_advance
  apply Takes.bind (name_takes hn)
  apply takes_expect ho
  apply Takes.bind (parameters_takes hnames ht hc)
  apply takes_expect hc
  rw [← List.append_nil (y :: ys)]
  exact takes_spanFrom hbody takes_pure

end Statements

end Quill.Reader

namespace Quill.Grammar

open Reader

mutual

theorem Node.takes {used node rest} :
    Node Stops used node rest → ∀ bound, used.length ≤ bound →
      Takes (plain.nodeWithin (bound + 1)) used node rest
  | .function hx hn ho hnames hc hbody, bound, hlen => by
    simp only [List.length_cons, List.length_append] at hlen
    simp only [Mode.nodeWithin, Mode.nodeFrom, plain_look]
    apply takes_peek
    rw [head_token hx]
    exact (function_takes hn ho hnames (by omega) hc hbody.head
      (hbody.takes bound (by omega))).bindLast takes_pure
  | .cond hx htest hyes hno, bound, hlen => by
    simp only [List.length_cons, List.length_append] at hlen
    simp only [Mode.nodeWithin, Mode.nodeFrom, plain_look]
    apply takes_peek
    rw [head_token hx]
    apply takes_advance
    rw [List.append_assoc]
    apply Takes.bind (by simpa using htest.within (by omega))
    apply Takes.bind (hyes.takes bound (by omega))
    exact (hno.takes bound (by omega)).bindLast takes_pure
  | .loop hx htest hbody, bound, hlen => by
    simp only [List.length_cons, List.length_append] at hlen
    simp only [Mode.nodeWithin, Mode.nodeFrom, plain_look]
    apply takes_peek
    rw [head_token hx]
    apply takes_advance
    apply Takes.bind (htest.within (by omega))
    exact (hbody.takes bound (by omega)).bindLast takes_pure
  | .each hx hn hi hitems hbody, bound, hlen => by
    simp only [List.length_cons, List.length_append] at hlen
    simp only [Mode.nodeWithin, Mode.nodeFrom, plain_look]
    apply takes_peek
    rw [head_token hx]
    apply takes_advance
    apply Takes.bind (name_takes hn)
    apply takes_expect hi
    apply Takes.bind (hitems.within (by omega))
    exact (hbody.takes bound (by omega)).bindLast takes_pure
  | .times hx hcount hbody, bound, hlen => by
    simp only [List.length_cons, List.length_append] at hlen
    simp only [Mode.nodeWithin, Mode.nodeFrom, plain_look]
    apply takes_peek
    rw [head_token hx]
    apply takes_advance
    apply Takes.bind (hcount.within (by omega))
    exact (hbody.takes bound (by omega)).bindLast takes_pure
  | .leave hx hs, bound, _ => by
    simp only [Mode.nodeWithin, Mode.nodeFrom, plain_look]
    apply takes_peek
    rw [head_token hx]
    apply takes_advance
    apply takes_peek
    rw [if_neg]
    · exact takes_pure
    · rcases rest with _ | ⟨y, ys⟩
      · simp
      · exact stops_cons.mp hs
  | .return hx he, bound, hlen => by
    rw [List.length_cons] at hlen
    simp only [Mode.nodeWithin, Mode.nodeFrom, plain_look]
    apply takes_peek
    rw [head_token hx]
    apply takes_advance
    apply takes_peek
    obtain ⟨y, ys, rfl, hy⟩ := he.head
    rw [head_token rfl]
    simp only [Option.any_some, hy.expression, if_true]
    exact (he.within (by omega)).bindLast takes_pure
  | .stop hx, bound, _ => by
    simp only [Mode.nodeWithin, Mode.nodeFrom, plain_look]
    apply takes_peek
    rw [head_token hx]
    exact takes_advance takes_pure
  | .next hx, bound, _ => by
    simp only [Mode.nodeWithin, Mode.nodeFrom, plain_look]
    apply takes_peek
    rw [head_token hx]
    exact takes_advance takes_pure
  | .expr he hs, bound, hlen =>
    nodeWithin_simple he.head (simple_expr (he.within (by omega)) hs)
  | .assign he hx hp hv, bound, hlen => by
    rw [List.length_append, List.length_cons] at hlen
    obtain ⟨y, ys, rfl, hy⟩ := he.head
    exact nodeWithin_simple ⟨y, _, rfl, hy⟩
      (simple_assign (he.within (by omega)) hx hp (hv.within (by omega)))

theorem Otherwise.takes {used no rest} :
    Otherwise Stops used no rest → ∀ bound, used.length ≤ bound →
      Takes (plain.otherwise (plain.nodeWithin bound)
        (plain.block bound (plain.stmtOf (plain.nodeWithin bound)))) used no rest
  | .none hs, _, _ => otherwise_none hs
  | .cond hx hy hn, 0, hlen => by cases hlen
  | .cond hx hy hn, bound + 1, hlen => by
    rw [List.length_cons] at hlen
    exact otherwise_cond hx hy (hn.takes bound (by omega))
  | .block hx hb, bound, hlen => by
    rw [List.length_cons] at hlen
    exact otherwise_block hx hb.head (hb.takes bound (by omega))

theorem Sentence.takes {used stmt rest} :
    Sentence Stops used stmt rest → ∀ bound, used.length ≤ bound →
      Takes (plain.stmtOf (plain.nodeWithin (bound + 1))) used stmt rest
  | .bare hn hs, bound, hlen => stmtOf_bare (hn.takes bound hlen) hs
  | .closed hn hy, bound, hlen => by
    simp only [List.length_cons, List.length_append] at hlen
    exact stmtOf_closed (hn.takes bound (by rw [List.length_cons]; omega)) hy

theorem Items.takes {used stmts rest} :
    Items Stops used stmts rest → ∀ bound turns (stops : Token → Bool), used.length ≤ bound →
      used.length ≤ turns → (∀ t, stops t = true → t = .symbol .rbrace) →
      (∀ y ys, rest = y :: ys → stops y.token = true ∧ y.token ≠ .symbol .semi) →
      Takes (plain.itemsUntil stops (plain.stmtOf (plain.nodeWithin (bound + 1))) turns) used stmts
        rest
  | .nil, _, _, _, _, _, _, hr => itemsUntil_nil hr
  | .semi hx h, bound, 0, _, _, ht, _, _ => by cases ht
  | .semi hx h, bound, turns + 1, stops, hb, ht, hstops, hr => by
    rw [List.length_cons] at hb ht
    exact itemsUntil_semi hx (h.takes bound (turns + 1) stops (by omega) (by omega) hstops hr)
  | .cons hs h, bound, 0, _, _, ht, _, _ => by
    obtain ⟨x, xs, rfl, -⟩ := hs.head_ne
    cases ht
  | .cons hs h, bound, turns + 1, stops, hb, ht, hstops, hr => by
    obtain ⟨x, xs, rfl, hsemi, hbrace⟩ := hs.head_ne
    simp only [List.length_append, List.length_cons] at hb ht
    refine itemsUntil_cons ⟨x, xs, rfl, hsemi, ?_⟩
      (hs.takes bound (by rw [List.length_cons]; omega))
      (h.takes bound turns stops (by omega) (by omega) hstops hr)
    rw [← Bool.not_eq_true]
    exact fun hx => hbrace (hstops _ hx)

theorem Braced.takes {used block rest} :
    Braced Stops used block rest → ∀ bound, used.length ≤ bound →
      Takes (plain.block bound (plain.stmtOf (plain.nodeWithin bound))) used block rest
  | .intro hx h hy, 0, hlen => by cases hlen
  | .intro hx h hy, bound + 1, hlen => by
    simp only [List.length_cons, List.length_append] at hlen
    refine block_takes hx (h.takes bound (bound + 1) _ (by omega) (by omega) ?_ ?_) hy
    · exact fun t ht => of_decide_eq_true ht
    · rintro z zs hz
      cases hz
      simp [hy]

end

end Quill.Grammar

namespace Quill

open Grammar Reader

/-- A derivation in which no phrase ends early is what is read. -/
theorem parseLexemes_of_items {atEnd : Span} {lexemes : List Lexeme} {stmts : List Stmt}
    (h : Items Stops lexemes stmts []) : parseLexemes atEnd lexemes = .ok ⟨stmts⟩ := by
  have htakes := h.takes lexemes.length lexemes.length (fun _ => false) le_rfl le_rfl (by simp)
    (by simp)
  have hprogram : program (.initial atEnd lexemes) =
      .ok ⟨stmts⟩ ((State.initial atEnd lexemes).passed lexemes []) :=
    htakes.bind_eq (by simp [State.initial])
  unfold parseLexemes
  rw [hprogram]
  rfl

/-- Reading gives a program exactly if it is derived without phrases that
end early. -/
theorem parseLexemes_eq_ok_iff (atEnd : Span) {lexemes : List Lexeme} {p : Program} :
    parseLexemes atEnd lexemes = .ok p ↔ Items Stops lexemes p.statements [] :=
  ⟨parseLexemes_items id, parseLexemes_of_items⟩

end Quill
