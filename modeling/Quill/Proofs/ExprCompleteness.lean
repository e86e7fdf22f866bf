-- The grammar tells all that is read. If no phrase of a derivation ends
-- before it must, then the reader of the phrase reads exactly its lexemes
-- and gives its tree, whatever else it knows.
import Quill.Proofs.ExprSoundness

namespace Quill.Reader

open Grammar

/-! ## Readers that take their lexemes -/

section Takes

variable {α β : Type} {m : Reader α} {f : α → Reader β} {a : α} {y : β}
  {x : Lexeme} {used others rest : List Lexeme}

/-- From any state where `used` and then `rest` is ahead, the reader reads
`used` and gives `a`. -/
def Takes (m : Reader α) (used : List Lexeme) (a : α) (rest : List Lexeme) : Prop :=
  ∀ s : State, s.ahead = used ++ rest → m s = .ok a (s.passed used rest)

theorem bind_eq {s t : State} (h : m s = .ok a t) : (m >>= f) s = f a t := by
  show EStateM.bind m f s = f a t
  rw [EStateM.bind, h]

theorem takes_pure : Takes (pure a) [] a rest := by
  intro s hs
  rw [List.nil_append] at hs
  subst hs
  rw [State.passed_nil]
  rfl

theorem Takes.bind_eq (hm : Takes m used a rest) {s : State} (hs : s.ahead = used ++ rest) :
    (m >>= f) s = f a (s.passed used rest) := Reader.bind_eq (hm s hs)

theorem Takes.bind (hm : Takes m used a (others ++ rest)) (hf : Takes (f a) others y rest) :
    Takes (m >>= f) (used ++ others) y rest := by
  intro s hs
  rw [List.append_assoc] at hs
  rw [hm.bind_eq hs, hf _ rfl, State.passed_passed]

/-- A reader that takes all that is to be taken. -/
theorem Takes.bindLast (hm : Takes m used a rest) (hf : Takes (f a) [] y rest) :
    Takes (m >>= f) used y rest := by
  have := Takes.bind (show Takes m used a ([] ++ rest) from hm) hf
  rwa [List.append_nil] at this

theorem takes_peek {f : Option Token → Reader β}
    (h : Takes (f ((used ++ rest).head?.map (·.token))) used y rest) :
    Takes (peek? >>= f) used y rest := by
  intro s hs
  rw [← h s hs, ← hs]
  rfl

theorem takes_nextSpan {f : Span → Reader β} (h : Takes (f x.span) (x :: used) y rest) :
    Takes (nextSpan >>= f) (x :: used) y rest := by
  intro s hs
  have hx : nextSpan s = .ok x.span s := by
    unfold nextSpan
    rw [hs]
    rfl
  rw [bind_eq hx]
  exact h s hs

theorem advance_takes : Takes advance [x] () rest := by
  intro s hs
  unfold advance
  rw [State.advance_eq hs]
  rfl

theorem takes_advance {f : Unit → Reader β} (h : Takes (f ()) used y rest) :
    Takes (advance >>= f) (x :: used) y rest := advance_takes.bind h

theorem takes_nextIs {t : Token} {f : Bool → Reader β}
    (h : Takes (f (decide ((used ++ rest).head?.map (·.token) = some t))) used y rest) :
    Takes (nextIs t >>= f) used y rest := by
  unfold nextIs
  rw [bind_assoc]
  exact takes_peek h

theorem takes_take {t : Token} {f : Option Span → Reader β} (hx : x.token = t)
    (h : Takes (f (some x.span)) used y rest) : Takes (take? t >>= f) (x :: used) y rest := by
  unfold take?
  rw [bind_assoc]
  apply takes_nextIs
  simp only [List.cons_append, List.head?_cons, Option.map_some, hx, decide_true, if_true,
    bind_assoc, pure_bind]
  exact takes_nextSpan (takes_advance h)

theorem takes_take_none {t : Token} {f : Option Span → Reader β}
    (hx : (used ++ rest).head?.map (·.token) ≠ some t) (h : Takes (f none) used y rest) :
    Takes (take? t >>= f) used y rest := by
  unfold take?
  rw [bind_assoc]
  apply takes_nextIs
  simpa only [hx, decide_false, Bool.false_eq_true, if_false, pure_bind] using h

theorem expect_takes {t : Token} (hx : x.token = t) : Takes (expect t) [x] x.span rest :=
  takes_take hx takes_pure

theorem takes_expect {t : Token} {f : Span → Reader β} (hx : x.token = t)
    (h : Takes (f x.span) used y rest) : Takes (expect t >>= f) (x :: used) y rest :=
  (expect_takes hx).bind h

theorem takes_spanFrom {f : α → Span → Reader β} {first : Span}
    (hm : Takes m (x :: used) a (others ++ rest))
    (hf : Takes (f a (first.merge ((used.getLast?).getD x).span)) others y rest) :
    Takes (m >>= fun a => spanFrom first >>= f a) (x :: used ++ others) y rest := by
  intro s hs
  rw [List.append_assoc] at hs
  rw [bind_eq (hm s hs)]
  have hspan : spanFrom first (s.passed (x :: used) (others ++ rest)) =
      .ok (first.merge ((used.getLast?).getD x).span) (s.passed (x :: used) (others ++ rest)) := by
    have hl : lastSpan (s.passed (x :: used) (others ++ rest)) =
        .ok ((used.getLast?).getD x).span (s.passed (x :: used) (others ++ rest)) := by
      simp [lastSpan, State.passed, List.getLast?_cons]
    exact bind_eq hl
  rw [bind_eq hspan, hf _ rfl, State.passed_passed]

end Takes

/-! ## Lists with commas -/

section Separated

variable {α : Type} {inner : Reader α} {a : α} {xs : List α} {turns : Nat}
  {x : Lexeme} {used others rest : List Lexeme}

theorem separated_one (h : Takes inner used a rest)
    (hr : rest.head?.map (·.token) ≠ some (.symbol .comma)) :
    Takes (separated inner turns) used [a] rest := by
  cases turns with
  | zero => exact h.bindLast takes_pure
  | succ turns =>
    apply h.bindLast
    apply takes_take_none
    · exact hr
    · exact takes_pure

theorem separated_more (h : Takes inner used a (x :: (others ++ rest)))
    (hx : x.token = .symbol .comma) (hl : Takes (separated inner turns) others xs rest) :
    Takes (separated inner (turns + 1)) (used ++ x :: others) (a :: xs) rest :=
  Takes.bind h (takes_take hx (hl.bindLast takes_pure))

end Separated

/-! ## Levels -/

/-- The reader of a level whose own loop has `turns` turns, where at most
`bound` lexemes are ahead. -/
def levelWith (turns bound : Nat) : Level → Reader Expr
  | .or => leftLevel turns (andLevel bound (exprWithin bound)) orOp?
  | .and => leftLevel turns (notLevel bound (exprWithin bound)) andOp?
  | .not => unaryLevel turns (equalityLevel bound (exprWithin bound)) notOp?
  | .equality => leftLevel turns (orderLevel bound (exprWithin bound)) equalityOp?
  | .order => leftLevel turns (rangeLevel bound (exprWithin bound)) orderOp?
  | .range => rangeLevel bound (exprWithin bound)
  | .bitOr => leftLevel turns (bitXorLevel bound (exprWithin bound)) bitOrOp?
  | .bitXor => leftLevel turns (bitAndLevel bound (exprWithin bound)) bitXorOp?
  | .bitAnd => leftLevel turns (sumLevel bound (exprWithin bound)) bitAndOp?
  | .sum => leftLevel turns (productLevel bound (exprWithin bound)) sumOp?
  | .product => leftLevel turns (signLevel bound (exprWithin bound)) productOp?
  | .sign => unaryLevel turns (suffixLevel bound (exprWithin bound)) signOp?
  | .suffix => do
    let e ← primary bound (exprWithin bound)
    suffixes (exprWithin bound) turns e

/-- How a level goes on after an expression. -/
def goOn (turns bound : Nat) : Level → Expr → Reader Expr
  | .suffix => suffixes (exprWithin bound) turns
  | level => operands (level.next?.elim (Reader.expected "") (levelWith bound bound))
      (binaryOp? level) turns

theorem levelWith_binary {level next : Level} {op : BinaryOp} (turns bound : Nat)
    (ho : op.level = level) (hn : level.next? = some next) :
    levelWith turns bound level =
      leftLevel turns (levelWith bound bound next) (binaryOp? level) := by
  subst ho
  cases op <;> cases hn <;> rfl

theorem levelWith_unary {level next : Level} {op : UnaryOp} (turns bound : Nat)
    (ho : op.level = level) (hn : level.next? = some next) :
    levelWith turns bound level =
      unaryLevel turns (levelWith bound bound next) (unaryOp? level) := by
  subst ho
  cases op <;> cases hn <;> rfl

theorem goOn_eq {level next : Level} (turns bound : Nat) (hn : level.next? = some next) :
    goOn turns bound level = operands (levelWith bound bound next) (binaryOp? level) turns := by
  cases level <;> cases hn <;> rfl

theorem level_kind {level next : Level} (hn : level.next? = some next) :
    (∃ op : BinaryOp, op.level = level) ∨ (∃ op : UnaryOp, op.level = level) ∨ level = .range := by
  cases level
  case or => exact .inl ⟨.or, rfl⟩
  case and => exact .inl ⟨.and, rfl⟩
  case not => exact .inr (.inl ⟨.not, rfl⟩)
  case equality => exact .inl ⟨.eq, rfl⟩
  case order => exact .inl ⟨.lt, rfl⟩
  case range => exact .inr (.inr rfl)
  case bitOr => exact .inl ⟨.bitOr, rfl⟩
  case bitXor => exact .inl ⟨.bitXor, rfl⟩
  case bitAnd => exact .inl ⟨.bitAnd, rfl⟩
  case sum => exact .inl ⟨.add, rfl⟩
  case product => exact .inl ⟨.mul, rfl⟩
  case sign => exact .inr (.inl ⟨.neg, rfl⟩)
  case suffix => cases hn

theorem operands_stops {m : Reader Expr} {level : Level} {turns : Nat} {e : Expr} {s : State}
    (hl : level ≠ .suffix) (h : Stops (.operand level e.isName) s.ahead) :
    operands m (binaryOp? level) turns e s = .ok e s := by
  cases turns with
  | zero => rfl
  | succ turns =>
    have hn := (stops_operand_iff hl).mp h
    unfold operands
    rw [bind_eq (m := peek?) rfl, hn]
    rfl

theorem suffixes_stops {inner : Reader Expr} {turns : Nat} {e : Expr} {s : State}
    (h : Stops (.operand .suffix e.isName) s.ahead) : suffixes inner turns e s = .ok e s := by
  cases turns with
  | zero => rfl
  | succ turns =>
    obtain ⟨node, span⟩ := e
    unfold suffixes
    rw [bind_eq (m := peek?) rfl]
    rcases hs : s.ahead with _ | ⟨x, xs⟩
    · rfl
    · rw [hs, stops_cons] at h
      simp only [List.head?_cons, Option.map_some]
      generalize x.token = t at h
      cases t with
      | symbol mark =>
        cases mark with
        | lbracket => exact absurd (.inl rfl) h
        | lparen =>
          cases node with
          | var name => exact absurd (.inr ⟨rfl, rfl⟩) h
          | _ => rfl
        | _ => rfl
      | _ => rfl

/-- An expression that stops is the whole of its level. -/
theorem goOn_stops {level : Level} {turns bound : Nat} {e : Expr} {s : State}
    (h : Stops (.operand level e.isName) s.ahead) : goOn turns bound level e s = .ok e s := by
  by_cases hl : level = .suffix
  · subst hl
    exact suffixes_stops h
  · unfold goOn
    split
    · exact absurd rfl hl
    · exact operands_stops hl h

/-! ## Expressions -/

/-- The reader of the level has read `used` into `e`, and goes on from
there with as many turns as it may still need. -/
def Begun (bound : Nat) (level : Level) (used : List Lexeme) (e : Expr) (rest : List Lexeme) :
    Prop :=
  ∀ turns, used.length ≤ turns → ∃ left, turns ≤ left + used.length ∧
    ∀ s : State, s.ahead = used ++ rest →
      levelWith turns bound level s = goOn left bound level e (s.passed used rest)

section Expressions

variable {bound : Nat} {level next : Level} {used rest : List Lexeme} {e : Expr}

theorem Begun.takes (h : Begun bound level used e rest) (hb : used.length ≤ bound)
    (hs : Stops (.operand level e.isName) rest) :
    Takes (levelWith bound bound level) used e rest := by
  obtain ⟨left, -, heq⟩ := h bound hb
  intro s hs'
  rw [heq s hs']
  exact goOn_stops hs

/-- A reader that takes the whole phrase is as good as one that has begun,
where nothing can follow. -/
theorem Begun.ofTakes (hl : level = .not ∨ level = .range ∨ level = .sign)
    (h : ∀ turns, used.length ≤ turns → Takes (levelWith turns bound level) used e rest) :
    Begun bound level used e rest := by
  intro turns ht
  refine ⟨turns, Nat.le_add_right _ _, fun s hs => ?_⟩
  rw [h turns ht s hs]
  exact (goOn_stops (stops_operand_of_none hl)).symm

theorem unaryLevel_takes {m : Reader Expr} {turns : Nat} (hn : level.next? = some next)
    (hm : Takes m used e rest) (hu : ∃ x xs, used = x :: xs ∧ Starts next x.token) :
    Takes (unaryLevel turns m (unaryOp? level)) used e rest := by
  cases turns with
  | zero =>
    rw [unaryLevel_zero]
    exact hm
  | succ turns =>
    rw [unaryLevel_succ]
    apply takes_peek
    obtain ⟨x, xs, rfl, hx⟩ := hu
    have hnone : unaryOp? level x.token = none := by
      rw [Option.eq_none_iff_forall_ne_some]
      intro op hop
      obtain ⟨rfl, ht⟩ := unaryOp?_eq_some_iff.mp hop
      have := hx.tight op ht
      have := Level.rank_next hn
      omega
    simp only [List.cons_append, List.head?_cons, Option.map_some, Option.bind_some, hnone]
    exact hm

theorem rangeLevel_takes (hm : Takes (bitOrLevel bound (exprWithin bound)) used e rest)
    (hs : Stops .bound rest) : Takes (rangeLevel bound (exprWithin bound)) used e rest := by
  apply hm.bindLast
  apply takes_take_none
  · rcases rest with _ | ⟨x, xs⟩
    · simp
    · exact fun hx => stops_cons.mp hs (Option.some.inj hx)
  · exact takes_pure

theorem Begun.tighter (hn : level.next? = some next)
    (hm : Takes (levelWith bound bound next) used e rest)
    (hu : ∃ x xs, used = x :: xs ∧ Starts next x.token) (hb : level = .range → Stops .bound rest) :
    Begun bound level used e rest := by
  rcases level_kind hn with ⟨op, ho⟩ | ⟨op, ho⟩ | rfl
  · intro turns _
    refine ⟨turns, Nat.le_add_right _ _, fun s hs => ?_⟩
    rw [levelWith_binary turns bound ho hn, goOn_eq turns bound hn]
    exact bind_eq (hm s hs)
  · apply Begun.ofTakes
    · subst ho
      cases op <;> simp [UnaryOp.level]
    · intro turns _
      rw [levelWith_unary turns bound ho hn]
      exact unaryLevel_takes hn hm hu
  · cases hn
    exact .ofTakes (.inr (.inl rfl)) fun turns _ => rangeLevel_takes hm (hb rfl)

theorem Begun.binary {op : BinaryOp} {x : Lexeme} {first second : List Lexeme} {a b : Expr}
    (ho : op.level = level) (hn : level.next? = some next) (hx : x.token = op.token)
    (ha : Begun bound level first a (x :: (second ++ rest)))
    (hb : Takes (levelWith bound bound next) second b rest) :
    Begun bound level (first ++ x :: second) ⟨.binary a op b, a.span.merge b.span⟩ rest := by
  intro turns ht
  rw [List.length_append, List.length_cons] at ht
  obtain ⟨left, hleft, heq⟩ := ha turns (by omega)
  obtain ⟨left, rfl⟩ : ∃ k, left = k + 1 := ⟨left - 1, by omega⟩
  refine ⟨left, by rw [List.length_append, List.length_cons]; omega, fun s hs => ?_⟩
  rw [heq s (by simpa using hs), goOn_eq _ bound hn, goOn_eq _ bound hn]
  have hop : binaryOp? level x.token = some op := binaryOp?_eq_some_iff.mpr ⟨ho, hx⟩
  conv_lhs => unfold operands
  rw [bind_eq (m := peek?) rfl]
  simp only [State.passed_ahead, List.head?_cons, Option.map_some, Option.bind_some, hop]
  rw [advance_takes.bind_eq rfl, hb.bind_eq rfl]
  simp

theorem Begun.unary {op : UnaryOp} {x : Lexeme} (ho : op.level = level) (hx : x.token = op.token)
    (h : Begun bound level used e rest) :
    Begun bound level (x :: used) ⟨.unary op e, x.span.merge e.span⟩ rest := by
  obtain ⟨next, hn⟩ : ∃ next, level.next? = some next := by
    subst ho
    cases op <;> exact ⟨_, rfl⟩
  have hl : level = .not ∨ level = .range ∨ level = .sign := by
    subst ho
    cases op <;> simp [UnaryOp.level]
  apply Begun.ofTakes hl
  intro turns ht
  obtain ⟨turns, rfl⟩ : ∃ k, turns = k + 1 := ⟨turns - 1, by rw [List.length_cons] at ht; omega⟩
  obtain ⟨left, -, heq⟩ := h turns (by simpa using ht)
  have htakes :
      Takes (unaryLevel turns (levelWith bound bound next) (unaryOp? level)) used e rest := by
    intro s hs
    rw [← levelWith_unary turns bound ho hn, heq s hs]
    exact goOn_stops (stops_operand_of_none hl)
  rw [levelWith_unary _ bound ho hn, unaryLevel_succ]
  apply takes_peek
  have hop : unaryOp? level x.token = some op := unaryOp?_eq_some_iff.mpr ⟨ho, hx⟩
  simp only [List.cons_append, List.head?_cons, Option.map_some, Option.bind_some, hop]
  apply takes_nextSpan
  apply takes_advance
  exact htakes.bindLast takes_pure

theorem Begun.range {x : Lexeme} {first second : List Lexeme} {a b : Expr}
    (ha : Takes (bitOrLevel bound (exprWithin bound)) first a (x :: (second ++ rest)))
    (hx : x.token = .symbol .dotDot)
    (hb : Takes (bitOrLevel bound (exprWithin bound)) second b rest) :
    Begun bound .range (first ++ x :: second) ⟨.range a b, a.span.merge b.span⟩ rest := by
  refine .ofTakes (.inr (.inl rfl)) fun turns _ => ?_
  exact Takes.bind ha (takes_take hx (hb.bindLast takes_pure))

theorem Begun.ofPrimary (h : Takes (primary bound (exprWithin bound)) used e rest) :
    Begun bound .suffix used e rest := fun turns _ =>
  ⟨turns, Nat.le_add_right _ _, fun s hs => bind_eq (h s hs)⟩

/-- One more suffix takes one more turn. -/
theorem Begun.suffix {base more : List Lexeme} {e' : Expr}
    (h : Begun bound .suffix base e (more ++ rest)) (hm : more ≠ [])
    (hs : ∀ turns, more.length ≤ turns + 1 → ∀ s : State, s.ahead = more ++ rest →
      suffixes (exprWithin bound) (turns + 1) e s =
        suffixes (exprWithin bound) turns e' (s.passed more rest)) :
    Begun bound .suffix (base ++ more) e' rest := by
  have hpos : 0 < more.length := List.length_pos_iff.mpr hm
  intro turns ht
  rw [List.length_append] at ht
  obtain ⟨left, hleft, heq⟩ := h turns (by omega)
  obtain ⟨left, rfl⟩ : ∃ k, left = k + 1 := ⟨left - 1, by omega⟩
  refine ⟨left, by rw [List.length_append]; omega, fun s hs' => ?_⟩
  rw [heq s (by simpa using hs')]
  show suffixes (exprWithin bound) (left + 1) e _ = suffixes (exprWithin bound) left e' _
  rw [hs left (by omega) _ rfl, State.passed_passed]

theorem exprWithin_takes {bound : Nat}
    (h : ∀ bound, used.length ≤ bound → Takes (levelWith bound bound .or) used e rest)
    (hb : used.length < bound) : Takes (exprWithin bound) used e rest := by
  cases bound with
  | zero => cases hb
  | succ bound => exact h bound (Nat.le_of_lt_succ hb)

/-! ### What stands between brackets -/

variable {inner : Reader Expr} {turns : Nat} {x y p : Lexeme} {es : List Expr}

theorem head_token {t : Token} {xs : List Lexeme} (hx : x.token = t) :
    ((x :: xs) ++ rest).head?.map (·.token) = some t := congrArg some hx

theorem primary_atom {node : ExprNode} (h : Atom x.token node) :
    Takes (primary turns inner) [x] ⟨node, x.span⟩ rest := by
  have hl : Takes (literal node) [x] ⟨node, x.span⟩ rest :=
    takes_nextSpan (takes_advance takes_pure)
  apply takes_peek
  rw [head_token rfl]
  generalize x.token = t at h
  cases h <;> exact hl

theorem primary_array (hx : x.token = .symbol .lbracket)
    (hl : Takes (arguments turns inner) used es (y :: rest)) (hy : y.token = .symbol .rbracket) :
    Takes (primary turns inner) (x :: (used ++ [y])) ⟨.array es, x.span.merge y.span⟩ rest := by
  apply takes_peek
  rw [head_token hx]
  apply takes_nextSpan
  apply takes_advance
  exact Takes.bind hl (takes_expect hy takes_pure)

theorem primary_paren (hx : x.token = .symbol .lparen) (he : Takes inner used e (y :: rest))
    (hy : y.token = .symbol .rparen) : Takes (primary turns inner) (x :: (used ++ [y])) e rest := by
  apply takes_peek
  rw [head_token hx]
  apply takes_advance
  exact Takes.bind he (takes_expect hy takes_pure)

theorem primary_cast {target : TypeName} (hx : x.token = .keyword (.type target))
    (hp : p.token = .symbol .lparen) (he : Takes inner used e (y :: rest))
    (hy : y.token = .symbol .rparen) :
    Takes (primary turns inner) (x :: p :: (used ++ [y])) ⟨.cast target e, x.span.merge y.span⟩
      rest := by
  apply takes_peek
  rw [head_token hx]
  apply takes_nextSpan
  apply takes_advance
  apply takes_expect hp
  exact Takes.bind he (takes_expect hy takes_pure)

theorem arguments_none (hy : y.token = .symbol .rparen ∨ y.token = .symbol .rbracket) :
    Takes (arguments turns inner) [] [] (y :: rest) := by
  apply takes_peek
  rcases hy with hy | hy
  all_goals
    simp only [List.nil_append, List.head?_cons, Option.map_some, hy]
    exact takes_pure

theorem arguments_takes {used es y rest} (hl : Listed Stops used es (y :: rest))
    (h : es ≠ [] → Takes (separated inner turns) used es (y :: rest))
    (hy : y.token = .symbol .rparen ∨ y.token = .symbol .rbracket) :
    Takes (arguments turns inner) used es (y :: rest) := by
  have hsome : (∃ x xs, used = x :: xs ∧ Starts .or x.token) → es ≠ [] →
      Takes (arguments turns inner) used es (y :: rest) := by
    rintro ⟨x, xs, rfl, hx⟩ hes
    have ht := hx.expression
    apply takes_peek
    split
    · rename_i hp
      rw [show x.token = _ from Option.some.inj hp] at ht
      cases ht
    · rename_i hp
      rw [show x.token = _ from Option.some.inj hp] at ht
      cases ht
    · exact h hes
  cases hl with
  | none => exact arguments_none hy
  | one he => exact hsome he.head (by simp)
  | more he _ _ =>
    obtain ⟨x, xs, rfl, hx⟩ := he.head
    exact hsome ⟨x, _, rfl, hx⟩ (by simp)

theorem suffixes_index {turns : Nat} {i : Expr} {s : State} (hx : x.token = .symbol .lbracket)
    (hi : Takes inner used i (y :: rest)) (hy : y.token = .symbol .rbracket)
    (hs : s.ahead = x :: (used ++ [y]) ++ rest) :
    suffixes inner (turns + 1) e s = suffixes inner turns ⟨.index e i, e.span.merge y.span⟩
      (s.passed (x :: (used ++ [y])) rest) := by
  have hs' : s.ahead = [x] ++ (used ++ y :: rest) := by simpa using hs
  conv_lhs => unfold suffixes
  rw [bind_eq (m := peek?) rfl, hs, head_token hx]
  dsimp only
  rw [advance_takes.bind_eq hs', hi.bind_eq rfl, (expect_takes hy).bind_eq rfl]
  simp

theorem suffixes_call {turns : Nat} {name : String} {span : Span} {s : State}
    (hx : x.token = .symbol .lparen) (hl : Takes (arguments turns inner) used es (y :: rest))
    (hy : y.token = .symbol .rparen) (hs : s.ahead = x :: (used ++ [y]) ++ rest) :
    suffixes inner (turns + 1) ⟨.var name, span⟩ s =
      suffixes inner turns ⟨.call ⟨name, span⟩ es, span.merge y.span⟩
        (s.passed (x :: (used ++ [y])) rest) := by
  have hs' : s.ahead = [x] ++ (used ++ y :: rest) := by simpa using hs
  conv_lhs => unfold suffixes
  rw [bind_eq (m := peek?) rfl, hs, head_token hx]
  dsimp only
  rw [advance_takes.bind_eq hs', hl.bind_eq rfl, (expect_takes hy).bind_eq rfl]
  simp

end Expressions

end Quill.Reader

namespace Quill.Grammar

open Reader

mutual

theorem Phrase.begun {level used e rest} :
    Phrase Stops level used e rest → ∀ bound, used.length ≤ bound → Begun bound level used e rest
  | .tighter hn hw hb, bound, hlen => .tighter hn (hw.takes bound hlen) hw.head hb
  | .binary ho hn hx ha hb, bound, hlen => by
    rw [List.length_append, List.length_cons] at hlen
    exact .binary ho hn hx (ha.begun bound (by omega)) (hb.takes bound (by omega))
  | .unary ho hx h, bound, hlen => by
    rw [List.length_cons] at hlen
    exact .unary ho hx (h.begun bound (by omega))
  | .range ha hx hb, bound, hlen => by
    rw [List.length_append, List.length_cons] at hlen
    exact .range (ha.takes bound (by omega)) hx (hb.takes bound (by omega))
  | .atom h, bound, _ => .ofPrimary (primary_atom h)
  | .array hx hl hy, bound, hlen => by
    rw [List.length_cons, List.length_append, List.length_singleton] at hlen
    refine .ofPrimary (primary_array hx (arguments_takes hl ?_ (.inr hy)) hy)
    exact hl.takes bound bound (by omega) (by omega) (by simp [hy])
  | .paren hx he hy, bound, hlen => by
    rw [List.length_cons, List.length_append, List.length_singleton] at hlen
    exact .ofPrimary (primary_paren hx (exprWithin_takes he.takes (by omega)) hy)
  | .cast hx hp he hy, bound, hlen => by
    rw [List.length_cons, List.length_cons, List.length_append, List.length_singleton] at hlen
    exact .ofPrimary (primary_cast hx hp (exprWithin_takes he.takes (by omega)) hy)
  | .index he hx hi hy, bound, hlen => by
    simp only [List.length_append, List.length_cons] at hlen
    refine .suffix (by simpa using he.begun bound (by omega)) (by simp) fun turns _ s hs => ?_
    exact suffixes_index hx (exprWithin_takes hi.takes (by omega)) hy hs
  | .call he hx hl hy, bound, hlen => by
    simp only [List.length_append, List.length_cons] at hlen
    refine .suffix (by simpa using he.begun bound (by omega)) (by simp) fun turns ht s hs => ?_
    simp only [List.length_append, List.length_cons] at ht
    exact suffixes_call hx (arguments_takes hl (hl.takes bound turns (by omega) (by omega)
      (by simp [hy])) (.inl hy)) hy hs

theorem Whole.takes {level used e rest} :
    Whole Stops level used e rest → ∀ bound, used.length ≤ bound →
      Takes (levelWith bound bound level) used e rest
  | .intro h hs, bound, hlen => (h.begun bound hlen).takes hlen hs

theorem Listed.takes {used es rest} :
    Listed Stops used es rest → ∀ bound turns, used.length < bound → used.length ≤ turns →
      rest.head?.map (·.token) ≠ some (.symbol .comma) → es ≠ [] →
      Takes (separated (exprWithin bound) turns) used es rest
  | .none, _, _, _, _, _, hes => absurd rfl hes
  | .one he, bound, turns, hb, _, hr, _ => separated_one (exprWithin_takes he.takes hb) hr
  | .more he hx hl, bound, 0, _, ht, _, _ => by
    rw [List.length_append, List.length_cons] at ht
    omega
  | .more he hx hl, bound, turns + 1, hb, ht, hr, _ => by
    rw [List.length_append, List.length_cons] at hb ht
    exact separated_more (exprWithin_takes he.takes (by omega)) hx
      (hl.takes bound turns (by omega) (by omega) hr (by simp))

end

theorem Whole.within {used e rest} (h : Whole Stops .or used e rest) {bound : Nat}
    (hb : used.length < bound) : Takes (exprWithin bound) used e rest :=
  exprWithin_takes h.takes hb

end Quill.Grammar
