-- What is read follows the grammar. A reading that reports nothing has
-- used exactly the lexemes of a phrase, and its result is the tree of the
-- phrase. Phrases end only where they must, so that they may also be
-- taken to end by any rule that is not stricter.
import Quill.Proofs.Grammar
import Quill.Proofs.ReaderLogic

namespace Quill.Reader

open Grammar

/-! ## Operators of the levels -/

/-- The operator between two operands that a token is at a level. -/
def binaryOp? : Level → Token → Option BinaryOp
  | .or => orOp?
  | .and => andOp?
  | .equality => equalityOp?
  | .order => orderOp?
  | .bitOr => bitOrOp?
  | .bitXor => bitXorOp?
  | .bitAnd => bitAndOp?
  | .sum => sumOp?
  | .product => productOp?
  | _ => fun _ => none

/-- The operator before its operand that a token is at a level. -/
def unaryOp? : Level → Token → Option UnaryOp
  | .not => notOp?
  | .sign => signOp?
  | _ => fun _ => none

theorem binaryOp?_eq_some_iff {level : Level} {t : Token} {op : BinaryOp} :
    binaryOp? level t = some op ↔ op.level = level ∧ t = op.token := by
  constructor
  · intro h
    cases level <;> simp only [binaryOp?, orOp?, andOp?, equalityOp?, orderOp?, bitOrOp?,
      bitXorOp?, bitAndOp?, sumOp?, productOp?] at h <;> (try split at h) <;> cases h <;>
      exact ⟨rfl, rfl⟩
  · rintro ⟨rfl, rfl⟩
    cases op <;> rfl

theorem unaryOp?_eq_some_iff {level : Level} {t : Token} {op : UnaryOp} :
    unaryOp? level t = some op ↔ op.level = level ∧ t = op.token := by
  constructor
  · intro h
    cases level <;> simp only [unaryOp?, notOp?, signOp?] at h <;> (try split at h) <;> cases h <;>
      exact ⟨rfl, rfl⟩
  · rintro ⟨rfl, rfl⟩
    cases op <;> rfl

end Quill.Reader

namespace Quill.Grammar

/-! ## Where phrases stop -/

theorem Edge.goesOn_operand {level : Level} {named : Bool} {t : Token} (h : level ≠ .suffix) :
    (Edge.operand level named).GoesOn t ↔ ∃ op : BinaryOp, op.level = level ∧ t = op.token := by
  cases level <;> first | exact Iff.rfl | exact absurd rfl h

theorem stops_nil (edge : Edge) : Stops edge [] := fun _ _ h => by cases h

theorem stops_cons {edge : Edge} {x : Lexeme} {xs : List Lexeme} :
    Stops edge (x :: xs) ↔ ¬ edge.GoesOn x.token := by
  constructor
  · exact fun h => h x xs rfl
  · rintro h y ys hy
    cases hy
    exact h

/-- Where no operator of the level comes next, an operand stops. -/
theorem stops_operand_iff {level : Level} {named : Bool} {rest : List Lexeme}
    (hs : level ≠ .suffix) :
    Stops (.operand level named) rest ↔
      (rest.head?.map (·.token)).bind (Reader.binaryOp? level) = none := by
  rcases rest with _ | ⟨x, xs⟩
  · simp [stops_nil]
  · rw [stops_cons, Edge.goesOn_operand hs]
    simp only [List.head?_cons, Option.map_some, Option.bind_some,
      Option.eq_none_iff_forall_ne_some, ne_eq, Reader.binaryOp?_eq_some_iff, not_exists]

/-- Levels whose operators stand before the operand have no other
operators, and neither have ranges. -/
theorem stops_operand_of_none {level : Level} {named : Bool} {rest : List Lexeme}
    (h : level = .not ∨ level = .range ∨ level = .sign) : Stops (.operand level named) rest := by
  rcases h with rfl | rfl | rfl
  all_goals
    rw [stops_operand_iff (by decide)]
    cases rest.head?.map (·.token) <;> rfl

end Quill.Grammar

namespace Quill.Reader

open Grammar

variable {ends : Edge → List Lexeme → Prop} {bound turns : Nat} {inner : Reader Expr}

/-! ## Shapes of levels -/

theorem operands_reads (hends : ∀ {edge rest}, Stops edge rest → ends edge rest)
    {level next : Level} {m : Reader Expr} (hn : level.next? = some next) (hs : level ≠ .suffix)
    (hm : Parses bound m (Whole ends next)) (start : State) (left : Expr) (used : List Lexeme) :
    Reads (At start used fun r => Phrase ends level used left r ∧ r.length ≤ turns ∧
        r.length ≤ bound)
      (operands m (binaryOp? level) turns left)
      fun e s => ∃ u, At start u (Whole ends level u e) s := by
  induction turns generalizing left used with
  | zero =>
    apply reads_pure
    rintro r ⟨hp, h0, -⟩
    obtain rfl := List.length_eq_zero_iff.mp (Nat.le_zero.mp h0)
    exact .intro hp (hends (stops_nil _))
  | succ turns ih =>
    apply peek_then
    intro o
    split
    · rename_i ho
      apply reads_pure
      rintro r ⟨⟨hp, -, -⟩, rfl⟩
      exact .intro hp (hends ((stops_operand_iff hs).mpr ho))
    · rename_i op ho
      apply advance_then
      · rintro r ⟨-, rfl⟩ rfl
        cases ho
      intro x
      apply hm.then
      · rintro r ⟨⟨-, -, hb⟩, -⟩
        simp only [List.length_cons] at hb
        omega
      intro right v
      refine (ih ⟨.binary left op right, left.span.merge right.span⟩
        (used ++ [x] ++ v)).weaken fun s hs' => hs'.imp ?_
      rintro r ⟨⟨⟨hp, ht, hb⟩, rfl⟩, hw⟩
      obtain ⟨hlevel, hx⟩ := binaryOp?_eq_some_iff.mp (by simpa using ho)
      simp only [List.length_cons, List.length_append] at ht hb
      refine ⟨?_, by omega, by omega⟩
      simpa using Phrase.binary hlevel hn hx hp hw

theorem leftLevel_parses (hends : ∀ {edge rest}, Stops edge rest → ends edge rest)
    (level : Level) {next : Level} {m : Reader Expr} (hn : level.next? = some next)
    (hs : level ≠ .suffix) (hr : level ≠ .range) (hm : Parses bound m (Whole ends next)) :
    Parses bound (leftLevel bound m (binaryOp? level)) (Whole ends level) := by
  intro start
  apply hm.then (fun r hr => hr)
  intro first v
  refine (operands_reads hends hn hs hm start first _).weaken fun s hs' => hs'.imp ?_
  rintro r ⟨hb, hw⟩
  rw [List.length_append] at hb
  exact ⟨.tighter hn hw fun h => absurd h hr, by omega, by omega⟩

/-- A run of operators before an operand is read one after the other. -/
theorem unaryLevel_succ (m : Reader Expr) (op? : Token → Option UnaryOp) (turns : Nat) :
    unaryLevel (turns + 1) m op? = (do
      match (← peek?).bind op? with
      | none => m
      | some op =>
        let span ← nextSpan
        advance
        let e ← unaryLevel turns m op?
        return ⟨.unary op e, span.merge e.span⟩) := by
  simp only [unaryLevel, operatorRun, bind_assoc]
  congr 1
  funext o
  cases o.bind op? with
  | none => simp
  | some op => simp [bind_assoc]

theorem unaryLevel_zero (m : Reader Expr) (op? : Token → Option UnaryOp) :
    unaryLevel 0 m op? = m := by
  simp [unaryLevel, operatorRun]

theorem unaryLevel_parses (hends : ∀ {edge rest}, Stops edge rest → ends edge rest)
    {level next : Level} {m : Reader Expr} (hn : level.next? = some next)
    (hl : level = .not ∨ level = .sign) (hm : Parses bound m (Whole ends next)) :
    Parses bound (unaryLevel turns m (unaryOp? level)) (Whole ends level) := by
  have hstop : ∀ {named rest}, ends (.operand level named) rest := fun {_ _} =>
    hends (stops_operand_of_none (by tauto))
  have hlift : ∀ {used e rest}, Whole ends next used e rest → Whole ends level used e rest :=
    fun hw => .intro (.tighter hn hw fun h => by rcases hl with rfl | rfl <;> cases h) hstop
  induction turns with
  | zero =>
    rw [unaryLevel_zero]
    exact hm.mono fun _ _ _ => hlift
  | succ turns ih =>
    rw [unaryLevel_succ]
    intro start
    apply peek_then
    intro o
    split
    · refine (hm.reads ?_).mono (fun _ h => h) ?_
      · exact fun r hr => hr.1
      · rintro e s ⟨v, hv⟩
        exact ⟨v, hv.imp fun r h => hlift h.2⟩
    · rename_i op ho
      apply nextSpan_then
      intro span
      apply advance_then
      · rintro r ⟨⟨-, rfl⟩, -⟩ rfl
        cases ho
      intro x
      apply ih.then
      · rintro r ⟨⟨hb, -⟩, -⟩
        simp only [List.length_cons] at hb
        omega
      intro e v
      apply reads_pure
      rintro r ⟨⟨⟨-, rfl⟩, hspan⟩, hw⟩
      obtain ⟨hlevel, hx⟩ := unaryOp?_eq_some_iff.mp (by simpa using ho)
      obtain rfl := hspan x _ rfl
      obtain ⟨hp, -⟩ := hw
      exact .intro (.unary hlevel hx hp) hstop

/-! ## The tightest levels -/

theorem separated_parses (hi : Parses bound inner (Whole ends .or)) :
    Parses bound (separated inner turns) fun used es rest =>
      es ≠ [] ∧ Listed ends used es rest := by
  induction turns with
  | zero =>
    intro start
    apply hi.then (fun r hr => hr)
    intro e v
    apply reads_pure
    rintro r ⟨-, hw⟩
    exact ⟨by simp, .one hw⟩
  | succ turns ih =>
    intro start
    apply hi.then (fun r hr => hr)
    intro e v
    apply take_then
    · intro span x
      apply ih.then
      · rintro r ⟨⟨hb, -⟩, -⟩
        simp only [List.length_append, List.length_cons] at hb
        omega
      intro es w
      apply reads_pure
      rintro r ⟨⟨⟨-, hw⟩, hx, -⟩, hne, hl⟩
      obtain ⟨e', es', rfl⟩ := List.exists_cons_of_ne_nil hne
      exact ⟨by simp, by simpa using Listed.more hw hx hl⟩
    · apply reads_pure
      rintro r ⟨⟨-, hw⟩, -⟩
      exact ⟨by simp, .one hw⟩

theorem arguments_parses (hi : Parses bound inner (Whole ends .or)) :
    Parses bound (arguments turns inner) (Listed ends) := by
  intro start
  apply peek_then
  intro o
  split
  · exact reads_pure fun r _ => .none
  · exact reads_pure fun r _ => .none
  · refine ((separated_parses hi).reads fun r hr => hr.1).mono (fun _ h => h) ?_
    rintro es s ⟨v, hv⟩
    exact ⟨v, hv.imp fun r h => h.2.2⟩

/-- The token that was seen is the one that is read. -/
theorem token_of_head {t : Token} {x : Lexeme} {r : List Lexeme}
    (h : some t = (x :: r).head?.map (·.token)) : x.token = t :=
  (Option.some.inj h).symm

theorem ne_nil_of_head {t : Token} {r : List Lexeme} (h : some t = r.head?.map (·.token)) :
    r ≠ [] := by
  rintro rfl
  cases h

theorem literal_reads {start : State} {t : Token} {node : ExprNode} (h : Atom t node) :
    Reads (At start [] fun r => r.length ≤ bound ∧ some t = r.head?.map (·.token)) (literal node)
      fun e s => ∃ u, At start u (Phrase ends .suffix u e) s := by
  apply nextSpan_then
  intro span
  apply advance_then fun r hr => ne_nil_of_head hr.1.2
  intro x
  apply reads_pure
  rintro r ⟨⟨-, ht⟩, hspan⟩
  obtain rfl := hspan x r rfl
  obtain rfl := token_of_head ht
  exact .atom h

theorem primary_parses (hi : Parses (bound - 1) inner (Whole ends .or)) :
    Parses bound (primary turns inner) (Phrase ends .suffix) := by
  intro start
  apply peek_then
  intro o
  rcases o with _ | t
  · exact .expected
  cases t with
  | int value => exact literal_reads (.int value)
  | float value => exact literal_reads (.float value)
  | string text => exact literal_reads (.string text)
  | ident name => exact literal_reads (.name name)
  | keyword word =>
    cases word with
    | trueKw => exact literal_reads .true
    | falseKw => exact literal_reads .false
    | type target =>
      apply nextSpan_then
      intro span
      apply advance_then fun r hr => ne_nil_of_head hr.1.2
      intro x
      apply expect_then
      intro opening p
      apply hi.then
      · rintro r ⟨⟨⟨hb, -⟩, -⟩, -⟩
        simp only [List.length_cons] at hb
        omega
      intro e v
      apply expect_then
      intro close y
      apply reads_pure
      rintro r ⟨⟨⟨⟨⟨-, hx⟩, hspan⟩, hp, -⟩, hw⟩, hy, rfl⟩
      obtain rfl := hspan x _ rfl
      simpa using Phrase.cast (token_of_head hx) hp hw hy
    | _ => exact .expected
  | symbol mark =>
    cases mark with
    | lbracket =>
      apply nextSpan_then
      intro span
      apply advance_then fun r hr => ne_nil_of_head hr.1.2
      intro x
      apply (arguments_parses hi).then
      · rintro r ⟨⟨hb, -⟩, -⟩
        simp only [List.length_cons] at hb
        omega
      intro es v
      apply expect_then
      intro close y
      apply reads_pure
      rintro r ⟨⟨⟨⟨-, hx⟩, hspan⟩, hl⟩, hy, rfl⟩
      obtain rfl := hspan x _ rfl
      simpa using Phrase.array (token_of_head hx) hl hy
    | lparen =>
      apply advance_then fun r hr => ne_nil_of_head hr.2
      intro x
      apply hi.then
      · rintro r ⟨hb, -⟩
        simp only [List.length_cons] at hb
        omega
      intro e v
      apply expect_then
      intro close y
      apply reads_pure
      rintro r ⟨⟨⟨-, hx⟩, hw⟩, hy, -⟩
      simpa using Phrase.paren (token_of_head hx) hw hy
    | _ => exact .expected

theorem stops_suffix {e : Expr} {r : List Lexeme}
    (hb : some (.symbol .lbracket) ≠ r.head?.map (·.token))
    (hp : e.isName = true → some (.symbol .lparen) ≠ r.head?.map (·.token)) :
    Stops (.operand .suffix e.isName) r := by
  rintro x xs rfl (hx | ⟨hx, he⟩)
  · exact hb (by rw [← hx]; rfl)
  · exact hp he (by rw [← hx]; rfl)

theorem suffixes_reads (hends : ∀ {edge rest}, Stops edge rest → ends edge rest)
    (hi : Parses (bound - 1) inner (Whole ends .or)) (start : State) (e : Expr)
    (used : List Lexeme) :
    Reads (At start used fun r => Phrase ends .suffix used e r ∧ r.length ≤ turns ∧
        r.length ≤ bound)
      (suffixes inner turns e)
      fun e s => ∃ u, At start u (Whole ends .suffix u e) s := by
  induction turns generalizing e used with
  | zero =>
    apply reads_pure
    rintro r ⟨hp, h0, -⟩
    obtain rfl := List.length_eq_zero_iff.mp (Nat.le_zero.mp h0)
    exact .intro hp (hends (stops_nil _))
  | succ turns ih =>
    apply peek_then
    intro o
    split
    · apply advance_then fun r hr => ne_nil_of_head hr.2
      intro x
      apply hi.then
      · rintro r ⟨⟨-, -, hb⟩, -⟩
        simp only [List.length_cons] at hb
        omega
      intro i v
      apply expect_then
      intro close y
      refine (ih ⟨.index e i, e.span.merge close⟩ (used ++ [x] ++ v ++ [y])).weaken fun s hs =>
        hs.imp ?_
      rintro r ⟨⟨⟨⟨hp, ht, hb⟩, hx⟩, hw⟩, hy, rfl⟩
      simp only [List.length_cons, List.length_append] at ht hb
      refine ⟨?_, by omega, by omega⟩
      simpa using Phrase.index hp (token_of_head hx) hw hy
    · rename_i name hname
      obtain ⟨node, span⟩ := e
      obtain rfl : node = .var name := hname
      apply advance_then fun r hr => ne_nil_of_head hr.2
      intro x
      apply (arguments_parses hi).then
      · rintro r ⟨⟨-, -, hb⟩, -⟩
        simp only [List.length_cons] at hb
        omega
      intro es v
      apply expect_then
      intro close y
      refine (ih ⟨.call ⟨name, span⟩ es, span.merge close⟩ (used ++ [x] ++ v ++ [y])).weaken
        fun s hs => hs.imp ?_
      rintro r ⟨⟨⟨⟨hp, ht, hb⟩, hx⟩, hl⟩, hy, rfl⟩
      simp only [List.length_cons, List.length_append] at ht hb
      refine ⟨?_, by omega, by omega⟩
      simpa using Phrase.call hp (token_of_head hx) hl hy
    · rename_i hbracket hcall
      apply reads_pure
      rintro r ⟨⟨hp, -, -⟩, rfl⟩
      refine .intro hp (hends (stops_suffix (fun h => hbracket h.symm) fun hn h => ?_))
      obtain ⟨node, span⟩ := e
      cases node with
      | var name => exact hcall name h.symm rfl
      | _ => cases hn

/-! ## The levels -/

section Levels

variable (hends : ∀ {edge rest}, Stops edge rest → ends edge rest)
  (hi : Parses (bound - 1) inner (Whole ends .or))

include hends hi

theorem suffixLevel_parses : Parses bound (suffixLevel bound inner) (Whole ends .suffix) := by
  intro start
  apply (primary_parses hi).then (fun r hr => hr)
  intro e v
  refine (suffixes_reads hends hi start e _).weaken fun s hs => hs.imp ?_
  rintro r ⟨hb, hp⟩
  rw [List.length_append] at hb
  exact ⟨hp, by omega, by omega⟩

theorem bitOrLevel_parses : Parses bound (bitOrLevel bound inner) (Whole ends .bitOr) := by
  have hsign : Parses bound (signLevel bound inner) (Whole ends .sign) :=
    unaryLevel_parses hends rfl (.inr rfl) (suffixLevel_parses hends hi)
  have hproduct : Parses bound (productLevel bound inner) (Whole ends .product) :=
    leftLevel_parses hends .product rfl (by decide) (by decide) hsign
  have hsum : Parses bound (sumLevel bound inner) (Whole ends .sum) :=
    leftLevel_parses hends .sum rfl (by decide) (by decide) hproduct
  have hand : Parses bound (bitAndLevel bound inner) (Whole ends .bitAnd) :=
    leftLevel_parses hends .bitAnd rfl (by decide) (by decide) hsum
  have hxor : Parses bound (bitXorLevel bound inner) (Whole ends .bitXor) :=
    leftLevel_parses hends .bitXor rfl (by decide) (by decide) hand
  exact leftLevel_parses hends .bitOr rfl (by decide) (by decide) hxor

theorem rangeLevel_parses : Parses bound (rangeLevel bound inner) (Whole ends .range) := by
  have hor := bitOrLevel_parses hends hi
  have hstop : ∀ {named rest}, ends (.operand .range named) rest := fun {_ _} =>
    hends (stops_operand_of_none (.inr (.inl rfl)))
  intro start
  apply hor.then (fun r hr => hr)
  intro first v
  apply take_then
  · intro span x
    apply hor.then
    · rintro r ⟨⟨hb, -⟩, -⟩
      simp only [List.length_append, List.length_cons] at hb
      omega
    intro last w
    apply reads_pure
    rintro r ⟨⟨⟨-, hw⟩, hx, -⟩, hw'⟩
    exact .intro (by simpa using Phrase.range hw hx hw') hstop
  · apply reads_pure
    rintro r ⟨⟨-, hw⟩, hr⟩
    refine .intro (.tighter rfl hw fun _ => hends ?_) hstop
    rintro x xs rfl hx
    exact hr (congrArg some hx)

theorem orLevel_parses : Parses bound (orLevel bound inner) (Whole ends .or) := by
  have horder : Parses bound (orderLevel bound inner) (Whole ends .order) :=
    leftLevel_parses hends .order rfl (by decide) (by decide) (rangeLevel_parses hends hi)
  have hequality : Parses bound (equalityLevel bound inner) (Whole ends .equality) :=
    leftLevel_parses hends .equality rfl (by decide) (by decide) horder
  have hnot : Parses bound (notLevel bound inner) (Whole ends .not) :=
    unaryLevel_parses hends rfl (.inl rfl) hequality
  have hand : Parses bound (andLevel bound inner) (Whole ends .and) :=
    leftLevel_parses hends .and rfl (by decide) (by decide) hnot
  exact leftLevel_parses hends .or rfl (by decide) (by decide) hand

end Levels

theorem exprWithin_parses (hends : ∀ {edge rest}, Stops edge rest → ends edge rest) (bound : Nat) :
    Parses (bound - 1) (exprWithin bound) (Whole ends .or) := by
  induction bound with
  | zero => exact fun _ => .expected
  | succ bound ih => exact orLevel_parses hends ih

end Quill.Reader
