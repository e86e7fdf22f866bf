-- How expressions are read, well or badly. An expression reader passes over
-- lexemes that are no braces, its errors are about the lexeme that comes
-- next, and the span of its result starts where one of the lexemes does. It
-- does the same under every bound above the number of lexemes ahead.
import Quill.Proofs.ExprSoundness
import Quill.Proofs.ReadingPaths

namespace Quill.Reader

/-- From fewer than `n` lexemes both readers read the same expression, and its
span starts where one of the lexemes does. -/
def ScansExpr (n : Nat) (m m' : Reader Expr) : Prop :=
  ∀ s : State, s.ahead.length < n → Scans s m m' fun e t => Starts s t e.span.start

/-- No brace is such an operator. -/
def Braceless {β : Type} (op? : Token → Option β) : Prop :=
  op? (.symbol .lbrace) = none ∧ op? (.symbol .rbrace) = none

theorem Braceless.isBrace_eq_false {β : Type} {op? : Token → Option β} {t : Token} {op : β}
    (h : Braceless op?) (ht : op? t = some op) : t.isBrace = false := by
  unfold Token.isBrace
  split
  · rw [h.1] at ht
    cases ht
  · rw [h.2] at ht
    cases ht
  · rfl

theorem ScansExpr.mono {n k : Nat} {m m' : Reader Expr} (h : ScansExpr n m m') (hk : k ≤ n) :
    ScansExpr k m m' := fun s hs => h s (hs.trans_le hk)

variable {n turns turns' : Nat} {inner inner' next next' : Reader Expr} {s origin : State}

/-! ## Shapes of levels -/

section Shapes

variable (hnext : ScansExpr n next next')

include hnext

theorem operands_scans {op? : Token → Option BinaryOp} (hop : Braceless op?) {left : Expr}
    (hn : s.ahead.length < n) (hturns : s.ahead.length < turns) (hturns' : s.ahead.length < turns')
    (horigin : Moved origin s) (hleft : Starts origin s left.span.start) :
    Scans s (operands next op? turns left) (operands next' op? turns' left)
      fun e t => Starts origin t e.span.start := by
  induction turns generalizing turns' s left with
  | zero => exact absurd hturns (Nat.not_lt_zero _)
  | succ turns ih =>
    obtain ⟨turns', rfl⟩ : ∃ k, turns' = k + 1 := ⟨turns' - 1, by omega⟩
    apply scans_peek
    rintro _ rfl
    rcases hs : s.ahead with _ | ⟨x, xs⟩
    · exact .pure hleft
    · simp only [List.head?_cons, Option.map_some, Option.bind_some]
      rcases hx : op? x.token with _ | op
      · exact .pure hleft
      · have hmoved := Moved.head hs
        rw [hs, List.length_cons] at hn hturns hturns'
        refine scans_advance hs (hop.isBrace_eq_false hx) ?_
        apply (hnext _ (Nat.lt_of_succ_lt hn)).bind
        intro right t ht hright
        have hlt := hright.length_lt
        have hleft' := (hleft.after hmoved).after ht
        have hright' := (hright.before hmoved).before horigin
        rw [State.passed_ahead] at hlt
        exact ih (by omega) (by omega) (by omega) ((horigin.trans hmoved).trans ht)
          (hleft'.merge hright')

theorem leftLevel_scans {op? : Token → Option BinaryOp} (hop : Braceless op?)
    (hturns : n ≤ turns + 1) (hturns' : n ≤ turns' + 1) :
    ScansExpr n (leftLevel turns next op?) (leftLevel turns' next' op?) := by
  intro s hs
  apply (hnext s hs).bind
  intro first t ht hfirst
  have := hfirst.length_lt
  exact operands_scans hnext hop (by omega) (by omega) (by omega) ht hfirst

omit hnext in
/-- Where nothing is ahead there is no operator. -/
theorem unaryLevel_nil {op? : Token → Option UnaryOp} (hs : s.ahead = []) :
    unaryLevel turns next op? s = next s := by
  cases turns with
  | zero => rw [unaryLevel_zero]
  | succ turns =>
    rw [unaryLevel_succ]
    simp [Bind.bind, EStateM.bind, peek?, hs]

omit hnext in
theorem unaryLevel_scans_nil {op? : Token → Option UnaryOp} {P : Expr → State → Prop}
    (hs : s.ahead = []) (h : Scans s next next' P) :
    Scans s (unaryLevel turns next op?) (unaryLevel turns' next' op?) P := by
  unfold Scans
  rw [unaryLevel_nil hs, unaryLevel_nil hs]
  exact h

theorem unaryLevel_scans {op? : Token → Option UnaryOp} (hop : Braceless op?)
    (hturns : n ≤ turns + 1) (hturns' : n ≤ turns' + 1) :
    ScansExpr n (unaryLevel turns next op?) (unaryLevel turns' next' op?) := by
  intro s hn
  induction turns generalizing n turns' s with
  | zero => exact unaryLevel_scans_nil (List.length_eq_zero_iff.mp (by omega)) (hnext s hn)
  | succ turns ih =>
    rcases hs : s.ahead with _ | ⟨x, xs⟩
    · exact unaryLevel_scans_nil hs (hnext s hn)
    · rw [hs, List.length_cons] at hn
      obtain ⟨turns', rfl⟩ : ∃ k, turns' = k + 1 := ⟨turns' - 1, by omega⟩
      rw [unaryLevel_succ, unaryLevel_succ]
      apply scans_peek
      rintro _ rfl
      simp only [hs, List.head?_cons, Option.map_some, Option.bind_some]
      rcases hx : op? x.token with _ | op
      · exact hnext s (by rwa [hs])
      · have hmoved := Moved.head hs
        apply scans_nextSpan
        refine scans_advance hs (hop.isBrace_eq_false hx) ?_
        have hrest : Scans (s.passed [x] xs) (unaryLevel turns next op?)
            (unaryLevel turns' next' op?) fun e t => Starts (s.passed [x] xs) t e.span.start := by
          refine ih (n := n - 1) (hnext.mono (by omega)) (by omega) (by omega) _ ?_
          rw [State.passed_ahead]
          omega
        apply hrest.bind
        intro e t ht he
        refine .pure (Starts.merge ?_ (he.before hmoved))
        have hspan : s.next = x.span := by simp [State.next, hs]
        rw [hspan]
        exact (Starts.head hs).after ht

end Shapes

/-! ## Lists -/

/-- Items with commas between them are read alike if the items are. -/
theorem separated_scans {α : Type} {item item' : Reader α}
    (hitem : ∀ s : State, s.ahead.length < n →
      Scans s item item' fun _ t => t.ahead.length < s.ahead.length)
    (hn : s.ahead.length < n) (hturns : s.ahead.length < turns)
    (hturns' : s.ahead.length < turns') :
    Scans s (separated item turns) (separated item' turns') fun _ _ => True := by
  induction turns generalizing turns' s with
  | zero => exact absurd hturns (Nat.not_lt_zero _)
  | succ turns ih =>
    obtain ⟨turns', rfl⟩ : ∃ k, turns' = k + 1 := ⟨turns' - 1, by omega⟩
    apply (hitem s hn).bind
    intro e t _ hlt
    apply scans_take rfl
    · intro x xs ht _
      rw [ht, List.length_cons] at hlt
      have hrest : Scans (t.passed [x] xs) (separated item turns) (separated item' turns')
          fun _ _ => True := by
        apply ih <;> rw [State.passed_ahead] <;> omega
      exact hrest.bind fun _ _ _ _ => .pure trivial
    · exact .pure trivial

/-! ## The tightest levels -/

/-- The lexeme whose token was seen. -/
theorem State.exists_head {t : Token} (h : some t = s.ahead.head?.map (·.token)) :
    ∃ x xs, s.ahead = x :: xs ∧ x.token = t ∧ s.next = x.span := by
  rcases hs : s.ahead with _ | ⟨x, xs⟩
  · rw [hs] at h
    cases h
  · rw [hs] at h
    exact ⟨x, xs, rfl, (Option.some.inj h).symm, by simp [State.next, hs]⟩

theorem literal_scans {t : Token} (ho : some t = s.ahead.head?.map (·.token))
    (ht : t.isBrace = false) (node : ExprNode) :
    Scans s (literal node) (literal node) fun e t => Starts s t e.span.start := by
  obtain ⟨x, xs, hs, rfl, hspan⟩ := State.exists_head ho
  apply scans_nextSpan
  apply scans_advance hs ht
  rw [hspan]
  exact .pure (.head hs)

section Tightest

variable (hinner : ScansExpr (n - 1) inner inner')

include hinner

theorem arguments_scans (hn : s.ahead.length < n - 1) (hturns : s.ahead.length < turns)
    (hturns' : s.ahead.length < turns') :
    Scans s (arguments turns inner) (arguments turns' inner') fun _ _ => True := by
  have hitems : Scans s (separated inner turns) (separated inner' turns') fun _ _ => True :=
    separated_scans (fun u hu => (hinner u hu).imp fun _ _ _ he => he.length_lt) hn hturns hturns'
  apply scans_peek
  rintro (_ | t) -
  · exact hitems
  cases t with
  | symbol mark =>
    cases mark with
    | rparen | rbracket => exact .pure trivial
    | _ => exact hitems
  | _ => exact hitems

theorem primary_scans (hturns : n ≤ turns + 1) (hturns' : n ≤ turns' + 1) :
    ScansExpr n (primary turns inner) (primary turns' inner') := by
  intro s hn
  apply scans_peek
  rintro (_ | t) ho
  · exact scans_expected
  cases t with
  | int value => exact literal_scans ho rfl _
  | float value => exact literal_scans ho rfl _
  | string text => exact literal_scans ho rfl _
  | ident name => exact literal_scans ho rfl _
  | keyword word =>
    cases word with
    | trueKw | falseKw => exact literal_scans ho rfl _
    | type target =>
      obtain ⟨x, xs, hs, hx, hspan⟩ := State.exists_head ho
      rw [hs, List.length_cons] at hn
      apply scans_nextSpan
      refine scans_advance hs (by rw [hx]; rfl) ?_
      apply scans_expect rfl
      intro p ps hp _
      have hmoved := (Moved.head hs).trans (Moved.head hp)
      have hlength : xs.length = ps.length + 1 := by
        rw [State.passed_ahead] at hp
        rw [hp, List.length_cons]
      apply (hinner _ (by rw [State.passed_ahead]; omega)).bind
      intro e t ht _
      apply scans_expect rfl
      intro y ys hy _
      refine .pure (Starts.merge ?_ ((Starts.head hy).before (hmoved.trans ht)))
      rw [hspan]
      exact (((Starts.head hs).after (.head hp)).after ht).after (.head hy)
    | _ => exact scans_expected
  | symbol mark =>
    cases mark with
    | lbracket =>
      obtain ⟨x, xs, hs, hx, hspan⟩ := State.exists_head ho
      rw [hs, List.length_cons] at hn
      apply scans_nextSpan
      refine scans_advance hs (by rw [hx]; rfl) ?_
      have hargs : Scans (s.passed [x] xs) (arguments turns inner) (arguments turns' inner')
          fun _ _ => True := by
        apply arguments_scans hinner <;> rw [State.passed_ahead] <;> omega
      apply hargs.bind
      intro es t ht _
      apply scans_expect rfl
      intro y ys hy _
      refine .pure (Starts.merge ?_ ((Starts.head hy).before ((Moved.head hs).trans ht)))
      rw [hspan]
      exact ((Starts.head hs).after ht).after (.head hy)
    | lparen =>
      obtain ⟨x, xs, hs, hx, -⟩ := State.exists_head ho
      rw [hs, List.length_cons] at hn
      refine scans_advance hs (by rw [hx]; rfl) ?_
      apply (hinner _ (by rw [State.passed_ahead]; omega)).bind
      intro e t ht he
      apply scans_expect rfl
      intro y ys hy _
      exact .pure ((he.before (.head hs)).after (.head hy))
    | _ => exact scans_expected

/-- What stands after an expression makes it longer, and its span starts where
it did. -/
theorem suffixes_scans {e : Expr} (hn : s.ahead.length < n) (hturns : s.ahead.length < turns)
    (hturns' : s.ahead.length < turns') (he : Starts origin s e.span.start)
    (horigin : Moved origin s) :
    Scans s (suffixes inner turns e) (suffixes inner' turns' e)
      fun e t => Starts origin t e.span.start := by
  induction turns generalizing turns' s e with
  | zero => exact absurd hturns (Nat.not_lt_zero _)
  | succ turns ih =>
    obtain ⟨turns', rfl⟩ : ∃ k, turns' = k + 1 := ⟨turns' - 1, by omega⟩
    -- After the closing bracket the same holds of the longer expression.
    have hlonger : ∀ {x y : Lexeme} {xs ys : List Lexeme} {t : State} {node : ExprNode},
        s.ahead = x :: xs → Moved (s.passed [x] xs) t → t.ahead = y :: ys →
        Scans (t.passed [y] ys) (suffixes inner turns ⟨node, e.span.merge y.span⟩)
          (suffixes inner' turns' ⟨node, e.span.merge y.span⟩)
          fun e t => Starts origin t e.span.start := by
      intro x y xs ys t node hs ht hy
      have hlength := ht.length_le
      rw [State.passed_ahead, hy, List.length_cons] at hlength
      rw [hs, List.length_cons] at hn hturns hturns'
      have hmoved := (horigin.trans (.head hs)).trans ht
      have hclose := (Starts.head hy).before hmoved
      refine ih ?_ ?_ ?_ (Starts.merge ?_ hclose) (hmoved.trans (.head hy))
      · rw [State.passed_ahead]
        omega
      · rw [State.passed_ahead]
        omega
      · rw [State.passed_ahead]
        omega
      · exact ((he.after (.head hs)).after ht).after (.head hy)
    have hdone : Scans s (pure e) (pure e) fun e t => Starts origin t e.span.start := .pure he
    obtain ⟨node, span⟩ := e
    apply scans_peek
    rintro (_ | t) ho
    · exact hdone
    cases t with
    | symbol mark =>
      cases mark with
      | lbracket =>
        obtain ⟨x, xs, hs, hx, -⟩ := State.exists_head ho
        refine scans_advance hs (by rw [hx]; rfl) ?_
        have hlength : xs.length < n - 1 := by
          rw [hs, List.length_cons] at hn
          omega
        apply (hinner _ hlength).bind
        intro index t ht _
        apply scans_expect rfl
        intro y ys hy _
        exact hlonger hs ht hy
      | lparen =>
        cases node with
        | var name =>
          obtain ⟨x, xs, hs, hx, -⟩ := State.exists_head ho
          refine scans_advance hs (by rw [hx]; rfl) ?_
          rw [hs, List.length_cons] at hn hturns hturns'
          have hargs : Scans (s.passed [x] xs) (arguments turns inner) (arguments turns' inner')
              fun _ _ => True := by
            apply arguments_scans hinner <;> rw [State.passed_ahead] <;> omega
          apply hargs.bind
          intro args t ht _
          apply scans_expect rfl
          intro y ys hy _
          exact hlonger hs ht hy
        | _ => exact hdone
      | _ => exact hdone
    | _ => exact hdone

/-! ## The levels -/

section Levels

variable (hturns : n ≤ turns + 1) (hturns' : n ≤ turns' + 1)

include hturns hturns'

theorem suffixLevel_scans : ScansExpr n (suffixLevel turns inner) (suffixLevel turns' inner') := by
  intro s hs
  apply (primary_scans hinner hturns hturns' s hs).bind
  intro e t ht he
  have := he.length_lt
  exact suffixes_scans hinner (by omega) (by omega) (by omega) he ht

theorem bitOrLevel_scans : ScansExpr n (bitOrLevel turns inner) (bitOrLevel turns' inner') := by
  have hsign : ScansExpr n (signLevel turns inner) (signLevel turns' inner') :=
    unaryLevel_scans (suffixLevel_scans hinner hturns hturns') ⟨rfl, rfl⟩ hturns hturns'
  have hproduct : ScansExpr n (productLevel turns inner) (productLevel turns' inner') :=
    leftLevel_scans hsign ⟨rfl, rfl⟩ hturns hturns'
  have hsum : ScansExpr n (sumLevel turns inner) (sumLevel turns' inner') :=
    leftLevel_scans hproduct ⟨rfl, rfl⟩ hturns hturns'
  have hand : ScansExpr n (bitAndLevel turns inner) (bitAndLevel turns' inner') :=
    leftLevel_scans hsum ⟨rfl, rfl⟩ hturns hturns'
  have hxor : ScansExpr n (bitXorLevel turns inner) (bitXorLevel turns' inner') :=
    leftLevel_scans hand ⟨rfl, rfl⟩ hturns hturns'
  exact leftLevel_scans hxor ⟨rfl, rfl⟩ hturns hturns'

theorem rangeLevel_scans : ScansExpr n (rangeLevel turns inner) (rangeLevel turns' inner') := by
  have hor := bitOrLevel_scans hinner hturns hturns'
  intro s hs
  apply (hor s hs).bind
  intro first t ht hfirst
  apply scans_take rfl
  · intro x xs hx _
    have hlength := ht.length_le
    rw [hx, List.length_cons] at hlength
    apply (hor _ (by rw [State.passed_ahead]; omega)).bind
    intro last u hu hlast
    exact .pure (((hfirst.after (.head hx)).after hu).merge (hlast.before (ht.trans (.head hx))))
  · exact .pure hfirst

theorem orLevel_scans : ScansExpr n (orLevel turns inner) (orLevel turns' inner') := by
  have horder : ScansExpr n (orderLevel turns inner) (orderLevel turns' inner') :=
    leftLevel_scans (rangeLevel_scans hinner hturns hturns') ⟨rfl, rfl⟩ hturns hturns'
  have hequality : ScansExpr n (equalityLevel turns inner) (equalityLevel turns' inner') :=
    leftLevel_scans horder ⟨rfl, rfl⟩ hturns hturns'
  have hnot : ScansExpr n (notLevel turns inner) (notLevel turns' inner') :=
    unaryLevel_scans hequality ⟨rfl, rfl⟩ hturns hturns'
  have hand : ScansExpr n (andLevel turns inner) (andLevel turns' inner') :=
    leftLevel_scans hnot ⟨rfl, rfl⟩ hturns hturns'
  exact leftLevel_scans hand ⟨rfl, rfl⟩ hturns hturns'

end Levels

end Tightest

/-! ## Bounds -/

/-- An expression, with `deep` in the place of what is read where the bound is
reached. -/
def exprOver (deep : Reader Expr) : Nat → Reader Expr
  | 0 => deep
  | bound + 1 => orLevel bound (exprOver deep bound)

theorem exprWithin_eq (bound : Nat) :
    exprWithin bound = exprOver (expected "expression") bound := by
  induction bound with
  | zero => rfl
  | succ bound ih => rw [exprWithin, exprOver, ih]

/-- Every level of nesting takes a lexeme, so a bound above the number of
lexemes ahead is never reached. -/
theorem exprOver_scans {deep deep' : Reader Expr} {bound bound' : Nat} (hbound : n ≤ bound)
    (hbound' : n ≤ bound') : ScansExpr n (exprOver deep bound) (exprOver deep' bound') := by
  induction bound generalizing n bound' with
  | zero =>
    intro s hs
    omega
  | succ bound ih =>
    intro s hs
    obtain ⟨bound', rfl⟩ : ∃ k, bound' = k + 1 := ⟨bound' - 1, by omega⟩
    have hinner : ScansExpr (n - 1) (exprOver deep bound) (exprOver deep' bound') :=
      ih (by omega) (by omega)
    exact orLevel_scans hinner hbound hbound' s hs

/-! ## Names -/

theorem name_scans (what : String) :
    Scans s (name what) (name what) fun _ t => t.ahead.length < s.ahead.length := by
  apply scans_peek
  rintro (_ | t) ho
  · exact scans_expected
  cases t with
  | ident text =>
    obtain ⟨x, xs, hs, hx, -⟩ := State.exists_head ho
    apply scans_nextSpan
    refine scans_advance hs (by rw [hx]; rfl) (.pure ?_)
    rw [State.passed_ahead, hs]
    exact Nat.lt_succ_self _
  | _ => exact scans_expected

theorem parameters_scans (hturns : s.ahead.length < turns) (hturns' : s.ahead.length < turns') :
    Scans s (parameters turns) (parameters turns') fun _ _ => True := by
  unfold parameters nextIs
  simp only [bind_assoc, pure_bind]
  apply scans_peek
  intro o _
  split
  · exact .pure trivial
  · exact separated_scans (fun _ _ => name_scans "parameter name") hturns hturns hturns'

end Quill.Reader
