-- Where blocks end. What remains of a statement that failed is skipped by
-- the depth of its brackets, whatever their kind, and an opening brace that
-- starts such a statement is not counted. Where the skipped brackets close in
-- order and no such brace is passed, every block ends at the brace that
-- matches the one it begins with.
import Quill.Proofs.LexedTexts
import Quill.Proofs.StmtPaths

namespace Quill.Reader

/-! ## Matching braces -/

/-- What follows the closing brace that ends a block, where `depth` blocks
inside it are open. Only braces count. -/
def afterBrace : Nat → List Lexeme → Option (List Lexeme)
  | _, [] => none
  | depth, x :: xs =>
    match x.token with
    | .symbol .lbrace => afterBrace (depth + 1) xs
    | .symbol .rbrace =>
      match depth with
      | 0 => some xs
      | depth + 1 => afterBrace depth xs
    | _ => afterBrace depth xs

/-- What follows the closing brace that matches the opening brace that comes
next. -/
def State.afterMatch? (s : State) : Option (List Lexeme) :=
  match s.ahead with
  | [] => none
  | x :: xs => if x.token = .symbol .lbrace then afterBrace 0 xs else none

/-- From `s` to `t` braces have been opened and closed in pairs. -/
def Level (s t : State) : Prop := ∀ depth, afterBrace depth s.ahead = afterBrace depth t.ahead

/-- Level, or at the end of the text, where no block ends any more. -/
def LevelOrEnd (s t : State) : Prop := t.ahead = [] ∨ Level s t

/-- The open brackets after a token, where `inside` says of those before it
which are braces, the last one first. A brace and another bracket do not match,
and a bracket that closes nothing does not count. -/
def openAfter (inside : List Bool) : Token → Option (List Bool)
  | .symbol .lbrace => some (true :: inside)
  | .symbol .lparen | .symbol .lbracket => some (false :: inside)
  | .symbol .rbrace => if inside.head? = some false then none else some inside.tail
  | .symbol .rparen | .symbol .rbracket =>
    if inside.head? = some true then none else some inside.tail
  | _ => some inside

/-- If the statement failed, it did not do so at an opening brace that starts
it, and the brackets of what was skipped close in order. -/
def Event.Tidy : Event → Prop
  | .tried start (some failure) _ =>
    (failure.raised.ahead.length = start.ahead.length →
      start.ahead.head?.map (·.token) ≠ some (.symbol .lbrace)) ∧
    ((failure.skipped.map (·.token)).foldlM openAfter []).isSome
  | _ => True

instance : DecidablePred Event.Tidy
  | .tried _ (some _) _ => inferInstanceAs (Decidable (_ ∧ _))
  | .tried _ none _ => .isTrue trivial
  | .block _ _ => .isTrue trivial

section Level

variable {s t u : State} {x : Lexeme} {xs : List Lexeme} {depth : Nat}

theorem afterBrace_cons (hx : x.token.isBrace = false) :
    afterBrace depth (x :: xs) = afterBrace depth xs := by
  rw [afterBrace.eq_def]
  dsimp only
  split
  · rename_i h
    rw [h] at hx
    cases hx
  · rename_i h
    rw [h] at hx
    cases hx
  · rfl

theorem afterBrace_open (hx : x.token = .symbol .lbrace) :
    afterBrace depth (x :: xs) = afterBrace (depth + 1) xs := by
  simp [afterBrace, hx]

theorem afterBrace_close (hx : x.token = .symbol .rbrace) :
    afterBrace (depth + 1) (x :: xs) = afterBrace depth xs := by
  simp [afterBrace, hx]

theorem afterBrace_end (hx : x.token = .symbol .rbrace) :
    afterBrace 0 (x :: xs) = some xs := by
  simp [afterBrace, hx]

theorem Level.refl (s : State) : Level s s := fun _ => rfl

theorem Level.trans (h : Level s t) (h' : Level t u) : Level s u :=
  fun depth => (h depth).trans (h' depth)

theorem Level.head (hs : s.ahead = x :: xs) (hx : x.token.isBrace = false) :
    Level s (s.passed [x] xs) := by
  intro depth
  rw [hs, afterBrace_cons hx, State.passed_ahead]

/-- A block whose inside is level is level. -/
theorem Level.block {y : Lexeme} {ys : List Lexeme} (hs : s.ahead = x :: xs)
    (hx : x.token = .symbol .lbrace) (h : Level (s.passed [x] xs) t) (ht : t.ahead = y :: ys)
    (hy : y.token = .symbol .rbrace) : Level s (t.passed [y] ys) := by
  intro depth
  have hinside := h (depth + 1)
  rw [State.passed_ahead, ht, afterBrace_close hy] at hinside
  rw [hs, afterBrace_open hx, hinside, State.passed_ahead]

theorem LevelOrEnd.trans (h : LevelOrEnd s t) (hmoved : Moved t u) (h' : LevelOrEnd t u) :
    LevelOrEnd s u := by
  rcases h with ht | h
  · have hsuffix := hmoved.suffix
    rw [ht, List.suffix_nil] at hsuffix
    exact .inl hsuffix
  · exact h'.imp_right h.trans

/-! ## Skipping -/

/-- One token: the depth is the number of open brackets, and the open braces
are those that have to be closed. -/
theorem openAfter_level {inside inside' : List Bool} (h : openAfter inside x.token = some inside')
    (hclose : inside = [] → x.token ≠ .symbol .rbrace) :
    inside'.length = nesting inside.length x.token ∧ ∀ k,
      afterBrace (k + inside.count true) (x :: xs) = afterBrace (k + inside'.count true) xs := by
  obtain ⟨token, span⟩ := x
  have hother : ∀ {t : Token} {more : List Bool}, t.isBrace = false →
      more.count true = inside.count true → ∀ k,
      afterBrace (k + inside.count true) (⟨t, span⟩ :: xs) =
        afterBrace (k + more.count true) xs := by
    intro t more ht hmore k
    rw [afterBrace_cons ht, hmore]
  cases token with
  | symbol mark =>
    cases mark with
    | lbrace =>
      cases h
      refine ⟨rfl, fun k => ?_⟩
      rw [afterBrace_open rfl, List.count_cons_self, Nat.add_assoc]
    | lparen | lbracket =>
      cases h
      exact ⟨rfl, hother rfl (by simp)⟩
    | rbrace =>
      rcases inside with _ | ⟨b, inside⟩
      · exact absurd rfl (hclose rfl)
      · cases b with
        | false => cases h
        | true =>
          cases h
          refine ⟨rfl, fun k => ?_⟩
          rw [List.count_cons_self, ← Nat.add_assoc, afterBrace_close rfl]
          rfl
    | rparen | rbracket =>
      rcases inside with _ | ⟨b, inside⟩
      · cases h
        exact ⟨rfl, hother rfl rfl⟩
      · cases b with
        | true => cases h
        | false =>
          cases h
          exact ⟨rfl, hother rfl (by simp)⟩
    | _ =>
      cases h
      exact ⟨rfl, hother rfl rfl⟩
  | _ =>
    cases h
    exact ⟨rfl, hother rfl rfl⟩

/-- Skipping ends outside all brackets that were opened on the way, or at the
end of the text. -/
theorem skipStatement_level {inside : List Bool} {last : Option Span}
    {ahead skipped : List Lexeme} (hdepth : inside.length = depth)
    (hsplit : ahead = skipped ++ (skipStatement depth last ahead).2)
    (hnest : ((skipped.map (·.token)).foldlM openAfter inside).isSome) :
    (skipStatement depth last ahead).2 = [] ∨
      ∀ k, afterBrace (k + inside.count true) ahead =
        afterBrace k (skipStatement depth last ahead).2 := by
  fun_induction skipStatement depth last ahead generalizing inside skipped with
  | case1 depth last => exact .inl rfl
  | case2 depth last x xs hstop =>
    obtain rfl := List.length_eq_zero_iff.mp (hdepth.trans hstop.1)
    exact .inr fun k => rfl
  | case3 depth last x xs _ hsemi =>
    obtain rfl := List.length_eq_zero_iff.mp (hdepth.trans hsemi.1)
    exact .inr fun k => afterBrace_cons (by rw [hsemi.2]; rfl)
  | case4 depth last x xs _ _ hline =>
    obtain rfl := List.length_eq_zero_iff.mp (hdepth.trans hline.1)
    exact .inr fun k => rfl
  | case5 depth last x xs hstop _ _ ih =>
    -- What is skipped begins with `x`, since what is left is part of `xs`.
    obtain ⟨others, hothers, -⟩ := skipStatement_split (nesting depth x.token) (some x.span) xs
    rcases skipped with _ | ⟨y, skipped⟩
    · have hlength := congrArg List.length hsplit
      have hlength' := congrArg List.length hothers
      simp only [List.nil_append, List.length_cons, List.length_append] at hlength hlength'
      omega
    rw [List.cons_append, List.cons.injEq] at hsplit
    obtain ⟨rfl, hsplit⟩ := hsplit
    rw [List.map_cons, List.foldlM_cons] at hnest
    rcases hnext : openAfter inside x.token with _ | inside'
    · rw [hnext] at hnest
      cases hnest
    rw [hnext] at hnest
    obtain ⟨hlength, hlevel⟩ : inside'.length = nesting inside.length x.token ∧ ∀ k,
        afterBrace (k + inside.count true) (x :: xs) =
          afterBrace (k + inside'.count true) xs := by
      refine openAfter_level hnext ?_
      rintro rfl hx
      exact hstop ⟨hdepth.symm, .inr hx⟩
    rcases ih (by rw [hlength, hdepth]) hsplit hnest with hnil | hrest
    · exact .inl hnil
    · exact .inr fun k => (hlevel k).trans (hrest k)

theorem resume_level (d : Diagnostic)
    (h : ((s.skipped.map (·.token)).foldlM openAfter []).isSome) : LevelOrEnd s (s.resume d) := by
  rcases skipStatement_level rfl (s.skipped_append d) h with hnil | hlevel
  · exact .inl hnil
  · exact .inr fun depth => hlevel depth

theorem isBrace_eq_false {token : Token} (hopen : token ≠ .symbol .lbrace)
    (hclose : token ≠ .symbol .rbrace) : token.isBrace = false := by
  unfold Token.isBrace
  split
  · exact absurd rfl hopen
  · exact absurd rfl hclose
  · rfl

/-- The lexeme that is passed because a statement failed at its start is no
brace: not an opening one, and a closing one would have stopped the items. -/
theorem beyond_level {stops : Token → Bool} (hs : s.ahead = x :: xs)
    (hstops : stops (.symbol .rbrace) = true) (hx : stops x.token = false) (hmoved : Moved s t)
    (hopen : t.ahead.length = s.ahead.length →
      s.ahead.head?.map (·.token) ≠ some (.symbol .lbrace)) : Level t (t.beyond s) := by
  unfold State.beyond
  split
  · rename_i hlength
    have ht := (hmoved.ahead_eq hlength).trans hs
    rw [State.advance_eq ht]
    refine .head ht (isBrace_eq_false ?_ ?_)
    · intro hbrace
      exact hopen hlength (by simp [hs, hbrace])
    · intro hbrace
      rw [hbrace, hstops] at hx
      cases hx
  · exact .refl t

end Level

/-! ## Blocks -/

/-- How a course keeps braces level. Items that no closing brace stops may pass
any number of them. -/
def Stage.KeepsLevel (s t : State) : Stage → Prop
  | .part => Level s t
  | .items stops => stops (.symbol .rbrace) = true → LevelOrEnd s t
  | .failed _ => LevelOrEnd s t

theorem Course.keepsLevel {stage : Stage} {s t : State} {past : List Event}
    (h : Course stage s past t) (htidy : ∀ e ∈ past, e.Tidy) : stage.KeepsLevel s t := by
  induction h with
  | rest s => exact .refl s
  | token hs hx => exact .head hs hx
  | trans _ _ ih ih' =>
    obtain ⟨hpast, hmore⟩ := List.forall_mem_append.mp htidy
    exact (ih hpast).trans (ih' hmore)
  | block hs hx _ ht hy ih =>
    obtain ⟨hpast, -⟩ := List.forall_mem_append.mp htidy
    rcases ih hpast rfl with hnil | hlevel
    · rw [ht] at hnil
      cases hnil
    · exact .block hs hx hlevel ht hy
  | done stops s => exact fun _ => .inr (.refl s)
  | semicolon hs hx h ih =>
    intro hstops
    exact .trans (.inr (.head hs (by rw [hx]; rfl))) h.moved (ih htidy hstops)
  | kept _ _ _ _ h' ih ih' =>
    obtain ⟨hpast, hmore⟩ := List.forall_mem_append.mp htidy
    intro hstops
    exact .trans (.inr (ih hpast)) h'.moved (ih' (List.forall_mem_cons.mp hmore).2 hstops)
  | @dropped stops s t u d past more x xs hs hx h h' ih ih' =>
    obtain ⟨hpast, hmore⟩ := List.forall_mem_append.mp htidy
    obtain ⟨⟨hopen, hnest⟩, hmore⟩ := List.forall_mem_cons.mp hmore
    intro hstops
    -- Up to the error, over the lexeme that is passed at least, and to where reading goes on.
    have hbeyond : Level t (t.beyond s) := beyond_level hs hstops hx h.moved hopen
    have hfailed : LevelOrEnd s (t.beyond s) := .trans (ih hpast) (.beyond t s) (.inr hbeyond)
    have hskipped : LevelOrEnd s ((t.beyond s).resume d) :=
      hfailed.trans (.resume _ d) (resume_level d hnest)
    exact hskipped.trans h'.moved (ih' hmore hstops)
  | expected _ => exact .inr (.refl _)
  | target _ _ ih => exact .inr (ih htidy)
  | unclosed _ _ _ ht _ _ => exact .inl ht
  | later h h' ih ih' =>
    obtain ⟨hpast, hmore⟩ := List.forall_mem_append.mp htidy
    exact .trans (.inr (ih hpast)) h'.moved (ih' hmore)

/-- Inside a block only what happens there counts. -/
theorem Course.block_matches {stage : Stage} {s t : State} {past : List Event}
    (h : Course stage s past t) : ∀ e ∈ past, ∀ u v, e = .block u v →
      (∀ e' ∈ past, e'.start.ahead.length < u.ahead.length →
        v.ahead.length < e'.finish.ahead.length → e'.Tidy) →
      u.afterMatch? = some v.ahead := by
  refine h.forall_mem (List.Subset.refl past) ?_ ?_ ?_
  · rintro s t inner x y xs ys hs hx hinner ht hy hsub _ _ ⟨⟩ htidy
    have hlevel : LevelOrEnd (s.passed [x] xs) t := by
      refine hinner.keepsLevel (fun e he => htidy e (hsub he) ?_ ?_) rfl
      · have hstart := (hinner.between he).before.length_le
        rw [State.passed_ahead] at hstart
        rw [hs]
        exact Nat.lt_succ_of_le hstart
      · have hfinish := (hinner.between he).after.length_le
        rw [ht] at hfinish
        exact hfinish
    rcases hlevel with hnil | hlevel
    · rw [ht] at hnil
      cases hnil
    · have hmatch := hlevel 0
      rw [State.passed_ahead, ht, afterBrace_end hy] at hmatch
      simp [State.afterMatch?, hs, hx, hmatch]
  · rintro _ _ _ _ _ _ _ _ _ ⟨⟩
  · rintro _ _ _ _ _ _ _ _ _ ⟨⟩

/-- A block ends at the brace that matches the one it begins with, if the
statements that failed inside it are tidy. The events are those of a watched
reading that has the result of the reading. -/
theorem blocks_end_at_matching_brace (atEnd : Span) (lexemes : List Lexeme) :
    (∃ p t, program (.initial atEnd lexemes) = .ok p t ∧
      watching.program ⟨.initial atEnd lexemes, []⟩ = .ok p ⟨t, events atEnd lexemes⟩) ∧
    ∀ s t, .block s t ∈ events atEnd lexemes →
      (∀ e ∈ events atEnd lexemes, e.start.ahead.length < s.ahead.length →
        t.ahead.length < e.finish.ahead.length → e.Tidy) →
      s.afterMatch? = some t.ahead := by
  constructor
  · obtain ⟨p, t, more, hplain, hwatched, -, -⟩ := program_traces (.initial atEnd lexemes) []
    refine ⟨p, t, hplain, ?_⟩
    unfold events
    rw [hwatched]
  · obtain ⟨p, t, -, -, hcourse⟩ := program_course atEnd lexemes
    exact fun s t he => hcourse.block_matches _ he s t rfl

/-- What is skipped here holds a block, and the loop ends behind it. -/
theorem blocks_end_at_matching_brace_skipped :
    let source := "while true \x7b f(\x7b 3 \x7d) x \x7d"
    ∃ lexemes s t start failure finish, tokenize source = .ok lexemes ∧
      .block s t ∈ events (.atEnd source) lexemes ∧
      .tried start (some failure) finish ∈ events (.atEnd source) lexemes ∧
      failure.skipped.length = 5 ∧
      (∀ e ∈ events (.atEnd source) lexemes, e.start.ahead.length < s.ahead.length →
        t.ahead.length < e.finish.ahead.length → e.Tidy) ∧
      s.afterMatch? = some t.ahead := by
  intro source
  have htest : (tokenize source).toOption.any (fun lexemes =>
      (events (.atEnd source) lexemes).all (fun e => decide e.Tidy) &&
      ((events (.atEnd source) lexemes).any
        (fun | .block _ _ => true | .tried _ _ _ => false) &&
      (events (.atEnd source) lexemes).any
        (fun | .tried _ (some failure) _ => failure.skipped.length == 5 | _ => false))) = true := by
    decide +kernel
  obtain ⟨lexemes, hlexemes, hevents⟩ := exists_of_toOption_any htest
  have hmatches := (blocks_end_at_matching_brace (.atEnd source) lexemes).2
  generalize hpast : events (.atEnd source) lexemes = past at hevents hmatches
  rw [Bool.and_eq_true, Bool.and_eq_true] at hevents
  obtain ⟨htidy, hblock, hfailed⟩ := hevents
  have htidy := fun e he => of_decide_eq_true (List.all_eq_true.mp htidy e he)
  obtain ⟨block, hmem, hblock⟩ := List.any_eq_true.mp hblock
  obtain ⟨failed, hmem', hfailed⟩ := List.any_eq_true.mp hfailed
  rcases block with _ | ⟨s, t⟩
  · cases hblock
  rcases failed with ⟨start, _ | failure, finish⟩ | _
  · cases hfailed
  · refine ⟨lexemes, s, t, start, failure, finish, hlexemes, ?_⟩
    rw [hpast]
    exact ⟨hmem, hmem', beq_iff_eq.mp hfailed, fun e he _ _ => htidy e he,
      hmatches s t hmem fun e he _ _ => htidy e he⟩
  · cases hfailed

/-- A block of the text that leaves `left` lexemes, and should leave `due`. -/
def hasBlock (source : String) (due left : Nat) : Bool :=
  (tokenize source).toOption.any fun lexemes =>
    (events (.atEnd source) lexemes).any fun
      | .block s t => s.afterMatch?.map List.length == some due && t.ahead.length == left
      | .tried _ _ _ => false

theorem exists_of_hasBlock {source : String} {due left : Nat}
    (h : hasBlock source due left = true) : ∃ lexemes s t, tokenize source = .ok lexemes ∧
      .block s t ∈ events (.atEnd source) lexemes ∧
      s.afterMatch?.map List.length = some due ∧ t.ahead.length = left := by
  obtain ⟨lexemes, hlexemes, hevents⟩ := exists_of_toOption_any h
  obtain ⟨e, he, hblock⟩ := List.any_eq_true.mp hevents
  cases e with
  | tried _ _ _ => cases hblock
  | block s t =>
    rw [Bool.and_eq_true, beq_iff_eq, beq_iff_eq] at hblock
    exact ⟨lexemes, s, t, hlexemes, he, hblock⟩

/-- A statement that starts with a brace fails there, and the brace is passed
without being counted: the loop ends too early, at the brace that closes the
inner one. A closing brace that stands in an open parenthesis is skipped: the
loop ends too late. -/
theorem block_ends_elsewhere :
    let early := "while true \x7b \x7b x \x7d y \x7d"
    let late := "while true \x7b ) ( \x7d x \x7d"
    (∃ lexemes s t, tokenize early = .ok lexemes ∧ .block s t ∈ events (.atEnd early) lexemes ∧
      s.afterMatch?.map List.length = some 0 ∧ t.ahead.length = 2) ∧
    ∃ lexemes s t, tokenize late = .ok lexemes ∧ .block s t ∈ events (.atEnd late) lexemes ∧
      s.afterMatch?.map List.length = some 2 ∧ t.ahead.length = 0 := by
  intro early late
  exact ⟨exists_of_hasBlock (by decide +kernel), exists_of_hasBlock (by decide +kernel)⟩

end Quill.Reader
