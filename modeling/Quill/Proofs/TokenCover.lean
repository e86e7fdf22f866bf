-- The tokens of a source and what lies between them. A source that can be
-- read is a row of tokens with gaps around them, and a gap holds blanks and
-- comments only; nothing is lost between two tokens and nothing is read
-- twice.
import Mathlib
import Quill.Proofs.SpelledTexts

namespace Quill.Lexer

/-! ## Gaps -/

/-- Blanks and comments, before some text. A comment goes on to the end of
its line. -/
inductive Gap : List Char → List Char → Prop
  | nil (after : List Char) : Gap [] after
  | space {c : Char} {gap after : List Char} :
      isSpace c = true → Gap gap after → Gap (c :: gap) after
  | comment {body gap after : List Char} :
      '\n' ∉ body → (∀ x, (gap ++ after).head? = some x → x = '\n') → Gap gap after →
      Gap ('#' :: (body ++ gap)) after

theorem Gap.spaces {row gap after : List Char} (hrow : ∀ c ∈ row, isSpace c = true)
    (h : Gap gap after) : Gap (row ++ gap) after := by
  induction row with
  | nil => exact h
  | cons c row ih =>
    exact .space (hrow c List.mem_cons_self) (ih fun x hx => hrow x (List.mem_cons_of_mem c hx))

theorem number_ne_blank (cs : List Char) : (number cs).reading ≠ .blank := by
  have hint : ∀ digits, intReading digits ≠ .blank := by
    intro digits
    unfold intReading
    simp only
    split <;> simp
  unfold number
  simp only
  split
  · split
    · simp
    · exact hint _
  · exact hint _

theorem stringLiteral_ne_blank (cs : List Char) : (stringLiteral cs).reading ≠ .blank := by
  unfold stringLiteral
  split <;> simp

/-- A blank piece is a row of blanks or a comment. -/
theorem isSpace_or_comment_of_blank {c : Char} {cs : List Char}
    (h : (piece c cs).reading = .blank) : isSpace c = true ∨ c = '#' := by
  by_contra hc
  obtain ⟨hspace, hcomment⟩ := not_or.mp hc
  by_cases hdigit : c.isDigit = true
  · rw [piece_digit hdigit] at h
    exact number_ne_blank _ h
  by_cases hstart : isNameStart c = true
  · rw [piece_name hstart] at h
    cases h
  by_cases hquote : c = '"'
  · subst hquote
    exact stringLiteral_ne_blank cs h
  rw [piece_other hspace hcomment hdigit hstart hquote] at h
  split at h <;> cases h

/-- A blank piece makes the gap after it longer. -/
theorem Gap.piece {c : Char} {cs gap after : List Char} (hr : (piece c cs).reading = .blank)
    (hrest : (piece c cs).rest = gap ++ after) (h : Gap gap after) :
    Gap ((piece c cs).text ++ gap) after := by
  rcases isSpace_or_comment_of_blank hr with hspace | rfl
  · rw [piece_space hspace]
    refine Gap.spaces (fun x hx => ?_) h
    rcases List.mem_cons.mp hx with rfl | hx
    · exact hspace
    · exact List.mem_takeWhile_imp hx
  · rw [piece_comment] at hrest ⊢
    refine .comment (fun hnl => ?_) (fun x hx => ?_) h
    · simpa using List.mem_takeWhile_imp hnl
    · rw [← hrest] at hx
      have hstop := List.head?_dropWhile_not (fun c => decide (c ≠ '\n')) cs
      rw [hx] at hstop
      simpa using hstop

/-! ## Rows of tokens -/

/-- The text that begins at a cursor is a row of these lexemes: a gap, a
token, and so on, and a gap at the end. -/
inductive Tiled : Cursor → List Char → List Lexeme → Prop
  | last {here : Cursor} {gap : List Char} : Gap gap [] → Tiled here gap []
  | token {here : Cursor} {gap text rest : List Char} {t : Token} {lexemes : List Lexeme} :
      Gap gap (text ++ rest) → Spells text t → Longest text rest →
      Tiled (here.skip (gap ++ text)) rest lexemes →
      Tiled here (gap ++ text ++ rest)
        (⟨t, .between (here.skip gap) (here.skip (gap ++ text))⟩ :: lexemes)

theorem Lexed.tiled {here : Cursor} {cs : List Char} {lexemes : List Lexeme}
    (h : Lexed here cs lexemes) : Tiled here cs lexemes := by
  induction h with
  | nil here => exact .last (.nil [])
  | @blank here c cs lexemes hr _ ih =>
    rw [← piece_text c cs]
    generalize hrest : (piece c cs).rest = rest at ih
    cases ih with
    | last hgap => exact .last (hgap.piece hr (by simpa using hrest))
    | token hgap hspells hlongest htiled =>
      rw [List.append_assoc] at hrest
      rw [← Cursor.skip_append, ← List.append_assoc] at htiled
      have := Tiled.token (hgap.piece hr hrest) hspells hlongest htiled
      simpa only [Cursor.skip_append, List.append_assoc] using this
  | @token here c cs t lexemes hr _ ih =>
    obtain ⟨hspells, hlongest⟩ := piece_token hr
    have := Tiled.token (.nil _) hspells hlongest ih
    rwa [List.nil_append, piece_text] at this

namespace Tiled

variable {here : Cursor} {cs : List Char} {lexemes : List Lexeme}

/-- Every lexeme has its stretch of the text. -/
theorem stretch (h : Tiled here cs lexemes) {x : Lexeme} (hx : x ∈ lexemes) :
    ∃ before text after, cs = before ++ text ++ after ∧
      x.span = .between (here.skip before) (here.skip (before ++ text)) ∧
      Spells text x.token ∧ Longest text after := by
  induction h with
  | last _ => cases hx
  | @token here gap text rest t lexemes _ hspells hlongest _ ih =>
    rcases List.mem_cons.mp hx with rfl | hx
    · exact ⟨gap, text, rest, rfl, rfl, hspells, hlongest⟩
    · obtain ⟨before, text', after, rfl, hspan, hspells', hlongest'⟩ := ih hx
      refine ⟨gap ++ text ++ before, text', after, by simp, ?_, hspells', hlongest'⟩
      rw [hspan, ← Cursor.skip_append, ← Cursor.skip_append, List.append_assoc _ before]

/-- A row begins no sooner than its cursor. -/
theorem offset_le (h : Tiled here cs lexemes) {x : Lexeme} (hx : x ∈ lexemes) :
    here.offset ≤ x.span.start := by
  obtain ⟨before, text, after, -, hspan, -⟩ := h.stretch hx
  rw [hspan]
  show here.offset ≤ (here.skip before).offset
  rw [Cursor.offset_skip]
  omega

/-- Each lexeme of a row ends before the next ones begin. -/
theorem ordered (h : Tiled here cs lexemes) :
    lexemes.Pairwise fun x y => x.span.stop ≤ y.span.start := by
  induction h with
  | last _ => exact .nil
  | token _ _ _ htiled ih => exact .cons (fun y hy => htiled.offset_le hy) ih

/-- Where a row is cut in two there is a gap, from the end of the first
part to the start of the second. -/
theorem gap (h : Tiled here cs lexemes) {xs ys : List Lexeme} (hcut : lexemes = xs ++ ys) :
    ∃ before gap after, cs = before ++ gap ++ after ∧ Gap gap after ∧
      (here.skip before).offset = xs.getLast?.elim here.offset (·.span.stop) ∧
      (here.skip (before ++ gap)).offset =
        ys.head?.elim (here.skip cs).offset (·.span.start) := by
  induction h generalizing xs with
  | @last here gap hgap =>
    obtain ⟨rfl, rfl⟩ := List.append_eq_nil_iff.mp hcut.symm
    exact ⟨[], gap, [], by simp, hgap, rfl, rfl⟩
  | @token here gap text rest t lexemes hgap _ _ _ ih =>
    rcases xs with _ | ⟨x, xs⟩
    · subst hcut
      exact ⟨[], gap, text ++ rest, by simp, hgap, rfl, rfl⟩
    · rw [List.cons_append, List.cons.injEq] at hcut
      obtain ⟨rfl, hcut⟩ := hcut
      obtain ⟨before, gap', after, rfl, hgap', hstop, hstart⟩ := ih hcut
      refine ⟨gap ++ text ++ before, gap', after, by simp, hgap', ?_, ?_⟩
      · rw [Cursor.skip_append, hstop, List.getLast?_cons]
        cases xs.getLast? <;> rfl
      · rw [List.append_assoc, Cursor.skip_append, hstart, Cursor.skip_append _ (gap ++ text)]

end Tiled

/-! ## Whole sources -/

/-- The lexemes account for every character of a source. -/
structure Covers (source : String) (lexemes : List Lexeme) : Prop where
  /-- Every token is the one that its text spells, and no pattern matches
  more of the source from where it starts. -/
  spelled : ∀ x ∈ lexemes, ∃ before text after, source.toList = before ++ text ++ after ∧
    x.span.start = String.utf8Len before ∧ x.span.stop = String.utf8Len (before ++ text) ∧
    (∀ t, Spells text t ↔ t = x.token) ∧ Longest text after
  bounded : ∀ x ∈ lexemes, x.span.start < x.span.stop ∧ x.span.stop ≤ source.utf8ByteSize
  boundaries : ∀ x ∈ lexemes, String.Pos.Raw.IsValid source ⟨x.span.start⟩ ∧
    String.Pos.Raw.IsValid source ⟨x.span.stop⟩
  ordered : lexemes.Pairwise fun x y => x.span.stop ≤ y.span.start
  /-- Before the first token, after the last one and between any two that
  follow one another there are only blanks and comments. -/
  gaps : ∀ xs ys, lexemes = xs ++ ys → ∃ before gap after,
    source.toList = before ++ gap ++ after ∧ Gap gap after ∧
    String.utf8Len before = xs.getLast?.elim 0 (·.span.stop) ∧
    String.utf8Len (before ++ gap) = ys.head?.elim source.utf8ByteSize (·.span.start)

/-- A source is covered by its lexemes. -/
theorem tokens_cover_source {source : String} {lexemes : List Lexeme}
    (h : tokenize source = .ok lexemes) : Covers source lexemes := by
  have htiled := (tokenize_eq_ok_iff.mp h).tiled
  have hoffset : ∀ cs, (Cursor.start.skip cs).offset = String.utf8Len cs := fun cs => by
    rw [Cursor.offset_skip]
    exact Nat.zero_add _
  have hstretch : ∀ x ∈ lexemes, ∃ before text after, source.toList = before ++ text ++ after ∧
      x.span.start = String.utf8Len before ∧ x.span.stop = String.utf8Len (before ++ text) ∧
      Spells text x.token ∧ Longest text after := by
    intro x hx
    obtain ⟨before, text, after, hsource, hspan, hspells⟩ := htiled.stretch hx
    refine ⟨before, text, after, hsource, ?_, ?_, hspells⟩
    · rw [hspan, ← hoffset]
      rfl
    · rw [hspan, ← hoffset]
      rfl
  refine ⟨fun x hx => ?_, fun x hx => ?_, fun x hx => ?_, htiled.ordered, fun xs ys hcut => ?_⟩
  · obtain ⟨before, text, after, hsource, hstart, hstop, hspells, hlongest⟩ := hstretch x hx
    refine ⟨before, text, after, hsource, hstart, hstop, fun t => ⟨?_, ?_⟩, hlongest⟩
    · exact fun ht => ht.unique hspells
    · rintro rfl
      exact hspells
  · obtain ⟨before, text, after, hsource, hstart, hstop, hspells, -⟩ := hstretch x hx
    have hpos : String.utf8Len text ≠ 0 := by
      rw [ne_eq, String.utf8Len_eq_zero]
      exact hspells.ne_nil
    rw [hstart, hstop, ← utf8Len_toList, hsource]
    simp only [String.utf8Len_append]
    omega
  · obtain ⟨before, text, after, hsource, hstart, hstop, -⟩ := hstretch x hx
    rw [hstart, hstop]
    exact ⟨isValid_of_append (hsource.trans (List.append_assoc ..)), isValid_of_append hsource⟩
  · obtain ⟨before, gap, after, hsource, hgap, hstop, hstart⟩ := htiled.gap hcut
    rw [hoffset] at hstop
    rw [hoffset, hoffset, utf8Len_toList] at hstart
    exact ⟨before, gap, after, hsource, hgap, hstop, hstart⟩

/-- Comments, escapes, letters of more than one byte, and tokens that begin
like others. -/
theorem tokens_cover_source_mixed :
    let source := "iffy<-1..2.5 # é <-\n\t\"é\\\"#\"<=-if"
    ∃ lexemes, tokenize source = .ok lexemes ∧ lexemes.length = 9 ∧ Covers source lexemes := by
  intro source
  obtain ⟨lexemes, hlexemes, hlength⟩ := exists_of_toOption_any
    (r := tokenize source) (P := (·.length = 9)) (by decide +kernel)
  exact ⟨lexemes, hlexemes, of_decide_eq_true hlength, tokens_cover_source hlexemes⟩

end Quill.Lexer
