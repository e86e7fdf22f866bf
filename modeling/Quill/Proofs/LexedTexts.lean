-- A text as the lexer reads it: pieces that are blanks or tokens, one after
-- the other, from a cursor that moves over them. The lexer succeeds exactly
-- if the text can be read in this way, and then there is only one way.
import Mathlib
import Quill.Token.Lexer

namespace Quill

/-! ## Cursors -/

theorem utf8Len_toList (source : String) : String.utf8Len source.toList = source.utf8ByteSize := by
  rw [← String.utf8ByteSize_ofList, String.ofList_toList]

/-- A place after some of the characters is a boundary between
characters. -/
theorem isValid_of_append {source : String} {before after : List Char}
    (h : source.toList = before ++ after) :
    String.Pos.Raw.IsValid source ⟨String.utf8Len before⟩ := by
  rw [String.Pos.Raw.isValid_iff_exists_append]
  refine ⟨String.ofList before, String.ofList after, ?_, ?_⟩
  · rw [← String.ofList_append, ← h, String.ofList_toList]
  · simp

namespace Cursor

theorem skip_append (here : Cursor) (xs ys : List Char) :
    here.skip (xs ++ ys) = (here.skip xs).skip ys := List.foldl_append

/-- A cursor moves by the bytes of what it skips. -/
theorem offset_skip (here : Cursor) (cs : List Char) :
    (here.skip cs).offset = here.offset + String.utf8Len cs := by
  unfold skip
  induction cs generalizing here with
  | nil => rfl
  | cons c cs ih =>
    have hstep : (here.step c).offset = here.offset + c.utf8Size := by
      unfold step
      split <;> rfl
    rw [List.foldl_cons, ih, hstep, String.utf8Len_cons]
    omega

/-- A cursor moves by the line feeds in what it skips. -/
theorem line_skip (here : Cursor) (cs : List Char) :
    (here.skip cs).line = here.line + cs.count '\n' := by
  unfold skip
  induction cs generalizing here with
  | nil => rfl
  | cons c cs ih =>
    rw [List.foldl_cons, ih]
    unfold step
    by_cases hc : c = '\n'
    · simp only [hc, ↓reduceIte, List.count_cons_self]
      omega
    · simp [hc]

end Cursor

namespace Lexer

/-! ## Pieces of text -/

theorem stringBody_cons {c : Char} (hquote : c ≠ '"') (hslash : c ≠ '\\') (cs : List Char) :
    stringBody (c :: cs) = (c :: (stringBody cs).1, (stringBody cs).2) := by
  rw [stringBody]
  · exact hquote
  · exact fun h _ => hslash h
  · exact fun _ _ h _ => hslash h

theorem stringBody_spec : (cs : List Char) →
    match stringBody cs with
    | (body, some rest) => body ++ '"' :: rest = cs
    | (body, none) => body <+: cs := by
  intro cs
  fun_induction stringBody cs with
  | case1 => exact List.nil_prefix
  | case2 rest => rfl
  | case3 => exact List.nil_prefix
  | case4 rest => exact List.nil_prefix
  | case5 c rest hc body after hbody ih =>
    rw [hbody] at ih
    cases after with
    | some after => simp [← ih]
    | none =>
      obtain ⟨tail, rfl⟩ := ih
      exact ⟨tail, rfl⟩
  | case6 c rest hquote hslash hslash' body after hbody ih =>
    rw [hbody] at ih
    cases after with
    | some after => simp [← ih]
    | none =>
      obtain ⟨tail, rfl⟩ := ih
      exact ⟨tail, rfl⟩

/-- A number is what stands before the rest. -/
theorem number_text (cs : List Char) : (number cs).text ++ (number cs).rest = cs := by
  have hcs : cs.takeWhile Char.isDigit ++ cs.dropWhile Char.isDigit = cs :=
    List.takeWhile_append_dropWhile
  unfold number
  split
  · rename_i d rest hrest
    rw [hrest] at hcs
    split
    · simpa [List.takeWhile_append_dropWhile] using hcs
    · exact hcs
  · exact hcs

theorem stringLiteral_text (cs : List Char) :
    (stringLiteral cs).text ++ (stringLiteral cs).rest = '"' :: cs := by
  have hspec := stringBody_spec cs
  unfold stringLiteral
  rcases hbody : stringBody cs with ⟨body, _ | rest⟩
  · rw [hbody] at hspec
    obtain ⟨tail, rfl⟩ := hspec
    simp
  · rw [hbody] at hspec
    simp [← hspec]

section First

variable {c : Char}

theorem piece_space (h : isSpace c = true) (cs : List Char) :
    piece c cs = ⟨.blank, c :: cs.takeWhile isSpace, cs.dropWhile isSpace⟩ := by simp [piece, h]

theorem piece_comment (cs : List Char) :
    piece '#' cs = ⟨.blank, '#' :: cs.takeWhile (· ≠ '\n'), cs.dropWhile (· ≠ '\n')⟩ := rfl

/-- A character of a name begins neither a row of blanks nor a comment. -/
theorem not_blank_of_isNameChar (h : isNameChar c = true) : isSpace c ≠ true ∧ c ≠ '#' := by
  constructor
  · intro hspace
    simp only [isSpace, Bool.or_eq_true, decide_eq_true_eq] at hspace
    obtain ((rfl | rfl) | rfl) | rfl := hspace <;> cases h
  · rintro rfl
    cases h

theorem isNameChar_of_isDigit (h : c.isDigit = true) : isNameChar c = true := by
  simp [isNameChar, Char.isAlphanum, h]

theorem isNameChar_of_isNameStart (h : isNameStart c = true) : isNameChar c = true := by
  simp only [isNameStart, isNameChar, Char.isAlphanum, Bool.or_eq_true] at h ⊢
  exact h.imp_left Or.inl

/-- No name begins with a digit. -/
theorem isNameStart_of_isDigit (h : c.isDigit = true) : isNameStart c ≠ true := by
  intro hstart
  simp only [Char.isDigit, Bool.and_eq_true, decide_eq_true_eq] at h
  simp only [isNameStart, Char.isAlpha, Char.isUpper, Char.isLower, Bool.or_eq_true,
    Bool.and_eq_true, decide_eq_true_eq] at hstart
  obtain (hc | hc) | rfl := hstart
  · exact absurd (UInt32.le_trans hc.1 h.2) (by decide)
  · exact absurd (UInt32.le_trans hc.1 h.2) (by decide)
  · exact absurd h.2 (by decide)

theorem piece_digit (h : c.isDigit = true) (cs : List Char) : piece c cs = number (c :: cs) := by
  obtain ⟨hspace, hcomment⟩ := not_blank_of_isNameChar (isNameChar_of_isDigit h)
  simp [piece, hspace, hcomment, h]

theorem piece_name (h : isNameStart c = true) (cs : List Char) :
    piece c cs = ⟨.token (nameToken (c :: cs.takeWhile isNameChar)),
      c :: cs.takeWhile isNameChar, cs.dropWhile isNameChar⟩ := by
  obtain ⟨hspace, hcomment⟩ := not_blank_of_isNameChar (isNameChar_of_isNameStart h)
  have hdigit : c.isDigit ≠ true := fun hd => isNameStart_of_isDigit hd h
  simp [piece, hspace, hcomment, hdigit, h]

theorem piece_other (hspace : isSpace c ≠ true) (hcomment : c ≠ '#') (hdigit : c.isDigit ≠ true)
    (hstart : isNameStart c ≠ true) (hquote : c ≠ '"') (cs : List Char) :
    piece c cs = match symbol? c cs.head? with
      | some (mark, more) => ⟨.token (.symbol mark), c :: cs.take more, cs.drop more⟩
      | none => ⟨.error (.unexpected (String.ofList [c])), [c], cs⟩ := by
  rewrite [piece, if_neg hspace, if_neg hcomment, if_neg hdigit, if_neg hstart, if_neg hquote]
  rfl

end First

/-- A piece is what stands before the rest. -/
theorem piece_text (c : Char) (cs : List Char) :
    (piece c cs).text ++ (piece c cs).rest = c :: cs := by
  unfold piece
  split
  · simp [List.takeWhile_append_dropWhile]
  split
  · simp [List.takeWhile_append_dropWhile]
  split
  · exact number_text (c :: cs)
  split
  · simp [List.takeWhile_append_dropWhile]
  split
  · rename_i hquote
    rw [hquote]
    exact stringLiteral_text cs
  · split
    · simp
    · rfl

/-- A piece is not empty. -/
theorem piece_text_ne_nil (c : Char) (cs : List Char) : (piece c cs).text ≠ [] := by
  unfold piece
  split
  · exact List.cons_ne_nil _ _
  split
  · exact List.cons_ne_nil _ _
  split
  · rename_i hdigit
    unfold number
    simp only [List.takeWhile_cons, hdigit]
    split
    · split <;> simp
    · simp
  split
  · exact List.cons_ne_nil _ _
  split
  · unfold stringLiteral
    split <;> simp
  · split <;> simp

theorem length_rest_lt (c : Char) (cs : List Char) :
    (piece c cs).rest.length < (c :: cs).length := by
  have htext := congrArg List.length (piece_text c cs)
  have hpos := List.length_pos_iff.mpr (piece_text_ne_nil c cs)
  rw [List.length_append] at htext
  omega

/-! ## Lexed texts -/

/-- The text that begins at a cursor consists of these lexemes, with
blanks around them. -/
inductive Lexed : Cursor → List Char → List Lexeme → Prop
  | nil (here : Cursor) : Lexed here [] []
  | blank {here : Cursor} {c : Char} {cs : List Char} {lexemes : List Lexeme} :
      (piece c cs).reading = .blank →
      Lexed (here.skip (piece c cs).text) (piece c cs).rest lexemes →
      Lexed here (c :: cs) lexemes
  | token {here : Cursor} {c : Char} {cs : List Char} {t : Token} {lexemes : List Lexeme} :
      (piece c cs).reading = .token t →
      Lexed (here.skip (piece c cs).text) (piece c cs).rest lexemes →
      Lexed here (c :: cs) (⟨t, .between here (here.skip (piece c cs).text)⟩ :: lexemes)

section Lexed

variable {here : Cursor} {c : Char} {cs : List Char} {lexemes : List Lexeme}

theorem lexed_nil_iff : Lexed here [] lexemes ↔ lexemes = [] := by
  constructor
  · intro h
    cases h
    rfl
  · rintro rfl
    exact .nil here

theorem lexed_blank_iff (hr : (piece c cs).reading = .blank) :
    Lexed here (c :: cs) lexemes ↔
      Lexed (here.skip (piece c cs).text) (piece c cs).rest lexemes := by
  constructor
  · intro h
    cases h with
    | blank _ h => exact h
    | token hr' _ =>
      rw [hr] at hr'
      cases hr'
  · exact .blank hr

theorem lexed_token_iff {t : Token} (hr : (piece c cs).reading = .token t) :
    Lexed here (c :: cs) lexemes ↔
      ∃ ls, lexemes = ⟨t, .between here (here.skip (piece c cs).text)⟩ :: ls ∧
        Lexed (here.skip (piece c cs).text) (piece c cs).rest ls := by
  constructor
  · intro h
    cases h with
    | blank hr' _ =>
      rw [hr] at hr'
      cases hr'
    | token hr' h =>
      rw [hr] at hr'
      cases hr'
      exact ⟨_, rfl, h⟩
  · rintro ⟨ls, rfl, h⟩
    exact .token hr h

theorem not_lexed_of_error {e : LexError} (hr : (piece c cs).reading = .error e) :
    ¬ Lexed here (c :: cs) lexemes := by
  intro h
  cases h with
  | blank hr' _ =>
    rw [hr] at hr'
    cases hr'
  | token hr' _ =>
    rw [hr] at hr'
    cases hr'

theorem lexemesFrom_eq_ok_iff {steps : Nat} (hsteps : cs.length ≤ steps) :
    lexemesFrom steps here cs = .ok lexemes ↔ Lexed here cs lexemes := by
  induction steps generalizing here cs lexemes with
  | zero =>
    obtain rfl : cs = [] := List.length_eq_zero_iff.mp (Nat.le_zero.mp hsteps)
    rw [lexemesFrom, lexed_nil_iff, Except.ok.injEq, eq_comm]
  | succ steps ih =>
    cases cs with
    | nil => simp [lexemesFrom, lexed_nil_iff, eq_comm]
    | cons c cs =>
      have hlt := length_rest_lt c cs
      have hrest : (piece c cs).rest.length ≤ steps := by omega
      rw [lexemesFrom]
      rcases hr : (piece c cs).reading with _ | t | e
      · rw [lexed_blank_iff hr]
        exact ih hrest
      · simp only [lexed_token_iff hr, ← ih hrest]
        rcases lexemesFrom steps (here.skip (piece c cs).text) (piece c cs).rest with e | ls
        · simp [Except.map]
        · simp [Except.map, eq_comm]
      · simp [not_lexed_of_error hr]

end Lexed

/-! ## Rows of blanks -/

/-- A row of blanks is one piece. -/
theorem lexed_row_iff {here : Cursor} {c : Char} {cs : List Char} {lexemes : List Lexeme}
    (h : isSpace c = true) : Lexed here (c :: cs) lexemes ↔
      Lexed (here.skip (c :: cs.takeWhile isSpace)) (cs.dropWhile isSpace) lexemes := by
  have hpiece := piece_space h cs
  rw [lexed_blank_iff (by rw [hpiece]), hpiece]

/-- Each character of a row of blanks can be skipped alone. -/
theorem lexed_space_iff {here : Cursor} {c : Char} {cs : List Char} {lexemes : List Lexeme}
    (h : isSpace c = true) : Lexed here (c :: cs) lexemes ↔ Lexed (here.step c) cs lexemes := by
  rw [lexed_row_iff h]
  rcases cs with _ | ⟨d, cs⟩
  · exact Iff.rfl
  · by_cases hd : isSpace d = true
    · rw [lexed_row_iff hd, List.takeWhile_cons_of_pos hd, List.dropWhile_cons_of_pos hd]
      exact Iff.rfl
    · rw [List.takeWhile_cons_of_neg hd, List.dropWhile_cons_of_neg hd]
      exact Iff.rfl

theorem lexed_spaces_iff {here : Cursor} {xs cs : List Char} {lexemes : List Lexeme}
    (h : ∀ x ∈ xs, isSpace x = true) :
    Lexed here (xs ++ cs) lexemes ↔ Lexed (here.skip xs) cs lexemes := by
  induction xs generalizing here with
  | nil => exact Iff.rfl
  | cons x xs ih =>
    rw [List.cons_append, lexed_space_iff (h x List.mem_cons_self),
      ih fun y hy => h y (List.mem_cons_of_mem x hy)]
    exact Iff.rfl

end Lexer

/-- A result that is there, and of which a test says yes. -/
theorem exists_of_toOption_any {ε α : Type} {r : Except ε α} {P : α → Bool}
    (h : r.toOption.any P = true) : ∃ a, r = .ok a ∧ P a = true := by
  cases r with
  | error e => cases h
  | ok a => exact ⟨a, rfl, h⟩

theorem tokenize_eq_ok_iff {source : String} {lexemes : List Lexeme} :
    tokenize source = .ok lexemes ↔ Lexer.Lexed .start source.toList lexemes :=
  Lexer.lexemesFrom_eq_ok_iff le_rfl

end Quill
