-- Texts with a line between them that holds nothing but a semicolon. Where
-- a text ends, a line feed changes no token of it, so the tokens of the
-- joined text are those of its parts with the semicolon between them. The
-- statements of the parts follow one another; those of the first keep their
-- spans, and those of the second are shifted.
import Mathlib
import Quill.Compile
import Quill.Proofs.GrammarTransfer
import Quill.Proofs.LexedTexts
import Quill.Proofs.ProgramCompleteness

namespace Quill

/-! ## Shifted places -/

/-- The cursor so many bytes and lines further on, in the same column. -/
def Cursor.shift (bytes lines : Nat) (here : Cursor) : Cursor :=
  ⟨here.offset + bytes, here.line + lines, here.column⟩

/-- The span so many bytes and lines further on, in the same column. -/
def Span.shift (bytes lines : Nat) (s : Span) : Span :=
  ⟨s.start + bytes, s.stop + bytes, s.line + .ofNat lines, s.column⟩

theorem Span.shift_between (bytes lines : Nat) (first last : Cursor) :
    Span.shift bytes lines (.between first last) =
      .between (first.shift bytes lines) (last.shift bytes lines) := by
  rw [Span.between, Span.between, Span.shift, Cursor.shift, Cursor.shift, UInt32.ofNat_add]

theorem Cursor.skip_shift (bytes lines : Nat) (here : Cursor) (cs : List Char) :
    (here.shift bytes lines).skip cs = (here.skip cs).shift bytes lines := by
  unfold skip
  induction cs generalizing here with
  | nil => rfl
  | cons c cs ih =>
    have hstep : (here.shift bytes lines).step c = (here.step c).shift bytes lines := by
      unfold step shift
      split
      · simp only [Cursor.mk.injEq, and_true]
        omega
      · simp only [Cursor.mk.injEq, and_true]
        omega
    rw [List.foldl_cons, List.foldl_cons, hstep, ih]

/-- How far a source moves what stands after it and a line with a
semicolon. -/
def Span.shiftPast (source : String) : Span → Span :=
  .shift (source.utf8ByteSize + 3) (source.toList.count '\n' + 2)

namespace Lexer

/-! ## A line feed after a text -/

/-- What is taken from a text and what is left, if the taking ends within
the text or before the next character. -/
theorem takeWhile_dropWhile_append {p : Char → Bool} {x : Char} {xs : List Char}
    (h : xs.dropWhile p ≠ [] ∨ p x = false) (ys : List Char) :
    (xs ++ x :: ys).takeWhile p = xs.takeWhile p ∧
      (xs ++ x :: ys).dropWhile p = xs.dropWhile p ++ x :: ys := by
  induction xs with
  | nil =>
    rcases h with h | h
    · exact absurd rfl h
    · simp [h]
  | cons y xs ih =>
    by_cases hy : p y = true
    · simp only [List.dropWhile_cons, hy, ↓reduceIte] at h
      simp [hy, ih h]
    · simp [hy]

theorem takeWhile_append_stop {p : Char → Bool} {x : Char} (hx : p x = false) (xs ys : List Char) :
    (xs ++ x :: ys).takeWhile p = xs.takeWhile p := (takeWhile_dropWhile_append (Or.inr hx) ys).1

theorem dropWhile_append_stop {p : Char → Bool} {x : Char} (hx : p x = false) (xs ys : List Char) :
    (xs ++ x :: ys).dropWhile p = xs.dropWhile p ++ x :: ys :=
  (takeWhile_dropWhile_append (Or.inr hx) ys).2

/-- The piece with more text after it. -/
def Piece.before (p : Piece) (more : List Char) : Piece := { p with rest := p.rest ++ more }

theorem number_append (cs tail : List Char) :
    number (cs ++ '\n' :: tail) = (number cs).before ('\n' :: tail) := by
  have hnl : Char.isDigit '\n' = false := by decide
  unfold number
  rw [takeWhile_append_stop hnl, dropWhile_append_stop hnl]
  generalize cs.dropWhile Char.isDigit = rest
  rcases rest with _ | ⟨c, rest⟩
  · simp [Piece.before]
  · by_cases hc : c = '.'
    · subst hc
      rcases rest with _ | ⟨d, rest⟩
      · simp [Piece.before, hnl]
      · simp only [List.cons_append, takeWhile_append_stop hnl, dropWhile_append_stop hnl]
        split <;> rfl
    · simp [Piece.before, hc]

theorem stringBody_append {cs body rest : List Char} (h : stringBody cs = (body, some rest))
    (more : List Char) : stringBody (cs ++ more) = (body, some (rest ++ more)) := by
  fun_induction stringBody cs generalizing body rest with
  | case1 => cases h
  | case2 rest => cases h; rfl
  | case3 => cases h
  | case4 rest => cases h
  | case5 c rest hc body after hbody ih =>
    cases h
    simp [stringBody, hc, ih hbody]
  | case6 c cs hquote hslash hslash' body after hbody ih =>
    cases h
    have hc : c ≠ '\\' := by
      rintro rfl
      cases cs with
      | nil => exact hslash rfl rfl
      | cons d cs => exact hslash' d cs rfl rfl
    rw [List.cons_append, stringBody_cons hquote hc, ih hbody]

theorem symbol?_newline (c : Char) : symbol? c (some '\n') = symbol? c none := by
  unfold symbol?
  split <;> simp_all

/-- A symbol has no more characters than there are. -/
theorem symbol?_length {c : Char} {cs : List Char} {mark : Symbol} {more : Nat}
    (h : symbol? c cs.head? = some (mark, more)) : more ≤ cs.length := by
  cases cs with
  | nil =>
    rw [List.head?_nil] at h
    unfold symbol? at h
    split at h <;> simp_all
  | cons d cs =>
    unfold symbol? at h
    split at h <;> simp_all <;> omega

theorem symbol?_append (c : Char) (cs tail : List Char) :
    symbol? c (cs ++ '\n' :: tail).head? = symbol? c cs.head? := by
  cases cs with
  | nil => exact symbol?_newline c
  | cons d cs => rfl

theorem stringLiteral_append {cs : List Char} (more : List Char)
    (h : ∀ e, (stringLiteral cs).reading ≠ .error e) :
    stringLiteral (cs ++ more) = (stringLiteral cs).before more := by
  unfold stringLiteral at *
  rcases hbody : stringBody cs with ⟨body, _ | rest⟩
  · rw [hbody] at h
    exact absurd rfl (h _)
  · simp only [stringBody_append hbody]
    rfl

/-- A line feed does not change the piece before it, unless the piece is a
row of blanks that goes on. -/
theorem piece_append (c : Char) (cs tail : List Char)
    (h : ∀ e, (piece c cs).reading ≠ .error e)
    (hblank : isSpace c = true → (piece c cs).rest ≠ []) :
    piece c (cs ++ '\n' :: tail) = (piece c cs).before ('\n' :: tail) := by
  have hname : isNameChar '\n' = false := by decide
  have hline : (fun c => decide (c ≠ '\n')) '\n' = false := by decide
  by_cases hspace : isSpace c = true
  · have hrest := hblank hspace
    rw [piece_space hspace] at hrest
    obtain ⟨htake, hdrop⟩ := takeWhile_dropWhile_append (Or.inl hrest) (x := '\n') tail
    rw [piece_space hspace, piece_space hspace, htake, hdrop]
    rfl
  by_cases hcomment : c = '#'
  · subst hcomment
    rw [piece_comment, piece_comment, takeWhile_append_stop hline, dropWhile_append_stop hline]
    rfl
  by_cases hdigit : c.isDigit = true
  · rw [piece_digit hdigit, piece_digit hdigit]
    exact number_append (c :: cs) tail
  by_cases hstart : isNameStart c = true
  · rw [piece_name hstart, piece_name hstart, takeWhile_append_stop hname,
      dropWhile_append_stop hname]
    rfl
  by_cases hquote : c = '"'
  · subst hquote
    exact stringLiteral_append _ h
  · rw [piece_other hspace hcomment hdigit hstart hquote] at h ⊢
    rw [piece_other hspace hcomment hdigit hstart hquote, symbol?_append]
    rcases hsymbol : symbol? c cs.head? with _ | ⟨mark, more⟩
    · rw [hsymbol] at h
      exact absurd rfl (h _)
    · have hle := symbol?_length hsymbol
      simp only [Piece.before, List.take_append_of_le_length hle, List.drop_append_of_le_length hle]

/-! ## One text after the other -/

/-- A text and one that begins with a line feed have the lexemes of both. -/
theorem Lexed.append {here : Cursor} {cs tail : List Char} {lexemes more : List Lexeme}
    (h : Lexed here cs lexemes) (h' : Lexed (here.skip cs) ('\n' :: tail) more) :
    Lexed here (cs ++ '\n' :: tail) (lexemes ++ more) := by
  induction h with
  | nil here => exact h'
  | @blank here c cs lexemes hr hl ih =>
    rw [← piece_text c cs, Cursor.skip_append] at h'
    by_cases hlast : isSpace c = true ∧ (piece c cs).rest = []
    · -- the blanks go on behind the line feed
      obtain ⟨hspace, hrest⟩ := hlast
      have hspaces : ∀ x ∈ c :: cs, isSpace x = true := by
        rw [piece_space hspace, List.dropWhile_eq_nil_iff] at hrest
        simpa using ⟨hspace, hrest⟩
      rw [hrest] at hl
      cases hl
      rw [lexed_spaces_iff hspaces, ← piece_text c cs, Cursor.skip_append]
      exact h'
    · have hpiece := piece_append c cs tail (by simp [hr])
        fun hspace hrest => hlast ⟨hspace, hrest⟩
      rw [List.cons_append]
      exact .blank (by rw [hpiece]; exact hr) (by rw [hpiece]; exact ih h')
  | @token here c cs t lexemes hr hl ih =>
    rw [← piece_text c cs, Cursor.skip_append] at h'
    have hpiece := piece_append c cs tail (by simp [hr]) fun hspace => by
      rw [piece_space hspace] at hr
      cases hr
    have htoken : Lexed here (c :: (cs ++ '\n' :: tail)) _ :=
      .token (by rw [hpiece]; exact hr) (by rw [hpiece]; exact ih h')
    rw [hpiece] at htoken
    exact htoken

/-- A text has the same lexemes wherever it begins in a line, shifted. -/
theorem Lexed.shift {here : Cursor} {cs : List Char} {lexemes : List Lexeme}
    (h : Lexed here cs lexemes) (bytes lines : Nat) :
    Lexed (here.shift bytes lines) cs (lexemes.map (·.respan (.shift bytes lines))) := by
  induction h with
  | nil => exact .nil _
  | @blank here c cs lexemes hr _ ih =>
    rw [← Cursor.skip_shift] at ih
    exact .blank hr ih
  | @token here c cs t lexemes hr _ ih =>
    rw [← Cursor.skip_shift] at ih
    rw [List.map_cons, Lexeme.respan, Span.shift_between, ← Cursor.skip_shift]
    exact .token hr ih

/-- Two texts with a semicolon on a line between them. -/
theorem Lexed.join {cs cs' : List Char} {lexemes lexemes' : List Lexeme}
    (h : Lexed .start cs lexemes) (h' : Lexed .start cs' lexemes') :
    ∃ mark, mark.token = .symbol .semi ∧
      Lexed .start (cs ++ '\n' :: ';' :: '\n' :: cs') (lexemes ++ mark :: lexemes'.map
        (·.respan (.shift (String.utf8Len cs + 3) (cs.count '\n' + 2)))) := by
  have hspace : isSpace '\n' = true := by decide
  let before := (Cursor.start.skip cs).step '\n'
  have hafter : (before.skip [';']).step '\n' =
      Cursor.start.shift (String.utf8Len cs + 3) (cs.count '\n' + 2) := by
    have hoffset := Cursor.offset_skip .start cs
    have hline := Cursor.line_skip .start cs
    simp only [before, Cursor.skip, Cursor.step, List.foldl_cons, List.foldl_nil, Cursor.shift,
      Char.reduceEq, ↓reduceIte, Cursor.mk.injEq] at hoffset hline ⊢
    refine ⟨?_, ?_, rfl⟩
    · rw [hoffset]
      rfl
    · rw [hline]
      rfl
  have hmore := h'.shift (String.utf8Len cs + 3) (cs.count '\n' + 2)
  rw [← hafter] at hmore
  have hmark : Lexed before (';' :: '\n' :: cs') _ :=
    .token (t := .symbol .semi) rfl ((lexed_space_iff hspace).mpr hmore)
  exact ⟨_, rfl, h.append ((lexed_space_iff hspace).mpr hmark)⟩

end Lexer

/-! ## Programs of joined sources -/

theorem parseSource_eq_ok_iff {source : String} {p : Program} :
    parseSource source = .ok p ↔ ∃ lexemes, Lexer.Lexed .start source.toList lexemes ∧
      Grammar.Items Grammar.Stops lexemes p.statements [] := by
  simp only [← tokenize_eq_ok_iff, ← parseLexemes_eq_ok_iff (.atEnd source)]
  unfold parseSource parse
  rcases tokenize source with e | lexemes
  · exact ⟨nofun, nofun⟩
  · rcases hp : parseLexemes (.atEnd source) lexemes with errors | q
    · simp [Except.mapError, bind, Except.bind, hp]
    · simp [Except.mapError, bind, Except.bind, hp]

/-- Statements without their places. -/
abbrev bareAll (ss : List Stmt) : List Stmt := Stmt.respanAll .forget ss

theorem bareAll_shiftPast (source : String) (ss : List Stmt) :
    bareAll (Stmt.respanAll (.shiftPast source) ss) = bareAll ss := by
  rw [bareAll, bareAll, Stmt.respanAll_respanAll]
  rfl

theorem bareAll_append (ss ss' : List Stmt) : bareAll (ss ++ ss') = bareAll ss ++ bareAll ss' := by
  simp only [bareAll, Stmt.respanAll_eq_map, List.map_append]

theorem merges_shift (bytes lines : Nat) : Grammar.Merges (.shift bytes lines) := by
  intro a b
  unfold Span.shift Span.merge
  by_cases h : a.start ≤ b.start
  · simp [h, Nat.add_max_add_right]
  · simp [h, Nat.add_max_add_right, Nat.add_min_add_right]

/-- Sources with a semicolon on a line between them have the lexemes and
the statements of both. -/
theorem lexed_items_join {a b : String} {p q : Program} (ha : parseSource a = .ok p)
    (hb : parseSource b = .ok q) :
    ∃ lexemes, Lexer.Lexed .start (a ++ "\n;\n" ++ b).toList lexemes ∧
      Grammar.Items Grammar.Stops lexemes
        (p.statements ++ Stmt.respanAll (.shiftPast a) q.statements) [] := by
  obtain ⟨used, hused, hp⟩ := parseSource_eq_ok_iff.mp ha
  obtain ⟨used', hused', hq⟩ := parseSource_eq_ok_iff.mp hb
  obtain ⟨mark, hmark, hjoined⟩ := hused.join hused'
  have hid : Grammar.Merges id := fun _ _ => rfl
  have halike : Grammar.Alike (.shiftPast a) id used' (used'.map (·.respan (.shiftPast a))) := by
    simp [Grammar.Alike, Lexeme.respan]
  obtain ⟨others, hothers, hsame⟩ := hq.transfer (merges_shift _ _) hid halike fun _ => id
  obtain ⟨stmts, hstmts, hsame'⟩ := hp.join hid hid rfl rfl hmark hothers
  rw [Stmt.respanAll_id] at hsame
  rw [Stmt.respanAll_id, Stmt.respanAll_id] at hsame'
  subst hsame hsame'
  have htext : (a ++ "\n;\n" ++ b).toList = a.toList ++ '\n' :: ';' :: '\n' :: b.toList := by simp
  rw [utf8Len_toList, ← htext] at hjoined
  exact ⟨_, hjoined, hstmts⟩

/-- Any number of sources. -/
theorem parseSource_intercalate {sources : List String} {programs : List Program}
    (h : List.Forall₂ (fun source p => parseSource source = .ok p) sources programs) :
    ∃ r, parseSource ("\n;\n".intercalate sources) = .ok r ∧
      bareAll r.statements = bareAll (programs.flatMap (·.statements)) := by
  induction h with
  | nil => exact ⟨⟨[]⟩, parseSource_eq_ok_iff.mpr ⟨[], .nil _, .nil⟩, rfl⟩
  | @cons source p sources programs hp hrest ih =>
    cases hrest with
    | nil => exact ⟨p, by rwa [String.intercalate_singleton], by simp⟩
    | cons hq hrest =>
      obtain ⟨q, hq, hsame⟩ := ih
      rw [String.intercalate_cons_cons]
      refine ⟨⟨_⟩, parseSource_eq_ok_iff.mpr (lexed_items_join hp hq), ?_⟩
      rw [bareAll_append, bareAll_shiftPast, hsame, ← bareAll_append]
      rfl

/-- Two sources with a semicolon on a line between them are read as one.
The statements of the first stand as they were; those of the second begin
as many bytes and lines later as there are before them, in the same
columns. Lines are counted in 32 bits. -/
theorem separated_sources_compose {a b : String} {p q : Program} (ha : parseSource a = .ok p)
    (hb : parseSource b = .ok q) :
    parseSource (a ++ "\n;\n" ++ b) = .ok ⟨p.statements ++ q.statements.map
      (·.respan fun s => ⟨s.start + (a.utf8ByteSize + 3), s.stop + (a.utf8ByteSize + 3),
        s.line + .ofNat (a.toList.count '\n' + 2), s.column⟩)⟩ := by
  rw [← Stmt.respanAll_eq_map]
  exact parseSource_eq_ok_iff.mpr (lexed_items_join ha hb)

/-- With a line feed alone between them the second source would be the
arguments of a call in the first. -/
theorem separated_sources_compose_comment :
    let a := "s <- \"é\"\nf # é"
    let b := "(s)\n[1]"
    ∃ p q, parseSource a = .ok p ∧ p.statements.length = 2 ∧
      parseSource b = .ok q ∧ q.statements.length = 1 ∧
      parseSource (a ++ "\n;\n" ++ b) = .ok ⟨p.statements ++ q.statements.map
        (·.respan fun s => ⟨s.start + 19, s.stop + 19, s.line + 3, s.column⟩)⟩ := by
  intro a b
  obtain ⟨p, hp, hlength⟩ := exists_of_toOption_any (r := parseSource a)
    (P := (·.statements.length = 2)) (by decide +kernel)
  obtain ⟨q, hq, hlength'⟩ := exists_of_toOption_any (r := parseSource b)
    (P := (·.statements.length = 1)) (by decide +kernel)
  have hbytes : a.utf8ByteSize = 16 := by decide +kernel
  have hlines : a.toList.count '\n' = 1 := by decide +kernel
  have hjoined := separated_sources_compose hp hq
  rw [hbytes, hlines] at hjoined
  exact ⟨p, q, hp, of_decide_eq_true hlength, hq, of_decide_eq_true hlength', hjoined⟩

end Quill
