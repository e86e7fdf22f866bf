-- Tokens written out. Every token but a float has one text in which nothing
-- is left to choice, and a row of such texts with single spaces between them
-- is read as the same tokens again, each at the place of its text.
import Mathlib
import Quill.Proofs.SpelledTexts

namespace Quill

/-! ## The text of a token -/

/-- A character between the quotes of a string literal. Six characters are
written as their escapes and all others as themselves. -/
def Text.escapedChar (c : Char) : List Char :=
  if c = '\\' then ['\\', '\\']
  else if c = '"' then ['\\', '"']
  else if c = '\n' then ['\\', 'n']
  else if c = '\t' then ['\\', 't']
  else if c = '\r' then ['\\', 'r']
  else if c = '\x00' then ['\\', '0']
  else [c]

namespace Token

/-- The token as a program writes it. -/
def written : Token → List Char
  | keyword word => word.text.toList
  | symbol mark => mark.text.toList
  | int value => Nat.toDigits 10 value.toInt.toNat
  | float value => (Decimal.Style.usual.write value).toList
  | string text => '"' :: (text.toList.flatMap Text.escapedChar ++ ['"'])
  | ident name => name.toList

/-- No float, no negative number, and no name that a program cannot use. -/
def Writable : Token → Prop
  | keyword _ | symbol _ | string _ => True
  | int value => 0 ≤ value.toInt
  | float _ => False
  | ident name => Lexer.IsName name.toList ∧ ∀ word : Keyword, word.text ≠ name

/-- Tokens with single spaces between them. -/
def writtenRow (ts : List Token) : List Char := [' '].intercalate (ts.map written)

/-- What stands before the token that follows some others in a row. -/
def lead (ts : List Token) : List Char := ts.flatMap fun t => t.written ++ [' ']

variable {t : Token} {ts : List Token} {here : Cursor}

theorem writtenRow_cons_cons (t u : Token) (ts : List Token) :
    writtenRow (t :: u :: ts) = t.written ++ ' ' :: writtenRow (u :: ts) := by
  simp [writtenRow]

theorem lead_cons (t : Token) (ts : List Token) : lead (t :: ts) = t.written ++ ' ' :: lead ts := by
  simp [lead]

/-- A token in a row stands behind what leads up to it. -/
theorem prefix_writtenRow (us : List Token) (t : Token) (vs : List Token) :
    lead us ++ t.written <+: writtenRow (us ++ t :: vs) := by
  induction us with
  | nil =>
    cases vs with
    | nil => exact ⟨[], by simp [lead, writtenRow]⟩
    | cons v vs => exact ⟨_, (writtenRow_cons_cons t v vs).symm⟩
  | cons u us ih =>
    obtain ⟨rest, hrest⟩ := ih
    obtain ⟨v, ws, hv⟩ : ∃ v ws, us ++ t :: vs = v :: ws := by
      cases us with
      | nil => exact ⟨t, vs, rfl⟩
      | cons v us => exact ⟨v, us ++ t :: vs, rfl⟩
    refine ⟨rest, ?_⟩
    rw [List.cons_append, hv, writtenRow_cons_cons, ← hv, ← hrest, lead_cons]
    simp

/-! ## Its spelling -/

/-- The inside of a written string literal stands for the string. -/
theorem inside_escaped (cs : List Char) : Lexer.Inside (cs.flatMap Text.escapedChar) cs := by
  induction cs with
  | nil => exact .nil
  | cons c cs ih =>
    rw [List.flatMap_cons, Text.escapedChar]
    split_ifs with hslash hquote hfeed htab hreturn hzero
    · subst hslash
      exact .escape rfl ih
    · subst hquote
      exact .escape rfl ih
    · subst hfeed
      exact .escape rfl ih
    · subst htab
      exact .escape rfl ih
    · subst hreturn
      exact .escape rfl ih
    · subst hzero
      exact .escape rfl ih
    · exact .plain hquote hslash ih

/-- The text of a token spells it. -/
theorem Writable.spells (h : t.Writable) : Lexer.Spells t.written t := by
  cases t with
  | keyword word => exact .keyword word
  | symbol mark => exact .symbol mark
  | int value =>
    have hvalue : Int64.ofNat value.toInt.toNat = value := by
      rw [← Int64.ofInt_eq_ofNat, Int.toNat_of_nonneg h, Int64.ofInt_toInt]
    have hbound : value.toInt.toNat < Nat.pow 2 63 := by
      have := Int64.toInt_lt value
      change _ < 2 ^ 63
      omega
    have hspells := Lexer.spells_toDigits hbound
    rwa [hvalue] at hspells
  | float value => exact h.elim
  | string text =>
    have hspells := Lexer.Spells.string (inside_escaped text.toList)
    rwa [String.ofList_toList] at hspells
  | ident name =>
    have hspells := Lexer.Spells.name h.1 fun word hword => h.2 word (String.toList_inj.mp hword)
    rwa [String.ofList_toList] at hspells

/-! ## Rows of tokens -/

/-- The tokens of a row that is written from a cursor on, with the spans of
their texts. -/
def placed (here : Cursor) : List Token → List Lexeme
  | [] => []
  | t :: ts =>
    ⟨t, .between here (here.skip t.written)⟩ :: placed (here.skip (t.written ++ [' '])) ts

theorem map_token_placed (here : Cursor) (ts : List Token) :
    (placed here ts).map (·.token) = ts := by
  induction ts generalizing here with
  | nil => rfl
  | cons t ts ih => rw [placed, List.map_cons, ih]

theorem getElem?_placed (here : Cursor) (us : List Token) (t : Token) (vs : List Token) :
    (placed here (us ++ t :: vs))[us.length]? =
      some ⟨t, .between (here.skip (lead us)) (here.skip (lead us ++ t.written))⟩ := by
  induction us generalizing here with
  | nil => rfl
  | cons u us ih =>
    rw [List.cons_append, placed, List.length_cons, List.getElem?_cons_succ, ih,
      ← Cursor.skip_append, ← Cursor.skip_append, lead_cons]
    simp

/-- Before parted text a written token is one lexeme. -/
theorem Writable.lexed (h : t.Writable) {rest : List Char} {lexemes : List Lexeme}
    (hparted : Lexer.Parted rest) (hrest : Lexer.Lexed (here.skip t.written) rest lexemes) :
    Lexer.Lexed here (t.written ++ rest)
      (⟨t, .between here (here.skip t.written)⟩ :: lexemes) := by
  have hspells := h.spells
  obtain ⟨c, cs, htext⟩ := List.exists_cons_of_ne_nil hspells.ne_nil
  rw [htext] at hspells hrest ⊢
  have hpiece := hspells.piece_eq hparted
  have hlexed := (Lexer.lexed_token_iff (by rw [hpiece])).mpr ⟨lexemes, rfl, by rwa [hpiece]⟩
  rwa [hpiece] at hlexed

theorem lexed_writtenRow (here : Cursor) (h : ∀ t ∈ ts, t.Writable) :
    Lexer.Lexed here (writtenRow ts) (placed here ts) := by
  induction ts generalizing here with
  | nil => exact .nil here
  | cons t ts ih =>
    obtain ⟨ht, hts⟩ := List.forall_mem_cons.mp h
    cases ts with
    | nil =>
      have hlexed := ht.lexed Lexer.parted_nil (.nil (here.skip t.written))
      simpa [writtenRow, placed] using hlexed
    | cons u ts =>
      rw [writtenRow_cons_cons]
      refine ht.lexed (Lexer.parted_cons (.inl rfl) _) ((Lexer.lexed_space_iff rfl).mpr ?_)
      have hnext := ih (here.skip (t.written ++ [' '])) hts
      rwa [Cursor.skip_append] at hnext ⊢

/-- A row of written tokens is read as these tokens, and the span of each is
the stretch of its own text. -/
theorem written_tokens_read_back (h : ∀ t ∈ ts, t.Writable) :
    ∃ lexemes, tokenize (String.ofList (writtenRow ts)) = .ok lexemes ∧
      lexemes.map (·.token) = ts ∧
      ∀ us t vs, ts = us ++ t :: vs →
        lead us ++ t.written <+: writtenRow ts ∧
        lexemes[us.length]? = some ⟨t, .between (Cursor.start.skip (lead us))
          (Cursor.start.skip (lead us ++ t.written))⟩ := by
  refine ⟨placed .start ts, ?_, map_token_placed .start ts, ?_⟩
  · rw [tokenize_eq_ok_iff, String.toList_ofList]
    exact lexed_writtenRow .start h
  · rintro us t vs rfl
    exact ⟨prefix_writtenRow us t vs, getElem?_placed .start us t vs⟩

/-- Symbols that begin like others, a name that begins like a keyword, the
largest number, and a string with escapes and a letter of two bytes. -/
theorem written_tokens_read_back_mixed :
    let ts : List Token := [.ident "iffy", .symbol .lt, .symbol .minus, .symbol .arrow,
      .int 9223372036854775807, .symbol .dotDot, .string "é\\n\n\"#", .keyword .ifKw]
    (∀ t ∈ ts, t.Writable) ∧
    ∃ lexemes, tokenize "iffy < - <- 9223372036854775807 .. \"é\\\\n\\n\\\"#\" if" = .ok lexemes ∧
      lexemes.map (·.token) = ts ∧ lexemes[7]? = some ⟨.keyword .ifKw, ⟨48, 50, 1, 48⟩⟩ := by
  intro ts
  have hname : Lexer.IsName "iffy".toList ∧ ∀ word : Keyword, word.text ≠ "iffy" := by
    refine ⟨⟨by decide, List.all_eq_true.mp (by decide)⟩, fun word => ?_⟩
    cases word with
    | type name => cases name <;> decide
    | _ => decide
  have hts : ∀ t ∈ ts, t.Writable := by
    simp only [ts, List.forall_mem_cons, Writable, true_and, List.not_mem_nil, false_imp_iff,
      implies_true, and_true]
    exact ⟨hname, by decide⟩
  obtain ⟨lexemes, hlexemes, htokens, hspans⟩ := written_tokens_read_back hts
  refine ⟨hts, lexemes, ?_, htokens, ?_⟩
  · rw [← hlexemes]
    rfl
  · exact (hspans (ts.take 7) (.keyword .ifKw) [] rfl).2

end Token

end Quill
