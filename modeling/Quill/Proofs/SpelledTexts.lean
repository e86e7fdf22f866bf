-- Texts put together from the spellings of tokens. Where a blank, a comma or
-- a closing bracket follows, or nothing at all, the spelling of a token is
-- read as that token.
import Mathlib
import Quill.Proofs.TokenPatterns

namespace Quill.Lexer

/-! ## Where a token ends -/

/-- The text is empty, or begins with a character that goes on with no
token. -/
def Parted (rest : List Char) : Prop := ∀ c ∈ rest.head?, c = ' ' ∨ c = ',' ∨ c = ']'

variable {c : Char} {cs text text' rest : List Char} {t : Token} {ts us : List Token}

theorem parted_nil : Parted [] := nofun

theorem parted_cons (hc : c = ' ' ∨ c = ',' ∨ c = ']') (rest : List Char) : Parted (c :: rest) := by
  rintro _ ⟨⟩
  exact hc

theorem Parted.head_eq_false (h : Parted rest) {p : Char → Bool} (hspace : p ' ' = false)
    (hcomma : p ',' = false) (hbracket : p ']' = false) : ∀ c ∈ rest.head?, p c = false := by
  intro c hc
  obtain rfl | rfl | rfl := h c hc
  · exact hspace
  · exact hcomma
  · exact hbracket

/-- A row of characters of a class ends where another one follows. -/
theorem row_append {p : Char → Bool} {row : List Char} (hrow : ∀ c ∈ row, p c = true)
    (hrest : ∀ c ∈ rest.head?, p c = false) :
    (row ++ rest).takeWhile p = row ∧ (row ++ rest).dropWhile p = rest := by
  rw [List.takeWhile_append_of_pos hrow, List.dropWhile_append_of_pos hrow]
  cases rest with
  | nil => simp
  | cons c rest =>
    have hc : ¬ p c = true := by simp [hrest c rfl]
    rw [List.takeWhile_cons_of_neg hc, List.dropWhile_cons_of_neg hc, List.append_nil]
    exact ⟨rfl, rfl⟩

theorem nameToken_keyword (word : Keyword) : nameToken word.text.toList = .keyword word := by
  cases word with
  | type name => cases name <;> rfl
  | _ => rfl

theorem nameToken_ident {cs : List Char} (h : ∀ word : Keyword, word.text.toList ≠ cs) :
    nameToken cs = .ident (String.ofList cs) := by
  have hnone : Keyword.ofText? (String.ofList cs) = none := by
    refine List.find?_eq_none.mpr fun word _ htext => h word ?_
    rw [decide_eq_true_eq] at htext
    rw [htext, String.toList_ofList]
  simp only [nameToken, hnone]

theorem piece_name_parted (h : IsName (c :: cs)) (hrest : Parted rest) :
    piece c (cs ++ rest) = ⟨.token (nameToken (c :: cs)), c :: cs, rest⟩ := by
  obtain ⟨htake, hdrop⟩ := row_append h.2 (hrest.head_eq_false rfl rfl rfl)
  rw [piece_name h.1, htake, hdrop]

theorem number_parted {digits : List Char} (h : IsDigits digits) (hrest : Parted rest) :
    number (digits ++ rest) = ⟨intReading digits, digits, rest⟩ := by
  obtain ⟨htake, hdrop⟩ := row_append h.2 (hrest.head_eq_false rfl rfl rfl)
  unfold number
  rw [htake, hdrop]
  split
  · have hpoint := hrest '.' rfl
    simp at hpoint
  · rfl

theorem number_float_parted {whole fraction : List Char} (hw : IsDigits whole)
    (hf : IsDigits fraction) (hrest : Parted rest) : number (whole ++ '.' :: (fraction ++ rest)) =
      ⟨.token (.float (Decimal.floatOfDigits whole fraction 0)), whole ++ '.' :: fraction,
        rest⟩ := by
  have hpoint : ∀ c ∈ ('.' :: (fraction ++ rest)).head?, c.isDigit = false := by simp
  obtain ⟨htake, hdrop⟩ := row_append hw.2 hpoint
  obtain ⟨d, ds, rfl⟩ := List.exists_cons_of_ne_nil hf.1
  have hds : ∀ x ∈ ds, x.isDigit = true := fun x hx => hf.2 x (List.mem_cons_of_mem d hx)
  obtain ⟨htake', hdrop'⟩ := row_append hds (hrest.head_eq_false rfl rfl rfl)
  unfold number
  rw [htake, hdrop]
  simp only [List.cons_append, hf.head, ↓reduceIte, htake', hdrop']

/-- A string literal ends at its closing quote, whatever follows. -/
theorem stringLiteral_inside {body value : List Char} (h : Inside body value)
    (rest : List Char) : stringLiteral (body ++ '"' :: rest) =
      ⟨.token (.string (String.ofList value)), '"' :: (body ++ ['"']), rest⟩ := by
  unfold stringLiteral
  rw [h.stringBody rest]
  simp only [h.unescape]

theorem symbol?_parted {mark : Symbol} (h : mark.text.toList = c :: cs) (hrest : Parted rest) :
    symbol? c (cs ++ rest).head? = some (mark, cs.length) := by
  rcases symbol_tail h with rfl | ⟨d, rfl⟩
  · rcases hhead : rest.head? with _ | x
    · rw [List.nil_append, hhead]
      exact symbol?_single h
    · rw [List.nil_append, hhead]
      obtain rfl | rfl | rfl := hrest x hhead <;>
        cases mark <;> simp [Symbol.text] at h <;> (subst h; rfl)
  · exact symbol?_pair h

/-- The spelling of a token is read as the token, whatever parted text
follows. -/
theorem Spells.piece_eq (h : Spells (c :: cs) t) (hrest : Parted rest) :
    piece c (cs ++ rest) = ⟨.token t, c :: cs, rest⟩ := by
  generalize hl : c :: cs = l at h
  cases h with
  | keyword word =>
    have hname := isName_text word
    rw [← hl] at hname
    rw [piece_name_parted hname hrest, hl, nameToken_keyword]
  | name hname hword =>
    subst hl
    rw [piece_name_parted hname hrest, nameToken_ident hword]
  | int hdigits hlt =>
    subst hl
    rw [piece_digit hdigits.head, ← List.cons_append, number_parted hdigits hrest, intReading]
    simp only [hlt, ↓reduceIte]
  | float hw hf =>
    rw [piece_digit (isDigit_of_float hw hl.symm), ← List.cons_append, hl, List.append_assoc,
      List.cons_append, number_float_parted hw hf hrest]
  | string hbody =>
    cases hl
    rw [List.append_assoc, List.singleton_append]
    exact stringLiteral_inside hbody rest
  | symbol mark =>
    obtain ⟨d, ds, hd, hspace, hcomment, hdigit, hstart, hquote⟩ := symbol_head mark
    rw [← hl] at hd
    cases hd
    rw [piece_other hspace hcomment hdigit hstart hquote, symbol?_parted hl.symm hrest]
    simp [← hl]

theorem Spells.ne_nil {cs : List Char} {t : Token} (h : Spells cs t) : cs ≠ [] := by
  cases h with
  | keyword word =>
    intro hnil
    have hname := isName_text word
    rw [hnil] at hname
    exact hname
  | name hname _ =>
    rintro rfl
    exact hname
  | int hdigits _ => exact hdigits.1
  | float _ _ => simp
  | string _ => simp
  | symbol mark =>
    obtain ⟨d, ds, hd, -⟩ := symbol_head mark
    simp [hd]

theorem isDigits_toDigits (k : Nat) : IsDigits (Nat.toDigits 10 k) :=
  ⟨Nat.toDigits_ne_nil, fun _ hc => Nat.isDigit_of_mem_toDigits (by decide) le_rfl hc⟩

theorem natOfDigits_toDigits (k : Nat) : Decimal.natOfDigits (Nat.toDigits 10 k) = k := by
  rw [Decimal.natOfDigits, ← Nat.ofDigitChars_eq_foldl, Nat.ofDigitChars_ten_toDigits]

/-- The decimal digits of a number spell it. -/
theorem spells_toDigits {k : Nat} (hk : k < Nat.pow 2 63) :
    Spells (Nat.toDigits 10 k) (.int (Int64.ofNat k)) := by
  have hvalue := natOfDigits_toDigits k
  have hspells := Spells.int (isDigits_toDigits k) (by rwa [hvalue])
  rwa [hvalue] at hspells

/-- A text spells at most one token. -/
theorem Spells.unique {cs : List Char} {t u : Token} (ht : Spells cs t) (hu : Spells cs u) :
    t = u := by
  obtain ⟨c, cs, rfl⟩ := List.exists_cons_of_ne_nil ht.ne_nil
  have hpiece := (ht.piece_eq parted_nil).symm.trans (hu.piece_eq parted_nil)
  simpa using hpiece

/-! ## Rows of tokens -/

/-- Before `rest`, the text is read as these tokens. -/
def Reads (text : List Char) (ts : List Token) (rest : List Char) : Prop :=
  ∀ here lexemes, Lexed (here.skip text) rest lexemes →
    ∃ front, front.map (·.token) = ts ∧ Lexed here (text ++ rest) (front ++ lexemes)

theorem reads_nil (rest : List Char) : Reads [] [] rest := fun _ _ h => ⟨[], rfl, h⟩

theorem Reads.append (h : Reads text ts (text' ++ rest)) (h' : Reads text' us rest) :
    Reads (text ++ text') (ts ++ us) rest := by
  intro here lexemes hrest
  rw [Cursor.skip_append] at hrest
  obtain ⟨front', rfl, hfront'⟩ := h' _ _ hrest
  obtain ⟨front, rfl, hfront⟩ := h _ _ hfront'
  exact ⟨front ++ front', by simp, by simpa using hfront⟩

theorem Reads.of_piece (h : piece c (cs ++ rest) = ⟨.token t, c :: cs, rest⟩) :
    Reads (c :: cs) [t] rest := by
  intro here lexemes hrest
  refine ⟨[⟨t, .between here (here.skip (c :: cs))⟩], rfl, ?_⟩
  have hreading : (piece c (cs ++ rest)).reading = .token t := by rw [h]
  have hlexed : Lexed here _ _ := .token hreading (by rwa [h])
  rwa [h] at hlexed

theorem Spells.reads (h : Spells text t) (hrest : Parted rest) : Reads text [t] rest := by
  obtain ⟨c, cs, rfl⟩ := List.exists_cons_of_ne_nil h.ne_nil
  exact .of_piece (h.piece_eq hrest)

/-- A blank is no token. -/
theorem reads_space (rest : List Char) : Reads [' '] [] rest :=
  fun _ _ hrest => ⟨[], rfl, (lexed_space_iff rfl).mpr hrest⟩

/-- What is read as tokens to the end of the text is tokenized so. -/
theorem Reads.tokenize (h : Reads text ts []) :
    ∃ lexemes, tokenize (String.ofList text) = .ok lexemes ∧ lexemes.map (·.token) = ts := by
  obtain ⟨front, hfront, hlexed⟩ := h .start [] (.nil _)
  refine ⟨front, tokenize_eq_ok_iff.mpr ?_, hfront⟩
  simpa using hlexed

end Quill.Lexer
