-- The patterns of the tokens, said apart from how the lexer looks for them.
-- In their terms the lexer loses nothing and reads nothing twice: between
-- its tokens lie blanks and comments only, every token is the one that its
-- own text spells, and no pattern matches a longer text at the same place.
import Mathlib
import Quill.Proofs.LexedTexts

namespace Quill.Lexer

/-! ## Patterns -/

/-- One or more digits. -/
def IsDigits (cs : List Char) : Prop := cs ≠ [] ∧ ∀ c ∈ cs, c.isDigit = true

/-- A letter or an underscore, and then such characters and digits. -/
def IsName : List Char → Prop
  | [] => False
  | c :: cs => isNameStart c = true ∧ ∀ x ∈ cs, isNameChar x = true

/-- The inside of a string literal, and the characters it stands for. A
backslash takes the next character with it, which is no line feed. -/
inductive Inside : List Char → List Char → Prop
  | nil : Inside [] []
  | plain {c : Char} {body value : List Char} :
      c ≠ '"' → c ≠ '\\' → Inside body value → Inside (c :: body) (c :: value)
  | escape {c e : Char} {body value : List Char} :
      escape? c = some e → Inside body value → Inside ('\\' :: c :: body) (e :: value)
  | other {c : Char} {body value : List Char} :
      escape? c = none → c ≠ '\n' → Inside body value →
      Inside ('\\' :: c :: body) ('\\' :: c :: value)

/-- The texts that match the pattern of some token. -/
inductive Pattern : List Char → Prop
  | keyword (word : Keyword) : Pattern word.text.toList
  | name {cs : List Char} : IsName cs → Pattern cs
  | int {digits : List Char} : IsDigits digits → Pattern digits
  | float {whole fraction : List Char} :
      IsDigits whole → IsDigits fraction → Pattern (whole ++ '.' :: fraction)
  | string {body value : List Char} : Inside body value → Pattern ('"' :: (body ++ ['"']))
  | symbol (mark : Symbol) : Pattern mark.text.toList

/-- The token that a text spells. A name that is spelled like a keyword is
the keyword, and a row of digits is no token if its number is too large. -/
inductive Spells : List Char → Token → Prop
  | keyword (word : Keyword) : Spells word.text.toList (.keyword word)
  | name {cs : List Char} :
      IsName cs → (∀ word : Keyword, word.text.toList ≠ cs) → Spells cs (.ident (String.ofList cs))
  | int {digits : List Char} :
      IsDigits digits → Decimal.natOfDigits digits < Nat.pow 2 63 →
      Spells digits (.int (Int64.ofNat (Decimal.natOfDigits digits)))
  | float {whole fraction : List Char} :
      IsDigits whole → IsDigits fraction →
      Spells (whole ++ '.' :: fraction) (.float (Decimal.floatOfDigits whole fraction 0))
  | string {body value : List Char} :
      Inside body value → Spells ('"' :: (body ++ ['"'])) (.string (String.ofList value))
  | symbol (mark : Symbol) : Spells mark.text.toList (.symbol mark)

/-- No pattern matches the text together with some of what follows it. -/
def Longest (text rest : List Char) : Prop :=
  ∀ more, more ≠ [] → more <+: rest → ¬ Pattern (text ++ more)

/-! ## How patterns begin -/

theorem isName_text (word : Keyword) : IsName word.text.toList := by
  cases word with
  | type name => cases name <;> exact ⟨by decide, List.all_eq_true.mp (by decide)⟩
  | _ => exact ⟨by decide, List.all_eq_true.mp (by decide)⟩

theorem symbol_head (mark : Symbol) :
    ∃ c cs, mark.text.toList = c :: cs ∧ isSpace c ≠ true ∧ c ≠ '#' ∧ c.isDigit ≠ true ∧
      isNameStart c ≠ true ∧ c ≠ '"' := by
  cases mark <;>
    exact ⟨_, _, rfl, by decide, by decide, by decide, by decide, by decide⟩

section Heads

variable {c : Char} {cs : List Char}

theorem IsDigits.head (h : IsDigits (c :: cs)) : c.isDigit = true := h.2 c List.mem_cons_self

/-- A float begins with the first of its whole digits. -/
theorem isDigit_of_float {whole fraction : List Char} (hw : IsDigits whole)
    (h : whole ++ '.' :: fraction = c :: cs) : c.isDigit = true := by
  cases whole with
  | nil => exact absurd rfl hw.1
  | cons d ds =>
    cases h
    exact hw.head

/-- A pattern that begins with a digit is a number. -/
theorem Pattern.of_digit (hc : c.isDigit = true) (h : Pattern (c :: cs)) :
    IsDigits (c :: cs) ∨ ∃ whole fraction, c :: cs = whole ++ '.' :: fraction ∧
      IsDigits whole ∧ IsDigits fraction := by
  have hstart := isNameStart_of_isDigit hc
  generalize hl : c :: cs = l at h
  cases h with
  | keyword word =>
    have hname := isName_text word
    rw [← hl] at hname
    exact absurd hname.1 hstart
  | name hname =>
    rw [← hl] at hname
    exact absurd hname.1 hstart
  | int hdigits => exact Or.inl hdigits
  | float hw hf => exact Or.inr ⟨_, _, rfl, hw, hf⟩
  | string _ =>
    cases hl
    cases hc
  | symbol mark =>
    obtain ⟨d, ds, hd, -, -, hdigit, -⟩ := symbol_head mark
    rw [← hl] at hd
    cases hd
    exact absurd hc hdigit

/-- A pattern that begins like a name has the characters of a name. -/
theorem Pattern.of_nameStart (hc : isNameStart c = true) (h : Pattern (c :: cs)) :
    ∀ x ∈ cs, isNameChar x = true := by
  have hdigit : c.isDigit ≠ true := fun hd => isNameStart_of_isDigit hd hc
  generalize hl : c :: cs = l at h
  cases h with
  | keyword word =>
    have hname := isName_text word
    rw [← hl] at hname
    exact hname.2
  | name hname =>
    rw [← hl] at hname
    exact hname.2
  | int hdigits =>
    rw [← hl] at hdigits
    exact absurd hdigits.head hdigit
  | float hw hf => exact absurd (isDigit_of_float hw hl.symm) hdigit
  | string _ =>
    cases hl
    cases hc
  | symbol mark =>
    obtain ⟨d, ds, hd, -, -, -, hstart, -⟩ := symbol_head mark
    rw [← hl] at hd
    cases hd
    exact absurd hc hstart

/-- A pattern that begins with a quote is a string literal. -/
theorem Pattern.of_quote (h : Pattern ('"' :: cs)) :
    ∃ body value, Inside body value ∧ cs = body ++ ['"'] := by
  generalize hl : '"' :: cs = l at h
  cases h with
  | keyword word =>
    have hname := isName_text word
    rw [← hl] at hname
    cases hname.1
  | name hname =>
    rw [← hl] at hname
    cases hname.1
  | int hdigits =>
    rw [← hl] at hdigits
    cases hdigits.head
  | float hw hf => cases isDigit_of_float hw hl.symm
  | string hbody =>
    cases hl
    exact ⟨_, _, hbody, rfl⟩
  | symbol mark =>
    obtain ⟨d, ds, hd, -, -, -, -, hquote⟩ := symbol_head mark
    rw [← hl] at hd
    cases hd
    exact absurd rfl hquote

/-- Every other pattern is a symbol. -/
theorem Pattern.of_other (hdigit : c.isDigit ≠ true) (hstart : isNameStart c ≠ true)
    (hquote : c ≠ '"') (h : Pattern (c :: cs)) : ∃ mark : Symbol, mark.text.toList = c :: cs := by
  generalize hl : c :: cs = l at h
  cases h with
  | keyword word =>
    have hname := isName_text word
    rw [← hl] at hname
    exact absurd hname.1 hstart
  | name hname =>
    rw [← hl] at hname
    exact absurd hname.1 hstart
  | int hdigits =>
    rw [← hl] at hdigits
    exact absurd hdigits.head hdigit
  | float hw hf => exact absurd (isDigit_of_float hw hl.symm) hdigit
  | string _ =>
    cases hl
    exact absurd rfl hquote
  | symbol mark => exact ⟨mark, rfl⟩

end Heads

/-! ## Numbers -/

/-- A text falls apart in one way only into a row of characters of a class
and what begins with another one. -/
theorem row_unique {p : Char → Bool} {xs ys zs ws : List Char} {x y : Char}
    (hxs : ∀ c ∈ xs, p c = true) (hx : p x = false) (hys : ∀ c ∈ ys, p c = true)
    (hy : p y = false) (h : xs ++ x :: zs = ys ++ y :: ws) : xs = ys ∧ x = y ∧ zs = ws := by
  have htake : ∀ {us vs : List Char} {u : Char}, (∀ c ∈ us, p c = true) → p u = false →
      (us ++ u :: vs).takeWhile p = us := by
    intro us vs u hus hu
    rw [List.takeWhile_append_of_pos hus, List.takeWhile_cons_of_neg (by simp [hu]),
      List.append_nil]
  obtain rfl : xs = ys := by rw [← htake hxs hx, h, htake hys hy]
  have htail := List.append_cancel_left h
  simp only [List.cons.injEq] at htail
  exact ⟨rfl, htail⟩

/-- What is left after a row of characters of a class begins with another
one. -/
theorem dropWhile_stops {p : Char → Bool} {l : List Char} {x : Char} {xs : List Char}
    (h : l.dropWhile p = x :: xs) : p x = false := by
  have hhead := List.head?_dropWhile_not p l
  rw [h] at hhead
  exact hhead

theorem isDigits_takeWhile {c : Char} (hc : c.isDigit = true) (cs : List Char) :
    IsDigits ((c :: cs).takeWhile Char.isDigit) :=
  ⟨by simp [hc], fun _ hd => List.mem_takeWhile_imp hd⟩

theorem spells_of_intReading {digits : List Char} {t : Token} (hd : IsDigits digits)
    (h : intReading digits = .token t) : Spells digits t := by
  unfold intReading at h
  simp only at h
  split at h
  · rename_i hlt
    cases h
    exact .int hd hlt
  · cases h

/-- A row of digits is a longest match unless a fraction follows it. -/
theorem longest_digits {digits rest : List Char} (hd : IsDigits digits)
    (hstop : ∀ x xs, rest = x :: xs → x.isDigit = false)
    (hpoint : ∀ d xs, rest = '.' :: d :: xs → d.isDigit = false) : Longest digits rest := by
  intro more hmore hprefix hpattern
  obtain ⟨c, cs, rfl⟩ := List.exists_cons_of_ne_nil hd.1
  obtain ⟨x, xs, rfl⟩ := List.exists_cons_of_ne_nil hmore
  obtain ⟨tail, rfl⟩ := hprefix
  have hx : x.isDigit = false := hstop x (xs ++ tail) rfl
  rcases hpattern.of_digit hd.head with hall | ⟨whole, fraction, heq, hw, hf⟩
  · have := hall.2 x (by simp)
    rw [hx] at this
    cases this
  · -- the digits before the point are the same row
    obtain ⟨-, hdot, hrest⟩ := row_unique hd.2 hx hw.2 (by decide) heq
    obtain ⟨d, ds, rfl⟩ := List.exists_cons_of_ne_nil hf.1
    subst hdot hrest
    have := hpoint d (ds ++ tail) rfl
    rw [hf.head] at this
    cases this

theorem longest_float {whole fraction rest : List Char} (hw : IsDigits whole)
    (hstop : ∀ x xs, rest = x :: xs → x.isDigit = false) :
    Longest (whole ++ '.' :: fraction) rest := by
  intro more hmore hprefix hpattern
  obtain ⟨c, cs, rfl⟩ := List.exists_cons_of_ne_nil hw.1
  obtain ⟨x, xs, rfl⟩ := List.exists_cons_of_ne_nil hmore
  obtain ⟨tail, rfl⟩ := hprefix
  have hx : x.isDigit = false := hstop x (xs ++ tail) rfl
  rcases hpattern.of_digit hw.head with hall | ⟨whole', fraction', heq, hw', hf'⟩
  · have := hall.2 '.' (by simp)
    cases this
  · have heq : (c :: cs) ++ '.' :: (fraction ++ x :: xs) = whole' ++ '.' :: fraction' := by
      simpa using heq
    obtain ⟨-, -, hrest⟩ := row_unique hw.2 (by decide) hw'.2 (by decide) heq
    have := hf'.2 x (by simp [← hrest])
    rw [hx] at this
    cases this

theorem number_token {c : Char} {cs : List Char} {t : Token} (hc : c.isDigit = true)
    (h : (number (c :: cs)).reading = .token t) :
    Spells (number (c :: cs)).text t ∧
      Longest (number (c :: cs)).text (number (c :: cs)).rest := by
  have hwhole := isDigits_takeWhile hc cs
  have hstop : ∀ x xs, (c :: cs).dropWhile Char.isDigit = x :: xs → x.isDigit = false :=
    fun _ _ => dropWhile_stops
  unfold number at *
  generalize (c :: cs).takeWhile Char.isDigit = whole at *
  generalize (c :: cs).dropWhile Char.isDigit = rest at *
  simp only at *
  split at *
  · rename_i d rest
    by_cases hd : d.isDigit = true
    · simp only [hd, ↓reduceIte] at h ⊢
      have hfraction : IsDigits (d :: rest.takeWhile Char.isDigit) := by
        have := isDigits_takeWhile hd rest
        rwa [List.takeWhile_cons_of_pos hd] at this
      cases h
      exact ⟨.float hwhole hfraction, longest_float hwhole fun _ _ => dropWhile_stops⟩
    · simp only [hd, Bool.false_eq_true, ↓reduceIte] at h ⊢
      refine ⟨spells_of_intReading hwhole h, longest_digits hwhole hstop ?_⟩
      rintro e xs he
      cases he
      exact Bool.eq_false_iff.mpr hd
  · rename_i hpoint
    refine ⟨spells_of_intReading hwhole h, longest_digits hwhole hstop ?_⟩
    intro e xs he
    exact absurd he (hpoint e xs)

/-! ## Names -/

theorem spells_nameToken {cs : List Char} (h : IsName cs) : Spells cs (nameToken cs) := by
  unfold nameToken
  simp only
  split
  · rename_i word hword
    have htext := List.find?_some hword
    rw [decide_eq_true_eq] at htext
    have := Spells.keyword word
    rwa [htext, String.toList_ofList] at this
  · rename_i hnone
    refine .name h fun word hword => ?_
    have hall : word ∈ Keyword.all := by
      cases word with
      | type name => cases name <;> decide
      | _ => decide
    refine List.find?_eq_none.mp hnone word hall ?_
    rw [decide_eq_true_eq, ← hword, String.ofList_toList]

theorem longest_name {c : Char} {text rest : List Char} (hc : isNameStart c = true)
    (hstop : ∀ x xs, rest = x :: xs → isNameChar x = false) : Longest (c :: text) rest := by
  intro more hmore hprefix hpattern
  obtain ⟨x, xs, rfl⟩ := List.exists_cons_of_ne_nil hmore
  obtain ⟨tail, rfl⟩ := hprefix
  have := hpattern.of_nameStart hc x (by simp)
  rw [hstop x (xs ++ tail) rfl] at this
  cases this

/-! ## String literals -/

/-- The inside of a literal that closes. -/
theorem inside_of_stringBody {cs body rest : List Char} (h : stringBody cs = (body, some rest)) :
    Inside body (unescape body) := by
  fun_induction stringBody cs generalizing body rest with
  | case1 => cases h
  | case2 rest => cases h; exact .nil
  | case3 => cases h
  | case4 rest => cases h
  | case5 c rest hc body after hbody ih =>
    cases h
    rw [unescape]
    split
    · rename_i e he
      exact .escape he (ih hbody)
    · rename_i he
      exact .other he hc (ih hbody)
  | case6 c cs hquote hslash hslash' body after hbody ih =>
    cases h
    have hc : c ≠ '\\' := by
      rintro rfl
      cases cs with
      | nil => exact hslash rfl rfl
      | cons d cs => exact hslash' d cs rfl rfl
    have hvalue : unescape (c :: body) = c :: unescape body := by
      rw [unescape]
      exact fun _ _ h _ => hc h
    rw [hvalue]
    exact .plain hquote hc (ih hbody)

theorem escape?_ne_newline {c e : Char} (h : escape? c = some e) : c ≠ '\n' := by
  rintro rfl
  cases h

/-- The first quote that no backslash stands before closes the literal. -/
theorem Inside.stringBody {body value : List Char} (h : Inside body value) (rest : List Char) :
    stringBody (body ++ '"' :: rest) = (body, some rest) := by
  induction h with
  | nil => rfl
  | plain hquote hslash _ ih => rw [List.cons_append, stringBody_cons hquote hslash, ih]
  | escape he _ ih => simp [Lexer.stringBody, escape?_ne_newline he, ih]
  | other he hc _ ih => simp [Lexer.stringBody, hc, ih]

theorem Inside.unescape {body value : List Char} (h : Inside body value) :
    unescape body = value := by
  induction h with
  | nil => rfl
  | plain hquote hslash _ ih =>
    rw [Lexer.unescape, ih]
    exact fun _ _ h _ => hslash h
  | escape he _ ih => simp [Lexer.unescape, he, ih]
  | other he _ _ ih => simp [Lexer.unescape, he, ih]

theorem longest_string {body value rest : List Char} (h : Inside body value) :
    Longest ('"' :: (body ++ ['"'])) rest := by
  intro more hmore _ hpattern
  rw [List.cons_append, List.append_assoc] at hpattern
  obtain ⟨body', value', h', heq⟩ := hpattern.of_quote
  have hbody := h.stringBody more
  rw [List.singleton_append] at heq
  rw [heq, h'.stringBody []] at hbody
  simp only [Prod.mk.injEq, Option.some.injEq] at hbody
  exact hmore hbody.2.symm

theorem stringLiteral_token {cs : List Char} {t : Token}
    (h : (stringLiteral cs).reading = .token t) :
    Spells (stringLiteral cs).text t ∧ Longest (stringLiteral cs).text (stringLiteral cs).rest := by
  unfold stringLiteral at *
  rcases hbody : stringBody cs with ⟨body, _ | rest⟩
  · rw [hbody] at h
    cases h
  · simp only [hbody, Reading.token.injEq] at h ⊢
    have hinside := inside_of_stringBody hbody
    rw [← h]
    exact ⟨.string hinside, longest_string hinside⟩

/-! ## Symbols -/

theorem symbol?_text {c : Char} {cs : List Char} {mark : Symbol} {more : Nat}
    (h : symbol? c cs.head? = some (mark, more)) : mark.text.toList = c :: cs.take more := by
  cases cs with
  | nil =>
    rw [List.head?_nil] at h
    unfold symbol? at h
    split at h <;> simp_all <;> (obtain ⟨rfl, rfl⟩ := h; rfl)
  | cons d cs =>
    rw [List.head?_cons] at h
    unfold symbol? at h
    split at h <;> simp_all <;> (obtain ⟨rfl, rfl⟩ := h; rfl)

/-- A symbol of two characters is not passed over for a shorter one. -/
theorem symbol?_pair {c d : Char} {mark : Symbol} (h : mark.text.toList = [c, d]) :
    symbol? c (some d) = some (mark, 1) := by
  cases mark <;> simp [Symbol.text] at h <;> (obtain ⟨rfl, rfl⟩ := h; rfl)

theorem symbol?_single {c : Char} {mark : Symbol} (h : mark.text.toList = [c]) :
    symbol? c none = some (mark, 0) := by
  cases mark <;> simp [Symbol.text] at h <;> (subst h; rfl)

theorem symbol_tail {c : Char} {cs : List Char} {mark : Symbol} (h : mark.text.toList = c :: cs) :
    cs = [] ∨ ∃ d, cs = [d] := by
  cases mark <;> simp [Symbol.text] at h <;> simp [← h.2]

theorem longest_symbol {c : Char} {cs : List Char} {mark : Symbol} {more : Nat}
    (hdigit : c.isDigit ≠ true) (hstart : isNameStart c ≠ true) (hquote : c ≠ '"')
    (h : symbol? c cs.head? = some (mark, more)) : Longest (c :: cs.take more) (cs.drop more) := by
  rintro extra hextra ⟨tail, htail⟩ hpattern
  obtain ⟨mark', htext⟩ := hpattern.of_other hdigit hstart hquote
  -- no symbol has three characters, so the longer one has two and the shorter one
  obtain ⟨d, ds, rfl⟩ := List.exists_cons_of_ne_nil hextra
  rcases symbol_tail htext with hnil | ⟨d', hd⟩
  · simp at hnil
  · obtain ⟨htake, hcons⟩ : cs.take more = [] ∧ d :: ds = [d'] := by
      rcases hcs : cs.take more with _ | ⟨x, xs⟩
      · exact ⟨rfl, by simpa [hcs] using hd⟩
      · simp [hcs] at hd
    simp only [List.cons.injEq] at hcons
    obtain ⟨rfl, rfl⟩ := hcons
    have hcs : cs = d :: tail := by
      rw [← List.take_append_drop more cs, htake, ← htail]
      rfl
    have hmore : more = 0 := by simpa [hcs] using htake
    rw [htake] at htext
    rw [hcs, List.head?_cons, symbol?_pair htext, hmore] at h
    cases h

/-! ## Tokens -/

/-- A token of the lexer is spelled by its text, and no pattern matches
more of the source. -/
theorem piece_token {c : Char} {cs : List Char} {t : Token}
    (h : (piece c cs).reading = .token t) :
    Spells (piece c cs).text t ∧ Longest (piece c cs).text (piece c cs).rest := by
  by_cases hspace : isSpace c = true
  · rw [piece_space hspace] at h
    cases h
  by_cases hcomment : c = '#'
  · subst hcomment
    cases h
  by_cases hdigit : c.isDigit = true
  · rw [piece_digit hdigit] at h ⊢
    exact number_token hdigit h
  by_cases hstart : isNameStart c = true
  · rw [piece_name hstart] at h ⊢
    cases h
    have hname : IsName (c :: cs.takeWhile isNameChar) :=
      ⟨hstart, fun _ hx => List.mem_takeWhile_imp hx⟩
    exact ⟨spells_nameToken hname, longest_name hstart fun _ _ => dropWhile_stops⟩
  by_cases hquote : c = '"'
  · subst hquote
    exact stringLiteral_token h
  rw [piece_other hspace hcomment hdigit hstart hquote] at h ⊢
  rcases hsymbol : symbol? c cs.head? with _ | ⟨mark, more⟩
  · rw [hsymbol] at h
    cases h
  · rw [hsymbol] at h
    cases h
    refine ⟨?_, longest_symbol hdigit hstart hquote hsymbol⟩
    have htext := Spells.symbol mark
    rwa [symbol?_text hsymbol] at htext

end Quill.Lexer
