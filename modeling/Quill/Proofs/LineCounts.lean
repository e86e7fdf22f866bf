-- The table of lines against counting. For every offset of a text, also one
-- inside a character or past the end, the line is one more than the line feeds
-- before it and the column one more than what stands between the last of them
-- and the offset. Along the boundaries between characters, places only move
-- forward.
import Mathlib
import Quill.Proofs.LinePlaces

namespace Quill

/-! ## Bytes -/

/-- The bytes of a text. -/
def bytesOf (source : String) : List UInt8 := source.toByteArray.data.toList

/-- The byte that is a line feed. -/
def lineFeed : UInt8 := 10

theorem bytesOf_eq (source : String) :
    bytesOf source = source.toList.flatMap String.utf8EncodeChar := by
  have hencode : source.toByteArray = source.toList.utf8Encode := by
    rw [← String.toByteArray_ofList, String.ofList_toList]
  rw [bytesOf, hencode, List.utf8Encode, List.data_toByteArray]

/-- No other character has the byte of a line feed in it. -/
theorem lineFeed_mem_iff {c : Char} : lineFeed ∈ String.utf8EncodeChar c ↔ c = '\n' := by
  have hchar : c = '\n' ↔ c.val.toNat = 10 := by
    rw [Char.ext_iff, ← UInt32.toNat_inj]
    rfl
  have hbyte : ∀ n, lineFeed = UInt8.ofNat n ↔ n % 256 = 10 := by
    intro n
    rw [← UInt8.toNat_inj, eq_comm, UInt8.toNat_ofNat']
    rfl
  rw [hchar]
  fun_cases String.utf8EncodeChar c
  all_goals
    simp only [List.mem_cons, List.not_mem_nil, or_false, hbyte]
    omega

theorem lineFeed_notMem {cs : List Char} (h : '\n' ∉ cs) :
    lineFeed ∉ cs.flatMap String.utf8EncodeChar := by
  rw [List.mem_flatMap]
  rintro ⟨c, hc, hmem⟩
  exact h (lineFeed_mem_iff.mp hmem ▸ hc)

theorem length_bytes (cs : List Char) :
    (cs.flatMap String.utf8EncodeChar).length = String.utf8Len cs := by
  induction cs with
  | nil => rfl
  | cons c cs ih => simp [List.flatMap_cons, ih, String.utf8Len_cons, Nat.add_comm]

/-- Line feeds may be counted among the bytes. -/
theorem count_bytes (cs : List Char) :
    (cs.flatMap String.utf8EncodeChar).count lineFeed = cs.count '\n' := by
  induction cs with
  | nil => rfl
  | cons c cs ih =>
    rw [List.flatMap_cons, List.count_append, ih]
    by_cases hc : c = '\n'
    · subst hc
      rw [List.count_cons_self, Nat.add_comm]
      rfl
    · rw [List.count_cons_of_ne hc, List.count_eq_zero.mpr (mt lineFeed_mem_iff.mp hc),
        Nat.zero_add]

/-! ## Cutting a text at an offset -/

/-- The text is cut at the last boundary between characters that is not after
the offset. -/
structure Cut (source : String) (offset : Nat) (before after : List Char) : Prop where
  parts : source.toList = before ++ after
  le : String.utf8Len before ≤ offset
  lt : ∀ c ∈ after.head?, offset < String.utf8Len before + c.utf8Size

theorem exists_cut (source : String) (offset : Nat) :
    ∃ before after, Cut source offset before after := by
  suffices h : ∀ cs : List Char, ∃ before after, cs = before ++ after ∧
      String.utf8Len before ≤ offset ∧
      ∀ c ∈ after.head?, offset < String.utf8Len before + c.utf8Size by
    obtain ⟨before, after, hparts, hle, hlt⟩ := h source.toList
    exact ⟨before, after, hparts, hle, hlt⟩
  intro cs
  induction cs generalizing offset with
  | nil => exact ⟨[], [], rfl, Nat.zero_le _, nofun⟩
  | cons c cs ih =>
    by_cases hc : c.utf8Size ≤ offset
    · obtain ⟨before, after, rfl, hle, hlt⟩ := ih (offset - c.utf8Size)
      refine ⟨c :: before, after, rfl, ?_, fun d hd => ?_⟩
      · rw [String.utf8Len_cons]
        omega
      · have := hlt d hd
        rw [String.utf8Len_cons]
        omega
    · refine ⟨[], c :: cs, rfl, Nat.zero_le _, fun d hd => ?_⟩
      cases hd
      rw [String.utf8Len_nil]
      omega

/-- A line starts there that goes on up to the offset: at the start of the
text or after a line feed, and no line feed follows before the offset. -/
structure LineStart (bytes : List UInt8) (offset start : Nat) : Prop where
  le : start ≤ offset
  first : start = 0 ∨ ∃ k, start = k + 1 ∧ bytes[k]? = some lineFeed
  clear : lineFeed ∉ (bytes.take offset).drop start

namespace Cut

variable {source : String} {offset : Nat} {before after : List Char}

/-- The bytes between the cut and the offset are of one character that is no
line feed, or past the end. -/
theorem lineFeed_notMem_rest (hcut : Cut source offset before after) :
    lineFeed ∉ (after.flatMap String.utf8EncodeChar).take (offset - String.utf8Len before) := by
  have hle := hcut.le
  cases after with
  | nil => simp
  | cons c after =>
    have hlt := hcut.lt c rfl
    by_cases hc : c = '\n'
    · subst hc
      have hsize : ('\n').utf8Size = 1 := rfl
      have hnone : offset - String.utf8Len before = 0 := by omega
      simp [hnone]
    · rw [List.flatMap_cons, List.take_append_of_le_length (by simp; omega)]
      exact fun hmem => hc (lineFeed_mem_iff.mp (List.mem_of_mem_take hmem))

theorem take_bytes (hcut : Cut source offset before after) :
    (bytesOf source).take offset = before.flatMap String.utf8EncodeChar ++
      (after.flatMap String.utf8EncodeChar).take (offset - String.utf8Len before) := by
  rw [bytesOf_eq, hcut.parts, List.flatMap_append, List.take_append, length_bytes,
    List.take_of_length_le (by rw [length_bytes]; exact hcut.le)]

theorem count_take_bytes (hcut : Cut source offset before after) :
    ((bytesOf source).take offset).count lineFeed = before.count '\n' := by
  rw [hcut.take_bytes, List.count_append, count_bytes,
    List.count_eq_zero.mpr hcut.lineFeed_notMem_rest, Nat.add_zero]

/-- The line up to the offset starts after the last line feed before the
cut. -/
theorem lineStart {front line : List Char} (hcut : Cut source offset (front ++ line) after)
    (hline : '\n' ∉ line) (hfront : front = [] ∨ ∃ f, front = f ++ ['\n']) :
    LineStart (bytesOf source) offset (String.utf8Len front) where
  le := by
    have := hcut.le
    rw [String.utf8Len_append] at this
    omega
  first := by
    rcases hfront with rfl | ⟨f, rfl⟩
    · exact .inl rfl
    · refine .inr ⟨String.utf8Len f, String.utf8Len_append .., ?_⟩
      rw [bytesOf_eq, hcut.parts, List.append_assoc, List.append_assoc, List.flatMap_append,
        List.getElem?_append_right (by rw [length_bytes]), length_bytes, Nat.sub_self]
      rfl
  clear := by
    rw [hcut.take_bytes, List.flatMap_append, List.append_assoc, ← length_bytes front,
      List.drop_left, List.mem_append, not_or]
    exact ⟨lineFeed_notMem hline, hcut.lineFeed_notMem_rest⟩

/-- No line starts between the cut and the offset. -/
theorem lt_of_mem_startsAfter (hcut : Cut source offset before after) {s : Nat}
    (hs : s ∈ LineIndex.startsAfter (String.utf8Len before) after) : offset < s := by
  cases after with
  | nil => cases hs
  | cons c after =>
    refine (hcut.lt c rfl).trans_le ?_
    unfold LineIndex.startsAfter at hs
    by_cases hc : c = '\n'
    · simp only [hc, ↓reduceIte, List.mem_cons] at hs ⊢
      rcases hs with rfl | hs
      · exact le_rfl
      · exact (LineIndex.mem_startsAfter hs).1.le
    · simp only [hc, ↓reduceIte] at hs
      exact (LineIndex.mem_startsAfter hs).1.le

/-- The offset is a boundary between characters of the text if the cut is
right there. -/
theorem isValid_iff (hcut : Cut source offset before after) :
    String.Pos.Raw.IsValid source ⟨offset⟩ ↔ offset = String.utf8Len before := by
  constructor
  · intro hvalid
    obtain ⟨front, back, rfl, hoffset⟩ := String.Pos.Raw.isValid_iff_exists_append.mp hvalid
    have hoffset : offset = String.utf8Len front.toList := by
      rw [utf8Len_toList]
      exact congrArg String.Pos.Raw.byteIdx hoffset
    have hle := hcut.le
    have hparts := hcut.parts
    rw [String.toList_append] at hparts
    rcases List.append_eq_append_iff.mp hparts with ⟨mid, hbefore, -⟩ | ⟨mid, hfront, hafter⟩
    · rw [hbefore, String.utf8Len_append] at hle ⊢
      omega
    · cases mid with
      | nil => rw [hoffset, hfront, List.append_nil]
      | cons c mid =>
        have hlt := hcut.lt c (by rw [hafter]; rfl)
        rw [hfront, String.utf8Len_append, String.utf8Len_cons] at hoffset
        omega
  · rintro rfl
    exact isValid_of_append hcut.parts

end Cut

/-! ## Looking a place up -/

namespace Cut

open LineIndex

variable {source : String} {offset : Nat} {front line after : List Char}

/-- After the cut the next character is too long, or there is none. -/
theorem charsIn?_rest {before : List Char} {rest : Nat} (hcut : Cut source offset before after)
    (hrest : offset = String.utf8Len before + rest) :
    charsIn? after rest = if rest = 0 then some 0 else none := by
  cases after with
  | nil => rfl
  | cons c after =>
    have hlt := hcut.lt c rfl
    rw [charsIn?, if_neg (c := c.utf8Size ≤ rest) (by omega)]

section Lines

variable (hcut : Cut source offset (front ++ line) after) (hline : '\n' ∉ line)
  (hfront : front = [] ∨ ∃ f, front = f ++ ['\n'])

include hcut

theorem toList_eq : source.toList = front ++ (line ++ after) := by
  rw [hcut.parts, List.append_assoc]

include hline

theorem lineOf?_eq : (ofString source).lineOf? offset = some (front.count '\n') := by
  rw [lineOf?_between hcut.parts hcut.le fun _ => hcut.lt_of_mem_startsAfter, List.count_append,
    List.count_eq_zero.mpr hline, Nat.add_zero]

include hfront

/-- The line is in the table and starts no later than the offset. -/
theorem place?_eq : (ofString source).place? source offset = some ⟨1 + front.count '\n',
    1 + if offset = String.utf8Len (front ++ line) then line.length
      else offset - String.utf8Len front⟩ := by
  have hlength := String.utf8Len_append front line
  obtain ⟨rest, hrest⟩ := Nat.exists_eq_add_of_le hcut.le
  have hbefore : offset - String.utf8Len front = String.utf8Len line + rest := by omega
  rw [LineIndex.place?_eq (hcut.lineOf?_eq hline) (starts_count hcut.toList_eq hfront) (by omega),
    hcut.toList_eq, dropBytes_append, hbefore, charsIn?_append_add, hcut.charsIn?_rest hrest]
  by_cases hzero : rest = 0
  · have hoffset : offset = String.utf8Len (front ++ line) := by omega
    simp only [if_pos hzero, if_pos hoffset, Option.map_some, Option.getD_some, Nat.add_comm]
  · have hoffset : offset ≠ String.utf8Len (front ++ line) := by omega
    simp only [if_neg hzero, if_neg hoffset, Option.map_none, Option.getD_none, Nat.add_comm]

theorem place_eq : (ofString source).place source offset = ⟨1 + front.count '\n',
    1 + if offset = String.utf8Len (front ++ line) then line.length
      else offset - String.utf8Len front⟩ := by
  rw [place, hcut.place?_eq hline hfront, Option.getD_some]

end Lines

end Cut

/-! ## Places in order -/

/-- One place comes before another: on an earlier line, or on the same one
further to the left. -/
def LineIndex.Place.Before (p q : Place) : Prop :=
  p.line < q.line ∨ p.line = q.line ∧ p.column < q.column

theorem LineIndex.Place.Before.trans {p q r : Place} (hpq : p.Before q) (hqr : q.Before r) :
    p.Before r := by
  unfold Before at *
  omega

namespace Cursor

/-- The line and column of a cursor. -/
def place (here : Cursor) : LineIndex.Place := ⟨here.line, here.column⟩

/-- A step over a character leads further. -/
theorem before_step (here : Cursor) (c : Char) : here.place.Before (here.step c).place := by
  unfold step
  split
  · exact .inl (Nat.lt_succ_self _)
  · exact .inr ⟨rfl, Nat.lt_succ_self _⟩

theorem before_skip (here : Cursor) {cs : List Char} (hcs : cs ≠ []) :
    here.place.Before (here.skip cs).place := by
  induction cs generalizing here with
  | nil => exact absurd rfl hcs
  | cons c cs ih =>
    by_cases hempty : cs = []
    · subst hempty
      exact here.before_step c
    · exact (here.before_step c).trans (ih (here.step c) hempty)

end Cursor

namespace LineIndex

variable {source : String} {offset later : Nat}

/-- A boundary between characters is the end of some of them. -/
theorem exists_parts (hvalid : String.Pos.Raw.IsValid source ⟨offset⟩) :
    ∃ before after, source.toList = before ++ after ∧ String.utf8Len before = offset := by
  obtain ⟨before, after, hcut⟩ := exists_cut source offset
  exact ⟨before, after, hcut.parts, (hcut.isValid_iff.mp hvalid).symm⟩

/-- A later boundary between characters has a later place. -/
theorem before_of_lt (hvalid : String.Pos.Raw.IsValid source ⟨offset⟩)
    (hvalid' : String.Pos.Raw.IsValid source ⟨later⟩) (hlt : offset < later) :
    ((ofString source).place source offset).Before ((ofString source).place source later) := by
  obtain ⟨before, after, hparts, rfl⟩ := exists_parts hvalid
  obtain ⟨before', after', hparts', rfl⟩ := exists_parts hvalid'
  rw [place_boundary hparts, place_boundary hparts']
  rcases List.append_eq_append_iff.mp (hparts.symm.trans hparts') with
    ⟨mid, rfl, -⟩ | ⟨mid, rfl, -⟩
  · rw [Cursor.skip_append]
    refine Cursor.before_skip _ ?_
    rintro rfl
    simp at hlt
  · rw [String.utf8Len_append] at hlt
    omega

/-- What a table of the lines of a text says about any offset is what counting
gives, and it is found without a look outside the table and without a
difference below zero. The line is one more than the line feeds among the bytes
before the offset. Where the offset is a boundary between characters of the
text, the column is one more than the characters since the last of these line
feeds, and else one more than the bytes since then. The numbers are exact if
they fit into 32 bits, and from boundary to boundary places only move
forward. -/
theorem position_counts (source : String) (offset : Nat) :
    let place := (ofString source).place source
    (∃ start, LineStart (bytesOf source) offset start ∧
      (ofString source).place? source offset = some (place offset) ∧
      (place offset).line = 1 + ((bytesOf source).take offset).count lineFeed ∧
      (String.Pos.Raw.IsValid source ⟨offset⟩ → ∃ front line rest : String,
        source = front ++ line ++ rest ∧ front.utf8ByteSize = start ∧
        (front ++ line).utf8ByteSize = offset ∧ (place offset).column = 1 + line.length) ∧
      (¬ String.Pos.Raw.IsValid source ⟨offset⟩ →
        (place offset).column = 1 + (offset - start))) ∧
    ((place offset).line < 2 ^ 32 → (place offset).column < 2 ^ 32 →
      ((ofString source).position source offset).line.toNat = (place offset).line ∧
      ((ofString source).position source offset).column.toNat = (place offset).column) ∧
    ∀ later, offset < later → String.Pos.Raw.IsValid source ⟨offset⟩ →
      String.Pos.Raw.IsValid source ⟨later⟩ → (place offset).Before (place later) := by
  intro place
  obtain ⟨before, after, hcut⟩ := exists_cut source offset
  obtain ⟨front, line, rfl, hline, hfront⟩ := exists_last_line before
  have hplace : place offset = _ := hcut.place_eq hline hfront
  refine ⟨⟨String.utf8Len front, hcut.lineStart hline hfront,
    (hcut.place?_eq hline hfront).trans (congrArg some hplace.symm), ?_,
    fun hvalid => ?_, fun hvalid => ?_⟩, fun hlines hcolumns => ?_,
    fun later hlt hvalid hvalid' => before_of_lt hvalid hvalid' hlt⟩
  · rw [hplace, hcut.count_take_bytes, List.count_append, List.count_eq_zero.mpr hline,
      Nat.add_zero]
  · have hoffset := hcut.isValid_iff.mp hvalid
    refine ⟨.ofList front, .ofList line, .ofList after, ?_, String.utf8ByteSize_ofList _, ?_, ?_⟩
    · rw [← String.ofList_append, ← String.ofList_append, ← hcut.parts, String.ofList_toList]
    · rw [← String.ofList_append, String.utf8ByteSize_ofList, hoffset]
    · rw [hplace, if_pos hoffset, String.length_ofList]
  · rw [hplace, if_neg fun hoffset => hvalid (hcut.isValid_iff.mpr hoffset)]
  · exact ⟨UInt32.toNat_ofNat_of_lt hlines, UInt32.toNat_ofNat_of_lt hcolumns⟩

/-- The second byte of a letter of two bytes is in the second column, and the
letter is one column wide. The line feed after it starts the second line. -/
theorem position_counts_wide :
    let source := "é\nxy"
    let place := (ofString source).place source
    ¬ String.Pos.Raw.IsValid source ⟨1⟩ ∧ (place 1).column = 2 ∧
    String.Pos.Raw.IsValid source ⟨3⟩ ∧ String.Pos.Raw.IsValid source ⟨4⟩ ∧
    (place 3).Before (place 4) ∧ ((ofString source).position source 4).line.toNat = 2 ∧
    ((ofString source).position source 4).column.toNat = 2 := by
  intro source place
  have hinside : ¬ String.Pos.Raw.IsValid source ⟨1⟩ := by decide
  have hvalid : String.Pos.Raw.IsValid source ⟨3⟩ := by decide
  have hvalid' : String.Pos.Raw.IsValid source ⟨4⟩ := by decide
  have hplace : (ofString source).place source 4 = ⟨2, 2⟩ := by
    have hparts : source.toList = ['é', '\n', 'x'] ++ ['y'] := by decide
    exact place_boundary hparts
  obtain ⟨⟨start, hstart, -, -, -, hcolumn⟩, -, -⟩ := position_counts source 1
  obtain ⟨-, -, hbefore⟩ := position_counts source 3
  obtain ⟨-, hexact, -⟩ := position_counts source 4
  have hfirst : start = 0 := by
    rcases hstart.first with hzero | ⟨k, rfl, hk⟩
    · exact hzero
    · obtain rfl : k = 0 := Nat.le_zero.mp (Nat.le_of_succ_le_succ hstart.le)
      exact absurd hk (by decide)
  refine ⟨hinside, by rw [hcolumn hinside, hfirst], hvalid, hvalid',
    hbefore 4 (by decide) hvalid hvalid', ?_⟩
  rw [hplace] at hexact
  exact hexact (by decide) (by decide)

end LineIndex

end Quill
