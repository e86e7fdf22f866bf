-- The table of lines against walking. For a place between two characters
-- of a text the line that halving finds in the table is the line that a
-- cursor reaches when it walks there, and so is the column.
import Mathlib
import Quill.Proofs.LexedTexts
import Quill.Source.LineIndex

namespace Quill

/-! ## The last line of a text -/

/-- A text is what goes up to its last line feed, and its last line. -/
theorem exists_last_line (cs : List Char) :
    ∃ front line, cs = front ++ line ∧ '\n' ∉ line ∧ (front = [] ∨ ∃ f, front = f ++ ['\n']) := by
  induction cs using List.reverseRecOn with
  | nil => exact ⟨[], [], rfl, by simp, Or.inl rfl⟩
  | append_singleton cs c ih =>
    by_cases hc : c = '\n'
    · subst hc
      exact ⟨cs ++ ['\n'], [], by simp, by simp, Or.inr ⟨cs, rfl⟩⟩
    · obtain ⟨front, line, rfl, hline, hfront⟩ := ih
      refine ⟨front, line ++ [c], by simp, ?_, hfront⟩
      simpa [hline] using Ne.symm hc

theorem Cursor.column_skip_line (here : Cursor) {line : List Char} (h : '\n' ∉ line) :
    (here.skip line).column = here.column + line.length := by
  unfold skip
  induction line generalizing here with
  | nil => rfl
  | cons c line ih =>
    rw [List.mem_cons, not_or] at h
    have hstep : (here.step c).column = here.column + 1 := by
      unfold step
      rw [if_neg (Ne.symm h.1)]
    rw [List.foldl_cons, ih (here.step c) h.2, hstep, List.length_cons]
    omega

/-- After a line feed, and at the start, the column is the first. -/
theorem Cursor.column_skip_front {front : List Char} (h : front = [] ∨ ∃ f, front = f ++ ['\n']) :
    (Cursor.start.skip front).column = 1 := by
  rcases h with rfl | ⟨f, rfl⟩
  · rfl
  · rw [Cursor.skip_append]
    rfl

namespace LineIndex

/-! ## The table -/

theorem startsAfter_append (base : Nat) (xs ys : List Char) :
    startsAfter base (xs ++ ys) =
      startsAfter base xs ++ startsAfter (base + String.utf8Len xs) ys := by
  induction xs generalizing base with
  | nil => rfl
  | cons c xs ih =>
    have hbase : base + c.utf8Size + String.utf8Len xs = base + String.utf8Len (c :: xs) := by
      rw [String.utf8Len_cons]
      omega
    simp only [List.cons_append, startsAfter, ih, hbase]
    split <;> rfl

/-- There is an entry for each line feed. -/
theorem length_startsAfter (base : Nat) (cs : List Char) :
    (startsAfter base cs).length = cs.count '\n' := by
  induction cs generalizing base with
  | nil => rfl
  | cons c cs ih =>
    unfold startsAfter
    by_cases hc : c = '\n'
    · simp [hc, ih]
    · simp [hc, ih]

/-- The entries of a text lie within it. -/
theorem mem_startsAfter {base s : Nat} {cs : List Char} (h : s ∈ startsAfter base cs) :
    base < s ∧ s ≤ base + String.utf8Len cs := by
  induction cs generalizing base with
  | nil => cases h
  | cons c cs ih =>
    have hpos := Char.utf8Size_pos c
    rw [String.utf8Len_cons]
    unfold startsAfter at h
    by_cases hc : c = '\n'
    · simp only [hc, ↓reduceIte, List.mem_cons] at h
      subst hc
      rcases h with rfl | h
      · omega
      · have := ih h
        omega
    · simp only [hc, ↓reduceIte] at h
      have := ih h
      omega

/-! ## Looking a place up -/

/-- Halving finds the last line that starts at or before an offset, and never
looks outside the table. -/
theorem narrow?_eq {index : LineIndex} {offset k base size : Nat}
    (hk : ∀ i start, index.starts[i]? = some start → (start ≤ offset ↔ i ≤ k))
    (hbase : base ≤ k) (hlt : k < base + size) (hsize : base + size ≤ index.starts.size) :
    index.narrow? offset base size = some k := by
  induction size using Nat.strong_induction_on generalizing base with
  | h size ih =>
    rw [narrow?]
    by_cases hone : size ≤ 1
    · rw [if_pos hone]
      congr
      omega
    · have hmid : base + size / 2 < index.starts.size := by omega
      have hstart := Array.getElem?_eq_getElem hmid
      have hle := hk _ _ hstart
      rw [if_neg hone]
      simp only [hstart, Option.bind_eq_bind, Option.bind_some]
      split
      · exact ih _ (by omega) hbase (by omega) (by omega)
      · exact ih _ (by omega) (by omega) (by omega) (by omega)

/-- The line of an offset is the last that starts at or before it, whether one
starts right there or not. -/
theorem lineOf?_eq {index : LineIndex} {offset k : Nat}
    (hk : ∀ i start, index.starts[i]? = some start → (start ≤ offset ↔ i ≤ k))
    (hlt : k < index.starts.size) : index.lineOf? offset = some k := by
  have hempty : index.starts.isEmpty = false := by
    rw [Array.isEmpty_eq_false_iff_exists_mem]
    exact ⟨_, Array.getElem_mem hlt⟩
  have hstart := Array.getElem?_eq_getElem hlt
  have hle := (hk k _ hstart).mpr le_rfl
  have hnarrow := narrow?_eq hk (Nat.zero_le k) (Nat.lt_add_left 0 hlt) (Nat.zero_add _).le
  unfold lineOf? search?
  rw [hempty, hnarrow]
  simp only [Bool.false_eq_true, ↓reduceIte, Option.bind_eq_bind, Option.bind_some, hstart]
  by_cases hfound : index.starts[k] = offset
  · rw [if_pos hfound]
    rfl
  · rw [if_neg hfound, if_pos (by omega)]
    rfl

section Places

variable {source : String} {before after : List Char}

theorem starts_ofString (h : source.toList = before ++ after) :
    (ofString source).starts.toList =
      0 :: (startsAfter 0 before ++ startsAfter (String.utf8Len before) after) := by
  simp [ofString, h, startsAfter_append]

/-- The table has an entry for each line feed, and one for the first line. -/
theorem size_starts (h : source.toList = before ++ after) : (ofString source).starts.size =
    before.count '\n' + 1 + (startsAfter (String.utf8Len before) after).length := by
  rw [← Array.length_toList, starts_ofString h, List.length_cons, List.length_append,
    length_startsAfter]
  omega

/-- The line of a place after some of the characters, and before the next line
after them starts, is the number of line feeds among them. -/
theorem lineOf?_between {offset : Nat} (h : source.toList = before ++ after)
    (hle : String.utf8Len before ≤ offset)
    (hlt : ∀ s ∈ startsAfter (String.utf8Len before) after, offset < s) :
    (ofString source).lineOf? offset = some (before.count '\n') := by
  have hlength := length_startsAfter 0 before
  have hsize := size_starts h
  refine lineOf?_eq (fun i start hi => ?_) (by omega)
  rw [← Array.getElem?_toList, starts_ofString h, ← List.cons_append] at hi
  by_cases hle' : i ≤ before.count '\n'
  · -- an entry of the text before the place
    rw [List.getElem?_append_left (by rw [List.length_cons]; omega)] at hi
    refine iff_of_true ?_ hle'
    rcases List.mem_cons.mp (List.mem_of_getElem? hi) with rfl | hmem
    · omega
    · have := mem_startsAfter hmem
      omega
  · rw [List.getElem?_append_right (by rw [List.length_cons]; omega)] at hi
    exact iff_of_false (Nat.not_le.mpr (hlt _ (List.mem_of_getElem? hi))) hle'

/-- The line of a place is the number of line feeds before it. -/
theorem lineOf?_boundary (h : source.toList = before ++ after) :
    (ofString source).lineOf? (String.utf8Len before) = some (before.count '\n') :=
  lineOf?_between h le_rfl fun _ hs => (mem_startsAfter hs).1

/-- The line that holds a place starts after the last line feed before
it. -/
theorem starts_count {front line : List Char} (h : source.toList = front ++ line)
    (hfront : front = [] ∨ ∃ f, front = f ++ ['\n']) :
    (ofString source).starts[front.count '\n']? = some (String.utf8Len front) := by
  rw [← Array.getElem?_toList, starts_ofString h]
  rcases hfront with rfl | ⟨f, rfl⟩
  · rfl
  · have hlength : (startsAfter 0 f).length = f.count '\n' := length_startsAfter 0 f
    have hentry : startsAfter (0 + String.utf8Len f) ['\n'] = [String.utf8Len (f ++ ['\n'])] := by
      simp [startsAfter, String.utf8Len_append]
    rw [startsAfter_append, hentry, List.count_append, List.count_singleton_self,
      List.getElem?_cons_succ, List.append_assoc,
      List.getElem?_append_right (Nat.le_of_eq hlength), hlength, Nat.sub_self]
    rfl

/-- The place of an offset on a line that starts no later. -/
theorem place?_eq {index : LineIndex} {offset line start : Nat}
    (hline : index.lineOf? offset = some line) (hstart : index.starts[line]? = some start)
    (hle : start ≤ offset) :
    index.place? source offset = some ⟨line + 1,
      (charsIn? (dropBytes source.toList start) (offset - start)).getD (offset - start) + 1⟩ := by
  unfold place?
  simp only [hline, Option.bind_eq_bind, Option.bind_some, hstart, if_pos hle]
  rfl

theorem dropBytes_append (xs ys : List Char) : dropBytes (xs ++ ys) (String.utf8Len xs) = ys := by
  induction xs with
  | nil => cases ys <;> rfl
  | cons c xs ih =>
    have hpos := Char.utf8Size_pos c
    rw [List.cons_append, dropBytes, String.utf8Len_cons, if_neg (by omega), Nat.add_sub_cancel, ih]

theorem charsIn?_append_add (xs ys : List Char) (n : Nat) :
    charsIn? (xs ++ ys) (String.utf8Len xs + n) = (charsIn? ys n).map (· + xs.length) := by
  induction xs with
  | nil => simp
  | cons c xs ih =>
    have hpos := Char.utf8Size_pos c
    have hrest : String.utf8Len (c :: xs) + n - c.utf8Size = String.utf8Len xs + n := by
      rw [String.utf8Len_cons]
      omega
    rw [List.cons_append, charsIn?, hrest, String.utf8Len_cons, if_neg (by omega),
      if_pos (by omega), ih, Option.map_map]
    rfl

theorem charsIn?_append (xs ys : List Char) :
    charsIn? (xs ++ ys) (String.utf8Len xs) = some xs.length := by
  have hzero : charsIn? ys 0 = some 0 := by cases ys <;> rfl
  have hall := charsIn?_append_add xs ys 0
  rwa [hzero, Option.map_some, Nat.add_zero, Nat.zero_add] at hall

/-- The place of an offset between two characters is where a cursor stands
that has walked there. -/
theorem place_boundary (h : source.toList = before ++ after) :
    (ofString source).place source (String.utf8Len before) =
      ⟨(Cursor.start.skip before).line, (Cursor.start.skip before).column⟩ := by
  obtain ⟨front, line, rfl, hline, hfront⟩ := exists_last_line before
  have hcount : (front ++ line).count '\n' = front.count '\n' := by
    rw [List.count_append, List.count_eq_zero.mpr hline, Nat.add_zero]
  have hsource : source.toList = front ++ (line ++ after) := by rw [h, List.append_assoc]
  have hbytes := String.utf8Len_append front line
  have hlines := Cursor.line_skip .start (front ++ line)
  have hcolumn := Cursor.column_skip_line (Cursor.start.skip front) hline
  rw [Cursor.column_skip_front hfront, ← Cursor.skip_append] at hcolumn
  rw [hcount] at hlines
  have hlineOf := lineOf?_boundary h
  rw [hcount] at hlineOf
  rw [place, place?_eq hlineOf (starts_count hsource hfront) (by omega), Option.getD_some, hbytes,
    Nat.add_sub_cancel_left, hsource, dropBytes_append, charsIn?_append, Option.getD_some, hlines,
    hcolumn, Nat.add_comm line.length]
  exact congrArg (Place.mk · _) (Nat.add_comm ..)

/-- What 32 bits hold of it is in every span that begins there. -/
theorem position_boundary (h : source.toList = before ++ after) :
    (ofString source).position source (String.utf8Len before) =
      ⟨.ofNat (Cursor.start.skip before).line, .ofNat (Cursor.start.skip before).column⟩ := by
  rw [position, place_boundary h]
  rfl

end Places

end LineIndex

end Quill
