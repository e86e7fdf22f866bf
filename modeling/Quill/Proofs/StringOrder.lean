-- Strings are ordered by their characters. They are compared by the bytes of
-- their UTF-8 form, which comes to the same: where two characters differ, so
-- do their bytes, and the first difference lies the same way.
import Mathlib
import Quill.Proofs.LineCounts
import Quill.Value.Operator

namespace Quill

/-! ## Codes that keep the order -/

/-- A code that writes every character as a row of numbers, the smaller of two
always before the larger, whatever follows them. -/
structure OrderedCode (code : Char → List Nat) : Prop where
  ne_nil : ∀ c, code c ≠ []
  before : ∀ c d, c < d → ∀ xs ys, code c ++ xs < code d ++ ys

/-- Such a code keeps the order of whole texts. -/
theorem OrderedCode.strictMono {code : Char → List Nat} (hcode : OrderedCode code) :
    StrictMono fun cs : List Char => cs.flatMap code := by
  intro cs ds hlt
  induction cs generalizing ds with
  | nil =>
    cases ds with
    | nil => exact absurd hlt (lt_irrefl _)
    | cons d ds =>
      obtain ⟨n, ns, hn⟩ := List.exists_cons_of_ne_nil (hcode.ne_nil d)
      simp [List.flatMap_cons, hn]
  | cons c cs ih =>
    cases ds with
    | nil => exact absurd hlt (List.not_lt_nil _)
    | cons d ds =>
      simp only [List.flatMap_cons]
      rcases List.cons_lt_cons_iff.mp hlt with hcd | ⟨rfl, hrest⟩
      · exact hcode.before c d hcd _ _
      · exact List.Lex.append_left _ (ih hrest) _

theorem char_lt_iff {c d : Char} : c < d ↔ c.toNat < d.toNat := by
  rw [Char.lt_def, UInt32.lt_iff_toNat_lt]
  rfl

theorem orderedCode_toNat : OrderedCode fun c => [c.toNat] :=
  ⟨fun _ => List.cons_ne_nil _ _,
    fun _ _ hcd _ _ => List.cons_lt_cons_iff.mpr (.inl (char_lt_iff.mp hcd))⟩

/-! ## The bytes of characters -/

/-- The bytes of the character with this number. -/
def utf8 (n : Nat) : List Nat :=
  if n < 0x80 then [n]
  else if n < 0x800 then [0xC0 + n / 64, 0x80 + n % 64]
  else if n < 0x10000 then [0xE0 + n / 4096, 0x80 + n / 64 % 64, 0x80 + n % 64]
  else [0xF0 + n / 262144, 0x80 + n / 4096 % 64, 0x80 + n / 64 % 64, 0x80 + n % 64]

theorem char_toNat_lt (c : Char) : c.toNat < 0x110000 := by
  rcases c.valid with hlow | hhigh
  · exact lt_trans hlow (by decide)
  · exact hhigh.2

theorem map_utf8EncodeChar (c : Char) :
    (String.utf8EncodeChar c).map UInt8.toNat = utf8 c.toNat := by
  have hbound := char_toNat_lt c
  have hnat : c.val.toNat = c.toNat := rfl
  unfold String.utf8EncodeChar utf8
  simp only [hnat]
  split_ifs
  all_goals simp
  all_goals omega

theorem utf8_before {m n : Nat} (hmn : m < n) (xs ys : List Nat) :
    utf8 m ++ xs < utf8 n ++ ys := by
  -- a longer form begins with a larger byte, and forms of the same length are
  -- the digits of their numbers to the base 64
  unfold utf8
  split_ifs
  all_goals
    simp only [List.cons_append, List.nil_append, List.cons_lt_cons_iff]
    omega

theorem orderedCode_utf8 : OrderedCode fun c => utf8 c.toNat := by
  refine ⟨fun c => ?_, fun c d hcd => utf8_before (char_lt_iff.mp hcd)⟩
  unfold utf8
  split_ifs <;> exact List.cons_ne_nil _ _

/-! ## The bytes of strings -/

theorem toList_loop (b : ByteArray) (i : Nat) (r : List UInt8) :
    ByteArray.toList.loop b i r = r.reverse ++ b.data.toList.drop i := by
  fun_induction ByteArray.toList.loop b i r with
  | case1 i r hi ih =>
    have hget : b.get! i = b.data.toList[i] := getElem!_pos b.data i hi
    rw [ih, List.reverse_cons, List.append_assoc, hget, List.singleton_append,
      List.getElem_cons_drop]
  | case2 i r hi =>
    rw [List.drop_eq_nil_of_le (Nat.not_lt.mp hi), List.append_nil]

theorem map_toUTF8 (s : String) :
    s.toUTF8.toList.map UInt8.toNat = s.toList.flatMap fun c => utf8 c.toNat := by
  rw [String.toUTF8_eq_toByteArray, ByteArray.toList, toList_loop, List.reverse_nil,
    List.nil_append, List.drop_zero, ← bytesOf, bytesOf_eq, List.map_flatMap]
  simp only [map_utf8EncodeChar]

/-- The numbers of the characters of a string. -/
def scalars (s : String) : List Nat := s.toList.map Char.toNat

namespace Value

theorem compares_cons {o : Ordering} {ms ns : List Nat} (n : Nat) (ho : o.Compares ms ns) :
    o.Compares (n :: ms) (n :: ns) := by
  cases o with
  | lt => exact List.cons_lt_cons_iff.mpr (.inr ⟨rfl, ho⟩)
  | eq => exact congrArg (n :: ·) ho
  | gt => exact List.cons_lt_cons_iff.mpr (.inr ⟨rfl, ho⟩)

/-- Bytes are compared one after the other, and what has ended comes first. -/
theorem compareBytes_compares (xs ys : List UInt8) :
    (compareBytes xs ys).Compares (xs.map UInt8.toNat) (ys.map UInt8.toNat) := by
  fun_induction compareBytes xs ys with
  | case1 => rfl
  | case2 y ys => exact List.nil_lt_cons _ _
  | case3 x xs => exact List.nil_lt_cons _ _
  | case4 x xs y ys hlt =>
    exact List.cons_lt_cons_iff.mpr (.inl (UInt8.lt_iff_toNat_lt.mp hlt))
  | case5 x xs y ys hlt hgt =>
    exact List.cons_lt_cons_iff.mpr (.inl (UInt8.lt_iff_toNat_lt.mp hgt))
  | case6 x xs y ys hlt hgt ih =>
    have hfirst : x.toNat = y.toNat := by
      rw [UInt8.lt_iff_toNat_lt] at hlt hgt
      omega
    rw [List.map_cons, List.map_cons, hfirst]
    exact compares_cons y.toNat ih

/-- The order of two strings by their bytes. -/
def stringOrder (s t : String) : Ordering := compareBytes s.toUTF8.toList t.toUTF8.toList

/-- Strings compare as their characters do. -/
theorem stringOrder_compares (s t : String) :
    (stringOrder s t).Compares (scalars s) (scalars t) := by
  have hbytes := compareBytes_compares s.toUTF8.toList t.toUTF8.toList
  rw [map_toUTF8, map_toUTF8] at hbytes
  have hchars := orderedCode_utf8.strictMono.compares.mp hbytes
  rw [scalars, scalars, List.map_eq_flatMap, List.map_eq_flatMap]
  exact orderedCode_toNat.strictMono.compares.mpr hchars

theorem scalars_inj {s t : String} : scalars s = scalars t ↔ s = t := by
  have hchar : Function.Injective Char.toNat := fun _ _ => Char.toNat_inj.mp
  rw [scalars, scalars, (List.map_injective_iff.mpr hchar).eq_iff, String.toList_inj]

/-! ## The operators -/

/-- A truth value as what an operation makes. -/
def madeBool (b : Bool) : Made := .plain (.bool b)

theorem ordered_string (test : Ordering → Bool) (s t : String) :
    ordered test (.string s) (.string t) = .ok (madeBool (test (stringOrder s t))) := rfl

theorem isLT_stringOrder_iff {s t : String} :
    (stringOrder s t).isLT = true ↔ scalars s < scalars t := by
  rw [Ordering.isLT_iff_eq_lt, (stringOrder_compares s t).eq_lt]

theorem isGT_stringOrder_iff {s t : String} :
    (stringOrder s t).isGT = true ↔ scalars t < scalars s := by
  rw [Ordering.isGT_iff_eq_gt, (stringOrder_compares s t).eq_gt]

theorem isEq_stringOrder_iff {s t : String} : (stringOrder s t).isEq = true ↔ s = t := by
  rw [Ordering.isEq_iff_eq_eq, (stringOrder_compares s t).eq_eq, scalars_inj]

/-- Equality is found without the order, and agrees with it. -/
theorem binary_eq_string (h : Heap) (s t : String) :
    binary h .eq (.string s) (.string t) = .ok (madeBool (stringOrder s t).isEq) := by
  have hequal : (s == t) = (stringOrder s t).isEq := by
    rw [Bool.eq_iff_iff, beq_iff_eq, isEq_stringOrder_iff]
  rw [← hequal]
  rfl

theorem binary_lt_string_iff {h : Heap} {s t : String} :
    binary h .lt (.string s) (.string t) = .ok (madeBool true) ↔ scalars s < scalars t := by
  rw [binary, ordered_string, ← isLT_stringOrder_iff]
  simp [madeBool, Made.plain]

/-- For all strings, exactly one of `<`, `=` and `>` is true, `<=` is what `>` is
not, and `>=` is what `<` is not. One string is less than another exactly if
the numbers of its characters come before those of the other, by the first
that differs, and a string comes before its continuations. So `<` is
transitive. -/
theorem strings_are_ordered (h : Heap) :
    (∀ s t : String, ∃ less equal greater : Bool,
      binary h .lt (.string s) (.string t) = .ok (madeBool less) ∧
      binary h .eq (.string s) (.string t) = .ok (madeBool equal) ∧
      binary h .gt (.string s) (.string t) = .ok (madeBool greater) ∧
      binary h .le (.string s) (.string t) = .ok (madeBool !greater) ∧
      binary h .ge (.string s) (.string t) = .ok (madeBool !less) ∧
      [less, equal, greater].count true = 1 ∧
      (less = true ↔ List.Lex (· < ·) (scalars s) (scalars t)) ∧
      (equal = true ↔ s = t) ∧
      (greater = true ↔ List.Lex (· < ·) (scalars t) (scalars s))) ∧
    ∀ s t u : String,
      binary h .lt (.string s) (.string t) = .ok (madeBool true) →
      binary h .lt (.string t) (.string u) = .ok (madeBool true) →
      binary h .lt (.string s) (.string u) = .ok (madeBool true) := by
  refine ⟨fun s t => ?_, fun s t u hst htu => ?_⟩
  · have hnotGreater : (stringOrder s t).isLE = !(stringOrder s t).isGT := by
      cases stringOrder s t <;> rfl
    have hnotLess : (stringOrder s t).isGE = !(stringOrder s t).isLT := by
      cases stringOrder s t <;> rfl
    refine ⟨(stringOrder s t).isLT, (stringOrder s t).isEq, (stringOrder s t).isGT,
      ordered_string _ s t, binary_eq_string h s t, ordered_string _ s t, ?_, ?_, ?_,
      isLT_stringOrder_iff, isEq_stringOrder_iff, isGT_stringOrder_iff⟩
    · rw [← hnotGreater]
      exact ordered_string _ s t
    · rw [← hnotLess]
      exact ordered_string _ s t
    · cases stringOrder s t <;> rfl
  · rw [binary_lt_string_iff] at hst htu ⊢
    exact hst.trans htu

/-- A character of three bytes lies before one of four, and after one of two. -/
theorem strings_are_ordered_wide :
    binary .empty .lt (.string "é") (.string "\uffff") = .ok (madeBool true) ∧
    binary .empty .lt (.string "\uffff") (.string "😀") = .ok (madeBool true) ∧
    binary .empty .lt (.string "é") (.string "😀") = .ok (madeBool true) := by
  have hfirst : binary .empty .lt (.string "é") (.string "\uffff") = .ok (madeBool true) :=
    binary_lt_string_iff.mpr (by decide)
  have hsecond : binary .empty .lt (.string "\uffff") (.string "😀") = .ok (madeBool true) :=
    binary_lt_string_iff.mpr (by decide)
  exact ⟨hfirst, hsecond, (strings_are_ordered .empty).2 _ _ _ hfirst hsecond⟩

end Value

end Quill
