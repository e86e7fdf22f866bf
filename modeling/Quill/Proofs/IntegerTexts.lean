-- Integers and their texts. A text stands for an integer if it is a sign or
-- none and then digits, with blanks around it or without, and then it is cast
-- to that integer if this fits into 64 bits. So the text of an integer is cast
-- back to it.
import Mathlib
import Quill.Proofs.ExactIntegers
import Quill.Proofs.SpelledTexts

namespace Quill

/-! ## Digits -/

namespace Decimal

variable {stop k : Nat} {ds cs : List Char} {i j : Int}

/-- The number that digits stand for, each ten times as much as the one after
it. -/
def valueOf (digits : List Char) : Nat :=
  Nat.ofDigits 10 (digits.map fun c => c.toNat - '0'.toNat).reverse

theorem natOfDigits_eq (ds : List Char) : natOfDigits ds = valueOf ds := by
  rw [natOfDigits, valueOf, Nat.ofDigits_eq_foldr, List.foldr_reverse, List.foldl_map]
  simp [Nat.add_comm]

/-- Two integers are the same, or both are too large to be told apart. -/
def Near (stop : Nat) (i j : Int) : Prop := i = j ∨ stop ≤ i.natAbs ∧ stop ≤ j.natAbs

theorem Near.neg (h : Near stop i j) : Near stop (-i) (-j) := by
  rwa [Near, Int.natAbs_neg, Int.natAbs_neg, neg_inj]

/-- Digits that are passed over once the bound has been reached would not
bring the number back below it. -/
theorem natUpTo_near (stop : Nat) (ds : List Char) : Near stop (natUpTo stop ds) (valueOf ds) := by
  rw [← natOfDigits_eq]
  induction ds using List.reverseRecOn with
  | nil => exact .inl rfl
  | append_singleton ds c ih =>
    simp only [Near, natUpTo, natOfDigits, List.foldl_append, List.foldl_cons, List.foldl_nil]
      at ih ⊢
    split_ifs with hlt <;> omega

theorem readNat?_eq_some_iff :
    readNat? stop ds = some k ↔ Lexer.IsDigits ds ∧ k = natUpTo stop ds := by
  have hother : (ds.isEmpty || !ds.all Char.isDigit) = true ↔ ¬ Lexer.IsDigits ds := by
    simp [Lexer.IsDigits, imp_iff_not_or]
  unfold readNat?
  split_ifs with hcase
  · simp [hother.mp hcase]
  · have hdigits : Lexer.IsDigits ds := not_not.mp fun hno => hcase (hother.mpr hno)
    simp [hdigits, eq_comm]

/-- Digits, with a sign before them or without, and the integer that they
stand for. -/
inductive Numeral : List Char → Int → Prop
  | digits {ds : List Char} : Lexer.IsDigits ds → Numeral ds (valueOf ds)
  | plus {ds : List Char} : Lexer.IsDigits ds → Numeral ('+' :: ds) (valueOf ds)
  | minus {ds : List Char} : Lexer.IsDigits ds → Numeral ('-' :: ds) (-valueOf ds)

theorem exists_numeral (h : readInt? stop cs = some i) : ∃ j, Numeral cs j ∧ Near stop i j := by
  unfold readInt? at h
  split at h
  all_goals
    obtain ⟨k, hk, rfl⟩ := Option.map_eq_some_iff.mp h
    obtain ⟨hdigits, rfl⟩ := readNat?_eq_some_iff.mp hk
  · exact ⟨_, .plus hdigits, natUpTo_near stop _⟩
  · exact ⟨_, .minus hdigits, (natUpTo_near stop _).neg⟩
  · exact ⟨_, .digits hdigits, natUpTo_near stop _⟩

theorem Numeral.exists_readInt? (h : Numeral cs j) (stop : Nat) :
    ∃ i, readInt? stop cs = some i ∧ Near stop i j := by
  cases h with
  | plus hdigits =>
    exact ⟨_, by rw [readInt?, readNat?_eq_some_iff.mpr ⟨hdigits, rfl⟩]; rfl, natUpTo_near stop _⟩
  | minus hdigits =>
    exact ⟨_, by rw [readInt?, readNat?_eq_some_iff.mpr ⟨hdigits, rfl⟩]; rfl,
      (natUpTo_near stop _).neg⟩
  | digits hdigits =>
    refine ⟨_, ?_, natUpTo_near stop _⟩
    unfold readInt?
    split
    · exact absurd (hdigits.2 '+' (by simp)) (by decide)
    · exact absurd (hdigits.2 '-' (by simp)) (by decide)
    · rw [readNat?_eq_some_iff.mpr ⟨hdigits, rfl⟩]
      rfl

/-- An integer is written as a numeral for it, with a sign only if it is
negative. -/
theorem numeral_toString (i : Int) : Numeral (toString i).toList i := by
  have hvalue : ∀ k, valueOf (Nat.toDigits 10 k) = k := by
    intro k
    rw [← natOfDigits_eq, Lexer.natOfDigits_toDigits]
  rw [Int.toString_eq_repr, Int.repr_eq_if]
  split_ifs with hsign
  · have hnumeral := Numeral.digits (Lexer.isDigits_toDigits i.toNat)
    rwa [hvalue, Int.toNat_of_nonneg hsign, ← Nat.toList_repr] at hnumeral
  · have hnumeral := Numeral.minus (Lexer.isDigits_toDigits (-i).toNat)
    rw [hvalue, Int.toNat_of_nonneg (by omega), neg_neg, ← Nat.toList_repr] at hnumeral
    rwa [String.toList_append]

end Decimal

/-! ## Blanks -/

namespace Text

variable {before core after : List Char}

/-- There are only blanks. -/
def Blank (cs : List Char) : Prop := ∀ c ∈ cs, isBlank c = true

theorem dropWhile_isBlank (hbefore : Blank before) (hne : core ≠ [])
    (hcore : ∀ c ∈ core, isBlank c = false) (rest : List Char) :
    (before ++ (core ++ rest)).dropWhile isBlank = core ++ rest := by
  obtain ⟨c, cs, rfl⟩ := List.exists_cons_of_ne_nil hne
  have hc : isBlank c = false := hcore c List.mem_cons_self
  rw [List.dropWhile_append_of_pos hbefore, List.cons_append, List.dropWhile_cons, hc]
  rfl

theorem trimBlanks_append (hbefore : Blank before) (hafter : Blank after) (hne : core ≠ [])
    (hcore : ∀ c ∈ core, isBlank c = false) : trimBlanks (before ++ core ++ after) = core := by
  have hback : Blank after.reverse := fun c hc => hafter c (List.mem_reverse.mp hc)
  have hne' : core.reverse ≠ [] := by simpa using hne
  have hdrop := dropWhile_isBlank hback hne' (fun c hc => hcore c (List.mem_reverse.mp hc)) []
  rw [List.append_nil] at hdrop
  rw [trimBlanks, List.append_assoc, dropWhile_isBlank hbefore hne hcore, List.reverse_append,
    hdrop, List.reverse_reverse]

/-- Only blanks are lost. -/
theorem exists_trimBlanks (cs : List Char) :
    ∃ before after, cs = before ++ trimBlanks cs ++ after ∧ Blank before ∧ Blank after := by
  have hfront := List.takeWhile_append_dropWhile (p := isBlank) (l := cs)
  have hback := List.takeWhile_append_dropWhile (p := isBlank)
    (l := (cs.dropWhile isBlank).reverse)
  refine ⟨cs.takeWhile isBlank, ((cs.dropWhile isBlank).reverse.takeWhile isBlank).reverse, ?_,
    fun c hc => List.mem_takeWhile_imp hc,
    fun c hc => List.mem_takeWhile_imp (List.mem_reverse.mp hc)⟩
  rw [trimBlanks, List.append_assoc, ← List.reverse_append, hback, List.reverse_reverse, hfront]

theorem isBlank_of_isDigit {c : Char} (hc : c.isDigit = true) : isBlank c = false := by
  rw [Char.isDigit_iff_toNat] at hc
  have hlow : 48 ≤ c.toNat := hc.1
  have hhigh : c.toNat ≤ 57 := hc.2
  simp only [isBlank, Bool.or_eq_false_iff, Bool.and_eq_false_iff, decide_eq_false_iff_not]
  omega

/-- A numeral begins and ends without a blank. -/
theorem trimBlanks_numeral {i : Int} (hbefore : Blank before) (hafter : Blank after)
    (hcore : Decimal.Numeral core i) : trimBlanks (before ++ core ++ after) = core := by
  have hdigits : ∀ ds, Lexer.IsDigits ds → ∀ c ∈ ds, isBlank c = false :=
    fun ds hds c hc => isBlank_of_isDigit (hds.2 c hc)
  cases hcore with
  | digits hds => exact trimBlanks_append hbefore hafter hds.1 (hdigits _ hds)
  | plus hds | minus hds =>
    refine trimBlanks_append hbefore hafter (List.cons_ne_nil _ _) fun c hc => ?_
    rcases List.mem_cons.mp hc with rfl | hc
    · decide
    · exact hdigits _ hds c hc

end Text

/-! ## Casts -/

namespace Value

variable {h : Heap} {s : String} {n : Int64} {i : Int}

/-- The text is a numeral for the integer, with blanks around it or
without. -/
def StandsFor (s : String) (i : Int) : Prop :=
  ∃ before core after, s.toList = before ++ core ++ after ∧ Text.Blank before ∧
    Text.Blank after ∧ Decimal.Numeral core i

theorem toOption_fit_eq_some_iff : (fit i).toOption = some n ↔ n.toInt = i := by
  rw [← fit_eq_ok_iff]
  cases fit i <;> simp [Except.toOption]

/-- An integer that fits is not too large to be told apart. -/
theorem eq_of_near {j : Int} (hnear : Decimal.Near UInt64.size i j)
    (hn : n.toInt = i ∨ n.toInt = j) : i = j := by
  have hsize : UInt64.size = 2 ^ 64 := rfl
  have hlow := Int64.le_toInt n
  have hhigh := Int64.toInt_lt n
  rcases hnear with heq | ⟨hi, hj⟩
  · exact heq
  · omega

theorem intOfText?_eq_some_iff : intOfText? s = some n ↔ StandsFor s n.toInt := by
  unfold intOfText?
  constructor
  · intro htext
    split at htext
    · rename_i i hread
      have hn : n.toInt = i := toOption_fit_eq_some_iff.mp htext
      obtain ⟨j, hnumeral, hnear⟩ := Decimal.exists_numeral hread
      obtain ⟨before, after, hs, hbefore, hafter⟩ := Text.exists_trimBlanks s.toList
      rw [← eq_of_near hnear (.inl hn), ← hn] at hnumeral
      exact ⟨before, _, after, hs, hbefore, hafter, hnumeral⟩
    · cases htext
  · rintro ⟨before, core, after, hs, hbefore, hafter, hnumeral⟩
    obtain ⟨i, hread, hnear⟩ := hnumeral.exists_readInt? UInt64.size
    rw [hs, Text.trimBlanks_numeral hbefore hafter hnumeral, hread]
    exact toOption_fit_eq_some_iff.mpr (eq_of_near hnear (.inr rfl)).symm

theorem cast_string_int (h : Heap) (s : String) : cast h (.string s) .int =
    (intOfText? s).elim (.error (.invalidConversion s .int)) fun n => .ok (madeInt n) := by
  rw [cast]
  cases intOfText? s <;> rfl

theorem cast_int_string (h : Heap) (n : Int64) :
    cast h (.int n) .string = .ok (.plain (.string (toString n.toInt))) := rfl

theorem cast_eq_ok_iff {m : Made} : cast h (.string s) .int = .ok m ↔
    ∃ i, StandsFor s i ∧ -2 ^ 63 ≤ i ∧ i < 2 ^ 63 ∧ m = madeInt (Int64.ofInt i) := by
  rw [cast_string_int]
  constructor
  · intro hm
    rcases htext : intOfText? s with _ | n
    · rw [htext, Option.elim_none] at hm
      cases hm
    · rw [htext, Option.elim_some, Except.ok.injEq] at hm
      exact ⟨n.toInt, intOfText?_eq_some_iff.mp htext, Int64.le_toInt n, Int64.toInt_lt n,
        by rw [Int64.ofInt_toInt, hm]⟩
  · rintro ⟨i, hs, hlow, hhigh, rfl⟩
    rw [← Int64.toInt_ofInt_of_le hlow hhigh] at hs
    rw [intOfText?_eq_some_iff.mpr hs, Option.elim_some]

theorem cast_eq_error (hs : ¬ ∃ i, StandsFor s i ∧ -2 ^ 63 ≤ i ∧ i < 2 ^ 63) :
    cast h (.string s) .int = .error (.invalidConversion s .int) := by
  rw [cast_string_int]
  rcases htext : intOfText? s with _ | n
  · rfl
  · exact absurd ⟨n.toInt, intOfText?_eq_some_iff.mp htext, Int64.le_toInt n, Int64.toInt_lt n⟩ hs

theorem cast_of_blanks (n : Int64) {before after : String} (hbefore : Text.Blank before.toList)
    (hafter : Text.Blank after.toList) :
    cast h (.string (before ++ toString n.toInt ++ after)) .int = .ok (madeInt n) := by
  rw [cast_eq_ok_iff]
  refine ⟨n.toInt, ⟨before.toList, _, after.toList, ?_, hbefore, hafter,
    Decimal.numeral_toString n.toInt⟩, Int64.le_toInt n, Int64.toInt_lt n, ?_⟩
  · rw [String.toList_append, String.toList_append]
  · rw [Int64.ofInt_toInt]

/-- The text of an integer is cast back to it, also with blanks around it. A
text is cast to an integer exactly if there are blanks, a sign or none, one or
more digits, and blanks again, and the integer that the digits stand for fits
into 64 bits. Every other text fails as one that cannot be converted. -/
theorem int_casts_invert (h : Heap) :
    (∀ n : Int64, ∃ t : String, cast h (.int n) .string = .ok (.plain (.string t)) ∧
      cast h (.string t) .int = .ok (madeInt n) ∧
      ∀ before after : String, Text.Blank before.toList → Text.Blank after.toList →
        cast h (.string (before ++ t ++ after)) .int = .ok (madeInt n)) ∧
    ∀ s : String,
      (∀ m, cast h (.string s) .int = .ok m ↔
        ∃ i, StandsFor s i ∧ -2 ^ 63 ≤ i ∧ i < 2 ^ 63 ∧ m = madeInt (Int64.ofInt i)) ∧
      ((¬ ∃ i, StandsFor s i ∧ -2 ^ 63 ≤ i ∧ i < 2 ^ 63) →
        cast h (.string s) .int = .error (.invalidConversion s .int)) := by
  refine ⟨fun n => ⟨toString n.toInt, cast_int_string h n, ?_, fun _ _ => cast_of_blanks n⟩,
    fun s => ⟨fun m => cast_eq_ok_iff, cast_eq_error⟩⟩
  have hblank : Text.Blank "".toList := by simp [Text.Blank]
  simpa using cast_of_blanks (h := h) n hblank hblank

/-- The text of the least integer is cast back between an ideographic space
and a tab. The text of one more than the largest integer is not cast. -/
theorem int_casts_invert_least :
    let large := "9223372036854775808"
    (∃ t, cast .empty (.int Int64.minValue) .string = .ok (.plain (.string t)) ∧
      Text.Blank "\u3000".toList ∧ Text.Blank "\t".toList ∧
      cast .empty (.string ("\u3000" ++ t ++ "\t")) .int = .ok (madeInt Int64.minValue)) ∧
    (¬ ∃ i, StandsFor large i ∧ -2 ^ 63 ≤ i ∧ i < 2 ^ 63) ∧
    cast .empty (.string large) .int = .error (.invalidConversion large .int) := by
  intro large
  obtain ⟨hback, htexts⟩ := int_casts_invert .empty
  obtain ⟨t, ht, -, hblanks⟩ := hback Int64.minValue
  have hspace : Text.Blank "\u3000".toList := by simp [Text.Blank, Text.isBlank]
  have htab : Text.Blank "\t".toList := by simp [Text.Blank, Text.isBlank]
  have hlarge : ¬ ∃ i, StandsFor large i ∧ -2 ^ 63 ≤ i ∧ i < 2 ^ 63 := by
    rintro ⟨i, hs, hlow, hhigh⟩
    have hcast := ((htexts large).1 _).mpr ⟨i, hs, hlow, hhigh, rfl⟩
    have hnone : intOfText? large = none := by decide +kernel
    rw [cast_string_int, hnone] at hcast
    cases hcast
  exact ⟨⟨t, ht, hspace, htab, hblanks _ _ hspace htab⟩, hlarge, (htexts large).2 hlarge⟩

end Value

end Quill
