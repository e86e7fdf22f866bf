-- The spans of a program and its source. Every span in a program that was
-- read lies over a stretch of the source, and its line and column are those
-- of the place where it starts. Spans of parts lie within those of the
-- whole, one after the other.
import Mathlib
import Quill.Proofs.JoinedSources
import Quill.Proofs.LinePlaces
import Quill.Proofs.Outlines
import Quill.Proofs.TokenCover

namespace Quill

/-! ## Stretches of a text -/

/-- The span goes from one place in a text to a later one. -/
def Span.Over (cs : List Char) (s : Span) : Prop :=
  ∃ first last, first <+: cs ∧ last <+: cs ∧ String.utf8Len first < String.utf8Len last ∧
    s = .between (Cursor.start.skip first) (Cursor.start.skip last)

theorem Cursor.offset_start_skip (cs : List Char) :
    (Cursor.start.skip cs).offset = String.utf8Len cs := by
  rw [Cursor.offset_skip]
  exact Nat.zero_add _

theorem Span.between_start (first last : List Char) :
    (Span.between (Cursor.start.skip first) (Cursor.start.skip last)).start =
      String.utf8Len first := Cursor.offset_start_skip first

theorem Span.between_stop (first last : List Char) :
    (Span.between (Cursor.start.skip first) (Cursor.start.skip last)).stop =
      String.utf8Len last := Cursor.offset_start_skip last

theorem Span.between_skip (first last : List Char) :
    Span.between (Cursor.start.skip first) (Cursor.start.skip last) =
      ⟨String.utf8Len first, String.utf8Len last, .ofNat (Cursor.start.skip first).line,
        .ofNat (Cursor.start.skip first).column⟩ := by
  rw [Span.between, Cursor.offset_start_skip, Cursor.offset_start_skip]

/-- The merged span goes from the place where the one of them starts to the
place where the one or the other stops. -/
theorem merging_over (cs : List Char) : Grammar.Merging (Span.Over cs) := by
  constructor
  · rintro s ⟨first, last, -, -, hlt, rfl⟩
    rwa [Span.between_start, Span.between_stop]
  · rintro a b ⟨p, q, hp, hq, hlt, rfl⟩ ⟨p', q', hp', hq', hlt', rfl⟩
    rw [Span.between_skip p q, Span.between_skip p' q', Span.merge]
    -- The four cases are who starts first and who stops last.
    by_cases hstart : String.utf8Len p ≤ String.utf8Len p'
    · rw [if_pos hstart, Nat.min_eq_left hstart]
      rcases Nat.le_total (String.utf8Len q) (String.utf8Len q') with hstop | hstop
      · rw [Nat.max_eq_right hstop, ← Span.between_skip]
        exact ⟨p, q', hp, hq', by omega, rfl⟩
      · rw [Nat.max_eq_left hstop, ← Span.between_skip]
        exact ⟨p, q, hp, hq, hlt, rfl⟩
    · rw [if_neg hstart, Nat.min_eq_right (Nat.le_of_not_le hstart)]
      rcases Nat.le_total (String.utf8Len q) (String.utf8Len q') with hstop | hstop
      · rw [Nat.max_eq_right hstop, ← Span.between_skip]
        exact ⟨p', q', hp', hq', hlt', rfl⟩
      · rw [Nat.max_eq_left hstop, ← Span.between_skip]
        exact ⟨p', q, hp', hq, by omega, rfl⟩

theorem Lexer.Tiled.row {cs : List Char} {lexemes : List Lexeme}
    (h : Lexer.Tiled .start cs lexemes) : Grammar.Row (Span.Over cs) lexemes := by
  refine ⟨fun x hx => ?_, h.ordered⟩
  obtain ⟨before, text, after, rfl, hspan, hspells, -⟩ := h.stretch hx
  have hpos : String.utf8Len text ≠ 0 := by
    rw [ne_eq, String.utf8Len_eq_zero]
    exact hspells.ne_nil
  refine ⟨before, before ++ text, ?_, ⟨after, rfl⟩, ?_, hspan⟩
  · exact ⟨text ++ after, by simp⟩
  · rw [String.utf8Len_append]
    omega

/-! ## Spans of a source -/

/-- The span holds at least one character of the source and says where the
first one stands. -/
structure Span.Sound (source : String) (s : Span) : Prop where
  nonempty : s.start < s.stop
  bounded : s.stop ≤ source.utf8ByteSize
  boundaries : String.Pos.Raw.IsValid source ⟨s.start⟩ ∧ String.Pos.Raw.IsValid source ⟨s.stop⟩
  positioned : (LineIndex.ofString source).position source s.start = ⟨s.line, s.column⟩

theorem Span.Over.sound {source : String} {s : Span} (h : s.Over source.toList) :
    s.Sound source := by
  obtain ⟨first, last, ⟨more, hfirst⟩, ⟨rest, hlast⟩, hlt, rfl⟩ := h
  refine ⟨?_, ?_, ⟨?_, ?_⟩, ?_⟩
  · rwa [Span.between_start, Span.between_stop]
  · rw [Span.between_stop, ← utf8Len_toList, ← hlast, String.utf8Len_append]
    omega
  · rw [Span.between_start]
    exact isValid_of_append hfirst.symm
  · rw [Span.between_stop]
    exact isValid_of_append hlast.symm
  · rw [Span.between_start, LineIndex.position_boundary hfirst.symm]
    rfl

/-- All spans of a program are sound, reach over the spans of all that
stands under them, and lie one after the other where they are parts of one
whole. -/
structure Program.SpansFit (source : String) (p : Program) : Prop where
  sound : ∀ t ∈ p.outlines, ∀ n : Outline, n.In t → n.span.Sound source
  nested : ∀ t ∈ p.outlines, ∀ n m : Outline, n.In t → m.In n → n.span.Contains m.span
  parts : ∀ t ∈ p.outlines, ∀ n : Outline, n.In t → n.parts.Pairwise Outline.Before
  statements : p.outlines.Pairwise Outline.Before

/-- The spans of a program that was read fit its source. -/
theorem parsed_spans_fit {source : String} {p : Program} (h : parseSource source = .ok p) :
    p.SpansFit source := by
  obtain ⟨lexemes, hlexed, hitems⟩ := parseSource_eq_ok_iff.mp h
  have hfits := hitems.fits (merging_over source.toList) hlexed.tiled.row
  have hlaid : ∀ t ∈ p.outlines, ∀ n : Outline, n.In t → n.Laid (Span.Over source.toList) :=
    fun t ht n hn => (hfits.laid t ht).of_in hn
  refine ⟨fun t ht n hn => ?_, fun t ht n m hn hm => ?_, fun t ht n hn => ?_, hfits.ordered⟩
  · exact (hlaid t ht n hn).holds.sound
  · exact (hlaid t ht n hn).contains hm
  · exact (hlaid t ht n hn).ordered

/-- Parentheses, an `else if`, comments and letters of more than one
byte. -/
theorem parsed_spans_fit_branches :
    let source := "s <- [\"é\",\n  -(1)];; # é\nif (s) = f(s[0]) \x7b stop \x7d else " ++
      "if true \x7b\nnext; g(1 + 2) \x7d\nfunction h(a, b) \x7b return a .. b \x7d"
    ∃ p, parseSource source = .ok p ∧ p.statements.length = 3 ∧ p.SpansFit source := by
  intro source
  obtain ⟨p, hp, hlength⟩ := exists_of_toOption_any (r := parseSource source)
    (P := (·.statements.length = 3)) (by decide +kernel)
  exact ⟨p, hp, of_decide_eq_true hlength, parsed_spans_fit hp⟩

end Quill
