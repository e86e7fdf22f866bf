-- The spans of a tree and how they lie. The outline of a tree keeps its
-- spans and forgets the rest. A phrase has its outline within its lexemes,
-- and phrases that follow one another have theirs one after the other, so
-- every span reaches over those of its parts.
import Mathlib
import Quill.Proofs.Grammar

namespace Quill

/-! ## Outlines -/

/-- A span, and the outlines of the parts in the order in which they are
written. -/
inductive Outline where
  | node (span : Span) (parts : List Outline)

def Outline.span : Outline → Span
  | .node span _ => span

def Outline.parts : Outline → List Outline
  | .node _ parts => parts

def Name.outline (n : Name) : Outline := .node n.span []

mutual

def Expr.outline : Expr → Outline
  | ⟨node, span⟩ => .node span node.outlines

def ExprNode.outlines : ExprNode → List Outline
  | .int _ | .float _ | .bool _ | .string _ | .var _ => []
  | .array elements => Expr.outlineAll elements
  | .binary left _ right => [left.outline, right.outline]
  | .unary _ operand => [operand.outline]
  | .range first last => [first.outline, last.outline]
  | .index base index => [base.outline, index.outline]
  | .call callee args => callee.outline :: Expr.outlineAll args
  | .cast _ operand => [operand.outline]

def Expr.outlineAll : List Expr → List Outline
  | [] => []
  | e :: es => e.outline :: Expr.outlineAll es

end

def Target.outline : Target → Outline
  | ⟨.name _, span⟩ => .node span []
  | ⟨.element base index, span⟩ => .node span [base.outline, index.outline]

mutual

def Stmt.outline : Stmt → Outline
  | ⟨node, span⟩ => .node span node.outlines

def StmtNode.outlines : StmtNode → List Outline
  | .expr value => [value.outline]
  | .assign target value => [target.outline, value.outline]
  | .cond test yes no => test.outline :: yes.outline :: Block.outlineOption no
  | .loop test body => [test.outline, body.outline]
  | .each item items body => [item.outline, items.outline, body.outline]
  | .times count body => [count.outline, body.outline]
  | .function decl => [decl.outline]
  | .return none => []
  | .return (some value) => [value.outline]
  | .stop | .next => []

def Block.outline : Block → Outline
  | ⟨statements, span⟩ => .node span (Stmt.outlineAll statements)

def Block.outlineOption : Option Block → List Outline
  | none => []
  | some b => [b.outline]

def FunctionDecl.outline : FunctionDecl → Outline
  | ⟨name, params, body, span⟩ =>
    .node span (name.outline :: (params.map Name.outline ++ [body.outline]))

def Stmt.outlineAll : List Stmt → List Outline
  | [] => []
  | s :: ss => s.outline :: Stmt.outlineAll ss

end

/-- The outlines of the statements at the top level. -/
def Program.outlines (p : Program) : List Outline := Stmt.outlineAll p.statements

theorem Expr.span_outline (e : Expr) : e.outline.span = e.span := by
  obtain ⟨node, span⟩ := e
  rw [Expr.outline]
  rfl

/-- The place that an expression stands for has the outline of the
expression. -/
theorem Grammar.Place.outline {e : Expr} {place : Target} (h : Grammar.Place e place) :
    place.outline = e.outline := by
  cases h with
  | name text span => simp only [Target.outline, Expr.outline, ExprNode.outlines]
  | element index span _ => simp only [Target.outline, Expr.outline, ExprNode.outlines]

/-! ## Laid out trees -/

/-- One span reaches over the other. -/
def Span.Contains (s t : Span) : Prop := s.start ≤ t.start ∧ t.stop ≤ s.stop

theorem Span.Contains.trans {a b c : Span} (h : a.Contains b) (h' : b.Contains c) :
    a.Contains c := ⟨h.1.trans h'.1, h'.2.trans h.2⟩

theorem Span.merge_contains_left (a b : Span) : (a.merge b).Contains a :=
  ⟨Nat.min_le_left .., Nat.le_max_left ..⟩

theorem Span.merge_contains_right (a b : Span) : (a.merge b).Contains b :=
  ⟨Nat.min_le_right .., Nat.le_max_right ..⟩

/-- One outline ends where the other begins, or before. -/
def Outline.Before (a b : Outline) : Prop := a.span.stop ≤ b.span.start

/-- Every span is of a kind and reaches over those of its parts, which lie
one after the other. -/
inductive Outline.Laid (P : Span → Prop) : Outline → Prop
  | node {span : Span} {parts : List Outline} :
      P span → (∀ t ∈ parts, span.Contains t.span) → parts.Pairwise Outline.Before →
      (∀ t ∈ parts, Outline.Laid P t) → Outline.Laid P (.node span parts)

/-- One outline stands somewhere in the other, or is the other. -/
inductive Outline.In : Outline → Outline → Prop
  | self (t : Outline) : Outline.In t t
  | part {t part : Outline} {span : Span} {parts : List Outline} :
      part ∈ parts → Outline.In t part → Outline.In t (.node span parts)

theorem Outline.Laid.holds {P : Span → Prop} {t : Outline} (h : t.Laid P) : P t.span := by
  cases h with
  | node hs _ _ _ => exact hs

theorem Outline.Laid.ordered {P : Span → Prop} {t : Outline} (h : t.Laid P) :
    t.parts.Pairwise Outline.Before := by
  cases h with
  | node _ _ hordered _ => exact hordered

theorem Outline.Laid.of_in {P : Span → Prop} {t u : Outline} (h : u.Laid P) (hin : t.In u) :
    t.Laid P := by
  induction hin with
  | self => exact h
  | part hmem _ ih =>
    cases h with
    | node _ _ _ hparts => exact ih (hparts _ hmem)

/-- A span reaches over all that stand under it. -/
theorem Outline.Laid.contains {P : Span → Prop} {t u : Outline} (h : u.Laid P) (hin : t.In u) :
    u.span.Contains t.span := by
  induction hin with
  | self => exact ⟨le_rfl, le_rfl⟩
  | part hmem _ ih =>
    cases h with
    | node _ hcontains _ hparts => exact (hcontains _ hmem).trans (ih (hparts _ hmem))

namespace Grammar

theorem Atom.outlines {t : Token} {node : ExprNode} (h : Atom t node) : node.outlines = [] := by
  cases h <;> rfl

/-! ## Outlines within lexemes -/

/-- A kind of spans that are not empty, and that merging does not leave. -/
structure Merging (P : Span → Prop) : Prop where
  pos : ∀ {s : Span}, P s → s.start < s.stop
  merge : ∀ {a b : Span}, P a → P b → P (a.merge b)

/-- Lexemes of which each ends before the next one begins. -/
structure Row (P : Span → Prop) (used : List Lexeme) : Prop where
  all : ∀ x ∈ used, P x.span
  ordered : used.Pairwise fun x y => x.span.stop ≤ y.span.start

/-- The span begins and ends within the lexemes. -/
def Within (used : List Lexeme) (s : Span) : Prop :=
  ∃ x ∈ used, ∃ y ∈ used, x.span.start ≤ s.start ∧ s.stop ≤ y.span.stop

/-- Outlines one after the other within the lexemes. -/
structure Fits (P : Span → Prop) (used : List Lexeme) (ts : List Outline) : Prop where
  laid : ∀ t ∈ ts, t.Laid P
  within : ∀ t ∈ ts, Within used t.span
  ordered : ts.Pairwise Outline.Before

variable {P : Span → Prop} {used used' first second : List Lexeme} {ts us : List Outline}

theorem Row.sublist (h : Row P used) (hsub : used'.Sublist used) : Row P used' :=
  ⟨fun x hx => h.all x (hsub.subset hx), h.ordered.sublist hsub⟩

theorem Row.left (h : Row P (first ++ second)) : Row P first :=
  h.sublist (List.sublist_append_left ..)

theorem Row.right (h : Row P (first ++ second)) : Row P second :=
  h.sublist (List.sublist_append_right ..)

theorem Row.tail {x : Lexeme} (h : Row P (x :: used)) : Row P used :=
  h.sublist (List.sublist_cons_self ..)

theorem Within.mono {s : Span} (h : Within used s) (hsub : used ⊆ used') : Within used' s := by
  obtain ⟨x, hx, y, hy, hstart, hstop⟩ := h
  exact ⟨x, hsub hx, y, hsub hy, hstart, hstop⟩

theorem Within.lexeme {x : Lexeme} (h : x ∈ used) : Within used x.span :=
  ⟨x, h, x, h, le_rfl, le_rfl⟩

theorem Within.merge {a b : Span} (ha : Within used a) (hb : Within used b) :
    Within used (a.merge b) := by
  obtain ⟨x, hx, y, hy, hstart, hstop⟩ := ha
  obtain ⟨x', hx', y', hy', hstart', hstop'⟩ := hb
  unfold Span.merge
  have hmin : ∃ z ∈ used, z.span.start ≤ min a.start b.start := by
    by_cases h : a.start ≤ b.start
    · exact ⟨x, hx, by omega⟩
    · exact ⟨x', hx', by omega⟩
  have hmax : ∃ z ∈ used, max a.stop b.stop ≤ z.span.stop := by
    by_cases h : a.stop ≤ b.stop
    · exact ⟨y', hy', by omega⟩
    · exact ⟨y, hy, by omega⟩
  obtain ⟨z, hz, hzstart⟩ := hmin
  obtain ⟨w, hw, hwstop⟩ := hmax
  exact ⟨z, hz, w, hw, hzstart, hwstop⟩

/-- What is within the first lexemes ends before what is within the later
ones. -/
theorem Within.before {s t : Span} (hrow : Row P (first ++ second)) (hs : Within first s)
    (ht : Within second t) : s.stop ≤ t.start := by
  obtain ⟨_, _, y, hy, _, hstop⟩ := hs
  obtain ⟨x, hx, _, _, hstart, _⟩ := ht
  have := (List.pairwise_append.mp hrow.ordered).2.2 y hy x hx
  omega

theorem Fits.nil (used : List Lexeme) : Fits P used [] := ⟨nofun, nofun, .nil⟩

theorem Fits.mono (h : Fits P used ts) (hsub : used ⊆ used') : Fits P used' ts :=
  ⟨h.laid, fun t ht => (h.within t ht).mono hsub, h.ordered⟩

theorem Fits.cons {x : Lexeme} (h : Fits P used ts) : Fits P (x :: used) ts :=
  h.mono (List.subset_cons_self ..)

theorem Fits.append (hrow : Row P (first ++ second)) (h : Fits P first ts)
    (h' : Fits P second us) : Fits P (first ++ second) (ts ++ us) := by
  refine ⟨fun t ht => ?_, fun t ht => ?_, ?_⟩
  · rcases List.mem_append.mp ht with ht | ht
    · exact h.laid t ht
    · exact h'.laid t ht
  · rcases List.mem_append.mp ht with ht | ht
    · exact (h.within t ht).mono (List.subset_append_left ..)
    · exact (h'.within t ht).mono (List.subset_append_right ..)
  · refine List.pairwise_append.mpr ⟨h.ordered, h'.ordered, fun t ht u hu => ?_⟩
    exact Within.before hrow (h.within t ht) (h'.within u hu)

/-- A span over outlines that fit makes one outline of them. -/
theorem Fits.node {s : Span} (h : Fits P used ts) (hs : P s) (hwithin : Within used s)
    (hcontains : ∀ t ∈ ts, s.Contains t.span) : Fits P used [.node s ts] := by
  refine ⟨fun t ht => ?_, fun t ht => ?_, List.pairwise_singleton ..⟩
  · rw [List.mem_singleton] at ht
    subst ht
    exact .node hs hcontains h.ordered h.laid
  · rw [List.mem_singleton] at ht
    subst ht
    exact hwithin

theorem Fits.leaf {x : Lexeme} (hx : P x.span) : Fits P [x] [.node x.span []] :=
  (Fits.nil [x]).node hx (.lexeme List.mem_cons_self) nofun

section Merged

variable (hP : Merging P)
include hP

/-- The span from the first lexeme to the last one reaches over them. -/
theorem Row.spanOver_contains {x : Lexeme} (hrow : Row P (x :: used)) {s : Span}
    (h : Within (x :: used) s) : (spanOver x used).Contains s := by
  obtain ⟨y, hy, z, hz, hstart, hstop⟩ := h
  have hfirst : x.span.start ≤ y.span.start := by
    rcases List.mem_cons.mp hy with rfl | hy
    · exact le_rfl
    · have := (List.pairwise_cons.mp hrow.ordered).1 y hy
      have := hP.pos (hrow.all x List.mem_cons_self)
      omega
  have hlast : z.span.stop ≤ ((used.getLast?).getD x).span.stop := by
    rcases List.eq_nil_or_concat used with rfl | ⟨mid, w, rfl⟩
    · rw [List.mem_singleton] at hz
      subst hz
      exact le_rfl
    · rw [List.concat_eq_append, List.getLast?_concat, Option.getD_some]
      rw [List.concat_eq_append, ← List.cons_append] at hrow hz
      rcases List.mem_append.mp hz with hz | hz
      · have := (List.pairwise_append.mp hrow.ordered).2.2 z hz w List.mem_cons_self
        have := hP.pos (hrow.all w (by simp))
        omega
      · rw [List.mem_singleton] at hz
        subst hz
        exact le_rfl
  unfold spanOver Span.merge Span.Contains
  simp only
  omega

theorem Fits.over {x : Lexeme} (hrow : Row P (x :: used)) (h : Fits P (x :: used) ts) :
    Fits P (x :: used) [.node (spanOver x used) ts] := by
  have hlast : (used.getLast?).getD x ∈ x :: used := by
    rcases hl : used.getLast? with _ | y
    · exact List.mem_cons_self
    · exact List.mem_cons_of_mem x (List.mem_of_getLast? hl)
  refine h.node ?_ ?_ fun t ht => hrow.spanOver_contains hP (h.within t ht)
  · exact hP.merge (hrow.all x List.mem_cons_self) (hrow.all _ hlast)
  · exact .merge (.lexeme List.mem_cons_self) (.lexeme hlast)

/-- Between two brackets. -/
theorem Fits.bracketed {x y : Lexeme} (hrow : Row P (x :: (used ++ [y]))) (h : Fits P used ts) :
    Fits P (x :: (used ++ [y])) [.node (x.span.merge y.span) ts] := by
  have hspan : spanOver x (used ++ [y]) = x.span.merge y.span := by
    simp [spanOver]
  rw [← hspan]
  exact Fits.over hP hrow (h.mono (by simp))

/-- Two operands. -/
theorem Fits.both {a b : Outline} (h : Fits P used [a, b]) :
    Fits P used [.node (a.span.merge b.span) [a, b]] := by
  have ha : a ∈ [a, b] := List.mem_cons_self
  have hb : b ∈ [a, b] := by simp
  refine h.node (hP.merge (h.laid a ha).holds (h.laid b hb).holds)
    (.merge (h.within a ha) (h.within b hb)) fun t ht => ?_
  simp only [List.mem_cons, List.not_mem_nil, or_false] at ht
  rcases ht with rfl | rfl
  · exact Span.merge_contains_left ..
  · exact Span.merge_contains_right ..

/-- An operand with an operator before it. -/
theorem Fits.from {x : Lexeme} {t : Outline} (hrow : Row P (x :: used)) (h : Fits P used [t]) :
    Fits P (x :: used) [.node (x.span.merge t.span) [t]] := by
  have ht : t ∈ [t] := List.mem_cons_self
  refine h.cons.node (hP.merge (hrow.all x List.mem_cons_self) (h.laid t ht).holds)
    (.merge (.lexeme List.mem_cons_self) (h.cons.within t ht)) fun u hu => ?_
  rw [List.mem_singleton] at hu
  subst hu
  exact Span.merge_contains_right ..

/-- A part with others after it, up to a last lexeme. -/
theorem Fits.upTo {y : Lexeme} {t : Outline} (hrow : Row P (used ++ [y]))
    (h : Fits P used (t :: ts)) :
    Fits P (used ++ [y]) [.node (t.span.merge y.span) (t :: ts)] := by
  have ht : t ∈ t :: ts := List.mem_cons_self
  have hy : y ∈ used ++ [y] := by simp
  have hmono := h.mono (List.subset_append_left used [y])
  refine hmono.node (hP.merge (h.laid t ht).holds (hrow.all y hy))
    (.merge (hmono.within t ht) (.lexeme hy)) fun u hu => ?_
  have hpos := hP.pos (h.laid t ht).holds
  have hposy := hP.pos (hrow.all y hy)
  have hstop : u.span.stop ≤ y.span.start :=
    Within.before hrow (h.within u hu) (.lexeme List.mem_cons_self)
  have hstart : t.span.start ≤ u.span.start := by
    rcases List.mem_cons.mp hu with rfl | hu
    · exact le_rfl
    · have : t.span.stop ≤ u.span.start := (List.pairwise_cons.mp h.ordered).1 u hu
      omega
  unfold Span.merge Span.Contains
  simp only
  omega

end Merged

/-! ## Expressions -/

variable {ends : Edge → List Lexeme → Prop}

mutual

theorem Phrase.fits (hP : Merging P) {level used e rest} :
    Phrase ends level used e rest → Row P used → Fits P used [e.outline]
  | .tighter _ h _, hrow => h.fits hP hrow
  | .binary _ _ _ ha hb, hrow => by
    have hfits := Fits.append hrow (ha.fits hP hrow.left) (hb.fits hP hrow.right.tail).cons
    simpa only [Expr.outline, ExprNode.outlines, Expr.span_outline] using Fits.both hP hfits
  | .unary _ _ h, hrow => by
    have hfits := Fits.from hP hrow (h.fits hP hrow.tail)
    simpa only [Expr.outline, ExprNode.outlines, Expr.span_outline] using hfits
  | .range ha _ hb, hrow => by
    have hfits := Fits.append hrow (ha.fits hP hrow.left) (hb.fits hP hrow.right.tail).cons
    simpa only [Expr.outline, ExprNode.outlines, Expr.span_outline] using Fits.both hP hfits
  | .atom h, hrow => by
    rw [Expr.outline, h.outlines]
    exact Fits.leaf (hrow.all _ List.mem_cons_self)
  | .array _ h _, hrow => by
    rw [Expr.outline, ExprNode.outlines]
    exact Fits.bracketed hP hrow (h.fits hP hrow.tail.left)
  | .paren _ h _, hrow => (h.fits hP hrow.tail.left).mono (by simp)
  | @Phrase.cast _ x target p used e y rest _ _ h _, hrow => by
    have hfits : Fits P (p :: used) [e.outline] := (h.fits hP hrow.tail.tail.left).cons
    rw [Expr.outline, ExprNode.outlines]
    exact Fits.bracketed hP hrow hfits
  | @Phrase.index _ base e x used i y rest h _ hi _, hrow => by
    have hcut : base ++ x :: (used ++ [y]) = (base ++ x :: used) ++ [y] := by simp
    have hrow' := hcut ▸ hrow
    have hfits : Fits P (base ++ x :: used) [e.outline, i.outline] :=
      Fits.append hrow'.left (h.fits hP hrow.left) (hi.fits hP hrow.right.tail.left).cons
    rw [hcut, Expr.outline, ExprNode.outlines, ← e.span_outline]
    exact Fits.upTo hP hrow' hfits
  | @Phrase.call _ base name span x used es y rest h _ hs _, hrow => by
    have hcut : base ++ x :: (used ++ [y]) = (base ++ x :: used) ++ [y] := by simp
    have hrow' := hcut ▸ hrow
    have hname := h.fits hP hrow.left
    rw [Expr.outline, ExprNode.outlines] at hname
    have hfits : Fits P (base ++ x :: used) (.node span [] :: Expr.outlineAll es) :=
      Fits.append hrow'.left hname (hs.fits hP hrow.right.tail.left).cons
    rw [hcut, Expr.outline, ExprNode.outlines]
    exact Fits.upTo hP hrow' hfits

theorem Whole.fits (hP : Merging P) {level used e rest} :
    Whole ends level used e rest → Row P used → Fits P used [e.outline]
  | .intro h _, hrow => h.fits hP hrow

theorem Listed.fits (hP : Merging P) {used es rest} :
    Listed ends used es rest → Row P used → Fits P used (Expr.outlineAll es)
  | .none, _ => .nil _
  | .one h, hrow => h.fits hP hrow
  | .more h _ hs, hrow => Fits.append hrow (h.fits hP hrow.left) (hs.fits hP hrow.right.tail).cons

end

/-! ## Statements -/

theorem Names.fits {names : List Name} (h : Names used names) (hrow : Row P used) :
    Fits P used (names.map Name.outline) := by
  induction h with
  | none => exact .nil _
  | one _ => exact Fits.leaf (hrow.all _ List.mem_cons_self)
  | @more x text c used p ps _ _ _ ih =>
    have hrow' : Row P ([x] ++ c :: used) := hrow
    exact Fits.append hrow' (Fits.leaf (hrow.all x List.mem_cons_self)) (ih hrow.tail.tail).cons

mutual

theorem Node.fits (hP : Merging P) {used node rest} :
    Node ends used node rest → Row P used → Fits P used node.outlines
  | @Node.function _ x n text o names params c used body rest _ _ _ hnames _ hbody, hrow => by
    have hrow' : Row P ([n] ++ o :: (names ++ c :: used)) := hrow.tail
    have hinner := hrow'.right.tail
    have hfits := Fits.append hinner (hnames.fits hinner.left)
      (hbody.fits hP hinner.right.tail).cons
    have hleaf := Fits.leaf (hrow'.all n List.mem_cons_self)
    exact Fits.over hP hrow (Fits.append hrow' hleaf hfits.cons).cons
  | .cond _ htest hyes hno, hrow => by
    have hinner := hrow.tail
    have hfits := Fits.append hinner.left (htest.fits hP hinner.left.left)
      (hyes.fits hP hinner.left.right)
    exact (Fits.append hinner hfits (hno.fits hP hinner.right)).cons
  | .loop _ htest hbody, hrow =>
    (Fits.append hrow.tail (htest.fits hP hrow.tail.left) (hbody.fits hP hrow.tail.right)).cons
  | @Node.each _ x n text i used items block body rest _ _ _ hitems hbody, hrow => by
    have hrow' : Row P ([n] ++ i :: (used ++ block)) := hrow.tail
    have hinner := hrow'.right.tail
    have hfits := Fits.append hinner (hitems.fits hP hinner.left) (hbody.fits hP hinner.right)
    have hleaf := Fits.leaf (hrow'.all n List.mem_cons_self)
    exact (Fits.append hrow' hleaf hfits.cons).cons
  | .times _ hcount hbody, hrow =>
    (Fits.append hrow.tail (hcount.fits hP hrow.tail.left) (hbody.fits hP hrow.tail.right)).cons
  | .leave _ _, _ => .nil _
  | .return _ h, hrow => (h.fits hP hrow.tail).cons
  | .stop _, _ => .nil _
  | .next _, _ => .nil _
  | .expr h _, hrow => h.fits hP hrow
  | .assign h _ hplace hvalue, hrow => by
    rw [StmtNode.outlines, hplace.outline]
    exact Fits.append hrow (h.fits hP hrow.left) (hvalue.fits hP hrow.right.tail).cons

theorem Otherwise.fits (hP : Merging P) {used no rest} :
    Otherwise ends used no rest → Row P used → Fits P used (Block.outlineOption no)
  | .none _, _ => .nil _
  | .cond _ _ h, hrow => by
    have hstmt := Fits.over hP hrow.tail (h.fits hP hrow.tail)
    exact (Fits.over hP hrow.tail hstmt).cons
  | .block _ h, hrow => (h.fits hP hrow.tail).cons

theorem Sentence.fits (hP : Merging P) {used stmt rest} :
    Sentence ends used stmt rest → Row P used → Fits P used [stmt.outline]
  | .bare h _, hrow => Fits.over hP hrow (h.fits hP hrow)
  | @Sentence.closed _ x used node y rest h _, hrow => by
    have hrow' : Row P ((x :: used) ++ [y]) := hrow
    exact (Fits.over hP hrow'.left (h.fits hP hrow'.left)).mono (by simp)

theorem Items.fits (hP : Merging P) {used stmts rest} :
    Items ends used stmts rest → Row P used → Fits P used (Stmt.outlineAll stmts)
  | .nil, _ => .nil _
  | .semi _ h, hrow => (h.fits hP hrow.tail).cons
  | .cons h hs, hrow => Fits.append hrow (h.fits hP hrow.left) (hs.fits hP hrow.right)

theorem Braced.fits (hP : Merging P) {used block rest} :
    Braced ends used block rest → Row P used → Fits P used [block.outline]
  | .intro _ h _, hrow => Fits.bracketed hP hrow (h.fits hP hrow.tail.left)

end

end Grammar

end Quill
