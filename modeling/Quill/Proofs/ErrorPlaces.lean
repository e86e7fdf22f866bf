-- The places that errors of an analysis are about: names that are used or
-- declared, and the words that statements start with. In a program that was
-- read each of them starts at a lexeme of its own, so no two errors are about
-- the same place. Every target in it has a root.
import Mathlib
import Quill.Proofs.MisplacedStatements

namespace Quill

/-! ## Places of a tree -/

mutual

/-- The names that an expression uses, where they stand. -/
def Expr.anchors : Expr → List Span
  | ⟨.int _, _⟩ | ⟨.float _, _⟩ | ⟨.bool _, _⟩ | ⟨.string _, _⟩ => []
  | ⟨.array elements, _⟩ => Expr.allAnchors elements
  | ⟨.var _, span⟩ => [span]
  | ⟨.binary left _ right, _⟩ => left.anchors ++ right.anchors
  | ⟨.unary _ operand, _⟩ => operand.anchors
  | ⟨.range first last, _⟩ => first.anchors ++ last.anchors
  | ⟨.index base index, _⟩ => base.anchors ++ index.anchors
  | ⟨.call callee args, _⟩ => callee.span :: Expr.allAnchors args
  | ⟨.cast _ operand, _⟩ => operand.anchors

def Expr.allAnchors : List Expr → List Span
  | [] => []
  | e :: es => e.anchors ++ Expr.allAnchors es

end

/-- The names that a target uses. A bare name is not used but assigned to. -/
def Target.anchors (t : Target) : List Span :=
  match t.node with
  | .name _ => []
  | .element base index => base.anchors ++ index.anchors

/-- What an error can be about in a statement, leaving out its blocks. -/
def Stmt.anchors (s : Stmt) : List Span :=
  match s.node with
  | .expr e | .cond e _ _ | .loop e _ | .each _ e _ | .times e _ => e.anchors
  | .assign place value => place.anchors ++ value.anchors
  | .function d => [d.span, d.name.span]
  | .return value => s.span :: (value.map Expr.anchors).getD []
  | .stop | .next => [s.span]

/-- What a statement assigns to. -/
def Stmt.target? (s : Stmt) : Option Target :=
  match s.node with
  | .assign place _ => some place
  | _ => none

namespace Grammar

variable {P : Span → Prop} {ends : Edge → List Lexeme → Prop}
  {used used' first second : List Lexeme} {spans spans' : List Span}

/-! ## Expressions -/

/-- The spans start where some of the lexemes do, in the same order. -/
def Begins (used : List Lexeme) (spans : List Span) : Prop :=
  (spans.map (·.start)).Sublist (used.map (·.span.start))

theorem Begins.nil (used : List Lexeme) : Begins used [] := List.nil_sublist _

theorem Begins.sublist (h : Begins used spans) (hsub : used.Sublist used') :
    Begins used' spans := h.trans (hsub.map _)

theorem Begins.later {x : Lexeme} (h : Begins used spans) : Begins (x :: used) spans :=
  h.sublist (List.sublist_cons_self ..)

theorem Begins.cons {x : Lexeme} {span : Span} (hspan : span.start = x.span.start)
    (h : Begins used spans) : Begins (x :: used) (span :: spans) := by
  unfold Begins
  rw [List.map_cons, List.map_cons, hspan]
  exact h.cons_cons _

theorem Begins.append (h : Begins first spans) (h' : Begins second spans') :
    Begins (first ++ second) (spans ++ spans') := by
  unfold Begins
  rw [List.map_append, List.map_append]
  exact List.Sublist.append h h'

/-- Between two brackets. -/
theorem Begins.bracketed (h : Begins used spans) (x y : Lexeme) :
    Begins (x :: (used ++ [y])) spans := (h.sublist (List.sublist_append_left ..)).later

theorem Atom.begins {x : Lexeme} {node : ExprNode} (h : Atom x.token node) :
    Begins [x] (Expr.anchors ⟨node, x.span⟩) := by
  generalize x.token = t at h
  cases h with
  | name text =>
    rw [Expr.anchors]
    exact .cons rfl (.nil [])
  | _ =>
    rw [Expr.anchors]
    exact .nil _

mutual

theorem Phrase.begins {level used e rest} : Phrase ends level used e rest → Begins used e.anchors
  | .tighter _ h _ => h.begins
  | .binary _ _ _ ha hb => by
    rw [Expr.anchors]
    exact ha.begins.append hb.begins.later
  | .unary _ _ h => by
    rw [Expr.anchors]
    exact h.begins.later
  | .range ha _ hb => by
    rw [Expr.anchors]
    exact ha.begins.append hb.begins.later
  | .atom h => h.begins
  | .array _ h _ => by
    rw [Expr.anchors]
    exact h.begins.bracketed _ _
  | .paren _ h _ => h.begins.bracketed _ _
  | .cast _ _ h _ => by
    rw [Expr.anchors]
    exact h.begins.later.bracketed _ _
  | .index h _ hi _ => by
    rw [Expr.anchors]
    exact h.begins.append (hi.begins.bracketed _ _)
  | .call h _ hs _ => by
    have hname := h.begins
    simp only [Expr.anchors] at hname ⊢
    exact hname.append (hs.begins.bracketed _ _)

theorem Whole.begins {level used e rest} : Whole ends level used e rest → Begins used e.anchors
  | .intro h _ => h.begins

theorem Listed.begins {used es rest} : Listed ends used es rest → Begins used (Expr.allAnchors es)
  | .none => .nil _
  | .one h => by
    rw [Expr.allAnchors, Expr.allAnchors, List.append_nil]
    exact h.begins
  | .more h _ hs => by
    rw [Expr.allAnchors]
    exact h.begins.append hs.begins.later

end

/-! ## Statements -/

theorem Place.anchors {e : Expr} {place : Target} (h : Place e place)
    (hbegins : Begins used e.anchors) : Begins used place.anchors := by
  cases h with
  | name text span => exact .nil _
  | element index span _ => rwa [Expr.anchors] at hbegins

theorem Place.root_isSome {e : Expr} {place : Target} (h : Place e place) :
    place.root?.isSome = true := by
  cases h with
  | name text span => rfl
  | element index span hr => exact Reader.root?_of_rooted hr

/-- The places in statements start where some of the lexemes do, and all that
they assign to has a root. -/
structure Anchored (used : List Lexeme) (ps : List Placed) : Prop where
  begins : Begins used (ps.flatMap (·.stmt.anchors))
  rooted : ∀ p ∈ ps, ∀ place, p.stmt.target? = some place → place.root?.isSome = true

namespace Anchored

variable {ps qs : List Placed}

theorem nil (used : List Lexeme) : Anchored used [] := ⟨.nil used, by simp⟩

theorem sublist (h : Anchored used ps) (hsub : used.Sublist used') : Anchored used' ps :=
  ⟨h.begins.sublist hsub, h.rooted⟩

theorem later {x : Lexeme} (h : Anchored used ps) : Anchored (x :: used) ps :=
  h.sublist (List.sublist_cons_self ..)

theorem append (h : Anchored first ps) (h' : Anchored second qs) :
    Anchored (first ++ second) (ps ++ qs) := by
  refine ⟨?_, fun p hp => ?_⟩
  · rw [List.flatMap_append]
    exact h.begins.append h'.begins
  · rcases List.mem_append.mp hp with hp | hp
    · exact h.rooted p hp
    · exact h'.rooted p hp

/-- A statement that is no assignment. -/
theorem single {s : Stmt} (around : List Enclosure) (h : Begins used s.anchors)
    (hs : s.target? = none) : Anchored used [⟨s, around⟩] := by
  refine ⟨by simpa using h, fun q hq place hplace => ?_⟩
  rw [List.mem_singleton.mp hq, hs] at hplace
  cases hplace

end Anchored

/-- The span over lexemes starts where the first of them does. -/
theorem Row.spanOver_start (hP : Merging P) {x : Lexeme} (hrow : Row P (x :: used)) :
    (spanOver x used).start = x.span.start := by
  have hle : x.span.start ≤ ((used.getLast?).getD x).span.start := by
    rcases hlast : used.getLast? with _ | y
    · exact le_rfl
    · have hbefore := (List.pairwise_cons.mp hrow.ordered).1 y (List.mem_of_getLast? hlast)
      exact (hP.pos (hrow.all x List.mem_cons_self)).le.trans hbefore
  exact Nat.min_eq_left hle

mutual

/-- Of the span of the statement only the start matters: the places of `return`,
`stop` and `next` are the statements themselves. -/
theorem Node.anchored (hP : Merging P) {used node rest} :
    Node ends used node rest → Row P used → (span : Span) → (around : List Enclosure) →
      (∀ x xs, used = x :: xs → span.start = x.span.start) →
      Anchored used (Stmt.placed around ⟨node, span⟩)
  | @Node.function _ x n text o names params c used body rest _ _ _ _ _ hbody, hrow, span, around,
      _ => by
    have hown : Begins [x, n] [spanOver x (n :: o :: (names ++ c :: used)), n.span] :=
      .cons (hrow.spanOver_start hP) (.cons rfl (.nil []))
    have hinner := hbody.anchored hP hrow.tail.tail.tail.right.tail (.function :: around)
    have hown' := Anchored.single (s := ⟨.function ⟨⟨text, n.span⟩, params, body, _⟩, span⟩) around
      hown rfl
    simp only [Stmt.placed, StmtNode.placed]
    exact hown'.append (hinner.later.sublist (List.sublist_append_right names _)).later
  | @Node.cond _ x used test block yes others no rest _ htest hyes hno, hrow, span, around, _ => by
    have hown := Anchored.single (s := ⟨.cond test yes no, span⟩) around
      (htest.begins.later (x := x)) rfl
    have hyes' := hyes.anchored hP hrow.tail.left.right (.branch :: around)
    have hno' := hno.anchored hP hrow.tail.right (.branch :: around)
    have hall := (hown.append hyes').append hno'
    rcases no with _ | no
    · simpa [Stmt.placed, StmtNode.placed] using hall
    · simpa [Stmt.placed, StmtNode.placed] using hall
  | @Node.loop _ x used test block body rest _ h hbody, hrow, span, around, _ => by
    have hown := Anchored.single (s := ⟨.loop test body, span⟩) around (h.begins.later (x := x)) rfl
    simp only [Stmt.placed, StmtNode.placed]
    exact hown.append (hbody.anchored hP hrow.tail.right (.loop :: around))
  | @Node.each _ x n text i used items block body rest _ _ _ h hbody, hrow, span, around, _ => by
    have hown := Anchored.single (s := ⟨.each ⟨text, n.span⟩ items body, span⟩) around
      (((h.begins.later (x := i)).later (x := n)).later (x := x)) rfl
    simp only [Stmt.placed, StmtNode.placed]
    exact hown.append (hbody.anchored hP hrow.tail.tail.tail.right (.loop :: around))
  | @Node.times _ x used count block body rest _ h hbody, hrow, span, around, _ => by
    have hown := Anchored.single (s := ⟨.times count body, span⟩) around
      (h.begins.later (x := x)) rfl
    simp only [Stmt.placed, StmtNode.placed]
    exact hown.append (hbody.anchored hP hrow.tail.right (.loop :: around))
  | .leave _ _, _, span, around, hstart => .single around (.cons (hstart _ _ rfl) (.nil [])) rfl
  | .return _ h, _, span, around, hstart => .single around (.cons (hstart _ _ rfl) h.begins) rfl
  | .stop _, _, span, around, hstart => .single around (.cons (hstart _ _ rfl) (.nil [])) rfl
  | .next _, _, span, around, hstart => .single around (.cons (hstart _ _ rfl) (.nil [])) rfl
  | .expr h _, _, span, around, _ => .single around h.begins rfl
  | @Node.assign _ used e x place others value rest h _ hplace hvalue, _, span, around, _ => by
    have hbegins := (hplace.anchors h.begins).append (hvalue.begins.later (x := x))
    simp only [Stmt.placed, StmtNode.placed]
    refine ⟨by simpa [Stmt.anchors] using hbegins, fun q hq place' hplace' => ?_⟩
    rw [List.mem_singleton.mp hq] at hplace'
    cases hplace'
    exact hplace.root_isSome

theorem Otherwise.anchored (hP : Merging P) {used no rest} :
    Otherwise ends used no rest → Row P used → (around : List Enclosure) →
      Anchored used ((no.map (Block.placed around)).getD [])
  | .none _, _, _ => .nil _
  | .cond _ _ h, hrow, around => by
    have hstmt := h.anchored hP hrow.tail _ around fun x xs hx => by
      cases hx
      exact hrow.tail.spanOver_start hP
    simp only [Option.map_some, Option.getD_some, Block.placed, Stmt.allPlaced, List.append_nil]
    exact hstmt.later
  | .block _ h, hrow, around => (h.anchored hP hrow.tail around).later

theorem Sentence.anchored (hP : Merging P) {used stmt rest} :
    Sentence ends used stmt rest → Row P used → (around : List Enclosure) →
      Anchored used (stmt.placed around)
  | .bare h _, hrow, around => h.anchored hP hrow _ around fun x xs hx => by
    cases hx
    exact hrow.spanOver_start hP
  | @Sentence.closed _ x used node y rest h _, hrow, around => by
    have hsub : (x :: used).Sublist (x :: (used ++ [y])) :=
      (List.sublist_append_left used [y]).cons_cons x
    have hstmt := h.anchored hP (hrow.sublist hsub) _ around fun x xs hx => by
      cases hx
      exact (hrow.sublist hsub).spanOver_start hP
    exact hstmt.sublist hsub

theorem Items.anchored (hP : Merging P) {used stmts rest} :
    Items ends used stmts rest → Row P used → (around : List Enclosure) →
      Anchored used (Stmt.allPlaced around stmts)
  | .nil, _, _ => .nil _
  | .semi _ h, hrow, around => (h.anchored hP hrow.tail around).later
  | .cons h hs, hrow, around =>
    (h.anchored hP hrow.left around).append (hs.anchored hP hrow.right around)

theorem Braced.anchored (hP : Merging P) {used block rest} :
    Braced ends used block rest → Row P used → (around : List Enclosure) →
      Anchored used (block.placed around)
  | .intro _ h _, hrow, around => by
    have hitems := h.anchored hP hrow.tail.left around
    exact (hitems.sublist (List.sublist_append_left ..)).later

end

/-- Lexemes in a row start one after the other. -/
theorem Row.nodup_starts (hP : Merging P) (hrow : Row P used) :
    (used.map (·.span.start)).Nodup := by
  refine List.pairwise_map.mpr (hrow.ordered.imp_of_mem fun {x y} hx _ hbefore => ?_)
  exact ((hP.pos (hrow.all x hx)).trans_le hbefore).ne

end Grammar

/-! ## Programs -/

/-- In a program that was read no two places start at the same offset. -/
theorem Program.nodup_anchors {source : String} {p : Program} (hp : parseSource source = .ok p) :
    ((p.placed.flatMap (·.stmt.anchors)).map (·.start)).Nodup := by
  obtain ⟨lexemes, hlexed, hitems⟩ := parseSource_eq_ok_iff.mp hp
  have hmerging := merging_over source.toList
  have hanchored := hitems.anchored hmerging hlexed.tiled.row []
  exact (hlexed.tiled.row.nodup_starts hmerging).sublist hanchored.begins

/-- All that a program assigns to has a root, if the program was read. -/
theorem Program.root_isSome {source : String} {p : Program} (hp : parseSource source = .ok p)
    {q : Placed} (hq : q ∈ p.placed) {place : Target} (hplace : q.stmt.target? = some place) :
    place.root?.isSome = true := by
  obtain ⟨lexemes, hlexed, hitems⟩ := parseSource_eq_ok_iff.mp hp
  have hanchored := hitems.anchored (merging_over source.toList) hlexed.tiled.row []
  exact hanchored.rooted q hq place hplace

end Quill
