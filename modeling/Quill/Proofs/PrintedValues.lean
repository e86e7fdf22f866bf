-- Printed values read back. The text of an array without cycles whose leaves
-- are integers, truth values and strings is the text of an array literal,
-- and what the literal evaluates to is equal to the array.
import Mathlib
import Quill.Proofs.ExactIntegers
import Quill.Proofs.Layout
import Quill.Proofs.PrintedPrograms
import Quill.Proofs.SpelledTexts
import Quill.Proofs.ValueTrees

namespace Quill

/-! ## The stack of open arrays -/

namespace Value

variable {α β : Type} {h : Heap} {depth : Nat}

/-- The step of writing leaves the stack of open arrays as it finds it. -/
def Balanced (step : Writing α) : Prop := ∀ opened, (step.run opened).2 = opened

theorem Balanced.pure (x : α) : Balanced (pure x) := fun _ => rfl

/-- Steps that leave the stack as it is all find the same stack. -/
theorem Balanced.mapM_run {f : α → Writing β} {xs : List α} (hf : ∀ x ∈ xs, Balanced (f x))
    (opened : List ArrayId) :
    (xs.mapM f).run opened = (xs.map fun x => ((f x).run opened).1, opened) := by
  induction xs with
  | nil => rfl
  | cons x xs ih =>
    have hx : (f x).run opened = (((f x).run opened).1, opened) :=
      Prod.ext rfl (hf x List.mem_cons_self opened)
    have hxs := ih fun y hy => hf y (List.mem_cons_of_mem x hy)
    rw [List.mapM_cons, StateT.run_bind, hx]
    exact congrArg (fun p : List β × List ArrayId => (((f x).run opened).1 :: p.1, p.2)) hxs

/-- The text of an element inside open arrays. It is quoted if it is a
string. -/
def showElement (h : Heap) (depth : Nat) (opened : List ArrayId) : Value → String
  | string s => Text.quoted s
  | v => ((showWithin h depth v).run opened).1

/-- An array that is open already is not written out. Of any other array each
element is written inside it and the arrays around it, and afterwards it is
open no more. -/
theorem showWithin_array (hbalanced : ∀ v, Balanced (showWithin h depth v)) (id : ArrayId)
    (opened : List ArrayId) :
    (showWithin h (depth + 1) (array id)).run opened =
      (if id ∈ opened then "[...]"
        else "[" ++ ", ".intercalate
          ((h.get id).toList.map (showElement h depth (id :: opened))) ++ "]", opened) := by
  have helements : ((h.get id).toList.mapM fun v => match v with
        | string s => (return Text.quoted s : Writing String)
        | v => showWithin h depth v).run (id :: opened) =
      ((h.get id).toList.map (showElement h depth (id :: opened)), id :: opened) := by
    rw [Balanced.mapM_run]
    · refine congrArg (·, id :: opened) (List.map_congr_left fun v _ => ?_)
      cases v <;> rfl
    · intro v _
      cases v with
      | string s => exact .pure _
      | _ => exact hbalanced _
  by_cases hopen : id ∈ opened
  · simp only [showWithin, StateT.run_bind, StateT.run_get, pure_bind, hopen, ↓reduceIte]
    rfl
  · simp only [showWithin, StateT.run_bind, StateT.run_get, pure_bind, hopen, ↓reduceIte,
      StateT.run_modify]
    exact congrArg (fun p : List String × List ArrayId =>
      ("[" ++ ", ".intercalate p.1 ++ "]", p.2.tail)) helements

theorem showWithin_balanced (h : Heap) (depth : Nat) (v : Value) :
    Balanced (showWithin h depth v) := by
  induction depth generalizing v with
  | zero => cases v <;> exact .pure _
  | succ depth ih =>
    cases v with
    | array id =>
      intro opened
      rw [showWithin_array ih]
    | _ => exact .pure _

theorem showElement_array (h : Heap) (depth : Nat) (opened : List ArrayId) (id : ArrayId) :
    (array id).showElement h (depth + 1) opened =
      if id ∈ opened then "[...]"
      else "[" ++ ", ".intercalate
        ((h.get id).toList.map (showElement h depth (id :: opened))) ++ "]" := by
  rw [showElement, showWithin_array (showWithin_balanced h depth)]
  exact nofun

end Value

/-! ## The text of a tree -/

namespace Tree

mutual

/-- The tree as it is printed. -/
def text : Tree → String
  | leaf v => v.showElement .empty 0 []
  | array elements => "[" ++ ", ".intercalate (texts elements) ++ "]"

def texts : List Tree → List String
  | [] => []
  | t :: ts => t.text :: texts ts

end

variable {h : Heap} {v : Value}

theorem showElement_leaf (hkind : v.kind ≠ .array) (depth : Nat) (opened : List ArrayId) :
    v.showElement h depth opened = v.showElement .empty 0 [] := by
  cases v with
  | array id => exact absurd rfl hkind
  | _ => cases depth <;> rfl

mutual

/-- An array without cycles is printed in full. -/
theorem Of.showElement_eq : ∀ {t : Tree} {v : Value} {depth : Nat} {opened : List ArrayId},
    t.Of h v → t.height ≤ depth → Around h opened v → v.Acyclic h →
    v.showElement h depth opened = t.text
  | leaf _, _, depth, opened, ⟨rfl, hkind⟩, _, _, _ => showElement_leaf hkind depth opened
  | array ts, _, 0, _, _, hheight, _, _ => absurd hheight (Nat.not_succ_le_zero _)
  | array ts, _, depth + 1, opened, ⟨id, rfl, hid, hall⟩, hheight, hopened, hacyclic => by
    have helements : (h.get id).toList.map (Value.showElement h depth (id :: opened)) = texts ts :=
      EachOf.map_showElement hall (Nat.le_of_succ_le_succ hheight) fun w hw =>
        have hw : w ∈ h.get id := Array.mem_toList_iff.mp hw
        ⟨hopened.element hid hacyclic hw, hacyclic.element (Value.holds_array hw)⟩
    rw [text, ← helements, Value.showElement_array, if_neg (hopened.notMem hacyclic)]

theorem EachOf.map_showElement : ∀ {ts : List Tree} {vs : List Value} {depth : Nat}
    {opened : List ArrayId}, EachOf h ts vs → heightAll ts ≤ depth →
    (∀ w ∈ vs, Around h opened w ∧ w.Acyclic h) →
    vs.map (Value.showElement h depth opened) = texts ts
  | [], [], _, _, _, _, _ => rfl
  | _ :: _, v :: vs, depth, opened, ⟨ht, hts⟩, hheight, hinside => by
    obtain ⟨hv, hvs⟩ := List.forall_mem_cons.mp hinside
    rw [List.map_cons, texts, Of.showElement_eq ht (le_of_max_le_left hheight) hv.1 hv.2,
      EachOf.map_showElement hts (le_of_max_le_right hheight) hvs]

end

/-- The text of an array is that of its tree. -/
theorem Of.text_eq {t : Tree} {id : ArrayId} (ht : t.Of h (.array id)) (hheight : t.height ≤ h.size)
    (hacyclic : (Value.array id).Acyclic h) : (Value.array id).text h = t.text :=
  ht.showElement_eq (Nat.le_succ_of_le hheight) (.nil h _) hacyclic

end Tree

/-! ## Leaves that read back -/

namespace Text

/-- Between quotes the character is itself, or one of the escapes that
string literals know. -/
def IsPlain (c : Char) : Prop :=
  quotedChar c = [c] ∨ quotedChar c ∈
    [['\\', '0'], ['\\', 't'], ['\\', 'r'], ['\\', 'n'], ['\\', '"'], ['\\', '\\']]

instance (c : Char) : Decidable (IsPlain c) := inferInstanceAs (Decidable (_ ∨ _))

theorem inside_quotedChar {c : Char} {body value : List Char} (hc : IsPlain c)
    (h : Lexer.Inside body value) : Lexer.Inside (quotedChar c ++ body) (c :: value) := by
  unfold IsPlain at hc
  unfold quotedChar at hc ⊢
  split_ifs at hc ⊢ with hzero htab hreturn hfeed hquote hslash hhidden
  · subst hzero
    exact .escape rfl h
  · subst htab
    exact .escape rfl h
  · subst hreturn
    exact .escape rfl h
  · subst hfeed
    exact .escape rfl h
  · subst hquote
    exact .escape rfl h
  · subst hslash
    exact .escape rfl h
  · simp at hc
  · exact .plain hquote hslash h

theorem inside_quoted {cs : List Char} (h : ∀ c ∈ cs, IsPlain c) :
    Lexer.Inside (cs.flatMap quotedChar) cs := by
  induction cs with
  | nil => exact .nil
  | cons c cs ih =>
    obtain ⟨hc, hcs⟩ := List.forall_mem_cons.mp h
    rw [List.flatMap_cons]
    exact inside_quotedChar hc (ih hcs)

end Text

namespace Value

/-- The value is no array, and its text is that of a literal. -/
def ReadsBack : Value → Prop
  | int n => n ≠ Int64.minValue
  | bool _ => True
  | string s => ∀ c ∈ s.toList, Text.IsPlain c
  | _ => False

instance : (v : Value) → Decidable v.ReadsBack
  | int n => inferInstanceAs (Decidable (n ≠ Int64.minValue))
  | bool _ => inferInstanceAs (Decidable True)
  | string s => inferInstanceAs (Decidable (∀ c ∈ s.toList, Text.IsPlain c))
  | float _ | array _ | function _ _ | void => inferInstanceAs (Decidable False)

/-- The expression is a literal of the value. -/
inductive Literal : Value → ExprNode → Prop
  | int (n : Int64) : Literal (.int n) (.int n)
  | negative {n m : Int64} (span : Span) : n.toInt = -m.toInt →
      Literal (.int n) (.unary .neg ⟨.int m, span⟩)
  | bool (b : Bool) : Literal (.bool b) (.bool b)
  | string (s : String) : Literal (.string s) (.string s)

theorem Literal.kind_ne {v : Value} {node : ExprNode} (h : v.Literal node) : v.kind ≠ .array := by
  cases h <;> exact nofun

end Value

namespace Lexer

variable {rest : List Char}

theorem spells_quoted {s : String} (h : ∀ c ∈ s.toList, Text.IsPlain c) :
    Spells (Text.quoted s).toList (.string s) := by
  have hspells := Spells.string (Text.inside_quoted h)
  rwa [String.ofList_toList, ← String.toList_ofList (l := '"' :: _)] at hspells

theorem reads_open (rest : List Char) : Reads ['['] [.symbol .lbracket] rest :=
  .of_piece (by rfl)

/-- A comma and a blank are read as a comma. -/
theorem reads_comma (rest : List Char) : Reads [',', ' '] [.symbol .comma] rest :=
  ((Spells.symbol .comma).reads (parted_cons (.inl rfl) rest)).append (reads_space rest)

theorem reads_minus (rest : List Char) : Reads ['-'] [.symbol .minus] rest :=
  .of_piece (by rfl)

/-- The text of an integer is read as its literal, with a sign before it if
it is negative. -/
theorem int_reads {n : Int64} (hn : n ≠ Int64.minValue) :
    ∃ node, Value.Literal (.int n) node ∧
      ∀ rest, Parted rest → Reads (toString n.toInt).toList node.print rest := by
  have hlow := Int64.le_toInt n
  have hhigh := Int64.toInt_lt n
  rw [Int.toString_eq_repr, Int.repr_eq_if]
  split_ifs with hsign
  · have hk : n.toInt.toNat < Nat.pow 2 63 := by
      change _ < 2 ^ 63
      omega
    have hvalue : Int64.ofNat n.toInt.toNat = n := by
      rw [← Int64.ofInt_eq_ofNat, Int.toNat_of_nonneg hsign, Int64.ofInt_toInt]
    refine ⟨.int n, .int n, fun rest hrest => ?_⟩
    rw [Nat.repr_eq_ofList_toDigits, String.toList_ofList, ExprNode.print]
    have hspells := spells_toDigits hk
    rw [hvalue] at hspells
    exact hspells.reads hrest
  · -- the digits of the least integer alone would be too large a number
    have hmin : n.toInt ≠ -2 ^ 63 := by
      rw [← Int64.toInt_minValue]
      exact fun h => hn (Int64.toInt_inj.mp h)
    have hk : (-n.toInt).toNat < Nat.pow 2 63 := by
      change _ < 2 ^ 63
      omega
    have hvalue : n.toInt = -(Int64.ofNat (-n.toInt).toNat).toInt := by
      rw [Int64.toInt_ofNat_of_lt hk]
      omega
    refine ⟨.unary .neg ⟨.int (Int64.ofNat (-n.toInt).toNat), .origin⟩, .negative .origin hvalue,
      fun rest hrest => ?_⟩
    rw [String.toList_append, Nat.repr_eq_ofList_toDigits]
    simp only [String.toList_ofList]
    exact (reads_minus _).append ((spells_toDigits hk).reads hrest)

/-- The text of a leaf is read as a literal of it. -/
theorem leaf_reads {v : Value} (hv : v.ReadsBack) :
    ∃ node, v.Literal node ∧
      ∀ rest, Parted rest → Reads (v.showElement .empty 0 []).toList node.print rest := by
  cases v with
  | int n => exact int_reads hv
  | bool b =>
    refine ⟨.bool b, .bool b, fun rest hrest => ?_⟩
    cases b with
    | true => exact (Spells.keyword .trueKw).reads hrest
    | false => exact (Spells.keyword .falseKw).reads hrest
  | string s => exact ⟨.string s, .string s, fun rest hrest => (spells_quoted hv).reads hrest⟩
  | float _ | array _ | function _ _ | void => exact hv.elim

end Lexer

/-! ## Trees as array literals -/

namespace Tree

mutual

/-- The expression writes the tree. -/
def WrittenAs : Tree → Expr → Prop
  | leaf v, e => v.Literal e.node
  | array elements, e => ∃ es, e.node = .array es ∧ EachWrittenAs elements es

def EachWrittenAs : List Tree → List Expr → Prop
  | [], [] => True
  | t :: ts, e :: es => t.WrittenAs e ∧ EachWrittenAs ts es
  | _, _ => False

end

theorem EachWrittenAs.exists_cons {t : Tree} {ts : List Tree} {es : List Expr}
    (h : EachWrittenAs (t :: ts) es) : ∃ e es', es = e :: es' := by
  cases es with
  | nil => exact h.elim
  | cons e es => exact ⟨e, es, rfl⟩

open Lexer in
mutual

/-- The text of a tree is read as the tokens of an expression that writes
it. -/
theorem text_reads : ∀ {t : Tree}, t.AllLeaves Value.ReadsBack →
    ∃ e, t.WrittenAs e ∧ ∀ rest, Parted rest → Reads t.text.toList e.print rest
  | leaf _, hleaf => by
    obtain ⟨node, hnode, hreads⟩ := leaf_reads hleaf
    exact ⟨⟨node, .origin⟩, hnode, hreads⟩
  | array ts, hleaves => by
    obtain ⟨es, hes, hreads⟩ := texts_read hleaves
    refine ⟨⟨.array es, .origin⟩, ⟨es, rfl, hes⟩, fun rest hrest => ?_⟩
    have hclose : Reads [']'] [.symbol .rbracket] rest := (Spells.symbol .rbracket).reads hrest
    have hinner := (hreads rest).append hclose
    have hall := (reads_open _).append hinner
    simpa [text, String.toList_append, Expr.print, ExprNode.print] using hall

theorem texts_read : ∀ {ts : List Tree}, EachAllLeaves Value.ReadsBack ts →
    ∃ es, EachWrittenAs ts es ∧ ∀ rest,
      Reads (", ".intercalate (texts ts)).toList (Expr.printAll es) (']' :: rest)
  | [], _ => ⟨[], trivial, fun rest => reads_nil _⟩
  | [t], hleaves => by
    obtain ⟨e, he, hreads⟩ := text_reads hleaves.1
    refine ⟨[e], ⟨he, trivial⟩, fun rest => ?_⟩
    rw [texts, texts, String.intercalate_singleton]
    exact hreads _ (parted_cons (.inr (.inr rfl)) rest)
  | t :: t' :: ts, hleaves => by
    obtain ⟨e, he, hreads⟩ := text_reads hleaves.1
    obtain ⟨es, hes, hreads'⟩ := texts_read hleaves.2
    obtain ⟨e', es', rfl⟩ := hes.exists_cons
    refine ⟨e :: e' :: es', ⟨he, hes⟩, fun rest => ?_⟩
    have hothers := (reads_comma _).append (hreads' rest)
    have hall := (hreads _ (parted_cons (.inr (.inl rfl)) _)).append hothers
    rw [texts, texts, String.intercalate_cons_cons, ← texts]
    simpa [String.toList_append, Expr.printAll] using hall

end

end Tree

/-! ## Reading a literal -/

/-- Statements that are one expression up to spans are one expression. -/
theorem statement_of_bare {ss : List Stmt} {e : Expr} {span : Span}
    (h : Stmt.respanAll .forget ss = Stmt.respanAll .forget [⟨.expr e, span⟩]) :
    ∃ e' place, ss = [⟨.expr e', place⟩] ∧ e'.respan .forget = e.respan .forget := by
  rcases ss with _ | ⟨⟨node, place⟩, _ | ⟨_, _⟩⟩
  · cases h
  · simp only [Stmt.respanAll, Stmt.respan, List.cons.injEq, Stmt.mk.injEq, and_true] at h
    cases node <;> simp only [StmtNode.respan, reduceCtorEq, false_and, StmtNode.expr.injEq] at h
    exact ⟨_, place, rfl, h.1⟩
  · simp [Stmt.respanAll] at h

open Grammar in
/-- The tokens of an expression alone are a program of one statement. -/
theorem parse_expr_print (e : Expr) (source : String) {lexemes : List Lexeme}
    (hl : lexemes.map (·.token) = e.print) :
    ∃ e' place, parse source lexemes = .ok ⟨[⟨.expr e', place⟩]⟩ ∧
      e'.respan .forget = e.respan .forget := by
  have hclosed : ClosedAbove .or [] := ⟨fun _ _ => stops_nil _, fun _ => stops_nil _⟩
  obtain ⟨e₁, he₁, heq₁⟩ := (Expr.printed e).whole hclosed (stops_nil _)
  have hnode : Node Stops (marks e.print) (.expr e₁) [] :=
    .expr (by simpa [wrap, Level.rank] using he₁) (stops_nil _)
  obtain ⟨x, xs, hx, -⟩ := hnode.head
  rw [hx] at hnode
  have hitems : Items Stops (x :: xs ++ []) _ [] := .cons (.bare hnode (stops_nil _)) .nil
  have halike : Alike .forget .forget (x :: xs ++ []) lexemes := by
    rw [List.append_nil, ← hx]
    exact alike_of_tokens (by rw [hl, marks, List.map_map]; exact List.map_id _)
  obtain ⟨ss, hss, hsame⟩ := hitems.transfer merges_forget merges_forget halike fun _ => id
  obtain ⟨e', place, rfl, heq'⟩ := statement_of_bare hsame
  exact ⟨e', place, parseLexemes_of_items hss, heq'.trans heq₁⟩

theorem Expr.node_of_bare {e e' : Expr} (h : e'.respan .forget = e.respan .forget) :
    e'.node.respan .forget = e.node.respan .forget := by
  obtain ⟨node, span⟩ := e
  obtain ⟨node', span'⟩ := e'
  exact congrArg Expr.node h

theorem ExprNode.int_of_bare {node : ExprNode} {n : Int64} (h : node.respan .forget = .int n) :
    node = .int n := by
  cases node <;> simp only [ExprNode.respan, reduceCtorEq] at h
  exact h

/-- Literals of a value are told by their form alone. -/
theorem Value.Literal.of_bare {v : Value} {node node' : ExprNode} (h : v.Literal node)
    (hbare : node'.respan .forget = node.respan .forget) : v.Literal node' := by
  cases h with
  | int n => exact ExprNode.int_of_bare hbare ▸ .int n
  | negative span hn =>
    cases node' <;> simp only [ExprNode.respan, reduceCtorEq, ExprNode.unary.injEq] at hbare
    rename_i op operand
    obtain ⟨rfl, hoperand⟩ := hbare
    obtain ⟨node, span'⟩ := operand
    obtain rfl := ExprNode.int_of_bare (Expr.node_of_bare hoperand)
    exact .negative span' hn
  | bool b =>
    cases node' <;> simp only [ExprNode.respan, reduceCtorEq, ExprNode.bool.injEq] at hbare
    exact hbare ▸ .bool b
  | string s =>
    cases node' <;> simp only [ExprNode.respan, reduceCtorEq, ExprNode.string.injEq] at hbare
    exact hbare ▸ .string s

namespace Tree

mutual

theorem WrittenAs.of_bare : ∀ {t : Tree} {e e' : Expr}, t.WrittenAs e →
    e'.respan .forget = e.respan .forget → t.WrittenAs e'
  | leaf _, _, _, hleaf, hbare => Value.Literal.of_bare hleaf (Expr.node_of_bare hbare)
  | array _, e, ⟨node, span⟩, ⟨es, hes, hall⟩, hbare => by
    have hnode := Expr.node_of_bare hbare
    rw [hes] at hnode
    cases node <;> simp only [ExprNode.respan, reduceCtorEq, ExprNode.array.injEq] at hnode
    exact ⟨_, rfl, EachWrittenAs.of_bare hall hnode⟩

theorem EachWrittenAs.of_bare : ∀ {ts : List Tree} {es es' : List Expr}, EachWrittenAs ts es →
    Expr.respanAll .forget es' = Expr.respanAll .forget es → EachWrittenAs ts es'
  | [], [], [], _, _ => trivial
  | [], [], _ :: _, _, hbare => by cases hbare
  | _ :: _, _ :: _, [], _, hbare => by cases hbare
  | _ :: _, _ :: _, _ :: _, ⟨he, hes⟩, hbare => by
    simp only [Expr.respanAll, List.cons.injEq] at hbare
    exact ⟨WrittenAs.of_bare he hbare.1, EachWrittenAs.of_bare hes hbare.2⟩

end

end Tree

/-! ## Evaluating a literal -/

namespace Run

/-- The state `t` is `s` with more arrays. -/
def State.Grows (s t : State) : Prop :=
  ∃ fresh, t = { s with heap := s.heap.extend fresh }

variable {s t u : State}

theorem State.Grows.refl (s : State) : s.Grows s := ⟨#[], by simp [Heap.extend]⟩

theorem State.Grows.trans (h : s.Grows t) (h' : t.Grows u) : s.Grows u := by
  obtain ⟨fresh, rfl⟩ := h
  obtain ⟨more, rfl⟩ := h'
  exact ⟨fresh ++ more, by rw [Heap.extend_extend]⟩

theorem State.Grows.of {tree : Tree} {v : Value} (h : s.Grows t) (hv : tree.Of s.heap v) :
    tree.Of t.heap v := by
  obtain ⟨fresh, rfl⟩ := h
  exact hv.extend fresh

theorem eval_literal {v : Value} {node : ExprNode} (h : v.Literal node) (limit fuel : Nat)
    (scope : ScopeId) (span : Span) (s : State) :
    eval limit (fuel + 2) scope ⟨node, span⟩ s = .ok v s := by
  cases h with
  | int n => rfl
  | @negative n m span' hn =>
    have hvalue : Value.unary .neg (.int m) = .ok (.int n) := by
      rw [Value.unary, ← hn, Value.fit_toInt]
      rfl
    change orFail (Value.unary .neg (.int m)) _ span s = .ok (.int n) s
    rw [hvalue]
    rfl
  | bool b => rfl
  | string s => rfl

theorem newArray_of {trees : List Tree} {values : List Value}
    (hvalues : Tree.EachOf s.heap trees values) :
    ∃ t, newArray values.toArray s = .ok (.array s.heap.size) t ∧ s.Grows t ∧
      (Tree.array trees).Of t.heap (.array s.heap.size) := by
  refine ⟨{ s with heap := s.heap.extend #[values.toArray] }, rfl, ⟨_, rfl⟩, s.heap.size, rfl,
    ?_, ?_⟩
  · simp
  · rw [Heap.get_extend_size]
    exact hvalues.extend _

end Run

namespace Tree

open Run

mutual

/-- An expression that writes a tree evaluates to a value that stands for
it, in new arrays only. A leaf may need two levels, since a sign is an
operator. -/
theorem WrittenAs.eval_eq (limit : Nat) (scope : ScopeId) : ∀ {t : Tree} {e : Expr} {fuel : Nat},
    t.WrittenAs e → t.height + 2 ≤ fuel → ∀ s : State,
    ∃ w u, eval limit fuel scope e s = .ok w u ∧ s.Grows u ∧ t.Of u.heap w
  | leaf v, ⟨node, span⟩, fuel + 2, hleaf, _, s =>
    ⟨v, s, eval_literal hleaf limit fuel scope span s, .refl s, rfl, hleaf.kind_ne⟩
  | array ts, ⟨_, span⟩, fuel + 1, ⟨es, rfl, hes⟩, hfuel, s => by
    obtain ⟨ws, u, hws, hgrows, hall⟩ := EachWrittenAs.mapM_eq limit scope hes
      (Nat.le_of_succ_le_succ hfuel) s
    obtain ⟨t, ht, hgrows', hof⟩ := newArray_of hall
    refine ⟨_, t, ?_, hgrows.trans hgrows', hof⟩
    change EStateM.bind (es.mapM (eval limit fuel scope)) (fun ws => newArray ws.toArray) s = _
    rw [EStateM.bind, hws]
    exact ht

theorem EachWrittenAs.mapM_eq (limit : Nat) (scope : ScopeId) : ∀ {ts : List Tree}
    {es : List Expr} {fuel : Nat}, EachWrittenAs ts es → heightAll ts + 2 ≤ fuel → ∀ s : State,
    ∃ ws u, es.mapM (eval limit fuel scope) s = .ok ws u ∧ s.Grows u ∧ EachOf u.heap ts ws
  | [], [], _, _, _, s => ⟨[], s, rfl, .refl s, trivial⟩
  | t :: ts, e :: es, fuel, ⟨he, hes⟩, hfuel, s => by
    obtain ⟨w, u, hw, hgrows, hof⟩ := WrittenAs.eval_eq limit scope he
      (le_trans (Nat.add_le_add_right (le_max_left _ _) 2) hfuel) s
    obtain ⟨ws, r, hws, hgrows', hall⟩ := EachWrittenAs.mapM_eq limit scope hes
      (le_trans (Nat.add_le_add_right (le_max_right _ _) 2) hfuel) u
    refine ⟨w :: ws, r, ?_, hgrows.trans hgrows', hgrows'.of hof, hall⟩
    simp only [List.mapM_cons, bind, EStateM.bind, hw, hws]
    rfl

end

end Tree

/-! ## Printing and reading back -/

/-- A value that reads back is equal to itself. -/
theorem Value.ReadsBack.equalWithin_self {v : Value} (hv : v.ReadsBack) (h : Heap) (depth : Nat) :
    equalWithin h depth v v = .ok true := by
  cases v with
  | int n | bool b | string s =>
    cases depth <;> simp only [equalWithin, beq_self_eq_true] <;> rfl
  | float _ | array _ | function _ _ | void => exact hv.elim

/-- Values that stand for one tree are equal for a program. -/
theorem Tree.Of.binary_eq {h : Heap} {t : Tree} {v w : Value} (hv : t.Of h v) (hw : t.Of h w)
    (hself : t.AllLeaves fun u => ∀ d, Value.equalWithin h d u u = .ok true) :
    Value.binary h .eq v w = .ok (.plain (.bool true)) := by
  simp only [Value.binary, Value.equal, hv.equalWithin _ hw hself]
  rfl

/-- An array in which no array lies inside itself, and whose leaves are
integers other than the least one, truth values and strings of characters
that print as themselves or as a short escape, is printed, where output is
taken, as a text that consists of one expression statement. Wherever the arrays are the same,
the expression evaluates to a value that is equal to the array. -/
theorem printed_value_reads_back {s : Run.State} {id : ArrayId}
    (hacyclic : (Value.array id).Acyclic s.heap) (hstored : (Value.array id).Stored s.heap)
    (hleaves : ∀ w, (Value.array id).Reaches s.heap w → w.kind ≠ .array → w.ReadsBack) :
    let text := (Value.array id).text s.heap
    (∀ span sink, s.outside.sink.take (text ++ "\n") = .ok sink →
      Run.invoke "output" [.array id] span s = .ok .void { s with
        output := s.output ++ (text ++ "\n"), outside := { s.outside with sink } }) ∧
    ∃ lexemes e place enough,
      tokenize text = .ok lexemes ∧ parse text lexemes = .ok ⟨[⟨.expr e, place⟩]⟩ ∧
      ∀ limit scope fuel, enough ≤ fuel → ∀ r : Run.State, r.heap = s.heap →
        ∃ w t, Run.eval limit fuel scope e r = .ok w t ∧
          Value.binary t.heap .eq (.array id) w = .ok (.plain (.bool true)) := by
  intro text
  refine ⟨fun span sink htake => ?_, ?_⟩
  · change (Run.outputLine (.array id) span) s = _
    simp only [Run.outputLine, Run.withHeap, Run.print, bind, EStateM.bind, text, htake] at htake ⊢
    rfl
  obtain ⟨tree, hof, hheight⟩ := Tree.exists_tree hacyclic hstored
  have htext : text = tree.text := hof.text_eq hheight hacyclic
  obtain ⟨e₀, he₀, hreads⟩ := Tree.text_reads (hof.allLeaves hleaves)
  obtain ⟨lexemes, hlexemes, htokens⟩ := (hreads [] Lexer.parted_nil).tokenize
  rw [String.ofList_toList, ← htext] at hlexemes
  obtain ⟨e, place, hparse, hbare⟩ := parse_expr_print e₀ text htokens
  refine ⟨lexemes, e, place, tree.height + 2, hlexemes, hparse, ?_⟩
  intro limit scope fuel hfuel r hr
  obtain ⟨w, t, heval, hgrows, hw⟩ := (he₀.of_bare hbare).eval_eq limit scope hfuel r
  rw [← hr] at hof hleaves
  have hself : tree.AllLeaves fun u => ∀ d, Value.equalWithin t.heap d u u = .ok true :=
    hof.allLeaves fun u hu hkind => (hleaves u hu hkind).equalWithin_self t.heap
  exact ⟨w, t, heval, (hgrows.of hof).binary_eq hw hself⟩

/-- An array that holds another one twice. -/
theorem printed_value_reads_back_shared :
    let heap : Heap :=
      ⟨#[#[.int 1, .int (-7)], #[.array 0, .array 0, .string "\"é\n", .bool true]], 0⟩
    let s : Run.State := { Run.State.initial (.replay []) with heap }
    let text := "[[1, -7], [1, -7], \"\\\"é\\n\", true]"
    (Value.array 1).Acyclic heap ∧ (Value.array 1).Stored heap ∧
    (∀ w, (Value.array 1).Reaches heap w → w.kind ≠ .array → w.ReadsBack) ∧
    (∀ span, Run.invoke "output" [.array 1] span s =
      .ok .void { s with output := s.output ++ (text ++ "\n") }) ∧
    ∃ lexemes e place enough,
      tokenize text = .ok lexemes ∧ parse text lexemes = .ok ⟨[⟨.expr e, place⟩]⟩ ∧
      ∀ limit scope fuel, enough ≤ fuel → ∀ r : Run.State, r.heap = heap →
        ∃ w t, Run.eval limit fuel scope e r = .ok w t ∧
          Value.binary t.heap .eq (.array 1) w = .ok (.plain (.bool true)) := by
  intro heap s text
  have hstring : (Value.string "\"é\n").ReadsBack := by
    have hplain : ∀ c ∈ ['"', 'é', '\n'], Text.IsPlain c := by
      simp only [List.forall_mem_cons]
      exact ⟨.inr (by decide), .inl (by decide +kernel), .inr (by decide), List.forall_mem_nil _⟩
    exact hplain
  have helement : ∀ id w, w ∈ heap.get id →
      (w = .array 0 ∧ id = 1) ∨ (w.kind ≠ .array ∧ w.ReadsBack) := by
    intro id w hw
    rcases id with _ | _ | id
    · simp only [heap, Heap.get, List.getElem?_toArray, List.getElem?_cons_zero, Option.getD_some,
        List.mem_toArray, List.mem_cons, List.not_mem_nil, or_false] at hw
      obtain rfl | rfl := hw <;> exact .inr ⟨by decide, by decide⟩
    · simp only [heap, Heap.get, List.getElem?_toArray, List.getElem?_cons_succ,
        List.getElem?_cons_zero, Option.getD_some, List.mem_toArray, List.mem_cons,
        List.not_mem_nil, or_false] at hw
      obtain rfl | rfl | rfl | rfl := hw
      · exact .inl ⟨rfl, rfl⟩
      · exact .inl ⟨rfl, rfl⟩
      · exact .inr ⟨by decide, hstring⟩
      · exact .inr ⟨by decide, trivial⟩
    · simp [heap, Heap.get] at hw
  have hacyclic : (Value.array 1).Acyclic heap := by
    refine Value.acyclic_of_older (fun id k hk => ?_) _
    rcases helement id _ hk with ⟨hzero, rfl⟩ | ⟨hkind, -⟩
    · cases hzero
      exact Nat.one_pos
    · exact absurd rfl hkind
  have hreached : ∀ w, (Value.array 1).Reaches heap w →
      w = .array 1 ∨ w = .array 0 ∨ (w.kind ≠ .array ∧ w.ReadsBack) := by
    intro w hw
    induction hw with
    | refl => exact .inl rfl
    | tail _ hstep _ =>
      obtain ⟨id, -, hmem⟩ := hstep
      exact .inr ((helement id _ hmem).imp_left And.left)
  have hstored : (Value.array 1).Stored heap := by
    intro id hid
    rcases hreached _ hid with h | h | ⟨hkind, -⟩
    · cases h
      decide
    · cases h
      decide
    · exact absurd rfl hkind
  have hleaves : ∀ w, (Value.array 1).Reaches heap w → w.kind ≠ .array → w.ReadsBack := by
    intro w hw hkind
    rcases hreached w hw with rfl | rfl | ⟨-, hback⟩
    · exact absurd rfl hkind
    · exact absurd rfl hkind
    · exact hback
  have htext : (Value.array 1).text s.heap = text := by decide +kernel
  have hback := printed_value_reads_back (s := s) hacyclic hstored hleaves
  rw [htext] at hback
  exact ⟨hacyclic, hstored, hleaves, fun span => hback.1 span .endless rfl, hback.2⟩

end Quill
