-- A derivation depends on the tokens alone. If two lists of lexemes differ
-- only in their spans, then what is derived from one is derived from the
-- other with other spans; and what follows a phrase matters only in how
-- the phrase ends there.
import Quill.Proofs.ExprSoundness
import Quill.Proofs.TreeSpans

namespace Quill.Grammar

/-! ## Lexemes that differ in their spans -/

/-- The lexemes are the same when `f` maps the spans of the first and `g`
those of the second. -/
def Alike (f g : Span → Span) (used used' : List Lexeme) : Prop :=
  used.map (·.respan f) = used'.map (·.respan g)

section Alike

variable {f g : Span → Span} {used used' others : List Lexeme} {x : Lexeme}

theorem Alike.nil (h : Alike f g [] used') : used' = [] := List.map_eq_nil_iff.mp h.symm

theorem Alike.cons (h : Alike f g (x :: used) used') :
    ∃ y ys, used' = y :: ys ∧ y.token = x.token ∧ g y.span = f x.span ∧ Alike f g used ys := by
  obtain ⟨y, ys, rfl, hy, hys⟩ := List.map_eq_cons_iff.mp h.symm
  obtain ⟨ht, hs⟩ := Lexeme.mk.inj hy
  exact ⟨y, ys, rfl, ht, hs, hys.symm⟩

theorem Alike.append (h : Alike f g (used ++ others) used') :
    ∃ ys zs, used' = ys ++ zs ∧ Alike f g used ys ∧ Alike f g others zs := by
  unfold Alike at h
  rw [List.map_append] at h
  obtain ⟨ys, zs, rfl, hys, hzs⟩ := List.map_eq_append_iff.mp h.symm
  exact ⟨ys, zs, rfl, hys.symm, hzs.symm⟩

theorem Alike.snoc (h : Alike f g (used ++ [x]) used') :
    ∃ ys y, used' = ys ++ [y] ∧ y.token = x.token ∧ g y.span = f x.span ∧ Alike f g used ys := by
  obtain ⟨ys, zs, rfl, hys, hzs⟩ := h.append
  obtain ⟨y, _, rfl, ht, hs, hnil⟩ := hzs.cons
  obtain rfl := hnil.nil
  exact ⟨ys, y, rfl, ht, hs, hys⟩

/-- How a phrase ends before `rest` it also ends before `rest'`, except
for the semicolon after a statement. -/
def Ahead (rest rest' : List Lexeme) : Prop :=
  ∀ edge, edge ≠ .statement → Stops edge rest → Stops edge rest'

/-- The same with statements. -/
def AheadAll (rest rest' : List Lexeme) : Prop := ∀ edge, Stops edge rest → Stops edge rest'

theorem AheadAll.ahead {rest rest' : List Lexeme} (h : AheadAll rest rest') : Ahead rest rest' :=
  fun edge _ => h edge

theorem aheadAll_cons {x y : Lexeme} {rest rest' : List Lexeme} (h : y.token = x.token) :
    AheadAll (x :: rest) (y :: rest') := by
  intro edge
  rw [stops_cons, stops_cons, h]
  exact id

theorem ahead_cons {x y : Lexeme} {rest rest' : List Lexeme} (h : y.token = x.token) :
    Ahead (x :: rest) (y :: rest') := (aheadAll_cons h).ahead

theorem Alike.aheadAll {rest rest' : List Lexeme} (h : Alike f g used used')
    (hr : AheadAll rest rest') : AheadAll (used ++ rest) (used' ++ rest') := by
  cases used with
  | nil =>
    rw [h.nil]
    exact hr
  | cons x used =>
    obtain ⟨y, ys, rfl, ht, -⟩ := h.cons
    exact aheadAll_cons ht

theorem Alike.ahead {rest rest' : List Lexeme} (h : Alike f g used used')
    (hr : Ahead rest rest') : Ahead (used ++ rest) (used' ++ rest') := by
  cases used with
  | nil =>
    rw [h.nil]
    exact hr
  | cons x used =>
    obtain ⟨y, ys, rfl, ht, -⟩ := h.cons
    exact ahead_cons ht

end Alike

/-! ## Expressions -/

/-- The map respects how spans are put together. -/
def Merges (f : Span → Span) : Prop := ∀ a b : Span, f (a.merge b) = (f a).merge (f b)

theorem merges_forget : Merges .forget := fun _ _ => rfl

variable {f g : Span → Span}

theorem isName_eq {e e' : Expr} (h : e'.respan g = e.respan f) : e'.isName = e.isName := by
  rw [← Expr.isName_respan g e', h, Expr.isName_respan]

theorem span_eq {e e' : Expr} (h : e'.respan g = e.respan f) : g e'.span = f e.span := by
  rw [← Expr.respan_span g e', h, Expr.respan_span]

theorem Atom.respan {t : Token} {node : ExprNode} (h : Atom t node) (f : Span → Span) :
    node.respan f = node := by
  cases h <;> rfl

mutual

theorem Phrase.transfer (hf : Merges f) (hg : Merges g) {level used e rest} :
    Phrase Stops level used e rest → ∀ {used' rest'}, Alike f g used used' → Ahead rest rest' →
      ∃ e', Phrase Stops level used' e' rest' ∧ e'.respan g = e.respan f
  | .tighter hn hw hb, used', rest', hu, hr => by
    obtain ⟨e', hw', he⟩ := hw.transfer hf hg hu hr
    exact ⟨e', .tighter hn hw' fun hl => hr .bound (by decide) (hb hl), he⟩
  | .binary ho hn hx ha hb, used', rest', hu, hr => by
    obtain ⟨first', tail', rfl, hu₁, htail⟩ := hu.append
    obtain ⟨x', second', rfl, hx', -, hu₂⟩ := htail.cons
    obtain ⟨a', ha', hea⟩ := ha.transfer hf hg hu₁ (ahead_cons hx')
    obtain ⟨b', hb', heb⟩ := hb.transfer hf hg hu₂ hr
    refine ⟨_, .binary ho hn (hx'.trans hx) ha' hb', ?_⟩
    simp only [Expr.respan, ExprNode.respan, hea, heb, hf _ _, hg _ _, span_eq hea, span_eq heb]
  | .unary ho hx h, used', rest', hu, hr => by
    obtain ⟨x', us, rfl, hx', hs, hu'⟩ := hu.cons
    obtain ⟨e', h', he⟩ := h.transfer hf hg hu' hr
    refine ⟨_, .unary ho (hx'.trans hx) h', ?_⟩
    simp only [Expr.respan, ExprNode.respan, he, hf _ _, hg _ _, span_eq he, hs]
  | .range ha hx hb, used', rest', hu, hr => by
    obtain ⟨first', tail', rfl, hu₁, htail⟩ := hu.append
    obtain ⟨x', second', rfl, hx', -, hu₂⟩ := htail.cons
    obtain ⟨a', ha', hea⟩ := ha.transfer hf hg hu₁ (ahead_cons hx')
    obtain ⟨b', hb', heb⟩ := hb.transfer hf hg hu₂ hr
    refine ⟨_, .range ha' (hx'.trans hx) hb', ?_⟩
    simp only [Expr.respan, ExprNode.respan, hea, heb, hf _ _, hg _ _, span_eq hea, span_eq heb]
  | .atom h, used', rest', hu, _ => by
    obtain ⟨x', us, rfl, hx', hs, hu'⟩ := hu.cons
    obtain rfl := hu'.nil
    refine ⟨_, .atom (hx'.symm ▸ h), ?_⟩
    simp only [Expr.respan, hs, h.respan]
  | .array hx hl hy, used', rest', hu, _ => by
    obtain ⟨x', us, rfl, hx', hs, hu'⟩ := hu.cons
    obtain ⟨vs, y', rfl, hy', hs', hv⟩ := hu'.snoc
    obtain ⟨es', hl', hes⟩ := hl.transfer hf hg hv (ahead_cons hy')
    refine ⟨_, .array (hx'.trans hx) hl' (hy'.trans hy), ?_⟩
    simp only [Expr.respan, ExprNode.respan, hes, hf _ _, hg _ _, hs, hs']
  | .paren hx he hy, used', rest', hu, _ => by
    obtain ⟨x', us, rfl, hx', -, hu'⟩ := hu.cons
    obtain ⟨vs, y', rfl, hy', -, hv⟩ := hu'.snoc
    obtain ⟨e', he', heq⟩ := he.transfer hf hg hv (ahead_cons hy')
    exact ⟨e', .paren (hx'.trans hx) he' (hy'.trans hy), heq⟩
  | .cast hx hp he hy, used', rest', hu, _ => by
    obtain ⟨x', us, rfl, hx', hs, hu'⟩ := hu.cons
    obtain ⟨p', us, rfl, hp', -, hu'⟩ := hu'.cons
    obtain ⟨vs, y', rfl, hy', hs', hv⟩ := hu'.snoc
    obtain ⟨e', he', heq⟩ := he.transfer hf hg hv (ahead_cons hy')
    refine ⟨_, .cast (hx'.trans hx) (hp'.trans hp) he' (hy'.trans hy), ?_⟩
    simp only [Expr.respan, ExprNode.respan, heq, hf _ _, hg _ _, hs, hs']
  | .index he hx hi hy, used', rest', hu, _ => by
    obtain ⟨base', tail, rfl, hbase, htail⟩ := hu.append
    obtain ⟨x', us, rfl, hx', -, hu'⟩ := htail.cons
    obtain ⟨vs, y', rfl, hy', hs', hv⟩ := hu'.snoc
    obtain ⟨e', he', heq⟩ := he.transfer hf hg hbase (ahead_cons hx')
    obtain ⟨i', hi', hieq⟩ := hi.transfer hf hg hv (ahead_cons hy')
    refine ⟨_, .index he' (hx'.trans hx) hi' (hy'.trans hy), ?_⟩
    simp only [Expr.respan, ExprNode.respan, heq, hieq, hf _ _, hg _ _, span_eq heq, hs']
  | .call he hx hl hy, used', rest', hu, _ => by
    obtain ⟨base', tail, rfl, hbase, htail⟩ := hu.append
    obtain ⟨x', us, rfl, hx', -, hu'⟩ := htail.cons
    obtain ⟨vs, y', rfl, hy', hs', hv⟩ := hu'.snoc
    obtain ⟨e', he', heq⟩ := he.transfer hf hg hbase (ahead_cons hx')
    obtain ⟨es', hl', hes⟩ := hl.transfer hf hg hv (ahead_cons hy')
    obtain ⟨hname, hspan⟩ := Expr.respan_eq_var heq
    rw [hname] at he'
    refine ⟨_, .call he' (hx'.trans hx) hl' (hy'.trans hy), ?_⟩
    simp only [Expr.respan, ExprNode.respan, Name.respan, hes, hf _ _, hg _ _, hspan, hs']

theorem Whole.transfer (hf : Merges f) (hg : Merges g) {level used e rest} :
    Whole Stops level used e rest → ∀ {used' rest'}, Alike f g used used' → Ahead rest rest' →
      ∃ e', Whole Stops level used' e' rest' ∧ e'.respan g = e.respan f
  | .intro h hs, used', rest', hu, hr => by
    obtain ⟨e', h', he⟩ := h.transfer hf hg hu hr
    refine ⟨e', .intro h' ?_, he⟩
    rw [isName_eq he]
    exact hr _ (by simp) hs

theorem Listed.transfer (hf : Merges f) (hg : Merges g) {used es rest} :
    Listed Stops used es rest → ∀ {used' rest'}, Alike f g used used' → Ahead rest rest' →
      ∃ es', Listed Stops used' es' rest' ∧ Expr.respanAll g es' = Expr.respanAll f es
  | .none, used', rest', hu, _ => by
    obtain rfl := hu.nil
    exact ⟨[], .none, rfl⟩
  | .one h, used', rest', hu, hr => by
    obtain ⟨e', h', he⟩ := h.transfer hf hg hu hr
    exact ⟨[e'], .one h', by simp only [Expr.respanAll, he]⟩
  | .more h hx hl, used', rest', hu, hr => by
    obtain ⟨us, tail, rfl, hu₁, htail⟩ := hu.append
    obtain ⟨x', vs, rfl, hx', -, hu₂⟩ := htail.cons
    obtain ⟨e', h', he⟩ := h.transfer hf hg hu₁ (ahead_cons hx')
    obtain ⟨es', hl', hes⟩ := hl.transfer hf hg hu₂ hr
    rcases es' with _ | ⟨e₁, es'⟩
    · simp [Expr.respanAll] at hes
    · exact ⟨_, .more h' (hx'.trans hx) hl', by simp only [Expr.respanAll, he] at hes ⊢; rw [hes]⟩

end

/-! ## Statements -/

theorem spanOver_eq (hf : Merges f) (hg : Merges g) {x y : Lexeme} {xs ys : List Lexeme}
    (hs : g y.span = f x.span) (h : Alike f g xs ys) :
    g (spanOver y ys) = f (spanOver x xs) := by
  have hlast : ((ys.getLast?).getD y).respan g = ((xs.getLast?).getD x).respan f ∨
      g ((ys.getLast?).getD y).span = f ((xs.getLast?).getD x).span := by
    have := congrArg List.getLast? h
    rw [List.getLast?_map, List.getLast?_map] at this
    rcases hx : xs.getLast? with _ | x' <;> rcases hy : ys.getLast? with _ | y' <;>
      rw [hx, hy] at this
    · exact .inr hs
    · cases this
    · cases this
    · exact .inl (Option.some.inj this).symm
  unfold spanOver
  rw [hf, hg, hs]
  rcases hlast with hl | hl
  · rw [(Lexeme.mk.inj hl).2]
  · rw [hl]

theorem Names.transfer {used params} (h : Names used params) :
    ∀ {used'}, Alike f g used used' →
      ∃ params', Names used' params' ∧ params'.map (·.respan g) = params.map (·.respan f) := by
  induction h with
  | none =>
    intro used' hu
    obtain rfl := hu.nil
    exact ⟨[], .none, rfl⟩
  | one hx =>
    intro used' hu
    obtain ⟨x', us, rfl, hx', hs, hnil⟩ := hu.cons
    obtain rfl := hnil.nil
    exact ⟨_, .one (hx'.trans hx), by simp [Name.respan, hs]⟩
  | more hx hc _ ih =>
    intro used' hu
    obtain ⟨x', us, rfl, hx', hs, hu'⟩ := hu.cons
    obtain ⟨c', vs, rfl, hc', -, hv⟩ := hu'.cons
    obtain ⟨params', hn, hps⟩ := ih hv
    rcases params' with _ | ⟨p, ps⟩
    · simp at hps
    · refine ⟨_, .more (hx'.trans hx) (hc'.trans hc) hn, ?_⟩
      rw [List.map_cons, hps]
      simp [Name.respan, hs]

mutual

theorem Node.transfer (hf : Merges f) (hg : Merges g) {used node rest} :
    Node Stops used node rest → ∀ {used' rest'}, Alike f g used used' → Ahead rest rest' →
      ∃ node', Node Stops used' node' rest' ∧ node'.respan g = node.respan f
  | .function hx hn ho hnames hc hbody, used', rest', hu, _ => by
    obtain ⟨x', us, rfl, hx', hxs, hu₁⟩ := hu.cons
    obtain ⟨n', us, rfl, hn', hns, hu₂⟩ := hu₁.cons
    obtain ⟨o', us, rfl, ho', -, hu₃⟩ := hu₂.cons
    obtain ⟨ns, us, rfl, hns', hu₄⟩ := hu₃.append
    obtain ⟨c', us, rfl, hc', -, hu₅⟩ := hu₄.cons
    obtain ⟨params', hnames', hps⟩ := hnames.transfer hns'
    obtain ⟨body', hbody', hb⟩ := hbody.transfer hf hg hu₅ rest'
    refine ⟨_, .function (hx'.trans hx) (hn'.trans hn) (ho'.trans ho) hnames' (hc'.trans hc) hbody',
      ?_⟩
    simp only [StmtNode.respan, FunctionDecl.respan, hps, hb, spanOver_eq hf hg hxs hu₁]
    simp only [Name.respan, hns]
  | .cond hx htest hyes hno, used', rest', hu, hr => by
    obtain ⟨x', us, rfl, hx', -, hu₁⟩ := hu.cons
    obtain ⟨us, others', rfl, hu₂, hothers⟩ := hu₁.append
    obtain ⟨us, block', rfl, hu₃, hblock⟩ := hu₂.append
    have hrest := hblock.ahead (hothers.ahead hr)
    rw [← List.append_assoc, ← List.append_assoc] at hrest
    obtain ⟨test', htest', ht⟩ := htest.transfer hf hg hu₃ hrest
    obtain ⟨yes', hyes', hy⟩ := hyes.transfer hf hg hblock (others' ++ rest')
    obtain ⟨no', hno', hn⟩ := hno.transfer hf hg hothers hr
    exact ⟨_, .cond (hx'.trans hx) htest' hyes' hno', by simp only [StmtNode.respan, ht, hy, hn]⟩
  | .loop hx htest hbody, used', rest', hu, hr => by
    obtain ⟨x', us, rfl, hx', -, hu'⟩ := hu.cons
    obtain ⟨us, block', rfl, hu₁, hblock⟩ := hu'.append
    obtain ⟨test', htest', ht⟩ := htest.transfer hf hg hu₁ (hblock.ahead hr)
    obtain ⟨body', hbody', hb⟩ := hbody.transfer hf hg hblock rest'
    exact ⟨_, .loop (hx'.trans hx) htest' hbody', by simp only [StmtNode.respan, ht, hb]⟩
  | .each hx hn hi hitems hbody, used', rest', hu, hr => by
    obtain ⟨x', us, rfl, hx', -, hu₁⟩ := hu.cons
    obtain ⟨n', us, rfl, hn', hns, hu₂⟩ := hu₁.cons
    obtain ⟨i', us, rfl, hi', -, hu₃⟩ := hu₂.cons
    obtain ⟨us, block', rfl, hu₄, hblock⟩ := hu₃.append
    obtain ⟨items', hitems', ht⟩ := hitems.transfer hf hg hu₄ (hblock.ahead hr)
    obtain ⟨body', hbody', hb⟩ := hbody.transfer hf hg hblock rest'
    exact ⟨_, .each (hx'.trans hx) (hn'.trans hn) (hi'.trans hi) hitems' hbody',
      by simp only [StmtNode.respan, Name.respan, hns, ht, hb]⟩
  | .times hx hcount hbody, used', rest', hu, hr => by
    obtain ⟨x', us, rfl, hx', -, hu'⟩ := hu.cons
    obtain ⟨us, block', rfl, hu₁, hblock⟩ := hu'.append
    obtain ⟨count', hcount', ht⟩ := hcount.transfer hf hg hu₁ (hblock.ahead hr)
    obtain ⟨body', hbody', hb⟩ := hbody.transfer hf hg hblock rest'
    exact ⟨_, .times (hx'.trans hx) hcount' hbody', by simp only [StmtNode.respan, ht, hb]⟩
  | .leave hx hs, used', rest', hu, hr => by
    obtain ⟨x', us, rfl, hx', -, hnil⟩ := hu.cons
    obtain rfl := hnil.nil
    exact ⟨_, .leave (hx'.trans hx) (hr .value (by decide) hs), rfl⟩
  | .return hx he, used', rest', hu, hr => by
    obtain ⟨x', us, rfl, hx', -, hu'⟩ := hu.cons
    obtain ⟨e', he', h⟩ := he.transfer hf hg hu' hr
    exact ⟨_, .return (hx'.trans hx) he', by simp only [StmtNode.respan, Option.map_some, h]⟩
  | .stop hx, used', rest', hu, _ => by
    obtain ⟨x', us, rfl, hx', -, hnil⟩ := hu.cons
    obtain rfl := hnil.nil
    exact ⟨_, .stop (hx'.trans hx), rfl⟩
  | .next hx, used', rest', hu, _ => by
    obtain ⟨x', us, rfl, hx', -, hnil⟩ := hu.cons
    obtain rfl := hnil.nil
    exact ⟨_, .next (hx'.trans hx), rfl⟩
  | .expr he hs, used', rest', hu, hr => by
    obtain ⟨e', he', h⟩ := he.transfer hf hg hu hr
    exact ⟨_, .expr he' (hr .place (by decide) hs), by simp only [StmtNode.respan, h]⟩
  | .assign he hx hp hv, used', rest', hu, hr => by
    obtain ⟨us, tail, rfl, hu₁, htail⟩ := hu.append
    obtain ⟨x', vs, rfl, hx', -, hu₂⟩ := htail.cons
    obtain ⟨e', he', h⟩ := he.transfer hf hg hu₁ (ahead_cons hx')
    obtain ⟨place', hp', hpeq⟩ := hp.respan h
    obtain ⟨v', hv', hveq⟩ := hv.transfer hf hg hu₂ hr
    exact ⟨_, .assign he' (hx'.trans hx) hp' hv', by simp only [StmtNode.respan, hpeq, hveq]⟩

theorem Otherwise.transfer (hf : Merges f) (hg : Merges g) {used no rest} :
    Otherwise Stops used no rest → ∀ {used' rest'}, Alike f g used used' → Ahead rest rest' →
      ∃ no', Otherwise Stops used' no' rest' ∧ Block.respanOption g no' = Block.respanOption f no
  | .none hs, used', rest', hu, hr => by
    obtain rfl := hu.nil
    exact ⟨_, .none (hr .branch (by decide) hs), rfl⟩
  | .cond hx hy hn, used', rest', hu, hr => by
    obtain ⟨x', us, rfl, hx', -, hu₁⟩ := hu.cons
    obtain ⟨y', us, rfl, hy', hys, hu₂⟩ := hu₁.cons
    obtain ⟨n', hn', h⟩ := hn.transfer hf hg hu₁ hr
    refine ⟨_, .cond (hx'.trans hx) (hy'.trans hy) hn', ?_⟩
    simp only [Block.respanOption, Block.respan, Stmt.respanAll, Stmt.respan, h,
      spanOver_eq hf hg hys hu₂]
  | .block hx hb, used', rest', hu, _ => by
    obtain ⟨x', us, rfl, hx', -, hu'⟩ := hu.cons
    obtain ⟨b', hb', h⟩ := hb.transfer hf hg hu' rest'
    exact ⟨_, .block (hx'.trans hx) hb', by simp only [Block.respanOption, h]⟩

theorem Sentence.transfer (hf : Merges f) (hg : Merges g) {used stmt rest} :
    Sentence Stops used stmt rest → ∀ {used' rest'}, Alike f g used used' → AheadAll rest rest' →
      ∃ stmt', Sentence Stops used' stmt' rest' ∧ stmt'.respan g = stmt.respan f
  | .bare hn hs, used', rest', hu, hr => by
    obtain ⟨n', hn', h⟩ := hn.transfer hf hg hu hr.ahead
    obtain ⟨x', us, rfl, -, hxs, hu'⟩ := hu.cons
    exact ⟨_, .bare hn' (hr _ hs), by simp only [Stmt.respan, h, spanOver_eq hf hg hxs hu']⟩
  | .closed hn hy, used', rest', hu, _ => by
    have hsnoc : Alike f g ((_ :: _) ++ [_]) used' := hu
    obtain ⟨us, y', rfl, hy', -, hu'⟩ := hsnoc.snoc
    obtain ⟨n', hn', h⟩ := hn.transfer hf hg hu' (ahead_cons hy')
    obtain ⟨x', us, rfl, -, hxs, hu'⟩ := hu'.cons
    exact ⟨_, .closed hn' (hy'.trans hy), by simp only [Stmt.respan, h, spanOver_eq hf hg hxs hu']⟩

theorem Items.transfer (hf : Merges f) (hg : Merges g) {used stmts rest} :
    Items Stops used stmts rest → ∀ {used' rest'}, Alike f g used used' → AheadAll rest rest' →
      ∃ stmts', Items Stops used' stmts' rest' ∧ Stmt.respanAll g stmts' = Stmt.respanAll f stmts
  | .nil, used', rest', hu, _ => by
    obtain rfl := hu.nil
    exact ⟨[], .nil, rfl⟩
  | .semi hx h, used', rest', hu, hr => by
    obtain ⟨x', us, rfl, hx', -, hu'⟩ := hu.cons
    obtain ⟨ss, h', hss⟩ := h.transfer hf hg hu' hr
    exact ⟨ss, .semi (hx'.trans hx) h', hss⟩
  | .cons hs h, used', rest', hu, hr => by
    obtain ⟨us, vs, rfl, hu₁, hu₂⟩ := hu.append
    obtain ⟨s', hs', hseq⟩ := hs.transfer hf hg hu₁ (hu₂.aheadAll hr)
    obtain ⟨ss, h', hss⟩ := h.transfer hf hg hu₂ hr
    exact ⟨_, .cons hs' h', by simp only [Stmt.respanAll, hseq, hss]⟩

theorem Braced.transfer (hf : Merges f) (hg : Merges g) {used block rest} :
    Braced Stops used block rest → ∀ {used'}, Alike f g used used' → ∀ rest',
      ∃ block', Braced Stops used' block' rest' ∧ block'.respan g = block.respan f
  | .intro hx h hy, used', hu, rest' => by
    obtain ⟨x', us, rfl, hx', hxs, hu'⟩ := hu.cons
    obtain ⟨vs, y', rfl, hy', hys, hv⟩ := hu'.snoc
    obtain ⟨ss, h', hss⟩ := h.transfer hf hg hv (aheadAll_cons hy')
    exact ⟨_, .intro (hx'.trans hx) h' (hy'.trans hy),
      by simp only [Block.respan, hss, hf _ _, hg _ _, hxs, hys]⟩

end

/-! ## Programs one after the other -/

/-- A semicolon ends every phrase but a statement. -/
theorem ahead_semi {x : Lexeme} (hx : x.token = .symbol .semi) (rest rest' : List Lexeme) :
    Ahead rest (x :: rest') := by
  rintro edge he - y ys hy
  cases hy
  rw [hx]
  cases edge with
  | operand level named =>
    by_cases hl : level = .suffix
    · subst hl
      rintro (h | ⟨h, -⟩) <;> cases h
    · rw [Edge.goesOn_operand hl]
      rintro ⟨op, -, h⟩
      cases op <;> cases h
  | statement => exact absurd rfl he
  | _ => exact fun h => by cases h

/-- No statement is without lexemes. -/
theorem Items.of_nil {ends : Edge → List Lexeme → Prop} {used stmts rest}
    (h : Items ends used stmts rest) (hu : used = []) : stmts = [] := by
  cases h with
  | nil => rfl
  | semi => cases hu
  | cons hs _ =>
    obtain ⟨x, xs, rfl, -⟩ := hs.head
    cases hu

/-- A semicolon may follow the last statement, and then more. -/
theorem Sentence.join (hf : Merges f) (hg : Merges g) {used used' more : List Lexeme} {stmt : Stmt}
    {stmts : List Stmt} {semi : Lexeme} (h : Sentence Stops used stmt [])
    (hu : Alike f g used used') (hx : semi.token = .symbol .semi) (hm : Items Stops more stmts []) :
    ∃ stmt', Items Stops (used' ++ semi :: more) (stmt' :: stmts) [] ∧
      stmt'.respan g = stmt.respan f := by
  cases h with
  | bare hn _ =>
    obtain ⟨n', hn', heq⟩ := hn.transfer hf hg hu (ahead_semi hx [] more)
    obtain ⟨x', us, rfl, -, hxs, hu'⟩ := hu.cons
    refine ⟨⟨n', spanOver x' us⟩, ?_, by simp only [Stmt.respan, heq, spanOver_eq hf hg hxs hu']⟩
    have hs : Sentence Stops (x' :: (us ++ [semi])) ⟨n', spanOver x' us⟩ (more ++ []) :=
      .closed (by simpa using hn') hx
    simpa using Items.cons hs hm
  | closed hn hy =>
    have hsnoc : Alike f g ((_ :: _) ++ [_]) used' := hu
    obtain ⟨us, y', rfl, hy', -, hu₁⟩ := hsnoc.snoc
    obtain ⟨n', hn', heq⟩ := hn.transfer hf hg hu₁ (ahead_cons hy')
    obtain ⟨x', us, rfl, -, hxs, hu₂⟩ := hu₁.cons
    refine ⟨⟨n', spanOver x' us⟩, ?_, by simp only [Stmt.respan, heq, spanOver_eq hf hg hxs hu₂]⟩
    have hs : Sentence Stops (x' :: (us ++ [y'])) ⟨n', spanOver x' us⟩ (semi :: more ++ []) :=
      .closed hn' (hy'.trans hy)
    simpa using Items.cons hs (.semi hx hm)

/-- Two programs with a semicolon between them are one program. -/
theorem Items.join (hf : Merges f) (hg : Merges g) {used stmts rest} :
    Items Stops used stmts rest → rest = [] → ∀ {used' more : List Lexeme} {mark : Lexeme}
      {others : List Stmt}, Alike f g used used' → mark.token = .symbol .semi →
      Items Stops more others [] →
      ∃ stmts', Items Stops (used' ++ mark :: more) (stmts' ++ others) [] ∧
        Stmt.respanAll g stmts' = Stmt.respanAll f stmts
  | .nil, _, used', more, mark, others, hu, hx, hm => by
    obtain rfl := hu.nil
    exact ⟨[], .semi hx hm, rfl⟩
  | .semi hy h, hr, used', more, mark, others, hu, hx, hm => by
    obtain ⟨y', us, rfl, hy', -, hu'⟩ := hu.cons
    obtain ⟨ss, h', hss⟩ := h.join hf hg hr hu' hx hm
    exact ⟨ss, .semi (hy'.trans hy) h', hss⟩
  | @Items.cons _ _ _ tail _ _ hs h, hr, used', more, mark, others, hu, hx, hm => by
    subst hr
    obtain ⟨us, vs, rfl, hu₁, hu₂⟩ := hu.append
    -- The last statement may take the semicolon for its own.
    rcases tail with _ | ⟨y, ys⟩
    · obtain rfl := hu₂.nil
      obtain rfl := h.of_nil rfl
      obtain ⟨s', hs', hseq⟩ := hs.join hf hg hu₁ hx hm
      exact ⟨[s'], by simpa using hs', by simp only [Stmt.respanAll, hseq]⟩
    · obtain ⟨ss, h', hss⟩ := h.join hf hg rfl hu₂ hx hm
      obtain ⟨y', ys', rfl, hy, -⟩ := hu₂.cons
      obtain ⟨s', hs', hseq⟩ := hs.transfer hf hg hu₁ (aheadAll_cons hy)
      refine ⟨s' :: ss, ?_, by simp only [Stmt.respanAll, hseq, hss]⟩
      have := Items.cons hs' h'
      simpa using this

end Quill.Grammar
