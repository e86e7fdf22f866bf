-- The two global scopes of a session: what the checker knows and what the
-- run has bound. Every name that is bound is known, and every function that
-- a name holds is the one that is known by the name, whatever became of the
-- lines before. As long as every line had a result, every known name is
-- bound, too.
import Mathlib
import Quill.Proofs.AnalysisSoundness
import Quill.Proofs.RecordedRuns
import Quill.Proofs.RejectedLines

namespace Quill

/-! ## Bindings of one scope -/

namespace ScopeTree

variable {α : Type} {t : ScopeTree α} {i j : Nat} {m n : String} {b : Binding α}

/-- A name keeps its binding when others are added. -/
theorem findIn?_addGlobals (added : List (Binding α)) (h : t.findIn? globalId n = some b) :
    (t.addGlobals added).findIn? globalId n = some b := by
  rw [findIn?, get?_addGlobals_self]
  rw [findIn?] at h
  rcases hs : t.get? globalId with _ | s
  · rw [hs] at h
    cases h
  · simp only [hs, Option.bind_some, Scope.find?] at h
    simp [Scope.find?, h]

theorem mem_namesIn_insert (hi : i < t.size) (n m : String) (v : Option α) :
    m ∈ (t.insert i n v).namesIn i ↔ m ∈ t.namesIn i ∨ m = n := by
  obtain ⟨s, hs⟩ := get?_of_lt hi
  simp only [namesIn, get?_insert_self, hs, Option.map_some, Option.getD_some, Scope.names_insert]
  split
  · rename_i hb
    have hn : n ∈ s.names := by simpa [Scope.names, Scope.binds] using hb
    constructor
    · exact Or.inl
    · rintro (hm | rfl)
      · exact hm
      · exact hn
  · simp

end ScopeTree

/-! ## Functions come from declarations -/

namespace Run

/-- No name holds a new function in a scope but by a declaration there. -/
theorem Law.functionIn? {limit : Nat} {s t : State} {event : Event} (h : Law limit s event t)
    (hplain : event.isPlain = true) {i : Nat} (hi : ∀ d, event ≠ .declared i d) {n : String}
    {f : Function} (hf : t.scopes.functionIn? i n = some f) :
    s.scopes.functionIn? i n = some f := by
  cases h with
  | assigned hv _ | parameter hv _ | item hv _ =>
    rcases ScopeTree.functionIn?_insert_cases hf with ⟨-, id, rfl⟩ | hf
    · exact absurd rfl hv
    · exact hf
  | declared =>
    rcases ScopeTree.functionIn?_insert_cases hf with ⟨rfl, -⟩ | hf
    · exact absurd rfl (hi _)
    · exact hf
  | entered | left | called | ended => simp [Event.isPlain] at hplain
  | _ => exact hf

/-- No name holds a new function in a scope where nothing is declared. -/
theorem Nested.functionIn? {limit : Nat} {declares : ScopeId → Prop} {s t : State}
    {past : List Moment} (h : Nested limit declares s past t) {i : Nat} (hi : ¬ declares i)
    {n : String} {f : Function} (hf : t.scopes.functionIn? i n = some f) :
    s.scopes.functionIn? i n = some f := by
  induction h with
  | start => exact hf
  | one hplain hevent hlaw => exact hlaw.functionIn? hplain (fun d hd => hi (hevent i d hd)) hf
  | trans _ _ ih ih' => exact ih hi (ih' hi hf)
  | block _ _ _ _ ih | call _ _ _ ih =>
    -- what is left after a scope stands in the scopes before it
    obtain ⟨m, id, hb⟩ := ScopeTree.functionIn?_eq_some.mp hf
    have hne := Nat.ne_of_lt (ScopeTree.findIn?_of_keep hb).1
    exact ScopeTree.functionIn?_of_addChild (ih hne (ScopeTree.functionIn?_of_keep hf))

/-! ## Statements that bind no name -/

variable {s t u : State} {scope : Nat}

/-- An assignment to an element adds no name. -/
theorem element_frame (limit fuel : Nat) (base index e : Expr) (targetSpan span : Span)
    (hs : s.Has scope) :
    Moves ExprFrame
      (exec limit (fuel + 1) scope ⟨.assign ⟨.element base index, targetSpan⟩ e, span⟩) s := by
  apply (eval_frame limit fuel e hs).bind ExprFrame.trans
  intro v t ht
  split
  · exact ExprFrame.refl t
  · apply (eval_frame limit fuel base (hs.expr ht)).bind ExprFrame.trans
    intro a u hu
    apply (eval_frame limit fuel index ((hs.expr ht).expr hu)).bind ExprFrame.trans
    intro i w _
    exact ((quiet_store a i v targetSpan).expr w).bind ExprFrame.trans fun _ x _ => ExprFrame.refl x

theorem exec_unbound_frame (limit fuel : Nat) (st : Stmt) (hst : boundName? st = none)
    (hs : s.Has scope) : Moves (BlockFrame scope) (exec limit fuel scope st) s := by
  by_cases hb : isBlock st = true
  · exact exec_block_frame limit fuel st hb hs
  · cases fuel with
    | zero => exact BlockFrame.refl s
    | succ fuel =>
      have hvalue : ∀ (e : Expr) (f : Value → Signal), Moves (BlockFrame scope)
          (do return f (← eval limit fuel scope e)) s := fun e f =>
        (eval_frame limit fuel e hs).toBlock.bind BlockFrame.trans fun _ t _ => BlockFrame.refl t
      obtain ⟨node, span⟩ := st
      cases node with
      | expr e => exact hvalue e fun _ => .normal
      | assign target e =>
        obtain ⟨node, targetSpan⟩ := target
        cases node with
        | name name => cases hst
        | element base index =>
          exact (element_frame limit fuel base index e targetSpan span hs).toBlock
      | function d => cases hst
      | «return» value =>
        cases value with
        | none => exact BlockFrame.refl s
        | some e => exact hvalue e .return
      | stop => exact BlockFrame.refl s
      | next => exact BlockFrame.refl s
      | _ => exact absurd rfl hb

/-! ## What a line binds -/

/-- The names bound in the global scope. -/
def State.globals (s : State) : List String := s.scopes.namesIn ScopeTree.globalId

/-- The declaration that a statement is, if it is one. -/
def declaration? (st : Stmt) : Option FunctionDecl :=
  match st.node with
  | .function d => some d
  | _ => none

/-- What statements at the top level can have done to the global scope:
it has no other new names than theirs, and no other new functions. -/
structure Extends (ss : List Stmt) (s t : State) : Prop where
  has : t.Has ScopeTree.globalId
  heap : t.heap.Data
  kept : ∀ n ∈ s.globals, n ∈ t.globals
  names : ∀ n ∈ t.globals, n ∈ s.globals ∨ n ∈ ss.filterMap boundName?
  functions : ∀ n f, t.scopes.functionIn? ScopeTree.globalId n = some f →
    s.scopes.functionIn? ScopeTree.globalId n = some f ∨
      ∃ d ∈ ss.filterMap declaration?, d.name.text = n ∧ f = .ofDecl d

theorem Extends.refl (hs : s.Has ScopeTree.globalId) (hh : s.heap.Data) (ss : List Stmt) :
    Extends ss s s :=
  ⟨hs, hh, fun _ hn => hn, fun _ hn => Or.inl hn, fun _ _ hf => Or.inl hf⟩

theorem Extends.trans {ss ss' : List Stmt} (h : Extends ss s t) (h' : Extends ss' t u) :
    Extends (ss ++ ss') s u := by
  refine ⟨h'.has, h'.heap, fun n hn => h'.kept n (h.kept n hn), ?_, ?_⟩
  · intro n hn
    rw [List.filterMap_append, List.mem_append]
    rcases h'.names n hn with hn | hn
    · exact (h.names n hn).imp id Or.inl
    · exact Or.inr (Or.inr hn)
  · intro n f hf
    simp only [List.filterMap_append, List.mem_append]
    rcases h'.functions n f hf with hf | ⟨d, hd, hn, hf⟩
    · rcases h.functions n f hf with hf | ⟨d, hd, hn, hf⟩
      · exact Or.inl hf
      · exact Or.inr ⟨d, Or.inl hd, hn, hf⟩
    · exact Or.inr ⟨d, Or.inr hd, hn, hf⟩

theorem Extends.widen {ss ss' : List Stmt} (h : Extends ss s t) (hss : ∀ st ∈ ss, st ∈ ss') :
    Extends ss' s t := by
  have hmem : ∀ {β : Type} (g : Stmt → Option β) (x : β), x ∈ ss.filterMap g →
      x ∈ ss'.filterMap g := by
    intro β g x hx
    obtain ⟨st, hst, hg⟩ := List.mem_filterMap.mp hx
    exact List.mem_filterMap.mpr ⟨st, hss st hst, hg⟩
  refine ⟨h.has, h.heap, h.kept, fun n hn => (h.names n hn).imp id (hmem _ n), ?_⟩
  intro n f hf
  refine (h.functions n f hf).imp id ?_
  rintro ⟨d, hd, hn, hf⟩
  exact ⟨d, hmem _ d hd, hn, hf⟩

/-- What a statement leaves in the global scope that declares nothing,
however it ends. -/
theorem Extends.of_nested {limit : Nat} {st : Stmt} {past : List Moment}
    (hs : s.Has ScopeTree.globalId) (hh : s.heap.Data)
    (hpast : Nested limit (fun _ => False) s past t) (hshape : t.scopes.shape = s.scopes.shape)
    (hnames : t.globals = s.globals ∨ ∃ n, boundName? st = some n ∧ t.globals = s.globals ++ [n]) :
    Extends [st] s t := by
  have hfunctions : ∀ n f, t.scopes.functionIn? ScopeTree.globalId n = some f →
      s.scopes.functionIn? ScopeTree.globalId n = some f := fun _ _ hf => hpast.functionIn? id hf
  have hground := hpast.grounded ⟨hh, hs.lt⟩
  refine ⟨hs.of_shape hshape, hground.data, ?_, ?_, fun n f hf => Or.inl (hfunctions n f hf)⟩
  · intro n hn
    rcases hnames with heq | ⟨m, _, heq⟩
    · rwa [heq]
    · rw [heq]
      exact List.mem_append_left _ hn
  · intro n hn
    rcases hnames with heq | ⟨m, hm, heq⟩
    · exact Or.inl (heq ▸ hn)
    · rw [heq, List.mem_append, List.mem_singleton] at hn
      rcases hn with hn | rfl
      · exact Or.inl hn
      · exact Or.inr (by simp [hm])

/-- What a declaration leaves in the global scope. -/
theorem Extends.declare (hs : s.Has ScopeTree.globalId) (hh : s.heap.Data) (d : FunctionDecl)
    (span : Span) (id : Nat) :
    Extends [⟨.function d, span⟩] s { s with
      heap := s.heap.countFunction
      scopes := s.scopes.insert ScopeTree.globalId d.name.text
        (some (.function (.ofDecl d) id)) } := by
  have hmem := ScopeTree.mem_namesIn_insert hs.lt d.name.text
  refine ⟨hs.of_shape (ScopeTree.shape_insert _ _ _ _), hh, ?_, ?_, ?_⟩
  · exact fun n hn => (hmem n _).mpr (Or.inl hn)
  · intro n hn
    rcases (hmem n _).mp hn with hn | rfl
    · exact Or.inl hn
    · exact Or.inr (by simp [boundName?])
  · intro n f hf
    obtain ⟨m, id, hb⟩ := ScopeTree.functionIn?_eq_some.mp hf
    by_cases hn : n = d.name.text
    · subst hn
      rw [ScopeTree.findIn?_insert_self hs.lt] at hb
      cases hb
      exact Or.inr ⟨d, by simp [declaration?], rfl, rfl⟩
    · rw [ScopeTree.findIn?_insert_of_ne _ _ hn] at hb
      exact Or.inl (ScopeTree.functionIn?_eq_some.mpr ⟨m, id, hb⟩)

/-- However a statement at the top level ends, it has bound nothing but
its name. -/
theorem exec_extends (limit fuel : Nat) (st : Stmt) (hs : s.Has ScopeTree.globalId)
    (hh : s.heap.Data) :
    Moves (Extends [st]) (exec limit fuel ScopeTree.globalId st) s := by
  by_cases hst : ∀ d, st.node ≠ .function d
  · have hrecords := (eval_exec_records limit fuel).2 ScopeTree.globalId st hst
    have hpast := hrecords.nested ⟨hh, hs.lt⟩
    rcases hn : boundName? st with _ | n
    · have hframe := exec_unbound_frame limit fuel st hn hs
      exact .of_nested hs hh hpast hframe.shape (Or.inl (hframe.names _ id))
    · have hadds := exec_addsName limit fuel st hn hs
      exact .of_nested hs hh hpast hadds.shape (hadds.own.imp id fun h => ⟨n, hn, h⟩)
  · push Not at hst
    obtain ⟨d, hd⟩ := hst
    obtain ⟨node, span⟩ := st
    obtain rfl : node = .function d := hd
    cases fuel with
    | zero => exact .refl hs hh _
    | succ fuel => exact .declare hs hh d span s.heap.functions

/-- After a statement with a result its name is bound. -/
theorem exec_binds (limit fuel : Nat) (st : Stmt) (hs : s.Has ScopeTree.globalId) :
    Ends (exec limit fuel ScopeTree.globalId st) s
      (fun _ t => ∀ n, boundName? st = some n → n ∈ t.globals) (fun _ _ => True) := by
  cases fuel with
  | zero => trivial
  | succ fuel =>
    rcases hn : boundName? st with _ | n
    · unfold Ends
      split
      · nofun
      · trivial
    · obtain ⟨node, span⟩ := st
      cases node with
      | assign target e =>
        obtain ⟨node, targetSpan⟩ := target
        cases node with
        | element base index => cases hn
        | name name =>
          cases hn
          refine ends_bind.mpr ?_
          refine (eval_frame limit fuel e hs).ends.mono ?_ fun _ _ _ => trivial
          intro v t ht
          have hst := hs.expr ht
          split
          · trivial
          · refine ends_bind.mpr (ends_assign.mpr ?_)
            have howner : (t.scopes.owner? ScopeTree.globalId n).getD ScopeTree.globalId =
                ScopeTree.globalId := by
              rcases ho : t.scopes.owner? ScopeTree.globalId n with _ | j
              · rfl
              · exact ScopeTree.reaches_global hst.wellFormed (ScopeTree.ownerWithin_some ho).1
            rintro m ⟨⟩
            show n ∈ ScopeTree.namesIn (t.scopes.insert _ n (some v)) ScopeTree.globalId
            rw [howner]
            exact (ScopeTree.mem_namesIn_insert hst.lt n n _).mpr (Or.inr rfl)
      | function d =>
        cases hn
        rintro m ⟨⟩
        exact (ScopeTree.mem_namesIn_insert hs.lt _ _ _).mpr (Or.inr rfl)
      | _ => cases hn

/-- A list of statements at the top level. -/
theorem topLevel_extends (limit fuel : Nat) (ss : List Stmt) (hs : s.Has ScopeTree.globalId)
    (hh : s.heap.Data) :
    Ends (topLevel limit fuel ss) s
      (fun _ t => Extends ss s t ∧ ∀ n ∈ ss.filterMap boundName?, n ∈ t.globals)
      (fun _ t => Extends ss s t) := by
  induction ss generalizing s with
  | nil => exact ⟨.refl hs hh _, by simp⟩
  | cons st ss ih =>
    have hstep : Ends (exec limit fuel ScopeTree.globalId st) s
        (fun _ t => Extends [st] s t ∧ ∀ n, boundName? st = some n → n ∈ t.globals)
        (fun _ t => Extends [st] s t) := by
      have hextends := exec_extends limit fuel st hs hh
      have hbinds := exec_binds limit fuel st hs
      unfold Moves Run.after at hextends
      unfold Ends at hbinds ⊢
      split <;> simp_all
    refine ends_bind.mpr ?_
    refine hstep.mono ?_ fun _ t ht => ht.widen (by simp)
    rintro _ t ⟨ht, hbound⟩
    refine (ih ht.has ht.heap).mono ?_ fun _ u hu => ht.trans hu
    rintro _ u ⟨hu, hrest⟩
    refine ⟨ht.trans hu, ?_⟩
    intro n hn
    obtain ⟨st', hst', hname⟩ := List.mem_filterMap.mp hn
    rcases List.mem_cons.mp hst' with rfl | hst'
    · exact hu.kept n (hbound n hname)
    · exact hrest n (List.mem_filterMap.mpr ⟨st', hst', hname⟩)

end Run

/-! ## What a line declares -/

theorem Stmt.mem_names_declare {t : ScopeTree Function} (h : t.WellFormed) (s : Stmt)
    (n : String) : n ∈ (s.declare ScopeTree.globalId t).namesIn ScopeTree.globalId ↔
      n ∈ t.namesIn ScopeTree.globalId ∨ Run.boundName? s = some n := by
  have hglobal := ScopeTree.isGlobal_globalId h
  -- a name that is known already is not declared again
  have hstay : ∀ m, t.bindsIn ScopeTree.globalId m = true →
      (n ∈ t.namesIn ScopeTree.globalId ↔ n ∈ t.namesIn ScopeTree.globalId ∨ some m = some n) := by
    intro m hm
    refine ⟨Or.inl, ?_⟩
    rintro (hn | hn)
    · exact hn
    · cases hn
      exact (ScopeTree.mem_namesIn_iff t _ _).mpr hm
  have hnew : ∀ m v, n ∈ (t.insert ScopeTree.globalId m v).namesIn ScopeTree.globalId ↔
      n ∈ t.namesIn ScopeTree.globalId ∨ some m = some n := by
    intro m v
    rw [Option.some.injEq, eq_comm (a := m)]
    exact ScopeTree.mem_namesIn_insert h.global_lt m n v
  obtain ⟨node, span⟩ := s
  cases node with
  | assign target value =>
    obtain ⟨node, targetSpan⟩ := target
    cases node with
    | element base index => simp [Stmt.declare, Run.boundName?]
    | name name =>
      simp only [Stmt.declare, Run.boundName?, ScopeTree.binds_eq_isSome_find?,
        ← ScopeTree.bindsIn_of_isGlobal h hglobal]
      split
      · rename_i hb
        exact hstay name hb
      · exact hnew name none
  | function d =>
    simp only [Stmt.declare, Run.boundName?, hglobal, Bool.true_and]
    split
    · rename_i hb
      exact hstay d.name.text hb
    · exact hnew d.name.text _
  | _ => simp [Stmt.declare, Run.boundName?]

theorem mem_names_declareAll {t : ScopeTree Function} (h : t.WellFormed) (ss : List Stmt)
    (n : String) : n ∈ (declareAll ScopeTree.globalId ss t).namesIn ScopeTree.globalId ↔
      n ∈ t.namesIn ScopeTree.globalId ∨ n ∈ ss.filterMap Run.boundName? := by
  induction ss generalizing t with
  | nil => simp [declareAll]
  | cons s ss ih =>
    rw [declareAll, List.foldl_cons, ← declareAll, ih (s.wellFormed_declare _ h),
      s.mem_names_declare h, or_assoc]
    simp

theorem findIn?_declareAll {t : ScopeTree Function} (h : t.WellFormed) (ss : List Stmt)
    {n : String} {b : Binding Function} (hb : t.findIn? ScopeTree.globalId n = some b) :
    (declareAll ScopeTree.globalId ss t).findIn? ScopeTree.globalId n = some b := by
  obtain ⟨added, hadded, _⟩ := declareAll_global h ss
  rw [hadded]
  exact ScopeTree.findIn?_addGlobals added hb

/-- Each declaration of statements that fit is known by its name
afterwards. -/
theorem findIn?_declareAll_function {T : String → Prop} {t : ScopeTree Function}
    (h : t.WellFormed) {ss : List Stmt} (hfit : Stmt.AllFit T (t.site ScopeTree.globalId) ss)
    {d : FunctionDecl} (hd : d ∈ ss.filterMap Run.declaration?) :
    (declareAll ScopeTree.globalId ss t).findIn? ScopeTree.globalId d.name.text =
      some ⟨d.name.text, some (.ofDecl d)⟩ := by
  induction ss generalizing t with
  | nil => simp at hd
  | cons s ss ih =>
    rw [Stmt.AllFit] at hfit
    have hwell := s.wellFormed_declare ScopeTree.globalId h
    rw [declareAll, List.foldl_cons, ← declareAll]
    obtain ⟨s', hs', hsd⟩ := List.mem_filterMap.mp hd
    rcases List.mem_cons.mp hs' with rfl | hs'
    · apply findIn?_declareAll hwell
      obtain ⟨node, span⟩ := s'
      cases node with
      | function d' =>
        cases hsd
        obtain ⟨name, params, body, declSpan⟩ := d
        have hnew := hfit.1
        rw [Stmt.Fit] at hnew
        have hfree : t.bindsIn ScopeTree.globalId name.text = false := by
          rw [ScopeTree.bindsIn_of_isGlobal h hnew.1.1]
          simpa [ScopeTree.site] using hnew.1.2
        simp only [Stmt.declare, hfree, Bool.and_false, Bool.false_eq_true, ↓reduceIte]
        exact ScopeTree.findIn?_insert_self h.global_lt _ _
      | _ => cases hsd
    · have hsite := s.site_declare (i := ScopeTree.globalId) h h.global_lt hfit.1
      exact ih hwell (hsite ▸ hfit.2) (List.mem_filterMap.mpr ⟨s', hs', hsd⟩)

/-! ## Sessions -/

/-- What is bound is known, and functions by the right names. -/
structure Matches (known : ScopeTree Function) (bound : ScopeTree Value) : Prop where
  names : ∀ n ∈ bound.namesIn ScopeTree.globalId, n ∈ known.namesIn ScopeTree.globalId
  functions : ∀ n f, bound.functionIn? ScopeTree.globalId n = some f →
    known.findIn? ScopeTree.globalId n = some ⟨n, some f⟩

namespace Session

/-- The run and the checker of a session match. -/
structure Matched (s : Session) : Prop where
  scopes : s.scopes.WellFormed
  has : s.state.Has ScopeTree.globalId
  heap : s.state.heap.Data
  globals : Matches s.scopes s.state.scopes

/-- Every known name is bound. -/
def AllBound (s : Session) : Prop :=
  ∀ n ∈ s.scopes.namesIn ScopeTree.globalId, n ∈ s.state.globals

variable {s : Session} {limit fuel : Nat} {line : String}

/-! ### Before the first line -/

theorem bindBuiltins_matches (bs : List Builtin) (known : ScopeTree Function) (state : Run.State)
    (hk : known.WellFormed) (hs : state.Has ScopeTree.globalId)
    (hm : Matches known state.scopes)
    (ha : ∀ n ∈ known.namesIn ScopeTree.globalId, n ∈ state.globals) :
    let after := Run.after (Run.bindBuiltins ScopeTree.globalId bs) state
    Matches (Run.withBuiltins bs known) after.scopes ∧
      ∀ n ∈ (Run.withBuiltins bs known).namesIn ScopeTree.globalId, n ∈ after.globals := by
  induction bs generalizing known state with
  | nil => exact ⟨hm, ha⟩
  | cons b bs ih =>
    have hknown := ScopeTree.mem_namesIn_insert hk.global_lt b.name
    have hbound := ScopeTree.mem_namesIn_insert hs.lt b.name
    refine ih (known.insert ScopeTree.globalId b.name (some b.toFunction))
      { state with
        heap := state.heap.countFunction
        scopes := state.scopes.insert ScopeTree.globalId b.name
          (some (.function b.toFunction state.heap.functions)) }
      (hk.insert _ _ _) (hs.of_shape (ScopeTree.shape_insert _ _ _ _)) ⟨?_, ?_⟩ ?_
    · intro n hn
      exact (hknown n _).mpr (((hbound n _).mp hn).imp (hm.names n) id)
    · intro n f hf
      obtain ⟨m, id, hb⟩ := ScopeTree.functionIn?_eq_some.mp hf
      by_cases hn : n = b.name
      · subst hn
        rw [ScopeTree.findIn?_insert_self hs.lt] at hb
        cases hb
        exact ScopeTree.findIn?_insert_self hk.global_lt _ _
      · rw [ScopeTree.findIn?_insert_of_ne _ _ hn] at hb ⊢
        exact hm.functions n f (ScopeTree.functionIn?_eq_some.mpr ⟨m, id, hb⟩)
    · intro n hn
      exact (hbound n _).mpr (((hknown n _).mp hn).imp (ha n) id)

theorem initial_matched (outside : Outside) :
    (initial outside).Matched ∧ (initial outside).AllBound := by
  have hempty : ∀ {α : Type} n, n ∉ (ScopeTree.empty : ScopeTree α).namesIn ScopeTree.globalId := by
    simp [ScopeTree.namesIn, ScopeTree.get?, ScopeTree.empty, ScopeTree.globalId, Scope.names]
  have hnone : ∀ n f,
      (ScopeTree.empty : ScopeTree Value).functionIn? ScopeTree.globalId n ≠ some f := by
    intro n f hf
    cases hf
  obtain ⟨hmatches, hbound⟩ := bindBuiltins_matches Builtin.all .empty
    ⟨.empty, .empty, 0, "", outside⟩ ScopeTree.WellFormed.empty
    ⟨ScopeTree.WellFormed.empty, ScopeTree.WellFormed.empty.global_lt⟩
    ⟨fun n hn => absurd hn (hempty n), fun n f hf => absurd hf (hnone n f)⟩
    fun n hn => absurd hn (hempty n)
  have hstands := Run.initial_stands (fun _ => True) outside
  exact ⟨⟨Analysis.initialScopes_wellFormed, Run.initial_has outside, hstands.heap, hmatches⟩,
    hbound⟩

/-! ### One line -/

/-- What the program of a line leaves in the global scope. -/
theorem result_extends (p : Program) (limit fuel : Nat) {state : Run.State}
    (hs : state.Has ScopeTree.globalId) (hh : state.heap.Data) :
    Run.Ends (result p limit fuel) state
      (fun _ t => Run.Extends p.statements state t ∧ ∀ n ∈ p.declared, n ∈ t.globals)
      (fun _ t => Run.Extends p.statements state t) := by
  unfold result resultIn
  split
  · rename_i e span hp
    have hpast := (Run.eval_records limit fuel ScopeTree.globalId e).nested ⟨hh, hs.lt⟩
    have hextends : Run.Moves (Run.Extends p.statements)
        (Run.eval limit fuel ScopeTree.globalId e) state := by
      have hframe := Run.eval_frame limit fuel e hs
      rw [hp]
      exact .of_nested hs hh hpast hframe.shape (Or.inl (hframe.names _ id))
    rw [Run.ends_bind]
    refine hextends.ends.imp ?_
    intro v t ht
    have hdeclared : ∀ n ∈ p.declared, n ∈ t.globals := by
      simp [Program.declared, hp, Run.boundName?]
    cases v <;> exact ⟨ht, hdeclared⟩
  · exact (Run.topLevel_extends limit fuel p.statements hs hh).bind fun _ _ ht => ht

/-- What the run of an accepted line binds is what the checker has
declared, also if the run stops halfway. -/
theorem Matched.extends (h : s.Matched) (line : String) {p : Program} {state : Run.State}
    (hp : (compile line s.scopes).2 = .ok p) (ht : Run.Extends p.statements s.state state) :
    Matched ⟨(compile line s.scopes).1, state⟩ := by
  have hscopes : (compile line s.scopes).1 =
      declareAll ScopeTree.globalId p.statements s.scopes := by
    rw [compile_of_parse (compile_ok_iff.mp hp).1, ← p.analyze_scopes]
  refine ⟨compile_wellFormed h.scopes line, ht.has, ht.heap, ⟨?_, ?_⟩⟩
  · intro n hn
    rw [hscopes, mem_names_declareAll h.scopes]
    exact (ht.names n hn).imp (h.globals.names n) id
  · intro n f hf
    rw [hscopes]
    rcases ht.functions n f hf with hf | ⟨d, hd, rfl, rfl⟩
    · exact findIn?_declareAll h.scopes _ (h.globals.functions n f hf)
    · exact findIn?_declareAll_function h.scopes (p.fit_of_compile h.scopes hp) hd

/-- A line that is rejected only adds to what is known. -/
theorem Matched.rejected (h : s.Matched) (line : String) :
    Matched ⟨(compile line s.scopes).1, s.state⟩ := by
  obtain ⟨added, hadded, _⟩ := compile_addGlobals h.scopes line
  refine ⟨compile_wellFormed h.scopes line, h.has, h.heap, ⟨?_, ?_⟩⟩
  · intro n hn
    rw [hadded, ScopeTree.namesIn_addGlobals h.scopes]
    exact List.mem_append_left _ (h.globals.names n hn)
  · intro n f hf
    rw [hadded]
    exact ScopeTree.findIn?_addGlobals added (h.globals.functions n f hf)

theorem Matched.evalLine (h : s.Matched) (limit fuel : Nat) (line : String) :
    (s.evalLine limit fuel line).1.Matched := by
  unfold Session.evalLine
  rcases hc : compile line s.scopes with ⟨scopes, e | p⟩
  · have hrejected := h.rejected line
    rwa [hc] at hrejected
  · have hline : ∀ state, Run.Extends p.statements s.state state → Matched ⟨scopes, state⟩ := by
      intro state ht
      have hextends := h.extends line (by rw [hc]) ht
      rwa [hc] at hextends
    have hrun := result_extends p limit fuel h.has h.heap
    unfold Run.Ends at hrun
    simp only
    rcases hr : result p limit fuel s.state with ⟨v, state⟩ | ⟨e, state⟩
    · rw [hr] at hrun
      exact hline state hrun.1
    · rw [hr] at hrun
      exact hline state hrun

/-- After a line with a result, all that it declares is bound. -/
theorem AllBound.evalLine (ha : s.AllBound) (h : s.Matched)
    (hok : (s.evalLine limit fuel line).2.isOk = true) :
    (s.evalLine limit fuel line).1.AllBound := by
  unfold Session.evalLine at hok ⊢
  rcases hc : compile line s.scopes with ⟨scopes, e | p⟩
  · rw [hc] at hok
    cases hok
  · have hrun := result_extends p limit fuel h.has h.heap
    unfold Run.Ends at hrun
    rw [hc] at hok
    simp only at hok ⊢
    rcases hr : result p limit fuel s.state with ⟨v, state⟩ | ⟨e, state⟩
    · rw [hr] at hrun
      have hp : (compile line s.scopes).2 = .ok p := by rw [hc]
      have hscopes : scopes = declareAll ScopeTree.globalId p.statements s.scopes := by
        rw [← p.analyze_scopes]
        rw [compile_of_parse (compile_ok_iff.mp hp).1] at hc
        exact (Prod.mk.inj hc).1.symm
      intro n hn
      have hn : n ∈ scopes.namesIn ScopeTree.globalId := hn
      rw [hscopes, mem_names_declareAll h.scopes] at hn
      rcases hn with hn | hn
      · exact hrun.1.kept n (ha n hn)
      · exact hrun.2 n hn
    · rw [hr] at hok
      cases hok

/-! ### Many lines -/

theorem Matched.evalLines (h : s.Matched) (limit fuel : Nat) (lines : List String) :
    (s.evalLines limit fuel lines).1.Matched := by
  induction lines generalizing s with
  | nil => exact h
  | cons line lines ih => exact ih (h.evalLine limit fuel line)

theorem AllBound.evalLines {lines : List String} (ha : s.AllBound) (h : s.Matched)
    (hok : ∀ answer ∈ (s.evalLines limit fuel lines).2, answer.isOk = true) :
    (s.evalLines limit fuel lines).1.AllBound := by
  induction lines generalizing s with
  | nil => exact ha
  | cons line lines ih =>
    refine ih (ha.evalLine h (hok _ List.mem_cons_self)) (h.evalLine limit fuel line) ?_
    exact fun answer hmem => hok answer (List.mem_cons_of_mem _ hmem)

end Session

/-- After any lines, each of them accepted, rejected or stopped halfway,
every name that the run has bound globally is known to the checker, and
every function that such a name holds is the function that the checker
knows by the name. If every line had a result, the same names are bound
and known. -/
theorem session_globals_match (outside : Outside) (limit fuel : Nat) (lines : List String) :
    let after := (Session.initial outside).evalLines limit fuel lines
    let bound := after.1.state.scopes
    let known := after.1.scopes
    (∀ n ∈ bound.namesIn ScopeTree.globalId, n ∈ known.namesIn ScopeTree.globalId) ∧
    (∀ n f id, bound.findIn? ScopeTree.globalId n = some ⟨n, some (.function f id)⟩ →
      known.findIn? ScopeTree.globalId n = some ⟨n, some f⟩) ∧
    ((∀ answer ∈ after.2, answer.isOk = true) →
      ∀ n, n ∈ bound.namesIn ScopeTree.globalId ↔ n ∈ known.namesIn ScopeTree.globalId) := by
  intro after bound known
  obtain ⟨hmatched, hbound⟩ := Session.initial_matched outside
  have hglobals := (hmatched.evalLines limit fuel lines).globals
  refine ⟨hglobals.names, ?_, ?_⟩
  · intro n f id hb
    exact hglobals.functions n f (ScopeTree.functionIn?_eq_some.mpr ⟨n, id, hb⟩)
  · intro hok n
    exact ⟨hglobals.names n, hbound.evalLines hmatched hok n⟩

/-- A declaration and a call of it: both lines have a result, so every
known name is bound. -/
theorem session_globals_match_call :
    let lines := ["function f(x) \x7b return x \x7d", "a <- f(1)"]
    let after := (Session.initial (.replay [])).evalLines 10 20 lines
    (∀ answer ∈ after.2, answer.isOk = true) ∧
      ∀ n, n ∈ after.1.state.scopes.namesIn ScopeTree.globalId ↔
        n ∈ after.1.scopes.namesIn ScopeTree.globalId := by
  intro lines
  have hok : ∀ answer ∈ ((Session.initial (.replay [])).evalLines 10 20 lines).2,
      answer.isOk = true := by decide +kernel
  exact ⟨hok, (session_globals_match (.replay []) 10 20 lines).2.2 hok⟩

end Quill
