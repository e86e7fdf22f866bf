-- What a line that is rejected leaves behind. The state of the run is as
-- before. The analysis keeps every name it knew, and it may know new ones:
-- those that the line declares at its top level. Lines without such names
-- are answered as if the rejected line had never been entered.
import Mathlib
import Quill.Session
import Quill.Proofs.ScopeFrame
import Quill.Proofs.UnusedNames

namespace Quill

/-! ## More global names -/

namespace ScopeTree

variable {α : Type} {t : ScopeTree α} {n : String}

/-- The tree with more bindings at the end of the global scope. -/
def addGlobals (t : ScopeTree α) (added : List (Binding α)) : ScopeTree α :=
  ⟨t.scopes.modify globalId fun s => { s with bindings := s.bindings ++ added }⟩

theorem get?_addGlobals_self (t : ScopeTree α) (added : List (Binding α)) :
    (t.addGlobals added).get? globalId =
      (t.get? globalId).map fun s => { s with bindings := s.bindings ++ added } := by
  simp [get?, addGlobals, Array.getElem?_modify]

theorem get?_addGlobals_of_ne {i : Nat} (added : List (Binding α)) (h : i ≠ globalId) :
    (t.addGlobals added).get? i = t.get? i := by
  simp [get?, addGlobals, Array.getElem?_modify, h.symm]

theorem addGlobals_nil (t : ScopeTree α) : t.addGlobals [] = t := by
  apply ext_get?
  intro i
  by_cases hi : i = globalId
  · subst hi
    rw [get?_addGlobals_self]
    simp
  · rw [get?_addGlobals_of_ne [] hi]

theorem addGlobals_append (t : ScopeTree α) (xs ys : List (Binding α)) :
    (t.addGlobals xs).addGlobals ys = t.addGlobals (xs ++ ys) := by
  apply ext_get?
  intro i
  by_cases hi : i = globalId
  · subst hi
    simp only [get?_addGlobals_self, Option.map_map]
    congr 1
    funext s
    simp
  · rw [get?_addGlobals_of_ne _ hi, get?_addGlobals_of_ne _ hi, get?_addGlobals_of_ne _ hi]

/-- A new global name comes after all others. -/
theorem insert_eq_addGlobals (h : t.bindsIn globalId n = false) (v : Option α) :
    t.insert globalId n v = t.addGlobals [⟨n, v⟩] := by
  have hput : ∀ bs : List (Binding α), bs.any (·.name == n) = false →
      Scope.put ⟨n, v⟩ bs = bs ++ [⟨n, v⟩] := by
    intro bs hbs
    induction bs with
    | nil => rfl
    | cons c cs ih =>
      simp only [List.any_cons, Bool.or_eq_false_iff] at hbs
      simp [Scope.put, hbs.1, ih hbs.2]
  apply ext_get?
  intro i
  by_cases hi : i = globalId
  · subst hi
    rw [get?_insert_self, get?_addGlobals_self]
    rcases hs : t.get? globalId with _ | s
    · rfl
    · have hb : s.bindings.any (·.name == n) = false := by
        simpa [bindsIn, hs, Scope.binds] using h
      simp [Scope.insert, hput s.bindings hb]
  · rw [get?_insert_of_ne n v hi, get?_addGlobals_of_ne _ hi]

theorem shape_addGlobals (t : ScopeTree α) (added : List (Binding α)) :
    (t.addGlobals added).shape = t.shape := by
  apply List.ext_getElem?
  intro i
  rw [shape_getElem?, shape_getElem?]
  by_cases hi : i = globalId
  · subst hi
    rw [get?_addGlobals_self]
    cases t.get? globalId <;> rfl
  · rw [get?_addGlobals_of_ne added hi]

/-- New global names are nothing to the others. -/
theorem agree_addGlobals (t : ScopeTree α) (added : List (Binding α)) :
    t.Agree (fun n => ∃ b ∈ added, b.name = n) (t.addGlobals added) := by
  refine ⟨shape_addGlobals t added, ?_⟩
  intro i n hn
  by_cases hi : i = globalId
  · subst hi
    have hnone : added.find? (·.name == n) = none := by
      rw [List.find?_eq_none]
      intro b hb hbn
      exact hn ⟨b, hb, by simpa using hbn⟩
    rw [findIn?, findIn?, get?_addGlobals_self]
    cases t.get? globalId with
    | none => rfl
    | some s => simp [Scope.find?, hnone]
  · rw [findIn?, findIn?, get?_addGlobals_of_ne added hi]

theorem mem_namesIn_iff (t : ScopeTree α) (i : ScopeId) (n : String) :
    n ∈ t.namesIn i ↔ t.bindsIn i n = true := by
  rcases hs : t.get? i with _ | s
  · simp [namesIn, bindsIn, hs]
  · simp [namesIn, bindsIn, hs, Scope.names, Scope.binds]

theorem namesIn_addGlobals (h : t.WellFormed) (added : List (Binding α)) :
    (t.addGlobals added).namesIn globalId = t.namesIn globalId ++ added.map (·.name) := by
  obtain ⟨s, hs⟩ := get?_of_lt h.global_lt
  have hs : t.get? globalId = some s := hs
  simp [namesIn, get?_addGlobals_self, hs, Scope.names]

end ScopeTree

/-! ## What a line declares -/

/-- The names that a program declares at its top level, by a bare
assignment or as functions. -/
def Program.declared (p : Program) : List String := p.statements.filterMap Run.boundName?

/-- A statement at the top level adds its name at the end of the global
scope, or nothing. -/
theorem Stmt.declare_global {t : ScopeTree Function} (h : t.WellFormed) (s : Stmt) :
    ∃ added, s.declare ScopeTree.globalId t = t.addGlobals added ∧
      ∀ b ∈ added, b.name ∉ t.namesIn ScopeTree.globalId ∧ Run.boundName? s = some b.name := by
  have hglobal := ScopeTree.isGlobal_globalId h
  have hstay : ∃ added, t = t.addGlobals added ∧ ∀ b ∈ added,
      b.name ∉ t.namesIn ScopeTree.globalId ∧ Run.boundName? s = some b.name :=
    ⟨[], t.addGlobals_nil.symm, by simp⟩
  have hnew : ∀ n v, Run.boundName? s = some n → t.bindsIn ScopeTree.globalId n = false →
      ∃ added, t.insert ScopeTree.globalId n v = t.addGlobals added ∧ ∀ b ∈ added,
        b.name ∉ t.namesIn ScopeTree.globalId ∧ Run.boundName? s = some b.name := by
    intro n v hn hfree
    refine ⟨[⟨n, v⟩], ScopeTree.insert_eq_addGlobals hfree v, ?_⟩
    simp [ScopeTree.mem_namesIn_iff, hfree, hn]
  obtain ⟨node, span⟩ := s
  cases node with
  | assign target value =>
    obtain ⟨node, targetSpan⟩ := target
    cases node with
    | element base index => exact hstay
    | name name =>
      simp only [Stmt.declare, ScopeTree.binds_eq_isSome_find?,
        ← ScopeTree.bindsIn_of_isGlobal h hglobal]
      rcases hb : t.bindsIn ScopeTree.globalId name with _ | _
      · exact hnew name none rfl hb
      · exact hstay
  | function d =>
    simp only [Stmt.declare, hglobal, Bool.true_and]
    rcases hb : t.bindsIn ScopeTree.globalId d.name.text with _ | _
    · exact hnew d.name.text _ rfl hb
    · exact hstay
  | _ => exact hstay

/-- Statements at the top level add names that they declare and that were
not there. -/
theorem declareAll_global {t : ScopeTree Function} (h : t.WellFormed) (ss : List Stmt) :
    ∃ added, declareAll ScopeTree.globalId ss t = t.addGlobals added ∧
      ∀ b ∈ added,
        b.name ∉ t.namesIn ScopeTree.globalId ∧ b.name ∈ ss.filterMap Run.boundName? := by
  induction ss generalizing t with
  | nil => exact ⟨[], (t.addGlobals_nil).symm, by simp⟩
  | cons s ss ih =>
    obtain ⟨first, hfirst, hnew⟩ := s.declare_global h
    obtain ⟨rest, hrest, hnew'⟩ := ih (s.wellFormed_declare ScopeTree.globalId h)
    refine ⟨first ++ rest, ?_, ?_⟩
    · rw [declareAll, List.foldl_cons, ← declareAll, hrest, hfirst, ScopeTree.addGlobals_append]
    · intro b hb
      rcases List.mem_append.mp hb with hb | hb
      · obtain ⟨hb, hs⟩ := hnew b hb
        exact ⟨hb, List.mem_filterMap.mpr ⟨s, List.mem_cons_self, hs⟩⟩
      · obtain ⟨hb, hs⟩ := hnew' b hb
        rw [hfirst, ScopeTree.namesIn_addGlobals h] at hb
        refine ⟨fun hmem => hb (List.mem_append_left _ hmem), ?_⟩
        obtain ⟨st, hst, hname⟩ := List.mem_filterMap.mp hs
        exact List.mem_filterMap.mpr ⟨st, List.mem_cons_of_mem s hst, hname⟩

/-! ## Sessions -/

namespace Session

/-- The sessions that can be reached by entering lines. -/
inductive Reachable : Session → Prop
  | initial (outside : Outside) : Reachable (.initial outside)
  | line {s : Session} (limit fuel : Nat) (line : String) :
      Reachable s → Reachable (s.evalLine limit fuel line).1

/-- Checks and runs lines one after the other. -/
def evalLines (s : Session) (limit fuel : Nat) :
    List String → Session × List (Except LineError (Option Value))
  | [] => (s, [])
  | line :: lines =>
    let (t, answer) := s.evalLine limit fuel line
    let (u, answers) := t.evalLines limit fuel lines
    (u, answer :: answers)

variable {s t : Session} {limit fuel : Nat} {line : String}

theorem evalLine_scopes (s : Session) (limit fuel : Nat) (line : String) :
    (s.evalLine limit fuel line).1.scopes = (compile line s.scopes).1 := by
  unfold evalLine
  rcases compile line s.scopes with ⟨scopes, e | p⟩
  · rfl
  · simp only
    rcases result p limit fuel s.state with ⟨v, state⟩ | ⟨halt, state⟩ <;> rfl

/-- Whether a line is rejected. -/
def rejects (s : Session) (line : String) : Bool := !(compile line s.scopes).2.isOk

/-- A line that does not compile is not run. -/
theorem evalLine_rejected_iff (s : Session) (limit fuel : Nat) (line : String) :
    (∃ e, (s.evalLine limit fuel line).2 = .error (.rejected e)) ↔ s.rejects line = true := by
  unfold evalLine rejects
  rcases compile line s.scopes with ⟨scopes, e | p⟩
  · simp [Except.isOk, Except.toBool]
  · simp only [Except.isOk, Except.toBool]
    rcases result p limit fuel s.state with ⟨v, state⟩ | ⟨halt, state⟩ <;> simp

theorem evalLine_state_of_rejects (h : s.rejects line = true) :
    (s.evalLine limit fuel line).1.state = s.state := by
  unfold evalLine
  unfold rejects at h
  rcases hc : compile line s.scopes with ⟨scopes, e | p⟩
  · rfl
  · rw [hc] at h
    cases h

theorem compile_wellFormed {t : ScopeTree Function} (h : t.WellFormed) (source : String) :
    (compile source t).1.WellFormed := by
  rcases hp : parseSource source with e | p
  · rw [compile_of_parse_error hp]
    exact h
  · rw [compile_of_parse hp]
    exact p.wellFormed_analyze h

theorem Reachable.wellFormed (h : s.Reachable) : s.scopes.WellFormed := by
  induction h with
  | initial outside => exact Analysis.initialScopes_wellFormed
  | line limit fuel line _ ih =>
    rw [evalLine_scopes]
    exact compile_wellFormed ih line

/-- Every line, accepted or not, only adds global names to what the
analysis knows. -/
theorem compile_addGlobals {t : ScopeTree Function} (h : t.WellFormed) (source : String) :
    ∃ added, (compile source t).1 = t.addGlobals added ∧ ∀ b ∈ added,
      b.name ∉ t.namesIn ScopeTree.globalId ∧
        ∃ p, parseSource source = .ok p ∧ b.name ∈ p.declared := by
  rcases hp : parseSource source with e | p
  · refine ⟨[], ?_, by simp⟩
    rw [t.addGlobals_nil, compile_of_parse_error hp]
  · obtain ⟨added, hadded, hnew⟩ := declareAll_global h p.statements
    refine ⟨added, ?_, fun b hb => ⟨(hnew b hb).1, p, rfl, (hnew b hb).2⟩⟩
    rw [← hadded, ← p.analyze_scopes, compile_of_parse hp]

/-! ## Lines without the new names -/

/-- Two sessions in the same state, whose scopes agree outside `N`. -/
structure Agree (N : String → Prop) (s t : Session) : Prop where
  state : t.state = s.state
  scopes : s.scopes.Agree N t.scopes

/-- None of the names stands in the line. -/
def Without (N : String → Prop) (line : String) : Prop :=
  ∀ p, parseSource line = .ok p → ∀ n ∈ p.names, ¬ N n

variable {N : String → Prop}

theorem compile_agree {t u : ScopeTree Function} (h : t.Agree N u) {source : String}
    (hs : Without N source) :
    (compile source t).1.Agree N (compile source u).1 ∧
      (compile source u).2 = (compile source t).2 := by
  rcases hp : parseSource source with e | p
  · simp only [compile_of_parse_error hp]
    exact ⟨h, trivial⟩
  · obtain ⟨hscopes, herrors⟩ := Program.analyze_agree h (hs p hp)
    simp only [compile_of_parse hp, herrors]
    exact ⟨hscopes, trivial⟩

/-- A line without the names is answered in the same way by both
sessions. -/
theorem Agree.evalLine (h : Agree N s t) (limit fuel : Nat) (hline : Without N line) :
    (t.evalLine limit fuel line).2 = (s.evalLine limit fuel line).2 ∧
      Agree N (s.evalLine limit fuel line).1 (t.evalLine limit fuel line).1 := by
  obtain ⟨hscopes, hresult⟩ := compile_agree h.scopes hline
  unfold Session.evalLine
  rcases hs : compile line s.scopes with ⟨s', r⟩
  rcases ht : compile line t.scopes with ⟨t', r'⟩
  rw [hs, ht] at hscopes hresult
  obtain rfl : r' = r := hresult
  cases r' with
  | error e => exact ⟨rfl, h.state, hscopes⟩
  | ok p =>
    simp only [h.state]
    rcases result p limit fuel s.state with ⟨v, state⟩ | ⟨halt, state⟩
    · exact ⟨rfl, rfl, hscopes⟩
    · exact ⟨rfl, rfl, hscopes⟩

theorem Agree.evalLines (h : Agree N s t) {lines : List String}
    (hlines : ∀ line ∈ lines, Without N line) :
    (t.evalLines limit fuel lines).2 = (s.evalLines limit fuel lines).2 ∧
      (t.evalLines limit fuel lines).1.state = (s.evalLines limit fuel lines).1.state := by
  induction lines generalizing s t with
  | nil => exact ⟨rfl, h.state⟩
  | cons line lines ih =>
    obtain ⟨hanswer, hagree⟩ := h.evalLine limit fuel (hlines line List.mem_cons_self)
    obtain ⟨hanswers, hstate⟩ := ih hagree fun l hl => hlines l (List.mem_cons_of_mem line hl)
    simp only [Session.evalLines, hanswer, hanswers]
    exact ⟨trivial, hstate⟩

end Session

/-! ## Rejected lines -/

/-- A rejected line leaves the state of the run as it was. The analysis
keeps all it knew, and knows at most names that the line declares at its
top level and that were new. All later lines without such a name are
answered as if the rejected line had never been entered. -/
theorem rejected_line_leaves_only_names {s : Session} (hs : s.Reachable) {limit fuel : Nat}
    {line : String} {e : CompileError}
    (h : (s.evalLine limit fuel line).2 = .error (.rejected e)) :
    let t := (s.evalLine limit fuel line).1
    t.state = s.state ∧ ∃ added : List (Binding Function),
      t.scopes = s.scopes.addGlobals added ∧ (added = [] → t = s) ∧
      (∀ b ∈ added, b.name ∉ s.scopes.namesIn ScopeTree.globalId ∧
        ∃ p, parseSource line = .ok p ∧ b.name ∈ p.declared) ∧
      ∀ (limit' fuel' : Nat) (lines : List String),
        (∀ l ∈ lines, ∀ p, parseSource l = .ok p → ∀ b ∈ added, b.name ∉ p.names) →
          (t.evalLines limit' fuel' lines).2 = (s.evalLines limit' fuel' lines).2 ∧
          (t.evalLines limit' fuel' lines).1.state = (s.evalLines limit' fuel' lines).1.state := by
  intro t
  have hstate : t.state = s.state :=
    Session.evalLine_state_of_rejects ((s.evalLine_rejected_iff limit fuel line).mp ⟨e, h⟩)
  obtain ⟨added, hadded, hnew⟩ := Session.compile_addGlobals hs.wellFormed line
  have hscopes : t.scopes = s.scopes.addGlobals added :=
    (s.evalLine_scopes limit fuel line).trans hadded
  refine ⟨hstate, added, hscopes, ?_, hnew, ?_⟩
  · rintro rfl
    rw [ScopeTree.addGlobals_nil] at hscopes
    exact congrArg₂ Session.mk hscopes hstate
  · intro limit' fuel' lines hlines
    have hagree : Session.Agree (fun n => ∃ b ∈ added, b.name = n) s t :=
      ⟨hstate, hscopes ▸ s.scopes.agree_addGlobals added⟩
    refine hagree.evalLines ?_
    rintro l hl p hp n hn ⟨b, hb, rfl⟩
    exact hlines l hl p hp b hb hn

/-- A line with an unknown name is rejected. A line without any names has
the answer afterwards that it had before. -/
theorem rejected_line_leaves_only_names_unknown :
    let s := Session.initial (.replay [])
    let line := "function f() \x7b return 1 \x7d output(zzz)"
    let t := (s.evalLine 10 20 line).1
    (∃ e, (s.evalLine 10 20 line).2 = .error (.rejected e)) ∧ t.state = s.state ∧
      (∃ added : List (Binding Function), t.scopes = s.scopes.addGlobals added ∧
        ∀ b ∈ added, b.name ∉ s.scopes.namesIn ScopeTree.globalId ∧
          ∃ p, parseSource line = .ok p ∧ b.name ∈ p.declared) ∧
      (t.evalLines 10 20 ["1 + 1"]).2 = (s.evalLines 10 20 ["1 + 1"]).2 := by
  intro s line t
  obtain ⟨e, he⟩ := (s.evalLine_rejected_iff 10 20 line).mpr (by decide +kernel)
  obtain ⟨hstate, added, hscopes, _, hnew, hlater⟩ :=
    rejected_line_leaves_only_names (.initial _) he
  have hsum : (parseSource "1 + 1").toOption.all (fun p => p.names = []) = true := by
    decide +kernel
  refine ⟨⟨e, he⟩, hstate, ⟨added, hscopes, hnew⟩, (hlater 10 20 ["1 + 1"] ?_).1⟩
  intro l hl p hp b _
  obtain rfl := List.mem_singleton.mp hl
  rw [hp] at hsum
  simp [show p.names = [] by simpa [Except.toOption] using hsum]

/-- After a rejected line a declaration can be rejected that was not
rejected before: its name was declared by the rejected line. -/
theorem rejected_line_declares :
    let s := Session.initial (.replay [])
    let line := "function f() \x7b return 1 \x7d output(zzz)"
    let next := "function f() \x7b return 1 \x7d"
    let t := (s.evalLine 10 20 line).1
    (∃ e, (s.evalLine 10 20 line).2 = .error (.rejected e)) ∧
      t.scopes.namesIn ScopeTree.globalId = s.scopes.namesIn ScopeTree.globalId ++ ["f"] ∧
      (∃ e, (t.evalLine 10 20 next).2 = .error (.rejected e)) ∧
      ¬ ∃ e, (s.evalLine 10 20 next).2 = .error (.rejected e) := by
  intro s line next t
  rw [Session.evalLine_rejected_iff, Session.evalLine_rejected_iff, Session.evalLine_rejected_iff]
  decide +kernel

end Quill
