-- Runs do not look at spans. If all spans of a program and of the functions
-- in scope are mapped, its run goes through the same states with mapped
-- spans, and ends in the same way: with the same value, or with the same
-- error at the mapped place.
import Mathlib
import Quill.Proofs.StepLaws
import Quill.Proofs.TreeSpans

namespace Quill

/-! ## Mapping the values of scopes -/

variable {α β : Type} (g : α → β)

def Binding.map (b : Binding α) : Binding β := ⟨b.name, b.value.map g⟩

def Scope.map (s : Scope α) : Scope β :=
  ⟨s.bindings.map (·.map g), s.parent, s.global, s.inLoop, s.inFunction⟩

/-- The tree with all values mapped. -/
def ScopeTree.map (t : ScopeTree α) : ScopeTree β := ⟨t.scopes.map (·.map g)⟩

theorem Scope.binds_map (s : Scope α) (n : String) : (s.map g).binds n = s.binds n := by
  simp [Scope.map, Scope.binds, List.any_map, Function.comp_def, Binding.map]

theorem Scope.find?_map (s : Scope α) (n : String) :
    (s.map g).find? n = (s.find? n).map (·.map g) := by
  simp only [Scope.map, Scope.find?, List.find?_map]
  rfl

theorem Scope.map_insert (s : Scope α) (n : String) (v : Option α) :
    (s.insert ⟨n, v⟩).map g = (s.map g).insert ⟨n, v.map g⟩ := by
  have hput : ∀ bs : List (Binding α),
      (Scope.put ⟨n, v⟩ bs).map (·.map g) = Scope.put ⟨n, v.map g⟩ (bs.map (·.map g)) := by
    intro bs
    induction bs with
    | nil => rfl
    | cons c cs ih =>
      simp only [Scope.put, List.map_cons]
      have hname : (c.map g).name = c.name := rfl
      rw [hname]
      split
      · rfl
      · rw [List.map_cons, ih]
  simp only [Scope.insert, Scope.map, hput]

namespace ScopeTree

@[simp] theorem get?_map (t : ScopeTree α) (i : ScopeId) :
    (t.map g).get? i = (t.get? i).map (·.map g) := by simp [get?, map]

@[simp] theorem size_map (t : ScopeTree α) : (t.map g).size = t.size := by simp [size, map]

theorem map_insert (t : ScopeTree α) (i : ScopeId) (n : String) (v : Option α) :
    (t.insert i n v).map g = (t.map g).insert i n (v.map g) := by
  apply ext_get?
  intro j
  by_cases hj : j = i
  · subst hj
    rw [get?_map, get?_insert_self, get?_insert_self, get?_map]
    cases t.get? j with
    | none => rfl
    | some s => exact congrArg some (s.map_insert g n v)
  · rw [get?_map, get?_insert_of_ne n v hj, get?_insert_of_ne n _ hj, get?_map]

theorem globalOf_map (t : ScopeTree α) (i : ScopeId) : (t.map g).globalOf i = t.globalOf i := by
  rw [globalOf, globalOf, get?_map]
  cases t.get? i <;> rfl

theorem map_addChild (t : ScopeTree α) (p : ScopeId) (l f : Bool) :
    (t.addChild p l f).map g = (t.map g).addChild p l f := by
  rw [addChild, addChild, globalOf_map]
  simp [map, Scope.map]

theorem inLoop_map (t : ScopeTree α) (i : ScopeId) : (t.map g).inLoop i = t.inLoop i := by
  rw [inLoop, inLoop, get?_map]
  cases t.get? i <;> rfl

theorem inFunction_map (t : ScopeTree α) (i : ScopeId) :
    (t.map g).inFunction i = t.inFunction i := by
  rw [inFunction, inFunction, get?_map]
  cases t.get? i <;> rfl

theorem map_addBlock (t : ScopeTree α) (p : ScopeId) :
    (t.addBlock p).map g = (t.map g).addBlock p := by
  rw [addBlock, map_addChild, addBlock, inLoop_map, inFunction_map]

theorem map_addLoop (t : ScopeTree α) (p : ScopeId) :
    (t.addLoop p).map g = (t.map g).addLoop p := by
  rw [addLoop, map_addChild, addLoop, inFunction_map]

theorem map_keep (t : ScopeTree α) (n : Nat) : (t.keep n).map g = (t.map g).keep n := by
  apply ext_get?
  intro i
  rw [get?_map, get?_keep, get?_keep, get?_map]
  split <;> rfl

theorem ownerWithin_map (t : ScopeTree α) (n : String) (steps i : Nat) :
    (t.map g).ownerWithin n steps i = t.ownerWithin n steps i := by
  induction steps generalizing i with
  | zero => rfl
  | succ steps ih =>
    simp only [ownerWithin, get?_map]
    cases t.get? i with
    | none => rfl
    | some s =>
      simp only [Option.map_some, Scope.binds_map, ih]
      rfl

theorem owner?_map (t : ScopeTree α) (i : ScopeId) (n : String) :
    (t.map g).owner? i n = t.owner? i n := ownerWithin_map g t n (i + 1) i

theorem findIn?_map (t : ScopeTree α) (i : ScopeId) (n : String) :
    (t.map g).findIn? i n = (t.findIn? i n).map (·.map g) := by
  rw [findIn?, findIn?, get?_map]
  cases t.get? i with
  | none => rfl
  | some s => exact s.find?_map g n

theorem find?_map (t : ScopeTree α) (i : ScopeId) (n : String) :
    (t.map g).find? i n = (t.find? i n).map (·.map g) := by
  rw [find?_eq, find?_eq, owner?_map]
  cases t.owner? i n with
  | none => rfl
  | some j => exact findIn?_map g t j n

end ScopeTree

/-! ## Mapping the spans of a state -/

variable (f : Span → Span)

def Function.respan (h : Function) : Function := ⟨h.name, h.arity, h.decl.map (·.respan f)⟩

/-- The value with all spans mapped. Only functions have any. -/
def Value.respan : Value → Value
  | .function h id => .function (h.respan f) id
  | v => v

theorem FunctionDecl.respan_name (d : FunctionDecl) : (d.respan f).name = d.name.respan f := by
  obtain ⟨name, params, body, span⟩ := d
  rw [FunctionDecl.respan]

theorem FunctionDecl.respan_params (d : FunctionDecl) :
    (d.respan f).params = d.params.map (·.respan f) := by
  obtain ⟨name, params, body, span⟩ := d
  rw [FunctionDecl.respan]

theorem FunctionDecl.respan_body (d : FunctionDecl) : (d.respan f).body = d.body.respan f := by
  obtain ⟨name, params, body, span⟩ := d
  rw [FunctionDecl.respan]

theorem Block.respan_statements (b : Block) :
    (b.respan f).statements = b.statements.map (·.respan f) := by
  obtain ⟨statements, span⟩ := b
  rw [Block.respan, Stmt.respanAll_eq_map]

theorem Expr.respanAll_eq_map (es : List Expr) : Expr.respanAll f es = es.map (·.respan f) := by
  induction es with
  | nil => rfl
  | cons e es ih => rw [Expr.respanAll, ih, List.map_cons]

theorem Function.ofDecl_respan (d : FunctionDecl) :
    Function.ofDecl (d.respan f) = (Function.ofDecl d).respan f := by
  obtain ⟨name, params, body, span⟩ := d
  rw [FunctionDecl.respan]
  simp [Function.ofDecl, Function.respan, FunctionDecl.arity, FunctionDecl.respan, Name.respan]

theorem Value.respan_of_isData {v : Value} (h : v.IsData) : v.respan f = v := by
  cases v with
  | function h' id => exact absurd rfl h
  | _ => rfl

namespace Run

def State.respan (s : State) : State := { s with scopes := s.scopes.map (Value.respan f) }

/-- The end of a run at the mapped place. -/
def Halt.respan : Halt → Halt
  | .fatal e => .fatal ⟨e.fault, f e.span⟩
  | h => h

/-- A result with mapped spans, where `g` maps its value. -/
def respanResult (g : α → β) : EStateM.Result Halt State α → EStateM.Result Halt State β
  | .ok x s => .ok (g x) (s.respan f)
  | .error h s => .error (h.respan f) (s.respan f)

/-! ## Steps that mirror each other -/

variable {γ δ : Type} {P : α → Prop} {Q : γ → Prop} {f} {g}

/-- From every state with data in its arrays, the second step does with
mapped spans what the first one does, and the first has a result with the
property `P`. -/
def Mirrors (f : Span → Span) (g : α → β) (m : Run α) (m' : Run β) (P : α → Prop) : Prop :=
  ∀ s : State, s.heap.Data → m' (s.respan f) = respanResult f g (m s) ∧
    Ends m s (fun x t => P x ∧ t.heap.Data) (fun _ _ => True)

namespace Mirrors

theorem of_looks {m : Run α} {m' : Run β} (h : ∀ s, m' (s.respan f) = respanResult f g (m s))
    (hm : Looks m P) : Mirrors f g m m' P := fun s hs =>
  ⟨h s, (hm s hs).mono (fun _ _ hx => ⟨hx.1, hx.2 ▸ hs⟩) (fun _ _ _ => trivial)⟩

theorem of_speaks {m : Run α} {m' : Run β} (h : ∀ s, m' (s.respan f) = respanResult f g (m s))
    (hm : Speaks m P) : Mirrors f g m m' P := by
  intro s hs
  refine ⟨h s, (hm s).mono ?_ fun _ _ _ => trivial⟩
  rintro x t ⟨hx, more, outside, rfl⟩
  exact ⟨hx, hs⟩

theorem of_acts {m : Run α} {m' : Run β} {event : Event}
    (h : ∀ s, m' (s.respan f) = respanResult f g (m s)) (hm : Acts event m P) :
    Mirrors f g m m' P := fun s hs =>
  ⟨h s, (hm 0 s hs).mono (fun _ _ hx => ⟨hx.1, hx.2.data hs⟩) (fun _ _ _ => trivial)⟩

theorem pure {x : α} (h : P x) : Mirrors f g (pure x) (pure (g x)) P := fun _ hs => ⟨rfl, h, hs⟩

theorem fail {fault : Fault} {span : Span} :
    Mirrors f g (fail fault span) (fail fault (f span)) P := fun _ _ => ⟨rfl, trivial⟩

theorem outOfFuel : Mirrors f g (throw .outOfFuel) (throw .outOfFuel) P :=
  fun _ _ => ⟨rfl, trivial⟩

theorem bind {m : Run α} {m' : Run β} {k : α → Run γ} {k' : β → Run δ} {g' : γ → δ}
    (h : Mirrors f g m m' P) (hk : ∀ x, P x → Mirrors f g' (k x) (k' (g x)) Q) :
    Mirrors f g' (m >>= k) (m' >>= k') Q := by
  intro s hs
  obtain ⟨heq, hends⟩ := h s hs
  rw [ends_bind]
  simp only [Bind.bind, EStateM.bind, heq]
  unfold Ends at hends ⊢
  rcases hm : m s with ⟨x, t⟩ | ⟨e, t⟩
  · rw [hm] at hends
    obtain ⟨heq', hends'⟩ := hk x hends.1 t hends.2
    exact ⟨heq', hends'⟩
  · exact ⟨rfl, trivial⟩

theorem deeper {m m' : Run α} {limit : Nat} {span : Span} (h : Mirrors f id m m' P) :
    Mirrors f id (deeper limit span m) (deeper limit (f span) m') P := by
  intro s hs
  obtain ⟨heq, hends⟩ := h { s with depth := s.depth + 1 } hs
  have hdepth : (s.respan f).depth = s.depth := rfl
  have hstate : { s.respan f with depth := s.depth + 1 } =
      State.respan f { s with depth := s.depth + 1 } := rfl
  refine ⟨?_, Ends.deeper trivial hends⟩
  unfold Run.deeper
  simp only [hdepth, hstate, heq]
  split
  · rfl
  · rcases m { s with depth := s.depth + 1 } with ⟨x, t⟩ | ⟨e, t⟩ <;> rfl

theorem within {enter : ScopeTree Value → ScopeTree Value} {body body' : ScopeId → Run α}
    (henter : ∀ t, (enter t).map (Value.respan f) = enter (t.map (Value.respan f)))
    (h : ∀ inner, Mirrors f id (body inner) (body' inner) P) :
    Mirrors f id (Mode.plain.within enter body) (Mode.plain.within enter body') P := by
  intro s hs
  obtain ⟨heq, hends⟩ := h s.scopes.size { s with scopes := enter s.scopes } hs
  refine ⟨?_, ends_within.mpr (hends.mono (fun _ _ hx => hx) (fun _ _ _ => trivial))⟩
  have hsize : (s.respan f).scopes.size = s.scopes.size := ScopeTree.size_map _ _
  have hstate : { s.respan f with scopes := enter (s.respan f).scopes } =
      State.respan f { s with scopes := enter s.scopes } := by
    simp only [State.respan, henter]
  have hleave : ∀ t : State,
      (t.respan f).leave s.scopes.size = (t.leave s.scopes.size).respan f := by
    intro t
    simp only [State.leave, State.respan, ScopeTree.map_keep]
  simp only [Mode.plain, Run.within, hsize, hstate, heq]
  rcases body s.scopes.size { s with scopes := enter s.scopes } with ⟨x, t⟩ | ⟨e, t⟩
  · exact congrArg (EStateM.Result.ok x) (hleave t)
  · exact congrArg (EStateM.Result.error (e.respan f)) (hleave t)

theorem mapM {step : α → Run β} {step' : γ → Run β} {r : α → γ} {Q : β → Prop} {xs : List α}
    (h : ∀ x ∈ xs, Mirrors f id (step x) (step' (r x)) Q) :
    Mirrors f id (xs.mapM step) ((xs.map r).mapM step') fun ys => ∀ y ∈ ys, Q y := by
  induction xs with
  | nil => exact pure (by simp)
  | cons x xs ih =>
    rw [List.map_cons, List.mapM_cons, List.mapM_cons]
    refine (h x List.mem_cons_self).bind fun y hy => ?_
    refine (ih fun z hz => h z (List.mem_cons_of_mem x hz)).bind fun ys hys => ?_
    exact pure (by simpa using ⟨hy, hys⟩)

/-! ### Sequences and loops -/

theorem inOrder {step : α → Run Signal} {step' : β → Run Signal} {r : α → β} {xs : List α}
    (h : ∀ x ∈ xs, Mirrors f id (step x) (step' (r x)) Signal.IsData) :
    Mirrors f id (inOrder step xs) (inOrder step' (xs.map r)) Signal.IsData := by
  induction xs with
  | nil => exact pure trivial
  | cons x xs ih =>
    refine (h x List.mem_cons_self).bind fun signal hsignal => ?_
    cases signal with
    | normal => exact ih fun z hz => h z (List.mem_cons_of_mem x hz)
    | _ => exact pure hsignal

theorem times {body body' : Run Signal} (h : Mirrors f id body body' Signal.IsData)
    (count : Nat) : Mirrors f id (times body count) (times body' count) Signal.IsData := by
  induction count with
  | zero => exact pure trivial
  | succ count ih =>
    refine h.bind fun signal hsignal => ?_
    simp only [id_eq]
    rcases hl : leaves signal with _ | out
    · exact ih
    · exact pure (leaves_isData hsignal hl)

theorem whileTrue {test test' : Nat → Run Bool} {body body' : Nat → Run Signal}
    (htest : ∀ k, Mirrors f id (test k) (test' k) fun _ => True)
    (hbody : ∀ k, Mirrors f id (body k) (body' k) Signal.IsData) (first fuel : Nat) :
    Mirrors f id (whileTrue test body first fuel) (whileTrue test' body' first fuel)
      Signal.IsData := by
  induction fuel generalizing first with
  | zero => exact outOfFuel
  | succ fuel ih =>
    refine (htest first).bind fun b _ => ?_
    cases b with
    | false => exact pure trivial
    | true =>
      refine (hbody first).bind fun signal hsignal => ?_
      simp only [id_eq]
      rcases hl : leaves signal with _ | out
      · exact ih (first + 1)
      · exact pure (leaves_isData hsignal hl)

/-! ### Arrays and values -/

theorem withHeap (r : Heap → α) (h : ∀ heap, heap.Data → P (r heap)) :
    Mirrors f id (withHeap r) (withHeap r) P := of_looks (fun _ => rfl) (.withHeap r h)

theorem orFail {r : Except OpError α} {fault : OpError → Fault} {span : Span}
    (h : ∀ x, r = .ok x → P x) :
    Mirrors f id (orFail r fault span) (orFail r fault (f span)) P := by
  refine of_looks (fun _ => ?_) (.orFail h)
  cases r with
  | ok x => rfl
  | error e => cases e <;> rfl

theorem newArray {elements : Array Value} (he : ∀ v ∈ elements, v.IsData) :
    Mirrors f id (newArray elements) (newArray elements) Value.IsData :=
  of_acts (fun _ => rfl) (.newArray he)

theorem operation {r : Heap → Except OpError Made} {fault : OpError → Fault} {span : Span}
    (hr : ∀ heap, heap.Data → Value.OkData (r heap)) :
    Mirrors f id (do settle (← Run.orFail (← Run.withHeap r) fault span))
      (do settle (← Run.orFail (← Run.withHeap r) fault (f span))) Value.IsData :=
  (withHeap r hr).bind fun _ hx => (orFail hx).bind fun _ hm =>
    of_acts (fun _ => rfl) (.settle hm)

theorem subscript (v i : Value) (span : Span) :
    Mirrors f id (subscript v i span) (subscript v i (f span)) Value.IsData :=
  (withHeap (P := fun r => ∀ w, r = .ok w → w.IsData) _
    fun _ hh _ hw => Value.subscript_data hh hw).bind fun _ hr => orFail hr

theorem store (a i : Value) {v : Value} (hv : v.IsData) (span : Span) :
    Mirrors f id (store a i v span) (store a i v (f span)) fun _ => True := by
  refine (withHeap (P := fun _ => True) _ fun _ _ => trivial).bind fun r _ => ?_
  refine (orFail (P := fun _ => True) fun _ _ => trivial).bind fun slot _ => ?_
  exact fun s hs => ⟨rfl, trivial, hs.write slot hv⟩

theorem truth (v : Value) (span : Span) :
    Mirrors f id (truth v span) (truth v (f span)) fun _ => True :=
  of_looks (fun _ => by cases v <;> rfl) (.truth v span)

theorem turnCount (v : Value) (span : Span) :
    Mirrors f id (turnCount v span) (turnCount v (f span)) fun _ => True :=
  of_looks (fun _ => by cases v <;> rfl) (.turnCount v span)

theorem iterable (v : Value) (span : Span) :
    Mirrors f id (iterable v span) (iterable v (f span)) fun _ => True :=
  of_looks (fun _ => by cases v <;> rfl) (.iterable v span)

theorem hasItem (v : Value) (k : Nat) :
    Mirrors f id (hasItem v k) (hasItem v k) fun _ => True :=
  of_looks (fun _ => rfl) (.hasItem v k)

theorem range (first last : Value) (span : Span) :
    Mirrors f id (range first last span) (range first last (f span)) Value.IsData := by
  refine of_acts (fun s => ?_) (.range first last span)
  cases first with
  | int a =>
    cases last with
    | int b =>
      simp only [Run.range, orCrash]
      cases Value.rangeElements a b <;> rfl
    | _ => rfl
  | _ => rfl

/-! ### Names -/

theorem valueOf? (scope : ScopeId) (name : String) :
    Mirrors f (Option.map (Value.respan f)) (valueOf? scope name) (valueOf? scope name)
      fun _ => True := by
  refine of_looks (fun s => ?_) (.valueOf? scope name)
  have hfind : ((s.respan f).scopes.find? scope name).bind (·.value) =
      ((s.scopes.find? scope name).bind (·.value)).map (Value.respan f) := by
    rw [State.respan, ScopeTree.find?_map]
    cases s.scopes.find? scope name <;> rfl
  exact congrArg (EStateM.Result.ok · (s.respan f)) hfind

theorem variableValue (scope : ScopeId) (name : String) (span : Span) :
    Mirrors f id (variableValue scope name span) (variableValue scope name (f span))
      Value.IsData := by
  refine (valueOf? scope name).bind fun v _ => ?_
  rcases v with _ | v
  · exact fail
  · cases v with
    | function h id => exact fail
    | int n => exact pure (Value.isData_int n)
    | float x => exact pure (Value.isData_float x)
    | bool b => exact pure (Value.isData_bool b)
    | string x => exact pure (Value.isData_string x)
    | array a => exact pure (Value.isData_array a)
    | void => exact pure Value.isData_void

theorem callee (scope : ScopeId) (name : Name) :
    Mirrors f (Function.respan f) (callee scope name) (callee scope (name.respan f))
      fun _ => True := by
  refine (valueOf? scope name.text).bind fun v _ => ?_
  rcases v with _ | v
  · exact fail
  · cases v with
    | function h id => exact pure trivial
    | _ => exact fail

theorem bindName (scope : ScopeId) (name : String) {v : Value} (hv : v.IsData) :
    Mirrors f id (bindName scope name v) (bindName scope name v) fun _ => True := by
  refine fun s hs => ⟨?_, trivial, hs⟩
  have hinsert := s.scopes.map_insert (Value.respan f) scope name (some v)
  rw [Option.map_some, Value.respan_of_isData f hv] at hinsert
  exact congrArg (fun t => EStateM.Result.ok () { s with scopes := t }) hinsert.symm

theorem bindParams (scope : ScopeId) (params : List Name) {args : List Value}
    (hargs : ∀ v ∈ args, v.IsData) :
    Mirrors f id (Mode.plain.bindParams scope params args)
      (Mode.plain.bindParams scope (params.map (·.respan f)) args) fun _ => True := by
  induction params generalizing args with
  | nil => exact pure trivial
  | cons p params ih =>
    cases args with
    | nil => exact pure trivial
    | cons v args =>
      refine (bindName scope p.text (hargs v List.mem_cons_self)).bind fun _ _ => ?_
      exact ih fun w hw => hargs w (List.mem_cons_of_mem v hw)

theorem assign (scope : ScopeId) (name : String) {v : Value} (hv : v.IsData) :
    Mirrors f id (assign scope name v) (assign scope name v) fun _ => True := by
  intro s hs
  have howner : (s.respan f).scopes.owner? scope name = s.scopes.owner? scope name :=
    ScopeTree.owner?_map _ _ _ _
  have hscopes : (s.respan f).scopes.insert (((s.respan f).scopes.owner? scope name).getD scope)
      name (some v) = ScopeTree.map (Value.respan f)
        (s.scopes.insert ((s.scopes.owner? scope name).getD scope) name (some v)) := by
    rw [howner, ScopeTree.map_insert, Option.map_some, Value.respan_of_isData f hv]
    rfl
  rw [assign_apply, assign_apply, hscopes]
  exact ⟨rfl, ends_assign.mpr ⟨trivial, hs⟩⟩

/-! ### Built-in functions -/

theorem ask (r : Request) : Mirrors f id (ask r) (ask r) fun _ => True := by
  refine of_speaks (fun s => ?_) (.ask r)
  have houtside : (s.respan f).outside = s.outside := rfl
  unfold Run.ask
  rw [houtside]
  rcases s.outside.ask r with _ | ⟨a, after⟩ <;> rfl

theorem path (b : Builtin) (v : Value) (span : Span) :
    Mirrors f id (path b v span) (path b v (f span)) fun _ => True :=
  of_speaks (fun _ => by cases v <;> rfl) (.path b v span)

theorem print (text : String) (span : Span) :
    Mirrors f id (print text span) (print text (f span)) fun _ => True := by
  refine of_speaks (fun s => ?_) (.print text span)
  have houtside : (s.respan f).outside = s.outside := rfl
  unfold Run.print
  rw [houtside]
  rcases s.outside.sink.take text with e | sink <;> rfl

theorem flush (span : Span) : Mirrors f id (flush span) (flush (f span)) fun _ => True := by
  refine of_speaks (fun s => ?_) (.flush span)
  have houtside : (s.respan f).outside = s.outside := rfl
  unfold Run.flush
  rw [houtside]
  rcases s.outside.sink.flush with e | _ <;> rfl

theorem outputLine (v : Value) (span : Span) :
    Mirrors f id (outputLine v span) (outputLine v (f span)) Value.IsData :=
  (withHeap v.text (P := fun _ => True) fun _ _ => trivial).bind fun _ _ =>
    (print _ span).bind fun _ _ => pure Value.isData_void

theorem inputLine (span : Span) :
    Mirrors f id (inputLine span) (inputLine (f span)) Value.IsData := by
  refine (flush span).bind fun _ _ => (ask .line).bind fun a _ => ?_
  simp only [id_eq]
  rcases a.bind decode with e | text
  · exact fail
  · exact pure (Value.isData_string _)

theorem readFile (p : String) (span : Span) :
    Mirrors f id (readFile p span) (readFile p (f span)) Value.IsData := by
  refine (ask (.read p)).bind fun a _ => ?_
  simp only [id_eq]
  rcases a.bind decode with e | text
  · exact fail
  · exact pure (Value.isData_string _)

theorem writeFile (p : String) (v : Value) (span : Span) :
    Mirrors f id (writeFile p v span) (writeFile p v (f span)) Value.IsData := by
  refine (withHeap v.text (P := fun _ => True) fun _ _ => trivial).bind fun text _ => ?_
  refine (ask (.write p text.toUTF8)).bind fun a _ => ?_
  rcases a with e | written
  · exact fail
  · exact pure Value.isData_void

theorem lengthOf (v : Value) (span : Span) :
    Mirrors f id (lengthOf v span) (lengthOf v (f span)) Value.IsData := by
  refine (withHeap v.length? (P := fun _ => True) fun _ _ => trivial).bind fun n _ => ?_
  rcases n with _ | n
  · exact fail
  · simp only [id_eq]
    split
    · exact pure (Value.isData_int _)
    · exact fail

theorem invoke (name : String) (args : List Value) (span : Span) :
    Mirrors f id (invoke name args span) (invoke name args (f span)) Value.IsData := by
  unfold Run.invoke
  split
  · exact outputLine _ span
  · exact inputLine span
  · exact (path _ _ span).bind fun p _ => readFile p span
  · exact (path _ _ span).bind fun p _ => writeFile p _ span
  · exact lengthOf _ span
  · exact fail

end Mirrors

/-! ## One level of evaluation -/

section Level

variable {limit fuel : Nat}
  (evals : ∀ scope e, Mirrors f id (eval limit fuel scope e) (eval limit fuel scope (e.respan f))
    Value.IsData)
  (execs : ∀ scope st, Mirrors f id (exec limit fuel scope st) (exec limit fuel scope (st.respan f))
    Signal.IsData)

include evals in
theorem mapM_eval_mirrors (scope : ScopeId) (es : List Expr) :
    Mirrors f id (es.mapM (eval limit fuel scope))
      ((Expr.respanAll f es).mapM (eval limit fuel scope)) fun vs => ∀ v ∈ vs, v.IsData := by
  rw [Expr.respanAll_eq_map]
  exact Mirrors.mapM fun e _ => evals scope e

include execs in
theorem inOrder_exec_mirrors (scope : ScopeId) (b : Block) :
    Mirrors f id (inOrder (exec limit fuel scope) b.statements)
      (inOrder (exec limit fuel scope) (b.respan f).statements) Signal.IsData := by
  rw [Block.respan_statements]
  exact Mirrors.inOrder fun st _ => execs scope st

include execs in
theorem block_mirrors {enter : ScopeTree Value → ScopeTree Value}
    (henter : ∀ t, (enter t).map (Value.respan f) = enter (t.map (Value.respan f))) (b : Block) :
    Mirrors f id
      (Mode.plain.within enter fun inner => inOrder (exec limit fuel inner) b.statements)
      (Mode.plain.within enter fun inner =>
        inOrder (exec limit fuel inner) (b.respan f).statements)
      Signal.IsData :=
  Mirrors.within henter fun inner => inOrder_exec_mirrors execs inner b

include execs in
theorem callBody_mirrors (d : FunctionDecl) {values : List Value} (hv : ∀ v ∈ values, v.IsData) :
    Mirrors f id
      (Mode.plain.within (·.addChild ScopeTree.globalId false true) fun frame => do
        Mode.plain.bindParams frame d.params values
        return returned (← inOrder (exec limit fuel frame) d.body.statements))
      (Mode.plain.within (·.addChild ScopeTree.globalId false true) fun frame => do
        Mode.plain.bindParams frame (d.respan f).params values
        return returned (← inOrder (exec limit fuel frame) (d.respan f).body.statements))
      Value.IsData := by
  refine Mirrors.within (fun t => t.map_addChild _ _ _ _) fun frame => ?_
  rw [FunctionDecl.respan_params, FunctionDecl.respan_body]
  refine (Mirrors.bindParams frame d.params hv).bind fun _ _ => ?_
  refine (inOrder_exec_mirrors execs frame d.body).bind fun signal hsignal => ?_
  cases signal with
  | «return» v => exact Mirrors.pure hsignal
  | _ => exact Mirrors.pure Value.isData_void

include evals execs in
theorem call_mirrors (scope : ScopeId) (name : Name) (args : List Expr) (span : Span) :
    Mirrors f id (eval limit (fuel + 1) scope ⟨.call name args, span⟩)
      (eval limit (fuel + 1) scope ⟨.call (name.respan f) (Expr.respanAll f args), f span⟩)
      Value.IsData := by
  refine (Mirrors.callee scope name).bind fun h _ => ?_
  refine (mapM_eval_mirrors evals scope args).bind fun values hvalues => ?_
  obtain ⟨hname, arity, decl⟩ := h
  by_cases hlen : values.length = arity
  · simp only [Function.respan, id_eq, hlen, ne_eq, not_true_eq_false, ↓reduceIte]
    cases decl with
    | none => exact Mirrors.invoke _ _ _
    | some d => exact Mirrors.deeper (callBody_mirrors execs d hvalues)
  · simp only [Function.respan, id_eq, hlen, ne_eq, not_false_eq_true, ↓reduceIte]
    exact Mirrors.fail

include evals execs in
theorem eval_succ_mirrors (scope : ScopeId) (e : Expr) :
    Mirrors f id (eval limit (fuel + 1) scope e) (eval limit (fuel + 1) scope (e.respan f))
      Value.IsData := by
  obtain ⟨node, span⟩ := e
  rw [Expr.respan]
  cases node with
  | int n => exact Mirrors.pure (Value.isData_int n)
  | float x => exact Mirrors.pure (Value.isData_float x)
  | bool b => exact Mirrors.pure (Value.isData_bool b)
  | string x => exact Mirrors.pure (Value.isData_string x)
  | array elements =>
    rw [ExprNode.respan]
    refine (mapM_eval_mirrors evals scope elements).bind fun values hvalues => ?_
    exact Mirrors.newArray fun v hv => hvalues v (by simpa using hv)
  | var name => exact Mirrors.variableValue scope name span
  | binary left op right =>
    rw [ExprNode.respan]
    refine (evals scope left).bind fun a _ => (evals scope right).bind fun b _ => ?_
    exact Mirrors.operation fun _ hh => Value.binary_data hh op a b
  | unary op operand =>
    rw [ExprNode.respan]
    exact (evals scope operand).bind fun v _ => Mirrors.orFail fun _ hx => Value.unary_data hx
  | range first last =>
    rw [ExprNode.respan]
    exact (evals scope first).bind fun a _ => (evals scope last).bind fun b _ =>
      Mirrors.range a b span
  | index base index =>
    rw [ExprNode.respan]
    exact (evals scope base).bind fun v _ => (evals scope index).bind fun i _ =>
      Mirrors.subscript v i span
  | call name args =>
    rw [ExprNode.respan]
    exact call_mirrors evals execs scope name args span
  | cast target operand =>
    rw [ExprNode.respan]
    refine (evals scope operand).bind fun v _ => ?_
    exact Mirrors.operation fun _ hh => Value.cast_data hh v target

include evals in
theorem assignment_mirrors (scope : ScopeId) (target : Target) (e : Expr) (span : Span) :
    Mirrors f id (exec limit (fuel + 1) scope ⟨.assign target e, span⟩)
      (exec limit (fuel + 1) scope ⟨.assign (target.respan f) (e.respan f), f span⟩)
      Signal.IsData := by
  obtain ⟨node, targetSpan⟩ := target
  obtain ⟨value, valueSpan⟩ := e
  refine (evals scope _).bind fun v hv => ?_
  by_cases hvoid : v.kind = .void
  · simp only [id_eq, hvoid, ↓reduceIte]
    exact Mirrors.fail
  · simp only [id_eq, hvoid, ↓reduceIte]
    cases node with
    | name name => exact (Mirrors.assign scope name hv).bind fun _ _ => Mirrors.pure trivial
    | element base index =>
      refine (evals scope base).bind fun a _ => (evals scope index).bind fun i _ => ?_
      exact (Mirrors.store a i hv targetSpan).bind fun _ _ => Mirrors.pure trivial

include evals execs in
theorem each_mirrors (scope : ScopeId) (item : Name) (items : Expr) (body : Block) (span : Span) :
    Mirrors f id (exec limit (fuel + 1) scope ⟨.each item items body, span⟩)
      (exec limit (fuel + 1) scope
        ⟨.each (item.respan f) (items.respan f) (body.respan f), f span⟩) Signal.IsData := by
  obtain ⟨node, itemsSpan⟩ := items
  refine (evals scope _).bind fun v _ => (Mirrors.iterable v itemsSpan).bind fun _ _ => ?_
  refine Mirrors.within (fun t => t.map_addLoop _ _) fun outer => ?_
  refine Mirrors.whileTrue (fun k => Mirrors.hasItem v k) (fun k => ?_) 0 fuel
  refine (Mirrors.subscript v _ itemsSpan).bind fun w hw => ?_
  refine (Mirrors.bindName outer item.text hw).bind fun _ _ => ?_
  exact block_mirrors execs (fun t => t.map_addBlock _ _) body

theorem function_mirrors (scope : ScopeId) (d : FunctionDecl) (span : Span) :
    Mirrors f id (exec limit (fuel + 1) scope ⟨.function d, span⟩)
      (exec limit (fuel + 1) scope ⟨.function (d.respan f), f span⟩) Signal.IsData := by
  intro s hs
  refine ⟨?_, trivial, hs⟩
  have hname : (d.respan f).name.text = d.name.text := by
    rw [FunctionDecl.respan_name]
    rfl
  have hscopes : (s.respan f).scopes.insert scope (d.respan f).name.text
      (some (.function (.ofDecl (d.respan f)) s.heap.functions)) = ScopeTree.map (Value.respan f)
        (s.scopes.insert scope d.name.text (some (.function (.ofDecl d) s.heap.functions))) := by
    rw [ScopeTree.map_insert, hname, Function.ofDecl_respan]
    rfl
  exact congrArg (fun t => EStateM.Result.ok Signal.normal
    { s with heap := s.heap.countFunction, scopes := t }) hscopes

include evals execs in
theorem exec_succ_mirrors (scope : ScopeId) (st : Stmt) :
    Mirrors f id (exec limit (fuel + 1) scope st) (exec limit (fuel + 1) scope (st.respan f))
      Signal.IsData := by
  obtain ⟨node, span⟩ := st
  rw [Stmt.respan]
  have hblock : ∀ t : ScopeTree Value,
      (t.addBlock scope).map (Value.respan f) = (t.map (Value.respan f)).addBlock scope :=
    fun t => t.map_addBlock _ _
  have hloop : ∀ t : ScopeTree Value,
      (t.addLoop scope).map (Value.respan f) = (t.map (Value.respan f)).addLoop scope :=
    fun t => t.map_addLoop _ _
  cases node with
  | expr e =>
    rw [StmtNode.respan]
    exact (evals scope e).bind fun _ _ => Mirrors.pure trivial
  | assign target e =>
    rw [StmtNode.respan]
    exact assignment_mirrors evals scope target e span
  | cond test yes no =>
    rw [StmtNode.respan]
    obtain ⟨node, testSpan⟩ := test
    refine (evals scope _).bind fun v _ => (Mirrors.truth v testSpan).bind fun b _ => ?_
    cases b with
    | true => exact block_mirrors execs hblock yes
    | false =>
      cases no with
      | some no => exact block_mirrors execs hblock no
      | none => exact Mirrors.pure trivial
  | loop test body =>
    rw [StmtNode.respan]
    obtain ⟨node, testSpan⟩ := test
    refine Mirrors.whileTrue (fun _ => ?_) (fun _ => block_mirrors execs hloop body) 0 fuel
    exact (evals scope _).bind fun v _ => Mirrors.truth v testSpan
  | each item items body =>
    rw [StmtNode.respan]
    exact each_mirrors evals execs scope item items body span
  | times count body =>
    rw [StmtNode.respan]
    obtain ⟨node, countSpan⟩ := count
    refine (evals scope _).bind fun v _ => (Mirrors.turnCount v countSpan).bind fun n _ => ?_
    exact Mirrors.times (block_mirrors execs hloop body) n
  | function d =>
    rw [StmtNode.respan]
    exact function_mirrors scope d span
  | «return» value =>
    cases value with
    | none => exact Mirrors.pure Value.isData_void
    | some e => exact (evals scope e).bind fun v hv => Mirrors.pure hv
  | stop => exact Mirrors.pure trivial
  | next => exact Mirrors.pure trivial

end Level

/-! ## Every evaluation -/

/-- Evaluation does not look at spans. The induction is on the fuel, for
expressions and statements together. -/
theorem eval_exec_mirrors (f : Span → Span) (limit fuel : Nat) :
    (∀ scope e, Mirrors f id (eval limit fuel scope e) (eval limit fuel scope (e.respan f))
      Value.IsData) ∧
    ∀ scope st, Mirrors f id (exec limit fuel scope st) (exec limit fuel scope (st.respan f))
      Signal.IsData := by
  induction fuel with
  | zero => exact ⟨fun _ _ => Mirrors.outOfFuel, fun _ _ => Mirrors.outOfFuel⟩
  | succ fuel ih => exact ⟨eval_succ_mirrors ih.1 ih.2, exec_succ_mirrors ih.1 ih.2⟩

theorem topLevel_mirrors (f : Span → Span) (limit fuel : Nat) (ss : List Stmt) :
    Mirrors f id (topLevel limit fuel ss) (topLevel limit fuel (Stmt.respanAll f ss))
      fun _ => True := by
  induction ss with
  | nil => exact Mirrors.pure trivial
  | cons st ss ih =>
    exact ((eval_exec_mirrors f limit fuel).2 ScopeTree.globalId st).bind fun _ _ => ih

end Run

end Quill
