-- What the steps do that the evaluator is built from. A step that only looks
-- at the state changes nothing, and a step that is told of as an event does
-- what the law says of the event, or fails. All that is known of whole runs
-- is put together from these facts.
import Mathlib
import Quill.Proofs.Histories

namespace Quill.Run

variable {α β : Type} {m : Run α} {f : α → Run β} {P : α → Prop} {Q : β → Prop}

/-! ## Steps that only look -/

/-- Where arrays hold data only, the step changes nothing, and its result has
the property `P`. -/
def Looks (m : Run α) (P : α → Prop) : Prop :=
  ∀ s : State, s.heap.Data → Ends m s (fun x t => P x ∧ t = s) (fun _ t => t = s)

namespace Looks

theorem pure {x : α} (h : P x) : Looks (pure x) P := fun _ _ => ⟨h, rfl⟩

theorem halt (e : Halt) : Looks (throw e) P := fun _ _ => rfl

theorem bind (h : Looks m P) (hf : ∀ x, P x → Looks (f x) Q) : Looks (m >>= f) Q := by
  intro s hs
  refine (h s hs).bind ?_
  rintro x t ⟨hx, rfl⟩
  exact hf x hx t hs

theorem withHeap (g : Heap → α) (h : ∀ heap, heap.Data → P (g heap)) : Looks (withHeap g) P :=
  fun s hs => ⟨h s.heap hs, rfl⟩

theorem orFail {r : Except OpError α} {fault : OpError → Fault} {span : Span}
    (h : ∀ x, r = .ok x → P x) : Looks (orFail r fault span) P := fun _ _ =>
  Ends.orFail (fun x hx => ⟨h x hx, rfl⟩) (fun _ => rfl) fun _ => rfl

theorem orCrash {r : Except Crash α} (h : ∀ x, r = .ok x → P x) : Looks (orCrash r) P :=
  fun _ _ => Ends.orCrash (fun x hx => ⟨h x hx, rfl⟩) fun _ => rfl

theorem subscript (v i : Value) (span : Span) : Looks (subscript v i span) Value.IsData :=
  (withHeap (P := fun r => ∀ w, r = .ok w → w.IsData) _
    fun _ hh _ hw => Value.subscript_data hh hw).bind fun _ hr => orFail hr

theorem itemOf (v : Value) (k : Nat) (span : Span) : Looks (itemOf v k span) Value.IsData :=
  subscript v (.int (Int64.ofNat k)) span

theorem truth (v : Value) (span : Span) : Looks (truth v span) fun _ => True := by
  cases v with
  | bool b => exact pure trivial
  | _ => exact halt _

theorem turnCount (v : Value) (span : Span) : Looks (turnCount v span) fun _ => True := by
  cases v with
  | int n => exact pure trivial
  | _ => exact halt _

theorem iterable (v : Value) (span : Span) : Looks (iterable v span) fun _ => True := by
  cases v with
  | array id => exact pure trivial
  | string x => exact pure trivial
  | _ => exact halt _

theorem hasItem (v : Value) (k : Nat) : Looks (hasItem v k) fun _ => True :=
  (withHeap v.length? (P := fun _ => True) fun _ _ => trivial).bind fun _ _ => pure trivial

theorem valueOf? (scope : ScopeId) (name : String) : Looks (valueOf? scope name) fun _ => True :=
  fun _ _ => ⟨trivial, rfl⟩

/-- A name that holds a function has no value as a variable. -/
theorem variableValue (scope : ScopeId) (name : String) (span : Span) :
    Looks (variableValue scope name span) Value.IsData := by
  refine (valueOf? scope name).bind ?_
  intro v _
  rcases v with _ | v
  · exact halt _
  · cases v with
    | function f id => exact halt _
    | int n => exact pure (Value.isData_int n)
    | float x => exact pure (Value.isData_float x)
    | bool b => exact pure (Value.isData_bool b)
    | string x => exact pure (Value.isData_string x)
    | array a => exact pure (Value.isData_array a)
    | void => exact pure Value.isData_void

theorem callee (scope : ScopeId) (name : Name) : Looks (callee scope name) fun _ => True := by
  refine (valueOf? scope name.text).bind ?_
  intro v _
  rcases v with _ | v
  · exact halt _
  · cases v with
    | function f id => exact pure trivial
    | _ => exact halt _

end Looks

/-! ## Steps that talk to the outside -/

/-- The second state is the first after some talk to the outside. -/
def State.Spoke (s t : State) : Prop :=
  ∃ more outside, t = { s with output := s.output ++ more, outside }

theorem State.Spoke.refl (s : State) : s.Spoke s := ⟨"", s.outside, by rw [String.append_empty]⟩

theorem State.Spoke.trans {s t u : State} (h : s.Spoke t) (h' : t.Spoke u) : s.Spoke u := by
  obtain ⟨more, outside, rfl⟩ := h
  obtain ⟨more', outside', rfl⟩ := h'
  exact ⟨more ++ more', outside', by simp only [String.append_assoc]⟩

/-- The step talks to the outside and does nothing else, and its result has
the property `P`. -/
def Speaks (m : Run α) (P : α → Prop) : Prop :=
  ∀ s : State, Ends m s (fun x t => P x ∧ s.Spoke t) (fun _ t => s.Spoke t)

namespace Speaks

theorem pure {x : α} (h : P x) : Speaks (pure x) P := fun s => ⟨h, .refl s⟩

theorem halt (e : Halt) : Speaks (throw e) P := fun s => .refl s

theorem bind (h : Speaks m P) (hf : ∀ x, P x → Speaks (f x) Q) : Speaks (m >>= f) Q := by
  intro s
  rw [ends_bind]
  refine (h s).imp ?_
  rintro x t ⟨hx, ht⟩
  exact (hf x hx t).mono (fun _ _ hy => ⟨hy.1, ht.trans hy.2⟩) fun _ _ hu => ht.trans hu

theorem withHeap (g : Heap → α) : Speaks (withHeap g) fun _ => True := fun s => ⟨trivial, .refl s⟩

theorem ask (r : Request) : Speaks (ask r) fun _ => True := fun s =>
  Ends.ask (fun _ outside => ⟨trivial, "", outside, by rw [String.append_empty]⟩) (.refl s)

theorem print (text : String) (span : Span) : Speaks (print text span) fun _ => True := fun s =>
  Ends.print (fun _ => ⟨trivial, text, _, rfl⟩) fun _ => .refl s

theorem flush (span : Span) : Speaks (flush span) fun _ => True := fun s =>
  Ends.flush ⟨trivial, .refl s⟩ fun _ => .refl s

theorem path (b : Builtin) (v : Value) (span : Span) :
    Speaks (path b v span) fun _ => True := by
  cases v with
  | string x => exact pure trivial
  | _ => exact halt _

theorem outputLine (v : Value) (span : Span) : Speaks (outputLine v span) Value.IsData :=
  (withHeap v.text).bind fun _ _ => (print _ span).bind fun _ _ => pure Value.isData_void

theorem inputLine (span : Span) : Speaks (inputLine span) Value.IsData := by
  refine (flush span).bind fun _ _ => (ask .line).bind fun a _ => ?_
  rcases a.bind decode with e | text
  · exact halt _
  · exact pure (Value.isData_string _)

theorem readFile (p : String) (span : Span) : Speaks (readFile p span) Value.IsData := by
  refine (ask (.read p)).bind fun a _ => ?_
  rcases a.bind decode with e | text
  · exact halt _
  · exact pure (Value.isData_string _)

theorem writeFile (p : String) (v : Value) (span : Span) :
    Speaks (writeFile p v span) Value.IsData := by
  refine (withHeap v.text).bind fun text _ => (ask (.write p text.toUTF8)).bind fun a _ => ?_
  rcases a with e | written
  · exact halt _
  · exact pure Value.isData_void

theorem lengthOf (v : Value) (span : Span) : Speaks (lengthOf v span) Value.IsData := by
  refine (withHeap v.length?).bind fun n _ => ?_
  rcases n with _ | n
  · exact halt _
  · by_cases hn : n ≤ Int64.maxValue.toInt.toNat
    · simp only [hn, ↓reduceIte]
      exact pure (Value.isData_int _)
    · simp only [hn, ↓reduceIte]
      exact halt _

theorem invoke (name : String) (args : List Value) (span : Span) :
    Speaks (invoke name args span) Value.IsData := by
  unfold Run.invoke
  split
  · exact outputLine _ span
  · exact inputLine span
  · exact (path _ _ span).bind fun p _ => readFile p span
  · exact (path _ _ span).bind fun p _ => writeFile p _ span
  · exact lengthOf _ span
  · exact halt _

end Speaks

/-! ## Steps with an event -/

/-- A step that fails may have talked to the outside before. -/
theorem Law.of_spoke {limit : Nat} {s t : State} (h : s.Spoke t) : Law limit s .failed t := by
  obtain ⟨more, outside, rfl⟩ := h
  exact .failed more outside

theorem Law.failed_here {limit : Nat} (s : State) : Law limit s .failed s := .of_spoke (.refl s)

/-- Where arrays hold data only, the step does what its event says or fails,
and its result has the property `P`. -/
def Acts (event : Event) (m : Run α) (P : α → Prop) : Prop :=
  ∀ (limit : Nat) (s : State), s.heap.Data →
    Ends m s (fun x t => P x ∧ Law limit s event t) (fun _ t => Law limit s .failed t)

namespace Acts

/-- A step that looks first, and then does what the event says. -/
theorem after_look {event : Event} (h : Looks m P) (hf : ∀ x, P x → Acts event (f x) Q) :
    Acts event (m >>= f) Q := by
  intro limit s hs
  rw [ends_bind]
  refine (h s hs).mono ?_ ?_
  · rintro x t ⟨hx, rfl⟩
    exact hf x hx limit t hs
  · rintro _ t rfl
    exact .failed_here t

theorem halt {event : Event} (e : Halt) : Acts event (throw e) P := fun _ s _ => .failed_here s

theorem settle {made : Made} (h : made.Data) : Acts .made (settle made) Value.IsData :=
  fun _ _ _ => ⟨h.value, .made made.fresh h.fresh⟩

theorem newArray {elements : Array Value} (he : ∀ v ∈ elements, v.IsData) :
    Acts .made (newArray elements) Value.IsData :=
  after_look (.withHeap (P := Made.Data) _ fun heap _ => Made.Data.newArray heap he)
    fun _ hm => settle hm

theorem range (first last : Value) (span : Span) :
    Acts .made (range first last span) Value.IsData := by
  cases first with
  | int a =>
    cases last with
    | int b =>
      refine after_look (.orCrash (P := fun elements => ∀ v ∈ elements, v.IsData) ?_) ?_
      · exact fun _ hr => Value.rangeElements_data hr
      · exact fun _ he => newArray he
    | _ => exact halt _
  | _ => exact halt _

/-- An operation that makes data from data. -/
theorem operation {r : Heap → Except OpError Made} {fault : OpError → Fault} {span : Span}
    (hr : ∀ heap, heap.Data → Value.OkData (r heap)) :
    Acts .made (do Run.settle (← orFail (← withHeap r) fault span)) Value.IsData :=
  after_look (.withHeap r hr) fun _ hx => after_look (.orFail hx) fun _ hm => settle hm

theorem binary (op : BinaryOp) (a b : Value) (span : Span) :
    Acts .made (binary op a b span) Value.IsData :=
  operation fun _ hh => Value.binary_data hh op a b

theorem cast (v : Value) (target : TypeName) (span : Span) :
    Acts .made (cast v target span) Value.IsData :=
  operation fun _ hh => Value.cast_data hh v target

theorem invoke (name : String) {args : List Value} (hargs : ∀ v ∈ args, v.IsData) (span : Span) :
    Acts (.builtin name args) (invoke name args span) Value.IsData := by
  intro limit s _
  refine (Speaks.invoke name args span s).mono ?_ fun _ _ => Law.of_spoke
  rintro v t ⟨hv, more, outside, rfl⟩
  exact ⟨hv, .builtin more outside hargs⟩

/-- An element is overwritten where the index names a slot. -/
theorem store (a i : Value) {v : Value} (hv : v.IsData) (span : Span) :
    Acts (.stored a i v) (store a i v span) fun _ => True := by
  intro limit s _
  rcases hslot : Value.slot s.heap a i with e | slot
  · refine ends_bind.mpr ?_
    simp only [withHeap, Ends, hslot]
    cases e <;> exact .failed_here s
  · refine ends_bind.mpr ?_
    simp only [withHeap, Ends, hslot]
    exact ⟨trivial, .stored hv hslot⟩

theorem assign (scope : ScopeId) (name : String) {v : Value} (hv : v.IsData)
    (hvoid : v.kind ≠ .void) :
    Acts (.assigned scope name v) (assign scope name v) fun _ => True :=
  fun _ _ _ => ends_assign.mpr ⟨trivial, .assigned hv hvoid⟩

theorem parameter {scope : ScopeId} (hscope : 0 < scope) (name : String) {v : Value}
    (hv : v.IsData) : Acts (.parameter scope name v) (bindName scope name v) fun _ => True :=
  fun _ _ _ => ⟨trivial, .parameter hv hscope⟩

theorem item {scope : ScopeId} (hscope : 0 < scope) (name : String) {v : Value} (hv : v.IsData) :
    Acts (.item scope name v) (bindName scope name v) fun _ => True :=
  fun _ _ _ => ⟨trivial, .item hv hscope⟩

theorem declare (scope : ScopeId) (d : FunctionDecl) :
    Acts (.declared scope d) (declare scope d) fun _ => True :=
  fun _ _ _ => ⟨trivial, .declared⟩

end Acts

end Quill.Run
