-- Reasoning about runs. A step of a run either ends with a result or halts,
-- and the state after it is known in both cases. `Ends` says what holds
-- then, and `Moves` says how the state has changed, however the step ended.
import Mathlib
import Quill.Proofs.ScopeLookup
import Quill.Run.Eval

namespace Quill.Run

variable {α β : Type} {m : Run α} {f : α → Run β} {s : State}

/-! ## Plain runs -/

@[simp] theorem plain_look (m : Run α) : Mode.plain.look m = m := rfl

@[simp] theorem plain_act (event : Event) (m : Run α) : Mode.plain.act event m = m := rfl

@[simp] theorem plain_noting (event : α → Event) (m : Run α) : Mode.plain.noting event m = m := rfl

/-! ## How a step ends -/

/-- The step has a result and `done` holds then, or it halts and `halted`
holds then. -/
def Ends (m : Run α) (s : State) (done : α → State → Prop) (halted : Halt → State → Prop) :
    Prop :=
  match m s with
  | .ok x t => done x t
  | .error h t => halted h t

variable {done done' : α → State → Prop} {halted halted' : Halt → State → Prop}

theorem Ends.mono (h : Ends m s done halted) (hd : ∀ x t, done x t → done' x t)
    (hh : ∀ e t, halted e t → halted' e t) : Ends m s done' halted' := by
  unfold Ends at *
  rcases hm : m s with ⟨x, t⟩ | ⟨e, t⟩
  · rw [hm] at h
    exact hd x t h
  · rw [hm] at h
    exact hh e t h

theorem Ends.imp (h : Ends m s done halted) (hd : ∀ x t, done x t → done' x t) :
    Ends m s done' halted := h.mono hd fun _ _ he => he

theorem Ends.and (h : Ends m s done halted) (h' : Ends m s done' halted') :
    Ends m s (fun x t => done x t ∧ done' x t) (fun e t => halted e t ∧ halted' e t) := by
  unfold Ends at *
  rcases hm : m s with ⟨x, t⟩ | ⟨e, t⟩
  · rw [hm] at h h'
    exact ⟨h, h'⟩
  · rw [hm] at h h'
    exact ⟨h, h'⟩

@[simp] theorem ends_pure (x : α) : Ends (pure x) s done halted ↔ done x s := Iff.rfl

theorem ends_bind {done : β → State → Prop} :
    Ends (m >>= f) s done halted ↔ Ends m s (fun x t => Ends (f x) t done halted) halted := by
  simp only [Ends, bind, EStateM.bind]
  rcases m s with ⟨x, t⟩ | ⟨e, t⟩
  · exact Iff.rfl
  · exact Iff.rfl

/-- What a sequence of steps ends with is what its second step ends with,
from wherever the first one leads. -/
theorem Ends.bind {done' : β → State → Prop} (h : Ends m s done halted)
    (hf : ∀ x t, done x t → Ends (f x) t done' halted) : Ends (m >>= f) s done' halted :=
  ends_bind.mpr (h.imp hf)

theorem Ends.orFail {r : Except OpError α} {fault : OpError → Fault} {span : Span}
    (hd : ∀ x, r = .ok x → done x s) (hh : ∀ e, halted (.fatal ⟨fault e, span⟩) s)
    (hc : ∀ cause, halted (.crash cause) s) : Ends (Run.orFail r fault span) s done halted := by
  rcases r with e | x
  · cases e with
    | crash cause => exact hc cause
    | _ => exact hh _
  · exact hd x rfl

theorem Ends.orCrash {r : Except Crash α} (hd : ∀ x, r = .ok x → done x s)
    (hc : ∀ cause, halted (.crash cause) s) : Ends (Run.orCrash r) s done halted := by
  rcases r with cause | x
  · exact hc cause
  · exact hd x rfl

theorem ends_within {enter : ScopeTree Value → ScopeTree Value} {body : ScopeId → Run α} :
    Ends (within enter body) s done halted ↔
      Ends (body s.scopes.size) { s with scopes := enter s.scopes }
        (fun x t => done x (t.leave s.scopes.size))
        (fun e t => halted e (t.leave s.scopes.size)) := by
  simp only [Ends, within]
  rcases body s.scopes.size { s with scopes := enter s.scopes } with ⟨x, t⟩ | ⟨e, t⟩
  · exact Iff.rfl
  · exact Iff.rfl

/-- A call either comes too deep, or its body runs one level deeper. -/
theorem Ends.deeper {limit : Nat} {span : Span}
    (hh : halted (.fatal ⟨.callDepth limit, span⟩) s)
    (h : Ends m { s with depth := s.depth + 1 } (fun x t => done x { t with depth := t.depth - 1 })
      (fun e t => halted e { t with depth := t.depth - 1 })) :
    Ends (Run.deeper limit span m) s done halted := by
  unfold Ends Run.deeper at *
  split
  · rename_i hd
    split at hd
    · cases hd
    · rcases hm : m { s with depth := s.depth + 1 } with ⟨x, t⟩ | ⟨e, t⟩
      · rw [hm] at h hd
        cases hd
        exact h
      · rw [hm] at hd
        cases hd
  · rename_i hd
    split at hd
    · cases hd
      exact hh
    · rcases hm : m { s with depth := s.depth + 1 } with ⟨x, t⟩ | ⟨e, t⟩
      · rw [hm] at hd
        cases hd
      · rw [hm] at h hd
        cases hd
        exact h

/-- The error that a step ends with, if it ends so. -/
def fatal? (m : Run α) (s : State) : Option Fatal :=
  match m s with
  | .error (.fatal f) _ => some f
  | _ => none

theorem Ends.fatal {f : Fatal} (h : Ends m s done halted) (hf : fatal? m s = some f) :
    ∃ t, halted (.fatal f) t := by
  unfold Ends at h
  unfold fatal? at hf
  split at hf
  · rename_i g t hm
    cases hf
    rw [hm] at h
    exact ⟨t, h⟩
  · cases hf

/-- The crash that a step ends with, if it ends so. -/
def crash? (m : Run α) (s : State) : Option Crash :=
  match m s with
  | .error (.crash cause) _ => some cause
  | _ => none

theorem eq_error_of_crash? {cause : Crash} (h : crash? m s = some cause) :
    ∃ t, m s = .error (.crash cause) t := by
  unfold crash? at h
  split at h
  · rename_i _ t hm
    cases h
    exact ⟨t, hm⟩
  · cases h

theorem Ends.ask {request : Request} {done : Answer → State → Prop}
    (hd : ∀ a after, done a { s with outside := after }) (hh : halted (.awaits request) s) :
    Ends (Run.ask request) s done halted := by
  unfold Ends Run.ask
  rcases s.outside.ask request with _ | ⟨a, after⟩
  · exact hh
  · exact hd a after

theorem Ends.print {text : String} {span : Span} {done : Unit → State → Prop}
    (hd : ∀ sink, done () { s with
      output := s.output ++ text, outside := { s.outside with sink } })
    (hh : ∀ error, halted (.fatal ⟨.builtin (.unwritableOutput error), span⟩) s) :
    Ends (Run.print text span) s done halted := by
  unfold Ends Run.print
  rcases s.outside.sink.take text with error | sink
  · exact hh error
  · exact hd sink

theorem Ends.flush {span : Span} {done : Unit → State → Prop} (hd : done () s)
    (hh : ∀ error, halted (.fatal ⟨.builtin (.unwritableOutput error), span⟩) s) :
    Ends (Run.flush span) s done halted := by
  unfold Ends Run.flush
  rcases s.outside.sink.flush with error | _
  · exact hh error
  · exact hd

/-- An assignment binds a name anew where it is bound already, or in the
scope itself. -/
theorem assign_apply (scope : ScopeId) (name : String) (v : Value) (s : State) :
    assign scope name v s = .ok () { s with
      scopes := s.scopes.insert ((s.scopes.owner? scope name).getD scope) name (some v) } := by
  rw [← ScopeTree.assign_or_insert]
  rfl

theorem ends_assign {scope : ScopeId} {name : String} {v : Value} {done : Unit → State → Prop} :
    Ends (assign scope name v) s done halted ↔ done () { s with
      scopes := s.scopes.insert ((s.scopes.owner? scope name).getD scope) name (some v) } := by
  rw [Ends, assign_apply]

/-! ## Lists and loops -/

/-- Steps over a list give one result each, and keep what each of them
keeps. -/
theorem Ends.mapM {g : α → Run β} {xs : List α} {P : β → Prop} {I : State → Prop} (hs : I s)
    (h : ∀ x ∈ xs, ∀ t, I t → Ends (g x) t (fun y u => P y ∧ I u) halted) :
    Ends (xs.mapM g) s (fun ys t => ys.length = xs.length ∧ (∀ y ∈ ys, P y) ∧ I t) halted := by
  induction xs generalizing s with
  | nil => simpa using hs
  | cons x xs ih =>
    rw [List.mapM_cons]
    apply (h x List.mem_cons_self s hs).bind
    rintro y t ⟨hy, ht⟩
    apply (ih ht fun z hz => h z (List.mem_cons_of_mem x hz)).bind
    rintro ys u ⟨hlen, hys, hu⟩
    refine ⟨by simp [hlen], ?_, hu⟩
    intro z hz
    rcases List.mem_cons.mp hz with rfl | hz
    · exact hy
    · exact hys z hz

variable {P : Signal → Prop} {I : State → Prop}

theorem Ends.times {body : Run Signal} (hn : P .normal)
    (hP : ∀ x y, P x → leaves x = some y → P y)
    (h : ∀ t, I t → Ends body t (fun x u => P x ∧ I u) halted) (count : Nat) (hs : I s) :
    Ends (Run.times body count) s (fun x t => P x ∧ I t) halted := by
  induction count generalizing s with
  | zero => exact ⟨hn, hs⟩
  | succ count ih =>
    apply (h s hs).bind
    rintro x t ⟨hx, ht⟩
    rcases hl : leaves x with _ | y
    · exact ih ht
    · exact ⟨hP x y hx hl, ht⟩

theorem Ends.whileTrue {test : Nat → Run Bool} {body : Nat → Run Signal} (hn : P .normal)
    (hP : ∀ x y, P x → leaves x = some y → P y) (hfuel : ∀ t, I t → halted .outOfFuel t)
    (htest : ∀ k t, I t → Ends (test k) t (fun _ u => I u) halted)
    (hbody : ∀ k t, I t → Ends (body k) t (fun x u => P x ∧ I u) halted) (k fuel : Nat)
    (hs : I s) : Ends (Run.whileTrue test body k fuel) s (fun x t => P x ∧ I t) halted := by
  induction fuel generalizing k s with
  | zero => exact hfuel s hs
  | succ fuel ih =>
    apply (htest k s hs).bind
    intro b t ht
    cases b with
    | false => exact ⟨hn, ht⟩
    | true =>
      apply (hbody k t ht).bind
      rintro x u ⟨hx, hu⟩
      rcases hl : leaves x with _ | y
      · exact ih (k + 1) hu
      · exact ⟨hP x y hx hl, hu⟩

/-! ## How a step moves the state -/

/-- The state after a step, however it ended. -/
def after (m : Run α) (s : State) : State :=
  match m s with
  | .ok _ t | .error _ t => t

/-- The states before and after the step are related. -/
def Moves (R : State → State → Prop) (m : Run α) (s : State) : Prop := R s (after m s)

variable {R : State → State → Prop}

theorem moves_iff_ends : Moves R m s ↔ Ends m s (fun _ t => R s t) (fun _ t => R s t) := by
  unfold Moves after Ends
  rcases m s with ⟨x, t⟩ | ⟨e, t⟩
  · exact Iff.rfl
  · exact Iff.rfl

theorem Moves.ends (h : Moves R m s) : Ends m s (fun _ t => R s t) (fun _ t => R s t) :=
  moves_iff_ends.mp h

theorem Moves.imp {R' : State → State → Prop} (h : Moves R m s) (hR : ∀ t, R s t → R' s t) :
    Moves R' m s := hR _ h

theorem Moves.bind (trans : ∀ ⦃a b c⦄, R a b → R b c → R a c) (h : Moves R m s)
    (hf : ∀ x t, R s t → Moves R (f x) t) : Moves R (m >>= f) s := by
  rw [moves_iff_ends, ends_bind]
  apply h.ends.imp
  intro x t ht
  exact (hf x t ht).ends.mono (fun _ _ hu => trans ht hu) (fun _ _ hu => trans ht hu)

section Preorder

variable (refl : ∀ a, R a a) (trans : ∀ ⦃a b c⦄, R a b → R b c → R a c)
include refl trans

theorem Moves.mapM {g : α → Run β} {xs : List α} (h : ∀ x ∈ xs, ∀ t, R s t → Moves R (g x) t) :
    Moves R (xs.mapM g) s := by
  induction xs generalizing s with
  | nil => exact refl s
  | cons x xs ih =>
    rw [List.mapM_cons]
    apply (h x List.mem_cons_self s (refl s)).bind trans
    intro y t ht
    apply Moves.bind trans
    · exact ih fun z hz u hu => h z (List.mem_cons_of_mem x hz) u (trans ht hu)
    · intro ys u _
      exact refl u

theorem Moves.inOrder {step : α → Run Signal} {xs : List α}
    (h : ∀ x ∈ xs, ∀ t, R s t → Moves R (step x) t) : Moves R (Run.inOrder step xs) s := by
  induction xs generalizing s with
  | nil => exact refl s
  | cons x xs ih =>
    apply (h x List.mem_cons_self s (refl s)).bind trans
    intro signal t ht
    cases signal with
    | normal => exact ih fun z hz u hu => h z (List.mem_cons_of_mem x hz) u (trans ht hu)
    | stop => exact refl t
    | next => exact refl t
    | «return» v => exact refl t

theorem Moves.times {body : Run Signal} (h : ∀ t, R s t → Moves R body t) (count : Nat) :
    Moves R (Run.times body count) s := by
  induction count generalizing s with
  | zero => exact refl s
  | succ count ih =>
    apply (h s (refl s)).bind trans
    intro signal t ht
    rcases leaves signal with _ | out
    · exact ih fun u hu => h u (trans ht hu)
    · exact refl t

theorem Moves.whileTrue {test : Nat → Run Bool} {body : Nat → Run Signal}
    (htest : ∀ k t, R s t → Moves R (test k) t) (hbody : ∀ k t, R s t → Moves R (body k) t)
    (k fuel : Nat) : Moves R (Run.whileTrue test body k fuel) s := by
  induction fuel generalizing k s with
  | zero => exact refl s
  | succ fuel ih =>
    apply (htest k s (refl s)).bind trans
    intro b t ht
    cases b with
    | false => exact refl t
    | true =>
      apply (hbody k t ht).bind trans
      intro signal u hu
      rcases leaves signal with _ | out
      · exact ih (fun j v hv => htest j v (trans ht (trans hu hv)))
          (fun j v hv => hbody j v (trans ht (trans hu hv))) (k + 1)
      · exact refl u

end Preorder

/-! ## Steps that leave the scopes alone -/

/-- The step changes no scope. -/
def Quiet (m : Run α) : Prop := ∀ s, Moves (fun s t => t.scopes = s.scopes) m s

theorem Quiet.bind (hm : Quiet m) (hf : ∀ x, Quiet (f x)) : Quiet (m >>= f) := fun s =>
  (hm s).bind (fun _ _ _ hab hbc => hbc.trans hab) fun x t _ => hf x t

theorem quiet_pure (x : α) : Quiet (pure x : Run α) := fun _ => rfl

theorem quiet_halt (e : Halt) : Quiet (throw e : Run α) := fun _ => rfl

theorem quiet_orFail (r : Except OpError α) (fault : OpError → Fault) (span : Span) :
    Quiet (orFail r fault span) := by
  intro s
  rw [moves_iff_ends]
  exact Ends.orFail (fun _ _ => rfl) (fun _ => rfl) fun _ => rfl

theorem quiet_orCrash (r : Except Crash α) : Quiet (orCrash r) := by
  intro s
  rw [moves_iff_ends]
  exact Ends.orCrash (fun _ _ => rfl) fun _ => rfl

theorem quiet_withHeap (g : Heap → α) : Quiet (withHeap g) := fun _ => rfl

theorem quiet_settle (made : Made) : Quiet (settle made) := fun _ => rfl

theorem quiet_newArray (elements : Array Value) : Quiet (newArray elements) := fun _ => rfl

theorem quiet_valueOf? (scope : ScopeId) (name : String) : Quiet (valueOf? scope name) :=
  fun _ => rfl

theorem quiet_ask (r : Request) : Quiet (ask r) := by
  intro s
  rw [moves_iff_ends]
  exact Ends.ask (fun _ _ => rfl) rfl

theorem quiet_truth (v : Value) (span : Span) : Quiet (truth v span) := by
  intro s
  cases v <;> rfl

theorem quiet_turnCount (v : Value) (span : Span) : Quiet (turnCount v span) := by
  intro s
  cases v <;> rfl

theorem quiet_iterable (v : Value) (span : Span) : Quiet (iterable v span) := by
  intro s
  cases v <;> rfl

theorem quiet_hasItem (v : Value) (k : Nat) : Quiet (hasItem v k) := fun _ => rfl

theorem quiet_subscript (v i : Value) (span : Span) : Quiet (subscript v i span) :=
  (quiet_withHeap _).bind fun r => quiet_orFail r _ _

theorem quiet_itemOf (v : Value) (k : Nat) (span : Span) : Quiet (itemOf v k span) :=
  quiet_subscript v (.int (Int64.ofNat k)) span

/-- An operation that makes new arrays changes no scope. -/
theorem quiet_operation (op : Heap → Except OpError Made) (fault : OpError → Fault) (span : Span) :
    Quiet (do settle (← orFail (← withHeap op) fault span)) :=
  (quiet_withHeap op).bind fun r => (quiet_orFail r fault span).bind quiet_settle

theorem quiet_store (a i v : Value) (span : Span) : Quiet (store a i v span) :=
  (quiet_withHeap _).bind fun r => (quiet_orFail r _ _).bind fun _ _ => rfl

theorem quiet_range (first last : Value) (span : Span) : Quiet (range first last span) := by
  cases first with
  | int a =>
    cases last with
    | int b => exact (quiet_orCrash _).bind quiet_newArray
    | _ => exact quiet_halt _
  | _ => exact quiet_halt _

theorem quiet_variableValue (scope : ScopeId) (name : String) (span : Span) :
    Quiet (variableValue scope name span) := by
  apply (quiet_valueOf? scope name).bind
  intro v
  rcases v with _ | v
  · exact quiet_halt _
  · cases v <;> intro s <;> rfl

theorem quiet_callee (scope : ScopeId) (name : Name) : Quiet (callee scope name) := by
  apply (quiet_valueOf? scope name.text).bind
  intro v
  rcases v with _ | v
  · exact quiet_halt _
  · cases v <;> intro s <;> rfl

/-! ## Built-in functions -/

theorem quiet_path (b : Builtin) (v : Value) (span : Span) : Quiet (path b v span) := by
  intro s
  cases v <;> rfl

theorem quiet_outputLine (v : Value) (span : Span) : Quiet (outputLine v span) := by
  refine (quiet_withHeap v.text).bind fun text => Quiet.bind (fun s => ?_) fun _ => quiet_pure _
  rw [moves_iff_ends]
  exact Ends.print (fun _ => rfl) fun _ => rfl

theorem quiet_flush (span : Span) : Quiet (flush span) := by
  intro s
  rw [moves_iff_ends]
  exact Ends.flush rfl fun _ => rfl

theorem quiet_inputLine (span : Span) : Quiet (inputLine span) := by
  refine (quiet_flush span).bind fun _ => ?_
  apply (quiet_ask .line).bind
  intro a
  rcases a.bind decode with e | text
  · exact quiet_halt _
  · exact quiet_pure _

theorem quiet_readFile (p : String) (span : Span) : Quiet (readFile p span) := by
  apply (quiet_ask (.read p)).bind
  intro a
  rcases a.bind decode with e | text
  · exact quiet_halt _
  · exact quiet_pure _

theorem quiet_writeFile (p : String) (v : Value) (span : Span) : Quiet (writeFile p v span) := by
  apply (quiet_withHeap v.text).bind
  intro text
  apply (quiet_ask (.write p text.toUTF8)).bind
  intro a
  rcases a with e | written
  · exact quiet_halt _
  · exact quiet_pure _

theorem quiet_lengthOf (v : Value) (span : Span) : Quiet (lengthOf v span) := by
  apply (quiet_withHeap v.length?).bind
  intro n
  rcases n with _ | n
  · exact quiet_halt _
  · by_cases hn : n ≤ Int64.maxValue.toInt.toNat
    · simp only [hn, ↓reduceIte]
      exact quiet_pure _
    · simp only [hn, ↓reduceIte]
      exact quiet_halt _

/-- A built-in function changes no scope. -/
theorem quiet_invoke (name : String) (args : List Value) (span : Span) :
    Quiet (invoke name args span) := by
  unfold invoke
  split
  · exact quiet_outputLine _ span
  · exact quiet_inputLine span
  · exact (quiet_path _ _ span).bind fun p => quiet_readFile p span
  · exact (quiet_path _ _ span).bind fun p => quiet_writeFile p _ span
  · exact quiet_lengthOf _ span
  · exact quiet_halt _

end Quill.Run
