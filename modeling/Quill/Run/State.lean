-- The state of a run and the steps on it that the evaluator is built
-- from. A step either has a result or ends the run, and in both cases the
-- state after it is known.
import Quill.Run.Fatal
import Quill.Run.Outside
import Quill.Value.Cast
import Quill.Value.Element

namespace Quill

/-- The state of a run: arrays, scopes, how many calls of declared
functions are under way, what was printed, and the outside. -/
structure Run.State where
  heap : Heap
  scopes : ScopeTree Value
  depth : Nat
  output : String
  outside : Outside

/-- Why a run does not go on: an error, a crash, a request that the outside
has not answered yet, or no fuel. -/
inductive Run.Halt where
  | fatal (error : Fatal)
  | crash (cause : Crash)
  | awaits (request : Request)
  | outOfFuel

/-- A step of a run. -/
abbrev Run := EStateM Run.Halt Run.State

namespace Run

/-! ## Ending -/

/-- Ends the run with an error. -/
def fail {α : Type} (fault : Fault) (span : Span) : Run α := throw (.fatal ⟨fault, span⟩)

/-- The result of an operation, or its error as the end of the run. A crash
is none of the errors with a place. -/
def orFail {α : Type} (result : Except OpError α) (fault : OpError → Fault) (span : Span) : Run α :=
  match result with
  | .ok x => pure x
  | .error (.crash cause) => throw (.crash cause)
  | .error e => fail (fault e) span

/-- The result of an operation that has no errors but may crash. -/
def orCrash {α : Type} (result : Except Crash α) : Run α :=
  match result with
  | .ok x => pure x
  | .error cause => throw (.crash cause)

/-! ## Arrays and functions -/

/-- Does something with the arrays at hand. -/
def withHeap {α : Type} (f : Heap → α) : Run α := fun s => .ok (f s.heap) s

/-- Adds the arrays that an operation made and gives its value. -/
def settle (m : Made) : Run Value := fun s => .ok m.value { s with heap := s.heap.extend m.fresh }

/-- A new array. -/
def newArray (elements : Array Value) : Run Value := do
  settle (← withHeap (·.newArray elements))

/-- Overwrites a slot of an array. -/
def writeSlot (slot : Slot) (v : Value) : Run Unit :=
  modify fun s => { s with heap := s.heap.write slot v }

/-- A new function value. -/
def newFunction (f : Function) : Run Value := fun s =>
  .ok (.function f s.heap.functions) { s with heap := s.heap.countFunction }

/-! ## Names -/

/-- The value of a name that is seen from a scope. -/
def valueOf? (scope : ScopeId) (name : String) : Run (Option Value) := fun s =>
  .ok ((s.scopes.find? scope name).bind (·.value)) s

/-- Binds a name in a scope itself. -/
def bindName (scope : ScopeId) (name : String) (v : Value) : Run Unit :=
  modify fun s => { s with scopes := s.scopes.insert scope name (some v) }

/-- Gives a name its new value where it is bound, or binds it in the
scope if it is not seen from there. -/
def assign (scope : ScopeId) (name : String) (v : Value) : Run Unit :=
  modify fun s =>
    { s with scopes :=
        if s.scopes.binds scope name then (s.scopes.assign scope name v).2
        else s.scopes.insert scope name (some v) }

/-! ## Scopes -/

/-- The state with only the first `n` scopes. -/
def State.leave (s : State) (n : Nat) : State := { s with scopes := s.scopes.keep n }

/-- Runs something in a new scope, which is gone afterwards however it
ends. -/
def within {α : Type} (enter : ScopeTree Value → ScopeTree Value) (body : ScopeId → Run α) :
    Run α :=
  fun s =>
    let inner := s.scopes.size
    match body inner { s with scopes := enter s.scopes } with
    | .ok x t => .ok x (t.leave inner)
    | .error e t => .error e (t.leave inner)

/-- Runs something one call deeper, unless `limit` calls are under way
already. -/
def deeper {α : Type} (limit : Nat) (span : Span) (body : Run α) : Run α := fun s =>
  if limit ≤ s.depth then .error (.fatal ⟨.callDepth limit, span⟩) s
  else
    match body { s with depth := s.depth + 1 } with
    | .ok x t => .ok x { t with depth := t.depth - 1 }
    | .error e t => .error e { t with depth := t.depth - 1 }

/-! ## The outside -/

/-- Ends the run because a built-in function failed. -/
def failBuiltin {α : Type} (error : BuiltinError) (span : Span) : Run α :=
  fail (.builtin error) span

/-- Prints a text. -/
def print (text : String) (span : Span) : Run Unit := fun s =>
  match s.outside.sink.take text with
  | .ok sink => .ok () { s with output := s.output ++ text, outside := { s.outside with sink } }
  | .error e => failBuiltin (.unwritableOutput e) span s

/-- Makes sure that all that was printed has been taken. -/
def flush (span : Span) : Run Unit := fun s =>
  match s.outside.sink.flush with
  | .ok _ => .ok () s
  | .error e => failBuiltin (.unwritableOutput e) span s

/-- Asks the outside for something. -/
def ask (r : Request) : Run Answer := fun s =>
  match s.outside.ask r with
  | some (a, after) => .ok a { s with outside := after }
  | none => .error (.awaits r) s

end Run

end Quill
