-- How a run is carried out. One evaluator serves for plain runs, for runs
-- that note what happens on the way, and for runs that make something else
-- of the signals at the end of a body: a mode says how each step is done.
import Quill.Run.Builtin

namespace Quill

/-- How control leaves a statement. -/
inductive Signal where
  | normal
  | stop
  | next
  | return (v : Value)

namespace Run

/-- What happens in a run. -/
inductive Event where
  /-- An expression has got its value. -/
  | value (scope : ScopeId) (e : Expr) (v : Value)
  /-- The arrays that an expression needs have been added. -/
  | made
  /-- A built-in function has been called. -/
  | builtin (name : String) (args : List Value)
  /-- The element of `a` at the index `i` has been overwritten. -/
  | stored (a i v : Value)
  /-- A name has been assigned to. -/
  | assigned (scope : ScopeId) (name : String) (v : Value)
  /-- A parameter has got its argument. -/
  | parameter (scope : ScopeId) (name : String) (v : Value)
  /-- The variable of a loop has got the next item. -/
  | item (scope : ScopeId) (name : String) (v : Value)
  /-- A function has been declared. -/
  | declared (scope : ScopeId) (d : FunctionDecl)
  /-- A scope has been entered. -/
  | entered
  /-- All scopes from a number on have been left. -/
  | left (scope : ScopeId)
  /-- A call of a declared function has begun. -/
  | called
  /-- The body of a declared function has given its value. -/
  | returned (v : Value)
  /-- A call of a declared function is over, with a value or without. -/
  | ended
  /-- A step has ended the run. -/
  | failed

/-- How a run is carried out by steps of `m`. -/
structure Mode (m : Type → Type) where
  /-- Does a step that changes nothing. -/
  look {α : Type} : Run α → m α
  /-- Does a step that is told of as an event. -/
  act {α : Type} : Event → Run α → m α
  /-- Does something whose result is told of as an event. -/
  noting {α : Type} : (α → Event) → m α → m α
  /-- Runs something in a new scope. -/
  within {α : Type} : (ScopeTree Value → ScopeTree Value) → (ScopeId → m α) → m α
  /-- Runs something one call deeper, if there may be so many. -/
  deeper {α : Type} : Nat → Span → m α → m α
  /-- What a call makes of the signal that its body gives. -/
  body : FunctionDecl → Signal → m Value
  /-- What a program makes of the signal that a statement gives. -/
  top : Stmt → Signal → m Unit

/-- What a call gives back: the returned value, or nothing. -/
def returned : Signal → Value
  | .return v => v
  | _ => .void

/-- A plain run: nothing is noted, a call has the value that was returned,
and a program drops the signals of its statements. -/
def Mode.plain : Mode Run where
  look step := step
  act _ step := step
  noting _ step := step
  within := Run.within
  deeper := Run.deeper
  body _ signal := pure (returned signal)
  top _ _ := pure ()

end Run

end Quill
