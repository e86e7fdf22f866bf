-- Scopes and the names bound in them. The scopes form a tree: each but
-- the global one has a parent with a smaller number, and a name is looked
-- up from a scope outwards. The checker of programs and the evaluator use
-- the same trees.

namespace Quill

/-! ## One scope -/

/-- A name, and the value it is bound to if it has one yet. -/
structure Binding (α : Type) where
  name : String
  value : Option α

/-- The number of a scope in its tree. -/
abbrev ScopeId := Nat

/-- The names bound directly in one scope, the scope around it, the global
scope, and whether it lies in a loop or in a function. Only the global scope
itself has no scope around it and names no global one. -/
structure Scope (α : Type) where
  bindings : List (Binding α)
  parent : Option ScopeId
  global : Option ScopeId
  inLoop : Bool
  inFunction : Bool

namespace Scope

variable {α : Type}

/-- The binding of a name in this scope. -/
def find? (s : Scope α) (name : String) : Option (Binding α) := s.bindings.find? (·.name == name)

/-- Whether the name is bound in this scope. -/
def binds (s : Scope α) (name : String) : Bool := s.bindings.any (·.name == name)

/-- The bindings with `b` in place of the one of its name, or after all
others. -/
def put (b : Binding α) : List (Binding α) → List (Binding α)
  | [] => [b]
  | c :: cs => if c.name == b.name then b :: cs else c :: put b cs

/-- The scope with a name bound, whether or not it was before. -/
def insert (s : Scope α) (b : Binding α) : Scope α := { s with bindings := put b s.bindings }

/-- Whether this is the global scope. -/
def isGlobal (s : Scope α) : Bool := s.parent.isNone

end Scope

/-! ## The tree -/

/-- All scopes, by number. -/
structure ScopeTree (α : Type) where
  scopes : Array (Scope α)

namespace ScopeTree

variable {α : Type}

/-- The number of the scope without a parent. -/
def globalId : ScopeId := 0

/-- A tree of the global scope alone, with nothing bound in it. -/
def empty : ScopeTree α := ⟨#[⟨[], none, none, false, false⟩]⟩

/-- How many scopes there are, which is the number of the next one. -/
def size (t : ScopeTree α) : Nat := t.scopes.size

/-- The scope of a number. -/
def get? (t : ScopeTree α) (i : ScopeId) : Option (Scope α) := t.scopes[i]?

/-- Whether a scope lies in a loop. -/
def inLoop (t : ScopeTree α) (i : ScopeId) : Bool := (t.get? i).any (·.inLoop)

/-- Whether a scope lies in a function. -/
def inFunction (t : ScopeTree α) (i : ScopeId) : Bool := (t.get? i).any (·.inFunction)

/-- Whether a scope is the global one. -/
def isGlobal (t : ScopeTree α) (i : ScopeId) : Bool := (t.get? i).any (·.isGlobal)

/-! ## New scopes -/

/-- The global scope that scope `i` names, or `i` itself if it names none. -/
def globalOf (t : ScopeTree α) (i : ScopeId) : ScopeId := ((t.get? i).bind (·.global)).getD i

/-- Adds a scope inside another one, whose global scope it takes over. Its
number is the size of the tree before. -/
def addChild (t : ScopeTree α) (parent : ScopeId) (inLoop inFunction : Bool) : ScopeTree α :=
  ⟨t.scopes.push ⟨[], some parent, some (t.globalOf parent), inLoop, inFunction⟩⟩

/-- Adds the scope of a block, which lies in the same loop and function
as its parent. -/
def addBlock (t : ScopeTree α) (parent : ScopeId) : ScopeTree α :=
  t.addChild parent (t.inLoop parent) (t.inFunction parent)

/-- Adds the scope of the body of a loop. -/
def addLoop (t : ScopeTree α) (parent : ScopeId) : ScopeTree α :=
  t.addChild parent true (t.inFunction parent)

/-- Drops all scopes but the first `n`. -/
def keep (t : ScopeTree α) (n : Nat) : ScopeTree α := ⟨t.scopes.shrink n⟩

/-! ## Names -/

/-- The binding of a name in scope `i` itself. -/
def findIn? (t : ScopeTree α) (i : ScopeId) (name : String) : Option (Binding α) :=
  (t.get? i).bind (·.find? name)

/-- The first binding of a name in `steps` scopes from `i` outwards. -/
def findWithin (t : ScopeTree α) (name : String) : Nat → ScopeId → Option (Binding α)
  | 0, _ => none
  | steps + 1, i =>
    match t.get? i with
    | none => none
    | some s =>
      match s.find? name, s.parent with
      | some b, _ => some b
      | none, some p => t.findWithin name steps p
      | none, none => none

/-- The binding of a name that is seen from scope `i`. A parent has a
smaller number, so there are at most `i + 1` scopes on the way outwards. -/
def find? (t : ScopeTree α) (i : ScopeId) (name : String) : Option (Binding α) :=
  t.findWithin name (i + 1) i

/-- Whether a name is bound in scope `i` itself. -/
def bindsIn (t : ScopeTree α) (i : ScopeId) (name : String) : Bool := (t.get? i).any (·.binds name)

/-- Whether a name is bound in one of `steps` scopes from `i` outwards. -/
def bindsWithin (t : ScopeTree α) (name : String) : Nat → ScopeId → Bool
  | 0, _ => false
  | steps + 1, i =>
    match t.get? i with
    | none => false
    | some s =>
      if s.binds name then true
      else
        match s.parent with
        | some p => t.bindsWithin name steps p
        | none => false

/-- Whether a name is seen from scope `i`. -/
def binds (t : ScopeTree α) (i : ScopeId) (name : String) : Bool := t.bindsWithin name (i + 1) i

/-- Binds a name in scope `i` itself. -/
def insert (t : ScopeTree α) (i : ScopeId) (name : String) (value : Option α) : ScopeTree α :=
  ⟨t.scopes.modify i (·.insert ⟨name, value⟩)⟩

/-- Gives a new value to the first binding of a name in `steps` scopes from
`i` outwards, and says whether there was one. -/
def assignWithin (t : ScopeTree α) (name : String) (value : α) : Nat → ScopeId → Bool × ScopeTree α
  | 0, _ => (false, t)
  | steps + 1, i =>
    match t.get? i with
    | none => (false, t)
    | some s =>
      if s.binds name then (true, t.insert i name (some value))
      else
        match s.parent with
        | some p => t.assignWithin name value steps p
        | none => (false, t)

/-- Gives a new value to the binding of a name that is seen from scope `i`,
and says whether there was one. -/
def assign (t : ScopeTree α) (i : ScopeId) (name : String) (value : α) : Bool × ScopeTree α :=
  t.assignWithin name value (i + 1) i

end ScopeTree

end Quill
