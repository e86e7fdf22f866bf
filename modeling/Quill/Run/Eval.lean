-- Running programs. Expressions have a value, statements a signal that
-- says how control leaves them. `fuel` bounds how deep evaluation nests
-- and how often a loop with a test turns; `limit` bounds how many calls of
-- declared functions are under way at a time.
import Quill.Run.Mode

namespace Quill

namespace Run

/-! ## Sequences and loops -/

section Loops

variable {m : Type → Type} [Monad m]

/-- Runs steps one after the other, up to the first that is left in any
other way than at its end. -/
def inOrder {α : Type} (step : α → m Signal) : List α → m Signal
  | [] => return .normal
  | x :: xs => do
    match ← step x with
    | .normal => inOrder step xs
    | signal => return signal

/-- What the signal of its body means to a loop: go on, or leave with
another signal. -/
def leaves : Signal → Option Signal
  | .normal | .next => none
  | .stop => some .normal
  | .return v => some (.return v)

/-- Runs the body `count` times at most. -/
def times (body : m Signal) : Nat → m Signal
  | 0 => return .normal
  | count + 1 => do
    match leaves (← body) with
    | some signal => return signal
    | none => times body count

/-- Runs the turns `k`, `k + 1`, and so on, as long as the test holds
before them. -/
def whileTrue [MonadExcept Halt m] (test : Nat → m Bool) (body : Nat → m Signal) (k : Nat) :
    Nat → m Signal
  | 0 => throw .outOfFuel
  | fuel + 1 => do
    if ← test k then
      match leaves (← body k) with
      | some signal => return signal
      | none => whileTrue test body (k + 1) fuel
    else
      return .normal

end Loops

/-! ## Values that must be of a kind -/

/-- A condition. -/
def truth (v : Value) (span : Span) : Run Bool :=
  match v with
  | .bool b => pure b
  | v => fail (.mismatch .condition v.kind) span

/-- How often a loop is to turn. A negative count is none. -/
def turnCount (v : Value) (span : Span) : Run Nat :=
  match v with
  | .int n => pure n.toInt.toNat
  | v => fail (.mismatch .repeatCount v.kind) span

/-- What a loop can run over: an array or a string. -/
def iterable (v : Value) (span : Span) : Run Unit :=
  match v with
  | .array _ | .string _ => pure ()
  | v => fail (.mismatch .iterable v.kind) span

/-- Whether a value has an element or a character of a number at this
time. -/
def hasItem (v : Value) (k : Nat) : Run Bool := do return k < ((← withHeap v.length?).getD 0)

/-- The element or character of a number. -/
def itemOf (v : Value) (k : Nat) (span : Span) : Run Value := do
  let i := .int (Int64.ofNat k)
  orFail (← withHeap (Value.subscript · v i)) (.subscript v.kind i.kind) span

/-- The array of a range. -/
def range (first last : Value) (span : Span) : Run Value :=
  match first, last with
  | .int a, .int b => do newArray (← orCrash (Value.rangeElements a b))
  | .int _, v => fail (.mismatch .rangeBound v.kind) span
  | v, _ => fail (.mismatch .rangeBound v.kind) span

/-! ## Names -/

/-- The value of a variable. -/
def variableValue (scope : ScopeId) (name : String) (span : Span) : Run Value := do
  match ← valueOf? scope name with
  | some (.function _ _) => fail (.isFunction name) span
  | some v => return v
  | none => fail (.undeclared name) span

/-- The function of a name. -/
def callee (scope : ScopeId) (name : Name) : Run Function := do
  match ← valueOf? scope name.text with
  | some (.function f _) => return f
  | some _ => fail (.notFunction name.text) name.span
  | none => fail (.undeclared name.text) name.span

/-! ## Operations -/

/-- The result of an operator between two values. -/
def binary (op : BinaryOp) (a b : Value) (span : Span) : Run Value := do
  settle (← orFail (← withHeap (Value.binary · op a b)) (.binary op a.kind b.kind) span)

/-- The element of a value at an index. -/
def subscript (v i : Value) (span : Span) : Run Value := do
  orFail (← withHeap (Value.subscript · v i)) (.subscript v.kind i.kind) span

/-- The result of a conversion. -/
def cast (v : Value) (target : TypeName) (span : Span) : Run Value := do
  settle (← orFail (← withHeap (Value.cast · v target)) (.cast v.kind target) span)

/-- Overwrites the element of a value at an index. -/
def store (a i v : Value) (span : Span) : Run Unit := do
  writeSlot (← orFail (← withHeap (Value.slot · a i)) (.subscript a.kind i.kind) span) v

/-- Binds the name of a function to it. -/
def declare (scope : ScopeId) (d : FunctionDecl) : Run Unit := do
  bindName scope d.name.text (← newFunction (.ofDecl d))

/-! ## Expressions and statements -/

namespace Mode

variable {m : Type → Type} [Monad m] [MonadExcept Halt m] (M : Mode m)

/-- Binds parameters to arguments in a scope. -/
def bindParams (scope : ScopeId) : List Name → List Value → m Unit
  | p :: params, v :: args => do
    M.act (.parameter scope p.text v) (bindName scope p.text v)
    bindParams scope params args
  | _, _ => return

mutual

/-- The value of an expression in a scope. Operands and arguments are
evaluated from left to right, and a function is looked up before its
arguments. -/
def eval (limit : Nat) : Nat → ScopeId → Expr → m Value
  | 0, _, _ => throw .outOfFuel
  | fuel + 1, scope, e => M.noting (.value scope e) <|
    match e.node with
    | .int n => return .int n
    | .float x => return .float x
    | .bool b => return .bool b
    | .string s => return .string s
    | .array elements => do
      let values ← elements.mapM (eval limit fuel scope)
      M.act .made (newArray values.toArray)
    | .var name => M.look (variableValue scope name e.span)
    | .binary left op right => do
      let a ← eval limit fuel scope left
      let b ← eval limit fuel scope right
      M.act .made (binary op a b e.span)
    | .unary op operand => do
      let v ← eval limit fuel scope operand
      M.look (orFail (Value.unary op v) (.unary op v.kind) e.span)
    | .range first last => do
      let a ← eval limit fuel scope first
      let b ← eval limit fuel scope last
      M.act .made (range a b e.span)
    | .index base index => do
      let v ← eval limit fuel scope base
      let i ← eval limit fuel scope index
      M.look (subscript v i e.span)
    | .call name args => do
      let f ← M.look (callee scope name)
      let values ← args.mapM (eval limit fuel scope)
      if values.length ≠ f.arity then M.look (fail (.arity name.text) name.span)
      else
        match f.decl with
        | none => M.act (.builtin f.name values) (invoke f.name values name.span)
        | some d =>
          M.deeper limit name.span <|
            M.within (·.addChild ScopeTree.globalId false true) fun frame => do
              M.bindParams frame d.params values
              M.noting .returned do
                M.body d (← inOrder (exec limit fuel frame) d.body.statements)
    | .cast target operand => do
      let v ← eval limit fuel scope operand
      M.act .made (cast v target e.span)

/-- Runs a statement in a scope. Every run of a block has a scope of its
own, and the variable of a loop one around it. -/
def exec (limit : Nat) : Nat → ScopeId → Stmt → m Signal
  | 0, _, _ => throw .outOfFuel
  | fuel + 1, scope, s =>
    match s.node with
    | .expr e => do
      let _ ← eval limit fuel scope e
      return .normal
    | .assign target e => do
      let v ← eval limit fuel scope e
      if v.kind = .void then M.look (fail .voidAssignment e.span)
      else
        match target.node with
        | .name name =>
          M.act (.assigned scope name v) (assign scope name v)
          return .normal
        | .element base index =>
          let a ← eval limit fuel scope base
          let i ← eval limit fuel scope index
          M.act (.stored a i v) (store a i v target.span)
          return .normal
    | .cond test yes no => do
      if ← M.look (truth (← eval limit fuel scope test) test.span) then
        M.within (·.addBlock scope) fun inner => inOrder (exec limit fuel inner) yes.statements
      else
        match no with
        | some no =>
          M.within (·.addBlock scope) fun inner => inOrder (exec limit fuel inner) no.statements
        | none => return .normal
    | .loop test body =>
      whileTrue (fun _ => do M.look (truth (← eval limit fuel scope test) test.span))
        (fun _ =>
          M.within (·.addLoop scope) fun inner => inOrder (exec limit fuel inner) body.statements)
        0 fuel
    | .each item items body => do
      let v ← eval limit fuel scope items
      M.look (iterable v items.span)
      M.within (·.addLoop scope) fun outer =>
        whileTrue (fun k => M.look (hasItem v k))
          (fun k => do
            let w ← M.look (itemOf v k items.span)
            M.act (.item outer item.text w) (bindName outer item.text w)
            M.within (·.addBlock outer) fun inner =>
              inOrder (exec limit fuel inner) body.statements)
          0 fuel
    | .times count body => do
      let n ← M.look (turnCount (← eval limit fuel scope count) count.span)
      times
        (M.within (·.addLoop scope) fun inner => inOrder (exec limit fuel inner) body.statements) n
    | .function d => do
      M.act (.declared scope d) (declare scope d)
      return .normal
    | .return none => return .return .void
    | .return (some e) => return .return (← eval limit fuel scope e)
    | .stop => return .stop
    | .next => return .next

end

/-- Runs statements in the global scope. -/
def topLevel (limit fuel : Nat) : List Stmt → m Unit
  | [] => return
  | s :: ss => do
    M.top s (← M.exec limit fuel ScopeTree.globalId s)
    topLevel limit fuel ss

end Mode

/-- The value of an expression in a scope. -/
def eval (limit : Nat) : Nat → ScopeId → Expr → Run Value := Mode.plain.eval limit

/-- Runs a statement in a scope. -/
def exec (limit : Nat) : Nat → ScopeId → Stmt → Run Signal := Mode.plain.exec limit

/-! ## Programs -/

/-- Runs statements in the global scope, whatever signals they give. -/
def topLevel (limit fuel : Nat) : List Stmt → Run Unit := Mode.plain.topLevel limit fuel

/-- The built-in functions bound in the global scope. -/
def bindBuiltins (scope : ScopeId) : List Builtin → Run Unit
  | [] => return
  | b :: bs => do
    bindName scope b.name (← newFunction b.toFunction)
    bindBuiltins scope bs

/-- The state before a program runs. -/
def State.initial (outside : Outside) : State :=
  let blank : State := ⟨.empty, .empty, 0, "", outside⟩
  match bindBuiltins ScopeTree.globalId Builtin.all blank with
  | .ok _ s | .error _ s => s

/-- How many calls may be under way unless told otherwise. -/
def defaultLimit : Nat := 10000

/-- More fuel than any run can use up. -/
def plentyOfFuel : Nat := Nat.pow 10 18

end Run

/-- Runs a program. -/
def Program.run (p : Program) (limit fuel : Nat) : Run Unit := Run.topLevel limit fuel p.statements

end Quill
