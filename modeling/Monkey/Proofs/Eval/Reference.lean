import Monkey.Eval

/-!
# `Monkey.Proofs.Eval.Reference`: evaluation with exceptions

A second evaluator, for comparison. Here nothing is handed on by hand: an
evaluation ends with a value, or it is interrupted, by a `return` or by a
fault, and an interruption abandons whatever stands behind it. `do` puts
evaluations one after another, from left to right. Only `catchReturn`
catches anything, around the body of a function and around a program, and
it catches no fault.

There are no signals among the values here: a primitive that reports an
error has it thrown by `raise`. Steps are not counted.
-/

set_option autoImplicit false

namespace Monkey

/-- What interrupts an evaluation. -/
inductive Interruption where
  | returned (value : Value)
  | fault (fault : Fault)

/-- An evaluation that may be interrupted. -/
abbrev Flow (α : Type) : Type := ExceptT Interruption Eval α

namespace Reference

/-- A value that a primitive operation gives; an error is thrown. -/
def raise : Value → Flow Value
  | .error f => throw (.fault f)
  | v => pure v

/-- Performs a primitive operation. -/
def perform (x : Eval Value) : Flow Value := do
  let v ← x
  raise v

/-- Gives the value that `x` returns, if it is interrupted by a `return`. -/
def catchReturn (x : Flow Value) : Flow Value :=
  tryCatch x fun interruption =>
    match interruption with
    | .returned v => pure v
    | .fault f => throw (.fault f)

/-- A way to evaluate an expression in a scope. -/
abbrev Evaluator := ScopeId → Expr → Flow Value

section Level

variable (eval : Evaluator)

/-- Evaluates a statement. -/
def evalStatement (scope : ScopeId) : Statement → Flow Value
  | .binding name e => do
    let v ← eval scope e
    modify (·.bind scope name v)
    pure .null
  | .returning e => do
    let v ← eval scope e
    throw (.returned v)
  | .expression e => eval scope e

/-- Evaluates statements in order to the value of the last; no statement at all is null. -/
def evalBlock (scope : ScopeId) (b : Block) : Flow Value :=
  b.foldlM (fun _ s => evalStatement eval scope s) .null

/-- Evaluates a pair of a hash literal and files it. The key is looked at before its value is
evaluated. -/
def evalPair (scope : ScopeId) (table : Table Value) (pair : Expr × Expr) : Flow (Table Value) := do
  let key ← eval scope pair.1
  match key.hashKey? with
  | none => throw (.fault (.unusableKey key.kind))
  | some k => do
    let value ← eval scope pair.2
    pure (table.insert k (key, value))

/-- Evaluates the body of a function in a new scope. -/
def callFunction (f : Closure) (args : List Value) : Flow Value := do
  let frame ← Eval.newScope (some f.scope)
  modify (·.bindAll frame f.parameters args)
  catchReturn (evalBlock eval frame f.body)

/-- Calls a value with arguments. -/
def applyValue (callee : Value) (args : List Value) : Flow Value :=
  match callee with
  | .function _ f =>
    if f.parameters.length = args.length then callFunction eval f args
    else throw (.fault (.argumentCount f.parameters.length args.length))
  | .builtin b => perform (b.apply args)
  | v => throw (.fault (.notAFunction v.kind))

/-- Evaluates an expression, given a way to evaluate what lies one level further down. -/
def evalNode (scope : ScopeId) : Expr → Flow Value
  | .identifier name => perform (evalIdentifier scope name)
  | .integer n => pure (.integer n)
  | .boolean b => pure (.boolean b)
  | .string content => pure (.string content)
  | .array elements => do
    let vs ← elements.mapM (eval scope)
    perform (Eval.newArray vs)
  | .hash pairs => do
    let table ← pairs.foldlM (evalPair eval scope) .empty
    perform (Eval.newHash table)
  | .unary op operand => do
    let v ← eval scope operand
    raise (op.apply v)
  | .binary op left right => do
    let l ← eval scope left
    let r ← eval scope right
    raise (op.apply l r)
  | .conditional condition consequence alternative => do
    let v ← eval scope condition
    if v.isTruthy then evalBlock eval scope consequence
    else
      match alternative with
      | some block => evalBlock eval scope block
      | none => pure .null
  | .function parameters body => perform (Eval.newFunction ⟨parameters, body, scope⟩)
  | .call callee arguments => do
    let f ← eval scope callee
    let args ← arguments.mapM (eval scope)
    applyValue eval f args
  | .index indexed position => do
    let v ← eval scope indexed
    let i ← eval scope position
    raise (v.index i)

end Level

/-- Evaluates an expression whose evaluation nests no deeper than `depth`. -/
def evalExpr : (depth : Nat) → Evaluator
  | 0 => fun _ _ => ExceptT.lift failure
  | depth + 1 => evalNode (evalExpr depth)

/-- Evaluates a program in a scope. -/
def run (p : Program) (depth : Nat) (scope : ScopeId) : Flow Value :=
  catchReturn (evalBlock (evalExpr depth) scope p.statements)

end Reference

end Monkey
