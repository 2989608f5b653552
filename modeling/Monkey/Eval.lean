import Monkey.Builtin.Apply
import Monkey.Eval.Operators

/-!
# `Monkey.Eval`: evaluating programs

Evaluation goes through a tree from left to right. What it comes upon
first, a signal or the end, decides: `unlessSignal` hands a signal on and
goes on with any other value, and every construct that has parts passes
from one to the next by it.

Entering a statement or an expression is a step. A run may have a limit
on its steps; the step that exceeds it gives an error instead of a value,
and errors are never caught.

Only one function recurs without the tree becoming smaller, because a
call goes on in the body of a function: `evalExpr`. It takes the depth to
which evaluations may nest, and gives no result if that is exceeded. All
else is defined from an `Evaluator`, a way to evaluate the expressions
one level further down.

* `evalBlock`, `evalStatement`, `evalEach`, `evalPairs`, `applyValue`,
  `evalNode` are one level of evaluation; `evalExpr` ties the levels.
* `Program.run` evaluates a whole program, `depthFor` is a depth that
  suffices for a run with a limit.
-/

set_option autoImplicit false

namespace Monkey

/-- A way to evaluate an expression in a scope. -/
abbrev Evaluator := ScopeId → Expr → Eval Value

/-! ### Order and interruption -/

/-- Evaluates `x` and goes on with its value, unless it is a signal. -/
def unlessSignal (x : Eval Value) (next : Value → Eval Value) : Eval Value := do
  let v ← x
  if v.isSignal then pure v else next v

/-- Counts a step and goes on, unless the limit is exceeded by it. -/
def counted (limit : Option Nat) (next : Eval Value) : Eval Value := fun σ =>
  let σ := { σ with steps := σ.steps + 1 }
  match limit with
  | none => next σ
  | some n => if n < σ.steps then some (.error (.budgetExceeded n), σ) else next σ

/-! ### One level of evaluation -/

section Level

variable (limit : Option Nat) (eval : Evaluator)

/-- Evaluates a statement. A binding is made in the scope itself. -/
def evalStatement (scope : ScopeId) (s : Statement) : Eval Value :=
  counted limit <|
    match s with
    | .binding name e => unlessSignal (eval scope e) fun v => do
        modify (·.bind scope name v)
        pure .null
    | .returning e => unlessSignal (eval scope e) fun v => pure (.returned v)
    | .expression e => eval scope e

/-- Evaluates statements in order to the value of the last, or to `last` if there is none. -/
def evalBlockFrom (scope : ScopeId) (last : Value) : Block → Eval Value
  | [] => pure last
  | s :: rest => unlessSignal (evalStatement limit eval scope s) fun v => evalBlockFrom scope v rest

/-- Evaluates a block; an empty one is null. -/
def evalBlock (scope : ScopeId) (b : Block) : Eval Value := evalBlockFrom limit eval scope .null b

/-- Evaluates expressions in order to their values, or to the first signal among them. -/
def evalEach (scope : ScopeId) : List Expr → Eval (Except Value (List Value))
  | [] => pure (.ok [])
  | e :: es => do
    let v ← eval scope e
    if v.isSignal then pure (.error v)
    else
      match ← evalEach scope es with
      | .ok vs => pure (.ok (v :: vs))
      | .error signal => pure (.error signal)

/-- Evaluates keys and values in order and files them, up to the first signal among them. A key that
cannot be used is an error before its value is looked at. -/
def evalPairs (scope : ScopeId) (table : Table Value) :
    List (Expr × Expr) → Eval (Except Value (Table Value))
  | [] => pure (.ok table)
  | (keyExpr, valueExpr) :: rest => do
    let key ← eval scope keyExpr
    if key.isSignal then pure (.error key)
    else
      match key.hashKey? with
      | none => pure (.error (.error (.unusableKey key.kind)))
      | some k =>
        let value ← eval scope valueExpr
        if value.isSignal then pure (.error value)
        else evalPairs scope (table.insert k (key, value)) rest

/-- Calls a value with arguments. A function's body is evaluated in a new scope within the one the
function was made in. -/
def applyValue (callee : Value) (args : List Value) : Eval Value :=
  match callee with
  | .function _ f =>
    if f.parameters.length = args.length then do
      let frame ← Eval.newScope (some f.scope)
      modify (·.bindAll frame f.parameters args)
      let v ← evalBlock limit eval frame f.body
      pure v.settle
    else pure (.error (.argumentCount f.parameters.length args.length))
  | .builtin b => b.apply args
  | v => pure (.error (.notAFunction v.kind))

/-- What a name means: what a scope binds it to, or else the native function of that name. -/
def evalIdentifier (scope : ScopeId) (name : String) : Eval Value := do
  match (← get).lookup scope name with
  | some v => pure v
  | none =>
    match Builtin.ofName? name with
    | some b => pure (.builtin b)
    | none => pure (.error (.unknownIdentifier name))

/-- Evaluates an expression, given a way to evaluate what lies one level further down. -/
def evalNode (scope : ScopeId) (e : Expr) : Eval Value :=
  counted limit <|
    match e with
    | .identifier name => evalIdentifier scope name
    | .integer n => pure (.integer n)
    | .boolean b => pure (.boolean b)
    | .string content => pure (.string content)
    | .array elements => do
      match ← evalEach eval scope elements with
      | .ok vs => Eval.newArray vs
      | .error signal => pure signal
    | .hash pairs => do
      match ← evalPairs eval scope .empty pairs with
      | .ok table => Eval.newHash table
      | .error signal => pure signal
    | .unary op operand => unlessSignal (eval scope operand) fun v => pure (op.apply v)
    | .binary op left right =>
      unlessSignal (eval scope left) fun l =>
        unlessSignal (eval scope right) fun r => pure (op.apply l r)
    | .conditional condition consequence alternative =>
      unlessSignal (eval scope condition) fun v =>
        if v.isTruthy then evalBlock limit eval scope consequence
        else
          match alternative with
          | some block => evalBlock limit eval scope block
          | none => pure .null
    | .function parameters body => Eval.newFunction ⟨parameters, body, scope⟩
    | .call callee arguments =>
      unlessSignal (eval scope callee) fun f => do
        match ← evalEach eval scope arguments with
        | .ok args => applyValue limit eval f args
        | .error signal => pure signal
    | .index indexed position =>
      unlessSignal (eval scope indexed) fun v =>
        unlessSignal (eval scope position) fun i => pure (v.index i)

end Level

/-! ### All levels -/

/-- Evaluates an expression whose evaluation nests no deeper than `depth`. -/
def evalExpr (limit : Option Nat) : (depth : Nat) → Evaluator
  | 0 => fun _ _ => failure
  | depth + 1 => evalNode limit (evalExpr limit depth)

/-- A depth that a run with a limit cannot exceed, since every level takes a step. Without a limit
there is none, and `otherwise` is taken. -/
def depthFor (limit : Option Nat) (otherwise : Nat) : Nat :=
  match limit with
  | some n => n + 1
  | none => otherwise

/-- Evaluates a program in a scope. The steps are counted anew, and a value that is returned at the
top is the result. -/
def Program.run (p : Program) (limit : Option Nat) (depth : Nat) (scope : ScopeId) :
    Eval Value := do
  modify fun σ => { σ with steps := 0 }
  let v ← evalBlock limit (evalExpr limit depth) scope p.statements
  pure v.settle

end Monkey
