import Monkey.Eval
import Monkey.Proofs.Eval.Frame

/-!
# `Monkey.Proofs.Eval.Watch`: evaluation that reports what it passes through

A third evaluator, which does what the first does and says on the way what
there is to be seen: the store before and after every statement and every
expression and whenever a parameter is bound, the result of each, and the
arguments of every call. An evaluation that does not end has been seen as
well, as far as it went.

* `Sighting` is what can be seen, `Report` what has been seen of an
  evaluation and how it has ended.
* `Watched.observed` and `Watched.announcing` are where something is seen;
  the other parts go on with what their own parts have reported.
* `Program.watched` is a run of a program.
* `Watched.Gathers` is how a loop goes, over the elements of a list or the
  pairs of a hash literal, whatever is done with what it gathers.
-/

set_option autoImplicit false

namespace Monkey

/-- What can be seen of an evaluation while it goes on. -/
inductive Sighting where
  | state (σ : Store)
  /-- What a value is called with. -/
  | arguments (args : List Value)
  /-- What a statement or an expression has ended with. -/
  | result (v : Value)

/-- What has been seen of an evaluation, in order, and how it has ended, if it has. -/
structure Report where
  seen : List Sighting
  outcome : Option (Value × Store)

namespace Report

/-- Nothing has been seen but the end. -/
def ended (v : Value) (τ : Store) : Report := ⟨[], some (v, τ)⟩

/-- Something has been seen before. -/
def after (earlier : List Sighting) (r : Report) : Report := ⟨earlier ++ r.seen, r.outcome⟩

/-- Goes on from the end, if there is one. -/
def andThen (r : Report) (next : Value → Store → Report) : Report :=
  match r.outcome with
  | none => r
  | some (v, τ) => (next v τ).after r.seen

end Report

/-- Every store on the way of binding names to values in order. -/
def Store.whileBinding (σ : Store) (scope : ScopeId) : List String → List Value → List Store
  | name :: names, v :: vs =>
    σ.bind scope name v :: (σ.bind scope name v).whileBinding scope names vs
  | _, _ => []

/-- An evaluation that is watched. -/
abbrev Watched := Store → Report

namespace Watched

/-! ### Parts -/

/-- An evaluation of which nothing is seen but the end. -/
def unseen (x : Eval Value) : Watched := fun σ => ⟨[], x σ⟩

/-- The store is seen before and after, and so is the result. -/
def observed (x : Watched) : Watched := fun σ =>
  ((x σ).andThen fun v τ => (Report.ended v τ).after [.result v, .state τ]).after [.state σ]

/-- Arguments are seen before they are passed. -/
def announcing (args : List Value) (x : Watched) : Watched := fun σ =>
  (x σ).after [.arguments args]

/-- What was seen of `x` stays seen, whether a signal ends the evaluation there or `next` goes on
from its value. -/
def unlessSignal (x : Watched) (next : Value → Watched) : Watched := fun σ =>
  (x σ).andThen fun v τ => if v.isSignal then .ended v τ else next v τ

/-- A step is counted before anything is seen of `next`; a step beyond the limit ends with an error
of which nothing is seen. -/
def counted (limit : Option Nat) (next : Watched) : Watched := fun σ =>
  let σ := { σ with steps := σ.steps + 1 }
  match limit with
  | none => next σ
  | some n => if n < σ.steps then .ended (.error (.budgetExceeded n)) σ else next σ

/-- The scope of a call is seen when it is made, and with each parameter that is bound. -/
def inScope (outer : ScopeId) (names : List String) (args : List Value)
    (body : ScopeId → Watched) : Watched := fun σ =>
  let frame := σ.scopes.size
  let entered := (σ.addScope (some outer)).2
  ((body frame (entered.bindAll frame names args)).andThen fun v τ => .ended v.settle τ).after
    (.state entered :: (entered.whileBinding frame names args).map .state)

/-- A way to evaluate an expression in a scope and watch it. -/
abbrev Evaluator := ScopeId → Expr → Watched

/-! ### One level of evaluation -/

section Level

variable (limit : Option Nat) (eval : Evaluator)

/-- Evaluates one statement, which is observed as an expression is: the store before it, its result,
and the store after it. -/
def evalStatement (scope : ScopeId) (s : Statement) : Watched :=
  observed <| counted limit <|
    match s with
    | .binding name e => unlessSignal (eval scope e) fun v =>
        unseen do
          modify (·.bind scope name v)
          pure .null
    | .returning e => unlessSignal (eval scope e) fun v => unseen (pure (.returned v))
    | .expression e => eval scope e

/-- Evaluates the statements that are left of a block, where `last` is the value of the one before
them. -/
def evalBlockFrom (scope : ScopeId) (last : Value) : Block → Watched
  | [] => unseen (pure last)
  | s :: rest => unlessSignal (evalStatement limit eval scope s) fun v => evalBlockFrom scope v rest

/-- Evaluates a block in a scope. It is not observed by itself, since its statements are. -/
def evalBlock (scope : ScopeId) (b : Block) : Watched := evalBlockFrom limit eval scope .null b

/-- Evaluates expressions in order and goes on with their values. -/
def evalEach (scope : ScopeId) : List Expr → (List Value → Watched) → Watched
  | [], next => next []
  | e :: es, next => unlessSignal (eval scope e) fun v => evalEach scope es fun vs => next (v :: vs)

/-- Evaluates keys and values in order, files them and goes on with the table. -/
def evalPairs (scope : ScopeId) (table : Table Value) :
    List (Expr × Expr) → (Table Value → Watched) → Watched
  | [], next => next table
  | (keyExpr, valueExpr) :: rest, next =>
    unlessSignal (eval scope keyExpr) fun key =>
      match key.hashKey? with
      | none => unseen (pure (.error (.unusableKey key.kind)))
      | some k => unlessSignal (eval scope valueExpr) fun value =>
          evalPairs scope (table.insert k (key, value)) rest next

/-- Calls a value, and its arguments are seen first, whether it can be called or not. -/
def applyValue (callee : Value) (args : List Value) : Watched :=
  announcing args <|
    match callee with
    | .function _ f =>
      if f.parameters.length = args.length then
        inScope f.scope f.parameters args fun frame => evalBlock limit eval frame f.body
      else unseen (pure (.error (.argumentCount f.parameters.length args.length)))
    | .builtin b => unseen (b.apply args)
    | v => unseen (pure (.error (.notAFunction v.kind)))

/-- Evaluates one node of a tree, given how its parts are evaluated. It goes as `Monkey.evalNode`
does, and is observed. -/
def evalNode (scope : ScopeId) (e : Expr) : Watched :=
  observed <| counted limit <|
    match e with
    | .identifier name => unseen (evalIdentifier scope name)
    | .integer n => unseen (pure (.integer n))
    | .boolean b => unseen (pure (.boolean b))
    | .string content => unseen (pure (.string content))
    | .array elements => evalEach eval scope elements fun vs => unseen (Eval.newArray vs)
    | .hash pairs => evalPairs eval scope .empty pairs fun table => unseen (Eval.newHash table)
    | .unary op operand => unlessSignal (eval scope operand) fun v => unseen (pure (op.apply v))
    | .binary op left right =>
      unlessSignal (eval scope left) fun l =>
        unlessSignal (eval scope right) fun r => unseen (pure (op.apply l r))
    | .conditional condition consequence alternative =>
      unlessSignal (eval scope condition) fun v =>
        if v.isTruthy then evalBlock limit eval scope consequence
        else
          match alternative with
          | some block => evalBlock limit eval scope block
          | none => unseen (pure .null)
    | .function parameters body => unseen (Eval.newFunction ⟨parameters, body, scope⟩)
    | .call callee arguments =>
      unlessSignal (eval scope callee) fun f =>
        evalEach eval scope arguments fun args => applyValue limit eval f args
    | .index indexed position =>
      unlessSignal (eval scope indexed) fun v =>
        unlessSignal (eval scope position) fun i => unseen (pure (v.index i))

end Level

/-- Evaluates an expression whose evaluation nests no deeper than `depth`. -/
def evalExpr (limit : Option Nat) : (depth : Nat) → Evaluator
  | 0 => fun _ _ => unseen failure
  | depth + 1 => evalNode limit (evalExpr limit depth)

end Watched

/-- Evaluates a program in a scope. -/
def Program.watched (p : Program) (limit : Option Nat) (depth : Nat) (scope : ScopeId) : Watched :=
  fun σ =>
    (Watched.evalBlock limit (Watched.evalExpr limit depth) scope p.statements
      { σ with steps := 0 }).andThen fun v τ => .ended v.settle τ

/-! ### How evaluations go -/

namespace Watched

/-- Being observed has no influence on the end: `observed` adds sightings before and behind, and
hands value and store on. -/
theorem outcome_observed (x : Watched) (σ : Store) :
    (observed x σ).outcome = (x σ).outcome := by
  show ((x σ).andThen _).outcome = _
  unfold Report.andThen
  split
  · rfl
  · rename_i h
    exact h.symm

/-- What has ended has been seen from the store before it to its result and the store after it, with
everything that was seen of `x` in between. -/
theorem seen_observed {x : Watched} {σ τ : Store} {v : Value}
    (h : (x σ).outcome = some (v, τ)) :
    (observed x σ).seen = (.state σ :: (x σ).seen) ++ [.result v, .state τ] := by
  show [.state σ] ++ ((x σ).andThen _).seen = _
  unfold Report.andThen
  split
  · rename_i hnone
    rw [h] at hnone
    cases hnone
  · rename_i hsome
    rw [h] at hsome
    cases hsome
    rfl

/-- A step that ends with another value than a signal was within the limit, so it is `x` in the
store after `tick`: beyond the limit there would be an error. -/
theorem counted_of_value {limit : Option Nat} {x : Watched} {σ τ : Store} {v : Value}
    (h : (counted limit x σ).outcome = some (v, τ)) (hv : v.isSignal = false) :
    counted limit x σ = x σ.tick := by
  cases limit with
  | none => rfl
  | some n =>
      have hif : counted (some n) x σ =
          if n < σ.steps + 1 then .ended (.error (.budgetExceeded n)) σ.tick else x σ.tick := rfl
      by_cases hlimit : n < σ.steps + 1
      · rw [hif, if_pos hlimit] at h
        cases h
        cases hv
      · rw [hif, if_neg hlimit]

/-- So it has been seen from the store before it to its result and the store after it.
`outcome_observed`, `seen_observed` and `counted_of_value` in one, as `Watched.evalNode` composes
them. -/
theorem observed_counted_of_value {limit : Option Nat} {x : Watched} {σ τ : Store} {v : Value}
    (h : (observed (counted limit x) σ).outcome = some (v, τ)) (hv : v.isSignal = false) :
    (x σ.tick).outcome = some (v, τ) ∧
      (observed (counted limit x) σ).seen =
        (.state σ :: (x σ.tick).seen) ++ [.result v, .state τ] := by
  rw [outcome_observed] at h
  have hcounted := counted_of_value h hv
  rw [seen_observed h, hcounted]
  rw [hcounted] at h
  exact ⟨h, rfl⟩

/-- How a loop goes that gathers something and goes on with it. It is cut short, by a signal or
because it does not end, or it gathers what it gathers; either way that does not depend on what it
would go on to. -/
inductive Gathers {α : Type} (loop : (α → Watched) → Watched) (σ : Store) : Prop where
  | cut (r : Report) (hr : ∀ v τ, r.outcome = some (v, τ) → v.isSignal = true)
      (h : ∀ next, loop next σ = r)
  | gathered (earlier : List Sighting) (a : α) (τ : Store)
      (h : ∀ next, loop next σ = (next a τ).after earlier)

namespace Gathers

variable {α β : Type} {loop : (α → Watched) → Watched} {σ : Store}

/-- What a loop gathers may be rearranged by `f` before it is handed on; that is how the value of
the first expression is put before those of the others. -/
theorem map (f : α → β) (h : Gathers loop σ) :
    Gathers (fun next => loop fun a => next (f a)) σ := by
  cases h with
  | cut r hr h => exact .cut r hr fun next => h _
  | gathered earlier a τ h => exact .gathered earlier (f a) τ fun next => h _

/-- A loop that begins with some sightings and goes on as `loop'` does gathers what `loop'` gathers,
with those sightings `earlier`. -/
theorem after (earlier : List Sighting) {τ : Store} {loop' : (α → Watched) → Watched}
    (h : Gathers loop' τ) (hloop : ∀ next, loop next σ = (loop' next τ).after earlier) :
    Gathers loop σ := by
  cases h with
  | cut r hr h =>
      refine .cut (r.after earlier) hr fun next => ?_
      rw [hloop, h]
  | gathered more a ρ h =>
      refine .gathered (earlier ++ more) a ρ fun next => ?_
      rw [hloop, h]
      show Report.mk _ _ = Report.mk _ _
      rw [List.append_assoc]
      rfl

/-- A value that is handed on takes the loop one round further, and a signal cuts it short. This is
the induction step for both loops of the evaluator. -/
theorem unlessSignal {x : Watched} {loop : Value → (α → Watched) → Watched}
    (h : ∀ v τ, Gathers (loop v) τ) (σ : Store) :
    Gathers (fun next => .unlessSignal x fun v => loop v next) σ := by
  have hunfold (next : α → Watched) : Watched.unlessSignal x (fun v => loop v next) σ =
      (x σ).andThen fun v τ => if v.isSignal then .ended v τ else loop v next τ := rfl
  cases hx : (x σ).outcome with
  | none =>
      refine .cut (x σ) (by simp [hx]) fun next => ?_
      rw [hunfold, Report.andThen, hx]
  | some first =>
      obtain ⟨v, τ⟩ := first
      cases hv : v.isSignal with
      | true =>
          refine .cut ((Report.ended v τ).after (x σ).seen) (fun _ _ heq => ?_) fun next => ?_
          · cases heq
            exact hv
          · rw [hunfold, Report.andThen, hx]
            exact congrArg (Report.after _) (if_pos hv)
      | false =>
          refine (h v τ).after (x σ).seen fun next => ?_
          rw [hunfold, Report.andThen, hx]
          exact congrArg (Report.after _) (if_neg (by simp [hv]))

end Gathers

variable (eval : Evaluator) (scope : ScopeId)

/-- The loop over expressions gathers their values: `Gathers.unlessSignal` at each, with
`Gathers.map` to put the value before the others. -/
theorem gathers_evalEach (es : List Expr) (σ : Store) : Gathers (evalEach eval scope es) σ := by
  induction es generalizing σ with
  | nil => exact .gathered [] [] σ fun _ => rfl
  | cons e es ih => exact .unlessSignal (fun v τ => (ih τ).map (v :: ·)) σ

/-- The loop over the pairs of a hash literal gathers a table. It may also be cut short by a key
that has no slot, which is an error and hence a signal. -/
theorem gathers_evalPairs (ps : List (Expr × Expr)) (table : Table Value) (σ : Store) :
    Gathers (evalPairs eval scope table ps) σ := by
  induction ps generalizing table σ with
  | nil => exact .gathered [] table σ fun _ => rfl
  | cons p ps ih =>
      refine .unlessSignal (fun key τ => ?_) σ
      -- A key that cannot be used is an error, which ends the loop.
      cases key.hashKey? with
      | none =>
          refine .cut ⟨[], some (.error (.unusableKey key.kind), τ)⟩ (fun _ _ heq => ?_) fun _ => ?_
          · cases heq
            rfl
          · rfl
      | some k => exact .unlessSignal (fun value ρ => ih _ ρ) τ

end Watched

end Monkey
