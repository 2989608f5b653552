import Monkey.Value

/-!
# `Monkey.Store`: the state of an evaluation

A store holds every scope that was ever made, in the order in which they
were made; a scope is known by its number. Next to the scopes it keeps
how many identities have been given out, the text that has been printed,
and how many statements and expressions the current run has entered.

A scope binds names to values and may lie in an outer scope, which is
always an earlier one. A name means what the nearest scope on the way
outward binds it to.

* `Scope.get?`, `Scope.set` read and write one scope; `get?_set` says
  how they go together.
* `Store.lookup` reads a name from a scope outward, `Store.bind` binds it
  in one scope.
* `Store.addScope`, `Store.addIdentity` make a new scope and a new
  identity.
-/

set_option autoImplicit false

namespace Monkey

/-! ### Scopes -/

/-- What a scope binds, and the scope around it. -/
structure Scope where
  bindings : List (String × Value)
  outer : Option ScopeId

namespace Scope

/-- Replaces the value of a name, or adds the name at the end. -/
def setIn (name : String) (v : Value) : List (String × Value) → List (String × Value)
  | [] => [(name, v)]
  | (x, w) :: rest => if x = name then (name, v) :: rest else (x, w) :: setIn name v rest

/-- What the scope itself binds a name to. -/
def get? (s : Scope) (name : String) : Option Value := s.bindings.lookup name

/-- The scope with a name bound anew. -/
def set (s : Scope) (name : String) (v : Value) : Scope :=
  { s with bindings := setIn name v s.bindings }

/-- Of a name bound anew only the new value is seen, and of any other name what was seen before. By
induction on `bs`: `setIn` writes over the first entry of the name, or adds one at the end if there
is none. -/
private theorem lookup_setIn (name x : String) (v : Value) (bs : List (String × Value)) :
    (setIn name v bs).lookup x = if x = name then some v else bs.lookup x := by
  induction bs with
  | nil =>
    by_cases hx : x = name
    · simp [setIn, hx]
    · simp [setIn, hx, List.lookup_cons, beq_eq_false_iff_ne.2 hx]
  | cons b bs ih =>
    obtain ⟨y, w⟩ := b
    -- The binding in front is the one that is set, or the set goes on behind it.
    by_cases hy : y = name
    · subst hy
      by_cases hx : x = y
      · simp [setIn, hx]
      · simp [setIn, hx, List.lookup_cons, beq_eq_false_iff_ne.2 hx]
    · by_cases hx : x = y
      · subst hx
        simp [setIn, hy]
      · simp [setIn, hy, List.lookup_cons, beq_eq_false_iff_ne.2 hx, ih]

/-- Binding a name changes what the scope says of that name alone. The `Scope` form of
`lookup_setIn` and the only fact about `Scope.set` that proofs about bindings use. -/
theorem get?_set (s : Scope) (name x : String) (v : Value) :
    (s.set name v).get? x = if x = name then some v else s.get? x :=
  lookup_setIn name x v s.bindings

/-- Binding a name leaves the scope where it lies: `set` touches the bindings and never the link
`outer`. It is why chains of scopes are fixed once a scope exists. -/
@[simp] theorem outer_set (s : Scope) (name : String) (v : Value) :
    (s.set name v).outer = s.outer := rfl

end Scope

/-! ### Stores -/

/-- The state of an evaluation. -/
structure Store where
  scopes : Array Scope
  identities : Nat
  printed : String
  steps : Nat

namespace Store

/-- The state before anything has happened. -/
def empty : Store := ⟨#[], 0, "", 0⟩

/-- What a name means in a scope. An outer scope is looked at only if it is an earlier one, as
every outer scope is. -/
def lookup (σ : Store) (scope : ScopeId) (name : String) : Option Value :=
  match σ.scopes[scope]? with
  | none => none
  | some s =>
    match s.get? name with
    | some v => some v
    | none =>
      match s.outer with
      | none => none
      | some outer => if outer < scope then σ.lookup outer name else none
termination_by scope

/-- Binds a name in a scope. -/
def bind (σ : Store) (scope : ScopeId) (name : String) (v : Value) : Store :=
  { σ with scopes := σ.scopes.modify scope (·.set name v) }

/-- Binds names to values in order, as far as there are both. -/
def bindAll (σ : Store) (scope : ScopeId) : List String → List Value → Store
  | name :: names, v :: vs => (σ.bind scope name v).bindAll scope names vs
  | _, _ => σ

/-- A new scope that binds nothing yet. -/
def addScope (σ : Store) (outer : Option ScopeId) : ScopeId × Store :=
  (σ.scopes.size, { σ with scopes := σ.scopes.push ⟨[], outer⟩ })

/-- An identity that nothing has. -/
def addIdentity (σ : Store) : Identity × Store :=
  (σ.identities, { σ with identities := σ.identities + 1 })

/-- Adds to the printed text. -/
def print (σ : Store) (text : String) : Store := { σ with printed := σ.printed ++ text }

end Store

end Monkey
