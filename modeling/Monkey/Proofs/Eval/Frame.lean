import Monkey.Store

/-!
# `Monkey.Proofs.Eval.Frame`: what changes of stores leave alone

Counting steps touches nothing but the count, and nothing else looks at
the count. Entering a function's body makes one scope and touches nothing
but the scopes.

* `Store.withSteps` sets the count of steps; `Store.tick` counts one step,
  and `Store.rewind` counts anew.
* `Store.enter` is how a body is entered.
* `Store.scope_of_bind`, `Store.scope_of_addScope` say what the scopes are
  after a change.
* `Store.Binds` says that a scope itself binds a name; `Store.binds_bind`
  and `Store.binds_enter` that it does so after a binding and in a call.
-/

set_option autoImplicit false

namespace Monkey.Store

/-! ### The count of steps -/

/-- The store with another count of steps. -/
def withSteps (σ : Store) (k : Nat) : Store := { σ with steps := k }

/-- The store in which one more step has been counted. -/
def tick (σ : Store) : Store := σ.withSteps (σ.steps + 1)

/-- The store in which no step has been counted. -/
def rewind (σ : Store) : Store := σ.withSteps 0

section

variable (σ : Store)

/-- Counting a step by `tick` counts one, and every evaluation of an expression or statement counts
itself so. -/
@[simp] theorem steps_tick : σ.tick.steps = σ.steps + 1 := rfl

/-- Counting a step by `tick` prints nothing; only `puts` does. -/
@[simp] theorem printed_tick : σ.tick.printed = σ.printed := rfl

/-- A store after `rewind` has counted no step, which is how every program starts. -/
@[simp] theorem steps_rewind : σ.rewind.steps = 0 := rfl

end

/-! ### Bodies of functions -/

/-- The store in which the body of a function is evaluated: a new scope within the outer one binds
the parameters to the arguments. -/
def enter (σ : Store) (outer : ScopeId) (names : List String) (args : List Value) : Store :=
  (σ.addScope (some outer)).2.bindAll σ.scopes.size names args

/-- Binding arguments leaves everything but the scopes alone: steps, printed text and identities are
those of `σ`. -/
theorem bindAll_eq_scopes (σ : Store) (scope : ScopeId) (names : List String)
    (args : List Value) :
    σ.bindAll scope names args = { σ with scopes := (σ.bindAll scope names args).scopes } := by
  fun_induction Store.bindAll σ scope names args with
  | case1 σ name names v vs ih => exact ih
  | case2 => rfl

/-- Binding arguments does not look at the count of steps, so `bindAll` and `withSteps` may change
places. -/
theorem bindAll_withSteps (σ : Store) (k : Nat) (scope : ScopeId) (names : List String)
    (args : List Value) :
    (σ.withSteps k).bindAll scope names args = (σ.bindAll scope names args).withSteps k := by
  fun_induction Store.bindAll σ scope names args with
  | case1 σ name names v vs ih => exact ih
  | case2 σ names vs h =>
      rw [bindAll]
      exact h

section

variable (σ : Store) (outer : ScopeId) (names : List String) (args : List Value)

/-- Entering a call counts no step, for `enter` makes a scope and binds names in it, and nothing
else. -/
@[simp] theorem steps_enter : (σ.enter outer names args).steps = σ.steps := by
  rw [enter, bindAll_eq_scopes]
  rfl

/-- Entering a call prints nothing, as `enter` changes only the scopes. -/
@[simp] theorem printed_enter : (σ.enter outer names args).printed = σ.printed := by
  rw [enter, bindAll_eq_scopes]
  rfl

/-- Entering a call does not look at the count of steps, as `bindAll_withSteps` says of its
arguments. -/
theorem enter_withSteps (k : Nat) :
    (σ.withSteps k).enter outer names args = (σ.enter outer names args).withSteps k :=
  bindAll_withSteps (σ.addScope (some outer)).2 k σ.scopes.size names args

end

/-! ### Scopes -/

/-- Where a name has been bound, every scope lies where it lay, and binds to what it bound all but
that name in that scope. All that `bind` can do to a store, for proofs that go over its scopes. -/
theorem scope_of_bind {σ : Store} {scope t : ScopeId} {name : String} {v : Value} {s : Scope}
    (h : (σ.bind scope name v).scopes[t]? = some s) :
    ∃ old, σ.scopes[t]? = some old ∧ s.outer = old.outer ∧
      ∀ x, s.get? x = if t = scope ∧ x = name then some v else old.get? x := by
  rw [bind, Array.getElem?_modify] at h
  split at h
  · rename_i ht
    rw [Option.map_eq_some_iff] at h
    obtain ⟨old, hold, rfl⟩ := h
    refine ⟨old, hold, rfl, fun x => ?_⟩
    rw [Scope.get?_set]
    simp [ht]
  · rename_i ht
    exact ⟨s, h, rfl, fun x => (if_neg fun hx => ht hx.1.symm).symm⟩

/-- Where a scope has been made, it is that one, empty, or it was there before. All that `addScope`
can do to a store. -/
theorem scope_of_addScope {σ : Store} {outer : Option ScopeId} {t : ScopeId} {s : Scope}
    (h : (σ.addScope outer).2.scopes[t]? = some s) :
    t = σ.scopes.size ∧ s = ⟨[], outer⟩ ∨ σ.scopes[t]? = some s := by
  have hpush : (σ.scopes.push ⟨[], outer⟩)[t]? = some s := h
  rw [Array.getElem?_push] at hpush
  split at hpush
  · rename_i ht
    exact .inl ⟨ht, (Option.some.inj hpush).symm⟩
  · exact .inr hpush

/-! ### Names -/

/-- What a name means in a scope hangs on nothing but what this scope and the earlier ones bind it
to, and on where they lie. By strong induction on the scope, since `lookup` goes outward to earlier
ones. -/
theorem lookup_congr {σ τ : Store} {name : String} {scope : ScopeId}
    (h : ∀ t ≤ scope, (τ.scopes[t]?).map (fun s => (s.outer, s.get? name)) =
      (σ.scopes[t]?).map fun s => (s.outer, s.get? name)) :
    τ.lookup scope name = σ.lookup scope name := by
  induction scope using Nat.strongRecOn with
  | ind scope ih =>
      have hscope := h scope (Nat.le_refl scope)
      rw [lookup, lookup]
      cases hσ : σ.scopes[scope]? with
      | none =>
          rw [hσ, Option.map_none, Option.map_eq_none_iff] at hscope
          rw [hscope]
      | some s =>
          rw [hσ, Option.map_some, Option.map_eq_some_iff] at hscope
          obtain ⟨s', hτ, heq⟩ := hscope
          obtain ⟨houter, hget⟩ := Prod.mk.inj heq
          rw [hτ]
          dsimp only
          rw [hget, houter]
          cases s.get? name with
          | some v => rfl
          | none =>
              cases s.outer with
              | none => rfl
              | some outer =>
                  dsimp only
                  split
                  · -- Scopes outward are earlier ones.
                    rename_i hlt
                    exact ih outer hlt fun t ht => h t (Nat.le_trans ht (Nat.le_of_lt hlt))
                  · rfl

/-- Looking up a name does not look at the count of steps, so `withSteps` can be taken out of
`lookup`. -/
theorem lookup_withSteps (σ : Store) (k : Nat) (scope : ScopeId) (name : String) :
    (σ.withSteps k).lookup scope name = σ.lookup scope name :=
  lookup_congr fun _ _ => rfl

/-! ### What a scope itself binds -/

/-- The scope itself binds the name to the value. -/
def Binds (σ : Store) (scope : ScopeId) (name : String) (v : Value) : Prop :=
  ∃ s, σ.scopes[scope]? = some s ∧ s.get? name = some v

section

variable {σ : Store} {scope : ScopeId} {name x : String} {v w : Value}

/-- What a scope itself binds a name to is what the name means there: `lookup` looks outward only
for other names. -/
theorem Binds.lookup_eq (h : σ.Binds scope name v) : σ.lookup scope name = some v := by
  obtain ⟨s, hs, hget⟩ := h
  rw [lookup, hs]
  dsimp only
  rw [hget]

/-- A name that has just been bound is bound, if there is such a scope; elsewhere `bind` does
nothing. -/
theorem binds_bind (h : scope < σ.scopes.size) (name : String) (v : Value) :
    (σ.bind scope name v).Binds scope name v := by
  refine ⟨σ.scopes[scope].set name v, ?_, ?_⟩
  · rw [bind, Array.getElem?_modify, if_pos rfl, Array.getElem?_eq_getElem h]
    rfl
  · rw [Scope.get?_set, if_pos rfl]

/-- Binding another name leaves a name bound to what it was, by `Scope.get?_set` for the one scope
that changes. -/
theorem Binds.bind_of_ne (h : σ.Binds scope x v) (hne : x ≠ name) (w : Value) :
    (σ.bind scope name w).Binds scope x v := by
  obtain ⟨s, hs, hget⟩ := h
  refine ⟨s.set name w, ?_, ?_⟩
  · rw [bind, Array.getElem?_modify, if_pos rfl, hs]
    rfl
  · rw [Scope.get?_set, if_neg hne, hget]

/-- Binding other names leaves a name bound to what it was. By induction on the two lists, a name at
a time by `Binds.bind_of_ne`. -/
theorem Binds.bindAll_of_not_mem {names : List String} (h : σ.Binds scope x v)
    (hx : x ∉ names) (args : List Value) : (σ.bindAll scope names args).Binds scope x v := by
  fun_induction Store.bindAll σ scope names args with
  | case1 σ name names w ws ih =>
      rw [List.mem_cons, not_or] at hx
      exact ih (h.bind_of_ne hx.1 w) hx.2
  | case2 => exact h

/-- Where names are bound in order, a name is bound to the value at its last place. By induction
along `bindAll`; later bindings are of other names by `hlast`. -/
theorem binds_bindAll {names : List String} {args : List Value} {n : Nat}
    (h : scope < σ.scopes.size) (hname : names[n]? = some x) (harg : args[n]? = some v)
    (hlast : x ∉ names.drop (n + 1)) : (σ.bindAll scope names args).Binds scope x v := by
  fun_induction Store.bindAll σ scope names args generalizing n with
  -- At place 0 the name is bound right now; at a later one the induction finds it.
  | case1 σ name names w ws ih =>
      cases n with
      | zero =>
          cases hname
          cases harg
          exact (binds_bind h x v).bindAll_of_not_mem hlast ws
      | succ n =>
          have hsize : scope < (σ.bind scope name w).scopes.size := by
            rw [bind, Array.size_modify]
            exact h
          exact ih hsize hname harg hlast
  | case2 names σ args hstop =>
      -- One of the lists is empty, so that nothing stands at any place of it.
      cases names with
      | nil => cases hname
      | cons name names =>
          cases args with
          | nil => cases harg
          | cons w ws => exact (hstop name names w ws rfl rfl).elim

/-- In the scope of a call a parameter is bound to the argument at its last place, should its name
occur twice among the parameters, which is what `names.drop` is about. -/
theorem binds_enter {names : List String} {args : List Value} {n : Nat} (σ : Store)
    (outer : ScopeId) (hname : names[n]? = some x) (harg : args[n]? = some v)
    (hlast : x ∉ names.drop (n + 1)) : (σ.enter outer names args).Binds σ.scopes.size x v := by
  refine binds_bindAll ?_ hname harg hlast
  show σ.scopes.size < (σ.scopes.push _).size
  rw [Array.size_push]
  exact Nat.lt_succ_self _

end

end Monkey.Store
