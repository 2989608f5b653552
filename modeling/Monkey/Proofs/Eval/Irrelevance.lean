import Monkey.Proofs.Eval.Likeness

/-!
# `Monkey.Proofs.Eval.Irrelevance`: a name that nobody uses

A program cannot tell whether a name is bound that stands neither in it nor
in any function that it can get hold of. It can get hold of what is bound in
the scopes that it sees: the one it is run in, those around it, and those in
which functions were made that are bound in scopes that it sees.

* `Store.Sees`, `Store.Reaches` are the scopes and the functions that can be
  got hold of from a scope.
* `Store.Augments` says that a store is another one with one name bound
  besides.
* `Likeness.augmenting` says that such stores are alike to programs without
  the name.
* `Program.run_bind_unrelated` says what that comes to for runs.
-/

set_option autoImplicit false

namespace Monkey

namespace Store

/-! ### What can be got hold of -/

/-- The scopes that can be seen from a scope: itself, the scopes around those that can be seen, and
the scopes in which the functions that are bound there, at any depth, were made. -/
inductive Sees (σ : Store) (scope : ScopeId) : ScopeId → Prop where
  | here : σ.Sees scope scope
  | outward {t outer : ScopeId} {s : Scope} (h : σ.Sees scope t) (hs : σ.scopes[t]? = some s)
      (houter : s.outer = some outer) : σ.Sees scope outer
  | made {t : ScopeId} {s : Scope} {x : String} {v : Value} {i : Identity} {f : Closure}
      (h : σ.Sees scope t) (hs : σ.scopes[t]? = some s) (hv : s.get? x = some v)
      (hf : (Value.function i f).PartOf v) : σ.Sees scope f.scope

/-- The function stands in a binding, at any depth, of a scope that can be seen. -/
def Reaches (σ : Store) (scope : ScopeId) (f : Closure) : Prop :=
  ∃ t s x v i, σ.Sees scope t ∧ σ.scopes[t]? = some s ∧ s.get? x = some v ∧
    (Value.function i f).PartOf v

/-! ### One binding more -/

/-- The store `τ` is `σ` with `z` bound to `u` in the scope `root` besides. The order in which the
names of a scope were bound does not matter. -/
structure Augments (σ : Store) (root : ScopeId) (z : String) (u : Value) (τ : Store) : Prop where
  steps : τ.steps = σ.steps
  printed : τ.printed = σ.printed
  identities : τ.identities = σ.identities
  size : τ.scopes.size = σ.scopes.size
  scopes : ∀ (t : ScopeId) (s : Scope), σ.scopes[t]? = some s →
    ∃ s', τ.scopes[t]? = some s' ∧ s'.outer = s.outer ∧
      ∀ x, s'.get? x = if t = root ∧ x = z then some u else s.get? x

namespace Augments

variable {root : ScopeId} {z : String} {u : Value} {σ τ : Store}

/-- The store after `bind` is the one before it with that binding besides. `Scope.get?_set` says
what each name then means in `root`, and the other scopes are untouched. -/
theorem of_bind (σ : Store) (root : ScopeId) (z : String) (u : Value) :
    σ.Augments root z u (σ.bind root z u) where
  steps := rfl
  printed := rfl
  identities := rfl
  size := Array.size_modify
  scopes t s hs := by
    by_cases ht : root = t
    -- The scope in which the name is bound, and below any other.
    · refine ⟨s.set z u, ?_, rfl, fun x => ?_⟩
      · rw [bind, Array.getElem?_modify, if_pos ht, hs]
        rfl
      · rw [Scope.get?_set]
        simp [ht]
    · refine ⟨s, ?_, rfl, fun x => ?_⟩
      · rw [bind, Array.getElem?_modify, if_neg ht]
        exact hs
      · rw [if_neg fun h => ht h.1.symm]

/-- A binding of another name `x` can be made in both stores. Three scopes are compared, by
`scope_of_bind` and `of_bind`; that `x` is not `z` makes the order of the two bindings irrelevant.
-/
theorem bind (h : σ.Augments root z u τ) (scope : ScopeId) {x : String} (hx : x ≠ z) (v : Value) :
    (σ.bind scope x v).Augments root z u (τ.bind scope x v) where
  steps := h.steps
  printed := h.printed
  identities := h.identities
  size := by rw [Store.bind, Store.bind, Array.size_modify, Array.size_modify, h.size]
  scopes t s hs := by
    obtain ⟨old, hold, houter, hget⟩ := scope_of_bind hs
    obtain ⟨old', hold', houter', hget'⟩ := h.scopes t old hold
    obtain ⟨s', hs', houter'', hget''⟩ := (of_bind τ scope x v).scopes t old' hold'
    refine ⟨s', hs', houter''.trans (houter'.trans houter.symm), fun y => ?_⟩
    rw [hget'', hget', hget]
    -- What is bound anew is not `z`, so that it does not matter which is asked first.
    by_cases hnew : t = scope ∧ y = x
    · rw [if_pos hnew, if_pos hnew, if_neg fun hz => hx (hnew.2.symm.trans hz.2)]
    · rw [if_neg hnew, if_neg hnew]

/-- A scope can be made in both stores, since they have equally many and the new one has the same id
in both. That `root` exists keeps the new scope apart from it. -/
theorem addScope (h : σ.Augments root z u τ) (hroot : root < σ.scopes.size)
    (outer : Option ScopeId) : (σ.addScope outer).2.Augments root z u (τ.addScope outer).2 where
  steps := h.steps
  printed := h.printed
  identities := h.identities
  size := by
    show (τ.scopes.push _).size = (σ.scopes.push _).size
    rw [Array.size_push, Array.size_push, h.size]
  scopes t s hs := by
    have hs : (σ.scopes.push ⟨[], outer⟩)[t]? = some s := hs
    show ∃ s', (τ.scopes.push ⟨[], outer⟩)[t]? = some s' ∧ _
    rw [Array.getElem?_push] at hs ⊢
    rw [h.size]
    split
    · -- The new scope is not `root`, which was there before.
      rename_i ht
      rw [if_pos ht] at hs
      cases hs
      refine ⟨⟨[], outer⟩, rfl, rfl, fun x => ?_⟩
      rw [if_neg fun h => Nat.ne_of_lt hroot (h.1.symm.trans ht)]
    · rename_i ht
      rw [if_neg ht] at hs
      exact h.scopes t s hs

/-- Every name but `z` means in `τ` what it means in `σ`. The walk of `lookup` takes the same links
in both stores and finds the same bindings of `x`, so `lookup_congr` applies. -/
theorem lookup_eq (h : σ.Augments root z u τ) {x : String} (hx : x ≠ z) (scope : ScopeId) :
    τ.lookup scope x = σ.lookup scope x := by
  refine lookup_congr fun t _ => ?_
  cases hs : σ.scopes[t]? with
  | none =>
      rw [Array.getElem?_eq_none_iff, ← h.size, ← Array.getElem?_eq_none_iff] at hs
      rw [hs]
  | some s =>
      obtain ⟨s', hs', houter, hget⟩ := h.scopes t s hs
      rw [hs', Option.map_some, Option.map_some, houter, hget, if_neg fun h => hx h.2]

end Augments

end Store

/-! ### What keeps out of the way -/

/-- The functions in the value, at any depth, were made in some of the given scopes, and `z` does
not stand in them. -/
def Value.Avoids (z : String) (within : ScopeId → Prop) (v : Value) : Prop :=
  v.Functions fun f => within f.scope ∧ z ∉ f.names

namespace Store

/-- Nothing but the given scopes can be seen from them, and no function that is bound there has `z`
in it. -/
structure Encloses (z : String) (within : ScopeId → Prop) (σ : Store) : Prop where
  outer : ∀ (t : ScopeId) (s : Scope), within t → σ.scopes[t]? = some s →
    ∀ o, s.outer = some o → within o
  bindings : ∀ (t : ScopeId) (s : Scope), within t → σ.scopes[t]? = some s →
    ∀ x v, s.get? x = some v → v.Avoids z within

namespace Encloses

variable {z : String} {within : ScopeId → Prop} {σ : Store}

/-- The scopes that can be seen from a scope enclose themselves, when no function that `Reaches`
finds there has `z` in it. The constructors `outward` and `made` are the two fields. -/
theorem of_sees {scope : ScopeId} (h : ∀ f, σ.Reaches scope f → z ∉ f.names) :
    σ.Encloses z (σ.Sees scope) where
  outer _ _ ht hs _ ho := .outward ht hs ho
  bindings t s ht hs x v hv i f hf := ⟨.made ht hs hv hf, h f ⟨t, s, x, v, i, ht, hs, hv, hf⟩⟩

/-- What a name means in an enclosed scope avoids `z`. The scope in which `lookup` finds it is
enclosed as well, by the field `outer` at every link. -/
theorem avoids_of_lookup (h : σ.Encloses z within) {scope : ScopeId} (hscope : within scope)
    {x : String} {v : Value} (hv : σ.lookup scope x = some v) : v.Avoids z within := by
  fun_induction Store.lookup σ scope x with
  | case1 => cases hv
  | case2 scope s hs w hw =>
      cases hv
      exact h.bindings scope s hscope hs x v hw
  | case3 => cases hv
  | case4 scope s hs hnone outer houter hlt ih =>
      exact ih (h.outer scope s hscope hs outer houter) hv
  | case5 => cases hv

/-- Binding a value that avoids `z` keeps the scopes enclosed, whatever scope it is bound in. The
links stay, and a binding is the new one or was there. -/
theorem bind (h : σ.Encloses z within) (scope : ScopeId) (x : String) {v : Value}
    (hv : v.Avoids z within) : (σ.bind scope x v).Encloses z within where
  outer t s ht hs o ho := by
    obtain ⟨old, hold, houter, -⟩ := scope_of_bind hs
    exact h.outer t old ht hold o (houter ▸ ho)
  bindings t s ht hs y w hw := by
    obtain ⟨old, hold, -, hget⟩ := scope_of_bind hs
    rw [hget] at hw
    split at hw
    · cases hw
      exact hv
    · exact h.bindings t old ht hold y w hw

/-- A scope that is made inside an enclosed scope is enclosed from then on, and nothing else is. The
new scope binds nothing, and its link leads to `outer`. -/
theorem addScope (h : σ.Encloses z within) {outer : ScopeId} (houter : within outer) :
    (σ.addScope (some outer)).2.Encloses z fun t => within t ∨ t = σ.scopes.size where
  outer t s ht hs o ho := by
    rcases scope_of_addScope hs with ⟨-, rfl⟩ | hold
    · cases ho
      exact .inl houter
    · have hlt : t < σ.scopes.size := (Array.getElem?_eq_some_iff.1 hold).1
      exact .inl (h.outer t s (ht.resolve_right (Nat.ne_of_lt hlt)) hold o ho)
  bindings t s ht hs x v hv := by
    rcases scope_of_addScope hs with ⟨-, rfl⟩ | hold
    · -- The new scope binds nothing.
      cases hv
    · have hlt : t < σ.scopes.size := (Array.getElem?_eq_some_iff.1 hold).1
      refine (h.bindings t s (ht.resolve_right (Nat.ne_of_lt hlt)) hold x v hv).mono ?_
      exact fun f hf => hf.imp_left .inl

end Encloses

end Store

/-! ### Evaluation -/

/-- A store with one name bound besides is like the store without, to programs without the name. -/
def Likeness.augmenting (root : ScopeId) (z : String) (u : Value) :
    Likeness (· ≠ z) (ScopeId → Prop) where
  later w w' := ∀ t, w t → w' t
  value w v := v.Avoids z w
  scope w s := w s
  stores w σ τ := σ.Augments root z u τ ∧ σ.Encloses z w ∧ root < σ.scopes.size
  refl _ _ ht := ht
  trans hw hw' t ht := hw' t (hw t ht)
  value_later hw hv := hv.mono fun f hf => hf.imp_left (hw f.scope)
  scope_later hw hs := hw _ hs
  downward w := Value.Functions.downwardClosed _
  closure h := by
    obtain ⟨hscope, hnames⟩ := h _ _ .whole
    exact ⟨hscope, fun x hx => ne_of_mem_of_not_mem hx hnames⟩
  steps h := h.1.steps.symm
  withSteps k h := ⟨{ h.1 with steps := rfl }, ⟨h.2.1.outer, h.2.1.bindings⟩, h.2.2⟩
  print text h :=
    ⟨{ h.1 with printed := congrArg (· ++ text) h.1.printed }, ⟨h.2.1.outer, h.2.1.bindings⟩, h.2.2⟩
  lookup h hs hx := ⟨(h.1.lookup_eq hx _).symm, fun _ hv => h.2.1.avoids_of_lookup hs hv⟩
  bind {w σ τ s x v} h _ hx hv := by
    refine ⟨h.1.bind s hx v, h.2.1.bind s x hv, ?_⟩
    rw [Store.bind, Array.size_modify]
    exact h.2.2
  addIdentity {w σ τ make} h hmade := by
    have hsame : σ.addIdentity.2.Augments root z u τ.addIdentity.2 :=
      { h.1 with identities := congrArg (· + 1) h.1.identities }
    refine ⟨w, fun _ ht => ht, h.1.identities.symm, ?_, hsame, ⟨h.2.1.outer, h.2.1.bindings⟩, h.2.2⟩
    cases hmade with
    | array hvs => exact .array hvs _
    | hash ht => exact .hash ht _
    | function hscope hnames => exact .function ⟨hscope, fun hz => hnames z hz rfl⟩ _
  addScope {w σ τ outer} h houter := by
    refine ⟨fun t => w t ∨ t = σ.scopes.size, fun _ ht => .inl ht, h.1.size.symm, .inr rfl,
      h.1.addScope h.2.2 (some outer), h.2.1.addScope houter, ?_⟩
    show root < (σ.scopes.push _).size
    rw [Array.size_push]
    exact Nat.lt_succ_of_lt h.2.2

/-- A program cannot tell whether a name is bound that nobody uses.

Take a store, a program, and a name `z` that stands neither in the program nor in any function that
can be got hold of from the scope the program is run in. Bind `z` in some scope that exists, to any
value. With a limit or without, and within any depth, the program ends then exactly if it does so
otherwise. It gives the same value, and leaves the same text, the same count of steps, and in every
scope the same bindings, but for `z`, which is bound there to that value.

It is `Likeness.run` at the likeness `Likeness.augmenting`, begun with `of_bind` and `of_sees` and
read in both directions. -/
theorem Program.run_bind_unrelated {p : Program} {σ : Store} {scope root : ScopeId} {z : String}
    (hp : z ∉ p.names) (hσ : ∀ f, σ.Reaches scope f → z ∉ f.names) (hroot : root < σ.scopes.size)
    (u : Value) (limit : Option Nat) (depth : Nat) :
    (∀ v τ, p.run limit depth scope σ = some (v, τ) →
      ∃ τ', p.run limit depth scope (σ.bind root z u) = some (v, τ') ∧ τ.Augments root z u τ') ∧
    ∀ v τ', p.run limit depth scope (σ.bind root z u) = some (v, τ') →
      ∃ τ, p.run limit depth scope σ = some (v, τ) ∧ τ.Augments root z u τ' := by
  have halike : (Likeness.augmenting root z u).stores (σ.Sees scope) σ (σ.bind root z u) :=
    ⟨.of_bind σ root z u, .of_sees hσ, hroot⟩
  -- The scopes within reach are those that can be seen from the one the program is run in.
  have hrun := (Likeness.augmenting root z u).run (s := scope) (p := p) Store.Sees.here
    (fun x hx => ne_of_mem_of_not_mem hx hp) limit depth _ _ halike
  have hended := hrun.ended
  rw [p.outcome_watched] at hended
  constructor
  · intro v τ hends
    rw [hends] at hended
    obtain ⟨w, τ', hends', -, -, hτ, -⟩ := hended.of_left
    exact ⟨τ', hends', hτ⟩
  · intro v τ' hends
    rw [hends] at hended
    obtain ⟨w, τ, hends', -, -, hτ, -⟩ := hended.of_right
    exact ⟨τ, hends', hτ⟩

/-- A function `make` is bound, and the program makes a function with it and calls that. To bind `z`
besides, to an array, makes no difference. -/
theorem Program.run_bind_unrelated_of_closure :
    let make : Closure := ⟨["x"], [.expression (.function ["y"] [.expression
      (.binary .add (.identifier "x") (.identifier "y"))])], 0⟩
    let σ : Store := ⟨#[⟨[("make", .function 0 make)], none⟩], 1, "", 0⟩
    let p : Program := ⟨[.binding "add" (.call (.identifier "make") [.integer 2]),
      .expression (.call (.identifier "add") [.integer 3])]⟩
    let u : Value := .array 7 [.null]
    "z" ∉ p.names ∧ (∀ f, σ.Reaches 0 f → "z" ∉ f.names) ∧ 0 < σ.scopes.size ∧
      ∃ v τ τ', v.inspect = "5" ∧ p.run (some 20) 9 0 σ = some (v, τ) ∧
        p.run (some 20) 9 0 (σ.bind 0 "z" u) = some (v, τ') ∧ τ.Augments 0 "z" u τ' := by
  intro make σ p u
  have hp : "z" ∉ p.names := by
    subst p
    decide
  have hmake : "z" ∉ make.names := by
    subst make
    decide
  -- The store has one scope, and what is bound there is `make`.
  have hσ : ∀ f, σ.Reaches 0 f → "z" ∉ f.names := by
    rintro f ⟨t, s, x, v, i, -, hs, hv, hf⟩
    have hmem : s ∈ #[⟨[("make", .function 0 make)], none⟩] := Array.mem_of_getElem? hs
    cases Array.mem_singleton.1 hmem
    cases List.mem_singleton.1 (Scope.mem_of_get? hv)
    cases hf
    exact hmake
  have hends : ((p.run (some 20) 9 0 σ).map fun a => a.1.inspect) = some "5" := by
    subst p σ make
    decide +kernel
  obtain ⟨⟨v, τ⟩, hrun, hv⟩ := Option.map_eq_some_iff.1 hends
  have hroot : 0 < σ.scopes.size := Nat.zero_lt_one
  obtain ⟨τ', hrun', hτ⟩ := (run_bind_unrelated hp hσ hroot u (some 20) 9).1 v τ hrun
  exact ⟨hp, hσ, hroot, v, τ, τ', hv, hrun, hrun', hτ⟩

end Monkey
