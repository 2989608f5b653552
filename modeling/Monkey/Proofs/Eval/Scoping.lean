import Monkey.Proofs.Eval.Likeness
import Monkey.Proofs.Eval.Signals

/-!
# `Monkey.Proofs.Eval.Scoping`: scopes lead outward

Scopes hold functions, and functions hold the scopes they were made in, so
that one can go round in circles between them. The links from each scope to
the one around it make no circle, because a scope is made inside one that is
there already, and stays where it was made. So looking for a name outward
always comes to an end.

* `Store.links` says inside which scope each scope lies.
* `Store.WellScoped` is the invariant: links lead to earlier scopes, and
  functions that are bound, at any depth, were made in scopes that exist.
* `Store.Becomes` are the stores that a host and the programs that it runs
  make of a store, `Store.Visits` those that are passed on the way too.
* `Likeness.scoped` says that evaluation keeps the invariant.
* `Store.walk` goes outward without asking where a link leads;
  `Store.WellScoped.walk_eq` says that it ends, with what `Store.lookup`
  finds.
-/

set_option autoImplicit false

namespace Monkey

/-! ### Links -/

/-- Every function in the value, at any depth, was made in one of the first `n` scopes. -/
def Value.Within (n : Nat) (v : Value) : Prop := v.Functions fun f => f.scope < n

/-- A value whose functions were made in the first `m` scopes has them in the first `n` as well.
Scopes are never taken away, so this is how `Within` is carried along. -/
theorem Value.Within.mono {m n : Nat} {v : Value} (h : v.Within m) (hmn : m ≤ n) : v.Within n :=
  Value.Functions.mono h fun _ hf => Nat.lt_of_lt_of_le hf hmn

namespace Store

/-- Inside which scope each scope lies, in the order in which they were made. -/
def links (σ : Store) : List (Option ScopeId) := σ.scopes.toList.map Scope.outer

section

variable (σ : Store)

/-- There are as many links as scopes, so that `σ.links` can stand for the world in
`Likeness.scoped`, with its length as the number of scopes. -/
@[simp] theorem length_links : σ.links.length = σ.scopes.size := by simp [links]

/-- The link at `t` is the field `outer` of the scope there, if there is one. It turns facts about
`links` into facts about scopes and back. -/
theorem getElem?_links (t : ScopeId) : σ.links[t]? = (σ.scopes[t]?).map Scope.outer := by
  simp [links]

/-- Binding a name leaves every scope where it lies: `Scope.set` changes bindings and never `outer`.
-/
@[simp] theorem links_bind (scope : ScopeId) (name : String) (v : Value) :
    (σ.bind scope name v).links = σ.links := by
  refine List.ext_getElem? fun t => ?_
  rw [getElem?_links, getElem?_links, bind, Array.getElem?_modify]
  split
  · rw [Option.map_map]
    rfl
  · rfl

/-- Binding parameters one after another leaves every scope where it lies, by `links_bind` at each
of them. -/
@[simp] theorem links_bindAll (scope : ScopeId) (names : List String) (args : List Value) :
    (σ.bindAll scope names args).links = σ.links := by
  fun_induction Store.bindAll σ scope names args with
  | case1 σ name names v vs ih => rw [ih, links_bind]
  | case2 => rfl

/-- Making a scope puts its link behind those there are, and `links` only grows at its end. -/
@[simp] theorem links_addScope (outer : Option ScopeId) :
    (σ.addScope outer).2.links = σ.links ++ [outer] := by
  simp [links, addScope]

/-- The scope of a call lies in the scope its function was made in: `enter` makes it there by
`links_addScope`, and binding the parameters changes no link. -/
theorem links_enter (outer : ScopeId) (names : List String) (args : List Value) :
    (σ.enter outer names args).links = σ.links ++ [some outer] := by
  rw [enter, links_bindAll, links_addScope]

end

/-! ### The invariant -/

/-- Every scope lies in an earlier one if in any, and whatever function stands in a binding, at any
depth, was made in a scope that exists. -/
structure WellScoped (σ : Store) : Prop where
  outward : ∀ t outer : ScopeId, σ.links[t]? = some (some outer) → outer < t
  bindings : σ.Holds (Value.Within σ.scopes.size)

/-- A store that holds values of a class `V` holds values of every wider class `U`. Used where the
number of scopes has grown. -/
theorem Holds.mono {V U : Value → Prop} {σ : Store} (h : σ.Holds V) (hVU : ∀ v, V v → U v) :
    σ.Holds U := fun s hs b hb => hVU b.2 (h s hs b hb)

namespace WellScoped

variable {σ : Store}

/-- The empty store is well scoped, since it has no scope and hence no binding. From here the
invariant holds of every store a host can make. -/
theorem empty : Store.empty.WellScoped where
  outward t outer h := by cases h
  bindings := holds_empty

/-- A scope is made inside one that exists, or inside none, and the store stays well scoped. The new
link is the last one, and leads to an earlier scope by `houter`. -/
theorem addScope (h : σ.WellScoped) {outer : Option ScopeId}
    (houter : ∀ o, outer = some o → o < σ.scopes.size) : (σ.addScope outer).2.WellScoped where
  outward t o ht := by
    rw [links_addScope] at ht
    rcases Nat.lt_or_ge t σ.links.length with hlt | hge
    · rw [List.getElem?_append_left hlt] at ht
      exact h.outward t o ht
    · -- This is the new scope, so that its own number is the number of the others.
      rw [List.getElem?_append_right hge, List.getElem?_singleton] at ht
      split at ht
      · rw [length_links] at hge
        exact Nat.lt_of_lt_of_le (houter o (Option.some.inj ht)) hge
      · cases ht
  bindings := by
    have hsize : (σ.addScope outer).2.scopes.size = σ.scopes.size + 1 := Array.size_push _
    rw [hsize]
    exact (h.bindings.addScope outer).mono fun v hv => hv.mono (Nat.le_succ _)

/-- Binding a value whose functions were made in scopes that exist keeps a store well scoped, for no
link and no number of scopes changes. -/
theorem bind (h : σ.WellScoped) (scope : ScopeId) (name : String) {v : Value}
    (hv : v.Within σ.scopes.size) : (σ.bind scope name v).WellScoped where
  outward t o ht := h.outward t o (links_bind σ scope name v ▸ ht)
  bindings := by
    have hsize : (σ.bind scope name v).scopes.size = σ.scopes.size := Array.size_modify
    rw [hsize]
    exact h.bindings.bind scope name hv

end WellScoped

end Store

/-! ### Evaluation -/

/-- A store that is well scoped is like itself. Of scopes those are within reach that exist, and of
values those with functions that were made in them. -/
def Likeness.scoped : Likeness (fun _ => True) (List (Option ScopeId)) where
  later w w' := w <+: w'
  value w v := v.Within w.length
  scope w s := s < w.length
  stores w σ τ := σ = τ ∧ σ.links = w ∧ σ.WellScoped
  refl := List.prefix_refl
  trans := List.IsPrefix.trans
  value_later hw hv := hv.mono hw.length_le
  scope_later hw hs := Nat.lt_of_lt_of_le hs hw.length_le
  downward w := Value.Functions.downwardClosed _
  closure h := ⟨h _ _ .whole, fun _ _ => trivial⟩
  steps h := h.1 ▸ rfl
  withSteps _ h := ⟨h.1 ▸ rfl, h.2.1, h.2.2.outward, h.2.2.bindings⟩
  print _ h := ⟨h.1 ▸ rfl, h.2.1, h.2.2.outward, h.2.2.bindings⟩
  lookup {w σ τ s x} h _ _ := by
    obtain ⟨rfl, rfl, hσ⟩ := h
    rw [Store.length_links]
    exact ⟨rfl, fun v hv => hσ.bindings.lookup hv⟩
  bind {w σ τ s x v} h _ _ hv := by
    obtain ⟨rfl, rfl, hσ⟩ := h
    rw [Store.length_links] at hv
    exact ⟨rfl, Store.links_bind σ s x v, hσ.bind s x hv⟩
  addIdentity {w σ τ make} h hmade := by
    obtain ⟨rfl, rfl, hσ⟩ := h
    refine ⟨σ.links, List.prefix_rfl, rfl, ?_, rfl, rfl, hσ.outward, hσ.bindings⟩
    cases hmade with
    | array hvs => exact .array hvs _
    | hash ht => exact .hash ht _
    | function hscope => exact .function hscope _
  addScope {w σ τ outer} h houter := by
    obtain ⟨rfl, rfl, hσ⟩ := h
    rw [Store.length_links] at houter
    refine ⟨σ.links ++ [some outer], List.prefix_append _ _, rfl, ?_, rfl,
      Store.links_addScope σ (some outer), hσ.addScope ?_⟩
    · rw [List.length_append, Store.length_links]
      exact Nat.lt_succ_self _
    · rintro o ⟨⟩
      exact houter

namespace Likeness

variable {σ τ : Store}

/-- The scopes within reach are those that exist, as a rewriting of the number of `links` by
`length_links`. -/
theorem scoped_reaches {scope : ScopeId} (h : scope < σ.scopes.size) :
    scoped.scope σ.links scope :=
  Nat.lt_of_lt_of_eq h σ.length_links.symm

/-- What ends leaves a store that is well scoped, with no link changed, and the functions in the
result were made in its scopes. It reads `Likeness.Bears` at the likeness `scoped`. -/
theorem scoped_ends {r : Report} {x : Eval Value} (h : scoped.Bears σ.links r (x σ)) {v : Value}
    (hx : x σ = some (v, τ)) :
    τ.WellScoped ∧ σ.links <+: τ.links ∧ v.Within τ.scopes.size := by
  have hended := h.ended
  rw [hx] at hended
  obtain ⟨w, ρ, -, hw, hv, rfl, rfl, hρ⟩ := hended.of_right
  rw [← Store.length_links]
  exact ⟨hρ, hw, .of_arrives hv⟩

end Likeness

namespace Store.WellScoped

variable {σ τ : Store} {limit : Option Nat} {depth : Nat} {scope : ScopeId} {p : Program}

/-- A program in a well-scoped store is borne out by `Likeness.scoped`: the store is like itself,
and `Likeness.run` says the rest, of every state on the way. -/
theorem bears (hσ : σ.WellScoped) (hscope : scope < σ.scopes.size) (p : Program)
    (limit : Option Nat) (depth : Nat) :
    Likeness.scoped.Bears σ.links (p.watched limit depth scope σ) (p.run limit depth scope σ) :=
  Likeness.scoped.run (Likeness.scoped_reaches hscope) (fun _ _ => trivial) limit depth σ σ
    ⟨rfl, rfl, hσ⟩

/-- Every store that is passed while a program runs is well scoped, and no link has changed. This
holds whether the run ends or not. -/
theorem seen (hσ : σ.WellScoped) (hscope : scope < σ.scopes.size)
    (hτ : .state τ ∈ (p.watched limit depth scope σ).seen) :
    τ.WellScoped ∧ σ.links <+: τ.links := by
  obtain ⟨w, hw, ρ, rfl, rfl, hτ⟩ := (hσ.bears hscope p limit depth).seen _ hτ
  exact ⟨hτ, hw⟩

/-- A run that ends leaves a well-scoped store with no link changed, and a result whose functions
were made in its scopes. `scoped_ends` at `bears`. -/
theorem run (hσ : σ.WellScoped) (hscope : scope < σ.scopes.size) {v : Value}
    (hrun : p.run limit depth scope σ = some (v, τ)) :
    τ.WellScoped ∧ σ.links <+: τ.links ∧ v.Within τ.scopes.size :=
  Likeness.scoped_ends (hσ.bears hscope p limit depth) hrun

/-- An expression that ends leaves a well-scoped store, as a run does. It is needed by itself for
what is called, between the callee and the call. -/
theorem expr (hσ : σ.WellScoped) (hscope : scope < σ.scopes.size) {e : Expr} {v : Value}
    (he : evalExpr limit depth scope e σ = some (v, τ)) :
    τ.WellScoped ∧ σ.links <+: τ.links ∧ v.Within τ.scopes.size := by
  have hbears := Likeness.scoped.expr limit depth σ.links scope e
    (Likeness.scoped_reaches hscope) (fun _ _ => trivial) σ σ ⟨rfl, rfl, hσ⟩
  exact Likeness.scoped_ends hbears he

end Store.WellScoped

/-! ### Hosts -/

namespace Store

/-- The stores that a host makes of a store. It makes scopes, alone or inside others, it sets names
to values whose functions were made in scopes that exist, and it runs programs, with or without a
limit, and texts in scopes that exist. -/
inductive Becomes (σ : Store) : Store → Prop where
  | refl : σ.Becomes σ
  | root {τ : Store} (h : σ.Becomes τ) : σ.Becomes (τ.addScope none).2
  | enclosed {τ : Store} {outer : ScopeId} (h : σ.Becomes τ) (houter : outer < τ.scopes.size) :
      σ.Becomes (τ.addScope (some outer)).2
  | set {τ : Store} {scope : ScopeId} {v : Value} (h : σ.Becomes τ)
      (hscope : scope < τ.scopes.size) (name : String) (hv : v.Within τ.scopes.size) :
      σ.Becomes (τ.bind scope name v)
  | run {τ ρ : Store} {p : Program} {limit : Option Nat} {depth : Nat} {scope : ScopeId}
      {v : Value} (h : σ.Becomes τ) (hscope : scope < τ.scopes.size)
      (hrun : p.run limit depth scope τ = some (v, ρ)) : σ.Becomes ρ
  | interpret {τ ρ : Store} {depth : Nat} {scope : ScopeId} {text : String}
      {r : Except Failure Value} (h : σ.Becomes τ) (hscope : scope < τ.scopes.size)
      (hrun : interpret depth scope text τ = some (r, ρ)) : σ.Becomes ρ

/-- The stores that a host makes of a store, and those that are passed while programs are run,
whether they end or not. -/
inductive Visits (σ : Store) : Store → Prop where
  | settled {τ : Store} (h : σ.Becomes τ) : σ.Visits τ
  | passing {τ ρ : Store} {p : Program} {limit : Option Nat} {depth : Nat} {scope : ScopeId}
      (h : σ.Becomes τ) (hscope : scope < τ.scopes.size)
      (hρ : .state ρ ∈ (p.watched limit depth scope τ).seen) : σ.Visits ρ

variable {σ τ : Store}

/-- Whatever a host does, the store stays well scoped and no link changes: one case for each
constructor of `Becomes`. An interpreted text is malformed, or is a run. -/
theorem Becomes.wellScoped (h : σ.Becomes τ) (hσ : σ.WellScoped) :
    τ.WellScoped ∧ σ.links <+: τ.links := by
  induction h with
  | refl => exact ⟨hσ, List.prefix_rfl⟩
  | root _ ih =>
      obtain ⟨hτ, hlinks⟩ := ih
      rw [links_addScope]
      exact ⟨hτ.addScope nofun, hlinks.trans (List.prefix_append _ _)⟩
  | @enclosed τ outer _ houter ih =>
      obtain ⟨hτ, hlinks⟩ := ih
      rw [links_addScope]
      refine ⟨hτ.addScope ?_, hlinks.trans (List.prefix_append _ _)⟩
      rintro o ⟨⟩
      exact houter
  | set _ _ name hv ih =>
      obtain ⟨hτ, hlinks⟩ := ih
      rw [links_bind]
      exact ⟨hτ.bind _ name hv, hlinks⟩
  | run _ hscope hrun ih =>
      obtain ⟨hτ, hlinks⟩ := ih
      obtain ⟨hρ, hmore, -⟩ := hτ.run hscope hrun
      exact ⟨hρ, hlinks.trans hmore⟩
  | interpret _ hscope hrun ih =>
      obtain ⟨hτ, hlinks⟩ := ih
      -- A malformed text leaves the store as it was.
      obtain ⟨rfl, -⟩ | ⟨p, v, hrun, -⟩ := interpret_eq_some hrun
      · exact ⟨hτ, hlinks⟩
      · obtain ⟨hρ, hmore, -⟩ := hτ.run hscope hrun
        exact ⟨hρ, hlinks.trans hmore⟩

/-- On the way, too, the store is well scoped and no link has changed: `seen` for a state of a run,
`Becomes.wellScoped` for what the host made. -/
theorem Visits.wellScoped (h : σ.Visits τ) (hσ : σ.WellScoped) :
    τ.WellScoped ∧ σ.links <+: τ.links := by
  cases h with
  | settled h => exact h.wellScoped hσ
  | passing h hscope hρ =>
      obtain ⟨hτ, hlinks⟩ := h.wellScoped hσ
      obtain ⟨hρ, hmore⟩ := hτ.seen hscope hρ
      exact ⟨hρ, hlinks.trans hmore⟩

/-! ### Walks outward -/

/-- Looks for a name from a scope outward, through no more than so many scopes; where that is not
enough, or a link leads nowhere, there is no answer. Unlike `lookup`, it follows a link wherever it
leads. -/
def walk (σ : Store) (name : String) : (most : Nat) → ScopeId → Option (Option Value)
  | 0, _ => none
  | most + 1, scope =>
    match σ.scopes[scope]? with
    | none => none
    | some s =>
      match s.get? name with
      | some v => some (some v)
      | none =>
        match s.outer with
        | none => some none
        | some outer => σ.walk name most outer

/-- From a scope of a store that is well scoped, one looks at no more scopes than there are up to
it, and finds what the name means there. So the guard of `lookup` never stops it. -/
theorem WellScoped.walk_eq (hσ : σ.WellScoped) (name : String) {most : Nat} {scope : ScopeId}
    (hscope : scope < σ.scopes.size) (hmost : scope < most) :
    σ.walk name most scope = some (σ.lookup scope name) := by
  induction most generalizing scope with
  | zero => exact absurd hmost (Nat.not_lt_zero scope)
  | succ most ih =>
      have hs : σ.scopes[scope]? = some σ.scopes[scope] := Array.getElem?_eq_getElem hscope
      rw [walk, lookup, hs]
      dsimp only
      cases σ.scopes[scope].get? name with
      | some v => rfl
      | none =>
          cases hlink : σ.scopes[scope].outer with
          | none => rfl
          | some outer =>
              -- The link leads to an earlier scope, and there are fewer of these.
              have hlt : outer < scope := by
                refine hσ.outward scope outer ?_
                rw [getElem?_links, hs, Option.map_some, hlink]
              dsimp only
              rw [if_pos hlt]
              exact ih (Nat.lt_trans hlt hscope)
                (Nat.lt_of_lt_of_le hlt (Nat.le_of_lt_succ hmost))

end Store

/-! ### Calls -/

/-- A call of a function is the evaluation of its body in a new scope, which lies in the scope the
function was made in. The scope that the call is made from has no part in it. -/
theorem evalExpr_call {limit : Option Nat} {depth : Nat} {scope : ScopeId} {callee : Expr}
    {arguments : List Expr} {σ ρ τ : Store} {i : Identity} {f : Closure} {args : List Value}
    (hlimit : ¬ Exceeds (σ.steps + 1) limit)
    (hcallee : evalExpr limit depth scope callee σ.tick = some (.function i f, ρ))
    (hargs : evalEach (evalExpr limit depth) scope arguments ρ = some (.ok args, τ))
    (hcount : f.parameters.length = args.length) :
    evalExpr limit (depth + 1) scope (.call callee arguments) σ =
      (evalBlock limit (evalExpr limit depth) τ.scopes.size f.body
        (τ.enter f.scope f.parameters args)).map fun r => (r.1.settle, r.2) := by
  rw [evalExpr, evalNode_call, counted_of_not_exceeds hlimit, unlessSignal_of_value hcallee rfl]
  show (evalEach (evalExpr limit depth) scope arguments ρ).bind _ = _
  rw [hargs, Option.bind_some]
  show applyValue limit (evalExpr limit depth) (.function i f) args τ = _
  rw [applyValue, if_pos hcount]
  show (evalBlock limit (evalExpr limit depth) τ.scopes.size f.body
    (τ.enter f.scope f.parameters args)).bind _ = _
  cases evalBlock limit (evalExpr limit depth) τ.scopes.size f.body
    (τ.enter f.scope f.parameters args) <;> rfl

/-- When a function is called, the scope it was made in exists. It did when the callee was
evaluated, by `expr`, and evaluating the arguments takes no scope away. -/
theorem Store.WellScoped.scope_lt {σ ρ τ : Store} (hσ : σ.WellScoped) {limit : Option Nat}
    {depth : Nat} {scope : ScopeId} {callee : Expr} {arguments : List Expr} {i : Identity}
    {f : Closure} {args : List Value} (hscope : scope < σ.scopes.size)
    (hcallee : evalExpr limit depth scope callee σ = some (.function i f, ρ))
    (hargs : evalEach (evalExpr limit depth) scope arguments ρ = some (.ok args, τ)) :
    f.scope < τ.scopes.size := by
  obtain ⟨hρ, hmade, hf⟩ := hσ.expr hscope hcallee
  -- The arguments are evaluated in a store with no fewer scopes, and leave one with no fewer.
  have heach : Likeness.scoped.Accords ρ.links
      (Watched.evalEach (Watched.evalExpr limit depth) scope arguments fun _ =>
        .unseen (pure .null))
      (evalEach (evalExpr limit depth) scope arguments >>= orSignal fun _ => pure .null) :=
    Likeness.each (Likeness.scoped.expr limit depth)
      (Likeness.scoped.scope_later hmade (Likeness.scoped_reaches hscope)) (fun _ _ => trivial)
      fun w _ _ _ => Likeness.answer (.inr (Likeness.scoped.downward w).null)
  have hends : (evalEach (evalExpr limit depth) scope arguments >>= orSignal fun _ => pure .null)
      ρ = some (.null, τ) := by
    show (evalEach (evalExpr limit depth) scope arguments ρ).bind _ = _
    rw [hargs]
    rfl
  obtain ⟨-, hmore, -⟩ := Likeness.scoped_ends (heach ρ ρ ⟨rfl, rfl, hρ⟩) hends
  have hsize : ρ.scopes.size ≤ τ.scopes.size := by simpa using hmore.length_le
  exact Nat.lt_of_lt_of_le (hf i f .whole) hsize

/-- Scopes lead outward, whatever a host does and whatever its programs do.

Begin with nothing, and come to a store; come from it to another one, at the end of what is done or
on the way. Then the links are those of the first store, with those of new scopes behind them. Each
leads to a scope that was made earlier. Every function that is bound, at any depth, was made in a
scope that exists, and so was every function in the value of an expression and in the result of a
program. A call of a function evaluates its body in a new scope, and the link of that scope leads to
the scope the function was made in, whatever scope the call is made from. And so it ends, from every
scope, to look for a name outward.

All of it follows from the invariant `WellScoped`, which `Becomes.wellScoped` and
`Visits.wellScoped` carry from the empty store on. -/
theorem Store.scopes_lead_outward {σ τ : Store} (hσ : Store.empty.Becomes σ) (hτ : σ.Visits τ) :
    σ.links <+: τ.links ∧
    (∀ t outer : ScopeId, τ.links[t]? = some (some outer) → outer < t) ∧
    (∀ s ∈ τ.scopes, ∀ b ∈ s.bindings, ∀ i f, (Value.function i f).PartOf b.2 →
      f.scope < τ.scopes.size) ∧
    (∀ limit depth scope e v ρ, scope < τ.scopes.size →
      evalExpr limit depth scope e τ = some (v, ρ) →
      ∀ i f, (Value.function i f).PartOf v → f.scope < ρ.scopes.size) ∧
    (∀ (p : Program) limit depth scope v ρ, scope < τ.scopes.size →
      p.run limit depth scope τ = some (v, ρ) →
      ∀ i f, (Value.function i f).PartOf v → f.scope < ρ.scopes.size) ∧
    (∀ limit depth scope callee arguments ρ ρ' i f args, scope < τ.scopes.size →
      ¬ Exceeds (τ.steps + 1) limit →
      evalExpr limit depth scope callee τ.tick = some (.function i f, ρ) →
      evalEach (evalExpr limit depth) scope arguments ρ = some (.ok args, ρ') →
      f.parameters.length = args.length →
      f.scope < ρ'.scopes.size ∧
      (ρ'.enter f.scope f.parameters args).links = ρ'.links ++ [some f.scope] ∧
      evalExpr limit (depth + 1) scope (.call callee arguments) τ =
        (evalBlock limit (evalExpr limit depth) ρ'.scopes.size f.body
          (ρ'.enter f.scope f.parameters args)).map fun r => (r.1.settle, r.2)) ∧
    ∀ scope < τ.scopes.size, ∀ name,
      τ.walk name (scope + 1) scope = some (τ.lookup scope name) := by
  obtain ⟨hbegins, -⟩ := hσ.wellScoped .empty
  obtain ⟨hτ, hlinks⟩ := hτ.wellScoped hbegins
  refine ⟨hlinks, hτ.outward, hτ.bindings, fun limit depth scope e v ρ hscope he => ?_,
    fun p limit depth scope v ρ hscope hrun => ?_, ?_,
    fun scope hscope name => hτ.walk_eq name hscope (Nat.lt_succ_self scope)⟩
  · exact (hτ.expr hscope he).2.2
  · exact (hτ.run hscope hrun).2.2
  · intro limit depth scope callee arguments ρ ρ' i f args hscope hlimit hcallee hargs hcount
    have htick : τ.tick.WellScoped := ⟨hτ.outward, hτ.bindings⟩
    exact ⟨htick.scope_lt hscope hcallee hargs, ρ'.links_enter _ _ _,
      evalExpr_call hlimit hcallee hargs hcount⟩

/-- A function `add` is made in a call of `make`, and called from a call of `apply`. Scope 3 is the
one of that call: it lies in scope 1, where `add` was made and `x` is bound, and not in scope 2,
from where it was called. -/
theorem Store.scopes_lead_outward_of_two_calls :
    let make : Expr := .function ["x"] [.expression (.function ["y"] [.expression
      (.binary .add (.identifier "x") (.identifier "y"))])]
    let p : Program := ⟨[.binding "add" (.call make [.integer 2]),
      .binding "apply" (.function ["f"] [.expression (.call (.identifier "f") [.integer 3])]),
      .expression (.call (.identifier "apply") [.identifier "add"])]⟩
    let σ := (Store.empty.addScope none).2
    ∃ v τ, p.run none 9 0 σ = some (v, τ) ∧ v.inspect = "5" ∧
      τ.links = [none, some 0, some 0, some 1] ∧ σ.links <+: τ.links ∧
      τ.walk "x" 4 3 = some (τ.lookup 3 "x") := by
  intro make p σ
  have hends : ((p.run none 9 0 σ).map fun a => (a.1.inspect, a.2.links)) =
      some ("5", [none, some 0, some 0, some 1]) := by
    subst σ p make
    decide +kernel
  obtain ⟨⟨v, τ⟩, hrun, heq⟩ := Option.map_eq_some_iff.1 hends
  obtain ⟨hv, hτ⟩ := Prod.mk.inj heq
  have hscope : 0 < σ.scopes.size := Nat.zero_lt_one
  obtain ⟨hlinks, -, -, -, -, -, hwalks⟩ :=
    scopes_lead_outward (.root .refl) (.settled (.run .refl hscope hrun))
  have hsize : τ.scopes.size = 4 := by rw [← τ.length_links, hτ]; rfl
  exact ⟨v, τ, hrun, hv, hτ, hlinks, hwalks 3 (by omega) "x"⟩

end Monkey
