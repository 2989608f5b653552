import Monkey.Proofs.Eval.Ledger

/-!
# `Monkey.Proofs.Eval.Identity`: what values share an identity

Programs are evaluated one after another, and what there is to be seen is
written down, up to some moment, which may lie in the middle of a run
(`Chronicle`). All of it is in one ledger (`Chronicle.recorded`), so that an
identity belongs to one value only, and what is made next has an identity
that nothing had.

* `IdentityLaws` says so of a moment, and `Chronicle.identityLaws` proves it
  of every moment of a chronicle.
* `HandingLaws` says that binding, looking up, passing, indexing, `first` and
  `last` hand on the value itself.
* `Chronicle.identity_and_equality` draws the laws of the language's equality
  from them.
-/

set_option autoImplicit false

namespace Monkey

/-! ### Chronicles -/

/-- The values that a sighting shows: all that can be seen, with every part. -/
def Sighting.Shows (u : Value) : Sighting → Prop
  | .state σ => ∃ s ∈ σ.scopes, ∃ b ∈ s.bindings, u.PartOf b.2
  | .arguments args => ∃ v ∈ args, u.PartOf v
  | .result v => u.PartOf v

/-- `Chronicle σ past`: from an empty store on scopes have been made, and programs have been
evaluated in any of them, with or without a limit. The last of these may still be going on. The
store is `σ` now, and `past` has been seen so far. -/
inductive Chronicle : Store → List Sighting → Prop where
  | fresh : Chronicle .empty []
  | scope {σ : Store} {past : List Sighting} (h : Chronicle σ past) (outer : Option ScopeId) :
      Chronicle (σ.addScope outer).2 past
  | ran {σ τ : Store} {past : List Sighting} {p : Program} {limit : Option Nat} {depth : Nat}
      {scope : ScopeId} {v : Value} (h : Chronicle σ past)
      (hrun : p.run limit depth scope σ = some (v, τ)) :
      Chronicle τ (past ++ (p.watched limit depth scope σ).seen ++ [.result v])
  | running {σ ρ : Store} {past before after : List Sighting} {p : Program} {limit : Option Nat}
      {depth : Nat} {scope : ScopeId} (h : Chronicle σ past)
      (hseen : (p.watched limit depth scope σ).seen = before ++ .state ρ :: after) :
      Chronicle ρ (past ++ before ++ [.state ρ])

/-- The value is part of something that has been seen, or of what the store binds. -/
def Met (σ : Store) (past : List Sighting) (u : Value) : Prop := ∃ s ∈ .state σ :: past, s.Shows u

/-! ### One ledger -/

/-- All values with an identity that are shown are the values which the ledger has there. -/
def RecordedIn (w : List Value) (past : List Sighting) : Prop :=
  ∀ s ∈ past, ∀ u, s.Shows u → ∀ i, u.identity? = some i → w[i]? = some u

namespace RecordedIn

variable {w w' : List Value} {past seen : List Sighting}

/-- What is recorded in a ledger is recorded in every later one, since entries are only added at
the end. -/
theorem mono (hw : w <+: w') (h : RecordedIn w past) : RecordedIn w' past :=
  fun s hs u hu i hi => Value.Recorded.getElem?_of_prefix hw (h s hs u hu i hi)

/-- Two lists of sightings that are recorded in one ledger are recorded there together. -/
theorem append (h : RecordedIn w past) (h' : RecordedIn w seen) : RecordedIn w (past ++ seen) :=
  List.forall_mem_append.2 ⟨h, h'⟩

/-- What is seen in the world of a ledger is in that ledger: the likeness `Likeness.ledger` asks
that of every value with an identity. -/
theorem of_sees {s : Sighting} (h : Likeness.ledger.Sees w s) : RecordedIn w [s] := by
  refine List.forall_mem_singleton.2 fun u hu => ?_
  cases s with
  | state σ =>
      obtain ⟨τ, -, -, hσ⟩ := h
      obtain ⟨s, hs, b, hb, hu⟩ := hu
      exact hσ s hs b hb u hu
  | arguments args =>
      obtain ⟨v, hv, hu⟩ := hu
      exact h v hv u hu
  | result v => exact Value.Recorded.of_arrives h u hu

/-- What is passed on the way to a ledger is in that ledger, since each sighting is in one that
comes no later. -/
theorem of_passes (h : Likeness.ledger.Passes w seen w') : RecordedIn w' seen := by
  intro s hs
  obtain ⟨w₁, -, hsees, hw⟩ := h.sees hs
  exact (of_sees hsees).mono hw s (List.mem_singleton_self s)

/-- No value that is shown has an identity beyond the ledger. The next identity is the length of the
ledger, so it is new. -/
theorem ne_length (h : RecordedIn w past) {s : Sighting} (hs : s ∈ past) {u : Value}
    (hu : s.Shows u) : u.identity? ≠ some w.length := by
  intro hi
  have hget := h s hs u hu w.length hi
  rw [List.getElem?_eq_none (Nat.le_refl _)] at hget
  cases hget

end RecordedIn

/-- What happens in a chronicle is entered in one ledger. By induction on the `Chronicle`: a run
starts from the ledger of its store and adds to it, and a run that is still going on stands at one
of the ledgers on its way. -/
theorem Chronicle.recorded {σ : Store} {past : List Sighting} (h : Chronicle σ past) :
    ∃ w, Likeness.ledger.stores w σ σ ∧ RecordedIn w past := by
  induction h with
  | fresh => exact ⟨[], ⟨rfl, rfl, Store.holds_empty⟩, fun s hs => absurd hs List.not_mem_nil⟩
  | scope _ outer ih =>
      obtain ⟨w, ⟨-, hidentities, hσ⟩, hpast⟩ := ih
      exact ⟨w, ⟨rfl, hidentities, hσ.addScope outer⟩, hpast⟩
  | @ran σ τ past p limit depth scope v _ hrun ih =>
      obtain ⟨w, hσ, hpast⟩ := ih
      obtain ⟨w₁, hpasses, hended⟩ := Likeness.ledger.run (s := scope) (p := p) trivial
        (fun _ _ => trivial) limit depth σ σ hσ
      rw [hrun] at hended
      obtain ⟨w₂, τ', -, hw, hv, rfl, hτ⟩ := hended.of_right
      have hlater : w <+: w₂ := hpasses.later.trans hw
      have hresult : RecordedIn w₂ [.result v] := .of_sees hv
      exact ⟨w₂, ⟨rfl, hτ⟩,
        ((hpast.mono hlater).append ((RecordedIn.of_passes hpasses).mono hw)).append hresult⟩
  | @running σ ρ past before after p limit depth scope _ hseen ih =>
      obtain ⟨w, hσ, hpast⟩ := ih
      obtain ⟨w₁, hpasses, -⟩ := Likeness.ledger.run (s := scope) (p := p) trivial
        (fun _ _ => trivial) limit depth σ σ hσ
      rw [hseen] at hpasses
      -- The ledger now is the one in whose world the store is seen.
      obtain ⟨w₂, hbefore, hrest⟩ := hpasses.of_append
      cases hrest with
      | @see _ w₃ _ _ _ hw hsees _ =>
          obtain ⟨_, rfl, hρ⟩ := id hsees
          have hlater : w <+: w₃ := hbefore.later.trans hw
          exact ⟨w₃, ⟨rfl, hρ⟩,
            ((hpast.mono hlater).append ((RecordedIn.of_passes hbefore).mono hw)).append
              (.of_sees hsees)⟩

/-! ### Laws -/

/-- What is true of identities at a moment of a chronicle. -/
structure IdentityLaws (σ : Store) (past : List Sighting) : Prop where
  /-- Values that share an identity are one value. -/
  unique {u v : Value} {i : Identity} (hu : Met σ past u) (hv : Met σ past v)
    (hi : u.identity? = some i) (hj : v.identity? = some i) : u = v
  /-- Whatever array, hash or function literal is evaluated next, unless it ends with a signal its
  value has an identity. No value has that which was met before, or while the parts of the literal
  were evaluated. -/
  literal {e : Expr} {limit : Option Nat} {depth : Nat} {scope : ScopeId} {v : Value} {τ : Store}
    (he : e.makesValue = true) (hends : evalExpr limit depth scope e σ = some (v, τ))
    (hv : v.isSignal = false) :
    ∃ parts i, (Watched.evalExpr limit depth scope e σ).seen = parts ++ [.result v, .state τ] ∧
      v.identity? = some i ∧ ∀ u, Met σ (past ++ parts) u → u.identity? ≠ some i
  /-- If `rest` or `push` gives an array, no value that was met before has its identity. -/
  native {b : Builtin} {args vs : List Value} {i : Identity} {τ : Store}
    (hb : b = .rest ∨ b = .push) (hends : b.apply args σ = some (.array i vs, τ)) :
    ∀ u, Met σ past u → u.identity? ≠ some i

/-- The ways in which values are handed on hand on the value itself, with its identity. -/
structure HandingLaws (σ : Store) : Prop where
  /-- A binding that is made binds its name to the value of its expression, -/
  bound {limit : Option Nat} {eval : Evaluator} {scope : ScopeId} {x : String} {e : Expr}
    {τ : Store} : evalStatement limit eval scope (.binding x e) σ = some (.null, τ) ↔
      ¬Exceeds (σ.steps + 1) limit ∧ ∃ v ρ, eval scope e σ.tick = some (v, ρ) ∧
        v.isSignal = false ∧ τ = ρ.bind scope x v
  /-- and then the name gives that value. -/
  kept {scope : ScopeId} (h : scope < σ.scopes.size) (x : String) (v : Value) :
    evalIdentifier scope x (σ.bind scope x v) = some (v, σ.bind scope x v)
  lookedUp {scope : ScopeId} {x : String} {v : Value} {τ : Store} {i : Identity}
    (hi : v.identity? = some i) :
    evalIdentifier scope x σ = some (v, τ) ↔ τ = σ ∧ σ.lookup scope x = some v
  /-- The body of a function is evaluated where each parameter gives its argument. -/
  passed {limit : Option Nat} {eval : Evaluator} {i : Identity} {f : Closure} {args : List Value}
    (h : f.parameters.length = args.length) :
    ∃ ρ, applyValue limit eval (.function i f) args σ =
        (evalBlock limit eval σ.scopes.size f.body ρ).map (fun r => (r.1.settle, r.2)) ∧
      ∀ {n : Nat} {x : String} {v : Value}, f.parameters[n]? = some x → args[n]? = some v →
        x ∉ f.parameters.drop (n + 1) → evalIdentifier σ.scopes.size x ρ = some (v, ρ)
  element {i j : Identity} {vs : List Value} {n : Int64} {v : Value}
    (hi : v.identity? = some i) :
    (Value.array j vs).index (.integer n) = v ↔ ¬n < 0 ∧ vs[n.toInt.toNat]? = some v
  entry {i j : Identity} {t : Table Value} {key v : Value} (hi : v.identity? = some i) :
    (Value.hash j t).index key = v ↔
      ∃ k p, key.hashKey? = some k ∧ t.get? k = some p ∧ p.2 = v
  first {i j : Identity} {vs : List Value} {v : Value} {τ : Store} (hi : v.identity? = some i) :
    Builtin.first.apply [.array j vs] σ = some (v, τ) ↔ τ = σ ∧ vs.head? = some v
  last {i j : Identity} {vs : List Value} {v : Value} {τ : Store} (hi : v.identity? = some i) :
    Builtin.last.apply [.array j vs] σ = some (v, τ) ↔ τ = σ ∧ vs.getLast? = some v

/-! ### Handing on -/

/-- What has an identity is not given in place of nothing, null having none. So an index or a
`first` that gives such a value has found it. -/
theorem Value.getD_null_eq_iff {o : Option Value} {v : Value} {i : Identity}
    (hi : v.identity? = some i) : o.getD .null = v ↔ o = some v := by
  cases o with
  | none =>
      simp only [Option.getD_none, reduceCtorEq, iff_false]
      rintro rfl
      cases hi
  | some w => simp

/-- An array that `rest` or `push` gives has the next identity of the store. By the arguments they
accept; all others give no array. -/
theorem Builtin.identity_of_apply {b : Builtin} {args vs : List Value} {σ τ : Store}
    {i : Identity} (hb : b = .rest ∨ b = .push)
    (h : b.apply args σ = some (.array i vs, τ)) : i = σ.identities := by
  -- First `rest`, which gives an array only if there is an element to leave out, and then `push`.
  rcases hb with rfl | rfl
  · match args with
    | [] => cases h
    | [v] =>
        cases v with
        | array j ws =>
            cases ws with
            | nil => cases h
            | cons w ws =>
                cases h
                rfl
        | _ => cases h
    | _ :: _ :: _ => cases h
  · match args with
    | [] => cases h
    | [_] => cases h
    | [v, w] =>
        cases v with
        | array j ws =>
            cases h
            rfl
        | _ => cases h
    | _ :: _ :: _ :: _ => cases h

/-- Every store hands on the values themselves: binding, looking up, passing, indexing, `first` and
`last` make no value of their own. Each field is an equation of one primitive operation. -/
theorem HandingLaws.all (σ : Store) : HandingLaws σ where
  bound := evalStatement_binding_iff _ _ _
  kept h x v := evalIdentifier_of_binds (Store.binds_bind h x v)
  lookedUp {scope x v τ i} hi := by
    rw [evalIdentifier_eq, Option.some.injEq, Prod.mk.injEq, eq_comm (a := σ), and_comm]
    refine and_congr_right fun _ => ?_
    unfold Store.meaning
    cases σ.lookup scope x with
    | some w => simp
    | none =>
        -- A native function has no identity, and neither has an error.
        simp only [reduceCtorEq, iff_false]
        split <;> rintro rfl <;> cases hi
  passed {limit eval i f args} h :=
    ⟨σ.enter f.scope f.parameters args, applyValue_function limit eval h i σ,
      fun hname harg hlast =>
        evalIdentifier_of_binds (Store.binds_enter σ f.scope hname harg hlast)⟩
  element {i j vs n v} hi := by
    show elementAt vs n = v ↔ _
    unfold elementAt
    by_cases hn : n < 0
    · rw [if_pos hn]
      simp only [hn, not_true_eq_false, false_and, iff_false]
      rintro rfl
      cases hi
    · rw [if_neg hn, Value.getD_null_eq_iff hi]
      exact (and_iff_right hn).symm
  entry {i j t key v} hi := by
    rw [Value.index]
    cases hkey : key.hashKey? with
    | none =>
        simp only [reduceCtorEq, false_and, exists_false, iff_false]
        rintro rfl
        cases hi
    | some k => simp [Value.getD_null_eq_iff hi]
  first {i j vs v τ} hi := by
    show some (vs.head?.getD .null, σ) = some (v, τ) ↔ _
    rw [Option.some.injEq, Prod.mk.injEq, Value.getD_null_eq_iff hi, eq_comm (a := σ), and_comm]
  last {i j vs v τ} hi := by
    show some (vs.getLast?.getD .null, σ) = some (v, τ) ↔ _
    rw [Option.some.injEq, Prod.mk.injEq, Value.getD_null_eq_iff hi, eq_comm (a := σ), and_comm]

/-! ### Every moment -/

/-- At every moment of a chronicle an identity belongs to one value only, and what is made next has
one that nothing had. The first is a look into the ledger of `Chronicle.recorded`, the others that
the new identity is its length. -/
theorem Chronicle.identityLaws {σ : Store} {past : List Sighting} (h : Chronicle σ past) :
    IdentityLaws σ past := by
  obtain ⟨w, hσ, hpast⟩ := h.recorded
  have hmet : RecordedIn w (.state σ :: past) :=
    (RecordedIn.of_sees (s := .state σ) ⟨σ, hσ⟩).append hpast
  -- One value for an identity; a new one for a literal; a new one for `rest` and `push`.
  refine ⟨?_, ?_, ?_⟩
  · rintro u v i ⟨s, hs, hu⟩ ⟨t, ht, hv⟩ hi hj
    have hget := hmet s hs u hu i hi
    rw [hmet t ht v hv i hj] at hget
    exact (Option.some.inj hget).symm
  · intro e limit depth scope v τ he hends hv
    rw [← Watched.outcome_evalExpr] at hends
    obtain ⟨parts, w', hseen, hpasses, hi⟩ := Likeness.ledger_literal he hσ hends hv
    refine ⟨.state σ :: parts, w'.length, hseen, hi, ?_⟩
    have hparts : RecordedIn w' (.state σ :: (past ++ .state σ :: parts)) :=
      (hmet.mono hpasses.later).append
        (((RecordedIn.of_sees (s := .state σ) ⟨σ, hσ⟩).mono hpasses.later).append
          (RecordedIn.of_passes hpasses))
    rintro u ⟨s, hs, hu⟩
    exact hparts.ne_length hs hu
  · rintro b args vs i τ hb hends u ⟨s, hs, hu⟩
    rw [Builtin.identity_of_apply hb hends, hσ.2.1]
    exact hmet.ne_length hs hu

/-- Identities and equality, whatever programs have been evaluated from a fresh root and however far
the last one has come. Put together from `Chronicle.identityLaws`, `HandingLaws.all` and the laws of
`==` on values.

Values that share an identity are one value. Every literal of an array, a hash or a function, and
every array that `rest` or `push` gives, has an identity that no earlier value had; binding, looking
up, passing, indexing, `first` and `last` keep the identity, because they hand on the value itself.
On values that are no signals `==` and `!=` answer if they are of one kind other than strings, and
are errors otherwise. Where it answers `==` is an equivalence, it implies that a host takes the
values for equal, and on integers, truth values, null and native functions it says the same. -/
theorem Chronicle.identity_and_equality {σ : Store} {past : List Sighting}
    (h : Chronicle σ past) :
    IdentityLaws σ past ∧ HandingLaws σ ∧
      EqualityLaws fun a => Met σ past a ∧ a.isSignal = false := by
  have hidentity : IdentityLaws σ past := h.identityLaws
  refine ⟨hidentity, .all σ, .of_unique (fun _ ha => ha.2) ?_⟩
  intro a b i ha hb hi hj
  exact hidentity.unique ha.1 hb.1 hi hj

/-- An array is bound, passed, stored, and got back by `first`, and another one with the same
contents is made by `rest` and `push`: the first is equal to itself throughout and the second to
nothing before it. -/
theorem Chronicle.identity_and_equality_of_copies :
    let p : Program := ⟨[.binding "a" (.array [.integer 1]),
      .expression (.call (.function ["x"] [.expression (.array [
        .binary .equal (.identifier "x") (.identifier "a"),
        .binary .equal (.call (.identifier "first") [.array [.identifier "x"]]) (.identifier "a"),
        .binary .equal (.call (.identifier "push")
          [.call (.identifier "rest") [.identifier "x"], .integer 1]) (.identifier "x")])])
        [.identifier "a"])]⟩
    let σ := (Store.empty.addScope none).2
    ∃ v τ, p.run none 9 0 σ = some (v, τ) ∧ v.inspect = "[true, true, false]" ∧
      τ.identities = 6 ∧
      let past := (p.watched none 9 0 σ).seen ++ [.result v]
      IdentityLaws τ past ∧ HandingLaws τ ∧
        EqualityLaws fun a => Met τ past a ∧ a.isSignal = false := by
  intro p σ
  have hends : ((p.run none 9 0 σ).map fun a => (a.1.inspect, a.2.identities)) =
      some ("[true, true, false]", 6) := by
    subst p σ
    decide +kernel
  obtain ⟨⟨v, τ⟩, hrun, heq⟩ := Option.map_eq_some_iff.1 hends
  obtain ⟨hinspect, hidentities⟩ := Prod.mk.inj heq
  have h : Chronicle τ ([] ++ (p.watched none 9 0 σ).seen ++ [.result v]) :=
    .ran (.scope .fresh none) hrun
  rw [List.nil_append] at h
  exact ⟨v, τ, hrun, hinspect, hidentities, h.identity_and_equality⟩

end Monkey
