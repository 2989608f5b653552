import Monkey.Proofs.Eval.Transport

/-!
# `Monkey.Proofs.Eval.Depth`: the depth of an evaluation does not show

An evaluation that ends within some depth ends in the same way within any
larger one. So a run either ends, in one way only, or it ends at no depth;
`Program.Ends` says that it ends and how, without a depth.
-/

set_option autoImplicit false

namespace Monkey

/-- Wherever `x` ends, `y` ends in the same way. -/
def EndsAlike (x y : Eval Value) : Prop := ∀ σ r, x σ = some r → y σ = some r

/-- Every evaluation ends as it does: `EndsAlike` is reflexive, and holds of primitives for that
reason. -/
theorem endsAlike_refl (x : Eval Value) : EndsAlike x x := fun _ _ h => h

/-- Ending in the same way is respected by evaluation. An instance of `Congruent` with one relation
on both levels, since nothing is lost from one level of nesting to the next. -/
theorem congruent_endsAlike (limit : Option Nat) :
    Congruent limit limit (fun _ => True) EndsAlike EndsAlike where
  hereditary := hereditary_true
  weaken h := h
  counted {x y} h σ r hx := by
    -- Both count the step from the same store, so the limit cuts both or neither.
    by_cases hlimit : Exceeds (σ.steps + 1) limit
    · cases limit with
      | none => exact hlimit.elim
      | some n =>
          rw [counted_of_lt hlimit] at hx ⊢
          exact hx
    · rw [counted_of_not_exceeds hlimit] at hx ⊢
      exact h σ.tick r hx
  unlessSignal {x y f g} h hnext σ r hx := by
    obtain ⟨v, τ, hfirst, ⟨hv, rfl⟩ | ⟨hv, hrest⟩⟩ := unlessSignal_eq_some hx
    · exact unlessSignal_of_isSignal (h σ _ hfirst) hv
    · rw [unlessSignal_of_value (h σ _ hfirst) hv]
      exact hnext v hv trivial τ r hrest
  primitive _ := endsAlike_refl _
  returned _ := endsAlike_refl _
  inScope outer names args body body' _ h σ r hx := by
    obtain ⟨v, τ, hbody, rfl⟩ := inScope_eq_some hx
    exact inScope_of_some (h _ _ _ hbody)

/-- What ends within a depth ends in the same way within one more level. By induction on the depth,
with `congruent_endsAlike` for the step. -/
theorem evalExpr_endsAlike_succ (limit : Option Nat) (depth : Nat) (scope : ScopeId) (e : Expr) :
    EndsAlike (evalExpr limit depth scope e) (evalExpr limit (depth + 1) scope e) := by
  induction depth generalizing scope e with
  | zero =>
      intro σ r h
      cases h
  | succ depth ih => exact (congruent_endsAlike limit).node ih scope e

/-- What ends within a depth ends in the same way within any larger one: `evalExpr_endsAlike_succ`
as often as needed. -/
theorem evalExpr_endsAlike {limit : Option Nat} {depth depth' : Nat} (h : depth ≤ depth')
    (scope : ScopeId) (e : Expr) :
    EndsAlike (evalExpr limit depth scope e) (evalExpr limit depth' scope e) := by
  induction h with
  | refl => exact endsAlike_refl _
  | step _ ih => exact fun σ r hr => evalExpr_endsAlike_succ limit _ scope e σ r (ih σ r hr)

/-! ### Programs -/

/-- Settling changes nothing but a value on its way to a caller, so it leaves what is no signal
alone. -/
theorem Value.settle_of_value {v : Value} (hv : v.isSignal = false) : v.settle = v := by
  cases v with
  | returned => cases hv
  | _ => rfl

/-- A program runs by evaluating its statements with no step counted before them, and settling what
they end with. The form of `Program.run` in which `evalBlock` is met. -/
theorem Program.run_eq (p : Program) (limit : Option Nat) (depth : Nat) (scope : ScopeId)
    (σ : Store) :
    p.run limit depth scope σ =
      (evalBlock limit (evalExpr limit depth) scope p.statements σ.rewind).map
        fun r => (r.1.settle, r.2) := by
  show (evalBlock limit (evalExpr limit depth) scope p.statements σ.rewind).bind _ = _
  cases evalBlock limit (evalExpr limit depth) scope p.statements σ.rewind <;> rfl

/-- A program that ends has settled what its statements have ended with, and conversely. Proofs
about runs rewrite with it in both directions. -/
theorem Program.run_eq_some {p : Program} {limit : Option Nat} {depth : Nat} {scope : ScopeId}
    {σ τ : Store} {w : Value} :
    p.run limit depth scope σ = some (w, τ) ↔
      ∃ v, evalBlock limit (evalExpr limit depth) scope p.statements σ.rewind = some (v, τ) ∧
        v.settle = w := by
  rw [Program.run_eq, Option.map_eq_some_iff]
  constructor
  · rintro ⟨⟨v, τ'⟩, h, heq⟩
    cases heq
    exact ⟨v, h, rfl⟩
  · rintro ⟨v, h, rfl⟩
    exact ⟨(v, τ), h, rfl⟩

/-- A program that ends within a depth ends in the same way within any larger one. It lets two runs
be compared at a common depth. -/
theorem Program.run_of_le {p : Program} {limit : Option Nat} {depth depth' : Nat}
    {scope : ScopeId} {σ : Store} {r : Value × Store} (hle : depth ≤ depth')
    (h : p.run limit depth scope σ = some r) : p.run limit depth' scope σ = some r := by
  obtain ⟨v, hblock, hv⟩ := Program.run_eq_some.1 h
  have halike : EndsAlike (evalBlock limit (evalExpr limit depth) scope p.statements)
      (evalBlock limit (evalExpr limit depth') scope p.statements) :=
    (congruent_endsAlike limit).block (evalExpr_endsAlike hle) scope p.statements
  exact Program.run_eq_some.2 ⟨v, halike _ _ hblock, hv⟩

/-- A program of one expression settles what the expression gives, with one step counted for the
statement. -/
theorem Program.run_expression {e : Expr} {depth : Nat} {scope : ScopeId} {σ τ : Store} {v : Value}
    (h : evalExpr none depth scope e σ.rewind.tick = some (v, τ)) :
    (Program.mk [.expression e]).run none depth scope σ = some (v.settle, τ) := by
  have hstatement : evalStatement none (evalExpr none depth) scope (.expression e) σ.rewind =
      some (v, τ) := h
  refine Program.run_eq_some.2 ⟨v, ?_, rfl⟩
  show unlessSignal (evalStatement none (evalExpr none depth) scope (.expression e)) _ _ = _
  cases hv : v.isSignal with
  | true => exact unlessSignal_of_isSignal hstatement hv
  | false =>
      rw [unlessSignal_of_value hstatement hv]
      rfl

/-- The program, run in a scope of the store `σ`, ends with the value `v` and the store `τ`. -/
def Program.Ends (p : Program) (limit : Option Nat) (scope : ScopeId) (σ : Store) (v : Value)
    (τ : Store) : Prop :=
  ∃ depth, p.run limit depth scope σ = some (v, τ)

/-- A program ends in one way only: two depths at which it ends are compared at the larger one, by
`run_of_le`. -/
theorem Program.Ends.unique {p : Program} {limit : Option Nat} {scope : ScopeId}
    {σ τ τ' : Store} {v v' : Value} (h : p.Ends limit scope σ v τ)
    (h' : p.Ends limit scope σ v' τ') : v = v' ∧ τ = τ' := by
  obtain ⟨depth, h⟩ := h
  obtain ⟨depth', h'⟩ := h'
  have hsame := (Program.run_of_le (Nat.le_max_left depth depth') h).symm.trans
    (Program.run_of_le (Nat.le_max_right depth depth') h')
  cases hsame
  exact ⟨rfl, rfl⟩

end Monkey
