import Monkey.Proofs.Eval.Likeness
import Monkey.Proofs.Value.Sameness

/-!
# `Monkey.Proofs.Eval.Ledger`: identities belong to one value each

An identity is given out when an array, a hash or a function is made, and
goes with the value wherever that is handed on. A *ledger* is the list of
the values that were made, in order, so that an identity is a place in it.
Every value that is met in an evaluation agrees with the ledger in all of
its parts (`Value.Recorded`), and the ledger has as many entries as the
store has given out identities. That is a likeness of a store and itself,
in a world that is the ledger (`Likeness.ledger`).

What a literal makes is entered in the ledger after all that was seen of
its parts (`Likeness.ledger_literal`). Those parts are evaluated by a loop
that does not know what its values are for (`Watched.Gathers`), so that
one in which nothing is made tells the ledger up to there.
-/

set_option autoImplicit false

namespace Monkey

/-! ### The ledger -/

/-- Every part of the value that has an identity is the value which the ledger has there. -/
def Value.Recorded (w : List Value) (v : Value) : Prop :=
  ∀ u : Value, u.PartOf v → ∀ i, u.identity? = some i → w[i]? = some u

namespace Value.Recorded

variable {w w' : List Value}

/-- An entry of the ledger `w` stands at the same place of every ledger that goes on from `w`.
Identities are places in it, so they keep their meaning. -/
theorem getElem?_of_prefix (hw : w <+: w') {i : Identity} {u : Value} (h : w[i]? = some u) :
    w'[i]? = some u := by
  obtain ⟨more, rfl⟩ := hw
  rw [List.getElem?_append_left (List.getElem?_eq_some_iff.1 h).1, h]

/-- A value that is recorded stays so as the ledger grows, since `getElem?_of_prefix` holds of every
part that has an identity. -/
theorem mono (hw : w <+: w') {v : Value} (h : v.Recorded w) : v.Recorded w' :=
  fun u hu i hi => getElem?_of_prefix hw (h u hu i hi)

/-- What is recorded in `w` is closed downward: a part of a part is a part. A number, text, truth
value or builtin has no identity and is recorded in any ledger. -/
theorem downwardClosed (w : List Value) : DownwardClosed (Value.Recorded w) where
  integer n u hu i hi := by cases hu; cases hi
  boolean b u hu i hi := by cases hu; cases hi
  string content u hu i hi := by cases hu; cases hi
  null u hu i hi := by cases hu; cases hi
  builtin b u hu i hi := by cases hu; cases hi
  element h v hv u hu := h u (.element hv hu)
  entry h p hp := ⟨fun u hu => h u (.key hp hu), fun u hu => h u (.entry hp hu)⟩
  returned h u hu := h u (.returned hu)

/-- What arrives as a recorded value is recorded, also when it arrives inside a return value: that
wrapper has no identity, so `PartOf` says nothing new of it. -/
theorem of_arrives {v : Value} (h : v.Arrives (Value.Recorded w)) : v.Recorded w := by
  cases v with
  | returned v =>
      intro u hu i hi
      cases hu with
      | whole => cases hi
      | returned hu => exact h u hu i hi
  | error fault =>
      intro u hu i hi
      cases hu
      cases hi
  | _ => exact h

/-- A value that is made of recorded values is entered at the end of the ledger, where its identity
`w.length` is. Its parts keep their entries, by `mono`. -/
theorem made {make : Identity → Value}
    (h : Composed (fun _ => True) (Value.Recorded w) (fun _ => True) make) :
    (make w.length).Recorded (w ++ [make w.length]) := by
  have hlater : w <+: w ++ [make w.length] := List.prefix_append _ _
  have hlast : (w ++ [make w.length])[w.length]? = some (make w.length) :=
    List.getElem?_concat_length
  -- The value itself is the new entry, and its parts were recorded before.
  cases h with
  | array hvs =>
      intro u hu i hi
      cases hu with
      | whole =>
          cases hi
          exact hlast
      | element hv hu => exact (hvs _ hv).mono hlater u hu i hi
  | hash ht =>
      intro u hu i hi
      cases hu with
      | whole =>
          cases hi
          exact hlast
      | key hp hu => exact (ht _ hp).1.mono hlater u hu i hi
      | entry hp hu => exact (ht _ hp).2.mono hlater u hu i hi
  | function =>
      intro u hu i hi
      cases hu with
      | whole =>
          cases hi
          exact hlast

end Value.Recorded

/-- A store is like itself where all that it holds is recorded, and no identity has been given out
that the ledger does not have. -/
def Likeness.ledger : Likeness (fun _ => True) (List Value) where
  later w w' := w <+: w'
  value w v := v.Recorded w
  scope _ _ := True
  stores w σ τ := σ = τ ∧ σ.identities = w.length ∧ σ.Holds (Value.Recorded w)
  refl := List.prefix_refl
  trans := List.IsPrefix.trans
  value_later hw hv := hv.mono hw
  scope_later _ _ := trivial
  downward := Value.Recorded.downwardClosed
  closure _ := ⟨trivial, fun _ _ => trivial⟩
  steps h := h.1 ▸ rfl
  withSteps _ h := ⟨h.1 ▸ rfl, h.2⟩
  print _ h := ⟨h.1 ▸ rfl, h.2⟩
  lookup h _ _ := ⟨h.1 ▸ rfl, fun _ hv => h.2.2.lookup hv⟩
  bind h _ _ hv := ⟨h.1 ▸ rfl, h.2.1, h.2.2.bind _ _ hv⟩
  addIdentity {w σ τ make} h hmade := by
    obtain ⟨rfl, hidentities, hσ⟩ := h
    have hlater : w <+: w ++ [make w.length] := List.prefix_append _ _
    refine ⟨w ++ [make w.length], hlater, rfl, ?_, rfl, ?_, fun s hs b hb =>
      (hσ s hs b hb).mono hlater⟩
    · rw [hidentities]
      exact .made hmade
    · rw [List.length_append, ← hidentities]
      rfl
  addScope {w σ τ outer} h _ := by
    obtain ⟨rfl, hidentities, hσ⟩ := h
    exact ⟨w, List.prefix_rfl, rfl, trivial, rfl, hidentities, hσ.addScope _⟩

/-! ### Values made by literals -/

/-- Array, hash and function literals. -/
def Expr.makesValue : Expr → Bool
  | .array _ => true
  | .hash _ => true
  | .function _ _ => true
  | _ => false

namespace Likeness

variable {w : List Value} {limit : Option Nat} {σ ρ : Store} {v : Value}

/-- What all literals have in common: a loop gathers values and `make` turns them into one. That
value is entered in the ledger after everything that was seen of the loop. `Watched.Gathers`
separates the loop that a signal cuts short, which the hypothesis `hv` excludes. -/
theorem ledger_make {α : Type} {loop : (α → Watched) → Watched} {make : α → Eval Value}
    {o : Option (Value × Store)} (made : α → Identity → Value)
    (hmake : ∀ a τ, make a τ = some (made a τ.identities, τ.addIdentity.2))
    (hmade : ∀ a i, (made a i).identity? = some i)
    (hloop : Watched.Gathers loop σ.tick)
    (hbears : ledger.Bears w (loop (fun _ => .unseen (pure .null)) σ.tick) o)
    (hends : (Watched.observed (.counted limit (loop fun a => .unseen (make a))) σ).outcome =
      some (v, ρ))
    (hv : v.isSignal = false) :
    ∃ earlier w', (Watched.observed (.counted limit (loop fun a => .unseen (make a))) σ).seen =
        (.state σ :: earlier) ++ [.result v, .state ρ] ∧
      ledger.Passes w earlier w' ∧ v.identity? = some w'.length := by
  obtain ⟨houtcome, hseen⟩ := Watched.observed_counted_of_value hends hv
  cases hloop with
  | cut r hr h =>
      rw [h] at houtcome
      rw [hr v ρ houtcome] at hv
      cases hv
  | gathered earlier a τ h =>
      rw [h] at houtcome hseen hbears
      -- Up to the store in which the value is made, the loop is as if nothing were made.
      obtain ⟨w₁, hpasses, hended⟩ := hbears
      obtain ⟨w', _, -, hw, -, -, hidentities, -⟩ := hended.of_left
      have hearlier : ledger.Passes w ((earlier ++ []) ++ []) w' := hpasses.append (.done hw)
      rw [List.append_nil] at hearlier
      refine ⟨earlier ++ [], w', hseen, hearlier, ?_⟩
      have hvalue : some (made a τ.identities, τ.addIdentity.2) = some (v, ρ) :=
        (hmake a τ).symm.trans houtcome
      cases hvalue
      rw [hmade, hidentities]

/-- What a literal evaluates to is entered in the ledger after all that was seen of its parts. One
case per kind of literal supplies the loop of `ledger_make`; a function has none. -/
theorem ledger_literal {e : Expr} (he : e.makesValue = true) {depth : Nat} {scope : ScopeId}
    (hσ : ledger.stores w σ σ)
    (hends : (Watched.evalExpr limit depth scope e σ).outcome = some (v, ρ))
    (hv : v.isSignal = false) :
    ∃ earlier w', (Watched.evalExpr limit depth scope e σ).seen =
        (.state σ :: earlier) ++ [.result v, .state ρ] ∧
      ledger.Passes w earlier w' ∧ v.identity? = some w'.length := by
  cases depth with
  | zero => cases hends
  | succ depth =>
      have htick : ledger.stores w σ.tick σ.tick := ledger.withSteps _ hσ
      have hnull (w' : List Value) : ledger.Accords w' (.unseen (pure .null)) (pure .null) :=
        give (ledger.downward w').null
      have hagree := ledger.expr limit depth
      cases e with
      | array es =>
          have hloop : ledger.Accords w
              (Watched.evalEach (Watched.evalExpr limit depth) scope es fun _ =>
                .unseen (pure .null))
              (evalEach (evalExpr limit depth) scope es >>= orSignal fun _ => pure .null) :=
            each hagree trivial (fun _ _ => trivial) fun w' _ _ _ => hnull w'
          exact ledger_make (fun vs i => .array i vs) (fun _ _ => rfl) (fun _ _ => rfl)
            (Watched.gathers_evalEach _ _ _ _) (hloop _ _ htick) hends hv
      | hash ps =>
          have hloop : ledger.Accords w
              (Watched.evalPairs (Watched.evalExpr limit depth) scope .empty ps fun _ =>
                .unseen (pure .null))
              (evalPairs (evalExpr limit depth) scope .empty ps >>= orSignal fun _ => pure .null) :=
            pairs hagree trivial (fun _ _ => trivial) (fun _ hp => absurd hp List.not_mem_nil)
              fun w' _ _ _ => hnull w'
          exact ledger_make (fun t i => .hash i t) (fun _ _ => rfl) (fun _ _ => rfl)
            (Watched.gathers_evalPairs _ _ _ _ _) (hloop _ _ htick) hends hv
      | function names body =>
          -- Nothing is gathered for a function.
          have hloop : Watched.Gathers (fun next : Unit → Watched => next ()) σ.tick :=
            .gathered [] () σ.tick fun _ => rfl
          exact ledger_make (fun _ i => .function i ⟨names, body, scope⟩) (fun _ _ => rfl)
            (fun _ _ => rfl) hloop (hnull w _ _ htick) hends hv
      | _ => cases he

end Likeness

end Monkey
