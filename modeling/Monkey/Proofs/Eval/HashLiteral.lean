import Monkey.Proofs.Eval.Sequence
import Monkey.Proofs.Value.Keys

/-!
# `Monkey.Proofs.Eval.HashLiteral`: what a hash literal makes

A hash literal evaluates its keys and values from left to right and files
each pair as soon as it has been evaluated. If all of them have values and
the keys can be keys, what it makes is the table of these pairs, and what
that table has for a key is told from the pairs alone: the value that was
written last for it.

* `PairsYield` says to which keys and values the expressions of a literal
  evaluate, one after another; `PairsYield.evalPairs` is what the loop
  makes of them.
* `evalExpr_hash_of_yield` is the value of a literal, and
  `hash_literal_last_wins` says what is in it.
-/

set_option autoImplicit false

namespace Monkey

/-! ### From pairs of expressions to pairs of values -/

/-- The keys and values of a literal evaluate in order to these keys and values, none of which is a
signal. The first store is the one before, the last the one after. -/
inductive PairsYield (eval : Evaluator) (scope : ScopeId) :
    List (Expr × Expr) → Store → List (Value × Value) → Store → Prop where
  | nil (σ : Store) : PairsYield eval scope [] σ [] σ
  | cons {k v : Expr} {rest : List (Expr × Expr)} {K V : Value} {kvs : List (Value × Value)}
      {σ ρ π τ : Store} (hk : eval scope k σ = some (K, ρ)) (hK : K.isSignal = false)
      (hv : eval scope v ρ = some (V, π)) (hV : V.isSignal = false)
      (h : PairsYield eval scope rest π kvs τ) :
      PairsYield eval scope ((k, v) :: rest) σ ((K, V) :: kvs) τ

/-- The loop files the pairs of values behind those that it has filed before. By induction on
`PairsYield`, with the table left free; `hkeys` keeps the loop from stopping at a key that cannot be
filed. -/
theorem PairsYield.evalPairs {eval : Evaluator} {scope : ScopeId} {pairs : List (Expr × Expr)}
    {kvs : List (Value × Value)} {σ τ : Store} (h : PairsYield eval scope pairs σ kvs τ)
    (hkeys : ∀ p ∈ kvs, p.1.IsKey) (t : Table Value) (next : Table Value → Eval Value) :
    (evalPairs eval scope t pairs >>= orSignal next) σ =
      next (t.insertAll (History.ofPairs kvs)) τ := by
  induction h generalizing t with
  | nil => rfl
  | @cons k v rest K V kvs σ ρ π τ hk hK hv hV _ ih =>
      obtain ⟨hkey, hrest⟩ := List.forall_mem_cons.1 hkeys
      obtain ⟨j, hj⟩ := Value.isKey_iff.1 hkey
      -- The first pair is filed before the others are evaluated.
      rw [evalPairs_cons_bind, unlessSignal_of_value hk hK]
      simp only [hj]
      rw [unlessSignal_of_value hv hV, ih hrest, History.ofPairs_cons (p := (K, V)) hj]
      rfl

/-- A literal makes the table of its pairs, with the next identity of the store. The step for the
literal itself is counted first, within the limit by `hlimit`. -/
theorem evalExpr_hash_of_yield {limit : Option Nat} {depth : Nat} {scope : ScopeId}
    {pairs : List (Expr × Expr)} {kvs : List (Value × Value)} {σ τ : Store}
    (hlimit : ¬Exceeds (σ.steps + 1) limit)
    (h : PairsYield (evalExpr limit depth) scope pairs σ.tick kvs τ)
    (hkeys : ∀ p ∈ kvs, p.1.IsKey) :
    evalExpr limit (depth + 1) scope (.hash pairs) σ =
      some (.hash τ.identities (Table.ofPairs kvs), τ.addIdentity.2) := by
  show evalNode limit (evalExpr limit depth) scope (.hash pairs) σ = _
  rw [evalNode_hash, counted_of_not_exceeds hlimit, h.evalPairs hkeys]
  rfl

/-! ### What is in it -/

/-- In a hash literal the last value of a key wins. The evaluation gives `Table.ofPairs kvs`, and
the rest is what is known of such tables.

Let the keys and values of a literal evaluate in order to `kvs`, each key to an integer, a boolean
or a string. Then the literal makes a hash. For any key, the hash has the value of the last pair
with that key, and null if there is no such pair. It has one pair for each key that occurs, in the
order in which the keys occur first, and shows them so. Two keys have one hash key exactly if they
are the same to a host. -/
theorem hash_literal_last_wins {limit : Option Nat} {depth : Nat} {scope : ScopeId}
    {pairs : List (Expr × Expr)} {kvs : List (Value × Value)} {σ τ : Store}
    (hlimit : ¬Exceeds (σ.steps + 1) limit)
    (h : PairsYield (evalExpr limit depth) scope pairs σ.tick kvs τ)
    (hkeys : ∀ p ∈ kvs, p.1.IsKey) :
    (∃ t : Table Value,
      let hash := Value.hash τ.identities t
      let keys := (kvs.map Prod.fst).eraseDups
      evalExpr limit (depth + 1) scope (.hash pairs) σ = some (hash, τ.addIdentity.2) ∧
      (∀ K : Value, K.IsKey →
        (∀ earlier V later, kvs = earlier ++ (K, V) :: later → (∀ p ∈ later, p.1 ≠ K) →
          hash.index K = V) ∧
        ((∀ p ∈ kvs, p.1 ≠ K) → hash.index K = .null)) ∧
      t.size = keys.length ∧
      t.pairs = keys.map (fun K => (K, hash.index K)) ∧
      hash.inspect = "\x7b" ++
        ", ".intercalate (keys.map fun K => K.inspect ++ ": " ++ (hash.index K).inspect) ++
          "\x7d") ∧
    ∀ a b : Value, a.IsKey → b.IsKey → (a.hashKey? = b.hashKey? ↔ (a == b) = true) := by
  refine ⟨⟨Table.ofPairs kvs, evalExpr_hash_of_yield hlimit h hkeys, fun K hK => ⟨?_, ?_⟩, ?_, ?_,
    ?_⟩, fun a b ha hb => Value.hashKey?_eq_iff ha hb⟩
  · rintro earlier V later rfl hlater
    exact Table.index_ofPairs_of_last hK _ V hlater
  · exact Table.index_ofPairs_of_unused hK _
  · rw [Table.size, Table.pairs_ofPairs hkeys τ.identities, List.length_map]
  · exact Table.pairs_ofPairs hkeys _
  · have hinspect : (Value.hash τ.identities (Table.ofPairs kvs)).inspect =
        "\x7b" ++ ", ".intercalate (Value.inspectPairs (Table.ofPairs kvs).pairs) ++ "\x7d" := by
      rw [Value.inspect]
    rw [hinspect, Value.inspectPairs_eq_map, Table.pairs_ofPairs hkeys τ.identities, List.map_map]
    rfl

/-- The largest bits stand for `-1`, and the truth value `true` has the bits of `1`: each is a key
of its own. Only `-1` is written twice, and its second value stands at its first place. -/
theorem hash_literal_last_wins_of_mixed_keys :
    let pairs : List (Expr × Expr) :=
      [(.unary .negate (.integer 1), .string "a"), (.boolean true, .string "b"),
        (.integer 1, .string "c"), (.unary .negate (.integer 1), .string "d")]
    let kvs : List (Value × Value) :=
      [(.integer (-1), .string "a"), (.boolean true, .string "b"),
        (.integer 1, .string "c"), (.integer (-1), .string "d")]
    let τ : Store := ⟨#[], 0, "", 11⟩
    PairsYield (evalExpr none 2) 0 pairs Store.empty.tick kvs τ ∧
      (∀ p ∈ kvs, p.1.IsKey) ∧
      ∃ t : Table Value,
        evalExpr none 3 0 (.hash pairs) Store.empty =
          some (.hash τ.identities t, τ.addIdentity.2) ∧
        t.size = 3 ∧ (Value.hash τ.identities t).index (.integer (-1)) = .string "d" ∧
        (Value.hash τ.identities t).index (.integer 2) = .null ∧
        (Value.hash τ.identities t).inspect = "\x7b-1: d, true: b, 1: c\x7d" := by
  intro pairs kvs τ
  have hyield : PairsYield (evalExpr none 2) 0 pairs Store.empty.tick kvs τ :=
    .cons rfl rfl rfl rfl (.cons rfl rfl rfl rfl (.cons rfl rfl rfl rfl
      (.cons rfl rfl rfl rfl (.nil _))))
  have hkeys : ∀ p ∈ kvs, p.1.IsKey := by
    subst kvs
    simp [Value.IsKey, Value.kind]
  have hlimit : ¬Exceeds (Store.empty.steps + 1) none := id
  obtain ⟨⟨t, heval, hindex, hsize, -, -⟩, -⟩ := hash_literal_last_wins hlimit hyield hkeys
  refine ⟨hyield, hkeys, t, heval, ?_, ?_, ?_, ?_⟩
  · rw [hsize]
    decide +kernel
  -- The last pair is the one that counts: three stand in front of it and none behind.
  · refine (hindex _ (by simp [Value.IsKey, Value.kind])).1 [_, _, _] _ [] rfl ?_
    simp
  · refine (hindex _ (by simp [Value.IsKey, Value.kind])).2 ?_
    subst kvs
    simp
  · have hshown : ((evalExpr none 3 0 (.hash pairs) Store.empty).map fun a => a.1.inspect) =
        some "\x7b-1: d, true: b, 1: c\x7d" := by
      subst pairs
      decide +kernel
    rw [heval] at hshown
    exact Option.some.inj hshown

end Monkey
