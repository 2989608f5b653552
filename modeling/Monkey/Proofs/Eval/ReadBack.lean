import Monkey.Proofs.Eval.Depth
import Monkey.Proofs.Eval.HashLiteral
import Monkey.Proofs.Eval.Signals
import Monkey.Proofs.Syntax.Magnitude
import Monkey.Proofs.Value.Plain

/-!
# `Monkey.Proofs.Eval.ReadBack`: the text of plain data evaluates to it

The text of plain data is a literal of it: what its lexemes write is an
expression that evaluates to the same data, wherever and in whatever state
it is evaluated. A negative integer is read as the negation of a number,
and that is where the text of one integer fails: the digits of the least
one are too large for a number, so no text that shows it is a program.

* `Expr.Rebuilds` says that an expression evaluates to the same data;
  `EachRebuilds` and `PairsRebuild` say it of lists and of pairs.
* `Value.HasLiteral` says that a value's text writes such an expression;
  `Value.Plain.hasLiteral` that the text of plain data does, if the least
  integer is no part of it.
* `interpret_inspect_iff` is the result for texts.
-/

set_option autoImplicit false

namespace Monkey

/-! ### Values that are the same -/

/-- Only signals are the same as a signal, since `Value.same` compares values of one kind only.
Whether a rebuilt value is handed on is then known from the original. -/
theorem Value.isSignal_of_same {v w : Value} (h : Value.same v w = true) :
    w.isSignal = v.isSignal := by
  cases v <;> cases w <;> first | rfl | simp [same] at h

/-- Pairs that are the same have the same keys, if these can be keys: on such values `Value.same` is
equality. The values under them may differ in their identities. -/
theorem Value.keys_of_samePairs {ps qs : List (Value × Value)} (hkeys : ∀ p ∈ ps, p.1.IsKey)
    (h : Value.samePairs ps qs = true) : ps.map Prod.fst = qs.map Prod.fst := by
  induction ps generalizing qs with
  | nil =>
      cases qs with
      | nil => rfl
      | cons q qs => simp [samePairs] at h
  | cons p ps ih =>
      cases qs with
      | nil => simp [samePairs] at h
      | cons q qs =>
          obtain ⟨hp, hps⟩ := List.forall_mem_cons.1 hkeys
          simp only [samePairs, Bool.and_eq_true] at h
          obtain ⟨⟨hkey, -⟩, hrest⟩ := h
          -- Of the values under the keys nothing is asked.
          rw [List.map_cons, List.map_cons, (beq_iff_eq_of_isKey hp q.1).1 hkey, ih hps hrest]

/-! ### Evaluating to the same data -/

/-- No scope and nothing that has been printed is different. -/
structure Store.Untouched (σ τ : Store) : Prop where
  scopes : τ.scopes = σ.scopes
  printed : τ.printed = σ.printed

/-- Every store is untouched by doing nothing to it. Where a list of parts comes to its end, this is
all that is said of the store. -/
theorem Store.untouched_refl (σ : Store) : σ.Untouched σ := ⟨rfl, rfl⟩

/-- What touches nothing twice touches nothing. The steps and identities may differ, so `Untouched`
is not equality, and has to be composed by hand. -/
theorem Store.Untouched.trans {σ τ ρ : Store} (h : σ.Untouched τ) (h' : τ.Untouched ρ) :
    σ.Untouched ρ := ⟨h'.scopes.trans h.scopes, h'.printed.trans h.printed⟩

/-- The expression evaluates to the same data in any scope of any store, and touches nothing. -/
def Expr.Rebuilds (depth : Nat) (e : Expr) (v : Value) : Prop :=
  ∀ (scope : ScopeId) (σ : Store), ∃ w τ, evalExpr none depth scope e σ = some (w, τ) ∧
    Value.same v w = true ∧ σ.Untouched τ

/-- The loop over the expressions gathers the same data as is in the list. -/
def EachRebuilds (depth : Nat) (es : List Expr) (vs : List Value) : Prop :=
  ∀ (scope : ScopeId) (σ : Store), ∃ ws τ,
    (∀ next, (evalEach (evalExpr none depth) scope es >>= orSignal next) σ = next ws τ) ∧
      Value.sameList vs ws = true ∧ σ.Untouched τ

/-- Keys and values evaluate in order to the same pairs. -/
def PairsRebuild (depth : Nat) (es : List (Expr × Expr)) (ps : List (Value × Value)) : Prop :=
  ∀ (scope : ScopeId) (σ : Store), ∃ qs τ,
    PairsYield (evalExpr none depth) scope es σ qs τ ∧
      Value.samePairs ps qs = true ∧ σ.Untouched τ

section

variable {depth : Nat}

/-- What evaluates within a depth does so within a larger one, with the same value and store, by
`evalExpr_endsAlike`. It brings the parts of a literal to one depth. -/
theorem Expr.Rebuilds.mono {depth' : Nat} (hle : depth ≤ depth') {e : Expr} {v : Value}
    (h : e.Rebuilds depth v) : e.Rebuilds depth' v := fun scope σ => by
  obtain ⟨w, τ, heval, hsame, hstore⟩ := h scope σ
  exact ⟨w, τ, evalExpr_endsAlike hle scope e σ _ heval, hsame, hstore⟩

/-- The empty list of expressions gathers the empty list of values, in any scope of any store, and
the store stays as it is. -/
theorem eachRebuilds_nil : EachRebuilds depth [] [] := fun _ σ =>
  ⟨[], σ, fun _ => rfl, rfl, σ.untouched_refl⟩

/-- An expression that rebuilds `v`, before others that rebuild `vs`, rebuilds `v :: vs`. That `v`
is no signal is what lets the loop go on to the others. -/
theorem EachRebuilds.cons {e : Expr} {es : List Expr} {v : Value} {vs : List Value}
    (hv : v.isSignal = false) (he : e.Rebuilds depth v) (hes : EachRebuilds depth es vs) :
    EachRebuilds depth (e :: es) (v :: vs) := fun scope σ => by
  obtain ⟨w, ρ, heval, hsame, hfirst⟩ := he scope σ
  obtain ⟨ws, τ, hloop, hsames, hrest⟩ := hes scope ρ
  refine ⟨w :: ws, τ, fun next => ?_, ?_, hfirst.trans hrest⟩
  · have hw : w.isSignal = false := (Value.isSignal_of_same hsame).trans hv
    rw [evalEach_cons_bind, unlessSignal_of_value heval hw]
    exact hloop _
  · rw [Value.sameList, hsame, hsames, Bool.and_self]

/-- No pairs are evaluated to no pairs. The start of `PairsRebuild.cons`, as `eachRebuilds_nil` is
for arrays. -/
theorem pairsRebuild_nil : PairsRebuild depth [] [] := fun _ σ =>
  ⟨[], σ, .nil σ, rfl, σ.untouched_refl⟩

/-- A pair of expressions that rebuild `K` and `V`, before pairs that rebuild `ps`, rebuild the
longer list. The key comes first, and neither may be a signal. -/
theorem PairsRebuild.cons {k e : Expr} {es : List (Expr × Expr)} {K V : Value}
    {ps : List (Value × Value)} (hK : K.isSignal = false) (hV : V.isSignal = false)
    (hk : k.Rebuilds depth K) (he : e.Rebuilds depth V) (hes : PairsRebuild depth es ps) :
    PairsRebuild depth ((k, e) :: es) ((K, V) :: ps) := fun scope σ => by
  obtain ⟨K', ρ, hkey, hsameKey, hfirst⟩ := hk scope σ
  obtain ⟨V', π, hvalue, hsameValue, hsecond⟩ := he scope ρ
  obtain ⟨qs, τ, hyield, hsames, hrest⟩ := hes scope π
  have hK' : K'.isSignal = false := (Value.isSignal_of_same hsameKey).trans hK
  have hV' : V'.isSignal = false := (Value.isSignal_of_same hsameValue).trans hV
  refine ⟨(K', V') :: qs, τ, .cons hkey hK' hvalue hV' hyield, ?_,
    (hfirst.trans hsecond).trans hrest⟩
  rw [Value.samePairs, hsameKey, hsameValue, hsames, Bool.and_self, Bool.and_self]

/-- An array literal rebuilds an array: it gathers the elements and gives them a new identity, which
`Value.same` does not look at. -/
theorem EachRebuilds.array {es : List Expr} {vs : List Value} (h : EachRebuilds depth es vs)
    (i : Identity) : (Expr.array es).Rebuilds (depth + 1) (.array i vs) := fun scope σ => by
  obtain ⟨ws, τ, hloop, hsames, hstore⟩ := h scope σ.tick
  refine ⟨.array τ.identities ws, τ.addIdentity.2, ?_, ?_, ⟨hstore.scopes, hstore.printed⟩⟩
  · show evalNode none (evalExpr none depth) scope (.array es) σ = _
    rw [evalNode_array]
    exact hloop Eval.newArray
  · rw [Value.same, hsames]

/-- A hash literal rebuilds a hash that was made by filing its pairs in order. The keys come out
equal, so the same slots are taken, by `Table.slots_ofPairs_congr`. -/
theorem PairsRebuild.hash {es : List (Expr × Expr)} {t : Table Value}
    (h : PairsRebuild depth es t.pairs) (hkeys : ∀ p ∈ t.pairs, p.1.IsKey)
    (hnodup : (t.pairs.map Prod.fst).Nodup) (hmade : Table.ofPairs t.pairs = t) (i : Identity) :
    (Expr.hash es).Rebuilds (depth + 1) (.hash i t) := fun scope σ => by
  obtain ⟨qs, τ, hyield, hsames, hstore⟩ := h scope σ.tick
  have heq : t.pairs.map Prod.fst = qs.map Prod.fst := Value.keys_of_samePairs hkeys hsames
  have hkeys' : ∀ q ∈ qs, q.1.IsKey := Value.isKey_of_map_eq hkeys heq
  have hpairs : (Table.ofPairs qs).pairs = qs :=
    (Table.ofPairs_of_nodup hkeys' (heq ▸ hnodup)).1
  -- The keys have come out as they were, and the slots depend on nothing else.
  have hslots : t.slots = (Table.ofPairs qs).slots := by
    rw [← Table.slots_ofPairs_congr hkeys hnodup heq, hmade]
  refine ⟨.hash τ.identities (Table.ofPairs qs), τ.addIdentity.2,
    evalExpr_hash_of_yield id hyield hkeys', ?_, ⟨hstore.scopes, hstore.printed⟩⟩
  show Value.same (.hash i ⟨t.pairs, t.slots⟩)
    (.hash τ.identities ⟨(Table.ofPairs qs).pairs, (Table.ofPairs qs).slots⟩) = true
  rw [Value.same, hpairs, hsames, hslots, beq_self_eq_true, Bool.and_self]

end

/-! ### Literals -/

/-- The digits of a natural number have it as their value: `Nat.repr` writes the digits that
`Numeral.value_toDigits` reads. -/
theorem Numeral.value_repr (n : Nat) : Numeral.value n.repr.toList = n := by
  rw [Nat.toList_repr, Numeral.value_toDigits]

/-- The digits of `n` write it as an integer literal, if it is below `Numeral.bound`, so that the
token can be converted. -/
theorem Expr.written_repr {n : Nat} (h : n < Numeral.bound) :
    Expr.Written .tightest [.integer n.repr] (.integer (Int64.ofNat n)) := by
  have hwritten := Expr.Written.integer n.repr ((Numeral.value_repr n).symm ▸ h)
  rwa [Numeral.value_repr] at hwritten

namespace Value

/-- The text of the value writes an expression that rebuilds the value. -/
def HasLiteral (depth : Nat) (v : Value) : Prop :=
  ∃ p e, Expr.Written p v.lexemes e ∧ e.Rebuilds depth v

/-- A literal of a value is one within every larger depth, for the text does not change and
`Expr.Rebuilds.mono` does the rest. -/
theorem HasLiteral.mono {depth depth' : Nat} {v : Value} (hle : depth ≤ depth')
    (h : v.HasLiteral depth) : v.HasLiteral depth' := by
  obtain ⟨p, e, hwritten, hrebuilds⟩ := h
  exact ⟨p, e, hwritten, hrebuilds.mono hle⟩

/-- An integer that is not negative is a literal: its text is one token of digits, by
`readAs_of_nonneg`, and it evaluates to itself in one level. -/
theorem hasLiteral_of_nonneg {n : Int64} (h : 0 ≤ n.toInt) : (Value.integer n).HasLiteral 1 := by
  have hlexemes : (Value.integer n).lexemes = [.integer n.toInt.toNat.repr] :=
    (readAs_of_nonneg h).scan_eq
  have hsmall : n.toInt.toNat < Numeral.bound := by
    have hlt := n.toInt_lt
    simp only [Numeral.bound]
    omega
  have hback : Int64.ofNat n.toInt.toNat = n := n.ofNat_toNatClampNeg (Int64.le_iff_toInt_le.2 h)
  have hwritten := Expr.written_repr hsmall
  rw [hback] at hwritten
  refine ⟨_, .integer n, hlexemes ▸ hwritten, fun scope σ => ?_⟩
  exact ⟨.integer n, σ.tick, rfl, same_refl _, ⟨rfl, rfl⟩⟩

/-- A negative integer is written as the negation of its counterpart above zero, a level deeper. The
least integer has no counterpart, hence the hypothesis `hmin`. -/
theorem hasLiteral_of_neg {n : Int64} (h : n.toInt < 0) (hmin : n ≠ Int64.minValue) :
    (Value.integer n).HasLiteral 2 := by
  have hlexemes : (Value.integer n).lexemes =
      [.symbol .minus, .integer (-n.toInt).toNat.repr] := (readAs_of_neg h).scan_eq
  -- Of the negative integers only the least has no counterpart above zero.
  have hsmall : (-n.toInt).toNat < Numeral.bound := by
    have hle := n.le_toInt
    have hne : n.toInt ≠ -2 ^ 63 := fun heq =>
      hmin (Int64.toInt_inj.1 (heq.trans Int64.toInt_minValue.symm))
    simp only [Numeral.bound]
    omega
  have hback : -Int64.ofNat (-n.toInt).toNat = n := by
    rw [← Int64.ofInt_eq_ofNat, Int.toNat_of_nonneg (by omega), ← Int64.ofInt_neg, Int.neg_neg,
      Int64.ofInt_toInt]
  have hwritten := Expr.Written.unary .negate (Expr.written_repr hsmall) (by decide)
  refine ⟨_, _, hlexemes ▸ hwritten, fun scope σ => ?_⟩
  refine ⟨.integer (-Int64.ofNat (-n.toInt).toNat), σ.tick.tick, rfl, ?_, ⟨rfl, rfl⟩⟩
  rw [hback]
  exact same_refl _

/-- Both booleans are keywords, and their texts are literals that evaluate to them in one level. -/
theorem hasLiteral_boolean (b : Bool) : (Value.boolean b).HasLiteral 1 := by
  have hlexemes : (Value.boolean b).lexemes = [.keyword (if b then .trueKw else .falseKw)] :=
    (readAs_boolean b).scan_eq
  have hrebuilds : (Expr.boolean b).Rebuilds 1 (.boolean b) := fun scope σ =>
    ⟨.boolean b, σ.tick, rfl, same_refl _, ⟨rfl, rfl⟩⟩
  cases b with
  | true => exact ⟨_, _, hlexemes ▸ Expr.Written.truth, hrebuilds⟩
  | false => exact ⟨_, _, hlexemes ▸ Expr.Written.falsity, hrebuilds⟩

/-- The texts of elements, with commas between them, write expressions that rebuild the elements.
The last one has no comma behind it, so one and several elements are two cases. -/
theorem HasLiteral.elements {depth : Nat} {vs : List Value} (hplain : ∀ v ∈ vs, v.Plain)
    (h : ∀ v ∈ vs, v.HasLiteral depth) :
    ∃ es, Expr.ListWritten ([.symbol .comma].intercalate (vs.map lexemes)) es ∧
      es.length = vs.length ∧ EachRebuilds depth es vs := by
  induction vs with
  | nil => exact ⟨[], .nil, rfl, eachRebuilds_nil⟩
  | cons v vs ih =>
      obtain ⟨⟨p, e, hwritten, hrebuilds⟩, hothers⟩ := List.forall_mem_cons.1 h
      obtain ⟨hv, hvs⟩ := List.forall_mem_cons.1 hplain
      cases vs with
      | nil =>
          refine ⟨[e], ?_, rfl, eachRebuilds_nil.cons hv.isSignal_eq hrebuilds⟩
          simpa using Expr.ListWritten.cons hwritten .nil
      | cons w vs =>
          obtain ⟨es, hlist, hlength, hes⟩ := ih hvs hothers
          -- There is another expression, with a comma in front of it.
          obtain ⟨f, fs, rfl⟩ := List.exists_cons_of_length_eq_add_one hlength
          refine ⟨e :: f :: fs, ?_, congrArg (· + 1) hlength,
            hes.cons hv.isSignal_eq hrebuilds⟩
          simpa [List.intercalate_cons_cons] using Expr.ListWritten.cons hwritten hlist.more

/-- The texts of pairs, with commas between them, write pairs of expressions that rebuild them. As
in `HasLiteral.elements`, the grammar distinguishes the last pair. -/
theorem HasLiteral.pairs {depth : Nat} {ps : List (Value × Value)}
    (hplain : ∀ p ∈ ps, p.1.Plain ∧ p.2.Plain)
    (h : ∀ p ∈ ps, p.1.HasLiteral depth ∧ p.2.HasLiteral depth) :
    ∃ es, Expr.PairsWritten ([.symbol .comma].intercalate
        (ps.map fun p => p.1.lexemes ++ .symbol .colon :: p.2.lexemes)) es ∧
      PairsRebuild depth es ps := by
  induction ps with
  | nil => exact ⟨[], .nil, pairsRebuild_nil⟩
  | cons pair ps ih =>
      obtain ⟨⟨⟨p, k, hkey, hk⟩, ⟨q, e, hvalue, he⟩⟩, hothers⟩ := List.forall_mem_cons.1 h
      obtain ⟨⟨hK, hV⟩, hps⟩ := List.forall_mem_cons.1 hplain
      -- The last pair has no comma behind it, and `Expr.PairsWritten` has a constructor of its own
      -- for it.
      cases ps with
      | nil =>
          refine ⟨[(k, e)], ?_, pairsRebuild_nil.cons hK.isSignal_eq hV.isSignal_eq hk he⟩
          simpa using Expr.PairsWritten.last hkey hvalue
      | cons other ps =>
          obtain ⟨es, hpairs, hes⟩ := ih hps hothers
          refine ⟨(k, e) :: es, ?_, hes.cons hK.isSignal_eq hV.isSignal_eq hk he⟩
          simpa [List.intercalate_cons_cons] using Expr.PairsWritten.cons hkey hvalue hpairs

/-- One depth suffices for all members of a list, when `P` holds at every larger depth too. The
parts of a literal are brought to the same depth by it. -/
theorem exists_common_depth {α : Type} (P : Nat → α → Prop)
    (mono : ∀ {m n : Nat} {a : α}, m ≤ n → P m a → P n a) {l : List α}
    (h : ∀ a ∈ l, ∃ n, P n a) : ∃ n, ∀ a ∈ l, P n a := by
  induction l with
  | nil => exact ⟨0, fun a ha => by cases ha⟩
  | cons a l ih =>
      obtain ⟨⟨m, hm⟩, hl⟩ := List.forall_mem_cons.1 h
      obtain ⟨n, hn⟩ := ih hl
      exact ⟨max m n, List.forall_mem_cons.2 ⟨mono (Nat.le_max_left m n) hm,
        fun b hb => mono (Nat.le_max_right m n) (hn b hb)⟩⟩

/-- The text of plain data without the least integer in it is a literal of it. Induction on `Plain`;
the hypothesis passes to each part through the constructors of `PartOf`. -/
theorem Plain.hasLiteral {v : Value} (h : v.Plain) :
    ¬(Value.integer Int64.minValue).PartOf v → ∃ depth, v.HasLiteral depth := by
  refine h.induct (motive := fun v => ¬(Value.integer Int64.minValue).PartOf v →
    ∃ depth, v.HasLiteral depth) ?integer ?boolean ?array ?hash
  case integer =>
    intro n hmin
    by_cases hn : 0 ≤ n.toInt
    · exact ⟨1, hasLiteral_of_nonneg hn⟩
    · refine ⟨2, hasLiteral_of_neg (Int.not_le.1 hn) ?_⟩
      rintro rfl
      exact hmin .whole
  case boolean => exact fun b _ => ⟨1, hasLiteral_boolean b⟩
  case array =>
    intro i vs hplain ih hmin
    obtain ⟨depth, hdepth⟩ := exists_common_depth HasLiteral HasLiteral.mono fun v hv =>
      ih v hv fun hpart => hmin (.element hv hpart)
    obtain ⟨es, hwritten, -, hes⟩ := HasLiteral.elements hplain.elements hdepth
    exact ⟨depth + 1, _, .array es, hplain.lexemes_array ▸ Expr.Written.array hwritten, hes.array i⟩
  case hash =>
    intro i t hplain ih hmin
    obtain ⟨hmembers, hnodup⟩ := hplain.pairs
    have hdepths : ∀ p ∈ t.pairs, ∃ n, p.1.HasLiteral n ∧ p.2.HasLiteral n := fun p hp => by
      -- A key and its value may need different depths.
      obtain ⟨m, hm⟩ := (ih p hp).1 fun hpart => hmin (.key hp hpart)
      obtain ⟨n, hn⟩ := (ih p hp).2 fun hpart => hmin (.entry hp hpart)
      exact ⟨max m n, hm.mono (Nat.le_max_left m n), hn.mono (Nat.le_max_right m n)⟩
    obtain ⟨depth, hdepth⟩ := exists_common_depth (fun n (p : Value × Value) =>
        p.1.HasLiteral n ∧ p.2.HasLiteral n)
      (fun hle hp => ⟨hp.1.mono hle, hp.2.mono hle⟩) hdepths
    obtain ⟨es, hwritten, hes⟩ := HasLiteral.pairs (fun p hp => (hmembers p hp).2) hdepth
    exact ⟨depth + 1, _, .hash es, hplain.lexemes_hash ▸ Expr.Written.hash hwritten,
      hes.hash (fun p hp => (hmembers p hp).1) hnodup hplain.ofPairs_pairs i⟩

end Value

/-! ### Texts -/

/-- A text that writes one expression is a program that evaluates it. The parser reads it as such by
`Program.parse_of_written`, and the value, being no signal, is the result. -/
theorem interpret_of_written {text : String} {p : Precedence} {e : Expr} {v : Value} {depth : Nat}
    (hwritten : Expr.Written p (scan text.toList) e) (h : e.Rebuilds depth v)
    (hv : v.isSignal = false) (scope : ScopeId) (σ : Store) :
    ∃ w τ, (∀ depth', depth ≤ depth' → interpret depth' scope text σ = some (.ok w, τ)) ∧
      Value.same v w = true ∧ σ.Untouched τ := by
  let p : Program := ⟨[.expression e]⟩
  have hparse : Program.parse text = .ok p := by
    have hblock := (Statement.Written.expression hwritten).ending
    rw [Statement.ending, List.append_nil] at hblock
    exact Program.parse_of_written hblock
  obtain ⟨w, τ, heval, hsame, hstore⟩ := h scope σ.rewind.tick
  have hw : w.isSignal = false := (Value.isSignal_of_same hsame).trans hv
  -- The value is no signal, so that it is neither settled nor taken for a failure.
  have hrun : p.run none depth scope σ = some (w, τ) := by
    rw [Program.run_expression heval, Value.settle_of_value hw]
  refine ⟨w, τ, fun depth' hle => ?_, hsame, hstore.scopes, hstore.printed⟩
  rw [interpret_of_ok σ hparse, Program.run_of_le hle hrun, Option.map_some,
    Value.toResult_of_value hw]

/-- Of the text of plain data with the least integer in it the digits of that integer are too large
for a number: `Numeral.value_repr` gives a value of `Numeral.bound`, and no text with such digits is
a program. -/
theorem Value.Plain.parse_inspect_eq_error {v : Value} (h : v.Plain)
    (hmin : (Value.integer Int64.minValue).PartOf v) :
    ∃ diagnostics, Program.parse v.inspect = .error diagnostics := by
  have hlexemes : (Value.integer Int64.minValue).lexemes =
      [.symbol .minus, .integer (2 ^ 63 : Nat).repr] := (readAs_of_neg (by decide)).scan_eq
  have hmem : Lexeme.integer (2 ^ 63 : Nat).repr ∈ (Value.integer Int64.minValue).lexemes := by
    rw [hlexemes]
    exact List.mem_cons_of_mem _ List.mem_cons_self
  refine Program.parse_eq_error_of_large (hmin.lexemes_subset h hmem) ?_
  rw [Numeral.value_repr]
  decide

/-- The text of plain data evaluates to the same data, unless the least integer is in it.

Take integers, booleans, and arrays and hashes of such data, the hashes made by filing pairs in
order under integers and booleans. In any scope of any store the text of such a value, interpreted
within a sufficient depth, gives a value that a host takes for the same if and only if the least
integer is no part of it. Then no scope is changed and nothing is printed, and all larger depths
give the same. Otherwise interpreting the text fails at every depth because it is malformed, and the
store stays as it was.

The two sides are `Plain.hasLiteral` with `interpret_of_written`, and
`Value.Plain.parse_inspect_eq_error`; they exclude each other, which gives the equivalence. -/
theorem interpret_inspect_iff {v : Value} (h : v.Plain) (scope : ScopeId) (σ : Store) :
    ((∃ depth w τ, interpret depth scope v.inspect σ = some (.ok w, τ) ∧ (v == w) = true) ↔
      ¬(Value.integer Int64.minValue).PartOf v) ∧
    (¬(Value.integer Int64.minValue).PartOf v →
      ∃ depth w τ,
        (∀ depth', depth ≤ depth' → interpret depth' scope v.inspect σ = some (.ok w, τ)) ∧
          (v == w) = true ∧ τ.scopes = σ.scopes ∧ τ.printed = σ.printed) ∧
    ((Value.integer Int64.minValue).PartOf v →
      ∃ diagnostics, ∀ depth,
        interpret depth scope v.inspect σ = some (.error (.malformed diagnostics), σ)) := by
  have hfails (hmin : (Value.integer Int64.minValue).PartOf v) :
      ∃ diagnostics, ∀ depth,
        interpret depth scope v.inspect σ = some (.error (.malformed diagnostics), σ) := by
    obtain ⟨diagnostics, hparse⟩ := h.parse_inspect_eq_error hmin
    refine ⟨diagnostics, fun depth => ?_⟩
    unfold interpret
    rw [hparse]
    rfl
  have hends (hmin : ¬(Value.integer Int64.minValue).PartOf v) :
      ∃ depth w τ,
        (∀ depth', depth ≤ depth' → interpret depth' scope v.inspect σ = some (.ok w, τ)) ∧
          (v == w) = true ∧ τ.scopes = σ.scopes ∧ τ.printed = σ.printed := by
    obtain ⟨depth, p, e, hwritten, hrebuilds⟩ := h.hasLiteral hmin
    obtain ⟨w, τ, hinterpret, hsame, hstore⟩ :=
      interpret_of_written hwritten hrebuilds h.isSignal_eq scope σ
    exact ⟨depth, w, τ, hinterpret, hsame, hstore.scopes, hstore.printed⟩
  refine ⟨⟨?_, fun hmin => ?_⟩, hends, hfails⟩
  -- An answer and a failure at one depth contradict each other.
  · rintro ⟨depth, w, τ, hok, -⟩ hmin
    obtain ⟨diagnostics, herror⟩ := hfails hmin
    cases hok.symm.trans (herror depth)
  · obtain ⟨depth, w, τ, hok, hsame, -⟩ := hends hmin
    exact ⟨depth, w, τ, hok depth (Nat.le_refl _), hsame⟩

/-- The least integer was filed under a key that was used again, so it is no part of the hash, whose
text evaluates to it. The text of an array with the least integer in it is malformed. -/
theorem interpret_inspect_iff_of_least :
    let least := Value.integer Int64.minValue
    let hash := Value.hash 0 (Table.ofPairs [(.integer 1, least), (.boolean true, .array 1 []),
      (.integer 1, .integer (-9223372036854775807))])
    hash.Plain ∧ hash.inspect = "\x7b1: -9223372036854775807, true: []\x7d" ∧ ¬least.PartOf hash ∧
      (∃ depth w τ, interpret depth 0 hash.inspect Store.empty = some (.ok w, τ) ∧
        (hash == w) = true) ∧
      (Value.array 2 [least]).Plain ∧
      ∃ diagnostics, ∀ depth, interpret depth 0 (Value.array 2 [least]).inspect Store.empty =
        some (.error (.malformed diagnostics), Store.empty) := by
  intro least hash
  have hhash : hash.Plain := by
    refine .hash 0 ?_ ?_
    · simp
    · intro p hp
      simp only [List.mem_cons, List.not_mem_nil, or_false] at hp
      rcases hp with rfl | rfl | rfl
      · exact .integer _
      · exact .array _ fun v hv => by cases hv
      · exact .integer _
  have harray : (Value.array 2 [least]).Plain := .array 2 fun v hv => by
    rw [List.mem_singleton.1 hv]
    exact .integer _
  have hpart : ¬least.PartOf hash := by
    subst hash least
    -- Two pairs have been left of the three.
    have hmembers {k v : Value} (hp : (k, v) ∈ (Table.ofPairs
        [(.integer 1, .integer Int64.minValue), (.boolean true, .array 1 []),
          (.integer 1, .integer (-9223372036854775807))]).pairs) :
        (k, v) = (.integer 1, .integer (-9223372036854775807)) ∨
          (k, v) = (.boolean true, .array 1 []) :=
      (List.mem_cons.1 hp).imp_right List.mem_singleton.1
    intro hpart
    cases hpart with
    | key hp hk => rcases hmembers hp with heq | heq <;> cases heq <;> cases hk
    | entry hp hv =>
        rcases hmembers hp with heq | heq <;> cases heq <;> cases hv
        contradiction
  refine ⟨hhash, ?_, hpart, ?_, harray, ?_⟩
  · subst hash least
    decide +kernel
  · exact (interpret_inspect_iff hhash 0 Store.empty).1.2 hpart
  · exact (interpret_inspect_iff harray 0 Store.empty).2.2 (.element List.mem_cons_self .whole)

end Monkey
