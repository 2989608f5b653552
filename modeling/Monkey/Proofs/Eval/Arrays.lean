import Mathlib.Algebra.Group.Nat.Defs
import Monkey.Builtin.Apply
import Monkey.Eval.Operators
import Monkey.Proofs.Value.Sameness

/-!
# `Monkey.Proofs.Eval.Arrays`: arrays as lists

The language has no loops over arrays. A program takes an array apart with
`first` and `rest` and makes a new one with `push`, and these say of the
elements what heads, tails and appended elements say of a list. `len`,
`last` and the index operator look at an array from outside and agree.

* `elementAt_of_toInt`, `elementAt_of_outside` say what is at a place.
* `Builtin.restTimes` applies `rest` again and again;
  `Builtin.restTimes_array` says what is left.
* `Builtin.firsts` takes an array apart, `Builtin.pushAll` pushes elements
  one by one; `Builtin.firsts_array`, `Builtin.pushAll_array` are their runs.
* `Builtin.apply_of_length_ne`, `Builtin.apply_of_kind_ne` are the calls
  that fail.
* `Builtin.array_laws` puts it together.
-/

set_option autoImplicit false

namespace Monkey

/-! ### Places -/

section

variable {vs : List Value} {i : Int64}

/-- At a place that is not negative is what the list has there, or null behind its end. The 64-bit
index is given by the number it stands for. -/
theorem elementAt_of_toInt {n : Nat} (h : i.toInt = n) : elementAt vs i = vs[n]?.getD .null := by
  have hi : ¬i < 0 := by
    rw [Int64.lt_iff_toInt_lt, h]
    exact Int.not_lt.2 (Int.natCast_nonneg n)
  rw [elementAt, if_neg hi, h, Int.toNat_natCast]

/-- Outside of the list there is nothing, whether the index is negative or too large: `elementAt` is
null. -/
theorem elementAt_of_outside (h : ¬(0 ≤ i.toInt ∧ i.toInt < vs.length)) :
    elementAt vs i = .null := by
  by_cases hi : 0 ≤ i.toInt
  · obtain ⟨n, hn⟩ := Int.eq_ofNat_of_zero_le hi
    have hlength : vs.length ≤ n := by omega
    rw [elementAt_of_toInt hn, List.getElem?_eq_none hlength, Option.getD_none]
  · have hneg : i < 0 := Int64.lt_iff_toInt_lt.2 (Int.not_le.1 hi)
    rw [elementAt, if_pos hneg]

end

namespace Builtin

/-! ### Taking apart -/

/-- Applies `rest` so many times. -/
def restTimes : Nat → Value → Eval Value
  | 0, a => pure a
  | n + 1, a => do
    let b ← restTimes n a
    rest.apply [b]

/-- The first element, the first element of the rest, and so on, so many of them. -/
def firsts : Nat → Value → Eval (List Value)
  | 0, _ => pure []
  | n + 1, a => do
    let v ← first.apply [a]
    let b ← rest.apply [a]
    let vs ← firsts n b
    pure (v :: vs)

/-- Pushes elements in order. -/
def pushAll (vs : List Value) (a : Value) : Eval Value :=
  vs.foldlM (fun b v => push.apply [b, v]) a

/-- Applying `rest` drops one element each time, and every time but none gives out an identity. By
induction on the number of times; `hi` keeps it from running out of elements. -/
theorem restTimes_array (j : Identity) (vs : List Value) (σ : Store) {i : Nat}
    (hi : i ≤ vs.length) :
    ∃ k, restTimes i (.array j vs) σ =
        some (.array k (vs.drop i), { σ with identities := σ.identities + i }) ∧
      (i = 0 → k = j) := by
  induction i with
  | zero => exact ⟨j, rfl, fun _ => rfl⟩
  | succ i ih =>
      obtain ⟨k, hrest, -⟩ := ih (Nat.le_of_succ_le hi)
      -- There is an element left, so that `rest` makes a new array.
      rw [List.drop_eq_getElem_cons hi] at hrest
      refine ⟨σ.identities + i, ?_, fun h => absurd h (Nat.succ_ne_zero i)⟩
      show (restTimes i (.array j vs) σ).bind _ = _
      rw [hrest]
      rfl

/-- Taken apart by `first` and `rest` an array is its elements, in order. By induction on them, with
the store left free because identities are given out on the way. -/
theorem firsts_array (j : Identity) (vs : List Value) (σ : Store) :
    firsts vs.length (.array j vs) σ =
      some (vs, { σ with identities := σ.identities + vs.length }) := by
  induction vs generalizing j σ with
  | nil => rfl
  | cons v vs ih =>
      -- The first `rest` has given out an identity before all others are given out.
      show (firsts vs.length (.array σ.identities vs) σ.addIdentity.2).bind _ = _
      rw [ih]
      show some (v :: vs, ({ σ with identities := σ.identities + 1 + vs.length } : Store)) = _
      rw [Nat.add_right_comm]
      rfl

/-- Pushing elements appends them, in order. By induction on the elements, the array in hand growing
by one each time. -/
theorem pushAll_array (k : Identity) (us vs : List Value) (σ : Store) :
    ∃ l, pushAll vs (.array k us) σ =
      some (.array l (us ++ vs), { σ with identities := σ.identities + vs.length }) := by
  induction vs generalizing k us σ with
  | nil => exact ⟨k, by rw [List.append_nil]; rfl⟩
  | cons v vs ih =>
      obtain ⟨l, hpush⟩ := ih σ.identities (us ++ [v]) σ.addIdentity.2
      refine ⟨l, ?_⟩
      show pushAll vs (.array σ.identities (us ++ [v])) σ.addIdentity.2 = _
      rw [hpush, List.append_assoc, List.length_cons]
      show some (_, ({ σ with identities := σ.identities + 1 + vs.length } : Store)) = _
      rw [Nat.add_right_comm]
      rfl

/-! ### Calls that fail -/

/-- How many arguments are wanted. `puts` takes any number. -/
def arity : Builtin → Nat
  | push => 2
  | _ => 1

/-- The number of arguments is looked at first, so a wrong number is the error whatever the
arguments are. `puts` takes any number and is left out. -/
theorem apply_of_length_ne {b : Builtin} (hb : b ≠ puts) {args : List Value}
    (h : args.length ≠ b.arity) :
    b.apply args = pure (.error (.builtinArgumentCount b.arity args.length)) := by
  cases b with
  | puts => exact absurd rfl hb
  | push =>
      match args with
      | [] | [_] | _ :: _ :: _ :: _ => rfl
      | [_, _] => exact absurd rfl h
  | _ =>
      match args with
      | [] | _ :: _ :: _ => rfl
      | [_] => exact absurd rfl h

/-- Then the kind of the first argument is looked at. `len` takes strings too and names its error
differently, hence the two hypotheses and the two faults. -/
theorem apply_of_kind_ne {b : Builtin} (hb : b ≠ puts) {v : Value} {others : List Value}
    (hargs : (v :: others).length = b.arity) (harray : v.kind ≠ .array)
    (hstring : b = len → v.kind ≠ .string) :
    b.apply (v :: others) =
      pure (.error (if b = len then .noLength v.kind else .notAnArray b v.kind)) := by
  have helements (next : List Value → Eval Value) :
      b.withElements v next = pure (.error (.notAnArray b v.kind)) := by
    cases v with
    | array => exact absurd rfl harray
    | _ => rfl
  -- The number of arguments is right, so each function is down to the test of the kind.
  cases b with
  | puts => exact absurd rfl hb
  | len =>
      match others with
      | [] =>
          cases v with
          | array => exact absurd rfl harray
          | string => exact absurd rfl (hstring rfl)
          | _ => rfl
  | push =>
      match others with
      | [_] => exact helements _
  | _ =>
      match others with
      | [] => exact helements _

/-! ### All together -/

/-- `len` gives the number `n`. It is cut off at 64 bits, in which the length of everything in
memory fits. -/
def Measures (a : Value) (n : Nat) : Prop :=
  ∃ m : Int64, (∀ σ : Store, len.apply [a] σ = some (.integer m, σ)) ∧
    m = Int64.ofNat n ∧ (n < 2 ^ 63 → m.toInt = n)

/-- The length of an array is that of its list of elements, as far as 64 bits can hold it. -/
theorem measures_array (k : Identity) (vs : List Value) :
    Measures (.array k vs) vs.length :=
  ⟨Int64.ofNat vs.length, fun _ => rfl, rfl, fun h => Int64.toInt_ofNat_of_lt h⟩

/-- The first element of the rest of an array is the one at that place of the whole, or null if
there is none. -/
theorem first_array_drop (k : Identity) (vs : List Value) (i : Nat) (σ : Store) :
    first.apply [.array k (vs.drop i)] σ = some (vs[i]?.getD .null, σ) := by
  show some ((vs.drop i).head?.getD .null, σ) = _
  rw [List.head?_drop]

/-- A new element stands at the end, and the others stand where they were. A negative index finds
nothing in either list, so it needs no case of its own in the statement. -/
theorem elementAt_push {vs : List Value} {n : Int64} (h : n.toInt < vs.length) (x : Value) :
    elementAt (vs ++ [x]) n = elementAt vs n := by
  by_cases hn : 0 ≤ n.toInt
  · obtain ⟨m, hm⟩ := Int.eq_ofNat_of_zero_le hn
    have hlt : m < vs.length := by omega
    rw [elementAt_of_toInt hm, elementAt_of_toInt hm, List.getElem?_append_left hlt]
  · rw [elementAt_of_outside fun hin => hn hin.1, elementAt_of_outside fun hin => hn hin.1]

/-- What the native functions and the index operator say of an array is what is true of the list of
its elements. Each part is one of the lemmas above, for the array with the elements `vs`.

Applied `i` times to an array of at least `i` elements, `rest` gives an array, the same one if `i`
is 0, of the elements from the `i`-th on. `len` measures it, and its first element is the one that
the index `i` has in the whole array, or null if there is none left; applied once more after the
last element, `rest` gives null. Every index outside gives null. `push` gives an array of one more
element, the last one, and of the others at their places. An array is rebuilt by pushing its
elements, as `first` and `rest` take them from it, to an empty one. No scope is changed by any of
this, and no array: only identities are given out.

Calls of these functions fail if the number of arguments is another one, and if the first argument
is no array; `len` takes strings too. -/
theorem array_laws (j : Identity) (vs : List Value) (σ : Store) :
    (∀ i ≤ vs.length, ∃ k,
      restTimes i (.array j vs) σ =
        some (.array k (vs.drop i), { σ with identities := σ.identities + i }) ∧
      (i = 0 → k = j) ∧ Measures (.array k (vs.drop i)) (vs.length - i) ∧
      ∀ τ, first.apply [.array k (vs.drop i)] τ = some (vs[i]?.getD .null, τ) ∧
        (∀ n : Int64, n.toInt = i →
          first.apply [.array k (vs.drop i)] τ = some ((Value.array j vs).index (.integer n), τ)) ∧
        (i = vs.length → first.apply [.array k (vs.drop i)] τ = some (.null, τ))) ∧
    restTimes (vs.length + 1) (.array j vs) σ =
      some (.null, { σ with identities := σ.identities + vs.length }) ∧
    (∀ n : Int64, ¬(0 ≤ n.toInt ∧ n.toInt < vs.length) →
      (Value.array j vs).index (.integer n) = .null) ∧
    (∀ x, ∃ k, push.apply [.array j vs, x] σ = some (.array k (vs ++ [x]), σ.addIdentity.2) ∧
      Measures (.array k (vs ++ [x])) (vs.length + 1) ∧
      (∀ τ, last.apply [.array k (vs ++ [x])] τ = some (x, τ)) ∧
      ∀ n : Int64, n.toInt < vs.length →
        (Value.array k (vs ++ [x])).index (.integer n) = (Value.array j vs).index (.integer n)) ∧
    (∃ us τ b ρ, firsts vs.length (.array j vs) σ = some (us, τ) ∧
      (Eval.newArray [] >>= pushAll us) τ = some (b, ρ) ∧ (b == .array j vs) = true ∧
      ρ.scopes = σ.scopes) ∧
    ∀ b : Builtin, b ≠ puts →
      (∀ args : List Value, args.length ≠ b.arity →
        b.apply args σ = some (.error (.builtinArgumentCount b.arity args.length), σ)) ∧
      ∀ (v : Value) (others : List Value), v.kind ≠ .array → (b = len → v.kind ≠ .string) →
        ∃ fault, b.apply (v :: others) σ = some (.error fault, σ) := by
  refine ⟨fun i hi => ?_, ?_, fun n hn => elementAt_of_outside hn, fun x => ?_, ?_, fun b hb => ?_⟩
  · obtain ⟨k, hrest, hk⟩ := restTimes_array j vs σ hi
    refine ⟨k, hrest, hk, ?_, fun τ => ⟨first_array_drop k vs i τ, fun n hn => ?_, ?_⟩⟩
    · rw [← List.length_drop]
      exact measures_array k _
    · rw [first_array_drop, ← elementAt_of_toInt hn]
      rfl
    · rintro rfl
      rw [first_array_drop, List.getElem?_eq_none (Nat.le_refl _), Option.getD_none]
  -- One `rest` more than there are elements is the `rest` of an empty array.
  · obtain ⟨k, hrest, -⟩ := restTimes_array j vs σ (Nat.le_refl _)
    rw [List.drop_length] at hrest
    show (restTimes vs.length (.array j vs) σ).bind _ = _
    rw [hrest]
    rfl
  · refine ⟨σ.identities, rfl, ?_, fun τ => ?_, fun n hn => elementAt_push hn x⟩
    · have hmeasures := measures_array σ.identities (vs ++ [x])
      rwa [List.length_append] at hmeasures
    · show some ((vs ++ [x]).getLast?.getD .null, τ) = _
      rw [List.getLast?_concat, Option.getD_some]
  -- `firsts` takes an identity for every element, and the empty array to push to takes the next.
  · let τ : Store := { σ with identities := σ.identities + vs.length }
    obtain ⟨k, hpush⟩ := pushAll_array τ.identities [] vs τ.addIdentity.2
    exact ⟨vs, τ, .array k vs, _, firsts_array j vs σ, hpush, Value.same_refl (.array k vs), rfl⟩
  · refine ⟨fun args hargs => ?_, fun v others harray hstring => ?_⟩
    · rw [apply_of_length_ne hb hargs]
      rfl
    · by_cases hargs : (v :: others).length = b.arity
      · rw [apply_of_kind_ne hb hargs harray hstring]
        exact ⟨_, rfl⟩
      · rw [apply_of_length_ne hb hargs]
        exact ⟨_, rfl⟩

/-- Of `[5, true]` the rest is measured as 1, and its first element is that at the index 1; there is
nothing at -1, and a string is refused by `rest`. Each is a part of `array_laws`. -/
theorem array_laws_of_two :
    let a := Value.array 0 [.integer 5, .boolean true]
    (∃ w τ, restTimes 1 a .empty = some (w, τ) ∧ Measures w 1 ∧
      first.apply [w] τ = some (a.index (.integer 1), τ)) ∧
    a.index (.integer (-1)) = .null ∧
    ∃ fault, rest.apply [.string "[5, true]"] .empty = some (.error fault, .empty) := by
  intro a
  obtain ⟨hrest, -, houtside, -, -, hfails⟩ :=
    array_laws 0 [.integer 5, .boolean true] .empty
  obtain ⟨k, hends, -, hmeasures, hfirst⟩ := hrest 1 (by decide)
  refine ⟨⟨_, _, hends, hmeasures, (hfirst _).2.1 1 rfl⟩, houtside (-1) (by decide), ?_⟩
  exact (hfails rest (by decide)).2 (.string "[5, true]") [] (by decide) (by decide)

end Builtin

end Monkey
