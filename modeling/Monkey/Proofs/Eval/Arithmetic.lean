import Mathlib.Algebra.Group.Int.Defs
import Mathlib.Algebra.Group.Nat.Defs
import Monkey.Proofs.Eval.Depth

/-!
# `Monkey.Proofs.Eval.Arithmetic`: what arithmetic computes

Integers have 64 bits, and what does not fit is cut off. Sums, differences
and products of what has been cut off differ from the true ones by a
multiple of `2 ^ 64` at most, so that it does not matter how often and
where it was done: the value of an expression is its true value, cut off
once. Only a quotient depends on what its operands have become before.

* `Arithmetic` are the expressions of literals, minus signs and the four
  operators; `Arithmetic.toExpr` writes them as expressions.
* `Arithmetic.exact` is the value as an integer of any size.
* `Arithmetic.value?` says what is computed, in 64 bits, unless a divisor
  is 0. `Arithmetic.gives_answer` is the run, `Arithmetic.toInt_of_value?`
  compares it with the exact value, and `Arithmetic.value?_eq_none_iff`
  says when there is none.
* `Arithmetic.gives_exact` puts it together.
-/

set_option autoImplicit false

namespace Monkey

/-- The operators that compute with integers. -/
inductive Arithmetic.Operator where
  | add
  | subtract
  | multiply
  | divide

/-- An expression of integer literals and operators that compute with them. -/
inductive Arithmetic where
  | literal (n : Int64)
  | negate (operand : Arithmetic)
  | combine (op : Arithmetic.Operator) (left right : Arithmetic)

namespace Arithmetic

/-- The integer that 64 bits can hold and that differs from `z` by a multiple of `2 ^ 64`. -/
def wrap (z : Int) : Int := z.bmod (2 ^ 64)

namespace Operator

/-- The operator of the language. -/
def toBinaryOp : Operator → BinaryOp
  | add => .add
  | subtract => .subtract
  | multiply => .multiply
  | divide => .divide

/-- What the operator gives on integers of any size. The operands of a division are what 64 bits
can hold, and the quotient is rounded toward zero. -/
def exact : Operator → Int → Int → Int
  | add, x, y => x + y
  | subtract, x, y => x - y
  | multiply, x, y => x * y
  | divide, x, y => (wrap x).tdiv (wrap y)

/-- What the operator gives on integers of 64 bits, unless it divides by 0. -/
def compute? : Operator → Int64 → Int64 → Option Int64
  | add, a, b => some (a + b)
  | subtract, a, b => some (a - b)
  | multiply, a, b => some (a * b)
  | divide, a, b => if b = 0 then none else some (a / b)

/-- Only divisions fail, and only by 0: `compute?` is none in no other case. By the four operators.
-/
theorem compute?_eq_none_iff {op : Operator} {a b : Int64} :
    op.compute? a b = none ↔ op = divide ∧ b = 0 := by
  cases op <;> simp [compute?]

/-- It makes no difference to the result of `compute?` whether the operands were cut off by `wrap`
before. For `divide` the exact operation cuts them off itself, so there is nothing to show but that.
-/
theorem toInt_of_compute? {op : Operator} {a b c : Int64} {x y : Int} (ha : a.toInt = wrap x)
    (hb : b.toInt = wrap y) (hc : op.compute? a b = some c) : c.toInt = wrap (op.exact x y) := by
  cases op with
  | add =>
      cases hc
      rw [Int64.toInt_add, ha, hb, wrap, wrap, Int.bmod_add_bmod, Int.add_bmod_bmod]
      rfl
  | subtract =>
      cases hc
      rw [Int64.toInt_sub, ha, hb, wrap, wrap, Int.bmod_sub_bmod, Int.sub_bmod_bmod]
      rfl
  | multiply =>
      cases hc
      rw [Int64.toInt_mul, ha, hb, wrap, wrap, Int.bmod_mul_bmod, Int.mul_bmod_bmod]
      rfl
  -- A division that does not fail has operands that are already cut off, as `exact` takes them.
  | divide =>
      obtain ⟨-, rfl⟩ : b ≠ 0 ∧ a / b = c := by simpa [compute?] using hc
      rw [Int64.toInt_div, ha, hb]
      rfl

end Operator

/-- The expression of the language. -/
def toExpr : Arithmetic → Expr
  | literal n => .integer n
  | negate e => .unary .negate e.toExpr
  | combine op l r => .binary op.toBinaryOp l.toExpr r.toExpr

/-- How deep the evaluation nests. -/
def height : Arithmetic → Nat
  | literal _ => 1
  | negate e => e.height + 1
  | combine _ l r => max l.height r.height + 1

/-- The value as an integer of any size. -/
def exact : Arithmetic → Int
  | literal n => n.toInt
  | negate e => -e.exact
  | combine op l r => op.exact l.exact r.exact

/-- The value in 64 bits, unless a divisor is 0. -/
def value? : Arithmetic → Option Int64
  | literal n => some n
  | negate e => e.value?.map fun a => -a
  | combine op l r => l.value?.bind fun a => r.value?.bind fun b => op.compute? a b

/-- `a.PartOf e`: the expression `a` is `e` or stands somewhere inside it. -/
inductive PartOf (a : Arithmetic) : Arithmetic → Prop where
  | whole : PartOf a a
  | operand {e : Arithmetic} (h : PartOf a e) : PartOf a (negate e)
  | left {op : Operator} {l r : Arithmetic} (h : PartOf a l) : PartOf a (combine op l r)
  | right {op : Operator} {l r : Arithmetic} (h : PartOf a r) : PartOf a (combine op l r)

/-! ### The value in 64 bits -/

/-- What is computed is the exact value, cut off. By induction on the expression,
`toInt_of_compute?` being the step at each operator. -/
theorem toInt_of_value? {e : Arithmetic} {n : Int64} (h : e.value? = some n) :
    n.toInt = wrap e.exact := by
  induction e generalizing n with
  | literal m =>
      cases h
      exact (Int.bmod_eq_of_le m.le_toInt m.toInt_lt).symm
  | negate e ih =>
      obtain ⟨a, ha, rfl⟩ := Option.map_eq_some_iff.1 h
      rw [Int64.toInt_neg, ih ha, wrap, Int.bmod_neg_bmod]
      rfl
  | combine op l r ihl ihr =>
      obtain ⟨a, ha, hrest⟩ := Option.bind_eq_some_iff.1 h
      obtain ⟨b, hb, hc⟩ := Option.bind_eq_some_iff.1 hrest
      exact op.toInt_of_compute? (ihl ha) (ihr hb) hc

/-- There is no value exactly if the value of some divisor is 0. By induction on the expression for
one direction and on `PartOf` for the other, since a part that fails takes the whole with it. -/
theorem value?_eq_none_iff {e : Arithmetic} :
    e.value? = none ↔ ∃ l r, (combine .divide l r).PartOf e ∧ r.value? = some 0 := by
  constructor
  · intro h
    induction e with
    | literal n => cases h
    | negate e ih =>
        obtain ⟨l, r, hpart, hr⟩ := ih (Option.map_eq_none_iff.1 h)
        exact ⟨l, r, .operand hpart, hr⟩
    | combine op l r ihl ihr =>
        -- The left operand has failed, or else the right one, or else the division itself has.
        cases hl : l.value? with
        | none =>
            obtain ⟨l', r', hpart, hr'⟩ := ihl hl
            exact ⟨l', r', .left hpart, hr'⟩
        | some a =>
            cases hr : r.value? with
            | none =>
                obtain ⟨l', r', hpart, hr'⟩ := ihr hr
                exact ⟨l', r', .right hpart, hr'⟩
            | some b =>
                have hnone : op.compute? a b = none := by simpa [value?, hl, hr] using h
                obtain ⟨rfl, rfl⟩ := Operator.compute?_eq_none_iff.1 hnone
                exact ⟨l, r, .whole, hr⟩
  · rintro ⟨l, r, hpart, hr⟩
    -- The division itself has no value, and so nothing has of which it is a part.
    induction hpart with
    | whole => cases hl : l.value? <;> simp [value?, Operator.compute?, hl, hr]
    | operand _ ih => rw [value?, ih, Option.map_none]
    | left _ ih => rw [value?, ih, Option.bind_none]
    | @right op l' r' _ ih => cases hl : l'.value? <;> simp [value?, hl, ih]

/-! ### Evaluation -/

/-- What the language gives for a value in 64 bits, or for there being none. -/
def answer : Option Int64 → Value
  | some n => .integer n
  | none => .error .divisionByZero

/-- What `BinaryOp.apply` gives on two integers is the `answer` to `compute?`: the operators of the
language compute in 64 bits. -/
theorem Operator.apply_toBinaryOp (op : Operator) (a b : Int64) :
    op.toBinaryOp.apply (.integer a) (.integer b) = answer (op.compute? a b) := by
  cases op with
  | divide =>
      show (if b = 0 then Value.error .divisionByZero else .integer (a / b)) = _
      rw [compute?]
      split <;> rfl
  | _ => rfl

/-- Evaluated without a limit in any scope of any store the expression gives `v`, and nothing but
the number of steps changes. -/
def Gives (e : Arithmetic) (v : Value) : Prop :=
  ∀ (scope : ScopeId) (σ : Store), ∃ steps, ∀ depth, e.height ≤ depth →
    evalExpr none depth scope e.toExpr σ = some (v, σ.withSteps steps)

namespace Gives

/-- An expression gives one value only, since `Gives` fixes the value at every depth that is large
enough. -/
theorem unique {e : Arithmetic} {v w : Value} (hv : e.Gives v) (hw : e.Gives w) : v = w := by
  obtain ⟨m, hm⟩ := hv 0 .empty
  obtain ⟨n, hn⟩ := hw 0 .empty
  cases (hm e.height (Nat.le_refl _)).symm.trans (hn e.height (Nat.le_refl _))
  rfl

/-- It suffices to look at the last level, where `evalNode` is given an evaluation of the parts. The
step that counts is the same for every kind of expression and is dealt with here. -/
theorem of_node {e : Arithmetic} {v : Value}
    (h : ∀ (scope : ScopeId) (σ : Store), ∃ steps, ∀ depth, e.height ≤ depth + 1 →
      evalNode none (evalExpr none depth) scope e.toExpr σ = some (v, σ.withSteps steps)) :
    e.Gives v := fun scope σ => by
  obtain ⟨steps, hnode⟩ := h scope σ
  refine ⟨steps, fun depth hdepth => ?_⟩
  cases depth with
  | zero => cases e <;> exact absurd hdepth (Nat.not_succ_le_zero _)
  | succ depth => exact hnode depth hdepth

/-- A literal gives its integer, in one step. -/
theorem literal (n : Int64) : (literal n).Gives (.integer n) :=
  of_node fun _ σ => ⟨σ.steps + 1, fun _ _ => rfl⟩

/-- A minus sign gives the opposite of what its operand gives, and fails if that fails. -/
theorem negate {e : Arithmetic} {x : Option Int64} (h : e.Gives (answer x)) :
    (negate e).Gives (answer (x.map fun a => -a)) :=
  of_node fun scope σ => by
    obtain ⟨steps, heval⟩ := h scope σ.tick
    refine ⟨steps, fun depth hdepth => ?_⟩
    have hoperand := heval depth (Nat.le_of_succ_le_succ hdepth)
    cases x with
    | none => exact unlessSignal_of_isSignal hoperand rfl
    | some a => exact unlessSignal_of_value hoperand rfl

/-- An operator is applied to what the operands give. If the left one fails, the right one is not
looked at, which is why the number of steps depends on `x` and `y`. -/
theorem combine {op : Operator} {l r : Arithmetic} {x y : Option Int64}
    (hl : l.Gives (answer x)) (hr : r.Gives (answer y)) :
    (combine op l r).Gives (answer (x.bind fun a => y.bind fun b => op.compute? a b)) :=
  of_node fun scope σ => by
    obtain ⟨m, hleft⟩ := hl scope σ.tick
    obtain ⟨n, hright⟩ := hr scope (σ.tick.withSteps m)
    have hoperands {depth : Nat} (h : (Arithmetic.combine op l r).height ≤ depth + 1) :
        l.height ≤ depth ∧ r.height ≤ depth := Nat.max_le.1 (Nat.le_of_succ_le_succ h)
    -- Where the evaluation ends decides how many steps there are, whatever the depth.
    cases x with
    | none =>
        refine ⟨m, fun depth hdepth => ?_⟩
        exact unlessSignal_of_isSignal (hleft depth (hoperands hdepth).1) rfl
    | some a =>
        refine ⟨n, fun depth hdepth => ?_⟩
        obtain ⟨hdepthl, hdepthr⟩ := hoperands hdepth
        show unlessSignal (evalExpr none depth scope l.toExpr) _ σ.tick = _
        rw [unlessSignal_of_value (hleft depth hdepthl) rfl]
        cases y with
        | none => exact unlessSignal_of_isSignal (hright depth hdepthr) rfl
        | some b =>
            rw [unlessSignal_of_value (hright depth hdepthr) rfl]
            exact congrArg (fun v => some (v, σ.withSteps n)) (op.apply_toBinaryOp a b)

end Gives

/-- The language computes the value in 64 bits: an expression gives the `answer` to its `value?`. By
induction on the expression, from the three lemmas above. -/
theorem gives_answer (e : Arithmetic) : e.Gives (answer e.value?) := by
  induction e with
  | literal n => exact .literal n
  | negate e ih => exact .negate ih
  | combine op l r ihl ihr => exact .combine ihl ihr

/-- An expression gives an `answer` exactly if that answers its `value?`. With `Gives.unique` the
two instances below follow. -/
theorem gives_answer_iff {e : Arithmetic} {x : Option Int64} :
    e.Gives (answer x) ↔ e.value? = x := by
  constructor
  · intro h
    have heq : answer e.value? = answer x := e.gives_answer.unique h
    cases he : e.value? <;> cases x <;> simp_all [answer]
  · rintro rfl
    exact e.gives_answer

/-- An expression gives an integer exactly if that integer is its `value?`. -/
theorem gives_integer_iff {e : Arithmetic} {n : Int64} :
    e.Gives (.integer n) ↔ e.value? = some n := gives_answer_iff (x := some n)

/-- An expression fails by a division by zero exactly if it has no `value?`. -/
theorem gives_error_iff {e : Arithmetic} :
    e.Gives (.error .divisionByZero) ↔ e.value? = none := gives_answer_iff (x := none)

/-- Nothing else goes wrong: an error that an expression gives is `divisionByZero`, since its
`value?` is there or not. -/
theorem Gives.fault_eq {e : Arithmetic} {fault : Fault} (h : e.Gives (.error fault)) :
    fault = .divisionByZero := by
  have heq : answer e.value? = .error fault := e.gives_answer.unique h
  cases he : e.value? <;> simp_all [answer]

/-- As a program the expression ends with what it gives, one step being counted for the statement.
-/
theorem Gives.ends {e : Arithmetic} {v : Value} (h : e.Gives v) (scope : ScopeId) (σ : Store) :
    ∃ steps, (Program.mk [.expression e.toExpr]).Ends none scope σ v (σ.withSteps steps) := by
  obtain ⟨steps, heval⟩ := h scope σ.rewind.tick
  have hrun := Program.run_expression (heval e.height (Nat.le_refl _))
  -- Neither an integer nor an error is on its way to a caller.
  have hsettle : v.settle = v := by
    obtain rfl : answer e.value? = v := e.gives_answer.unique h
    cases e.value? <;> rfl
  exact ⟨steps, e.height, hsettle ▸ hrun⟩

/-- A quotient is rounded toward zero, as `Int.tdiv` is. There is one that 64 bits cannot hold, and
there the division wraps around. -/
theorem toInt_quotient (a b : Int64) :
    (a / b).toInt =
      if a.toInt = -2 ^ 63 ∧ b.toInt = -1 then -2 ^ 63 else a.toInt.tdiv b.toInt := by
  split
  · next h => rw [Int64.toInt_div, h.1, h.2]; rfl
  · next h =>
      -- With any other dividend, or any other divisor, the quotient fits.
      by_cases ha : a = Int64.minValue
      · have hb : b ≠ -1 := fun hb => h ⟨by rw [ha, Int64.toInt_minValue], by rw [hb]; rfl⟩
        exact Int64.toInt_div_of_ne_right a b hb
      · exact Int64.toInt_div_of_ne_left a b ha

/-- Arithmetic is exact up to a multiple of `2 ^ 64`, whatever does not fit on the way. The
evaluation is reduced to `value?` by `gives_integer_iff` and `gives_error_iff`, and the rest is
arithmetic.

Of an expression without divisions, evaluated without a limit anywhere, the value is the integer
from `-2 ^ 63` to `2 ^ 63 - 1` that is congruent to the exact value. An expression with divisions
fails, and only by a division by zero, exactly if the value of some divisor in it is 0. If it does
not fail, its value is the integer congruent to the exact value too, where a quotient is that of the
values of its operands: rounded toward zero, except that `-2 ^ 63` divided by `-1` is `-2 ^ 63`. A
program of the expression ends with what the expression gives. -/
theorem gives_exact (e : Arithmetic) :
    ((∀ l r, ¬(combine .divide l r).PartOf e) →
      ∃ n : Int64, e.Gives (.integer n) ∧ -2 ^ 63 ≤ n.toInt ∧ n.toInt < 2 ^ 63 ∧
        n.toInt % 2 ^ 64 = e.exact % 2 ^ 64) ∧
    (e.Gives (.error .divisionByZero) ↔
      ∃ l r, (combine .divide l r).PartOf e ∧ r.Gives (.integer 0)) ∧
    (∀ fault, e.Gives (.error fault) → fault.message = "division by zero") ∧
    (¬e.Gives (.error .divisionByZero) →
      ∃ n : Int64, e.Gives (.integer n) ∧ -2 ^ 63 ≤ n.toInt ∧ n.toInt < 2 ^ 63 ∧
        n.toInt % 2 ^ 64 = e.exact % 2 ^ 64) ∧
    (∀ l r (a b : Int64), l.Gives (.integer a) → r.Gives (.integer b) → b ≠ 0 →
      ∃ q : Int64, (combine .divide l r).Gives (.integer q) ∧
        q.toInt = if a.toInt = -2 ^ 63 ∧ b.toInt = -1 then -2 ^ 63 else a.toInt.tdiv b.toInt) ∧
    ∀ v, e.Gives v → ∀ (scope : ScopeId) (σ : Store), ∃ steps,
      (Program.mk [.expression e.toExpr]).Ends none scope σ v (σ.withSteps steps) := by
  have hfails : e.Gives (.error .divisionByZero) ↔
      ∃ l r, (combine .divide l r).PartOf e ∧ r.Gives (.integer 0) := by
    rw [gives_error_iff, value?_eq_none_iff]
    simp only [gives_integer_iff]
  have hends (h : ¬e.Gives (.error .divisionByZero)) :
      ∃ n : Int64, e.Gives (.integer n) ∧ -2 ^ 63 ≤ n.toInt ∧ n.toInt < 2 ^ 63 ∧
        n.toInt % 2 ^ 64 = e.exact % 2 ^ 64 := by
    obtain ⟨n, hn⟩ : ∃ n, e.value? = some n :=
      Option.ne_none_iff_exists'.1 fun hnone => h (gives_error_iff.2 hnone)
    refine ⟨n, gives_integer_iff.2 hn, n.le_toInt, n.toInt_lt, ?_⟩
    rw [toInt_of_value? hn]
    exact Int.bmod_emod
  -- Without a division nothing can divide by zero, so the first part is `hends` again.
  refine ⟨fun hnone => hends fun h => ?_, hfails, fun fault h => ?_, hends,
    fun l r a b hl hr hb => ?_, fun v hv => hv.ends⟩
  · obtain ⟨l, r, hpart, -⟩ := hfails.1 h
    exact hnone l r hpart
  · rw [h.fault_eq]
    rfl
  · refine ⟨a / b, ?_, toInt_quotient a b⟩
    have hvalue : (combine .divide l r).value? = some (a / b) := by
      simp [value?, gives_integer_iff.1 hl, gives_integer_iff.1 hr, Operator.compute?, hb]
    exact gives_integer_iff.2 hvalue

/-- The greatest integer and 1 are the least one, which divided by -1 stays what it is. Twice the
greatest integer and 2 are 0, by which nothing can be divided. Both fall under `gives_exact`. -/
theorem gives_exact_of_overflow :
    let greatest := literal Int64.maxValue
    let least := combine .add greatest (literal 1)
    let zero := combine .add (combine .add greatest greatest) (literal 2)
    (∃ n : Int64, (combine .divide least (negate (literal 1))).Gives (.integer n) ∧
      n.toInt = -2 ^ 63) ∧
    (combine .divide (literal 1) zero).Gives (.error .divisionByZero) := by
  intro greatest least zero
  have hleast : least.Gives (.integer Int64.minValue) := gives_integer_iff.2 rfl
  have hminus : (negate (literal 1)).Gives (.integer (-1)) := gives_integer_iff.2 rfl
  have hzero : zero.Gives (.integer 0) := gives_integer_iff.2 rfl
  obtain ⟨-, -, -, -, hquotient, -⟩ := gives_exact least
  obtain ⟨-, hfails, -⟩ := gives_exact (combine .divide (literal 1) zero)
  constructor
  · obtain ⟨q, hq, hvalue⟩ := hquotient least _ _ _ hleast hminus (by decide)
    exact ⟨q, hq, hvalue.trans (if_pos ⟨Int64.toInt_minValue, rfl⟩)⟩
  · exact hfails.2 ⟨literal 1, zero, .whole, hzero⟩

end Arithmetic

end Monkey
