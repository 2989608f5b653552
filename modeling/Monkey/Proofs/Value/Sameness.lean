import Monkey.Eval.Operators

/-!
# `Monkey.Proofs.Value.Sameness`: when the language takes two values for the same

What the language's `==` tells two values apart by is their `mark?`: what
they are for plain values, the identity for arrays, hashes and functions.
Strings have none, and neither have signals. `BinaryOp.apply_equal` says
that `==` compares marks wherever it is defined, which is for two values
of one kind that is not the kind of strings. It is an equivalence there
because equality of marks is.

A host compares by contents. Equal marks mean equal values unless there is
an identity in them (`Value.eq_or_identity`), so that the language's `==`
implies the host's where an identity belongs to one value only
(`EqualityLaws.of_unique`).
-/

set_option autoImplicit false

namespace Monkey

/-! ### Host equality -/

mutual

/-- Every value holds what it holds. The recursion is that of `same`, through lists of values and of
pairs. -/
theorem Value.same_refl : (v : Value) → Value.same v v = true
  | .integer _ => by simp [Value.same]
  | .boolean _ => by simp [Value.same]
  | .string _ => by simp [Value.same]
  | .null => rfl
  | .array _ vs => by simp [Value.same, Value.sameList_refl vs]
  | .hash _ ⟨ps, ss⟩ => by simp [Value.same, Value.samePairs_refl ps]
  | .function _ _ => by simp [Value.same]
  | .builtin _ => by simp [Value.same]
  | .returned v => by simp [Value.same, Value.same_refl v]
  | .error _ => by simp [Value.same]

/-- Every list of values holds what it holds, element by element. Mutual with `Value.same_refl`. -/
theorem Value.sameList_refl : (vs : List Value) → Value.sameList vs vs = true
  | [] => rfl
  | v :: vs => by simp [Value.sameList, Value.same_refl v, Value.sameList_refl vs]

/-- Every list of pairs holds what it holds, keys and values. Mutual with `Value.same_refl`. -/
theorem Value.samePairs_refl : (ps : List (Value × Value)) → Value.samePairs ps ps = true
  | [] => rfl
  | (k, v) :: ps => by
      simp [Value.samePairs, Value.same_refl k, Value.same_refl v, Value.samePairs_refl ps]

end

/-! ### Marks -/

namespace Value

/-- The identity of a value, if its kind has identities. -/
def identity? : Value → Option Identity
  | array i _ => some i
  | hash i _ => some i
  | function i _ => some i
  | _ => none

/-- What the language tells values apart by. -/
inductive Mark where
  | integer (n : Int64)
  | boolean (b : Bool)
  | null
  | array (identity : Identity)
  | hash (identity : Identity)
  | function (identity : Identity)
  | builtin (b : Builtin)
  deriving DecidableEq

/-- The mark of a value. Strings and signals have none. -/
def mark? : Value → Option Mark
  | integer n => some (.integer n)
  | boolean b => some (.boolean b)
  | null => some .null
  | array i _ => some (.array i)
  | hash i _ => some (.hash i)
  | function i _ => some (.function i)
  | builtin b => some (.builtin b)
  | string _ => none
  | returned _ => none
  | error _ => none

/-- Values that have one mark are one value, unless they only share an identity. For numbers,
booleans and builtins the mark is the value. -/
theorem eq_or_identity {a b : Value} {m : Mark} (ha : a.mark? = some m) (hb : b.mark? = some m) :
    a = b ∨ ∃ i, a.identity? = some i ∧ b.identity? = some i := by
  cases a <;> cases ha <;> cases b <;> cases hb <;> simp [identity?]

/-- A value that is neither a string nor a signal has a mark, one case for each of the other kinds.
-/
theorem isSome_mark? {a : Value} (hsignal : a.isSignal = false) (hkind : a.kind ≠ .string) :
    ∃ m, a.mark? = some m := by
  cases a with
  | string => exact absurd rfl hkind
  | returned => cases hsignal
  | error => cases hsignal
  | _ => exact ⟨_, rfl⟩

/-- Values that have one mark are of one kind, which is not that of strings. Marks of different
kinds are different constructors. -/
theorem kind_eq_of_mark? {a b : Value} {m : Mark} (ha : a.mark? = some m)
    (hb : b.mark? = some m) : a.kind = b.kind ∧ a.kind ≠ .string := by
  cases a <;> cases ha <;> cases b <;> cases hb <;> simp [kind]

end Value

/-! ### The language's equality -/

namespace BinaryOp

/-- On two values of one kind that have marks, `==` compares the marks and `!=` says the opposite.
From here on operators are not looked into any more. -/
theorem apply_equal {a b : Value} {m n : Value.Mark} (ha : a.mark? = some m)
    (hb : b.mark? = some n) (hkind : a.kind = b.kind) :
    equal.apply a b = .boolean (decide (m = n)) ∧
      notEqual.apply a b = .boolean (!decide (m = n)) := by
  cases a <;> cases ha <;> cases b <;> cases hb <;> cases hkind <;>
    simp [apply, onIntegers, onOthers, Value.identical, Value.kind, Bool.beq_eq_decide_eq, bne]

/-- On values of two kinds, and on strings, every operator but `+` is an error. Strings are excluded
with `a.kind ≠ .string`, since `+` joins them. -/
theorem isError_apply {op : BinaryOp} (hop : op ≠ .add) {a b : Value}
    (h : ¬(a.kind = b.kind ∧ a.kind ≠ .string)) : (op.apply a b).isError = true := by
  unfold apply
  split
  · exact absurd ⟨rfl, by simp [Value.kind]⟩ h
  · rw [if_neg hop]
    rfl
  · rename_i hstrings
    split
    · rename_i hkind
      -- Two values of the kind of strings are strings.
      have hstring : a.kind = .string := Classical.byContradiction fun hne => h ⟨hkind, hne⟩
      cases a <;> cases hstring
      cases b <;> cases hkind
      exact absurd rfl (hstrings _ _ rfl)
    · rfl

end BinaryOp

open BinaryOp in
/-- What is true of the language's equality on values of a class. -/
structure EqualityLaws (V : Value → Prop) : Prop where
  /-- It answers on two values of one kind that is not the kind of strings, and then `!=` has the
  opposite answer. -/
  answers {a b : Value} (ha : V a) (hb : V b) (hkind : a.kind = b.kind) (h : a.kind ≠ .string) :
    ∃ r, equal.apply a b = .boolean r ∧ notEqual.apply a b = .boolean !r
  /-- On other values there is an error. -/
  fails {a b : Value} (ha : V a) (hb : V b) (h : ¬(a.kind = b.kind ∧ a.kind ≠ .string)) :
    (equal.apply a b).isError = true ∧ (notEqual.apply a b).isError = true
  refl {a : Value} (ha : V a) (h : a.kind ≠ .string) : equal.apply a a = .boolean true
  symm {a b : Value} {r : Bool} (ha : V a) (hb : V b) (h : equal.apply a b = .boolean r) :
    equal.apply b a = .boolean r
  trans {a b c : Value} (ha : V a) (hb : V b) (hc : V c) (h : equal.apply a b = .boolean true)
    (h' : equal.apply b c = .boolean true) : equal.apply a c = .boolean true
  /-- What the language takes for the same, a host does. -/
  host {a b : Value} (ha : V a) (hb : V b) (h : equal.apply a b = .boolean true) :
    (a == b) = true
  /-- On plain values the language and a host agree. -/
  plain {a b : Value} (ha : V a) (hb : V b)
    (h : a.kind ∈ [.integer, .boolean, .null, .builtin]) :
    equal.apply a b = .boolean true ↔ (a == b) = true

namespace EqualityLaws

open BinaryOp

/-- Where `==` answers there are marks of one kind, and it has compared them. By `isError_apply` it
answers in no other case. -/
theorem marks_of_answer {a b : Value} {r : Bool} (ha : a.isSignal = false)
    (hb : b.isSignal = false) (h : equal.apply a b = .boolean r) :
    ∃ m n, a.mark? = some m ∧ b.mark? = some n ∧ a.kind = b.kind ∧ r = decide (m = n) := by
  have hkind : a.kind = b.kind ∧ a.kind ≠ .string := by
    refine Classical.byContradiction fun hne => ?_
    have herror := isError_apply (show equal ≠ .add by decide) hne
    rw [h] at herror
    cases herror
  obtain ⟨m, hm⟩ := Value.isSome_mark? ha hkind.2
  obtain ⟨n, hn⟩ := Value.isSome_mark? hb (hkind.1 ▸ hkind.2)
  rw [(apply_equal hm hn hkind.1).1, Value.boolean.injEq] at h
  exact ⟨m, n, hm, hn, hkind.1, h.symm⟩

/-- Equality `==` is true of two values exactly if they have one mark. In this form reflexivity,
symmetry and transitivity are facts about equality of marks. -/
theorem equal_iff_mark {a b : Value} (ha : a.isSignal = false) (hb : b.isSignal = false) :
    equal.apply a b = .boolean true ↔ ∃ m, a.mark? = some m ∧ b.mark? = some m := by
  constructor
  · intro h
    obtain ⟨m, n, hm, hn, -, hr⟩ := marks_of_answer ha hb h
    rw [of_decide_eq_true hr.symm] at hm
    exact ⟨n, hm, hn⟩
  · rintro ⟨m, hm, hn⟩
    rw [(apply_equal hm hn (Value.kind_eq_of_mark? hm hn).1).1, decide_eq_true rfl]

/-- The laws hold of a class without signals in which no two values share an identity: one field of
`EqualityLaws` after another, from `equal_iff_mark`. -/
theorem of_unique {V : Value → Prop} (hsignal : ∀ a, V a → a.isSignal = false)
    (hunique : ∀ a b i, V a → V b → a.identity? = some i → b.identity? = some i → a = b) :
    EqualityLaws V where
  answers ha hb hkind h := by
    obtain ⟨m, hm⟩ := Value.isSome_mark? (hsignal _ ha) h
    obtain ⟨n, hn⟩ := Value.isSome_mark? (hsignal _ hb) (hkind ▸ h)
    exact ⟨_, apply_equal hm hn hkind⟩
  fails _ _ h := ⟨isError_apply (by decide) h, isError_apply (by decide) h⟩
  refl ha h := by
    obtain ⟨m, hm⟩ := Value.isSome_mark? (hsignal _ ha) h
    exact (equal_iff_mark (hsignal _ ha) (hsignal _ ha)).2 ⟨m, hm, hm⟩
  symm ha hb h := by
    obtain ⟨m, n, hm, hn, hkind, rfl⟩ := marks_of_answer (hsignal _ ha) (hsignal _ hb) h
    rw [(apply_equal hn hm hkind.symm).1, Value.boolean.injEq, decide_eq_decide]
    exact eq_comm
  trans ha hb hc h h' := by
    obtain ⟨m, hm, hn⟩ := (equal_iff_mark (hsignal _ ha) (hsignal _ hb)).1 h
    obtain ⟨n, hn', hc'⟩ := (equal_iff_mark (hsignal _ hb) (hsignal _ hc)).1 h'
    rw [hn, Option.some.injEq] at hn'
    exact (equal_iff_mark (hsignal _ ha) (hsignal _ hc)).2 ⟨m, hm, hn' ▸ hc'⟩
  -- Only here is `hunique` needed: marks tell arrays, hashes and functions apart by identity.
  host {a b} ha hb h := by
    obtain ⟨m, hm, hn⟩ := (equal_iff_mark (hsignal _ ha) (hsignal _ hb)).1 h
    have heq : a = b := by
      rcases Value.eq_or_identity hm hn with heq | ⟨i, hi, hj⟩
      · exact heq
      · exact hunique a b i ha hb hi hj
    rw [heq]
    exact Value.same_refl b
  plain {a b} ha hb h := by
    rw [equal_iff_mark (hsignal _ ha) (hsignal _ hb)]
    show _ ↔ Value.same a b = true
    cases a with
    | integer m => cases b <;> simp [Value.mark?, Value.same, eq_comm (a := m)]
    | boolean r => cases b <;> simp [Value.mark?, Value.same, eq_comm (a := r)]
    | null => cases b <;> simp [Value.mark?, Value.same]
    | builtin f => cases b <;> simp [Value.mark?, Value.same, eq_comm (a := f)]
    | _ => simp [Value.kind] at h

end EqualityLaws

end Monkey
