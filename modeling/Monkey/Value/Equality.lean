import Monkey.Value

/-!
# `Monkey.Value.Equality`: the two equalities of values

A host compares values by what they hold: arrays element by element,
hashes pair by pair in order, errors by their messages. Only functions
are compared by identity. This is the `==` of the type `Value`.

The language compares by identity wherever there is one:
`Value.identical` is what its `==` asks of two values of one kind.
-/

set_option autoImplicit false

namespace Monkey

mutual

/-- Whether two values hold the same. -/
def Value.same : Value → Value → Bool
  | .integer a, .integer b => a == b
  | .boolean a, .boolean b => a == b
  | .string a, .string b => a == b
  | .null, .null => true
  | .array _ as, .array _ bs => Value.sameList as bs
  | .hash _ ⟨ps, ss⟩, .hash _ ⟨qs, ts⟩ => Value.samePairs ps qs && ss == ts
  | .function i _, .function j _ => i == j
  | .builtin a, .builtin b => a == b
  | .returned a, .returned b => Value.same a b
  | .error a, .error b => a.message == b.message
  | _, _ => false

/-- Whether two lists of values hold the same in every place. -/
def Value.sameList : List Value → List Value → Bool
  | [], [] => true
  | a :: as, b :: bs => Value.same a b && Value.sameList as bs
  | _, _ => false

/-- Whether two lists of pairs hold the same in every place. -/
def Value.samePairs : List (Value × Value) → List (Value × Value) → Bool
  | [], [] => true
  | (a, c) :: ps, (b, d) :: qs => Value.same a b && Value.same c d && Value.samePairs ps qs
  | _, _ => false

end

instance : BEq Value := ⟨Value.same⟩

/-- Whether the language takes two values for the same one: those with an identity by it, truth
values by which they are, and native functions by name. -/
def Value.identical : Value → Value → Bool
  | .boolean a, .boolean b => a == b
  | .null, .null => true
  | .array i _, .array j _ => i == j
  | .hash i _, .hash j _ => i == j
  | .function i _, .function j _ => i == j
  | .builtin a, .builtin b => a == b
  | _, _ => false

end Monkey
