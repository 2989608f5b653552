import Monkey.Builtin.Apply
import Monkey.Eval.Operators

/-!
# `Monkey.Proofs.Eval.Answers`: what primitive operations answer

Operators, indexing and the native functions make no values but simple
ones, parts of those that they are given, and arrays of such parts. So
they do not lead out of a class of values that holds the simple ones and,
with a value, all that it contains.

* `DownwardClosed` says so of a class.
* `Value.Answers` is what an operation on values of a class gives, and
  `Value.Arrives` what may come out of an evaluation that hands on only
  values of the class.
* `Native` lists the ways in which a native function ends.
-/

set_option autoImplicit false

namespace Monkey

/-- A class of values that holds the simple ones, and with a value all that it contains. -/
structure DownwardClosed (V : Value → Prop) : Prop where
  integer (n : Int64) : V (.integer n)
  boolean (b : Bool) : V (.boolean b)
  string (content : String) : V (.string content)
  null : V .null
  builtin (b : Builtin) : V (.builtin b)
  element {i : Identity} {vs : List Value} : V (.array i vs) → ∀ v ∈ vs, V v
  entry {i : Identity} {t : Table Value} : V (.hash i t) → ∀ p ∈ t.pairs, V p.1 ∧ V p.2
  returned {v : Value} : V (.returned v) → V v

/-! ### Parts of tables -/

/-- A pair that is found in a table stands in it, so what holds of all of `pairs` holds of what
`get?` finds. By the slot the key leads to. -/
theorem Table.mem_of_get? {t : Table Value} {k : HashKey} {p : Value × Value}
    (h : t.get? k = some p) : p ∈ t.pairs := by
  unfold Table.get? at h
  split at h
  · exact List.mem_of_getElem? h
  · cases h

/-- Filing a pair adds no pair but that one: `insert` writes over an old pair or puts the new one at
the end. -/
theorem Table.mem_insert {t : Table Value} {k : HashKey} {p q : Value × Value}
    (h : q ∈ (t.insert k p).pairs) : q = p ∨ q ∈ t.pairs := by
  unfold Table.insert at h
  split at h
  · exact (List.mem_or_eq_of_mem_set h).symm
  · rcases List.mem_append.1 h with h | h
    · exact .inr h
    · exact .inl (List.mem_singleton.1 h)

/-! ### Results -/

/-- What may come out of an evaluation where `V` may be handed on: an error, a value of the class,
or one on its way to a caller. -/
def Value.Arrives (V : Value → Prop) : Value → Prop
  | .returned v => V v
  | .error _ => True
  | v => V v

/-- What arrives and is no signal is a value of the class itself. The form in which a later part of
an evaluation gets the value of an earlier one. -/
theorem Value.Arrives.of_value {V : Value → Prop} {v : Value} (h : v.Arrives V)
    (hv : v.isSignal = false) : V v := by
  cases v with
  | returned => cases hv
  | error => cases hv
  | _ => exact h

/-- What may come out of a primitive operation on values of the class: an error, or a value of
the class. -/
def Value.Answers (V : Value → Prop) (v : Value) : Prop := v.isError = true ∨ V v

/-- What a primitive operation answers may arrive: an error does so as a signal, and a value of
the class as it is. -/
theorem Value.Answers.arrives {V : Value → Prop} (hV : DownwardClosed V) {v : Value}
    (h : v.Answers V) : v.Arrives V := by
  rcases h with herror | h
  · cases v with
    | error => trivial
    | _ => cases herror
  · cases v with
    | returned => exact hV.returned h
    | error => trivial
    | _ => exact h

/-- What is given to a caller may arrive where the result of the body may: `settle` takes a value
out of `returned` and leaves everything else. -/
theorem Value.Arrives.settle {V : Value → Prop} (hV : DownwardClosed V) {v : Value}
    (h : v.Arrives V) : v.settle.Arrives V := by
  cases v with
  | returned v => exact Value.Answers.arrives hV (.inr h)
  | _ => exact h

/-! ### Operators -/

namespace DownwardClosed

variable {V : Value → Prop}

/-- What a unary operator gives is an error or a simple value, whatever it is applied to. So nothing
is asked of `v`. -/
theorem unary (hV : DownwardClosed V) (op : UnaryOp) (v : Value) : (op.apply v).Answers V := by
  unfold UnaryOp.apply
  split
  -- Only `!` takes every value; `-` takes integers.
  · exact .inr (hV.boolean _)
  · exact .inr (hV.integer _)
  · exact .inl rfl

/-- What a binary operator gives is an error or a simple value: an integer, a truth value or a
string. By the kinds of its operands, as `BinaryOp.apply` tells them apart. -/
theorem binary (hV : DownwardClosed V) (op : BinaryOp) (a b : Value) :
    (op.apply a b).Answers V := by
  unfold BinaryOp.apply
  split
  · -- Two integers: of all operators on them only division can fail.
    cases op with
    | divide =>
        unfold BinaryOp.onIntegers
        dsimp only
        split
        · exact .inl rfl
        · exact .inr (hV.integer _)
    | add => exact .inr (hV.integer _)
    | subtract => exact .inr (hV.integer _)
    | multiply => exact .inr (hV.integer _)
    | _ => exact .inr (hV.boolean _)
  · -- Two strings can be put together only.
    split
    · exact .inr (hV.string _)
    · exact .inl rfl
  · -- Any two values of one kind can be compared.
    split
    · cases op with
      | equal => exact .inr (hV.boolean _)
      | notEqual => exact .inr (hV.boolean _)
      | _ => exact .inl rfl
    · exact .inl rfl

/-- What indexing gives is an error, null, or part of what is indexed. Here the class must be closed
under parts, which `DownwardClosed` has for elements and entries. -/
theorem index (hV : DownwardClosed V) {v : Value} (h : V v) (i : Value) :
    (v.index i).Answers V := by
  unfold Value.index
  split
  · -- An element of an array, or null where there is none.
    rename_i elements n
    unfold elementAt
    split
    · exact .inr hV.null
    · cases hget : elements[n.toInt.toNat]? with
      | none => exact .inr hV.null
      | some e => exact .inr (hV.element h e (List.mem_of_getElem? hget))
  · -- What a key of a hash is filed with.
    rename_i table
    split
    · rename_i k _
      cases hget : table.get? k with
      | none => exact .inr hV.null
      | some p => exact .inr (hV.entry h p (Table.mem_of_get? hget)).2
    · exact .inl rfl
  · exact .inl rfl

end DownwardClosed

/-! ### Native functions -/

/-- How a native function on values of a class ends: with an answer, with a new array of values of
the class, or by printing. -/
inductive Native (V : Value → Prop) : Eval Value → Prop where
  | give {v : Value} (h : v.Answers V) : Native V (pure v)
  | array {vs : List Value} (h : ∀ v ∈ vs, V v) : Native V (Eval.newArray vs)
  | print (text : String) : Native V (do modify (·.print text); pure .null)

namespace Native

variable {V : Value → Prop}

/-- A native function that works on arrays is `Native` if it is so on every list of elements of
the class. Anything but an array is an error. -/
theorem withElements (hV : DownwardClosed V) (b : Builtin) {v : Value} (h : V v)
    {next : List Value → Eval Value} (hnext : ∀ vs, (∀ v ∈ vs, V v) → Native V (next vs)) :
    Native V (b.withElements v next) := by
  cases v with
  | array i vs => exact hnext vs (hV.element h)
  | _ => exact .give (.inl rfl)

/-- Every native function is `Native` on values of the class: it answers, makes an array of what it
was given, or prints. By the function and the number of its arguments. -/
theorem builtin (hV : DownwardClosed V) (b : Builtin) {args : List Value} (h : ∀ v ∈ args, V v) :
    Native V (b.apply args) := by
  unfold Builtin.apply
  split
  · -- `puts`
    exact .print _
  · -- `len`
    rename_i v
    cases v with
    | string => exact .give (.inr (hV.integer _))
    | array => exact .give (.inr (hV.integer _))
    | _ => exact .give (.inl rfl)
  · -- `first`
    rename_i v
    refine withElements hV _ (h v List.mem_cons_self) fun vs hvs => .give (.inr ?_)
    cases vs with
    | nil => exact hV.null
    | cons w ws => exact hvs w List.mem_cons_self
  · -- `last`
    rename_i v
    refine withElements hV _ (h v List.mem_cons_self) fun vs hvs => .give (.inr ?_)
    cases hlast : vs.getLast? with
    | none => exact hV.null
    | some w => exact hvs w (List.mem_of_getLast? hlast)
  · -- `rest`
    rename_i v
    refine withElements hV _ (h v List.mem_cons_self) fun vs hvs => ?_
    cases vs with
    | nil => exact .give (.inr hV.null)
    | cons w ws => exact .array fun u hu => hvs u (List.mem_cons_of_mem w hu)
  · -- `push`
    rename_i v w
    refine withElements hV _ (h v List.mem_cons_self) fun vs hvs => .array fun u hu => ?_
    rcases List.mem_append.1 hu with hu | hu
    · exact hvs u hu
    · exact h u (List.mem_cons_of_mem v hu)
  -- Another number of arguments is an error.
  · exact .give (.inl rfl)
  · exact .give (.inl rfl)

end Native

end Monkey
