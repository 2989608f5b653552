import Monkey.Proofs.Eval.Transport

/-!
# `Monkey.Proofs.Eval.Content`: what a store holds

Scopes, arrays and hashes are filled with values that are handed on, and a
signal is not handed on. So whatever is true of everything but signals
stays true of everything that a store holds, however deep inside arrays
and hashes.

* `Store.Holds V` says that every binding is to a value of the class `V`,
  and `Primitive.keeps` that primitives keep it so.
* `Value.Throughout P` is the class of the values of which `P` holds
  throughout, in each of their parts (`Value.PartOf`).
* `Value.Functions P` is the class of the values with functions in them of
  which `P` holds.
-/

set_option autoImplicit false

namespace Monkey

/-! ### Stores of values of a class -/

/-- Of the bindings of a scope, binding a name changes none but that one: what is in `setIn` is the
new binding or was there. -/
theorem Scope.mem_setIn {name : String} {v : Value} {bs : List (String × Value)}
    {b : String × Value} (h : b ∈ Scope.setIn name v bs) : b = (name, v) ∨ b ∈ bs := by
  induction bs with
  | nil => exact .inl (List.mem_singleton.1 h)
  | cons c bs ih =>
      obtain ⟨x, w⟩ := c
      rw [Scope.setIn] at h
      split at h
      · rcases List.mem_cons.1 h with rfl | h
        · exact .inl rfl
        · exact .inr (List.mem_cons_of_mem _ h)
      · rcases List.mem_cons.1 h with rfl | h
        · exact .inr List.mem_cons_self
        · exact (ih h).imp_right (List.mem_cons_of_mem _)

/-- What `get?` says of a name is a binding of the scope, so what holds of all bindings holds of it.
-/
theorem Scope.mem_of_get? {s : Scope} {name : String} {v : Value} (h : s.get? name = some v) :
    (name, v) ∈ s.bindings := by
  obtain ⟨before, after, hbindings, -⟩ := List.lookup_eq_some_iff.1 h
  rw [hbindings]
  exact List.mem_append_right _ List.mem_cons_self

namespace Store

/-- Every scope of the store binds names to values of the class only. -/
def Holds (V : Value → Prop) (σ : Store) : Prop := ∀ s ∈ σ.scopes, ∀ b ∈ s.bindings, V b.2

variable {V : Value → Prop} {σ : Store}

/-- The empty store has no scope, so it `Holds` values of any class. -/
theorem holds_empty : Store.empty.Holds V := by
  intro s hs
  exact absurd hs (Array.not_mem_empty s)

/-- A new scope binds nothing, so the class of what is bound stays as it is, whatever the link
`outer` is. -/
theorem Holds.addScope (h : σ.Holds V) (outer : Option ScopeId) : (σ.addScope outer).2.Holds V := by
  intro s hs b hb
  rcases Array.mem_push.1 hs with hs | rfl
  · exact h s hs b hb
  · cases hb

/-- Binding a name to a value of the class adds only that value, by `Scope.mem_setIn`. -/
theorem Holds.bind (h : σ.Holds V) (scope : ScopeId) (name : String) {v : Value} (hv : V v) :
    (σ.bind scope name v).Holds V := by
  intro s hs b hb
  obtain ⟨i, hi⟩ := Array.mem_iff_getElem?.1 hs
  -- Only one scope has changed, and in it only one binding.
  rw [Store.bind, Array.getElem?_modify] at hi
  split at hi
  · rw [Option.map_eq_some_iff] at hi
    obtain ⟨old, hold, rfl⟩ := hi
    rcases Scope.mem_setIn hb with rfl | hb
    · exact hv
    · exact h old (Array.mem_of_getElem? hold) b hb
  · exact h s (Array.mem_of_getElem? hi) b hb

/-- Binding names to arguments of the class adds only these. By induction on the names, and the
arguments with them, by `Holds.bind` for each. -/
theorem Holds.bindAll (h : σ.Holds V) (scope : ScopeId) (names : List String) {args : List Value}
    (hargs : ∀ v ∈ args, V v) : (σ.bindAll scope names args).Holds V := by
  induction names generalizing σ args with
  | nil =>
      rw [Store.bindAll]
      · exact h
      · intros
        contradiction
  -- The loop ends as soon as either list does.
  | cons name names ih =>
      cases args with
      | nil =>
          rw [Store.bindAll]
          · exact h
          · intros
            contradiction
      | cons v vs =>
          rw [Store.bindAll]
          obtain ⟨hv, hvs⟩ := List.forall_mem_cons.1 hargs
          exact ih (h.bind scope name hv) hvs

/-- The scope of a call binds its arguments, so entering it keeps to the class if they are in it:
`Holds.addScope`, and then `Holds.bindAll`. -/
theorem Holds.enter (h : σ.Holds V) (outer : ScopeId) (names : List String) {args : List Value}
    (hargs : ∀ v ∈ args, V v) : (σ.enter outer names args).Holds V :=
  (h.addScope (some outer)).bindAll _ names hargs

/-- What a name means is bound in some scope, so it is in the class. By induction along the walk of
`lookup` outward. -/
theorem Holds.lookup (h : σ.Holds V) {scope : ScopeId} {name : String} {v : Value}
    (hv : σ.lookup scope name = some v) : V v := by
  fun_induction Store.lookup σ scope name with
  | case1 => cases hv
  | case2 scope s hs w hw =>
      cases hv
      exact h s (Array.mem_of_getElem? hs) (name, v) (Scope.mem_of_get? hw)
  | case3 => cases hv
  | case4 scope s hs hnone outer houter hlt ih => exact ih hv
  | case5 => cases hv

end Store

/-! ### Primitives -/

/-- What a name means is in the class if all that the store holds is. A native function is in every
`Hereditary` class, and an unknown name is an error. -/
theorem Store.Holds.meaning {V : Value → Prop} (hV : Hereditary V) {σ : Store} (h : σ.Holds V)
    (scope : ScopeId) (name : String) : (σ.meaning scope name).Answers V := by
  unfold Store.meaning
  split
  · rename_i v hv
    exact .inr (h.lookup hv)
  · split
    · exact .inr (hV.builtin _)
    · exact .inl rfl

/-- Every primitive answers, and keeps what a store holds. One case for each constructor of
`Primitive`; only `bind` writes to a scope, and its value is in the class by assumption. -/
theorem Primitive.keeps {V : Value → Prop} (hV : Hereditary V) {x : Eval Value}
    (hx : Primitive V x) {σ τ : Store} {v : Value} (hσ : σ.Holds V) (h : x σ = some (v, τ)) :
    v.Answers V ∧ τ.Holds V := by
  -- All constructors but `bind` leave the scopes alone, so the store keeps what it held.
  cases hx with
  | give hanswers =>
      obtain ⟨rfl, rfl⟩ := pure_eq_some.1 h
      exact ⟨hanswers, hσ⟩
  | identifier scope name =>
      rw [evalIdentifier_eq] at h
      cases h
      exact ⟨hσ.meaning hV scope name, hσ⟩
  | array hvs =>
      cases h
      exact ⟨.inr (hV.array.2 hvs), hσ⟩
  | hash hps =>
      cases h
      exact ⟨.inr (hV.hash.2 hps), hσ⟩
  | function c =>
      cases h
      exact ⟨.inr (hV.function _ c), hσ⟩
  | bind scope name hw =>
      cases h
      exact ⟨.inr hV.null, hσ.bind scope name hw⟩
  | print text =>
      cases h
      exact ⟨.inr hV.null, hσ⟩

/-! ### Parts of values -/

/-- `w.PartOf v`: the value `w` is `v` or stands somewhere inside it. -/
inductive Value.PartOf (w : Value) : Value → Prop where
  | whole : PartOf w w
  | element {i : Identity} {vs : List Value} {v : Value} (hv : v ∈ vs) (h : PartOf w v) :
      PartOf w (.array i vs)
  | key {i : Identity} {t : Table Value} {k v : Value} (hp : (k, v) ∈ t.pairs) (h : PartOf w k) :
      PartOf w (.hash i t)
  | entry {i : Identity} {t : Table Value} {k v : Value} (hp : (k, v) ∈ t.pairs)
      (h : PartOf w v) : PartOf w (.hash i t)
  | returned {v : Value} (h : PartOf w v) : PartOf w (.returned v)

/-- A predicate holds of every part of a value. -/
def Value.Throughout (P : Value → Prop) (v : Value) : Prop := ∀ w : Value, w.PartOf v → P w

/-- What holds of everything but signals holds throughout a value exactly when it holds throughout
the values inside. This makes `Value.Throughout` an instance of `Hereditary`. -/
theorem hereditary_throughout {P : Value → Prop} (hP : ∀ v : Value, v.isSignal = false → P v) :
    Hereditary (Value.Throughout P) where
  integer n w h := by cases h; exact hP _ rfl
  boolean b w h := by cases h; exact hP _ rfl
  string content w h := by cases h; exact hP _ rfl
  null w h := by cases h; exact hP _ rfl
  builtin b w h := by cases h; exact hP _ rfl
  function i c w h := by cases h; exact hP _ rfl
  array {i vs} := by
    constructor
    · intro h v hv w hw
      exact h w (.element hv hw)
    · intro h w hw
      cases hw with
      | whole => exact hP _ rfl
      | element hv hw => exact h _ hv w hw
  hash {i t} := by
    constructor
    · rintro h ⟨k, v⟩ hp
      exact ⟨fun w hw => h w (.key hp hw), fun w hw => h w (.entry hp hw)⟩
    · intro h w hw
      cases hw with
      | whole => exact hP _ rfl
      | key hp hw => exact (h _ hp).1 w hw
      | entry hp hw => exact (h _ hp).2 w hw
  -- A part of what is returned is a part of the return value, so `hP` is not needed.
  returned h w hw := h w (.returned hw)

/-! ### Functions in values -/

/-- `P` holds of every function that stands in a value, at any depth. -/
def Value.Functions (P : Closure → Prop) (v : Value) : Prop :=
  ∀ i f, (Value.function i f).PartOf v → P f

namespace Value.Functions

variable {P : Closure → Prop}

/-- What holds of every function in a value still does when the predicate `P` is weakened to `Q`. -/
theorem mono {Q : Closure → Prop} {v : Value} (h : v.Functions P) (hPQ : ∀ f, P f → Q f) :
    v.Functions Q := fun i f hf => hPQ f (h i f hf)

/-- The functions in an array are those in its elements, as `PartOf` goes into each of them and the
array is none itself. -/
theorem array {vs : List Value} (h : ∀ v ∈ vs, v.Functions P) (i : Identity) :
    (Value.array i vs).Functions P := by
  intro j f hf
  cases hf with
  | element hv hf => exact h _ hv j f hf

/-- The functions in a hash are those in its keys and values, by the constructors `key` and `entry`
of `PartOf`. -/
theorem hash {t : Table Value} (h : ∀ p ∈ t.pairs, p.1.Functions P ∧ p.2.Functions P)
    (i : Identity) : (Value.hash i t).Functions P := by
  intro j f hf
  cases hf with
  | key hp hf => exact (h _ hp).1 j f hf
  | entry hp hf => exact (h _ hp).2 j f hf

/-- The only function in a function is itself: a `Closure` has a body and a scope, and no values. -/
theorem function {f : Closure} (h : P f) (i : Identity) : (Value.function i f).Functions P := by
  intro j g hg
  cases hg with
  | whole => exact h

/-- There are no functions in an error, by `PartOf`, and in a value on its way to a caller no others
than are in the value. -/
theorem of_arrives {v : Value} (h : v.Arrives (Value.Functions P)) : v.Functions P := by
  cases v with
  | returned v =>
      intro i f hf
      cases hf with
      | returned hf => exact h i f hf
  | error fault =>
      intro i f hf
      cases hf
  | _ => exact h

/-- The functions in a part of a value are functions in the value, so `Value.Functions P` is
`DownwardClosed` for every `P`. -/
theorem downwardClosed (P : Closure → Prop) : DownwardClosed (Value.Functions P) where
  integer n i f hf := by cases hf
  boolean b i f hf := by cases hf
  string content i f hf := by cases hf
  null i f hf := by cases hf
  builtin b i f hf := by cases hf
  element h v hv i f hf := h i f (.element hv hf)
  entry h p hp := ⟨fun i f hf => h i f (.key hp hf), fun i f hf => h i f (.entry hp hf)⟩
  returned h i f hf := h i f (.returned hf)

end Value.Functions

end Monkey
