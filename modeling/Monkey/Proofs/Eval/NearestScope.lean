import Mathlib.Data.List.Basic
import Monkey.Proofs.Eval.Scoping

/-!
# `Monkey.Proofs.Eval.NearestScope`: what a name means

A host makes scopes, alone or inside others, sets names on them and gets
what names mean in them, in any order. Many scopes may lie in one scope and
share what it binds, and a name may be set on it when they are there
already. So what a name means in a scope hangs on two orders: on that of the
scopes, from the scope outward, and on that of the operations in time.

This module tells it from the operations alone. From the scope one goes
outward to the nearest scope on which the name has ever been set, and the
name means what it was set to there last.

* `ScopeOp` are the operations, and `ScopeHistory.store` is the store that
  operations make; `ScopeHistory.Feasible` says that they name scopes that
  are there.
* `Outward` are the scopes that are passed on the way outward,
  `ScopeHistory.Sets` and `ScopeHistory.Latest` say what has been set.
* `Store.lookup_eq_findSome?` is how a store looks for a name, and
  `ScopeHistory.bound?_store` what it knows of the operations.
* `ScopeHistory.lookup_nearest_latest` is the result.
-/

set_option autoImplicit false

namespace Monkey

/-! ### What a single scope binds -/

namespace Store

/-- What the scope itself binds the name to. -/
def bound? (σ : Store) (scope : ScopeId) (name : String) : Option Value :=
  (σ.scopes[scope]?).bind (·.get? name)

variable {σ : Store}

/-- A new scope binds nothing, and the others bind what they bound, so `bound?` is the same function
of scope and name before and after `addScope`. -/
theorem bound?_addScope (outer : Option ScopeId) (t : ScopeId) (x : String) :
    (σ.addScope outer).2.bound? t x = σ.bound? t x := by
  show ((σ.scopes.push ⟨[], outer⟩)[t]?).bind (·.get? x) = (σ.scopes[t]?).bind (·.get? x)
  rw [Array.getElem?_push]
  split
  · rename_i ht
    rw [ht, Array.getElem?_size]
    rfl
  · rfl

/-- Binding a name in a scope changes what `bound?` says of that scope and that name, and nothing
else. The scope has to exist, since `bind` does nothing elsewhere. -/
theorem bound?_bind {scope : ScopeId} (hscope : scope < σ.scopes.size) (name : String) (v : Value)
    (t : ScopeId) (x : String) :
    (σ.bind scope name v).bound? t x =
      if scope = t ∧ name = x then some v else σ.bound? t x := by
  unfold bound? bind
  rw [Array.getElem?_modify]
  by_cases ht : scope = t
  · subst ht
    rw [if_pos rfl, Array.getElem?_eq_getElem hscope]
    show ((σ.scopes[scope]).set name v).get? x = _
    simp only [Scope.get?_set, eq_comm (a := x), true_and]
    rfl
  · rw [if_neg ht, if_neg fun h => ht h.1]

end Store

/-! ### The way outward -/

/-- From the scope `s` outward these scopes are passed, the scope itself first. -/
inductive Outward (links : List (Option ScopeId)) : ScopeId → List ScopeId → Prop where
  | outermost {s : ScopeId} (h : links[s]? = some none) : Outward links s [s]
  | inside {s outer : ScopeId} {ts : List ScopeId} (h : links[s]? = some (some outer))
      (hts : Outward links outer ts) : Outward links s (s :: ts)

namespace Outward

variable {links : List (Option ScopeId)} {s : ScopeId}

/-- There is one way outward only, because `links` gives each scope one link at most. The cases in
which the two ways disagree about a link are impossible. -/
theorem unique {ts us : List ScopeId} (hts : Outward links s ts) (hus : Outward links s us) :
    us = ts := by
  induction hts generalizing us with
  | outermost h =>
      cases hus with
      | outermost => rfl
      | inside h' => cases h.symm.trans h'
  | inside h _ ih =>
      cases hus with
      | outermost h' => cases h.symm.trans h'
      | inside h' hus =>
          cases h.symm.trans h'
          rw [ih hus]

/-- Where `links` lead to earlier scopes, there is a way outward from every scope: strong induction
on its number `s`, which every link makes smaller. -/
theorem exists_of_lt (h : ∀ t outer : ScopeId, links[t]? = some (some outer) → outer < t)
    (hs : s < links.length) : ∃ ts, Outward links s ts := by
  induction s using Nat.strongRecOn with
  | ind s ih =>
      cases hlink : links[s] with
      | none => exact ⟨[s], .outermost (List.getElem?_eq_some_iff.2 ⟨hs, hlink⟩)⟩
      | some outer =>
          have hlink : links[s]? = some (some outer) := List.getElem?_eq_some_iff.2 ⟨hs, hlink⟩
          have hlt := h s outer hlink
          obtain ⟨ts, hts⟩ := ih outer hlt (Nat.lt_trans hlt hs)
          exact ⟨s :: ts, .inside hlink hts⟩

/-- Where `links` lead to earlier scopes, each scope that is passed is earlier than those before. No
scope is passed twice, therefore, which `lookup_set_of_sees` needs. -/
theorem pairwise (h : ∀ t outer : ScopeId, links[t]? = some (some outer) → outer < t)
    {ts : List ScopeId} (hts : Outward links s ts) :
    (∀ t ∈ ts, t ≤ s) ∧ ts.Pairwise (· > ·) := by
  induction hts with
  | outermost => simp
  | @inside s outer ts hlink _ ih =>
      obtain ⟨hle, hpairwise⟩ := ih
      have hlt : ∀ t ∈ ts, t < s := fun t ht => Nat.lt_of_le_of_lt (hle t ht) (h s outer hlink)
      refine ⟨fun t ht => ?_, List.pairwise_cons.2 ⟨hlt, hpairwise⟩⟩
      rcases List.mem_cons.1 ht with rfl | ht
      · exact Nat.le_refl _
      · exact Nat.le_of_lt (hlt t ht)

end Outward

/-- Looking for a name, a store goes outward to the first scope that binds it: `lookup` is
`findSome?` of `bound?` along the way, by induction on `Outward`. -/
theorem Store.lookup_eq_findSome? {σ : Store}
    (h : ∀ t outer : ScopeId, σ.links[t]? = some (some outer) → outer < t) {s : ScopeId}
    {ts : List ScopeId} (hts : Outward σ.links s ts) (x : String) :
    σ.lookup s x = ts.findSome? fun t => σ.bound? t x := by
  induction hts with
  | @outermost s hlink =>
      obtain ⟨scope, hscope, houter⟩ := Option.map_eq_some_iff.1 (σ.getElem?_links s ▸ hlink)
      rw [lookup, List.findSome?_singleton, bound?, hscope, Option.bind_some]
      dsimp only
      cases scope.get? x with
      | some v => rfl
      | none => rw [houter]
  | @inside s outer ts hlink _ ih =>
      obtain ⟨scope, hscope, houter⟩ := Option.map_eq_some_iff.1 (σ.getElem?_links s ▸ hlink)
      rw [lookup, List.findSome?_cons, bound?, hscope, Option.bind_some]
      dsimp only
      cases scope.get? x with
      | some v => rfl
      | none =>
          rw [houter]
          dsimp only
          -- `lookup` goes on only to an earlier scope, and `h` says that the link leads to one.
          rw [if_pos (h s outer hlink), ih]

/-! ### Operations -/

/-- What a host does with scopes: it makes one, alone or inside another, it sets a name on one, or
it gets what a name means in one. -/
inductive ScopeOp where
  | root
  | enclosed (outer : ScopeId)
  | set (scope : ScopeId) (name : String) (v : Value)
  | get (scope : ScopeId) (name : String)

namespace ScopeOp

/-- What the operation makes of a store. Getting leaves it as it is. -/
def perform (op : ScopeOp) (σ : Store) : Store :=
  match op with
  | root => (σ.addScope none).2
  | enclosed outer => (σ.addScope (some outer)).2
  | set scope name v => σ.bind scope name v
  | get _ _ => σ

/-- Every scope that the operation names is one of the first `n`. -/
def Within (n : Nat) : ScopeOp → Prop
  | root => True
  | enclosed outer => outer < n
  | set scope _ _ => scope < n
  | get scope _ => scope < n

instance (n : Nat) : (op : ScopeOp) → Decidable (op.Within n)
  | root => inferInstanceAs (Decidable True)
  | enclosed outer => inferInstanceAs (Decidable (outer < n))
  | set scope _ _ => inferInstanceAs (Decidable (scope < n))
  | get scope _ => inferInstanceAs (Decidable (scope < n))

/-- Inside which scope the operation makes a new one, if it makes one. -/
def link? : ScopeOp → Option (Option ScopeId)
  | root => some none
  | enclosed outer => some (some outer)
  | set _ _ _ => none
  | get _ _ => none

/-- What the operation sets the name to on the scope, if it does so. -/
def value? (scope : ScopeId) (name : String) : ScopeOp → Option Value
  | set t x v => if t = scope ∧ x = name then some v else none
  | _ => none

/-- The scopes stay where they are when an operation is performed, and the one that is made, if
`link?` names one, comes behind them. -/
theorem links_perform (op : ScopeOp) (σ : Store) :
    (op.perform σ).links = σ.links ++ op.link?.toList := by
  cases op with
  | root => exact σ.links_addScope none
  | enclosed outer => exact σ.links_addScope (some outer)
  | set scope name v => exact (σ.links_bind scope name v).trans (List.append_nil _).symm
  | get scope name => exact (List.append_nil _).symm

/-- An operation sets the name on the scope to `v` exactly if it is that `set`. The reading of
`value?` with which histories are searched. -/
theorem value?_eq_some {op : ScopeOp} {scope : ScopeId} {name : String} {v : Value} :
    op.value? scope name = some v ↔ op = .set scope name v := by
  cases op with
  | set t x w => simp [value?, and_assoc]
  | _ => simp [value?]

end ScopeOp

/-! ### Histories -/

/-- Operations, the earliest first. -/
abbrev ScopeHistory : Type := List ScopeOp

namespace ScopeHistory

/-- The store that the operations make, beginning with nothing. -/
def store (h : ScopeHistory) : Store := h.foldl (fun σ op => op.perform σ) .empty

/-- Inside which scope each scope was made, in the order in which they were made. -/
def links (h : ScopeHistory) : List (Option ScopeId) := h.filterMap ScopeOp.link?

/-- Each operation names scopes that were made before it. -/
inductive Feasible : ScopeHistory → Prop where
  | nil : Feasible []
  | concat {h : ScopeHistory} (hh : Feasible h) (op : ScopeOp) (hop : op.Within h.links.length) :
      Feasible (h ++ [op])

/-- The name has been set on the scope. -/
def Sets (h : ScopeHistory) (scope : ScopeId) (name : String) : Prop :=
  ∃ v, .set scope name v ∈ h

/-- The name was set to the value on the scope, and not set there again later. -/
def Latest (h : ScopeHistory) (scope : ScopeId) (name : String) (v : Value) : Prop :=
  ∃ earlier later, h = earlier ++ .set scope name v :: later ∧ ¬Sets later scope name

/-- From the scope `s` outward the scope `t` comes before any other on which the name has been
set. -/
def Sees (h : ScopeHistory) (s t : ScopeId) (name : String) : Prop :=
  ∃ nearer further, Outward h.links s (nearer ++ t :: further) ∧ ∀ u ∈ nearer, ¬h.Sets u name

/-- What the name was set to on the scope last. -/
def last? (h : ScopeHistory) (scope : ScopeId) (name : String) : Option Value :=
  h.reverse.findSome? (ScopeOp.value? scope name)

section

variable {h : ScopeHistory} {op : ScopeOp} {t : ScopeId} {x : String} {v : Value}

/-- The last operation is asked first: what it sets the name to, and otherwise what was set before.
Here the list is taken apart at its end, as `store_concat` does. -/
theorem last?_concat :
    last? (h ++ [op]) t x = (op.value? t x).or (h.last? t x) := by
  rw [last?, List.reverse_append, List.reverse_singleton, List.singleton_append,
    List.findSome?_cons]
  cases op.value? t x <;> rfl

/-- Nothing is found by `last?` exactly if the name has never been set on the scope, in the sense of
`Sets`. -/
theorem last?_eq_none : h.last? t x = none ↔ ¬h.Sets t x := by
  rw [last?, List.findSome?_eq_none_iff, Sets]
  constructor
  · rintro hnone ⟨v, hv⟩
    cases (hnone _ (List.mem_reverse.2 hv)).symm.trans (ScopeOp.value?_eq_some.2 rfl)
  · rintro hnot op hop
    refine Option.eq_none_iff_forall_ne_some.2 fun v hv => hnot ⟨v, ?_⟩
    exact ScopeOp.value?_eq_some.1 hv ▸ List.mem_reverse.1 hop

/-- What `last?` finds is the value of the `Latest` operation that set the name on the scope: the
first one from the end, which is what searching the reversed history comes to. -/
theorem last?_eq_some : h.last? t x = some v ↔ h.Latest t x v := by
  rw [last?, List.findSome?_eq_some_iff, Latest]
  constructor
  · rintro ⟨later, op, earlier, hsplit, hop, hlater⟩
    obtain rfl := ScopeOp.value?_eq_some.1 hop
    refine ⟨earlier.reverse, later.reverse, ?_, last?_eq_none.1 ?_⟩
    · rw [← List.reverse_reverse h, hsplit]
      simp
    · rw [last?, List.reverse_reverse]
      exact List.findSome?_eq_none_iff.2 hlater
  · rintro ⟨earlier, later, rfl, hlater⟩
    refine ⟨later.reverse, .set t x v, earlier.reverse, by simp, ScopeOp.value?_eq_some.2 rfl, ?_⟩
    exact List.findSome?_eq_none_iff.1 (last?_eq_none.2 hlater)

/-- One more operation is performed on the store of those before it. All inductions here are on
histories that grow at their end, as `Feasible` does. -/
theorem store_concat (h : ScopeHistory) (op : ScopeOp) :
    store (h ++ [op]) = op.perform h.store := by
  rw [store, List.foldl_append]
  rfl

/-- One more operation adds its link, if it makes a scope, behind those of the earlier ones. The
counterpart of `store_concat` for `links`. -/
theorem links_concat (h : ScopeHistory) (op : ScopeOp) :
    links (h ++ [op]) = h.links ++ op.link?.toList := by
  rw [links, List.filterMap_append]
  cases op <;> rfl

/-- Setting a name makes no scope, so the ways outward, which `Outward` takes from `links`, are the
same before and after. -/
theorem links_concat_set (h : ScopeHistory) (t : ScopeId) (x : String) (v : Value) :
    links (h ++ [.set t x v]) = h.links := by
  rw [links_concat]
  exact List.append_nil _

end

/-! ### What a store knows of a history -/

/-- The scopes of the store lie as they were made: what `links` reads off the history is what the
store holds, by `links_perform` at each operation. -/
theorem Feasible.links_store {h : ScopeHistory} (hh : h.Feasible) : h.store.links = h.links := by
  induction hh with
  | nil => rfl
  | @concat h _ op _ ih => rw [store_concat, links_concat, op.links_perform, ih]

/-- There are as many scopes as were made, so that `Feasible`, which counts the links of a history,
says that every scope named by an operation exists. -/
theorem Feasible.size_scopes_store {h : ScopeHistory} (hh : h.Feasible) :
    h.store.scopes.size = h.links.length := by
  rw [← hh.links_store, Store.length_links]

/-- Every scope was made inside an earlier one, if inside any, because a feasible `enclosed` names a
scope that is there already. Without it a lookup might go round. -/
theorem Feasible.outward {h : ScopeHistory} (hh : h.Feasible) :
    ∀ t outer : ScopeId, h.links[t]? = some (some outer) → outer < t := by
  induction hh with
  | nil => exact fun t outer ht => nomatch ht
  | @concat h _ op hop ih =>
      intro t outer ht
      rw [links_concat] at ht
      rcases Nat.lt_or_ge t h.links.length with hlt | hge
      · rw [List.getElem?_append_left hlt] at ht
        exact ih t outer ht
      · -- This is the scope that has just been made, so it was made inside an earlier one.
        rw [List.getElem?_append_right hge] at ht
        cases op with
        | enclosed o =>
            have hmem : some outer ∈ [some o] := List.mem_of_getElem? ht
            rw [Option.some.inj (List.mem_singleton.1 hmem)]
            exact Nat.lt_of_lt_of_le hop hge
        | root => cases List.mem_singleton.1 (List.mem_of_getElem? ht)
        | set => cases ht
        | get => cases ht

/-- A scope binds a name to what the name was set to there last. Induction on the history:
`bound?_bind` for `set`, `bound?_addScope` for a new scope. -/
theorem bound?_store {h : ScopeHistory} (hh : h.Feasible) (t : ScopeId) (x : String) :
    h.store.bound? t x = h.last? t x := by
  induction hh with
  | nil => rfl
  | @concat h hh op hop ih =>
      rw [store_concat, last?_concat, ← ih]
      cases op with
      | root => exact Store.bound?_addScope none t x
      | enclosed outer => exact Store.bound?_addScope (some outer) t x
      | set scope name v =>
          rw [ScopeOp.perform, Store.bound?_bind (hh.size_scopes_store ▸ hop), ScopeOp.value?]
          split <;> rfl
      | get scope name => rfl

/-- Looking for a name, one goes outward to the first scope on which it has been set. It joins
`Store.lookup_eq_findSome?` to `bound?_store`. -/
theorem lookup_store {h : ScopeHistory} (hh : h.Feasible) {s : ScopeId} {ts : List ScopeId}
    (hts : Outward h.links s ts) (x : String) :
    h.store.lookup s x = ts.findSome? fun t => h.last? t x := by
  rw [← hh.links_store] at hts
  rw [Store.lookup_eq_findSome? (hh.links_store ▸ hh.outward) hts]
  simp only [bound?_store hh]

section

variable {h : ScopeHistory} {s t : ScopeId} {x : String} {v : Value}

/-- A name means nothing in a scope exactly if it has been set on no scope of the way `ts` outward,
by `last?_eq_none` at each of them. -/
theorem Feasible.lookup_store_eq_none (hh : h.Feasible) {ts : List ScopeId}
    (hts : Outward h.links s ts) : h.store.lookup s x = none ↔ ∀ t ∈ ts, ¬h.Sets t x := by
  rw [lookup_store hh hts, List.findSome?_eq_none_iff]
  simp only [last?_eq_none]

/-- A name means what it was set to last on the nearest scope outward on which it has been set:
`Sees` says which scope that is, and `Latest` which value. -/
theorem Feasible.lookup_store_eq_some (hh : h.Feasible) (hs : s < h.links.length) :
    h.store.lookup s x = some v ↔ ∃ t, h.Sees s t x ∧ h.Latest t x v := by
  obtain ⟨ts, hts⟩ := Outward.exists_of_lt hh.outward hs
  rw [lookup_store hh hts, List.findSome?_eq_some_iff]
  constructor
  · rintro ⟨nearer, t, further, rfl, hlast, hnearer⟩
    exact ⟨t, ⟨nearer, further, hts, fun u hu => last?_eq_none.1 (hnearer u hu)⟩,
      last?_eq_some.1 hlast⟩
  · rintro ⟨t, ⟨nearer, further, hway, hnearer⟩, hlatest⟩
    obtain rfl := hts.unique hway
    exact ⟨nearer, t, further, rfl, last?_eq_some.2 hlatest,
      fun u hu => last?_eq_none.2 (hnearer u hu)⟩

/-! ### Setting a name -/

/-- A name that is set on a scope is set there last, and on other scopes nothing is set. The case of
`last?_concat` in which the operation is a `set`. -/
theorem last?_concat_set (u : ScopeId) (y : String) :
    last? (h ++ [.set t x v]) u y = if t = u ∧ x = y then some v else h.last? u y := by
  rw [last?_concat, ScopeOp.value?]
  split <;> rfl

/-- Before one comes to the scope `t` on which a name is set, one finds what one found: none of the
scopes `us` that are passed is changed. -/
theorem findSome?_last?_concat_set {us : List ScopeId} (ht : t ∉ us) (y : String) :
    (us.findSome? fun u => last? (h ++ [.set t x v]) u y) = us.findSome? fun u => h.last? u y := by
  rw [← List.head?_filterMap, ← List.head?_filterMap]
  refine congrArg List.head? (List.filterMap_congr fun u hu => ?_)
  show last? (h ++ [.set t x v]) u y = h.last? u y
  rw [last?_concat_set, if_neg]
  rintro ⟨rfl, -⟩
  exact ht hu

/-- The way outward goes as before when a name has been set, only that the new history is asked at
each scope. Both halves of the effect of a `set` start here. -/
theorem lookup_store_concat_set (hh : h.Feasible) (ht : t < h.links.length) {ts : List ScopeId}
    (hts : Outward h.links s ts) (y : String) :
    (store (h ++ [.set t x v])).lookup s y =
      ts.findSome? fun u => last? (h ++ [.set t x v]) u y :=
  lookup_store (hh.concat (.set t x v) ht) ((links_concat_set h t x v).symm ▸ hts) y

/-- A name that is set means the new value wherever no other scope comes before. By
`Outward.pairwise` the scope `t` itself is not among the nearer ones. -/
theorem lookup_set_of_sees (hh : h.Feasible) (ht : t < h.links.length) (v : Value)
    (hsees : h.Sees s t x) : (store (h ++ [.set t x v])).lookup s x = some v := by
  obtain ⟨nearer, further, hway, hnearer⟩ := hsees
  -- On the way outward no scope is passed twice.
  have hnot : t ∉ nearer := fun hmem =>
    Nat.lt_irrefl t ((List.pairwise_append.1 (hway.pairwise hh.outward).2).2.2 t hmem t
      List.mem_cons_self)
  have hnone : (nearer.findSome? fun u => h.last? u x) = none :=
    List.findSome?_eq_none_iff.2 fun u hu => last?_eq_none.2 (hnearer u hu)
  rw [lookup_store_concat_set hh ht hway, List.findSome?_append,
    findSome?_last?_concat_set hnot, hnone, Option.none_or, List.findSome?_cons,
    last?_concat_set, if_pos ⟨rfl, rfl⟩]

/-- All else means what it meant: another name, or a scope from which `t` is hidden or not passed at
all. The cases are whether `t` lies on the way. -/
theorem lookup_set_of_not_sees (hh : h.Feasible) (ht : t < h.links.length) (v : Value)
    (hs : s < h.links.length) {y : String} (hnot : ¬(y = x ∧ h.Sees s t x)) :
    (store (h ++ [.set t x v])).lookup s y = h.store.lookup s y := by
  obtain ⟨ts, hts⟩ := Outward.exists_of_lt hh.outward hs
  rw [lookup_store_concat_set hh ht hts, lookup_store hh hts]
  by_cases hmem : t ∈ ts
  · obtain ⟨nearer, further, rfl, hnearer⟩ := List.eq_append_cons_of_mem hmem
    rw [List.findSome?_append, List.findSome?_append, findSome?_last?_concat_set hnearer]
    cases hfound : nearer.findSome? fun u => h.last? u y with
    | some w => rfl
    | none =>
        -- Nothing is found before one comes to `t`, so it is another name that is looked for.
        have hne : ¬x = y := by
          rintro rfl
          refine hnot ⟨rfl, nearer, further, hts, fun u hu => last?_eq_none.1 ?_⟩
          exact List.findSome?_eq_none_iff.1 hfound u hu
        simp only [last?_concat_set, hne, and_false, if_false]
  -- The way does not pass `t`.
  · exact findSome?_last?_concat_set hmem y

end

/-- A name means what it was set to last on the nearest scope on which it has been set.

Let a host make scopes, alone or inside others that are there, set names on them, and get what names
mean in them, in any order. From each scope there is one way outward. In the scope a name means
nothing if it has been set on no scope on that way. Otherwise it means what it was set to last on
the first of these on which it has been set.

So if a name is set on a scope, it means the new value in every scope from which that scope comes
before any other on which the name has been set. In all other scopes it means what it meant, and so
does every other name in every scope.

The first half is `Feasible.lookup_store_eq_none` and `Feasible.lookup_store_eq_some`; the second is
`lookup_set_of_sees` and `lookup_set_of_not_sees`. -/
theorem lookup_nearest_latest {h : ScopeHistory} (hh : h.Feasible) :
    (∀ s < h.links.length, ∃ way, Outward h.links s way ∧
      (∀ other, Outward h.links s other → other = way) ∧
      ∀ x, h.store.lookup s x = none ↔ ∀ t ∈ way, ¬h.Sets t x) ∧
    (∀ s < h.links.length, ∀ x v,
      h.store.lookup s x = some v ↔ ∃ t, h.Sees s t x ∧ h.Latest t x v) ∧
    ∀ t < h.links.length, ∀ x v, ∀ s < h.links.length,
      (h.Sees s t x → (store (h ++ [.set t x v])).lookup s x = some v) ∧
      ∀ y, ¬(y = x ∧ h.Sees s t x) →
        (store (h ++ [.set t x v])).lookup s y = h.store.lookup s y := by
  refine ⟨fun s hs => ?_, fun s hs x v => hh.lookup_store_eq_some hs, fun t ht x v s hs => ?_⟩
  · obtain ⟨way, hway⟩ := Outward.exists_of_lt hh.outward hs
    exact ⟨way, hway, fun other hother => hway.unique hother,
      fun x => hh.lookup_store_eq_none hway⟩
  · exact ⟨lookup_set_of_sees hh ht v, fun y => lookup_set_of_not_sees hh ht v hs⟩

/-- Scope 2 lies in scope 1, and scopes 1 and 3 in scope 0. When `x` is set on scope 0, scopes 1 and
3 see it, although they are older. Scope 2 keeps what was set on it. -/
theorem lookup_nearest_latest_of_shadow :
    let h : ScopeHistory := [.root, .enclosed 0, .enclosed 1, .enclosed 0, .get 1 "x",
      .set 2 "x" (.integer 1), .set 0 "x" (.integer 2)]
    let after : ScopeHistory := h ++ [.set 0 "x" (.integer 3)]
    h.Feasible ∧ h.links.length = 4 ∧ h.store.lookup 1 "x" = some (.integer 2) ∧
      after.store.lookup 1 "x" = some (.integer 3) ∧ after.store.lookup 3 "x" = some (.integer 3) ∧
      h.store.lookup 2 "x" = some (.integer 1) ∧ after.store.lookup 2 "x" = some (.integer 1) := by
  intro h after
  have hh : h.Feasible :=
    ((((((Feasible.nil.concat .root trivial).concat (.enclosed 0) (by decide)).concat
      (.enclosed 1) (by decide)).concat (.enclosed 0) (by decide)).concat (.get 1 "x")
        (by decide)).concat (.set 2 "x" (.integer 1)) (by decide)).concat
          (.set 0 "x" (.integer 2)) (by decide)
  have hway2 : Outward h.links 2 [2, 1, 0] := .inside rfl (.inside rfl (.outermost rfl))
  have hnot : ∀ t, t ≠ 0 → t ≠ 2 → ¬h.Sets t "x" := by
    rintro t h0 h2 ⟨v, hv⟩
    simp [h, h0, h2] at hv
  have hsees1 : h.Sees 1 0 "x" :=
    ⟨[1], [], .inside rfl (.outermost rfl), fun u hu => by
      rw [List.mem_singleton.1 hu]
      exact hnot 1 (by decide) (by decide)⟩
  have hsees3 : h.Sees 3 0 "x" :=
    ⟨[3], [], .inside rfl (.outermost rfl), fun u hu => by
      rw [List.mem_singleton.1 hu]
      exact hnot 3 (by decide) (by decide)⟩
  -- From scope 2 one comes to scope 2 before one comes to scope 0.
  have hsees2 : ¬h.Sees 2 0 "x" := by
    rintro ⟨nearer, further, hway, hnearer⟩
    have hsplit := hway2.unique hway
    cases nearer with
    | nil => cases hsplit
    | cons u nearer =>
        obtain ⟨rfl, -⟩ := List.cons.inj hsplit
        exact hnearer 2 List.mem_cons_self ⟨.integer 1, by simp [h]⟩
  obtain ⟨-, hmeans, hset⟩ := lookup_nearest_latest hh
  have hold : h.store.lookup 2 "x" = some (.integer 1) := by
    refine (hmeans 2 (by decide) "x" _).2 ⟨2, ⟨[], [1, 0], hway2, nofun⟩, h.take 5, h.drop 6, rfl,
      ?_⟩
    rintro ⟨v, hv⟩
    simp [h] at hv
  refine ⟨hh, rfl, ?_, ?_, ?_, hold, ?_⟩
  · refine (hmeans 1 (by decide) "x" _).2 ⟨0, hsees1, h.take 6, [], rfl, ?_⟩
    rintro ⟨v, hv⟩
    cases hv
  · exact (hset 0 (by decide) "x" _ 1 (by decide)).1 hsees1
  · exact (hset 0 (by decide) "x" _ 3 (by decide)).1 hsees3
  · exact ((hset 0 (by decide) "x" _ 2 (by decide)).2 "x" fun hsees => hsees2 hsees.2).trans hold

end ScopeHistory

end Monkey
