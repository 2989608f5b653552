import Monkey.Proofs.Eval.Content
import Monkey.Proofs.Eval.Watch
import Monkey.Proofs.Syntax.Names

/-!
# `Monkey.Proofs.Eval.Likeness`: stores that are alike to a program

Two stores can differ without a program noticing, if it neither names nor
reaches what is different. A `Likeness` says when two stores are alike, and
lists what has to be shown of it: one field for each way in which evaluation
reads or changes a store. A run then does the same in both stores, and
leaves stores that are alike again.

What can be reached grows while the evaluation goes on, because scopes and
values are made. So a likeness depends on a *world*, which says how much has
been made so far, and what is true in one world stays true in later ones.

The run in the first store is watched. So a likeness says something of every
store on the way too, and of what is seen in order (`Likeness.Passes`); with
two stores that are the same it is an invariant of evaluation.

* `Likeness` lists what has to be shown; `Likeness.Accords` is what is
  proved of an evaluation.
* `Likeness.unlessSignal`, `Likeness.inScope` and their like are the ways in
  which evaluations are put together, `Likeness.node` is one level of
  evaluation.
* `Likeness.run` is the result, for runs of programs.
* `Likeness.holding` is the likeness of a store and itself. Of it come
  `Program.outcome_watched`, a run that is watched ends as it does otherwise,
  and `Program.keeps`, a run keeps what a store holds.
-/

set_option autoImplicit false

namespace Monkey

/-! ### What has to be shown -/

/-- The values that evaluation makes anew, each with an identity of its own, of values of which `V`
holds, in scopes of which `S` holds, and with names of which `N` holds. -/
inductive Composed (N : String → Prop) (V : Value → Prop) (S : ScopeId → Prop) :
    (Identity → Value) → Prop where
  | array {vs : List Value} (h : ∀ v ∈ vs, V v) : Composed N V S fun i => .array i vs
  | hash {t : Table Value} (h : ∀ p ∈ t.pairs, V p.1 ∧ V p.2) : Composed N V S fun i => .hash i t
  | function {f : Closure} (hscope : S f.scope) (hnames : ∀ x ∈ f.names, N x) :
      Composed N V S fun i => .function i f

/-- A way in which stores are alike to programs that use names of which `N` holds.

In a world some values and some scopes are within reach; `stores` says which stores are alike. -/
structure Likeness (N : String → Prop) (World : Type) where
  later : World → World → Prop
  value : World → Value → Prop
  scope : World → ScopeId → Prop
  stores : World → Store → Store → Prop
  refl (w : World) : later w w
  trans {w w' w'' : World} : later w w' → later w' w'' → later w w''
  value_later {w w' : World} {v : Value} : later w w' → value w v → value w' v
  scope_later {w w' : World} {s : ScopeId} : later w w' → scope w s → scope w' s
  downward (w : World) : DownwardClosed (value w)
  /-- With a function its scope is within reach, and the names in it are such names. -/
  closure {w : World} {i : Identity} {f : Closure} :
    value w (.function i f) → scope w f.scope ∧ ∀ x ∈ f.names, N x
  /-- Both stores reach the limit at the same step. -/
  steps {w : World} {σ τ : Store} : stores w σ τ → σ.steps = τ.steps
  withSteps {w : World} {σ τ : Store} (k : Nat) :
    stores w σ τ → stores w (σ.withSteps k) (τ.withSteps k)
  print {w : World} {σ τ : Store} (text : String) :
    stores w σ τ → stores w (σ.print text) (τ.print text)
  /-- In both stores a name means the same, and what it means is within reach. -/
  lookup {w : World} {σ τ : Store} {s : ScopeId} {x : String} : stores w σ τ → scope w s → N x →
    σ.lookup s x = τ.lookup s x ∧ ∀ v, σ.lookup s x = some v → value w v
  bind {w : World} {σ τ : Store} {s : ScopeId} {x : String} {v : Value} : stores w σ τ →
    scope w s → N x → value w v → stores w (σ.bind s x v) (τ.bind s x v)
  addIdentity {w : World} {σ τ : Store} {make : Identity → Value} : stores w σ τ →
    Composed N (value w) (scope w) make →
    ∃ w', later w w' ∧ σ.identities = τ.identities ∧ value w' (make σ.identities) ∧
      stores w' σ.addIdentity.2 τ.addIdentity.2
  /-- The scope of a call has the same number in both stores. -/
  addScope {w : World} {σ τ : Store} {outer : ScopeId} : stores w σ τ → scope w outer →
    ∃ w', later w w' ∧ σ.scopes.size = τ.scopes.size ∧ scope w' σ.scopes.size ∧
      stores w' (σ.addScope (some outer)).2 (τ.addScope (some outer)).2

namespace Likeness

variable {N : String → Prop} {World : Type} (L : Likeness N World) {w w' : World}

/-! ### What is proved of an evaluation -/

/-- What may be seen in a world: a store is alike to another one, and values are within reach. -/
def Sees (w : World) : Sighting → Prop
  | .state σ => ∃ τ, L.stores w σ τ
  | .arguments args => ∀ v ∈ args, L.value w v
  | .result v => v.Arrives (L.value w)

/-- What may be seen of an evaluation that begins in the world `w` may be seen in some later one. -/
def Expected (w : World) (s : Sighting) : Prop := ∃ w', L.later w w' ∧ L.Sees w' s

/-- What is seen one after another, on the way from one world to another, may be seen in worlds of
which each is later than those before. -/
inductive Passes : World → List Sighting → World → Prop where
  | done {w w' : World} (hw : L.later w w') : Passes w [] w'
  | see {w w' w'' : World} {s : Sighting} {seen : List Sighting} (hw : L.later w w')
      (hs : L.Sees w' s) (h : Passes w' seen w'') : Passes w (s :: seen) w''

/-- Two evaluations both do not end, or they end with the same value, and in a later world it is
within reach and the stores are alike. -/
inductive Ended (w : World) : Option (Value × Store) → Option (Value × Store) → Prop where
  | never : Ended w none none
  | later {w' : World} {v : Value} {σ τ : Store} (hw : L.later w w') (hv : v.Arrives (L.value w'))
      (hστ : L.stores w' σ τ) : Ended w (some (v, σ)) (some (v, τ))

/-- What has been seen of one evaluation was to be seen on the way to some world, and from there the
other ends as it does. -/
def Bears (w : World) (r : Report) (outcome : Option (Value × Store)) : Prop :=
  ∃ w', L.Passes w r.seen w' ∧ L.Ended w' r.outcome outcome

/-- Two evaluations do the same in stores that are alike. -/
def Accords (w : World) (x : Watched) (y : Eval Value) : Prop :=
  ∀ σ τ, L.stores w σ τ → L.Bears w (x σ) (y τ)

variable {L}

/-- What ended from a later world ended from the earlier one too. `Ended.later` only asks for some
world later than `w`, so transitivity of `L.later` is all that is used. -/
theorem Ended.earlier {r o : Option (Value × Store)} (hw : L.later w w') (h : L.Ended w' r o) :
    L.Ended w r o := by
  cases h with
  | never => exact .never
  | later hw' hv hστ => exact .later (L.trans hw hw') hv hστ

/-- Where the first evaluation ends, so does the second, with the same value `v`, which is within
reach in some later world `w'` in which the stores are alike. -/
theorem Ended.of_left {o : Option (Value × Store)} {v : Value} {σ : Store}
    (h : L.Ended w (some (v, σ)) o) :
    ∃ w' τ, o = some (v, τ) ∧ L.later w w' ∧ v.Arrives (L.value w') ∧ L.stores w' σ τ := by
  cases h with
  | later hw hv hστ => exact ⟨_, _, rfl, hw, hv, hστ⟩

/-- Where the second evaluation ends, so does the first, with the same value. With `Ended.of_left`
it makes the two end exactly together, which is what an "exactly if" needs. -/
theorem Ended.of_right {o : Option (Value × Store)} {v : Value} {τ : Store}
    (h : L.Ended w o (some (v, τ))) :
    ∃ w' σ, o = some (v, σ) ∧ L.later w w' ∧ v.Arrives (L.value w') ∧ L.stores w' σ τ := by
  cases h with
  | later hw hv hστ => exact ⟨_, _, rfl, hw, hv, hστ⟩

/-! ### What is passed -/

section Passing

variable {w'' : World} {seen more : List Sighting}

/-- The world in which a list has been passed is later than the one it began in, by induction on
`Passes`: every sighting is passed in some later world. -/
theorem Passes.later (h : L.Passes w seen w') : L.later w w' := by
  induction h with
  | done hw => exact hw
  | see hw _ _ ih => exact L.trans hw ih

/-- A passage may begin in any earlier world `w`, because the first step of `Passes` goes to some
later world, and `L.later` is transitive. -/
theorem Passes.earlier (hw : L.later w w') (h : L.Passes w' seen w'') : L.Passes w seen w'' := by
  cases h with
  | done hw' => exact .done (L.trans hw hw')
  | see hw' hs h => exact .see (L.trans hw hw') hs h

/-- Two passages, of which the second begins where the first ends, are one passage of `seen ++
more`. The induction is on the first, and `Passes.earlier` closes its end. -/
theorem Passes.append (h : L.Passes w seen w') (h' : L.Passes w' more w'') :
    L.Passes w (seen ++ more) w'' := by
  induction h with
  | done hw => exact h'.earlier hw
  | see hw hs _ ih => exact .see hw hs (ih h')

/-- On the way to what is seen last there was a world `w'` in which the first part had been seen.
The converse of `Passes.append`, for splitting a history at a point. -/
theorem Passes.of_append (h : L.Passes w (seen ++ more) w'') :
    ∃ w', L.Passes w seen w' ∧ L.Passes w' more w'' := by
  induction seen generalizing w with
  | nil => exact ⟨w, .done (L.refl w), h⟩
  | cons s seen ih =>
      cases h with
      | see hw hs h =>
          obtain ⟨w', hseen, hmore⟩ := ih h
          exact ⟨w', .see hw hs hseen, hmore⟩

/-- What may all be seen in one world may be passed there, without leaving it. The scopes that
binding parameters goes through are seen so, in `Likeness.inScope`. -/
theorem Passes.all (h : ∀ s ∈ seen, L.Sees w s) : L.Passes w seen w := by
  induction seen with
  | nil => exact .done (L.refl w)
  | cons s seen ih =>
      obtain ⟨hs, hseen⟩ := List.forall_mem_cons.1 h
      exact .see (L.refl w) hs (ih hseen)

/-- What is passed was seen in some world `w₁` on the way, later than `w` and earlier than `w'`. It
turns a passage back into a statement about each single sighting. -/
theorem Passes.sees (h : L.Passes w seen w') {s : Sighting} (hs : s ∈ seen) :
    ∃ w₁, L.later w w₁ ∧ L.Sees w₁ s ∧ L.later w₁ w' := by
  induction h with
  | done => cases hs
  | @see w w₁ _ _ _ hw hsees hseen ih =>
      rcases List.mem_cons.1 hs with rfl | hs
      · exact ⟨w₁, hw, hsees, hseen.later⟩
      · obtain ⟨w₂, hw', hsees', hlater⟩ := ih hs
        exact ⟨w₂, L.trans hw hw', hsees', hlater⟩

end Passing

/-- Everything that was seen of one evaluation was to be expected from `w` on, in the sense of
`Expected`: the order of the worlds is forgotten here. -/
theorem Bears.seen {r : Report} {o : Option (Value × Store)} (h : L.Bears w r o) :
    ∀ s ∈ r.seen, L.Expected w s := by
  obtain ⟨w', hseen, -⟩ := h
  intro s hs
  obtain ⟨w₁, hw, hsees, -⟩ := hseen.sees hs
  exact ⟨w₁, hw, hsees⟩

/-- Two evaluations that bear each other out end alike, seen from the world `w` they began in.
`Passes.later` takes the end back from `w'` to `w`. -/
theorem Bears.ended {r : Report} {o : Option (Value × Store)} (h : L.Bears w r o) :
    L.Ended w r.outcome o := by
  obtain ⟨w', hseen, hended⟩ := h
  exact hended.earlier hseen.later

/-- What bears out in a later world does so in any earlier one, as `Passes.earlier` says of what is
seen on the way. -/
theorem Bears.earlier {r : Report} {o : Option (Value × Store)} (hw : L.later w w')
    (h : L.Bears w' r o) : L.Bears w r o := by
  obtain ⟨w'', hseen, hended⟩ := h
  exact ⟨w'', hseen.earlier hw, hended⟩

/-- Sightings that come earlier may be put before a report: they lead from `w` to `w'`, and the
report goes on from there, by `Passes.append`. -/
theorem Bears.after {r : Report} {o : Option (Value × Store)} {earlier : List Sighting}
    (hearlier : L.Passes w earlier w') (h : L.Bears w' r o) : L.Bears w (r.after earlier) o := by
  obtain ⟨w'', hseen, hended⟩ := h
  exact ⟨w'', hearlier.append hseen, hended⟩

/-- An evaluation that has ended shows nothing, so its value within reach and its two stores alike
are enough for `Bears`. -/
theorem Bears.of_ended {v : Value} {σ τ : Store} (hv : v.Arrives (L.value w))
    (hστ : L.stores w σ τ) : L.Bears w (.ended v σ) (some (v, τ)) :=
  ⟨w, .done (L.refl w), .later (L.refl w) hv hστ⟩

/-- Where nothing is watched, ending alike is enough for `Bears`. Primitive operations are watched
in this way, by `Watched.unseen`. -/
theorem Bears.unseen {x : Eval Value} {σ : Store} {o : Option (Value × Store)}
    (h : L.Ended w (x σ) o) : L.Bears w (Watched.unseen x σ) o :=
  ⟨w, .done (L.refl w), h⟩

/-- What goes on from the end of the first part does so in a later world `w'`, with the value and
the stores of that end. The sequencing rule for `Report.andThen`. -/
theorem Bears.andThen {r : Report} {o : Option (Value × Store)} {f : Value → Store → Report}
    {g : Value → Eval Value} (h : L.Bears w r o)
    (hnext : ∀ w', L.later w w' → ∀ v σ τ, v.Arrives (L.value w') → L.stores w' σ τ →
      L.Bears w' (f v σ) (g v τ)) :
    L.Bears w (r.andThen f) (o.bind fun a => g a.1 a.2) := by
  obtain ⟨seen, outcome⟩ := r
  obtain ⟨w', hseen, hended⟩ := h
  cases hended with
  | never => exact ⟨w', hseen, .never⟩
  | later hw hv hστ =>
      exact .after hseen ((hnext _ (L.trans hseen.later hw) _ _ _ hv hστ).earlier hw)

/-! ### Parts -/

/-- A value within reach is given by both evaluations, and the stores stay as they are. Stated for
any `v` that `Arrives`, return values and errors among them. -/
theorem give {v : Value} (h : v.Arrives (L.value w)) : L.Accords w (.unseen (pure v)) (pure v) :=
  fun _ _ hστ => .of_ended h hστ

/-- An answer is given, as primitive operations do: it is a value within reach or an error, and
`Value.Answers.arrives` leads back to `give`. -/
theorem answer {v : Value} (h : v.Answers (L.value w)) :
    L.Accords w (.unseen (pure v)) (pure v) :=
  give (h.arrives (L.downward w))

/-- A value is made of what is within reach, and both stores give it the same identity, because
`L.addIdentity` keeps their counts equal. -/
theorem make {make : Identity → Value} {x : Eval Value}
    (h : Composed N (L.value w) (L.scope w) make)
    (hx : ∀ σ, x σ = some (make σ.identities, σ.addIdentity.2)) :
    L.Accords w (.unseen x) x := by
  intro σ τ hστ
  obtain ⟨w', hw, hidentities, hvalue, hstores⟩ := L.addIdentity hστ h
  refine .unseen ?_
  rw [hx σ, hx τ, ← hidentities]
  exact .later hw (Value.Answers.arrives (L.downward w') (.inr hvalue)) hstores

/-- A name is looked up with the same result in both stores. `Store.meaning` reads only the lookup,
and what it finds is within reach: bound, native, or an error. -/
theorem identifier {s : ScopeId} {x : String} (hs : L.scope w s) (hx : N x) :
    L.Accords w (.unseen (evalIdentifier s x)) (evalIdentifier s x) := by
  intro σ τ hστ
  obtain ⟨hsame, hreach⟩ := L.lookup hστ hs hx
  have hmeaning : σ.meaning s x = τ.meaning s x := by rw [Store.meaning, Store.meaning, hsame]
  refine .unseen ?_
  rw [evalIdentifier_eq, evalIdentifier_eq, ← hmeaning]
  refine .later (L.refl w) ?_ hστ
  -- What is bound is within reach, and so is every native function.
  refine Value.Answers.arrives (L.downward w) ?_
  unfold Store.meaning
  split
  · exact .inr (hreach _ ‹_›)
  · split
    · exact .inr ((L.downward w).builtin _)
    · exact .inl rfl

/-- Binding a value within reach keeps the stores alike, by the field `bind` of the likeness, and
the statement gives `null` in both. -/
theorem binding {s : ScopeId} {x : String} {v : Value} (hs : L.scope w s) (hx : N x)
    (hv : L.value w v) :
    L.Accords w (.unseen do modify (·.bind s x v); pure .null)
      (do modify (·.bind s x v); pure .null) :=
  fun _ _ hστ => .of_ended (L.downward w).null (L.bind hστ hs hx hv)

/-- A native function does the same in stores that are alike, for it looks at none: it answers from
its arguments, makes one array, or prints one line. -/
theorem builtin (b : Builtin) {args : List Value} (h : ∀ v ∈ args, L.value w v) :
    L.Accords w (.unseen (b.apply args)) (b.apply args) := by
  have hnative : Native (L.value w) (b.apply args) := .builtin (L.downward w) b h
  generalize b.apply args = x at hnative
  cases hnative with
  | give hanswers => exact answer hanswers
  | array hvs => exact make (.array hvs) fun _ => rfl
  | print text => exact fun _ _ hστ => .of_ended (L.downward w).null (L.print text hστ)

variable {x : Watched} {y : Eval Value}

/-- The stores that are seen before and after are alike to others, which `Watched.observed` adds to
what was seen in between. -/
theorem observed (h : L.Accords w x y) : L.Accords w (.observed x) y := by
  intro σ τ hστ
  refine .after (.all (List.forall_mem_singleton.2 ⟨τ, hστ⟩)) ?_
  have hthen := (h σ τ hστ).andThen
    (f := fun v τ => (Report.ended v τ).after [.result v, .state τ])
    (g := fun v τ => some (v, τ)) fun w' _ v σ' τ' hv hστ' => ?_
  · rwa [Option.bind_fun_some] at hthen
  · refine .after (.all ?_) (.of_ended hv hστ')
    exact List.forall_mem_cons.2 ⟨hv, List.forall_mem_singleton.2 ⟨τ', hστ'⟩⟩

/-- The arguments of a call are within reach when the call is announced, so seeing them first, by
`Watched.announcing`, changes nothing else. -/
theorem announcing {args : List Value} (hargs : ∀ v ∈ args, L.value w v) (h : L.Accords w x y) :
    L.Accords w (.announcing args x) y := fun σ τ hστ =>
  .after (.all (List.forall_mem_singleton.2 hargs)) (h σ τ hστ)

/-- The limit cuts both evaluations at the same step, because stores that are alike have counted
equally many, by the field `steps`. -/
theorem counted (limit : Option Nat) (h : L.Accords w x y) :
    L.Accords w (.counted limit x) (Monkey.counted limit y) := by
  intro σ τ hστ
  have hsteps : σ.steps = τ.steps := L.steps hστ
  -- Like stores have counted as many steps, so the limit stops both runs or neither.
  have htick : L.stores w σ.tick τ.tick := by
    unfold Store.tick
    rw [hsteps]
    exact L.withSteps _ hστ
  cases limit with
  | none => exact h σ.tick τ.tick htick
  | some n =>
      show L.Bears w (if n < σ.steps + 1 then _ else _) (if n < τ.steps + 1 then _ else _)
      by_cases hlimit : n < σ.steps + 1
      · rw [if_pos hlimit, if_pos (hsteps ▸ hlimit)]
        exact .of_ended trivial htick
      · rw [if_neg hlimit, if_neg (hsteps ▸ hlimit)]
        exact h σ.tick τ.tick htick

/-- A value that is handed on is within reach of what goes on with it, in the later world `w'`; a
signal ends both. Every form with operands is built with this rule. -/
theorem unlessSignal {f : Value → Watched} {g : Value → Eval Value} (h : L.Accords w x y)
    (hnext : ∀ w', L.later w w' → ∀ v, L.value w' v → L.Accords w' (f v) (g v)) :
    L.Accords w (.unlessSignal x f) (Monkey.unlessSignal y g) := by
  intro σ τ hστ
  refine (h σ τ hστ).andThen (g := fun v => if v.isSignal then pure v else g v)
    fun w' hw v σ' τ' hv hστ' => ?_
  -- Both sides ask the same value whether it is a signal.
  cases hsignal : v.isSignal with
  | true => exact .of_ended hv hστ'
  | false => exact hnext w' hw v (hv.of_value hsignal) σ' τ' hστ'

/-- Binding parameters goes through stores that are alike, and ends with such stores. The induction
follows `Store.whileBinding`, which lists the stores in between. -/
theorem bindAll {s : ScopeId} {names : List String} {args : List Value} {σ τ : Store}
    (hστ : L.stores w σ τ) (hs : L.scope w s) (hnames : ∀ x ∈ names, N x)
    (hargs : ∀ v ∈ args, L.value w v) :
    L.stores w (σ.bindAll s names args) (τ.bindAll s names args) ∧
      ∀ ρ ∈ σ.whileBinding s names args, L.Sees w (.state ρ) := by
  fun_induction Store.whileBinding σ s names args generalizing τ with
  | case1 σ x names v vs ih =>
      obtain ⟨hx, hxs⟩ := List.forall_mem_cons.1 hnames
      obtain ⟨hv, hvs⟩ := List.forall_mem_cons.1 hargs
      have hbound : L.stores w (σ.bind s x v) (τ.bind s x v) := L.bind hστ hs hx hv
      obtain ⟨hends, hseen⟩ := ih hbound hxs hvs
      exact ⟨hends, List.forall_mem_cons.2 ⟨⟨_, hbound⟩, hseen⟩⟩
  | case2 names σ args hstop =>
      -- One of the lists has come to its end.
      have hstays : ∀ ρ : Store, ρ.bindAll s names args = ρ := by
        intro ρ
        rw [Store.bindAll]
        exact hstop
      rw [hstays σ, hstays τ]
      exact ⟨hστ, fun ρ hρ => by cases hρ⟩

/-- A body is entered in a later world, because its scope is new: `L.addScope` gives that world, and
`bindAll` fills the scope. What the body returns is settled at the end. -/
theorem inScope {outer : ScopeId} {names : List String} {args : List Value}
    {f : ScopeId → Watched} {g : ScopeId → Eval Value} (houter : L.scope w outer)
    (hnames : ∀ x ∈ names, N x) (hargs : ∀ v ∈ args, L.value w v)
    (h : ∀ w', L.later w w' → ∀ frame, L.scope w' frame → L.Accords w' (f frame) (g frame)) :
    L.Accords w (.inScope outer names args f) (Monkey.inScope outer names args g) := by
  intro σ τ hστ
  obtain ⟨w', hw, hsize, hframe, hmade⟩ := L.addScope hστ houter
  have hargs' : ∀ v ∈ args, L.value w' v := fun v hv => L.value_later hw (hargs v hv)
  obtain ⟨hentered, hseen⟩ := bindAll hmade hframe hnames hargs'
  refine Bears.earlier hw (.after (.all ?_) ?_)
  · -- The scope is seen empty, and then with every parameter that is bound.
    exact List.forall_mem_cons.2 ⟨⟨_, hmade⟩, List.forall_mem_map.2 hseen⟩
  · have hbody := h w' hw _ hframe _ _ hentered
    -- The two stores give the new scope one number.
    rw [hsize] at hbody ⊢
    exact hbody.andThen (g := fun v => pure v.settle) fun w'' _ v σ' τ' hv hστ' =>
      .of_ended (hv.settle (L.downward w'')) hστ'

/-! ### One level of evaluation -/

section Level

variable {limit : Option Nat} {eval : Watched.Evaluator} {eval' : Evaluator}

/-- Two ways to evaluate expressions do the same, for all scopes within reach and all expressions
with names of which `N` holds. -/
def Agree (L : Likeness N World) (eval : Watched.Evaluator) (eval' : Evaluator) : Prop :=
  ∀ (w : World) (s : ScopeId) (e : Expr), L.scope w s → (∀ x ∈ e.names, N x) →
    L.Accords w (eval s e) (eval' s e)

variable (h : L.Agree eval eval') {s : ScopeId}
include h

/-- A statement does the same in stores that are alike when its expressions do, by `Agree`. A `let`
with a name of which `N` holds binds it in both. -/
theorem statement (hs : L.scope w s) {st : Statement} (hnames : ∀ x ∈ st.names, N x) :
    L.Accords w (Watched.evalStatement limit eval s st) (evalStatement limit eval' s st) := by
  refine observed (counted limit ?_)
  cases st with
  | binding name e =>
      obtain ⟨hname, he⟩ := List.forall_mem_cons.1 hnames
      exact unlessSignal (h w s e hs he) fun w' hw v hv => binding (L.scope_later hw hs) hname hv
  | returning e => exact unlessSignal (h w s e hs hnames) fun _ _ v hv => give hv
  | expression e => exact h w s e hs hnames

/-- The rest of a block does the same, whatever value `last` the statements before it gave.
Induction on the block, with `unlessSignal` between one statement and the rest. -/
theorem blockFrom (hs : L.scope w s) {b : Block} (hnames : ∀ x ∈ Statement.namesList b, N x)
    {last : Value} (hlast : L.value w last) :
    L.Accords w (Watched.evalBlockFrom limit eval s last b)
      (evalBlockFrom limit eval' s last b) := by
  induction b generalizing w last with
  | nil => exact answer (.inr hlast)
  | cons st rest ih =>
      obtain ⟨hst, hrest⟩ := List.forall_mem_append.1 hnames
      exact unlessSignal (statement h hs hst) fun w' hw v hv => ih (L.scope_later hw hs) hrest hv

/-- A block does the same in stores that are alike. It is `blockFrom` with nothing before it, where
`null` stands for the last value. -/
theorem block (hs : L.scope w s) {b : Block} (hnames : ∀ x ∈ Statement.namesList b, N x) :
    L.Accords w (Watched.evalBlock limit eval s b) (evalBlock limit eval' s b) :=
  blockFrom h hs hnames (L.downward w).null

/-- Values that have been gathered stay within reach while the other expressions of a list are
evaluated. The induction is on the list, and generalizes what is done with the values, `next`. -/
theorem each (hs : L.scope w s) {es : List Expr} (hnames : ∀ x ∈ Expr.namesList es, N x)
    {next : List Value → Watched} {next' : List Value → Eval Value}
    (hnext : ∀ w', L.later w w' → ∀ vs, (∀ v ∈ vs, L.value w' v) →
      L.Accords w' (next vs) (next' vs)) :
    L.Accords w (Watched.evalEach eval s es next) (evalEach eval' s es >>= orSignal next') := by
  induction es generalizing w next next' with
  | nil =>
      rw [evalEach_nil_bind]
      exact hnext w (L.refl w) [] fun v hv => absurd hv List.not_mem_nil
  | cons e es ih =>
      rw [evalEach_cons_bind]
      obtain ⟨he, hes⟩ := List.forall_mem_append.1 hnames
      refine unlessSignal (h w s e hs he) fun w' hw v hv => ?_
      refine ih (L.scope_later hw hs) hes fun w'' hw' vs hvs => ?_
      refine hnext w'' (L.trans hw hw') (v :: vs) ?_
      exact List.forall_mem_cons.2 ⟨L.value_later hw' hv, hvs⟩

/-- The pairs that have been filed in a table stay within reach while the other pairs are evaluated,
by `Table.mem_insert`. A key without a slot ends both with the same error. -/
theorem pairs (hs : L.scope w s) {ps : List (Expr × Expr)}
    (hnames : ∀ x ∈ Expr.namesPairs ps, N x) {table : Table Value}
    (htable : ∀ p ∈ table.pairs, L.value w p.1 ∧ L.value w p.2) {next : Table Value → Watched}
    {next' : Table Value → Eval Value}
    (hnext : ∀ w', L.later w w' → ∀ t : Table Value,
      (∀ p ∈ t.pairs, L.value w' p.1 ∧ L.value w' p.2) → L.Accords w' (next t) (next' t)) :
    L.Accords w (Watched.evalPairs eval s table ps next)
      (evalPairs eval' s table ps >>= orSignal next') := by
  induction ps generalizing w table with
  | nil =>
      rw [evalPairs_nil_bind]
      exact hnext w (L.refl w) table htable
  | cons p ps ih =>
      obtain ⟨k, v⟩ := p
      rw [evalPairs_cons_bind]
      obtain ⟨hpair, hps⟩ := List.forall_mem_append.1 hnames
      obtain ⟨hk, hv⟩ := List.forall_mem_append.1 hpair
      refine unlessSignal (h w s k hs hk) fun w₁ hw₁ key hkey => ?_
      cases key.hashKey? with
      -- The value of the pair is not evaluated then, on either side.
      | none => exact answer (.inl rfl)
      | some slot =>
          refine unlessSignal (h w₁ s v (L.scope_later hw₁ hs) hv) fun w₂ hw₂ value hvalue => ?_
          have hw : L.later w w₂ := L.trans hw₁ hw₂
          refine ih (L.scope_later hw hs) hps (fun q hq => ?_) fun w₃ hw₃ =>
            hnext w₃ (L.trans hw hw₃)
          -- The key was seen in an earlier world than the value.
          rcases Table.mem_insert hq with rfl | hq
          · exact ⟨L.value_later hw₂ hkey, hvalue⟩
          · exact (htable q hq).imp (L.value_later hw) (L.value_later hw)

/-- A body is evaluated where its function was made, and that scope is within reach with the
function, by `L.closure`. Native functions go through `builtin`. -/
theorem apply {callee : Value} (hcallee : L.value w callee) {args : List Value}
    (hargs : ∀ v ∈ args, L.value w v) :
    L.Accords w (Watched.applyValue limit eval callee args)
      (applyValue limit eval' callee args) := by
  refine announcing hargs ?_
  cases callee with
  | function i f =>
      obtain ⟨hscope, hnames⟩ := L.closure hcallee
      obtain ⟨hparameters, hbody⟩ := List.forall_mem_append.1 hnames
      rw [applyValue]
      dsimp only
      split
      · exact inScope hscope hparameters hargs fun w' hw frame hframe => block h hframe hbody
      · exact answer (.inl rfl)
  | builtin b => exact builtin b hargs
  | _ => exact answer (.inl rfl)

/-- One step down: a node does the same in stores that are alike when `eval` and `eval'` agree on
its parts. One case per constructor of `Expr`, each composed of the rules above. -/
theorem node (hs : L.scope w s) {e : Expr} (hnames : ∀ x ∈ e.names, N x) :
    L.Accords w (Watched.evalNode limit eval s e) (evalNode limit eval' s e) := by
  refine observed ?_
  cases e with
  | identifier name =>
      exact counted limit (identifier hs (hnames name List.mem_cons_self))
  | integer n => exact counted limit (answer (.inr ((L.downward w).integer n)))
  | boolean b => exact counted limit (answer (.inr ((L.downward w).boolean b)))
  | string content => exact counted limit (answer (.inr ((L.downward w).string content)))
  | array es =>
      rw [evalNode_array]
      exact counted limit (each h hs hnames fun w' _ vs hvs => make (.array hvs) fun _ => rfl)
  | hash ps =>
      rw [evalNode_hash]
      refine counted limit (pairs h hs hnames ?_ fun w' _ t ht => make (.hash ht) fun _ => rfl)
      intro p hp
      cases hp
  | unary op e =>
      refine counted limit (unlessSignal (h w s e hs hnames) fun w' _ v _ => ?_)
      exact answer ((L.downward w').unary op v)
  | binary op e f =>
      obtain ⟨he, hf⟩ := List.forall_mem_append.1 hnames
      refine counted limit (unlessSignal (h w s e hs he) fun w' hw v _ => ?_)
      -- The second operand is evaluated in a later world, where the scope is still within reach.
      refine unlessSignal (h w' s f (L.scope_later hw hs) hf) fun w'' _ u _ => ?_
      exact answer ((L.downward w'').binary op v u)
  | conditional c b other =>
      obtain ⟨hc, hbranches⟩ := List.forall_mem_append.1 hnames
      obtain ⟨hb, hother⟩ := List.forall_mem_append.1 hbranches
      refine counted limit (unlessSignal (h w s c hs hc) fun w' hw v _ => ?_)
      split
      -- The condition has one value in both stores, so that both take the same branch.
      · exact block h (L.scope_later hw hs) hb
      · cases other with
        | none => exact answer (.inr (L.downward w').null)
        | some block' => exact block h (L.scope_later hw hs) hother
  | function names body =>
      exact counted limit (make (.function (f := ⟨names, body, s⟩) hs hnames) fun _ => rfl)
  | call f es =>
      rw [evalNode_call]
      obtain ⟨hf, hes⟩ := List.forall_mem_append.1 hnames
      refine counted limit (unlessSignal (h w s f hs hf) fun w' hw callee hcallee => ?_)
      refine each h (L.scope_later hw hs) hes fun w'' hw' args hargs => ?_
      -- The callee was evaluated before its arguments, in an earlier world.
      exact apply h (L.value_later hw' hcallee) hargs
  | index e i =>
      obtain ⟨he, hi⟩ := List.forall_mem_append.1 hnames
      refine counted limit (unlessSignal (h w s e hs he) fun w' hw v hv => ?_)
      refine unlessSignal (h w' s i (L.scope_later hw hs) hi) fun w'' hw' u _ => ?_
      exact answer ((L.downward w'').index (L.value_later hw' hv) u)

end Level

/-! ### Runs -/

/-- Evaluation at every depth does the same in stores that are alike: induction on `depth`, with
`node` as the step and no evaluation at all at depth zero. -/
theorem expr (L : Likeness N World) (limit : Option Nat) (depth : Nat) :
    L.Agree (Watched.evalExpr limit depth) (evalExpr limit depth) := by
  induction depth with
  | zero => exact fun _ _ _ _ _ _ _ _ => .unseen .never
  | succ depth ih => exact fun _ _ _ hs hnames => node ih hs hnames

/-- A run does the same in stores that are alike, seen from any scope within reach. The program is
the block `p.statements`, whose result is settled as that of a call is. -/
theorem run (L : Likeness N World) {s : ScopeId} {p : Program} (hs : L.scope w s)
    (hnames : ∀ x ∈ p.names, N x) (limit : Option Nat) (depth : Nat) :
    L.Accords w (p.watched limit depth s) (p.run limit depth s) := by
  intro σ τ hστ
  have hblock : L.Accords w (Watched.evalBlock limit (Watched.evalExpr limit depth) s p.statements)
      (evalBlock limit (evalExpr limit depth) s p.statements) :=
    block (L.expr limit depth) hs hnames
  refine (hblock _ _ (L.withSteps 0 hστ)).andThen (g := fun v => pure v.settle)
    fun w' _ v σ' τ' hv hστ' => ?_
  exact .of_ended (hv.settle (L.downward w')) hστ'

end Likeness

/-! ### One store -/

/-- A store that holds values of a class only is like itself, and all that programs reach in it is
of the class. -/
def Likeness.holding {V : Value → Prop} (hV : Hereditary V) : Likeness (fun _ => True) Unit where
  later _ _ := True
  value _ v := V v
  scope _ _ := True
  stores _ σ τ := σ = τ ∧ σ.Holds V
  refl _ := trivial
  trans _ _ := trivial
  value_later _ h := h
  scope_later _ _ := trivial
  downward _ := hV.downward
  closure _ := ⟨trivial, fun _ _ => trivial⟩
  steps h := h.1 ▸ rfl
  withSteps _ h := ⟨h.1 ▸ rfl, h.2⟩
  print _ h := ⟨h.1 ▸ rfl, h.2⟩
  lookup h _ _ := ⟨h.1 ▸ rfl, fun _ hv => h.2.lookup hv⟩
  bind h _ _ hv := ⟨h.1 ▸ rfl, h.2.bind _ _ hv⟩
  addIdentity h hmade := by
    refine ⟨(), trivial, h.1 ▸ rfl, ?_, h.1 ▸ rfl, h.2⟩
    cases hmade with
    | array hvs => exact hV.array.2 hvs
    | hash ht => exact hV.hash.2 ht
    | function => exact hV.function _ _
  addScope h _ := ⟨(), trivial, h.1 ▸ rfl, trivial, h.1 ▸ rfl, h.2.addScope _⟩

namespace Likeness.Ended

variable {V : Value → Prop} {hV : Hereditary V} {w : Unit} {o : Option (Value × Store)}

/-- Two evaluations that end alike in one store end in the same way. In the likeness `holding` a
store is alike only to itself, so the stores are equal. -/
theorem eq_of_holding {o' : Option (Value × Store)} (h : (holding hV).Ended w o o') : o = o' := by
  cases h with
  | never => rfl
  | later _ _ hστ => rw [hστ.1]

/-- They give a result that may arrive, and leave a store that holds values of the class `V` only.
Read off `Ended.of_right` at the likeness `holding`. -/
theorem keeps {v : Value} {τ : Store} (h : (holding hV).Ended w o (some (v, τ))) :
    v.Arrives V ∧ τ.Holds V := by
  obtain ⟨_, _, -, -, hv, rfl, hτ⟩ := h.of_right
  exact ⟨hv, hτ⟩

end Likeness.Ended

/-- A run that is watched ends as it does otherwise: `Likeness.run` relates the two, and in the
likeness `holding` of all values that is equality. -/
theorem Program.outcome_watched (p : Program) (limit : Option Nat) (depth : Nat) (s : ScopeId)
    (σ : Store) : (p.watched limit depth s σ).outcome = p.run limit depth s σ := by
  have hrun := (Likeness.holding hereditary_true).run (w := ()) (s := s) (p := p) trivial
    (fun _ _ => trivial) limit depth σ σ ⟨rfl, fun _ _ _ _ => trivial⟩
  exact hrun.ended.eq_of_holding

/-- Watching the evaluation of an expression does not change how it ends. The same likeness as in
`Program.outcome_watched`, at `Likeness.expr`. -/
theorem Watched.outcome_evalExpr (limit : Option Nat) (depth : Nat) (s : ScopeId) (e : Expr)
    (σ : Store) :
    (Watched.evalExpr limit depth s e σ).outcome = Monkey.evalExpr limit depth s e σ := by
  have hexpr := (Likeness.holding hereditary_true).expr limit depth () s e trivial
    (fun _ _ => trivial) σ σ ⟨rfl, fun _ _ _ _ => trivial⟩
  exact hexpr.ended.eq_of_holding

section

variable {V : Value → Prop} (hV : Hereditary V) {limit : Option Nat} {depth : Nat}
  {scope : ScopeId} {σ τ : Store} {v : Value}
include hV

/-- Evaluating a block keeps what a store holds: values of a hereditary class `V` lead to values of
the class. `Likeness.block` at `holding` carries it. -/
theorem keeps_evalBlock {b : Block} (hσ : σ.Holds V)
    (h : evalBlock limit (evalExpr limit depth) scope b σ = some (v, τ)) :
    v.Arrives V ∧ τ.Holds V := by
  have hblock : (Likeness.holding hV).Accords ()
      (Watched.evalBlock limit (Watched.evalExpr limit depth) scope b)
      (evalBlock limit (evalExpr limit depth) scope b) :=
    Likeness.block (Likeness.expr _ limit depth) trivial fun _ _ => trivial
  have hended := (hblock σ σ ⟨rfl, hσ⟩).ended
  rw [h] at hended
  exact hended.keeps

/-- A run keeps what a store holds, so a hereditary class `V` is an invariant of runs. Every fact of
the kind "no run ever stores such a value" is an instance. -/
theorem Program.keeps {p : Program} (hσ : σ.Holds V)
    (h : p.run limit depth scope σ = some (v, τ)) : v.Arrives V ∧ τ.Holds V := by
  have hrun := (Likeness.holding hV).run (w := ()) (s := scope) (p := p) trivial
    (fun _ _ => trivial) limit depth σ σ ⟨rfl, hσ⟩
  have hended := hrun.ended
  rw [h] at hended
  exact hended.keeps

end

end Monkey
