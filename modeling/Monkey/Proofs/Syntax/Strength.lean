import Monkey.Proofs.Syntax.Simulation

/-!
# `Monkey.Proofs.Syntax.Strength`: expressions read at two strengths

The strength at which an expression is read decides where reading stops and
nothing else. With less strength asked for, what is read starts with what is
read with more, and goes on from there (`Expr.parse_eq_andThen`). So one
reading fails with the other, and the shorter expression stands at the left
end of the longer one, on its `Expr.OnSpine`.

Where reading stops there is a token, the last one of the expression. It takes
the run of `Monkey.Proofs.Syntax.Agenda` to see this, which never leaves the
tokens while it reads a statement (`Point.Leads.current_ne_none`).
-/

set_option autoImplicit false

namespace Monkey

/-! ### Left ends -/

/-- The expression `left` stands at the left end: it is the whole, or what a binary operator, a call
or an index takes in on the left. -/
inductive Expr.OnSpine (left : Expr) : Expr → Prop where
  | whole : OnSpine left left
  | binary (op : BinaryOp) {l : Expr} (h : OnSpine left l) (r : Expr) :
      OnSpine left (.binary op l r)
  | call {callee : Expr} (h : OnSpine left callee) (arguments : List Expr) :
      OnSpine left (.call callee arguments)
  | index {indexed : Expr} (h : OnSpine left indexed) (position : Expr) :
      OnSpine left (.index indexed position)

/-- What stands at the left end of a left end stands at the left end. By induction on the outer way
down, `h`. -/
theorem Expr.OnSpine.trans {e e' e'' : Expr} (h : e.OnSpine e') (h' : e'.OnSpine e'') :
    e.OnSpine e'' := by
  induction h' with
  | whole => exact h
  | binary op _ r ih => exact .binary op ih r
  | call _ arguments ih => exact .call ih arguments
  | index _ position ih => exact .index ih position

namespace Expr

/-- What continues an expression leaves it at the left end: every round of `parseContinuations` puts
what it has on the left of a larger expression. By induction on what remains. -/
theorem onSpine_of_parseContinuations {p : Precedence} {left e : Expr} {c k : Cursor}
    (h : parseContinuations p left c = .parsed e k) : left.OnSpine e := by
  rw [parseContinuations_eq] at h
  split at h
  · cases h
    exact .whole
  · rename_i kind hkind
    -- Each continuation wraps what was read so far, which stays at the left end of it.
    have hpos := Cursor.remaining_of_continuation? hkind
    split at h
    · cases kind with
      | binary op =>
          obtain ⟨right, m, hright, hrest⟩ := Outcome.andThen_eq_parsed.1 h
          have hm := Expr.remaining_le_of_parse hright
          exact .trans (.binary op .whole right) (onSpine_of_parseContinuations hrest)
      | call =>
          obtain ⟨arguments, m, harguments, hrest⟩ := Outcome.andThen_eq_parsed.1 h
          have hm := Expr.remaining_le_of_parseList harguments
          exact .trans (.call .whole arguments) (onSpine_of_parseContinuations hrest)
      | index =>
          obtain ⟨position, m, hposition, hclose⟩ := Outcome.andThen_eq_parsed.1 h
          have hm := Expr.remaining_le_of_parse hposition
          obtain ⟨-, hrest⟩ := Cursor.require_eq_parsed.1 hclose
          exact .trans (.index .whole position) (onSpine_of_parseContinuations hrest)
    · cases h
      exact .whole
termination_by c.remaining
decreasing_by all_goals (simp only [Cursor.remaining_next] at *; omega)

end Expr

/-! ### Less strength reads on -/

/-- What goes on by `andThen` in the same way from where a parse ended comes to the same. The
hypothesis may use that the parse ended there, which is what bounds the rest. -/
theorem Outcome.andThen_congr {α β : Type} {o : Outcome α} {f g : α → Cursor → Outcome β}
    (h : ∀ a k, o = .parsed a k → f a k = g a k) : o.andThen f = o.andThen g := by
  cases o with
  | parsed a k => exact h a k rfl
  | failed d k => rfl

/-- What goes on in the same way from the next place does so behind a required symbol, since
`require` only adds the test. -/
theorem Cursor.require_congr {α : Type} {c : Cursor} {mark : Symbol} {f g : Cursor → Outcome α}
    (h : f c.next = g c.next) : c.require mark f = c.require mark g := by
  unfold Cursor.require
  rw [h]

namespace Expr

/-- What continues an expression at a lower strength `p` is what continues it at a higher one `q`,
and what continues that. By induction on what remains: as long as the higher strength goes on so
does the lower one, and where it stops the lower one is left. -/
theorem parseContinuations_eq_andThen {p q : Precedence} (hpq : p ≤ q) (left : Expr)
    (c : Cursor) :
    parseContinuations p left c =
      (parseContinuations q left c).andThen fun e k => parseContinuations p e k := by
  rw [parseContinuations_eq q]
  split
  · rfl
  · rename_i kind hkind
    have hpos := Cursor.remaining_of_continuation? hkind
    split
    · -- What is ahead is taken in at both strengths, and the induction goes on behind it.
      rename_i htight
      rw [parseContinuations_eq p, hkind]
      have hloose : p < kind.precedence := Nat.lt_of_le_of_lt hpq htight
      simp only [if_pos hloose]
      cases kind with
      | binary op =>
          dsimp only
          rw [Outcome.andThen_assoc]
          refine Outcome.andThen_congr fun right k hk => ?_
          have hk := Expr.remaining_le_of_parse hk
          exact parseContinuations_eq_andThen hpq _ k
      | call =>
          dsimp only
          rw [Outcome.andThen_assoc]
          refine Outcome.andThen_congr fun arguments k hk => ?_
          have hk := Expr.remaining_le_of_parseList hk
          exact parseContinuations_eq_andThen hpq _ k
      | index =>
          dsimp only
          rw [Outcome.andThen_assoc]
          refine Outcome.andThen_congr fun position k hk => ?_
          have hk := Expr.remaining_le_of_parse hk
          rw [Cursor.require_andThen]
          refine Cursor.require_congr ?_
          exact parseContinuations_eq_andThen hpq _ k.next
    · -- The higher strength stops here, and the lower one goes on from the same place.
      rfl
termination_by c.remaining
decreasing_by all_goals (simp only [Cursor.remaining_next] at *; omega)

/-- An expression at a lower strength `p` is one at a higher strength `q` and what continues it. The
whole comparison of strengths comes from this equation. -/
theorem parse_eq_andThen {p q : Precedence} (hpq : p ≤ q) (c : Cursor) :
    Expr.parse p c = (Expr.parse q c).andThen fun e k => parseContinuations p e k := by
  rw [parse_eq, parse_eq, Outcome.andThen_assoc]
  exact Outcome.andThen_congr fun left k _ => parseContinuations_eq_andThen hpq left k

end Expr

/-! ### What is read ends on a token -/

section

variable {c k : Cursor} {os os' : List Cursor}

/-- Something can only start on a token, whether that is a brace or not: `Starts` names what the
token is. -/
theorem Task.Starts.current_ne_none (h : Task.Starts c os) : c.current ≠ none := by
  cases h with
  | plain hcurrent _ => exact hcurrent ▸ Option.some_ne_none _
  | opened hcurrent => exact hcurrent ▸ Option.some_ne_none _

/-- A task that moves on does so to a token, `k.current`. Its three ways to move all look at the
lexeme ahead first. -/
theorem BraceStep.current_ne_none (h : BraceStep c k os os') (hc : c.current ≠ none) :
    k.current ≠ none := by
  have hnext {t : Lexeme} (hpeek : c.peek = some t) : c.next.current ≠ none := by
    rw [c.current_next, hpeek]
    exact Option.some_ne_none t
  cases h with
  | stay => exact hc
  | past hpeek _ => exact hnext hpeek
  | opened hpeek => exact hnext hpeek
  | closed hpeek => exact hnext hpeek

end

namespace Point

variable {x y : Point}

/-- If a statement is being read, the place is that of a token. -/
def OnToken (x : Point) : Prop := ∀ agenda, x.stage = .within agenda → x.place.current ≠ none

/-- Behind a task that is done the run stands on a token, if the task does; a run that is `astray`
reads no statement. -/
theorem onToken_point {o : Outcome (List Task)} {rest : List Task}
    (h : ∀ ts k, o = .parsed ts k → k.current ≠ none) : (o.point rest).OnToken := by
  intro agenda hagenda
  cases o with
  | parsed ts k => exact h ts k rfl
  | failed d k => cases hagenda

/-- A step of the run keeps to tokens as long as a statement is read. The step lemma to
`OnToken.leads`, by the stage of the point. -/
theorem OnToken.step (hx : x.OnToken) (h : x.step = some y) : y.OnToken := by
  obtain ⟨c, stage⟩ := x
  cases stage with
  | between =>
      obtain ⟨-, rfl⟩ := step_between h
      refine onToken_point ?_
      intro ts k hstatement
      obtain ⟨rfl, hstarts⟩ := Task.starts_ofStatement hstatement
      exact hstarts.current_ne_none
  | within agenda =>
      have hcurrent := hx agenda rfl
      cases agenda with
      | nil =>
          cases h
          exact nofun
      | cons t rest =>
          cases h
          refine onToken_point ?_
          intro ts k hperform
          exact (Task.perform_brace hperform).current_ne_none hcurrent
  -- Outside an agenda nothing is claimed.
  | astray d =>
      obtain ⟨-, rfl⟩ | ⟨-, -, rfl⟩ | ⟨-, -, rfl⟩ | rfl := step_astray h
      all_goals exact nofun
  | regained =>
      cases h
      exact nofun

/-- A run that reads a statement never comes to the end of the text. By induction on the run, from
`OnToken.step`. -/
theorem OnToken.leads (hx : x.OnToken) (h : x.Leads y) : y.OnToken := by
  induction h with
  | refl => exact hx
  | tail _ hstep ih => exact ih.step hstep

end Point

namespace Expr

variable {p : Precedence} {c k : Cursor} {e : Expr}

/-- An expression that is read ends on a token. The parser itself does not say so; the run that goes
with it does, by `leadsTo_operand` and `OnToken.leads`. -/
theorem current_ne_none_of_parse (h : Expr.parse p c = .parsed e k) : k.current ≠ none := by
  -- The run that reads the expression starts on the first token of its operand.
  have hleads : Task.LeadsTo
      ((Task.ofOperand c).andThen fun ts m => .parsed (ts ++ [.continuations p]) m)
      (Expr.parse p c) := by
    rw [parse_eq]
    exact (Task.leadsTo_operand c).andThen fun left m _ => Task.leadsTo_continuations p left m
  have hfirst := hleads []
  rw [Task.point_andThen, h] at hfirst
  refine (Point.onToken_point ?_).leads hfirst [] rfl
  intro ts m hoperand
  obtain ⟨rfl, hstarts⟩ := Task.starts_ofOperand hoperand
  exact hstarts.current_ne_none

/-- The token where an expression has been read is the last of those that write it. From
`written_of_parse` and the token there is by `current_ne_none_of_parse`. -/
theorem last_of_parse (h : Expr.parse p c = .parsed e k) :
    ∃ s us t, c.lexemes = us ++ t :: k.behind ∧ k.current = some t ∧
      Expr.Written s (us ++ [t]) e := by
  obtain ⟨s, ts, hts, hwritten, -, -⟩ := Expr.written_of_parse h
  obtain ⟨t, ht⟩ := Option.ne_none_iff_exists'.1 (current_ne_none_of_parse h)
  have hreaches : c.Reaches k := by
    have hreaches := Expr.reaches_parse p c
    rwa [h] at hreaches
  obtain ⟨us, hus⟩ := hreaches.suffix
  -- The place stands on a lexeme `t`, and on the way to it the lexemes `us` were gone past.
  rw [Cursor.lexemes_of_current ht] at hus
  have hsplit : us ++ [t] = ts := by
    have hsame : us ++ [t] ++ k.behind = ts ++ k.behind := by
      rw [List.append_assoc, ← hts, ← hus]
      rfl
    exact List.append_cancel_right hsame
  exact ⟨s, us, t, hus.symm, ht, hsplit ▸ hwritten⟩

end Expr

/-! ### Two strengths -/

/-- How tightly a lexeme binds what stands in front of it. What continues no expression, such as a
semicolon, binds least of all. -/
def Lexeme.precedence (t : Lexeme) : Precedence :=
  match Continuation.ofLexeme? t with
  | some kind => kind.precedence
  | none => .lowest

/-- Where reading stops nothing binds more tightly: `Stops` speaks of continuations, and any other
lexeme has the lowest `Lexeme.precedence`. -/
theorem Cursor.Stops.precedence_le {q : Precedence} {c : Cursor} {t : Lexeme} (h : c.Stops q)
    (ht : c.peek = some t) : t.precedence ≤ q := by
  unfold Lexeme.precedence
  cases hkind : Continuation.ofLexeme? t with
  | none => exact Nat.zero_le _
  | some kind => exact h kind (by rw [Cursor.continuation?, ht]; exact hkind)

/-- From one place, an expression that cannot be read at some strength cannot be read at a lower one
either, for the same reason. One that is read at the lower strength has at its left end what is read
at the higher one: that ends no later, on its own last token, and in front of a token that does not
bind more tightly than the strength. All of it comes from `parse_eq_andThen`. -/
theorem Expr.parse_at_higher_strength {p q : Precedence} (hpq : p ≤ q) (c : Cursor) :
    (∀ d k, Expr.parse q c = .failed d k → Expr.parse p c = .failed d k) ∧
    ∀ e k, Expr.parse p c = .parsed e k →
      ∃ e' k', Expr.parse q c = .parsed e' k' ∧ (c.Reaches k' ∧ k'.Reaches k) ∧ e'.OnSpine e ∧
        (∃ s us t, c.lexemes = us ++ t :: k'.behind ∧ k'.current = some t ∧
          Expr.Written s (us ++ [t]) e') ∧
        ∀ t, k'.peek = some t → t.precedence ≤ q := by
  rw [parse_eq_andThen hpq]
  constructor
  · intro d k hfailed
    rw [hfailed]
    rfl
  · intro e k hparsed
    -- The longer parse is the shorter one and what continues it.
    obtain ⟨e', k', hshort, hmore⟩ := Outcome.andThen_eq_parsed.1 hparsed
    have hreaches : c.Reaches k' := by
      have hreaches := Expr.reaches_parse q c
      rwa [hshort] at hreaches
    have hreaches' : k'.Reaches k := by
      have hreaches := closedUnderParsing_reaches.continuations p e' k'
      rwa [hmore] at hreaches
    obtain ⟨-, -, -, -, -, hstops⟩ := Expr.written_of_parse hshort
    exact ⟨e', k', hshort, ⟨hreaches, hreaches'⟩, onSpine_of_parseContinuations hmore,
      last_of_parse hshort, fun t ht => hstops.precedence_le ht⟩

/-- In `a * b[0](c) == d` the product is read at the strength of sums and the whole at the lowest
one, and in `(a` the parenthesis is missing at both. Both halves of `parse_at_higher_strength` are
used. -/
theorem Expr.parse_at_higher_strength_of_product :
    (let c := Cursor.start (tokenize "a * b[0](c) == d")
      ∃ e k e' k', Expr.parse .lowest c = .parsed e k ∧ Expr.parse .sum c = .parsed e' k' ∧
        k'.Reaches k ∧ k'.peek = some (.symbol .equal) ∧ e'.OnSpine e) ∧
    let c := Cursor.start (tokenize "(a")
    ∃ d k, Expr.parse .sum c = .failed d k ∧ Expr.parse .lowest c = .failed d k := by
  have hle : Precedence.lowest ≤ .sum := by decide
  constructor
  · intro c
    obtain ⟨-, hparsed⟩ := Expr.parse_at_higher_strength hle c
    -- Only the token ahead and the kind of outcome are computed; the trees come from the theorem.
    have hahead : (Expr.parse .sum c).place.peek = some (.symbol .equal) := by
      subst c
      decide +kernel
    have hwhole : (match Expr.parse .lowest c with
        | .parsed _ _ => true
        | .failed _ _ => false) = true := by
      subst c
      decide +kernel
    cases h : Expr.parse .lowest c with
    | parsed e k =>
        obtain ⟨e', k', h', ⟨-, hreaches⟩, hspine, -, -⟩ := hparsed e k h
        rw [h'] at hahead
        exact ⟨e, k, e', k', rfl, h', hreaches, hahead, hspine⟩
    | failed d k =>
        rw [h] at hwhole
        cases hwhole
  · intro c
    obtain ⟨hfailed, -⟩ := Expr.parse_at_higher_strength hle c
    have hmissing : (match Expr.parse .sum c with
        | .parsed _ _ => false
        | .failed _ _ => true) = true := by
      subst c
      decide +kernel
    cases h : Expr.parse .sum c with
    | parsed e k =>
        rw [h] at hmissing
        cases hmissing
    | failed d k => exact ⟨d, k, rfl, hfailed d k h⟩

end Monkey
