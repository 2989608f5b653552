import Monkey.Proofs.Syntax.Place

/-!
# `Monkey.Proofs.Syntax.Lookahead`: what an outcome depends on

A parser looks at a few lexemes and at no others. It ends with a value
when it has seen the lexeme ahead of its last one, and gives up at a
lexeme that it has just looked at, the current one or the one ahead. From
any place with the same lexemes up to there it does the same.

`Settled start parse viable c` says so of `parse` at the place `c`. Some
parsers start on the current lexeme and some behind it; `start` says
which, and is `Cursor.lexemes` or `Cursor.behind`. What stands in front of
the lexeme at which a parser gives up has been accepted, and `viable`
holds of it.

The lemmas below say that the property is closed under the ways in which
parsers are put together: `Settled.andThen`, `Settled.require`,
`Settled.requireName`, `Settled.onward`, `Settled.lexeme` and their
companions.
-/

set_option autoImplicit false

namespace Monkey

/-! ### Where a parser gives up -/

/-- Where a parser looks when it gives up: at its place, or at the token ahead. -/
inductive Sight where
  | here
  | ahead

namespace Cursor

/-- What stands where a parser looks. -/
def look (c : Cursor) : Sight → Found
  | .here => c.here
  | .ahead => c.ahead

/-- The lexemes from there on. -/
def unread (c : Cursor) : Sight → List Lexeme
  | .here => c.lexemes
  | .ahead => c.behind

/-- Places with the same first lexeme have the same `current` lexeme, whatever follows it and on
whatever line it stands. -/
theorem current_congr {c c' : Cursor} (h : c'.lexemes.head? = c.lexemes.head?) :
    c'.current = c.current := by
  rw [current_eq_head?, h, ← current_eq_head?]

/-- Places with the same first lexeme behind them have the same lexeme ahead: `peek` is the head of
`behind`. -/
theorem peek_congr {c c' : Cursor} (h : c'.behind.head? = c.behind.head?) : c'.peek = c.peek := by
  rw [peek_eq_head?, h, ← peek_eq_head?]

/-- Places with the same first lexeme behind them have the same continuation ahead, since
`continuation?` looks at `peek` alone. -/
theorem continuation?_congr {c c' : Cursor} (h : c'.behind.head? = c.behind.head?) :
    c'.continuation? = c.continuation? := by
  rw [continuation?_eq, h, ← continuation?_eq]

end Cursor

/-- A parser gives up with a diagnostic exactly when a part of it does: the first part, or the
second one behind a value of the first. The counterpart of `andThen_eq_parsed`. -/
theorem Outcome.andThen_eq_failed {α β : Type} {o : Outcome α} {f : α → Cursor → Outcome β}
    {d : Diagnostic} {k : Cursor} :
    o.andThen f = .failed d k ↔
      o = .failed d k ∨ ∃ a m, o = .parsed a m ∧ f a m = .failed d k := by
  cases o with
  | parsed a m =>
      constructor
      · intro h
        exact .inr ⟨a, m, rfl, h⟩
      · intro h
        rcases h with h | ⟨a', m', heq, h⟩
        · cases h
        · cases heq
          exact h
  | failed e m => simp

/-! ### Settled outcomes -/

/-- The outcome of `parse` at the place `c` depends only on what it has looked at.

If it is a value that ends with the lexemes `us`, then any place with `us` and the same lexeme
behind it gives that value. If it is a diagnostic at a lexeme behind `us`, then any place with `us`
and that lexeme gives the same diagnostic, and `us` is viable. -/
structure Settled {α : Type} (start : Cursor → List Lexeme) (parse : Cursor → Outcome α)
    (viable : List Lexeme → Prop) (c : Cursor) : Prop where
  parsed {a : α} {k : Cursor} (h : parse c = .parsed a k) :
    ∃ us, start c = us ++ k.behind ∧
      ∀ c' rest, start c' = us ++ rest → rest.head? = k.behind.head? →
        ∃ k', parse c' = .parsed a k' ∧ k'.behind = rest
  failed {d : Diagnostic} {k : Cursor} (h : parse c = .failed d k) :
    ∃ sight us, start c = us ++ k.unread sight ∧ d.found = k.look sight ∧ viable us ∧
      ∀ c' rest, start c' = us ++ rest → rest.head? = (k.unread sight).head? →
        ∃ k', parse c' = .failed ⟨d.expected, k'.look sight⟩ k' ∧ k'.unread sight = rest

namespace Settled

variable {α β : Type} {start : Cursor → List Lexeme} {parse other : Cursor → Outcome α}
  {viable : List Lexeme → Prop} {c : Cursor}

/-- Behind the same lexemes, what starts alike goes on alike. If there are no such lexemes, `h` is
the claim itself. -/
private theorem head?_append {us rest rest' : List Lexeme} (h : rest.head? = rest'.head?) :
    (us ++ rest).head? = (us ++ rest').head? := by
  cases us with
  | nil => exact h
  | cons u us => rfl

/-- Only the first lexeme needs to be the same for one parser to be another. So a parser that looks
at its current lexeme and takes a branch is `Settled` if the branch is. -/
theorem congr (h : ∀ c', (start c').head? = (start c).head? → parse c' = other c')
    (hother : Settled start other viable c) : Settled start parse viable c where
  parsed {a k} hc := by
    rw [h c rfl] at hc
    obtain ⟨us, hus, hrepeat⟩ := hother.parsed hc
    refine ⟨us, hus, ?_⟩
    intro c' rest hc' hrest
    -- `c'` starts with the same lexeme as `c`, also where `us` is empty.
    rw [h c' (by rw [hc', hus]; exact head?_append hrest)]
    exact hrepeat c' rest hc' hrest
  failed {d k} hc := by
    rw [h c rfl] at hc
    obtain ⟨sight, us, hus, hfound, hviable, hrepeat⟩ := hother.failed hc
    refine ⟨sight, us, hus, hfound, hviable, ?_⟩
    intro c' rest hc' hrest
    rw [h c' (by rw [hc', hus]; exact head?_append hrest)]
    exact hrepeat c' rest hc' hrest

/-- What is viable may be seen as part of something larger. Only prefixes of the lexemes from `start
c` on have to be compared, which `us <+: start c` says. -/
theorem weaken {viable' : List Lexeme → Prop} (h : Settled start parse viable' c)
    (hviable : ∀ us, us <+: start c → viable' us → viable us) :
    Settled start parse viable c where
  parsed hc := h.parsed hc
  failed {d k} hc := by
    obtain ⟨sight, us, hus, hfound, hus', hrepeat⟩ := h.failed hc
    have hstarts : us <+: start c := by
      rw [hus]
      exact List.prefix_append _ _
    exact ⟨sight, us, hus, hfound, hviable us hstarts hus', hrepeat⟩

/-- A value that is there already is `Settled`: it takes no lexeme, and a place with the same lexeme
behind it gives the same value. -/
theorem done (a : α) : Settled Cursor.behind (fun c => .parsed a c) viable c where
  parsed h := by
    cases h
    exact ⟨[], rfl, fun c' rest hc' _ => ⟨c', rfl, hc'⟩⟩
  failed h := by cases h

/-- Giving up at a lexeme looks at nothing else. The diagnostic names what stands at `sight`, and no
lexeme in front of it has been accepted, hence `viable []`. -/
theorem giveUp (sight : Sight) (expected : Expectation) (hviable : viable []) :
    Settled (fun c => c.unread sight)
      (fun c => (.failed ⟨expected, c.look sight⟩ c : Outcome α)) viable c where
  parsed h := by cases h
  failed h := by
    cases h
    exact ⟨sight, [], rfl, rfl, hviable, fun c' rest hc' _ => ⟨c', rfl, hc'⟩⟩

/-- What starts behind the current lexeme is `Settled` with that lexeme in front. It turns a parser
that starts at `behind` into one that starts at `lexemes`. -/
theorem lexeme {t : Lexeme} (hc : c.current = some t)
    (h : Settled Cursor.behind parse (fun us => viable (t :: us)) c) :
    Settled Cursor.lexemes parse viable c where
  parsed {a k} hparse := by
    obtain ⟨us, hus, hrepeat⟩ := h.parsed hparse
    refine ⟨t :: us, by rw [Cursor.lexemes_of_current hc, hus]; rfl, ?_⟩
    intro c' rest hc' hrest
    exact hrepeat c' rest (Cursor.behind_of_lexemes hc') hrest
  failed {d k} hparse := by
    obtain ⟨sight, us, hus, hfound, hviable, hrepeat⟩ := h.failed hparse
    refine ⟨sight, t :: us, by rw [Cursor.lexemes_of_current hc, hus]; rfl, hfound, hviable, ?_⟩
    intro c' rest hc' hrest
    exact hrepeat c' rest (Cursor.behind_of_lexemes hc') hrest

/-- What starts one token further on starts behind the current lexeme: the lexemes of `c.next` are
those behind `c`. -/
theorem onward (h : Settled Cursor.lexemes parse viable c.next) :
    Settled Cursor.behind (fun c => parse c.next) viable c where
  parsed {a k} hparse := by
    obtain ⟨us, hus, hrepeat⟩ := h.parsed hparse
    rw [Cursor.lexemes_next] at hus
    refine ⟨us, hus, ?_⟩
    intro c' rest hc' hrest
    exact hrepeat c'.next rest (by rw [Cursor.lexemes_next]; exact hc') hrest
  failed {d k} hparse := by
    obtain ⟨sight, us, hus, hfound, hviable, hrepeat⟩ := h.failed hparse
    rw [Cursor.lexemes_next] at hus
    refine ⟨sight, us, hus, hfound, hviable, ?_⟩
    intro c' rest hc' hrest
    exact hrepeat c'.next rest (by rw [Cursor.lexemes_next]; exact hc') hrest

/-- What starts behind the lexeme ahead is `Settled` with that lexeme in front: `onward` after
`lexeme`, in the order in which a parser moves. -/
theorem step {t : Lexeme} (hpeek : c.peek = some t)
    (h : Settled Cursor.behind parse (fun us => viable (t :: us)) c.next) :
    Settled Cursor.behind (fun c => parse c.next) viable c := by
  have hcurrent : c.next.current = some t := by
    rw [Cursor.current_eq_head?, Cursor.lexemes_next, ← Cursor.peek_eq_head?]
    exact hpeek
  exact onward (lexeme hcurrent h)

/-- Going on is `Settled` if both parts are. What the first part has accepted stands in front of
what the second one accepts, so the second part's `viable` speaks of `us ++ vs`. -/
theorem andThen {first : Cursor → Outcome α} {goOn : α → Cursor → Outcome β}
    {viable' : List Lexeme → Prop} (h : Settled start first viable' c)
    (hviable : ∀ us, viable' us → viable us)
    (hgoOn : ∀ a k us, first c = .parsed a k → start c = us ++ k.behind →
      Settled Cursor.behind (goOn a) (fun vs => viable (us ++ vs)) k) :
    Settled start (fun c => (first c).andThen goOn) viable c where
  parsed {b m} hparse := by
    obtain ⟨a, k, hfirst, hrest⟩ := Outcome.andThen_eq_parsed.1 hparse
    obtain ⟨us, hus, hrepeat⟩ := h.parsed hfirst
    obtain ⟨vs, hvs, hrepeat'⟩ := (hgoOn a k us hfirst hus).parsed hrest
    refine ⟨us ++ vs, by rw [hus, hvs, List.append_assoc], ?_⟩
    intro c' rest hc' hhead
    -- The first part is repeated up to the lexemes of the second one.
    obtain ⟨k', hk', hbehind⟩ := hrepeat c' (vs ++ rest) (by rw [hc', List.append_assoc])
      (by rw [hvs]; exact head?_append hhead)
    obtain ⟨m', hm', hend⟩ := hrepeat' k' rest hbehind hhead
    exact ⟨m', by rw [hk', Outcome.andThen_parsed, hm'], hend⟩
  failed {d m} hparse := by
    -- Either the first part gives up and the second is never reached, or the first is repeated in
    -- full.
    rcases Outcome.andThen_eq_failed.1 hparse with hfirst | ⟨a, k, hfirst, hrest⟩
    · obtain ⟨sight, us, hus, hfound, hus', hrepeat⟩ := h.failed hfirst
      refine ⟨sight, us, hus, hfound, hviable us hus', ?_⟩
      intro c' rest hc' hhead
      obtain ⟨k', hk', hend⟩ := hrepeat c' rest hc' hhead
      exact ⟨k', by rw [hk', Outcome.andThen_failed], hend⟩
    · obtain ⟨us, hus, hrepeat⟩ := h.parsed hfirst
      obtain ⟨sight, vs, hvs, hfound, hvs', hrepeat'⟩ := (hgoOn a k us hfirst hus).failed hrest
      refine ⟨sight, us ++ vs, by rw [hus, hvs, List.append_assoc], hfound, hvs', ?_⟩
      intro c' rest hc' hhead
      obtain ⟨k', hk', hbehind⟩ := hrepeat c' (vs ++ rest) (by rw [hc', List.append_assoc])
        (by rw [hvs]; exact head?_append hhead)
      obtain ⟨m', hm', hend⟩ := hrepeat' k' rest hbehind hhead
      exact ⟨m', by rw [hk', Outcome.andThen_parsed, hm'], hend⟩

/-- A branch on the lexeme ahead is `Settled` if the branch taken is, since another place with the
same lexeme behind takes the same one. -/
theorem ifPeek {t : Lexeme} (h : c.peek = some t → Settled Cursor.behind parse viable c)
    (h' : c.peek ≠ some t → Settled Cursor.behind other viable c) :
    Settled Cursor.behind (fun c => if c.peek = some t then parse c else other c) viable c := by
  by_cases hpeek : c.peek = some t
  · refine congr ?_ (h hpeek)
    intro c' hc'
    exact if_pos ((Cursor.peek_congr hc').trans hpeek)
  · refine congr ?_ (h' hpeek)
    intro c' hc'
    exact if_neg (by rw [Cursor.peek_congr hc']; exact hpeek)

/-- A required symbol is gone past, or given up at; the lexemes accepted so far must be `viable` for
the latter. -/
theorem require {mark : Symbol} {goOn : Cursor → Outcome α} (hviable : viable [])
    (h : c.peek = some (.symbol mark) →
      Settled Cursor.behind goOn (fun us => viable (.symbol mark :: us)) c.next) :
    Settled Cursor.behind (fun c => c.require mark goOn) viable c :=
  ifPeek (fun hpeek => step hpeek (h hpeek)) fun _ => giveUp .ahead (.symbol mark) hviable

/-- A required name is gone past, or given up at. The continuation may depend on the name, so `h` is
asked for every `name` that may stand ahead. -/
theorem requireName {goOn : String → Cursor → Outcome α} (hviable : viable [])
    (h : ∀ name, c.peek = some (.identifier name) →
      Settled Cursor.behind (goOn name) (fun us => viable (.identifier name :: us)) c.next) :
    Settled Cursor.behind (fun c => c.requireName goOn) viable c := by
  by_cases hname : ∃ name, c.peek = some (.identifier name)
  · obtain ⟨name, hpeek⟩ := hname
    refine congr ?_ (step hpeek (h name hpeek))
    intro c' hc'
    exact Cursor.requireName_of_peek ((Cursor.peek_congr hc').trans hpeek) goOn
  · refine congr ?_ (giveUp .ahead .identifier hviable)
    intro c' hc'
    unfold Cursor.requireName
    split
    · rename_i name heq
      exact absurd ⟨name, Cursor.peek_congr hc' ▸ heq⟩ hname
    · rfl

/-- Going past a semicolon looks only at that semicolon and what stands behind it. Nothing fails
here, so there is no condition on `viable`. -/
theorem closing (a : α) :
    Settled Cursor.behind (fun c => .parsed a c.pastSemicolon) viable c := by
  have hbranch : Settled Cursor.behind
      (fun c => if c.peek = some (.symbol .semicolon) then .parsed a c.next else .parsed a c)
      viable c :=
    ifPeek (fun hpeek => step hpeek (done a)) fun _ => done a
  refine congr ?_ hbranch
  intro c' _
  unfold Cursor.pastSemicolon
  split <;> rfl

end Settled

end Monkey
