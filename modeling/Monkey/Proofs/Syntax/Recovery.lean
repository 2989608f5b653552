import Monkey.Proofs.Syntax.Acceptance
import Monkey.Proofs.Syntax.Braces
import Monkey.Proofs.Syntax.Shift

/-!
# `Monkey.Proofs.Syntax.Recovery`: what is malformed stays on its side

A semicolon outside all braces separates a text for good. Whatever stands
in front of it, well-formed or not, what stands behind it is read as if it
stood alone, and only its lines are moved down.

No statement goes on behind such a semicolon (`Monkey.Proofs.Syntax.Braces`),
and neither does what is given up of a malformed one
(`Cursor.resumes_recover`). So reading comes back to a place between two
statements with no braces open, in front of the semicolon or right behind
it (`Resumes`), and that is all that it hands on.

* `Survey.step_of_parsed` and `Survey.step_of_failed` are one statement in
  front of the semicolon, `Survey.run_opening` all of them.
* `tokenize_append` gives the tokens on both sides of the semicolon, and
  `Survey.ofText_append_semicolon` what is read from them.
-/

set_option autoImplicit false

namespace Monkey

/-! ### Places between statements -/

namespace Cursor

/-- The place at the first of the tokens, with `d` braces open in front of it. -/
def opening (d : Nat) (ts : List Token) (endLine : Nat) : Cursor :=
  ⟨ts, endLine, depthAfter d (foundIn endLine ts).lexeme⟩

variable {d : Nat} {t : Token} {ts : List Token} {l : Nat}

/-- The lexemes from the place `opening` at the first of some tokens are those of the tokens,
whatever depth it is given. -/
@[simp] theorem lexemes_opening : (opening d ts l).lexemes = ts.map Token.lexeme := rfl

/-- As many tokens are left at that place as there are. With `lexemes_opening` all that is used of
`opening` but its depth. -/
@[simp] theorem remaining_opening : (opening d ts l).remaining = ts.length := rfl

/-- Behind the first of the tokens stands the place at the others, with the depth `depthAfter` that
the first one leaves. -/
@[simp] theorem next_opening_cons :
    (opening d (t :: ts) l).next = opening (depthAfter d (some t.lexeme)) ts l := rfl

/-- Behind any of the tokens stands the place at the others, with as many braces open as the tokens
leave. By induction on the tokens `front`. -/
theorem reaches_opening (d : Nat) (front rest : List Token) (l : Nat) :
    (opening d (front ++ rest) l).Reaches
      (opening (depthFrom d (front.map Token.lexeme)) rest l) := by
  induction front generalizing d with
  | nil => exact .here
  | cons t front ih => exact .of_next (ih _)

/-- A place that is reached from the first token is the place at what is left to read. The form of
`Reaches.unique` in which the depth is computed by `depthFrom`. -/
theorem Reaches.eq_opening {front rest : List Token} {k : Cursor}
    (h : (opening d (front ++ rest) l).Reaches k) (hk : k.remaining = rest.length) :
    k = opening (depthFrom d (front.map Token.lexeme)) rest l :=
  h.unique (reaches_opening d front rest l) hk

end Cursor

/-- The equation of `recover` at the first of some tokens, with every place an `opening`. It lets
the induction of `resumes_recover` go over the list of tokens. -/
theorem Cursor.recover_opening_cons (d : Nat) (x : Token) (ts : List Token) (l : Nat) :
    (opening d (x :: ts) l).recover =
      if depthAfter d (some x.lexeme) = 0 ∧ x.lexeme = .symbol .semicolon then
        opening d (x :: ts) l
      else if depthAfter d (some x.lexeme) = 0 ∧ x.lexeme = .symbol .rightBrace then
        if (foundIn l ts).lexeme = some (.symbol .semicolon) then
          opening (depthAfter d (some x.lexeme)) ts l
        else opening d (x :: ts) l
      else (opening (depthAfter d (some x.lexeme)) ts l).recover :=
  recover_of_some rfl

/-! ### Where reading is resumed -/

/-- The places lie between two statements with no braces open: all right behind the semicolon `t`,
or all in front of it with the same tokens between, less than `n` of them. -/
def Resumes (t : Token) (n : Nat) (place : List Token → Nat → Cursor) : Prop :=
  (∀ ys l, place ys l = .opening 0 ys l) ∨
    ∃ zs : List Token, zs.length < n ∧ depthFrom 0 (zs.map Token.lexeme) = 0 ∧
      ∀ ys l, place ys l = .opening 0 (zs ++ t :: ys) l

namespace Resumes

variable {t : Token} {n m : Nat} {place : List Token → Nat → Cursor}

/-- A bound on the tokens between may be loosened: `n` only serves the induction of `run_opening`.
-/
theorem mono (h : Resumes t n place) (hle : n ≤ m) : Resumes t m place := by
  refine h.imp_right ?_
  rintro ⟨zs, hlength, hdepth, hplace⟩
  exact ⟨zs, Nat.lt_of_lt_of_le hlength hle, hdepth, hplace⟩

/-- Behind a semicolon, or in front of the first token where none stands, with no braces open,
reading `Resumes`. It may be that semicolon itself which is gone past, or one in front of it. -/
theorem pastSemicolon (ht : t.lexeme = .symbol .semicolon) {xs : List Token}
    (hxs : depthFrom 0 (xs.map Token.lexeme) = 0) (hlength : xs.length < n)
    (hplace : ∀ ys l, place ys l =
      if (Cursor.foundIn l (xs ++ t :: ys)).lexeme = some (.symbol .semicolon) then
        (Cursor.opening 0 (xs ++ t :: ys) l).next
      else .opening 0 (xs ++ t :: ys) l) :
    Resumes t n place := by
  have hnext {x : Token} (hx : x.lexeme = .symbol .semicolon) (ys : List Token) (l : Nat) :
      (Cursor.opening 0 (x :: ys) l).next = .opening 0 ys l := by
    rw [Cursor.next_opening_cons, hx]
    rfl
  cases xs with
  | nil =>
      refine .inl fun ys l => ?_
      rw [hplace]
      refine (if_pos ?_).trans (hnext ht ys l)
      rw [← ht]
      rfl
  | cons x xs =>
      -- A semicolon among the tokens in front is gone past, and then fewer of them are left.
      by_cases hx : x.lexeme = .symbol .semicolon
      · refine .inr ⟨xs, Nat.lt_of_succ_lt hlength, ?_, fun ys l => ?_⟩
        · rw [List.map_cons, depthFrom_cons, hx] at hxs
          exact hxs
        · rw [hplace]
          refine (if_pos ?_).trans (hnext hx _ l)
          rw [← hx]
          rfl
      · refine .inr ⟨x :: xs, hlength, hxs, fun ys l => ?_⟩
        rw [hplace]
        exact if_neg fun h => hx (Option.some.inj h)

end Resumes

section Semicolon

variable {t : Token} (ht : t.lexeme = .symbol .semicolon)
include ht

/-- What is given up of a malformed statement does not go on behind a semicolon outside all braces.
By induction on the tokens in front of it: `recover` stops at one of them, or at the semicolon at
the latest. -/
theorem Cursor.resumes_recover {e : Nat} {xs : List Token}
    (hxs : depthFrom e (xs.map Token.lexeme) = 0) :
    Resumes t xs.length fun ys l => (Cursor.opening e (xs ++ t :: ys) l).recover.next := by
  induction xs generalizing e with
  | nil =>
      -- The semicolon itself ends what is given up.
      obtain rfl : e = 0 := hxs
      have hdepth : Cursor.depthAfter 0 (some t.lexeme) = 0 := by
        rw [ht]
        rfl
      refine .inl fun ys l => ?_
      show (Cursor.opening 0 (t :: ys) l).recover.next = _
      rw [Cursor.recover_opening_cons, if_pos ⟨hdepth, ht⟩, Cursor.next_opening_cons, hdepth]
  | cons x xs ih =>
      rw [List.map_cons, depthFrom_cons] at hxs
      by_cases hsemicolon : Cursor.depthAfter e (some x.lexeme) = 0 ∧ x.lexeme = .symbol .semicolon
      · rw [hsemicolon.1] at hxs
        refine .inr ⟨xs, Nat.lt_succ_self _, hxs, fun ys l => ?_⟩
        show (Cursor.opening e (x :: (xs ++ t :: ys)) l).recover.next = _
        rw [Cursor.recover_opening_cons, if_pos hsemicolon, Cursor.next_opening_cons, hsemicolon.1]
      -- No semicolon stops the skipping here, but a closing brace might.
      · by_cases hbrace :
          Cursor.depthAfter e (some x.lexeme) = 0 ∧ x.lexeme = .symbol .rightBrace
        · -- A brace that closes the outermost block takes a semicolon behind it along.
          rw [hbrace.1] at hxs
          refine .pastSemicolon ht hxs (Nat.lt_succ_self _) fun ys l => ?_
          show (Cursor.opening e (x :: (xs ++ t :: ys)) l).recover.next = _
          rw [Cursor.recover_opening_cons, if_neg hsemicolon, if_pos hbrace,
            apply_ite Cursor.next, Cursor.next_opening_cons, hbrace.1]
        · have hrecover (ys : List Token) (l : Nat) :
              (Cursor.opening e (x :: xs ++ t :: ys) l).recover =
                (Cursor.opening (Cursor.depthAfter e (some x.lexeme))
                  (xs ++ t :: ys) l).recover := by
            show (Cursor.opening e (x :: (xs ++ t :: ys)) l).recover = _
            rw [Cursor.recover_opening_cons, if_neg hsemicolon, if_neg hbrace]
          simp only [hrecover]
          exact (ih hxs).mono (Nat.le_succ _)

/-- Lexemes that are in order end in front of a semicolon outside all braces, since `Orderly` allows
none at depth zero. So what a parser has accepted lies wholly in front of it. -/
theorem split_of_orderly {zs : List Token} {us rest : List Lexeme}
    (hzs : depthFrom 0 (zs.map Token.lexeme) = 0) (hus : Orderly 0 us)
    (h : zs.map Token.lexeme ++ [t.lexeme] = us ++ rest) :
    ∃ front xs, zs = front ++ xs ∧ front.map Token.lexeme = us ∧
      rest = xs.map Token.lexeme ++ [t.lexeme] := by
  rcases List.append_eq_append_iff.1 h with ⟨vs, rfl, hvs⟩ | ⟨vs, hvs, hrest⟩
  · cases vs with
    | nil => exact ⟨zs, [], by simp, by simp, by simpa using hvs.symm⟩
    | cons v vs =>
        -- The semicolon itself would be out of order.
        obtain ⟨hv, -⟩ := List.cons.inj hvs
        have hbad := (Orderly.append.1 hus).2
        rw [hzs] at hbad
        exact absurd (hbad.2.1 (hv.symm.trans ht)) (Nat.lt_irrefl 0)
  · obtain ⟨front, xs, rfl, hfront, rfl⟩ := List.map_eq_append_iff.1 hvs
    exact ⟨front, xs, rfl, hfront, hrest⟩

end Semicolon

/-- What stands in front of a semicolon is found whatever stands behind it: if nothing stands in
front, the semicolon `t` is found. -/
theorem foundIn_append (xs ys : List Token) (t : Token) (l : Nat) :
    Cursor.foundIn l (xs ++ t :: ys) = Cursor.foundIn 0 (xs ++ [t]) := by
  cases xs <;> rfl

/-- The place behind a statement is reached, whether or not its semicolon is read by
`pastSemicolon`. -/
theorem Statement.reaches_next {c k : Cursor} {s : Statement}
    (h : Statement.parseBare c = .parsed s k) : c.Reaches k.next := by
  have hparse : Statement.parse c = .parsed s k.pastSemicolon := by
    rw [Statement.parse_eq_andThen, h, Outcome.andThen_parsed]
  have hreach := Statement.reaches_of_parsed hparse
  by_cases hpeek : k.peek = some (.symbol .semicolon)
  · rw [Cursor.pastSemicolon_of_peek hpeek] at hreach
    exact hreach
  · rw [Cursor.pastSemicolon_of_ne hpeek] at hreach
    exact hreach.next

/-- Parsers that give up at the same tokens stand at the same place, at those tokens or at the one
in front of them. What stands behind the semicolon `t` may differ, as `ys` and `l` do here. -/
theorem Cursor.opening_of_unread {sight : Sight} {front xs : List Token} {t : Token} {k : Cursor}
    (hdepth : depthFrom 0 ((front ++ xs).map Token.lexeme) = 0)
    (hreach : (opening 0 (front ++ (xs ++ [t])) 0).Reaches k)
    (hunread : k.unread sight = (xs ++ [t]).map Token.lexeme) :
    ∃ e vs, vs.length ≤ (front ++ xs).length ∧ depthFrom e (vs.map Token.lexeme) = 0 ∧
      ∀ ys l k', (opening 0 (front ++ (xs ++ t :: ys)) l).Reaches k' →
        k'.unread sight = (xs ++ t :: ys).map Token.lexeme →
          k' = opening e (vs ++ t :: ys) l ∧ k'.look sight = foundIn 0 (xs ++ [t]) := by
  cases sight with
  -- The parser stands at the unread tokens themselves, with the depth that `front` leaves.
  | here =>
      refine ⟨depthFrom 0 (front.map Token.lexeme), xs, by simp, ?_, ?_⟩
      · rwa [List.map_append, depthFrom_append] at hdepth
      · intro ys l k' hreach' hlexemes
        have hremaining : k'.remaining = (xs ++ t :: ys).length := by
          rw [← length_lexemes, ← List.length_map Token.lexeme]
          exact congrArg List.length hlexemes
        obtain rfl := hreach'.eq_opening hremaining
        exact ⟨rfl, foundIn_append xs ys t l⟩
  | ahead =>
      have hremaining (ys : List Token) (k' : Cursor)
          (hbehind : k'.behind = (xs ++ t :: ys).map Token.lexeme) :
          k'.remaining = (xs ++ t :: ys).length + 1 := by
        rw [remaining_of_behind (by simp [hbehind]), hbehind, List.length_map]
      -- Something has been read before the parser looks ahead.
      obtain ⟨front', u, rfl⟩ : ∃ front' u, front = front' ++ [u] := by
        have hle := hreach.remaining_le
        rw [hremaining [] k hunread, remaining_opening, List.length_append] at hle
        rcases List.eq_nil_or_concat front with rfl | ⟨front', u, rfl⟩
        · exact absurd hle (by simp)
        · exact ⟨front', u, List.concat_eq_append⟩
      refine ⟨depthFrom 0 (front'.map Token.lexeme), u :: xs, by simp, ?_, ?_⟩
      · simpa using hdepth
      · intro ys l k' hreach' hbehind
        rw [List.append_assoc] at hreach'
        obtain rfl := hreach'.eq_opening (hremaining ys k' hbehind)
        exact ⟨rfl, foundIn_append xs ys t l⟩

namespace Survey

/-- Where a semicolon stands there is something to read, if only the semicolon `t`, so a round of
the survey begins. -/
theorem current_opening (zs ys : List Token) (t : Token) (l : Nat) :
    ∃ x, (Cursor.opening 0 (zs ++ t :: ys) l).current = some x := by
  cases zs with
  | nil => exact ⟨_, rfl⟩
  | cons z zs => exact ⟨_, rfl⟩

section Semicolon

variable {t : Token} (ht : t.lexeme = .symbol .semicolon) {zs : List Token}
  (hzs : depthFrom 0 (zs.map Token.lexeme) = 0)
include ht hzs

/-- A statement that is read in front of a semicolon outside all braces is read whatever stands
behind the semicolon. It is balanced, so it ends in front of the semicolon, and `Settled` repeats it
there. -/
theorem step_of_parsed {s : Statement} {k : Cursor}
    (hparse : Statement.parseBare (.opening 0 (zs ++ [t]) 0) = .parsed s k) :
    ∃ place, Resumes t zs.length place ∧ ∀ ys l, ∃ c k,
      ofCursor (.opening 0 (zs ++ t :: ys) l) =
        (ofCursor (place ys l)).cons (.wellFormed s c k) := by
  obtain ⟨us, hus, hrepeat⟩ := (Statement.settled_parseBare _).parsed hparse
  have hwritten := Statement.written_between hparse hus
  obtain ⟨horderly, hdepth⟩ := hwritten.nested nested_balanced 0 0 (Nat.le_refl 0)
  have hsplit : zs.map Token.lexeme ++ [t.lexeme] = us ++ k.behind := by simpa using hus
  obtain ⟨front, xs, rfl, rfl, hbehind⟩ := split_of_orderly ht hzs horderly hsplit
  have hxs : depthFrom 0 (xs.map Token.lexeme) = 0 := by
    rwa [List.map_append, depthFrom_append, hdepth] at hzs
  have hlength : xs.length < (front ++ xs).length := by
    obtain ⟨u, vs, hfront, -⟩ := hwritten.head
    have hlength := congrArg List.length hfront
    simp only [List.length_map, List.length_cons, List.length_append] at hlength ⊢
    omega
  -- With anything behind the semicolon the statement ends in front of the same tokens.
  have hend (ys : List Token) (l : Nat) :
      ∃ k', Statement.parseBare (.opening 0 (front ++ xs ++ t :: ys) l) = .parsed s k' ∧
        k'.next = .opening 0 (xs ++ t :: ys) l := by
    rw [List.append_assoc]
    obtain ⟨k', hk', hrest⟩ := hrepeat (.opening 0 (front ++ (xs ++ t :: ys)) l)
      ((xs ++ t :: ys).map Token.lexeme) (by simp) (by rw [hbehind]; cases xs <;> rfl)
    have hremaining : k'.next.remaining = (xs ++ t :: ys).length := by
      rw [← Cursor.length_lexemes, Cursor.lexemes_next, hrest, List.length_map]
    have hplace := (Statement.reaches_next hk').eq_opening hremaining
    rw [hdepth] at hplace
    exact ⟨k', hk', hplace⟩
  refine ⟨_, .pastSemicolon ht hxs hlength fun _ _ => rfl, fun ys l => ?_⟩
  obtain ⟨k', hk', hnext⟩ := hend ys l
  obtain ⟨x, hx⟩ := current_opening (front ++ xs) ys t l
  refine ⟨.opening 0 (front ++ xs ++ t :: ys) l, k'.pastSemicolon, ?_⟩
  have hpast : k'.pastSemicolon.next =
      if (Cursor.foundIn l (xs ++ t :: ys)).lexeme = some (.symbol .semicolon) then
        (Cursor.opening 0 (xs ++ t :: ys) l).next
      else .opening 0 (xs ++ t :: ys) l := by
    have hpeek : k'.peek = (Cursor.foundIn l (xs ++ t :: ys)).lexeme := by
      rw [← Cursor.current_next, hnext]
      rfl
    rw [Cursor.pastSemicolon, apply_ite Cursor.next, hnext, hpeek]
  rw [ofCursor_of_some hx, Statement.parse_eq_andThen, hk', Outcome.andThen_parsed]
  exact congrArg (fun c => (ofCursor c).cons _) hpast

/-- A statement that is malformed in front of a semicolon outside all braces has the same diagnostic
whatever stands behind the semicolon. What was accepted of it is `Begun`, hence in order, hence ends
in front of the semicolon. -/
theorem step_of_failed {d : Diagnostic} {k : Cursor}
    (hparse : Statement.parseBare (.opening 0 (zs ++ [t]) 0) = .failed d k) :
    ∃ place d, Resumes t zs.length place ∧ ∀ ys l, ∃ c k,
      ofCursor (.opening 0 (zs ++ t :: ys) l) =
        (ofCursor (place ys l)).cons (.malformed d c k) := by
  obtain ⟨sight, us, hus, -, ⟨ws, -, s, hwritten⟩, hrepeat⟩ :=
    (Statement.settled_parseBare _).failed hparse
  have horderly : Orderly 0 us :=
    (Orderly.append.1 (hwritten.nested nested_balanced 0 0 (Nat.le_refl 0)).1).1
  have hsplit : zs.map Token.lexeme ++ [t.lexeme] = us ++ k.unread sight := by simpa using hus
  obtain ⟨front, xs, rfl, rfl, hunread⟩ := split_of_orderly ht hzs horderly hsplit
  -- The parser gives up at the tokens `xs`, or at the token in front of them.
  have hend (ys : List Token) (l : Nat) : ∃ k',
      Statement.parse (.opening 0 (front ++ (xs ++ t :: ys)) l) =
          .failed ⟨d.expected, k'.look sight⟩ k' ∧
        k'.unread sight = (xs ++ t :: ys).map Token.lexeme ∧
          (Cursor.opening 0 (front ++ (xs ++ t :: ys)) l).Reaches k' := by
    obtain ⟨k', hk', hrest⟩ := hrepeat (.opening 0 (front ++ (xs ++ t :: ys)) l)
      ((xs ++ t :: ys).map Token.lexeme) (by simp) (by rw [hunread]; cases xs <;> rfl)
    have hfailed : Statement.parse (.opening 0 (front ++ (xs ++ t :: ys)) l) =
        .failed ⟨d.expected, k'.look sight⟩ k' := by
      rw [Statement.parse_eq_andThen, hk', Outcome.andThen_failed]
    exact ⟨k', hfailed, hrest, Statement.reaches_of_failed hfailed⟩
  obtain ⟨k₀, -, hunread₀, hreach₀⟩ := hend [] 0
  obtain ⟨e, vs, hlength, hvs, hplace⟩ := Cursor.opening_of_unread hzs hreach₀ hunread₀
  refine ⟨_, ⟨d.expected, Cursor.foundIn 0 (xs ++ [t])⟩,
    (Cursor.resumes_recover ht hvs).mono hlength, ?_⟩
  intro ys l
  obtain ⟨k', hfailed, hunread, hreach⟩ := hend ys l
  obtain ⟨hk', hlook⟩ := hplace ys l k' hreach hunread
  obtain ⟨x, hx⟩ := current_opening (front ++ xs) ys t l
  rw [← hlook, ← hk']
  rw [List.append_assoc] at hx ⊢
  exact ⟨_, k', by rw [ofCursor_of_some hx, hfailed]⟩

end Semicolon

/-- What stands in front of a semicolon outside all braces gives the same statements and diagnostics
whatever stands behind the semicolon, and what stands behind it is read from a place of its own. The
run lemma: by induction on the number of tokens in front, one round at a time by `step_of_parsed` or
`step_of_failed`. -/
theorem run_opening {t : Token} (ht : t.lexeme = .symbol .semicolon) (zs : List Token)
    (hzs : depthFrom 0 (zs.map Token.lexeme) = 0) :
    ∃ ss ds, ∀ ys l,
      (ofCursor (.opening 0 (zs ++ t :: ys) l)).statements =
          ss ++ (ofCursor (.opening 0 ys l)).statements ∧
        (ofCursor (.opening 0 (zs ++ t :: ys) l)).diagnostics =
          ds ++ (ofCursor (.opening 0 ys l)).diagnostics := by
  -- Reading resumed behind one statement gives what the induction says.
  have hresumed {place : List Token → Nat → Cursor} (h : Resumes t zs.length place) :
      ∃ ss ds, ∀ ys l,
        (ofCursor (place ys l)).statements = ss ++ (ofCursor (.opening 0 ys l)).statements ∧
          (ofCursor (place ys l)).diagnostics =
            ds ++ (ofCursor (.opening 0 ys l)).diagnostics := by
    rcases h with hplace | ⟨vs, hlength, hvs, hplace⟩
    · refine ⟨[], [], fun ys l => ?_⟩
      rw [hplace]
      exact ⟨rfl, rfl⟩
    · obtain ⟨ss, ds, hrun⟩ := run_opening ht vs hvs
      refine ⟨ss, ds, fun ys l => ?_⟩
      rw [hplace]
      exact hrun ys l
  cases hparse : Statement.parseBare (.opening 0 (zs ++ [t]) 0) with
  | parsed s k =>
      obtain ⟨place, hplace, hstep⟩ := step_of_parsed ht hzs hparse
      obtain ⟨ss, ds, hrun⟩ := hresumed hplace
      refine ⟨s :: ss, ds, fun ys l => ?_⟩
      obtain ⟨c, k, hsurvey⟩ := hstep ys l
      obtain ⟨hstatements, hdiagnostics⟩ := hrun ys l
      rw [hsurvey, statements_cons_wellFormed, diagnostics_cons_wellFormed, hstatements]
      exact ⟨rfl, hdiagnostics⟩
  | failed d k =>
      obtain ⟨place, e, hplace, hstep⟩ := step_of_failed ht hzs hparse
      obtain ⟨ss, ds, hrun⟩ := hresumed hplace
      refine ⟨ss, e :: ds, fun ys l => ?_⟩
      obtain ⟨c, k, hsurvey⟩ := hstep ys l
      obtain ⟨hstatements, hdiagnostics⟩ := hrun ys l
      rw [hsurvey, statements_cons_malformed, diagnostics_cons_malformed, hdiagnostics]
      exact ⟨hstatements, rfl⟩
termination_by zs.length

end Survey

/-! ### Two texts -/

/-- The lines in front of a text that stands behind another one and a line feed. -/
def linesBefore (a : String) : Nat := 1 + a.toList.count '\n'

/-- The tokens of a text, of a semicolon on the next line, and of another text behind that. The line
feed in front of the semicolon keeps it out of a string that is not closed. -/
theorem tokenize_append (a b : String) :
    tokenize (a ++ "\n;" ++ b) =
      ⟨(tokenize a).tokens ++ ⟨.symbol .semicolon, 1 + linesBefore a⟩ ::
          (tokenize b).tokens.map (Token.shift (linesBefore a)),
        (tokenize b).endLine + linesBefore a⟩ := by
  have hchars : (a ++ "\n;" ++ b).toList = a.toList ++ '\n' :: ';' :: b.toList := by simp
  have hend : (Lexer.tokens ⟨a.toList, 1⟩).endLine + 1 = 1 + linesBefore a := by
    rw [Lexer.endLine_tokens, linesBefore]
    omega
  have hread : Lexeme.read ';' b.toList = (.symbol .semicolon, b.toList) := rfl
  show Lexer.tokens ⟨(a ++ "\n;" ++ b).toList, 1⟩ = _
  rw [hchars, Lexer.tokens_append_lineFeed, Lexer.tokens_cons rfl, hend, hread, Lexer.tokens_shift]
  rfl

/-- What stands in front of a semicolon outside all braces gives the same statements and diagnostics
whatever text stands behind the semicolon, and that text gives its own, further down. `run_opening`
for texts, with `ofCursor_shift` for the lines. -/
theorem Survey.exists_front {a : String} (h : depthFrom 0 (tokenize a).lexemes = 0) :
    ∃ ss ds, ∀ b : String,
      (ofText (a ++ "\n;" ++ b)).statements = ss ++ (ofText b).statements ∧
        (ofText (a ++ "\n;" ++ b)).diagnostics =
          ds ++ (ofText b).diagnostics.map (Diagnostic.shift (linesBefore a)) := by
  obtain ⟨ss, ds, hrun⟩ :=
    run_opening (t := ⟨.symbol .semicolon, 1 + linesBefore a⟩) rfl (tokenize a).tokens h
  refine ⟨ss, ds, fun b => ?_⟩
  -- What stands behind the semicolon is the start of `b` with the lines of `a` added.
  have hstart : (Cursor.start (tokenize b)).shift (linesBefore a) =
      .opening 0 ((tokenize b).tokens.map (Token.shift (linesBefore a)))
        ((tokenize b).endLine + linesBefore a) :=
    Cursor.shift_start (linesBefore a) (tokenize b)
  obtain ⟨hstatements, hdiagnostics⟩ :=
    ofCursor_shift (linesBefore a) (Cursor.start (tokenize b))
  rw [hstart] at hstatements hdiagnostics
  unfold ofText
  rw [tokenize_append, ← hstatements, ← hdiagnostics]
  exact hrun _ _

/-- A semicolon outside all braces separates a text for good. Whatever is malformed in front of it,
the text behind it gives its own statements and diagnostics, the diagnostics moved down by the lines
in front. The two instances of `Survey.exists_front` at `b` and at the empty text. -/
theorem Survey.ofText_append_semicolon {a : String} (b : String)
    (h : depthFrom 0 (tokenize a).lexemes = 0) :
    (ofText (a ++ "\n;" ++ b)).statements =
        (ofText (a ++ "\n;")).statements ++ (ofText b).statements ∧
      (ofText (a ++ "\n;" ++ b)).diagnostics =
        (ofText (a ++ "\n;")).diagnostics ++
          (ofText b).diagnostics.map (Diagnostic.shift (1 + a.toList.count '\n')) := by
  obtain ⟨ss, ds, hfront⟩ := exists_front h
  have hempty : ofText "" = ⟨[], Cursor.start (tokenize "")⟩ := by
    have hnone : (Cursor.start (tokenize "")).current = none := by
      rw [tokenize, Lexer.ofText]
      show (Cursor.start (Lexer.tokens ⟨[], 1⟩)).current = none
      rw [Lexer.tokens_nil]
      rfl
    exact ofCursor_of_none hnone
  -- The empty text behind the semicolon shows what the first text gives by itself.
  obtain ⟨hstatements, hdiagnostics⟩ := hfront ""
  rw [hempty, String.append_empty] at hstatements hdiagnostics
  obtain ⟨hstatements', hdiagnostics'⟩ := hfront b
  rw [hstatements', hdiagnostics', hstatements, hdiagnostics]
  simp [statements, diagnostics, linesBefore]

/-- In front of the semicolon stand a brace that closes nothing, a nameless binding with a block
inside a block, and a string that its line does not close; behind it a statement and a missing
parenthesis on the line after that. `ofText_append_semicolon` applies, since the braces in front
come to nothing. -/
theorem Survey.ofText_append_semicolon_of_garbage :
    let a := "\x7d let = fn(x) \x7b\n if (x \x7b 1; \x7d \x7d\n\"open"
    let b := "let y = 2;\n(y"
    depthFrom 0 (tokenize a).lexemes = 0 ∧
      (ofText (a ++ "\n;" ++ b)).statements =
          (ofText (a ++ "\n;")).statements ++ (ofText b).statements ∧
        (ofText (a ++ "\n;" ++ b)).diagnostics =
          (ofText (a ++ "\n;")).diagnostics ++
            (ofText b).diagnostics.map (Diagnostic.shift (1 + a.toList.count '\n')) := by
  intro a b
  have h : depthFrom 0 (tokenize a).lexemes = 0 := by
    subst a
    decide +kernel
  exact ⟨h, ofText_append_semicolon b h⟩

end Monkey
