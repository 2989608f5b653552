import Monkey.Proofs.Syntax.Acceptance
import Monkey.Proofs.Syntax.Braces
import Monkey.Proofs.Syntax.Reach
import Monkey.Proofs.Syntax.Settlement

/-!
# `Monkey.Proofs.Syntax.EarliestFault`: the first diagnostic comes no later than it must

A text that is no program has a first place at which it goes wrong: the
tokens in front of that place begin a program, and together with the token
at the place they begin none (`FirstFaultAt`). The first diagnostic of the
text names the token at that place.

* `Survey.exists_first_fault` finds the place among the lexemes: those in
  front of it can be completed to statements, and wherever they stand in
  front of the same lexeme there is a diagnostic.
* `scan_spaced` makes a text of the lexemes that complete it.
* `Program.earliest_diagnostic` says it of whole texts.
-/

set_option autoImplicit false

namespace Monkey

/-! ### What is found from a place on -/

namespace Cursor

/-- Everything there is to find from the place on, the end of the text included. -/
def found (c : Cursor) : List Found := c.tokens.map Token.found ++ [⟨none, c.endLine⟩]

/-- From the first place on there is to find what the token stream has to offer, its end included:
`found` of `start s` is `s.found`. -/
theorem found_start (s : TokenStream) : (start s).found = s.found := rfl

/-- The first thing there is to find from a place is what stands there, the end of the text if no
token does. -/
theorem head?_found (c : Cursor) : c.found.head? = some c.here := by
  obtain ⟨tokens, endLine, depth⟩ := c
  cases tokens <;> rfl

/-- There is one more thing to find than there are lexemes, since the end of the text counts. The
bound `inside` of `FirstFaultAt` is checked with it. -/
@[simp] theorem length_found (c : Cursor) : c.found.length = c.lexemes.length + 1 := by
  simp [found, lexemes]

/-- What is found from a place that is reached is the last of what is found from here. By induction
along `Reaches`, each step of which drops one token. -/
theorem Reaches.found_suffix {c k : Cursor} (h : c.Reaches k) : k.found <:+ c.found := by
  induction h with
  | here => exact List.suffix_rfl
  | @next k _ ih =>
      have hnext : k.next.found <:+ k.found := by
        obtain ⟨tokens, endLine, depth⟩ := k
        cases tokens with
        | nil => exact List.suffix_rfl
        | cons t ts => exact List.suffix_cons _ _
      exact hnext.trans ih

/-- What stands at a place that is reached is found behind the lexemes that lead there. The index is
the number of those lexemes, which is how a diagnostic gets its position in the text. -/
theorem Reaches.getElem?_found {c k : Cursor} {us : List Lexeme} (h : c.Reaches k)
    (hus : c.lexemes = us ++ k.lexemes) : c.found[us.length]? = some k.here := by
  obtain ⟨front, hfront⟩ := h.found_suffix
  have hlength : front.length = us.length := by
    have hfound := congrArg List.length hfront
    have hlexemes := congrArg List.length hus
    simp only [List.length_append, length_found] at hfound hlexemes
    omega
  rw [← hfront, ← hlength, List.getElem?_append_right (Nat.le_refl _), Nat.sub_self,
    ← List.head?_eq_getElem?, head?_found]

/-- What a parser looks at when it gives up stands at a place that is reached: the place itself or
the next one, as its `Sight` says. -/
theorem reaches_look (c : Cursor) (sight : Sight) :
    ∃ k, c.Reaches k ∧ k.lexemes = c.unread sight ∧ k.here = c.look sight := by
  cases sight with
  | here => exact ⟨c, .here, rfl, rfl⟩
  | ahead => exact ⟨c.next, .next .here, c.lexemes_next, rfl⟩

end Cursor

/-! ### The first diagnostic of a survey -/

/-- Where there is a first diagnostic, what stands in front of the place it names can be completed,
and wherever it stands in front of the same lexeme there is a diagnostic. By induction on the
statements in front of it, each of which is read in full; the malformed one goes by
`Statement.settled_parse`. -/
theorem Survey.exists_first_fault {c : Cursor} {d : Diagnostic} {ds : List Diagnostic}
    (h : (ofCursor c).diagnostics = d :: ds) :
    ∃ us k, c.Reaches k ∧ c.lexemes = us ++ k.lexemes ∧ d.found = k.here ∧
      Begun (Block.Form []) us ∧
        ∀ c' rest, c'.lexemes = us ++ rest → rest.head? = k.lexemes.head? →
          (ofCursor c').diagnostics ≠ [] := by
  cases hc : c.current with
  | none =>
      rw [ofCursor_of_none hc] at h
      cases h
  | some t =>
      have hpos := Cursor.remaining_of_current hc
      -- Whatever starts like this place starts with a lexeme.
      have hcurrent {c' : Cursor} {us rest : List Lexeme} {k : Cursor}
          (hus : c.lexemes = us ++ k.lexemes) (hc' : c'.lexemes = us ++ rest)
          (hrest : rest.head? = k.lexemes.head?) : c'.current = some t := by
        rw [← hc]
        refine Cursor.current_congr ?_
        rw [hc', hus, List.head?_append, hrest, ← List.head?_append]
      cases hparse : Statement.parse c with
      | parsed s k =>
          have hle := Statement.remaining_le_of_parse hparse
          rw [ofCursor_of_parsed hc hparse, diagnostics_cons_wellFormed] at h
          have hreach := Statement.reaches_of_parsed hparse
          obtain ⟨us, hus, hrepeat⟩ := (Statement.settled_parse c).parsed hparse
          obtain ⟨vs, m, hm, hvs, hfound, hbegun, hfault⟩ := exists_first_fault h
          rw [Cursor.lexemes_next] at hvs
          have hlexemes : c.lexemes = (us ++ vs) ++ m.lexemes := by
            rw [hus, hvs, List.append_assoc]
          refine ⟨us ++ vs, m, hreach.trans hm.of_next, hlexemes, hfound, ?_, ?_⟩
          · exact Block.begun_cons (by simp) hparse hus ⟨m.lexemes, hvs.symm⟩ hbegun
          · intro c' rest hc' hrest
            have hahead : (vs ++ rest).head? = k.behind.head? := by
              rw [hvs, List.head?_append, hrest, ← List.head?_append]
            obtain ⟨k', hk', hbehind⟩ :=
              hrepeat c' (vs ++ rest) (by rw [hc', List.append_assoc]) hahead
            rw [ofCursor_of_parsed (hcurrent hlexemes hc' hrest) hk', diagnostics_cons_wellFormed]
            exact hfault k'.next rest (by rw [Cursor.lexemes_next, hbehind]) hrest
      | failed e k =>
          rw [ofCursor_of_some hc, hparse] at h
          obtain rfl : e = d := (List.cons.inj h).1
          have hreach := Statement.reaches_of_failed hparse
          obtain ⟨sight, us, hus, hfound, hbegun, hrepeat⟩ :=
            (Statement.settled_parse c).failed hparse
          obtain ⟨m, hm, hlexemes, hhere⟩ := k.reaches_look sight
          rw [← hlexemes] at hus hrepeat
          refine ⟨us, m, hreach.trans hm, hus, by rw [hfound, hhere], ?_, ?_⟩
          · refine hbegun.mono ?_
            rintro ts ⟨s, hwritten⟩
            exact ⟨ts ++ [], [s], by simp, .bare hwritten standsApart_nil .nil⟩
          · intro c' rest hc' hrest
            obtain ⟨k', hk', -⟩ := hrepeat c' rest hc' hrest
            rw [ofCursor_of_some (hcurrent hus hc' hrest), hk']
            exact List.cons_ne_nil _ _
termination_by c.remaining
decreasing_by simp only [Cursor.remaining_next]; omega

/-! ### Texts with given lexemes -/

/-- The lexemes one behind the other, a space behind each. -/
def spaced (ts : List Lexeme) : List Char := ts.flatMap fun t => t.source.toList ++ [' ']

/-- Genuine lexemes with spaces behind them are read as they stand. So every list of genuine lexemes
is the lexemes of some text, which `FirstFaultAt.of_survey` needs for the completion. -/
theorem scan_spaced {ts : List Lexeme} (h : ∀ t ∈ ts, t.Genuine) : scan (spaced ts) = ts := by
  induction ts with
  | nil => exact scan_nil
  | cons t ts ih =>
      obtain ⟨ht, hts⟩ := List.forall_mem_cons.1 h
      have hspaced : spaced (t :: ts) = t.source.toList ++ ' ' :: spaced ts := by simp [spaced]
      have hends : t.EndsBefore (' ' :: spaced ts) := t.endsBefore_of_isBlank fun c hc => by
        cases hc
        rfl
      rw [hspaced, scan_source_append ht hends, scan_space_cons, ih hts]

/-! ### The first fault of a text -/

/-- The classes and texts of everything there is to find are the lexemes and then none. The lines
are left out, since two texts with the same tokens may differ in them. -/
theorem TokenStream.lexeme_found (s : TokenStream) :
    s.found.map Found.lexeme = s.lexemes.map some ++ [none] := by
  unfold TokenStream.found TokenStream.lexemes TokenStream.finish
  rw [List.map_append, List.map_map, List.map_map]
  rfl

/-- What starts with the same lexemes, the end of the text included, has them in front of the same
lexeme. The final `none` marks the end, so `t = none` says that `ts` is `us`. -/
theorem prefix_lexemes {us ts : List Lexeme} {t : Option Lexeme}
    (h : us.map some ++ [t] <+: ts.map some ++ [none]) :
    ∃ rest, ts = us ++ rest ∧ rest.head? = t := by
  induction us generalizing ts with
  | nil =>
      refine ⟨ts, rfl, ?_⟩
      cases ts with
      | nil => exact (List.cons_prefix_cons.1 h).1.symm
      | cons v vs => exact (List.cons_prefix_cons.1 h).1.symm
  | cons u us ih =>
      cases ts with
      | nil => exact nomatch (List.cons_prefix_cons.1 h).1
      | cons v vs =>
          obtain ⟨hhead, htail⟩ := List.cons_prefix_cons.1 h
          obtain ⟨rest, rfl, hrest⟩ := ih htail
          exact ⟨rest, by rw [Option.some.inj hhead]; rfl, hrest⟩

/-- The tokens of the text go wrong at the `i`-th, the end of the text counted as a token: those in
front of it begin a program, and those up to it begin none. -/
structure FirstFaultAt (text : String) (i : Nat) : Prop where
  inside : i < (tokenize text).found.length
  /-- Further lexemes behind the first `i` make a text that is a program. -/
  completed : ∃ (whole : String) (more : List Lexeme) (p : Program),
    (tokenize whole).lexemes = (tokenize text).lexemes.take i ++ more ∧
      Program.parse whole = .ok p
  /-- No text that starts with the first `i` tokens and the next one is a program. -/
  refused : ∀ (other : String) (p : Program),
    ((tokenize text).found.map Found.lexeme).take (i + 1) <+:
        (tokenize other).found.map Found.lexeme →
      Program.parse other ≠ .ok p

namespace FirstFaultAt

variable {text : String} {i j : Nat}

/-- Tokens that begin a program have not gone wrong: if the text goes wrong at `j` as well, then not
before `i`. The completion of the one would be what the other refuses. -/
theorem le (hi : FirstFaultAt text i) (hj : FirstFaultAt text j) : i ≤ j := by
  -- With `j < i`, the program that completes the first `i` tokens starts with the one refused at
  -- `j`.
  refine Decidable.byContradiction fun hlt => ?_
  obtain ⟨whole, more, p, hwhole, hparse⟩ := hi.completed
  refine hj.refused whole p ?_ hparse
  have hinside : i ≤ (tokenize text).lexemes.length := by
    have hlength := hi.inside
    rw [← Cursor.found_start, Cursor.length_found] at hlength
    exact Nat.le_of_lt_succ hlength
  have htake : ((tokenize text).lexemes.map some ++ [none]).take (j + 1)
      = ((tokenize text).lexemes.take (j + 1)).map some := by
    rw [List.take_append_of_le_length (by rw [List.length_map]; omega), List.map_take]
  rw [TokenStream.lexeme_found, TokenStream.lexeme_found, htake, hwhole, List.map_append,
    List.append_assoc]
  have hstarts : (tokenize text).lexemes.take (j + 1) <+: (tokenize text).lexemes.take i :=
    List.take_prefix_take_left (by omega)
  exact (hstarts.map some).trans (List.prefix_append _ _)

/-- A text goes wrong for the first time at one place only, by `le` both ways. -/
theorem unique (hi : FirstFaultAt text i) (hj : FirstFaultAt text j) : i = j :=
  Nat.le_antisymm (hi.le hj) (hj.le hi)

end FirstFaultAt

/-- A place in front of which the lexemes can be completed, and with whose lexeme there is a
diagnostic, is where a text goes wrong. The completed lexemes are spelt out by `spaced`, which needs
them genuine: those of `us` were scanned and those behind it write statements. -/
theorem FirstFaultAt.of_survey {text : String} {us rest : List Lexeme}
    (hus : (tokenize text).lexemes = us ++ rest) (hbegun : Begun (Block.Form []) us)
    (hfault : ∀ (c : Cursor) (rest' : List Lexeme), c.lexemes = us ++ rest' →
      rest'.head? = rest.head? → (Survey.ofCursor c).diagnostics ≠ []) :
    FirstFaultAt text us.length where
  inside := by
    rw [← Cursor.found_start, Cursor.length_found]
    have hlength := congrArg List.length hus
    rw [List.length_append] at hlength
    show us.length < (tokenize text).lexemes.length + 1
    omega
  completed := by
    obtain ⟨ws, hws, xs, b, hxs, hwritten⟩ := hbegun
    rw [List.append_nil] at hxs
    -- What has been read is genuine unless it is illegal, and what is written is not illegal.
    have hgenuine : ∀ t ∈ us ++ ws, t.Genuine := by
      intro t ht
      rcases List.mem_append.1 ht with hus' | hws'
      · have hscan : t ∈ scan text.toList := by
          rw [← lexemes_tokenize, hus]
          exact List.mem_append_left _ hus'
        have hlegal := ((hwritten.nested nested_balanced 0) 1 (Nat.le_refl _)).1.legal (hxs ▸ ht)
        rcases genuine_of_mem_scan hscan with h | ⟨bad, h⟩
        · exact h
        · exact absurd h (hlegal bad)
      · exact hws t hws'
    have hwhole : (tokenize (String.ofList (spaced (us ++ ws)))).lexemes = us ++ ws := by
      rw [lexemes_tokenize, String.toList_ofList, scan_spaced hgenuine]
    refine ⟨String.ofList (spaced (us ++ ws)), ws, ⟨b⟩, ?_, ?_⟩
    · rw [hwhole, hus, List.take_left]
    · refine Program.parse_of_written ?_
      rw [hwhole, hxs]
      exact hwritten
  refused := by
    intro other p hstarts hparse
    have htake : ((tokenize text).lexemes.map some ++ [none]).take (us.length + 1)
        = us.map some ++ [rest.head?] := by
      rw [hus, List.map_append, List.append_assoc, List.take_append, List.length_map,
        List.take_of_length_le (by simp), Nat.add_sub_cancel_left]
      cases rest <;> rfl
    rw [TokenStream.lexeme_found, TokenStream.lexeme_found, htake] at hstarts
    obtain ⟨rest', hrest', hhead⟩ := prefix_lexemes hstarts
    have hwritten : Block.Written (Cursor.start (tokenize other)).lexemes p.statements :=
      Program.written_of_parse hparse
    exact hfault (Cursor.start (tokenize other)) rest' hrest' hhead
      (Survey.ofCursor_of_written hwritten rfl).1

/-- The first diagnostic of a text that is no program names the token at which the text goes wrong:
the tokens in front of that token begin a program, no text that starts with those and that token is
a program, and there is only one such place in the text. From `Survey.exists_first_fault` by
`FirstFaultAt.of_survey`. -/
theorem Program.earliest_diagnostic {text : String} {d : Diagnostic} {ds : List Diagnostic}
    (h : Program.parse text = .error (d :: ds)) :
    ∃ i, (tokenize text).found[i]? = some d.found ∧ FirstFaultAt text i ∧
      ∀ j, FirstFaultAt text j → j = i := by
  have hdiagnostics : (Survey.ofText text).diagnostics = d :: ds := by
    unfold Program.parse at h
    dsimp only at h
    split at h
    · cases h
    · exact Except.error.inj h
  obtain ⟨us, k, hreach, hus, hfound, hbegun, hfault⟩ := Survey.exists_first_fault hdiagnostics
  have hfirst : FirstFaultAt text us.length := .of_survey hus hbegun hfault
  refine ⟨us.length, ?_, hfirst, fun j hj => hj.unique hfirst⟩
  rw [hfound]
  exact hreach.getElem?_found hus

/-- An expression is missing behind a comma, in a list in a body that nothing closes, and a second
statement is malformed too: the first diagnostic names the brace behind that comma, as
`earliest_diagnostic` has it. -/
theorem Program.earliest_diagnostic_behind_comma :
    let text := "let f = fn(x) \x7b\n  if (x) \x7b [x, \x7d\n\x7d;\nlet = 2"
    let missing : Diagnostic := ⟨.expression, ⟨some (.symbol .rightBrace), 2⟩⟩
    let unnamed : Diagnostic := ⟨.identifier, ⟨some (.symbol .assign), 4⟩⟩
    Program.parse text = .error [missing, unnamed] ∧
      ∃ i, (tokenize text).found[i]? = some missing.found ∧ FirstFaultAt text i ∧
        ∀ j, FirstFaultAt text j → j = i := by
  intro text missing unnamed
  have hdiagnostics : (Survey.ofText text).diagnostics = [missing, unnamed] := by
    subst text missing unnamed
    decide +kernel
  have h : Program.parse text = .error [missing, unnamed] := by
    unfold Program.parse
    dsimp only
    rw [hdiagnostics]
    rfl
  exact ⟨h, Program.earliest_diagnostic h⟩

end Monkey
