import Mathlib.Logic.Function.Iterate
import Monkey.Proofs.Syntax.Braces
import Monkey.Proofs.Syntax.Simulation
import Monkey.Proofs.Syntax.SourceOrder

/-!
# `Monkey.Proofs.Syntax.OpenBraces`: the depth of a place counts open braces

A place keeps the number of braces that are open behind its current token, and
going on behind a malformed statement rests on it. Moving on is all that changes
it, so it depends on the tokens alone (`Cursor.Reaches.depth_eq`), whatever the
parsers made of them.

A run starts every statement outside all braces. Inside of one, the braces that
are open are those of its blocks and hash literals that are being read, and
where it ends they are closed. This is an invariant of the run,
`Point.Tracked`: `Point.Tracked.step` says that a step preserves it, and
`Point.Visits.tracked` that it holds at every point.

* `TokenStream.openBraces` counts over tokens, and `Cursor.Unclosed` says which
  braces are open.
* `BraceStep.encloses` is what a step does to the braces that are open.
* `Cursor.EndsRemnant` says where a malformed statement may end, and
  `Cursor.recover_first` that the first such place is where it does.
* `depth_counts_open_braces` is the result.
-/

set_option autoImplicit false

namespace Monkey

/-! ### Counting over tokens -/

/-- The number of braces that are open behind the first `n` tokens. A closing brace too many counts
for nothing. -/
def TokenStream.openBraces (s : TokenStream) (n : Nat) : Nat :=
  depthFrom 0 ((s.tokens.map Token.lexeme).take n)

/-- One token further it is counted whether that token is a brace. Behind the last token
`depthAfter` gets none and changes nothing, so there is no bound on `n`. -/
theorem TokenStream.openBraces_succ (s : TokenStream) (n : Nat) :
    s.openBraces (n + 1) =
      Cursor.depthAfter (s.openBraces n) (s.tokens.map Token.lexeme)[n]? := by
  unfold openBraces
  rw [List.take_add_one, depthFrom_append]
  cases (s.tokens.map Token.lexeme)[n]? <;> rfl

namespace Cursor

variable {s : TokenStream} {c k o : Cursor}

/-- The next place has the depth of this one, changed by the lexeme ahead. The definition of `next`
in the form in which depths are computed along a run. -/
theorem depth_next (c : Cursor) : c.next.depth = depthAfter c.depth c.peek := rfl

/-- What is no brace is not counted: `depthAfter` changes the depth at the two braces alone. -/
theorem depthAfter_of_not_brace {d : Nat} {t : Lexeme} (ht : t.isBrace = false) :
    depthAfter d (some t) = d := by
  unfold depthAfter
  split
  · rename_i heq
    cases heq
    cases ht
  · rename_i heq
    cases heq
    cases ht
  · rfl

/-- What stands at a place is the lexeme at its position. It ties `positionIn`, which counts tokens,
to the list of them. -/
theorem Reaches.current_eq (h : (start s).Reaches c) :
    c.current = (s.tokens.map Token.lexeme)[c.positionIn s]? := by
  have hdrop := List.suffix_iff_eq_drop.1 h.suffix
  rw [length_lexemes, length_lexemes] at hdrop
  rw [current_eq_head?, hdrop, List.head?_drop]
  rfl

/-- The next place has the next position, as long as there are tokens. At the end of the text `next`
stays, hence `hpos`. -/
theorem Reaches.positionIn_next (h : (start s).Reaches c) (hpos : 0 < c.remaining) :
    c.next.positionIn s = c.positionIn s + 1 := by
  have hle : c.remaining ≤ s.tokens.length := h.remaining_le
  unfold positionIn
  rw [remaining_next]
  omega

/-- The depth of a place is the number of braces that are open behind its current token. By
induction along `Reaches`: the parser's counter and `openBraces` take the same step at each token.
-/
theorem Reaches.depth_eq (h : (start s).Reaches c) :
    c.depth = s.openBraces (c.positionIn s + 1) := by
  induction h with
  | here =>
      have hposition : (start s).positionIn s = 0 := Nat.sub_self _
      rw [s.openBraces_succ, ← Reaches.current_eq .here, hposition]
      rfl
  | @next k hk ih =>
      rcases Nat.eq_zero_or_pos k.remaining with hzero | hpos
      · rw [next_of_remaining hzero]
        exact ih
      · rw [s.openBraces_succ, ← hk.next.current_eq, hk.positionIn_next hpos, ← ih, current_next]
        rfl

/-- The depth of a place is what is open in front of its token, and whether the token is a brace:
`Reaches.depth_eq` by one step of `openBraces_succ`. -/
theorem Reaches.depth_eq_depthAfter (h : (start s).Reaches c) :
    c.depth = depthAfter (s.openBraces (c.positionIn s)) c.current := by
  rw [h.depth_eq, s.openBraces_succ, h.current_eq]

/-- In front of a token the braces are open that are open behind the one before, so `openBraces`
there is the depth `c.depth` here. A statement starts at depth zero because of it, since the one
before it ended there. -/
theorem Reaches.openBraces_next (h : (start s).Reaches c) (hcurrent : c.next.current ≠ none) :
    s.openBraces (c.next.positionIn s) = c.depth := by
  obtain ⟨t, ht⟩ := Option.ne_none_iff_exists'.1 hcurrent
  have hpos := remaining_of_current ht
  rw [remaining_next] at hpos
  rw [h.positionIn_next (by omega), h.depth_eq]

/-! ### Braces that are open -/

/-- Of two places either one is reached from the other, unless they are the same: `next` takes a
token away, so no place is come back to. -/
theorem Reaches.antisymm (h : c.Reaches k) (h' : k.Reaches c) : c = k :=
  (h.eq_of_remaining (Nat.le_antisymm h.remaining_le h'.remaining_le)).symm

/-- What leads to the next place leads to this one, or is the next place. The places on the way from
the start are in one line, by `Reaches.total`. -/
theorem Reaches.of_reaches_next (hc : (start s).Reaches c) (ho : (start s).Reaches o)
    (h : o.Reaches c.next) : o = c.next ∨ o.Reaches c := by
  rcases ho.total hc with hoc | hco
  · exact .inr hoc
  · rcases hco.eq_or_next with rfl | hnext
    · exact .inr .here
    · exact .inl (h.antisymm hnext)

/-- The brace at `o` opens something that is not closed up to `c`: at no place on the way are there
fewer braces open than right behind it. -/
structure Unclosed (s : TokenStream) (c o : Cursor) : Prop where
  reached : (start s).Reaches o
  reaches : o.Reaches c
  brace : o.current = some (.symbol .leftBrace)
  depth_le : ∀ k, o.Reaches k → k.Reaches c → o.depth ≤ k.depth

namespace Unclosed

/-- Behind a brace that is not closed there is one open brace at least, the brace itself: `o.depth`
counts what is open right behind it. -/
theorem depth_pos (h : Unclosed s c o) : 0 < o.depth := by
  rw [h.reached.depth_eq_depthAfter, h.brace]
  exact Nat.succ_pos _

/-- An opening brace is not closed where it stands: the only place on the way is its own, by
`Reaches.antisymm`. -/
theorem here (hc : (start s).Reaches c) (hbrace : c.current = some (.symbol .leftBrace)) :
    Unclosed s c c where
  reached := hc
  reaches := .here
  brace := hbrace
  depth_le := by
    intro k hck hkc
    exact Nat.le_of_eq (congrArg depth (hck.antisymm hkc))

/-- A brace that is not closed up to the next place is not closed up to this one, unless it stands
there itself. The two cases are those of `Reaches.of_reaches_next`. -/
theorem of_next (h : Unclosed s c.next o) (hc : (start s).Reaches c) :
    o = c.next ∨ Unclosed s c o := by
  rcases hc.of_reaches_next h.reached h.reaches with hnext | hreaches
  · exact .inl hnext
  · refine .inr ⟨h.reached, hreaches, h.brace, ?_⟩
    intro k hok hkc
    exact h.depth_le k hok hkc.next

/-- An unclosed brace `o` stays open unless the next place has fewer open braces than there were
right behind it. -/
theorem next (h : Unclosed s c o) (hc : (start s).Reaches c) (hdepth : o.depth ≤ c.next.depth) :
    Unclosed s c.next o where
  reached := h.reached
  reaches := h.reaches.next
  brace := h.brace
  depth_le := by
    intro k hok hkc
    rcases hc.of_reaches_next (h.reached.trans hok) hkc with rfl | hkc
    · exact hdepth
    · exact h.depth_le k hok hkc

/-- Where no brace is open in front of a token, none is open but that token. A brace further back
would be counted by `openBraces`. -/
theorem eq_of_openBraces (h : Unclosed s c o) (hcurrent : c.current ≠ none)
    (hzero : s.openBraces (c.positionIn s) = 0) : o = c := by
  cases h.reaches with
  | here => rfl
  | @next k hok =>
      -- At the place before `c` no brace is open, so that one from before it has been closed there.
      have hk : (start s).Reaches k := h.reached.trans hok
      rw [hk.openBraces_next hcurrent] at hzero
      have hle := h.depth_le k hok (.next .here)
      have hpos := h.depth_pos
      omega

end Unclosed

end Cursor

/-- The places are those of the braces that are not closed up to `c`, the innermost first, and they
are all that its depth counts. -/
structure Encloses (s : TokenStream) (c : Cursor) (os : List Cursor) : Prop where
  mem_iff : ∀ o, o ∈ os ↔ c.Unclosed s o
  rank : ∀ i (h : i < os.length), os[i].depth = os.length - i
  depth_eq : c.depth = os.length

namespace Encloses

variable {s : TokenStream} {c k o : Cursor} {os os' : List Cursor}

/-- No brace is counted twice, since by `rank` each place of the list has a depth of its own. -/
theorem nodup (h : Encloses s c os) : os.Nodup := by
  rw [List.nodup_iff_pairwise_ne, List.pairwise_iff_getElem]
  intro i j hi hj hij heq
  have hranki := h.rank i hi
  have hrankj := h.rank j hj
  rw [heq] at hranki
  omega

/-- A brace has no larger depth than there are braces on the list. The innermost one has exactly
that depth, by `rank`. -/
theorem depth_le (h : Encloses s c os) (ho : o ∈ os) : o.depth ≤ os.length := by
  obtain ⟨i, hi, rfl⟩ := List.getElem_of_mem ho
  rw [h.rank i hi]
  exact Nat.sub_le _ _

/-- With none open in front of it, a token is alone to open a brace. So a statement's first token
sets up the list `os` that its run will keep. -/
theorem of_starts (hc : (Cursor.start s).Reaches c) (hzero : s.openBraces (c.positionIn s) = 0)
    (h : Task.Starts c os) : Encloses s c os := by
  have hdepth := hc.depth_eq_depthAfter
  rw [hzero] at hdepth
  cases h with
  -- A token that is no brace leaves the depth at nothing, and none can be open before it.
  | @plain t ht hplain =>
      rw [ht, Cursor.depthAfter_of_not_brace hplain] at hdepth
      have hcurrent : c.current ≠ none := ht ▸ Option.some_ne_none t
      refine ⟨?_, ?_, hdepth⟩
      · intro o
        rw [iff_false_left List.not_mem_nil]
        intro ho
        obtain rfl := ho.eq_of_openBraces hcurrent hzero
        rw [ho.brace] at ht
        cases ht
        cases hplain
      · intro i hi
        cases hi
  | opened hbrace =>
      rw [hbrace] at hdepth
      have hcurrent : c.current ≠ none := hbrace ▸ Option.some_ne_none _
      refine ⟨?_, ?_, hdepth⟩
      · intro o
        rw [List.mem_singleton]
        refine ⟨?_, fun ho => ho.eq_of_openBraces hcurrent hzero⟩
        rintro rfl
        exact .here hc hbrace
      · intro i hi
        obtain rfl : i = 0 := by simpa using hi
        exact hdepth

/-- Behind a token that opens no brace those are open that were, and are not deeper than
`c.next.depth`. One form for two cases: nothing is closed, or what is innermost is. -/
theorem unclosed_next (h : Encloses s c os) (hc : (Cursor.start s).Reaches c)
    (hpeek : c.peek ≠ some (.symbol .leftBrace)) :
    c.next.Unclosed s o ↔ o ∈ os ∧ o.depth ≤ c.next.depth := by
  constructor
  · intro ho
    rcases ho.of_next hc with rfl | hopen
    · exact absurd (c.current_next ▸ ho.brace) hpeek
    · exact ⟨(h.mem_iff o).2 hopen, ho.depth_le c.next ho.reaches .here⟩
  · rintro ⟨ho, hdepth⟩
    exact ((h.mem_iff o).1 ho).next hc hdepth

end Encloses

/-- The braces that a step of a run keeps on its list are those that are open. The step lemma of the
invariant `Encloses`, one case for each constructor of `BraceStep`. -/
theorem BraceStep.encloses {s : TokenStream} {c k : Cursor} {os os' : List Cursor}
    (h : BraceStep c k os os') (hc : (Cursor.start s).Reaches c) (hopen : Encloses s c os) :
    Encloses s k os' := by
  cases h with
  | stay => exact hopen
  -- No brace is gone past, so the depth stays and bounds every brace on the list.
  | @past _ t hpeek ht =>
      have hdepth : c.next.depth = os.length := by
        rw [Cursor.depth_next, hpeek, Cursor.depthAfter_of_not_brace ht, hopen.depth_eq]
      refine ⟨?_, hopen.rank, hdepth⟩
      intro o
      rw [hopen.unclosed_next hc (by rintro hbrace; cases hpeek.symm.trans hbrace; cases ht),
        hdepth]
      exact (and_iff_left_of_imp hopen.depth_le).symm
  -- The new brace is the deepest, so the others stay open below it.
  | opened hpeek =>
      have hdepth : c.next.depth = os.length + 1 := by
        rw [Cursor.depth_next, hpeek, hopen.depth_eq]
        rfl
      refine ⟨?_, ?_, hdepth⟩
      · intro o
        rw [List.mem_cons, hopen.mem_iff]
        refine ⟨?_, fun ho => ho.of_next hc⟩
        rintro (rfl | ho)
        · exact .here hc.next (c.current_next ▸ hpeek)
        · have hle := hopen.depth_le ((hopen.mem_iff o).2 ho)
          exact ho.next hc (by omega)
      · intro i hi
        cases i with
        | zero => exact hdepth
        | succ i =>
            rw [List.getElem_cons_succ, hopen.rank, List.length_cons]
            omega
  | @closed o _ hpeek =>
      have hdepth : c.next.depth = os'.length := by
        rw [Cursor.depth_next, hpeek, hopen.depth_eq]
        rfl
      have hrank : ∀ i (h : i < os'.length), os'[i].depth = os'.length - i := by
        intro i hi
        have hrank := hopen.rank (i + 1) (Nat.succ_lt_succ hi)
        rw [List.getElem_cons_succ, List.length_cons] at hrank
        omega
      refine ⟨?_, hrank, hdepth⟩
      intro o'
      rw [hopen.unclosed_next hc (by rw [hpeek]; decide), hdepth, List.mem_cons]
      constructor
      · intro ho'
        obtain ⟨i, hi, rfl⟩ := List.getElem_of_mem ho'
        exact ⟨.inr ho', hrank i hi ▸ Nat.sub_le _ _⟩
      · -- The innermost brace is deeper than what is left, and this is what closes it.
        rintro ⟨rfl | ho', hle⟩
        · have hrank := hopen.rank 0 (Nat.succ_pos _)
          rw [List.getElem_cons_zero, List.length_cons] at hrank
          omega
        · exact ho'

/-! ### Where malformed statements end -/

namespace Cursor

variable {c : Cursor}

/-- A malformed statement may end here: at the end of the text, or outside all braces at a semicolon
or a closing brace. -/
def EndsRemnant (c : Cursor) : Prop :=
  c.current = none ∨
    c.depth = 0 ∧ (c.current = some (.symbol .semicolon) ∨ c.current = some (.symbol .rightBrace))

/-- A semicolon behind such a place is another one, since both are outside all braces. So `recover`
stops where a malformed statement may end. -/
theorem EndsRemnant.pastSemicolon (h : c.EndsRemnant) : c.pastSemicolon.EndsRemnant := by
  by_cases hpeek : c.peek = some (.symbol .semicolon)
  · have hnext : c.next.current = some (.symbol .semicolon) := c.current_next.trans hpeek
    have hcurrent : c.current ≠ none :=
      (Reaches.next .here).current_ne_none (hnext ▸ Option.some_ne_none _)
    obtain ⟨hdepth, -⟩ := h.resolve_left hcurrent
    rw [pastSemicolon_of_peek hpeek]
    refine .inr ⟨?_, .inl hnext⟩
    rw [depth_next, hpeek, hdepth]
    rfl
  · rwa [pastSemicolon_of_ne hpeek]

/-- Where a malformed statement may end it does: `recover` stays, and takes in the semicolon behind
a closing brace. -/
theorem EndsRemnant.recover_eq (h : c.EndsRemnant) :
    c.recover = if c.current = some (.symbol .rightBrace) then c.pastSemicolon else c := by
  rcases h with hnone | ⟨hdepth, hsemicolon | hbrace⟩
  · rw [recover_of_none hnone, hnone]
    rfl
  · rw [recover_of_some hsemicolon, hsemicolon, if_pos ⟨hdepth, rfl⟩]
    rfl
  · rw [recover_of_some hbrace, hbrace, if_neg (by simp), if_pos ⟨hdepth, rfl⟩, if_pos rfl]
    rfl

/-- Where a malformed statement may not end, `recover` looks for its end further on, one token at a
time. -/
theorem recover_of_not_endsRemnant (h : ¬c.EndsRemnant) :
    c.current ≠ none ∧ c.recover = c.next.recover := by
  cases hcurrent : c.current with
  | none => exact absurd (.inl hcurrent) h
  | some lexeme =>
      refine ⟨Option.some_ne_none _, ?_⟩
      rw [recover_of_some hcurrent, if_neg, if_neg]
      · rintro ⟨hdepth, rfl⟩
        exact h (.inr ⟨hdepth, .inr hcurrent⟩)
      · rintro ⟨hdepth, rfl⟩
        exact h (.inr ⟨hdepth, .inl hcurrent⟩)

/-- A malformed statement is given up to the first place where it may end, with the semicolon behind
a closing brace. By induction on what remains; `EndsRemnant` decides each place on the way. -/
theorem recover_first (c : Cursor) :
    ∃ stop, c.Reaches stop ∧ stop.EndsRemnant ∧
      (∀ k, c.Reaches k → k.Reaches stop → k ≠ stop → ¬k.EndsRemnant) ∧
      c.recover =
        if stop.current = some (.symbol .rightBrace) then stop.pastSemicolon else stop := by
  by_cases hstop : c.EndsRemnant
  · refine ⟨c, .here, hstop, ?_, hstop.recover_eq⟩
    intro k hck hkc hne
    exact absurd (hkc.antisymm hck) hne
  · obtain ⟨hcurrent, hrecover⟩ := recover_of_not_endsRemnant hstop
    obtain ⟨t, ht⟩ := Option.ne_none_iff_exists'.1 hcurrent
    have hpos := remaining_of_current ht
    obtain ⟨stop, hreaches, hends, hfirst, heq⟩ := recover_first c.next
    refine ⟨stop, hreaches.of_next, hends, ?_, hrecover.trans heq⟩
    intro k hck hkstop hne
    -- A place on the way is this one, where nothing ends, or lies behind the next one.
    rcases hck.eq_or_next with rfl | hnext
    · exact hstop
    · exact hfirst k hnext hkstop hne
termination_by c.remaining
decreasing_by rw [remaining_next]; omega

/-- A malformed statement ends where it may, by `recover_first` and, for the semicolon behind a
brace, `EndsRemnant.pastSemicolon`. -/
theorem recover_endsRemnant (c : Cursor) : c.recover.EndsRemnant := by
  obtain ⟨stop, -, hends, -, heq⟩ := c.recover_first
  rw [heq]
  split
  · exact hends.pastSemicolon
  · exact hends

end Cursor

/-! ### The invariant of a run -/

/-- What is known of a point of the run over a token stream. -/
structure Point.Tracked (s : TokenStream) (x : Point) : Prop where
  reached : (Cursor.start s).Reaches x.place
  /-- A statement starts outside all braces. -/
  between : x.stage = .between → x.place.current ≠ none →
    s.openBraces (x.place.positionIn s) = 0
  /-- Inside of it the braces are open that are on the agenda. -/
  within : ∀ agenda, x.stage = .within agenda → Encloses s x.place (openers agenda)
  regained : x.stage = .regained → x.place.EndsRemnant

namespace Point

variable {s : TokenStream} {x y : Point}

/-- Behind a task the braces are open that are on the agenda, unless the run goes astray. For a task
that gives up, nothing is claimed but that its place is reached, as `Tracked` has it. -/
theorem tracked_point {o : Outcome (List Task)} {rest : List Task}
    (hreached : (Cursor.start s).Reaches (o.point rest).place)
    (h : ∀ ts k, o = .parsed ts k → Encloses s k (openers (ts ++ rest))) :
    Tracked s (o.point rest) := by
  cases o with
  | parsed ts k =>
      refine ⟨hreached, nofun, ?_, nofun⟩
      intro agenda hagenda
      cases hagenda
      exact h ts k rfl
  | failed d k => exact ⟨hreached, nofun, nofun, nofun⟩

/-- Behind a place that is outside all braces a statement may start, since no brace is open in front
of the next token, by `Reaches.openBraces_next`. -/
theorem tracked_next {c : Cursor} (hc : (Cursor.start s).Reaches c)
    (h : c.current ≠ none → c.depth = 0) : Tracked s ⟨c.next, .between⟩ := by
  refine ⟨hc.next, ?_, nofun, nofun⟩
  intro _ hcurrent
  rw [hc.openBraces_next hcurrent]
  exact h ((Cursor.Reaches.next .here).current_ne_none hcurrent)

/-- Where the end of a malformed statement is looked for, in the state `astray`, it is found where
it may end. The agenda is given up with the statement, so there is no list of braces to keep. -/
theorem tracked_astray {c : Cursor} {d : Diagnostic} (h : step ⟨c, .astray d⟩ = some y)
    (hreached : (Cursor.start s).Reaches y.place) : Tracked s y := by
  have hregained {k : Cursor} (hk : (Cursor.start s).Reaches k) (hends : k.EndsRemnant) :
      Tracked s ⟨k, .regained⟩ := ⟨hk, nofun, nofun, fun _ => hends⟩
  obtain ⟨hnone, rfl⟩ | ⟨hdepth, hsemicolon, rfl⟩ | ⟨hdepth, hbrace, rfl⟩ | rfl := step_astray h
  · exact hregained hreached (.inl hnone)
  · exact hregained hreached (.inr ⟨hdepth, .inl hsemicolon⟩)
  · have hends : c.EndsRemnant := .inr ⟨hdepth, .inr hbrace⟩
    exact hregained hreached hends.pastSemicolon
  · exact ⟨hreached, nofun, nofun, nofun⟩

/-- A step keeps track of the braces that are open. The step lemma of a run, by the stage of the
point: a start uses `Encloses.of_starts`, a task `BraceStep.encloses`. -/
theorem Tracked.step (hx : Tracked s x) (h : x.step = some y) : Tracked s y := by
  have hreached : (Cursor.start s).Reaches y.place := by
    rcases step_place h with hplace | hplace
    · exact hplace ▸ hx.reached
    · exact hplace ▸ hx.reached.next
  obtain ⟨c, stage⟩ := x
  cases stage with
  | between =>
      obtain ⟨hcurrent, rfl⟩ := step_between h
      refine tracked_point hreached ?_
      intro ts k hstatement
      obtain ⟨rfl, hstarts⟩ := Task.starts_ofStatement hstatement
      rw [List.append_nil]
      exact .of_starts hx.reached (hx.between rfl hcurrent) hstarts
  -- With nothing left to do the statement is over at depth zero; else the first task is done.
  | within agenda =>
      have hopen := hx.within agenda rfl
      cases agenda with
      | nil =>
          cases h
          exact tracked_next hx.reached fun _ => hopen.depth_eq
      | cons t rest =>
          cases h
          refine tracked_point hreached ?_
          intro ts k hperform
          have hbrace := (Task.perform_brace hperform).append (openers rest)
          rw [← openers_append, ← openers_append] at hbrace
          exact hbrace.encloses hx.reached hopen
  | astray d => exact tracked_astray h hreached
  | regained =>
      cases h
      exact tracked_next hx.reached fun hcurrent => ((hx.regained rfl).resolve_left hcurrent).1

/-- The braces are kept track of throughout a run. The run lemma: by induction along `Visits`, from
the start by `Tracked.step`. -/
theorem Visits.tracked (h : Visits s x) : Tracked s x := by
  induction h with
  | refl =>
      refine ⟨.here, ?_, nofun, nofun⟩
      intro _ _
      have hposition : (Cursor.start s).positionIn s = 0 := Nat.sub_self _
      rw [hposition]
      rfl
  | tail _ hstep ih => exact ih.step hstep

end Point

/-- The depth of a place counts the braces that are open there, and recovery rests on it. The
invariant is `Tracked`, kept by every step, and recovery goes by `Cursor.recover_first`.

A run reads a token stream in the rounds of its survey, and goes past one token at a time. At every
point of it the depth is what the tokens up to there come to, a statement is started where in front
of it that is nothing, and inside of a statement it is the number of the blocks and hash literals
that are being read: their opening braces are those that are not closed so far. Behind a statement
none are left.

From any place, a malformed statement is given up to the first place outside all braces at a
semicolon or a closing brace, or at the end of the text, with the semicolon behind such a brace. -/
theorem depth_counts_open_braces :
    (∀ s : TokenStream,
      let survey := Survey.ofCursor (.start s)
      (∀ e ∈ survey.entries, ∀ x ∈ e.points, Point.Visits s x) ∧
      (Point.Visits s ⟨survey.stop, .between⟩ ∧ Point.step ⟨survey.stop, .between⟩ = none) ∧
      (∀ x y, Point.Visits s x → x.step = some y →
        y.place = x.place ∨ y.place = x.place.next) ∧
      (∀ x, Point.Visits s x → (Cursor.start s).Reaches x.place ∧
        x.place.depth = s.openBraces (x.place.positionIn s + 1)) ∧
      (∀ c, Point.Visits s ⟨c, .between⟩ → c.current ≠ none →
        s.openBraces (c.positionIn s) = 0) ∧
      (∀ c agenda, Point.Visits s ⟨c, .within agenda⟩ → c.depth = (openers agenda).length ∧
        (openers agenda).Nodup ∧ ∀ o, o ∈ openers agenda ↔ c.Unclosed s o) ∧
      ∀ statement c k, .wellFormed statement c k ∈ survey.entries → k.depth = 0) ∧
    ∀ c : Cursor, c.recover.EndsRemnant ∧
      ∃ stop, c.Reaches stop ∧ stop.EndsRemnant ∧
        (∀ k, c.Reaches k → k.Reaches stop → k ≠ stop → ¬k.EndsRemnant) ∧
        c.recover =
          if stop.current = some (.symbol .rightBrace) then stop.pastSemicolon else stop := by
  refine ⟨fun s => ?_, fun c => ⟨c.recover_endsRemnant, c.recover_first⟩⟩
  intro survey
  obtain ⟨hpoints, hstop⟩ := Survey.visits_ofCursor s
  refine ⟨hpoints, hstop, fun x y _ hstep => Point.step_place hstep, ?_, ?_, ?_, ?_⟩
  · intro x hx
    exact ⟨hx.tracked.reached, hx.tracked.reached.depth_eq⟩
  · intro c hc
    exact hc.tracked.between rfl
  · intro c agenda hc
    have hopen := hc.tracked.within agenda rfl
    exact ⟨hopen.depth_eq, hopen.nodup, hopen.mem_iff⟩
  · intro statement c k he
    -- A well-formed statement ends with an empty agenda, which holds no opener.
    have hend : Point.Visits s ⟨k, .within []⟩ := hpoints _ he _ (by simp [Entry.points])
    exact (hend.tracked.within [] rfl).depth_eq

/-- The point that a run comes to in `n` steps. -/
def Point.after : Nat → Point → Option Point
  | 0, x => some x
  | n + 1, x => x.step.bind (after n)

/-- What `after` comes to in `n` steps is a point of the run. It lets a run over given tokens be
computed instead of derived step by step. -/
theorem Point.leads_of_after {n : Nat} {x y : Point} (h : x.after n = some y) : x.Leads y := by
  induction n generalizing x with
  | zero =>
      cases h
      exact .refl
  | succ n ih =>
      obtain ⟨z, hstep, hz⟩ := Option.bind_eq_some_iff.1 h
      exact .head hstep (ih hz)

/-- In `} fn() { { a: b } } ) } ; a` the first closing brace is one too many, as is the one behind
the parenthesis. At `a` both the block and the hash literal are open, at the parenthesis neither. -/
theorem depth_counts_open_braces_of_stray_closers :
    let lexemes : List Lexeme := [.symbol .rightBrace, .keyword .fnKw, .symbol .leftParen,
      .symbol .rightParen, .symbol .leftBrace, .symbol .leftBrace, .identifier "a",
      .symbol .colon, .identifier "b", .symbol .rightBrace, .symbol .rightBrace,
      .symbol .rightParen, .symbol .rightBrace, .symbol .semicolon, .identifier "a"]
    let s : TokenStream := ⟨lexemes.map fun t => ⟨t, 1⟩, 1⟩
    let place (n : Nat) : Cursor := Cursor.next^[n] (.start s)
    (∃ agenda, Point.Visits s ⟨place 6, .within agenda⟩ ∧ openers agenda = [place 5, place 4] ∧
      (place 6).depth = 2 ∧ ∀ o, o ∈ openers agenda ↔ (place 6).Unclosed s o) ∧
    (∃ statement c k, .wellFormed statement c k ∈ (Survey.ofCursor (.start s)).entries ∧
      k.depth = 0) ∧
    (Point.Visits s ⟨place 11, .between⟩ ∧ s.openBraces 11 = 0) ∧
    (place 11).recover = place 13 ∧ (place 13).EndsRemnant := by
  intro lexemes s place
  obtain ⟨hrun, hrecover⟩ := depth_counts_open_braces
  obtain ⟨-, -, -, -, hbetween, hwithin, hend⟩ := hrun s
  have hinside : Point.after 10 ⟨.start s, .between⟩ = some ⟨place 6, .within
      [.continuations .lowest, .symbol .colon rfl, .expression .lowest, .morePairs (place 5),
        .continuations .lowest, .semicolon, .statements (place 4), .continuations .lowest,
        .semicolon]⟩ := rfl
  have hoperand := Point.leads_of_after hinside
  obtain ⟨hdepth, -, hopen⟩ := hwithin _ _ hoperand
  have hbehind : Point.after 21 ⟨.start s, .between⟩ = some ⟨place 11, .between⟩ := rfl
  have hparen := Point.leads_of_after hbehind
  -- The parenthesis ends nothing, and the stray brace behind it does, with its semicolon.
  have hnotEnd : ¬(place 11).EndsRemnant := by
    unfold Cursor.EndsRemnant
    decide
  have hbrace : (place 12).EndsRemnant := .inr ⟨rfl, .inr rfl⟩
  have hrecovered : (place 11).recover = place 13 :=
    (Cursor.recover_of_not_endsRemnant hnotEnd).2.trans hbrace.recover_eq
  have hstatement :
      ((Survey.ofCursor (.start s)).entries.any fun e => e.statement?.isSome) = true := by
    decide +kernel
  obtain ⟨e, hmem, hsome⟩ := List.any_eq_true.1 hstatement
  cases e with
  | malformed d c k => cases hsome
  | wellFormed statement c k =>
      exact ⟨⟨_, hoperand, rfl, hdepth, hopen⟩, ⟨statement, c, k, hmem, hend _ _ _ hmem⟩,
        ⟨hparen, hbetween _ hparen (by decide)⟩, hrecovered, hrecovered ▸ (hrecover _).1⟩

end Monkey
