import Monkey.Proofs.Syntax.EarliestFault
import Monkey.Proofs.Syntax.Rounds

/-!
# `Monkey.Proofs.Syntax.SourceOrder`: diagnostics come in source order

A diagnostic tells what stands at the place where the parser looked, which
is the place where it gave up or the next one (`Statement.found_of_failed`).
That place lies between the start of its round and the start of the next
one. So diagnostics and statements come in the order of their tokens, and
the one place that two rounds share, where one has looked ahead to the
token on which the next one starts, is told of twice at most.

* `Entry.fault?` is the place that a diagnostic tells of;
  `Entry.IsRead.fault` says where it lies.
* `Rounds.pairwise` puts rounds in order, and `Rounds.count_fault_le`
  counts how often a token is told of.
* `Survey.diagnostics_in_order` is the result, with positions in the tokens
  of a text.
-/

set_option autoImplicit false

namespace Monkey

/-! ### Places that are looked at -/

namespace Cursor

/-- The place that a parser looks at. -/
def seen (c : Cursor) : Sight → Cursor
  | .here => c
  | .ahead => c.next

/-- What stands at the place that is looked at is what `look` finds there. -/
@[simp] theorem here_seen (c : Cursor) (sight : Sight) : (c.seen sight).here = c.look sight := by
  cases sight <;> rfl

/-- The place that is looked at is reached, being this one or the next, as the `Sight` says. -/
theorem reaches_seen (c : Cursor) (sight : Sight) : c.Reaches (c.seen sight) := by
  cases sight with
  | here => exact .here
  | ahead => exact .next .here

/-- From the next place the next one of what is reached from here is reached: `next` is monotone
along `Reaches`. -/
theorem Reaches.next_next {c k : Cursor} (h : c.Reaches k) : c.next.Reaches k.next := by
  induction h with
  | here => exact .here
  | next _ ih => exact ih.next

/-- A place that is looked at comes no later than the place `k.next` behind what is reached. It
bounds what a diagnostic tells of by where the next round starts. -/
theorem Reaches.seen_next {c k : Cursor} (h : c.Reaches k) (sight : Sight) :
    (c.seen sight).Reaches k.next := by
  cases sight with
  | here => exact h.next
  | ahead => exact h.next_next

/-- How many of the tokens of a stream stand in front of the place. -/
def positionIn (s : TokenStream) (c : Cursor) : Nat := s.tokens.length - c.remaining

/-- What stands at a place that is reached is found at its position among `s.found`, also at the end
of the text, whose position is behind all tokens. -/
theorem Reaches.getElem?_positionIn {s : TokenStream} {k : Cursor} (h : (start s).Reaches k) :
    s.found[k.positionIn s]? = some k.here := by
  obtain ⟨front, hfront⟩ := h.found_suffix
  rw [found_start] at hfront
  have hlength : front.length = k.positionIn s := by
    have hfound := congrArg List.length hfront
    simp only [List.length_append, length_found, length_lexemes, TokenStream.found, List.length_map,
      List.length_singleton] at hfound
    unfold positionIn
    omega
  rw [← hfront, ← hlength, List.getElem?_append_right (Nat.le_refl _), Nat.sub_self,
    ← List.head?_eq_getElem?, head?_found]

/-- Where a place with a token is reached from there is a token, by `Reaches.suffix`: moving on
never leaves the end of the text. -/
theorem Reaches.current_ne_none {c k : Cursor} (h : c.Reaches k) (hk : k.current ≠ none) :
    c.current ≠ none := by
  rw [current_eq_head?, ne_eq, List.head?_eq_none_iff] at hk ⊢
  intro hc
  have hsuffix := h.suffix
  rw [hc] at hsuffix
  exact hk (List.eq_nil_of_suffix_nil hsuffix)

/-- What is reached from a place has no smaller position, since it has no more left to read:
`positionIn` counts what has been read. -/
theorem Reaches.positionIn_le {c k : Cursor} (s : TokenStream) (h : c.Reaches k) :
    c.positionIn s ≤ k.positionIn s :=
  Nat.sub_le_sub_left h.remaining_le _

end Cursor

/-- A diagnostic tells of the place where its parser looked, as `Expectation.sight` has it.
An instance of `ClosedUnderParsing`, so it holds of every parser at once. -/
theorem closedUnderParsing_found : ClosedUnderParsing fun _ _ o =>
    ∀ d k, o = .failed d k → d.found = k.look d.expected.sight where
  parsed _ _ d k h := by cases h
  failed _ _ d k h := by
    cases h
    rfl
  onward h := h
  andThen h hf d k hfailed := by
    rcases Outcome.andThen_eq_failed.1 hfailed with hfirst | ⟨a, m, ha, hrest⟩
    · exact h d k hfirst
    · exact hf a m ha d k hrest

/-- A malformed statement's diagnostic tells of what stands at the place its parser saw. The
statement's case of `closedUnderParsing_found`. -/
theorem Statement.found_of_failed {c k : Cursor} {d : Diagnostic}
    (h : Statement.parse c = .failed d k) : d.found = (k.seen d.expected.sight).here := by
  rw [Cursor.here_seen]
  exact closedUnderParsing_found.statement c d k h

/-! ### Rounds in order -/

namespace Entry

/-- The place that the diagnostic tells of, if there is one. -/
def fault? : Entry → Option Cursor
  | wellFormed _ _ _ => none
  | malformed d _ k => some (k.seen d.expected.sight)

variable {e : Entry} {f : Cursor}

/-- The diagnostic of a round tells of a place `f` between its start and the place `e.resume` where
the next one starts. The second bound needs that recovery goes on behind the place where the parser
gave up. -/
theorem IsRead.fault (h : e.IsRead) (hf : e.fault? = some f) :
    e.start.Reaches f ∧ f.Reaches e.resume := by
  cases e with
  | wellFormed s c k => cases hf
  | malformed d c k =>
      cases hf
      have hreach := Statement.reaches_of_failed h
      exact ⟨hreach.trans (k.reaches_seen _), k.reaches_recover.seen_next _⟩

end Entry

namespace Rounds

variable {c stop : Cursor} {entries : List Entry}

/-- Every round starts on a token that is reached, and is read there. By induction on `Rounds`, with
`Reaches.trans` for the later ones. -/
theorem reads (h : Rounds c entries stop) :
    ∀ e ∈ entries, c.Reaches e.start ∧ e.start.current ≠ none ∧ e.IsRead := by
  induction h with
  | nil =>
      intro e he
      cases he
  | cons hstart h _ ih =>
      refine List.forall_mem_cons.2 ⟨⟨.here, hstart, h⟩, fun e' he' => ?_⟩
      obtain ⟨hreach, hcurrent, hread⟩ := ih e' he'
      exact ⟨h.reaches.trans hreach, hcurrent, hread⟩

/-- Of two rounds the second one starts no earlier than at `e.resume`, behind the first one. All
order statements below are made from this one by looking at the two entries alone. -/
theorem pairwise (h : Rounds c entries stop) :
    entries.Pairwise fun e e' => e.IsRead ∧ e'.IsRead ∧ e.resume.Reaches e'.start ∧
      e'.start.current ≠ none := by
  induction h with
  | nil => exact .nil
  | cons _ h hrest ih =>
      refine .cons (fun e' he' => ?_) ih
      obtain ⟨hreach, hcurrent, hread⟩ := hrest.reads e' he'
      exact ⟨h, hread, hreach, hcurrent⟩

end Rounds

/-! ### Positions -/

namespace Entry

variable (s : TokenStream)

/-- The position of the token that the diagnostic tells of, if there is one. -/
def faultPosition? (e : Entry) : Option Nat := e.fault?.map (Cursor.positionIn s)

/-- The positions of the tokens of the statement, if it is well-formed: from that of the first up to
that of the first one behind it. -/
def span? : Entry → Option (Nat × Nat)
  | wellFormed _ c k => some (c.positionIn s, k.next.positionIn s)
  | malformed _ _ _ => none

variable {s} {e : Entry} {i : Nat} {a : Nat × Nat}

/-- A diagnostic tells of a token between the start of its round and the start of the next one:
`IsRead.fault` in positions. -/
theorem IsRead.faultPosition (h : e.IsRead) (hi : e.faultPosition? s = some i) :
    e.start.positionIn s ≤ i ∧ i ≤ e.resume.positionIn s := by
  obtain ⟨f, hf, rfl⟩ := Option.map_eq_some_iff.1 hi
  obtain ⟨hstart, hresume⟩ := h.fault hf
  exact ⟨hstart.positionIn_le s, hresume.positionIn_le s⟩

/-- A statement takes up the tokens of its round, from `start` up to `resume`; a malformed one has
no `span?`. -/
theorem span_of_some (ha : e.span? s = some a) :
    a = (e.start.positionIn s, e.resume.positionIn s) := by
  cases e with
  | wellFormed stmt c k =>
      cases ha
      rfl
  | malformed d c k => cases ha

end Entry

namespace Rounds

variable {s : TokenStream} {c stop : Cursor} {entries : List Entry}

/-- No diagnostic tells of a token in front of the first round, that is, before `c.positionIn s`,
since each tells of one in its own round or of the one behind. -/
theorem le_of_mem_faults (h : Rounds c entries stop) :
    ∀ i ∈ entries.filterMap (Entry.faultPosition? s), c.positionIn s ≤ i := by
  intro i hi
  obtain ⟨e, he, hfault⟩ := List.mem_filterMap.1 hi
  obtain ⟨hreach, -, hread⟩ := h.reads e he
  exact Nat.le_trans (hreach.positionIn_le s) (hread.faultPosition hfault).1

/-- A token is told of twice at most, and the token on which the first round starts once. By
induction on the rounds: one round tells of one token, and a token that two rounds share is the
first of the second. -/
theorem count_fault_le (h : Rounds c entries stop) (hc : c.remaining ≤ s.tokens.length) :
    (∀ i, (entries.filterMap (Entry.faultPosition? s)).count i ≤ 2) ∧
      (entries.filterMap (Entry.faultPosition? s)).count (c.positionIn s) ≤ 1 := by
  induction h with
  | nil =>
      constructor
      · intro i
        exact Nat.zero_le 2
      · exact Nat.zero_le 1
  | @cons e entries stop hstart h hrest ih =>
      have hlt := h.remaining_resume_lt hstart
      obtain ⟨htwice, honce⟩ := ih (by omega)
      -- Later rounds tell of nothing in front of the place where they start.
      have hzero (i : Nat) (hi : i < e.resume.positionIn s) :
          (entries.filterMap (Entry.faultPosition? s)).count i = 0 := by
        refine List.count_eq_zero_of_not_mem fun hmem => ?_
        have hle := hrest.le_of_mem_faults i hmem
        omega
      have hmoved : e.start.positionIn s < e.resume.positionIn s := by
        unfold Cursor.positionIn
        omega
      -- A round without a diagnostic changes no count; one with a diagnostic adds one token, in
      -- front of the next round or its first.
      cases hfault : e.faultPosition? s with
      | none =>
          rw [List.filterMap_cons_none hfault, hzero _ hmoved]
          exact ⟨htwice, Nat.zero_le 1⟩
      | some f =>
          obtain ⟨-, hf⟩ := h.faultPosition hfault
          rw [List.filterMap_cons_some hfault]
          constructor
          · intro i
            have hi := htwice i
            by_cases heq : f = i
            · subst heq
              rw [List.count_cons_self]
              rcases Nat.lt_or_eq_of_le hf with hlt | heq
              · rw [hzero f hlt]
                omega
              · rw [heq]
                omega
            · rw [List.count_cons_of_ne heq]
              exact hi
          · have hstarts := hzero _ hmoved
            rw [List.count_cons, hstarts]
            split <;> omega

/-- The diagnostics tell of the tokens in their order, by `pairwise` and the bounds of
`IsRead.faultPosition`: the earlier one of a token no later than where the later round starts. -/
theorem pairwise_faults (h : Rounds c entries stop) :
    (entries.filterMap (Entry.faultPosition? s)).Pairwise (· ≤ ·) := by
  refine List.pairwise_filterMap.2 (h.pairwise.imp fun h i hi j hj => ?_)
  obtain ⟨hread, hread', hreach, -⟩ := h
  calc
    i ≤ _ := (hread.faultPosition hi).2
    _ ≤ _ := hreach.positionIn_le s
    _ ≤ j := (hread'.faultPosition hj).1

/-- The statements take up tokens apart from each other, in their order, since the next round starts
behind the statement, which `pairwise` says of any two rounds. -/
theorem pairwise_spans (h : Rounds c entries stop) :
    (entries.filterMap (Entry.span? s)).Pairwise fun a b => a.2 ≤ b.1 := by
  refine List.pairwise_filterMap.2 (h.pairwise.imp fun h a ha b hb => ?_)
  obtain ⟨-, -, hreach, -⟩ := h
  rw [Entry.span_of_some ha, Entry.span_of_some hb]
  exact hreach.positionIn_le s

/-- A diagnostic tells of no token behind the first one of a later statement. It may be that first
token, on which the recovery stopped, so the order is `≤` here. -/
theorem pairwise_fault_span (h : Rounds c entries stop) :
    entries.Pairwise fun e e' => ∀ i a, e.faultPosition? s = some i → e'.span? s = some a →
      i ≤ a.1 := by
  refine h.pairwise.imp fun h i a hi ha => ?_
  obtain ⟨hread, -, hreach, -⟩ := h
  rw [Entry.span_of_some ha]
  exact Nat.le_trans (hread.faultPosition hi).2 (hreach.positionIn_le s)

/-- A statement takes up one token at least, and none behind the end of `s.tokens`: its round leaves
its first token behind. -/
theorem span_bounds (h : Rounds c entries stop) (hc : c.remaining ≤ s.tokens.length) :
    ∀ a ∈ entries.filterMap (Entry.span? s), a.1 < a.2 ∧ a.2 ≤ s.tokens.length := by
  intro a ha
  obtain ⟨e, he, hspan⟩ := List.mem_filterMap.1 ha
  obtain ⟨hreach, hcurrent, hread⟩ := h.reads e he
  have hlt := hread.remaining_resume_lt hcurrent
  have hle := hreach.remaining_le
  rw [Entry.span_of_some hspan]
  unfold Cursor.positionIn
  constructor
  · show s.tokens.length - e.start.remaining < s.tokens.length - e.resume.remaining
    omega
  · exact Nat.sub_le _ _

end Rounds

/-! ### Texts -/

namespace Rounds

variable {s : TokenStream} {c stop : Cursor} {entries : List Entry}

/-- What the diagnostics have found are the tokens at their positions, in order. By induction on the
rounds, with `Statement.found_of_failed` for each diagnostic. -/
theorem map_found (h : Rounds c entries stop) (hc : (Cursor.start s).Reaches c) :
    (entries.filterMap Entry.diagnostic?).map (fun d => some d.found) =
      (entries.filterMap (Entry.faultPosition? s)).map fun i => s.found[i]? := by
  induction h with
  | nil => rfl
  | @cons e entries stop _ h _ ih =>
      have hrest := ih (hc.trans h.reaches)
      cases e with
      | wellFormed stmt c k => exact hrest
      | malformed d c k =>
          obtain ⟨hfault, -⟩ := h.fault rfl
          have hfound := (hc.trans hfault).getElem?_positionIn
          show some d.found :: _ = s.found[(k.seen d.expected.sight).positionIn s]? :: _
          rw [hfound, Statement.found_of_failed h]
          exact congrArg (_ :: ·) hrest

/-- A diagnostic that is followed by another one has found a token, since the later round starts on
one, and `Reaches.current_ne_none` takes that back to the earlier place. -/
theorem pairwise_found (h : Rounds c entries stop) :
    (entries.filterMap Entry.diagnostic?).Pairwise fun d _ => d.found.lexeme ≠ none := by
  refine List.pairwise_filterMap.2 (h.pairwise.imp fun {e _} h d hd _ _ => ?_)
  obtain ⟨hread, -, hreach, hcurrent⟩ := h
  cases e with
  | wellFormed stmt c k => cases hd
  | malformed d c k =>
      cases hd
      obtain ⟨-, hresume⟩ := hread.fault rfl
      rw [Statement.found_of_failed hread]
      exact (hresume.trans hreach).current_ne_none hcurrent

/-- The diagnostic that has found the end of the text is the last: `pairwise_found` read at one of
them. -/
theorem eq_nil_of_found_end (h : Rounds c entries stop) {front back : List Diagnostic}
    {d : Diagnostic} (hsplit : entries.filterMap Entry.diagnostic? = front ++ d :: back)
    (hd : d.found.lexeme = none) : back = [] := by
  have hfound := h.pairwise_found
  rw [hsplit] at hfound
  cases back with
  | nil => rfl
  | cons d' back =>
      have hsome := (List.pairwise_cons.1 (List.pairwise_append.1 hfound).2.1).1 d'
        List.mem_cons_self
      exact absurd hd hsome

end Rounds

namespace Survey

/-- Every statement that is kept has its tokens: `span?` and `statement?` are there for the same
entries. -/
theorem length_spans (s : TokenStream) (survey : Survey) :
    (survey.entries.filterMap (Entry.span? s)).length = survey.statements.length := by
  show _ = (survey.entries.filterMap _).length
  rw [List.length_filterMap_eq_countP, List.length_filterMap_eq_countP]
  refine List.countP_congr fun e _ => ?_
  cases e <;> rfl

/-- Diagnostics come in source order. The parts are the lemmas on `Rounds` above, for the rounds of
the survey of a text.

Each diagnostic of a text tells of a token of the text, or of the end of the text, as it is found
there. The positions of these tokens do not decrease from one diagnostic to the next, no token is
told of more than twice, and only the last diagnostic tells of the end of the text. The statements
that are kept take up tokens apart from each other and in order, and a token that is told of by a
diagnostic in front of a statement is none of the statement's but its first. -/
theorem diagnostics_in_order (text : String) :
    let s := tokenize text
    let survey := ofText text
    let positions := survey.entries.filterMap (Entry.faultPosition? s)
    let spans := survey.entries.filterMap (Entry.span? s)
    survey.diagnostics.map (fun d => some d.found) = positions.map (fun i => s.found[i]?) ∧
    positions.Pairwise (· ≤ ·) ∧
    (∀ i, positions.count i ≤ 2) ∧
    (∀ front d back, survey.diagnostics = front ++ d :: back → d.found.lexeme = none →
      back = []) ∧
    spans.length = survey.statements.length ∧
    (∀ a ∈ spans, a.1 < a.2 ∧ a.2 ≤ s.tokens.length) ∧
    spans.Pairwise (fun a b => a.2 ≤ b.1) ∧
    survey.entries.Pairwise fun e e' => ∀ i a, e.faultPosition? s = some i →
      e'.span? s = some a → i ≤ a.1 := by
  intro s survey positions spans
  have hrounds : Rounds (Cursor.start s) survey.entries survey.stop :=
    rounds_ofCursor (Cursor.start s)
  have hstart : (Cursor.start s).remaining ≤ s.tokens.length := Nat.le_refl _
  exact ⟨hrounds.map_found .here, hrounds.pairwise_faults, (hrounds.count_fault_le hstart).1,
    fun _ _ _ hsplit hd => hrounds.eq_nil_of_found_end hsplit hd, length_spans s survey,
    hrounds.span_bounds hstart, hrounds.pairwise_spans, hrounds.pairwise_fault_span⟩

/-- A parenthesis is told of twice, behind a list that should have been closed and in front of the
expression that should have started there. What the end of the text stands for is told of last, as
`diagnostics_in_order` has it. -/
theorem diagnostics_in_order_of_shared_token :
    let text := "[\x7b\x7d ) ; let x = 1; let"
    let s := tokenize text
    (ofText text).entries.filterMap (Entry.faultPosition? s) = [3, 3, 11] ∧
      (ofText text).diagnostics.map (fun d => some d.found) =
        [some ⟨some (.symbol .rightParen), 1⟩, some ⟨some (.symbol .rightParen), 1⟩,
          some ⟨none, 1⟩] ∧
      ∀ front back, (ofText text).diagnostics = front ++ ⟨.identifier, ⟨none, 1⟩⟩ :: back →
        back = [] := by
  intro text s
  obtain ⟨hfound, -, -, hlast, -⟩ := diagnostics_in_order text
  have hpositions : (ofText text).entries.filterMap (Entry.faultPosition? s) = [3, 3, 11] := by
    subst text s
    decide +kernel
  have htokens : [3, 3, 11].map (fun i => s.found[i]?) =
      [some ⟨some (.symbol .rightParen), 1⟩, some ⟨some (.symbol .rightParen), 1⟩,
        some ⟨none, 1⟩] := by
    subst s text
    decide +kernel
  refine ⟨hpositions, ?_, fun front back hsplit => hlast front _ back hsplit rfl⟩
  rw [hfound, hpositions, htokens]

end Survey

end Monkey
