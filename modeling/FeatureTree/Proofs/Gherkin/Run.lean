import FeatureTree.Proofs.Gherkin.Growth
import FeatureTree.Proofs.Gherkin.ReadLine

/-!
# Runs of the reader

A run of lines leads the reader from one state to another whatever comes behind the lines
(`ParseState.Passes`), so that runs compose. One line takes it to the place that the grammar gives
for the kind of the line (`State.next?`), if that is the only way to read the line and the table
that is being read may end there; a tag line needs the title behind it as well, because the grammar
looks ahead.

## Main results

* `ParseState.passes_of_only`: the run of a line that can be read in one way
* `ParseState.passes_tags`: the run of a tag line and the title behind it
* `ParseState.passes_of_free`: the run of a line of free text
-/

namespace FeatureTree

namespace State

/-- The place that a line of a kind leads to, if the grammar tries that kind before free text.
`ahead` is the kind of the title behind a tag line. -/
def next? (place : State) (kind : TokenKind) (ahead : Option TokenKind := none) : Option State :=
  (place.entries.find? fun e =>
      e.kind = .other || e.kind = kind && e.ahead.all fun k => some k = ahead).bind fun e =>
    if e.kind = kind then some e.next else none

/-- The place that free text leads to. -/
def text? (place : State) : Option State :=
  (place.entries.find? (·.kind = .other)).map (·.next)

/-- The grammar looks ahead behind tag lines only, for titles. -/
theorem ahead_of_mem_entries {place : State} {e : Entry} (he : e ∈ place.entries) {k : TokenKind}
    (hk : e.ahead = some k) : e.kind = .tagLine ∧ k ∈ TokenKind.titles := by
  have hall : place.entries.all (fun e => e.ahead.all fun k =>
      e.kind = .tagLine && TokenKind.titles.contains k) = true := by
    cases place with
    | step scope owner given => cases owner <;> cases given <;> rfl
    | title scope owner | titleText scope owner => cases owner <;> rfl
    | _ => rfl
  have := List.all_eq_true.mp hall e he
  simpa [hk] using this

end State

namespace ParseState

variable {s : ParseState} {l : Line}

/-! ### The entry that is taken -/

/-- Trying the kind as which a line is read gives the token. -/
theorem tryKind_of_reads {kind : TokenKind} {token : Token}
    (h : s.reading.token? l kind = .ok (some token)) : s.tryKind l kind = (s, some token) := by
  rw [tryKind, h]

/-- Trying a kind as which a line is not read gives nothing. -/
theorem tryKind_of_refuses {kind : TokenKind} (h : s.reading.token? l kind = .ok none) :
    s.tryKind l kind = (s, none) := by
  rw [tryKind, h]

/-- Looking ahead to a title finds its kind and no other. -/
theorem looksAhead_of_only {kind : TokenKind} {token : Token} (h : s.reading.Only l kind token)
    (hkind : kind ∈ TokenKind.titles) {k : TokenKind} (hk : k ∈ TokenKind.titles)
    (rest : List Line) : s.looksAhead k (l :: rest) = (s, decide (k = kind)) := by
  have hrefuse : ∀ k', k' ≠ kind → k' ≠ .other → s.tryKind l k' = (s, none) :=
    fun k' hne ho => tryKind_of_refuses (h.refuses k' hne ho)
  have hother : ∀ k' ∈ TokenKind.titles, k' ≠ .other := by decide
  have hrest : ∀ k' ∈ [TokenKind.empty, .comment, .tagLine],
      s.tryKind l k' = (s, none) := by
    intro k' hk'
    refine hrefuse k' ?_ ?_
    · rintro rfl
      revert hkind hk'
      cases k' <;> decide
    · rintro rfl
      revert hk'
      decide
  by_cases hkk : k = kind
  · subst hkk
    rw [looksAhead, tryKind_of_reads h.reads, decide_eq_true rfl]
  · rw [looksAhead, hrefuse k hkk (hother k hk), decide_eq_false hkk]
    simp only [tryKinds, hrest .empty (by simp), hrest .comment (by simp),
      hrest .tagLine (by simp)]

/-- The first entry that fits a line is taken, where the line can be read in one way. -/
theorem choose_of_only {kind : TokenKind} {token : Token} (h : s.reading.Only l kind token)
    {rest : List Line} {ahead : TokenKind → Bool} {es : List Entry}
    (hahead : ∀ e ∈ es, e.kind = kind → ∀ k, e.ahead = some k →
      s.looksAhead k rest = (s, ahead k))
    {e : Entry} (hkind : e.kind = kind)
    (hfind : es.find? (fun e => e.kind = .other || e.kind = kind && e.ahead.all ahead) = some e)
    (hother : kind ≠ .other) : s.choose l rest es = (s, some (e, token)) := by
  induction es with
  | nil => cases hfind
  | cons e' es ih =>
    have hrest := fun e he => hahead e (List.mem_cons_of_mem _ he)
    rw [List.find?_cons] at hfind
    rw [choose]
    by_cases hk : e'.kind = kind
    · have hno : decide (kind = .other) = false := decide_eq_false hother
      rw [hk, tryKind_of_reads h.reads]
      cases ha : e'.ahead with
      | none =>
        simp only [hno, hk, ha, decide_true, Option.all_none, Bool.and_self, Bool.or_true] at hfind
        cases hfind
        rfl
      | some k =>
        have hlook := hahead e' (by simp) hk k ha
        cases hak : ahead k with
        | true =>
          simp only [hno, hk, ha, hak, decide_true, Option.all_some, Bool.and_self,
            Bool.or_true] at hfind
          cases hfind
          simp only [hlook, hak]
        | false =>
          simp only [hno, hk, ha, hak, Option.all_some, Bool.and_false, Bool.or_self] at hfind
          simp only [hlook, hak]
          exact ih hrest hfind
    · by_cases ho : e'.kind = .other
      · simp only [ho, decide_true, Bool.true_or, Option.some.injEq] at hfind
        subst hfind
        exact absurd hkind hk
      · rw [tryKind_of_refuses (h.refuses _ hk ho)]
        simp only [hk, ho, decide_false, Bool.false_and, Bool.or_self] at hfind
        exact ih hrest hfind

/-! ### Advancing by one line -/

/-- The reader at another place with another document. -/
def moved (s : ParseState) (place : State) (document : Ast.Document) : ParseState :=
  { s with place, document }

/-- Whether the table that is being read, if any, may end here. -/
def Settled (s : ParseState) : Prop := ∀ next, s.leave next = s

/-- Outside of tables no place is kept from being left. -/
theorem settled_of_not_inTable (h : s.place.inTable = false) : s.Settled := fun next => by
  rw [leave, h, Bool.false_and, if_neg (by simp)]

/-- A table without ragged rows may end. -/
theorem settled_of_openRows (h : Ast.firstRagged? (s.document.openRows s.place) = none) :
    s.Settled := fun next => by
  rw [leave, h]
  split <;> rfl

/-- Nothing is left where the place stays. -/
theorem leave_self : s.leave s.place = s := by
  rw [leave, bne_self_eq_false, Bool.and_false, if_neg (by simp)]

/-- The reader after a line was read as a token that leads to a place. -/
def goes (s : ParseState) (l : Line) (place : State) (token : Token) : ParseState :=
  let reading := s.reading.after l token
  { s with
    place
    reading
    document := s.document.take reading.dialect.name l s.place place token }

/-- A token that neither names a language nor delimits a doc string leaves the reading as it is. -/
theorem goes_eq_moved {place : State} {token : Token} (h : s.reading.after l token = s.reading) :
    s.goes l place token = s.moved place
      (s.document.take s.reading.dialect.name l s.place place token) := by
  simp only [goes, h]
  rfl

/-- A step goes on with the entry that is chosen. -/
theorem advance_eq {rest : List Line} {e : Entry} {token : Token}
    (hchoose : s.choose l rest s.place.entries = (s, some (e, token)))
    (hleave : s.leave e.next = s) : s.advance l rest = s.goes l e.next token := by
  simp only [advance, hchoose, hleave]
  rfl

/-- The place that follows is that of an entry. -/
theorem exists_entry_of_next? {place place' : State} {kind : TokenKind}
    {ahead : Option TokenKind} (h : place.next? kind ahead = some place') :
    ∃ e, place.entries.find? (fun e => e.kind = .other || e.kind = kind
      && e.ahead.all fun k => some k = ahead) = some e ∧ e.kind = kind ∧ e.next = place' := by
  rw [State.next?, Option.bind_eq_some_iff] at h
  obtain ⟨e, hfind, he⟩ := h
  split at he
  · next hkind => exact ⟨e, hfind, hkind, by simpa using he⟩
  · cases he

/-- A line that can be read in one way leads to the place of its kind. -/
theorem advance_of_only {kind : TokenKind} {token : Token} (h : s.reading.Only l kind token)
    (hkind : kind ≠ .other) {place : State} {ahead : Option TokenKind}
    (hnext : s.place.next? kind ahead = some place) {rest : List Line}
    (hahead : kind = .tagLine → ∀ k ∈ TokenKind.titles,
      s.looksAhead k rest = (s, decide (some k = ahead)))
    (hleave : s.leave place = s) : s.advance l rest = s.goes l place token := by
  obtain ⟨e, hfind, hk, rfl⟩ := exists_entry_of_next? hnext
  refine advance_eq (choose_of_only h ?_ hk hfind hkind) hleave
  intro e' he' hk' k hak
  obtain ⟨htag, hmem⟩ := State.ahead_of_mem_entries he' hak
  exact hahead (hk'.symm.trans htag) k hmem

/-- A line that nothing else is read from is free text. -/
theorem choose_of_free {token : Token} (h : s.reading.token? l .other = .ok (some token))
    {rest : List Line} {es : List Entry}
    (hfree : ∀ e ∈ es, e.kind ≠ .other → s.reading.token? l e.kind = .ok none)
    (hahead : ∀ e ∈ es, e.kind = .other → e.ahead = none) {e : Entry}
    (hfind : es.find? (·.kind = .other) = some e) :
    s.choose l rest es = (s, some (e, token)) := by
  induction es with
  | nil => cases hfind
  | cons e' es ih =>
    rw [List.find?_cons] at hfind
    rw [choose]
    by_cases ho : e'.kind = .other
    · simp only [ho, decide_true, Option.some.injEq] at hfind
      subst hfind
      rw [ho, tryKind_of_reads h, hahead e' (by simp) ho]
    · rw [tryKind_of_refuses (hfree e' (by simp) ho)]
      simp only [ho, decide_false] at hfind
      exact ih (fun e he => hfree e (List.mem_cons_of_mem _ he))
        (fun e he => hahead e (List.mem_cons_of_mem _ he)) hfind

/-- A line that is refused as everything else is free text. -/
theorem advance_of_free {token : Token} (h : s.reading.token? l .other = .ok (some token))
    (hfree : ∀ e ∈ s.place.entries, e.kind ≠ .other → s.reading.token? l e.kind = .ok none)
    {place : State} (hnext : s.place.text? = some place) (hleave : s.leave place = s)
    (rest : List Line) : s.advance l rest = s.goes l place token := by
  rw [State.text?, Option.map_eq_some_iff] at hnext
  obtain ⟨e, hfind, rfl⟩ := hnext
  refine advance_eq (choose_of_free h hfree (fun e' he' ho => ?_) hfind) hleave
  rcases ha : e'.ahead with _ | k
  · rfl
  · have := (State.ahead_of_mem_entries he' ha).1
    rw [ho] at this
    cases this

/-! ### Runs -/

/-- Whether a run of lines leads from one state to another, whatever comes behind the lines. -/
def Passes (s : ParseState) (ls : List Line) (s' : ParseState) : Prop :=
  ∀ rest, s.run (ls ++ rest) = s'.run rest

namespace Passes

variable {s' s'' : ParseState} {ls ls' : List Line}

/-- No lines lead nowhere else. -/
theorem nil (s : ParseState) : s.Passes [] s := fun _ => rfl

/-- Lines behind lines lead on from where those lead. -/
theorem append (h : s.Passes ls s') (h' : s'.Passes ls' s'') : s.Passes (ls ++ ls') s'' :=
  fun rest => by rw [List.append_assoc, h, h']

/-- One line leads where its step leads. -/
theorem single (h : ∀ rest, s.advance l rest = s') : s.Passes [l] s' := fun rest => by
  rw [List.singleton_append, run_cons, h]

/-- A line in front of others leads to where those lead on from. -/
theorem cons (h : ∀ rest, s.advance l rest = s') (h' : s'.Passes ls s'') :
    s.Passes (l :: ls) s'' := fun rest => by
  rw [List.cons_append, run_cons, h, h']

/-- A run over lines ends where they lead. -/
theorem run_eq (h : s.Passes ls s') : s.run ls = s' := by
  have := h []
  rwa [List.append_nil] at this

end Passes

/-- The run of a line that can be read in one way. -/
theorem passes_of_only {kind : TokenKind} {token : Token} (h : s.reading.Only l kind token)
    (hkind : kind ≠ .other) (htag : kind ≠ .tagLine) {place : State}
    (hnext : s.place.next? kind = some place) (hleave : s.leave place = s) :
    s.Passes [l] (s.goes l place token) :=
  .single fun _ => advance_of_only h hkind hnext (fun he => absurd he htag) hleave

/-- The run of a line of free text. -/
theorem passes_of_free {token : Token} (h : s.reading.token? l .other = .ok (some token))
    (hfree : ∀ e ∈ s.place.entries, e.kind ≠ .other → s.reading.token? l e.kind = .ok none)
    {place : State} (hnext : s.place.text? = some place) (hleave : s.leave place = s) :
    s.Passes [l] (s.goes l place token) :=
  .single (advance_of_free h hfree hnext hleave)

/-- The run of the line that closes a doc string. -/
theorem passes_of_first {token : Token} {e : Entry} {es : List Entry}
    (hentries : s.place.entries = e :: es) (hahead : e.ahead = none)
    (h : s.reading.token? l e.kind = .ok (some token)) (hleave : s.leave e.next = s) :
    s.Passes [l] (s.goes l e.next token) := by
  refine .single fun rest => advance_eq ?_ hleave
  rw [hentries, choose, tryKind_of_reads h, hahead]

end ParseState

end FeatureTree
