import FeatureTree.Proofs.Plain.Law

/-!
# What is read is lawful

A reader that has noted no fault holds a document that obeys the law of its dialect, whose tables
are rectangular except for the one that is being read, and a doc string is open exactly at the
places inside one (`ParseState.Sound`). Every line that is taken keeps that, so it holds of every
document that is read, where no table is being read any more.

## Main results

* `ParseState.Sound.goes`: a line that is taken keeps the reader sound
* `Ast.Document.sound_of_parse`: a document that is read obeys the law of its dialect, and its
  tables are rectangular
* `Ast.Document.language_of_parse`: a text that begins with no language line is in the dialect that
  it is read in
-/

namespace FeatureTree

open Ast (Document)

/-! ### Entries -/

namespace State

/-- All places. -/
def all : List State :=
  let scopes := [Scope.feature, .rule]
  let owners := [Owner.background, .scenario]
  let arguments := [Argument.bare, .table, .openTextAfterTable, .textAfterTable, .openText, .text,
    .tableAfterText]
  [start, languageGiven, featureTags, ruleTags, done]
    ++ scopes.flatMap fun scope =>
      [heading scope, headingText scope, scenarioTags scope, examplesTags scope, examples scope,
        examplesText scope, examplesTable scope]
      ++ owners.flatMap fun owner =>
        [title scope owner, titleText scope owner] ++ arguments.map (step scope owner)

/-- Every place is in the list of all places. -/
theorem mem_all (place : State) : place ∈ all := by
  cases place with
  | step scope owner given => cases scope <;> cases owner <;> cases given <;> decide
  | title scope owner | titleText scope owner => cases scope <;> cases owner <;> decide
  | heading scope | headingText scope | scenarioTags scope | examplesTags scope | examples scope
  | examplesText scope | examplesTable scope => cases scope <;> decide
  | _ => decide

/-- Whether a place is inside a doc string. -/
def inText : State → Bool
  | .step _ _ given => !given.isClosed
  | _ => false

/-- Whether rows that are read at two places belong to one table. -/
def sharesTable : State → State → Bool
  | .step scope owner _, .step scope' owner' _ => scope = scope' && owner = owner'
  | .examples scope, .examplesTable scope' | .examplesText scope, .examplesTable scope'
  | .examplesTable scope, .examplesTable scope' => scope = scope'
  | _, _ => false

variable {place : State} {e : Entry}

/-- What is known of every entry of every place, from going through them all. -/
theorem forall_entries : ∀ place ∈ all, ∀ e ∈ place.entries,
    (e.kind = .language → place = .start)
      ∧ (e.next = .start → place = .start ∧ (e.kind = .comment ∨ e.kind = .empty))
      ∧ e.next.inText = (place.inText != decide (e.kind = .docStringSeparator))
      ∧ (place.inTable = true → e.next = place →
        e.kind = .tableRow ∨ e.kind = .comment ∨ e.kind = .empty)
      ∧ (e.kind = .tableRow → place.sharesTable e.next = true ∧ e.next.inTable = true) := by
  decide +kernel

/-- A language is said at the start only. -/
theorem place_of_language (he : e ∈ place.entries) (h : e.kind = .language) : place = .start :=
  (forall_entries place place.mem_all e he).1 h

/-- Only comments and empty lines lead back to the start. -/
theorem kind_of_next_start (he : e ∈ place.entries) (h : e.next = .start) :
    place = .start ∧ (e.kind = .comment ∨ e.kind = .empty) :=
  (forall_entries place place.mem_all e he).2.1 h

/-- Delimiters of doc strings lead into a doc string and out of it, other lines do not. -/
theorem inText_next (he : e ∈ place.entries) :
    e.next.inText = (place.inText != decide (e.kind = .docStringSeparator)) :=
  (forall_entries place place.mem_all e he).2.2.1

/-- A table goes on with rows, comments and blank lines. -/
theorem kind_of_next_self (he : e ∈ place.entries) (hin : place.inTable = true)
    (h : e.next = place) : e.kind = .tableRow ∨ e.kind = .comment ∨ e.kind = .empty :=
  (forall_entries place place.mem_all e he).2.2.2.1 hin h

/-- A row leads to the place where its table is read. -/
theorem next_of_tableRow (he : e ∈ place.entries) (h : e.kind = .tableRow) :
    place.sharesTable e.next = true ∧ e.next.inTable = true :=
  (forall_entries place place.mem_all e he).2.2.2.2 h

/-- There is no free text in the table of examples. -/
theorem ne_examplesTable_of_other (he : e ∈ place.entries) (h : e.kind = .other) (scope : Scope) :
    place ≠ .examplesTable scope := by
  have key : ∀ scope ∈ [Scope.feature, .rule], ∀ e ∈ (examplesTable scope).entries,
      e.kind ≠ .other := by
    decide
  rintro rfl
  exact key scope (by cases scope <;> decide) e he h

/-- Places that share a table have their rows in the same place. -/
theorem onRows_of_sharesTable {place' : State} (h : place.sharesTable place' = true) (d : Document)
    (f : List Ast.Row → List Ast.Row) : d.onRows place' f = d.onRows place f := by
  cases place <;> cases place' <;> simp only [sharesTable, Bool.and_eq_true, decide_eq_true_eq,
    Bool.false_eq_true] at h
  case step.step =>
    obtain ⟨rfl, rfl⟩ := h
    rfl
  all_goals
    subst h
    rfl

end State

/-! ### What a token leaves alone -/

namespace Token

/-- The comment of a comment line. -/
def comments (l : Line) : Token → List Ast.Comment
  | .comment text => [⟨⟨l.number, 1⟩, text⟩]
  | _ => []

/-- The comments that a line adds are the line, if it is a comment. -/
theorem mem_comments_iff {l : Line} {token : Token} {c : Ast.Comment} :
    c ∈ token.comments l ↔ token = .comment c.text ∧ c.loc = ⟨l.number, 1⟩ := by
  obtain ⟨loc, text⟩ := c
  cases token <;> simp [comments, and_comm, eq_comm]

end Token

namespace Ast.Document

variable (d : Document)

/-- A document keeps its language if its feature does. -/
theorem language_onFeature {f : Feature → Feature} (h : ∀ t, (f t).language = t.language) :
    (d.onFeature f).feature.map (·.language) = d.feature.map (·.language) := by
  simp [onFeature, Function.comp_def, h]

/-- Changing a body leaves the language alone. -/
theorem language_onBody (scope : Scope) (f : Body → Body) :
    (d.onBody scope f).feature.map (·.language) = d.feature.map (·.language) :=
  d.language_onFeature fun t => by cases scope <;> rfl

/-- Changing a heading leaves the language alone. -/
theorem language_onHeading (scope : Scope) (f : Heading → Heading) :
    (d.onHeading scope f).feature.map (·.language) = d.feature.map (·.language) :=
  d.language_onFeature fun t => by cases scope <;> rfl

/-- Only the title of a feature gives it a language. -/
theorem language_take (language : Text) (l : Line) (here next : State) (token : Token) :
    (d.take language l here next token).feature.map (·.language)
      = if token.kind = .featureLine then some language else d.feature.map (·.language) := by
  cases token with
  | other text =>
    cases here <;> first
      | rfl
      | exact d.language_onHeading _ _
      | exact d.language_onBody _ _
  | tableRow cells => cases here <;> first | rfl | exact d.language_onBody _ _
  | docStringSeparator mark mediaType =>
    cases here with
    | step scope owner given => cases given <;> first | rfl | exact d.language_onBody _ _
    | _ => rfl
  | ruleLine title => exact d.withoutTags.language_onFeature fun t => rfl
  | backgroundLine title | stepLine keyword role text =>
    cases next <;> first | rfl | exact d.language_onBody _ _
  | scenarioLine title | examplesLine title =>
    cases next <;> first | rfl | exact d.withoutTags.language_onBody _ _
  | _ => rfl

/-- Only a comment line adds a comment. -/
theorem comments_take (language : Text) (l : Line) (here next : State) (token : Token) :
    (d.take language l here next token).comments = d.comments ++ token.comments l := by
  cases token with
  | comment text => rfl
  | other text => cases here <;> exact (List.append_nil _).symm
  | tableRow cells => cases here <;> exact (List.append_nil _).symm
  | docStringSeparator mark mediaType =>
    cases here with
    | step scope owner given => cases given <;> exact (List.append_nil _).symm
    | _ => exact (List.append_nil _).symm
  | backgroundLine title | stepLine keyword role text | scenarioLine title | examplesLine title =>
    cases next <;> exact (List.append_nil _).symm
  | _ => exact (List.append_nil _).symm

/-- The tags that wait for their title are those that waited before and those of a tag line. -/
theorem tags_take (language : Text) (l : Line) (here next : State) (token : Token) {t : Tag}
    (h : t ∈ (d.take language l here next token).tags) :
    t ∈ d.tags ∨ ∃ tags, token = .tagLine tags ∧ ∃ p ∈ tags, t = ⟨⟨l.number, p.1⟩, p.2⟩ := by
  cases token with
  | tagLine tags =>
    rcases List.mem_append.mp h with h | h
    · exact .inl h
    · obtain ⟨p, hp, rfl⟩ := List.mem_map.mp h
      exact .inr ⟨tags, rfl, p, hp, rfl⟩
  | other text => cases here <;> exact .inl h
  | tableRow cells => cases here <;> exact .inl h
  | docStringSeparator mark mediaType =>
    cases here with
    | step scope owner given => cases given <;> exact .inl h
    | _ => exact .inl h
  | featureLine title | ruleLine title => cases h
  | backgroundLine title | stepLine keyword role text => cases next <;> exact .inl h
  | scenarioLine title | examplesLine title =>
    cases next <;> first | exact .inl h | cases h
  | _ => exact .inl h

end Ast.Document

/-! ### The reader -/

/-- Only a language line changes the dialect. -/
theorem Reading.dialect_after (r : Reading) (l : Line) {token : Token}
    (h : token.kind ≠ .language) : (r.after l token).dialect = r.dialect := by
  cases token with
  | language name => exact absurd rfl h
  | docStringSeparator mark mediaType =>
    rw [after]
    split <;> rfl
  | _ => rfl

namespace ParseState

/-- Whether what the reader holds is lawful. -/
structure Sound (s : ParseState) : Prop where
  known : s.reading.dialect ∈ Dialect.all
  language : ∀ f ∈ s.document.feature, f.language = s.reading.dialect.name
  unbegun : s.place = .start → s.document.feature = none
  mark : ∀ fence ∈ s.reading.fence, Text.IsFence fence.mark
  fence : s.reading.fence.isSome = s.place.inText
  tags : ∀ t ∈ s.document.tags, IsTag t.name
  law : s.document.Obeys (.ofDialect s.reading.dialect)
  tables : (s.document.close s.place).Obeys (.ofTables (Ast.firstRagged? · = none))

/-- Reading starts in a sound state. -/
theorem sound_start {d : Dialect} (hd : d ∈ Dialect.all) : (start d).Sound where
  known := hd
  language := nofun
  unbegun _ := rfl
  mark := nofun
  fence := rfl
  tags := nofun
  law := .empty
  tables := .empty

namespace Sound

variable {s : ParseState} {l : Line} {e : Entry} {token : Token}

/-- The dialect in which a sound reader reads keeps its kinds apart. -/
theorem distinct (h : s.Sound) : s.reading.dialect.Distinct := Dialect.distinct_of_mem h.known

/-- The law of the dialect is kept by what is taken. -/
theorem keeps (h : s.Sound) (ht : s.Takes l s.place.entries e token) (hl : l.IsCut) :
    (Ast.Law.ofDialect s.reading.dialect).Keeps l s.place token := by
  refine Ast.Law.keeps_of_takes ht hl h.distinct h.mark fun kind hkind => ?_
  have htext : s.place.inText = false := by
    cases hp : s.place <;> rw [hp] at hkind <;> first | rfl | cases hkind
  have hfence := h.fence
  rw [htext] at hfence
  simpa using hfence

/-- Only a language line changes the dialect, and it does so before the feature begins. -/
theorem dialect_after (h : s.Sound) (ht : s.Takes l s.place.entries e token) :
    (s.reading.after l token).dialect ∈ Dialect.all
      ∧ ((s.reading.after l token).dialect = s.reading.dialect
        ∨ s.document.feature = none ∧ ∃ name, token = .language name) := by
  have hkind : token.kind = e.kind := Reading.kind_of_token? ht.reads
  by_cases hlanguage : token.kind = .language
  · obtain ⟨name, rfl⟩ : ∃ name, token = .language name := by
      cases token <;> first | exact ⟨_, rfl⟩ | cases hlanguage
    have hstart := State.place_of_language ht.mem hkind.symm
    refine ⟨?_, .inr ⟨h.unbegun hstart, name, rfl⟩⟩
    rw [Reading.after]
    cases hname : Dialect.ofName? name with
    | none => exact h.known
    | some d => exact List.mem_of_find?_eq_some hname
  · have hsame := s.reading.dialect_after l hlanguage
    exact ⟨hsame.symm ▸ h.known, .inl hsame⟩

/-- The reading knows whether a doc string is open, and by which delimiter. -/
theorem fence_after (h : s.Sound) (ht : s.Takes l s.place.entries e token) (hl : l.IsCut) :
    (∀ fence ∈ (s.reading.after l token).fence, Text.IsFence fence.mark)
      ∧ (s.reading.after l token).fence.isSome = e.next.inText := by
  have hkind : token.kind = e.kind := Reading.kind_of_token? ht.reads
  have hreads : s.reading.token? l token.kind = .ok (some token) := hkind ▸ ht.reads
  rw [State.inText_next ht.mem, ← hkind, ← h.fence]
  cases token with
  | docStringSeparator mark mediaType =>
    have hmark := (Reading.fence_of_token? hl hreads).2.2
    rw [Reading.after]
    cases hf : s.reading.fence with
    | none =>
      refine ⟨fun fence hfence => ?_, rfl⟩
      obtain rfl := Option.some.inj hfence
      exact hmark hf
    | some fence => exact ⟨nofun, rfl⟩
  | _ => exact ⟨h.mark, by simp [Reading.after, Token.kind]⟩

/-- Where the table that was read ends, all tables are rectangular. -/
theorem tables_of_leave (h : s.Sound) {next : State} (hleave : s.leave next = s)
    (hfaults : s.faults = []) (hends : s.place.inTable = true → next ≠ s.place) :
    s.document.Obeys (.ofTables (Ast.firstRagged? · = none)) := by
  cases hin : s.place.inTable with
  | false =>
    have htables := h.tables
    rwa [Document.close, hin, if_neg (by simp)] at htables
  | true =>
    refine h.tables.of_close ?_
    have hne : (s.place != next) = true := bne_iff_ne.mpr (hends hin).symm
    rw [ParseState.leave, hin, hne, Bool.and_self, if_pos rfl] at hleave
    split at hleave
    · next row hragged =>
      have hnote := note_ne_nil s (.raggedTable row.loc)
      rw [hleave] at hnote
      exact absurd hfaults hnote
    · next hragged => exact hragged

/-- Tables stay rectangular, apart from the one that is being read. -/
theorem tables_take (h : s.Sound) (ht : s.Takes l s.place.entries e token)
    (hleave : s.leave e.next = s) (hfaults : s.faults = []) (language : Text) :
    ((s.document.take language l s.place e.next token).close e.next).Obeys
      (.ofTables (Ast.firstRagged? · = none)) := by
  have hkind : token.kind = e.kind := Reading.kind_of_token? ht.reads
  by_cases hrow : e.kind = .tableRow
  · obtain ⟨hshares, hin⟩ := State.next_of_tableRow ht.mem hrow
    obtain ⟨cells, rfl⟩ : ∃ cells, token = .tableRow cells := by
      rw [hrow] at hkind
      cases token <;> first | exact ⟨_, rfl⟩ | cases hkind
    have hclose : (s.document.take language l s.place e.next (.tableRow cells)).close e.next
        = s.document.onRows s.place fun _ => [] := by
      have htake : s.document.take language l s.place e.next (.tableRow cells)
          = s.document.onRows s.place (· ++ [.ofCells l.location cells]) :=
        s.document.takeRow_eq_onRows _ _
      rw [Document.close, if_pos hin, htake, State.onRows_of_sharesTable hshares,
        Document.onRows_onRows]
    rw [hclose]
    by_cases hends : s.place.inTable = true → e.next ≠ s.place
    · exact (h.tables_of_leave hleave hfaults hends).onRows _ (fun _ _ => rfl) fun _ _ => rfl
    · obtain ⟨hin', -⟩ := Classical.not_imp.mp hends
      have htables := h.tables
      rwa [Document.close, if_pos hin'] at htables
  · by_cases hends : s.place.inTable = true → e.next ≠ s.place
    · have hkeeps : (Ast.Law.ofTables (Ast.firstRagged? · = none)).Keeps l s.place token := by
        have hne : ∀ cells, token ≠ .tableRow cells := by
          rintro cells rfl
          exact hrow hkind.symm
        exact ⟨fun _ _ _ _ => trivial, fun _ _ _ _ => trivial, fun _ _ => rfl,
          fun _ _ _ _ => rfl, fun _ _ _ _ _ _ => trivial, fun _ _ _ hs => hs,
          fun _ _ _ _ hs => hs, fun cells he => absurd he (hne cells),
          fun cells he => absurd he (hne cells)⟩
      have hall := h.tables_of_leave hleave hfaults hends
      refine (hall.take (fun _ _ => trivial) hkeeps (fun text he => ?_) language e.next).close rfl _
      exact State.ne_examplesTable_of_other ht.mem (by rw [← hkind, he]; rfl)
    · obtain ⟨hin, heq⟩ := Classical.not_imp.mp hends
      have heq : e.next = s.place := not_not.mp heq
      have hfeature : (s.document.take language l s.place e.next token).feature
          = s.document.feature := by
        rcases State.kind_of_next_self ht.mem hin heq with hk | hk | hk
        · exact absurd hk hrow
        · rw [hk] at hkind
          cases token <;> first | rfl | cases hkind
        · rw [hk] at hkind
          cases token <;> first | rfl | cases hkind
      rw [heq] at hfeature ⊢
      refine h.tables.of_feature_eq ?_
      generalize s.document.take language l s.place s.place token = d at hfeature
      rw [Document.close, Document.close, if_pos hin, if_pos hin]
      cases s.place <;> simp [Document.onRows, Document.onBody, Document.onFeature, hfeature]

/-- A line that is taken keeps the reader sound. -/
theorem goes (h : s.Sound) (ht : s.Takes l s.place.entries e token) (hleave : s.leave e.next = s)
    (hl : l.IsCut) (hfaults : s.faults = []) : (s.goes l e.next token).Sound := by
  have hkind : token.kind = e.kind := Reading.kind_of_token? ht.reads
  have hkeeps := h.keeps ht hl
  obtain ⟨hknown, hdialect⟩ := h.dialect_after ht
  obtain ⟨hmark, hfence⟩ := h.fence_after ht hl
  constructor
  case known => exact hknown
  case mark => exact hmark
  case fence => exact hfence
  case tables => exact h.tables_take ht hleave hfaults _
  case language =>
    intro f hf
    have hmap :=
      s.document.language_take (s.reading.after l token).dialect.name l s.place e.next token
    have hf' : (s.document.take (s.reading.after l token).dialect.name l s.place e.next
        token).feature = some f := hf
    rw [hf', Option.map_some] at hmap
    split at hmap
    · exact Option.some.inj hmap
    · obtain ⟨f', hf', heq⟩ := Option.map_eq_some_iff.mp hmap.symm
      rcases hdialect with hsame | ⟨hnone, -⟩
      · rw [← heq, h.language f' hf', ← hsame]
        rfl
      · rw [hnone] at hf'
        cases hf'
  case unbegun =>
    intro hnext
    obtain ⟨hstart, hk⟩ := State.kind_of_next_start ht.mem hnext
    have hnone := h.unbegun hstart
    rcases hk with hk | hk <;> rw [hk] at hkind <;> cases token <;> first
      | exact hnone
      | cases hkind
  case tags =>
    intro t ht'
    rcases s.document.tags_take _ l s.place e.next token ht' with ht' | ⟨tags, rfl, p, hp, rfl⟩
    · exact h.tags t ht'
    · exact hkeeps.tag tags rfl p hp
  case law =>
    rcases hdialect with hsame | ⟨hnone, name, rfl⟩
    · have hobeys := h.law.take h.tags hkeeps
        (fun text he => State.ne_examplesTable_of_other ht.mem (by rw [← hkind, he]; rfl))
        (s.reading.after l token).dialect.name e.next
      exact hsame ▸ hobeys
    · intro f hf
      have hf' : s.document.feature = some f := hf
      rw [hnone] at hf'
      cases hf'

/-- What lines that are taken keep of a sound reader, runs without a fault keep. -/
theorem run_induction {P : ParseState → Prop} {Q : Line → Prop}
    (hstep : ∀ (s : ParseState) l e token, s.Sound → P s → Q l →
      s.Takes l s.place.entries e token → P (s.goes l e.next token))
    {ls : List Line} (hs : s.Sound) (hP : P s) (hls : ∀ l ∈ ls, l.IsCut ∧ Q l)
    (h : (s.run ls).faults = []) : (s.run ls).Sound ∧ P (s.run ls) := by
  have hrun := ParseState.run_induction (P := fun t => t.Sound ∧ t.faults = [] ∧ P t)
    (Q := fun l => l.IsCut ∧ Q l)
    (fun t l e token ht hl htakes hleave => ⟨ht.1.goes htakes hleave hl.1 ht.2.1, ht.2.1,
      hstep t l e token ht.1 ht.2.2 hl.2 htakes⟩)
    ⟨hs, faults_of_run h, hP⟩ hls h
  exact ⟨hrun.1, hrun.2.2⟩

/-- Reading keeps the reader sound. -/
theorem run {ls : List Line} (hs : s.Sound) (hls : ∀ l ∈ ls, l.IsCut)
    (h : (s.run ls).faults = []) : (s.run ls).Sound :=
  (run_induction (P := fun _ => True) (Q := fun _ => True) (fun _ _ _ _ _ _ _ _ => trivial) hs
    trivial (fun l hl => ⟨hls l hl, trivial⟩) h).1

end Sound

/-- Where no language line can stand any more, the dialect stays. -/
theorem dialect_of_run {s : ParseState} {ls : List Line} (hplace : s.place ≠ .start)
    (h : (s.run ls).faults = []) : (s.run ls).reading.dialect = s.reading.dialect := by
  refine (ParseState.run_induction
    (P := fun t => t.place ≠ .start ∧ t.reading.dialect = s.reading.dialect)
    (Q := fun _ => True) ?_ ⟨hplace, rfl⟩ (fun _ _ => trivial) h).2
  rintro t l e token ⟨hstart, hsame⟩ - ht -
  have hkind : token.kind = e.kind := Reading.kind_of_token? ht.reads
  refine ⟨fun hnext => hstart (State.kind_of_next_start ht.mem hnext).1, ?_⟩
  refine (t.reading.dialect_after l fun hlanguage => ?_).trans hsame
  exact hstart (State.place_of_language ht.mem (hkind.symm.trans hlanguage))

end ParseState

/-! ### Documents -/

namespace Ast.Document

variable {dialect : Dialect} {source : Text} {d : Document}

/-- A text that is read leads the reader to its document without a fault. -/
theorem run_of_parse (h : parse dialect source = .ok d) :
    ((ParseState.start dialect).run (Line.ofText source)).faults = []
      ∧ ((ParseState.start dialect).run (Line.ofText source)).document = d
      ∧ ((ParseState.start dialect).run (Line.ofText source)).leave .done
        = (ParseState.start dialect).run (Line.ofText source) := by
  obtain ⟨hfaults, hdocument⟩ := parse_ok_iff.mp h
  rw [read, ParseState.finish] at hfaults hdocument
  split at hfaults
  · next hend =>
    rw [if_pos hend] at hdocument
    have hleave := ParseState.leave_of_faultless hfaults
    rw [hleave] at hfaults hdocument
    exact ⟨hfaults, hdocument, hleave⟩
  · exact absurd hfaults (ParseState.note_ne_nil _ _)

/-- A document that is read obeys the law of the dialect that its language names, and its tables are
rectangular. -/
theorem sound_of_parse (hdialect : dialect ∈ Dialect.all) (h : parse dialect source = .ok d) :
    ∃ d' ∈ Dialect.all, (∀ f ∈ d.feature, f.language = d'.name) ∧ d.Obeys (.ofDialect d')
      ∧ d.Obeys (.ofTables (firstRagged? · = none)) := by
  obtain ⟨hfaults, rfl, hleave⟩ := run_of_parse h
  have hs := (ParseState.sound_start hdialect).run (fun l hl => Line.isCut_of_mem_ofText hl) hfaults
  refine ⟨_, hs.known, hs.language, hs.law, hs.tables_of_leave hleave hfaults ?_⟩
  rintro hin heq
  rw [← heq] at hin
  cases hin

/-- A text whose first line is no language line, and no comment or blank line that could stand in
front of one, is in the dialect that it is read in. -/
theorem language_of_parse (hdialect : dialect ∈ Dialect.all) (h : parse dialect source = .ok d)
    {l : Line} {ls : List Line} (hlines : Line.ofText source = l :: ls)
    (hrefuse : ∀ kind ∈ [TokenKind.language, .comment, .empty],
      (ParseState.start dialect).reading.token? l kind = .ok none) :
    ∀ f ∈ d.feature, f.language = dialect.name := by
  obtain ⟨hfaults, rfl, -⟩ := run_of_parse h
  have hs := (ParseState.sound_start hdialect).run (fun l hl => Line.isCut_of_mem_ofText hl) hfaults
  have hdialect' : ((ParseState.start dialect).run (Line.ofText source)).reading.dialect
      = dialect := by
    rw [hlines, ParseState.run_cons] at hfaults ⊢
    obtain ⟨e, token, ht, -, heq⟩ :=
      ParseState.advance_of_faultless (ParseState.faults_of_run hfaults)
    have hkind : token.kind = e.kind := Reading.kind_of_token? ht.reads
    have hne : ∀ kind ∈ [TokenKind.language, .comment, .empty], e.kind ≠ kind := by
      rintro kind hmem rfl
      have hreads := ht.reads
      rw [hrefuse _ hmem] at hreads
      cases hreads
    rw [heq] at hfaults ⊢
    rw [ParseState.dialect_of_run (fun hnext => ?_) hfaults]
    · exact Reading.dialect_after _ l (hkind ▸ hne .language (by simp))
    · rcases (State.kind_of_next_start ht.mem hnext).2 with hk | hk
      · exact hne .comment (by simp) hk
      · exact hne .empty (by simp) hk
  exact fun f hf => (hs.language f hf).trans (congrArg Dialect.name hdialect')

end Ast.Document

end FeatureTree
