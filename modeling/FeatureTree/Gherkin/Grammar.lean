import FeatureTree.Gherkin.Token

/-!
# The grammar

Which tokens may follow is decided by where in the document the reader stands. A place is described
by what encloses it (the feature or one of its rules), by the section it is in (a background or a
scenario) and by what the current step has been given so far; `State.entries` lists, for every
place, the kinds of token that are tried there, in order, and the place each leads to.

A tag line says nothing about what it tags. Where tags of examples, of a scenario and of a rule are
all possible, the entry looks ahead: it is taken only if the next line that is not blank, a comment
or a tag line is of the kind that the entry names.

## Main results

* `State.eof_mem_entries_iff`: where a document may end
* `State.entries_eq_nil_iff`: only at the end of the document nothing can follow
-/

namespace FeatureTree

/-- What encloses a section: the feature itself or the last of its rules. -/
inductive Scope where
  | feature
  | rule
deriving DecidableEq, Repr

/-- The kinds of section that own steps. -/
inductive Owner where
  | background
  | scenario
deriving DecidableEq, Repr

/-- What the current step has been given so far. A step takes a table and a doc string, in either
order, and each only once. -/
inductive Argument where
  | bare
  | table
  /-- Inside a doc string after a table. -/
  | openTextAfterTable
  /-- After a table and a doc string. -/
  | textAfterTable
  /-- Inside a doc string. -/
  | openText
  /-- After a doc string. -/
  | text
  /-- After a doc string, in a table. -/
  | tableAfterText
deriving DecidableEq, Repr

/-- A place in a document. -/
inductive State where
  | start
  /-- After a language line. -/
  | languageGiven
  /-- After tags of the feature. -/
  | featureTags
  /-- After the title of the feature or of a rule. -/
  | heading (scope : Scope)
  /-- In the description of the feature or of a rule. -/
  | headingText (scope : Scope)
  /-- After tags of a rule. -/
  | ruleTags
  /-- After the title of a section. -/
  | title (scope : Scope) (owner : Owner)
  /-- In the description of a section. -/
  | titleText (scope : Scope) (owner : Owner)
  /-- After a step. -/
  | step (scope : Scope) (owner : Owner) (given : Argument)
  /-- After tags of a scenario. -/
  | scenarioTags (scope : Scope)
  /-- After tags of examples. -/
  | examplesTags (scope : Scope)
  /-- After the title of examples. -/
  | examples (scope : Scope)
  /-- In the description of examples. -/
  | examplesText (scope : Scope)
  /-- In the table of examples. -/
  | examplesTable (scope : Scope)
  /-- After the end of the file. -/
  | done
deriving DecidableEq, Repr

/-- A token that may follow: its kind, the kind that must follow its tags, and the next place. -/
structure Entry where
  kind : TokenKind
  ahead : Option TokenKind
  next : State
deriving DecidableEq, Repr

namespace State

/-- An entry that does not look ahead. -/
def on (kind : TokenKind) (next : State) : Entry := ⟨kind, none, next⟩

/-- The tags and titles that may follow once a section has begun. Examples follow scenarios only. -/
def following (scope : Scope) (owner : Owner) : List Entry :=
  (if owner = .scenario then [⟨.tagLine, some .examplesLine, .examplesTags scope⟩] else [])
    ++ [⟨.tagLine, some .scenarioLine, .scenarioTags scope⟩, on .tagLine .ruleTags]
    ++ (if owner = .scenario then [on .examplesLine (.examples scope)] else [])
    ++ [on .scenarioLine (.title scope .scenario), on .ruleLine (.heading .rule)]

/-- What may follow a step, apart from the end of the file: the argument it can still be given and
the next step or title. -/
def afterStep (scope : Scope) (owner : Owner) (given : Argument) : List Entry :=
  let here := State.step scope owner
  let arguments : List Entry := match given with
    | .bare => [on .tableRow (here .table), on .docStringSeparator (here .openText)]
    | .table => [on .tableRow (here .table), on .docStringSeparator (here .openTextAfterTable)]
    | .text => [on .tableRow (here .tableAfterText)]
    | .tableAfterText => [on .tableRow (here .tableAfterText)]
    | _ => []
  arguments ++ [on .stepLine (here .bare)] ++ following scope owner
    ++ [on .comment (here given), on .empty (here given)]

/-- The tokens that may follow at a place, in the order in which they are tried. -/
def entries : State → List Entry
  | .start =>
    [on .eof .done, on .language .languageGiven, on .tagLine .featureTags,
     on .featureLine (.heading .feature), on .comment .start, on .empty .start]
  | .languageGiven =>
    [on .tagLine .featureTags, on .featureLine (.heading .feature),
     on .comment .languageGiven, on .empty .languageGiven]
  | .featureTags =>
    [on .tagLine .featureTags, on .featureLine (.heading .feature),
     on .comment .featureTags, on .empty .featureTags]
  | .heading scope =>
    [on .eof .done, on .empty (.heading scope), on .comment (.headingText scope),
     on .backgroundLine (.title scope .background)]
      ++ following scope .background ++ [on .other (.headingText scope)]
  | .headingText scope =>
    [on .eof .done, on .comment (.headingText scope),
     on .backgroundLine (.title scope .background)]
      ++ following scope .background ++ [on .other (.headingText scope)]
  | .ruleTags =>
    [on .tagLine .ruleTags, on .ruleLine (.heading .rule),
     on .comment .ruleTags, on .empty .ruleTags]
  | .title scope owner =>
    [on .eof .done, on .empty (.title scope owner), on .comment (.titleText scope owner),
     on .stepLine (.step scope owner .bare)]
      ++ following scope owner ++ [on .other (.titleText scope owner)]
  | .titleText scope owner =>
    [on .eof .done, on .comment (.titleText scope owner), on .stepLine (.step scope owner .bare)]
      ++ following scope owner ++ [on .other (.titleText scope owner)]
  | .step scope owner .openText =>
    [on .docStringSeparator (.step scope owner .text),
     on .other (.step scope owner .openText)]
  | .step scope owner .openTextAfterTable =>
    [on .docStringSeparator (.step scope owner .textAfterTable),
     on .other (.step scope owner .openTextAfterTable)]
  | .step scope owner given => on .eof .done :: afterStep scope owner given
  | .scenarioTags scope =>
    [on .tagLine (.scenarioTags scope), on .scenarioLine (.title scope .scenario),
     on .comment (.scenarioTags scope), on .empty (.scenarioTags scope)]
  | .examplesTags scope =>
    [on .tagLine (.examplesTags scope), on .examplesLine (.examples scope),
     on .comment (.examplesTags scope), on .empty (.examplesTags scope)]
  | .examples scope =>
    [on .eof .done, on .empty (.examples scope), on .comment (.examplesText scope),
     on .tableRow (.examplesTable scope)]
      ++ following scope .scenario ++ [on .other (.examplesText scope)]
  | .examplesText scope =>
    [on .eof .done, on .comment (.examplesText scope), on .tableRow (.examplesTable scope)]
      ++ following scope .scenario ++ [on .other (.examplesText scope)]
  | .examplesTable scope =>
    [on .eof .done, on .tableRow (.examplesTable scope)] ++ following scope .scenario
      ++ [on .comment (.examplesTable scope), on .empty (.examplesTable scope)]
  | .done => []

/-- The kinds of token that a place expects, without repeats. -/
def expected (s : State) : List TokenKind := (s.entries.map (·.kind)).eraseDups

/-- Whether a table is being read. Such a table ends with any token that leads elsewhere. -/
def inTable : State → Bool
  | .step _ _ .table | .step _ _ .tableAfterText | .examplesTable _ => true
  | _ => false

/-- A document may end everywhere but before the title that a language line or tags announce and
inside a doc string. -/
theorem eof_mem_entries_iff (s : State) :
    TokenKind.eof ∈ s.entries.map (·.kind) ↔
      s ≠ .languageGiven ∧ s ≠ .featureTags ∧ s ≠ .ruleTags ∧ s ≠ .done ∧
      (∀ c, s ≠ .scenarioTags c ∧ s ≠ .examplesTags c) ∧
      (∀ c o, s ≠ .step c o .openText ∧ s ≠ .step c o .openTextAfterTable) := by
  cases s with
  | step c o a => cases a <;> simp [entries, on]
  | _ => simp [entries, on, following]

/-- Only at the end of the document nothing can follow. -/
theorem entries_eq_nil_iff (s : State) : s.entries = [] ↔ s = .done := by
  cases s with
  | step c o a => cases a <;> simp [entries]
  | _ => simp [entries]

end State

end FeatureTree
