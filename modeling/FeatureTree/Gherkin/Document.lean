import FeatureTree.Gherkin.Grammar

/-!
# Documents

The document that a text describes, and how each token adds to it. A token always adds to the part
that was begun last, so a document under construction is itself a document: titles append a new
part, all else extends the last one. The place in the grammar tells which part that is.

## Main results

* `mapLast_concat`: extending the last part of a list leaves the others alone
* `Ast.Document.take_comment`: a comment changes nothing but the comments
-/

namespace FeatureTree

/-- Applies `f` to the last member of a list. -/
def mapLast (f : α → α) : List α → List α
  | [] => []
  | [x] => [f x]
  | x :: y :: xs => x :: mapLast f (y :: xs)

/-- There is no last part to change where there is none. -/
@[simp] theorem mapLast_nil (f : α → α) : mapLast f [] = [] := rfl

/-- Extending the last part of a list leaves the others alone. -/
@[simp] theorem mapLast_concat (f : α → α) (xs : List α) (x : α) :
    mapLast f (xs ++ [x]) = xs ++ [f x] := by
  induction xs with
  | nil => rfl
  | cons y ys ih =>
    cases ys with
    | nil => rfl
    | cons z zs =>
      simp only [List.cons_append, mapLast] at ih ⊢
      rw [ih]

namespace Ast

/-- A tag, with its `@`. -/
structure Tag where
  loc : Location
  name : Text
deriving DecidableEq, Repr

/-- A cell of a table row. -/
structure Cell where
  loc : Location
  value : Text
deriving DecidableEq, Repr

/-- A row of a table. -/
structure Row where
  loc : Location
  cells : List Cell
deriving DecidableEq, Repr

/-- A doc string: its lines, the delimiter and what stands behind it. -/
structure DocString where
  loc : Location
  mark : Text
  mediaType : Text
  lines : List Text
deriving DecidableEq, Repr

/-- A step with its arguments. The rows of its table come one by one, so a table that has been
begun has at least one row. -/
structure Step where
  loc : Location
  keyword : Text
  role : StepRole
  text : Text
  table : List Row
  docString : Option DocString
deriving DecidableEq, Repr

/-- What titled parts have in common. The description is kept as its lines. -/
structure Heading where
  loc : Location
  keyword : Text
  name : Text
  description : List Text
deriving DecidableEq, Repr

/-- Steps shared by the scenarios of a feature or rule. -/
structure Background where
  heading : Heading
  steps : List Step
deriving DecidableEq, Repr

/-- A table of values for an outline. The first row names the columns. -/
structure Examples where
  heading : Heading
  tags : List Tag
  rows : List Row
deriving DecidableEq, Repr

/-- A scenario or an outline. -/
structure Scenario where
  heading : Heading
  tags : List Tag
  steps : List Step
  examples : List Examples
deriving DecidableEq, Repr

/-- The sections of a feature or of a rule. -/
structure Body where
  background : Option Background
  scenarios : List Scenario
deriving DecidableEq, Repr

/-- A rule of a feature. -/
structure Rule where
  heading : Heading
  tags : List Tag
  body : Body
deriving DecidableEq, Repr

/-- A feature, with the dialect that its title was read in. -/
structure Feature where
  heading : Heading
  tags : List Tag
  language : Text
  body : Body
  rules : List Rule
deriving DecidableEq, Repr

/-- A comment line. -/
structure Comment where
  loc : Location
  text : Text
deriving DecidableEq, Repr

/-- A document. `tags` are those of the lines read last, whose title is still to come. -/
structure Document where
  feature : Option Feature
  comments : List Comment
  tags : List Tag
deriving DecidableEq, Repr

/-- A feature or rule that has just begun has no sections. -/
def Body.empty : Body := ⟨none, []⟩

/-- The document before its first line. -/
def Document.empty : Document := ⟨none, [], []⟩

/-! ### Reaching the part begun last -/

/-- Extends the steps of the section begun last. -/
def Body.onSteps (owner : Owner) (f : List Step → List Step) (b : Body) : Body :=
  match owner with
  | .background => { b with background := b.background.map fun s => { s with steps := f s.steps } }
  | .scenario =>
    { b with scenarios := mapLast (fun s => { s with steps := f s.steps }) b.scenarios }

/-- Changes the heading of the section begun last. -/
def Body.onTitle (owner : Owner) (f : Heading → Heading) (b : Body) : Body :=
  match owner with
  | .background =>
    { b with background := b.background.map fun s => { s with heading := f s.heading } }
  | .scenario =>
    { b with scenarios := mapLast (fun s => { s with heading := f s.heading }) b.scenarios }

/-- Extends the examples of the scenario begun last. -/
def Body.onExamples (f : List Examples → List Examples) (b : Body) : Body :=
  { b with scenarios := mapLast (fun s => { s with examples := f s.examples }) b.scenarios }

namespace Document

/-- Changes the feature, if it has begun. -/
def onFeature (f : Feature → Feature) (d : Document) : Document :=
  { d with feature := d.feature.map f }

/-- Changes the sections of the feature or of its last rule. -/
def onBody (scope : Scope) (f : Body → Body) (d : Document) : Document :=
  d.onFeature fun t => match scope with
    | .feature => { t with body := f t.body }
    | .rule => { t with rules := mapLast (fun r => { r with body := f r.body }) t.rules }

/-- Changes the heading of the feature or of its last rule. -/
def onHeading (scope : Scope) (f : Heading → Heading) (d : Document) : Document :=
  d.onFeature fun t => match scope with
    | .feature => { t with heading := f t.heading }
    | .rule => { t with rules := mapLast (fun r => { r with heading := f r.heading }) t.rules }

/-- Forgets the tags once a title has taken them. -/
def withoutTags (d : Document) : Document := { d with tags := [] }

end Document

/-- A heading as its title line gives it. -/
def Heading.ofTitle (loc : Location) (title : TitleLine) : Heading :=
  ⟨loc, title.keyword, title.name, []⟩

/-- Adds a line to a description. -/
def Heading.describe (line : Text) (h : Heading) : Heading :=
  { h with description := h.description ++ [line] }

/-- The row of a line of cells. -/
def Row.ofCells (loc : Location) (cells : List (Nat × Text)) : Row :=
  ⟨loc, cells.map fun (column, value) => ⟨⟨loc.line, column⟩, value⟩⟩

/-- The lines of a description up to the last that is not empty, joined. -/
def Heading.descriptionText (h : Heading) : Text :=
  Text.joinLines (Text.dropEndWhile List.isEmpty h.description)

/-- The text of a doc string. -/
def DocString.content (s : DocString) : Text := Text.joinLines s.lines

namespace Document

/-- Adds a line of free text. In a doc string it is a line of its content, elsewhere a line of the
description of the part begun last. -/
def takeText (d : Document) (line : Text) : State → Document
  | .start | .languageGiven | .featureTags | .ruleTags | .scenarioTags _ | .examplesTags _
  | .done =>
    d
  | .heading scope | .headingText scope => d.onHeading scope (·.describe line)
  | .title scope owner | .titleText scope owner =>
    d.onBody scope (·.onTitle owner (·.describe line))
  | .step scope owner _ =>
    d.onBody scope (·.onSteps owner (mapLast fun s =>
      { s with docString := s.docString.map fun t => { t with lines := t.lines ++ [line] } }))
  | .examples scope | .examplesText scope | .examplesTable scope =>
    d.onBody scope (·.onExamples (mapLast fun e => { e with heading := e.heading.describe line }))

/-- Adds a row to the table of the step or examples begun last. -/
def takeRow (d : Document) (row : Row) : State → Document
  | .step scope owner _ =>
    d.onBody scope (·.onSteps owner (mapLast fun s => { s with table := s.table ++ [row] }))
  | .examples scope | .examplesText scope | .examplesTable scope =>
    d.onBody scope (·.onExamples (mapLast fun e => { e with rows := e.rows ++ [row] }))
  | _ => d

/-- Begins a doc string in the step begun last. -/
def takeFence (d : Document) (docString : DocString) : State → Document
  | .step scope owner .bare | .step scope owner .table =>
    d.onBody scope (·.onSteps owner (mapLast fun s => { s with docString := some docString }))
  | _ => d

/-- Begins a feature, section, rule or examples, or adds a step. The place is the one that the
token leads to. -/
def takePart (d : Document) (language : Text) (loc : Location) : State → Token → Document
  | _, .featureLine title =>
    { d.withoutTags with
      feature := some ⟨.ofTitle loc title, d.tags, language, .empty, []⟩ }
  | _, .ruleLine title =>
    d.withoutTags.onFeature fun t =>
      { t with rules := t.rules ++ [⟨.ofTitle loc title, d.tags, .empty⟩] }
  | .title scope _, .backgroundLine title =>
    d.onBody scope fun b => { b with background := some ⟨.ofTitle loc title, []⟩ }
  | .title scope _, .scenarioLine title =>
    d.withoutTags.onBody scope fun b =>
      { b with scenarios := b.scenarios ++ [⟨.ofTitle loc title, d.tags, [], []⟩] }
  | .examples scope, .examplesLine title =>
    d.withoutTags.onBody scope (·.onExamples (· ++ [⟨.ofTitle loc title, d.tags, []⟩]))
  | .step scope owner _, .stepLine keyword role text =>
    d.onBody scope (·.onSteps owner (· ++ [⟨loc, keyword, role, text, [], none⟩]))
  | _, _ => d

/-- Adds a token to a document: `here` is the place where the line was read, `next` the place that
the token leads to, and `language` the name of the dialect in force. -/
def take (d : Document) (language : Text) (l : Line) (here next : State) : Token → Document
  | .comment text => { d with comments := d.comments ++ [⟨⟨l.number, 1⟩, text⟩] }
  | .tagLine tags =>
    { d with tags := d.tags ++ tags.map fun (column, name) => ⟨⟨l.number, column⟩, name⟩ }
  | .other text => d.takeText text here
  | .tableRow cells => d.takeRow (.ofCells l.location cells) here
  | .docStringSeparator mark mediaType => d.takeFence ⟨l.location, mark, mediaType, []⟩ here
  | token => d.takePart language l.location next token

/-- A comment changes nothing but the comments. -/
theorem take_comment (d : Document) (language : Text) (l : Line) (here next : State)
    (text : Text) :
    d.take language l here next (.comment text)
      = { d with comments := d.comments ++ [⟨⟨l.number, 1⟩, text⟩] } := rfl

/-- The rows of the table that is being read at a place. -/
def openRows (d : Document) (place : State) : List Row :=
  let body (scope : Scope) : Body := match d.feature, scope with
    | some t, .feature => t.body
    | some t, .rule => (t.rules.getLast?.map (·.body)).getD .empty
    | none, _ => .empty
  match place with
  | .step scope owner _ =>
    let steps : List Step := match owner with
      | .background => ((body scope).background.map (·.steps)).getD []
      | .scenario => ((body scope).scenarios.getLast?.map (·.steps)).getD []
    (steps.getLast?.map (·.table)).getD []
  | .examplesTable scope =>
    let examples : List Examples := ((body scope).scenarios.getLast?.map (·.examples)).getD []
    (examples.getLast?.map (·.rows)).getD []
  | _ => []

end Document

/-- The first row of a table whose number of cells differs from that of the first. -/
def firstRagged? : List Row → Option Row
  | [] => none
  | row :: rows => rows.find? fun r => r.cells.length ≠ row.cells.length

end Ast

end FeatureTree
