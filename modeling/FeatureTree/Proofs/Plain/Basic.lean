import FeatureTree.Gherkin.Dialect.Choice
import FeatureTree.Gherkin.Document
import FeatureTree.Layout
import FeatureTree.Node.Basic
import FeatureTree.Text.Description

/-!
# What a document says

A document without its places: titles, steps, tables and doc strings as texts, each part with just
the parts that it can have. A plain document stands between the others: a document that was read
says one (`Ast.Feature.plain`), a plain document has lines (`Plain.Feature.lines`), and it is the
tree of a node that knows nothing of its origin (`Plain.Feature.node`). That these agree is what
round trips come down to.

A keyword has lost the blank behind it, a description is in its normal form, and of two arguments of
a step the doc string counts. A scenario that is an outline has a list of examples, even if that
list is empty.
-/

namespace FeatureTree

namespace Plain

/-- What titled parts have in common. -/
structure Heading where
  keyword : Text
  name : Text
  description : Text

/-- The argument of a step. -/
inductive Block where
  | table (rows : List (List Text))
  | docString (content contentType : Text)

/-- A step with its argument. -/
structure Step where
  keyword : Text
  text : Text
  block : Option Block

/-- Steps that are shared. -/
structure Background where
  heading : Heading
  steps : List Step

/-- Values for an outline. -/
structure Examples where
  heading : Heading
  tags : List Text
  rows : List (List Text)

/-- A scenario, or an outline if it has a list of examples. -/
structure Scenario where
  heading : Heading
  tags : List Text
  steps : List Step
  examples : Option (List Examples)

/-- The sections of a feature or rule. -/
structure Body where
  background : Option Background
  scenarios : List Scenario

/-- A rule of a feature. -/
structure Rule where
  heading : Heading
  tags : List Text
  body : Body

/-- A feature with its language. -/
structure Feature where
  heading : Heading
  tags : List Text
  language : Text
  body : Body
  rules : List Rule

/-! ### Lines -/

/-- The lines of a titled part with a body and inner parts. -/
def Heading.part (h : Heading) (tags body : List Text) (inner : List (List Text)) : List Text :=
  Layout.part (fun t => t) tags (Layout.titleLine h.keyword h.name) h.description body inner

def Block.lines : Block → List Text
  | .table rows => Layout.tableLines rows
  | .docString content contentType => Layout.docStringLines content contentType

def Step.lines (s : Step) : List Text :=
  (s.keyword ++ ' ' :: s.text) :: (s.block.map fun b => Layout.indent b.lines).getD []

/-- The lines of the steps of a section. -/
def stepLines (steps : List Step) : List Text := steps.flatMap fun s => Layout.indent s.lines

def Background.lines (b : Background) : List Text := b.heading.part [] (stepLines b.steps) []

def Examples.lines (e : Examples) : List Text :=
  e.heading.part e.tags (Layout.indent (Layout.tableLines e.rows)) []

def Scenario.lines (s : Scenario) : List Text :=
  s.heading.part s.tags (stepLines s.steps) ((s.examples.getD []).map Examples.lines)

/-- The lines of each section. -/
def Body.parts (b : Body) : List (List Text) :=
  (b.background.map Background.lines).toList ++ b.scenarios.map Scenario.lines

def Rule.lines (r : Rule) : List Text := r.heading.part r.tags [] r.body.parts

def Feature.lines (f : Feature) : List Text :=
  f.heading.part f.tags [] (f.body.parts ++ f.rules.map Rule.lines)

/-- The line that names a language, which English does not need. -/
def languageLines (language : Text) : List Text :=
  if language.isEmpty || language = ['e', 'n'] then [] else ["# language: ".toList ++ language]

/-- The lines of a file, which may be without a feature. -/
def fileLines : Option Feature → List Text
  | none => []
  | some f => languageLines f.language ++ f.lines

/-! ### Nodes -/

def Heading.title (h : Heading) : Title := ⟨.text h.keyword, .text h.name, .text h.description⟩

def tagNode (tag : Text) : Node := .mk {} (.tag (.text tag))

def cellNode (value : Text) : Node := .mk {} (.cell (.text value))

def rowNode (values : List Text) : Node := .mk {} (.row (values.map cellNode))

def Block.node : Block → Node
  | .table rows => .mk {} (.table (rows.map rowNode))
  | .docString content contentType => .mk {} (.docString (.text content) (.text contentType))

def Step.node (s : Step) : Node :=
  .mk {} (.step (.text s.keyword) (.text s.text) (s.block.map Block.node))

def Background.node (b : Background) : Node :=
  .mk {} (.background b.heading.title (b.steps.map Step.node))

def Examples.node (e : Examples) : Node :=
  .mk {} (.example e.heading.title (e.tags.map tagNode) (e.rows.map rowNode))

def Scenario.node (s : Scenario) : Node :=
  let tags := s.tags.map tagNode
  let steps := s.steps.map Step.node
  match s.examples with
  | none => .mk {} (.scenario s.heading.title tags steps)
  | some examples => .mk {} (.outline s.heading.title tags steps (examples.map Examples.node))

def Rule.node (r : Rule) : Node :=
  .mk {} (.rule r.heading.title (r.tags.map tagNode) (r.body.background.map Background.node)
    (r.body.scenarios.map Scenario.node))

def Feature.node (f : Feature) : Node :=
  .mk {} (.feature f.heading.title (.text f.language) (f.tags.map tagNode)
    (f.body.background.map Background.node) (f.body.scenarios.map Scenario.node)
    (f.rules.map Rule.node))

/-- The node of a file with a path. -/
def fileNode (path : Text) (f : Option Feature) : Node :=
  .mk {} (.featureFile (.text path) (f.map Feature.node) [])

end Plain

/-! ### Documents that were read -/

namespace Ast

def Heading.plain (h : Heading) : Plain.Heading :=
  ⟨h.keyword.trim, h.name, h.descriptionText.trimDescription⟩

def Row.values (r : Row) : List Text := r.cells.map (·.value)

def Step.plain (s : Step) : Plain.Step where
  keyword := s.keyword.trim
  text := s.text
  block := match s.docString with
    | some t => some (.docString t.content t.mediaType)
    | none => if s.table.isEmpty then none else some (.table (s.table.map Row.values))

def Background.plain (b : Background) : Plain.Background :=
  ⟨b.heading.plain, b.steps.map Step.plain⟩

def Examples.plain (e : Examples) : Plain.Examples :=
  ⟨e.heading.plain, e.tags.map (·.name), e.rows.map Row.values⟩

/-- Whether a scenario is an outline, given the keywords of outlines. -/
def Scenario.isOutline (words : List Text) (s : Scenario) : Bool :=
  !s.examples.isEmpty || words.contains s.heading.keyword.trim

def Scenario.plain (words : List Text) (s : Scenario) : Plain.Scenario where
  heading := s.heading.plain
  tags := s.tags.map (·.name)
  steps := s.steps.map Step.plain
  examples := if s.isOutline words then some (s.examples.map Examples.plain) else none

def Body.plain (words : List Text) (b : Body) : Plain.Body :=
  ⟨b.background.map Background.plain, b.scenarios.map (Scenario.plain words)⟩

def Rule.plain (words : List Text) (r : Rule) : Plain.Rule :=
  ⟨r.heading.plain, r.tags.map (·.name), r.body.plain words⟩

/-- The keywords of outlines in the language of a feature. -/
def Feature.outlineWords (f : Feature) : List Text :=
  ((Dialect.ofName? f.language).getD Dialect.english).outlineKeywords

def Feature.plain (f : Feature) : Plain.Feature where
  heading := f.heading.plain
  tags := f.tags.map (·.name)
  language := f.language
  body := f.body.plain f.outlineWords
  rules := f.rules.map (Rule.plain f.outlineWords)

end Ast

end FeatureTree
