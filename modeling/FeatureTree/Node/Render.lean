import FeatureTree.Gherkin.Dialect.Choice
import FeatureTree.Layout.Loose
import FeatureTree.Node.Equality

/-!
# Rendering

A node is rendered as the lines of canonical text. Titles stand at the left edge, each inner part
after one blank line; steps are indented by one level, their arguments by one more, and rows of
examples by one level. A node without a keyword gets the first one of its kind in the language of
its feature, or in the default dialect if there is no feature or the feature names no language.

What the lines of a node are is said once, over the facets of its parts: what is asked of a part
while the node around it is rendered. Facets are asked in the order in which the lines come about,
so of several faults the first one is found.

## Main results

* `Node.lines_mk`: the lines of a tree in terms of the lines of its parts
* `Node.lines_directory`: a directory is rendered as its path
* `Node.text_of_lines`: the text of a node all of whose lines are texts
-/

namespace FeatureTree

/-- The primary keyword of a kind of titled part. -/
def PrimaryKeywords.ofKind? (k : PrimaryKeywords) : Kind → Option Text
  | .feature => some k.feature
  | .background => some k.background
  | .scenario => some k.scenario
  | .outline => some k.outline
  | .example => some k.examples
  | .rule => some k.rule
  | _ => none

/-- The keyword of a kind in a language; the kinds without a title have none. -/
def Kind.keywordIn (default language : Value) (kind : Kind) : Except Fault Value := do
  let keywords ← Dialect.keywordsFor default language
  match keywords.ofKind? kind with
  | some keyword => return .text keyword
  | none => throw .missingField

/-- The lines of a node, or why it has none. -/
abbrev Rendered := Except Fault (List Value)

/-- What is asked of a part while the node around it is rendered. -/
structure Facet where
  /-- What the part has in the place of a text. -/
  field : TextField → Except Fault Value
  /-- The written cells of the part, if it is a row. -/
  cells : Unit → Except Fault (List Text)
  /-- The lines of the part. -/
  lines : Unit → Rendered

namespace Facet

/-- A part of which nothing can be asked. -/
def broken (f : Fault) : Facet := ⟨fun _ => .error f, fun _ => .error f, fun _ => .error f⟩

/-- The written form of a cell. -/
def cell (part : Facet) : Except Fault Text := do Layout.cellText (← part.field .value)

/-- The lines of a part, indented by one level. -/
def indented (part : Facet) : Rendered := do Layout.indentValues 1 (← part.lines ())

/-- The lines of a table of rows. -/
def table (rows : List Facet) : Except Fault (List Text) :=
  Layout.gridLines <$> rows.mapM (·.cells ())

/-- The indented lines of some steps. -/
def steps (parts : List Facet) : Rendered := List.flatten <$> parts.mapM indented

/-- The names of some tags, which have to be texts to stand on one line. -/
def tagNames (tags : List Facet) : Except Fault (List Text) := do
  (← tags.mapM (·.field .name)).mapM Layout.textOnly

end Facet

namespace Shape

variable (write : Value → Except Fault Text) (keyword : Except Fault Value)

/-- The lines of a titled node with a body and inner parts. -/
def titledLines (tags : List Facet) (title : Title) (body : List Value) (inner : List Facet) :
    Rendered := do
  let tags ← Facet.tagNames tags
  let line ← Layout.titleOf write (← keyword) title.name
  let description ← Layout.descriptionText title.description
  return Layout.part .text tags line description body (← inner.mapM (·.lines ()))

/-- The lines of a step. -/
def stepLines (text : Value) (block : Option Facet) : Rendered := do
  let line := (← write (← keyword)) ++ ' ' :: (← write text)
  return .text line :: (← (block.map Facet.indented).getD (.ok []))

/-- The comment line that names a language; English needs none. -/
def languageLines (language : Value) : Rendered := do
  if !language.isPresent || language.agrees (.text ['e', 'n']) then return []
  else return [.text ("# language: ".toList ++ (← write language))]

/-- The lines of a feature file. -/
def fileLines : Option Facet → Rendered
  | none => .ok []
  | some held => do
    let lines ← held.lines ()
    return (← languageLines write (← held.field .language)) ++ lines

/-- The lines of a node over the facets of its parts, given how values are written and the keyword
of the node. -/
def lines : Shape Facet → Rendered
  | .cell value => do return [.text (← Layout.cellText value)]
  | .row cells => do return (Layout.gridLines [← cells.mapM (·.cell)]).map .text
  | .tag name => .ok [name]
  | .table rows => List.map .text <$> Facet.table rows
  | .docString content contentType => do
    let content ← Layout.contentText content
    return (Layout.docStringLines content (← write contentType)).map .text
  | .step _ text block => stepLines write keyword text block
  | .background title steps => do titledLines write keyword [] title (← Facet.steps steps) []
  | .scenario title tags steps => do titledLines write keyword tags title (← Facet.steps steps) []
  | .outline title tags steps examples => do
    titledLines write keyword tags title (← Facet.steps steps) examples
  | .example title tags rows => do
    let body := (Layout.indent (← Facet.table rows)).map .text
    titledLines write keyword tags title body []
  | .rule title tags setup tests => titledLines write keyword tags title [] (setup.toList ++ tests)
  | .feature title _ tags setup tests rules =>
    titledLines write keyword tags title [] (setup.toList ++ tests ++ rules)
  | .featureFile _ held _ => fileLines write held
  | .directory path _ _ => .ok [path]
  | .comment text => .ok [text]

end Shape

namespace Node

/-- The keyword of a node: its own, the bullet for a step that has none, else the one of its kind in
the language that applies to it. -/
def keywordOf (default : Value) (o : Origin) (s : Shape α) : Except Fault Value :=
  match s.field? .keyword with
  | none => .error .noAttribute
  | some keyword =>
    if keyword.isPresent then .ok keyword
    else if s.kind = .step then .ok (.text ['*'])
    else s.kind.keywordIn default (((s.field? .language) <|> o.language).getD .null)

/-- What is asked of a tree with its lines. -/
def facet (n : Node) (lines : Rendered) : Facet where
  field := n.shape.ask
  cells _ := do
    let cells ← Fault.ofOption (n.shape.list? .cells)
    cells.mapM fun c => do Layout.cellText (← c.shape.ask .value)
  lines _ := lines

/-- The lines of a node. Keywords that are missing are taken from the default dialect where no
feature gives a language. -/
def lines (default : Value) : Node → Rendered :=
  fold fun o s => (s.map fun (n, lines) => n.facet lines).lines Value.written
    (keywordOf default o s)

/-- The text of a node: its lines joined by line feeds. -/
def text (default : Value) (n : Node) : Except Fault Text := do
  Layout.joinValues (← n.lines default)

/-- The keyword of a node does not depend on its parts. -/
@[simp] theorem keywordOf_map (default : Value) (o : Origin) (f : α → β) (s : Shape α) :
    keywordOf default o (s.map f) = keywordOf default o s := by
  cases s <;> rfl

/-- The lines of a tree in terms of the lines of its parts. -/
theorem lines_mk (default : Value) (o : Origin) (s : Shape Node) :
    (Node.mk o s).lines default =
      (s.map fun n => n.facet (n.lines default)).lines Value.written
        (keywordOf default o s) := by
  rw [lines, fold_mk, keywordOf_map, Shape.map_map]

/-- A directory is rendered as its path. -/
theorem lines_directory (default : Value) (o : Origin) (path : Value) (files dirs : List Node) :
    (Node.mk o (.directory path files dirs)).lines default = .ok [path] := by
  rw [lines_mk]
  rfl

/-- The text of a node all of whose lines are texts. -/
theorem text_of_lines {default : Value} {n : Node} {lines : List Text}
    (h : n.lines default = .ok (lines.map .text)) :
    n.text default = .ok (Text.joinLines lines) := by
  simp [text, h, bind, Except.bind, Layout.joinValues_text]

end Node

end FeatureTree
