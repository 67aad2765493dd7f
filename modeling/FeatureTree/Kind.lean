import FeatureTree.Text.Quoted

/-!
# Kinds of node

The kinds of node of a document tree, their names, and the names by which kinds are looked up. One
look-up name stands for two kinds: `test` means a scenario or an outline.

## Main results

* `Kind.ofName?_name`: a kind is found under its name
* `Kind.name_injective`: no two kinds share a name
-/

namespace FeatureTree

/-- The kinds of node. -/
inductive Kind where
  | cell
  | row
  | tag
  | table
  | docString
  | step
  | background
  | scenario
  | outline
  | example
  | rule
  | feature
  | featureFile
  | directory
  | comment
deriving DecidableEq, Repr, Inhabited

namespace Kind

/-- All kinds. -/
def all : List Kind :=
  [.cell, .row, .tag, .table, .docString, .step, .background, .scenario, .outline, .example,
   .rule, .feature, .featureFile, .directory, .comment]

/-- The name of a kind. -/
def name : Kind → String
  | .cell => "cell"
  | .row => "row"
  | .tag => "tag"
  | .table => "table"
  | .docString => "doc_string"
  | .step => "step"
  | .background => "background"
  | .scenario => "scenario"
  | .outline => "outline"
  | .example => "example"
  | .rule => "rule"
  | .feature => "feature"
  | .featureFile => "feature_file"
  | .directory => "directory"
  | .comment => "comment"

/-- The name of a kind in labels. -/
def title : Kind → String
  | .cell => "Cell"
  | .row => "Row"
  | .tag => "Tag"
  | .table => "Table"
  | .docString => "DocString"
  | .step => "Step"
  | .background => "Background"
  | .scenario => "Scenario"
  | .outline => "Outline"
  | .example => "Example"
  | .rule => "Rule"
  | .feature => "Feature"
  | .featureFile => "FeatureFile"
  | .directory => "Directory"
  | .comment => "Comment"

/-- The kind of a name. -/
def ofName? (name : Text) : Option Kind := all.find? (·.name.toList = name)

/-- The kinds that a look-up name stands for. -/
def lookup? (name : Text) : Option (List Kind) :=
  if name = "test".toList then some [.scenario, .outline] else (ofName? name).map ([·])

/-- Every kind is listed. -/
theorem mem_all (k : Kind) : k ∈ all := by cases k <;> decide

/-- A kind is found under its name. -/
theorem ofName?_name (k : Kind) : ofName? k.name.toList = some k := by cases k <;> decide

/-- No two kinds share a name. -/
theorem name_injective {a b : Kind} (h : a.name = b.name) : a = b := by
  have := congrArg (fun n : String => ofName? n.toList) h
  simpa [ofName?_name] using this

end Kind

end FeatureTree
