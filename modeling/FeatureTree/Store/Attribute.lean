import FeatureTree.Node.Shape

/-!
# Attributes of nodes

What can be asked of a node by name. A node has the texts and parts of its kind, what follows from
them, and what is known of where it comes from. What follows from something else cannot be assigned.

## Main results

* `Attribute.ofName?_name`: every attribute is found under its name
* `Attribute.follows_parent`: the parent of a node is never assigned
-/

namespace FeatureTree

/-- The attributes of nodes. -/
inductive Attribute where
  | text (field : TextField)
  | part (field : PartField)
  | list (field : ListField)
  | kind
  | tagNames
  | appliedTags
  | allTags
  | parameters
  | parameterRow
  | argumentRows
  | values
  | scenarios
  | outlines
  | sourceLine
  | sourceLocation
  | parsingData
  | parent
  | textValue
  | rawData
  /-- The name of the attribute by which a textual node is compared. -/
  | textAttribute
  /-- What is said of a row for examples without parameters. -/
  | noParameters
deriving DecidableEq, Repr

namespace Attribute

/-- The name of an attribute. -/
def name : Attribute → String
  | .text .keyword => "keyword"
  | .text .name => "name"
  | .text .description => "description"
  | .text .text => "text"
  | .text .value => "value"
  | .text .content => "content"
  | .text .contentType => "content_type"
  | .text .language => "language"
  | .text .path => "path"
  | .part .background => "background"
  | .part .block => "block"
  | .part .feature => "feature"
  | .list .tags => "tags"
  | .list .steps => "steps"
  | .list .examples => "examples"
  | .list .rows => "rows"
  | .list .cells => "cells"
  | .list .tests => "tests"
  | .list .rules => "rules"
  | .list .comments => "comments"
  | .list .featureFiles => "feature_files"
  | .list .directories => "directories"
  | .kind => "kind"
  | .tagNames => "tag_names"
  | .appliedTags => "applied_tags"
  | .allTags => "all_tags"
  | .parameters => "parameters"
  | .parameterRow => "parameter_row"
  | .argumentRows => "argument_rows"
  | .values => "values"
  | .scenarios => "scenarios"
  | .outlines => "outlines"
  | .sourceLine => "source_line"
  | .sourceLocation => "source_location"
  | .parsingData => "parsing_data"
  | .parent => "parent"
  | .textValue => "text_value"
  | .rawData => "raw_data"
  | .textAttribute => "text_attribute"
  | .noParameters => "NO_PARAMETERS_MESSAGE"

/-- All attributes. -/
def all : List Attribute :=
  [.text .keyword, .text .name, .text .description, .text .text, .text .value, .text .content,
   .text .contentType, .text .language, .text .path, .part .background, .part .block,
   .part .feature, .list .tags, .list .steps, .list .examples, .list .rows, .list .cells,
   .list .tests, .list .rules, .list .comments, .list .featureFiles, .list .directories, .kind,
   .tagNames, .appliedTags, .allTags, .parameters, .parameterRow, .argumentRows, .values,
   .scenarios, .outlines, .sourceLine, .sourceLocation, .parsingData, .parent, .textValue, .rawData,
   .textAttribute, .noParameters]

/-- The attribute of a name. -/
def ofName? (name : String) : Option Attribute := all.find? (·.name = name)

/-- Whether an attribute follows from others for the nodes of a kind, so that it can be asked for
but not assigned. -/
def follows (a : Attribute) (kind : Kind) : Bool :=
  let shape : Shape Unit := .empty kind
  match a with
  | .text .name => (shape.field? .path).isSome
  | .tagNames | .appliedTags | .allTags => (shape.list? .tags).isSome
  | .parameters | .parameterRow | .argumentRows => kind = .example
  | .values => kind = .row
  | .scenarios | .outlines => (shape.list? .tests).isSome
  | .textValue => shape.textField?.isSome
  | .sourceLine | .parsingData | .parent => true
  | _ => false

/-- The attribute of a name, if it follows from others for the nodes of a kind. -/
def following? (kind : Kind) (name : String) : Option Attribute :=
  (ofName? name).filter (·.follows kind)

/-- Every attribute is found under its name. -/
theorem ofName?_name (a : Attribute) : ofName? a.name = some a := by
  cases a with
  | text f => cases f <;> decide
  | part f => cases f <;> decide
  | list f => cases f <;> decide
  | _ => decide

/-- The parent of a node is never assigned. -/
theorem follows_parent (kind : Kind) : follows .parent kind = true := rfl

end Attribute

end FeatureTree
