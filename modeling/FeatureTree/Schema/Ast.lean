import FeatureTree.Gherkin.Dialect.Choice
import FeatureTree.Record
import FeatureTree.Schema.Access

/-!
# Decoding trees of the two younger schemas

Both keep the place of a part in a field of its own and describe tags, rows, comments and titles in
the same way; they differ in how the children of a feature and the argument of a step are given.
What they share is here.
-/

namespace FeatureTree

namespace Schema

/-- Decodes every member of a list of values. -/
def decodeAll (decode : Value → Except Fault Record) (vs : List Value) :
    Except Fault (List Record) :=
  vs.mapM decode

/-- The line of a part: the field `line` of its location. -/
def lineOf (v : Value) : Except Fault Value := do
  match ← v.getPresent? "location" with
  | some location => location.get "line"
  | none => return .null

/-- The keyword of a part. -/
def keywordOf (v : Value) : Except Fault Text := v.getTrimmed "keyword"

/-- A tag. -/
def tag (schema : SchemaVersion) (v : Value) : Except Fault Record := do
  let line ← lineOf v
  let name ← v.getAny "name"
  return { kind := .tag, line, name, capsule := ⟨schema, v⟩ }

/-- A comment, trimmed. -/
def comment (schema : SchemaVersion) (v : Value) : Except Fault Record := do
  let line ← lineOf v
  let text ← v.getTrimmed "text"
  return { kind := .comment, line, text := .text text, capsule := ⟨schema, v⟩ }

/-- A table cell. -/
def cell (schema : SchemaVersion) (v : Value) : Except Fault Record := do
  let line ← lineOf v
  let text ← v.getAny "value"
  return { kind := .cell, line, text, capsule := ⟨schema, v⟩ }

/-- A table row. -/
def row (schema : SchemaVersion) (v : Value) : Except Fault Record := do
  let cells ← decodeAll (cell schema) (← v.getMembers "cells")
  let line ← lineOf v
  return { kind := .row, line, cells, capsule := ⟨schema, v⟩ }

/-- The table of a step. -/
def table (schema : SchemaVersion) (v : Value) : Except Fault Record := do
  let line ← lineOf v
  let rows ← decodeAll (row schema) (← v.getMembers "rows")
  return { kind := .table, line, rows, capsule := ⟨schema, v⟩ }

/-- The doc string of a step. The type of its content has had two names. -/
def docString (schema : SchemaVersion) (v : Value) : Except Fault Record := do
  let line ← lineOf v
  let text ← v.getAny "content"
  let contentType ← match ← v.getPresent? "mediaType" with
    | some mediaType => pure mediaType
    | none => v.getAny "contentType"
  return { kind := .docString, line, text, contentType, capsule := ⟨schema, v⟩ }

/-- A titled part with its tags. -/
def titled (schema : SchemaVersion) (kind : Kind) (v : Value) : Except Fault Record := do
  let line ← lineOf v
  let keyword ← keywordOf v
  let name ← v.getAny "name"
  let description ← v.getAny "description"
  let tags ← decodeAll (tag schema) (← v.getMembers "tags")
  return { kind, line, keyword, name, description, tags, capsule := ⟨schema, v⟩ }

/-- Examples: the header row, if there is one, and the rows of the body. -/
def examples (schema : SchemaVersion) (v : Value) : Except Fault Record := do
  let part ← titled schema .example v
  let header ← v.getPresent? "tableHeader"
  let body ← v.getMembers "tableBody"
  let rows ← decodeAll (row schema) (header.toList ++ body)
  return { part with rows }

/-- A step with the argument that `block` finds in it. -/
def step (schema : SchemaVersion) (block : Value → Except Fault (Option Record)) (v : Value) :
    Except Fault Record := do
  let line ← lineOf v
  let keyword ← keywordOf v
  let text ← v.getAny "text"
  let block ← block v
  return { kind := .step, line, keyword, text, block, capsule := ⟨schema, v⟩ }

/-- A section: a background, scenario or outline. -/
def sectionPart (schema : SchemaVersion) (block : Value → Except Fault (Option Record))
    (kind : Kind) (v : Value) : Except Fault Record := do
  let part ← titled schema kind v
  let steps ← decodeAll (step schema block) (← v.getMembers "steps")
  let examples ← decodeAll (examples schema) (← v.getMembers "examples")
  return { part with steps, examples }

end Schema

end FeatureTree
